import SepplesOS.Lib.Lockstep
import SepplesOS.Mm.FrameSearch
import SepplesOS.Mm.KernelPages
import SepplesOS.Mm.UnmappedVAddr

/-!
# The kernel's directory as the heap sees it

`KernelPages` forgets what the page tables contain.  It abstracts the page tables in memory
(`Abstracts`): which pages of the kernel's directory are mapped, which tables there are, and how many
frames the search for a free page can still find.  The calls of the heap give the same results on
both, in every run.
-/

namespace Paging

open TableForest Lockstep

/-! ## The frames that are left -/

/-- The free frames that `getFreePhysPage` finds: it scans the whole bytes of the bitmap. -/
def freeFrames (m : Paging) : Finset ℕ :=
  (Finset.range (8 * (m.maxPhysPages / 8))).filter fun page => ¬m.Used page

section Frames

variable {m m' : Paging} {live : Set ℕ} {page : ℕ}

theorem mem_freeFrames : page ∈ m.freeFrames ↔ page < 8 * (m.maxPhysPages / 8) ∧ ¬m.Used page := by
  rw [freeFrames, Finset.mem_filter, Finset.mem_range]

/-- The search finds one of the frames that are left, or none is left. -/
theorem getFreePhysPage_left (t : PageTrees m live) :
    (m.getFreePhysPage = 0 ∧ m.freeFrames = ∅) ∨
      ∃ page ∈ m.freeFrames, m.getFreePhysPage = page * PAGESIZE ∧ page * PAGESIZE ≠ 0 := by
  rcases m.getFreePhysPage_cases with ⟨page, hpage, hlt, hfree, -⟩ | ⟨hzero, hall⟩
  · refine Or.inr ⟨page, mem_freeFrames.2 ⟨hlt, hfree⟩, hpage, ?_⟩
    have habove := t.fresh_above_boot hfree (by omega)
    have hpos : 0 < PT0_ADDR + PAGESIZE := by decide
    omega
  · refine Or.inl ⟨hzero, Finset.eq_empty_of_forall_notMem fun q hq => ?_⟩
    obtain ⟨hlt, hfree⟩ := mem_freeFrames.1 hq
    exact hfree (hall q hlt)

theorem freeFrames_used (max : m'.maxPhysPages = m.maxPhysPages)
    (used : ∀ q, m'.Used q ↔ m.Used q ∨ q = page) : m'.freeFrames = m.freeFrames.erase page := by
  ext q
  rw [Finset.mem_erase, mem_freeFrames, mem_freeFrames, max, used, not_or]
  tauto

theorem freeFrames_freed (max : m'.maxPhysPages = m.maxPhysPages)
    (used : ∀ q, m'.Used q ↔ m.Used q ∧ q ≠ page) (scanned : page < 8 * (m.maxPhysPages / 8)) :
    m'.freeFrames = insert page m.freeFrames := by
  ext q
  rw [Finset.mem_insert, mem_freeFrames, mem_freeFrames, max, used]
  by_cases hq : q = page
  · simp [hq, scanned]
  · simp [hq]

end Frames

/-! ## Paths of pages and tables -/

/-- The page directory `dir` of the kernel. -/
def dirPath (dir : ℕ) : List ℕ := [0, dir]

/-- The page table `table` of the kernel. -/
def tablePath (table : ℕ) : List ℕ := [0, table / 512, table % 512]

/-- The page `page` of the kernel. -/
def pagePath (page : ℕ) : List ℕ := [0, page / 512 / 512, page / 512 % 512, page % 512]

section Paths

variable {dir table page page' : ℕ}

theorem tablePath_eq (table : ℕ) : tablePath table = dirPath (table / 512) ++ [table % 512] := rfl

theorem pagePath_eq (page : ℕ) : pagePath page = tablePath (page / 512) ++ [page % 512] := rfl

theorem tablePath_inj {table' : ℕ} : tablePath table = tablePath table' ↔ table = table' := by
  simp only [tablePath, List.cons.injEq, and_true, true_and]
  omega

theorem pagePath_inj : pagePath page = pagePath page' ↔ page = page' := by
  simp only [pagePath, List.cons.injEq, and_true, true_and]
  omega

theorem pagePath_seven : pagePath 7 = [0, 0, 0, 7] := rfl

theorem pagePath_of_table {i : ℕ} (lt : i < 512) :
    pagePath (512 * table + i) = tablePath table ++ [i] := by
  rw [pagePath_eq, show (512 * table + i) / 512 = table by omega,
    show (512 * table + i) % 512 = i by omega]

theorem path_pageAt {vaddr : ℕ} (low : KernelPages.pageAt vaddr < KernelPages.END_OF_PAGES) :
    path vaddr = pagePath (KernelPages.pageAt vaddr) := by
  have hpage : KernelPages.pageAt vaddr = vaddr / 4096 % 2 ^ 36 := rfl
  have hend : KernelPages.END_OF_PAGES = 2 ^ 27 := rfl
  rw [path, index_eq, index_eq, index_eq, index_eq, pagePath]
  simp only [List.cons.injEq, and_true]
  omega

theorem index_of_end {vaddr : ℕ} (high : KernelPages.END_OF_PAGES ≤ KernelPages.pageAt vaddr) :
    index vaddr 39 ≠ 0 := by
  have hpage : KernelPages.pageAt vaddr = vaddr / 4096 % 2 ^ 36 := rfl
  have hend : KernelPages.END_OF_PAGES = 2 ^ 27 := rfl
  rw [index_eq]
  omega

end Paths

end Paging

namespace KernelPages

open Paging TableForest Lockstep

/-! ## The abstraction -/

/-- The kernel's pages are those of the page tables.  Pages that the boot code has not mapped have a
frame that the search for a free page finds again when they are unmapped. -/
structure Abstracts (pages : KernelPages) (m : Paging) (live : Set ℕ) : Prop where
  trees : PageTrees m live
  owner : ∀ page, (pages.owner page).isSome = (walk m.child PML4_ADDR (pagePath page)).isSome
  tables : ∀ table, pages.tables table = (walk m.child PML4_ADDR (tablePath table)).isSome
  dirs : ∀ dir, pages.dirs dir = (walk m.child PML4_ADDR (dirPath dir)).isSome
  frames : pages.frames = some m.freeFrames.card
  found : ∀ page f, pages.owner page ≠ some .boot → walk m.child PML4_ADDR (pagePath page) = some f →
    m.Managed f ∧ f / PAGESIZE < 8 * (m.maxPhysPages / 8)

section Abstracts

variable {pages pages' : KernelPages} {m m' : Paging} {live : Set ℕ} {page : ℕ}

theorem Abstracts.unmapped_iff (h : pages.Abstracts m live) (page : ℕ) :
    pages.owner page = none ↔ walk m.child PML4_ADDR (pagePath page) = none := by
  rw [← Option.isSome_eq_false_iff.trans Option.isNone_iff_eq_none, h.owner,
    Option.isSome_eq_false_iff, Option.isNone_iff_eq_none]

theorem walk_isSome_of_concat {r i : ℕ} {q : List ℕ} (h : (walk m.child r (q ++ [i])).isSome = true) :
    (walk m.child r q).isSome = true := by
  rw [walk_concat] at h
  cases hq : walk m.child r q with
  | none =>
    rw [hq] at h
    cases h
  | some f => rfl

theorem Abstracts.wf (h : pages.Abstracts m live) : pages.Wf where
  low := by
    intro page hpage
    by_contra hhigh
    apply hpage
    rw [h.unmapped_iff]
    have hdir : ∀ f, m.child f (page / 512 / 512) = none := by
      intro f
      unfold END_OF_PAGES at hhigh
      exact if_neg fun hlt => by omega
    rw [pagePath, walk_cons]
    cases m.child PML4_ADDR 0 with
    | none => rfl
    | some f =>
      show walk m.child f _ = none
      rw [walk_cons, hdir]
      rfl
  table := by
    intro page hpage
    rw [h.tables]
    apply walk_isSome_of_concat (i := page % 512)
    rw [← pagePath_eq, ← h.owner]
    exact Option.isSome_iff_ne_none.2 hpage
  dir := by
    intro table htable
    rw [h.tables, tablePath_eq] at htable
    rw [h.dirs]
    exact walk_isSome_of_concat htable

theorem Abstracts.slot (h : pages.Abstracts m live) : pages.owner 7 = some .boot := by
  by_contra hne
  have hmanaged := (h.found 7 PT0_ADDR hne h.trees.walk_slot).1
  exact absurd (reserved_le.trans hmanaged.above) (by decide)

/-! ## A table or a page more -/

/-- The path `p` is added to the pages and tables, with one of the frames. -/
structure AddsPath (pages pages' : KernelPages) (p : List ℕ) : Prop where
  owner : ∀ page, (pages'.owner page).isSome = (decide (pagePath page = p) || (pages.owner page).isSome)
  tables : ∀ table, pages'.tables table = (decide (tablePath table = p) || pages.tables table)
  dirs : ∀ dir, pages'.dirs dir = (decide (dirPath dir = p) || pages.dirs dir)
  frames : ∀ n, pages.frames = some (n + 1) → pages'.frames = some n
  boot : ∀ page, pages'.owner page ≠ some .boot → pagePath page = p ∨ pages.owner page ≠ some .boot

/-- Hanging a frame that is left into the kernel's tree adds its path. -/
theorem Abstracts.hung {f₀ i₀ : ℕ} {q₀ : List ℕ} (h : pages.Abstracts m live)
    (hung : Hung m m' f₀ i₀ page (q₀.length < 3)) (vacant : m.Vacant live PML4_ADDR q₀ i₀ f₀ page)
    (left : page ∈ m.freeFrames) (adds : AddsPath pages pages' (q₀ ++ [i₀])) :
    pages'.Abstracts m' live := by
  obtain ⟨below, place, reached, lt, absent, -, -⟩ := vacant
  have t' := h.trees.hung hung place reached absent below
  -- the temporary page is in both trees
  have hsome : ∀ p : List ℕ, p.length ≤ 4 → (walk m'.child PML4_ADDR p).isSome =
      (decide (p = q₀ ++ [i₀]) || (walk m.child PML4_ADDR p).isSome) := by
    intro p short
    by_cases hslot : p = [0, 0, 0, 7]
    · rw [hslot, t'.walk_slot, h.trees.walk_slot, Option.isSome_some, Bool.or_true]
    · rw [h.trees.walk_hung hung place reached absent (pos_kernel short hslot)]
      by_cases hp : p = q₀ ++ [i₀]
      · simp [hp]
      · simp [hp]
  constructor
  case trees => exact t'
  case owner => exact fun page => by rw [adds.owner, hsome _ (by simp [pagePath]), h.owner]
  case tables => exact fun table => by rw [adds.tables, hsome _ (by simp [tablePath]), h.tables]
  case dirs => exact fun dir => by rw [adds.dirs, hsome _ (by simp [dirPath]), h.dirs]
  case frames =>
    rw [freeFrames_used hung.max hung.used]
    apply adds.frames
    rw [h.frames, Finset.card_erase_add_one left]
  case found =>
    intro q f hq hwalk
    rw [hung.max]
    by_cases hslot : pagePath q = [0, 0, 0, 7]
    · obtain rfl : q = 7 := pagePath_inj.1 hslot
      rw [pagePath_seven, t'.walk_slot] at hwalk
      rcases adds.boot 7 hq with hpath | hboot
      · exact absurd hpath.symm (h.trees.leaf_ne_slot reached lt absent rfl)
      · exact absurd h.slot hboot
    · have hpos : Pos live PML4_ADDR (pagePath q) := pos_kernel (by simp [pagePath]) hslot
      have hnone : walk m.child PML4_ADDR (q₀ ++ [i₀]) = none := by
        rw [walk_concat, reached]
        exact absent
      rcases h.trees.cases_hung hung place reached absent hpos hwalk with
        ⟨⟨-, hpath⟩, rfl⟩ | ⟨hold, -⟩
      · rw [hpath] at hwalk
        refine ⟨(hung.grows h.trees place reached absent).managed h.trees t' place hwalk hnone, ?_⟩
        rw [mul_div_page]
        exact (mem_freeFrames.1 left).1
      · rcases adds.boot q hq with hpath | hboot
        · rw [hpath, hnone] at hold
          cases hold
        · obtain ⟨hmanaged, hscanned⟩ := h.found q f hboot hold
          exact ⟨hmanaged.mono hung.max ((hung.used _).2 (Or.inl hmanaged.used)), hscanned⟩

/-! ## Tables that are made -/

/-- A call makes the table at `p` on both sides, or fails on both.  The frames that were in the tree
stay in their places. -/
inductive Makes (live : Set ℕ) (m₀ : Paging) (p : List ℕ) :
    Option KernelPages → Option (ℕ × Paging) → Prop
  | missing : Makes live m₀ p none none
  | made {pages : KernelPages} {m : Paging} {entry : ℕ} (abstracts : pages.Abstracts m live)
    (reached : walk m.child PML4_ADDR p = some (pageOf entry))
    (keep : ∀ q f, Pos live PML4_ADDR q → walk m₀.child PML4_ADDR q = some f →
      walk m.child PML4_ADDR q = some f) :
    Makes live m₀ p (some pages) (some (entry, m))

theorem Abstracts.makes {q : List ℕ} {f i : ℕ} {made : KernelPages → KernelPages}
    (h : pages.Abstracts m live) (below : q ≠ []) (inner : q.length < 3)
    (reached : walk m.child PML4_ADDR q = some f) (lt : i < 512)
    (adds : ∀ n, pages.frames = some (n + 1) →
      AddsPath pages (made { pages with frames := some n }) (q ++ [i])) :
    Makes live m (q ++ [i])
      (if (walk m.child PML4_ADDR (q ++ [i])).isSome then some pages else pages.takeFrame.map made)
      (m.presentOrNew (f + i * 8) 0) := by
  have hentry : walk m.child PML4_ADDR (q ++ [i]) = m.child f i := by
    rw [walk_concat, reached]
    rfl
  by_cases hpresent : Present (m.phyread (f + i * 8))
  · rw [presentOrNew_present hpresent, hentry, child_of_present lt hpresent]
    refine .made h ?_ fun q f _ hwalk => hwalk
    rw [hentry]
    exact child_of_present lt hpresent
  · have absent := child_of_not_present hpresent
    rw [hentry, absent]
    rcases getFreePhysPage_left h.trees with ⟨hzero, hempty⟩ | ⟨page, hleft, hpage, hne⟩
    · have hframes := h.frames
      rw [hempty, Finset.card_empty] at hframes
      unfold takeFrame presentOrNew
      simp only [hframes, hpresent, hzero, if_true, if_false]
      exact .missing
    · obtain ⟨n, hn⟩ : ∃ n, m.freeFrames.card = n + 1 :=
        Nat.exists_eq_succ_of_ne_zero (Finset.card_ne_zero_of_mem hleft)
      have hframes := h.frames
      rw [hn] at hframes
      have hfree := (mem_freeFrames.1 hleft).2
      have hroom : page < m.maxPhysPages := by
        have := (mem_freeFrames.1 hleft).1
        omega
      have place : Pos live PML4_ADDR (q ++ [i]) := by
        have hlen : (q ++ [i]).length ≤ 3 := by simpa using inner
        refine pos_kernel (by omega) fun heq => ?_
        rw [heq] at hlen
        exact absurd hlen (by decide)
      have vacant : m.Vacant live PML4_ADDR q i f page :=
        ⟨below, place, reached, lt, absent, hfree, hroom⟩
      have hnew : m.presentOrNew (f + i * 8) 0 = some (entryOf page 0, m.addTable f i page 0) := by
        unfold presentOrNew
        simp only [hpresent, if_false, hpage, hne, pageOf_mul, mul_div_page]
        rfl
      have htake : pages.takeFrame = some { pages with frames := some n } := by
        unfold takeFrame
        rw [hframes]
      have hung := vacant.hung_table h.trees (by decide : 0 < PAGESIZE)
      rw [hnew, htake]
      refine .made (h.hung hung vacant hleft (adds n hframes)) ?_ fun q f hq hwalk =>
        h.trees.keep_hung hung place reached absent hq hwalk
      rw [h.trees.walk_hung hung place reached absent place, if_pos ⟨rfl, rfl⟩, entryOf,
        pageOf_or (Nat.mul_mod_left _ _) (flags_small (by decide))]

theorem Abstracts.newDir (h : pages.Abstracts m live) {dir : ℕ} (lt : dir < 512) :
    Makes live m (dirPath dir) (pages.newDir dir) (m.presentOrNew (PDPT0_ADDR + dir * 8) 0) := by
  have hroot : walk m.child PML4_ADDR [0] = some PDPT0_ADDR := h.trees.boot [0] PDPT0_ADDR rfl
  have hmakes := @Abstracts.makes pages m live [0] PDPT0_ADDR dir
    (fun pages => { pages with dirs := Function.update pages.dirs dir true }) h (by simp) (by simp)
    hroot lt fun n hn => ?_
  · unfold KernelPages.newDir
    rw [h.dirs]
    exact hmakes
  · constructor
    case owner => exact fun page => by simp [pagePath]
    case tables => exact fun table => by simp [tablePath]
    case dirs =>
      intro d
      by_cases hd : d = dir
      · simp [hd, dirPath]
      · simp [hd, dirPath]
    case frames => exact fun k hk => by simpa [hn] using hk
    case boot => exact fun page hpage => Or.inr hpage

theorem Abstracts.newTable (h : pages.Abstracts m live) {table f : ℕ}
    (reached : walk m.child PML4_ADDR (dirPath (table / 512)) = some f) :
    Makes live m (tablePath table) (pages.newTable table)
      (m.presentOrNew (f + table % 512 * 8) 0) := by
  have hmakes := @Abstracts.makes pages m live (dirPath (table / 512)) f (table % 512)
    (fun pages => { pages with tables := Function.update pages.tables table true }) h
    (by simp [dirPath]) (by simp [dirPath]) reached (Nat.mod_lt _ (by decide)) fun n hn => ?_
  · unfold KernelPages.newTable
    rw [h.tables]
    exact hmakes
  · rw [← tablePath_eq]
    constructor
    case owner => exact fun page => by simp [pagePath, tablePath]
    case tables =>
      intro t
      by_cases ht : t = table
      · simp [ht]
      · simp [ht, tablePath_inj]
    case dirs => exact fun d => by simp [dirPath, tablePath]
    case frames => exact fun k hk => by simpa [hn] using hk
    case boot => exact fun page hpage => Or.inr hpage

/-! ## The search for an address -/

/-- The relation of the states of both sides. -/
def Rel (live : Set ℕ) (pages : KernelPages) (m : Paging) : Prop := pages.Abstracts m live

theorem Abstracts.entry (h : pages.Abstracts m live) {table f i : ℕ} (lt : i < 512)
    (reached : walk m.child PML4_ADDR (tablePath table) = some f) :
    pages.owner (512 * table + i) = none ↔ ¬Present (m.phyread (f + i * 8)) := by
  have hchild : walk m.child PML4_ADDR (pagePath (512 * table + i)) = m.child f i := by
    rw [pagePath_of_table lt, walk_concat, reached]
    rfl
  rw [h.unmapped_iff, hchild]
  exact ⟨present_of_child lt, child_of_not_present⟩

theorem Abstracts.scanPT (h : pages.Abstracts m live) {table PDe n i : ℕ}
    (reached : walk m.child PML4_ADDR (tablePath table) = some (pageOf PDe)) (enough : i + n = 512) :
    pages.firstUnmapped n (512 * table + i) = (m.scanPT PDe n i).map fun i => 512 * table + i := by
  induction n generalizing i with
  | zero => rfl
  | succ n ih =>
    have hentry := @Abstracts.entry pages m live h table _ i (by omega) reached
    rw [firstUnmapped, Paging.scanPT]
    by_cases hpresent : Present (m.phyread (pageOf PDe + i * 8))
    · rw [if_neg fun hnone => hentry.1 hnone hpresent, if_pos hpresent]
      exact @ih (i + 1) (by omega)
    · rw [if_pos (hentry.2 hpresent), if_neg hpresent]
      rfl

theorem Abstracts.scan_start (h : pages.Abstracts m live) {table f : ℕ}
    (reached : walk m.child PML4_ADDR (tablePath table) = some f) :
    (if f = PT0_ADDR then FREE_PAGES_START / PAGESIZE else 0) = startIndex table := by
  have hfirst : walk m.child PML4_ADDR (tablePath 0) = some PT0_ADDR :=
    h.trees.boot [0, 0, 0] PT0_ADDR rfl
  have hplace : ∀ t, Interior live PML4_ADDR (tablePath t) := fun t =>
    ⟨pos_kernel (by simp [tablePath]) (by simp [tablePath]), by simp [tablePath]⟩
  have hiff : f = PT0_ADDR ↔ table = 0 := by
    constructor
    · rintro rfl
      exact tablePath_inj.1 (h.trees.separate _ _ _ _ _ (hplace table) (hplace 0) reached hfirst).2
    · rintro rfl
      exact Option.some.inj (reached.symm.trans hfirst)
  exact if_congr hiff rfl rfl

/-- The loop over a page directory: its tables are one stretch of the tables of the abstraction. -/
theorem Abstracts.scanPD (h : pages.Abstracts m live) {PDPTe PDPTi k n PDi : ℕ}
    (reached : walk m.child PML4_ADDR (dirPath PDPTi) = some (pageOf PDPTe))
    (enough : PDi + n = 512) :
    Through (Rel live) (fun pages => scanTables pages k (512 * (PDPTi + 1)))
      (scanTables pages (n + k) (512 * PDPTi + PDi)) (Paging.scanPD PDPTe 0 PDPTi m n PDi) := by
  induction n generalizing pages m PDi with
  | zero =>
    rw [Nat.zero_add, show 512 * PDPTi + PDi = 512 * (PDPTi + 1) by omega]
    exact .through h
  | succ n ih =>
    have hdiv : (512 * PDPTi + PDi) / 512 = PDPTi := by omega
    have hmod : (512 * PDPTi + PDi) % 512 = PDi := by omega
    rw [show n + 1 + k = n + k + 1 by omega, scanTables, Paging.scanPD, hdiv, h.dirs, reached,
      Option.isSome_some, if_pos rfl]
    have hmakes := @Abstracts.newTable pages m live h (512 * PDPTi + PDi) _ (by rw [hdiv]; exact reached)
    rw [hmod] at hmakes
    generalize pages.newTable (512 * PDPTi + PDi) = made at hmakes
    generalize m.presentOrNew (pageOf PDPTe + PDi * 8) 0 = made' at hmakes
    cases hmakes with
    | missing => exact .missing
    | @made pages₁ m₁ PDe h₁ htable keep =>
      have hstart := startIndex_cases (512 * PDPTi + PDi)
      have hpages : FREE_PAGES_START / PAGESIZE = 256 := rfl
      dsimp only
      rw [h₁.scan_start htable, h₁.scanPT htable (by omega)]
      cases hscan : m₁.scanPT PDe (512 - startIndex (512 * PDPTi + PDi))
          (startIndex (512 * PDPTi + PDi)) with
      | some PTi =>
        have haddr : (512 * (512 * PDPTi + PDi) + PTi) * PAGESIZE =
            (0 <<< 39) + (PDPTi <<< 30) + (PDi <<< 21) + (PTi <<< 12) := by
          simp only [Nat.shiftLeft_eq]
          show _ * 4096 = _
          omega
        dsimp only [Option.map_some]
        rw [haddr]
        exact .found h₁
      | none =>
        have hplace : Pos live PML4_ADDR (dirPath PDPTi) :=
          pos_kernel (by simp [dirPath]) (by simp [dirPath])
        exact @ih pages₁ m₁ h₁ (PDi + 1) (keep _ _ hplace reached) (by omega)

theorem Abstracts.scanPDPT (h : pages.Abstracts m live) {PML4e n PDPTi : ℕ}
    (root : pageOf PML4e = PDPT0_ADDR) (enough : PDPTi + n = 512) :
    Through (Rel live) (fun _ => none) (scanTables pages (512 * n) (512 * PDPTi))
      (Paging.scanPDPT PML4e 0 m n PDPTi) := by
  induction n generalizing pages m PDPTi with
  | zero => exact @Through.through _ _ _ (Rel live) (fun _ => none) pages m h
  | succ n ih =>
    have hentry : walk m.child PML4_ADDR (dirPath PDPTi) = m.child PDPT0_ADDR PDPTi := by
      rw [show dirPath PDPTi = [0] ++ [PDPTi] from rfl, walk_concat,
        h.trees.boot [0] PDPT0_ADDR rfl]
      rfl
    by_cases hpresent : Present (m.phyread (PDPT0_ADDR + PDPTi * 8))
    · rw [child_of_present (by omega) hpresent] at hentry
      have hround : Paging.scanPDPT PML4e 0 m (n + 1) PDPTi =
          andThen (Paging.scanPD (m.phyread (PDPT0_ADDR + PDPTi * 8)) 0 PDPTi m 512 0)
            fun m => Paging.scanPDPT PML4e 0 m n (PDPTi + 1) := by
        rw [Paging.scanPDPT, root, if_pos hpresent]
        rcases Paging.scanPD (m.phyread (PDPT0_ADDR + PDPTi * 8)) 0 PDPTi m 512 0 with
          _ | ⟨_ | vaddr, m'⟩ <;> rfl
      have hscan := @Abstracts.scanPD pages m live h _ PDPTi (512 * n) 512 0 hentry rfl
      rw [hround, show 512 * (n + 1) = 512 + 512 * n by omega]
      exact hscan.andThen fun pages' m' h' => ih h' (by omega)
    · rw [child_of_not_present hpresent] at hentry
      rw [show 512 * (n + 1) = 512 * n + 511 + 1 by omega, scanTables, Paging.scanPDPT, root,
        if_neg hpresent, show 512 * PDPTi / 512 = PDPTi by omega, h.dirs, hentry]
      exact .missing

theorem Abstracts.first_entry (h : pages.Abstracts m live) :
    Present (m.phyread (PML4_ADDR + 0 * 8)) ∧ pageOf (m.phyread (PML4_ADDR + 0 * 8)) = PDPT0_ADDR := by
  have hwalk := h.trees.boot [0] PDPT0_ADDR rfl
  rw [walk_cons] at hwalk
  obtain ⟨f, hf, hnil⟩ := Option.bind_eq_some_iff.1 hwalk
  obtain ⟨-, hpresent, hpage⟩ := child_some hf
  exact ⟨hpresent, hpage.trans (Option.some.inj hnil)⟩

/-- `getUnmappedVAddr` finds what the abstraction finds. -/
theorem Abstracts.getUnmappedVAddr (h : pages.Abstracts m live) :
    Agree (Rel live) pages.getUnmappedVAddr m.getUnmappedVAddr := by
  obtain ⟨hpresent, hpage⟩ := h.first_entry
  have hlast : ∀ pages' m', Rel live pages' m' → scanPML4 m' (510 + 1) 1 = none := by
    intro pages' m' h'
    rw [scanPML4, if_neg]
    intro hsecond
    have hchild := child_of_present (by decide) hsecond
    exact absurd (h'.trees.top _ _ _ (Or.inl rfl) hchild) (by decide)
  have hround : scanPML4 m (511 + 1) 0 =
      andThen (Paging.scanPDPT (m.phyread (PML4_ADDR + 0 * 8)) 0 m 512 0)
        fun m => scanPML4 m (510 + 1) 1 := by
    rw [scanPML4, if_pos hpresent]
    rcases Paging.scanPDPT (m.phyread (PML4_ADDR + 0 * 8)) 0 m 512 0 with
      _ | ⟨_ | vaddr, m'⟩ <;> rfl
  have hsearch : m.getUnmappedVAddr =
      (scanPML4 m (511 + 1) 0).map fun r => (r.1.getD 0, r.2) := by
    unfold Paging.getUnmappedVAddr
    cases scanPML4 m (511 + 1) 0 <;> rfl
  have hscan := (h.scanPDPT hpage (Nat.zero_add 512)).agree hlast
  rw [hsearch, hround]
  simpa [Option.map_map, Function.comp_def, KernelPages.getUnmappedVAddr] using
    hscan.map fun o => o.getD 0

/-! ## `mapPage` -/

theorem Abstracts.leaf (h : pages.Abstracts m live) {f : ℕ} (who : Owner) (vaddr : ℕ)
    (reached : walk m.child PML4_ADDR (tablePath (page / 512)) = some f)
    (absent : ¬Present (m.phyread (f + page % 512 * 8))) :
    Agree (Rel live)
      (match pages.takeFrame with
        | none => some (0, pages)
        | some pages =>
          some (vaddr, { pages with owner := Function.update pages.owner page (some who) }))
      (if m.getFreePhysPage = 0 then some (0, m)
        else some (vaddr, (m.phywrite (f + page % 512 * 8) (pageOf m.getFreePhysPage |||
          (PAGE_ATTR_PRESENT ||| PAGE_ATTR_WRITE ||| 0))).markPhysPageUsed
            (pageOf m.getFreePhysPage / PAGESIZE))) := by
  have hframes := h.frames
  unfold takeFrame
  rcases getFreePhysPage_left h.trees with ⟨hzero, hempty⟩ | ⟨frame, hleft, hframe, hne⟩
  · rw [hempty, Finset.card_empty] at hframes
    rw [hframes, if_pos hzero]
    exact .both h
  · obtain ⟨n, hn⟩ : ∃ n, m.freeFrames.card = n + 1 :=
      Nat.exists_eq_succ_of_ne_zero (Finset.card_ne_zero_of_mem hleft)
    rw [hn] at hframes
    have hroom : frame < m.maxPhysPages := by
      have := (mem_freeFrames.1 hleft).1
      omega
    have hchild := child_of_not_present absent
    have place : Pos live PML4_ADDR (tablePath (page / 512) ++ [page % 512]) :=
      pos_kernel (by simp [tablePath])
        (h.trees.leaf_ne_slot reached (Nat.mod_lt _ (by decide)) hchild rfl)
    have vacant : m.Vacant live PML4_ADDR (tablePath (page / 512)) (page % 512) f frame :=
      ⟨by simp [tablePath], place, reached, Nat.mod_lt _ (by decide), hchild,
        (mem_freeFrames.1 hleft).2, hroom⟩
    have hung := vacant.hung_leaf h.trees (by decide : 0 < PAGESIZE) rfl
    rw [hframes, if_neg (hframe ▸ hne), hframe, pageOf_mul, mul_div_page]
    refine .both (h.hung hung vacant hleft ?_)
    rw [← pagePath_eq]
    constructor
    case owner =>
      intro q
      by_cases hq : q = page
      · simp [hq]
      · simp [hq, pagePath_inj]
    case tables => exact fun table => by simp [pagePath, tablePath]
    case dirs => exact fun dir => by simp [pagePath, dirPath]
    case frames => exact fun k hk => by simpa [hframes] using hk
    case boot =>
      intro q hq
      by_cases heq : q = page
      · exact Or.inl (by rw [heq])
      · refine Or.inr fun hboot => hq ?_
        simp [heq, hboot]

theorem Abstracts.mapPageAt (h : pages.Abstracts m live) (who : Owner) (vaddr : ℕ) :
    Agree (Rel live) (pages.mapPageAt who vaddr) (m.mapPageAt vaddr 0 0 PML4_ADDR) := by
  unfold KernelPages.mapPageAt Paging.mapPageAt
  dsimp only
  by_cases high : END_OF_PAGES ≤ pageAt vaddr
  · rw [if_pos high, if_neg]
    · exact .missing
    · intro hpresent
      have hchild := child_of_present (index_lt _ _) hpresent
      exact index_of_end high (h.trees.top _ _ _ (Or.inl rfl) hchild)
  · have hpath := path_pageAt (not_le.1 high)
    simp only [path, pagePath, List.cons.injEq, and_true] at hpath
    obtain ⟨h₃₉, h₃₀, h₂₁, h₁₂⟩ := hpath
    obtain ⟨hpresent, hroot⟩ := h.first_entry
    generalize pageAt vaddr = page at *
    rw [if_neg high, h₃₉, h₃₀, h₂₁, h₁₂, if_pos hpresent, hroot, Nat.zero_and,
      show page / 2 ^ 18 = page / 512 / 512 by omega]
    have hdir := @Abstracts.newDir pages m live h (page / 512 / 512)
      (by unfold END_OF_PAGES at high; omega)
    generalize pages.newDir (page / 512 / 512) = made at hdir
    generalize m.presentOrNew (PDPT0_ADDR + page / 512 / 512 * 8) 0 = made' at hdir
    cases hdir with
    | missing => exact .missing
    | @made pages₁ m₁ PDPTentry habs₁ hreached₁ _ =>
      dsimp only
      have htable := habs₁.newTable hreached₁
      generalize pages₁.newTable (page / 512) = made at htable
      generalize m₁.presentOrNew (pageOf PDPTentry + page / 512 % 512 * 8) 0 = made' at htable
      cases htable with
      | missing => exact .missing
      | @made pages₂ m₂ PDentry habs₂ hreached₂ _ =>
        dsimp only
        have hentry := habs₂.entry (Nat.mod_lt page (by decide)) hreached₂
        rw [show 512 * (page / 512) + page % 512 = page by omega] at hentry
        by_cases hmapped : Present (m₂.phyread (pageOf PDentry + page % 512 * 8))
        · rw [if_pos fun hnone => hentry.1 hnone hmapped, if_pos hmapped]
          exact .both habs₂
        · rw [if_neg (not_not.2 (hentry.2 hmapped)), if_neg hmapped, if_pos rfl]
          exact habs₂.leaf who vaddr hreached₂ hmapped

/-- `mapPage` maps what the abstraction maps. -/
theorem Abstracts.mapPage (h : pages.Abstracts m live) (who : Owner) (vaddr : ℕ) :
    Agree (Rel live) (pages.mapPage who vaddr) (m.mapPage vaddr 0 0 PML4_ADDR) := by
  unfold KernelPages.mapPage Paging.mapPage
  by_cases hnull : vaddr = 0
  · rw [if_pos hnull, if_pos hnull]
    have hsearch := h.getUnmappedVAddr
    generalize pages.getUnmappedVAddr = found at hsearch
    generalize m.getUnmappedVAddr = found' at hsearch
    cases hsearch with
    | missing => exact .missing
    | @both vaddr pages₁ m₁ habs =>
      dsimp only
      by_cases hzero : vaddr = 0
      · rw [if_pos hzero, if_pos hzero]
        exact .both habs
      · rw [if_neg hzero, if_neg hzero]
        exact habs.mapPageAt who vaddr
  · rw [if_neg hnull, if_neg hnull]
    exact h.mapPageAt who vaddr

/-! ## `unmapPage` -/

theorem Abstracts.path_of_walk (h : pages.Abstracts m live) {vaddr f : ℕ}
    (hwalk : walk m.child PML4_ADDR (path vaddr) = some f) :
    path vaddr = pagePath (pageAt vaddr) := by
  apply path_pageAt
  by_contra high
  rw [path, walk_cons] at hwalk
  obtain ⟨g, hfirst, -⟩ := Option.bind_eq_some_iff.1 hwalk
  exact index_of_end (not_lt.1 high) (h.trees.top _ _ _ (Or.inl rfl) hfirst)

theorem Abstracts.owner_none (h : pages.Abstracts m live) {vaddr : ℕ}
    (hwalk : walk m.child PML4_ADDR (path vaddr) = none) : pages.owner (pageAt vaddr) = none := by
  by_cases low : pageAt vaddr < END_OF_PAGES
  · rw [h.unmapped_iff, ← path_pageAt low]
    exact hwalk
  · by_contra hmapped
    exact low (h.wf.low _ hmapped)

/-- `unmapPage` of a page that the boot code has not mapped unmaps what the abstraction unmaps. -/
theorem Abstracts.unmapPage (h : pages.Abstracts m live) {vaddr : ℕ}
    (own : pages.owner (pageAt vaddr) ≠ some .boot) :
    (pages.unmapPage vaddr).Abstracts (m.unmapPage vaddr) live := by
  classical
  have hfound : ∀ f, walk m.child PML4_ADDR (path vaddr) = some f →
      m.Managed f ∧ f / PAGESIZE < 8 * (m.maxPhysPages / 8) := by
    intro f hf
    rw [h.path_of_walk hf] at hf
    exact h.found _ f own hf
  have managed := fun f hf => (hfound f hf).1
  have t' := (unmapPage_spec h.trees managed).1
  have hwalks := @walk_unmapPage live m h.trees vaddr managed PML4_ADDR
  unfold KernelPages.unmapPage
  rcases unmapPage_cut h.trees managed with ⟨hnone, hsame⟩ | ⟨f₃, frame, hcut, -, hreached, hm, hchild⟩
  · rw [if_pos (h.owner_none hnone), hsame]
    exact h
  · have hleaf : walk m.child PML4_ADDR (path vaddr) = some (frame * PAGESIZE) := by
      rw [show path vaddr = [index vaddr 39, index vaddr 30, index vaddr 21] ++ [index vaddr 12]
        from rfl, walk_concat, hreached]
      exact hchild
    have hpath := h.path_of_walk hleaf
    have hscanned := (hfound _ hleaf).2
    rw [mul_div_page] at hscanned
    rw [hpath] at hleaf hwalks
    generalize pageAt vaddr = page at *
    have hmapped : pages.owner page ≠ none := by
      intro hnone
      rw [(h.unmapped_iff page).1 hnone] at hleaf
      cases hleaf
    have hseven : page ≠ 7 := by
      rintro rfl
      exact own h.slot
    -- the temporary page is in both trees
    have hall : ∀ p : List ℕ, p.length ≤ 4 → walk (m.unmapPage vaddr).child PML4_ADDR p =
        if p = pagePath page then none else walk m.child PML4_ADDR p := by
      intro p short
      by_cases hslot : p = [0, 0, 0, 7]
      · rw [hslot, t'.walk_slot, h.trees.walk_slot, if_neg]
        exact fun heq => hseven (pagePath_inj.1 (pagePath_seven.trans heq)).symm
      · rw [hwalks (pos_kernel short hslot)]
        simp only [true_and]
    rw [if_neg hmapped]
    constructor
    case trees => exact t'
    case owner =>
      intro q
      rw [hall _ (by simp [pagePath])]
      by_cases hq : q = page
      · simp [hq]
      · rw [if_neg fun heq => hq (pagePath_inj.1 heq), ← h.owner]
        exact congrArg Option.isSome (Function.update_of_ne hq _ _)
    case tables =>
      intro table
      rw [hall _ (by simp [tablePath]), if_neg (by simp [tablePath, pagePath])]
      exact h.tables table
    case dirs =>
      intro dir
      rw [hall _ (by simp [dirPath]), if_neg (by simp [dirPath, pagePath])]
      exact h.dirs dir
    case frames =>
      have hused := hm.used
      rw [mul_div_page] at hused
      rw [freeFrames_freed hcut.max hcut.used hscanned, Finset.card_insert_of_notMem fun hmem =>
        (mem_freeFrames.1 hmem).2 hused, h.frames]
      rfl
    case found =>
      intro q f hq hwalk
      rw [hall _ (by simp [pagePath])] at hwalk
      split_ifs at hwalk with heq
      have hne : q ≠ page := fun h => heq (congrArg pagePath h)
      have hown : pages.owner q ≠ some .boot := fun hboot =>
        hq ((Function.update_of_ne hne _ _).trans hboot)
      obtain ⟨hmanaged, hlt⟩ := h.found q f hown hwalk
      rw [hcut.max]
      refine ⟨hmanaged.mono hcut.max ((hcut.used _).2 ⟨hmanaged.used, ?_⟩), hlt⟩
      intro hframe
      have hf : f = frame * PAGESIZE := by
        rw [← hframe, Nat.div_mul_cancel (Nat.dvd_of_mod_eq_zero hmanaged.aligned)]
      rw [← hf] at hleaf
      have hplace : ∀ r, pages.owner r ≠ some .boot → Pos live PML4_ADDR (pagePath r) := by
        intro r hr
        refine pos_kernel (by simp [pagePath]) fun hslot => hr ?_
        rw [pagePath_inj.1 (hslot.trans pagePath_seven.symm)]
        exact h.slot
      exact heq (h.trees.sep _ _ _ _ f (hplace q hown) (hplace page own) hwalk hleaf hmanaged).2

end Abstracts

/-! ## Runs -/

/-- A call of the heap. -/
inductive PageCall
  | search
  | map (who : Owner) (vaddr : ℕ)
  | unmap (vaddr : ℕ)

/-- A call on the abstraction. -/
def call : PageCall → KernelPages → Option (ℕ × KernelPages)
  | .search, pages => pages.getUnmappedVAddr
  | .map who vaddr, pages => pages.mapPage who vaddr
  | .unmap vaddr, pages => some (0, pages.unmapPage vaddr)

/-- The call on the page tables, without a physical address and without flags. -/
def callPaging : PageCall → Paging → Option (ℕ × Paging)
  | .search, m => m.getUnmappedVAddr
  | .map _ vaddr, m => m.mapPage vaddr 0 0 PML4_ADDR
  | .unmap vaddr, m => some (0, m.unmapPage vaddr)

/-- Pages of the boot code are not unmapped. -/
def Allowed : PageCall → KernelPages → Prop
  | .unmap vaddr, pages => pages.owner (pageAt vaddr) ≠ some .boot
  | _, _ => True

instance (m : Paging) (f : ℕ) : Decidable (m.Managed f) :=
  decidable_of_iff (f % PAGESIZE = 0 ∧ m.reservedPages ≤ f / PAGESIZE ∧
    f / PAGESIZE < m.maxPhysPages ∧ m.Used (f / PAGESIZE))
    ⟨fun h => ⟨h.1, h.2.1, h.2.2.1, h.2.2.2⟩, fun h => ⟨h.aligned, h.above, h.room, h.used⟩⟩

/-- The abstraction of the page tables.  Mapped pages whose frames are not given back count as those
of the boot code. -/
def ofPaging (m : Paging) : KernelPages where
  owner page := (walk m.child PML4_ADDR (pagePath page)).map fun f =>
    if m.Managed f ∧ f / PAGESIZE < 8 * (m.maxPhysPages / 8) then .foreign else .boot
  tables table := (walk m.child PML4_ADDR (tablePath table)).isSome
  dirs dir := (walk m.child PML4_ADDR (dirPath dir)).isSome
  frames := some m.freeFrames.card

section Runs

variable {m : Paging} {live : Set ℕ}

theorem ofPaging_abstracts (t : PageTrees m live) : (ofPaging m).Abstracts m live where
  trees := t
  owner := fun page => Option.isSome_map
  tables := fun _ => rfl
  dirs := fun _ => rfl
  frames := rfl
  found := by
    intro page f howner hwalk
    unfold ofPaging at howner
    dsimp only at howner
    rw [hwalk, Option.map_some] at howner
    by_contra hnot
    rw [if_neg hnot] at howner
    exact howner rfl

theorem call_agree (c : PageCall) {pages : KernelPages} (h : pages.Abstracts m live)
    (allowed : Allowed c pages) : Agree (Rel live) (call c pages) (callPaging c m) := by
  cases c with
  | search => exact h.getUnmappedVAddr
  | map who vaddr => exact h.mapPage who vaddr
  | unmap vaddr => exact .both (h.unmapPage allowed)

/-- From every reachable state of the paging functions, any calls of the heap have the same results on
the page tables in memory and on their abstraction, or fail at the same call; and the state after them
is abstracted again. -/
theorem calls_agree {availableMem : ℕ} {s : PagingState}
    (reach : PagingState.Reachable availableMem s) (calls : List PageCall)
    (allowed : Along Allowed call calls (ofPaging s.m)) :
    Agree (fun pages m => pages.Abstracts m s.live ∧ pages.Wf) (run call calls (ofPaging s.m))
      (run callPaging calls s.m) := by
  have habs := ofPaging_abstracts (PagingState.inv_reachable reach).trees
  have hrun := run_agree (fun c pages m h => call_agree c h) habs allowed
  exact hrun.mono fun pages m h => ⟨h, h.wf⟩

/-- A page that is not mapped is unmapped, and the heap gets its first page, after `Paging::init`. -/
theorem calls_agree_boot :
    Agree (fun pages m => pages.Abstracts m ∅ ∧ pages.Wf)
      (run call [.unmap 0x150000, .map .heap 0, .search]
        (ofPaging (PagingState.boot (fun _ => 0) (fun _ => 0) 0x1000000).m))
      (run callPaging [.unmap 0x150000, .map .heap 0, .search]
        (PagingState.boot (fun _ => 0) (fun _ => 0) 0x1000000).m) := by
  have hunmapped := PagingState.search_boot.2.1
  have hlive : (PagingState.boot (fun _ => 0) (fun _ => 0) 0x1000000).live = ∅ := rfl
  have reach : PagingState.Reachable 0x1000000
    (PagingState.boot (fun _ => 0) (fun _ => 0) 0x1000000) := .boot _ _
  generalize PagingState.boot (fun _ => 0) (fun _ => 0) 0x1000000 = s at hunmapped hlive reach ⊢
  rw [← hlive]
  apply calls_agree reach
  refine ⟨?_, fun _ _ _ => ⟨trivial, fun _ _ _ => ⟨trivial, fun _ _ _ => trivial⟩⟩⟩
  have hpath : pagePath (pageAt 0x150000) = path 0x150000 := (path_pageAt (by decide)).symm
  have howner : (ofPaging s.m).owner (pageAt 0x150000) = none := by
    unfold ofPaging
    dsimp only
    rw [hpath]
    unfold PagingState.translate at hunmapped
    rw [hunmapped]
    rfl
  show (ofPaging s.m).owner (pageAt 0x150000) ≠ some .boot
  rw [howner]
  simp

end Runs

end KernelPages
