import SepplesOS.Mm.Translation

/-!
# The search for a virtual address

`getUnmappedVAddr` goes through the tables of the kernel's directory from the first entry on.  It
makes a page table only behind full ones, where the first page of the new table is the one it looks
for; so it returns the lowest page that is not mapped.
-/

namespace Paging

open TableForest

section Scan

variable {m m' : Paging} {live : Set ℕ}

/-! ## A page table -/

theorem scanPT_absent {PDe n PTi j : ℕ} (h : m.scanPT PDe n PTi = some j) :
    PTi ≤ j ∧ j < PTi + n ∧ ¬Present (m.phyread (pageOf PDe + j * 8)) := by
  induction n generalizing PTi with
  | zero => cases h
  | succ n ih =>
    rw [scanPT] at h
    by_cases hpresent : Present (m.phyread (pageOf PDe + PTi * 8))
    · rw [if_pos hpresent] at h
      obtain ⟨hle, hlt, habsent⟩ := ih h
      exact ⟨by omega, by omega, habsent⟩
    · rw [if_neg hpresent] at h
      obtain rfl := Option.some.inj h
      exact ⟨le_rfl, by omega, hpresent⟩

theorem scanPT_least {PDe n PTi j : ℕ} (from_le : PTi ≤ j)
    (before : j < (m.scanPT PDe n PTi).getD (PTi + n)) : Present (m.phyread (pageOf PDe + j * 8)) := by
  induction n generalizing PTi with
  | zero =>
    rw [scanPT, Option.getD_none] at before
    omega
  | succ n ih =>
    rw [scanPT] at before
    by_cases hpresent : Present (m.phyread (pageOf PDe + PTi * 8))
    · rw [if_pos hpresent] at before
      rcases from_le.eq_or_lt with rfl | hlt
      · exact hpresent
      · exact @ih (PTi + 1) hlt (by rwa [Nat.add_right_comm, Nat.add_assoc])
    · rw [if_neg hpresent, Option.getD_some] at before
      omega

/-! ## Pages of the first page directory -/

theorem path_low {u : ℕ} (low : u < 2 ^ 30) : path u = [0, 0] ++ [u / 2 ^ 21] ++ [u / 2 ^ 12 % 512] := by
  have h₃₉ : u / 2 ^ 39 % 512 = 0 := by omega
  have h₃₀ : u / 2 ^ 30 % 512 = 0 := by omega
  have h₂₁ : u / 2 ^ 21 % 512 = u / 2 ^ 21 := by omega
  rw [path, index_eq, index_eq, index_eq, index_eq, h₃₉, h₃₀, h₂₁]
  rfl

theorem PageTrees.walk_table (t : PageTrees m live) (i : ℕ) :
    walk m.child PML4_ADDR ([0, 0] ++ [i]) = m.child PD0_ADDR i := by
  rw [walk_concat, t.boot [0, 0] PD0_ADDR rfl]
  rfl

theorem PageTrees.walk_low (t : PageTrees m live) {u i f : ℕ} (low : u < 2 ^ 30)
    (hi : u / 2 ^ 21 = i) (table : m.child PD0_ADDR i = some f) :
    walk m.child PML4_ADDR (path u) = m.child f (u / 2 ^ 12 % 512) := by
  rw [path_low low, hi, walk_concat, t.walk_table, table]
  rfl

theorem PageTrees.table_PT0 (t : PageTrees m live) {i f : ℕ} (table : m.child PD0_ADDR i = some f) :
    f = PT0_ADDR ↔ i = 0 := by
  have hfirst := t.boot [0, 0, 0] PT0_ADDR rfl
  have htable := (t.walk_table i).trans table
  have hplace : ∀ j, Interior live PML4_ADDR ([0, 0] ++ [j]) := fun j =>
    ⟨pos_kernel (by simp) (by simp), by simp⟩
  constructor
  · rintro rfl
    have heq := (t.separate _ _ _ _ _ (hplace i) (hplace 0) htable hfirst).2
    simpa using heq
  · rintro rfl
    exact Option.some.inj (htable.symm.trans hfirst)

/-- Where the scan of a page table begins. -/
def startIndex (i : ℕ) : ℕ := if i = 0 then FREE_PAGES_START / PAGESIZE else 0

theorem startIndex_le {u i : ℕ} (above : FREE_PAGES_START ≤ u) (hi : u / 2 ^ 21 = i) :
    startIndex i ≤ u / 2 ^ 12 % 512 := by
  have hstart : 0x100000 ≤ u := above
  unfold startIndex
  split_ifs with hzero
  · show 0x100 ≤ _
    omega
  · exact Nat.zero_le _

/-! ## The page directory -/

/-- The lowest page from `FREE_PAGES_START` on that is not mapped. -/
structure Lowest (m : Paging) (v : ℕ) : Prop where
  aligned : v % PAGESIZE = 0
  above : FREE_PAGES_START ≤ v
  low : v < 2 ^ 30
  unmapped : walk m.child PML4_ADDR (path v) = none
  least : ∀ u, FREE_PAGES_START ≤ u → u < v → walk m.child PML4_ADDR (path u) ≠ none

/-- The page table for `v` is there, or it is missing, `v` is its first page and it is made. -/
inductive TableFor (m : Paging) (live : Set ℕ) (v : ℕ) : Paging → Prop
  | found (present : m.child PD0_ADDR (v / 2 ^ 21) ≠ none) : TableFor m live v m
  | made (page : ℕ) (first : v % 2 ^ 21 = 0)
    (vacant : m.Vacant live PML4_ADDR [0, 0] (v / 2 ^ 21) PD0_ADDR page) :
    TableFor m live v (m.addTable PD0_ADDR (v / 2 ^ 21) page 0)

theorem presentOrNew_present {addr : ℕ} (h : Present (m.phyread addr)) (flags : ℕ) :
    m.presentOrNew addr flags = some (m.phyread addr, m) := by
  unfold presentOrNew
  simp only [h, if_true]

theorem presentOrNew_absent {f i : ℕ} (h : ¬Present (m.phyread (f + i * 8)))
    (frame : m.getFreePhysPage ≠ 0) (flags : ℕ) :
    ∃ page, ¬m.Used page ∧ page < m.maxPhysPages ∧
      m.presentOrNew (f + i * 8) flags = some (entryOf page flags, m.addTable f i page flags) := by
  obtain ⟨page, hpage, hroom, hfree⟩ := getFreePhysPage_spec frame
  refine ⟨page, hfree, hroom, ?_⟩
  have hne : page * PAGESIZE ≠ 0 := hpage ▸ frame
  unfold presentOrNew
  simp only [h, if_false, hpage, hne, pageOf_mul, mul_div_page]
  rfl

theorem address_eq (PDi PTi : ℕ) :
    (0 <<< 39) + (0 <<< 30) + (PDi <<< 21) + (PTi <<< 12) = PDi * 2 ^ 21 + PTi * 2 ^ 12 := by
  simp only [Nat.shiftLeft_eq, Nat.zero_mul, Nat.zero_add]

theorem before_entry {w i j : ℕ} (lt : j < 512) (before : w < i * 2 ^ 21 + j * 2 ^ 12) :
    w / 2 ^ 21 = i ∧ w / 2 ^ 12 % 512 < j ∨ w < i * 2 ^ 21 := by
  omega

theorem before_table {w i : ℕ} (before : w < (i + 1) * 2 ^ 21) : w / 2 ^ 21 = i ∨ w < i * 2 ^ 21 := by
  omega

/-- The scan of the first page directory, behind tables that are full. -/
theorem scanPD_lowest (t : PageTrees m live) {PDPTe n PDi u : ℕ} (dir : pageOf PDPTe = PD0_ADDR)
    (enough : PDi + n = 512) (above : FREE_PAGES_START ≤ u) (low : u < 2 ^ 30)
    (unmapped : walk m.child PML4_ADDR (path u) = none) (frame : m.getFreePhysPage ≠ 0)
    (full : ∀ u, FREE_PAGES_START ≤ u → u < PDi * 2 ^ 21 → walk m.child PML4_ADDR (path u) ≠ none) :
    ∃ v m', scanPD PDPTe 0 0 m n PDi = some (some v, m') ∧ m.Lowest v ∧ m.TableFor live v m' := by
  induction n generalizing PDi with
  | zero => exact absurd unmapped (full u above (by omega))
  | succ n ih =>
    rw [scanPD, dir]
    by_cases hpresent : Present (m.phyread (PD0_ADDR + PDi * 8))
    · have htable := child_of_present (by omega) hpresent
      have hindex : (if pageOf (m.phyread (PD0_ADDR + PDi * 8)) = PT0_ADDR
          then FREE_PAGES_START / PAGESIZE else 0) = startIndex PDi :=
        if_congr (t.table_PT0 htable) rfl rfl
      have hlt : startIndex PDi ≤ 512 := by
        unfold startIndex
        split_ifs <;> decide
      -- the pages of this table before the one found are mapped
      have hmapped : ∀ w, FREE_PAGES_START ≤ w → w / 2 ^ 21 = PDi →
          w / 2 ^ 12 % 512 < (m.scanPT (m.phyread (PD0_ADDR + PDi * 8)) (512 - startIndex PDi)
            (startIndex PDi)).getD 512 → walk m.child PML4_ADDR (path w) ≠ none := by
        intro w hw hdiv hbefore
        rw [t.walk_low (by omega) hdiv htable, child_of_present (Nat.mod_lt _ (by decide))]
        · simp
        · apply scanPT_least (startIndex_le hw hdiv)
          rwa [Nat.add_sub_cancel' hlt]
      rw [presentOrNew_present hpresent]
      dsimp only
      rw [hindex]
      cases hscan : m.scanPT (m.phyread (PD0_ADDR + PDi * 8)) (512 - startIndex PDi)
          (startIndex PDi) with
      | some PTi =>
        obtain ⟨hle, hend, habsent⟩ := scanPT_absent hscan
        rw [hscan, Option.getD_some] at hmapped
        have hentry : PTi < 512 := by rwa [Nat.add_sub_cancel' hlt] at hend
        have hdiv : (PDi * 2 ^ 21 + PTi * 2 ^ 12) / 2 ^ 21 = PDi := by omega
        have hmod : (PDi * 2 ^ 21 + PTi * 2 ^ 12) / 2 ^ 12 % 512 = PTi := by omega
        have hlow : PDi * 2 ^ 21 + PTi * 2 ^ 12 < 2 ^ 30 := by omega
        refine ⟨PDi * 2 ^ 21 + PTi * 2 ^ 12, m, ?_, ⟨?_, ?_, hlow, ?_, ?_⟩, .found ?_⟩
        · dsimp only
          rw [address_eq]
        · show (PDi * 2 ^ 21 + PTi * 2 ^ 12) % 4096 = 0
          omega
        · show 0x100000 ≤ _
          unfold startIndex at hle
          split_ifs at hle with hzero
          · have hle' : 0x100 ≤ PTi := hle
            omega
          · omega
        · rw [t.walk_low hlow hdiv htable, hmod, child_of_not_present habsent]
        · intro w hw hbefore
          rcases before_entry hentry hbefore with ⟨hdivw, hlt⟩ | hlt
          · exact hmapped w hw hdivw hlt
          · exact full w hw hlt
        · rw [hdiv, htable]
          simp
      | none =>
        rw [hscan, Option.getD_none] at hmapped
        refine ih (by omega) fun w hw hbefore => ?_
        rcases before_table hbefore with hdiv | hlt
        · exact hmapped w hw hdiv (Nat.mod_lt _ (by decide))
        · exact full w hw hlt
    · obtain ⟨page, hfree, hroom, hnew⟩ := presentOrNew_absent hpresent frame 0
      have hne : PDi ≠ 0 := by
        rintro rfl
        have hfirst := (t.walk_table 0).symm.trans (t.boot [0, 0, 0] PT0_ADDR rfl)
        exact hpresent (child_some hfirst).2.1
      have vacant : m.Vacant live PML4_ADDR [0, 0] PDi PD0_ADDR page :=
        ⟨by simp, pos_kernel (by simp) (by simp), t.boot [0, 0] PD0_ADDR rfl, by omega,
          child_of_not_present hpresent, hfree, hroom⟩
      have hung := vacant.hung_table t (by decide : 0 < PAGESIZE)
      have hpage : pageOf (entryOf page 0) = page * PAGESIZE :=
        pageOf_or (Nat.mul_mod_left _ _) (by decide)
      have hapart : page * PAGESIZE ≠ PT0_ADDR := by
        intro heq
        have habove := t.fresh_above_boot hfree hroom
        rw [heq] at habove
        exact absurd habove (by decide)
      have hempty := present_of_child (by decide) (hung.empty (by simp) 0)
      have hscan : (m.addTable PD0_ADDR PDi page 0).scanPT (entryOf page 0) (511 + 1) 0 = some 0 := by
        rw [scanPT, hpage, if_neg hempty]
      have hdiv : PDi * 2 ^ 21 / 2 ^ 21 = PDi := by omega
      have hlow : PDi * 2 ^ 21 < 2 ^ 30 := by omega
      refine ⟨PDi * 2 ^ 21, m.addTable PD0_ADDR PDi page 0, ?_, ⟨?_, ?_, hlow, ?_, full⟩, ?_⟩
      · rw [hnew]
        dsimp only
        rw [hpage, if_neg hapart, hscan]
        dsimp only
        rw [address_eq, Nat.zero_mul, Nat.add_zero]
      · show PDi * 2 ^ 21 % 4096 = 0
        omega
      · show 0x100000 ≤ _
        omega
      · rw [path_low hlow, hdiv, walk_append, t.walk_table, vacant.absent]
        rfl
      · have hmade := @TableFor.made m live (PDi * 2 ^ 21) page (by omega) (by rwa [hdiv])
        rwa [hdiv] at hmade

/-- All directories lead to the first page directory. -/
theorem PageTrees.way_low (t : PageTrees m live) {r : ℕ} (root : r = PML4_ADDR ∨ r ∈ live) :
    ∃ f, m.child r 0 = some f ∧ m.child f 0 = some PD0_ADDR := by
  have hwalk := t.walk_shared root
  rw [walk_cons] at hwalk
  obtain ⟨f, hfirst, -⟩ := Option.bind_eq_some_iff.1 hwalk
  exact ⟨f, hfirst, t.shared_entry root hfirst⟩

/-- `getUnmappedVAddr` of a directory whose first page directory has a page left. -/
theorem getUnmappedVAddr_lowest (t : PageTrees m live) {u : ℕ} (above : FREE_PAGES_START ≤ u)
    (low : u < 2 ^ 30) (unmapped : walk m.child PML4_ADDR (path u) = none)
    (frame : m.getFreePhysPage ≠ 0) :
    ∃ v m', m.getUnmappedVAddr = some (v, m') ∧ m.Lowest v ∧ m.TableFor live v m' := by
  obtain ⟨f, hPML4, hPDPT⟩ := t.way_low (Or.inl rfl)
  obtain ⟨-, hpresent₁, hdir₁⟩ := child_some hPML4
  obtain ⟨-, hpresent₂, hdir₂⟩ := child_some hPDPT
  have hfirst : ∀ w, FREE_PAGES_START ≤ w → w < 0 * 2 ^ 21 → walk m.child PML4_ADDR (path w) ≠ none := by
    intro w _ hw
    omega
  obtain ⟨v, m', hscan, hlowest, htable⟩ :=
    scanPD_lowest t hdir₂ (Nat.zero_add 512) above low unmapped frame hfirst
  have hscanPDPT : scanPDPT (m.phyread (PML4_ADDR + 0 * 8)) 0 m (511 + 1) 0 = some (some v, m') := by
    rw [scanPDPT, hdir₁, if_pos hpresent₂, hscan]
  have hscanPML4 : scanPML4 m (511 + 1) 0 = some (some v, m') := by
    rw [scanPML4, if_pos hpresent₁, hscanPDPT]
  refine ⟨v, m', ?_, hlowest, htable⟩
  unfold getUnmappedVAddr
  rw [hscanPML4]
  rfl

/-! ## Mapping the page that was found -/

theorem TableFor.adds {v : ℕ} (h : m.TableFor live v m') : AddsTables live PML4_ADDR 0 m m' := by
  cases h with
  | found _ => exact .refl
  | made page _ vacant => exact .add .refl vacant (by simp)

theorem TableFor.table {v : ℕ} (t : PageTrees m live) (h : m.TableFor live v m') :
    ∃ f, m'.child PD0_ADDR (v / 2 ^ 21) = some f := by
  cases h with
  | found present => exact Option.ne_none_iff_exists'.1 present
  | made page _ vacant => exact ⟨_, (vacant.hung_table t (by decide)).entry⟩

theorem mapPageAt_present {vaddr paddr flags pml4 f₁ f₂ f₃ : ℕ}
    (h₁ : m.child pml4 (index vaddr 39) = some f₁) (h₂ : m.child f₁ (index vaddr 30) = some f₂)
    (h₃ : m.child f₂ (index vaddr 21) = some f₃) (absent : m.child f₃ (index vaddr 12) = none) :
    ∃ w m', m.mapPageAt vaddr paddr flags pml4 = some (w, m') ∧
      (w = vaddr ∨ w = 0 ∧ paddr = 0 ∧ m.getFreePhysPage = 0) := by
  obtain ⟨-, p₁, rfl⟩ := child_some h₁
  obtain ⟨-, p₂, rfl⟩ := child_some h₂
  obtain ⟨-, p₃, rfl⟩ := child_some h₃
  have hleaf := present_of_child (index_lt vaddr 12) absent
  unfold mapPageAt
  dsimp only
  rw [if_pos p₁, presentOrNew_present p₂]
  dsimp only
  rw [presentOrNew_present p₃]
  dsimp only
  rw [if_neg hleaf]
  by_cases hpaddr : paddr = 0
  · rw [if_pos hpaddr]
    by_cases hfull : m.getFreePhysPage = 0
    · rw [if_pos hfull]
      exact ⟨0, m, rfl, Or.inr ⟨rfl, hpaddr, hfull⟩⟩
    · rw [if_neg hfull]
      exact ⟨vaddr, _, rfl, Or.inl rfl⟩
  · rw [if_neg hpaddr, if_neg hpaddr]
    exact ⟨vaddr, _, rfl, Or.inl rfl⟩

/-- `mapPage` without a virtual address maps the page that was found, unless no page is free. -/
theorem mapPage_lowest (t : PageTrees m live) {v paddr flags pml4 : ℕ}
    (root : pml4 = PML4_ADDR ∨ pml4 ∈ live) (search : m.getUnmappedVAddr = some (v, m'))
    (lowest : m.Lowest v) (table : m.TableFor live v m') :
    ∃ w m'', m.mapPage 0 paddr flags pml4 = some (w, m'') ∧
      (w = v ∨ w = 0 ∧ paddr = 0 ∧ m'.getFreePhysPage = 0) := by
  have t' := table.adds.trees (by decide) t
  obtain ⟨f₁, h₁, h₂⟩ := t'.way_low root
  obtain ⟨f₃, h₃⟩ := table.table t
  have hpath := path_low lowest.low
  obtain ⟨h₃₉, h₃₀, h₂₁, h₁₂⟩ : index v 39 = 0 ∧ index v 30 = 0 ∧ index v 21 = v / 2 ^ 21 ∧
      index v 12 = v / 2 ^ 12 % 512 := by
    simpa [path] using hpath
  have hne : v ≠ 0 := by
    rintro rfl
    exact absurd lowest.above (by decide)
  have hplace : Pos live PML4_ADDR (path v) := by
    refine pos_kernel le_rfl fun heq => ?_
    have hunmapped := lowest.unmapped
    rw [heq, t.walk_slot] at hunmapped
    cases hunmapped
  have habsent : m'.child f₃ (index v 12) = none := by
    have hwalk := table.adds.leaves (by decide) t hplace rfl
    rw [lowest.unmapped, t'.walk_low lowest.low rfl h₃] at hwalk
    rwa [h₁₂]
  unfold mapPage
  rw [if_pos rfl, search]
  dsimp only
  rw [if_neg hne]
  have hmap := @mapPageAt_present m' v paddr flags pml4 f₁ PD0_ADDR f₃
  rw [h₃₉, h₃₀, h₂₁] at hmap
  exact hmap h₁ h₂ h₃ habsent

end Scan

end Paging

namespace PagingState

open Paging TableForest

/-- Nothing is translated otherwise. -/
def KeepsTranslation (s : PagingState) (m : Paging) : Prop :=
  ∀ r v, s.Root r → (s.withPaging m).translate r v = s.translate r v

/-- `v` is the lowest page from `FREE_PAGES_START` on that the kernel's directory does not map. -/
structure LowestUnmapped (s : PagingState) (v : ℕ) : Prop where
  aligned : v % PAGESIZE = 0
  above : FREE_PAGES_START ≤ v
  unmapped : s.translate PML4_ADDR v = none
  least : ∀ u, FREE_PAGES_START ≤ u → u < v → s.translate PML4_ADDR u ≠ none

/-- Either memory and the bitmap are as they were, or an empty page table for the pages from `v` on
is made of a free page and marked used. -/
def OneTable (s : PagingState) (v : ℕ) (m : Paging) : Prop :=
  s.m.child PD0_ADDR (v / 2 ^ 21) ≠ none ∧ m = s.m ∨
    s.m.child PD0_ADDR (v / 2 ^ 21) = none ∧ v % 2 ^ 21 = 0 ∧
      ∃ page, Hung s.m m PD0_ADDR (v / 2 ^ 21) page True

section Search

variable {s : PagingState}

theorem keepsTranslation_of_adds {r flags : ℕ} {m' : Paging} (t : PageTrees s.m s.live)
    (small : flags < PAGESIZE) (adds : AddsTables s.live r flags s.m m') : s.KeepsTranslation m' := by
  intro r' v root
  by_cases htmp : path v = tmpPath
  · have t' := adds.trees small t
    have hcanon : canon r' tmpPath = PML4_ADDR := if_pos ⟨[0, 7], rfl⟩
    rw [translate_withPaging t' root, translate_eq t root, htmp, hcanon]
    exact t'.walk_slot.trans t.walk_slot.symm
  · exact sameTranslation_of_adds t small adds r' v root htmp

theorem oneTable {v : ℕ} {m' : Paging} (t : PageTrees s.m s.live)
    (table : s.m.TableFor s.live v m') : s.OneTable v m' := by
  cases table with
  | found present => exact Or.inl ⟨present, rfl⟩
  | made page first vacant =>
    have hung := vacant.hung_table t (by decide : 0 < PAGESIZE)
    exact Or.inr ⟨vacant.absent, first, page, { hung with empty := fun _ => hung.empty (by simp) }⟩

/-- In every reachable state whose kernel directory has a page of the first gigabyte left,
`getUnmappedVAddr` returns the lowest one and makes at most one page table, behind full ones; and
`mapPage` without a virtual address fails only when no page is free. -/
theorem getUnmappedVAddr_reachable {availableMem u : ℕ} (reach : Reachable availableMem s)
    (above : FREE_PAGES_START ≤ u) (low : u < 2 ^ 30) (unmapped : s.translate PML4_ADDR u = none)
    (frame : s.m.getFreePhysPage ≠ 0) :
    ∃ v m', s.m.getUnmappedVAddr = some (v, m') ∧ s.LowestUnmapped v ∧ s.KeepsTranslation m' ∧
      s.OneTable v m' ∧
      ∀ paddr flags pml4, s.Root pml4 → ∃ w m'', s.m.mapPage 0 paddr flags pml4 = some (w, m'') ∧
        (w = v ∨ w = 0 ∧ paddr = 0 ∧ m'.getFreePhysPage = 0) := by
  have t := (inv_reachable reach).trees
  obtain ⟨v, m', hsearch, hlowest, htable⟩ := getUnmappedVAddr_lowest t above low unmapped frame
  refine ⟨v, m', hsearch, ⟨hlowest.aligned, hlowest.above, hlowest.unmapped, hlowest.least⟩,
    keepsTranslation_of_adds t (by decide) htable.adds, oneTable t htable, ?_⟩
  exact fun paddr flags pml4 root => mapPage_lowest t root hsearch hlowest htable

theorem search_boot :
    (boot (fun _ => 0) (fun _ => 0) 0x1000000).m.getUnmappedVAddr.map Prod.fst = some 0x101000 ∧
      (boot (fun _ => 0) (fun _ => 0) 0x1000000).translate PML4_ADDR 0x150000 = none ∧
      (boot (fun _ => 0) (fun _ => 0) 0x1000000).m.getFreePhysPage ≠ 0 := by decide +kernel

/-- The page behind the bitmap is the first one found. -/
theorem getUnmappedVAddr_first : ∃ m',
    (boot (fun _ => 0) (fun _ => 0) 0x1000000).m.getUnmappedVAddr = some (0x101000, m') ∧
      (boot (fun _ => 0) (fun _ => 0) 0x1000000).LowestUnmapped 0x101000 := by
  obtain ⟨hfound, hunmapped, hframe⟩ := search_boot
  have reach : Reachable 0x1000000 (boot (fun _ => 0) (fun _ => 0) 0x1000000) := .boot _ _
  generalize boot (fun _ => 0) (fun _ => 0) 0x1000000 = s at hfound hunmapped hframe reach ⊢
  obtain ⟨v, m', hsearch, hlowest, -⟩ :=
    getUnmappedVAddr_reachable reach (by decide) (by decide) hunmapped hframe
  rw [hsearch] at hfound
  obtain rfl := Option.some.inj hfound
  exact ⟨m', hsearch, hlowest⟩

end Search

end PagingState
