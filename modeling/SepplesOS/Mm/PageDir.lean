import SepplesOS.Mm.FrameOwnership

/-!
# The life of a page directory

The pages taken for a directory are those that `createPageDir` and the calls of `mapPage` on it have
marked used.  They are the pages that belong to it in the page trees (`dirRun_belongs`), and
`destroyPageDir` frees these, each of them once.
-/

namespace PagingState

open Paging TableForest

/-- The pages that a call marks used. -/
def taken (m m' : Paging) : Set ℕ := {page | m'.Used page ∧ ¬m.Used page}

/-- The directory that a call is on. -/
def Op.on : Op → Option ℕ
  | .destroyPageDir d => some d
  | .mapPage _ _ pml4 => some pml4
  | _ => none

/-- A run from the call of `createPageDir` that returned `d`, with the pages taken for `d` so far:
calls of `mapPage` on it with addresses in user space, and any other calls that are not on it. -/
inductive DirRun (availableMem d : ℕ) : PagingState → Set ℕ → Prop
  | create {s s' : PagingState} (reach : Reachable availableMem s) (step : s.Step .createPageDir s')
    (result : s.m.createPageDir.1 = d) (ne : d ≠ 0) :
    DirRun availableMem d s' (taken s.m s'.m)
  | map {s s' : PagingState} {pages : Set ℕ} {vaddr flags : ℕ}
    (run : DirRun availableMem d s pages) (user : USER_OFFSET ≤ vaddr)
    (step : s.Step (.mapPage vaddr flags d) s') :
    DirRun availableMem d s' (pages ∪ taken s.m s'.m)
  | other {s s' : PagingState} {pages : Set ℕ} {op : Op} (run : DirRun availableMem d s pages)
    (elsewhere : op.on ≠ some d) (step : s.Step op s') : DirRun availableMem d s' pages

/-- What holds along such a run. -/
structure DirInv (d : ℕ) (s : PagingState) (pages : Set ℕ) : Prop where
  inv : s.Inv
  live : d ∈ s.live
  belongs : ∀ page, page ∈ pages ↔ s.m.Belongs s.live d page

section DirRun

variable {d : ℕ} {s s' : PagingState} {pages : Set ℕ}

theorem pos_live {live live' : Set ℕ} {p : List ℕ} (hd : d ∈ live) (hd' : d ∈ live')
    (apart : PML4_ADDR ∉ live) (h : Pos live d p) : Pos live' d p :=
  ⟨h.1, Or.inr ⟨hd', (h.2.resolve_left fun hk => apart (hk.1 ▸ hd)).2⟩⟩

theorem belongs_congr {m m' : Paging} {live live' : Set ℕ} (hd : d ∈ live) (hd' : d ∈ live')
    (apart : PML4_ADDR ∉ live) (apart' : PML4_ADDR ∉ live')
    (same : ∀ p, Pos live d p → walk m'.child d p = walk m.child d p) (page : ℕ) :
    m'.Belongs live' d page ↔ m.Belongs live d page := by
  constructor
  · rintro ⟨p, hp, hw⟩
    have hp' := pos_live hd' hd apart' hp
    exact ⟨p, hp', (same p hp').symm.trans hw⟩
  · rintro ⟨p, hp, hw⟩
    exact ⟨p, pos_live hd hd' apart hp, (same p hp).trans hw⟩

/-- A call that is not on a live directory leaves its walks alone. -/
theorem step_elsewhere (inv : s.Inv) (hd : d ∈ s.live) {op : Op} (elsewhere : op.on ≠ some d)
    (step : s.Step op s') :
    d ∈ s'.live ∧ ∀ p, Pos s.live d p → walk s'.m.child d p = walk s.m.child d p := by
  have t := inv.trees
  have hkernel : d ≠ PML4_ADDR := fun h => t.apart (h ▸ hd)
  cases step with
  | createPageDir =>
    refine ⟨Or.inl hd, fun p hp => ?_⟩
    rcases createPageDir_spec t with hfail | ⟨d', f, -, -, planted⟩
    · rw [hfail]
    · exact t.walk_planted planted hp
  | destroyPageDir d' live =>
    have felled := destroyPageDir_felled t live
    refine ⟨⟨hd, fun h => elsewhere (congrArg some h.symm)⟩, fun p _ => ?_⟩
    dsimp only
    rw [child_of_mem felled.mem]
  | mapPage vaddr flags pml4 w m' root low result =>
    obtain ⟨v, m₁, -, t₁, g₁, t', g', -⟩ := mapPage_spec t root low result
    refine ⟨hd, fun p hp => ?_⟩
    have howner : d ≠ owner v pml4 := by
      unfold owner
      split_ifs
      · exact hkernel
      · exact fun h => elsewhere (congrArg some h.symm)
    exact (g'.others d p hp howner).trans (g₁.others d p hp hkernel)
  | getUnmappedVAddr vaddr m' result =>
    obtain ⟨adds, -⟩ := getUnmappedVAddr_spec t result
    exact ⟨hd, fun p hp => (adds.grows (by decide) t).others d p hp hkernel⟩
  | unmapPage vaddr above kernel =>
    have managed := inv.kernel _ kernel
    rw [path_pageOf] at managed
    obtain ⟨-, -, -, hsame⟩ := unmapPage_spec t managed
    exact ⟨hd, fun p hp => hsame d p hp hkernel⟩

/-- What a tree has grown by is what the call has marked used. -/
theorem belongs_grows {m m' : Paging} {live : Set ℕ} (g : Grows live d m m') (page : ℕ) :
    m'.Belongs live d page ↔ m.Belongs live d page ∨ page ∈ taken m m' := by
  constructor
  · rintro ⟨p, hp, hw⟩
    cases hold : walk m.child d p with
    | none =>
      obtain ⟨hfree, -⟩ := g.fresh p _ hp hw hold
      rw [mul_div_page] at hfree
      exact Or.inr ⟨(g.used page).2 (Or.inr ⟨p, hp, hw, hold⟩), hfree⟩
    | some c =>
      obtain rfl := Option.some.inj ((g.keep d p c hp hold).symm.trans hw)
      exact Or.inl ⟨p, hp, hold⟩
  · rintro (⟨p, hp, hw⟩ | ⟨hused, hfree⟩)
    · exact ⟨p, hp, g.keep d p _ hp hw⟩
    · rcases (g.used page).1 hused with hold | ⟨p, hp, hw, -⟩
      · exact absurd hold hfree
      · exact ⟨p, hp, hw⟩

theorem belongs_planted {m m' : Paging} {live : Set ℕ} {c f : ℕ} (h : Planted m m' c f)
    (hd : c * PAGESIZE ∈ live) (apart : PML4_ADDR ∉ live) (page : ℕ) :
    m'.Belongs live (c * PAGESIZE) page ↔ page ∈ taken m m' := by
  have htaken : page ∈ taken m m' ↔ page = c ∨ page = f := by
    show m'.Used page ∧ ¬m.Used page ↔ _
    rw [h.used]
    constructor
    · rintro ⟨hold | hnew, hfree⟩
      · exact absurd hold hfree
      · exact hnew
    · rintro (rfl | rfl)
      · exact ⟨Or.inr (Or.inl rfl), h.free⟩
      · exact ⟨Or.inr (Or.inr rfl), h.free_table⟩
  have hinj : ∀ n, page * PAGESIZE = n * PAGESIZE → page = n := fun n =>
    Nat.eq_of_mul_eq_mul_right (by decide)
  rw [htaken]
  constructor
  · rintro ⟨p, hp, hw⟩
    have hshared := (hp.2.resolve_left fun hk => apart (hk.1 ▸ hd)).2
    rcases h.walk_root hshared hw with ⟨-, heq⟩ | ⟨-, heq⟩
    · exact Or.inl (hinj c heq)
    · exact Or.inr (hinj f heq)
  · rintro (rfl | rfl)
    · exact ⟨[], ⟨by simp, Or.inr ⟨hd, by simp⟩⟩, rfl⟩
    · refine ⟨[0], ⟨by simp, Or.inr ⟨hd, by simp⟩⟩, ?_⟩
      rw [walk_cons, h.root, if_pos rfl]
      rfl

/-- The pages taken for a directory are those that belong to it. -/
theorem dirRun_belongs {availableMem : ℕ} (run : DirRun availableMem d s pages) :
    DirInv d s pages := by
  induction run with
  | @create s s' reach step result ne =>
    have inv := inv_reachable reach
    have inv' := inv_step inv step
    cases step with
    | createPageDir =>
      refine ⟨inv', Or.inr ⟨result.symm, ne⟩, fun page => ?_⟩
      rcases createPageDir_spec inv.trees with hfail | ⟨c, f, hc, -, planted⟩
      · rw [hfail] at result
        exact absurd result.symm ne
      · obtain rfl : c * PAGESIZE = d := hc.symm.trans result
        exact (belongs_planted planted (Or.inr ⟨result.symm, ne⟩) inv'.trees.apart page).symm
  | @map s s' pages vaddr flags run user step ih =>
    have inv' := inv_step ih.inv step
    cases step with
    | mapPage _ _ _ w m' root low result =>
      obtain ⟨v, m₁, hv, t₁, g₁, t', g', -⟩ := mapPage_spec ih.inv.trees root low result
      have hne : vaddr ≠ 0 := by
        rintro rfl
        exact absurd user (by decide)
      obtain ⟨rfl, rfl⟩ := hv hne
      have howner : owner v d = d := if_neg (user_index user low)
      rw [howner] at g'
      refine ⟨inv', ih.live, fun page => ?_⟩
      rw [belongs_grows g', ← ih.belongs page]
      exact Iff.rfl
  | @other s s' pages op run elsewhere step ih =>
    obtain ⟨hd', hsame⟩ := step_elsewhere ih.inv ih.live elsewhere step
    have inv' := inv_step ih.inv step
    refine ⟨inv', hd', fun page => ?_⟩
    rw [ih.belongs page]
    exact (belongs_congr ih.live hd' ih.inv.trees.apart inv'.trees.apart hsame page).symm

end DirRun

/-! ## The end of a directory -/

/-- What `destroyPageDir` gives back: the list of the pages it frees has no page twice and has
exactly the pages taken; these were marked used, and they are all that changes in the bitmap.  No
frame in another directory is on the list, and no translation changes. -/
structure GivesBack (s : PagingState) (d : ℕ) (pages : Set ℕ) : Prop where
  frees : s.m.destroyPageDir d = s.m.freeAll (s.m.freedPages d)
  once : (s.m.freedPages d).Nodup
  same : ∀ f, f ∈ s.m.freedPages d ↔ ∃ page ∈ pages, f = page * PAGESIZE
  used : ∀ page ∈ pages, s.m.Used page
  clears : ∀ page, (s.m.destroyPageDir d).Used page ↔ s.m.Used page ∧ page ∉ pages
  others : ∀ r p f, s.Root r → r ≠ d → p.length ≤ 4 → walk s.m.child r p = some f →
    f ∉ s.m.freedPages d
  translations : ∀ r vaddr, walk (s.m.destroyPageDir d).child r (path vaddr) = s.translate r vaddr

section GivesBack

variable {d : ℕ} {s : PagingState} {pages : Set ℕ}

theorem freedPages_apart (t : PageTrees s.m s.live) (hd : d ∈ s.live) {r f : ℕ} {p : List ℕ}
    (root : s.Root r) (ne : r ≠ d) (short : p.length ≤ 4) (hwalk : walk s.m.child r p = some f) :
    f ∉ s.m.freedPages d := by
  intro hf
  obtain ⟨q, hq, hw⟩ := (mem_freedPages t hd).1 hf
  have above := (t.owned_live hd hq hw).above
  have hcanon : canon d q = d :=
    if_neg (hq.2.resolve_left fun hk => t.apart (hk.1 ▸ hd)).2
  have hroots := (frame_unique t root (Or.inr hd) short hq.1 hwalk hw above).1
  rw [hcanon] at hroots
  unfold canon at hroots
  split_ifs at hroots
  · exact t.apart (hroots ▸ hd)
  · exact ne hroots

theorem givesBack_of_inv (h : DirInv d s pages) : s.GivesBack d pages := by
  have t := h.inv.trees
  have felled := destroyPageDir_felled t h.live
  constructor
  case frees => exact destroyPageDir_eq s.m d
  case once => exact nodup_freedPages t h.live
  case same =>
    intro f
    rw [mem_freedPages t h.live]
    constructor
    · rintro ⟨p, hp, hw⟩
      have haligned := (t.owned_live h.live hp hw).aligned
      have hpage : f / PAGESIZE * PAGESIZE = f :=
        Nat.div_mul_cancel (Nat.dvd_of_mod_eq_zero haligned)
      refine ⟨f / PAGESIZE, (h.belongs _).2 ⟨p, hp, ?_⟩, hpage.symm⟩
      rw [hpage]
      exact hw
    · rintro ⟨page, hpage, rfl⟩
      exact (h.belongs page).1 hpage
  case used =>
    intro page hpage
    have hused := (t.belongs_managed h.live ((h.belongs page).1 hpage)).used
    rw [mul_div_page] at hused
    exact hused
  case clears =>
    intro page
    rw [felled.used, h.belongs]
  case others => exact fun r p f root ne short hw => freedPages_apart t h.live root ne short hw
  case translations =>
    intro r vaddr
    rw [child_of_mem felled.mem]
    rfl

/-- A page directory gives back what it took, and a failed `createPageDir` leaves the bitmap as it
was. -/
theorem destroyPageDir_gives_back (availableMem : ℕ) :
    (∀ d s pages, DirRun availableMem d s pages → s.GivesBack d pages) ∧
      ∀ s, Reachable availableMem s → s.m.createPageDir.1 = 0 →
        s.m.createPageDir.2.physPageBitmap = s.m.physPageBitmap := by
  constructor
  · intro d s pages run
    exact givesBack_of_inv (dirRun_belongs run)
  · intro s reach hfail
    rcases createPageDir_spec (inv_reachable reach).trees with h | ⟨d, f, hd, hne, -⟩
    · rw [h]
    · exact absurd (hd.symm.trans hfail) hne

/-- The calls of `mapPage` for a list of addresses, each with the flags of a user page.  The list of
what they return comes with the state behind them. -/
def mapUserPages (pml4 : ℕ) : List ℕ → Paging → Option (List ℕ × Paging)
  | [], m => some ([], m)
  | vaddr :: rest, m =>
    (m.mapPage vaddr 0 7 pml4).bind fun r =>
      (mapUserPages pml4 rest r.2).map fun rs => (r.1 :: rs.1, rs.2)

theorem DirRun.mapUserPages {availableMem : ℕ} {vaddrs results : List ℕ} {m' : Paging}
    (run : DirRun availableMem d s pages) (live : d ∈ s.live)
    (user : ∀ vaddr ∈ vaddrs, USER_OFFSET ≤ vaddr ∧ vaddr < 2 ^ 39)
    (h : PagingState.mapUserPages d vaddrs s.m = some (results, m')) :
    ∃ s' pages', DirRun availableMem d s' pages' ∧ s'.m = m' := by
  induction vaddrs generalizing s pages results with
  | nil =>
    simp only [PagingState.mapUserPages, Option.some.injEq, Prod.mk.injEq] at h
    exact ⟨s, pages, run, h.2⟩
  | cons vaddr rest ih =>
    rw [PagingState.mapUserPages, Option.bind_eq_some_iff] at h
    obtain ⟨⟨w, m₁⟩, hmap, hrest⟩ := h
    obtain ⟨⟨rs, m₂⟩, htail, heq⟩ := Option.map_eq_some_iff.1 hrest
    obtain ⟨-, rfl⟩ := Prod.mk.inj heq
    have hv := user vaddr (by simp)
    have step := Step.mapPage vaddr 7 d w m₁ (Or.inr live) hv.2 hmap
    apply ih (run.map hv.1 step) live _ htail
    intro v mem
    exact user v (List.mem_cons_of_mem _ mem)

/-- With 16 megabytes of memory, the first directory gets two pages at `USER_OFFSET`; a third call
asks for the first of them again and is refused. -/
theorem first_directory_gives_back :
    ∃ s pages, DirRun 0x1000000 0x101000 s pages ∧
      (∀ vaddr ∈ [USER_OFFSET, USER_OFFSET + PAGESIZE], (s.translate 0x101000 vaddr).isSome) ∧
      s.GivesBack 0x101000 pages := by
  have reach : Reachable 0x1000000 (boot (fun _ => 0) (fun _ => 0) 0x1000000) := .boot _ _
  have hrun : (boot (fun _ => 0) (fun _ => 0) 0x1000000).m.createPageDir.1 = 0x101000 ∧
      ∃ r ∈ PagingState.mapUserPages 0x101000 [USER_OFFSET, USER_OFFSET + PAGESIZE, USER_OFFSET]
          (boot (fun _ => 0) (fun _ => 0) 0x1000000).m.createPageDir.2,
        r.1 = [USER_OFFSET, USER_OFFSET + PAGESIZE, 0] ∧
          ∀ vaddr ∈ [USER_OFFSET, USER_OFFSET + PAGESIZE],
            (walk r.2.child 0x101000 (path vaddr)).isSome := by
    decide +kernel
  generalize boot (fun _ => 0) (fun _ => 0) 0x1000000 = s₀ at hrun reach
  obtain ⟨hdir, ⟨results, m'⟩, hmaps, -, htrans⟩ := hrun
  have created := DirRun.create reach .createPageDir hdir (by decide)
  obtain ⟨s, pages, run, rfl⟩ := created.mapUserPages (Or.inr ⟨hdir.symm, by decide⟩)
    (by decide) hmaps
  exact ⟨s, pages, run, htrans, (destroyPageDir_gives_back 0x1000000).1 _ _ _ run⟩

end GivesBack

end PagingState
