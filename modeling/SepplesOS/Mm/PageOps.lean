import SepplesOS.Mm.PageGrow

/-!
# Taking pages out, and page directories

`unmapPage` takes one page out of the kernel's tree, `createPageDir` plants a directory and
`destroyPageDir` fells one.
-/

namespace Paging

open TableForest

section Ops

variable {live : Set ℕ} {m m' : Paging}

/-! ## `unmapPage` -/

theorem unmapPage_cases (m : Paging) (vaddr : ℕ) :
    (walk m.child PML4_ADDR (path vaddr) = none ∧ m.unmapPage vaddr = m) ∨
      ∃ f₃ f, walk m.child PML4_ADDR [index vaddr 39, index vaddr 30, index vaddr 21] = some f₃ ∧
        m.child f₃ (index vaddr 12) = some f ∧
        m.unmapPage vaddr = (m.markPhysPageFreeAddr f).phywrite (f₃ + index vaddr 12 * 8) 0 := by
  unfold unmapPage path
  dsimp only
  split_ifs with h₁ h₂ h₃ h₄
  · have c₁ := child_of_present (index_lt _ _) h₁
    have c₂ := child_of_present (index_lt _ _) h₂
    have c₃ := child_of_present (index_lt _ _) h₃
    refine Or.inr ⟨_, _, ?_, child_of_present (index_lt _ _) h₄, rfl⟩
    simp only [walk_cons, walk_nil, c₁, c₂, c₃, Option.bind_some]
  · have c₁ := child_of_present (index_lt _ _) h₁
    have c₂ := child_of_present (index_lt _ _) h₂
    have c₃ := child_of_present (index_lt _ _) h₃
    have c₄ := child_of_not_present h₄
    refine Or.inl ⟨?_, rfl⟩
    simp only [walk_cons, c₁, c₂, c₃, c₄, Option.bind_some, Option.bind_none]
  · have c₁ := child_of_present (index_lt _ _) h₁
    have c₂ := child_of_present (index_lt _ _) h₂
    have c₃ := child_of_not_present h₃
    refine Or.inl ⟨?_, rfl⟩
    simp only [walk_cons, c₁, c₂, c₃, Option.bind_some, Option.bind_none]
  · have c₁ := child_of_present (index_lt _ _) h₁
    have c₂ := child_of_not_present h₂
    refine Or.inl ⟨?_, rfl⟩
    simp only [walk_cons, c₁, c₂, Option.bind_some, Option.bind_none]
  · have c₁ := child_of_not_present h₁
    refine Or.inl ⟨?_, rfl⟩
    simp only [walk_cons, c₁, Option.bind_none]

theorem unmapPage_cut (t : PageTrees m live) {vaddr : ℕ}
    (managed : ∀ f, walk m.child PML4_ADDR (path vaddr) = some f → m.Managed f) :
    (walk m.child PML4_ADDR (path vaddr) = none ∧ m.unmapPage vaddr = m) ∨
      ∃ f₃ page, Cut m (m.unmapPage vaddr) f₃ (index vaddr 12) page ∧
        Pos live PML4_ADDR ([index vaddr 39, index vaddr 30, index vaddr 21] ++ [index vaddr 12]) ∧
        walk m.child PML4_ADDR [index vaddr 39, index vaddr 30, index vaddr 21] = some f₃ ∧
        m.Managed (page * PAGESIZE) ∧ m.child f₃ (index vaddr 12) = some (page * PAGESIZE) := by
  rcases unmapPage_cases m vaddr with hsame | ⟨f₃, f, hwalk, hchild, hunmap⟩
  · exact Or.inl hsame
  · have hleaf : walk m.child PML4_ADDR (path vaddr) = some f := by
      rw [show path vaddr = [index vaddr 39, index vaddr 30, index vaddr 21] ++ [index vaddr 12]
        from rfl, walk_concat, hwalk]
      exact hchild
    have hm := managed f hleaf
    have hpage : f / PAGESIZE * PAGESIZE = f :=
      Nat.div_mul_cancel (Nat.dvd_of_mod_eq_zero hm.aligned)
    have hslot : f₃ + index vaddr 12 * 8 ≠ TMPMAP_PTE := by
      intro heq
      have hread := (child_some hchild).2.2
      rw [heq, phyread, if_pos rfl] at hread
      have habove := hm.above
      rw [← hread] at habove
      exact absurd (reserved_le.trans habove) (by decide)
    have place : Pos live PML4_ADDR
        ([index vaddr 39, index vaddr 30, index vaddr 21] ++ [index vaddr 12]) := by
      refine pos_kernel (by simp) fun heq => hslot ?_
      simp only [List.cons_append, List.nil_append, List.cons.injEq, and_true] at heq
      obtain ⟨h₀, h₁, h₂, h₃⟩ := heq
      rw [h₀, h₁, h₂, t.boot [0, 0, 0] PT0_ADDR rfl] at hwalk
      rw [← Option.some.inj hwalk, h₃]
      rfl
    have haligned := t.table_aligned place.concat_interior hwalk
    have hfree : ∀ g i, ((m.markPhysPageFreeAddr f).phywrite (f₃ + index vaddr 12 * 8) 0).child g i =
        (m.phywrite (f₃ + index vaddr 12 * 8) 0).child g i := by
      intro g i
      apply child_congr
      rw [phyread_phywrite, phyread_phywrite, markPhysPageFreeAddr,
        phyread_congr (markPhysPageFree_mem _)]
    have hcut : Cut m (m.unmapPage vaddr) f₃ (index vaddr 12) (f / PAGESIZE) := by
      rw [hunmap]
      constructor
      case max => exact markPhysPageFree_max _
      case entry =>
        rw [hfree, child_phywrite_self (index_lt _ _) hslot, if_neg not_present_zero]
      case others =>
        intro g i hg hne
        rw [hfree, child_phywrite_ne hg haligned (index_lt _ _) hne]
      case used =>
        intro q
        show (m.markPhysPageFree (f / PAGESIZE)).Used q ↔ _
        rw [used_markPhysPageFree]
        exact and_congr Iff.rfl (not_congr (and_iff_left hm.room))
    rw [← hpage] at hm hchild
    exact Or.inr ⟨f₃, f / PAGESIZE, hcut, place, hwalk, hm, hchild⟩

theorem walk_unmapPage (t : PageTrees m live) {vaddr : ℕ}
    (managed : ∀ f, walk m.child PML4_ADDR (path vaddr) = some f → m.Managed f) {r : ℕ} {p : List ℕ}
    (hp : Pos live r p) [Decidable (r = PML4_ADDR ∧ p = path vaddr)] :
    walk (m.unmapPage vaddr).child r p =
      if r = PML4_ADDR ∧ p = path vaddr then none else walk m.child r p := by
  rcases unmapPage_cut t managed with ⟨hnone, hsame⟩ | ⟨f₃, page, hcut, place, hwalk, -, -⟩
  · rw [hsame]
    split_ifs with h
    · rw [h.1, h.2, hnone]
    · rfl
  · have hcutwalk := t.walk_cut hcut (by simp) place hwalk hp
    split_ifs with h
    · exact hcutwalk.trans (if_pos h)
    · exact hcutwalk.trans (if_neg h)

/-- Unmapping a kernel page beyond the bitmap takes it out of the kernel's tree. -/
theorem unmapPage_spec (t : PageTrees m live) {vaddr : ℕ}
    (managed : ∀ f, walk m.child PML4_ADDR (path vaddr) = some f → m.Managed f) :
    PageTrees (m.unmapPage vaddr) live ∧
      (m.unmapPage vaddr).maxPhysPages = m.maxPhysPages ∧
      (∀ r p f, Pos live r p → walk (m.unmapPage vaddr).child r p = some f →
        walk m.child r p = some f) ∧
      (∀ r p, Pos live r p → r ≠ PML4_ADDR →
        walk (m.unmapPage vaddr).child r p = walk m.child r p) := by
  classical
  have hkeep : ∀ r p f, Pos live r p → walk (m.unmapPage vaddr).child r p = some f →
      walk m.child r p = some f := by
    intro r p f hp hf
    rw [walk_unmapPage t managed hp] at hf
    split_ifs at hf
    exact hf
  have hothers : ∀ r p, Pos live r p → r ≠ PML4_ADDR →
      walk (m.unmapPage vaddr).child r p = walk m.child r p := by
    intro r p hp hne
    rw [walk_unmapPage t managed hp, if_neg fun heq => hne heq.1]
  rcases unmapPage_cut t managed with ⟨-, hsame⟩ | ⟨f₃, page, hcut, place, hwalk, hm, hchild⟩
  · exact ⟨hsame.symm ▸ t, congrArg _ hsame, hkeep, hothers⟩
  · exact ⟨t.cut hcut (by simp) place hwalk hm hchild, hcut.max, hkeep, hothers⟩

/-! ## `createPageDir` -/

theorem planted_pages (t : PageTrees m live) {d f : ℕ} (free : ¬m.Used d)
    (room : d < m.maxPhysPages) (free_table : ¬m.Used f) (room_table : f < m.maxPhysPages)
    (ne : d ≠ f) :
    Planted m ((((((m.markPhysPageUsed d).markPhysPageUsed f).phyzero (d * PAGESIZE)).phywrite
      (d * PAGESIZE) (f * PAGESIZE ||| 0b111)).phyzero (f * PAGESIZE)).phywrite (f * PAGESIZE)
        (PD0_ADDR ||| 0b111)) d f := by
  have hd := t.fresh_above_boot free room
  have hf := t.fresh_above_boot free_table room_table
  have hdmod : d * PAGESIZE % PAGESIZE = 0 := Nat.mul_mod_left _ _
  have hfmod : f * PAGESIZE % PAGESIZE = 0 := Nat.mul_mod_left _ _
  have hpages : d * PAGESIZE ≠ f * PAGESIZE := fun heq =>
    ne (Nat.eq_of_mul_eq_mul_right (by decide) heq)
  constructor
  case max => exact (markPhysPageUsed_max f).trans (markPhysPageUsed_max d)
  case free => exact free
  case room => exact room
  case free_table => exact free_table
  case room_table => exact room_table
  case ne => exact ne
  case root =>
    intro i
    rw [child_phywrite_first_ne hdmod hfmod fun h => hpages h.1,
      child_phyzero_ne hf hdmod hfmod hpages]
    split_ifs with hi
    · rw [hi, child_phywrite_first hd, if_pos (present_or_odd _ _ (by decide)),
        pageOf_or hfmod (by decide)]
    · rw [child_phywrite_first_ne hdmod hdmod fun h => hi h.2, child_phyzero_self hd]
  case table =>
    intro i
    split_ifs with hi
    · rw [hi, child_phywrite_first hf, if_pos (present_or_odd _ _ (by decide)),
        pageOf_or (by decide) (by decide)]
    · rw [child_phywrite_first_ne hfmod hfmod fun h => hi h.2, child_phyzero_self hf]
  case others =>
    intro g i hg hgd hgf
    rw [child_phywrite_first_ne hg hfmod fun h => hgf h.1, child_phyzero_ne hf hg hfmod hgf,
      child_phywrite_first_ne hg hdmod fun h => hgd h.1, child_phyzero_ne hd hg hdmod hgd]
    apply child_congr
    rw [phyread_congr (markPhysPageUsed_mem f), phyread_congr (markPhysPageUsed_mem d)]
  case used =>
    intro q
    show ((m.markPhysPageUsed d).markPhysPageUsed f).Used q ↔ _
    rw [used_markPhysPageUsed, used_markPhysPageUsed, markPhysPageUsed_max, or_assoc,
      and_iff_left room, and_iff_left room_table]

/-- `createPageDir` plants a directory, or fails with memory and the bitmap as they were. -/
theorem createPageDir_spec (t : PageTrees m live) :
    m.createPageDir = (0, m) ∨ ∃ d f, m.createPageDir.1 = d * PAGESIZE ∧ d * PAGESIZE ≠ 0 ∧
      Planted m m.createPageDir.2 d f := by
  unfold createPageDir
  by_cases hfull : m.getFreePhysPage = 0
  · left
    simp only [hfull, if_true]
  · obtain ⟨d, hd, hroom, hfree⟩ := getFreePhysPage_spec hfull
    have hzero : d * PAGESIZE ≠ 0 := hd ▸ hfull
    simp only [hd, hzero, if_false, markPhysPageUsedAddr, markPhysPageFreeAddr, mul_div_page]
    by_cases hfull' : (m.markPhysPageUsed d).getFreePhysPage = 0
    · left
      simp only [hfull', if_true, markPhysPageFree_used d hfree]
    · right
      obtain ⟨f, hf, hroom', hfree'⟩ := getFreePhysPage_spec hfull'
      have hzero' : f * PAGESIZE ≠ 0 := hf ▸ hfull'
      rw [used_markPhysPageUsed] at hfree'
      rw [markPhysPageUsed_max] at hroom'
      have hne : d ≠ f := fun heq => hfree' (Or.inr ⟨heq.symm, hroom⟩)
      have hunused : ¬m.Used f := fun h => hfree' (Or.inl h)
      simp only [hf, hzero', if_false, mul_div_page]
      exact ⟨d, f, rfl, hzero, planted_pages t hfree hroom hunused hroom' hne⟩

/-! ## `destroyPageDir` -/

/-- The pages that the present entries of the table `f` lead to, by `below` for each entry. -/
def freed (m : Paging) (below : ℕ → List ℕ) (f : ℕ) : List ℕ :=
  (List.range 512).flatMap fun i =>
    let entry := m.phyread (f + i * 8)
    if Present entry then below (pageOf entry) else []

/-- The pages that `destroyPageDir` frees, in its order. -/
def freedPages (m : Paging) (pml4 : ℕ) : List ℕ :=
  m.freed (fun pdpt =>
    m.freed (fun pd =>
      if pd = PD0_ADDR then []
      else m.freed (fun pt => m.freed (fun page => [page]) pt ++ [pt]) pd ++ [pd]) pdpt ++ [pdpt])
    pml4 ++ [pml4]

/-- Frees a list of pages. -/
def freeAll (m : Paging) (pages : List ℕ) : Paging := pages.foldl markPhysPageFreeAddr m

theorem freeAll_append (m : Paging) (l l' : List ℕ) :
    m.freeAll (l ++ l') = (m.freeAll l).freeAll l' :=
  List.foldl_append

theorem freeAll_singleton (m : Paging) (p : ℕ) : m.freeAll [p] = m.markPhysPageFreeAddr p := rfl

@[simp] theorem freeAll_mem (m : Paging) (l : List ℕ) : (m.freeAll l).mem = m.mem := by
  induction l generalizing m with
  | nil => rfl
  | cons p l ih => exact (ih _).trans (markPhysPageFree_mem _)

@[simp] theorem freeAll_max (m : Paging) (l : List ℕ) :
    (m.freeAll l).maxPhysPages = m.maxPhysPages := by
  induction l generalizing m with
  | nil => rfl
  | cons p l ih => exact (ih _).trans (markPhysPageFree_max _)

theorem used_freeAll (m : Paging) (l : List ℕ) (q : ℕ) :
    (m.freeAll l).Used q ↔ m.Used q ∧ ¬∃ p ∈ l, q = p / PAGESIZE ∧ q < m.maxPhysPages := by
  induction l generalizing m with
  | nil => simp [freeAll]
  | cons p l ih =>
    show ((m.markPhysPageFree (p / PAGESIZE)).freeAll l).Used q ↔ _
    rw [ih, used_markPhysPageFree, markPhysPageFree_max]
    simp only [List.exists_mem_cons_iff]
    constructor
    · rintro ⟨⟨hu, hp⟩, hl⟩
      refine ⟨hu, ?_⟩
      rintro (⟨rfl, hlt⟩ | h)
      · exact hp ⟨rfl, hlt⟩
      · exact hl h
    · rintro ⟨hu, hn⟩
      refine ⟨⟨hu, ?_⟩, fun h => hn (Or.inr h)⟩
      rintro ⟨rfl, hlt⟩
      exact hn (Or.inl ⟨rfl, hlt⟩)

/-- A loop over the entries of a table whose body frees pages. -/
theorem freeLoop (m : Paging) (f : ℕ) (below : ℕ → List ℕ) (body : Paging → ℕ → Paging)
    (hbody : ∀ m' : Paging, m'.mem = m.mem → ∀ i,
      body m' i = if Present (m.phyread (f + i * 8))
        then m'.freeAll (below (pageOf (m.phyread (f + i * 8)))) else m') :
    (List.range 512).foldl body m = m.freeAll (m.freed below f) := by
  unfold freed
  suffices h : ∀ (l : List ℕ) (m' : Paging), m'.mem = m.mem →
      l.foldl body m' = m'.freeAll (l.flatMap fun i =>
        let entry := m.phyread (f + i * 8)
        if Present entry then below (pageOf entry) else []) from h _ m rfl
  intro l
  induction l with
  | nil => exact fun _ _ => rfl
  | cons i l ih =>
    intro m' hmem
    rw [List.foldl_cons, hbody m' hmem, List.flatMap_cons, freeAll_append]
    dsimp only
    split_ifs with hpresent
    · exact ih _ ((freeAll_mem _ _).trans hmem)
    · exact ih _ hmem

theorem freed_congr (hmem : m'.mem = m.mem) : m'.freed = m.freed := by
  funext below f
  unfold freed
  simp only [phyread_congr hmem]

theorem freePT_eq (m : Paging) (PDe : ℕ) :
    m.freePT PDe = m.freeAll (m.freed (fun page => [page]) (pageOf PDe)) := by
  unfold freePT
  refine freeLoop m (pageOf PDe) (fun page => [page]) _ ?_
  intro m' hmem i
  dsimp only
  rw [phyread_congr hmem]
  rfl

theorem freePD_eq (m : Paging) (PDPTe : ℕ) :
    m.freePD PDPTe = m.freeAll
      (m.freed (fun pt => m.freed (fun page => [page]) pt ++ [pt]) (pageOf PDPTe)) := by
  unfold freePD
  refine freeLoop m (pageOf PDPTe) (fun pt => m.freed (fun page => [page]) pt ++ [pt]) _ ?_
  intro m' hmem i
  dsimp only
  rw [phyread_congr hmem, freePT_eq, freed_congr hmem, freeAll_append, freeAll_singleton]

theorem freePDPT_eq (m : Paging) (PML4e : ℕ) :
    m.freePDPT PML4e = m.freeAll (m.freed (fun pd =>
      if pd = PD0_ADDR then []
      else m.freed (fun pt => m.freed (fun page => [page]) pt ++ [pt]) pd ++ [pd])
      (pageOf PML4e)) := by
  unfold freePDPT
  refine freeLoop m (pageOf PML4e) (fun pd => if pd = PD0_ADDR then []
    else m.freed (fun pt => m.freed (fun page => [page]) pt ++ [pt]) pd ++ [pd]) _ ?_
  intro m' hmem i
  dsimp only
  rw [phyread_congr hmem, freePD_eq, freed_congr hmem]
  split_ifs
  · rfl
  · rw [freeAll_append, freeAll_singleton]
  · rfl

theorem destroyPageDir_eq (m : Paging) (pml4 : ℕ) :
    m.destroyPageDir pml4 = m.freeAll (m.freedPages pml4) := by
  unfold destroyPageDir freedPages
  rw [freeAll_append, freeAll_singleton]
  refine congrArg (fun n => markPhysPageFreeAddr n pml4) ?_
  refine freeLoop m pml4 (fun pdpt => m.freed (fun pd => if pd = PD0_ADDR then []
    else m.freed (fun pt => m.freed (fun page => [page]) pt ++ [pt]) pd ++ [pd]) pdpt ++ [pdpt])
    _ ?_
  intro m' hmem i
  dsimp only
  rw [phyread_congr hmem, freePDPT_eq, freed_congr hmem, freeAll_append, freeAll_singleton]

/-! ### The freed pages are those of the directory -/

/-- The entries `destroyPageDir` follows. -/
def own (m : Paging) : Tables ℕ ℕ := fun f i =>
  match m.child f i with
  | none => none
  | some c => if c = PD0_ADDR then none else some c

theorem own_some {f i c : ℕ} : m.own f i = some c ↔ m.child f i = some c ∧ c ≠ PD0_ADDR := by
  unfold own
  cases m.child f i with
  | none => simp
  | some g =>
    by_cases hg : g = PD0_ADDR
    · simp only [hg, if_true, reduceCtorEq, Option.some.injEq, ne_eq, false_iff, not_and, not_not]
      exact Eq.symm
    · simp only [hg, if_false, Option.some.injEq, ne_eq]
      exact ⟨fun h => ⟨h, h ▸ hg⟩, And.left⟩

section Own

variable (t : PageTrees m live) {d : ℕ} (hd : d ∈ live)
include t hd

theorem own_eq_child {q : List ℕ} {f i : ℕ} (place : Pos live d (q ++ [i]))
    (hwalk : walk m.child d q = some f) : m.own f i = m.child f i := by
  cases hchild : m.child f i with
  | none =>
    unfold own
    rw [hchild]
  | some c =>
    refine own_some.2 ⟨hchild, ?_⟩
    rintro rfl
    have hleaf : walk m.child d (q ++ [i]) = some PD0_ADDR := by
      rw [walk_concat, hwalk]
      exact hchild
    exact absurd (reserved_le.trans (t.owned_live hd place hleaf).above) (by decide)

/-- The walks of `destroyPageDir` are those to the directory's places. -/
theorem walk_own {p : List ℕ} {c : ℕ} (short : p.length ≤ 4) :
    walk m.own d p = some c ↔ Pos live d p ∧ walk m.child d p = some c := by
  have hsame : Pos live d p → walk m.own d p = walk m.child d p := fun hp =>
    walk_congr fun q i hq f hf => own_eq_child t hd
      ⟨hq.length_le.trans short, Or.inr ⟨hd, fun hs => by
        rcases hp.2 with ⟨heq, -⟩ | ⟨-, hshared⟩
        · exact t.apart (heq ▸ hd)
        · exact hshared (hs.trans hq)⟩⟩ hf
  constructor
  · intro h
    have hp : Pos live d p := by
      refine ⟨short, Or.inr ⟨hd, ?_⟩⟩
      rintro ⟨s, rfl⟩
      have hstop : walk m.own d [0, 0] = none := by
        rw [walk_cons]
        cases hfirst : m.own d 0 with
        | none => rfl
        | some f =>
          have hshared := t.shared_entry (Or.inr hd) (own_some.1 hfirst).1
          have hsecond : m.own f 0 = none := by
            unfold own
            rw [hshared]
            exact if_pos rfl
          show walk m.own f [0] = none
          rw [walk_cons, hsecond]
          rfl
      rw [walk_append, hstop] at h
      cases h
    exact ⟨hp, by rw [← hsame hp]; exact h⟩
  · rintro ⟨hp, h⟩
    rw [hsame hp]
    exact h

theorem freed_level {q : List ℕ} {f n : ℕ} {below : ℕ → List ℕ} (short : q.length ≤ 3)
    (hwalk : walk m.own d q = some f) (skip : q.length = 1 → below PD0_ADDR = [])
    (hbelow : ∀ i c, walk m.own d (q ++ [i]) = some c →
      below c = TableForest.below m.own (List.range 512) n c) :
    m.freed below f ++ [f] = TableForest.below m.own (List.range 512) (n + 1) f := by
  rw [TableForest.below]
  refine congrArg (fun l => l ++ [f]) (List.flatMap_congr fun i hi => ?_)
  have hlt : i < 512 := List.mem_range.1 hi
  dsimp only
  cases hown : m.own f i with
  | none =>
    split_ifs with hpresent
    · have hchild := child_of_present hlt hpresent
      have hpd : pageOf (m.phyread (f + i * 8)) = PD0_ADDR := by
        by_contra hne
        rw [own_some.2 ⟨hchild, hne⟩] at hown
        cases hown
      rw [hpd] at hchild ⊢
      apply skip
      by_contra hlen
      obtain ⟨hpos, hw⟩ := (walk_own t hd (by omega)).1 hwalk
      have place : Pos live d (q ++ [i]) := by
        refine ⟨by simpa using Nat.succ_le_succ short, Or.inr ⟨hd, fun hs => ?_⟩⟩
        rcases hpos.2 with ⟨heq, -⟩ | ⟨-, hshared⟩
        · exact t.apart (heq ▸ hd)
        · rcases List.prefix_concat_iff.1 hs with heq | hs
          · have := congrArg List.length heq
            simp at this
            omega
          · exact hshared hs
      rw [own_eq_child t hd place hw, hchild] at hown
      cases hown
    · rfl
  | some c =>
    have hchild := (own_some.1 hown).1
    obtain ⟨-, hpresent, hc⟩ := child_some hchild
    rw [if_pos hpresent, hc]
    apply hbelow i
    rw [walk_concat, hwalk]
    exact hown

theorem freedPages_eq :
    m.freedPages d = TableForest.below m.own (List.range 512) 4 d := by
  have hroot : walk m.own d [] = some d := rfl
  apply freed_level t hd (by simp) hroot (by simp)
  intro i₁ f₁ h₁
  apply freed_level t hd (by simp) h₁ (by simp)
  intro i₂ f₂ h₂
  have hne : f₂ ≠ PD0_ADDR := by
    rw [walk_concat, h₁] at h₂
    exact (own_some.1 h₂).2
  rw [if_neg hne]
  apply freed_level t hd (by simp) h₂ (by simp)
  intro i₃ f₃ h₃
  apply freed_level t hd (by simp) h₃ (by simp)
  intro i₄ f₄ _
  rfl

theorem mem_freedPages {c : ℕ} :
    c ∈ m.freedPages d ↔ ∃ p, Pos live d p ∧ walk m.child d p = some c := by
  have hidx : ∀ f i c, m.own f i = some c → i ∈ List.range 512 := fun f i c h =>
    List.mem_range.2 (child_some (own_some.1 h).1).1
  rw [freedPages_eq t hd, mem_below hidx]
  constructor
  · rintro ⟨p, hlen, h⟩
    exact ⟨p, (walk_own t hd hlen).1 h⟩
  · rintro ⟨p, hp, h⟩
    exact ⟨p, hp.1, (walk_own t hd hp.1).2 ⟨hp, h⟩⟩

theorem nodup_freedPages : (m.freedPages d).Nodup := by
  have hidx : ∀ f i c, m.own f i = some c → i ∈ List.range 512 := fun f i c h =>
    List.mem_range.2 (child_some (own_some.1 h).1).1
  rw [freedPages_eq t hd]
  refine nodup_below hidx List.nodup_range fun p p' c hlen hlen' h h' => ?_
  obtain ⟨hp, hw⟩ := (walk_own t hd hlen).1 h
  obtain ⟨hp', hw'⟩ := (walk_own t hd hlen').1 h'
  exact (t.sep d p d p' c hp hp' hw hw' (t.owned_live hd hp hw)).2

/-- `destroyPageDir` fells the directory. -/
theorem destroyPageDir_felled : Felled m (m.destroyPageDir d) live d := by
  rw [destroyPageDir_eq]
  constructor
  case mem => exact freeAll_mem _ _
  case max => exact freeAll_max _ _
  case used =>
    intro q
    rw [used_freeAll]
    refine and_congr Iff.rfl (not_congr ⟨?_, ?_⟩)
    · rintro ⟨c, hc, rfl, -⟩
      obtain ⟨p, hp, hw⟩ := (mem_freedPages t hd).1 hc
      have haligned := (t.owned_live hd hp hw).aligned
      refine ⟨p, hp, ?_⟩
      rw [hw, Nat.div_mul_cancel (Nat.dvd_of_mod_eq_zero haligned)]
    · intro hb
      have hm := t.belongs_managed hd hb
      obtain ⟨p, hp, hw⟩ := hb
      have hroom := hm.room
      rw [mul_div_page] at hroom
      exact ⟨q * PAGESIZE, (mem_freedPages t hd).2 ⟨p, hp, hw⟩, (mul_div_page q).symm, hroom⟩

end Own

end Ops

end Paging
