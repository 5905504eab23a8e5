import SepplesOS.Mm.PageTree

/-!
# Mapping pages

`mapPage` and `getUnmappedVAddr` let one tree grow by pages that were free (`Grows`).
-/

namespace Paging

open TableForest

/-! ## Growing trees -/

/-- The tree of `r` has grown by pages that were free; the other trees are the same. -/
structure Grows (live : Set ℕ) (r : ℕ) (m m' : Paging) : Prop where
  max : m'.maxPhysPages = m.maxPhysPages
  keep : ∀ r' p f, Pos live r' p → walk m.child r' p = some f → walk m'.child r' p = some f
  others : ∀ r' p, Pos live r' p → r' ≠ r → walk m'.child r' p = walk m.child r' p
  fresh : ∀ p f, Pos live r p → walk m'.child r p = some f → walk m.child r p = none →
    ¬m.Used (f / PAGESIZE) ∧ f / PAGESIZE < m.maxPhysPages
  used : ∀ q, m'.Used q ↔ m.Used q ∨
    ∃ p, Pos live r p ∧ walk m'.child r p = some (q * PAGESIZE) ∧ walk m.child r p = none

section Grows

variable {live : Set ℕ} {r : ℕ} {m m' m'' : Paging}

theorem Grows.refl : Grows live r m m where
  max := rfl
  keep := fun _ _ _ _ h => h
  others := fun _ _ _ _ => rfl
  fresh := by
    intro p f _ h hnone
    rw [h] at hnone
    cases hnone
  used := by
    refine fun q => ⟨Or.inl, ?_⟩
    rintro (h | ⟨p, -, h, hnone⟩)
    · exact h
    · rw [h] at hnone
      cases hnone

theorem Grows.trans (h : Grows live r m m') (h' : Grows live r m' m'') : Grows live r m m'' where
  max := h'.max.trans h.max
  keep := fun r' p f hp hf => h'.keep r' p f hp (h.keep r' p f hp hf)
  others := fun r' p hp hne => (h'.others r' p hp hne).trans (h.others r' p hp hne)
  fresh := by
    intro p f hp hf hnone
    cases hmid : walk m'.child r p with
    | none =>
      obtain ⟨hfree, hroom⟩ := h'.fresh p f hp hf hmid
      exact ⟨fun hused => hfree ((h.used _).2 (Or.inl hused)), h.max ▸ hroom⟩
    | some g =>
      obtain rfl := Option.some.inj ((h'.keep r p g hp hmid).symm.trans hf)
      exact h.fresh p g hp hmid hnone
  used := by
    intro q
    rw [h'.used, h.used]
    constructor
    · rintro ((hold | ⟨p, hp, hf, hnone⟩) | ⟨p, hp, hf, hnone⟩)
      · exact Or.inl hold
      · exact Or.inr ⟨p, hp, h'.keep r p _ hp hf, hnone⟩
      · refine Or.inr ⟨p, hp, hf, ?_⟩
        cases hstart : walk m.child r p with
        | none => rfl
        | some g =>
          rw [h.keep r p g hp hstart] at hnone
          cases hnone
    · rintro (hold | ⟨p, hp, hf, hnone⟩)
      · exact Or.inl (Or.inl hold)
      · cases hmid : walk m'.child r p with
        | none => exact Or.inr ⟨p, hp, hf, hmid⟩
        | some g =>
          obtain rfl := Option.some.inj ((h'.keep r p g hp hmid).symm.trans hf)
          exact Or.inl (Or.inr ⟨p, hp, hmid, hnone⟩)

/-- What a tree has grown by lies beyond the bitmap. -/
theorem Grows.managed (h : Grows live r m m') (t : PageTrees m live) (t' : PageTrees m' live)
    {p : List ℕ} {f : ℕ} (place : Pos live r p) (now : walk m'.child r p = some f)
    (before : walk m.child r p = none) : m'.Managed f := by
  rcases t'.owned r p f place now with hm | ⟨rfl, hboot | ⟨-, hlow⟩⟩
  · exact hm
  · rw [t.boot p f hboot] at before
    cases before
  · obtain ⟨hfree, hroom⟩ := h.fresh p f place now before
    have habove := t.fresh_above hfree hroom
    rw [reservedPages_congr h.max] at hlow
    omega

theorem Hung.grows {f₀ i₀ page : ℕ} {q₀ : List ℕ} (t : PageTrees m live)
    (h : Hung m m' f₀ i₀ page (q₀.length < 3)) (place : Pos live r (q₀ ++ [i₀]))
    (hwalk : walk m.child r q₀ = some f₀) (absent : m.child f₀ i₀ = none) : Grows live r m m' where
  max := h.max
  keep := fun _ _ _ hp hf => t.keep_hung h place hwalk absent hp hf
  others := by
    classical
    intro r' p hp hne
    rw [t.walk_hung h place hwalk absent hp, if_neg fun heq => hne heq.1]
  fresh := by
    intro p f hp hf hnone
    rcases t.cases_hung h place hwalk absent hp hf with ⟨-, rfl⟩ | ⟨hold, -⟩
    · rw [mul_div_page]
      exact ⟨h.free, h.room⟩
    · rw [hold] at hnone
      cases hnone
  used := by
    classical
    intro q
    have hnew : walk m'.child r (q₀ ++ [i₀]) = some (page * PAGESIZE) := by
      rw [t.walk_hung h place hwalk absent place, if_pos ⟨rfl, rfl⟩]
    have hold : walk m.child r (q₀ ++ [i₀]) = none := by
      rw [walk_concat, hwalk]
      exact absent
    rw [h.used]
    refine or_congr Iff.rfl ⟨?_, ?_⟩
    · rintro rfl
      exact ⟨_, place, hnew, hold⟩
    · rintro ⟨p, hp, hf, hnone⟩
      rcases t.cases_hung h place hwalk absent hp hf with ⟨-, heq⟩ | ⟨hsome, -⟩
      · exact Nat.eq_of_mul_eq_mul_right (by decide) heq
      · rw [hsome] at hnone
        cases hnone

end Grows

/-! ## Paths -/

/-- The path of a virtual address. -/
def path (vaddr : ℕ) : List ℕ := [index vaddr 39, index vaddr 30, index vaddr 21, index vaddr 12]

/-- The directory that a page of `pml4` belongs to: the first page directory is the kernel's. -/
def owner (vaddr pml4 : ℕ) : ℕ := if index vaddr 30 = 0 then PML4_ADDR else pml4

theorem index_lt (vaddr shift : ℕ) : index vaddr shift < 512 :=
  Nat.lt_succ_of_le Nat.and_le_right

theorem index_top {vaddr : ℕ} (small : vaddr < 2 ^ 39) : index vaddr 39 = 0 := by
  unfold index
  rw [Nat.shiftRight_eq_div_pow, Nat.div_eq_of_lt small, Nat.zero_and]

theorem index_eq (vaddr shift : ℕ) : index vaddr shift = vaddr / 2 ^ shift % 512 := by
  unfold index
  rw [Nat.shiftRight_eq_div_pow]
  exact Nat.and_two_pow_sub_one_eq_mod _ 9

theorem user_index {vaddr : ℕ} (user : USER_OFFSET ≤ vaddr) (low : vaddr < 2 ^ 39) :
    index vaddr 30 ≠ 0 := by
  have huser : 2 ^ 30 ≤ vaddr := user
  rw [index_eq]
  omega

theorem pageOf_path {v v' : ℕ} (low : v < 2 ^ 39) (low' : v' < 2 ^ 39) (h : path v = path v') :
    pageOf v = pageOf v' := by
  unfold path at h
  simp only [List.cons.injEq, and_true, index_eq] at h
  obtain ⟨-, h₃₀, h₂₁, h₁₂⟩ := h
  show v - v % 4096 = v' - v' % 4096
  omega

theorem path_of_first {vaddr : ℕ} (first : index vaddr 39 = 0) :
    path vaddr = [0, index vaddr 30, index vaddr 21] ++ [index vaddr 12] := by
  rw [path, first]
  rfl

theorem path_pageOf (vaddr : ℕ) : path (pageOf vaddr) = path vaddr := by
  have hshift : ∀ k, k = 12 ∨ k = 21 ∨ k = 30 ∨ k = 39 → pageOf vaddr >>> k = vaddr >>> k := by
    rintro k (rfl | rfl | rfl | rfl) <;>
      · rw [Nat.shiftRight_eq_div_pow, Nat.shiftRight_eq_div_pow]
        show (vaddr - vaddr % 4096) / _ = _
        omega
  unfold path index
  rw [hshift 12 (by simp), hshift 21 (by simp), hshift 30 (by simp), hshift 39 (by simp)]

section Ops

variable {live : Set ℕ} {m m' : Paging}

theorem slot_ne {f i : ℕ} (lt : i < 512) (absent : m.child f i = none) : f + i * 8 ≠ TMPMAP_PTE := by
  intro hslot
  have hpresent : Present (m.phyread (f + i * 8)) := by
    rw [hslot, phyread, if_pos rfl]
    decide
  exact present_of_child lt absent hpresent

theorem PageTrees.walk_slot (t : PageTrees m live) :
    walk m.child PML4_ADDR [0, 0, 0, 7] = some PT0_ADDR := by
  have hread : m.phyread (PT0_ADDR + 7 * 8) = PT0_ADDR ||| 0b11 := if_pos rfl
  rw [show [0, 0, 0, 7] = [0, 0, 0] ++ [7] from rfl, walk_concat, t.boot [0, 0, 0] PT0_ADDR rfl]
  show m.child PT0_ADDR 7 = some PT0_ADDR
  rw [child_of_present (by decide) (by rw [hread]; decide), hread]
  rfl

/-- `presentOrNew` finds the entry or hangs a zeroed free page in. -/
theorem presentOrNew_cases {addr flags entry : ℕ} (h : m.presentOrNew addr flags = some (entry, m')) :
    (Present (m.phyread addr) ∧ entry = m.phyread addr ∧ m' = m) ∨
      ¬Present (m.phyread addr) ∧ ∃ page, page < m.maxPhysPages ∧ ¬m.Used page ∧
        entry = page * PAGESIZE ||| (PAGE_ATTR_PRESENT ||| PAGE_ATTR_WRITE ||| flags) ∧
        m' = ((m.markPhysPageUsed page).phyzero (page * PAGESIZE)).phywrite addr entry := by
  unfold presentOrNew at h
  by_cases hpresent : Present (m.phyread addr)
  · simp only [hpresent, if_true, Option.some.injEq, Prod.mk.injEq] at h
    exact Or.inl ⟨hpresent, h.1.symm, h.2.symm⟩
  · by_cases hfull : m.getFreePhysPage = 0
    · simp [hpresent, hfull] at h
    · obtain ⟨page, hpage, hroom, hfree⟩ := getFreePhysPage_spec hfull
      have hne : page * PAGESIZE ≠ 0 := hpage ▸ hfull
      simp only [hpresent, if_false, hpage, hne, pageOf_mul, mul_div_page, Option.some.injEq,
        Prod.mk.injEq] at h
      refine Or.inr ⟨hpresent, page, hroom, hfree, h.1.symm, ?_⟩
      rw [← h.1]
      exact h.2.symm

theorem PageTrees.fresh_above_boot (t : PageTrees m live) {page : ℕ} (free : ¬m.Used page)
    (room : page < m.maxPhysPages) : PT0_ADDR + PAGESIZE ≤ page * PAGESIZE := by
  have hle : 0x100 ≤ page := reserved_le.trans (t.fresh_above free room)
  show 0x5000 ≤ page * 0x1000
  omega

theorem hung_table (t : PageTrees m live) {r f i flags page : ℕ} {q : List ℕ}
    (hin : Interior live r q) (hwalk : walk m.child r q = some f) (lt : i < 512)
    (small : flags < PAGESIZE) (absent : m.child f i = none) (free : ¬m.Used page)
    (room : page < m.maxPhysPages) (table : Prop) :
    Hung m (((m.markPhysPageUsed page).phyzero (page * PAGESIZE)).phywrite (f + i * 8)
      (page * PAGESIZE ||| (PAGE_ATTR_PRESENT ||| PAGE_ATTR_WRITE ||| flags))) f i page table := by
  have haligned₀ := t.table_aligned hin hwalk
  have habove := t.fresh_above_boot free room
  have hzero : ∀ g j, ((m.markPhysPageUsed page).phyzero (page * PAGESIZE)).child g j =
      (m.phyzero (page * PAGESIZE)).child g j := by
    intro g j
    apply child_congr
    rw [phyread_phyzero habove, phyread_phyzero habove, phyread_congr (markPhysPageUsed_mem page)]
  constructor
  case max => exact markPhysPageUsed_max page
  case free => exact free
  case room => exact room
  case entry =>
    rw [child_phywrite_self lt (slot_ne lt absent), if_pos (present_or_odd _ _ (flags_odd flags)),
      pageOf_or (Nat.mul_mod_left _ _) (flags_small small)]
  case others =>
    intro g j haligned hg hgj
    rw [child_phywrite_ne haligned haligned₀ lt hgj, hzero,
      child_phyzero_ne habove haligned (Nat.mul_mod_left _ _) hg]
  case empty =>
    intro _ j
    have hne := t.table_ne_fresh hin hwalk free room
    rw [child_phywrite_ne (Nat.mul_mod_left _ _) haligned₀ lt fun heq => hne heq.1.symm, hzero,
      child_phyzero_self habove]
  case used =>
    intro p
    show (m.markPhysPageUsed page).Used p ↔ _
    rw [used_markPhysPageUsed]
    exact or_congr Iff.rfl (and_iff_left room)

/-- The entry that refers to a page. -/
def entryOf (page flags : ℕ) : ℕ :=
  page * PAGESIZE ||| (PAGE_ATTR_PRESENT ||| PAGE_ATTR_WRITE ||| flags)

/-- A page becomes an empty table, as entry `i` of the table `f`. -/
def addTable (m : Paging) (f i page flags : ℕ) : Paging :=
  ((m.markPhysPageUsed page).phyzero (page * PAGESIZE)).phywrite (f + i * 8) (entryOf page flags)

/-- A page becomes a leaf, as entry `i` of the table `f`. -/
def addLeaf (m : Paging) (f i page flags : ℕ) : Paging :=
  (m.phywrite (f + i * 8) (entryOf page flags)).markPhysPageUsed page

/-- Entry `i` of the table `f` at `q` below `r` is absent, and the page is free. -/
structure Vacant (m : Paging) (live : Set ℕ) (r : ℕ) (q : List ℕ) (i f page : ℕ) : Prop where
  below : q ≠ []
  place : Pos live r (q ++ [i])
  reached : walk m.child r q = some f
  lt : i < 512
  absent : m.child f i = none
  free : ¬m.Used page
  room : page < m.maxPhysPages

/-- Tables are added to the tree of `r`, one after the other. -/
inductive AddsTables (live : Set ℕ) (r flags : ℕ) (m : Paging) : Paging → Prop
  | refl : AddsTables live r flags m m
  | add {m' : Paging} {q : List ℕ} {f i page : ℕ} (before : AddsTables live r flags m m')
    (vacant : m'.Vacant live r q i f page) (inner : q.length < 3) :
    AddsTables live r flags m (m'.addTable f i page flags)

section Adds

variable {r f i flags page : ℕ} {q : List ℕ}

theorem AddsTables.trans {m'' : Paging} (first : AddsTables live r flags m m')
    (second : AddsTables live r flags m' m'') : AddsTables live r flags m m'' := by
  induction second with
  | refl => exact first
  | add _ vacant inner ih => exact .add ih vacant inner

theorem Vacant.hung_table (t : PageTrees m live) (h : m.Vacant live r q i f page)
    (small : flags < PAGESIZE) : Hung m (m.addTable f i page flags) f i page (q.length < 3) :=
  Paging.hung_table t h.place.concat_interior h.reached h.lt small h.absent h.free h.room _

theorem AddsTables.trees (adds : AddsTables live r flags m m') (small : flags < PAGESIZE)
    (t : PageTrees m live) : PageTrees m' live := by
  induction adds with
  | refl => exact t
  | add _ vacant _ ih =>
    exact ih.hung (vacant.hung_table ih small) vacant.place vacant.reached vacant.absent vacant.below

theorem AddsTables.grows (adds : AddsTables live r flags m m') (small : flags < PAGESIZE)
    (t : PageTrees m live) : Grows live r m m' := by
  induction adds with
  | refl => exact Grows.refl
  | add before vacant _ ih =>
    have t' := before.trees small t
    exact ih.trans ((vacant.hung_table t' small).grows t' vacant.place vacant.reached vacant.absent)

theorem AddsTables.leaves (adds : AddsTables live r flags m m') (small : flags < PAGESIZE)
    (t : PageTrees m live) {r' : ℕ} {p : List ℕ} (place : Pos live r' p) (full : p.length = 4) :
    walk m'.child r' p = walk m.child r' p := by
  classical
  induction adds with
  | refl => rfl
  | add before vacant inner ih =>
    have t' := before.trees small t
    rw [t'.walk_hung (vacant.hung_table t' small) vacant.place vacant.reached vacant.absent place,
      if_neg, ih]
    rintro ⟨-, rfl⟩
    rw [List.length_append, List.length_singleton] at full
    omega

end Adds

/-- `presentOrNew` below the first level. -/
theorem presentOrNew_spec (t : PageTrees m live) {r f i flags entry : ℕ} {q : List ℕ}
    (below : q ≠ []) (inner : q.length < 3) (place : Pos live r (q ++ [i]))
    (hwalk : walk m.child r q = some f) (lt : i < 512) (small : flags < PAGESIZE)
    (h : m.presentOrNew (f + i * 8) flags = some (entry, m')) :
    AddsTables live r flags m m' ∧ walk m'.child r (q ++ [i]) = some (pageOf entry) := by
  rcases presentOrNew_cases h with ⟨hpresent, rfl, rfl⟩ | ⟨habsent, page, hroom, hfree, hentry, hm⟩
  · refine ⟨.refl, ?_⟩
    rw [walk_concat, hwalk]
    exact child_of_present lt hpresent
  · have vacant : m.Vacant live r q i f page :=
      ⟨below, place, hwalk, lt, child_of_not_present habsent, hfree, hroom⟩
    obtain rfl : m' = m.addTable f i page flags := by rw [hm, hentry]; rfl
    refine ⟨.add .refl vacant inner, ?_⟩
    classical
    rw [t.walk_hung (vacant.hung_table t small) place hwalk vacant.absent place, if_pos ⟨rfl, rfl⟩,
      hentry, pageOf_or (Nat.mul_mod_left _ _) (flags_small small)]

/-! ## `mapPage` -/

theorem hung_leaf (t : PageTrees m live) {r f i flags page : ℕ} {q : List ℕ}
    (hin : Interior live r q) (hwalk : walk m.child r q = some f) (lt : i < 512)
    (small : flags < PAGESIZE) (absent : m.child f i = none) (free : ¬m.Used page)
    (room : page < m.maxPhysPages) (leaf : q.length = 3) :
    Hung m ((m.phywrite (f + i * 8)
      (page * PAGESIZE ||| (PAGE_ATTR_PRESENT ||| PAGE_ATTR_WRITE ||| flags))).markPhysPageUsed page)
      f i page (q.length < 3) := by
  have hmem : ∀ g j, ((m.phywrite (f + i * 8) (page * PAGESIZE |||
      (PAGE_ATTR_PRESENT ||| PAGE_ATTR_WRITE ||| flags))).markPhysPageUsed page).child g j =
      (m.phywrite (f + i * 8) (page * PAGESIZE |||
      (PAGE_ATTR_PRESENT ||| PAGE_ATTR_WRITE ||| flags))).child g j :=
    fun g j => child_congr (phyread_congr (markPhysPageUsed_mem page) _)
  constructor
  case max => exact markPhysPageUsed_max page
  case free => exact free
  case room => exact room
  case entry =>
    rw [hmem, child_phywrite_self lt (slot_ne lt absent),
      if_pos (present_or_odd _ _ (flags_odd flags)),
      pageOf_or (Nat.mul_mod_left _ _) (flags_small small)]
  case others =>
    intro g j haligned _ hgj
    rw [hmem, child_phywrite_ne haligned (t.table_aligned hin hwalk) lt hgj]
  case empty =>
    intro hlen
    omega
  case used =>
    intro p
    rw [used_markPhysPageUsed]
    exact or_congr Iff.rfl (and_iff_left room)

theorem PageTrees.walk_shared (t : PageTrees m live) {r : ℕ} (root : r = PML4_ADDR ∨ r ∈ live) :
    walk m.child r [0, 0] = some PD0_ADDR := by
  rcases root with rfl | hr
  · exact t.boot [0, 0] PD0_ADDR rfl
  · obtain ⟨f, hf, hchild⟩ := t.shared r hr
    rw [show [0, 0] = [0] ++ [0] from rfl, walk_concat, hf]
    exact hchild

theorem PageTrees.shared_entry (t : PageTrees m live) {r f : ℕ} (root : r = PML4_ADDR ∨ r ∈ live)
    (first : m.child r 0 = some f) : m.child f 0 = some PD0_ADDR := by
  have hwalk : walk m.child r [0] = some f := by
    rw [walk_cons, first]
    rfl
  have hshared := t.walk_shared root
  rw [show [0, 0] = [0] ++ [0] from rfl, walk_concat, hwalk] at hshared
  exact hshared

theorem pageDirectory_spec (t : PageTrees m live) {vaddr flags pml4 entry : ℕ}
    (root : pml4 = PML4_ADDR ∨ pml4 ∈ live) {f : ℕ} (first : m.child pml4 0 = some f)
    (small : flags < PAGESIZE)
    (h : m.presentOrNew (f + index vaddr 30 * 8) flags = some (entry, m')) :
    AddsTables live (owner vaddr pml4) flags m m' ∧
      walk m'.child (owner vaddr pml4) [0, index vaddr 30] = some (pageOf entry) := by
  unfold owner
  split_ifs with hkernel
  · -- the shared page directory is always there
    rw [hkernel] at h ⊢
    have hshared := child_some (t.shared_entry root first)
    rcases presentOrNew_cases h with ⟨-, rfl, rfl⟩ | ⟨habsent, -⟩
    · refine ⟨.refl, ?_⟩
      rw [hshared.2.2]
      exact t.boot [0, 0] PD0_ADDR rfl
    · exact absurd hshared.2.1 habsent
  · have place : Pos live pml4 ([0] ++ [index vaddr 30]) := by
      rcases root with rfl | hr
      · exact pos_kernel (by simp) (by simp)
      · refine ⟨by simp, Or.inr ⟨hr, ?_⟩⟩
        simpa using Ne.symm hkernel
    apply presentOrNew_spec t (by simp) (by simp) place _ (index_lt _ _) small h
    rw [walk_cons, first]
    rfl

/-- The places on the way to an address in the tree of its owner. -/
theorem owner_pos {vaddr pml4 : ℕ} {p : List ℕ} (root : pml4 = PML4_ADDR ∨ pml4 ∈ live)
    (short : p.length ≤ 2)
    (slot : owner vaddr pml4 = PML4_ADDR → 0 :: index vaddr 30 :: p ≠ [0, 0, 0, 7]) :
    Pos live (owner vaddr pml4) (0 :: index vaddr 30 :: p) := by
  have hlen : (0 :: index vaddr 30 :: p).length ≤ 4 := by
    simp only [List.length_cons]
    omega
  by_cases hkernel : owner vaddr pml4 = PML4_ADDR
  · exact ⟨hlen, Or.inl ⟨hkernel, slot hkernel⟩⟩
  · unfold owner at hkernel ⊢
    split_ifs at hkernel ⊢ with hfirst
    · exact absurd rfl hkernel
    · have hr : pml4 ∈ live := root.resolve_left hkernel
      refine ⟨hlen, Or.inr ⟨hr, fun hshared => hfirst ?_⟩⟩
      simpa using Eq.symm (List.cons_prefix_cons.1 (List.cons_prefix_cons.1 hshared).2).1

theorem PageTrees.leaf_ne_slot (t : PageTrees m live) {f i : ℕ} {q : List ℕ} {r : ℕ}
    (hwalk : walk m.child r q = some f) (lt : i < 512)
    (absent : m.child f i = none) (kernel : r = PML4_ADDR) : q ++ [i] ≠ [0, 0, 0, 7] := by
  intro heq
  obtain ⟨rfl, hi⟩ : q = [0, 0, 0] ∧ [i] = [7] := List.append_inj' heq rfl
  obtain rfl : i = 7 := by simpa using hi
  rw [kernel, t.boot [0, 0, 0] PT0_ADDR rfl] at hwalk
  obtain rfl := Option.some.inj hwalk
  exact slot_ne lt absent rfl

/-- What `mapPage` does once the virtual address is known: it adds the tables that are missing to the
tree that the page belongs to, and then writes the entry of the page, unless the page is mapped or no
page is free. -/
theorem mapPageAt_tables (t : PageTrees m live) {vaddr paddr flags pml4 w : ℕ}
    (root : pml4 = PML4_ADDR ∨ pml4 ∈ live)
    (h : m.mapPageAt vaddr paddr flags pml4 = some (w, m')) :
    index vaddr 39 = 0 ∧ ∃ m₂ f, AddsTables live (owner vaddr pml4) (flags &&& 0xFFF) m m₂ ∧
      walk m₂.child (owner vaddr pml4) [0, index vaddr 30, index vaddr 21] = some f ∧
      (w = 0 ∧ m' = m₂ ∧ (Present (m₂.phyread (f + index vaddr 12 * 8)) ∨
          paddr = 0 ∧ m₂.getFreePhysPage = 0) ∨
        ∃ frame, frame ≠ 0 ∧ frame = (if paddr = 0 then m₂.getFreePhysPage else paddr) ∧
          ¬Present (m₂.phyread (f + index vaddr 12 * 8)) ∧ w = vaddr ∧
          m' = (m₂.phywrite (f + index vaddr 12 * 8) (pageOf frame |||
            (PAGE_ATTR_PRESENT ||| PAGE_ATTR_WRITE ||| (flags &&& 0xFFF)))).markPhysPageUsed
              (pageOf frame / PAGESIZE)) := by
  have hsmall := attrs_small flags
  unfold mapPageAt at h
  dsimp only at h
  by_cases htop : Present (m.phyread (pml4 + index vaddr 39 * 8))
  · rw [if_pos htop] at h
    have hfirst := child_of_present (index_lt _ _) htop
    obtain hzero : index vaddr 39 = 0 := t.top _ _ _ root hfirst
    rw [hzero] at h htop hfirst
    refine ⟨hzero, ?_⟩
    generalize flags &&& 0xFFF = flags at h hsmall ⊢
    cases hpd : m.presentOrNew (pageOf (m.phyread (pml4 + 0 * 8)) + index vaddr 30 * 8) flags with
    | none =>
      rw [hpd] at h
      cases h
    | some res =>
      obtain ⟨PDPTentry, m₁⟩ := res
      rw [hpd] at h
      obtain ⟨adds₁, hdir⟩ := pageDirectory_spec t root hfirst hsmall hpd
      have t₁ := adds₁.trees hsmall t
      dsimp only at h
      cases hpt : m₁.presentOrNew (pageOf PDPTentry + index vaddr 21 * 8) flags with
      | none =>
        rw [hpt] at h
        cases h
      | some res =>
        obtain ⟨PDentry, m₂⟩ := res
        rw [hpt] at h
        have place₂ : Pos live (owner vaddr pml4) ([0, index vaddr 30] ++ [index vaddr 21]) :=
          owner_pos root (by simp) fun _ => by simp
        obtain ⟨adds₂, htable⟩ :=
          presentOrNew_spec t₁ (by simp) (by simp) place₂ hdir (index_lt _ _) hsmall hpt
        refine ⟨m₂, pageOf PDentry, adds₁.trans adds₂, htable, ?_⟩
        dsimp only at h
        by_cases hpresent : Present (m₂.phyread (pageOf PDentry + index vaddr 12 * 8))
        · rw [if_pos hpresent] at h
          obtain ⟨rfl, rfl⟩ := Prod.mk.inj (Option.some.inj h)
          exact Or.inl ⟨rfl, rfl, Or.inl hpresent⟩
        · rw [if_neg hpresent] at h
          by_cases hfull : (if paddr = 0 then m₂.getFreePhysPage else paddr) = 0
          · rw [if_pos hfull] at h
            obtain ⟨rfl, rfl⟩ := Prod.mk.inj (Option.some.inj h)
            refine Or.inl ⟨rfl, rfl, Or.inr ?_⟩
            by_cases hpaddr : paddr = 0
            · rw [if_pos hpaddr] at hfull
              exact ⟨hpaddr, hfull⟩
            · rw [if_neg hpaddr] at hfull
              exact absurd hfull hpaddr
          · rw [if_neg hfull] at h
            obtain ⟨rfl, rfl⟩ := Prod.mk.inj (Option.some.inj h)
            exact Or.inr ⟨_, hfull, rfl, hpresent, rfl, rfl⟩
  · rw [if_neg htop] at h
    cases h

theorem mapPageAt_cases (t : PageTrees m live) {vaddr flags pml4 w : ℕ}
    (root : pml4 = PML4_ADDR ∨ pml4 ∈ live)
    (h : m.mapPageAt vaddr 0 flags pml4 = some (w, m')) :
    index vaddr 39 = 0 ∧ ∃ m₂, AddsTables live (owner vaddr pml4) (flags &&& 0xFFF) m m₂ ∧
      (w = 0 ∧ m' = m₂ ∨ ∃ f page, w = vaddr ∧
        m₂.Vacant live (owner vaddr pml4) [0, index vaddr 30, index vaddr 21] (index vaddr 12) f page ∧
        m' = m₂.addLeaf f (index vaddr 12) page (flags &&& 0xFFF)) := by
  have hsmall := attrs_small flags
  obtain ⟨hzero, m₂, f, adds, htable, hres⟩ := mapPageAt_tables t root h
  refine ⟨hzero, m₂, adds, ?_⟩
  obtain ⟨rfl, rfl, -⟩ | ⟨frame, hne, hframe, hpresent, rfl, rfl⟩ := hres
  · exact Or.inl ⟨rfl, rfl⟩
  · rw [if_pos rfl] at hframe
    obtain ⟨page, hpage, hroom, hfree⟩ := getFreePhysPage_spec (hframe ▸ hne)
    rw [hpage] at hframe
    subst hframe
    rw [pageOf_mul, mul_div_page]
    have absent := child_of_not_present hpresent
    have place : Pos live (owner w pml4) ([0, index w 30, index w 21] ++ [index w 12]) :=
      owner_pos root (by simp)
        ((adds.trees hsmall t).leaf_ne_slot htable (index_lt _ _) absent)
    exact Or.inr ⟨f, page, rfl, ⟨by simp, place, htable, index_lt _ _, absent, hfree, hroom⟩, rfl⟩

theorem Vacant.hung_leaf (t : PageTrees m live) {r f i flags page : ℕ} {q : List ℕ}
    (h : m.Vacant live r q i f page) (small : flags < PAGESIZE) (leaf : q.length = 3) :
    Hung m (m.addLeaf f i page flags) f i page (q.length < 3) :=
  Paging.hung_leaf t h.place.concat_interior h.reached h.lt small h.absent h.free h.room leaf

/-- `mapPage` without a physical address, once the virtual address is known: the tree that the page
belongs to grows, and a page that was mapped is in it. -/
theorem mapPageAt_spec (t : PageTrees m live) {vaddr flags pml4 w : ℕ}
    (root : pml4 = PML4_ADDR ∨ pml4 ∈ live)
    (h : m.mapPageAt vaddr 0 flags pml4 = some (w, m')) :
    PageTrees m' live ∧ Grows live (owner vaddr pml4) m m' ∧
      (w ≠ 0 → w = vaddr ∧ Pos live (owner vaddr pml4) (path vaddr) ∧
        ∃ f, walk m'.child (owner vaddr pml4) (path vaddr) = some f ∧ m'.Managed f) := by
  have hsmall := attrs_small flags
  obtain ⟨hzero, m₂, adds, ⟨rfl, rfl⟩ | ⟨f, page, rfl, vacant, rfl⟩⟩ := mapPageAt_cases t root h
  · exact ⟨adds.trees hsmall t, adds.grows hsmall t, fun hw => absurd rfl hw⟩
  · have t₂ := adds.trees hsmall t
    have hung := vacant.hung_leaf t₂ hsmall rfl
    have t₃ := t₂.hung hung vacant.place vacant.reached vacant.absent vacant.below
    have g₃ := hung.grows t₂ vacant.place vacant.reached vacant.absent
    have hpath := path_of_first hzero
    classical
    have hleaf := t₂.walk_hung hung vacant.place vacant.reached vacant.absent vacant.place
    rw [if_pos ⟨rfl, rfl⟩] at hleaf
    rw [hpath]
    refine ⟨t₃, (adds.grows hsmall t).trans g₃, fun _ => ⟨rfl, vacant.place, _, hleaf, ?_⟩⟩
    apply g₃.managed t₂ t₃ vacant.place hleaf
    rw [walk_concat, vacant.reached]
    exact vacant.absent

/-! ## `getUnmappedVAddr` -/

theorem scanPT_lt {PDe n PTi j : ℕ} (h : m.scanPT PDe n PTi = some j) : j < PTi + n := by
  induction n generalizing PTi with
  | zero => cases h
  | succ n ih =>
    rw [scanPT] at h
    split_ifs at h
    · have := ih h
      omega
    · obtain rfl := Option.some.inj h
      omega

theorem scanPD_spec (t : PageTrees m live) {PDPTe PML4i PDPTi n PDi : ℕ} {o : Option ℕ}
    (hdir : walk m.child PML4_ADDR [0, PDPTi] = some (pageOf PDPTe)) (enough : PDi + n = 512)
    (h : scanPD PDPTe PML4i PDPTi m n PDi = some (o, m')) :
    AddsTables live PML4_ADDR 0 m m' ∧ ∀ vaddr, o = some vaddr →
      ∃ PDi < 512, ∃ PTi < 512,
        vaddr = (PML4i <<< 39) + (PDPTi <<< 30) + (PDi <<< 21) + (PTi <<< 12) := by
  induction n generalizing m PDi with
  | zero =>
    obtain ⟨rfl, rfl⟩ := Prod.mk.inj (Option.some.inj h)
    exact ⟨.refl, fun _ hv => by cases hv⟩
  | succ n ih =>
    rw [scanPD] at h
    cases hpt : m.presentOrNew (pageOf PDPTe + PDi * 8) 0 with
    | none =>
      rw [hpt] at h
      cases h
    | some res =>
      obtain ⟨PDe, m₁⟩ := res
      rw [hpt] at h
      have place : Pos live PML4_ADDR ([0, PDPTi] ++ [PDi]) := pos_kernel (by simp) (by simp)
      obtain ⟨adds₁, -⟩ :=
        presentOrNew_spec t (by simp) (by simp) place hdir (by omega) (by decide) hpt
      dsimp only at h
      split at h
      case h_1 PTi hscan =>
        obtain ⟨rfl, rfl⟩ := Prod.mk.inj (Option.some.inj h)
        refine ⟨adds₁, fun vaddr hv => ⟨PDi, by omega, PTi, ?_, (Option.some.inj hv).symm⟩⟩
        have hlt := scanPT_lt hscan
        have hstart : (if pageOf PDe = PT0_ADDR then FREE_PAGES_START / PAGESIZE else 0) ≤ 512 := by
          split_ifs <;> decide
        omega
      case h_2 =>
        have hkept := (adds₁.grows (by decide) t).keep _ _ _ (pos_kernel (by simp) (by simp)) hdir
        obtain ⟨adds, hv⟩ := ih (adds₁.trees (by decide) t) hkept (by omega) h
        exact ⟨adds₁.trans adds, hv⟩

theorem scanPDPT_spec (t : PageTrees m live) {PML4e PML4i n PDPTi : ℕ} {o : Option ℕ}
    (hdir : walk m.child PML4_ADDR [0] = some (pageOf PML4e)) (enough : PDPTi + n = 512)
    (h : scanPDPT PML4e PML4i m n PDPTi = some (o, m')) :
    AddsTables live PML4_ADDR 0 m m' ∧ ∀ vaddr, o = some vaddr →
      ∃ PDPTi < 512, ∃ PDi < 512, ∃ PTi < 512,
        vaddr = (PML4i <<< 39) + (PDPTi <<< 30) + (PDi <<< 21) + (PTi <<< 12) := by
  induction n generalizing m PDPTi with
  | zero =>
    obtain ⟨rfl, rfl⟩ := Prod.mk.inj (Option.some.inj h)
    exact ⟨.refl, fun _ hv => by cases hv⟩
  | succ n ih =>
    rw [scanPDPT] at h
    split_ifs at h with hpresent
    have hentry : walk m.child PML4_ADDR [0, PDPTi] =
        some (pageOf (m.phyread (pageOf PML4e + PDPTi * 8))) := by
      rw [show [0, PDPTi] = [0] ++ [PDPTi] from rfl, walk_concat, hdir]
      exact child_of_present (by omega) hpresent
    split at h
    case h_1 => cases h
    case h_2 vaddr m₁ hscan =>
      obtain ⟨rfl, rfl⟩ := Prod.mk.inj (Option.some.inj h)
      obtain ⟨adds₁, hv⟩ := scanPD_spec t hentry (by simp) hscan
      exact ⟨adds₁, fun v heq => ⟨PDPTi, by omega, hv v heq⟩⟩
    case h_3 m₁ hscan =>
      obtain ⟨adds₁, -⟩ := scanPD_spec t hentry (by simp) hscan
      have hkept := (adds₁.grows (by decide) t).keep _ _ _ (pos_kernel (by simp) (by simp)) hdir
      obtain ⟨adds, hv⟩ := ih (adds₁.trees (by decide) t) hkept (by omega) h
      exact ⟨adds₁.trans adds, hv⟩

/-- Only the first entry of the kernel's directory is present, so the scan ends there. -/
theorem getUnmappedVAddr_spec (t : PageTrees m live) {vaddr : ℕ}
    (h : m.getUnmappedVAddr = some (vaddr, m')) :
    AddsTables live PML4_ADDR 0 m m' ∧ vaddr < 2 ^ 39 := by
  unfold getUnmappedVAddr at h
  cases hscan : scanPML4 m 512 0 with
  | none =>
    rw [hscan] at h
    cases h
  | some res =>
    obtain ⟨o, m₁⟩ := res
    rw [hscan] at h
    obtain ⟨rfl, rfl⟩ := Prod.mk.inj (Option.some.inj h)
    change scanPML4 m (511 + 1) 0 = some (o, m₁) at hscan
    rw [scanPML4] at hscan
    split_ifs at hscan with hpresent
    have hdir : walk m.child PML4_ADDR [0] = some (pageOf (m.phyread (PML4_ADDR + 0 * 8))) := by
      rw [walk_cons, child_of_present (by decide) hpresent]
      rfl
    split at hscan
    case h_1 => cases hscan
    case h_2 vaddr m₂ hpdpt =>
      obtain ⟨rfl, rfl⟩ := Prod.mk.inj (Option.some.inj hscan)
      obtain ⟨adds, hv⟩ := scanPDPT_spec t hdir (by simp) hpdpt
      obtain ⟨i, hi, j, hj, k, hk, rfl⟩ := hv vaddr rfl
      refine ⟨adds, ?_⟩
      simp only [Option.getD_some, Nat.shiftLeft_eq]
      omega
    case h_3 m₂ hpdpt =>
      obtain ⟨adds, -⟩ := scanPDPT_spec t hdir (by simp) hpdpt
      have t₁ := adds.trees (by decide) t
      change scanPML4 m₂ (510 + 1) 1 = some (o, m₁) at hscan
      rw [scanPML4] at hscan
      split_ifs at hscan with hsecond
      have hchild := child_of_present (by decide) hsecond
      exact absurd (t₁.top _ _ _ (Or.inl rfl) hchild) (by decide)

theorem mapPage_cases (t : PageTrees m live) {vaddr paddr flags pml4 w : ℕ}
    (h : m.mapPage vaddr paddr flags pml4 = some (w, m')) :
    ∃ v m₁, (vaddr ≠ 0 → v = vaddr ∧ m₁ = m) ∧ AddsTables live PML4_ADDR 0 m m₁ ∧
      (w = 0 ∧ m' = m₁ ∨ v ≠ 0 ∧ (vaddr = 0 → v < 2 ^ 39) ∧
        m₁.mapPageAt v paddr flags pml4 = some (w, m')) := by
  unfold mapPage at h
  split_ifs at h with hnull
  · cases hsearch : m.getUnmappedVAddr with
    | none =>
      rw [hsearch] at h
      cases h
    | some res =>
      obtain ⟨v, m₁⟩ := res
      rw [hsearch] at h
      obtain ⟨adds, hv⟩ := getUnmappedVAddr_spec t hsearch
      refine ⟨v, m₁, fun hne => absurd hnull hne, adds, ?_⟩
      dsimp only at h
      split_ifs at h with hzero
      · obtain ⟨rfl, rfl⟩ := Prod.mk.inj (Option.some.inj h)
        exact Or.inl ⟨rfl, rfl⟩
      · exact Or.inr ⟨hzero, fun _ => hv, h⟩
  · exact ⟨vaddr, m, fun _ => ⟨rfl, rfl⟩, .refl, Or.inr ⟨hnull, fun hzero => absurd hzero hnull, h⟩⟩

/-- The page trees after `mapPage`: the kernel's tree has grown, and then the tree that the page
belongs to. -/
theorem mapPage_spec (t : PageTrees m live) {vaddr flags pml4 w : ℕ}
    (root : pml4 = PML4_ADDR ∨ pml4 ∈ live) (user : vaddr < 2 ^ 39)
    (h : m.mapPage vaddr 0 flags pml4 = some (w, m')) :
    ∃ v m₁, (vaddr ≠ 0 → v = vaddr ∧ m₁ = m) ∧ PageTrees m₁ live ∧ Grows live PML4_ADDR m m₁ ∧
      PageTrees m' live ∧ Grows live (owner v pml4) m₁ m' ∧
      (w ≠ 0 → w = v ∧ w < 2 ^ 39 ∧ Pos live (owner v pml4) (path v) ∧
        ∃ f, walk m'.child (owner v pml4) (path v) = some f ∧ m'.Managed f) := by
  obtain ⟨v, m₁, hv, adds, ⟨rfl, rfl⟩ | ⟨-, hlow, hat⟩⟩ := mapPage_cases t h
  · exact ⟨v, m', hv, adds.trees (by decide) t, adds.grows (by decide) t, adds.trees (by decide) t,
      Grows.refl, fun hw => absurd rfl hw⟩
  · have t₁ := adds.trees (by decide) t
    obtain ⟨t', g', hw⟩ := mapPageAt_spec t₁ root hat
    have hsmall : v < 2 ^ 39 := by
      by_cases hzero : vaddr = 0
      · exact hlow hzero
      · rw [(hv hzero).1]
        exact user
    exact ⟨v, m₁, hv, t₁, adds.grows (by decide) t, t', g',
      fun hne => ⟨(hw hne).1, (hw hne).1 ▸ hsmall, (hw hne).2⟩⟩

end Ops

end Paging
