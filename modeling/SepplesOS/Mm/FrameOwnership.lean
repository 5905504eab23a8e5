import SepplesOS.Mm.PageBoot
import SepplesOS.Mm.PageOps

/-!
# Frame ownership

Every run of the paging functions from the boot state keeps the page trees.  So a frame beyond the
bitmap that is in use is marked used and referred to once, no frame is a page of two processes, and
no page table is a data page.
-/

/-- The paging state of the machine: the live directories besides the kernel's, and the kernel pages
that `mapPage` has mapped. -/
structure PagingState where
  m : Paging
  live : Set ℕ
  mapped : Set ℕ

namespace PagingState

open Paging TableForest

/-- A directory that can be given to `mapPage`. -/
def Root (s : PagingState) (r : ℕ) : Prop := r = PML4_ADDR ∨ r ∈ s.live

/-- The state after `Paging::init`. -/
def boot (ram : ℕ → ℕ) (bitmap : ℕ → BitVec 8) (availableMem : ℕ) : PagingState where
  m := init (bootMem ram) bitmap availableMem
  live := ∅
  mapped := ∅

/-- The calls of the paging functions. -/
inductive Op
  | createPageDir
  | destroyPageDir (d : ℕ)
  | mapPage (vaddr flags pml4 : ℕ)
  | getUnmappedVAddr
  | unmapPage (vaddr : ℕ)

/-- One call.  A call that ends in `fatalError` is no step. -/
inductive Step (s : PagingState) : Op → PagingState → Prop
  | createPageDir : Step s .createPageDir ⟨s.m.createPageDir.2,
      {d | d ∈ s.live ∨ d = s.m.createPageDir.1 ∧ d ≠ 0}, s.mapped⟩
  | destroyPageDir (d : ℕ) (live : d ∈ s.live) :
    Step s (.destroyPageDir d) ⟨s.m.destroyPageDir d, s.live \ {d}, s.mapped⟩
  | mapPage (vaddr flags pml4 w : ℕ) (m' : Paging) (root : s.Root pml4) (low : vaddr < 2 ^ 39)
    (result : s.m.mapPage vaddr 0 flags pml4 = some (w, m')) :
    Step s (.mapPage vaddr flags pml4) ⟨m', s.live,
      {v | v ∈ s.mapped ∨ v = pageOf w ∧ w ≠ 0 ∧ owner w pml4 = PML4_ADDR}⟩
  | getUnmappedVAddr (vaddr : ℕ) (m' : Paging)
    (result : s.m.getUnmappedVAddr = some (vaddr, m')) :
    Step s .getUnmappedVAddr ⟨m', s.live, s.mapped⟩
  | unmapPage (vaddr : ℕ) (above : FREE_PAGES_START ≤ vaddr) (kernel : pageOf vaddr ∈ s.mapped) :
    Step s (.unmapPage vaddr) ⟨s.m.unmapPage vaddr, s.live, s.mapped⟩

/-- The states of the runs from the boot state. -/
inductive Reachable (availableMem : ℕ) : PagingState → Prop
  | boot (ram : ℕ → ℕ) (bitmap : ℕ → BitVec 8) : Reachable availableMem (boot ram bitmap availableMem)
  | step {s s' : PagingState} {op : Op} (reach : Reachable availableMem s) (step : s.Step op s') :
    Reachable availableMem s'

/-- A reference to a frame: a directory is live, or an entry is present. -/
inductive Ref
  | pml4 (d : ℕ)
  | entry (table i : ℕ)

/-- The references to a frame, by the live directories and by the entries of the tables in them.  The
entry of the temporary page is left out. -/
inductive Refers (s : PagingState) : Ref → ℕ → Prop
  | pml4 {d : ℕ} (live : d ∈ s.live) : Refers s (.pml4 d) d
  | entry {r table i f : ℕ} {p : List ℕ} (root : s.Root r) (short : p.length ≤ 3)
    (reached : walk s.m.child r p = some table) (slot : table + i * 8 ≠ TMPMAP_PTE)
    (present : s.m.child table i = some f) : Refers s (.entry table i) f

/-- The frame that a virtual address is mapped to. -/
def translate (s : PagingState) (r vaddr : ℕ) : Option ℕ := walk s.m.child r (path vaddr)

/-- What every reachable state satisfies. -/
structure Inv (s : PagingState) : Prop where
  trees : PageTrees s.m s.live
  kernel : ∀ v ∈ s.mapped, ∀ f, walk s.m.child PML4_ADDR (path v) = some f → s.m.Managed f

/-! ## The invariant -/

section Inv

variable {s s' : PagingState}

theorem kernel_place {m : Paging} {live : Set ℕ} {v : ℕ} (t : PageTrees m live)
    (managed : ∀ f, walk m.child PML4_ADDR (path v) = some f → m.Managed f) :
    Pos live PML4_ADDR (path v) := by
  refine pos_kernel le_rfl fun heq => ?_
  have hm := managed PT0_ADDR (by rw [heq]; exact t.walk_slot)
  exact absurd (reserved_le.trans hm.above) (by decide)

theorem kernel_grows {r : ℕ} {m m' : Paging} {live : Set ℕ} {v : ℕ} (t : PageTrees m live)
    (t' : PageTrees m' live) (g : Grows live r m m')
    (managed : ∀ f, walk m.child PML4_ADDR (path v) = some f → m.Managed f) :
    ∀ f, walk m'.child PML4_ADDR (path v) = some f → m'.Managed f := by
  have place := kernel_place t managed
  intro f hf
  have hkeep : walk m.child PML4_ADDR (path v) = some f → m'.Managed f := fun h =>
    (managed f h).mono g.max ((g.used _).2 (Or.inl (managed f h).used))
  by_cases hr : PML4_ADDR = r
  · subst hr
    cases hold : walk m.child PML4_ADDR (path v) with
    | none => exact g.managed t t' place hf hold
    | some c =>
      obtain rfl := Option.some.inj ((g.keep _ _ _ place hold).symm.trans hf)
      exact hkeep hold
  · exact hkeep ((g.others _ _ place hr).symm.trans hf)

theorem inv_start {m : Paging} (t : PageTrees m ∅) : Inv ⟨m, ∅, ∅⟩ :=
  ⟨t, fun v hv => absurd hv (Set.notMem_empty v)⟩

theorem inv_boot (ram : ℕ → ℕ) (bitmap : ℕ → BitVec 8) (availableMem : ℕ) :
    (boot ram bitmap availableMem).Inv := by
  unfold boot
  exact inv_start (init_trees bitmap availableMem ram)

theorem inv_createPageDir (inv : s.Inv) : Inv ⟨s.m.createPageDir.2,
    {d | d ∈ s.live ∨ d = s.m.createPageDir.1 ∧ d ≠ 0}, s.mapped⟩ := by
  rcases createPageDir_spec inv.trees with hfail | ⟨d, f, hd, hne, planted⟩
  · have hlive : {d | d ∈ s.live ∨ d = s.m.createPageDir.1 ∧ d ≠ 0} = s.live := by
      rw [hfail]
      ext d
      simp only [Set.mem_ofPred_eq, or_iff_left_iff_imp, and_imp]
      exact fun h hd => absurd h hd
    rw [hlive, hfail]
    exact ⟨inv.trees, inv.kernel⟩
  · have hlive : {c | c ∈ s.live ∨ c = s.m.createPageDir.1 ∧ c ≠ 0} =
        insert (d * PAGESIZE) s.live := by
      rw [hd]
      ext c
      simp only [Set.mem_ofPred_eq, Set.mem_insert_iff]
      rw [or_comm]
      exact or_congr (and_iff_left_of_imp fun h => h ▸ hne) Iff.rfl
    rw [hlive]
    refine ⟨inv.trees.planted planted, fun v hv f hf => ?_⟩
    rw [inv.trees.walk_planted planted (kernel_place inv.trees (inv.kernel v hv))] at hf
    exact (inv.kernel v hv f hf).mono planted.max
      ((planted.used _).2 (Or.inl (inv.kernel v hv f hf).used))

theorem inv_destroyPageDir (inv : s.Inv) {d : ℕ} (hd : d ∈ s.live) :
    Inv ⟨s.m.destroyPageDir d, s.live \ {d}, s.mapped⟩ := by
  have felled := destroyPageDir_felled inv.trees hd
  generalize s.m.destroyPageDir d = m' at felled
  refine ⟨inv.trees.felled hd felled, fun v hv f hf => ?_⟩
  dsimp only at hf
  rw [child_of_mem felled.mem] at hf
  have hm := inv.kernel v hv f hf
  have hpage : f / PAGESIZE * PAGESIZE = f :=
    Nat.div_mul_cancel (Nat.dvd_of_mod_eq_zero hm.aligned)
  refine hm.mono felled.max ((felled.used _).2 ⟨hm.used, ?_⟩)
  apply inv.trees.belongs_other (kernel_place inv.trees (inv.kernel v hv))
  · rw [hpage]
    exact hf
  · rw [hpage]
    exact hm
  · exact fun heq => inv.trees.apart (heq ▸ hd)

theorem inv_mapPage (inv : s.Inv) {vaddr flags pml4 w : ℕ} {m' : Paging} (root : s.Root pml4)
    (user : vaddr < 2 ^ 39) (result : s.m.mapPage vaddr 0 flags pml4 = some (w, m')) :
    Inv ⟨m', s.live, {v | v ∈ s.mapped ∨ v = pageOf w ∧ w ≠ 0 ∧ owner w pml4 = PML4_ADDR}⟩ := by
  obtain ⟨v, m₁, -, t₁, g₁, t', g', hw⟩ := mapPage_spec inv.trees root user result
  refine ⟨t', ?_⟩
  rintro u (hu | ⟨rfl, hne, howner⟩)
  · exact kernel_grows t₁ t' g' (kernel_grows inv.trees t₁ g₁ (inv.kernel u hu))
  · obtain ⟨rfl, -, -, f, hf, hm⟩ := hw hne
    rw [howner] at hf
    intro c hc
    rw [path_pageOf] at hc
    obtain rfl := Option.some.inj (hf.symm.trans hc)
    exact hm

theorem inv_unmapPage (inv : s.Inv) {vaddr : ℕ} (kernel : pageOf vaddr ∈ s.mapped) :
    Inv ⟨s.m.unmapPage vaddr, s.live, s.mapped⟩ := by
  have managed := inv.kernel _ kernel
  rw [path_pageOf] at managed
  obtain ⟨t', hmax, hkeep, -⟩ := unmapPage_spec inv.trees managed
  refine ⟨t', fun v hv f hf => ?_⟩
  have place := kernel_place inv.trees (inv.kernel v hv)
  have hm := inv.kernel v hv f (hkeep _ _ _ place hf)
  rcases t'.owned _ _ f place hf with h | hb
  · exact h
  · exact absurd (hb.congr hmax.symm) hm.not_boot

theorem inv_step (inv : s.Inv) {op : Op} (step : s.Step op s') : s'.Inv := by
  cases step with
  | createPageDir => exact inv_createPageDir inv
  | destroyPageDir d live => exact inv_destroyPageDir inv live
  | mapPage vaddr flags pml4 w m' root low result => exact inv_mapPage inv root low result
  | getUnmappedVAddr vaddr m' result =>
    obtain ⟨adds, -⟩ := getUnmappedVAddr_spec inv.trees result
    have t' := adds.trees (by decide) inv.trees
    exact ⟨t', fun v hv =>
      kernel_grows inv.trees t' (adds.grows (by decide) inv.trees) (inv.kernel v hv)⟩
  | unmapPage vaddr above kernel => exact inv_unmapPage inv kernel

/-- Every reachable state satisfies the invariant. -/
theorem inv_reachable {availableMem : ℕ} (reach : Reachable availableMem s) : s.Inv := by
  induction reach with
  | boot ram bitmap => exact inv_boot ram bitmap availableMem
  | step _ step ih => exact inv_step ih step

end Inv

/-! ## Ownership -/

section Ownership

variable {s : PagingState}

/-- The root of a path: what lies in page directory 0 is the kernel's. -/
def canon (r : ℕ) (p : List ℕ) : ℕ := if [0, 0] <+: p then PML4_ADDR else r

/-- All directories share what lies in page directory 0. -/
theorem walk_canon (t : PageTrees s.m s.live) {r : ℕ} (root : s.Root r) (p : List ℕ) :
    walk s.m.child (canon r p) p = walk s.m.child r p := by
  unfold canon
  split_ifs with hshared
  · obtain ⟨q, rfl⟩ := hshared
    rw [walk_append, walk_append, t.walk_shared (Or.inl rfl), t.walk_shared root]
  · rfl

theorem frame_place (t : PageTrees s.m s.live) {r f : ℕ} {p : List ℕ} (root : s.Root r)
    (short : p.length ≤ 4) (hwalk : walk s.m.child r p = some f)
    (above : s.m.reservedPages ≤ f / PAGESIZE) :
    Pos s.live (canon r p) p ∧ walk s.m.child (canon r p) p = some f ∧ s.m.Managed f := by
  have hcanon : walk s.m.child (canon r p) p = some f := (walk_canon t root p).trans hwalk
  have place : Pos s.live (canon r p) p := by
    have hslot : p ≠ [0, 0, 0, 7] := by
      rintro rfl
      change walk s.m.child PML4_ADDR [0, 0, 0, 7] = some f at hcanon
      rw [t.walk_slot] at hcanon
      obtain rfl := Option.some.inj hcanon
      exact absurd (reserved_le.trans above) (by decide)
    refine ⟨short, ?_⟩
    unfold canon
    split_ifs with hshared
    · exact Or.inl ⟨rfl, hslot⟩
    · exact root.imp (fun hr => ⟨hr, hslot⟩) fun hr => ⟨hr, hshared⟩
  refine ⟨place, hcanon, ?_⟩
  rcases t.owned _ _ _ place hcanon with hm | ⟨-, hboot | ⟨-, hlow⟩⟩
  · exact hm
  · have := (bootFrame_low hboot).2
    have := reserved_le (m := s.m)
    omega
  · omega

/-- A frame beyond the bitmap is reached in one way, up to the shared page directory. -/
theorem frame_unique (t : PageTrees s.m s.live) {r r' f : ℕ} {p p' : List ℕ} (root : s.Root r)
    (root' : s.Root r') (short : p.length ≤ 4) (short' : p'.length ≤ 4)
    (hwalk : walk s.m.child r p = some f) (hwalk' : walk s.m.child r' p' = some f)
    (above : s.m.reservedPages ≤ f / PAGESIZE) : canon r p = canon r' p' ∧ p = p' := by
  obtain ⟨place, hcanon, hm⟩ := frame_place t root short hwalk above
  obtain ⟨place', hcanon', -⟩ := frame_place t root' short' hwalk' above
  exact t.sep _ _ _ _ _ place place' hcanon hcanon' hm

theorem same_table (t : PageTrees s.m s.live) {r r' i f : ℕ} {q : List ℕ} (root : s.Root r)
    (root' : s.Root r') (hwalk : walk s.m.child r (q ++ [i]) = some f)
    (above : s.m.reservedPages ≤ f / PAGESIZE) (h : canon r (q ++ [i]) = canon r' (q ++ [i])) :
    walk s.m.child r q = walk s.m.child r' q := by
  unfold canon at h
  split_ifs at h with hshared
  · rcases List.prefix_concat_iff.1 hshared with heq | hq
    · -- the frame would be page directory 0
      rw [← heq, t.walk_shared root] at hwalk
      obtain rfl := Option.some.inj hwalk
      exact absurd (reserved_le.trans above) (by decide)
    · have hr := walk_canon t root q
      have hr' := walk_canon t root' q
      unfold canon at hr hr'
      rw [if_pos hq] at hr hr'
      exact hr.symm.trans hr'
  · rw [h]

theorem Refers.entry_walk {table i f : ℕ} (h : s.Refers (.entry table i) f) :
    ∃ r q, s.Root r ∧ walk s.m.child r q = some table ∧ (q ++ [i]).length ≤ 4 ∧
      walk s.m.child r (q ++ [i]) = some f := by
  cases h with
  | @entry r _ _ _ q root short reached slot present =>
    refine ⟨r, q, root, reached, ?_, ?_⟩
    · rw [List.length_append]
      exact Nat.succ_le_succ short
    · rw [walk_concat, reached]
      exact present

/-- Two references to a frame beyond the bitmap are the same. -/
theorem Refers.unique (t : PageTrees s.m s.live) {ref ref' : Ref} {f : ℕ} (h : s.Refers ref f)
    (h' : s.Refers ref' f) (above : s.m.reservedPages ≤ f / PAGESIZE) : ref = ref' := by
  -- a directory is no entry's frame
  have hroot : ∀ {table i}, f ∈ s.live → ¬s.Refers (.entry table i) f := by
    intro table i live h
    obtain ⟨r, q, root, -, short, hwalk⟩ := h.entry_walk
    have hpath := (frame_unique t (Or.inr live) root (Nat.zero_le _) short (walk_nil _ f) hwalk
      above).2
    simp at hpath
  cases ref with
  | pml4 d =>
    obtain ⟨live⟩ := h
    cases ref' with
    | pml4 d' =>
      obtain ⟨-⟩ := h'
      rfl
    | entry table i => exact absurd h' (hroot live)
  | entry table i =>
    cases ref' with
    | pml4 d' =>
      obtain ⟨live⟩ := h'
      exact absurd h (hroot live)
    | entry table' i' =>
      obtain ⟨r, q, root, htable, short, hwalk⟩ := h.entry_walk
      obtain ⟨r', q', root', htable', short', hwalk'⟩ := h'.entry_walk
      obtain ⟨hroots, hpaths⟩ := frame_unique t root root' short short' hwalk hwalk' above
      obtain ⟨rfl, hi⟩ := List.append_inj' hpaths rfl
      obtain rfl := (List.cons.inj hi).1
      rw [same_table t root root' hwalk above hroots] at htable
      rw [Option.some.inj (htable.symm.trans htable')]

theorem Refers.reached {ref : Ref} {f : ℕ} (h : s.Refers ref f) :
    ∃ r p, s.Root r ∧ p.length ≤ 4 ∧ walk s.m.child r p = some f := by
  cases ref with
  | pml4 d =>
    obtain ⟨live⟩ := h
    exact ⟨f, [], Or.inr live, Nat.zero_le _, rfl⟩
  | entry table i =>
    obtain ⟨r, q, root, -, short, hwalk⟩ := h.entry_walk
    exact ⟨r, q ++ [i], root, short, hwalk⟩

/-- What a state says of the frames beyond the bitmap: one that is referred to is marked used and
referred to once; the page of a process is mapped by no other address of it and in no other
directory; and no table is mapped. -/
structure FramesOwned (s : PagingState) : Prop where
  owned : ∀ f, s.m.reservedPages ≤ f / PAGESIZE → (∃ ref, s.Refers ref f) →
    s.m.Used (f / PAGESIZE) ∧ ∃! ref, s.Refers ref f
  isolated : ∀ d ∈ s.live, ∀ v f, USER_OFFSET ≤ v → v < 2 ^ 39 → s.translate d v = some f →
    ∀ r v', s.Root r → v' < 2 ^ 39 → s.translate r v' = some f → r = d ∧ pageOf v' = pageOf v
  tables : ∀ r p table, s.Root r → p.length ≤ 3 → walk s.m.child r p = some table →
    s.m.reservedPages ≤ table / PAGESIZE → ∀ r' v, s.Root r' → s.translate r' v ≠ some table

/-- Frame ownership and isolation in every reachable state. -/
theorem framesOwned_reachable {availableMem : ℕ} (reach : Reachable availableMem s) :
    s.FramesOwned := by
  have t := (inv_reachable reach).trees
  constructor
  case owned =>
    rintro f above ⟨ref, href⟩
    obtain ⟨r, p, root, short, hwalk⟩ := href.reached
    exact ⟨(frame_place t root short hwalk above).2.2.used, ref, href,
      fun ref' href' => href'.unique t href above⟩
  case isolated =>
    intro d hd v f user low hv r v' root low' hv'
    have hown : ¬[0, 0] <+: path v := fun hshared =>
      user_index user low (List.cons_prefix_cons.1 (List.cons_prefix_cons.1 hshared).2).1.symm
    have hcanon : canon d (path v) = d := if_neg hown
    have above := (t.owned_live hd ⟨le_rfl, Or.inr ⟨hd, hown⟩⟩ hv).above
    obtain ⟨hroots, hpaths⟩ :=
      frame_unique t root (Or.inr hd) le_rfl le_rfl hv' hv above
    refine ⟨?_, pageOf_path low' low hpaths⟩
    rw [hpaths, hcanon] at hroots
    unfold canon at hroots
    rw [if_neg hown] at hroots
    exact hroots
  case tables =>
    intro r p table root short hwalk above r' v root' hv
    have hpaths := (frame_unique t root root' (by omega) le_rfl hwalk hv above).2
    rw [hpaths] at short
    exact absurd short (Nat.not_succ_le_self 3)

/-- With 16 megabytes of memory, after the first `createPageDir`. -/
theorem framesOwned_first_directory :
    ∃ s, (boot (fun _ => 0) (fun _ => 0) 0x1000000).Step .createPageDir s ∧ 0x101000 ∈ s.live ∧
      s.FramesOwned := by
  have hdir : (boot (fun _ => 0) (fun _ => 0) 0x1000000).m.createPageDir.1 = 0x101000 := by
    decide +kernel
  have reach : Reachable 0x1000000 (boot (fun _ => 0) (fun _ => 0) 0x1000000) := .boot _ _
  generalize boot (fun _ => 0) (fun _ => 0) 0x1000000 = s₀ at hdir reach ⊢
  exact ⟨_, .createPageDir, Or.inr ⟨hdir.symm, by decide⟩,
    framesOwned_reachable (reach.step .createPageDir)⟩

end Ownership

end PagingState
