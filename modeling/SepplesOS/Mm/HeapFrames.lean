import SepplesOS.Mm.AllocRun
import SepplesOS.Mm.KernelDirectory

/-!
# The frames behind the heap

The heap is modelled on pages that never run out of frames.  Its calls on the page tables in memory
have the same results as long as frames are left; so every byte of a live block has a frame of its own
in physical memory.
-/

namespace KernelPages

open Lockstep

/-! ## Pages with enough frames -/

/-- The same pages, with frames that never run out. -/
def unbounded (pages : KernelPages) : KernelPages := { pages with frames := none }

section Unbounded

variable {pages pages' u : KernelPages} {a vaddr n : ℕ}

theorem takeFrame_unbounded (pages : KernelPages) :
    pages.unbounded.takeFrame = some pages.unbounded := takeFrame_of_none rfl

theorem takeFrame_of_some (h : pages.takeFrame = some pages') :
    pages'.unbounded = pages.unbounded := by
  unfold takeFrame at h
  split at h
  · cases h
    rfl
  · cases h
  · cases h
    rfl

theorem takeFrame_of_frames (frames : pages.frames = some (n + 1)) :
    pages.takeFrame = some { pages with frames := some n } := by
  unfold takeFrame
  rw [frames]

theorem newDir_unbounded {dir : ℕ} (h : pages.newDir dir = some pages') :
    pages.unbounded.newDir dir = some pages'.unbounded := by
  unfold newDir at h ⊢
  by_cases hdir : pages.dirs dir = true
  · rw [if_pos hdir] at h
    cases h
    exact if_pos hdir
  · rw [if_neg hdir] at h
    obtain ⟨pages₁, htake, rfl⟩ := Option.map_eq_some_iff.1 h
    rw [takeFrame_unbounded, if_neg (show ¬pages.unbounded.dirs dir = true from hdir),
      ← takeFrame_of_some htake]
    rfl

theorem newTable_unbounded {table : ℕ} (h : pages.newTable table = some pages') :
    pages.unbounded.newTable table = some pages'.unbounded := by
  unfold newTable at h ⊢
  by_cases htable : pages.tables table = true
  · rw [if_pos htable] at h
    cases h
    exact if_pos htable
  · rw [if_neg htable] at h
    obtain ⟨pages₁, htake, rfl⟩ := Option.map_eq_some_iff.1 h
    rw [takeFrame_unbounded, if_neg (show ¬pages.unbounded.tables table = true from htable),
      ← takeFrame_of_some htake]
    rfl

theorem firstUnmapped_unbounded (pages : KernelPages) (n page : ℕ) :
    pages.unbounded.firstUnmapped n page = pages.firstUnmapped n page := by
  induction n generalizing page with
  | zero => rfl
  | succ n ih =>
    rw [firstUnmapped, firstUnmapped, ih]
    rfl

theorem scanTables_unbounded {k table : ℕ} (h : scanTables pages k table = some (a, pages')) :
    scanTables pages.unbounded k table = some (a, pages'.unbounded) := by
  induction k generalizing pages table with
  | zero => cases h
  | succ k ih =>
    rw [scanTables] at h ⊢
    by_cases hdir : pages.dirs (table / 512) = true
    · rw [if_pos hdir] at h
      rw [if_pos (show pages.unbounded.dirs (table / 512) = true from hdir)]
      cases hnew : pages.newTable table with
      | none =>
        rw [hnew] at h
        cases h
      | some pages₁ =>
        rw [hnew] at h
        rw [newTable_unbounded hnew]
        dsimp only at h ⊢
        rw [firstUnmapped_unbounded]
        cases hfound : pages₁.firstUnmapped (512 - startIndex table)
            (512 * table + startIndex table) with
        | some page =>
          rw [hfound] at h
          cases h
          rfl
        | none =>
          rw [hfound] at h
          exact ih h
    · rw [if_neg hdir] at h
      cases h

theorem mapPageAt_unbounded {who : Owner} (pos : vaddr ≠ 0)
    (h : pages.mapPageAt who vaddr = some (a, pages'))
    (hu : pages.unbounded.mapPageAt who vaddr = some (a, u)) : u = pages'.unbounded := by
  unfold mapPageAt at h hu
  dsimp only at h hu
  split_ifs at h hu with hend
  cases hdir : pages.newDir (pageAt vaddr / 2 ^ 18) with
  | none =>
    rw [hdir] at h
    cases h
  | some pages₁ =>
    rw [hdir] at h
    rw [newDir_unbounded hdir] at hu
    dsimp only at h hu
    cases htable : pages₁.newTable (pageAt vaddr / 512) with
    | none =>
      rw [htable] at h
      cases h
    | some pages₂ =>
      rw [htable] at h
      rw [newTable_unbounded htable] at hu
      dsimp only at h hu
      rw [takeFrame_unbounded] at hu
      by_cases howner : pages₂.owner (pageAt vaddr) ≠ none
      · rw [if_pos howner] at h
        rw [if_pos (show pages₂.unbounded.owner (pageAt vaddr) ≠ none from howner)] at hu
        cases h
        cases hu
        rfl
      · rw [if_neg howner] at h
        rw [if_neg (show ¬pages₂.unbounded.owner (pageAt vaddr) ≠ none from howner)] at hu
        obtain ⟨rfl, rfl⟩ := Prod.mk.inj (Option.some.inj hu)
        cases htake : pages₂.takeFrame with
        | none =>
          -- no frame is left, and the results differ
          rw [htake] at h
          exact absurd (congrArg Prod.fst (Option.some.inj h)).symm pos
        | some pages₃ =>
          rw [htake] at h
          obtain ⟨-, rfl⟩ := Prod.mk.inj (Option.some.inj h)
          rw [← takeFrame_of_some htake]
          rfl

/-- Calls with the same result do the same, whether frames can run out or not. -/
theorem call_unbounded {c : PageCall} (h : call c pages = some (a, pages'))
    (hu : call c pages.unbounded = some (a, u)) : u = pages'.unbounded := by
  cases c with
  | search =>
    have hscan := scanTables_unbounded h
    obtain ⟨-, rfl⟩ := Prod.mk.inj (Option.some.inj (hu.symm.trans hscan))
    rfl
  | map who vaddr =>
    unfold call mapPage at h hu
    dsimp only at h hu
    by_cases hnull : vaddr = 0
    · rw [if_pos hnull] at h hu
      cases hsearch : pages.getUnmappedVAddr with
      | none =>
        rw [hsearch] at h
        cases h
      | some r =>
        rw [hsearch] at h
        have hscan : pages.unbounded.getUnmappedVAddr = some (r.1, r.2.unbounded) :=
          scanTables_unbounded hsearch
        rw [hscan] at hu
        dsimp only at h hu
        split_ifs at h hu with hzero
        · obtain ⟨-, rfl⟩ := Prod.mk.inj (Option.some.inj h)
          obtain ⟨-, rfl⟩ := Prod.mk.inj (Option.some.inj hu)
          rfl
        · exact mapPageAt_unbounded hzero h hu
    · rw [if_neg hnull] at h hu
      exact mapPageAt_unbounded hnull h hu
  | unmap vaddr =>
    obtain ⟨-, rfl⟩ := Prod.mk.inj (Option.some.inj h)
    obtain ⟨-, rfl⟩ := Prod.mk.inj (Option.some.inj hu)
    unfold unmapPage
    by_cases howner : pages.owner (pageAt vaddr) = none
    · rw [if_pos howner, if_pos (show pages.unbounded.owner (pageAt vaddr) = none from howner)]
    · rw [if_neg howner, if_neg (show ¬pages.unbounded.owner (pageAt vaddr) = none from howner)]
      rfl

/-! ## Enough frames -/

theorem newDir_enough (frames : pages.frames = some (n + 1)) (dir : ℕ) :
    ∃ pages' k, pages.newDir dir = some pages' ∧ pages'.frames = some k ∧ n ≤ k := by
  unfold newDir
  split_ifs
  · exact ⟨pages, n + 1, rfl, frames, Nat.le_succ n⟩
  · rw [takeFrame_of_frames frames]
    exact ⟨_, n, rfl, rfl, le_rfl⟩

theorem newTable_enough (frames : pages.frames = some (n + 1)) (table : ℕ) :
    ∃ pages' k, pages.newTable table = some pages' ∧ pages'.frames = some k ∧ n ≤ k := by
  unfold newTable
  split_ifs
  · exact ⟨pages, n + 1, rfl, frames, Nat.le_succ n⟩
  · rw [takeFrame_of_frames frames]
    exact ⟨_, n, rfl, rfl, le_rfl⟩

/-- The search makes one table at most: it ends in a table that is new. -/
theorem scanTables_enough {k table : ℕ} (wf : pages.Wf) (frames : pages.frames = some (n + 1))
    (hu : scanTables pages.unbounded k table = some (a, u)) :
    ∃ pages' j, scanTables pages k table = some (a, pages') ∧ pages'.frames = some j ∧ n ≤ j := by
  suffices h : ∃ r j, scanTables pages k table = some r ∧ r.2.frames = some j ∧ n ≤ j by
    obtain ⟨⟨b, pages'⟩, j, hscan, hj⟩ := h
    obtain ⟨rfl, -⟩ := Prod.mk.inj (Option.some.inj ((scanTables_unbounded hscan).symm.trans hu))
    exact ⟨pages', j, hscan, hj⟩
  induction k generalizing table with
  | zero => cases hu
  | succ k ih =>
    rw [scanTables] at hu ⊢
    by_cases hdir : pages.dirs (table / 512) = true
    · rw [if_pos (show pages.unbounded.dirs (table / 512) = true from hdir)] at hu
      rw [if_pos hdir]
      by_cases htable : pages.tables table = true
      · rw [newTable_of_present (show pages.unbounded.tables table = true from htable)] at hu
        rw [newTable_of_present htable]
        dsimp only at hu ⊢
        rw [firstUnmapped_unbounded] at hu
        cases hfound : pages.firstUnmapped (512 - startIndex table)
            (512 * table + startIndex table) with
        | some page => exact ⟨_, n + 1, rfl, frames, Nat.le_succ n⟩
        | none =>
          rw [hfound] at hu
          exact ih hu
      · obtain ⟨pages₁, j, hnew, hj⟩ := newTable_enough frames table
        have howner := (newTable_same hnew).1.owner
        rw [hnew]
        dsimp only
        cases hfound : pages₁.firstUnmapped (512 - startIndex table)
            (512 * table + startIndex table) with
        | some page => exact ⟨_, j, rfl, hj⟩
        | none =>
          -- no page of a table that is missing is mapped
          have hstart := startIndex_cases table
          have hpages : FREE_PAGES_START / PAGESIZE = 256 := rfl
          have hmapped := firstUnmapped_eq_none.1 hfound (512 * table + startIndex table) le_rfl
            (by omega)
          rw [howner] at hmapped
          have hpresent := wf.table _ hmapped
          rw [show (512 * table + startIndex table) / 512 = table by omega] at hpresent
          exact absurd hpresent htable
    · rw [if_neg (show ¬pages.unbounded.dirs (table / 512) = true from hdir)] at hu
      cases hu

theorem mapPageAt_enough {who : Owner} (frames : pages.frames = some (n + 3))
    (hu : pages.unbounded.mapPageAt who vaddr = some (a, u)) :
    ∃ pages' j, pages.mapPageAt who vaddr = some (a, pages') ∧ pages'.frames = some j ∧ n ≤ j := by
  unfold mapPageAt at hu ⊢
  dsimp only at hu ⊢
  split_ifs at hu ⊢ with hend
  obtain ⟨pages₁, j₁, hdir, hj₁, hle₁⟩ := newDir_enough (n := n + 2) frames (pageAt vaddr / 2 ^ 18)
  obtain ⟨k₁, rfl⟩ : ∃ k, j₁ = k + 1 := ⟨j₁ - 1, by omega⟩
  obtain ⟨pages₂, j₂, htable, hj₂, hle₂⟩ := newTable_enough hj₁ (pageAt vaddr / 512)
  obtain ⟨k₂, rfl⟩ : ∃ k, j₂ = k + 1 := ⟨j₂ - 1, by omega⟩
  rw [newDir_unbounded hdir] at hu
  dsimp only at hu
  rw [newTable_unbounded htable] at hu
  dsimp only at hu
  rw [takeFrame_unbounded] at hu
  rw [hdir]
  dsimp only
  rw [htable]
  dsimp only
  rw [takeFrame_of_frames hj₂]
  by_cases howner : pages₂.owner (pageAt vaddr) ≠ none
  · rw [if_pos (show pages₂.unbounded.owner (pageAt vaddr) ≠ none from howner)] at hu
    obtain ⟨rfl, -⟩ := Prod.mk.inj (Option.some.inj hu)
    rw [if_pos howner]
    exact ⟨pages₂, k₂ + 1, rfl, hj₂, by omega⟩
  · rw [if_neg (show ¬pages₂.unbounded.owner (pageAt vaddr) ≠ none from howner)] at hu
    obtain ⟨rfl, -⟩ := Prod.mk.inj (Option.some.inj hu)
    rw [if_neg howner]
    exact ⟨_, k₂, rfl, rfl, by omega⟩

/-- Four frames are enough for a call. -/
theorem call_enough {c : PageCall} (wf : pages.Wf) (frames : pages.frames = some (n + 4))
    (hu : call c pages.unbounded = some (a, u)) :
    ∃ pages' j, call c pages = some (a, pages') ∧ pages'.frames = some j ∧ n ≤ j := by
  cases c with
  | search =>
    obtain ⟨pages', j, hscan, hj, hle⟩ := scanTables_enough (n := n + 3) wf frames hu
    exact ⟨pages', j, hscan, hj, by omega⟩
  | map who vaddr =>
    unfold call mapPage at hu ⊢
    dsimp only at hu ⊢
    by_cases hnull : vaddr = 0
    · rw [if_pos hnull] at hu ⊢
      cases hsearch : pages.unbounded.getUnmappedVAddr with
      | none =>
        rw [hsearch] at hu
        cases hu
      | some r =>
        obtain ⟨pages₁, j, hscan, hj, hle⟩ := scanTables_enough (n := n + 3) wf frames hsearch
        obtain ⟨k, rfl⟩ : ∃ k, j = k + 3 := ⟨j - 3, by omega⟩
        have hfound : pages.getUnmappedVAddr = some (r.1, pages₁) := hscan
        obtain ⟨-, hr⟩ := Prod.mk.inj (Option.some.inj (hsearch.symm.trans (scanTables_unbounded hscan)))
        rw [hsearch] at hu
        rw [hfound]
        dsimp only at hu ⊢
        split_ifs at hu ⊢ with hzero
        · obtain ⟨rfl, -⟩ := Prod.mk.inj (Option.some.inj hu)
          exact ⟨pages₁, k + 3, rfl, hj, by omega⟩
        · rw [hr] at hu
          obtain ⟨pages', j, hmap, hj', hle'⟩ := mapPageAt_enough hj hu
          exact ⟨pages', j, hmap, hj', by omega⟩
    · rw [if_neg hnull] at hu ⊢
      obtain ⟨pages', j, hmap, hj, hle⟩ := mapPageAt_enough (n := n + 1) frames hu
      exact ⟨pages', j, hmap, hj, by omega⟩
  | unmap vaddr =>
    obtain ⟨rfl, -⟩ := Prod.mk.inj (Option.some.inj hu)
    have hcall : call (.unmap vaddr) pages = some (0, pages.unmapPage vaddr) := rfl
    by_cases howner : pages.owner (pageAt vaddr) = none
    · refine ⟨_, n + 4, hcall, ?_, by omega⟩
      rw [unmapPage, if_pos howner, frames]
    · refine ⟨_, n + 5, hcall, ?_, by omega⟩
      rw [unmapPage, if_neg howner, frames]
      rfl

end Unbounded

/-! ## Runs on the page tables -/

/-- The page tables behind pages whose frames never run out. -/
def Backs (live : Set ℕ) (u : KernelPages) (m : Paging) : Prop :=
  ∃ pages : KernelPages, pages.Abstracts m live ∧ u = pages.unbounded

section Backs

variable {u u' : KernelPages} {m m' : Paging} {live : Set ℕ} {calls : List PageCall}
  {results : List ℕ}

theorem allowed_unbounded {c : PageCall} {pages : KernelPages} :
    Allowed c pages.unbounded ↔ Allowed c pages := by
  cases c <;> exact Iff.rfl

theorem Backs.call (h : Backs live u m) {c : PageCall} {a : ℕ} (allowed : Allowed c u)
    (hu : call c u = some (a, u')) (hm : callPaging c m = some (a, m')) : Backs live u' m' := by
  obtain ⟨pages, habs, rfl⟩ := h
  obtain ⟨pages', hcall, habs'⟩ := (call_agree c habs (allowed_unbounded.1 allowed)).of_right hm
  exact ⟨pages', habs', call_unbounded hcall hu⟩

theorem Backs.run (h : Backs live u m) (allowed : Along Allowed KernelPages.call calls u)
    (hu : run KernelPages.call calls u = some (results, u'))
    (hm : run callPaging calls m = some (results, m')) : Backs live u' m' := by
  induction calls generalizing u m results with
  | nil =>
    cases hu
    cases hm
    exact h
  | cons c calls ih =>
    obtain ⟨a, u₁, as, hcall, hrest, rfl⟩ := run_cons_some hu
    obtain ⟨b, m₁, bs, hcall', hrest', heq⟩ := run_cons_some hm
    obtain ⟨rfl, rfl⟩ := List.cons.inj heq
    exact ih (h.call allowed.1 hcall hcall') (allowed.2 _ _ hcall) hrest hrest'

/-- With four frames for each call the results are the same. -/
theorem Backs.run_enough (h : Backs live u m) (allowed : Along Allowed KernelPages.call calls u)
    (hu : Lockstep.run KernelPages.call calls u = some (results, u'))
    (enough : 4 * calls.length ≤ m.freeFrames.card) :
    ∃ m', Lockstep.run callPaging calls m = some (results, m') := by
  induction calls generalizing u m results with
  | nil =>
    cases hu
    exact ⟨m, rfl⟩
  | cons c calls ih =>
    obtain ⟨a, u₁, as, hcall, hrest, rfl⟩ := run_cons_some hu
    obtain ⟨pages, habs, rfl⟩ := h
    obtain ⟨n, hn⟩ : ∃ n, m.freeFrames.card = n + 4 := by
      rw [List.length_cons] at enough
      exact ⟨m.freeFrames.card - 4, by omega⟩
    have hframes := habs.frames
    rw [hn] at hframes
    obtain ⟨pages₁, j, hcall₁, hj, hle⟩ := call_enough habs.wf hframes hcall
    obtain ⟨m₁, hm₁, habs₁⟩ := (call_agree c habs (allowed_unbounded.1 allowed.1)).of_left hcall₁
    have hback : Backs live u₁ m₁ := ⟨pages₁, habs₁, call_unbounded hcall₁ hcall⟩
    have hcard : m₁.freeFrames.card = j := Option.some.inj (habs₁.frames.symm.trans hj)
    obtain ⟨m', hrun⟩ := ih hback (allowed.2 _ _ hcall) hrest (by
      rw [List.length_cons] at enough
      omega)
    refine ⟨m', ?_⟩
    rw [Lockstep.run, hm₁, Option.bind_some, hrun]
    rfl

end Backs

/-! ## Calls that lead from pages to others -/

/-- Some calls, none of which unmaps a page of the boot code, lead from one state of the pages to the
other. -/
def Traced (pages pages' : KernelPages) : Prop :=
  ∃ calls results, Lockstep.run call calls pages = some (results, pages') ∧
    Along Allowed call calls pages

section Traced

variable {pages pages' pages'' : KernelPages} {a vaddr base n : ℕ}

theorem Traced.refl (pages : KernelPages) : Traced pages pages := ⟨[], [], rfl, trivial⟩

theorem Traced.trans (first : Traced pages pages') (second : Traced pages' pages'') :
    Traced pages pages'' := by
  obtain ⟨calls, results, hrun, hallowed⟩ := first
  obtain ⟨calls', results', hrun', hallowed'⟩ := second
  exact ⟨_, _, run_append hrun hrun', hallowed.append hrun hallowed'⟩

theorem traced_call {c : PageCall} (allowed : Allowed c pages) (h : call c pages = some (a, pages')) :
    Traced pages pages' := by
  refine ⟨[c], [a], ?_, allowed, fun _ _ _ => trivial⟩
  rw [Lockstep.run, h]
  rfl

theorem traced_search (h : pages.getUnmappedVAddr = some (a, pages')) : Traced pages pages' :=
  traced_call (c := .search) trivial h

theorem traced_map {who : Owner} (h : pages.mapPage who vaddr = some (a, pages')) :
    Traced pages pages' :=
  traced_call (c := .map who vaddr) trivial h

theorem traced_unmaps (le : base + n ≤ 2 ^ 36)
    (own : ∀ q, base ≤ q → q < base + n → pages.owner q ≠ some .boot) :
    Traced pages ((List.range n).foldl (fun pages i =>
      pages.unmapPage (base * PAGESIZE + PAGESIZE * i)) pages) := by
  induction n with
  | zero => exact Traced.refl pages
  | succ n ih =>
    have hbefore := @foldl_unmapPage base n (base * PAGESIZE) rfl (by omega) pages
    have htraced := ih (by omega) fun q hle hlt => own q hle (by omega)
    rw [List.range_succ, List.foldl_append]
    generalize (List.range n).foldl (fun pages i =>
      pages.unmapPage (base * PAGESIZE + PAGESIZE * i)) pages = pages₁ at *
    have hplace : base * PAGESIZE + PAGESIZE * n = (base + n) * PAGESIZE := by ring
    refine htraced.trans (traced_call (c := .unmap _) (a := 0) ?_ rfl)
    show pages₁.owner (pageAt (base * PAGESIZE + PAGESIZE * n)) ≠ some .boot
    rw [hplace, pageAt_mul_of_lt (by omega), hbefore.owner, if_neg (by omega)]
    exact own (base + n) (by omega) (by omega)

/-- Pages with frames that never run out, fewer of which are mapped. -/
theorem UnmapsPages.unique {pages₁ pages₂ : KernelPages} (frames : pages.frames = none)
    (first : UnmapsPages pages pages₁ base n) (second : UnmapsPages pages pages₂ base n) :
    pages₁ = pages₂ := by
  have howner : pages₁.owner = pages₂.owner :=
    funext fun q => (first.owner q).trans (second.owner q).symm
  have htables := first.tables.trans second.tables.symm
  have hdirs := first.dirs.trans second.dirs.symm
  have hframes := (first.frames frames).trans (second.frames frames).symm
  cases pages₁
  cases pages₂
  simp only at howner htables hdirs hframes
  rw [howner, htables, hdirs, hframes]

theorem UnmapsPages.traced (unmaps : UnmapsPages pages pages' base n) (frames : pages.frames = none)
    (le : base + n ≤ 2 ^ 36) (own : ∀ q, base ≤ q → q < base + n → pages.owner q ≠ some .boot) :
    Traced pages pages' := by
  rw [unmaps.unique frames (foldl_unmapPage rfl le pages)]
  exact traced_unmaps le own

end Traced

end KernelPages

namespace Malloc

open Tiling KernelPages

section Traced

variable {m m' : Malloc} {B : MinSizes} {pre run rest : List ChunkHeader} {c : ChunkHeader} {x k : ℕ}

theorem reclaim_traced (m : Malloc) (chunk next : ℕ) :
    Run.Sat (m.reclaim chunk next) (fun r => Traced m.pages r.1.pages) (fun _ => True) True := by
  unfold reclaim
  dsimp only
  split_ifs
  · exact Run.sat_halted trivial
  · refine Run.Sat.bind (Run.sat_ofOption (fun _ h => traced_map h) fun _ => trivial) fun r hmap => ?_
    refine Run.Sat.bind (Run.sat_ofOption (fun _ h => traced_search h) fun _ => trivial)
      fun r' hsearch => Run.sat_done (hmap.trans ?_)
    split_ifs at hsearch
    · exact hsearch
    · exact hsearch
  · exact Run.sat_done (Traced.refl _)

theorem search_traced (realsize fuel : ℕ) (m : Malloc) (x : ℕ) (other : Option ℕ) (next : ℕ) :
    Run.Sat (search realsize fuel m x other next) (fun r => Traced m.pages r.1.pages) (fun _ => True)
      True := by
  induction fuel generalizing m x other next with
  | zero => exact Run.sat_running trivial
  | succ fuel ih =>
    rw [search]
    split_ifs
    · exact Run.sat_halted trivial
    · cases m.freeBefore other x with
      | some o => exact ih (m.mergeInto o x) o none next
      | none =>
        refine Run.Sat.bind (reclaim_traced m x next) fun r hreclaim => ?_
        dsimp only
        split_ifs
        · exact Run.sat_done hreclaim
        · exact Run.sat_halted trivial
        · exact (ih _ _ _ _).mono (fun _ h => hreclaim.trans h) (fun _ h => h) fun h => h
    · exact Run.sat_done (Traced.refl _)

theorem wrap_traced (need : ℕ) (g : Growth) :
    Run.Sat (wrap need g) (fun r => Traced g.m.pages r.m.pages) (fun _ => True) True := by
  unfold wrap
  refine Run.Sat.bind (Run.sat_ofOption (fun _ h => traced_search h) fun _ => trivial) fun r hsearch => ?_
  refine Run.Sat.bind (Run.sat_ofOption (fun _ h => traced_map h) fun _ => trivial)
    fun r' hmap => Run.sat_done (hsearch.trans hmap)

theorem grow_traced (need fuel : ℕ) (g : Growth) :
    Run.Sat (grow need fuel g) (fun g' => Traced g.m.pages g'.m.pages) (fun _ => True) True := by
  induction fuel generalizing g with
  | zero => exact Run.sat_running trivial
  | succ fuel ih =>
    rw [grow]
    split_ifs
    · exact Run.sat_done (Traced.refl _)
    · refine Run.Sat.bind (Run.sat_ofOption (fun _ h => traced_map h) fun _ => trivial) fun r hmap => ?_
      dsimp only
      split_ifs
      · refine Run.Sat.bind (wrap_traced need _) fun g' hwrap => ?_
        refine (ih _).mono (fun _ h => hmap.trans (hwrap.trans ?_)) (fun _ h => h) fun h => h
        rwa [(addPage_fields g').1] at h
      · refine (ih _).mono (fun _ h => hmap.trans ?_) (fun _ h => h) fun h => h
        rwa [(addPage_fields _).1] at h

theorem useGrowth_pages (realsize : ℕ) (g : Growth) :
    Run.Sat (useGrowth realsize g) (fun r => r.1.pages = g.m.pages) (fun _ => True) True := by
  unfold useGrowth
  dsimp only
  split_ifs
  · exact Run.sat_halted trivial
  · exact Run.sat_done rfl
  · exact Run.sat_halted trivial
  · exact Run.sat_done rfl

theorem findChunk_traced (m : Malloc) (fuel size : ℕ) :
    Run.Sat (m.findChunk fuel size) (fun r => Traced m.pages r.1.pages) (fun _ => True) True := by
  unfold findChunk findChunkFor
  refine Run.Sat.bind (Run.sat_ofOption (fun _ h => traced_search h) fun _ => trivial) fun r hfirst => ?_
  refine Run.Sat.bind (search_traced (realsizeOf size) fuel _ _ none r.1) fun r' hsearch => ?_
  have hbefore := hfirst.trans hsearch
  obtain ⟨m₁, found⟩ := r'
  cases found with
  | chunk x => exact Run.sat_done hbefore
  | atEnd other =>
    refine Run.Sat.bind (grow_traced (size + HEADER_SIZE) fuel
      (m₁.startGrowth (size + HEADER_SIZE) other)) fun g hgrow => ?_
    refine (useGrowth_pages (realsizeOf size) g).mono (fun r'' hsame => ?_) (fun _ h => h) fun h => h
    rw [hsame]
    exact hbefore.trans hgrow

theorem malloc_traced (m : Malloc) (fuel size : ℕ) :
    Run.Sat (m.malloc fuel size) (fun r => Traced m.pages r.2.pages) (fun _ => True) True := by
  unfold malloc
  split_ifs
  · exact Run.sat_done (Traced.refl _)
  · refine Run.Sat.bind (findChunk_traced m fuel size) fun r hfind => Run.sat_done ?_
    have hpages : (r.1.handOut r.2 (realsizeOf size)).2.pages = r.1.pages := by
      unfold handOut take
      dsimp only
      split_ifs <;> rfl
    rw [hpages]
    exact hfind

theorem Freed.traced (freed : Freed B m m' pre c run rest x k)
    (h : WellFormed B m (pre ++ c :: (run ++ rest)))
    (start : m.firstChunk + span ChunkHeader.size pre = x) (ours : c.notOurs = false)
    (run_free : ∀ d ∈ run, d.used = false) (frames : m.pages.frames = none) :
    Traced m.pages m'.pages := by
  have hpage : PAGESIZE = 4096 := rfl
  have hheader : HEADER_SIZE = 8 := rfl
  have haligned := h.aligned
  have hlast := freed.last
  have hreach := h.tiles.reach
  have hroom := h.tiles.room
  simp only [span_append, span_cons] at hreach
  rw [hpage] at haligned hlast
  refine freed.unmaps.traced frames ?_ fun q hle hlt => ?_
  · rw [hpage, hheader]
    omega
  · rw [hpage, hheader] at hle hlt
    have hrest : rest = [] := by
      by_contra hne
      have := freed.inside hne
      omega
    subst hrest
    have hlow := (freed.lowest rfl).1
    rw [span_nil] at hreach
    have hheap := h.merged_heap (y := q * PAGESIZE) start ours run_free (by rw [hpage]; omega)
      (by rw [hpage]; omega)
    rw [Nat.mul_div_cancel _ (by decide : 0 < PAGESIZE)] at hheap
    rw [hheap]
    simp

end Traced

end Malloc

namespace AllocState

open Malloc Tiling KernelPages

section Traced

variable {s s' : AllocState} {B : MinSizes} {cs : List ChunkHeader} {op : AllocOp} {fuel : ℕ}
  {pages : KernelPages}

/-- What a step does to the pages it does by calls. -/
theorem AllocInv.traced (inv : AllocInv B s cs) (granted : Granted B s op)
    (result : s.step fuel op = some s') : Traced s.m.pages s'.m.pages := by
  cases op with
  | malloc size =>
    obtain ⟨vaddr, m, hmalloc, rfl⟩ := step_malloc result
    exact (malloc_traced s.m fuel size).of_done hmalloc
  | free vaddr =>
    obtain ⟨hlive, m, hfree, rfl⟩ := step_free result
    obtain ⟨x, pre, c, run, rest, k, rfl, rfl, hours, hx, hrun, freed, -⟩ := inv.free hlive granted hfree
    exact freed.traced inv.wellFormed hx hours.2 hrun inv.frames
  | realloc vaddr size =>
    obtain ⟨hlive, newvaddr, m, hrealloc, rfl⟩ := step_realloc result
    obtain ⟨x, z, cs', rfl, hz, -, ⟨hsame, -⟩ | ⟨hmoved, -⟩, -⟩ := inv.realloc hlive granted hrealloc
    · rw [hsame]
      exact Traced.refl _
    · obtain ⟨m₁, c, pre, run, rest, k, ⟨fuel', hmalloc⟩, made, hx, hours, hlt, hrun, freed, -⟩ := hmoved
      have hfirst := (malloc_traced s.m fuel' size).of_done hmalloc
      have hcopied := made.copied hlt.le (x + HEADER_SIZE)
      exact hfirst.trans (freed.traced hcopied hx hours.2 hrun made.frames)
  | store vaddr i byte =>
    obtain ⟨n, -, -, rfl⟩ := step_store result
    exact Traced.refl _
  | mapForeign =>
    obtain ⟨mapped, pages, hmap, rfl⟩ := step_mapForeign result
    exact traced_map hmap
  | unmapForeign page =>
    obtain ⟨hforeign, rfl⟩ := step_unmapForeign result
    refine traced_call (c := .unmap _) (a := 0) ?_ rfl
    have hlow := inv.wellFormed.pages.low page (by rw [hforeign]; simp)
    show s.m.pages.owner (pageAt (page * PAGESIZE)) ≠ some .boot
    rw [pageAt_mul hlow, hforeign]
    simp

theorem Reach.traced (wf : pages.Wf) (frames : pages.frames = none)
    (new : ∀ q, pages.owner q ≠ some .heap) (run : Reach pages (Granted B) s) :
    Traced pages s.m.pages := by
  induction run with
  | @init mem m result =>
    unfold Malloc.init at result
    cases hmap : pages.mapPage .heap 0 with
    | none =>
      rw [hmap] at result
      cases result
    | some r =>
      rw [hmap] at result
      obtain rfl := Option.some.inj result
      exact traced_map hmap
  | step run allows result ih =>
    obtain ⟨cs, inv⟩ := run.inv wf frames new
    exact ih.trans (inv.traced allows result)

end Traced

/-! ## The frames of the blocks -/

/-- Every byte of a live block is mapped to a frame that is marked used, and no two bytes of live blocks
have one physical address. -/
structure Backed (s : AllocState) (m : Paging) : Prop where
  mapped : ∀ vaddr, s.live vaddr ≠ none → ∀ i < payload s.m vaddr, ∃ f,
    TableForest.walk m.child PML4_ADDR (Paging.path (vaddr + i)) = some f ∧ m.Managed f
  apart : ∀ vaddr vaddr' i i' f f', s.live vaddr ≠ none → s.live vaddr' ≠ none →
    i < payload s.m vaddr → i' < payload s.m vaddr' →
    TableForest.walk m.child PML4_ADDR (Paging.path (vaddr + i)) = some f →
    TableForest.walk m.child PML4_ADDR (Paging.path (vaddr' + i')) = some f' →
    f + (vaddr + i) % PAGESIZE = f' + (vaddr' + i') % PAGESIZE → vaddr = vaddr' ∧ i = i'

section Backed

variable {s : AllocState} {cs : List ChunkHeader} {pages : KernelPages} {m : Paging} {live : Set ℕ}

theorem heap_page (habs : pages.Abstracts m live) {y : ℕ}
    (heap : pages.owner (y / PAGESIZE) = some .heap) :
    Paging.path y = Paging.pagePath (y / PAGESIZE) ∧ ∃ f,
      TableForest.walk m.child PML4_ADDR (Paging.path y) = some f ∧ m.Managed f := by
  have hlow := habs.wf.low (y / PAGESIZE) (by rw [heap]; simp)
  have hpage : pageAt y = y / PAGESIZE := by
    unfold END_OF_PAGES at hlow
    exact Nat.mod_eq_of_lt (by omega)
  have hpath := Paging.path_pageAt (hpage ▸ hlow)
  rw [hpage] at hpath
  refine ⟨hpath, ?_⟩
  rw [hpath]
  have hmapped := habs.owner (y / PAGESIZE)
  rw [heap, Option.isSome_some] at hmapped
  obtain ⟨f, hf⟩ := Option.isSome_iff_exists.1 hmapped.symm
  exact ⟨f, hf, (habs.found _ f (by rw [heap]; simp) hf).1⟩

theorem Intact.backed (intact : Intact s cs) (h : Backs live s.m.pages m) : Backed s m := by
  obtain ⟨pages, habs, hpages⟩ := h
  have hheap : ∀ vaddr i, s.live vaddr ≠ none → i < payload s.m vaddr →
      pages.owner ((vaddr + i) / PAGESIZE) = some .heap := by
    intro vaddr i hlive hi
    have hmapped := intact.mapped vaddr hlive (vaddr + i) (by omega) (by omega)
    rw [hpages] at hmapped
    exact hmapped
  refine ⟨fun vaddr hlive i hi => (heap_page habs (hheap vaddr i hlive hi)).2, ?_⟩
  intro vaddr vaddr' i i' f f' hlive hlive' hi hi' hf hf' heq
  obtain ⟨hpath, g, hg, hmanaged⟩ := heap_page habs (hheap vaddr i hlive hi)
  obtain ⟨hpath', g', hg', hmanaged'⟩ := heap_page habs (hheap vaddr' i' hlive' hi')
  obtain rfl := Option.some.inj (hf.symm.trans hg)
  obtain rfl := Option.some.inj (hf'.symm.trans hg')
  have haligned : f % 4096 = 0 := hmanaged.aligned
  have haligned' : f' % 4096 = 0 := hmanaged'.aligned
  have hpage : PAGESIZE = 4096 := rfl
  rw [hpage] at heq
  obtain rfl : f = f' := by omega
  -- one frame has one place
  have hplace : ∀ y, pages.owner (y / PAGESIZE) = some .heap →
      Paging.Pos live PML4_ADDR (Paging.pagePath (y / PAGESIZE)) := by
    intro y hy
    refine Paging.pos_kernel (by simp [Paging.pagePath]) fun hslot => ?_
    rw [Paging.pagePath_inj.1 (hslot.trans Paging.pagePath_seven.symm), habs.slot] at hy
    cases hy
  rw [hpath] at hf
  rw [hpath'] at hf'
  have hsame := (habs.trees.sep _ _ _ _ f (hplace _ (hheap vaddr i hlive hi))
    (hplace _ (hheap vaddr' i' hlive' hi')) hf hf' hmanaged).2
  rw [Paging.pagePath_inj, hpage] at hsame
  have hbyte : vaddr + i = vaddr' + i' := by omega
  by_cases hne : vaddr = vaddr'
  · exact ⟨hne, by omega⟩
  · rcases intact.apart vaddr vaddr' hlive hlive' hne with hapart | hapart
    · omega
    · omega

theorem ofPaging_new (m : Paging) (q : ℕ) : (ofPaging m).owner q ≠ some .heap := by
  unfold ofPaging
  dsimp only
  cases TableForest.walk m.child PML4_ADDR (Paging.pagePath q) with
  | none => simp
  | some f =>
    rw [Option.map_some]
    split_ifs <;> simp

/-- The heap on the page tables.  In every run of the heap whose steps have what they need, from the
pages of any reachable state of the paging functions on, its calls to these functions have the same
results on the page tables in memory as long as four frames are left for each call; and when they do,
every byte of a live block is mapped to a frame, and no two bytes of live blocks have one physical
address. -/
theorem blocks_backed {availableMem : ℕ} {s₀ : PagingState}
    (reach : PagingState.Reachable availableMem s₀)
    (run : Reach (ofPaging s₀.m).unbounded Spares s) :
    ∃ calls results,
      Lockstep.run call calls (ofPaging s₀.m).unbounded = some (results, s.m.pages) ∧
      (4 * calls.length ≤ s₀.m.freeFrames.card →
        ∃ m, Lockstep.run callPaging calls s₀.m = some (results, m)) ∧
      ∀ m, Lockstep.run callPaging calls s₀.m = some (results, m) → Backed s m := by
  have habs := ofPaging_abstracts (PagingState.inv_reachable reach).trees
  have hback : Backs s₀.live (ofPaging s₀.m).unbounded s₀.m := ⟨_, habs, rfl⟩
  have hwf : (ofPaging s₀.m).unbounded.Wf := ⟨habs.wf.low, habs.wf.table, habs.wf.dir⟩
  have hnew := ofPaging_new s₀.m
  obtain ⟨⟨cs, hintact⟩, -⟩ := blocks_intact hwf rfl hnew run
  obtain ⟨calls, results, hcalls, hallowed⟩ :=
    (run.mono fun _ _ => Spares.granted).traced hwf rfl hnew
  refine ⟨calls, results, hcalls, hback.run_enough hallowed hcalls, fun m hm => ?_⟩
  exact hintact.backed (hback.run hallowed hcalls hm)

theorem search_boot_next :
    (PagingState.boot (fun _ => 0) (fun _ => 0) 0x1000000).translate PML4_ADDR 0x102000 = none := by
  decide +kernel

/-- A block of 100 bytes, after `Paging::init`. -/
theorem blocks_backed_boot : ∃ s : AllocState, (∃ vaddr, s.live vaddr = some 100) ∧
    ∃ calls results, Lockstep.run call calls
        (ofPaging (PagingState.boot (fun _ => 0) (fun _ => 0) 0x1000000).m).unbounded =
          some (results, s.m.pages) ∧
      ∀ m, Lockstep.run callPaging calls (PagingState.boot (fun _ => 0) (fun _ => 0) 0x1000000).m =
        some (results, m) → Backed s m := by
  have hsearch := PagingState.search_boot.1
  have hnext := search_boot_next
  have reach : PagingState.Reachable 0x1000000
    (PagingState.boot (fun _ => 0) (fun _ => 0) 0x1000000) := .boot _ _
  generalize PagingState.boot (fun _ => 0) (fun _ => 0) 0x1000000 = s₀ at hsearch hnext reach ⊢
  have habs := ofPaging_abstracts (PagingState.inv_reachable reach).trees
  have hwf : (ofPaging s₀.m).unbounded.Wf := ⟨habs.wf.low, habs.wf.table, habs.wf.dir⟩
  obtain ⟨⟨v, m₁⟩, hfound, rfl : v = 0x101000⟩ := Option.map_eq_some_iff.1 hsearch
  obtain ⟨pages₁, hlook, -⟩ := habs.getUnmappedVAddr.of_right hfound
  obtain ⟨page, first, hpage, hdir, -⟩ := getUnmappedVAddr_some hwf (scanTables_unbounded hlook)
  obtain rfl : page = 0x101 := by
    have hpage' : 0x101000 = page * 4096 := hpage
    omega
  obtain ⟨m, hinit, -, -, hmaps, hwf', -, -, -, htiles⟩ := init_spec (fun _ => 0) hwf rfl first hdir
  have hnone : (ofPaging s₀.m).unbounded.owner 0x102 = none := by
    show Option.map _ (TableForest.walk _ PML4_ADDR (Paging.pagePath 0x102)) = none
    rw [show Paging.pagePath 0x102 = Paging.path 0x102000 from rfl]
    unfold PagingState.translate at hnext
    rw [hnext]
    rfl
  have hsecond : m.pages.First 0x102 := by
    refine ⟨by decide, by decide, ?_, fun q hq hlt => ?_⟩
    · rw [hmaps.owner, Function.update_of_ne (by decide)]
      exact hnone
    · rw [hmaps.owner]
      by_cases heq : q = 0x101
      · rw [heq, Function.update_self]
        exact Option.some_ne_none _
      · rw [Function.update_of_ne heq]
        exact first.least q hq (by omega)
  have inv : AllocInv leftSizes ⟨m, fun _ => none⟩ _ := AllocInv.init hwf rfl (ofPaging_new s₀.m) hinit
  have hwrapped : Wrapped m [⟨PAGESIZE - HEADER_SIZE, MAGIC, false, false⟩] := fun x c page hc hnot => by
    obtain rfl := List.mem_singleton.1 (mem_of_layout hc)
    cases hnot
  have hsafe : MallocSafe leftSizes m [⟨PAGESIZE - HEADER_SIZE, MAGIC, false, false⟩] 100 :=
    ⟨hwrapped.searchSafe hsecond (hmaps.dirs _ hdir), Or.inl ⟨hwrapped, by decide⟩⟩
  obtain ⟨x, m', cs', hmalloc, -⟩ := malloc_spec inv.wellFormed inv.sized inv.frames (by decide)
    (hsafe.served inv.wellFormed inv.frames)
    (Nat.lt_succ_self _)
  have run : Reach (ofPaging s₀.m).unbounded Spares _ :=
    .step (.init hinit) (show Spares ⟨m, fun _ => none⟩ (.malloc 100) from
      ⟨by decide, _, inv.wellFormed.tiles, hsafe⟩) (step_of_malloc hmalloc)
  obtain ⟨calls, results, hcalls, -, hbacked⟩ := blocks_backed reach run
  exact ⟨_, ⟨x + HEADER_SIZE, Function.update_self _ _ _⟩, calls, results, hcalls, hbacked⟩

end Backed

end AllocState
