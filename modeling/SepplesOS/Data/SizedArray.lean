import SepplesOS.Lib.Blocks

/-!
# Arrays with a size

The methods of `SizedArray` (`kernel/lib/sizedArray.h`).  An array owns a block of memory, which it
gets and gives back with the operators `new[]` and `delete` and with `realloc`; these are parameters.
The elements of an array are those of a list, in every run in which no array that has elements is
assigned to itself.
-/

/-- An array: the number of its elements, and the pointer to them. -/
structure SizedArray where
  size : ℕ
  elems : ℕ

/-- The memory that arrays use, with the blocks in it, each with its elements. -/
structure ArrayMemory (M α : Type) where
  heap : M → Blocks (List α)
  store : M → Blocks (List α) → M
  newArray : M → ℕ → Run BlockFault (ℕ × M)
  delete : M → ℕ → Run BlockFault M
  realloc : M → ℕ → ℕ → Run BlockFault (ℕ × M)

namespace ArrayMemory

variable {M α : Type} (mem : ArrayMemory M α)

/-- A `memcpy` of `n` elements. -/
def memcpy (m : M) (dst i src j n : ℕ) : Run BlockFault M :=
  if n = 0 then .done m
  else do
    let s ← (mem.heap m).get src
    let d ← (mem.heap m).get dst
    if j + n ≤ s.length ∧ i + n ≤ d.length then
      .done (mem.store m (Function.update (mem.heap m) dst
        (some (d.take i ++ (s.drop j).take n ++ d.drop (i + n)))))
    else .halted .dangling

/-- `elems[i] = elem`. -/
def put (m : M) (elems i : ℕ) (elem : α) : Run BlockFault M := do
  let d ← (mem.heap m).get elems
  if i < d.length then
    .done (mem.store m (Function.update (mem.heap m) elems (some (d.set i elem))))
  else .halted .dangling

end ArrayMemory

namespace SizedArray

section Code

variable {M α : Type} (mem : ArrayMemory M α)

/-- The default constructor. -/
def construct : SizedArray := ⟨0, 0⟩

/-- The copy constructor. -/
def copyConstruct (m : M) (other : SizedArray) : Run BlockFault (SizedArray × M) :=
  let size := other.size
  if size ≠ 0 then do
    let (elems, m) ← mem.newArray m size
    let m ← mem.memcpy m elems 0 other.elems 0 size
    .done (⟨size, elems⟩, m)
  else .done (⟨size, 0⟩, m)

/-- `operator=`.  When the array is assigned to itself (`same`), `other.elems` is the new pointer once
that has been set. -/
def assign (m : M) (this other : SizedArray) (same : Bool) : Run BlockFault (SizedArray × M) := do
  let size := other.size
  let m ← mem.delete m this.elems
  if size ≠ 0 then do
    let (elems, m) ← mem.newArray m size
    let m ← mem.memcpy m elems 0 (if same then elems else other.elems) 0 size
    .done (⟨size, elems⟩, m)
  else .done (⟨size, 0⟩, m)

/-- The destructor. -/
def destroy (m : M) (this : SizedArray) : Run BlockFault M := mem.delete m this.elems

/-- `empty`. -/
def empty (m : M) (this : SizedArray) : Run BlockFault (SizedArray × M) := do
  let m ← mem.delete m this.elems
  .done (⟨0, 0⟩, m)

/-- `append`. -/
def append (m : M) (this : SizedArray) (elem : α) : Run BlockFault (SizedArray × M) := do
  let size := this.size + 1
  let (elems, m) ← mem.realloc m this.elems size
  let m ← mem.put m elems (size - 1) elem
  .done (⟨size, elems⟩, m)

/-- `removeAt`. -/
def removeAt (m : M) (this : SizedArray) (pos : ℕ) : Run BlockFault (SizedArray × M) := do
  let size := this.size - 1
  let (newElems, m) ← mem.newArray m size
  let m ← mem.memcpy m newElems 0 this.elems 0 pos
  let m ← mem.memcpy m newElems pos this.elems (pos + 1) (size - pos)
  let m ← mem.delete m this.elems
  .done (⟨size, newElems⟩, m)

end Code

/-! ## One method -/

section Methods

variable {M α : Type}

/-- The elements of an array in memory. -/
structure Holds (h : Blocks (List α)) (this : SizedArray) (xs : List α) : Prop where
  size : this.size = xs.length
  null : xs = [] → this.elems = 0
  elems : xs ≠ [] → h this.elems = some xs

/-- An array gets other elements: its old block is given back, its new one was free or is the old one,
and no other block changes. -/
structure Becomes (h h' : Blocks (List α)) (o o' : SizedArray) (xs : List α) : Prop where
  null : h' 0 = none
  holds : Holds h' o' xs
  freed : o.elems ≠ o'.elems → h' o.elems = none
  fresh : o'.elems = o.elems ∨ o'.elems = 0 ∨ h o'.elems = none
  same : ∀ q, q ≠ o.elems → q ≠ o'.elems → h' q = h q

/-- Memory in which what arrays need succeeds or stops, and otherwise does what it should, while `I`
holds. -/
structure Lawful (mem : ArrayMemory M α) (I : M → Prop) : Prop where
  heap_store : ∀ m h, mem.heap (mem.store m h) = h
  keep : ∀ m h, I m → I (mem.store m h)
  newArray : ∀ m n, I m → Run.Sat (mem.newArray m n)
    (fun r => I r.2 ∧ (n = 0 → r.1 = 0 ∧ mem.heap r.2 = mem.heap m) ∧
      (n ≠ 0 → r.1 ≠ 0 ∧ mem.heap m r.1 = none ∧ ∃ junk : List α, junk.length = n ∧
        mem.heap r.2 = Function.update (mem.heap m) r.1 (some junk)))
    (· = .exhausted) False
  delete : ∀ m p, I m → p = 0 ∨ mem.heap m p ≠ none → mem.heap m 0 = none → Run.Sat (mem.delete m p)
    (fun m' => I m' ∧ mem.heap m' = Function.update (mem.heap m) p none) (· = .exhausted) False
  realloc : ∀ m p n, I m → n ≠ 0 → p = 0 ∨ mem.heap m p ≠ none → mem.heap m 0 = none →
    Run.Sat (mem.realloc m p n)
      (fun r => I r.2 ∧ r.1 ≠ 0 ∧ (r.1 = p ∨ mem.heap m r.1 = none) ∧
        ∃ new : List α, new.length = n ∧ (∀ old, mem.heap m p = some old → old.length ≤ n → old <+: new) ∧
          mem.heap r.2 = Function.update (Function.update (mem.heap m) p none) r.1 (some new))
      (· = .exhausted) False

variable {mem : ArrayMemory M α} {I : M → Prop} {m : M} {this other : SizedArray} {h : Blocks (List α)}
  {xs ys : List α} {pos : ℕ} {x : α}

theorem holds_construct : Holds h construct ([] : List α) := ⟨rfl, fun _ => rfl, fun hne => absurd rfl hne⟩

theorem Holds.live (holds : Holds h this xs) : this.elems = 0 ∨ h this.elems ≠ none := by
  by_cases hxs : xs = []
  · exact Or.inl (holds.null hxs)
  · refine Or.inr ?_
    rw [holds.elems hxs]
    exact Option.some_ne_none _

theorem Holds.congr {h' : Blocks (List α)} (holds : Holds h this xs)
    (same : this.elems ≠ 0 → h' this.elems = h this.elems) (null : h 0 = none) : Holds h' this xs where
  size := holds.size
  null := holds.null
  elems := fun hne => by
    rw [same, holds.elems hne]
    intro hzero
    have h := holds.elems hne
    rw [hzero, null] at h
    cases h

theorem memcpy_spec (lawful : Lawful mem I) (inv : I m) {dst i src j n : ℕ} {s d : List α}
    (source : mem.heap m src = some s) (target : mem.heap m dst = some d) (fits : j + n ≤ s.length)
    (room : i + n ≤ d.length) :
    ∃ m', mem.memcpy m dst i src j n = .done m' ∧ I m' ∧ mem.heap m' =
      Function.update (mem.heap m) dst (some (d.take i ++ (s.drop j).take n ++ d.drop (i + n))) := by
  unfold ArrayMemory.memcpy
  by_cases hn : n = 0
  · refine ⟨m, if_pos hn, inv, ?_⟩
    rw [hn]
    simp [← target]
  · rw [if_neg hn, Blocks.get_of_some source, Run.done_bind, Blocks.get_of_some target, Run.done_bind,
      if_pos ⟨fits, room⟩]
    exact ⟨_, rfl, lawful.keep _ _ inv, lawful.heap_store _ _⟩

/-- A new block with the elements of another one. -/
theorem newCopy_spec (lawful : Lawful mem I) (inv : I m)
    (source : mem.heap m other.elems = some xs) (ne : xs ≠ []) :
    Run.Sat (mem.newArray m xs.length >>= fun r =>
        mem.memcpy r.2 r.1 0 other.elems 0 xs.length >>= fun m =>
          .done ((⟨xs.length, r.1⟩ : SizedArray), m))
      (fun r => I r.2 ∧ r.1.size = xs.length ∧ r.1.elems ≠ 0 ∧ mem.heap m r.1.elems = none ∧
        mem.heap r.2 = Function.update (mem.heap m) r.1.elems (some xs))
      (· = .exhausted) False := by
  refine (lawful.newArray m xs.length inv).bind fun r hr => ?_
  obtain ⟨hinv, -, hnew⟩ := hr
  obtain ⟨hp, hfree, junk, hjunk, hheap⟩ := hnew fun hzero => ne (List.length_eq_zero_iff.1 hzero)
  have hne : other.elems ≠ r.1 := by
    intro heq
    rw [heq, hfree] at source
    cases source
  have htarget : mem.heap r.2 r.1 = some junk := by rw [hheap, Function.update_self]
  have hsource : mem.heap r.2 other.elems = some xs := by rw [hheap, Function.update_of_ne hne, source]
  obtain ⟨m', hcopy, hinv', hheap'⟩ := memcpy_spec lawful hinv hsource htarget
    (show 0 + xs.length ≤ xs.length by omega) (show 0 + xs.length ≤ junk.length by omega)
  rw [hcopy]
  refine Run.sat_done ⟨hinv', rfl, hp, hfree, ?_⟩
  have hend : junk.drop (0 + xs.length) = [] := List.drop_eq_nil_of_le (by omega)
  rw [hheap', hheap, Function.update_idem, hend]
  simp

theorem copyConstruct_spec (lawful : Lawful mem I) (inv : I m) (null : mem.heap m 0 = none)
    (holds : Holds (mem.heap m) other xs) :
    Run.Sat (copyConstruct mem m other)
      (fun r => I r.2 ∧ Becomes (mem.heap m) (mem.heap r.2) construct r.1 xs) (· = .exhausted) False := by
  unfold copyConstruct
  dsimp only
  rw [holds.size]
  by_cases hxs : xs = []
  · subst hxs
    rw [List.length_nil, if_neg (not_not.2 rfl)]
    exact Run.sat_done ⟨inv, null, holds_construct, fun hne => absurd rfl hne, Or.inl rfl,
      fun _ _ _ => rfl⟩
  · rw [if_pos fun hzero => hxs (List.length_eq_zero_iff.1 hzero)]
    refine (newCopy_spec lawful inv (holds.elems hxs) hxs).mono (fun r hr => ?_) (fun _ h => h) id
    obtain ⟨hinv, hsize, hp, hfree, hheap⟩ := hr
    refine ⟨hinv, ?_, ⟨hsize, fun hnil => absurd hnil hxs, fun _ => ?_⟩, fun _ => ?_, Or.inr (Or.inr hfree),
      fun q _ hq => ?_⟩
    · rw [hheap, Function.update_of_ne hp.symm, null]
    · rw [hheap, Function.update_self]
    · show mem.heap r.2 0 = none
      rw [hheap, Function.update_of_ne hp.symm, null]
    · rw [hheap, Function.update_of_ne hq]

theorem delete_spec (lawful : Lawful mem I) (inv : I m) (null : mem.heap m 0 = none)
    (holds : Holds (mem.heap m) this xs) : Run.Sat (mem.delete m this.elems)
      (fun m' => I m' ∧ mem.heap m' = Function.update (mem.heap m) this.elems none ∧
        Becomes (mem.heap m) (mem.heap m') this construct []) (· = .exhausted) False := by
  refine (lawful.delete m this.elems inv holds.live null).mono (fun m' hm => ?_) (fun _ h => h) id
  obtain ⟨hinv, hheap⟩ := hm
  refine ⟨hinv, hheap, ?_, holds_construct, fun _ => ?_, Or.inr (Or.inl rfl), fun q hq _ => ?_⟩
  · rw [hheap, Function.update_apply]
    split_ifs
    · rfl
    · exact null
  · rw [hheap, Function.update_self]
  · rw [hheap, Function.update_of_ne hq]

theorem empty_spec (lawful : Lawful mem I) (inv : I m) (null : mem.heap m 0 = none)
    (holds : Holds (mem.heap m) this xs) : Run.Sat (empty mem m this)
      (fun r => I r.2 ∧ Becomes (mem.heap m) (mem.heap r.2) this r.1 []) (· = .exhausted) False :=
  (delete_spec lawful inv null holds).bind fun _ hm => Run.sat_done ⟨hm.1, hm.2.2⟩

theorem assign_spec (lawful : Lawful mem I) (inv : I m) (null : mem.heap m 0 = none) {same : Bool}
    (holds : Holds (mem.heap m) this ys) (holds' : Holds (mem.heap m) other xs)
    (apart : xs = [] ∨ same = false ∧ this.elems ≠ other.elems) :
    Run.Sat (assign mem m this other same)
      (fun r => I r.2 ∧ Becomes (mem.heap m) (mem.heap r.2) this r.1 xs) (· = .exhausted) False := by
  unfold assign
  dsimp only
  rw [holds'.size]
  refine (delete_spec lawful inv null holds).bind fun m₁ hm => ?_
  obtain ⟨hinv, hheap, hbecomes⟩ := hm
  by_cases hxs : xs = []
  · subst hxs
    rw [List.length_nil, if_neg (not_not.2 rfl)]
    exact Run.sat_done ⟨hinv, hbecomes⟩
  · obtain ⟨rfl, hne⟩ := apart.resolve_left hxs
    have hsource : mem.heap m₁ other.elems = some xs := by
      rw [hheap, Function.update_of_ne hne.symm, holds'.elems hxs]
    rw [if_pos fun hzero => hxs (List.length_eq_zero_iff.1 hzero)]
    refine (newCopy_spec lawful hinv hsource hxs).mono (fun r hr => ?_) (fun _ h => h) id
    obtain ⟨hinv', hsize, hp, hfree, hheap'⟩ := hr
    refine ⟨hinv', ?_, ⟨hsize, fun hnil => absurd hnil hxs, fun _ => ?_⟩, fun hold => ?_, ?_,
      fun q hq hq' => ?_⟩
    · rw [hheap', Function.update_of_ne hp.symm, hbecomes.null]
    · rw [hheap', Function.update_self]
    · rw [hheap', Function.update_of_ne hold, hheap, Function.update_self]
    · by_cases hold : r.1.elems = this.elems
      · exact Or.inl hold
      · rw [hheap, Function.update_of_ne hold] at hfree
        exact Or.inr (Or.inr hfree)
    · rw [hheap', Function.update_of_ne hq', hheap, Function.update_of_ne hq]

theorem append_spec (lawful : Lawful mem I) (inv : I m) (null : mem.heap m 0 = none)
    (holds : Holds (mem.heap m) this xs) : Run.Sat (append mem m this x)
      (fun r => I r.2 ∧ Becomes (mem.heap m) (mem.heap r.2) this r.1 (xs ++ [x]))
      (· = .exhausted) False := by
  unfold append
  dsimp only
  rw [holds.size]
  refine (lawful.realloc m this.elems (xs.length + 1) inv (Nat.succ_ne_zero _) holds.live null).bind
    fun r hr => ?_
  obtain ⟨hinv, hp, hplace, new, hlength, hprefix, hheap⟩ := hr
  have hnew : mem.heap r.2 r.1 = some new := by rw [hheap, Function.update_self]
  have hset : new.set xs.length x = xs ++ [x] := by
    have hpre : xs <+: new := by
      by_cases hxs : xs = []
      · rw [hxs]
        exact List.nil_prefix
      · exact hprefix xs (holds.elems hxs) (Nat.le_succ _)
    obtain ⟨rest, rfl⟩ := hpre
    rw [List.length_append] at hlength
    obtain ⟨y, rfl⟩ := List.length_eq_one_iff.1 (show rest.length = 1 by omega)
    rw [List.set_append_right _ _ le_rfl, Nat.sub_self]
    rfl
  unfold ArrayMemory.put
  rw [Blocks.get_of_some hnew, Run.done_bind, if_pos (by omega), Run.done_bind, Nat.add_sub_cancel, hset]
  refine Run.sat_done ⟨lawful.keep _ _ hinv, ?_, ⟨by simp, by simp, fun _ => ?_⟩, fun hold => ?_, ?_,
    fun q hq hq' => ?_⟩
  · rw [lawful.heap_store, Function.update_of_ne hp.symm, hheap, Function.update_of_ne hp.symm,
      Function.update_apply]
    split_ifs
    · rfl
    · exact null
  · rw [lawful.heap_store, Function.update_self]
  · rw [lawful.heap_store, Function.update_of_ne hold, hheap, Function.update_of_ne hold,
      Function.update_self]
  · exact hplace.imp_right Or.inr
  · rw [lawful.heap_store, Function.update_of_ne hq', hheap, Function.update_of_ne hq',
      Function.update_of_ne hq]

theorem removeAt_spec (lawful : Lawful mem I) (inv : I m) (null : mem.heap m 0 = none)
    (holds : Holds (mem.heap m) this xs) (lt : pos < xs.length) : Run.Sat (removeAt mem m this pos)
      (fun r => I r.2 ∧ Becomes (mem.heap m) (mem.heap r.2) this r.1 (xs.eraseIdx pos))
      (· = .exhausted) False := by
  have hxs : xs ≠ [] := by
    rintro rfl
    cases lt
  have hlive := holds.elems hxs
  have hthis : this.elems ≠ 0 := by
    intro hzero
    rw [hzero, null] at hlive
    cases hlive
  have hlength : (xs.eraseIdx pos).length = xs.length - 1 := List.length_eraseIdx_of_lt lt
  unfold removeAt
  dsimp only
  rw [holds.size]
  refine (lawful.newArray m (xs.length - 1) inv).bind fun r hr => ?_
  obtain ⟨hinv, hzero, hnew⟩ := hr
  by_cases hone : xs.length - 1 = 0
  · -- the last element: there is no new block
    obtain ⟨hp, hheap⟩ := hzero hone
    have hnil : xs.eraseIdx pos = [] := List.length_eq_zero_iff.1 (hlength.trans hone)
    have hfront : mem.memcpy r.2 r.1 0 this.elems 0 pos = .done r.2 := if_pos (by omega)
    have hback : mem.memcpy r.2 r.1 pos this.elems (pos + 1) (0 - pos) = .done r.2 := if_pos (by omega)
    rw [hone, hfront, Run.done_bind, hback, Run.done_bind, hnil, hp]
    rw [← hheap] at null holds
    refine (delete_spec lawful hinv null holds).bind fun m' hm => Run.sat_done ?_
    obtain ⟨hinv', -, hbecomes⟩ := hm
    rw [hheap] at hbecomes
    exact ⟨hinv', hbecomes⟩
  · obtain ⟨hp, hfree, junk, hjunk, hheap⟩ := hnew hone
    clear hnew hzero
    have hne : this.elems ≠ r.1 := by
      intro heq
      rw [heq, hfree] at hlive
      cases hlive
    -- the elements before the position, and those behind it
    obtain ⟨m₁, hcopy, hinv₁, hheap₁⟩ := memcpy_spec lawful hinv
      (show mem.heap r.2 this.elems = some xs by rw [hheap, Function.update_of_ne hne, hlive])
      (show mem.heap r.2 r.1 = some junk by rw [hheap, Function.update_self])
      (show 0 + pos ≤ xs.length by omega) (show 0 + pos ≤ junk.length by omega)
    have htarget : mem.heap m₁ r.1 = some (xs.take pos ++ junk.drop pos) := by
      rw [hheap₁, Function.update_self]
      simp
    obtain ⟨m₂, hcopy', hinv₂, hheap₂⟩ := memcpy_spec lawful hinv₁
      (show mem.heap m₁ this.elems = some xs by
        rw [hheap₁, Function.update_of_ne hne, hheap, Function.update_of_ne hne, hlive])
      htarget (show pos + 1 + (xs.length - 1 - pos) ≤ xs.length by omega)
      (show pos + (xs.length - 1 - pos) ≤ (xs.take pos ++ junk.drop pos).length by simp; omega)
    have hdone : mem.heap m₂ = Function.update (mem.heap m) r.1 (some (xs.eraseIdx pos)) := by
      have htake : (xs.take pos ++ junk.drop pos).take pos = xs.take pos :=
        List.take_left' (by rw [List.length_take]; omega)
      have hdrop : (xs.take pos ++ junk.drop pos).drop (pos + (xs.length - 1 - pos)) = [] :=
        List.drop_eq_nil_of_le (by simp; omega)
      have hrest : (xs.drop (pos + 1)).take (xs.length - 1 - pos) = xs.drop (pos + 1) :=
        List.take_of_length_le (by rw [List.length_drop]; omega)
      rw [hheap₂, hheap₁, Function.update_idem, hheap, Function.update_idem, htake, hdrop, hrest,
        List.append_nil, List.eraseIdx_eq_take_drop_succ]
    have hholds : Holds (mem.heap m₂) this xs :=
      holds.congr (fun _ => by rw [hdone, Function.update_of_ne hne]) null
    have hnull : mem.heap m₂ 0 = none := by rw [hdone, Function.update_of_ne hp.symm, null]
    rw [hcopy, Run.done_bind, hcopy', Run.done_bind]
    refine (delete_spec lawful hinv₂ hnull hholds).bind fun m' hm => Run.sat_done ?_
    obtain ⟨hinv', hheap', -⟩ := hm
    refine ⟨hinv', ?_, ⟨hlength.symm, fun hnil => ?_, fun _ => ?_⟩, fun _ => ?_, Or.inr (Or.inr hfree),
      fun q hq hq' => ?_⟩
    · rw [hheap', Function.update_of_ne hthis.symm, hnull]
    · rw [hnil, List.length_nil] at hlength
      exact absurd hlength.symm hone
    · show mem.heap m' r.1 = _
      rw [hheap', Function.update_of_ne hne.symm, hdone, Function.update_self]
    · rw [hheap', Function.update_self]
    · rw [hheap', Function.update_of_ne hq, hdone, Function.update_of_ne hq']

end Methods

/-! ## The kernel's memory -/

/-- What an allocation finds: an address, and what is there. -/
structure New (α : Type) where
  addr : ℕ
  data : ℕ → α

section Plain

variable {α : Type}

/-- `n` elements as an allocation finds them. -/
def New.block (new : New α) (n : ℕ) : List α := (List.range n).map new.data

/-- `new T[n]`, as `malloc` does it: a null pointer for no elements. -/
def newArray (new : New α) (h : Blocks (List α)) (n : ℕ) : Run BlockFault (ℕ × Blocks (List α)) :=
  if n = 0 then .done (0, h)
  else do
    let h ← h.alloc new.addr (new.block n)
    .done (new.addr, h)

/-- `realloc`: the block stays or moves, with its elements. -/
def realloc (new : New α) (h : Blocks (List α)) (p n : ℕ) : Run BlockFault (ℕ × Blocks (List α)) :=
  if p = 0 then newArray new h n
  else do
    let old ← h.get p
    let h ← h.free p
    let h ← h.alloc new.addr (old.take n ++ new.block (n - old.length))
    .done (new.addr, h)

/-- Memory that only arrays use. -/
def plain (new : New α) : ArrayMemory (Blocks (List α)) α where
  heap := id
  store := fun _ h => h
  newArray := newArray new
  delete := Blocks.free
  realloc := realloc new

theorem length_block (new : New α) (n : ℕ) : (new.block n).length = n := by
  unfold New.block
  rw [List.length_map, List.length_range]

theorem alloc_sat (h : Blocks (List α)) (p : ℕ) (xs : List α) : Run.Sat (h.alloc p xs)
    (fun h' => p ≠ 0 ∧ h p = none ∧ h' = Function.update h p (some xs)) (· = .exhausted) False := by
  unfold Blocks.alloc
  split_ifs with hfree
  · exact Run.sat_done ⟨hfree.1, hfree.2, rfl⟩
  · exact Run.sat_halted rfl

theorem newArray_sat (new : New α) (h : Blocks (List α)) (n : ℕ) : Run.Sat (newArray new h n)
    (fun r => (n = 0 → r.1 = 0 ∧ r.2 = h) ∧ (n ≠ 0 → r.1 ≠ 0 ∧ h r.1 = none ∧
      r.2 = Function.update h r.1 (some (new.block n)))) (· = .exhausted) False := by
  unfold newArray
  split_ifs with hn
  · exact Run.sat_done ⟨fun _ => ⟨rfl, rfl⟩, fun hne => absurd hn hne⟩
  · refine (alloc_sat h new.addr (new.block n)).bind fun h' hh => Run.sat_done ?_
    exact ⟨fun hzero => absurd hzero hn, fun _ => hh⟩

theorem free_sat {h : Blocks (List α)} {p : ℕ} (live : p = 0 ∨ h p ≠ none) (null : h 0 = none) :
    Run.Sat (h.free p) (fun h' => h' = Function.update h p none) (· = .exhausted) False := by
  by_cases hp : p = 0
  · rw [hp, Blocks.free_null]
    refine Run.sat_done ?_
    rw [← null, Function.update_eq_self]
  · obtain ⟨xs, hxs⟩ := Option.ne_none_iff_exists'.1 (live.resolve_left hp)
    rw [Blocks.free_of_some hp hxs]
    exact Run.sat_done rfl

theorem realloc_sat (new : New α) {h : Blocks (List α)} {p n : ℕ} (pos : n ≠ 0)
    (live : p = 0 ∨ h p ≠ none) (null : h 0 = none) : Run.Sat (realloc new h p n)
      (fun r => r.1 ≠ 0 ∧ (r.1 = p ∨ h r.1 = none) ∧ ∃ xs : List α, xs.length = n ∧
        (∀ old, h p = some old → old.length ≤ n → old <+: xs) ∧
          r.2 = Function.update (Function.update h p none) r.1 (some xs)) (· = .exhausted) False := by
  unfold realloc
  by_cases hp : p = 0
  · rw [if_pos hp]
    refine (newArray_sat new h n).mono (fun r hr => ?_) (fun _ h => h) id
    obtain ⟨hr, hfree, hheap⟩ := hr.2 pos
    refine ⟨hr, Or.inr hfree, _, length_block new n, fun old hold => ?_, ?_⟩
    · rw [hp, null] at hold
      cases hold
    · rw [hheap, hp, ← null, Function.update_eq_self]
  · obtain ⟨old, hold⟩ := Option.ne_none_iff_exists'.1 (live.resolve_left hp)
    rw [if_neg hp, Blocks.get_of_some hold, Run.done_bind, Blocks.free_of_some hp hold, Run.done_bind]
    refine (alloc_sat _ new.addr _).bind fun h' hh => Run.sat_done ?_
    obtain ⟨hne, hfree, hheap⟩ := hh
    refine ⟨hne, ?_, _, ?_, fun old' hold' hle => ?_, hheap⟩
    · rw [Function.update_apply] at hfree
      split_ifs at hfree with heq
      · exact Or.inl heq
      · exact Or.inr hfree
    · rw [List.length_append, List.length_take, length_block]
      omega
    · obtain rfl := Option.some.inj (hold.symm.trans hold')
      rw [List.take_of_length_le hle]
      exact List.prefix_append _ _

theorem plain_lawful (new : New α) : Lawful (plain new) fun _ => True where
  heap_store := fun _ _ => rfl
  keep := fun _ _ _ => trivial
  newArray := fun h n _ => (newArray_sat new h n).mono (fun _ hr => ⟨trivial, hr.1, fun hn =>
    ⟨(hr.2 hn).1, (hr.2 hn).2.1, _, length_block new n, (hr.2 hn).2.2⟩⟩) (fun _ h => h) id
  delete := fun _ _ _ live null => (free_sat live null).mono (fun _ hh => ⟨trivial, hh⟩) (fun _ h => h) id
  realloc := fun _ _ _ _ pos live null =>
    (realloc_sat new pos live null).mono (fun _ hr => ⟨trivial, hr⟩) (fun _ h => h) id

end Plain

/-! ## Families of arrays -/

/-- Memory, and the arrays that have been constructed and not destroyed. -/
structure Family (ι α : Type) where
  heap : Blocks (List α)
  objects : ι → Option SizedArray

/-- A use of an array. -/
inductive Op (ι α : Type)
  | construct (a : ι)
  | copy (a b : ι)
  | destroy (a : ι)
  | assign (a b : ι)
  | append (a : ι) (elem : α)
  | removeAt (a : ι) (pos : ℕ)
  | empty (a : ι)

section Family

variable {ι α : Type} [DecidableEq ι]

/-- The array `a`. -/
def Family.object (s : Family ι α) (a : ι) : Run BlockFault SizedArray := .ofOption .dangling (s.objects a)

/-- The memory as it is then, and the array `a`. -/
def Family.set (s : Family ι α) (a : ι) (r : SizedArray × Blocks (List α)) : Run BlockFault (Family ι α) :=
  .done ⟨r.2, Function.update s.objects a (some r.1)⟩

/-- The use on the arrays. -/
def Op.call (new : New α) (s : Family ι α) : Op ι α → Run BlockFault (Family ι α)
  | .construct a => s.set a (SizedArray.construct, s.heap)
  | .copy a b => do
    let other ← s.object b
    let r ← copyConstruct (plain new) s.heap other
    s.set a r
  | .destroy a => do
    let this ← s.object a
    let heap ← SizedArray.destroy (plain new) s.heap this
    .done ⟨heap, Function.update s.objects a none⟩
  | .assign a b => do
    let this ← s.object a
    let other ← s.object b
    let r ← SizedArray.assign (plain new) s.heap this other (a = b)
    s.set a r
  | .append a elem => do
    let this ← s.object a
    let r ← SizedArray.append (plain new) s.heap this elem
    s.set a r
  | .removeAt a pos => do
    let this ← s.object a
    let r ← SizedArray.removeAt (plain new) s.heap this pos
    s.set a r
  | .empty a => do
    let this ← s.object a
    let r ← SizedArray.empty (plain new) s.heap this
    s.set a r

/-- The use on lists. -/
def Op.apply (lists : ι → Option (List α)) : Op ι α → ι → Option (List α)
  | .construct a => Function.update lists a (some [])
  | .copy a b => Function.update lists a (lists b)
  | .destroy a => Function.update lists a none
  | .assign a b => Function.update lists a (lists b)
  | .append a elem => Function.update lists a ((lists a).map (· ++ [elem]))
  | .removeAt a pos => Function.update lists a ((lists a).map (·.eraseIdx pos))
  | .empty a => Function.update lists a (some [])

/-- The use is of arrays that there are, and of positions in them. -/
def Op.Fits (lists : ι → Option (List α)) : Op ι α → Prop
  | .construct a => lists a = none
  | .copy a b => lists a = none ∧ lists b ≠ none
  | .destroy a => lists a ≠ none
  | .assign a b => lists a ≠ none ∧ lists b ≠ none
  | .append a _ => lists a ≠ none
  | .removeAt a pos => ∃ xs, lists a = some xs ∧ pos < xs.length
  | .empty a => lists a ≠ none

/-- `static_init` of an array without arguments. -/
def Family.staticInit (new : New α) (s : Family ι α) (a : ι) : Run BlockFault (Family ι α) := do
  let s ← (Op.construct a).call new s
  (Op.assign a a).call new s

/-- No array that has elements is assigned to itself. -/
def Op.Kept (lists : ι → Option (List α)) : Op ι α → Prop
  | .assign a b => a ≠ b ∨ lists a = some []
  | _ => True

/-- The runs from a memory without arrays, whose uses are allowed and whose allocations succeed. -/
inductive Reach (h₀ : Blocks (List α)) (allowed : (ι → Option (List α)) → Op ι α → Prop) :
    Family ι α → (ι → Option (List α)) → Prop
  | start : Reach h₀ allowed ⟨h₀, fun _ => none⟩ fun _ => none
  | step {s s' : Family ι α} {lists : ι → Option (List α)} (op : Op ι α) (new : New α)
      (run : Reach h₀ allowed s lists) (allows : allowed lists op) (result : op.call new s = .done s') :
      Reach h₀ allowed s' (op.apply lists)

/-- The arrays hold the lists, in blocks of their own, and no other block has changed. -/
structure Represents (h₀ : Blocks (List α)) (s : Family ι α) (lists : ι → Option (List α)) : Prop where
  null : s.heap 0 = none
  base : h₀ 0 = none
  absent : ∀ a, s.objects a = none → lists a = none
  holds : ∀ a o, s.objects a = some o → ∃ xs, lists a = some xs ∧ Holds s.heap o xs
  apart : ∀ a b o o', s.objects a = some o → s.objects b = some o' → a ≠ b → o.elems = o'.elems →
    o.elems = 0
  frame : ∀ q, (∀ a o, s.objects a = some o → o.elems ≠ q) → s.heap q = h₀ q
  fresh : ∀ a o, s.objects a = some o → o.elems ≠ 0 → h₀ o.elems = none

section Represents

variable {h₀ h' : Blocks (List α)} {s s' : Family ι α} {lists : ι → Option (List α)} {a b : ι}
  {o o' : SizedArray} {xs : List α} {op : Op ι α} {new : New α}

theorem Represents.add (rep : Represents h₀ s lists) (dead : s.objects a = none) :
    Represents h₀ ⟨s.heap, Function.update s.objects a (some construct)⟩
      (Function.update lists a (some [])) := by
  have hold : ∀ b o, Function.update s.objects a (some construct) b = some o →
      b = a ∧ o = construct ∨ b ≠ a ∧ s.objects b = some o := by
    intro b o hb
    rw [Function.update_apply] at hb
    split_ifs at hb with heq
    · exact Or.inl ⟨heq, (Option.some.inj hb).symm⟩
    · exact Or.inr ⟨heq, hb⟩
  constructor
  case null => exact rep.null
  case base => exact rep.base
  case absent =>
    intro b hb
    dsimp only at hb
    rw [Function.update_apply] at hb ⊢
    split_ifs at hb ⊢ with heq
    exact rep.absent b hb
  case holds =>
    intro b o hb
    rcases hold b o hb with ⟨rfl, rfl⟩ | ⟨hne, hb⟩
    · exact ⟨[], Function.update_self _ _ _, holds_construct⟩
    · rw [Function.update_of_ne hne]
      exact rep.holds b o hb
  case apart =>
    intro b c o o' hb hc hne heq
    rcases hold b o hb with ⟨rfl, rfl⟩ | ⟨-, hb⟩
    · rfl
    · rcases hold c o' hc with ⟨rfl, rfl⟩ | ⟨-, hc⟩
      · exact heq
      · exact rep.apart b c o o' hb hc hne heq
  case frame =>
    intro q hq
    refine rep.frame q fun b o hb => hq b o ?_
    dsimp only
    rw [Function.update_of_ne, hb]
    rintro rfl
    rw [dead] at hb
    cases hb
  case fresh =>
    intro b o hb hne
    rcases hold b o hb with ⟨rfl, rfl⟩ | ⟨-, hb⟩
    · exact absurd rfl hne
    · exact rep.fresh b o hb hne

theorem Represents.drop (rep : Represents h₀ s lists) (empty : s.objects a = some construct) :
    Represents h₀ ⟨s.heap, Function.update s.objects a none⟩ (Function.update lists a none) := by
  have hold : ∀ b o, Function.update s.objects a none b = some o → b ≠ a ∧ s.objects b = some o := by
    intro b o hb
    rw [Function.update_apply] at hb
    split_ifs at hb with heq
    exact ⟨heq, hb⟩
  constructor
  case null => exact rep.null
  case base => exact rep.base
  case absent =>
    intro b hb
    dsimp only at hb
    rw [Function.update_apply] at hb ⊢
    split_ifs at hb ⊢ with heq
    · rfl
    · exact rep.absent b hb
  case holds =>
    intro b o hb
    obtain ⟨hne, hb⟩ := hold b o hb
    rw [Function.update_of_ne hne]
    exact rep.holds b o hb
  case apart =>
    exact fun b c o o' hb hc => rep.apart b c o o' (hold b o hb).2 (hold c o' hc).2
  case frame =>
    intro q hq
    by_cases hzero : q = 0
    · rw [hzero]
      exact rep.null.trans rep.base.symm
    · refine rep.frame q fun b o hb => ?_
      by_cases heq : b = a
      · rw [heq, empty] at hb
        rw [← Option.some.inj hb]
        exact Ne.symm hzero
      · exact hq b o ((Function.update_of_ne heq _ _).trans hb)
  case fresh => exact fun b o hb => rep.fresh b o (hold b o hb).2

/-- An array gets other elements. -/
theorem Represents.replace (rep : Represents h₀ s lists) (old : s.objects a = some o)
    (becomes : Becomes s.heap h' o o' xs) :
    Represents h₀ ⟨h', Function.update s.objects a (some o')⟩ (Function.update lists a (some xs)) := by
  have hold : ∀ b p, Function.update s.objects a (some o') b = some p →
      b = a ∧ p = o' ∨ b ≠ a ∧ s.objects b = some p := by
    intro b p hb
    rw [Function.update_apply] at hb
    split_ifs at hb with heq
    · exact Or.inl ⟨heq, (Option.some.inj hb).symm⟩
    · exact Or.inr ⟨heq, hb⟩
  have hlive : ∀ b p, s.objects b = some p → p.elems = 0 ∨ s.heap p.elems ≠ none := fun b p hb =>
    (rep.holds b p hb).choose_spec.2.live
  -- the new block is nobody else's
  have hother : ∀ b p, b ≠ a → s.objects b = some p → p.elems = o'.elems → p.elems = 0 := by
    intro b p hne hb heq
    rcases becomes.fresh with hsame | hzero | hfree
    · exact rep.apart b a p o hb old hne (heq.trans hsame)
    · exact heq.trans hzero
    · exact (hlive b p hb).resolve_right fun hne => hne (heq ▸ hfree)
  constructor
  case null => exact becomes.null
  case base => exact rep.base
  case absent =>
    intro b hb
    dsimp only at hb
    rw [Function.update_apply] at hb ⊢
    split_ifs at hb ⊢ with heq
    exact rep.absent b hb
  case holds =>
    intro b p hb
    rcases hold b p hb with ⟨rfl, rfl⟩ | ⟨hne, hb⟩
    · exact ⟨xs, Function.update_self _ _ _, becomes.holds⟩
    · rw [Function.update_of_ne hne]
      obtain ⟨ys, hys, hholds⟩ := rep.holds b p hb
      refine ⟨ys, hys, hholds.congr (fun hzero => becomes.same _ (fun heq => ?_) fun heq => ?_) rep.null⟩
      · exact hzero (rep.apart b a p o hb old hne heq)
      · exact hzero (hother b p hne hb heq)
  case apart =>
    intro b c p p' hb hc hne heq
    rcases hold b p hb with ⟨rfl, rfl⟩ | ⟨hba, hb'⟩
    · rcases hold c p' hc with ⟨rfl, rfl⟩ | ⟨hca, hc'⟩
      · exact absurd rfl hne
      · exact heq.trans (hother c p' hca hc' heq.symm)
    · rcases hold c p' hc with ⟨rfl, rfl⟩ | ⟨hca, hc'⟩
      · exact hother b p hba hb' heq
      · exact rep.apart b c p p' hb' hc' hne heq
  case frame =>
    intro q hq
    have hq' : q ≠ o'.elems := fun heq => hq a o' (Function.update_self _ _ _) heq.symm
    show h' q = h₀ q
    by_cases heq : q = o.elems
    · rw [heq, becomes.freed (heq ▸ hq')]
      by_cases hzero : o.elems = 0
      · rw [hzero, rep.base]
      · exact (rep.fresh a o old hzero).symm
    · rw [becomes.same q heq hq']
      refine rep.frame q fun b p hb => ?_
      by_cases hba : b = a
      · rw [hba, old] at hb
        rw [← Option.some.inj hb]
        exact Ne.symm heq
      · exact hq b p ((Function.update_of_ne hba _ _).trans hb)
  case fresh =>
    intro b p hb hne
    rcases hold b p hb with ⟨rfl, rfl⟩ | ⟨-, hb⟩
    · rcases becomes.fresh with hsame | hzero | hfree
      · rw [hsame] at hne ⊢
        exact rep.fresh b o old hne
      · exact absurd hzero hne
      · rw [← rep.frame p.elems fun c r hc heq => ?_, hfree]
        exact (hlive c r hc).elim (fun hzero => hne (heq ▸ hzero)) fun hlive => hlive (heq ▸ hfree)
    · exact rep.fresh b p hb hne

omit [DecidableEq ι] in
theorem Represents.object (rep : Represents h₀ s lists) (there : lists a ≠ none) :
    ∃ o xs, s.object a = .done o ∧ s.objects a = some o ∧ lists a = some xs ∧ Holds s.heap o xs := by
  cases ho : s.objects a with
  | none => exact absurd (rep.absent a ho) there
  | some o =>
    obtain ⟨xs, hxs, holds⟩ := rep.holds a o ho
    refine ⟨o, xs, ?_, rfl, hxs, holds⟩
    unfold Family.object
    rw [ho]
    rfl

omit [DecidableEq ι] in
theorem Represents.dead (rep : Represents h₀ s lists) (gone : lists a = none) : s.objects a = none := by
  cases ho : s.objects a with
  | none => rfl
  | some o =>
    obtain ⟨xs, hxs, -⟩ := rep.holds a o ho
    rw [gone] at hxs
    cases hxs

omit [DecidableEq ι] in
theorem Represents.blocks (rep : Represents h₀ s lists) (hb : s.objects b = some o')
    (ha : s.objects a = some o) (holds : Holds s.heap o' xs) (ne : a ≠ b) (nonempty : xs ≠ []) :
    o.elems ≠ o'.elems := by
  intro heq
  have hzero := rep.apart b a o' o hb ha ne.symm heq.symm
  have hsome := holds.elems nonempty
  rw [hzero, rep.null] at hsome
  cases hsome

theorem Represents.set_sat (rep : Represents h₀ s lists) (old : s.objects a = some o)
    {x : Run BlockFault (SizedArray × Blocks (List α))}
    (sat : Run.Sat x (fun r => True ∧ Becomes s.heap r.2 o r.1 xs) (· = .exhausted) False) :
    Run.Sat (x >>= fun r => s.set a r) (fun s' => Represents h₀ s' (Function.update lists a (some xs)))
      (· = .exhausted) False :=
  sat.bind fun _ hr => Run.sat_done (rep.replace old hr.2)

/-- A use does on the arrays what it does on the lists. -/
theorem Represents.call_spec (rep : Represents h₀ s lists) (new : New α) (fits : op.Fits lists)
    (kept : op.Kept lists) :
    Run.Sat (op.call new s) (fun s' => Represents h₀ s' (op.apply lists)) (· = .exhausted) False := by
  have hlawful := plain_lawful new
  cases op with
  | construct a => exact Run.sat_done (rep.add (rep.dead fits))
  | copy a b =>
    obtain ⟨hnone, hb⟩ := fits
    obtain ⟨other, xs, hget, -, hlist, hholds⟩ := rep.object hb
    have hadd := rep.add (rep.dead hnone)
    simp only [Op.call, Op.apply, hget, Run.done_bind, hlist]
    refine (copyConstruct_spec hlawful trivial rep.null hholds).bind fun r hr => Run.sat_done ?_
    have h := hadd.replace (Function.update_self _ _ _) hr.2
    dsimp only at h
    rwa [Function.update_idem, Function.update_idem] at h
  | destroy a =>
    obtain ⟨this, xs, hget, hobject, -, hholds⟩ := rep.object fits
    simp only [Op.call, Op.apply, SizedArray.destroy, hget, Run.done_bind]
    refine (delete_spec hlawful trivial rep.null hholds).bind fun m hm => Run.sat_done ?_
    have h := (rep.replace hobject hm.2.2).drop (Function.update_self _ _ _)
    dsimp only at h
    rwa [Function.update_idem, Function.update_idem] at h
  | assign a b =>
    obtain ⟨this, ys, hget, hobject, hlist, hholds⟩ := rep.object fits.1
    obtain ⟨other, xs, hget', hobject', hlist', hholds'⟩ := rep.object fits.2
    simp only [Op.call, Op.apply, hget, Run.done_bind, hget', Run.done_bind, hlist']
    refine rep.set_sat hobject (assign_spec hlawful trivial rep.null hholds hholds' ?_)
    by_cases hxs : xs = []
    · exact Or.inl hxs
    · have hab : a ≠ b := by
        rintro rfl
        rcases kept with hne | hempty
        · exact hne rfl
        · exact hxs (Option.some.inj (hlist'.symm.trans hempty))
      exact Or.inr ⟨decide_eq_false hab, rep.blocks hobject' hobject hholds' hab hxs⟩
  | append a elem =>
    obtain ⟨this, xs, hget, hobject, hlist, hholds⟩ := rep.object fits
    simp only [Op.call, Op.apply, hget, Run.done_bind, hlist]
    exact rep.set_sat hobject (append_spec hlawful trivial rep.null hholds)
  | removeAt a pos =>
    obtain ⟨zs, hzs, hpos⟩ := fits
    obtain ⟨this, xs, hget, hobject, hlist, hholds⟩ := rep.object (hzs ▸ Option.some_ne_none zs)
    obtain rfl := Option.some.inj (hzs.symm.trans hlist)
    simp only [Op.call, Op.apply, hget, Run.done_bind, hlist]
    exact rep.set_sat hobject (removeAt_spec hlawful trivial rep.null hholds hpos)
  | empty a =>
    obtain ⟨this, xs, hget, hobject, -, hholds⟩ := rep.object fits
    simp only [Op.call, Op.apply, hget, Run.done_bind]
    exact rep.set_sat hobject (empty_spec hlawful trivial rep.null hholds)

theorem Represents.staticInit_spec (rep : Represents h₀ s lists) (gone : lists a = none) :
    Run.Sat (s.staticInit new a) (fun s' => Represents h₀ s' (Function.update lists a (some [])))
      (· = .exhausted) False := by
  have hself : Function.update lists a (some []) a = some [] := Function.update_self _ _ _
  have hlive : Function.update lists a (some []) a ≠ none := by simp
  refine (rep.call_spec new (show (Op.construct a).Fits lists from gone) trivial).bind fun s₁ hs => ?_
  have hcall := hs.call_spec new (show (Op.assign a a).Fits _ from ⟨hlive, hlive⟩) (Or.inr hself)
  refine hcall.mono (fun s₂ hs' => ?_) (fun _ h => h) id
  simpa [Op.apply] using hs'

/-- In every run in which no array that has elements is assigned to itself, each array has the elements of
its list, each of its own, and the next use ends, with the arrays again as the lists, unless no memory
can be had. -/
theorem sizedArray_refines (null : h₀ 0 = none)
    (run : Reach h₀ (fun lists op => op.Fits lists ∧ op.Kept lists) s lists) :
    Represents h₀ s lists ∧ ∀ (op : Op ι α) (new : New α), op.Fits lists → op.Kept lists →
      Run.Sat (op.call new s) (fun s' => Represents h₀ s' (op.apply lists)) (· = .exhausted) False := by
  have hrep : Represents h₀ s lists := by
    induction run with
    | start =>
      constructor
      case null => exact null
      case base => exact null
      case absent => exact fun _ _ => rfl
      case frame => exact fun _ _ => rfl
      case holds => nofun
      case apart => nofun
      case fresh => nofun
    | step op new _ allows result ih => exact (ih.call_spec new allows.1 allows.2).of_done result
  exact ⟨hrep, fun op new fits kept => hrep.call_spec new fits kept⟩

end Represents

end Family

/-- An array is constructed and gets an element, and a copy of it is made. -/
theorem sizedArray_refines_copy : ∃ (s : Family ℕ ℕ) (lists : ℕ → Option (List ℕ)),
    lists 0 = some [5] ∧ lists 1 = some [5] ∧ Represents (fun _ => none) s lists := by
  let allowed := fun (lists : ℕ → Option (List ℕ)) (op : Op ℕ ℕ) => op.Fits lists ∧ op.Kept lists
  have h₁ : Reach (fun _ => none) allowed _ _ :=
    .step (.construct 0) ⟨1, fun _ => 0⟩ .start ⟨rfl, trivial⟩ rfl
  have h₂ : Reach (fun _ => none) allowed _ _ :=
    .step (.append 0 5) ⟨1, fun _ => 0⟩ h₁ ⟨Option.some_ne_none [], trivial⟩ rfl
  have h₃ : Reach (fun _ => none) allowed _ _ :=
    .step (.copy 1 0) ⟨2, fun _ => 0⟩ h₂ ⟨⟨rfl, Option.some_ne_none [5]⟩, trivial⟩ rfl
  exact ⟨_, _, rfl, rfl, (sizedArray_refines rfl h₃).1⟩

/-- An array that is assigned to itself gets whatever is in its new block. -/
theorem assign_self_loses : ∃ (s : Family ℕ ℕ) (lists : ℕ → Option (List ℕ)) (o : SizedArray),
    Reach (fun _ => none) Op.Fits s lists ∧ lists 0 = some [5] ∧ s.objects 0 = some o ∧ o.size = 1 ∧
      s.heap o.elems = some [0] := by
  have h₁ : Reach (fun _ => none) Op.Fits _ _ := .step (.construct 0) ⟨1, fun _ => 0⟩ .start rfl rfl
  have h₂ : Reach (fun _ => none) Op.Fits _ _ :=
    .step (.append 0 5) ⟨1, fun _ => 0⟩ h₁ (Option.some_ne_none []) rfl
  have h₃ : Reach (fun _ => none) Op.Fits _ _ := .step (.assign 0 0) ⟨1, fun _ => 0⟩ h₂
    ⟨Option.some_ne_none [5], Option.some_ne_none [5]⟩ rfl
  exact ⟨_, _, _, h₃, rfl, rfl, rfl, rfl⟩

end SizedArray
