import Mathlib

/-!
# Cyclic order on a finite set

The successor of an element in the cyclic order of a finite set: the least element above it or, if
there is none, the least of all.  Going round from an element meets every element exactly once and
ends where it began.
-/

namespace Cyclic

variable {α : Type*} [LinearOrder α] {R : Finset α} {x y : α}

/-- The next element of `R` in cyclic increasing order. -/
def next (R : Finset α) (x : α) : α :=
  if h : (R.filter (x < ·)).Nonempty then (R.filter (x < ·)).min' h
  else if h : R.Nonempty then R.min' h
  else x

/-- `n` elements one after another, from the one behind `x`. -/
def round (R : Finset α) (x : α) (n : ℕ) : List α := (List.range n).map fun k => (next R)^[k + 1] x

theorem next_eq_of_lt (mem : y ∈ R) (above : x < y) (least : ∀ z ∈ R, x < z → y ≤ z) :
    next R x = y := by
  have hmem : y ∈ R.filter (x < ·) := Finset.mem_filter.2 ⟨mem, above⟩
  unfold next
  rw [dif_pos ⟨y, hmem⟩]
  apply le_antisymm
  · exact Finset.min'_le _ _ hmem
  · apply Finset.le_min'
    intro z hz
    exact least z (Finset.mem_filter.1 hz).1 (Finset.mem_filter.1 hz).2

theorem next_eq_of_top (mem : y ∈ R) (top : ∀ z ∈ R, z ≤ x) (least : ∀ z ∈ R, y ≤ z) :
    next R x = y := by
  have hnone : ¬(R.filter (x < ·)).Nonempty := by
    rintro ⟨z, hz⟩
    exact absurd (Finset.mem_filter.1 hz).2 (not_lt.2 (top z (Finset.mem_filter.1 hz).1))
  unfold next
  rw [dif_neg hnone, dif_pos ⟨y, mem⟩]
  apply le_antisymm
  · exact Finset.min'_le _ _ mem
  · exact Finset.le_min' _ _ _ least

/-- What the next element is. -/
theorem next_spec (some : R.Nonempty) :
    next R x ∈ R ∧
      ((x < next R x ∧ ∀ z ∈ R, x < z → next R x ≤ z) ∨
        ((∀ z ∈ R, z ≤ x) ∧ ∀ z ∈ R, next R x ≤ z)) := by
  unfold next
  by_cases h : (R.filter (x < ·)).Nonempty
  · rw [dif_pos h]
    have hmem := Finset.mem_filter.1 (Finset.min'_mem _ h)
    refine ⟨hmem.1, Or.inl ⟨hmem.2, fun z hz hlt => ?_⟩⟩
    exact Finset.min'_le _ _ (Finset.mem_filter.2 ⟨hz, hlt⟩)
  · rw [dif_neg h, dif_pos some]
    refine ⟨Finset.min'_mem _ _, Or.inr ⟨fun z hz => ?_, fun z hz => Finset.min'_le _ _ hz⟩⟩
    exact not_lt.1 fun hlt => h ⟨z, Finset.mem_filter.2 ⟨hz, hlt⟩⟩

theorem next_mem (some : R.Nonempty) : next R x ∈ R := (next_spec some).1

/-- With another element around, the next one is another one. -/
theorem next_ne (some : R.Nonempty) (other : ∃ z ∈ R, z ≠ x) : next R x ≠ x := by
  intro heq
  obtain ⟨z, hz, hne⟩ := other
  rcases (next_spec (x := x) some).2 with ⟨hlt, -⟩ | ⟨htop, hleast⟩
  · exact absurd heq hlt.ne'
  · exact hne (le_antisymm (htop z hz) (heq ▸ hleast z hz))

theorem round_succ (R : Finset α) (x : α) (n : ℕ) :
    round R x (n + 1) = next R x :: round R (next R x) n := by
  simp [round, List.range_succ_eq_map, Function.comp_def]

theorem getLast_round {n : ℕ} (hn : 0 < n) : (round R x n).getLast? = some ((next R)^[n] x) := by
  obtain ⟨m, rfl⟩ : ∃ m, n = m + 1 := ⟨n - 1, by omega⟩
  simp [round, List.range_succ]

/-! ## Positions -/

section Positions

/-- The elements in increasing order, by position. -/
theorem sort_lt {i j : ℕ} (hij : i < j) (hj : j < (R.sort (· ≤ ·)).length) :
    (R.sort (· ≤ ·))[i] < (R.sort (· ≤ ·))[j] :=
  List.pairwise_iff_getElem.1 (Finset.sortedLT_sort R).pairwise i j (hij.trans hj) hj hij

theorem mem_iff_getElem :
    x ∈ R ↔ ∃ (i : ℕ) (hi : i < (R.sort (· ≤ ·)).length), (R.sort (· ≤ ·))[i] = x := by
  rw [← Finset.mem_sort (· ≤ ·), List.mem_iff_getElem]

theorem sort_le {i j : ℕ} (hij : i ≤ j) (hj : j < (R.sort (· ≤ ·)).length) :
    (R.sort (· ≤ ·))[i] ≤ (R.sort (· ≤ ·))[j] := by
  rcases hij.eq_or_lt with rfl | hlt
  · exact le_rfl
  · exact (sort_lt hlt hj).le

/-- The next element stands in the next position, and the first one behind the last. -/
theorem next_getElem {i j : ℕ} (hi : i < (R.sort (· ≤ ·)).length)
    (hj : j < (R.sort (· ≤ ·)).length) (h : j = (i + 1) % (R.sort (· ≤ ·)).length) :
    next R (R.sort (· ≤ ·))[i] = (R.sort (· ≤ ·))[j] := by
  have hmem : (R.sort (· ≤ ·))[j] ∈ R := mem_iff_getElem.2 ⟨j, hj, rfl⟩
  by_cases hlast : i + 1 = (R.sort (· ≤ ·)).length
  · rw [hlast, Nat.mod_self] at h
    subst h
    apply next_eq_of_top hmem
    · intro z hz
      obtain ⟨k, hk, rfl⟩ := mem_iff_getElem.1 hz
      exact sort_le (by omega) hi
    · intro z hz
      obtain ⟨k, hk, rfl⟩ := mem_iff_getElem.1 hz
      exact sort_le (Nat.zero_le k) hk
  · rw [Nat.mod_eq_of_lt (by omega)] at h
    subst h
    apply next_eq_of_lt hmem (sort_lt (Nat.lt_succ_self i) hj)
    intro z hz hlt
    obtain ⟨k, hk, rfl⟩ := mem_iff_getElem.1 hz
    apply sort_le _ hk
    by_contra hle
    exact absurd hlt (not_lt.2 (sort_le (by omega) hi))

/-- `n` steps lead `n` positions on. -/
theorem iterate_getElem {i j n : ℕ} (hi : i < (R.sort (· ≤ ·)).length)
    (hj : j < (R.sort (· ≤ ·)).length) (h : j = (i + n) % (R.sort (· ≤ ·)).length) :
    (next R)^[n] (R.sort (· ≤ ·))[i] = (R.sort (· ≤ ·))[j] := by
  induction n generalizing j with
  | zero =>
    rw [Nat.add_zero, Nat.mod_eq_of_lt hi] at h
    subst h
    rfl
  | succ n ih =>
    have hpos : 0 < (R.sort (· ≤ ·)).length := by omega
    rw [Function.iterate_succ_apply', ih (Nat.mod_lt (i + n) hpos) rfl]
    apply next_getElem
    rw [h, Nat.mod_add_mod, Nat.add_assoc]

/-- Going round lists the elements in order, from the next one. -/
theorem round_getElem {i : ℕ} (hi : i < (R.sort (· ≤ ·)).length) :
    round R (R.sort (· ≤ ·))[i] R.card = (R.sort (· ≤ ·)).rotate (i + 1) := by
  have hlength : (R.sort (· ≤ ·)).length = R.card := Finset.length_sort _
  have hpos : 0 < (R.sort (· ≤ ·)).length := by omega
  apply List.ext_getElem
  · simp [round, hlength]
  · intro k hk hk'
    rw [List.getElem_rotate]
    simp only [round, List.getElem_map, List.getElem_range]
    apply iterate_getElem
    rw [Nat.add_comm k, Nat.add_assoc, Nat.add_comm 1]

end Positions

/-! ## The way round -/

/-- Going round from an element meets every element exactly once and ends where it began. -/
theorem round_spec (mem : x ∈ R) :
    (round R x R.card).Perm (R.sort (· ≤ ·)) ∧ (next R)^[R.card] x = x := by
  obtain ⟨i, hi, rfl⟩ := mem_iff_getElem.1 mem
  refine ⟨?_, ?_⟩
  · rw [round_getElem hi]
    exact List.rotate_perm _ _
  · have hlength : (R.sort (· ≤ ·)).length = R.card := Finset.length_sort _
    apply iterate_getElem hi hi
    rw [hlength, Nat.add_mod_right, ← hlength, Nat.mod_eq_of_lt hi]

end Cyclic
