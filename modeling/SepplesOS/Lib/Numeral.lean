import Mathlib

/-!
# Positional numerals

The digits of a number in a base, the first one first, and the number that a list of digits stands
for.  A number has one list of digits without a leading zero.
-/

namespace Numeral

/-- The number that digits stand for. -/
def value (base : ℕ) (ds : List ℕ) : ℕ := ds.foldl (fun n d => n * base + d) 0

/-- Digits of a number, without a leading zero unless it is the only one. -/
structure Canonical (base n : ℕ) (ds : List ℕ) : Prop where
  ne_nil : ds ≠ []
  lt : ∀ d ∈ ds, d < base
  leading : ds.head? = some 0 → ds = [0]
  value : value base ds = n

/-- The digits of a number. -/
def digits (base n : ℕ) : List ℕ := if n = 0 then [0] else (Nat.digits base n).reverse

section Digits

variable {base n : ℕ} {ds : List ℕ}

theorem value_eq_ofDigits (base : ℕ) (ds : List ℕ) :
    value base ds = Nat.ofDigits base ds.reverse := by
  unfold value
  rw [Nat.ofDigits_eq_foldr, List.foldr_reverse]
  congr 1
  funext n d
  rw [Nat.cast_id, Nat.add_comm, Nat.mul_comm]

theorem digits_of_lt (lt : n < base) : digits base n = [n] := by
  unfold digits
  split_ifs with hzero
  · rw [hzero]
  · rw [Nat.digits_of_lt base n hzero lt]
    rfl

theorem digits_of_le (one_lt : 1 < base) (le : base ≤ n) :
    digits base n = digits base (n / base) ++ [n % base] := by
  have hpos : 0 < n / base := Nat.div_pos le (by omega)
  unfold digits
  rw [if_neg (by omega), if_neg hpos.ne', Nat.digits_def' one_lt (by omega), List.reverse_cons]

theorem canonical_digits (one_lt : 1 < base) (n : ℕ) : Canonical base n (digits base n) := by
  by_cases hzero : n = 0
  · rw [hzero, digits_of_lt (by omega)]
    exact ⟨List.cons_ne_nil _ _, by simp; omega, fun _ => rfl, by simp [value]⟩
  · have hdigits : digits base n = (Nat.digits base n).reverse := if_neg hzero
    have hne : Nat.digits base n ≠ [] := Nat.digits_ne_nil_iff_ne_zero.2 hzero
    rw [hdigits]
    refine ⟨by simpa using hne, fun d hd => ?_, fun hhead => ?_, ?_⟩
    · exact Nat.digits_lt_base one_lt (List.mem_reverse.1 hd)
    · rw [List.head?_reverse, List.getLast?_eq_getLast_of_ne_nil hne] at hhead
      exact absurd (Option.some.inj hhead) (Nat.getLast_digit_ne_zero base hzero)
    · rw [value_eq_ofDigits, List.reverse_reverse, Nat.ofDigits_digits]

/-- A number has one canonical list of digits. -/
theorem canonical_iff (one_lt : 1 < base) : Canonical base n ds ↔ ds = digits base n := by
  constructor
  · intro h
    have hvalue := h.value
    rw [value_eq_ofDigits] at hvalue
    by_cases hzero : ds = [0]
    · subst hzero
      obtain rfl : n = 0 := hvalue.symm
      rfl
    · have hlast : ∀ hne : ds.reverse ≠ [], ds.reverse.getLast hne ≠ 0 := by
        intro hne heq
        apply hzero
        apply h.leading
        rw [← List.getLast?_reverse, List.getLast?_eq_getLast_of_ne_nil hne, heq]
      have hdigits := Nat.digits_ofDigits base one_lt ds.reverse
        (fun d hd => h.lt d (List.mem_reverse.1 hd)) hlast
      rw [hvalue] at hdigits
      unfold digits
      rw [hdigits, List.reverse_reverse, if_neg]
      rintro rfl
      rw [Nat.digits_zero] at hdigits
      exact h.ne_nil (List.reverse_eq_nil_iff.1 hdigits.symm)
  · rintro rfl
    exact canonical_digits one_lt n

end Digits

end Numeral
