import Mathlib

/-!
# Numerals

`itoa` and `utoa` (`kernel/lib/string.cpp`) write the digits of a number from the last one to the
first into a buffer, and then turn them around in place.  A buffer is the list of its bytes, and an
access outside it has no result (`none`).  The number is an integer: the digits of an `i64` are
computed without overflow, and those of a `u64` by a difference of `i64` and `u64`, which is the
remainder.
-/

/-- `buf[i] = c`. -/
def poke (buf : List UInt8) (i : ℕ) (c : UInt8) : Option (List UInt8) :=
  if i < buf.length then some (buf.set i c) else none

/-- A base that is valid. -/
structure Base where
  val : ℤ
  two_le : 2 ≤ val
  le : val ≤ 36

namespace Itoa

/-- The table of digits, those of a negative number before `'0'`. -/
def numerals : List UInt8 :=
  "zyxwvutsrqponmlkjihgfedcba9876543210123456789abcdefghijklmnopqrstuvwxyz".toList.map
    fun c => UInt8.ofNat c.toNat

/-- `numerals[35 + k]`. -/
def numeral (k : ℤ) : UInt8 := numerals.getD (35 + k).toNat 0

theorem natAbs_tdiv_lt (base : Base) {value : ℤ} (ne : value.tdiv base.val ≠ 0) :
    (value.tdiv base.val).natAbs < value.natAbs := by
  have htwo := base.two_le
  rw [Int.natAbs_tdiv]
  apply Nat.div_lt_self
  · apply Int.natAbs_pos.2
    rintro rfl
    exact ne (Int.zero_tdiv _)
  · omega

/-! ## The code -/

/-- The first loop: the buffer, the pointer behind the last digit, and `tmp_value`. -/
def writeDigits (base : Base) (value : ℤ) (buf : List UInt8) (ptr : ℕ) :
    Option (List UInt8 × ℕ × ℤ) :=
  let tmp_value := value
  let value := value.tdiv base.val
  match poke buf ptr (numeral (tmp_value - value * base.val)) with
  | none => none
  | some buf =>
    if value = 0 then some (buf, ptr + 1, tmp_value) else writeDigits base value buf (ptr + 1)
termination_by value.natAbs
decreasing_by exact natAbs_tdiv_lt base ‹_›

/-- The second loop: the bytes from `ptr1` to `ptr` are turned around. -/
def swapEnds (buf : List UInt8) (ptr1 ptr : ℕ) : Option (List UInt8) :=
  if ptr1 < ptr then
    match buf[ptr]?, buf[ptr1]? with
    | some tmp_char, some c =>
      match poke buf ptr c with
      | none => none
      | some buf =>
        match poke buf ptr1 tmp_char with
        | none => none
        | some buf => swapEnds buf (ptr1 + 1) (ptr - 1)
    | _, _ => none
  else some buf
termination_by ptr - ptr1

/-- The end of both functions: the terminator at `ptr`, and the second loop. -/
def finish (buf : List UInt8) (ptr : ℕ) : Option (List UInt8) :=
  match poke buf ptr 0 with
  | none => none
  | some buf => swapEnds buf 0 (ptr - 1)

end Itoa

open Itoa

/-- `itoa`. -/
def itoa (value : ℤ) (result : List UInt8) (base : ℤ) : Option (List UInt8) :=
  if h : base < 2 ∨ base > 36 then poke result 0 0
  else
    match writeDigits ⟨base, by omega, by omega⟩ value result 0 with
    | none => none
    | some (buf, ptr, tmp_value) =>
      if tmp_value < 0 then
        match poke buf ptr 45 with
        | none => none
        | some buf => finish buf (ptr + 1)
      else finish buf ptr

/-- `utoa`. -/
def utoa (value : ℕ) (result : List UInt8) (base : ℤ) : Option (List UInt8) :=
  if h : base < 2 ∨ base > 36 then poke result 0 0
  else
    match writeDigits ⟨base, by omega, by omega⟩ value result 0 with
    | none => none
    | some (buf, ptr, _) => finish buf ptr

namespace Itoa

/-! ## Writing into a buffer -/

section Buffer

variable {pre rest : List UInt8} {c : UInt8}

theorem poke_append : poke (pre ++ rest) pre.length c =
    if rest = [] then none else some (pre ++ [c] ++ rest.tail) := by
  unfold poke
  cases rest with
  | nil => simp
  | cons d rest => simp

theorem poke_at {buf : List UInt8} {i : ℕ} {d : UInt8} (at_i : buf = pre ++ [d] ++ rest)
    (hi : i = pre.length) : poke buf i c = some (pre ++ [c] ++ rest) := by
  rw [at_i, hi, List.append_assoc, poke_append, if_neg (by simp)]
  rfl

theorem getElem?_at {buf : List UInt8} {i : ℕ} {d : UInt8} (at_i : buf = pre ++ [d] ++ rest)
    (hi : i = pre.length) : buf[i]? = some d := by
  rw [at_i, hi, List.append_assoc]
  simp

/-- The second loop turns the middle around. -/
theorem swapEnds_spec (mid : List UInt8) : ∀ pre rest : List UInt8,
    swapEnds (pre ++ mid ++ rest) pre.length (pre.length + mid.length - 1) =
      some (pre ++ mid.reverse ++ rest) := by
  induction mid using List.bidirectionalRec with
  | nil =>
    intro pre rest
    rw [swapEnds, if_neg (by simp)]
    simp
  | singleton a =>
    intro pre rest
    rw [swapEnds, if_neg (by simp)]
    simp
  | cons_append a mid b ih =>
    intro pre rest
    -- the two ends, and then the middle
    have hlt : pre.length < pre.length + (a :: (mid ++ [b])).length - 1 := by simp
    have hend : pre.length + (a :: (mid ++ [b])).length - 1 = (pre ++ [a] ++ mid).length := by
      simp only [List.length_append, List.length_cons, List.length_nil]
      omega
    have hlast : pre ++ a :: (mid ++ [b]) ++ rest = (pre ++ [a] ++ mid) ++ [b] ++ rest := by simp
    have hfirst : pre ++ a :: (mid ++ [b]) ++ rest = pre ++ [a] ++ (mid ++ [b] ++ rest) := by simp
    have hnext : (pre ++ [a] ++ mid) ++ [a] ++ rest = pre ++ [a] ++ (mid ++ [a] ++ rest) := by simp
    rw [swapEnds, if_pos hlt, getElem?_at hlast hend, getElem?_at hfirst rfl]
    dsimp only
    rw [poke_at hlast hend]
    dsimp only
    rw [poke_at hnext rfl]
    have hrest := ih (pre ++ [b]) ([a] ++ rest)
    have hptr : (pre ++ [b]).length + mid.length - 1 =
        pre.length + (a :: (mid ++ [b])).length - 1 - 1 := by
      simp only [List.length_append, List.length_cons, List.length_nil]
      omega
    rw [hptr] at hrest
    simpa using hrest

end Buffer

/-! ## What is written -/

section Written

variable (base : Base)

/-- The digits of a number, the last one first. -/
def digitsOf (value : ℤ) : List UInt8 :=
  numeral (value - value.tdiv base.val * base.val) ::
    if value.tdiv base.val = 0 then [] else digitsOf (value.tdiv base.val)
termination_by value.natAbs
decreasing_by exact natAbs_tdiv_lt base ‹_›

/-- The number that is left before the last round. -/
def leading (value : ℤ) : ℤ :=
  if value.tdiv base.val = 0 then value else leading (value.tdiv base.val)
termination_by value.natAbs
decreasing_by exact natAbs_tdiv_lt base ‹_›

/-- The text of a number: a sign for a negative one, and the digits, the first one first. -/
def numeralOf (value : ℤ) : List UInt8 :=
  (if value < 0 then [45] else []) ++ (digitsOf base value).reverse

/-- An induction on the rounds of the first loop. -/
theorem round_induction {P : ℤ → Prop}
    (step : ∀ value, (value.tdiv base.val ≠ 0 → P (value.tdiv base.val)) → P value) (value : ℤ) :
    P value := by
  induction h : value.natAbs using Nat.strong_induction_on generalizing value with
  | _ n ih =>
    apply step
    intro hne
    exact ih _ (h ▸ natAbs_tdiv_lt base hne) _ rfl

variable {base} {value : ℤ}

theorem tdiv_neg_iff (ne : value.tdiv base.val ≠ 0) : value.tdiv base.val < 0 ↔ value < 0 := by
  have htwo := base.two_le
  have hsign := Int.sign_tdiv value base.val
  rw [← Int.sign_eq_neg_one_iff_neg, ← Int.sign_eq_neg_one_iff_neg, hsign]
  split_ifs at hsign ⊢ with hsmall
  · exact absurd (Int.sign_eq_zero_iff_zero.1 hsign) ne
  · rw [Int.sign_eq_one_of_pos (show 0 < base.val by omega), mul_one]

theorem leading_neg_iff (value : ℤ) : leading base value < 0 ↔ value < 0 := by
  induction value using round_induction base with
  | step value ih =>
    rw [leading]
    split_ifs with hzero
    · rfl
    · exact (ih hzero).trans (tdiv_neg_iff hzero)

/-- The first loop writes the digits, as far as the buffer goes. -/
theorem writeDigits_eq (value : ℤ) (pre rest : List UInt8) :
    writeDigits base value (pre ++ rest) pre.length =
      if (digitsOf base value).length ≤ rest.length then
        some (pre ++ digitsOf base value ++ rest.drop (digitsOf base value).length,
          pre.length + (digitsOf base value).length, leading base value)
      else none := by
  induction value using round_induction base generalizing pre rest with
  | step value ih =>
    rw [writeDigits, digitsOf, leading, poke_append]
    cases rest with
    | nil => simp
    | cons d rest =>
      rw [if_neg (by simp)]
      dsimp only
      by_cases hzero : value.tdiv base.val = 0
      · simp [hzero]
      · have hnext := ih hzero (pre ++ [numeral (value - value.tdiv base.val * base.val)]) rest
        rw [List.length_append, List.length_singleton] at hnext
        rw [if_neg hzero, if_neg hzero, if_neg hzero, List.tail_cons, hnext]
        simp [Nat.add_assoc, Nat.add_comm 1]

theorem finish_eq {text rest : List UInt8} :
    finish (text ++ rest) text.length =
      if rest = [] then none else some (text.reverse ++ [0] ++ rest.tail) := by
  unfold finish
  rw [poke_append]
  split_ifs with hfull
  · rfl
  · have h := swapEnds_spec text [] ([0] ++ rest.tail)
    simpa using h

/-- A text and its terminator in a buffer. -/
def withText (text result : List UInt8) : Option (List UInt8) :=
  if text.length < result.length then some (text ++ [0] ++ result.drop (text.length + 1)) else none

/-- The loops of both functions: the digits, a sign when there is one, and the terminator. -/
theorem finish_digits (text sign result : List UInt8) (fits : text.length + sign.length ≤ result.length) :
    finish (text ++ sign ++ result.drop (text ++ sign).length) (text ++ sign).length =
      withText (sign.reverse ++ text.reverse) result := by
  simp only [finish_eq, List.drop_eq_nil_iff, withText]
  have hlength : (sign.reverse ++ text.reverse).length = text.length + sign.length := by
    rw [List.length_append, List.length_reverse, List.length_reverse, Nat.add_comm]
  rw [hlength, List.length_append]
  split_ifs with hfull hroom
  · omega
  · rfl
  · simp
  · omega

theorem utoa_eq (value : ℕ) (result : List UInt8) :
    utoa value result base.val = withText (numeralOf base value) result := by
  have htwo := base.two_le
  have hle := base.le
  have hwrite := @writeDigits_eq base value [] result
  rw [List.nil_append, List.length_nil, Nat.zero_add, List.nil_append] at hwrite
  have hnumeral : numeralOf base value = ([] : List UInt8).reverse ++ (digitsOf base value).reverse := by
    rw [numeralOf, if_neg (by omega)]
    rfl
  unfold utoa
  rw [dif_neg (by omega), hwrite, hnumeral]
  split_ifs with hfits
  · dsimp only
    have h := finish_digits (digitsOf base value) [] result (by simpa using hfits)
    rwa [List.append_nil] at h
  · dsimp only
    rw [withText, if_neg]
    simpa using fun h => hfits (Nat.le_of_lt h)

theorem itoa_eq (value : ℤ) (result : List UInt8) :
    itoa value result base.val = withText (numeralOf base value) result := by
  have htwo := base.two_le
  have hle := base.le
  have hwrite := @writeDigits_eq base value [] result
  rw [List.nil_append, List.length_nil, Nat.zero_add, List.nil_append] at hwrite
  unfold itoa
  rw [dif_neg (by omega), hwrite]
  split_ifs with hfits
  · dsimp only
    have hneg := @leading_neg_iff base value
    by_cases h : value < 0
    · have hnumeral : numeralOf base value = ([45] : List UInt8).reverse ++ (digitsOf base value).reverse := by
        rw [numeralOf, if_pos h]
        rfl
      rw [if_pos (hneg.2 h), hnumeral, poke_append]
      by_cases hfull : result.length ≤ (digitsOf base value).length
      · rw [if_pos (List.drop_eq_nil_iff.2 hfull)]
        dsimp only
        rw [withText, if_neg]
        simp
        omega
      · rw [if_neg fun hnil => hfull (List.drop_eq_nil_iff.1 hnil)]
        dsimp only
        have hfinish := finish_digits (digitsOf base value) [45] result (by simp; omega)
        rw [List.length_append, List.length_singleton] at hfinish
        rwa [List.tail_drop]
    · have hnumeral : numeralOf base value = ([] : List UInt8).reverse ++ (digitsOf base value).reverse := by
        rw [numeralOf, if_neg h]
        rfl
      rw [if_neg fun hlead => h (hneg.1 hlead), hnumeral]
      have hfinish := finish_digits (digitsOf base value) [] result (by simpa using hfits)
      rwa [List.append_nil] at hfinish
  · dsimp only
    rw [withText, if_neg]
    unfold numeralOf
    rw [List.length_append, List.length_reverse]
    omega

theorem length_digitsOf (value : ℤ) :
    (digitsOf base value).length = Nat.log base.val.toNat value.natAbs + 1 := by
  have htwo := base.two_le
  have hbase : base.val.natAbs = base.val.toNat := by omega
  induction value using round_induction base with
  | step value ih =>
    rw [digitsOf, List.length_cons]
    have hquotient : (value.tdiv base.val).natAbs = value.natAbs / base.val.toNat := by
      rw [Int.natAbs_tdiv, hbase]
      rfl
    by_cases hzero : value.tdiv base.val = 0
    · rw [if_pos hzero, List.length_nil, Nat.log_of_lt]
      rw [hzero, Int.natAbs_zero] at hquotient
      exact Nat.lt_of_div_eq_zero (by omega) hquotient.symm
    · have hle : base.val.toNat ≤ value.natAbs := by
        by_contra hlt
        rw [Nat.div_eq_of_lt (not_le.1 hlt)] at hquotient
        exact hzero (Int.natAbs_eq_zero.1 hquotient)
      rw [if_neg hzero, ih hzero, hquotient, Nat.log_of_one_lt_of_le (by omega) hle]

theorem length_numeralOf (value : ℤ) : (numeralOf base value).length =
    Nat.log base.val.toNat value.natAbs + 1 + if value < 0 then 1 else 0 := by
  rw [numeralOf, List.length_append, List.length_reverse, length_digitsOf]
  split_ifs
  · rw [List.length_singleton, Nat.add_comm]
  · rw [List.length_nil, Nat.add_comm]

theorem numeral_ne_zero {k : ℤ} (low : -36 < k) (high : k < 36) : numeral k ≠ 0 := by
  have htable : ∀ i : Fin 71, numerals.getD i 0 ≠ 0 := by decide +kernel
  exact htable ⟨(35 + k).toNat, by omega⟩

theorem digitsOf_ne_zero (value : ℤ) : ∀ c ∈ digitsOf base value, c ≠ 0 := by
  have htwo := base.two_le
  have hle := base.le
  induction value using round_induction base with
  | step value ih =>
    intro c hc
    rw [digitsOf, List.mem_cons] at hc
    rcases hc with rfl | hc
    · have hdigit : value - value.tdiv base.val * base.val = value.tmod base.val := by
        rw [Int.tmod_def, mul_comm]
      rw [hdigit]
      have hlow := Int.lt_tmod_of_pos value (show 0 < base.val by omega)
      have hhigh := Int.tmod_lt_of_pos value (show 0 < base.val by omega)
      exact numeral_ne_zero (by omega) (by omega)
    · split_ifs at hc with hzero
      · simp at hc
      · exact ih hzero c hc

theorem numeralOf_ne_zero (value : ℤ) : ∀ c ∈ numeralOf base value, c ≠ 0 := by
  intro c hc
  rw [numeralOf, List.mem_append, List.mem_reverse] at hc
  rcases hc with hc | hc
  · split_ifs at hc with hneg
    · rw [List.mem_singleton.1 hc]
      decide
    · simp at hc
  · exact digitsOf_ne_zero value c hc

end Written

end Itoa
