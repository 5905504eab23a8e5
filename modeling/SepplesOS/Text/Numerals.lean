import SepplesOS.Lib.Numeral
import SepplesOS.Text.Itoa

/-!
# Numerals in 64 bits

`itoa`, `utoa` and `atoi` (`kernel/lib/string.cpp`) in the machine's arithmetic.  In the first two no
operation leaves the range of its type and no index lies outside the table of digits, so that they
write what they would with integers: the numeral of the number.  `atoi` wraps around.
-/

namespace Itoa

/-- The types of 64 bits. -/
inductive Word
  | i64
  | u64

/-- A number converted to a type. -/
def Word.convert : Word → ℤ → ℤ
  | .i64, n => n.bmod (2 ^ 64)
  | .u64, n => n % 2 ^ 64

/-- The result of an operation, when the type can hold it. -/
def Word.checked (w : Word) (n : ℤ) : Option ℤ := if w.convert n = n then some n else none

/-! ## The code -/

/-- The digit that a round of the first loop writes. -/
def digit64 (w : Word) (base : Base) (value : ℤ) : Option UInt8 := do
  let tmp_value := Word.i64.convert value
  let value ← w.checked (value.tdiv base.val)
  let product ← w.checked (value * base.val)
  let digit ← w.checked (w.convert tmp_value - product)
  let index ← w.checked (35 + digit)
  if 0 ≤ index then numerals[index.toNat]? else none

/-- The first loop. -/
def writeDigits64 (w : Word) (base : Base) (value : ℤ) (buf : List UInt8) (ptr : ℕ) :
    Option (List UInt8 × ℕ × ℤ) :=
  match digit64 w base value with
  | none => none
  | some c =>
    match poke buf ptr c with
    | none => none
    | some buf =>
      if value.tdiv base.val = 0 then some (buf, ptr + 1, Word.i64.convert value)
      else writeDigits64 w base (value.tdiv base.val) buf (ptr + 1)
termination_by value.natAbs
decreasing_by exact natAbs_tdiv_lt base ‹_›

end Itoa

open Itoa

theorem two_le_of_valid {base : ℤ} (valid : ¬(base < 2 ∨ base > 36)) : 2 ≤ base := by omega

theorem le_of_valid {base : ℤ} (valid : ¬(base < 2 ∨ base > 36)) : base ≤ 36 := by omega

/-- `itoa`. -/
def itoa64 (value : Int64) (result : List UInt8) (base : ℤ) : Option (List UInt8) :=
  if h : base < 2 ∨ base > 36 then poke result 0 0
  else
    match writeDigits64 .i64 ⟨base, two_le_of_valid h, le_of_valid h⟩ value.toInt result 0 with
    | none => none
    | some (buf, ptr, tmp_value) =>
      if tmp_value < 0 then
        match poke buf ptr 45 with
        | none => none
        | some buf => finish buf (ptr + 1)
      else finish buf ptr

/-- `utoa`. -/
def utoa64 (value : UInt64) (result : List UInt8) (base : ℤ) : Option (List UInt8) :=
  if h : base < 2 ∨ base > 36 then poke result 0 0
  else
    match writeDigits64 .u64 ⟨base, two_le_of_valid h, le_of_valid h⟩ value.toNat result 0 with
    | none => none
    | some (buf, ptr, _) => finish buf ptr

namespace Atoi

/-- The loop of `atoi`, and what it returns. -/
def loop (negative : Bool) : List UInt8 → Int64 → Option Int64
  | [], _ => none
  | c :: str, num =>
    if c = 0 ∨ c < 48 ∨ c > 57 then some (if negative then -num else num)
    else loop negative str (num * 10 + Int64.ofInt (c.toNat - 48))

end Atoi

/-- `atoi` of the bytes from `str` on. -/
def atoi (str : List UInt8) : Option Int64 :=
  match str with
  | [] => none
  | c :: rest => if c = 45 then Atoi.loop true rest 0 else Atoi.loop false str 0

namespace Itoa

/-! ## The digits -/

/-- The character of a digit. -/
def digitChar (d : ℕ) : UInt8 := UInt8.ofNat (if d < 10 then 48 + d else 87 + d)

/-- The numeral of a number: a sign when it is negative, and its digits without a leading zero. -/
def IsNumeral (base : Base) (value : ℤ) (text : List UInt8) : Prop :=
  ∃ ds, Numeral.Canonical base.val.toNat value.natAbs ds ∧
    text = (if value < 0 then [45] else []) ++ ds.map digitChar

section Digits

variable {w : Word} {base : Base} {value : ℤ}

theorem numerals_eq {k : ℤ} (low : -36 < k) (high : k < 36) :
    numerals[(35 + k).toNat]? = some (numeral k) ∧ numeral k = digitChar k.natAbs := by
  have htable : ∀ i : Fin 71, numerals[(i : ℕ)]? = some (numerals.getD i 0) ∧
      numerals.getD i 0 = digitChar ((i : ℤ) - 35).natAbs := by decide +kernel
  obtain ⟨hget, hchar⟩ := htable ⟨(35 + k).toNat, by omega⟩
  refine ⟨hget, hchar.trans ?_⟩
  congr 2
  dsimp only
  omega

/-- A number that a type of 64 bits can hold. -/
def Word.Holds (w : Word) (n : ℤ) : Prop := w.convert n = n

theorem Word.holds_iff (n : ℤ) : (w.Holds n) ↔
    match w with
    | .i64 => -2 ^ 63 ≤ n ∧ n < 2 ^ 63
    | .u64 => 0 ≤ n ∧ n < 2 ^ 64 := by
  cases w with
  | i64 =>
    unfold Word.Holds Word.convert
    dsimp only
    rw [Int.bmod_def]
    omega
  | u64 =>
    unfold Word.Holds Word.convert
    dsimp only
    omega

/-- What the first conversion loses comes back. -/
theorem Word.convert_i64 (holds : w.Holds value) : w.convert (Word.i64.convert value) = value := by
  cases w with
  | i64 =>
    have hsame : Word.i64.convert value = value := holds
    rw [hsame, hsame]
  | u64 =>
    have hrange := (Word.holds_iff value).1 holds
    unfold Word.convert
    dsimp only at hrange ⊢
    rw [Int.bmod_def]
    omega

theorem Word.checked_of_holds (holds : w.Holds value) : w.checked value = some value := if_pos holds

/-- A round does not leave the range: the quotient, the product and the difference lie between the
number and 0. -/
theorem digit64_eq (holds : w.Holds value) :
    digit64 w base value = some (numeral (value - value.tdiv base.val * base.val)) ∧
      w.Holds (value.tdiv base.val) := by
  have htwo := base.two_le
  have hle := base.le
  have hdigit : value - value.tdiv base.val * base.val = value.tmod base.val := by
    rw [Int.tmod_def, mul_comm]
  have hlow := Int.lt_tmod_of_pos value (show 0 < base.val by omega)
  have hhigh := Int.tmod_lt_of_pos value (show 0 < base.val by omega)
  have hsplit := Int.mul_tdiv_add_tmod value base.val
  have hproduct : value.tdiv base.val * base.val = value - value.tmod base.val := by
    rw [mul_comm]
    omega
  have hsign : (0 ≤ value → 0 ≤ value.tdiv base.val ∧ value.tdiv base.val ≤ value ∧
        0 ≤ value.tmod base.val ∧ value.tmod base.val ≤ value) ∧
      (value < 0 → value ≤ value.tdiv base.val ∧ value.tdiv base.val ≤ 0 ∧
        value ≤ value.tmod base.val ∧ value.tmod base.val ≤ 0) := by
    constructor
    · intro hpos
      have hquotient : 0 ≤ value.tdiv base.val := Int.tdiv_nonneg hpos (by omega)
      have hrest := Int.tmod_nonneg base.val hpos
      refine ⟨hquotient, ?_, hrest, ?_⟩ <;> nlinarith
    · intro hneg
      have hquotient : value.tdiv base.val ≤ 0 := by
        rw [← neg_nonneg, ← Int.neg_tdiv]
        exact Int.tdiv_nonneg (by omega) (by omega)
      have hrest : value.tmod base.val ≤ 0 := by
        have h := Int.tmod_nonneg base.val (show 0 ≤ -value by omega)
        rw [Int.neg_tmod] at h
        omega
      refine ⟨?_, hquotient, ?_, hrest⟩ <;> nlinarith
  have hrange := (Word.holds_iff value).1 holds
  have hquotient : w.Holds (value.tdiv base.val) := by
    rw [Word.holds_iff]
    cases w <;> dsimp only at hrange ⊢ <;> omega
  have hmul : w.Holds (value.tdiv base.val * base.val) := by
    rw [Word.holds_iff, hproduct]
    cases w <;> dsimp only at hrange ⊢ <;> omega
  have hsub : w.Holds (value.tmod base.val) := by
    rw [Word.holds_iff]
    cases w <;> dsimp only at hrange ⊢ <;> omega
  have hindex : w.Holds (35 + value.tmod base.val) := by
    rw [Word.holds_iff]
    cases w <;> dsimp only at hrange ⊢ <;> omega
  refine ⟨?_, hquotient⟩
  unfold digit64
  simp only [Word.checked_of_holds hquotient, Option.bind_eq_bind, Option.bind_some,
    Word.checked_of_holds hmul, Word.convert_i64 holds, hdigit, Word.checked_of_holds hsub,
    Word.checked_of_holds hindex]
  rw [if_pos (by omega), (numerals_eq (by omega) (by omega)).1]

theorem writeDigits64_eq (holds : w.Holds value) (buf : List UInt8) (ptr : ℕ) :
    writeDigits64 w base value buf ptr = (writeDigits base value buf ptr).map
      fun r => (r.1, r.2.1, Word.i64.convert r.2.2) := by
  induction value using round_induction base generalizing buf ptr with
  | step value ih =>
    have hround := @digit64_eq w base value holds
    obtain ⟨hdigit, hquotient⟩ := hround
    rw [writeDigits64, writeDigits, hdigit]
    dsimp only
    cases poke buf ptr (numeral (value - value.tdiv base.val * base.val)) with
    | none => rfl
    | some buf =>
      dsimp only
      split_ifs with hzero
      · rfl
      · exact ih hzero hquotient buf (ptr + 1)

theorem holds_leading (holds : w.Holds value) : w.Holds (leading base value) := by
  induction value using round_induction base with
  | step value ih =>
    rw [leading]
    split_ifs with hzero
    · exact holds
    · exact ih hzero (digit64_eq holds).2

theorem writeDigits_leading {result buf : List UInt8} {ptr : ℕ} {tmp : ℤ}
    (h : writeDigits base value result 0 = some (buf, ptr, tmp)) : tmp = leading base value := by
  have hwrite := @writeDigits_eq base value [] result
  rw [List.nil_append, List.length_nil, h] at hwrite
  split_ifs at hwrite
  exact (Prod.mk.inj (Prod.mk.inj (Option.some.inj hwrite)).2).2

theorem holds_toInt (value : Int64) : Word.i64.Holds value.toInt := by
  rw [Word.holds_iff]
  exact ⟨value.le_toInt, value.toInt_lt⟩

theorem holds_toNat (value : UInt64) : Word.u64.Holds value.toNat := by
  rw [Word.holds_iff]
  have hlt := value.toNat_lt
  dsimp only
  omega

theorem itoa64_eq (value : Int64) (result : List UInt8) (base : ℤ) :
    itoa64 value result base = itoa value.toInt result base := by
  unfold itoa64 itoa
  split_ifs with hbase
  · rfl
  · rw [writeDigits64_eq (holds_toInt value)]
    cases hwrite : writeDigits ⟨base, by omega, by omega⟩ value.toInt result 0 with
    | none => rfl
    | some r =>
      obtain ⟨buf, ptr, tmp⟩ := r
      have hsame : Word.i64.convert tmp = tmp := by
        rw [writeDigits_leading hwrite]
        exact holds_leading (holds_toInt value)
      rw [Option.map_some]
      generalize Word.i64.convert tmp = t at hsame ⊢
      subst hsame
      rfl

theorem utoa64_eq (value : UInt64) (result : List UInt8) (base : ℤ) :
    utoa64 value result base = utoa value.toNat result base := by
  unfold utoa64 utoa
  split_ifs with hbase
  · rfl
  · rw [writeDigits64_eq (holds_toNat value)]
    cases writeDigits ⟨base, by omega, by omega⟩ (value.toNat : ℤ) result 0 with
    | none => rfl
    | some r => rfl

theorem reverse_digitsOf (value : ℤ) : (digitsOf base value).reverse =
    (Numeral.digits base.val.toNat value.natAbs).map digitChar := by
  have htwo := base.two_le
  have hle := base.le
  have hbase : base.val.natAbs = base.val.toNat := by omega
  induction value using round_induction base with
  | step value ih =>
    have hdigit : value - value.tdiv base.val * base.val = value.tmod base.val := by
      rw [Int.tmod_def, mul_comm]
    have hlow := Int.lt_tmod_of_pos value (show 0 < base.val by omega)
    have hhigh := Int.tmod_lt_of_pos value (show 0 < base.val by omega)
    have hrest : (value.tmod base.val).natAbs = value.natAbs % base.val.toNat := by
      rw [Int.natAbs_tmod, hbase]
    have hquotient : (value.tdiv base.val).natAbs = value.natAbs / base.val.toNat := by
      rw [Int.natAbs_tdiv, hbase]
      rfl
    rw [digitsOf, hdigit, (numerals_eq (by omega) (by omega)).2, hrest, List.reverse_cons]
    by_cases hzero : value.tdiv base.val = 0
    · rw [hzero, Int.natAbs_zero] at hquotient
      have hlt := Nat.lt_of_div_eq_zero (show 0 < base.val.toNat by omega) hquotient.symm
      rw [if_pos hzero, Numeral.digits_of_lt hlt, Nat.mod_eq_of_lt hlt]
      rfl
    · have hge : base.val.toNat ≤ value.natAbs := by
        by_contra hlt
        rw [Nat.div_eq_of_lt (not_le.1 hlt)] at hquotient
        exact hzero (Int.natAbs_eq_zero.1 hquotient)
      rw [if_neg hzero, ih hzero, hquotient, Numeral.digits_of_le (by omega) hge, List.map_append]
      rfl

/-- The text that both functions write is the one numeral of the number. -/
theorem isNumeral_iff {text : List UInt8} : IsNumeral base value text ↔ text = numeralOf base value := by
  have htwo := base.two_le
  unfold IsNumeral numeralOf
  rw [reverse_digitsOf]
  constructor
  · rintro ⟨ds, hds, rfl⟩
    rw [(Numeral.canonical_iff (by omega)).1 hds]
  · rintro rfl
    exact ⟨_, Numeral.canonical_digits (by omega) _, rfl⟩

end Digits

/-- For every base and every number of 64 bits, both functions write its one numeral and a NUL. -/
theorem itoa_utoa_canonical (base : Base) :
    (∀ value : Int64, ∃ text, (∀ t, IsNumeral base value.toInt t ↔ t = text) ∧
      ∀ result : List UInt8, text.length < result.length →
        itoa64 value result base.val = some (text ++ [0] ++ result.drop (text.length + 1))) ∧
    ∀ value : UInt64, ∃ text, (∀ t, IsNumeral base value.toNat t ↔ t = text) ∧
      ∀ result : List UInt8, text.length < result.length →
        utoa64 value result base.val = some (text ++ [0] ++ result.drop (text.length + 1)) := by
  constructor
  · intro value
    refine ⟨numeralOf base value.toInt, fun t => isNumeral_iff, fun result hroom => ?_⟩
    rw [itoa64_eq, itoa_eq, withText, if_pos hroom]
  · intro value
    refine ⟨numeralOf base value.toNat, fun t => isNumeral_iff, fun result hroom => ?_⟩
    rw [utoa64_eq, utoa_eq, withText, if_pos hroom]

/-- `-ff` in a buffer of six bytes, and sixteen `f` in one of seventeen. -/
theorem itoa_utoa_sixteen :
    itoa64 (-255) (List.replicate 6 1) 16 = some [45, 102, 102, 0, 1, 1] ∧
      utoa64 18446744073709551615 (List.replicate 17 1) 16 =
        some (List.replicate 16 102 ++ [0]) := by
  obtain ⟨hitoa, hutoa⟩ := itoa_utoa_canonical ⟨16, by decide, by decide⟩
  constructor
  · obtain ⟨text, unique, hwrite⟩ := hitoa (-255)
    obtain rfl := (unique [45, 102, 102]).1
      ⟨[15, 15], ⟨by decide, by decide, by decide, by decide⟩, by decide⟩
    exact hwrite _ (by decide)
  · obtain ⟨text, unique, hwrite⟩ := hutoa 18446744073709551615
    obtain rfl := (unique (List.replicate 16 102)).1
      ⟨List.replicate 16 15, ⟨by decide, by decide, by decide, by decide⟩, by decide⟩
    exact hwrite _ (by decide)

end Itoa

/-! ## Reading numerals -/

namespace Atoi

open Itoa

/-- A decimal digit. -/
def IsDigit (c : UInt8) : Prop := 48 ≤ c ∧ c ≤ 57

instance (c : UInt8) : Decidable (IsDigit c) := inferInstanceAs (Decidable (_ ∧ _))

/-- The number that decimal digits stand for. -/
def valueOf (text : List UInt8) : ℕ := Numeral.value 10 (text.map fun c => c.toNat - 48)

section Reading

variable {negative : Bool} {c : UInt8} {text rest : List UInt8} {num : ℤ}

theorem loop_digit (digit : IsDigit c) :
    loop negative (c :: rest) (Int64.ofInt num) =
      loop negative rest (Int64.ofInt (num * 10 + (c.toNat - 48 : ℕ))) := by
  obtain ⟨hlow, hhigh⟩ := digit
  have hge : 48 ≤ c.toNat := hlow
  rw [loop, if_neg, Int64.ofInt_add, Int64.ofInt_mul, Nat.cast_sub hge]
  · rfl
  · rw [not_or, not_or]
    refine ⟨?_, UInt8.not_lt.2 hlow, UInt8.not_lt.2 hhigh⟩
    rintro rfl
    exact absurd hge (by decide)

theorem loop_end (stop : ¬IsDigit c) :
    loop negative (c :: rest) (Int64.ofInt num) =
      some (Int64.ofInt (if negative then -num else num)) := by
  have hout : c < 48 ∨ c > 57 := by
    rw [IsDigit, not_and_or, UInt8.not_le, UInt8.not_le] at stop
    exact stop
  rw [loop, if_pos (Or.inr hout)]
  cases negative with
  | true => rw [if_pos rfl, if_pos rfl, Int64.ofInt_neg]
  | false => rfl

/-- The loop over digits, whatever their number: what it has is the number that they stand for, modulo
`2 ^ 64`. -/
theorem loop_digits (digits : ∀ d ∈ text, IsDigit d) (stop : ¬IsDigit c) :
    loop negative (text ++ c :: rest) (Int64.ofInt num) =
      some (Int64.ofInt (if negative then
          -(text.map fun c => c.toNat - 48).foldl (fun (n : ℤ) d => n * 10 + (d : ℕ)) num
        else (text.map fun c => c.toNat - 48).foldl (fun (n : ℤ) d => n * 10 + (d : ℕ)) num)) := by
  induction text generalizing num with
  | nil => exact loop_end stop
  | cons d text ih =>
    rw [List.forall_mem_cons] at digits
    rw [List.cons_append, loop_digit digits.1, ih digits.2]
    rfl

theorem cast_value (ds : List ℕ) (n : ℕ) :
    ds.foldl (fun (n : ℤ) d => n * 10 + (d : ℕ)) (n : ℤ) =
      (ds.foldl (fun n d => n * 10 + d) n : ℕ) := by
  induction ds generalizing n with
  | nil => rfl
  | cons d ds ih =>
    rw [List.foldl_cons, List.foldl_cons, ← ih]
    push_cast
    rfl

theorem loop_value (digits : ∀ d ∈ text, IsDigit d) (stop : ¬IsDigit c) :
    loop negative (text ++ c :: rest) 0 =
      some (Int64.ofInt (if negative then -(valueOf text : ℤ) else valueOf text)) := by
  have hzero : (0 : Int64) = Int64.ofInt ((0 : ℕ) : ℤ) := rfl
  rw [hzero, loop_digits digits stop, cast_value]
  rfl

theorem atoi_minus (digits : ∀ d ∈ text, IsDigit d) (stop : ¬IsDigit c) :
    atoi (45 :: text ++ c :: rest) = some (Int64.ofInt (-(valueOf text : ℤ))) := by
  rw [List.cons_append, atoi]
  rw [if_pos rfl, loop_value digits stop, if_pos rfl]

theorem atoi_digits (digits : ∀ d ∈ text, IsDigit d) (stop : ¬IsDigit c)
    (plain : text ≠ [] ∨ c ≠ 45) :
    atoi (text ++ c :: rest) = some (Int64.ofInt (valueOf text)) := by
  have hloop := @loop_value false c text rest digits stop
  cases text with
  | nil =>
    rw [List.nil_append] at hloop ⊢
    rw [atoi]
    rw [if_neg (plain.resolve_left fun hne => hne rfl), hloop]
    rfl
  | cons d text =>
    have hd : d ≠ 45 := by
      rintro rfl
      exact absurd (digits 45 List.mem_cons_self).1 (by decide)
    rw [List.cons_append] at hloop ⊢
    rw [atoi]
    rw [if_neg hd, hloop]
    rfl

theorem isDigit_digitChar {d : ℕ} (lt : d < 10) :
    IsDigit (digitChar d) ∧ (digitChar d).toNat - 48 = d := by
  have hall : ∀ d : Fin 10, (48 ≤ digitChar d ∧ digitChar d ≤ 57) ∧ (digitChar d).toNat - 48 = d := by
    decide
  exact hall ⟨d, lt⟩

theorem valueOf_digits {ds : List ℕ} (lt : ∀ d ∈ ds, d < 10) :
    (∀ c ∈ ds.map digitChar, IsDigit c) ∧ valueOf (ds.map digitChar) = Numeral.value 10 ds := by
  constructor
  · intro c hc
    obtain ⟨d, hd, rfl⟩ := List.mem_map.1 hc
    exact (isDigit_digitChar (lt d hd)).1
  · unfold valueOf
    rw [List.map_map]
    congr 1
    refine (List.map_congr_left fun d hd => ?_).trans (List.map_id ds)
    exact (isDigit_digitChar (lt d hd)).2

theorem two_le_ten : (2 : ℤ) ≤ 10 := by decide

theorem ten_le : (10 : ℤ) ≤ 36 := by decide

/-- The decimal base. -/
def ten : Base := ⟨10, two_le_ten, ten_le⟩

theorem atoi_numeralOf (value : Int64) (rest : List UInt8) :
    atoi (numeralOf ten value.toInt ++ [0] ++ rest) = some value := by
  have hcanonical := Numeral.canonical_digits (show 1 < 10 by decide) value.toInt.natAbs
  obtain ⟨hdigits, hvalue⟩ := valueOf_digits hcanonical.lt
  have hstop : ¬IsDigit 0 := fun h => absurd h.1 (by decide)
  rw [hcanonical.value] at hvalue
  have htext : numeralOf ten value.toInt ++ [0] ++ rest = (if value.toInt < 0 then [45] else []) ++
      ((Numeral.digits 10 value.toInt.natAbs).map digitChar ++ 0 :: rest) := by
    unfold numeralOf
    rw [reverse_digitsOf]
    simp [ten]
  rw [htext]
  by_cases hneg : value.toInt < 0
  · have habs : -(value.toInt.natAbs : ℤ) = value.toInt := by omega
    rw [if_pos hneg, ← List.append_assoc, List.singleton_append, atoi_minus hdigits hstop, hvalue, habs,
      Int64.ofInt_toInt]
  · have habs : (value.toInt.natAbs : ℤ) = value.toInt := by omega
    rw [if_neg hneg, List.nil_append, atoi_digits hdigits hstop (Or.inr (by decide)), hvalue, habs,
      Int64.ofInt_toInt]

theorem length_numeralOf_le (value : Int64) : (numeralOf ten value.toInt).length ≤ 20 := by
  have hlow := value.le_toInt
  have hhigh := value.toInt_lt
  have hlog : Nat.log 10 value.toInt.natAbs ≤ 18 := by
    rw [← Nat.lt_succ_iff]
    exact Nat.log_lt_of_lt_pow' (by decide) (by omega)
  rw [length_numeralOf, show ten.val.toNat = 10 from rfl]
  split_ifs <;> omega

end Reading

/-- `atoi` reads what `itoa` has written, and from every text the number of its decimal digits, with
its sign, modulo `2 ^ 64`. -/
theorem atoi_inverts :
    (∀ (value : Int64) (buf out : List UInt8), itoa64 value buf 10 = some out → atoi out = some value) ∧
    (∀ (value : Int64) (buf : List UInt8), 20 < buf.length → itoa64 value buf 10 ≠ none) ∧
    ∀ (text rest : List UInt8) (c : UInt8), (∀ d ∈ text, IsDigit d) → ¬IsDigit c →
      atoi (45 :: text ++ c :: rest) = some (Int64.ofInt (-(valueOf text : ℤ))) ∧
        (text ≠ [] ∨ c ≠ 45 → atoi (text ++ c :: rest) = some (Int64.ofInt (valueOf text))) := by
  refine ⟨fun value buf out h => ?_, fun value buf hroom => ?_, fun text rest c hdigits hstop =>
    ⟨atoi_minus hdigits hstop, atoi_digits hdigits hstop⟩⟩
  · rw [itoa64_eq, show (10 : ℤ) = ten.val from rfl, itoa_eq, withText] at h
    split_ifs at h
    obtain rfl := Option.some.inj h
    exact atoi_numeralOf value _
  · have hlength := length_numeralOf_le value
    rw [itoa64_eq, show (10 : ℤ) = ten.val from rfl, itoa_eq, withText, if_pos (by omega)]
    exact Option.some_ne_none _

/-- `-42` written and read back, and `-12x` and `12x` read. -/
theorem atoi_inverts_minus :
    (∃ out, itoa64 (-42) (List.replicate 21 1) 10 = some out ∧ atoi out = some (-42)) ∧
      atoi [45, 49, 50, 120] = some (-12) ∧ atoi [49, 50, 120] = some 12 := by
  obtain ⟨hinverts, hroom, hreads⟩ := atoi_inverts
  have hdigits : ∀ d ∈ [(49 : UInt8), 50], IsDigit d := by
    intro d hd
    fin_cases hd <;> decide
  obtain ⟨hminus, hplain⟩ := hreads [49, 50] [] 120 hdigits (by decide)
  have hvalue : valueOf [49, 50] = 12 := rfl
  rw [hvalue] at hminus hplain
  refine ⟨?_, hminus, hplain (Or.inl (List.cons_ne_nil _ _))⟩
  obtain ⟨out, hout⟩ := Option.ne_none_iff_exists'.1 (hroom (-42) (List.replicate 21 1) (by decide))
  exact ⟨out, hout, hinverts _ _ out hout⟩

end Atoi
