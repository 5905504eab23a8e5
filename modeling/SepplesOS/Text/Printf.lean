import SepplesOS.Lib.CString
import SepplesOS.Text.Itoa
import SepplesOS.Vga.Text

/-!
# Formatted printing

`VGAText::_printf` (`kernel/vga/vgatext.h`) and `logE9` (`kernel/debug.h`) consume their arguments by
recursion, with a pointer into the format.  A pointer into a string is the list of the bytes from
there to the terminator, the terminator included; reading through the empty list is a read past the
end of the string.  The first access that is out of bounds ends the call (`Fault`).
-/

/-- An argument: its 64 bits and, for `%s`, the string at that address. -/
structure Arg where
  value : BitVec 64
  chars : CString

/-- A read past the terminator of a string, or a write outside the conversion buffer. -/
inductive Fault
  | read
  | write
deriving DecidableEq

namespace Printf

/-- The bytes of a string in memory. -/
def inMemory (s : CString) : List UInt8 := s.bytes ++ [0]

/-! ## The code -/

/-- The loop without arguments: the characters that are put. -/
def puts : List UInt8 → Except Fault (List UInt8)
  | [] => .error .read
  | c :: format => if c = 0 then .ok [] else (puts format).map (c :: ·)

/-- `_printf(buf)` of a buffer that was written, or not. -/
def putBuf : Option (List UInt8) → Except Fault (List UInt8)
  | none => .error .write
  | some buf => puts buf

/-- One directive, by its character.  Another character than these puts nothing. -/
def directive (buf : Vector UInt8 32) (c : UInt8) (arg : Arg) : Except Fault (List UInt8) :=
  if c = 'd'.toUInt8 then putBuf (itoa arg.value.toInt buf.toList 10)
  else if c = 'x'.toUInt8 then putBuf (itoa arg.value.toInt buf.toList 16)
  else if c = 'p'.toUInt8 then
    (putBuf (utoa arg.value.toNat buf.toList 16)).map fun text => '0'.toUInt8 :: 'x'.toUInt8 :: text
  else if c = 'b'.toUInt8 then putBuf (itoa arg.value.toInt buf.toList 2)
  else if c = 'c'.toUInt8 then .ok [UInt8.ofBitVec (arg.value.setWidth 8)]
  else if c = 's'.toUInt8 then puts (inMemory arg.chars)
  else .ok []

/-- `_printf` and `logE9`: the characters that are put. -/
def formatted (buf : Vector UInt8 32) : List UInt8 → List Arg → Except Fault (List UInt8)
  | format, [] => puts format
  | [], _ :: _ => .error .read
  | c :: format, value :: args =>
    if c = 0 then .ok []
    else if c = '%'.toUInt8 then
      match format with
      | [] => .error .read
      | d :: format => do
        let text ← directive buf d value
        let rest ← formatted buf format args
        return text ++ rest
    else (formatted buf format (value :: args)).map (c :: ·)

end Printf

open Printf

/-- `VGAText::_printf`, with what the conversion buffer holds at first. -/
def VGAText._printf (h : Heap) (s : VGAText) (buf : Vector UInt8 32) (format : List UInt8)
    (args : List Arg) : Except Fault VGAText :=
  (formatted buf format args).map fun text => text.foldl (fun s c => s.put h c) s

/-- `logE9`: the bytes sent to the port. -/
def logE9 (buf : Vector UInt8 32) (format : List UInt8) (args : List Arg) :
    Except Fault (List UInt8) :=
  formatted buf format args

namespace Printf

/-! ## Calls that return -/

/-- The call ends without a fault. -/
def Returns {α : Type} (x : Except Fault α) : Prop := ∃ a, x = .ok a

section Returns

variable {α β : Type} {x : Except Fault α}

@[simp] theorem returns_ok (a : α) : Returns (.ok a : Except Fault α) := ⟨a, rfl⟩

@[simp] theorem not_returns_error (e : Fault) : ¬Returns (.error e : Except Fault α) := by
  rintro ⟨a, h⟩
  cases h

@[simp] theorem returns_map (f : α → β) : Returns (x.map f) ↔ Returns x := by
  cases x with
  | error e => exact iff_of_false (not_returns_error e) (not_returns_error e)
  | ok a => exact iff_of_true (returns_ok _) (returns_ok _)

/-- When what follows returns for one result or for none. -/
theorem returns_bind {f : α → Except Fault β} {P : Prop} (after : ∀ a, Returns (f a) ↔ P) :
    Returns (x >>= f) ↔ Returns x ∧ P := by
  cases x with
  | error e => exact iff_of_false (not_returns_error e) fun h => not_returns_error e h.1
  | ok a => exact (after a).trans (and_iff_right (returns_ok a)).symm

end Returns

theorem puts_append {text : List UInt8} (noNul : ∀ c ∈ text, c ≠ 0) (rest : List UInt8) :
    puts (text ++ [0] ++ rest) = .ok text := by
  induction text with
  | nil => rfl
  | cons c text ih =>
    rw [List.forall_mem_cons] at noNul
    show puts (c :: (text ++ [0] ++ rest)) = _
    rw [puts, if_neg noNul.1, ih noNul.2]
    rfl

theorem puts_inMemory (s : CString) : puts (inMemory s) = .ok s.bytes := by
  have h := puts_append s.noNul []
  rwa [List.append_nil] at h

/-! ## The conversions -/

/-- The bases that are used. -/
def two : Base := ⟨2, by decide, by decide⟩
def ten : Base := ⟨10, by decide, by decide⟩
def sixteen : Base := ⟨16, by decide, by decide⟩

section Conversions

open Itoa

variable (buf : Vector UInt8 32) (value : BitVec 64)

theorem putBuf_returns_iff (base : Base) (value : ℤ) :
    Returns (putBuf (withText (numeralOf base value) buf.toList)) ↔
      (numeralOf base value).length < 32 := by
  rw [withText, Vector.length_toList]
  split_ifs with hfits
  · rw [putBuf, puts_append (numeralOf_ne_zero value)]
    exact iff_of_true (returns_ok _) hfits
  · exact iff_of_false (not_returns_error _) hfits

theorem toInt_bounds : -2 ^ 63 ≤ value.toInt ∧ value.toInt < 2 ^ 63 :=
  ⟨BitVec.le_toInt value, BitVec.toInt_lt⟩

theorem length_numeralOf_lt {base : Base} (ge : 10 ≤ base.val) {v : ℤ} (small : v.natAbs < 2 ^ 64) :
    (numeralOf base v).length < 32 := by
  have hlog : Nat.log base.val.toNat v.natAbs < 20 := by
    apply Nat.log_lt_of_lt_pow'
    · decide
    · calc v.natAbs < 2 ^ 64 := small
        _ ≤ 10 ^ 20 := by decide
        _ ≤ base.val.toNat ^ 20 := Nat.pow_le_pow_left (by omega) 20
  rw [length_numeralOf]
  split_ifs <;> omega

theorem length_binary_lt_iff (v : ℤ) :
    (numeralOf two v).length < 32 ↔ -2 ^ 30 < v ∧ v < 2 ^ 31 := by
  have hlog : ∀ k, 0 < k → (Nat.log 2 v.natAbs < k ↔ v.natAbs < 2 ^ k) := by
    intro k hk
    rcases eq_or_ne v.natAbs 0 with hzero | hne
    · rw [hzero, Nat.log_zero_right]
      exact iff_of_true hk (by positivity)
    · exact Nat.log_lt_iff_lt_pow (by decide) hne
  have h₃₀ := hlog 30 (by decide)
  have h₃₁ := hlog 31 (by decide)
  rw [length_numeralOf, show two.val.toNat = 2 from rfl]
  split_ifs with hneg <;> omega

/-- One directive stays inside the buffer, unless it is `%b` of a large value. -/
theorem directive_returns_iff (c : UInt8) (arg : Arg) : Returns (directive buf c arg) ↔
    (c = 'b'.toUInt8 → -2 ^ 30 < arg.value.toInt ∧ arg.value.toInt < 2 ^ 31) := by
  have hint := toInt_bounds arg.value
  have hnat := arg.value.isLt
  have hd : itoa arg.value.toInt buf.toList 10 = withText (numeralOf ten _) _ := @itoa_eq ten _ _
  have hx : itoa arg.value.toInt buf.toList 16 = withText (numeralOf sixteen _) _ := @itoa_eq sixteen _ _
  have hp : utoa arg.value.toNat buf.toList 16 = withText (numeralOf sixteen _) _ := @utoa_eq sixteen _ _
  have hb : itoa arg.value.toInt buf.toList 2 = withText (numeralOf two _) _ := @itoa_eq two _ _
  unfold directive
  by_cases h₁ : c = 'd'.toUInt8
  · rw [if_pos h₁, hd, putBuf_returns_iff, h₁]
    exact iff_of_true (length_numeralOf_lt (by decide) (by omega)) fun h => absurd h (by decide)
  rw [if_neg h₁]
  by_cases h₂ : c = 'x'.toUInt8
  · rw [if_pos h₂, hx, putBuf_returns_iff, h₂]
    exact iff_of_true (length_numeralOf_lt (by decide) (by omega)) fun h => absurd h (by decide)
  rw [if_neg h₂]
  by_cases h₃ : c = 'p'.toUInt8
  · rw [if_pos h₃, hp, returns_map, putBuf_returns_iff, h₃]
    exact iff_of_true (length_numeralOf_lt (by decide) (by omega)) fun h => absurd h (by decide)
  rw [if_neg h₃]
  by_cases h₄ : c = 'b'.toUInt8
  · rw [if_pos h₄, hb, putBuf_returns_iff, length_binary_lt_iff]
    exact ⟨fun h _ => h, fun h => h h₄⟩
  rw [if_neg h₄]
  refine iff_of_true ?_ fun h => absurd h h₄
  split_ifs
  · exact returns_ok _
  · rw [puts_inMemory]
    exact returns_ok _
  · exact returns_ok _

end Conversions

/-! ## The whole format -/

/-- The directives of a format, by their characters; `none` for a `%` at the end. -/
def directives : List UInt8 → List (Option UInt8)
  | [] => []
  | c :: format =>
    if c = '%'.toUInt8 then
      match format with
      | [] => [none]
      | d :: format => some d :: directives format
    else directives format

/-- The directive is complete, and the value of a `%b` fits into the buffer. -/
def Fits (c : Option UInt8) (arg : Arg) : Prop :=
  c ≠ none ∧ (c = some 'b'.toUInt8 → -2 ^ 30 < arg.value.toInt ∧ arg.value.toInt < 2 ^ 31)

section Format

variable (buf : Vector UInt8 32)

theorem formatted_nil (format : List UInt8) : formatted buf format [] = puts format := by
  cases format <;> rfl

theorem formatted_nil_returns {format : List UInt8} (noNul : ∀ c ∈ format, c ≠ 0) :
    Returns (formatted buf (format ++ [0]) []) := by
  have h := puts_append noNul []
  rw [List.append_nil] at h
  rw [formatted_nil, h]
  exact returns_ok _

theorem formatted_directive (d : UInt8) (format : List UInt8) (arg : Arg) (args : List Arg) :
    Returns (formatted buf ('%'.toUInt8 :: d :: format) (arg :: args)) ↔
      Returns (directive buf d arg) ∧ Returns (formatted buf format args) := by
  rw [formatted, if_neg (by decide), if_pos rfl]
  apply returns_bind
  intro text
  exact returns_map fun rest => text ++ rest

theorem formatted_of_ne {c : UInt8} (noNul : c ≠ 0) (ne : c ≠ '%'.toUInt8) (format : List UInt8)
    (arg : Arg) (args : List Arg) : formatted buf (c :: format) (arg :: args) =
      (formatted buf format (arg :: args)).map (c :: ·) := by
  cases format <;> simp [formatted, noNul, ne]

theorem directives_of_ne {c : UInt8} (ne : c ≠ '%'.toUInt8) (format : List UInt8) :
    directives (c :: format) = directives format := by
  cases format <;> simp [directives, ne]

/-- Printing stays in bounds exactly if all directives do that get an argument. -/
theorem formatted_returns_iff {format : List UInt8} (noNul : ∀ c ∈ format, c ≠ 0) (args : List Arg) :
    Returns (formatted buf (format ++ [0]) args) ↔ ∀ x ∈ (directives format).zip args, Fits x.1 x.2 := by
  induction format using directives.induct generalizing args with
  | case1 =>
    cases args with
    | nil => simp [formatted, puts]
    | cons arg args => simp [formatted, directives]
  | case2 =>
    cases args with
    | nil => exact iff_of_true (formatted_nil_returns buf noNul) (by simp)
    | cons arg args =>
      -- the pointer goes on behind the terminator
      have hread : ¬Returns (formatted buf [] args) := by
        cases args with
        | nil => exact not_returns_error _
        | cons arg args => exact not_returns_error _
      rw [List.singleton_append, formatted_directive]
      simp [hread, directives, Fits]
  | case3 d format ih =>
    cases args with
    | nil => exact iff_of_true (formatted_nil_returns buf noNul) (by simp)
    | cons arg args =>
      have hrest : ∀ c ∈ format, c ≠ 0 := fun c hc => noNul c (by simp [hc])
      rw [List.cons_append, List.cons_append, formatted_directive, directive_returns_iff, ih hrest]
      simp [directives, Fits]
  | case4 c format h ih =>
    rw [List.forall_mem_cons] at noNul
    rw [directives_of_ne h, ← ih noNul.2 args, List.cons_append]
    cases args with
    | nil => rw [formatted_nil, formatted_nil, puts, if_neg noNul.1, returns_map]
    | cons arg args => rw [formatted_of_ne buf noNul.1 h, returns_map]

/-- For every format and all arguments, `_printf` and `logE9` read the format up to its terminator
only and write inside the conversion buffer, exactly if no `%` at the end of the format gets an
argument and every `%b` gets a value between `-2 ^ 30` and `2 ^ 31`. -/
theorem printf_inBounds_iff (h : Heap) (s : VGAText) (format : CString) (args : List Arg) :
    (Returns (s._printf h buf (inMemory format) args) ∧ Returns (logE9 buf (inMemory format) args)) ↔
      ∀ x ∈ (directives format.bytes).zip args, Fits x.1 x.2 := by
  have hformatted := formatted_returns_iff buf format.noNul args
  unfold VGAText._printf logE9
  rw [returns_map, and_self]
  exact hformatted

end Format

/-- The buffer of a first call. -/
def blank : Vector UInt8 32 := Vector.replicate 32 0

/-- The format `%b`. -/
def binary : CString where
  bytes := ['%'.toUInt8, 'b'.toUInt8]
  noNul := by simp [Char.toUInt8]

/-- The value 2³¹ has 32 binary digits. -/
theorem not_printf_inBounds : ¬∀ (buf : Vector UInt8 32) (h : Heap) (s : VGAText) (format : CString)
    (args : List Arg), Returns (s._printf h buf (inMemory format) args) ∧
      Returns (logE9 buf (inMemory format) args) := by
  intro hall
  have hlog := (hall blank ⟨false, fun mem _ => (0, mem), fun mem _ _ => (0, mem), fun mem _ => mem⟩
    ⟨0, 0, 7, false, 0, 0, 0, 0, 0, fun _ => 0, []⟩ binary [⟨0x80000000#64, ⟨[], by simp⟩⟩]).2
  have hfits := (formatted_returns_iff blank binary.noNul _).1 hlog
  have hdirective := hfits (some 'b'.toUInt8, ⟨0x80000000#64, ⟨[], by simp⟩⟩) (by simp [binary, directives])
  exact absurd (hdirective.2 rfl).2 (by decide)

end Printf
