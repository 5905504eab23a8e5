import SepplesOS.Lib.Bytes

/-!
# Blocks of memory

A buffer with its length.  An access has no value (`none`) when it touches a byte outside, so that a
computation written with these accesses has a value exactly when all of them are inside.
-/

/-- The bytes of a block and their number. -/
structure Block where
  bytes : Buf
  len : ℕ

namespace Block

variable (b : Block)

/-- The byte at an index. -/
def u8? (off : ℕ) : Option UInt8 := if off < b.len then some (b.bytes off) else none

/-- The `u16` at an index. -/
def u16? (off : ℕ) : Option UInt16 := if off + 2 ≤ b.len then some (b.bytes.u16 off) else none

/-- The `u32` at an index. -/
def u32? (off : ℕ) : Option UInt32 := if off + 4 ≤ b.len then some (b.bytes.u32 off) else none

/-- The `n` bytes from an index on, as the source of a copy. -/
def slice? (off n : ℕ) : Option Buf :=
  if n = 0 ∨ off + n ≤ b.len then some fun k => b.bytes (off + k) else none

/-- `memcpy(dest + off, src, n)`. -/
def memcpy? (dest : Block) (off : ℕ) (src : Block) (n : ℕ) : Option Block :=
  if off + n ≤ dest.len ∧ n ≤ src.len then
    some { dest with bytes := dest.bytes.memcpy off src.bytes n }
  else none

variable {b}

theorem u8?_of_lt {off : ℕ} (inside : off < b.len) : b.u8? off = some (b.bytes off) := if_pos inside

theorem u16?_of_le {off : ℕ} (inside : off + 2 ≤ b.len) : b.u16? off = some (b.bytes.u16 off) :=
  if_pos inside

theorem u32?_of_le {off : ℕ} (inside : off + 4 ≤ b.len) : b.u32? off = some (b.bytes.u32 off) :=
  if_pos inside

theorem u16?_eq_some_iff {off : ℕ} {v : UInt16} :
    b.u16? off = some v ↔ off + 2 ≤ b.len ∧ b.bytes.u16 off = v := by
  unfold u16?
  rw [Option.ite_none_right_eq_some, Option.some.injEq]

theorem u32?_eq_some_iff {off : ℕ} {v : UInt32} :
    b.u32? off = some v ↔ off + 4 ≤ b.len ∧ b.bytes.u32 off = v := by
  unfold u32?
  rw [Option.ite_none_right_eq_some, Option.some.injEq]

theorem slice?_eq_some {off n : ℕ} {src : Buf} (access : b.slice? off n = some src) :
    n = 0 ∨ off + n ≤ b.len := by
  by_contra outside
  unfold slice? at access
  rw [if_neg outside] at access
  nomatch access

theorem u8?_eq_none {off : ℕ} (outside : ¬off < b.len) : b.u8? off = none := if_neg outside

theorem u32?_eq_none {off : ℕ} (outside : ¬off + 4 ≤ b.len) : b.u32? off = none := if_neg outside

theorem memcpy?_of_le {src : Block} {off n : ℕ} (dest : off + n ≤ b.len) (source : n ≤ src.len) :
    b.memcpy? off src n = some { b with bytes := b.bytes.memcpy off src.bytes n } :=
  if_pos ⟨dest, source⟩

end Block
