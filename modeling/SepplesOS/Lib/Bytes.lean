import Mathlib

/-!
# Byte buffers

A buffer is the function from an index to the byte there.  `leNat` reads a little-endian number
and `memcpy` copies a block of bytes into a buffer.
-/

/-- The bytes from a pointer on. -/
abbrev Buf := ℕ → UInt8

namespace Buf

/-- The little-endian number in the `n` bytes from `off` on. -/
def leNat (buf : Buf) (off : ℕ) : ℕ → ℕ
  | 0 => 0
  | n + 1 => (buf off).toNat + 256 * leNat buf (off + 1) n

/-- A `u16` read through an unaligned pointer. -/
def u16 (buf : Buf) (off : ℕ) : UInt16 := UInt16.ofNat (buf.leNat off 2)

/-- A `u32` read through an unaligned pointer. -/
def u32 (buf : Buf) (off : ℕ) : UInt32 := UInt32.ofNat (buf.leNat off 4)

/-- The `n` bytes from `off` on. -/
def bytes (buf : Buf) (off n : ℕ) : List UInt8 := (List.range n).map fun i => buf (off + i)

/-- `memcpy(dest + off, src, n)`. -/
def memcpy (dest : Buf) (off : ℕ) (src : Buf) (n : ℕ) : Buf := fun k =>
  if off ≤ k ∧ k < off + n then src (k - off) else dest k

/-- Writes the `n` low bytes of `w` from `off` on, in little-endian order. -/
def putLeNat (buf : Buf) (off n w : ℕ) : Buf := fun k =>
  if off ≤ k ∧ k < off + n then UInt8.ofNat (w / 256 ^ (k - off)) else buf k

/-- A bytewise copy of `n` bytes, from the first one to the last, inside one buffer. -/
def copy (buf : Buf) (dst src : ℕ) : ℕ → Buf
  | 0 => buf
  | n + 1 => copy (Function.update buf dst (buf src)) (dst + 1) (src + 1) n

/-- Equal bytes are equal numbers, wherever they lie. -/
theorem leNat_shift {b₁ b₂ : Buf} {off₁ off₂ n : ℕ} (h : ∀ i < n, b₁ (off₁ + i) = b₂ (off₂ + i)) :
    b₁.leNat off₁ n = b₂.leNat off₂ n := by
  induction n generalizing off₁ off₂ with
  | zero => rfl
  | succ n ih =>
    have h0 := h 0 (Nat.succ_pos n)
    rw [Nat.add_zero, Nat.add_zero] at h0
    rw [leNat, leNat, h0, ih fun i hi => ?_]
    simpa [Nat.add_assoc, Nat.add_comm 1 i] using h (i + 1) (by omega)

theorem leNat_congr {b₁ b₂ : Buf} {off n : ℕ} (h : ∀ i < n, b₁ (off + i) = b₂ (off + i)) :
    b₁.leNat off n = b₂.leNat off n :=
  leNat_shift h

theorem u16_congr {b₁ b₂ : Buf} {off : ℕ} (h : ∀ i < 2, b₁ (off + i) = b₂ (off + i)) :
    b₁.u16 off = b₂.u16 off :=
  congrArg UInt16.ofNat (leNat_congr h)

theorem u32_congr {b₁ b₂ : Buf} {off : ℕ} (h : ∀ i < 4, b₁ (off + i) = b₂ (off + i)) :
    b₁.u32 off = b₂.u32 off :=
  congrArg UInt32.ofNat (leNat_congr h)

theorem bytes_congr {b₁ b₂ : Buf} {off n : ℕ} (h : ∀ i < n, b₁ (off + i) = b₂ (off + i)) :
    b₁.bytes off n = b₂.bytes off n :=
  List.map_congr_left fun i hi => h i (List.mem_range.1 hi)

@[simp] theorem length_bytes (buf : Buf) (off n : ℕ) : (buf.bytes off n).length = n := by
  simp [bytes]

/-- `n` bytes hold less than `256 ^ n`. -/
theorem leNat_lt (buf : Buf) (off n : ℕ) : buf.leNat off n < 256 ^ n := by
  induction n generalizing off with
  | zero => exact Nat.one_pos
  | succ n ih =>
    have hbyte : (buf off).toNat < 256 := (buf off).toNat_lt
    have hrest := ih (off + 1)
    rw [leNat, pow_succ]
    omega

/-- A number of `m + n` bytes is that of the `m` low ones and that of the others. -/
theorem leNat_add (buf : Buf) (off m n : ℕ) :
    buf.leNat off (m + n) = buf.leNat off m + 256 ^ m * buf.leNat (off + m) n := by
  induction m generalizing off with
  | zero => simp [leNat]
  | succ m ih =>
    rw [Nat.add_right_comm, leNat, leNat, ih, pow_succ, show off + (m + 1) = off + 1 + m by omega]
    ring

theorem leNat_eq_zero {buf : Buf} {off n : ℕ} (h : ∀ i < n, buf (off + i) = 0) :
    buf.leNat off n = 0 := by
  induction n generalizing off with
  | zero => rfl
  | succ n ih =>
    have h0 := h 0 (Nat.succ_pos n)
    rw [Nat.add_zero] at h0
    rw [leNat, h0, ih fun i hi => ?_]
    · rfl
    · simpa [Nat.add_assoc, Nat.add_comm 1 i] using h (i + 1) (by omega)

theorem putLeNat_of_not {buf : Buf} {off n w k : ℕ} (h : ¬(off ≤ k ∧ k < off + n)) :
    buf.putLeNat off n w k = buf k :=
  if_neg h

/-- What was written is read back. -/
theorem leNat_putLeNat (buf : Buf) (off n w : ℕ) :
    (buf.putLeNat off n w).leNat off n = w % 256 ^ n := by
  -- read from the byte `i` on
  suffices h : ∀ m i, i + m = n →
      (buf.putLeNat off n w).leNat (off + i) m = w / 256 ^ i % 256 ^ m by
    simpa using h n 0 (Nat.zero_add n)
  intro m
  induction m with
  | zero =>
    intro i _
    rw [pow_zero, Nat.mod_one]
    rfl
  | succ m ih =>
    intro i hi
    have hbyte : (buf.putLeNat off n w (off + i)).toNat = w / 256 ^ i % 256 := by
      unfold putLeNat
      rw [if_pos ⟨by omega, by omega⟩, Nat.add_sub_cancel_left]
      exact UInt8.toNat_ofNat'
    rw [leNat, hbyte, Nat.add_assoc, ih (i + 1) (by omega), pow_succ 256 i, pow_succ 256 m,
      ← Nat.div_div_eq_div_mul, Nat.mul_comm (256 ^ m) 256, Nat.mod_mul]

theorem copy_of_not {buf : Buf} {dst src n k : ℕ} (h : ¬(dst ≤ k ∧ k < dst + n)) :
    buf.copy dst src n k = buf k := by
  induction n generalizing buf dst src with
  | zero => rfl
  | succ n ih =>
    rw [copy, ih (by omega), Function.update_of_ne (by omega)]

/-- A copy to a lower address is exact, also when the two blocks overlap, and so is one to an address
behind the block. -/
theorem copy_exact {buf : Buf} {dst src n i : ℕ} (clear : dst ≤ src ∨ src + n ≤ dst) (hi : i < n) :
    buf.copy dst src n (dst + i) = buf (src + i) := by
  induction n generalizing buf dst src i with
  | zero => exact absurd hi (Nat.not_lt_zero i)
  | succ n ih =>
    rw [copy]
    cases i with
    | zero =>
      rw [copy_of_not (by omega)]
      exact Function.update_self _ _ _
    | succ i =>
      have hnext := @ih (Function.update buf dst (buf src)) (dst + 1) (src + 1) i (by omega)
        (Nat.lt_of_succ_lt_succ hi)
      rw [show dst + (i + 1) = dst + 1 + i by omega, hnext,
        show src + (i + 1) = src + 1 + i by omega]
      exact Function.update_of_ne (by omega) _ _

end Buf
