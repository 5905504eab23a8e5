import Mathlib

/-!
# NUL-terminated strings

A `CString` is the sequence of bytes before the terminator, with the proof that none of them is
NUL.  Pointers into such a string are modelled by the suffix they point at: reading through the
pointer is `head?` (the empty suffix reads the terminator) and advancing it is `tail`.
-/

/-- A C string: its bytes up to, and without, the terminating NUL. -/
structure CString where
  bytes : List UInt8
  noNul : ∀ b ∈ bytes, b ≠ 0

namespace CString

@[ext] theorem ext {s t : CString} (h : s.bytes = t.bytes) : s = t := by
  cases s; cases t; simp_all

/-- `strcmp(s, t) == 0` is equality of the bytes before the terminators. -/
instance : DecidableEq CString := fun s t =>
  decidable_of_iff (s.bytes = t.bytes) ⟨ext, fun h => h ▸ rfl⟩

/-- The C string that starts in a buffer: everything before the first NUL. -/
def ofBytes (buf : List UInt8) : CString where
  bytes := buf.takeWhile (· != 0)
  noNul b hb := by simpa using List.mem_takeWhile_imp hb

theorem bytes_ofBytes_of_noNul {buf : List UInt8} (h : ∀ b ∈ buf, b ≠ 0) :
    (ofBytes buf).bytes = buf :=
  List.takeWhile_eq_self_iff.2 fun b hb => by simpa using h b hb

/-- A buffer is read back whole exactly when it has no NUL inside. -/
theorem bytes_ofBytes_eq_iff {buf : List UInt8} :
    (ofBytes buf).bytes = buf ↔ ∀ b ∈ buf, b ≠ 0 :=
  ⟨fun h b hb => (ofBytes buf).noNul b (h.symm ▸ hb), bytes_ofBytes_of_noNul⟩

end CString
