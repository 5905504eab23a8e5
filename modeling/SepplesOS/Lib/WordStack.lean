import Mathlib

/-!
# A stack of words

Memory is a function from a byte address to the 8-byte word there; the stack grows downwards.
-/

namespace WordStack

/-- Pushes the words one after the other, from the stack pointer `rsp` on. -/
def pushAll (mem : ℕ → ℕ) (rsp : ℕ) : List ℕ → ℕ → ℕ
  | [] => mem
  | v :: vs => pushAll (Function.update mem (rsp - 8) v) (rsp - 8) vs

/-- Pushing leaves alone what lies at or above the stack pointer. -/
theorem pushAll_above {mem : ℕ → ℕ} {rsp : ℕ} {vs : List ℕ} (room : 8 * vs.length ≤ rsp) {a : ℕ}
    (above : rsp ≤ a) : pushAll mem rsp vs a = mem a := by
  induction vs generalizing mem rsp with
  | nil => rfl
  | cons v vs ih =>
    rw [List.length_cons] at room
    rw [pushAll, ih (by omega) (by omega), Function.update_of_ne (by omega)]

/-- The word pushed at position `i` is found `i + 1` words below the old stack pointer. -/
theorem pushAll_at {mem : ℕ → ℕ} {rsp : ℕ} {vs : List ℕ} (room : 8 * vs.length ≤ rsp) {i v : ℕ}
    (hv : vs[i]? = some v) : pushAll mem rsp vs (rsp - 8 * (i + 1)) = v := by
  induction vs generalizing mem rsp i with
  | nil => cases hv
  | cons w vs ih =>
    rw [List.length_cons] at room
    rw [pushAll]
    cases i with
    | zero =>
      cases hv
      rw [pushAll_above (by omega) (by omega), Function.update_self]
    | succ i =>
      have := @ih (Function.update mem (rsp - 8) w) (rsp - 8) (by omega) i hv
      rwa [Nat.sub_sub, show 8 + 8 * (i + 1) = 8 * (i + 1 + 1) by omega] at this

end WordStack
