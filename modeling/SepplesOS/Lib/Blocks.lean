import SepplesOS.Lib.Run

/-!
# Memories of blocks

A memory maps the addresses of its live blocks to what they hold.  A block at an address that is in use,
or at the null pointer, cannot be had, and an access to what is not a live block is a fault.
-/

/-- Why a computation over blocks halts. -/
inductive BlockFault
  | dangling
  | exhausted
  | fatal

/-- The live blocks by their addresses. -/
abbrev Blocks (α : Type) := ℕ → Option α

namespace Blocks

variable {α : Type}

/-- What a live block holds. -/
def get (h : Blocks α) (p : ℕ) : Run BlockFault α := .ofOption .dangling (h p)

/-- A new block at `p`. -/
def alloc (h : Blocks α) (p : ℕ) (a : α) : Run BlockFault (Blocks α) :=
  if p ≠ 0 ∧ h p = none then .done (Function.update h p (some a)) else .halted .exhausted

/-- A change of a live block. -/
def modify (h : Blocks α) (p : ℕ) (f : α → α) : Run BlockFault (Blocks α) := do
  let a ← h.get p
  .done (Function.update h p (some (f a)))

/-- The block at `p` is given back; nothing for the null pointer. -/
def free (h : Blocks α) (p : ℕ) : Run BlockFault (Blocks α) :=
  if p = 0 then .done h
  else do
    let _ ← h.get p
    .done (Function.update h p none)

section Rules

variable {h : Blocks α} {p : ℕ} {a : α} {f : α → α}

theorem get_of_some (live : h p = some a) : h.get p = .done a := by
  unfold get
  rw [live]
  rfl

theorem alloc_of_fresh (ne : p ≠ 0) (fresh : h p = none) :
    h.alloc p a = .done (Function.update h p (some a)) := if_pos ⟨ne, fresh⟩

theorem modify_of_some (live : h p = some a) :
    h.modify p f = .done (Function.update h p (some (f a))) := by
  unfold modify
  rw [get_of_some live]
  rfl

theorem free_of_some (ne : p ≠ 0) (live : h p = some a) :
    h.free p = .done (Function.update h p none) := by
  unfold free
  rw [if_neg ne, get_of_some live]
  rfl

theorem free_null : h.free 0 = .done h := if_pos rfl

end Rules

end Blocks
