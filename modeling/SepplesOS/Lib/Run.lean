import Mathlib

/-!
# Computations that may halt

A computation with fuel ends with a value, halts in a state, or runs out of fuel.  `Sat` says what
holds in each of the three cases, and has a rule for each way to put computations together.
-/

/-- How a computation ends. -/
inductive Run (σ : Type) (α : Type)
  | done (a : α)
  | halted (s : σ)
  | running

namespace Run

variable {σ α β : Type}

/-- One computation after another. -/
def bind (x : Run σ α) (f : α → Run σ β) : Run σ β :=
  match x with
  | done a => f a
  | halted s => halted s
  | running => running

instance : Monad (Run σ) where
  pure := done
  bind := bind

theorem bind_assoc {γ : Type} (x : Run σ α) (f : α → Run σ β) (g : β → Run σ γ) :
    x >>= f >>= g = x >>= fun a => f a >>= g := by
  cases x with
  | done a => rfl
  | halted s => rfl
  | running => rfl

theorem id_map (x : Run σ α) : id <$> x = x := by
  cases x with
  | done a => rfl
  | halted s => rfl
  | running => rfl

instance : LawfulMonad (Run σ) := LawfulMonad.mk' _ id_map (fun _ _ => rfl) bind_assoc

/-- A partial function that halts in `s` where it has no value. -/
def ofOption (s : σ) : Option α → Run σ α
  | none => halted s
  | some a => done a

@[simp] theorem done_bind (a : α) (f : α → Run σ β) : (done a >>= f : Run σ β) = f a := rfl

@[simp] theorem halted_bind (s : σ) (f : α → Run σ β) : (halted s >>= f : Run σ β) = halted s := rfl

@[simp] theorem running_bind (f : α → Run σ β) : (running >>= f : Run σ β) = running := rfl

theorem bind_eq_done {x : Run σ α} {f : α → Run σ β} {b : β} (h : (x >>= f : Run σ β) = done b) :
    ∃ a, x = done a ∧ f a = done b := by
  cases x with
  | done a => exact ⟨a, rfl, h⟩
  | halted s => cases h
  | running => cases h

@[simp] theorem ofOption_none (s : σ) : (ofOption s none : Run σ α) = halted s := rfl

@[simp] theorem ofOption_some (s : σ) (a : α) : ofOption s (some a) = done a := rfl

/-- The value of a computation that ends with one. -/
def value : Run σ α → Option α
  | done a => some a
  | _ => none

/-- A computation whose value has been looked at has one. -/
theorem exists_done_of_value {x : Run σ α} {f : α → β} {b : β} (h : x.value.map f = some b) :
    ∃ a, x = done a ∧ f a = b := by
  cases x with
  | done a => exact ⟨a, rfl, Option.some.inj h⟩
  | halted s => cases h
  | running => cases h

/-- The value satisfies `post`, the state of a halt satisfies `stop`, and the fuel does not run out
unless `short`. -/
@[irreducible] def Sat (x : Run σ α) (post : α → Prop) (stop : σ → Prop) (short : Prop) : Prop :=
  match x with
  | done a => post a
  | halted s => stop s
  | running => short

section Sat

variable {x : Run σ α} {post post' : α → Prop} {stop stop' : σ → Prop} {short short' : Prop}

@[simp] theorem sat_done_iff {a : α} : Sat (done a) post stop short ↔ post a := by
  unfold Sat
  exact Iff.rfl

@[simp] theorem sat_halted_iff {s : σ} : Sat (halted s : Run σ α) post stop short ↔ stop s := by
  unfold Sat
  exact Iff.rfl

@[simp] theorem sat_running_iff : Sat (running : Run σ α) post stop short ↔ short := by
  unfold Sat
  exact Iff.rfl

theorem sat_done {a : α} (h : post a) : Sat (done a) post stop short := sat_done_iff.2 h

theorem sat_halted {s : σ} (h : stop s) : Sat (halted s : Run σ α) post stop short :=
  sat_halted_iff.2 h

theorem sat_running (h : short) : Sat (running : Run σ α) post stop short := sat_running_iff.2 h

theorem Sat.mono (h : Sat x post stop short) (hpost : ∀ a, post a → post' a)
    (hstop : ∀ s, stop s → stop' s) (hshort : short → short') : Sat x post' stop' short' := by
  cases x with
  | done a => exact sat_done (hpost a (sat_done_iff.1 h))
  | halted s => exact sat_halted (hstop s (sat_halted_iff.1 h))
  | running => exact sat_running (hshort (sat_running_iff.1 h))

/-- Enough fuel for a step is enough, whatever the whole needs. -/
theorem Sat.enough (h : Sat x post stop False) : Sat x post stop short :=
  h.mono (fun _ ha => ha) (fun _ hs => hs) False.elim

theorem Sat.bind {f : α → Run σ β} {post' : β → Prop} (h : Sat x post stop short)
    (hf : ∀ a, post a → Sat (f a) post' stop short) : Sat (x >>= f) post' stop short := by
  cases x with
  | done a => exact hf a (sat_done_iff.1 h)
  | halted s => exact sat_halted (sat_halted_iff.1 h)
  | running => exact sat_running (sat_running_iff.1 h)

/-- The same with a halt of the first computation seen apart. -/
theorem sat_ofOption {o : Option α} {s : σ} (some : ∀ a, o = some a → post a)
    (none : o = none → stop s) : Sat (ofOption s o) post stop short := by
  cases o with
  | none => exact sat_halted (none rfl)
  | some a => exact sat_done (some a rfl)

theorem Sat.of_done {a : α} (h : Sat x post stop short) (heq : x = done a) : post a := by
  rw [heq] at h
  exact sat_done_iff.1 h

theorem Sat.of_halted {s : σ} (h : Sat x post stop short) (heq : x = halted s) : stop s := by
  rw [heq] at h
  exact sat_halted_iff.1 h

/-- With enough fuel and no halt there is a value. -/
theorem Sat.exists_done (h : Sat x post (fun _ => False) False) : ∃ a, x = done a ∧ post a := by
  cases x with
  | done a => exact ⟨a, rfl, sat_done_iff.1 h⟩
  | halted s => exact (sat_halted_iff.1 h).elim
  | running => exact (sat_running_iff.1 h).elim

end Sat

end Run
