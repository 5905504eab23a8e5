import SepplesOS.Lib.Run

/-!
# More fuel

A computation with more fuel ends as it did with less.  Rules for computations that are built with
`bind`; a loop satisfies `Le` when each of its rounds does.
-/

namespace Run

variable {σ α β : Type}

/-- The second computation is the first one, unless that ran out of fuel. -/
def Le (x y : Run σ α) : Prop := x = running ∨ x = y

section Le

variable {x y z : Run σ α}

theorem Le.refl (x : Run σ α) : Le x x := Or.inr rfl

theorem running_le (y : Run σ α) : Le running y := Or.inl rfl

theorem Le.trans (first : Le x y) (second : Le y z) : Le x z := by
  rcases first with rfl | rfl
  · exact running_le z
  · exact second

theorem Le.bind {f g : α → Run σ β} (h : Le x y) (hf : ∀ a, Le (f a) (g a)) :
    Le (x >>= f) (y >>= g) := by
  rcases h with rfl | rfl
  · exact running_le _
  · cases x with
    | done a => exact hf a
    | halted s => exact Le.refl _
    | running => exact running_le _

theorem Le.done {a : α} (h : Le x y) (hx : x = Run.done a) : y = Run.done a := by
  rcases h with rfl | rfl
  · cases hx
  · exact hx

theorem Le.halted {s : σ} (h : Le x y) (hx : x = Run.halted s) : y = Run.halted s := by
  rcases h with rfl | rfl
  · cases hx
  · exact hx

/-- What holds of one round more holds of any number of them. -/
theorem le_of_succ {f : ℕ → Run σ α} (succ : ∀ n, Le (f n) (f (n + 1))) {n k : ℕ} (le : n ≤ k) :
    Le (f n) (f k) := by
  induction k, le using Nat.le_induction with
  | base => exact Le.refl _
  | succ k _ ih => exact ih.trans (succ k)

/-- A computation that ends with some fuel does so as with any other. -/
theorem done_of_ends {f : ℕ → Run σ α} {a : α} (succ : ∀ n, Le (f n) (f (n + 1))) {n k : ℕ}
    (ends : f n ≠ running) (result : f k = done a) : f n = done a := by
  have hn := (le_of_succ succ (Nat.le_add_right n k)).resolve_left ends
  have hk := (le_of_succ succ (Nat.le_add_left k n)).done result
  exact hn.trans hk

/-- Two computations that end with a value have the same one. -/
theorem done_unique {f : ℕ → Run σ α} {a b : α} (succ : ∀ n, Le (f n) (f (n + 1))) {n k : ℕ}
    (result : f n = done a) (result' : f k = done b) : a = b := by
  have hn := (le_of_succ succ (Nat.le_add_right n k)).done result
  have hk := (le_of_succ succ (Nat.le_add_left k n)).done result'
  exact done.inj (hn.symm.trans hk)

end Le

/-- With enough fuel the computation ends with a value. -/
def Ends (f : ℕ → Run σ α) (a : α) : Prop := ∃ n, ∀ fuel, n < fuel → f fuel = done a

theorem Ends.unique {f : ℕ → Run σ α} {a b : α} (h : Ends f a) (h' : Ends f b) : a = b := by
  obtain ⟨n, h⟩ := h
  obtain ⟨k, h'⟩ := h'
  have heq := (h (n + k + 1) (by omega)).symm.trans (h' (n + k + 1) (by omega))
  exact done.inj heq

end Run
