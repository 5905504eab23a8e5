import Mathlib

/-!
# Two machines in lockstep

Partial operations on two kinds of states, which fail together or succeed together with one result
and related states.  Rules for operations that follow each other, for a loop that may end early and
for whole runs.
-/

namespace Lockstep

variable {σ τ α β ι : Type*}

/-- Both operations fail, or both succeed with one result and related states. -/
inductive Agree (R : σ → τ → Prop) : Option (α × σ) → Option (α × τ) → Prop
  | missing : Agree R none none
  | both {a : α} {s : σ} {t : τ} (rel : R s t) : Agree R (some (a, s)) (some (a, t))

section Agree

variable {R R' : σ → τ → Prop} {x : Option (α × σ)} {y : Option (α × τ)}

theorem Agree.mono (h : Agree R x y) (imp : ∀ s t, R s t → R' s t) : Agree R' x y := by
  cases h with
  | missing => exact .missing
  | both rel => exact .both (imp _ _ rel)

theorem Agree.map (f : α → β) (h : Agree R x y) :
    Agree R (x.map fun r => (f r.1, r.2)) (y.map fun r => (f r.1, r.2)) := by
  cases h with
  | missing => exact .missing
  | both rel => exact .both rel

/-- The first operation gives what the second one does. -/
theorem Agree.of_right (h : Agree R x y) {a : α} {t : τ} (hy : y = some (a, t)) :
    ∃ s, x = some (a, s) ∧ R s t := by
  subst hy
  cases h with
  | both rel => exact ⟨_, rfl, rel⟩

/-- The second operation gives what the first one does. -/
theorem Agree.of_left (h : Agree R x y) {a : α} {s : σ} (hx : x = some (a, s)) :
    ∃ t, y = some (a, t) ∧ R s t := by
  subst hx
  cases h with
  | both rel => exact ⟨_, rfl, rel⟩

end Agree

/-! ## A loop within a loop -/

/-- The inner loop of the second machine ends early with a result, or it is through and passes on to
the next round of the outer one.  The first machine has one loop, which then goes on with `rest`. -/
inductive Through (R : σ → τ → Prop) (rest : σ → Option (α × σ)) :
    Option (α × σ) → Option (Option α × τ) → Prop
  | missing : Through R rest none none
  | found {a : α} {s : σ} {t : τ} (rel : R s t) : Through R rest (some (a, s)) (some (some a, t))
  | through {s : σ} {t : τ} (rel : R s t) : Through R rest (rest s) (some (none, t))

section Through

variable {R : σ → τ → Prop} {rest rest' : σ → Option (α × σ)} {x : Option (α × σ)}
  {y : Option (Option α × τ)}

/-- The next round after an inner loop. -/
def andThen (y : Option (Option α × τ)) (next : τ → Option (Option α × τ)) :
    Option (Option α × τ) :=
  y.bind fun r => if r.1.isSome then some r else next r.2

theorem Through.andThen {next : τ → Option (Option α × τ)} (h : Through R rest x y)
    (again : ∀ s t, R s t → Through R rest' (rest s) (next t)) :
    Through R rest' x (andThen y next) := by
  cases h with
  | missing => exact .missing
  | found rel => exact .found rel
  | through rel => exact again _ _ rel

/-- A loop whose last round fails. -/
theorem Through.agree (h : Through R (fun _ => none) x y) {last : τ → Option (Option α × τ)}
    (fails : ∀ s t, R s t → last t = none) :
    Agree R (x.map fun r => (some r.1, r.2)) (Lockstep.andThen y last) := by
  cases h with
  | missing => exact .missing
  | found rel => exact .both rel
  | through rel =>
    unfold Lockstep.andThen
    rw [Option.bind_some, if_neg (by simp), fails _ _ rel]
    exact .missing

end Through

/-! ## Runs -/

/-- The results of operations in a row, and the state after them. -/
def run (step : ι → σ → Option (α × σ)) : List ι → σ → Option (List α × σ)
  | [], s => some ([], s)
  | i :: is, s => (step i s).bind fun r => (run step is r.2).map fun rs => (r.1 :: rs.1, rs.2)

/-- Each operation is allowed in the state that it starts in. -/
def Along (allowed : ι → σ → Prop) (step : ι → σ → Option (α × σ)) : List ι → σ → Prop
  | [], _ => True
  | i :: is, s => allowed i s ∧ ∀ a s', step i s = some (a, s') → Along allowed step is s'

section Runs

/-- A run of one operation and then others. -/
theorem run_cons_some {step : ι → σ → Option (α × σ)} {i : ι} {is : List ι} {s s' : σ} {as : List α}
    (h : run step (i :: is) s = some (as, s')) :
    ∃ a s₁ as₁, step i s = some (a, s₁) ∧ run step is s₁ = some (as₁, s') ∧ as = a :: as₁ := by
  rw [run] at h
  obtain ⟨⟨a, s₁⟩, hstep, hmap⟩ := Option.bind_eq_some_iff.1 h
  obtain ⟨⟨as₁, s₂⟩, hrun, heq⟩ := Option.map_eq_some_iff.1 hmap
  cases heq
  exact ⟨a, s₁, as₁, hstep, hrun, rfl⟩

/-- A run goes on from where another one ends. -/
theorem run_append {step : ι → σ → Option (α × σ)} {is js : List ι} {s s' s'' : σ} {as bs : List α}
    (first : run step is s = some (as, s')) (second : run step js s' = some (bs, s'')) :
    run step (is ++ js) s = some (as ++ bs, s'') := by
  induction is generalizing s as with
  | nil =>
    cases first
    exact second
  | cons i is ih =>
    obtain ⟨a, s₁, as₁, hstep, hrun, rfl⟩ := run_cons_some first
    rw [List.cons_append, run, hstep, Option.bind_some, ih hrun]
    rfl

theorem Along.append {allowed : ι → σ → Prop} {step : ι → σ → Option (α × σ)} {is js : List ι}
    {s s' : σ} {as : List α} (along : Along allowed step is s)
    (first : run step is s = some (as, s')) (second : Along allowed step js s') :
    Along allowed step (is ++ js) s := by
  induction is generalizing s as with
  | nil =>
    cases first
    exact second
  | cons i is ih =>
    obtain ⟨a, s₁, as₁, hstep, hrun, rfl⟩ := run_cons_some first
    refine ⟨along.1, fun b t ht => ?_⟩
    rw [hstep] at ht
    cases ht
    exact ih (along.2 a s₁ hstep) hrun

variable {R : σ → τ → Prop} {allowed : ι → σ → Prop} {step : ι → σ → Option (α × σ)}
  {step' : ι → τ → Option (α × τ)}

/-- Machines that agree in every allowed step agree in every run. -/
theorem run_agree (agree : ∀ i s t, R s t → allowed i s → Agree R (step i s) (step' i t))
    {is : List ι} {s : σ} {t : τ} (rel : R s t) (along : Along allowed step is s) :
    Agree R (run step is s) (run step' is t) := by
  induction is generalizing s t with
  | nil => exact .both rel
  | cons i is ih =>
    obtain ⟨hallowed, hrest⟩ := along
    have hstep := agree i s t rel hallowed
    rw [run, run]
    generalize hs : step i s = r at hstep
    generalize step' i t = r' at hstep
    cases hstep with
    | missing => exact .missing
    | both hrel =>
      have hrun := ih hrel (hrest _ _ hs)
      exact hrun.map _

end Runs

end Lockstep
