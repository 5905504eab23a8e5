import Mathlib

/-!
# Coherent memory

What a memory is for: a load returns what the last access to its address has left there.  The events are
those of all users of the memory together, and some addresses may be lost on the way.  A system whose
steps keep what it holds, but for what they store or lose, has coherent runs only.
-/

namespace Coherence

variable {K V : Type*}

/-- What happens to a memory: an access with the value that it returns or leaves, or the loss of some
addresses. -/
inductive Event (K V : Type*)
  | load (k : K) (v : V)
  | store (k : K) (v : V)
  | lose (gone : Set K)

/-- The value that is at `k` after the event. -/
def Event.Leaves (k : K) (v : V) (e : Event K V) : Prop := e = .load k v ∨ e = .store k v

/-- Something is stored at `k`, or `k` is lost. -/
def Event.Changes (k : K) : Event K V → Prop
  | .load _ _ => False
  | .store k' _ => k' = k
  | .lose gone => k ∈ gone

/-- Each load returns what the last access to the same address has left. -/
def Coherent (events : List (Event K V)) : Prop :=
  ∀ before e between k v w after, events = before ++ e :: between ++ .load k w :: after →
    e.Leaves k v → (∀ e' ∈ between, ¬e'.Changes k) → w = v

/-- From one state to the next, what is held at each address is kept, but for what is stored or lost; and
a value that is loaded or stored is held afterwards. -/
def Event.Keeps (held held' : K → V → Prop) (e : Event K V) : Prop :=
  (∀ k v, e.Leaves k v → held' k v) ∧ ∀ k v, ¬e.Changes k → held k v → held' k v

/-- The runs of a system from its initial states. -/
inductive Runs {S : Type*} (initial : S → Prop) (step : S → Event K V → S → Prop) :
    List (Event K V) → S → Prop
  | start {s : S} (init : initial s) : Runs initial step [] s
  | step {events : List (Event K V)} {s s' : S} {e : Event K V} (run : Runs initial step events s)
    (next : step s e s') : Runs initial step (events ++ [e]) s'

section Runs

variable {S : Type*} {initial : S → Prop} {step : S → Event K V → S → Prop} {inv : S → Prop}
  {events : List (Event K V)} {s : S}

/-- What the steps keep holds after each run. -/
theorem Runs.invariant (run : Runs initial step events s) (init : ∀ s, initial s → inv s)
    (keeps : ∀ s e s', inv s → step s e s' → inv s') : inv s := by
  induction run with
  | start h => exact init _ h
  | step _ next ih => exact keeps _ _ _ ih next

/-- The value that the last access to an address has left is held there. -/
theorem Runs.held {held : S → K → V → Prop} (run : Runs initial step events s)
    (init : ∀ s, initial s → inv s) (next : ∀ s e s', inv s → step s e s' → inv s')
    (keeps : ∀ s e s', inv s → step s e s' → e.Keeps (held s) (held s')) {k : K} {v : V}
    {before between : List (Event K V)} {e : Event K V} (split : events = before ++ e :: between)
    (leaves : e.Leaves k v) (unchanged : ∀ e' ∈ between, ¬e'.Changes k) : held s k v := by
  induction run generalizing between with
  | start => simp at split
  | @step events s s' last run hlast ih =>
    obtain ⟨hleaves, hkeeps⟩ := keeps s last s' (run.invariant init next) hlast
    rcases List.eq_nil_or_concat' between with rfl | ⟨between, e', rfl⟩
    · obtain ⟨-, heq⟩ := List.append_inj' split rfl
      rw [(List.cons.inj heq).1] at hleaves
      exact hleaves k v leaves
    · have hsplit : events ++ [last] = (before ++ e :: between) ++ [e'] := by simpa using split
      obtain ⟨hevents, heq⟩ := List.append_inj' hsplit rfl
      apply hkeeps k v
      · rw [(List.cons.inj heq).1]
        exact unchanged e' (by simp)
      · exact ih hevents fun e'' he => unchanged e'' (by simp [he])

/-- A system that holds one value at an address at most, and keeps what it holds, is coherent. -/
theorem Runs.coherent {held : S → K → V → Prop} (run : Runs initial step events s)
    (init : ∀ s, initial s → inv s) (next : ∀ s e s', inv s → step s e s' → inv s')
    (keeps : ∀ s e s', inv s → step s e s' → e.Keeps (held s) (held s'))
    (single : ∀ s k v w, held s k v → held s k w → v = w) : Coherent events := by
  induction run with
  | start =>
    intro before e between k v w after split
    simp at split
  | @step events s s' last run hlast ih =>
    intro before e between k v w after split leaves unchanged
    rcases List.eq_nil_or_concat' after with rfl | ⟨after, e', rfl⟩
    · -- the load is the last event
      obtain ⟨hevents, hload⟩ := List.append_inj' split rfl
      obtain ⟨hleaves, hkeeps⟩ := keeps s last s' (run.invariant init next) hlast
      have hheld := run.held init next keeps hevents leaves unchanged
      rw [(List.cons.inj hload).1] at hleaves hkeeps
      exact single s' k w v (hleaves k w (Or.inl rfl)) (hkeeps k v (fun h => h) hheld)
    · have hsplit : events ++ [last] = (before ++ e :: between ++ .load k w :: after) ++ [e'] := by
        simpa using split
      exact ih before e between k v w after (List.append_inj' hsplit rfl).1 leaves unchanged

end Runs

end Coherence
