import Mathlib

/-!
# Tilings

A list of pieces laid out one behind the other from an address on.  Nothing but the sizes says where
a piece lies, as in a heap whose chunks are found by adding up their sizes.
-/

namespace Tiling

variable {C : Type*} (size : C → ℕ)

/-- The room the pieces take. -/
def span (cs : List C) : ℕ := (cs.map size).sum

/-- The pieces with their addresses. -/
def layout : ℕ → List C → List (ℕ × C)
  | _, [] => []
  | a, c :: cs => (a, c) :: layout (a + size c) cs

variable {size}

@[simp] theorem span_nil : span size [] = 0 := rfl

@[simp] theorem span_cons (c : C) (cs : List C) : span size (c :: cs) = size c + span size cs := by
  simp [span]

@[simp] theorem span_append (cs ds : List C) :
    span size (cs ++ ds) = span size cs + span size ds := by
  simp [span]

@[simp] theorem layout_nil (a : ℕ) : layout size a [] = [] := rfl

@[simp] theorem layout_cons (a : ℕ) (c : C) (cs : List C) :
    layout size a (c :: cs) = (a, c) :: layout size (a + size c) cs := rfl

theorem layout_append (a : ℕ) (cs ds : List C) :
    layout size a (cs ++ ds) = layout size a cs ++ layout size (a + span size cs) ds := by
  induction cs generalizing a with
  | nil => simp
  | cons c cs ih =>
    rw [List.cons_append, layout_cons, layout_cons, ih, span_cons, Nat.add_assoc, List.cons_append]

/-- A piece lies inside the room of all. -/
theorem layout_bounds {a x : ℕ} {c : C} {cs : List C} (h : (x, c) ∈ layout size a cs) :
    a ≤ x ∧ x + size c ≤ a + span size cs := by
  induction cs generalizing a with
  | nil => cases h
  | cons d cs ih =>
    rw [layout_cons, List.mem_cons] at h
    rw [span_cons]
    rcases h with h | h
    · obtain ⟨rfl, rfl⟩ := Prod.mk.inj h
      omega
    · have := ih h
      omega

theorem mem_of_layout {a x : ℕ} {c : C} {cs : List C} (h : (x, c) ∈ layout size a cs) : c ∈ cs := by
  induction cs generalizing a with
  | nil => cases h
  | cons d cs ih =>
    rw [layout_cons, List.mem_cons] at h
    rcases h with h | h
    · rw [(Prod.mk.inj h).2]
      exact List.mem_cons_self
    · exact List.mem_cons_of_mem _ (ih h)

/-- The pieces before and behind a piece. -/
theorem layout_split {a x : ℕ} {c : C} {cs : List C} (h : (x, c) ∈ layout size a cs) :
    ∃ pre suf, cs = pre ++ c :: suf ∧ x = a + span size pre := by
  induction cs generalizing a with
  | nil => cases h
  | cons d cs ih =>
    rw [layout_cons, List.mem_cons] at h
    rcases h with h | h
    · obtain ⟨rfl, rfl⟩ := Prod.mk.inj h
      exact ⟨[], cs, rfl, rfl⟩
    · obtain ⟨pre, suf, rfl, rfl⟩ := ih h
      exact ⟨d :: pre, suf, rfl, by rw [span_cons, Nat.add_assoc]⟩

/-- Every place in the room lies in a piece. -/
theorem exists_mem_layout {a y : ℕ} {cs : List C} (le : a ≤ y) (lt : y < a + span size cs) :
    ∃ x c, (x, c) ∈ layout size a cs ∧ x ≤ y ∧ y < x + size c := by
  induction cs generalizing a with
  | nil => exact absurd lt (not_lt.2 le)
  | cons c cs ih =>
    rw [span_cons] at lt
    by_cases h : y < a + size c
    · exact ⟨a, c, List.mem_cons_self, le, h⟩
    · obtain ⟨x, d, hd, hx, hy⟩ := ih (not_lt.1 h) (by omega)
      exact ⟨x, d, List.mem_cons_of_mem _ hd, hx, hy⟩

/-- The first pieces that reach a place, when all that begin before it have a property. -/
theorem exists_prefix {P : C → Prop} {a stop : ℕ} {cs : List C} (le : stop ≤ a + span size cs)
    (has : ∀ x c, (x, c) ∈ layout size a cs → x < stop → P c) :
    ∃ mid suf, cs = mid ++ suf ∧ (∀ c ∈ mid, P c) ∧ stop ≤ a + span size mid := by
  induction cs generalizing a with
  | nil => exact ⟨[], [], rfl, by simp, le⟩
  | cons c cs ih =>
    by_cases h : stop ≤ a
    · exact ⟨[], c :: cs, rfl, by simp, by simpa using h⟩
    · rw [span_cons, ← Nat.add_assoc] at le
      obtain ⟨mid, suf, rfl, hmid, hstop⟩ := ih le
        fun x d hd hlt => has x d (List.mem_cons_of_mem _ hd) hlt
      refine ⟨c :: mid, suf, rfl, List.forall_mem_cons.2 ⟨?_, hmid⟩, ?_⟩
      · exact has a c List.mem_cons_self (not_le.1 h)
      · rwa [span_cons, ← Nat.add_assoc]

/-- Neighbouring pieces that cover a part of the room, when all that share a place with it have a
property. -/
theorem exists_cover {P : C → Prop} {a y stop : ℕ} {cs : List C} (lower : a ≤ y) (lt : y < stop)
    (upper : stop ≤ a + span size cs)
    (has : ∀ x c, (x, c) ∈ layout size a cs → x < stop → y < x + size c → P c) :
    ∃ pre mid suf, cs = pre ++ mid ++ suf ∧ (∀ c ∈ mid, P c) ∧ stop ≤ y + span size mid := by
  induction cs generalizing a with
  | nil =>
    rw [span_nil] at upper
    omega
  | cons c cs ih =>
    by_cases h : a + size c ≤ y
    · rw [span_cons, ← Nat.add_assoc] at upper
      obtain ⟨pre, mid, suf, rfl, hmid, hstop⟩ := ih h upper
        fun x d hd => has x d (List.mem_cons_of_mem _ hd)
      exact ⟨c :: pre, mid, suf, rfl, hmid, hstop⟩
    · obtain ⟨mid, suf, hcs, hmid, hstop⟩ := exists_prefix upper fun x d hd hlt => by
        refine has x d hd hlt ?_
        rw [layout_cons, List.mem_cons] at hd
        rcases hd with hd | hd
        · obtain ⟨rfl, rfl⟩ := Prod.mk.inj hd
          omega
        · have := (layout_bounds hd).1
          omega
      exact ⟨[], mid, suf, hcs, hmid, by omega⟩

theorem mem_layout (a : ℕ) (pre : List C) (c : C) (suf : List C) :
    (a + span size pre, c) ∈ layout size a (pre ++ c :: suf) := by
  rw [layout_append, layout_cons]
  exact List.mem_append_right _ List.mem_cons_self

/-- Two pieces are the same or apart. -/
theorem layout_apart {a x x' : ℕ} {c c' : C} {cs : List C} (h : (x, c) ∈ layout size a cs)
    (h' : (x', c') ∈ layout size a cs) :
    (x = x' ∧ c = c') ∨ x + size c ≤ x' ∨ x' + size c' ≤ x := by
  induction cs generalizing a with
  | nil => cases h
  | cons d cs ih =>
    rw [layout_cons, List.mem_cons] at h h'
    rcases h with h | h
    · obtain ⟨rfl, rfl⟩ := Prod.mk.inj h
      rcases h' with h' | h'
      · obtain ⟨rfl, rfl⟩ := Prod.mk.inj h'
        exact Or.inl ⟨rfl, rfl⟩
      · exact Or.inr (Or.inl (layout_bounds h').1)
    · rcases h' with h' | h'
      · obtain ⟨rfl, rfl⟩ := Prod.mk.inj h'
        exact Or.inr (Or.inr (layout_bounds h).1)
      · exact ih h h'

/-- Pieces that take room lie at different places. -/
theorem layout_nodup {a : ℕ} {cs : List C} (pos : ∀ c ∈ cs, 0 < size c) : (layout size a cs).Nodup := by
  induction cs generalizing a with
  | nil => exact List.nodup_nil
  | cons c cs ih =>
    rw [List.forall_mem_cons] at pos
    rw [layout_cons, List.nodup_cons]
    refine ⟨fun hc => ?_, ih pos.2⟩
    have hbounds := layout_bounds hc
    omega

end Tiling
