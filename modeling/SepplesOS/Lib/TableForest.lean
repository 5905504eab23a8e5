import Mathlib

/-!
# Forests of tables

A table refers to frames by its entries, and some frames are tables themselves.  A walk starts at a
root and follows one entry of each table on the way.  When the tables are reached by one walk only,
a change of one entry changes only the walks through it, and the frames below a root can be listed
without repetition.
-/

namespace TableForest

variable {F ι : Type*}

/-- The contents of the tables: what each entry refers to. -/
abbrev Tables (F ι : Type*) := F → ι → Option F

/-- The frame at the end of a path. -/
def walk (t : Tables F ι) : F → List ι → Option F
  | r, [] => some r
  | r, i :: p => (t r i).bind fun f => walk t f p

section Walk

variable {t t' : Tables F ι} {r : F}

@[simp] theorem walk_nil (t : Tables F ι) (r : F) : walk t r [] = some r := rfl

theorem walk_cons (t : Tables F ι) (r : F) (i : ι) (p : List ι) :
    walk t r (i :: p) = (t r i).bind fun f => walk t f p := rfl

theorem walk_append (t : Tables F ι) (r : F) (p q : List ι) :
    walk t r (p ++ q) = (walk t r p).bind fun f => walk t f q := by
  induction p generalizing r with
  | nil => rfl
  | cons i p ih =>
    rw [List.cons_append, walk_cons, walk_cons]
    cases t r i with
    | none => rfl
    | some f => exact ih f

theorem walk_concat (t : Tables F ι) (r : F) (p : List ι) (i : ι) :
    walk t r (p ++ [i]) = (walk t r p).bind fun f => t f i := by
  rw [walk_append]
  refine congrArg _ (funext fun f => ?_)
  rw [walk_cons]
  cases t f i <;> rfl

/-- A walk depends on the entries along its path only. -/
theorem walk_congr {p : List ι}
    (h : ∀ q i, q ++ [i] <+: p → ∀ f, walk t r q = some f → t' f i = t f i) :
    walk t' r p = walk t r p := by
  induction p generalizing r with
  | nil => rfl
  | cons i p ih =>
    have hfirst : t' r i = t r i := h [] i (by simp) r rfl
    rw [walk_cons, walk_cons, hfirst]
    cases hi : t r i with
    | none => rfl
    | some f =>
      refine ih fun q j hq g hg => h (i :: q) j (by simpa using hq) g ?_
      rw [walk_cons, hi]
      exact hg

end Walk

/-! ## Changing one entry -/

section Change

variable {t t' : Tables F ι} {P : F → List ι → Prop}

/-- No frame is reached by two of the paths. -/
def Separate (t : Tables F ι) (P : F → List ι → Prop) : Prop :=
  ∀ r p r' p' f, P r p → P r' p' → walk t r p = some f → walk t r' p' = some f → r = r' ∧ p = p'

/-- The tables on the paths `P` are separate, and one entry of one of them is changed.  Then only the
walk that ends with that entry changes; walks that go on behind it are there neither before nor
afterwards. -/
theorem walk_change (separate : Separate t P) {r₀ f₀ : F} {q₀ : List ι} {i₀ : ι} {o : Option F}
    (hP : P r₀ q₀) (hwalk : walk t r₀ q₀ = some f₀) (hnew : t' f₀ i₀ = o)
    (agree : ∀ r q f i, P r q → walk t r q = some f → ¬(f = f₀ ∧ i = i₀) → t' f i = t f i)
    (behind : P r₀ (q₀ ++ [i₀]) → t f₀ i₀ = none ∧ ∀ c, o = some c → ∀ i, t' c i = none)
    {r : F} {p : List ι} (inside : ∀ q i, q ++ [i] <+: p → P r q)
    [Decidable (r = r₀ ∧ p = q₀ ++ [i₀])] :
    walk t' r p = if r = r₀ ∧ p = q₀ ++ [i₀] then o else walk t r p := by
  have hsame : ∀ r p, (∀ q i, q ++ [i] <+: p → P r q) → ¬(r = r₀ ∧ q₀ ++ [i₀] <+: p) →
      walk t' r p = walk t r p := by
    intro r p inside hoff
    refine walk_congr fun q i hq f hf => agree r q f i (inside q i hq) hf ?_
    rintro ⟨rfl, rfl⟩
    obtain ⟨rfl, rfl⟩ := separate _ _ _ _ _ (inside q i hq) hP hf hwalk
    exact hoff ⟨rfl, hq⟩
  have hprefix : walk t' r₀ q₀ = some f₀ ∨ ¬(∀ q i, q ++ [i] <+: q₀ → P r₀ q) := by
    by_cases hin : ∀ q i, q ++ [i] <+: q₀ → P r₀ q
    · left
      rw [hsame r₀ q₀ hin, hwalk]
      rintro ⟨-, h⟩
      have := h.length_le
      simp at this
    · exact Or.inr hin
  split_ifs with hend
  · obtain ⟨rfl, rfl⟩ := hend
    rcases hprefix with hp | hp
    · rw [walk_concat, hp]
      exact hnew
    · exact absurd (fun q i h => inside q i (h.trans (List.prefix_append _ _))) hp
  · by_cases hon : r = r₀ ∧ q₀ ++ [i₀] <+: p
    · obtain ⟨rfl, s, rfl⟩ := hon
      -- the path goes on behind the changed entry
      cases s with
      | nil => exact absurd ⟨rfl, by simp⟩ hend
      | cons j s =>
        have hin : P r (q₀ ++ [i₀]) := inside _ j ⟨s, by simp⟩
        obtain ⟨hnone, hempty⟩ := behind hin
        have hold : walk t r (q₀ ++ [i₀]) = none := by
          rw [walk_concat, hwalk]
          exact hnone
        have hq₀ : walk t' r q₀ = some f₀ := by
          rcases hprefix with hp | hp
          · exact hp
          · exact absurd (fun q i h => inside q i
              (h.trans ⟨[i₀] ++ j :: s, by simp⟩)) hp
        have hchanged : walk t' r (q₀ ++ [i₀]) = o := by
          rw [walk_concat, hq₀]
          exact hnew
        rw [walk_append t, walk_append t', hold, hchanged]
        cases o with
        | none => rfl
        | some c =>
          show (t' c j).bind _ = none
          rw [hempty c rfl j]
          rfl
    · exact hsame r p inside hon

end Change

/-! ## The frames below a root -/

section Below

variable (t : Tables F ι) (idx : List ι)

/-- The frames at most `n` entries below `f`, each table behind what it refers to. -/
def below : ℕ → F → List F
  | 0, f => [f]
  | n + 1, f =>
    (idx.flatMap fun i =>
      match t f i with
      | none => []
      | some c => below n c) ++ [f]

variable {t idx}

theorem mem_below (hidx : ∀ f i c, t f i = some c → i ∈ idx) {n : ℕ} {f c : F} :
    c ∈ below t idx n f ↔ ∃ p, p.length ≤ n ∧ walk t f p = some c := by
  induction n generalizing f with
  | zero =>
    constructor
    · intro h
      obtain rfl := List.mem_singleton.1 h
      exact ⟨[], le_rfl, rfl⟩
    · rintro ⟨p, hp, hwalk⟩
      obtain rfl := List.length_eq_zero_iff.1 (Nat.le_zero.1 hp)
      exact List.mem_singleton.2 (Option.some.inj hwalk).symm
  | succ n ih =>
    rw [below, List.mem_append, List.mem_flatMap]
    constructor
    · rintro (⟨i, -, hc⟩ | h)
      · cases hi : t f i with
        | none => simp [hi] at hc
        | some g =>
          simp only [hi] at hc
          obtain ⟨p, hp, hwalk⟩ := ih.1 hc
          refine ⟨i :: p, Nat.succ_le_succ hp, ?_⟩
          rw [walk_cons, hi]
          exact hwalk
      · obtain rfl := List.mem_singleton.1 h
        exact ⟨[], Nat.zero_le _, rfl⟩
    · rintro ⟨p, hp, hwalk⟩
      cases p with
      | nil => exact Or.inr (List.mem_singleton.2 (Option.some.inj hwalk).symm)
      | cons i p =>
        rw [walk_cons] at hwalk
        cases hi : t f i with
        | none =>
          rw [hi] at hwalk
          cases hwalk
        | some g =>
          rw [hi] at hwalk
          refine Or.inl ⟨i, hidx f i g hi, ?_⟩
          simp only [hi]
          exact ih.2 ⟨p, Nat.le_of_succ_le_succ hp, hwalk⟩

/-- When no frame is reached by two paths, none is listed twice. -/
theorem nodup_below (hidx : ∀ f i c, t f i = some c → i ∈ idx) (nodup : idx.Nodup) {n : ℕ} {f : F}
    (inj : ∀ p p' c, p.length ≤ n → p'.length ≤ n → walk t f p = some c → walk t f p' = some c →
      p = p') : (below t idx n f).Nodup := by
  induction n generalizing f with
  | zero => exact List.nodup_singleton f
  | succ n ih =>
    have hbelow : ∀ i c, (c ∈ match t f i with | none => [] | some g => below t idx n g) →
        ∃ p, p.length ≤ n ∧ walk t f (i :: p) = some c := by
      intro i c hc
      cases hi : t f i with
      | none => simp [hi] at hc
      | some g =>
        simp only [hi] at hc
        obtain ⟨p, hp, hwalk⟩ := (mem_below hidx).1 hc
        refine ⟨p, hp, ?_⟩
        rw [walk_cons, hi]
        exact hwalk
    rw [below, List.nodup_append]
    refine ⟨List.nodup_flatMap.2 ⟨fun i _ => ?_, ?_⟩, List.nodup_singleton f, ?_⟩
    · cases hi : t f i with
      | none => exact List.nodup_nil
      | some g =>
        refine ih fun p p' c hp hp' hw hw' => ?_
        have := inj (i :: p) (i :: p') c (Nat.succ_le_succ hp) (Nat.succ_le_succ hp')
          (by rw [walk_cons, hi]; exact hw) (by rw [walk_cons, hi]; exact hw')
        exact (List.cons.inj this).2
    · refine nodup.imp fun {i j} hij c hc hc' => hij ?_
      obtain ⟨p, hp, hw⟩ := hbelow i c hc
      obtain ⟨p', hp', hw'⟩ := hbelow j c hc'
      exact (List.cons.inj
        (inj _ _ c (Nat.succ_le_succ hp) (Nat.succ_le_succ hp') hw hw')).1
    · intro c hc c' hc' heq
      obtain ⟨i, -, hci⟩ := List.mem_flatMap.1 hc
      obtain ⟨p, hp, hw⟩ := hbelow i c hci
      obtain rfl := List.mem_singleton.1 hc'
      subst heq
      exact absurd (inj [] (i :: p) c (Nat.zero_le _) (Nat.succ_le_succ hp) rfl hw) (by simp)

end Below

end TableForest
