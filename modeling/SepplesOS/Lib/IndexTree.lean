import Mathlib

/-!
# Index trees with null pointers

A tree of pointers, `N` to a table: `child b i` is entry `i` of the table `b` and `0` is the null
pointer.  `slot d b k` is the pointer at position `k` below `b`, `d` tables deep.  A scan that
stops in every table at its first null entry (`scan`) calls its body on the pointers at the
positions `visit d b`: these are increasing, never null, and start with `0, 1, …, m - 1` when none
of the first `m` positions is null.
-/

namespace IndexTree

/-! ## Tables -/

section Table

variable {β σ : Type*} [DecidableEq β] [Zero β]

/-- `for (i = i₀; i < i₀ + n && ptr(i); i++) body(ptr(i));` -/
def forNonzero (ptr : ℕ → β) (body : β → σ → σ) : ℕ → ℕ → σ → σ
  | 0, _, st => st
  | n + 1, i, st => if ptr i = 0 then st else forNonzero ptr body n (i + 1) (body (ptr i) st)

/-- The indices such a loop visits: those before the first null entry. -/
def nonzeroIdx (ptr : ℕ → β) (n : ℕ) : List ℕ := (List.range n).takeWhile fun i => ptr i ≠ 0

theorem forNonzero_eq_foldl_aux (ptr : ℕ → β) (body : β → σ → σ) (n i : ℕ) (st : σ) :
    forNonzero ptr body n i st =
      ((List.range' i n).takeWhile fun j => ptr j ≠ 0).foldl (fun st j => body (ptr j) st) st := by
  induction n generalizing i st with
  | zero => rfl
  | succ n ih =>
    rw [forNonzero, List.range'_succ]
    split_ifs with h
    · simp [h]
    · rw [List.takeWhile_cons_of_pos (by simpa using h), List.foldl_cons, ih]

theorem forNonzero_eq_foldl (ptr : ℕ → β) (body : β → σ → σ) (n : ℕ) (st : σ) :
    forNonzero ptr body n 0 st = (nonzeroIdx ptr n).foldl (fun st i => body (ptr i) st) st := by
  rw [forNonzero_eq_foldl_aux, nonzeroIdx, List.range_eq_range']

theorem forNonzero_congr {ptr ptr' : ℕ → β} {body body' : β → σ → σ} {n i : ℕ}
    (hptr : ∀ j < i + n, ptr' j = ptr j)
    (hbody : ∀ j < i + n, ptr j ≠ 0 → body' (ptr j) = body (ptr j)) (st : σ) :
    forNonzero ptr' body' n i st = forNonzero ptr body n i st := by
  induction n generalizing i st with
  | zero => rfl
  | succ n ih =>
    have hi : ptr' i = ptr i := hptr i (by omega)
    rw [forNonzero, forNonzero, hi]
    split_ifs with h
    · rfl
    · rw [hbody i (by omega) h]
      exact ih (fun j hj => hptr j (by omega)) (fun j hj => hbody j (by omega)) _

/-- The same loop where the reading of an entry and the body are computations. -/
def forNonzeroM {m : Type → Type} [Monad m] {β σ : Type} [DecidableEq β] [Zero β] (ptr : ℕ → m β)
    (body : β → σ → m σ) : ℕ → ℕ → σ → m σ
  | 0, _, st => pure st
  | n + 1, i, st => do
    let b ← ptr i
    if b = 0 then pure st
    else do
      let st ← body b st
      forNonzeroM ptr body n (i + 1) st

/-- Two such loops over the same entries are related when their bodies are: `R` relates the states, and
`Rel` the computations that end in such states. -/
theorem forNonzeroM_rel {m₁ m₂ : Type → Type} [Monad m₁] [LawfulMonad m₁] [Monad m₂] [LawfulMonad m₂]
    {β σ τ : Type} [DecidableEq β] [Zero β] (R : σ → τ → Prop) (Rel : m₁ σ → m₂ τ → Prop)
    (rel_pure : ∀ s t, R s t → Rel (pure s) (pure t))
    (rel_bind : ∀ x y f g, Rel x y → (∀ s t, R s t → Rel (f s) (g t)) → Rel (x >>= f) (y >>= g))
    {ptr₁ : ℕ → m₁ β} {ptr₂ : ℕ → m₂ β} {ptr : ℕ → β} {body₁ : β → σ → m₁ σ} {body₂ : β → τ → m₂ τ}
    {n i : ℕ} (entry₁ : ∀ j < i + n, ptr₁ j = pure (ptr j)) (entry₂ : ∀ j < i + n, ptr₂ j = pure (ptr j))
    (step : ∀ j < i + n, ptr j ≠ 0 → ∀ s t, R s t → Rel (body₁ (ptr j) s) (body₂ (ptr j) t))
    {s : σ} {t : τ} (start : R s t) :
    Rel (forNonzeroM ptr₁ body₁ n i s) (forNonzeroM ptr₂ body₂ n i t) := by
  induction n generalizing i s t with
  | zero => exact rel_pure s t start
  | succ n ih =>
    rw [forNonzeroM, forNonzeroM, entry₁ i (by omega), entry₂ i (by omega), pure_bind, pure_bind]
    split_ifs with hnull
    · exact rel_pure s t start
    · apply rel_bind _ _ _ _ (step i (by omega) hnull s t start)
      intro s' t' hnext
      exact ih (fun j hj => entry₁ j (by omega)) (fun j hj => entry₂ j (by omega))
        (fun j hj => step j (by omega)) hnext

theorem forNonzeroM_id {β σ : Type} [DecidableEq β] [Zero β] (ptr : ℕ → β) (body : β → σ → σ) (n i : ℕ)
    (st : σ) :
    (forNonzeroM (fun j => (pure (ptr j) : Id β)) (fun b st => (pure (body b st) : Id σ)) n i st : Id σ) =
      pure (forNonzero ptr body n i st) := by
  induction n generalizing i st with
  | zero => rfl
  | succ n ih =>
    rw [forNonzeroM, forNonzero, pure_bind]
    split_ifs
    · rfl
    · rw [pure_bind]
      exact ih _ _

/-- A loop that may have no value has one, and goes along with another loop, when its body does so at the
entries that are not null. -/
theorem forNonzeroM_simulates {β σ τ : Type} [DecidableEq β] [Zero β] {ptr : ℕ → β}
    {body? : β → τ → Option τ} {body : β → σ → σ} {R : τ → σ → Prop} {n i : ℕ}
    (step : ∀ j < i + n, ptr j ≠ 0 → ∀ s t, R s t → ∃ s', body? (ptr j) s = some s' ∧ R s' (body (ptr j) t))
    {s : τ} {t : σ} (start : R s t) :
    ∃ s', forNonzeroM (fun j => some (ptr j)) body? n i s = some s' ∧ R s' (forNonzero ptr body n i t) := by
  have hrel : (fun (x : Option τ) (y : Id σ) => ∃ s', x = some s' ∧ R s' y)
      (forNonzeroM (fun j => some (ptr j)) body? n i s)
      (forNonzeroM (fun j => (pure (ptr j) : Id β)) (fun b st => (pure (body b st) : Id σ)) n i t) := by
    refine forNonzeroM_rel R (fun (x : Option τ) (y : Id σ) => ∃ s', x = some s' ∧ R s' y)
      (fun s t h => ⟨s, rfl, h⟩) ?_ (fun j _ => (rfl : some (ptr j) = some (ptr j)))
      (fun j _ => (rfl : (pure (ptr j) : Id β) = pure (ptr j))) step start
    rintro x y f g ⟨s', rfl, h⟩ hf
    exact hf s' y h
  rw [forNonzeroM_id] at hrel
  exact hrel

theorem mem_takeWhile_range' {p : ℕ → Bool} {s n i : ℕ} :
    i ∈ (List.range' s n).takeWhile p ↔ s ≤ i ∧ i < s + n ∧ ∀ j, s ≤ j → j ≤ i → p j := by
  induction n generalizing s with
  | zero => simp; omega
  | succ n ih =>
    rw [List.range'_succ]
    by_cases hs : p s
    · rw [List.takeWhile_cons_of_pos hs, List.mem_cons, ih]
      constructor
      · rintro (rfl | ⟨h₁, h₂, h₃⟩)
        · exact ⟨le_rfl, by omega, fun j h h' => by rwa [le_antisymm h' h]⟩
        · refine ⟨by omega, by omega, fun j h h' => ?_⟩
          rcases h.eq_or_lt with rfl | h
          · exact hs
          · exact h₃ j h h'
      · rintro ⟨h₁, h₂, h₃⟩
        rcases h₁.eq_or_lt with rfl | h₁
        · exact Or.inl rfl
        · exact Or.inr ⟨h₁, by omega, fun j h h' => h₃ j (by omega) h'⟩
    · rw [List.takeWhile_cons_of_neg hs]
      simp only [List.not_mem_nil, false_iff]
      rintro ⟨h₁, -, h₃⟩
      exact hs (h₃ s le_rfl h₁)

theorem mem_nonzeroIdx {ptr : ℕ → β} {n i : ℕ} :
    i ∈ nonzeroIdx ptr n ↔ i < n ∧ ∀ j ≤ i, ptr j ≠ 0 := by
  rw [nonzeroIdx, List.range_eq_range', mem_takeWhile_range']
  simp

theorem nonzeroIdx_congr {ptr ptr' : ℕ → β} {n : ℕ} (hptr : ∀ i < n, ptr i = ptr' i) :
    nonzeroIdx ptr n = nonzeroIdx ptr' n := by
  have htake : ∀ l : List ℕ, (∀ i ∈ l, i < n) →
      (l.takeWhile fun i => ptr i ≠ 0) = l.takeWhile fun i => ptr' i ≠ 0 := by
    intro l hl
    induction l with
    | nil => rfl
    | cons i l ih =>
      rw [List.takeWhile_cons, List.takeWhile_cons, hptr i (hl i List.mem_cons_self),
        ih fun j hj => hl j (List.mem_cons_of_mem _ hj)]
  exact htake _ fun i hi => List.mem_range.1 hi

theorem nonzeroIdx_pairwise (ptr : ℕ → β) (n : ℕ) : (nonzeroIdx ptr n).Pairwise (· < ·) :=
  List.pairwise_lt_range.sublist (List.takeWhile_sublist _)

end Table

/-! ## Trees -/

section Tree

variable {β σ : Type*} [DecidableEq β] [Zero β] (child : β → ℕ → β) (N : ℕ)

/-- The pointer at position `k` below `b`, `d` tables deep; null when a table on the way is. -/
def slot : ℕ → β → ℕ → β
  | 0, b, _ => b
  | d + 1, b, k => if b = 0 then 0 else slot d (child b (k / N ^ d)) (k % N ^ d)

/-- The nested loops over `d` levels of tables, each stopping at its first null entry. -/
def scan (body : β → σ → σ) : ℕ → β → σ → σ
  | 0, b => body b
  | d + 1, b => forNonzero (child b) (scan body d) N 0

/-- The positions the nested loops visit, in order. -/
def visit : ℕ → β → List ℕ
  | 0, _ => [0]
  | d + 1, b =>
    (nonzeroIdx (child b) N).flatMap fun i => (visit d (child b i)).map fun k => i * N ^ d + k

theorem slot_zero (d k : ℕ) : slot child N d 0 k = 0 := by
  cases d <;> simp [slot]

theorem slot_succ_add {d : ℕ} {b : β} (hb : b ≠ 0) {i k : ℕ} (hk : k < N ^ d) :
    slot child N (d + 1) b (i * N ^ d + k) = slot child N d (child b i) k := by
  have hpos : 0 < N ^ d := by omega
  rw [slot, if_neg hb, Nat.mul_comm, Nat.mul_add_div hpos, Nat.div_eq_of_lt hk,
    Nat.mul_add_mod, Nat.mod_eq_of_lt hk, Nat.add_zero]

theorem mem_visit_succ {d : ℕ} {b : β} {k : ℕ} :
    k ∈ visit child N (d + 1) b ↔
      ∃ i, (i < N ∧ ∀ j ≤ i, child b j ≠ 0) ∧
        ∃ r ∈ visit child N d (child b i), i * N ^ d + r = k := by
  simp only [visit, List.mem_flatMap, List.mem_map, mem_nonzeroIdx]

theorem lt_of_mem_visit {d : ℕ} {b : β} {k : ℕ} (h : k ∈ visit child N d b) : k < N ^ d := by
  induction d generalizing b k with
  | zero => simpa [visit, Nat.lt_one_iff] using h
  | succ d ih =>
    obtain ⟨i, ⟨hi, -⟩, r, hr, rfl⟩ := (mem_visit_succ child N).1 h
    calc i * N ^ d + r < i * N ^ d + N ^ d := by have := ih hr; omega
      _ = (i + 1) * N ^ d := (Nat.succ_mul i _).symm
      _ ≤ N * N ^ d := Nat.mul_le_mul_right _ hi
      _ = N ^ (d + 1) := (Nat.pow_succ').symm

/-- The scan never reaches a null pointer. -/
theorem slot_ne_zero_of_mem_visit {d : ℕ} {b : β} (hb : b ≠ 0) {k : ℕ}
    (h : k ∈ visit child N d b) : slot child N d b k ≠ 0 := by
  induction d generalizing b k with
  | zero => exact hb
  | succ d ih =>
    obtain ⟨i, ⟨-, hnz⟩, r, hr, rfl⟩ := (mem_visit_succ child N).1 h
    rw [slot_succ_add child N hb (lt_of_mem_visit child N hr)]
    exact ih (hnz i le_rfl) hr

/-- The scan visits its positions in increasing order. -/
theorem visit_pairwise (d : ℕ) (b : β) : (visit child N d b).Pairwise (· < ·) := by
  induction d generalizing b with
  | zero => simp [visit]
  | succ d ih =>
    rw [visit, List.pairwise_flatMap]
    refine ⟨fun i _ => ?_, ?_⟩
    · rw [List.pairwise_map]
      exact (ih (child b i)).imp fun h => Nat.add_lt_add_left h _
    · refine (nonzeroIdx_pairwise _ _).imp fun {i j} hij x hx y hy => ?_
      obtain ⟨r, hr, rfl⟩ := List.mem_map.1 hx
      obtain ⟨s, -, rfl⟩ := List.mem_map.1 hy
      have hr' := lt_of_mem_visit child N hr
      calc i * N ^ d + r < (i + 1) * N ^ d := by rw [Nat.succ_mul]; omega
        _ ≤ j * N ^ d := Nat.mul_le_mul_right _ hij
        _ ≤ j * N ^ d + s := Nat.le_add_right _ _

/-- The scan reaches a position when no position up to it is null. -/
theorem mem_visit {d : ℕ} {b : β} {k : ℕ} (hk : k < N ^ d)
    (h : ∀ j ≤ k, slot child N d b j ≠ 0) : k ∈ visit child N d b := by
  induction d generalizing b k with
  | zero => simpa [visit] using hk
  | succ d ih =>
    have hb : b ≠ 0 := fun hb => h 0 (Nat.zero_le _) (by rw [hb, slot_zero])
    have hN : 0 < N ^ d := by
      rcases Nat.eq_zero_or_pos (N ^ d) with h0 | h0
      · rw [Nat.pow_succ, h0] at hk; omega
      · exact h0
    have hdiv : k / N ^ d * N ^ d + k % N ^ d = k := Nat.div_add_mod' k _
    have hmod : k % N ^ d < N ^ d := Nat.mod_lt _ hN
    have hslot : ∀ i r, r < N ^ d → i * N ^ d + r ≤ k → slot child N d (child b i) r ≠ 0 := by
      intro i r hr hle
      rw [← slot_succ_add child N hb hr]
      exact h _ hle
    refine (mem_visit_succ child N).2 ⟨k / N ^ d, ⟨?_, fun j hj hnull => ?_⟩, k % N ^ d, ?_, hdiv⟩
    · exact Nat.div_lt_of_lt_mul (by rwa [← Nat.pow_succ])
    · have hle : j * N ^ d + 0 ≤ k :=
        (Nat.mul_le_mul_right (N ^ d) hj).trans (Nat.div_mul_le_self k _)
      exact hslot j 0 hN hle (by rw [hnull, slot_zero])
    · exact ih hmod fun j hj => hslot _ j (by omega) (by omega)

/-- The nested loops fold their body over the visited pointers. -/
theorem scan_eq_foldl (body : β → σ → σ) (d : ℕ) {b : β} (hb : b ≠ 0) (st : σ) :
    scan child N body d b st =
      (visit child N d b).foldl (fun st k => body (slot child N d b k) st) st := by
  induction d generalizing b st with
  | zero => rfl
  | succ d ih =>
    rw [scan, forNonzero_eq_foldl, visit, List.foldl_flatMap]
    refine List.foldl_ext _ _ _ fun st i hi => ?_
    rw [ih ((mem_nonzeroIdx.1 hi).2 i le_rfl), List.foldl_map]
    refine List.foldl_ext _ _ _ fun st k hk => ?_
    rw [slot_succ_add child N hb (lt_of_mem_visit child N hk)]

end Tree

/-! ## Increasing lists -/

/-- An increasing list of numbers from `s` on that contains `s, …, s + m - 1` starts with them. -/
theorem getElem?_of_pairwise_lt {l : List ℕ} {s m : ℕ} (hl : l.Pairwise (· < ·))
    (hge : ∀ k ∈ l, s ≤ k) (hmem : ∀ k, s ≤ k → k < s + m → k ∈ l) {k : ℕ} (hk : k < m) :
    l[k]? = some (s + k) := by
  induction l generalizing s m k with
  | nil => exact absurd (hmem s le_rfl (by omega)) (by simp)
  | cons a t ih =>
    obtain ⟨hat, ht⟩ := List.pairwise_cons.1 hl
    obtain rfl : a = s := by
      rcases List.mem_cons.1 (hmem s le_rfl (by omega)) with h | h
      · exact h.symm
      · exact absurd (hat s h) (not_lt.2 (hge a (by simp)))
    cases k with
    | zero => simp
    | succ k =>
      have := ih (s := a + 1) (m := m - 1) (k := k) ht (fun j hj => hat j hj) (fun j h₁ h₂ => by
        rcases List.mem_cons.1 (hmem j (by omega) (by omega)) with h | h
        · omega
        · exact h) (by omega)
      rw [List.getElem?_cons_succ, this]
      congr 1
      omega

/-- An increasing list of numbers below `m` that misses one of them is shorter than `m`. -/
theorem length_lt_of_pairwise_lt {l : List ℕ} {m b : ℕ} (hl : l.Pairwise (· < ·))
    (hlt : ∀ k ∈ l, k < m) (hb : b < m) (hmiss : b ∉ l) : l.length < m := by
  have hnodup : (b :: l).Nodup := List.nodup_cons.2 ⟨hmiss, hl.imp fun h => h.ne⟩
  have hsub : (b :: l) ⊆ List.range m := fun k hk => by
    rcases List.mem_cons.1 hk with rfl | hk
    · exact List.mem_range.2 hb
    · exact List.mem_range.2 (hlt k hk)
  have hlen := (List.subperm_of_subset hnodup hsub).length_le
  rw [List.length_range] at hlen
  exact hlen

end IndexTree
