import Mathlib

/-!
# Nodes that own their children

Nodes in memory, each with its parent and the list of its children.  The number of a node stands for
its address: a deleted node has no cell, and a new one gets a number that was never used before.  The
nodes form a tree, and what a node is within it is told by its path, the data on the way up.
-/

namespace OwnedTree

/-- A node: its parent, its children in order and what else it holds. -/
structure Cell (α : Type*) where
  parent : ℕ
  childs : List ℕ
  data : α

/-- The nodes, and the first number that was never used. -/
structure Heap (α : Type*) where
  cell : ℕ → Option (Cell α)
  next : ℕ

variable {α : Type*}

namespace Heap

/-- `n` is written to the node `p`. -/
def put (h : Heap α) (p : ℕ) (n : Cell α) : Heap α :=
  { h with cell := Function.update h.cell p (some n) }

/-- The node `p` is deleted, and nothing else. -/
def erase (h : Heap α) (p : ℕ) : Heap α :=
  { h with cell := Function.update h.cell p none }

/-- A new last child for the node `p`, which is `n`. -/
def add (h : Heap α) (p : ℕ) (n : Cell α) (d : α) : Heap α where
  cell := Function.update (Function.update h.cell p (some { n with childs := n.childs ++ [h.next] }))
    h.next (some ⟨p, [], d⟩)
  next := h.next + 1

end Heap

/-- The node `p` has not been deleted. -/
def Live (h : Heap α) (p : ℕ) : Prop := ∃ n, h.cell p = some n

/-- `p` has the child `c`. -/
def ChildOf (h : Heap α) (c p : ℕ) : Prop := ∃ n, h.cell p = some n ∧ c ∈ n.childs

/-- `q` is `p`, or lies below it. -/
def Below (h : Heap α) (q p : ℕ) : Prop := Relation.ReflTransGen (ChildOf h) q p

/-- The nodes form one tree, in which children are newer than their parents. -/
structure Tree (h : Heap α) (root : ℕ) : Prop where
  used : ∀ p n, h.cell p = some n → p < h.next
  child : ∀ p n, h.cell p = some n → ∀ c ∈ n.childs, p < c ∧ ∃ m, h.cell c = some m ∧ m.parent = p
  nodup : ∀ p n, h.cell p = some n → n.childs.Nodup
  listed : ∀ p n, h.cell p = some n → p ≠ root → ChildOf h p n.parent
  root : ∃ n, h.cell root = some n ∧ n.parent = root

/-- The data from a node up to the root, which is left out. -/
inductive Path (h : Heap α) (root : ℕ) : ℕ → List α → Prop
  | root : Live h root → Path h root root []
  | child {p : ℕ} {n : Cell α} {s : List α} : h.cell p = some n → p ≠ root → Path h root n.parent s →
      Path h root p (n.data :: s)

/-! ## What lies below a node -/

section Below

variable {h h' : Heap α} {root p q c c' : ℕ} {n : Cell α}

theorem Tree.childOf_lt (tree : Tree h root) (child : ChildOf h c p) : p < c := by
  obtain ⟨n, hn, hc⟩ := child
  exact (tree.child p n hn c hc).1

theorem Tree.parent_unique (tree : Tree h root) (child : ChildOf h c p) (child' : ChildOf h c q) :
    p = q := by
  obtain ⟨n, hn, hc⟩ := child
  obtain ⟨n', hn', hc'⟩ := child'
  obtain ⟨-, m, hm, hp⟩ := tree.child p n hn c hc
  obtain ⟨-, m', hm', hq⟩ := tree.child q n' hn' c hc'
  rw [hm] at hm'
  rw [← hp, ← hq, Option.some.inj hm']

theorem Tree.below_le (tree : Tree h root) (below : Below h q p) : p ≤ q := by
  induction below with
  | refl => exact le_rfl
  | tail _ child ih => exact (tree.childOf_lt child).le.trans ih

theorem Tree.live_of_below (tree : Tree h root) (live : Live h p) (below : Below h q p) : Live h q := by
  cases below.cases_head with
  | inl heq => exact heq ▸ live
  | inr hhead =>
    obtain ⟨x, ⟨n, hn, hq⟩, -⟩ := hhead
    obtain ⟨-, m, hm, -⟩ := tree.child x n hn q hq
    exact ⟨m, hm⟩

/-- Of two siblings none lies below the other. -/
theorem Tree.eq_of_below_sibling (tree : Tree h root) (child : ChildOf h c p) (child' : ChildOf h c' p)
    (below : Below h c c') : c = c' := by
  cases below.cases_head with
  | inl heq => exact heq
  | inr hhead =>
    obtain ⟨x, hx, hbelow⟩ := hhead
    obtain rfl := tree.parent_unique child hx
    exact absurd (tree.below_le hbelow) (not_le.2 (tree.childOf_lt child'))

/-- Nothing lies below two siblings. -/
theorem Tree.siblings (tree : Tree h root) (child : ChildOf h c p) (child' : ChildOf h c' p)
    (below : Below h q c) (below' : Below h q c') : c = c' := by
  have hunique : Relator.RightUnique (ChildOf h) := fun _ _ _ h₁ h₂ => tree.parent_unique h₁ h₂
  cases Relation.ReflTransGen.total_of_right_unique hunique below below' with
  | inl hlow => exact tree.eq_of_below_sibling child child' hlow
  | inr hlow => exact (tree.eq_of_below_sibling child' child hlow).symm

/-- What lies below a node is the node or lies below one of its children. -/
theorem below_iff (live : h.cell p = some n) : Below h q p ↔ q = p ∨ ∃ c ∈ n.childs, Below h q c := by
  constructor
  · intro hbelow
    cases hbelow.cases_tail with
    | inl heq => exact Or.inl heq.symm
    | inr htail =>
      obtain ⟨c, hc, m, hm, hmem⟩ := htail
      obtain rfl := Option.some.inj (live.symm.trans hm)
      exact Or.inr ⟨c, hmem, hc⟩
  · rintro (rfl | ⟨c, hmem, hc⟩)
    · exact .refl
    · exact hc.tail ⟨n, live, hmem⟩

theorem Tree.not_below_child (tree : Tree h root) (child : ChildOf h c p) : ¬Below h p c := by
  intro hbelow
  exact absurd (tree.below_le hbelow) (not_le.2 (tree.childOf_lt child))

/-- The parent of a node below `p`, but for `p` itself, lies below `p`. -/
theorem Tree.parent_below (tree : Tree h root) (child : ChildOf h c q) (below : Below h c p) (ne : c ≠ p) :
    Below h q p := by
  cases below.cases_head with
  | inl heq => exact absurd heq ne
  | inr hhead =>
    obtain ⟨x, hx, hbelow⟩ := hhead
    obtain rfl := tree.parent_unique child hx
    exact hbelow

/-- The root lies below itself only. -/
theorem Tree.root_below (tree : Tree h root) (below : Below h root p) : root = p := by
  by_contra hne
  obtain ⟨x, ⟨k, hk, hmem⟩, -⟩ := below.cases_head.resolve_left hne
  obtain ⟨hlt, m, hm, hparent⟩ := tree.child x k hk root hmem
  obtain ⟨r, hr, hself⟩ := tree.root
  obtain rfl := Option.some.inj (hm.symm.trans hr)
  omega

/-- Every node is below the root. -/
theorem Tree.below_root (tree : Tree h root) (live : Live h q) : Below h q root := by
  induction q using Nat.strong_induction_on with
  | _ q ih =>
    by_cases hroot : q = root
    · exact hroot ▸ .refl
    · obtain ⟨n, hn⟩ := live
      have hchild := tree.listed q n hn hroot
      obtain ⟨m, hm, -⟩ := id hchild
      exact (ih n.parent (tree.childOf_lt hchild) ⟨m, hm⟩).head hchild

end Below

/-! ## Paths -/

section Path

variable {h h' : Heap α} {root p q : ℕ} {s t : List α}

theorem Path.live (path : Path h root p s) : Live h p := by
  cases path with
  | root live => exact live
  | child hcell _ _ => exact ⟨_, hcell⟩

theorem Path.eq_root (path : Path h root p []) : p = root := by
  cases path
  rfl

theorem Path.uncons {d : α} (path : Path h root p (d :: s)) :
    ∃ n, h.cell p = some n ∧ p ≠ root ∧ n.data = d ∧ Path h root n.parent s := by
  cases path with
  | child hn hne hrest => exact ⟨_, hn, hne, rfl, hrest⟩

theorem Tree.exists_path (tree : Tree h root) (live : Live h p) : ∃ s, Path h root p s := by
  induction p using Nat.strong_induction_on with
  | _ p ih =>
    by_cases hroot : p = root
    · exact ⟨[], hroot ▸ .root (hroot ▸ live)⟩
    · obtain ⟨n, hn⟩ := live
      have hchild := tree.listed p n hn hroot
      obtain ⟨m, hm, -⟩ := id hchild
      obtain ⟨s, hs⟩ := ih n.parent (tree.childOf_lt hchild) ⟨m, hm⟩
      exact ⟨n.data :: s, .child hn hroot hs⟩

theorem Path.unique (path : Path h root p s) (path' : Path h root p t) : s = t := by
  induction path generalizing t with
  | root _ =>
    cases path' with
    | root _ => rfl
    | child _ hne _ => exact absurd rfl hne
  | child hn hne _ ih =>
    cases path' with
    | root _ => exact absurd rfl hne
    | child hn' _ hrest =>
      obtain rfl := Option.some.inj (hn.symm.trans hn')
      rw [ih hrest]

/-- A path stays where the nodes on it keep their parents and their data. -/
theorem Path.transport (kept : ℕ → Prop)
    (up : ∀ q n, kept q → h.cell q = some n → q ≠ root → kept n.parent)
    (same : ∀ q n, kept q → h.cell q = some n →
      ∃ n', h'.cell q = some n' ∧ n'.parent = n.parent ∧ n'.data = n.data)
    (path : Path h root p s) (hp : kept p) : Path h' root p s := by
  induction path with
  | root live =>
    obtain ⟨n, hn⟩ := live
    obtain ⟨n', hn', -, -⟩ := same _ n hp hn
    exact .root ⟨n', hn'⟩
  | child hn hne _ ih =>
    obtain ⟨n', hn', hparent, hdata⟩ := same _ _ hp hn
    rw [← hdata]
    refine .child hn' hne ?_
    rw [hparent]
    exact ih (up _ _ hp hn hne)

/-- The end of a path is the path of a node above. -/
theorem Path.above (tree : Tree h root) {pre : List α} (path : Path h root p (pre ++ s)) :
    ∃ a, Path h root a s ∧ Below h p a ∧ (pre ≠ [] → p ≠ a) := by
  induction pre generalizing p with
  | nil => exact ⟨p, path, .refl, fun hne => absurd rfl hne⟩
  | cons d pre ih =>
    cases path with
    | child hn hne hrest =>
      have hchild := tree.listed _ _ hn hne
      obtain ⟨a, ha, hbelow, -⟩ := ih hrest
      refine ⟨a, ha, hbelow.head hchild, fun _ heq => ?_⟩
      exact absurd (tree.below_le hbelow) (not_le.2 (heq ▸ tree.childOf_lt hchild))

/-- The path of a node begins where that of a node above it ends. -/
theorem Path.of_below (tree : Tree h root) (path : Path h root p s) (below : Below h q p) :
    ∃ pre, Path h root q (pre ++ s) ∧ (q ≠ p → pre ≠ []) := by
  induction below using Relation.ReflTransGen.head_induction_on with
  | refl => exact ⟨[], path, fun hne => absurd rfl hne⟩
  | head child _ ih =>
    obtain ⟨pre, hpre, -⟩ := ih
    have hlt := tree.childOf_lt child
    obtain ⟨n, hn, hmem⟩ := child
    obtain ⟨-, m, hm, hparent⟩ := tree.child _ n hn _ hmem
    refine ⟨m.data :: pre, .child hm (fun heq => ?_) (hparent ▸ hpre), fun _ => List.cons_ne_nil _ _⟩
    -- the root is its own parent
    obtain ⟨r, hr, hself⟩ := tree.root
    rw [heq] at hm
    obtain rfl := Option.some.inj (hm.symm.trans hr)
    omega

end Path

/-! ## Changes -/

/-- From `h` to `h'` the nodes `gone` are deleted, and the others keep their paths. -/
structure Changes (h h' : Heap α) (root : ℕ) (gone : ℕ → Prop) : Prop where
  next : h.next ≤ h'.next
  live : ∀ q < h.next, Live h' q ↔ Live h q ∧ ¬gone q
  path : ∀ q s, Path h root q s → ¬gone q → Path h' root q s

section Changes

variable {h h' h'' : Heap α} {root p : ℕ} {n : Cell α} {gone gone' : ℕ → Prop}

theorem Changes.refl (h : Heap α) (root : ℕ) : Changes h h root fun _ => False where
  next := le_rfl
  live := fun _ _ => (and_iff_left not_false).symm
  path := fun _ _ path _ => path

theorem Changes.trans (first : Changes h h' root gone) (second : Changes h' h'' root gone') :
    Changes h h'' root fun q => gone q ∨ gone' q where
  next := first.next.trans second.next
  live := fun q hq => by
    rw [second.live q (hq.trans_le first.next), first.live q hq, not_or, and_assoc]
  path := fun q s path hgone => by
    rw [not_or] at hgone
    exact second.path q s (first.path q s path hgone.1) hgone.2

theorem Changes.mono (change : Changes h h' root gone) (imp : ∀ q, Live h q → (gone q ↔ gone' q)) :
    Changes h h' root gone' where
  next := change.next
  live := fun q hq => by
    rw [change.live q hq]
    exact and_congr_right fun hlive => not_congr (imp q hlive)
  path := fun q s path hgone => change.path q s path fun h => hgone ((imp q path.live).1 h)

/-- A node that is not deleted has its path before and afterwards. -/
theorem Changes.path_iff (change : Changes h h' root gone) (tree : Tree h root) {q : ℕ} (live : Live h q)
    (kept : ¬gone q) {s : List α} : Path h' root q s ↔ Path h root q s := by
  obtain ⟨t, ht⟩ := tree.exists_path live
  have ht' := change.path q t ht kept
  constructor
  · intro hs
    exact ht'.unique hs ▸ ht
  · intro hs
    exact ht.unique hs ▸ ht'

/-- `h'` is `h` without what lies below `p`. -/
structure Cleared (h h' : Heap α) (p : ℕ) : Prop where
  next : h'.next = h.next
  self : ∀ n, h.cell p = some n → h'.cell p = some { n with childs := [] }
  below : ∀ q, Below h q p → q ≠ p → h'.cell q = none
  rest : ∀ q, ¬Below h q p → h'.cell q = h.cell q

theorem Cleared.cases (cleared : Cleared h h' p) {q : ℕ} {m : Cell α} (live : Live h p)
    (hq : h'.cell q = some m) :
    (q = p ∧ ∃ n, h.cell p = some n ∧ m = { n with childs := [] }) ∨
      (¬Below h q p ∧ h.cell q = some m) := by
  by_cases heq : q = p
  · subst heq
    obtain ⟨n, hn⟩ := live
    rw [cleared.self n hn] at hq
    exact Or.inl ⟨rfl, n, hn, (Option.some.inj hq).symm⟩
  · by_cases hbelow : Below h q p
    · rw [cleared.below q hbelow heq] at hq
      nomatch hq
    · exact Or.inr ⟨hbelow, (cleared.rest q hbelow).symm.trans hq⟩

/-- A node that is not strictly below `p` keeps its parent and its data. -/
theorem Cleared.same (cleared : Cleared h h' p) {q : ℕ} {m : Cell α} (kept : ¬(Below h q p ∧ q ≠ p))
    (hq : h.cell q = some m) :
    ∃ m', h'.cell q = some m' ∧ m'.parent = m.parent ∧ m'.data = m.data := by
  by_cases heq : q = p
  · subst heq
    exact ⟨_, cleared.self m hq, rfl, rfl⟩
  · exact ⟨m, (cleared.rest q fun hbelow => kept ⟨hbelow, heq⟩).trans hq, rfl, rfl⟩

theorem Tree.cleared (tree : Tree h root) (live : Live h p) (cleared : Cleared h h' p) : Tree h' root where
  used := fun q m hq => by
    rw [cleared.next]
    rcases cleared.cases live hq with ⟨rfl, n, hn, -⟩ | ⟨-, hold⟩
    · exact tree.used _ n hn
    · exact tree.used q m hold
  child := fun q m hq c hc => by
    rcases cleared.cases live hq with ⟨rfl, n, hn, rfl⟩ | ⟨hnot, hold⟩
    · cases hc
    · obtain ⟨hlt, m', hm', hparent⟩ := tree.child q m hold c hc
      have hkept : ¬(Below h c p ∧ c ≠ p) := fun ⟨hbelow, hne⟩ =>
        hnot (tree.parent_below ⟨m, hold, hc⟩ hbelow hne)
      obtain ⟨m'', hm'', hsame, -⟩ := cleared.same hkept hm'
      exact ⟨hlt, m'', hm'', hsame.trans hparent⟩
  nodup := fun q m hq => by
    rcases cleared.cases live hq with ⟨rfl, n, hn, rfl⟩ | ⟨-, hold⟩
    · exact List.nodup_nil
    · exact tree.nodup q m hold
  listed := fun q m hq hne => by
    -- a parent that has been cleared would have taken the node with it
    have hup : ∀ n, h.cell q = some n → n.parent = m.parent → (q = p ∨ ¬Below h q p) →
        ChildOf h' q m.parent := by
      intro n hn hparent hq'
      have hchild := tree.listed q n hn hne
      have hnot : ¬Below h n.parent p := fun hbelow => by
        rcases hq' with rfl | hq'
        · exact tree.not_below_child hchild hbelow
        · exact hq' (hbelow.head hchild)
      obtain ⟨k, hk, hmem⟩ := hchild
      rw [← hparent]
      exact ⟨k, (cleared.rest _ hnot).trans hk, hmem⟩
    rcases cleared.cases live hq with ⟨rfl, n, hn, rfl⟩ | ⟨hnot, hold⟩
    · exact hup n hn rfl (Or.inl rfl)
    · exact hup m hold rfl (Or.inr hnot)
  root := by
    obtain ⟨r, hr, hself⟩ := tree.root
    have hkept : ¬(Below h root p ∧ root ≠ p) := fun ⟨hbelow, hne⟩ => hne (tree.root_below hbelow)
    obtain ⟨r', hr', hparent, -⟩ := cleared.same hkept hr
    exact ⟨r', hr', hparent.trans hself⟩

/-- Clearing a node deletes what lies below it, and nothing else. -/
theorem Tree.cleared_changes (tree : Tree h root) (live : Live h p) (cleared : Cleared h h' p) :
    Changes h h' root fun q => Below h q p ∧ q ≠ p where
  next := cleared.next.ge
  live := fun q _ => by
    constructor
    · rintro ⟨m, hm⟩
      rcases cleared.cases live hm with ⟨rfl, n, hn, -⟩ | ⟨hnot, hold⟩
      · exact ⟨⟨n, hn⟩, fun h => h.2 rfl⟩
      · exact ⟨⟨m, hold⟩, fun h => hnot h.1⟩
    · rintro ⟨⟨n, hn⟩, hkept⟩
      obtain ⟨m', hm', -⟩ := cleared.same hkept hn
      exact ⟨m', hm'⟩
  path := fun q s path hkept => by
    refine path.transport (fun q => ¬(Below h q p ∧ q ≠ p)) ?_ ?_ hkept
    · rintro q n hq hn hne ⟨hbelow, hpne⟩
      have hchild := tree.listed q n hn hne
      refine hq ⟨hbelow.head hchild, fun heq => ?_⟩
      exact tree.not_below_child (heq ▸ hchild) hbelow
    · exact fun q n hq hn => cleared.same hq hn

end Changes

/-! ## A new child -/

section Add

variable {h : Heap α} {root p q : ℕ} {n : Cell α}

theorem add_new (h : Heap α) (p : ℕ) (n : Cell α) (d : α) : (h.add p n d).cell h.next = some ⟨p, [], d⟩ :=
  Function.update_self _ _ _

theorem add_self (tree : Tree h root) (hp : h.cell p = some n) (d : α) :
    (h.add p n d).cell p = some { n with childs := n.childs ++ [h.next] } := by
  have hne : p ≠ h.next := (tree.used p n hp).ne
  exact (Function.update_of_ne hne _ _).trans (Function.update_self _ _ _)

theorem add_rest (hq : q ≠ p) (hnew : q ≠ h.next) (d : α) : (h.add p n d).cell q = h.cell q :=
  (Function.update_of_ne hnew _ _).trans (Function.update_of_ne hq _ _)

/-- Every node of before is still there, with its parent, its data and its children. -/
theorem add_old (tree : Tree h root) (hp : h.cell p = some n) (d : α) {m : Cell α}
    (hq : h.cell q = some m) :
    ∃ m', (h.add p n d).cell q = some m' ∧ m'.parent = m.parent ∧ m'.data = m.data ∧
      ∀ c ∈ m.childs, c ∈ m'.childs := by
  by_cases heq : q = p
  · subst heq
    obtain rfl := Option.some.inj (hp.symm.trans hq)
    exact ⟨_, add_self tree hp d, rfl, rfl, fun c hc => List.mem_append_left _ hc⟩
  · exact ⟨m, (add_rest heq (tree.used q m hq).ne d).trans hq, rfl, rfl, fun _ hc => hc⟩

/-- A node is the new one, the one that gets it or one of the others. -/
theorem add_cases (tree : Tree h root) (hp : h.cell p = some n) {d : α} {m : Cell α}
    (hq : (h.add p n d).cell q = some m) :
    (q = h.next ∧ m = ⟨p, [], d⟩) ∨ (q = p ∧ m = { n with childs := n.childs ++ [h.next] }) ∨
      (q ≠ p ∧ h.cell q = some m) := by
  by_cases hnew : q = h.next
  · subst hnew
    rw [add_new] at hq
    exact Or.inl ⟨rfl, (Option.some.inj hq).symm⟩
  · by_cases heq : q = p
    · subst heq
      rw [add_self tree hp] at hq
      exact Or.inr (Or.inl ⟨rfl, (Option.some.inj hq).symm⟩)
    · rw [add_rest heq hnew] at hq
      exact Or.inr (Or.inr ⟨heq, hq⟩)

theorem Tree.add (tree : Tree h root) (hp : h.cell p = some n) (d : α) : Tree (h.add p n d) root where
  used := fun q m hq => by
    change q < h.next + 1
    rcases add_cases tree hp hq with ⟨rfl, -⟩ | ⟨rfl, -⟩ | ⟨-, hold⟩
    · exact Nat.lt_succ_self _
    · exact (tree.used _ n hp).trans (Nat.lt_succ_self _)
    · exact (tree.used q m hold).trans (Nat.lt_succ_self _)
  child := fun q m hq c hc => by
    have hkept : ∀ m, h.cell q = some m → c ∈ m.childs →
        q < c ∧ ∃ k, (h.add p n d).cell c = some k ∧ k.parent = q := by
      intro m hm hmem
      obtain ⟨hlt, k, hk, hparent⟩ := tree.child q m hm c hmem
      obtain ⟨k', hk', hsame, -⟩ := add_old tree hp d hk
      exact ⟨hlt, k', hk', hsame.trans hparent⟩
    rcases add_cases tree hp hq with ⟨rfl, rfl⟩ | ⟨rfl, rfl⟩ | ⟨-, hold⟩
    · cases hc
    · rcases List.mem_append.1 hc with hc | hc
      · exact hkept n hp hc
      · obtain rfl := List.mem_singleton.1 hc
        exact ⟨tree.used _ n hp, _, add_new h q n d, rfl⟩
    · exact hkept m hold hc
  nodup := fun q m hq => by
    rcases add_cases tree hp hq with ⟨rfl, rfl⟩ | ⟨rfl, rfl⟩ | ⟨-, hold⟩
    · exact List.nodup_nil
    · refine List.nodup_append.2 ⟨tree.nodup _ n hp, List.nodup_singleton _, fun a ha b hb => ?_⟩
      obtain rfl := List.mem_singleton.1 hb
      obtain ⟨-, k, hk, -⟩ := tree.child _ n hp a ha
      exact (tree.used a k hk).ne
    · exact tree.nodup q m hold
  listed := fun q m hq hne => by
    have hkept : ∀ m, h.cell q = some m → ChildOf (h.add p n d) q m.parent := by
      intro m hm
      obtain ⟨k, hk, hmem⟩ := tree.listed q m hm hne
      obtain ⟨k', hk', -, -, hchilds⟩ := add_old tree hp d hk
      exact ⟨k', hk', hchilds q hmem⟩
    rcases add_cases tree hp hq with ⟨rfl, rfl⟩ | ⟨rfl, rfl⟩ | ⟨-, hold⟩
    · exact ⟨_, add_self tree hp d, List.mem_append_right _ (List.mem_singleton.2 rfl)⟩
    · exact hkept n hp
    · exact hkept m hold
  root := by
    obtain ⟨r, hr, hself⟩ := tree.root
    obtain ⟨r', hr', hparent, -⟩ := add_old tree hp d hr
    exact ⟨r', hr', hparent.trans hself⟩

/-- A new child changes nothing about the nodes of before. -/
theorem Tree.add_changes (tree : Tree h root) (hp : h.cell p = some n) (d : α) :
    Changes h (h.add p n d) root fun _ => False where
  next := Nat.le_succ _
  live := fun q hq => by
    rw [and_iff_left not_false]
    constructor
    · rintro ⟨m, hm⟩
      rcases add_cases tree hp hm with ⟨rfl, -⟩ | ⟨rfl, -⟩ | ⟨-, hold⟩
      · exact absurd hq (lt_irrefl _)
      · exact ⟨n, hp⟩
      · exact ⟨m, hold⟩
    · rintro ⟨m, hm⟩
      obtain ⟨m', hm', -⟩ := add_old tree hp d hm
      exact ⟨m', hm'⟩
  path := fun q s path _ => by
    refine path.transport (fun _ => True) (fun _ _ _ _ _ => trivial) ?_ trivial
    intro q m _ hm
    obtain ⟨m', hm', hparent, hdata, -⟩ := add_old tree hp d hm
    exact ⟨m', hm', hparent, hdata⟩

/-- The path of the new child. -/
theorem Tree.add_path (tree : Tree h root) (hp : h.cell p = some n) (d : α) {s : List α}
    (path : Path h root p s) : Path (h.add p n d) root h.next (d :: s) := by
  have hroot : h.next ≠ root := by
    obtain ⟨r, hr, -⟩ := tree.root
    exact (tree.used root r hr).ne'
  exact .child (add_new h p n d) hroot ((tree.add_changes hp d).path p s path not_false)

end Add

end OwnedTree
