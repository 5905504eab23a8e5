import SepplesOS.Lib.Blocks

/-!
# Doubly linked chains

Nodes with a pointer to the next and to the previous node.  A chain hangs on a node that holds no
element.  `Chain` says that the pointers are those of a list of nodes, and that the other blocks are as
they were; it is kept when a node is put between two neighbours or taken from between them (`Joins`).
-/

/-- A node. -/
structure Node (α : Type) where
  next : ℕ
  prev : ℕ
  data : α

namespace DoublyLinked

variable {α : Type}

/-- The address of the first node, or `stop`. -/
def first : List (ℕ × α) → ℕ → ℕ
  | [], stop => stop
  | (p, _) :: _, _ => p

/-- The address of the last node, or `start`. -/
def final : ℕ → List (ℕ × α) → ℕ
  | start, [] => start
  | _, (p, _) :: ns => final p ns

/-- The nodes between `start` and `stop`, each with its neighbours. -/
def Linked (h : Blocks (Node α)) : ℕ → List (ℕ × α) → ℕ → Prop
  | _, [], _ => True
  | start, (p, x) :: ns, stop => h p = some ⟨first ns stop, start, x⟩ ∧ Linked h p ns stop

/-- The addresses of nodes. -/
def places (ns : List (ℕ × α)) : List ℕ := ns.map Prod.fst

section Linked

variable {h h' : Blocks (Node α)} {start start' stop stop' q : ℕ} {n : ℕ × α}
  {as bs ns : List (ℕ × α)}

@[simp] theorem first_nil : first ([] : List (ℕ × α)) stop = stop := rfl

@[simp] theorem first_cons : first (n :: ns) stop = n.1 := rfl

@[simp] theorem final_nil : final start ([] : List (ℕ × α)) = start := rfl

@[simp] theorem final_cons : final start (n :: ns) = final n.1 ns := rfl

@[simp] theorem places_nil : places ([] : List (ℕ × α)) = [] := rfl

@[simp] theorem places_cons : places (n :: ns) = n.1 :: places ns := rfl

@[simp] theorem places_append : places (as ++ bs) = places as ++ places bs := List.map_append

theorem first_append : first (as ++ bs) stop = first as (first bs stop) := by
  cases as with
  | nil => rfl
  | cons n as => rfl

theorem final_append : final start (as ++ bs) = final (final start as) bs := by
  induction as generalizing start with
  | nil => rfl
  | cons n as ih => exact ih

theorem linked_append : Linked h start (as ++ bs) stop ↔
    Linked h start as (first bs stop) ∧ Linked h (final start as) bs stop := by
  induction as generalizing start with
  | nil => simp [Linked]
  | cons n as ih =>
    rw [List.cons_append, final_cons]
    simp only [Linked, ih, first_append, and_assoc]

theorem final_mem (start : ℕ) (ns : List (ℕ × α)) : final start ns ∈ start :: places ns := by
  induction ns generalizing start with
  | nil => simp
  | cons n ns ih => exact List.mem_cons_of_mem _ (ih n.1)

theorem final_mem_places (ne : ns ≠ []) : final start ns ∈ places ns := by
  cases ns with
  | nil => exact absurd rfl ne
  | cons n ns => exact final_mem n.1 ns

theorem first_mem (ne : ns ≠ []) : first ns stop ∈ places ns := by
  cases ns with
  | nil => exact absurd rfl ne
  | cons n ns => simp

theorem first_eq (ne : ns ≠ []) : first ns stop = first ns stop' := by
  cases ns with
  | nil => exact absurd rfl ne
  | cons n ns => rfl

theorem Linked.congr (linked : Linked h start ns stop) (same : ∀ q ∈ places ns, h' q = h q) :
    Linked h' start ns stop := by
  induction ns generalizing start with
  | nil => trivial
  | cons n ns ih =>
    rw [places_cons, List.forall_mem_cons] at same
    exact ⟨same.1.trans linked.1, ih linked.2 same.2⟩

theorem Linked.live (linked : Linked h start ns stop) (mem : q ∈ places ns) : h q ≠ none := by
  induction ns generalizing start with
  | nil => cases mem
  | cons n ns ih =>
    rw [places_cons, List.mem_cons] at mem
    rcases mem with rfl | mem
    · rw [linked.1]
      exact Option.some_ne_none _
    · exact ih linked.2 mem

/-- The last node gets another next one. -/
theorem Linked.relast (linked : Linked h start ns stop) (nodup : (places ns).Nodup)
    (last : ∀ n, h (final start ns) = some n → h' (final start ns) = some { n with next := stop' })
    (same : ∀ q ∈ places ns, q ≠ final start ns → h' q = h q) : Linked h' start ns stop' := by
  induction ns generalizing start with
  | nil => trivial
  | cons n ns ih =>
    rw [places_cons, List.nodup_cons] at nodup
    rw [places_cons, List.forall_mem_cons] at same
    refine ⟨?_, ih linked.2 nodup.2 last same.2⟩
    by_cases hns : ns = []
    · subst hns
      exact last _ linked.1
    · rw [show first ns stop' = first ns stop from first_eq hns]
      refine (same.1 ?_).trans linked.1
      intro heq
      exact nodup.1 (heq ▸ final_mem_places hns)

/-- The first node gets another previous one. -/
theorem Linked.refirst (linked : Linked h start ns stop) (nodup : (places ns).Nodup)
    (head : ∀ n, ns ≠ [] → h (first ns stop) = some n →
      h' (first ns stop) = some { n with prev := start' })
    (same : ∀ q ∈ places ns, q ≠ first ns stop → h' q = h q) : Linked h' start' ns stop := by
  cases ns with
  | nil => trivial
  | cons n ns =>
    rw [places_cons, List.nodup_cons] at nodup
    rw [places_cons, List.forall_mem_cons] at same
    refine ⟨head _ (List.cons_ne_nil _ _) linked.1, linked.2.congr fun q hq => same.2 q hq ?_⟩
    rintro rfl
    exact nodup.1 hq

end Linked

/-! ## Chains -/

/-- The chain that hangs on the node at `this`, in a memory that was `h₀` when the chain was empty. -/
structure Chain (h₀ h : Blocks (Node α)) (this : ℕ) (ns : List (ℕ × α)) : Prop where
  null : h 0 = none
  head : ∃ d, h this = some ⟨first ns 0, 0, d⟩
  linked : Linked h this ns 0
  nodup : (this :: places ns).Nodup
  frame : ∀ q, q ∉ this :: places ns → h q = h₀ q
  fresh : ∀ q ∈ places ns, h₀ q = none

/-- The two parts of a chain in front of and behind the block at `p`, which is not one of their nodes:
the one before it ends with a pointer to `s`, the one behind begins with a pointer to `t`. -/
structure Parts (h₀ h : Blocks (Node α)) (this : ℕ) (pre suf : List (ℕ × α)) (s t p : ℕ) : Prop where
  null : h 0 = none
  head : ∃ d, h this = some ⟨first pre s, 0, d⟩
  front : Linked h this pre s
  back : Linked h t suf 0
  nodup : (p :: this :: places (pre ++ suf)).Nodup
  frame : ∀ q, q ∉ p :: this :: places (pre ++ suf) → h q = h₀ q
  fresh : ∀ q ∈ places (pre ++ suf), h₀ q = none

/-- The node at `a` gets `l` as its next one, the node at `b`, if there is one, gets `r` as its previous
one, and nothing else changes but the block at `p`. -/
structure Joins (h h' : Blocks (Node α)) (a l b r p : ℕ) : Prop where
  left : ∀ n, h a = some n → h' a = some { n with next := l }
  right : ∀ n, b ≠ 0 → h b = some n → h' b = some { n with prev := r }
  same : ∀ q, q ≠ p → q ≠ a → (q ≠ b ∨ b = 0) → h' q = h q

section Chain

variable {h₀ h h' : Blocks (Node α)} {this s t a b l r p q : ℕ} {x : α} {n m : Node α}
  {v : Option (Node α)} {pre suf ns : List (ℕ × α)}

/-- The updates that change one neighbour. -/
theorem joins_left (node : h a = some n) (ne : a ≠ p) :
    Joins h (Function.update (Function.update h a (some { n with next := l })) p v) a l 0 r p where
  left := by
    intro n' hn'
    obtain rfl : n = n' := Option.some.inj (node.symm.trans hn')
    rw [Function.update_of_ne ne, Function.update_self]
  right := fun _ hne => absurd rfl hne
  same := fun q hp ha _ => by rw [Function.update_of_ne hp, Function.update_of_ne ha]

/-- The updates that change both neighbours. -/
theorem joins_both (node : h a = some n) (node' : h b = some m) (ne : a ≠ p) (ne' : b ≠ p)
    (apart : a ≠ b) (live : b ≠ 0) :
    Joins h (Function.update (Function.update (Function.update h a (some { n with next := l })) b
      (some { m with prev := r })) p v) a l b r p where
  left := by
    intro n' hn'
    obtain rfl : n = n' := Option.some.inj (node.symm.trans hn')
    rw [Function.update_of_ne ne, Function.update_of_ne apart, Function.update_self]
  right := by
    intro m' _ hm'
    obtain rfl : m = m' := Option.some.inj (node'.symm.trans hm')
    rw [Function.update_of_ne ne', Function.update_self]
  same := fun q hp ha hb => by
    rw [Function.update_of_ne hp, Function.update_of_ne (hb.resolve_right live),
      Function.update_of_ne ha]

theorem places_perm (p this : ℕ) (x : α) (pre suf : List (ℕ × α)) :
    (this :: places (pre ++ (p, x) :: suf)).Perm (p :: this :: places (pre ++ suf)) := by
  refine (List.Perm.cons this ?_).trans (List.Perm.swap p this _)
  rw [places_append, places_append, places_cons]
  exact List.perm_middle

/-- Every node of a chain is a live block, and so is the one that it hangs on. -/
theorem Chain.live (chain : Chain h₀ h this ns) (mem : q ∈ this :: places ns) : h q ≠ none := by
  rw [List.mem_cons] at mem
  rcases mem with rfl | mem
  · obtain ⟨d, hd⟩ := chain.head
    rw [hd]
    exact Option.some_ne_none _
  · exact chain.linked.live mem

theorem Chain.ne_zero (chain : Chain h₀ h this ns) (mem : q ∈ this :: places ns) : q ≠ 0 := by
  rintro rfl
  exact chain.live mem chain.null

/-- A place between two nodes for a block that is not live. -/
theorem Chain.gap (chain : Chain h₀ h this (pre ++ suf)) (dead : h p = none) :
    Parts h₀ h this pre suf (first suf 0) (final this pre) p where
  null := chain.null
  head := by
    rw [← first_append]
    exact chain.head
  front := (linked_append.1 chain.linked).1
  back := (linked_append.1 chain.linked).2
  nodup := List.nodup_cons.2 ⟨fun hmem => chain.live hmem dead, chain.nodup⟩
  frame := fun q hq => chain.frame q fun hmem => hq (List.mem_cons_of_mem p hmem)
  fresh := chain.fresh

/-- What is around a node. -/
theorem Chain.around (chain : Chain h₀ h this (pre ++ (p, x) :: suf)) :
    Parts h₀ h this pre suf p p p ∧ h p = some ⟨first suf 0, final this pre, x⟩ ∧ h₀ p = none := by
  have hperm := places_perm p this x pre suf
  have hlinked := linked_append.1 chain.linked
  refine ⟨⟨chain.null, ?_, hlinked.1, hlinked.2.2, hperm.nodup_iff.1 chain.nodup,
    fun q hq => chain.frame q fun hmem => hq (hperm.mem_iff.1 hmem), fun q hq => chain.fresh q ?_⟩,
    hlinked.2.1, chain.fresh p ?_⟩
  · obtain ⟨d, hd⟩ := chain.head
    rw [first_append] at hd
    exact ⟨d, hd⟩
  · rw [places_append, List.mem_append] at hq ⊢
    exact hq.imp_right (List.mem_cons_of_mem p)
  · simp

/-- The two parts without the block between them. -/
theorem Parts.chain (parts : Parts h₀ h this pre suf (first suf 0) (final this pre) p)
    (dead : h p = none) (base : h₀ p = none) : Chain h₀ h this (pre ++ suf) where
  null := parts.null
  head := by
    rw [first_append]
    exact parts.head
  linked := linked_append.2 ⟨parts.front, parts.back⟩
  nodup := (List.nodup_cons.1 parts.nodup).2
  frame := by
    intro q hq
    by_cases hp : q = p
    · rw [hp, dead, base]
    · refine parts.frame q fun hmem => ?_
      rw [List.mem_cons] at hmem
      exact hmem.elim hp hq
  fresh := parts.fresh

/-- The two parts with a node between them. -/
theorem Parts.chain_cons (parts : Parts h₀ h this pre suf p p p)
    (node : h p = some ⟨first suf 0, final this pre, x⟩) (base : h₀ p = none) :
    Chain h₀ h this (pre ++ (p, x) :: suf) where
  null := parts.null
  head := by
    rw [first_append]
    exact parts.head
  linked := linked_append.2 ⟨parts.front, node, parts.back⟩
  nodup := (places_perm p this x pre suf).nodup_iff.2 parts.nodup
  frame := fun q hq => parts.frame q fun hmem => hq ((places_perm p this x pre suf).mem_iff.2 hmem)
  fresh := by
    intro q hq
    rw [places_append, places_cons, List.mem_append, List.mem_cons] at hq
    by_cases hp : q = p
    · rw [hp, base]
    · refine parts.fresh q ?_
      rw [places_append, List.mem_append]
      tauto

/-- The neighbours of a place are not the block there, and not each other. -/
theorem Parts.apart (parts : Parts h₀ h this pre suf s t p) :
    h (final this pre) ≠ none ∧ final this pre ≠ p ∧ final this pre ∉ places suf ∧
      (suf ≠ [] → first suf 0 ≠ p ∧ first suf 0 ∉ this :: places pre) := by
  have hnodup := parts.nodup
  have hfinal := final_mem this pre
  have hlive : ∀ q ∈ this :: places pre, h q ≠ none ∧ q ≠ p ∧ q ∉ places suf := by
    intro q hq
    rw [places_append, ← List.cons_append, List.nodup_cons, List.nodup_append, List.mem_append] at hnodup
    refine ⟨?_, ?_, fun hsuf => hnodup.2.2.2 q hq q hsuf rfl⟩
    · rw [List.mem_cons] at hq
      rcases hq with rfl | hq
      · obtain ⟨d, hd⟩ := parts.head
        rw [hd]
        exact Option.some_ne_none _
      · exact parts.front.live hq
    · rintro rfl
      exact hnodup.1 (Or.inl hq)
  obtain ⟨hne, hp, hsuf⟩ := hlive _ hfinal
  refine ⟨hne, hp, hsuf, fun hnil => ⟨?_, fun hmem => (hlive _ hmem).2.2 (first_mem hnil)⟩⟩
  intro heq
  rw [places_append, ← List.cons_append, List.nodup_cons, List.mem_append] at hnodup
  exact hnodup.1 (Or.inr (heq ▸ first_mem hnil))

/-- What a change of the two neighbours leaves of the parts. -/
theorem Joins.parts (joins : Joins h h' (final this pre) l (first suf 0) r p)
    (parts : Parts h₀ h this pre suf s t p) (ne : p ≠ 0) : Parts h₀ h' this pre suf l r p := by
  obtain ⟨hlive, hne, hout, hfirst⟩ := parts.apart
  have hnodup := parts.nodup
  rw [places_append, ← List.cons_append, List.nodup_cons, List.nodup_append, List.mem_append, not_or,
    List.nodup_cons] at hnodup
  obtain ⟨⟨hp, hp'⟩, ⟨hthis, hnpre⟩, hnsuf, hapart⟩ := hnodup
  -- the second neighbour, when there is one
  have hstop : ∀ q, q ∉ places suf → q ≠ first suf 0 ∨ first suf 0 = 0 := by
    intro q hq
    by_cases hnil : suf = []
    · rw [hnil]
      exact Or.inr rfl
    · refine Or.inl ?_
      rintro rfl
      exact hq (first_mem hnil)
  have hsame : ∀ q ∈ this :: places pre, q ≠ final this pre → h' q = h q := by
    intro q hq hfinal
    refine joins.same q ?_ hfinal (hstop q fun hsuf => hapart q hq q hsuf rfl)
    rintro rfl
    exact hp hq
  constructor
  case null =>
    rw [joins.same 0 ne.symm (fun heq => hlive (heq ▸ parts.null)) (hstop 0 fun hmem =>
      parts.back.live hmem parts.null), parts.null]
  case head =>
    obtain ⟨d, hd⟩ := parts.head
    by_cases hnil : pre = []
    · subst hnil
      exact ⟨d, joins.left _ hd⟩
    · refine ⟨d, (hsame this List.mem_cons_self fun heq => ?_).trans ?_⟩
      · exact hthis (heq ▸ final_mem_places hnil)
      · rw [hd, first_eq hnil]
  case front =>
    exact parts.front.relast hnpre joins.left fun q hq => hsame q (List.mem_cons_of_mem _ hq)
  case back =>
    refine parts.back.refirst hnsuf (fun n hnil => joins.right n ?_) fun q hq hne => joins.same q ?_ ?_
      (Or.inl hne)
    · intro hzero
      exact parts.back.live (first_mem hnil) (hzero ▸ parts.null)
    · rintro rfl
      exact hp' hq
    · rintro rfl
      exact hout hq
  case nodup => exact parts.nodup
  case frame =>
    intro q hq
    rw [← parts.frame q hq]
    rw [places_append, ← List.cons_append, List.mem_cons, List.mem_append, not_or, not_or] at hq
    refine joins.same q hq.1 ?_ (hstop q hq.2.2)
    rintro rfl
    exact hq.2.1 (final_mem this pre)
  case fresh => exact parts.fresh

/-- A new node between two neighbours. -/
theorem Chain.insert (chain : Chain h₀ h this (pre ++ suf)) (ne : p ≠ 0) (fresh : h p = none)
    (joins : Joins h h' (final this pre) p (first suf 0) p p)
    (node : h' p = some ⟨first suf 0, final this pre, x⟩) : Chain h₀ h' this (pre ++ (p, x) :: suf) := by
  have hout : p ∉ this :: places (pre ++ suf) := fun hmem => chain.live hmem fresh
  exact (joins.parts (chain.gap fresh) ne).chain_cons node (by rw [← chain.frame p hout, fresh])

/-- A node is taken from between its neighbours. -/
theorem Chain.remove (chain : Chain h₀ h this (pre ++ (p, x) :: suf))
    (joins : Joins h h' (final this pre) (first suf 0) (first suf 0) (final this pre) p)
    (gone : h' p = none) : Chain h₀ h' this (pre ++ suf) := by
  obtain ⟨hparts, -, hbase⟩ := chain.around
  have hmem : p ∈ this :: places (pre ++ (p, x) :: suf) := by simp
  exact (joins.parts hparts (chain.ne_zero hmem)).chain gone hbase

end Chain

end DoublyLinked
