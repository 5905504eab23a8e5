import SepplesOS.Lib.DoublyLinked
import SepplesOS.Lib.Fuel

/-!
# Linked lists

The methods of `llist` (`kernel/lib/llist.h`), over a memory of nodes.  The object itself, at `this`, is
a node whose data is not used.  Positions and sizes are `unsigned`; loops over the nodes have fuel.  In
every run of the methods the nodes are a doubly linked chain with the elements of a list, as long as no
list of `2 ^ 32` elements is emptied.
-/

namespace Llist

open DoublyLinked

variable {α : Type}

/-- What `new llist` finds: an address, and what is there. -/
structure New (α : Type) where
  addr : ℕ
  data : α

/-- `p->next = q`. -/
def setNext (h : Blocks (Node α)) (p q : ℕ) : Run BlockFault (Blocks (Node α)) :=
  h.modify p fun n => { n with next := q }

/-- `p->prev = q`. -/
def setPrev (h : Blocks (Node α)) (p q : ℕ) : Run BlockFault (Blocks (Node α)) :=
  h.modify p fun n => { n with prev := q }

/-- `p->data = udata`. -/
def setData (h : Blocks (Node α)) (p : ℕ) (udata : α) : Run BlockFault (Blocks (Node α)) :=
  h.modify p fun n => { n with data := udata }

/-! ## The code -/

/-- The loop of `size`. -/
def countFrom : ℕ → Blocks (Node α) → ℕ → UInt32 → Run BlockFault UInt32
  | 0, _, _, _ => .running
  | fuel + 1, h, i, j => do
    let n ← h.get i
    if n.next ≠ 0 then countFrom fuel h n.next (j + 1) else .done j

/-- `size`. -/
def size (fuel : ℕ) (h : Blocks (Node α)) (this : ℕ) : Run BlockFault UInt32 := do
  let n ← h.get this
  if n.next = 0 then .done 0 else countFrom fuel h this 0

/-- The loop to the last element. -/
def last : ℕ → Blocks (Node α) → ℕ → Run BlockFault ℕ
  | 0, _, _ => .running
  | fuel + 1, h, i => do
    let n ← h.get i
    if n.next ≠ 0 then last fuel h n.next else .done i

/-- The loop of `at` and `removeAt` to an index. -/
def find (pos : UInt32) : ℕ → Blocks (Node α) → ℕ → UInt32 → Run BlockFault ℕ
  | 0, _, _, _ => .running
  | fuel + 1, h, i, j =>
    if j < pos then do
      let n ← h.get i
      if n.next = 0 then .halted .fatal else find pos fuel h n.next (j + 1)
    else .done i

/-- The loop of `insert` to an index, or to the last element when it is the one before. -/
def findInsert (pos : UInt32) : ℕ → Blocks (Node α) → ℕ → UInt32 → Run BlockFault (ℕ × UInt32)
  | 0, _, _, _ => .running
  | fuel + 1, h, i, j =>
    if j < pos then do
      let n ← h.get i
      if n.next = 0 then
        if j = pos - 1 then .done (i, j) else .halted .fatal
      else findInsert pos fuel h n.next (j + 1)
    else .done (i, j)

/-- The loop of `operator[]`, which has no check. -/
def walk (pos : UInt32) : ℕ → Blocks (Node α) → ℕ → UInt32 → Run BlockFault ℕ
  | 0, _, _, _ => .running
  | fuel + 1, h, i, j =>
    if j < pos then do
      let n ← h.get i
      walk pos fuel h n.next (j + 1)
    else .done i

/-- `at`. -/
def at' [Zero α] (fuel : ℕ) (h : Blocks (Node α)) (this : ℕ) (pos : UInt32) : Run BlockFault α := do
  let n ← h.get this
  if n.next = 0 then .done 0
  else do
    let i ← find pos fuel h n.next 0
    let n ← h.get i
    .done n.data

/-- `operator[]`. -/
def index (fuel : ℕ) (h : Blocks (Node α)) (this : ℕ) (pos : UInt32) : Run BlockFault α := do
  let n ← h.get this
  let i ← walk pos fuel h n.next 0
  let n ← h.get i
  .done n.data

/-- `prepend`. -/
def prepend (new : New α) (h : Blocks (Node α)) (this : ℕ) (udata : α) :
    Run BlockFault (Blocks (Node α)) := do
  let newlist := new.addr
  let h ← h.alloc newlist ⟨0, 0, new.data⟩
  let h ← setPrev h newlist this
  let n ← h.get this
  let h ← setNext h newlist n.next
  let h ← if n.next ≠ 0 then setPrev h n.next newlist else .done h
  let h ← setNext h this newlist
  setData h newlist udata

/-- A new element behind the last one, `i`. -/
def appendTo (new : New α) (h : Blocks (Node α)) (i : ℕ) (udata : α) :
    Run BlockFault (Blocks (Node α)) := do
  let h ← h.alloc new.addr ⟨0, 0, new.data⟩
  let h ← setNext h i new.addr
  let h ← setPrev h new.addr i
  setData h new.addr udata

/-- `append`. -/
def append (fuel : ℕ) (new : New α) (h : Blocks (Node α)) (this : ℕ) (udata : α) :
    Run BlockFault (Blocks (Node α)) := do
  let n ← h.get this
  if n.next = 0 then appendTo new h this udata
  else do
    let i ← last fuel h n.next
    appendTo new h i udata

/-- `insert`. -/
def insert (fuel : ℕ) (new : New α) (h : Blocks (Node α)) (this : ℕ) (pos : UInt32) (udata : α) :
    Run BlockFault (Blocks (Node α)) :=
  if pos = 0 then prepend new h this udata
  else do
    let n ← h.get this
    if n.next = 0 then .done h
    else do
      let (i, j) ← findInsert pos fuel h n.next 0
      let n ← h.get i
      if n.next = 0 ∧ j = pos - 1 then appendTo new h i udata
      else do
        let newlist := new.addr
        let h ← h.alloc newlist ⟨0, 0, new.data⟩
        let n ← h.get i
        let h ← setNext h n.prev newlist
        let n ← h.get i
        let h ← setPrev h newlist n.prev
        let h ← setNext h newlist i
        let h ← setPrev h i newlist
        setData h newlist udata

/-- Takes out the last element, `i`. -/
def dropLast (h : Blocks (Node α)) (i : ℕ) : Run BlockFault (Blocks (Node α)) := do
  let n ← h.get i
  let h ← setNext h n.prev 0
  h.free i

/-- `removeLast`. -/
def removeLast (fuel : ℕ) (h : Blocks (Node α)) (this : ℕ) : Run BlockFault (Blocks (Node α)) := do
  let n ← h.get this
  if n.next = 0 then .done h
  else do
    let i ← last fuel h n.next
    dropLast h i

/-- `removeFirst`. -/
def removeFirst (h : Blocks (Node α)) (this : ℕ) : Run BlockFault (Blocks (Node α)) := do
  let n ← h.get this
  let f ← h.get n.next
  if f.next ≠ 0 then do
    let h ← setNext h this f.next
    let second ← h.get f.next
    let h ← h.free second.prev
    setPrev h f.next this
  else do
    let h ← h.free n.next
    setNext h this 0

/-- `removeAt`. -/
def removeAt (fuel : ℕ) (h : Blocks (Node α)) (this : ℕ) (index : UInt32) :
    Run BlockFault (Blocks (Node α)) := do
  let n ← h.get this
  if n.next = 0 then .done h
  else if index = 0 then removeFirst h this
  else do
    let i ← find index fuel h n.next 0
    let n ← h.get i
    if n.next = 0 then dropLast h i
    else do
      let h ← setNext h n.prev n.next
      let n ← h.get i
      let h ← setPrev h n.next n.prev
      h.free i

/-- `empty`. -/
def empty : ℕ → Blocks (Node α) → ℕ → Run BlockFault (Blocks (Node α))
  | 0, _, _ => .running
  | fuel + 1, h, this => do
    let j ← size fuel h this
    if j ≠ 0 then do
      let h ← removeFirst h this
      empty fuel h this
    else .done h

/-! ## The loops -/

section Loops

variable {h : Blocks (Node α)} {start i p q fuel : ℕ} {j pos : UInt32} {n : Node α} {x y : α}
  {mid rest ns : List (ℕ × α)}

theorem first_eq_zero_iff (linked : Linked h start ns 0) (null : h 0 = none) :
    first ns 0 = 0 ↔ ns = [] := by
  constructor
  · intro hzero
    by_contra hne
    exact linked.live (first_mem hne) (hzero ▸ null)
  · rintro rfl
    rfl

theorem last_spec (linked : Linked h start ((p, x) :: ns) 0) (null : h 0 = none)
    (enough : ns.length < fuel) : last fuel h p = .done (final p ns) := by
  induction ns generalizing start p x fuel with
  | nil =>
    obtain ⟨fuel, rfl⟩ := Nat.exists_eq_add_of_lt enough
    rw [last, Blocks.get_of_some linked.1]
    simp
  | cons m ns ih =>
    obtain ⟨fuel, rfl⟩ := Nat.exists_eq_add_of_lt enough
    have hmem : m.1 ∈ places (m :: ns) := List.mem_cons_self
    have hne : m.1 ≠ 0 := fun hzero => linked.2.live hmem (hzero ▸ null)
    rw [last, Blocks.get_of_some linked.1, Run.done_bind, first_cons, if_pos hne]
    exact ih linked.2 (by rw [List.length_cons]; omega)

theorem countFrom_spec (node : h i = some n) (next : n.next = first ns 0) (linked : Linked h i ns 0)
    (null : h 0 = none) (enough : ns.length < fuel) :
    countFrom fuel h i j = .done (j + UInt32.ofNat ns.length) := by
  induction ns generalizing i n j fuel with
  | nil =>
    obtain ⟨fuel, rfl⟩ := Nat.exists_eq_add_of_lt enough
    rw [countFrom, Blocks.get_of_some node, Run.done_bind, if_neg (by simp [next])]
    simp
  | cons m ns ih =>
    obtain ⟨fuel, rfl⟩ := Nat.exists_eq_add_of_lt enough
    have hne : n.next ≠ 0 := by
      rw [next]
      have hmem : m.1 ∈ places (m :: ns) := List.mem_cons_self
      rw [first_cons]
      exact fun hzero => linked.live hmem (hzero ▸ null)
    rw [countFrom, Blocks.get_of_some node, Run.done_bind, if_pos hne, next, first_cons,
      ih linked.1 rfl linked.2 (by rw [List.length_cons]; omega), List.length_cons,
      UInt32.ofNat_add, UInt32.add_assoc, UInt32.add_comm 1]
    rfl

theorem lt_of_add {k : ℕ} (place : j.toNat + (k + 1) = pos.toNat) :
    j < pos ∧ (j + 1).toNat + k = pos.toNat := by
  have hpos := pos.toNat_lt
  refine ⟨UInt32.lt_iff_toNat_lt.2 (by omega), ?_⟩
  rw [UInt32.toNat_add, Nat.mod_eq_of_lt]
  · rw [show (1 : UInt32).toNat = 1 from rfl]
    omega
  · rw [show (1 : UInt32).toNat = 1 from rfl]
    omega

theorem find_spec (linked : Linked h start (mid ++ (q, y) :: rest) 0) (null : h 0 = none)
    (place : j.toNat + mid.length = pos.toNat) (enough : mid.length < fuel) :
    find pos fuel h (first (mid ++ (q, y) :: rest) 0) j = .done q := by
  induction mid generalizing start j fuel with
  | nil =>
    obtain ⟨fuel, rfl⟩ := Nat.exists_eq_add_of_lt enough
    rw [List.length_nil, Nat.add_zero] at place
    rw [find, if_neg (by rw [UInt32.lt_iff_toNat_lt]; omega)]
    rfl
  | cons m mid ih =>
    obtain ⟨fuel, rfl⟩ := Nat.exists_eq_add_of_lt enough
    obtain ⟨hlt, hnext⟩ := lt_of_add place
    rw [List.cons_append] at linked ⊢
    have hne : first (mid ++ (q, y) :: rest) 0 ≠ 0 := by
      rw [ne_eq, first_eq_zero_iff linked.2 null]
      simp
    rw [first_cons, find, if_pos hlt, Blocks.get_of_some linked.1, Run.done_bind, if_neg hne]
    exact ih linked.2 hnext (by rw [List.length_cons]; omega)

theorem walk_of_find (result : find pos fuel h i j = .done q) : walk pos fuel h i j = .done q := by
  induction fuel generalizing i j with
  | zero => cases result
  | succ fuel ih =>
    rw [find] at result
    rw [walk]
    split_ifs at result ⊢ with hlt
    · cases hget : h.get i with
      | done n =>
        rw [hget, Run.done_bind] at result
        rw [Run.done_bind]
        split_ifs at result
        exact ih result
      | halted t =>
        rw [hget] at result
        cases result
      | running =>
        rw [hget] at result
        cases result
    · exact result

theorem findInsert_spec (linked : Linked h start (mid ++ (q, y) :: rest) 0) (null : h 0 = none)
    (place : j.toNat + mid.length = pos.toNat) (enough : mid.length < fuel) :
    findInsert pos fuel h (first (mid ++ (q, y) :: rest) 0) j = .done (q, pos) := by
  induction mid generalizing start j fuel with
  | nil =>
    obtain ⟨fuel, rfl⟩ := Nat.exists_eq_add_of_lt enough
    rw [List.length_nil, Nat.add_zero] at place
    rw [findInsert, if_neg (by rw [UInt32.lt_iff_toNat_lt]; omega), UInt32.toNat_inj.1 place]
    rfl
  | cons m mid ih =>
    obtain ⟨fuel, rfl⟩ := Nat.exists_eq_add_of_lt enough
    obtain ⟨hlt, hnext⟩ := lt_of_add place
    rw [List.cons_append] at linked ⊢
    have hne : first (mid ++ (q, y) :: rest) 0 ≠ 0 := by
      rw [ne_eq, first_eq_zero_iff linked.2 null]
      simp
    rw [first_cons, findInsert, if_pos hlt, Blocks.get_of_some linked.1, Run.done_bind, if_neg hne]
    exact ih linked.2 hnext (by rw [List.length_cons]; omega)

/-- At the size of the list the loop of `insert` ends early, at the last node. -/
theorem findInsert_end (linked : Linked h start (mid ++ [(q, y)]) 0) (null : h 0 = none)
    (place : j.toNat + (mid.length + 1) = pos.toNat) (enough : mid.length < fuel) :
    findInsert pos fuel h (first (mid ++ [(q, y)]) 0) j = .done (q, pos - 1) := by
  induction mid generalizing start j fuel with
  | nil =>
    obtain ⟨fuel, rfl⟩ := Nat.exists_eq_add_of_lt enough
    obtain ⟨hlt, hnext⟩ := lt_of_add place
    have hj : j = pos - 1 := by
      rw [← UInt32.toNat_inj.1 hnext]
      simp
    rw [List.nil_append] at linked ⊢
    rw [first_cons, findInsert, if_pos hlt, Blocks.get_of_some linked.1, Run.done_bind, first_nil,
      if_pos rfl, if_pos hj, hj]
  | cons m mid ih =>
    obtain ⟨fuel, rfl⟩ := Nat.exists_eq_add_of_lt enough
    obtain ⟨hlt, hnext⟩ := lt_of_add place
    rw [List.cons_append] at linked ⊢
    have hne : first (mid ++ [(q, y)]) 0 ≠ 0 := by
      rw [ne_eq, first_eq_zero_iff linked.2 null]
      simp
    rw [first_cons, findInsert, if_pos hlt, Blocks.get_of_some linked.1, Run.done_bind, if_neg hne]
    exact ih linked.2 hnext (by rw [List.length_cons]; omega)

end Loops

/-! ## The methods -/

section Methods

variable {h₀ h : Blocks (Node α)} {this i p fuel : ℕ} {pos : UInt32} {new : New α} {n d : Node α}
  {x : α} {pre suf ns : List (ℕ × α)}

theorem set_of_some (node : h p = some n) (q : ℕ) (y : α) :
    setNext h p q = .done (Function.update h p (some { n with next := q })) ∧
      setPrev h p q = .done (Function.update h p (some { n with prev := q })) ∧
        setData h p y = .done (Function.update h p (some { n with data := y })) :=
  ⟨Blocks.modify_of_some node, Blocks.modify_of_some node, Blocks.modify_of_some node⟩

theorem ne_of_fresh (node : h i = some n) (fresh : h p = none) : i ≠ p := by
  rintro rfl
  rw [fresh] at node
  cases node

theorem appendTo_spec (chain : Chain h₀ h this ns) (ne : new.addr ≠ 0) (fresh : h new.addr = none) :
    ∃ h', appendTo new h (final this ns) x = .done h' ∧ Chain h₀ h' this (ns ++ [(new.addr, x)]) := by
  obtain ⟨n, hn⟩ := Option.ne_none_iff_exists'.1 (chain.live (final_mem this ns))
  have hne := ne_of_fresh hn fresh
  rw [← List.append_nil ns] at chain
  refine ⟨_, ?_, chain.insert ne fresh (joins_left hn hne) (Function.update_self _ _ _)⟩
  unfold appendTo
  rw [Blocks.alloc_of_fresh ne fresh, Run.done_bind,
    (set_of_some (by rw [Function.update_of_ne hne, hn]) _ x).1, Run.done_bind,
    (set_of_some (by rw [Function.update_of_ne hne.symm, Function.update_self]) _ x).2.1,
    Run.done_bind, (set_of_some (Function.update_self _ _ _) 0 x).2.2]
  congr 1
  funext q
  simp only [Function.update_apply]
  split_ifs <;> rfl

theorem prepend_spec (chain : Chain h₀ h this ns) (ne : new.addr ≠ 0) (fresh : h new.addr = none) :
    ∃ h', prepend new h this x = .done h' ∧ Chain h₀ h' this ((new.addr, x) :: ns) := by
  obtain ⟨d, hd⟩ := chain.head
  have hne := ne_of_fresh hd fresh
  rw [← List.nil_append ns] at chain
  unfold prepend
  dsimp only
  rw [Blocks.alloc_of_fresh ne fresh, Run.done_bind, (set_of_some (Function.update_self _ _ _) _ x).2.1,
    Run.done_bind, Blocks.get_of_some (by rw [Function.update_of_ne hne, Function.update_of_ne hne, hd]),
    Run.done_bind, (set_of_some (Function.update_self _ _ _) _ x).1, Run.done_bind]
  dsimp only
  by_cases hns : ns = []
  · subst hns
    refine ⟨_, ?_, chain.insert ne fresh (joins_left hd hne) (Function.update_self _ _ _)⟩
    rw [first_nil, if_neg (not_not.2 rfl), Run.done_bind, (set_of_some (by
      rw [Function.update_of_ne hne, Function.update_of_ne hne, Function.update_of_ne hne, hd]) _ x).1,
      Run.done_bind,
      (set_of_some (by rw [Function.update_of_ne hne.symm, Function.update_self]) 0 x).2.2]
    congr 1
    funext q
    simp only [Function.update_apply, final_nil]
    split_ifs <;> rfl
  · have hmem : first ns 0 ∈ this :: places ([] ++ ns) := List.mem_cons_of_mem _ (first_mem hns)
    have hzero := chain.ne_zero hmem
    obtain ⟨m, hm⟩ := Option.ne_none_iff_exists'.1 (chain.live hmem)
    have hne' := ne_of_fresh hm fresh
    have hapart : this ≠ first ns 0 := fun heq =>
      ((chain.gap fresh).apart.2.2.2 hns).2 (heq ▸ List.mem_cons_self)
    refine ⟨_, ?_, chain.insert ne fresh (joins_both hd hm hne hne' hapart hzero)
      (Function.update_self _ _ _)⟩
    rw [if_pos hzero, (set_of_some (by
      rw [Function.update_of_ne hne', Function.update_of_ne hne', Function.update_of_ne hne', hm]) _
        x).2.1, Run.done_bind, (set_of_some (by
      rw [Function.update_of_ne hapart, Function.update_of_ne hne, Function.update_of_ne hne,
        Function.update_of_ne hne, hd]) _ x).1, Run.done_bind,
      (set_of_some (by rw [Function.update_of_ne hne.symm, Function.update_of_ne hne'.symm,
        Function.update_self]) 0 x).2.2]
    congr 1
    funext q
    simp only [Function.update_apply, final_nil]
    grind

theorem neighbours (parts : Parts h₀ h this pre suf i i p) (hns : suf ≠ []) :
    ∃ n m, h (final this pre) = some n ∧ h (first suf 0) = some m ∧ final this pre ≠ first suf 0 ∧
      first suf 0 ≠ 0 ∧ first suf 0 ≠ p := by
  obtain ⟨hlive, -, hout, hfirst⟩ := parts.apart
  obtain ⟨n, hn⟩ := Option.ne_none_iff_exists'.1 hlive
  have hlive' : h (first suf 0) ≠ none := parts.back.live (first_mem hns)
  obtain ⟨m, hm⟩ := Option.ne_none_iff_exists'.1 hlive'
  refine ⟨n, m, hn, hm, fun heq => hout (heq ▸ first_mem hns), fun hzero => hlive' ?_, (hfirst hns).1⟩
  rw [hzero, parts.null]

/-- `insert` in front of an element. -/
theorem insertBefore_spec {y : α} (chain : Chain h₀ h this (pre ++ (i, y) :: suf)) (ne : new.addr ≠ 0)
    (fresh : h new.addr = none) :
    ∃ h', (do
        let newlist := new.addr
        let h ← h.alloc newlist ⟨0, 0, new.data⟩
        let n ← h.get i
        let h ← setNext h n.prev newlist
        let n ← h.get i
        let h ← setPrev h newlist n.prev
        let h ← setNext h newlist i
        let h ← setPrev h i newlist
        setData h newlist x) = .done h' ∧
      Chain h₀ h' this (pre ++ (new.addr, x) :: (i, y) :: suf) := by
  obtain ⟨hparts, hi, -⟩ := chain.around
  obtain ⟨hlive, hapart, -, -⟩ := hparts.apart
  obtain ⟨n, hn⟩ := Option.ne_none_iff_exists'.1 hlive
  have hnew := ne_of_fresh hn fresh
  have hinew := ne_of_fresh hi fresh
  have hmem : i ∈ this :: places (pre ++ (i, y) :: suf) := by simp
  refine ⟨_, ?_, chain.insert ne fresh (joins_both hn hi hnew hinew hapart (chain.ne_zero hmem))
    (Function.update_self _ _ _)⟩
  dsimp only
  rw [Blocks.alloc_of_fresh ne fresh, Run.done_bind,
    Blocks.get_of_some (by rw [Function.update_of_ne hinew, hi]), Run.done_bind,
    (set_of_some (by rw [Function.update_of_ne hnew, hn]) _ x).1, Run.done_bind,
    Blocks.get_of_some (by rw [Function.update_of_ne hapart.symm, Function.update_of_ne hinew, hi]),
    Run.done_bind,
    (set_of_some (by rw [Function.update_of_ne hnew.symm, Function.update_self]) _ x).2.1, Run.done_bind,
    (set_of_some (Function.update_self _ _ _) _ x).1, Run.done_bind,
    (set_of_some (by rw [Function.update_of_ne hinew, Function.update_of_ne hinew,
      Function.update_of_ne hapart.symm, Function.update_of_ne hinew, hi]) _ x).2.1, Run.done_bind,
    (set_of_some (by rw [Function.update_of_ne hinew.symm, Function.update_self]) 0 x).2.2]
  congr 1
  funext q
  simp only [Function.update_apply, first_cons]
  grind

/-- The last element is taken out. -/
theorem dropLast_spec (chain : Chain h₀ h this (pre ++ [(i, x)])) :
    ∃ h', dropLast h i = .done h' ∧ Chain h₀ h' this pre := by
  obtain ⟨hparts, hi, -⟩ := chain.around
  obtain ⟨hlive, hapart, -, -⟩ := hparts.apart
  obtain ⟨n, hn⟩ := Option.ne_none_iff_exists'.1 hlive
  have hmem : i ∈ this :: places (pre ++ [(i, x)]) := by simp
  have hchain := chain.remove (joins_left hn hapart) (Function.update_self _ _ _)
  rw [List.append_nil] at hchain
  refine ⟨_, ?_, hchain⟩
  unfold dropLast
  rw [Blocks.get_of_some hi, Run.done_bind, (set_of_some hn _ x).1, Run.done_bind,
    Blocks.free_of_some (chain.ne_zero hmem) (by rw [Function.update_of_ne hapart.symm, hi])]
  rfl

theorem removeFirst_spec (chain : Chain h₀ h this ((p, x) :: ns)) :
    ∃ h', removeFirst h this = .done h' ∧ Chain h₀ h' this ns := by
  obtain ⟨d, hd⟩ := chain.head
  rw [← List.nil_append ((p, x) :: ns)] at chain
  obtain ⟨hparts, hp, -⟩ := chain.around
  have hmem : p ∈ this :: places ([] ++ (p, x) :: ns) := by simp
  have hne : this ≠ p := hparts.apart.2.1
  unfold removeFirst
  rw [Blocks.get_of_some hd, Run.done_bind, first_cons, Blocks.get_of_some hp, Run.done_bind]
  by_cases hns : ns = []
  · subst hns
    refine ⟨_, ?_, chain.remove (joins_left hd hne) (Function.update_self _ _ _)⟩
    rw [first_nil, if_neg (not_not.2 rfl), Blocks.free_of_some (chain.ne_zero hmem) hp, Run.done_bind,
      (set_of_some (by rw [Function.update_of_ne hne, hd]) _ x).1]
    congr 1
    funext q
    simp only [Function.update_apply, final_nil]
    grind
  · obtain ⟨-, m, -, hm, hapart, hzero, hmp⟩ := neighbours hparts hns
    have hprev : m.prev = p := by
      obtain ⟨e, l, rfl⟩ := List.exists_cons_of_ne_nil hns
      rw [Option.some.inj (hm.symm.trans hparts.back.1)]
    refine ⟨_, ?_, chain.remove (joins_both hd hm hne hmp hapart hzero) (Function.update_self _ _ _)⟩
    rw [final_nil] at hapart
    rw [if_pos hzero, (set_of_some hd _ x).1, Run.done_bind,
      Blocks.get_of_some (by rw [Function.update_of_ne hapart.symm, hm]), Run.done_bind, hprev,
      Blocks.free_of_some (chain.ne_zero hmem) (by rw [Function.update_of_ne hne.symm, hp]),
      Run.done_bind, (set_of_some (by rw [Function.update_of_ne hmp, Function.update_of_ne hapart.symm,
        hm]) _ x).2.1]
    congr 1
    funext q
    simp only [Function.update_apply, final_nil]
    grind

theorem size_spec (chain : Chain h₀ h this ns) (enough : ns.length < fuel) :
    size fuel h this = .done (UInt32.ofNat ns.length) := by
  obtain ⟨d, hd⟩ := chain.head
  unfold size
  rw [Blocks.get_of_some hd, Run.done_bind]
  dsimp only
  split_ifs with hzero
  · rw [(first_eq_zero_iff chain.linked chain.null).1 hzero]
    rfl
  · rw [countFrom_spec hd rfl chain.linked chain.null enough, UInt32.zero_add]

theorem append_spec (chain : Chain h₀ h this ns) (ne : new.addr ≠ 0) (fresh : h new.addr = none) :
    ∃ h', (∀ fuel, ns.length < fuel → append fuel new h this x = .done h') ∧
      Chain h₀ h' this (ns ++ [(new.addr, x)]) := by
  obtain ⟨d, hd⟩ := chain.head
  obtain ⟨h', happend, hchain⟩ := appendTo_spec (x := x) chain ne fresh
  refine ⟨h', fun fuel enough => ?_, hchain⟩
  unfold append
  rw [Blocks.get_of_some hd, Run.done_bind]
  dsimp only
  split_ifs with hzero
  · rw [(first_eq_zero_iff chain.linked chain.null).1 hzero] at happend
    exact happend
  · obtain ⟨m, l, rfl⟩ := List.exists_cons_of_ne_nil fun hnil =>
      hzero ((first_eq_zero_iff chain.linked chain.null).2 hnil)
    rw [first_cons, last_spec chain.linked chain.null (by rw [List.length_cons] at enough; omega),
      Run.done_bind]
    exact happend

theorem removeLast_spec (chain : Chain h₀ h this ns) :
    ∃ h', (∀ fuel, ns.length < fuel → removeLast fuel h this = .done h') ∧
      Chain h₀ h' this ns.dropLast := by
  obtain ⟨d, hd⟩ := chain.head
  have hcode : ∀ fuel, removeLast fuel h this =
      if first ns 0 = 0 then .done h else last fuel h (first ns 0) >>= fun i => dropLast h i := by
    intro fuel
    unfold removeLast
    rw [Blocks.get_of_some hd, Run.done_bind]
  rcases ns.eq_nil_or_concat with rfl | ⟨l, ⟨i, y⟩, rfl⟩
  · exact ⟨h, fun fuel _ => (hcode fuel).trans (if_pos rfl), chain⟩
  · rw [List.concat_eq_append] at chain hcode ⊢
    have hzero : first (l ++ [(i, y)]) 0 ≠ 0 := by
      rw [ne_eq, first_eq_zero_iff chain.linked chain.null]
      simp
    obtain ⟨h', hdrop, hchain⟩ := dropLast_spec chain
    refine ⟨h', fun fuel enough => ?_, by rwa [List.dropLast_concat]⟩
    have hlast : last fuel h (first (l ++ [(i, y)]) 0) = .done i := by
      have hlinked := chain.linked
      rw [List.length_append, List.length_singleton] at enough
      cases l with
      | nil => exact last_spec hlinked chain.null (by rw [List.length_nil]; omega)
      | cons m l =>
        rw [List.cons_append] at hlinked ⊢
        rw [List.length_cons] at enough
        rw [first_cons, last_spec hlinked chain.null (by simp; omega), final_append]
        rfl
    rw [hcode, if_neg hzero, hlast, Run.done_bind, hdrop]

theorem insert_spec (chain : Chain h₀ h this (pre ++ suf)) (place : pos.toNat = pre.length)
    (ne : new.addr ≠ 0) (fresh : h new.addr = none) :
    ∃ h', (∀ fuel, pre.length < fuel → insert fuel new h this pos x = .done h') ∧
      Chain h₀ h' this (pre ++ (new.addr, x) :: suf) := by
  rcases pre.eq_nil_or_concat with rfl | ⟨l, ⟨a, z⟩, rfl⟩
  · obtain ⟨h', hprepend, hchain⟩ := prepend_spec (x := x) chain ne fresh
    exact ⟨h', fun fuel _ => (if_pos (UInt32.toNat_inj.1 place)).trans hprepend, hchain⟩
  · rw [List.concat_eq_append] at chain place ⊢
    obtain ⟨d, hd⟩ := chain.head
    have hpos : pos ≠ 0 := by
      rintro rfl
      simp at place
    have hzero : first (l ++ [(a, z)] ++ suf) 0 ≠ 0 := by
      rw [ne_eq, first_eq_zero_iff chain.linked chain.null]
      simp
    cases suf with
    | nil =>
      -- behind the last element
      obtain ⟨h', happend, hchain⟩ := appendTo_spec (x := x) chain ne fresh
      rw [List.append_nil] at chain hd happend hchain
      have hplace : (0 : UInt32).toNat + (l.length + 1) = pos.toNat := by
        rw [place, List.length_append]
        exact Nat.zero_add _
      have hnode := (chain.around).2.1
      rw [final_append] at happend
      refine ⟨h', fun fuel enough => ?_, hchain⟩
      rw [List.length_append] at enough
      rw [List.append_nil] at hzero
      unfold insert
      rw [if_neg hpos, Blocks.get_of_some hd, Run.done_bind]
      dsimp only
      rw [if_neg hzero, findInsert_end chain.linked chain.null hplace (by omega), Run.done_bind]
      dsimp only
      rw [Blocks.get_of_some hnode, Run.done_bind, if_pos ⟨rfl, rfl⟩]
      exact happend
    | cons e rest =>
      obtain ⟨i, y⟩ := e
      obtain ⟨h', hinsert, hchain⟩ := insertBefore_spec (x := x) chain ne fresh
      have hplace : (0 : UInt32).toNat + (l ++ [(a, z)]).length = pos.toNat := by
        rw [place]
        exact Nat.zero_add _
      have hnode := (chain.around).2.1
      have hlast : ¬pos = pos - 1 := by
        intro heq
        have h := congrArg (· + 1) heq
        simp at h
      refine ⟨h', fun fuel enough => ?_, hchain⟩
      unfold insert
      rw [if_neg hpos, Blocks.get_of_some hd, Run.done_bind]
      dsimp only
      rw [if_neg hzero, findInsert_spec chain.linked chain.null hplace enough, Run.done_bind]
      dsimp only
      rw [Blocks.get_of_some hnode, Run.done_bind, if_neg fun h => hlast h.2]
      exact hinsert

theorem removeAt_spec (chain : Chain h₀ h this (pre ++ (i, x) :: suf))
    (place : pos.toNat = pre.length) :
    ∃ h', (∀ fuel, pre.length < fuel → removeAt fuel h this pos = .done h') ∧
      Chain h₀ h' this (pre ++ suf) := by
  obtain ⟨d, hd⟩ := chain.head
  have hzero : first (pre ++ (i, x) :: suf) 0 ≠ 0 := by
    rw [ne_eq, first_eq_zero_iff chain.linked chain.null]
    simp
  have hcode : ∀ fuel, removeAt fuel h this pos =
      if pos = 0 then removeFirst h this
      else (do
        let i ← find pos fuel h (first (pre ++ (i, x) :: suf) 0) 0
        let n ← h.get i
        if n.next = 0 then dropLast h i
        else do
          let h ← setNext h n.prev n.next
          let n ← h.get i
          let h ← setPrev h n.next n.prev
          h.free i) := by
    intro fuel
    unfold removeAt
    rw [Blocks.get_of_some hd, Run.done_bind]
    exact if_neg hzero
  by_cases hpre : pre = []
  · subst hpre
    obtain ⟨h', hremove, hchain⟩ := removeFirst_spec chain
    have hpos : pos = 0 := UInt32.toNat_inj.1 place
    exact ⟨h', fun fuel _ => (hcode fuel).trans ((if_pos hpos).trans hremove), hchain⟩
  · have hpos : pos ≠ 0 := by
      rintro rfl
      exact hpre (List.length_eq_zero_iff.1 place.symm)
    have hplace : (0 : UInt32).toNat + pre.length = pos.toNat := by
      rw [place]
      exact Nat.zero_add _
    obtain ⟨hparts, hi, -⟩ := chain.around
    by_cases hsuf : suf = []
    · subst hsuf
      obtain ⟨h', hdrop, hchain⟩ := dropLast_spec chain
      rw [List.append_nil]
      refine ⟨h', fun fuel enough => ?_, hchain⟩
      rw [hcode, if_neg hpos, find_spec chain.linked chain.null hplace enough, Run.done_bind,
        Blocks.get_of_some hi, Run.done_bind]
      exact (if_pos rfl).trans hdrop
    · obtain ⟨n, m, hn, hm, hapart, hlive, hmi⟩ := neighbours hparts hsuf
      have hne := hparts.apart.2.1
      have hmem : i ∈ this :: places (pre ++ (i, x) :: suf) := by simp
      refine ⟨_, fun fuel enough => ?_,
        chain.remove (joins_both hn hm hne hmi hapart hlive) (Function.update_self _ _ _)⟩
      rw [hcode, if_neg hpos, find_spec chain.linked chain.null hplace enough, Run.done_bind,
        Blocks.get_of_some hi, Run.done_bind]
      dsimp only
      rw [if_neg hlive, (set_of_some hn _ x).1, Run.done_bind,
        Blocks.get_of_some (by rw [Function.update_of_ne hne.symm, hi]), Run.done_bind,
        (set_of_some (by rw [Function.update_of_ne hapart.symm, hm]) _ x).2.1, Run.done_bind,
        Blocks.free_of_some (chain.ne_zero hmem)
          (by rw [Function.update_of_ne hmi.symm, Function.update_of_ne hne.symm, hi])]

theorem at_spec [Zero α] (chain : Chain h₀ h this (pre ++ (i, x) :: suf))
    (place : pos.toNat = pre.length) (enough : pre.length < fuel) :
    at' fuel h this pos = .done x ∧ index fuel h this pos = .done x := by
  obtain ⟨d, hd⟩ := chain.head
  have hnode := (chain.around).2.1
  have hzero : first (pre ++ (i, x) :: suf) 0 ≠ 0 := by
    rw [ne_eq, first_eq_zero_iff chain.linked chain.null]
    simp
  have hplace : (0 : UInt32).toNat + pre.length = pos.toNat := by
    rw [place]
    exact Nat.zero_add _
  have hfind := find_spec chain.linked chain.null hplace enough
  unfold at' index
  rw [Blocks.get_of_some hd, Run.done_bind, Run.done_bind]
  dsimp only
  rw [if_neg hzero, hfind, walk_of_find hfind, Run.done_bind, Blocks.get_of_some hnode]
  exact ⟨rfl, rfl⟩

theorem empty_spec (chain : Chain h₀ h this ns) (short : ns.length < 2 ^ 32) :
    ∃ h', (∀ fuel, ns.length + 1 < fuel → empty fuel h this = .done h') ∧ Chain h₀ h' this [] := by
  induction ns generalizing h with
  | nil =>
    refine ⟨h, fun fuel enough => ?_, chain⟩
    obtain ⟨fuel, rfl⟩ := Nat.exists_eq_add_of_lt enough
    rw [empty, size_spec chain (by rw [List.length_nil]; omega), Run.done_bind, if_neg (by simp)]
  | cons n ns ih =>
    obtain ⟨h₁, hremove, hchain⟩ := removeFirst_spec chain
    rw [List.length_cons] at short
    have hsize : UInt32.ofNat (n :: ns).length ≠ 0 := by
      intro hzero
      have h := congrArg UInt32.toNat hzero
      rw [List.length_cons, UInt32.toNat_ofNat_of_lt' short] at h
      simp at h
    obtain ⟨h', hempty, hend⟩ := ih hchain (by omega)
    refine ⟨h', fun fuel enough => ?_, hend⟩
    obtain ⟨fuel, rfl⟩ := Nat.exists_eq_add_of_lt enough
    rw [empty, size_spec chain (by omega), Run.done_bind, if_pos hsize, hremove, Run.done_bind,
      hempty _ (by rw [List.length_cons]; omega)]

end Methods

/-! ## Runs -/

/-- A call of a method that changes the list. -/
inductive Op (α : Type)
  | append (udata : α)
  | prepend (udata : α)
  | insert (pos : UInt32) (udata : α)
  | removeAt (index : UInt32)
  | removeLast
  | removeFirst
  | empty

/-- The call on the nodes. -/
def Op.call (fuel : ℕ) (new : New α) (h : Blocks (Node α)) (this : ℕ) :
    Op α → Run BlockFault (Blocks (Node α))
  | .append udata => Llist.append fuel new h this udata
  | .prepend udata => Llist.prepend new h this udata
  | .insert pos udata => Llist.insert fuel new h this pos udata
  | .removeAt index => Llist.removeAt fuel h this index
  | .removeLast => Llist.removeLast fuel h this
  | .removeFirst => Llist.removeFirst h this
  | .empty => Llist.empty fuel h this

/-- The call on the list of the elements. -/
def Op.apply (xs : List α) : Op α → List α
  | .append udata => xs ++ [udata]
  | .prepend udata => udata :: xs
  | .insert pos udata => xs.take pos.toNat ++ udata :: xs.drop pos.toNat
  | .removeAt index => xs.eraseIdx index.toNat
  | .removeLast => xs.dropLast
  | .removeFirst => xs.tail
  | .empty => []

/-- The positions are in the list. -/
def Op.Fits (xs : List α) : Op α → Prop
  | .insert pos _ => pos.toNat ≤ xs.length
  | .removeAt index => index.toNat < xs.length
  | .removeFirst => xs ≠ []
  | _ => True

/-- A list that is emptied is not too long for `size`. -/
def Op.Short (xs : List α) : Op α → Prop
  | .empty => xs.length < 2 ^ 32
  | _ => True

/-- The call asks for a new node. -/
def Op.Allocates : Op α → Prop
  | .append _ => True
  | .prepend _ => True
  | .insert _ _ => True
  | _ => False

/-- The memories and lists of the runs from an empty list, whose calls are allowed and get the memory
that they ask for. -/
inductive Reach (h₀ : Blocks (Node α)) (this : ℕ) (allowed : List α → Op α → Prop) :
    Blocks (Node α) → List α → Prop
  | start : Reach h₀ this allowed h₀ []
  | step {h h' : Blocks (Node α)} {xs : List α} {op : Op α} {new : New α}
      (run : Reach h₀ this allowed h xs) (allows : allowed xs op)
      (succeeds : op.Allocates → new.addr ≠ 0 ∧ h new.addr = none)
      (result : Run.Ends (fun fuel => op.call fuel new h this) h') :
      Reach h₀ this allowed h' (op.apply xs)

section Runs

variable {h₀ h h' : Blocks (Node α)} {this : ℕ} {d : α} {new : New α} {op : Op α} {xs : List α}
  {ns : List (ℕ × α)}

theorem chain_start (object : h₀ this = some ⟨0, 0, d⟩) (null : h₀ 0 = none) : Chain h₀ h₀ this [] where
  null := null
  head := ⟨d, object⟩
  linked := trivial
  nodup := List.nodup_singleton this
  frame := fun _ _ => rfl
  fresh := fun q hq => by cases hq

/-- A call ends, and does to the chain what it does to the list. -/
theorem call_spec (chain : Chain h₀ h this ns) (fits : op.Fits (ns.map Prod.snd))
    (short : op.Short (ns.map Prod.snd)) (succeeds : op.Allocates → new.addr ≠ 0 ∧ h new.addr = none) :
    ∃ h' ns', Run.Ends (fun fuel => op.call fuel new h this) h' ∧ Chain h₀ h' this ns' ∧
      ns'.map Prod.snd = op.apply (ns.map Prod.snd) := by
  cases op with
  | append udata =>
    obtain ⟨hne, hfresh⟩ := succeeds trivial
    obtain ⟨h', hcall, hchain⟩ := append_spec (x := udata) chain hne hfresh
    exact ⟨h', _, ⟨_, hcall⟩, hchain, by simp [Op.apply]⟩
  | prepend udata =>
    obtain ⟨hne, hfresh⟩ := succeeds trivial
    obtain ⟨h', hcall, hchain⟩ := prepend_spec (x := udata) chain hne hfresh
    exact ⟨h', _, ⟨0, fun _ _ => hcall⟩, hchain, rfl⟩
  | insert pos udata =>
    obtain ⟨hne, hfresh⟩ := succeeds trivial
    have hfits : pos.toNat ≤ ns.length := by simpa [Op.Fits] using fits
    rw [← List.take_append_drop pos.toNat ns] at chain
    obtain ⟨h', hcall, hchain⟩ := insert_spec (x := udata) chain
      (show pos.toNat = (ns.take pos.toNat).length by rw [List.length_take]; omega) hne hfresh
    exact ⟨h', _, ⟨_, hcall⟩, hchain, by simp [Op.apply]⟩
  | removeAt index =>
    have hfits : index.toNat < ns.length := by simpa [Op.Fits] using fits
    obtain ⟨pre, ⟨i, x⟩, suf, rfl, hlength⟩ : ∃ pre n suf, ns = pre ++ n :: suf ∧
        pre.length = index.toNat :=
      ⟨ns.take index.toNat, ns[index.toNat], ns.drop (index.toNat + 1), by simp,
        by rw [List.length_take]; omega⟩
    obtain ⟨h', hcall, hchain⟩ := removeAt_spec chain hlength.symm
    refine ⟨h', _, ⟨_, hcall⟩, hchain, ?_⟩
    rw [Op.apply, ← hlength, List.map_append, List.map_append, List.map_cons,
      List.eraseIdx_append_of_length_le (by simp)]
    simp
  | removeLast =>
    obtain ⟨h', hcall, hchain⟩ := removeLast_spec chain
    exact ⟨h', _, ⟨_, hcall⟩, hchain, by rw [Op.apply, List.map_dropLast]⟩
  | removeFirst =>
    cases ns with
    | nil => exact absurd rfl fits
    | cons n ns =>
      obtain ⟨h', hcall, hchain⟩ := removeFirst_spec chain
      exact ⟨h', _, ⟨0, fun _ _ => hcall⟩, hchain, rfl⟩
  | empty =>
    obtain ⟨h', hcall, hchain⟩ := empty_spec chain (by simpa [Op.Short] using short)
    exact ⟨h', _, ⟨_, hcall⟩, hchain, rfl⟩

/-- In every run the nodes are a chain with the elements of the list. -/
theorem Reach.chain (object : h₀ this = some ⟨0, 0, d⟩) (null : h₀ 0 = none)
    (run : Reach h₀ this (fun xs op => op.Fits xs ∧ op.Short xs) h xs) :
    ∃ ns, Chain h₀ h this ns ∧ ns.map Prod.snd = xs := by
  induction run with
  | start => exact ⟨[], chain_start object null, rfl⟩
  | step _ allows succeeds result ih =>
    obtain ⟨ns, hchain, rfl⟩ := ih
    obtain ⟨h', ns', hcall, hchain', hlist⟩ := call_spec hchain allows.1 allows.2 succeeds
    rw [result.unique hcall]
    exact ⟨ns', hchain', hlist⟩

/-- In every run of the methods that does not empty a list of `2 ^ 32` elements, the nodes are a doubly
linked chain with the elements of the list, and nothing else in memory has changed; `at` and `operator[]`
read its elements, and `size` its length modulo `2 ^ 32`; and the next call ends. -/
theorem llist_refines [Zero α] (object : h₀ this = some ⟨0, 0, d⟩) (null : h₀ 0 = none)
    (run : Reach h₀ this (fun xs op => op.Fits xs ∧ op.Short xs) h xs) :
    (∃ ns, Chain h₀ h this ns ∧ ns.map Prod.snd = xs) ∧
    Run.Ends (fun fuel => size fuel h this) (UInt32.ofNat xs.length) ∧
    (∀ (pos : UInt32) (x : α), xs[pos.toNat]? = some x →
      Run.Ends (fun fuel => at' fuel h this pos) x ∧ Run.Ends (fun fuel => index fuel h this pos) x) ∧
    ∀ (op : Op α) (new : New α), op.Fits xs → op.Short xs →
      (op.Allocates → new.addr ≠ 0 ∧ h new.addr = none) →
        ∃ h', Run.Ends (fun fuel => op.call fuel new h this) h' := by
  obtain ⟨ns, hchain, rfl⟩ := run.chain object null
  refine ⟨⟨ns, hchain, rfl⟩, ⟨ns.length, fun fuel hlt => ?_⟩, fun pos x hx => ?_,
    fun op new hfits hshort hsucceeds => ?_⟩
  · rw [List.length_map]
    exact size_spec hchain hlt
  · rw [List.getElem?_map, Option.map_eq_some_iff] at hx
    obtain ⟨⟨i, y⟩, hget, rfl⟩ := hx
    obtain ⟨hlt, hget⟩ := List.getElem?_eq_some_iff.1 hget
    obtain ⟨pre, suf, rfl, hlength⟩ : ∃ pre suf, ns = pre ++ (i, y) :: suf ∧
        pre.length = pos.toNat :=
      ⟨ns.take pos.toNat, ns.drop (pos.toNat + 1), by rw [← hget]; simp,
        by rw [List.length_take]; omega⟩
    exact ⟨⟨pre.length, fun fuel enough => (at_spec hchain hlength.symm enough).1⟩,
      ⟨pre.length, fun fuel enough => (at_spec hchain hlength.symm enough).2⟩⟩
  · obtain ⟨h', ns', hcall, -⟩ := call_spec hchain hfits hshort hsucceeds
    exact ⟨h', hcall⟩

/-- A memory with nothing but an empty list. -/
def bare : Blocks (Node ℕ) := Function.update (fun _ => none) 1 (some ⟨0, 0, 0⟩)

theorem bare_fresh {h : Blocks (Node ℕ)} {ns : List (ℕ × ℕ)} {q : ℕ} (chain : Chain bare h 1 ns)
    (other : q ∉ 1 :: places ns) : h q = none := by
  rw [chain.frame q other, bare, Function.update_of_ne]
  exact fun heq => other (heq ▸ List.mem_cons_self)

/-- Two elements are appended, one is inserted between them, and the first one is removed. -/
theorem llist_refines_bare : ∃ h,
    Reach bare 1 (fun xs op => op.Fits xs ∧ op.Short xs) h [9, 8] ∧
    (∃ ns, Chain bare h 1 ns ∧ ns.map Prod.snd = [9, 8]) ∧ Run.Ends (fun fuel => size fuel h 1) 2 ∧
    Run.Ends (fun fuel => at' fuel h 1 0) 9 ∧ Run.Ends (fun fuel => index fuel h 1 1) 8 := by
  have object : bare 1 = some ⟨0, 0, 0⟩ := rfl
  have null : bare 0 = none := rfl
  have chain₀ : Chain bare bare 1 [] := chain_start object null
  have fresh₂ : bare 2 = none := bare_fresh chain₀ (by decide)
  obtain ⟨h₁, hcall₁, chain₁⟩ : ∃ h', (∀ fuel, 0 < fuel → append fuel ⟨2, 0⟩ bare 1 7 = .done h') ∧
      Chain bare h' 1 [(2, 7)] := append_spec chain₀ (by decide) fresh₂
  have run₁ : Reach bare 1 (fun xs op => op.Fits xs ∧ op.Short xs) h₁ [7] :=
    @Reach.step _ _ _ _ _ _ _ (.append 7) ⟨2, 0⟩ .start ⟨trivial, trivial⟩
      (fun _ => ⟨by decide, fresh₂⟩) ⟨0, hcall₁⟩
  have fresh₃ : h₁ 3 = none := bare_fresh chain₁ (by decide)
  obtain ⟨h₂, hcall₂, chain₂⟩ : ∃ h', (∀ fuel, 1 < fuel → append fuel ⟨3, 0⟩ h₁ 1 8 = .done h') ∧
      Chain bare h' 1 [(2, 7), (3, 8)] := append_spec chain₁ (by decide) fresh₃
  have run₂ : Reach bare 1 (fun xs op => op.Fits xs ∧ op.Short xs) h₂ [7, 8] :=
    @Reach.step _ _ _ _ _ _ _ (.append 8) ⟨3, 0⟩ run₁ ⟨trivial, trivial⟩
      (fun _ => ⟨by decide, fresh₃⟩) ⟨1, hcall₂⟩
  have fresh₄ : h₂ 4 = none := bare_fresh chain₂ (by decide)
  have before : Chain bare h₂ 1 ([(2, 7)] ++ [(3, 8)]) := chain₂
  obtain ⟨h₃, hcall₃, chain₃⟩ : ∃ h',
      (∀ fuel, [((2 : ℕ), (7 : ℕ))].length < fuel → insert fuel ⟨4, 0⟩ h₂ 1 1 9 = .done h') ∧
      Chain bare h' 1 ([(2, 7)] ++ (4, 9) :: [(3, 8)]) := insert_spec before rfl (by decide) fresh₄
  have run₃ : Reach bare 1 (fun xs op => op.Fits xs ∧ op.Short xs) h₃ [7, 9, 8] :=
    @Reach.step _ _ _ _ _ _ _ (.insert 1 9) ⟨4, 0⟩ run₂ ⟨by unfold Op.Fits; decide, trivial⟩
      (fun _ => ⟨by decide, fresh₄⟩) ⟨1, hcall₃⟩
  have inserted : Chain bare h₃ 1 ([] ++ (2, 7) :: [(4, 9), (3, 8)]) := chain₃
  obtain ⟨h₄, hcall₄, -⟩ : ∃ h', (∀ fuel, 0 < fuel → removeAt fuel h₃ 1 0 = .done h') ∧
      Chain bare h' 1 ([] ++ [(4, 9), (3, 8)]) := removeAt_spec inserted rfl
  have run₄ : Reach bare 1 (fun xs op => op.Fits xs ∧ op.Short xs) h₄ [9, 8] :=
    @Reach.step _ _ _ _ _ _ _ (.removeAt 0) ⟨0, 0⟩ run₃ ⟨by unfold Op.Fits; decide, trivial⟩
      (fun hallocates => hallocates.elim) ⟨0, hcall₄⟩
  obtain ⟨hchain, hsize, hread, -⟩ := llist_refines object null run₄
  exact ⟨h₄, run₄, hchain, hsize, (hread 0 9 rfl).1, (hread 1 8 rfl).2⟩

theorem exists_long (n : ℕ) : ∃ (h : Blocks (Node ℕ)) (ns : List (ℕ × ℕ)),
    Reach bare 1 (fun xs op => op.Fits xs) h (ns.map Prod.snd) ∧ Chain bare h 1 ns ∧ ns.length = n ∧
      ∀ q ∈ places ns, q < n + 2 := by
  induction n with
  | zero => exact ⟨bare, [], .start, chain_start (d := 0) rfl rfl, rfl, fun q hq => by cases hq⟩
  | succ n ih =>
    obtain ⟨h, ns, hrun, hchain, hlength, hlow⟩ := ih
    have hfresh : h (n + 2) = none := by
      rw [hchain.frame (n + 2) fun hmem => ?_, bare, Function.update_of_ne (by omega)]
      rw [List.mem_cons] at hmem
      rcases hmem with heq | hmem
      · omega
      · exact absurd (hlow _ hmem) (lt_irrefl _)
    have hnew : (⟨n + 2, 0⟩ : New ℕ).addr ≠ 0 ∧ h (⟨n + 2, 0⟩ : New ℕ).addr = none :=
      ⟨Nat.succ_ne_zero _, hfresh⟩
    obtain ⟨h', hcall, hchain'⟩ := append_spec (x := 0) hchain hnew.1 hnew.2
    have hends : Run.Ends (fun fuel => (Op.append 0).call fuel ⟨n + 2, 0⟩ h 1) h' := ⟨_, hcall⟩
    refine ⟨h', ns ++ [(n + 2, 0)], ?_, hchain', by simp [hlength], fun q hq => ?_⟩
    · rw [List.map_append]
      have hfits : (Op.append 0).Fits (ns.map Prod.snd) := trivial
      exact hrun.step hfits (fun _ => hnew) hends
    · rw [places_append, List.mem_append, places_cons, places_nil, List.mem_singleton] at hq
      rcases hq with hq | rfl
      · exact (hlow q hq).trans (Nat.lt_succ_self _)
      · exact Nat.lt_succ_self _

/-- The size of a list of `2 ^ 32` elements is read as 0. -/
theorem llist_size_wraps : ¬ ∀ (h₀ h : Blocks (Node ℕ)) (this d : ℕ) (xs : List ℕ),
    h₀ this = some ⟨0, 0, d⟩ → h₀ 0 = none → Reach h₀ this (fun xs op => op.Fits xs) h xs →
      ∃ n, Run.Ends (fun fuel => size fuel h this) n ∧ n.toNat = xs.length := by
  intro hall
  obtain ⟨h, ns, hrun, hchain, hlength, -⟩ := exists_long (2 ^ 32)
  obtain ⟨n, hends, hn⟩ := hall bare h 1 0 _ rfl rfl hrun
  have hsize : Run.Ends (fun fuel => size fuel h 1) (UInt32.ofNat ns.length) :=
    ⟨ns.length, fun fuel hlt => size_spec hchain hlt⟩
  rw [hends.unique hsize, List.length_map, hlength] at hn
  exact absurd hn (by decide)

end Runs

end Llist
