import SepplesOS.Disk.Mount
import SepplesOS.Disk.Vfs
import SepplesOS.Lib.Lockstep
import SepplesOS.Lib.OwnedTree

/-!
# The nodes of the VFS in memory

`NodeEXT2::lookup` deletes the children that it made the last time, with all that lies below them, and
makes new ones.  So a pointer that `resolvePath` returns may outlive its node.  The functions of
`kernel/disk/vfs.cpp` and of `NodeEXT2` (`kernel/disk/ext2.cpp`) work on nodes here, and the tree of
`VFS.NodeTree` is what they are compared with: its nodes are the paths of the nodes in memory.

`none` stands for an access to a node that has been deleted.  What a directory holds is a parameter,
the list of names and contents that the records of the directory give.
-/

open OwnedTree VFS

namespace NodeHeap

variable {β : Type}

/-- What a node is: its name, and for a `NodeEXT2` its inode. -/
structure NodeData (β : Type) where
  name : CString
  body : Option β

/-- The nodes in memory. -/
abbrev Nodes (β : Type) := Heap (NodeData β)

/-- `VFS::root`, its own parent. -/
def root : ℕ := 0

/-- `VFS::init`. -/
def init : Nodes β where
  cell := fun p => if p = root then some ⟨root, [], ⟨CString.ofBytes [], none⟩⟩ else none
  next := root + 1

/-- `delete node`; `~Node` deletes the children before the node is gone. -/
def deleteNode : ℕ → Nodes β → ℕ → Option (Nodes β)
  | 0, _, _ => none
  | fuel + 1, h, node => do
    let n ← h.cell node
    let h ← n.childs.foldlM (deleteNode fuel) h
    some (h.erase node)

/-- `createChild`, of `Node` and of `NodeEXT2`. -/
def createChild (node : ℕ) (h : Nodes β) (d : NodeData β) : Option (Nodes β) := do
  let n ← h.cell node
  some (h.add node n d)

/-- What the records of a directory make of its children. -/
def childrenOf (list : β → List (CString × β)) (body : β) : List (NodeData β) :=
  (list body).map fun e => ⟨e.1, some e.2⟩

section Code

variable (list : β → List (CString × β))

/-- `lookup`: `Node::lookup` returns its children, `NodeEXT2::lookup` replaces them. -/
def lookup (h : Nodes β) (node : ℕ) : Option (List ℕ × Nodes β) := do
  let n ← h.cell node
  match n.data.body with
  | none => some (n.childs, h)
  | some body =>
    let h ← n.childs.foldlM (deleteNode h.next) h
    let n ← h.cell node
    let h ← (childrenOf list body).foldlM (createChild node) (h.put node { n with childs := [] })
    let n ← h.cell node
    some (n.childs, h)

/-- The loop over `curChilds`. -/
def findChild (h : Nodes β) (name : List UInt8) : List ℕ → Option (Option ℕ)
  | [] => some none
  | child :: curChilds => do
    let n ← h.cell child
    if n.data.name.bytes = name then some (some child) else findChild h name curChilds

/-- The node that a component leads to. -/
def descend (h : Nodes β) (current : ℕ) (curChilds : List ℕ) (name : List UInt8) :
    Option (Option ℕ) :=
  if name = dotdot then do
    let n ← h.cell current
    some (some n.parent)
  else if name = dot then some (some current)
  else findChild h name curChilds

/-- The loop of `resolvePath`, entered with `beg_p` past the slashes. -/
def resolveLoop (h : Nodes β) (current : ℕ) : List UInt8 → Option (Option ℕ × Nodes β)
  | [] => some (some current, h)
  | c :: rest => do
    let (curChilds, h) ← lookup list h current
    if curChilds.isEmpty then some (none, h)
    else
      let end_p := endOfName rest
      let name := (c :: rest).take ((c :: rest).length - end_p.length)
      let found ← descend h current curChilds name
      match found with
      | none => some (none, h)
      | some next => resolveLoop h next (skipSlashes end_p)
  termination_by beg_p => beg_p.length
  decreasing_by
    have := length_skipSlashes_le (endOfName rest)
    have := length_endOfName_le rest
    simp only [List.length_cons]
    omega

/-- `VFS::resolvePath`. -/
def resolvePath (h : Nodes β) (path : CString) : Option (Option ℕ × Nodes β) :=
  match path.bytes with
  | [] => some (none, h)
  | _ :: _ => resolveLoop list h root (skipSlashes path.bytes)

/-- The data of a node that is mounted behind `mounts` others. -/
def mountData (mounts : ℕ) (body : β) : NodeData β := ⟨Mount.utoa mounts, some body⟩

/-- `VFS::mount` of a partition from which the filesystem makes a node. -/
def mount (h : Nodes β) (body : β) : Option (Option ℕ × Nodes β) := do
  let (mountpoints, h) ← lookup list h root
  let node := h.next
  let h ← createChild root h (mountData mountpoints.length body)
  some (some node, h)

/-- The calls from outside. -/
inductive Call (β : Type)
  | mount (body : β)
  | resolvePath (path : CString)

/-- A call returns a pointer to a node, or a null pointer. -/
def call : Call β → Nodes β → Option (Option ℕ × Nodes β)
  | .mount body, h => mount list h body
  | .resolvePath path, h => resolvePath list h path

end Code

/-! ## The tree that is meant -/

section Spec

variable (list : β → List (CString × β))

/-- The tree of paths below the mounted nodes. -/
def tree (mounts : List (NodeData β)) : NodeTree (List (NodeData β)) where
  root := []
  getParent := List.tail
  lookup
    | [] => mounts.map fun d => [d]
    | d :: s => (d.body.elim [] (childrenOf list)).map fun c => c :: d :: s
  getName
    | [] => CString.ofBytes []
    | d :: _ => d.name
  getParent_root := rfl

/-- The mounts after a call. -/
def mountsAfter (mounts : List (NodeData β)) : Call β → List (NodeData β)
  | .mount body => mounts ++ [mountData mounts.length body]
  | .resolvePath _ => mounts

/-- The nodes that `lookup` is called for, on the way along some components. -/
def listed {ν : Type*} (T : NodeTree ν) : ν → List (List UInt8) → List ν
  | _, [] => []
  | n, name :: rest =>
    n :: match walkCode T n name with
      | none => []
      | some next => listed T next rest

/-- The call looks the mounted node `d` up. -/
def Call.LooksUp (mounts : List (NodeData β)) (d : NodeData β) : Call β → Prop
  | .mount _ => False
  | .resolvePath path => [d] ∈ listed (tree list mounts) [] (components path.bytes)

/-- One of the calls looks the mounted node `d` up. -/
def LooksUp (d : NodeData β) : List (NodeData β) → List (Call β) → Prop
  | _, [] => False
  | mounts, c :: calls => c.LooksUp list mounts d ∨ LooksUp d (mountsAfter mounts c) calls

/-- The path of the node that a call returns. -/
def result (mounts : List (NodeData β)) : Call β → Option (List (NodeData β))
  | .mount body => some [mountData mounts.length body]
  | .resolvePath path => VFS.resolvePath (tree list mounts) path

end Spec

/-! ## What every call keeps -/

/-- The nodes form a tree below `VFS::root`, the only plain `Node`, and its children are the mounts. -/
structure Inv (h : Nodes β) (mounts : List (NodeData β)) : Prop where
  tree : Tree h root
  plain : ∀ p n, h.cell p = some n → (n.data.body = none ↔ p = root)
  mounted : ∃ n, h.cell root = some n ∧ List.Forall₂ (fun c d => Path h root c [d]) n.childs mounts
  named : ∀ i d, mounts[i]? = some d → d.name = Mount.utoa i

theorem Inv.live_root {h : Nodes β} {mounts : List (NodeData β)} (inv : Inv h mounts) : Live h root := by
  obtain ⟨r, hr, -⟩ := inv.mounted
  exact ⟨r, hr⟩

/-- The node lies strictly below one with the path `t`. -/
def Under (h : Nodes β) (q : ℕ) (t : List (NodeData β)) : Prop :=
  ∃ pre, pre ≠ [] ∧ Path h root q (pre ++ t)

theorem under_iff {h h' : Nodes β} {gone : ℕ → Prop} (change : Changes h h' root gone) (tree : Tree h root)
    {q : ℕ} (live : Live h q) (kept : ¬gone q) (t : List (NodeData β)) : Under h' q t ↔ Under h q t := by
  apply exists_congr
  intro pre
  exact and_congr_right fun _ => change.path_iff tree live kept

/-! ## Deleting a node -/

/-- `g'` is `g` without the nodes of a set. -/
structure Removed (g g' : Nodes β) (gone : ℕ → Prop) : Prop where
  next : g'.next = g.next
  away : ∀ q, gone q → g'.cell q = none
  rest : ∀ q, ¬gone q → g'.cell q = g.cell q

section Delete

variable {h g : Nodes β} {p : ℕ} {n : Cell (NodeData β)}

theorem deleteAll_spec (tree : Tree h root) (hp : h.cell p = some n) {fuel : ℕ}
    (one : ∀ c ∈ n.childs, ∀ g : Nodes β, (∀ q, Below h q c → g.cell q = h.cell q) →
      ∃ g', deleteNode fuel g c = some g' ∧ Removed g g' fun q => Below h q c)
    {cs : List ℕ} (sub : ∀ c ∈ cs, c ∈ n.childs) (nodup : cs.Nodup) {g : Nodes β}
    (agree : ∀ c ∈ cs, ∀ q, Below h q c → g.cell q = h.cell q) :
    ∃ g', cs.foldlM (deleteNode fuel) g = some g' ∧ Removed g g' fun q => ∃ c ∈ cs, Below h q c := by
  induction cs generalizing g with
  | nil => exact ⟨g, rfl, rfl, fun q ⟨c, hc, _⟩ => absurd hc List.not_mem_nil, fun _ _ => rfl⟩
  | cons c cs ih =>
    have hc : c ∈ n.childs := sub c List.mem_cons_self
    obtain ⟨hfresh, hnodup⟩ := List.nodup_cons.1 nodup
    obtain ⟨g₁, hdelete, hone⟩ := one c hc g (agree c List.mem_cons_self)
    -- what lies below the other children is not touched
    have hagree : ∀ c' ∈ cs, ∀ q, Below h q c' → g₁.cell q = h.cell q := by
      intro c' hc' q hbelow
      have hapart : ¬Below h q c := fun hlow => by
        have heq := tree.siblings ⟨n, hp, hc⟩ ⟨n, hp, sub c' (List.mem_cons_of_mem c hc')⟩ hlow hbelow
        exact hfresh (heq ▸ hc')
      exact (hone.rest q hapart).trans (agree c' (List.mem_cons_of_mem c hc') q hbelow)
    obtain ⟨g', hrest, hall⟩ := ih (fun c' h => sub c' (List.mem_cons_of_mem c h)) hnodup hagree
    refine ⟨g', ?_, hall.next.trans hone.next, fun q hq => ?_, fun q hq => ?_⟩
    · rw [List.foldlM_cons, hdelete]
      exact hrest
    · by_cases hlater : ∃ c' ∈ cs, Below h q c'
      · exact hall.away q hlater
      · obtain ⟨c', hmem, hbelow⟩ := hq
        rcases List.mem_cons.1 hmem with rfl | hmem
        · exact (hall.rest q hlater).trans (hone.away q hbelow)
        · exact absurd ⟨c', hmem, hbelow⟩ hlater
    · have hlater : ¬∃ c' ∈ cs, Below h q c' := fun ⟨c', hmem, hbelow⟩ =>
        hq ⟨c', List.mem_cons_of_mem c hmem, hbelow⟩
      have hfirst : ¬Below h q c := fun hbelow => hq ⟨c, List.mem_cons_self, hbelow⟩
      exact (hall.rest q hlater).trans (hone.rest q hfirst)

theorem deleteNode_spec (tree : Tree h root) {fuel : ℕ} {g : Nodes β} {p : ℕ} (live : Live h p)
    (agree : ∀ q, Below h q p → g.cell q = h.cell q) (enough : h.next ≤ fuel + p) :
    ∃ g', deleteNode fuel g p = some g' ∧ Removed g g' fun q => Below h q p := by
  induction fuel generalizing g p with
  | zero =>
    obtain ⟨n, hn⟩ := live
    have hlt := tree.used p n hn
    omega
  | succ fuel ih =>
    obtain ⟨n, hn⟩ := live
    have hcell : g.cell p = some n := (agree p .refl).trans hn
    have hone : ∀ c ∈ n.childs, ∀ g : Nodes β, (∀ q, Below h q c → g.cell q = h.cell q) →
        ∃ g', deleteNode fuel g c = some g' ∧ Removed g g' fun q => Below h q c := by
      intro c hc g' hagree
      obtain ⟨hlt, m, hm, -⟩ := tree.child p n hn c hc
      exact ih ⟨m, hm⟩ hagree (by omega)
    have hagree : ∀ c ∈ n.childs, ∀ q, Below h q c → g.cell q = h.cell q := fun c hc q hbelow =>
      agree q (hbelow.tail ⟨n, hn, hc⟩)
    obtain ⟨g₁, hall, hremoved⟩ := deleteAll_spec tree hn hone (fun _ hc => hc) (tree.nodup p n hn) hagree
    refine ⟨g₁.erase p, ?_, hremoved.next, fun q hq => ?_, fun q hq => ?_⟩
    · rw [deleteNode, hcell]
      simp [hall]
    · by_cases heq : q = p
      · exact heq ▸ Function.update_self _ _ _
      · have hchild := ((below_iff hn).1 hq).resolve_left heq
        exact (Function.update_of_ne heq _ _).trans (hremoved.away q hchild)
    · have hne : q ≠ p := fun heq => hq (heq ▸ .refl)
      have hchild : ¬∃ c ∈ n.childs, Below h q c := fun hlow => hq ((below_iff hn).2 (Or.inr hlow))
      exact (Function.update_of_ne hne _ _).trans (hremoved.rest q hchild)

theorem clear_spec (tree : Tree h root) (hp : h.cell p = some n) :
    ∃ g, n.childs.foldlM (deleteNode h.next) h = some g ∧ g.cell p = some n ∧
      Cleared h (g.put p { n with childs := [] }) p := by
  have hone : ∀ c ∈ n.childs, ∀ g : Nodes β, (∀ q, Below h q c → g.cell q = h.cell q) →
      ∃ g', deleteNode h.next g c = some g' ∧ Removed g g' fun q => Below h q c := by
    intro c hc g hagree
    obtain ⟨-, m, hm, -⟩ := tree.child p n hp c hc
    exact deleteNode_spec tree ⟨m, hm⟩ hagree (Nat.le_add_right _ _)
  obtain ⟨g, hall, hremoved⟩ := deleteAll_spec tree hp hone (fun _ hc => hc) (tree.nodup p n hp)
    fun _ _ _ _ => rfl
  have hself : ¬∃ c ∈ n.childs, Below h p c := fun ⟨c, hc, hbelow⟩ =>
    tree.not_below_child ⟨n, hp, hc⟩ hbelow
  refine ⟨g, hall, (hremoved.rest p hself).trans hp, hremoved.next, fun m hm => ?_, fun q hq hne => ?_,
    fun q hq => ?_⟩
  · obtain rfl := Option.some.inj (hp.symm.trans hm)
    exact Function.update_self _ _ _
  · have hchild := ((below_iff hp).1 hq).resolve_left hne
    exact (Function.update_of_ne hne _ _).trans (hremoved.away q hchild)
  · have hne : q ≠ p := fun heq => hq (heq ▸ .refl)
    have hchild : ¬∃ c ∈ n.childs, Below h q c := fun hlow => hq ((below_iff hp).2 (Or.inr hlow))
    exact (Function.update_of_ne hne _ _).trans (hremoved.rest q hchild)

end Delete

/-! ## Looking a node up -/

section Lookup

variable (list : β → List (CString × β)) {h h' : Nodes β} {mounts : List (NodeData β)} {p : ℕ}
  {n : Cell (NodeData β)} {s : List (NodeData β)}

theorem createChilds_spec (tree : Tree h root) (hp : h.cell p = some n) (path : Path h root p s)
    (ds : List (NodeData β)) :
    ∃ h' cs, ds.foldlM (createChild p) h = some h' ∧ Tree h' root ∧
      h'.cell p = some { n with childs := n.childs ++ cs } ∧
      List.Forall₂ (fun c d => Path h' root c (d :: s)) cs ds ∧ Changes h h' root (fun _ => False) ∧
      (∀ q, q ≠ p → ∀ m, h'.cell q = some m → h.cell q = some m ∨ q ≠ root ∧ m.data ∈ ds) := by
  induction ds generalizing h n with
  | nil =>
    refine ⟨h, [], rfl, tree, by simpa using hp, .nil, Changes.refl h root, fun q _ m hm => Or.inl hm⟩
  | cons d ds ih =>
    have hchange := tree.add_changes hp d
    obtain ⟨h', cs, hfold, htree, hcell, hpaths, hrest, hcases⟩ :=
      ih (tree.add hp d) (add_self tree hp d) (hchange.path p s path not_false)
    refine ⟨h', h.next :: cs, ?_, htree, by simpa using hcell, .cons ?_ hpaths, ?_, fun q hne m hm => ?_⟩
    · rw [List.foldlM_cons, createChild, hp]
      exact hfold
    · exact hrest.path _ _ (tree.add_path hp d path) not_false
    · apply (hchange.trans hrest).mono
      simp
    · rcases hcases q hne m hm with hold | ⟨hroot, hmem⟩
      · rcases add_cases tree hp hold with ⟨rfl, rfl⟩ | ⟨rfl, -⟩ | ⟨-, hcell⟩
        · obtain ⟨r, hr, -⟩ := tree.root
          exact Or.inr ⟨(tree.used root r hr).ne', List.mem_cons_self⟩
        · exact absurd rfl hne
        · exact Or.inl hcell
      · exact Or.inr ⟨hroot, List.mem_cons_of_mem d hmem⟩

theorem childrenOf_body {body : β} {d : NodeData β} (mem : d ∈ childrenOf list body) : d.body ≠ none := by
  obtain ⟨e, -, rfl⟩ := List.mem_map.1 mem
  simp

theorem utoa_injective : Function.Injective Mount.utoa := by
  have hdigit : ∀ n : ℕ, ∀ c ∈ (Nat.repr n).toList, 48 ≤ c.toNat ∧ c.toNat ≤ 57 := by
    intro n c hc
    rw [Nat.toList_repr] at hc
    have hc' := Nat.isDigit_of_mem_toDigits (by decide) (by decide) hc
    simpa [Char.isDigit, UInt32.le_iff_toNat_le] using hc'
  have hbyte : ∀ n : ℕ, ∀ c ∈ (Nat.repr n).toList, (UInt8.ofNat c.toNat).toNat = c.toNat := by
    intro n c hc
    have hrange := hdigit n c hc
    rw [UInt8.toNat_ofNat', Nat.mod_eq_of_lt (by omega)]
  have hbytes : ∀ n : ℕ, (Mount.utoa n).bytes = (Nat.repr n).toList.map fun c => UInt8.ofNat c.toNat := by
    intro n
    apply CString.bytes_ofBytes_of_noNul
    simp only [List.mem_map]
    rintro b ⟨c, hc, rfl⟩ hzero
    have hrange := hdigit n c hc
    have heq := hbyte n c hc
    rw [hzero] at heq
    have hnull : (0 : UInt8).toNat = 0 := rfl
    omega
  have hback : ∀ n : ℕ, ((Mount.utoa n).bytes.map fun b => Char.ofNat b.toNat) = (Nat.repr n).toList := by
    intro n
    rw [hbytes, List.map_map]
    refine (List.map_congr_left fun c hc => ?_).trans (List.map_id _)
    simp only [Function.comp_apply, hbyte n c hc, Char.ofNat_toNat, id]
  intro a b heq
  apply Nat.repr_injective
  apply String.toList_injective
  rw [← hback a, ← hback b, heq]

/-- Two mounts with the same data are one node. -/
theorem Inv.mount_unique (inv : Inv h mounts) {a b : ℕ} {d : NodeData β} (ha : Path h root a [d])
    (hb : Path h root b [d]) : a = b := by
  obtain ⟨r, hr, hall⟩ := inv.mounted
  obtain ⟨hlen, hget⟩ := List.forall₂_iff_get.1 hall
  have hindex : ∀ {a}, Path h root a [d] →
      ∃ i : ℕ, r.childs[i]? = some a ∧ mounts[i]? = some d := by
    intro a ha
    obtain ⟨n, hn, hne, -, hparent⟩ := ha.uncons
    obtain ⟨m, hm, hmem⟩ := inv.tree.listed a n hn hne
    rw [hparent.eq_root] at hm
    obtain rfl := Option.some.inj (hr.symm.trans hm)
    obtain ⟨i, hi, rfl⟩ := List.getElem_of_mem hmem
    have hpath := hget i hi (hlen ▸ hi)
    have hd := (List.cons.inj (hpath.unique ha)).1
    exact ⟨i, List.getElem?_eq_getElem hi, hd ▸ List.getElem?_eq_getElem _⟩
  obtain ⟨i, hi, hd⟩ := hindex ha
  obtain ⟨j, hj, hd'⟩ := hindex hb
  obtain rfl := utoa_injective ((inv.named i d hd).symm.trans (inv.named j d hd'))
  exact Option.some.inj (hi.symm.trans hj)

theorem lookup_spec (inv : Inv h mounts) (path : Path h root p s) :
    ∃ cs h', lookup list h p = some (cs, h') ∧ Inv h' mounts ∧
      List.Forall₂ (Path h' root) cs ((NodeHeap.tree list mounts).lookup s) ∧
      Changes h h' root fun q => s ≠ [] ∧ Below h q p ∧ q ≠ p := by
  cases s with
  | nil =>
    obtain rfl := path.eq_root
    obtain ⟨r, hr, hall⟩ := inv.mounted
    have hplain : r.data.body = none := (inv.plain root r hr).2 rfl
    refine ⟨r.childs, h, ?_, inv, ?_, ?_⟩
    · simp [lookup, hr, hplain]
    · exact List.forall₂_map_right_iff.2 hall
    · apply (Changes.refl h root).mono
      simp
  | cons d s =>
    obtain ⟨n, hn, hne, rfl, hrest⟩ := path.uncons
    obtain ⟨body, hbody⟩ : ∃ body, n.data.body = some body :=
      Option.ne_none_iff_exists'.1 fun hnone => hne ((inv.plain p n hn).1 hnone)
    obtain ⟨g, hdelete, hcell, hcleared⟩ := clear_spec inv.tree hn
    have htree := inv.tree.cleared ⟨n, hn⟩ hcleared
    have hfirst := inv.tree.cleared_changes ⟨n, hn⟩ hcleared
    have hpath := hfirst.path p _ path fun hgone => hgone.2 rfl
    obtain ⟨h', cs, hfold, htree', hcell', hpaths, hsecond, hcases⟩ :=
      createChilds_spec htree (hcleared.self n hn) hpath (childrenOf list body)
    have hchange := hfirst.trans hsecond
    refine ⟨cs, h', ?_, ⟨htree', fun q m hm => ?_, ?_, inv.named⟩, ?_, hchange.mono fun q _ => ?_⟩
    · unfold lookup
      simp only [hn, hbody, Option.bind_eq_bind, Option.bind_some, hdelete, hcell]
      rw [hfold]
      simp [hcell']
    · -- every node is an old one, the one that is looked up or a new one
      by_cases heq : q = p
      · subst heq
        rw [hcell'] at hm
        cases hm
        exact inv.plain q n hn
      · rcases hcases q heq m hm with hold | ⟨hroot, hmem⟩
        · rcases hcleared.cases ⟨n, hn⟩ hold with ⟨rfl, -⟩ | ⟨-, hold⟩
          · exact absurd rfl heq
          · exact inv.plain q m hold
        · exact iff_of_false (childrenOf_body list hmem) hroot
    · -- the root and the mounted nodes stay as they are
      obtain ⟨r, hr, hall⟩ := inv.mounted
      obtain ⟨r', hr', -⟩ := htree'.root
      have hsame : r' = r := by
        rcases hcases root (Ne.symm hne) r' hr' with hold | ⟨hroot, -⟩
        · rw [hcleared.rest root fun hbelow => hne (inv.tree.root_below hbelow).symm] at hold
          exact Option.some.inj (hold.symm.trans hr)
        · exact absurd rfl hroot
      refine ⟨r', hr', hsame ▸ hall.imp fun c d hc => hchange.path c [d] hc ?_⟩
      rintro (⟨hbelow, hcp⟩ | hfalse)
      · obtain ⟨m, hm, hcne, -, hparent⟩ := hc.uncons
        have hchild := inv.tree.listed c m hm hcne
        rw [hparent.eq_root] at hchild
        exact hne (inv.tree.root_below (inv.tree.parent_below hchild hbelow hcp)).symm
      · exact hfalse
    · simpa [NodeHeap.tree, hbody] using hpaths
    · simp

end Lookup

/-! ## Walking along the components -/

section Walk

variable (list : β → List (CString × β)) {h h' : Nodes β} {mounts : List (NodeData β)} {p q : ℕ}
  {s t : List (NodeData β)}

theorem findChild_spec (T : NodeTree (List (NodeData β))) (name : List UInt8)
    (named : ∀ c d s, Path h root c (d :: s) → T.getName (d :: s) = d.name) {cs : List ℕ}
    {ts : List (List (NodeData β))} (paths : List.Forall₂ (Path h root) cs ts) (ne : ∀ t ∈ ts, t ≠ []) :
    ∃ r, findChild h name cs = some r ∧
      Option.Rel (Path h root) r (ts.find? fun t => (T.getName t).bytes = name) := by
  induction paths with
  | nil => exact ⟨none, rfl, .none⟩
  | @cons c t cs ts path _ ih =>
    obtain ⟨r, hfind, hrel⟩ := ih fun t ht => ne t (List.mem_cons_of_mem _ ht)
    obtain ⟨d, s, rfl⟩ := List.exists_cons_of_ne_nil (ne t List.mem_cons_self)
    obtain ⟨n, hn, -, rfl, -⟩ := path.uncons
    rw [findChild, hn]
    by_cases hname : n.data.name.bytes = name
    · refine ⟨some c, by simp [hname], ?_⟩
      rw [List.find?_cons_of_pos (by simpa [named c n.data s path] using hname)]
      exact .some path
    · refine ⟨r, by simpa [hname] using hfind, ?_⟩
      rwa [List.find?_cons_of_neg (by simpa [named c n.data s path] using hname)]

theorem lookup_ne_nil (mounts : List (NodeData β))
    (s : List (NodeData β)) : ∀ t ∈ (NodeHeap.tree list mounts).lookup s, t ≠ [] := by
  intro t ht
  cases s <;> obtain ⟨d, -, rfl⟩ := List.mem_map.1 ht <;> exact List.cons_ne_nil _ _

/-- A component leads to the same node in memory and in the tree. -/
theorem descend_spec (inv : Inv h mounts) (path : Path h root p s) {cs : List ℕ}
    (paths : List.Forall₂ (Path h root) cs ((NodeHeap.tree list mounts).lookup s)) (name : List UInt8) :
    ∃ r, descend h p cs name = some r ∧
      Option.Rel (Path h root) r (walk (NodeHeap.tree list mounts) s name) := by
  unfold descend walk VFS.descend
  split_ifs with hdotdot hdot
  · cases s with
    | nil =>
      obtain rfl := path.eq_root
      obtain ⟨r, hr, hself⟩ := inv.tree.root
      exact ⟨some root, by simp [hr, hself], .some path⟩
    | cons d s =>
      obtain ⟨n, hn, -, -, hrest⟩ := path.uncons
      exact ⟨some n.parent, by simp [hn], .some hrest⟩
  · exact ⟨some p, rfl, .some path⟩
  · exact findChild_spec _ name (fun _ _ _ _ => rfl) paths (lookup_ne_nil list mounts s)

/-- The loop of `resolvePath` over the components. -/
def walkNames (list : β → List (CString × β)) (h : Nodes β) (current : ℕ) :
    List (List UInt8) → Option (Option ℕ × Nodes β)
  | [] => some (some current, h)
  | name :: rest => do
    let (curChilds, h) ← lookup list h current
    if curChilds.isEmpty then some (none, h)
    else
      let found ← descend h current curChilds name
      match found with
      | none => some (none, h)
      | some next => walkNames list h next rest

theorem resolveLoop_eq (list : β → List (CString × β)) (h : Nodes β) (current : ℕ) (beg_p : List UInt8)
    (start : beg_p.head? ≠ some slash) :
    resolveLoop list h current beg_p = walkNames list h current (components beg_p) := by
  induction hlen : beg_p.length using Nat.strong_induction_on generalizing h current beg_p with
  | _ len ih =>
    subst hlen
    cases beg_p with
    | nil => simp [resolveLoop, components_nil, walkNames]
    | cons c rest =>
      have hshort : (skipSlashes (endOfName rest)).length < (c :: rest).length :=
        ((length_skipSlashes_le _).trans (length_endOfName_le rest)).trans_lt (Nat.lt_succ_self _)
      have hrest : ∀ (h : Nodes β) current, resolveLoop list h current (skipSlashes (endOfName rest)) =
          walkNames list h current (components (endOfName rest)) := by
        intro h current
        rw [ih _ hshort h current _ (head?_skipSlashes_ne _) rfl, components_skipSlashes]
      rw [resolveLoop, components_cons_of_ne (by simpa using start), walkNames]
      simp only [take_name, hrest]

/-- What a walk from a node does: it finds the node that the tree has at the end, and deletes only what
lies below a node that it looks up, and everything that lies below a mount that it looks up. -/
theorem walkNames_spec (names : List (List UInt8)) (inv : Inv h mounts) (path : Path h root p s) :
    ∃ r h' gone, walkNames list h p names = some (r, h') ∧ Inv h' mounts ∧
      Option.Rel (Path h' root) r (names.foldlM (walkCode (NodeHeap.tree list mounts)) s) ∧
      Changes h h' root gone ∧
      (∀ q, Live h q → gone q → ∃ t ∈ listed (NodeHeap.tree list mounts) s names, t ≠ [] ∧ Under h q t) ∧
      ∀ d q, [d] ∈ listed (NodeHeap.tree list mounts) s names → Under h q [d] → gone q := by
  induction names generalizing h p s with
  | nil =>
    exact ⟨some p, h, fun _ => False, rfl, inv, .some path, Changes.refl h root,
      fun _ _ hgone => hgone.elim, fun _ _ hmem _ => absurd hmem List.not_mem_nil⟩
  | cons name rest ih =>
    obtain ⟨cs, h₁, hlookup, inv₁, hpaths, hchange⟩ := lookup_spec list inv path
    have hpath₁ := hchange.path p s path fun hgone => hgone.2.2 rfl
    have hunder : ∀ q, s ≠ [] ∧ Below h q p ∧ q ≠ p → s ≠ [] ∧ Under h q s := by
      rintro q ⟨hs, hbelow, hne⟩
      obtain ⟨pre, hpre, hpne⟩ := path.of_below inv.tree hbelow
      exact ⟨hs, pre, hpne hne, hpre⟩
    have hmount : ∀ d q, s = [d] → Under h q [d] → s ≠ [] ∧ Below h q p ∧ q ≠ p := by
      rintro d q rfl ⟨pre, hpne, hpre⟩
      obtain ⟨a, ha, hbelow, hne⟩ := Path.above inv.tree hpre
      obtain rfl := inv.mount_unique ha path
      exact ⟨List.cons_ne_nil _ _, hbelow, hne hpne⟩
    have hlen := hpaths.length_eq
    rw [walkNames, hlookup, List.foldlM_cons, listed]
    by_cases hempty : (NodeHeap.tree list mounts).lookup s = []
    · -- a node without children ends the walk
      have hcs : cs = [] := List.length_eq_zero_iff.1 (by rw [hlen, hempty, List.length_nil])
      have hwalk : walkCode (NodeHeap.tree list mounts) s name = none := if_pos hempty
      refine ⟨none, h₁, _, by simp [hcs], inv₁, by rw [hwalk]; exact .none, hchange, ?_, ?_⟩
      · intro q _ hgone
        exact ⟨s, List.mem_cons_self, hunder q hgone⟩
      · intro d q hmem hq
        rw [hwalk] at hmem
        exact hmount d q (List.mem_singleton.1 hmem).symm hq
    · have hcs : cs ≠ [] := fun hnil => hempty (List.length_eq_zero_iff.1 (by rw [← hlen, hnil]; rfl))
      have hwalk : walkCode (NodeHeap.tree list mounts) s name = walk (NodeHeap.tree list mounts) s name :=
        if_neg hempty
      obtain ⟨r₁, hdescend, hrel₁⟩ := descend_spec list inv₁ hpath₁ hpaths name
      rw [hwalk]
      generalize walk (NodeHeap.tree list mounts) s name = w at hrel₁ ⊢
      cases hrel₁ with
      | none =>
        refine ⟨none, h₁, _, by simp [hcs, hdescend], inv₁, .none, hchange, ?_, ?_⟩
        · intro q _ hgone
          exact ⟨s, List.mem_cons_self, hunder q hgone⟩
        · intro d q hmem hq
          exact hmount d q (List.mem_singleton.1 hmem).symm hq
      | @some next s' hnext =>
        obtain ⟨r, h', gone, hrun, inv', hrel, hrest, hbelow, habove⟩ := ih inv₁ hnext
        -- a node that is left by the first step has its path
        have hkept : ∀ {q}, Live h q → ¬(s ≠ [] ∧ Below h q p ∧ q ≠ p) → ∀ t, Under h₁ q t ↔ Under h q t :=
          fun hlive hnot t => under_iff hchange inv.tree hlive hnot t
        refine ⟨r, h', _, by simpa [hcs, hdescend] using hrun, inv', hrel, hchange.trans hrest, ?_, ?_⟩
        · intro q hlive hgone
          by_cases hfirst : s ≠ [] ∧ Below h q p ∧ q ≠ p
          · exact ⟨s, List.mem_cons_self, hunder q hfirst⟩
          · obtain ⟨n, hn⟩ := hlive
            have hlive₁ := (hchange.live q (inv.tree.used q n hn)).2 ⟨⟨n, hn⟩, hfirst⟩
            obtain ⟨t, hmem, hne, hu⟩ := hbelow q hlive₁ (hgone.resolve_left hfirst)
            exact ⟨t, List.mem_cons_of_mem s hmem, hne, (hkept ⟨n, hn⟩ hfirst t).1 hu⟩
        · intro d q hmem hq
          by_cases hfirst : s ≠ [] ∧ Below h q p ∧ q ≠ p
          · exact Or.inl hfirst
          · rcases List.mem_cons.1 hmem with heq | hmem
            · exact Or.inl (hmount d q heq.symm hq)
            · obtain ⟨pre, hpne, hpre⟩ := id hq
              exact Or.inr (habove d q hmem ((hkept hpre.live hfirst [d]).2 hq))

theorem walkCode_cases {s next : List (NodeData β)} {name : List UInt8}
    (step : walkCode (NodeHeap.tree list mounts) s name = some next) :
    next = s.tail ∨ next = s ∨ ∃ c, next = c :: s := by
  unfold walkCode walk VFS.descend at step
  split_ifs at step
  · exact Or.inl (Option.some.inj step).symm
  · exact Or.inr (Or.inl (Option.some.inj step).symm)
  · have hmem := List.mem_of_find?_eq_some step
    cases s with
    | nil =>
      obtain ⟨d, -, rfl⟩ := List.mem_map.1 hmem
      exact Or.inr (Or.inr ⟨d, rfl⟩)
    | cons d s =>
      obtain ⟨c, -, rfl⟩ := List.mem_map.1 hmem
      exact Or.inr (Or.inr ⟨c, rfl⟩)

theorem listed_mount {s : List (NodeData β)} (names : List (List UInt8)) {pre : List (NodeData β)}
    {d : NodeData β} (mem : pre ++ [d] ∈ listed (NodeHeap.tree list mounts) s names) :
    [d] ∈ listed (NodeHeap.tree list mounts) s names ∨ ∃ pre', pre' ≠ [] ∧ s = pre' ++ [d] := by
  induction names generalizing s with
  | nil => exact absurd mem List.not_mem_nil
  | cons name rest ih =>
    rw [listed] at mem ⊢
    rcases List.mem_cons.1 mem with heq | hmem
    · cases pre with
      | nil => exact Or.inl (List.mem_cons.2 (Or.inl heq))
      | cons c pre => exact Or.inr ⟨c :: pre, List.cons_ne_nil _ _, heq.symm⟩
    · cases hwalk : walkCode (NodeHeap.tree list mounts) s name with
      | none =>
        rw [hwalk] at hmem
        exact absurd hmem List.not_mem_nil
      | some next =>
        rw [hwalk] at hmem
        rcases ih hmem with hlisted | ⟨pre', hne, rfl⟩
        · exact Or.inl (List.mem_cons_of_mem s hlisted)
        · rcases walkCode_cases list hwalk with htail | rfl | ⟨c, hcons⟩
          · cases s with
            | nil => exact absurd htail (by simp)
            | cons c s => exact Or.inr ⟨c :: pre', List.cons_ne_nil _ _, congrArg (c :: ·) htail.symm⟩
          · exact Or.inr ⟨pre', hne, rfl⟩
          · obtain ⟨c', pre'', rfl⟩ := List.exists_cons_of_ne_nil hne
            obtain ⟨-, rfl⟩ := List.cons.inj hcons
            cases pre'' with
            | nil => exact Or.inl List.mem_cons_self
            | cons c'' pre'' => exact Or.inr ⟨c'' :: pre'', List.cons_ne_nil _ _, rfl⟩

end Walk

/-! ## Calls -/

section Calls

variable (list : β → List (CString × β)) {h h' : Nodes β} {mounts : List (NodeData β)}

/-- `resolvePath` returns the node that the tree has at the path, and deletes the nodes that lie below
the mounts it looks up. -/
theorem resolvePath_spec (inv : Inv h mounts) (path : CString) :
    ∃ r h', resolvePath list h path = some (r, h') ∧ Inv h' mounts ∧
      Option.Rel (Path h' root) r (VFS.resolvePath (NodeHeap.tree list mounts) path) ∧
      Changes h h' root fun q =>
        ∃ d, [d] ∈ listed (NodeHeap.tree list mounts) [] (components path.bytes) ∧ Under h q [d] := by
  by_cases hpath : path.bytes = []
  · refine ⟨none, h, by simp [resolvePath, hpath], inv, ?_, (Changes.refl h root).mono fun q _ => ?_⟩
    · simp [VFS.resolvePath, hpath]
    · simp [hpath, components_nil, listed]
  · obtain ⟨r, h', gone, hrun, inv', hrel, hchange, hbelow, habove⟩ :=
      walkNames_spec list (components path.bytes) inv (.root inv.live_root)
    refine ⟨r, h', ?_, inv', ?_, hchange.mono fun q hlive => ⟨fun hgone => ?_, ?_⟩⟩
    · rw [← components_skipSlashes] at hrun
      rw [← hrun, ← resolveLoop_eq list h root _ (head?_skipSlashes_ne _)]
      unfold resolvePath
      split
      · contradiction
      · rfl
    · rwa [resolvePath_eq_foldlM _ path hpath]
    · obtain ⟨t, hmem, hne, pre, hpne, hpre⟩ := hbelow q hlive hgone
      obtain ⟨t', d, rfl⟩ := (List.eq_nil_or_concat' t).resolve_left hne
      have hlisted : [d] ∈ listed (NodeHeap.tree list mounts) [] (components path.bytes) := by
        apply (listed_mount list _ hmem).resolve_right
        simp
      refine ⟨d, hlisted, pre ++ t', ?_, ?_⟩
      · simp [hpne]
      · simpa using hpre
    · rintro ⟨d, hmem, hq⟩
      exact habove d q hmem hq

theorem mount_spec (inv : Inv h mounts) (body : β) :
    ∃ h', mount list h body = some (some h.next, h') ∧
      Inv h' (mountsAfter mounts (.mount body)) ∧
      Path h' root h.next [mountData mounts.length body] ∧ Changes h h' root fun _ => False := by
  obtain ⟨r, hr, hall⟩ := inv.mounted
  have hplain : r.data.body = none := (inv.plain root r hr).2 rfl
  have hlen := hall.length_eq
  have hchange := inv.tree.add_changes hr (mountData mounts.length body)
  refine ⟨h.add root r (mountData mounts.length body), ?_, ⟨inv.tree.add hr _, fun q m hm => ?_, ?_,
    fun i d hd => ?_⟩, ?_, hchange⟩
  · simp [mount, lookup, createChild, hr, hplain, hlen]
  · rcases add_cases inv.tree hr hm with ⟨rfl, rfl⟩ | ⟨rfl, rfl⟩ | ⟨-, hold⟩
    · exact iff_of_false (by simp [mountData]) (inv.tree.used root r hr).ne'
    · exact inv.plain root r hr
    · exact inv.plain q m hold
  · refine ⟨_, add_self inv.tree hr _, ?_⟩
    exact List.rel_append (hall.imp fun c d hc => hchange.path c [d] hc not_false)
      (.cons (inv.tree.add_path hr _ (.root inv.live_root)) .nil)
  · rw [mountsAfter, List.getElem?_append] at hd
    split_ifs at hd with hi
    · exact inv.named i d hd
    · obtain ⟨hzero, rfl⟩ : i - mounts.length = 0 ∧ mountData mounts.length body = d := by
        simpa [List.getElem?_singleton] using hd
      have hlast : i = mounts.length := by omega
      rw [hlast]
      rfl
  · exact inv.tree.add_path hr _ (.root inv.live_root)

theorem call_spec (inv : Inv h mounts) (c : Call β) :
    ∃ r h', call list c h = some (r, h') ∧ Inv h' (mountsAfter mounts c) ∧
      Option.Rel (Path h' root) r (result list mounts c) ∧
      Changes h h' root fun q => ∃ d, c.LooksUp list mounts d ∧ Under h q [d] := by
  cases c with
  | mount body =>
    obtain ⟨h', hcall, inv', hpath, hchange⟩ := mount_spec list inv body
    refine ⟨_, h', hcall, inv', .some hpath, hchange.mono fun q _ => ?_⟩
    simp [Call.LooksUp]
  | resolvePath path => exact resolvePath_spec list inv path

theorem calls_spec (inv : Inv h mounts) (calls : List (Call β)) :
    ∃ rs h', Lockstep.run (call list) calls h = some (rs, h') ∧ Inv h' (calls.foldl mountsAfter mounts) ∧
      Changes h h' root fun q => ∃ d, LooksUp list d mounts calls ∧ Under h q [d] := by
  induction calls generalizing h mounts with
  | nil =>
    refine ⟨[], h, rfl, inv, (Changes.refl h root).mono fun q _ => ?_⟩
    simp [LooksUp]
  | cons c calls ih =>
    obtain ⟨r, h₁, hcall, inv₁, -, hfirst⟩ := call_spec list inv c
    obtain ⟨rs, h', hrun, inv', hrest⟩ := ih inv₁
    refine ⟨r :: rs, h', ?_, inv', (hfirst.trans hrest).mono fun q hlive => ?_⟩
    · rw [Lockstep.run, hcall, Option.bind_some, hrun]
      rfl
    · obtain ⟨n, hn⟩ := hlive
      have hiff := hfirst.live q (inv.tree.used q n hn)
      constructor
      · rintro (⟨d, hlook, hq⟩ | ⟨d, hlook, hq⟩)
        · exact ⟨d, Or.inl hlook, hq⟩
        · obtain ⟨pre, hpne, hpre⟩ := id hq
          have hkept := (hiff.1 hpre.live).2
          exact ⟨d, Or.inr hlook, (under_iff hfirst inv.tree ⟨n, hn⟩ hkept [d]).1 hq⟩
      · rintro ⟨d, hlook | hlook, hq⟩
        · exact Or.inl ⟨d, hlook, hq⟩
        · by_cases hgone : ∃ d, c.LooksUp list mounts d ∧ Under h q [d]
          · exact Or.inl hgone
          · exact Or.inr ⟨d, hlook, (under_iff hfirst inv.tree ⟨n, hn⟩ hgone [d]).2 hq⟩

theorem inv_init : Inv (init : Nodes β) [] where
  tree := by
    have hcell : ∀ p n, (init : Nodes β).cell p = some n →
        p = root ∧ n = ⟨root, [], ⟨CString.ofBytes [], none⟩⟩ := by
      intro p n hn
      unfold init at hn
      dsimp only at hn
      split_ifs at hn with hroot
      exact ⟨hroot, (Option.some.inj hn).symm⟩
    refine ⟨fun p n hn => ?_, fun p n hn c hc => ?_, fun p n hn => ?_, fun p n hn hne => ?_, ?_⟩
    · obtain ⟨rfl, -⟩ := hcell p n hn
      exact Nat.lt_succ_self _
    · obtain ⟨-, rfl⟩ := hcell p n hn
      cases hc
    · obtain ⟨-, rfl⟩ := hcell p n hn
      exact List.nodup_nil
    · exact absurd (hcell p n hn).1 hne
    · exact ⟨_, rfl, rfl⟩
  plain := fun p n hn => by
    unfold init at hn
    dsimp only at hn
    split_ifs at hn with hroot
    cases hn
    exact iff_of_true rfl hroot
  mounted := ⟨_, rfl, .nil⟩
  named := fun _ _ hd => by cases hd

theorem calls_resolvePath (before : List (Call β)) (path : CString) :
    ∃ rs r h, Lockstep.run (call list) (before ++ [.resolvePath path]) init = some (rs ++ [r], h) ∧
      Inv h (before.foldl mountsAfter []) ∧
      Option.Rel (Path h root) r (VFS.resolvePath (NodeHeap.tree list (before.foldl mountsAfter [])) path) := by
  obtain ⟨rs, h₀, hrun₀, inv₀, -⟩ := calls_spec list inv_init before
  obtain ⟨r, h, hcall, inv, hrel, -⟩ := resolvePath_spec list inv₀ path
  have hlast : Lockstep.run (call list) [.resolvePath path] h₀ = some ([r], h) := by
    rw [Lockstep.run, call, hcall]
    rfl
  exact ⟨rs, r, h, Lockstep.run_append hrun₀ hlast, inv, hrel⟩

end Calls

/-- In every run of mounts and path resolutions no deleted node is accessed; the nodes form a tree, and
those that have not been deleted are the ones in it, so that none is lost.  A resolution returns the node
that the path leads to from the root, component by component, but a null pointer if it meets a `.` or a `..`
at a node without children.  That node is there until a later resolution looks up the mount above it: then it
is deleted, whatever else happens. -/
theorem resolved_node_lives (list : β → List (CString × β)) (before : List (Call β)) (path : CString)
    (after : List (Call β)) :
    ∃ rs r h rs' h', Lockstep.run (call list) (before ++ [.resolvePath path]) init = some (rs ++ [r], h) ∧
      Lockstep.run (call list) after h = some (rs', h') ∧ Tree h root ∧ Tree h' root ∧
      (∀ node, Live h' node ↔ Below h' node root) ∧
      Resolves (tree list (before.foldl mountsAfter [])) path (Path h root) r ∧
      ∀ node s, r = some node → Path h root node s →
        (Live h' node ↔
          ¬∃ pre d, pre ≠ [] ∧ s = pre ++ [d] ∧ LooksUp list d (before.foldl mountsAfter []) after) ∧
        (Live h' node → Path h' root node s) := by
  obtain ⟨rs, r, h, hrun, inv, hrel⟩ := calls_resolvePath list before path
  obtain ⟨rs', h', hrun', inv', hchange⟩ := calls_spec list inv after
  have hreach : ∀ node, Live h' node ↔ Below h' node root := fun node =>
    ⟨inv'.tree.below_root, inv'.tree.live_of_below inv'.live_root⟩
  refine ⟨rs, r, h, rs', h', hrun, hrun', inv.tree, inv'.tree, hreach, Resolves.of_resolvePath hrel,
    fun node s _ hs => ?_⟩
  obtain ⟨n, hn⟩ := hs.live
  have hiff := hchange.live node (inv.tree.used node n hn)
  have hgone : (∃ d, LooksUp list d (before.foldl mountsAfter []) after ∧ Under h node [d]) ↔
      ∃ pre d, pre ≠ [] ∧ s = pre ++ [d] ∧ LooksUp list d (before.foldl mountsAfter []) after := by
    constructor
    · rintro ⟨d, hlook, pre, hne, hpre⟩
      exact ⟨pre, d, hne, hs.unique hpre, hlook⟩
    · rintro ⟨pre, d, hne, rfl, hlook⟩
      exact ⟨d, hlook, pre, hne, hs⟩
  rw [hgone, and_iff_right ⟨n, hn⟩] at hiff
  refine ⟨hiff, fun hlive => hchange.path node s hs ?_⟩
  rw [hgone]
  exact hiff.1 hlive

end NodeHeap
