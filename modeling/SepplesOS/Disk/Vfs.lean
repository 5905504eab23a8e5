import SepplesOS.Lib.CString

/-!
# Path resolution

`VFS::resolvePath` (`kernel/disk/vfs.cpp`) walks a path with two pointers, `beg_p` at the next
component and `end_p` one past its last byte.  Both are modelled by the suffix of the path they
point at.  The tree is what the walk sees of it: the children `lookup()` lists, the parent and the
name of each node.

The specification folds the nonempty components of the path from the root.  The code leaves a node
without children before it has read the component, so the two differ exactly where a `.` or a `..`
is met there and no later component is missing (`resolvePath_eq_spec_iff`).  There it returns a null
pointer (`Resolves`).
-/

namespace VFS

/-- A tree of nodes as `resolvePath` sees it; the root is its own parent (`VFS::init`). -/
structure NodeTree (ν : Type*) where
  root : ν
  getParent : ν → ν
  lookup : ν → List ν
  getName : ν → CString
  getParent_root : getParent root = root

variable {ν : Type*}

/-- The byte `'/'`. -/
def slash : UInt8 := 47

/-- The component `"."`. -/
def dot : List UInt8 := [46]

/-- The component `".."`. -/
def dotdot : List UInt8 := [46, 46]

/-- `while (*beg_p == '/') beg_p++;` -/
def skipSlashes (beg_p : List UInt8) : List UInt8 := beg_p.dropWhile (· == slash)

/-- `while (*end_p != 0 && *end_p != '/') end_p++;` -/
def endOfName (end_p : List UInt8) : List UInt8 := end_p.dropWhile (· != slash)

theorem length_skipSlashes_le (p : List UInt8) : (skipSlashes p).length ≤ p.length :=
  (List.dropWhile_sublist _).length_le

theorem length_endOfName_le (p : List UInt8) : (endOfName p).length ≤ p.length :=
  (List.dropWhile_sublist _).length_le

/-- The node a component leads to, `curChilds` being the children of `current`. -/
def descend (T : NodeTree ν) (current : ν) (curChilds : List ν) (name : List UInt8) : Option ν :=
  if name = dotdot then some (T.getParent current)
  else if name = dot then some current
  else curChilds.find? fun child => (T.getName child).bytes = name

/-- The loop of `resolvePath`, entered with `beg_p` past the slashes. -/
def resolveLoop (T : NodeTree ν) (current : ν) : List UInt8 → Option ν
  | [] => some current
  | c :: rest =>
    let curChilds := T.lookup current
    if curChilds.isEmpty then none
    else
      let end_p := endOfName rest
      let name := (c :: rest).take ((c :: rest).length - end_p.length)
      match descend T current curChilds name with
      | none => none
      | some next => resolveLoop T next (skipSlashes end_p)
  termination_by beg_p => beg_p.length
  decreasing_by
    have := length_skipSlashes_le (endOfName rest)
    have := length_endOfName_le rest
    simp only [List.length_cons]
    omega

/-- `VFS::resolvePath`.  Relative paths start at the root too, as processes have no working
directory yet. -/
def resolvePath (T : NodeTree ν) (path : CString) : Option ν :=
  match path.bytes with
  | [] => none
  | _ :: _ => resolveLoop T T.root (skipSlashes path.bytes)

/-! ## The specification -/

/-- The nonempty `/`-separated components of a path. -/
def components (path : List UInt8) : List (List UInt8) :=
  (path.splitOn slash).filter (· ≠ [])

/-- One component: `.` stays, `..` goes to the parent, any other name to the first child of that
name. -/
def walk (T : NodeTree ν) (current : ν) (name : List UInt8) : Option ν :=
  descend T current (T.lookup current) name

/-- What `resolvePath` is for: the fold of the components from the root. -/
def resolveSpec (T : NodeTree ν) (path : CString) : Option ν :=
  if path.bytes = [] then none else (components path.bytes).foldlM (walk T) T.root

/-- Some ordinary component is not among the children of the node reached so far. -/
def Missing (T : NodeTree ν) : ν → List (List UInt8) → Prop
  | _, [] => False
  | current, name :: rest =>
    match walk T current name with
    | none => True
    | some next => Missing T next rest

/-- Some `.` or `..` is met at a node without children. -/
def DotAtLeaf (T : NodeTree ν) : ν → List (List UInt8) → Prop
  | _, [] => False
  | current, name :: rest =>
    (T.lookup current = [] ∧ (name = dot ∨ name = dotdot)) ∨
      ∃ next, walk T current name = some next ∧ DotAtLeaf T next rest

theorem walk_eq_none_iff (T : NodeTree ν) (n : ν) (name : List UInt8) :
    walk T n name = none ↔
      name ≠ dot ∧ name ≠ dotdot ∧ ∀ child ∈ T.lookup n, (T.getName child).bytes ≠ name := by
  unfold walk descend
  split_ifs with h₁ h₂ <;> simp_all

theorem foldlM_walk_eq_none_iff (T : NodeTree ν) (names : List (List UInt8)) (n : ν) :
    names.foldlM (walk T) n = none ↔ Missing T n names := by
  induction names generalizing n with
  | nil => simp [Missing]
  | cons name rest ih =>
    rw [List.foldlM_cons, Missing]
    cases walk T n name with
    | none => simp
    | some next => simpa using ih next

/-! ## The scanner reads the components -/

theorem components_nil : components [] = [] := by
  simp [components]

theorem components_slash_cons (p : List UInt8) : components (slash :: p) = components p := by
  simp [components, List.splitOn_cons_eq_if_modifyHead]

theorem components_skipSlashes (p : List UInt8) : components (skipSlashes p) = components p := by
  induction p with
  | nil => rfl
  | cons c p ih =>
    by_cases h : c = slash
    · subst h
      rw [components_slash_cons, ← ih, skipSlashes, List.dropWhile_cons_of_pos (by simp)]
      rfl
    · rw [skipSlashes, List.dropWhile_cons_of_neg (by simpa using h)]

theorem components_cons_of_ne {c : UInt8} (hc : c ≠ slash) (rest : List UInt8) :
    components (c :: rest) =
      (c :: rest.takeWhile (· != slash)) :: components (endOfName rest) := by
  have hname : slash ∉ c :: rest.takeWhile (· != slash) := by
    intro h
    rcases List.mem_cons.1 h with h | h
    · exact hc h.symm
    · simpa using List.mem_takeWhile_imp h
  have hsplit : c :: rest = (c :: rest.takeWhile (· != slash)) ++ endOfName rest := by
    rw [List.cons_append, endOfName, List.takeWhile_append_dropWhile]
  rcases hend : endOfName rest with _ | ⟨d, tail⟩
  · rw [hend, List.append_nil] at hsplit
    rw [hsplit, components, List.splitOn_eq_singleton hname, components_nil]
    simp
  · obtain rfl : d = slash := by
      have := List.head?_dropWhile_not (· != slash) rest
      rw [← endOfName, hend] at this
      simpa using this
    rw [hend] at hsplit
    rw [hsplit, components_slash_cons, components,
      List.splitOn_append_cons_self_of_not_mem hname]
    simp [components]

theorem take_name (c : UInt8) (rest : List UInt8) :
    (c :: rest).take ((c :: rest).length - (endOfName rest).length) =
      c :: rest.takeWhile (· != slash) := by
  have hlen : (rest.takeWhile (· != slash)).length + (endOfName rest).length = rest.length := by
    rw [← List.length_append, endOfName, List.takeWhile_append_dropWhile]
  have hsplit : c :: rest = (c :: rest.takeWhile (· != slash)) ++ endOfName rest := by
    rw [List.cons_append, endOfName, List.takeWhile_append_dropWhile]
  conv_lhs => arg 2; rw [hsplit]
  exact List.take_left' (by simp only [List.length_cons]; omega)

/-- One step of the code: it gives up at a node without children before reading the name. -/
def walkCode (T : NodeTree ν) (current : ν) (name : List UInt8) : Option ν :=
  if T.lookup current = [] then none else walk T current name

theorem head?_skipSlashes_ne (p : List UInt8) : (skipSlashes p).head? ≠ some slash := by
  intro h
  have := List.head?_dropWhile_not (· == slash) p
  rw [← skipSlashes, h] at this
  simp at this

/-- The scanner is the fold of the components under the code's own step. -/
theorem resolveLoop_eq_foldlM (T : NodeTree ν) (current : ν) (p : List UInt8)
    (hp : p.head? ≠ some slash) :
    resolveLoop T current p = (components p).foldlM (walkCode T) current := by
  induction current, p using resolveLoop.induct T with
  | case1 current => simp [resolveLoop, components_nil]
  | case2 current c rest curChilds hempty =>
    have hwalk : walkCode T current (c :: rest.takeWhile (· != slash)) = none :=
      if_pos (List.isEmpty_iff.1 hempty)
    rw [components_cons_of_ne (by simpa using hp), List.foldlM_cons, hwalk, resolveLoop,
      if_pos hempty]
    rfl
  | case3 current c rest curChilds hne end_p name hnone =>
    have hname : name = c :: rest.takeWhile (· != slash) := take_name c rest
    have hwalk : walkCode T current name = none :=
      (if_neg fun h => hne (List.isEmpty_iff.2 h)).trans hnone
    rw [components_cons_of_ne (by simpa using hp), List.foldlM_cons, ← hname, hwalk, resolveLoop,
      if_neg hne]
    change (match descend T current curChilds name with
      | none => none
      | some next => resolveLoop T next (skipSlashes end_p)) = _
    rw [hnone]
    rfl
  | case4 current c rest curChilds hne end_p name next hnext ih =>
    have hname : name = c :: rest.takeWhile (· != slash) := take_name c rest
    have hwalk : walkCode T current name = some next :=
      (if_neg fun h => hne (List.isEmpty_iff.2 h)).trans hnext
    have hrest := ih (head?_skipSlashes_ne end_p)
    rw [components_skipSlashes] at hrest
    rw [components_cons_of_ne (by simpa using hp), List.foldlM_cons, ← hname, hwalk, resolveLoop,
      if_neg hne]
    change (match descend T current curChilds name with
      | none => none
      | some next => resolveLoop T next (skipSlashes end_p)) = _
    rw [hnext]
    exact hrest

theorem resolvePath_eq_foldlM (T : NodeTree ν) (path : CString) (hne : path.bytes ≠ []) :
    resolvePath T path = (components path.bytes).foldlM (walkCode T) T.root := by
  unfold resolvePath
  split
  · contradiction
  · rw [resolveLoop_eq_foldlM T _ _ (head?_skipSlashes_ne _), components_skipSlashes]

/-! ## Where the code meets the specification -/

/-- Below a node with children the code takes the specification's step; below one without, it
fails, as the specification does for an ordinary name. -/
theorem walkCode_eq_walk_iff (T : NodeTree ν) (n : ν) (name : List UInt8) :
    walkCode T n name = walk T n name ↔ ¬(T.lookup n = [] ∧ (name = dot ∨ name = dotdot)) := by
  unfold walkCode
  split_ifs with h
  · rw [eq_comm, walk_eq_none_iff, h]
    simp [not_or]
  · simp [h]

/-- The two folds agree unless a dot component meets a node without children and nothing that
follows is missing. -/
theorem foldlM_walkCode_eq_iff (T : NodeTree ν) (names : List (List UInt8)) (n : ν) :
    names.foldlM (walkCode T) n = names.foldlM (walk T) n ↔
      (Missing T n names ∨ ¬DotAtLeaf T n names) := by
  induction names generalizing n with
  | nil => simp [Missing, DotAtLeaf]
  | cons name rest ih =>
    rw [List.foldlM_cons, List.foldlM_cons]
    by_cases hleaf : T.lookup n = [] ∧ (name = dot ∨ name = dotdot)
    · have hcode : walkCode T n name = none := if_pos hleaf.1
      have hdot : DotAtLeaf T n (name :: rest) := Or.inl hleaf
      rw [hcode, ← List.foldlM_cons, ← foldlM_walk_eq_none_iff]
      simp [hdot, eq_comm]
    · rw [(walkCode_eq_walk_iff T n name).2 hleaf]
      cases hwalk : walk T n name with
      | none => simp [Missing, hwalk]
      | some next => simpa [Missing, DotAtLeaf, hwalk, hleaf] using ih next

/-- `resolvePath` returns what the specification says if and only if no `.` or `..` is met at a
node without children, or an ordinary component of the path is missing anyway. -/
theorem resolvePath_eq_spec_iff (T : NodeTree ν) (path : CString) :
    resolvePath T path = resolveSpec T path ↔
      (Missing T T.root (components path.bytes) ∨
        ¬DotAtLeaf T T.root (components path.bytes)) := by
  by_cases hne : path.bytes = []
  · simp [resolvePath, resolveSpec, hne, components_nil, DotAtLeaf]
  · rw [resolvePath_eq_foldlM T path hne, resolveSpec, if_neg hne, foldlM_walkCode_eq_iff]

theorem foldlM_walkCode_of_dotAtLeaf (T : NodeTree ν) {names : List (List UInt8)} {n : ν}
    (leaf : DotAtLeaf T n names) : names.foldlM (walkCode T) n = none := by
  induction names generalizing n with
  | nil => exact leaf.elim
  | cons name rest ih =>
    rw [List.foldlM_cons]
    rcases leaf with ⟨hnil, -⟩ | ⟨next, hwalk, hrest⟩
    · have hcode : walkCode T n name = none := if_pos hnil
      rw [hcode]
      rfl
    · unfold walkCode
      split_ifs
      · rfl
      · rw [hwalk]
        exact ih hrest

/-- What a path leads to, up to a relation of the nodes: what the specification says, but nothing where a `.`
or a `..` is met at a node without children. -/
structure Resolves {α : Type*} (T : NodeTree ν) (path : CString) (R : α → ν → Prop) (r : Option α) :
    Prop where
  spec : ¬DotAtLeaf T T.root (components path.bytes) → Option.Rel R r (resolveSpec T path)
  leaf : DotAtLeaf T T.root (components path.bytes) → r = none

theorem Resolves.of_resolvePath {α : Type*} {T : NodeTree ν} {path : CString} {R : α → ν → Prop}
    {r : Option α} (rel : Option.Rel R r (resolvePath T path)) : Resolves T path R r where
  spec := fun hleaf => by
    rwa [← (resolvePath_eq_spec_iff T path).2 (Or.inr hleaf)]
  leaf := fun hleaf => by
    have hne : path.bytes ≠ [] := by
      intro hnil
      rw [hnil, components_nil] at hleaf
      exact hleaf
    rw [resolvePath_eq_foldlM T path hne, foldlM_walkCode_of_dotAtLeaf T hleaf] at rel
    cases rel
    rfl

/-- A root with one child, the empty directory `d`. -/
def emptyDirTree : NodeTree Bool where
  root := false
  getParent _ := false
  lookup n := if n then [] else [true]
  getName n := if n then .ofBytes [100] else .ofBytes []
  getParent_root := rfl

/-- The path `/d/..`. -/
def emptyDirPath : CString := ⟨[47, 100, 47, 46, 46], by simp⟩

/-- In an empty directory `d` the path `/d/..` should lead back to the root, and fails. -/
theorem resolvePath_emptyDir :
    resolvePath emptyDirTree emptyDirPath = none ∧
      resolveSpec emptyDirTree emptyDirPath = some emptyDirTree.root := by
  rw [resolvePath_eq_foldlM _ _ (by decide)]
  exact ⟨by decide, by decide⟩

end VFS
