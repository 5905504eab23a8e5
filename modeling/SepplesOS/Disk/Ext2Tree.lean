import SepplesOS.Disk.Ext2Node
import SepplesOS.Disk.NodeHeap

/-!
# From an image to the files in it

An ext2 image stands for a tree of files and directories when the inodes, the block maps and the records
of its directories say so (`Represents`).  `resolvePath` and `read` then work on the tree: whatever was
mounted and resolved before, a path leads in memory where it leads in the tree, and reading the node
there gives the content of the file.
-/

open OwnedTree VFS NodeHeap ATA

namespace Ext2

/-! ## The code over nodes -/

/-- `NodeEXT2::getSize`. -/
def NodeEXT2.getSize (node : NodeEXT2) : UInt64 :=
  if node.type = .NODE_FILE then node.inode.iSize.toUInt64 else 0

/-- The children that `NodeEXT2::lookup` makes; `fresh` is what new memory holds in the call for a node. -/
def listNode (disk : Drives) (fresh : NodeEXT2 → Fresh) (node : NodeEXT2) : List (CString × NodeEXT2) :=
  ((lookup disk node.hd node.inode (fresh node) (node.inode.iSize.toNat + 1)).getD []).map fun c =>
    (c.name, ⟨c.type, node.hd, c.inode⟩)

/-! ## The tree of an image -/

/-- A file, or a directory. -/
inductive FileTree
  | file (content : List UInt8)
  | dir (entries : List (CString × FileTree))

/-- The entries of a directory; a file has none. -/
def FileTree.entries : FileTree → List (CString × FileTree)
  | file _ => []
  | dir entries => entries

/-- `EXT2_S_IFREG`. -/
def EXT2_S_IFREG : UInt16 := 0x8000

/-- The format bits of an inode say that it is a regular file. -/
def Inode.IsReg (inode : Inode) : Prop := inode.iMode &&& EXT2_S_IFMT = EXT2_S_IFREG

/-- The inode stands for a tree: its block map holds the bytes of a file, or the records of a directory
of which the listed ones stand for the entries, and their inodes and the blocks can be read. -/
inductive Represents (disk : Drives) (hd : Ext2Disk) : Inode → FileTree → Prop
  | file {inode : Inode} {content : List UInt8} (regular : inode.IsReg)
      (exact : BlockReadsExact disk hd inode) (whole : NoHole disk hd inode)
      (size : content.length = inode.iSize.toNat)
      (bytes : ∀ (k : ℕ) (hk : k < content.length), content[k] = fileByte disk hd inode k) :
      Represents disk hd inode (.file content)
  | dir {inode : Inode} {es : List DirEntry} {entries : List (CString × FileTree)} {inodes : ℕ → Inode}
      (isDir : inode.IsDir) (exact : BlockReadsExact disk hd inode)
      (data : DirData hd.blocksize.toNat (fileByte disk hd inode) 0 es)
      (size : recBytes es = inode.iSize.toNat)
      (order : ∀ e ∈ es.dropWhile (·.ext2Inode ≠ 0), ¬e.Listed)
      (length : (es.filter (·.Listed)).length = entries.length)
      (names : ∀ (i : ℕ) (e : DirEntry) (x : CString × FileTree), (es.filter (·.Listed))[i]? = some e →
        entries[i]? = some x → x.1.bytes = e.name)
      (read : ∀ (i : ℕ) (e : DirEntry), (es.filter (·.Listed))[i]? = some e →
        InodeReadable disk hd e.ext2Inode ∧ inodeAt disk hd e.ext2Inode = some (inodes i))
      (below : ∀ (i : ℕ) (x : CString × FileTree), entries[i]? = some x →
        Represents disk hd (inodes i) x.2) :
      Represents disk hd inode (.dir entries)

/-- The node stands for a tree, and it is a node of the right kind. -/
structure NodeRep (disk : Drives) (node : NodeEXT2) (t : FileTree) : Prop where
  blocks : 0 < node.hd.blocksize.toNat
  groups : node.hd.sb.sInodesPerGroup ≠ 0
  tree : Represents disk node.hd node.inode t
  type : node.type = .NODE_FILE ↔ ∃ content, t = .file content

/-! ## Listing -/

section Listing

variable {disk : Drives} {hd : Ext2Disk} {inode : Inode} {t : FileTree}

theorem isDirectory_of_isReg (regular : inode.IsReg) : isDirectory inode = false := by
  have hmask : inode.iMode &&& EXT2_S_IFDIR = 0 := by
    have hbits : EXT2_S_IFDIR = EXT2_S_IFMT &&& EXT2_S_IFDIR := rfl
    rw [hbits, ← UInt16.and_assoc, regular]
    rfl
  rw [isDirectory, hmask]
  rfl

theorem not_isDir_of_isReg (regular : inode.IsReg) : ¬inode.IsDir := by
  intro isDir
  have hfalse := isDirectory_of_isReg regular
  rw [isDirectory_of_isDir isDir] at hfalse
  cases hfalse

theorem Represents.isDirectory_iff (rep : Represents disk hd inode t) :
    (isDirectory inode = true ↔ inode.IsDir) ∧ (inode.IsDir ↔ ¬∃ content, t = .file content) := by
  cases rep with
  | file regular =>
    have hbit := isDirectory_of_isReg regular
    have hdir := not_isDir_of_isReg regular
    simp [hbit, hdir]
  | dir isDir =>
    have hbit := isDirectory_of_isDir isDir
    simp [hbit, isDir]

theorem length_le_recBytes {bs off : ℕ} {mmap : Buf} {es : List DirEntry} (data : DirData bs mmap off es) :
    es.length ≤ recBytes es := by
  induction es generalizing off with
  | nil => exact Nat.zero_le _
  | cons e es ih =>
    obtain ⟨-, hlen, -, -, hrest⟩ := data
    have hle := ih hrest
    rw [recBytes_cons, List.length_cons]
    omega

/-- The children of a node that stands for a tree stand for its entries. -/
theorem listNode_rep {node : NodeEXT2} (rep : NodeRep disk node t) (fresh : NodeEXT2 → Fresh) :
    List.Forall₂ (fun c x => c.1 = x.1 ∧ NodeRep disk c.2 x.2) (listNode disk fresh node) t.entries := by
  obtain ⟨hblocks, hgroups, htree, htype⟩ := rep
  cases htree with
  | file regular =>
    have hnone : lookup disk node.hd node.inode (fresh node) (node.inode.iSize.toNat + 1) = some [] :=
      if_neg (by rw [isDirectory_of_isReg regular]; decide)
    rw [listNode, hnone]
    exact .nil
  | @dir _ es entries inodes isDir exact data size order length names read below =>
    -- each listed record has an entry
    have hentry : ∀ e ∈ es, e.Listed → ∃ (i : ℕ) (x : CString × FileTree),
        (es.filter (·.Listed))[i]? = some e ∧ entries[i]? = some x := by
      intro e he hl
      have hmem : e ∈ es.filter (·.Listed) := List.mem_filter.2 ⟨he, by simpa using hl⟩
      obtain ⟨i, hi, hget⟩ := List.getElem_of_mem hmem
      exact ⟨i, entries[i], hget ▸ List.getElem?_eq_getElem hi, List.getElem?_eq_getElem (length ▸ hi)⟩
    have hplain : Plain disk node.hd es := by
      refine ⟨order, fun e he hl => ?_⟩
      obtain ⟨i, x, hget, hx⟩ := hentry e he hl
      obtain ⟨hreadable, hplace⟩ := read i e hget
      refine ⟨fun b hb => ?_, hreadable, fun inode hi => ?_⟩
      · rw [← names i e x hget hx] at hb
        exact x.1.noNul b hb
      · obtain rfl := Option.some.inj (hplace.symm.trans hi)
        exact (below i x hx).isDirectory_iff.1
    obtain ⟨mmap, hdata, hloop⟩ := lookup_eq_loop isDir data size
      (readsFile_of_dirData hblocks exact data size (fresh node)) (node.inode.iSize.toNat + 1)
    have hfuel : es.length < node.inode.iSize.toNat + 1 :=
      Nat.lt_succ_of_le (size ▸ length_le_recBytes data)
    obtain ⟨childs, hchilds, hshows⟩ := (lookupLoop_lists_iff hgroups (fresh node).blBuffer hdata size hfuel).2
      hplain (fresh node).inode
    have hlookup : lookup disk node.hd node.inode (fresh node) (node.inode.iSize.toNat + 1) = some childs :=
      (hloop (fresh node).inode).trans hchilds
    rw [listNode, hlookup, Option.getD_some, List.forall₂_map_left_iff]
    obtain ⟨hlen, hget⟩ := List.forall₂_iff_get.1 hshows
    refine List.forall₂_iff_get.2 ⟨hlen.symm.trans length, fun i hi hx => ?_⟩
    have he : i < (es.filter (·.Listed)).length := hlen ▸ hi
    obtain ⟨hname, -, hinode, hkind⟩ := hget i he hi
    have hname' := names i _ _ (List.getElem?_eq_getElem he) (List.getElem?_eq_getElem hx)
    obtain ⟨-, hplace⟩ := read i _ (List.getElem?_eq_getElem he)
    have hrep := below i _ (List.getElem?_eq_getElem hx)
    rw [← Option.some.inj (hinode.symm.trans hplace)] at hrep
    refine ⟨CString.ext (hname.trans hname'.symm), hblocks, hgroups, hrep, ?_⟩
    dsimp only
    rw [hkind]
    split_ifs with hdir
    · exact iff_of_false (by simp) (hrep.isDirectory_iff.2.1 hdir)
    · exact iff_of_true rfl (not_not.1 fun h => hdir (hrep.isDirectory_iff.2.2 h))

end Listing

/-! ## Two trees that look alike -/

section Alike

variable {ν μ : Type*} {T : NodeTree ν} {U : NodeTree μ}

/-- The nodes of two trees correspond, with their names, their parents and their children. -/
structure Alike (T : NodeTree ν) (U : NodeTree μ) (R : ν → μ → Prop) : Prop where
  root : R T.root U.root
  parent : ∀ n m, R n m → R (T.getParent n) (U.getParent m)
  name : ∀ n m, R n m → T.getName n = U.getName m
  childs : ∀ n m, R n m → List.Forall₂ R (T.lookup n) (U.lookup m)

variable {R : ν → μ → Prop}

theorem Alike.find (alike : Alike T U R) (name : List UInt8) {ns : List ν} {ms : List μ}
    (rel : List.Forall₂ R ns ms) :
    Option.Rel R (ns.find? fun n => (T.getName n).bytes = name)
      (ms.find? fun m => (U.getName m).bytes = name) := by
  induction rel with
  | nil => exact .none
  | @cons n m ns ms hrel _ ih =>
    by_cases hname : (T.getName n).bytes = name
    · rw [List.find?_cons_of_pos (by simpa using hname),
        List.find?_cons_of_pos (by simpa [← alike.name n m hrel] using hname)]
      exact .some hrel
    · rw [List.find?_cons_of_neg (by simpa using hname),
        List.find?_cons_of_neg (by simpa [← alike.name n m hrel] using hname)]
      exact ih

theorem Alike.walkCode (alike : Alike T U R) (name : List UInt8) {n : ν} {m : μ} (rel : R n m) :
    Option.Rel R (VFS.walkCode T n name) (VFS.walkCode U m name) := by
  have hchilds := alike.childs n m rel
  have hnil : T.lookup n = [] ↔ U.lookup m = [] := by
    rw [← List.length_eq_zero_iff, hchilds.length_eq, List.length_eq_zero_iff]
  unfold VFS.walkCode walk VFS.descend
  simp only [hnil]
  split_ifs
  · exact .none
  · exact .some (alike.parent n m rel)
  · exact .some rel
  · exact alike.find name hchilds

theorem Alike.resolvePath (alike : Alike T U R) (path : CString) :
    Option.Rel R (VFS.resolvePath T path) (VFS.resolvePath U path) := by
  by_cases hpath : path.bytes = []
  · simp [VFS.resolvePath, hpath]
  · rw [resolvePath_eq_foldlM T path hpath, resolvePath_eq_foldlM U path hpath]
    generalize components path.bytes = names
    have hrun : ∀ n m, R n m →
        Option.Rel R (names.foldlM (VFS.walkCode T) n) (names.foldlM (VFS.walkCode U) m) := by
      induction names with
      | nil => exact fun n m hrel => .some hrel
      | cons name rest ih =>
        intro n m hrel
        have hstep := alike.walkCode name hrel
        rw [List.foldlM_cons, List.foldlM_cons]
        generalize VFS.walkCode T n name = x at hstep ⊢
        generalize VFS.walkCode U m name = y at hstep ⊢
        cases hstep with
        | none => exact .none
        | some hnext => exact ih _ _ hnext
    exact hrun _ _ alike.root

/-- What a path leads to in the one tree, it leads to in the other. -/
theorem Alike.resolves {α : Type*} {S : α → ν → Prop} {Q : α → μ → Prop} {r : Option α} {path : CString}
    (alike : Alike T U R) (rel : Option.Rel S r (VFS.resolvePath T path))
    (step : ∀ a n m, S a n → R n m → Q a m) : Resolves U path Q r := by
  apply Resolves.of_resolvePath
  have halike := alike.resolvePath path
  generalize VFS.resolvePath T path = x at rel halike
  generalize VFS.resolvePath U path = y at halike ⊢
  cases rel with
  | none =>
    cases halike
    exact .none
  | some hnode =>
    cases halike with
    | some hrel => exact .some (step _ _ _ hnode hrel)

end Alike

/-! ## Runs -/

section Runs

variable {disk : Drives}

/-- A node of the one tree carries the same name as that of the other, and stands for what it is. -/
def DataRep (disk : Drives) (d : NodeData NodeEXT2) (x : NodeData FileTree) : Prop :=
  d.name = x.name ∧ ∃ node t, d.body = some node ∧ x.body = some t ∧ NodeRep disk node t

theorem alike_tree (fresh : NodeEXT2 → Fresh) {mounts : List (NodeData NodeEXT2)}
    {mounts' : List (NodeData FileTree)} (rep : List.Forall₂ (DataRep disk) mounts mounts') :
    Alike (tree (listNode disk fresh) mounts) (tree FileTree.entries mounts')
      (List.Forall₂ (DataRep disk)) where
  root := .nil
  parent := fun n m hrel => by
    cases hrel with
    | nil => exact .nil
    | cons _ hrest => exact hrest
  name := fun n m hrel => by
    cases hrel with
    | nil => rfl
    | cons hdata _ => exact hdata.1
  childs := fun n m hrel => by
    cases hrel with
    | nil =>
      apply List.forall₂_map_left_iff.2
      apply List.forall₂_map_right_iff.2
      exact rep.imp fun d x h => .cons h .nil
    | @cons d x n m hdata hrest =>
      apply List.forall₂_map_left_iff.2
      apply List.forall₂_map_right_iff.2
      obtain ⟨-, node, t, hd, hx, hnode⟩ := id hdata
      rw [hd, hx]
      apply List.forall₂_map_left_iff.2
      apply List.forall₂_map_right_iff.2
      exact (listNode_rep hnode fresh).imp fun c y h =>
        .cons ⟨h.1, c.2, y.2, rfl, rfl, h.2⟩ (.cons hdata hrest)

/-- A call on the nodes of an image, and the call on the file trees that it means: a partition is mounted
that stands for a tree. -/
inductive CallRep (disk : Drives) : Call NodeEXT2 → Call FileTree → Prop
  | mount {node : NodeEXT2} {t : FileTree} (rep : NodeRep disk node t) :
      CallRep disk (.mount node) (.mount t)
  | resolvePath (path : CString) : CallRep disk (.resolvePath path) (.resolvePath path)

theorem mountsAfter_rep {calls : List (Call NodeEXT2)} {calls' : List (Call FileTree)}
    (rep : List.Forall₂ (CallRep disk) calls calls') {mounts : List (NodeData NodeEXT2)}
    {mounts' : List (NodeData FileTree)} (mounted : List.Forall₂ (DataRep disk) mounts mounts') :
    List.Forall₂ (DataRep disk) (calls.foldl mountsAfter mounts) (calls'.foldl mountsAfter mounts') := by
  induction rep generalizing mounts mounts' with
  | nil => exact mounted
  | cons hcall _ ih =>
    apply ih
    cases hcall with
    | mount hnode =>
      apply List.rel_append mounted
      refine .cons ⟨?_, _, _, rfl, rfl, hnode⟩ .nil
      simp only [mountData, mounted.length_eq]
    | resolvePath path => exact mounted

end Runs

/-- What `loadTask` reads from the node is the content of the file, whatever new memory holds; a directory has
none. -/
def ReadsAs (disk : Drives) (node : NodeEXT2) (t : FileTree) : Prop :=
  ∀ (fresh : Fresh) (buf : Buf),
    match t with
    | .file content => node.getSize.toNat = content.length ∧
        ∃ buf', node.read disk fresh node.getSize buf = some (node.getSize, buf') ∧
          buf'.bytes 0 content.length = content
    | .dir _ => node.getSize = 0 ∧ node.read disk fresh node.getSize buf = some (0, buf)

theorem NodeRep.readsAs {disk : Drives} {node : NodeEXT2} {t : FileTree} (rep : NodeRep disk node t) :
    ReadsAs disk node t := by
  intro fresh buf
  obtain ⟨hblocks, -, htree, htype⟩ := rep
  cases htree with
  | file regular exact whole size bytes =>
    have hfile : node.type = .NODE_FILE := htype.2 ⟨_, rfl⟩
    have hsize : node.getSize.toNat = node.inode.iSize.toNat := by
      rw [NodeEXT2.getSize, if_pos hfile]
      exact UInt32.toNat_toUInt64 _
    obtain ⟨data, hdata, hread⟩ := readsFile_of_noHole hblocks exact whole fresh
    refine ⟨hsize.trans size.symm, buf.memcpy 0 (fun k => data (0 + k)) node.inode.iSize.toNat, ?_, ?_⟩
    · rw [read_eq hfile, hdata, Option.map_some, if_neg (by omega), hsize, min_self]
    · apply List.ext_getElem
      · simp
      · intro k hk hk'
        have hlt : k < node.inode.iSize.toNat := size ▸ hk'
        simp only [Buf.bytes, List.getElem_map, List.getElem_range, Nat.zero_add, Buf.memcpy]
        rw [if_pos ⟨Nat.zero_le k, hlt⟩, Nat.sub_zero, hread k hlt, bytes k hk']
  | dir isDir =>
    have hdir : node.type ≠ .NODE_FILE := fun h => by
      obtain ⟨content, hcontent⟩ := htype.1 h
      cases hcontent
    exact ⟨if_neg hdir, if_pos hdir⟩

/-- The node in memory is the one with that path in the file trees, and reads as it. -/
def Found (disk : Drives) (h : Nodes NodeEXT2) (p : ℕ) : List (NodeData FileTree) → Prop
  | [] => p = root
  | x :: _ => ∃ n node t, h.cell p = some n ∧ n.data.name = x.name ∧ n.data.body = some node ∧
      x.body = some t ∧ ReadsAs disk node t

theorem found_of_path {disk : Drives} {h : Nodes NodeEXT2} {p : ℕ} {s : List (NodeData NodeEXT2)}
    {s' : List (NodeData FileTree)} (path : Path h root p s) (rep : List.Forall₂ (DataRep disk) s s') :
    Found disk h p s' := by
  cases rep with
  | nil => exact path.eq_root
  | cons hdata _ =>
    obtain ⟨hname, node, t, hd, hx, hnode⟩ := hdata
    obtain ⟨n, hn, -, rfl, -⟩ := path.uncons
    exact ⟨n, node, t, hn, hname, hd, hx, hnode.readsAs⟩

/-- A directory of one file `a`, which is inode 3 and has the content `x` in block 8. -/
def oneFile : Drives := readyDrive fun k =>
  if k = 5376 + 1 then 0x80
  else if k = 5376 + 4 then 1
  else if k = 5376 + 40 then 8
  else if k = 8192 then 120
  else if 7168 ≤ k then [3, 0, 0, 0, 0, 4, 1, 1, 97].getD (k - 7168) 0
  else 0

/-- The root of that directory. -/
def oneFileRoot : NodeEXT2 := ⟨.NODE_ROOT, smallDisk, dirInode⟩

/-- The inode of the file. -/
def oneFileInode : Inode := Inode.ofBuf (driveBytes oneFile 0 5376)

theorem oneFile_inode : InodeReadable oneFile smallDisk 3 ∧ inodeAt oneFile smallDisk 3 = some oneFileInode := by
  have hgroup : smallDisk.gd (grNum smallDisk 3).toNat = some ⟨5⟩ := rfl
  refine ⟨InodeReadable.of_ready ⟨by decide, fun _ => rfl⟩ hgroup ?_ ?_ ?_, rfl⟩
  · decide
  · decide
  · decide

theorem oneFile_represents :
    NodeRep oneFile oneFileRoot (.dir [(CString.ofBytes [97], .file [120])]) := by
  have hregular : oneFileInode.IsReg := by
    unfold Inode.IsReg
    decide
  have hfile : Represents oneFile smallDisk oneFileInode (.file [120]) := by
    refine .file hregular (blockReadsExact_direct _ (by decide) (by decide)) ?_ (by decide) ?_
    · intro k hk
      obtain rfl := Nat.lt_one_iff.1 hk
      decide
    · have hbyte : fileByte oneFile smallDisk oneFileInode 0 = 120 := by decide
      intro k hk
      obtain rfl := Nat.lt_one_iff.1 hk
      exact hbyte.symm
  have hentry : DirEntry.ofBuf (fileByte oneFile smallDisk dirInode) 0 = ⟨3, 1024, 1, 1, [97]⟩ := by
    decide +kernel
  have hlisted : [(⟨3, 1024, 1, 1, [97]⟩ : DirEntry)].filter (·.Listed) = [⟨3, 1024, 1, 1, [97]⟩] := by
    decide
  have hroot : Represents oneFile smallDisk dirInode (.dir [(CString.ofBytes [97], .file [120])]) := by
    refine @Represents.dir _ _ _ [⟨3, 1024, 1, 1, [97]⟩] _ (fun _ => oneFileInode) (by decide)
      (blockReadsExact_direct _ (by decide) (by decide))
      ⟨hentry, by decide, by decide, by decide, trivial⟩ (by decide) (by decide) (by decide) ?_ ?_ ?_
    · rintro (_ | i) e x he hx
      · rw [hlisted] at he
        cases he
        cases hx
        rfl
      · cases hx
    · rintro (_ | i) e he
      · rw [hlisted] at he
        cases he
        exact oneFile_inode
      · rw [hlisted] at he
        cases he
    · rintro (_ | i) x hx
      · cases hx
        exact hfile
      · cases hx
  exact ⟨by decide, by decide, hroot, iff_of_false (by decide) (by simp)⟩

/-- The path `/0/a`. -/
def oneFilePath : CString := CString.ofBytes [47, 48, 47, 97]

end Ext2
