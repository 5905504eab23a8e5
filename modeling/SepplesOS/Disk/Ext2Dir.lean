import SepplesOS.Disk.Ext2File
import SepplesOS.Lib.CString

/-!
# Listing a directory

`NodeEXT2::lookup` walks the records of a directory and makes a child node for each.  Its loop ends
at the first record with inode number `0`, which in ext2 is an unused slot and not the end, and its
directory test is one bit of the format field.  `lookup_lists_iff` says for a well-formed directory
when the children are the listed entries all the same.
-/

namespace Ext2

open ATA

/-! ## The code -/

/-- The fixed part of `ext2DirectoryEntry` and the `nameLen` bytes of its name. -/
structure DirEntry where
  ext2Inode : UInt32
  recLen : UInt16
  nameLen : UInt8
  fileType : UInt8
  name : List UInt8
  deriving DecidableEq

/-- The entry at `dentry`. -/
def DirEntry.ofBuf (mmap : Buf) (dentry : ℕ) : DirEntry where
  ext2Inode := mmap.u32 dentry
  recLen := mmap.u16 (dentry + 4)
  nameLen := mmap (dentry + 6)
  fileType := mmap (dentry + 7)
  name := mmap.bytes (dentry + 8) (mmap (dentry + 6)).toNat

/-- `NodeEXT2Type`. -/
inductive NodeType
  | NODE_UNKNOWN
  | NODE_DIRECTORY
  | NODE_FILE
  | NODE_ROOT
  deriving DecidableEq

/-- A child node, as `createChild` builds it. -/
structure Child where
  name : CString
  inum : UInt32
  inode : Inode
  type : NodeType

/-- `EXT2_S_IFMT`. -/
def EXT2_S_IFMT : UInt16 := 0xF000

/-- `EXT2_S_IFDIR`. -/
def EXT2_S_IFDIR : UInt16 := 0x4000

/-- `isDirectory`. -/
def isDirectory (inode : Inode) : Bool := inode.iMode &&& EXT2_S_IFDIR != 0

/-- The file names `"."` and `".."`. -/
def isDotName (filename : List UInt8) : Bool := filename == [46] || filename == [46, 46]

section Lookup

variable (disk : Drives) (hd : Ext2Disk)

/-- The node `createChild` appends to `childs`. -/
def createChild (name : CString) (ext2Inum : UInt32) (inode : Inode) (type : NodeType) : Child where
  name := name
  inum := ext2Inum
  inode := inode
  type := type

/-- `childType` of the loop of `lookup`. -/
def childType (childInode : Inode) : NodeType :=
  if isDirectory childInode then .NODE_DIRECTORY else .NODE_FILE

/-- `while (dentry->ext2Inode && dsize)`, over the bytes `mmap` of the directory.  There is no value when
the fuel runs out, and when the inode of an entry is a null pointer or cannot be read. -/
def lookupLoop (newInode : ℕ → Buf) (blBuffer mmap : Buf) :
    ℕ → ℕ → UInt32 → List Child → Option (List Child)
  | 0, _, _, _ => none
  | fuel + 1, dentry, dsize, childs =>
    let e := DirEntry.ofBuf mmap dentry
    if e.ext2Inode ≠ 0 ∧ dsize ≠ 0 then
      let filename := CString.ofBytes e.name
      let next := lookupLoop newInode blBuffer mmap fuel (dentry + e.recLen.toNat)
        (dsize - e.recLen.toUInt32)
      if isDotName filename.bytes then next childs
      else
        match ext2ReadInode disk hd e.ext2Inode (newInode dentry) blBuffer with
        | some (some childInode) =>
          next (childs ++ [createChild filename e.ext2Inode childInode (childType childInode)])
        | _ => none
    else some childs

/-- `NodeEXT2::lookup`: the children it leaves, the earlier ones being deleted first. -/
def lookup (inode : Inode) (fresh : Fresh) (fuel : ℕ) : Option (List Child) :=
  if isDirectory inode then
    (ext2ReadFile disk hd inode fresh).bind fun mmap =>
      lookupLoop disk hd fresh.inode fresh.blBuffer mmap fuel 0 inode.iSize []
  else some []

end Lookup

/-! ## Well-formed directories -/

/-- The records `es` stand one after the other from `off` on, each long enough for its name, a
multiple of four long and inside one block of `bs` bytes. -/
def DirData (bs : ℕ) (mmap : Buf) : ℕ → List DirEntry → Prop
  | _, [] => True
  | off, e :: es =>
    DirEntry.ofBuf mmap off = e ∧ 8 + e.nameLen.toNat ≤ e.recLen.toNat ∧ e.recLen.toNat % 4 = 0 ∧
      (off + e.recLen.toNat - 1) / bs = off / bs ∧ DirData bs mmap (off + e.recLen.toNat) es

/-- The bytes taken by the records. -/
def recBytes (es : List DirEntry) : ℕ := (es.map fun e => e.recLen.toNat).sum

/-- An entry that a listing shows: in use, and neither `.` nor `..`. -/
def DirEntry.Listed (e : DirEntry) : Prop := e.ext2Inode ≠ 0 ∧ isDotName e.name = false

instance (e : DirEntry) : Decidable e.Listed := inferInstanceAs (Decidable (_ ∧ _))

/-- The format bits of an inode say that it is a directory. -/
def Inode.IsDir (inode : Inode) : Prop := inode.iMode &&& EXT2_S_IFMT = EXT2_S_IFDIR

instance (inode : Inode) : Decidable inode.IsDir := inferInstanceAs (Decidable (_ = _))

section Spec

variable (disk : Drives) (hd : Ext2Disk)

/-- `child` shows the entry `e`: its name, inode number, inode and kind. -/
structure Shows (e : DirEntry) (child : Child) : Prop where
  name : child.name.bytes = e.name
  inum : child.inum = e.ext2Inode
  inode : inodeAt disk hd e.ext2Inode = some child.inode
  type : child.type = if child.inode.IsDir then .NODE_DIRECTORY else .NODE_FILE

/-- The entries the code lists as they are: the name has no NUL in it, the inode can be read, and the bit
the code tests says the same as the format field. -/
structure DirEntry.Plain (e : DirEntry) : Prop where
  name : ∀ b ∈ e.name, b ≠ 0
  readable : InodeReadable disk hd e.ext2Inode
  mode : ∀ inode, inodeAt disk hd e.ext2Inode = some inode → (isDirectory inode = true ↔ inode.IsDir)

/-- The directories the code lists as they are: no listed entry stands behind an unused one, and all listed
ones are plain. -/
structure Plain (es : List DirEntry) : Prop where
  order : ∀ e ∈ es.dropWhile (·.ext2Inode ≠ 0), ¬e.Listed
  plain : ∀ e ∈ es, e.Listed → e.Plain disk hd

end Spec

/-! ## The loop -/

section Loop

variable {disk : Drives} {hd : Ext2Disk} {bs : ℕ} {newInode : ℕ → Buf} {blBuffer mmap : Buf}

theorem recBytes_cons (e : DirEntry) (es : List DirEntry) :
    recBytes (e :: es) = e.recLen.toNat + recBytes es := by
  simp [recBytes]

theorem lookupLoop_append (fuel dentry : ℕ) (dsize : UInt32) (childs : List Child) :
    lookupLoop disk hd newInode blBuffer mmap fuel dentry dsize childs =
      (lookupLoop disk hd newInode blBuffer mmap fuel dentry dsize []).map (childs ++ ·) := by
  induction fuel generalizing dentry dsize childs with
  | zero => rfl
  | succ fuel ih =>
    rw [lookupLoop, lookupLoop]
    dsimp only
    split_ifs
    · exact ih _ _ childs
    · rcases ext2ReadInode disk hd _ (newInode dentry) blBuffer with _ | _ | childInode
      · rfl
      · rfl
      · dsimp only
        rw [ih _ _ (childs ++ _), ih _ _ ([] ++ _), Option.map_map]
        exact congrArg (Option.map · _) (funext fun cs => List.append_assoc childs _ cs)
    · simp

variable (disk hd newInode blBuffer) in
/-- What the loop does at the first of the records that are left. -/
theorem lookupLoop_cons {e : DirEntry} {es : List DirEntry} {off : ℕ}
    (hdata : DirData bs mmap off (e :: es)) {dsize : UInt32} (hsize : recBytes (e :: es) = dsize.toNat)
    (fuel : ℕ) :
    recBytes es = (dsize - e.recLen.toUInt32).toNat ∧
    lookupLoop disk hd newInode blBuffer mmap (fuel + 1) off dsize [] =
      if e.ext2Inode = 0 then some []
      else
        let next := lookupLoop disk hd newInode blBuffer mmap fuel (off + e.recLen.toNat)
          (dsize - e.recLen.toUInt32) []
        if isDotName (CString.ofBytes e.name).bytes then next
        else
          match ext2ReadInode disk hd e.ext2Inode (newInode off) blBuffer with
          | some (some childInode) => next.map fun cs =>
            createChild (CString.ofBytes e.name) e.ext2Inode childInode (childType childInode) :: cs
          | _ => none := by
  obtain ⟨he, hlen, -, -, -⟩ := hdata
  rw [recBytes_cons] at hsize
  have hdsize : dsize ≠ 0 := fun h => by
    rw [h] at hsize
    simp at hsize
    omega
  have hle : e.recLen.toUInt32 ≤ dsize := by
    rw [UInt32.le_iff_toNat_le, UInt16.toNat_toUInt32]
    omega
  refine ⟨by rw [UInt32.toNat_sub_of_le _ _ hle, UInt16.toNat_toUInt32]; omega, ?_⟩
  rw [lookupLoop]
  simp only [he]
  by_cases hunused : e.ext2Inode = 0
  · rw [if_neg fun h => h.1 hunused, if_pos hunused]
  · rw [if_pos ⟨hunused, hdsize⟩, if_neg hunused]
    split_ifs
    · rfl
    · rcases ext2ReadInode disk hd e.ext2Inode (newInode off) blBuffer with _ | _ | childInode
      · rfl
      · rfl
      · dsimp only
        rw [lookupLoop_append]
        rfl

end Loop

/-! ## The data of a directory -/

section Data

variable {disk : Drives} {hd : Ext2Disk} {inode : Inode} {bs : ℕ} {m₁ m₂ : Buf}

theorem DirEntry.ofBuf_congr {off n : ℕ} (hn : 8 + (DirEntry.ofBuf m₁ off).nameLen.toNat ≤ n)
    (h : ∀ i < n, m₁ (off + i) = m₂ (off + i)) : DirEntry.ofBuf m₁ off = DirEntry.ofBuf m₂ off := by
  have hname : m₁ (off + 6) = m₂ (off + 6) := h 6 (by omega)
  have hlen : 8 + (m₁ (off + 6)).toNat ≤ n := hn
  simp only [DirEntry.ofBuf, DirEntry.mk.injEq]
  refine ⟨Buf.u32_congr fun i hi => h i (by omega), Buf.u16_congr fun i hi => ?_, hname,
    h 7 (by omega), ?_⟩
  · have := h (4 + i) (by omega)
    rwa [← Nat.add_assoc] at this
  · rw [← hname]
    refine Buf.bytes_congr fun i hi => ?_
    have := h (8 + i) (by omega)
    rwa [← Nat.add_assoc] at this

theorem DirData.congr {off : ℕ} {es : List DirEntry} (hdata : DirData bs m₁ off es)
    (h : ∀ k, off ≤ k → k < off + recBytes es → m₁ k = m₂ k) : DirData bs m₂ off es := by
  induction es generalizing off with
  | nil => trivial
  | cons e es ih =>
    obtain ⟨he, hlen, hmod, hblock, hrest⟩ := hdata
    rw [recBytes_cons] at h
    refine ⟨?_, hlen, hmod, hblock, ih hrest fun k hk hlt => h k (by omega) (by omega)⟩
    rw [← he] at hlen
    rw [← he]
    exact (DirEntry.ofBuf_congr hlen fun i hi => h _ (by omega) (by rw [← he]; omega)).symm

/-- Every byte of the data belongs to a record that stays inside a block. -/
theorem DirData.exists_record {mmap : Buf} {off k : ℕ} {es : List DirEntry}
    (hdata : DirData bs mmap off es) (hk : off ≤ k) (hlt : k < off + recBytes es) :
    ∃ o ≤ k, k < o + (mmap.u16 (o + 4)).toNat ∧ 8 ≤ (mmap.u16 (o + 4)).toNat ∧
      (o + (mmap.u16 (o + 4)).toNat - 1) / bs = o / bs := by
  induction es generalizing off with
  | nil =>
    simp [recBytes] at hlt
    omega
  | cons e es ih =>
    obtain ⟨rfl, hlen, -, hblock, hrest⟩ := hdata
    rw [recBytes_cons] at hlt
    by_cases hin : k < off + (mmap.u16 (off + 4)).toNat
    · exact ⟨off, hk, hin, (Nat.le_add_right 8 _).trans hlen, hblock⟩
    · exact ih hrest (not_lt.1 hin) (by rw [Nat.add_assoc]; exact hlt)

theorem noHole_of_dirData {es : List DirEntry}
    (hdata : DirData hd.blocksize.toNat (fileByte disk hd inode) 0 es)
    (hsize : recBytes es = inode.iSize.toNat) : NoHole disk hd inode := by
  intro k hk hhole
  obtain ⟨o, hok, hko, hlen, hblock⟩ :=
    hdata.exists_record (Nat.zero_le k) (by rw [Nat.zero_add, hsize]; exact hk)
  have hzero : ∀ j, o ≤ j → j < o + (Buf.u16 (fileByte disk hd inode) (o + 4)).toNat →
      fileByte disk hd inode j = 0 := by
    intro j hoj hj
    -- the whole record lies in the block of byte `k`
    have hblk : ∀ i, o ≤ i → i < o + (Buf.u16 (fileByte disk hd inode) (o + 4)).toNat →
        i / hd.blocksize.toNat = o / hd.blocksize.toNat := fun i hoi hi =>
      Nat.le_antisymm (hblock ▸ Nat.div_le_div_right (by omega)) (Nat.div_le_div_right hoi)
    rw [fileByte, hblk j hoj hj, ← hblk k hok hko, hhole]
    rfl
  have hrec : Buf.u16 (fileByte disk hd inode) (o + 4) = 0 := by
    rw [Buf.u16, Buf.leNat_eq_zero]
    · rfl
    · exact fun i hi => hzero _ (by omega) (by omega)
  rw [hrec] at hlen
  simp at hlen

theorem readsFile_of_dirData (hbs : 0 < hd.blocksize.toNat) (hexact : BlockReadsExact disk hd inode)
    {es : List DirEntry} (hdata : DirData hd.blocksize.toNat (fileByte disk hd inode) 0 es)
    (hsize : recBytes es = inode.iSize.toNat) (fresh : Fresh) : ReadsFile disk hd inode fresh :=
  readsFile_of_noHole hbs hexact (noHole_of_dirData hdata hsize) fresh

end Data

/-! ## When the listing is right -/

section Listing

variable {disk : Drives} {hd : Ext2Disk}

theorem isDirectory_of_isDir {inode : Inode} (isDir : inode.IsDir) : isDirectory inode = true := by
  have hmask : inode.iMode &&& EXT2_S_IFDIR = EXT2_S_IFDIR := by
    have hbits : EXT2_S_IFDIR = EXT2_S_IFMT &&& EXT2_S_IFDIR := rfl
    rw [hbits, ← UInt16.and_assoc, isDir]
    rfl
  rw [isDirectory, hmask]
  rfl

theorem isDotName_ofBytes {name : List UInt8} (h : isDotName name = true) :
    isDotName (CString.ofBytes name).bytes = true := by
  have hname : name = [46] ∨ name = [46, 46] := by simpa [isDotName] using h
  rw [CString.bytes_ofBytes_of_noNul, h]
  rcases hname with rfl | rfl <;> simp

theorem length_lookupLoop_le {bs off : ℕ} {newInode : ℕ → Buf} {blBuffer mmap : Buf} {es : List DirEntry}
    (hdata : DirData bs mmap off es) {dsize : UInt32} (hsize : recBytes es = dsize.toNat) {fuel : ℕ}
    {cs : List Child}
    (returns : lookupLoop disk hd newInode blBuffer mmap fuel off dsize [] = some cs) :
    cs.length ≤ (es.filter (·.Listed)).length := by
  induction es generalizing off dsize fuel cs with
  | nil =>
    cases fuel with
    | zero => cases returns
    | succ fuel =>
      have hzero : dsize = 0 := UInt32.toNat_inj.1 (by simpa [recBytes] using hsize.symm)
      rw [lookupLoop, if_neg (by simp [hzero])] at returns
      cases returns
      exact Nat.zero_le _
  | cons e es ih =>
    cases fuel with
    | zero => cases returns
    | succ fuel =>
      obtain ⟨hrest, hstep⟩ := lookupLoop_cons disk hd newInode blBuffer hdata hsize fuel
      have hle := (List.sublist_cons_self e es).filter (·.Listed) |>.length_le
      rw [hstep] at returns
      dsimp only at returns
      split_ifs at returns with hunused hdot
      · cases returns
        exact Nat.zero_le _
      · exact (ih hdata.2.2.2.2 hrest returns).trans hle
      · have hlisted : e.Listed := ⟨hunused, by
          by_contra h
          exact hdot (isDotName_ofBytes (by simpa using h))⟩
        rcases hread : ext2ReadInode disk hd e.ext2Inode (newInode off) blBuffer with _ | _ | childInode
        · rw [hread] at returns
          cases returns
        · rw [hread] at returns
          cases returns
        · rw [hread] at returns
          obtain ⟨cs', hcs', rfl⟩ := Option.map_eq_some_iff.1 returns
          have hlen := ih hdata.2.2.2.2 hrest hcs'
          rw [List.filter_cons_of_pos (by simpa using hlisted)]
          simpa using hlen

/-- The child made for an entry shows it exactly when its name has no NUL in it and the bit the
code tests agrees with the format field. -/
theorem shows_createChild_iff {e : DirEntry} {inode : Inode} (place : inodeAt disk hd e.ext2Inode = some inode) :
    Shows disk hd e (createChild (CString.ofBytes e.name) e.ext2Inode inode (childType inode)) ↔
      (∀ b ∈ e.name, b ≠ 0) ∧ (isDirectory inode = true ↔ inode.IsDir) := by
  have htype : childType inode = (if inode.IsDir then .NODE_DIRECTORY else .NODE_FILE) ↔
      (isDirectory inode = true ↔ inode.IsDir) := by
    unfold childType
    split_ifs with h₁ h₂ h₂ <;> simp [h₁, h₂]
  constructor
  · intro h
    exact ⟨CString.bytes_ofBytes_eq_iff.1 h.name, htype.1 h.type⟩
  · rintro ⟨hname, hmode⟩
    exact ⟨CString.bytes_ofBytes_eq_iff.2 hname, rfl, place, htype.2 hmode⟩

theorem plain_cons_iff {e : DirEntry} (hused : e.ext2Inode ≠ 0) (es : List DirEntry) :
    Plain disk hd (e :: es) ↔ (e.Listed → e.Plain disk hd) ∧ Plain disk hd es := by
  constructor
  · rintro ⟨horder, hplain⟩
    rw [List.dropWhile_cons_of_pos (by simpa using hused)] at horder
    exact ⟨hplain e List.mem_cons_self, horder, fun e' h => hplain e' (List.mem_cons_of_mem e h)⟩
  · rintro ⟨he, horder, hplain⟩
    refine ⟨by rwa [List.dropWhile_cons_of_pos (by simpa using hused)], fun e' h => ?_⟩
    rcases List.mem_cons.1 h with rfl | h
    · exact he
    · exact hplain e' h

theorem forall_shows_cons_iff (groups : hd.sb.sInodesPerGroup ≠ 0) (blBuffer : Buf) {e : DirEntry} {off : ℕ}
    {next : (ℕ → Buf) → Option (List Child)} {es : List DirEntry} :
    (∀ newInode : ℕ → Buf, ∃ cs,
        (match ext2ReadInode disk hd e.ext2Inode (newInode off) blBuffer with
          | some (some childInode) => (next newInode).map fun cs =>
            createChild (CString.ofBytes e.name) e.ext2Inode childInode (childType childInode) :: cs
          | _ => none) = some cs ∧ List.Forall₂ (Shows disk hd) (e :: es) cs) ↔
      e.Plain disk hd ∧ ∀ newInode, ∃ cs, next newInode = some cs ∧ List.Forall₂ (Shows disk hd) es cs := by
  constructor
  · intro hall
    -- with any new inode, the entry's own one is read
    have hfirst : ∀ newInode : ℕ → Buf, ∃ inode cs,
        ext2ReadInode disk hd e.ext2Inode (newInode off) blBuffer = some (some inode) ∧
          next newInode = some cs ∧
          Shows disk hd e (createChild (CString.ofBytes e.name) e.ext2Inode inode (childType inode)) ∧
          List.Forall₂ (Shows disk hd) es cs := by
      intro newInode
      obtain ⟨cs, hrun, hshows⟩ := hall newInode
      rcases hread : ext2ReadInode disk hd e.ext2Inode (newInode off) blBuffer with _ | _ | inode
      · rw [hread] at hrun
        cases hrun
      · rw [hread] at hrun
        cases hrun
      · rw [hread] at hrun
        obtain ⟨cs', hcs', rfl⟩ := Option.map_eq_some_iff.1 hrun
        rw [List.forall₂_cons] at hshows
        exact ⟨inode, cs', rfl, hcs', hshows⟩
    obtain ⟨inode, -, -, -, hshows, -⟩ := hfirst fun _ _ => 0
    have hplace : inodeAt disk hd e.ext2Inode = some inode := hshows.inode
    obtain ⟨hname, hmode⟩ := (shows_createChild_iff hplace).1 hshows
    refine ⟨⟨hname, (inodeReadable_iff groups blBuffer).2 ⟨inode, hplace, fun newInode => ?_⟩, ?_⟩, ?_⟩
    · obtain ⟨inode', -, hread, -, hshows', -⟩ := hfirst fun _ => newInode
      have hplace' : inodeAt disk hd e.ext2Inode = some inode' := hshows'.inode
      rw [hread, ← hplace', hplace]
    · intro inode' hinode'
      obtain rfl := Option.some.inj (hplace.symm.trans hinode')
      exact hmode
    · intro newInode
      obtain ⟨-, cs, -, hcs, -, hrest⟩ := hfirst newInode
      exact ⟨cs, hcs, hrest⟩
  · rintro ⟨⟨hname, hreadable, hmode⟩, hrest⟩ newInode
    obtain ⟨inode, hplace, hread⟩ := (inodeReadable_iff groups blBuffer).1 hreadable
    obtain ⟨cs, hcs, hshows⟩ := hrest newInode
    rw [hread]
    refine ⟨_, by rw [hcs]; rfl, List.Forall₂.cons ?_ hshows⟩
    exact (shows_createChild_iff hplace).2 ⟨hname, hmode inode hplace⟩

/-- The children are the listed entries, in order, exactly for the plain directories. -/
theorem lookupLoop_lists_iff (groups : hd.sb.sInodesPerGroup ≠ 0) (blBuffer : Buf) {bs off : ℕ} {mmap : Buf}
    {es : List DirEntry} (hdata : DirData bs mmap off es) {dsize : UInt32}
    (hsize : recBytes es = dsize.toNat) {fuel : ℕ} (hfuel : es.length < fuel) :
    (∀ newInode, ∃ cs, lookupLoop disk hd newInode blBuffer mmap fuel off dsize [] = some cs ∧
      List.Forall₂ (Shows disk hd) (es.filter (·.Listed)) cs) ↔ Plain disk hd es := by
  induction es generalizing off dsize fuel with
  | nil =>
    obtain ⟨fuel, rfl⟩ : ∃ f, fuel = f + 1 := ⟨fuel - 1, by omega⟩
    have hzero : dsize = 0 := UInt32.toNat_inj.1 (by simpa [recBytes] using hsize.symm)
    apply iff_of_true
    · exact fun newInode => ⟨[], by rw [lookupLoop, if_neg (by simp [hzero])], .nil⟩
    · exact ⟨by simp, by simp⟩
  | cons e es ih =>
    obtain ⟨fuel, rfl⟩ : ∃ f, fuel = f + 1 := ⟨fuel - 1, by omega⟩
    have hstep := fun newInode => lookupLoop_cons disk hd newInode blBuffer hdata hsize fuel
    have hrest := (hstep fun _ _ => 0).1
    rw [List.length_cons] at hfuel
    have hnext := ih hdata.2.2.2.2 hrest (by omega : es.length < fuel)
    simp only [fun newInode => (hstep newInode).2]
    by_cases hunused : e.ext2Inode = 0
    · -- the loop stops here: nothing behind it may be listed
      simp only [if_pos hunused, Option.some.injEq, exists_eq_left', forall_const,
        List.forall₂_nil_right_iff, List.filter_eq_nil_iff, decide_eq_true_eq]
      constructor
      · intro h
        exact ⟨fun e' he' => h e' ((List.dropWhile_sublist _).mem he'), fun e' he' hl => absurd hl (h e' he')⟩
      · intro h e' he'
        refine h.order e' ?_
        rwa [List.dropWhile_cons_of_neg (by simp [hunused])]
    · simp only [if_neg hunused]
      rw [plain_cons_iff hunused, ← hnext]
      by_cases hdot : isDotName e.name = true
      · have hl : ¬e.Listed := fun h => by simp [h.2] at hdot
        simp only [if_pos (isDotName_ofBytes hdot)]
        rw [List.filter_cons_of_neg (by simpa using hl)]
        exact ⟨fun h => ⟨fun h' => absurd h' hl, h⟩, fun h => h.2⟩
      · have hl : e.Listed := ⟨hunused, by simpa using hdot⟩
        rw [List.filter_cons_of_pos (by simpa using hl)]
        by_cases hcut : isDotName (CString.ofBytes e.name).bytes = true
        · -- the name is cut at a NUL to `.` or `..`: the entry has no child
          simp only [if_pos hcut]
          refine iff_of_false (fun h => ?_) fun h => ?_
          · obtain ⟨cs, hcs, hshows⟩ := h fun _ _ => 0
            have hlen := hshows.length_eq
            have hle := length_lookupLoop_le hdata.2.2.2.2 hrest hcs
            rw [List.length_cons] at hlen
            omega
          · rw [CString.bytes_ofBytes_of_noNul (h.1 hl).name] at hcut
            exact hdot hcut
        · simp only [if_neg hcut]
          rw [forall_shows_cons_iff groups blBuffer]
          exact and_congr_left fun _ => ⟨fun h _ => h, fun h => h hl⟩

theorem lookup_eq_loop {inode : Inode} {es : List DirEntry} {fresh : Fresh} (isDir : inode.IsDir)
    (data : DirData hd.blocksize.toNat (fileByte disk hd inode) 0 es)
    (size : recBytes es = inode.iSize.toNat) (reads : ReadsFile disk hd inode fresh) (fuel : ℕ) :
    ∃ mmap, DirData hd.blocksize.toNat mmap 0 es ∧ ∀ newInode,
      lookup disk hd inode { fresh with inode := newInode } fuel =
        lookupLoop disk hd newInode fresh.blBuffer mmap fuel 0 inode.iSize [] := by
  obtain ⟨mmap, hmmap, hbytes⟩ := reads
  refine ⟨mmap, data.congr fun k _ hk => (hbytes k (by rwa [Nat.zero_add, size] at hk)).symm, ?_⟩
  intro newInode
  have hsame : ext2ReadFile disk hd inode { fresh with inode := newInode } = some mmap := hmmap
  rw [lookup, if_pos (isDirectory_of_isDir isDir), hsame]
  rfl

end Listing

/-- A drive with the given bytes in block 7 of `smallDisk` and zeros elsewhere. -/
def dirDisk (image : List UInt8) : Drives :=
  readyDrive fun k => if 7168 ≤ k then image.getD (k - 7168) 0 else 0

/-- The inode of a directory of one block, block 7. -/
def dirInode : Inode := inodeOf 0x4000 1024 fun i => if i.val = 0 then 7 else 0

/-- An entry in use, named `a`, before an unused slot. -/
def usedFirst : Drives := dirDisk
  [3, 0, 0, 0, 12, 0, 1, 0, 97, 0, 0, 0,
   0, 0, 0, 0, 244, 3, 1, 0, 120]

/-- An unused slot before an entry in use, named `a`. -/
def unusedFirst : Drives := dirDisk
  [0, 0, 0, 0, 12, 0, 1, 0, 120, 0, 0, 0,
   3, 0, 0, 0, 244, 3, 1, 0, 97]

theorem dirInode_exact (image : List UInt8) : BlockReadsExact (dirDisk image) smallDisk dirInode :=
  blockReadsExact_direct _ (by decide) (by decide)

theorem dirData_usedFirst : DirData 1024 (fileByte usedFirst smallDisk dirInode) 0
    [⟨3, 12, 1, 0, [97]⟩, ⟨0, 1012, 1, 0, [120]⟩] :=
  ⟨by decide +kernel, by decide, by decide, by decide, by decide +kernel, by decide, by decide, by decide,
    trivial⟩

theorem dirData_unusedFirst : DirData 1024 (fileByte unusedFirst smallDisk dirInode) 0
    [⟨0, 12, 1, 0, [120]⟩, ⟨3, 1012, 1, 0, [97]⟩] :=
  ⟨by decide +kernel, by decide, by decide, by decide, by decide +kernel, by decide, by decide, by decide,
    trivial⟩

theorem inodeReadable_three : InodeReadable usedFirst smallDisk 3 := by
  have hgroup : smallDisk.gd (grNum smallDisk 3).toNat = some ⟨5⟩ := rfl
  apply InodeReadable.of_ready ⟨by decide, fun _ => rfl⟩ hgroup
  · decide
  · decide
  · decide

theorem plain_usedFirst : Plain usedFirst smallDisk [⟨3, 12, 1, 0, [97]⟩, ⟨0, 1012, 1, 0, [120]⟩] := by
  refine ⟨by simp [DirEntry.Listed], fun e he hl => ?_⟩
  obtain rfl : e = ⟨3, 12, 1, 0, [97]⟩ := by
    rcases List.mem_cons.1 he with rfl | he
    · rfl
    · obtain rfl := List.mem_singleton.1 he
      exact absurd hl (by decide)
  refine ⟨by simp, inodeReadable_three, fun inode hi => ?_⟩
  obtain rfl := Option.some.inj hi
  decide

end Ext2
