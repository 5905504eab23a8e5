import SepplesOS.Disk.Ext2File

/-!
# Block offsets on the drive

Every read of the driver is at the start of the partition plus a block number times the size of a block.
But for the table of the single indirect blocks, that product is taken in 32 bits.  `fileReads` lists the
reads of `ext2ReadFile` with their offsets, and `offsets_exact_iff` says when they are all right, and that
of an inode: when the products that are taken in 32 bits fit.
-/

namespace Ext2

open ATA IndexTree

/-! ## The offsets -/

section Offsets

variable (hd : Ext2Disk)

/-- A read of a block is at the block. -/
def OffsetExact (b : UInt32) (offset : UInt64) : Prop :=
  offset.toNat = hd.part.startLba.toNat * 512 + b.toNat * hd.blocksize.toNat

/-- The read of an inode is at the inode. -/
def InodeExact (group : GroupDesc) (iNum : UInt32) : Prop :=
  (inodeOffset hd group iNum).toNat = inodePlace hd group iNum

/-- The offset of a block fits into 32 bits. -/
def Fits32 (b : UInt32) : Prop := b.toNat * hd.blocksize.toNat < 2 ^ 32

/-- What the partition table and `ext2GetDiskInfo` make of a drive: a partition that starts at a sector of
32 bits, and `1024 << sLogBlockSize` as the size of a block. -/
structure Mounted : Prop where
  start : hd.part.startLba.toNat < 2 ^ 32
  blocksize : ∃ sLogBlockSize : UInt32, hd.blocksize = 1024 <<< sLogBlockSize

/-- A read of `ext2ReadFile`: the block, and the offset that it passes to `diskRead`. -/
abbrev FileRead := UInt32 × UInt64

/-- A read by an offset taken in 32 bits. -/
def noteRead (b : UInt32) (reads : List FileRead) : List FileRead :=
  reads ++ [(b, blockOffset hd b)]

variable (disk : Drives)

/-- What a read of a block gives when it does not fail. -/
def blockRead (b : UInt32) : Buf := driveBytes disk hd.device (blockOffset hd b).toNat

/-- The same for the table of the single indirect blocks. -/
def blockRead64 (b : UInt32) : Buf := driveBytes disk hd.device (blockOffset64 hd b).toNat

/-- The reads of a block of pointers to data blocks, and of these. -/
def noteData (b : UInt32) (reads : List FileRead) : List FileRead :=
  forNonzero (pointer (blockRead hd disk b)) (noteRead hd) (perBlock hd) 0 (noteRead hd b reads)

/-- The reads of a block of pointers to tables, and of these. -/
def noteTables (b : UInt32) (reads : List FileRead) : List FileRead :=
  forNonzero (pointer (blockRead hd disk b)) (noteData hd disk) (perBlock hd) 0 (noteRead hd b reads)

/-- The same one level of tables deeper. -/
def noteTrees (b : UInt32) (reads : List FileRead) : List FileRead :=
  forNonzero (pointer (blockRead hd disk b)) (noteTables hd disk) (perBlock hd) 0 (noteRead hd b reads)

/-- The reads of `ext2ReadFile`, in order. -/
def fileReads (inode : Inode) : List FileRead :=
  -- direct block number
  let reads := forNonzero inode.block (noteRead hd) 12 0 []
  -- indirect block number
  let reads :=
    if inode.block 12 ≠ 0 then
      forNonzero (pointer (blockRead64 hd disk (inode.block 12))) (noteRead hd) (perBlock hd) 0
        (reads ++ [(inode.block 12, blockOffset64 hd (inode.block 12))])
    else reads
  -- bi-indirect block number
  let reads := if inode.block 13 ≠ 0 then noteTables hd disk (inode.block 13) reads else reads
  -- tri-indirect block number
  if inode.block 14 ≠ 0 then noteTrees hd disk (inode.block 14) reads else reads

/-! ## The blocks of a file, by exact reads -/

/-- The entries of a block of pointers before the first null one. -/
def entries (p : Buf) (n : ℕ) : List UInt32 :=
  (nonzeroIdx (pointer p) n).map (pointer p)

/-- A block with the blocks below it, in the order of the loops, `d` tables deep, when a block `b` of
pointers reads as `look b`. -/
def blocksBelow (look : UInt32 → Buf) (n : ℕ) : ℕ → UInt32 → List UInt32
  | 0, b => [b]
  | d + 1, b => b :: (entries (look b) n).flatMap (blocksBelow look n d)

/-- The blocks of a file but for the table of the single indirect ones, when tables read as `look`
says and that one as `look12` does. -/
def fileBlocks (look look12 : UInt32 → Buf) (n : ℕ) (inode : Inode) : List UInt32 :=
  (nonzeroIdx inode.block 12).map inode.block ++
    (if inode.block 12 ≠ 0 then entries (look12 (inode.block 12)) n else []) ++
    (if inode.block 13 ≠ 0 then blocksBelow look n 2 (inode.block 13) else []) ++
    if inode.block 14 ≠ 0 then blocksBelow look n 3 (inode.block 14) else []

/-- The blocks of a file but for the table of the single indirect ones, as the drive has them. -/
def mapBlocks (inode : Inode) : List UInt32 :=
  fileBlocks (blockAt disk hd) (blockAt disk hd) (perBlock hd) inode

end Offsets

section Exact

variable {hd : Ext2Disk} {disk : Drives} {inode : Inode} {b : UInt32}

theorem startLba_mul (start : hd.part.startLba.toNat < 2 ^ 32) :
    (hd.part.startLba * 512).toNat = hd.part.startLba.toNat * 512 := by
  rw [UInt64.toNat_mul, Nat.mod_eq_of_lt]
  · rfl
  · show hd.part.startLba.toNat * 512 < 2 ^ 64
    omega

theorem Mounted.blocksize_le (mounted : Mounted hd) : hd.blocksize.toNat ≤ 2 ^ 32 - 1024 := by
  obtain ⟨log, hlog⟩ := mounted.blocksize
  have hlt := hd.blocksize.toNat_lt
  have hdvd : 1024 ∣ hd.blocksize.toNat := by
    rw [hlog, UInt32.toNat_shiftLeft, Nat.shiftLeft_eq]
    exact (Nat.dvd_mod_iff (by decide)).2 (Nat.dvd_mul_right 1024 _)
  omega

theorem blockOffset_exact_iff (start : hd.part.startLba.toNat < 2 ^ 32) :
    OffsetExact hd b (blockOffset hd b) ↔ Fits32 hd b := by
  have hlt := Nat.mod_lt (b.toNat * hd.blocksize.toNat) (show 0 < 2 ^ 32 by decide)
  have hoff : (blockOffset hd b).toNat =
      hd.part.startLba.toNat * 512 + b.toNat * hd.blocksize.toNat % 2 ^ 32 := by
    unfold blockOffset
    rw [UInt64.toNat_add, startLba_mul start, UInt32.toNat_toUInt64, UInt32.toNat_mul,
      Nat.mod_eq_of_lt (by omega)]
  unfold OffsetExact Fits32
  rw [hoff]
  constructor
  · intro heq
    omega
  · intro hfits
    rw [Nat.mod_eq_of_lt hfits]

theorem blockOffset64_exact (mounted : Mounted hd) (b : UInt32) :
    OffsetExact hd b (blockOffset64 hd b) := by
  have hb := b.toNat_lt
  have hbs := mounted.blocksize_le
  have start := mounted.start
  have hmul : b.toNat * hd.blocksize.toNat ≤ (2 ^ 32 - 1) * (2 ^ 32 - 1024) :=
    Nat.mul_le_mul (by omega) (by omega)
  have hproduct : (b.toUInt64 * hd.blocksize.toUInt64).toNat = b.toNat * hd.blocksize.toNat := by
    rw [UInt64.toNat_mul, UInt32.toNat_toUInt64, UInt32.toNat_toUInt64]
    exact Nat.mod_eq_of_lt (by omega)
  unfold OffsetExact blockOffset64
  rw [UInt64.toNat_add, startLba_mul start, hproduct]
  exact Nat.mod_eq_of_lt (by omega)

theorem inodeExact_iff (start : hd.part.startLba.toNat < 2 ^ 32) (group : GroupDesc) (iNum : UInt32) :
    InodeExact hd group iNum ↔ Fits32 hd group.bgInodeTable := by
  have hidx := (inodeIndex hd iNum).toNat_lt
  have hsize := hd.sb.sInodeSize.toNat_lt
  have hmul : (inodeIndex hd iNum).toNat * hd.sb.sInodeSize.toNat ≤ (2 ^ 32 - 1) * (2 ^ 16 - 1) :=
    Nat.mul_le_mul (by omega) (by omega)
  unfold InodeExact inodeOffset inodePlace Fits32
  have hlt := Nat.mod_lt (group.bgInodeTable.toNat * hd.blocksize.toNat) (show 0 < 2 ^ 32 by decide)
  have hindex : ((inodeIndex hd iNum).toUInt64 * hd.sb.sInodeSize.toUInt64).toNat =
      (inodeIndex hd iNum).toNat * hd.sb.sInodeSize.toNat := by
    rw [UInt64.toNat_mul, UInt32.toNat_toUInt64, UInt16.toNat_toUInt64]
    exact Nat.mod_eq_of_lt (by omega)
  have htable : (group.bgInodeTable * hd.blocksize).toUInt64.toNat =
      group.bgInodeTable.toNat * hd.blocksize.toNat % 2 ^ 32 := by
    rw [UInt32.toNat_toUInt64, UInt32.toNat_mul]
  rw [UInt64.toNat_add, startLba_mul start, UInt64.toNat_add, htable, hindex, Nat.add_mod_mod,
    Nat.mod_eq_of_lt (by omega)]
  constructor
  · intro heq
    omega
  · intro hfits
    rw [Nat.mod_eq_of_lt hfits, Nat.add_assoc]

/-! ## The reads as a list -/

theorem forNonzero_append {α : Type} {ptr : ℕ → UInt32} {body : UInt32 → List α → List α}
    {f : UInt32 → List α} (hbody : ∀ b l, body b l = l ++ f b) (n : ℕ) (l : List α) :
    forNonzero ptr body n 0 l = l ++ ((nonzeroIdx ptr n).map ptr).flatMap f := by
  rw [forNonzero_eq_foldl]
  generalize nonzeroIdx ptr n = idx
  induction idx generalizing l with
  | nil => simp
  | cons i idx ih => rw [List.foldl_cons, hbody, ih]; simp

theorem noteRead_eq (hd : Ext2Disk) (b : UInt32) (reads : List FileRead) :
    noteRead hd b reads = reads ++ [b].map fun b => (b, blockOffset hd b) := rfl

theorem noteReads_eq (hd : Ext2Disk) (p : Buf) (n : ℕ) (reads : List FileRead) :
    forNonzero (pointer p) (noteRead hd) n 0 reads =
      reads ++ (entries p n).map fun b => (b, blockOffset hd b) := by
  rw [forNonzero_append (noteRead_eq hd)]
  simp [entries, List.map_eq_flatMap]

theorem noteTree_eq {hd : Ext2Disk} {look : UInt32 → Buf} {n d : ℕ}
    {body : UInt32 → List FileRead → List FileRead}
    (hbody : ∀ b reads, body b reads =
      reads ++ (blocksBelow look n d b).map fun b => (b, blockOffset hd b))
    (b : UInt32) (reads : List FileRead) :
    forNonzero (pointer (look b)) body n 0 (noteRead hd b reads) =
      reads ++ (blocksBelow look n (d + 1) b).map fun b => (b, blockOffset hd b) := by
  rw [forNonzero_append hbody, noteRead_eq, blocksBelow]
  simp [entries, List.map_flatMap]

/-- The reads of `ext2ReadFile` as a list: but for the table of the single indirect blocks, the offsets are
taken in 32 bits. -/
theorem fileReads_eq (disk : Drives) (hd : Ext2Disk) (inode : Inode) :
    fileReads hd disk inode =
      ((nonzeroIdx inode.block 12).map inode.block).map (fun b => (b, blockOffset hd b)) ++
      ((if inode.block 12 ≠ 0 then (inode.block 12, blockOffset64 hd (inode.block 12)) ::
          (entries (blockRead64 hd disk (inode.block 12)) (perBlock hd)).map
            (fun b => (b, blockOffset hd b)) else []) ++
      ((if inode.block 13 ≠ 0 then blocksBelow (blockRead hd disk) (perBlock hd) 2 (inode.block 13)
          else []).map (fun b => (b, blockOffset hd b)) ++
      (if inode.block 14 ≠ 0 then blocksBelow (blockRead hd disk) (perBlock hd) 3 (inode.block 14)
          else []).map (fun b => (b, blockOffset hd b)))) := by
  have hdata : ∀ b reads, noteData hd disk b reads = reads ++
      (blocksBelow (blockRead hd disk) (perBlock hd) 1 b).map fun b => (b, blockOffset hd b) :=
    noteTree_eq (noteRead_eq hd)
  have htables : ∀ b reads, noteTables hd disk b reads = reads ++
      (blocksBelow (blockRead hd disk) (perBlock hd) 2 b).map fun b => (b, blockOffset hd b) :=
    noteTree_eq hdata
  have htrees : ∀ b reads, noteTrees hd disk b reads = reads ++
      (blocksBelow (blockRead hd disk) (perBlock hd) 3 b).map fun b => (b, blockOffset hd b) :=
    noteTree_eq htables
  have hdirect : forNonzero inode.block (noteRead hd) 12 0 [] =
      ((nonzeroIdx inode.block 12).map inode.block).map fun b => (b, blockOffset hd b) := by
    rw [forNonzero_append (noteRead_eq hd), List.nil_append]
    simp [List.map_eq_flatMap]
  unfold fileReads
  dsimp only
  rw [hdirect]
  generalize ((nonzeroIdx inode.block 12).map inode.block).map (fun b => (b, blockOffset hd b)) =
    direct
  have hsingle : ∀ reads : List FileRead, (if inode.block 12 ≠ 0 then
      forNonzero (pointer (blockRead64 hd disk (inode.block 12))) (noteRead hd) (perBlock hd) 0
        (reads ++ [(inode.block 12, blockOffset64 hd (inode.block 12))]) else reads) =
      reads ++ if inode.block 12 ≠ 0 then (inode.block 12, blockOffset64 hd (inode.block 12)) ::
          (entries (blockRead64 hd disk (inode.block 12)) (perBlock hd)).map
            (fun b => (b, blockOffset hd b)) else [] := by
    intro reads
    split_ifs
    · rw [noteReads_eq, List.append_assoc, List.singleton_append]
    · rw [List.append_nil]
  have htree : ∀ (root : UInt32) (d : ℕ) (note : UInt32 → List FileRead → List FileRead)
      (reads : List FileRead), (∀ b reads, note b reads = reads ++
        (blocksBelow (blockRead hd disk) (perBlock hd) d b).map fun b => (b, blockOffset hd b)) →
      (if root ≠ 0 then note root reads else reads) = reads ++
        (if root ≠ 0 then blocksBelow (blockRead hd disk) (perBlock hd) d root else []).map
          fun b => (b, blockOffset hd b) := by
    intro root d note reads hnote
    split_ifs
    · exact hnote root reads
    · rw [List.map_nil, List.append_nil]
  rw [hsingle, htree _ 2 _ _ htables, htree _ 3 _ _ htrees, List.append_assoc, List.append_assoc]

/-! ## The reads are exact -/

theorem entries_congr {p p' : Buf} {n : ℕ} (agree : ∀ i < 4 * n, p i = p' i) :
    entries p n = entries p' n := by
  have heq : ∀ i < n, pointer p i = pointer p' i := fun i hi =>
    Buf.u32_congr fun j hj => agree _ (by omega)
  have hidx : nonzeroIdx (pointer p) n = nonzeroIdx (pointer p') n := nonzeroIdx_congr heq
  unfold entries
  rw [← hidx]
  exact List.map_congr_left fun i hi => heq i (mem_nonzeroIdx.1 hi).1

/-- Two ways to read the tables lead to the same blocks when they agree on those that one of them leads
to. -/
theorem blocksBelow_congr {look look' : UInt32 → Buf} {n d : ℕ} {b : UInt32}
    (agree : ∀ c ∈ blocksBelow look n d b, ∀ i < 4 * n, look c i = look' c i) :
    blocksBelow look n d b = blocksBelow look' n d b := by
  induction d generalizing b with
  | zero => rfl
  | succ d ih =>
    have hroot : entries (look b) n = entries (look' b) n :=
      entries_congr (agree b (by rw [blocksBelow]; exact List.mem_cons_self))
    rw [blocksBelow, blocksBelow, ← hroot]
    congr 1
    refine List.flatMap_congr fun c hc => ih fun e he => agree e ?_
    rw [blocksBelow]
    exact List.mem_cons_of_mem _ (List.mem_flatMap.2 ⟨c, hc, he⟩)

theorem blockRead_of_exact (exact : OffsetExact hd b (blockOffset hd b)) :
    ∀ i < 4 * perBlock hd, blockRead hd disk b i = blockAt disk hd b i := by
  intro i _
  rw [blockRead, blockAt, exact]

theorem listReads_exact_iff (start : hd.part.startLba.toNat < 2 ^ 32) (blocks : List UInt32) :
    (∀ r ∈ blocks.map fun b => (b, blockOffset hd b), OffsetExact hd r.1 r.2) ↔
      ∀ b ∈ blocks, Fits32 hd b := by
  rw [List.forall_mem_map]
  exact forall₂_congr fun b _ => blockOffset_exact_iff start

/-- The reads below one of the roots are exact when the products fit for the blocks that the drive has
there. -/
theorem treeReads_exact_iff (start : hd.part.startLba.toNat < 2 ^ 32) (disk : Drives) (root : UInt32) (d : ℕ) :
    (∀ r ∈ (if root ≠ 0 then blocksBelow (blockRead hd disk) (perBlock hd) d root else []).map
        fun b => (b, blockOffset hd b), OffsetExact hd r.1 r.2) ↔
      ∀ b ∈ if root ≠ 0 then blocksBelow (blockAt disk hd) (perBlock hd) d root else [],
        Fits32 hd b := by
  rw [listReads_exact_iff start]
  split_ifs
  · -- whichever of the two lists fits, the tables on it are read exactly, so that the lists are the same
    constructor
    · intro hfits
      rwa [← blocksBelow_congr fun c hc =>
        blockRead_of_exact ((blockOffset_exact_iff start).2 (hfits c hc))]
    · intro hfits
      rwa [← blocksBelow_congr fun c hc i hi =>
        (blockRead_of_exact ((blockOffset_exact_iff start).2 (hfits c hc)) i hi).symm]
  · exact Iff.rfl

theorem fileReads_exact_iff (mounted : Mounted hd) (disk : Drives) (inode : Inode) :
    (∀ r ∈ fileReads hd disk inode, OffsetExact hd r.1 r.2) ↔
      ∀ b ∈ mapBlocks hd disk inode, Fits32 hd b := by
  have hsingle : entries (blockRead64 hd disk (inode.block 12)) (perBlock hd) =
      entries (blockAt disk hd (inode.block 12)) (perBlock hd) := by
    refine entries_congr fun i _ => ?_
    rw [blockRead64, blockAt, blockOffset64_exact mounted]
  have hindirect : (∀ r ∈ (if inode.block 12 ≠ 0 then
      (inode.block 12, blockOffset64 hd (inode.block 12)) ::
        (entries (blockRead64 hd disk (inode.block 12)) (perBlock hd)).map
          (fun b => (b, blockOffset hd b)) else []), OffsetExact hd r.1 r.2) ↔
      ∀ b ∈ if inode.block 12 ≠ 0 then entries (blockAt disk hd (inode.block 12)) (perBlock hd) else [],
        Fits32 hd b := by
    split_ifs
    · rw [List.forall_mem_cons, hsingle, listReads_exact_iff mounted.start]
      exact and_iff_right (blockOffset64_exact mounted _)
    · simp
  rw [fileReads_eq, mapBlocks, fileBlocks]
  simp only [List.forall_mem_append]
  rw [listReads_exact_iff mounted.start, treeReads_exact_iff mounted.start,
    treeReads_exact_iff mounted.start, hindirect, and_assoc, and_assoc]

end Exact

/-- Every offset that `ext2ReadFile` and `ext2ReadInode` pass to `diskRead` is the exact one if and only if,
for the blocks of the file and for that of the inode's table, the product taken in 32 bits fits. -/
theorem offsets_exact_iff {hd : Ext2Disk} (mounted : Mounted hd) (disk : Drives) (inode : Inode)
    (group : GroupDesc) (iNum : UInt32) :
    ((∀ r ∈ fileReads hd disk inode, OffsetExact hd r.1 r.2) ∧ InodeExact hd group iNum) ↔
      (∀ b ∈ mapBlocks hd disk inode, Fits32 hd b) ∧ Fits32 hd group.bgInodeTable :=
  and_congr (fileReads_exact_iff mounted disk inode) (inodeExact_iff mounted.start group iNum)

/-- A partition behind the first sectors of a drive, with blocks of 1 KiB. -/
def farDisk : Ext2Disk := { smallDisk with part := ⟨63, 0⟩ }

/-- A file whose data is in the block that follows the first 4 GiB of the partition. -/
def farFile : Inode := inodeOf 0x8000 1024 fun i => if i.val = 0 then 4194304 else 0

theorem farDisk_mounted : Mounted farDisk := ⟨by decide, ⟨0, by decide⟩⟩

theorem farFile_offsets :
    ((∀ r ∈ fileReads farDisk (readyDrive fun _ => 0) farFile, OffsetExact farDisk r.1 r.2) ∧
        InodeExact farDisk ⟨5⟩ 2) ↔
      (∀ b ∈ mapBlocks farDisk (readyDrive fun _ => 0) farFile, Fits32 farDisk b) ∧
        Fits32 farDisk (⟨5⟩ : GroupDesc).bgInodeTable :=
  offsets_exact_iff farDisk_mounted _ farFile ⟨5⟩ 2

/-- That block is read from the start of the partition. -/
theorem farFile_not_exact :
    ¬ ∀ (hd : Ext2Disk) (disk : Drives) (inode : Inode) (group : GroupDesc) (iNum : UInt32), Mounted hd →
      (∀ r ∈ fileReads hd disk inode, OffsetExact hd r.1 r.2) ∧ InodeExact hd group iNum := by
  intro hall
  have hread : ((4194304 : UInt32), blockOffset farDisk 4194304) ∈
      fileReads farDisk (readyDrive fun _ => 0) farFile := by
    decide
  have hexact := (hall farDisk (readyDrive fun _ => 0) farFile ⟨5⟩ 2 farDisk_mounted).1 _ hread
  revert hexact
  unfold OffsetExact
  decide

end Ext2
