import SepplesOS.Disk.DiskRead
import SepplesOS.Lib.IndexTree

/-!
# The ext2 driver: reading inodes and files

The part of `kernel/disk/ext2.cpp` that reads from a drive.  No caller looks at what `diskRead` returns: a
read that fails leaves its buffer as it was.  A refused sector halts the machine, and a group descriptor
behind those of the disk is whatever the memory there holds, if it is mapped: where the machine stops, the
functions have no value.  Machine integers have their own types, so that products of two `u32` wrap as they
do in the source.
-/

namespace Ext2

open ATA IndexTree

/-! ## The data on a disk -/

/-- The fields of `Partition` that the driver uses. -/
structure Partition where
  startLba : UInt64
  diskId : UInt8

/-- The fields of `ext2SuperBlock` that the driver uses. -/
structure SuperBlock where
  sInodesCount : UInt32
  sBlocksCount : UInt32
  sLogBlockSize : UInt32
  sBlocksPerGroup : UInt32
  sInodesPerGroup : UInt32
  sMagic : UInt16
  sInodeSize : UInt16
  sFeatureIncompat : UInt32

/-- `(iNum - 1) / sInodesPerGroup`, the group of an inode. -/
def SuperBlock.groupOf (sb : SuperBlock) (iNum : UInt32) : UInt32 := (iNum - 1) / sb.sInodesPerGroup

/-- The field of `ext2GroupDesc` that the driver uses. -/
structure GroupDesc where
  bgInodeTable : UInt32

/-- `Ext2Disk`.  The memory from `gd` on holds the descriptors of the groups, and then something else. -/
structure Ext2Disk where
  device : ℕ
  part : Partition
  sb : SuperBlock
  blocksize : UInt32
  groups : UInt16
  gd : ℕ → Option GroupDesc
  descriptors : ∀ i < groups.toNat, (gd i).isSome

/-- `ext2Inode`. -/
structure Inode where
  iMode : UInt16
  iUid : UInt16
  iSize : UInt32
  iAtime : UInt32
  iCtime : UInt32
  iMtime : UInt32
  iDtime : UInt32
  iGid : UInt16
  iLinksCount : UInt16
  iBlocks : UInt32
  iFlags : UInt32
  iOsd1 : UInt32
  iBlock : Fin 15 → UInt32
  iGeneration : UInt32
  iFileAcl : UInt32
  iDirAcl : UInt32
  iFAddr : UInt32
  iOsd2 : List UInt8

/-- `sizeof(struct ext2Inode)`. -/
def sizeofInode : ℕ := 128

/-- The packed struct in a buffer. -/
def Inode.ofBuf (buf : Buf) : Inode where
  iMode := buf.u16 0
  iUid := buf.u16 2
  iSize := buf.u32 4
  iAtime := buf.u32 8
  iCtime := buf.u32 12
  iMtime := buf.u32 16
  iDtime := buf.u32 20
  iGid := buf.u16 24
  iLinksCount := buf.u16 26
  iBlocks := buf.u32 28
  iFlags := buf.u32 32
  iOsd1 := buf.u32 36
  iBlock i := buf.u32 (40 + 4 * i)
  iGeneration := buf.u32 100
  iFileAcl := buf.u32 104
  iDirAcl := buf.u32 108
  iFAddr := buf.u32 112
  iOsd2 := buf.bytes 116 12

/-- `iBlock[i]`; the loops only use `i < 15`. -/
def Inode.block (inode : Inode) (i : ℕ) : UInt32 :=
  if h : i < 15 then inode.iBlock ⟨i, h⟩ else 0

/-! ## Reading an inode -/

section Read

variable (disk : Drives) (hd : Ext2Disk)

/-- What `diskRead` leaves in `dest`; `blBuffer` is what its own buffer held. -/
def diskRead (offset count : UInt64) (dest blBuffer : Buf) : Option Buf :=
  (ATA.diskRead disk hd.device offset count dest blBuffer).map Prod.snd

/-- `grNum` of `ext2ReadInode`. -/
def grNum (iNum : UInt32) : UInt32 := hd.sb.groupOf iNum

/-- The index of an inode in its group. -/
def inodeIndex (iNum : UInt32) : UInt32 := (iNum - 1) % hd.sb.sInodesPerGroup

/-- `readPos` of `ext2ReadInode`: the offset of the group's inode table is a product of two `u32`. -/
def inodeOffset (group : GroupDesc) (iNum : UInt32) : UInt64 :=
  hd.part.startLba * 512 + ((group.bgInodeTable * hd.blocksize).toUInt64 +
    (inodeIndex hd iNum).toUInt64 * hd.sb.sInodeSize.toUInt64)

/-- `ext2ReadInode`, which may return a null pointer; `newInode` is what the new inode holds before it is
read. -/
def ext2ReadInode (iNum : UInt32) (newInode blBuffer : Buf) : Option (Option Inode) :=
  if hd.sb.sInodesPerGroup = 0 then some none
  else do
    let group ← hd.gd (grNum hd iNum).toNat
    let inode ← diskRead disk hd (inodeOffset hd group iNum) 128 newInode blBuffer
    return some (Inode.ofBuf inode)

/-! ## Reading a file -/

/-- `baseOff + b * hd->blocksize`, the product taken in 32 bits. -/
def blockOffset (b : UInt32) : UInt64 := hd.part.startLba * 512 + (b * hd.blocksize).toUInt64

/-- `baseOff + b * (u64)hd->blocksize`, as the indirect block is read. -/
def blockOffset64 (b : UInt32) : UInt64 := hd.part.startLba * 512 + b.toUInt64 * hd.blocksize.toUInt64

/-- `p[i]` of a block of pointers. -/
def pointer (p : Buf) (i : ℕ) : UInt32 := p.u32 (4 * i)

/-- The number of pointers in a block. -/
def perBlock : ℕ := hd.blocksize.toNat / 4

/-- The result buffer of `ext2ReadFile`, the offset of `mmapHead` in it and the bytes still to be
read. -/
structure FileBuf where
  mmapBase : Buf
  mmapHead : ℕ
  size : ℕ

/-- `n = min(size, blocksize); memcpy(mmapHead, buf, n); mmapHead += n; size -= n;` -/
def FileBuf.append (st : FileBuf) (blocksize : ℕ) (buf : Buf) : FileBuf :=
  let n := if st.size > blocksize then blocksize else st.size
  { mmapBase := st.mmapBase.memcpy st.mmapHead buf n
    mmapHead := st.mmapHead + n
    size := st.size - n }

/-- The buffers for blocks of pointers. -/
inductive Table
  | p
  | pp
  | ppp
  deriving DecidableEq

/-- What the new memory holds: the buffers of `ext2ReadFile` with its result, the inode that is read for
the entry at an offset of a directory, and the buffer of `diskRead`. -/
structure Fresh where
  buf : Buf
  tables : Table → Buf
  mmap : Buf
  inode : ℕ → Buf
  blBuffer : Buf

/-- The buffers of `ext2ReadFile`, and its result so far. -/
structure Buffers where
  buf : Buf
  tables : Table → Buf
  file : FileBuf

variable (blBuffer : Buf)

/-- A read of a block into one of the buffers. -/
def readBlock (offset : UInt64) (dest : Buf) : Option Buf :=
  diskRead disk hd offset hd.blocksize.toUInt64 dest blBuffer

/-- The innermost body of every loop: read the block and append it to the result. -/
def readData (b : UInt32) (st : Buffers) : Option Buffers := do
  let buf ← readBlock disk hd blBuffer (blockOffset hd b) st.buf
  return { st with buf := buf, file := st.file.append hd.blocksize.toNat buf }

/-- Read a block of pointers into `t` and go over its pointers. -/
def scanTable (t : Table) (offset : UInt64) (body : UInt32 → Buffers → Option Buffers) (st : Buffers) :
    Option Buffers := do
  let p ← readBlock disk hd blBuffer offset (st.tables t)
  forNonzeroM (fun i => some (pointer p i)) body (perBlock hd) 0
    { st with tables := Function.update st.tables t p }

end Read

/-- The loops of `ext2ReadFile`. -/
def readLoops (disk : Drives) (hd : Ext2Disk) (inode : Inode) (fresh : Fresh) : Option Buffers := do
  let readData := readData disk hd fresh.blBuffer
  let scanTable := scanTable disk hd fresh.blBuffer
  let st : Buffers := ⟨fresh.buf, fresh.tables, ⟨fresh.mmap, 0, inode.iSize.toNat⟩⟩
  -- direct block number
  let st ← forNonzeroM (fun i => some (inode.block i)) readData 12 0 st
  -- indirect block number
  let st ← (if inode.block 12 ≠ 0 then scanTable .p (blockOffset64 hd (inode.block 12)) readData st
    else some st)
  -- bi-indirect block number
  let st ← (if inode.block 13 ≠ 0 then
      scanTable .p (blockOffset hd (inode.block 13)) (fun b =>
        scanTable .pp (blockOffset hd b) readData) st
    else some st)
  -- tri-indirect block number
  if inode.block 14 ≠ 0 then
    scanTable .p (blockOffset hd (inode.block 14)) (fun b =>
      scanTable .pp (blockOffset hd b) fun b =>
        scanTable .ppp (blockOffset hd b) readData) st
  else some st

/-- `ext2ReadFile`. -/
def ext2ReadFile (disk : Drives) (hd : Ext2Disk) (inode : Inode) (fresh : Fresh) : Option Buf :=
  (readLoops disk hd inode fresh).map fun st => st.file.mmapBase

end Ext2
