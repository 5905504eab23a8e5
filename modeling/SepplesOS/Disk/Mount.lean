import SepplesOS.Disk.Ext2
import SepplesOS.Lib.CString

/-!
# Mounting a partition

`FilesystemEXT2::mount` with the functions it calls (`kernel/disk/ext2.cpp`, `kernel/disk/disk.cpp`)
and `VFS::mount` (`kernel/disk/vfs.cpp`).  A sector may be unreadable at the first attempt and at the
second one.  The heap is the set of its live blocks, and a pointer the number of its block; what a
block holds travels beside the pointer.

`fatalError` halts the machine, and so does an access to memory that is not mapped: the functions return
`none`.  Memory does not run out.
-/

namespace Ext2

open ATA

/-! ## What the superblock says -/

/-- The packed struct in a buffer. -/
def SuperBlock.ofBuf (buf : Buf) : SuperBlock where
  sInodesCount := buf.u32 0
  sBlocksCount := buf.u32 4
  sLogBlockSize := buf.u32 24
  sBlocksPerGroup := buf.u32 32
  sInodesPerGroup := buf.u32 40
  sMagic := buf.u16 56
  sInodeSize := buf.u16 88
  sFeatureIncompat := buf.u32 96

/-- `(1024 << sLogBlockSize)`. -/
def SuperBlock.blocksize (sb : SuperBlock) : UInt32 := 1024 <<< sb.sLogBlockSize

/-- The number of groups, from the blocks or from the inodes, whichever is larger as an `int`. -/
def SuperBlock.groups (sb : SuperBlock) : UInt16 :=
  let i := sb.sBlocksCount / sb.sBlocksPerGroup +
    if sb.sBlocksCount % sb.sBlocksPerGroup ≠ 0 then 1 else 0
  let j := sb.sInodesCount / sb.sInodesPerGroup +
    if sb.sInodesCount % sb.sInodesPerGroup ≠ 0 then 1 else 0
  if toInt i.toNat > toInt j.toNat then i.toUInt16 else j.toUInt16

/-- The incompatible features that are refused, in the order of the tests. -/
def refusedFeatures : List UInt32 :=
  [0x1, 0x4, 0x8, 0x10, 0x40, 0x80, 0x100, 0x200, 0x400, 0x1000, 0x2000, 0x4000, 0x8000]

end Ext2

namespace Mount

open ATA Ext2

/-! ## The heap and the VFS root -/

/-- The blocks of the heap, the number of the next one, and the children of the VFS root with the
block of their array. -/
structure Kernel where
  live : Finset ℕ
  next : ℕ
  childs : List ℕ
  elems : Option ℕ

/-- `new`; a size of zero gives a null pointer. -/
def new (k : Kernel) (size : ℕ) : Option ℕ × Kernel :=
  if size = 0 then (none, k) else (some k.next, { k with live := insert k.next k.live, next := k.next + 1 })

/-- `delete`. -/
def delete (k : Kernel) (p : Option ℕ) : Kernel :=
  match p with
  | none => k
  | some id => { k with live := k.live.erase id }

/-- `diskRead` into a block that holds `dest`; the buffer for the sectors, which holds `fresh` at first, is
deleted when all of them are read. -/
def diskRead (d : Drives) (drive : ℕ) (offset count : UInt64) (dest fresh : Buf) (k : Kernel) :
    Option (Buf × Kernel) :=
  let (p, k) := new k (blocks offset count * 512).toNat
  match readLoop d drive (offset / 512) (blocks offset count).toNat 0 fresh with
  | none => none
  | some (false, _) => some (dest, k)
  | some (true, blBuffer) =>
    some (dest.memcpy 0 (fun i => blBuffer ((offset % 512).toNat + i)) count.toNat, delete k p)

/-! ## ext2 -/

/-- The sizes of `ext2SuperBlock`, `ext2GroupDesc`, `Ext2Disk` and `NodeEXT2`. -/
def sizeofSuperBlock : ℕ := 1024
def sizeofGroupDesc : ℕ := 32
def sizeofExt2Disk : ℕ := 56
def sizeofNode : ℕ := 72

/-- What new memory holds: that of the superblock, of the group descriptors, of the inode and of the buffer
of `diskRead`, and which descriptors would be in mapped memory. -/
structure Fresh where
  sb : Buf
  gd : Buf
  inode : Buf
  blBuffer : Buf
  mapped : ℕ → Bool

/-- `Ext2Disk`, and the blocks that its pointers `sb` and `gd` are. -/
structure HeapDisk where
  disk : Ext2Disk
  sb : Option ℕ
  gd : Option ℕ

/-- `Ext2Disk` by the superblock and the bytes behind `gd`. -/
def newDisk (device : ℕ) (part : Partition) (sb : SuperBlock) (gd : Buf) (mapped : ℕ → Bool) : Ext2Disk where
  device := device
  part := part
  sb := sb
  blocksize := sb.blocksize
  groups := sb.groups
  gd i := if i < sb.groups.toNat ∨ mapped i then some ⟨gd.u32 (sizeofGroupDesc * i + 8)⟩ else none
  descriptors i hi := by
    rw [if_pos (Or.inl hi)]
    rfl

theorem newDisk_sb (device : ℕ) (part : Partition) (sb : SuperBlock) (gd : Buf) (mapped : ℕ → Bool) :
    (newDisk device part sb gd mapped).sb = sb := by
  simp only [newDisk]

theorem newDisk_groups (device : ℕ) (part : Partition) (sb : SuperBlock) (gd : Buf) (mapped : ℕ → Bool) :
    (newDisk device part sb gd mapped).groups = sb.groups := by
  simp only [newDisk]

/-- `ext2ReadSb`. -/
def ext2ReadSb (d : Drives) (fresh : Fresh) (device : ℕ) (sPart : UInt64) (k : Kernel) :
    Option ((Option ℕ × SuperBlock) × Kernel) := do
  let (sb, k) := new k sizeofSuperBlock
  let (buf, k) ← diskRead d device (sPart + 1024) 1024 fresh.sb fresh.blBuffer k
  return ((sb, SuperBlock.ofBuf buf), k)

/-- Where the group descriptors are, from the start of the partition. -/
def gdOffset (blocksize : UInt32) : UInt64 := if blocksize = 1024 then 2048 else blocksize.toUInt64

/-- `ext2ReadGd`. -/
def ext2ReadGd (d : Drives) (fresh : Fresh) (device : ℕ) (blocksize : UInt32) (groups : UInt16)
    (sPart : UInt64) (k : Kernel) : Option ((Option ℕ × Buf) × Kernel) := do
  let (gd, k) := new k (groups.toNat * sizeofGroupDesc)
  let (buf, k) ← diskRead d device (sPart + gdOffset blocksize) (groups.toUInt64 * 32) fresh.gd
    fresh.blBuffer k
  return ((gd, buf), k)

/-- `ext2GetDiskInfo`. -/
def ext2GetDiskInfo (d : Drives) (fresh : Fresh) (device : ℕ) (part : Partition) (k : Kernel) :
    Option (Option (Option ℕ × HeapDisk) × Kernel) := do
  let (hd, k) := new k sizeofExt2Disk
  let ((p, sb), k) ← ext2ReadSb d fresh device (part.startLba * 512) k
  if sb.sMagic ≠ 0xef53 then return (none, k)
  else if sb.sBlocksPerGroup = 0 ∨ sb.sInodesPerGroup = 0 then return (none, k)
  else
    let ((p', gd), k) ← ext2ReadGd d fresh device sb.blocksize sb.groups (part.startLba * 512) k
    if refusedFeatures.any fun mask => sb.sFeatureIncompat &&& mask ≠ 0 then return (none, k)
    else return (some (hd, ⟨newDisk device part sb gd fresh.mapped, p, p'⟩), k)

/-- `EXT2_ROOT_INUM`. -/
def EXT2_ROOT_INUM : UInt32 := 2

/-- `ext2ReadInode`: the block of the inode and what it holds. -/
def ext2ReadInode (d : Drives) (fresh : Fresh) (hd : Ext2Disk) (iNum : UInt32) (k : Kernel) :
    Option (Option (Option ℕ × Buf) × Kernel) := do
  let (inode, k) := new k sizeofInode
  if hd.sb.sInodesPerGroup = 0 then return (none, k)
  else
    let group ← hd.gd (grNum hd iNum).toNat
    let (buf, k) ← diskRead d hd.device (inodeOffset hd group iNum) 128 fresh.inode fresh.blBuffer k
    return (some (inode, buf), k)

/-- `new NodeEXT2(…)`: the node, its name, and its own copies of the disk and of the inode. -/
def newNode (hd : HeapDisk) (name : CString) (k : Kernel) : Option ℕ × Kernel :=
  let (node, k) := new k sizeofNode
  let (_, k) := new k (name.bytes.length + 1)
  let (_, k) := new k sizeofExt2Disk
  let k := if hd.sb.isSome then (new k sizeofSuperBlock).2 else k
  let k := if hd.gd.isSome then (new k (hd.disk.groups.toNat * sizeofGroupDesc)).2 else k
  let (_, k) := new k sizeofInode
  (node, k)

/-- `FilesystemEXT2::mount`. -/
def mount (d : Drives) (fresh : Fresh) (part : Partition) (destname : CString) (k : Kernel) :
    Option (Option ℕ × Kernel) := do
  let (info, k) ← ext2GetDiskInfo d fresh part.diskId.toNat part k
  match info with
  | none => return (none, k)
  | some (p, hd) =>
    let (inode, k) ← ext2ReadInode d fresh hd.disk EXT2_ROOT_INUM k
    let (node, k) := newNode hd destname k
    -- `delete hd` runs `~Ext2Disk` first
    let k := delete (delete (delete k hd.sb) hd.gd) p
    return (node, delete k (inode.bind (·.1)))

/-! ## VFS -/

/-- `root.addChild`. -/
def addChild (k : Kernel) (node : ℕ) : Kernel :=
  let (elems, k) := match k.elems with
    | none => new k 8
    | some elems => (some elems, k)
  { k with childs := k.childs ++ [node], elems := elems }

/-- The decimal digits of a number. -/
def utoa (n : ℕ) : CString := CString.ofBytes ((Nat.repr n).toList.map fun c => UInt8.ofNat c.toNat)

/-- The loop of `VFS::mount` over the registered filesystems. -/
def mountFirst (part : Partition) (destname : CString) :
    List (Partition → CString → Kernel → Option (Option ℕ × Kernel)) → Kernel →
      Option (Option ℕ × Kernel)
  | [], k => some (none, k)
  | fs :: filesystems, k => do
    let (node, k) ← fs part destname k
    match node with
    | some node => return (some node, addChild k node)
    | none => mountFirst part destname filesystems k

/-- `VFS::mount`; without a name, the node is named after the number of the root's children, of
which `lookup` makes a copy that lives until then. -/
def vfsMount (filesystems : List (Partition → CString → Kernel → Option (Option ℕ × Kernel)))
    (part : Partition) (destname : Option CString) (k : Kernel) : Option (Option ℕ × Kernel) :=
  match destname with
  | some name => mountFirst part name filesystems k
  | none =>
    let (mountpoints, k) := new k (8 * k.childs.length)
    mountFirst part (utoa k.childs.length) filesystems (delete k mountpoints)

end Mount
