import SepplesOS.Disk.Ext2Inode
import SepplesOS.Disk.Mount

/-!
# Mounts that fail

Every exit of `ext2GetDiskInfo` with a null pointer leaves the blocks of `hd` and `hd->sb` behind,
and no caller of `diskRead` looks at what it returns.  So a mount does what it should exactly on
the drives that it can mount: those where it neither meets an unreadable sector nor refuses the
superblock.
-/

namespace Mount

open ATA Ext2

/-- All blocks stay, and so do the children of the root. -/
structure Extends (k k' : Kernel) : Prop where
  next : k.next ≤ k'.next
  live : ∀ id < k.next, id ∈ k'.live ↔ id ∈ k.live
  childs : k'.childs = k.childs

section Extends

variable {k k' k'' : Kernel}

theorem Extends.refl (k : Kernel) : Extends k k := ⟨le_rfl, fun _ _ => Iff.rfl, rfl⟩

theorem Extends.trans (first : Extends k k') (second : Extends k' k'') : Extends k k'' where
  next := first.next.trans second.next
  live := fun id hid => (second.live id (hid.trans_le first.next)).trans (first.live id hid)
  childs := second.childs.trans first.childs

theorem extends_new (k : Kernel) (size : ℕ) : Extends k (new k size).2 := by
  unfold new
  split_ifs
  · exact Extends.refl k
  · refine ⟨Nat.le_succ _, fun id hid => ?_, rfl⟩
    exact Finset.mem_insert.trans (or_iff_right hid.ne)

theorem Extends.delete (extends' : Extends k k') {p : Option ℕ} (newer : ∀ id ∈ p, k.next ≤ id) :
    Extends k (Mount.delete k' p) := by
  cases p with
  | none => exact extends'
  | some id =>
    have hid := newer id rfl
    refine ⟨extends'.next, fun id' hid' => ?_, extends'.childs⟩
    have hne : id' ≠ id := by omega
    exact (Finset.mem_erase.trans (and_iff_right hne)).trans (extends'.live id' hid')

theorem new_le (k : Kernel) (size : ℕ) : ∀ id ∈ (new k size).1, k.next ≤ id := by
  intro id hid
  unfold new at hid
  split_ifs at hid
  · cases hid
  · cases hid
    exact le_rfl

end Extends

/-! ## Reading -/

section Read

/-- What `diskRead` leaves at its destination is what `ATA.diskRead` does. -/
theorem diskRead_fst (d : Drives) (drive : ℕ) (offset count : UInt64) (dest fresh : Buf) (k : Kernel) :
    (diskRead d drive offset count dest fresh k).map Prod.fst =
      (ATA.diskRead d drive offset count dest fresh).map Prod.snd := by
  unfold diskRead ATA.diskRead
  dsimp only
  rcases readLoop d drive (offset / 512) (blocks offset count).toNat 0 fresh with _ | ⟨_ | _, blBuffer⟩
  · rfl
  · rfl
  · rfl

theorem diskRead_extends {d : Drives} {drive : ℕ} {offset count : UInt64} {dest fresh buf : Buf}
    {k k' : Kernel} (returns : diskRead d drive offset count dest fresh k = some (buf, k')) :
    Extends k k' := by
  have hnew := extends_new k (blocks offset count * 512).toNat
  unfold diskRead at returns
  dsimp only at returns
  generalize readLoop d drive (offset / 512) (blocks offset count).toNat 0 fresh = loop at returns
  rcases loop with _ | ⟨_ | _, blBuffer⟩
  · cases returns
  · cases returns
    exact hnew
  · cases returns
    exact hnew.delete (new_le k _)

theorem diskRead_spec (d : Drives) (drive : ℕ) (offset : UInt64) {count : UInt64}
    (count_lt : count.toNat < 2 ^ 63) (dest fresh : Buf) (k : Kernel) :
    match readStatus d drive offset count with
    | none => diskRead d drive offset count dest fresh k = none
    | some ok => ∃ k', Extends k k' ∧ diskRead d drive offset count dest fresh k =
        some (if ok then dest.memcpy 0 (sectorBytes d drive offset) count.toNat else dest, k') := by
  have hread := diskRead_fst d drive offset count dest fresh k
  rw [ATA.diskRead_spec count_lt] at hread
  cases hstatus : readStatus d drive offset count with
  | none =>
    rw [hstatus] at hread
    exact Option.map_eq_none_iff.1 hread
  | some ok =>
    rw [hstatus] at hread
    obtain ⟨⟨buf, k'⟩, hreturns, hbuf⟩ := Option.map_eq_some_iff.1 hread
    refine ⟨k', diskRead_extends hreturns, ?_⟩
    rw [hreturns, show buf = _ from hbuf]
    cases ok with
    | false => rfl
    | true => rfl

theorem ext2ReadSb_spec (d : Drives) (fresh : Fresh) (device : ℕ) (sPart : UInt64) (k : Kernel) :
    match readStatus d device (sPart + 1024) 1024 with
    | none => ext2ReadSb d fresh device sPart k = none
    | some ok => ∃ p k', Extends k k' ∧ ext2ReadSb d fresh device sPart k =
        some ((p, SuperBlock.ofBuf (if ok then
          fresh.sb.memcpy 0 (sectorBytes d device (sPart + 1024)) 1024 else fresh.sb)), k') := by
  have hread := diskRead_spec d device (sPart + 1024) (show (1024 : UInt64).toNat < 2 ^ 63 by decide)
    fresh.sb fresh.blBuffer (new k sizeofSuperBlock).2
  unfold ext2ReadSb
  cases hstatus : readStatus d device (sPart + 1024) 1024 with
  | none =>
    rw [hstatus] at hread
    simp only [hread, Option.bind_eq_bind, Option.bind_none]
  | some ok =>
    rw [hstatus] at hread
    obtain ⟨k', hextends, heq⟩ := hread
    refine ⟨(new k sizeofSuperBlock).1, k', (extends_new k _).trans hextends, ?_⟩
    simp only [heq, Option.bind_eq_bind, Option.bind_some]
    rfl

theorem ext2ReadGd_spec (d : Drives) (fresh : Fresh) (device : ℕ) (blocksize : UInt32)
    (groups : UInt16) (sPart : UInt64) (k : Kernel) :
    match readStatus d device (sPart + gdOffset blocksize) (groups.toUInt64 * 32) with
    | none => ext2ReadGd d fresh device blocksize groups sPart k = none
    | some ok => ∃ p k', Extends k k' ∧ ext2ReadGd d fresh device blocksize groups sPart k =
        some ((p, if ok then fresh.gd.memcpy 0 (sectorBytes d device (sPart + gdOffset blocksize))
          (groups.toUInt64 * 32).toNat else fresh.gd), k') := by
  have hcount : (groups.toUInt64 * 32).toNat < 2 ^ 63 := by
    have hgroups := groups.toNat_lt
    rw [UInt64.toNat_mul, UInt16.toNat_toUInt64, show (32 : UInt64).toNat = 32 from rfl]
    omega
  have hread := diskRead_spec d device (sPart + gdOffset blocksize) hcount fresh.gd fresh.blBuffer
    (new k (groups.toNat * sizeofGroupDesc)).2
  unfold ext2ReadGd
  cases hstatus : readStatus d device (sPart + gdOffset blocksize) (groups.toUInt64 * 32) with
  | none =>
    rw [hstatus] at hread
    simp only [hread, Option.bind_eq_bind, Option.bind_none]
  | some ok =>
    rw [hstatus] at hread
    obtain ⟨k', hextends, heq⟩ := hread
    refine ⟨(new k (groups.toNat * sizeofGroupDesc)).1, k', (extends_new k _).trans hextends, ?_⟩
    simp only [heq, Option.bind_eq_bind, Option.bind_some]
    rfl

/-- The inode that is read is what `Ext2.ext2ReadInode` returns. -/
theorem ext2ReadInode_fst (d : Drives) (fresh : Fresh) (hd : Ext2Disk) (iNum : UInt32) (k : Kernel) :
    (ext2ReadInode d fresh hd iNum k).map (fun r => r.1.map fun x => Inode.ofBuf x.2) =
      Ext2.ext2ReadInode d hd iNum fresh.inode fresh.blBuffer := by
  unfold ext2ReadInode Ext2.ext2ReadInode Ext2.diskRead
  dsimp only
  split_ifs
  · rfl
  · cases hd.gd (grNum hd iNum).toNat with
    | none => rfl
    | some group =>
      have hread := diskRead_fst d hd.device (inodeOffset hd group iNum) 128 fresh.inode fresh.blBuffer
        (new k sizeofInode).2
      simp only [Option.bind_eq_bind, Option.bind_some, ← hread]
      cases diskRead d hd.device (inodeOffset hd group iNum) 128 fresh.inode fresh.blBuffer
        (new k sizeofInode).2 with
      | none => rfl
      | some result => rfl

/-- Whether the inode of a number can be read, or the machine stops. -/
def inodeReadStatus (d : Drives) (hd : Ext2Disk) (iNum : UInt32) : Option Bool :=
  (hd.gd (grNum hd iNum).toNat).bind fun group =>
    readStatus d hd.device (inodeOffset hd group iNum) 128

theorem ext2ReadInode_some {d : Drives} {hd : Ext2Disk} {iNum : UInt32} {ok : Bool} (fresh : Fresh)
    (k : Kernel) (inodes : hd.sb.sInodesPerGroup ≠ 0) (status : inodeReadStatus d hd iNum = some ok) :
    ∃ inode k', ext2ReadInode d fresh hd iNum k = some (some inode, k') := by
  obtain ⟨group, hgroup, hstatus⟩ := Option.bind_eq_some_iff.1 status
  have hread := ext2ReadInode_fst d fresh hd iNum k
  rw [ext2ReadInode_eq inodes, hgroup, Option.bind_some, hstatus, Option.map_some] at hread
  obtain ⟨⟨inode, k'⟩, hreturns, hinode⟩ := Option.map_eq_some_iff.1 hread
  obtain ⟨x, rfl, -⟩ := Option.map_eq_some_iff.1 hinode
  exact ⟨x, k', hreturns⟩

end Read

end Mount

namespace Ext2

/-- The superblock is one of ext2, with blocks and inodes. -/
def SuperBlock.Checked (sb : SuperBlock) : Prop :=
  sb.sMagic = 0xef53 ∧ sb.sBlocksPerGroup ≠ 0 ∧ sb.sInodesPerGroup ≠ 0

/-- The superblock asks for no feature that is refused. -/
def SuperBlock.Supported (sb : SuperBlock) : Prop :=
  ∀ mask ∈ refusedFeatures, sb.sFeatureIncompat &&& mask = 0

end Ext2

namespace Mount

open ATA Ext2

/-! ## What the drive says -/

section Drive

variable (d : Drives) (fresh : Fresh) (part : Partition)

/-- Whether the superblock can be read, and what it is. -/
def sbStatus : Option Bool := readStatus d part.diskId.toNat (part.startLba * 512 + 1024) 1024
def diskSb : SuperBlock :=
  SuperBlock.ofBuf (sectorBytes d part.diskId.toNat (part.startLba * 512 + 1024))

/-- Whether the group descriptors can be read, and what `gd` points at then. -/
def gdStatus : Option Bool :=
  readStatus d part.diskId.toNat (part.startLba * 512 + gdOffset (diskSb d part).blocksize)
    ((diskSb d part).groups.toUInt64 * 32)
def diskGd : Buf :=
  fresh.gd.memcpy 0 (sectorBytes d part.diskId.toNat
    (part.startLba * 512 + gdOffset (diskSb d part).blocksize))
    ((diskSb d part).groups.toUInt64 * 32).toNat

/-- The disk that `ext2GetDiskInfo` makes of the drive when it can read these. -/
def diskInfo : Ext2Disk :=
  newDisk part.diskId.toNat part (diskSb d part) (diskGd d fresh part) fresh.mapped

/-- Whether the inode of the root can be read. -/
def inodeStatus : Option Bool := inodeReadStatus d (diskInfo d fresh part) EXT2_ROOT_INUM

/-- A sector that the mount needs cannot be read. -/
def NeedsUnreadable : Prop :=
  sbStatus d part = some false ∨
    sbStatus d part = some true ∧ (diskSb d part).Checked ∧
      (gdStatus d part = some false ∨
        gdStatus d part = some true ∧ (diskSb d part).Supported ∧
          inodeStatus d fresh part = some false)

/-- The superblock can be read, and its contents are refused. -/
def Refused : Prop :=
  sbStatus d part = some true ∧
    (¬(diskSb d part).Checked ∨ gdStatus d part = some true ∧ ¬(diskSb d part).Supported)

end Drive

/-! ## The path through the mount -/

section Path

variable {d : Drives} {fresh : Fresh} {part : Partition} {destname : CString} {k k' : Kernel}

theorem mem_live_new {size : ℕ} (pos : size ≠ 0) (extends' : Extends (new k size).2 k') :
    k.next ∈ k'.live := by
  unfold new at extends'
  rw [if_neg pos] at extends'
  exact (extends'.live k.next (Nat.lt_succ_self _)).2 (Finset.mem_insert_self _ _)

/-- Every null pointer that `ext2GetDiskInfo` returns leaves the block of `hd` behind. -/
theorem ext2GetDiskInfo_leaks {device : ℕ}
    (failed : ext2GetDiskInfo d fresh device part k = some (none, k')) :
    k.next ∈ k'.live ∧ Extends k k' := by
  have hsb := ext2ReadSb_spec d fresh device (part.startLba * 512) (new k sizeofExt2Disk).2
  have hkept {k'' : Kernel} (extends' : Extends (new k sizeofExt2Disk).2 k'') :
      k.next ∈ k''.live ∧ Extends k k'' :=
    ⟨mem_live_new (by decide) extends', (extends_new k _).trans extends'⟩
  unfold ext2GetDiskInfo at failed
  cases hstatus : readStatus d device (part.startLba * 512 + 1024) 1024 with
  | none =>
    rw [hstatus] at hsb
    simp only [hsb, Option.bind_eq_bind, Option.bind_none] at failed
    cases failed
  | some ok =>
    rw [hstatus] at hsb
    obtain ⟨p, k₁, hextends, heq⟩ := hsb
    simp only [heq, Option.bind_eq_bind, Option.bind_some] at failed
    generalize SuperBlock.ofBuf (if ok then
      fresh.sb.memcpy 0 (sectorBytes d device (part.startLba * 512 + 1024)) 1024
      else fresh.sb) = sb at failed
    by_cases hmagic : sb.sMagic ≠ 0xef53
    · rw [if_pos hmagic] at failed
      cases failed
      exact hkept hextends
    rw [if_neg hmagic] at failed
    by_cases hzero : sb.sBlocksPerGroup = 0 ∨ sb.sInodesPerGroup = 0
    · rw [if_pos hzero] at failed
      cases failed
      exact hkept hextends
    rw [if_neg hzero] at failed
    have hgd := ext2ReadGd_spec d fresh device sb.blocksize sb.groups (part.startLba * 512) k₁
    cases hstatus : readStatus d device (part.startLba * 512 + gdOffset sb.blocksize)
        (sb.groups.toUInt64 * 32) with
    | none =>
      rw [hstatus] at hgd
      simp only [hgd, Option.bind_none] at failed
      cases failed
    | some ok =>
      rw [hstatus] at hgd
      obtain ⟨p', k₂, hextends', heq'⟩ := hgd
      simp only [heq', Option.bind_some] at failed
      cases hrefused : refusedFeatures.any fun mask => sb.sFeatureIncompat &&& mask ≠ 0 with
      | true =>
        rw [if_pos hrefused] at failed
        cases failed
        exact hkept (hextends.trans hextends')
      | false =>
        rw [if_neg (Bool.eq_false_iff.1 hrefused)] at failed
        cases failed

theorem mount_null (failed : mount d fresh part destname k = some (none, k')) :
    ext2GetDiskInfo d fresh part.diskId.toNat part k = some (none, k') := by
  unfold mount at failed
  rcases hinfo : ext2GetDiskInfo d fresh part.diskId.toNat part k with _ | ⟨info, k₁⟩
  · rw [hinfo] at failed
    cases failed
  · rw [hinfo] at failed
    cases info with
    | none =>
      simp only [Option.bind_eq_bind, Option.bind_some, Option.pure_def] at failed
      rw [(Prod.mk.inj (Option.some.inj failed)).2]
    | some info =>
      obtain ⟨p, hd⟩ := info
      simp only [Option.bind_eq_bind, Option.bind_some] at failed
      rcases hinode : ext2ReadInode d fresh hd.disk EXT2_ROOT_INUM k₁ with _ | ⟨inode, k₂⟩
      · rw [hinode] at failed
        cases failed
      · rw [hinode] at failed
        have hnode := congrArg Prod.fst (Option.some.inj failed)
        cases hnode

theorem ofBuf_memcpy (dest src : Buf) :
    SuperBlock.ofBuf (dest.memcpy 0 src 1024) = SuperBlock.ofBuf src := by
  have hbyte : ∀ i < 1024, dest.memcpy 0 src 1024 i = src i := by
    intro i hi
    unfold Buf.memcpy
    rw [if_pos (by omega), Nat.sub_zero]
  have h32 (off : ℕ) (hoff : off + 4 ≤ 1024) : (dest.memcpy 0 src 1024).u32 off = src.u32 off :=
    Buf.u32_congr fun i hi => hbyte _ (by omega)
  have h16 (off : ℕ) (hoff : off + 2 ≤ 1024) : (dest.memcpy 0 src 1024).u16 off = src.u16 off :=
    Buf.u16_congr fun i hi => hbyte _ (by omega)
  unfold SuperBlock.ofBuf
  rw [h32 0 (by decide), h32 4 (by decide), h32 24 (by decide), h32 32 (by decide),
    h32 40 (by decide), h16 56 (by decide), h16 88 (by decide), h32 96 (by decide)]

variable (fresh k) in
theorem ext2GetDiskInfo_spec (readable : sbStatus d part = some true) :
    (¬(diskSb d part).Checked →
      ∃ k', ext2GetDiskInfo d fresh part.diskId.toNat part k = some (none, k')) ∧
    ((diskSb d part).Checked →
      match gdStatus d part with
      | none => ext2GetDiskInfo d fresh part.diskId.toNat part k = none
      | some ok =>
        (¬(diskSb d part).Supported →
          ∃ k', ext2GetDiskInfo d fresh part.diskId.toNat part k = some (none, k')) ∧
        ((diskSb d part).Supported → ∃ p sb gd k',
          ext2GetDiskInfo d fresh part.diskId.toNat part k = some (some (p,
            ⟨newDisk part.diskId.toNat part (diskSb d part)
              (if ok then diskGd d fresh part else fresh.gd) fresh.mapped, sb, gd⟩), k'))) := by
  have hsb := ext2ReadSb_spec d fresh part.diskId.toNat (part.startLba * 512)
    (new k sizeofExt2Disk).2
  rw [show readStatus d part.diskId.toNat (part.startLba * 512 + 1024) 1024 = some true from
    readable] at hsb
  obtain ⟨p, k₁, -, heq⟩ := hsb
  rw [if_pos rfl, ofBuf_memcpy, show SuperBlock.ofBuf (sectorBytes d part.diskId.toNat
    (part.startLba * 512 + 1024)) = diskSb d part from rfl] at heq
  unfold ext2GetDiskInfo
  simp only [heq, Option.bind_eq_bind, Option.bind_some]
  refine ⟨fun unchecked => ?_, fun checked => ?_⟩
  · by_cases hmagic : (diskSb d part).sMagic ≠ 0xef53
    · exact ⟨k₁, by rw [if_pos hmagic]; rfl⟩
    · have hzero : (diskSb d part).sBlocksPerGroup = 0 ∨ (diskSb d part).sInodesPerGroup = 0 := by
        by_contra hne
        push Not at hne
        exact unchecked ⟨not_not.1 hmagic, hne.1, hne.2⟩
      exact ⟨k₁, by rw [if_neg hmagic, if_pos hzero]; rfl⟩
  · have hzero : ¬((diskSb d part).sBlocksPerGroup = 0 ∨ (diskSb d part).sInodesPerGroup = 0) := by
      rintro (hblocks | hinodes)
      · exact checked.2.1 hblocks
      · exact checked.2.2 hinodes
    rw [if_neg (not_not.2 checked.1), if_neg hzero]
    have hgd := ext2ReadGd_spec d fresh part.diskId.toNat (diskSb d part).blocksize
      (diskSb d part).groups (part.startLba * 512) k₁
    rw [show readStatus d part.diskId.toNat (part.startLba * 512 +
      gdOffset (diskSb d part).blocksize) ((diskSb d part).groups.toUInt64 * 32) =
        gdStatus d part from rfl] at hgd
    cases hstatus : gdStatus d part with
    | none =>
      rw [hstatus] at hgd
      simp only [hgd, Option.bind_none]
    | some ok =>
      rw [hstatus] at hgd
      obtain ⟨p', k₂, -, heq'⟩ := hgd
      simp only [heq', Option.bind_some]
      have hany : (refusedFeatures.any fun mask => (diskSb d part).sFeatureIncompat &&& mask ≠ 0) =
          true ↔ ¬(diskSb d part).Supported := by
        unfold SuperBlock.Supported
        rw [List.any_eq_true]
        push Not
        simp only [decide_eq_true_eq]
      refine ⟨fun unsupported => ⟨k₂, ?_⟩, fun supported =>
        ⟨(new k sizeofExt2Disk).1, p, p', k₂, ?_⟩⟩
      · rw [if_pos (hany.2 unsupported)]
        rfl
      · rw [if_neg fun hrefused => hany.1 hrefused supported]
        rfl

variable (fresh destname k) in
theorem mount_refused (refused : Refused d part) :
    ∃ k', mount d fresh part destname k = some (none, k') := by
  obtain ⟨hstatus, hwhy⟩ := refused
  obtain ⟨hunchecked, hchecked⟩ := ext2GetDiskInfo_spec fresh k hstatus
  have hnull : ∃ k', ext2GetDiskInfo d fresh part.diskId.toNat part k = some (none, k') := by
    by_cases checked : (diskSb d part).Checked
    · obtain hwhy | ⟨hgd, hunsupported⟩ := hwhy
      · exact absurd checked hwhy
      · have hspec := hchecked checked
        rw [hgd] at hspec
        exact hspec.1 hunsupported
    · exact hunchecked checked
  obtain ⟨k', heq⟩ := hnull
  refine ⟨k', ?_⟩
  unfold mount
  simp only [heq, Option.bind_eq_bind, Option.bind_some]
  rfl

theorem mount_not_null (readable : ¬NeedsUnreadable d fresh part) (accepted : ¬Refused d part) :
    mount d fresh part destname k ≠ some (none, k') := by
  intro failed
  have hinfo := mount_null failed
  have hsb := ext2ReadSb_spec d fresh part.diskId.toNat (part.startLba * 512)
    (new k sizeofExt2Disk).2
  cases hstatus : sbStatus d part with
  | none =>
    rw [show readStatus d part.diskId.toNat (part.startLba * 512 + 1024) 1024 = none from
      hstatus] at hsb
    unfold ext2GetDiskInfo at hinfo
    simp only [hsb, Option.bind_eq_bind, Option.bind_none] at hinfo
    cases hinfo
  | some ok =>
    cases ok with
    | false => exact readable (Or.inl hstatus)
    | true =>
      obtain ⟨-, hspec⟩ := ext2GetDiskInfo_spec fresh k hstatus
      by_cases hchecked : (diskSb d part).Checked
      · have hspec := hspec hchecked
        cases hgd : gdStatus d part with
        | none =>
          rw [hgd] at hspec
          rw [hspec] at hinfo
          cases hinfo
        | some ok =>
          rw [hgd] at hspec
          cases ok with
          | false => exact readable (Or.inr ⟨hstatus, hchecked, Or.inl hgd⟩)
          | true =>
            by_cases hsupported : (diskSb d part).Supported
            · obtain ⟨p, sb, gd, k₁, heq⟩ := hspec.2 hsupported
              rw [heq] at hinfo
              cases hinfo
            · exact accepted ⟨hstatus, Or.inr ⟨hgd, hsupported⟩⟩
      · exact accepted ⟨hstatus, Or.inl hchecked⟩

theorem newNode_fst (hd : HeapDisk) (name : CString) (k : Kernel) :
    (newNode hd name k).1 = some k.next := by
  have hsize : sizeofNode ≠ 0 := by decide
  unfold newNode
  dsimp only
  unfold new
  rw [if_neg hsize]

theorem mount_some {p : Option ℕ} {hd : HeapDisk} {k₁ : Kernel} {ok : Bool}
    (info : ext2GetDiskInfo d fresh part.diskId.toNat part k = some (some (p, hd), k₁))
    (inodes : hd.disk.sb.sInodesPerGroup ≠ 0)
    (status : inodeReadStatus d hd.disk EXT2_ROOT_INUM = some ok) :
    ∃ node k', mount d fresh part destname k = some (some node, k') := by
  obtain ⟨inode, k₂, hinode⟩ := ext2ReadInode_some fresh k₁ inodes status
  have hnode := newNode_fst hd destname k₂
  unfold mount
  simp only [info, hinode, Option.bind_eq_bind, Option.bind_some, Option.pure_def]
  exact ⟨k₂.next, _, by rw [hnode]⟩

/-- A root inode that cannot be read does not make the mount fail. -/
theorem mount_unreadable_inode (superblock : sbStatus d part = some true)
    (checked : (diskSb d part).Checked) (descriptors : gdStatus d part = some true)
    (supported : (diskSb d part).Supported) (unreadable : inodeStatus d fresh part = some false) :
    ∃ node k', mount d fresh part destname k = some (some node, k') := by
  have hspec := (ext2GetDiskInfo_spec fresh k superblock).2 checked
  rw [descriptors] at hspec
  obtain ⟨p, sb, gd, k₁, heq⟩ := hspec.2 supported
  rw [if_pos rfl] at heq
  exact mount_some heq checked.2.2 unreadable

end Path

/-! ## The whole mount -/

/-- A failed mount leaves the heap and the root as they were, for `VFS::mount` too, and a mount that
meets an unreadable sector fails. -/
structure CleanMount (d : Drives) (fresh : Fresh) (part : Partition) (destname : CString)
    (k : Kernel) : Prop where
  failed : ∀ k', mount d fresh part destname k = some (none, k') →
    k'.live = k.live ∧ k'.childs = k.childs
  root : ∀ name k', vfsMount [mount d fresh] part name k = some (none, k') → k'.childs = k.childs
  unreadable : NeedsUnreadable d fresh part → ∃ k', mount d fresh part destname k = some (none, k')

theorem not_live_of_failed {d : Drives} {fresh : Fresh} {part : Partition} {destname : CString}
    {k k' : Kernel} (used : ∀ id ∈ k.live, id < k.next)
    (failed : mount d fresh part destname k = some (none, k')) : k'.live ≠ k.live := by
  intro hlive
  have hleak := (ext2GetDiskInfo_leaks (mount_null failed)).1
  rw [hlive] at hleak
  exact absurd (used _ hleak) (lt_irrefl _)

/-- `VFS::mount` adds to the root only what a filesystem has mounted. -/
theorem vfsMount_null {d : Drives} {fresh : Fresh} {part : Partition} {name : Option CString}
    {k k' : Kernel} (failed : vfsMount [mount d fresh] part name k = some (none, k')) :
    ∃ destname k₀, mount d fresh part destname k₀ = some (none, k') ∧ k₀.childs = k.childs := by
  have hfirst (destname : CString) (k₀ : Kernel) (hchilds : k₀.childs = k.childs)
      (failed : mountFirst part destname [mount d fresh] k₀ = some (none, k')) :
      ∃ destname k₀, mount d fresh part destname k₀ = some (none, k') ∧ k₀.childs = k.childs := by
    refine ⟨destname, k₀, ?_, hchilds⟩
    unfold mountFirst at failed
    rcases hmount : mount d fresh part destname k₀ with _ | ⟨node, k₁⟩
    · simp only [hmount, Option.bind_eq_bind, Option.bind_none] at failed
      cases failed
    · simp only [hmount, Option.bind_eq_bind, Option.bind_some] at failed
      cases node with
      | none => simpa only [mountFirst] using failed
      | some node => cases congrArg Prod.fst (Option.some.inj failed)
  cases name with
  | some name => exact hfirst name k rfl failed
  | none =>
    have hnew := extends_new k (8 * k.childs.length)
    exact hfirst _ _ (hnew.delete (new_le k _)).childs failed

theorem CleanMount.not_null {d : Drives} {fresh : Fresh} {part : Partition} {destname : CString}
    {k : Kernel} (clean : CleanMount d fresh part destname k) (used : ∀ id ∈ k.live, id < k.next)
    (k' : Kernel) : mount d fresh part destname k ≠ some (none, k') := fun failed =>
  not_live_of_failed used failed (clean.failed k' failed).1

/-- The mount does all it should exactly on the drives that it can mount: no sector that it needs is
unreadable, and it does not refuse the superblock. -/
theorem cleanMount_iff (d : Drives) (fresh : Fresh) (part : Partition) (destname : CString)
    (k : Kernel) (used : ∀ id ∈ k.live, id < k.next) :
    CleanMount d fresh part destname k ↔ ¬NeedsUnreadable d fresh part ∧ ¬Refused d part := by
  constructor
  · intro clean
    refine ⟨fun hneeds => ?_, fun hrefused => ?_⟩
    · obtain ⟨k', failed⟩ := clean.unreadable hneeds
      exact clean.not_null used k' failed
    · obtain ⟨k', failed⟩ := mount_refused fresh destname k hrefused
      exact clean.not_null used k' failed
  · rintro ⟨hreadable, haccepted⟩
    exact {
      failed := fun k' failed => absurd failed (mount_not_null hreadable haccepted)
      root := fun name k' failed => by
        obtain ⟨destname, k₀, hmount, -⟩ := vfsMount_null failed
        exact absurd hmount (mount_not_null hreadable haccepted)
      unreadable := fun hneeds => absurd hneeds hreadable }

/-- A drive that never becomes ready. -/
def silentDrive : Drives where
  sector := fun _ _ _ => 0
  attempt := fun _ _ _ => .timedOut

/-- An empty heap, and a root without children. -/
def emptyKernel : Kernel := ⟨∅, 0, [], none⟩

/-- New memory full of zeros. -/
def zeroFresh : Fresh := ⟨fun _ => 0, fun _ => 0, fun _ => 0, fun _ => 0, fun _ => false⟩

/-- A drive with a partition of one group of inodes at its start. -/
def smallDrive : Drives where
  sector _ s i :=
    match 512 * s + i with
    | 1024 => 8
    | 1029 => 32
    | 1057 => 32
    | 1064 => 8
    | 1080 => 0x53
    | 1081 => 0xef
    | 1112 => 128
    | 2056 => 5
    | _ => 0
  attempt _ _ _ := .ready

/-- A heap with a block in it. -/
def usedKernel : Kernel := ⟨{0}, 1, [], none⟩

theorem smallDrive_mounts :
    ¬NeedsUnreadable smallDrive zeroFresh ⟨0, 0⟩ ∧ ¬Refused smallDrive ⟨0, 0⟩ := by
  have hsb : sbStatus smallDrive ⟨0, 0⟩ = some true := by decide +kernel
  have hgd : gdStatus smallDrive ⟨0, 0⟩ = some true := by decide +kernel
  have hinode : inodeStatus smallDrive zeroFresh ⟨0, 0⟩ = some true := by decide +kernel
  have hchecked : (diskSb smallDrive ⟨0, 0⟩).Checked :=
    ⟨by decide +kernel, by decide +kernel, by decide +kernel⟩
  have hsupported : (diskSb smallDrive ⟨0, 0⟩).Supported := by
    have hfeatures : (diskSb smallDrive ⟨0, 0⟩).sFeatureIncompat = 0 := by decide +kernel
    intro mask _
    rw [hfeatures]
    exact UInt32.zero_and
  unfold NeedsUnreadable Refused
  rw [hsb, hgd, hinode]
  simp [hchecked, hsupported]

/-- The equivalence for a drive that never becomes ready, and for one that is mounted. -/
theorem cleanMount_iff_silent :
    (CleanMount silentDrive zeroFresh ⟨2048, 0⟩ (utoa 0) emptyKernel ↔
      ¬NeedsUnreadable silentDrive zeroFresh ⟨2048, 0⟩ ∧ ¬Refused silentDrive ⟨2048, 0⟩) ∧
    CleanMount smallDrive zeroFresh ⟨0, 0⟩ (utoa 0) usedKernel ∧
    ∃ node k', mount smallDrive zeroFresh ⟨0, 0⟩ (utoa 0) usedKernel = some (some node, k') := by
  refine ⟨cleanMount_iff _ _ _ _ _ fun id hid => absurd hid (Finset.notMem_empty id),
    (cleanMount_iff _ _ _ _ _ fun id hid => ?_).2 smallDrive_mounts, ?_⟩
  · rw [Finset.mem_singleton.1 hid]
    exact Nat.zero_lt_one
  · have hnode : (mount smallDrive zeroFresh ⟨0, 0⟩ (utoa 0) usedKernel).map (fun r => r.1.isSome) =
        some true := by decide +kernel
    obtain ⟨⟨node, k'⟩, hmount, hsome⟩ := Option.map_eq_some_iff.1 hnode
    obtain ⟨id, rfl⟩ := Option.isSome_iff_exists.1 hsome
    exact ⟨id, k', hmount⟩

/-- Not every mount does what it should: none does on a drive that never becomes ready. -/
theorem not_cleanMount_silent :
    ¬∀ (d : Drives) (fresh : Fresh) (part : Partition) (destname : CString) (k : Kernel),
      (∀ id ∈ k.live, id < k.next) → CleanMount d fresh part destname k := by
  intro hall
  have used : ∀ id ∈ emptyKernel.live, id < emptyKernel.next := fun id hid =>
    absurd hid (Finset.notMem_empty id)
  have hclean := hall silentDrive zeroFresh ⟨2048, 0⟩ (utoa 0) emptyKernel used
  have hsb : sbStatus silentDrive ⟨2048, 0⟩ = some false := by decide
  obtain ⟨k', failed⟩ := hclean.unreadable (Or.inl hsb)
  exact hclean.not_null used k' failed

end Mount
