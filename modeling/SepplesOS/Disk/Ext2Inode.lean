import SepplesOS.Disk.Ext2

/-!
# Reading inodes

An inode is at the place that its number, the descriptor of its group and the superblock give.
`ext2ReadInode` reads what is at an offset computed in 32 bits, with a descriptor that may lie behind those
of the disk, through `diskRead`, which may fail: `inodeReadable_iff` says when it reads the inode.
-/

namespace Ext2

open ATA

section Spec

variable (disk : Drives) (hd : Ext2Disk)

/-- Where an inode is on the drive, by the descriptor of its group. -/
def inodePlace (group : GroupDesc) (iNum : UInt32) : ℕ :=
  hd.part.startLba.toNat * 512 + group.bgInodeTable.toNat * hd.blocksize.toNat +
    (inodeIndex hd iNum).toNat * hd.sb.sInodeSize.toNat

/-- The inode with a number, if there is a descriptor for its group. -/
def inodeAt (iNum : UInt32) : Option Inode :=
  if (grNum hd iNum).toNat < hd.groups.toNat then
    (hd.gd (grNum hd iNum).toNat).map fun group =>
      Inode.ofBuf (driveBytes disk hd.device (inodePlace hd group iNum))
  else none

/-- Reading an inode gives it: there is a descriptor for its group, all sectors are read, and they hold
what is at its place. -/
def InodeReadable (iNum : UInt32) : Prop :=
  (grNum hd iNum).toNat < hd.groups.toNat ∧ ∃ group, hd.gd (grNum hd iNum).toNat = some group ∧
    readStatus disk hd.device (inodeOffset hd group iNum) 128 = some true ∧
    Inode.ofBuf (sectorBytes disk hd.device (inodeOffset hd group iNum)) =
      Inode.ofBuf (driveBytes disk hd.device (inodePlace hd group iNum))

end Spec

/-- The drive exists and is always ready. -/
structure Ready (disk : Drives) (hd : Ext2Disk) : Prop where
  device : hd.device ≤ 1
  attempt : ∀ numblock, disk.attempt hd.device numblock false = .ready

theorem Inode.ofBuf_congr {b₁ b₂ : Buf} (h : ∀ i < 128, b₁ i = b₂ i) : Inode.ofBuf b₁ = Inode.ofBuf b₂ := by
  have h16 (off : ℕ) (hoff : off + 2 ≤ 128) : b₁.u16 off = b₂.u16 off :=
    Buf.u16_congr fun i hi => h _ (by omega)
  have h32 (off : ℕ) (hoff : off + 4 ≤ 128) : b₁.u32 off = b₂.u32 off :=
    Buf.u32_congr fun i hi => h _ (by omega)
  have hblock : (fun i : Fin 15 => b₁.u32 (40 + 4 * i)) = fun i : Fin 15 => b₂.u32 (40 + 4 * i) :=
    funext fun i => h32 _ (by omega)
  have hosd : b₁.bytes 116 12 = b₂.bytes 116 12 := Buf.bytes_congr fun i hi => h _ (by omega)
  unfold Inode.ofBuf
  rw [h16 0 (by decide), h16 2 (by decide), h32 4 (by decide), h32 8 (by decide), h32 12 (by decide),
    h32 16 (by decide), h32 20 (by decide), h16 24 (by decide), h16 26 (by decide), h32 28 (by decide),
    h32 32 (by decide), h32 36 (by decide), hblock, h32 100 (by decide), h32 104 (by decide),
    h32 108 (by decide), h32 112 (by decide), hosd]

section ReadInode

variable {disk : Drives} {hd : Ext2Disk} {iNum : UInt32} {inode : Inode}

/-- `ext2ReadInode` by its read: a failed one leaves the new inode as it was. -/
theorem ext2ReadInode_eq (groups : hd.sb.sInodesPerGroup ≠ 0) (newInode blBuffer : Buf) :
    ext2ReadInode disk hd iNum newInode blBuffer = (hd.gd (grNum hd iNum).toNat).bind fun group =>
      (readStatus disk hd.device (inodeOffset hd group iNum) 128).map fun ok =>
        some (Inode.ofBuf (if ok then sectorBytes disk hd.device (inodeOffset hd group iNum)
          else newInode)) := by
  unfold ext2ReadInode diskRead
  rw [if_neg groups]
  cases hd.gd (grNum hd iNum).toNat with
  | none => rfl
  | some group =>
    simp only [Option.bind_eq_bind, Option.bind_some, diskRead_spec (show (128 : UInt64).toNat < 2 ^ 63 by decide)]
    cases readStatus disk hd.device (inodeOffset hd group iNum) 128 with
    | none => rfl
    | some ok =>
      cases ok with
      | false => rfl
      | true =>
        refine congrArg (fun x => some (some x)) (Inode.ofBuf_congr fun i hi => ?_)
        exact (if_pos ⟨Nat.zero_le i, by rw [show (128 : UInt64).toNat = 128 from rfl]; omega⟩ :
          (if 0 ≤ i ∧ i < 0 + (128 : UInt64).toNat then _ else _) = _)

theorem inodeReadable_iff (groups : hd.sb.sInodesPerGroup ≠ 0) (blBuffer : Buf) :
    InodeReadable disk hd iNum ↔ ∃ inode, inodeAt disk hd iNum = some inode ∧
      ∀ newInode, ext2ReadInode disk hd iNum newInode blBuffer = some (some inode) := by
  unfold InodeReadable inodeAt
  by_cases hgroup : (grNum hd iNum).toNat < hd.groups.toNat
  · obtain ⟨group, hgd⟩ := Option.isSome_iff_exists.1 (hd.descriptors _ hgroup)
    simp only [hgroup, if_true, hgd, ext2ReadInode_eq groups, Option.bind_some, Option.map_some,
      Option.some.injEq, exists_eq_left', true_and]
    cases readStatus disk hd.device (inodeOffset hd group iNum) 128 with
    | none => simp
    | some ok =>
      cases ok with
      | false =>
        -- the new inode is left as it was, and that may be another one
        refine iff_of_false (fun h => absurd h.1 (by decide)) fun h => ?_
        have hzero := h fun _ => 0
        rw [← h fun _ => 1] at hzero
        have hmode : (Inode.ofBuf fun _ => 0).iMode = (Inode.ofBuf fun _ => 1).iMode := by
          simpa using congrArg (Option.map (Option.map Inode.iMode)) hzero
        exact absurd hmode (by decide)
      | true => simp
  · simp [hgroup]

theorem InodeReadable.of_ready (ready : Ready disk hd) {group : GroupDesc}
    (descriptor : hd.gd (grNum hd iNum).toNat = some group)
    (inside : (grNum hd iNum).toNat < hd.groups.toNat)
    (exact : (inodeOffset hd group iNum).toNat = inodePlace hd group iNum)
    (small : inodePlace hd group iNum + 128 ≤ 2 ^ 33) : InodeReadable disk hd iNum := by
  refine ⟨inside, group, descriptor, ?_, Inode.ofBuf_congr fun i hi => ?_⟩
  · have hcount : (128 : UInt64).toNat = 128 := rfl
    apply readStatus_ready
    · rintro (hdevice | ⟨j, hj, hlarge⟩)
      · exact absurd ready.device (not_le.2 hdevice)
      · rw [blocks_toNat (by decide) (by rw [hcount]; omega)] at hj
        unfold lastSector firstSector at hj
        rw [hcount] at hj
        have hsmall := (toInt_lt_iff ((inodeOffset hd group iNum).toNat / 512 + j)).2 (Or.inl (by omega))
        exact absurd hlarge (not_le.2 hsmall)
    · exact fun j _ => ready.attempt _
  · rw [sectorBytes_eq (by omega), exact]

end ReadInode

end Ext2
