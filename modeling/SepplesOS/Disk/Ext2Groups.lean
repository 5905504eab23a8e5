import SepplesOS.Disk.Mount

/-!
# The group descriptors of a disk

`ext2GetDiskInfo` counts the groups of a disk, `ext2ReadGd` reads as many descriptors, and
`ext2ReadInode` takes the descriptor of the inode's group.  The count is kept in 16 bits, and taken from
the blocks when these make more groups than the inodes do: `groupOf_lt_groups_iff` says when every inode
still has a descriptor.
-/

namespace Ext2

/-- The superblocks that `ext2GetDiskInfo` accepts. -/
structure SuperBlock.Accepted (sb : SuperBlock) : Prop where
  magic : sb.sMagic = 0xef53
  blocksPerGroup : sb.sBlocksPerGroup ≠ 0
  inodesPerGroup : sb.sInodesPerGroup ≠ 0
  features : ∀ mask ∈ refusedFeatures, sb.sFeatureIncompat &&& mask = 0

end Ext2

namespace Mount

open ATA Ext2

/-! ## Counting the groups -/

/-- `(count / perGroup) + ((count % perGroup) ? 1 : 0)`. -/
def groupsFor (count perGroup : UInt32) : UInt32 :=
  count / perGroup + if count % perGroup ≠ 0 then 1 else 0

/-- A number of things over a number for each group, rounded up. -/
def groupCount (count perGroup : UInt32) : ℕ := (count.toNat + perGroup.toNat - 1) / perGroup.toNat

section Groups

variable {sb : SuperBlock}

/-- What `ext2GetDiskInfo` returns has an accepted superblock and its number of groups, and inodes are
looked for at the descriptor of their group. -/
theorem ext2GetDiskInfo_accepted {d : Drives} {fresh : Fresh} {device : ℕ} {part : Partition}
    {k k' : Kernel} {p : Option ℕ} {hd : HeapDisk}
    (returns : ext2GetDiskInfo d fresh device part k = some (some (p, hd), k')) :
    hd.disk.sb.Accepted ∧ hd.disk.groups = hd.disk.sb.groups := by
  unfold ext2GetDiskInfo at returns
  simp only [Option.bind_eq_bind, Option.bind_eq_some_iff] at returns
  obtain ⟨⟨sb, k₁⟩, -, returns⟩ := returns
  by_cases hmagic : sb.2.sMagic = 0xef53
  · rw [if_neg (not_not.2 hmagic)] at returns
    by_cases hgroup : sb.2.sBlocksPerGroup = 0 ∨ sb.2.sInodesPerGroup = 0
    · rw [if_pos hgroup] at returns
      simp at returns
    · rw [if_neg hgroup] at returns
      simp only [Option.bind_eq_some_iff] at returns
      obtain ⟨⟨gd, k₂⟩, -, returns⟩ := returns
      generalize hany : refusedFeatures.any _ = refused at returns
      cases refused with
      | true => simp at returns
      | false =>
        simp only [Bool.false_eq_true, if_false] at returns
        simp only [Option.pure_def, Option.some.injEq, Prod.mk.injEq] at returns
        obtain ⟨⟨-, rfl⟩, -⟩ := returns
        have hfeature : ∀ mask ∈ refusedFeatures, sb.2.sFeatureIncompat &&& mask = 0 := by
          intro mask hmask
          by_contra hset
          exact List.any_eq_false.1 hany mask hmask (decide_eq_true hset)
        have haccepted : sb.2.Accepted :=
          ⟨hmagic, fun h => hgroup (Or.inl h), fun h => hgroup (Or.inr h), hfeature⟩
        rw [newDisk_sb, newDisk_groups]
        exact ⟨haccepted, rfl⟩
  · rw [if_pos hmagic] at returns
    simp at returns

theorem groupsFor_toNat {count perGroup : UInt32} (perGroup_ne : perGroup ≠ 0) :
    (groupsFor count perGroup).toNat = groupCount count perGroup := by
  have hpos : 0 < perGroup.toNat := by
    rw [Nat.pos_iff_ne_zero]
    exact fun h => perGroup_ne (UInt32.toNat_inj.1 h)
  have hcount := count.toNat_lt
  have hdiv := Nat.div_add_mod count.toNat perGroup.toNat
  have hmod := Nat.mod_lt count.toNat hpos
  unfold groupsFor groupCount
  rw [UInt32.toNat_add, UInt32.toNat_div]
  generalize hq : count.toNat / perGroup.toNat = q at *
  have hle : q ≤ perGroup.toNat * q := Nat.le_mul_of_pos_left q hpos
  symm
  by_cases hrest : count % perGroup = 0
  · have hzero : count.toNat % perGroup.toNat = 0 := by
      rw [← UInt32.toNat_mod, hrest]
      rfl
    rw [if_neg (not_not.2 hrest), UInt32.toNat_zero, Nat.add_zero, Nat.mod_eq_of_lt (by omega),
      Nat.div_eq_iff hpos, Nat.mul_comm]
    omega
  · have hnonzero : count.toNat % perGroup.toNat ≠ 0 := by
      rw [← UInt32.toNat_mod]
      exact fun h => hrest (UInt32.toNat_inj.1 h)
    rw [if_pos hrest, UInt32.toNat_one, Nat.mod_eq_of_lt (by omega), Nat.div_eq_iff hpos,
      Nat.mul_comm, Nat.mul_succ]
    omega

theorem groupOf_toNat {iNum : UInt32} (one_le : 1 ≤ iNum) :
    (sb.groupOf iNum).toNat = (iNum.toNat - 1) / sb.sInodesPerGroup.toNat := by
  rw [SuperBlock.groupOf, UInt32.toNat_div, UInt32.toNat_sub_of_le _ _ one_le, UInt32.toNat_one]

/-- All things up to a count are in the groups below a bound when the count, rounded up to groups, is at
most the bound. -/
theorem forall_div_lt_iff {count perGroup bound : ℕ} (pos : 0 < perGroup) :
    (∀ i < count, i / perGroup < bound) ↔ (count + perGroup - 1) / perGroup ≤ bound := by
  rw [← Nat.lt_succ_iff, Nat.div_lt_iff_lt_mul pos, Nat.succ_mul]
  constructor
  · intro hall
    rcases count.eq_zero_or_pos with rfl | hcount
    · omega
    · have hlast := (Nat.div_lt_iff_lt_mul pos).1 (hall (count - 1) (by omega))
      omega
  · intro hle i hi
    rw [Nat.div_lt_iff_lt_mul pos]
    omega

theorem groups_toNat (accepted : sb.Accepted) :
    sb.groups.toNat =
      (if toInt (groupCount sb.sBlocksCount sb.sBlocksPerGroup) >
          toInt (groupCount sb.sInodesCount sb.sInodesPerGroup) then
        groupCount sb.sBlocksCount sb.sBlocksPerGroup
      else groupCount sb.sInodesCount sb.sInodesPerGroup) % 2 ^ 16 := by
  have hblocks : (groupsFor sb.sBlocksCount sb.sBlocksPerGroup).toNat = _ :=
    groupsFor_toNat accepted.blocksPerGroup
  have hinodes : (groupsFor sb.sInodesCount sb.sInodesPerGroup).toNat = _ :=
    groupsFor_toNat accepted.inodesPerGroup
  rw [← hblocks, ← hinodes]
  change (if toInt (groupsFor sb.sBlocksCount sb.sBlocksPerGroup).toNat >
      toInt (groupsFor sb.sInodesCount sb.sInodesPerGroup).toNat then
    (groupsFor sb.sBlocksCount sb.sBlocksPerGroup).toUInt16
    else (groupsFor sb.sInodesCount sb.sInodesPerGroup).toUInt16).toNat = _
  split_ifs
  · exact UInt32.toNat_toUInt16 _
  · exact UInt32.toNat_toUInt16 _

end Groups

/-- Every inode has a group descriptor if and only if the inodes make fewer than 65536 groups, and the
blocks make no more groups than the inodes do, or so many that they are negative as an `int`, or a number
whose 16 low bits are enough. -/
theorem groupOf_lt_groups_iff {sb : SuperBlock} (accepted : sb.Accepted) :
    (∀ iNum : UInt32, 1 ≤ iNum → iNum ≤ sb.sInodesCount →
        (sb.groupOf iNum).toNat < sb.groups.toNat) ↔
      groupCount sb.sInodesCount sb.sInodesPerGroup < 2 ^ 16 ∧
        (groupCount sb.sBlocksCount sb.sBlocksPerGroup ≤
            groupCount sb.sInodesCount sb.sInodesPerGroup ∨
          2 ^ 31 ≤ groupCount sb.sBlocksCount sb.sBlocksPerGroup ∨
          groupCount sb.sInodesCount sb.sInodesPerGroup ≤
            groupCount sb.sBlocksCount sb.sBlocksPerGroup % 2 ^ 16) := by
  have hpos : 0 < sb.sInodesPerGroup.toNat := by
    rw [Nat.pos_iff_ne_zero]
    exact fun h => accepted.inodesPerGroup (UInt32.toNat_inj.1 h)
  have hall : (∀ iNum : UInt32, 1 ≤ iNum → iNum ≤ sb.sInodesCount →
      (sb.groupOf iNum).toNat < sb.groups.toNat) ↔
      ∀ i < sb.sInodesCount.toNat, i / sb.sInodesPerGroup.toNat < sb.groups.toNat := by
    constructor
    · intro hnum i hi
      have hcount := sb.sInodesCount.toNat_lt
      have hnat : (UInt32.ofNat (i + 1)).toNat = i + 1 := by
        rw [UInt32.toNat_ofNat', Nat.mod_eq_of_lt (by omega)]
      have hone : 1 ≤ UInt32.ofNat (i + 1) := by
        rw [UInt32.le_iff_toNat_le, hnat, UInt32.toNat_one]
        omega
      have hgroup := hnum (UInt32.ofNat (i + 1)) hone
        (by rw [UInt32.le_iff_toNat_le, hnat]; omega)
      rwa [groupOf_toNat hone, hnat, Nat.add_sub_cancel] at hgroup
    · intro hindex iNum hone hle
      rw [UInt32.le_iff_toNat_le] at hle
      rw [groupOf_toNat hone]
      rw [UInt32.le_iff_toNat_le, UInt32.toNat_one] at hone
      exact hindex _ (by omega)
  have hlt := (groupsFor sb.sBlocksCount sb.sBlocksPerGroup).toNat_lt
  rw [groupsFor_toNat accepted.blocksPerGroup] at hlt
  have hlt' := (groupsFor sb.sInodesCount sb.sInodesPerGroup).toNat_lt
  rw [groupsFor_toNat accepted.inodesPerGroup] at hlt'
  rw [hall, forall_div_lt_iff hpos, groups_toNat accepted]
  change groupCount sb.sInodesCount sb.sInodesPerGroup ≤ _ ↔ _
  generalize groupCount sb.sInodesCount sb.sInodesPerGroup = inodes at *
  generalize groupCount sb.sBlocksCount sb.sBlocksPerGroup = blocks at *
  unfold toInt
  split_ifs with hmore
  · simp only [Int.bmod_def] at hmore
    omega
  · simp only [Int.bmod_def] at hmore
    omega

/-- A disk with one inode in each of its 65536 groups. -/
def manyGroups : SuperBlock := ⟨65536, 8192, 0, 8192, 1, 0xef53, 128, 0⟩

theorem manyGroups_accepted : manyGroups.Accepted := 
  ⟨rfl, by decide, by decide, fun _ _ => UInt32.zero_and⟩

theorem manyGroups_groups_eq : manyGroups.groups = 0 := by decide +kernel

theorem manyGroups_groups :
    (∀ iNum : UInt32, 1 ≤ iNum → iNum ≤ manyGroups.sInodesCount →
        (manyGroups.groupOf iNum).toNat < manyGroups.groups.toNat) ↔
      groupCount manyGroups.sInodesCount manyGroups.sInodesPerGroup < 2 ^ 16 ∧
        (groupCount manyGroups.sBlocksCount manyGroups.sBlocksPerGroup ≤
            groupCount manyGroups.sInodesCount manyGroups.sInodesPerGroup ∨
          2 ^ 31 ≤ groupCount manyGroups.sBlocksCount manyGroups.sBlocksPerGroup ∨
          groupCount manyGroups.sInodesCount manyGroups.sInodesPerGroup ≤
            groupCount manyGroups.sBlocksCount manyGroups.sBlocksPerGroup % 2 ^ 16) :=
  groupOf_lt_groups_iff manyGroups_accepted

/-- None of them has a descriptor. -/
theorem manyGroups_no_descriptor :
    ¬ ∀ sb : SuperBlock, sb.Accepted → ∀ iNum : UInt32, 1 ≤ iNum → iNum ≤ sb.sInodesCount →
      (sb.groupOf iNum).toNat < sb.groups.toNat := by
  intro hall
  have hroot := hall manyGroups manyGroups_accepted EXT2_ROOT_INUM (by decide) (by decide +kernel)
  rw [manyGroups_groups_eq] at hroot
  exact absurd hroot (Nat.not_lt_zero _)

end Mount
