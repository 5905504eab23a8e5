import SepplesOS.Disk.Ext2File
import SepplesOS.Lib.Block
import SepplesOS.Lib.Run

/-!
# The bounds of `ext2ReadFile`

`ext2ReadFile?` is `ext2ReadFile` with every access to its buffers checked, and with the number of data
blocks that it visits.  Whatever is on the drive, no access is outside: it returns what `ext2ReadFile` does,
or it stops where `diskRead` halts the machine for a sector beyond the limit.
-/

namespace Ext2

open ATA IndexTree

/-- How a read stops: at an access outside a buffer, or in the `fatalError` for a sector of the range at an
offset. -/
inductive ReadFault
  | outside
  | refused (offset : UInt64)

/-- The state of `ext2ReadFile` with the length of its result, and the data blocks visited so far. -/
structure FileBlock where
  buf : Buf
  tables : Table → Buf
  mmapBase : Block
  mmapHead : ℕ
  size : ℕ
  visits : ℕ

section ReadFile

variable (disk : Drives) (hd : Ext2Disk) (blBuffer : Buf)

/-- A buffer of a block. -/
def blockOf (buf : Buf) : Block := ⟨buf, hd.blocksize.toNat⟩

/-- `p[i]` of a block of pointers. -/
def pointer? (p : Block) (i : ℕ) : Option UInt32 := p.u32? (4 * i)

def readBlock? (offset : UInt64) (dest : Buf) : Run ReadFault Buf :=
  .ofOption (.refused offset) (readBlock disk hd blBuffer offset dest)

/-- `readData` with its copy checked. -/
def readData? (b : UInt32) (st : FileBlock) : Run ReadFault FileBlock := do
  let buf ← readBlock? disk hd blBuffer (blockOffset hd b) st.buf
  let n := if st.size > hd.blocksize.toNat then hd.blocksize.toNat else st.size
  let mmapBase ← .ofOption .outside (st.mmapBase.memcpy? st.mmapHead (blockOf hd buf) n)
  return ⟨buf, st.tables, mmapBase, st.mmapHead + n, st.size - n, st.visits + 1⟩

/-- `scanTable` with every index checked. -/
def scanTable? (t : Table) (offset : UInt64) (body : UInt32 → FileBlock → Run ReadFault FileBlock)
    (st : FileBlock) : Run ReadFault FileBlock := do
  let p ← readBlock? disk hd blBuffer offset (st.tables t)
  forNonzeroM (fun i => .ofOption .outside (pointer? (blockOf hd p) i)) body (perBlock hd) 0
    { st with tables := Function.update st.tables t p }

end ReadFile

/-- `ext2ReadFile` with every access checked. -/
def ext2ReadFile? (disk : Drives) (hd : Ext2Disk) (inode : Inode) (fresh : Fresh) :
    Run ReadFault FileBlock := do
  let readData := readData? disk hd fresh.blBuffer
  let scanTable := scanTable? disk hd fresh.blBuffer
  let st : FileBlock :=
    ⟨fresh.buf, fresh.tables, ⟨fresh.mmap, inode.iSize.toNat⟩, 0, inode.iSize.toNat, 0⟩
  let st ← forNonzeroM (fun i => .done (inode.block i)) readData 12 0 st
  let st ← (if inode.block 12 ≠ 0 then scanTable .p (blockOffset64 hd (inode.block 12)) readData st
    else .done st)
  let st ← (if inode.block 13 ≠ 0 then
      scanTable .p (blockOffset hd (inode.block 13)) (fun b =>
        scanTable .pp (blockOffset hd b) readData) st
    else .done st)
  if inode.block 14 ≠ 0 then
    scanTable .p (blockOffset hd (inode.block 14)) (fun b =>
      scanTable .pp (blockOffset hd b) fun b =>
        scanTable .ppp (blockOffset hd b) readData) st
  else .done st

/-! ## The invariant of the loops -/

/-- The checked state and the plain one agree, the head and the rest make up the size of the file, and
the head has gone over all blocks that were visited, as far as the size goes. -/
structure Within (iSize blocksize : ℕ) (st : FileBlock) (plain : Buffers) : Prop where
  buf : st.buf = plain.buf
  tables : st.tables = plain.tables
  bytes : st.mmapBase.bytes = plain.file.mmapBase
  len : st.mmapBase.len = iSize
  head : st.mmapHead = plain.file.mmapHead
  rest : st.size = plain.file.size
  total : st.mmapHead + st.size = iSize
  copied : st.mmapHead = min iSize (blocksize * st.visits)

/-- Both computations return, in states that agree, or the machine halts in both, for a sector that is
refused. -/
def Follows (hd : Ext2Disk) (iSize : ℕ) (x : Run ReadFault FileBlock) (y : Option Buffers) : Prop :=
  (∃ st plain, x = .done st ∧ y = some plain ∧ Within iSize hd.blocksize.toNat st plain) ∨
    ∃ offset, x = .halted (.refused offset) ∧ y = none ∧
      Refused hd.device offset hd.blocksize.toUInt64

section Within

variable {hd : Ext2Disk} {iSize : ℕ} {st : FileBlock} {plain : Buffers}

theorem Within.follows (within : Within iSize hd.blocksize.toNat st plain) :
    Follows hd iSize (pure st) (pure plain) :=
  Or.inl ⟨st, plain, rfl, rfl, within⟩

theorem Follows.bind {x : Run ReadFault FileBlock} {y : Option Buffers}
    {f : FileBlock → Run ReadFault FileBlock} {g : Buffers → Option Buffers} (follows : Follows hd iSize x y)
    (next : ∀ st plain, Within iSize hd.blocksize.toNat st plain → Follows hd iSize (f st) (g plain)) :
    Follows hd iSize (x >>= f) (y >>= g) := by
  rcases follows with ⟨st, plain, rfl, rfl, hwithin⟩ | ⟨offset, rfl, rfl, hrefused⟩
  · exact next st plain hwithin
  · exact Or.inr ⟨offset, rfl, rfl, hrefused⟩

theorem follows_readBlock {f : Buf → Run ReadFault FileBlock} {g : Buf → Option Buffers} (disk : Drives)
    (blBuffer : Buf) (offset : UInt64) (dest : Buf) (next : ∀ buf, Follows hd iSize (f buf) (g buf)) :
    Follows hd iSize (readBlock? disk hd blBuffer offset dest >>= f)
      (readBlock disk hd blBuffer offset dest >>= g) := by
  have hcount : hd.blocksize.toUInt64.toNat < 2 ^ 63 := by
    rw [UInt32.toNat_toUInt64]
    exact hd.blocksize.toNat_lt.trans (by decide)
  cases hread : readBlock disk hd blBuffer offset dest with
  | none =>
    refine Or.inr ⟨offset, by rw [readBlock?, hread]; rfl, rfl, ?_⟩
    rw [readBlock, diskRead, diskRead_spec hcount, Option.map_map, Option.map_eq_none_iff] at hread
    exact refused_of_halts hread
  | some buf =>
    rw [readBlock?, hread]
    exact next buf

theorem Within.readData (within : Within iSize hd.blocksize.toNat st plain) (disk : Drives)
    (blBuffer : Buf) (b : UInt32) :
    Follows hd iSize (readData? disk hd blBuffer b st) (readData disk hd blBuffer b plain) := by
  obtain ⟨hbuf, htables, hbytes, hlen, hhead, hrest, htotal, hcopied⟩ := within
  have hvisits : hd.blocksize.toNat * (st.visits + 1) =
      hd.blocksize.toNat * st.visits + hd.blocksize.toNat := Nat.mul_succ _ _
  unfold readData? Ext2.readData
  rw [hbuf]
  apply follows_readBlock
  intro buf
  dsimp only
  rw [hrest]
  obtain ⟨n, hn⟩ : ∃ n, n = if plain.file.size > hd.blocksize.toNat then hd.blocksize.toNat
      else plain.file.size := ⟨_, rfl⟩
  have hmin : n = min plain.file.size hd.blocksize.toNat := by
    rw [hn]
    split_ifs
    · omega
    · omega
  have hcopy : st.mmapBase.memcpy? st.mmapHead (blockOf hd buf) n =
      some { st.mmapBase with bytes := st.mmapBase.bytes.memcpy st.mmapHead buf n } :=
    Block.memcpy?_of_le (by rw [hlen]; omega) (show n ≤ hd.blocksize.toNat by omega)
  rw [← hn, hcopy]
  refine Or.inl ⟨_, _, rfl, rfl, rfl, htables, ?_, hlen, ?_, ?_, ?_, ?_⟩
  · show st.mmapBase.bytes.memcpy st.mmapHead buf n =
      (plain.file.append hd.blocksize.toNat buf).mmapBase
    rw [FileBuf.append, ← hn, hbytes, hhead]
  · show st.mmapHead + n = (plain.file.append hd.blocksize.toNat buf).mmapHead
    rw [FileBuf.append, ← hn, hhead]
  · show plain.file.size - n = (plain.file.append hd.blocksize.toNat buf).size
    rw [FileBuf.append, ← hn]
  · dsimp only
    omega
  · dsimp only
    rw [hvisits]
    omega

theorem Within.scanTable {body? : UInt32 → FileBlock → Run ReadFault FileBlock}
    {body : UInt32 → Buffers → Option Buffers} (within : Within iSize hd.blocksize.toNat st plain)
    (disk : Drives) (blBuffer : Buf) (t : Table) (offset : UInt64)
    (step : ∀ b st plain, Within iSize hd.blocksize.toNat st plain →
      Follows hd iSize (body? b st) (body b plain)) :
    Follows hd iSize (scanTable? disk hd blBuffer t offset body? st)
      (scanTable disk hd blBuffer t offset body plain) := by
  unfold scanTable? Ext2.scanTable
  rw [within.tables]
  apply follows_readBlock
  intro p
  apply forNonzeroM_rel (Within iSize hd.blocksize.toNat) (Follows hd iSize)
  · exact fun st plain h => h.follows
  · exact fun x y f g hxy hfg => hxy.bind hfg
  · -- all entries are inside the block
    intro i hi
    have hinside : pointer? (blockOf hd p) i = some (pointer p i) := by
      apply Block.u32?_of_le
      show 4 * i + 4 ≤ hd.blocksize.toNat
      unfold perBlock at hi
      omega
    rw [hinside]
    rfl
  · exact fun i _ => rfl
  · exact fun i _ _ st plain h => step _ st plain h
  · exact { within with tables := rfl }

theorem Within.ifRoot {x : Run ReadFault FileBlock} {y : Option Buffers}
    (within : Within iSize hd.blocksize.toNat st plain) (root : Prop) [Decidable root]
    (tree : Follows hd iSize x y) :
    Follows hd iSize (if root then x else .done st) (if root then y else some plain) := by
  by_cases hroot : root
  · rw [if_pos hroot, if_pos hroot]
    exact tree
  · rw [if_neg hroot, if_neg hroot]
    exact within.follows

end Within

/-- The checked loops go along with the plain ones. -/
theorem ext2ReadFile?_follows (disk : Drives) (hd : Ext2Disk) (inode : Inode) (fresh : Fresh) :
    Follows hd inode.iSize.toNat (ext2ReadFile? disk hd inode fresh) (readLoops disk hd inode fresh) := by
  have hstart : Within inode.iSize.toNat hd.blocksize.toNat
      ⟨fresh.buf, fresh.tables, ⟨fresh.mmap, inode.iSize.toNat⟩, 0, inode.iSize.toNat, 0⟩
      ⟨fresh.buf, fresh.tables, ⟨fresh.mmap, 0, inode.iSize.toNat⟩⟩ :=
    ⟨rfl, rfl, rfl, rfl, rfl, rfl, Nat.zero_add _, by simp⟩
  have hdata : ∀ b st plain, Within inode.iSize.toNat hd.blocksize.toNat st plain →
      Follows hd inode.iSize.toNat (readData? disk hd fresh.blBuffer b st)
        (readData disk hd fresh.blBuffer b plain) := fun b _ _ h => h.readData disk _ b
  -- a table keeps the invariant when what is below it does
  have htable (t : Table) {body? : UInt32 → FileBlock → Run ReadFault FileBlock}
      {body : UInt32 → Buffers → Option Buffers}
      (step : ∀ b st plain, Within inode.iSize.toNat hd.blocksize.toNat st plain →
        Follows hd inode.iSize.toNat (body? b st) (body b plain)) (b : UInt32) (st : FileBlock)
      (plain : Buffers) (h : Within inode.iSize.toNat hd.blocksize.toNat st plain) :
      Follows hd inode.iSize.toNat (scanTable? disk hd fresh.blBuffer t (blockOffset hd b) body? st)
        (scanTable disk hd fresh.blBuffer t (blockOffset hd b) body plain) :=
    h.scanTable disk _ t _ step
  unfold ext2ReadFile? readLoops
  dsimp only
  apply Follows.bind
  · apply forNonzeroM_rel (Within inode.iSize.toNat hd.blocksize.toNat) (Follows hd inode.iSize.toNat)
    · exact fun _ _ h => h.follows
    · exact fun _ _ _ _ hxy hfg => hxy.bind hfg
    · exact fun i _ => rfl
    · exact fun i _ => rfl
    · exact fun i _ => fun _ => hdata _
    · exact hstart
  -- the three trees, each over the state that the loops before it leave
  intro st plain within
  apply Follows.bind
  · exact within.ifRoot (inode.block 12 ≠ 0) (within.scanTable disk _ .p _ hdata)
  intro st plain within
  apply Follows.bind
  · exact within.ifRoot (inode.block 13 ≠ 0) (htable .p (htable .pp hdata) _ st plain within)
  intro st plain within
  exact within.ifRoot (inode.block 14 ≠ 0)
    (htable .p (htable .pp (htable .ppp hdata)) _ st plain within)

/-- Whatever is on the drive, `ext2ReadFile` ends, every copy is inside the result and inside the block
that was read, every index is inside its block of pointers, and the copies add up to the size of the
file or to the data blocks that were visited, whichever is less; but that a sector beyond the limit halts
the machine. -/
theorem ext2ReadFile_inBounds (disk : Drives) (hd : Ext2Disk) (inode : Inode) (fresh : Fresh) :
    (∃ st, ext2ReadFile? disk hd inode fresh = .done st ∧
      ext2ReadFile disk hd inode fresh = some st.mmapBase.bytes ∧
      st.mmapHead = min inode.iSize.toNat (hd.blocksize.toNat * st.visits)) ∨
    ∃ offset, ext2ReadFile? disk hd inode fresh = .halted (.refused offset) ∧
      ext2ReadFile disk hd inode fresh = none ∧
      Refused hd.device offset hd.blocksize.toUInt64 := by
  rcases ext2ReadFile?_follows disk hd inode fresh with
    ⟨st, plain, hrun, hplain, hwithin⟩ | ⟨offset, hrun, hplain, hrefused⟩
  · refine Or.inl ⟨st, hrun, ?_, hwithin.copied⟩
    rw [ext2ReadFile, hplain, Option.map_some, hwithin.bytes]
  · refine Or.inr ⟨offset, hrun, ?_, hrefused⟩
    rw [ext2ReadFile, hplain, Option.map_none]

/-- A file whose table of single indirect blocks is the one at 8 GiB. -/
def farTable : Inode := inodeOf 0x8000 13312 fun i => if i.val = 12 then 8388608 else 0

/-- The read of that table does not return. -/
theorem farTable_halts :
    ¬ ∀ (disk : Drives) (hd : Ext2Disk) (inode : Inode) (fresh : Fresh), 1024 ≤ hd.blocksize.toNat →
      ∃ st, ext2ReadFile? disk hd inode fresh = .done st := by
  intro hall
  obtain ⟨st, hdone⟩ := hall (readyDrive fun _ => 0) smallDisk farTable zeroFresh (by decide)
  have hnone : readLoops (readyDrive fun _ => 0) smallDisk farTable zeroFresh = none := rfl
  rcases ext2ReadFile?_follows (readyDrive fun _ => 0) smallDisk farTable zeroFresh with
    ⟨_, plain, -, hplain, -⟩ | ⟨offset, hrun, -⟩
  · rw [hnone] at hplain
    cases hplain
  · rw [hdone] at hrun
    cases hrun

end Ext2
