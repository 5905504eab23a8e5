import SepplesOS.Disk.Ext2Dir
import SepplesOS.Lib.Block
import SepplesOS.Lib.Run

/-!
# Files and corrupt directories

`NodeEXT2::read` copies what it can and updates its cursor before it returns what is left of the file.
`lookup?` is `NodeEXT2::lookup` with every access to the bytes of the directory checked: nothing in its
loop compares a record to the size of the directory, so that only an unused record stops it in time.
-/

namespace Ext2

open ATA

/-! ## Reading a file -/

/-- The fields of a `NodeEXT2` that `read` uses. -/
structure NodeEXT2 where
  type : NodeType
  hd : Ext2Disk
  inode : Inode

section Read

variable (disk : Drives) (node : NodeEXT2) (fresh : Fresh)

/-- `NodeEXT2::read`: what it returns, and the bytes at `buf`. -/
def NodeEXT2.read (len : UInt64) (buf : Buf) : Option (UInt64 × Buf) :=
  if node.type ≠ .NODE_FILE then some (0, buf)
  else do
    let offset : UInt64 := 0
    let data ← ext2ReadFile disk node.hd node.inode fresh
    let dataSize := node.inode.iSize.toUInt64
    if offset > dataSize then some (0, buf)
    else if len + offset > dataSize then
      let buf := buf.memcpy 0 (fun k => data (offset.toNat + k)) (dataSize - offset).toNat
      let offset := dataSize
      some (dataSize - offset, buf)
    else
      let buf := buf.memcpy 0 (fun k => data (offset.toNat + k)) len.toNat
      some (len, buf)

/-- A call returns with the first `n` bytes of a file at `buf`, nothing else has changed, and `n` is
reported. -/
def Delivers (content : ℕ → UInt8) (n : ℕ) (buf : Buf) (result : Option (UInt64 × Buf)) : Prop :=
  ∃ (count : UInt64) (buf' : Buf), result = some (count, buf') ∧ (∀ k < n, buf' k = content k) ∧
    (∀ k, n ≤ k → buf' k = buf k) ∧ count.toNat = n

/-- Byte `k` of a file is in the block that the loops come to at its place. -/
def Placed (hd : Ext2Disk) (inode : Inode) (k : ℕ) : Prop :=
  ∃ b, (visited disk hd inode)[k / hd.blocksize.toNat]? = some b ∧
    blockAt disk hd (logicalBlock disk hd inode b) (k % hd.blocksize.toNat) = fileByte disk hd inode k

variable {disk node fresh} {data buf : Buf} {n : ℕ} {count : UInt64}

/-- A copy from the start delivers the bytes that it copies, if it reports their number. -/
theorem delivers_memcpy_iff {content : ℕ → UInt8} :
    Delivers content n buf (some (count, buf.memcpy 0 (fun k => data (0 + k)) n)) ↔
      (∀ k < n, data k = content k) ∧ count.toNat = n := by
  have hin : ∀ k < n, buf.memcpy 0 (fun k => data (0 + k)) n k = data k := by
    intro k hk
    unfold Buf.memcpy
    rw [if_pos (by omega)]
    dsimp only
    rw [Nat.sub_zero, Nat.zero_add]
  constructor
  · rintro ⟨count', buf', hresult, hcontent, -, hcount⟩
    obtain ⟨rfl, rfl⟩ := Prod.mk.inj (Option.some.inj hresult)
    exact ⟨fun k hk => (hin k hk).symm.trans (hcontent k hk), hcount⟩
  · rintro ⟨hcontent, hcount⟩
    refine ⟨_, _, rfl, fun k hk => (hin k hk).trans (hcontent k hk), fun k hk => ?_, hcount⟩
    unfold Buf.memcpy
    rw [if_neg (by omega)]

theorem read_eq (file : node.type = .NODE_FILE) (len : UInt64) (buf : Buf) :
    node.read disk fresh len buf = (ext2ReadFile disk node.hd node.inode fresh).map fun data =>
      (if node.inode.iSize.toNat < len.toNat then 0 else len,
        buf.memcpy 0 (fun k => data (0 + k)) (min len.toNat node.inode.iSize.toNat)) := by
  have hsize : node.inode.iSize.toUInt64.toNat = node.inode.iSize.toNat := UInt32.toNat_toUInt64 _
  unfold NodeEXT2.read
  rw [if_neg (not_not.2 file)]
  cases ext2ReadFile disk node.hd node.inode fresh with
  | none => rfl
  | some data =>
    rw [Option.bind_eq_bind, Option.bind_some, Option.map_some,
      if_neg (by rw [gt_iff_lt, UInt64.not_lt]; exact UInt64.zero_le), UInt64.add_zero, UInt64.sub_zero]
    dsimp only
    rw [UInt64.sub_self, hsize]
    simp only [gt_iff_lt, UInt64.lt_iff_toNat_lt, hsize]
    split_ifs with hmore
    · rw [min_eq_right hmore.le]
      rfl
    · rw [min_eq_left (not_lt.1 hmore)]
      rfl

theorem readsBytes_iff {hd : Ext2Disk} {inode : Inode} (blocks : 0 < hd.blocksize.toNat)
    (exact : BlockReadsExact disk hd inode) (within : n ≤ inode.iSize.toNat) :
    (∀ fresh, ReadsBytes disk hd inode n fresh) ↔ ∀ k < n, Placed disk hd inode k := by
  have hdiv (k : ℕ) : k / hd.blocksize.toNat * hd.blocksize.toNat + k % hd.blocksize.toNat = k :=
    Nat.div_add_mod' k _
  constructor
  · intro hreads k hk
    let fresh : Fresh :=
      ⟨fun _ => 0, fun _ _ => 0, fun _ => fileByte disk hd inode k + 1, fun _ _ => 0, fun _ => 0⟩
    obtain ⟨buf, hbuf, hat, hbehind⟩ := ext2ReadFile_spec exact fresh
    obtain ⟨buf', hbuf', hbytes⟩ := hreads fresh
    obtain rfl := Option.some.inj (hbuf.symm.trans hbuf')
    cases hvisited : (visited disk hd inode)[k / hd.blocksize.toNat]? with
    | none =>
      -- the byte is not written
      have hlen := List.getElem?_eq_none_iff.1 hvisited
      have hbyte := hbytes k hk
      rw [hbehind k ((Nat.mul_le_mul_right _ hlen).trans (Nat.div_mul_le_self k _))] at hbyte
      simp [fresh] at hbyte
    | some b =>
      have hbyte := hat _ _ _ hvisited (Nat.mod_lt k blocks) (by rw [hdiv]; omega)
      rw [hdiv, hbytes k hk] at hbyte
      exact ⟨b, hvisited, hbyte.symm⟩
  · intro hplaced fresh
    obtain ⟨buf, hbuf, hat, -⟩ := ext2ReadFile_spec exact fresh
    refine ⟨buf, hbuf, fun k hk => ?_⟩
    obtain ⟨b, hvisited, hbyte⟩ := hplaced k hk
    rw [← hbyte, ← hat _ _ _ hvisited (Nat.mod_lt k blocks) (by rw [hdiv]; omega), hdiv]

end Read

/-- `read` delivers the first bytes of the file as far as it goes, whatever new memory holds, and reports
their number, if and only if it is not asked for more than there is, or there is nothing, and the reader
gives these bytes; it does so exactly when they are where its loops come to, if these read their blocks
exactly. -/
theorem read_delivers_iff {node : NodeEXT2} (file : node.type = .NODE_FILE) (disk : Drives) (len : UInt64)
    (buf : Buf) :
    ((∀ fresh, Delivers (fileByte disk node.hd node.inode) (min len.toNat node.inode.iSize.toNat) buf
        (node.read disk fresh len buf)) ↔
      (len.toNat ≤ node.inode.iSize.toNat ∨ node.inode.iSize = 0) ∧
        ∀ fresh, ReadsBytes disk node.hd node.inode (min len.toNat node.inode.iSize.toNat) fresh) ∧
    (0 < node.hd.blocksize.toNat → BlockReadsExact disk node.hd node.inode →
      ((∀ fresh, ReadsBytes disk node.hd node.inode (min len.toNat node.inode.iSize.toNat) fresh) ↔
        ∀ k < min len.toNat node.inode.iSize.toNat, Placed disk node.hd node.inode k)) := by
  refine ⟨?_, fun hblocks hexact => readsBytes_iff hblocks hexact (min_le_right _ _)⟩
  have hcount : (if node.inode.iSize.toNat < len.toNat then 0 else len : UInt64).toNat =
      min len.toNat node.inode.iSize.toNat ↔
        len.toNat ≤ node.inode.iSize.toNat ∨ node.inode.iSize = 0 := by
    rw [← UInt32.toNat_inj, UInt32.toNat_zero]
    split_ifs with hmore
    · rw [UInt64.toNat_zero]
      omega
    · omega
  have hfresh : Nonempty Fresh := ⟨zeroFresh⟩
  rw [← hcount, ← forall_and_left]
  apply forall_congr'
  intro fresh
  rw [read_eq file, ReadsBytes]
  cases ext2ReadFile disk node.hd node.inode fresh with
  | none => simp [Delivers]
  | some data =>
    rw [Option.map_some, delivers_memcpy_iff, and_comm]
    simp

/-- A file of three bytes. -/
def shortFile : NodeEXT2 :=
  ⟨.NODE_FILE, smallDisk, inodeOf 0x8000 3 fun i => if i.val = 0 then 7 else 0⟩

theorem shortFile_noHole (disk : Drives) : NoHole disk shortFile.hd shortFile.inode := by
  intro k hk
  have hzero : k / shortFile.hd.blocksize.toNat = 0 :=
    Nat.div_eq_of_lt (hk.trans (by decide))
  rw [hzero, logicalBlock_direct _ _ _ (by decide)]
  decide

/-- A read of two bytes of it. -/
theorem shortFile_delivers :
    (∀ fresh, Delivers (fileByte usedFirst shortFile.hd shortFile.inode)
        (min (UInt64.toNat 2) shortFile.inode.iSize.toNat) (fun _ => 1)
        (shortFile.read usedFirst fresh 2 fun _ => 1)) ∧
      ∀ k < min (UInt64.toNat 2) shortFile.inode.iSize.toNat,
        Placed usedFirst shortFile.hd shortFile.inode k := by
  have hexact : BlockReadsExact usedFirst smallDisk shortFile.inode := by
    unfold usedFirst dirDisk
    apply blockReadsExact_direct
    · decide
    · decide
  have hreads : ∀ fresh, ReadsBytes usedFirst shortFile.hd shortFile.inode
      (min (UInt64.toNat 2) shortFile.inode.iSize.toNat) fresh := by
    intro fresh
    obtain ⟨buf, hbuf, hbytes⟩ := readsFile_of_noHole (by decide) hexact (shortFile_noHole _) fresh
    exact ⟨buf, hbuf, fun k hk => hbytes k (hk.trans_le (min_le_right _ _))⟩
  have hread := read_delivers_iff (show shortFile.type = .NODE_FILE from rfl) usedFirst 2 fun _ => 1
  exact ⟨hread.1.2 ⟨by decide, hreads⟩, (hread.2 (by decide) hexact).1 hreads⟩

/-- A read of four bytes reports nothing. -/
theorem shortFile_not_delivers :
    ¬ ∀ (node : NodeEXT2) (disk : Drives) (fresh : Fresh) (len : UInt64) (buf : Buf),
      node.type = .NODE_FILE →
      Delivers (fileByte disk node.hd node.inode) (min len.toNat node.inode.iSize.toNat) buf
        (node.read disk fresh len buf) := by
  intro hall
  obtain ⟨count, buf', hresult, -, -, hcount⟩ := hall shortFile usedFirst zeroFresh 4 (fun _ => 1) rfl
  have hzero : (shortFile.read usedFirst zeroFresh 4 fun _ => 1).map Prod.fst = some 0 := rfl
  rw [hresult, Option.map_some, Option.some.injEq] at hzero
  obtain rfl : count = 0 := hzero
  exact absurd hcount (by decide)

/-! ## Directories that are not well formed -/

/-- How `lookup` goes wrong: it accesses a byte outside the directory, or the machine stops at a read of
the directory or of an inode. -/
inductive Fault
  | outside
  | noFile
  | noInode

section Lookup

variable (disk : Drives) (hd : Ext2Disk)

/-- What the loop of `lookup` adds to `childs` for an entry. -/
def addEntry (newInode blBuffer : Buf) (ext2Inode : UInt32) (filename : CString) (childs : List Child) :
    Run Fault (List Child) :=
  if isDotName filename.bytes then .done childs
  else
    match ext2ReadInode disk hd ext2Inode newInode blBuffer with
    | some (some childInode) =>
      .done (childs ++ [createChild filename ext2Inode childInode (childType childInode)])
    | _ => .halted .noInode

/-- `lookupLoop` with every access checked; the fuel is one more than the number of iterations. -/
def lookupLoop? (newInode : ℕ → Buf) (blBuffer : Buf) (mmap : Block) :
    ℕ → ℕ → UInt32 → List Child → Run Fault (List Child)
  | 0, _, _, _ => .running
  | fuel + 1, dentry, dsize, childs => do
    let ext2Inode ← .ofOption .outside (mmap.u32? dentry)
    if ext2Inode ≠ 0 ∧ dsize ≠ 0 then
      let nameLen ← .ofOption .outside (mmap.u8? (dentry + 6))
      let name ← .ofOption .outside (mmap.slice? (dentry + 8) nameLen.toNat)
      let childs ← addEntry disk hd (newInode dentry) blBuffer ext2Inode
        (CString.ofBytes (name.bytes 0 nameLen.toNat)) childs
      let recLen ← .ofOption .outside (mmap.u16? (dentry + 4))
      lookupLoop? newInode blBuffer mmap fuel (dentry + recLen.toNat) (dsize - recLen.toUInt32) childs
    else .done childs

/-- `lookup` with every access checked, ended after `iterations` of its loop. -/
def lookup? (inode : Inode) (fresh : Fresh) (iterations : ℕ) : Run Fault (List Child) :=
  if isDirectory inode then do
    let mmap ← .ofOption .noFile (ext2ReadFile disk hd inode fresh)
    lookupLoop? disk hd fresh.inode fresh.blBuffer ⟨mmap, inode.iSize.toNat⟩ (iterations + 1) 0
      inode.iSize []
  else .done []

/-- Reading an inode returns: the descriptor is in memory, and no sector halts the machine. -/
def InodeReturns (iNum : UInt32) : Prop :=
  ∃ group, hd.gd (grNum hd iNum).toNat = some group ∧
    readStatus disk hd.device (inodeOffset hd group iNum) 128 ≠ none

/-- An entry is `.` or `..`, or reading its inode returns. -/
def EntryReturns (mmap : Buf) (dentry : ℕ) : Prop :=
  isDotName (CString.ofBytes (mmap.bytes (dentry + 8) (mmap (dentry + 6)).toNat)).bytes = true ∨
    InodeReturns disk hd (mmap.u32 dentry)

end Lookup

/-- The bytes of an entry that are read, its name included, are inside the directory. -/
def EntryInside (mmap : Buf) (iSize dentry : ℕ) : Prop :=
  dentry + 7 ≤ iSize ∧ ((mmap (dentry + 6)).toNat = 0 ∨ dentry + 8 + (mmap (dentry + 6)).toNat ≤ iSize)

/-- From an offset on, records in use follow each other inside the directory up to an unused one, of which
the inode number is inside, too, and reading the inodes of those in use returns. -/
inductive EndsUnused (disk : Drives) (hd : Ext2Disk) (mmap : Buf) (iSize : ℕ) : ℕ → Prop
  | unused {dentry : ℕ} : dentry + 4 ≤ iSize → mmap.u32 dentry = 0 → EndsUnused disk hd mmap iSize dentry
  | used {dentry : ℕ} : mmap.u32 dentry ≠ 0 → EntryInside mmap iSize dentry →
      EntryReturns disk hd mmap dentry →
      EndsUnused disk hd mmap iSize (dentry + (mmap.u16 (dentry + 4)).toNat) →
      EndsUnused disk hd mmap iSize dentry

section Lookup

variable {disk : Drives} {hd : Ext2Disk} {newInode : ℕ → Buf} {blBuffer mmap : Buf} {iSize dentry : ℕ}
  {childs : List Child}

/-- No used record on the way has a length of zero: it would follow itself. -/
theorem EndsUnused.recLen_pos (ends : EndsUnused disk hd mmap iSize dentry) (used : mmap.u32 dentry ≠ 0) :
    0 < (mmap.u16 (dentry + 4)).toNat := by
  induction ends with
  | unused _ hzero => exact absurd hzero used
  | used _ _ _ _ ih =>
    by_contra hlen
    have hzero := Nat.eq_zero_of_not_pos hlen
    rw [hzero] at ih
    exact hlen (by rw [Nat.add_zero] at ih; exact ih used)

theorem EndsUnused.inside (ends : EndsUnused disk hd mmap iSize dentry) : dentry + 4 ≤ iSize := by
  cases ends with
  | unused hinside _ => exact hinside
  | used _ hinside _ => exact (Nat.add_le_add_left (by decide) _).trans hinside.1

theorem inodeReturns_iff (groups : hd.sb.sInodesPerGroup ≠ 0) (newInode blBuffer : Buf) (iNum : UInt32) :
    InodeReturns disk hd iNum ↔
      ∃ inode, ext2ReadInode disk hd iNum newInode blBuffer = some (some inode) := by
  unfold InodeReturns
  rw [ext2ReadInode_eq groups]
  cases hd.gd (grNum hd iNum).toNat with
  | none => simp
  | some group =>
    cases hstatus : readStatus disk hd.device (inodeOffset hd group iNum) 128 with
    | none => simp [hstatus]
    | some ok => simp [hstatus]

theorem addEntry_done_iff (groups : hd.sb.sInodesPerGroup ≠ 0) (newInode blBuffer : Buf) (dentry : ℕ)
    (childs : List Child) :
    EntryReturns disk hd mmap dentry ↔ ∃ childs', addEntry disk hd newInode blBuffer (mmap.u32 dentry)
      (CString.ofBytes (mmap.bytes (dentry + 8) (mmap (dentry + 6)).toNat)) childs = .done childs' := by
  unfold EntryReturns addEntry
  by_cases hdot : isDotName
      (CString.ofBytes (mmap.bytes (dentry + 8) (mmap (dentry + 6)).toNat)).bytes = true
  · simp [hdot]
  · rw [if_neg hdot, inodeReturns_iff groups newInode blBuffer]
    rcases ext2ReadInode disk hd (mmap.u32 dentry) newInode blBuffer with _ | _ | inode
    · simp [hdot]
    · simp [hdot]
    · simp

theorem rest_ne_zero {total dsize : UInt32} (rest : dsize + UInt32.ofNat dentry = total)
    (inside : dentry < total.toNat) : dsize ≠ 0 := by
  intro hzero
  have hlt := total.toNat_lt
  have htotal : (UInt32.ofNat dentry).toNat = total.toNat := by rw [← rest, hzero, UInt32.zero_add]
  rw [UInt32.toNat_ofNat', Nat.mod_eq_of_lt (by omega)] at htotal
  omega

theorem lookupLoop?_used {dsize : UInt32} (fuel : ℕ) (used : mmap.u32 dentry ≠ 0) (more : dsize ≠ 0)
    (inside : EntryInside mmap iSize dentry) :
    lookupLoop? disk hd newInode blBuffer ⟨mmap, iSize⟩ (fuel + 1) dentry dsize childs =
      addEntry disk hd (newInode dentry) blBuffer (mmap.u32 dentry)
        (CString.ofBytes (mmap.bytes (dentry + 8) (mmap (dentry + 6)).toNat)) childs >>=
      lookupLoop? disk hd newInode blBuffer ⟨mmap, iSize⟩ fuel (dentry + (mmap.u16 (dentry + 4)).toNat)
        (dsize - (mmap.u16 (dentry + 4)).toUInt32) := by
  obtain ⟨hheader, hname⟩ := inside
  have hslice : (⟨mmap, iSize⟩ : Block).slice? (dentry + 8) (mmap (dentry + 6)).toNat =
      some fun k => mmap (dentry + 8 + k) := if_pos hname
  have hbytes : ∀ n, Buf.bytes (fun k => mmap (dentry + 8 + k)) 0 n = mmap.bytes (dentry + 8) n := by
    intro n
    simp [Buf.bytes]
  rw [lookupLoop?, Block.u32?_of_le (show dentry + 4 ≤ iSize by omega), Run.ofOption_some, Run.done_bind,
    if_pos ⟨used, more⟩, Block.u8?_of_lt (show dentry + 6 < iSize by omega), Run.ofOption_some,
    Run.done_bind, hslice, Run.ofOption_some, Run.done_bind, hbytes]
  simp only [Block.u16?_of_le (show dentry + 4 + 2 ≤ (⟨mmap, iSize⟩ : Block).len by dsimp only; omega),
    Run.ofOption_some, Run.done_bind]

theorem lookupLoop?_outside {dsize : UInt32} (fuel : ℕ) (header : dentry + 4 ≤ iSize)
    (used : mmap.u32 dentry ≠ 0) (more : dsize ≠ 0) (outside : ¬EntryInside mmap iSize dentry) :
    lookupLoop? disk hd newInode blBuffer ⟨mmap, iSize⟩ (fuel + 1) dentry dsize childs =
      .halted .outside := by
  rw [lookupLoop?, Block.u32?_of_le header, Run.ofOption_some, Run.done_bind, if_pos ⟨used, more⟩]
  by_cases hlen : dentry + 6 < iSize
  · have hslice : (⟨mmap, iSize⟩ : Block).slice? (dentry + 8) (mmap (dentry + 6)).toNat = none :=
      if_neg fun hname => outside ⟨by omega, hname⟩
    rw [Block.u8?_of_lt hlen, Run.ofOption_some, Run.done_bind, hslice, Run.ofOption_none,
      Run.halted_bind]
  · rw [Block.u8?_eq_none hlen, Run.ofOption_none, Run.halted_bind]

theorem rest_next {total dsize : UInt32} (rest : dsize + UInt32.ofNat dentry = total) (recLen : UInt16) :
    dsize - recLen.toUInt32 + UInt32.ofNat (dentry + recLen.toNat) = total := by
  have hnext : UInt32.ofNat (dentry + recLen.toNat) = UInt32.ofNat dentry + recLen.toUInt32 := by
    have hlen : UInt32.ofNat recLen.toNat = recLen.toUInt32 := by
      have hlt := recLen.toNat_lt
      rw [← UInt32.toNat_inj, UInt32.toNat_ofNat', UInt16.toNat_toUInt32, Nat.mod_eq_of_lt (by omega)]
    rw [UInt32.ofNat_add, hlen]
  rw [hnext, ← rest]
  grind

/-- The loop ends without a fault only at an unused record. -/
theorem endsUnused_of_done (groups : hd.sb.sInodesPerGroup ≠ 0) {total : UInt32} {fuel : ℕ}
    {dsize : UInt32} {childs' : List Child} (rest : dsize + UInt32.ofNat dentry = total)
    (done : lookupLoop? disk hd newInode blBuffer ⟨mmap, total.toNat⟩ fuel dentry dsize childs =
      .done childs') : EndsUnused disk hd mmap total.toNat dentry := by
  induction fuel generalizing dentry dsize childs with
  | zero => nomatch done
  | succ fuel ih =>
    by_cases hheader : dentry + 4 ≤ total.toNat
    · have hmore := rest_ne_zero rest (by omega)
      by_cases hused : mmap.u32 dentry = 0
      · exact .unused hheader hused
      · by_cases hinside : EntryInside mmap total.toNat dentry
        · rw [lookupLoop?_used fuel hused hmore hinside] at done
          obtain ⟨childs₁, hadd, done⟩ := Run.bind_eq_done done
          have hreturns := (addEntry_done_iff groups _ _ dentry childs).2 ⟨childs₁, hadd⟩
          exact .used hused hinside hreturns (ih (rest_next rest _) done)
        · rw [lookupLoop?_outside fuel hheader hused hmore hinside] at done
          nomatch done
    · rw [lookupLoop?, Block.u32?_eq_none hheader] at done
      nomatch done

theorem EndsUnused.done {total : UInt32} (ends : EndsUnused disk hd mmap total.toNat dentry)
    (groups : hd.sb.sInodesPerGroup ≠ 0) {fuel : ℕ} {dsize : UInt32}
    (rest : dsize + UInt32.ofNat dentry = total) (enough : total.toNat - dentry < fuel) :
    ∃ childs', lookupLoop? disk hd newInode blBuffer ⟨mmap, total.toNat⟩ fuel dentry dsize childs =
      .done childs' := by
  induction ends generalizing fuel dsize childs with
  | unused hheader hzero =>
    obtain ⟨fuel, rfl⟩ : ∃ f, fuel = f + 1 := ⟨fuel - 1, by omega⟩
    rw [lookupLoop?, Block.u32?_of_le hheader, Run.ofOption_some, Run.done_bind,
      if_neg fun h => h.1 hzero]
    exact ⟨childs, rfl⟩
  | used hused hinside hreturns hnext ih =>
    obtain ⟨fuel, rfl⟩ : ∃ f, fuel = f + 1 := ⟨fuel - 1, by omega⟩
    have hpos := (EndsUnused.used hused hinside hreturns hnext).recLen_pos hused
    have hlt := hnext.inside
    have hmore := rest_ne_zero rest (by omega)
    obtain ⟨childs₁, hadd⟩ := (addEntry_done_iff groups _ blBuffer _ childs).1 hreturns
    rw [lookupLoop?_used fuel hused hmore hinside, hadd, Run.done_bind]
    exact ih (rest_next rest _) (by omega)

/-- What the checked loop finds, the plain one finds. -/
theorem lookupLoop?_sound (groups : hd.sb.sInodesPerGroup ≠ 0) {total : UInt32} {fuel : ℕ}
    {dsize : UInt32} {childs' : List Child} (rest : dsize + UInt32.ofNat dentry = total)
    (done : lookupLoop? disk hd newInode blBuffer ⟨mmap, total.toNat⟩ fuel dentry dsize childs =
      .done childs') :
    lookupLoop disk hd newInode blBuffer mmap fuel dentry dsize childs = some childs' := by
  induction fuel generalizing dentry dsize childs with
  | zero => cases done
  | succ fuel ih =>
    have hends := endsUnused_of_done groups rest done
    have hmore := rest_ne_zero rest (by have := hends.inside; omega)
    rw [lookupLoop]
    dsimp only
    cases hends with
    | unused hheader hzero =>
      rw [lookupLoop?, Block.u32?_of_le hheader, Run.ofOption_some, Run.done_bind,
        if_neg fun h => h.1 hzero] at done
      rw [if_neg fun h => h.1 hzero]
      injection done with hchilds
      rw [hchilds]
    | used hused hinside hreturns hnext =>
      rw [lookupLoop?_used fuel hused hmore hinside] at done
      obtain ⟨childs₁, hadd, done⟩ := Run.bind_eq_done done
      have hrest := ih (rest_next rest _) done
      rw [if_pos ⟨hused, hmore⟩]
      change addEntry disk hd (newInode dentry) blBuffer (DirEntry.ofBuf mmap dentry).ext2Inode
        (CString.ofBytes (DirEntry.ofBuf mmap dentry).name) childs = .done childs₁ at hadd
      unfold addEntry at hadd
      by_cases hdot : isDotName (CString.ofBytes (DirEntry.ofBuf mmap dentry).name).bytes
      · rw [if_pos hdot] at hadd ⊢
        injection hadd with hchilds
        rw [hchilds]
        exact hrest
      · rw [if_neg hdot] at hadd ⊢
        rcases hread : ext2ReadInode disk hd (DirEntry.ofBuf mmap dentry).ext2Inode (newInode dentry)
            blBuffer with _ | _ | childInode
        · rw [hread] at hadd
          cases hadd
        · rw [hread] at hadd
          cases hadd
        · rw [hread] at hadd
          injection hadd with hchilds
          dsimp only
          rw [hchilds]
          exact hrest

theorem endsUnused_of_lookup? {inode : Inode} {fresh : Fresh} {iterations : ℕ}
    (directory : isDirectory inode = true) (groups : hd.sb.sInodesPerGroup ≠ 0)
    (returns : ext2ReadFile disk hd inode fresh = some mmap)
    (done : lookup? disk hd inode fresh iterations = .done childs) :
    EndsUnused disk hd mmap inode.iSize.toNat 0 := by
  unfold lookup? at done
  rw [if_pos directory, returns] at done
  exact endsUnused_of_done groups (UInt32.add_zero _) done

theorem not_endsUnused_of_full {bs : ℕ} {es : List DirEntry} (data : DirData bs mmap dentry es)
    (used : ∀ e ∈ es, e.ext2Inode ≠ 0) (full : dentry + recBytes es = iSize) :
    ¬EndsUnused disk hd mmap iSize dentry := by
  induction es generalizing dentry with
  | nil =>
    intro hends
    have hinside := hends.inside
    simp only [recBytes, List.map_nil, List.sum_nil] at full
    omega
  | cons e es ih =>
    obtain ⟨rfl, -, -, -, hrest⟩ := data
    rw [recBytes_cons] at full
    intro hends
    cases hends with
    | unused _ hzero => exact used _ List.mem_cons_self hzero
    | used _ _ _ hnext =>
      exact ih hrest (fun e he => used e (List.mem_cons_of_mem _ he)) (by omega) hnext

end Lookup

/-- Over the bytes that `ext2ReadFile` has returned, `lookup` ends after at most as many iterations as the
directory has bytes, and accesses none outside, if and only if its records lead to an unused one inside it,
and reading the inodes on the way returns.  The size of the directory never stops the loop. -/
theorem lookup?_done_iff {hd : Ext2Disk} {inode : Inode} (directory : isDirectory inode = true)
    (groups : hd.sb.sInodesPerGroup ≠ 0) (disk : Drives) (fresh : Fresh) {mmap : Buf}
    (returns : ext2ReadFile disk hd inode fresh = some mmap) :
    (∃ childs, lookup? disk hd inode fresh inode.iSize.toNat = .done childs) ↔
      EndsUnused disk hd mmap inode.iSize.toNat 0 := by
  constructor
  · rintro ⟨childs, hdone⟩
    exact endsUnused_of_lookup? directory groups returns hdone
  · intro hends
    unfold lookup?
    rw [if_pos directory, returns]
    exact hends.done groups (UInt32.add_zero _) (by omega)

/-- An entry in use before an unused record. -/
theorem usedFirst_lookup? :
    ∃ mmap, ext2ReadFile usedFirst smallDisk dirInode zeroFresh = some mmap ∧
      ((∃ childs, lookup? usedFirst smallDisk dirInode zeroFresh dirInode.iSize.toNat = .done childs) ↔
        EndsUnused usedFirst smallDisk mmap dirInode.iSize.toNat 0) :=
  ⟨_, rfl, lookup?_done_iff (by decide) (by decide) usedFirst zeroFresh rfl⟩

/-- A directory of one record in use that takes up the whole block. -/
def fullDisk : Drives := dirDisk [3, 0, 0, 0, 0, 4, 1, 0, 97, 0, 0, 0]

/-- The loop goes on behind it. -/
theorem fullDisk_lookup? :
    ¬ ∀ (disk : Drives) (hd : Ext2Disk) (inode : Inode) (fresh : Fresh), isDirectory inode = true →
      hd.sb.sInodesPerGroup ≠ 0 → (∃ mmap, ext2ReadFile disk hd inode fresh = some mmap) →
      ∃ childs, lookup? disk hd inode fresh inode.iSize.toNat = .done childs := by
  intro hall
  have hdata : DirData 1024 (fileByte fullDisk smallDisk dirInode) 0 [⟨3, 1024, 1, 0, [97]⟩] :=
    ⟨by decide +kernel, by decide, by decide, by decide, trivial⟩
  obtain ⟨mmap, hmmap, hbytes⟩ := readsFile_of_dirData (by decide) (dirInode_exact _) hdata (by decide)
    zeroFresh
  obtain ⟨childs, hdone⟩ := hall fullDisk smallDisk dirInode zeroFresh (by decide) (by decide) ⟨mmap, hmmap⟩
  have hdata' : DirData 1024 mmap 0 [⟨3, 1024, 1, 0, [97]⟩] :=
    hdata.congr fun k _ hk => (hbytes k hk).symm
  exact not_endsUnused_of_full hdata' (by simp) (by decide)
    (endsUnused_of_lookup? (by decide) (by decide) hmmap hdone)

end Ext2
