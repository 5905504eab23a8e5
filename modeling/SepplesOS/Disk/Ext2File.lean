import SepplesOS.Disk.Ext2Inode

/-!
# Reading a file through its block map

`logicalBlock` is the block an inode addresses for a block of its file, through the direct entries
and the three index trees, and `fileByte` is the content of the file, holes reading as zeros.  The
loops of `ext2ReadFile` stop at the first null pointer of every table: they append the blocks at
the positions `visited`, one after the other.  Without holes these are the blocks of the file in
order; a hole moves everything behind it.
-/

namespace Ext2

open ATA IndexTree

section Spec

variable (disk : Drives) (hd : Ext2Disk) (inode : Inode)

/-- Block `b` of the partition. -/
def blockAt (b : UInt32) : Buf :=
  driveBytes disk hd.device (hd.part.startLba.toNat * 512 + b.toNat * hd.blocksize.toNat)

/-- Entry `i` of the block of pointers `b`. -/
def entryAt (b : UInt32) (i : ℕ) : UInt32 := pointer (blockAt disk hd b) i

/-- The block that holds logical block `k` of the file, or `0` for a hole. -/
def logicalBlock (k : ℕ) : UInt32 :=
  let N := perBlock hd
  if k < 12 then inode.block k
  else if k - 12 < N then slot (entryAt disk hd) N 1 (inode.block 12) (k - 12)
  else if k - 12 - N < N ^ 2 then slot (entryAt disk hd) N 2 (inode.block 13) (k - 12 - N)
  else if k - 12 - N - N ^ 2 < N ^ 3 then
    slot (entryAt disk hd) N 3 (inode.block 14) (k - 12 - N - N ^ 2)
  else 0

/-- Byte `k` of the file. -/
def fileByte (k : ℕ) : UInt8 :=
  let b := logicalBlock disk hd inode (k / hd.blocksize.toNat)
  if b = 0 then 0 else blockAt disk hd b (k % hd.blocksize.toNat)

/-- The blocks of the block map, with the number of levels of tables below them. -/
inductive InMap : ℕ → UInt32 → Prop
  | direct {i : ℕ} : i < 12 → InMap 0 (inode.block i)
  | indirect {d : ℕ} : d < 3 → InMap (d + 1) (inode.block (12 + d))
  | entry {d : ℕ} {b : UInt32} {i : ℕ} : InMap (d + 1) b → b ≠ 0 → i < perBlock hd →
      InMap d (entryAt disk hd b i)

/-- A read at an offset gives block `b`. -/
def ReadsBlock (offset : UInt64) (b : UInt32) : Prop :=
  ∀ blBuffer dest : Buf, ∃ buf, readBlock disk hd blBuffer offset dest = some buf ∧
    ∀ i < hd.blocksize.toNat, buf i = blockAt disk hd b i

/-- Reading a block of the block map gives the block with that number. -/
structure BlockReadsExact : Prop where
  read : ∀ d b, InMap disk hd inode d b → b ≠ 0 → ReadsBlock disk hd (blockOffset hd b) b
  read64 : inode.block 12 ≠ 0 →
    ReadsBlock disk hd (blockOffset64 hd (inode.block 12)) (inode.block 12)

/-- Every block that holds a byte of the file is mapped. -/
def NoHole : Prop :=
  ∀ k < inode.iSize.toNat, logicalBlock disk hd inode (k / hd.blocksize.toNat) ≠ 0

/-- No block is mapped at or behind the end of the file. -/
def NothingPastEnd : Prop :=
  ∀ b, inode.iSize.toNat ≤ b * hd.blocksize.toNat → logicalBlock disk hd inode b = 0

/-- `ext2ReadFile` returns, and its buffer starts with the first `n` bytes of the file. -/
def ReadsBytes (n : ℕ) (fresh : Fresh) : Prop :=
  ∃ buf, ext2ReadFile disk hd inode fresh = some buf ∧ ∀ k < n, buf k = fileByte disk hd inode k

/-- The buffer `ext2ReadFile` returns holds the file. -/
def ReadsFile (fresh : Fresh) : Prop := ReadsBytes disk hd inode inode.iSize.toNat fresh

end Spec

/-! ## Block offsets -/

theorem readBlock_ready {disk : Drives} {hd : Ext2Disk} {offset : UInt64} (ready : Ready disk hd)
    (pos : 0 < hd.blocksize.toNat) (small : offset.toNat + hd.blocksize.toNat ≤ 2 ^ 33)
    (blBuffer dest : Buf) :
    readBlock disk hd blBuffer offset dest =
      some (dest.memcpy 0 (driveBytes disk hd.device offset.toNat) hd.blocksize.toNat) := by
  have hcount : hd.blocksize.toUInt64.toNat = hd.blocksize.toNat := UInt32.toNat_toUInt64 _
  have hblocks : (blocks offset hd.blocksize.toUInt64).toNat =
      lastSector offset hd.blocksize.toUInt64 - firstSector offset + 1 :=
    blocks_toNat (by rw [hcount]; omega) (by rw [hcount]; omega)
  have haccepted : ¬Refused hd.device offset hd.blocksize.toUInt64 := by
    rintro (hdevice | ⟨j, hj, hlarge⟩)
    · exact absurd ready.device (not_le.2 hdevice)
    · rw [hblocks] at hj
      unfold lastSector firstSector at hj
      rw [hcount] at hj
      have hsmall := (toInt_lt_iff (offset.toNat / 512 + j)).2 (Or.inl (by omega))
      exact absurd hlarge (not_le.2 hsmall)
  have hstatus : readStatus disk hd.device offset hd.blocksize.toUInt64 = some true :=
    readStatus_ready haccepted fun j _ => ready.attempt _
  have hcopy : dest.memcpy 0 (sectorBytes disk hd.device offset) hd.blocksize.toNat =
      dest.memcpy 0 (driveBytes disk hd.device offset.toNat) hd.blocksize.toNat := by
    funext i
    unfold Buf.memcpy
    split_ifs with hi
    · exact sectorBytes_eq (by omega)
    · rfl
  rw [readBlock, diskRead, diskRead_spec (by rw [hcount]; omega), hstatus, hcount, ← hcopy]
  rfl

theorem readsBlock_of_ready {disk : Drives} {hd : Ext2Disk} {b : UInt32} {offset : UInt64}
    (ready : Ready disk hd) (pos : 0 < hd.blocksize.toNat)
    (exact : offset.toNat = hd.part.startLba.toNat * 512 + b.toNat * hd.blocksize.toNat)
    (small : offset.toNat + hd.blocksize.toNat ≤ 2 ^ 33) : ReadsBlock disk hd offset b := by
  intro blBuffer dest
  refine ⟨_, readBlock_ready ready pos small blBuffer dest, fun i hi => ?_⟩
  unfold Buf.memcpy
  rw [if_pos (by omega), Nat.sub_zero, exact]
  rfl

/-! ## Appending blocks to the result -/

section Append

variable {bs : ℕ}

theorem FileBuf.append_congr (st : FileBuf) {b₁ b₂ : Buf} (h : ∀ i < bs, b₁ i = b₂ i) :
    st.append bs b₁ = st.append bs b₂ := by
  have hmem : ∀ n ≤ bs, st.mmapBase.memcpy st.mmapHead b₁ n =
      st.mmapBase.memcpy st.mmapHead b₂ n := by
    intro n hn
    funext k
    unfold Buf.memcpy
    split_ifs with hk
    · exact h _ (by omega)
    · rfl
  unfold FileBuf.append
  simp only
  rw [hmem]
  split_ifs <;> omega

theorem foldl_append_outside (L : List Buf) (st : FileBuf) {k : ℕ}
    (hk : k < st.mmapHead ∨ st.mmapHead + L.length * bs ≤ k) :
    (L.foldl (fun st b => st.append bs b) st).mmapBase k = st.mmapBase k := by
  induction L generalizing st with
  | nil => rfl
  | cons b L ih =>
    rw [List.length_cons, Nat.succ_mul] at hk
    have hn : (if st.size > bs then bs else st.size) ≤ bs := by split_ifs <;> omega
    rw [List.foldl_cons, ih]
    · simp only [FileBuf.append, Buf.memcpy]
      rw [if_neg (by omega)]
    · simp only [FileBuf.append]
      omega

/-- Block `j` of the appended blocks is found `j` blocks behind the head, as far as the size
goes. -/
theorem foldl_append_at (L : List Buf) (st : FileBuf) {j r : ℕ} (hj : j < L.length) (hr : r < bs)
    (hsize : j * bs + r < st.size) :
    (L.foldl (fun st b => st.append bs b) st).mmapBase (st.mmapHead + (j * bs + r)) =
      L[j] r := by
  induction L generalizing st j with
  | nil => simp at hj
  | cons b L ih =>
    rw [List.foldl_cons]
    cases j with
    | zero =>
      rw [Nat.zero_mul, Nat.zero_add] at hsize ⊢
      have hn : r < (if st.size > bs then bs else st.size) := by split_ifs <;> omega
      rcases Nat.lt_or_ge bs st.size with hbig | hsmall
      · rw [foldl_append_outside]
        · simp only [FileBuf.append, Buf.memcpy]
          rw [if_pos (by omega), Nat.add_sub_cancel_left]
          rfl
        · left
          simp only [FileBuf.append, gt_iff_lt, if_pos hbig]
          omega
      · rw [foldl_append_outside]
        · simp only [FileBuf.append, Buf.memcpy]
          rw [if_pos (by omega), Nat.add_sub_cancel_left]
          rfl
        · left
          simp only [FileBuf.append, gt_iff_lt, if_neg (not_lt.2 hsmall)]
          omega
    | succ j =>
      rw [Nat.succ_mul] at hsize ⊢
      have hbig : bs < st.size := by omega
      have := ih (st.append bs b) (j := j) (by simpa using hj)
        (by simp only [FileBuf.append, gt_iff_lt, if_pos hbig]; omega)
      simp only [FileBuf.append, gt_iff_lt, if_pos hbig] at this
      rw [List.getElem_cons_succ, ← this]
      simp only [FileBuf.append, gt_iff_lt, if_pos hbig]
      congr 1
      omega

end Append

/-! ## The blocks the loops visit -/

section Visited

variable (disk : Drives) (hd : Ext2Disk) (inode : Inode)

/-- The first logical block addressed through the tables of depth `d`. -/
def treeStart : ℕ → ℕ
  | 0 => 12
  | d + 1 => treeStart d + perBlock hd ^ (d + 1)

/-- The logical blocks visited below `iBlock[12 + d]`, through `d + 1` tables. -/
def visitedBelow (d : ℕ) : List ℕ :=
  if inode.block (12 + d) ≠ 0 then
    (visit (entryAt disk hd) (perBlock hd) (d + 1) (inode.block (12 + d))).map (treeStart hd d + ·)
  else []

/-- The logical blocks `ext2ReadFile` visits, in order. -/
def visited : List ℕ :=
  nonzeroIdx inode.block 12 ++ visitedBelow disk hd inode 0 ++ visitedBelow disk hd inode 1 ++
    visitedBelow disk hd inode 2

theorem logicalBlock_direct {k : ℕ} (hk : k < 12) :
    logicalBlock disk hd inode k = inode.block k := by
  simp [logicalBlock, hk]

theorem logicalBlock_below {d k : ℕ} (hd3 : d < 3) (hk : k < perBlock hd ^ (d + 1)) :
    logicalBlock disk hd inode (treeStart hd d + k) =
      slot (entryAt disk hd) (perBlock hd) (d + 1) (inode.block (12 + d)) k := by
  obtain ⟨n, hn⟩ : ∃ n, n = treeStart hd d + k := ⟨_, rfl⟩
  rw [← hn, logicalBlock]
  obtain rfl | rfl | rfl : d = 0 ∨ d = 1 ∨ d = 2 := by omega
  all_goals simp only [treeStart, zero_add, pow_one, Nat.reduceAdd] at hk hn ⊢
  · rw [if_neg (by omega), if_pos (by omega)]
    congr 1
    omega
  · rw [if_neg (by omega), if_neg (by omega), if_pos (by omega)]
    congr 1
    omega
  · rw [if_neg (by omega), if_neg (by omega), if_neg (by omega), if_pos (by omega)]
    congr 1
    omega

theorem direct_or_below_of_ne_zero {k : ℕ} (h : logicalBlock disk hd inode k ≠ 0) :
    k < 12 ∨ ∃ d < 3, ∃ j < perBlock hd ^ (d + 1), k = treeStart hd d + j := by
  by_contra hno
  simp only [not_or, not_exists, not_and] at hno
  obtain ⟨h12, hbelow⟩ := hno
  have h0 := fun j hj => hbelow 0 (by omega) j hj
  have h1 := fun j hj => hbelow 1 (by omega) j hj
  have h2 := fun j hj => hbelow 2 (by omega) j hj
  simp only [treeStart, zero_add, pow_one, Nat.reduceAdd] at h0 h1 h2
  refine h ?_
  unfold logicalBlock
  simp only
  rw [if_neg h12, if_neg fun hlt => h0 _ hlt (by omega), if_neg fun hlt => h1 _ hlt ?_,
    if_neg fun hlt => h2 _ hlt ?_]
  all_goals
    have := h0 (k - 12)
    have := h1 (k - 12 - perBlock hd)
    omega

theorem mem_visitedBelow {d k : ℕ} :
    k ∈ visitedBelow disk hd inode d ↔
      inode.block (12 + d) ≠ 0 ∧
        ∃ j ∈ visit (entryAt disk hd) (perBlock hd) (d + 1) (inode.block (12 + d)),
          treeStart hd d + j = k := by
  unfold visitedBelow
  split_ifs with h
  · simp [h]
  · simp [not_not.1 h]

theorem bounds_of_mem_visitedBelow {d k : ℕ} (h : k ∈ visitedBelow disk hd inode d) :
    treeStart hd d ≤ k ∧ k < treeStart hd (d + 1) := by
  obtain ⟨-, j, hj, rfl⟩ := (mem_visitedBelow disk hd inode).1 h
  have := lt_of_mem_visit _ _ hj
  rw [treeStart]
  omega

theorem visitedBelow_pairwise (d : ℕ) : (visitedBelow disk hd inode d).Pairwise (· < ·) := by
  unfold visitedBelow
  split_ifs
  · rw [List.pairwise_map]
    exact (visit_pairwise _ _ _ _).imp fun h => Nat.add_lt_add_left h _
  · exact List.Pairwise.nil

theorem mem_visited {k : ℕ} :
    k ∈ visited disk hd inode ↔
      k ∈ nonzeroIdx inode.block 12 ∨ ∃ d < 3, k ∈ visitedBelow disk hd inode d := by
  simp only [visited, List.mem_append, or_assoc]
  refine or_congr_right ⟨?_, ?_⟩
  · rintro (h | h | h)
    exacts [⟨0, by omega, h⟩, ⟨1, by omega, h⟩, ⟨2, by omega, h⟩]
  · rintro ⟨d, hd3, h⟩
    obtain rfl | rfl | rfl : d = 0 ∨ d = 1 ∨ d = 2 := by omega
    exacts [.inl h, .inr (.inl h), .inr (.inr h)]

theorem visited_pairwise : (visited disk hd inode).Pairwise (· < ·) := by
  have hdirect : ∀ k ∈ nonzeroIdx inode.block 12, k < treeStart hd 0 := fun k hk =>
    (mem_nonzeroIdx.1 hk).1
  have hmono : treeStart hd 0 ≤ treeStart hd 1 ∧ treeStart hd 1 ≤ treeStart hd 2 := by
    simp only [treeStart]
    omega
  simp only [visited, List.pairwise_append, List.mem_append]
  refine ⟨⟨⟨nonzeroIdx_pairwise _ _, visitedBelow_pairwise _ _ _ _, fun a ha b hb => ?_⟩,
    visitedBelow_pairwise _ _ _ _, ?_⟩, visitedBelow_pairwise _ _ _ _, ?_⟩
  · exact (hdirect a ha).trans_le (bounds_of_mem_visitedBelow _ _ _ hb).1
  · rintro a (ha | ha) b hb
    · exact (hdirect a ha).trans_le (hmono.1.trans (bounds_of_mem_visitedBelow _ _ _ hb).1)
    · exact (bounds_of_mem_visitedBelow _ _ _ ha).2.trans_le
        (bounds_of_mem_visitedBelow _ _ _ hb).1
  · rintro a ((ha | ha) | ha) b hb
    · exact (hdirect a ha).trans_le
        ((hmono.1.trans hmono.2).trans (bounds_of_mem_visitedBelow _ _ _ hb).1)
    · exact (bounds_of_mem_visitedBelow _ _ _ ha).2.trans_le
        (hmono.2.trans (bounds_of_mem_visitedBelow _ _ _ hb).1)
    · exact (bounds_of_mem_visitedBelow _ _ _ ha).2.trans_le
        (bounds_of_mem_visitedBelow _ _ _ hb).1

theorem logicalBlock_ne_zero_of_mem_visited {k : ℕ} (h : k ∈ visited disk hd inode) :
    logicalBlock disk hd inode k ≠ 0 := by
  rcases (mem_visited disk hd inode).1 h with hk | ⟨d, hd3, hk⟩
  · obtain ⟨hlt, hne⟩ := mem_nonzeroIdx.1 hk
    rw [logicalBlock_direct disk hd inode hlt]
    exact hne k le_rfl
  · obtain ⟨hroot, j, hj, rfl⟩ := (mem_visitedBelow disk hd inode).1 hk
    rw [logicalBlock_below disk hd inode hd3 (lt_of_mem_visit _ _ hj)]
    exact slot_ne_zero_of_mem_visit _ _ hroot hj

/-- The loops reach a logical block when no block up to it is a hole. -/
theorem mem_visited_of_no_hole {k : ℕ} (h : ∀ j ≤ k, logicalBlock disk hd inode j ≠ 0) :
    k ∈ visited disk hd inode := by
  refine (mem_visited disk hd inode).2 ?_
  rcases direct_or_below_of_ne_zero disk hd inode (h k le_rfl) with hk | ⟨d, hd3, j, hj, rfl⟩
  · refine Or.inl (mem_nonzeroIdx.2 ⟨hk, fun i hi => ?_⟩)
    rw [← logicalBlock_direct disk hd inode (by omega)]
    exact h i hi
  · have hslot : ∀ i ≤ j, slot (entryAt disk hd) (perBlock hd) (d + 1) (inode.block (12 + d)) i ≠ 0 :=
      fun i hi => by
        rw [← logicalBlock_below disk hd inode hd3 (by omega)]
        exact h _ (by omega)
    refine Or.inr ⟨d, hd3, (mem_visitedBelow disk hd inode).2 ⟨fun h0 => ?_, j, ?_, rfl⟩⟩
    · exact hslot 0 (Nat.zero_le _) (by rw [h0, slot_zero])
    · exact mem_visit _ _ hj hslot

end Visited

/-! ## The loops fold over the visited blocks -/

section Fold

variable (disk : Drives) (hd : Ext2Disk) (inode : Inode)

/-- The body of the innermost loops with an exact block read. -/
def appendBlock (b : UInt32) (st : FileBuf) : FileBuf :=
  st.append hd.blocksize.toNat (blockAt disk hd b)

variable {disk hd inode}

theorem pointer_congr {p₁ p₂ : Buf} {n i : ℕ} (h : ∀ i < n, p₁ i = p₂ i) (hi : i < n / 4) :
    pointer p₁ i = pointer p₂ i :=
  Buf.u32_congr fun j hj => h _ (by omega)

/-- The loops below a block, with a buffer for each level of tables. -/
def scanTree (disk : Drives) (hd : Ext2Disk) (blBuffer : Buf) : List Table → UInt32 → Buffers → Option Buffers
  | [], b => readData disk hd blBuffer b
  | t :: ts, b => scanTable disk hd blBuffer t (blockOffset hd b) (scanTree disk hd blBuffer ts)

theorem readData_follows {b : UInt32} (reads : ReadsBlock disk hd (blockOffset hd b) b) (blBuffer : Buf)
    (st : Buffers) : ∃ st', readData disk hd blBuffer b st = some st' ∧
      st'.file = appendBlock disk hd b st.file := by
  obtain ⟨buf, hread, hbytes⟩ := reads blBuffer st.buf
  refine ⟨{ st with buf := buf, file := st.file.append hd.blocksize.toNat buf }, ?_, ?_⟩
  · rw [readData, hread]
    rfl
  · exact FileBuf.append_congr st.file hbytes

theorem scanTable_follows {b : UInt32} {offset : UInt64} (reads : ReadsBlock disk hd offset b)
    (blBuffer : Buf) (t : Table) {body : UInt32 → Buffers → Option Buffers}
    {plain : UInt32 → FileBuf → FileBuf}
    (step : ∀ i < perBlock hd, entryAt disk hd b i ≠ 0 → ∀ st, ∃ st',
      body (entryAt disk hd b i) st = some st' ∧ st'.file = plain (entryAt disk hd b i) st.file)
    (st : Buffers) : ∃ st', scanTable disk hd blBuffer t offset body st = some st' ∧
      st'.file = forNonzero (entryAt disk hd b) plain (perBlock hd) 0 st.file := by
  obtain ⟨p, hread, hbytes⟩ := reads blBuffer (st.tables t)
  have hentry : ∀ i < 0 + perBlock hd, pointer p i = entryAt disk hd b i := fun i hi =>
    pointer_congr hbytes (by rw [Nat.zero_add] at hi; exact hi)
  have hloop : ∃ st', forNonzeroM (fun i => some (pointer p i)) body (perBlock hd) 0
        { st with tables := Function.update st.tables t p } = some st' ∧
      st'.file = forNonzero (pointer p) plain (perBlock hd) 0 st.file := by
    apply forNonzeroM_simulates (R := fun (st : Buffers) file => st.file = file)
    · rintro i hi hne st _ rfl
      rw [hentry i hi] at hne ⊢
      exact step i (by rwa [Nat.zero_add] at hi) hne st
    · rfl
  rw [forNonzero_congr hentry fun _ _ _ => rfl] at hloop
  rw [scanTable, hread]
  exact hloop

theorem scanTree_follows (hexact : BlockReadsExact disk hd inode) (blBuffer : Buf) (ts : List Table)
    {b : UInt32} (hmap : InMap disk hd inode ts.length b) (hne : b ≠ 0) (st : Buffers) :
    ∃ st', scanTree disk hd blBuffer ts b st = some st' ∧
      st'.file = scan (entryAt disk hd) (perBlock hd) (appendBlock disk hd) ts.length b st.file := by
  induction ts generalizing b st with
  | nil => exact readData_follows (hexact.read 0 b hmap hne) blBuffer st
  | cons t ts ih =>
    apply scanTable_follows (hexact.read _ b hmap hne) blBuffer t
    intro i hi hentry st
    exact ih (hmap.entry hne hi) hentry st

theorem scanRoot_follows (hexact : BlockReadsExact disk hd inode) (blBuffer : Buf) (t : Table)
    (ts : List Table) (hd3 : ts.length < 3) {offset : UInt64}
    (reads : inode.block (12 + ts.length) ≠ 0 → ReadsBlock disk hd offset (inode.block (12 + ts.length)))
    (st : Buffers) :
    ∃ st', (if inode.block (12 + ts.length) ≠ 0 then
        scanTable disk hd blBuffer t offset (scanTree disk hd blBuffer ts) st else some st) = some st' ∧
      st'.file = (visitedBelow disk hd inode ts.length).foldl
        (fun st k => appendBlock disk hd (logicalBlock disk hd inode k) st) st.file := by
  by_cases hroot : inode.block (12 + ts.length) = 0
  · simp [visitedBelow, hroot]
  · obtain ⟨st', hrun, hst'⟩ := scanTable_follows (reads hroot) blBuffer t
      (fun i hi hne st => scanTree_follows hexact blBuffer ts
        ((InMap.indirect hd3).entry hroot hi) hne st) st
    refine ⟨st', by rw [if_pos hroot, hrun], ?_⟩
    rw [hst', ← scan, scan_eq_foldl _ _ _ _ hroot, visitedBelow, if_pos hroot, List.foldl_map]
    refine List.foldl_ext _ _ _ fun st k hk => ?_
    rw [logicalBlock_below disk hd inode hd3 (lt_of_mem_visit _ _ hk)]

/-- `ext2ReadFile` returns, and has appended the visited blocks. -/
theorem ext2ReadFile_eq_foldl (hexact : BlockReadsExact disk hd inode) (fresh : Fresh) :
    ext2ReadFile disk hd inode fresh =
      some ((visited disk hd inode).foldl
        (fun st k => appendBlock disk hd (logicalBlock disk hd inode k) st)
        ⟨fresh.mmap, 0, inode.iSize.toNat⟩).mmapBase := by
  obtain ⟨st₀, hrun₀, hst₀⟩ : ∃ st', forNonzeroM (fun i => some (inode.block i))
        (readData disk hd fresh.blBuffer) 12 0
        ⟨fresh.buf, fresh.tables, ⟨fresh.mmap, 0, inode.iSize.toNat⟩⟩ = some st' ∧
      st'.file = (nonzeroIdx inode.block 12).foldl
        (fun st k => appendBlock disk hd (logicalBlock disk hd inode k) st)
        ⟨fresh.mmap, 0, inode.iSize.toNat⟩ := by
    obtain ⟨st', hrun, hst'⟩ : ∃ st', forNonzeroM (fun i => some (inode.block i))
          (readData disk hd fresh.blBuffer) 12 0
          ⟨fresh.buf, fresh.tables, ⟨fresh.mmap, 0, inode.iSize.toNat⟩⟩ = some st' ∧
        st'.file = forNonzero inode.block (appendBlock disk hd) 12 0
          ⟨fresh.mmap, 0, inode.iSize.toNat⟩ := by
      apply forNonzeroM_simulates (R := fun (st : Buffers) file => st.file = file)
      · rintro i hi hne st _ rfl
        exact readData_follows (hexact.read 0 _ (InMap.direct (by omega)) hne) fresh.blBuffer st
      · rfl
    refine ⟨st', hrun, ?_⟩
    rw [hst', forNonzero_eq_foldl]
    refine List.foldl_ext _ _ _ fun st k hk => ?_
    rw [logicalBlock_direct disk hd inode (mem_nonzeroIdx.1 hk).1]
  -- the three trees, each over what the loops before it leave
  obtain ⟨st₁, hrun₁, hst₁⟩ := scanRoot_follows hexact fresh.blBuffer .p [] (by decide) hexact.read64 st₀
  obtain ⟨st₂, hrun₂, hst₂⟩ := scanRoot_follows hexact fresh.blBuffer .p [.pp] (by decide)
    (hexact.read _ _ (InMap.indirect (by decide))) st₁
  obtain ⟨st₃, hrun₃, hst₃⟩ := scanRoot_follows hexact fresh.blBuffer .p [.pp, .ppp] (by decide)
    (hexact.read _ _ (InMap.indirect (by decide))) st₂
  have hbind : ∀ {x : Option Buffers} {st : Buffers} {f : Buffers → Option Buffers}, x = some st →
      x >>= f = f st := by
    rintro _ _ _ rfl
    rfl
  have hrun : readLoops disk hd inode fresh = some st₃ :=
    (hbind hrun₀).trans ((hbind hrun₁).trans ((hbind hrun₂).trans hrun₃))
  rw [ext2ReadFile, hrun, Option.map_some, hst₃, hst₂, hst₁, hst₀]
  simp only [visited, List.foldl_append]
  rfl

/-- The block appended at position `j` of the result is the `j`-th visited one, and behind the visited
blocks the result keeps what it held. -/
theorem ext2ReadFile_spec (hexact : BlockReadsExact disk hd inode) (fresh : Fresh) :
    ∃ buf, ext2ReadFile disk hd inode fresh = some buf ∧
      (∀ j b r, (visited disk hd inode)[j]? = some b → r < hd.blocksize.toNat →
        j * hd.blocksize.toNat + r < inode.iSize.toNat →
        buf (j * hd.blocksize.toNat + r) = blockAt disk hd (logicalBlock disk hd inode b) r) ∧
      ∀ k, (visited disk hd inode).length * hd.blocksize.toNat ≤ k → buf k = fresh.mmap k := by
  refine ⟨_, ext2ReadFile_eq_foldl hexact fresh, fun j b r hj hr hsize => ?_, fun k hk => ?_⟩
  · obtain ⟨hlt, hget⟩ := List.getElem?_eq_some_iff.1 hj
    have hat := foldl_append_at
      ((visited disk hd inode).map fun k => blockAt disk hd (logicalBlock disk hd inode k))
      ⟨fresh.mmap, 0, inode.iSize.toNat⟩ (j := j) (by simpa using hlt) hr hsize
    rw [List.foldl_map, Nat.zero_add, List.getElem_map, hget] at hat
    exact hat
  · have hk' : 0 + ((visited disk hd inode).map fun k =>
        blockAt disk hd (logicalBlock disk hd inode k)).length * hd.blocksize.toNat ≤ k := by
      simpa using hk
    have houtside := foldl_append_outside _ ⟨fresh.mmap, 0, inode.iSize.toNat⟩ (Or.inr hk')
    rw [List.foldl_map] at houtside
    exact houtside

end Fold

/-! ## When the file is read correctly -/

section Correct

variable {disk : Drives} {hd : Ext2Disk} {inode : Inode}

theorem logicalBlock_ne_zero_of_noHole (hbs : 0 < hd.blocksize.toNat)
    (hno : NoHole disk hd inode) {b : ℕ} (hb : b * hd.blocksize.toNat < inode.iSize.toNat) :
    logicalBlock disk hd inode b ≠ 0 := by
  have := hno _ hb
  rwa [Nat.mul_div_cancel _ hbs] at this

theorem visited_of_noHole (hbs : 0 < hd.blocksize.toNat) (hno : NoHole disk hd inode) {b : ℕ}
    (hb : b * hd.blocksize.toNat < inode.iSize.toNat) :
    (visited disk hd inode)[b]? = some b := by
  have hmem : ∀ j, 0 ≤ j → j < 0 + (b + 1) → j ∈ visited disk hd inode := fun j _ hj =>
    mem_visited_of_no_hole disk hd inode fun i hi =>
      logicalBlock_ne_zero_of_noHole hbs hno
        (lt_of_le_of_lt (Nat.mul_le_mul_right _ (by omega)) hb)
  simpa using getElem?_of_pairwise_lt (visited_pairwise disk hd inode) (fun k _ => Nat.zero_le k)
    hmem (Nat.lt_succ_self b)

theorem readsFile_of_noHole (hbs : 0 < hd.blocksize.toNat)
    (hexact : BlockReadsExact disk hd inode) (hno : NoHole disk hd inode) (fresh : Fresh) :
    ReadsFile disk hd inode fresh := by
  obtain ⟨buf, hread, hat, -⟩ := ext2ReadFile_spec hexact fresh
  refine ⟨buf, hread, fun k hk => ?_⟩
  have hdiv : k / hd.blocksize.toNat * hd.blocksize.toNat + k % hd.blocksize.toNat = k :=
    Nat.div_add_mod' k _
  have hb : k / hd.blocksize.toNat * hd.blocksize.toNat < inode.iSize.toNat :=
    lt_of_le_of_lt (Nat.div_mul_le_self k _) hk
  have hbyte := hat _ _ _ (visited_of_noHole hbs hno hb) (Nat.mod_lt k hbs) (by rw [hdiv]; exact hk)
  rw [hdiv] at hbyte
  rw [hbyte, fileByte]
  exact (if_neg (hno k hk)).symm

/-- With a hole in the file, and nothing mapped behind it, too few blocks are read. -/
theorem length_visited_lt (hbs : 0 < hd.blocksize.toNat) (hpast : NothingPastEnd disk hd inode)
    {k : ℕ} (hk : k < inode.iSize.toNat)
    (hhole : logicalBlock disk hd inode (k / hd.blocksize.toNat) = 0) :
    (visited disk hd inode).length * hd.blocksize.toNat < inode.iSize.toNat := by
  have hlt : ∀ b ∈ visited disk hd inode, b < (inode.iSize.toNat - 1) / hd.blocksize.toNat + 1 := by
    intro b hb
    have hne := logicalBlock_ne_zero_of_mem_visited disk hd inode hb
    have hsize : b * hd.blocksize.toNat < inode.iSize.toNat := not_le.1 fun h => hne (hpast b h)
    exact Nat.lt_succ_of_le ((Nat.le_div_iff_mul_le hbs).2 (by omega))
  have hk' : k / hd.blocksize.toNat < (inode.iSize.toNat - 1) / hd.blocksize.toNat + 1 :=
    Nat.lt_succ_of_le (Nat.div_le_div_right (by omega))
  have hmiss : k / hd.blocksize.toNat ∉ visited disk hd inode := fun h =>
    logicalBlock_ne_zero_of_mem_visited disk hd inode h hhole
  have hlen := length_lt_of_pairwise_lt (visited_pairwise disk hd inode) hlt hk' hmiss
  have := (Nat.le_div_iff_mul_le hbs).1 (Nat.le_of_lt_succ hlen)
  omega

/-- `ext2ReadFile` returns the file when it has no hole; and a file with a hole, with nothing
mapped behind its end, is not returned whatever the fresh buffer held. -/
theorem ext2ReadFile_readsFile_iff (disk : Drives) (hd : Ext2Disk) (inode : Inode)
    (hbs : 0 < hd.blocksize.toNat) (hexact : BlockReadsExact disk hd inode) :
    (NoHole disk hd inode → ∀ fresh, ReadsFile disk hd inode fresh) ∧
      (NothingPastEnd disk hd inode →
        ((∀ fresh, ReadsFile disk hd inode fresh) ↔ NoHole disk hd inode)) := by
  refine ⟨fun hno fresh => readsFile_of_noHole hbs hexact hno fresh, fun hpast =>
    ⟨fun hread k hk hhole => ?_, fun hno fresh => readsFile_of_noHole hbs hexact hno fresh⟩⟩
  have hlt := length_visited_lt hbs hpast hk hhole
  obtain ⟨v, hv⟩ : ∃ v, v = (visited disk hd inode).length * hd.blocksize.toNat := ⟨_, rfl⟩
  -- the first byte behind the visited blocks is whatever the result held there
  let fresh : Fresh :=
    ⟨fun _ => 0, fun _ _ => 0, fun _ => fileByte disk hd inode v + 1, fun _ _ => 0, fun _ => 0⟩
  obtain ⟨buf, hbuf, -, hbehind⟩ := ext2ReadFile_spec hexact fresh
  obtain ⟨buf', hbuf', hbytes⟩ := hread fresh
  obtain rfl := Option.some.inj (hbuf.symm.trans hbuf')
  have hbad := hbytes v (hv ▸ hlt)
  rw [hbehind v hv.ge] at hbad
  simp [fresh] at hbad

end Correct

/-! ## A sparse file -/

/-- An inode with the given mode, size and block map. -/
def inodeOf (iMode : UInt16) (iSize : UInt32) (iBlock : Fin 15 → UInt32) : Inode where
  iMode := iMode
  iUid := 0
  iSize := iSize
  iAtime := 0
  iCtime := 0
  iMtime := 0
  iDtime := 0
  iGid := 0
  iLinksCount := 1
  iBlocks := 0
  iFlags := 0
  iOsd1 := 0
  iBlock := iBlock
  iGeneration := 0
  iFileAcl := 0
  iDirAcl := 0
  iFAddr := 0
  iOsd2 := []

/-- A partition at the start of the drive, with blocks of 1 KiB and one group of inodes. -/
def smallDisk : Ext2Disk where
  device := 0
  part := ⟨0, 0⟩
  sb := ⟨8, 8192, 0, 8192, 8, 0xef53, 128, 0⟩
  blocksize := 1024
  groups := 1
  gd i := if i < 1 then some ⟨5⟩ else none
  descriptors i hi := by
    rw [if_pos (show i < 1 from hi)]
    rfl

/-- A drive with the given bytes that is always ready. -/
def readyDrive (bytes : ℕ → UInt8) : Drives where
  sector _ s i := bytes (512 * s + i)
  attempt _ _ _ := .ready

/-- New memory full of zeros. -/
def zeroFresh : Fresh := ⟨fun _ => 0, fun _ _ => 0, fun _ => 0, fun _ _ => 0, fun _ => 0⟩

theorem InMap.direct_only {disk : Drives} {hd : Ext2Disk} {inode : Inode} {d : ℕ} {b : UInt32}
    (direct : ∀ d < 3, inode.block (12 + d) = 0) (hmap : InMap disk hd inode d b) (hne : b ≠ 0) :
    d = 0 ∧ ∃ i < 12, b = inode.block i := by
  induction hmap with
  | direct hi => exact ⟨rfl, _, hi, rfl⟩
  | indirect hd3 => exact absurd (direct _ hd3) hne
  | entry _ hb _ ih => exact absurd (ih hb).1 (Nat.succ_ne_zero _)

theorem blockReadsExact_direct {inode : Inode} (bytes : ℕ → UInt8)
    (direct : ∀ d < 3, inode.block (12 + d) = 0) (near : ∀ i < 12, (inode.block i).toNat < 2 ^ 20) :
    BlockReadsExact (readyDrive bytes) smallDisk inode where
  read d b hmap hne := by
    obtain ⟨-, i, hi, rfl⟩ := hmap.direct_only direct hne
    have hnear := near i hi
    have hoffset : (blockOffset smallDisk (inode.block i)).toNat = (inode.block i).toNat * 1024 := by
      have hstart : smallDisk.part.startLba * 512 = 0 := by decide
      unfold blockOffset
      rw [hstart, UInt64.zero_add, UInt32.toNat_toUInt64, UInt32.toNat_mul]
      exact Nat.mod_eq_of_lt (by rw [show smallDisk.blocksize.toNat = 1024 from rfl]; omega)
    apply readsBlock_of_ready ⟨by decide, fun _ => rfl⟩ (by decide)
    · rw [hoffset]
      exact (Nat.zero_add _).symm
    · rw [hoffset, show smallDisk.blocksize.toNat = 1024 from rfl]
      omega
  read64 hne := absurd (direct 0 (by decide)) hne

/-- The inode of a file of two blocks, both mapped. -/
def twoBlocks : Inode := inodeOf 0x8000 2048 fun i => if i < 2 then 7 else 0

/-- The inode of a file of two blocks, the first of them a hole. -/
def holeFirst : Inode := inodeOf 0x8000 2048 fun i => if i = 1 then 7 else 0

theorem noHole_twoBlocks (disk : Drives) : NoHole disk smallDisk twoBlocks := by
  intro k hk
  have hlt : k / smallDisk.blocksize.toNat < 2 := Nat.div_lt_of_lt_mul hk
  rw [logicalBlock_direct _ _ _ (by omega)]
  generalize k / smallDisk.blocksize.toNat = b at hlt
  obtain rfl | rfl : b = 0 ∨ b = 1 := by omega
  all_goals decide

/-- A file of two mapped blocks is read whole. -/
theorem readsFile_twoBlocks : ReadsFile (readyDrive fun _ => 1) smallDisk twoBlocks zeroFresh :=
  (ext2ReadFile_readsFile_iff _ smallDisk twoBlocks (by decide)
    (blockReadsExact_direct _ (by decide) (by decide))).1 (noHole_twoBlocks _) _

/-- A file whose first block is a hole: byte 1024, the first of the second block, is `1` on the
drive, and the result holds whatever the fresh buffer did. -/
theorem not_readsFile_sparse :
    BlockReadsExact (readyDrive fun _ => 1) smallDisk holeFirst ∧
      ¬ReadsFile (readyDrive fun _ => 1) smallDisk holeFirst zeroFresh := by
  have hexact : BlockReadsExact (readyDrive fun _ => 1) smallDisk holeFirst :=
    blockReadsExact_direct _ (by decide) (by decide)
  refine ⟨hexact, ?_⟩
  rintro ⟨buf, hread, hbytes⟩
  obtain ⟨buf', hread', -, hbehind⟩ := ext2ReadFile_spec hexact zeroFresh
  obtain rfl := Option.some.inj (hread.symm.trans hread')
  have hbyte := hbytes 1024 (by decide)
  rw [hbehind 1024 (by decide)] at hbyte
  exact absurd hbyte (by decide)

end Ext2
