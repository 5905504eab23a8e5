import SepplesOS.Lib.Bytes
import SepplesOS.Lib.Run
import SepplesOS.Mm.KernelPages

/-!
# The kernel heap

`kernel/mm/malloc.cpp`.  The chunks lie one behind the other from `firstChunk` to `endOfChunks`, each
behind a header of eight bytes; pages that others have mapped in between are wrapped in a chunk that
is not ours.  Memory is the bytes of the kernel's address space.

A call that ends in `fatalError` or `halt` halts with the heap as it is then, and a loop may run out
of fuel.  `mallocReady` is only false while a call is running, and calls do not nest; so it is tested
and never changed.
-/

/-! ## Chunk headers -/

/-- `ChunkHeader`. -/
structure ChunkHeader where
  size : ℕ
  magic : ℕ
  used : Bool
  notOurs : Bool
deriving DecidableEq

/-- `sizeof(ChunkHeader)`. -/
def HEADER_SIZE : ℕ := 8

/-- `magic`. -/
def MAGIC : ℕ := 0x2B4F

/-- `MALLOC_MINSIZE`. -/
def MALLOC_MINSIZE : ℕ := 0x20

namespace ChunkHeader

/-- The bit fields in a word. -/
def toWord (h : ChunkHeader) : ℕ :=
  h.size % 2 ^ 48 + 2 ^ 48 * (h.magic % 2 ^ 14) + 2 ^ 62 * h.used.toNat + 2 ^ 63 * h.notOurs.toNat

/-- The bit fields of a word. -/
def ofWord (w : ℕ) : ChunkHeader where
  size := w % 2 ^ 48
  magic := w / 2 ^ 48 % 2 ^ 14
  used := w / 2 ^ 62 % 2 = 1
  notOurs := w / 2 ^ 63 % 2 = 1

end ChunkHeader

/-- The difference of two `u64`. -/
def sub64 (a b : ℕ) : ℕ := (a + 2 ^ 64 - b) % 2 ^ 64

/-! ## The allocator -/

/-- The kernel's memory and pages, and the variables of `Malloc`. -/
structure Malloc where
  mem : Buf
  pages : KernelPages
  firstChunk : ℕ
  endOfChunks : ℕ
  totalMemUsed : UInt64
  totalMemAllocated : UInt64
  mallocReady : Bool

namespace Malloc

variable (m : Malloc)

/-- The header at an address. -/
def header (chunk : ℕ) : ChunkHeader := ChunkHeader.ofWord (m.mem.leNat chunk HEADER_SIZE)

/-- Writes a header. -/
def putHeader (chunk : ℕ) (h : ChunkHeader) : Malloc :=
  { m with mem := m.mem.putLeNat chunk HEADER_SIZE h.toWord }

/-- `totalMemAllocated += n`. -/
def addAllocated (n : ℕ) : Malloc :=
  { m with totalMemAllocated := m.totalMemAllocated + UInt64.ofNat n }

/-- `totalMemAllocated -= n`. -/
def subAllocated (n : ℕ) : Malloc :=
  { m with totalMemAllocated := m.totalMemAllocated - UInt64.ofNat n }

/-- A bytewise `memcpy` inside the kernel's memory. -/
def copy (dst src n : ℕ) : Malloc := { m with mem := m.mem.copy dst src n }

/-- `init`. -/
def init (mem : Buf) (pages : KernelPages) : Option Malloc :=
  match pages.mapPage .heap 0 with
  | none => none
  | some (firstChunk, pages) =>
    let m : Malloc :=
      { mem, pages, firstChunk
        endOfChunks := firstChunk + PAGESIZE - HEADER_SIZE
        totalMemUsed := UInt64.ofNat PAGESIZE
        totalMemAllocated := 0
        mallocReady := true }
    some (m.putHeader firstChunk ⟨PAGESIZE - HEADER_SIZE, MAGIC, false, false⟩)

/-- `realsize`, as `malloc` and `realloc` compute it. -/
def realsizeOf (size : ℕ) : ℕ := max (HEADER_SIZE + size) MALLOC_MINSIZE

/-- How the search of `malloc` ends: at a chunk to use, or at `endOfChunks` behind a last chunk. -/
inductive Found
  | chunk (chunk : ℕ)
  | atEnd (other : ℕ)

/-- A page of a chunk that is not ours has been unmapped by its owner: it becomes part of the heap. -/
def reclaim (chunk nextUnmappedVaddr : ℕ) : Run Malloc (Malloc × ℕ) :=
  let c := m.header chunk
  if c.notOurs ∧ chunk + HEADER_SIZE = nextUnmappedVaddr then
    if c.size ≠ PAGESIZE + HEADER_SIZE then .halted m
    else do
      let (mapped, pages) ← .ofOption m (m.pages.mapPage .heap nextUnmappedVaddr)
      let m := { m with pages := pages }
      let m :=
        if mapped ≠ 0 then m.putHeader chunk { c with used := false, notOurs := false } else m
      let (nextUnmappedVaddr, pages) ← .ofOption m m.pages.getUnmappedVAddr
      .done ({ m with pages := pages }, nextUnmappedVaddr)
  else .done (m, nextUnmappedVaddr)

/-- The chunk before the one at `chunk` when both are free. -/
def freeBefore (other : Option ℕ) (chunk : ℕ) : Option ℕ :=
  other.filter fun o =>
    ¬(m.header o).used ∧ ¬(m.header chunk).used ∧ chunk < m.endOfChunks

/-- Takes the chunk at `chunk` into the one before it. -/
def mergeInto (o chunk : ℕ) : Malloc :=
  let h := m.header o
  m.putHeader o { h with size := h.size + (m.header chunk).size }

/-- The loop of `malloc` over the chunks. -/
def search (realsize : ℕ) : ℕ → Malloc → ℕ → Option ℕ → ℕ → Run Malloc (Malloc × Found)
  | 0, _, _, _, _ => .running
  | fuel + 1, m, chunk, other, nextUnmappedVaddr =>
    let c := m.header chunk
    if c.used ∨ c.size < realsize then
      if c.magic ≠ MAGIC ∨ c.size = 0 then .halted m
      else
        match m.freeBefore other chunk with
        | some o => search realsize fuel (m.mergeInto o chunk) o none nextUnmappedVaddr
        | none => do
          let (m, nextUnmappedVaddr) ← m.reclaim chunk nextUnmappedVaddr
          let other := chunk
          let chunk := chunk + (m.header chunk).size
          if chunk = m.endOfChunks then .done (m, .atEnd other)
          else if chunk > m.endOfChunks then .halted m
          else search realsize fuel m chunk (some other) nextUnmappedVaddr
    else .done (m, .chunk chunk)

/-- The variables of the loop that gets pages.  `totalAlloced` is negative only between two of its
statements. -/
structure Growth where
  m : Malloc
  other : ℕ
  oldEndOfChunks : ℕ
  totalAlloced : ℤ
  needToAlloc : ℕ

/-- `nContigousUnmappable`. -/
def contigousUnmappable (nextUnmapped : ℕ) : ℕ :=
  let diff := sub64 nextUnmapped (m.endOfChunks + HEADER_SIZE)
  diff / PAGESIZE + if diff % PAGESIZE = 0 then 0 else 1

/-- The pages behind `endOfChunks` are mapped by others: wraps them, and restarts behind with the whole
`need`, which is `size+sizeof(ChunkHeader)`. -/
def wrap (need : ℕ) (g : Growth) : Run Malloc Growth := do
  let m := g.m
  let (nextUnmapped, pages) ← .ofOption m m.pages.getUnmappedVAddr
  let m := { m with pages := pages }
  let nContigousUnmappable := m.contigousUnmappable nextUnmapped
  let m := m.putHeader m.endOfChunks
    ⟨PAGESIZE * nContigousUnmappable + HEADER_SIZE, MAGIC, true, true⟩
  let (_, pages) ← .ofOption m (m.pages.mapPage .heap nextUnmapped)
  .done
    { m := { m with
        pages := pages
        endOfChunks := (m.endOfChunks + PAGESIZE * nContigousUnmappable) % 2 ^ 64 }
      other := m.endOfChunks
      oldEndOfChunks := m.endOfChunks + (m.header m.endOfChunks).size
      totalAlloced := -HEADER_SIZE
      needToAlloc := need }

/-- One more page. -/
def addPage (g : Growth) : Growth :=
  let h := g.m.header g.other
  let m := if h.used then g.m else g.m.putHeader g.other { h with size := h.size + PAGESIZE }
  { g with
    m := { m with
      totalMemUsed := m.totalMemUsed + UInt64.ofNat PAGESIZE
      endOfChunks := m.endOfChunks + PAGESIZE }
    totalAlloced := g.totalAlloced + PAGESIZE
    needToAlloc := g.needToAlloc - min g.needToAlloc PAGESIZE }

/-- The loop of `malloc` that gets pages. -/
def grow (need : ℕ) : ℕ → Growth → Run Malloc Growth
  | 0, _ => .running
  | fuel + 1, g =>
    if g.needToAlloc = 0 then .done g
    else do
      let (nextUnmapped, pages) ←
        .ofOption g.m (g.m.pages.mapPage .heap (g.m.endOfChunks + HEADER_SIZE))
      let g := { g with m := { g.m with pages := pages } }
      if nextUnmapped ≠ g.m.endOfChunks + HEADER_SIZE then do
        let g ← wrap need g
        grow need fuel (addPage g)
      else grow need fuel (addPage g)

/-- What the loop that gets pages starts with, behind the last chunk. -/
def startGrowth (need other : ℕ) : Growth :=
  let h := m.header other
  let needToAlloc := if h.used then need else need - min need h.size
  ⟨m, other, m.endOfChunks, 0, needToAlloc⟩

/-- What becomes of the new pages: more room in the last chunk, or a chunk of their own. -/
def useGrowth (realsize : ℕ) (g : Growth) : Run Malloc (Malloc × ℕ) :=
  let m := g.m
  let h := m.header g.other
  if m.endOfChunks % PAGESIZE ≠ 0xFF8 then .halted m
  else if ¬h.used then
    if h.size < realsize then .halted m else .done (m, g.other)
  else
    .done (m.putHeader g.oldEndOfChunks ⟨g.totalAlloced.toNat, MAGIC, false, false⟩,
      g.oldEndOfChunks)

/-- What `malloc` does when no chunk fits. -/
def growFor (fuel need realsize other : ℕ) : Run Malloc (Malloc × ℕ) := do
  let g ← grow need fuel (m.startGrowth need other)
  useGrowth realsize g

/-- What `malloc` does when no chunk fits, for a size. -/
def growAtEnd (fuel size other : ℕ) : Run Malloc (Malloc × ℕ) :=
  m.growFor fuel (size + HEADER_SIZE) (realsizeOf size) other

/-- Marks a chunk used, and splits it when the rest is large enough. -/
def take (chunk realsize : ℕ) : Malloc :=
  let h := m.header chunk
  let m := m.putHeader chunk { h with used := true }
  if sub64 h.size realsize ≥ MALLOC_MINSIZE then
    let m := m.putHeader (chunk + realsize) ⟨sub64 h.size realsize, MAGIC, false, false⟩
    m.putHeader chunk { m.header chunk with size := realsize, used := true }
  else m

/-- The end of `malloc`, once there is a chunk. -/
def handOut (chunk realsize : ℕ) : ℕ × Malloc :=
  let m := m.take chunk realsize
  (chunk + HEADER_SIZE, m.addAllocated ((m.header chunk).size - HEADER_SIZE))

/-- The chunk that `malloc` hands out, before it is split. -/
def findChunkFor (fuel need realsize : ℕ) : Run Malloc (Malloc × ℕ) := do
  let (nextUnmappedVaddr, pages) ← .ofOption m m.pages.getUnmappedVAddr
  let m := { m with pages := pages }
  let (m, found) ← search realsize fuel m m.firstChunk none nextUnmappedVaddr
  match found with
  | .chunk chunk => .done (m, chunk)
  | .atEnd other => m.growFor fuel need realsize other

/-- The chunk that `malloc` hands out for a size, before it is split. -/
def findChunk (fuel size : ℕ) : Run Malloc (Malloc × ℕ) :=
  m.findChunkFor fuel (size + HEADER_SIZE) (realsizeOf size)

/-- `malloc`: the address of the new block, `0` on failure. -/
def malloc (fuel size : ℕ) : Run Malloc (ℕ × Malloc) :=
  if ¬m.mallocReady ∨ size = 0 then .done (0, m)
  else do
    let (m, chunk) ← m.findChunk fuel size
    .done (m.handOut chunk (realsizeOf size))

/-- The loop of `free`: takes in the free chunks behind a chunk. -/
def mergeNext : ℕ → Malloc → ℕ → Run Malloc Malloc
  | 0, _, _ => .running
  | fuel + 1, m, chunk =>
    let h := m.header chunk
    let other := chunk + h.size
    if other < m.endOfChunks ∧ ¬(m.header other).used then
      if h.magic ≠ MAGIC then .halted m
      else
        let m := m.mergeInto chunk other
        if (m.header chunk).size = 0 ∨ (m.header other).size = 0 then .halted m
        else mergeNext fuel m chunk
    else .done m

/-- The pages at the end that `free` gives back. -/
def releasePages (chunk : ℕ) : Malloc :=
  let h := m.header chunk
  if chunk + h.size = m.endOfChunks ∧ h.size ≥ PAGESIZE then
    let nPages := h.size / PAGESIZE
    let m := m.putHeader chunk { h with size := h.size - PAGESIZE * nPages }
    let endOfChunks := m.endOfChunks - PAGESIZE * nPages
    { m with
      endOfChunks := endOfChunks
      totalMemUsed := m.totalMemUsed - UInt64.ofNat (PAGESIZE * nPages)
      pages := (List.range nPages).foldl (fun pages i =>
        pages.unmapPage (endOfChunks + HEADER_SIZE + PAGESIZE * i)) m.pages }
  else m

/-- Marks a chunk free. -/
def release (chunk : ℕ) : Malloc :=
  let h := m.header chunk
  (m.putHeader chunk { h with used := false }).subAllocated (h.size - HEADER_SIZE)

/-- `free`. -/
def free (fuel vaddr : ℕ) : Run Malloc Malloc :=
  if ¬m.mallocReady ∨ vaddr = 0 then .done m
  else
    let chunk := vaddr - HEADER_SIZE
    let h := m.header chunk
    if h.magic ≠ MAGIC ∨ ¬h.used then .halted m
    else do
      let m ← mergeNext fuel (m.release chunk) chunk
      .done (m.releasePages chunk)

/-- The loop of `realloc` for the chunk before the block at `vaddr`. -/
def previousChunk (vaddr : ℕ) : ℕ → ℕ → Run Malloc ℕ
  | 0, _ => .running
  | fuel + 1, previous =>
    if previous + (m.header previous).size + HEADER_SIZE = vaddr then .done previous
    else previousChunk vaddr fuel (previous + (m.header previous).size)

/-- `realloc` of a block to a smaller one, in place. -/
def shrink (chunk realsize : ℕ) : Malloc :=
  let h := m.header chunk
  let sizediff := h.size - realsize
  let next := chunk + h.size
  let n := m.header next
  if next < m.endOfChunks ∧ ¬n.used then
    let newnext := next - sizediff
    let m := (m.subAllocated sizediff).copy newnext next HEADER_SIZE
    let m := m.putHeader newnext { m.header newnext with size := n.size + sizediff }
    m.putHeader chunk { m.header chunk with size := (m.header chunk).size - sizediff }
  else if sizediff ≥ MALLOC_MINSIZE then
    let m := m.subAllocated sizediff
    let m := m.putHeader (chunk + realsize) ⟨sizediff, MAGIC, false, false⟩
    m.putHeader chunk { m.header chunk with size := realsize }
  else m

/-- `realloc` into the next chunk. -/
def growIntoNext (chunk realsize : ℕ) : Malloc :=
  let h := m.header chunk
  let n := m.header (chunk + h.size)
  let newnextsize := h.size + n.size - realsize
  if newnextsize > 0 then
    let m := m.addAllocated (realsize - h.size)
    let m := m.putHeader (chunk + realsize) ⟨newnextsize, MAGIC, false, false⟩
    m.putHeader chunk { m.header chunk with size := realsize }
  else
    let m := m.addAllocated n.size
    m.putHeader chunk { h with size := h.size + n.size }

/-- `realloc` into the previous chunk. -/
def growIntoPrevious (previous chunk realsize : ℕ) : Malloc :=
  let h := m.header chunk
  let newnextsize := (m.header previous).size + h.size - realsize
  let m := (m.addAllocated (realsize - h.size)).copy (previous + HEADER_SIZE)
    (chunk + HEADER_SIZE) (h.size - HEADER_SIZE)
  let m := m.putHeader (previous + realsize) ⟨newnextsize, MAGIC, false, false⟩
  m.putHeader previous { m.header previous with size := realsize, used := true }

/-- `realloc` to a new block, by a call of `malloc`. -/
def moveBy (malloc : Run Malloc (ℕ × Malloc)) (fuel vaddr : ℕ) : Run Malloc (ℕ × Malloc) := do
  let (newvaddr, m) ← malloc
  let size := (m.header (vaddr - HEADER_SIZE)).size - HEADER_SIZE
  let m ← (m.copy newvaddr vaddr size).free fuel vaddr
  .done (newvaddr, m)

/-- `realloc` to a new block. -/
def move (fuel vaddr newsize : ℕ) : Run Malloc (ℕ × Malloc) :=
  moveBy (m.malloc fuel newsize) fuel vaddr

/-- `realloc` of a block to a larger one, with the call of `malloc` that a move makes. -/
def enlargeBy (malloc : Run Malloc (ℕ × Malloc)) (fuel vaddr realsize : ℕ) :
    Run Malloc (ℕ × Malloc) :=
  let chunk := vaddr - HEADER_SIZE
  let h := m.header chunk
  let next := chunk + h.size
  let n := m.header next
  if next < m.endOfChunks ∧ ¬n.used ∧ h.size + n.size ≥ realsize then
    .done (vaddr, m.growIntoNext chunk realsize)
  else if chunk ≠ m.firstChunk then do
    let previous ← m.previousChunk vaddr fuel m.firstChunk
    if ¬(m.header previous).used ∧ h.size + (m.header previous).size ≥ realsize then
      .done (previous + HEADER_SIZE, m.growIntoPrevious previous chunk realsize)
    else moveBy malloc fuel vaddr
  else moveBy malloc fuel vaddr

/-- `realloc` of a block to a larger one. -/
def enlarge (fuel vaddr newsize : ℕ) : Run Malloc (ℕ × Malloc) :=
  m.enlargeBy (m.malloc fuel newsize) fuel vaddr (realsizeOf newsize)

/-- `realloc`, with the call of `malloc` that it makes for the new size. -/
def reallocBy (malloc : Run Malloc (ℕ × Malloc)) (fuel vaddr realsize : ℕ) :
    Run Malloc (ℕ × Malloc) :=
  if vaddr = 0 then malloc
  else if ¬m.mallocReady then .done (0, m)
  else
    let chunk := vaddr - HEADER_SIZE
    let h := m.header chunk
    if h.magic ≠ MAGIC ∨ ¬h.used ∨ h.notOurs then .halted m
    else if h.size = realsize then .done (vaddr, m)
    else if h.size > realsize then .done (vaddr, m.shrink chunk realsize)
    else m.enlargeBy malloc fuel vaddr realsize

/-- `realloc`. -/
def realloc (fuel vaddr newsize : ℕ) : Run Malloc (ℕ × Malloc) :=
  m.reallocBy (m.malloc fuel newsize) fuel vaddr (realsizeOf newsize)

end Malloc
