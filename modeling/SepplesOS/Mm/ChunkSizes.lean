import SepplesOS.Mm.AllocRun

/-!
# The least size of a chunk

`malloc` splits a chunk only when the rest has `MALLOC_MINSIZE` bytes, but `free` cuts the last chunk at
a page and `realloc` cuts the neighbour of a block wherever the block ends.  `Keeping` says of a step,
in the heap as it is before, that it does not leave a smaller chunk; then no walk over the heap meets
one.
-/

namespace Malloc

open Tiling

/-- The chunks that a walk from `firstChunk` on meets. -/
def met (m : Malloc) : ℕ → ℕ
  | 0 => m.firstChunk
  | k + 1 => met m k + (m.header (met m k)).size

/-- A walk from `firstChunk` on reaches `endOfChunks`, meets no chunk below `MALLOC_MINSIZE` on the way,
and no header it meets overlaps the next one or the one reserved at `endOfChunks`. -/
structure Walk (m : Malloc) : Prop where
  reach : ∃ n, m.met n = m.endOfChunks
  large : ∀ k, m.met k < m.endOfChunks → MALLOC_MINSIZE ≤ (m.header (m.met k)).size
  apart : ∀ k, m.met k < m.endOfChunks →
    m.met k + HEADER_SIZE ≤ m.met (k + 1) ∧ m.met (k + 1) ≤ m.endOfChunks

section Walk

variable {B : MinSizes} {m : Malloc} {cs pre suf : List ChunkHeader} {k : ℕ}

theorem met_mono : Monotone m.met :=
  monotone_nat_of_le_succ fun _ => Nat.le_add_right _ _

theorem Tiles.met_length (tiles : Tiles B m (pre ++ suf)) :
    m.met pre.length = m.firstChunk + span ChunkHeader.size pre := by
  induction pre using List.reverseRecOn generalizing suf with
  | nil => rfl
  | append_singleton pre c ih =>
    rw [List.append_assoc, List.singleton_append] at tiles
    rw [List.length_append, List.length_singleton, met, ih tiles, tiles.at.1, span_append, span_cons,
      span_nil]
    omega

theorem Tiles.met_end (tiles : Tiles B m cs) : m.met cs.length = m.endOfChunks := by
  rw [← tiles.reach]
  rw [← List.append_nil cs] at tiles
  exact tiles.met_length

theorem Tiles.exists_met (tiles : Tiles B m cs) (lt : m.met k < m.endOfChunks) :
    ∃ pre c suf, cs = pre ++ c :: suf ∧ m.met k = m.firstChunk + span ChunkHeader.size pre ∧
      m.header (m.met k) = c := by
  have hend := tiles.met_end
  have hk : k < cs.length := by
    by_contra hle
    have := met_mono (m := m) (not_lt.1 hle)
    omega
  have hsplit : cs = cs.take k ++ cs[k] :: cs.drop (k + 1) := by
    rw [List.getElem_cons_drop, List.take_append_drop]
  have hmet : m.met k = m.firstChunk + span ChunkHeader.size (cs.take k) := by
    have hlength := Tiles.met_length (hsplit ▸ tiles)
    rwa [List.length_take, min_eq_left hk.le] at hlength
  refine ⟨_, _, _, hsplit, hmet, ?_⟩
  rw [hmet]
  exact (Tiles.at (hsplit ▸ tiles)).1

theorem Tiles.walk (tiles : Tiles minSizes m cs) : Walk m := by
  have hchunk : ∀ k, m.met k < m.endOfChunks → MALLOC_MINSIZE ≤ (m.header (m.met k)).size ∧
      m.met (k + 1) ≤ m.endOfChunks := by
    intro k hlt
    obtain ⟨pre, c, suf, rfl, hmet, hheader⟩ := tiles.exists_met hlt
    have hbounds := tiles.bounds (mem_layout_of m pre c suf)
    rw [← hmet] at hbounds
    rw [met, hheader]
    exact ⟨hbounds.2.2.1, hbounds.2.1⟩
  refine ⟨⟨cs.length, tiles.met_end⟩, fun k hlt => (hchunk k hlt).1, fun k hlt => ⟨?_, (hchunk k hlt).2⟩⟩
  rw [met]
  have hlarge := (hchunk k hlt).1
  have hmin : HEADER_SIZE ≤ MALLOC_MINSIZE := by decide
  omega

end Walk

end Malloc

namespace AllocState

open Malloc Tiling KernelPages

/-- What is left of the last page when a block moves out of the chunk `c` and no block of the heap lies
behind it: nothing, or enough for a chunk.  The new block lies behind it when no room in front of it is
large enough. -/
def MoveLeaves (m : Malloc) (pre : List ChunkHeader) (c : ChunkHeader) (suf : List ChunkHeader)
    (k : ℕ) : Prop :=
  Wrapped m (pre ++ c :: suf) ∧ bestRun pre < k ∨
    ((∀ d ∈ suf, ¬Ours d) → (c.size + span ChunkHeader.size suf) % PAGESIZE = 0 ∨
      MALLOC_MINSIZE ≤ (c.size + span ChunkHeader.size suf) % PAGESIZE)

/-- What a step needs for no chunk to get smaller than `MALLOC_MINSIZE`. -/
def Keeping (s : AllocState) : AllocOp → Prop
  | .malloc size => 1 ≤ size ∧ ∃ cs, Tiles minSizes s.m cs ∧ MallocSafe minSizes s.m cs size
  | .free vaddr => FreeLeaves minSizes s.m (vaddr - HEADER_SIZE)
  | .realloc vaddr size => 1 ≤ size ∧ ∃ pre c suf, Tiles minSizes s.m (pre ++ c :: suf) ∧
      vaddr = s.m.firstChunk + span ChunkHeader.size pre + HEADER_SIZE ∧
      LeavesRoom minSizes pre c suf (realsizeOf size) ∧
      (Moving pre c suf (realsizeOf size) → MallocSafe minSizes s.m (pre ++ c :: suf) size ∧
        MoveLeaves s.m pre c suf (realsizeOf size))
  | _ => True

section Keeping

variable {B : MinSizes} {s s' : AllocState} {m m' : Malloc} {pre suf cs cs' : List ChunkHeader}
  {c : ChunkHeader} {pages : KernelPages} {op : AllocOp} {x y vaddr size fuel : ℕ}

/-- Where all wrapped pages are mapped, a new block in front of a used chunk lies in a run of free chunks
that is large enough. -/
theorem bestRun_of_malloced (made : Malloced B m m' (pre ++ c :: suf) cs' size y)
    (wrapped : Wrapped m (pre ++ c :: suf)) (start : m.firstChunk + span ChunkHeader.size pre = x)
    (ours : Ours c) (lt : y < x) : realsizeOf size ≤ bestRun pre := by
  obtain ⟨hkeeps, -⟩ := made.quiet wrapped
  obtain ⟨d, hd, hdours, hsize⟩ := made.block
  have hdpos := (made.wellFormed.tiles.bounds hd).2.2.2.1
  have hdlow := (made.wellFormed.tiles.bounds hd).1
  rw [made.first] at hdlow
  have hc := mem_layout_of m pre c suf
  rw [start] at hc
  have hstop : y + d.size ≤ x := by
    rcases layout_apart hd (hkeeps x c hc ours.1 (Option.some_ne_none x)).1 with ⟨rfl, -⟩ | hapart | hapart
    · omega
    · exact hapart
    · omega
  -- the used chunks are where they were, so the new block covers none of them
  have hfree : ∀ z e, (z, e) ∈ layout ChunkHeader.size m.firstChunk pre → z < y + d.size →
      y < z + e.size → e.used = false := by
    intro z e he hlow hhigh
    by_contra hused
    have he' : (z, e) ∈ layout ChunkHeader.size m.firstChunk (pre ++ c :: suf) := by
      rw [layout_append]
      exact List.mem_append_left _ he
    have hkept := (hkeeps z e he' (by simpa using hused) (Option.some_ne_none z)).1
    rcases layout_apart hd hkept with ⟨rfl, rfl⟩ | hapart | hapart
    · exact made.fresh d he' hdours
    · omega
    · omega
  obtain ⟨l, run, r, rfl, hrun, hlong⟩ := exists_cover hdlow (by omega) (by omega) hfree
  calc realsizeOf size ≤ d.size := hsize
    _ ≤ span ChunkHeader.size run := by omega
    _ ≤ bestRun (l ++ run ++ r) := span_le_bestRun hrun

theorem MoveLeaves.freeLeaves (leaves : MoveLeaves m pre c suf (realsizeOf size))
    (wellFormed : WellFormed minSizes m (pre ++ c :: suf)) (ours : Ours c)
    (start : m.firstChunk + span ChunkHeader.size pre = x)
    (made : Malloced minSizes m m' (pre ++ c :: suf) cs' size y) : FreeLeaves minSizes m' x := by
  intro pre' c' suf' htiles hstart hfree
  obtain rfl := made.wellFormed.tiles.unique htiles
  have hc := mem_layout_of m pre c suf
  rw [start] at hc
  have hkept := (made.keeps x c hc ours (Option.some_ne_none x)).1
  have hc' := mem_layout_of m' pre' c' suf'
  rw [hstart] at hc'
  obtain rfl : c = c' := (htiles.header x c hkept).1.symm.trans (htiles.header x c' hc').1
  -- a chunk behind the block is one of those that are free
  have hbehind : ∀ z e, (z, e) ∈ layout ChunkHeader.size m'.firstChunk (pre' ++ c :: suf') → x < z →
      e.used = false := by
    intro z e he hlt
    rw [layout_append, layout_cons, List.mem_append, List.mem_cons] at he
    rcases he with he | he | he
    · have := layout_bounds he
      omega
    · obtain ⟨rfl, rfl⟩ := Prod.mk.inj he
      omega
    · exact hfree e (mem_of_layout he)
  rcases leaves with ⟨hwrapped, hbest⟩ | hleaves
  · exfalso
    obtain ⟨d, hd, hdours, -⟩ := made.block
    rcases lt_trichotomy y x with hlt | rfl | hlt
    · exact absurd (bestRun_of_malloced made hwrapped start ours hlt) (not_le.2 hbest)
    · exact made.fresh c hc ours
    · have hdfree := hbehind y d hd hlt
      rw [hdours.1] at hdfree
      cases hdfree
  · have hnone : ∀ e ∈ suf, ¬Ours e := by
      intro e he heours
      obtain ⟨l, r, rfl⟩ := List.append_of_mem he
      have hmem := mem_layout_of m (pre ++ c :: l) e r
      rw [show pre ++ c :: l ++ e :: r = pre ++ c :: (l ++ e :: r) by simp] at hmem
      have hpos := (wellFormed.tiles.bounds hc).2.2.2.1
      have hefree := hbehind _ e (made.keeps _ e hmem heours (Option.some_ne_none _)).1 (by
        rw [span_append, span_cons]
        omega)
      rw [heours.1] at hefree
      cases hefree
    have hrest := hleaves hnone
    -- both ends of the heap lie at the same place in their pages
    have hreach := wellFormed.tiles.reach
    have hreach' := htiles.reach
    have haligned := wellFormed.aligned
    have haligned' := made.wellFormed.aligned
    simp only [span_append, span_cons] at hreach hreach'
    have hmod : (c.size + span ChunkHeader.size suf') % PAGESIZE =
        (c.size + span ChunkHeader.size suf) % PAGESIZE := by
      have hpage : PAGESIZE = 4096 := rfl
      rw [hpage] at haligned haligned' ⊢
      omega
    rw [hmod]
    exact hrest

/-- A step that keeps the least size has what it needs. -/
theorem AllocInv.granted (inv : AllocInv minSizes s cs) (keeping : Keeping s op)
    (result : s.step fuel op = some s') : Granted minSizes s op := by
  cases op with
  | malloc size => exact keeping
  | free vaddr => exact keeping
  | realloc vaddr size =>
    obtain ⟨hpos, pre, c, suf, htiles, hplace, hroom, hmoves⟩ := keeping
    refine ⟨hpos, pre, c, suf, htiles, hplace, hroom, fun hmoving => ?_⟩
    obtain ⟨hsafe, hleaves⟩ := hmoves hmoving
    refine ⟨hsafe, fun fuel' y m hmalloc => ?_⟩
    obtain rfl := inv.wellFormed.tiles.unique htiles
    obtain ⟨hlive, -⟩ := step_realloc result
    obtain ⟨n, hn⟩ := Option.ne_none_iff_exists'.1 hlive
    obtain ⟨x, d, hd, hours, hx, -⟩ := inv.live vaddr n hn
    obtain rfl := Nat.add_right_cancel (hplace.symm.trans hx)
    obtain rfl : d = c :=
      (htiles.header _ d hd).1.symm.trans (htiles.header _ c (mem_layout_of s.m pre c suf)).1
    obtain ⟨z, cs', -, made, -⟩ := inv.malloc hpos hsafe hmalloc
    rw [hplace, Nat.add_sub_cancel]
    exact hleaves.freeLeaves inv.wellFormed hours rfl made
  | store vaddr i byte => trivial
  | mapForeign => trivial
  | unmapForeign page => trivial

theorem Reach.granted (wf : pages.Wf) (frames : pages.frames = none)
    (new : ∀ q, pages.owner q ≠ some .heap) (run : Reach pages Keeping s) :
    Reach pages (Granted minSizes) s := by
  induction run with
  | init result => exact .init result
  | step _ allows result ih =>
    obtain ⟨cs, inv⟩ := ih.inv wf frames new
    exact .step ih (inv.granted allows result) result

/-- In every run whose steps keep the least size, a walk over the heap meets no smaller chunk. -/
theorem chunks_large (wf : pages.Wf) (frames : pages.frames = none)
    (new : ∀ q, pages.owner q ≠ some .heap) (run : Reach pages Keeping s) : Walk s.m := by
  obtain ⟨cs, inv⟩ := (run.granted wf frames new).inv wf frames new
  exact inv.wellFormed.tiles.walk

theorem chunks_large_malloc : ∃ m fuel s, Malloc.init (fun _ => 0) (bootPages 257) = some m ∧
    AllocState.step fuel ⟨m, fun _ => none⟩ (.malloc 100) = some s ∧ Walk s.m := by
  obtain ⟨m, cs, fuel, s, hinit, htiles, -, hsafe, hstep⟩ := boot_malloc minSizes
  have hkeeping : Keeping ⟨m, fun _ => none⟩ (.malloc 100) := ⟨by decide, cs, htiles, hsafe⟩
  exact ⟨m, fuel, s, hinit, hstep, chunks_large (bootPages_wf (by decide)) rfl
    (bootPages_new 257) (.step (.init hinit) hkeeping hstep)⟩

/-- The calls of the heap, with the sizes asked for. -/
def Calls (_ : AllocState) : AllocOp → Prop
  | .malloc size => 1 ≤ size ∧ size ≤ 2 ^ 32
  | .free _ => True
  | .realloc _ size => 1 ≤ size ∧ size ≤ 2 ^ 32
  | _ => False

/-- A walk meets a chunk below `MALLOC_MINSIZE` at the `k`-th place. -/
def smallAt (k : ℕ) (s : AllocState) : Bool :=
  s.m.met k < s.m.endOfChunks ∧ (s.m.header (s.m.met k)).size < MALLOC_MINSIZE

/-- A block that grows into the last chunk leaves three bytes of it, and their header lies over the one
reserved at `endOfChunks`. -/
theorem chunks_not_large : ¬ ∀ (pages : KernelPages) (s : AllocState), pages.Wf →
    pages.frames = none → (∀ q, pages.owner q ≠ some .heap) → Reach pages Calls s → Walk s.m := by
  intro hall
  obtain ⟨s, hrun, htest⟩ := @exists_behind Calls
    [.malloc 100, .realloc (257 * 4096 + 8) 4077] 20 (fun _ _ => true) (smallAt 1) (by simp [Calls])
    (by decide +kernel)
  have hwalk := hall _ s (bootPages_wf (by decide)) rfl (bootPages_new 257) hrun
  obtain ⟨hlt, hsmall⟩ := of_decide_eq_true htest
  exact absurd (hwalk.large 1 hlt) (not_le.2 hsmall)

end Keeping

end AllocState
