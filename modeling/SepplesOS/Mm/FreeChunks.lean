import SepplesOS.Mm.Chunks

/-!
# `free`

`free` marks the chunk free, takes in the free chunks behind it, and gives back the pages at the end
of the heap.  A chunk at the end may be left with fewer bytes than any other chunk, or with none: then
it leaves the list.
-/

namespace Malloc

open Tiling KernelPages

/-- The same least sizes, but that the last chunk may be a remainder. -/
def MinSizes.remainder (B : MinSizes) : MinSizes where
  inner := B.inner
  last := 1
  header_le := B.header_le
  last_pos := one_pos
  last_le := le_trans (by decide) B.header_le
  inner_le := B.inner_le

/-- What `free` makes of a chunk, the run of free chunks behind it, and the rest of the list. -/
def freed (c : ChunkHeader) (run rest : List ChunkHeader) : List ChunkHeader :=
  let size := c.size + span ChunkHeader.size run
  if rest = [] then
    if size % PAGESIZE = 0 then [] else [{ c with size := size % PAGESIZE, used := false }]
  else [{ c with size := size, used := false }]

section Merge

variable {B : MinSizes} {m : Malloc} {pre run rest : List ChunkHeader} {c d : ChunkHeader}
  {x fuel : ℕ}

theorem mergeNext_stops (header : m.header x = c)
    (stop : ¬(x + c.size < m.endOfChunks ∧ ¬(m.header (x + c.size)).used = true)) :
    mergeNext (fuel + 1) m x = .done m := by
  rw [mergeNext]
  dsimp only
  rw [header, if_neg stop]

theorem mergeNext_merges (tiles : Tiles B m (pre ++ c :: d :: rest))
    (start : m.firstChunk + span ChunkHeader.size pre = x) (free : d.used = false) :
    mergeNext (fuel + 1) m x = mergeNext fuel (m.mergeInto x (x + c.size)) x := by
  obtain ⟨edit, heq⟩ := merge_edit tiles start
  have tiles' := merge_tiles tiles start
  have hc : m.header x = c ∧ c.magic = MAGIC := by
    rw [← start]
    exact tiles.at
  have tilesd : Tiles B m ((pre ++ [c]) ++ d :: rest) := by simpa using tiles
  have hspan : m.firstChunk + span ChunkHeader.size (pre ++ [c]) = x + c.size := by
    rw [span_append, span_cons, span_nil, Nat.add_zero, ← Nat.add_assoc, start]
  have hd : m.header (x + c.size) = d := by
    rw [← hspan]
    exact (tilesd.at).1
  have hbounds := tilesd.bounds (mem_layout _ _ _ _)
  rw [hspan] at hbounds
  have hinner : B.inner ≤ c.size := (sized_append_cons.1 tiles.sized).2.1
  have hheader := B.header_le
  have hmerged : (m.mergeInto x (x + c.size)).header x = c.enlarge d.size := by
    have h := (tiles'.at).1
    have hfirst : (m.mergeInto x (x + c.size)).firstChunk = m.firstChunk := rfl
    rwa [hfirst, start] at h
  have hother : (m.mergeInto x (x + c.size)).header (x + c.size) = d := by
    rw [heq, header_putHeader_ne (by omega), hd]
  rw [mergeNext]
  dsimp only
  rw [hc.1, if_pos ⟨by omega, by simp [hd, free]⟩, if_neg (not_not.2 hc.2), hmerged, hother,
    if_neg (by rw [ChunkHeader.enlarge_size]; omega)]

/-- The loop of `free` takes in the whole run of free chunks. -/
theorem mergeNext_spec (tiles : Tiles B m (pre ++ c :: (run ++ rest)))
    (start : m.firstChunk + span ChunkHeader.size pre = x) (free : c.used = false)
    (run_free : ∀ d ∈ run, d.used = false) (rest_used : ∀ d ∈ rest.head?, d.used = true) :
    Run.Sat (mergeNext fuel m x)
      (fun m' => Tiles B m' (pre ++ c.enlarge (span ChunkHeader.size run) :: rest) ∧
        Keeps (fun d => d.used = true) m m' (pre ++ c :: (run ++ rest))
          (pre ++ c.enlarge (span ChunkHeader.size run) :: rest) none ∧
        SameEnds m m' ∧ m'.totalMemUsed = m.totalMemUsed ∧
        m'.totalMemAllocated = m.totalMemAllocated)
      (fun _ => False) (fuel ≤ run.length) := by
  induction fuel generalizing m run c with
  | zero => exact Run.sat_running (Nat.zero_le _)
  | succ fuel ih =>
    have hheader : m.header x = c := by
      rw [← start]
      exact (tiles.at).1
    cases run with
    | nil =>
      have hstop : ¬(x + c.size < m.endOfChunks ∧ ¬(m.header (x + c.size)).used = true) := by
        rintro ⟨hlt, hused⟩
        cases rest with
        | nil =>
          have hreach := tiles.reach
          simp only [span_append, span_cons, span_nil, List.nil_append] at hreach
          omega
        | cons d rest =>
          have tilesd : Tiles B m ((pre ++ [c]) ++ d :: rest) := by simpa using tiles
          have hd := (tilesd.at).1
          rw [span_append, span_cons, span_nil, Nat.add_zero, ← Nat.add_assoc, start] at hd
          rw [hd] at hused
          exact hused (rest_used d rfl)
      rw [mergeNext_stops hheader hstop]
      exact Run.sat_done ⟨tiles, Keeps.refl _ _ _ _, ⟨rfl, rfl, rfl, rfl⟩, rfl, rfl⟩
    | cons d run =>
      rw [List.forall_mem_cons] at run_free
      rw [List.cons_append] at tiles ⊢
      have tiles' := merge_tiles tiles start
      have hkeeps : Keeps (fun d => d.used = true) m (m.mergeInto x (x + c.size))
          (pre ++ c :: d :: (run ++ rest)) (pre ++ c.enlarge d.size :: (run ++ rest)) none :=
        merge_keeps tiles start (fun h => by simp [free] at h) (by simp [run_free.1])
      rw [mergeNext_merges tiles start run_free.1]
      have hlist : (c.enlarge d.size).enlarge (span ChunkHeader.size run) =
          c.enlarge (span ChunkHeader.size (d :: run)) := by
        simp [ChunkHeader.enlarge, Nat.add_assoc]
      refine (ih tiles' start free run_free.2).mono ?_ (fun _ h => h) fun h => ?_
      · rintro m' ⟨htiles, hkeeps', hsame, hused, hallocated⟩
        rw [hlist] at htiles hkeeps'
        exact ⟨htiles, hkeeps.trans hkeeps', ⟨hsame.pages, hsame.first, hsame.last, hsame.ready⟩,
          hused, hallocated⟩
      · exact Nat.succ_le_succ h

end Merge

/-! ## Giving back pages -/

/-- What `free` of the chunk `c` at `x` does: the chunk and the run behind it become one free chunk,
`k` pages at the end of the heap are unmapped, and no other used chunk is touched. -/
structure Freed (B : MinSizes) (m m' : Malloc) (pre : List ChunkHeader) (c : ChunkHeader)
    (run rest : List ChunkHeader) (x k : ℕ) : Prop where
  tiles : Tiles B.remainder m' (pre ++ freed c run rest ++ rest)
  keeps : Keeps (fun d => d.used = true) m m' (pre ++ c :: (run ++ rest))
    (pre ++ freed c run rest ++ rest) (some x)
  first : m'.firstChunk = m.firstChunk
  ready : m'.mallocReady = m.mallocReady
  last : m'.endOfChunks + k * PAGESIZE = m.endOfChunks
  inside : rest ≠ [] → k = 0
  lowest : rest = [] → x ≤ m'.endOfChunks ∧ m'.endOfChunks < x + PAGESIZE
  unmaps : UnmapsPages m.pages m'.pages ((m'.endOfChunks + HEADER_SIZE) / PAGESIZE) k
  used : m'.totalMemUsed = m.totalMemUsed - UInt64.ofNat (k * PAGESIZE)
  allocated : m'.totalMemAllocated = m.totalMemAllocated - UInt64.ofNat (c.size - HEADER_SIZE)

section Release

variable {B : MinSizes} {m m' : Malloc} {pre run rest : List ChunkHeader} {c h : ChunkHeader}
  {x k fuel : ℕ}

theorem UnmapsPages.none (pages : KernelPages) (base : ℕ) : UnmapsPages pages pages base 0 :=
  ⟨fun _ => (if_neg (by omega)).symm, rfl, rfl, id⟩

theorem releasePages_same (header : m.header x = h)
    (stop : ¬(x + h.size = m.endOfChunks ∧ h.size ≥ PAGESIZE)) : m.releasePages x = m := by
  unfold releasePages
  dsimp only
  rw [header, if_neg stop]

/-- The pages at the end that lie behind the first `h.size % PAGESIZE` bytes of the last chunk go. -/
theorem releasePages_spec (tiles : Tiles B m (pre ++ [h]))
    (start : m.firstChunk + span ChunkHeader.size pre = x) (free : h.used = false)
    (aligned : m.endOfChunks % PAGESIZE = 0xFF8) (large : PAGESIZE ≤ h.size) :
    ∃ m', m.releasePages x = m' ∧ m'.firstChunk = m.firstChunk ∧
      m'.mallocReady = m.mallocReady ∧ m'.endOfChunks = x + h.size % PAGESIZE ∧
      Tiles B.remainder m' (pre ++ if h.size % PAGESIZE = 0 then [] else
        [{ h with size := h.size % PAGESIZE }]) ∧
      Keeps (fun d => d.used = true) m m' (pre ++ [h])
        (pre ++ if h.size % PAGESIZE = 0 then [] else [{ h with size := h.size % PAGESIZE }]) none ∧
      UnmapsPages m.pages m'.pages ((x + h.size % PAGESIZE + HEADER_SIZE) / PAGESIZE)
        (h.size / PAGESIZE) ∧
      m'.totalMemUsed = m.totalMemUsed - UInt64.ofNat (h.size / PAGESIZE * PAGESIZE) ∧
      m'.totalMemAllocated = m.totalMemAllocated := by
  have hat : m.header x = h ∧ h.magic = MAGIC := by
    rw [← start]
    exact tiles.at
  have hreach := tiles.reach
  have hroom := tiles.room
  have hpage : PAGESIZE = 4096 := rfl
  have hheader : HEADER_SIZE = 8 := rfl
  simp only [span_append, span_cons, span_nil] at hreach
  have hdiv := Nat.div_add_mod h.size PAGESIZE
  have hmod := Nat.mod_lt h.size (show 0 < PAGESIZE by decide)
  rw [hpage] at hdiv hmod aligned
  have hrest : h.size - 4096 * (h.size / 4096) = h.size % 4096 := by omega
  have hlast : m.endOfChunks - 4096 * (h.size / 4096) = x + h.size % 4096 := by omega
  have heq : m.releasePages x =
      { m.putHeader x { h with size := h.size % 4096 } with
        endOfChunks := x + h.size % 4096
        totalMemUsed := m.totalMemUsed - UInt64.ofNat (4096 * (h.size / 4096))
        pages := (List.range (h.size / 4096)).foldl (fun pages i =>
          pages.unmapPage (x + h.size % 4096 + 8 + 4096 * i)) m.pages } := by
    unfold releasePages
    dsimp only
    rw [hat.1, if_pos ⟨by omega, large⟩, hpage, hheader, hrest, putHeader_endOfChunks, hlast]
    rfl
  generalize m.releasePages x = m' at heq
  have hmem : m'.mem = (m.putHeader x { h with size := h.size % 4096 }).mem := by rw [heq]
  have hfirst : m'.firstChunk = m.firstChunk := by
    rw [heq]
    rfl
  have hready : m'.mallocReady = m.mallocReady := by
    rw [heq]
    rfl
  have hend : m'.endOfChunks = x + h.size % 4096 := by rw [heq]
  have hused : m'.totalMemUsed = m.totalMemUsed - UInt64.ofNat (h.size / 4096 * 4096) := by
    rw [heq, Nat.mul_comm]
  have hallocated : m'.totalMemAllocated = m.totalMemAllocated := by
    rw [heq]
    rfl
  have hpages : UnmapsPages m.pages m'.pages ((x + h.size % 4096 + 8) / 4096) (h.size / 4096) := by
    rw [heq]
    refine foldl_unmapPage ?_ ?_ m.pages
    · rw [hpage]
      omega
    · omega
  have edit : Edit m m' pre [h] (if h.size % 4096 = 0 then [] else
      [{ h with size := h.size % 4096 }]) [] x (x + h.size) :=
    { start := start
      stop := by simp
      first := hfirst
      before := fun y hy => by rw [hmem, putHeader_mem (Or.inl hy)]
      behind := fun hne => absurd rfl hne }
  have hheader' : m'.header x = (m.putHeader x { h with size := h.size % 4096 }).header x :=
    header_congr fun i _ _ => by rw [hmem]
  have tiles' : Tiles B m (pre ++ [h] ++ []) := by simpa using tiles
  have hinner := (sized_append_cons.1 tiles.sized).1
  rw [hpage]
  refine ⟨m', rfl, hfirst, hready, hend, ?_, ?_, hpages, hused, hallocated⟩
  · have hresult := edit.tiles (C := B.remainder) tiles' (by simp) (fun _ => ?_) ?_ ?_ (by omega)
    · simpa using hresult
    · rw [hend]
      split_ifs with hzero
      · rw [span_nil, hzero]
      · rw [span_cons, span_nil, Nat.add_zero]
    · rw [List.append_nil]
      split_ifs with hzero
      · rw [List.append_nil]
        exact sized_of_inner hinner
      · exact sized_append_cons.2 ⟨hinner, Nat.pos_of_ne_zero hzero⟩
    · intro y d hd
      split_ifs at hd with hzero
      · cases hd
      · rw [layout_cons, layout_nil, List.mem_singleton] at hd
        obtain ⟨rfl, rfl⟩ := Prod.mk.inj hd
        refine ⟨?_, hat.2⟩
        rw [hheader']
        exact header_putHeader (show h.size % 4096 < 2 ^ 48 by omega) hat.2
  · have hkeeps : Keeps (fun d => d.used = true) m m' (pre ++ [h] ++ []) (pre ++ (if h.size % 4096 = 0
        then [] else [{ h with size := h.size % 4096 }]) ++ []) none := by
      refine edit.keeps fun y d hd hP _ => ?_
      rw [layout_cons, layout_nil, List.mem_singleton] at hd
      obtain ⟨rfl, rfl⟩ := Prod.mk.inj hd
      rw [free] at hP
      cases hP
    simpa using hkeeps

theorem freed_middle (ne : rest ≠ []) : freed c run rest =
    [{ c with size := c.size + span ChunkHeader.size run, used := false }] := if_neg ne

theorem freed_end : freed c run [] =
    if (c.size + span ChunkHeader.size run) % PAGESIZE = 0 then [] else
      [{ c with size := (c.size + span ChunkHeader.size run) % PAGESIZE, used := false }] := rfl

theorem layout_freed {a z : ℕ} {e : ChunkHeader}
    (chunk : (z, e) ∈ layout ChunkHeader.size a (pre ++ freed c run rest ++ rest)) :
    (z, e) ∈ layout ChunkHeader.size a pre ∨ e ∈ freed c run rest ∨
      (z, e) ∈ layout ChunkHeader.size (a + span ChunkHeader.size pre +
        (c.size + span ChunkHeader.size run)) rest := by
  rw [layout_parts rfl rfl, List.mem_append, List.mem_append] at chunk
  rcases chunk with (hc | hc) | hc
  · exact Or.inl hc
  · exact Or.inr (Or.inl (mem_of_layout hc))
  · have hrest : rest ≠ [] := by
      rintro rfl
      cases hc
    rw [freed_middle hrest, span_cons, span_nil, Nat.add_zero] at hc
    exact Or.inr (Or.inr hc)

theorem mem_freed {e : ChunkHeader} (ours : c.notOurs = false) (he : e ∈ freed c run rest) :
    e.used = false ∧ e.notOurs = false := by
  unfold freed at he
  dsimp only at he
  split_ifs at he
  · cases he
  · rw [List.mem_singleton.1 he]
    exact ⟨rfl, ours⟩
  · rw [List.mem_singleton.1 he]
    exact ⟨rfl, ours⟩

theorem layout_freed_old {a z : ℕ} {e : ChunkHeader} (pos : 0 < c.size) (pre_pos : ∀ d ∈ pre, 0 < d.size)
    (chunk : (z, e) ∈ layout ChunkHeader.size a (pre ++ freed c run rest ++ rest))
    (out : e ∉ freed c run rest) :
    z ≠ a + span ChunkHeader.size pre ∧
      (z, e) ∈ layout ChunkHeader.size a (pre ++ c :: (run ++ rest)) := by
  rw [show pre ++ c :: (run ++ rest) = pre ++ (c :: run) ++ rest by simp, layout_parts rfl rfl,
    List.mem_append, List.mem_append, span_cons]
  rcases layout_freed chunk with hc | hc | hc
  · have hbounds := layout_bounds hc
    have hsize := pre_pos e (mem_of_layout hc)
    exact ⟨by omega, Or.inl (Or.inl hc)⟩
  · exact absurd hc out
  · have hbounds := layout_bounds hc
    exact ⟨by omega, Or.inr hc⟩

theorem release_spec {suf : List ChunkHeader} (tiles : Tiles B m (pre ++ c :: suf))
    (start : m.firstChunk + span ChunkHeader.size pre = x) :
    ∃ m', m.release x = m' ∧ Tiles B m' (pre ++ { c with used := false } :: suf) ∧
      Keeps (fun d => d.used = true) m m' (pre ++ c :: suf)
        (pre ++ { c with used := false } :: suf) (some x) ∧
      SameEnds m m' ∧ m'.totalMemUsed = m.totalMemUsed ∧
      m'.totalMemAllocated = m.totalMemAllocated - UInt64.ofNat (c.size - HEADER_SIZE) := by
  have hat : m.header x = c ∧ c.magic = MAGIC := by
    rw [← start]
    exact tiles.at
  have heq : m.release x =
      (m.putHeader x { c with used := false }).subAllocated (c.size - HEADER_SIZE) := by
    unfold release
    dsimp only
    rw [hat.1]
  have htiles : Tiles B (m.putHeader x { c with used := false })
      (pre ++ { c with used := false } :: suf) := tiles.put start rfl hat.2
  have hkeeps : Keeps (fun d => d.used = true) m (m.putHeader x { c with used := false })
      (pre ++ c :: suf) (pre ++ { c with used := false } :: suf) (some x) :=
    Keeps.put tiles start rfl fun _ => rfl
  exact ⟨_, heq, htiles.congr rfl rfl rfl, hkeeps.trans (Keeps.congr rfl rfl),
    ⟨rfl, rfl, rfl, rfl⟩, rfl, rfl⟩

/-- `free` of a used chunk of the list. -/
theorem free_spec (tiles : Tiles B m (pre ++ c :: (run ++ rest)))
    (start : m.firstChunk + span ChunkHeader.size pre = x) (ready : m.mallocReady = true)
    (aligned : m.endOfChunks % PAGESIZE = 0xFF8) (used : c.used = true)
    (run_free : ∀ d ∈ run, d.used = false) (rest_used : ∀ d ∈ rest.head?, d.used = true) :
    Run.Sat (m.free fuel (x + HEADER_SIZE)) (fun m' => ∃ k, Freed B m m' pre c run rest x k)
      (fun _ => False) (fuel ≤ run.length) := by
  have hat : m.header x = c ∧ c.magic = MAGIC := by
    rw [← start]
    exact tiles.at
  have hheader : HEADER_SIZE = 8 := rfl
  have hpage : PAGESIZE = 4096 := rfl
  obtain ⟨m₁, hrelease, tiles₁, keeps₁, same₁, used₁, allocated₁⟩ := release_spec tiles start
  unfold free
  dsimp only
  rw [if_neg (by simp [ready, hheader]), Nat.add_sub_cancel, hat.1,
    if_neg (by simp [hat.2, used]), hrelease]
  refine Run.Sat.bind (mergeNext_spec tiles₁ (by rw [same₁.first, start]) rfl run_free rest_used) ?_
  rintro m₂ ⟨tiles₂, keeps₂, same₂, used₂, allocated₂⟩
  refine Run.sat_done ?_
  have same := same₁.trans same₂
  have keeps := keeps₁.trans (keeps₂.except (some x))
  have hstart : m₂.firstChunk + span ChunkHeader.size pre = x := by rw [same.first, start]
  have hmerged : ({ c with used := false } : ChunkHeader).enlarge (span ChunkHeader.size run) =
      { c with size := c.size + span ChunkHeader.size run, used := false } := rfl
  rw [hmerged] at tiles₂ keeps
  have hat₂ := (tiles₂.at).1
  rw [hstart] at hat₂
  have hreach := tiles₂.reach
  have hlow := (tiles₂.bounds (mem_layout _ _ _ _)).2.2.2.1
  simp only [span_append, span_cons] at hreach hlow
  by_cases hrest : rest = []
  · subst hrest
    rw [span_nil] at hreach
    by_cases hlarge : PAGESIZE ≤ c.size + span ChunkHeader.size run
    · obtain ⟨m₃, hpages, hfirst, hready, hend, tiles₃, keeps₃, unmaps, used₃, allocated₃⟩ :=
        releasePages_spec tiles₂ hstart rfl (by rw [same.last, aligned]) hlarge
      rw [hpages]
      have hmod := Nat.mod_lt (c.size + span ChunkHeader.size run) (show 0 < PAGESIZE by decide)
      have hdiv := Nat.div_add_mod (c.size + span ChunkHeader.size run) PAGESIZE
      dsimp only at hend tiles₃ keeps₃ unmaps used₃
      refine ⟨(c.size + span ChunkHeader.size run) / PAGESIZE, ?_, ?_, hfirst.trans same.first,
        hready.trans same.ready, ?_, fun h => absurd rfl h, fun _ => ?_, ?_, ?_, ?_⟩
      · rw [List.append_nil, freed_end]
        exact tiles₃
      · rw [List.append_nil (pre ++ _), freed_end]
        exact keeps.trans (keeps₃.except _)
      · rw [hend, ← same.last, Nat.mul_comm]
        omega
      · omega
      · rw [hend, ← same.pages]
        exact unmaps
      · rw [used₃, used₂, used₁]
      · rw [allocated₃, allocated₂, allocated₁]
    · rw [releasePages_same hat₂ (fun h => hlarge h.2)]
      have hmod := Nat.mod_eq_of_lt (not_le.1 hlarge)
      have hfreed : freed c run [] =
          [{ c with size := c.size + span ChunkHeader.size run, used := false }] := by
        rw [freed_end, hmod, if_neg hlow.ne']
      refine ⟨0, ?_, ?_, same.first, same.ready, ?_, fun _ => rfl, fun _ => ?_, ?_, ?_, ?_⟩
      · rw [hfreed, List.append_nil]
        exact tiles₂.mono le_rfl B.last_pos
      · rw [hfreed, List.append_nil (pre ++ _)]
        exact keeps
      · rw [same.last, Nat.zero_mul, Nat.add_zero]
      · omega
      · rw [same.pages]
        exact UnmapsPages.none _ _
      · rw [used₂, used₁, Nat.zero_mul]
        exact (sub_zero _).symm
      · rw [allocated₂, allocated₁]
  · obtain ⟨d, ds, rfl⟩ := List.exists_cons_of_ne_nil hrest
    have hpos := B.last_pos
    have hlast := tiles₂.sized.last_le d (by simp)
    rw [span_cons] at hreach
    rw [releasePages_same hat₂ (by dsimp only; omega)]
    refine ⟨0, ?_, ?_, same.first, same.ready, ?_, fun _ => rfl, fun h => (by cases h), ?_, ?_, ?_⟩
    · rw [freed_middle hrest, List.append_assoc]
      exact tiles₂.mono le_rfl B.last_pos
    · rw [freed_middle hrest, List.append_assoc]
      exact keeps
    · rw [same.last, Nat.zero_mul, Nat.add_zero]
    · rw [same.pages]
      exact UnmapsPages.none _ _
    · rw [used₂, used₁, Nat.zero_mul]
      exact (sub_zero _).symm
    · rw [allocated₂, allocated₁]

/-- The run of free chunks that a list begins with. -/
theorem exists_run (cs : List ChunkHeader) : ∃ run rest, cs = run ++ rest ∧
    (∀ d ∈ run, d.used = false) ∧ ∀ d ∈ rest.head?, d.used = true := by
  refine ⟨cs.takeWhile (!·.used), cs.dropWhile (!·.used), (List.takeWhile_append_dropWhile).symm,
    fun d hd => ?_, fun d hd => ?_⟩
  · simpa using List.mem_takeWhile_imp hd
  · have hnot := List.head?_dropWhile_not (fun d : ChunkHeader => !d.used) cs
    rw [Option.mem_def] at hd
    rw [hd] at hnot
    simpa using hnot

theorem Freed.owner (freed : Freed B m m' pre c run rest x k)
    (aligned : m.endOfChunks % PAGESIZE = 0xFF8) (page : ℕ) :
    m'.pages.owner page =
      if m'.endOfChunks + HEADER_SIZE ≤ page * PAGESIZE ∧
        page * PAGESIZE < m.endOfChunks + HEADER_SIZE then none else m.pages.owner page := by
  have hlast := freed.last
  have hpage : PAGESIZE = 4096 := rfl
  have hheader : HEADER_SIZE = 8 := rfl
  rw [freed.unmaps.owner]
  refine if_congr ?_ rfl rfl
  rw [hpage] at aligned hlast ⊢
  rw [hheader]
  omega

/-- `free` merges the chunk with the whole run of free chunks behind it, and unmaps the pages behind
the new end of the heap when the run reaches the old one; these pages hold nothing but the chunks that
were merged. -/
theorem free_releases {cs : List ChunkHeader} (tiles : Tiles headerSizes m cs)
    (ready : m.mallocReady = true) (first : m.firstChunk % PAGESIZE = 0)
    (aligned : m.endOfChunks % PAGESIZE = 0xFF8)
    (notOurs : ∀ d ∈ cs, d.notOurs = true → d.used = true)
    (chunk : (x, c) ∈ layout ChunkHeader.size m.firstChunk cs) (used : c.used = true)
    (ours : c.notOurs = false) (enough : cs.length ≤ fuel) :
    ∃ pre run rest m' k, cs = pre ++ c :: (run ++ rest) ∧
      m.firstChunk + span ChunkHeader.size pre = x ∧ (∀ d ∈ run, d.used = false) ∧
      (∀ d ∈ rest.head?, d.used = true) ∧ m.free fuel (x + HEADER_SIZE) = .done m' ∧
      Tiles headerSizes.remainder m' (pre ++ freed c run rest ++ rest) ∧
      pre ++ freed c run rest ++ rest ≠ [] ∧ m'.firstChunk = m.firstChunk ∧
      m'.endOfChunks % PAGESIZE = 0xFF8 ∧ m'.endOfChunks + k * PAGESIZE = m.endOfChunks ∧
      (rest ≠ [] → k = 0) ∧
      (rest = [] → x ≤ m'.endOfChunks ∧ m'.endOfChunks < x + PAGESIZE) ∧
      (∀ page, m'.pages.owner page =
        if m'.endOfChunks + HEADER_SIZE ≤ page * PAGESIZE ∧
          page * PAGESIZE < m.endOfChunks + HEADER_SIZE then none else m.pages.owner page) ∧
      (∀ page, m'.endOfChunks + HEADER_SIZE ≤ page * PAGESIZE →
        page * PAGESIZE < m.endOfChunks + HEADER_SIZE →
        x + HEADER_SIZE ≤ page * PAGESIZE ∧
          page * PAGESIZE + PAGESIZE ≤ m.endOfChunks + HEADER_SIZE ∧
          (∀ y d, (y, d) ∈ layout ChunkHeader.size m'.firstChunk (pre ++ freed c run rest ++ rest) →
            y + d.size ≤ page * PAGESIZE) ∧
          ∀ y d, (y, d) ∈ layout ChunkHeader.size m.firstChunk cs → d.notOurs = true →
            y + d.size ≤ page * PAGESIZE) ∧
      Keeps (fun d => d.used = true) m m' cs (pre ++ freed c run rest ++ rest) (some x) := by
  obtain ⟨pre, suf, rfl, rfl⟩ := layout_split chunk
  obtain ⟨run, rest, rfl, hrun, hrest⟩ := exists_run suf
  have hlength : run.length < fuel := by
    simp only [List.length_append, List.length_cons] at enough
    omega
  obtain ⟨m', hfree, k, hfreed⟩ := ((free_spec tiles rfl ready aligned used hrun hrest).mono
    (fun _ h => h) (fun _ h => h) (fun h => absurd h (not_le.2 hlength))).exists_done
  have hlast := hfreed.last
  have hpage : PAGESIZE = 4096 := rfl
  have hheader : HEADER_SIZE = 8 := rfl
  refine ⟨pre, run, rest, m', k, rfl, rfl, hrun, hrest, hfree, hfreed.tiles, ?_, hfreed.first, ?_,
    hlast, hfreed.inside, hfreed.lowest, hfreed.owner aligned, fun page hle hlt => ?_, hfreed.keeps⟩
  · -- the first chunk is no whole number of pages when it is the last one
    intro hnil
    simp only [List.append_eq_nil_iff] at hnil
    obtain ⟨⟨rfl, hnone⟩, rfl⟩ := hnil
    have hreach := tiles.reach
    simp only [List.nil_append, List.append_nil, span_cons] at hreach
    rw [freed_end] at hnone
    split_ifs at hnone with hzero
    rw [hpage] at hzero first aligned
    omega
  · rw [hpage] at aligned hlast ⊢
    omega
  · have hk : k ≠ 0 := by
      rintro rfl
      omega
    have hrest : rest = [] := by
      by_contra hne
      exact hk (hfreed.inside hne)
    have hlow := (hfreed.lowest hrest).1
    rw [hpage] at aligned hlast hle hlt ⊢
    rw [hheader] at hle hlt ⊢
    have hbelow : ∀ y d, (y, d) ∈ layout ChunkHeader.size m'.firstChunk
        (pre ++ freed c run rest ++ rest) → y + d.size ≤ page * 4096 := by
      intro y d hd
      have hbounds := (hfreed.tiles.bounds hd).2.1
      omega
    refine ⟨by omega, by omega, hbelow, fun y d hd hnot => ?_⟩
    have hne : y ≠ m.firstChunk + span ChunkHeader.size pre := by
      intro heq
      rcases layout_apart hd chunk with ⟨-, rfl⟩ | hapart | hapart
      · rw [ours] at hnot
        cases hnot
      · have hpos := (tiles.bounds hd).2.2.2.1
        omega
      · have hpos := (tiles.bounds chunk).2.2.2.1
        omega
    exact hbelow y d (hfreed.keeps y d hd (notOurs d (mem_of_layout hd) hnot)
      fun h => hne (Option.some.inj h)).1

/-- Two blocks and two free chunks on two pages. -/
def trailingChunks : List ChunkHeader :=
  [⟨1000, MAGIC, true, false⟩, ⟨3000, MAGIC, true, false⟩, ⟨2000, MAGIC, false, false⟩,
    ⟨2184, MAGIC, false, false⟩]

/-- The second block takes in the chunks behind it, and their page is given back. -/
theorem free_releases_page : ∃ m', (heapOf (bootPages 259) trailingChunks).free 4
    (257 * PAGESIZE + 1000 + HEADER_SIZE) = .done m' ∧
      m'.endOfChunks + PAGESIZE = (heapOf (bootPages 259) trailingChunks).endOfChunks ∧
        m'.pages.owner 258 = none := by
  have tiles : Tiles headerSizes (heapOf (bootPages 259) trailingChunks) trailingChunks := by decide +kernel
  obtain ⟨pre, run, rest, m', k, hlist, hx, -, hrest, hfree, -, -, -, -, hlast, -, hlow, howner, -⟩ :=
    free_releases (x := 257 * PAGESIZE + 1000) (c := ⟨3000, MAGIC, true, false⟩) tiles rfl (by decide)
      (by decide) (by decide) (by decide) rfl rfl (by decide : trailingChunks.length ≤ 4)
  obtain ⟨p, rfl⟩ : ∃ p, pre = [p] := by
    unfold trailingChunks at hlist
    match pre with
    | [] => exact absurd hx (by decide)
    | [p] => exact ⟨p, rfl⟩
    | p :: q :: pre =>
      simp only [List.cons_append, List.cons.injEq] at hlist
      obtain ⟨rfl, rfl, -⟩ := hlist
      simp only [span_cons] at hx
      change 257 * 4096 + (1000 + (3000 + _)) = 257 * 4096 + 1000 at hx
      omega
  have hbehind : run ++ rest = [⟨2000, MAGIC, false, false⟩, ⟨2184, MAGIC, false, false⟩] :=
    (List.cons.inj (List.cons.inj hlist).2).2.symm
  have hnil : rest = [] := by
    cases rest with
    | nil => rfl
    | cons d rest =>
      have hd : d ∈ run ++ d :: rest := by simp
      rw [hbehind] at hd
      have hused := hrest d rfl
      have hfree : ∀ e ∈ [(⟨2000, MAGIC, false, false⟩ : ChunkHeader), ⟨2184, MAGIC, false, false⟩],
          e.used = false := by decide
      exact Bool.noConfusion (hused.symm.trans (hfree d hd))
  have hroom : m'.endOfChunks + k * 4096 = 257 * 4096 + 8184 := hlast
  have hbound : 257 * 4096 + 1000 ≤ m'.endOfChunks ∧ m'.endOfChunks < 257 * 4096 + 1000 + 4096 := hlow hnil
  have hend : m'.endOfChunks = 257 * 4096 + 4088 := by omega
  refine ⟨m', hfree, ?_, ?_⟩
  · rw [hend]
    rfl
  · rw [howner, hend]
    rfl

end Release

end Malloc
