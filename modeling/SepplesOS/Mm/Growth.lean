import SepplesOS.Mm.WellFormed

/-!
# The growth of the heap

When no chunk is large enough, `malloc` maps pages behind `endOfChunks`.  A free last chunk grows with
them; behind a used one they become a chunk of their own.  Pages that others have mapped are wrapped
in a chunk that is not ours, and what is needed is counted again from behind them.
-/

namespace Malloc

open Tiling KernelPages

/-- The pages that `n` bytes take. -/
def pagesFor (n : ℕ) : ℕ := (n + PAGESIZE - 1) / PAGESIZE

/-- What the growth has got so far: `k` pages from the page `p` on, with nothing wrapped. -/
structure Grew (g g' : Growth) (p k : ℕ) : Prop where
  owner : ∀ q, g'.m.pages.owner q =
    if p ≤ q ∧ q < p + k then some .heap else g.m.pages.owner q
  frames : g'.m.pages.frames = none
  wf : g'.m.pages.Wf
  dirs : ∀ dir, g.m.pages.dirs dir = true → g'.m.pages.dirs dir = true
  first : g'.m.firstChunk = g.m.firstChunk
  last : g'.m.endOfChunks = g.m.endOfChunks + k * PAGESIZE
  ready : g'.m.mallocReady = g.m.mallocReady
  used : g'.m.totalMemUsed = g.m.totalMemUsed + UInt64.ofNat (k * PAGESIZE)
  allocated : g'.m.totalMemAllocated = g.m.totalMemAllocated
  other : g'.other = g.other
  oldEnd : g'.oldEndOfChunks = g.oldEndOfChunks
  total : g'.totalAlloced = g.totalAlloced + k * PAGESIZE
  need : g'.needToAlloc = g.needToAlloc - k * PAGESIZE
  header : g'.m.header g.other = if (g.m.header g.other).used then g.m.header g.other
    else (g.m.header g.other).enlarge (k * PAGESIZE)
  mem : ∀ y, (g.m.header g.other).used = true ∨ y < g.other ∨ g.other + HEADER_SIZE ≤ y →
    g'.m.mem y = g.m.mem y

section Pages

variable {g g' : Growth} {p k request fuel : ℕ}

theorem Grew.refl (frames : g.m.pages.frames = none) (wf : g.m.pages.Wf) (p : ℕ) :
    Grew g g p 0 where
  owner := fun q => (if_neg (by omega)).symm
  frames := frames
  wf := wf
  dirs := fun _ => id
  first := rfl
  last := by rw [Nat.zero_mul, Nat.add_zero]
  ready := rfl
  used := by rw [Nat.zero_mul]; exact (add_zero _).symm
  allocated := rfl
  other := rfl
  oldEnd := rfl
  total := by simp
  need := by rw [Nat.zero_mul, Nat.sub_zero]
  header := by rw [Nat.zero_mul, ChunkHeader.enlarge_zero, ite_self]
  mem := fun _ _ => rfl

/-- Only the pages differ. -/
structure SameButPages (g g' : Growth) : Prop where
  mem : g'.m.mem = g.m.mem
  first : g'.m.firstChunk = g.m.firstChunk
  last : g'.m.endOfChunks = g.m.endOfChunks
  ready : g'.m.mallocReady = g.m.mallocReady
  used : g'.m.totalMemUsed = g.m.totalMemUsed
  allocated : g'.m.totalMemAllocated = g.m.totalMemAllocated
  other : g'.other = g.other
  oldEnd : g'.oldEndOfChunks = g.oldEndOfChunks
  total : g'.totalAlloced = g.totalAlloced
  need : g'.needToAlloc = g.needToAlloc

theorem sameButPages (g : Growth) (pages : KernelPages) :
    SameButPages g { g with m := { g.m with pages := pages } } :=
  ⟨rfl, rfl, rfl, rfl, rfl, rfl, rfl, rfl, rfl, rfl⟩

theorem addPage_used (used : (g.m.header g.other).used = true) : (addPage g).m.mem = g.m.mem := by
  unfold addPage
  dsimp only
  rw [if_pos used]

theorem addPage_free (free : ¬(g.m.header g.other).used = true) :
    (addPage g).m.mem = (g.m.putHeader g.other ((g.m.header g.other).enlarge PAGESIZE)).mem := by
  unfold addPage
  dsimp only
  rw [if_neg free]
  rfl

theorem addPage_fields (g : Growth) : (addPage g).m.pages = g.m.pages ∧
    (addPage g).m.firstChunk = g.m.firstChunk ∧
    (addPage g).m.endOfChunks = g.m.endOfChunks + PAGESIZE ∧
    (addPage g).m.mallocReady = g.m.mallocReady ∧
    (addPage g).m.totalMemUsed = g.m.totalMemUsed + UInt64.ofNat PAGESIZE ∧
    (addPage g).m.totalMemAllocated = g.m.totalMemAllocated := by
  unfold addPage
  dsimp only
  split_ifs
  · exact ⟨rfl, rfl, rfl, rfl, rfl, rfl⟩
  · exact ⟨rfl, rfl, rfl, rfl, rfl, rfl⟩

theorem Grew.succ {g₁ : Growth} (grew : Grew g g' p k) (same : SameButPages g' g₁)
    (maps : MapsOne g'.m.pages g₁.m.pages .heap (p + k)) (wf : g₁.m.pages.Wf)
    (magic : (g.m.header g.other).magic = MAGIC)
    (size : (g.m.header g.other).size + (k + 1) * PAGESIZE < 2 ^ 48) :
    Grew g (addPage g₁) p (k + 1) := by
  have hother : g₁.other = g.other := same.other.trans grew.other
  have hheader : g₁.m.header g.other = if (g.m.header g.other).used then g.m.header g.other
      else (g.m.header g.other).enlarge (k * PAGESIZE) :=
    (header_congr fun i _ _ => congrFun same.mem i).trans grew.header
  have hsucc : (k + 1) * PAGESIZE = k * PAGESIZE + PAGESIZE := Nat.succ_mul _ _
  obtain ⟨hpages, hfirst, hlast, hready, husedMem, hallocated⟩ := addPage_fields g₁
  constructor
  case owner =>
    intro q
    rw [hpages, maps.owner]
    by_cases hq : q = p + k
    · rw [hq, Function.update_self, if_pos (by omega)]
    · rw [Function.update_of_ne hq, grew.owner]
      exact if_congr (by omega) rfl rfl
  case frames =>
    rw [hpages]
    exact maps.frames grew.frames
  case wf =>
    rw [hpages]
    exact wf
  case dirs =>
    intro d hd
    rw [hpages]
    exact maps.dirs d (grew.dirs d hd)
  case first => rw [hfirst, same.first, grew.first]
  case last => rw [hlast, same.last, grew.last, hsucc, Nat.add_assoc]
  case ready => rw [hready, same.ready, grew.ready]
  case used => rw [husedMem, same.used, grew.used, hsucc, UInt64.ofNat_add, add_assoc]
  case allocated => rw [hallocated, same.allocated, grew.allocated]
  case other => exact hother
  case oldEnd => exact same.oldEnd.trans grew.oldEnd
  case total =>
    show g₁.totalAlloced + (PAGESIZE : ℤ) = _
    rw [same.total, grew.total, Nat.cast_succ]
    ring
  case need =>
    show g₁.needToAlloc - min g₁.needToAlloc PAGESIZE = _
    rw [same.need, grew.need, hsucc]
    omega
  case header =>
    by_cases hused : (g.m.header g.other).used = true
    · rw [if_pos hused] at hheader ⊢
      have hmem := addPage_used (g := g₁) (by rw [hother, hheader, hused])
      rw [header_congr fun i _ _ => congrFun hmem i, hheader]
    · rw [if_neg hused] at hheader ⊢
      have hmem := addPage_free (g := g₁) (by
        rw [hother, hheader, ChunkHeader.enlarge_used]
        exact hused)
      rw [header_congr fun i _ _ => congrFun hmem i, hother, hheader,
        ChunkHeader.enlarge_enlarge, ← hsucc]
      exact header_putHeader size magic
  case mem =>
    intro y hy
    by_cases hused : (g.m.header g.other).used = true
    · rw [if_pos hused] at hheader
      rw [addPage_used (g := g₁) (by rw [hother, hheader, hused]), same.mem, grew.mem y hy]
    · rw [if_neg hused] at hheader
      have hmem := addPage_free (g := g₁) (by
        rw [hother, hheader, ChunkHeader.enlarge_used]
        exact hused)
      rw [hmem, hother, putHeader_mem (hy.resolve_left hused), same.mem, grew.mem y hy]

theorem grow_page (need : g.needToAlloc ≠ 0) (place : g.m.endOfChunks + HEADER_SIZE = p * PAGESIZE)
    (frames : g.m.pages.frames = none) (wf : g.m.pages.Wf) (low : p < END_OF_PAGES)
    (unmapped : g.m.pages.owner p = none) :
    ∃ pages, MapsOne g.m.pages pages .heap p ∧ pages.Wf ∧ ∀ fuel, grow request (fuel + 1) g =
      grow request fuel (addPage { g with m := { g.m with pages := pages } }) := by
  have hpos : 0 < p := by
    rcases Nat.eq_zero_or_pos p with rfl | hpos
    · rw [Nat.zero_mul] at place
      exact absurd place (Nat.succ_ne_zero _)
    · exact hpos
  obtain ⟨pages, hmap, maps, wf'⟩ := mapPageAt_unmapped wf frames low unmapped
  refine ⟨pages, maps, wf', fun fuel => ?_⟩
  rw [grow, if_neg need, place, mapPage_of_pos hpos, hmap]
  simp only [Run.ofOption_some, Run.done_bind]
  rw [if_neg (by rw [place]; exact fun h => h rfl)]

theorem grow_pages {g₀ : Growth} {j : ℕ} (request : ℕ) (grew : Grew g g₀ p j)
    (place : g.m.endOfChunks + HEADER_SIZE = p * PAGESIZE) (low : p + (j + k) ≤ END_OF_PAGES)
    (clean : ∀ i < j + k, g.m.pages.owner (p + i) = none)
    (needed : ∀ i < j + k, i * PAGESIZE < g.needToAlloc)
    (magic : (g.m.header g.other).magic = MAGIC)
    (size_lt : (g.m.header g.other).size + (j + k) * PAGESIZE < 2 ^ 48) :
    ∃ g', Grew g g' p (j + k) ∧ ∀ fuel, grow request (fuel + k) g₀ = grow request fuel g' := by
  induction k with
  | zero => exact ⟨g₀, grew, fun _ => rfl⟩
  | succ k ih =>
    have hsucc : (j + (k + 1)) * PAGESIZE = (j + k) * PAGESIZE + PAGESIZE := Nat.succ_mul _ _
    obtain ⟨g', grew', hgrow⟩ := ih (by omega) (fun i hi => clean i (by omega))
      (fun i hi => needed i (by omega)) (by omega)
    have hneed : g'.needToAlloc ≠ 0 := by
      have h := needed (j + k) (Nat.lt_succ_self _)
      rw [grew'.need]
      omega
    have hplace : g'.m.endOfChunks + HEADER_SIZE = (p + (j + k)) * PAGESIZE := by
      rw [grew'.last, Nat.add_mul p, ← place]
      omega
    have hunmapped : g'.m.pages.owner (p + (j + k)) = none := by
      rw [grew'.owner, if_neg (by omega)]
      exact clean (j + k) (Nat.lt_succ_self _)
    obtain ⟨pages, maps, wf', hround⟩ :=
      grow_page hneed hplace grew'.frames grew'.wf (by omega) hunmapped
    refine ⟨_, grew'.succ (sameButPages g' pages) maps wf' magic (by rw [Nat.add_assoc, hsucc]; omega),
      fun fuel => ?_⟩
    rw [show fuel + (k + 1) = fuel + 1 + k by omega, hgrow, hround]

end Pages

/-! ## Wrapping -/

/-- The state from which the growth goes on behind the pages from `p` to `q`, which are wrapped. -/
structure Restart (size : ℕ) (g g' : Growth) (p q : ℕ) : Prop where
  pages : SamePages g.m.pages g'.m.pages
  wf : g'.m.pages.Wf
  mem : g'.m.mem =
    (g.m.putHeader g.m.endOfChunks ⟨PAGESIZE * (q - p) + HEADER_SIZE, MAGIC, true, true⟩).mem
  first : g'.m.firstChunk = g.m.firstChunk
  last : g'.m.endOfChunks = g.m.endOfChunks + PAGESIZE * (q - p)
  ready : g'.m.mallocReady = g.m.mallocReady
  used : g'.m.totalMemUsed = g.m.totalMemUsed
  allocated : g'.m.totalMemAllocated = g.m.totalMemAllocated
  other : g'.other = g.m.endOfChunks
  oldEnd : g'.oldEndOfChunks = q * PAGESIZE
  total : g'.totalAlloced = -HEADER_SIZE
  need : g'.needToAlloc = size + HEADER_SIZE

section Wrap

variable {g g' : Growth} {p q k size fuel : ℕ}

theorem contigousUnmappable_eq {m : Malloc} (place : m.endOfChunks + HEADER_SIZE = p * PAGESIZE)
    (le : p ≤ q) (low : q < END_OF_PAGES) : m.contigousUnmappable (q * PAGESIZE) = q - p := by
  unfold contigousUnmappable
  have hpage : PAGESIZE = 4096 := rfl
  unfold END_OF_PAGES at low
  dsimp only
  rw [place, sub64_of_le (Nat.mul_le_mul_right _ le) (by rw [hpage]; omega), ← Nat.sub_mul,
    Nat.mul_mod_left, if_pos rfl, Nat.mul_div_cancel _ (by decide : 0 < PAGESIZE), Nat.add_zero]

/-- Wrapping: the pages from `p` on up to the first page that is not mapped become a chunk that is not
ours, and that page is mapped. -/
theorem wrap_spec (size : ℕ) (place : g.m.endOfChunks + HEADER_SIZE = p * PAGESIZE)
    (frames : g.m.pages.frames = none) (wf : g.m.pages.Wf) (first : g.m.pages.First q)
    (dir : g.m.pages.dirs (q / 2 ^ 18) = true) (lt : p < q) :
    ∃ g' g₁, Restart size g g' p q ∧ SameButPages g' g₁ ∧
      MapsOne g'.m.pages g₁.m.pages .heap q ∧ g₁.m.pages.Wf ∧
        wrap (size + HEADER_SIZE) g = .done g₁ := by
  obtain ⟨pages, hlook⟩ := getUnmappedVAddr_of_dir wf frames first dir
  obtain ⟨q', hq', haddr, -, same, -, -, wf₁⟩ := getUnmappedVAddr_some wf hlook
  obtain rfl := first.unique hq'
  obtain ⟨pages', hmap, maps, wf₂⟩ := mapPageAt_unmapped wf₁ (same.frames frames) first.low
    (same.owner ▸ first.unmapped)
  have hlow := first.low
  unfold END_OF_PAGES at hlow
  have hpage : PAGESIZE = 4096 := rfl
  have hheader : HEADER_SIZE = 8 := rfl
  have hpos : 0 < q := by omega
  have hcount : contigousUnmappable { g.m with pages := pages } (q * PAGESIZE) = q - p :=
    contigousUnmappable_eq place lt.le first.low
  have hwrap : (putHeader { g.m with pages := pages } g.m.endOfChunks
      ⟨PAGESIZE * (q - p) + HEADER_SIZE, MAGIC, true, true⟩).header g.m.endOfChunks =
        ⟨PAGESIZE * (q - p) + HEADER_SIZE, MAGIC, true, true⟩ := by
    refine header_putHeader ?_ rfl
    show PAGESIZE * (q - p) + HEADER_SIZE < 2 ^ 48
    rw [hpage, hheader]
    omega
  have hend : (g.m.endOfChunks + PAGESIZE * (q - p)) % 2 ^ 64 =
      g.m.endOfChunks + PAGESIZE * (q - p) := by
    refine Nat.mod_eq_of_lt ?_
    rw [hpage] at place ⊢
    omega
  have hstop : g.m.endOfChunks + (PAGESIZE * (q - p) + HEADER_SIZE) = q * PAGESIZE := by
    rw [hpage] at place ⊢
    omega
  let m' : Malloc :=
    { putHeader g.m g.m.endOfChunks ⟨PAGESIZE * (q - p) + HEADER_SIZE, MAGIC, true, true⟩ with
      pages := pages
      endOfChunks := g.m.endOfChunks + PAGESIZE * (q - p) }
  refine ⟨⟨m', g.m.endOfChunks, q * PAGESIZE, -HEADER_SIZE, size + HEADER_SIZE⟩,
    ⟨{ m' with pages := pages' }, g.m.endOfChunks, q * PAGESIZE, -HEADER_SIZE, size + HEADER_SIZE⟩,
    ⟨same, wf₁, rfl, rfl, rfl, rfl, rfl, rfl, rfl, rfl, rfl, rfl⟩,
    ⟨rfl, rfl, rfl, rfl, rfl, rfl, rfl, rfl, rfl, rfl⟩, maps, wf₂, ?_⟩
  unfold wrap
  dsimp only
  rw [hlook]
  simp only [Run.ofOption_some, Run.done_bind]
  rw [hcount, putHeader_pages, mapPage_of_pos hpos, hmap]
  simp only [Run.ofOption_some, Run.done_bind]
  dsimp only at hwrap
  simp only [putHeader_endOfChunks]
  rw [hwrap, hend, hstop]
  rfl

theorem Restart.header (restart : Restart size g g' p q)
    (low : q < END_OF_PAGES) : g'.m.header g'.other =
      ⟨PAGESIZE * (q - p) + HEADER_SIZE, MAGIC, true, true⟩ := by
  unfold END_OF_PAGES at low
  rw [restart.other, header_congr fun i _ _ => congrFun restart.mem i]
  refine header_putHeader ?_ rfl
  show 4096 * (q - p) + 8 < 2 ^ 48
  omega

theorem Restart.place (restart : Restart size g g' p q)
    (place : g.m.endOfChunks + HEADER_SIZE = p * PAGESIZE) (le : p ≤ q) :
    g'.m.endOfChunks + HEADER_SIZE = q * PAGESIZE := by
  have hpage : PAGESIZE = 4096 := rfl
  rw [restart.last]
  rw [hpage] at place ⊢
  omega

theorem lt_pagesFor {n i : ℕ} : i < pagesFor n ↔ i * PAGESIZE < n := by
  unfold pagesFor
  have hpage : PAGESIZE = 4096 := rfl
  rw [hpage]
  omega

theorem grow_wrap (place : g.m.endOfChunks + HEADER_SIZE = p * PAGESIZE)
    (need : g.needToAlloc ≠ 0) (frames : g.m.pages.frames = none) (wf : g.m.pages.Wf)
    (mapped : g.m.pages.owner p ≠ none) (first : g.m.pages.First q)
    (dir : g.m.pages.dirs (q / 2 ^ 18) = true) (lt : p < q)
    (low : q + pagesFor (size + HEADER_SIZE) ≤ END_OF_PAGES)
    (clean : ∀ i < pagesFor (size + HEADER_SIZE), g.m.pages.owner (q + i) = none) :
    ∃ g' g₃, Restart size g g' p q ∧ Grew g' g₃ q (pagesFor (size + HEADER_SIZE)) ∧
      ∀ fuel, grow (size + HEADER_SIZE) (fuel + pagesFor (size + HEADER_SIZE)) g =
        grow (size + HEADER_SIZE) fuel g₃ := by
  obtain ⟨g', g₁, restart, same, maps, wf₁, hwrap⟩ := wrap_spec size place frames wf first dir lt
  have hheader := restart.header first.low
  have hpos : 0 < p := by
    rcases Nat.eq_zero_or_pos p with rfl | hpos
    · rw [Nat.zero_mul] at place
      exact absurd place (Nat.succ_ne_zero _)
    · exact hpos
  have hlow := low
  unfold END_OF_PAGES at hlow
  have hpage : PAGESIZE = 4096 := rfl
  have hone : 0 < pagesFor (size + HEADER_SIZE) := lt_pagesFor.2 (by
    rw [Nat.zero_mul]
    exact Nat.succ_pos _)
  have hsize : (g'.m.header g'.other).size + pagesFor (size + HEADER_SIZE) * PAGESIZE < 2 ^ 48 := by
    rw [hheader]
    show 4096 * (q - p) + 8 + pagesFor (size + HEADER_SIZE) * 4096 < 2 ^ 48
    omega
  have hround : ∀ fuel, grow (size + HEADER_SIZE) (fuel + 1) g =
      grow (size + HEADER_SIZE) fuel (addPage g₁) := by
    intro fuel
    rw [grow, if_neg need, place, mapPage_of_pos hpos, mapPageAt_mapped wf mapped]
    simp only [Run.ofOption_some, Run.done_bind]
    rw [if_pos (by rw [place]; exact (Nat.mul_pos hpos (by decide)).ne), hwrap]
    rfl
  have grew₁ : Grew g' (addPage g₁) q (0 + 1) := by
    refine (Grew.refl (restart.pages.frames frames) restart.wf q).succ same maps wf₁ ?_ ?_
    · rw [hheader]
    · refine lt_of_le_of_lt (Nat.add_le_add_left (Nat.mul_le_mul_right _ ?_) _) hsize
      omega
  obtain ⟨g₃, grew₃, hrounds⟩ := grow_pages (k := pagesFor (size + HEADER_SIZE) - 1) (size + HEADER_SIZE) grew₁
    (restart.place place lt.le) (by omega)
    (fun i hi => by
      rw [restart.pages.owner]
      exact clean i (by omega))
    (fun i hi => by
      rw [restart.need]
      exact lt_pagesFor.1 (by omega))
    (by rw [hheader])
    (by rw [show 0 + 1 + (pagesFor (size + HEADER_SIZE) - 1) = pagesFor (size + HEADER_SIZE) by omega]; exact hsize)
  rw [show 0 + 1 + (pagesFor (size + HEADER_SIZE) - 1) = pagesFor (size + HEADER_SIZE) by omega]
    at grew₃
  refine ⟨g', g₃, restart, grew₃, fun fuel => ?_⟩
  rw [show fuel + pagesFor (size + HEADER_SIZE) =
    fuel + (pagesFor (size + HEADER_SIZE) - 1) + 1 by omega, hround, hrounds]

end Wrap

/-! ## The growth as a whole -/

/-- What the growth needs behind the last chunk. -/
def lacking (c : ChunkHeader) (size : ℕ) : ℕ :=
  if c.used then size + HEADER_SIZE else size + HEADER_SIZE - c.size

/-- The heap has got the pages of a set, and counts them. -/
structure MapsSet (m m' : Malloc) (new : Finset ℕ) : Prop where
  owner : ∀ q, m'.pages.owner q = if q ∈ new then some .heap else m.pages.owner q
  unmapped : ∀ q ∈ new, m.pages.owner q = none
  frames : m'.pages.frames = none
  dirs : ∀ dir, m.pages.dirs dir = true → m'.pages.dirs dir = true
  used : m'.totalMemUsed = m.totalMemUsed + UInt64.ofNat (new.card * PAGESIZE)
  allocated : m'.totalMemAllocated = m.totalMemAllocated

section Whole

variable {B : MinSizes} {m : Malloc} {pre : List ChunkHeader} {c : ChunkHeader}
  {g g' : Growth} {x p q j k size fuel : ℕ}

theorem startGrowth_eq (header : m.header x = c) :
    m.startGrowth (size + HEADER_SIZE) x = ⟨m, x, m.endOfChunks, 0, lacking c size⟩ := by
  unfold startGrowth lacking
  dsimp only
  rw [header, show size + HEADER_SIZE - min (size + HEADER_SIZE) c.size =
    size + HEADER_SIZE - c.size by omega]

theorem Grew.mapsSet (grew : Grew g g' p k) (clean : ∀ i < k, g.m.pages.owner (p + i) = none) :
    MapsSet g.m g'.m (Finset.Ico p (p + k)) where
  owner := fun q => by
    rw [grew.owner]
    exact if_congr (by rw [Finset.mem_Ico]) rfl rfl
  unmapped := fun q hq => by
    rw [Finset.mem_Ico] at hq
    have h := clean (q - p) (by omega)
    rwa [show p + (q - p) = q by omega] at h
  frames := grew.frames
  dirs := grew.dirs
  used := by rw [Nat.card_Ico, Nat.add_sub_cancel_left, grew.used]
  allocated := grew.allocated

theorem grow_done {request : ℕ} (enough : g.needToAlloc = 0) :
    grow request (fuel + 1) g = .done g := by
  rw [grow, if_pos enough]

theorem sub_pagesFor (n : ℕ) : n - pagesFor n * PAGESIZE = 0 := by
  unfold pagesFor
  have hpage : PAGESIZE = 4096 := rfl
  rw [hpage]
  omega

theorem MapsSet.heap_tail {m' : Malloc} {new : Finset ℕ} (maps : MapsSet m m' new)
    (h : WellFormed B m (pre ++ [c])) (start : m.firstChunk + span ChunkHeader.size pre = x)
    (place : m.endOfChunks + HEADER_SIZE = p * PAGESIZE) (sub : Finset.Ico p (p + k) ⊆ new) :
    ∀ y, x ≤ y → y < (p + k) * PAGESIZE → m'.pages.owner (y / PAGESIZE) = some .heap := by
  intro y hle hlt
  have hreach := h.tiles.reach
  simp only [span_append, span_cons, span_nil] at hreach
  have hmem := mem_layout_of m pre c []
  rw [start] at hmem
  have hpage : PAGESIZE = 4096 := rfl
  have hheader : HEADER_SIZE = 8 := rfl
  rw [maps.owner]
  split_ifs with hnew
  · rfl
  · have hnot : ¬(p ≤ y / PAGESIZE ∧ y / PAGESIZE < p + k) := fun hin =>
      hnew (sub (Finset.mem_Ico.2 hin))
    rw [hpage] at hnot place hlt
    by_cases hy : y < m.endOfChunks
    · exact (h.owned x c hmem).ours h.last_ours y hle (by omega)
    · have hreserved := h.reserved
      rw [hpage] at hreserved ⊢
      rwa [show y / 4096 = m.endOfChunks / 4096 by omega]

theorem MapsSet.below {m' : Malloc} {new : Finset ℕ} (maps : MapsSet m m' new)
    (above : ∀ q ∈ new, p ≤ q) : ∀ q < p, m'.pages.owner q = m.pages.owner q := by
  intro q hq
  rw [maps.owner, if_neg fun hin => absurd (above q hin) (not_le.2 hq)]

/-- Behind the new end there are no pages of the heap. -/
theorem MapsSet.beyond {m' : Malloc} {new : Finset ℕ} (maps : MapsSet m m' new)
    (h : WellFormed B m (pre ++ [c])) (le : m.endOfChunks ≤ m'.endOfChunks)
    (inside : ∀ q ∈ new, q ≤ m'.endOfChunks / PAGESIZE) :
    ∀ q, m'.endOfChunks / PAGESIZE < q → m'.pages.owner q ≠ some .heap := by
  intro q hq
  rw [maps.owner, if_neg fun hin => absurd (inside q hin) (not_le.2 hq)]
  exact h.beyond q (lt_of_le_of_lt (Nat.div_le_div_right le) hq)

theorem MapsSet.put {m' : Malloc} {new : Finset ℕ} (maps : MapsSet m m' new) (z : ℕ)
    (e : ChunkHeader) : MapsSet m (m'.putHeader z e) new :=
  ⟨maps.owner, maps.unmapped, maps.frames, maps.dirs, maps.used, maps.allocated⟩

theorem grow_first (size : ℕ) (h : WellFormed B m (pre ++ [c]))
    (start : m.firstChunk + span ChunkHeader.size pre = x)
    (place : m.endOfChunks + HEADER_SIZE = p * PAGESIZE) (frames : m.pages.frames = none)
    (low : p + j ≤ END_OF_PAGES) (le : j ≤ pagesFor (lacking c size))
    (clean : ∀ i < j, m.pages.owner (p + i) = none) :
    ∃ g', Grew ⟨m, x, m.endOfChunks, 0, lacking c size⟩ g' p j ∧
      ∀ fuel, grow (size + HEADER_SIZE) (fuel + j) (m.startGrowth (size + HEADER_SIZE) x) =
        grow (size + HEADER_SIZE) fuel g' := by
  have hat : m.header x = c ∧ c.magic = MAGIC := by
    rw [← start]
    exact h.tiles.at
  have hreach := h.tiles.reach
  simp only [span_append, span_cons, span_nil] at hreach
  have hpage : PAGESIZE = 4096 := rfl
  have hlow := low
  unfold END_OF_PAGES at hlow
  rw [startGrowth_eq hat.1]
  obtain ⟨g', grew, hgrow⟩ := grow_pages (j := 0) (k := j) (size + HEADER_SIZE)
    (Grew.refl (g := ⟨m, x, m.endOfChunks, 0, lacking c size⟩) frames h.pages p) place
    (by omega) (fun i hi => clean i (by omega))
    (fun i hi => lt_pagesFor.1 (show i < pagesFor (lacking c size) by omega))
    (by rw [hat.1]; exact hat.2)
    (by
      rw [Nat.zero_add]
      show (m.header x).size + j * PAGESIZE < 2 ^ 48
      rw [hat.1, hpage]
      rw [hpage] at place
      omega)
  rw [Nat.zero_add] at grew
  exact ⟨g', grew, hgrow⟩

theorem Grew.enlarges {need : ℕ} (h : WellFormed B m (pre ++ [c])) (free : c.used = false)
    (start : m.firstChunk + span ChunkHeader.size pre = x)
    (place : m.endOfChunks + HEADER_SIZE = p * PAGESIZE) (low : p + j ≤ END_OF_PAGES)
    (clean : ∀ i < j, m.pages.owner (p + i) = none)
    (grew : Grew ⟨m, x, m.endOfChunks, 0, need⟩ g' p j) :
    WellFormed B g'.m (pre ++ [c.enlarge (j * PAGESIZE)]) ∧
      Keeps (fun d => d.used = true) m g'.m (pre ++ [c])
        (pre ++ [c.enlarge (j * PAGESIZE)]) none ∧
      g'.m.header x = c.enlarge (j * PAGESIZE) := by
  have hat : m.header x = c ∧ c.magic = MAGIC := by
    rw [← start]
    exact h.tiles.at
  have hreach := h.tiles.reach
  simp only [span_append, span_cons, span_nil] at hreach
  have hpage : PAGESIZE = 4096 := rfl
  have hheader : HEADER_SIZE = 8 := rfl
  unfold END_OF_PAGES at low
  have hmaps : MapsSet m g'.m (Finset.Ico p (p + j)) := grew.mapsSet clean
  have hlast : g'.m.endOfChunks = m.endOfChunks + j * PAGESIZE := grew.last
  have hnew : g'.m.header x = c.enlarge (j * PAGESIZE) := by
    refine grew.header.trans ?_
    show (if (m.header x).used then m.header x else (m.header x).enlarge (j * PAGESIZE)) = _
    rw [hat.1, if_neg (by simp [free])]
  have hsized := sized_append_cons.1 h.tiles.sized
  have hresult := h.regrow (C := B) (L := [c.enlarge (j * PAGESIZE)]) start place
    grew.first (fun y hy => grew.mem y (Or.inr (Or.inl hy)))
    (fun z e he => by
      rw [layout_cons, layout_nil, List.mem_singleton] at he
      obtain ⟨rfl, rfl⟩ := Prod.mk.inj he
      exact ⟨hnew, hat.2⟩)
    (by
      rw [span_cons, span_nil, ChunkHeader.enlarge_size, hlast]
      omega)
    (sized_append_cons.2 ⟨hsized.1, hsized.2.trans (Nat.le_add_right _ _)⟩)
    (by
      rw [hlast]
      rw [hpage] at place ⊢
      omega)
    grew.ready grew.wf
    (by
      have haligned := h.aligned
      rw [hlast]
      rw [hpage] at haligned ⊢
      omega)
    (hmaps.below fun q hq => (Finset.mem_Ico.1 hq).1)
    (fun z e he => by
      rw [layout_cons, layout_nil, List.mem_singleton] at he
      obtain ⟨rfl, rfl⟩ := Prod.mk.inj he
      refine Owned.of_ours h.last_ours fun y hle hlt =>
        hmaps.heap_tail h start place subset_rfl y hle ?_
      rw [ChunkHeader.enlarge_size, hpage] at hlt
      rw [hpage] at place ⊢
      omega)
    (hmaps.beyond h (by omega) fun q hq => by
      rw [Finset.mem_Ico] at hq
      rw [hlast]
      rw [hpage] at place ⊢
      omega)
    (fun hused => by
      rw [free] at hused
      cases hused)
  exact ⟨hresult.1, hresult.2, hnew⟩

/-- The growth of a free last chunk, with no page of others in the way. -/
theorem growAtEnd_free (size : ℕ) (h : WellFormed B m (pre ++ [c])) (free : c.used = false)
    (start : m.firstChunk + span ChunkHeader.size pre = x)
    (place : m.endOfChunks + HEADER_SIZE = p * PAGESIZE) (frames : m.pages.frames = none)
    (low : p + pagesFor (lacking c size) ≤ END_OF_PAGES)
    (clean : ∀ i < pagesFor (lacking c size), m.pages.owner (p + i) = none) :
    ∃ m', WellFormed B m' (pre ++ [c.enlarge (pagesFor (lacking c size) * PAGESIZE)]) ∧
      Keeps (fun d => d.used = true) m m' (pre ++ [c])
        (pre ++ [c.enlarge (pagesFor (lacking c size) * PAGESIZE)]) none ∧
      m'.firstChunk = m.firstChunk ∧
      MapsSet m m' (Finset.Ico p (p + pagesFor (lacking c size))) ∧
      ∀ fuel, m.growAtEnd (fuel + 1 + pagesFor (lacking c size)) size x =
        if c.size + pagesFor (lacking c size) * PAGESIZE < realsizeOf size then .halted m'
        else .done (m', x) := by
  obtain ⟨g', grew, hgrow⟩ := grow_first size h start place frames low le_rfl clean
  obtain ⟨hwf, hkeeps, hnew⟩ := Grew.enlarges h free start place low clean grew
  refine ⟨g'.m, hwf, hkeeps, grew.first, grew.mapsSet clean, fun fuel => ?_⟩
  have hneed : g'.needToAlloc = 0 := by
    rw [grew.need]
    exact sub_pagesFor _
  have hother : g'.other = x := grew.other
  unfold growAtEnd growFor
  rw [hgrow, grow_done hneed, Run.done_bind]
  unfold useGrowth
  dsimp only
  rw [hother, hnew, if_neg (not_not.2 hwf.aligned), if_pos (by simp [free]), ChunkHeader.enlarge_size]

theorem growAtEnd_used (h : WellFormed B m (pre ++ [c])) (used : c.used = true)
    (inner : B.inner ≤ c.size) (start : m.firstChunk + span ChunkHeader.size pre = x)
    (place : m.endOfChunks + HEADER_SIZE = p * PAGESIZE) (frames : m.pages.frames = none)
    (low : p + pagesFor (lacking c size) ≤ END_OF_PAGES)
    (clean : ∀ i < pagesFor (lacking c size), m.pages.owner (p + i) = none) :
    ∃ m', WellFormed B m'
        (pre ++ [c] ++ [⟨pagesFor (lacking c size) * PAGESIZE, MAGIC, false, false⟩]) ∧
      Keeps (fun d => d.used = true) m m' (pre ++ [c])
        (pre ++ [c] ++ [⟨pagesFor (lacking c size) * PAGESIZE, MAGIC, false, false⟩]) none ∧
      m'.firstChunk = m.firstChunk ∧
      MapsSet m m' (Finset.Ico p (p + pagesFor (lacking c size))) ∧
      ∀ fuel, m.growAtEnd (fuel + 1 + pagesFor (lacking c size)) size x =
        .done (m', m.endOfChunks) := by
  have hat : m.header x = c ∧ c.magic = MAGIC := by
    rw [← start]
    exact h.tiles.at
  have hreach := h.tiles.reach
  simp only [span_append, span_cons, span_nil] at hreach
  have hpage : PAGESIZE = 4096 := rfl
  have hheader : HEADER_SIZE = 8 := rfl
  have hlow := low
  unfold END_OF_PAGES at hlow
  have hpos : 0 < pagesFor (lacking c size) := by
    refine lt_pagesFor.2 ?_
    unfold lacking
    rw [if_pos used, Nat.zero_mul]
    exact Nat.succ_pos _
  obtain ⟨g', grew, hgrow⟩ := grow_first size h start place frames low le_rfl clean
  have hneed : g'.needToAlloc = 0 := by
    rw [grew.need]
    exact sub_pagesFor _
  generalize pagesFor (lacking c size) = k at *
  have hmem : g'.m.mem = m.mem := funext fun y => grew.mem y (Or.inl (by
    show (m.header x).used = true
    rw [hat.1, used]))
  have hmaps : MapsSet m g'.m (Finset.Ico p (p + k)) := grew.mapsSet clean
  have hlast : g'.m.endOfChunks = m.endOfChunks + k * PAGESIZE := grew.last
  have hused : (g'.m.header x).used = true := by
    rw [header_congr fun i _ _ => congrFun hmem i, hat.1, used]
  have htotal : g'.totalAlloced.toNat = k * PAGESIZE := by
    rw [grew.total]
    show ((0 : ℤ) + k * PAGESIZE).toNat = _
    rw [zero_add]
    exact Int.toNat_natCast _
  have hother : g'.other = x := grew.other
  have hchunk : g'.oldEndOfChunks = m.endOfChunks := grew.oldEnd
  have hgrowth : ∀ fuel, m.growAtEnd (fuel + 1 + k) size x =
      if g'.m.endOfChunks % PAGESIZE ≠ 0xFF8 then .halted g'.m else
        .done (g'.m.putHeader m.endOfChunks ⟨k * PAGESIZE, MAGIC, false, false⟩, m.endOfChunks) := by
    intro fuel
    unfold growAtEnd growFor
    rw [hgrow, grow_done hneed, Run.done_bind]
    unfold useGrowth
    dsimp only
    rw [hother, if_neg (not_not.2 hused), htotal, hchunk]
  have hnew : (g'.m.putHeader m.endOfChunks ⟨k * PAGESIZE, MAGIC, false, false⟩).header
      m.endOfChunks = ⟨k * PAGESIZE, MAGIC, false, false⟩ := by
    refine header_putHeader ?_ rfl
    show k * 4096 < 2 ^ 48
    omega
  have hbefore : ∀ y < m.endOfChunks,
      (g'.m.putHeader m.endOfChunks ⟨k * PAGESIZE, MAGIC, false, false⟩).mem y = m.mem y := by
    intro y hy
    rw [putHeader_mem (Or.inl hy), hmem]
  have hmaps' := hmaps.put m.endOfChunks ⟨k * PAGESIZE, MAGIC, false, false⟩
  have hfirst : (g'.m.putHeader m.endOfChunks ⟨k * PAGESIZE, MAGIC, false, false⟩).firstChunk =
      m.firstChunk := grew.first
  have hlast' : (g'.m.putHeader m.endOfChunks ⟨k * PAGESIZE, MAGIC, false, false⟩).endOfChunks =
      m.endOfChunks + k * PAGESIZE := hlast
  have hready : (g'.m.putHeader m.endOfChunks ⟨k * PAGESIZE, MAGIC, false, false⟩).mallocReady =
      m.mallocReady := grew.ready
  have hpages : (g'.m.putHeader m.endOfChunks ⟨k * PAGESIZE, MAGIC, false, false⟩).pages.Wf :=
    grew.wf
  generalize g'.m.putHeader m.endOfChunks ⟨k * PAGESIZE, MAGIC, false, false⟩ = m' at *
  have hBinner := B.header_le
  have hBlast := B.last_le.trans B.inner_le
  have hmin : MALLOC_MINSIZE = 32 := rfl
  have haligned := h.aligned
  have haligned' : m'.endOfChunks % PAGESIZE = 0xFF8 := by
    rw [hlast']
    rw [hpage] at haligned ⊢
    omega
  have hsized := sized_append_cons.1 h.tiles.sized
  have hinner : ∀ e ∈ pre ++ [c], B.inner ≤ e.size := by
    intro e he
    rw [List.mem_append, List.mem_singleton] at he
    rcases he with he | rfl
    · exact hsized.1 e he
    · exact inner
  obtain ⟨hwf, hkeeps⟩ := h.append (C := B) (L := [⟨k * PAGESIZE, MAGIC, false, false⟩]) place hfirst
    hbefore
    (fun z e he => by
      rw [layout_cons, layout_nil, List.mem_singleton] at he
      obtain ⟨rfl, rfl⟩ := Prod.mk.inj he
      exact ⟨hnew, rfl⟩)
    (by rw [span_cons, span_nil, hlast', Nat.add_zero])
    ((sized_append (by simp)).2 ⟨hinner, by
      show B.last ≤ k * PAGESIZE
      rw [hpage]
      omega⟩)
    (fun e he => hBinner.trans (hinner e he))
    (by
      rw [hlast']
      rw [hpage] at place ⊢
      omega)
    hready hpages haligned' (hmaps'.below fun q hq => (Finset.mem_Ico.1 hq).1)
    (fun z e he => by
      rw [layout_cons, layout_nil, List.mem_singleton] at he
      obtain ⟨rfl, rfl⟩ := Prod.mk.inj he
      refine Owned.of_ours rfl fun y hle hlt =>
        hmaps'.heap_tail h start place subset_rfl y (by omega) ?_
      change y < m.endOfChunks + k * PAGESIZE at hlt
      rw [hpage] at place hlt ⊢
      omega)
    (hmaps'.beyond h (by omega) fun q hq => by
      rw [Finset.mem_Ico] at hq
      rw [hlast']
      rw [hpage] at place ⊢
      omega)
  refine ⟨m', hwf, hkeeps, hfirst, hmaps', fun fuel => ?_⟩
  rw [hgrowth, hlast, ← hlast', if_neg (not_not.2 haligned')]

theorem MapsSet.trans {m' m'' : Malloc} {new new' : Finset ℕ} (maps : MapsSet m m' new)
    (maps' : MapsSet m' m'' new') : MapsSet m m'' (new ∪ new') := by
  have hdisjoint : Disjoint new new' := by
    rw [Finset.disjoint_left]
    intro q hq hq'
    have hnone := maps'.unmapped q hq'
    rw [maps.owner, if_pos hq] at hnone
    cases hnone
  constructor
  case owner =>
    intro q
    rw [maps'.owner, maps.owner]
    by_cases hq' : q ∈ new'
    · rw [if_pos hq', if_pos (Finset.mem_union_right _ hq')]
    · rw [if_neg hq']
      exact if_congr (by rw [Finset.mem_union, or_iff_left hq']) rfl rfl
  case unmapped =>
    intro q hq
    rcases Finset.mem_union.1 hq with hq | hq
    · exact maps.unmapped q hq
    · have hnone := maps'.unmapped q hq
      rw [maps.owner] at hnone
      split_ifs at hnone
      exact hnone
  case frames => exact maps'.frames
  case dirs => exact fun d hd => maps'.dirs d (maps.dirs d hd)
  case used =>
    rw [maps'.used, maps.used, Finset.card_union_of_disjoint hdisjoint, Nat.add_mul,
      UInt64.ofNat_add, add_assoc]
  case allocated => exact maps'.allocated.trans maps.allocated

/-- The growth up to the first page of others: a free last chunk has got the pages before it, and
behind a used one there are none. -/
theorem grow_before (size : ℕ) (h : WellFormed B m (pre ++ [c]))
    (start : m.firstChunk + span ChunkHeader.size pre = x)
    (place : m.endOfChunks + HEADER_SIZE = p * PAGESIZE) (frames : m.pages.frames = none)
    (low : p + j ≤ END_OF_PAGES) (le : j ≤ pagesFor (lacking c size))
    (alone : c.used = true → j = 0) (clean : ∀ i < j, m.pages.owner (p + i) = none) :
    ∃ g', Grew ⟨m, x, m.endOfChunks, 0, lacking c size⟩ g' p j ∧
      WellFormed B g'.m (pre ++ [c.enlarge (j * PAGESIZE)]) ∧
      Keeps (fun d => d.used = true) m g'.m (pre ++ [c])
        (pre ++ [c.enlarge (j * PAGESIZE)]) none ∧
      ∀ fuel, grow (size + HEADER_SIZE) (fuel + j) (m.startGrowth (size + HEADER_SIZE) x) =
        grow (size + HEADER_SIZE) fuel g' := by
  by_cases hused : c.used = true
  · obtain rfl := alone hused
    have hat : m.header x = c := by
      rw [← start]
      exact (h.tiles.at).1
    refine ⟨_, Grew.refl frames h.pages p, ?_, ?_, fun fuel => ?_⟩
    · rw [Nat.zero_mul, ChunkHeader.enlarge_zero]
      exact h
    · rw [Nat.zero_mul, ChunkHeader.enlarge_zero]
      exact Keeps.refl _ _ _ _
    · rw [startGrowth_eq hat, Nat.add_zero]
  · obtain ⟨g', grew, hgrow⟩ := grow_first size h start place frames low le clean
    obtain ⟨hwf, hkeeps, -⟩ := Grew.enlarges h (by simpa using hused) start place low clean grew
    exact ⟨g', grew, hwf, hkeeps, hgrow⟩

/-- The list behind a wrap: the wrapped pages, and the new pages behind them. -/
theorem Restart.appends {cs : List ChunkHeader} {g'' : Growth} (h : WellFormed B g.m cs)
    (place : g.m.endOfChunks + HEADER_SIZE = p * PAGESIZE) (inner : ∀ e ∈ cs, B.inner ≤ e.size)
    (restart : Restart size g g' p q) (lt : p < q) (pos : 0 < k) (low : q + k ≤ END_OF_PAGES)
    (grew : Grew g' g'' q k) (clean : ∀ i < k, g.m.pages.owner (q + i) = none) :
    ∃ m', m' = g''.m.putHeader (q * PAGESIZE) ⟨k * PAGESIZE - HEADER_SIZE, MAGIC, false, false⟩ ∧
      WellFormed B m' (cs ++ [⟨PAGESIZE * (q - p) + HEADER_SIZE, MAGIC, true, true⟩,
        ⟨k * PAGESIZE - HEADER_SIZE, MAGIC, false, false⟩]) ∧
      Keeps (fun d => d.used = true) g.m m' cs
        (cs ++ [⟨PAGESIZE * (q - p) + HEADER_SIZE, MAGIC, true, true⟩,
          ⟨k * PAGESIZE - HEADER_SIZE, MAGIC, false, false⟩]) none ∧
      m'.firstChunk = g.m.firstChunk ∧
      m'.endOfChunks = q * PAGESIZE + (k * PAGESIZE - HEADER_SIZE) ∧
      MapsSet g.m m' (Finset.Ico q (q + k)) := by
  have hpage : PAGESIZE = 4096 := rfl
  have hheader : HEADER_SIZE = 8 := rfl
  have hmin : MALLOC_MINSIZE = 32 := rfl
  have hlow := low
  unfold END_OF_PAGES at hlow
  have hplace := place
  rw [hpage, hheader] at hplace
  have hwrap := restart.header (by omega)
  have hstop : g.m.endOfChunks + (PAGESIZE * (q - p) + HEADER_SIZE) = q * PAGESIZE := by
    rw [hpage, hheader]
    omega
  -- the pages, and the places of the new chunks
  have hmaps : MapsSet g.m g''.m (Finset.Ico q (q + k)) := by
    refine ⟨fun i => ?_, fun i hi => ?_, grew.frames, fun d hd => grew.dirs d (restart.pages.dirs d hd),
      ?_, grew.allocated.trans restart.allocated⟩
    · rw [grew.owner, restart.pages.owner]
      exact if_congr (by rw [Finset.mem_Ico]) rfl rfl
    · rw [Finset.mem_Ico] at hi
      have hnone := clean (i - q) (by omega)
      rwa [show q + (i - q) = i by omega] at hnone
    · rw [grew.used, restart.used, Nat.card_Ico, Nat.add_sub_cancel_left]
  have hmem : g''.m.mem = g'.m.mem := funext fun y => grew.mem y (Or.inl (by rw [hwrap]))
  have hhead : g''.m.header g.m.endOfChunks =
      ⟨PAGESIZE * (q - p) + HEADER_SIZE, MAGIC, true, true⟩ := by
    rw [← restart.other, header_congr fun i _ _ => congrFun hmem i, hwrap]
  have hlast : g''.m.endOfChunks = q * PAGESIZE + (k * PAGESIZE - HEADER_SIZE) := by
    rw [grew.last, restart.last, hpage, hheader]
    omega
  have hfirst : g''.m.firstChunk = g.m.firstChunk := grew.first.trans restart.first
  have hready : g''.m.mallocReady = g.m.mallocReady := grew.ready.trans restart.ready
  have hmaps' := hmaps.put (q * PAGESIZE) ⟨k * PAGESIZE - HEADER_SIZE, MAGIC, false, false⟩
  have hnew : (g''.m.putHeader (q * PAGESIZE)
      ⟨k * PAGESIZE - HEADER_SIZE, MAGIC, false, false⟩).header (q * PAGESIZE) =
        ⟨k * PAGESIZE - HEADER_SIZE, MAGIC, false, false⟩ := by
    refine header_putHeader ?_ rfl
    show k * 4096 - 8 < 2 ^ 48
    omega
  have hhead' : (g''.m.putHeader (q * PAGESIZE)
      ⟨k * PAGESIZE - HEADER_SIZE, MAGIC, false, false⟩).header g.m.endOfChunks =
        ⟨PAGESIZE * (q - p) + HEADER_SIZE, MAGIC, true, true⟩ := by
    rw [header_putHeader_ne (Or.inr (by rw [place]; exact Nat.mul_le_mul_right _ lt.le)), hhead]
  have hbefore : ∀ y < g.m.endOfChunks, (g''.m.putHeader (q * PAGESIZE)
      ⟨k * PAGESIZE - HEADER_SIZE, MAGIC, false, false⟩).mem y = g.m.mem y := by
    intro y hy
    rw [putHeader_mem (Or.inl (by rw [hpage]; omega)), hmem, restart.mem, putHeader_mem (Or.inl hy)]
  refine ⟨_, rfl, ?_⟩
  rw [← putHeader_endOfChunks (x := q * PAGESIZE)
    (h := ⟨k * PAGESIZE - HEADER_SIZE, MAGIC, false, false⟩)] at hlast
  rw [← putHeader_firstChunk (x := q * PAGESIZE)
    (h := ⟨k * PAGESIZE - HEADER_SIZE, MAGIC, false, false⟩)] at hfirst
  rw [← putHeader_mallocReady (x := q * PAGESIZE)
    (h := ⟨k * PAGESIZE - HEADER_SIZE, MAGIC, false, false⟩)] at hready
  have hpages : (g''.m.putHeader (q * PAGESIZE)
      ⟨k * PAGESIZE - HEADER_SIZE, MAGIC, false, false⟩).pages.Wf := grew.wf
  generalize g''.m.putHeader (q * PAGESIZE) ⟨k * PAGESIZE - HEADER_SIZE, MAGIC, false, false⟩ = m' at *
  have haligned : m'.endOfChunks % PAGESIZE = 0xFF8 := by
    rw [hlast, hpage, hheader]
    omega
  have hlayout : ∀ z e, (z, e) ∈ layout ChunkHeader.size g.m.endOfChunks
      [⟨PAGESIZE * (q - p) + HEADER_SIZE, MAGIC, true, true⟩,
        ⟨k * PAGESIZE - HEADER_SIZE, MAGIC, false, false⟩] →
      (z = g.m.endOfChunks ∧ e = ⟨PAGESIZE * (q - p) + HEADER_SIZE, MAGIC, true, true⟩) ∨
        (z = q * PAGESIZE ∧ e = ⟨k * PAGESIZE - HEADER_SIZE, MAGIC, false, false⟩) := by
    intro z e he
    rw [layout_cons, layout_cons, layout_nil, List.mem_cons, List.mem_singleton] at he
    exact he.imp Prod.mk.inj fun he => by
      obtain ⟨rfl, rfl⟩ := Prod.mk.inj he
      exact ⟨hstop, rfl⟩
  have hBinner := B.inner_le
  have hBlast := B.last_le
  obtain ⟨hwf, hkeeps⟩ := h.append (C := B)
    (L := [⟨PAGESIZE * (q - p) + HEADER_SIZE, MAGIC, true, true⟩,
      ⟨k * PAGESIZE - HEADER_SIZE, MAGIC, false, false⟩]) place hfirst hbefore
    (fun z e he => by
      obtain ⟨rfl, rfl⟩ | ⟨rfl, rfl⟩ := hlayout z e he
      · exact ⟨hhead', rfl⟩
      · exact ⟨hnew, rfl⟩)
    (by
      rw [hlast, span_cons, span_cons, span_nil, Nat.add_zero, ← Nat.add_assoc]
      dsimp only
      rw [hstop])
    ((sized_append (by simp)).2 ⟨inner, by
      show B.inner ≤ 4096 * (q - p) + 8
      omega, by
      show B.last ≤ k * 4096 - 8
      omega⟩)
    (fun e he => B.header_le.trans (inner e he))
    (by
      rw [hlast, hpage, hheader]
      omega)
    hready hpages haligned (hmaps'.below fun i hi => lt.le.trans (Finset.mem_Ico.1 hi).1)
    (fun z e he => by
      obtain ⟨rfl, rfl⟩ | ⟨rfl, rfl⟩ := hlayout z e he
      · refine ⟨fun hours => (by cases hours), fun _ => rfl, fun _ => h.aligned,
          fun _ => ⟨q - p - 1, ?_⟩, fun _ y hle hlt => ?_⟩
        · dsimp only
          rw [show q - p - 1 + 1 = q - p by omega, Nat.mul_comm]
        · change y < g.m.endOfChunks + (4096 * (q - p) + 8) at hlt
          rw [hheader] at hle
          rw [hmaps'.owner, hpage, if_neg (by rw [Finset.mem_Ico]; omega)]
          refine h.beyond _ ?_
          rw [hpage]
          omega
      · refine Owned.of_ours rfl fun y hle hlt => ?_
        rw [hpage] at hle
        change y < q * 4096 + (k * 4096 - 8) at hlt
        rw [hmaps'.owner, hpage, if_pos (by rw [Finset.mem_Ico]; omega)])
    (by
      intro i hi
      rw [hlast, hpage, hheader] at hi
      rw [hmaps'.owner, if_neg (by rw [Finset.mem_Ico]; omega)]
      refine h.beyond i ?_
      rw [hpage]
      omega)
  exact ⟨hwf, hkeeps, hfirst, hlast, hmaps'⟩

/-- The growth when pages of others begin behind the `j` pages behind the last chunk: they are wrapped,
and the chunk behind them has the pages for the whole request, less the room for a header. -/
theorem growAtEnd_wrap (h : WellFormed B m (pre ++ [c]))
    (start : m.firstChunk + span ChunkHeader.size pre = x)
    (place : m.endOfChunks + HEADER_SIZE = p * PAGESIZE) (frames : m.pages.frames = none)
    (alone : c.used = true → j = 0) (lt : j < pagesFor (lacking c size))
    (inner : B.inner ≤ c.size + j * PAGESIZE) (clean : ∀ i < j, m.pages.owner (p + i) = none)
    (wraps : p + j < q) (dir : m.pages.dirs (q / 2 ^ 18) = true)
    (mapped : ∀ i, FREE_PAGES_START / PAGESIZE ≤ i → i < q → i < p ∨ p + j ≤ i →
      m.pages.owner i ≠ none)
    (low : q + pagesFor (size + HEADER_SIZE) ≤ END_OF_PAGES)
    (free : ∀ i < pagesFor (size + HEADER_SIZE), m.pages.owner (q + i) = none) :
    ∃ m', WellFormed B m' (pre ++ [c.enlarge (j * PAGESIZE)] ++
        [⟨PAGESIZE * (q - (p + j)) + HEADER_SIZE, MAGIC, true, true⟩,
          ⟨pagesFor (size + HEADER_SIZE) * PAGESIZE - HEADER_SIZE, MAGIC, false, false⟩]) ∧
      Keeps (fun d => d.used = true) m m' (pre ++ [c]) (pre ++ [c.enlarge (j * PAGESIZE)] ++
        [⟨PAGESIZE * (q - (p + j)) + HEADER_SIZE, MAGIC, true, true⟩,
          ⟨pagesFor (size + HEADER_SIZE) * PAGESIZE - HEADER_SIZE, MAGIC, false, false⟩]) none ∧
      m'.firstChunk = m.firstChunk ∧
      m'.endOfChunks = q * PAGESIZE + (pagesFor (size + HEADER_SIZE) * PAGESIZE - HEADER_SIZE) ∧
      MapsSet m m' (Finset.Ico p (p + j) ∪ Finset.Ico q (q + pagesFor (size + HEADER_SIZE))) ∧
      ∀ fuel, m.growAtEnd (fuel + 1 + pagesFor (size + HEADER_SIZE) + j) size x =
        .done (m', q * PAGESIZE) := by
  have hpos : 0 < pagesFor (size + HEADER_SIZE) := lt_pagesFor.2 (by
    rw [Nat.zero_mul]
    exact Nat.succ_pos _)
  have hstart : FREE_PAGES_START / PAGESIZE ≤ p := by
    have hplace := place
    have hfirst := h.start
    have hreach := h.tiles.reach
    have hpage : PAGESIZE = 4096 := rfl
    have hheader : HEADER_SIZE = 8 := rfl
    have hfree : FREE_PAGES_START = 256 * 4096 := rfl
    rw [hpage, hheader] at hplace
    rw [hpage]
    omega
  -- the pages up to the first one of others
  obtain ⟨g₀, grew, hwf₀, hkeeps₀, hgrow₀⟩ :=
    grow_before size h start place frames (by omega) lt.le alone clean
  have hplace₀ : g₀.m.endOfChunks + HEADER_SIZE = (p + j) * PAGESIZE := by
    rw [grew.last, Nat.add_mul, ← place]
    exact Nat.add_right_comm _ _ _
  have hneed : g₀.needToAlloc ≠ 0 := by
    rw [grew.need]
    exact (Nat.sub_pos_of_lt (lt_pagesFor.1 lt)).ne'
  have howner : ∀ i, p + j ≤ i → g₀.m.pages.owner i = m.pages.owner i := fun i hi => by
    rw [grew.owner, if_neg (by omega)]
  have hfirst : g₀.m.pages.First q := by
    refine ⟨by omega, by omega, ?_, fun i hi hlt => ?_⟩
    · rw [howner q (by omega)]
      exact free 0 hpos
    · rw [grew.owner]
      split_ifs with hin
      · exact nofun
      · exact mapped i hi hlt (by omega)
  have hfree₀ : ∀ i < pagesFor (size + HEADER_SIZE), g₀.m.pages.owner (q + i) = none :=
    fun i hi => by
      rw [howner (q + i) (by omega)]
      exact free i hi
  -- the pages of others, and the ones behind
  obtain ⟨g', g₃, restart, grew₃, hgrow₃⟩ := grow_wrap hplace₀ hneed grew.frames grew.wf
    (by
      rw [howner _ le_rfl]
      exact mapped _ (by omega) wraps (Or.inr le_rfl))
    hfirst (grew.dirs _ dir) wraps low hfree₀
  have hinner : ∀ e ∈ pre ++ [c.enlarge (j * PAGESIZE)], B.inner ≤ e.size := by
    intro e he
    rw [List.mem_append, List.mem_singleton] at he
    rcases he with he | rfl
    · exact (sized_append_cons.1 h.tiles.sized).1 e he
    · exact inner
  obtain ⟨m', rfl, hwf, hkeeps, hfirst', hlast', hmaps⟩ :=
    restart.appends hwf₀ hplace₀ hinner wraps hpos low grew₃ hfree₀
  refine ⟨_, hwf, hkeeps₀.trans hkeeps, hfirst'.trans grew.first, hlast',
    (grew.mapsSet clean).trans hmaps, fun fuel => ?_⟩
  have hother : (g₃.m.header g₃.other).used = true := by
    have hwrap := restart.header (by omega)
    rw [grew₃.other, header_congr fun y _ _ => grew₃.mem y (Or.inl (by rw [hwrap])), hwrap]
  have htotal : g₃.totalAlloced.toNat =
      pagesFor (size + HEADER_SIZE) * PAGESIZE - HEADER_SIZE := by
    rw [grew₃.total, restart.total, neg_add_eq_sub, ← Nat.cast_mul]
    exact Int.toNat_sub _ _
  have haligned : g₃.m.endOfChunks % PAGESIZE = 0xFF8 := hwf.aligned
  unfold growAtEnd growFor
  rw [hgrow₀, hgrow₃, grow_done (by rw [grew₃.need, restart.need]; exact sub_pagesFor _),
    Run.done_bind]
  unfold useGrowth
  dsimp only
  rw [if_neg (not_not.2 haligned), if_neg (not_not.2 hother), htotal, grew₃.oldEnd, restart.oldEnd]

end Whole

end Malloc
