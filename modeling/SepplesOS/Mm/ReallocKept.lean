import SepplesOS.Mm.Realloc

/-!
# What `realloc` keeps

In a well-formed heap `realloc` returns the block with its contents and leaves the others alone, unless
it grows into a free neighbour and leaves fewer bytes of it than a header takes, in front of another
chunk: the header of the leftover then lies over that of the chunk behind it.
-/

namespace Malloc

open Tiling KernelPages

/-- Every chunk has room for its header, the last one up to the room behind `endOfChunks`. -/
def leftSizes : MinSizes := headerSizes.remainder

/-- With fuel enough, `realloc` of the block behind `x` returns one of `size` bytes with what the old one
held, and the chunks tile the heap as before but for these two. -/
def Reallocates (m : Malloc) (cs : List ChunkHeader) (x size : ℕ) : Prop :=
  ∃ n, ∀ fuel, n < fuel → ∃ y m' C cs',
    m.realloc fuel (x + HEADER_SIZE) size = .done (y + HEADER_SIZE, m') ∧
      Realloced C m m' cs cs' size x y ∧ OnlyKept m m' cs cs' x y

section Kept

variable {B C : MinSizes} {m m' : Malloc} {pre suf l rest cs cs' : List ChunkHeader}
  {c d f : ChunkHeader} {x y k size : ℕ}

/-- Behind no block lies a chunk that is smaller than its header, in front of another one. -/
theorem Tiles.no_leftover (tiles : Tiles B m cs)
    (block : (y, d) ∈ layout ChunkHeader.size m.firstChunk cs) (next : m.header (y + d.size) = f)
    (small : f.size < HEADER_SIZE) : m.endOfChunks ≤ y + d.size + f.size := by
  obtain ⟨pre, suf, rfl, hy⟩ := layout_split block
  have hreach := tiles.reach
  rw [span_append, span_cons, ← Nat.add_assoc, ← Nat.add_assoc, ← hy] at hreach
  cases suf with
  | nil =>
    rw [span_nil] at hreach
    omega
  | cons g rest =>
    obtain rfl : g = f := (tiles.next hy.symm).1.symm.trans next
    rw [span_cons] at hreach
    by_cases hrest : rest = []
    · rw [hrest, span_nil] at hreach
      omega
    · have hsized := tiles.sized
      rw [show pre ++ d :: g :: rest = (pre ++ [d, g]) ++ rest by simp, sized_append hrest] at hsized
      have hinner := hsized.1 g (by simp)
      have hheader := B.header_le
      omega

theorem Realloced.cut_end {m₀ : Malloc} {h : ChunkHeader}
    (re : Realloced C m ((m₀.putHeader (y + h.size) f).putHeader y h) cs cs' size x y)
    (large : HEADER_SIZE ≤ h.size) (small : f.size < HEADER_SIZE) (low : h.size < 2 ^ 47)
    (magic : h.magic = MAGIC) (magic' : f.magic = MAGIC) : m₀.endOfChunks ≤ y + h.size + f.size := by
  have hheader : HEADER_SIZE = 8 := rfl
  have hhead : ((m₀.putHeader (y + h.size) f).putHeader y h).header y = h :=
    header_putHeader (by omega) magic
  have hnext : ((m₀.putHeader (y + h.size) f).putHeader y h).header (y + h.size) = f := by
    rw [header_putHeader_ne (Or.inl (by omega))]
    exact header_putHeader (by omega) magic'
  obtain ⟨d, hd, -, -⟩ := re.block
  have htiles := re.wellFormed.tiles
  obtain rfl : h = d := hhead.symm.trans (htiles.header y d hd).1
  exact htiles.no_leftover hd hnext small

theorem not_ample (not : ¬Ample leftSizes k rest) :
    k < HEADER_SIZE ∧ (rest ≠ [] ∨ k = 0) := by
  unfold Ample at not
  have hinner : leftSizes.inner = HEADER_SIZE := rfl
  have hlast : leftSizes.last = 1 := rfl
  rw [hinner, hlast] at not
  by_cases hrest : rest = []
  · subst hrest
    simp only [true_and] at not
    omega
  · exact ⟨by omega, Or.inl hrest⟩

theorem Tiles.behind_lt (tiles : Tiles B m (pre ++ c :: d :: suf))
    (start : m.firstChunk + span ChunkHeader.size pre = x) (ne : suf ≠ []) :
    x + c.size + d.size < m.endOfChunks := by
  rw [show pre ++ c :: d :: suf = (pre ++ [c]) ++ d :: suf by simp] at tiles
  refine (tiles.next_lt ?_).2 ne
  rw [span_append, span_cons, span_nil, Nat.add_zero, ← Nat.add_assoc, start]

theorem growIntoNext_breaks (tiles : Tiles B m (pre ++ c :: d :: suf))
    (start : m.firstChunk + span ChunkHeader.size pre = x)
    (left : realsizeOf size < c.size + d.size)
    (small : ¬Ample leftSizes (c.size + d.size - realsizeOf size) suf)
    (re : Realloced C m (m.growIntoNext x (realsizeOf size)) cs cs' size x x) : False := by
  obtain ⟨hsmall, hcase⟩ := not_ample small
  have hsuf : suf ≠ [] := hcase.resolve_right (by omega)
  have hlt := tiles.behind_lt start hsuf
  have hroom := tiles.room
  have hmin : MALLOC_MINSIZE ≤ realsizeOf size := minsize_le_realsizeOf
  have hheader : HEADER_SIZE ≤ MALLOC_MINSIZE := by decide
  have hmagic : c.magic = MAGIC := tiles.at.2
  rw [growIntoNext_cut tiles start hmin left] at re
  have hend := re.cut_end (hheader.trans hmin) hsmall (show realsizeOf size < 2 ^ 47 by omega) hmagic rfl
  change m.endOfChunks ≤ x + realsizeOf size + (c.size + d.size - realsizeOf size) at hend
  omega

theorem growIntoPrevious_breaks (tiles : Tiles B m (pre ++ d :: c :: suf))
    (start : m.firstChunk + span ChunkHeader.size pre = y) (fits : realsizeOf size ≤ c.size + d.size)
    (small : ¬Ample leftSizes (c.size + d.size - realsizeOf size) suf) (behind : suf ≠ [])
    (re : Realloced C m (m.growIntoPrevious y (y + d.size) (realsizeOf size)) cs cs' size x y) :
    False := by
  obtain ⟨hsmall, -⟩ := not_ample small
  have hlt := tiles.behind_lt start behind
  have hroom := tiles.room
  have hmin : MALLOC_MINSIZE ≤ realsizeOf size := minsize_le_realsizeOf
  have hheader : HEADER_SIZE ≤ MALLOC_MINSIZE := by decide
  have hmagic : d.magic = MAGIC := tiles.at.2
  obtain ⟨m₀, hgrow, hsame, -⟩ := growIntoPrevious_eq tiles start hmin
  rw [hgrow] at re
  have hend := re.cut_end (hheader.trans hmin)
    (show d.size + c.size - realsizeOf size < HEADER_SIZE by omega)
    (show realsizeOf size < 2 ^ 47 by omega) hmagic rfl
  rw [hsame.last] at hend
  change m.endOfChunks ≤ y + realsizeOf size + (d.size + c.size - realsizeOf size) at hend
  omega

/-! ## A heap of three chunks -/

/-- A block, a free chunk and a block on one page. -/
def tightHeap : Malloc :=
  (((wallHeap 258 false).putHeader (257 * PAGESIZE + 1100) ⟨2988, MAGIC, true, false⟩).putHeader
    (257 * PAGESIZE + 1000) ⟨100, MAGIC, false, false⟩).putHeader (257 * PAGESIZE)
      ⟨1000, MAGIC, true, false⟩

/-- Its chunks. -/
def tightChunks : List ChunkHeader :=
  [⟨1000, MAGIC, true, false⟩, ⟨100, MAGIC, false, false⟩, ⟨2988, MAGIC, true, false⟩]

theorem tightHeap_wellFormed : WellFormed minSizes tightHeap tightChunks := by
  have hrecut : Recut (wallHeap 258 false) tightHeap [] [⟨PAGESIZE - HEADER_SIZE, MAGIC, false, false⟩]
      tightChunks [] (257 * PAGESIZE) := by
    have hheader : HEADER_SIZE = 8 := rfl
    refine ⟨rfl, ⟨rfl, rfl, rfl, rfl⟩, rfl, by decide, by decide, by decide, fun y hy => ?_,
      fun z e he => ?_⟩
    · have hlt := hy.resolve_right fun h => h.1 rfl
      have hbelow : ∀ n, y < 257 * PAGESIZE + n := fun n => Nat.lt_add_right n hlt
      unfold tightHeap
      rw [putHeader_mem (Or.inl hlt), putHeader_mem (Or.inl (hbelow 1000)),
        putHeader_mem (Or.inl (hbelow 1100))]
    · unfold tightHeap
      simp only [tightChunks, layout_cons, layout_nil, List.mem_cons, List.not_mem_nil, or_false] at he
      rcases he with he | he | he
      · obtain ⟨rfl, rfl⟩ := Prod.mk.inj he
        exact ⟨header_putHeader (by decide) rfl, rfl⟩
      · obtain ⟨rfl, rfl⟩ := Prod.mk.inj he
        rw [header_putHeader_ne (Or.inl (by omega))]
        exact ⟨header_putHeader (by decide) rfl, rfl⟩
      · obtain ⟨rfl, rfl⟩ := Prod.mk.inj he
        rw [header_putHeader_ne (Or.inl (by omega)), header_putHeader_ne (Or.inl (by omega))]
        exact ⟨header_putHeader (by decide) rfl, rfl⟩
  have hsized : Sized minSizes tightChunks := ⟨by decide, by decide, show 32 ≤ 2988 by omega⟩
  exact hrecut.wellFormed (wallHeap_wellFormed (by decide)) (List.cons_ne_nil _ _) hsized

/-! ## The call -/

theorem searches_of_move {fuel : ℕ} {r : ℕ × Malloc} (ready : m.mallocReady = true) (pos : 0 < size)
    (result : m.move fuel (x + HEADER_SIZE) size = .done r) : ∃ m₁ found, Searches m size m₁ found := by
  unfold move moveBy at result
  obtain ⟨r₁, hmalloc, -⟩ := Run.bind_eq_done result
  unfold malloc at hmalloc
  rw [if_neg (by simp [ready]; omega)] at hmalloc
  obtain ⟨r₂, hfind, -⟩ := Run.bind_eq_done hmalloc
  unfold findChunk findChunkFor at hfind
  obtain ⟨⟨next, pages⟩, hlook, hfind⟩ := Run.bind_eq_done hfind
  obtain ⟨⟨m₁, found⟩, hsearch, -⟩ := Run.bind_eq_done hfind
  cases hsome : m.pages.getUnmappedVAddr with
  | none =>
    rw [hsome] at hlook
    cases hlook
  | some p =>
    rw [hsome] at hlook
    obtain rfl := Run.done.inj hlook
    exact ⟨m₁, found, fuel, next, pages, hsome, hsearch⟩

/-- `realloc` keeps what it should exactly when it leaves no chunk that is too small, and the search of a
`malloc` that it calls ends; where that finds no chunk, the growth must be possible. -/
theorem realloc_reallocates_iff (wf : WellFormed minSizes m (pre ++ c :: suf))
    (frames : m.pages.frames = none) (start : m.firstChunk + span ChunkHeader.size pre = x)
    (ours : Ours c) (pos : 0 < size)
    (grows : Moving pre c suf (realsizeOf size) → ∀ m₁ other, Searches m size m₁ (.atEnd other) →
      Grows m₁.pages (fun _ => False) MALLOC_MINSIZE m.endPage size (lastRoom (m₁.header other))) :
    Reallocates m (pre ++ c :: suf) x size ↔ LeavesRoom leftSizes pre c suf (realsizeOf size) ∧
      (Moving pre c suf (realsizeOf size) → ∃ m₁ found, Searches m size m₁ found) := by
  have hsized : UsedSized minSizes (pre ++ c :: suf) := fun e he _ => wf.tiles.sized.last_le e he
  constructor
  · rintro ⟨n, hall⟩
    obtain ⟨y, m', C, cs', hcall, hre, -⟩ := hall (n + pre.length + 1) (by omega)
    refine ⟨⟨?_, ?_⟩, fun hmoving => ?_⟩
    case refine_1 =>
      intro hlt d rest hsuf hfree hleft
      by_contra hsmall
      rw [realloc_next wf start ours hlt ⟨d, rest, hsuf, hfree, hleft.le⟩] at hcall
      obtain ⟨hy, rfl⟩ := Prod.mk.inj (Run.done.inj hcall)
      obtain rfl : x = y := Nat.add_right_cancel hy
      subst hsuf
      exact growIntoNext_breaks wf.tiles start hleft hsmall hre
    case refine_2 =>
      intro hlt hnext l d hpre hfree hfits
      by_contra hsmall
      rw [not_or] at hsmall
      subst hpre
      have hx : m.firstChunk + span ChunkHeader.size l + d.size = x := by
        rw [← start]
        simp [Nat.add_assoc]
      rw [show l ++ [d] ++ c :: suf = l ++ d :: c :: suf by simp] at wf hre
      rw [← hx, realloc_previous wf ours hlt hnext hfree hfits (by simp; omega)] at hcall
      obtain ⟨hy, rfl⟩ := Prod.mk.inj (Run.done.inj hcall)
      obtain rfl := Nat.add_right_cancel hy
      refine growIntoPrevious_breaks wf.tiles rfl hfits hsmall.1 (fun hsuf => ?_) hre
      -- without a chunk behind, every leftover will do
      rcases (not_ample hsmall.1).2 with hne | hzero
      · exact hne hsuf
      · exact hsmall.2 ⟨hsuf, by omega⟩
    case refine_3 =>
      rw [realloc_moves wf start ours hmoving (by omega)] at hcall
      exact searches_of_move wf.ready pos hcall
  · rintro ⟨room, searches⟩
    have hserved : Moving pre c suf (realsizeOf size) → Served minSizes m size := by
      intro hmoving
      obtain ⟨m₁, found, hsearches⟩ := searches hmoving
      refine ⟨m₁, found, hsearches, fun other hother => ?_⟩
      subst hother
      exact grows hmoving m₁ other hsearches
    obtain ⟨n, y, m', cs', hcall, hdone⟩ :=
      realloc_spec wf hsized frames (C := leftSizes) (by decide) (by decide) start ours pos room hserved
    refine ⟨n, fun fuel hlt => ?_⟩
    rcases hdone with ⟨⟨hre, honly⟩, -⟩ | ⟨hmoving, hmoved⟩
    · exact ⟨y, m', _, cs', hcall fuel hlt, hre, honly⟩
    · have hmem := mem_layout_of m pre c suf
      rw [start] at hmem
      exact ⟨y, m', _, cs', hcall fuel hlt, hmoved.realloced wf hmem ours,
        hmoved.onlyKept wf hsized frames pos (hserved hmoving) (by decide)⟩

/-- The first block gets a new one, behind the page of others. -/
theorem realloc_reallocates_wall : Reallocates tightHeap tightChunks (257 * PAGESIZE) 5000 := by
  have hwf : WellFormed minSizes tightHeap ([] ++ ⟨1000, MAGIC, true, false⟩ ::
      [⟨100, MAGIC, false, false⟩, ⟨2988, MAGIC, true, false⟩]) := tightHeap_wellFormed
  have hfilled : Filled tightHeap := @wallHeap_filled 258 false
  have hfirst : tightHeap.pages.First 259 := by
    refine ⟨by decide, by decide, rfl, fun page hle hlt => ?_⟩
    by_cases hpage : page = 258
    · rw [hpage]
      exact Option.some_ne_none _
    · exact hfilled page hle (show page < 258 by omega)
  have hgrows : Grows tightHeap.pages (Single tightHeap tightChunks) MALLOC_MINSIZE 258 5000 0 := by
    refine ⟨Or.inl (by decide), Or.inr ⟨0, 259, by decide, fun _ => rfl, fun h => absurd rfl h,
      fun i hi => absurd hi (Nat.not_lt_zero i), by decide, rfl, fun page hle hlt => Or.inl ?_,
      fun page hle hlt => ?_, wallPages_clear (by decide) (by decide) (by decide), by decide⟩⟩
    · exact hfilled page hle hlt
    · exact hfirst.least page (le_trans (by decide) hle) hlt
  have hsafe : MallocSafe minSizes tightHeap tightChunks 5000 :=
    ⟨(hfilled.wrapped hwf).searchSafe hfirst rfl, Or.inr (Or.inl ⟨hfilled.wrapped hwf, hgrows⟩)⟩
  have hserved : Served minSizes tightHeap 5000 := hsafe.served hwf rfl
  have hsearches : ∃ m₁ found, Searches tightHeap 5000 m₁ found := by
    obtain ⟨m₁, found, hsearches, -⟩ := hserved
    exact ⟨m₁, found, hsearches⟩
  refine (realloc_reallocates_iff hwf rfl rfl ⟨rfl, rfl⟩ (by decide)
    fun _ m₂ other hs => hserved.grows hs).2 ⟨⟨fun _ d rest hsuf _ hleft => ?_,
      fun _ _ l d hpre => ?_⟩, fun _ => hsearches⟩
  · obtain ⟨rfl, -⟩ := List.cons.inj hsuf
    exact absurd hleft (by decide)
  · exact absurd hpre (by simp)

/-- The block of 992 bytes grown to 1089 leaves three bytes of the free chunk. -/
theorem realloc_breaks_next : ¬ ∀ (m : Malloc) (cs : List ChunkHeader) (x : ℕ) (c : ChunkHeader)
    (size : ℕ), WellFormed minSizes m cs → m.pages.frames = none →
      (x, c) ∈ layout ChunkHeader.size m.firstChunk cs → Ours c → 1 ≤ size → size ≤ 2 ^ 32 →
        Reallocates m cs x size := by
  intro hall
  have hre := hall tightHeap tightChunks (257 * PAGESIZE) ⟨1000, MAGIC, true, false⟩ 1089
    tightHeap_wellFormed rfl List.mem_cons_self ⟨rfl, rfl⟩ (by decide) (by decide)
  have hwf : WellFormed minSizes tightHeap ([] ++ ⟨1000, MAGIC, true, false⟩ ::
      [⟨100, MAGIC, false, false⟩, ⟨2988, MAGIC, true, false⟩]) := tightHeap_wellFormed
  have hroom := (realloc_reallocates_iff hwf rfl rfl ⟨rfl, rfl⟩ (by decide)
    fun hmoving => absurd ⟨_, _, rfl, rfl, by decide⟩ hmoving.2.1).1 hre |>.1
  rcases hroom.next (by decide) ⟨100, MAGIC, false, false⟩ [⟨2988, MAGIC, true, false⟩] rfl rfl
    (by decide) with hlarge | ⟨hend, -⟩
  · exact absurd hlarge (by decide)
  · cases hend

end Kept

end Malloc
