import SepplesOS.Mm.MallocCall

/-!
# `malloc` in a heap without holes

While all pages below `endOfChunks` are mapped, nothing is taken back.  `malloc_wellFormed` says when
`malloc` keeps the heap well-formed then; `malloc_wraps_iff` looks at the chunk that it gets behind
pages of others.
-/

namespace Malloc

open Tiling KernelPages

/-- All pages below the end of the heap are mapped. -/
def Filled (m : Malloc) : Prop :=
  ∀ page, FREE_PAGES_START / PAGESIZE ≤ page → page < m.endPage → m.pages.owner page ≠ none

/-! ## A heap in front of a page of others -/

/-- The kernel's pages with the page at 257 the heap's and the page `w` someone else's. -/
def wallPages (w : ℕ) : KernelPages where
  owner page :=
    if page = 257 then some .heap
    else if page = w then some .foreign
    else if page < 257 then some .boot else none
  tables table := table = 0
  dirs dir := dir = 0
  frames := none

/-- A heap of one chunk on one page. -/
def wallHeap (w : ℕ) (used : Bool) : Malloc :=
  let m : Malloc := ⟨fun _ => 0, wallPages w, 257 * PAGESIZE, 257 * PAGESIZE + PAGESIZE - HEADER_SIZE,
    UInt64.ofNat PAGESIZE, 0, true⟩
  m.putHeader m.firstChunk ⟨PAGESIZE - HEADER_SIZE, MAGIC, used, false⟩

section Wall

variable {w : ℕ} {used : Bool}

theorem wallPages_wf (lt : w < 512) : (wallPages w).Wf := by
  refine wf_of_oneTable (fun _ => decide_eq_true_iff) rfl fun page h => ?_
  unfold wallPages at h
  dsimp only at h
  split_ifs at h
  · omega
  · omega
  · omega
  · exact absurd rfl h

theorem wallHeap_wellFormed (lt : w < 512) :
    WellFormed minSizes (wallHeap w used) [⟨PAGESIZE - HEADER_SIZE, MAGIC, used, false⟩] := by
  have hstart : FREE_PAGES_START ≤ 257 * PAGESIZE := by decide
  have hroom : 257 * PAGESIZE + PAGESIZE - HEADER_SIZE + HEADER_SIZE ≤ 2 ^ 47 := by decide
  have hreach : 257 * PAGESIZE + PAGESIZE - HEADER_SIZE = 257 * PAGESIZE + (PAGESIZE - HEADER_SIZE) := by
    decide
  have hmin : MALLOC_MINSIZE ≤ PAGESIZE - HEADER_SIZE := by decide
  have haligned : (257 * PAGESIZE + PAGESIZE - HEADER_SIZE) % PAGESIZE = 0xFF8 := by decide
  refine ⟨one_chunk_tiles hreach hmin rfl hroom, rfl, wallPages_wf lt, hstart,
    Nat.mul_mod_left 257 PAGESIZE, haligned, fun x c hc => ?_, fun page hpage => ?_⟩
  · rw [layout_cons, layout_nil, List.mem_singleton] at hc
    obtain ⟨rfl, rfl⟩ := Prod.mk.inj hc
    refine Owned.of_ours rfl fun y hle hlt => if_pos ?_
    change 257 * 4096 ≤ y at hle
    change y < 257 * 4096 + (4096 - 8) at hlt
    unfold PAGESIZE
    omega
  · have hbehind : (257 * 4096 + 4096 - 8) / 4096 < page := hpage
    show (if page = 257 then some Owner.heap else if page = w then some Owner.foreign
      else if page < 257 then some .boot else none) ≠ _
    rw [if_neg (by omega)]
    split_ifs <;> nofun

theorem wallHeap_filled : Filled (wallHeap w used) := by
  intro page _ hlt
  change page < (257 * PAGESIZE + PAGESIZE - HEADER_SIZE + HEADER_SIZE) / PAGESIZE at hlt
  rw [show (257 * PAGESIZE + PAGESIZE - HEADER_SIZE + HEADER_SIZE) / PAGESIZE = 258 by decide] at hlt
  show (if page = 257 then some Owner.heap else if page = w then some Owner.foreign
    else if page < 257 then some .boot else none) ≠ none
  split_ifs
  · nofun
  · nofun
  · nofun
  · omega

theorem wallPages_unmapped {page : ℕ} (above : 257 < page) (ne : page ≠ w) :
    (wallPages w).owner page = none := by
  show (if page = 257 then some Owner.heap else if page = w then some Owner.foreign
    else if page < 257 then some .boot else none) = none
  rw [if_neg (by omega), if_neg ne, if_neg (by omega)]

theorem wallPages_clear {p n : ℕ} (above : 257 < p) (wall : w < p) (low : p + n ≤ END_OF_PAGES) :
    Clear (wallPages w) p n :=
  ⟨low, fun i _ => wallPages_unmapped (by omega) (by omega)⟩

end Wall

section Filled

variable {B : MinSizes} {m m' : Malloc} {cs cs' : List ChunkHeader} {c : ChunkHeader}
  {x f q size next fuel : ℕ} {pages : KernelPages}

theorem Filled.wrapped (filled : Filled m) (h : WellFormed B m cs) : Wrapped m cs := by
  intro x c page hc hnot hplace
  have hbounds := h.tiles.bounds hc
  obtain ⟨n, hsize⟩ := (h.owned x c hc).whole hnot
  have hstart := h.start
  have hend := h.endPage_eq
  have hpage : PAGESIZE = 4096 := rfl
  have hheader : HEADER_SIZE = 8 := rfl
  have hfree : FREE_PAGES_START = 256 * 4096 := rfl
  rw [hpage] at hplace hsize hend
  refine filled page ?_ ?_
  · rw [hpage]
    omega
  · omega

theorem Wrapped.searchSafe (wrapped : Wrapped m cs) (first : m.pages.First f)
    (dir : m.pages.dirs (f / 2 ^ 18) = true) : SearchSafe m cs := by
  refine ⟨⟨f, first.start, first.low, first.unmapped, fun hs => wrapped.single hs first.unmapped⟩,
    fun page hcand => ?_, fun page hcand x c hc hnot hplace =>
      absurd hcand.2.1 (wrapped x c page hc hnot hplace)⟩
  obtain ⟨hstart, hnone, hbelow⟩ := hcand
  rcases lt_trichotomy page f with hlt | rfl | hlt
  · exact absurd hnone (first.least page hstart hlt)
  · exact dir
  · exact absurd first.unmapped (wrapped.single (hbelow f first.start hlt first.unmapped))

theorem Malloced.filled (made : Malloced B m m' cs cs' size x) (h : WellFormed B m cs)
    (filled : Filled m) : Filled m' := by
  have hmono : ∀ page, m.pages.owner page ≠ none → m'.pages.owner page ≠ none := by
    intro page hne
    rcases made.owner page with hsame | ⟨-, hheap⟩
    · rw [hsame]
      exact hne
    · rw [hheap]
      exact Option.some_ne_none _
  intro page hstart hlt
  have hend := h.endPage_eq
  have hend' := made.wellFormed.endPage_eq
  have hfirst := h.first
  have hfirst' := made.first
  have hreach' := made.wellFormed.tiles.reach
  have hpage : PAGESIZE = 4096 := rfl
  have hheader : HEADER_SIZE = 8 := rfl
  rw [hpage] at hend hend' hfirst
  rw [hheader] at hend hend'
  by_cases hin : m'.firstChunk ≤ page * 4096
  · obtain ⟨z, e, he, hle, hlt'⟩ : ∃ z e, (z, e) ∈ layout ChunkHeader.size m'.firstChunk cs' ∧
        z ≤ page * 4096 ∧ page * 4096 < z + e.size := exists_mem_layout hin (by omega)
    have howned := made.wellFormed.owned z e he
    by_cases hnot : e.notOurs = true
    · have hplace := howned.place hnot
      rw [hpage] at hplace
      rcases made.wraps z e he hnot with hold | ⟨-, a, b, -, ha, hsize, hmapped, -⟩
      · have hbounds := (h.tiles.bounds hold).2.1
        exact hmono page (filled page hstart (by omega))
      · rw [hpage, hheader] at ha hsize
        exact hmono page (hmapped page (by omega) (by omega))
    · have hheap := howned.ours (by simpa using hnot) (page * 4096) hle hlt'
      rw [hpage, Nat.mul_div_cancel _ (by decide : 0 < 4096)] at hheap
      rw [hheap]
      exact Option.some_ne_none _
  · have hspan := h.tiles.reach
    exact hmono page (filled page hstart (by omega))

/-- In a well-formed heap without holes `malloc` keeps the heap well-formed and without holes, moves no
used chunk and takes no page of others, when `getUnmappedVAddr` finds a page and a run of free chunks is
large enough or the growth is possible. -/
theorem malloc_wellFormed (h : WellFormed minSizes m cs) (filled : Filled m)
    (frames : m.pages.frames = none) (pos : 1 ≤ size)
    (look : m.pages.getUnmappedVAddr = some (next, pages))
    (room : realsizeOf size ≤ bestRun cs ∨
      Grows m.pages (fun _ => False) MALLOC_MINSIZE m.endPage size (trailRun cs))
    (enough : 2 * (cs.length + pagesFor (size + HEADER_SIZE)) < fuel) :
    ∃ x m' cs', m.malloc fuel size = .done (x + HEADER_SIZE, m') ∧ WellFormed minSizes m' cs' ∧
      Filled m' ∧ m'.pages.owner (m'.endOfChunks / PAGESIZE) = some .heap ∧
      Keeps (fun d => d.used = true) m m' cs cs' none ∧
      (∀ page, m.pages.owner page ≠ none → m'.pages.owner page = m.pages.owner page) ∧
      ∀ y d, (y, d) ∈ layout ChunkHeader.size m'.firstChunk cs' → d.notOurs = false →
        ∀ z, y ≤ z → z < y + d.size →
          m.pages.owner (z / PAGESIZE) = none ∨ m.pages.owner (z / PAGESIZE) = some .heap := by
  obtain ⟨f, first, -, hdir, -⟩ := getUnmappedVAddr_some h.pages look
  have hw := filled.wrapped h
  have hsized : UsedSized minSizes cs := fun c hc _ => h.tiles.sized.last_le c hc
  have hsafe : MallocSafe minSizes m cs size := by
    refine ⟨hw.searchSafe first hdir, ?_⟩
    rcases room with hfits | hgrows
    · exact Or.inl ⟨hw, hfits⟩
    · obtain ⟨hsmall, hgrows⟩ := hgrows
      refine Or.inr (Or.inl ⟨hw, hsmall, hgrows.imp_right ?_⟩)
      rintro ⟨j, q, hlt, halone, hinner, hbefore, hpasses⟩
      exact ⟨j, q, hlt, halone, hinner, hbefore, hpasses.wraps, hpasses.dir,
        fun i hi hlt => (hpasses.below i hi hlt).imp_right False.elim, hpasses.others, hpasses.clear,
        hpasses.fits⟩
  obtain ⟨x, m', cs', hmalloc, hmade⟩ := malloc_spec h hsized frames pos (hsafe.served h frames) enough
  have hwf := hmade.wellFormed
  refine ⟨x, m', cs', hmalloc, hwf, hmade.filled h filled, hwf.reserved, (hmade.quiet hw).1,
    fun page hne => ?_, fun y d hd hours z hle hlt => ?_⟩
  · exact (hmade.owner page).resolve_right fun hnew => hne hnew.1
  · have hheap := (hwf.owned y d hd).ours hours z hle hlt
    rcases hmade.owner (z / PAGESIZE) with hsame | ⟨hnone, -⟩
    · exact Or.inr (hsame.symm.trans hheap)
    · exact Or.inl hnone

/-- In front of a page of others, in a free chunk of a page. -/
theorem malloc_wellFormed_wall : ∃ x m' cs', (wallHeap 258 false).malloc 7 5000 =
      .done (x + HEADER_SIZE, m') ∧ WellFormed minSizes m' cs' := by
  have hwf := @wallHeap_wellFormed 258 false (by decide)
  have hfirst : (wallHeap 258 false).pages.First 259 := by
    refine ⟨by decide, by decide, rfl, fun page hle hlt => ?_⟩
    by_cases hpage : page = 258
    · rw [hpage]
      exact Option.some_ne_none _
    · exact wallHeap_filled page hle (show page < 258 by omega)
  obtain ⟨pages, hlook⟩ := getUnmappedVAddr_of_dir hwf.pages rfl hfirst rfl
  have hgrows : Grows (wallHeap 258 false).pages (fun _ => False) MALLOC_MINSIZE 258 5000
      (PAGESIZE - HEADER_SIZE) := by
    refine ⟨Or.inr (by decide), Or.inr ⟨0, 259, by decide, fun h => rfl, fun _ => by decide,
      fun i hi => absurd hi (Nat.not_lt_zero i), ⟨by decide, rfl, fun page hle hlt => Or.inl ?_,
        fun page hle hlt => ?_, wallPages_clear (by decide) (by decide) (by decide), by decide⟩⟩⟩
    · exact wallHeap_filled page hle hlt
    · exact hfirst.least page (le_trans (by decide) hle) hlt
  obtain ⟨x, m', cs', hmalloc, hwf', -⟩ := malloc_wellFormed hwf wallHeap_filled rfl (by decide) hlook
    (Or.inr hgrows) (by decide : 2 * (1 + pagesFor (5000 + HEADER_SIZE)) < 7)
  exact ⟨x, m', cs', hmalloc, hwf'⟩

/-- Behind a used chunk, with a page that is not mapped in front of the page of others, that page gets
lost: the chunks end where nothing has written a header. -/
theorem malloc_loses_page : ¬ ∀ (m : Malloc) (cs : List ChunkHeader) (size fuel : ℕ),
    WellFormed minSizes m cs → Filled m → m.pages.frames = none → 1 ≤ size → size ≤ 2 ^ 32 →
      m.pages.getUnmappedVAddr ≠ none → 2 * (cs.length + pagesFor (size + HEADER_SIZE)) < fuel →
        ∃ x m' cs', m.malloc fuel size = .done (x, m') ∧ WellFormed minSizes m' cs' := by
  intro hall
  obtain ⟨x, m', cs', hmalloc, hwf⟩ := hall (wallHeap 259 true) _ 5000 7
    (wallHeap_wellFormed (by decide)) wallHeap_filled rfl (by decide) (by decide)
    (by decide +kernel) (by decide)
  obtain ⟨r, hresult, hheaders⟩ : ∃ r, (wallHeap 259 true).malloc 7 5000 = .done r ∧
      (r.2.firstChunk, r.2.endOfChunks, r.2.header (257 * PAGESIZE),
          (r.2.header (257 * PAGESIZE + 4088)).magic) =
        (257 * PAGESIZE, 262 * PAGESIZE - HEADER_SIZE, ⟨PAGESIZE - HEADER_SIZE, MAGIC, true, false⟩, 0) :=
    Run.exists_done_of_value (by decide +kernel)
  obtain rfl : r = (x, m') := Run.done.inj (hresult.symm.trans hmalloc)
  obtain ⟨hfirst, hlast, hheader, hmagic⟩ : m'.firstChunk = 257 * PAGESIZE ∧
      m'.endOfChunks = 262 * PAGESIZE - HEADER_SIZE ∧
      m'.header (257 * PAGESIZE) = ⟨PAGESIZE - HEADER_SIZE, MAGIC, true, false⟩ ∧
      (m'.header (257 * PAGESIZE + 4088)).magic = 0 := by
    simpa using hheaders
  have hreach := hwf.tiles.reach
  rw [hfirst, hlast] at hreach
  cases cs' with
  | nil => exact hwf.ne_nil rfl
  | cons c rest =>
    have hc := (hwf.tiles.header _ c (mem_layout_of m' [] c rest)).1
    rw [span_nil, Nat.add_zero, hfirst, hheader] at hc
    subst hc
    cases rest with
    | nil => exact absurd hreach (by decide)
    | cons d rest =>
      have hd := hwf.tiles.header _ d (mem_layout_of m' [_] d rest)
      rw [span_cons, span_nil, hfirst] at hd
      have hzero : d.magic = 0 := hd.1 ▸ hmagic
      rw [hzero] at hd
      exact absurd hd.2 (by decide)

end Filled

/-! ## The chunk behind the pages of others -/

/-- `malloc` gets a chunk with room for the whole request, before and after the split, which ends in the
heap; and handing it out writes nothing from `endOfChunks` on. -/
def Roomy (m : Malloc) (fuel size : ℕ) : Prop :=
  ∃ m₁ x m', m.findChunk fuel size = .done (m₁, x) ∧
    m.malloc fuel size = .done (x + HEADER_SIZE, m') ∧
    HEADER_SIZE + size ≤ (m₁.header x).size ∧ HEADER_SIZE + size ≤ (m'.header x).size ∧
    m'.endOfChunks = m₁.endOfChunks ∧ x + (m'.header x).size ≤ m'.endOfChunks ∧
    ∀ y, m'.endOfChunks ≤ y → m'.mem y = m₁.mem y

/-- No run of free chunks is large enough for a request, the pages from the end of the heap up to `q` are
mapped by others, and the ones from `q` on are not mapped. -/
structure Walled (m : Malloc) (cs : List ChunkHeader) (q size : ℕ) : Prop where
  small : bestRun cs < realsizeOf size
  wraps : m.endPage < q
  others : ∀ page, m.endPage ≤ page → page < q → m.pages.owner page ≠ none
  clear : Clear m.pages q (pagesFor (size + HEADER_SIZE))

section Walled

variable {m : Malloc} {cs : List ChunkHeader} {q size fuel : ℕ}

theorem pagesFor_pos (size : ℕ) : 0 < pagesFor (size + HEADER_SIZE) := by
  apply lt_pagesFor.2
  rw [Nat.zero_mul]
  exact Nat.succ_pos _

theorem Walled.first (walled : Walled m cs q size) (filled : Filled m) (h : WellFormed minSizes m cs) :
    m.pages.First q := by
  have hpos := pagesFor_pos size
  have hlow := walled.clear.low
  have hwraps := walled.wraps
  have hstart : FREE_PAGES_START / PAGESIZE ≤ m.endPage := by
    have hplace := h.endPage_eq
    have hfirst := h.start
    have hreach := h.tiles.reach
    have hpage : PAGESIZE = 4096 := rfl
    have hheader : HEADER_SIZE = 8 := rfl
    have hfree : FREE_PAGES_START = 256 * 4096 := rfl
    rw [hpage, hheader] at hplace
    rw [hpage]
    omega
  refine ⟨by omega, by omega, walled.clear.unmapped 0 hpos, fun page hle hlt => ?_⟩
  by_cases hbelow : page < m.endPage
  · exact filled page hle hbelow
  · exact walled.others page (not_lt.1 hbelow) hlt

/-- The chunk has the pages for the whole request, less the room for a header. -/
theorem findChunk_walled (h : WellFormed minSizes m cs) (filled : Filled m)
    (frames : m.pages.frames = none) (walled : Walled m cs q size)
    (enough : 2 * (cs.length + pagesFor (size + HEADER_SIZE)) < fuel)
    (dir : m.pages.dirs (q / 2 ^ 18) = true) :
    ∃ m₁ pre, m.findChunk fuel size = .done (m₁, q * PAGESIZE) ∧
      WellFormed minSizes m₁
        (pre ++ [⟨pagesFor (size + HEADER_SIZE) * PAGESIZE - HEADER_SIZE, MAGIC, false, false⟩]) ∧
      m₁.firstChunk + span ChunkHeader.size pre = q * PAGESIZE := by
  have hfirst := walled.first filled h
  have hw := filled.wrapped h
  obtain ⟨m₁, found, hsearches⟩ := (hw.searchSafe hfirst dir).searches size h frames
  obtain ⟨cs₁, hsteps, hended, -, hatEnd⟩ :=
    hsearches.findChunk h frames (show 2 * cs.length < fuel by omega)
  have h₁ : WellFormed minSizes m₁ cs₁ := h.search_steps hsteps
  have hfields := SearchSteps.fields hsteps
  have hend : m₁.endOfChunks = m.endOfChunks := hfields.2.1
  obtain ⟨-, howner, -, hbest, -⟩ := SearchSteps.wrapped hsteps hw
  have hsmall : bestRun cs₁ < realsizeOf size := lt_of_eq_of_lt hbest walled.small
  cases found with
  | chunk x =>
    -- the search has found nothing
    obtain ⟨pre, d, suf, rfl, -, hfree, hfits⟩ := hended
    have hrun : d.size ≤ bestRun (pre ++ d :: suf) := by
      refine le_trans ?_ (le_trans leadRun_le_bestRun bestRun_append)
      rw [leadRun_free hfree]
      exact Nat.le_add_right _ _
    exact absurd hfits (not_le.2 (lt_of_le_of_lt hrun hsmall))
  | atEnd x =>
    obtain ⟨pre, d, rfl, hx, -⟩ := hended
    have hd : MALLOC_MINSIZE ≤ d.size := (h₁.tiles.bounds (mem_layout_of m₁ pre d [])).2.2.1
    have hlacking : 0 < pagesFor (lacking d size) := by
      apply lt_pagesFor.2
      rw [Nat.zero_mul]
      unfold lacking
      split_ifs with hused
      · exact Nat.succ_pos _
      · have hrun : d.size ≤ bestRun (pre ++ [d]) := by
          refine le_trans ?_ (le_trans leadRun_le_bestRun bestRun_append)
          rw [leadRun_free (by simpa using hused)]
          exact Nat.le_add_right _ _
        have hlt := lt_of_le_of_lt hrun hsmall
        unfold realsizeOf at hlt
        omega
    have hplace : m₁.endOfChunks + HEADER_SIZE = m.endPage * PAGESIZE := by
      rw [hend, h.endPage_eq]
    obtain ⟨m', hwf, -, -, hlast, -, hgrow⟩ := growAtEnd_wrap (j := 0) h₁ hx.symm hplace
      (hfields.2.2.2.1 frames) (fun _ => rfl) hlacking
      (by
        rw [Nat.zero_mul, Nat.add_zero]
        exact hd)
      (fun i hi => absurd hi (Nat.not_lt_zero i)) walled.wraps
      ((SearchSteps.swept hsteps h).dirs _ dir)
      (fun i hle hlt _ => by
        rw [howner]
        exact hfirst.least i hle hlt)
      walled.clear.low
      (fun i hi => by
        rw [howner]
        exact walled.clear.unmapped i hi)
    rw [List.append_cons] at hwf
    refine ⟨m', _, ?_, hwf, ?_⟩
    · have hgrow' := hgrow (fuel - 1 - pagesFor (size + HEADER_SIZE))
      rw [hatEnd x rfl]
      rwa [show fuel - 1 - pagesFor (size + HEADER_SIZE) + 1 + pagesFor (size + HEADER_SIZE) + 0 = fuel by
        omega] at hgrow'
    · have hreach := hwf.tiles.reach
      rw [span_append, span_cons, span_nil, hlast] at hreach
      dsimp only at hreach
      omega

/-- Behind pages of others the chunk has room for the request exactly when the pages that the request
needs have room for a header more, and there is the page directory of the first of them. -/
theorem malloc_roomy_iff (h : WellFormed minSizes m cs) (filled : Filled m)
    (frames : m.pages.frames = none) (pos : 1 ≤ size) (walled : Walled m cs q size)
    (enough : 2 * (cs.length + pagesFor (size + HEADER_SIZE)) < fuel) :
    Roomy m fuel size ↔ m.pages.dirs (q / 2 ^ 18) = true ∧
      size + 2 * HEADER_SIZE ≤ pagesFor (size + HEADER_SIZE) * PAGESIZE := by
  have hheader : HEADER_SIZE = 8 := rfl
  have hpage : PAGESIZE = 4096 := rfl
  have hpos := pagesFor_pos size
  by_cases hdir : m.pages.dirs (q / 2 ^ 18) = true
  · obtain ⟨m₁, pre, hfind, hwf, hplace⟩ := findChunk_walled h filled frames walled enough hdir
    have hat := hwf.tiles.at.1
    rw [hplace] at hat
    constructor
    · rintro ⟨m₂, x, -, hfind', -, hfits, -⟩
      rw [hfind] at hfind'
      obtain ⟨rfl, rfl⟩ := Prod.mk.inj (Run.done.inj hfind')
      rw [hat] at hfits
      dsimp only at hfits
      exact ⟨hdir, by omega⟩
    · rintro ⟨-, hroom⟩
      have hfits : realsizeOf size ≤ pagesFor (size + HEADER_SIZE) * PAGESIZE - HEADER_SIZE := by
        apply max_le
        · omega
        · have hmin : MALLOC_MINSIZE = 32 := rfl
          rw [hpage]
          omega
      obtain ⟨m', d, rest, hout, htiles, -, hsame, -, -, hsplit, -, -, hlarge⟩ :=
        handOut_spec hwf.tiles hplace rfl hfits minsize_le_realsizeOf
      rw [hsplit, List.append_nil] at htiles
      have hd := htiles.at.1
      rw [hsame.first, hplace] at hd
      have hbounds := htiles.bounds (mem_layout_of m' pre d rest)
      rw [hsame.first, hplace] at hbounds
      have hreach := hwf.tiles.reach
      rw [span_append, span_cons, span_nil] at hreach
      dsimp only at hreach
      refine ⟨m₁, q * PAGESIZE, m', hfind, ?_, ?_, ?_, hsame.last, ?_, fun y hy => ?_⟩
      · unfold malloc
        rw [if_neg (by simp [h.ready]; omega), hfind, Run.done_bind]
        exact congrArg Run.done hout
      · rw [hat]
        exact header_add_le_realsizeOf.trans hfits
      · rw [hd]
        exact header_add_le_realsizeOf.trans hlarge
      · rw [hd]
        exact hbounds.2.1
      · have hmem := handOut_mem (y := y) hat hfits (hwf.tiles.bounds (mem_layout_of m₁ pre _ [])).2.2.2.2
          rfl minsize_le_realsizeOf (Or.inr (by
            rw [hsame.last] at hy
            dsimp only
            omega))
        rwa [hout] at hmem
  · constructor
    · rintro ⟨m₁, x, m', hfind, -⟩
      have hlook : m.pages.getUnmappedVAddr = none := by
        rw [getUnmappedVAddr_eq h.pages (walled.first filled h), if_neg hdir]
      unfold findChunk findChunkFor at hfind
      rw [hlook] at hfind
      cases hfind
    · exact fun hroom => absurd hroom.1 hdir

theorem wallHeap_walled {size : ℕ} (small : PAGESIZE - HEADER_SIZE < realsizeOf size)
    (low : size ≤ 2 ^ 32) :
    Walled (wallHeap 258 false) [⟨PAGESIZE - HEADER_SIZE, MAGIC, false, false⟩] 259 size := by
  refine ⟨by simpa [bestRun, leadRun] using small, by decide, fun page hle hlt => ?_,
    wallPages_clear (by decide) (by decide) ?_⟩
  · have heq : page = 258 := le_antisymm (Nat.lt_succ_iff.1 hlt) hle
    rw [heq]
    exact Option.some_ne_none _
  · unfold pagesFor END_OF_PAGES HEADER_SIZE PAGESIZE
    omega

/-- A request of 5000 bytes. -/
theorem malloc_roomy_wall : Roomy (wallHeap 258 false) 7 5000 := by
  have hwf := @wallHeap_wellFormed 258 false (by decide)
  exact (malloc_roomy_iff hwf wallHeap_filled rfl (by decide) (wallHeap_walled (by decide) (by decide))
    (by decide)).2 ⟨rfl, by decide⟩

/-- For a request of 4088 bytes the chunk has 4088, header included. -/
theorem malloc_small_chunk : ¬ ∀ (m : Malloc) (cs : List ChunkHeader) (q size fuel : ℕ),
    WellFormed minSizes m cs → Filled m → m.pages.frames = none → 1 ≤ size → size ≤ 2 ^ 32 →
      m.pages.dirs (q / 2 ^ 18) = true → Walled m cs q size →
        2 * (cs.length + pagesFor (size + HEADER_SIZE)) < fuel → Roomy m fuel size := by
  intro hall
  have hwf := @wallHeap_wellFormed 258 false (by decide)
  have hwalled := @wallHeap_walled 4088 (by decide) (by decide)
  obtain ⟨m₁, x, -, hfind, -, hfits, -⟩ := hall (wallHeap 258 false) _ 259 4088 5 hwf wallHeap_filled rfl
    (by decide) (by decide) rfl hwalled (by decide)
  obtain ⟨m₂, pre, hfind', hwf', hplace⟩ :=
    findChunk_walled hwf wallHeap_filled rfl hwalled (by decide : 2 * (1 + 1) < 5) rfl
  rw [hfind'] at hfind
  obtain ⟨rfl, rfl⟩ := Prod.mk.inj (Run.done.inj hfind)
  have hat := hwf'.tiles.at.1
  rw [hplace] at hat
  rw [hat] at hfits
  exact absurd hfits (by decide)

end Walled

end Malloc
