import SepplesOS.Mm.FreeChunks
import SepplesOS.Mm.Search

/-!
# Well-formed heaps

In a well-formed heap the chunks tile the room between the two ends, chunks of ours lie on pages of the
heap, and a chunk that is not ours wraps whole pages of others.  The search, `free` and the handing out
of a chunk keep this.
-/

namespace Malloc

open Tiling KernelPages

/-- Whose pages a chunk lies on. -/
structure Owned (pages : KernelPages) (x : ℕ) (c : ChunkHeader) : Prop where
  ours : c.notOurs = false → ∀ y, x ≤ y → y < x + c.size →
    pages.owner (y / PAGESIZE) = some .heap
  used : c.notOurs = true → c.used = true
  place : c.notOurs = true → x % PAGESIZE = 0xFF8
  whole : c.notOurs = true → ∃ n, c.size = (n + 1) * PAGESIZE + HEADER_SIZE
  others : c.notOurs = true → ∀ y, x + HEADER_SIZE ≤ y → y < x + c.size →
    pages.owner (y / PAGESIZE) ≠ some .heap

/-- The heap is well-formed. -/
structure WellFormed (B : MinSizes) (m : Malloc) (cs : List ChunkHeader) : Prop where
  tiles : Tiles B m cs
  ready : m.mallocReady = true
  pages : m.pages.Wf
  start : FREE_PAGES_START ≤ m.firstChunk
  first : m.firstChunk % PAGESIZE = 0
  aligned : m.endOfChunks % PAGESIZE = 0xFF8
  owned : ∀ x c, (x, c) ∈ layout ChunkHeader.size m.firstChunk cs → Owned m.pages x c
  beyond : ∀ page, m.endOfChunks / PAGESIZE < page → m.pages.owner page ≠ some .heap

section Edits

variable {B C : MinSizes} {m m' : Malloc} {pre mid mid' suf cs : List ChunkHeader} {a d x : ℕ}
  {c : ChunkHeader} {pages pages' : KernelPages}

theorem Owned.congr (owned : Owned pages x c)
    (same : ∀ y, x ≤ y → y < x + c.size → pages'.owner (y / PAGESIZE) = pages.owner (y / PAGESIZE)) :
    Owned pages' x c where
  ours := fun h y hle hlt => (same y hle hlt).trans (owned.ours h y hle hlt)
  used := owned.used
  place := owned.place
  whole := owned.whole
  others := fun h y hle hlt => by
    rw [same y (by omega) hlt]
    exact owned.others h y hle hlt

theorem Owned.of_ours (ours : c.notOurs = false)
    (heap : ∀ y, x ≤ y → y < x + c.size → pages.owner (y / PAGESIZE) = some .heap) :
    Owned pages x c where
  ours := fun _ => heap
  used := fun h => by simp [ours] at h
  place := fun h => by simp [ours] at h
  whole := fun h => by simp [ours] at h
  others := fun h => by simp [ours] at h

theorem WellFormed.ne_nil (h : WellFormed B m cs) : cs ≠ [] := by
  rintro rfl
  have hreach := h.tiles.reach
  have hfirst := h.first
  have haligned := h.aligned
  rw [span_nil, Nat.add_zero] at hreach
  rw [← hreach, hfirst] at haligned
  cases haligned

theorem WellFormed.free_ours (h : WellFormed B m cs)
    (chunk : (x, c) ∈ layout ChunkHeader.size m.firstChunk cs) (free : c.used = false) :
    c.notOurs = false := by
  by_contra hnot
  have hused := (h.owned x c chunk).used (by simpa using hnot)
  rw [free] at hused
  cases hused

theorem WellFormed.last_ours (h : WellFormed B m (pre ++ [c])) : c.notOurs = false := by
  by_contra hnot
  have hnot' : c.notOurs = true := by simpa using hnot
  have howned := h.owned _ c (mem_layout _ _ _ _)
  have hplace := howned.place hnot'
  obtain ⟨n, hsize⟩ := howned.whole hnot'
  have hreach := h.tiles.reach
  have haligned := h.aligned
  have hpage : PAGESIZE = 4096 := rfl
  have hheader : HEADER_SIZE = 8 := rfl
  simp only [span_append, span_cons, span_nil] at hreach
  rw [hpage] at hplace hsize haligned
  omega

theorem WellFormed.reserved (h : WellFormed B m cs) :
    m.pages.owner (m.endOfChunks / PAGESIZE) = some .heap := by
  obtain ⟨pre, c, rfl⟩ : ∃ pre c, cs = pre ++ [c] :=
    ⟨_, _, (List.dropLast_concat_getLast h.ne_nil).symm⟩
  have hmem := mem_layout_of m pre c []
  have hpos := (h.tiles.bounds hmem).2.2.2.1
  have hreach := h.tiles.reach
  have haligned := h.aligned
  have hpage : PAGESIZE = 4096 := rfl
  simp only [span_append, span_cons, span_nil] at hreach
  have hours := (h.owned _ c hmem).ours h.last_ours (m.endOfChunks - 1) (by omega) (by omega)
  rw [hpage] at haligned hours ⊢
  rwa [show m.endOfChunks / 4096 = (m.endOfChunks - 1) / 4096 by omega]

/-- The heap stays well-formed when a part of the list becomes another one, and outside of it the pages
are the same. -/
theorem WellFormed.recut (h : WellFormed B m (pre ++ mid ++ suf))
    (start : m.firstChunk + span ChunkHeader.size pre = a)
    (stop : a + span ChunkHeader.size mid = d) (first : m'.firstChunk = m.firstChunk)
    (place : suf ≠ [] → a + span ChunkHeader.size mid' = d)
    (tiles : Tiles C m' (pre ++ mid' ++ suf)) (ready : m'.mallocReady = m.mallocReady)
    (pages : m'.pages.Wf) (aligned : m'.endOfChunks % PAGESIZE = 0xFF8)
    (outside : ∀ y, y < a ∨ suf ≠ [] ∧ d ≤ y →
      m'.pages.owner (y / PAGESIZE) = m.pages.owner (y / PAGESIZE))
    (owned : ∀ x c, (x, c) ∈ layout ChunkHeader.size a mid' → Owned m'.pages x c)
    (beyond : ∀ page, m'.endOfChunks / PAGESIZE < page → m'.pages.owner page ≠ some .heap) :
    WellFormed C m' (pre ++ mid' ++ suf) where
  tiles := tiles
  ready := ready.trans h.ready
  pages := pages
  start := by
    rw [first]
    exact h.start
  first := by
    rw [first]
    exact h.first
  aligned := aligned
  owned := by
    intro x c hc
    have hold := h.owned x c
    rw [layout_parts start stop] at hold
    rw [layout_recut start first place, List.mem_append, List.mem_append] at hc
    rcases hc with (hc | hc) | hc
    · have hbounds := layout_bounds hc
      exact (hold (List.mem_append_left _ (List.mem_append_left _ hc))).congr
        fun y _ hlt => outside y (Or.inl (by omega))
    · exact owned x c hc
    · have hbounds := layout_bounds hc
      have hsuf : suf ≠ [] := by
        rintro rfl
        cases hc
      exact (hold (List.mem_append_right _ hc)).congr
        fun y hle _ => outside y (Or.inr ⟨hsuf, by omega⟩)
  beyond := beyond

end Edits

/-! ## The operations -/

section Operations

variable {B C : MinSizes} {m m' : Malloc} {pre suf run rest cs : List ChunkHeader}
  {s t : Malloc × List ChunkHeader} {a d x k realsize : ℕ} {c o : ChunkHeader}

/-- The header of a chunk that is not ours lies on a page of the heap. -/
theorem WellFormed.wrap_page (h : WellFormed B m (pre ++ c :: suf)) (notOurs : c.notOurs = true)
    (start : m.firstChunk + span ChunkHeader.size pre = x) :
    m.pages.owner (x / PAGESIZE) = some .heap := by
  have hmem := mem_layout_of m pre c suf
  have hplace := (h.owned _ c hmem).place notOurs
  rw [start] at hplace
  have hfirst := h.first
  have hpage : PAGESIZE = 4096 := rfl
  have hheader : HEADER_SIZE = 8 := rfl
  have hpre : pre ≠ [] := by
    rintro rfl
    rw [span_nil, Nat.add_zero] at start
    rw [start, hplace] at hfirst
    cases hfirst
  obtain ⟨l, b, rfl⟩ : ∃ l b, pre = l ++ [b] := ⟨_, _, (List.dropLast_concat_getLast hpre).symm⟩
  have hb := mem_layout_of m l b (c :: suf)
  rw [show l ++ b :: c :: suf = l ++ [b] ++ c :: suf by simp] at hb
  have hpos := (h.tiles.bounds hb).2.2.2.1
  rw [span_append, span_cons, span_nil] at start
  by_cases hours : b.notOurs = true
  · -- two chunks that are not ours are no neighbours
    have hplace' := (h.owned _ b hb).place hours
    obtain ⟨n, hsize⟩ := (h.owned _ b hb).whole hours
    rw [hpage] at hplace hplace' hsize
    omega
  · have hheap := (h.owned _ b hb).ours (by simpa using hours) (x - 1) (by omega) (by omega)
    rw [hpage] at hplace hheap ⊢
    rwa [show x / 4096 = (x - 1) / 4096 by omega]

theorem WellFormed.search_step (h : WellFormed B s.1 s.2) (step : SearchStep s t) :
    WellFormed B t.1 t.2 := by
  have tiles := step.tiles h.tiles
  cases step with
  | @merge m pre suf o c a start free free' =>
    have hlist : pre ++ o :: c :: suf = pre ++ [o, c] ++ suf := by simp
    have hlist' : pre ++ o.enlarge c.size :: suf = pre ++ [o.enlarge c.size] ++ suf := by simp
    have hodd := mem_layout_of m pre o (c :: suf)
    have hevn : (m.firstChunk + span ChunkHeader.size pre + o.size, c) ∈
        layout ChunkHeader.size m.firstChunk (pre ++ o :: c :: suf) := by
      rw [layout_append, layout_cons, layout_cons]
      simp
    rw [start] at hodd hevn
    have ho := h.owned a o hodd
    have hc := h.owned (a + o.size) c hevn
    have hours := h.free_ours hodd free
    have hours' := h.free_ours hevn free'
    dsimp only at h tiles ⊢
    rw [hlist'] at tiles ⊢
    rw [hlist] at h
    refine h.recut start rfl rfl (fun _ => by simp) tiles rfl h.pages h.aligned (fun _ _ => rfl)
      (fun y e he => ?_) h.beyond
    rw [layout_cons, layout_nil, List.mem_singleton] at he
    obtain ⟨rfl, rfl⟩ := Prod.mk.inj he
    refine Owned.of_ours hours fun z hle hlt => ?_
    rw [ChunkHeader.enlarge_size] at hlt
    by_cases hz : z < y + o.size
    · exact ho.ours hours z hle hz
    · exact hc.ours hours' z (by omega) (by omega)
  | @reclaim m pre suf c a page pages start notOurs size place maps wf =>
    have hwrap := h.wrap_page notOurs start
    dsimp only at h tiles ⊢
    rw [show pre ++ c :: suf = pre ++ [c] ++ suf by simp] at h
    rw [show ∀ e : ChunkHeader, pre ++ e :: suf = pre ++ [e] ++ suf by simp] at tiles ⊢
    have hpage : PAGESIZE = 4096 := rfl
    have hheader : HEADER_SIZE = 8 := rfl
    rw [hpage] at size place hwrap
    have howner : ∀ q, pages.owner q = if q = page then some .heap else m.pages.owner q := by
      intro q
      rw [maps.owner, Function.update_apply]
    have hreach := h.tiles.reach
    simp only [span_append, span_cons, span_nil] at hreach
    refine h.recut start rfl rfl (fun _ => rfl) tiles rfl wf h.aligned (fun y hy => ?_)
      (fun y e he => ?_) fun q hq => ?_
    · show pages.owner _ = _
      rw [howner, if_neg ?_, hpage]
      rw [span_cons, span_nil] at hy
      rw [hpage]
      omega
    · rw [layout_cons, layout_nil, List.mem_singleton] at he
      obtain ⟨rfl, rfl⟩ := Prod.mk.inj he
      refine Owned.of_ours rfl fun z hle hlt => ?_
      show pages.owner (z / PAGESIZE) = _
      dsimp only at hlt
      rw [howner, hpage]
      split_ifs with hz
      · rfl
      · rwa [show z / 4096 = y / 4096 by omega]
    · show pages.owner q ≠ _
      change m.endOfChunks / PAGESIZE < q at hq
      rw [howner, if_neg (by rw [hpage] at hq; omega)]
      exact h.beyond q hq
  | @look m cs pages same wf =>
    refine ⟨tiles, h.ready, wf, h.start, h.first, h.aligned, fun x c hc => ?_, fun q hq => ?_⟩
    · exact (h.owned x c hc).congr fun y _ _ => congrFun same.owner _
    · show pages.owner q ≠ _
      rw [same.owner]
      exact h.beyond q hq

theorem WellFormed.search_steps (h : WellFormed B s.1 s.2) (steps : SearchSteps s t) :
    WellFormed B t.1 t.2 := by
  induction steps with
  | refl => exact h
  | tail _ step ih => exact ih.search_step step

theorem WellFormed.split (h : WellFormed B m (pre ++ c :: suf))
    (start : m.firstChunk + span ChunkHeader.size pre = x) (free : c.used = false)
    (fits : realsize ≤ c.size) (tiles : Tiles C m' (pre ++ Malloc.split c realsize ++ suf))
    (same : SameEnds m m') : WellFormed C m' (pre ++ Malloc.split c realsize ++ suf) := by
  have hmem := mem_layout_of m pre c suf
  rw [start] at hmem
  have hc := h.owned x c hmem
  have hours := h.free_ours hmem free
  rw [show pre ++ c :: suf = pre ++ [c] ++ suf by simp] at h
  have hparts : ∀ e ∈ Malloc.split c realsize, e.notOurs = false := by
    intro e he
    unfold Malloc.split at he
    split_ifs at he
    · rw [List.mem_cons, List.mem_singleton] at he
      rcases he with rfl | rfl
      · exact hours
      · rfl
    · rw [List.mem_singleton] at he
      rw [he]
      exact hours
  refine h.recut start rfl same.first (fun _ => ?_) tiles same.ready (same.pages ▸ h.pages)
    (same.last ▸ h.aligned) (fun _ _ => by rw [same.pages]) (fun y e he => ?_) fun q hq => ?_
  · rw [span_split fits, span_cons, span_nil, Nat.add_zero]
  · have hbounds := layout_bounds he
    rw [span_split fits] at hbounds
    rw [same.pages]
    exact Owned.of_ours (hparts e (mem_of_layout he)) fun z hle hlt =>
      hc.ours hours z (by omega) (by omega)
  · rw [same.last] at hq
    rw [same.pages]
    exact h.beyond q hq

theorem WellFormed.merged_heap (h : WellFormed B m (pre ++ c :: (run ++ rest)))
    (start : m.firstChunk + span ChunkHeader.size pre = x) (ours : c.notOurs = false)
    (run_free : ∀ d ∈ run, d.used = false) {y : ℕ} (le : x ≤ y)
    (lt : y < x + (c.size + span ChunkHeader.size run)) : m.pages.owner (y / PAGESIZE) = some .heap := by
  have hlist : pre ++ c :: (run ++ rest) = pre ++ (c :: run) ++ rest := by simp
  obtain ⟨z, e, he, hz, hy⟩ : ∃ z e, (z, e) ∈ layout ChunkHeader.size x (c :: run) ∧ z ≤ y ∧
      y < z + e.size := exists_mem_layout le (by rwa [span_cons])
  have hmem : (z, e) ∈ layout ChunkHeader.size m.firstChunk (pre ++ c :: (run ++ rest)) := by
    rw [hlist, layout_parts start rfl]
    exact List.mem_append_left _ (List.mem_append_right _ he)
  refine (h.owned z e hmem).ours ?_ y hz hy
  rcases List.mem_cons.1 (mem_of_layout he) with rfl | hrun
  · exact ours
  · exact h.free_ours hmem (run_free e hrun)

theorem WellFormed.free (h : WellFormed B m (pre ++ c :: (run ++ rest)))
    (start : m.firstChunk + span ChunkHeader.size pre = x) (ours : c.notOurs = false)
    (run_free : ∀ d ∈ run, d.used = false) (freed : Freed B m m' pre c run rest x k) :
    WellFormed B.remainder m' (pre ++ Malloc.freed c run rest ++ rest) := by
  have hpage : PAGESIZE = 4096 := rfl
  have hheader : HEADER_SIZE = 8 := rfl
  have haligned := h.aligned
  have hlast := freed.last
  have howner := freed.owner haligned
  have hlist : pre ++ c :: (run ++ rest) = pre ++ (c :: run) ++ rest := by simp
  have hreach := h.tiles.reach
  simp only [span_append, span_cons] at hreach
  have hheap : ∀ y, x ≤ y → y < x + (c.size + span ChunkHeader.size run) →
      m.pages.owner (y / PAGESIZE) = some .heap := fun _ => h.merged_heap start ours run_free
  rw [hlist] at h
  by_cases hrest : rest = []
  · subst hrest
    obtain ⟨hlow, hhigh⟩ := freed.lowest rfl
    rw [span_nil] at hreach
    rw [hpage] at haligned hlast hhigh
    refine h.recut start rfl freed.first (fun hne => absurd rfl hne) freed.tiles freed.ready
      (freed.unmaps.wf h.pages) (by rw [hpage]; omega) (fun y hy => ?_) (fun y e he => ?_)
      fun q hq => ?_
    · have hy' := hy.resolve_right fun hne => hne.1 rfl
      rw [howner, if_neg (by rw [hpage, hheader]; omega)]
    · have hsize : (c.size + span ChunkHeader.size run) % 4096 = m'.endOfChunks - x := by omega
      rw [freed_end, hpage] at he
      split_ifs at he
      · cases he
      · rw [layout_cons, layout_nil, List.mem_singleton] at he
        obtain ⟨rfl, rfl⟩ := Prod.mk.inj he
        refine Owned.of_ours ours fun z hle hlt => ?_
        dsimp only at hlt
        rw [howner, if_neg (by rw [hpage, hheader]; omega)]
        exact hheap z hle (by omega)
    · rw [howner]
      split_ifs with hin
      · exact nofun
      · refine h.beyond q ?_
        rw [hpage] at hq hin ⊢
        rw [hheader] at hin
        omega
  · have hzero := freed.inside hrest
    rw [hzero, Nat.zero_mul, Nat.add_zero] at hlast
    have hsame : ∀ q, m'.pages.owner q = m.pages.owner q := fun q => by
      rw [howner, if_neg (by omega)]
    refine h.recut start rfl freed.first (fun _ => ?_) freed.tiles freed.ready
      (freed.unmaps.wf h.pages) (hlast ▸ haligned) (fun y _ => hsame _) (fun y e he => ?_)
      fun q hq => ?_
    · rw [freed_middle hrest]
      simp
    · rw [freed_middle hrest, layout_cons, layout_nil, List.mem_singleton] at he
      obtain ⟨rfl, rfl⟩ := Prod.mk.inj he
      refine Owned.of_ours ours fun z hle hlt => ?_
      rw [hsame]
      exact hheap z hle hlt
    · rw [hsame]
      rw [hlast] at hq
      exact h.beyond q hq

/-- The heap as `init` makes it. -/
theorem init_wellFormed {mem : Buf} {pages : KernelPages} {page : ℕ} (wf : pages.Wf)
    (frames : pages.frames = none) (first : pages.First page)
    (dir : pages.dirs (page / 2 ^ 18) = true) (none : ∀ q, pages.owner q ≠ some .heap) :
    ∃ m, init mem pages = some m ∧
      WellFormed minSizes m [⟨PAGESIZE - HEADER_SIZE, MAGIC, false, false⟩] := by
  obtain ⟨m, hinit, hfirst, hlast, hmaps, hwf, hready, -, -, tiles⟩ :=
    init_spec mem wf frames first dir
  have hpage : PAGESIZE = 4096 := rfl
  have hheader : HEADER_SIZE = 8 := rfl
  rw [hpage] at hfirst hlast
  rw [hheader] at hlast
  have howner : ∀ q, m.pages.owner q = if q = page then some .heap else pages.owner q := by
    intro q
    rw [hmaps.owner, Function.update_apply]
  have hstart := first.start
  have hfree : FREE_PAGES_START / PAGESIZE = 256 := rfl
  have hfree' : FREE_PAGES_START = 256 * 4096 := rfl
  refine ⟨m, hinit, tiles, hready, hwf, by omega, by rw [hpage]; omega, by rw [hpage]; omega,
    fun x c hc => ?_, fun q hq => ?_⟩
  · rw [layout_cons, layout_nil, List.mem_singleton] at hc
    obtain ⟨rfl, rfl⟩ := Prod.mk.inj hc
    refine Owned.of_ours rfl fun y hle hlt => ?_
    change y < m.firstChunk + (4096 - 8) at hlt
    rw [howner, if_pos (by rw [hpage]; omega)]
  · rw [hpage] at hq
    rw [howner, if_neg (by omega)]
    exact none q

theorem init_made {mem : Buf} {pages : KernelPages} (wf : pages.Wf) (frames : pages.frames = none)
    (new : ∀ q, pages.owner q ≠ some .heap) (result : init mem pages = some m) :
    WellFormed minSizes m [⟨PAGESIZE - HEADER_SIZE, MAGIC, false, false⟩] ∧ m.pages.frames = none ∧
      m.totalMemUsed = UInt64.ofNat PAGESIZE ∧ m.totalMemAllocated = 0 ∧
      ∃ page, pages.First page ∧ m.firstChunk = page * PAGESIZE ∧
        KernelPages.MapsOne pages m.pages .heap page := by
  cases hlook : pages.getUnmappedVAddr with
  | none =>
    unfold init mapPage at result
    rw [if_pos rfl, hlook] at result
    cases result
  | some r =>
    obtain ⟨page, first, -, hdir, -⟩ := getUnmappedVAddr_some wf hlook
    obtain ⟨m₁, hinit, hwf⟩ := @init_wellFormed mem _ _ wf frames first hdir new
    obtain ⟨m₂, hinit', hfirst, -, hmaps, -, -, hused, hallocated, -⟩ :=
      init_spec mem wf frames first hdir
    obtain rfl := Option.some.inj (hinit.symm.trans result)
    obtain rfl := Option.some.inj (hinit.symm.trans hinit')
    exact ⟨hwf, hmaps.frames frames, hused, hallocated, page, first, hfirst, hmaps⟩

/-- The heap stays well-formed when its last chunk becomes other ones, with new pages behind the page
`p` that `endOfChunks` was in front of. -/
theorem WellFormed.regrow {L : List ChunkHeader} {p : ℕ} (h : WellFormed B m (pre ++ [c]))
    (start : m.firstChunk + span ChunkHeader.size pre = x)
    (place : m.endOfChunks + HEADER_SIZE = p * PAGESIZE) (first : m'.firstChunk = m.firstChunk)
    (before : ∀ y, y < x → m'.mem y = m.mem y)
    (header : ∀ z e, (z, e) ∈ layout ChunkHeader.size x L → m'.header z = e ∧ e.magic = MAGIC)
    (reach : x + span ChunkHeader.size L = m'.endOfChunks) (sized : Sized C (pre ++ L))
    (room : m'.endOfChunks + HEADER_SIZE ≤ 2 ^ 47) (ready : m'.mallocReady = m.mallocReady)
    (pages : m'.pages.Wf) (aligned : m'.endOfChunks % PAGESIZE = 0xFF8)
    (below : ∀ q < p, m'.pages.owner q = m.pages.owner q)
    (owned : ∀ z e, (z, e) ∈ layout ChunkHeader.size x L → Owned m'.pages z e)
    (beyond : ∀ q, m'.endOfChunks / PAGESIZE < q → m'.pages.owner q ≠ some .heap)
    (kept : c.used = true → (x, c) ∈ layout ChunkHeader.size x L ∧
      ∀ y, x ≤ y → y < x + c.size → m'.mem y = m.mem y) :
    WellFormed C m' (pre ++ L) ∧
      Keeps (fun d => d.used = true) m m' (pre ++ [c]) (pre ++ L) none := by
  have hreach := h.tiles.reach
  simp only [span_append, span_cons, span_nil] at hreach
  rw [← List.append_nil (pre ++ [c])] at h ⊢
  rw [← List.append_nil (pre ++ L)] at sized ⊢
  have edit : Edit m m' pre [c] L [] x (x + c.size) :=
    { start := start
      stop := by simp
      first := first
      before := before
      behind := fun hne => absurd rfl hne }
  have tiles := edit.tiles h.tiles (by simp) (fun _ => reach) sized header room
  refine ⟨h.recut start edit.stop first (fun hne => absurd rfl hne) tiles ready pages aligned
    (fun y hy => below _ ?_) owned beyond, edit.keeps fun z e he hP _ => ?_⟩
  · have hy' := hy.resolve_right fun hne => hne.1 rfl
    have hpage : PAGESIZE = 4096 := rfl
    rw [hpage] at place ⊢
    omega
  · rw [layout_cons, layout_nil, List.mem_singleton] at he
    obtain ⟨rfl, rfl⟩ := Prod.mk.inj he
    exact kept hP

theorem WellFormed.append {L : List ChunkHeader} {p : ℕ} (h : WellFormed B m cs)
    (place : m.endOfChunks + HEADER_SIZE = p * PAGESIZE) (first : m'.firstChunk = m.firstChunk)
    (before : ∀ y, y < m.endOfChunks → m'.mem y = m.mem y)
    (header : ∀ z e, (z, e) ∈ layout ChunkHeader.size m.endOfChunks L →
      m'.header z = e ∧ e.magic = MAGIC)
    (reach : m.endOfChunks + span ChunkHeader.size L = m'.endOfChunks) (sized : Sized C (cs ++ L))
    (inner : ∀ e ∈ cs, HEADER_SIZE ≤ e.size) (room : m'.endOfChunks + HEADER_SIZE ≤ 2 ^ 47)
    (ready : m'.mallocReady = m.mallocReady) (pages : m'.pages.Wf)
    (aligned : m'.endOfChunks % PAGESIZE = 0xFF8)
    (below : ∀ q < p, m'.pages.owner q = m.pages.owner q)
    (owned : ∀ z e, (z, e) ∈ layout ChunkHeader.size m.endOfChunks L → Owned m'.pages z e)
    (beyond : ∀ q, m'.endOfChunks / PAGESIZE < q → m'.pages.owner q ≠ some .heap) :
    WellFormed C m' (cs ++ L) ∧ Keeps (fun d => d.used = true) m m' cs (cs ++ L) none := by
  have hreach := h.tiles.reach
  have hpage : PAGESIZE = 4096 := rfl
  have hheader : HEADER_SIZE = 8 := rfl
  have hlayout : layout ChunkHeader.size m'.firstChunk (cs ++ L) =
      layout ChunkHeader.size m.firstChunk cs ++ layout ChunkHeader.size m.endOfChunks L := by
    rw [layout_append, first, hreach]
  refine ⟨⟨⟨fun z e he => ?_, ?_, sized, room⟩, ready.trans h.ready, pages, first ▸ h.start, first ▸ h.first,
    aligned, fun z e he => ?_, beyond⟩, fun z e he _ _ => ⟨?_, fun y _ hlt => before y ?_⟩⟩
  · rw [hlayout, List.mem_append] at he
    rcases he with he | he
    · have hbounds := (h.tiles.bounds he).2.1
      have hsize := inner e (mem_of_layout he)
      rw [header_congr fun i _ hi => before i (by omega)]
      exact h.tiles.header z e he
    · exact header z e he
  · rw [first, span_append, ← Nat.add_assoc, hreach, reach]
  · rw [hlayout, List.mem_append] at he
    rcases he with he | he
    · have hbounds := (h.tiles.bounds he).2.1
      refine (h.owned z e he).congr fun y _ hlt => below _ ?_
      rw [hpage] at place ⊢
      omega
    · exact owned z e he
  · rw [hlayout]
    exact List.mem_append_left _ he
  · have hbounds := (h.tiles.bounds he).2.1
    omega

theorem WellFormed.resize (h : WellFormed B m cs) (sized : Sized C cs) : WellFormed C m cs :=
  { h with tiles := { h.tiles with sized := sized } }

theorem WellFormed.store {y : ℕ} (h : WellFormed B m cs)
    (place : (x, c) ∈ layout ChunkHeader.size m.firstChunk cs) (inside : x + HEADER_SIZE ≤ y)
    (lt : y < x + c.size) (byte : UInt8) :
    WellFormed B { m with mem := Function.update m.mem y byte } cs := by
  refine { h with tiles := ⟨fun z e he => ?_, h.tiles.reach, h.tiles.sized, h.tiles.room⟩ }
  change (z, e) ∈ layout ChunkHeader.size m.firstChunk cs at he
  have hapart : y < z ∨ z + HEADER_SIZE ≤ y := by
    rcases layout_apart place he with ⟨rfl, -⟩ | hbelow | habove
    · exact Or.inr inside
    · exact Or.inl (by omega)
    · right
      -- a chunk with one behind it has room for its header
      have hinner : HEADER_SIZE ≤ e.size := by
        obtain ⟨pre, suf, rfl, hz⟩ := layout_split he
        have hsuf : suf ≠ [] := by
          rintro rfl
          have hreach := h.tiles.reach
          have hbounds := (h.tiles.bounds place).2.1
          rw [span_append, span_cons, span_nil, Nat.add_zero] at hreach
          omega
        exact B.header_le.trans ((sized_cons hsuf).1 (sized_append_cons.1 h.tiles.sized).2).1
      omega
  have hsame : header { m with mem := Function.update m.mem y byte } z = m.header z :=
    header_congr fun i hle hlt => Function.update_of_ne (by omega) _ _
  rw [hsame]
  exact h.tiles.header z e he

/-! ### Pages of others -/

/-- Pages of others may change owners, as long as none of them is or becomes the heap's. -/
theorem WellFormed.foreign {pages : KernelPages} (h : WellFormed B m cs) (wf : pages.Wf)
    (owner : ∀ q, pages.owner q = m.pages.owner q ∨
      m.pages.owner q ≠ some .heap ∧ pages.owner q ≠ some .heap) :
    WellFormed B { m with pages := pages } cs := by
  refine ⟨h.tiles.congr rfl rfl rfl, h.ready, wf, h.start, h.first, h.aligned, fun x c hc => ?_,
    fun q hq => ?_⟩
  · have howned := h.owned x c hc
    refine ⟨fun hours y hle hlt => ?_, howned.used, howned.place, howned.whole, fun hnot y hle hlt => ?_⟩
    · have hheap := howned.ours hours y hle hlt
      rcases owner (y / PAGESIZE) with hsame | ⟨hne, -⟩
      · exact hsame.trans hheap
      · exact absurd hheap hne
    · rcases owner (y / PAGESIZE) with hsame | ⟨-, hne⟩
      · rw [hsame]
        exact howned.others hnot y hle hlt
      · exact hne
  · rcases owner q with hsame | ⟨-, hne⟩
    · rw [hsame]
      exact h.beyond q hq
    · exact hne

theorem mapPage_foreign {pages pages' : KernelPages} {vaddr : ℕ} (wf : pages.Wf)
    (frames : pages.frames = none) (result : pages.mapPage .foreign 0 = some (vaddr, pages')) :
    pages'.Wf ∧ pages'.frames = none ∧ ∀ q, pages'.owner q = pages.owner q ∨
      pages.owner q ≠ some .heap ∧ pages'.owner q ≠ some .heap := by
  cases hlook : pages.getUnmappedVAddr with
  | none =>
    unfold mapPage at result
    rw [if_pos rfl, hlook] at result
    cases result
  | some r =>
    obtain ⟨page, first, -, hdir, -⟩ := getUnmappedVAddr_some wf hlook
    obtain ⟨pages₁, hmap, hmaps, hwf'⟩ := @mapPage_zero _ .foreign _ wf frames first hdir
    obtain ⟨-, rfl⟩ := Prod.mk.inj (Option.some.inj (hmap.symm.trans result))
    refine ⟨hwf', hmaps.frames frames, fun q => ?_⟩
    rw [hmaps.owner]
    by_cases heq : q = page
    · rw [heq, Function.update_self, first.unmapped]
      exact Or.inr ⟨nofun, nofun⟩
    · exact Or.inl (Function.update_of_ne heq _ _)

theorem unmapPage_foreign {pages : KernelPages} {page : ℕ} (wf : pages.Wf)
    (frames : pages.frames = none) (foreign : pages.owner page = some .foreign) :
    (pages.unmapPage (page * PAGESIZE)).Wf ∧ (pages.unmapPage (page * PAGESIZE)).frames = none ∧
      ∀ q, (pages.unmapPage (page * PAGESIZE)).owner q = pages.owner q ∨
        pages.owner q ≠ some .heap ∧ (pages.unmapPage (page * PAGESIZE)).owner q ≠ some .heap := by
  have hlow := wf.low page (by
    rw [foreign]
    exact Option.some_ne_none _)
  unfold END_OF_PAGES at hlow
  have hunmaps := @foldl_unmapPage page 1 (page * PAGESIZE) rfl (by omega) pages
  rw [List.range_one, List.foldl_cons, List.foldl_nil, Nat.mul_zero, Nat.add_zero] at hunmaps
  refine ⟨hunmaps.wf wf, hunmaps.frames frames, fun q => ?_⟩
  rw [hunmaps.owner]
  split_ifs with hin
  · obtain rfl : q = page := by omega
    rw [foreign]
    exact Or.inr ⟨nofun, nofun⟩
  · exact Or.inl rfl

end Operations

end Malloc
