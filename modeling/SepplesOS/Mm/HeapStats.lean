import SepplesOS.Mm.AllocRun

/-!
# The statistics of the heap

`totalMemAllocated` and `totalMemUsed` against what they count: the bytes of the used chunks that are
ours, and the pages of the heap.  The search of `malloc` takes a wrapped page back without counting it;
`Tracked` asks of a step that no page can be taken back.
-/

namespace KernelPages

/-- The pages of the heap. -/
def heapPages (pages : KernelPages) : Finset ℕ :=
  (Finset.range END_OF_PAGES).filter fun page => pages.owner page = some .heap

variable {pages pages' : KernelPages} {page : ℕ}

theorem mem_heapPages (wf : pages.Wf) : page ∈ pages.heapPages ↔ pages.owner page = some .heap := by
  unfold heapPages
  rw [Finset.mem_filter, Finset.mem_range]
  refine ⟨fun h => h.2, fun h => ⟨wf.low page ?_, h⟩⟩
  rw [h]
  exact Option.some_ne_none _

theorem heapPages_congr (same : ∀ page, pages'.owner page = some .heap ↔ pages.owner page = some .heap) :
    pages'.heapPages = pages.heapPages :=
  Finset.filter_congr fun page _ => same page

end KernelPages

namespace Malloc

open Tiling KernelPages

/-- `totalMemUsed` counts the pages of the heap, and none of them lies in front of it. -/
structure PagesCounted (m : Malloc) : Prop where
  used : m.totalMemUsed = UInt64.ofNat (m.pages.heapPages.card * PAGESIZE)
  above : ∀ page, m.pages.owner page = some .heap → m.firstChunk ≤ page * PAGESIZE

/-- The page lies, at least in part, in a chunk that is ours. -/
def Covered (m : Malloc) (cs : List ChunkHeader) (page : ℕ) : Prop :=
  ∃ x c y, (x, c) ∈ layout ChunkHeader.size m.firstChunk cs ∧ c.notOurs = false ∧ x ≤ y ∧
    y < x + c.size ∧ y / PAGESIZE = page

section Pages

variable {B : MinSizes} {m m' : Malloc} {pre run rest cs cs' : List ChunkHeader} {c : ChunkHeader}
  {pages : KernelPages} {page x y k vaddr size fuel : ℕ}

theorem PagesCounted.congr (counted : PagesCounted m)
    (same : ∀ page, m'.pages.owner page = some .heap ↔ m.pages.owner page = some .heap)
    (used : m'.totalMemUsed = m.totalMemUsed) (first : m'.firstChunk = m.firstChunk) :
    PagesCounted m' where
  used := by rw [heapPages_congr same, used, counted.used]
  above := fun page hheap => by
    rw [first]
    exact counted.above page ((same page).1 hheap)

theorem PagesCounted.foreign (counted : PagesCounted m) (owner : ∀ q, pages.owner q = m.pages.owner q ∨
    m.pages.owner q ≠ some .heap ∧ pages.owner q ≠ some .heap) :
    PagesCounted { m with pages := pages } := by
  refine counted.congr (fun q => ?_) rfl rfl
  rcases owner q with hsame | ⟨hold, hnew⟩
  · show pages.owner q = _ ↔ _
    rw [hsame]
  · exact iff_of_false hnew hold

theorem PagesCounted.init {mem : Buf} (wf : pages.Wf) (frames : pages.frames = none)
    (new : ∀ q, pages.owner q ≠ some .heap) (result : Malloc.init mem pages = some m) :
    PagesCounted m := by
  obtain ⟨hwf, -, hused, -, page, -, hfirst, hmaps⟩ := init_made wf frames new result
  have howner : ∀ q, m.pages.owner q = some .heap ↔ q = page := by
    intro q
    rw [hmaps.owner, Function.update_apply]
    split_ifs with h
    · simp [h]
    · exact iff_of_false (new q) h
  refine ⟨?_, fun q hq => ?_⟩
  · have hpages : m.pages.heapPages = {page} := by
      ext q
      rw [mem_heapPages hwf.pages, howner, Finset.mem_singleton]
    rw [hused, hpages, Finset.card_singleton, Nat.one_mul]
  · rw [hfirst, (howner q).1 hq]

theorem malloc_below (h : WellFormed B m cs) (sized : UsedSized B cs) (frames : m.pages.frames = none)
    (pos : 0 < size) (served : Served B m size) (result : m.malloc fuel size = .done (vaddr, m'))
    (below : page * PAGESIZE < m.firstChunk) : m'.pages.owner page = m.pages.owner page := by
  set enough := 2 * (cs.length + pagesFor (size + HEADER_SIZE)) with henough
  obtain ⟨m₁, cs₁, m₂, pre, d, suf, x, new, hsteps, hgrown, hx, hfree, hfits, hfind⟩ :=
    findChunk_spec h sized frames served (show enough < fuel + (enough + 1) by omega)
  have hswept := SearchSteps.swept hsteps h
  have hfields := SearchSteps.fields hsteps
  obtain ⟨m'', cs', hout, -, -, hends, -⟩ :=
    handOut_malloced hgrown.wellFormed (hgrown.sized (hswept.sized sized)) hx hfree hfits
  have hmalloc : m.malloc (fuel + (enough + 1)) size = .done (x + HEADER_SIZE, m'') := by
    unfold malloc
    rw [if_neg (by simp [h.ready]; omega), hfind, Run.done_bind]
    dsimp only
    rw [hout]
  have hsame := (Run.le_of_succ (fun n => Malloc.malloc_le size n)
    (Nat.le_add_right fuel (enough + 1))).done result
  obtain ⟨-, rfl⟩ := Prod.mk.inj (Run.done.inj (hmalloc.symm.trans hsame))
  have hout' : page ∉ new := by
    intro hin
    have habove := hgrown.above page hin
    have hlast : m₁.endOfChunks = m.endOfChunks := hfields.2.1
    have hreach := h.tiles.reach
    omega
  rw [hends.pages, hgrown.maps.owner, if_neg hout']
  rcases hswept.owner page with hsame | ⟨-, -, z, e, he, -, -, hplace⟩
  · exact hsame
  · have hbounds := h.tiles.bounds he
    omega

theorem PagesCounted.malloced (counted : PagesCounted m) (wf : m.pages.Wf) (wrapped : Wrapped m cs)
    (made : Malloced B m m' cs cs' size y)
    (below : ∀ page, page * PAGESIZE < m.firstChunk → m'.pages.owner page = m.pages.owner page) :
    PagesCounted m' := by
  obtain ⟨-, new, howner, hnone, hused⟩ := made.quiet wrapped
  refine ⟨?_, fun page hheap => ?_⟩
  · have hpages : m'.pages.heapPages = m.pages.heapPages ∪ new := by
      ext page
      rw [mem_heapPages made.wellFormed.pages, Finset.mem_union, mem_heapPages wf, howner]
      split_ifs with hin
      · simp [hin]
      · simp [hin]
    have hapart : Disjoint m.pages.heapPages new := by
      refine Finset.disjoint_left.2 fun page hheap hin => ?_
      rw [mem_heapPages wf, hnone page hin] at hheap
      cases hheap
    rw [hused, counted.used, hpages, Finset.card_union_of_disjoint hapart, Nat.add_mul, UInt64.ofNat_add]
  · rw [made.first]
    by_contra hlt
    rw [below page (not_le.1 hlt)] at hheap
    exact hlt (counted.above page hheap)

theorem PagesCounted.freed (counted : PagesCounted m) (h : WellFormed B m (pre ++ c :: (run ++ rest)))
    (start : m.firstChunk + span ChunkHeader.size pre = x) (ours : c.notOurs = false)
    (run_free : ∀ d ∈ run, d.used = false) (freed : Freed B m m' pre c run rest x k) :
    PagesCounted m' := by
  set base := (m'.endOfChunks + HEADER_SIZE) / PAGESIZE with hbase
  have hpage : PAGESIZE = 4096 := rfl
  have hheader : HEADER_SIZE = 8 := rfl
  have hheap : ∀ q ∈ Finset.Ico base (base + k), m.pages.owner q = some .heap := by
    intro q hq
    obtain ⟨hlow, hhigh⟩ := Finset.mem_Ico.1 hq
    by_cases hrest : rest = []
    · subst hrest
      have hlowest := (freed.lowest rfl).1
      have hlast := freed.last
      have haligned := h.aligned
      have hreach := h.tiles.reach
      simp only [span_append, span_cons, span_nil] at hreach
      rw [hpage] at hlast haligned
      rw [hpage, hheader] at hbase
      have hplace := h.merged_heap (y := q * PAGESIZE) start ours run_free (by rw [hpage]; omega)
        (by rw [hpage]; omega)
      rwa [Nat.mul_div_cancel q (by decide : 0 < PAGESIZE)] at hplace
    · rw [freed.inside hrest] at hhigh
      omega
  have howner : ∀ q, m'.pages.owner q = if q ∈ Finset.Ico base (base + k) then none
      else m.pages.owner q := by
    intro q
    rw [freed.unmaps.owner]
    exact if_congr Finset.mem_Ico.symm rfl rfl
  refine ⟨?_, fun q hq => ?_⟩
  · have hpages : m'.pages.heapPages = m.pages.heapPages \ Finset.Ico base (base + k) := by
      ext q
      rw [mem_heapPages (freed.unmaps.wf h.pages), Finset.mem_sdiff, mem_heapPages h.pages, howner]
      split_ifs with hin
      · simp [hin]
      · simp [hin]
    have hsub : Finset.Ico base (base + k) ⊆ m.pages.heapPages := fun q hq =>
      (mem_heapPages h.pages).2 (hheap q hq)
    have hcard : (m.pages.heapPages \ Finset.Ico base (base + k)).card + k = m.pages.heapPages.card := by
      have := Finset.card_sdiff_add_card_eq_card hsub
      rwa [Nat.card_Ico, Nat.add_sub_cancel_left] at this
    rw [freed.used, counted.used, hpages, ← hcard, Nat.add_mul, UInt64.ofNat_add, UInt64.add_sub_cancel]
  · rw [freed.first]
    rw [howner] at hq
    split_ifs at hq
    exact counted.above q hq

end Pages

end Malloc

namespace Malloc

open Tiling KernelPages

section Sums

variable {B : MinSizes} {m : Malloc} {cs : List ChunkHeader} {page : ℕ}

theorem allocatedOf_le_span : allocatedOf cs ≤ span ChunkHeader.size cs := by
  induction cs with
  | nil => exact Nat.zero_le _
  | cons c cs ih =>
    rw [allocatedOf_cons, span_cons]
    split_ifs
    · omega
    · omega

/-- The pages of the heap are those that its chunks cover. -/
theorem WellFormed.covered (h : WellFormed B m cs) (counted : PagesCounted m) :
    m.pages.owner page = some .heap ↔ Covered m cs page := by
  have hpage : PAGESIZE = 4096 := rfl
  have hheader : HEADER_SIZE = 8 := rfl
  constructor
  · intro hheap
    have hlow := counted.above page hheap
    have hhigh : ¬m.endOfChunks / PAGESIZE < page := fun hlt => h.beyond page hlt hheap
    have haligned := h.aligned
    have hreach := h.tiles.reach
    rw [hpage] at haligned hhigh hlow
    obtain ⟨x, c, hc, hle, hlt⟩ := @exists_mem_layout _ ChunkHeader.size m.firstChunk (page * 4096) cs hlow
      (by omega)
    have hback : page * 4096 / PAGESIZE = page := Nat.mul_div_cancel page (by decide)
    refine ⟨x, c, page * 4096, hc, ?_, hle, hlt, hback⟩
    -- a chunk that is not ours holds pages of others behind its header
    by_contra hnot
    have howned := h.owned x c hc
    have hplace := howned.place (by simpa using hnot)
    rw [hpage] at hplace
    have hother := howned.others (by simpa using hnot) (page * 4096) (by rw [hheader]; omega) hlt
    rw [hback] at hother
    exact hother hheap
  · rintro ⟨x, c, y, hc, hours, hle, hlt, rfl⟩
    exact (h.owned x c hc).ours hours y hle hlt

end Sums

end Malloc

namespace AllocState

open Malloc Tiling KernelPages

/-- The statistics are right: `totalMemAllocated` is the sum over the used chunks that are ours, and
`totalMemUsed` counts the pages that the heap has mapped, which are those its chunks cover. -/
structure Exact (s : AllocState) (cs : List ChunkHeader) : Prop where
  tiles : Tiles leftSizes s.m cs
  allocated : s.m.totalMemAllocated.toNat = allocatedOf cs
  used : s.m.totalMemUsed.toNat = s.m.pages.heapPages.card * PAGESIZE
  mapped : ∀ page, page ∈ s.m.pages.heapPages ↔ s.m.pages.owner page = some .heap
  covered : ∀ page, page ∈ s.m.pages.heapPages ↔ Covered s.m cs page

/-- What a step needs for the statistics to stay right: what it needs for the blocks, and no page that is
wrapped has been unmapped when the chunks are searched. -/
def Tracked (s : AllocState) (op : AllocOp) : Prop :=
  Spares s op ∧
    match op with
    | .malloc _ => ∀ cs, Tiles leftSizes s.m cs → Wrapped s.m cs
    | .realloc vaddr size => ∀ pre c suf, Tiles leftSizes s.m (pre ++ c :: suf) →
        vaddr = s.m.firstChunk + span ChunkHeader.size pre + HEADER_SIZE →
          Moving pre c suf (realsizeOf size) → Wrapped s.m (pre ++ c :: suf)
    | _ => True

section Run

variable {s s' : AllocState} {cs : List ChunkHeader} {pages : KernelPages} {op : AllocOp} {fuel : ℕ}

theorem AllocInv.exact (inv : AllocInv leftSizes s cs) (counted : PagesCounted s.m) : Exact s cs := by
  have hwf := inv.wellFormed
  have hmem := fun page => @mem_heapPages s.m.pages page hwf.pages
  refine ⟨hwf.tiles, ?_, ?_, hmem, fun page => (hmem page).trans (hwf.covered counted)⟩
  · have hle := @allocatedOf_le_span cs
    have hreach := hwf.tiles.reach
    have hroom := hwf.tiles.room
    rw [show s.m.totalMemAllocated = _ from inv.counted, UInt64.toNat_ofNat']
    exact Nat.mod_eq_of_lt (by omega)
  · have hcard : s.m.pages.heapPages.card ≤ END_OF_PAGES :=
      (Finset.card_filter_le _ _).trans (Finset.card_range _).le
    rw [counted.used, UInt64.toNat_ofNat']
    refine Nat.mod_eq_of_lt ?_
    calc s.m.pages.heapPages.card * PAGESIZE ≤ END_OF_PAGES * PAGESIZE := Nat.mul_le_mul_right _ hcard
      _ < 2 ^ 64 := by decide

theorem AllocInv.pagesCounted (inv : AllocInv leftSizes s cs) (counted : PagesCounted s.m)
    (tracked : Tracked s op) (result : s.step fuel op = some s') : PagesCounted s'.m := by
  obtain ⟨hspares, hwrapped⟩ := tracked
  have hwf := inv.wellFormed
  cases op with
  | malloc size =>
    obtain ⟨hpos, cs₁, htiles, hsafe⟩ := hspares
    obtain rfl := hwf.tiles.unique htiles
    obtain ⟨vaddr, m, hmalloc, rfl⟩ := step_malloc result
    obtain ⟨z, cs', -, made, -⟩ := inv.malloc hpos hsafe hmalloc
    exact counted.malloced hwf.pages (hwrapped cs htiles) made fun page =>
      malloc_below hwf inv.sized inv.frames hpos (hsafe.served hwf inv.frames) hmalloc
  | free vaddr =>
    obtain ⟨hlive, m, hfree, rfl⟩ := step_free result
    obtain ⟨z, pre, d, run, rest, k, rfl, rfl, hours, hz, hrun, freed, -⟩ :=
      inv.free hlive (freeLeaves_remainder headerSizes _ _) hfree
    exact counted.freed hwf hz hours.2 hrun freed
  | realloc vaddr size =>
    obtain ⟨hlive, newvaddr, m, hrealloc, rfl⟩ := step_realloc result
    obtain ⟨z, w, cs', -, -, hre, hdone, -⟩ := inv.realloc hlive hspares.granted hrealloc
    rcases hdone with ⟨hpages, hused⟩ | ⟨hmoved, hsafe, pre, c, suf, rfl, hplace, hmoving⟩
    · exact counted.congr (fun page => by rw [hpages]) hused hre.first
    · obtain ⟨m₁, d, pre₁, run, rest, k, ⟨fuel', hmalloc⟩, made, hz, hours, hsmall, hrun, freed, rfl⟩ :=
        hmoved
      have hmapped := hwrapped pre c suf hwf.tiles hplace hmoving
      have hmade := counted.malloced hwf.pages hmapped made fun page =>
        malloc_below hwf inv.sized inv.frames hspares.1 (hsafe.served hwf inv.frames) hmalloc
      have hcopied : PagesCounted (m₁.copy (w + HEADER_SIZE) (z + HEADER_SIZE) (d.size - HEADER_SIZE)) :=
        hmade.congr (fun _ => Iff.rfl) rfl rfl
      exact hcopied.freed (made.copied hsmall.le (z + HEADER_SIZE)) hz hours.2 hrun freed
  | store vaddr i byte =>
    obtain ⟨n, -, -, rfl⟩ := step_store result
    exact counted.congr (fun _ => Iff.rfl) rfl rfl
  | mapForeign =>
    obtain ⟨mapped, pages, hmap, rfl⟩ := step_mapForeign result
    obtain ⟨-, -, howner⟩ := mapPage_foreign hwf.pages inv.frames hmap
    exact counted.foreign howner
  | unmapForeign page =>
    obtain ⟨hforeign, rfl⟩ := step_unmapForeign result
    obtain ⟨-, -, howner⟩ := unmapPage_foreign hwf.pages inv.frames hforeign
    exact counted.foreign howner

/-- In every run whose steps have what they need and take no page back, the statistics are right in every
state. -/
theorem statistics_exact (wf : pages.Wf) (frames : pages.frames = none)
    (new : ∀ q, pages.owner q ≠ some .heap) (run : Reach pages Tracked s) : ∃ cs, Exact s cs := by
  have hinv : ∃ cs, AllocInv leftSizes s cs ∧ PagesCounted s.m := by
    induction run with
    | init result => exact ⟨_, AllocInv.init wf frames new result, PagesCounted.init wf frames new result⟩
    | step _ allows result ih =>
      obtain ⟨cs, inv, counted⟩ := ih
      obtain ⟨cs', inv', -⟩ := inv.step allows.1.granted result
      exact ⟨cs', inv', inv.pagesCounted counted allows result⟩
  obtain ⟨cs, inv, counted⟩ := hinv
  exact ⟨cs, inv.exact counted⟩

theorem statistics_exact_malloc : ∃ m fuel s, Malloc.init (fun _ => 0) (bootPages 257) = some m ∧
    AllocState.step fuel ⟨m, fun _ => none⟩ (.malloc 100) = some s ∧ ∃ cs, Exact s cs := by
  obtain ⟨m, cs, fuel, s, hinit, htiles, hwrapped, hsafe, hstep⟩ := boot_malloc leftSizes
  have htracked : Tracked ⟨m, fun _ => none⟩ (.malloc 100) := by
    refine ⟨⟨by decide, cs, htiles, hsafe⟩, fun cs' htiles' => ?_⟩
    rwa [← htiles.unique htiles']
  exact ⟨m, fuel, s, hinit, hstep, statistics_exact (bootPages_wf (by decide)) rfl
    (bootPages_new 257) (.step (.init hinit) htracked hstep)⟩

/-- The pages of the heap below page 300 alone are more than `totalMemUsed` says. -/
def missing (s : AllocState) : Bool :=
  s.m.totalMemUsed.toNat < ((Finset.range 300).filter fun page => s.m.pages.owner page = some .heap).card *
    PAGESIZE

/-- A foreign page is wrapped and unmapped, and the next `malloc` takes it back without counting it. -/
theorem statistics_not_exact : ¬ ∀ (pages : KernelPages) (s : AllocState), pages.Wf →
    pages.frames = none → (∀ q, pages.owner q ≠ some .heap) → Reach pages Asked s → ∃ cs, Exact s cs := by
  intro hall
  obtain ⟨s, hrun, htest⟩ := @exists_behind Asked
    [.mapForeign, .malloc 5000, .unmapForeign 258, .malloc 20000] 60 (fun _ _ => true) missing
    (by simp [Asked]) (by decide +kernel)
  obtain ⟨cs, hexact⟩ := hall _ s (bootPages_wf (by decide)) rfl (bootPages_new 257) hrun
  have hlt := of_decide_eq_true htest
  have hsub : (Finset.range 300).filter (fun page => s.m.pages.owner page = some .heap) ⊆
      s.m.pages.heapPages := by
    apply Finset.filter_subset_filter
    apply Finset.range_subset_range.2
    decide
  have hle := Nat.mul_le_mul_right PAGESIZE (Finset.card_le_card hsub)
  rw [hexact.used] at hlt
  exact absurd hle (not_le.2 hlt)

end Run

end AllocState
