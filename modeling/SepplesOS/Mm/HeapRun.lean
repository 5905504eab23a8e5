import SepplesOS.Mm.AllocRun

/-!
# Runs of `malloc` and `free`

Runs without `realloc`, while other kernel code maps the first unmapped page or unmaps a page of its own.
When every `malloc` has what it needs, the next one that has returns a block and deals with the pages of
others as it should; without pages of others it needs less.
-/

namespace AllocState

open Malloc Tiling KernelPages

/-- Every chunk but the last one has at least `MALLOC_MINSIZE` bytes. -/
def tailSizes : MinSizes := minSizes.remainder

/-- `malloc` returns a block, with any fuel that is enough. -/
def Returns (m : Malloc) (size : ℕ) : Prop :=
  ∃ n, ∀ fuel, n < fuel → ∃ vaddr m', m.malloc fuel size = .done (vaddr, m') ∧ vaddr ≠ 0

/-- Calls of `malloc` and `free`, with the sizes asked for, and the pages of others. -/
def Shared (_ : AllocState) : AllocOp → Prop
  | .malloc size => 1 ≤ size ∧ size < 2 ^ 32
  | .free _ | .mapForeign | .unmapForeign _ => True
  | _ => False

/-- The same, with a `malloc` that has what it needs in the heap as it is. -/
def Passing (s : AllocState) : AllocOp → Prop
  | .malloc size => 1 ≤ size ∧ ∃ cs, Tiles tailSizes s.m cs ∧ MallocSafe tailSizes s.m cs size
  | .free _ | .mapForeign | .unmapForeign _ => True
  | _ => False

section Passing

variable {s : AllocState} {cs : List ChunkHeader} {pages : KernelPages} {op : AllocOp} {size fuel : ℕ}

theorem Passing.granted (passing : Passing s op) : Granted tailSizes s op := by
  cases op with
  | malloc size => exact passing
  | free vaddr => exact freeLeaves_remainder minSizes _ _
  | realloc vaddr size => exact absurd passing id
  | store vaddr i byte => trivial
  | mapForeign => trivial
  | unmapForeign page => trivial

theorem AllocInv.safe (inv : AllocInv tailSizes s cs) (passing : Passing s (.malloc size)) :
    1 ≤ size ∧ MallocSafe tailSizes s.m cs size := by
  obtain ⟨hpos, cs', htiles, hsafe⟩ := passing
  rw [inv.wellFormed.tiles.unique htiles]
  exact ⟨hpos, hsafe⟩

theorem AllocInv.returns (inv : AllocInv tailSizes s cs) (pos : 1 ≤ size)
    (safe : MallocSafe tailSizes s.m cs size) : Returns s.m size := by
  refine ⟨2 * (cs.length + pagesFor (size + HEADER_SIZE)), fun fuel hlt => ?_⟩
  obtain ⟨x, m', cs', hmalloc, -⟩ := malloc_spec inv.wellFormed inv.sized inv.frames pos
    (safe.served inv.wellFormed inv.frames) hlt
  exact ⟨_, m', hmalloc, Nat.succ_ne_zero _⟩

/-- In every run whose calls of `malloc` have what they need, pages of others come and go without harm:
the next one that has what it needs returns a block, what it wraps is exactly the pages behind
`endOfChunks` that are mapped, and of the pages wrapped it takes none but a single one that had been
unmapped. -/
theorem malloc_passes_foreign (wf : pages.Wf) (frames : pages.frames = none)
    (new : ∀ q, pages.owner q ≠ some .heap) (run : Reach pages Passing s)
    (passing : Passing s (.malloc size)) :
    Returns s.m size ∧ ∃ cs, WellFormed tailSizes s.m cs ∧ ∀ fuel vaddr m',
      s.m.malloc fuel size = .done (vaddr, m') → ∃ cs', WellFormed tailSizes m' cs' ∧
        (∀ z e, (z, e) ∈ layout ChunkHeader.size m'.firstChunk cs' → e.notOurs = true →
          (z, e) ∈ layout ChunkHeader.size s.m.firstChunk cs ∨ s.m.endOfChunks ≤ z ∧ WrapsAll s.m z e) ∧
        (∀ z e, (z, e) ∈ layout ChunkHeader.size s.m.firstChunk cs → e.notOurs = true →
          (z, e) ∈ layout ChunkHeader.size m'.firstChunk cs' ∨ e.size = PAGESIZE + HEADER_SIZE ∧
            ∃ page, z + HEADER_SIZE = page * PAGESIZE ∧ s.m.pages.owner page = none ∧
              m'.pages.owner page = some .heap) ∧
        ∀ page, s.m.pages.owner page = some .foreign → m'.pages.owner page = some .foreign := by
  obtain ⟨cs, inv⟩ := (run.mono fun _ _ => Passing.granted).inv wf frames new
  obtain ⟨hpos, hsafe⟩ := inv.safe passing
  refine ⟨inv.returns hpos hsafe, cs, inv.wellFormed, fun fuel vaddr m' result => ?_⟩
  obtain ⟨x, cs', -, made, -⟩ := inv.malloc hpos hsafe result
  refine ⟨cs', made.wellFormed, made.wraps, made.kept, fun page hforeign => ?_⟩
  rcases made.owner page with hsame | ⟨hnone, -⟩
  · exact hsame.trans hforeign
  · rw [hforeign] at hnone
    cases hnone

/-- What a step needs, in a heap that can be looked at. -/
def PassingCheck (s : AllocState) : AllocOp → Prop
  | .malloc size => 1 ≤ size ∧ Tiles tailSizes s.m s.m.chunks ∧ MallocCheck tailSizes s.m s.m.chunks size
  | .free _ | .mapForeign | .unmapForeign _ => True
  | _ => False

instance (s : AllocState) : (op : AllocOp) → Decidable (PassingCheck s op)
  | .malloc _ => inferInstanceAs (Decidable (_ ∧ _ ∧ _))
  | .free _ | .mapForeign | .unmapForeign _ => .isTrue trivial
  | .realloc _ _ | .store _ _ _ => .isFalse id

theorem PassingCheck.passing (check : PassingCheck s op) : Passing s op := by
  cases op with
  | malloc size =>
    obtain ⟨hpos, htiles, hmalloc⟩ := check
    exact ⟨hpos, _, htiles, hmalloc.safe⟩
  | free vaddr => trivial
  | realloc vaddr size => exact absurd check id
  | store vaddr i byte => exact absurd check id
  | mapForeign => trivial
  | unmapForeign page => trivial

/-- A page of others is wrapped, unmapped and taken back; then two more are mapped, and the next `malloc`
passes them by. -/
theorem malloc_passes_boot : ∃ s : AllocState, s.m.pages.owner 258 = some .heap ∧
    s.m.pages.owner 266 = some .foreign ∧ s.m.pages.owner 267 = some .foreign ∧
      ∃ fuel vaddr m', s.m.malloc fuel 30000 = .done (vaddr, m') ∧
        m'.pages.owner 266 = some .foreign ∧ m'.pages.owner 267 = some .foreign := by
  obtain ⟨s, hrun, htest⟩ := @exists_behind Passing
    [.mapForeign, .malloc 5000, .unmapForeign 258, .malloc 20000, .mapForeign, .mapForeign] 60
    (fun s op => PassingCheck s op)
    (fun s => s.m.pages.owner 258 = some .heap ∧ s.m.pages.owner 266 = some .foreign ∧
      s.m.pages.owner 267 = some .foreign ∧ PassingCheck s (.malloc 30000))
    (fun op _ s hguard => (of_decide_eq_true hguard).passing) (by decide +kernel)
  obtain ⟨hheap, hfirst, hsecond, hcheck⟩ := of_decide_eq_true htest
  obtain ⟨⟨n, hreturns⟩, cs, -, hpasses⟩ :=
    malloc_passes_foreign (bootPages_wf (by decide)) rfl (bootPages_new 257) hrun hcheck.passing
  obtain ⟨vaddr, m', hmalloc, -⟩ := hreturns (n + 1) (Nat.lt_succ_self n)
  obtain ⟨cs', -, -, -, hforeign⟩ := hpasses (n + 1) vaddr m' hmalloc
  exact ⟨s, hheap, hfirst, hsecond, n + 1, vaddr, m', hmalloc, hforeign 266 hfirst, hforeign 267 hsecond⟩

/-- `malloc` halts. -/
def halts (fuel size : ℕ) (s : AllocState) : Bool :=
  match s.m.malloc fuel size with
  | .halted _ => true
  | _ => false

/-- A call that halts with some fuel does not return with more. -/
theorem not_returns (stops : halts fuel size s = true) : ¬Returns s.m size := by
  rintro ⟨n, hreturns⟩
  obtain ⟨vaddr, m', hdone, -⟩ := hreturns (fuel + (n + 1)) (by omega)
  unfold halts at stops
  cases hmalloc : s.m.malloc fuel size with
  | halted t =>
    have hhalts := (Run.le_of_succ (fun n => malloc_le size n) (Nat.le_add_right fuel (n + 1))).halted hmalloc
    rw [hdone] at hhalts
    cases hhalts
  | done r =>
    rw [hmalloc] at stops
    cases stops
  | running =>
    rw [hmalloc] at stops
    cases stops

/-- When the second of two wrapped pages has been unmapped, and a page of others lies behind the heap,
the difference to the page that is found wraps, and the next search walks off the list. -/
theorem malloc_halts_foreign : ¬ ∀ (pages : KernelPages) (s : AllocState) (size : ℕ), pages.Wf →
    pages.frames = none → (∀ q, pages.owner q ≠ some .heap) → Reach pages Shared s →
      1 ≤ size → size < 2 ^ 32 → Returns s.m size := by
  intro hall
  obtain ⟨s, hrun, htest⟩ := @exists_behind Shared
    [.mapForeign, .mapForeign, .malloc 5000, .mapForeign, .unmapForeign 259, .malloc 20000] 60
    (fun _ _ => true) (halts 60 30000) (by simp [Shared]) (by decide +kernel)
  exact not_returns htest (hall _ s 30000 (bootPages_wf (by decide)) rfl (bootPages_new 257) hrun
    (by decide) (by decide))

end Passing

/-! ## Without pages of others -/

/-- No page from the start of the heap on is anyone else's. -/
structure Bare (m : Malloc) (cs : List ChunkHeader) : Prop where
  ours : ∀ c ∈ cs, c.notOurs = false
  own : ∀ page, m.firstChunk / PAGESIZE ≤ page →
    m.pages.owner page = none ∨ m.pages.owner page = some .heap

/-- A run of free chunks is large enough, or the one at the end is not between the size of the request
and the least size of a chunk, and the pages it lacks are in the address space. -/
def Roomful (m : Malloc) (cs : List ChunkHeader) (size : ℕ) : Prop :=
  realsizeOf size ≤ bestRun cs ∨
    ¬(size + HEADER_SIZE ≤ trailRun cs ∧ trailRun cs < MALLOC_MINSIZE) ∧
      m.endPage + pagesFor (size + HEADER_SIZE - trailRun cs) ≤ END_OF_PAGES

instance (m : Malloc) (cs : List ChunkHeader) (size : ℕ) : Decidable (Roomful m cs size) :=
  inferInstanceAs (Decidable (_ ∨ _))

/-- `getUnmappedVAddr` finds a page, and there is the room. -/
def Unhindered (m : Malloc) (size : ℕ) : Prop :=
  m.pages.getUnmappedVAddr ≠ none ∧ ∃ cs, Tiles tailSizes m cs ∧ Roomful m cs size

/-- Calls of `malloc` and `free` alone. -/
def Alone (_ : AllocState) : AllocOp → Prop
  | .malloc size => 1 ≤ size ∧ size < 2 ^ 32
  | .free _ => True
  | _ => False

/-- What a run of `malloc` and `free` alone needs. -/
def AloneUnhindered (s : AllocState) (op : AllocOp) : Prop :=
  Alone s op ∧ ∀ size, op = .malloc size → Unhindered s.m size

section Bare

variable {s s' : AllocState} {cs : List ChunkHeader} {pages : KernelPages} {op : AllocOp} {size fuel : ℕ}

theorem Bare.wrapped {m : Malloc} (bare : Bare m cs) : Wrapped m cs := fun x c page hc hnot => by
  rw [bare.ours c (mem_of_layout hc)] at hnot
  cases hnot

theorem Bare.safe (bare : Bare s.m cs) (inv : AllocInv tailSizes s cs) (unhindered : Unhindered s.m size) :
    MallocSafe tailSizes s.m cs size := by
  obtain ⟨hlook, cs', htiles, hroom⟩ := unhindered
  obtain rfl := inv.wellFormed.tiles.unique htiles
  have hwf := inv.wellFormed
  have hw := bare.wrapped
  obtain ⟨⟨vaddr, pages'⟩, hlook⟩ := Option.ne_none_iff_exists'.1 hlook
  obtain ⟨f, first, -, hdir, -⟩ := getUnmappedVAddr_some hwf.pages hlook
  refine ⟨hw.searchSafe first hdir, ?_⟩
  rcases hroom with hfits | ⟨htight, hlow⟩
  · exact Or.inl ⟨hw, hfits⟩
  · refine Or.inr (Or.inl ⟨hw, by omega, Or.inl ⟨hlow, fun i _ => ?_⟩⟩)
    have hend := hwf.endPage_eq
    have hfirst := hwf.tiles.reach
    have hpage : PAGESIZE = 4096 := rfl
    have hheader : HEADER_SIZE = 8 := rfl
    rw [hpage] at hend
    have hbeyond := hwf.beyond (s.m.endPage + i) (by
      rw [hpage]
      omega)
    refine (bare.own (s.m.endPage + i) ?_).resolve_right hbeyond
    rw [hpage]
    omega

theorem Bare.init {mem : Buf} {m : Malloc} (wf : pages.Wf) (frames : pages.frames = none)
    (new : ∀ q, pages.owner q ≠ some .heap)
    (clear : ∀ p q, pages.First p → p ≤ q → pages.owner q = none)
    (result : Malloc.init mem pages = some m) :
    Bare m [⟨PAGESIZE - HEADER_SIZE, MAGIC, false, false⟩] := by
  obtain ⟨-, -, -, -, page, first, hstart, hmaps⟩ := init_made wf frames new result
  refine ⟨fun c hc => ?_, fun q hq => ?_⟩
  · obtain rfl := List.mem_singleton.1 hc
    rfl
  · rw [hstart, Nat.mul_div_cancel _ (by decide : 0 < PAGESIZE)] at hq
    rw [hmaps.owner]
    by_cases heq : q = page
    · rw [heq, Function.update_self]
      exact Or.inr rfl
    · rw [Function.update_of_ne heq]
      exact Or.inl (clear page q first hq)

theorem Bare.malloc {m' : Malloc} {cs' : List ChunkHeader} {x : ℕ} (bare : Bare s.m cs)
    (inv : AllocInv tailSizes s cs) (made : Malloced tailSizes s.m m' cs cs' size x) : Bare m' cs' := by
  refine ⟨fun e he => ?_, fun page hpage => ?_⟩
  · by_contra hnot
    obtain ⟨pre, suf, rfl⟩ := List.append_of_mem he
    have hmem := mem_layout_of m' pre e suf
    rcases made.wraps _ e hmem (by simpa using hnot) with hold | ⟨hplace, a, b, hlt, ha, -, hmapped, -⟩
    · exact hnot (bare.ours e (mem_of_layout hold))
    · -- it would wrap pages behind the heap, where there are none
      have hend := inv.wellFormed.endPage_eq
      have hreach := inv.wellFormed.tiles.reach
      have hP : PAGESIZE = 4096 := rfl
      have hheader : HEADER_SIZE = 8 := rfl
      rw [hP] at hend ha
      rcases bare.own a (by rw [hP]; omega) with hnone | hheap
      · exact hmapped a le_rfl hlt hnone
      · exact inv.wellFormed.beyond a (by rw [hP]; omega) hheap
  · rw [made.first] at hpage
    rcases made.owner page with hsame | ⟨-, hheap⟩
    · rw [hsame]
      exact bare.own page hpage
    · exact Or.inr hheap

theorem Bare.free {m' : Malloc} {pre run rest : List ChunkHeader} {c : ChunkHeader} {x k : ℕ}
    (bare : Bare s.m (pre ++ c :: (run ++ rest))) (ours : Ours c)
    (freed : Freed tailSizes s.m m' pre c run rest x k) : Bare m' (pre ++ Malloc.freed c run rest ++ rest) := by
  refine ⟨fun e he => ?_, fun page hpage => ?_⟩
  · rw [List.mem_append, List.mem_append] at he
    rcases he with (he | he) | he
    · exact bare.ours e (List.mem_append_left _ he)
    · exact (mem_freed ours.2 he).2
    · exact bare.ours e (by simp [he])
  · rw [freed.first] at hpage
    rw [freed.unmaps.owner]
    split_ifs
    · exact Or.inl rfl
    · exact bare.own page hpage

theorem Bare.step (bare : Bare s.m cs) (inv : AllocInv tailSizes s cs) (alone : AloneUnhindered s op)
    (result : s.step fuel op = some s') : ∃ cs', AllocInv tailSizes s' cs' ∧ Bare s'.m cs' := by
  cases op with
  | malloc size =>
    have hsafe := bare.safe inv (alone.2 size rfl)
    obtain ⟨vaddr, m, hmalloc, rfl⟩ := step_malloc result
    obtain ⟨x, cs', -, made, hinv⟩ := inv.malloc alone.1.1 hsafe hmalloc
    exact ⟨cs', hinv, bare.malloc inv made⟩
  | free vaddr =>
    obtain ⟨hlive, m, hfree, rfl⟩ := step_free result
    obtain ⟨x, pre, c, run, rest, k, -, rfl, hours, -, -, freed, hinv⟩ :=
      inv.free hlive (freeLeaves_remainder minSizes _ _) hfree
    exact ⟨_, hinv, bare.free hours freed⟩
  | realloc vaddr size => exact absurd alone.1 id
  | store vaddr i byte => exact absurd alone.1 id
  | mapForeign => exact absurd alone.1 id
  | unmapForeign page => exact absurd alone.1 id

/-- In every run of `malloc` and `free` alone, each `malloc` of which is unhindered, the next one that is
returns a block. -/
theorem malloc_returns_unhindered (wf : pages.Wf) (frames : pages.frames = none)
    (new : ∀ q, pages.owner q ≠ some .heap)
    (clear : ∀ p q, pages.First p → p ≤ q → pages.owner q = none)
    (run : Reach pages AloneUnhindered s) (pos : 1 ≤ size) (unhindered : Unhindered s.m size) :
    Returns s.m size := by
  have hinv : ∃ cs, AllocInv tailSizes s cs ∧ Bare s.m cs := by
    clear unhindered
    induction run with
    | init result => exact ⟨_, AllocInv.init wf frames new result, Bare.init wf frames new clear result⟩
    | step _ allows result ih =>
      obtain ⟨cs, inv, bare⟩ := ih
      exact bare.step inv allows result
  obtain ⟨cs, inv, bare⟩ := hinv
  exact inv.returns pos (bare.safe inv unhindered)

/-- An unhindered call, in a heap that can be looked at. -/
def UnhinderedCheck (m : Malloc) (size : ℕ) : Prop :=
  m.pages.getUnmappedVAddr ≠ none ∧ Tiles tailSizes m m.chunks ∧ Roomful m m.chunks size

instance (m : Malloc) (size : ℕ) : Decidable (UnhinderedCheck m size) :=
  inferInstanceAs (Decidable (_ ∧ _ ∧ _))

theorem UnhinderedCheck.unhindered {m : Malloc} (check : UnhinderedCheck m size) : Unhindered m size :=
  ⟨check.1, m.chunks, check.2⟩

/-- What a step needs, in a heap that can be looked at. -/
def aloneCheck (s : AllocState) : AllocOp → Bool
  | .malloc size => 1 ≤ size ∧ size < 2 ^ 32 ∧ UnhinderedCheck s.m size
  | .free _ => true
  | _ => false

theorem aloneUnhindered_of_check (check : aloneCheck s op = true) : AloneUnhindered s op := by
  cases op with
  | malloc size =>
    obtain ⟨hpos, hlt, hroom⟩ := of_decide_eq_true check
    refine ⟨⟨hpos, hlt⟩, fun n hn => ?_⟩
    cases hn
    exact hroom.unhindered
  | free vaddr => exact ⟨trivial, nofun⟩
  | realloc vaddr size => exact absurd check Bool.false_ne_true
  | store vaddr i byte => exact absurd check Bool.false_ne_true
  | mapForeign => exact absurd check Bool.false_ne_true
  | unmapForeign page => exact absurd check Bool.false_ne_true

/-- Three blocks, of which two are freed and one fills a part of the hole. -/
theorem malloc_returns_boot : ∃ s : AllocState, s.live (257 * 4096 + 8) = some 60 ∧ Returns s.m 20000 := by
  obtain ⟨s, hrun, htest⟩ := @exists_behind AloneUnhindered
    [.malloc 100, .malloc 9000, .malloc 200, .free (257 * 4096 + 8), .free (257 * 4096 + 116), .malloc 60] 20
    aloneCheck (fun s => s.live (257 * 4096 + 8) = some 60 ∧ UnhinderedCheck s.m 20000)
    (fun op _ s => aloneUnhindered_of_check) (by decide +kernel)
  obtain ⟨hlive, hcheck⟩ := of_decide_eq_true htest
  exact ⟨s, hlive, malloc_returns_unhindered (bootPages_wf (by decide)) rfl (bootPages_new 257)
    (fun p q => bootPages_clear) hrun (by decide) hcheck.unhindered⟩

/-- A history that leaves 20 free bytes at the end of the heap, where a request of 5 is thought to have
enough. -/
theorem malloc_halts_tight : ¬ ∀ (pages : KernelPages) (s : AllocState) (size : ℕ), pages.Wf →
    pages.frames = none → (∀ q, pages.owner q ≠ some .heap) →
      (∀ p q, pages.First p → p ≤ q → pages.owner q = none) → Reach pages Alone s →
        1 ≤ size → size < 2 ^ 32 → Returns s.m size := by
  intro hall
  obtain ⟨s, hrun, htest⟩ := @exists_behind Alone
    [.malloc 8000, .malloc 100, .free (257 * 4096 + 8), .free (257 * 4096 + 8008 + 8), .malloc 4060,
      .malloc 4108, .free (257 * 4096 + 4068 + 8)] 60 (fun _ _ => true) (halts 60 5) (by simp [Alone])
    (by decide +kernel)
  exact not_returns htest (hall _ s 5 (bootPages_wf (by decide)) rfl (bootPages_new 257)
    (fun p q => bootPages_clear) hrun (by decide) (by decide))

end Bare

end AllocState
