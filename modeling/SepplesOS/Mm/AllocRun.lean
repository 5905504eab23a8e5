import SepplesOS.Mm.HeapCheck

/-!
# Runs of the heap

The states that `malloc`, `free` and `realloc` reach from `init` while blocks are written and other
kernel code maps and unmaps pages of its own.  The least chunk sizes are a parameter of the invariant
and of what a step needs: with room for headers alone the blocks stay apart, with `MALLOC_MINSIZE` no
chunk gets smaller than that.
-/

/-- What the kernel does with the heap, its blocks and its pages. -/
inductive AllocOp
  | malloc (size : ℕ)
  | free (vaddr : ℕ)
  | realloc (vaddr size : ℕ)
  | store (vaddr i : ℕ) (byte : UInt8)
  | mapForeign
  | unmapForeign (page : ℕ)

/-- The block that a step is given. -/
def AllocOp.given : AllocOp → Option ℕ
  | .free vaddr => some vaddr
  | .realloc vaddr _ => some vaddr
  | .store vaddr _ _ => some vaddr
  | _ => none

/-- The heap, and the size asked for last of each block that is live. -/
structure AllocState where
  m : Malloc
  live : ℕ → Option ℕ

namespace AllocState

open Malloc Tiling KernelPages

/-- One step, when the call returns. -/
def step (fuel : ℕ) (s : AllocState) : AllocOp → Option AllocState
  | .malloc size =>
    match s.m.malloc fuel size with
    | .done (vaddr, m) => some ⟨m, Function.update s.live vaddr (some size)⟩
    | _ => none
  | .free vaddr =>
    if s.live vaddr = none then none
    else
      match s.m.free fuel vaddr with
      | .done m => some ⟨m, Function.update s.live vaddr none⟩
      | _ => none
  | .realloc vaddr size =>
    if s.live vaddr = none then none
    else
      match s.m.realloc fuel vaddr size with
      | .done (newvaddr, m) =>
        some ⟨m, Function.update (Function.update s.live vaddr none) newvaddr (some size)⟩
      | _ => none
  | .store vaddr i byte =>
    match s.live vaddr with
    | none => none
    | some size =>
      if i < size then
        some { s with m := { s.m with mem := Function.update s.m.mem (vaddr + i) byte } }
      else none
  | .mapForeign =>
    match s.m.pages.mapPage .foreign 0 with
    | some (_, pages) => some { s with m := { s.m with pages := pages } }
    | none => none
  | .unmapForeign page =>
    if s.m.pages.owner page = some .foreign then
      some { s with m := { s.m with pages := s.m.pages.unmapPage (page * PAGESIZE) } }
    else none

/-- The states of the runs from `init` whose steps are allowed. -/
inductive Reach (pages : KernelPages) (allowed : AllocState → AllocOp → Prop) : AllocState → Prop
  | init {mem : Buf} {m : Malloc} (result : Malloc.init mem pages = some m) :
      Reach pages allowed ⟨m, fun _ => none⟩
  | step {s s' : AllocState} {op : AllocOp} {fuel : ℕ} (run : Reach pages allowed s)
      (allows : allowed s op) (result : s.step fuel op = some s') : Reach pages allowed s'

/-! ## What a step does -/

section Does

variable {s s' : AllocState} {vaddr size i page fuel : ℕ} {byte : UInt8}

theorem step_malloc (result : s.step fuel (.malloc size) = some s') :
    ∃ vaddr m, s.m.malloc fuel size = .done (vaddr, m) ∧
      s' = ⟨m, Function.update s.live vaddr (some size)⟩ := by
  unfold step at result
  dsimp only at result
  cases hmalloc : s.m.malloc fuel size with
  | done r =>
    rw [hmalloc] at result
    exact ⟨r.1, r.2, rfl, (Option.some.inj result).symm⟩
  | halted t =>
    rw [hmalloc] at result
    cases result
  | running =>
    rw [hmalloc] at result
    cases result

theorem step_of_malloc {m : Malloc} (result : s.m.malloc fuel size = .done (vaddr, m)) :
    s.step fuel (.malloc size) = some ⟨m, Function.update s.live vaddr (some size)⟩ := by
  unfold step
  dsimp only
  rw [result]

theorem step_free (result : s.step fuel (.free vaddr) = some s') : s.live vaddr ≠ none ∧
    ∃ m, s.m.free fuel vaddr = .done m ∧ s' = ⟨m, Function.update s.live vaddr none⟩ := by
  unfold step at result
  dsimp only at result
  split_ifs at result with hdead
  cases hfree : s.m.free fuel vaddr with
  | done m =>
    rw [hfree] at result
    exact ⟨hdead, m, rfl, (Option.some.inj result).symm⟩
  | halted t =>
    rw [hfree] at result
    cases result
  | running =>
    rw [hfree] at result
    cases result

theorem step_realloc (result : s.step fuel (.realloc vaddr size) = some s') : s.live vaddr ≠ none ∧
    ∃ newvaddr m, s.m.realloc fuel vaddr size = .done (newvaddr, m) ∧
      s' = ⟨m, Function.update (Function.update s.live vaddr none) newvaddr (some size)⟩ := by
  unfold step at result
  dsimp only at result
  split_ifs at result with hdead
  cases hrealloc : s.m.realloc fuel vaddr size with
  | done r =>
    rw [hrealloc] at result
    exact ⟨hdead, r.1, r.2, rfl, (Option.some.inj result).symm⟩
  | halted t =>
    rw [hrealloc] at result
    cases result
  | running =>
    rw [hrealloc] at result
    cases result

theorem step_store (result : s.step fuel (.store vaddr i byte) = some s') :
    ∃ size, s.live vaddr = some size ∧ i < size ∧
      s' = { s with m := { s.m with mem := Function.update s.m.mem (vaddr + i) byte } } := by
  unfold step at result
  dsimp only at result
  cases hlive : s.live vaddr with
  | none =>
    rw [hlive] at result
    cases result
  | some size =>
    rw [hlive] at result
    dsimp only at result
    split_ifs at result with hlt
    exact ⟨size, rfl, hlt, (Option.some.inj result).symm⟩

theorem step_mapForeign (result : s.step fuel .mapForeign = some s') :
    ∃ mapped pages, s.m.pages.mapPage .foreign 0 = some (mapped, pages) ∧
      s' = { s with m := { s.m with pages := pages } } := by
  unfold step at result
  dsimp only at result
  cases hmap : s.m.pages.mapPage .foreign 0 with
  | none =>
    rw [hmap] at result
    cases result
  | some r =>
    rw [hmap] at result
    exact ⟨r.1, r.2, rfl, (Option.some.inj result).symm⟩

theorem step_unmapForeign (result : s.step fuel (.unmapForeign page) = some s') :
    s.m.pages.owner page = some .foreign ∧
      s' = { s with m := { s.m with pages := s.m.pages.unmapPage (page * PAGESIZE) } } := by
  unfold step at result
  dsimp only at result
  split_ifs at result with hforeign
  exact ⟨hforeign, (Option.some.inj result).symm⟩

end Does

/-! ## What the steps need -/

/-- When all chunks behind the one at `x` are free, the bytes that `free` leaves of them at the end of the
heap are none, or enough for a chunk. -/
def FreeLeaves (B : MinSizes) (m : Malloc) (x : ℕ) : Prop :=
  ∀ pre c suf, Tiles B m (pre ++ c :: suf) → m.firstChunk + span ChunkHeader.size pre = x →
    (∀ d ∈ suf, d.used = false) → (c.size + span ChunkHeader.size suf) % PAGESIZE = 0 ∨
      B.last ≤ (c.size + span ChunkHeader.size suf) % PAGESIZE

/-- A step has what it needs in the heap as it is. -/
def Granted (B : MinSizes) (s : AllocState) : AllocOp → Prop
  | .malloc size => 1 ≤ size ∧ ∃ cs, Tiles B s.m cs ∧ MallocSafe B s.m cs size
  | .free vaddr => FreeLeaves B s.m (vaddr - HEADER_SIZE)
  | .realloc vaddr size => 1 ≤ size ∧ ∃ pre c suf, Tiles B s.m (pre ++ c :: suf) ∧
      vaddr = s.m.firstChunk + span ChunkHeader.size pre + HEADER_SIZE ∧
      LeavesRoom B pre c suf (realsizeOf size) ∧
      (Moving pre c suf (realsizeOf size) → MallocSafe B s.m (pre ++ c :: suf) size ∧
        ∀ fuel y m, s.m.malloc fuel size = .done (y, m) → FreeLeaves B m (vaddr - HEADER_SIZE))
  | _ => True

/-! ## The invariant -/

/-- The heap is well-formed, the live blocks are the payloads of used chunks and large enough, and
`totalMemAllocated` is right. -/
structure AllocInv (B : MinSizes) (s : AllocState) (cs : List ChunkHeader) : Prop where
  wellFormed : WellFormed B s.m cs
  sized : UsedSized B cs
  frames : s.m.pages.frames = none
  live : ∀ vaddr size, s.live vaddr = some size → ∃ x c,
    (x, c) ∈ layout ChunkHeader.size s.m.firstChunk cs ∧ Ours c ∧ vaddr = x + HEADER_SIZE ∧
      HEADER_SIZE + size ≤ c.size
  counted : Counted s.m cs

section Steps

variable {B C : MinSizes} {s s' : AllocState} {m m' : Malloc} {pre suf run rest cs cs' : List ChunkHeader}
  {c d e : ChunkHeader} {pages : KernelPages} {op : AllocOp} {x y k vaddr size fuel : ℕ}

theorem sized_freed (sized : Sized B (pre ++ c :: (run ++ rest)))
    (leaves : rest = [] → (c.size + span ChunkHeader.size run) % PAGESIZE = 0 ∨
      B.last ≤ (c.size + span ChunkHeader.size run) % PAGESIZE) :
    Sized B (pre ++ freed c run rest ++ rest) := by
  by_cases hrest : rest = []
  · subst hrest
    have hpre := (sized_append_cons.1 sized).1
    rw [List.append_nil, freed_end]
    split_ifs with hzero
    · rw [List.append_nil]
      exact sized_of_inner hpre
    · exact sized_append_cons.2 ⟨hpre, (leaves rfl).resolve_left hzero⟩
  · rw [show pre ++ c :: (run ++ rest) = (pre ++ c :: run) ++ rest by simp, sized_append hrest] at sized
    rw [sized_append hrest, freed_middle hrest]
    refine ⟨fun e he => ?_, sized.2⟩
    rcases List.mem_append.1 he with he | he
    · exact sized.1 e (List.mem_append_left _ he)
    · rw [List.mem_singleton.1 he]
      exact (sized.1 c (by simp)).trans (Nat.le_add_right _ _)

theorem AllocInv.init (wf : pages.Wf) (frames : pages.frames = none)
    (new : ∀ q, pages.owner q ≠ some .heap) {mem : Buf} (result : Malloc.init mem pages = some m) :
    AllocInv B ⟨m, fun _ => none⟩ [⟨PAGESIZE - HEADER_SIZE, MAGIC, false, false⟩] := by
  obtain ⟨hwf, hframes, -, hallocated, -⟩ := init_made wf frames new result
  have hinner : B.inner ≤ MALLOC_MINSIZE := B.inner_le
  refine ⟨hwf.mono hinner (B.last_le.trans hinner), fun c hc hused => ?_, hframes,
    fun _ _ h => (by cases h), hallocated⟩
  obtain rfl := List.mem_singleton.1 hc
  cases hused

theorem AllocInv.malloc (inv : AllocInv B s cs) (pos : 1 ≤ size) (safe : MallocSafe B s.m cs size)
    (result : s.m.malloc fuel size = .done (vaddr, m')) :
    ∃ x cs', vaddr = x + HEADER_SIZE ∧ Malloced B s.m m' cs cs' size x ∧
      AllocInv B ⟨m', Function.update s.live vaddr (some size)⟩ cs' := by
  obtain ⟨x, m₁, cs', hmalloc, made⟩ := malloc_spec inv.wellFormed inv.sized inv.frames pos
    (safe.served inv.wellFormed inv.frames)
    (show 2 * (cs.length + pagesFor (size + HEADER_SIZE)) <
      fuel + (2 * (cs.length + pagesFor (size + HEADER_SIZE)) + 1) by omega)
  have hsame := (Run.le_of_succ (fun n => Malloc.malloc_le size n) (Nat.le_add_right fuel
    (2 * (cs.length + pagesFor (size + HEADER_SIZE)) + 1))).done result
  obtain ⟨rfl, rfl⟩ := Prod.mk.inj (Run.done.inj (hmalloc.symm.trans hsame))
  refine ⟨x, cs', rfl, made, made.wellFormed, made.sized, made.frames, fun v n hv => ?_, ?_⟩
  · dsimp only at hv
    rw [Function.update_apply] at hv
    split_ifs at hv with heq
    · obtain rfl := Option.some.inj hv
      obtain ⟨d, hd, hours, hsize⟩ := made.block
      exact ⟨x, d, hd, hours, heq, header_add_le_realsizeOf.trans hsize⟩
    · obtain ⟨y, c, hc, hours, rfl, hsize⟩ := inv.live v n hv
      exact ⟨y, c, (made.keeps y c hc hours (Option.some_ne_none y)).1, hours, rfl, hsize⟩
  · obtain ⟨k, htotal, hhanded⟩ := made.handed
    show m₁.totalMemAllocated = _
    rw [htotal, show s.m.totalMemAllocated = _ from inv.counted, hhanded, ← UInt64.ofNat_add]

theorem AllocInv.free (inv : AllocInv B s cs) (live : s.live vaddr ≠ none)
    (leaves : FreeLeaves B s.m (vaddr - HEADER_SIZE)) (result : s.m.free fuel vaddr = .done m') :
    ∃ x pre c run rest k, vaddr = x + HEADER_SIZE ∧ cs = pre ++ c :: (run ++ rest) ∧ Ours c ∧
      s.m.firstChunk + span ChunkHeader.size pre = x ∧ (∀ d ∈ run, d.used = false) ∧
      Freed B s.m m' pre c run rest x k ∧
      AllocInv B ⟨m', Function.update s.live vaddr none⟩ (pre ++ freed c run rest ++ rest) := by
  obtain ⟨size, hlive⟩ := Option.ne_none_iff_exists'.1 live
  obtain ⟨x, c, hc, hours, rfl, -⟩ := inv.live vaddr size hlive
  obtain ⟨pre, suf, rfl, hx⟩ := layout_split hc
  obtain ⟨run, rest, rfl, hrun, hrest⟩ := exists_run suf
  have hwf := inv.wellFormed
  obtain ⟨k, freed⟩ := (free_spec hwf.tiles hx.symm hwf.ready hwf.aligned hours.1 hrun hrest).of_done result
  rw [Nat.add_sub_cancel] at leaves
  have hsized := sized_freed hwf.tiles.sized fun hnil => by
    subst hnil
    have hleaves := leaves pre c (run ++ []) hwf.tiles hx.symm (by simpa using hrun)
    rwa [List.append_nil] at hleaves
  refine ⟨x, pre, c, run, rest, k, rfl, rfl, hours, hx.symm, hrun, freed,
    (hwf.free hx.symm hours.2 hrun freed).resize hsized, fun e he hu => ?_,
    freed.unmaps.frames inv.frames, fun v n hv => ?_, freed.counted hours hrun inv.counted⟩
  · rw [List.mem_append, List.mem_append] at he
    rcases he with (he | he) | he
    · exact inv.sized e (List.mem_append_left _ he) hu
    · rw [(mem_freed hours.2 he).1] at hu
      cases hu
    · exact inv.sized e (by simp [he]) hu
  · dsimp only at hv
    rw [Function.update_apply] at hv
    split_ifs at hv with heq
    obtain ⟨y, d, hd, hdours, rfl, hsize⟩ := inv.live v n hv
    exact ⟨y, d, (freed.keeps y d hd hdours.1 fun h => heq (congrArg (· + HEADER_SIZE)
      (Option.some.inj h))).1, hdours, rfl, hsize⟩

theorem AllocInv.realloc (inv : AllocInv B s cs) (live : s.live vaddr ≠ none)
    (granted : Granted B s (.realloc vaddr size))
    (result : s.m.realloc fuel vaddr size = .done (y, m')) :
    ∃ x z cs', vaddr = x + HEADER_SIZE ∧ y = z + HEADER_SIZE ∧ Realloced B s.m m' cs cs' size x z ∧
      (m'.pages = s.m.pages ∧ m'.totalMemUsed = s.m.totalMemUsed ∨
        Moved B s.m m' cs cs' size x z ∧ MallocSafe B s.m cs size ∧ ∃ pre c suf, cs = pre ++ c :: suf ∧
          vaddr = s.m.firstChunk + span ChunkHeader.size pre + HEADER_SIZE ∧
            Moving pre c suf (realsizeOf size)) ∧
      AllocInv B ⟨m', Function.update (Function.update s.live vaddr none) y (some size)⟩ cs' := by
  obtain ⟨hpos, pre, c, suf, htiles, rfl, hroom, hsafe⟩ := granted
  obtain ⟨n, hlive⟩ := Option.ne_none_iff_exists'.1 live
  obtain ⟨x, d, hd, hours, hx, -⟩ := inv.live _ n hlive
  have hwf := inv.wellFormed
  obtain rfl := hwf.tiles.unique htiles
  have hc := mem_layout_of s.m pre c suf
  obtain rfl := Nat.add_right_cancel hx
  obtain rfl : d = c := (htiles.header _ d hd).1.symm.trans (htiles.header _ c hc).1
  obtain ⟨n, z, m₁, cs', hcall, hdone⟩ := realloc_spec hwf inv.sized inv.frames le_rfl le_rfl rfl hours hpos
    hroom fun hmoving => (hsafe hmoving).1.served hwf inv.frames
  have hsame := (Run.le_of_succ (fun n => realloc_le _ size n)
    (Nat.le_add_right fuel (n + 1))).done result
  obtain ⟨rfl, rfl⟩ := Prod.mk.inj (Run.done.inj ((hcall _ (by omega)).symm.trans hsame))
  have hre : Realloced B s.m m₁ (pre ++ d :: suf) cs' size
      (s.m.firstChunk + span ChunkHeader.size pre) z := by
    rcases hdone with ⟨⟨hre, -⟩, -⟩ | ⟨hmoving, hmoved⟩
    · exact hre
    · have hre := hmoved.realloced hwf hc hours
      obtain ⟨m₂, c₂, pre₂, run, rest, k, ⟨fuel', hmalloc⟩, made, hx₂, -, -, hrun, -, rfl⟩ := hmoved
      have hleaves := (hsafe hmoving).2 fuel' _ m₂ hmalloc
      rw [Nat.add_sub_cancel] at hleaves
      have hsized := sized_freed made.wellFormed.tiles.sized fun hnil => by
        subst hnil
        have hleft := hleaves pre₂ c₂ (run ++ []) made.wellFormed.tiles hx₂ (by simpa using hrun)
        rwa [List.append_nil] at hleft
      exact { hre with wellFormed := hre.wellFormed.resize hsized, sized := hre.sized }
  refine ⟨_, z, cs', rfl, rfl, hre,
    hdone.imp (fun h => h.2) (fun h => ⟨h.2, (hsafe h.1).1, pre, d, suf, rfl, rfl, h.1⟩),
    hre.wellFormed, hre.sized, hre.frames, fun v n hv => ?_, hre.counted inv.counted⟩
  dsimp only at hv
  rw [Function.update_apply, Function.update_apply] at hv
  split_ifs at hv with hnew hold
  · obtain rfl := Option.some.inj hv
    obtain ⟨b, hb, hbours, hsize⟩ := hre.block
    exact ⟨z, b, hb, hbours, hnew, header_add_le_realsizeOf.trans hsize⟩
  · obtain ⟨w, b, hb, hbours, rfl, hsize⟩ := inv.live v n hv
    exact ⟨w, b, (hre.keeps w b hb hbours fun h => hold (congrArg (· + HEADER_SIZE)
      (Option.some.inj h))).1, hbours, rfl, hsize⟩

/-- A step, when it returns: the heap as it is then, and what it does to the block a step is not given. -/
theorem AllocInv.step (inv : AllocInv B s cs) (granted : Granted B s op)
    (result : s.step fuel op = some s') : ∃ cs', AllocInv B s' cs' ∧
      ∀ x c, (x, c) ∈ layout ChunkHeader.size s.m.firstChunk cs → Ours c →
        op.given ≠ some (x + HEADER_SIZE) →
          (x, c) ∈ layout ChunkHeader.size s'.m.firstChunk cs' ∧
          s'.live (x + HEADER_SIZE) = s.live (x + HEADER_SIZE) ∧
          ∀ y, x ≤ y → y < x + c.size → s'.m.mem y = s.m.mem y := by
  cases op with
  | malloc size =>
    obtain ⟨hpos, cs₁, htiles, hsafe⟩ := granted
    obtain rfl := inv.wellFormed.tiles.unique htiles
    obtain ⟨vaddr, m, hmalloc, rfl⟩ := step_malloc result
    obtain ⟨z, cs', rfl, made, hinv⟩ := inv.malloc hpos hsafe hmalloc
    refine ⟨cs', hinv, fun x c hc hours _ => ?_⟩
    obtain ⟨hkept, hmem⟩ := made.keeps x c hc hours (Option.some_ne_none x)
    refine ⟨hkept, Function.update_of_ne (fun heq => ?_) _ _, hmem⟩
    obtain rfl : x = z := Nat.add_right_cancel heq
    exact made.fresh c hc hours
  | free vaddr =>
    obtain ⟨hlive, m, hfree, rfl⟩ := step_free result
    obtain ⟨z, pre, d, run, rest, k, rfl, rfl, -, -, -, freed, hinv⟩ := inv.free hlive granted hfree
    refine ⟨_, hinv, fun x c hc hours hgiven => ?_⟩
    have hne : x + HEADER_SIZE ≠ z + HEADER_SIZE := fun heq => hgiven (congrArg some heq.symm)
    obtain ⟨hkept, hmem⟩ := freed.keeps x c hc hours.1 fun heq =>
      hne (congrArg (· + HEADER_SIZE) (Option.some.inj heq))
    exact ⟨hkept, Function.update_of_ne hne _ _, hmem⟩
  | realloc vaddr size =>
    obtain ⟨hlive, newvaddr, m, hrealloc, rfl⟩ := step_realloc result
    obtain ⟨z, w, cs', rfl, rfl, hre, -, hinv⟩ := inv.realloc hlive granted hrealloc
    refine ⟨cs', hinv, fun x c hc hours hgiven => ?_⟩
    have hne : x + HEADER_SIZE ≠ z + HEADER_SIZE := fun heq => hgiven (congrArg some heq.symm)
    obtain ⟨hkept, hmem⟩ := hre.keeps x c hc hours fun heq =>
      hne (congrArg (· + HEADER_SIZE) (Option.some.inj heq))
    refine ⟨hkept, ?_, hmem⟩
    dsimp only
    rw [Function.update_of_ne, Function.update_of_ne hne]
    intro heq
    obtain rfl : x = w := Nat.add_right_cancel heq
    exact hre.fresh (fun h => hne (congrArg (· + HEADER_SIZE) h)) c hc hours
  | store vaddr i byte =>
    obtain ⟨n, hlive, hlt, rfl⟩ := step_store result
    obtain ⟨z, d, hd, hdours, rfl, hsize⟩ := inv.live vaddr n hlive
    refine ⟨cs, ⟨inv.wellFormed.store hd (Nat.le_add_right _ _) (by omega) byte, inv.sized, inv.frames,
      inv.live, inv.counted⟩, fun x c hc _ hgiven => ⟨hc, rfl, fun y hle hlty =>
        Function.update_of_ne ?_ _ _⟩⟩
    rcases layout_apart hd hc with ⟨rfl, -⟩ | hapart | hapart
    · exact absurd rfl hgiven
    · omega
    · omega
  | mapForeign =>
    obtain ⟨mapped, pages, hmap, rfl⟩ := step_mapForeign result
    obtain ⟨hwf, hframes, howner⟩ := mapPage_foreign inv.wellFormed.pages inv.frames hmap
    exact ⟨cs, ⟨inv.wellFormed.foreign hwf howner, inv.sized, hframes, inv.live, inv.counted⟩,
      fun x c hc _ _ => ⟨hc, rfl, fun _ _ _ => rfl⟩⟩
  | unmapForeign page =>
    obtain ⟨hforeign, rfl⟩ := step_unmapForeign result
    obtain ⟨hwf, hframes, howner⟩ := unmapPage_foreign inv.wellFormed.pages inv.frames hforeign
    exact ⟨cs, ⟨inv.wellFormed.foreign hwf howner, inv.sized, hframes, inv.live, inv.counted⟩,
      fun x c hc _ _ => ⟨hc, rfl, fun _ _ _ => rfl⟩⟩

/-- The invariant holds in every run whose steps have what they need. -/
theorem Reach.inv {pages : KernelPages} (wf : pages.Wf) (frames : pages.frames = none)
    (new : ∀ q, pages.owner q ≠ some .heap) (run : Reach pages (Granted B) s) :
    ∃ cs, AllocInv B s cs := by
  induction run with
  | init result => exact ⟨_, AllocInv.init wf frames new result⟩
  | step _ allows result ih =>
    obtain ⟨cs, inv⟩ := ih
    obtain ⟨cs', hinv, -⟩ := inv.step allows result
    exact ⟨cs', hinv⟩

end Steps

/-! ## The blocks -/

/-- The bytes of a block. -/
def payload (m : Malloc) (vaddr : ℕ) : ℕ := (m.header (vaddr - HEADER_SIZE)).size - HEADER_SIZE

/-- The live blocks lie inside the heap on pages of it, hold what was asked for, and overlap neither each
other nor a header of the chunks that tile the heap. -/
structure Intact (s : AllocState) (cs : List ChunkHeader) : Prop where
  tiles : Tiles leftSizes s.m cs
  inside : ∀ vaddr, s.live vaddr ≠ none →
    s.m.firstChunk + HEADER_SIZE ≤ vaddr ∧ vaddr + payload s.m vaddr ≤ s.m.endOfChunks
  mapped : ∀ vaddr, s.live vaddr ≠ none → ∀ y, vaddr ≤ y → y < vaddr + payload s.m vaddr →
    s.m.pages.owner (y / PAGESIZE) = some .heap
  holds : ∀ vaddr size, s.live vaddr = some size → size ≤ payload s.m vaddr
  headers : ∀ vaddr, s.live vaddr ≠ none → ∀ z e, (z, e) ∈ layout ChunkHeader.size s.m.firstChunk cs →
    z + HEADER_SIZE ≤ vaddr ∨ vaddr + payload s.m vaddr ≤ z
  apart : ∀ vaddr vaddr', s.live vaddr ≠ none → s.live vaddr' ≠ none → vaddr ≠ vaddr' →
    vaddr + payload s.m vaddr ≤ vaddr' ∨ vaddr' + payload s.m vaddr' ≤ vaddr

section Blocks

variable {s s' : AllocState} {cs : List ChunkHeader} {pages : KernelPages} {op : AllocOp}
  {vaddr fuel : ℕ}

theorem AllocInv.block {B : MinSizes} (inv : AllocInv B s cs) (live : s.live vaddr ≠ none) :
    ∃ x c, (x, c) ∈ layout ChunkHeader.size s.m.firstChunk cs ∧ Ours c ∧ vaddr = x + HEADER_SIZE ∧
      HEADER_SIZE ≤ c.size ∧ payload s.m vaddr = c.size - HEADER_SIZE := by
  obtain ⟨size, hlive⟩ := Option.ne_none_iff_exists'.1 live
  obtain ⟨x, c, hc, hours, rfl, hsize⟩ := inv.live vaddr size hlive
  refine ⟨x, c, hc, hours, rfl, by omega, ?_⟩
  unfold payload
  rw [Nat.add_sub_cancel, (inv.wellFormed.tiles.header x c hc).1]

theorem AllocInv.intact (inv : AllocInv leftSizes s cs) : Intact s cs := by
  have htiles := inv.wellFormed.tiles
  constructor
  case tiles => exact htiles
  case inside =>
    intro vaddr live
    obtain ⟨x, c, hc, -, rfl, hlarge, hpayload⟩ := inv.block live
    have hbounds := htiles.bounds hc
    omega
  case mapped =>
    intro vaddr live y hle hlt
    obtain ⟨x, c, hc, hours, rfl, hlarge, hpayload⟩ := inv.block live
    exact (inv.wellFormed.owned x c hc).ours hours.2 y (by omega) (by omega)
  case holds =>
    intro vaddr size hlive
    obtain ⟨x, c, hc, -, rfl, hsize⟩ := inv.live vaddr size hlive
    unfold payload
    rw [Nat.add_sub_cancel, (htiles.header x c hc).1]
    omega
  case headers =>
    intro vaddr live z e he
    obtain ⟨x, c, hc, -, rfl, hlarge, hpayload⟩ := inv.block live
    have hpos := (htiles.bounds he).2.2.2.1
    rcases layout_apart hc he with ⟨rfl, -⟩ | hapart | hapart
    · exact Or.inl le_rfl
    · exact Or.inr (by omega)
    · exact Or.inl (by omega)
  case apart =>
    intro vaddr vaddr' live live' hne
    obtain ⟨x, c, hc, -, rfl, hlarge, hpayload⟩ := inv.block live
    obtain ⟨x', c', hc', -, rfl, hlarge', hpayload'⟩ := inv.block live'
    rcases layout_apart hc hc' with ⟨rfl, -⟩ | hapart | hapart
    · exact absurd rfl hne
    · exact Or.inl (by omega)
    · exact Or.inr (by omega)

/-- What a step needs for the blocks to stay intact: `malloc`, also when `realloc` calls it, has what it
needs, and a block that grows into a free chunk does not leave a part of a header of it. -/
def Spares (s : AllocState) : AllocOp → Prop
  | .malloc size => 1 ≤ size ∧ ∃ cs, Tiles leftSizes s.m cs ∧ MallocSafe leftSizes s.m cs size
  | .realloc vaddr size => 1 ≤ size ∧ ∃ pre c suf, Tiles leftSizes s.m (pre ++ c :: suf) ∧
      vaddr = s.m.firstChunk + span ChunkHeader.size pre + HEADER_SIZE ∧
      LeavesRoom leftSizes pre c suf (realsizeOf size) ∧
      (Moving pre c suf (realsizeOf size) → MallocSafe leftSizes s.m (pre ++ c :: suf) size)
  | _ => True

/-- Where the last chunk may be a remainder, a single byte is enough. -/
theorem freeLeaves_remainder (B : MinSizes) (m : Malloc) (x : ℕ) : FreeLeaves B.remainder m x :=
  fun _ _ _ _ _ _ => Nat.eq_zero_or_pos _

theorem Spares.granted (spares : Spares s op) : Granted leftSizes s op := by
  cases op with
  | malloc size => exact spares
  | free vaddr => exact freeLeaves_remainder headerSizes _ _
  | realloc vaddr size =>
    obtain ⟨hpos, pre, c, suf, htiles, hplace, hroom, hsafe⟩ := spares
    exact ⟨hpos, pre, c, suf, htiles, hplace, hroom,
      fun hmoving => ⟨hsafe hmoving, fun _ _ m _ => freeLeaves_remainder headerSizes m _⟩⟩
  | store vaddr i byte => trivial
  | mapForeign => trivial
  | unmapForeign page => trivial

theorem Reach.mono {allowed allowed' : AllocState → AllocOp → Prop}
    (weaker : ∀ s op, allowed s op → allowed' s op) (run : Reach pages allowed s) :
    Reach pages allowed' s := by
  induction run with
  | init result => exact .init result
  | step _ allows result ih => exact .step ih (weaker _ _ allows) result

/-- In every run whose steps have what they need, the live blocks are intact, and a step leaves those it
is not given as they are. -/
theorem blocks_intact (wf : pages.Wf) (frames : pages.frames = none)
    (new : ∀ q, pages.owner q ≠ some .heap) (run : Reach pages Spares s) :
    (∃ cs, Intact s cs) ∧ ∀ fuel op s', Spares s op → s.step fuel op = some s' →
      ∀ vaddr, s.live vaddr ≠ none → op.given ≠ some vaddr →
        s'.live vaddr = s.live vaddr ∧ payload s'.m vaddr = payload s.m vaddr ∧
          ∀ y, vaddr ≤ y → y < vaddr + payload s.m vaddr → s'.m.mem y = s.m.mem y := by
  obtain ⟨cs, inv⟩ := (run.mono fun _ _ => Spares.granted).inv wf frames new
  refine ⟨⟨cs, inv.intact⟩, fun fuel op s' spares result vaddr live given => ?_⟩
  obtain ⟨cs', hinv, hkept⟩ := inv.step spares.granted result
  obtain ⟨x, c, hc, hours, rfl, hlarge, hpayload⟩ := inv.block live
  obtain ⟨hc', hlive, hmem⟩ := hkept x c hc hours given
  refine ⟨hlive, ?_, fun y hle hlt => hmem y (by omega) (by omega)⟩
  rw [hpayload]
  unfold payload
  rw [Nat.add_sub_cancel, (hinv.wellFormed.tiles.header x c hc').1]

end Blocks

/-! ## Runs from the first heap -/

section Boot

variable {s s' : AllocState} {pages : KernelPages} {allowed : AllocState → AllocOp → Prop}
  {ops : List AllocOp} {fuel : ℕ}

/-- The sizes asked for. -/
def Asked (_ : AllocState) : AllocOp → Prop
  | .malloc size => 1 ≤ size ∧ size < 2 ^ 32
  | .realloc _ size => 1 ≤ size ∧ size < 2 ^ 32
  | _ => True

/-- Some steps, each where a test allows it. -/
def steps (guard : AllocState → AllocOp → Bool) (fuel : ℕ) (ops : List AllocOp) (s : AllocState) :
    Option AllocState :=
  ops.foldlM (fun s op => if guard s op then AllocState.step fuel s op else none) s

theorem Reach.steps {guard : AllocState → AllocOp → Bool} (run : Reach pages allowed s)
    (sound : ∀ op ∈ ops, ∀ s, guard s op = true → allowed s op)
    (result : steps guard fuel ops s = some s') : Reach pages allowed s' := by
  unfold AllocState.steps at result
  induction ops generalizing s with
  | nil =>
    obtain rfl := Option.some.inj result
    exact run
  | cons op ops ih =>
    rw [List.foldlM_cons] at result
    obtain ⟨t, hstep, hrest⟩ := Option.bind_eq_some_iff.1 result
    split_ifs at hstep with hguard
    exact ih (.step run (sound op List.mem_cons_self s hguard) hstep)
      (fun o ho => sound o (List.mem_cons_of_mem _ ho)) hrest

/-- The state behind some steps from the first heap, with the pages below 257 in use. -/
def behind (guard : AllocState → AllocOp → Bool) (ops : List AllocOp) (fuel : ℕ) : Option AllocState :=
  (Malloc.init (fun _ => 0) (bootPages 257)).bind fun m => steps guard fuel ops ⟨m, fun _ => none⟩

theorem exists_behind {guard : AllocState → AllocOp → Bool} (test : AllocState → Bool)
    (sound : ∀ op ∈ ops, ∀ s, guard s op = true → allowed s op)
    (passes : (behind guard ops fuel).any test = true) :
    ∃ s, Reach (bootPages 257) allowed s ∧ test s = true := by
  unfold behind at passes
  cases hinit : Malloc.init (fun _ => 0) (bootPages 257) with
  | none =>
    rw [hinit] at passes
    cases passes
  | some m =>
    rw [hinit, Option.bind_some] at passes
    cases hsteps : steps guard fuel ops ⟨m, fun _ => none⟩ with
    | none =>
      rw [hsteps] at passes
      cases passes
    | some s =>
      rw [hsteps] at passes
      exact ⟨s, (Reach.init hinit).steps sound hsteps, passes⟩

theorem boot_second : ∃ m, Malloc.init (fun _ => 0) (bootPages 257) = some m ∧ m.pages.First 258 ∧
    m.pages.dirs 0 = true := by
  have hfirst : (bootPages 257).First 257 := bootPages_first (by decide) (by decide)
  have hdir := bootPages_dir (b := 257) (by decide)
  obtain ⟨m, hinit, -, -, hmaps, -⟩ := init_spec (fun _ => 0) (bootPages_wf (by decide)) rfl hfirst hdir
  refine ⟨m, hinit, ⟨by decide, by decide, ?_, fun q hq hlt => ?_⟩, hmaps.dirs 0 hdir⟩
  · rw [hmaps.owner]
    rfl
  · rw [hmaps.owner]
    by_cases heq : q = 257
    · rw [heq, Function.update_self]
      exact Option.some_ne_none _
    · rw [Function.update_of_ne heq]
      exact hfirst.least q hq (by omega)

theorem boot_malloc (B : MinSizes) : ∃ m cs fuel s, Malloc.init (fun _ => 0) (bootPages 257) = some m ∧
    Tiles B m cs ∧ Wrapped m cs ∧ MallocSafe B m cs 100 ∧
      AllocState.step fuel ⟨m, fun _ => none⟩ (.malloc 100) = some s := by
  obtain ⟨m, hinit, hsecond, hdir⟩ := boot_second
  have inv : AllocInv B ⟨m, fun _ => none⟩ _ :=
    AllocInv.init (bootPages_wf (by decide)) rfl (bootPages_new 257) hinit
  have hwrapped : Wrapped m [⟨PAGESIZE - HEADER_SIZE, MAGIC, false, false⟩] := fun x c page hc hnot => by
    rw [List.mem_singleton.1 (mem_of_layout hc)] at hnot
    cases hnot
  have hsafe : MallocSafe B m [⟨PAGESIZE - HEADER_SIZE, MAGIC, false, false⟩] 100 :=
    ⟨hwrapped.searchSafe hsecond hdir, Or.inl ⟨hwrapped, by decide⟩⟩
  obtain ⟨x, m', cs', hmalloc, -⟩ := malloc_spec inv.wellFormed inv.sized inv.frames (by decide)
    (hsafe.served inv.wellFormed inv.frames) (Nat.lt_succ_self _)
  exact ⟨m, _, _, _, hinit, inv.wellFormed.tiles, hwrapped, hsafe, step_of_malloc hmalloc⟩

/-- What a `realloc` needs, in a heap that can be looked at: the block shrinks, or grows into a free chunk
behind it that is large enough for another one, or has no free neighbour with the room and moves. -/
def ReallocCheck (m : Malloc) (pre : List ChunkHeader) (size : ℕ) : List ChunkHeader → Prop
  | [] => False
  | c :: suf =>
    realsizeOf size ≤ c.size ∨
      (∃ d ∈ suf.head?, d.used = false ∧ realsizeOf size + HEADER_SIZE ≤ c.size + d.size) ∨
        (∀ d ∈ suf.head?, d.used = true ∨ c.size + d.size < realsizeOf size) ∧
          (∀ d ∈ pre.getLast?, d.used = true ∨ c.size + d.size < realsizeOf size) ∧
            MallocCheck leftSizes m (pre ++ c :: suf) size

instance (m : Malloc) (pre : List ChunkHeader) (size : ℕ) :
    (cs : List ChunkHeader) → Decidable (ReallocCheck m pre size cs)
  | [] => .isFalse id
  | _ :: _ => inferInstanceAs (Decidable (_ ∨ _ ∨ _ ∧ _ ∧ _))

/-- What a step needs for the blocks to stay intact, in a heap that can be looked at. -/
def SparesCheck (s : AllocState) : AllocOp → Prop
  | .malloc size => 1 ≤ size ∧ Tiles leftSizes s.m s.m.chunks ∧ MallocCheck leftSizes s.m s.m.chunks size
  | .realloc vaddr size => 1 ≤ size ∧ Tiles leftSizes s.m s.m.chunks ∧ ∃ k < s.m.chunks.length,
      vaddr = s.m.firstChunk + span ChunkHeader.size (s.m.chunks.take k) + HEADER_SIZE ∧
        ReallocCheck s.m (s.m.chunks.take k) size (s.m.chunks.drop k)
  | _ => True

instance (s : AllocState) : (op : AllocOp) → Decidable (SparesCheck s op)
  | .malloc _ => inferInstanceAs (Decidable (_ ∧ _ ∧ _))
  | .realloc _ _ => inferInstanceAs (Decidable (_ ∧ _ ∧ _))
  | .free _ => .isTrue trivial
  | .store _ _ _ => .isTrue trivial
  | .mapForeign => .isTrue trivial
  | .unmapForeign _ => .isTrue trivial

theorem ReallocCheck.room {m : Malloc} {pre suf : List ChunkHeader} {c : ChunkHeader} {size : ℕ}
    (check : ReallocCheck m pre size (c :: suf)) : LeavesRoom leftSizes pre c suf (realsizeOf size) ∧
      (Moving pre c suf (realsizeOf size) → MallocSafe leftSizes m (pre ++ c :: suf) size) := by
  rcases check with hshrinks | ⟨d, hd, hfree, hroom⟩ | ⟨hnext, hprevious, hmalloc⟩
  · exact ⟨⟨fun hlt => absurd hlt (not_lt.2 hshrinks), fun hlt => absurd hlt (not_lt.2 hshrinks)⟩,
      fun hmoving => absurd hmoving.1 (not_lt.2 hshrinks)⟩
  · obtain ⟨rest, rfl⟩ : ∃ rest, suf = d :: rest := by
      cases suf with
      | nil => cases hd
      | cons e rest => exact ⟨rest, by rw [Option.some.inj hd]⟩
    have htakes : TakesNext c (d :: rest) (realsizeOf size) := ⟨d, rest, rfl, hfree, by omega⟩
    refine ⟨⟨fun _ e rest' heq _ _ => ?_, fun _ hnot => absurd htakes hnot⟩,
      fun hmoving => absurd htakes hmoving.2.1⟩
    obtain ⟨rfl, -⟩ := List.cons.inj heq
    exact Or.inl (Nat.le_sub_of_add_le (by rw [Nat.add_comm]; exact hroom))
  · refine ⟨⟨fun _ d rest heq hfree hlt => ?_, fun _ _ l d heq hfree hle => ?_⟩, fun _ => hmalloc.safe⟩
    · subst heq
      rcases hnext d rfl with hused | hsmall
      · exact Bool.noConfusion (hused.symm.trans hfree)
      · omega
    · subst heq
      rcases hprevious d (by simp) with hused | hsmall
      · exact Bool.noConfusion (hused.symm.trans hfree)
      · omega

theorem SparesCheck.spares {op : AllocOp} (check : SparesCheck s op) : Spares s op := by
  cases op with
  | malloc size =>
    obtain ⟨hpos, htiles, hmalloc⟩ := check
    exact ⟨hpos, _, htiles, hmalloc.safe⟩
  | realloc vaddr size =>
    obtain ⟨hpos, htiles, k, hk, hplace, hrealloc⟩ := check
    obtain ⟨c, suf, hdrop⟩ := List.exists_cons_of_ne_nil (List.drop_eq_nil_iff.not.2 (not_le.2 hk))
    rw [hdrop] at hrealloc
    have hlist : s.m.chunks.take k ++ c :: suf = s.m.chunks := by rw [← hdrop, List.take_append_drop]
    exact ⟨hpos, s.m.chunks.take k, c, suf, hlist.symm ▸ htiles, hplace, hrealloc.room⟩
  | free vaddr => trivial
  | store vaddr i byte => trivial
  | mapForeign => trivial
  | unmapForeign page => trivial

/-- Three blocks, of which the second one is freed, the first one grows into its place and the third one
moves behind a page of others. -/
theorem blocks_intact_boot : ∃ s : AllocState, s.live (257 * 4096 + 8) = some 150 ∧
    s.live (259 * 4096 + 8) = some 5000 ∧ (∃ cs, Intact s cs) ∧
      ∀ fuel s', s.step fuel (.free (259 * 4096 + 8)) = some s' →
        ∀ y, 257 * 4096 + 8 ≤ y → y < 257 * 4096 + 8 + payload s.m (257 * 4096 + 8) →
          s'.m.mem y = s.m.mem y := by
  obtain ⟨s, hrun, htest⟩ := @exists_behind Spares
    [.malloc 100, .malloc 200, .malloc 300, .free (257 * 4096 + 116), .realloc (257 * 4096 + 8) 150,
      .mapForeign, .store (257 * 4096 + 324) 5 7, .realloc (257 * 4096 + 324) 5000] 20
    (fun s op => SparesCheck s op)
    (fun s => s.live (257 * 4096 + 8) = some 150 ∧ s.live (259 * 4096 + 8) = some 5000)
    (fun op _ s hguard => (of_decide_eq_true hguard).spares) (by decide +kernel)
  obtain ⟨hfirst, hsecond⟩ := of_decide_eq_true htest
  have hintact := blocks_intact (bootPages_wf (by decide)) rfl (bootPages_new 257) hrun
  refine ⟨s, hfirst, hsecond, hintact.1, fun fuel s' hstep => ?_⟩
  have hlive : s.live (257 * 4096 + 8) ≠ none := by
    rw [hfirst]
    exact Option.some_ne_none _
  exact (hintact.2 fuel (.free (259 * 4096 + 8)) s' trivial hstep _ hlive (by decide)).2.2

/-- The live block at `vaddr` ends behind the heap. -/
def outside (vaddr : ℕ) (s : AllocState) : Bool :=
  s.live vaddr ≠ none ∧ s.m.endOfChunks < vaddr + payload s.m vaddr

/-- A block that grows into the free chunk behind it and leaves three bytes of that one: the header of
these bytes lies over the header of the block behind them. -/
theorem blocks_not_intact : ¬ ∀ (pages : KernelPages) (s : AllocState), pages.Wf →
    pages.frames = none → (∀ q, pages.owner q ≠ some .heap) → Reach pages Asked s → ∃ cs, Intact s cs := by
  intro hall
  obtain ⟨s, hrun, htest⟩ := @exists_behind Asked [.malloc 992, .malloc 92, .malloc 2980,
    .free (257 * 4096 + 1000 + 8), .realloc (257 * 4096 + 8) 1089] 20 (fun _ _ => true)
    (outside (257 * 4096 + 1100 + 8)) (by simp [Asked]) (by decide +kernel)
  obtain ⟨cs, hintact⟩ := hall _ s (bootPages_wf (by decide)) rfl (bootPages_new 257) hrun
  obtain ⟨hlive, hout⟩ := of_decide_eq_true htest
  exact absurd (hintact.inside _ hlive).2 (Nat.not_le.2 hout)

end Boot

end AllocState
