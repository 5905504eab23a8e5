import SepplesOS.Mm.WellFormed

/-!
# Squeezing the heap

`Malloc::squeeze` merges all neighbouring free chunks, and should then give back the pages of a free chunk
at the end as `free` does.  Its loop goes on until the cursor is at `endOfChunks`, with the chunk before it
in `other`; the test that follows is that of `free`, where the two are the other way round.  So it never
holds, and `squeeze_squeezes_iff` says when that makes no difference.
-/

namespace Malloc

open Tiling KernelPages

/-! ## The code -/

section Code

variable (m : Malloc)

/-- A chunk of size zero: the chunk before it, which may be the null pointer, grows over its header. -/
def mendNull (other : Option ℕ) (chunk : ℕ) : Malloc :=
  if (m.header chunk).size = 0 then
    let o := other.getD 0
    m.putHeader o { m.header o with size := (m.header o).size + HEADER_SIZE }
  else m

/-- The loop of `squeeze`; it leaves `other` and `chunk` to what follows. -/
def squeezeLoop : ℕ → Malloc → Option ℕ → ℕ → Run Malloc (Malloc × Option ℕ × ℕ)
  | 0, _, _, _ => .running
  | fuel + 1, m, other, chunk =>
    if chunk < m.endOfChunks then
      let c := m.header chunk
      if c.magic ≠ MAGIC ∨ c.size = 0 ∧ chunk = m.firstChunk then .halted m
      else
        let m := m.mendNull other chunk
        match m.freeBefore other chunk with
        | some o => squeezeLoop fuel (m.mergeInto o chunk) none o
        | none => squeezeLoop fuel m (some chunk) (chunk + (m.header chunk).size)
    else .done (m, other, chunk)

/-- The pages at the end of the heap that are given back, when `chunk` is the last one. -/
def dropPages (chunk : ℕ) : Malloc :=
  let h := m.header chunk
  let nPages := h.size / PAGESIZE
  let m := m.putHeader chunk { h with size := h.size - PAGESIZE * nPages }
  let endOfChunks := m.endOfChunks - PAGESIZE * nPages
  { m with
    endOfChunks := endOfChunks
    totalMemUsed := m.totalMemUsed - UInt64.ofNat (PAGESIZE * nPages)
    pages := (List.range nPages).foldl (fun pages i =>
      pages.unmapPage (endOfChunks + HEADER_SIZE + PAGESIZE * i)) m.pages }

/-- `squeeze`. -/
def squeeze (fuel : ℕ) : Run Malloc Malloc := do
  let (m, other, chunk) ← squeezeLoop fuel m none m.firstChunk
  if other.getD 0 = m.endOfChunks ∧ (m.header chunk).size ≥ PAGESIZE then .done (m.dropPages chunk)
  else .done m

/-- `free` gives back pages with the same code behind its own test. -/
theorem releasePages_eq (chunk : ℕ) :
    m.releasePages chunk = if chunk + (m.header chunk).size = m.endOfChunks ∧
      (m.header chunk).size ≥ PAGESIZE then m.dropPages chunk else m := rfl

end Code

/-! ## Merges -/

/-- The used chunks, with their addresses. -/
def usedChunks (m : Malloc) (cs : List ChunkHeader) : List (ℕ × ChunkHeader) :=
  (layout ChunkHeader.size m.firstChunk cs).filter fun e => e.2.used

/-- Two neighbouring free chunks become one. -/
inductive MergeStep : Malloc × List ChunkHeader → Malloc × List ChunkHeader → Prop
  | merge {m : Malloc} {pre suf : List ChunkHeader} {o c : ChunkHeader} {a : ℕ}
      (start : m.firstChunk + span ChunkHeader.size pre = a)
      (free : o.used = false) (free' : c.used = false) :
      MergeStep (m, pre ++ o :: c :: suf)
        (m.mergeInto a (a + o.size), pre ++ o.enlarge c.size :: suf)

/-- Several merges. -/
abbrev MergeSteps : Malloc × List ChunkHeader → Malloc × List ChunkHeader → Prop :=
  Relation.ReflTransGen MergeStep

section Merges

variable {B : MinSizes} {s t : Malloc × List ChunkHeader}

theorem MergeStep.search (step : MergeStep s t) : SearchStep s t := by
  cases step with
  | merge start free free' => exact .merge start free free'

theorem MergeSteps.search (steps : MergeSteps s t) : SearchSteps s t := by
  induction steps with
  | refl => exact .refl
  | tail _ step ih => exact ih.tail step.search

theorem MergeStep.keeps (step : MergeStep s t) (tiles : Tiles B s.1 s.2) :
    Keeps (fun c => c.used = true) s.1 t.1 s.2 t.2 none := by
  cases step with
  | merge start free free' =>
    exact merge_keeps tiles start (fun h => by simp [free] at h) (fun h => by simp [free'] at h)

theorem MergeSteps.keeps (steps : MergeSteps s t) (tiles : Tiles B s.1 s.2) :
    Keeps (fun c => c.used = true) s.1 t.1 s.2 t.2 none := by
  induction steps with
  | refl => exact Keeps.refl _ _ _ _
  | tail steps step ih => exact ih.trans (step.keeps (SearchSteps.tiles (MergeSteps.search steps) tiles))

/-- What merges leave as it is. -/
structure MergesKeep (s t : Malloc × List ChunkHeader) : Prop where
  pages : t.1.pages = s.1.pages
  last : t.1.endOfChunks = s.1.endOfChunks
  totalUsed : t.1.totalMemUsed = s.1.totalMemUsed
  used : usedChunks t.1 t.2 = usedChunks s.1 s.2
  trailRun : trailRun t.2 = trailRun s.2

theorem MergeStep.same (step : MergeStep s t) : MergesKeep s t := by
  cases step with
  | @merge m pre suf o c a start free free' =>
    refine ⟨rfl, rfl, rfl, ?_, (trailRun_merge free free').symm⟩
    show (layout ChunkHeader.size m.firstChunk (pre ++ o.enlarge c.size :: suf)).filter _ =
      (layout ChunkHeader.size m.firstChunk (pre ++ o :: c :: suf)).filter _
    rw [layout_append, layout_append, layout_cons, layout_cons, layout_cons, List.filter_append,
      List.filter_append, List.filter_cons_of_neg (by simp [free]),
      List.filter_cons_of_neg (by simp [free]), List.filter_cons_of_neg (by simp [free']),
      ChunkHeader.enlarge_size, Nat.add_assoc (m.firstChunk + _) o.size c.size]

theorem MergeSteps.same (steps : MergeSteps s t) : MergesKeep s t := by
  induction steps with
  | refl => exact ⟨rfl, rfl, rfl, rfl, rfl⟩
  | tail _ step ih =>
    have h := step.same
    exact ⟨h.pages.trans ih.pages, h.last.trans ih.last, h.totalUsed.trans ih.totalUsed,
      h.used.trans ih.used, h.trailRun.trans ih.trailRun⟩

end Merges

/-! ## The loop -/

section Loop

variable {B : MinSizes} {m : Malloc} {pre suf cs : List ChunkHeader} {c : ChunkHeader}
  {other : Option ℕ} {fuel x : ℕ}

theorem squeezeLoop_round (header : m.header x = c) (magic : c.magic = MAGIC) (pos : 0 < c.size)
    (lt : x < m.endOfChunks) :
    squeezeLoop (fuel + 1) m other x = match m.freeBefore other x with
      | some o => squeezeLoop fuel (m.mergeInto o x) none o
      | none => squeezeLoop fuel m (some x) (x + c.size) := by
  have hmend : m.mendNull other x = m := by
    unfold mendNull
    rw [header, if_neg pos.ne']
  rw [squeezeLoop, if_pos lt]
  dsimp only
  rw [header, if_neg (by simp [magic, pos.ne']), hmend, header]

/-- The loop ends at `endOfChunks` with no two free neighbours, and remembers a chunk before it. -/
theorem squeezeLoop_spec (tiles : Tiles B m (pre ++ c :: suf))
    (start : m.firstChunk + span ChunkHeader.size pre = x) (cursor : Cursor (2 ^ 48) True m pre c other)
    (enough : 2 * (suf.length + 1) + (if other = none then 0 else 1) < fuel) :
    ∃ m' cs' o, squeezeLoop fuel m other x = .done (m', some o, m'.endOfChunks) ∧
      MergeSteps (m, pre ++ c :: suf) (m', cs') ∧ Coalesced cs' ∧ o < m'.endOfChunks := by
  induction fuel generalizing m pre c suf x other with
  | zero => omega
  | succ fuel ih =>
    have hbounds := tiles.bounds (mem_layout_of m pre c suf)
    obtain ⟨hheader, hmagic⟩ := tiles.at
    rw [start] at hbounds hheader
    rw [squeezeLoop_round hheader hmagic hbounds.2.2.2.1 (by omega)]
    cases hbefore : m.freeBefore other x with
    | some b =>
      -- the chunk goes into the one before, which the loop looks at again
      obtain ⟨rfl, l, o, rfl, hstart, rfl, hofree, hcfree, hcursor⟩ :=
        cursor.merge tiles start hheader (by omega) hbefore
      rw [List.append_assoc, List.singleton_append] at tiles ⊢
      have hstep : MergeStep (m, l ++ o :: c :: suf) _ := .merge hstart hofree hcfree
      obtain ⟨m', cs', o', hloop, hsteps, hcoal, hlt⟩ :=
        ih (merge_tiles tiles hstart) hstart hcursor (by simp at enough ⊢; omega)
      exact ⟨m', cs', o', hloop, hsteps.head hstep, hcoal, hlt⟩
    | none =>
      have hcoal := cursor.pass tiles hheader (by omega) hbefore trivial
      have hnext : m.firstChunk + span ChunkHeader.size (pre ++ [c]) = x + c.size := by
        rw [span_append, span_cons, span_nil, Nat.add_zero, ← Nat.add_assoc, start]
      cases suf with
      | nil =>
        have hend : x + c.size = m.endOfChunks := hnext.symm.trans tiles.reach
        obtain ⟨fuel, rfl⟩ : ∃ f, fuel = f + 1 := ⟨fuel - 1, by simp at enough; omega⟩
        refine ⟨m, pre ++ [c], x, ?_, .refl, hcoal, by omega⟩
        dsimp only
        rw [squeezeLoop, hend, if_neg (lt_irrefl _)]
      | cons d suf =>
        have tiles' : Tiles B m ((pre ++ [c]) ++ d :: suf) := by simpa using tiles
        have hsmall : NoFit (2 ^ 48) (pre ++ [c]) := by
          intro e he
          obtain ⟨l, l', hl⟩ := List.append_of_mem he
          rw [hl, List.append_assoc, List.cons_append] at tiles'
          exact Or.inr (tiles'.bounds (mem_layout_of m l e _)).2.2.2.2
        have hcursor : Cursor (2 ^ 48) True m (pre ++ [c]) d (some x) :=
          ⟨fun a ha => ⟨pre, c, rfl, by cases ha; exact start⟩, fun _ => hcoal, fun _ => hsmall,
            fun _ h => by cases h⟩
        obtain ⟨m', cs', o', hloop, hsteps, hcoal', hlt⟩ :=
          ih tiles' hnext hcursor (by simp at enough ⊢; omega)
        exact ⟨m', cs', o', hloop, by simpa using hsteps, hcoal', hlt⟩

/-- `squeeze` merges, and that is all. -/
theorem squeeze_spec (tiles : Tiles B m cs) (ne : cs ≠ []) (enough : 2 * cs.length < fuel) :
    ∃ m' cs', m.squeeze fuel = .done m' ∧ MergeSteps (m, cs) (m', cs') ∧ Coalesced cs' := by
  obtain ⟨c, suf, rfl⟩ := List.exists_cons_of_ne_nil ne
  obtain ⟨m', cs', o, hloop, hsteps, hcoal, hlt⟩ := squeezeLoop_spec (x := m.firstChunk)
    (show Tiles B m ([] ++ c :: suf) from tiles) (by simp) (Cursor.start (2 ^ 48) m c) (by simpa using enough)
  refine ⟨m', cs', ?_, hsteps, hcoal⟩
  unfold squeeze
  rw [hloop, Run.done_bind]
  dsimp only
  rw [if_neg fun h => hlt.ne h.1]

theorem layout_unique {header : ℕ → ChunkHeader} {a : ℕ} {cs cs' : List ChunkHeader}
    (reads : ∀ x c, (x, c) ∈ layout ChunkHeader.size a cs → header x = c ∧ 0 < c.size)
    (reads' : ∀ x c, (x, c) ∈ layout ChunkHeader.size a cs' → header x = c ∧ 0 < c.size)
    (same : span ChunkHeader.size cs = span ChunkHeader.size cs') : cs = cs' := by
  induction cs generalizing a cs' with
  | nil =>
    cases cs' with
    | nil => rfl
    | cons c' cs' =>
      have hpos := (reads' a c' (by simp)).2
      rw [span_nil, span_cons] at same
      omega
  | cons c cs ih =>
    obtain ⟨hheader, hpos⟩ := reads a c (by simp)
    cases cs' with
    | nil =>
      rw [span_nil, span_cons] at same
      omega
    | cons c' cs' =>
      obtain rfl : c = c' := hheader.symm.trans (reads' a c' (by simp)).1
      rw [span_cons, span_cons] at same
      rw [ih (fun x d hd => reads x d (by rw [layout_cons]; exact List.mem_cons_of_mem _ hd))
        (fun x d hd => reads' x d (by rw [layout_cons]; exact List.mem_cons_of_mem _ hd)) (by omega)]

/-- A heap has one list of chunks. -/
theorem Tiles.unique {C : MinSizes} {cs' : List ChunkHeader} (tiles : Tiles B m cs)
    (tiles' : Tiles C m cs') : cs = cs' := by
  have hreach := tiles.reach
  have hreach' := tiles'.reach
  exact layout_unique (fun x c hc => (⟨(tiles.header x c hc).1, (tiles.bounds hc).2.2.2.1⟩ :
      m.header x = c ∧ 0 < c.size))
    (fun x c hc => ⟨(tiles'.header x c hc).1, (tiles'.bounds hc).2.2.2.1⟩) (by omega)

end Loop

/-! ## What `squeeze` should do -/

/-- The used chunks are what they were, no two neighbours are free, a free chunk at the end is smaller than
a page, and the pages that the heap has become smaller by are unmapped, as `free` does it. -/
structure Squeezed (B : MinSizes) (m m' : Malloc) (cs cs' : List ChunkHeader) : Prop where
  wellFormed : WellFormed B m' cs'
  used : usedChunks m' cs' = usedChunks m cs
  keeps : Keeps (fun c => c.used = true) m m' cs cs' none
  coalesced : Coalesced cs'
  last : ∀ pre c, cs' = pre ++ [c] → c.used = false → c.size < PAGESIZE
  released : ∃ k, m'.endOfChunks + k * PAGESIZE = m.endOfChunks ∧
    m'.totalMemUsed = m.totalMemUsed - UInt64.ofNat (k * PAGESIZE) ∧
    UnmapsPages m.pages m'.pages ((m'.endOfChunks + HEADER_SIZE) / PAGESIZE) k

section Squeezed

variable {B : MinSizes} {m : Malloc} {cs : List ChunkHeader} {fuel : ℕ}

theorem squeeze_last (wellFormed : WellFormed B m cs) (enough : 2 * cs.length < fuel) :
    ∃ m' pre c, m.squeeze fuel = .done m' ∧ MergeSteps (m, cs) (m', pre ++ [c]) ∧
      Coalesced (pre ++ [c]) ∧ WellFormed B m' (pre ++ [c]) ∧
      trailRun cs = if c.used then 0 else c.size := by
  obtain ⟨m', cs', hrun, hsteps, hcoal⟩ := squeeze_spec wellFormed.tiles wellFormed.ne_nil enough
  have hwell : WellFormed B m' cs' := wellFormed.search_steps hsteps.search
  obtain ⟨pre, c, rfl⟩ : ∃ pre c, cs' = pre ++ [c] :=
    ⟨_, _, (List.dropLast_concat_getLast hwell.ne_nil).symm⟩
  exact ⟨m', pre, c, hrun, hsteps, hcoal, hwell, hsteps.same.trailRun.symm.trans (trailRun_coalesced hcoal)⟩

/-- Where `squeeze` does what it should, there was nothing to give back. -/
theorem trailRun_lt_of_squeezed (wellFormed : WellFormed B m cs) (enough : 2 * cs.length < fuel)
    {m' : Malloc} {cs' : List ChunkHeader} (run : m.squeeze fuel = .done m')
    (squeezed : Squeezed B m m' cs cs') : trailRun cs < PAGESIZE := by
  obtain ⟨m'', pre, c, hrun, -, -, hwell, htrail⟩ := squeeze_last wellFormed enough
  rw [run] at hrun
  injection hrun with heq
  subst heq
  obtain rfl := hwell.tiles.unique squeezed.wellFormed.tiles
  rw [htrail]
  split_ifs with hused
  · decide
  · exact squeezed.last pre c rfl (by simpa using hused)

end Squeezed

/-- `squeeze` does what it should if and only if the free chunks at the end of the heap make up less than a
page, so that there is nothing to give back. -/
theorem squeeze_squeezes_iff {B : MinSizes} {m : Malloc} {cs : List ChunkHeader} {fuel : ℕ}
    (wellFormed : WellFormed B m cs) (enough : 2 * cs.length < fuel) :
    (∃ m' cs', m.squeeze fuel = .done m' ∧ Squeezed B m m' cs cs') ↔ trailRun cs < PAGESIZE := by
  constructor
  · rintro ⟨m', cs', hrun, hsqueezed⟩
    exact trailRun_lt_of_squeezed wellFormed enough hrun hsqueezed
  · intro hsmall
    obtain ⟨m', pre, c, hrun, hsteps, hcoal, hwell, htrail⟩ := squeeze_last wellFormed enough
    have hsame := hsteps.same
    rw [htrail] at hsmall
    refine ⟨m', pre ++ [c], hrun, hwell, hsame.used, hsteps.keeps wellFormed.tiles, hcoal,
      fun l d hld hfree => ?_, 0, ?_, ?_, ?_⟩
    · obtain ⟨rfl, hcd⟩ := List.append_inj' hld rfl
      obtain rfl := List.singleton_inj.1 hcd
      rwa [if_neg (by simp [hfree])] at hsmall
    · rw [Nat.zero_mul]
      exact hsame.last
    · rw [Nat.zero_mul, show UInt64.ofNat 0 = 0 from rfl, UInt64.sub_zero]
      exact hsame.totalUsed
    · rw [show m'.pages = m.pages from hsame.pages]
      exact UnmapsPages.none _ _

/-- The kernel's pages with two of them the heap's. -/
def twoPages : KernelPages where
  owner page := if page = 257 ∨ page = 258 then some .heap else if page < 257 then some .boot else none
  tables table := table = 0
  dirs dir := dir = 0
  frames := none

theorem twoPages_wf : twoPages.Wf := by
  refine wf_of_oneTable (fun _ => decide_eq_true_iff) rfl fun page h => ?_
  unfold twoPages at h
  dsimp only at h
  split_ifs at h
  · omega
  · omega
  · exact absurd rfl h

theorem twoPages_wellFormed {cs : List ChunkHeader} (tiles : Tiles minSizes (heapOf twoPages cs) cs)
    (room : span ChunkHeader.size cs = 2 * PAGESIZE - HEADER_SIZE) (ours : ∀ c ∈ cs, c.notOurs = false) :
    WellFormed minSizes (heapOf twoPages cs) cs := by
  obtain ⟨hpages, hfirst, hlast, hready⟩ := heapOf_ends twoPages cs
  have hpage : PAGESIZE = 4096 := rfl
  have hheader : HEADER_SIZE = 8 := rfl
  dsimp only at hfirst hlast
  rw [room] at hlast
  constructor
  case tiles => exact tiles
  case ready => exact hready
  case pages =>
    rw [hpages]
    exact twoPages_wf
  case start =>
    rw [hfirst]
    decide
  case first =>
    rw [hfirst]
    decide
  case aligned =>
    rw [hlast]
    decide
  case owned =>
    intro x c hc
    have hbounds := tiles.bounds hc
    rw [hfirst, hlast] at hbounds
    refine Owned.of_ours (ours c (mem_of_layout hc)) fun y hle hlt => ?_
    rw [hpages]
    refine if_pos ?_
    rw [hpage] at hbounds ⊢
    omega
  case beyond =>
    intro page hbehind
    rw [hlast] at hbehind
    rw [hpages]
    show (if page = 257 ∨ page = 258 then some Owner.heap else if page < 257 then some .boot else none) ≠ _
    rw [hpage] at hbehind
    rw [if_neg (by omega), if_neg (by omega)]
    nofun

/-- Two free chunks that are neighbours, and a block. -/
def mergeableChunks : List ChunkHeader :=
  [⟨1000, MAGIC, false, false⟩, ⟨2000, MAGIC, false, false⟩, ⟨5184, MAGIC, true, false⟩]

/-- The two are merged. -/
theorem squeeze_squeezes_two : ∃ m' cs', (heapOf twoPages mergeableChunks).squeeze 7 = .done m' ∧
    Squeezed minSizes (heapOf twoPages mergeableChunks) m' mergeableChunks cs' :=
  (squeeze_squeezes_iff (twoPages_wellFormed (by decide +kernel) rfl (by decide)) (by decide)).2 (by decide)

/-- One free chunk on both pages: the second page stays. -/
theorem squeeze_keeps_page : ¬ ∀ (m : Malloc) (cs : List ChunkHeader) (fuel : ℕ),
    WellFormed minSizes m cs → 2 * cs.length < fuel →
      ∃ m' cs', m.squeeze fuel = .done m' ∧ Squeezed minSizes m m' cs cs' := by
  intro hall
  have hwf : WellFormed minSizes (heapOf twoPages [⟨2 * PAGESIZE - HEADER_SIZE, MAGIC, false, false⟩]) _ :=
    twoPages_wellFormed (by decide +kernel) rfl (by decide)
  obtain ⟨m', cs', hrun, hsqueezed⟩ := hall _ _ 3 hwf (by decide)
  exact absurd (trailRun_lt_of_squeezed hwf (by decide) hrun hsqueezed) (by decide)

end Malloc
