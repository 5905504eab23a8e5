import SepplesOS.Mm.Chunks

/-!
# The search of `malloc`

The loop over the chunks merges free chunks, and takes back pages that others have unmapped:
`SearchStep` is one such change of the heap.  `search_spec` says how the loop ends.  While all wrapped
pages are mapped, the loop only merges; then it finds a chunk when some run of free chunks is large
enough.
-/

namespace Malloc

open Tiling KernelPages

/-! ## Runs of free chunks -/

/-- The room of the free chunks that a list begins with. -/
def leadRun : List ChunkHeader → ℕ
  | [] => 0
  | c :: cs => if c.used then 0 else c.size + leadRun cs

/-- The room of the largest run of free chunks. -/
def bestRun : List ChunkHeader → ℕ
  | [] => 0
  | c :: cs => max (leadRun (c :: cs)) (bestRun cs)

/-- The room of the free chunks that a list ends with. -/
def trailRun : List ChunkHeader → ℕ
  | [] => 0
  | c :: cs => if ∀ d ∈ c :: cs, d.used = false then span ChunkHeader.size (c :: cs) else trailRun cs

/-- Of two neighbours one is used. -/
def Coalesced (cs : List ChunkHeader) : Prop := cs.IsChain fun c d => c.used = true ∨ d.used = true

/-- No chunk of the list is free and large enough. -/
def NoFit (realsize : ℕ) (cs : List ChunkHeader) : Prop :=
  ∀ c ∈ cs, c.used = true ∨ c.size < realsize

section Runs

variable {pre run suf cs : List ChunkHeader} {o c : ChunkHeader} {n realsize : ℕ}

theorem leadRun_used (used : c.used = true) : leadRun (c :: cs) = 0 := if_pos used

theorem leadRun_free (free : c.used = false) : leadRun (c :: cs) = c.size + leadRun cs :=
  if_neg (by simp [free])

theorem leadRun_run (free : ∀ c ∈ run, c.used = false) :
    span ChunkHeader.size run ≤ leadRun (run ++ suf) := by
  induction run with
  | nil => exact Nat.zero_le _
  | cons c run ih =>
    rw [List.forall_mem_cons] at free
    rw [List.cons_append, leadRun_free free.1, span_cons]
    exact Nat.add_le_add_left (ih free.2) _

theorem leadRun_le_bestRun : leadRun cs ≤ bestRun cs := by
  cases cs with
  | nil => exact le_rfl
  | cons c cs => exact le_max_left _ _

theorem bestRun_append : bestRun suf ≤ bestRun (pre ++ suf) := by
  induction pre with
  | nil => exact le_rfl
  | cons c pre ih => exact ih.trans (le_max_right _ _)

/-- A run of free chunks takes no more than the largest one. -/
theorem span_le_bestRun (free : ∀ c ∈ run, c.used = false) :
    span ChunkHeader.size run ≤ bestRun (pre ++ run ++ suf) := by
  rw [List.append_assoc]
  exact (leadRun_run free).trans (leadRun_le_bestRun.trans bestRun_append)

theorem leadRun_merge (free : o.used = false) (free' : c.used = false) :
    leadRun (pre ++ o :: c :: suf) = leadRun (pre ++ o.enlarge c.size :: suf) := by
  induction pre with
  | nil =>
    rw [List.nil_append, List.nil_append, leadRun_free free, leadRun_free free',
      leadRun_free (c := o.enlarge c.size) free, ChunkHeader.enlarge_size, Nat.add_assoc]
  | cons d pre ih => rw [List.cons_append, List.cons_append, leadRun, leadRun, ih]

theorem bestRun_merge (free : o.used = false) (free' : c.used = false) :
    bestRun (pre ++ o :: c :: suf) = bestRun (pre ++ o.enlarge c.size :: suf) := by
  induction pre with
  | nil =>
    have hlead : leadRun ([] ++ o :: c :: suf) = leadRun ([] ++ o.enlarge c.size :: suf) :=
      leadRun_merge free free'
    have hle : leadRun (c :: suf) ≤ leadRun (o :: c :: suf) := by
      rw [leadRun_free (c := o) free]
      exact Nat.le_add_left _ _
    rw [List.nil_append, List.nil_append] at hlead ⊢
    rw [bestRun, bestRun, bestRun, ← hlead, ← max_assoc, max_eq_left hle]
  | cons d pre ih =>
    have hlead : leadRun (d :: pre ++ o :: c :: suf) = leadRun (d :: pre ++ o.enlarge c.size :: suf) :=
      leadRun_merge free free'
    rw [List.cons_append, List.cons_append] at hlead ⊢
    rw [bestRun, bestRun, ih, hlead]

theorem trailRun_merge (free : o.used = false) (free' : c.used = false) :
    trailRun (pre ++ o :: c :: suf) = trailRun (pre ++ o.enlarge c.size :: suf) := by
  induction pre with
  | nil =>
    simp only [List.nil_append, trailRun, List.forall_mem_cons, free, free', true_and, span_cons,
      ChunkHeader.enlarge_used, ChunkHeader.enlarge_size]
    by_cases hsuf : ∀ d ∈ suf, d.used = false
    · rw [if_pos hsuf, if_pos hsuf, Nat.add_assoc]
    · rw [if_neg hsuf, if_neg hsuf, if_neg hsuf]
  | cons d pre ih =>
    have hall : (∀ x ∈ d :: (pre ++ o :: c :: suf), x.used = false) ↔
        ∀ x ∈ d :: (pre ++ o.enlarge c.size :: suf), x.used = false := by
      simp only [List.forall_mem_cons, List.forall_mem_append, free, free',
        ChunkHeader.enlarge_used, true_and]
    have hspan : span ChunkHeader.size (d :: (pre ++ o :: c :: suf)) =
        span ChunkHeader.size (d :: (pre ++ o.enlarge c.size :: suf)) := by
      simp only [span_cons, span_append, ChunkHeader.enlarge_size]
      omega
    rw [List.cons_append, List.cons_append, trailRun, trailRun, ih, hspan]
    exact if_congr hall rfl rfl

/-- When free chunks have no free neighbour and none is large enough, no run is. -/
theorem bestRun_lt (coalesced : Coalesced cs) (none : NoFit realsize cs) (pos : 0 < realsize) :
    bestRun cs < realsize ∧ leadRun cs < realsize := by
  induction cs with
  | nil => exact ⟨pos, pos⟩
  | cons c cs ih =>
    obtain ⟨hbest, hlead⟩ := ih coalesced.tail fun d hd => none d (List.mem_cons_of_mem _ hd)
    have hfirst : leadRun (c :: cs) < realsize := by
      rcases none c List.mem_cons_self with hused | hsmall
      · rw [leadRun_used hused]
        exact pos
      · by_cases hused : c.used = true
        · rw [leadRun_used hused]
          exact pos
        · have hzero : leadRun cs = 0 := by
            cases cs with
            | nil => rfl
            | cons d cs => exact leadRun_used ((List.isChain_cons_cons.1 coalesced).1.resolve_left hused)
          rw [leadRun_free (by simpa using hused), hzero]
          exact hsmall
    exact ⟨max_lt hfirst hbest, hfirst⟩

theorem trailRun_coalesced (coalesced : Coalesced (pre ++ [c])) :
    trailRun (pre ++ [c]) = if c.used then 0 else c.size := by
  induction pre with
  | nil =>
    rw [List.nil_append]
    cases hused : c.used
    · simp [trailRun, hused]
    · simp [trailRun, hused]
  | cons d pre ih =>
    have hnot : ¬∀ x ∈ d :: (pre ++ [c]), x.used = false := by
      intro hall
      obtain ⟨e, es, he⟩ := List.exists_cons_of_ne_nil (show pre ++ [c] ≠ [] by simp)
      rw [List.cons_append, he] at coalesced
      rw [he, List.forall_mem_cons, List.forall_mem_cons] at hall
      rcases (List.isChain_cons_cons.1 coalesced).1 with hd | hd
      · rw [hall.1] at hd
        cases hd
      · rw [hall.2.1] at hd
        cases hd
    rw [List.cons_append, trailRun, if_neg hnot]
    exact ih coalesced.tail

end Runs

/-! ## The changes of the search -/

/-- The pages behind the headers of all chunks that are not ours are mapped. -/
def Wrapped (m : Malloc) (cs : List ChunkHeader) : Prop :=
  ∀ x c page, (x, c) ∈ layout ChunkHeader.size m.firstChunk cs → c.notOurs = true →
    x + HEADER_SIZE = page * PAGESIZE → m.pages.owner page ≠ none

theorem wrapped_iff (m : Malloc) (cs : List ChunkHeader) :
    Wrapped m cs ↔ ∀ e ∈ layout ChunkHeader.size m.firstChunk cs,
    e.2.notOurs = true → (e.1 + HEADER_SIZE) % PAGESIZE = 0 →
      m.pages.owner ((e.1 + HEADER_SIZE) / PAGESIZE) ≠ none := by
  have hpage : 0 < PAGESIZE := by decide
  constructor
  · intro wrapped e he hnot hplace
    exact wrapped e.1 e.2 _ he hnot (Nat.div_mul_cancel (Nat.dvd_of_mod_eq_zero hplace)).symm
  · intro h x c page hc hnot hplace
    have hmapped := h (x, c) hc hnot (by rw [hplace, Nat.mul_mod_left])
    rwa [hplace, Nat.mul_div_cancel _ hpage] at hmapped

instance (m : Malloc) (cs : List ChunkHeader) : Decidable (Wrapped m cs) :=
  decidable_of_iff _ (wrapped_iff m cs).symm

/-- A used chunk that is ours. -/
def Ours (c : ChunkHeader) : Prop := c.used = true ∧ c.notOurs = false

/-- A change of the heap while `malloc` searches: two free chunks are merged, a page that has been
unmapped is taken back, or the search looks for the first page that is not mapped. -/
inductive SearchStep : Malloc × List ChunkHeader → Malloc × List ChunkHeader → Prop
  | merge {m : Malloc} {pre suf : List ChunkHeader} {o c : ChunkHeader} {a : ℕ}
      (start : m.firstChunk + span ChunkHeader.size pre = a)
      (free : o.used = false) (free' : c.used = false) :
      SearchStep (m, pre ++ o :: c :: suf)
        (m.mergeInto a (a + o.size), pre ++ o.enlarge c.size :: suf)
  | reclaim {m : Malloc} {pre suf : List ChunkHeader} {c : ChunkHeader} {a page : ℕ}
      {pages : KernelPages} (start : m.firstChunk + span ChunkHeader.size pre = a)
      (notOurs : c.notOurs = true) (size : c.size = PAGESIZE + HEADER_SIZE)
      (place : a + HEADER_SIZE = page * PAGESIZE) (maps : MapsOne m.pages pages .heap page)
      (wf : pages.Wf) :
      SearchStep (m, pre ++ c :: suf)
        (putHeader { m with pages := pages } a { c with used := false, notOurs := false },
          pre ++ { c with used := false, notOurs := false } :: suf)
  | look {m : Malloc} {cs : List ChunkHeader} {pages : KernelPages}
      (same : SamePages m.pages pages) (wf : pages.Wf) :
      SearchStep (m, cs) ({ m with pages := pages }, cs)

/-- The changes of a whole search. -/
abbrev SearchSteps : Malloc × List ChunkHeader → Malloc × List ChunkHeader → Prop :=
  Relation.ReflTransGen SearchStep

section Steps

variable {B : MinSizes} {m m' : Malloc} {s t : Malloc × List ChunkHeader}
  {cs cs' pre suf : List ChunkHeader} {o c : ChunkHeader} {a d : ℕ}

theorem SearchStep.tiles (step : SearchStep s t) (tiles : Tiles B s.1 s.2) : Tiles B t.1 t.2 := by
  cases step with
  | merge start free free' => exact merge_tiles tiles start
  | reclaim start notOurs size place maps wf =>
    have hmagic := (tiles.at).2
    exact Tiles.put (tiles.congr rfl rfl rfl) start rfl hmagic
  | look same wf => exact tiles.congr rfl rfl rfl

theorem SearchStep.keeps (step : SearchStep s t) (tiles : Tiles B s.1 s.2) :
    Keeps Ours s.1 t.1 s.2 t.2 none := by
  cases step with
  | merge start free free' =>
    exact merge_keeps tiles start (fun h => by simp [Ours, free] at h)
      (fun h => by simp [Ours, free'] at h)
  | reclaim start notOurs size place maps wf =>
    exact Keeps.put (tiles.congr rfl rfl rfl) start rfl fun h => by simp [Ours, notOurs] at h
  | look same wf => exact Keeps.congr rfl rfl

theorem SearchStep.wrapped (step : SearchStep s t) (wrapped : Wrapped s.1 s.2) :
    Wrapped t.1 t.2 ∧ t.1.pages.owner = s.1.pages.owner ∧ t.1.endOfChunks = s.1.endOfChunks ∧
      bestRun t.2 = bestRun s.2 ∧ trailRun t.2 = trailRun s.2 := by
  cases step with
  | @merge m pre suf o c a start free free' =>
    refine ⟨fun x e page he hnot hplace => ?_, rfl, rfl, (bestRun_merge free free').symm,
      (trailRun_merge free free').symm⟩
    change (x, e) ∈ layout ChunkHeader.size m.firstChunk (pre ++ o.enlarge c.size :: suf) at he
    rw [layout_append, layout_cons, List.mem_append, List.mem_cons] at he
    show m.pages.owner page ≠ none
    rcases he with he | he | he
    · refine wrapped x e page ?_ hnot hplace
      rw [layout_append]
      exact List.mem_append_left _ he
    · obtain ⟨rfl, rfl⟩ := Prod.mk.inj he
      exact wrapped _ o page (mem_layout _ _ _ _) hnot hplace
    · refine wrapped x e page ?_ hnot hplace
      rw [layout_append, layout_cons, layout_cons]
      rw [ChunkHeader.enlarge_size, ← Nat.add_assoc] at he
      exact List.mem_append_right _ (List.mem_cons_of_mem _ (List.mem_cons_of_mem _ he))
  | reclaim start notOurs size place maps wf =>
    refine absurd maps.unmapped (wrapped _ _ _ (mem_layout _ _ _ _) notOurs ?_)
    rw [start, place]
  | look same wf =>
    refine ⟨fun x e page he hnot hplace => ?_, same.owner, rfl, rfl, rfl⟩
    show _ ≠ _
    rw [same.owner]
    exact wrapped x e page he hnot hplace

/-- With all wrapped pages mapped, no used chunk is touched. -/
theorem SearchStep.keeps_used (step : SearchStep s t) (tiles : Tiles B s.1 s.2)
    (wrapped : Wrapped s.1 s.2) : Keeps (fun c => c.used = true) s.1 t.1 s.2 t.2 none := by
  cases step with
  | merge start free free' =>
    exact merge_keeps tiles start (fun h => by simp [free] at h) (fun h => by simp [free'] at h)
  | reclaim start notOurs size place maps wf =>
    refine absurd maps.unmapped (wrapped _ _ _ (mem_layout _ _ _ _) notOurs ?_)
    rw [start, place]
  | look same wf => exact Keeps.congr rfl rfl

theorem SearchStep.fields (step : SearchStep s t) : t.1.firstChunk = s.1.firstChunk ∧
    t.1.endOfChunks = s.1.endOfChunks ∧ t.1.mallocReady = s.1.mallocReady ∧
      (s.1.pages.frames = none → t.1.pages.frames = none) ∧ (s.1.pages.Wf → t.1.pages.Wf) := by
  cases step with
  | merge start free free' => exact ⟨rfl, rfl, rfl, id, id⟩
  | reclaim start notOurs size place maps wf => exact ⟨rfl, rfl, rfl, maps.frames, fun _ => wf⟩
  | look same wf => exact ⟨rfl, rfl, rfl, same.frames, fun _ => wf⟩

theorem SearchSteps.tiles (steps : SearchSteps s t) (tiles : Tiles B s.1 s.2) :
    Tiles B t.1 t.2 := by
  induction steps with
  | refl => exact tiles
  | tail _ step ih => exact step.tiles ih

theorem SearchSteps.keeps (steps : SearchSteps s t) (tiles : Tiles B s.1 s.2) :
    Keeps Ours s.1 t.1 s.2 t.2 none := by
  induction steps with
  | refl => exact Keeps.refl _ _ _ _
  | tail steps step ih => exact ih.trans (step.keeps (SearchSteps.tiles steps tiles))

theorem SearchSteps.wrapped (steps : SearchSteps s t) (wrapped : Wrapped s.1 s.2) :
    Wrapped t.1 t.2 ∧ t.1.pages.owner = s.1.pages.owner ∧ t.1.endOfChunks = s.1.endOfChunks ∧
      bestRun t.2 = bestRun s.2 ∧ trailRun t.2 = trailRun s.2 := by
  induction steps with
  | refl => exact ⟨wrapped, rfl, rfl, rfl, rfl⟩
  | tail _ step ih =>
    obtain ⟨hwrapped, howner, hend, hbest, htrail⟩ := ih
    obtain ⟨hwrapped', howner', hend', hbest', htrail'⟩ := step.wrapped hwrapped
    exact ⟨hwrapped', howner'.trans howner, hend'.trans hend, hbest'.trans hbest,
      htrail'.trans htrail⟩

theorem SearchSteps.keeps_used (steps : SearchSteps s t) (tiles : Tiles B s.1 s.2)
    (wrapped : Wrapped s.1 s.2) : Keeps (fun c => c.used = true) s.1 t.1 s.2 t.2 none := by
  induction steps with
  | refl => exact Keeps.refl _ _ _ _
  | tail steps step ih =>
    exact ih.trans (step.keeps_used (SearchSteps.tiles steps tiles)
      (SearchSteps.wrapped steps wrapped).1)

theorem SearchSteps.fields (steps : SearchSteps s t) : t.1.firstChunk = s.1.firstChunk ∧
    t.1.endOfChunks = s.1.endOfChunks ∧ t.1.mallocReady = s.1.mallocReady ∧
      (s.1.pages.frames = none → t.1.pages.frames = none) ∧ (s.1.pages.Wf → t.1.pages.Wf) := by
  induction steps with
  | refl => exact ⟨rfl, rfl, rfl, id, id⟩
  | tail _ step ih =>
    obtain ⟨hfirst, hend, hready, hframes, hwf⟩ := ih
    obtain ⟨hfirst', hend', hready', hframes', hwf'⟩ := step.fields
    exact ⟨hfirst'.trans hfirst, hend'.trans hend, hready'.trans hready, hframes' ∘ hframes,
      hwf' ∘ hwf⟩

/-- A chunk that only its own fields have changed of is where it was. -/
theorem SearchSteps.at {m m₁ : Malloc} {c c₁ : ChunkHeader} {x : ℕ}
    (steps : SearchSteps (m, pre ++ c :: suf) (m₁, pre ++ c₁ :: suf)) (tiles : Tiles B m (pre ++ c :: suf))
    (start : m.firstChunk + span ChunkHeader.size pre = x) :
    Tiles B m₁ (pre ++ c₁ :: suf) ∧ m₁.firstChunk + span ChunkHeader.size pre = x ∧ m₁.header x = c₁ := by
  have tiles₁ := SearchSteps.tiles steps tiles
  have hstart : m₁.firstChunk + span ChunkHeader.size pre = x := by
    rw [(SearchSteps.fields steps).1]
    exact start
  refine ⟨tiles₁, hstart, ?_⟩
  rw [← hstart]
  exact (tiles₁.at).1

end Steps

/-! ## The loop -/

/-- The search meets a wrapped page that has been unmapped, in a chunk of several pages. -/
def Blocked (m : Malloc) (cs : List ChunkHeader) : Prop :=
  ∃ x c page, (x, c) ∈ layout ChunkHeader.size m.firstChunk cs ∧ c.notOurs = true ∧
    c.size ≠ PAGESIZE + HEADER_SIZE ∧ m.pages.First page ∧ x + HEADER_SIZE = page * PAGESIZE

/-- How a search that halts does so. -/
def Stopped (m : Malloc) (cs : List ChunkHeader) (s : Malloc) : Prop :=
  ¬Wrapped m cs ∧ ∃ cs', SearchSteps (m, cs) (s, cs') ∧
    (Blocked s cs' ∨ s.pages.getUnmappedVAddr = none)

/-- The first page that is not mapped, by its address. -/
def FirstAt (pages : KernelPages) (vaddr : ℕ) : Prop :=
  ∃ page, pages.First page ∧ vaddr = page * PAGESIZE

/-- Where the search ends, in the list as it is then.  At the end of the list, no wrapped page that
could be taken back is the first one unmapped, no chunk was large enough when the search passed it, and
no two free ones are neighbours. -/
def Ended (realsize : ℕ) (quiet : Prop) (m : Malloc) (cs : List ChunkHeader) : Found → Prop
  | .chunk x => ∃ pre c suf, cs = pre ++ c :: suf ∧ x = m.firstChunk + span ChunkHeader.size pre ∧
      c.used = false ∧ realsize ≤ c.size
  | .atEnd o => ∃ pre c, cs = pre ++ [c] ∧ o = m.firstChunk + span ChunkHeader.size pre ∧
      (∀ y e page, (y, e) ∈ layout ChunkHeader.size m.firstChunk cs → e.notOurs = true →
        m.pages.First page → y + HEADER_SIZE ≠ page * PAGESIZE) ∧
      (quiet → Coalesced cs ∧ NoFit realsize cs)

section Loop

variable {B : MinSizes} {m m' : Malloc} {cs pre suf : List ChunkHeader} {o c : ChunkHeader}
  {x page next realsize fuel : ℕ} {other : Option ℕ} {pages : KernelPages}

/-- `reclaim` does nothing, or takes one page back, or halts. -/
theorem reclaim_spec (tiles : Tiles B m (pre ++ c :: suf)) (wf : m.pages.Wf)
    (frames : m.pages.frames = none ∨ Wrapped m (pre ++ c :: suf))
    (start : m.firstChunk + span ChunkHeader.size pre = x) (first : FirstAt m.pages next) :
    Run.Sat (m.reclaim x next)
      (fun r => ∃ c', SearchSteps (m, pre ++ c :: suf) (r.1, pre ++ c' :: suf) ∧
        c'.size = c.size ∧ FirstAt r.1.pages r.2 ∧ (Wrapped m (pre ++ c :: suf) → c' = c) ∧
        (c'.notOurs = true → x + HEADER_SIZE ≠ r.2) ∧
        (r.2 = next ∨ next = x + HEADER_SIZE ∧ next < r.2))
      (Stopped m (pre ++ c :: suf)) False := by
  obtain ⟨page, first, rfl⟩ := first
  have hheader : m.header x = c := by
    rw [← start]
    exact (tiles.at).1
  have hmem : (x, c) ∈ layout ChunkHeader.size m.firstChunk (pre ++ c :: suf) := by
    rw [← start]
    exact mem_layout _ _ _ _
  have hstart := first.start
  have hpos : 0 < page := lt_of_lt_of_le (by decide) hstart
  unfold reclaim
  dsimp only
  rw [hheader]
  by_cases hhole : c.notOurs = true ∧ x + HEADER_SIZE = page * PAGESIZE
  · obtain ⟨hnot, hplace⟩ := hhole
    have hopen : ¬Wrapped m (pre ++ c :: suf) := fun wrapped =>
      wrapped x c page hmem hnot hplace first.unmapped
    rw [if_pos ⟨hnot, hplace⟩]
    by_cases hsize : c.size = PAGESIZE + HEADER_SIZE
    · rw [if_neg (not_not.2 hsize)]
      obtain ⟨pages, hmap, maps, wf'⟩ := mapPageAt_unmapped wf
        (frames.resolve_right hopen) first.low first.unmapped
      rw [mapPage_of_pos hpos, hmap]
      have hstep : SearchStep (m, pre ++ c :: suf) _ := .reclaim start hnot hsize hplace maps wf'
      have hne : page * PAGESIZE ≠ 0 := (Nat.mul_pos hpos (by decide)).ne'
      simp only [Run.ofOption_some, Run.done_bind, if_pos hne, putHeader_pages]
      cases hlook : pages.getUnmappedVAddr with
      | none =>
        exact Run.sat_halted ⟨hopen, _, .single hstep, Or.inr hlook⟩
      | some r =>
        obtain ⟨vaddr, pages'⟩ := r
        obtain ⟨page', first', rfl, -, same, -, -, wf''⟩ := getUnmappedVAddr_some wf' hlook
        have hlt : page * PAGESIZE < page' * PAGESIZE :=
          Nat.mul_lt_mul_of_pos_right (maps.first_lt first first') (by decide)
        exact Run.sat_done ⟨_, (Relation.ReflTransGen.single hstep).tail (.look same wf''), rfl,
          ⟨page', first'.congr same.owner, rfl⟩, fun wrapped => absurd wrapped hopen,
          fun h => (by cases h), Or.inr ⟨hplace.symm, hlt⟩⟩
    · rw [if_pos hsize]
      exact Run.sat_halted ⟨hopen, _, .refl, Or.inl ⟨x, c, page, hmem, hnot, hsize, first, hplace⟩⟩
  · rw [if_neg hhole]
    exact Run.sat_done ⟨c, .refl, rfl, ⟨page, first, rfl⟩, fun _ => rfl,
      fun hnot hplace => hhole ⟨hnot, hplace⟩, Or.inl rfl⟩

theorem freeBefore_none : m.freeBefore none x = none := rfl

theorem freeBefore_some {a : ℕ} (header : m.header a = o) (header' : m.header x = c)
    (lt : x < m.endOfChunks) :
    m.freeBefore (some a) x = if o.used = false ∧ c.used = false then some a else none := by
  unfold freeBefore
  rw [Option.filter_some, header, header']
  simp [lt]

theorem Stopped.after {cs' : List ChunkHeader} {s : Malloc} (steps : SearchSteps (m, cs) (m', cs'))
    (stopped : Stopped m' cs' s) : Stopped m cs s := by
  obtain ⟨hopen, cs'', hsteps, hwhy⟩ := stopped
  exact ⟨fun wrapped => hopen (SearchSteps.wrapped steps wrapped).1, cs'', steps.trans hsteps, hwhy⟩

/-- Where the cursor of the search is: behind the chunk before it, when the search remembers one.
While all wrapped pages are mapped, nothing before the cursor could be merged or used. -/
structure Cursor (realsize : ℕ) (quiet : Prop) (m : Malloc) (pre : List ChunkHeader)
    (c : ChunkHeader) (other : Option ℕ) : Prop where
  before : ∀ a, other = some a → ∃ l o, pre = l ++ [o] ∧ m.firstChunk + span ChunkHeader.size l = a
  coalesced : quiet → Coalesced pre
  noFit : quiet → NoFit realsize pre
  fresh : quiet → other = none → Coalesced (pre ++ [c])

theorem coalesced_append_pair {l : List ChunkHeader} :
    Coalesced (l ++ [o, c]) ↔ Coalesced (l ++ [o]) ∧ (o.used = true ∨ c.used = true) := by
  unfold Coalesced
  rw [show l ++ [o, c] = (l ++ [o]) ++ [c] by simp, List.isChain_append]
  simp

theorem coalesced_congr {l : List ChunkHeader} (same : o.used = c.used) :
    Coalesced (l ++ [o]) ↔ Coalesced (l ++ [c]) := by
  unfold Coalesced
  rw [List.isChain_append, List.isChain_append]
  simp [same]

theorem search_fits (header : m.header x = c) (fit : ¬(c.used = true ∨ c.size < realsize)) :
    search realsize (fuel + 1) m x other next = .done (m, .chunk x) := by
  rw [search]
  dsimp only
  rw [header, if_neg fit]

theorem search_merges {a : ℕ} (header : m.header x = c) (magic : c.magic = MAGIC)
    (pos : 0 < c.size) (small : c.used = true ∨ c.size < realsize)
    (before : m.freeBefore other x = some a) :
    search realsize (fuel + 1) m x other next =
      search realsize fuel (m.mergeInto a x) a none next := by
  rw [search]
  dsimp only
  rw [header, if_pos small, if_neg (by simp [magic, pos.ne']), before]

theorem search_passes (header : m.header x = c) (magic : c.magic = MAGIC)
    (pos : 0 < c.size) (small : c.used = true ∨ c.size < realsize)
    (before : m.freeBefore other x = none) :
    search realsize (fuel + 1) m x other next =
      m.reclaim x next >>= fun r =>
        if x + (r.1.header x).size = r.1.endOfChunks then .done (r.1, .atEnd x)
        else if x + (r.1.header x).size > r.1.endOfChunks then .halted r.1
        else search realsize fuel r.1 (x + (r.1.header x).size) (some x) r.2 := by
  rw [search]
  dsimp only
  rw [header, if_pos small, if_neg (by simp [magic, pos.ne']), before]

section Round

variable {quiet : Prop}

/-- When the search remembers a chunk, and it and the next one are free, the cursor goes back to it. -/
theorem Cursor.merge {b : ℕ} (cursor : Cursor realsize quiet m pre c other)
    (tiles : Tiles B m (pre ++ c :: suf))
    (start : m.firstChunk + span ChunkHeader.size pre = x) (header : m.header x = c)
    (lt : x < m.endOfChunks) (before : m.freeBefore other x = some b) :
    other = some b ∧ ∃ l o, pre = l ++ [o] ∧ m.firstChunk + span ChunkHeader.size l = b ∧
      b + o.size = x ∧ o.used = false ∧ c.used = false ∧
        Cursor realsize quiet (m.mergeInto b x) l (o.enlarge c.size) none := by
  cases other with
  | none => cases before
  | some a =>
    obtain ⟨l, o, rfl, hstart⟩ := cursor.before a rfl
    have hplace : a + o.size = x := by
      rw [← start, ← hstart]
      simp [Nat.add_assoc]
    have tiles' : Tiles B m (l ++ o :: c :: suf) := by simpa using tiles
    have ho : m.header a = o := by
      rw [← hstart]
      exact (tiles'.at).1
    rw [freeBefore_some ho header lt] at before
    obtain ⟨⟨hofree, hcfree⟩, hab⟩ := Option.ite_some_none_eq_some.1 before
    subst hab
    have hcoal : quiet → Coalesced (l ++ [o.enlarge c.size]) := fun q =>
      (coalesced_congr (ChunkHeader.enlarge_used o c.size)).2 (cursor.coalesced q)
    exact ⟨rfl, l, o, rfl, hstart, hplace, hofree, hcfree, fun _ h => (by cases h),
      fun q => (hcoal q).left_of_append, fun q d hd => cursor.noFit q d (List.mem_append_left _ hd),
      fun q _ => hcoal q⟩

/-- What the cursor passes has no free neighbour when it is free. -/
theorem Cursor.pass (cursor : Cursor realsize quiet m pre c other)
    (tiles : Tiles B m (pre ++ c :: suf)) (header : m.header x = c)
    (lt : x < m.endOfChunks) (before : m.freeBefore other x = none) (q : quiet) :
    Coalesced (pre ++ [c]) := by
  cases other with
  | none => exact cursor.fresh q rfl
  | some b =>
    obtain ⟨l, o, rfl, hstart⟩ := cursor.before b rfl
    have tiles' : Tiles B m (l ++ o :: c :: suf) := by simpa using tiles
    have ho : m.header b = o := by
      rw [← hstart]
      exact (tiles'.at).1
    rw [freeBefore_some ho header lt] at before
    have hused : ¬(o.used = false ∧ c.used = false) := by
      intro h
      rw [if_pos h] at before
      cases before
    rw [List.append_assoc]
    refine coalesced_append_pair.2 ⟨cursor.coalesced q, ?_⟩
    by_contra hnot
    simp only [not_or, Bool.not_eq_true] at hnot
    exact hused hnot

end Round

/-- A wrapped page that is the first one unmapped lies behind the cursor. -/
def Ahead (m : Malloc) (cs : List ChunkHeader) (x next : ℕ) : Prop :=
  ∀ y e, (y, e) ∈ layout ChunkHeader.size m.firstChunk cs → e.notOurs = true →
    y + HEADER_SIZE = next → x ≤ y

theorem Ahead.merge (ahead : Ahead m (pre ++ o :: c :: suf) (x + o.size) next)
    (start : m.firstChunk + span ChunkHeader.size pre = x) :
    Ahead (m.mergeInto x (x + o.size)) (pre ++ o.enlarge c.size :: suf) x next := by
  intro y e he hnot hy
  change (y, e) ∈ layout ChunkHeader.size m.firstChunk (pre ++ o.enlarge c.size :: suf) at he
  rw [layout_append, layout_cons, List.mem_append, List.mem_cons, start] at he
  rcases he with he | he | he
  · refine le_trans (Nat.le_add_right _ _) (ahead y e ?_ hnot hy)
    rw [layout_append]
    exact List.mem_append_left _ he
  · exact (Prod.mk.inj he).1.ge
  · have hbounds := layout_bounds he
    omega

theorem Ahead.pass {c' : ChunkHeader} {next' : ℕ} (ahead : Ahead m (pre ++ c :: suf) x next)
    (tiles : Tiles B m (pre ++ c :: suf)) (start : m.firstChunk + span ChunkHeader.size pre = x) (same : m'.firstChunk = m.firstChunk)
    (size : c'.size = c.size) (past : c'.notOurs = true → x + HEADER_SIZE ≠ next')
    (moves : next' = next ∨ next = x + HEADER_SIZE ∧ next < next') :
    Ahead m' (pre ++ c' :: suf) (x + c'.size) next' := by
  intro y e he hnot hy
  rw [same, layout_append, layout_cons, List.mem_append, List.mem_cons, start] at he
  rcases he with he | he | he
  · have hbounds := layout_bounds he
    have hbefore : (y, e) ∈ layout ChunkHeader.size m.firstChunk (pre ++ c :: suf) := by
      rw [layout_append]
      exact List.mem_append_left _ he
    rcases moves with rfl | ⟨hplace, hlt⟩
    · have hbehind := ahead y e hbefore hnot hy
      have hpos := (tiles.bounds hbefore).2.2.2.1
      omega
    · omega
  · obtain ⟨rfl, rfl⟩ := Prod.mk.inj he
    exact absurd hy (past hnot)
  · exact (layout_bounds he).1

/-- The loop of `malloc` over the chunks: it ends, at a chunk that is large enough or at the end of the
list, or it halts at a page that it cannot take back.  The measure is the number of chunks from the
cursor on, twice, with one more while the search remembers the chunk before. -/
theorem search_spec {quiet : Prop} (tiles : Tiles B m (pre ++ c :: suf)) (wf : m.pages.Wf)
    (frames : m.pages.frames = none ∨ Wrapped m (pre ++ c :: suf))
    (hquiet : quiet → Wrapped m (pre ++ c :: suf)) (first : FirstAt m.pages next)
    (cursor : Cursor realsize quiet m pre c other)
    (start : m.firstChunk + span ChunkHeader.size pre = x) (ahead : Ahead m (pre ++ c :: suf) x next) :
    Run.Sat (search realsize fuel m x other next)
      (fun r => ∃ cs', SearchSteps (m, pre ++ c :: suf) (r.1, cs') ∧
        Ended realsize quiet r.1 cs' r.2)
      (Stopped m (pre ++ c :: suf)) (fuel < 2 * (1 + suf.length) + other.toList.length) := by
  induction fuel generalizing m pre c suf other next x with
  | zero => exact Run.sat_running (by omega)
  | succ fuel ih =>
    have hheader : m.header x = c ∧ c.magic = MAGIC := by
      rw [← start]
      exact tiles.at
    have hmem : (x, c) ∈ layout ChunkHeader.size m.firstChunk (pre ++ c :: suf) := by
      rw [← start]
      exact mem_layout _ _ _ _
    obtain ⟨-, hle, -, hpos, -⟩ := tiles.bounds hmem
    have hlt : x < m.endOfChunks := by omega
    by_cases hfit : c.used = true ∨ c.size < realsize
    case neg =>
      rw [search_fits hheader.1 hfit]
      obtain ⟨hfree, hsize⟩ := not_or.1 hfit
      exact Run.sat_done ⟨_, .refl, pre, c, suf, rfl, start.symm, by simpa using hfree,
        not_lt.1 hsize⟩
    case pos =>
      cases hother : m.freeBefore other x with
      | some a =>
        rw [search_merges hheader.1 hheader.2 hpos hfit hother]
        obtain ⟨rfl, l, o, rfl, hstart, hplace, hofree, hcfree, hcursor⟩ :=
          cursor.merge tiles start hheader.1 hlt hother
        have hstep : SearchStep (m, l ++ [o] ++ c :: suf)
            (m.mergeInto a x, l ++ o.enlarge c.size :: suf) := by
          rw [← hplace, show l ++ [o] ++ c :: suf = l ++ o :: c :: suf by simp]
          exact SearchStep.merge hstart hofree hcfree
        have hfields := hstep.fields
        have hahead : Ahead (m.mergeInto a x) (l ++ o.enlarge c.size :: suf) a next := by
          have hold : Ahead m (l ++ o :: c :: suf) x next := by simpa using ahead
          rw [← hplace] at hold ⊢
          exact hold.merge hstart
        refine (ih (hstep.tiles tiles) (hfields.2.2.2.2 wf)
          (frames.imp hfields.2.2.2.1 fun w => (hstep.wrapped w).1)
          (fun q => (hstep.wrapped (hquiet q)).1) first hcursor hstart hahead).mono ?_ ?_ ?_
        · rintro ⟨m'', found⟩ ⟨cs', hsteps, hended⟩
          exact ⟨cs', .head hstep hsteps, hended⟩
        · exact fun s => Stopped.after (.single hstep)
        · simp only [Option.toList_none, Option.toList_some, List.length_nil, List.length_singleton]
          omega
      | none =>
        have hcoal := cursor.pass tiles hheader.1 hlt hother
        rw [search_passes hheader.1 hheader.2 hpos hfit hother]
        refine Run.Sat.bind (reclaim_spec tiles wf frames start first).enough ?_
        intro r hr
        obtain ⟨c₁, hsteps, hsize, hfirst, hsame, hpast, hnext⟩ := hr
        obtain ⟨m₁, next₁⟩ := r
        dsimp only at hsteps
        have hfields := hsteps.fields
        obtain ⟨tiles₁, hstart₁, hheader₁⟩ := SearchSteps.at hsteps tiles start
        have hreach := tiles₁.reach
        simp only [span_append, span_cons] at hreach
        have hpassed : quiet → NoFit realsize (pre ++ [c₁]) := by
          intro q d hd
          rw [hsame (hquiet q), List.mem_append, List.mem_singleton] at hd
          rcases hd with hd | rfl
          · exact cursor.noFit q d hd
          · exact hfit
        have hcoal₁ : quiet → Coalesced (pre ++ [c₁]) := fun q => by
          rw [hsame (hquiet q)]
          exact hcoal q
        have hahead := ahead.pass tiles start hfields.1 hsize hpast hnext
        dsimp only
        rw [hheader₁]
        by_cases hsuf : suf = []
        · subst hsuf
          rw [if_pos (by rw [span_nil] at hreach; omega)]
          refine Run.sat_done ⟨_, hsteps, pre, c₁, rfl, hstart₁.symm, fun y e page he hnot hfirst' hy => ?_,
            fun q => ⟨hcoal₁ q, hpassed q⟩⟩
          obtain ⟨page', hpage', heq⟩ := hfirst
          obtain rfl := hpage'.unique hfirst'
          have hbounds := tiles₁.bounds he
          have hbehind := hahead y e he hnot (hy.trans heq.symm)
          rw [span_nil] at hreach
          omega
        · obtain ⟨d, ds, rfl⟩ := List.exists_cons_of_ne_nil hsuf
          have hlast := tiles₁.sized.last_le d (by simp)
          have hB := B.last_pos
          rw [span_cons] at hreach
          rw [if_neg (by omega), if_neg (by omega)]
          have hlist : (pre ++ [c₁]) ++ d :: ds = pre ++ c₁ :: d :: ds := by simp
          have hcursor : Cursor realsize quiet m₁ (pre ++ [c₁]) d (some x) :=
            ⟨fun a ha => ⟨pre, c₁, rfl, hstart₁.trans (Option.some.inj ha)⟩, hcoal₁, hpassed,
              fun _ h => (by cases h)⟩
          have hwrapped : Wrapped m (pre ++ c :: d :: ds) → Wrapped m₁ ((pre ++ [c₁]) ++ d :: ds) := by
            intro w
            rw [hlist]
            exact (SearchSteps.wrapped hsteps w).1
          refine (ih (hlist ▸ tiles₁) (hfields.2.2.2.2 wf) (frames.imp hfields.2.2.2.1 hwrapped)
            (fun q => hwrapped (hquiet q)) hfirst hcursor (by simp [← hstart₁, Nat.add_assoc])
            (hlist ▸ hahead)).mono ?_ ?_ ?_
          · rintro ⟨m'', found⟩ ⟨cs', hsteps', hended⟩
            rw [hlist] at hsteps'
            exact ⟨cs', hsteps.trans hsteps', hended⟩
          · intro s hs
            rw [hlist] at hs
            exact hs.after hsteps
          · simp only [Option.toList_some, List.length_cons, List.length_nil]
            omega

theorem Cursor.start {quiet : Prop} (realsize : ℕ) (m : Malloc) (c : ChunkHeader) :
    Cursor realsize quiet m [] c none where
  before := fun _ h => by cases h
  coalesced := fun _ => List.isChain_nil
  noFit := fun _ _ h => by cases h
  fresh := fun _ _ => List.isChain_singleton c

theorem search_whole (quiet : Prop) (realsize fuel : ℕ) (tiles : Tiles B m cs) (ne : cs ≠ []) (wf : m.pages.Wf)
    (frames : m.pages.frames = none ∨ Wrapped m cs) (hquiet : quiet → Wrapped m cs)
    (first : FirstAt m.pages next) :
    Run.Sat (search realsize fuel m m.firstChunk none next)
      (fun r => ∃ cs', SearchSteps (m, cs) (r.1, cs') ∧ Ended realsize quiet r.1 cs' r.2)
      (Stopped m cs) (fuel < 2 * cs.length) := by
  obtain ⟨c, suf, rfl⟩ := List.exists_cons_of_ne_nil ne
  have hspec : Run.Sat (search realsize fuel m m.firstChunk none next) _ _ _ :=
    search_spec tiles wf frames hquiet first (Cursor.start realsize m c) rfl
      fun y e he _ _ => (layout_bounds he).1
  refine hspec.mono (fun _ h => h) (fun _ h => h) fun h => ?_
  rw [List.length_cons]
  simp only [Option.toList_none, List.length_nil] at h
  omega

end Loop

/-! ## Taking a chunk -/

/-- What a free chunk becomes when `malloc` takes it. -/
def split (c : ChunkHeader) (realsize : ℕ) : List ChunkHeader :=
  if MALLOC_MINSIZE ≤ c.size - realsize then
    [{ c with size := realsize, used := true }, ⟨c.size - realsize, MAGIC, false, false⟩]
  else [{ c with used := true }]

section Take

variable {B : MinSizes} {m : Malloc} {pre suf : List ChunkHeader} {c : ChunkHeader}
  {x realsize : ℕ} {P : ChunkHeader → Prop}

theorem sub64_of_le {a b : ℕ} (le : b ≤ a) (lt : a < 2 ^ 64) : sub64 a b = a - b := by
  unfold sub64
  rw [show a + 2 ^ 64 - b = a - b + 2 ^ 64 by omega, Nat.add_mod_right, Nat.mod_eq_of_lt (by omega)]

theorem span_split (fits : realsize ≤ c.size) :
    span ChunkHeader.size (split c realsize) = c.size := by
  unfold split
  split_ifs with h
  · simp only [span_cons, span_nil]
    omega
  · simp only [span_cons, span_nil]
    omega

theorem split_ne_nil : split c realsize ≠ [] := by
  unfold split
  split_ifs <;> simp

theorem split_size_le (fits : realsize ≤ c.size) (min : MALLOC_MINSIZE ≤ realsize) :
    ∀ d ∈ split c realsize, MALLOC_MINSIZE ≤ d.size := by
  intro d hd
  unfold split at hd
  split_ifs at hd with h
  · rw [List.mem_cons, List.mem_singleton] at hd
    rcases hd with rfl | rfl
    · exact min
    · exact h
  · rw [List.mem_singleton] at hd
    subst hd
    exact min.trans fits

/-- The block that is handed out is the first part of the chunk. -/
theorem split_head (fits : realsize ≤ c.size) :
    ∃ d rest, split c realsize = d :: rest ∧ d.used = true ∧ d.notOurs = c.notOurs ∧
      realsize ≤ d.size := by
  unfold split
  split_ifs with h
  · exact ⟨_, _, rfl, rfl, rfl, le_rfl⟩
  · exact ⟨_, _, rfl, rfl, rfl, fits⟩

theorem take_split (header : m.header x = c) (fits : realsize ≤ c.size) (size : c.size < 2 ^ 48)
    (magic : c.magic = MAGIC) (min : MALLOC_MINSIZE ≤ realsize)
    (large : MALLOC_MINSIZE ≤ c.size - realsize) :
    m.take x realsize = ((m.putHeader x { c with used := true }).putHeader (x + realsize)
      ⟨c.size - realsize, MAGIC, false, false⟩).putHeader x
        { c with size := realsize, used := true } := by
  have hmin : HEADER_SIZE ≤ MALLOC_MINSIZE := by decide
  unfold take
  dsimp only
  rw [header, sub64_of_le fits (by omega), if_pos large, header_putHeader_ne (by omega),
    header_putHeader (h := { c with used := true }) size magic]

theorem take_whole (header : m.header x = c) (fits : realsize ≤ c.size) (size : c.size < 2 ^ 48)
    (small : ¬MALLOC_MINSIZE ≤ c.size - realsize) :
    m.take x realsize = m.putHeader x { c with used := true } := by
  unfold take
  dsimp only
  rw [header, sub64_of_le fits (by omega), if_neg small]

/-- `take` splits the chunk, and writes in it only. -/
theorem take_edit (tiles : Tiles B m (pre ++ c :: suf))
    (start : m.firstChunk + span ChunkHeader.size pre = x) (fits : realsize ≤ c.size)
    (min : MALLOC_MINSIZE ≤ realsize) :
    Edit m (m.take x realsize) pre [c] (split c realsize) suf x (x + c.size) ∧
      Tiles B (m.take x realsize) (pre ++ split c realsize ++ suf) ∧
      SameEnds m (m.take x realsize) ∧ (m.take x realsize).totalMemUsed = m.totalMemUsed ∧
      (m.take x realsize).totalMemAllocated = m.totalMemAllocated := by
  have hat : m.header x = c ∧ c.magic = MAGIC := by
    rw [← start]
    exact tiles.at
  have hmem : (x, c) ∈ layout ChunkHeader.size m.firstChunk (pre ++ c :: suf) := by
    rw [← start]
    exact mem_layout _ _ _ _
  obtain ⟨-, -, -, -, hsize⟩ := tiles.bounds hmem
  have hmin : HEADER_SIZE ≤ MALLOC_MINSIZE := by decide
  have tiles' : Tiles B m (pre ++ [c] ++ suf) := by simpa using tiles
  have hspan : span ChunkHeader.size (split c realsize) = span ChunkHeader.size [c] := by
    rw [span_split fits, span_cons, span_nil, Nat.add_zero]
  have hsized : Sized B (pre ++ split c realsize ++ suf) := by
    have hold := sized_append_cons.1 tiles.sized
    have hnew : ∀ d ∈ split c realsize, B.inner ≤ d.size := fun d hd =>
      B.inner_le.trans (split_size_le fits min d hd)
    by_cases hsuf : suf = []
    · subst hsuf
      rw [List.append_nil, sized_append split_ne_nil]
      exact ⟨hold.1, sized_of_inner hnew⟩
    · refine (sized_append hsuf).2 ⟨fun d hd => ?_, ((sized_cons hsuf).1 hold.2).2⟩
      rcases List.mem_append.1 hd with hd | hd
      · exact hold.1 d hd
      · exact hnew d hd
  by_cases hlarge : MALLOC_MINSIZE ≤ c.size - realsize
  · have heq := take_split hat.1 fits hsize hat.2 min hlarge
    have hsplit : split c realsize = [{ c with size := realsize, used := true },
        ⟨c.size - realsize, MAGIC, false, false⟩] := if_pos hlarge
    have edit : Edit m (m.take x realsize) pre [c] (split c realsize) suf x (x + c.size) := by
      rw [heq]
      refine Edit.inside start (by simp) hspan rfl rfl fun y hy => ?_
      rw [putHeader_mem (by omega), putHeader_mem (by omega), putHeader_mem (by omega)]
    refine ⟨edit, edit.tiles_inside tiles' (by simp) hspan (by rw [heq]; rfl) hsized ?_, ?_⟩
    · intro y d hd
      rw [hsplit, layout_cons, layout_cons, layout_nil, List.mem_cons, List.mem_singleton] at hd
      rw [heq]
      rcases hd with hd | hd
      · obtain ⟨rfl, rfl⟩ := Prod.mk.inj hd
        exact ⟨header_putHeader (by dsimp only; omega) hat.2, hat.2⟩
      · obtain ⟨rfl, rfl⟩ := Prod.mk.inj hd
        dsimp only
        rw [header_putHeader_ne (by omega)]
        exact ⟨header_putHeader (by dsimp only; omega) rfl, rfl⟩
    · rw [heq]
      exact ⟨⟨rfl, rfl, rfl, rfl⟩, rfl, rfl⟩
  · have heq := take_whole hat.1 fits hsize hlarge
    have hsplit : split c realsize = [{ c with used := true }] := if_neg hlarge
    have edit : Edit m (m.take x realsize) pre [c] (split c realsize) suf x (x + c.size) := by
      rw [heq, hsplit]
      exact Edit.put start rfl fun _ => by omega
    refine ⟨edit, edit.tiles_inside tiles' (by simp) hspan (by rw [heq]; rfl) hsized ?_, ?_⟩
    · intro y d hd
      rw [hsplit, layout_cons, layout_nil, List.mem_singleton] at hd
      obtain ⟨rfl, rfl⟩ := Prod.mk.inj hd
      rw [heq]
      exact ⟨header_putHeader hsize hat.2, hat.2⟩
    · rw [heq]
      exact ⟨⟨rfl, rfl, rfl, rfl⟩, rfl, rfl⟩

theorem handOut_eq (m : Malloc) (x realsize : ℕ) :
    m.handOut x realsize = (x + HEADER_SIZE,
      (m.take x realsize).addAllocated (((m.take x realsize).header x).size - HEADER_SIZE)) := by
  unfold handOut
  rfl

theorem handOut_mem {y : ℕ} (header : m.header x = c) (fits : realsize ≤ c.size)
    (size : c.size < 2 ^ 48) (magic : c.magic = MAGIC) (min : MALLOC_MINSIZE ≤ realsize)
    (apart : y < x ∨ x + c.size ≤ y) : (m.handOut x realsize).2.mem y = m.mem y := by
  have hmin : HEADER_SIZE ≤ MALLOC_MINSIZE := by decide
  have htake : (m.take x realsize).mem y = m.mem y := by
    by_cases hlarge : MALLOC_MINSIZE ≤ c.size - realsize
    · rw [take_split header fits size magic min hlarge, putHeader_mem (by omega),
        putHeader_mem (by omega), putHeader_mem (by omega)]
    · rw [take_whole header fits size hlarge, putHeader_mem (by omega)]
  have hmem : (m.handOut x realsize).2.mem = (m.take x realsize).mem := by
    rw [handOut_eq]
    exact addAllocated_mem
  rw [hmem, htake]

theorem addAllocated_spec {t : Malloc} {cs cs' : List ChunkHeader} {n : ℕ} (tiles : Tiles B t cs')
    (keeps : Keeps P m t cs cs' none) (same : SameEnds m t) :
    Tiles B (t.addAllocated n) cs' ∧ Keeps P m (t.addAllocated n) cs cs' none ∧
      SameEnds m (t.addAllocated n) :=
  ⟨tiles.congr rfl rfl rfl, keeps.trans (Keeps.congr rfl rfl),
    same.trans ⟨rfl, rfl, rfl, rfl⟩⟩

/-- What `malloc` does once it has a chunk: the list is the same but for that chunk, which is split,
and no used chunk is touched. -/
theorem handOut_spec (tiles : Tiles B m (pre ++ c :: suf))
    (start : m.firstChunk + span ChunkHeader.size pre = x) (free : c.used = false)
    (fits : realsize ≤ c.size) (min : MALLOC_MINSIZE ≤ realsize) :
    ∃ m' d rest, m.handOut x realsize = (x + HEADER_SIZE, m') ∧
      Tiles B m' (pre ++ split c realsize ++ suf) ∧
      Keeps (fun d => d.used = true) m m' (pre ++ c :: suf) (pre ++ split c realsize ++ suf) none ∧
      SameEnds m m' ∧ m'.totalMemUsed = m.totalMemUsed ∧
      m'.totalMemAllocated = m.totalMemAllocated + UInt64.ofNat (d.size - HEADER_SIZE) ∧
      split c realsize = d :: rest ∧ d.used = true ∧ d.notOurs = c.notOurs ∧ realsize ≤ d.size := by
  obtain ⟨edit, htiles, hsame, hmemUsed, hallocated⟩ := take_edit tiles start fits min
  obtain ⟨d, rest, hsplit, hused, hnot, hsize⟩ := split_head fits
  have hlist : pre ++ c :: suf = pre ++ [c] ++ suf := by simp
  have hkeeps : Keeps (fun d => d.used = true) m (m.take x realsize) (pre ++ c :: suf)
      (pre ++ split c realsize ++ suf) none := by
    rw [hlist]
    refine edit.keeps fun y e he hP _ => ?_
    rw [layout_cons, layout_nil, List.mem_singleton] at he
    obtain ⟨rfl, rfl⟩ := Prod.mk.inj he
    rw [free] at hP
    cases hP
  have hheader : (m.take x realsize).header x = d := by
    have htiles' := htiles
    rw [hsplit, List.append_assoc, List.cons_append] at htiles'
    have hat := (htiles'.at).1
    rwa [hsame.first, start] at hat
  obtain ⟨htiles₁, hkeeps₁, hsame₁⟩ := addAllocated_spec (n := d.size - HEADER_SIZE) htiles hkeeps
    hsame
  refine ⟨_, d, rest, ?_, htiles₁, hkeeps₁, hsame₁, ?_, ?_, hsplit, hused, hnot, hsize⟩
  · rw [handOut_eq, hheader]
  · rw [addAllocated_totalMemUsed, hmemUsed]
  · rw [addAllocated_totalMemAllocated, hallocated]

end Take

/-! ## A run of free chunks that is large enough -/

section Complete

variable {m : Malloc} {cs : List ChunkHeader} {size next fuel : ℕ} {pages : KernelPages}

theorem minsize_le_realsizeOf : MALLOC_MINSIZE ≤ realsizeOf size := le_max_right _ _

theorem header_add_le_realsizeOf : HEADER_SIZE + size ≤ realsizeOf size := le_max_left _ _

theorem reclaim_sat (m : Malloc) (next x : ℕ) :
    Run.Sat (m.reclaim x next) (fun r => r.1.endOfChunks = m.endOfChunks) (fun _ => True) False := by
  unfold reclaim
  dsimp only
  split_ifs with hhole hsize
  · exact Run.sat_halted trivial
  · cases m.pages.mapPage .heap next with
    | none => exact Run.sat_halted trivial
    | some r =>
      simp only [Run.ofOption_some, Run.done_bind]
      refine Run.Sat.bind (Run.sat_ofOption (fun _ _ => trivial) fun _ => trivial) fun r' _ => ?_
      refine Run.sat_done ?_
      show (if r.1 ≠ 0 then _ else _ : Malloc).endOfChunks = m.endOfChunks
      split_ifs <;> rfl
  · exact Run.sat_done rfl

theorem search_ends (tiles : Tiles headerSizes m cs) (wf : m.pages.Wf) (wrapped : Wrapped m cs)
    (first : FirstAt m.pages next) (enough : 2 * cs.length < fuel) (realsize : ℕ) :
    search realsize fuel m m.firstChunk none next ≠ .running := by
  by_cases hcs : cs = []
  · subst hcs
    obtain ⟨fuel, rfl⟩ : ∃ n, fuel = n + 1 := ⟨fuel - 1, by omega⟩
    have hreach := tiles.reach
    rw [span_nil, Nat.add_zero] at hreach
    rw [search]
    dsimp only
    split_ifs with hsmall hbad
    · exact nofun
    · rw [freeBefore_none]
      dsimp only
      have hsat := reclaim_sat m next m.firstChunk
      cases hreclaim : m.reclaim m.firstChunk next with
      | running =>
        rw [hreclaim, Run.sat_running_iff] at hsat
        exact hsat.elim
      | halted s => exact nofun
      | done r =>
        rw [hreclaim, Run.sat_done_iff] at hsat
        rw [Run.done_bind]
        split_ifs with hend hbeyond
        · exact nofun
        · exact nofun
        · omega
    · exact nofun
  · intro hrunning
    have hsat := search_whole True realsize fuel tiles hcs wf (Or.inr wrapped)
      (fun _ => wrapped) first
    rw [hrunning, Run.sat_running_iff] at hsat
    omega

theorem search_finds {realsize : ℕ} (tiles : Tiles headerSizes m cs) (wf : m.pages.Wf)
    (wrapped : Wrapped m cs) (first : FirstAt m.pages next) (enough : 2 * cs.length < fuel)
    (pos : 0 < realsize) (run : realsize ≤ bestRun cs) :
    ∃ m' pre c suf, search realsize fuel m m.firstChunk none next =
        .done (m', .chunk (m'.firstChunk + span ChunkHeader.size pre)) ∧
      SearchSteps (m, cs) (m', pre ++ c :: suf) ∧ c.used = false ∧ realsize ≤ c.size := by
  have hcs : cs ≠ [] := by
    rintro rfl
    exact absurd run (not_le.2 pos)
  have hsat := search_whole True realsize fuel tiles hcs wf (Or.inr wrapped) (fun _ => wrapped) first
  cases hsearch : search realsize fuel m m.firstChunk none next with
  | running =>
    rw [hsearch, Run.sat_running_iff] at hsat
    omega
  | halted s =>
    exact absurd wrapped (hsat.of_halted hsearch).1
  | done r =>
    rw [hsearch, Run.sat_done_iff] at hsat
    obtain ⟨m', found⟩ := r
    obtain ⟨cs', hsteps, hended⟩ := hsat
    cases found with
    | chunk x =>
      obtain ⟨pre, c, suf, rfl, hx, hfree, hfits⟩ := hended
      exact ⟨m', pre, c, suf, hx ▸ rfl, hsteps, hfree, hfits⟩
    | atEnd o =>
      obtain ⟨pre, c, rfl, -, -, hquiet⟩ := hended
      obtain ⟨hcoal, hnone⟩ := hquiet trivial
      have hbest := (bestRun_lt hcoal hnone pos).1
      rw [(SearchSteps.wrapped hsteps wrapped).2.2.2.1] at hbest
      exact absurd run (not_le.2 hbest)

/-- The search of `malloc` ends; and when a run of neighbouring free chunks is large enough, `malloc`
returns a block inside the heap as it is, once `getUnmappedVAddr` returns. -/
theorem malloc_of_run (tiles : Tiles headerSizes m cs) (wf : m.pages.Wf)
    (ready : m.mallocReady = true) (wrapped : Wrapped m cs) (pos : 1 ≤ size) (le : size ≤ 2 ^ 32)
    (look : m.pages.getUnmappedVAddr = some (next, pages)) (enough : 2 * cs.length < fuel) :
    search (realsizeOf size) fuel { m with pages := pages } m.firstChunk none next ≠ .running ∧
      ∀ pre run suf, cs = pre ++ run ++ suf → (∀ c ∈ run, c.used = false) →
        realsizeOf size ≤ span ChunkHeader.size run →
        ∃ x m' cs', m.malloc fuel size = .done (x + HEADER_SIZE, m') ∧
          Tiles headerSizes m' cs' ∧ m'.firstChunk = m.firstChunk ∧
          m'.endOfChunks = m.endOfChunks ∧ m'.pages.owner = m.pages.owner ∧
          Keeps (fun c => c.used = true) m m' cs cs' none ∧
          ∃ d, (x, d) ∈ layout ChunkHeader.size m'.firstChunk cs' ∧ d.used = true ∧
            HEADER_SIZE + size ≤ d.size := by
  obtain ⟨page, first, rfl, -, same, -, -, wf'⟩ := getUnmappedVAddr_some wf look
  have hlook : SearchStep (m, cs) ({ m with pages := pages }, cs) := .look same wf'
  have tiles₁ := hlook.tiles tiles
  have wrapped₁ := (hlook.wrapped wrapped).1
  have first₁ : FirstAt pages (page * PAGESIZE) := ⟨page, first.congr same.owner, rfl⟩
  refine ⟨search_ends tiles₁ wf' wrapped₁ first₁ enough _, ?_⟩
  rintro pre run suf rfl hfree hfits
  have hmin : 0 < realsizeOf size := lt_of_lt_of_le (by decide) minsize_le_realsizeOf
  obtain ⟨m₂, pre', c, suf', hsearch, hsteps, hcfree, hcfits⟩ :=
    search_finds tiles₁ wf' wrapped₁ first₁ enough hmin (hfits.trans (span_le_bestRun hfree))
  have hall := Relation.ReflTransGen.head hlook hsteps
  have tiles₂ : Tiles headerSizes m₂ (pre' ++ c :: suf') := SearchSteps.tiles hall tiles
  have hfields := SearchSteps.fields hall
  obtain ⟨m₃, d, rest, hout, htiles, hkeeps, hends, -, -, hsplit, hused, -, hsize⟩ :=
    handOut_spec tiles₂ rfl hcfree hcfits minsize_le_realsizeOf
  refine ⟨m₂.firstChunk + span ChunkHeader.size pre', m₃, _, ?_, htiles,
    hends.first.trans hfields.1, hends.last.trans hfields.2.1, ?_,
    (SearchSteps.keeps_used hall tiles wrapped).trans hkeeps, d, ?_, hused,
    header_add_le_realsizeOf.trans hsize⟩
  · unfold malloc findChunk findChunkFor
    rw [if_neg (by simp [ready]; omega), look]
    simp only [Run.ofOption_some, Run.done_bind]
    rw [hsearch]
    simp only [Run.done_bind]
    rw [hout]
  · rw [hends.pages, (SearchSteps.wrapped hall wrapped).2.1]
  · rw [hends.first, hsplit, List.append_assoc, List.cons_append]
    exact mem_layout _ _ _ _

/-- A block, two free chunks that are neighbours, and a block. -/
def holedChunks : List ChunkHeader :=
  [⟨1000, MAGIC, true, false⟩, ⟨1000, MAGIC, false, false⟩, ⟨1000, MAGIC, false, false⟩,
    ⟨1088, MAGIC, true, false⟩]

/-- The two are merged for a request that neither of them has the room for. -/
theorem malloc_of_run_holed : ∃ x m', (heapOf (bootPages 258) holedChunks).malloc 9 1500 =
    .done (x + HEADER_SIZE, m') ∧ m'.endOfChunks = (heapOf (bootPages 258) holedChunks).endOfChunks := by
  have hwf : (bootPages 258).Wf := bootPages_wf (by decide)
  have hfirst : (bootPages 258).First 258 := bootPages_first (by decide) (by decide)
  obtain ⟨pages, hlook⟩ := getUnmappedVAddr_of_dir hwf rfl hfirst (bootPages_dir (by decide))
  have htiles : Tiles headerSizes (heapOf (bootPages 258) holedChunks) holedChunks := by decide +kernel
  have hwrapped : Wrapped (heapOf (bootPages 258) holedChunks) holedChunks := by decide +kernel
  obtain ⟨x, m', cs', hmalloc, -, -, hend, -⟩ :=
    (malloc_of_run htiles hwf rfl hwrapped (by decide) (by decide : 1500 ≤ 2 ^ 32) hlook
      (by decide : 2 * 4 < 9)).2 [⟨1000, MAGIC, true, false⟩]
      [⟨1000, MAGIC, false, false⟩, ⟨1000, MAGIC, false, false⟩] [⟨1088, MAGIC, true, false⟩] rfl
      (by simp) (by decide)
  exact ⟨x, m', hmalloc, hend⟩

/-- The kernel's pages with the first page directory full, and one page of it the heap's. -/
def fullPages : KernelPages where
  owner page := if page = 257 then some .heap else if page < 2 ^ 18 then some .boot else none
  tables table := table < 512
  dirs dir := dir = 0
  frames := none

/-- A heap of one free chunk when there is no unmapped page behind the page tables that there are. -/
def fullHeap : Malloc :=
  let m : Malloc := ⟨fun _ => 0, fullPages, 257 * PAGESIZE, 257 * PAGESIZE + PAGESIZE - HEADER_SIZE,
    UInt64.ofNat PAGESIZE, 0, true⟩
  m.putHeader m.firstChunk ⟨PAGESIZE - HEADER_SIZE, MAGIC, false, false⟩

/-- `malloc` halts in `getUnmappedVAddr` although the first chunk is free and large enough. -/
theorem malloc_halts_full : ∃ m cs, Tiles headerSizes m cs ∧ m.pages.Wf ∧ m.mallocReady = true ∧
    Wrapped m cs ∧ (∀ c ∈ cs, c.used = false) ∧ realsizeOf 100 ≤ span ChunkHeader.size cs ∧
      ∀ fuel, ∃ s, m.malloc fuel 100 = .halted s := by
  have hwf : fullPages.Wf := by
    refine ⟨fun page h => ?_, fun page h => ?_, fun table h => ?_⟩
    · unfold fullPages at h
      unfold END_OF_PAGES
      dsimp only at h
      split_ifs at h <;> first | omega | exact absurd rfl h
    · refine decide_eq_true ?_
      unfold fullPages at h
      dsimp only at h
      split_ifs at h <;> first | omega | exact absurd rfl h
    · have hlt : table < 512 := of_decide_eq_true h
      exact decide_eq_true (by omega)
  have hfirst : fullPages.First (2 ^ 18) := by
    refine ⟨by decide, by decide, by decide, fun q _ hlt => ?_⟩
    unfold fullPages
    dsimp only
    rw [if_pos hlt]
    split_ifs <;> exact Option.some_ne_none _
  have hlook : fullPages.getUnmappedVAddr = none := by
    rw [getUnmappedVAddr_eq hwf hfirst]
    exact if_neg (by decide)
  refine ⟨fullHeap, [⟨PAGESIZE - HEADER_SIZE, MAGIC, false, false⟩],
    one_chunk_tiles (by decide) (by decide) rfl (by decide), hwf, rfl, ?_, by simp, by decide,
    fun fuel => ⟨fullHeap, ?_⟩⟩
  · intro x c page hc hnot
    rw [layout_cons, layout_nil, List.mem_singleton] at hc
    obtain ⟨rfl, rfl⟩ := Prod.mk.inj hc
    cases hnot
  · unfold malloc findChunk findChunkFor
    rw [if_neg (by decide), show fullHeap.pages = fullPages from rfl, hlook]
    rfl

end Complete

end Malloc
