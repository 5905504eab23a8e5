import SepplesOS.Lib.Fuel
import SepplesOS.Mm.Growth

/-!
# `malloc` as a whole

`Swept` says what the search of `malloc` leaves of the pages and of the chunks that are not ours: it
takes back single wrapped pages that have been unmapped, and nothing else.  `Grows` is the condition
under which the growth behind the last chunk keeps the heap well-formed, and `malloc_spec` puts the
search, the growth and the handing out of a chunk together.
-/

namespace Malloc

open Tiling KernelPages

/-! ## What the chunks hold -/

/-- The bytes handed out in the chunks of a list that are ours. -/
def allocatedOf (cs : List ChunkHeader) : ℕ :=
  (cs.map fun c => if c.used = true ∧ c.notOurs = false then c.size - HEADER_SIZE else 0).sum

/-- Used chunks are not smaller than the ones with a chunk behind them. -/
def UsedSized (B : MinSizes) (cs : List ChunkHeader) : Prop :=
  ∀ c ∈ cs, c.used = true → B.inner ≤ c.size

@[simp] theorem allocatedOf_nil : allocatedOf [] = 0 := rfl

@[simp] theorem allocatedOf_cons (c : ChunkHeader) (cs : List ChunkHeader) :
    allocatedOf (c :: cs) =
      (if c.used = true ∧ c.notOurs = false then c.size - HEADER_SIZE else 0) + allocatedOf cs := by
  simp [allocatedOf]

@[simp] theorem allocatedOf_append (cs ds : List ChunkHeader) :
    allocatedOf (cs ++ ds) = allocatedOf cs + allocatedOf ds := by
  simp [allocatedOf]

theorem usedSized_cons {B : MinSizes} {c : ChunkHeader} {cs : List ChunkHeader} :
    UsedSized B (c :: cs) ↔ (c.used = true → B.inner ≤ c.size) ∧ UsedSized B cs :=
  List.forall_mem_cons

theorem usedSized_append {B : MinSizes} {cs ds : List ChunkHeader} :
    UsedSized B (cs ++ ds) ↔ UsedSized B cs ∧ UsedSized B ds :=
  List.forall_mem_append

/-! ## What the search does to wrapped pages -/

/-- A page that is wrapped in a chunk of its own. -/
def Single (m : Malloc) (cs : List ChunkHeader) (page : ℕ) : Prop :=
  ∃ x c, (x, c) ∈ layout ChunkHeader.size m.firstChunk cs ∧ c.notOurs = true ∧
    c.size = PAGESIZE + HEADER_SIZE ∧ x + HEADER_SIZE = page * PAGESIZE

/-- What a search leaves of the pages, of the chunks that are not ours, of the last chunk and of the
statistics. -/
structure Swept (B : MinSizes) (s t : Malloc × List ChunkHeader) : Prop where
  owner : ∀ page, t.1.pages.owner page = s.1.pages.owner page ∨
    s.1.pages.owner page = none ∧ t.1.pages.owner page = some .heap ∧ Single s.1 s.2 page
  dirs : ∀ dir, s.1.pages.dirs dir = true → t.1.pages.dirs dir = true
  wraps : ∀ x c, (x, c) ∈ layout ChunkHeader.size t.1.firstChunk t.2 → c.notOurs = true →
    (x, c) ∈ layout ChunkHeader.size s.1.firstChunk s.2
  kept : ∀ x c, (x, c) ∈ layout ChunkHeader.size s.1.firstChunk s.2 → c.notOurs = true →
    (x, c) ∈ layout ChunkHeader.size t.1.firstChunk t.2 ∨ c.size = PAGESIZE + HEADER_SIZE ∧
      ∃ page, x + HEADER_SIZE = page * PAGESIZE ∧ s.1.pages.owner page = none ∧
        t.1.pages.owner page = some .heap
  last : ∀ pre c, s.2 = pre ++ [c] → ∃ pre' c', t.2 = pre' ++ [c'] ∧ (c' = c ∨
    c.used = false ∧ c'.used = false ∧ c.size ≤ c'.size ∧ B.inner ≤ c'.size)
  sized : UsedSized B s.2 → UsedSized B t.2
  handed : allocatedOf t.2 = allocatedOf s.2
  used : t.1.totalMemUsed = s.1.totalMemUsed
  allocated : t.1.totalMemAllocated = s.1.totalMemAllocated

section Swept

variable {B : MinSizes} {m m' : Malloc} {s t u : Malloc × List ChunkHeader}
  {pre suf cs : List ChunkHeader} {c : ChunkHeader} {x page : ℕ}

theorem Swept.refl (B : MinSizes) (s : Malloc × List ChunkHeader) : Swept B s s where
  owner := fun _ => Or.inl rfl
  dirs := fun _ => id
  wraps := fun _ _ hc _ => hc
  kept := fun _ _ hc _ => Or.inl hc
  last := fun pre c hlist => ⟨pre, c, hlist, Or.inl rfl⟩
  sized := id
  handed := rfl
  used := rfl
  allocated := rfl

theorem Swept.trans (first : Swept B s t) (second : Swept B t u) : Swept B s u := by
  constructor
  case owner =>
    intro page
    rcases second.owner page with hsame | ⟨hnone, hheap, x, c, hc, hnot, hsize, hplace⟩
    · rw [hsame]
      exact first.owner page
    · rcases first.owner page with hsame' | ⟨hnone', -, hsingle⟩
      · exact Or.inr ⟨hsame' ▸ hnone, hheap, x, c, first.wraps x c hc hnot, hnot, hsize, hplace⟩
      · exact Or.inr ⟨hnone', hheap, hsingle⟩
  case dirs => exact fun dir hdir => second.dirs dir (first.dirs dir hdir)
  case wraps => exact fun x c hc hnot => first.wraps x c (second.wraps x c hc hnot) hnot
  case kept =>
    intro x c hc hnot
    rcases first.kept x c hc hnot with hc' | ⟨hsize, page, hplace, hnone, hheap⟩
    · rcases second.kept x c hc' hnot with hc'' | ⟨hsize, page, hplace, hnone, hheap⟩
      · exact Or.inl hc''
      · refine Or.inr ⟨hsize, page, hplace, ?_, hheap⟩
        rcases first.owner page with hsame | ⟨hnone', -⟩
        · exact hsame ▸ hnone
        · exact hnone'
    · refine Or.inr ⟨hsize, page, hplace, hnone, ?_⟩
      rcases second.owner page with hsame | ⟨hnone', -⟩
      · exact hsame.trans hheap
      · rw [hheap] at hnone'
        cases hnone'
  case last =>
    intro pre c hlist
    obtain ⟨pre', c', hlist', hlast⟩ := first.last pre c hlist
    obtain ⟨pre'', c'', hlist'', hlast'⟩ := second.last pre' c' hlist'
    refine ⟨pre'', c'', hlist'', ?_⟩
    rcases hlast' with rfl | ⟨hfree, hfree', hsize, hinner⟩
    · exact hlast
    · rcases hlast with rfl | ⟨hfree₁, -, hsize₁, -⟩
      · exact Or.inr ⟨hfree, hfree', hsize, hinner⟩
      · exact Or.inr ⟨hfree₁, hfree', hsize₁.trans hsize, hinner⟩
  case sized => exact second.sized ∘ first.sized
  case handed => exact second.handed.trans first.handed
  case used => exact second.used.trans first.used
  case allocated => exact second.allocated.trans first.allocated

theorem mem_layout_append_cons {F y : ℕ} {e : ChunkHeader} :
    (y, e) ∈ layout ChunkHeader.size F (pre ++ c :: suf) ↔
      (y, e) ∈ layout ChunkHeader.size F pre ∨ (y, e) = (F + span ChunkHeader.size pre, c) ∨
        (y, e) ∈ layout ChunkHeader.size (F + span ChunkHeader.size pre + c.size) suf := by
  rw [layout_append, layout_cons, List.mem_append, List.mem_cons]

theorem SearchStep.swept (step : SearchStep s t) (h : WellFormed B s.1 s.2) : Swept B s t := by
  cases step with
  | @merge m pre suf o c a start free free' =>
    have hodd := h.free_ours (mem_layout_of m pre o (c :: suf)) free
    have hevn : c.notOurs = false := by
      refine h.free_ours (x := m.firstChunk + span ChunkHeader.size pre + o.size) ?_ free'
      rw [mem_layout_append_cons, layout_cons]
      exact Or.inr (Or.inr List.mem_cons_self)
    refine ⟨fun _ => Or.inl rfl, fun _ => id, fun x e he hnot => ?_, fun x e he hnot => Or.inl ?_,
      fun pre' d hlist => ?_, fun hsized => ?_, ?_, rfl, rfl⟩
    · change (x, e) ∈ layout ChunkHeader.size m.firstChunk (pre ++ o.enlarge c.size :: suf) at he
      dsimp only
      rw [mem_layout_append_cons, ChunkHeader.enlarge_size, ← Nat.add_assoc] at he
      rw [mem_layout_append_cons, layout_cons, List.mem_cons]
      rcases he with he | he | he
      · exact Or.inl he
      · obtain ⟨-, rfl⟩ := Prod.mk.inj he
        rw [ChunkHeader.enlarge_notOurs, hodd] at hnot
        cases hnot
      · exact Or.inr (Or.inr (Or.inr he))
    · show (x, e) ∈ layout ChunkHeader.size m.firstChunk (pre ++ o.enlarge c.size :: suf)
      dsimp only at he
      rw [mem_layout_append_cons, layout_cons, List.mem_cons] at he
      rw [mem_layout_append_cons, ChunkHeader.enlarge_size, ← Nat.add_assoc]
      rcases he with he | he | he | he
      · exact Or.inl he
      · obtain ⟨-, rfl⟩ := Prod.mk.inj he
        rw [hodd] at hnot
        cases hnot
      · obtain ⟨-, rfl⟩ := Prod.mk.inj he
        rw [hevn] at hnot
        cases hnot
      · exact Or.inr (Or.inr he)
    · by_cases hsuf : suf = []
      · subst hsuf
        dsimp only at hlist ⊢
        rw [show pre ++ [o, c] = (pre ++ [o]) ++ [c] by simp] at hlist
        obtain ⟨-, hd⟩ := List.append_inj' hlist rfl
        obtain rfl := List.cons.inj hd |>.1
        have hinner := (sized_append_cons.1 h.tiles.sized).2.1
        exact ⟨pre, _, rfl, Or.inr ⟨free', free, Nat.le_add_left _ _,
          hinner.trans (Nat.le_add_right _ _)⟩⟩
      · obtain ⟨l, e, rfl⟩ : ∃ l e, suf = l ++ [e] :=
          ⟨_, _, (List.dropLast_concat_getLast hsuf).symm⟩
        dsimp only at hlist ⊢
        rw [show pre ++ o :: c :: (l ++ [e]) = (pre ++ o :: c :: l) ++ [e] by simp] at hlist
        obtain ⟨-, hd⟩ := List.append_inj' hlist rfl
        obtain rfl := List.cons.inj hd |>.1
        exact ⟨pre ++ o.enlarge c.size :: l, e, by simp, Or.inl rfl⟩
    · dsimp only at hsized ⊢
      rw [usedSized_append, usedSized_cons, usedSized_cons] at hsized
      rw [usedSized_append, usedSized_cons]
      exact ⟨hsized.1, fun hused => by simp [free] at hused, hsized.2.2.2⟩
    · simp [free, free']
  | @reclaim m pre suf c a page pages start notOurs size place maps wf =>
    have hmem := mem_layout_of m pre c suf
    rw [start] at hmem
    have hheap : pages.owner page = some .heap := by
      rw [maps.owner, Function.update_self]
    refine ⟨fun q => ?_, maps.dirs, fun x e he hnot => ?_, fun x e he hnot => ?_,
      fun pre' d hlist => ?_, fun hsized => ?_, ?_, rfl, rfl⟩
    · show pages.owner q = m.pages.owner q ∨ _
      by_cases hq : q = page
      · rw [hq]
        exact Or.inr ⟨maps.unmapped, hheap, a, c, hmem, notOurs, size, place⟩
      · rw [maps.owner, Function.update_of_ne hq]
        exact Or.inl rfl
    · change (x, e) ∈ layout ChunkHeader.size m.firstChunk _ at he
      dsimp only
      rw [mem_layout_append_cons] at he ⊢
      rcases he with he | he | he
      · exact Or.inl he
      · obtain ⟨-, rfl⟩ := Prod.mk.inj he
        cases hnot
      · exact Or.inr (Or.inr he)
    · show (x, e) ∈ layout ChunkHeader.size m.firstChunk _ ∨ _
      dsimp only at he
      rw [mem_layout_append_cons] at he ⊢
      rcases he with he | he | he
      · exact Or.inl (Or.inl he)
      · obtain ⟨rfl, rfl⟩ := Prod.mk.inj he
        rw [start]
        exact Or.inr ⟨size, page, place, maps.unmapped, hheap⟩
      · exact Or.inl (Or.inr (Or.inr he))
    · by_cases hsuf : suf = []
      · subst hsuf
        have hours := WellFormed.last_ours h
        rw [notOurs] at hours
        cases hours
      · obtain ⟨l, e, rfl⟩ : ∃ l e, suf = l ++ [e] :=
          ⟨_, _, (List.dropLast_concat_getLast hsuf).symm⟩
        dsimp only at hlist ⊢
        rw [show pre ++ c :: (l ++ [e]) = (pre ++ c :: l) ++ [e] by simp] at hlist
        obtain ⟨-, hd⟩ := List.append_inj' hlist rfl
        obtain rfl := List.cons.inj hd |>.1
        exact ⟨pre ++ { c with used := false, notOurs := false } :: l, e, by simp, Or.inl rfl⟩
    · dsimp only at hsized ⊢
      rw [usedSized_append, usedSized_cons] at hsized ⊢
      exact ⟨hsized.1, fun hused => (by cases hused), hsized.2.2⟩
    · simp [notOurs]
  | @look m cs pages same wf =>
    refine ⟨fun page => Or.inl (congrFun same.owner page), same.dirs, fun _ _ hc _ => hc,
      fun _ _ hc _ => Or.inl hc, fun pre c hlist => ⟨pre, c, hlist, Or.inl rfl⟩, id, rfl, rfl, rfl⟩

theorem SearchSteps.swept (steps : SearchSteps s t) (h : WellFormed B s.1 s.2) : Swept B s t := by
  induction steps with
  | refl => exact Swept.refl _ _
  | tail steps step ih => exact ih.trans (step.swept (h.search_steps steps))

end Swept

/-! ## What the growth needs -/

/-- The `n` pages from `p` on are not mapped. -/
structure Clear (pages : KernelPages) (p n : ℕ) : Prop where
  low : p + n ≤ END_OF_PAGES
  unmapped : ∀ i < n, pages.owner (p + i) = none

/-- The pages of others that begin `j` pages behind `p` and end before `q` can be wrapped, and the
whole request gets its pages behind them.  All pages below `q` but the first `j` behind `p` are mapped,
or will be taken back. -/
structure Passes (pages : KernelPages) (spare : ℕ → Prop) (p j q size : ℕ) : Prop where
  wraps : p + j < q
  dir : pages.dirs (q / 2 ^ 18) = true
  below : ∀ i, FREE_PAGES_START / PAGESIZE ≤ i → i < p → pages.owner i ≠ none ∨ spare i
  others : ∀ i, p + j ≤ i → i < q → pages.owner i ≠ none
  clear : Clear pages q (pagesFor (size + HEADER_SIZE))
  fits : size + 2 * HEADER_SIZE ≤ pagesFor (size + HEADER_SIZE) * PAGESIZE

/-- The growth keeps the heap well-formed: the pages that it needs behind the last chunk, which has `t`
free bytes, are not mapped; or they are up to pages of others that can be wrapped, and then the last
chunk is free or these pages begin right behind it. -/
def Grows (pages : KernelPages) (spare : ℕ → Prop) (inner p size t : ℕ) : Prop :=
  (t < size + HEADER_SIZE ∨ MALLOC_MINSIZE ≤ t) ∧
    (Clear pages p (pagesFor (size + HEADER_SIZE - t)) ∨
      ∃ j q, j < pagesFor (size + HEADER_SIZE - t) ∧ (t = 0 → j = 0) ∧
        (t ≠ 0 → inner ≤ t + j * PAGESIZE) ∧ (∀ i < j, pages.owner (p + i) = none) ∧
        Passes pages spare p j q size)

/-- The free room in a last chunk. -/
def lastRoom (c : ChunkHeader) : ℕ := if c.used then 0 else c.size

/-- A chunk wraps all pages that others had mapped from behind its header on. -/
def WrapsAll (m : Malloc) (x : ℕ) (c : ChunkHeader) : Prop :=
  ∃ a b, a < b ∧ x + HEADER_SIZE = a * PAGESIZE ∧ c.size = PAGESIZE * (b - a) + HEADER_SIZE ∧
    (∀ i, a ≤ i → i < b → m.pages.owner i ≠ none) ∧ m.pages.owner b = none

/-- The heap has grown by the pages of a set. -/
structure Grown (B : MinSizes) (m m' : Malloc) (cs cs' : List ChunkHeader) (new : Finset ℕ) :
    Prop where
  wellFormed : WellFormed B m' cs'
  keeps : Keeps (fun d => d.used = true) m m' cs cs' none
  first : m'.firstChunk = m.firstChunk
  maps : MapsSet m m' new
  above : ∀ q ∈ new, m.endOfChunks < q * PAGESIZE
  wraps : ∀ z e, (z, e) ∈ layout ChunkHeader.size m'.firstChunk cs' → e.notOurs = true →
    (z, e) ∈ layout ChunkHeader.size m.firstChunk cs ∨ m.endOfChunks ≤ z ∧ WrapsAll m z e
  sized : UsedSized B cs → UsedSized B cs'
  handed : allocatedOf cs' = allocatedOf cs

section Grows

variable {B : MinSizes} {m m' : Malloc} {pre suf cs cs' : List ChunkHeader} {c : ChunkHeader}
  {x p q j t size fuel : ℕ}

theorem lacking_eq (c : ChunkHeader) (size : ℕ) :
    lacking c size = size + HEADER_SIZE - lastRoom c := by
  unfold lacking lastRoom
  split_ifs
  · rfl
  · rfl

theorem pagesFor_mono {n k : ℕ} (le : n ≤ k) : pagesFor n ≤ pagesFor k := by
  unfold pagesFor
  exact Nat.div_le_div_right (by omega)

theorem le_pagesFor (n : ℕ) : n ≤ pagesFor n * PAGESIZE := by
  have h := sub_pagesFor n
  omega

theorem above_of_le (place : m.endOfChunks + HEADER_SIZE = p * PAGESIZE) (le : p ≤ q) :
    m.endOfChunks < q * PAGESIZE := by
  have hle := Nat.mul_le_mul_right PAGESIZE le
  have hheader : HEADER_SIZE = 8 := rfl
  omega

theorem wraps_append {L : List ChunkHeader} (first : m'.firstChunk = m.firstChunk)
    (ours : ∀ e ∈ L, e.notOurs = false) : ∀ z e,
      (z, e) ∈ layout ChunkHeader.size m'.firstChunk (pre ++ L) → e.notOurs = true →
      (z, e) ∈ layout ChunkHeader.size m.firstChunk pre := by
  intro z e he hnot
  rw [first, layout_append, List.mem_append] at he
  rcases he with he | he
  · exact he
  · rw [ours e (mem_of_layout he)] at hnot
    cases hnot

theorem grown_used (h : WellFormed B m (pre ++ [c])) (used : c.used = true)
    (used_inner : B.inner ≤ c.size) (start : m.firstChunk + span ChunkHeader.size pre = x)
    (place : m.endOfChunks + HEADER_SIZE = p * PAGESIZE) (frames : m.pages.frames = none)
    (clear : Clear m.pages p (pagesFor (lacking c size)))
    (enough : pagesFor (lacking c size) < fuel) :
    ∃ m' pre' d y new, m.growAtEnd fuel size x = .done (m', y) ∧
      Grown B m m' (pre ++ [c]) (pre' ++ [d]) new ∧ m'.firstChunk + span ChunkHeader.size pre' = y ∧
      d.used = false ∧ realsizeOf size ≤ d.size := by
  obtain ⟨n, rfl⟩ : ∃ n, fuel = n + 1 + pagesFor (lacking c size) :=
    ⟨fuel - 1 - pagesFor (lacking c size), by omega⟩
  obtain ⟨m', hwf, hkeeps, hfirst, hmaps, hgrow⟩ :=
    growAtEnd_used h used used_inner start place frames clear.low clear.unmapped
  refine ⟨m', pre ++ [c], _, m.endOfChunks, _, hgrow n, ⟨hwf, hkeeps, hfirst, hmaps, ?_, ?_, ?_, ?_⟩,
    ?_, rfl, ?_⟩
  · exact fun q hq => above_of_le place (Finset.mem_Ico.1 hq).1
  · exact fun z e he hnot => Or.inl (wraps_append hfirst (by simp) z e he hnot)
  · exact fun hsized => usedSized_append.2 ⟨hsized, by simp [UsedSized]⟩
  · simp
  · rw [hfirst]
    exact h.tiles.reach
  · have hneed := le_pagesFor (lacking c size)
    have hpos := lt_pagesFor.2 (show 0 * PAGESIZE < lacking c size by
      rw [Nat.zero_mul, lacking, if_pos used]
      exact Nat.succ_pos _)
    unfold lacking at hneed hpos
    rw [if_pos used] at hneed hpos
    have hpage : PAGESIZE = 4096 := rfl
    have hmin : MALLOC_MINSIZE = 32 := rfl
    unfold lacking realsizeOf
    rw [if_pos used]
    dsimp only
    rw [hpage] at hneed ⊢
    omega

theorem grown_free (h : WellFormed B m (pre ++ [c])) (free : c.used = false)
    (start : m.firstChunk + span ChunkHeader.size pre = x)
    (place : m.endOfChunks + HEADER_SIZE = p * PAGESIZE) (frames : m.pages.frames = none)
    (small : c.size < size + HEADER_SIZE ∨ MALLOC_MINSIZE ≤ c.size)
    (clear : Clear m.pages p (pagesFor (lacking c size)))
    (enough : pagesFor (lacking c size) < fuel) :
    ∃ m' pre' d y new, m.growAtEnd fuel size x = .done (m', y) ∧
      Grown B m m' (pre ++ [c]) (pre' ++ [d]) new ∧ m'.firstChunk + span ChunkHeader.size pre' = y ∧
      d.used = false ∧ realsizeOf size ≤ d.size := by
  obtain ⟨n, rfl⟩ : ∃ n, fuel = n + 1 + pagesFor (lacking c size) :=
    ⟨fuel - 1 - pagesFor (lacking c size), by omega⟩
  obtain ⟨m', hwf, hkeeps, hfirst, hmaps, hgrow⟩ :=
    growAtEnd_free size h free start place frames clear.low clear.unmapped
  have hlack : lacking c size = size + HEADER_SIZE - c.size := by
    unfold lacking
    rw [if_neg (by simp [free])]
  have hfits : realsizeOf size ≤ c.size + pagesFor (lacking c size) * PAGESIZE := by
    have hneed := le_pagesFor (lacking c size)
    have hpage : PAGESIZE = 4096 := rfl
    have hheader : HEADER_SIZE = 8 := rfl
    have hmin : MALLOC_MINSIZE = 32 := rfl
    have hpos : c.size < size + HEADER_SIZE → 0 < pagesFor (lacking c size) := fun hlt =>
      lt_pagesFor.2 (by omega)
    unfold realsizeOf
    rw [hpage] at hneed ⊢
    omega
  refine ⟨m', pre, _, x, _, ?_, ⟨hwf, hkeeps, hfirst, hmaps, ?_, ?_, ?_, ?_⟩, ?_, free, hfits⟩
  · rw [hgrow n, if_neg (not_lt.2 hfits)]
  · exact fun q hq => above_of_le place (Finset.mem_Ico.1 hq).1
  · intro z e he hnot
    refine Or.inl ?_
    rw [layout_append]
    refine List.mem_append_left _ (wraps_append hfirst (fun e he => ?_) z e he hnot)
    rw [List.mem_singleton] at he
    rw [he]
    exact h.last_ours
  · exact fun hsized => usedSized_append.2 ⟨(usedSized_append.1 hsized).1, by simp [UsedSized, free]⟩
  · simp [free]
  · rw [hfirst, start]

theorem grown_wrap (h : WellFormed B m (pre ++ [c]))
    (start : m.firstChunk + span ChunkHeader.size pre = x)
    (place : m.endOfChunks + HEADER_SIZE = p * PAGESIZE) (frames : m.pages.frames = none)
    (alone : c.used = true → j = 0) (lt : j < pagesFor (lacking c size))
    (inner : B.inner ≤ c.size + j * PAGESIZE) (clean : ∀ i < j, m.pages.owner (p + i) = none)
    (passes : Passes m.pages (fun _ => False) p j q size)
    (enough : 2 * pagesFor (size + HEADER_SIZE) < fuel) :
    ∃ m' pre' d y new, m.growAtEnd fuel size x = .done (m', y) ∧
      Grown B m m' (pre ++ [c]) (pre' ++ [d]) new ∧ m'.firstChunk + span ChunkHeader.size pre' = y ∧
      d.used = false ∧ realsizeOf size ≤ d.size := by
  have hle : pagesFor (lacking c size) ≤ pagesFor (size + HEADER_SIZE) :=
    pagesFor_mono (lacking_eq c size ▸ Nat.sub_le _ _)
  obtain ⟨n, rfl⟩ : ∃ n, fuel = n + 1 + pagesFor (size + HEADER_SIZE) + j :=
    ⟨fuel - 1 - pagesFor (size + HEADER_SIZE) - j, by omega⟩
  have hours : c.notOurs = false := h.last_ours
  have hpage : PAGESIZE = 4096 := rfl
  have hheader : HEADER_SIZE = 8 := rfl
  have hmin : MALLOC_MINSIZE = 32 := rfl
  obtain ⟨m', hwf, hkeeps, hfirst, hlast, hmaps, hgrow⟩ :=
    growAtEnd_wrap h start place frames alone lt inner clean passes.wraps passes.dir
      (fun i hi hlt hin => hin.elim
        (fun hlow => (passes.below i hi hlow).resolve_right fun hf => hf)
        fun hge => passes.others i hge hlt)
      passes.clear.low passes.clear.unmapped
  have hreach := hwf.tiles.reach
  simp only [span_append, span_cons, span_nil] at hreach
  have hold := h.tiles.reach
  simp only [span_append, span_cons, span_nil] at hold
  have hplace := place
  have hwraps := passes.wraps
  rw [hpage, hheader] at hplace
  refine ⟨m', pre ++ [c.enlarge (j * PAGESIZE)] ++
    [⟨PAGESIZE * (q - (p + j)) + HEADER_SIZE, MAGIC, true, true⟩],
    ⟨pagesFor (size + HEADER_SIZE) * PAGESIZE - HEADER_SIZE, MAGIC, false, false⟩, q * PAGESIZE, _,
    hgrow n, ⟨?_, ?_, hfirst, hmaps, ?_, ?_, ?_, ?_⟩, ?_, rfl, ?_⟩
  · rw [List.append_assoc _ _ [_], List.singleton_append]
    exact hwf
  · rw [List.append_assoc _ _ [_], List.singleton_append]
    exact hkeeps
  · intro i hi
    rw [Finset.mem_union, Finset.mem_Ico, Finset.mem_Ico] at hi
    exact above_of_le place (by omega)
  · intro z e he hnot
    have he' := wraps_append hfirst (by simp) z e he hnot
    rw [layout_append, List.mem_append, layout_cons, layout_nil, List.mem_singleton] at he'
    rcases he' with he' | he'
    · refine Or.inl ?_
      rw [layout_append]
      refine List.mem_append_left _ (wraps_append (m := m) rfl (fun e he => ?_) z e he' hnot)
      rw [List.mem_singleton] at he
      rw [he]
      exact hours
    · obtain ⟨rfl, rfl⟩ := Prod.mk.inj he'
      refine Or.inr ⟨?_, p + j, q, hwraps, ?_, rfl, passes.others, ?_⟩
      · rw [span_append, span_cons, span_nil, ChunkHeader.enlarge_size]
        omega
      · rw [span_append, span_cons, span_nil, ChunkHeader.enlarge_size, hpage, hheader]
        omega
      · exact passes.clear.unmapped 0 (lt_pagesFor.2 (by rw [Nat.zero_mul]; exact Nat.succ_pos _))
  · intro hsized
    rw [usedSized_append, usedSized_cons] at hsized
    refine usedSized_append.2 ⟨usedSized_append.2 ⟨usedSized_append.2 ⟨hsized.1,
      usedSized_cons.2 ⟨fun _ => inner, by simp [UsedSized]⟩⟩,
      usedSized_cons.2 ⟨fun _ => ?_, by simp [UsedSized]⟩⟩, by simp [UsedSized]⟩
    have hB := B.inner_le
    dsimp only
    rw [hpage]
    omega
  · simp only [allocatedOf_append, allocatedOf_cons, allocatedOf_nil, ChunkHeader.enlarge_used,
      ChunkHeader.enlarge_notOurs, ChunkHeader.enlarge_size, hours]
    by_cases hused : c.used = true
    · rw [alone hused]
      simp
    · simp [hused]
  · rw [hlast] at hreach
    simp only [span_append, span_cons, span_nil, ChunkHeader.enlarge_size]
    simp only [ChunkHeader.enlarge_size] at hreach
    omega
  · have hfits := passes.fits
    unfold realsizeOf
    dsimp only
    rw [hpage, hheader] at hfits ⊢
    omega

/-- The growth behind the last chunk, when its condition holds: the chunk that `malloc` gets is the last
one, free and large enough. -/
theorem growAtEnd_grows (h : WellFormed B m (pre ++ [c]))
    (used_inner : c.used = true → B.inner ≤ c.size)
    (start : m.firstChunk + span ChunkHeader.size pre = x)
    (place : m.endOfChunks + HEADER_SIZE = p * PAGESIZE) (frames : m.pages.frames = none)
    (grows : Grows m.pages (fun _ => False) B.inner p size (lastRoom c))
    (enough : 2 * pagesFor (size + HEADER_SIZE) < fuel) :
    ∃ m' pre' d y new, m.growAtEnd fuel size x = .done (m', y) ∧
      Grown B m m' (pre ++ [c]) (pre' ++ [d]) new ∧ m'.firstChunk + span ChunkHeader.size pre' = y ∧
      d.used = false ∧ realsizeOf size ≤ d.size := by
  obtain ⟨hsmall, hgrows⟩ := grows
  have hpos : 0 < c.size := (h.tiles.bounds (mem_layout_of m pre c [])).2.2.2.1
  have hle : pagesFor (lacking c size) ≤ pagesFor (size + HEADER_SIZE) :=
    pagesFor_mono (lacking_eq c size ▸ Nat.sub_le _ _)
  have hfuel : pagesFor (lacking c size) < fuel := by omega
  rw [← lacking_eq] at hgrows
  by_cases hused : c.used = true
  · have hroom : lastRoom c = 0 := if_pos hused
    rw [hroom] at hgrows
    rcases hgrows with hclear | ⟨j, q, hlt, halone, -, hbefore, hpasses⟩
    · exact grown_used h hused (used_inner hused) start place frames hclear hfuel
    · obtain rfl := halone rfl
      exact grown_wrap h start place frames (fun _ => rfl) hlt
        ((used_inner hused).trans (Nat.le_add_right _ _)) hbefore hpasses enough
  · have hroom : lastRoom c = c.size := if_neg hused
    rw [hroom] at hsmall hgrows
    rcases hgrows with hclear | ⟨j, q, hlt, -, hinner, hbefore, hpasses⟩
    · exact grown_free h (by simpa using hused) start place frames hsmall hclear hfuel
    · exact grown_wrap h start place frames (fun hu => absurd hu hused) hlt (hinner hpos.ne')
        hbefore hpasses enough

end Grows

/-! ## More fuel -/

section Fuel

variable {m : Malloc}

theorem search_le (realsize fuel : ℕ) (m : Malloc) (x : ℕ) (other : Option ℕ) (next : ℕ) :
    Run.Le (search realsize fuel m x other next) (search realsize (fuel + 1) m x other next) := by
  induction fuel generalizing m x other next with
  | zero => exact Run.running_le _
  | succ fuel ih =>
    rw [search, search]
    split_ifs
    · exact Run.Le.refl _
    · cases m.freeBefore other x with
      | some o => exact ih _ _ _ _
      | none =>
        refine (Run.Le.refl _).bind fun r => ?_
        dsimp only
        split_ifs
        · exact Run.Le.refl _
        · exact Run.Le.refl _
        · exact ih _ _ _ _
    · exact Run.Le.refl _

theorem grow_le (size fuel : ℕ) (g : Growth) : Run.Le (grow size fuel g) (grow size (fuel + 1) g) := by
  induction fuel generalizing g with
  | zero => exact Run.running_le _
  | succ fuel ih =>
    rw [grow, grow]
    split_ifs
    · exact Run.Le.refl _
    · refine (Run.Le.refl _).bind fun r => ?_
      dsimp only
      split_ifs
      · exact (Run.Le.refl _).bind fun g' => ih _
      · exact ih _

theorem findChunk_le (size fuel : ℕ) : Run.Le (m.findChunk fuel size) (m.findChunk (fuel + 1) size) := by
  unfold findChunk findChunkFor
  refine (Run.Le.refl _).bind fun r => ?_
  refine (search_le _ _ _ _ _ _).bind ?_
  rintro ⟨m₁, found⟩
  cases found with
  | chunk x => exact Run.Le.refl _
  | atEnd o =>
    show Run.Le (m₁.growAtEnd fuel size o) (m₁.growAtEnd (fuel + 1) size o)
    unfold growAtEnd growFor
    exact (grow_le _ _ _).bind fun g => Run.Le.refl _

theorem malloc_le (size fuel : ℕ) : Run.Le (m.malloc fuel size) (m.malloc (fuel + 1) size) := by
  unfold malloc
  split_ifs
  · exact Run.Le.refl _
  · exact (findChunk_le _ _).bind fun r => Run.Le.refl _

end Fuel

/-! ## The whole call -/

/-- A page that may become the first one unmapped in the course of a search: all unmapped pages below it
can be taken back. -/
def Candidate (m : Malloc) (cs : List ChunkHeader) (page : ℕ) : Prop :=
  FREE_PAGES_START / PAGESIZE ≤ page ∧ m.pages.owner page = none ∧
    ∀ i, FREE_PAGES_START / PAGESIZE ≤ i → i < page → m.pages.owner i = none → Single m cs i

/-- The search does not halt: `getUnmappedVAddr` finds a page, and the first page of a chunk that wraps
several is not unmapped where a single one would be taken back. -/
structure SearchSafe (m : Malloc) (cs : List ChunkHeader) : Prop where
  left : ∃ page, FREE_PAGES_START / PAGESIZE ≤ page ∧ page < END_OF_PAGES ∧
    m.pages.owner page = none ∧ ¬Single m cs page
  dir : ∀ page, Candidate m cs page → m.pages.dirs (page / 2 ^ 18) = true
  whole : ∀ page, Candidate m cs page → ∀ x c,
    (x, c) ∈ layout ChunkHeader.size m.firstChunk cs → c.notOurs = true →
    x + HEADER_SIZE = page * PAGESIZE → c.size = PAGESIZE + HEADER_SIZE

/-- The page behind `endOfChunks`. -/
def endPage (m : Malloc) : ℕ := (m.endOfChunks + HEADER_SIZE) / PAGESIZE

/-- The condition under which `malloc` returns a block and keeps the heap well-formed.  With all wrapped
pages mapped, a run of free chunks is large enough or the growth behind the run at the end is possible;
otherwise the growth must be possible behind the last chunk as it is. -/
def MallocSafe (B : MinSizes) (m : Malloc) (cs : List ChunkHeader) (size : ℕ) : Prop :=
  SearchSafe m cs ∧
    (Wrapped m cs ∧ realsizeOf size ≤ bestRun cs ∨
      Wrapped m cs ∧ Grows m.pages (Single m cs) B.inner m.endPage size (trailRun cs) ∨
      ∃ pre c, cs = pre ++ [c] ∧ Grows m.pages (Single m cs) B.inner m.endPage size (lastRoom c) ∧
        (lastRoom c = 0 ∨ MALLOC_MINSIZE ≤ lastRoom c ∨ MALLOC_MINSIZE ≤ size + HEADER_SIZE))

/-- Where the search of `malloc` ends, and the heap that it leaves. -/
def Searches (m : Malloc) (size : ℕ) (m₁ : Malloc) (found : Found) : Prop :=
  ∃ fuel next pages, m.pages.getUnmappedVAddr = some (next, pages) ∧
    search (realsizeOf size) fuel { m with pages := pages } m.firstChunk none next = .done (m₁, found)

/-- The search of `malloc` ends, and where it has found no chunk the growth behind the last one is
possible. -/
def Served (B : MinSizes) (m : Malloc) (size : ℕ) : Prop :=
  ∃ m₁ found, Searches m size m₁ found ∧ ∀ other, found = .atEnd other →
    Grows m₁.pages (fun _ => False) B.inner m.endPage size (lastRoom (m₁.header other))

section Whole

variable {B : MinSizes} {m m₁ m' s : Malloc} {found : Found} {pre suf cs cs' : List ChunkHeader} {c c' : ChunkHeader}
  {x p q j t t' size inner fuel : ℕ} {pages pages' : KernelPages} {spare : ℕ → Prop}

theorem WellFormed.endPage_eq (h : WellFormed B m cs) :
    m.endOfChunks + HEADER_SIZE = m.endPage * PAGESIZE := by
  have haligned := h.aligned
  unfold endPage
  have hpage : PAGESIZE = 4096 := rfl
  have hheader : HEADER_SIZE = 8 := rfl
  rw [hpage] at haligned ⊢
  rw [hheader]
  omega

theorem WellFormed.single_lt (h : WellFormed B m cs) {page : ℕ} (single : Single m cs page) :
    page < m.endPage := by
  obtain ⟨x, c, hc, -, hsize, hplace⟩ := single
  have hbounds := (h.tiles.bounds hc).2.1
  have hend := h.endPage_eq
  have hpage : PAGESIZE = 4096 := rfl
  have hheader : HEADER_SIZE = 8 := rfl
  rw [hpage] at hsize hplace hend
  rw [hheader] at hsize hplace hend
  omega

theorem Wrapped.single (wrapped : Wrapped m cs) {page : ℕ} (single : Single m cs page) :
    m.pages.owner page ≠ none := by
  obtain ⟨x, c, hc, hnot, -, hplace⟩ := single
  exact wrapped x c page hc hnot hplace

/-- More room in a free last chunk, as merging leaves it, does no harm. -/
theorem Grows.mono (grows : Grows pages spare inner p size t) (pos : t ≠ 0) (le : t ≤ t')
    (large : MALLOC_MINSIZE ≤ t ∨ MALLOC_MINSIZE ≤ size + HEADER_SIZE) :
    Grows pages spare inner p size t' := by
  obtain ⟨-, hgrows⟩ := grows
  have hle : pagesFor (size + HEADER_SIZE - t') ≤ pagesFor (size + HEADER_SIZE - t) :=
    pagesFor_mono (by omega)
  refine ⟨by omega, ?_⟩
  rcases hgrows with hclear | ⟨j, q, hlt, -, hinner, hbefore, hpasses⟩
  · exact Or.inl ⟨by have := hclear.low; omega, fun i hi => hclear.unmapped i (by omega)⟩
  · by_cases hj : j < pagesFor (size + HEADER_SIZE - t')
    · exact Or.inr ⟨j, q, hj, by omega, fun _ => (hinner pos).trans (by omega), hbefore, hpasses⟩
    · refine Or.inl ⟨?_, fun i hi => hbefore i (by omega)⟩
      have hwraps := hpasses.wraps
      have hlow := hpasses.clear.low
      omega

theorem Grows.congr (grows : Grows pages spare inner p size t)
    (same : ∀ i, p ≤ i → pages'.owner i = pages.owner i)
    (dirs : ∀ dir, pages.dirs dir = true → pages'.dirs dir = true)
    (below : (∀ i, FREE_PAGES_START / PAGESIZE ≤ i → i < p → pages.owner i ≠ none ∨ spare i) →
      ∀ i, FREE_PAGES_START / PAGESIZE ≤ i → i < p → pages'.owner i ≠ none) :
    Grows pages' (fun _ => False) inner p size t := by
  obtain ⟨hsmall, hgrows⟩ := grows
  refine ⟨hsmall, ?_⟩
  rcases hgrows with hclear | ⟨j, q, hlt, halone, hinner, hbefore, hpasses⟩
  · exact Or.inl ⟨hclear.low, fun i hi => (same _ (by omega)).trans (hclear.unmapped i hi)⟩
  · refine Or.inr ⟨j, q, hlt, halone, hinner,
      fun i hi => (same _ (by omega)).trans (hbefore i hi), hpasses.wraps, dirs _ hpasses.dir,
      fun i hi hlt => Or.inl (below hpasses.below i hi hlt), fun i hi hlt => ?_,
      ⟨hpasses.clear.low, fun i hi => (same _ ?_).trans (hpasses.clear.unmapped i hi)⟩, hpasses.fits⟩
    · rw [same i (by omega)]
      exact hpasses.others i hi hlt
    · have hwraps := hpasses.wraps
      omega

theorem SearchSafe.not_stopped (h : WellFormed B m cs) (frames : m.pages.frames = none)
    (safe : SearchSafe m cs) : ¬Stopped m cs s := by
  rintro ⟨-, cs', hsteps, hwhy⟩
  have hswept := SearchSteps.swept hsteps h
  have hwf : WellFormed B s cs' := h.search_steps hsteps
  have hframes : s.pages.frames = none := (SearchSteps.fields hsteps).2.2.2.1 frames
  have hcand : ∀ page, s.pages.First page → Candidate m cs page := by
    intro page first
    have hnone : ∀ i, s.pages.owner i = none → m.pages.owner i = none := fun i hi =>
      (hswept.owner i).elim (fun hsame => hsame ▸ hi) fun hnew => hnew.1
    refine ⟨first.start, hnone page first.unmapped, fun i hi hlt hun => ?_⟩
    rcases hswept.owner i with hsame | ⟨-, -, hsingle⟩
    · exact absurd (hsame.trans hun) (first.least i hi hlt)
    · exact hsingle
  rcases hwhy with ⟨x, c, page, hc, hnot, hsize, first, hplace⟩ | hlook
  · exact hsize (safe.whole page (hcand page first) x c (hswept.wraps x c hc hnot) hnot hplace)
  · obtain ⟨page, hstart, hlow, hun, hsingle⟩ := safe.left
    have hun' : s.pages.owner page = none :=
      (hswept.owner page).elim (fun hsame => hsame.trans hun) fun hnew => absurd hnew.2.2 hsingle
    obtain ⟨f, first, -⟩ := exists_first hstart hlow hun'
    obtain ⟨pages, hsome⟩ := getUnmappedVAddr_of_dir hwf.pages hframes first
      (hswept.dirs _ (safe.dir f (hcand f first)))
    rw [hlook] at hsome
    cases hsome

theorem MapsSet.none (frames : m.pages.frames = none) : MapsSet m m ∅ where
  owner := fun _ => (if_neg (Finset.notMem_empty _)).symm
  unmapped := fun q hq => absurd hq (Finset.notMem_empty q)
  frames := frames
  dirs := fun _ => id
  used := by
    rw [Finset.card_empty, Nat.zero_mul]
    exact (add_zero _).symm
  allocated := rfl

theorem Grown.none (h : WellFormed B m cs) (frames : m.pages.frames = none) : Grown B m m cs cs ∅ where
  wellFormed := h
  keeps := Keeps.refl _ _ _ _
  first := rfl
  maps := MapsSet.none frames
  above := fun q hq => absurd hq (Finset.notMem_empty q)
  wraps := fun _ _ he _ => Or.inl he
  sized := id
  handed := rfl

/-- The first page that is not mapped at the end of a search cannot be taken back. -/
theorem Swept.grows {m₁ : Malloc} {cs₁ : List ChunkHeader} (swept : Swept B (m, cs) (m₁, cs₁))
    (h : WellFormed B m cs)
    (ended : ∀ y e page, (y, e) ∈ layout ChunkHeader.size m₁.firstChunk cs₁ → e.notOurs = true →
      m₁.pages.First page → y + HEADER_SIZE ≠ page * PAGESIZE)
    (grows : Grows m.pages (Single m cs) B.inner m.endPage size t) :
    Grows m₁.pages (fun _ => False) B.inner m.endPage size t := by
  refine grows.congr (fun i hi => ?_) swept.dirs fun hbelow i hi hlt hun => ?_
  · rcases swept.owner i with hsame | ⟨-, -, hsingle⟩
    · exact hsame
    · exact absurd (h.single_lt hsingle) (not_lt.2 hi)
  · have hlow : i < END_OF_PAGES := by
      have hmapped := h.pages.low _ (by rw [h.reserved]; exact Option.some_ne_none _)
      have hend := h.endPage_eq
      have hpage : PAGESIZE = 4096 := rfl
      have hheader : HEADER_SIZE = 8 := rfl
      rw [hpage] at hend hmapped
      omega
    obtain ⟨f, first, hle⟩ := exists_first hi hlow hun
    have hnone : m.pages.owner f = none :=
      (swept.owner f).elim (fun hsame => hsame ▸ first.unmapped) fun hnew => hnew.1
    obtain ⟨x, c, hc, hnot, hsize, hplace⟩ :=
      (hbelow f first.start (by omega)).resolve_left fun hne => hne hnone
    rcases swept.kept x c hc hnot with hc' | ⟨-, page, hplace', -, hheap⟩
    · exact ended x c f hc' hnot first hplace
    · obtain rfl : page = f := Nat.eq_of_mul_eq_mul_right (by decide) (hplace'.symm.trans hplace)
      have hun' := first.unmapped
      dsimp only at hheap
      rw [hheap] at hun'
      cases hun'

theorem search_looks {next : ℕ} (size fuel : ℕ) (h : WellFormed B m cs) (frames : m.pages.frames = none)
    (look : m.pages.getUnmappedVAddr = some (next, pages)) :
    SearchStep (m, cs) ({ m with pages := pages }, cs) ∧ WellFormed B { m with pages := pages } cs ∧
      Run.Sat (search (realsizeOf size) fuel { m with pages := pages } m.firstChunk none next)
        (fun r => ∃ cs', SearchSteps ({ m with pages := pages }, cs) (r.1, cs') ∧
          Ended (realsizeOf size) (Wrapped m cs) r.1 cs' r.2)
        (Stopped { m with pages := pages } cs) (fuel < 2 * cs.length) := by
  obtain ⟨f, first, haddr, -, same, -, -, wf'⟩ := getUnmappedVAddr_some h.pages look
  have hstep : SearchStep (m, cs) ({ m with pages := pages }, cs) := .look same wf'
  have h₀ : WellFormed B { m with pages := pages } cs := h.search_step hstep
  exact ⟨hstep, h₀, search_whole (Wrapped m cs) (realsizeOf size) fuel h₀.tiles h₀.ne_nil wf'
    (Or.inl (same.frames frames)) (fun hw => (hstep.wrapped hw).1)
    ⟨f, first.congr same.owner, haddr⟩⟩

theorem SearchSafe.searches (size : ℕ) (h : WellFormed B m cs) (frames : m.pages.frames = none)
    (safe : SearchSafe m cs) : ∃ m₁ found, Searches m size m₁ found := by
  obtain ⟨page, hstart, hlow, hun, -⟩ := safe.left
  obtain ⟨f, first, -⟩ := exists_first hstart hlow hun
  obtain ⟨pages, hlook⟩ := getUnmappedVAddr_of_dir h.pages frames first (safe.dir f
    ⟨first.start, first.unmapped, fun i hi hlt hnone => absurd hnone (first.least i hi hlt)⟩)
  obtain ⟨hstep, h₀, hsat⟩ := search_looks size (2 * cs.length + 1) h frames hlook
  cases hsearch : search (realsizeOf size) (2 * cs.length + 1) { m with pages := pages } m.firstChunk
      none (f * PAGESIZE) with
  | running =>
    rw [hsearch, Run.sat_running_iff] at hsat
    omega
  | halted s =>
    obtain ⟨hopen, cs', hsteps, hwhy⟩ := hsat.of_halted hsearch
    exact absurd ⟨fun hw => hopen (hstep.wrapped hw).1, cs', .head hstep hsteps, hwhy⟩
      (safe.not_stopped (s := s) h frames)
  | done r => exact ⟨r.1, r.2, _, _, _, hlook, hsearch⟩

/-- The search of `malloc` ends at a chunk, or goes on to the growth behind the last one. -/
theorem Searches.findChunk (h : WellFormed B m cs) (frames : m.pages.frames = none)
    (searches : Searches m size m₁ found) (enough : 2 * cs.length < fuel) :
    ∃ cs₁, SearchSteps (m, cs) (m₁, cs₁) ∧
      Ended (realsizeOf size) (Wrapped m cs) m₁ cs₁ found ∧
      (∀ chunk, found = .chunk chunk → m.findChunk fuel size = .done (m₁, chunk)) ∧
      ∀ other, found = .atEnd other → m.findChunk fuel size = m₁.growAtEnd fuel size other := by
  obtain ⟨n, next, pages, hlook, hsearch⟩ := searches
  obtain ⟨hstep, h₀, hsat⟩ := search_looks size fuel h frames hlook
  -- with the fuel there is the search ends as it did
  have hends : search (realsizeOf size) fuel { m with pages := pages } m.firstChunk none next ≠
      .running := by
    intro hrunning
    rw [hrunning, Run.sat_running_iff] at hsat
    omega
  have hdone := Run.done_of_ends (fun k => search_le (realsizeOf size) k { m with pages := pages }
    m.firstChunk none next) hends hsearch
  rw [hdone, Run.sat_done_iff] at hsat
  obtain ⟨cs₁, hsteps, hended⟩ := hsat
  refine ⟨cs₁, .head hstep hsteps, hended, ?_, ?_⟩
  all_goals
    rintro y rfl
    unfold Malloc.findChunk findChunkFor
    rw [hlook, Run.ofOption_some, Run.done_bind]
    dsimp only
    rw [hdone]
    rfl

theorem Searches.unique {m₂ : Malloc} {found' : Found} (searches : Searches m size m₁ found)
    (searches' : Searches m size m₂ found') : m₁ = m₂ ∧ found = found' := by
  obtain ⟨n, next, pages, hlook, hsearch⟩ := searches
  obtain ⟨k, next', pages', hlook', hsearch'⟩ := searches'
  obtain ⟨rfl, rfl⟩ := Prod.mk.inj (Option.some.inj (hlook.symm.trans hlook'))
  have hsame := Run.done_unique (fun k => search_le (realsizeOf size) k { m with pages := pages }
    m.firstChunk none next) hsearch hsearch'
  exact Prod.mk.inj hsame

theorem Served.grows (served : Served B m size) {other : ℕ} (searches : Searches m size m₁ (.atEnd other)) :
    Grows m₁.pages (fun _ => False) B.inner m.endPage size (lastRoom (m₁.header other)) := by
  obtain ⟨m₂, found, hsearches, hgrows⟩ := served
  obtain ⟨rfl, hfound⟩ := searches.unique hsearches
  exact hgrows other hfound.symm

theorem MallocSafe.served (safe : MallocSafe B m cs size) (h : WellFormed B m cs)
    (frames : m.pages.frames = none) : Served B m size := by
  obtain ⟨hsafe, hroom⟩ := safe
  obtain ⟨m₁, found, hsearches⟩ := hsafe.searches size h frames
  refine ⟨m₁, found, hsearches, fun x hx => ?_⟩
  subst hx
  obtain ⟨cs₁, hsteps, ⟨pre, d, rfl, hx, hlast, hquiet⟩, -⟩ :=
    hsearches.findChunk h frames (Nat.lt_succ_self _)
  have hswept := SearchSteps.swept hsteps h
  have h₁ : WellFormed B m₁ (pre ++ [d]) := h.search_steps hsteps
  have hat : m₁.header x = d := hx ▸ h₁.tiles.at.1
  rw [hat]
  refine hswept.grows h hlast ?_
  have hmin : 0 < realsizeOf size := lt_of_lt_of_le (by decide) minsize_le_realsizeOf
  rcases hroom with ⟨hw, hfits⟩ | ⟨hw, hgrows⟩ | ⟨pre', c, rfl, hgrows, hlarge⟩
  · obtain ⟨hcoal, hnone⟩ := hquiet hw
    have hbest := (bestRun_lt hcoal hnone hmin).1
    rw [(SearchSteps.wrapped hsteps hw).2.2.2.1] at hbest
    exact absurd hfits (not_le.2 hbest)
  · obtain ⟨hcoal, -⟩ := hquiet hw
    have htrail := (SearchSteps.wrapped hsteps hw).2.2.2.2
    rw [trailRun_coalesced hcoal] at htrail
    unfold lastRoom
    rw [htrail]
    exact hgrows
  · obtain ⟨l, e, hl, hlast'⟩ := hswept.last pre' c rfl
    obtain ⟨-, he⟩ := List.append_inj' hl rfl
    obtain rfl := List.cons.inj he |>.1
    rcases hlast' with rfl | ⟨hfree, hfree', hle, hinner⟩
    · exact hgrows
    · have hroom : lastRoom c = c.size := if_neg (by simp [hfree])
      have hroom' : lastRoom d = d.size := if_neg (by simp [hfree'])
      have hpos : 0 < c.size := (h.tiles.bounds (mem_layout_of m pre' c [])).2.2.2.1
      rw [hroom] at hgrows hlarge
      rw [hroom']
      exact hgrows.mono hpos.ne' hle (hlarge.resolve_left hpos.ne')

/-- `malloc` finds a chunk, by a search and perhaps a growth. -/
theorem findChunk_spec (h : WellFormed B m cs) (sized : UsedSized B cs)
    (frames : m.pages.frames = none) (served : Served B m size)
    (enough : 2 * (cs.length + pagesFor (size + HEADER_SIZE)) < fuel) :
    ∃ m₁ cs₁ m₂ pre d suf x new, SearchSteps (m, cs) (m₁, cs₁) ∧
      Grown B m₁ m₂ cs₁ (pre ++ d :: suf) new ∧ m₂.firstChunk + span ChunkHeader.size pre = x ∧
      d.used = false ∧ realsizeOf size ≤ d.size ∧ m.findChunk fuel size = .done (m₂, x) := by
  obtain ⟨m₁, found, hsearches, hgrows⟩ := served
  obtain ⟨cs₁, hsteps, hended, hchunk, hatEnd⟩ :=
    hsearches.findChunk h frames (show 2 * cs.length < fuel by omega)
  have hswept := SearchSteps.swept hsteps h
  have h₁ : WellFormed B m₁ cs₁ := h.search_steps hsteps
  have hfields := SearchSteps.fields hsteps
  have hframes : m₁.pages.frames = none := hfields.2.2.2.1 frames
  cases found with
  | chunk x =>
    obtain ⟨pre, d, suf, rfl, hx, hfree, hfits⟩ := hended
    exact ⟨m₁, _, m₁, pre, d, suf, x, _, hsteps, Grown.none h₁ hframes, hx.symm, hfree, hfits,
      hchunk x rfl⟩
  | atEnd x =>
    obtain ⟨pre, d, rfl, hx, -, -⟩ := hended
    have hend : m₁.endOfChunks + HEADER_SIZE = m.endPage * PAGESIZE := by
      have heq : m₁.endOfChunks = m.endOfChunks := hfields.2.1
      rw [heq, h.endPage_eq]
    have hat : m₁.header x = d := hx ▸ h₁.tiles.at.1
    obtain ⟨m₂, pre₂, d₂, y, new, hgrow, hgrown, hy, hfree, hfits⟩ :=
      growAtEnd_grows h₁ ((usedSized_append.1 (hswept.sized sized)).2 d (List.mem_singleton_self d))
        hx.symm hend hframes (hat ▸ hgrows x rfl)
        (show 2 * pagesFor (size + HEADER_SIZE) < fuel by omega)
    exact ⟨m₁, _, m₂, pre₂, d₂, [], y, new, hsteps, hgrown, hy, hfree, hfits,
      (hatEnd x rfl).trans hgrow⟩

/-- What a call of `malloc` that returns the block behind `x` does. -/
structure Malloced (B : MinSizes) (m m' : Malloc) (cs cs' : List ChunkHeader) (size x : ℕ) : Prop where
  wellFormed : WellFormed B m' cs'
  keeps : Keeps Ours m m' cs cs' none
  first : m'.firstChunk = m.firstChunk
  frames : m'.pages.frames = none
  block : ∃ d, (x, d) ∈ layout ChunkHeader.size m'.firstChunk cs' ∧ Ours d ∧ realsizeOf size ≤ d.size
  fresh : ∀ c, (x, c) ∈ layout ChunkHeader.size m.firstChunk cs → ¬Ours c
  owner : ∀ page, m'.pages.owner page = m.pages.owner page ∨
    m.pages.owner page = none ∧ m'.pages.owner page = some .heap
  wraps : ∀ z e, (z, e) ∈ layout ChunkHeader.size m'.firstChunk cs' → e.notOurs = true →
    (z, e) ∈ layout ChunkHeader.size m.firstChunk cs ∨ m.endOfChunks ≤ z ∧ WrapsAll m z e
  kept : ∀ z e, (z, e) ∈ layout ChunkHeader.size m.firstChunk cs → e.notOurs = true →
    (z, e) ∈ layout ChunkHeader.size m'.firstChunk cs' ∨ e.size = PAGESIZE + HEADER_SIZE ∧
      ∃ page, z + HEADER_SIZE = page * PAGESIZE ∧ m.pages.owner page = none ∧
        m'.pages.owner page = some .heap
  sized : UsedSized B cs'
  handed : ∃ k, m'.totalMemAllocated = m.totalMemAllocated + UInt64.ofNat k ∧
    allocatedOf cs' = allocatedOf cs + k
  quiet : Wrapped m cs → Keeps (fun d => d.used = true) m m' cs cs' none ∧ ∃ new : Finset ℕ,
    (∀ page, m'.pages.owner page = if page ∈ new then some .heap else m.pages.owner page) ∧
      (∀ page ∈ new, m.pages.owner page = none) ∧
      m'.totalMemUsed = m.totalMemUsed + UInt64.ofNat (new.card * PAGESIZE)

theorem split_parts {realsize : ℕ} {d : ChunkHeader} {rest : List ChunkHeader}
    (ours : c.notOurs = false) (parts : Malloc.split c realsize = d :: rest) :
    (∀ e ∈ d :: rest, e.notOurs = false) ∧ ∀ e ∈ rest, e.used = false := by
  unfold Malloc.split at parts
  split_ifs at parts
  · obtain ⟨rfl, rfl⟩ := List.cons.inj parts
    simp [ours]
  · obtain ⟨rfl, rfl⟩ := List.cons.inj parts
    simp [ours]

theorem allocatedOf_free {rest : List ChunkHeader} (free : ∀ e ∈ rest, e.used = false) :
    allocatedOf rest = 0 := by
  induction rest with
  | nil => rfl
  | cons e rest ih =>
    rw [List.forall_mem_cons] at free
    rw [allocatedOf_cons, ih free.2, if_neg (by simp [free.1])]

theorem handOut_malloced {d : ChunkHeader} (h : WellFormed B m (pre ++ d :: suf))
    (sized : UsedSized B (pre ++ d :: suf))
    (start : m.firstChunk + span ChunkHeader.size pre = x) (free : d.used = false)
    (fits : realsizeOf size ≤ d.size) :
    ∃ m' cs', m.handOut x (realsizeOf size) = (x + HEADER_SIZE, m') ∧ WellFormed B m' cs' ∧
      Keeps (fun e => e.used = true) m m' (pre ++ d :: suf) cs' none ∧ SameEnds m m' ∧
      (∃ e, (x, e) ∈ layout ChunkHeader.size m'.firstChunk cs' ∧ Ours e ∧ realsizeOf size ≤ e.size) ∧
      (∀ z e, (z, e) ∈ layout ChunkHeader.size m'.firstChunk cs' → e.notOurs = true →
        (z, e) ∈ layout ChunkHeader.size m.firstChunk (pre ++ d :: suf)) ∧
      UsedSized B cs' ∧ m'.totalMemUsed = m.totalMemUsed ∧
      ∃ k, m'.totalMemAllocated = m.totalMemAllocated + UInt64.ofNat k ∧
        allocatedOf cs' = allocatedOf (pre ++ d :: suf) + k := by
  have hmem := mem_layout_of m pre d suf
  have hours : d.notOurs = false := h.free_ours hmem free
  obtain ⟨m', e, rest, hout, htiles, hkeeps, hends, hused, hallocated, hsplit, heused, heours, hesize⟩ :=
    handOut_spec h.tiles start free fits minsize_le_realsizeOf
  obtain ⟨hparts, hrest⟩ := split_parts hours hsplit
  have hwf := h.split start free fits htiles hends
  have hspan := span_split fits
  have hlist : pre ++ Malloc.split d (realsizeOf size) ++ suf = pre ++ e :: (rest ++ suf) := by
    rw [hsplit]
    simp
  rw [hsplit] at hspan
  rw [hlist] at hwf hkeeps
  refine ⟨m', _, hout, hwf, hkeeps, hends, ⟨e, ?_, ⟨heused, hparts e List.mem_cons_self⟩, hesize⟩,
    fun z g hg hnot => ?_, ?_, hused, e.size - HEADER_SIZE, hallocated, ?_⟩
  · rw [hends.first, ← start]
    exact mem_layout _ _ _ _
  · rw [hends.first, ← List.cons_append, ← List.append_assoc, layout_parts start rfl, List.mem_append,
      List.mem_append, hspan] at hg
    rw [mem_layout_append_cons, start]
    rcases hg with (hg | hg) | hg
    · exact Or.inl hg
    · rw [hparts g (mem_of_layout hg)] at hnot
      cases hnot
    · exact Or.inr (Or.inr hg)
  · rw [usedSized_append, usedSized_cons] at sized
    have hreal : MALLOC_MINSIZE ≤ realsizeOf size := minsize_le_realsizeOf
    have hinner := B.inner_le
    rw [usedSized_append, usedSized_cons, usedSized_append]
    refine ⟨sized.1, fun _ => by omega, fun g hg hgused => ?_, sized.2.2⟩
    rw [hrest g hg] at hgused
    cases hgused
  · simp only [allocatedOf_append, allocatedOf_cons, allocatedOf_free hrest, free, heused,
      hparts e List.mem_cons_self]
    simp
    omega

/-- `malloc`, when the heap serves the request. -/
theorem malloc_spec (h : WellFormed B m cs) (sized : UsedSized B cs)
    (frames : m.pages.frames = none) (pos : 0 < size) (served : Served B m size)
    (enough : 2 * (cs.length + pagesFor (size + HEADER_SIZE)) < fuel) :
    ∃ x m' cs', m.malloc fuel size = .done (x + HEADER_SIZE, m') ∧ Malloced B m m' cs cs' size x := by
  obtain ⟨m₁, cs₁, m₂, pre, d, suf, x, new, hsteps, hgrown, hx, hfree, hfits, hfind⟩ :=
    findChunk_spec h sized frames served enough
  have hswept := SearchSteps.swept hsteps h
  have hfields := SearchSteps.fields hsteps
  obtain ⟨m', cs', hout, hwf, hkeeps, hends, hblock, hwraps, hsized, hused, k, hallocated, hhanded⟩ :=
    handOut_malloced hgrown.wellFormed (hgrown.sized (hswept.sized sized)) hx hfree hfits
  have hours : ∀ c, Ours c → c.used = true := fun _ h => h.1
  have hkeeps₂ : Keeps Ours m m₂ cs (pre ++ d :: suf) none :=
    (SearchSteps.keeps hsteps h.tiles).trans (hgrown.keeps.weaken hours)
  have hnew : ∀ page ∈ new, m.endPage ≤ page := by
    intro page hpage
    have habove := hgrown.above page hpage
    have hend := h.endPage_eq
    have heq : m₁.endOfChunks = m.endOfChunks := hfields.2.1
    have hP : PAGESIZE = 4096 := rfl
    have hheader : HEADER_SIZE = 8 := rfl
    rw [hP] at habove hend
    omega
  have hbehind : ∀ page, m.endPage ≤ page → m₁.pages.owner page = m.pages.owner page := by
    intro page hpage
    rcases hswept.owner page with hsame | ⟨-, -, hsingle⟩
    · exact hsame
    · exact absurd (h.single_lt hsingle) (not_lt.2 hpage)
  refine ⟨x, m', cs', ?_, hwf, hkeeps₂.trans (hkeeps.weaken hours),
    hends.first.trans (hgrown.first.trans hfields.1), hends.pages ▸ hgrown.maps.frames, hblock, ?_, ?_,
    ?_, ?_, hsized, ⟨k, ?_, ?_⟩, ?_⟩
  · unfold malloc
    rw [if_neg (by simp [h.ready]; omega), hfind, Run.done_bind]
    dsimp only
    rw [hout]
  · intro c hc hcours
    obtain ⟨hc', -⟩ := hkeeps₂ x c hc hcours (Option.some_ne_none x)
    have hd := mem_layout_of m₂ pre d suf
    rw [hx] at hd
    have hpos := (hgrown.wellFormed.tiles.bounds hd).2.2.2.1
    rcases layout_apart hd hc' with ⟨-, rfl⟩ | hapart | hapart
    · rw [hcours.1] at hfree
      cases hfree
    · omega
    · have hpos' := (hgrown.wellFormed.tiles.bounds hc').2.2.2.1
      omega
  · intro page
    rw [hends.pages, hgrown.maps.owner]
    split_ifs with hin
    · exact Or.inr ⟨(hbehind page (hnew page hin)).symm.trans (hgrown.maps.unmapped page hin), rfl⟩
    · exact (hswept.owner page).imp_right fun hnew => ⟨hnew.1, hnew.2.1⟩
  · intro z e he hnot
    rcases hgrown.wraps z e (hwraps z e he hnot) hnot with hold | ⟨hplace, a, b, hlt, ha, hsize, hmapped, hun⟩
    · exact Or.inl (hswept.wraps z e hold hnot)
    · have heq : m₁.endOfChunks = m.endOfChunks := hfields.2.1
      have hend := h.endPage_eq
      have hle : m.endPage ≤ a := by
        refine Nat.le_of_mul_le_mul_right ?_ (show 0 < PAGESIZE by decide)
        omega
      refine Or.inr ⟨heq ▸ hplace, a, b, hlt, ha, hsize, fun i hi hlt => ?_, ?_⟩
      · rw [← hbehind i (hle.trans hi)]
        exact hmapped i hi hlt
      · rw [← hbehind b (by omega)]
        exact hun
  · intro z e he hnot
    rcases hswept.kept z e he hnot with he' | ⟨hsize, page, hplace, hnone, hheap⟩
    · have heused := (h.owned z e he).used hnot
      obtain ⟨he₂, -⟩ := hgrown.keeps z e he' heused (Option.some_ne_none z)
      exact Or.inl (hkeeps z e he₂ heused (Option.some_ne_none z)).1
    · refine Or.inr ⟨hsize, page, hplace, hnone, ?_⟩
      rw [hends.pages, hgrown.maps.owner]
      split_ifs
      · rfl
      · exact hheap
  · rw [hallocated, hgrown.maps.allocated]
    exact congrArg (· + UInt64.ofNat k) hswept.allocated
  · rw [hhanded, hgrown.handed, hswept.handed]
  · intro hw
    have howner : m₁.pages.owner = m.pages.owner := (SearchSteps.wrapped hsteps hw).2.1
    refine ⟨((SearchSteps.keeps_used hsteps h.tiles hw).trans hgrown.keeps).trans hkeeps, new,
      fun page => ?_, fun page hin => ?_, ?_⟩
    · rw [hends.pages, hgrown.maps.owner, howner]
    · rw [← howner]
      exact hgrown.maps.unmapped page hin
    · rw [hused, hgrown.maps.used]
      exact congrArg (· + UInt64.ofNat (new.card * PAGESIZE)) hswept.used

end Whole

end Malloc
