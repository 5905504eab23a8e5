import SepplesOS.Mm.ReallocKept

/-!
# Requests of any size

`malloc` and `realloc` with the sums of a `size_t` taken in 64 bits, and with the page fault of a header
that is written to a page that is not mapped.  `8 + size` is less than `size` for the last eight sizes;
for all others the chunk that `malloc` splits is large enough, unless the growth has wrapped pages and
the last page of the request has no room for a header more.
-/

/-- The sum of two `u64`. -/
def add64 (a b : ℕ) : ℕ := (a + b) % 2 ^ 64

/-- `mapPage` refuses one of the `n` pages from an address on: others have mapped it, or there is no
frame for it. -/
def KernelPages.Refuses : KernelPages → ℕ → ℕ → Prop
  | _, _, 0 => False
  | pages, vaddr, n + 1 => ∃ r pages', pages.mapPage .heap vaddr = some (r, pages') ∧
      (r ≠ vaddr ∨ Refuses pages' (vaddr + PAGESIZE) n)

namespace Malloc

open Tiling KernelPages

variable (m : Malloc)

/-- `realsize`, as `malloc` and `realloc` compute it. -/
def realsize64 (size : ℕ) : ℕ := max (add64 HEADER_SIZE size) MALLOC_MINSIZE

/-- The header at `x` lies on pages that are mapped.  Writing any other one is a page fault, and the
task ends. -/
def Stores (x : ℕ) : Prop := ∀ i < HEADER_SIZE,
  (x + i) / PAGESIZE < END_OF_PAGES ∧ m.pages.owner ((x + i) / PAGESIZE) ≠ none

instance (x : ℕ) : Decidable (m.Stores x) :=
  inferInstanceAs (Decidable (∀ i < HEADER_SIZE, _ ∧ ¬_))

/-- The headers written when a chunk is handed out: its own, and the one of the rest when it is split. -/
def HandsOut (chunk realsize : ℕ) : Prop :=
  m.Stores chunk ∧
    (MALLOC_MINSIZE ≤ sub64 (m.header chunk).size realsize → m.Stores (chunk + realsize))

instance (chunk realsize : ℕ) : Decidable (m.HandsOut chunk realsize) :=
  inferInstanceAs (Decidable (_ ∧ (_ → _)))

/-- The chunk that `malloc` hands out, before it is split. -/
def findChunk64 (fuel size : ℕ) : Run Malloc (Malloc × ℕ) :=
  m.findChunkFor fuel (add64 size HEADER_SIZE) (realsize64 size)

/-- `malloc`. -/
def malloc64 (fuel size : ℕ) : Run Malloc (ℕ × Malloc) :=
  if ¬m.mallocReady ∨ size = 0 then .done (0, m)
  else do
    let (m, chunk) ← m.findChunk64 fuel size
    if m.HandsOut chunk (realsize64 size) then .done (m.handOut chunk (realsize64 size))
    else .halted m

/-- `realloc`. -/
def realloc64 (fuel vaddr newsize : ℕ) : Run Malloc (ℕ × Malloc) :=
  m.reallocBy (m.malloc64 fuel newsize) fuel vaddr (realsize64 newsize)

section Words

variable {m m₁ m' : Malloc} {size fuel x vaddr : ℕ}

/-! ## Sizes whose sum does not wrap -/

theorem add64_eq {a b : ℕ} (lt : a + b < 2 ^ 64) : add64 a b = a + b := Nat.mod_eq_of_lt lt

theorem realsize64_eq (lt : size + HEADER_SIZE < 2 ^ 64) : realsize64 size = realsizeOf size := by
  unfold realsize64
  rw [add64_eq (by omega)]
  rfl

theorem findChunk64_eq (lt : size + HEADER_SIZE < 2 ^ 64) :
    m.findChunk64 fuel size = m.findChunk fuel size := by
  unfold findChunk64 findChunk
  rw [add64_eq lt, realsize64_eq lt]

theorem malloc64_done (result : m.malloc64 fuel size = .done (vaddr, m')) (ne : vaddr ≠ 0) :
    ∃ m₁ x, m.findChunk64 fuel size = .done (m₁, x) ∧ vaddr = x + HEADER_SIZE ∧
      m' = (m₁.handOut x (realsize64 size)).2 ∧ 0 < size := by
  unfold malloc64 at result
  split_ifs at result with hstop
  · obtain ⟨rfl, -⟩ := Prod.mk.inj (Run.done.inj result)
    exact absurd rfl ne
  · obtain ⟨⟨m₁, x⟩, hfind, hout⟩ := Run.bind_eq_done result
    dsimp only at hout
    split_ifs at hout
    have hpair : m₁.handOut x (realsize64 size) = (vaddr, m') := Run.done.inj hout
    have hvaddr : (m₁.handOut x (realsize64 size)).1 = x + HEADER_SIZE := by rw [handOut_eq]
    rw [hpair] at hvaddr
    exact ⟨m₁, x, hfind, hvaddr, by rw [hpair], Nat.pos_of_ne_zero fun h => hstop (Or.inr h)⟩

/-- It is the block that the call over the natural numbers returns. -/
theorem malloc_of_malloc64 (lt : size + HEADER_SIZE < 2 ^ 64)
    (result : m.malloc64 fuel size = .done (vaddr, m')) : m.malloc fuel size = .done (vaddr, m') := by
  unfold malloc64 at result
  unfold malloc
  split_ifs at result ⊢ with hstop
  · exact result
  · obtain ⟨⟨m₁, x⟩, hfind, hout⟩ := Run.bind_eq_done result
    dsimp only at hout
    split_ifs at hout
    rw [findChunk64_eq lt] at hfind
    rw [realsize64_eq lt] at hout
    rw [hfind, Run.done_bind]
    exact hout

/-! ## The size of the chunk -/

theorem header_putHeader_fields (x : ℕ) (h : ChunkHeader) :
    ((m.putHeader x h).header x).size = h.size % 2 ^ 48 ∧
      ((m.putHeader x h).header x).used = h.used := by
  unfold header putHeader
  rw [Buf.leNat_putLeNat, Nat.mod_eq_of_lt h.toWord_lt]
  unfold ChunkHeader.ofWord ChunkHeader.toWord
  obtain ⟨n, g, u, o⟩ := h
  constructor
  · cases u <;> cases o <;> simp only [Bool.toNat_false, Bool.toNat_true] <;> omega
  · cases u <;> cases o <;>
      simp only [Bool.toNat_false, Bool.toNat_true, decide_eq_true_eq, decide_eq_false_iff_not] <;> omega

theorem header_size_lt (m : Malloc) (x : ℕ) : (m.header x).size < 2 ^ 48 := Nat.mod_lt _ (by decide)

/-- The search ends at a chunk that is large enough, whatever the memory holds. -/
theorem search_large (realsize fuel : ℕ) (m : Malloc) (x : ℕ) (other : Option ℕ) (next : ℕ) :
    Run.Sat (search realsize fuel m x other next)
      (fun r => ∀ y, r.2 = .chunk y → realsize ≤ (r.1.header y).size) (fun _ => True) True := by
  induction fuel generalizing m x other next with
  | zero => exact Run.sat_running trivial
  | succ fuel ih =>
    unfold search
    dsimp only
    split_ifs with hskip hbad
    · exact Run.sat_halted trivial
    · cases m.freeBefore other x with
      | some o => exact ih _ _ _ _
      | none =>
        refine Run.Sat.bind ((reclaim_sat m next x).mono (fun _ h => h) (fun _ h => h) False.elim) ?_
        intro r _
        split_ifs
        · refine Run.sat_done fun y hy => ?_
          cases hy
        · exact Run.sat_halted trivial
        · exact ih _ _ _ _
    · refine Run.sat_done fun y hy => ?_
      obtain rfl := Found.chunk.inj hy
      exact not_lt.1 fun hlt => hskip (Or.inr hlt)

/-! ## The pages of the growth -/

theorem addPage_other_used (g : Growth) :
    ((addPage g).m.header (addPage g).other).used = (g.m.header g.other).used := by
  have hother : (addPage g).other = g.other := rfl
  rw [hother]
  by_cases hused : (g.m.header g.other).used = true
  · exact congrArg ChunkHeader.used (header_congr fun y _ _ => congrFun (addPage_used hused) y)
  · have hmem := addPage_free hused
    have hheader : (addPage g).m.header g.other =
        (g.m.putHeader g.other ((g.m.header g.other).enlarge PAGESIZE)).header g.other :=
      header_congr fun y _ _ => congrFun hmem y
    rw [hheader]
    exact (header_putHeader_fields _ _).2

theorem pageAt_add (a : ℕ) : pageAt (a + PAGESIZE) = (pageAt a + 1) % 2 ^ 36 := by
  unfold pageAt
  rw [Nat.add_div_right _ (by decide : 0 < PAGESIZE), Nat.mod_add_mod]

theorem mapPage_low {pages : KernelPages} {vaddr : ℕ} {r : ℕ × KernelPages} (pos : vaddr ≠ 0)
    (h : pages.mapPage .heap vaddr = some r) : pageAt vaddr < END_OF_PAGES := by
  unfold mapPage at h
  rw [if_neg pos] at h
  unfold mapPageAt at h
  dsimp only at h
  split_ifs at h with hlow
  exact not_le.1 hlow

/-- There are no more pages in what has been got than the address space has. -/
structure Inside (g : Growth) : Prop where
  few : g.totalAlloced ≤ PAGESIZE * (pageAt (g.m.endOfChunks + HEADER_SIZE) + 1)
  low : g.totalAlloced ≤ PAGESIZE ∨ pageAt (g.m.endOfChunks + HEADER_SIZE) ≤ END_OF_PAGES

/-- The growth has got `k` pages in a row, all where it asked for them. -/
structure Straight (g₀ g : Growth) (k : ℕ) : Prop where
  other : g.other = g₀.other
  oldEnd : g.oldEndOfChunks = g₀.oldEndOfChunks
  used : (g.m.header g.other).used = (g₀.m.header g₀.other).used
  total : g.totalAlloced = g₀.totalAlloced + k * PAGESIZE
  needed : g.needToAlloc = g₀.needToAlloc - k * PAGESIZE
  le : k ≤ pagesFor g₀.needToAlloc

/-- The growth has wrapped pages, and got `k` pages behind them. -/
structure Behind (need : ℕ) (g : Growth) (k : ℕ) : Prop where
  used : (g.m.header g.other).used = true
  total : g.totalAlloced = k * PAGESIZE - HEADER_SIZE
  needed : g.needToAlloc = need - k * PAGESIZE
  le : k ≤ pagesFor need

section Rounds

variable {g g₀ : Growth} {pages : KernelPages} {need k n : ℕ}

theorem Inside.addPage (fit : g.totalAlloced ≤ 0 ∨
      pageAt (g.m.endOfChunks + HEADER_SIZE) < END_OF_PAGES ∧
        g.totalAlloced ≤ PAGESIZE * (pageAt (g.m.endOfChunks + HEADER_SIZE) + 1)) :
    Inside (addPage g) := by
  have hlast : (Malloc.addPage g).m.endOfChunks + HEADER_SIZE =
      g.m.endOfChunks + HEADER_SIZE + PAGESIZE := by
    rw [(addPage_fields g).2.2.1]
    exact Nat.add_right_comm _ _ _
  have htotal : (Malloc.addPage g).totalAlloced = g.totalAlloced + PAGESIZE := rfl
  have hpage : PAGESIZE = 4096 := rfl
  have hnext := pageAt_add (g.m.endOfChunks + HEADER_SIZE)
  rw [hpage] at fit
  unfold END_OF_PAGES at fit
  constructor
  · rw [htotal, hlast, hnext, hpage]
    push_cast
    omega
  · rw [htotal, hlast, hnext, hpage]
    unfold END_OF_PAGES
    push_cast
    omega

theorem Straight.addPage (straight : Straight g₀ g k) (more : g.needToAlloc ≠ 0) (pages : KernelPages) :
    Straight g₀ (addPage { g with m := { g.m with pages := pages } }) (k + 1) := by
  have hneed := straight.needed
  have hlt : k < pagesFor g₀.needToAlloc := lt_pagesFor.2 (by omega)
  have hpage : PAGESIZE = 4096 := rfl
  constructor
  case other => exact straight.other
  case oldEnd => exact straight.oldEnd
  case used =>
    rw [addPage_other_used]
    exact straight.used
  case total =>
    show g.totalAlloced + PAGESIZE = _
    rw [straight.total]
    push_cast
    ring
  case needed =>
    show g.needToAlloc - min g.needToAlloc PAGESIZE = _
    rw [hneed, hpage]
    omega
  case le => exact hlt

theorem Behind.addPage (behind : Behind need g k) (more : g.needToAlloc ≠ 0) (pages : KernelPages) :
    Behind need (addPage { g with m := { g.m with pages := pages } }) (k + 1) := by
  have hneed := behind.needed
  have hpage : PAGESIZE = 4096 := rfl
  constructor
  case used =>
    rw [addPage_other_used]
    exact behind.used
  case total =>
    show g.totalAlloced + PAGESIZE = _
    rw [behind.total]
    push_cast
    ring
  case needed =>
    show g.needToAlloc - min g.needToAlloc PAGESIZE = _
    rw [hneed, hpage]
    omega
  case le => exact lt_pagesFor.2 (by omega)

theorem wrap_restarts (need : ℕ) (g : Growth) :
    Run.Sat (wrap need g) (fun r => Behind need r 0 ∧ r.needToAlloc = need) (fun _ => True) False := by
  unfold wrap
  apply Run.Sat.bind (Run.sat_ofOption (fun _ _ => trivial) fun _ => trivial)
  intro r _
  apply Run.Sat.bind (Run.sat_ofOption (fun _ _ => trivial) fun _ => trivial)
  intro r' _
  apply Run.sat_done
  refine ⟨⟨?_, by simp, by simp, Nat.zero_le _⟩, rfl⟩
  exact (header_putHeader_fields _ _).2

theorem refuses_succ {vaddr r : ℕ} {pages' : KernelPages}
    (map : pages.mapPage .heap vaddr = some (r, pages')) :
    pages.Refuses vaddr (n + 1) ↔ r ≠ vaddr ∨ pages'.Refuses (vaddr + PAGESIZE) n := by
  constructor
  · rintro ⟨r', pages'', hmap, hcase⟩
    rw [map] at hmap
    obtain ⟨rfl, rfl⟩ := Prod.mk.inj (Option.some.inj hmap)
    exact hcase
  · exact fun hcase => ⟨r, pages', map, hcase⟩

theorem grow_inside (need fuel : ℕ) (g : Growth) (inside : Inside g) :
    Run.Sat (grow need fuel g) Inside (fun _ => True) True := by
  induction fuel generalizing g with
  | zero => exact Run.sat_running trivial
  | succ fuel ih =>
    rw [grow]
    split_ifs
    · exact Run.sat_done inside
    · refine Run.Sat.bind (Run.sat_ofOption (fun _ hmap => mapPage_low (by
        have hheader : HEADER_SIZE = 8 := rfl
        omega) hmap) fun _ => trivial) fun r hlow => ?_
      dsimp only
      split_ifs
      · refine Run.Sat.bind ((wrap_restarts need _).mono (fun _ h => h) (fun _ h => h) False.elim) ?_
        rintro g' ⟨hbehind, -⟩
        have htotal := hbehind.total
        exact ih _ (Inside.addPage (Or.inl (by omega)))
      · exact ih _ (Inside.addPage (Or.inr ⟨hlow, inside.few⟩))

/-- Behind a wrap the loop ends with the pages of the whole request, less a header. -/
theorem grow_behind (need fuel : ℕ) (g : Growth) (behind : Behind need g k) :
    Run.Sat (grow need fuel g) (fun g' => Behind need g' (pagesFor need)) (fun _ => True) True := by
  induction fuel generalizing g k with
  | zero => exact Run.sat_running trivial
  | succ fuel ih =>
    have hneed := behind.needed
    have hle := behind.le
    rw [grow]
    split_ifs with hdone
    · have hall : ¬k < pagesFor need := fun hlt => by
        have hlack := lt_pagesFor.1 hlt
        omega
      obtain rfl : k = pagesFor need := by omega
      exact Run.sat_done behind
    · refine Run.Sat.bind (Run.sat_ofOption (fun _ hmap => hmap) fun _ => trivial) fun r _ => ?_
      dsimp only
      split_ifs
      · refine Run.Sat.bind ((wrap_restarts need _).mono (fun _ h => h) (fun _ h => h) False.elim) ?_
        rintro g' ⟨hbehind, hmore⟩
        refine ih _ (hbehind.addPage ?_ g'.m.pages)
        omega
      · exact ih _ (behind.addPage hdone r.2)

theorem grow_straight (pos : 0 < need) (fuel : ℕ) (g : Growth) (straight : Straight g₀ g k) :
    Run.Sat (grow need fuel g)
      (fun g' => g.m.pages.Refuses (g.m.endOfChunks + HEADER_SIZE) (pagesFor g₀.needToAlloc - k) ∧
          Behind need g' (pagesFor need) ∨
        ¬g.m.pages.Refuses (g.m.endOfChunks + HEADER_SIZE) (pagesFor g₀.needToAlloc - k) ∧
          Straight g₀ g' (pagesFor g₀.needToAlloc))
      (fun _ => True) True := by
  induction fuel generalizing g k with
  | zero => exact Run.sat_running trivial
  | succ fuel ih =>
    have hneed := straight.needed
    have hle := straight.le
    rw [grow]
    split_ifs with hdone
    · have hall : ¬k < pagesFor g₀.needToAlloc := fun hlt => by
        have hlack := lt_pagesFor.1 hlt
        omega
      obtain rfl : k = pagesFor g₀.needToAlloc := by omega
      rw [Nat.sub_self]
      exact Run.sat_done (Or.inr ⟨id, straight⟩)
    · have hlt : k < pagesFor g₀.needToAlloc := lt_pagesFor.2 (by omega)
      obtain ⟨n, hn⟩ : ∃ n, pagesFor g₀.needToAlloc - k = n + 1 :=
        ⟨pagesFor g₀.needToAlloc - (k + 1), by omega⟩
      have hnext : pagesFor g₀.needToAlloc - (k + 1) = n := by omega
      refine Run.Sat.bind (Run.sat_ofOption (fun _ hmap => hmap) fun _ => trivial) ?_
      rintro ⟨r, pages'⟩ hmap
      rw [hn, refuses_succ hmap]
      dsimp only
      split_ifs with hrefused
      · refine Run.Sat.bind ((wrap_restarts need _).mono (fun _ h => h) (fun _ h => h) False.elim) ?_
        rintro g' ⟨hbehind, hmore⟩
        refine (grow_behind need fuel _ (hbehind.addPage ?_ g'.m.pages)).mono ?_ (fun _ h => h) id
        · omega
        · exact fun _ h => Or.inl ⟨Or.inl hrefused, h⟩
      · have hstep := ih _ (straight.addPage hdone pages')
        rw [hnext] at hstep
        refine hstep.mono (fun g' h => ?_) (fun _ h => h) id
        have hplace : (Malloc.addPage { g with m := { g.m with pages := pages' } }).m.endOfChunks +
            HEADER_SIZE = g.m.endOfChunks + HEADER_SIZE + PAGESIZE := by
          rw [(addPage_fields _).2.2.1]
          exact Nat.add_right_comm _ _ _
        rw [(addPage_fields _).1, hplace] at h
        rcases h with ⟨hrefuses, hbehind⟩ | ⟨hnone, hstraight⟩
        · exact Or.inl ⟨Or.inr hrefuses, hbehind⟩
        · exact Or.inr ⟨fun hcase => hcase.elim hrefused hnone, hstraight⟩

end Rounds

/-- The pages of a request have room for a header more. -/
def Spare (size : ℕ) : Prop := size + 2 * HEADER_SIZE ≤ pagesFor (size + HEADER_SIZE) * PAGESIZE

instance (size : ℕ) : Decidable (Spare size) := Nat.decLe _ _

/-- The search of `malloc` finds no chunk, and `mapPage` refuses one of the pages that the growth behind
the last chunk asks for. -/
def Wraps (m : Malloc) (size : ℕ) : Prop :=
  ∃ m₁ other, Searches m size m₁ (.atEnd other) ∧ m₁.pages.Refuses (m₁.endOfChunks + HEADER_SIZE)
    (pagesFor (lacking (m₁.header other) size))

/-- The chunk that the growth gets is large enough unless it lies behind a wrap, and its pages have no
room for a header more. -/
theorem growAtEnd_large {other : ℕ} (result : m₁.growAtEnd fuel size other = .done (m', x)) :
    realsizeOf size ≤ (m'.header x).size ↔ Spare size ∨
      ¬m₁.pages.Refuses (m₁.endOfChunks + HEADER_SIZE)
        (pagesFor (lacking (m₁.header other) size)) := by
  have hheader : HEADER_SIZE = 8 := rfl
  have hpage : PAGESIZE = 4096 := rfl
  have hmin : MALLOC_MINSIZE = 32 := rfl
  have hpos := pagesFor_pos size
  have hroom := le_pagesFor (size + HEADER_SIZE)
  unfold growAtEnd growFor at result
  rw [startGrowth_eq rfl] at result
  obtain ⟨g, hgrow, huse⟩ := Run.bind_eq_done result
  have hinside := (grow_inside (size + HEADER_SIZE) fuel
    ⟨m₁, other, m₁.endOfChunks, 0, lacking (m₁.header other) size⟩
    ⟨by positivity, Or.inl (by positivity)⟩).of_done hgrow
  have hcase := (grow_straight (k := 0) (show 0 < size + HEADER_SIZE by omega) fuel
    ⟨m₁, other, m₁.endOfChunks, 0, lacking (m₁.header other) size⟩
    ⟨rfl, rfl, rfl, by simp, by simp, Nat.zero_le _⟩).of_done hgrow
  rw [Nat.sub_zero] at hcase
  dsimp only at hcase
  have hfew := hinside.few
  have hlow := hinside.low
  unfold useGrowth at huse
  dsimp only at huse
  split_ifs at huse with haligned hused hsmall
  · obtain ⟨rfl, rfl⟩ := Prod.mk.inj (Run.done.inj huse)
    have hlt : g.totalAlloced.toNat < 2 ^ 48 := by
      rw [hpage] at hfew hlow
      unfold END_OF_PAGES at hlow
      push_cast at hfew hlow
      omega
    rw [(header_putHeader_fields _ _).1]
    dsimp only
    rw [Nat.mod_eq_of_lt hlt]
    unfold Spare realsizeOf
    rw [max_le_iff]
    rcases hcase with ⟨hrefuses, hbehind⟩ | ⟨hnone, hstraight⟩
    · have htotal := hbehind.total
      rw [or_iff_left (not_not.2 hrefuses)]
      rw [hpage, hheader] at htotal hroom ⊢
      omega
    · have htotal := hstraight.total
      have hold : (m₁.header other).used = true := hstraight.used.symm.trans hused
      have hlacking : lacking (m₁.header other) size = size + HEADER_SIZE := if_pos hold
      dsimp only at htotal
      rw [hlacking, hpage] at htotal
      rw [hpage] at hroom
      exact iff_of_true (by omega) (Or.inr hnone)
  · obtain ⟨rfl, rfl⟩ := Prod.mk.inj (Run.done.inj huse)
    refine iff_of_true (not_lt.1 hsmall) (Or.inr fun hrefuses => ?_)
    rcases hcase with ⟨-, hbehind⟩ | ⟨hnone, -⟩
    · exact hused hbehind.used
    · exact hnone hrefuses

/-- The chunk that `malloc` splits is large enough unless it lies behind a wrap, and its pages have no
room for a header more. -/
theorem findChunk_large_iff (result : m.findChunk fuel size = .done (m', x)) :
    realsizeOf size ≤ (m'.header x).size ↔ Spare size ∨ ¬Wraps m size := by
  unfold findChunk findChunkFor at result
  obtain ⟨⟨next, pages⟩, hlook, hfind⟩ := Run.bind_eq_done result
  have hsome : m.pages.getUnmappedVAddr = some (next, pages) := by
    cases hnone : m.pages.getUnmappedVAddr with
    | none =>
      rw [hnone] at hlook
      cases hlook
    | some p =>
      rw [hnone] at hlook
      exact congrArg some (Run.done.inj hlook)
  obtain ⟨⟨m₁, found⟩, hsearch, hfind⟩ := Run.bind_eq_done hfind
  have hsearches : Searches m size m₁ found := ⟨fuel, next, pages, hsome, hsearch⟩
  have hlarge := (search_large (realsizeOf size) fuel _ _ none next).of_done hsearch
  cases found with
  | chunk y =>
    obtain ⟨rfl, rfl⟩ := Prod.mk.inj (Run.done.inj hfind)
    refine iff_of_true (hlarge y rfl) (Or.inr ?_)
    rintro ⟨m₂, other, hother, -⟩
    exact Found.noConfusion (hsearches.unique hother).2
  | atEnd o =>
    rw [growAtEnd_large (show m₁.growAtEnd fuel size o = .done (m', x) from hfind)]
    have hwraps : Wraps m size ↔ m₁.pages.Refuses (m₁.endOfChunks + HEADER_SIZE)
        (pagesFor (lacking (m₁.header o) size)) := by
      constructor
      · rintro ⟨m₂, other, hother, hrefuses⟩
        obtain ⟨rfl, hfound⟩ := hsearches.unique hother
        obtain rfl := Found.atEnd.inj hfound
        exact hrefuses
      · exact fun hrefuses => ⟨m₁, o, hsearches, hrefuses⟩
    rw [hwraps]

theorem handOut_large {x realsize : ℕ} (fits : realsize ≤ (m.header x).size) :
    realsize ≤ (((m.handOut x realsize).2).header x).size := by
  have hlt := header_size_lt m x
  have htake : ((m.handOut x realsize).2).header x = (m.take x realsize).header x := by
    rw [handOut_eq]
    exact header_congr fun y _ _ => congrFun addAllocated_mem y
  rw [htake]
  unfold take
  dsimp only
  split_ifs
  · rw [(header_putHeader_fields _ _).1]
    dsimp only
    rw [Nat.mod_eq_of_lt (by omega)]
  · rw [(header_putHeader_fields _ _).1]
    dsimp only
    rwa [Nat.mod_eq_of_lt hlt]


/-! ## `malloc` -/

/-- The chunk that `malloc` splits has room for the request. -/
def Large (m : Malloc) (fuel size : ℕ) : Prop :=
  ∃ m₁ x, m.findChunk64 fuel size = .done (m₁, x) ∧ realsize64 size ≤ (m₁.header x).size

/-- A call of `malloc` that has returned a block has kept its request: the sum for the header did not
wrap, the chunk was large enough for the split, and the block has the size asked for. -/
def MallocKept (m : Malloc) (fuel size vaddr : ℕ) (m' : Malloc) : Prop :=
  HEADER_SIZE + size ≤ realsize64 size ∧ Large m fuel size ∧
    HEADER_SIZE + size ≤ (m'.header (vaddr - HEADER_SIZE)).size

theorem header_add_le_realsize64 (fit : size + HEADER_SIZE < 2 ^ 64) :
    HEADER_SIZE + size ≤ realsize64 size := by
  rw [realsize64_eq fit]
  exact header_add_le_realsizeOf

theorem malloc64_large_iff (fit : size + HEADER_SIZE < 2 ^ 64)
    (result : m.malloc64 fuel size = .done (vaddr, m')) (ne : vaddr ≠ 0) :
    Large m fuel size ↔ Spare size ∨ ¬Wraps m size := by
  obtain ⟨m₁, x, hfind, -⟩ := malloc64_done result ne
  have hlarge : Large m fuel size ↔ realsizeOf size ≤ (m₁.header x).size := by
    unfold Large
    rw [realsize64_eq fit, hfind]
    constructor
    · rintro ⟨m₂, y, hdone, hle⟩
      obtain ⟨rfl, rfl⟩ := Prod.mk.inj (Run.done.inj hdone)
      exact hle
    · exact fun hle => ⟨m₁, x, rfl, hle⟩
  rw [findChunk64_eq fit] at hfind
  rw [hlarge, findChunk_large_iff hfind]

theorem malloc64_size (fit : size + HEADER_SIZE < 2 ^ 64)
    (result : m.malloc64 fuel size = .done (vaddr, m')) (ne : vaddr ≠ 0) (large : Large m fuel size) :
    HEADER_SIZE + size ≤ (m'.header (vaddr - HEADER_SIZE)).size := by
  obtain ⟨m₁, x, hfind, rfl, rfl, -⟩ := malloc64_done result ne
  obtain ⟨m₂, y, hdone, hle⟩ := large
  obtain ⟨rfl, rfl⟩ := Prod.mk.inj (Run.done.inj (hfind.symm.trans hdone))
  rw [Nat.add_sub_cancel]
  exact (header_add_le_realsize64 fit).trans (handOut_large hle)

theorem malloc64_kept_iff (result : m.malloc64 fuel size = .done (vaddr, m')) (ne : vaddr ≠ 0) :
    MallocKept m fuel size vaddr m' ↔
      size + HEADER_SIZE < 2 ^ 64 ∧ (Spare size ∨ ¬Wraps m size) := by
  constructor
  · rintro ⟨-, hlarge, hsize⟩
    have hlt := header_size_lt m' (vaddr - HEADER_SIZE)
    have hheader : HEADER_SIZE = 8 := rfl
    have hfit : size + HEADER_SIZE < 2 ^ 64 := by omega
    exact ⟨hfit, (malloc64_large_iff hfit result ne).1 hlarge⟩
  · rintro ⟨hfit, hcase⟩
    have hlarge := (malloc64_large_iff hfit result ne).2 hcase
    exact ⟨header_add_le_realsize64 hfit, hlarge, malloc64_size hfit result ne hlarge⟩

end Words

end Malloc
