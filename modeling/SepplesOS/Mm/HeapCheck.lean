import SepplesOS.Mm.ReallocKept

/-!
# Heaps that can be looked at

A walk over the memory gives the chunks of a heap, and whether they tile it is decidable.  `GrowsCheck`
and `MallocCheck` say of such a heap that `malloc` has what it needs, by the first page behind the heap
that is not mapped.
-/

namespace Malloc

open Tiling KernelPages

section Walk

variable (m : Malloc) (cs : List ChunkHeader)

/-- The chunks that a walk from an address on meets, at most `n` of them. -/
def chunksFrom : ℕ → ℕ → List ChunkHeader
  | 0, _ => []
  | n + 1, x =>
    if x < m.endOfChunks then m.header x :: chunksFrom n (x + (m.header x).size) else []

/-- The chunks of the heap. -/
def chunks : List ChunkHeader := m.chunksFrom (m.endOfChunks - m.firstChunk) m.firstChunk

instance (page : ℕ) : Decidable (Single m cs page) :=
  decidable_of_iff (∃ e ∈ layout ChunkHeader.size m.firstChunk cs, e.2.notOurs = true ∧
      e.2.size = PAGESIZE + HEADER_SIZE ∧ e.1 + HEADER_SIZE = page * PAGESIZE)
    ⟨fun ⟨e, he, h⟩ => ⟨e.1, e.2, he, h⟩, fun ⟨x, c, hc, h⟩ => ⟨(x, c), hc, h⟩⟩

end Walk

/-! ## What `malloc` needs -/

instance (pages : KernelPages) (p n : ℕ) : Decidable (Clear pages p n) :=
  decidable_of_iff (p + n ≤ END_OF_PAGES ∧ ∀ i < n, pages.owner (p + i) = none)
    ⟨fun h => ⟨h.1, h.2⟩, fun h => ⟨h.low, h.unmapped⟩⟩

instance (pages : KernelPages) (spare : ℕ → Prop) [DecidablePred spare] (p j q size : ℕ) :
    Decidable (Passes pages spare p j q size) :=
  decidable_of_iff (p + j < q ∧ pages.dirs (q / 2 ^ 18) = true ∧
      (∀ i < p, FREE_PAGES_START / PAGESIZE ≤ i → pages.owner i ≠ none ∨ spare i) ∧
      (∀ i < q, p + j ≤ i → pages.owner i ≠ none) ∧ Clear pages q (pagesFor (size + HEADER_SIZE)) ∧
        size + 2 * HEADER_SIZE ≤ pagesFor (size + HEADER_SIZE) * PAGESIZE)
    ⟨fun h => ⟨h.1, h.2.1, fun i hi hlt => h.2.2.1 i hlt hi, fun i hi hlt => h.2.2.2.1 i hlt hi,
        h.2.2.2.2.1, h.2.2.2.2.2⟩,
      fun h => ⟨h.wraps, h.dir, fun i hlt hi => h.below i hi hlt, fun i hlt hi => h.others i hi hlt, h.clear,
        h.fits⟩⟩

/-- The growth is possible, with the page `q` behind all pages of others that it meets. -/
def GrowsCheck (pages : KernelPages) (spare : ℕ → Prop) (inner p size t q : ℕ) : Prop :=
  (t < size + HEADER_SIZE ∨ MALLOC_MINSIZE ≤ t) ∧
    (Clear pages p (pagesFor (size + HEADER_SIZE - t)) ∨
      0 < pagesFor (size + HEADER_SIZE - t) ∧ (t = 0 ∨ inner ≤ t) ∧ Passes pages spare p 0 q size)

instance (pages : KernelPages) (spare : ℕ → Prop) [DecidablePred spare] (inner p size t q : ℕ) :
    Decidable (GrowsCheck pages spare inner p size t q) :=
  inferInstanceAs (Decidable (_ ∧ _))

/-- The first page behind the heap that is not mapped, of the next 512. -/
def behindPage (m : Malloc) : ℕ := (m.pages.firstUnmapped 512 m.endPage).getD 0

/-- `malloc` has what it needs: the search can find a page, all chunks that wrap several have their first
page mapped, and there is the room or the growth is possible. -/
def MallocCheck (B : MinSizes) (m : Malloc) (cs : List ChunkHeader) (size : ℕ) : Prop :=
  (FREE_PAGES_START / PAGESIZE ≤ m.behindPage ∧ m.behindPage < 2 ^ 18 ∧
    m.pages.owner m.behindPage = none ∧ ¬Single m cs m.behindPage ∧ m.pages.dirs 0 = true ∧
    ∀ e ∈ layout ChunkHeader.size m.firstChunk cs, e.2.notOurs = true →
      e.2.size = PAGESIZE + HEADER_SIZE ∨ m.pages.owner ((e.1 + HEADER_SIZE) / PAGESIZE) ≠ none) ∧
  (Wrapped m cs ∧ (realsizeOf size ≤ bestRun cs ∨
      GrowsCheck m.pages (Single m cs) B.inner m.endPage size (trailRun cs) m.behindPage) ∨
    ∃ c ∈ cs.getLast?, GrowsCheck m.pages (Single m cs) B.inner m.endPage size (lastRoom c) m.behindPage ∧
      (lastRoom c = 0 ∨ MALLOC_MINSIZE ≤ lastRoom c ∨ MALLOC_MINSIZE ≤ size + HEADER_SIZE))

instance (B : MinSizes) (m : Malloc) (cs : List ChunkHeader) (size : ℕ) :
    Decidable (MallocCheck B m cs size) :=
  inferInstanceAs (Decidable ((_ ∧ _) ∧ (_ ∨ _)))

section Checks

variable {B : MinSizes} {m : Malloc} {cs : List ChunkHeader} {pages : KernelPages} {spare : ℕ → Prop}
  {inner p size t q f : ℕ}

theorem GrowsCheck.grows (check : GrowsCheck pages spare inner p size t q) :
    Grows pages spare inner p size t := by
  obtain ⟨hsmall, hclear | ⟨hpos, hroom, hpasses⟩⟩ := check
  · exact ⟨hsmall, Or.inl hclear⟩
  · exact ⟨hsmall, Or.inr ⟨0, q, hpos, fun _ => rfl, fun hne => (hroom.resolve_left hne).trans
      (Nat.le_add_right _ _), fun i hi => absurd hi (Nat.not_lt_zero i), hpasses⟩⟩

theorem MallocCheck.safe (check : MallocCheck B m cs size) : MallocSafe B m cs size := by
  obtain ⟨⟨hstart, hlow, hnone, hsingle, hdir, hwhole⟩, hroom⟩ := check
  have hpage : 0 < PAGESIZE := by decide
  refine ⟨⟨⟨m.behindPage, hstart, ?_, hnone, hsingle⟩, fun page hcand => ?_, fun page hcand x c hc hnot hplace => ?_⟩, ?_⟩
  · exact lt_trans hlow (by decide)
  · -- no page above the one found can become the first
    have hle : page ≤ m.behindPage := by
      by_contra hlt
      exact hsingle (hcand.2.2 _ hstart (not_le.1 hlt) hnone)
    rwa [Nat.div_eq_of_lt (lt_of_le_of_lt hle hlow)]
  · refine (hwhole (x, c) hc hnot).resolve_right fun hmapped => hmapped ?_
    rw [hplace, Nat.mul_div_cancel _ hpage]
    exact hcand.2.1
  · rcases hroom with ⟨hwrapped, hfits | hgrows⟩ | ⟨c, hlast, hgrows, hlarge⟩
    · exact Or.inl ⟨hwrapped, hfits⟩
    · exact Or.inr (Or.inl ⟨hwrapped, hgrows.grows⟩)
    · refine Or.inr (Or.inr ⟨cs.dropLast, c, ?_, hgrows.grows, hlarge⟩)
      exact (List.dropLast_append_getLast? c hlast).symm

end Checks

end Malloc
