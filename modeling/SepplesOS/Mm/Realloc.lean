import SepplesOS.Mm.MallocFilled
import SepplesOS.Mm.Squeeze

/-!
# `realloc`

In place, `realloc` gives one or two neighbouring chunks other bounds.  `Recut` says what such an edit
writes, and `Recut.realloced` what follows for the heap and the block.  A move is a `malloc`, a copy and
a `free`.
-/

namespace Malloc

open Tiling KernelPages

/-! ## What a call does -/

/-- `totalMemAllocated` is the number of bytes handed out. -/
def Counted (m : Malloc) (cs : List ChunkHeader) : Prop :=
  m.totalMemAllocated = UInt64.ofNat (allocatedOf cs)

/-- What `realloc` of the block behind `x` to `size` bytes does; the new block lies behind `y`. -/
structure Realloced (C : MinSizes) (m m' : Malloc) (cs cs' : List ChunkHeader) (size x y : ℕ) :
    Prop where
  wellFormed : WellFormed C m' cs'
  sized : UsedSized C cs'
  frames : m'.pages.frames = none
  first : m'.firstChunk = m.firstChunk
  block : ∃ d, (y, d) ∈ layout ChunkHeader.size m'.firstChunk cs' ∧ Ours d ∧ realsizeOf size ≤ d.size
  bytes : ∀ c, (x, c) ∈ layout ChunkHeader.size m.firstChunk cs → ∀ i < size,
    i + HEADER_SIZE < c.size → m'.mem (y + HEADER_SIZE + i) = m.mem (x + HEADER_SIZE + i)
  keeps : Keeps Ours m m' cs cs' (some x)
  fresh : y ≠ x → ∀ c, (y, c) ∈ layout ChunkHeader.size m.firstChunk cs → ¬Ours c
  wraps : ∀ z e, (z, e) ∈ layout ChunkHeader.size m'.firstChunk cs' → e.notOurs = true →
    (z, e) ∈ layout ChunkHeader.size m.firstChunk cs ∨ m.endOfChunks ≤ z ∧ WrapsAll m z e
  kept : ∀ z e, (z, e) ∈ layout ChunkHeader.size m.firstChunk cs → e.notOurs = true →
    (z, e) ∈ layout ChunkHeader.size m'.firstChunk cs' ∨ e.size = PAGESIZE + HEADER_SIZE ∧
      ∃ page, z + HEADER_SIZE = page * PAGESIZE ∧ m.pages.owner page = none
  counted : Counted m cs → Counted m' cs'

/-- The blocks there are afterwards, other than the new one, were there before, and the old one is none
of them. -/
def OnlyKept (m m' : Malloc) (cs cs' : List ChunkHeader) (x y : ℕ) : Prop :=
  ∀ z e, (z, e) ∈ layout ChunkHeader.size m'.firstChunk cs' → Ours e → z ≠ y →
    z ≠ x ∧ (z, e) ∈ layout ChunkHeader.size m.firstChunk cs

/-! ## Copies -/

section Copy

variable {B : MinSizes} {m : Malloc} {cs : List ChunkHeader} {x : ℕ}

theorem copy_header {dst src n : ℕ} (apart : x + HEADER_SIZE ≤ dst ∨ dst + n ≤ x) :
    (m.copy dst src n).header x = m.header x :=
  header_congr fun i _ _ => Buf.copy_of_not (by omega)

theorem Tiles.copy {d : ChunkHeader} {src n : ℕ} (tiles : Tiles B m cs)
    (block : (x, d) ∈ layout ChunkHeader.size m.firstChunk cs) (le : HEADER_SIZE + n ≤ d.size) :
    Tiles B (m.copy (x + HEADER_SIZE) src n) cs := by
  refine ⟨fun z e he => ?_, tiles.reach, tiles.sized, tiles.room⟩
  have hz := tiles.header z e he
  rw [copy_header]
  · exact hz
  · rcases layout_apart block he with ⟨rfl, -⟩ | hbelow | habove
    · exact Or.inl le_rfl
    · exact Or.inr (by omega)
    · exact Or.inl (by omega)

end Copy

/-! ## In place -/

/-- The chunks `mid` of the list, all ours, become `mid'`, which take the same room.  Memory changes there
only, or behind the last chunk when `mid` is the end of the list. -/
structure Recut (m m' : Malloc) (pre mid mid' suf : List ChunkHeader) (a : ℕ) : Prop where
  start : m.firstChunk + span ChunkHeader.size pre = a
  same : SameEnds m m'
  used : m'.totalMemUsed = m.totalMemUsed
  room : span ChunkHeader.size mid' = span ChunkHeader.size mid
  ours : ∀ e ∈ mid, e.notOurs = false
  ours' : ∀ e ∈ mid', e.notOurs = false
  mem : ∀ y, y < a ∨ suf ≠ [] ∧ a + span ChunkHeader.size mid ≤ y → m'.mem y = m.mem y
  header : ∀ z e, (z, e) ∈ layout ChunkHeader.size a mid' → m'.header z = e ∧ e.magic = MAGIC

/-- A chunk of `k` bytes in front of the chunks `rest` is large enough. -/
def Ample (C : MinSizes) (k : ℕ) (rest : List ChunkHeader) : Prop :=
  C.inner ≤ k ∨ rest = [] ∧ C.last ≤ k

section InPlace

variable {B C : MinSizes} {m m' m₀ : Malloc} {pre mid mid' suf cs : List ChunkHeader}
  {a x y k size : ℕ} {c d f h : ChunkHeader}

theorem Recut.edit (recut : Recut m m' pre mid mid' suf a) :
    Edit m m' pre mid mid' suf a (a + span ChunkHeader.size mid) :=
  Edit.inside recut.start rfl recut.room recut.same.first recut.same.last recut.mem

theorem sized_replace (sized : Sized B (pre ++ mid ++ suf)) (ne : mid ≠ []) (ne' : mid' ≠ [])
    (inner : C.inner ≤ B.inner) (last : C.last ≤ B.last) (new : Sized C mid')
    (large : suf ≠ [] → ∀ e ∈ mid', C.inner ≤ e.size) : Sized C (pre ++ mid' ++ suf) := by
  by_cases hsuf : suf = []
  · subst hsuf
    rw [List.append_nil] at sized ⊢
    rw [sized_append ne] at sized
    rw [sized_append ne']
    exact ⟨fun e he => inner.trans (sized.1 e he), new⟩
  · rw [sized_append hsuf] at sized ⊢
    refine ⟨fun e he => ?_, sized.2.mono inner last⟩
    rcases List.mem_append.1 he with he | he
    · exact inner.trans (sized.1 e (List.mem_append_left _ he))
    · exact large hsuf e he

theorem Recut.wellFormed (recut : Recut m m' pre mid mid' suf a)
    (h : WellFormed B m (pre ++ mid ++ suf)) (ne : mid ≠ []) (sized : Sized C (pre ++ mid' ++ suf)) :
    WellFormed C m' (pre ++ mid' ++ suf) := by
  have hsame := recut.same
  have htiles := recut.edit.tiles_inside h.tiles ne recut.room hsame.last sized recut.header
  refine h.recut recut.start rfl hsame.first (fun _ => by rw [recut.room]) htiles hsame.ready
    (hsame.pages ▸ h.pages) (hsame.last ▸ h.aligned) (fun _ _ => by rw [hsame.pages])
    (fun z e he => ?_) fun q hq => ?_
  · have hbounds := layout_bounds he
    rw [recut.room] at hbounds
    refine Owned.of_ours (recut.ours' e (mem_of_layout he)) fun y hle hlt => ?_
    obtain ⟨z', e', he', hz', hy'⟩ := exists_mem_layout (show a ≤ y by omega)
      (show y < a + span ChunkHeader.size mid by omega)
    have hmem : (z', e') ∈ layout ChunkHeader.size m.firstChunk (pre ++ mid ++ suf) := by
      rw [layout_parts recut.start rfl]
      exact List.mem_append_left _ (List.mem_append_right _ he')
    rw [hsame.pages]
    exact (h.owned z' e' hmem).ours (recut.ours e' (mem_of_layout he')) y hz' hy'
  · rw [hsame.last] at hq
    rw [hsame.pages]
    exact h.beyond q hq

/-- The chunks of the new list are new ones, or lie where they were. -/
theorem Recut.mem_layout (recut : Recut m m' pre mid mid' suf a)
    (chunk : (y, d) ∈ layout ChunkHeader.size m'.firstChunk (pre ++ mid' ++ suf)) :
    (y, d) ∈ layout ChunkHeader.size a mid' ∨
      (y, d) ∈ layout ChunkHeader.size m.firstChunk (pre ++ mid ++ suf) := by
  rw [recut.edit.layout', List.mem_append, List.mem_append] at chunk
  rw [layout_parts recut.start rfl, List.mem_append, List.mem_append]
  rcases chunk with (hc | hc) | hc
  · exact Or.inr (Or.inl (Or.inl hc))
  · exact Or.inl hc
  · exact Or.inr (Or.inr hc)

/-- The block at `x`, the only one in the part, becomes the one at `y`. -/
theorem Recut.realloced (recut : Recut m m' pre mid mid' suf a)
    (wf : WellFormed B m (pre ++ mid ++ suf)) (sized : UsedSized B (pre ++ mid ++ suf))
    (frames : m.pages.frames = none) (inner : C.inner ≤ B.inner) (last : C.last ≤ B.last)
    (new : Sized C mid') (large : suf ≠ [] → ∀ e ∈ mid', C.inner ≤ e.size)
    (old : ∀ z e, (z, e) ∈ layout ChunkHeader.size a mid → e.used = true → z = x)
    (place : (x, c) ∈ layout ChunkHeader.size a mid)
    (place' : (y, d) ∈ layout ChunkHeader.size a mid') (ours : Ours d)
    (only : ∀ z e, (z, e) ∈ layout ChunkHeader.size a mid' → e.used = true → z = y ∧ e = d)
    (fits : realsizeOf size ≤ d.size)
    (bytes : ∀ i < size, i + HEADER_SIZE < c.size →
      m'.mem (y + HEADER_SIZE + i) = m.mem (x + HEADER_SIZE + i))
    (count : Counted m (pre ++ mid ++ suf) → Counted m' (pre ++ mid' ++ suf)) :
    Realloced C m m' (pre ++ mid ++ suf) (pre ++ mid' ++ suf) size x y ∧
      OnlyKept m m' (pre ++ mid ++ suf) (pre ++ mid' ++ suf) x y := by
  have hne : mid ≠ [] := List.ne_nil_of_mem (mem_of_layout place)
  have hne' : mid' ≠ [] := List.ne_nil_of_mem (mem_of_layout place')
  have hfirst := recut.same.first
  have hmem : ∀ z e, (z, e) ∈ layout ChunkHeader.size a mid →
      (z, e) ∈ layout ChunkHeader.size m.firstChunk (pre ++ mid ++ suf) := by
    intro z e he
    rw [layout_parts recut.start rfl]
    exact List.mem_append_left _ (List.mem_append_right _ he)
  have hwf := recut.wellFormed wf hne (sized_replace wf.tiles.sized hne hne' inner last new large)
  have honly : OnlyKept m m' (pre ++ mid ++ suf) (pre ++ mid' ++ suf) x y := by
    intro z e he hours hz
    have hbounds := layout_bounds place
    have hcpos := (wf.tiles.bounds (hmem x c place)).2.2.2.1
    have hepos := (hwf.tiles.bounds he).2.2.2.1
    rw [recut.edit.layout', List.mem_append, List.mem_append] at he
    rw [layout_parts recut.start rfl, List.mem_append, List.mem_append]
    rcases he with (he | he) | he
    · have hstart := recut.start
      have hbounds' := layout_bounds he
      exact ⟨by omega, Or.inl (Or.inl he)⟩
    · exact absurd (only z e he hours.1).1 hz
    · have hbounds' := layout_bounds he
      exact ⟨by omega, Or.inr he⟩
  refine ⟨?_, honly⟩
  constructor
  case wellFormed => exact hwf
  case sized =>
    rw [usedSized_append, usedSized_append] at sized ⊢
    refine ⟨⟨fun e he hu => inner.trans (sized.1.1 e he hu), fun e he hu => ?_⟩,
      fun e he hu => inner.trans (sized.2 e he hu)⟩
    have hmin : MALLOC_MINSIZE ≤ realsizeOf size := minsize_le_realsizeOf
    have hinner := C.inner_le
    obtain ⟨l, r, rfl⟩ := List.append_of_mem he
    rw [(only _ e (Tiling.mem_layout _ _ _ _) hu).2]
    omega
  case frames => rw [recut.same.pages, frames]
  case first => exact hfirst
  case block =>
    refine ⟨d, ?_, ours, fits⟩
    rw [recut.edit.layout']
    exact List.mem_append_left _ (List.mem_append_right _ place')
  case bytes =>
    intro c' hc' i hi hlt
    obtain ⟨-, rfl⟩ | hapart | hapart := layout_apart (hmem x c place) hc'
    · exact bytes i hi hlt
    · have hpos := (wf.tiles.bounds (hmem x c place)).2.2.2.1
      omega
    · have hpos := (wf.tiles.bounds hc').2.2.2.1
      omega
  case keeps => exact recut.edit.keeps fun z e he hP hgiven => absurd (old z e he hP.1 ▸ rfl) hgiven
  case fresh =>
    intro hyx c' hc' hours
    have hplace : (y, c') ∈ layout ChunkHeader.size a mid := by
      have hbounds := layout_bounds place'
      have hpos := (wf.tiles.bounds hc').2.2.2.1
      have hstart := recut.start
      have hsize : 0 < d.size := by
        have hmin : MALLOC_MINSIZE ≤ realsizeOf size := minsize_le_realsizeOf
        have hpos : 0 < MALLOC_MINSIZE := by decide
        omega
      rw [recut.room] at hbounds
      rw [layout_parts recut.start rfl, List.mem_append, List.mem_append] at hc'
      rcases hc' with (hc' | hc') | hc'
      · have hbounds' := layout_bounds hc'
        omega
      · exact hc'
      · have hbounds' := layout_bounds hc'
        omega
    exact hyx (old y c' hplace hours.1)
  case wraps =>
    intro z e he hnot
    rcases recut.mem_layout he with he | he
    · rw [recut.ours' e (mem_of_layout he)] at hnot
      cases hnot
    · exact Or.inl he
  case kept =>
    intro z e he hnot
    left
    rw [recut.edit.layout', List.mem_append, List.mem_append]
    rw [layout_parts recut.start rfl, List.mem_append, List.mem_append] at he
    rcases he with (he | he) | he
    · exact Or.inl (Or.inl he)
    · rw [recut.ours e (mem_of_layout he)] at hnot
      cases hnot
    · exact Or.inr he
  case counted => exact count

/-! ### The statistics -/

theorem Counted.add (more : allocatedOf mid' = allocatedOf mid + k)
    (total : m'.totalMemAllocated = m.totalMemAllocated + UInt64.ofNat k)
    (counted : Counted m (pre ++ mid ++ suf)) : Counted m' (pre ++ mid' ++ suf) := by
  unfold Counted at counted ⊢
  simp only [allocatedOf_append] at counted ⊢
  rw [total, counted, more, ← UInt64.ofNat_add]
  congr 1
  omega

theorem Counted.sub (less : allocatedOf mid = allocatedOf mid' + k)
    (total : m'.totalMemAllocated = m.totalMemAllocated - UInt64.ofNat k)
    (counted : Counted m (pre ++ mid ++ suf)) : Counted m' (pre ++ mid' ++ suf) := by
  unfold Counted at counted ⊢
  simp only [allocatedOf_append] at counted ⊢
  rw [total, counted, less, show allocatedOf pre + (allocatedOf mid' + k) + allocatedOf suf =
    allocatedOf pre + allocatedOf mid' + allocatedOf suf + k by omega, UInt64.ofNat_add,
    UInt64.add_sub_cancel]

/-! ### The headers written -/

theorem put_recut (start : m.firstChunk + span ChunkHeader.size pre = a) (same : SameEnds m m₀)
    (used : m₀.totalMemUsed = m.totalMemUsed) (ours : ∀ e ∈ mid, e.notOurs = false)
    (room : span ChunkHeader.size mid = h.size) (behind : suf ≠ [] → HEADER_SIZE ≤ h.size)
    (notOurs : h.notOurs = false) (magic : h.magic = MAGIC) (low : h.size < 2 ^ 48)
    (mem : ∀ y, y < a ∨ suf ≠ [] ∧ a + span ChunkHeader.size mid ≤ y → m₀.mem y = m.mem y) :
    Recut m (m₀.putHeader a h) pre mid [h] suf a where
  start := start
  same := ⟨same.pages, same.first, same.last, same.ready⟩
  used := used
  room := by simp [room]
  ours := ours
  ours' := by simp [notOurs]
  mem := fun y hy => by
    rw [putHeader_mem, mem y hy]
    rcases hy with hy | ⟨hsuf, hy⟩
    · exact Or.inl hy
    · have hlarge := behind hsuf
      omega
  header := fun z e he => by
    rw [layout_cons, layout_nil, List.mem_singleton] at he
    obtain ⟨rfl, rfl⟩ := Prod.mk.inj he
    exact ⟨header_putHeader low magic, magic⟩

theorem cut_recut (start : m.firstChunk + span ChunkHeader.size pre = a) (same : SameEnds m m₀)
    (used : m₀.totalMemUsed = m.totalMemUsed) (ours : ∀ e ∈ mid, e.notOurs = false)
    (room : span ChunkHeader.size mid = h.size + f.size) (large : HEADER_SIZE ≤ h.size)
    (behind : suf ≠ [] → HEADER_SIZE ≤ f.size)
    (notOurs : h.notOurs = false) (notOurs' : f.notOurs = false) (magic : h.magic = MAGIC)
    (magic' : f.magic = MAGIC) (low : h.size + f.size < 2 ^ 48)
    (mem : ∀ y, y < a ∨ suf ≠ [] ∧ a + span ChunkHeader.size mid ≤ y → m₀.mem y = m.mem y) :
    Recut m ((m₀.putHeader (a + h.size) f).putHeader a h) pre mid [h, f] suf a where
  start := start
  same := ⟨same.pages, same.first, same.last, same.ready⟩
  used := used
  room := by simp [room]
  ours := ours
  ours' := by simp [notOurs, notOurs']
  mem := fun y hy => by
    rw [putHeader_mem, putHeader_mem, mem y hy]
    · rcases hy with hy | ⟨hsuf, hy⟩
      · omega
      · have hlarge := behind hsuf
        omega
    · rcases hy with hy | ⟨hsuf, hy⟩
      · exact Or.inl hy
      · omega
  header := fun z e he => by
    rw [layout_cons, layout_cons, layout_nil, List.mem_cons, List.mem_singleton] at he
    rcases he with he | he
    · obtain ⟨rfl, rfl⟩ := Prod.mk.inj he
      exact ⟨header_putHeader (by omega) magic, magic⟩
    · obtain ⟨rfl, rfl⟩ := Prod.mk.inj he
      rw [header_putHeader_ne (Or.inl (by omega))]
      exact ⟨header_putHeader (by omega) magic', magic'⟩

/-! ### Smaller blocks -/

theorem WellFormed.mono (wf : WellFormed B m cs) (inner : C.inner ≤ B.inner) (last : C.last ≤ B.last) :
    WellFormed C m cs :=
  { wf with tiles := wf.tiles.mono inner last }

theorem Tiles.next (tiles : Tiles B m (pre ++ c :: d :: suf))
    (start : m.firstChunk + span ChunkHeader.size pre = x) :
    m.header (x + c.size) = d ∧ d.magic = MAGIC := by
  rw [show pre ++ c :: d :: suf = (pre ++ [c]) ++ d :: suf by simp] at tiles
  have hat := tiles.at
  rwa [span_append, span_cons, span_nil, Nat.add_zero, ← Nat.add_assoc, start] at hat

theorem Tiles.next_lt (tiles : Tiles B m (pre ++ c :: suf))
    (start : m.firstChunk + span ChunkHeader.size pre = x) :
    x + c.size < m.endOfChunks ↔ suf ≠ [] := by
  have hreach := tiles.reach
  rw [span_append, span_cons, ← Nat.add_assoc, ← Nat.add_assoc, start] at hreach
  cases suf with
  | nil =>
    rw [span_nil, Nat.add_zero] at hreach
    simp [hreach]
  | cons d suf =>
    have hlast := tiles.sized.last_le d (by simp)
    have hpos := B.last_pos
    rw [span_cons] at hreach
    simp only [ne_eq, reduceCtorEq, not_false_eq_true, iff_true]
    omega

theorem realloced_refl (wf : WellFormed B m cs) (sized : UsedSized B cs)
    (frames : m.pages.frames = none) (inner : C.inner ≤ B.inner) (last : C.last ≤ B.last)
    (place : (x, c) ∈ layout ChunkHeader.size m.firstChunk cs) (ours : Ours c)
    (fits : realsizeOf size ≤ c.size) :
    Realloced C m m cs cs size x x ∧ OnlyKept m m cs cs x x where
  left :=
    { wellFormed := wf.mono inner last
      sized := fun e he hu => inner.trans (sized e he hu)
      frames := frames
      first := rfl
      block := ⟨c, place, ours, fits⟩
      bytes := fun _ _ _ _ _ => rfl
      keeps := Keeps.refl _ _ _ _
      fresh := fun hne => absurd rfl hne
      wraps := fun _ _ he _ => Or.inl he
      kept := fun _ _ he _ => Or.inl he
      counted := id }
  right := fun _ _ he _ hz => ⟨hz, he⟩

theorem shrink_next (tiles : Tiles B m (pre ++ c :: d :: suf))
    (start : m.firstChunk + span ChunkHeader.size pre = x) (free : d.used = false)
    (min : MALLOC_MINSIZE ≤ k) (lt : k < c.size) :
    ∃ m₀, m.shrink x k = (m₀.putHeader (x + k) { d with size := d.size + (c.size - k) }).putHeader x
        { c with size := k } ∧ SameEnds m m₀ ∧ m₀.totalMemUsed = m.totalMemUsed ∧
      m₀.totalMemAllocated = m.totalMemAllocated - UInt64.ofNat (c.size - k) ∧
      ∀ y, y < x + k ∨ x + k + HEADER_SIZE ≤ y → m₀.mem y = m.mem y := by
  have hat : m.header x = c := start ▸ (tiles.at).1
  obtain ⟨hnext, -⟩ := tiles.next start
  have hlt := (tiles.next_lt start).2 (List.cons_ne_nil _ _)
  have hmin : HEADER_SIZE ≤ MALLOC_MINSIZE := by decide
  have hplace : x + c.size - (c.size - k) = x + k := by omega
  refine ⟨(m.subAllocated (c.size - k)).copy (x + k) (x + c.size) HEADER_SIZE, ?_,
    ⟨rfl, rfl, rfl, rfl⟩, rfl, rfl, fun y hy => Buf.copy_of_not (by omega)⟩
  have hcopied : ((m.subAllocated (c.size - k)).copy (x + k) (x + c.size) HEADER_SIZE).header (x + k) =
      d := by
    rw [← hnext]
    unfold header
    exact congrArg _ (Buf.leNat_shift fun i hi => Buf.copy_exact (Or.inl (by omega)) hi)
  unfold shrink
  dsimp only
  rw [hat, hnext, if_pos ⟨hlt, by simp [free]⟩, hplace, hcopied, header_putHeader_ne (Or.inr (by omega)),
    copy_header (Or.inl (by omega)),
    show (m.subAllocated (c.size - k)).header x = m.header x from header_congr fun _ _ _ => rfl, hat,
    show c.size - (c.size - k) = k by omega]

theorem shrink_split (tiles : Tiles B m (pre ++ c :: suf))
    (start : m.firstChunk + span ChunkHeader.size pre = x)
    (used : ∀ d ∈ suf.head?, d.used = true) (large : MALLOC_MINSIZE ≤ c.size - k)
    (min : MALLOC_MINSIZE ≤ k) :
    m.shrink x k = ((m.subAllocated (c.size - k)).putHeader (x + k)
      ⟨c.size - k, MAGIC, false, false⟩).putHeader x { c with size := k } := by
  have hat : m.header x = c := start ▸ (tiles.at).1
  have hmin : HEADER_SIZE ≤ MALLOC_MINSIZE := by decide
  have hnot : ¬(x + c.size < m.endOfChunks ∧ ¬(m.header (x + c.size)).used = true) := by
    rintro ⟨hlt, hfree⟩
    obtain ⟨d, rest, rfl⟩ := List.exists_cons_of_ne_nil ((tiles.next_lt start).1 hlt)
    rw [(tiles.next start).1] at hfree
    exact hfree (used d rfl)
  unfold shrink
  dsimp only
  rw [hat, if_neg hnot, if_pos large, header_putHeader_ne (Or.inr (by omega)),
    show (m.subAllocated (c.size - k)).header x = m.header x from header_congr fun _ _ _ => rfl, hat]

theorem shrink_keep (tiles : Tiles B m (pre ++ c :: suf))
    (start : m.firstChunk + span ChunkHeader.size pre = x)
    (used : ∀ d ∈ suf.head?, d.used = true) (small : ¬MALLOC_MINSIZE ≤ c.size - k) :
    m.shrink x k = m := by
  have hat : m.header x = c := start ▸ (tiles.at).1
  have hnot : ¬(x + c.size < m.endOfChunks ∧ ¬(m.header (x + c.size)).used = true) := by
    rintro ⟨hlt, hfree⟩
    obtain ⟨d, rest, rfl⟩ := List.exists_cons_of_ne_nil ((tiles.next_lt start).1 hlt)
    rw [(tiles.next start).1] at hfree
    exact hfree (used d rfl)
  unfold shrink
  dsimp only
  rw [hat, if_neg hnot, if_neg small]

/-- What a block keeps of its bytes when its chunk is cut behind `k` bytes. -/
theorem cut_bytes {i : ℕ} (fits : HEADER_SIZE + size ≤ h.size) (hi : i < size)
    (mem : m₀.mem (x + HEADER_SIZE + i) = m.mem (y + HEADER_SIZE + i)) :
    ((m₀.putHeader (x + h.size) f).putHeader x h).mem (x + HEADER_SIZE + i) =
      m.mem (y + HEADER_SIZE + i) := by
  rw [putHeader_mem (by omega), putHeader_mem (by omega), mem]

theorem shrink_realloced (wf : WellFormed B m (pre ++ c :: suf)) (sized : UsedSized B (pre ++ c :: suf))
    (frames : m.pages.frames = none) (inner : C.inner ≤ B.inner) (last : C.last ≤ B.last)
    (start : m.firstChunk + span ChunkHeader.size pre = x) (ours : Ours c)
    (lt : realsizeOf size < c.size) :
    ∃ cs', Realloced C m (m.shrink x (realsizeOf size)) (pre ++ c :: suf) cs' size x x ∧
      OnlyKept m (m.shrink x (realsizeOf size)) (pre ++ c :: suf) cs' x x := by
  have htiles := wf.tiles
  have hmem := mem_layout_of m pre c suf
  rw [start] at hmem
  have hbounds := htiles.bounds hmem
  have hmagic : c.magic = MAGIC := (htiles.header x c hmem).2
  have hmin : MALLOC_MINSIZE ≤ realsizeOf size := minsize_le_realsizeOf
  have hfit : HEADER_SIZE + size ≤ realsizeOf size := header_add_le_realsizeOf
  have hheader : HEADER_SIZE ≤ MALLOC_MINSIZE := by decide
  have hCinner := C.inner_le
  have hClast := C.last_le
  by_cases hnext : ∃ d rest, suf = d :: rest ∧ d.used = false
  · obtain ⟨d, rest, rfl, hfree⟩ := hnext
    obtain ⟨m₀, hshrink, hsame, hused, hallocated, hbytes⟩ := shrink_next htiles start hfree hmin lt
    have hdmem := mem_layout_of m (pre ++ [c]) d rest
    rw [show (pre ++ [c]) ++ d :: rest = pre ++ c :: d :: rest by simp] at hdmem
    have hd := htiles.bounds hdmem
    have hdours := wf.free_ours hdmem hfree
    have hdmagic := (htiles.header _ d hdmem).2
    have hroom := htiles.room
    rw [span_append, span_cons, span_nil, Nat.add_zero, ← Nat.add_assoc, start] at hd
    have hdlast := htiles.sized.last_le d (by simp)
    have hdinner : rest ≠ [] → B.inner ≤ d.size := by
      intro hrest
      have hall := htiles.sized
      rw [show pre ++ c :: d :: rest = (pre ++ [c, d]) ++ rest by simp, sized_append hrest] at hall
      exact hall.1 d (by simp)
    have hBheader := B.header_le
    rw [show pre ++ c :: d :: rest = pre ++ [c, d] ++ rest by simp] at wf sized ⊢
    have hrecut : Recut m (m.shrink x (realsizeOf size)) pre [c, d]
        [{ c with size := realsizeOf size }, { d with size := d.size + (c.size - realsizeOf size) }]
        rest x := by
      rw [hshrink]
      refine cut_recut start hsame hused (by simp [ours.2, hdours]) ?_ (by dsimp only; omega)
        (fun hrest => ?_) ours.2 hdours hmagic hdmagic (by dsimp only; omega) fun y hy => hbytes y ?_
      · simp only [span_cons, span_nil]
        omega
      · have hlarge := hdinner hrest
        dsimp only
        omega
      · simp only [span_cons, span_nil] at hy
        rcases hy with hy | ⟨hrest, hy⟩
        · omega
        · have hlarge := hdinner hrest
          omega
    refine ⟨_, hrecut.realloced wf sized frames inner last ⟨?_, ?_⟩ (fun hrest => ?_) (fun z e he hu => ?_)
      List.mem_cons_self List.mem_cons_self ⟨ours.1, ours.2⟩ (fun z e he hu => ?_) le_rfl
      (fun i hi _ => ?_) ?_⟩
    · exact hCinner.trans hmin
    · show C.last ≤ d.size + (c.size - realsizeOf size)
      omega
    · have hlarge := hdinner hrest
      simp only [List.forall_mem_cons, List.not_mem_nil, false_imp_iff, implies_true, and_true]
      omega
    · simp only [layout_cons, layout_nil, List.mem_cons, List.not_mem_nil, or_false] at he
      rcases he with he | he
      · exact (Prod.mk.inj he).1
      · rw [(Prod.mk.inj he).2, hfree] at hu
        cases hu
    · simp only [layout_cons, layout_nil, List.mem_cons, List.not_mem_nil, or_false] at he
      rcases he with he | he
      · exact Prod.mk.inj he
      · rw [(Prod.mk.inj he).2, show _ = d.used from rfl, hfree] at hu
        cases hu
    · rw [hshrink]
      exact cut_bytes hfit hi (hbytes _ (by omega))
    · refine Counted.sub ?_ ((congrArg totalMemAllocated hshrink).trans hallocated)
      simp [ours.1, ours.2, hfree]
      omega
  · have hhead : ∀ d ∈ suf.head?, d.used = true := by
      intro d hd
      cases suf with
      | nil => cases hd
      | cons e rest =>
        obtain rfl := Option.some.inj hd
        by_contra hnot
        exact hnext ⟨e, rest, rfl, by simpa using hnot⟩
    by_cases hlarge : MALLOC_MINSIZE ≤ c.size - realsizeOf size
    · have hshrink := shrink_split htiles start hhead hlarge hmin
      rw [show pre ++ c :: suf = pre ++ [c] ++ suf by simp] at wf sized ⊢
      have hrecut : Recut m (m.shrink x (realsizeOf size)) pre [c]
          [{ c with size := realsizeOf size }, ⟨c.size - realsizeOf size, MAGIC, false, false⟩] suf x := by
        rw [hshrink]
        refine cut_recut start ⟨rfl, rfl, rfl, rfl⟩ rfl (by simp [ours.2]) ?_ (by dsimp only; omega)
          (fun _ => by dsimp only; omega) ours.2 rfl hmagic rfl (by dsimp only; omega) fun _ _ => rfl
        simp only [span_cons, span_nil]
        omega
      refine ⟨_, hrecut.realloced wf sized frames inner last ⟨?_, ?_⟩ (fun _ => ?_) (fun z e he _ => ?_)
        List.mem_cons_self List.mem_cons_self ⟨ours.1, ours.2⟩ (fun z e he hu => ?_) le_rfl
        (fun i hi _ => ?_) ?_⟩
      · exact hCinner.trans hmin
      · show C.last ≤ c.size - realsizeOf size
        omega
      · simp only [List.forall_mem_cons, List.not_mem_nil, false_imp_iff, implies_true, and_true]
        omega
      · simp only [layout_cons, layout_nil, List.mem_singleton] at he
        exact (Prod.mk.inj he).1
      · simp only [layout_cons, layout_nil, List.mem_cons, List.not_mem_nil, or_false] at he
        rcases he with he | he
        · exact Prod.mk.inj he
        · rw [(Prod.mk.inj he).2] at hu
          cases hu
      · rw [hshrink]
        exact cut_bytes hfit hi rfl
      · refine Counted.sub ?_ (congrArg totalMemAllocated hshrink)
        simp [ours.1, ours.2]
        omega
    · rw [shrink_keep htiles start hhead hlarge]
      exact ⟨_, realloced_refl wf sized frames inner last hmem ours lt.le⟩

/-! ### Larger blocks -/

theorem growIntoNext_cut (tiles : Tiles B m (pre ++ c :: d :: suf))
    (start : m.firstChunk + span ChunkHeader.size pre = x) (min : MALLOC_MINSIZE ≤ k)
    (left : k < c.size + d.size) :
    m.growIntoNext x k = ((m.addAllocated (k - c.size)).putHeader (x + k)
      ⟨c.size + d.size - k, MAGIC, false, false⟩).putHeader x { c with size := k } := by
  have hat : m.header x = c := start ▸ (tiles.at).1
  have hmin : HEADER_SIZE ≤ MALLOC_MINSIZE := by decide
  unfold growIntoNext
  dsimp only
  rw [hat, (tiles.next start).1, if_pos (by omega), header_putHeader_ne (Or.inr (by omega)),
    show (m.addAllocated (k - c.size)).header x = m.header x from header_congr fun _ _ _ => rfl, hat]

theorem growIntoNext_whole (tiles : Tiles B m (pre ++ c :: d :: suf))
    (start : m.firstChunk + span ChunkHeader.size pre = x) (none : k = c.size + d.size) :
    m.growIntoNext x k =
      (m.addAllocated d.size).putHeader x { c with size := c.size + d.size } := by
  have hat : m.header x = c := start ▸ (tiles.at).1
  unfold growIntoNext
  dsimp only
  rw [hat, (tiles.next start).1, if_neg (by omega)]

theorem growIntoNext_realloced (wf : WellFormed B m (pre ++ c :: d :: suf))
    (sized : UsedSized B (pre ++ c :: d :: suf)) (frames : m.pages.frames = none)
    (inner : C.inner ≤ B.inner) (last : C.last ≤ B.last)
    (start : m.firstChunk + span ChunkHeader.size pre = x) (ours : Ours c) (free : d.used = false)
    (lt : c.size < realsizeOf size) (fits : realsizeOf size ≤ c.size + d.size)
    (room : realsizeOf size < c.size + d.size → Ample C (c.size + d.size - realsizeOf size) suf) :
    ∃ cs', Realloced C m (m.growIntoNext x (realsizeOf size)) (pre ++ c :: d :: suf) cs' size x x ∧
      OnlyKept m (m.growIntoNext x (realsizeOf size)) (pre ++ c :: d :: suf) cs' x x := by
  have htiles := wf.tiles
  have hmem := mem_layout_of m pre c (d :: suf)
  have hdmem := mem_layout_of m (pre ++ [c]) d suf
  rw [show (pre ++ [c]) ++ d :: suf = pre ++ c :: d :: suf by simp] at hdmem
  have hdbounds := htiles.bounds hdmem
  have hdours := wf.free_ours hdmem free
  rw [span_append, span_cons, span_nil, Nat.add_zero, ← Nat.add_assoc, start] at hdbounds
  rw [start] at hmem
  have hroom := htiles.room
  have hmagic : c.magic = MAGIC := (htiles.header x c hmem).2
  have hmin : MALLOC_MINSIZE ≤ realsizeOf size := minsize_le_realsizeOf
  have hfit : HEADER_SIZE + size ≤ realsizeOf size := header_add_le_realsizeOf
  have hheader : HEADER_SIZE ≤ MALLOC_MINSIZE := by decide
  have hCinner := C.inner_le
  have hClast := C.last_le
  have hCheader := C.header_le
  have hold : ∀ z e, (z, e) ∈ layout ChunkHeader.size x [c, d] → e.used = true → z = x := by
    intro z e he hu
    simp only [layout_cons, layout_nil, List.mem_cons, List.not_mem_nil, or_false] at he
    rcases he with he | he
    · exact (Prod.mk.inj he).1
    · rw [(Prod.mk.inj he).2, free] at hu
      cases hu
  by_cases hleft : realsizeOf size < c.size + d.size
  · have hgrow := growIntoNext_cut htiles start hmin hleft
    have hample := room hleft
    rw [show pre ++ c :: d :: suf = pre ++ [c, d] ++ suf by simp] at wf sized ⊢
    have hrecut : Recut m (m.growIntoNext x (realsizeOf size)) pre [c, d]
        [{ c with size := realsizeOf size }, ⟨c.size + d.size - realsizeOf size, MAGIC, false, false⟩]
        suf x := by
      rw [hgrow]
      refine cut_recut start ⟨rfl, rfl, rfl, rfl⟩ rfl (by simp [ours.2, hdours]) ?_ (by dsimp only; omega)
        (fun hsuf => ?_) ours.2 rfl hmagic rfl (by dsimp only; omega) fun _ _ => rfl
      · simp only [span_cons, span_nil]
        omega
      · exact hCheader.trans (hample.resolve_right fun h => hsuf h.1)
    refine ⟨_, hrecut.realloced wf sized frames inner last ⟨?_, ?_⟩ (fun hsuf => ?_) hold
      List.mem_cons_self List.mem_cons_self ⟨ours.1, ours.2⟩ (fun z e he hu => ?_) le_rfl
      (fun i hi _ => ?_) ?_⟩
    · exact hCinner.trans hmin
    · exact hample.elim hClast.trans fun h => h.2
    · have hlarge := hample.resolve_right fun h => hsuf h.1
      simp only [List.forall_mem_cons, List.not_mem_nil, false_imp_iff, implies_true, and_true]
      omega
    · simp only [layout_cons, layout_nil, List.mem_cons, List.not_mem_nil, or_false] at he
      rcases he with he | he
      · exact Prod.mk.inj he
      · rw [(Prod.mk.inj he).2] at hu
        cases hu
    · rw [hgrow]
      exact cut_bytes hfit hi rfl
    · refine Counted.add ?_ (congrArg totalMemAllocated hgrow)
      have hsize := sized c (by simp) ours.1
      have hBheader := B.header_le
      simp [ours.1, ours.2, free]
      omega
  · have hwhole : realsizeOf size = c.size + d.size := by omega
    have hgrow := growIntoNext_whole htiles start hwhole
    rw [show pre ++ c :: d :: suf = pre ++ [c, d] ++ suf by simp] at wf sized ⊢
    have hrecut : Recut m (m.growIntoNext x (realsizeOf size)) pre [c, d]
        [{ c with size := c.size + d.size }] suf x := by
      rw [hgrow]
      refine put_recut start ⟨rfl, rfl, rfl, rfl⟩ rfl (by simp [ours.2, hdours]) ?_
        (fun _ => by dsimp only; omega) ours.2 hmagic (by dsimp only; omega) fun _ _ => rfl
      simp only [span_cons, span_nil]
      omega
    refine ⟨_, hrecut.realloced wf sized frames inner last ?_ (fun _ => ?_) hold
      List.mem_cons_self List.mem_cons_self ⟨ours.1, ours.2⟩ (fun z e he _ => by simpa using he)
      hwhole.le (fun i hi _ => ?_) ?_⟩
    · show C.last ≤ c.size + d.size
      omega
    · simp only [List.forall_mem_cons, List.not_mem_nil, false_imp_iff, implies_true, and_true]
      omega
    · rw [hgrow]
      exact putHeader_mem (Or.inr (by omega))
    · refine Counted.add ?_ (congrArg totalMemAllocated hgrow)
      have hsize := sized c (by simp) ours.1
      have hBheader := B.header_le
      simp [ours.1, ours.2, free]
      omega

/-- The walk from the chunk at `y`, which lies in front of the chunks `mid`, to the one before `x`. -/
theorem previousChunk_from {fuel : ℕ} (tiles : Tiles B m (pre ++ (mid ++ d :: suf)))
    (start : m.firstChunk + span ChunkHeader.size pre = y)
    (ends : y + span ChunkHeader.size mid + d.size = x) (enough : mid.length < fuel) :
    m.previousChunk (x + HEADER_SIZE) fuel y = .done (y + span ChunkHeader.size mid) := by
  induction mid generalizing pre y fuel with
  | nil =>
    obtain ⟨fuel, rfl⟩ := Nat.exists_eq_add_of_lt enough
    have hat := (tiles.at).1
    rw [start] at hat
    rw [span_nil, Nat.add_zero] at ends
    rw [previousChunk, hat, if_pos (by rw [ends]), span_nil, Nat.add_zero]
  | cons o mid ih =>
    obtain ⟨fuel, rfl⟩ := Nat.exists_eq_add_of_lt enough
    have hat := (tiles.at).1
    have hpos := tiles.sized.last_le d (by simp)
    have hlast := B.last_pos
    rw [start] at hat
    rw [span_cons] at ends ⊢
    rw [show (o :: mid).length + fuel + 1 = (mid.length + fuel + 1) + 1 by simp; omega, previousChunk, hat,
      if_neg (by omega)]
    rw [show pre ++ (o :: mid ++ d :: suf) = (pre ++ [o]) ++ (mid ++ d :: suf) by simp] at tiles
    have hrest := ih tiles (y := y + o.size)
      (by rw [span_append, span_cons, span_nil, Nat.add_zero, ← Nat.add_assoc, start])
      (by rw [← ends]; omega) (show mid.length < mid.length + fuel + 1 by omega)
    rw [hrest, Nat.add_assoc]

/-- The block moved into a free chunk in front of it, and grown. -/
theorem growIntoPrevious_eq (tiles : Tiles B m (pre ++ d :: c :: suf))
    (start : m.firstChunk + span ChunkHeader.size pre = a) (min : MALLOC_MINSIZE ≤ k) :
    ∃ m₀, m.growIntoPrevious a (a + d.size) k = (m₀.putHeader (a + k)
        ⟨d.size + c.size - k, MAGIC, false, false⟩).putHeader a { d with size := k, used := true } ∧
      SameEnds m m₀ ∧ m₀.totalMemUsed = m.totalMemUsed ∧
      m₀.totalMemAllocated = m.totalMemAllocated + UInt64.ofNat (k - c.size) ∧
      (∀ y, y < a + HEADER_SIZE ∨ a + HEADER_SIZE + (c.size - HEADER_SIZE) ≤ y → m₀.mem y = m.mem y) ∧
      ∀ i, i + HEADER_SIZE < c.size →
        m₀.mem (a + HEADER_SIZE + i) = m.mem (a + d.size + HEADER_SIZE + i) := by
  have hat : m.header a = d := start ▸ (tiles.at).1
  have hmin : HEADER_SIZE ≤ MALLOC_MINSIZE := by decide
  refine ⟨(m.addAllocated (k - c.size)).copy (a + HEADER_SIZE) (a + d.size + HEADER_SIZE)
    (c.size - HEADER_SIZE), ?_, ⟨rfl, rfl, rfl, rfl⟩, rfl, rfl, fun y hy => Buf.copy_of_not (by omega),
    fun i hi => Buf.copy_exact (Or.inl (by omega)) (by omega)⟩
  unfold growIntoPrevious
  dsimp only
  rw [(tiles.next start).1, hat, header_putHeader_ne (Or.inr (by omega)), copy_header (Or.inl le_rfl),
    show (m.addAllocated (k - c.size)).header a = m.header a from header_congr fun _ _ _ => rfl, hat]

theorem growIntoPrevious_realloced (wf : WellFormed B m (pre ++ d :: c :: suf))
    (sized : UsedSized B (pre ++ d :: c :: suf)) (frames : m.pages.frames = none)
    (inner : C.inner ≤ B.inner) (last : C.last ≤ B.last)
    (start : m.firstChunk + span ChunkHeader.size pre = a) (ours : Ours c) (free : d.used = false)
    (lt : c.size < realsizeOf size) (fits : realsizeOf size ≤ c.size + d.size)
    (room : Ample C (c.size + d.size - realsizeOf size) suf ∨
      suf = [] ∧ realsizeOf size = c.size + d.size) :
    ∃ cs', Realloced C m (m.growIntoPrevious a (a + d.size) (realsizeOf size)) (pre ++ d :: c :: suf) cs'
        size (a + d.size) a ∧
      OnlyKept m (m.growIntoPrevious a (a + d.size) (realsizeOf size)) (pre ++ d :: c :: suf) cs'
        (a + d.size) a := by
  have htiles := wf.tiles
  have hmem := mem_layout_of m pre d (c :: suf)
  have hdmagic := (htiles.header _ d hmem).2
  have hdours := wf.free_ours hmem free
  have hcmem := mem_layout_of m (pre ++ [d]) c suf
  rw [show (pre ++ [d]) ++ c :: suf = pre ++ d :: c :: suf by simp] at hcmem
  have hcbounds := htiles.bounds hcmem
  rw [span_append, span_cons, span_nil, Nat.add_zero, ← Nat.add_assoc, start] at hcbounds
  have hroom := htiles.room
  have hmin : MALLOC_MINSIZE ≤ realsizeOf size := minsize_le_realsizeOf
  have hfit : HEADER_SIZE + size ≤ realsizeOf size := header_add_le_realsizeOf
  have hheader : HEADER_SIZE ≤ MALLOC_MINSIZE := by decide
  have hCinner := C.inner_le
  have hClast := C.last_le
  have hCheader := C.header_le
  have hsize := sized c (by simp) ours.1
  have hBheader := B.header_le
  have hold : ∀ z e, (z, e) ∈ layout ChunkHeader.size a [d, c] → e.used = true → z = a + d.size := by
    intro z e he hu
    simp only [layout_cons, layout_nil, List.mem_cons, List.not_mem_nil, or_false] at he
    rcases he with he | he
    · rw [(Prod.mk.inj he).2, free] at hu
      cases hu
    · exact (Prod.mk.inj he).1
  have hplace : (a + d.size, c) ∈ layout ChunkHeader.size a [d, c] := by simp
  obtain ⟨m₀, hgrow, hsame, hused, hallocated, hmem₀, hbytes⟩ := growIntoPrevious_eq htiles start hmin
  rw [show pre ++ d :: c :: suf = pre ++ [d, c] ++ suf by simp] at wf sized ⊢
  by_cases hample : Ample C (c.size + d.size - realsizeOf size) suf
  · have hrecut : Recut m (m.growIntoPrevious a (a + d.size) (realsizeOf size)) pre [d, c]
        [{ d with size := realsizeOf size, used := true },
          ⟨d.size + c.size - realsizeOf size, MAGIC, false, false⟩] suf a := by
      rw [hgrow]
      refine cut_recut start hsame hused (by simp [ours.2, hdours]) ?_ (by dsimp only; omega)
        (fun hsuf => ?_) hdours rfl hdmagic rfl (by dsimp only; omega) fun y hy => hmem₀ y ?_
      · simp only [span_cons, span_nil]
        omega
      · have hlarge := hample.resolve_right fun h => hsuf h.1
        dsimp only
        omega
      · simp only [span_cons, span_nil] at hy
        omega
    refine ⟨_, hrecut.realloced wf sized frames inner last ⟨?_, ?_⟩ (fun hsuf => ?_) hold hplace
      List.mem_cons_self ⟨rfl, hdours⟩ (fun z e he hu => ?_) le_rfl (fun i hi hlt => ?_) ?_⟩
    · exact hCinner.trans hmin
    · show C.last ≤ d.size + c.size - realsizeOf size
      have hlast := hample.elim hClast.trans fun h => h.2
      omega
    · have hlarge := hample.resolve_right fun h => hsuf h.1
      simp only [List.forall_mem_cons, List.not_mem_nil, false_imp_iff, implies_true, and_true]
      omega
    · simp only [layout_cons, layout_nil, List.mem_cons, List.not_mem_nil, or_false] at he
      rcases he with he | he
      · exact Prod.mk.inj he
      · rw [(Prod.mk.inj he).2] at hu
        cases hu
    · rw [hgrow]
      exact cut_bytes hfit hi (hbytes i hlt)
    · refine Counted.add ?_ ((congrArg totalMemAllocated hgrow).trans hallocated)
      simp [ours.1, ours.2, free, hdours]
      omega
  · -- nothing is left, and there is no chunk behind whose header could be overwritten
    obtain ⟨rfl, hwhole⟩ := room.resolve_left hample
    have hrecut : Recut m (m.growIntoPrevious a (a + d.size) (realsizeOf size)) pre [d, c]
        [{ d with size := realsizeOf size, used := true }] [] a := by
      rw [hgrow]
      refine put_recut start ⟨hsame.pages, hsame.first, hsame.last, hsame.ready⟩ hused
        (by simp [ours.2, hdours]) ?_ (fun hsuf => absurd rfl hsuf) hdours hdmagic (by dsimp only; omega)
        fun y hy => ?_
      · simp only [span_cons, span_nil]
        omega
      · have hy' := hy.resolve_right fun h => h.1 rfl
        rw [putHeader_mem (Or.inl (by omega)), hmem₀ y (by omega)]
    refine ⟨_, hrecut.realloced wf sized frames inner last ?_ (fun hsuf => absurd rfl hsuf) hold hplace
      List.mem_cons_self ⟨rfl, hdours⟩
      (fun z e he _ => by simpa using he) le_rfl
      (fun i hi hlt => ?_) ?_⟩
    · exact hClast.trans (hCinner.trans hmin)
    · rw [hgrow]
      exact cut_bytes hfit hi (hbytes i hlt)
    · refine Counted.add ?_ ((congrArg totalMemAllocated hgrow).trans hallocated)
      simp [ours.1, ours.2, free, hdours]
      omega

end InPlace

/-! ## More fuel -/

section Fuel

variable {m : Malloc}

theorem mergeNext_le (fuel : ℕ) (m : Malloc) (x : ℕ) :
    Run.Le (mergeNext fuel m x) (mergeNext (fuel + 1) m x) := by
  induction fuel generalizing m with
  | zero => exact Run.running_le _
  | succ fuel ih =>
    rw [mergeNext, mergeNext]
    dsimp only
    split_ifs
    · exact Run.Le.refl _
    · exact Run.Le.refl _
    · exact ih _
    · exact Run.Le.refl _

theorem free_le (vaddr fuel : ℕ) : Run.Le (m.free fuel vaddr) (m.free (fuel + 1) vaddr) := by
  unfold free
  dsimp only
  split_ifs
  · exact Run.Le.refl _
  · exact Run.Le.refl _
  · exact (mergeNext_le _ _ _).bind fun _ => Run.Le.refl _

theorem previousChunk_le (vaddr fuel previous : ℕ) :
    Run.Le (m.previousChunk vaddr fuel previous) (m.previousChunk vaddr (fuel + 1) previous) := by
  induction fuel generalizing previous with
  | zero => exact Run.running_le _
  | succ fuel ih =>
    rw [previousChunk, previousChunk]
    split_ifs
    · exact Run.Le.refl _
    · exact ih _

theorem move_le (vaddr size fuel : ℕ) :
    Run.Le (m.move fuel vaddr size) (m.move (fuel + 1) vaddr size) := by
  unfold move moveBy
  exact (malloc_le _ _).bind fun r => (free_le _ _).bind fun _ => Run.Le.refl _

theorem enlarge_le (vaddr size fuel : ℕ) :
    Run.Le (m.enlarge fuel vaddr size) (m.enlarge (fuel + 1) vaddr size) := by
  unfold enlarge enlargeBy
  dsimp only
  split_ifs
  · exact Run.Le.refl _
  · refine (previousChunk_le _ _ _).bind fun previous => ?_
    split_ifs
    · exact Run.Le.refl _
    · exact move_le _ _ _
  · exact move_le _ _ _

theorem realloc_le (vaddr size fuel : ℕ) :
    Run.Le (m.realloc fuel vaddr size) (m.realloc (fuel + 1) vaddr size) := by
  unfold realloc reallocBy
  dsimp only
  split_ifs
  · exact malloc_le _ _
  · exact Run.Le.refl _
  · exact Run.Le.refl _
  · exact Run.Le.refl _
  · exact enlarge_le _ _ _
  · exact Run.Le.refl _

end Fuel

/-! ## The blocks that `malloc` leaves -/

section Blocks

variable {B : MinSizes} {m m' : Malloc} {cs cs' : List ChunkHeader} {e : ChunkHeader} {a x z size fuel : ℕ}

instance (c : ChunkHeader) : Decidable (Ours c) := inferInstanceAs (Decidable (_ ∧ _))

/-- The blocks of a list with their chunks' addresses. -/
def blocksOf (a : ℕ) (cs : List ChunkHeader) : Finset (ℕ × ChunkHeader) :=
  (layout ChunkHeader.size a cs).toFinset.filter fun p => Ours p.2

theorem mem_blocksOf : (z, e) ∈ blocksOf a cs ↔ (z, e) ∈ layout ChunkHeader.size a cs ∧ Ours e := by
  unfold blocksOf
  rw [Finset.mem_filter, List.mem_toFinset]

theorem allocatedOf_eq (pos : ∀ c ∈ cs, 0 < c.size) :
    allocatedOf cs = ∑ p ∈ blocksOf a cs, (p.2.size - HEADER_SIZE) := by
  unfold blocksOf
  rw [Finset.sum_filter, List.sum_toFinset _ (layout_nodup pos)]
  clear pos
  induction cs generalizing a with
  | nil => rfl
  | cons c cs ih =>
    rw [allocatedOf_cons, layout_cons, List.map_cons, List.sum_cons, ← ih]
    rfl

theorem Tiles.pos (tiles : Tiles B m cs) : ∀ c ∈ cs, 0 < c.size := fun c hc =>
  B.last_pos.trans_le (tiles.sized.last_le c hc)

/-- When one block is new, and the bytes handed out are those before and its own, there is no other new
one. -/
theorem only_new {d : ChunkHeader} (tiles : Tiles B m cs) (tiles' : Tiles B m' cs')
    (keeps : Keeps Ours m m' cs cs' none) (large : ∀ c ∈ cs', Ours c → HEADER_SIZE < c.size)
    (block : (x, d) ∈ layout ChunkHeader.size m'.firstChunk cs') (ours : Ours d)
    (fresh : ∀ c, (x, c) ∈ layout ChunkHeader.size m.firstChunk cs → ¬Ours c)
    (handed : allocatedOf cs' = allocatedOf cs + (d.size - HEADER_SIZE))
    (chunk : (z, e) ∈ layout ChunkHeader.size m'.firstChunk cs') (chunk_ours : Ours e) (ne : z ≠ x) :
    (z, e) ∈ layout ChunkHeader.size m.firstChunk cs := by
  by_contra hnew
  have hsub : insert (x, d) (blocksOf m.firstChunk cs) ⊆ blocksOf m'.firstChunk cs' := by
    rw [Finset.insert_subset_iff]
    refine ⟨mem_blocksOf.2 ⟨block, ours⟩, ?_⟩
    rintro ⟨y, c⟩ hc
    obtain ⟨hc, hours⟩ := mem_blocksOf.1 hc
    exact mem_blocksOf.2 ⟨(keeps y c hc hours (Option.some_ne_none y)).1, hours⟩
  have hout : (x, d) ∉ blocksOf m.firstChunk cs := fun h =>
    fresh d (mem_blocksOf.1 h).1 (mem_blocksOf.1 h).2
  have hlt := Finset.sum_lt_sum_of_subset (f := fun p : ℕ × ChunkHeader => p.2.size - HEADER_SIZE) hsub
    (i := (z, e)) (mem_blocksOf.2 ⟨chunk, chunk_ours⟩) ?_
    (Nat.sub_pos_of_lt (large e (mem_of_layout chunk) chunk_ours)) fun _ _ _ => Nat.zero_le _
  · rw [Finset.sum_insert hout, ← allocatedOf_eq tiles.pos, ← allocatedOf_eq tiles'.pos, handed] at hlt
    dsimp only at hlt
    omega
  · rw [Finset.mem_insert, mem_blocksOf]
    rintro (heq | ⟨hold, -⟩)
    · exact ne (Prod.mk.inj heq).1
    · exact hnew hold

theorem malloc_only (wf : WellFormed B m cs) (sized : UsedSized B cs) (frames : m.pages.frames = none)
    (pos : 0 < size) (served : Served B m size) (inner : HEADER_SIZE < B.inner)
    (result : m.malloc fuel size = .done (x + HEADER_SIZE, m'))
    (made : Malloced B m m' cs cs' size x) :
    ∀ z e, (z, e) ∈ layout ChunkHeader.size m'.firstChunk cs' → Ours e → z ≠ x →
      (z, e) ∈ layout ChunkHeader.size m.firstChunk cs := by
  obtain ⟨m₁, cs₁, m₂, pre, d, suf, y, new, hsteps, hgrown, hy, hfree, hfits, hfind⟩ :=
    findChunk_spec wf sized frames served
      (show _ < fuel + (2 * (cs.length + pagesFor (size + HEADER_SIZE)) + 1) by omega)
  have hswept := SearchSteps.swept hsteps wf
  obtain ⟨m₃, b, rest, hout, htiles, -, -, -, -, hsplit, hbused, hbours, -⟩ :=
    handOut_spec hgrown.wellFormed.tiles hy hfree hfits minsize_le_realsizeOf
  have hours : d.notOurs = false :=
    hgrown.wellFormed.free_ours (mem_layout_of m₂ pre d suf) hfree
  have hmalloc : m.malloc (fuel + (2 * (cs.length + pagesFor (size + HEADER_SIZE)) + 1)) size =
      .done (y + HEADER_SIZE, m₃) := by
    unfold malloc
    rw [if_neg (by simp [wf.ready]; omega), hfind, Run.done_bind]
    dsimp only
    rw [hout]
  have hsame := (Run.le_of_succ (fun n => malloc_le size n) (Nat.le_add_right fuel
    (2 * (cs.length + pagesFor (size + HEADER_SIZE)) + 1))).done result
  obtain ⟨hxy, rfl⟩ := Prod.mk.inj (Run.done.inj (hmalloc.symm.trans hsame))
  obtain rfl : y = x := Nat.add_right_cancel hxy
  obtain rfl := htiles.unique made.wellFormed.tiles
  -- the block is the first part of the chunk that was found
  have hrest := (split_parts hours hsplit).2
  have hblock : (y, b) ∈ layout ChunkHeader.size m₃.firstChunk
      (pre ++ Malloc.split d (realsizeOf size) ++ suf) := by
    rw [hsplit, List.append_assoc, List.cons_append, made.first, ← hy, hgrown.first,
      show m₁.firstChunk = m.firstChunk from (SearchSteps.fields hsteps).1]
    exact Tiling.mem_layout _ _ _ _
  have hhanded : allocatedOf (pre ++ Malloc.split d (realsizeOf size) ++ suf) =
      allocatedOf cs + (b.size - HEADER_SIZE) := by
    have hgrow : allocatedOf (pre ++ d :: suf) = allocatedOf cs := hgrown.handed.trans hswept.handed
    rw [← hgrow, hsplit]
    simp only [allocatedOf_append, allocatedOf_cons, allocatedOf_free hrest]
    rw [if_pos ⟨hbused, hbours.trans hours⟩, if_neg (by simp [hfree])]
    omega
  intro z e he heours hne
  exact only_new wf.tiles made.wellFormed.tiles made.keeps
    (fun c hc hcours => inner.trans_le (made.sized c hc hcours.1)) hblock ⟨hbused, hbours.trans hours⟩
    made.fresh hhanded he heours hne

end Blocks

/-! ## To a new block -/

/-- What a move of the block behind `x` to the one behind `y` does. -/
def Moved (B : MinSizes) (m m' : Malloc) (cs cs' : List ChunkHeader) (size x y : ℕ) : Prop :=
  ∃ m₁ c pre run rest k, (∃ fuel, m.malloc fuel size = .done (y + HEADER_SIZE, m₁)) ∧
    Malloced B m m₁ cs (pre ++ c :: (run ++ rest)) size y ∧
    m₁.firstChunk + span ChunkHeader.size pre = x ∧ Ours c ∧ c.size < realsizeOf size ∧
    (∀ d ∈ run, d.used = false) ∧
    Freed B (m₁.copy (y + HEADER_SIZE) (x + HEADER_SIZE) (c.size - HEADER_SIZE)) m' pre c run rest x k ∧
    cs' = pre ++ freed c run rest ++ rest

section Move

variable {B : MinSizes} {m m' : Malloc} {pre run rest cs cs' : List ChunkHeader} {c d e : ChunkHeader}
  {a x y z k size : ℕ}

theorem Freed.counted {m₁ : Malloc} (freed : Freed B m₁ m' pre c run rest x k) (ours : Ours c)
    (run_free : ∀ d ∈ run, d.used = false) (counted : Counted m₁ (pre ++ c :: (run ++ rest))) :
    Counted m' (pre ++ Malloc.freed c run rest ++ rest) := by
  rw [show pre ++ c :: (run ++ rest) = pre ++ (c :: run) ++ rest by simp] at counted
  refine counted.sub ?_ freed.allocated
  rw [allocatedOf_cons, allocatedOf_free run_free, if_pos (show c.used = true ∧ _ from ours),
    allocatedOf_free fun e he => (mem_freed ours.2 he).1]
  omega

theorem Malloced.copied {k : ℕ} (made : Malloced B m m' cs cs' size y) (le : k ≤ realsizeOf size)
    (src : ℕ) : WellFormed B (m'.copy (y + HEADER_SIZE) src (k - HEADER_SIZE)) cs' := by
  obtain ⟨b, hb, -, hsize⟩ := made.block
  have hmin : MALLOC_MINSIZE ≤ realsizeOf size := minsize_le_realsizeOf
  have hheader : HEADER_SIZE ≤ MALLOC_MINSIZE := by decide
  exact { made.wellFormed with tiles := made.wellFormed.tiles.copy hb (by omega) }

theorem Moved.realloced (moved : Moved B m m' cs cs' size x y) (wf : WellFormed B m cs)
    (place : (x, d) ∈ layout ChunkHeader.size m.firstChunk cs) (ours : Ours d) :
    Realloced B.remainder m m' cs cs' size x y := by
  obtain ⟨m₁, c, pre, run, rest, k, -, made, hx, hours, hsmall, hrun, hfreed, rfl⟩ := moved
  have hwf₁ := made.wellFormed
  have hc := mem_layout_of m₁ pre c (run ++ rest)
  rw [hx] at hc
  have hcbounds := hwf₁.tiles.bounds hc
  obtain ⟨hd, hdbytes⟩ := made.keeps x d place ours (Option.some_ne_none x)
  -- the block that is freed is the old one
  obtain rfl : d = c := by
    rcases layout_apart hd hc with ⟨-, heq⟩ | hapart | hapart
    · exact heq
    · have hpos := (hwf₁.tiles.bounds hd).2.2.2.1
      omega
    · omega
  obtain ⟨b, hb, hbours, hbsize⟩ := made.block
  have hbbounds := hwf₁.tiles.bounds hb
  have hne : y ≠ x := by
    rintro rfl
    exact made.fresh d place ours
  have hpre : ∀ e ∈ pre, 0 < e.size := fun e he =>
    B.last_pos.trans_le (hwf₁.tiles.sized.last_le e (List.mem_append_left _ he))
  have hmin : MALLOC_MINSIZE ≤ realsizeOf size := minsize_le_realsizeOf
  have hheader : HEADER_SIZE ≤ MALLOC_MINSIZE := by decide
  have hcopied := made.copied hsmall.le (x + HEADER_SIZE)
  obtain ⟨hbkept, hbmem⟩ := hfreed.keeps y b hb hbours.1 fun heq => hne (Option.some.inj heq)
  have hold : ∀ z e, (z, e) ∈ layout ChunkHeader.size m'.firstChunk
      (pre ++ freed d run rest ++ rest) → e ∉ freed d run rest →
        z ≠ x ∧ (z, e) ∈ layout ChunkHeader.size m₁.firstChunk (pre ++ d :: (run ++ rest)) := by
    intro z e he hout
    have hfirst : m'.firstChunk = m₁.firstChunk := hfreed.first
    rw [hfirst] at he
    rw [← hx]
    exact layout_freed_old hcbounds.2.2.2.1 hpre he hout
  constructor
  case wellFormed => exact hcopied.free hx hours.2 hrun hfreed
  case sized =>
    intro e he hu
    have hout : e ∉ freed d run rest := by
      intro hin
      rw [(mem_freed hours.2 hin).1] at hu
      cases hu
    obtain ⟨pre', suf', hlist⟩ := List.append_of_mem he
    have hmem := mem_layout_of m' pre' e suf'
    rw [← hlist] at hmem
    exact made.sized e (mem_of_layout (hold _ e hmem hout).2) hu
  case frames => exact hfreed.unmaps.frames made.frames
  case first => exact hfreed.first.trans made.first
  case block => exact ⟨b, hbkept, hbours, hbsize⟩
  case bytes =>
    intro c' hc' i hi hlt
    obtain rfl : c' = d := by
      rcases layout_apart hc' place with ⟨-, heq⟩ | hapart | hapart
      · exact heq
      · have hpos := (wf.tiles.bounds hc').2.2.2.1
        omega
      · have hpos := (wf.tiles.bounds place).2.2.2.1
        omega
    rw [hbmem _ (by omega) (by omega), copy_mem, Buf.copy_exact ?_ (by omega)]
    · exact hdbytes _ (by omega) (by omega)
    · rcases layout_apart hb hc with ⟨heq, -⟩ | hapart | hapart
      · exact absurd heq hne
      · exact Or.inl (by omega)
      · exact Or.inr (by omega)
  case keeps =>
    intro z e he heours hgiven
    obtain ⟨he₁, hmem₁⟩ := made.keeps z e he heours (Option.some_ne_none z)
    obtain ⟨he', hmem'⟩ := hfreed.keeps z e he₁ heours.1 hgiven
    refine ⟨he', fun w hle hlt => ?_⟩
    rw [hmem' w hle hlt, copy_mem, Buf.copy_of_not ?_, hmem₁ w hle hlt]
    rcases layout_apart hb he₁ with ⟨rfl, -⟩ | hapart | hapart
    · exact absurd heours (made.fresh e he)
    · omega
    · omega
  case fresh => exact fun _ c' hc' => made.fresh c' hc'
  case wraps =>
    intro z e he hnot
    refine made.wraps z e (hold z e he fun hin => ?_).2 hnot
    rw [(mem_freed hours.2 hin).2] at hnot
    cases hnot
  case kept =>
    intro z e he hnot
    rcases made.kept z e he hnot with he₁ | ⟨hsize, page, hplace, hnone, -⟩
    · have hused := (hwf₁.owned z e he₁).used hnot
      refine Or.inl (hfreed.keeps z e he₁ hused fun heq => ?_).1
      obtain rfl := Option.some.inj heq
      rcases layout_apart he₁ hc with ⟨-, rfl⟩ | hapart | hapart
      · rw [hours.2] at hnot
        cases hnot
      · have hpos := (hwf₁.tiles.bounds he₁).2.2.2.1
        omega
      · omega
    · exact Or.inr ⟨hsize, page, hplace, hnone⟩
  case counted =>
    intro hcounted
    obtain ⟨n, htotal, hlist⟩ := made.handed
    refine hfreed.counted hours hrun ?_
    show m₁.totalMemAllocated = _
    rw [htotal, show m.totalMemAllocated = _ from hcounted, hlist, ← UInt64.ofNat_add]

theorem Moved.onlyKept (moved : Moved B m m' cs cs' size x y) (wf : WellFormed B m cs)
    (sized : UsedSized B cs) (frames : m.pages.frames = none) (pos : 0 < size)
    (served : Served B m size) (inner : HEADER_SIZE < B.inner) :
    OnlyKept m m' cs cs' x y := by
  obtain ⟨m₁, c, pre, run, rest, k, ⟨fuel, hmalloc⟩, made, hx, hours, -, -, hfreed, rfl⟩ := moved
  have hpositive := made.wellFormed.tiles.pos
  intro z e he heours hne
  have hfirst : m'.firstChunk = m₁.firstChunk := hfreed.first
  rw [hfirst] at he
  have hold := layout_freed_old (hpositive c (by simp))
    (fun d hd => hpositive d (List.mem_append_left _ hd)) he fun hin => by
      have hfree := (mem_freed hours.2 hin).1
      rw [heours.1] at hfree
      cases hfree
  exact ⟨hx ▸ hold.1, malloc_only wf sized frames pos served inner hmalloc made z e hold.2 heours hne⟩

/-- A move, when the heap serves the call of `malloc`. -/
theorem move_spec (wf : WellFormed B m cs) (sized : UsedSized B cs) (frames : m.pages.frames = none)
    (pos : 0 < size) (served : Served B m size)
    (place : (x, c) ∈ layout ChunkHeader.size m.firstChunk cs) (ours : Ours c)
    (small : c.size < realsizeOf size) :
    ∃ n y m' cs', (∀ fuel, n < fuel → m.move fuel (x + HEADER_SIZE) size = .done (y + HEADER_SIZE, m')) ∧
      Moved B m m' cs cs' size x y := by
  obtain ⟨y, m₁, cs₁, hmalloc, made⟩ := malloc_spec wf sized frames pos served
    (Nat.lt_succ_self (2 * (cs.length + pagesFor (size + HEADER_SIZE))))
  have hwf₁ := made.wellFormed
  obtain ⟨hc, -⟩ := made.keeps x c place ours (Option.some_ne_none x)
  obtain ⟨b, hb, -, hbsize⟩ := made.block
  have hat := (hwf₁.tiles.header x c hc).1
  have hmin : MALLOC_MINSIZE ≤ realsizeOf size := minsize_le_realsizeOf
  have hheader : HEADER_SIZE ≤ MALLOC_MINSIZE := by decide
  have htiles : Tiles B (m₁.copy (y + HEADER_SIZE) (x + HEADER_SIZE) (c.size - HEADER_SIZE)) cs₁ :=
    hwf₁.tiles.copy hb (by omega)
  obtain ⟨pre, suf, rfl, hx⟩ := layout_split hc
  obtain ⟨run, rest, rfl, hrun, hrest⟩ := exists_run suf
  obtain ⟨m', hfree, k, freed⟩ := ((free_spec htiles hx.symm hwf₁.ready hwf₁.aligned ours.1 hrun
    hrest).mono (fun _ h => h) (fun _ h => h)
      (fun h => absurd h (Nat.not_succ_le_self run.length))).exists_done
  refine ⟨2 * (cs.length + pagesFor (size + HEADER_SIZE)) + run.length, y, m', _, fun fuel hlt => ?_,
    m₁, c, pre, run, rest, k, ⟨_, hmalloc⟩, made, hx.symm, ours, small, hrun, freed, rfl⟩
  have hmalloc' : m.malloc fuel size = .done (y + HEADER_SIZE, m₁) :=
    (Run.le_of_succ (fun n => malloc_le size n) (show _ ≤ fuel by omega)).done hmalloc
  have hfree' := (Run.le_of_succ (fun n => free_le (x + HEADER_SIZE) n)
    (show run.length.succ ≤ fuel by omega)).done hfree
  unfold move moveBy
  rw [hmalloc', Run.done_bind]
  dsimp only
  rw [Nat.add_sub_cancel, hat, hfree', Run.done_bind]

end Move

/-! ## The whole call -/

/-- The chunk behind a block is free and makes up what it lacks. -/
def TakesNext (c : ChunkHeader) (suf : List ChunkHeader) (k : ℕ) : Prop :=
  ∃ d rest, suf = d :: rest ∧ d.used = false ∧ k ≤ c.size + d.size

/-- The chunk in front of a block is free and makes up what it lacks. -/
def TakesPrevious (pre : List ChunkHeader) (c : ChunkHeader) (k : ℕ) : Prop :=
  ∃ l d, pre = l ++ [d] ∧ d.used = false ∧ k ≤ c.size + d.size

/-- A block has to grow to `k` bytes, and neither of its neighbours has the room. -/
def Moving (pre : List ChunkHeader) (c : ChunkHeader) (suf : List ChunkHeader) (k : ℕ) : Prop :=
  c.size < k ∧ ¬TakesNext c suf k ∧ ¬TakesPrevious pre c k

/-- What is left of a neighbour that a block grows into is large enough for a chunk, or there is nothing
left.  Behind a block that moves into the chunk in front of it a header is written in any case, so there
it must not be the one of another chunk. -/
structure LeavesRoom (C : MinSizes) (pre : List ChunkHeader) (c : ChunkHeader)
    (suf : List ChunkHeader) (k : ℕ) : Prop where
  next : c.size < k → ∀ d rest, suf = d :: rest → d.used = false → k < c.size + d.size →
    Ample C (c.size + d.size - k) rest
  previous : c.size < k → ¬TakesNext c suf k → ∀ l d, pre = l ++ [d] → d.used = false →
    k ≤ c.size + d.size → Ample C (c.size + d.size - k) suf ∨ suf = [] ∧ k = c.size + d.size

section Whole

variable {B C : MinSizes} {m m' : Malloc} {pre suf l rest cs cs' : List ChunkHeader}
  {c d : ChunkHeader} {x y k size fuel : ℕ}

@[simp] theorem putHeader_totalMemUsed (h : ChunkHeader) :
    (m.putHeader x h).totalMemUsed = m.totalMemUsed := rfl

@[simp] theorem copy_totalMemUsed : (m.copy x y k).totalMemUsed = m.totalMemUsed := rfl

theorem shrink_pages (m : Malloc) (x k : ℕ) : (m.shrink x k).pages = m.pages ∧
    (m.shrink x k).totalMemUsed = m.totalMemUsed := by
  unfold shrink
  dsimp only
  split_ifs <;> simp

theorem growIntoNext_pages (m : Malloc) (x k : ℕ) : (m.growIntoNext x k).pages = m.pages ∧
    (m.growIntoNext x k).totalMemUsed = m.totalMemUsed := by
  unfold growIntoNext
  dsimp only
  split_ifs <;> simp

theorem growIntoPrevious_pages (m : Malloc) (y x k : ℕ) :
    (m.growIntoPrevious y x k).pages = m.pages ∧
      (m.growIntoPrevious y x k).totalMemUsed = m.totalMemUsed := by
  unfold growIntoPrevious
  simp

theorem takesNext_iff (tiles : Tiles B m (pre ++ c :: suf))
    (start : m.firstChunk + span ChunkHeader.size pre = x) :
    (x + c.size < m.endOfChunks ∧ ¬(m.header (x + c.size)).used = true ∧
      c.size + (m.header (x + c.size)).size ≥ k) ↔ TakesNext c suf k := by
  rw [tiles.next_lt start]
  cases suf with
  | nil => simp [TakesNext]
  | cons d suf =>
    rw [(tiles.next start).1]
    simp [TakesNext]

theorem realloc_live (wf : WellFormed B m (pre ++ c :: suf))
    (start : m.firstChunk + span ChunkHeader.size pre = x) (ours : Ours c) :
    m.realloc fuel (x + HEADER_SIZE) size =
      if c.size = realsizeOf size then .done (x + HEADER_SIZE, m)
      else if c.size > realsizeOf size then .done (x + HEADER_SIZE, m.shrink x (realsizeOf size))
      else m.enlarge fuel (x + HEADER_SIZE) size := by
  obtain ⟨hat, hmagic⟩ := wf.tiles.at
  rw [start] at hat
  have hpos : x + HEADER_SIZE ≠ 0 := Nat.succ_ne_zero _
  have hgood : ¬(c.magic ≠ MAGIC ∨ ¬c.used = true ∨ c.notOurs = true) := by
    simp [hmagic, ours.1, ours.2]
  unfold realloc reallocBy
  dsimp only
  rw [if_neg hpos, if_neg (by simp [wf.ready]), Nat.add_sub_cancel, hat, if_neg hgood]
  rfl

theorem realloc_next (wf : WellFormed B m (pre ++ c :: suf))
    (start : m.firstChunk + span ChunkHeader.size pre = x) (ours : Ours c)
    (lt : c.size < realsizeOf size) (next : TakesNext c suf (realsizeOf size)) :
    m.realloc fuel (x + HEADER_SIZE) size =
      .done (x + HEADER_SIZE, m.growIntoNext x (realsizeOf size)) := by
  have hat := wf.tiles.at.1
  rw [start] at hat
  rw [realloc_live wf start ours, if_neg lt.ne, if_neg lt.asymm]
  unfold enlarge enlargeBy
  dsimp only
  rw [Nat.add_sub_cancel, hat, if_pos ((takesNext_iff wf.tiles start).2 next)]

theorem realloc_skip (wf : WellFormed B m (pre ++ c :: suf))
    (start : m.firstChunk + span ChunkHeader.size pre = x) (ours : Ours c)
    (lt : c.size < realsizeOf size) (next : ¬TakesNext c suf (realsizeOf size)) :
    m.realloc fuel (x + HEADER_SIZE) size =
      if x ≠ m.firstChunk then m.previousChunk (x + HEADER_SIZE) fuel m.firstChunk >>= fun previous =>
        if ¬(m.header previous).used = true ∧ c.size + (m.header previous).size ≥ realsizeOf size then
          .done (previous + HEADER_SIZE, m.growIntoPrevious previous x (realsizeOf size))
        else m.move fuel (x + HEADER_SIZE) size
      else m.move fuel (x + HEADER_SIZE) size := by
  have hat := wf.tiles.at.1
  rw [start] at hat
  rw [realloc_live wf start ours, if_neg lt.ne, if_neg lt.asymm]
  unfold enlarge enlargeBy
  dsimp only
  rw [Nat.add_sub_cancel, hat, if_neg (next ∘ (takesNext_iff wf.tiles start).1)]
  rfl

theorem previousChunk_spec (tiles : Tiles B m (l ++ d :: c :: suf)) (enough : l.length < fuel) :
    m.previousChunk (m.firstChunk + span ChunkHeader.size l + d.size + HEADER_SIZE) fuel m.firstChunk =
        .done (m.firstChunk + span ChunkHeader.size l) ∧
      m.header (m.firstChunk + span ChunkHeader.size l) = d ∧
      m.firstChunk + span ChunkHeader.size l + d.size ≠ m.firstChunk := by
  have hpos := tiles.pos d (by simp)
  refine ⟨?_, tiles.at.1, by omega⟩
  have hwalk : Tiles B m ([] ++ (l ++ d :: c :: suf)) := tiles
  exact previousChunk_from hwalk (by simp) rfl enough

theorem realloc_previous (wf : WellFormed B m (l ++ d :: c :: suf)) (ours : Ours c)
    (lt : c.size < realsizeOf size) (next : ¬TakesNext c suf (realsizeOf size)) (free : d.used = false)
    (fits : realsizeOf size ≤ c.size + d.size) (enough : l.length < fuel) :
    m.realloc fuel (m.firstChunk + span ChunkHeader.size l + d.size + HEADER_SIZE) size =
      .done (m.firstChunk + span ChunkHeader.size l + HEADER_SIZE,
        m.growIntoPrevious (m.firstChunk + span ChunkHeader.size l)
          (m.firstChunk + span ChunkHeader.size l + d.size) (realsizeOf size)) := by
  obtain ⟨hwalk, hd, hne⟩ := previousChunk_spec wf.tiles enough
  rw [show l ++ d :: c :: suf = (l ++ [d]) ++ c :: suf by simp] at wf
  rw [realloc_skip wf (by simp [Nat.add_assoc]) ours lt next, if_pos hne, hwalk, Run.done_bind, hd,
    if_pos ⟨by simp [free], fits⟩]

theorem realloc_moves (wf : WellFormed B m (pre ++ c :: suf))
    (start : m.firstChunk + span ChunkHeader.size pre = x) (ours : Ours c)
    (moving : Moving pre c suf (realsizeOf size)) (enough : pre.length < fuel) :
    m.realloc fuel (x + HEADER_SIZE) size = m.move fuel (x + HEADER_SIZE) size := by
  obtain ⟨hlt, hnext, hprevious⟩ := moving
  rw [realloc_skip wf start ours hlt hnext]
  rcases pre.eq_nil_or_concat with rfl | ⟨l, d, rfl⟩
  · rw [if_neg (by simp [← start])]
  · rw [List.concat_eq_append] at hprevious start wf enough
    have htiles := wf.tiles
    rw [show l ++ [d] ++ c :: suf = l ++ d :: c :: suf by simp] at htiles
    obtain ⟨hwalk, hd, hne⟩ := previousChunk_spec htiles (show l.length < fuel by
      rw [List.length_append, List.length_singleton] at enough
      omega)
    rw [show m.firstChunk + span ChunkHeader.size l + d.size = x by
      rw [← start]
      simp [Nat.add_assoc]] at hwalk hne
    rw [if_pos hne, hwalk, Run.done_bind, hd, if_neg]
    rintro ⟨hfree, hfits⟩
    exact hprevious ⟨l, d, rfl, by simpa using hfree, hfits⟩

/-- `realloc` of a live block: in place, or with a move. -/
theorem realloc_spec (wf : WellFormed B m (pre ++ c :: suf)) (sized : UsedSized B (pre ++ c :: suf))
    (frames : m.pages.frames = none) (inner : C.inner ≤ B.inner) (last : C.last ≤ B.last)
    (start : m.firstChunk + span ChunkHeader.size pre = x) (ours : Ours c) (pos : 0 < size)
    (room : LeavesRoom C pre c suf (realsizeOf size))
    (served : Moving pre c suf (realsizeOf size) → Served B m size) :
    ∃ n y m' cs', (∀ fuel, n < fuel →
        m.realloc fuel (x + HEADER_SIZE) size = .done (y + HEADER_SIZE, m')) ∧
      ((Realloced C m m' (pre ++ c :: suf) cs' size x y ∧ OnlyKept m m' (pre ++ c :: suf) cs' x y) ∧
          m'.pages = m.pages ∧ m'.totalMemUsed = m.totalMemUsed ∨
        Moving pre c suf (realsizeOf size) ∧ Moved B m m' (pre ++ c :: suf) cs' size x y) := by
  have hmem := mem_layout_of m pre c suf
  rw [start] at hmem
  rcases lt_trichotomy c.size (realsizeOf size) with hlt | heq | hgt
  · by_cases hnext : TakesNext c suf (realsizeOf size)
    · have hcall : ∀ fuel, m.realloc fuel (x + HEADER_SIZE) size =
          .done (x + HEADER_SIZE, m.growIntoNext x (realsizeOf size)) :=
        fun fuel => realloc_next wf start ours hlt hnext
      obtain ⟨d, rest, rfl, hfree, hfits⟩ := hnext
      obtain ⟨cs', hre⟩ := growIntoNext_realloced wf sized frames inner last start ours hfree hlt hfits
        (room.next hlt d rest rfl hfree)
      exact ⟨0, x, _, cs', fun fuel _ => hcall fuel, Or.inl ⟨hre, growIntoNext_pages _ _ _⟩⟩
    · by_cases hprevious : TakesPrevious pre c (realsizeOf size)
      · obtain ⟨l, d, rfl, hfree, hfits⟩ := hprevious
        have hx : m.firstChunk + span ChunkHeader.size l + d.size = x := by
          rw [← start]
          simp [Nat.add_assoc]
        have hroom := room.previous hlt hnext l d rfl hfree hfits
        rw [show l ++ [d] ++ c :: suf = l ++ d :: c :: suf by simp] at wf sized ⊢
        have hcall : ∀ fuel, l.length < fuel →
            m.realloc fuel (m.firstChunk + span ChunkHeader.size l + d.size + HEADER_SIZE) size =
              .done (m.firstChunk + span ChunkHeader.size l + HEADER_SIZE,
                m.growIntoPrevious (m.firstChunk + span ChunkHeader.size l)
                  (m.firstChunk + span ChunkHeader.size l + d.size) (realsizeOf size)) :=
          fun fuel => realloc_previous wf ours hlt hnext hfree hfits
        obtain ⟨cs', hre⟩ := growIntoPrevious_realloced wf sized frames inner last rfl ours hfree hlt
          hfits hroom
        rw [hx] at hcall hre
        exact ⟨l.length, _, _, cs', hcall, Or.inl ⟨hre, growIntoPrevious_pages _ _ _ _⟩⟩
      · have hmoving : Moving pre c suf (realsizeOf size) := ⟨hlt, hnext, hprevious⟩
        obtain ⟨n, y, m', cs', hmove, hmoved⟩ := move_spec wf sized frames pos (served hmoving) hmem ours hlt
        refine ⟨n + pre.length, y, m', cs', fun fuel hfuel => ?_, Or.inr ⟨hmoving, hmoved⟩⟩
        rw [realloc_moves wf start ours hmoving (by omega), hmove fuel (by omega)]
  · exact ⟨0, x, m, _, fun fuel _ => by rw [realloc_live wf start ours, if_pos heq],
      Or.inl ⟨realloced_refl wf sized frames inner last hmem ours heq.ge, rfl, rfl⟩⟩
  · obtain ⟨cs', hre⟩ := shrink_realloced wf sized frames inner last start ours hgt
    exact ⟨0, x, _, cs', fun fuel _ => by rw [realloc_live wf start ours, if_neg hgt.ne', if_pos hgt],
      Or.inl ⟨hre, shrink_pages _ _ _⟩⟩

end Whole

end Malloc
