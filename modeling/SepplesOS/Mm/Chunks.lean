import SepplesOS.Lib.Tiling
import SepplesOS.Mm.Malloc

/-!
# The chunk list

The chunks tile the room from `firstChunk` to `endOfChunks`: `Tiles` says this of a list of headers,
with the least chunk sizes as parameters.  Every operation replaces a part of the list by another one.
`Edit` says what has to be checked for this: `Edit.tiles` gives that the new list tiles the heap, and
`Edit.keeps` that the chunks outside the part are where they were, with the same bytes.
-/

/-! ## Headers -/

namespace ChunkHeader

theorem ofWord_toWord {h : ChunkHeader} (size : h.size < 2 ^ 48) (magic : h.magic < 2 ^ 14) :
    ofWord h.toWord = h := by
  obtain ⟨n, g, u, o⟩ := h
  simp only at size magic
  unfold ofWord toWord
  simp only [Nat.mod_eq_of_lt size, Nat.mod_eq_of_lt magic, mk.injEq]
  refine ⟨?_, ?_, ?_, ?_⟩
  · cases u <;> cases o <;> simp only [Bool.toNat_false, Bool.toNat_true] <;> omega
  · cases u <;> cases o <;> simp only [Bool.toNat_false, Bool.toNat_true] <;> omega
  · cases u <;> cases o <;>
      simp only [Bool.toNat_false, Bool.toNat_true, decide_eq_true_eq, decide_eq_false_iff_not] <;>
      omega
  · cases u <;> cases o <;>
      simp only [Bool.toNat_false, Bool.toNat_true, decide_eq_true_eq, decide_eq_false_iff_not] <;>
      omega

theorem toWord_lt (h : ChunkHeader) : h.toWord < 256 ^ HEADER_SIZE := by
  unfold toWord
  have hsize := Nat.mod_lt h.size (show 0 < 2 ^ 48 by decide)
  have hmagic := Nat.mod_lt h.magic (show 0 < 2 ^ 14 by decide)
  show _ < 256 ^ 8
  cases h.used <;> cases h.notOurs <;> simp only [Bool.toNat_false, Bool.toNat_true] <;> omega

/-- The chunk with `n` more bytes. -/
def enlarge (h : ChunkHeader) (n : ℕ) : ChunkHeader := { h with size := h.size + n }

@[simp] theorem enlarge_size (h : ChunkHeader) (n : ℕ) : (h.enlarge n).size = h.size + n := rfl
@[simp] theorem enlarge_magic (h : ChunkHeader) (n : ℕ) : (h.enlarge n).magic = h.magic := rfl
@[simp] theorem enlarge_used (h : ChunkHeader) (n : ℕ) : (h.enlarge n).used = h.used := rfl
@[simp] theorem enlarge_notOurs (h : ChunkHeader) (n : ℕ) : (h.enlarge n).notOurs = h.notOurs := rfl
@[simp] theorem enlarge_zero (h : ChunkHeader) : h.enlarge 0 = h := rfl
@[simp] theorem enlarge_enlarge (h : ChunkHeader) (n k : ℕ) :
    (h.enlarge n).enlarge k = h.enlarge (n + k) := by
  unfold enlarge
  rw [Nat.add_assoc]

end ChunkHeader

namespace Malloc

open Tiling

section Headers

variable {m : Malloc} {x y : ℕ} {h : ChunkHeader}

theorem header_congr {m' : Malloc} (same : ∀ i, x ≤ i → i < x + HEADER_SIZE → m'.mem i = m.mem i) :
    m'.header x = m.header x := by
  unfold header
  rw [Buf.leNat_congr fun i hi => same (x + i) (Nat.le_add_right _ _) (by omega)]

theorem header_putHeader (size : h.size < 2 ^ 48) (magic : h.magic = MAGIC) :
    (m.putHeader x h).header x = h := by
  unfold header putHeader
  rw [Buf.leNat_putLeNat, Nat.mod_eq_of_lt h.toWord_lt]
  exact ChunkHeader.ofWord_toWord size (magic ▸ by decide)

theorem putHeader_mem (apart : y < x ∨ x + HEADER_SIZE ≤ y) : (m.putHeader x h).mem y = m.mem y :=
  Buf.putLeNat_of_not (by omega)

theorem header_putHeader_ne (apart : x + HEADER_SIZE ≤ y ∨ y + HEADER_SIZE ≤ x) :
    (m.putHeader x h).header y = m.header y :=
  header_congr fun i _ _ => putHeader_mem (by omega)

@[simp] theorem putHeader_pages : (m.putHeader x h).pages = m.pages := rfl
@[simp] theorem putHeader_firstChunk : (m.putHeader x h).firstChunk = m.firstChunk := rfl
@[simp] theorem putHeader_endOfChunks : (m.putHeader x h).endOfChunks = m.endOfChunks := rfl
@[simp] theorem putHeader_mallocReady : (m.putHeader x h).mallocReady = m.mallocReady := rfl

section Fields

variable {n dst src : ℕ}

@[simp] theorem addAllocated_mem : (m.addAllocated n).mem = m.mem := rfl
@[simp] theorem addAllocated_pages : (m.addAllocated n).pages = m.pages := rfl
@[simp] theorem addAllocated_firstChunk : (m.addAllocated n).firstChunk = m.firstChunk := rfl
@[simp] theorem addAllocated_endOfChunks : (m.addAllocated n).endOfChunks = m.endOfChunks := rfl
@[simp] theorem addAllocated_mallocReady : (m.addAllocated n).mallocReady = m.mallocReady := rfl
@[simp] theorem addAllocated_totalMemUsed :
    (m.addAllocated n).totalMemUsed = m.totalMemUsed := rfl
@[simp] theorem addAllocated_totalMemAllocated :
    (m.addAllocated n).totalMemAllocated = m.totalMemAllocated + UInt64.ofNat n := rfl
@[simp] theorem subAllocated_mem : (m.subAllocated n).mem = m.mem := rfl
@[simp] theorem subAllocated_pages : (m.subAllocated n).pages = m.pages := rfl
@[simp] theorem subAllocated_firstChunk : (m.subAllocated n).firstChunk = m.firstChunk := rfl
@[simp] theorem subAllocated_endOfChunks : (m.subAllocated n).endOfChunks = m.endOfChunks := rfl
@[simp] theorem subAllocated_mallocReady : (m.subAllocated n).mallocReady = m.mallocReady := rfl
@[simp] theorem subAllocated_totalMemUsed :
    (m.subAllocated n).totalMemUsed = m.totalMemUsed := rfl
@[simp] theorem subAllocated_totalMemAllocated :
    (m.subAllocated n).totalMemAllocated = m.totalMemAllocated - UInt64.ofNat n := rfl
@[simp] theorem copy_mem : (m.copy dst src n).mem = m.mem.copy dst src n := rfl
@[simp] theorem copy_pages : (m.copy dst src n).pages = m.pages := rfl
@[simp] theorem copy_firstChunk : (m.copy dst src n).firstChunk = m.firstChunk := rfl
@[simp] theorem copy_endOfChunks : (m.copy dst src n).endOfChunks = m.endOfChunks := rfl
@[simp] theorem copy_mallocReady : (m.copy dst src n).mallocReady = m.mallocReady := rfl

end Fields

end Headers

/-! ## The list -/

/-- The least sizes of chunks: of those with a chunk behind them, and of the last one. -/
structure MinSizes where
  inner : ℕ
  last : ℕ
  header_le : HEADER_SIZE ≤ inner
  last_pos : 0 < last
  last_le : last ≤ inner
  inner_le : inner ≤ MALLOC_MINSIZE

/-- The chunks have the least sizes. -/
def Sized (B : MinSizes) : List ChunkHeader → Prop
  | [] => True
  | [c] => B.last ≤ c.size
  | c :: d :: cs => B.inner ≤ c.size ∧ Sized B (d :: cs)

/-- The chunks tile the room from `firstChunk` to `endOfChunks`, which is in the lower half of the
address space. -/
structure Tiles (B : MinSizes) (m : Malloc) (cs : List ChunkHeader) : Prop where
  header : ∀ x c, (x, c) ∈ layout ChunkHeader.size m.firstChunk cs → m.header x = c ∧ c.magic = MAGIC
  reach : m.firstChunk + span ChunkHeader.size cs = m.endOfChunks
  sized : Sized B cs
  room : m.endOfChunks + HEADER_SIZE ≤ 2 ^ 47

instance decidableSized (B : MinSizes) : (cs : List ChunkHeader) → Decidable (Sized B cs)
  | [] => .isTrue trivial
  | [c] => inferInstanceAs (Decidable (B.last ≤ c.size))
  | c :: d :: cs =>
    have := decidableSized B (d :: cs)
    inferInstanceAs (Decidable (B.inner ≤ c.size ∧ Sized B (d :: cs)))

instance (B : MinSizes) (m : Malloc) (cs : List ChunkHeader) : Decidable (Tiles B m cs) :=
  decidable_of_iff ((∀ e ∈ layout ChunkHeader.size m.firstChunk cs, m.header e.1 = e.2 ∧ e.2.magic = MAGIC) ∧
      m.firstChunk + span ChunkHeader.size cs = m.endOfChunks ∧ Sized B cs ∧
        m.endOfChunks + HEADER_SIZE ≤ 2 ^ 47)
    ⟨fun h => ⟨fun x c hc => h.1 (x, c) hc, h.2.1, h.2.2.1, h.2.2.2⟩,
      fun h => ⟨fun e he => h.header e.1 e.2 he, h.reach, h.sized, h.room⟩⟩

/-- The chunks with a property, but for the one at `given`, are where they were, with the same
bytes. -/
def Keeps (P : ChunkHeader → Prop) (m m' : Malloc) (cs cs' : List ChunkHeader) (given : Option ℕ) :
    Prop :=
  ∀ x c, (x, c) ∈ layout ChunkHeader.size m.firstChunk cs → P c → some x ≠ given →
    (x, c) ∈ layout ChunkHeader.size m'.firstChunk cs' ∧
      ∀ y, x ≤ y → y < x + c.size → m'.mem y = m.mem y

/-- Every chunk has room for its header. -/
def headerSizes : MinSizes where
  inner := HEADER_SIZE
  last := HEADER_SIZE
  header_le := le_rfl
  last_pos := by decide
  last_le := le_rfl
  inner_le := by decide

/-- Every chunk has at least `MALLOC_MINSIZE` bytes. -/
def minSizes : MinSizes where
  inner := MALLOC_MINSIZE
  last := MALLOC_MINSIZE
  header_le := by decide
  last_pos := by decide
  last_le := le_rfl
  inner_le := le_rfl

/-- The pages and the ends of the heap are the same. -/
structure SameEnds (m m' : Malloc) : Prop where
  pages : m'.pages = m.pages
  first : m'.firstChunk = m.firstChunk
  last : m'.endOfChunks = m.endOfChunks
  ready : m'.mallocReady = m.mallocReady

theorem SameEnds.trans {m m' m'' : Malloc} (h : SameEnds m m') (h' : SameEnds m' m'') :
    SameEnds m m'' :=
  ⟨h'.pages.trans h.pages, h'.first.trans h.first, h'.last.trans h.last, h'.ready.trans h.ready⟩

section Sized

variable {B B' : MinSizes} {cs l r : List ChunkHeader} {c : ChunkHeader}

theorem sized_cons (ne : r ≠ []) : Sized B (c :: r) ↔ B.inner ≤ c.size ∧ Sized B r := by
  cases r with
  | nil => exact absurd rfl ne
  | cons d cs => exact Iff.rfl

theorem sized_append (ne : r ≠ []) :
    Sized B (l ++ r) ↔ (∀ c ∈ l, B.inner ≤ c.size) ∧ Sized B r := by
  induction l with
  | nil => simp
  | cons c l ih =>
    rw [List.cons_append, sized_cons (List.append_ne_nil_of_right_ne_nil _ ne), ih,
      List.forall_mem_cons, and_assoc]

theorem sized_append_cons :
    Sized B (l ++ c :: r) ↔ (∀ d ∈ l, B.inner ≤ d.size) ∧ Sized B (c :: r) :=
  sized_append (List.cons_ne_nil _ _)

theorem Sized.last_le (sized : Sized B cs) : ∀ c ∈ cs, B.last ≤ c.size := by
  intro c hc
  obtain ⟨l, r, rfl⟩ := List.append_of_mem hc
  have hright := (sized_append_cons.1 sized).2
  by_cases hr : r = []
  · subst hr
    exact hright
  · exact B.last_le.trans ((sized_cons hr).1 hright).1

theorem sized_of_inner (inner : ∀ c ∈ cs, B.inner ≤ c.size) : Sized B cs := by
  induction cs with
  | nil => trivial
  | cons c cs ih =>
    rw [List.forall_mem_cons] at inner
    by_cases hcs : cs = []
    · subst hcs
      exact B.last_le.trans inner.1
    · exact (sized_cons hcs).2 ⟨inner.1, ih inner.2⟩

theorem Sized.mono (sized : Sized B cs) (inner : B'.inner ≤ B.inner) (last : B'.last ≤ B.last) :
    Sized B' cs := by
  induction cs with
  | nil => trivial
  | cons c cs ih =>
    by_cases hcs : cs = []
    · subst hcs
      exact last.trans sized
    · rw [sized_cons hcs] at sized ⊢
      exact ⟨inner.trans sized.1, ih sized.2⟩

theorem sized_congr {cs' : List ChunkHeader}
    (same : cs.map ChunkHeader.size = cs'.map ChunkHeader.size) : Sized B cs ↔ Sized B cs' := by
  induction cs generalizing cs' with
  | nil =>
    obtain rfl := List.map_eq_nil_iff.1 same.symm
    exact Iff.rfl
  | cons c cs ih =>
    obtain ⟨d, ds, rfl, hd, hds⟩ := List.map_eq_cons_iff.1 same.symm
    by_cases hcs : cs = []
    · subst hcs
      obtain rfl := List.map_eq_nil_iff.1 hds
      show B.last ≤ c.size ↔ B.last ≤ d.size
      rw [hd]
    · have hds' : ds ≠ [] := by
        rintro rfl
        exact hcs (List.map_eq_nil_iff.1 hds.symm)
      rw [sized_cons hcs, sized_cons hds', ih hds.symm, hd]

end Sized

section Tiles

variable {B : MinSizes} {m m' m'' : Malloc} {cs cs' cs'' pre mid mid' suf : List ChunkHeader}
  {x a d : ℕ} {o c : ChunkHeader} {P : ChunkHeader → Prop} {given : Option ℕ}

theorem Tiles.bounds (tiles : Tiles B m cs)
    (chunk : (x, c) ∈ layout ChunkHeader.size m.firstChunk cs) :
    m.firstChunk ≤ x ∧ x + c.size ≤ m.endOfChunks ∧ B.last ≤ c.size ∧ 0 < c.size ∧
      c.size < 2 ^ 48 := by
  have hbounds := layout_bounds chunk
  have hreach := tiles.reach
  have hroom := tiles.room
  have hlast := tiles.sized.last_le c (mem_of_layout chunk)
  have hpos := B.last_pos
  omega

theorem Tiles.mono {B' : MinSizes} (tiles : Tiles B m cs) (inner : B'.inner ≤ B.inner)
    (last : B'.last ≤ B.last) : Tiles B' m cs :=
  ⟨tiles.header, tiles.reach, tiles.sized.mono inner last, tiles.room⟩

theorem Tiles.congr (tiles : Tiles B m cs) (mem : m'.mem = m.mem)
    (first : m'.firstChunk = m.firstChunk) (last : m'.endOfChunks = m.endOfChunks) :
    Tiles B m' cs := by
  refine ⟨fun x c hc => ?_, ?_, tiles.sized, ?_⟩
  · rw [first] at hc
    rw [header_congr fun i _ _ => congrFun mem i]
    exact tiles.header x c hc
  · rw [first, last]
    exact tiles.reach
  · rw [last]
    exact tiles.room

theorem mem_layout_of (m : Malloc) (pre : List ChunkHeader) (c : ChunkHeader)
    (suf : List ChunkHeader) : (m.firstChunk + span ChunkHeader.size pre, c) ∈
      layout ChunkHeader.size m.firstChunk (pre ++ c :: suf) := mem_layout _ _ _ _

theorem Tiles.at (tiles : Tiles B m (pre ++ c :: suf)) :
    m.header (m.firstChunk + span ChunkHeader.size pre) = c ∧ c.magic = MAGIC :=
  tiles.header _ _ (mem_layout _ _ _ _)

theorem Keeps.refl (P : ChunkHeader → Prop) (m : Malloc) (cs : List ChunkHeader)
    (given : Option ℕ) : Keeps P m m cs cs given :=
  fun _ _ hc _ _ => ⟨hc, fun _ _ _ => rfl⟩

theorem Keeps.trans (first : Keeps P m m' cs cs' given) (second : Keeps P m' m'' cs' cs'' given) :
    Keeps P m m'' cs cs'' given := by
  intro x c hc hP hgiven
  obtain ⟨hc', hmem⟩ := first x c hc hP hgiven
  obtain ⟨hc'', hmem'⟩ := second x c hc' hP hgiven
  exact ⟨hc'', fun y hle hlt => (hmem' y hle hlt).trans (hmem y hle hlt)⟩

theorem Keeps.except (keeps : Keeps P m m' cs cs' none) (given : Option ℕ) :
    Keeps P m m' cs cs' given :=
  fun x c hc hP _ => keeps x c hc hP (Option.some_ne_none x)

theorem Keeps.weaken {Q : ChunkHeader → Prop} (keeps : Keeps P m m' cs cs' given)
    (weaker : ∀ c, Q c → P c) : Keeps Q m m' cs cs' given :=
  fun x c hc hQ hgiven => keeps x c hc (weaker c hQ) hgiven

theorem Keeps.congr (mem : m'.mem = m.mem) (first : m'.firstChunk = m.firstChunk) :
    Keeps P m m' cs cs given :=
  fun _ _ hc _ _ => ⟨first ▸ hc, fun y _ _ => congrFun mem y⟩

/-! ## Edits -/

/-- The part `mid` of the list, which lies from `a` to `d`, becomes `mid'`.  Memory changes there only,
or anywhere behind `a` when `mid` is the end of the list. -/
structure Edit (m m' : Malloc) (pre mid mid' suf : List ChunkHeader) (a d : ℕ) : Prop where
  start : m.firstChunk + span ChunkHeader.size pre = a
  stop : a + span ChunkHeader.size mid = d
  first : m'.firstChunk = m.firstChunk
  before : ∀ y, y < a → m'.mem y = m.mem y
  behind : suf ≠ [] → a + span ChunkHeader.size mid' = d ∧ m'.endOfChunks = m.endOfChunks ∧
    ∀ y, d ≤ y → m'.mem y = m.mem y

theorem layout_parts {f : ℕ} (start : f + span ChunkHeader.size pre = a)
    (stop : a + span ChunkHeader.size mid = d) :
    layout ChunkHeader.size f (pre ++ mid ++ suf) =
      layout ChunkHeader.size f pre ++ layout ChunkHeader.size a mid ++
        layout ChunkHeader.size d suf := by
  rw [layout_append, layout_append, span_append, ← Nat.add_assoc, start, stop]

theorem Edit.start' (edit : Edit m m' pre mid mid' suf a d) :
    m'.firstChunk + span ChunkHeader.size pre = a := by
  rw [edit.first]
  exact edit.start

/-- The list in three parts, once its middle part has become another one. -/
theorem layout_recut (start : m.firstChunk + span ChunkHeader.size pre = a)
    (first : m'.firstChunk = m.firstChunk) (place : suf ≠ [] → a + span ChunkHeader.size mid' = d) :
    layout ChunkHeader.size m'.firstChunk (pre ++ mid' ++ suf) =
      layout ChunkHeader.size m.firstChunk pre ++ layout ChunkHeader.size a mid' ++
        layout ChunkHeader.size d suf := by
  have start' : m'.firstChunk + span ChunkHeader.size pre = a := by rw [first, start]
  by_cases hsuf : suf = []
  · subst hsuf
    rw [layout_parts start' rfl, first]
    rfl
  · rw [layout_parts start' (place hsuf), first]

theorem Edit.layout' (edit : Edit m m' pre mid mid' suf a d) :
    layout ChunkHeader.size m'.firstChunk (pre ++ mid' ++ suf) =
      layout ChunkHeader.size m.firstChunk pre ++ layout ChunkHeader.size a mid' ++
        layout ChunkHeader.size d suf :=
  layout_recut edit.start edit.first fun hsuf => (edit.behind hsuf).1

theorem Edit.tiles {C : MinSizes} (edit : Edit m m' pre mid mid' suf a d)
    (tiles : Tiles B m (pre ++ mid ++ suf)) (ne : mid ≠ [])
    (reach : suf = [] → a + span ChunkHeader.size mid' = m'.endOfChunks)
    (sized : Sized C (pre ++ mid' ++ suf))
    (header : ∀ x c, (x, c) ∈ layout ChunkHeader.size a mid' →
      m'.header x = c ∧ c.magic = MAGIC)
    (room : m'.endOfChunks + HEADER_SIZE ≤ 2 ^ 47) : Tiles C m' (pre ++ mid' ++ suf) := by
  have hparts : layout ChunkHeader.size m.firstChunk (pre ++ mid ++ suf) = _ :=
    layout_parts edit.start edit.stop
  constructor
  case header =>
    intro x c hc
    rw [edit.layout', List.mem_append, List.mem_append] at hc
    rcases hc with (hc | hc) | hc
    · have hbounds := layout_bounds hc
      have hstart := edit.start
      have hinner : B.inner ≤ c.size := by
        refine ((sized_append (r := mid ++ suf) (by simp [ne])).1 ?_).1 c (mem_of_layout hc)
        rw [← List.append_assoc]
        exact tiles.sized
      have hheader := B.header_le
      rw [header_congr fun i _ hi => edit.before i (by omega)]
      refine tiles.header x c ?_
      rw [hparts]
      exact List.mem_append_left _ (List.mem_append_left _ hc)
    · exact header x c hc
    · have hbounds := layout_bounds hc
      have hsuf : suf ≠ [] := by
        rintro rfl
        cases hc
      rw [header_congr fun i hi _ => (edit.behind hsuf).2.2 i (by omega)]
      refine tiles.header x c ?_
      rw [hparts]
      exact List.mem_append_right _ hc
  case reach =>
    have hstart := edit.start'
    rw [span_append, span_append]
    by_cases hsuf : suf = []
    · have hreach := reach hsuf
      rw [hsuf, span_nil]
      omega
    · obtain ⟨hsame, hend, -⟩ := edit.behind hsuf
      have hreach := tiles.reach
      have hold := edit.start
      have hstop := edit.stop
      rw [span_append, span_append] at hreach
      omega
  case sized => exact sized
  case room => exact room

/-- The chunks outside the part are kept, and so are those in it when the edit keeps them. -/
theorem Edit.keeps (edit : Edit m m' pre mid mid' suf a d)
    (part : ∀ x c, (x, c) ∈ layout ChunkHeader.size a mid → P c → some x ≠ given →
      (x, c) ∈ layout ChunkHeader.size a mid' ∧ ∀ y, x ≤ y → y < x + c.size → m'.mem y = m.mem y) :
    Keeps P m m' (pre ++ mid ++ suf) (pre ++ mid' ++ suf) given := by
  intro x c hc hP hgiven
  rw [layout_parts edit.start edit.stop, List.mem_append, List.mem_append] at hc
  rw [edit.layout']
  rcases hc with (hc | hc) | hc
  · have hbounds := layout_bounds hc
    have hstart := edit.start
    exact ⟨List.mem_append_left _ (List.mem_append_left _ hc),
      fun y _ hlt => edit.before y (by omega)⟩
  · obtain ⟨hc', hmem⟩ := part x c hc hP hgiven
    exact ⟨List.mem_append_left _ (List.mem_append_right _ hc'), hmem⟩
  · have hbounds := layout_bounds hc
    have hsuf : suf ≠ [] := by
      rintro rfl
      cases hc
    exact ⟨List.mem_append_right _ hc, fun y hle _ => (edit.behind hsuf).2.2 y (by omega)⟩

theorem Edit.inside (start : m.firstChunk + span ChunkHeader.size pre = a)
    (stop : a + span ChunkHeader.size mid = d)
    (same : span ChunkHeader.size mid' = span ChunkHeader.size mid)
    (first : m'.firstChunk = m.firstChunk) (last : m'.endOfChunks = m.endOfChunks)
    (mem : ∀ y, y < a ∨ suf ≠ [] ∧ d ≤ y → m'.mem y = m.mem y) : Edit m m' pre mid mid' suf a d where
  start := start
  stop := stop
  first := first
  before := fun y hy => mem y (Or.inl hy)
  behind := fun hsuf => ⟨same ▸ stop, last, fun y hy => mem y (Or.inr ⟨hsuf, hy⟩)⟩

/-- An edit that keeps the place of its part gives a list that tiles the heap. -/
theorem Edit.tiles_inside {C : MinSizes} (edit : Edit m m' pre mid mid' suf a d)
    (tiles : Tiles B m (pre ++ mid ++ suf)) (ne : mid ≠ [])
    (same : span ChunkHeader.size mid' = span ChunkHeader.size mid)
    (last : m'.endOfChunks = m.endOfChunks) (sized : Sized C (pre ++ mid' ++ suf))
    (header : ∀ x c, (x, c) ∈ layout ChunkHeader.size a mid' →
      m'.header x = c ∧ c.magic = MAGIC) : Tiles C m' (pre ++ mid' ++ suf) := by
  refine edit.tiles tiles ne (fun hsuf => ?_) sized header (last ▸ tiles.room)
  have hreach := tiles.reach
  have hstart := edit.start
  rw [hsuf, List.append_nil, span_append] at hreach
  omega

theorem Edit.put {h : ChunkHeader} (start : m.firstChunk + span ChunkHeader.size pre = a)
    (size : h.size = c.size) (large : suf ≠ [] → HEADER_SIZE ≤ c.size) :
    Edit m (m.putHeader a h) pre [c] [h] suf a (a + c.size) := by
  refine Edit.inside start (by simp) (by simp [size]) rfl rfl fun y hy => putHeader_mem ?_
  rcases hy with hy | ⟨hsuf, hy⟩
  · exact Or.inl hy
  · have hlarge := large hsuf
    omega

theorem Tiles.put {h : ChunkHeader} (tiles : Tiles B m (pre ++ c :: suf))
    (start : m.firstChunk + span ChunkHeader.size pre = a) (size : h.size = c.size)
    (magic : h.magic = MAGIC) : Tiles B (m.putHeader a h) (pre ++ h :: suf) := by
  have edit : Edit m (m.putHeader a h) pre [c] [h] suf a (a + c.size) :=
    Edit.put start size fun hsuf =>
      B.header_le.trans ((sized_cons hsuf).1 (sized_append_cons.1 tiles.sized).2).1
  have tiles' : Tiles B m (pre ++ [c] ++ suf) := by simpa using tiles
  have hresult : Tiles B (m.putHeader a h) (pre ++ [h] ++ suf) :=
    edit.tiles_inside tiles' (by simp) (by simp [size]) rfl ?_ ?_
  · simpa using hresult
  · refine (sized_congr ?_).1 tiles'.sized
    simp [size]
  · intro x g hg
    rw [layout_cons, layout_nil, List.mem_singleton] at hg
    obtain ⟨rfl, rfl⟩ := Prod.mk.inj hg
    have hreach := tiles.reach
    have hroom := tiles.room
    simp only [span_append, span_cons] at hreach
    exact ⟨header_putHeader (by omega) magic, magic⟩

theorem Keeps.put {h : ChunkHeader} (tiles : Tiles B m (pre ++ c :: suf))
    (start : m.firstChunk + span ChunkHeader.size pre = a) (size : h.size = c.size)
    (out : P c → given = some a) :
    Keeps P m (m.putHeader a h) (pre ++ c :: suf) (pre ++ h :: suf) given := by
  have edit : Edit m (m.putHeader a h) pre [c] [h] suf a (a + c.size) :=
    Edit.put start size fun hsuf =>
      B.header_le.trans ((sized_cons hsuf).1 (sized_append_cons.1 tiles.sized).2).1
  have hkeeps : Keeps P m (m.putHeader a h) (pre ++ [c] ++ suf) (pre ++ [h] ++ suf) given := by
    refine edit.keeps fun x d hd hP hgiven => ?_
    rw [layout_cons, layout_nil, List.mem_singleton] at hd
    obtain ⟨rfl, rfl⟩ := Prod.mk.inj hd
    exact absurd (out hP).symm hgiven
  simpa using hkeeps

/-! ## Merging two chunks -/

theorem mergeInto_eq (header : m.header a = o) (header' : m.header d = c) :
    m.mergeInto a d = m.putHeader a (o.enlarge c.size) := by
  unfold mergeInto
  rw [header, header']
  rfl

/-- Merging two chunks edits the list there. -/
theorem merge_edit (tiles : Tiles B m (pre ++ o :: c :: suf))
    (start : m.firstChunk + span ChunkHeader.size pre = a) :
    Edit m (m.mergeInto a (a + o.size)) pre [o, c] [o.enlarge c.size] suf a
        (a + (o.size + c.size)) ∧
      m.mergeInto a (a + o.size) = m.putHeader a (o.enlarge c.size) := by
  have ho : m.header a = o := by
    rw [← start]
    exact (tiles.at).1
  have hc : m.header (a + o.size) = c := by
    have tiles' : Tiles B m ((pre ++ [o]) ++ c :: suf) := by simpa using tiles
    have h := (tiles'.at).1
    rwa [span_append, span_cons, span_nil, Nat.add_zero, ← Nat.add_assoc, start] at h
  rw [mergeInto_eq ho hc]
  have hinner := (sized_append_cons.1 tiles.sized).2.1
  have hheader := B.header_le
  refine ⟨Edit.inside start (by simp) (by simp) rfl rfl fun y hy => putHeader_mem ?_, rfl⟩
  omega

theorem merge_tiles (tiles : Tiles B m (pre ++ o :: c :: suf))
    (start : m.firstChunk + span ChunkHeader.size pre = a) :
    Tiles B (m.mergeInto a (a + o.size)) (pre ++ o.enlarge c.size :: suf) := by
  obtain ⟨edit, heq⟩ := merge_edit tiles start
  have hsized := sized_append_cons.1 tiles.sized
  have hinner := hsized.2.1
  have tiles' : Tiles B m (pre ++ [o, c] ++ suf) := by simpa using tiles
  have hresult : Tiles B (m.mergeInto a (a + o.size)) (pre ++ [o.enlarge c.size] ++ suf) :=
    edit.tiles_inside tiles' (by simp) (by simp) (by rw [heq]; rfl) ?_ ?_
  · simpa using hresult
  · rw [List.append_assoc]
    refine sized_append_cons.2 ⟨hsized.1, ?_⟩
    by_cases hsuf : suf = []
    · subst hsuf
      exact B.last_le.trans (hinner.trans (Nat.le_add_right _ _))
    · exact (sized_cons hsuf).2 ⟨hinner.trans (Nat.le_add_right _ _), (sized_cons hsuf).1 hsized.2.2 |>.2⟩
  · intro x h hmem
    rw [layout_cons, layout_nil, List.mem_singleton] at hmem
    obtain ⟨rfl, rfl⟩ := Prod.mk.inj hmem
    have hmagic : o.magic = MAGIC := (tiles.at).2
    have hreach := tiles.reach
    have hroom := tiles.room
    simp only [span_append, span_cons] at hreach
    rw [heq]
    exact ⟨header_putHeader (by rw [ChunkHeader.enlarge_size]; omega) hmagic, hmagic⟩

theorem merge_keeps (tiles : Tiles B m (pre ++ o :: c :: suf))
    (start : m.firstChunk + span ChunkHeader.size pre = a) (out : P o → given = some a)
    (out' : ¬P c) :
    Keeps P m (m.mergeInto a (a + o.size)) (pre ++ o :: c :: suf) (pre ++ o.enlarge c.size :: suf)
      given := by
  obtain ⟨edit, -⟩ := merge_edit tiles start
  have hkeeps : Keeps P m (m.mergeInto a (a + o.size)) (pre ++ [o, c] ++ suf)
      (pre ++ [o.enlarge c.size] ++ suf) given := by
    refine edit.keeps fun x d hd hP hgiven => ?_
    rw [layout_cons, layout_cons, layout_nil, List.mem_cons, List.mem_singleton] at hd
    rcases hd with hd | hd
    · obtain ⟨rfl, rfl⟩ := Prod.mk.inj hd
      exact absurd (out hP).symm hgiven
    · obtain ⟨rfl, rfl⟩ := Prod.mk.inj hd
      exact absurd hP out'
  simpa using hkeeps

/-! ## The first chunk -/

theorem one_chunk_tiles {h : ChunkHeader} (last : m.endOfChunks = m.firstChunk + h.size)
    (size : B.last ≤ h.size) (magic : h.magic = MAGIC)
    (room : m.endOfChunks + HEADER_SIZE ≤ 2 ^ 47) :
    Tiles B (m.putHeader m.firstChunk h) [h] := by
  refine ⟨fun x c hc => ?_, ?_, size, room⟩
  · rw [layout_cons, layout_nil, List.mem_singleton] at hc
    obtain ⟨rfl, rfl⟩ := Prod.mk.inj hc
    exact ⟨header_putHeader (by omega) magic, magic⟩
  · rw [span_cons, span_nil]
    exact last.symm

/-- A heap from page 257 on, with the headers of a list of chunks in its memory. -/
def heapOf (pages : KernelPages) (cs : List ChunkHeader) : Malloc :=
  let room := span ChunkHeader.size cs
  let m : Malloc := ⟨fun _ => 0, pages, 257 * PAGESIZE, 257 * PAGESIZE + room,
    UInt64.ofNat (room + HEADER_SIZE), 0, true⟩
  (layout ChunkHeader.size m.firstChunk cs).foldl (fun m e => m.putHeader e.1 e.2) m

theorem heapOf_ends (pages : KernelPages) (cs : List ChunkHeader) :
    SameEnds ⟨fun _ => 0, pages, 257 * PAGESIZE, 257 * PAGESIZE + span ChunkHeader.size cs, 0, 0, true⟩
      (heapOf pages cs) := by
  have hsame : ∀ (l : List (ℕ × ChunkHeader)) (m : Malloc),
      SameEnds m (l.foldl (fun m e => m.putHeader e.1 e.2) m) := by
    intro l
    induction l with
    | nil => exact fun m => ⟨rfl, rfl, rfl, rfl⟩
    | cons e l ih =>
      intro m
      have hput : SameEnds m (m.putHeader e.1 e.2) := ⟨rfl, rfl, rfl, rfl⟩
      exact hput.trans (ih (m.putHeader e.1 e.2))
  have hends := hsame (layout ChunkHeader.size (257 * PAGESIZE) cs) ⟨fun _ => 0, pages, 257 * PAGESIZE,
    257 * PAGESIZE + span ChunkHeader.size cs, UInt64.ofNat (span ChunkHeader.size cs + HEADER_SIZE), 0, true⟩
  exact ⟨hends.pages, hends.first, hends.last, hends.ready⟩

/-- `init` maps the first page that is not mapped, and makes it one free chunk. -/
theorem init_spec {pages : KernelPages} {page : ℕ} (mem : Buf) (wf : pages.Wf)
    (frames : pages.frames = none) (first : pages.First page)
    (dir : pages.dirs (page / 2 ^ 18) = true) :
    ∃ m, init mem pages = some m ∧ m.firstChunk = page * PAGESIZE ∧
      m.endOfChunks = page * PAGESIZE + PAGESIZE - HEADER_SIZE ∧
      KernelPages.MapsOne pages m.pages .heap page ∧ m.pages.Wf ∧ m.mallocReady = true ∧
      m.totalMemUsed = UInt64.ofNat PAGESIZE ∧ m.totalMemAllocated = 0 ∧
      Tiles minSizes m [⟨PAGESIZE - HEADER_SIZE, MAGIC, false, false⟩] := by
  obtain ⟨pages', hmap, hmaps, wf'⟩ := KernelPages.mapPage_zero wf frames first dir
  have hlow := first.low
  unfold KernelPages.END_OF_PAGES at hlow
  unfold init
  rw [hmap]
  refine ⟨_, rfl, rfl, rfl, hmaps, wf', rfl, rfl, rfl, one_chunk_tiles ?_ (by decide) rfl ?_⟩
  · exact Nat.add_sub_assoc (by decide) _
  · show page * 4096 + 4096 - 8 + 8 ≤ 2 ^ 47
    omega

end Tiles

end Malloc
