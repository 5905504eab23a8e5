import SepplesOS.Mm.Requests

/-!
# Requests that `realloc` keeps

A block that has to move is copied to the one that `malloc` returns, and freed.  The chunk that `malloc`
finds never lies over the header of a live block: the search ends at a free chunk of the list, and the
growth at the end of the heap or on a page that was not mapped.  So the new chunk keeps its size.
-/

namespace Malloc

open Tiling KernelPages

/-- The headers at two addresses have no byte in common. -/
def Apart (x y : ℕ) : Prop := x + HEADER_SIZE ≤ y ∨ y + HEADER_SIZE ≤ x

section Search

variable {B : MinSizes} {m : Malloc} {cs pre suf : List ChunkHeader} {c : ChunkHeader}
  {x next realsize fuel : ℕ} {other : Option ℕ}

/-! ## The search, with any number of frames -/

/-- The chunk at which a search ends, before it is handed out. -/
def Found.at : Found → ℕ
  | .chunk x => x
  | .atEnd other => other

/-- The search ends at a chunk of the list, and at a free one unless it has reached the end. -/
def Placed (m : Malloc) (cs : List ChunkHeader) (found : Found) : Prop :=
  ∃ c, (found.at, c) ∈ layout ChunkHeader.size m.firstChunk cs ∧
    ∀ x, found = .chunk x → c.used = false

theorem look_places (cs : List ChunkHeader) (wf : m.pages.Wf) :
    Run.Sat (do
        let (next, pages) ← .ofOption m m.pages.getUnmappedVAddr
        .done ({ m with pages := pages }, next) : Run Malloc (Malloc × ℕ))
      (fun r => SearchSteps (m, cs) (r.1, cs) ∧ FirstAt r.1.pages r.2) (fun _ => True) False := by
  apply Run.Sat.bind (Run.sat_ofOption (fun _ hlook => hlook) fun _ => trivial)
  rintro ⟨next, pages⟩ hlook
  obtain ⟨page, first, rfl, -, same, -, -, wf'⟩ := getUnmappedVAddr_some wf hlook
  exact Run.sat_done ⟨.single (.look same wf'), page, first.congr same.owner, rfl⟩

theorem reclaim_places (tiles : Tiles B m (pre ++ c :: suf)) (wf : m.pages.Wf)
    (start : m.firstChunk + span ChunkHeader.size pre = x) (first : FirstAt m.pages next) :
    Run.Sat (m.reclaim x next)
      (fun r => ∃ c', SearchSteps (m, pre ++ c :: suf) (r.1, pre ++ c' :: suf) ∧ c'.size = c.size ∧
        FirstAt r.1.pages r.2) (fun _ => True) False := by
  obtain ⟨page, first, rfl⟩ := first
  have hheader : m.header x = c := by
    rw [← start]
    exact (tiles.at).1
  have hpos : 0 < page := lt_of_lt_of_le (by decide) first.start
  unfold reclaim
  dsimp only
  rw [hheader]
  split_ifs with hhole hsize
  · exact Run.sat_halted trivial
  · obtain ⟨hnot, hplace⟩ := hhole
    apply Run.Sat.bind (Run.sat_ofOption (fun _ hmap => hmap) fun _ => trivial)
    rintro ⟨mapped, pages⟩ hmap
    rw [mapPage_of_pos hpos] at hmap
    obtain ⟨wf', ⟨rfl, same, -⟩ | ⟨rfl, maps⟩⟩ := mapPageAt_cases wf first.low first.unmapped hmap
    · dsimp only
      rw [if_neg (not_not.2 rfl)]
      refine Run.Sat.mono (look_places (m := { m with pages := pages }) (pre ++ c :: suf) wf') ?_
        (fun _ h => h) id
      exact fun r h => ⟨c, .head (.look same wf') h.1, rfl, h.2⟩
    · have hstep : SearchStep (m, pre ++ c :: suf) _ :=
        .reclaim start hnot (not_not.1 hsize) hplace maps wf'
      dsimp only
      rw [if_pos (Nat.mul_pos hpos (by decide)).ne']
      refine Run.Sat.mono (look_places (m := putHeader { m with pages := pages } x _)
        (pre ++ { c with used := false, notOurs := false } :: suf) wf') ?_ (fun _ h => h) id
      exact fun r h => ⟨_, .head hstep h.1, rfl, h.2⟩
  · exact Run.sat_done ⟨c, .refl, rfl, page, first, rfl⟩

theorem search_places (tiles : Tiles B m (pre ++ c :: suf)) (wf : m.pages.Wf)
    (first : FirstAt m.pages next) (cursor : Cursor realsize False m pre c other)
    (start : m.firstChunk + span ChunkHeader.size pre = x) :
    Run.Sat (search realsize fuel m x other next)
      (fun r => ∃ cs', SearchSteps (m, pre ++ c :: suf) (r.1, cs') ∧ Placed r.1 cs' r.2)
      (fun _ => True) True := by
  induction fuel generalizing m pre c suf other next x with
  | zero => exact Run.sat_running trivial
  | succ fuel ih =>
    have hmem : (x, c) ∈ layout ChunkHeader.size m.firstChunk (pre ++ c :: suf) := by
      rw [← start]
      exact mem_layout _ _ _ _
    obtain ⟨hheader, hmagic⟩ := tiles.header x c hmem
    obtain ⟨-, hle, -, hpos, -⟩ := tiles.bounds hmem
    by_cases hfit : c.used = true ∨ c.size < realsize
    case neg =>
      rw [search_fits hheader hfit]
      refine Run.sat_done ⟨_, .refl, c, hmem, fun _ _ => ?_⟩
      simpa using (not_or.1 hfit).1
    case pos =>
      cases hother : m.freeBefore other x with
      | some a =>
        rw [search_merges hheader hmagic hpos hfit hother]
        obtain ⟨rfl, l, o, rfl, hstart, hplace, hofree, hcfree, hcursor⟩ :=
          cursor.merge tiles start hheader (by omega) hother
        have hstep : SearchStep (m, l ++ [o] ++ c :: suf)
            (m.mergeInto a x, l ++ o.enlarge c.size :: suf) := by
          rw [← hplace, show l ++ [o] ++ c :: suf = l ++ o :: c :: suf by simp]
          exact SearchStep.merge hstart hofree hcfree
        refine (ih (hstep.tiles tiles) wf first hcursor hstart).mono ?_ (fun _ h => h) id
        rintro r ⟨cs', hsteps, hplaced⟩
        exact ⟨cs', .head hstep hsteps, hplaced⟩
      | none =>
        rw [search_passes hheader hmagic hpos hfit hother]
        apply Run.Sat.bind (reclaim_places tiles wf start first).enough
        rintro ⟨m₁, next₁⟩ ⟨c₁, hsteps, hsize, hfirst⟩
        dsimp only at hsteps
        have hfields := hsteps.fields
        obtain ⟨tiles₁, hstart₁, hheader₁⟩ := SearchSteps.at hsteps tiles start
        dsimp only
        rw [hheader₁]
        split_ifs with hend hpast
        · have hlast : (x, c₁) ∈ layout ChunkHeader.size m₁.firstChunk (pre ++ c₁ :: suf) := by
            rw [← hstart₁]
            exact mem_layout _ _ _ _
          exact Run.sat_done ⟨_, hsteps, c₁, hlast, fun _ h => (by cases h)⟩
        · exact Run.sat_halted trivial
        · cases suf with
          | nil =>
            have hreach := tiles₁.reach
            simp only [span_append, span_cons, span_nil] at hreach
            omega
          | cons d ds =>
            have hlist : (pre ++ [c₁]) ++ d :: ds = pre ++ c₁ :: d :: ds := by simp
            have hcursor : Cursor realsize False m₁ (pre ++ [c₁]) d (some x) :=
              ⟨fun a ha => ⟨pre, c₁, rfl, hstart₁.trans (Option.some.inj ha)⟩, False.elim, False.elim,
                False.elim⟩
            refine (ih (hlist ▸ tiles₁) (hfields.2.2.2.2 wf) hfirst hcursor
              (by simp [← hstart₁, Nat.add_assoc])).mono ?_ (fun _ h => h) id
            rintro r ⟨cs', hsteps', hplaced⟩
            rw [hlist] at hsteps'
            exact ⟨cs', hsteps.trans hsteps', hplaced⟩

end Search

/-! ## The growth -/

/-- What the loop that gets pages never does to the header at `x`, which lies on pages that are
mapped: a new chunk shares no byte with it. -/
structure Avoids (x : ℕ) (g : Growth) : Prop where
  pages : g.m.pages.Wf
  mapped : ∀ i < HEADER_SIZE, g.m.pages.owner ((x + i) / PAGESIZE) ≠ none
  aligned : (g.m.endOfChunks + HEADER_SIZE) % PAGESIZE = 0
  low : g.m.endOfChunks + HEADER_SIZE ≤ 2 ^ 47
  other : (g.m.header g.other).used = false → Apart x g.other
  oldEnd : Apart x g.oldEndOfChunks

section Growth

variable {x need fuel : ℕ} {g : Growth} {m : Malloc}

/-- A page that is not mapped holds no byte of a header on pages that are. -/
theorem apart_of_unmapped {pages : KernelPages} {page : ℕ} (unmapped : pages.owner page = none)
    (mapped : ∀ i < HEADER_SIZE, pages.owner ((x + i) / PAGESIZE) ≠ none) :
    Apart x (page * PAGESIZE) := by
  have hheader : HEADER_SIZE = 8 := rfl
  have hpage : PAGESIZE = 4096 := rfl
  by_contra hover
  unfold Apart at hover
  rw [hpage, hheader] at hover
  rw [hpage, hheader] at mapped
  -- one of the eight bytes is on the page
  obtain ⟨i, hi, heq⟩ : ∃ i < 8, (x + i) / 4096 = page := by
    by_cases hle : page * 4096 ≤ x
    · exact ⟨0, by omega, by omega⟩
    · exact ⟨page * 4096 - x, by omega, by omega⟩
  apply mapped i hi
  rw [heq]
  exact unmapped

theorem Avoids.map {vaddr r : ℕ} {pages : KernelPages} (avoids : Avoids x g) (pos : vaddr ≠ 0)
    (map : g.m.pages.mapPage .heap vaddr = some (r, pages)) :
    Avoids x { g with m := { g.m with pages := pages } } := by
  unfold mapPage at map
  rw [if_neg pos] at map
  obtain ⟨hwf, hgrows⟩ := mapPageAt_grows avoids.pages map
  exact ⟨hwf, fun i hi => hgrows _ (avoids.mapped i hi), avoids.aligned, avoids.low, avoids.other,
    avoids.oldEnd⟩

theorem Avoids.addPage (avoids : Avoids x g) (low : g.m.endOfChunks + HEADER_SIZE < 2 ^ 39) :
    Avoids x (addPage g) := by
  have hpage : PAGESIZE = 4096 := rfl
  have haligned := avoids.aligned
  obtain ⟨hpages, -, hend, -⟩ := addPage_fields g
  have hplace : (Malloc.addPage g).m.endOfChunks + HEADER_SIZE =
      g.m.endOfChunks + HEADER_SIZE + PAGESIZE := by
    rw [hend]
    exact Nat.add_right_comm _ _ _
  constructor
  case pages =>
    rw [hpages]
    exact avoids.pages
  case mapped =>
    rw [hpages]
    exact avoids.mapped
  case aligned =>
    rw [hplace, Nat.add_mod_right]
    exact haligned
  case low =>
    rw [hplace, hpage]
    omega
  case other =>
    rw [addPage_other_used]
    exact avoids.other
  case oldEnd => exact avoids.oldEnd

/-- Where a wrap ends, and where the chunk behind it lies.  With the first page that is not mapped below
the end of the heap the difference wraps around, and the size of the wrapped chunk is cut off. -/
theorem wrap_place {e page : ℕ} (aligned : (e + HEADER_SIZE) % PAGESIZE = 0)
    (low : e + HEADER_SIZE < 2 ^ 39) (start : 256 ≤ page) (page_low : page < END_OF_PAGES) :
    (e + sub64 (page * PAGESIZE) (e + HEADER_SIZE)) % 2 ^ 64 + HEADER_SIZE = page * PAGESIZE ∧
      (e + (sub64 (page * PAGESIZE) (e + HEADER_SIZE) + HEADER_SIZE) % 2 ^ 48 = page * PAGESIZE ∨
        e + (sub64 (page * PAGESIZE) (e + HEADER_SIZE) + HEADER_SIZE) % 2 ^ 48 =
          2 ^ 48 + page * PAGESIZE) := by
  have hheader : HEADER_SIZE = 8 := rfl
  have hpage : PAGESIZE = 4096 := rfl
  have hend : END_OF_PAGES = 2 ^ 27 := rfl
  rw [hpage, hheader] at aligned
  rw [hheader] at low
  rw [hend] at page_low
  unfold sub64
  rw [hpage, hheader]
  omega

theorem Avoids.wrap (avoids : Avoids x g) (header : x + HEADER_SIZE ≤ 2 ^ 47)
    (low : g.m.endOfChunks + HEADER_SIZE < 2 ^ 39) :
    Run.Sat (wrap need g)
      (fun g' => Avoids x g' ∧ g'.m.endOfChunks + HEADER_SIZE < 2 ^ 39) (fun _ => True) False := by
  have hheader : HEADER_SIZE = 8 := rfl
  have hpage : PAGESIZE = 4096 := rfl
  unfold Malloc.wrap
  apply Run.Sat.bind (Run.sat_ofOption (fun _ hlook => hlook) fun _ => trivial)
  rintro ⟨next, pages⟩ hlook
  obtain ⟨page, first, rfl, -, same, -, -, wf'⟩ := getUnmappedVAddr_some avoids.pages hlook
  have hlow := first.low
  have hstart : 256 ≤ page := first.start
  dsimp only
  apply Run.Sat.bind (Run.sat_ofOption (fun _ hmap => hmap) fun _ => trivial)
  rintro ⟨r, pages'⟩ hmap
  rw [putHeader_pages, mapPage_of_pos (by omega)] at hmap
  obtain ⟨hwf, hgrows⟩ := mapPageAt_grows wf' hmap
  obtain ⟨hend, hplace⟩ := wrap_place avoids.aligned low hstart hlow
  have hcount : PAGESIZE * contigousUnmappable { g.m with pages := pages } (page * PAGESIZE) =
      sub64 (page * PAGESIZE) (g.m.endOfChunks + HEADER_SIZE) := by
    have haligned := avoids.aligned
    unfold contigousUnmappable
    dsimp only
    unfold sub64
    rw [hpage] at haligned ⊢
    rw [if_pos (by omega)]
    omega
  have happart : Apart x (page * PAGESIZE) := apart_of_unmapped first.unmapped avoids.mapped
  apply Run.sat_done
  refine ⟨⟨hwf, fun i hi => hgrows _ ?_, ?_, ?_, fun hunused => ?_, ?_⟩, ?_⟩
  · rw [same.owner]
    exact avoids.mapped i hi
  · dsimp only
    rw [hcount, putHeader_endOfChunks, hend]
    exact Nat.mul_mod_left _ _
  · dsimp only
    rw [hcount, putHeader_endOfChunks, hend, hpage]
    unfold END_OF_PAGES at hlow
    omega
  · -- the wrapped chunk is used
    have hused := (header_putHeader_fields (m := { g.m with pages := pages }) g.m.endOfChunks
      ⟨PAGESIZE * contigousUnmappable { g.m with pages := pages } (page * PAGESIZE) + HEADER_SIZE, MAGIC,
        true, true⟩).2
    exact Bool.noConfusion (hused.symm.trans hunused)
  · dsimp only
    rw [putHeader_endOfChunks, (header_putHeader_fields _ _).1]
    dsimp only
    rw [hcount]
    rcases hplace with hplace | hplace
    · rw [hplace]
      exact happart
    · rw [hplace]
      exact Or.inl (by omega)
  · dsimp only
    rw [hcount, putHeader_endOfChunks, hend, hpage]
    unfold END_OF_PAGES at hlow
    omega

theorem grow_avoids (avoids : Avoids x g) (header : x + HEADER_SIZE ≤ 2 ^ 47) :
    Run.Sat (grow need fuel g) (Avoids x) (fun _ => True) True := by
  induction fuel generalizing g with
  | zero => exact Run.sat_running trivial
  | succ fuel ih =>
    have hpos : g.m.endOfChunks + HEADER_SIZE ≠ 0 := Nat.succ_ne_zero _
    rw [grow]
    split_ifs
    · exact Run.sat_done avoids
    · apply Run.Sat.bind (Run.sat_ofOption (fun _ hmap => hmap) fun _ => trivial)
      rintro ⟨r, pages⟩ hmap
      have hmapped := avoids.map hpos hmap
      have hlow : g.m.endOfChunks + HEADER_SIZE < 2 ^ 39 := by
        have hpage := mapPage_low hpos hmap
        have hroom := avoids.low
        have hsize : PAGESIZE = 4096 := rfl
        unfold pageAt END_OF_PAGES at hpage
        rw [hsize] at hpage
        omega
      dsimp only
      split_ifs
      · apply Run.Sat.bind (hmapped.wrap header hlow).enough
        rintro g' ⟨hwrapped, hlow'⟩
        exact ih (hwrapped.addPage hlow')
      · exact ih (hmapped.addPage hlow)

theorem useGrowth_apart {realsize : ℕ} (avoids : Avoids x g) :
    Run.Sat (useGrowth realsize g) (fun r => Apart x r.2) (fun _ => True) False := by
  unfold useGrowth
  dsimp only
  split_ifs with haligned hused hsmall
  · exact Run.sat_halted trivial
  · exact Run.sat_done avoids.oldEnd
  · exact Run.sat_halted trivial
  · exact Run.sat_done (avoids.other (by simpa using hused))

end Growth

/-! ## The block that `malloc` returns -/

section Moved

variable {B : MinSizes} {m m' : Malloc} {cs : List ChunkHeader} {c : ChunkHeader}
  {x y fuel need size realsize newvaddr : ℕ}

theorem Tiles.inner_le (tiles : Tiles B m cs) {d : ChunkHeader}
    (chunk : (x, c) ∈ layout ChunkHeader.size m.firstChunk cs)
    (chunk' : (y, d) ∈ layout ChunkHeader.size m.firstChunk cs) (before : y + d.size ≤ x) :
    B.inner ≤ d.size := by
  have hbounds := tiles.bounds chunk
  have hreach := tiles.reach
  have hsized := tiles.sized
  obtain ⟨pre, suf, rfl, rfl⟩ := layout_split chunk'
  have hne : suf ≠ [] := by
    rintro rfl
    rw [span_append, span_cons, span_nil] at hreach
    omega
  exact ((sized_cons hne).1 (sized_append_cons.1 hsized).2).1

theorem Tiles.apart (tiles : Tiles B m cs) {d : ChunkHeader}
    (chunk : (x, c) ∈ layout ChunkHeader.size m.firstChunk cs) (room : HEADER_SIZE ≤ c.size)
    (chunk' : (y, d) ∈ layout ChunkHeader.size m.firstChunk cs) (used : c.used = true)
    (free : d.used = false) : Apart x y := by
  rcases layout_apart chunk chunk' with ⟨-, rfl⟩ | hle | hle
  · exact Bool.noConfusion (used.symm.trans free)
  · exact Or.inl (le_trans (Nat.add_le_add_left room x) hle)
  · have hinner := B.header_le.trans (tiles.inner_le chunk chunk' hle)
    exact Or.inr (le_trans (Nat.add_le_add_left hinner y) hle)

/-- Whatever frames there are, the chunk that `malloc` finds shares no byte with the header of a live
block. -/
theorem findChunkFor_apart (h : WellFormed B m cs)
    (chunk : (x, c) ∈ layout ChunkHeader.size m.firstChunk cs) (room : HEADER_SIZE ≤ c.size)
    (ours : Ours c) :
    Run.Sat (m.findChunkFor fuel need realsize) (fun r => Apart x r.2) (fun _ => True) True := by
  unfold findChunkFor
  apply Run.Sat.bind (Run.sat_ofOption (fun _ hlook => hlook) fun _ => trivial)
  rintro ⟨next, pages⟩ hlook
  obtain ⟨page, first, rfl, -, same, -, -, wf'⟩ := getUnmappedVAddr_some h.pages hlook
  have hstep : SearchStep (m, cs) ({ m with pages := pages }, cs) := .look same wf'
  obtain ⟨d, ds, rfl⟩ := List.exists_cons_of_ne_nil h.ne_nil
  dsimp only
  have htiles : Tiles B { m with pages := pages } ([] ++ d :: ds) := hstep.tiles h.tiles
  apply Run.Sat.bind (search_places htiles wf' ⟨page, first.congr same.owner, rfl⟩
    (Cursor.start realsize _ d) rfl)
  rintro ⟨m₁, found⟩ ⟨cs₁, hsteps, e, hplaced, hfree⟩
  have hall : SearchSteps (m, d :: ds) (m₁, cs₁) := .head hstep hsteps
  have h₁ : WellFormed B m₁ cs₁ := h.search_steps hall
  obtain ⟨hchunk, -⟩ := hall.keeps h.tiles x c chunk ours (Option.some_ne_none x)
  cases found with
  | chunk y => exact Run.sat_done (h₁.tiles.apart hchunk room hplaced ours.1 (hfree y rfl))
  | atEnd other =>
    have hbounds := h₁.tiles.bounds hchunk
    have hroom := h₁.tiles.room
    dsimp only at hchunk hbounds
    unfold growFor
    have hstart : Avoids x (m₁.startGrowth need other) := by
      constructor
      case pages => exact h₁.pages
      case mapped =>
        intro i hi
        have hheap := (h₁.owned x c hchunk).ours ours.2 (x + i) (Nat.le_add_right _ _) (by omega)
        show m₁.pages.owner _ ≠ none
        rw [hheap]
        exact Option.some_ne_none _
      case aligned =>
        have haligned := h₁.aligned
        have hpage : PAGESIZE = 4096 := rfl
        have hsize : HEADER_SIZE = 8 := rfl
        show (m₁.endOfChunks + HEADER_SIZE) % PAGESIZE = 0
        rw [hpage] at haligned ⊢
        omega
      case low => exact hroom
      case other =>
        intro hunused
        have hat := (h₁.tiles.header _ e hplaced).1
        refine h₁.tiles.apart hchunk room hplaced ours.1 ?_
        rw [← hat]
        exact hunused
      case oldEnd => exact Or.inl (by show x + HEADER_SIZE ≤ m₁.endOfChunks; omega)
    apply Run.Sat.bind (grow_avoids hstart (by omega))
    exact fun g hg => (useGrowth_apart hg).enough

/-! ## The move -/

theorem mergeNext_header (apart : Apart x y) :
    Run.Sat (mergeNext fuel m x) (fun m' => m'.header y = m.header y) (fun _ => True) True := by
  induction fuel generalizing m with
  | zero => exact Run.sat_running trivial
  | succ fuel ih =>
    rw [mergeNext]
    dsimp only
    split_ifs
    · exact Run.sat_halted trivial
    · exact Run.sat_halted trivial
    · refine ih.mono (fun m' hm' => ?_) (fun _ h => h) id
      rw [hm']
      exact header_putHeader_ne apart
    · exact Run.sat_done rfl

theorem free_header (apart : Apart x y) :
    Run.Sat (m.free fuel (x + HEADER_SIZE)) (fun m' => m'.header y = m.header y) (fun _ => True) True := by
  unfold free
  dsimp only
  rw [Nat.add_sub_cancel]
  split_ifs
  · exact Run.sat_done rfl
  · exact Run.sat_halted trivial
  · apply Run.Sat.bind (mergeNext_header apart)
    intro m₁ hm₁
    apply Run.sat_done
    have hrelease : (m.release x).header y = m.header y := header_putHeader_ne apart
    rw [← hrelease, ← hm₁]
    unfold releasePages
    dsimp only
    split_ifs
    · exact header_putHeader_ne apart
    · rfl

theorem moveBy_header {malloc : Run Malloc (ℕ × Malloc)}
    (result : moveBy malloc fuel (x + HEADER_SIZE) = .done (newvaddr, m')) :
    ∃ m₁, malloc = .done (newvaddr, m₁) ∧
      ∀ y, newvaddr = y + HEADER_SIZE → Apart x y → m'.header y = m₁.header y := by
  unfold moveBy at result
  obtain ⟨⟨v, m₁⟩, hmalloc, hmove⟩ := Run.bind_eq_done result
  dsimp only at hmove
  obtain ⟨m₂, hfree, hdone⟩ := Run.bind_eq_done hmove
  obtain ⟨rfl, rfl⟩ := Prod.mk.inj (Run.done.inj hdone)
  refine ⟨m₁, hmalloc, fun y hy apart => ?_⟩
  rw [(free_header apart).of_done hfree, hy]
  exact copy_header (Or.inl le_rfl)

/-! ## A block that stays -/

/-- The chunk at `x` has to grow, and neither the chunk behind it nor the one before it has the room. -/
def Moves (m : Malloc) (fuel x realsize : ℕ) : Prop :=
  (m.header x).size < realsize ∧
    ¬(x + (m.header x).size < m.endOfChunks ∧ ¬(m.header (x + (m.header x).size)).used ∧
      (m.header x).size + (m.header (x + (m.header x).size)).size ≥ realsize) ∧
    (x ≠ m.firstChunk → ∀ previous,
      m.previousChunk (x + HEADER_SIZE) fuel m.firstChunk = .done previous →
        ¬(¬(m.header previous).used ∧ (m.header x).size + (m.header previous).size ≥ realsize))

theorem shrink_large (min : MALLOC_MINSIZE ≤ realsize) (lt : realsize < (m.header x).size) :
    realsize ≤ ((m.shrink x realsize).header x).size := by
  have hlt := header_size_lt m x
  have hheader : HEADER_SIZE ≤ MALLOC_MINSIZE := by decide
  unfold shrink
  dsimp only
  split_ifs
  · rw [(header_putHeader_fields _ _).1]
    dsimp only
    rw [header_putHeader_ne (Or.inr (by omega)), copy_header (Or.inl (by omega)),
      show (m.subAllocated ((m.header x).size - realsize)).header x = m.header x from
        header_congr fun _ _ _ => rfl, Nat.mod_eq_of_lt (by omega)]
    omega
  · rw [(header_putHeader_fields _ _).1]
    dsimp only
    rw [Nat.mod_eq_of_lt (by omega)]
  · exact lt.le

theorem growIntoNext_large
    (fits : realsize ≤ (m.header x).size + (m.header (x + (m.header x).size)).size)
    (low : (m.header x).size + (m.header (x + (m.header x).size)).size < 2 ^ 48) :
    realsize ≤ ((m.growIntoNext x realsize).header x).size := by
  unfold growIntoNext
  dsimp only
  split_ifs
  · rw [(header_putHeader_fields _ _).1]
    dsimp only
    rw [Nat.mod_eq_of_lt (by omega)]
  · rw [(header_putHeader_fields _ _).1]
    dsimp only
    rwa [Nat.mod_eq_of_lt low]

theorem growIntoPrevious_large {previous : ℕ} (low : realsize < 2 ^ 48) :
    realsize ≤ ((m.growIntoPrevious previous x realsize).header previous).size := by
  unfold growIntoPrevious
  dsimp only
  rw [(header_putHeader_fields _ _).1]
  dsimp only
  rw [Nat.mod_eq_of_lt low]

theorem previousChunk_ends (m : Malloc) (vaddr fuel start : ℕ) :
    Run.Sat (m.previousChunk vaddr fuel start)
      (fun previous => previous + (m.header previous).size + HEADER_SIZE = vaddr) (fun _ => False) True := by
  induction fuel generalizing start with
  | zero => exact Run.sat_running trivial
  | succ fuel ih =>
    rw [previousChunk]
    split_ifs with hends
    · exact Run.sat_done hends
    · exact ih _

theorem Tiles.next_low (tiles : Tiles B m cs)
    (chunk : (x, c) ∈ layout ChunkHeader.size m.firstChunk cs) (behind : x + c.size < m.endOfChunks) :
    c.size + (m.header (x + c.size)).size < 2 ^ 48 := by
  have hreach := tiles.reach
  have hroom := tiles.room
  have hbounds := tiles.bounds chunk
  obtain ⟨pre, suf, rfl, rfl⟩ := layout_split chunk
  cases suf with
  | nil =>
    rw [span_append, span_cons, span_nil] at hreach
    omega
  | cons d suf =>
    have hd := mem_layout_of m (pre ++ [c]) d suf
    rw [span_append, span_cons, span_nil, Nat.add_zero, ← Nat.add_assoc, List.append_assoc,
      List.singleton_append] at hd
    have hdbounds := tiles.bounds hd
    rw [(tiles.header _ d hd).1]
    omega

/-- A call of `realloc` that returns a block has grown or shrunk it in place, or has moved it. -/
theorem reallocBy_cases {malloc : Run Malloc (ℕ × Malloc)} (tiles : Tiles B m cs)
    (chunk : (x, c) ∈ layout ChunkHeader.size m.firstChunk cs) (min : MALLOC_MINSIZE ≤ realsize)
    (result : m.reallocBy malloc fuel (x + HEADER_SIZE) realsize = .done (newvaddr, m'))
    (ne : newvaddr ≠ 0) :
    ¬Moves m fuel x realsize ∧ realsize ≤ (m'.header (newvaddr - HEADER_SIZE)).size ∨
      Moves m fuel x realsize ∧ moveBy malloc fuel (x + HEADER_SIZE) = .done (newvaddr, m') := by
  have hat := (tiles.header x c chunk).1
  have hbounds := tiles.bounds chunk
  have hroom := tiles.room
  have hpos : x + HEADER_SIZE ≠ 0 := Nat.succ_ne_zero _
  unfold reallocBy at result
  dsimp only at result
  rw [if_neg hpos, Nat.add_sub_cancel] at result
  split_ifs at result with hready hbad hsame hlarger
  · obtain ⟨rfl, rfl⟩ := Prod.mk.inj (Run.done.inj result)
    rw [Nat.add_sub_cancel]
    exact Or.inl ⟨fun moves => moves.1.ne hsame, hsame.ge⟩
  · obtain ⟨rfl, rfl⟩ := Prod.mk.inj (Run.done.inj result)
    rw [Nat.add_sub_cancel]
    exact Or.inl ⟨fun moves => moves.1.not_gt hlarger, shrink_large min hlarger⟩
  · unfold enlargeBy at result
    dsimp only at result
    rw [Nat.add_sub_cancel] at result
    split_ifs at result with hnext hfirst
    · obtain ⟨rfl, rfl⟩ := Prod.mk.inj (Run.done.inj result)
      rw [Nat.add_sub_cancel]
      refine Or.inl ⟨fun moves => moves.2.1 hnext, growIntoNext_large hnext.2.2 ?_⟩
      rw [hat]
      exact tiles.next_low chunk (by rw [← hat]; exact hnext.1)
    · obtain ⟨previous, hprevious, hcase⟩ := Run.bind_eq_done result
      have hends := (previousChunk_ends m (x + HEADER_SIZE) fuel m.firstChunk).of_done hprevious
      split_ifs at hcase with hfits
      · obtain ⟨rfl, rfl⟩ := Prod.mk.inj (Run.done.inj hcase)
        rw [Nat.add_sub_cancel]
        refine Or.inl ⟨fun moves => moves.2.2 hfirst previous hprevious hfits,
          growIntoPrevious_large ?_⟩
        rw [hat] at hfits
        omega
      · refine Or.inr ⟨⟨by omega, hnext, fun _ p hp => ?_⟩, hcase⟩
        obtain rfl := Run.done.inj (hprevious.symm.trans hp)
        exact hfits
    · exact Or.inr ⟨⟨by omega, hnext, fun hne => absurd hne hfirst⟩, result⟩
  · obtain ⟨rfl, -⟩ := Prod.mk.inj (Run.done.inj result)
    exact absurd rfl ne

/-! ## Requests of any size -/

/-- A call of `realloc` that has returned a block has kept its request: the sum for the header did not
wrap, the chunk of a new block was large enough for the split, and the block has the size asked for. -/
def ReallocKept (m : Malloc) (fuel x size newvaddr : ℕ) (m' : Malloc) : Prop :=
  HEADER_SIZE + size ≤ realsize64 size ∧ (Moves m fuel x (realsize64 size) → Large m fuel size) ∧
    HEADER_SIZE + size ≤ (m'.header (newvaddr - HEADER_SIZE)).size

theorem realloc64_kept_iff (h : WellFormed B m cs) (sized : UsedSized B cs)
    (chunk : (x, c) ∈ layout ChunkHeader.size m.firstChunk cs) (ours : Ours c)
    (result : m.realloc64 fuel (x + HEADER_SIZE) size = .done (newvaddr, m')) (ne : newvaddr ≠ 0) :
    ReallocKept m fuel x size newvaddr m' ↔ size + HEADER_SIZE < 2 ^ 64 ∧
      (Moves m fuel x (realsizeOf size) → Spare size ∨ ¬Wraps m size) := by
  have hlt := header_size_lt m' (newvaddr - HEADER_SIZE)
  have hheader : HEADER_SIZE = 8 := rfl
  by_cases hfit : size + HEADER_SIZE < 2 ^ 64
  case neg => exact iff_of_false (fun kept => hfit (by have := kept.2.2; omega)) fun h => hfit h.1
  case pos =>
    unfold ReallocKept
    unfold realloc64 at result
    rw [realsize64_eq hfit] at result ⊢
    rcases reallocBy_cases h.tiles chunk minsize_le_realsizeOf result ne with ⟨hstays, hlarge⟩ | ⟨hmoves, hmove⟩
    · refine iff_of_true ⟨header_add_le_realsizeOf, fun hmoves => absurd hmoves hstays, ?_⟩
        ⟨hfit, fun hmoves => absurd hmoves hstays⟩
      exact header_add_le_realsizeOf.trans hlarge
    · obtain ⟨m₁, hmalloc, hheaders⟩ := moveBy_header hmove
      obtain ⟨m₀, y, hfind, rfl, -, -⟩ := malloc64_done hmalloc ne
      have hroom : HEADER_SIZE ≤ c.size := B.header_le.trans (sized c (mem_of_layout chunk) ours.1)
      have hkept := hheaders y rfl ((findChunkFor_apart h chunk hroom ours).of_done hfind)
      have hlarge_iff := malloc64_large_iff hfit hmalloc ne
      constructor
      · rintro ⟨-, hlarge, -⟩
        exact ⟨hfit, fun _ => hlarge_iff.1 (hlarge hmoves)⟩
      · rintro ⟨-, hcase⟩
        have hlarge := hlarge_iff.2 (hcase hmoves)
        refine ⟨header_add_le_realsizeOf, fun _ => hlarge, ?_⟩
        rw [Nat.add_sub_cancel, hkept]
        simpa using malloc64_size hfit hmalloc ne hlarge

/-- The heap of `wallHeap`, with one free page between two pages of others. -/
def holeHeap : Malloc :=
  { wallHeap 258 false with
    pages := { wallPages 258 with
      owner := Function.update (wallPages 258).owner 260 (some .foreign) } }

end Moved

end Malloc
