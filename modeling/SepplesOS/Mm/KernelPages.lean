import SepplesOS.Mm.Memmap

/-!
# The kernel's pages as the heap sees them

`Paging::getUnmappedVAddr`, `mapPage` and `unmapPage` (`kernel/mm/paging.cpp`) on the kernel's
directory, without the contents of the tables: which entries are present, who has mapped a page, and
how many frames are free.  A call that ends in `fatalError` has no result (`none`).
-/

/-- Who has mapped a page. -/
inductive Owner
  | boot
  | heap
  | foreign
deriving DecidableEq

/-- The kernel's address space: who has mapped a page, by page number, which page tables and page
directories there are, and the number of free frames, `none` when there are always enough. -/
structure KernelPages where
  owner : ℕ → Option Owner
  tables : ℕ → Bool
  dirs : ℕ → Bool
  frames : Option ℕ

namespace KernelPages

variable (pages : KernelPages)

/-- The pages behind the first entry of the kernel's directory, which is the only one present. -/
def END_OF_PAGES : ℕ := 2 ^ 27

/-- The page of an address, by the four indices of a walk. -/
def pageAt (vaddr : ℕ) : ℕ := vaddr / PAGESIZE % 2 ^ 36

/-- One frame less. -/
def takeFrame : Option KernelPages :=
  match pages.frames with
  | none => some pages
  | some 0 => none
  | some (n + 1) => some { pages with frames := some n }

/-- Makes a page directory when there is none. -/
def newDir (dir : ℕ) : Option KernelPages :=
  if pages.dirs dir then some pages
  else pages.takeFrame.map fun pages => { pages with dirs := Function.update pages.dirs dir true }

/-- Makes a page table when there is none. -/
def newTable (table : ℕ) : Option KernelPages :=
  if pages.tables table then some pages
  else
    pages.takeFrame.map fun pages => { pages with tables := Function.update pages.tables table true }

/-- The first page from `page` on that is not mapped, with `n` pages left. -/
def firstUnmapped : ℕ → ℕ → Option ℕ
  | 0, _ => none
  | n + 1, page => if pages.owner page = none then some page else firstUnmapped n (page + 1)

/-- Where the scan of a page table begins. -/
def startIndex (table : ℕ) : ℕ := if table = 0 then FREE_PAGES_START / PAGESIZE else 0

/-- The loop of `getUnmappedVAddr` over the page tables, `n` of them left.  A page directory that is
missing is an error. -/
def scanTables : KernelPages → ℕ → ℕ → Option (ℕ × KernelPages)
  | _, 0, _ => none
  | pages, n + 1, table =>
    if pages.dirs (table / 512) then
      match pages.newTable table with
      | none => none
      | some pages =>
        match pages.firstUnmapped (512 - startIndex table) (512 * table + startIndex table) with
        | some page => some (page * PAGESIZE, pages)
        | none => scanTables pages n (table + 1)
    else none

/-- `Paging::getUnmappedVAddr`. -/
def getUnmappedVAddr : Option (ℕ × KernelPages) := scanTables pages (2 ^ 18) 0

/-- `Paging::mapPage` once the address is known. -/
def mapPageAt (who : Owner) (vaddr : ℕ) : Option (ℕ × KernelPages) :=
  let page := pageAt vaddr
  if END_OF_PAGES ≤ page then none
  else
    match pages.newDir (page / 2 ^ 18) with
    | none => none
    | some pages =>
      match pages.newTable (page / 512) with
      | none => none
      | some pages =>
        if pages.owner page ≠ none then some (0, pages)
        else
          match pages.takeFrame with
          | none => some (0, pages)
          | some pages =>
            some (vaddr, { pages with owner := Function.update pages.owner page (some who) })

/-- `Paging::mapPage` for an owner: the address, or `0` when the page is mapped already or there is no
frame. -/
def mapPage (who : Owner) (vaddr : ℕ) : Option (ℕ × KernelPages) :=
  if vaddr = 0 then
    match pages.getUnmappedVAddr with
    | none => none
    | some (vaddr, pages) => if vaddr = 0 then some (0, pages) else pages.mapPageAt who vaddr
  else pages.mapPageAt who vaddr

/-- `Paging::unmapPage`. -/
def unmapPage (vaddr : ℕ) : KernelPages :=
  if pages.owner (pageAt vaddr) = none then pages
  else
    { pages with
      owner := Function.update pages.owner (pageAt vaddr) none
      frames := pages.frames.map (· + 1) }

/-! ## What the calls do -/

/-- Mapped pages have a page table, and page tables a page directory. -/
structure Wf : Prop where
  low : ∀ page, pages.owner page ≠ none → page < END_OF_PAGES
  table : ∀ page, pages.owner page ≠ none → pages.tables (page / 512) = true
  dir : ∀ table, pages.tables table = true → pages.dirs (table / 512) = true

/-- The first page of the kernel that is not mapped. -/
structure First (page : ℕ) : Prop where
  start : FREE_PAGES_START / PAGESIZE ≤ page
  low : page < END_OF_PAGES
  unmapped : pages.owner page = none
  least : ∀ q, FREE_PAGES_START / PAGESIZE ≤ q → q < page → pages.owner q ≠ none

/-- The pages are mapped as before; tables may have been added. -/
structure SamePages (pages pages' : KernelPages) : Prop where
  owner : pages'.owner = pages.owner
  frames : pages.frames = none → pages'.frames = none
  tables : ∀ table, pages.tables table = true → pages'.tables table = true
  dirs : ∀ dir, pages.dirs dir = true → pages'.dirs dir = true

/-- One page more is mapped, and tables may have been added. -/
structure MapsOne (pages pages' : KernelPages) (who : Owner) (page : ℕ) : Prop where
  low : page < END_OF_PAGES
  unmapped : pages.owner page = none
  owner : pages'.owner = Function.update pages.owner page (some who)
  frames : pages.frames = none → pages'.frames = none
  dirs : ∀ dir, pages.dirs dir = true → pages'.dirs dir = true

section Specs

variable {pages pages' : KernelPages} {who : Owner} {page vaddr : ℕ}

theorem pageAt_mul (low : page < END_OF_PAGES) : pageAt (page * PAGESIZE) = page := by
  unfold pageAt
  unfold END_OF_PAGES at low
  rw [Nat.mul_div_cancel _ (by decide : 0 < PAGESIZE), Nat.mod_eq_of_lt (by omega)]

theorem SamePages.refl (pages : KernelPages) : SamePages pages pages :=
  ⟨rfl, id, fun _ => id, fun _ => id⟩

theorem SamePages.trans {pages'' : KernelPages} (first : SamePages pages pages')
    (second : SamePages pages' pages'') : SamePages pages pages'' :=
  ⟨second.owner.trans first.owner, second.frames ∘ first.frames,
    fun t ht => second.tables t (first.tables t ht), fun d hd => second.dirs d (first.dirs d hd)⟩

theorem takeFrame_same (h : pages.takeFrame = some pages') :
    SamePages pages pages' ∧ pages'.tables = pages.tables ∧ pages'.dirs = pages.dirs := by
  unfold takeFrame at h
  cases hframes : pages.frames with
  | none =>
    rw [hframes] at h
    obtain rfl := Option.some.inj h
    exact ⟨SamePages.refl _, rfl, rfl⟩
  | some n =>
    rw [hframes] at h
    cases n with
    | zero => cases h
    | succ n =>
      obtain rfl := Option.some.inj h
      refine ⟨⟨rfl, fun hnone => ?_, fun _ => id, fun _ => id⟩, rfl, rfl⟩
      rw [hframes] at hnone
      cases hnone

theorem takeFrame_of_none (frames : pages.frames = none) : pages.takeFrame = some pages := by
  unfold takeFrame
  rw [frames]

theorem newDir_same {dir : ℕ} (h : pages.newDir dir = some pages') :
    SamePages pages pages' ∧ pages'.dirs dir = true ∧ pages'.tables = pages.tables := by
  unfold newDir at h
  split_ifs at h with hdir
  · cases h
    exact ⟨SamePages.refl _, hdir, rfl⟩
  · obtain ⟨pages₁, htake, rfl⟩ := Option.map_eq_some_iff.1 h
    obtain ⟨hsame, htables, hdirs⟩ := takeFrame_same htake
    refine ⟨⟨hsame.owner, hsame.frames, hsame.tables, fun d hd => ?_⟩,
      Function.update_self _ _ _, htables⟩
    by_cases heq : d = dir
    · rw [heq]
      exact Function.update_self _ _ _
    · exact (Function.update_of_ne heq _ _).trans (hsame.dirs d hd)

theorem newTable_same {table : ℕ} (h : pages.newTable table = some pages') :
    SamePages pages pages' ∧ pages'.tables table = true ∧ pages'.dirs = pages.dirs ∧
      ∀ t, pages'.tables t = true → pages.tables t = true ∨ t = table := by
  unfold newTable at h
  split_ifs at h with htable
  · cases h
    exact ⟨SamePages.refl _, htable, rfl, fun _ => Or.inl⟩
  · obtain ⟨pages₁, htake, rfl⟩ := Option.map_eq_some_iff.1 h
    obtain ⟨hsame, htables, hdirs⟩ := takeFrame_same htake
    refine ⟨⟨hsame.owner, hsame.frames, fun t ht => ?_, hsame.dirs⟩,
      Function.update_self _ _ _, hdirs, fun t ht => ?_⟩
    · by_cases heq : t = table
      · rw [heq]
        exact Function.update_self _ _ _
      · exact (Function.update_of_ne heq _ _).trans (hsame.tables t ht)
    · by_cases heq : t = table
      · exact Or.inr heq
      · exact Or.inl (htables ▸ (Function.update_of_ne heq _ _).symm.trans ht)

theorem Wf.newTable {table : ℕ} (wf : pages.Wf) (h : pages.newTable table = some pages')
    (dir : pages.dirs (table / 512) = true) : pages'.Wf := by
  obtain ⟨hsame, -, hdirs, hnew⟩ := newTable_same h
  refine ⟨fun p hp => wf.low p (hsame.owner ▸ hp),
    fun p hp => hsame.tables _ (wf.table p (hsame.owner ▸ hp)), fun t ht => ?_⟩
  rw [hdirs]
  rcases hnew t ht with hold | rfl
  · exact wf.dir t hold
  · exact dir

theorem newTable_of_none (frames : pages.frames = none) (table : ℕ) :
    ∃ pages', pages.newTable table = some pages' := by
  unfold KernelPages.newTable
  rw [takeFrame_of_none frames]
  split_ifs
  · exact ⟨_, rfl⟩
  · exact ⟨_, rfl⟩

theorem newDir_of_none (frames : pages.frames = none) (dir : ℕ) :
    ∃ pages', pages.newDir dir = some pages' := by
  unfold newDir
  rw [takeFrame_of_none frames]
  split_ifs
  · exact ⟨_, rfl⟩
  · exact ⟨_, rfl⟩

/-! ### `getUnmappedVAddr` -/

theorem firstUnmapped_eq_none {n : ℕ} :
    pages.firstUnmapped n page = none ↔ ∀ q, page ≤ q → q < page + n → pages.owner q ≠ none := by
  induction n generalizing page with
  | zero => simp [firstUnmapped]; omega
  | succ n ih =>
    rw [firstUnmapped]
    split_ifs with h
    · simp only [false_iff, not_forall]
      exact ⟨page, le_rfl, by omega, fun hne => hne h⟩
    · rw [ih]
      constructor
      · intro hall q hle hlt
        by_cases hq : q = page
        · rw [hq]
          exact h
        · exact hall q (by omega) (by omega)
      · exact fun hall q hle hlt => hall q (by omega) (by omega)

theorem firstUnmapped_eq_some {n q : ℕ} (h : pages.firstUnmapped n page = some q) :
    page ≤ q ∧ q < page + n ∧ pages.owner q = none ∧
      ∀ r, page ≤ r → r < q → pages.owner r ≠ none := by
  induction n generalizing page with
  | zero => cases h
  | succ n ih =>
    rw [firstUnmapped] at h
    split_ifs at h with howner
    · cases h
      exact ⟨le_rfl, by omega, howner, fun r _ hlt => absurd hlt (by omega)⟩
    · obtain ⟨hle, hlt, hnone, hbefore⟩ := ih h
      refine ⟨by omega, by omega, hnone, fun r hr hrq => ?_⟩
      by_cases heq : r = page
      · rw [heq]
        exact howner
      · exact hbefore r (by omega) hrq

/-- The pages from the start of the free ones to the start of a page table are mapped. -/
def MappedBelow (pages : KernelPages) (table : ℕ) : Prop :=
  ∀ q, FREE_PAGES_START / PAGESIZE ≤ q → q < 512 * table → pages.owner q ≠ none

theorem startIndex_cases (table : ℕ) :
    table = 0 ∧ startIndex table = FREE_PAGES_START / PAGESIZE ∨ 0 < table ∧ startIndex table = 0 := by
  unfold startIndex
  split_ifs with h
  · exact Or.inl ⟨h, rfl⟩
  · exact Or.inr ⟨Nat.pos_of_ne_zero h, rfl⟩

theorem MappedBelow.succ {table : ℕ} (below : pages.MappedBelow table)
    (full : pages.firstUnmapped (512 - startIndex table) (512 * table + startIndex table) = none) :
    pages.MappedBelow (table + 1) := by
  rw [firstUnmapped_eq_none] at full
  have hstart : FREE_PAGES_START / PAGESIZE = 256 := rfl
  have hindex := startIndex_cases table
  intro q hq hlt
  by_cases hlow : q < 512 * table
  · exact below q hq hlow
  · exact full q (by omega) (by omega)

/-- The page that the scan of a page table finds is the first one of all. -/
theorem MappedBelow.first {table page : ℕ} (below : pages.MappedBelow table) (low : table < 2 ^ 18)
    (found : pages.firstUnmapped (512 - startIndex table) (512 * table + startIndex table) =
      some page) : pages.First page ∧ page / 512 = table := by
  obtain ⟨hle, hlt, hnone, hbefore⟩ := firstUnmapped_eq_some found
  have hstart : FREE_PAGES_START / PAGESIZE = 256 := rfl
  have hindex := startIndex_cases table
  refine ⟨⟨by omega, ?_, hnone, fun q hq hlt' => ?_⟩, by omega⟩
  · unfold END_OF_PAGES
    omega
  · by_cases hlow : q < 512 * table
    · exact below q hq hlow
    · exact hbefore q (by omega) hlt'

theorem First.congr (first : pages.First page) (same : pages'.owner = pages.owner) :
    pages'.First page :=
  ⟨first.start, first.low, same ▸ first.unmapped, fun q hq hlt => same ▸ first.least q hq hlt⟩

theorem scanTables_some {n table : ℕ} (bound : table + n = 2 ^ 18) (wf : pages.Wf)
    (below : pages.MappedBelow table) (h : scanTables pages n table = some (vaddr, pages')) :
    ∃ page, pages.First page ∧ vaddr = page * PAGESIZE ∧ pages.dirs (page / 2 ^ 18) = true ∧
      SamePages pages pages' ∧ pages'.tables (page / 512) = true ∧ pages'.dirs = pages.dirs ∧
        pages'.Wf := by
  induction n generalizing pages table with
  | zero => cases h
  | succ n ih =>
    rw [scanTables] at h
    by_cases hdir : pages.dirs (table / 512) = true
    · rw [if_pos hdir] at h
      cases hnew : pages.newTable table with
      | none =>
        rw [hnew] at h
        cases h
      | some pages₁ =>
        rw [hnew] at h
        obtain ⟨hsame, htable, hdirs, -⟩ := newTable_same hnew
        have wf₁ := wf.newTable hnew hdir
        have below₁ : pages₁.MappedBelow table := fun q hq hlt => hsame.owner ▸ below q hq hlt
        dsimp only at h
        cases hfound : pages₁.firstUnmapped (512 - startIndex table)
            (512 * table + startIndex table) with
        | some page =>
          rw [hfound] at h
          obtain ⟨rfl, rfl⟩ := Prod.mk.inj (Option.some.inj h)
          obtain ⟨first, hdiv⟩ := below₁.first (by omega) hfound
          refine ⟨page, first.congr hsame.owner.symm, rfl, ?_, hsame, hdiv ▸ htable, hdirs, wf₁⟩
          rw [show page / 2 ^ 18 = page / 512 / 512 by omega, hdiv]
          exact hdir
        | none =>
          rw [hfound] at h
          obtain ⟨page, first, rfl, hdir', hsame', htable', hdirs', wf'⟩ :=
            ih (by omega) wf₁ (below₁.succ hfound) h
          refine ⟨page, first.congr hsame.owner.symm, rfl, ?_, hsame.trans hsame', htable',
            hdirs'.trans hdirs, wf'⟩
          rw [← hdirs]
          exact hdir'
    · rw [if_neg hdir] at h
      cases h

/-- `getUnmappedVAddr` gives the first page that is not mapped, and makes its page table. -/
theorem getUnmappedVAddr_some (wf : pages.Wf) (h : pages.getUnmappedVAddr = some (vaddr, pages')) :
    ∃ page, pages.First page ∧ vaddr = page * PAGESIZE ∧ pages.dirs (page / 2 ^ 18) = true ∧
      SamePages pages pages' ∧ pages'.tables (page / 512) = true ∧ pages'.dirs = pages.dirs ∧
        pages'.Wf := by
  refine scanTables_some (by decide) wf ?_ h
  intro q hq hlt
  omega

theorem newTable_of_present {table : ℕ} (present : pages.tables table = true) :
    pages.newTable table = some pages := if_pos present

theorem scanTables_eq {n table : ℕ} (bound : table + n = 2 ^ 18) (wf : pages.Wf)
    (first : pages.First page) (le : table ≤ page / 512) :
    scanTables pages n table =
      if pages.dirs (page / 2 ^ 18) then
        (pages.newTable (page / 512)).map fun pages => (page * PAGESIZE, pages)
      else none := by
  have hlow := first.low
  unfold END_OF_PAGES at hlow
  have hstart : FREE_PAGES_START / PAGESIZE = 256 := rfl
  have hfirst := first.start
  have hindex := startIndex_cases table
  have hdiv : page / 2 ^ 18 = page / 512 / 512 := by omega
  induction n generalizing table with
  | zero => omega
  | succ n ih =>
    rw [scanTables]
    rcases Nat.lt_or_eq_of_le le with hlt | heq
    · -- all pages of this table are mapped
      have hmapped : pages.owner (512 * table + 511) ≠ none := first.least _ (by omega) (by omega)
      have htable := wf.table _ hmapped
      rw [show (512 * table + 511) / 512 = table by omega] at htable
      have hfull : pages.firstUnmapped (512 - startIndex table) (512 * table + startIndex table) =
          none := firstUnmapped_eq_none.2 fun q hle hq => first.least q (by omega) (by omega)
      rw [if_pos (wf.dir _ htable), newTable_of_present htable]
      dsimp only
      rw [hfull]
      exact ih (by omega) hlt (startIndex_cases _)
    · rw [← heq, show page / 2 ^ 18 = table / 512 by omega]
      by_cases hdir : pages.dirs (table / 512) = true
      · rw [if_pos hdir, if_pos hdir]
        cases hnew : pages.newTable table with
        | none => rfl
        | some pages₁ =>
          have hsame := (newTable_same hnew).1.owner
          dsimp only
          have hfound : pages₁.firstUnmapped (512 - startIndex table)
              (512 * table + startIndex table) = some page := by
            cases hscan : pages₁.firstUnmapped (512 - startIndex table)
                (512 * table + startIndex table) with
            | none =>
              rw [firstUnmapped_eq_none] at hscan
              exact absurd (hsame ▸ first.unmapped) (hscan page (by omega) (by omega))
            | some q =>
              obtain ⟨hle, hq, hnone, hbefore⟩ := firstUnmapped_eq_some hscan
              rw [hsame] at hnone hbefore
              rcases lt_trichotomy q page with hqp | rfl | hqp
              · exact absurd hnone (first.least q (by omega) hqp)
              · rfl
              · exact absurd first.unmapped (hbefore page (by omega) hqp)
          rw [hfound]
          rfl
      · rw [if_neg hdir, if_neg hdir]

theorem getUnmappedVAddr_eq (wf : pages.Wf) (first : pages.First page) :
    pages.getUnmappedVAddr =
      if pages.dirs (page / 2 ^ 18) then
        (pages.newTable (page / 512)).map fun pages => (page * PAGESIZE, pages)
      else none :=
  scanTables_eq (by decide) wf first (Nat.zero_le _)

theorem getUnmappedVAddr_of_dir (wf : pages.Wf) (frames : pages.frames = none)
    (first : pages.First page) (dir : pages.dirs (page / 2 ^ 18) = true) :
    ∃ pages', pages.getUnmappedVAddr = some (page * PAGESIZE, pages') := by
  obtain ⟨pages', hnew⟩ := newTable_of_none frames (page / 512)
  rw [getUnmappedVAddr_eq wf first, if_pos dir, hnew]
  exact ⟨pages', rfl⟩

theorem First.unique {page' : ℕ} (first : pages.First page) (first' : pages.First page') :
    page = page' := by
  rcases lt_trichotomy page page' with hlt | heq | hlt
  · exact absurd first.unmapped (first'.least page first.start hlt)
  · exact heq
  · exact absurd first'.unmapped (first.least page' first'.start hlt)

theorem exists_first (start : FREE_PAGES_START / PAGESIZE ≤ page) (low : page < END_OF_PAGES)
    (unmapped : pages.owner page = none) : ∃ q, pages.First q ∧ q ≤ page := by
  have hex : ∃ q, FREE_PAGES_START / PAGESIZE ≤ q ∧ pages.owner q = none := ⟨page, start, unmapped⟩
  have hmin : Nat.find hex ≤ page := Nat.find_min' hex ⟨start, unmapped⟩
  exact ⟨Nat.find hex, ⟨(Nat.find_spec hex).1, hmin.trans_lt low, (Nat.find_spec hex).2,
    fun q hq hlt hnone => Nat.find_min hex hlt ⟨hq, hnone⟩⟩, hmin⟩

/-! ### `mapPage` -/

theorem newDir_of_present {dir : ℕ} (present : pages.dirs dir = true) :
    pages.newDir dir = some pages := if_pos present

theorem mapPageAt_mapped (wf : pages.Wf) (mapped : pages.owner page ≠ none) :
    pages.mapPageAt who (page * PAGESIZE) = some (0, pages) := by
  have hlow := wf.low page mapped
  have htable := wf.table page mapped
  have hdir := wf.dir _ htable
  rw [Nat.div_div_eq_div_mul, show 512 * 512 = 2 ^ 18 from rfl] at hdir
  unfold mapPageAt
  dsimp only
  rw [pageAt_mul hlow, if_neg (not_le.2 hlow), newDir_of_present hdir]
  dsimp only
  rw [newTable_of_present htable]
  dsimp only
  rw [if_pos mapped]

/-- What mapping a page that is not mapped does, when it does not end in an error: there is no frame
for it, or it is mapped. -/
theorem mapPageAt_cases (wf : pages.Wf) (low : page < END_OF_PAGES)
    (unmapped : pages.owner page = none)
    (h : pages.mapPageAt who (page * PAGESIZE) = some (vaddr, pages')) :
    pages'.Wf ∧ (vaddr = 0 ∧ SamePages pages pages' ∧ pages'.frames = some 0 ∧
      pages'.tables (page / 512) = true ∨
        vaddr = page * PAGESIZE ∧ MapsOne pages pages' who page) := by
  unfold mapPageAt at h
  dsimp only at h
  rw [pageAt_mul low, if_neg (not_le.2 low)] at h
  cases hdir : pages.newDir (page / 2 ^ 18) with
  | none =>
    rw [hdir] at h
    cases h
  | some pages₁ =>
    rw [hdir] at h
    obtain ⟨hsame₁, hdir₁, htables₁⟩ := newDir_same hdir
    have wf₁ : pages₁.Wf := ⟨fun p hp => wf.low p (hsame₁.owner ▸ hp),
      fun p hp => hsame₁.tables _ (wf.table p (hsame₁.owner ▸ hp)),
      fun t ht => hsame₁.dirs _ (wf.dir t (htables₁ ▸ ht))⟩
    dsimp only at h
    cases htable : pages₁.newTable (page / 512) with
    | none =>
      rw [htable] at h
      cases h
    | some pages₂ =>
      rw [htable] at h
      obtain ⟨hsame₂, htable₂, hdirs₂, -⟩ := newTable_same htable
      have wf₂ := wf₁.newTable htable (by rw [Nat.div_div_eq_div_mul]; exact hdir₁)
      have howner : pages₂.owner page = none := by rw [hsame₂.owner, hsame₁.owner, unmapped]
      dsimp only at h
      rw [if_neg (not_not.2 howner)] at h
      cases htake : pages₂.takeFrame with
      | none =>
        rw [htake] at h
        obtain ⟨rfl, rfl⟩ := Prod.mk.inj (Option.some.inj h)
        refine ⟨wf₂, Or.inl ⟨rfl, hsame₁.trans hsame₂, ?_, htable₂⟩⟩
        unfold takeFrame at htake
        split at htake
        case h_1 => cases htake
        case h_2 hframes => exact hframes
        case h_3 => cases htake
      | some pages₃ =>
        rw [htake] at h
        obtain ⟨rfl, rfl⟩ := Prod.mk.inj (Option.some.inj h)
        obtain ⟨hsame₃, htables₃, hdirs₃⟩ := takeFrame_same htake
        have hsame := (hsame₁.trans hsame₂).trans hsame₃
        refine ⟨⟨fun p hp => ?_, fun p hp => ?_, fun t ht => ?_⟩, Or.inr ⟨rfl, ?_⟩⟩
        · by_cases heq : p = page
          · rw [heq]
            exact low
          · refine wf.low p ?_
            rw [← hsame.owner]
            exact fun hnone => hp ((Function.update_of_ne heq _ _).trans hnone)
        · by_cases heq : p = page
          · rw [heq]
            exact hsame₃.tables _ htable₂
          · refine hsame.tables _ (wf.table p ?_)
            rw [← hsame.owner]
            exact fun hnone => hp ((Function.update_of_ne heq _ _).trans hnone)
        · exact hsame₃.dirs _ (wf₂.dir t (htables₃ ▸ ht))
        · exact ⟨low, unmapped, congrArg (fun o => Function.update o page (some who)) hsame.owner,
            hsame.frames, hsame.dirs⟩

theorem mapPageAt_unmapped (wf : pages.Wf) (frames : pages.frames = none)
    (low : page < END_OF_PAGES) (unmapped : pages.owner page = none) :
    ∃ pages', pages.mapPageAt who (page * PAGESIZE) = some (page * PAGESIZE, pages') ∧
      MapsOne pages pages' who page ∧ pages'.Wf := by
  have hsome : ∃ res, pages.mapPageAt who (page * PAGESIZE) = some res := by
    unfold mapPageAt
    dsimp only
    rw [pageAt_mul low, if_neg (not_le.2 low)]
    obtain ⟨pages₁, hdir⟩ := newDir_of_none frames (page / 2 ^ 18)
    have hframes₁ := (newDir_same hdir).1.frames frames
    obtain ⟨pages₂, htable⟩ := newTable_of_none hframes₁ (page / 512)
    have hframes₂ := (newTable_same htable).1.frames hframes₁
    rw [hdir]
    dsimp only
    rw [htable]
    dsimp only
    rw [takeFrame_of_none hframes₂]
    split_ifs
    · exact ⟨_, rfl⟩
    · exact ⟨_, rfl⟩
  obtain ⟨⟨vaddr, pages'⟩, h⟩ := hsome
  obtain ⟨wf', ⟨-, hsame, hframes, -⟩ | ⟨rfl, hmaps⟩⟩ := mapPageAt_cases wf low unmapped h
  · rw [hsame.frames frames] at hframes
    cases hframes
  · exact ⟨pages', h, hmaps, wf'⟩

/-- Which pages are mapped depends on the page of the address only. -/
theorem mapPageAt_page {vaddr' : ℕ} (same : pageAt vaddr = pageAt vaddr') :
    (pages.mapPageAt who vaddr).map Prod.snd = (pages.mapPageAt who vaddr').map Prod.snd := by
  unfold mapPageAt
  dsimp only
  rw [same]
  split_ifs
  · rfl
  · cases pages.newDir (pageAt vaddr' / 2 ^ 18) with
    | none => rfl
    | some pages₁ =>
      dsimp only
      cases pages₁.newTable (pageAt vaddr' / 512) with
      | none => rfl
      | some pages₂ =>
        dsimp only
        split_ifs
        · rfl
        · cases pages₂.takeFrame with
          | none => rfl
          | some pages₃ => rfl

theorem mapPageAt_grows {r : ℕ} (wf : pages.Wf) (h : pages.mapPageAt who vaddr = some (r, pages')) :
    pages'.Wf ∧ ∀ p, pages.owner p ≠ none → pages'.owner p ≠ none := by
  have hlow : pageAt vaddr < END_OF_PAGES := by
    by_contra hlarge
    unfold mapPageAt at h
    dsimp only at h
    rw [if_pos (not_lt.1 hlarge)] at h
    cases h
  obtain ⟨⟨r', pages''⟩, hmap, heq⟩ : ∃ res, pages.mapPageAt who (pageAt vaddr * PAGESIZE) = some res ∧
      res.2 = pages' := by
    have hsame : (pages.mapPageAt who (pageAt vaddr * PAGESIZE)).map Prod.snd =
        (pages.mapPageAt who vaddr).map Prod.snd := mapPageAt_page (pageAt_mul hlow)
    rw [h] at hsame
    exact Option.map_eq_some_iff.1 hsame
  obtain rfl : pages'' = pages' := heq
  by_cases hunmapped : pages.owner (pageAt vaddr) = none
  · obtain ⟨hwf, ⟨-, hsame, -⟩ | ⟨-, hmaps⟩⟩ := mapPageAt_cases wf hlow hunmapped hmap
    · refine ⟨hwf, fun p hp => ?_⟩
      rwa [hsame.owner]
    · refine ⟨hwf, fun p hp => ?_⟩
      rw [hmaps.owner, Function.update_of_ne]
      · exact hp
      · rintro rfl
        exact hp hunmapped
  · rw [mapPageAt_mapped wf hunmapped] at hmap
    obtain ⟨-, rfl⟩ := Prod.mk.inj (Option.some.inj hmap)
    exact ⟨wf, fun _ hp => hp⟩

theorem SamePages.mapsOne {pages'' : KernelPages} (same : SamePages pages pages')
    (maps : MapsOne pages' pages'' who page) : MapsOne pages pages'' who page :=
  ⟨maps.low, same.owner ▸ maps.unmapped, same.owner ▸ maps.owner, maps.frames ∘ same.frames,
    fun d hd => maps.dirs d (same.dirs d hd)⟩

/-- The first page that is not mapped moves up when it is mapped. -/
theorem MapsOne.first_lt {page' : ℕ} (maps : MapsOne pages pages' who page)
    (first : pages.First page) (first' : pages'.First page') : page < page' := by
  have hnone := first'.unmapped
  rw [maps.owner] at hnone
  by_contra hge
  by_cases heq : page' = page
  · rw [heq, Function.update_self] at hnone
    cases hnone
  · rw [Function.update_of_ne heq] at hnone
    exact first.least page' first'.start (by omega) hnone

theorem mapPage_of_pos (pos : 0 < page) :
    pages.mapPage who (page * PAGESIZE) = pages.mapPageAt who (page * PAGESIZE) :=
  if_neg (Nat.mul_pos pos (by decide)).ne'

theorem mapPage_zero (wf : pages.Wf) (frames : pages.frames = none) (first : pages.First page)
    (dir : pages.dirs (page / 2 ^ 18) = true) :
    ∃ pages', pages.mapPage who 0 = some (page * PAGESIZE, pages') ∧
      MapsOne pages pages' who page ∧ pages'.Wf := by
  obtain ⟨pages₁, hlook⟩ := getUnmappedVAddr_of_dir wf frames first dir
  obtain ⟨q, hq, haddr, -, hsame, -, -, wf₁⟩ := getUnmappedVAddr_some wf hlook
  obtain rfl := first.unique hq
  have hstart := first.start
  have hpos : 0 < page := lt_of_lt_of_le (by decide) hstart
  obtain ⟨pages₂, hmap, hmaps, wf₂⟩ := mapPageAt_unmapped wf₁ (hsame.frames frames)
    first.low (hsame.owner ▸ first.unmapped)
  refine ⟨pages₂, ?_, hsame.mapsOne hmaps, wf₂⟩
  unfold mapPage
  rw [if_pos rfl, hlook]
  dsimp only
  rw [if_neg (Nat.mul_pos hpos (by decide)).ne', hmap]

/-! ### `unmapPage` -/

theorem pageAt_mul_of_lt (lt : page < 2 ^ 36) : pageAt (page * PAGESIZE) = page := by
  unfold pageAt
  rw [Nat.mul_div_cancel _ (by decide : 0 < PAGESIZE), Nat.mod_eq_of_lt lt]

theorem unmapPage_owner (lt : page < 2 ^ 36) (q : ℕ) :
    (pages.unmapPage (page * PAGESIZE)).owner q = if q = page then none else pages.owner q := by
  unfold unmapPage
  rw [pageAt_mul_of_lt lt]
  by_cases hq : q = page
  · rw [hq, if_pos rfl]
    split_ifs with h
    · exact h
    · exact Function.update_self _ _ _
  · rw [if_neg hq]
    split_ifs with h
    · rfl
    · exact Function.update_of_ne hq _ _

theorem unmapPage_tables (pages : KernelPages) (vaddr : ℕ) : (pages.unmapPage vaddr).tables = pages.tables ∧
    (pages.unmapPage vaddr).dirs = pages.dirs ∧
    (pages.frames = none → (pages.unmapPage vaddr).frames = none) := by
  unfold unmapPage
  split_ifs
  · exact ⟨rfl, rfl, id⟩
  · exact ⟨rfl, rfl, fun h => by rw [h]; rfl⟩

/-- Some pages fewer are mapped. -/
structure UnmapsPages (pages pages' : KernelPages) (base n : ℕ) : Prop where
  owner : ∀ q, pages'.owner q = if base ≤ q ∧ q < base + n then none else pages.owner q
  tables : pages'.tables = pages.tables
  dirs : pages'.dirs = pages.dirs
  frames : pages.frames = none → pages'.frames = none

theorem UnmapsPages.wf {base n : ℕ} (unmaps : UnmapsPages pages pages' base n) (wf : pages.Wf) :
    pages'.Wf := by
  have hmapped : ∀ q, pages'.owner q ≠ none → pages.owner q ≠ none := by
    intro q h hnone
    rw [unmaps.owner, hnone, ite_self] at h
    exact h rfl
  exact ⟨fun q h => wf.low q (hmapped q h), fun q h => unmaps.tables ▸ wf.table q (hmapped q h),
    fun t h => unmaps.dirs ▸ wf.dir t (unmaps.tables ▸ h)⟩

theorem foldl_unmapPage {base n addr : ℕ} (place : addr = base * PAGESIZE)
    (le : base + n ≤ 2 ^ 36) (pages : KernelPages) :
    UnmapsPages pages ((List.range n).foldl (fun pages i => pages.unmapPage (addr + PAGESIZE * i))
      pages) base n := by
  induction n with
  | zero => exact ⟨fun q => (if_neg (by omega)).symm, rfl, rfl, id⟩
  | succ n ih =>
    obtain ⟨howner, htables, hdirs, hframes⟩ := ih (by omega)
    rw [List.range_succ, List.foldl_append]
    generalize (List.range n).foldl (fun pages i => pages.unmapPage (addr + PAGESIZE * i)) pages =
      pages₁ at *
    show UnmapsPages pages (pages₁.unmapPage (addr + PAGESIZE * n)) base (n + 1)
    rw [show addr + PAGESIZE * n = (base + n) * PAGESIZE by rw [place]; ring]
    obtain ⟨htables', hdirs', hframes'⟩ := unmapPage_tables pages₁ ((base + n) * PAGESIZE)
    refine ⟨fun q => ?_, htables'.trans htables, hdirs'.trans hdirs, hframes' ∘ hframes⟩
    rw [unmapPage_owner (by omega), howner]
    by_cases hq : q = base + n
    · rw [if_pos hq, if_pos (by omega)]
    · rw [if_neg hq]
      exact if_congr (by omega) rfl rfl

/-! ### The pages at the start -/

/-- The kernel's pages when the heap starts: the boot code and the page bitmap have the pages below
`b`, in the one page table that there is. -/
def bootPages (b : ℕ) : KernelPages where
  owner page := if page < b then some .boot else none
  tables table := table = 0
  dirs dir := dir = 0
  frames := none

/-- Pages in the one page table that there is. -/
theorem wf_of_oneTable (table : ∀ table, pages.tables table = true ↔ table = 0)
    (dir : pages.dirs 0 = true) (mapped : ∀ page, pages.owner page ≠ none → page < 512) : pages.Wf where
  low page h := (mapped page h).trans (by decide)
  table page h := (table _).2 (Nat.div_eq_of_lt (mapped page h))
  dir t h := by
    rw [(table t).1 h]
    exact dir

theorem bootPages_wf {b : ℕ} (le : b ≤ 512) : (bootPages b).Wf := by
  refine wf_of_oneTable (fun _ => decide_eq_true_iff) rfl fun page h => ?_
  by_contra hge
  exact h (if_neg (by omega))

theorem bootPages_first {b : ℕ} (start : FREE_PAGES_START / PAGESIZE ≤ b) (le : b ≤ 512) :
    (bootPages b).First b := by
  refine ⟨start, ?_, if_neg (lt_irrefl b), fun q _ hlt => ?_⟩
  · unfold END_OF_PAGES
    omega
  · show (if q < b then some Owner.boot else none) ≠ none
    rw [if_pos hlt]
    exact Option.some_ne_none _

theorem bootPages_dir {b : ℕ} (le : b ≤ 512) : (bootPages b).dirs (b / 2 ^ 18) = true :=
  decide_eq_true (by omega)

theorem bootPages_new (b q : ℕ) : (bootPages b).owner q ≠ some .heap := by
  show (if q < b then some Owner.boot else none) ≠ some .heap
  split_ifs <;> nofun

theorem bootPages_clear {b p q : ℕ} (first : (bootPages b).First p) (le : p ≤ q) :
    (bootPages b).owner q = none := by
  have hnone : (if p < b then some Owner.boot else none) = none := first.unmapped
  show (if q < b then some Owner.boot else none) = none
  split_ifs at hnone with hlt
  exact if_neg (by omega)

end Specs

end KernelPages
