import SepplesOS.Mm.PageBoot

/-!
# The search for a free page

The bitmap of physical pages after `Paging::init` and any marks: each page is in the state of its
last mark.  `getFreePhysPage` scans whole bytes, `maxPhysPages / 8` of them, and reports "none" with
the address of page `0`; so it finds the lowest free page exactly if that is not page `0` and does
not lie in a last byte that is only partly in use.
-/

/-- A call of `markPhysPageUsed` or `markPhysPageFree`, by page number or by address. -/
inductive Mark
  | usedPage (page : ℕ)
  | freePage (page : ℕ)
  | usedAddr (paddr : ℕ)
  | freeAddr (paddr : ℕ)

namespace Mark

/-- The page that a call is about, and the state it asks for. -/
def page : Mark → ℕ
  | usedPage page | freePage page => page
  | usedAddr paddr | freeAddr paddr => paddr / PAGESIZE

def used : Mark → Bool
  | usedPage _ | usedAddr _ => true
  | freePage _ | freeAddr _ => false

end Mark

/-- The reference: every page is in the state of the last call about it. -/
def usedAfter (start : ℕ → Bool) (marks : List Mark) : ℕ → Bool :=
  marks.foldl (fun used mark => Function.update used mark.page mark.used) start

namespace Paging

/-- One call. -/
def mark (m : Paging) : Mark → Paging
  | .usedPage page => m.markPhysPageUsed page
  | .freePage page => m.markPhysPageFree page
  | .usedAddr paddr => m.markPhysPageUsedAddr paddr
  | .freeAddr paddr => m.markPhysPageFreeAddr paddr

/-- Successive calls. -/
def marks (m : Paging) (marks : List Mark) : Paging := marks.foldl mark m

/-- The state of the pages after `init`: all up to the end of the bitmap are used. -/
def reserved (availableMem page : ℕ) : Bool :=
  page < FREE_PAGES_START / PAGESIZE + bitmapPages (unitsOf availableMem PAGESIZE)

/-- `page` is the lowest free page below `max`. -/
def LowestFree (used : ℕ → Bool) (max page : ℕ) : Prop :=
  page < max ∧ used page = false ∧ ∀ q < page, used q = true

section Marks

variable {m : Paging}

theorem used_mark (c : Mark) (q : ℕ) : (m.mark c).Used q ↔
    if q = c.page ∧ c.page < m.maxPhysPages then c.used = true else m.Used q := by
  have hset := fun p => used_markPhysPageUsed (m := m) p q
  have hclear := fun p => used_markPhysPageFree (m := m) p q
  cases c with
  | usedPage page =>
    rw [mark, hset]
    by_cases h : q = page ∧ page < m.maxPhysPages <;> simp [Mark.page, Mark.used, h]
  | freePage page =>
    rw [mark, hclear]
    by_cases h : q = page ∧ page < m.maxPhysPages <;> simp [Mark.page, Mark.used, h]
  | usedAddr paddr =>
    rw [mark, markPhysPageUsedAddr, hset]
    by_cases h : q = paddr / PAGESIZE ∧ paddr / PAGESIZE < m.maxPhysPages <;>
      simp [Mark.page, Mark.used, h]
  | freeAddr paddr =>
    rw [mark, markPhysPageFreeAddr, hclear]
    by_cases h : q = paddr / PAGESIZE ∧ paddr / PAGESIZE < m.maxPhysPages <;>
      simp [Mark.page, Mark.used, h]

@[simp] theorem mark_max (c : Mark) : (m.mark c).maxPhysPages = m.maxPhysPages := by
  cases c <;> simp [mark, markPhysPageUsedAddr, markPhysPageFreeAddr]

theorem mark_of_le {c : Mark} (h : m.maxPhysPages ≤ c.page) : m.mark c = m := by
  cases c with
  | usedPage page => exact if_pos h
  | freePage page => exact if_pos h
  | usedAddr paddr => exact if_pos h
  | freeAddr paddr => exact if_pos h

@[simp] theorem marks_max (cs : List Mark) : (m.marks cs).maxPhysPages = m.maxPhysPages := by
  unfold marks
  induction cs generalizing m with
  | nil => rfl
  | cons c cs ih => rw [List.foldl_cons, ih, mark_max]

/-- Every page that exists is in the state of its last mark. -/
theorem used_marks {start : ℕ → Bool} (h : ∀ q < m.maxPhysPages, m.Used q ↔ start q = true)
    (cs : List Mark) : ∀ q < m.maxPhysPages, (m.marks cs).Used q ↔ usedAfter start cs q = true := by
  unfold marks usedAfter
  induction cs generalizing m start with
  | nil => exact h
  | cons c cs ih =>
    intro q hq
    rw [List.foldl_cons, List.foldl_cons]
    apply ih
    · intro q' hq'
      rw [mark_max] at hq'
      rw [used_mark]
      by_cases hpage : q' = c.page
      · rw [if_pos ⟨hpage, hpage ▸ hq'⟩, hpage, Function.update_self]
      · rw [if_neg fun h' => hpage h'.1, Function.update_of_ne hpage]
        exact h q' hq'
    · rw [mark_max]
      exact hq

theorem used_init (mem : ℕ → ℕ) (bitmap : ℕ → BitVec 8) (availableMem : ℕ) :
    ∀ q < (init mem bitmap availableMem).maxPhysPages,
      (init mem bitmap availableMem).Used q ↔ reserved availableMem q = true := by
  intro q hq
  have hlow := init_low mem bitmap availableMem q
  unfold reservedPages at hlow
  rw [init_max] at hlow hq
  unfold reserved
  rw [decide_eq_true_eq]
  refine ⟨fun hused => ?_, fun h => hlow h hq⟩
  unfold init at hused
  dsimp only at hused
  rw [(foldl_markPhysPageUsed _ _).2.2, (foldl_markPhysPageUsed _ _).2.2] at hused
  rcases hused with (hzero | ⟨i, hi, rfl, -⟩) | ⟨i, hi, rfl, -⟩
  · have hbyte : q / 8 < unitsOf (unitsOf availableMem PAGESIZE) 8 := by
      generalize unitsOf availableMem PAGESIZE = max at hq
      unfold unitsOf
      split_ifs <;> omega
    unfold Used at hzero
    dsimp only at hzero
    rw [if_pos hbyte] at hzero
    simp at hzero
  · omega
  · omega

end Marks

/-! ## The scan -/

section Scan

variable {m : Paging}

theorem bit_used {b : BitVec 8} {k : ℕ} (h : b &&& 1#8 <<< k ≠ 0#8) :
    b.getLsbD k = true := by
  by_contra hfalse
  apply h
  apply BitVec.eq_of_getLsbD_eq
  intro j hj
  rw [BitVec.getLsbD_and, BitVec.getLsbD_shiftLeft, BitVec.getLsbD_one, BitVec.getLsbD_zero]
  by_cases hjk : j = k
  · simp [hjk, Bool.eq_false_of_not_eq_true hfalse]
  · simp only [Bool.and_eq_false_iff]
    right
    simp
    omega

theorem freeBit_least (b : BitVec 8) (n bit j : ℕ) (room : bit + n ≤ 8) (from_le : bit ≤ j)
    (before : j < (freeBit b n bit).getD (bit + n)) : b.getLsbD j = true := by
  induction n generalizing bit with
  | zero =>
    rw [freeBit, Option.getD_none] at before
    omega
  | succ n ih =>
    rw [freeBit] at before
    by_cases hzero : b &&& 1#8 <<< bit = 0#8
    · rw [if_pos hzero, Option.getD_some] at before
      omega
    · rw [if_neg hzero] at before
      rcases from_le.eq_or_lt with rfl | hlt
      · exact bit_used hzero
      · exact ih (bit + 1) (by omega) hlt (by rwa [Nat.add_right_comm, Nat.add_assoc])

theorem freePage_least (n byte q : ℕ) (from_le : 8 * byte ≤ q)
    (before : q < (m.freePage n byte).getD (8 * (byte + n))) : m.Used q := by
  induction n generalizing byte with
  | zero =>
    rw [freePage, Option.getD_none] at before
    omega
  | succ n ih =>
    have hnext : 8 * (byte + 1) ≤ q →
        q < (m.freePage n (byte + 1)).getD (8 * (byte + (n + 1))) → m.Used q := fun hle hlt =>
      ih (byte + 1) hle (by rwa [Nat.add_right_comm, Nat.add_assoc])
    have hbyte : q / 8 = byte ∨ 8 * (byte + 1) ≤ q := by omega
    rw [freePage] at before
    by_cases hfull : m.physPageBitmap byte = 0xFF#8
    · rw [if_pos hfull] at before
      rcases hbyte with rfl | hle
      · unfold Used
        have hlt : q % 8 < 8 := Nat.mod_lt _ (by decide)
        rw [hfull]
        interval_cases q % 8 <;> rfl
      · exact hnext hle before
    · rw [if_neg hfull] at before
      have hbits := freeBit_least (m.physPageBitmap byte) 8 0 (q % 8) le_rfl (Nat.zero_le _)
      cases hbit : freeBit (m.physPageBitmap byte) 8 0 with
      | none =>
        rw [hbit] at before hbits
        rcases hbyte with rfl | hle
        · exact hbits (Nat.mod_lt _ (by decide))
        · exact hnext hle before
      | some bit =>
        rw [hbit] at before hbits
        dsimp only [Option.getD_some] at before hbits
        have hlt := (freeBit_spec _ _ _ _ hbit).1
        obtain rfl : q / 8 = byte := by omega
        exact hbits (by omega)

/-- Everything `getFreePhysPage` can do: return the lowest free page of the whole bytes, or none when
all of these are used. -/
theorem getFreePhysPage_cases (m : Paging) :
    (∃ page, m.getFreePhysPage = page * PAGESIZE ∧ page < 8 * (m.maxPhysPages / 8) ∧
      ¬m.Used page ∧ ∀ q < page, m.Used q) ∨
    (m.getFreePhysPage = 0 ∧ ∀ q < 8 * (m.maxPhysPages / 8), m.Used q) := by
  have hleast := fun q => m.freePage_least (m.maxPhysPages / 8) 0 q (Nat.zero_le q)
  unfold getFreePhysPage
  cases h : m.freePage (m.maxPhysPages / 8) 0 with
  | none =>
    rw [h, Option.getD_none, Nat.zero_add] at hleast
    exact Or.inr ⟨rfl, hleast⟩
  | some page =>
    obtain ⟨hlt, hfree⟩ := freePage_spec _ _ _ h
    rw [h, Option.getD_some] at hleast
    exact Or.inl ⟨page, rfl, by omega, hfree, hleast⟩

end Scan

/-! ## What the search promises -/

section Search

/-- `getFreePhysPage` returns the address of the lowest free page, and `0` exactly when there is
none. -/
def FindsLowest (m : Paging) (used : ℕ → Bool) : Prop :=
  (∀ page, LowestFree used m.maxPhysPages page → m.getFreePhysPage = page * PAGESIZE) ∧
    (m.getFreePhysPage = 0 ↔ ∀ page < m.maxPhysPages, used page = true)

/-- A mark changes at most its own page, and none if that page does not exist. -/
def MarksOnePage (m : Paging) : Prop :=
  ∀ c : Mark, (m.maxPhysPages ≤ c.page → m.mark c = m) ∧
    ∀ q, q ≠ c.page → ((m.mark c).Used q ↔ m.Used q)

/-- The lowest free page is not page `0` and lies in a byte of the bitmap that is scanned. -/
def Scanned (used : ℕ → Bool) (max : ℕ) : Prop :=
  ∀ page, LowestFree used max page → 1 ≤ page ∧ page < 8 * (max / 8)

variable {m : Paging} {used : ℕ → Bool}

theorem marksOnePage (m : Paging) : MarksOnePage m := by
  refine fun c => ⟨mark_of_le, fun q hne => ?_⟩
  rw [used_mark, if_neg fun h => hne h.1]

theorem exists_lowestFree {max page : ℕ} (lt : page < max) (free : used page = false) :
    ∃ page, LowestFree used max page := by
  have hex : ∃ p, used p = false := ⟨page, free⟩
  refine ⟨Nat.find hex, (Nat.find_min' hex free).trans_lt lt, Nat.find_spec hex, fun q hq => ?_⟩
  have hused := Nat.find_min hex hq
  simpa using hused

theorem LowestFree.unique {max p q : ℕ} (hp : LowestFree used max p) (hq : LowestFree used max q) :
    p = q := by
  have hpage : ∀ {a b}, LowestFree used max a → LowestFree used max b → ¬a < b := by
    intro a b ha hb hlt
    have hused := hb.2.2 a hlt
    rw [ha.2.1] at hused
    cases hused
  have h₁ := hpage hp hq
  have h₂ := hpage hq hp
  omega

theorem findsLowest_iff (h : ∀ q < m.maxPhysPages, m.Used q ↔ used q = true) :
    FindsLowest m used ↔ Scanned used m.maxPhysPages := by
  have hpagesize : PAGESIZE = 4096 := rfl
  have hlowest : ∀ page, page < 8 * (m.maxPhysPages / 8) → ¬m.Used page → (∀ q < page, m.Used q) →
      LowestFree used m.maxPhysPages page := by
    intro page hlt hfree hbefore
    refine ⟨by omega, ?_, fun q hq => (h q (by omega)).1 (hbefore q hq)⟩
    rw [h page (by omega)] at hfree
    simpa using hfree
  constructor
  · rintro ⟨hfinds, hnone⟩ page hpage
    have hresult := hfinds page hpage
    have hone : 1 ≤ page := by
      by_contra hzero
      obtain rfl : page = 0 := by omega
      rw [Nat.zero_mul] at hresult
      have hused := hnone.1 hresult 0 hpage.1
      rw [hpage.2.1] at hused
      cases hused
    refine ⟨hone, ?_⟩
    rcases m.getFreePhysPage_cases with ⟨found, hfound, hlt, hfree, hbefore⟩ | ⟨hzero, -⟩
    · exact hpage.unique (hlowest found hlt hfree hbefore) ▸ hlt
    · rw [hresult, hpagesize] at hzero
      omega
  · intro hscanned
    have hfinds : ∀ page, LowestFree used m.maxPhysPages page →
        m.getFreePhysPage = page * PAGESIZE := by
      intro page hpage
      rcases m.getFreePhysPage_cases with ⟨found, hfound, hlt, hfree, hbefore⟩ | ⟨-, hall⟩
      · rw [hfound, hpage.unique (hlowest found hlt hfree hbefore)]
      · have hused := (h page hpage.1).1 (hall page (hscanned page hpage).2)
        rw [hpage.2.1] at hused
        cases hused
    refine ⟨hfinds, fun hzero page hlt => ?_, fun hall => ?_⟩
    · by_contra hfree
      obtain ⟨lowest, hpage⟩ := exists_lowestFree hlt (Bool.eq_false_of_not_eq_true hfree)
      have hresult := hfinds lowest hpage
      have hone := (hscanned lowest hpage).1
      rw [hzero, hpagesize] at hresult
      omega
    · rcases m.getFreePhysPage_cases with ⟨found, -, hlt, hfree, -⟩ | ⟨hzero, -⟩
      · exact absurd ((h found (by omega)).2 (hall found (by omega))) hfree
      · exact hzero

theorem findsLowest_marks_iff (mem : ℕ → ℕ) (bitmap : ℕ → BitVec 8) (availableMem : ℕ)
    (cs : List Mark) :
    FindsLowest ((init mem bitmap availableMem).marks cs) (usedAfter (reserved availableMem) cs) ↔
      Scanned (usedAfter (reserved availableMem) cs) (unitsOf availableMem PAGESIZE) := by
  have hused := used_marks (used_init mem bitmap availableMem) cs
  rw [← marks_max (m := init mem bitmap availableMem) cs] at hused
  have hfinds := findsLowest_iff hused
  rwa [marks_max, init_max] at hfinds

/-- After `init` and any marks, the search finds the lowest free page exactly if that is not page `0`
and does not lie in a last byte of the bitmap that is only partly in use; every mark changes its own
page only. -/
theorem getFreePhysPage_marks_iff (mem : ℕ → ℕ) (bitmap : ℕ → BitVec 8) (availableMem : ℕ)
    (cs : List Mark) :
    (FindsLowest ((init mem bitmap availableMem).marks cs)
        (usedAfter (reserved availableMem) cs) ∧
      MarksOnePage ((init mem bitmap availableMem).marks cs)) ↔
      Scanned (usedAfter (reserved availableMem) cs) (unitsOf availableMem PAGESIZE) :=
  (and_iff_left (marksOnePage _)).trans (findsLowest_marks_iff mem bitmap availableMem cs)

/-- With `258` pages the last free one is not found. -/
theorem not_findsLowest : ¬∀ (mem : ℕ → ℕ) (bitmap : ℕ → BitVec 8) (availableMem : ℕ)
    (cs : List Mark),
    FindsLowest ((init mem bitmap availableMem).marks cs) (usedAfter (reserved availableMem) cs) ∧
      MarksOnePage ((init mem bitmap availableMem).marks cs) := by
  intro hall
  have hmax : unitsOf 0x102000 PAGESIZE = 258 := rfl
  have hscanned := (findsLowest_marks_iff (fun _ => 0) (fun _ => 0#8) 0x102000 []).1
    (hall (fun _ => 0) (fun _ => 0#8) 0x102000 []).1
  rw [hmax] at hscanned
  have hlast : LowestFree (reserved 0x102000) 258 257 := by
    refine ⟨by decide, by decide, fun q hq => ?_⟩
    unfold reserved
    rw [hmax, decide_eq_true_eq]
    exact hq
  exact absurd (hscanned 257 hlast).2 (by decide)

end Search

end Paging
