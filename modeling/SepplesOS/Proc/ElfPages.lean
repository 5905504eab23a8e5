import SepplesOS.Proc.ElfLoad

/-!
# The pages under a segment

Before it copies a segment, `Elf::loadElf` maps the pages of its bytes, unless they are mapped.  The loop
starts at the address with its 11 low bits cleared, which is the middle of a page for an address in the
upper half of one, and goes on in steps of a page: `mapPages_covers_iff` says when it still gets to the
last page.
-/

namespace Elf

/-- The values of `ptr` in the loop that maps pages, up to `limit`. -/
def mapPtrs (limit ptr : ℕ) : List ℕ :=
  if ptr < limit then ptr :: mapPtrs limit (ptr + PAGESIZE) else []
termination_by limit - ptr
decreasing_by
  unfold PAGESIZE
  omega

/-- `if (!Paging::getPAddr(ptr)) Paging::mapPage(ptr, …)`, on the set of the mapped pages. -/
def mapIfMissing (mapped : Finset ℕ) (ptr : ℕ) : Finset ℕ :=
  if ptr / PAGESIZE ∈ mapped then mapped else insert (ptr / PAGESIZE) mapped

/-- `v_begin&~0x7FFUL`. -/
def Segment.firstPtr (p : Segment) : ℕ := (p.p_vaddr.toUInt64 &&& ~~~0x7FF).toNat

/-- The loop that maps the pages for the data of a segment. -/
def Segment.mapPages (p : Segment) (mapped : Finset ℕ) : Finset ℕ :=
  (mapPtrs (p.v_begin + p.p_filesz.toNat) p.firstPtr).foldl mapIfMissing mapped

section Pages

variable {p : Segment} {limit ptr : ℕ} {mapped : Finset ℕ}

theorem mem_mapPtrs {a : ℕ} :
    a ∈ mapPtrs limit ptr ↔ ∃ i, a = ptr + PAGESIZE * i ∧ a < limit := by
  fun_induction mapPtrs limit ptr with
  | case1 ptr hlt ih =>
    rw [List.mem_cons, ih]
    constructor
    · rintro (rfl | ⟨i, rfl, hi⟩)
      · exact ⟨0, rfl, hlt⟩
      · exact ⟨i + 1, by rw [Nat.mul_succ]; omega, hi⟩
    · rintro ⟨i, rfl, hi⟩
      cases i with
      | zero => exact Or.inl rfl
      | succ i => exact Or.inr ⟨i, by rw [Nat.mul_succ]; omega, hi⟩
  | case2 ptr hge =>
    simp only [List.not_mem_nil, false_iff, not_exists, not_and]
    intro i _ _
    omega

/-- A page is mapped after the loop when it was before, or when the loop has been there. -/
theorem mem_foldl_mapIfMissing (ptrs : List ℕ) (mapped : Finset ℕ) (page : ℕ) :
    page ∈ ptrs.foldl mapIfMissing mapped ↔ page ∈ mapped ∨ ∃ ptr ∈ ptrs, ptr / PAGESIZE = page := by
  induction ptrs generalizing mapped with
  | nil => simp
  | cons ptr ptrs ih =>
    have hstep : page ∈ mapIfMissing mapped ptr ↔ page ∈ mapped ∨ ptr / PAGESIZE = page := by
      unfold mapIfMissing
      split_ifs with hin
      · constructor
        · exact Or.inl
        · rintro (h | rfl)
          · exact h
          · exact hin
      · rw [Finset.mem_insert, or_comm, eq_comm]
    rw [List.foldl_cons, ih, hstep, List.exists_mem_cons_iff, or_assoc]

/-- The mask clears the 11 low bits. -/
theorem Segment.firstPtr_eq (p : Segment) : p.firstPtr = p.v_begin - p.v_begin % 2048 := by
  have hlt := p.p_vaddr.toNat_lt
  have hmask : (~~~0x7FF : UInt64).toNat = 2 ^ 11 * (2 ^ 53 - 1) := by decide
  have hfloor : p.p_vaddr.toNat - p.p_vaddr.toNat % 2048 = 2 ^ 11 * (p.p_vaddr.toNat / 2 ^ 11) := by
    omega
  unfold Segment.firstPtr Phdr.v_begin
  rw [UInt64.toNat_and, UInt32.toNat_toUInt64, hmask, hfloor]
  generalize p.p_vaddr.toNat = v at hlt
  refine Nat.eq_of_testBit_eq fun i => ?_
  rw [Nat.testBit_and, Nat.testBit_two_pow_mul, Nat.testBit_two_pow_mul, Nat.testBit_two_pow_sub_one,
    Nat.testBit_div_two_pow]
  by_cases hi : 11 ≤ i
  · rw [Nat.sub_add_cancel hi]
    by_cases hhigh : i < 32
    · simp [hi, show i - 11 < 53 by omega]
    · have hbit : v.testBit i = false :=
        Nat.testBit_lt_two_pow (hlt.trans_le (Nat.pow_le_pow_right (by decide) (by omega)))
      simp [hbit]
  · simp [hi]

end Pages

/-- Whatever is mapped before, every page with a byte of the segment's data is mapped by the loop or found
mapped, if and only if there is no data, or it begins in the lower half of a page, or it ends in the page
in which it begins or in the upper half of one. -/
theorem mapPages_covers_iff (p : Segment) :
    (∀ (mapped : Finset ℕ) (a : ℕ), p.v_begin ≤ a → a < p.v_begin + p.p_filesz.toNat →
        a / PAGESIZE ∈ p.mapPages mapped) ↔
      p.p_filesz = 0 ∨ p.v_begin % PAGESIZE < 2048 ∨
        (p.v_begin + p.p_filesz.toNat - 1) / PAGESIZE = p.v_begin / PAGESIZE ∨
        2048 ≤ (p.v_begin + p.p_filesz.toNat - 1) % PAGESIZE := by
  have hcovers : (∀ (mapped : Finset ℕ) (a : ℕ), p.v_begin ≤ a → a < p.v_begin + p.p_filesz.toNat →
      a / PAGESIZE ∈ p.mapPages mapped) ↔
      ∀ a, p.v_begin ≤ a → a < p.v_begin + p.p_filesz.toNat →
        ∃ i, (p.v_begin - p.v_begin % 2048 + PAGESIZE * i) / PAGESIZE = a / PAGESIZE ∧
          p.v_begin - p.v_begin % 2048 + PAGESIZE * i < p.v_begin + p.p_filesz.toNat := by
    have hmem : ∀ (mapped : Finset ℕ) (page : ℕ), page ∈ p.mapPages mapped ↔ page ∈ mapped ∨
        ∃ i, (p.v_begin - p.v_begin % 2048 + PAGESIZE * i) / PAGESIZE = page ∧
          p.v_begin - p.v_begin % 2048 + PAGESIZE * i < p.v_begin + p.p_filesz.toNat := by
      intro mapped page
      rw [Segment.mapPages, mem_foldl_mapIfMissing, p.firstPtr_eq]
      refine or_congr_right ⟨?_, ?_⟩
      · rintro ⟨ptr, hptr, rfl⟩
        obtain ⟨i, rfl, hi⟩ := mem_mapPtrs.1 hptr
        exact ⟨i, rfl, hi⟩
      · rintro ⟨i, rfl, hi⟩
        exact ⟨_, mem_mapPtrs.2 ⟨i, rfl, hi⟩, rfl⟩
    constructor
    · intro hall a ha ha'
      exact ((hmem ∅ _).1 (hall ∅ a ha ha')).resolve_left (Finset.notMem_empty _)
    · intro hall mapped a ha ha'
      exact (hmem mapped _).2 (Or.inr (hall a ha ha'))
  have hzero : p.p_filesz = 0 ↔ p.p_filesz.toNat = 0 :=
    ⟨fun h => by rw [h]; rfl, fun h => UInt32.toNat_inj.1 h⟩
  rw [hcovers, hzero]
  generalize p.v_begin = v
  generalize p.p_filesz.toNat = filesz
  unfold PAGESIZE
  constructor
  · intro hall
    by_contra hno
    obtain ⟨i, hpage, hlt⟩ := hall (v + filesz - 1) (by omega) (by omega)
    omega
  · intro hcond a ha ha'
    refine ⟨a / 4096 - v / 4096, ?_, ?_⟩
    · omega
    · omega

/-- A segment from the middle of a page on, of which the last 256 bytes are in the next page. -/
def halfSegment : Segment := ⟨⟨PT_LOAD, 0x40000800, 0x900, PF_X + PF_R⟩, 0, 0x900⟩

/-- The page of these is left out. -/
theorem halfSegment_not_covered :
    ¬ ∀ p : Segment, p.p_type = PT_LOAD → USER_OFFSET ≤ p.v_begin →
      p.v_begin + p.p_filesz.toNat ≤ USER_STACK → 0 < p.p_filesz.toNat →
      ∀ (mapped : Finset ℕ) (a : ℕ), p.v_begin ≤ a → a < p.v_begin + p.p_filesz.toNat →
        a / PAGESIZE ∈ p.mapPages mapped := by
  intro hall
  have hpage := hall halfSegment rfl (by decide) (by decide) (by decide) ∅ 0x40001000 (by decide)
    (by decide)
  have hptrs : mapPtrs (halfSegment.v_begin + halfSegment.p_filesz.toNat) halfSegment.firstPtr =
      [0x40000800] := by
    have hlimit : halfSegment.v_begin + halfSegment.p_filesz.toNat = 0x40001100 := by decide
    have hfirst : halfSegment.firstPtr = 0x40000800 := by decide
    rw [hlimit, hfirst, mapPtrs, mapPtrs]
    rfl
  rw [Segment.mapPages, hptrs] at hpage
  revert hpage
  decide

end Elf
