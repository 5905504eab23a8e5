import SepplesOS.Mm.PageBoot

/-!
# The memory that the boot loader reports

`getAvailableMem` (`kernel/multiboot.cpp`), and the counts of `Paging::init` in the machine's types.  The
sum and the product are those of 32 bits: where they wrap, the bitmap is too small.
-/

/-- The fields of `struct multiboot_info` that `getAvailableMem` reads. -/
structure MemoryInfo where
  flags : UInt32
  low_mem : UInt32
  high_mem : UInt32

/-- `getAvailableMem`. -/
def getAvailableMem (mbi : MemoryInfo) : UInt64 :=
  if mbi.flags &&& 0b00000001 = 0 then 0 else ((mbi.low_mem + mbi.high_mem) * 1000).toUInt64

namespace MemoryInfo

/-- What the boot loader reports, in bytes. -/
def bytes (mbi : MemoryInfo) : ℕ := (mbi.low_mem.toNat + mbi.high_mem.toNat) * 1000

theorem getAvailableMem_eq {mbi : MemoryInfo} (flag : mbi.flags &&& 0b00000001 ≠ 0) :
    (getAvailableMem mbi).toNat = mbi.bytes % 2 ^ 32 := by
  unfold getAvailableMem bytes
  rw [if_neg flag, UInt32.toNat_toUInt64, UInt32.toNat_mul, UInt32.toNat_add]
  exact Nat.mod_mul_mod _ _ _

end MemoryInfo

namespace Paging

/-- `x / y + (bool) (x % y)` for `unsigned`. -/
def unitsWord (x y : ℕ) : ℕ := (x / y + if x % y = 0 then 0 else 1) % 2 ^ 32

/-- `init`, with its counts in the types that they have.  The memory is a `long`. -/
def initWord (mem : ℕ → ℕ) (bitmap : ℕ → BitVec 8) (availableMem : ℤ) : Paging :=
  let maxPhysPages := ((availableMem.tdiv PAGESIZE +
    if availableMem.tmod PAGESIZE = 0 then 0 else 1) % 2 ^ 32).toNat
  let physPageBitmapSize := unitsWord maxPhysPages 8
  let physPageBitmapPagesize := unitsWord physPageBitmapSize PAGESIZE
  let m : Paging := ⟨mem, bitmap, maxPhysPages⟩
  let m := (List.range physPageBitmapPagesize).foldl (fun m i =>
    m.phywrite (PT0_ADDR + (FREE_PAGES_START / PAGESIZE + i) * 8)
      ((FREE_PAGES_START + i * PAGESIZE % 2 ^ 32) ||| 0b11)) m
  -- `memzero`
  let m := { m with physPageBitmap := fun b => if b < physPageBitmapSize then 0#8 else m.physPageBitmap b }
  let m := (List.range physPageBitmapPagesize).foldl (fun m i =>
    m.markPhysPageUsed ((FREE_PAGES_START / PAGESIZE + i) % 2 ^ 32)) m
  (List.range (FREE_PAGES_START / PAGESIZE)).foldl (fun m i => m.markPhysPageUsed i) m

section Init

variable {mem : ℕ → ℕ} {bitmap : ℕ → BitVec 8} {availableMem : ℕ}

theorem unitsWord_eq {x y : ℕ} (small : x < 2 ^ 32) (two : 2 ≤ y) : unitsWord x y = unitsOf x y := by
  have hdiv : x / y ≤ x / 2 := Nat.div_le_div_left two (by decide)
  unfold unitsWord unitsOf
  refine Nat.mod_eq_of_lt ?_
  split_ifs <;> omega

theorem unitsOf_eq (n : ℕ) {size : ℕ} (pos : 0 < size) : unitsOf n size = (n + size - 1) / size := by
  have hn := Nat.div_add_mod n size
  have hlt := Nat.mod_lt n pos
  unfold unitsOf
  split_ifs with hmod
  · rw [show n + size - 1 = size * (n / size) + (size - 1) by omega, Nat.mul_add_div pos,
      Nat.div_eq_of_lt (show size - 1 < size by omega)]
  · rw [show n + size - 1 = size * (n / size + 1) + (n % size - 1) by rw [Nat.mul_add]; omega,
      Nat.mul_add_div pos, Nat.div_eq_of_lt (show n % size - 1 < size by omega), Nat.add_zero]

theorem initWord_eq (small : availableMem < 2 ^ 32) :
    initWord mem bitmap availableMem = init mem bitmap availableMem := by
  have hmax : (((availableMem : ℤ).tdiv PAGESIZE +
      if (availableMem : ℤ).tmod PAGESIZE = 0 then 0 else 1) % 2 ^ 32).toNat =
      unitsOf availableMem PAGESIZE := by
    have hpos := Int.natCast_nonneg availableMem
    rw [Int.tdiv_eq_ediv_of_nonneg hpos, Int.tmod_eq_emod_of_nonneg hpos]
    unfold unitsOf PAGESIZE
    split_ifs <;> omega
  have hpages : unitsOf availableMem PAGESIZE ≤ 2 ^ 20 := by
    rw [unitsOf_eq _ (by decide)]
    unfold PAGESIZE
    omega
  have hsize : unitsWord (unitsOf availableMem PAGESIZE) 8 = unitsOf (unitsOf availableMem PAGESIZE) 8 :=
    unitsWord_eq (by omega) (by decide)
  have hbytes : unitsOf (unitsOf availableMem PAGESIZE) 8 ≤ 2 ^ 17 := by
    rw [unitsOf_eq _ (by decide)]
    omega
  have hown : bitmapPages (unitsOf availableMem PAGESIZE) ≤ 32 := by
    unfold bitmapPages
    rw [unitsOf_eq _ (by decide)]
    unfold PAGESIZE at hbytes ⊢
    omega
  have hpagesize : unitsWord (unitsOf (unitsOf availableMem PAGESIZE) 8) PAGESIZE =
      bitmapPages (unitsOf availableMem PAGESIZE) := unitsWord_eq (by omega) (by decide)
  have hentries : ∀ m : Paging, (List.range (bitmapPages (unitsOf availableMem PAGESIZE))).foldl (fun m i =>
      m.phywrite (PT0_ADDR + (FREE_PAGES_START / PAGESIZE + i) * 8)
        ((FREE_PAGES_START + i * PAGESIZE % 2 ^ 32) ||| 0b11)) m =
      (List.range (bitmapPages (unitsOf availableMem PAGESIZE))).foldl (fun m i =>
      m.phywrite (PT0_ADDR + (FREE_PAGES_START / PAGESIZE + i) * 8)
        ((FREE_PAGES_START + i * PAGESIZE) ||| 0b11)) m := by
    intro m
    refine List.foldl_ext _ _ _ fun m i hi => ?_
    rw [Nat.mod_eq_of_lt]
    have h := List.mem_range.1 hi
    unfold PAGESIZE
    omega
  have hmark : ∀ m : Paging, (List.range (bitmapPages (unitsOf availableMem PAGESIZE))).foldl
      (fun m i => m.markPhysPageUsed ((FREE_PAGES_START / PAGESIZE + i) % 2 ^ 32)) m =
      (List.range (bitmapPages (unitsOf availableMem PAGESIZE))).foldl
      (fun m i => m.markPhysPageUsed (FREE_PAGES_START / PAGESIZE + i)) m := by
    intro m
    refine List.foldl_ext _ _ _ fun m i hi => ?_
    rw [Nat.mod_eq_of_lt]
    have h := List.mem_range.1 hi
    unfold FREE_PAGES_START PAGESIZE
    omega
  unfold initWord init
  dsimp only
  rw [hmax, hsize, hpagesize, hmark, hentries]

/-- The bits of the bitmap after `init`: those of the pages below it and of its own pages are set, the
others cleared, and what lies behind the bitmap has not changed. -/
theorem init_used (page : ℕ) : (init mem bitmap availableMem).Used page ↔
    if page / 8 < unitsOf (unitsOf availableMem PAGESIZE) 8 then
      page < unitsOf availableMem PAGESIZE ∧
        page < FREE_PAGES_START / PAGESIZE + bitmapPages (unitsOf availableMem PAGESIZE)
    else (bitmap (page / 8)).getLsbD (page % 8) = true := by
  unfold init
  dsimp only
  rw [(foldl_markPhysPageUsed _ _).2.2, (foldl_markPhysPageUsed _ _).2.2, (foldl_markPhysPageUsed _ _).2.1]
  unfold Used
  dsimp only
  rw [(foldl_phywrite_bitmap _ _ _).1, (foldl_phywrite_bitmap _ _ _).2]
  dsimp only
  have hinside : page < unitsOf availableMem PAGESIZE →
      page / 8 < unitsOf (unitsOf availableMem PAGESIZE) 8 := by
    rw [unitsOf_eq (unitsOf availableMem PAGESIZE) (show 0 < 8 by decide)]
    omega
  have hmarked : ((∃ i < bitmapPages (unitsOf availableMem PAGESIZE),
        page = FREE_PAGES_START / PAGESIZE + i ∧
        FREE_PAGES_START / PAGESIZE + i < unitsOf availableMem PAGESIZE) ∨
      ∃ i < FREE_PAGES_START / PAGESIZE, page = i ∧ i < unitsOf availableMem PAGESIZE) ↔
      page < unitsOf availableMem PAGESIZE ∧
        page < FREE_PAGES_START / PAGESIZE + bitmapPages (unitsOf availableMem PAGESIZE) := by
    constructor
    · rintro (⟨i, hi, rfl, hmax⟩ | ⟨i, hi, rfl, hmax⟩)
      · exact ⟨hmax, by omega⟩
      · exact ⟨hmax, by omega⟩
    · rintro ⟨hmax, hlt⟩
      by_cases hlow : page < FREE_PAGES_START / PAGESIZE
      · exact Or.inr ⟨page, hlow, rfl, hmax⟩
      · exact Or.inl ⟨page - FREE_PAGES_START / PAGESIZE, by omega, by omega, by omega⟩
  rw [or_assoc, hmarked]
  split_ifs with hbyte
  · simp
  · rw [or_iff_left]
    exact fun h => hbyte (hinside h.1)

end Init

/-- The page holds bytes of a bitmap of `size` bytes. -/
def HoldsBitmap (size page : ℕ) : Prop := ∃ b < size, (FREE_PAGES_START + b) / PAGESIZE = page

/-- What `init` makes of `bytes` bytes of memory: their pages are counted, the last one whole; of the
bitmap, with one bit for each page, the bits of the pages below it and of its own pages are set and the
others cleared; no other byte changes. -/
structure Sized (bytes : ℕ) (bitmap : ℕ → BitVec 8) (m : Paging) : Prop where
  pages : m.maxPhysPages = (bytes + PAGESIZE - 1) / PAGESIZE
  used : ∀ page, page / 8 < (m.maxPhysPages + 7) / 8 → (m.Used page ↔ page < m.maxPhysPages ∧
    (page < FREE_PAGES_START / PAGESIZE ∨ HoldsBitmap ((m.maxPhysPages + 7) / 8) page))
  rest : ∀ b, (m.maxPhysPages + 7) / 8 ≤ b → m.physPageBitmap b = bitmap b

theorem holdsBitmap_iff {size page : ℕ} : HoldsBitmap size page ↔
    FREE_PAGES_START / PAGESIZE ≤ page ∧ page < FREE_PAGES_START / PAGESIZE + unitsOf size PAGESIZE := by
  rw [unitsOf_eq _ (by decide)]
  unfold HoldsBitmap FREE_PAGES_START PAGESIZE
  constructor
  · rintro ⟨b, hb, rfl⟩
    omega
  · rintro ⟨hlow, hhigh⟩
    exact ⟨(page - 256) * 4096, by omega, by omega⟩

theorem init_sized (mem : ℕ → ℕ) (bitmap : ℕ → BitVec 8) (availableMem : ℕ) :
    Sized availableMem bitmap (init mem bitmap availableMem) := by
  have hmax := init_max mem bitmap availableMem
  have hsize : (unitsOf availableMem PAGESIZE + 7) / 8 = unitsOf (unitsOf availableMem PAGESIZE) 8 :=
    (unitsOf_eq _ (show 0 < 8 by decide)).symm
  constructor
  case pages => rw [hmax, unitsOf_eq _ (by decide)]
  case used =>
    intro page hbyte
    rw [hmax, hsize] at *
    rw [init_used, if_pos hbyte, holdsBitmap_iff]
    refine and_congr_right fun _ => ?_
    unfold bitmapPages
    omega
  case rest =>
    intro b hb
    rw [hmax, hsize] at hb
    apply BitVec.eq_of_getLsbD_eq
    intro j hj
    have hused := @init_used mem bitmap availableMem (8 * b + j)
    rw [show (8 * b + j) / 8 = b by omega, if_neg (by omega)] at hused
    unfold Used at hused
    rw [show (8 * b + j) / 8 = b by omega, show (8 * b + j) % 8 = j by omega] at hused
    exact Bool.eq_iff_iff.2 hused

/-- The count of the memory is exact, and the bitmap that of all of it, if and only if the memory has less
than `2 ^ 32` bytes. -/
theorem availableMem_exact_iff (mbi : MemoryInfo) (flag : mbi.flags &&& 0b00000001 ≠ 0) :
    ((getAvailableMem mbi).toNat = mbi.bytes ∧ ∀ mem bitmap,
      Sized mbi.bytes bitmap (initWord mem bitmap (getAvailableMem mbi).toBitVec.toInt)) ↔
    mbi.bytes < 2 ^ 32 := by
  have hvalue := MemoryInfo.getAvailableMem_eq flag
  constructor
  · rintro ⟨hexact, -⟩
    rw [← hexact, hvalue]
    exact Nat.mod_lt _ (by decide)
  · intro hsmall
    rw [Nat.mod_eq_of_lt hsmall] at hvalue
    have hlong : (getAvailableMem mbi).toBitVec.toInt = (mbi.bytes : ℤ) := by
      rw [BitVec.toInt_eq_toNat_of_lt]
      · exact congrArg _ hvalue
      · show 2 * (getAvailableMem mbi).toNat < 2 ^ 64
        omega
    refine ⟨hvalue, fun mem bitmap => ?_⟩
    rw [hlong, initWord_eq hsmall]
    exact init_sized mem bitmap mbi.bytes

/-- 640 KiB of low memory and 64 MiB of high memory. -/
theorem availableMem_exact_small : (getAvailableMem ⟨1, 640, 65536⟩).toNat = 66176000 ∧
    ∀ mem bitmap, Sized 66176000 bitmap
      (initWord mem bitmap (getAvailableMem ⟨1, 640, 65536⟩).toBitVec.toInt) :=
  (availableMem_exact_iff ⟨1, 640, 65536⟩ (by decide)).2 (by decide)

/-- A little more than 4 GB of high memory are counted as 704 bytes. -/
theorem availableMem_wraps : (⟨1, 0, 4294968⟩ : MemoryInfo).bytes = 4294968000 ∧
    (getAvailableMem ⟨1, 0, 4294968⟩).toNat = 704 := by
  decide

end Paging
