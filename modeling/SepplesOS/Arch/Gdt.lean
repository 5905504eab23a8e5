import SepplesOS.Lib.Bytes
import SepplesOS.Mm.Memmap

/-!
# Segment descriptors

`writeDescriptor` (`kernel/arch/gdt.asm`) packs the base, the limit and the flags of a segment into
the eight bytes of a descriptor, instruction by instruction.  Bits 31 to 24 of the base are rotated
out of the word that is stored last, so a descriptor holds the low 24 bits of its base only.
-/

/-- `GDT_ADDR`. -/
def GDT_ADDR : ℕ := 0x5000

/-- `RING0_STACK_LIM`. -/
def RING0_STACK_LIM : ℕ := 0x6000

namespace Gdt

/-! ## The code -/

/-- The low 16 bits of `r` become those of `v`: `mov ax, di`. -/
def movLow16 (r v : BitVec 64) : BitVec 64 := r.extractLsb' 16 48 ++ v.extractLsb' 0 16

/-- The low 8 bits of `v` are or-ed into those of `r`: `or sil, dil`. -/
def orLow8 (r v : BitVec 64) : BitVec 64 :=
  r.extractLsb' 8 56 ++ (r.extractLsb' 0 8 ||| v.extractLsb' 0 8)

/-- The address `rcx*8+disp`. -/
def scaledAddr (rcx : BitVec 64) (disp : ℕ) : ℕ := (rcx * 8#64 + BitVec.ofNat 64 disp).toNat

/-- `writeDescriptor`. -/
def writeDescriptor (rdi rsi rdx rcx : BitVec 64) (mem : Buf) : Buf :=
  -- bytes 0-3
  let rax := rdi
  let rax := rax >>> 16
  let rax := movLow16 rax rdi
  let mem := mem.putLeNat (scaledAddr rcx GDT_ADDR) 4 (rax.setWidth 32).toNat
  -- bytes 4-5
  let rdi := rdi.rotateLeft 16
  let rsi := rsi <<< 8
  let rsi := orLow8 rsi rdi
  let mem := mem.putLeNat (scaledAddr rcx (GDT_ADDR + 4)) 2 (rsi.setWidth 16).toNat
  -- bytes 6-7
  let rdx := rdx <<< 20
  let rdx := movLow16 rdx rdi
  let rdi := rdi >>> 32
  let rdx := rdx.rotateRight 16
  let rdx := orLow8 rdx rdi
  mem.putLeNat (scaledAddr rcx (GDT_ADDR + 6)) 2 (rdx.setWidth 16).toNat

/-- The first argument: the base in the 32 highest bits, the limit in the 20 lowest ones. -/
def baseLimite (base : BitVec 32) (limit : BitVec 20) : BitVec 64 :=
  base.setWidth 64 <<< 32 ||| limit.setWidth 64

/-! ## The layout -/

/-- What a segment descriptor says. -/
@[ext] structure Segment where
  base : BitVec 32
  limit : BitVec 20
  access : BitVec 8
  flags : BitVec 4
deriving DecidableEq

/-- The eight bytes at `GDT_ADDR + 8 * index`. -/
def descriptor (mem : Buf) (index : BitVec 64) : BitVec 64 :=
  BitVec.ofNat 64 (mem.leNat (scaledAddr index GDT_ADDR) 8)

/-- A descriptor by the documented layout. -/
def decode (d : BitVec 64) : Segment where
  base := d.extractLsb' 56 8 ++ d.extractLsb' 32 8 ++ d.extractLsb' 16 16
  limit := d.extractLsb' 48 4 ++ d.extractLsb' 0 16
  access := d.extractLsb' 40 8
  flags := d.extractLsb' 52 4

/-! ## Bits of the registers -/

section Bits

variable (r v : BitVec 64)

theorem getLsbD_movLow16 (i : ℕ) :
    (movLow16 r v).getLsbD i = if i < 16 then v.getLsbD i else r.getLsbD i := by
  unfold movLow16
  rw [BitVec.getLsbD_append, BitVec.getLsbD_extractLsb', BitVec.getLsbD_extractLsb']
  by_cases h : i < 16
  · simp [h]
  · simp only [h, if_false, show 16 + (i - 16) = i by omega]
    by_cases hlt : i < 64
    · simp [show i - 16 < 48 by omega]
    · simp [show ¬i - 16 < 48 by omega, BitVec.getLsbD_of_ge r i (by omega)]

theorem getLsbD_orLow8 (i : ℕ) :
    (orLow8 r v).getLsbD i = (r.getLsbD i || decide (i < 8) && v.getLsbD i) := by
  unfold orLow8
  rw [BitVec.getLsbD_append, BitVec.getLsbD_or, BitVec.getLsbD_extractLsb',
    BitVec.getLsbD_extractLsb', BitVec.getLsbD_extractLsb']
  by_cases h : i < 8
  · simp [h]
  · simp only [h, if_false, show 8 + (i - 8) = i by omega]
    by_cases hlt : i < 64
    · simp [show i - 8 < 56 by omega]
    · simp [show ¬i - 8 < 56 by omega, BitVec.getLsbD_of_ge r i (by omega)]

variable (base : BitVec 32) (limit : BitVec 20)

theorem getLsbD_baseLimite (i : ℕ) :
    (baseLimite base limit).getLsbD i = if i < 32 then limit.getLsbD i else base.getLsbD (i - 32) := by
  unfold baseLimite
  rw [BitVec.getLsbD_or, BitVec.getLsbD_shiftLeft, BitVec.getLsbD_setWidth, BitVec.getLsbD_setWidth]
  by_cases h : i < 32
  · simp [h, show i < 64 by omega]
  · by_cases hlt : i < 64
    · simp [h, hlt, show i - 32 < 64 by omega, BitVec.getLsbD_of_ge limit i (by omega)]
    · simp [h, hlt, BitVec.getLsbD_of_ge base (i - 32) (by omega)]

end Bits

/-! ## The words that are stored -/

section Words

variable (rdi rsi rdx rcx : BitVec 64)

/-- Bytes 0-3, 4-5 and 6-7. -/
def word0 : BitVec 32 := (movLow16 (rdi >>> 16) rdi).setWidth 32
def word4 : BitVec 16 := (orLow8 (rsi <<< 8) (rdi.rotateLeft 16)).setWidth 16
def word6 : BitVec 16 :=
  (orLow8 ((movLow16 (rdx <<< 20) (rdi.rotateLeft 16)).rotateRight 16)
    (rdi.rotateLeft 16 >>> 32)).setWidth 16

theorem writeDescriptor_eq (mem : Buf) : writeDescriptor rdi rsi rdx rcx mem =
    ((mem.putLeNat (scaledAddr rcx GDT_ADDR) 4 (word0 rdi).toNat).putLeNat
      (scaledAddr rcx (GDT_ADDR + 4)) 2 (word4 rdi rsi).toNat).putLeNat
        (scaledAddr rcx (GDT_ADDR + 6)) 2 (word6 rdi rdx).toNat := rfl

variable (base : BitVec 32) (limit : BitVec 20) (access : BitVec 8) (flags : BitVec 4)

theorem getLsbD_word0 {i : ℕ} (lt : i < 32) : (word0 (baseLimite base limit)).getLsbD i =
    if i < 16 then limit.getLsbD i else base.getLsbD (i - 16) := by
  unfold word0
  rw [BitVec.getLsbD_setWidth, getLsbD_movLow16, BitVec.getLsbD_ushiftRight, getLsbD_baseLimite,
    getLsbD_baseLimite]
  by_cases h : i < 16
  · simp [h, lt]
  · simp only [h, lt, decide_true, Bool.true_and, if_false, show ¬16 + i < 32 by omega,
      show 16 + i - 32 = i - 16 by omega]

/-- The rotated first argument: bits 31 to 16 of the base lie at the bottom. -/
theorem getLsbD_rotated {i : ℕ} (lt : i < 64) :
    ((baseLimite base limit).rotateLeft 16).getLsbD i =
      if i < 16 then base.getLsbD (i + 16) else (baseLimite base limit).getLsbD (i - 16) := by
  rw [BitVec.getLsbD_rotateLeft]
  by_cases h : i < 16
  · simp only [h, Nat.reduceMod, if_true, getLsbD_baseLimite]
    simp [show ¬64 - 16 + i < 32 by omega, show 64 - 16 + i - 32 = i + 16 by omega]
  · simp [h, lt]

theorem getLsbD_word4 {i : ℕ} (lt : i < 16) :
    (word4 (baseLimite base limit) (access.setWidth 64)).getLsbD i =
      if i < 8 then base.getLsbD (i + 16) else access.getLsbD (i - 8) := by
  unfold word4
  rw [BitVec.getLsbD_setWidth, getLsbD_orLow8, BitVec.getLsbD_shiftLeft, BitVec.getLsbD_setWidth,
    getLsbD_rotated base limit (by omega)]
  by_cases h : i < 8
  · simp [h, lt]
  · simp [h, lt, show i < 64 by omega, show i - 8 < 64 by omega]

/-- Bits 31 to 24 of the base are not among the bits of the last word. -/
theorem getLsbD_word6 {i : ℕ} (lt : i < 16) :
    (word6 (baseLimite base limit) (flags.setWidth 64)).getLsbD i =
      if i < 4 then limit.getLsbD (i + 16) else flags.getLsbD (i - 4) := by
  have hlimit : ((baseLimite base limit).rotateLeft 16 >>> 32).getLsbD i = limit.getLsbD (i + 16) := by
    rw [BitVec.getLsbD_ushiftRight, getLsbD_rotated base limit (by omega), getLsbD_baseLimite,
      if_neg (by omega), if_pos (by omega), show 32 + i - 16 = i + 16 by omega]
  have hflags : ((movLow16 (flags.setWidth 64 <<< 20)
      ((baseLimite base limit).rotateLeft 16)).rotateRight 16).getLsbD i =
      (!decide (i < 4) && flags.getLsbD (i - 4)) := by
    rw [BitVec.getLsbD_rotateRight, show decide (i < 64 - 16 % 64) = true from decide_eq_true (by omega),
      cond_true, getLsbD_movLow16, if_neg (by omega), BitVec.getLsbD_shiftLeft, BitVec.getLsbD_setWidth]
    by_cases h : i < 4
    · simp [h, show 16 + i < 20 by omega]
    · simp [h, show ¬16 + i < 20 by omega, show 16 + i < 64 by omega, show 16 + i - 20 = i - 4 by omega,
        show i - 4 < 64 by omega]
  unfold word6
  rw [BitVec.getLsbD_setWidth, getLsbD_orLow8, hlimit, hflags]
  by_cases h : i < 4
  · simp [h, lt, show i < 8 by omega]
  · simp [h, lt, BitVec.getLsbD_of_ge limit (i + 16) (by omega)]

theorem getLsbD_words {i : ℕ} (lt : i < 64) : (word6 (baseLimite base limit) (flags.setWidth 64) ++
      word4 (baseLimite base limit) (access.setWidth 64) ++ word0 (baseLimite base limit)).getLsbD i =
    if i < 16 then limit.getLsbD i
    else if i < 40 then base.getLsbD (i - 16)
    else if i < 48 then access.getLsbD (i - 40)
    else if i < 52 then limit.getLsbD (i - 32)
    else flags.getLsbD (i - 52) := by
  rw [BitVec.getLsbD_append, BitVec.getLsbD_append]
  rcases (by omega : i < 32 ∨ 32 ≤ i ∧ i < 48 ∨ 48 ≤ i) with h | h | h
  · rw [if_pos h, getLsbD_word0 base limit h]
    simp [show i < 40 by omega]
  · rw [if_neg (by omega), if_pos (by omega), getLsbD_word4 base limit access (by omega)]
    simp (disch := omega) only [if_neg, h.2, if_true]
    exact if_congr (by omega) (congrArg _ (by omega)) (congrArg _ (by omega))
  · rw [if_neg (by omega), if_neg (by omega), getLsbD_word6 base limit flags (by omega)]
    simp (disch := omega) only [if_neg]
    exact if_congr (by omega) (congrArg _ (by omega)) (congrArg _ (by omega))

theorem decode_words : decode (word6 (baseLimite base limit) (flags.setWidth 64) ++
      word4 (baseLimite base limit) (access.setWidth 64) ++ word0 (baseLimite base limit)) =
    ⟨(base.extractLsb' 0 24).setWidth 32, limit, access, flags⟩ := by
  have hbits := fun i => @getLsbD_words base limit access flags i
  generalize word6 (baseLimite base limit) (flags.setWidth 64) ++
      word4 (baseLimite base limit) (access.setWidth 64) ++ word0 (baseLimite base limit) = d at hbits
  unfold decode
  refine Segment.ext ?_ ?_ ?_ ?_ <;> apply BitVec.eq_of_getLsbD_eq <;> intro i hi
  · simp only [BitVec.getLsbD_append, BitVec.getLsbD_extractLsb', BitVec.getLsbD_setWidth]
    rcases (by omega : i < 16 ∨ 16 ≤ i ∧ i < 24 ∨ 24 ≤ i) with h | h | h
    · rw [if_pos h, hbits _ (by omega)]
      simp (disch := omega) only [if_neg, if_pos, decide_eq_true, Bool.true_and]
      exact congrArg _ (by omega)
    · rw [if_neg (by omega), if_pos (by omega), hbits _ (by omega)]
      simp (disch := omega) only [if_neg, if_pos, decide_eq_true, Bool.true_and]
      exact congrArg _ (by omega)
    · rw [if_neg (by omega), if_neg (by omega), hbits _ (by omega)]
      simp (disch := omega) only [if_neg, decide_eq_true, Bool.true_and, BitVec.getLsbD_of_ge flags]
      simp [show ¬i < 24 by omega]
  · simp only [BitVec.getLsbD_append, BitVec.getLsbD_extractLsb']
    by_cases h : i < 16
    · rw [if_pos h, hbits _ (by omega), Nat.zero_add, if_pos h]
      simp [h]
    · rw [if_neg h, hbits _ (by omega)]
      simp (disch := omega) only [if_neg, if_pos, decide_eq_true, Bool.true_and]
      exact congrArg _ (by omega)
  · rw [BitVec.getLsbD_extractLsb', hbits _ (by omega)]
    simp (disch := omega) only [if_neg, if_pos, decide_eq_true, Bool.true_and]
    exact congrArg _ (by omega)
  · rw [BitVec.getLsbD_extractLsb', hbits _ (by omega)]
    simp (disch := omega) only [if_neg, decide_eq_true, Bool.true_and]
    exact congrArg _ (by omega)

end Words

/-! ## The descriptor in memory -/

section Memory

variable (base : BitVec 32) (limit : BitVec 20) (access : BitVec 8) (flags : BitVec 4)
  (index : BitVec 64) (mem : Buf)

/-- A descriptor does not wrap around the end of memory. -/
theorem scaledAddr_add {k : ℕ} (lt : k < 8) :
    scaledAddr index (GDT_ADDR + k) = scaledAddr index GDT_ADDR + k := by
  unfold scaledAddr GDT_ADDR
  simp only [BitVec.toNat_add, BitVec.toNat_mul, BitVec.toNat_ofNat]
  omega

theorem scaledAddr_aligned : scaledAddr index GDT_ADDR % 8 = 0 := by
  unfold scaledAddr GDT_ADDR
  simp only [BitVec.toNat_add, BitVec.toNat_mul, BitVec.toNat_ofNat]
  omega

theorem scaledAddr_inj {i j : BitVec 64} (h : scaledAddr i GDT_ADDR = scaledAddr j GDT_ADDR) :
    i * 8#64 = j * 8#64 :=
  (BitVec.add_left_inj _).1 (BitVec.eq_of_toNat_eq h)

theorem leNat_putLeNat_of_apart {mem : Buf} {a b m n w : ℕ} (apart : a + m ≤ b ∨ b + n ≤ a) :
    (mem.putLeNat b n w).leNat a m = mem.leNat a m := by
  apply Buf.leNat_congr
  intro i hi
  exact Buf.putLeNat_of_not (by omega)

theorem leNat_words (a : ℕ) (w₀ : BitVec 32) (w₄ w₆ : BitVec 16) :
    BitVec.ofNat 64 ((((mem.putLeNat a 4 w₀.toNat).putLeNat (a + 4) 2 w₄.toNat).putLeNat
      (a + 6) 2 w₆.toNat).leNat a 8) = w₆ ++ w₄ ++ w₀ := by
  have h₀ := w₀.isLt
  have h₄ := w₄.isLt
  have h₆ := w₆.isLt
  apply BitVec.eq_of_toNat_eq
  rw [show 8 = 4 + (2 + 2) from rfl, Buf.leNat_add, Buf.leNat_add,
    leNat_putLeNat_of_apart (by omega), leNat_putLeNat_of_apart (by omega), Buf.leNat_putLeNat,
    leNat_putLeNat_of_apart (by omega), Buf.leNat_putLeNat, Nat.add_assoc a 4 2, Buf.leNat_putLeNat]
  rw [BitVec.toNat_append, BitVec.toNat_append, ← Nat.shiftLeft_add_eq_or_of_lt h₄,
    ← Nat.shiftLeft_add_eq_or_of_lt h₀, BitVec.toNat_ofNat]
  simp only [Nat.shiftLeft_eq]
  omega

theorem descriptor_writeDescriptor : decode (descriptor (writeDescriptor (baseLimite base limit)
      (access.setWidth 64) (flags.setWidth 64) index mem) index) =
    ⟨(base.extractLsb' 0 24).setWidth 32, limit, access, flags⟩ := by
  rw [descriptor, writeDescriptor_eq, scaledAddr_add index (by decide : 4 < 8),
    scaledAddr_add index (by decide : 6 < 8), leNat_words]
  exact decode_words base limit access flags

variable (rdi rsi rdx : BitVec 64)

theorem writeDescriptor_of_not {a : ℕ}
    (outside : ¬(scaledAddr index GDT_ADDR ≤ a ∧ a < scaledAddr index GDT_ADDR + 8)) :
    writeDescriptor rdi rsi rdx index mem a = mem a := by
  rw [writeDescriptor_eq, scaledAddr_add index (by decide : 4 < 8),
    scaledAddr_add index (by decide : 6 < 8), Buf.putLeNat_of_not (by omega),
    Buf.putLeNat_of_not (by omega), Buf.putLeNat_of_not (by omega)]

theorem descriptor_of_ne {j : BitVec 64} (ne : j * 8#64 ≠ index * 8#64) :
    descriptor (writeDescriptor rdi rsi rdx index mem) j = descriptor mem j := by
  have hj := scaledAddr_aligned j
  have hindex := scaledAddr_aligned index
  have hne : scaledAddr j GDT_ADDR ≠ scaledAddr index GDT_ADDR := fun h => ne (scaledAddr_inj h)
  unfold descriptor
  refine congrArg _ (Buf.leNat_congr fun i hi => ?_)
  exact writeDescriptor_of_not index mem rdi rsi rdx (by omega)

/-- The descriptor says what the arguments say, and nothing else is written: no other byte, so no
other descriptor. -/
structure Encodes (mem' : Buf) : Prop where
  decoded : decode (descriptor mem' index) = ⟨base, limit, access, flags⟩
  bytes : ∀ a, ¬(scaledAddr index GDT_ADDR ≤ a ∧ a < scaledAddr index GDT_ADDR + 8) → mem' a = mem a
  others : ∀ j, j * 8#64 ≠ index * 8#64 → descriptor mem' j = descriptor mem j

/-- `writeDescriptor` encodes exactly the segments that begin below 16 megabytes. -/
theorem writeDescriptor_encodes_iff : Encodes base limit access flags index mem
      (writeDescriptor (baseLimite base limit) (access.setWidth 64) (flags.setWidth 64) index mem) ↔
    base.toNat < 2 ^ 24 := by
  have hbase : (base.extractLsb' 0 24).setWidth 32 = base ↔ base.toNat < 2 ^ 24 := by
    rw [← BitVec.toNat_inj, BitVec.toNat_setWidth, BitVec.extractLsb'_toNat, Nat.shiftRight_zero]
    omega
  rw [← hbase]
  constructor
  · intro h
    have hdecoded := descriptor_writeDescriptor base limit access flags index mem
    rw [h.decoded] at hdecoded
    exact (congrArg Segment.base hdecoded).symm
  · intro h
    refine ⟨?_, fun a => writeDescriptor_of_not index mem _ _ _, fun j => descriptor_of_ne index mem _ _ _⟩
    rw [descriptor_writeDescriptor, h]

/-- A segment at 16 megabytes. -/
theorem not_writeDescriptor_encodes : ¬∀ (base : BitVec 32) (limit : BitVec 20) (access : BitVec 8)
    (flags : BitVec 4) (index : BitVec 64) (mem : Buf), Encodes base limit access flags index mem
      (writeDescriptor (baseLimite base limit) (access.setWidth 64) (flags.setWidth 64) index mem) := by
  intro hall
  have hdecoded := (hall 0x1000000#32 0x67#20 0b11101001#8 0#4 10#64 fun _ => 0).decoded
  rw [descriptor_writeDescriptor] at hdecoded
  exact absurd (congrArg Segment.base hdecoded) (by decide)

end Memory

/-! ## The task state segment -/

/-- The descriptors that `TSS::init` writes. -/
def tssDescriptors (defaultTss : BitVec 64) (mem : Buf) : Buf :=
  let mem := writeDescriptor (defaultTss <<< 32 ||| 0x67#64) 0b11101001#64 0b0#64 10#64 mem
  let mem := writeDescriptor 0#64 0#64 0#64 11#64 mem
  writeDescriptor (BitVec.ofNat 64 (RING0_STACK_LIM / 4096)) 0b10010111#64 0b1101#64 12#64 mem

section Tss

variable (mem : Buf)

theorem baseLimite_tss (defaultTss : BitVec 64) :
    defaultTss <<< 32 ||| 0x67#64 = baseLimite (defaultTss.setWidth 32) 0x67#20 := by
  apply BitVec.eq_of_getLsbD_eq
  intro i hi
  rw [getLsbD_baseLimite, BitVec.getLsbD_or, BitVec.getLsbD_shiftLeft, BitVec.getLsbD_setWidth]
  have hlimit : (0x67#64).getLsbD i = (0x67#20).getLsbD i := by
    rw [show 0x67#64 = (0x67#20).setWidth 64 from rfl, BitVec.getLsbD_setWidth]
    simp [hi]
  rw [hlimit]
  by_cases h : i < 32
  · simp [h]
  · rw [BitVec.getLsbD_of_ge 0x67#20 i (by omega)]
    simp [h, hi, show i - 32 < 32 by omega]

/-- A default TSS below 16 megabytes gets its descriptor, and the descriptors before it stay. -/
theorem tssDescriptors_spec {defaultTss : BitVec 64} (low : defaultTss.toNat < 2 ^ 24) :
    decode (descriptor (tssDescriptors defaultTss mem) 10#64) =
        ⟨defaultTss.setWidth 32, 0x67#20, 0b11101001#8, 0#4⟩ ∧
      decode (descriptor (tssDescriptors defaultTss mem) 12#64) =
        ⟨0#32, BitVec.ofNat 20 (RING0_STACK_LIM / 4096), 0b10010111#8, 0b1101#4⟩ ∧
      ∀ j, j.toNat < 10 → descriptor (tssDescriptors defaultTss mem) j = descriptor mem j := by
  unfold tssDescriptors
  dsimp only
  refine ⟨?_, ?_, fun j hj => ?_⟩
  · have hbase : ((defaultTss.setWidth 32).extractLsb' 0 24).setWidth 32 = defaultTss.setWidth 32 := by
      apply BitVec.eq_of_toNat_eq
      simp only [BitVec.toNat_setWidth, BitVec.extractLsb'_toNat, Nat.shiftRight_zero]
      omega
    have haccess : 0b11101001#64 = (0b11101001#8).setWidth 64 := by decide
    have hflags : 0b0#64 = (0#4).setWidth 64 := by decide
    rw [descriptor_of_ne _ _ _ _ _ (by decide), descriptor_of_ne _ _ _ _ _ (by decide), baseLimite_tss,
      haccess, hflags, descriptor_writeDescriptor, hbase]
  · have hlimit : BitVec.ofNat 64 (RING0_STACK_LIM / 4096) =
        baseLimite 0#32 (BitVec.ofNat 20 (RING0_STACK_LIM / 4096)) := by decide
    have haccess : 0b10010111#64 = (0b10010111#8).setWidth 64 := by decide
    have hflags : 0b1101#64 = (0b1101#4).setWidth 64 := by decide
    rw [hlimit, haccess, hflags, descriptor_writeDescriptor]
    rfl
  · have hne : ∀ k, 10 ≤ k → k < 2 ^ 61 → j * 8#64 ≠ BitVec.ofNat 64 k * 8#64 := by
      intro k hk hlt heq
      have htoNat := congrArg BitVec.toNat heq
      simp only [BitVec.toNat_mul, BitVec.toNat_ofNat] at htoNat
      omega
    rw [descriptor_of_ne _ _ _ _ _ (hne 12 (by decide) (by decide)),
      descriptor_of_ne _ _ _ _ _ (hne 11 (by decide) (by decide)),
      descriptor_of_ne _ _ _ _ _ (hne 10 (by decide) (by decide))]

end Tss

end Gdt
