import SepplesOS.Lib.Bytes
import SepplesOS.Mm.Memmap

/-!
# Loading an executable

`Elf::loadElf` (`kernel/proc/elf.cpp`) checks the magic of a file and the range of every loadable
segment, and returns the entry point, or `0` when it rejects the file.  The copying of the segments
into user memory is left out: the model keeps what the caller sees, the entry point and the memory
zones of the process.
-/

namespace Elf

/-- `PT_LOAD`. -/
def PT_LOAD : UInt32 := 1

/-- `PF_X`, `PF_W` and `PF_R`. -/
def PF_X : UInt32 := 1
def PF_W : UInt32 := 2
def PF_R : UInt32 := 4

/-- The fields of `Elf32_Ehdr` that `loadElf` reads. -/
structure Ehdr where
  e_entry : UInt32
  e_phoff : UInt32
  e_phnum : UInt16

/-- The fields of `Elf32_Phdr` that `loadElf` reads for its checks. -/
structure Phdr where
  p_type : UInt32
  p_vaddr : UInt32
  p_memsz : UInt32
  p_flags : UInt32

/-- `sizeof(Elf32_Phdr)`. -/
def sizeofPhdr : ℕ := 32

/-- The header of the file. -/
def Ehdr.ofBuf (file : Buf) : Ehdr where
  e_entry := file.u32 24
  e_phoff := file.u32 28
  e_phnum := file.u16 44

/-- The program header at `p_entry`. -/
def Phdr.ofBuf (file : Buf) (p_entry : ℕ) : Phdr where
  p_type := file.u32 p_entry
  p_vaddr := file.u32 (p_entry + 8)
  p_memsz := file.u32 (p_entry + 20)
  p_flags := file.u32 (p_entry + 24)

/-- The zones of a process that `loadElf` sets. -/
structure Zones where
  bExec : ℕ
  eExec : ℕ
  bBss : ℕ
  eBss : ℕ
  deriving Inhabited

/-- `v_begin`. -/
def Phdr.v_begin (p : Phdr) : ℕ := p.p_vaddr.toNat

/-- `v_end`: the sum of two `u32`, which wraps. -/
def Phdr.v_end (p : Phdr) : ℕ := (p.p_vaddr + p.p_memsz).toNat

/-- The zones after a segment that passed its checks. -/
def Zones.update (zones : Zones) (p : Phdr) : Zones :=
  let zones :=
    if p.p_flags = PF_X + PF_R then { zones with bExec := p.v_begin, eExec := p.v_end } else zones
  if p.p_flags = PF_W + PF_R then { zones with bBss := p.v_begin, eBss := p.v_end } else zones

/-- `isElf`. -/
def isElf (file : Buf) : Bool :=
  file 0 == 0x7f && file 1 == 69 && file 2 == 76 && file 3 == 70

/-- The loop over the program headers, `n` of them left: whether all passed, and the zones. -/
def loadSegments (file : Buf) : ℕ → ℕ → Zones → Bool × Zones
  | 0, _, zones => (true, zones)
  | n + 1, p_entry, zones =>
    let p := Phdr.ofBuf file p_entry
    if p.p_type = PT_LOAD then
      if p.v_begin < USER_OFFSET then (false, zones)
      else if p.v_end > USER_STACK then (false, zones)
      else loadSegments file n (p_entry + sizeofPhdr) (zones.update p)
    else loadSegments file n (p_entry + sizeofPhdr) zones

/-- `loadElf`: the entry point, `0` for a rejected file, and the zones. -/
def loadElf (file : Buf) (zones : Zones) : ℕ × Zones :=
  let hdr := Ehdr.ofBuf file
  if isElf file then
    match loadSegments file hdr.e_phnum.toNat hdr.e_phoff.toNat zones with
    | (true, zones) => (hdr.e_entry.toNat, zones)
    | (false, zones) => (0, zones)
  else (0, zones)

/-! ## Which files are accepted -/

/-- A segment is not loadable or lies in user space. -/
def Phdr.InRange (p : Phdr) : Prop :=
  p.p_type = PT_LOAD → USER_OFFSET ≤ p.v_begin ∧ p.v_end ≤ USER_STACK

/-- An ELF file with a nonzero entry point whose loadable segments all lie in user space. -/
structure Accepted (file : Buf) : Prop where
  magic : isElf file = true
  segments : ∀ i < (Ehdr.ofBuf file).e_phnum.toNat,
    (Phdr.ofBuf file ((Ehdr.ofBuf file).e_phoff.toNat + sizeofPhdr * i)).InRange
  entry : (Ehdr.ofBuf file).e_entry ≠ 0

/-- The loop accepts exactly the headers in range. -/
theorem loadSegments_iff (file : Buf) (n p_entry : ℕ) (zones : Zones) :
    (loadSegments file n p_entry zones).1 = true ↔
      ∀ i < n, (Phdr.ofBuf file (p_entry + sizeofPhdr * i)).InRange := by
  induction n generalizing p_entry zones with
  | zero => simp [loadSegments]
  | succ n ih =>
    have hsplit : (∀ i < n + 1, (Phdr.ofBuf file (p_entry + sizeofPhdr * i)).InRange) ↔
        (Phdr.ofBuf file p_entry).InRange ∧
          ∀ i < n, (Phdr.ofBuf file (p_entry + sizeofPhdr + sizeofPhdr * i)).InRange := by
      constructor
      · intro h
        refine ⟨h 0 (Nat.succ_pos n), fun i hi => ?_⟩
        have := h (i + 1) (by omega)
        rwa [Nat.mul_add, Nat.mul_one, Nat.add_comm (sizeofPhdr * i), ← Nat.add_assoc] at this
      · rintro ⟨h0, h⟩ i hi
        cases i with
        | zero => exact h0
        | succ i =>
          rw [Nat.mul_add, Nat.mul_one, Nat.add_comm (sizeofPhdr * i), ← Nat.add_assoc]
          exact h i (by omega)
    rw [hsplit, loadSegments]
    split_ifs with hload hlow hhigh
    · simp only [false_iff, not_and]
      intro h
      have := (h hload).1
      omega
    · simp only [false_iff, not_and]
      intro h
      have := (h hload).2
      omega
    · rw [ih, iff_and_self]
      exact fun _ _ => ⟨not_lt.1 hlow, not_lt.1 hhigh⟩
    · rw [ih, iff_and_self]
      exact fun _ h => absurd h hload

theorem loadElf_eq_zero_iff (file : Buf) (zones : Zones) :
    (loadElf file zones).1 = 0 ↔ ¬Accepted file := by
  have hsegments := loadSegments_iff file (Ehdr.ofBuf file).e_phnum.toNat
    (Ehdr.ofBuf file).e_phoff.toNat zones
  unfold loadElf
  dsimp only
  split_ifs with hmagic
  · split
    · rename_i zones' hload
      rw [hload] at hsegments
      have hentry : (Ehdr.ofBuf file).e_entry.toNat = 0 ↔ (Ehdr.ofBuf file).e_entry = 0 :=
        ⟨fun h => UInt32.toNat_inj.1 h, fun h => by rw [h]; rfl⟩
      rw [hentry]
      exact ⟨fun h accepted => accepted.entry h,
        fun h => by_contra fun hne => h ⟨hmagic, hsegments.1 rfl, hne⟩⟩
    · rename_i zones' hload
      rw [hload] at hsegments
      simp only [true_iff]
      exact fun accepted => absurd (hsegments.2 accepted.segments) (by simp)
  · simp only [true_iff]
    exact fun accepted => hmagic accepted.magic

end Elf
