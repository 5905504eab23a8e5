import SepplesOS.Proc.ElfLoad
import SepplesOS.Lib.Block

/-!
# What `loadElf` reads

`loadElf?` is `Elf::loadElf` with every access to the file checked against its length.  The code itself
makes no such check: `loadElf?_isSome_iff` lists what has to be inside the file.  Nor does it reject a file
for being cut short, so that one may be accepted of which the unread part of a header is missing
(`loadElf?_rejects_iff`).
-/

namespace Elf

/-- `isElf` with every access checked. -/
def isElf? (file : Block) : Option Bool := do
  if (← file.u8? 0) ≠ 0x7f then return false
  if (← file.u8? 1) ≠ 69 then return false
  if (← file.u8? 2) ≠ 76 then return false
  return (← file.u8? 3) == 70

/-- `loadSegments` with every access checked, the data of the segments included. -/
def loadSegments? (file : Block) : ℕ → ℕ → Zones → Option (Bool × Zones)
  | 0, _, zones => some (true, zones)
  | n + 1, p_entry, zones => do
    let p_type ← file.u32? p_entry
    if p_type = PT_LOAD then
      let p_vaddr ← file.u32? (p_entry + 8)
      let p_memsz ← file.u32? (p_entry + 20)
      if p_vaddr.toNat < USER_OFFSET then some (false, zones)
      else if (p_vaddr + p_memsz).toNat > USER_STACK then some (false, zones)
      else
        let p_flags ← file.u32? (p_entry + 24)
        let p_filesz ← file.u32? (p_entry + 16)
        let p_offset ← file.u32? (p_entry + 4)
        let _ ← file.slice? p_offset.toNat p_filesz.toNat
        loadSegments? file n (p_entry + sizeofPhdr) (zones.update ⟨p_type, p_vaddr, p_memsz, p_flags⟩)
    else loadSegments? file n (p_entry + sizeofPhdr) zones

/-- `loadElf` with every access checked; the position of the table is read before the magic. -/
def loadElf? (file : Block) (zones : Zones) : Option (ℕ × Zones) := do
  let e_phoff ← file.u32? 28
  if ← isElf? file then
    let e_phnum ← file.u16? 44
    let (passed, zones) ← loadSegments? file e_phnum.toNat e_phoff.toNat zones
    if passed then
      let e_entry ← file.u32? 24
      return (e_entry.toNat, zones)
    else return (0, zones)
  else return (0, zones)

/-! ## What has to be inside the file -/

/-- The fields that are read of a program header are inside the file, and so is the data of a segment that
passes its checks. -/
structure PhdrInside (file : Block) (p_entry : ℕ) : Prop where
  type : p_entry + 4 ≤ file.len
  range : (Phdr.ofBuf file.bytes p_entry).p_type = PT_LOAD → p_entry + 24 ≤ file.len
  rest : (Phdr.ofBuf file.bytes p_entry).p_type = PT_LOAD → (Phdr.ofBuf file.bytes p_entry).InRange →
    p_entry + 28 ≤ file.len ∧
      ((Segment.ofBuf file.bytes p_entry).p_filesz.toNat = 0 ∨
        (Segment.ofBuf file.bytes p_entry).p_offset.toNat +
          (Segment.ofBuf file.bytes p_entry).p_filesz.toNat ≤ file.len)

section Bounds

variable {file : Block} {n p_entry : ℕ} {zones : Zones}

theorem loadSegments?_of_inside (inside : PhdrInside file p_entry) :
    loadSegments? file (n + 1) p_entry zones =
      if (Phdr.ofBuf file.bytes p_entry).p_type = PT_LOAD then
        if (Phdr.ofBuf file.bytes p_entry).v_begin < USER_OFFSET then some (false, zones)
        else if (Phdr.ofBuf file.bytes p_entry).v_end > USER_STACK then some (false, zones)
        else loadSegments? file n (p_entry + sizeofPhdr) (zones.update (Phdr.ofBuf file.bytes p_entry))
      else loadSegments? file n (p_entry + sizeofPhdr) zones := by
  rw [loadSegments?, Block.u32?_of_le inside.type]
  simp only [Option.bind_eq_bind, Option.bind_some]
  by_cases hload : file.bytes.u32 p_entry = PT_LOAD
  · have hrange := inside.range hload
    rw [if_pos hload, if_pos (show (Phdr.ofBuf file.bytes p_entry).p_type = PT_LOAD from hload),
      Block.u32?_of_le (show p_entry + 8 + 4 ≤ file.len by omega), Option.bind_some,
      Block.u32?_of_le (show p_entry + 20 + 4 ≤ file.len by omega), Option.bind_some]
    by_cases hlow : (Phdr.ofBuf file.bytes p_entry).v_begin < USER_OFFSET
    · rw [if_pos hlow, if_pos (show (file.bytes.u32 (p_entry + 8)).toNat < USER_OFFSET from hlow)]
    · rw [if_neg hlow, if_neg (show ¬(file.bytes.u32 (p_entry + 8)).toNat < USER_OFFSET from hlow)]
      by_cases hhigh : (Phdr.ofBuf file.bytes p_entry).v_end > USER_STACK
      · rw [if_pos hhigh]
        exact if_pos hhigh
      · obtain ⟨hflags, hdata⟩ := inside.rest hload fun _ => ⟨Nat.not_lt.1 hlow, Nat.not_lt.1 hhigh⟩
        have hslice : file.slice? (file.bytes.u32 (p_entry + 4)).toNat
            (file.bytes.u32 (p_entry + 16)).toNat =
              some fun k => file.bytes ((file.bytes.u32 (p_entry + 4)).toNat + k) := if_pos hdata
        rw [if_neg hhigh, if_neg (show ¬(file.bytes.u32 (p_entry + 8) +
            file.bytes.u32 (p_entry + 20)).toNat > USER_STACK from hhigh),
          Block.u32?_of_le (show p_entry + 24 + 4 ≤ file.len by omega), Option.bind_some,
          Block.u32?_of_le (show p_entry + 16 + 4 ≤ file.len by omega), Option.bind_some,
          Block.u32?_of_le (show p_entry + 4 + 4 ≤ file.len by omega), Option.bind_some, hslice,
          Option.bind_some]
        rfl
  · rw [if_neg hload, if_neg (show ¬(Phdr.ofBuf file.bytes p_entry).p_type = PT_LOAD from hload)]

theorem phdrInside_of_some {result : Bool × Zones}
    (returns : loadSegments? file (n + 1) p_entry zones = some result) : PhdrInside file p_entry := by
  rw [loadSegments?] at returns
  simp only [Option.bind_eq_bind, Option.bind_eq_some_iff, Block.u32?_eq_some_iff] at returns
  obtain ⟨p_type, ⟨htype, rfl⟩, returns⟩ := returns
  by_cases hload : file.bytes.u32 p_entry = PT_LOAD
  · rw [if_pos hload] at returns
    simp only [Option.bind_eq_some_iff, Block.u32?_eq_some_iff] at returns
    obtain ⟨p_vaddr, ⟨-, rfl⟩, p_memsz, ⟨hmemsz, rfl⟩, returns⟩ := returns
    refine ⟨htype, fun _ => by omega, fun _ hrange => ?_⟩
    obtain ⟨hlow, hhigh⟩ := hrange hload
    rw [if_neg (show ¬(file.bytes.u32 (p_entry + 8)).toNat < USER_OFFSET from Nat.not_lt.2 hlow),
      if_neg (show ¬(file.bytes.u32 (p_entry + 8) + file.bytes.u32 (p_entry + 20)).toNat > USER_STACK from
        Nat.not_lt.2 hhigh)] at returns
    simp only [Option.bind_eq_some_iff, Block.u32?_eq_some_iff] at returns
    obtain ⟨p_flags, ⟨hflags, -⟩, p_filesz, ⟨-, rfl⟩, p_offset, ⟨-, rfl⟩, src, hdata, -⟩ := returns
    exact ⟨by omega, Block.slice?_eq_some hdata⟩
  · exact ⟨htype, fun h => absurd h hload, fun h => absurd h hload⟩

/-- The headers up to the first rejected one are inside. -/
def TableInside (file : Block) (n p_entry : ℕ) : Prop :=
  ∀ i < n, (∀ j < i, (Phdr.ofBuf file.bytes (p_entry + sizeofPhdr * j)).InRange) →
    PhdrInside file (p_entry + sizeofPhdr * i)

theorem tableInside_succ :
    TableInside file (n + 1) p_entry ↔ PhdrInside file p_entry ∧
      ((Phdr.ofBuf file.bytes p_entry).InRange → TableInside file n (p_entry + sizeofPhdr)) := by
  have hshift (k : ℕ) : p_entry + sizeofPhdr * (k + 1) = p_entry + sizeofPhdr + sizeofPhdr * k := by
    rw [Nat.mul_add, Nat.mul_one, Nat.add_comm (sizeofPhdr * k), ← Nat.add_assoc]
  constructor
  · intro table
    refine ⟨table 0 (Nat.succ_pos n) fun j hj => absurd hj (Nat.not_lt_zero j), fun hfirst i hi hbefore => ?_⟩
    rw [← hshift]
    refine table (i + 1) (Nat.succ_lt_succ hi) fun j hj => ?_
    cases j with
    | zero => exact hfirst
    | succ j =>
      rw [hshift]
      exact hbefore j (Nat.lt_of_succ_lt_succ hj)
  · rintro ⟨hfirst, hrest⟩ i hi hbefore
    cases i with
    | zero => exact hfirst
    | succ i =>
      rw [hshift]
      refine hrest (hbefore 0 (Nat.succ_pos i)) i (Nat.lt_of_succ_lt_succ hi) fun j hj => ?_
      rw [← hshift]
      exact hbefore (j + 1) (Nat.succ_lt_succ hj)

/-- The loop reads inside the file only when the headers up to the first rejected one are inside, and does
then what it does without checks. -/
theorem loadSegments?_iff (result : Bool × Zones) :
    loadSegments? file n p_entry zones = some result ↔
      TableInside file n p_entry ∧ loadSegments file.bytes n p_entry zones = result := by
  induction n generalizing p_entry zones with
  | zero =>
    have hnone : TableInside file 0 p_entry := fun i hi => absurd hi (Nat.not_lt_zero i)
    rw [loadSegments?, loadSegments, Option.some.injEq]
    exact (and_iff_right hnone).symm
  | succ n ih =>
    by_cases hinside : PhdrInside file p_entry
    · rw [loadSegments?_of_inside hinside, loadSegments, tableInside_succ]
      split_ifs with hload hlow hhigh
      · have hout : ¬(Phdr.ofBuf file.bytes p_entry).InRange := fun h => absurd (h hload).1 (Nat.not_le.2 hlow)
        rw [Option.some.injEq]
        exact (and_iff_right ⟨hinside, fun h => absurd h hout⟩).symm
      · have hout : ¬(Phdr.ofBuf file.bytes p_entry).InRange := fun h => absurd (h hload).2 (Nat.not_le.2 hhigh)
        rw [Option.some.injEq]
        exact (and_iff_right ⟨hinside, fun h => absurd h hout⟩).symm
      · have hin : (Phdr.ofBuf file.bytes p_entry).InRange :=
          fun _ => ⟨Nat.not_lt.1 hlow, Nat.not_lt.1 hhigh⟩
        rw [ih]
        exact and_congr_left' ⟨fun h => ⟨hinside, fun _ => h⟩, fun h => h.2 hin⟩
      · have hin : (Phdr.ofBuf file.bytes p_entry).InRange := fun h => absurd h hload
        rw [ih]
        exact and_congr_left' ⟨fun h => ⟨hinside, fun _ => h⟩, fun h => h.2 hin⟩
    · rw [tableInside_succ]
      exact iff_of_false (fun h => hinside (phdrInside_of_some h)) fun h => hinside h.1.1

theorem isElf?_eq (position : 32 ≤ file.len) : isElf? file = some (isElf file.bytes) := by
  unfold isElf? isElf
  rw [Block.u8?_of_lt (show 0 < file.len by omega), Block.u8?_of_lt (show 1 < file.len by omega),
    Block.u8?_of_lt (show 2 < file.len by omega), Block.u8?_of_lt (show 3 < file.len by omega)]
  by_cases h0 : file.bytes 0 = 0x7f <;> by_cases h1 : file.bytes 1 = 69 <;>
    by_cases h2 : file.bytes 2 = 76 <;> simp [h0, h1, h2]

/-- What has to be inside a file. -/
structure FileInside (file : Block) : Prop where
  position : 32 ≤ file.len
  number : isElf file.bytes = true → 46 ≤ file.len
  table : isElf file.bytes = true →
    TableInside file (Ehdr.ofBuf file.bytes).e_phnum.toNat (Ehdr.ofBuf file.bytes).e_phoff.toNat

theorem loadElf?_of_inside (inside : FileInside file) (zones : Zones) :
    loadElf? file zones = some (loadElf file.bytes zones) := by
  have hposition := inside.position
  unfold loadElf? loadElf
  rw [Block.u32?_of_le (show 28 + 4 ≤ file.len by omega), isElf?_eq hposition]
  simp only [Option.bind_eq_bind, Option.bind_some]
  by_cases hmagic : isElf file.bytes = true
  · have hnumber := inside.number hmagic
    have hloop : loadSegments? file (Ehdr.ofBuf file.bytes).e_phnum.toNat
        (Ehdr.ofBuf file.bytes).e_phoff.toNat zones = some (loadSegments file.bytes _ _ zones) :=
      (loadSegments?_iff _).2 ⟨inside.table hmagic, rfl⟩
    rw [if_pos hmagic, if_pos hmagic, Block.u16?_of_le (show 44 + 2 ≤ file.len by omega),
      Option.bind_some]
    change (loadSegments? file (Ehdr.ofBuf file.bytes).e_phnum.toNat
      (Ehdr.ofBuf file.bytes).e_phoff.toNat zones).bind _ = _
    rw [hloop, Option.bind_some]
    rcases loadSegments file.bytes _ _ zones with ⟨_ | _, zones'⟩
    · rfl
    · dsimp only
      rw [if_pos rfl, Block.u32?_of_le (show 24 + 4 ≤ file.len by omega)]
      rfl
  · rw [if_neg hmagic, if_neg hmagic]
    rfl

end Bounds

/-- `loadElf` reads inside the file only if and only if all that is inside. -/
theorem loadElf?_isSome_iff (file : Block) (zones : Zones) :
    (∃ result, loadElf? file zones = some result) ↔ FileInside file := by
  constructor
  · rintro ⟨result, hresult⟩
    unfold loadElf? at hresult
    simp only [Option.bind_eq_bind, Option.bind_eq_some_iff, Block.u32?_eq_some_iff] at hresult
    obtain ⟨e_phoff, ⟨hposition, rfl⟩, magic, hmagic, hresult⟩ := hresult
    rw [isElf?_eq hposition, Option.some.injEq] at hmagic
    rw [← hmagic] at hresult
    by_cases helf : isElf file.bytes = true
    · rw [if_pos helf] at hresult
      simp only [Option.bind_eq_some_iff, Block.u16?_eq_some_iff] at hresult
      obtain ⟨e_phnum, ⟨hnumber, rfl⟩, loaded, hloop, -⟩ := hresult
      exact ⟨hposition, fun _ => hnumber, fun _ => ((loadSegments?_iff loaded).1 hloop).1⟩
    · exact ⟨hposition, fun h => absurd h helf, fun h => absurd h helf⟩
  · intro hinside
    exact ⟨_, loadElf?_of_inside hinside zones⟩

/-- The header, the program headers and the data of the loadable segments are in the file. -/
structure Fits (file : Block) : Prop where
  header : 52 ≤ file.len
  table : (Ehdr.ofBuf file.bytes).e_phnum = 0 ∨ (Ehdr.ofBuf file.bytes).e_phoff.toNat +
    sizeofPhdr * (Ehdr.ofBuf file.bytes).e_phnum.toNat ≤ file.len
  data : ∀ i < (Ehdr.ofBuf file.bytes).e_phnum.toNat, ∀ p,
    p = Segment.ofBuf file.bytes ((Ehdr.ofBuf file.bytes).e_phoff.toNat + sizeofPhdr * i) →
      p.p_type = PT_LOAD → p.p_filesz = 0 ∨ p.p_offset.toNat + p.p_filesz.toNat ≤ file.len

/-- `loadElf` reads inside the file only, and rejects a file that does not fit, if and only if it reads
inside (the position of the table is inside and, for an ELF file, so are the number of headers and each header
up to the first that is rejected, as far as it is read, with the data of the segments before it), and a file
that passes all its checks has all of its headers and segments. -/
theorem loadElf?_rejects_iff (file : Block) (zones : Zones) :
    (∃ result, loadElf? file zones = some result ∧ (¬Fits file → result.1 = 0)) ↔
      FileInside file ∧ (Accepted file.bytes → Fits file) := by
  have hzero := loadElf_eq_zero_iff file.bytes zones
  constructor
  · rintro ⟨result, hresult, hreject⟩
    have hinside := (loadElf?_isSome_iff file zones).1 ⟨result, hresult⟩
    rw [loadElf?_of_inside hinside, Option.some.injEq] at hresult
    refine ⟨hinside, fun haccepted => ?_⟩
    by_contra hcut
    rw [← hresult] at hreject
    exact hzero.1 (hreject hcut) haccepted
  · rintro ⟨hinside, hfits⟩
    refine ⟨_, loadElf?_of_inside hinside zones, fun hcut => ?_⟩
    exact hzero.2 fun haccepted => hcut (hfits haccepted)

/-- A file without a byte. -/
theorem emptyFile_outside : ¬∀ (file : Block) (zones : Zones), ∃ result, loadElf? file zones = some result ∧
    (¬Fits file → result.1 = 0) := by
  intro hall
  obtain ⟨result, hresult, -⟩ := hall ⟨fun _ => 0, 0⟩ default
  nomatch hresult

end Elf
