import SepplesOS.Proc.Elf

/-!
# What `loadElf` writes

The copying of `Elf::loadElf` (`kernel/proc/elf.cpp`), beside its checks: each loadable segment is
copied with `memcpy` and filled with zeros up to its size in memory.  The model keeps every store
in the order of the code.  The pages under the stores are those that the loop maps beforehand, and
those of the page fault handler.

The check of a segment bounds the sum of its address and its size in memory, taken modulo `2^32`.
The copy runs over its size in the file, and the zero fill counts in 64 bits.
-/

namespace Elf

/-- The fields of `Elf32_Phdr` that the copying of a segment reads besides those of the checks. -/
structure Segment extends Phdr where
  p_offset : UInt32
  p_filesz : UInt32

/-- The program header at `p_entry`. -/
def Segment.ofBuf (file : Buf) (p_entry : ℕ) : Segment where
  toPhdr := Phdr.ofBuf file p_entry
  p_offset := file.u32 (p_entry + 4)
  p_filesz := file.u32 (p_entry + 16)

/-- One byte stored at an address. -/
structure Store where
  addr : ℕ
  byte : UInt8

/-- The stores of `memcpy(dest, src, count)`. -/
def memcpyStores (dest : ℕ) (src : Buf) (count : ℕ) : List Store :=
  (List.range count).map fun k => ⟨dest + k, src k⟩

/-- The stores of `for (i = first; i < limit; i++) p[i] = 0`. -/
def zeroStores (p first limit : ℕ) : List Store :=
  (List.range' first (limit - first)).map fun i => ⟨p + i, 0⟩

/-- The stores of a segment that passed its checks. -/
def Segment.stores (p : Segment) (file : Buf) : List Store :=
  memcpyStores p.v_begin (fun k => file (p.p_offset.toNat + k)) p.p_filesz.toNat ++
    if p.p_filesz < p.p_memsz then
      zeroStores p.p_vaddr.toNat p.p_filesz.toNat p.p_memsz.toNat
    else []

/-- The loop over the program headers, `n` of them left: whether all passed, the zones and the
stores. -/
def copySegments (file : Buf) : ℕ → ℕ → Zones → Bool × Zones × List Store
  | 0, _, zones => (true, zones, [])
  | n + 1, p_entry, zones =>
    let p := Segment.ofBuf file p_entry
    if p.p_type = PT_LOAD then
      if p.v_begin < USER_OFFSET then (false, zones, [])
      else if p.v_end > USER_STACK then (false, zones, [])
      else
        let rest := copySegments file n (p_entry + sizeofPhdr) (zones.update p.toPhdr)
        (rest.1, rest.2.1, p.stores file ++ rest.2.2)
    else copySegments file n (p_entry + sizeofPhdr) zones

/-- `loadElf` with its stores: the value returned, the zones and the stores. -/
def copyElf (file : Buf) (zones : Zones) : ℕ × Zones × List Store :=
  let hdr := Ehdr.ofBuf file
  if isElf file then
    match copySegments file hdr.e_phnum.toNat hdr.e_phoff.toNat zones with
    | (true, zones, stores) => (hdr.e_entry.toNat, zones, stores)
    | (false, zones, stores) => (0, zones, stores)
  else (0, zones, [])

/-! ## The checks are those of `loadElf` -/

theorem copySegments_checks (file : Buf) (n p_entry : ℕ) (zones : Zones) :
    ((copySegments file n p_entry zones).1, (copySegments file n p_entry zones).2.1) =
      loadSegments file n p_entry zones := by
  induction n generalizing p_entry zones with
  | zero => rfl
  | succ n ih =>
    have hphdr : (Segment.ofBuf file p_entry).toPhdr = Phdr.ofBuf file p_entry := rfl
    rw [copySegments, loadSegments]
    dsimp only
    rw [hphdr]
    by_cases hload : (Phdr.ofBuf file p_entry).p_type = PT_LOAD
    · by_cases hlow : (Phdr.ofBuf file p_entry).v_begin < USER_OFFSET
      · simp only [if_pos hload, if_pos hlow]
      · by_cases hhigh : (Phdr.ofBuf file p_entry).v_end > USER_STACK
        · simp only [if_pos hload, if_neg hlow, if_pos hhigh]
        · simp only [if_pos hload, if_neg hlow, if_neg hhigh]
          exact ih _ _
    · simp only [if_neg hload]
      exact ih _ _

theorem copyElf_result (file : Buf) (zones : Zones) :
    ((copyElf file zones).1, (copyElf file zones).2.1) = loadElf file zones := by
  have hchecks := copySegments_checks file (Ehdr.ofBuf file).e_phnum.toNat
    (Ehdr.ofBuf file).e_phoff.toNat zones
  unfold copyElf loadElf
  dsimp only
  split_ifs
  · rw [← hchecks]
    rcases copySegments file _ _ zones with ⟨_ | _, _, _⟩ <;> rfl
  · rfl

theorem copyElf_stores {file : Buf} (magic : isElf file = true) (zones : Zones) :
    (copyElf file zones).2.2 = (copySegments file (Ehdr.ofBuf file).e_phnum.toNat
      (Ehdr.ofBuf file).e_phoff.toNat zones).2.2 := by
  unfold copyElf
  dsimp only
  rw [if_pos magic]
  rcases copySegments file _ _ zones with ⟨_ | _, _, _⟩ <;> rfl

/-! ## Where the stores go -/

/-- The number of bytes of user memory that the copy and the zero fill cover. -/
def Segment.reach (p : Segment) : ℕ := max p.p_filesz.toNat p.p_memsz.toNat

theorem Segment.mem_stores_iff (p : Segment) (file : Buf) (addr : ℕ) :
    (∃ store ∈ p.stores file, store.addr = addr) ↔
      p.v_begin ≤ addr ∧ addr < p.v_begin + p.reach := by
  have hless : p.p_filesz < p.p_memsz ↔ p.p_filesz.toNat < p.p_memsz.toNat :=
    UInt32.lt_iff_toNat_lt
  unfold Segment.stores memcpyStores zeroStores Segment.reach Phdr.v_begin
  constructor
  · rintro ⟨store, hmem, rfl⟩
    rw [List.mem_append] at hmem
    cases hmem with
    | inl hcopy =>
      obtain ⟨k, hk, rfl⟩ := List.mem_map.1 hcopy
      have := List.mem_range.1 hk
      dsimp only
      omega
    | inr hzero =>
      split_ifs at hzero with hlt
      · obtain ⟨i, hi, rfl⟩ := List.mem_map.1 hzero
        have := List.mem_range'_1.1 hi
        dsimp only
        omega
      · exact absurd hzero (List.not_mem_nil)
  · rintro ⟨above, below⟩
    by_cases copied : addr < p.p_vaddr.toNat + p.p_filesz.toNat
    · refine ⟨_, List.mem_append_left _ (List.mem_map_of_mem
        (List.mem_range.2 (show addr - p.p_vaddr.toNat < _ by omega))), ?_⟩
      show p.p_vaddr.toNat + (addr - p.p_vaddr.toNat) = addr
      omega
    · have hlt : p.p_filesz.toNat < p.p_memsz.toNat := by omega
      rw [if_pos (hless.2 hlt)]
      refine ⟨_, List.mem_append_right _ (List.mem_map_of_mem
        (List.mem_range'_1.2 (show p.p_filesz.toNat ≤ addr - p.p_vaddr.toNat ∧ _ by omega))), ?_⟩
      show p.p_vaddr.toNat + (addr - p.p_vaddr.toNat) = addr
      omega

/-- The stores stay in user space. -/
def InUserSpace (stores : List Store) : Prop :=
  ∀ store ∈ stores, USER_OFFSET ≤ store.addr ∧ store.addr < USER_STACK

/-- The bytes that a segment reaches end at the stack at the latest. -/
def Segment.Fits (p : Segment) : Prop :=
  p.reach = 0 ∨ p.v_begin + p.reach ≤ USER_STACK

/-- The stores of a segment above `USER_OFFSET` stay in user space exactly when it fits. -/
theorem Segment.stores_inUserSpace_iff {p : Segment} (file : Buf)
    (low : USER_OFFSET ≤ p.v_begin) : InUserSpace (p.stores file) ↔ p.Fits := by
  constructor
  · intro inside
    by_contra unfit
    obtain ⟨hreach, hlast⟩ : p.reach ≠ 0 ∧ USER_STACK < p.v_begin + p.reach := by
      unfold Segment.Fits at unfit
      omega
    obtain ⟨store, hmem, haddr⟩ := (p.mem_stores_iff file (p.v_begin + p.reach - 1)).2 (by omega)
    have := (inside store hmem).2
    omega
  · intro fits store hmem
    have hrange := (p.mem_stores_iff file store.addr).1 ⟨store, hmem, rfl⟩
    unfold Segment.Fits at fits
    omega

/-- The loop loads the segment `i`: it is loadable, in range, and so are those before it. -/
def Loads (file : Buf) (p_entry i : ℕ) : Prop :=
  (Phdr.ofBuf file (p_entry + sizeofPhdr * i)).p_type = PT_LOAD ∧
    ∀ j ≤ i, (Phdr.ofBuf file (p_entry + sizeofPhdr * j)).InRange

theorem loads_zero (file : Buf) (p_entry : ℕ) :
    Loads file p_entry 0 ↔
      (Phdr.ofBuf file p_entry).p_type = PT_LOAD ∧ (Phdr.ofBuf file p_entry).InRange := by
  unfold Loads
  simp

theorem loads_succ (file : Buf) (p_entry i : ℕ) :
    Loads file p_entry (i + 1) ↔
      (Phdr.ofBuf file p_entry).InRange ∧ Loads file (p_entry + sizeofPhdr) i := by
  have hshift (k : ℕ) : p_entry + sizeofPhdr * (k + 1) = p_entry + sizeofPhdr + sizeofPhdr * k := by
    rw [Nat.mul_add, Nat.mul_one, Nat.add_comm (sizeofPhdr * k), ← Nat.add_assoc]
  unfold Loads
  rw [hshift]
  constructor
  · rintro ⟨hload, hrange⟩
    refine ⟨hrange 0 (Nat.zero_le _), hload, fun j hj => ?_⟩
    rw [← hshift]
    exact hrange (j + 1) (Nat.succ_le_succ hj)
  · rintro ⟨hfirst, hload, hrange⟩
    refine ⟨hload, fun j hj => ?_⟩
    cases j with
    | zero => exact hfirst
    | succ j =>
      rw [hshift]
      exact hrange j (Nat.le_of_succ_le_succ hj)

theorem copySegments_inUserSpace_iff (file : Buf) (n p_entry : ℕ) (zones : Zones) :
    InUserSpace (copySegments file n p_entry zones).2.2 ↔
      ∀ i < n, Loads file p_entry i → (Segment.ofBuf file (p_entry + sizeofPhdr * i)).Fits := by
  induction n generalizing p_entry zones with
  | zero =>
    exact iff_of_true (fun _ h => absurd h List.not_mem_nil)
      (fun _ h => absurd h (Nat.not_lt_zero _))
  | succ n ih =>
    -- the first header, and those behind it if it passes
    have hsplit : (∀ i < n + 1, Loads file p_entry i →
          (Segment.ofBuf file (p_entry + sizeofPhdr * i)).Fits) ↔
        ((Phdr.ofBuf file p_entry).InRange → ((Phdr.ofBuf file p_entry).p_type = PT_LOAD →
            (Segment.ofBuf file p_entry).Fits) ∧
          ∀ i < n, Loads file (p_entry + sizeofPhdr) i →
            (Segment.ofBuf file (p_entry + sizeofPhdr + sizeofPhdr * i)).Fits) := by
      constructor
      · intro h hrange
        refine ⟨fun hload => ?_, fun i hi hloads => ?_⟩
        · exact h 0 (Nat.succ_pos n) ((loads_zero file p_entry).2 ⟨hload, hrange⟩)
        · have := h (i + 1) (Nat.succ_lt_succ hi) ((loads_succ file p_entry i).2 ⟨hrange, hloads⟩)
          rwa [Nat.mul_add, Nat.mul_one, Nat.add_comm (sizeofPhdr * i), ← Nat.add_assoc] at this
      · intro h i hi hloads
        cases i with
        | zero =>
          obtain ⟨hload, hrange⟩ := (loads_zero file p_entry).1 hloads
          exact (h hrange).1 hload
        | succ i =>
          obtain ⟨hrange, hloads⟩ := (loads_succ file p_entry i).1 hloads
          rw [Nat.mul_add, Nat.mul_one, Nat.add_comm (sizeofPhdr * i), ← Nat.add_assoc]
          exact (h hrange).2 i (Nat.lt_of_succ_lt_succ hi) hloads
    have hnone (rejected : ¬(Phdr.ofBuf file p_entry).InRange) : InUserSpace [] ↔
        ((Phdr.ofBuf file p_entry).InRange → ((Phdr.ofBuf file p_entry).p_type = PT_LOAD →
            (Segment.ofBuf file p_entry).Fits) ∧
          ∀ i < n, Loads file (p_entry + sizeofPhdr) i →
            (Segment.ofBuf file (p_entry + sizeofPhdr + sizeofPhdr * i)).Fits) :=
      iff_of_true (fun _ h => absurd h List.not_mem_nil) (fun hrange => absurd hrange rejected)
    rw [hsplit, copySegments]
    dsimp only
    split_ifs with hload hlow hhigh
    · exact hnone fun hrange => absurd (hrange hload).1 (not_le.2 hlow)
    · exact hnone fun hrange => absurd (hrange hload).2 (not_le.2 hhigh)
    · have hrange : (Phdr.ofBuf file p_entry).InRange :=
        fun _ => ⟨not_lt.1 hlow, not_lt.1 hhigh⟩
      have hboth (first rest : List Store) :
          InUserSpace (first ++ rest) ↔ InUserSpace first ∧ InUserSpace rest :=
        List.forall_mem_append
      rw [hboth, Segment.stores_inUserSpace_iff file (not_lt.1 hlow), ih]
      exact ⟨fun h _ => ⟨fun _ => h.1, h.2⟩, fun h => ⟨(h hrange).1 hload, (h hrange).2⟩⟩
    · rw [ih]
      have hrange : (Phdr.ofBuf file p_entry).InRange := fun h => absurd h hload
      exact ⟨fun h _ => ⟨fun h' => absurd h' hload, h⟩, fun h => (h hrange).2⟩

theorem copyElf_inUserSpace {file : Buf}
    (fits : ∀ i < (Ehdr.ofBuf file).e_phnum.toNat, Loads file (Ehdr.ofBuf file).e_phoff.toNat i →
      (Segment.ofBuf file ((Ehdr.ofBuf file).e_phoff.toNat + sizeofPhdr * i)).Fits) (zones : Zones) :
    InUserSpace (copyElf file zones).2.2 := by
  by_cases magic : isElf file = true
  · rw [copyElf_stores magic, copySegments_inUserSpace_iff]
    exact fits
  · unfold copyElf
    dsimp only
    rw [if_neg magic]
    exact fun _ h => absurd h List.not_mem_nil

/-- `loadElf` writes into user space only exactly when every segment it loads fits: its size in
the file and its size in memory both end below the stack, added without wrapping. -/
theorem loadElf_inUserSpace_iff (file : Buf) (zones : Zones) :
    InUserSpace (copyElf file zones).2.2 ↔
      (isElf file = true → ∀ i < (Ehdr.ofBuf file).e_phnum.toNat,
        Loads file (Ehdr.ofBuf file).e_phoff.toNat i →
          (Segment.ofBuf file ((Ehdr.ofBuf file).e_phoff.toNat + sizeofPhdr * i)).Fits) := by
  by_cases magic : isElf file = true
  · constructor
    · intro inside _
      rwa [copyElf_stores magic, copySegments_inUserSpace_iff] at inside
    · exact fun h => copyElf_inUserSpace (h magic) zones
  · have hempty : (copyElf file zones).2.2 = [] := by
      unfold copyElf
      dsimp only
      rw [if_neg magic]
    rw [hempty]
    exact iff_of_true (fun _ h => absurd h List.not_mem_nil) (fun h => absurd h magic)

/-- A file of 84 bytes with one loadable segment at `0xDFFFF000`: 4097 bytes in the file, 4096 in
memory. -/
def spillingElf : Buf := fun k =>
  ([0x7f, 69, 76, 70, 1, 1, 1, 0, 0, 0, 0, 0, 0, 0, 0, 0, 2, 0, 3, 0, 1, 0, 0, 0,
    0, 0xF0, 0xFF, 0xDF, 52, 0, 0, 0, 0, 0, 0, 0, 0, 0, 0, 0, 52, 0, 32, 0, 1, 0, 0, 0, 0, 0, 0, 0,
    1, 0, 0, 0, 0, 0, 0, 0, 0, 0xF0, 0xFF, 0xDF, 0, 0, 0, 0, 1, 0x10, 0, 0, 0, 0x10, 0, 0,
    5, 0, 0, 0, 0, 0x10, 0, 0] : List UInt8).getD k 0

/-- The last byte of the copy goes to the first address above the user space. -/
theorem loadElf_spills : ¬∀ file zones, InUserSpace (copyElf file zones).2.2 := by
  intro h
  have hinside := h spillingElf default
  rw [copyElf_stores (by decide), copySegments_inUserSpace_iff] at hinside
  have hfits := hinside 0 (by decide)
    ((loads_zero _ _).2 ⟨by decide, by unfold Phdr.InRange; decide⟩)
  revert hfits
  unfold Segment.Fits
  decide

end Elf
