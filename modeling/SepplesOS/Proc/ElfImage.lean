import SepplesOS.Disk.Ext2Tree
import SepplesOS.Proc.ElfLoad

/-!
# The image of a program

What `loadTask` (`kernel/proc/process.cpp`) leaves in the memory of a new process: it reads the file into a
buffer from the heap, and `loadElf` stores the segments one after the other.  If the program keeps to its
own file and to user space, the memory is that described by the content of the file, whatever the buffer held
before: at each address the byte of the last segment there, from the file or zero.
-/

namespace Elf

/-- What is in memory after some stores. -/
def stored (mem : ℕ → UInt8) (stores : List Store) : ℕ → UInt8 :=
  stores.foldl (fun mem store => Function.update mem store.addr store.byte) mem

/-- The segment occupies the address. -/
def Segment.Covers (p : Segment) (a : ℕ) : Prop := p.v_begin ≤ a ∧ a < p.v_begin + p.reach

/-- The byte of the segment at an address: of the file, and zero behind that. -/
def Segment.byteAt (p : Segment) (file : Buf) (a : ℕ) : UInt8 :=
  if a < p.v_begin + p.p_filesz.toNat then file (p.p_offset.toNat + (a - p.v_begin)) else 0

/-- The program headers of the loadable segments, in the order of the file. -/
def segments (file : Buf) : ℕ → ℕ → List Segment
  | 0, _ => []
  | n + 1, p_entry =>
    let p := Segment.ofBuf file p_entry
    if p.p_type = PT_LOAD then p :: segments file n (p_entry + sizeofPhdr)
    else segments file n (p_entry + sizeofPhdr)

/-- The memory is that which the segments describe. -/
def IsImage (file : Buf) (ps : List Segment) (mem mem' : ℕ → UInt8) : Prop :=
  ∀ a, (∀ p ∈ ps, ¬p.Covers a) ∧ mem' a = mem a ∨ ∃ before p after, ps = before ++ p :: after ∧
    p.Covers a ∧ (∀ q ∈ after, ¬q.Covers a) ∧ mem' a = p.byteAt file a

/-! ## The stores of a segment -/

section Stores

variable {mem : ℕ → UInt8} {a : ℕ}

theorem stored_append (mem : ℕ → UInt8) (xs ys : List Store) :
    stored mem (xs ++ ys) = stored (stored mem xs) ys :=
  List.foldl_append

theorem stored_memcpy (dest : ℕ) (src : Buf) (count : ℕ) :
    stored mem (memcpyStores dest src count) a =
      if dest ≤ a ∧ a < dest + count then src (a - dest) else mem a := by
  induction count with
  | zero => rw [if_neg (by omega)]; rfl
  | succ count ih =>
    have hlast : memcpyStores dest src (count + 1) =
        memcpyStores dest src count ++ [⟨dest + count, src count⟩] := by
      simp [memcpyStores, List.range_succ]
    rw [hlast, stored_append]
    show Function.update (stored mem (memcpyStores dest src count)) (dest + count) (src count) a = _
    by_cases heq : a = dest + count
    · rw [heq, Function.update_self, if_pos (by omega), Nat.add_sub_cancel_left]
    · rw [Function.update_of_ne heq, ih]
      exact if_congr (by omega) rfl rfl

theorem stored_zero (p first limit : ℕ) :
    stored mem (zeroStores p first limit) a =
      if p + first ≤ a ∧ a < p + limit then 0 else mem a := by
  have hzeros : zeroStores p first limit = memcpyStores (p + first) (fun _ => 0) (limit - first) := by
    unfold zeroStores memcpyStores
    rw [List.range'_eq_map_range, List.map_map]
    simp [Nat.add_assoc]
  rw [hzeros, stored_memcpy]
  exact if_congr (by omega) rfl rfl

theorem stored_bss (p : Segment) :
    stored mem (if p.p_filesz < p.p_memsz then
        zeroStores p.p_vaddr.toNat p.p_filesz.toNat p.p_memsz.toNat else []) a =
      if p.v_begin + p.p_filesz.toNat ≤ a ∧ a < p.v_begin + p.p_memsz.toNat then 0 else mem a := by
  have hless : p.p_filesz < p.p_memsz ↔ p.p_filesz.toNat < p.p_memsz.toNat := UInt32.lt_iff_toNat_lt
  by_cases hlt : p.p_filesz < p.p_memsz
  · rw [if_pos hlt]
    exact stored_zero _ _ _
  · rw [if_neg hlt, if_neg fun h => hlt (hless.2 (by omega))]
    rfl

theorem stored_segment (p : Segment) (file : Buf) (a : ℕ) [Decidable (p.Covers a)] :
    stored mem (p.stores file) a = if p.Covers a then p.byteAt file a else mem a := by
  have hcovers : p.Covers a ↔ p.v_begin ≤ a ∧
      (a < p.v_begin + p.p_filesz.toNat ∨ a < p.v_begin + p.p_memsz.toNat) := by
    unfold Segment.Covers Segment.reach
    omega
  unfold Segment.stores
  rw [stored_append, stored_bss, stored_memcpy]
  unfold Segment.byteAt
  by_cases hin : p.Covers a
  · have hrange := hcovers.1 hin
    rw [if_pos hin]
    by_cases hcopied : a < p.v_begin + p.p_filesz.toNat
    · rw [if_neg (by omega), if_pos ⟨hrange.1, hcopied⟩, if_pos hcopied]
    · rw [if_pos (by omega), if_neg hcopied]
  · have hrange := mt hcovers.2 hin
    rw [if_neg hin, if_neg (by omega), if_neg (by omega)]

end Stores

/-! ## The loop -/

section Loop

variable {file : Buf} {zones : Zones} {mem : ℕ → UInt8}

/-- If all segments are in range, they are stored in their order. -/
theorem copySegments_image {n p_entry : ℕ}
    (inRange : ∀ i < n, (Phdr.ofBuf file (p_entry + sizeofPhdr * i)).InRange) :
    IsImage file (segments file n p_entry) mem (stored mem (copySegments file n p_entry zones).2.2) := by
  classical
  induction n generalizing p_entry zones mem with
  | zero => exact fun a => Or.inl ⟨fun p hp => absurd hp List.not_mem_nil, rfl⟩
  | succ n ih =>
    have hrest : ∀ i < n, (Phdr.ofBuf file (p_entry + sizeofPhdr + sizeofPhdr * i)).InRange := by
      intro i hi
      have hnext := inRange (i + 1) (by omega)
      rwa [show p_entry + sizeofPhdr * (i + 1) = p_entry + sizeofPhdr + sizeofPhdr * i by ring] at hnext
    have hfirst := inRange 0 (Nat.succ_pos n)
    rw [Nat.mul_zero, Nat.add_zero] at hfirst
    rw [copySegments, segments]
    dsimp only
    by_cases hload : (Segment.ofBuf file p_entry).p_type = PT_LOAD
    · obtain ⟨hlow, hhigh⟩ : USER_OFFSET ≤ (Segment.ofBuf file p_entry).v_begin ∧
          (Segment.ofBuf file p_entry).v_end ≤ USER_STACK := hfirst hload
      rw [if_pos hload, if_pos hload, if_neg (not_lt.2 hlow), if_neg (not_lt.2 hhigh)]
      dsimp only
      intro a
      rw [stored_append]
      rcases @ih _ (stored mem ((Segment.ofBuf file p_entry).stores file)) _ hrest a with
        ⟨huncovered, heq⟩ | ⟨before, p, after, hsplit, hcovers, hlater, heq⟩
      · rw [heq, stored_segment]
        split_ifs with hcovers
        · exact Or.inr ⟨[], _, _, rfl, hcovers, huncovered, rfl⟩
        · refine Or.inl ⟨fun p hp => ?_, rfl⟩
          rcases List.mem_cons.1 hp with rfl | hp
          · exact hcovers
          · exact huncovered p hp
      · exact Or.inr ⟨_ :: before, p, after, by rw [hsplit, List.cons_append], hcovers, hlater, heq⟩
    · rw [if_neg hload, if_neg hload]
      exact ih hrest

theorem copyElf_accepted (accepted : Accepted file) :
    (copyElf file zones).1 = (Ehdr.ofBuf file).e_entry.toNat ∧
      IsImage file (segments file (Ehdr.ofBuf file).e_phnum.toNat (Ehdr.ofBuf file).e_phoff.toNat) mem
        (stored mem (copyElf file zones).2.2) := by
  constructor
  · have hload := (loadSegments_iff file (Ehdr.ofBuf file).e_phnum.toNat (Ehdr.ofBuf file).e_phoff.toNat
      zones).2 accepted.segments
    have hresult := congrArg Prod.fst (copyElf_result file zones)
    dsimp only at hresult
    rw [hresult]
    unfold loadElf
    dsimp only
    rw [if_pos accepted.magic]
    split
    · rfl
    · next heq => rw [heq] at hload; cases hload
  · rw [copyElf_stores accepted.magic]
    exact copySegments_image accepted.segments

end Loop

/-! ## The content of the file -/

/-- The buffer that holds the content and zeros behind it. -/
def ofContent (content : List UInt8) : Buf := fun k => content.getD k 0

/-- The headers and the data of the loadable segments are in the file. -/
structure Inside (content : List UInt8) : Prop where
  header : 52 ≤ content.length
  table : (Ehdr.ofBuf (ofContent content)).e_phoff.toNat +
    sizeofPhdr * (Ehdr.ofBuf (ofContent content)).e_phnum.toNat ≤ content.length
  data : ∀ p ∈ segments (ofContent content) (Ehdr.ofBuf (ofContent content)).e_phnum.toNat
    (Ehdr.ofBuf (ofContent content)).e_phoff.toNat, p.p_offset.toNat + p.p_filesz.toNat ≤ content.length

section Content

variable {file file' : Buf} {size : ℕ}

theorem copySegments_congr {n p_entry : ℕ} (same : ∀ k < size, file k = file' k)
    (table : p_entry + sizeofPhdr * n ≤ size)
    (data : ∀ p ∈ segments file' n p_entry, p.p_offset.toNat + p.p_filesz.toNat ≤ size) (zones : Zones) :
    copySegments file n p_entry zones = copySegments file' n p_entry zones := by
  induction n generalizing p_entry zones with
  | zero => rfl
  | succ n ih =>
    have hsize : sizeofPhdr = 32 := rfl
    rw [Nat.mul_succ] at table
    have hword : ∀ off ≤ 28, file.u32 (p_entry + off) = file'.u32 (p_entry + off) := fun off hoff =>
      Buf.u32_congr fun i hi => same _ (by omega)
    have hphdr : Segment.ofBuf file p_entry = Segment.ofBuf file' p_entry := by
      unfold Segment.ofBuf Phdr.ofBuf
      rw [hword 4 (by decide), hword 8 (by decide), hword 16 (by decide), hword 20 (by decide),
        hword 24 (by decide), show file.u32 p_entry = file'.u32 p_entry from hword 0 (by decide)]
    rw [segments] at data
    rw [copySegments, copySegments, hphdr]
    dsimp only
    by_cases hload : (Segment.ofBuf file' p_entry).p_type = PT_LOAD
    · rw [if_pos hload] at data
      have hfirst := data _ List.mem_cons_self
      have hstores : (Segment.ofBuf file' p_entry).stores file =
          (Segment.ofBuf file' p_entry).stores file' := by
        unfold Segment.stores memcpyStores
        congr 1
        apply List.map_congr_left
        intro k hk
        have hlt := List.mem_range.1 hk
        dsimp only
        rw [same _ (by omega)]
      rw [if_pos hload, if_pos hload, hstores, ih (by omega) fun p hp => data p (List.mem_cons_of_mem _ hp)]
    · rw [if_neg hload] at data
      rw [if_neg hload, if_neg hload, ih (by omega) data]

theorem copyElf_congr {content : List UInt8} (inside : Inside content)
    (same : ∀ k < content.length, file k = ofContent content k) (zones : Zones) :
    copyElf file zones = copyElf (ofContent content) zones := by
  obtain ⟨hheader, htable, hdata⟩ := inside
  have hehdr : Ehdr.ofBuf file = Ehdr.ofBuf (ofContent content) := by
    unfold Ehdr.ofBuf
    rw [Buf.u32_congr fun i hi => same (24 + i) (by omega),
      Buf.u32_congr fun i hi => same (28 + i) (by omega),
      Buf.u16_congr fun i hi => same (44 + i) (by omega)]
  have hmagic : isElf file = isElf (ofContent content) := by
    unfold isElf
    rw [same 0 (by omega), same 1 (by omega), same 2 (by omega), same 3 (by omega)]
  unfold copyElf
  rw [hehdr, hmagic]
  dsimp only
  rw [copySegments_congr same htable hdata]

end Content

open Ext2 ATA

/-- The segments that `loadElf` loads end at the stack at the latest. -/
def SegmentsFit (file : Buf) : Prop :=
  ∀ i < (Ehdr.ofBuf file).e_phnum.toNat, Loads file (Ehdr.ofBuf file).e_phoff.toNat i →
    (Segment.ofBuf file ((Ehdr.ofBuf file).e_phoff.toNat + sizeofPhdr * i)).Fits

/-- What `loadTask` makes of a node that reads as a file with a program inside, of which the segments stay
below the stack, whatever the heap and the memory held before: all stores go to user space, the file is
refused if its content is not accepted, and otherwise the entry point is that in the content, and the memory
afterwards is that which the segments in the content describe. -/
theorem program_image {disk : Drives} {node : NodeEXT2} {content : List UInt8}
    (reads : ReadsAs disk node (.file content)) (inside : Inside content)
    (fits : SegmentsFit (ofContent content)) (fresh : Fresh) (buf : Buf) (zones : Zones) (mem : ℕ → UInt8) :
    ∃ file, node.read disk fresh node.getSize buf = some (node.getSize, file) ∧
      InUserSpace (copyElf file zones).2.2 ∧
      ((copyElf file zones).1 = 0 ↔ ¬Accepted (ofContent content)) ∧
      (Accepted (ofContent content) →
        (copyElf file zones).1 = (Ehdr.ofBuf (ofContent content)).e_entry.toNat ∧
        IsImage (ofContent content) (segments (ofContent content)
            (Ehdr.ofBuf (ofContent content)).e_phnum.toNat (Ehdr.ofBuf (ofContent content)).e_phoff.toNat)
          mem (stored mem (copyElf file zones).2.2)) := by
  obtain ⟨-, file, hread, hbytes⟩ := reads fresh buf
  have hsame : ∀ k < content.length, file k = ofContent content k := by
    intro k hk
    have hbyte : (file.bytes 0 content.length)[k]? = content[k]? := by
      rw [hbytes]
    unfold Buf.bytes at hbyte
    rw [List.getElem?_map, List.getElem?_range hk, Option.map_some, Nat.zero_add] at hbyte
    unfold ofContent
    rw [List.getD_eq_getElem?_getD, ← hbyte]
    rfl
  refine ⟨file, hread, ?_⟩
  rw [copyElf_congr inside hsame]
  refine ⟨copyElf_inUserSpace fits zones, ?_, fun accepted => copyElf_accepted accepted⟩
  have hresult := congrArg Prod.fst (copyElf_result (ofContent content) zones)
  dsimp only at hresult
  rw [hresult]
  exact loadElf_eq_zero_iff (ofContent content) zones

/-- A program of 84 bytes, loaded at `USER_OFFSET` with 16 zeros behind it. -/
def smallProgram : List UInt8 :=
  [0x7f, 69, 76, 70, 1, 1, 1, 0, 0, 0, 0, 0, 0, 0, 0, 0, 2, 0, 3, 0, 1, 0, 0, 0,
    0, 0, 0, 0x40, 52, 0, 0, 0, 0, 0, 0, 0, 0, 0, 0, 0, 52, 0, 32, 0, 1, 0, 0, 0, 0, 0, 0, 0,
    1, 0, 0, 0, 0, 0, 0, 0, 0, 0, 0, 0x40, 0, 0, 0, 0, 84, 0, 0, 0, 100, 0, 0, 0,
    5, 0, 0, 0, 0, 0x10, 0, 0]

/-- A file of block 8. -/
def programInode : Inode := Inode.ofBuf fun k =>
  if k = 1 then 0x80 else if k = 4 then 84 else if k = 40 then 8 else 0

def programNode : NodeEXT2 := ⟨.NODE_FILE, smallDisk, programInode⟩

/-- The disk has the program in that block. -/
def programDisk : Drives := readyDrive fun k => if 8192 ≤ k then smallProgram.getD (k - 8192) 0 else 0

theorem programNode_reads : ReadsAs programDisk programNode (.file smallProgram) := by
  have hregular : programInode.IsReg := by
    unfold Inode.IsReg
    decide
  have hfile : Represents programDisk smallDisk programInode (.file smallProgram) := by
    have hsize : programInode.iSize.toNat = 84 := by decide
    have hblock : logicalBlock programDisk smallDisk programInode 0 ≠ 0 := by decide
    have hcontent : smallProgram = (List.range 84).map (fileByte programDisk smallDisk programInode) := by
      decide +kernel
    refine .file hregular (blockReadsExact_direct _ (by decide) (by decide)) ?_ (by decide) ?_
    · intro k hk
      have hfirst : k / smallDisk.blocksize.toNat = 0 := by
        rw [hsize] at hk
        exact Nat.div_eq_of_lt (hk.trans (by decide))
      rw [hfirst]
      exact hblock
    · intro k hk
      have hget : smallProgram[k]? = _ := congrArg (fun bytes => bytes[k]?) hcontent
      have hlt : k < 84 := hk
      rw [List.getElem?_eq_getElem hk, List.getElem?_map, List.getElem?_range hlt] at hget
      exact Option.some.inj hget
  have hrep : NodeRep programDisk programNode (.file smallProgram) :=
    ⟨by decide, by decide, hfile, iff_of_true rfl ⟨_, rfl⟩⟩
  exact hrep.readsAs

theorem smallProgram_inside : Inside smallProgram :=
  ⟨by decide, by decide, by decide +kernel⟩

theorem smallProgram_accepted : Accepted (ofContent smallProgram) := by
  refine ⟨by decide, fun i hi => ?_, by decide⟩
  obtain rfl : i = 0 := Nat.lt_one_iff.1 hi
  unfold Phdr.InRange
  decide

theorem smallProgram_fits : SegmentsFit (ofContent smallProgram) := by
  intro i hi _
  obtain rfl : i = 0 := Nat.lt_one_iff.1 hi
  unfold Segment.Fits
  decide

/-- The small program is loaded. -/
theorem program_image_small :
    ∃ file, programNode.read programDisk zeroFresh programNode.getSize (fun _ => 2) =
        some (programNode.getSize, file) ∧
      InUserSpace (copyElf file default).2.2 ∧
      (copyElf file default).1 = (Ehdr.ofBuf (ofContent smallProgram)).e_entry.toNat ∧
      IsImage (ofContent smallProgram) (segments (ofContent smallProgram)
          (Ehdr.ofBuf (ofContent smallProgram)).e_phnum.toNat
          (Ehdr.ofBuf (ofContent smallProgram)).e_phoff.toNat) (fun _ => 3)
        (stored (fun _ => 3) (copyElf file default).2.2) := by
  obtain ⟨file, hread, hinside, -, himage⟩ :=
    program_image programNode_reads smallProgram_inside smallProgram_fits zeroFresh (fun _ => 2) default
      fun _ => 3
  exact ⟨file, hread, hinside, himage smallProgram_accepted⟩

end Elf
