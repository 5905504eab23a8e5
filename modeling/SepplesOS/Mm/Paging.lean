import SepplesOS.Mm.Memmap

/-!
# Paging

`kernel/mm/paging.cpp`: the bitmap of physical pages, and the four-level page tables in physical
memory.  Memory is a function from the physical address of an 8-byte word to the word.  A call that
ends in `fatalError` has no result (`none`).

Physical memory is accessed through the temporary page, whose entry `PT0[7]` is rewritten by
`tmpmap` before every access.  What it held is never used again, so the model does not keep it: that
entry reads as the mapping of the page being read.
-/

/-- `PAGE_ATTR_PRESENT`, `PAGE_ATTR_WRITE` and `PAGE_ATTR_USER`. -/
def PAGE_ATTR_PRESENT : ℕ := 1
def PAGE_ATTR_WRITE : ℕ := 2
def PAGE_ATTR_USER : ℕ := 4

/-- Physical memory and the variables of `Paging`. -/
structure Paging where
  mem : ℕ → ℕ
  physPageBitmap : ℕ → BitVec 8
  maxPhysPages : ℕ

/-- `addr & ~0xFFF`. -/
def pageOf (addr : ℕ) : ℕ := addr - addr % PAGESIZE

/-- `vaddr >> shift & 0x1FF`. -/
def index (vaddr shift : ℕ) : ℕ := vaddr >>> shift &&& 0x1FF

/-- `entry & PAGE_ATTR_PRESENT`. -/
def Present (entry : ℕ) : Prop := entry &&& PAGE_ATTR_PRESENT ≠ 0

instance (entry : ℕ) : Decidable (Present entry) := inferInstanceAs (Decidable (_ ≠ _))

/-- The entry of page table 0 that maps the temporary page. -/
def TMPMAP_PTE : ℕ := PT0_ADDR + TMPMAP_PAGE_VADDR / PAGESIZE * 8

namespace Paging

variable (m : Paging)

/-! ## Physical memory -/

/-- `phyread` of one word. -/
def phyread (psrc : ℕ) : ℕ := if psrc = TMPMAP_PTE then PT0_ADDR ||| 0b11 else m.mem psrc

/-- `phywrite` of one word. -/
def phywrite (pdst w : ℕ) : Paging := { m with mem := Function.update m.mem pdst w }

/-- `phyzero(page, PAGESIZE)`. -/
def phyzero (page : ℕ) : Paging :=
  { m with mem := fun a => if page ≤ a ∧ a < page + PAGESIZE then 0 else m.mem a }

/-! ## The bitmap of physical pages -/

/-- `markPhysPageFree`. -/
def markPhysPageFree (page : ℕ) : Paging :=
  if page ≥ m.maxPhysPages then m
  else
    { m with
      physPageBitmap := Function.update m.physPageBitmap (page / 8)
        (m.physPageBitmap (page / 8) &&& ~~~(1#8 <<< (page % 8))) }

/-- `markPhysPageUsed`. -/
def markPhysPageUsed (page : ℕ) : Paging :=
  if page ≥ m.maxPhysPages then m
  else
    { m with
      physPageBitmap := Function.update m.physPageBitmap (page / 8)
        (m.physPageBitmap (page / 8) ||| 1#8 <<< (page % 8)) }

/-- The overloads of both for a physical address. -/
def markPhysPageFreeAddr (paddr : ℕ) : Paging := m.markPhysPageFree (paddr / PAGESIZE)
def markPhysPageUsedAddr (paddr : ℕ) : Paging := m.markPhysPageUsed (paddr / PAGESIZE)

/-- The loop over the bits of a byte, `n` of them left. -/
def freeBit (b : BitVec 8) : ℕ → ℕ → Option ℕ
  | 0, _ => none
  | n + 1, bit => if b &&& 1#8 <<< bit = 0#8 then some bit else freeBit b n (bit + 1)

/-- The loop over the bytes of the bitmap, `n` of them left: the first free page. -/
def freePage : ℕ → ℕ → Option ℕ
  | 0, _ => none
  | n + 1, byte =>
    if m.physPageBitmap byte = 0xFF#8 then freePage n (byte + 1)
    else
      match freeBit (m.physPageBitmap byte) 8 0 with
      | some bit => some (8 * byte + bit)
      | none => freePage n (byte + 1)

/-- `getFreePhysPage`; `0` when there is none. -/
def getFreePhysPage : ℕ :=
  match m.freePage (m.maxPhysPages / 8) 0 with
  | some page => page * PAGESIZE
  | none => 0

/-! ## Mapping pages -/

/-- The entry at `addr`, and a new zeroed table for it when it is not present. -/
def presentOrNew (addr flags : ℕ) : Option (ℕ × Paging) :=
  let entry := m.phyread addr
  if Present entry then some (entry, m)
  else
    let paddr := m.getFreePhysPage
    if paddr = 0 then none
    else
      let paddr := pageOf paddr
      let m := m.markPhysPageUsed (paddr / PAGESIZE)
      let m := m.phyzero paddr
      let entry := pageOf paddr ||| (PAGE_ATTR_PRESENT ||| PAGE_ATTR_WRITE ||| flags)
      some (entry, m.phywrite addr entry)

/-- The scan of a page table for an entry that is not present, `n` entries left. -/
def scanPT (PDe : ℕ) : ℕ → ℕ → Option ℕ
  | 0, _ => none
  | n + 1, PTi =>
    if Present (m.phyread (pageOf PDe + PTi * 8)) then scanPT PDe n (PTi + 1) else some PTi

/-- The loop over a page directory, `n` entries left: the address found, or `none` when the
directory is full. -/
def scanPD (PDPTe PML4i PDPTi : ℕ) : Paging → ℕ → ℕ → Option (Option ℕ × Paging)
  | m, 0, _ => some (none, m)
  | m, n + 1, PDi =>
    match m.presentOrNew (pageOf PDPTe + PDi * 8) 0 with
    | none => none
    | some (PDe, m) =>
      let PTi := if pageOf PDe = PT0_ADDR then FREE_PAGES_START / PAGESIZE else 0
      match m.scanPT PDe (512 - PTi) PTi with
      | some PTi =>
        some (some ((PML4i <<< 39) + (PDPTi <<< 30) + (PDi <<< 21) + (PTi <<< 12)), m)
      | none => scanPD PDPTe PML4i PDPTi m n (PDi + 1)

/-- The loop over a page directory pointer table. -/
def scanPDPT (PML4e PML4i : ℕ) : Paging → ℕ → ℕ → Option (Option ℕ × Paging)
  | m, 0, _ => some (none, m)
  | m, n + 1, PDPTi =>
    let PDPTe := m.phyread (pageOf PML4e + PDPTi * 8)
    if Present PDPTe then
      match scanPD PDPTe PML4i PDPTi m 512 0 with
      | none => none
      | some (some vaddr, m) => some (some vaddr, m)
      | some (none, m) => scanPDPT PML4e PML4i m n (PDPTi + 1)
    else none

/-- The loop over the kernel's page directory. -/
def scanPML4 : Paging → ℕ → ℕ → Option (Option ℕ × Paging)
  | m, 0, _ => some (none, m)
  | m, n + 1, PML4i =>
    let PML4e := m.phyread (PML4_ADDR + PML4i * 8)
    if Present PML4e then
      match scanPDPT PML4e PML4i m 512 0 with
      | none => none
      | some (some vaddr, m) => some (some vaddr, m)
      | some (none, m) => scanPML4 m n (PML4i + 1)
    else none

/-- `getUnmappedVAddr`; `0` when no address is left. -/
def getUnmappedVAddr : Option (ℕ × Paging) :=
  match scanPML4 m 512 0 with
  | none => none
  | some (vaddr, m) => some (vaddr.getD 0, m)

/-- `mapPage` once the address is known. -/
def mapPageAt (vaddr paddr flags PML4 : ℕ) : Option (ℕ × Paging) :=
  let flags := flags &&& 0xFFF
  let PML4entry := m.phyread (PML4 + index vaddr 39 * 8)
  if Present PML4entry then
    match m.presentOrNew (pageOf PML4entry + index vaddr 30 * 8) flags with
    | none => none
    | some (PDPTentry, m) =>
      match m.presentOrNew (pageOf PDPTentry + index vaddr 21 * 8) flags with
      | none => none
      | some (PDentry, m) =>
        let PTentry := m.phyread (pageOf PDentry + index vaddr 12 * 8)
        if Present PTentry then some (0, m)
        else
          let paddr := if paddr = 0 then m.getFreePhysPage else paddr
          if paddr = 0 then some (0, m)
          else
            let paddr := pageOf paddr
            let PTentry := paddr ||| (PAGE_ATTR_PRESENT ||| PAGE_ATTR_WRITE ||| flags)
            let m := m.phywrite (pageOf PDentry + index vaddr 12 * 8) PTentry
            some (vaddr, m.markPhysPageUsed (paddr / PAGESIZE))
  else none

/-- `mapPage`: the address that was mapped, `0` on failure. -/
def mapPage (vaddr paddr flags PML4 : ℕ) : Option (ℕ × Paging) :=
  if vaddr = 0 then
    match m.getUnmappedVAddr with
    | none => none
    | some (vaddr, m) => if vaddr = 0 then some (0, m) else m.mapPageAt vaddr paddr flags PML4
  else m.mapPageAt vaddr paddr flags PML4

/-- `unmapPage`. -/
def unmapPage (vaddr : ℕ) : Paging :=
  let entry := m.phyread (PML4_ADDR + index vaddr 39 * 8)
  if Present entry then
    let entry := m.phyread (pageOf entry + index vaddr 30 * 8)
    if Present entry then
      let PDentry := m.phyread (pageOf entry + index vaddr 21 * 8)
      if Present PDentry then
        let entry := m.phyread (pageOf PDentry + index vaddr 12 * 8)
        if Present entry then
          let paddr := pageOf entry
          let m := m.markPhysPageFreeAddr paddr
          m.phywrite (pageOf PDentry + index vaddr 12 * 8) 0
        else m
      else m
    else m
  else m

/-! ## Page directories -/

/-- `createPageDir`; `0` when there is no page for it. -/
def createPageDir : ℕ × Paging :=
  let PML4 := m.getFreePhysPage
  if PML4 = 0 then (0, m)
  else
    let m := m.markPhysPageUsedAddr PML4
    let PDPT0 := m.getFreePhysPage
    if PDPT0 = 0 then (0, m.markPhysPageFreeAddr PML4)
    else
      let m := m.markPhysPageUsedAddr PDPT0
      let m := (m.phyzero PML4).phywrite PML4 (PDPT0 ||| 0b111)
      -- all users share the kernel's page directory 0
      (PML4, (m.phyzero PDPT0).phywrite PDPT0 (PD0_ADDR ||| 0b111))

/-- The loop of `destroyPageDir` over a page table. -/
def freePT (PDe : ℕ) : Paging :=
  (List.range 512).foldl (fun m PTi =>
    let PTe := m.phyread (pageOf PDe + PTi * 8)
    if Present PTe then m.markPhysPageFreeAddr (pageOf PTe) else m) m

/-- The loop over a page directory. -/
def freePD (PDPTe : ℕ) : Paging :=
  (List.range 512).foldl (fun m PDi =>
    let PDe := m.phyread (pageOf PDPTe + PDi * 8)
    if Present PDe then (m.freePT PDe).markPhysPageFreeAddr (pageOf PDe) else m) m

/-- The loop over a page directory pointer table, which skips page directory 0. -/
def freePDPT (PML4e : ℕ) : Paging :=
  (List.range 512).foldl (fun m PDPTi =>
    let PDPTe := m.phyread (pageOf PML4e + PDPTi * 8)
    if Present PDPTe then
      if pageOf PDPTe = PD0_ADDR then m
      else (m.freePD PDPTe).markPhysPageFreeAddr (pageOf PDPTe)
    else m) m

/-- `destroyPageDir`. -/
def destroyPageDir (pml4 : ℕ) : Paging :=
  Paging.markPhysPageFreeAddr
    ((List.range 512).foldl (fun m PML4i =>
      let PML4e := m.phyread (pml4 + PML4i * 8)
      if Present PML4e then (m.freePDPT PML4e).markPhysPageFreeAddr (pageOf PML4e) else m) m) pml4

/-! ## The start -/

/-- The page tables the boot code leaves: pages `1` to `0x7F` and the VGA framebuffer are mapped to
themselves. -/
def bootMem (ram : ℕ → ℕ) (a : ℕ) : ℕ :=
  if pageOf a = PML4_ADDR then if a = PML4_ADDR then PDPT0_ADDR ||| 0b11 else 0
  else if pageOf a = PDPT0_ADDR then if a = PDPT0_ADDR then PD0_ADDR ||| 0b11 else 0
  else if pageOf a = PD0_ADDR then if a = PD0_ADDR then PT0_ADDR ||| 0b11 else 0
  else if pageOf a = PT0_ADDR then
    let i := (a - PT0_ADDR) / 8
    if 1 ≤ i ∧ i ≤ 0x7F then i * PAGESIZE ||| 0b11
    else if i = VGA_TEXT_START / PAGESIZE then VGA_TEXT_START ||| 0b11
    else 0
  else ram a

/-- The number of units of `size` that `n` takes. -/
def unitsOf (n size : ℕ) : ℕ := n / size + if n % size = 0 then 0 else 1

/-- `physPageBitmapPagesize`: the pages the bitmap takes. -/
def bitmapPages (maxPhysPages : ℕ) : ℕ := unitsOf (unitsOf maxPhysPages 8) PAGESIZE

/-- `init`, from memory and a bitmap that hold anything. -/
def init (mem : ℕ → ℕ) (bitmap : ℕ → BitVec 8) (availableMem : ℕ) : Paging :=
  let maxPhysPages := unitsOf availableMem PAGESIZE
  let m : Paging := ⟨mem, bitmap, maxPhysPages⟩
  let m := (List.range (bitmapPages maxPhysPages)).foldl (fun m i =>
    m.phywrite (PT0_ADDR + (FREE_PAGES_START / PAGESIZE + i) * 8)
      ((FREE_PAGES_START + i * PAGESIZE) ||| 0b11)) m
  let m := { m with
    physPageBitmap := fun b => if b < unitsOf maxPhysPages 8 then 0#8 else m.physPageBitmap b }
  let m := (List.range (bitmapPages maxPhysPages)).foldl (fun m i =>
    m.markPhysPageUsed (FREE_PAGES_START / PAGESIZE + i)) m
  (List.range (FREE_PAGES_START / PAGESIZE)).foldl (fun m i => m.markPhysPageUsed i) m

end Paging
