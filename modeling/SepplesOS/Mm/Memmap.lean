import Mathlib

/-!
# The memory map

The addresses of `kernel/mm/memmap.h` that the modelled code uses.
-/

/-- `PAGESIZE`. -/
def PAGESIZE : ℕ := 0x1000

/-- The page tables the boot code sets up, one page each. -/
def PML4_ADDR : ℕ := 0x1000
def PDPT0_ADDR : ℕ := 0x2000
def PD0_ADDR : ℕ := 0x3000
def PT0_ADDR : ℕ := 0x4000

/-- The page that `tmpmap` maps to the physical page it is given. -/
def TMPMAP_PAGE_VADDR : ℕ := 0x7000

/-- The VGA text framebuffer. -/
def VGA_TEXT_START : ℕ := 0xB8000

/-- Where the page bitmap lies, and above it the kernel's free pages. -/
def FREE_PAGES_START : ℕ := 0x100000

/-- User space. -/
def USER_OFFSET : ℕ := 0x40000000
def USER_STACK : ℕ := 0xE0000000
