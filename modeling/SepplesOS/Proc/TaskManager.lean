import SepplesOS.Lib.CString
import SepplesOS.Proc.Elf

/-!
# The task table

`TaskManager` (`kernel/proc/process.cpp`): the table of processes, the counter `nProc`, and the
operations on them.  A pointer into `pList` is its index.  `schedule` is given the frame the clock
interrupt saved on the stack and returns the switch it asks for; the switch itself is
`SepplesOS.Proc.Machine`.
-/

/-- `MAXPID`: the slots of tasks are `1` to `MAXPID - 1`. -/
def MAXPID : ℕ := 64

/-! ## The selectors of `GDT` -/

namespace GDT

def SS_DATA : ℕ := 8 * 1
def SS_CODE64 : ℕ := 8 * 2
def SS_USRDATA : ℕ := 8 * 6 + 0b11
def SS_USRSTACK : ℕ := 8 * 7 + 0b11
def SS_USRCODE32 : ℕ := 8 * 9 + 0b11

end GDT

/-- `Process::regs`. -/
structure Regs where
  rax : ℕ
  rcx : ℕ
  rdx : ℕ
  rbx : ℕ
  rsp : ℕ
  rbp : ℕ
  rsi : ℕ
  rdi : ℕ
  r8 : ℕ
  r9 : ℕ
  r10 : ℕ
  r11 : ℕ
  r12 : ℕ
  r13 : ℕ
  r14 : ℕ
  r15 : ℕ
  rip : ℕ
  eflags : ℕ
  cs : ℕ
  ss : ℕ
  ds : ℕ
  es : ℕ
  fs : ℕ
  gs : ℕ
  cr3 : ℕ
  deriving Inhabited

/-- `Process::kstack`. -/
structure KStack where
  rsp0 : ℕ
  ss0 : ℕ
  deriving Inhabited

/-- `Process`. -/
structure Process where
  regs : Regs
  kstack : KStack
  pid : ℕ
  pml4 : ℕ
  zones : Elf.Zones
  bHeap : ℕ
  eHeap : ℕ
  parent : ℕ
  state : ℤ
  status : ℤ
  deriving Inhabited

/-- The variables of `namespace TaskManager`. -/
structure TaskManager where
  pList : ℕ → Process
  current : ℕ
  nProc : ℤ
  schedulerEnabled : Bool

/-- The data segment registers at the time of a clock interrupt. -/
structure Segs where
  ds : ℕ
  es : ℕ
  fs : ℕ
  gs : ℕ

/-- The `mode` of `switchToTask`. -/
inductive Mode
  | KERNELMODE
  | USERMODE
  deriving DecidableEq

namespace TaskManager

/-- Replaces one slot of `pList`. -/
def setProc (tm : TaskManager) (pid : ℕ) (p : Process) : TaskManager :=
  { tm with pList := Function.update tm.pList pid p }

/-- `init`; `fresh` is what `new Process[MAXPID + 1]` left in the slots, of which the constructor
only sets `state`. -/
def init (fresh : ℕ → Process) (ss : ℕ) : TaskManager :=
  let pList i := { fresh i with state := 0 }
  let kernel : Process :=
    { pList 0 with
      pid := 0
      state := 1
      regs := { (pList 0).regs with cr3 := PML4_ADDR, ss := ss % 2 ^ 16 }
      parent := 0 }
  { pList := Function.update pList 0 kernel
    current := 0
    nProc := 0
    schedulerEnabled := true }

/-- `while (pList[pid].state != 0 && pid++ < MAXPID);` -/
def freeSlot (pList : ℕ → Process) : ℕ → ℕ → ℕ
  | 0, pid => pid
  | n + 1, pid =>
    if (pList pid).state ≠ 0 then
      if pid < MAXPID then freeSlot pList n (pid + 1) else pid + 1
    else pid

/-- The user stack pointer of a new task, below the arguments of `main`. -/
def userStackp (argv : List CString) : ℕ :=
  let stackp := USER_STACK - 16
  if argv.length = 0 then stackp
  else
    let stackp := argv.foldl (fun stackp arg => stackp - (arg.bytes.length + 1)) stackp
    let stackp := stackp &&& 0xFFFFFFF0
    -- the null pointer, the pointers of `argv`, `argv`, `argc` and a return address
    stackp - 8 * (argv.length + 4)

/-- The registers a new task starts with. -/
def startRegs (stackp eEntry pml4 : ℕ) (regs : Regs) : Regs :=
  { regs with
    ss := GDT.SS_USRSTACK
    rsp := stackp
    eflags := 0
    cs := GDT.SS_USRCODE32
    rip := eEntry
    ds := GDT.SS_USRDATA
    es := GDT.SS_USRDATA
    fs := GDT.SS_USRDATA
    gs := GDT.SS_USRDATA
    cr3 := pml4
    rax := 0
    rcx := 0
    rdx := 0
    rbx := 0
    rbp := 0
    rsi := 0
    rdi := 0 }

/-- The rest of `loadTask` once the slot `pid` is found: the pid it returns, `0` when `loadElf`
rejects the file, and the new state.  Between the two changes of address space `current` is the new
task; it is the old one again at the end. -/
def loadInto (tm : TaskManager) (pid : ℕ) (file : Buf) (argv : List CString) (pml4 kstack : ℕ) :
    ℕ × TaskManager :=
  let tm := { tm with nProc := tm.nProc + 1 }
  let p := { tm.pList pid with pid := pid, pml4 := pml4 }
  let (eEntry, zones) := Elf.loadElf file p.zones
  let p := { p with zones := zones }
  if eEntry = 0 then (0, tm.setProc pid p)
  else
    let bHeap := (p.zones.eBss &&& 0xFFFFF000) + PAGESIZE
    (pid, tm.setProc pid
      { p with
        regs := startRegs (userStackp argv) eEntry pml4 p.regs
        kstack := { ss0 := GDT.SS_DATA, rsp0 := kstack + PAGESIZE - 16 }
        bHeap := bHeap
        eHeap := bHeap
        parent := if (tm.pList tm.current).state ≠ 0 then tm.current else 0
        state := 1 })

/-- `loadTask`.  `pml4` and `kstack` are the page directory and the page that `Paging` hands
out. -/
def loadTask (tm : TaskManager) (node : Option Buf) (argv : List CString) (pml4 kstack : ℕ) :
    ℕ × TaskManager :=
  match node with
  | none => (0, tm)
  | some file =>
    let pid := freeSlot tm.pList MAXPID 1
    if pid ≥ MAXPID then (0, tm)
    else tm.loadInto pid file argv pml4 kstack

/-- `switchToTask` as the table sees it: the new current task. -/
def switchTo (tm : TaskManager) (n : ℕ) : TaskManager := { tm with current := n }

/-- `exitTask`; `none` when the kernel task is terminated, which halts the machine. -/
def exitTask (tm : TaskManager) (status : ℤ) : Option TaskManager :=
  if (tm.pList tm.current).pid = 0 then none
  else
    let tm := { tm with nProc := tm.nProc - 1 }
    let tm := tm.setProc tm.current { tm.pList tm.current with state := -1, status := status }
    let tm := tm.setProc tm.current { tm.pList tm.current with state := 0 }
    some (tm.switchTo 0)

/-- `for (i = first; i < last && newpid == 0; i++) if (pList[i].state == 1) newpid = i;` with `n`
rounds to go. -/
def firstReady (pList : ℕ → Process) : ℕ → ℕ → ℕ
  | 0, _ => 0
  | n + 1, i => if (pList i).state = 1 then i else firstReady pList n (i + 1)

/-- The round robin of `schedule`. -/
def nextPid (tm : TaskManager) : ℕ :=
  let pid := (tm.pList tm.current).pid
  let newpid := firstReady tm.pList (MAXPID - (pid + 1)) (pid + 1)
  if newpid = 0 then firstReady tm.pList (pid - 1) 1 else newpid

/-- What `schedule` saves of the task it takes the processor from: its registers, from the frame at
`stack_ptr`, and the kernel stack of the TSS. -/
def saveProcess (p : Process) (stack_ptr : ℕ → ℕ) (segs : Segs) (rsp0 : ℕ) : Process :=
  let cs := stack_ptr 16 % 2 ^ 16
  { p with
    regs :=
      { eflags := stack_ptr 17
        cs := cs
        rip := stack_ptr 15
        rax := stack_ptr 14
        rcx := stack_ptr 13
        rdx := stack_ptr 12
        rbx := stack_ptr 11
        rbp := stack_ptr 10
        rsi := stack_ptr 9
        rdi := stack_ptr 8
        r8 := stack_ptr 7
        r9 := stack_ptr 6
        r10 := stack_ptr 5
        r11 := stack_ptr 4
        r12 := stack_ptr 3
        r13 := stack_ptr 2
        r14 := stack_ptr 1
        r15 := stack_ptr 0
        ds := segs.ds
        es := segs.es
        fs := segs.fs
        gs := segs.gs
        rsp := stack_ptr 18
        ss := if cs ≠ 0x08 then stack_ptr 19 % 2 ^ 16 else GDT.SS_DATA
        cr3 := p.regs.cr3 }
    kstack := { ss0 := GDT.SS_DATA, rsp0 := rsp0 } }

/-- The tick leaves the running task alone: the scheduler is off, there is no task, or the only
task is the running one. -/
def KeepsRunning (tm : TaskManager) : Prop :=
  tm.schedulerEnabled = false ∨ tm.nProc = 0 ∨ (tm.nProc = 1 ∧ (tm.pList tm.current).pid ≠ 0)

instance (tm : TaskManager) : Decidable tm.KeepsRunning := inferInstanceAs (Decidable (_ ∨ _))

/-- `schedule`: the table after it, and the arguments of `switchToTask` when it switches. -/
def schedule (tm : TaskManager) (stack_ptr : ℕ → ℕ) (segs : Segs) (rsp0 : ℕ) :
    TaskManager × Option (ℕ × Mode) :=
  if tm.KeepsRunning then (tm, none)
  else
    let tm := tm.setProc tm.current (saveProcess (tm.pList tm.current) stack_ptr segs rsp0)
    let p := tm.pList tm.nextPid
    let mode : Mode := if p.regs.cs = 0x08 then .KERNELMODE else .USERMODE
    (tm.switchTo p.pid, some (p.pid, mode))

end TaskManager
