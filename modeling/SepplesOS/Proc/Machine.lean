import SepplesOS.Lib.WordStack
import SepplesOS.Proc.TaskCount

/-!
# Interrupts and the task switch

The processor, the kernel stacks and the TSS around the task table: what the CPU pushes on an
interrupt, `SAVE_REGS` and `RESTORE_REGS` (`kernel/interruptWrapper.asm`), `switchToTask`
(`kernel/proc/process.cpp`) and `doTaskSwitch` (`kernel/proc/doSwitch.asm`).  Kernel stacks lie in
the part of memory that all page directories share, so `mem` has one word for an address.  What the
C++ code keeps on the stack below the interrupt frame is not modelled.
-/

open WordStack

/-- The processor's registers, the memory the kernel stacks lie in, `defaultTss.rsp0`, and the
variables of `TaskManager`. -/
structure Machine where
  cpu : Regs
  mem : ℕ → ℕ
  tss_rsp0 : ℕ
  tm : TaskManager

/-- What the compiled code leaves in the registers `doTaskSwitch` does not load. -/
structure CalleeSaved where
  r12 : ℕ
  r13 : ℕ
  r14 : ℕ
  r15 : ℕ

namespace Machine

variable (m : Machine)

/-! ## Interrupts -/

/-- Where the CPU starts to push: the stack of the TSS when it comes from user mode, the current
stack otherwise, aligned to 16 bytes. -/
def intStack : ℕ :=
  let rsp := if m.cpu.cs % 4 = 3 then m.tss_rsp0 else m.cpu.rsp
  rsp - rsp % 16

/-- The words the CPU pushes: `SS`, `RSP`, `RFLAGS`, `CS` and `RIP`. -/
def intFrame : List ℕ := [m.cpu.ss, m.cpu.rsp, m.cpu.eflags, m.cpu.cs, m.cpu.rip]

/-- The words pushed by `SAVE_REGS`. -/
def saveRegs : List ℕ :=
  [m.cpu.rax, m.cpu.rcx, m.cpu.rdx, m.cpu.rbx, m.cpu.rbp, m.cpu.rsi, m.cpu.rdi, m.cpu.r8,
    m.cpu.r9, m.cpu.r10, m.cpu.r11, m.cpu.r12, m.cpu.r13, m.cpu.r14, m.cpu.r15]

/-- `RESTORE_REGS` from the frame at `sp`. -/
def restoreRegs (cpu : Regs) (mem : ℕ → ℕ) (sp : ℕ) : Regs :=
  { cpu with
    r15 := mem sp
    r14 := mem (sp + 8)
    r13 := mem (sp + 16)
    r12 := mem (sp + 24)
    r11 := mem (sp + 32)
    r10 := mem (sp + 40)
    r9 := mem (sp + 48)
    r8 := mem (sp + 56)
    rdi := mem (sp + 64)
    rsi := mem (sp + 72)
    rbp := mem (sp + 80)
    rbx := mem (sp + 88)
    rdx := mem (sp + 96)
    rcx := mem (sp + 104)
    rax := mem (sp + 112) }

/-- `iretq` with the stack pointer `sp`. -/
def iretq (cpu : Regs) (mem : ℕ → ℕ) (sp : ℕ) : Regs :=
  { cpu with
    rip := mem sp
    cs := mem (sp + 8)
    eflags := mem (sp + 16)
    rsp := mem (sp + 24)
    ss := mem (sp + 32) }

/-- The memory after the CPU's pushes and `SAVE_REGS`. -/
def interruptMem : ℕ → ℕ := pushAll m.mem m.intStack (m.intFrame ++ m.saveRegs)

/-- An interrupt whose handler returns: the pushes, `RESTORE_REGS` and `iretq`. -/
def returnFrom : Machine :=
  let mem := m.interruptMem
  let sp := m.intStack - 160
  { m with mem := mem, cpu := iretq (restoreRegs m.cpu mem sp) mem (sp + 120) }

/-! ## The task switch -/

/-- The words `doTaskSwitch` pushes for its `iretq`. -/
def switchFrame (p : Process) : List ℕ :=
  [p.regs.ss, p.regs.rsp, (p.regs.eflags % 2 ^ 32 ||| 0x200) &&& 0xFFFFBFFF, p.regs.cs, p.regs.rip]

/-- `doTaskSwitch`: the `iretq` frame is pushed on the stack `krsp`, and the registers come from
`p`. -/
def doTaskSwitch (p : Process) (krsp : ℕ) (left : CalleeSaved) : Machine :=
  let mem := pushAll m.mem krsp (switchFrame p)
  let cpu :=
    { p.regs with r12 := left.r12, r13 := left.r13, r14 := left.r14, r15 := left.r15 }
  { m with mem := mem, cpu := iretq cpu mem (krsp - 40) }

/-- `switchToTask`. -/
def switchToTask (n : ℕ) (mode : Mode) (left : CalleeSaved) : Machine :=
  let m := { m with tm := m.tm.switchTo n }
  let p := m.tm.pList n
  let m := { m with tss_rsp0 := p.kstack.rsp0 }
  match mode with
  | .USERMODE => m.doTaskSwitch p p.kstack.rsp0 left
  | .KERNELMODE => m.doTaskSwitch p p.regs.rsp left

/-- The data segments of the CPU. -/
def segs : Segs := ⟨m.cpu.ds, m.cpu.es, m.cpu.fs, m.cpu.gs⟩

/-- `_asm_irq_0`: the clock interrupt, from the CPU's pushes to the last `iretq`. -/
def clock (left : CalleeSaved) : Machine :=
  let sp := m.intStack - 160
  match m.tm.schedule (fun i => m.interruptMem (sp + 8 * i)) m.segs m.tss_rsp0 with
  | (_, none) => m.returnFrom
  | (tm, some (n, mode)) => switchToTask { m with mem := m.interruptMem, tm := tm } n mode left

/-- `exitTask`, with the switch to the kernel task at its end. -/
def exitTask (status : ℤ) (left : CalleeSaved) : Option Machine :=
  match m.tm.exitTask status with
  | none => none
  | some tm => some (switchToTask { m with tm := tm } 0 .KERNELMODE left)

/-- The entry of `_asm_syscalls`, up to the call of `doSyscalls`: the CPU's pushes for `int 0x30`,
the room for the return value, `rbp`, and `SAVE_REGS`. -/
def enterSyscall : Machine :=
  { m with
    mem := pushAll m.mem m.intStack (m.intFrame ++ [m.cpu.rax, m.cpu.rbp] ++ m.saveRegs)
    cpu := { m.cpu with rsp := m.intStack - 176, cs := GDT.SS_CODE64, ss := 0 } }

/-! ## What they leave alone -/

section Frame

variable {m}

theorem length_intFrame_saveRegs : (m.intFrame ++ m.saveRegs).length = 20 := rfl

theorem intStack_le (kernel : m.cpu.cs % 4 ≠ 3) :
    m.intStack ≤ m.cpu.rsp ∧ m.cpu.rsp < m.intStack + 16 := by
  rw [intStack]
  simp only [if_neg kernel]
  omega

/-- An interrupt of kernel code pushes below the stack pointer only. -/
theorem interrupt_above (kernel : m.cpu.cs % 4 ≠ 3) (room : 176 ≤ m.cpu.rsp) {a : ℕ}
    (above : m.cpu.rsp ≤ a) :
    m.interruptMem a = m.mem a := by
  have hstack := intStack_le kernel
  apply pushAll_above
  · rw [length_intFrame_saveRegs]
    omega
  · omega

theorem interrupt_frame (room : 160 ≤ m.intStack) {i v : ℕ} (hi : i < 20)
    (hv : (m.intFrame ++ m.saveRegs)[19 - i]? = some v) :
    m.interruptMem (m.intStack - 160 + 8 * i) = v := by
  have haddr : m.intStack - 160 + 8 * i = m.intStack - 8 * (19 - i + 1) := by omega
  rw [haddr, interruptMem]
  exact pushAll_at (by rw [length_intFrame_saveRegs]; omega) hv

@[simp] theorem tm_returnFrom : m.returnFrom.tm = m.tm := by
  simp only [returnFrom]

@[simp] theorem mem_returnFrom : m.returnFrom.mem = m.interruptMem := by
  simp only [returnFrom]

@[simp] theorem cr3_returnFrom : m.returnFrom.cpu.cr3 = m.cpu.cr3 := by
  simp only [returnFrom, iretq, restoreRegs]

theorem tm_switchToTask (m : Machine) (n : ℕ) (mode : Mode) (left : CalleeSaved) :
    (m.switchToTask n mode left).tm = m.tm.switchTo n := by
  cases mode <;> rfl

theorem cr3_switchToTask (m : Machine) (n : ℕ) (mode : Mode) (left : CalleeSaved) :
    (m.switchToTask n mode left).cpu.cr3 = (m.tm.pList n).regs.cr3 := by
  cases mode <;> rfl

/-- A tick either returns to the running task or switches to the next task of the saved table. -/
theorem clock_cases (wf : TaskManager.WellFormed m.tm) (left : CalleeSaved) :
    (m.tm.KeepsRunning ∧ m.clock left = m.returnFrom) ∨
    (¬m.tm.KeepsRunning ∧ ∃ stack_ptr saved,
      stack_ptr = (fun i => m.interruptMem (m.intStack - 160 + 8 * i)) ∧
      saved = m.tm.saveCurrent stack_ptr m.segs m.tss_rsp0 ∧
      m.clock left =
        switchToTask { m with mem := m.interruptMem, tm := saved.switchTo saved.nextPid }
          saved.nextPid (TaskManager.resumeMode (saved.pList saved.nextPid)) left) := by
  obtain ⟨stack_ptr, hptr⟩ : ∃ stack_ptr : ℕ → ℕ,
      stack_ptr = fun i => m.interruptMem (m.intStack - 160 + 8 * i) := ⟨_, rfl⟩
  have hclock : m.clock left =
      match m.tm.schedule stack_ptr m.segs m.tss_rsp0 with
      | (_, none) => m.returnFrom
      | (tm, some (n, mode)) =>
        switchToTask { m with mem := m.interruptMem, tm := tm } n mode left := by
    rw [hptr]
    rfl
  rcases TaskManager.schedule_cases m.tm stack_ptr m.segs m.tss_rsp0 with
    ⟨keeps, heq⟩ | ⟨switches, p, hp, heq⟩
  · rw [heq] at hclock
    exact Or.inl ⟨keeps, hclock⟩
  · rw [heq] at hclock
    obtain ⟨-, -, hpid⟩ := (wf.saveCurrent stack_ptr m.segs m.tss_rsp0).nextPid
    rw [← hp] at hpid
    rw [hpid] at hclock
    refine Or.inr ⟨switches, stack_ptr, _, hptr, rfl, ?_⟩
    rw [hclock, hp]

/-- A task that ends is left for the kernel task; the others keep their slots. -/
theorem exitTask_some (wf : TaskManager.WellFormed m.tm) {m' : Machine} {status : ℤ} {left : CalleeSaved}
    (h : m.exitTask status left = some m') : TaskManager.WellFormed m'.tm ∧ m'.tm.current = 0 ∧
      ∀ t, t ≠ m.tm.current → m'.tm.pList t = m.tm.pList t := by
  rw [exitTask] at h
  cases hexit : m.tm.exitTask status with
  | none =>
    rw [hexit] at h
    cases h
  | some tm =>
    rw [hexit] at h
    obtain ⟨hpid, p, hstate, -, rfl⟩ := TaskManager.exitTask_cases hexit
    rw [wf.pid_current] at hpid
    have hwf := wf.exit hpid hstate (m.tm.nProc - 1)
    rw [← Option.some.inj h, tm_switchToTask]
    exact ⟨hwf.switchTo (Nat.succ_pos 63) hwf.kernel, rfl, fun t hne => Function.update_of_ne hne _ _⟩

end Frame

end Machine
