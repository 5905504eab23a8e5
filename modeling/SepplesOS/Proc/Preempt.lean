import SepplesOS.Proc.Machine

/-!
# A task interrupted inside a system call

The clock may interrupt a task while it runs kernel code on its own kernel stack.  `schedule` tests
the saved `cs` against `0x08`, which is the data selector, so the task is always resumed as if it
had been in user mode: `doTaskSwitch` pushes its frame at the top of the kernel stack, over the
frame of the system call.  The stack of the task is kept exactly when the tick does not switch
(`kernelStackKept_iff`).
-/

open WordStack

namespace Machine

/-- The running task is in a system call: it runs kernel code on the stack of the TSS, which is its
kernel stack, below the frame the CPU pushed on the way in from user code. -/
structure InSyscall (m : Machine) : Prop where
  wf : TaskManager.WellFormed m.tm
  task : m.tm.current ≠ 0
  kernel : m.cpu.cs = GDT.SS_CODE64
  top : m.tss_rsp0 = (m.tm.pList m.tm.current).kstack.rsp0
  frame : m.mem (m.tss_rsp0 - 32) % 4 = 3
  below : m.cpu.rsp ≤ m.tss_rsp0 - 40
  room : 176 ≤ m.cpu.rsp

/-- Something happens while the task `t` waits: a clock interrupt, another task exiting, or the
code of other tasks running, which leaves the saved state of `t` alone. -/
inductive Other (t : ℕ) : Machine → Machine → Prop
  | clock {m : Machine} (left : CalleeSaved) : Other t m (m.clock left)
  | exitTask {m m' : Machine} (status : ℤ) (left : CalleeSaved) :
      m.exitTask status left = some m' → Other t m m'
  | exec {m m' : Machine} : m'.tm.current = m.tm.current → m'.tm.pList t = m.tm.pList t →
      TaskManager.WellFormed m'.tm → Other t m m'

/-- A run from the end of a clock interrupt to the first moment `t` runs again. -/
inductive Resumes (t : ℕ) : Machine → Machine → Prop
  | now {m : Machine} : m.tm.current = t → Resumes t m m
  | later {m m' m'' : Machine} : m.tm.current ≠ t → Other t m m' → Resumes t m' m'' →
      Resumes t m m''

/-- The words of the task's kernel stack at or above its stack pointer are the same. -/
def KernelStackKept (m m' : Machine) : Prop :=
  ∀ a, m.cpu.rsp ≤ a → a < m.tss_rsp0 → m'.mem a = m.mem a

/-! ## Entering a system call -/

theorem length_syscallFrame (m : Machine) :
    (m.intFrame ++ [m.cpu.rax, m.cpu.rbp] ++ m.saveRegs).length = 22 := rfl

theorem inSyscall_enterSyscall {m : Machine} (wf : TaskManager.WellFormed m.tm)
    (task : m.tm.current ≠ 0) (user : m.cpu.cs % 4 = 3)
    (top : m.tss_rsp0 = (m.tm.pList m.tm.current).kstack.rsp0) (aligned : m.tss_rsp0 % 16 = 0)
    (room : 352 ≤ m.tss_rsp0) : InSyscall m.enterSyscall := by
  have hstack : m.intStack = m.tss_rsp0 := by
    rw [intStack, if_pos user, aligned, Nat.sub_zero]
  have hcs : pushAll m.mem m.tss_rsp0 (m.intFrame ++ [m.cpu.rax, m.cpu.rbp] ++ m.saveRegs)
      (m.tss_rsp0 - 8 * (3 + 1)) = m.cpu.cs :=
    pushAll_at (by rw [length_syscallFrame]; omega) rfl
  unfold enterSyscall
  rw [hstack]
  refine ⟨wf, task, rfl, top, ?_, ?_, ?_⟩
  · dsimp only
    rw [show m.tss_rsp0 - 32 = m.tss_rsp0 - 8 * (3 + 1) by omega, hcs, user]
  · show m.tss_rsp0 - 176 ≤ m.tss_rsp0 - 40
    omega
  · show 176 ≤ m.tss_rsp0 - 176
    omega

/-! ## The tick that interrupts the task -/

section Tick

variable {m : Machine} (left : CalleeSaved)

theorem InSyscall.cs_mod (h : InSyscall m) : m.cpu.cs % 4 ≠ 3 := by
  rw [h.kernel]
  decide

theorem clock_of_keepsRunning (h : InSyscall m) (keeps : m.tm.KeepsRunning) :
    (m.clock left).tm = m.tm ∧ KernelStackKept m (m.clock left) := by
  rcases clock_cases h.wf left with ⟨-, hclock⟩ | ⟨switches, -⟩
  · rw [hclock]
    refine ⟨tm_returnFrom, fun a above _ => ?_⟩
    rw [mem_returnFrom]
    exact interrupt_above h.cs_mod h.room above
  · exact absurd keeps switches

end Tick

/-! ## Waiting and being resumed -/

section Waiting

variable {m m' : Machine} {t rsp0 : ℕ}

/-- What is known of the table while the task `t` waits: its slot holds kernel code and the top of
its kernel stack. -/
structure Waits (t rsp0 : ℕ) (tm : TaskManager) : Prop where
  wf : TaskManager.WellFormed tm
  cs : (tm.pList t).regs.cs = GDT.SS_CODE64
  rsp0 : (tm.pList t).kstack.rsp0 = rsp0

/-- The task still waits, or it has just been resumed and the word of the frame with the user's
code selector holds the kernel's. -/
def WaitsOrResumed (t rsp0 : ℕ) (m : Machine) : Prop :=
  Waits t rsp0 m.tm ∧ (m.tm.current = t → m.mem (rsp0 - 32) = GDT.SS_CODE64)

/-- A switch to a task that waits in kernel code takes the user mode path: its frame is pushed at
the top of the kernel stack. -/
theorem switchToTask_waits (w : Waits t rsp0 m.tm) (room : 40 ≤ rsp0) (left : CalleeSaved) :
    (m.switchToTask t (TaskManager.resumeMode (m.tm.pList t)) left).mem (rsp0 - 32) =
      GDT.SS_CODE64 := by
  have hmode : TaskManager.resumeMode (m.tm.pList t) = .USERMODE := by
    rw [TaskManager.resumeMode, w.cs]
    rfl
  have hmem : (m.switchToTask t .USERMODE left).mem =
      pushAll m.mem rsp0 (switchFrame (m.tm.pList t)) := by
    rw [← w.rsp0]
    rfl
  rw [hmode, hmem, show rsp0 - 32 = rsp0 - 8 * (3 + 1) by omega]
  exact pushAll_at room (by rw [← w.cs]; rfl)

theorem waitsOrResumed_switch {saved : TaskManager} (w : Waits t rsp0 saved) (room : 40 ≤ rsp0)
    (mem : ℕ → ℕ) (left : CalleeSaved) :
    WaitsOrResumed t rsp0 (switchToTask { m with mem := mem, tm := saved.switchTo saved.nextPid }
      saved.nextPid (TaskManager.resumeMode (saved.pList saved.nextPid)) left) := by
  obtain ⟨hlt, hstate, -⟩ := w.wf.nextPid
  have w' : Waits t rsp0 (saved.switchTo saved.nextPid) := ⟨w.wf.switchTo hlt hstate, w.cs, w.rsp0⟩
  refine ⟨?_, fun hcur => ?_⟩
  · rw [tm_switchToTask]
    exact w'
  · rw [tm_switchToTask] at hcur
    have hnext : saved.nextPid = t := hcur
    rw [hnext] at w' ⊢
    exact switchToTask_waits (m := { m with mem := mem, tm := saved.switchTo t }) w' room left

theorem waitsOrResumed_interrupted (h : InSyscall m) (switches : ¬m.tm.KeepsRunning)
    (left : CalleeSaved) : WaitsOrResumed m.tm.current m.tss_rsp0 (m.clock left) := by
  have hstack := intStack_le h.cs_mod
  have hroom := h.room
  rcases clock_cases h.wf left with ⟨keeps, -⟩ | ⟨-, stack_ptr, saved, hptr, hsaved, heq⟩
  · exact absurd keeps switches
  · have hcs : stack_ptr 16 = GDT.SS_CODE64 := by
      rw [hptr, ← h.kernel]
      exact interrupt_frame (by omega) (by omega) rfl
    have hslot : saved.pList m.tm.current =
        TaskManager.saveProcess (m.tm.pList m.tm.current) stack_ptr m.segs m.tss_rsp0 := by
      rw [hsaved]
      exact Function.update_self _ _ _
    rw [heq]
    apply waitsOrResumed_switch _ (by have := h.below; omega)
    refine ⟨?_, ?_, ?_⟩
    · rw [hsaved]
      exact h.wf.saveCurrent _ _ _
    · rw [hslot, TaskManager.saveProcess]
      simp only [hcs]
      rfl
    · rw [hslot]
      rfl

/-- While other tasks run, the task keeps waiting until it is resumed. -/
theorem waitsOrResumed_other (w : Waits t rsp0 m.tm) (task : t ≠ 0) (room : 40 ≤ rsp0)
    (hne : m.tm.current ≠ t) (other : Other t m m') : WaitsOrResumed t rsp0 m' := by
  cases other with
  | clock left =>
    rcases clock_cases w.wf left with ⟨-, heq⟩ | ⟨-, stack_ptr, saved, -, hsaved, heq⟩
    · rw [heq, WaitsOrResumed, tm_returnFrom]
      exact ⟨w, fun h => absurd h hne⟩
    · have hslot : saved.pList t = m.tm.pList t := by
        rw [hsaved]
        exact Function.update_of_ne hne.symm _ _
      rw [heq]
      apply waitsOrResumed_switch _ room
      exact ⟨by rw [hsaved]; exact w.wf.saveCurrent _ _ _, by rw [hslot, w.cs],
        by rw [hslot, w.rsp0]⟩
  | exitTask status left h =>
    obtain ⟨hwf, hcur, hslots⟩ := exitTask_some w.wf h
    have hslot := hslots t hne.symm
    exact ⟨⟨hwf, by rw [hslot, w.cs], by rw [hslot, w.rsp0]⟩, fun h => absurd (h.symm.trans hcur) task⟩
  | exec hcur hslot hwf =>
    exact ⟨⟨hwf, by rw [hslot, w.cs], by rw [hslot, w.rsp0]⟩,
      fun h => absurd (hcur.symm.trans h) hne⟩

/-- When the task is resumed, its user frame has the kernel's code selector. -/
theorem frame_of_resumes (w : WaitsOrResumed t rsp0 m) (task : t ≠ 0) (room : 40 ≤ rsp0)
    (resumed : Resumes t m m') : m'.mem (rsp0 - 32) = GDT.SS_CODE64 := by
  induction resumed with
  | now hcur => exact w.2 hcur
  | later hne other _ ih => exact ih (waitsOrResumed_other w.1 task room hne other)

end Waiting

/-- Whatever happens between the tick that interrupts a task in a system call and the moment it runs
again, its kernel stack is kept if and only if that tick leaves it running. -/
theorem kernelStackKept_iff (m m' : Machine) (left : CalleeSaved) (inSyscall : InSyscall m)
    (resumed : Resumes m.tm.current (m.clock left) m') :
    KernelStackKept m m' ↔ m.tm.KeepsRunning := by
  have hbelow := inSyscall.below
  have hroom := inSyscall.room
  constructor
  · intro kept
    by_contra switches
    have hword := frame_of_resumes (waitsOrResumed_interrupted inSyscall switches left)
      inSyscall.task (by omega) resumed
    rw [kept _ (by omega) (by omega)] at hword
    have hframe := inSyscall.frame
    rw [hword] at hframe
    exact absurd hframe (by decide)
  · intro keeps
    obtain ⟨htm, hkept⟩ := clock_of_keepsRunning left inSyscall keeps
    cases resumed with
    | now _ => exact hkept
    | later hne _ _ => exact absurd (by rw [htm]) hne

/-! ## One task, and two -/

/-- A task that is ready, in user mode, with its kernel stack in page `0x100 + pid`. -/
def readyTask (pid : ℕ) : Process where
  regs := TaskManager.startRegs USER_STACK USER_OFFSET (PML4_ADDR * (pid + 1)) default
  kstack := { rsp0 := 0x100FF0 + 0x1000 * pid, ss0 := GDT.SS_DATA }
  pid := pid
  pml4 := PML4_ADDR * (pid + 1)
  zones := default
  bHeap := 0
  eHeap := 0
  parent := 0
  state := 1
  status := 0

/-- The kernel task and `n` ready tasks, the first of them running. -/
def readyTasks (n : ℕ) : TaskManager where
  pList i := if i ≤ n then readyTask i else default
  current := 1
  nProc := n
  schedulerEnabled := true

/-- Task `1` of `n` in a system call. -/
def inSyscallOf (n : ℕ) : Machine where
  cpu := { TaskManager.startRegs 0x101F00 0x200000 0x2000 default with cs := GDT.SS_CODE64 }
  mem a := if a = 0x101FF0 - 32 then GDT.SS_USRCODE32 else 0
  tss_rsp0 := 0x101FF0
  tm := readyTasks n

theorem wellFormed_readyTasks (n : ℕ) (hone : 1 ≤ n) : TaskManager.WellFormed (readyTasks n) := by
  refine ⟨rfl, fun i _ => ?_, (by decide : 1 < MAXPID), ?_⟩
  · show (if i ≤ n then readyTask i else default).state = 0 ∨
      ((if i ≤ n then readyTask i else default).state = 1 ∧
        (if i ≤ n then readyTask i else default).pid = i)
    split_ifs
    · exact Or.inr ⟨rfl, rfl⟩
    · exact Or.inl rfl
  · show (if 1 ≤ n then readyTask 1 else default).state = 1
    rw [if_pos hone]
    rfl

theorem inSyscall_of (n : ℕ) (hone : 1 ≤ n) : InSyscall (inSyscallOf n) where
  wf := wellFormed_readyTasks n hone
  task := one_ne_zero
  kernel := rfl
  top := by
    show _ = (if 1 ≤ n then readyTask 1 else default).kstack.rsp0
    rw [if_pos hone]
    rfl
  frame := by
    show (if 0x101FF0 - 32 = 0x101FF0 - 32 then GDT.SS_USRCODE32 else 0) % 4 = 3
    rfl
  below := (by decide : 0x101F00 ≤ 0x101FF0 - 40)
  room := (by decide : 176 ≤ 0x101F00)

/-- With one task the tick changes nothing of its kernel stack. -/
theorem kernelStackKept_one :
    KernelStackKept (inSyscallOf 1) ((inSyscallOf 1).clock ⟨0, 0, 0, 0⟩) :=
  (kernelStackKept_iff (inSyscallOf 1) _ ⟨0, 0, 0, 0⟩ (inSyscall_of 1 le_rfl)
    (.now (by decide))).2 (by decide)

/-- With two tasks the first is resumed by the second tick, with its user frame overwritten. -/
theorem not_kernelStackKept_two :
    InSyscall (inSyscallOf 2) ∧
      Resumes 1 ((inSyscallOf 2).clock ⟨0, 0, 0, 0⟩)
        (((inSyscallOf 2).clock ⟨0, 0, 0, 0⟩).clock ⟨0, 0, 0, 0⟩) ∧
      ¬KernelStackKept (inSyscallOf 2)
        (((inSyscallOf 2).clock ⟨0, 0, 0, 0⟩).clock ⟨0, 0, 0, 0⟩) := by
  refine ⟨inSyscall_of 2 (by decide), ?_, fun kept => ?_⟩
  · exact .later (by decide) (.clock _) (.now (by decide))
  · have hword := kept (0x101FF0 - 32) (by decide) (by decide)
    exact absurd hword (by decide)

end Machine
