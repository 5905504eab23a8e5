import SepplesOS.Proc.Preempt

/-!
# Saving and restoring a context

A task in user mode is interrupted by the clock and loses the processor.  The pushes of the CPU and
of `SAVE_REGS`, the indices of `schedule` into that frame, and the offsets of `doTaskSwitch` into
`Process` agree: whatever runs in between, the task gets all its registers back but four.
`doTaskSwitch` has no load for `r12` to `r15`, which then hold what the code before it left there.
-/

open WordStack

namespace Machine

/-- The running task runs user code, with the registers as wide as those of the processor.  It got
the processor from `doTaskSwitch`, which loaded its page directory. -/
structure InUserMode (m : Machine) : Prop where
  wf : TaskManager.WellFormed m.tm
  task : m.tm.current ≠ 0
  user : m.cpu.cs % 4 = 3
  cs : m.cpu.cs < 2 ^ 16
  ss : m.cpu.ss < 2 ^ 16
  eflags : m.cpu.eflags < 2 ^ 32
  cr3 : m.cpu.cr3 = (m.tm.pList m.tm.current).regs.cr3
  room : 176 ≤ m.tss_rsp0

/-- A run in which other tasks have the processor, up to the switch that gives it back to `t`: a
tick, in which the compiled code leaves `left` in the registers that the switch does not load. -/
inductive SwitchedBack (t : ℕ) : Machine → CalleeSaved → Machine → Prop
  | tick {m : Machine} (left : CalleeSaved) : m.tm.current ≠ t → (m.clock left).tm.current = t →
      SwitchedBack t m left (m.clock left)
  | other {m m' m'' : Machine} {left : CalleeSaved} : m.tm.current ≠ t → Other t m m' →
      m'.tm.current ≠ t → SwitchedBack t m' left m'' → SwitchedBack t m left m''

/-- The flags a task is resumed with: `IF` is set and `NT` cleared. -/
def resumedFlags (eflags : ℕ) : ℕ := (eflags ||| 0x200) &&& 0xFFFFBFFF

/-- The registers are the same, but for `IF` and `NT`. -/
def ContextKept (cpu cpu' : Regs) : Prop :=
  cpu' = { cpu with eflags := resumedFlags cpu.eflags }

/-! ## The context in the slot -/

section Slot

variable {m m' : Machine} {t : ℕ}

/-- The slot of `t` holds the registers and the top of the kernel stack. -/
structure Holds (t : ℕ) (regs : Regs) (rsp0 : ℕ) (tm : TaskManager) : Prop where
  wf : TaskManager.WellFormed tm
  regs : (tm.pList t).regs = regs
  rsp0 : (tm.pList t).kstack.rsp0 = rsp0

theorem intStack_user (user : m.cpu.cs % 4 = 3) :
    m.intStack ≤ m.tss_rsp0 ∧ m.tss_rsp0 < m.intStack + 16 := by
  rw [intStack]
  simp only [if_pos user]
  omega

theorem InUserMode.word (h : InUserMode m) {i v : ℕ} (hi : i < 20)
    (hv : (m.intFrame ++ m.saveRegs)[19 - i]? = some v) :
    m.interruptMem (m.intStack - 160 + 8 * i) = v := by
  have hstack := intStack_user h.user
  have hroom := h.room
  exact interrupt_frame (by omega) hi hv

theorem saved_regs (h : InUserMode m) :
    (TaskManager.saveProcess (m.tm.pList m.tm.current)
      (fun i => m.interruptMem (m.intStack - 160 + 8 * i)) m.segs m.tss_rsp0).regs = m.cpu := by
  have hcs : m.interruptMem (m.intStack - 160 + 8 * 16) % 2 ^ 16 = m.cpu.cs := by
    rw [h.word (i := 16) (by omega) rfl]
    exact Nat.mod_eq_of_lt h.cs
  have hss : m.interruptMem (m.intStack - 160 + 8 * 19) % 2 ^ 16 = m.cpu.ss := by
    rw [h.word (i := 19) (by omega) rfl]
    exact Nat.mod_eq_of_lt h.ss
  have hmode : m.cpu.cs ≠ 0x08 := by
    intro heq
    have := h.user
    rw [heq] at this
    exact absurd this (by decide)
  rw [TaskManager.saveProcess]
  dsimp only
  rw [hcs, if_pos hmode, hss, ← h.cr3, h.word (i := 17) (by omega) rfl,
    h.word (i := 15) (by omega) rfl, h.word (i := 14) (by omega) rfl,
    h.word (i := 13) (by omega) rfl, h.word (i := 12) (by omega) rfl,
    h.word (i := 11) (by omega) rfl, h.word (i := 10) (by omega) rfl,
    h.word (i := 9) (by omega) rfl, h.word (i := 8) (by omega) rfl,
    h.word (i := 7) (by omega) rfl, h.word (i := 6) (by omega) rfl,
    h.word (i := 5) (by omega) rfl, h.word (i := 4) (by omega) rfl,
    h.word (i := 3) (by omega) rfl, h.word (i := 2) (by omega) rfl,
    h.word (i := 1) (by omega) rfl, h.word (i := 0) (by omega) rfl,
    h.word (i := 18) (by omega) rfl]
  rfl

/-- The tick that takes the processor from the task leaves its context in its slot. -/
theorem holds_interrupted (h : InUserMode m) (switches : ¬m.tm.KeepsRunning) (left : CalleeSaved) :
    Holds m.tm.current m.cpu m.tss_rsp0 (m.clock left).tm := by
  rcases clock_cases h.wf left with ⟨keeps, -⟩ | ⟨-, stack_ptr, saved, hptr, hsaved, heq⟩
  · exact absurd keeps switches
  · have hslot : saved.pList m.tm.current =
        TaskManager.saveProcess (m.tm.pList m.tm.current) stack_ptr m.segs m.tss_rsp0 := by
      rw [hsaved]
      exact Function.update_self _ _ _
    have hwf : TaskManager.WellFormed saved := hsaved ▸ h.wf.saveCurrent _ _ _
    obtain ⟨hlt, hstate, -⟩ := hwf.nextPid
    rw [heq, tm_switchToTask]
    refine ⟨(hwf.switchTo hlt hstate).switchTo hlt hstate, ?_, ?_⟩
    · show (saved.pList m.tm.current).regs = _
      rw [hslot, hptr]
      exact saved_regs h
    · show (saved.pList m.tm.current).kstack.rsp0 = _
      rw [hslot]
      rfl

theorem Holds.other {regs : Regs} {rsp0 : ℕ} (w : Holds t regs rsp0 m.tm)
    (hne : m.tm.current ≠ t) (other : Other t m m') : Holds t regs rsp0 m'.tm := by
  obtain ⟨hwf, hslot⟩ : TaskManager.WellFormed m'.tm ∧ m'.tm.pList t = m.tm.pList t := by
    cases other with
    | clock left =>
      rcases clock_cases w.wf left with ⟨-, heq⟩ | ⟨-, stack_ptr, saved, -, hsaved, heq⟩
      · rw [heq, tm_returnFrom]
        exact ⟨w.wf, rfl⟩
      · have hwf : TaskManager.WellFormed saved := hsaved ▸ w.wf.saveCurrent _ _ _
        obtain ⟨hlt, hstate, -⟩ := hwf.nextPid
        rw [heq, tm_switchToTask]
        refine ⟨(hwf.switchTo hlt hstate).switchTo hlt hstate, ?_⟩
        show saved.pList t = _
        rw [hsaved]
        exact Function.update_of_ne hne.symm _ _
    | exitTask status left h =>
      obtain ⟨hwf, -, hslots⟩ := exitTask_some w.wf h
      exact ⟨hwf, hslots t hne.symm⟩
    | exec hcur hslot hwf => exact ⟨hwf, hslot⟩
  exact ⟨hwf, by rw [hslot, w.regs], by rw [hslot, w.rsp0]⟩

end Slot

/-! ## The switch back -/

section Back

variable {m m' : Machine} {t rsp0 : ℕ} {regs : Regs}

/-- What `doTaskSwitch` loads of the registers of a task. -/
def loaded (regs : Regs) (left : CalleeSaved) : Regs :=
  { regs with
    eflags := resumedFlags regs.eflags
    r12 := left.r12
    r13 := left.r13
    r14 := left.r14
    r15 := left.r15 }

/-- `doTaskSwitch` pushes the frame of its `iretq` and pops it again. -/
theorem cpu_doTaskSwitch (p : Process) (left : CalleeSaved) {krsp : ℕ} (room : 40 ≤ krsp)
    (eflags : p.regs.eflags < 2 ^ 32) :
    (m.doTaskSwitch p krsp left).cpu = loaded p.regs left := by
  have hword {i v : ℕ} (hi : i < 5) (hv : (switchFrame p)[4 - i]? = some v) :
      pushAll m.mem krsp (switchFrame p) (krsp - 40 + 8 * i) = v := by
    rw [show krsp - 40 + 8 * i = krsp - 8 * (4 - i + 1) by omega]
    exact pushAll_at (show 8 * 5 ≤ krsp by omega) hv
  have hflags : pushAll m.mem krsp (switchFrame p) (krsp - 40 + 8 * 2) =
      resumedFlags p.regs.eflags := by
    rw [hword (i := 2) (by omega) rfl, Nat.mod_eq_of_lt eflags]
    rfl
  rw [doTaskSwitch, loaded]
  dsimp only
  rw [iretq]
  dsimp only
  rw [show krsp - 40 + 16 = krsp - 40 + 8 * 2 from rfl, hflags,
    show krsp - 40 = krsp - 40 + 8 * 0 from rfl, hword (i := 0) (by omega) rfl,
    show krsp - 40 + 8 * 0 + 8 = krsp - 40 + 8 * 1 from rfl, hword (i := 1) (by omega) rfl,
    show krsp - 40 + 8 * 0 + 24 = krsp - 40 + 8 * 3 from rfl, hword (i := 3) (by omega) rfl,
    show krsp - 40 + 8 * 0 + 32 = krsp - 40 + 8 * 4 from rfl, hword (i := 4) (by omega) rfl]

theorem cpu_switchedBack_tick (w : Holds t regs rsp0 m.tm) (hne : m.tm.current ≠ t)
    (user : regs.cs % 4 = 3) (eflags : regs.eflags < 2 ^ 32) (room : 40 ≤ rsp0)
    (left : CalleeSaved) (back : (m.clock left).tm.current = t) :
    (m.clock left).cpu = loaded regs left := by
  rcases clock_cases w.wf left with ⟨-, heq⟩ | ⟨-, stack_ptr, saved, -, hsaved, heq⟩
  · rw [heq, tm_returnFrom] at back
    exact absurd back hne
  · have hslot : saved.pList t = m.tm.pList t := by
      rw [hsaved]
      exact Function.update_of_ne hne.symm _ _
    rw [heq, tm_switchToTask] at back
    have hnext : saved.nextPid = t := back
    have hregs : (saved.pList t).regs = regs := by rw [hslot, w.regs]
    have hmode : TaskManager.resumeMode (saved.pList t) = .USERMODE := by
      rw [TaskManager.resumeMode, hregs, if_neg]
      intro hkernel
      rw [hkernel] at user
      exact absurd user (by decide)
    rw [heq, hnext, hmode, ← hregs]
    apply cpu_doTaskSwitch
    · show 40 ≤ (saved.pList t).kstack.rsp0
      rwa [hslot, w.rsp0]
    · show (saved.pList t).regs.eflags < 2 ^ 32
      rwa [hregs]

/-- However long the other tasks run, the registers are loaded from the slot in the end. -/
theorem cpu_switchedBack (w : Holds t regs rsp0 m.tm) (user : regs.cs % 4 = 3)
    (eflags : regs.eflags < 2 ^ 32) (room : 40 ≤ rsp0) {left : CalleeSaved}
    (back : SwitchedBack t m left m') : m'.cpu = loaded regs left := by
  induction back with
  | tick left hne hcur => exact cpu_switchedBack_tick w hne user eflags room left hcur
  | other hne other _ _ ih => exact ih (w.other hne other)

end Back

theorem cpu_returnFrom {m : Machine} (h : InUserMode m) : m.returnFrom.cpu = m.cpu := by
  have hword (k i : ℕ) {v : ℕ} (hi : i < 20) (hk : k = 8 * i)
      (hv : (m.intFrame ++ m.saveRegs)[19 - i]? = some v) :
      m.interruptMem (m.intStack - 160 + k) = v := hk ▸ h.word hi hv
  have hlow := hword 0 0 (v := m.cpu.r15) (by decide) rfl rfl
  rw [Nat.add_zero] at hlow
  unfold returnFrom iretq restoreRegs
  simp only [Nat.add_assoc, Nat.reduceAdd, hlow, hword 8 1 (by decide) rfl rfl,
    hword 16 2 (by decide) rfl rfl, hword 24 3 (by decide) rfl rfl, hword 32 4 (by decide) rfl rfl,
    hword 40 5 (by decide) rfl rfl, hword 48 6 (by decide) rfl rfl, hword 56 7 (by decide) rfl rfl,
    hword 64 8 (by decide) rfl rfl, hword 72 9 (by decide) rfl rfl, hword 80 10 (by decide) rfl rfl,
    hword 88 11 (by decide) rfl rfl, hword 96 12 (by decide) rfl rfl,
    hword 104 13 (by decide) rfl rfl, hword 112 14 (by decide) rfl rfl,
    hword 120 15 (by decide) rfl rfl, hword 128 16 (by decide) rfl rfl,
    hword 136 17 (by decide) rfl rfl, hword 144 18 (by decide) rfl rfl,
    hword 152 19 (by decide) rfl rfl]

/-- A task that was interrupted in user mode and lost the processor gets its context back if and
only if the code before `doTaskSwitch` happens to leave the task's values in `r12` to `r15`. -/
theorem contextKept_iff (m m' : Machine) (left₀ left : CalleeSaved) (inUser : InUserMode m)
    (switches : ¬m.tm.KeepsRunning) (back : SwitchedBack m.tm.current (m.clock left₀) left m') :
    ContextKept m.cpu m'.cpu ↔ left = ⟨m.cpu.r12, m.cpu.r13, m.cpu.r14, m.cpu.r15⟩ := by
  have hroom := inUser.room
  rw [ContextKept, cpu_switchedBack (holds_interrupted inUser switches left₀) inUser.user
    inUser.eflags (by omega) back]
  constructor
  · intro heq
    have h₁₂ : left.r12 = m.cpu.r12 := congrArg Regs.r12 heq
    have h₁₃ : left.r13 = m.cpu.r13 := congrArg Regs.r13 heq
    have h₁₄ : left.r14 = m.cpu.r14 := congrArg Regs.r14 heq
    have h₁₅ : left.r15 = m.cpu.r15 := congrArg Regs.r15 heq
    rw [← h₁₂, ← h₁₃, ← h₁₄, ← h₁₅]
  · rintro rfl
    rfl

/-- Task `1` of two in user mode, with a value in `r12`. -/
def inUserOfTwo : Machine where
  cpu := { TaskManager.startRegs USER_STACK USER_OFFSET 0x2000 default with r12 := 1 }
  mem _ := 0
  tss_rsp0 := 0x101FF0
  tm := readyTasks 2

theorem inUserMode_ofTwo : InUserMode inUserOfTwo where
  wf := wellFormed_readyTasks 2 (by decide)
  task := one_ne_zero
  user := by decide
  cs := by decide
  ss := by decide
  eflags := by decide
  cr3 := by decide
  room := by decide

theorem switchedBack_ofTwo (left : CalleeSaved) :
    SwitchedBack 1 (inUserOfTwo.clock ⟨0, 0, 0, 0⟩) left
      ((inUserOfTwo.clock ⟨0, 0, 0, 0⟩).clock left) :=
  .tick left (by decide) rfl

/-- With the right values left, the context is kept. -/
theorem contextKept_ofTwo :
    ContextKept inUserOfTwo.cpu ((inUserOfTwo.clock ⟨0, 0, 0, 0⟩).clock ⟨1, 0, 0, 0⟩).cpu :=
  (contextKept_iff inUserOfTwo _ ⟨0, 0, 0, 0⟩ ⟨1, 0, 0, 0⟩ inUserMode_ofTwo (by decide)
    (switchedBack_ofTwo _)).2 rfl

/-- With another value left, `r12` is lost. -/
theorem not_contextKept_ofTwo : ¬∀ (m m' : Machine) (left₀ left : CalleeSaved), InUserMode m →
    ¬m.tm.KeepsRunning → SwitchedBack m.tm.current (m.clock left₀) left m' →
      ContextKept m.cpu m'.cpu := by
  intro h
  have back := switchedBack_ofTwo ⟨0, 0, 0, 0⟩
  have kept := h inUserOfTwo _ ⟨0, 0, 0, 0⟩ ⟨0, 0, 0, 0⟩ inUserMode_ofTwo (by decide) back
  have holds := holds_interrupted inUserMode_ofTwo (by decide) ⟨0, 0, 0, 0⟩
  have hcpu := cpu_switchedBack holds (by decide) (by decide) (by decide) back
  rw [ContextKept, hcpu] at kept
  exact absurd (congrArg Regs.r12 kept) (by decide)

end Machine
