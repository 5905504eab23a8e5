import SepplesOS.Proc.Preempt

/-!
# Keyboard requests

`Keyboard::nget` leaves the user's pointer in a global, and the keyboard interrupt stores through it
(`kernel/keyboard.cpp`) under whatever page directory is loaded when the key arrives.  User memory is
one map of bytes for each page directory.  A store outside user space, or with the kernel task
running, is a page fault that `isr_exc_PF` does not serve: the handler then never returns.

The lock of `nget` is a plain test and set, so the request is taken in steps, and another task may
be between its test and its set when the first one's request is complete.
-/

/-- The variables of `Keyboard`; `logInput` only concerns the screen. -/
structure Keyboard where
  ilock : Bool
  ubuf : ℕ
  pos : UInt32
  stop : ℤ

namespace Keyboard

/-- `unlock`. -/
def unlock (_kb : Keyboard) : Keyboard where
  ilock := false
  ubuf := 0
  pos := 0
  stop := -2

/-- The part common to `scan` and `nget` in `input`: the new position, and the bytes stored. -/
def typed (kb : Keyboard) (c : UInt8) : Keyboard × List (ℕ × UInt8) :=
  if c = 8 then
    if kb.pos ≠ 0 then ({ kb with pos := kb.pos - 1 }, []) else (kb, [(kb.ubuf, 0)])
  else
    let pos := kb.pos + 1
    ({ kb with pos := pos }, [(kb.ubuf + kb.pos.toNat, c), (kb.ubuf + pos.toNat, 0)])

/-- `input`: the new state and the bytes stored through `ubuf`, in order. -/
def input (kb : Keyboard) (c : UInt8) : Keyboard × List (ℕ × UInt8) :=
  if kb.ilock ∧ kb.ubuf ≠ 0 ∧ kb.stop ≠ -2 then
    if kb.stop < 0 then
      let (kb, stores) := kb.typed c
      if c = 10 ∨ c = 13 then (kb.unlock, stores) else (kb, stores)
    else if kb.stop = 0 then (kb.unlock, [])
    else
      let (kb, stores) := kb.typed c
      let stop := kb.stop - 1
      let stop := if c = 10 ∨ c = 13 then 0 else stop
      if stop = 0 then (kb.unlock, stores) else ({ kb with stop := stop }, stores)
  else (kb, [])

/-- The conversion of the `unsigned` argument of `nget` to the `int` `stop`. -/
def toStop (n : ℕ) : ℤ := if n % 2 ^ 32 < 2 ^ 31 then n % 2 ^ 32 else n % 2 ^ 32 - 2 ^ 32

end Keyboard

/-- How far a task is in `Keyboard::nget`: about to test the lock, past the test and about to write
one of the globals, or in the loop that waits for the end of the request. -/
inductive NgetPc
  | idle
  | test (buf n : ℕ)
  | setLock (buf n : ℕ)
  | setUbuf (buf n : ℕ)
  | setPos (n : ℕ)
  | setStop (n : ℕ)
  | wait

/-- The next step of the task writes a global of `Keyboard`. -/
def NgetPc.Writes : NgetPc → Prop
  | .setLock _ _ | .setUbuf _ _ | .setPos _ | .setStop _ => True
  | _ => False

/-- A byte stored, and the page directory it was stored under. -/
structure Store where
  dir : ℕ
  addr : ℕ
  byte : UInt8

/-- One byte stored in user memory. -/
def writeByte (umem : ℕ → ℕ → UInt8) (st : Store) : ℕ → ℕ → UInt8 :=
  Function.update umem st.dir (Function.update (umem st.dir) st.addr st.byte)

/-- The machine with its keyboard, the user memory of each page directory, and where each task is
in `nget`. -/
structure System where
  m : Machine
  kb : Keyboard
  umem : ℕ → ℕ → UInt8
  nget : ℕ → NgetPc

/-- What happens next: a clock or a keyboard interrupt, a system call `nget` of the running task,
the next step of `nget` in it, or a store of its own. -/
inductive Event
  | clock (left : CalleeSaved)
  | key (c : UInt8)
  | sysNget (arg1 arg2 : ℕ)
  | advance
  | store (addr : ℕ) (byte : UInt8)

/-- `isUserPtrValid`. -/
def isUserPtrValid (ptr : ℕ) : Bool := decide (USER_OFFSET ≤ ptr ∧ ptr ≤ USER_STACK)

namespace System

section Model

variable (s : System)

/-- The running task. -/
def current : ℕ := s.m.tm.current

/-- The page directory that is loaded. -/
def cr3 : ℕ := s.m.cpu.cr3

/-- The page directory of a task. -/
def dirOf (A : ℕ) : ℕ := (s.m.tm.pList A).regs.cr3

/-- A store by the running task goes through: its page is there, or the page fault handler maps
it. -/
def Served (addr : ℕ) : Prop :=
  s.current ≠ 0 ∧ USER_OFFSET ≤ addr ∧ addr < USER_STACK

instance (addr : ℕ) : Decidable (s.Served addr) := inferInstanceAs (Decidable (_ ∧ _))

/-- The bytes `Keyboard::input` is about to store. -/
def planned (c : UInt8) : List (ℕ × UInt8) := (s.kb.input c).2

/-- The bytes it does store: all up to the first page fault that is not served. -/
def performed (c : UInt8) : List Store :=
  ((s.planned c).takeWhile fun st => s.Served st.1).map fun st => ⟨s.cr3, st.1, st.2⟩

/-- User memory after them. -/
def umemAfter (c : UInt8) : ℕ → ℕ → UInt8 := (s.performed c).foldl writeByte s.umem

/-- `_asm_irq_1`: the keyboard interrupt; `none` when its handler does not return. -/
def key (c : UInt8) : Option System :=
  if ∀ st ∈ s.planned c, s.Served st.1 then
    some { s with m := s.m.returnFrom, kb := (s.kb.input c).1, umem := s.umemAfter c }
  else none

/-- The system call `nget` of `doSyscalls`, up to the call of `Keyboard::nget`. -/
def sysNget (arg1 arg2 : ℕ) : System :=
  match s.nget s.current with
  | .idle =>
    if s.current ≠ 0 ∧ isUserPtrValid arg1 ∧ isUserPtrValid ((arg1 + arg2) % 2 ^ 64) then
      { s with nget := Function.update s.nget s.current (.test arg1 (arg2 % 2 ^ 32)) }
    else s
  | _ => s

/-- The next step of `Keyboard::nget` in the running task. -/
def advance : System :=
  let goto pc := Function.update s.nget s.current pc
  match s.nget s.current with
  | .idle => s
  | .test buf n => if s.kb.ilock then s else { s with nget := goto (.setLock buf n) }
  | .setLock buf n =>
    { s with kb := { s.kb with ilock := true }, nget := goto (.setUbuf buf n) }
  | .setUbuf buf n => { s with kb := { s.kb with ubuf := buf }, nget := goto (.setPos n) }
  | .setPos n => { s with kb := { s.kb with pos := 0 }, nget := goto (.setStop n) }
  | .setStop n => { s with kb := { s.kb with stop := Keyboard.toStop n }, nget := goto .wait }
  | .wait => if s.kb.ilock then s else { s with nget := goto .idle }

/-- One event; `none` when it ends the running task or the machine. -/
def step : Event → Option System
  | .clock left => some { s with m := s.m.clock left }
  | .key c => s.key c
  | .sysNget arg1 arg2 => some (s.sysNget arg1 arg2)
  | .advance => some s.advance
  | .store addr byte =>
    if s.Served addr then some { s with umem := writeByte s.umem ⟨s.cr3, addr, byte⟩ } else none

/-- `P` holds of every event of the sequence, up to the one that ends the request. -/
def Along (P : System → Event → Prop) : System → List Event → Prop
  | _, [] => True
  | s, e :: es => P s e ∧ ∀ s', s.step e = some s' → s'.kb.ilock = true → Along P s' es

end Model

/-! ## What a request is promised -/

section Promise

variable (A : ℕ)

/-- A keystroke is delivered to `A`: what is stored is stored in the address space of `A`, no other
user memory changes, and the byte of the keystroke itself is stored. -/
structure Delivered (s : System) (c : UInt8) : Prop where
  dir : ∀ st ∈ s.performed c, st.dir = s.dirOf A
  others : ∀ d, d ≠ s.dirOf A → s.umemAfter c d = s.umem d
  received : ∀ st ∈ (s.planned c).head?, ⟨s.dirOf A, st.1, st.2⟩ ∈ s.performed c

/-- An event that is a keystroke delivers it to `A`. -/
def KeyDelivered (s : System) (e : Event) : Prop := ∀ c, e = .key c → Delivered A s c

/-- A keystroke with a byte to store arrives while `A` runs, and its address lies in user space. -/
def KeyWhileRunning (s : System) (e : Event) : Prop :=
  ∀ c, e = .key c → ∀ st ∈ (s.planned c).head?, s.current = A ∧ st.1 < USER_STACK

/-- A task other than `A` is past its test of the lock and writes a global of `Keyboard`. -/
def Disturbs (s : System) (e : Event) : Prop :=
  e = .advance ∧ s.current ≠ A ∧ (s.nget s.current).Writes

/-- Every task has its own page directory. -/
def OwnDirs (tm : TaskManager) : Prop :=
  ∀ i < MAXPID, ∀ j < MAXPID, (tm.pList i).state ≠ 0 → (tm.pList j).state ≠ 0 →
    (tm.pList i).regs.cr3 = (tm.pList j).regs.cr3 → i = j

/-- The request of `A` for the buffer `buf` is pending: `A` is in its waiting loop and the globals
are the ones it wrote.  The page directory that is loaded is the running task's. -/
structure Pending (buf : ℕ) (s : System) : Prop where
  wf : TaskManager.WellFormed s.m.tm
  dirs : OwnDirs s.m.tm
  loaded : s.cr3 = s.dirOf s.current
  task : A ≠ 0
  lt : A < MAXPID
  live : (s.m.tm.pList A).state = 1
  waits : s.nget A = .wait
  lock : s.kb.ilock = true
  ubuf : s.kb.ubuf = buf
  valid : USER_OFFSET ≤ buf

end Promise

/-! ## The handler -/

section Handler

theorem typed_spec (kb : Keyboard) (c : UInt8) :
    (kb.typed c).1.ilock = kb.ilock ∧ (kb.typed c).1.ubuf = kb.ubuf ∧
      ∀ st ∈ (kb.typed c).2, kb.ubuf ≤ st.1 := by
  rw [Keyboard.typed]
  split_ifs
  · exact ⟨rfl, rfl, by simp⟩
  · exact ⟨rfl, rfl, by simp⟩
  · exact ⟨rfl, rfl, by simp⟩

theorem input_spec (kb : Keyboard) (c : UInt8) :
    ((kb.input c).1.ilock = false ∨
      ((kb.input c).1.ilock = kb.ilock ∧ (kb.input c).1.ubuf = kb.ubuf)) ∧
      ∀ st ∈ (kb.input c).2, kb.ubuf ≤ st.1 := by
  have htyped := typed_spec kb c
  rw [Keyboard.input]
  generalize kb.typed c = typed at htyped
  obtain ⟨kb', stores⟩ := typed
  obtain ⟨hlock, hubuf, hstores⟩ := htyped
  dsimp only at hlock hubuf hstores ⊢
  by_cases hactive : kb.ilock = true ∧ kb.ubuf ≠ 0 ∧ kb.stop ≠ -2
  · rw [if_pos hactive]
    by_cases hscan : kb.stop < 0
    · rw [if_pos hscan]
      split_ifs
      · exact ⟨Or.inl rfl, hstores⟩
      · exact ⟨Or.inr ⟨hlock, hubuf⟩, hstores⟩
    · rw [if_neg hscan]
      by_cases hend : kb.stop = 0
      · rw [if_pos hend]
        exact ⟨Or.inl rfl, by simp⟩
      · rw [if_neg hend]
        generalize (if c = 10 ∨ c = 13 then (0 : ℤ) else kb'.stop - 1) = stop
        split_ifs
        · exact ⟨Or.inl rfl, hstores⟩
        · exact ⟨Or.inr ⟨hlock, hubuf⟩, hstores⟩
  · rw [if_neg hactive]
    exact ⟨Or.inr ⟨rfl, rfl⟩, by simp⟩

end Handler

/-! ## Requests stay pending -/

section Steps

variable {A buf : ℕ} {s s' : System}

theorem saveCurrent_cr3 (tm : TaskManager) (stack_ptr : ℕ → ℕ) (segs : Segs) (rsp0 i : ℕ) :
    ((tm.saveCurrent stack_ptr segs rsp0).pList i).regs.cr3 = (tm.pList i).regs.cr3 := by
  by_cases h : i = tm.current
  · subst h
    simp [TaskManager.saveCurrent, TaskManager.setProc, TaskManager.saveProcess]
  · simp [TaskManager.saveCurrent, TaskManager.setProc, Function.update_of_ne h]

/-- A tick leaves the states and the page directories of all tasks alone, and the directory that is
loaded is the one of the task that runs. -/
theorem clock_spec {m : Machine} (wf : TaskManager.WellFormed m.tm)
    (loaded : m.cpu.cr3 = (m.tm.pList m.tm.current).regs.cr3) (left : CalleeSaved) :
    TaskManager.WellFormed (m.clock left).tm ∧
      (m.clock left).cpu.cr3 =
        ((m.clock left).tm.pList (m.clock left).tm.current).regs.cr3 ∧
      ∀ i, ((m.clock left).tm.pList i).state = (m.tm.pList i).state ∧
        ((m.clock left).tm.pList i).regs.cr3 = (m.tm.pList i).regs.cr3 := by
  rcases Machine.clock_cases wf left with ⟨-, heq⟩ | ⟨-, stack_ptr, saved, -, hsaved, heq⟩
  · rw [heq, Machine.tm_returnFrom, Machine.cr3_returnFrom]
    exact ⟨wf, loaded, fun i => ⟨rfl, rfl⟩⟩
  · have wfsaved : TaskManager.WellFormed saved := by
      rw [hsaved]
      exact wf.saveCurrent _ _ _
    obtain ⟨hlt, hstate, -⟩ := wfsaved.nextPid
    rw [heq, Machine.tm_switchToTask, Machine.cr3_switchToTask]
    refine ⟨(wfsaved.switchTo hlt hstate).switchTo hlt hstate, rfl, fun i => ⟨?_, ?_⟩⟩
    · show (saved.pList i).state = _
      rw [hsaved]
      exact (TaskManager.saveCurrent_slot m.tm _ _ _ i).1
    · show (saved.pList i).regs.cr3 = _
      rw [hsaved]
      exact saveCurrent_cr3 m.tm _ _ _ i

theorem OwnDirs.congr {tm tm' : TaskManager} (own : OwnDirs tm)
    (h : ∀ i, (tm'.pList i).state = (tm.pList i).state ∧
      (tm'.pList i).regs.cr3 = (tm.pList i).regs.cr3) : OwnDirs tm' := by
  intro i hi j hj hsi hsj heq
  rw [(h i).1] at hsi
  rw [(h j).1] at hsj
  rw [(h i).2, (h j).2] at heq
  exact own i hi j hj hsi hsj heq

theorem not_disturbs {e : Event} (h : e ≠ .advance) : ¬Disturbs A s e := fun d => h d.1

/-- The steps of `nget` in tasks that do not write the globals change nothing while the request is
pending. -/
theorem advance_of_pending (pending : Pending A buf s) (quiet : ¬Disturbs A s .advance) :
    s.advance = s := by
  unfold advance
  dsimp only
  by_cases hcur : s.current = A
  · rw [hcur, pending.waits]
    simp [pending.lock]
  · cases hpc : s.nget s.current with
    | idle => rfl
    | test buf n => simp [pending.lock]
    | wait => simp [pending.lock]
    | setLock buf n => exact absurd ⟨rfl, hcur, by rw [hpc]; trivial⟩ quiet
    | setUbuf buf n => exact absurd ⟨rfl, hcur, by rw [hpc]; trivial⟩ quiet
    | setPos n => exact absurd ⟨rfl, hcur, by rw [hpc]; trivial⟩ quiet
    | setStop n => exact absurd ⟨rfl, hcur, by rw [hpc]; trivial⟩ quiet

theorem nget_sysNget (waits : s.nget A = .wait) (arg1 arg2 : ℕ) :
    (s.sysNget arg1 arg2).nget A = .wait ∧ (s.sysNget arg1 arg2).m = s.m ∧
      (s.sysNget arg1 arg2).kb = s.kb := by
  unfold sysNget
  split
  · rename_i hidle
    have hne : A ≠ s.current := by
      rintro rfl
      rw [waits] at hidle
      cases hidle
    split_ifs
    · exact ⟨by rw [← waits]; exact Function.update_of_ne hne _ _, rfl, rfl⟩
    · exact ⟨waits, rfl, rfl⟩
  · exact ⟨waits, rfl, rfl⟩

/-- The request stays pending over every event that neither ends it nor lets another task write the
globals. -/
theorem Pending.step (pending : Pending A buf s) {e : Event} (quiet : ¬Disturbs A s e)
    (h : s.step e = some s') (lock : s'.kb.ilock = true) : Pending A buf s' := by
  cases e with
  | clock left =>
    cases h
    obtain ⟨wf, loaded, hslot⟩ := clock_spec pending.wf pending.loaded left
    exact ⟨wf, pending.dirs.congr hslot, loaded, pending.task, pending.lt,
      (hslot A).1.trans pending.live, pending.waits, lock, pending.ubuf, pending.valid⟩
  | key c =>
    have htm := Machine.tm_returnFrom (m := s.m)
    have hcr3 := Machine.cr3_returnFrom (m := s.m)
    rw [System.step, key] at h
    split_ifs at h
    generalize s.m.returnFrom = m' at h htm hcr3
    cases h
    have hubuf : (s.kb.input c).1.ubuf = s.kb.ubuf := by
      rcases (input_spec s.kb c).1 with hunlock | ⟨-, hubuf⟩
      · rw [show (s.kb.input c).1.ilock = true from lock] at hunlock
        cases hunlock
      · exact hubuf
    refine ⟨?_, ?_, ?_, pending.task, pending.lt, ?_, pending.waits, lock,
      hubuf.trans pending.ubuf, pending.valid⟩
    · show TaskManager.WellFormed m'.tm
      rw [htm]
      exact pending.wf
    · show OwnDirs m'.tm
      rw [htm]
      exact pending.dirs
    · show m'.cpu.cr3 = (m'.tm.pList m'.tm.current).regs.cr3
      rw [htm, hcr3]
      exact pending.loaded
    · show (m'.tm.pList A).state = 1
      rw [htm]
      exact pending.live
  | sysNget arg1 arg2 =>
    cases h
    obtain ⟨hwaits, hm, hkb⟩ := nget_sysNget pending.waits arg1 arg2
    refine ⟨?_, ?_, ?_, pending.task, pending.lt, ?_, hwaits, lock, ?_, pending.valid⟩
    · rw [hm]
      exact pending.wf
    · rw [hm]
      exact pending.dirs
    · rw [cr3, dirOf, current, hm]
      exact pending.loaded
    · rw [hm]
      exact pending.live
    · rw [hkb]
      exact pending.ubuf
  | advance =>
    cases h
    rw [advance_of_pending pending quiet]
    exact pending
  | store addr byte =>
    rw [System.step] at h
    split_ifs at h
    cases h
    exact { pending with }

end Steps

/-! ## How a request becomes pending -/

theorem advance_of_free {A buf n : ℕ} {s : System} (running : s.current = A)
    (asks : s.nget A = .test buf n) (free : s.kb.ilock = false) :
    s.advance.advance.advance.advance.advance =
      { s with
        kb := ⟨true, buf, 0, Keyboard.toStop n⟩
        nget := Function.update s.nget A .wait } := by
  simp [advance, show ∀ kb nget, current ⟨s.m, kb, s.umem, nget⟩ = A from fun _ _ => running,
    asks, free]

theorem pending_advance {A buf n : ℕ} {s : System} (wf : TaskManager.WellFormed s.m.tm)
    (dirs : OwnDirs s.m.tm) (loaded : s.cr3 = s.dirOf s.current) (task : A ≠ 0)
    (running : s.current = A) (asks : s.nget A = .test buf n) (free : s.kb.ilock = false)
    (valid : USER_OFFSET ≤ buf) :
    Pending A buf s.advance.advance.advance.advance.advance := by
  rw [advance_of_free running asks free]
  refine ⟨wf, dirs, loaded, task, ?_, ?_, Function.update_self _ _ _, rfl, rfl, valid⟩
  · rw [← running]
    exact wf.current_lt
  · rw [← running]
    exact wf.current_state

/-! ## A single keystroke -/

section Keystroke

variable {A buf : ℕ} {s : System} {c : UInt8}

theorem foldl_writeByte_of_ne {d D : ℕ} (hne : d ≠ D) (stores : List Store)
    (hdir : ∀ st ∈ stores, st.dir = D) (umem : ℕ → ℕ → UInt8) :
    stores.foldl writeByte umem d = umem d := by
  induction stores generalizing umem with
  | nil => rfl
  | cons st stores ih =>
    rw [List.foldl_cons, ih fun st' h => hdir st' (List.mem_cons_of_mem _ h)]
    apply Function.update_of_ne
    rw [hdir st List.mem_cons_self]
    exact hne

theorem dir_of_mem_performed {st : Store} (h : st ∈ s.performed c) : st.dir = s.cr3 := by
  obtain ⟨-, -, rfl⟩ := List.mem_map.1 h
  rfl

theorem head_mem_performed_iff {st : ℕ × UInt8} (hst : (s.planned c).head? = some st) :
    (⟨s.cr3, st.1, st.2⟩ : Store) ∈ s.performed c ↔ s.Served st.1 := by
  constructor
  · intro h
    obtain ⟨st', hmem, heq⟩ := List.mem_map.1 h
    have hserved := List.mem_takeWhile_imp hmem
    rw [show st.1 = st'.1 from (congrArg Store.addr heq).symm]
    simpa using hserved
  · intro hserved
    obtain ⟨rest, hrest⟩ : ∃ rest, s.planned c = st :: rest := by
      cases hplan : s.planned c with
      | nil =>
        rw [hplan] at hst
        cases hst
      | cons st' rest =>
        rw [hplan] at hst
        cases hst
        exact ⟨rest, rfl⟩
    rw [performed, hrest, List.takeWhile_cons_of_pos (by simpa using hserved)]
    exact List.mem_map.2 ⟨st, List.mem_cons_self, rfl⟩

/-- While a request is pending, a keystroke is delivered exactly when it arrives while the task that
asked is running. -/
theorem delivered_iff (pending : Pending A buf s) :
    Delivered A s c ↔
      ∀ st ∈ (s.planned c).head?, s.current = A ∧ st.1 < USER_STACK := by
  constructor
  · intro delivered st hst
    have hmem := delivered.received st hst
    have hdir : s.dirOf A = s.cr3 := dir_of_mem_performed hmem
    rw [hdir] at hmem
    have hserved := (head_mem_performed_iff (Option.mem_def.1 hst)).1 hmem
    refine ⟨?_, hserved.2.2⟩
    rw [pending.loaded] at hdir
    refine pending.dirs _ pending.wf.current_lt _ pending.lt ?_ ?_ hdir.symm
    · rw [pending.wf.current_state]
      decide
    · rw [pending.live]
      decide
  · intro h
    cases hplan : (s.planned c).head? with
    | none =>
      have hnil : s.performed c = [] := by
        rw [performed, List.head?_eq_none_iff.1 hplan]
        rfl
      refine ⟨by simp [hnil], fun d _ => ?_, by simp [hplan]⟩
      rw [umemAfter, hnil]
      rfl
    | some st =>
      obtain ⟨hcur, hlt⟩ := h st hplan
      have hdir : s.cr3 = s.dirOf A := by rw [pending.loaded, hcur]
      have hall : ∀ st ∈ s.performed c, st.dir = s.dirOf A := fun st' h' =>
        (dir_of_mem_performed h').trans hdir
      refine ⟨hall, fun d hd => foldl_writeByte_of_ne hd _ hall _, fun st' hst' => ?_⟩
      have heq : st' = st := by
        rw [hplan] at hst'
        exact (Option.mem_some_iff.1 hst').symm
      rw [heq, ← hdir, head_mem_performed_iff hplan]
      refine ⟨by rw [hcur]; exact pending.task, ?_, hlt⟩
      have hbuf := (input_spec s.kb c).2 st (List.mem_of_mem_head? hplan)
      rw [pending.ubuf] at hbuf
      exact pending.valid.trans hbuf

end Keystroke

/-- As long as no other task overwrites the request, every keystroke up to its end is delivered to
the task that asked if and only if each one arrives while that task runs. -/
theorem deliveries_iff (A buf : ℕ) (s : System) (es : List Event) (pending : Pending A buf s)
    (quiet : s.Along (fun s e => ¬Disturbs A s e) es) :
    s.Along (KeyDelivered A) es ↔ s.Along (KeyWhileRunning A) es := by
  induction es generalizing s with
  | nil => exact Iff.rfl
  | cons e es ih =>
    obtain ⟨hquiet, hrest⟩ := quiet
    apply and_congr
    · exact forall_congr' fun c => imp_congr_right fun _ => delivered_iff pending
    · refine forall_congr' fun s' => forall_congr' fun hstep => forall_congr' fun hlock => ?_
      exact ih s' (pending.step hquiet hstep hlock) (hrest s' hstep hlock)

/-! ## One task, and two -/

/-- Task `1` of `n` waits for four characters in the first page of user space. -/
def askingOf (n : ℕ) : System where
  m := Machine.inSyscallOf n
  kb := ⟨true, USER_OFFSET, 0, 4⟩
  umem _ _ := 0
  nget i := if i = 1 then .wait else .idle

theorem ownDirs_readyTasks (n : ℕ) : OwnDirs (Machine.readyTasks n) := by
  have hslot : ∀ i, ((Machine.readyTasks n).pList i).state ≠ 0 →
      ((Machine.readyTasks n).pList i).regs.cr3 = PML4_ADDR * (i + 1) := by
    intro i hstate
    by_cases h : i ≤ n
    · show (if i ≤ n then Machine.readyTask i else default).regs.cr3 = _
      rw [if_pos h]
      rfl
    · refine absurd ?_ hstate
      show (if i ≤ n then Machine.readyTask i else default).state = 0
      rw [if_neg h]
      rfl
  intro i _ j _ hi hj heq
  rw [hslot i hi, hslot j hj] at heq
  have := Nat.eq_of_mul_eq_mul_left (by decide) heq
  omega

theorem pending_askingOf (n : ℕ) (hone : 1 ≤ n) : Pending 1 USER_OFFSET (askingOf n) where
  wf := Machine.wellFormed_readyTasks n hone
  dirs := ownDirs_readyTasks n
  loaded := by
    show 0x2000 = (if 1 ≤ n then Machine.readyTask 1 else default).regs.cr3
    rw [if_pos hone]
    rfl
  task := one_ne_zero
  lt := by decide
  live := by
    show (if 1 ≤ n then Machine.readyTask 1 else default).state = 1
    rw [if_pos hone]
    rfl
  waits := rfl
  lock := rfl
  ubuf := rfl
  valid := le_rfl

theorem step_clock {s s' : System} {left : CalleeSaved} (h : s.step (.clock left) = some s') :
    s'.m = s.m.clock left ∧ s'.kb = s.kb := by
  cases h
  exact ⟨rfl, rfl⟩

theorem head_planned_askingOf (n : ℕ) {s : System} (h : s.kb = (askingOf n).kb) :
    (s.planned 97).head? = some (USER_OFFSET, 97) := by
  rw [planned, h]
  rfl

/-- The letter `a` is delivered to the task that asked, when a first tick has taken the processor to
the other task and a second one has brought it back. -/
theorem delivered_back : ((askingOf 2).m.clock ⟨0, 0, 0, 0⟩).tm.current = 2 ∧
    (askingOf 2).Along (KeyDelivered 1)
      [.clock ⟨0, 0, 0, 0⟩, .clock ⟨0, 0, 0, 0⟩, .key 97] := by
  have hback : (((askingOf 2).m.clock ⟨0, 0, 0, 0⟩).clock ⟨0, 0, 0, 0⟩).tm.current = 1 := by
    decide +kernel
  refine ⟨by decide +kernel, (deliveries_iff 1 USER_OFFSET (askingOf 2) _
    (pending_askingOf 2 (by decide)) ?_).2 ?_⟩
  · -- no event is a step of `nget`
    refine ⟨not_disturbs Event.noConfusion, fun _ _ _ => ?_⟩
    refine ⟨not_disturbs Event.noConfusion, fun _ _ _ => ?_⟩
    exact ⟨not_disturbs Event.noConfusion, fun _ _ _ => trivial⟩
  · refine ⟨fun c => Event.noConfusion, fun s₁ h₁ _ => ?_⟩
    refine ⟨fun c => Event.noConfusion, fun s₂ h₂ _ => ?_⟩
    obtain ⟨hm₁, hkb₁⟩ := step_clock h₁
    obtain ⟨hm₂, hkb₂⟩ := step_clock h₂
    refine ⟨fun c hc st hst => ?_, fun _ _ _ => trivial⟩
    obtain rfl := Event.key.inj hc
    rw [head_planned_askingOf 2 (hkb₂.trans hkb₁), Option.mem_some_iff] at hst
    rw [← hst, current, hm₂, hm₁]
    exact ⟨hback, by decide⟩

/-- With a second task, the letter `a` typed after a tick is stored in the memory of the other
one. -/
theorem not_delivered_two :
    Pending 1 USER_OFFSET (askingOf 2) ∧
      (askingOf 2).Along (fun s e => ¬Disturbs 1 s e) [.clock ⟨0, 0, 0, 0⟩, .key 97] ∧
      ¬(askingOf 2).Along (KeyDelivered 1) [.clock ⟨0, 0, 0, 0⟩, .key 97] := by
  refine ⟨pending_askingOf 2 (by decide), ⟨not_disturbs Event.noConfusion, fun s' _ _ =>
    ⟨not_disturbs Event.noConfusion, fun _ _ _ => trivial⟩⟩, fun along => ?_⟩
  have delivered := (along.2 _ rfl rfl).1 97 rfl
  have hmem : (⟨0x3000, USER_OFFSET, 97⟩ : Store) ∈
      System.performed { askingOf 2 with m := (askingOf 2).m.clock ⟨0, 0, 0, 0⟩ } 97 := by
    refine List.mem_map.2 ⟨(USER_OFFSET, 97), ?_, by rfl⟩
    decide
  exact absurd (delivered.dir _ hmem) (by decide)

end System
