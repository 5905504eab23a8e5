import SepplesOS.Proc.TaskManager

/-!
# The task counter and the task table

`loadTask` counts the new task before it has read the file, and the failure path behind `loadElf`
does not take the count back.  So `nProc` is the number of used slots plus the number of files
rejected on the way (`drift_run`), and the two agree exactly in the runs without a rejected file.
-/

namespace TaskManager

/-- The slots of `1 .. MAXPID - 1` whose state is not `0`. -/
def used (tm : TaskManager) : Finset ℕ :=
  (Finset.Ico 1 MAXPID).filter fun pid => (tm.pList pid).state ≠ 0

/-- The number of used slots. -/
def usedSlots (tm : TaskManager) : ℕ := tm.used.card

/-- The events that change the table. -/
inductive Step
  | loadTask (node : Option Buf) (argv : List CString) (pml4 kstack : ℕ)
  | exitTask (status : ℤ)
  | clock (stack_ptr : ℕ → ℕ) (segs : Segs) (rsp0 : ℕ)

/-- One event; `none` when it halts the machine. -/
def apply (tm : TaskManager) : Step → Option TaskManager
  | .loadTask node argv pml4 kstack => some (tm.loadTask node argv pml4 kstack).2
  | .exitTask status => tm.exitTask status
  | .clock stack_ptr segs rsp0 => some (tm.schedule stack_ptr segs rsp0).1

/-- A sequence of events. -/
def run (tm : TaskManager) : List Step → Option TaskManager
  | [] => some tm
  | s :: steps =>
    match tm.apply s with
    | none => none
    | some tm' => run tm' steps

/-- A slot is free for a new task. -/
def HasSlot (tm : TaskManager) : Prop := ∃ pid, 1 ≤ pid ∧ pid < MAXPID ∧ (tm.pList pid).state = 0

/-- The event loads a file that is not acceptable, with a slot free for it. -/
def RejectsFile (tm : TaskManager) : Step → Prop
  | .loadTask node _ _ _ => ∃ file, node = some file ∧ ¬Elf.Accepted file ∧ tm.HasSlot
  | _ => False

/-- No event of the sequence loads an unacceptable file. -/
def NoRejected (tm : TaskManager) : List Step → Prop
  | [] => True
  | s :: steps => ¬tm.RejectsFile s ∧ ∀ tm', tm.apply s = some tm' → NoRejected tm' steps

/-- What a failed `loadTask` should leave alone. -/
structure SameTasks (tm tm' : TaskManager) : Prop where
  nProc : tm'.nProc = tm.nProc
  state : ∀ pid, (tm'.pList pid).state = (tm.pList pid).state
  current : tm'.current = tm.current

/-! ## The operations on the table -/

section Operations

variable {tm : TaskManager}

theorem freeSlot_spec (pList : ℕ → Process) (n pid : ℕ) (enough : MAXPID ≤ pid + n) :
    (freeSlot pList n pid < MAXPID →
      pid ≤ freeSlot pList n pid ∧ (pList (freeSlot pList n pid)).state = 0) ∧
    (MAXPID ≤ freeSlot pList n pid → ∀ j, pid ≤ j → j < MAXPID → (pList j).state ≠ 0) := by
  induction n generalizing pid with
  | zero =>
    refine ⟨fun h => ?_, fun _ j hj hlt => ?_⟩
    · change pid < MAXPID at h
      omega
    · omega
  | succ n ih =>
    rw [freeSlot]
    split_ifs with hused hlt
    · obtain ⟨hfree, hfull⟩ := ih (pid + 1) (by omega)
      refine ⟨fun h => ⟨by have := (hfree h).1; omega, (hfree h).2⟩, fun h j hj hjlt => ?_⟩
      rcases Nat.eq_or_lt_of_le hj with rfl | hj
      · exact hused
      · exact hfull h j hj hjlt
    · exact ⟨fun h => by omega, fun _ j hj hjlt => by omega⟩
    · refine ⟨fun _ => ⟨le_rfl, not_not.1 hused⟩, fun h j hj hjlt => by omega⟩

theorem loadInto_cases (tm : TaskManager) (pid : ℕ) (file : Buf) (argv : List CString)
    (pml4 kstack : ℕ) (free : (tm.pList pid).state = 0) :
    ∃ p, p.pid = pid ∧ p.pml4 = pml4 ∧
      (tm.loadInto pid file argv pml4 kstack).2 =
        { tm.setProc pid p with nProc := tm.nProc + 1 } ∧
      ((¬Elf.Accepted file ∧ p.state = 0 ∧ (tm.loadInto pid file argv pml4 kstack).1 = 0) ∨
        (Elf.Accepted file ∧ p.state = 1 ∧ p.regs.cr3 = pml4 ∧
          (tm.loadInto pid file argv pml4 kstack).1 = pid)) := by
  have hzero := Elf.loadElf_eq_zero_iff file (tm.pList pid).zones
  rw [loadInto]
  obtain ⟨eEntry, zones, hload⟩ : ∃ eEntry zones,
      Elf.loadElf file (tm.pList pid).zones = (eEntry, zones) := ⟨_, _, rfl⟩
  rw [hload] at hzero
  simp only [hload]
  by_cases hentry : eEntry = 0
  · rw [if_pos hentry]
    exact ⟨_, rfl, rfl, rfl, Or.inl ⟨hzero.1 hentry, free, rfl⟩⟩
  · rw [if_neg hentry]
    exact ⟨_, rfl, rfl, rfl,
      Or.inr ⟨by_contra fun h => hentry (hzero.2 h), rfl, rfl, rfl⟩⟩

/-- Everything `loadTask` can do: nothing at all, or load into a free slot. -/
theorem loadTask_cases (tm : TaskManager) (node : Option Buf) (argv : List CString)
    (pml4 kstack : ℕ) :
    (tm.loadTask node argv pml4 kstack = (0, tm) ∧ (∀ file, node = some file → ¬tm.HasSlot)) ∨
    ∃ file pid, node = some file ∧ 1 ≤ pid ∧ pid < MAXPID ∧ (tm.pList pid).state = 0 ∧
      tm.loadTask node argv pml4 kstack = tm.loadInto pid file argv pml4 kstack := by
  cases node with
  | none => exact Or.inl ⟨rfl, fun file h => by cases h⟩
  | some file =>
    obtain ⟨hfree, hfull⟩ := freeSlot_spec tm.pList MAXPID 1 (by omega)
    by_cases hge : freeSlot tm.pList MAXPID 1 ≥ MAXPID
    · refine Or.inl ⟨if_pos hge, fun _ _ => ?_⟩
      rintro ⟨j, hj, hjlt, hstate⟩
      exact hfull hge j hj hjlt hstate
    · obtain ⟨hone, hstate⟩ := hfree (not_le.1 hge)
      exact Or.inr ⟨file, _, rfl, hone, not_le.1 hge, hstate, if_neg hge⟩

theorem exitTask_cases {tm' : TaskManager} {status : ℤ} (h : tm.exitTask status = some tm') :
    (tm.pList tm.current).pid ≠ 0 ∧ ∃ p, p.state = 0 ∧ p.pid = (tm.pList tm.current).pid ∧
      tm' = { tm.setProc tm.current p with nProc := tm.nProc - 1, current := 0 } := by
  rw [exitTask] at h
  split_ifs at h with hpid
  have heq := Option.some.inj h
  refine ⟨hpid, { tm.pList tm.current with state := 0, status := status }, rfl, rfl, ?_⟩
  rw [← heq]
  simp only [setProc, switchTo, Function.update_idem, Function.update_self]

theorem firstReady_spec (pList : ℕ → Process) (n i : ℕ) :
    firstReady pList n i = 0 ∨
      (i ≤ firstReady pList n i ∧ firstReady pList n i < i + n ∧
        (pList (firstReady pList n i)).state = 1) := by
  induction n generalizing i with
  | zero => exact Or.inl rfl
  | succ n ih =>
    rw [firstReady]
    split_ifs with hready
    · exact Or.inr ⟨le_rfl, by omega, hready⟩
    · rcases ih (i + 1) with h | ⟨hle, hlt, hstate⟩
      · exact Or.inl h
      · exact Or.inr ⟨by omega, by omega, hstate⟩

theorem nextPid_spec (hcur : (tm.pList tm.current).pid < MAXPID) :
    tm.nextPid = 0 ∨ (tm.nextPid < MAXPID ∧ (tm.pList tm.nextPid).state = 1) := by
  unfold nextPid
  dsimp only
  generalize (tm.pList tm.current).pid = pid at hcur
  have hup := firstReady_spec tm.pList (MAXPID - (pid + 1)) (pid + 1)
  have hdown := firstReady_spec tm.pList (pid - 1) 1
  split_ifs with hnone
  · rcases hdown with h | ⟨-, hlt, hstate⟩
    · exact Or.inl h
    · exact Or.inr ⟨by omega, hstate⟩
  · rcases hup with h | ⟨-, hlt, hstate⟩
    · exact absurd h hnone
    · exact Or.inr ⟨by omega, hstate⟩

/-- The table with the running task saved, as `schedule` leaves it before it picks the next one. -/
def saveCurrent (tm : TaskManager) (stack_ptr : ℕ → ℕ) (segs : Segs) (rsp0 : ℕ) : TaskManager :=
  tm.setProc tm.current (saveProcess (tm.pList tm.current) stack_ptr segs rsp0)

/-- The mode `schedule` resumes the task of a slot in. -/
def resumeMode (p : Process) : Mode := if p.regs.cs = 0x08 then .KERNELMODE else .USERMODE

/-- Everything a clock interrupt can do to the table: nothing, or save the running task and pick
the next one. -/
theorem schedule_cases (tm : TaskManager) (stack_ptr : ℕ → ℕ) (segs : Segs) (rsp0 : ℕ) :
    (tm.KeepsRunning ∧ tm.schedule stack_ptr segs rsp0 = (tm, none)) ∨
    (¬tm.KeepsRunning ∧ ∃ p,
      p = (tm.saveCurrent stack_ptr segs rsp0).pList (tm.saveCurrent stack_ptr segs rsp0).nextPid ∧
        tm.schedule stack_ptr segs rsp0 =
          ((tm.saveCurrent stack_ptr segs rsp0).switchTo p.pid, some (p.pid, resumeMode p))) := by
  by_cases hkeep : tm.KeepsRunning
  · exact Or.inl ⟨hkeep, if_pos hkeep⟩
  · exact Or.inr ⟨hkeep, _, rfl, if_neg hkeep⟩

end Operations

/-! ## The invariant -/

/-- Slot `0` is the kernel task, every used slot holds its own pid, and the running task is in a
used slot. -/
structure WellFormed (tm : TaskManager) : Prop where
  kernel : (tm.pList 0).state = 1
  slot : ∀ i < MAXPID, (tm.pList i).state = 0 ∨ ((tm.pList i).state = 1 ∧ (tm.pList i).pid = i)
  current_lt : tm.current < MAXPID
  current_state : (tm.pList tm.current).state = 1

section Invariant

variable {tm tm' : TaskManager}

theorem WellFormed.pid_current (wf : WellFormed tm) : (tm.pList tm.current).pid = tm.current := by
  rcases wf.slot _ wf.current_lt with h | h
  · rw [wf.current_state] at h
    cases h
  · exact h.2

theorem wellFormed_init (fresh : ℕ → Process) (ss : ℕ) : WellFormed (init fresh ss) where
  kernel := rfl
  slot i hi := by
    by_cases h : i = 0
    · subst h
      exact Or.inr ⟨rfl, rfl⟩
    · refine Or.inl ?_
      simp only [init, Function.update_of_ne h]
  current_lt := Nat.succ_pos 63
  current_state := rfl

theorem WellFormed.setProc (wf : WellFormed tm) {pid : ℕ} {p : Process} (hpid : pid ≠ 0)
    (hcur : pid ≠ tm.current) (hp : p.state = 0 ∨ (p.state = 1 ∧ p.pid = pid)) (n : ℤ) :
    WellFormed { tm.setProc pid p with nProc := n } where
  kernel := by
    show (Function.update tm.pList pid p 0).state = 1
    rw [Function.update_of_ne hpid.symm]
    exact wf.kernel
  slot i hi := by
    show (Function.update tm.pList pid p i).state = 0 ∨ _
    by_cases h : i = pid
    · subst h
      simpa [TaskManager.setProc] using hp
    · simpa [TaskManager.setProc, Function.update_of_ne h] using wf.slot i hi
  current_lt := wf.current_lt
  current_state := by
    show (Function.update tm.pList pid p tm.current).state = 1
    rw [Function.update_of_ne hcur.symm]
    exact wf.current_state

theorem WellFormed.exit (wf : WellFormed tm) {p : Process} (hcur : tm.current ≠ 0)
    (hp : p.state = 0) (n : ℤ) :
    WellFormed { tm.setProc tm.current p with nProc := n, current := 0 } := by
  have hzero : Function.update tm.pList tm.current p 0 = tm.pList 0 :=
    Function.update_of_ne hcur.symm _ _
  refine ⟨?_, fun i hi => ?_, Nat.succ_pos 63, ?_⟩
  · show (Function.update tm.pList tm.current p 0).state = 1
    rw [hzero]
    exact wf.kernel
  · by_cases h : i = tm.current
    · subst h
      exact Or.inl (by simpa [TaskManager.setProc] using hp)
    · simpa [TaskManager.setProc, Function.update_of_ne h] using wf.slot i hi
  · show (Function.update tm.pList tm.current p 0).state = 1
    rw [hzero]
    exact wf.kernel

theorem saveCurrent_slot (tm : TaskManager) (stack_ptr : ℕ → ℕ) (segs : Segs) (rsp0 i : ℕ) :
    ((tm.saveCurrent stack_ptr segs rsp0).pList i).state = (tm.pList i).state ∧
      ((tm.saveCurrent stack_ptr segs rsp0).pList i).pid = (tm.pList i).pid := by
  by_cases h : i = tm.current
  · subst h
    simp [saveCurrent, TaskManager.setProc, saveProcess]
  · simp [saveCurrent, TaskManager.setProc, Function.update_of_ne h]

theorem WellFormed.saveCurrent (wf : WellFormed tm) (stack_ptr : ℕ → ℕ) (segs : Segs)
    (rsp0 : ℕ) : WellFormed (tm.saveCurrent stack_ptr segs rsp0) := by
  have hslot := saveCurrent_slot tm stack_ptr segs rsp0
  refine ⟨(hslot 0).1.trans wf.kernel, fun i hi => ?_, wf.current_lt,
    (hslot tm.current).1.trans wf.current_state⟩
  rw [(hslot i).1, (hslot i).2]
  exact wf.slot i hi

theorem WellFormed.nextPid (wf : WellFormed tm) :
    tm.nextPid < MAXPID ∧ (tm.pList tm.nextPid).state = 1 ∧
      (tm.pList tm.nextPid).pid = tm.nextPid := by
  have hstate : tm.nextPid < MAXPID ∧ (tm.pList tm.nextPid).state = 1 := by
    rcases nextPid_spec (by rw [wf.pid_current]; exact wf.current_lt) with h | h
    · rw [h]
      exact ⟨Nat.succ_pos 63, wf.kernel⟩
    · exact h
  refine ⟨hstate.1, hstate.2, ?_⟩
  rcases wf.slot _ hstate.1 with h | h
  · rw [hstate.2] at h
    cases h
  · exact h.2

theorem WellFormed.switchTo (wf : WellFormed tm) {n : ℕ} (hlt : n < MAXPID)
    (hstate : (tm.pList n).state = 1) : WellFormed (tm.switchTo n) :=
  ⟨wf.kernel, wf.slot, hlt, hstate⟩

theorem WellFormed.schedule (wf : WellFormed tm) (stack_ptr : ℕ → ℕ) (segs : Segs) (rsp0 : ℕ) :
    WellFormed (tm.schedule stack_ptr segs rsp0).1 ∧
      (tm.schedule stack_ptr segs rsp0).1.nProc = tm.nProc ∧
      ∀ i, ((tm.schedule stack_ptr segs rsp0).1.pList i).state = (tm.pList i).state := by
  rcases schedule_cases tm stack_ptr segs rsp0 with ⟨-, heq⟩ | ⟨-, p, hp, heq⟩
  · rw [heq]
    exact ⟨wf, rfl, fun i => rfl⟩
  · have wfsaved := wf.saveCurrent stack_ptr segs rsp0
    obtain ⟨hlt, hstate, hpid⟩ := wfsaved.nextPid
    rw [heq, hp, hpid]
    exact ⟨wfsaved.switchTo hlt hstate, rfl,
      fun i => (saveCurrent_slot tm stack_ptr segs rsp0 i).1⟩

end Invariant

/-! ## Counting -/

section Counting

variable {tm tm' : TaskManager}

theorem mem_used {i : ℕ} : i ∈ tm.used ↔ (1 ≤ i ∧ i < MAXPID) ∧ (tm.pList i).state ≠ 0 := by
  rw [used, Finset.mem_filter, Finset.mem_Ico]

theorem usedSlots_congr (h : ∀ i, (tm'.pList i).state = (tm.pList i).state) :
    tm'.usedSlots = tm.usedSlots := by
  simp only [usedSlots, used, h]

theorem usedSlots_take {pid : ℕ} {p : Process} (hone : 1 ≤ pid) (hlt : pid < MAXPID)
    (free : (tm.pList pid).state = 0) (hp : p.state ≠ 0) :
    (tm.setProc pid p).usedSlots = tm.usedSlots + 1 := by
  have hinsert : (tm.setProc pid p).used = insert pid tm.used := by
    ext i
    rw [Finset.mem_insert, mem_used, mem_used]
    by_cases h : i = pid
    · subst h
      simp [setProc, hp, hone, hlt]
    · simp [setProc, h]
  rw [usedSlots, hinsert, Finset.card_insert_of_notMem fun h => (mem_used.1 h).2 free]
  rfl

theorem usedSlots_release {pid : ℕ} {p : Process} (hone : 1 ≤ pid) (hlt : pid < MAXPID)
    (used : (tm.pList pid).state ≠ 0) (hp : p.state = 0) :
    (tm.setProc pid p).usedSlots + 1 = tm.usedSlots := by
  have herase : (tm.setProc pid p).used = tm.used.erase pid := by
    ext i
    rw [Finset.mem_erase, mem_used, mem_used]
    by_cases h : i = pid
    · subst h
      simp [setProc, hp]
    · simp [setProc, h]
  rw [usedSlots, herase]
  exact Finset.card_erase_add_one (mem_used.2 ⟨⟨hone, hlt⟩, used⟩)

theorem usedSlots_keep {pid : ℕ} {p : Process} (free : (tm.pList pid).state = 0)
    (hp : p.state = 0) : (tm.setProc pid p).usedSlots = tm.usedSlots := by
  apply usedSlots_congr
  intro i
  by_cases h : i = pid
  · subst h
    simp [setProc, free, hp]
  · simp [setProc, Function.update_of_ne h]

/-- By how much `nProc` exceeds the number of used slots. -/
def drift (tm : TaskManager) : ℤ := tm.nProc - tm.usedSlots

/-- One event keeps the table well formed; the drift stays as it is, but for a rejected file. -/
theorem WellFormed.apply (wf : WellFormed tm) {s : Step} (h : tm.apply s = some tm') :
    WellFormed tm' ∧
      ((tm.RejectsFile s ∧ tm'.drift = tm.drift + 1) ∨
        (¬tm.RejectsFile s ∧ tm'.drift = tm.drift)) := by
  cases s with
  | loadTask node argv pml4 kstack =>
    have heq : tm' = (tm.loadTask node argv pml4 kstack).2 := (Option.some.inj h).symm
    rcases loadTask_cases tm node argv pml4 kstack with
      ⟨hnone, hfull⟩ | ⟨file, pid, rfl, hone, hlt, hfree, hinto⟩
    · rw [heq, hnone]
      exact ⟨wf, Or.inr ⟨fun ⟨file, hfile, _, hslot⟩ => hfull file hfile hslot, rfl⟩⟩
    · have hcur : pid ≠ tm.current := by
        rintro rfl
        rw [wf.current_state] at hfree
        cases hfree
      obtain ⟨p, hpid, -, htm, hcase⟩ := loadInto_cases tm pid file argv pml4 kstack hfree
      rw [heq, hinto, htm]
      rcases hcase with ⟨hbad, hstate, -⟩ | ⟨hgood, hstate, -, -⟩
      · refine ⟨wf.setProc (by omega) hcur (Or.inl hstate) _,
          Or.inl ⟨⟨file, rfl, hbad, pid, hone, hlt, hfree⟩, ?_⟩⟩
        have hkeep := usedSlots_keep hfree hstate
        show tm.nProc + 1 - ((tm.setProc pid p).usedSlots : ℤ) = tm.nProc - tm.usedSlots + 1
        rw [hkeep]
        omega
      · refine ⟨wf.setProc (by omega) hcur (Or.inr ⟨hstate, hpid⟩) _, Or.inr ⟨?_, ?_⟩⟩
        · rintro ⟨file', hfile', hbad, -⟩
          cases hfile'
          exact hbad hgood
        · have htake := usedSlots_take hone hlt hfree (p := p) (by rw [hstate]; decide)
          show tm.nProc + 1 - ((tm.setProc pid p).usedSlots : ℤ) = tm.nProc - tm.usedSlots
          rw [htake]
          omega
  | exitTask status =>
    obtain ⟨hne, p, hstate, -, heq⟩ := exitTask_cases h
    rw [wf.pid_current] at hne
    rw [heq]
    refine ⟨wf.exit hne hstate _, Or.inr ⟨fun h => h, ?_⟩⟩
    have hrelease := usedSlots_release (by omega) wf.current_lt
      (by rw [wf.current_state]; decide) hstate
    show tm.nProc - 1 - ((tm.setProc tm.current p).usedSlots : ℤ) = tm.nProc - tm.usedSlots
    rw [← hrelease]
    omega
  | clock stack_ptr segs rsp0 =>
    have heq : tm' = (tm.schedule stack_ptr segs rsp0).1 := (Option.some.inj h).symm
    obtain ⟨wf', hn, hstate⟩ := wf.schedule stack_ptr segs rsp0
    rw [heq]
    refine ⟨wf', Or.inr ⟨fun h => h, ?_⟩⟩
    rw [drift, drift, hn, usedSlots_congr hstate]

/-- Over a run the drift never shrinks, and it stays as it is exactly when no file is rejected. -/
theorem drift_run (wf : WellFormed tm) {steps : List Step} (h : tm.run steps = some tm') :
    WellFormed tm' ∧ tm.drift ≤ tm'.drift ∧ (tm'.drift = tm.drift ↔ tm.NoRejected steps) := by
  induction steps generalizing tm with
  | nil =>
    cases h
    exact ⟨wf, le_rfl, by simp [NoRejected]⟩
  | cons s steps ih =>
    rw [run] at h
    cases happly : tm.apply s with
    | none =>
      rw [happly] at h
      cases h
    | some next =>
      rw [happly] at h
      obtain ⟨wfnext, hstep⟩ := wf.apply happly
      obtain ⟨wf', hle, hiff⟩ := ih wfnext h
      refine ⟨wf', ?_⟩
      rw [NoRejected, happly]
      simp only [Option.some.injEq, forall_eq']
      rcases hstep with ⟨hbad, hdrift⟩ | ⟨hgood, hdrift⟩
      · refine ⟨by omega, fun heq => by omega, fun hno => absurd hbad hno.1⟩
      · rw [← hdrift]
        exact ⟨hle, hiff.trans (and_iff_right hgood).symm⟩

end Counting

/-! ## The count and the table agree -/

/-- In the state after a run from `init` the counter is the number of used slots exactly when no
file was rejected on the way; and a `loadTask` that returns `0` there leaves the tasks as they were
exactly when it is not a rejected file. -/
theorem nProc_eq_usedSlots_iff (fresh : ℕ → Process) (ss : ℕ) (steps : List Step)
    (tm : TaskManager) (reached : (init fresh ss).run steps = some tm) :
    (tm.nProc = tm.usedSlots ↔ (init fresh ss).NoRejected steps) ∧
      ∀ node argv pml4 kstack, (tm.loadTask node argv pml4 kstack).1 = 0 →
        (SameTasks tm (tm.loadTask node argv pml4 kstack).2 ↔
          ¬tm.RejectsFile (.loadTask node argv pml4 kstack)) := by
  obtain ⟨wf, -, hiff⟩ := drift_run (wellFormed_init fresh ss) reached
  have hinit : (init fresh ss).drift = 0 := by
    have : (init fresh ss).usedSlots = 0 := by
      rw [usedSlots, Finset.card_eq_zero, Finset.eq_empty_iff_forall_notMem]
      intro i hi
      obtain ⟨⟨hone, -⟩, hstate⟩ := mem_used.1 hi
      apply hstate
      simp only [init, Function.update_of_ne (by omega : i ≠ 0)]
    rw [drift, this]
    rfl
  refine ⟨?_, fun node argv pml4 kstack hzero => ?_⟩
  · rw [← hiff, hinit, drift]
    omega
  · rcases loadTask_cases tm node argv pml4 kstack with
      ⟨hnone, hfull⟩ | ⟨file, pid, rfl, hone, hlt, hfree, hinto⟩
    · rw [hnone]
      exact ⟨fun _ ⟨file, hfile, _, hslot⟩ => hfull file hfile hslot, fun _ =>
        ⟨rfl, fun _ => rfl, rfl⟩⟩
    · obtain ⟨p, -, -, htm, hcase⟩ := loadInto_cases tm pid file argv pml4 kstack hfree
      rw [hinto] at hzero ⊢
      rw [htm]
      rcases hcase with ⟨hbad, -, -⟩ | ⟨-, -, -, hret⟩
      · refine ⟨fun same => ?_, fun h => absurd ⟨file, rfl, hbad, pid, hone, hlt, hfree⟩ h⟩
        have : tm.nProc + 1 = tm.nProc := same.nProc
        omega
      · omega

/-! ## Two loads -/

/-- The table right after `init`. -/
def booted : TaskManager := init (fun _ => default) 0

/-- A header with an entry point and no segments. -/
def smallElf : Buf := fun i => if i < 4 then [0x7f, 69, 76, 70].getD i 0 else if i = 24 then 1 else 0

theorem accepted_smallElf : Elf.Accepted smallElf := by
  refine ⟨by decide, fun i hi => ?_, by decide⟩
  have : (Elf.Ehdr.ofBuf smallElf).e_phnum.toNat = 0 := by decide
  omega

/-- After loading an acceptable file the count and the table agree. -/
theorem nProc_loaded :
    (booted.loadTask (some smallElf) [] 0 0).2.nProc =
      (booted.loadTask (some smallElf) [] 0 0).2.usedSlots := by
  have hno : booted.NoRejected [.loadTask (some smallElf) [] 0 0] := by
    refine ⟨?_, fun _ _ => trivial⟩
    rintro ⟨file, hfile, hbad, -⟩
    cases hfile
    exact hbad accepted_smallElf
  exact (nProc_eq_usedSlots_iff (fun _ => default) 0 [.loadTask (some smallElf) [] 0 0] _ rfl).1.2
    hno

/-- After loading a file of zeros the counter is `1`, and no slot is used. -/
theorem nProc_rejected :
    booted.run [.loadTask (some fun _ => 0) [] 0 0] =
        some (booted.loadTask (some fun _ => 0) [] 0 0).2 ∧
      (booted.loadTask (some fun _ => 0) [] 0 0).1 = 0 ∧
      (booted.loadTask (some fun _ => 0) [] 0 0).2.nProc = 1 ∧
      (booted.loadTask (some fun _ => 0) [] 0 0).2.usedSlots = 0 :=
  ⟨rfl, by decide, by decide, by decide⟩

end TaskManager
