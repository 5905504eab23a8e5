import SepplesOS.Lib.Cyclic
import SepplesOS.Proc.Preempt

/-!
# The round robin

`TaskManager::schedule` looks for a ready task above the running one and then below it, with `0` for
"none found".  This is the next element of the set of ready tasks in cyclic order, so that as many
ticks as there are ready tasks give each of them the processor once.
-/

/-- What `schedule` reads besides the task table: the frame of the interrupt, the data segments and
the kernel stack of the TSS. -/
structure Tick where
  stack_ptr : ℕ → ℕ
  segs : Segs
  rsp0 : ℕ

namespace TaskManager

/-- The ready tasks: the slots `1` to `MAXPID - 1` in state `1`. -/
def ready (tm : TaskManager) : Finset ℕ :=
  (Finset.range MAXPID).filter fun i => 1 ≤ i ∧ (tm.pList i).state = 1

/-- A ready task and the kernel task have the number of their slot. -/
def Numbered (tm : TaskManager) : Prop := ∀ i, i = 0 ∨ i ∈ tm.ready → (tm.pList i).pid = i

/-- The table after one call of `schedule`. -/
def tick (tm : TaskManager) (t : Tick) : TaskManager := (tm.schedule t.stack_ptr t.segs t.rsp0).1

/-- The running task after each of some successive calls. -/
def visited (tm : TaskManager) : List Tick → List ℕ
  | [] => []
  | t :: ticks => (tm.tick t).current :: visited (tm.tick t) ticks

section Choice

variable {tm : TaskManager}

theorem mem_ready {i : ℕ} : i ∈ tm.ready ↔ (1 ≤ i ∧ i < MAXPID) ∧ (tm.pList i).state = 1 := by
  simp [ready]
  tauto

theorem WellFormed.numbered (wf : WellFormed tm) : Numbered tm := by
  have hslot : ∀ i < MAXPID, (tm.pList i).state = 1 → (tm.pList i).pid = i := by
    intro i hi hstate
    rcases wf.slot i hi with h | h
    · rw [hstate] at h
      cases h
    · exact h.2
  rintro i (rfl | hi)
  · exact hslot 0 (by decide) wf.kernel
  · exact hslot i (mem_ready.1 hi).1.2 (mem_ready.1 hi).2

/-- A scan that has a ready task in its range stops at the first one. -/
theorem firstReady_eq {pList : ℕ → Process} {n i j : ℕ} (from_le : i ≤ j) (to_lt : j < i + n)
    (ready : (pList j).state = 1) (first : ∀ k, i ≤ k → k < j → (pList k).state ≠ 1) :
    firstReady pList n i = j := by
  induction n generalizing i with
  | zero => omega
  | succ n ih =>
    rw [firstReady]
    rcases from_le.eq_or_lt with rfl | hlt
    · rw [if_pos ready]
    · rw [if_neg (first i le_rfl hlt)]
      exact ih hlt (by omega) fun k hk => first k (by omega)

theorem firstReady_eq_zero {pList : ℕ → Process} {n i : ℕ}
    (none : ∀ k, i ≤ k → k < i + n → (pList k).state ≠ 1) : firstReady pList n i = 0 := by
  induction n generalizing i with
  | zero => rfl
  | succ n ih =>
    rw [firstReady, if_neg (none i le_rfl (by omega))]
    exact ih fun k hk hlt => none k (by omega) (by omega)

/-- The two scans give the next ready task in cyclic order: the running task is the kernel task, or
a ready one with another one around. -/
theorem nextPid_eq (numbered : Numbered tm) (some : tm.ready.Nonempty)
    (current : tm.current = 0 ∨ (tm.current ∈ tm.ready ∧ 2 ≤ tm.ready.card)) :
    tm.nextPid = Cyclic.next tm.ready tm.current := by
  have hpid : (tm.pList tm.current).pid = tm.current := numbered _ (current.imp_right And.left)
  obtain ⟨hmem, hnext⟩ := Cyclic.next_spec (x := tm.current) some
  obtain ⟨⟨hone, hlt⟩, hstate⟩ := mem_ready.1 hmem
  unfold nextPid
  dsimp only
  rw [hpid]
  rcases hnext with ⟨habove, hleast⟩ | ⟨htop, hleast⟩
  · have hup : firstReady tm.pList (MAXPID - (tm.current + 1)) (tm.current + 1) =
        Cyclic.next tm.ready tm.current := by
      apply firstReady_eq habove (by omega) hstate
      intro k hk hbefore hready
      have hle := hleast k (mem_ready.2 ⟨⟨by omega, by omega⟩, hready⟩) hk
      omega
    rw [hup, if_neg (by omega)]
  · have hup : firstReady tm.pList (MAXPID - (tm.current + 1)) (tm.current + 1) = 0 := by
      apply firstReady_eq_zero
      intro k hk hend hready
      have hle := htop k (mem_ready.2 ⟨⟨by omega, by omega⟩, hready⟩)
      omega
    have hbelow : Cyclic.next tm.ready tm.current < tm.current := by
      have hle := htop _ hmem
      rcases current with hzero | ⟨hcur, htwo⟩
      · omega
      · obtain ⟨z, hz, hne⟩ := Finset.exists_mem_ne (show 1 < tm.ready.card by omega) tm.current
        have := Cyclic.next_ne some ⟨z, hz, hne⟩
        omega
    rw [hup, if_pos rfl]
    apply firstReady_eq hone (by omega) hstate
    intro k hk hbefore hready
    have hle := hleast k (mem_ready.2 ⟨⟨hk, by omega⟩, hready⟩)
    omega

end Choice

/-! ## One tick -/

section Tick

variable {tm tm' : TaskManager}

/-- Nothing that the round robin reads has changed, except the running task. -/
structure SameReady (tm tm' : TaskManager) : Prop where
  slots : ∀ i, (tm'.pList i).state = (tm.pList i).state ∧ (tm'.pList i).pid = (tm.pList i).pid
  nProc : tm'.nProc = tm.nProc
  enabled : tm'.schedulerEnabled = tm.schedulerEnabled

theorem SameReady.ready_eq (same : SameReady tm tm') : tm'.ready = tm.ready := by
  ext i
  rw [mem_ready, mem_ready, (same.slots i).1]

theorem SameReady.numbered (same : SameReady tm tm') (numbered : Numbered tm) : Numbered tm' := by
  intro i hi
  rw [same.ready_eq] at hi
  rw [(same.slots i).2]
  exact numbered i hi

theorem sameReady_saveCurrent (tm : TaskManager) (stack_ptr : ℕ → ℕ) (segs : Segs) (rsp0 : ℕ) :
    SameReady tm (tm.saveCurrent stack_ptr segs rsp0) :=
  ⟨saveCurrent_slot tm stack_ptr segs rsp0, rfl, rfl⟩

theorem sameReady_tick (tm : TaskManager) (t : Tick) : SameReady tm (tm.tick t) := by
  have hsaved := sameReady_saveCurrent tm t.stack_ptr t.segs t.rsp0
  unfold tick
  rcases schedule_cases tm t.stack_ptr t.segs t.rsp0 with ⟨-, heq⟩ | ⟨-, p, -, heq⟩
  · rw [heq]
    exact ⟨fun i => ⟨rfl, rfl⟩, rfl, rfl⟩
  · rw [heq]
    exact ⟨hsaved.slots, hsaved.nProc, hsaved.enabled⟩

theorem schedule_next (numbered : Numbered tm) (enabled : tm.schedulerEnabled = true)
    (count : tm.nProc = tm.ready.card) (some : tm.ready.Nonempty)
    (current : tm.current = 0 ∨ (tm.current ∈ tm.ready ∧ 2 ≤ tm.ready.card)) (t : Tick) :
    (∃ mode, (tm.schedule t.stack_ptr t.segs t.rsp0).2 =
      Option.some (Cyclic.next tm.ready tm.current, mode)) ∧
      (tm.tick t).current = Cyclic.next tm.ready tm.current := by
  have hpid : (tm.pList tm.current).pid = tm.current := numbered _ (current.imp_right And.left)
  have hsome : 0 < tm.ready.card := Finset.card_pos.2 some
  have hsaved := sameReady_saveCurrent tm t.stack_ptr t.segs t.rsp0
  have hswitches : ¬tm.KeepsRunning := by
    rintro (hoff | hzero | ⟨hone, hne⟩)
    · rw [enabled] at hoff
      cases hoff
    · omega
    · rcases current with hkernel | ⟨-, htwo⟩
      · exact hne (hpid.trans hkernel)
      · omega
  have hready := hsaved.ready_eq
  have hnext : (tm.saveCurrent t.stack_ptr t.segs t.rsp0).nextPid =
      Cyclic.next tm.ready tm.current := by
    have hcurrent : (tm.saveCurrent t.stack_ptr t.segs t.rsp0).current = tm.current := rfl
    rw [nextPid_eq (hsaved.numbered numbered) (by rw [hready]; exact some)
      (by rw [hready, hcurrent]; exact current), hready, hcurrent]
  have hnumber : ((tm.saveCurrent t.stack_ptr t.segs t.rsp0).pList
      (Cyclic.next tm.ready tm.current)).pid = Cyclic.next tm.ready tm.current := by
    apply hsaved.numbered numbered
    rw [hready]
    exact Or.inr (Cyclic.next_mem some)
  unfold tick
  rcases schedule_cases tm t.stack_ptr t.segs t.rsp0 with ⟨hkeep, -⟩ | ⟨-, p, hp, heq⟩
  · exact absurd hkeep hswitches
  · rw [hnext] at hp
    have hchosen : p.pid = Cyclic.next tm.ready tm.current := by rw [hp, hnumber]
    rw [heq, hchosen]
    exact ⟨⟨_, rfl⟩, rfl⟩

theorem schedule_only (numbered : Numbered tm) (count : tm.nProc = tm.ready.card)
    (current : tm.current ∈ tm.ready) (only : tm.ready.card = 1) (t : Tick) :
    tm.schedule t.stack_ptr t.segs t.rsp0 = (tm, none) := by
  have hpid : (tm.pList tm.current).pid = tm.current := numbered _ (Or.inr current)
  have hone := (mem_ready.1 current).1.1
  apply if_pos
  exact Or.inr (Or.inr ⟨by rw [count, only]; rfl, by omega⟩)

theorem current_tick (numbered : Numbered tm) (enabled : tm.schedulerEnabled = true)
    (count : tm.nProc = tm.ready.card) (current : tm.current ∈ tm.ready) (t : Tick) :
    (tm.tick t).current = Cyclic.next tm.ready tm.current := by
  have hsome : tm.ready.Nonempty := ⟨_, current⟩
  by_cases htwo : 2 ≤ tm.ready.card
  · exact (schedule_next numbered enabled count hsome (Or.inr ⟨current, htwo⟩) t).2
  · have hpos := Finset.card_pos.2 hsome
    have honly : tm.ready.card = 1 := by omega
    unfold tick
    rw [schedule_only numbered count current honly t]
    obtain ⟨a, ha⟩ := Finset.card_eq_one.1 honly
    have hnext := Cyclic.next_mem (x := tm.current) hsome
    rw [ha, Finset.mem_singleton] at hnext current
    rw [ha, hnext, current]

end Tick

/-! ## A round -/

section Round

variable {tm : TaskManager}

theorem visited_eq (numbered : Numbered tm) (enabled : tm.schedulerEnabled = true)
    (count : tm.nProc = tm.ready.card) (current : tm.current ∈ tm.ready) (ticks : List Tick) :
    tm.visited ticks = Cyclic.round tm.ready tm.current ticks.length := by
  induction ticks generalizing tm with
  | nil => rfl
  | cons t ticks ih =>
    have hsame := sameReady_tick tm t
    have hready := hsame.ready_eq
    have hcurrent := current_tick numbered enabled count current t
    have hnext := Cyclic.next_mem (x := tm.current) ⟨_, current⟩
    rw [visited, ih (hsame.numbered numbered) (hsame.enabled.trans enabled)
      (by rw [hsame.nProc, hready]; exact count) (by rw [hready, hcurrent]; exact hnext),
      hready, hcurrent, List.length_cons, Cyclic.round_succ]

/-- The round robin: the next ready task in cyclic order, no switch from the only one, the least one
after the kernel task; and as many ticks as there are ready tasks, from one of them, select each of
them once and the first one last. -/
theorem roundRobin (tm : TaskManager) (numbered : Numbered tm)
    (enabled : tm.schedulerEnabled = true) (count : tm.nProc = tm.ready.card)
    (some : tm.ready.Nonempty) :
    (∀ t : Tick,
      (tm.current ∈ tm.ready → 2 ≤ tm.ready.card → ∃ mode,
        (tm.schedule t.stack_ptr t.segs t.rsp0).2 =
          Option.some (Cyclic.next tm.ready tm.current, mode)) ∧
      (tm.current ∈ tm.ready → tm.ready.card = 1 →
        tm.schedule t.stack_ptr t.segs t.rsp0 = (tm, none)) ∧
      (tm.current = 0 → ∃ mode,
        (tm.schedule t.stack_ptr t.segs t.rsp0).2 = Option.some (tm.ready.min' some, mode))) ∧
      (tm.current ∈ tm.ready → ∀ ticks : List Tick, ticks.length = tm.ready.card →
        (tm.visited ticks).Nodup ∧ (tm.visited ticks).toFinset = tm.ready ∧
          (tm.visited ticks).getLast? = Option.some tm.current) := by
  refine ⟨fun t => ⟨fun hcurrent htwo => ?_, fun hcurrent honly => ?_, fun hkernel => ?_⟩,
    fun hcurrent ticks hlength => ?_⟩
  · exact (schedule_next numbered enabled count some (Or.inr ⟨hcurrent, htwo⟩) t).1
  · exact schedule_only numbered count hcurrent honly t
  · have hleast : Cyclic.next tm.ready tm.current = tm.ready.min' some := by
      rw [hkernel]
      apply Cyclic.next_eq_of_lt (Finset.min'_mem _ _)
      · have := (mem_ready.1 (Finset.min'_mem tm.ready some)).1.1
        omega
      · exact fun z hz _ => Finset.min'_le _ _ hz
    rw [← hleast]
    exact (schedule_next numbered enabled count some (Or.inl hkernel) t).1
  · obtain ⟨hperm, hlast⟩ := Cyclic.round_spec hcurrent
    rw [visited_eq numbered enabled count hcurrent, hlength]
    refine ⟨?_, ?_, ?_⟩
    · exact hperm.nodup_iff.2 (Finset.sort_nodup _ _)
    · rw [List.toFinset_eq_of_perm _ _ hperm, Finset.sort_toFinset]
    · rw [Cyclic.getLast_round (Finset.card_pos.2 some), hlast]

theorem ready_readyTasks : (Machine.readyTasks 2).ready = {1, 2} := by decide

theorem roundRobin_two :
    (∀ t : Tick,
      ((Machine.readyTasks 2).current ∈ (Machine.readyTasks 2).ready →
        2 ≤ (Machine.readyTasks 2).ready.card → ∃ mode,
          ((Machine.readyTasks 2).schedule t.stack_ptr t.segs t.rsp0).2 =
            some (Cyclic.next (Machine.readyTasks 2).ready (Machine.readyTasks 2).current, mode)) ∧
      ((Machine.readyTasks 2).current ∈ (Machine.readyTasks 2).ready →
        (Machine.readyTasks 2).ready.card = 1 →
          (Machine.readyTasks 2).schedule t.stack_ptr t.segs t.rsp0 = (Machine.readyTasks 2, none)) ∧
      ((Machine.readyTasks 2).current = 0 → ∃ mode,
        ((Machine.readyTasks 2).schedule t.stack_ptr t.segs t.rsp0).2 =
          some ((Machine.readyTasks 2).ready.min' ⟨1, by decide⟩, mode))) ∧
      ((Machine.readyTasks 2).current ∈ (Machine.readyTasks 2).ready → ∀ ticks : List Tick,
        ticks.length = (Machine.readyTasks 2).ready.card →
          ((Machine.readyTasks 2).visited ticks).Nodup ∧
            ((Machine.readyTasks 2).visited ticks).toFinset = (Machine.readyTasks 2).ready ∧
            ((Machine.readyTasks 2).visited ticks).getLast? =
              some (Machine.readyTasks 2).current) :=
  roundRobin (Machine.readyTasks 2) (Machine.wellFormed_readyTasks 2 (by decide)).numbered rfl
    (by rw [ready_readyTasks]; rfl) ⟨1, by decide⟩

end Round

end TaskManager
