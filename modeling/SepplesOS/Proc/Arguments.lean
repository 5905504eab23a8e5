import SepplesOS.Lib.ByteStack
import SepplesOS.Proc.TaskCount

/-!
# The arguments of a new task

`loadTask` builds the user stack of a task that is given arguments: the exit stub at the top, copies
of the arguments, and below them slots of 8 bytes with the arguments of `main`.  The slot of `argv`
is meant to hold the address of the next one; the value stored there is 4 bytes short of it.
-/

namespace TaskManager

/-- The user stack of a new task: user memory after `loadTask`, and the stack pointer. -/
def userStack (mem : Buf) (argv : List CString) : Buf × ℕ :=
  let stackp := USER_STACK - 16
  let mem := mem.putLeNat stackp 8 (stackp + 8)
  -- x86 shellcode: sysExit interrupt
  let mem := mem.putLeNat (stackp + 8) 8 0xCCCC30CD40C03193
  if argv.length = 0 then (mem, stackp)
  else
    let (mem, stackp, uparam) := mem.pushStrings stackp (argv.map CString.bytes)
    let stackp := stackp &&& 0xFFFFFFF0
    let stackp := stackp - 8
    let mem := mem.putLeNat stackp 8 0
    let (mem, stackp) := mem.pushWords stackp uparam.reverse
    let stackp := stackp - 8
    let mem := mem.putLeNat stackp 8 (stackp + 4)
    let stackp := stackp - 8
    let mem := mem.putLeNat stackp 4 argv.length
    (mem, stackp - 8)

/-- The size of the copies of the arguments. -/
def copiesSize (argv : List CString) : ℕ := Buf.total (argv.map CString.bytes)

/-- The arguments fit below `USER_STACK`, with their slots. -/
def Fits (argv : List CString) : Prop :=
  copiesSize argv + 15 + 8 * (argv.length + 4) ≤ USER_STACK - 16

instance (argv : List CString) : Decidable (Fits argv) := inferInstanceAs (Decidable (_ ≤ _))

/-- The stack from `rsp` upwards, except for the slot of `argv`: a return slot, `argc`, `argv`, the
pointers `uparam`, a null pointer; above them the copies of the arguments, apart from each other,
and the exit stub. -/
structure OnStack (mem : Buf) (rsp : ℕ) (argv : List CString) (uparam : List ℕ) : Prop where
  argc : mem.leNat (rsp + 8) 4 = argv.length
  length : uparam.length = argv.length
  pointers : ∀ (i p : ℕ), uparam[i]? = some p → mem.leNat (rsp + 24 + 8 * i) 8 = p
  null : mem.leNat (rsp + 24 + 8 * argv.length) 8 = 0
  copies : ∀ (i : ℕ) (arg : CString) (p : ℕ), argv[i]? = some arg → uparam[i]? = some p →
    mem.bytes p (arg.bytes.length + 1) = arg.bytes ++ [0] ∧
      rsp + 8 * (argv.length + 4) ≤ p ∧ p + (arg.bytes.length + 1) ≤ USER_STACK - 16
  apart : ∀ (i j : ℕ) (arg : CString) (p q : ℕ), i < j → uparam[i]? = some p →
    uparam[j]? = some q → argv[j]? = some arg → q + (arg.bytes.length + 1) ≤ p
  stub : mem.leNat (USER_STACK - 16) 8 = USER_STACK - 8 ∧
    mem.leNat (USER_STACK - 8) 8 = 0xCCCC30CD40C03193

/-- The arguments are on the stack, and the slot of `argv` holds the address of the slot of
`argv[0]`. -/
def ArgumentsIntact (mem : Buf) (rsp : ℕ) (argv : List CString) : Prop :=
  (∃ uparam, OnStack mem rsp argv uparam) ∧ mem.leNat (rsp + 16) 8 = rsp + 24

section Stack

variable {mem : Buf} {argv : List CString}

theorem align_le (sp : ℕ) (small : sp < 2 ^ 32) :
    sp &&& 0xFFFFFFF0 ≤ sp ∧ sp ≤ (sp &&& 0xFFFFFFF0) + 15 := by
  have hmask : sp &&& 0xFFFFFFF0 = 16 * (sp / 16) := by
    have hshift : 16 * (sp / 16) = sp >>> 4 <<< 4 := by
      rw [Nat.shiftRight_eq_div_pow, Nat.shiftLeft_eq]
      omega
    have hones : 0xFFFFFFF0 = (2 ^ 28 - 1) <<< 4 := rfl
    rw [hshift, hones]
    apply Nat.eq_of_testBit_eq
    intro i
    rw [Nat.testBit_and, Nat.testBit_shiftLeft, Nat.testBit_shiftLeft, Nat.testBit_shiftRight,
      Nat.testBit_two_pow_sub_one]
    by_cases hlow : i < 4
    · simp [show ¬4 ≤ i by omega]
    · by_cases hhigh : i < 32
      · simp [show 4 + (i - 4) = i by omega, show 4 ≤ i by omega, show i - 4 < 28 by omega]
      · have hzero : sp.testBit i = false := by
          apply Nat.testBit_lt_two_pow
          exact small.trans_le (Nat.pow_le_pow_right (by decide) (by omega))
        simp [hzero, show 4 + (i - 4) = i by omega]
  omega

theorem leNat_of_putLeNat {mem' : Buf} {a n w : ℕ} (small : w < 256 ^ n)
    (same : ∀ k, a ≤ k → k < a + n → mem' k = mem.putLeNat a n w k) : mem'.leNat a n = w := by
  have hframe : mem'.leNat a n = (mem.putLeNat a n w).leNat a n :=
    Buf.leNat_congr fun i hi => same (a + i) (Nat.le_add_right a i) (by omega)
  rw [hframe, Buf.leNat_putLeNat]
  exact Nat.mod_eq_of_lt small

theorem foldl_stackp (argv : List CString) (stackp : ℕ) :
    argv.foldl (fun stackp arg => stackp - (arg.bytes.length + 1)) stackp =
      stackp - copiesSize argv := by
  induction argv generalizing stackp with
  | nil => rfl
  | cons arg argv ih =>
    have htotal := Buf.total_cons arg.bytes (argv.map CString.bytes)
    rw [List.foldl_cons, ih]
    unfold copiesSize
    rw [List.map_cons, htotal, Nat.sub_sub]

theorem userStack_stackp (mem : Buf) (fits : Fits argv) :
    (userStack mem argv).2 = userStackp argv := by
  have hsize : Buf.total (argv.map CString.bytes) = copiesSize argv := rfl
  unfold Fits at fits
  unfold userStack userStackp
  dsimp only
  by_cases hargc : argv.length = 0
  · rw [if_pos hargc, if_pos hargc]
  · rw [if_neg hargc, if_neg hargc, foldl_stackp]
    generalize (mem.putLeNat (USER_STACK - 16) 8 (USER_STACK - 16 + 8)).putLeNat
      (USER_STACK - 16 + 8) 8 0xCCCC30CD40C03193 = stub
    obtain ⟨hroom, hlength, -⟩ :=
      @Buf.pushStrings_spec stub (USER_STACK - 16) (argv.map CString.bytes) (by omega)
    rw [List.length_map] at hlength
    generalize stub.pushStrings (USER_STACK - 16) (argv.map CString.bytes) = strings at hroom hlength
    have hlast : strings.2.1 = USER_STACK - 16 - copiesSize argv := by omega
    rw [Buf.pushWords_sp, List.length_reverse, hlength, hlast]
    omega

/-- The stack of a task with arguments; the slot of `argv` is 4 short of the address of the next
one. -/
theorem onStack_userStack (mem : Buf) (some : argv ≠ []) (fits : Fits argv) :
    (∃ uparam, OnStack (userStack mem argv).1 (userStack mem argv).2 argv uparam) ∧
      (userStack mem argv).1.leNat ((userStack mem argv).2 + 16) 8 + 4 =
        (userStack mem argv).2 + 24 := by
  have hstack : USER_STACK = 0xE0000000 := rfl
  have hsize : Buf.total (argv.map CString.bytes) = copiesSize argv := rfl
  unfold Fits at fits
  have hargc : argv.length ≠ 0 := fun h => some (List.eq_nil_of_length_eq_zero h)
  unfold userStack
  dsimp only
  rw [if_neg hargc]
  generalize hstub : (mem.putLeNat (USER_STACK - 16) 8 (USER_STACK - 16 + 8)).putLeNat
    (USER_STACK - 16 + 8) 8 0xCCCC30CD40C03193 = stub
  have hstrings := @Buf.pushStrings_spec stub (USER_STACK - 16) (argv.map CString.bytes) (by omega)
  generalize stub.pushStrings (USER_STACK - 16) (argv.map CString.bytes) = strings at hstrings
  obtain ⟨mem₁, last, uparam⟩ := strings
  obtain ⟨hroom, hlength, habove, hcopies, hapart⟩ := hstrings
  rw [List.length_map] at hlength
  dsimp only at hroom hlength habove hcopies hapart ⊢
  obtain ⟨hle, hge⟩ := align_le last (by omega)
  generalize last &&& 0xFFFFFFF0 = sp at hle hge
  -- the null pointer and the pointers of `argv`
  generalize hnull : mem₁.putLeNat (sp - 8) 8 0 = mem₂
  have hwords := Buf.pushWords_sp mem₂ (sp - 8) uparam.reverse
  have hkept : ∀ k, sp - 8 ≤ k → (mem₂.pushWords (sp - 8) uparam.reverse).1 k = mem₂ k := fun k hk =>
    Buf.pushWords_above (by rw [List.length_reverse]; omega) hk
  have hfound : ∀ j w, uparam.reverse[j]? = Option.some w → w < 2 ^ 64 →
      (mem₂.pushWords (sp - 8) uparam.reverse).1.leNat (sp - 8 - 8 * (j + 1)) 8 = w := fun j w =>
    Buf.leNat_pushWords (by rw [List.length_reverse]; omega)
  rw [List.length_reverse, hlength] at hwords
  generalize mem₂.pushWords (sp - 8) uparam.reverse = words at hwords hkept hfound
  obtain ⟨mem₃, base⟩ := words
  dsimp only at hwords hkept hfound ⊢
  -- `argv` and `argc`
  generalize hptr : mem₃.putLeNat (base - 8) 8 (base - 8 + 4) = mem₄
  generalize hfinal : mem₄.putLeNat (base - 8 - 8) 4 argv.length = mem₅
  have hslots : ∀ k, base ≤ k → mem₅ k = mem₃ k := fun k hk => by
    rw [← hfinal, Buf.putLeNat_of_not (by omega), ← hptr, Buf.putLeNat_of_not (by omega)]
  have hblock : ∀ k, sp ≤ k → mem₅ k = mem₁ k := fun k hk => by
    rw [hslots k (by omega), hkept k (by omega), ← hnull, Buf.putLeNat_of_not (by omega)]
  have hbase : base - 8 - 8 - 8 + 24 = base := by omega
  refine ⟨⟨uparam, ?_, hlength, ?_, ?_, ?_, ?_, ?_, ?_⟩, ?_⟩
  · apply @leNat_of_putLeNat mem₄ _ _ _ argv.length (by omega)
    intro k _ _
    rw [← hfinal, show base - 8 - 8 - 8 + 8 = base - 8 - 8 by omega]
  · intro i p hp
    have hi := (List.getElem?_eq_some_iff.1 hp).1
    have hword : uparam.reverse[uparam.length - 1 - i]? = Option.some p := by
      rw [List.getElem?_reverse (by omega), ← hp]
      congr 1
      omega
    obtain ⟨-, -, hend⟩ := hcopies i _ p (List.getElem?_eq_getElem (by rw [List.length_map]; omega)) hp
    have hslot := hfound _ p hword (by omega)
    rw [show sp - 8 - 8 * (uparam.length - 1 - i + 1) = base - 8 - 8 - 8 + 24 + 8 * i by omega] at hslot
    rw [← hslot]
    exact Buf.leNat_congr fun j _ => hslots _ (by omega)
  · apply @leNat_of_putLeNat mem₁ _ _ _ 0 (by omega)
    intro k _ _
    rw [hslots k (by omega), hkept k (by omega), ← hnull,
      show base - 8 - 8 - 8 + 24 + 8 * argv.length = sp - 8 by omega]
  · intro i arg p harg hp
    obtain ⟨hbytes, hlow, hhigh⟩ := hcopies i arg.bytes p (by rw [List.getElem?_map, harg]; rfl) hp
    refine ⟨?_, by omega, hhigh⟩
    rw [← hbytes]
    exact Buf.bytes_congr fun j _ => hblock _ (by omega)
  · intro i j arg p q hij hp hq harg
    exact hapart i j arg.bytes p q hij hp hq (by rw [List.getElem?_map, harg]; rfl)
  · have hword : stub.leNat (USER_STACK - 16) 8 = USER_STACK - 8 := by
      apply @leNat_of_putLeNat mem _ _ _ _ (by rw [hstack]; decide)
      intro k _ _
      rw [← hstub, Buf.putLeNat_of_not (by omega)]
      rfl
    rw [← hword]
    exact Buf.leNat_congr fun j _ => by rw [hblock _ (by omega), habove _ (by omega)]
  · have hword : stub.leNat (USER_STACK - 8) 8 = 0xCCCC30CD40C03193 := by
      apply leNat_of_putLeNat (by decide)
      intro k _ _
      rw [← hstub]
      rfl
    rw [← hword]
    exact Buf.leNat_congr fun j _ => by rw [hblock _ (by omega), habove _ (by omega)]
  · have hword : mem₅.leNat (base - 8 - 8 - 8 + 16) 8 = base - 8 + 4 := by
      apply @leNat_of_putLeNat mem₃ _ _ _ _ (by omega)
      intro k _ _
      rw [← hfinal, Buf.putLeNat_of_not (by omega), ← hptr,
        show base - 8 - 8 - 8 + 16 = base - 8 by omega]
    omega

end Stack

/-! ## After `loadTask` -/

section LoadTask

theorem rsp_loadTask {tm : TaskManager} {node : Option Buf} {argv : List CString} {pml4 kstack : ℕ}
    (loaded : (tm.loadTask node argv pml4 kstack).1 ≠ 0) :
    ((tm.loadTask node argv pml4 kstack).2.pList
      (tm.loadTask node argv pml4 kstack).1).regs.rsp = userStackp argv := by
  unfold loadTask at loaded ⊢
  cases node with
  | none => exact absurd rfl loaded
  | some file =>
    dsimp only at loaded ⊢
    split_ifs at loaded ⊢ with hfull
    · exact absurd rfl loaded
    · generalize freeSlot tm.pList MAXPID 1 = pid at loaded ⊢
      unfold loadInto at loaded ⊢
      dsimp only at loaded ⊢
      by_cases hentry : (Elf.loadElf file (tm.pList pid).zones).1 = 0
      · rw [if_pos hentry] at loaded
        exact absurd rfl loaded
      · rw [if_neg hentry]
        simp [setProc, startRegs]

/-- After `loadTask` the arguments of a new task are on its stack, apart from each other and from the
exit stub, but the slot of `argv` does not hold the address of the slot of `argv[0]`: its value is 4
less. -/
theorem arguments_loadTask (tm : TaskManager) (node : Option Buf) (argv : List CString)
    (pml4 kstack : ℕ) (mem : Buf) (loaded : (tm.loadTask node argv pml4 kstack).1 ≠ 0)
    (some : argv ≠ []) (fits : Fits argv) :
    ∃ rsp, rsp = ((tm.loadTask node argv pml4 kstack).2.pList
        (tm.loadTask node argv pml4 kstack).1).regs.rsp ∧
      (∃ uparam, OnStack (userStack mem argv).1 rsp argv uparam) ∧
      (userStack mem argv).1.leNat (rsp + 16) 8 + 4 = rsp + 24 ∧
      ¬ArgumentsIntact (userStack mem argv).1 rsp argv := by
  obtain ⟨hstack, hargv⟩ := onStack_userStack mem some fits
  rw [userStack_stackp mem fits] at hstack hargv
  refine ⟨userStackp argv, (rsp_loadTask loaded).symm, hstack, hargv, fun intact => ?_⟩
  have hpointer := intact.2
  omega

/-- The argument `a`. -/
def argA : List CString := [⟨[97], by simp⟩]

theorem loaded_argA : (booted.loadTask (some smallElf) argA 0 0).1 ≠ 0 := by decide

theorem argA_ne_nil : argA ≠ [] := List.cons_ne_nil _ _

theorem fits_argA : Fits argA := by
  have hsize : copiesSize argA = 2 := rfl
  have hlength : argA.length = 1 := rfl
  have hstack : USER_STACK = 0xE0000000 := rfl
  unfold Fits
  omega

theorem arguments_argA :
    ∃ rsp, rsp = ((booted.loadTask (some smallElf) argA 0 0).2.pList
        (booted.loadTask (some smallElf) argA 0 0).1).regs.rsp ∧
      (∃ uparam, OnStack (userStack (fun _ => 0) argA).1 rsp argA uparam) ∧
      (userStack (fun _ => 0) argA).1.leNat (rsp + 16) 8 + 4 = rsp + 24 ∧
      ¬ArgumentsIntact (userStack (fun _ => 0) argA).1 rsp argA :=
  arguments_loadTask booted (some smallElf) argA 0 0 (fun _ => 0) loaded_argA argA_ne_nil
    fits_argA

/-- One argument is enough to have a wrong `argv`. -/
theorem not_argumentsIntact : ¬∀ (tm : TaskManager) (node : Option Buf) (argv : List CString)
    (pml4 kstack : ℕ) (mem : Buf), (tm.loadTask node argv pml4 kstack).1 ≠ 0 → argv ≠ [] →
      Fits argv → ArgumentsIntact (userStack mem argv).1
        ((tm.loadTask node argv pml4 kstack).2.pList
          (tm.loadTask node argv pml4 kstack).1).regs.rsp argv := by
  intro hall
  have hpointer := (hall booted (some smallElf) argA 0 0 (fun _ => 0) loaded_argA
    argA_ne_nil fits_argA).2
  have hargv := (onStack_userStack (fun _ => 0) argA_ne_nil fits_argA).2
  rw [rsp_loadTask loaded_argA] at hpointer
  rw [userStack_stackp (fun _ => 0) fits_argA] at hargv
  omega

end LoadTask

end TaskManager
