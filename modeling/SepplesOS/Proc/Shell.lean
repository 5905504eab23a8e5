import SepplesOS.Disk.Ext2Tree
import SepplesOS.Proc.Scancodes

/-!
# The shell

From the keys to the file: what is typed reaches the shell (`shell/sh.c`) as a line, by the keyboard
interrupt and `nget`; the shell runs it, and `loadTask` resolves it as a path.  The system calls are those
of `doSyscalls` (`kernel/syscalls.cpp`).  The keyboard interrupt stores in the user memory of the page
directory that is loaded when a key comes.
-/

open VFS NodeHeap Ext2 ATA

namespace Shell

/-- What `doSyscalls` does; `invalid` if it refuses a pointer. -/
inductive Syscall
  | sysExit (status : ℕ)
  | print (str : ℕ)
  | nget (buf n : ℕ)
  | loadTask (path : ℕ)
  | invalid
  | unknown
  deriving DecidableEq

/-- `doSyscalls`. -/
def doSyscalls (sysnum : ℤ) (arg1 arg2 : ℕ) : Syscall :=
  if sysnum = 1 then .sysExit arg1
  else if sysnum = 0x10000 + 1 then
    if isUserPtrValid arg1 then .print arg1 else .invalid
  else if sysnum = 0x10000 + 2 then
    if isUserPtrValid arg1 && isUserPtrValid ((arg1 + arg2) % 2 ^ 64) then
      .nget arg1 (arg2 % 2 ^ 32)
    else .invalid
  else if sysnum = 0x10000 + 3 then
    if isUserPtrValid arg1 then .loadTask arg1 else .invalid
  else .unknown

/-- What the shell does with a line. -/
inductive Command
  | exit
  | help
  | nothing
  | run
  deriving DecidableEq

/-- `"exit\n"` and `"help\n"`. -/
def exitLine : CString := CString.ofBytes [101, 120, 105, 116, 10]
def helpLine : CString := CString.ofBytes [104, 101, 108, 112, 10]

/-- The body of the loop of `main` after `nget`: the command, and the memory, with the end of the line
removed from the buffer before `run`. -/
def command (mem : ℕ → UInt8) (buf : ℕ) (inbuf : CString) : Command × (ℕ → UInt8) :=
  if inbuf = exitLine then (.exit, mem)
  else if inbuf = helpLine then (.help, mem)
  else
    let len := inbuf.bytes.length
    if len ≤ 1 then (.nothing, mem)
    else
      let last := buf + (len - 1)
      (.run, if mem last = 10 then Function.update mem last 0 else mem)

/-- The C string at an address. -/
def StringAt (mem : ℕ → UInt8) (p : ℕ) (s : CString) : Prop :=
  Keyboard.Holds mem p (s.bytes ++ [0])

/-- The size of `inbuf`. -/
def sizeofInbuf : ℕ := 512

/-! ## What is typed -/

section Typed

theorem char_ne_zero (f : Kbd.Flags) (code : UInt8) : (Kbd.isr_kbd_int f code).2.char ≠ some 0 := by
  obtain ⟨l, r, a, c⟩ := f
  revert code l r a c
  decide +kernel

theorem zero_not_mem {f f' : Kbd.Flags} {codes keys : List UInt8}
    (typed : Kbd.run f codes = some (f', keys)) : ∀ c ∈ keys, c ≠ 0 := by
  induction codes generalizing f keys with
  | nil =>
    cases typed
    exact fun c hc => absurd hc List.not_mem_nil
  | cons code codes ih =>
    rw [Kbd.run] at typed
    dsimp only at typed
    split_ifs at typed
    obtain ⟨⟨f₁, cs⟩, hrun, heq⟩ := Option.map_eq_some_iff.1 typed
    cases heq
    intro c hc
    rcases List.mem_append.1 hc with hchar | hlater
    · rintro rfl
      exact char_ne_zero f code (Option.mem_toList.1 hchar)
    · exact ih hrun c hlater

theorem mem_line {keys : List UInt8} {c : UInt8} (mem : c ∈ Keyboard.line keys) : c ∈ keys := by
  induction keys using List.reverseRecOn with
  | nil => exact mem
  | append_singleton keys key ih =>
    rw [Keyboard.line_concat] at mem
    by_cases hback : key = 8
    · rw [hback, Keyboard.edit_back] at mem
      exact List.mem_append_left _ (ih (List.dropLast_subset _ mem))
    · rw [Keyboard.edit_char hback] at mem
      rcases List.mem_append.1 mem with hearlier | hlast
      · exact List.mem_append_left _ (ih hearlier)
      · exact List.mem_append_right _ hlast

theorem nget_spec (mem : ℕ → UInt8) {buf : ℕ} (buffer : buf ≠ 0) {keys : List UInt8}
    (line : ∀ c ∈ keys, ¬Keyboard.Newline c) (short : keys.length < sizeofInbuf) :
    ((Keyboard.nget buf sizeofInbuf).inputs (keys ++ [10])).1.ilock = false ∧
      Keyboard.Holds (Keyboard.storeAll mem ((Keyboard.nget buf sizeofInbuf).inputs (keys ++ [10])).2) buf
        (Keyboard.line keys ++ [10] ++ [0]) := by
  have hstop : Keyboard.toStop sizeofInbuf = 512 := Keyboard.toStop_of_lt (by decide)
  have hwaits : Keyboard.Waits buf 512 (Keyboard.nget buf sizeofInbuf) := by
    rw [Keyboard.nget, hstop]
    exact Keyboard.waits_request buffer (by decide)
  have hfits : ∀ typed, typed <+: keys → (typed.foldl Echo.edit []).length < 2 ^ 32 := by
    intro typed htyped
    have hle := Keyboard.length_foldl_edit_le typed []
    have hprefix := htyped.length_le
    unfold sizeofInbuf at short
    rw [List.length_nil] at hle
    omega
  obtain ⟨hafter, hkeeps⟩ := hwaits.inputs (Keyboard.keeps_request buf _ mem) line
    (fun _ => Int.ofNat_lt.2 short) hfits
  have hlast : (Echo.edit (Keyboard.line keys) 10).length < 2 ^ 32 := by
    have hlen := hfits keys List.prefix_rfl
    have hle := Keyboard.length_foldl_edit_le keys []
    unfold sizeofInbuf at short
    rw [Keyboard.edit_char (by decide), List.length_append, List.length_singleton]
    unfold Keyboard.line
    rw [List.length_nil] at hle
    omega
  obtain ⟨hholds, hend, -⟩ := hkeeps.input hafter hlast
  rw [Keyboard.inputs_concat, Keyboard.storeAll_append]
  refine ⟨hafter.unlocked_iff.2 (Or.inl (Or.inl rfl)), ?_⟩
  have htext := hholds.concat (hend (by decide))
  rw [Keyboard.edit_char (by decide)] at htext
  exact htext

end Typed

/-! ## What is run -/

/-- What a line is for the shell: a command, nothing, or the path of a file to run. -/
def meant (text : List UInt8) : Command :=
  if text = [101, 120, 105, 116] then .exit
  else if text = [104, 101, 108, 112] then .help
  else if text = [] then .nothing
  else .run

section Run

variable {mem : ℕ → UInt8} {buf : ℕ} {path inbuf : CString}

/-- The shell does what is meant, and leaves the line without its end at the buffer when it runs it. -/
theorem command_spec (holds : StringAt mem buf inbuf) (line : inbuf.bytes = path.bytes ++ [10]) :
    (command mem buf inbuf).1 = meant path.bytes ∧
      (meant path.bytes = .run → StringAt (command mem buf inbuf).2 buf path) := by
  have hcommand : ∀ (s : CString) text, s.bytes = text ++ [10] → (inbuf = s ↔ path.bytes = text) := by
    intro s text hs
    rw [← (List.append_left_inj [10] : path.bytes ++ [10] = text ++ [10] ↔ _), ← line, ← hs]
    exact ⟨fun h => by rw [h], CString.ext⟩
  have hlen : inbuf.bytes.length = path.bytes.length + 1 := by rw [line]; simp
  have hlast : mem (buf + path.bytes.length) = 10 := by
    have hget := holds path.bytes.length (by simp [hlen])
    rw [line] at hget
    simpa using hget.symm
  unfold command meant
  simp only [hcommand exitLine [101, 120, 105, 116] (by decide),
    hcommand helpLine [104, 101, 108, 112] (by decide)]
  by_cases hexit : path.bytes = [101, 120, 105, 116]
  · simp [hexit]
  rw [if_neg hexit, if_neg hexit]
  by_cases hhelp : path.bytes = [104, 101, 108, 112]
  · simp [hhelp]
  rw [if_neg hhelp, if_neg hhelp, hlen, Nat.add_sub_cancel]
  by_cases hempty : path.bytes = []
  · simp [hempty]
  have hpos : 0 < path.bytes.length := List.length_pos_iff.2 hempty
  rw [if_neg hempty, if_neg (by omega), if_pos hlast]
  refine ⟨rfl, fun _ i hi => ?_⟩
  rw [List.length_append, List.length_singleton] at hi
  dsimp only
  by_cases hend : i = path.bytes.length
  · rw [hend, Function.update_self]
    simp
  · have hget := holds i (by simp [hlen]; omega)
    rw [Function.update_of_ne (by omega), ← hget, line, List.getElem?_append_left (by omega),
      List.getElem?_append_left (by simp; omega), List.getElem?_append_left (by omega)]

end Run

/-- User memory after the keyboard has taken some keys, each with the page directory that is loaded when it
comes. -/
def memAfter (umem : ℕ → ℕ → UInt8) (kb : Keyboard) : List (ℕ × UInt8) → ℕ → ℕ → UInt8
  | [] => umem
  | (cr3, c) :: keys =>
    let stores := (kb.input c).2.map fun st => ⟨cr3, st.1, st.2⟩
    memAfter (stores.foldl writeByte umem) (kb.input c).1 keys

section Directory

variable {dir : ℕ}

theorem foldl_writeByte_dir (umem : ℕ → ℕ → UInt8) (stores : List (ℕ × UInt8)) :
    (stores.map fun st => (⟨dir, st.1, st.2⟩ : Store)).foldl writeByte umem dir =
      Keyboard.storeAll (umem dir) stores := by
  induction stores generalizing umem with
  | nil => rfl
  | cons st stores ih =>
    rw [List.map_cons, List.foldl_cons, ih, writeByte, Function.update_self]
    rfl

/-- As long as one page directory is loaded, its memory has what the keys store. -/
theorem memAfter_dir (umem : ℕ → ℕ → UInt8) (kb : Keyboard) {under : List (ℕ × UInt8)}
    (loaded : ∀ k ∈ under, k.1 = dir) :
    memAfter umem kb under dir = Keyboard.storeAll (umem dir) (kb.inputs (under.map Prod.snd)).2 := by
  induction under generalizing umem kb with
  | nil => rfl
  | cons k under ih =>
    obtain ⟨cr3, c⟩ := k
    obtain rfl : cr3 = dir := loaded _ List.mem_cons_self
    have hrest := fun k hk => loaded k (List.mem_cons_of_mem _ hk)
    rw [memAfter, ih _ _ hrest, foldl_writeByte_dir, List.map_cons, Keyboard.inputs_cons,
      Keyboard.storeAll_append]

end Directory

/-- The keys of `/0/A`, a backspace, `a` and the newline, with the page directory 5 loaded. -/
def oneFileKeys : List (ℕ × UInt8) := ([47, 48, 47, 65, 8, 97] ++ [10] : List UInt8).map fun c => (5, c)

end Shell
