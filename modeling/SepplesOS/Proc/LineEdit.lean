import SepplesOS.Vga.Echo

/-!
# The line a request reads

A request of `Keyboard::nget` or `Keyboard::scan` and the keystrokes `Keyboard::input` takes for it.
The reference is a line that a backspace shortens and any other key extends.  A backspace moves only
the position: the text and the terminator behind it stay.  In `nget` every keystroke uses up one of
the `n` characters, a backspace like any other, and the terminator stands behind them.
-/

namespace Keyboard

/-- `nget` and `scan` as they wait for the end of the request. -/
def request (buf : ℕ) (stop : ℤ) : Keyboard := ⟨true, buf, 0, stop⟩
def nget (buf n : ℕ) : Keyboard := request buf (toStop n)
def scan (buf : ℕ) : Keyboard := request buf (-1)

/-- Keystrokes one after another: the state after them and all the bytes stored, in order. -/
def inputs (kb : Keyboard) : List UInt8 → Keyboard × List (ℕ × UInt8)
  | [] => (kb, [])
  | c :: keys =>
    let (kb, stores) := kb.input c
    let (kb, rest) := kb.inputs keys
    (kb, stores ++ rest)

/-- Memory after some bytes are stored. -/
def storeAll (mem : ℕ → UInt8) (stores : List (ℕ × UInt8)) : ℕ → UInt8 :=
  stores.foldl (fun mem st => Function.update mem st.1 st.2) mem

/-- The line of some keystrokes: a backspace removes the last character if there is one, any other
key appends itself. -/
def line (keys : List UInt8) : List UInt8 := keys.foldl Echo.edit []

/-- The end of a line. -/
def Newline (c : UInt8) : Prop := c = 10 ∨ c = 13

instance (c : UInt8) : Decidable (Newline c) := inferInstanceAs (Decidable (_ ∨ _))

/-- Memory holds some text at an address. -/
def Holds (mem : ℕ → UInt8) (buf : ℕ) (text : List UInt8) : Prop :=
  ∀ i < text.length, text[i]? = some (mem (buf + i))

/-- The keystrokes up to the first end of a line, with it. -/
def upToNewline : List UInt8 → List UInt8
  | [] => []
  | c :: keys => if Newline c then [c] else c :: upToNewline keys

/-- The keystrokes that a request takes: all up to the end of a line, and no more than `stop` if it
counts them. -/
def heard (stop : ℤ) (keys : List UInt8) : List UInt8 :=
  if stop = -2 then [] else upToNewline (if stop < 0 then keys else keys.take stop.toNat)

/-! ## One keystroke -/

section Step

variable {kb : Keyboard} {mem : ℕ → UInt8} {buf : ℕ} {stop : ℤ} {text : List UInt8} {c : UInt8}

/-- What is left of the count of a request after a keystroke. -/
def next (stop : ℤ) : ℤ := if stop < 0 then stop else stop - 1

/-- A keystroke completes the request. -/
def Completes (stop : ℤ) (c : UInt8) : Prop := Newline c ∨ stop = 1

instance (stop : ℤ) (c : UInt8) : Decidable (Completes stop c) :=
  inferInstanceAs (Decidable (_ ∨ _))

/-- A request waits for keystrokes. -/
structure Waits (buf : ℕ) (stop : ℤ) (kb : Keyboard) : Prop where
  lock : kb.ilock = true
  ubuf : kb.ubuf = buf
  buffer : buf ≠ 0
  left : kb.stop = stop
  counts : stop ≠ -2 ∧ stop ≠ 0

/-- The line of the request so far is in its buffer. -/
structure Keeps (text : List UInt8) (kb : Keyboard) (mem : ℕ → UInt8) : Prop where
  pos : kb.pos.toNat = text.length
  holds : Holds mem kb.ubuf text

theorem typed_char (h : c ≠ 8) : kb.typed c = ({ kb with pos := kb.pos + 1 },
    [(kb.ubuf + kb.pos.toNat, c), (kb.ubuf + (kb.pos + 1).toNat, 0)]) := by
  unfold typed
  rw [if_neg h]

theorem typed_back (h : kb.pos ≠ 0) : kb.typed 8 = ({ kb with pos := kb.pos - 1 }, []) := by
  simp [typed, h]

theorem typed_stuck (h : kb.pos = 0) : kb.typed 8 = (kb, [(kb.ubuf, 0)]) := by
  simp [typed, h]

theorem typed_stop (kb : Keyboard) (c : UInt8) : (kb.typed c).1.stop = kb.stop := by
  unfold typed
  split_ifs <;> rfl

theorem edit_char (h : c ≠ 8) (text : List UInt8) : Echo.edit text c = text ++ [c] := by
  simp [Echo.edit, h]

@[simp]
theorem edit_back (text : List UInt8) : Echo.edit text 8 = text.dropLast := by
  simp [Echo.edit]

/-- A keystroke edits the text in the buffer; any but a backspace leaves a terminator behind it. -/
theorem Keeps.typed (keeps : Keeps text kb mem) (fits : (Echo.edit text c).length < 2 ^ 32) :
    Keeps (Echo.edit text c) (kb.typed c).1 (storeAll mem (kb.typed c).2) ∧
      (c ≠ 8 → storeAll mem (kb.typed c).2 (kb.ubuf + (Echo.edit text c).length) = 0) := by
  obtain ⟨pos, holds⟩ := keeps
  by_cases hback : c = 8
  · rw [hback, edit_back]
    by_cases hzero : kb.pos = 0
    · have hnil : text = [] := by
        apply List.eq_nil_of_length_eq_zero
        rw [← pos, hzero]
        rfl
      rw [typed_stuck hzero, hnil]
      exact ⟨⟨congrArg UInt32.toNat hzero, fun i hi => absurd hi (Nat.not_lt_zero i)⟩,
        fun h => absurd rfl h⟩
    · have hne : kb.pos.toNat ≠ 0 := fun h => hzero (UInt32.toNat_inj.1 h)
      have hprev : (kb.pos - 1).toNat = kb.pos.toNat - 1 :=
        UInt32.toNat_sub_of_le _ _ (UInt32.le_iff_toNat_le.2 (by change 1 ≤ kb.pos.toNat; omega))
      rw [typed_back hzero]
      refine ⟨⟨?_, fun i hi => ?_⟩, fun h => absurd rfl h⟩
      · rw [List.length_dropLast, ← pos]
        exact hprev
      · rw [List.length_dropLast] at hi
        rw [List.getElem?_dropLast, if_pos hi]
        exact holds i (by omega)
  · rw [edit_char hback, List.length_append, List.length_singleton] at fits ⊢
    have hnext : (kb.pos + 1).toNat = text.length + 1 := by
      rw [UInt32.toNat_add, pos]
      exact Nat.mod_eq_of_lt fits
    rw [typed_char hback, hnext, pos]
    refine ⟨⟨?_, fun i hi => ?_⟩, fun _ => by simp [storeAll]⟩
    · rw [List.length_append, List.length_singleton]
      exact hnext
    · rw [List.length_append, List.length_singleton] at hi
      simp only [storeAll, List.foldl_cons, List.foldl_nil]
      rw [Function.update_of_ne (by omega)]
      by_cases hlast : i = text.length
      · rw [hlast, Function.update_self]
        exact List.getElem?_concat_length
      · rw [Function.update_of_ne (by omega), List.getElem?_append_left (by omega)]
        exact holds i (by omega)

theorem Waits.input_eq (waits : Waits buf stop kb) (c : UInt8) :
    kb.input c = (if Completes stop c then kb.unlock
      else { (kb.typed c).1 with stop := next stop }, (kb.typed c).2) := by
  have hactive : kb.ilock = true ∧ kb.ubuf ≠ 0 ∧ kb.stop ≠ -2 :=
    ⟨waits.lock, waits.ubuf ▸ waits.buffer, waits.left ▸ waits.counts.1⟩
  have hstop := (typed_stop kb c).trans waits.left
  have hleft := waits.left
  have hcounts := waits.counts
  unfold input next
  rw [if_pos hactive]
  generalize kb.typed c = typed at hstop
  obtain ⟨kb', stores⟩ := typed
  dsimp only at hstop ⊢
  subst hleft
  by_cases hend : c = 10 ∨ c = 13
  · have hlast : Completes kb.stop c := Or.inl hend
    rw [if_pos hlast, if_pos hend, if_pos hend, if_pos rfl, if_neg hcounts.2, ite_self]
    rfl
  · by_cases hscan : kb.stop < 0
    · have hgoes : ¬Completes kb.stop c := not_or.2 ⟨hend, by omega⟩
      rw [if_pos hscan, if_pos hscan, if_neg hend, if_neg hgoes, ← hstop]
    · rw [if_neg hscan, if_neg hscan, if_neg hcounts.2, if_neg hend, hstop]
      by_cases hone : kb.stop = 1
      · have hlast : Completes kb.stop c := Or.inr hone
        rw [if_pos hlast, if_pos (by omega)]
        rfl
      · have hgoes : ¬Completes kb.stop c := not_or.2 ⟨hend, hone⟩
        rw [if_neg hgoes, if_neg (by omega)]

theorem Waits.input (waits : Waits buf stop kb) (goes : ¬Completes stop c) :
    Waits buf (next stop) (kb.input c).1 := by
  obtain ⟨hlock, hubuf, -⟩ := System.typed_spec kb c
  rw [waits.input_eq, if_neg goes]
  refine ⟨hlock.trans waits.lock, hubuf.trans waits.ubuf, waits.buffer, rfl, ?_⟩
  obtain ⟨hmode, hzero⟩ := waits.counts
  have hone : stop ≠ 1 := fun h => goes (Or.inr h)
  unfold next
  split_ifs <;> omega

theorem Waits.unlocked_iff (waits : Waits buf stop kb) :
    (kb.input c).1.ilock = false ↔ Completes stop c := by
  by_cases h : Completes stop c
  · rw [waits.input_eq, if_pos h]
    exact iff_of_true rfl h
  · have hlock := (waits.input h).lock
    exact iff_of_false (by simp [hlock]) h

theorem Keeps.input (keeps : Keeps text kb mem) (waits : Waits buf stop kb)
    (fits : (Echo.edit text c).length < 2 ^ 32) :
    Holds (storeAll mem (kb.input c).2) buf (Echo.edit text c) ∧
      (c ≠ 8 → storeAll mem (kb.input c).2 (buf + (Echo.edit text c).length) = 0) ∧
      (¬Completes stop c → Keeps (Echo.edit text c) (kb.input c).1 (storeAll mem (kb.input c).2)) := by
  obtain ⟨⟨hpos, hholds⟩, hend⟩ := keeps.typed fits
  have hubuf := (System.typed_spec kb c).2.1
  rw [hubuf, waits.ubuf] at hholds
  rw [waits.ubuf] at hend
  rw [waits.input_eq]
  refine ⟨hholds, hend, fun goes => ?_⟩
  rw [if_neg goes]
  refine ⟨hpos, ?_⟩
  dsimp only
  rw [hubuf, waits.ubuf]
  exact hholds

theorem input_of_unlocked (h : kb.ilock = false) (c : UInt8) : kb.input c = (kb, []) := by
  simp [Keyboard.input, h]

end Step

/-! ## Keystrokes one after another -/

section Inputs

variable {kb : Keyboard} {mem : ℕ → UInt8} {buf : ℕ} {stop : ℤ} {text keys : List UInt8}

@[simp]
theorem storeAll_nil (mem : ℕ → UInt8) : storeAll mem [] = mem := rfl

@[simp]
theorem storeAll_append (mem : ℕ → UInt8) (xs ys : List (ℕ × UInt8)) :
    storeAll mem (xs ++ ys) = storeAll (storeAll mem xs) ys :=
  List.foldl_append

@[simp]
theorem inputs_nil (kb : Keyboard) : kb.inputs [] = (kb, []) := rfl

theorem inputs_cons (kb : Keyboard) (c : UInt8) (keys : List UInt8) :
    kb.inputs (c :: keys) =
      (((kb.input c).1.inputs keys).1, (kb.input c).2 ++ ((kb.input c).1.inputs keys).2) := rfl

theorem inputs_append (kb : Keyboard) (xs ys : List UInt8) :
    kb.inputs (xs ++ ys) =
      (((kb.inputs xs).1.inputs ys).1, (kb.inputs xs).2 ++ ((kb.inputs xs).1.inputs ys).2) := by
  induction xs generalizing kb with
  | nil => simp
  | cons c xs ih => simp [inputs_cons, ih]

theorem inputs_concat (kb : Keyboard) (keys : List UInt8) (c : UInt8) :
    kb.inputs (keys ++ [c]) =
      (((kb.inputs keys).1.input c).1, (kb.inputs keys).2 ++ ((kb.inputs keys).1.input c).2) := by
  simp [inputs_append, inputs_cons]

theorem inputs_of_unlocked (h : kb.ilock = false) (keys : List UInt8) :
    kb.inputs keys = (kb, []) := by
  induction keys with
  | nil => rfl
  | cons c keys ih => simp [inputs_cons, input_of_unlocked h, ih]

theorem length_foldl_edit_le (keys text : List UInt8) :
    (keys.foldl Echo.edit text).length ≤ text.length + keys.length := by
  induction keys generalizing text with
  | nil => simp
  | cons c keys ih =>
    have hrest := ih (Echo.edit text c)
    have hone : (Echo.edit text c).length ≤ text.length + 1 := by
      by_cases hback : c = 8
      · rw [hback, edit_back, List.length_dropLast]
        omega
      · simp [edit_char hback]
    rw [List.foldl_cons, List.length_cons]
    omega

/-- A request that has taken some keystrokes and still waits: none of them ended the line, and they
are fewer than it counts. -/
theorem Waits.of_pending (waits : Waits buf stop kb)
    (pending : (kb.inputs keys).1.ilock = true) :
    (∀ c ∈ keys, ¬Newline c) ∧ (0 < stop → (keys.length : ℤ) < stop) := by
  induction keys generalizing kb stop with
  | nil => exact ⟨by simp, fun h => by simpa using h⟩
  | cons c keys ih =>
    rw [inputs_cons] at pending
    dsimp only at pending
    have hgoes : ¬Completes stop c := by
      intro hends
      have hlock := waits.unlocked_iff.2 hends
      rw [inputs_of_unlocked hlock, hlock] at pending
      cases pending
    obtain ⟨hline, hcount⟩ := ih (waits.input hgoes) pending
    refine ⟨?_, fun hpos => ?_⟩
    · rintro d hd
      rcases List.mem_cons.1 hd with rfl | hd
      · exact fun h => hgoes (Or.inl h)
      · exact hline d hd
    · have hone : stop ≠ 1 := fun h => hgoes (Or.inr h)
      unfold next at hcount
      rw [if_neg (by omega)] at hcount
      have := hcount (by omega)
      rw [List.length_cons]
      omega

/-- What is left of the count of a request after some keystrokes. -/
def leftAfter (stop : ℤ) (taken : ℕ) : ℤ := if stop < 0 then stop else stop - taken

/-- A request waits, with its line in its buffer, as long as no keystroke ends the line or uses up
the count. -/
theorem Waits.inputs (waits : Waits buf stop kb) (keeps : Keeps text kb mem)
    (line : ∀ c ∈ keys, ¬Newline c) (count : 0 < stop → (keys.length : ℤ) < stop)
    (fits : ∀ typed, typed <+: keys → (typed.foldl Echo.edit text).length < 2 ^ 32) :
    Waits buf (leftAfter stop keys.length) (kb.inputs keys).1 ∧
      Keeps (keys.foldl Echo.edit text) (kb.inputs keys).1 (storeAll mem (kb.inputs keys).2) := by
  induction keys generalizing kb mem stop text with
  | nil =>
    have hleft : leftAfter stop 0 = stop := by simp [leftAfter]
    exact ⟨hleft.symm ▸ waits, keeps⟩
  | cons c keys ih =>
    rw [List.length_cons] at count ⊢
    have hgoes : ¬Completes stop c := by
      rintro (hline | hone)
      · exact line c List.mem_cons_self hline
      · have := count (by omega)
        omega
    have hnext : leftAfter (next stop) keys.length = leftAfter stop (keys.length + 1) := by
      have hcounts := waits.counts
      have hone : stop ≠ 1 := fun h => hgoes (Or.inr h)
      unfold leftAfter next
      split_ifs <;> omega
    have hkeeps := (keeps.input waits (fits [c] (by simp))).2.2 hgoes
    rw [inputs_cons, storeAll_append, ← hnext]
    refine ih (waits.input hgoes) hkeeps (fun d hd => line d (List.mem_cons_of_mem _ hd)) ?_ ?_
    · intro hpos
      unfold next at hpos ⊢
      split_ifs at hpos ⊢ <;> omega
    · exact fun typed htyped => fits (c :: typed) (List.cons_prefix_cons.2 ⟨rfl, htyped⟩)

end Inputs

/-! ## The reference -/

section Line

variable {keys text : List UInt8}

theorem line_concat (keys : List UInt8) (c : UInt8) : line (keys ++ [c]) = Echo.edit (line keys) c :=
  List.foldl_concat ..

theorem foldl_edit_of_no_back (h : 8 ∉ keys) (text : List UInt8) :
    keys.foldl Echo.edit text = text ++ keys := by
  induction keys generalizing text with
  | nil => simp
  | cons c keys ih =>
    obtain ⟨hc, hkeys⟩ := not_or.1 (mt List.mem_cons.2 h)
    rw [List.foldl_cons, edit_char (Ne.symm hc), ih hkeys]
    simp

theorem line_of_no_back (h : 8 ∉ keys) : line keys = keys := foldl_edit_of_no_back h []

theorem length_foldl_edit_lt (h : 8 ∈ keys) (text : List UInt8) :
    (keys.foldl Echo.edit text).length < text.length + keys.length := by
  induction keys generalizing text with
  | nil => simp at h
  | cons c keys ih =>
    rw [List.foldl_cons, List.length_cons]
    by_cases hback : c = 8
    · have hrest := length_foldl_edit_le keys (Echo.edit text c)
      rw [hback, edit_back, List.length_dropLast] at hrest
      rw [hback, edit_back]
      omega
    · have hrest := ih ((List.mem_cons.1 h).resolve_left (Ne.symm hback)) (Echo.edit text c)
      rw [edit_char hback, List.length_append, List.length_singleton] at hrest
      rw [edit_char hback]
      omega

theorem Holds.concat {mem : ℕ → UInt8} {buf : ℕ} {c : UInt8} (holds : Holds mem buf text)
    (last : mem (buf + text.length) = c) : Holds mem buf (text ++ [c]) := by
  intro i hi
  rw [List.length_append, List.length_singleton] at hi
  by_cases h : i = text.length
  · rw [h, last, List.getElem?_concat_length]
  · rw [List.getElem?_append_left (by omega)]
    exact holds i (by omega)

end Line

/-! ## The line of `scan` -/

section Scan

theorem waits_request {buf : ℕ} {stop : ℤ} (buffer : buf ≠ 0) (counts : stop ≠ -2 ∧ stop ≠ 0) :
    Waits buf stop (request buf stop) :=
  ⟨rfl, rfl, buffer, rfl, counts⟩

theorem keeps_request (buf : ℕ) (stop : ℤ) (mem : ℕ → UInt8) : Keeps [] (request buf stop) mem :=
  ⟨rfl, fun _ hi => absurd hi (Nat.not_lt_zero _)⟩

theorem scan_pending (mem : ℕ → UInt8) {buf : ℕ} (buffer : buf ≠ 0) {keys : List UInt8}
    (before : ∀ key ∈ keys, ¬Newline key)
    (short : ∀ typed, typed <+: keys → (line typed).length < 2 ^ 32) :
    Waits buf (-1) ((scan buf).inputs keys).1 ∧
      Keeps (line keys) ((scan buf).inputs keys).1 (storeAll mem ((scan buf).inputs keys).2) := by
  have hleft : leftAfter (-1) keys.length = -1 := if_pos (by decide)
  have hrun := (waits_request buffer (by decide)).inputs (keeps_request buf (-1) mem) before
    (fun hpos => absurd hpos (by decide)) short
  rw [hleft] at hrun
  exact hrun

/-- `scan` waits for the end of the line, and its buffer then holds the edited line, the end of the
line and a terminator, provided that the line never has as many as `2^32` characters. -/
theorem scan_line (mem : ℕ → UInt8) (buf : ℕ) (buffer : buf ≠ 0) (keys : List UInt8) (c : UInt8)
    (before : ∀ key ∈ keys, ¬Newline key) (ends : Newline c)
    (short : ∀ typed, typed <+: keys ++ [c] → (line typed).length < 2 ^ 32) :
    (∀ typed, typed <+: keys → ((scan buf).inputs typed).1.ilock = true) ∧
      ((scan buf).inputs (keys ++ [c])).1.ilock = false ∧
      Holds (storeAll mem ((scan buf).inputs (keys ++ [c])).2) buf (line keys ++ [c, 0]) := by
  have hkeys : keys <+: keys ++ [c] := List.prefix_append keys [c]
  have hback : c ≠ 8 := by
    rintro rfl
    revert ends
    decide
  have hfits := short (keys ++ [c]) List.prefix_rfl
  rw [line_concat] at hfits
  obtain ⟨hwaits, hkeeps⟩ := scan_pending mem buffer before fun typed htyped =>
    short typed (htyped.trans hkeys)
  obtain ⟨hholds, hend, -⟩ := hkeeps.input hwaits hfits
  refine ⟨fun typed htyped => ?_, ?_, ?_⟩
  · apply Waits.lock
    apply And.left
    apply scan_pending mem buffer
    · exact fun key hkey => before key (htyped.subset hkey)
    · exact fun more hmore => short more ((hmore.trans htyped).trans hkeys)
  · rw [inputs_concat]
    exact hwaits.unlocked_iff.2 (Or.inl ends)
  · rw [inputs_concat, storeAll_append]
    have htext := hholds.concat (hend hback)
    rw [edit_char hback, List.append_assoc] at htext
    exact htext

/-- Three letters, the second one taken back, and a newline. -/
theorem scan_line_back :
    (∀ typed, typed <+: [97, 98, 8, 99] → ((scan 0x1000).inputs typed).1.ilock = true) ∧
      ((scan 0x1000).inputs ([97, 98, 8, 99] ++ [10])).1.ilock = false ∧
      Holds (storeAll (fun _ => 0) ((scan 0x1000).inputs ([97, 98, 8, 99] ++ [10])).2) 0x1000
        [97, 99, 10, 0] := by
  rw [show [97, 99, 10, 0] = line [97, 98, 8, 99] ++ [10, 0] from rfl]
  apply scan_line (fun _ => 0) 0x1000 (by decide) [97, 98, 8, 99] 10
  · intro key hkey
    fin_cases hkey <;> decide
  · exact Or.inl rfl
  · intro typed htyped
    apply lt_of_le_of_lt (length_foldl_edit_le typed [])
    have hprefix := htyped.length_le
    simp only [List.length_nil, List.length_append, List.length_cons] at hprefix ⊢
    omega

/-- The newline after `2^32 - 1` letters puts the terminator in the place of the first one. -/
theorem scan_wraps {n : ℕ} (full : n + 1 = 2 ^ 32) :
    ¬Holds (storeAll (fun _ => 0) ((scan 1).inputs (List.replicate n 97 ++ [10])).2) 1
      (line (List.replicate n 97) ++ [10, 0]) := by
  intro hholds
  have hletter : ∀ key ∈ List.replicate n (97 : UInt8), key = 97 := fun key hkey =>
    List.eq_of_mem_replicate hkey
  have hbefore : ∀ key ∈ List.replicate n (97 : UInt8), ¬Newline key := by
    intro key hkey
    rw [hletter key hkey]
    decide
  have hline : line (List.replicate n 97) = List.replicate n 97 :=
    line_of_no_back fun hmem => absurd (hletter 8 hmem) (by decide)
  obtain ⟨hwaits, hkeeps⟩ := scan_pending (fun _ => 0) one_ne_zero hbefore fun typed htyped => by
    apply lt_of_le_of_lt (length_foldl_edit_le typed [])
    have hprefix := htyped.length_le
    rw [List.length_replicate] at hprefix
    rw [List.length_nil]
    omega
  have hfirst := hholds 0 (by simp [hline])
  rw [inputs_concat, storeAll_append, hwaits.input_eq, hline] at hfirst
  obtain ⟨hpos, -⟩ := hkeeps
  rw [hline, List.length_replicate] at hpos
  generalize storeAll (fun _ => 0) ((scan 1).inputs (List.replicate n 97)).2 = mem at hfirst
  have hubuf := hwaits.ubuf
  generalize ((scan 1).inputs (List.replicate n 97)).1 = kb at hfirst hpos hubuf
  have hwrap : (kb.pos + 1).toNat = 0 := by
    rw [UInt32.toNat_add, hpos]
    exact full ▸ Nat.mod_self (n + 1)
  have hletter₀ : (List.replicate n (97 : UInt8) ++ [10, 0])[0]? = some 97 := by
    cases n with
    | zero => omega
    | succ n => rfl
  rw [hletter₀, typed_char (by decide), hwrap, hubuf] at hfirst
  simp [storeAll] at hfirst

/-- The position has 32 bits, so that a line of `2^32` characters starts over. -/
theorem not_scan_line : ¬∀ (mem : ℕ → UInt8) (buf : ℕ), buf ≠ 0 →
    ∀ (keys : List UInt8) (c : UInt8), (∀ key ∈ keys, ¬Newline key) → Newline c →
      (∀ typed, typed <+: keys → ((scan buf).inputs typed).1.ilock = true) ∧
        ((scan buf).inputs (keys ++ [c])).1.ilock = false ∧
        Holds (storeAll mem ((scan buf).inputs (keys ++ [c])).2) buf (line keys ++ [c, 0]) := by
  intro hall
  obtain ⟨n, hfull⟩ : ∃ n : ℕ, n + 1 = 2 ^ 32 := ⟨2 ^ 32 - 1, Nat.sub_add_cancel Nat.one_le_two_pow⟩
  apply scan_wraps hfull
  refine (hall (fun _ => 0) 1 one_ne_zero (List.replicate n 97) 10 (fun key hkey => ?_) ?_).2.2
  · rw [List.eq_of_mem_replicate hkey]
    decide
  · exact Or.inl rfl

end Scan

/-! ## The line of `nget` -/

section Nget

variable {buf n : ℕ} {keys : List UInt8} {c : UInt8}

theorem toStop_of_lt (h : n < 2 ^ 31) : toStop n = n := by
  unfold toStop
  omega

theorem inputs_of_null {kb : Keyboard} (h : kb.ubuf = 0) (keys : List UInt8) :
    kb.inputs keys = (kb, []) := by
  induction keys with
  | nil => rfl
  | cons c keys ih =>
    have hinput : kb.input c = (kb, []) := by simp [input, h]
    simp [inputs_cons, hinput, ih]

/-- When `nget` completes, its buffer holds the edited line, and the line was ended or has `n`
characters, exactly if a newline completes it or no backspace was typed. -/
theorem nget_line_iff (mem : ℕ → UInt8) (buf n : ℕ) (positive : 1 ≤ n) (small : n < 2 ^ 31)
    (keys : List UInt8) (c : UInt8) (pending : ((nget buf n).inputs keys).1.ilock = true)
    (complete : ((nget buf n).inputs (keys ++ [c])).1.ilock = false) :
    (Holds (storeAll mem ((nget buf n).inputs (keys ++ [c])).2) buf (line (keys ++ [c]) ++ [0]) ∧
      (Newline c ∨ (line (keys ++ [c])).length = n)) ↔
      (Newline c ∨ 8 ∉ keys ++ [c]) := by
  have hbuffer : buf ≠ 0 := by
    intro hnull
    rw [inputs_of_null (show (nget buf n).ubuf = 0 from hnull)] at complete
    cases complete
  have hstop : nget buf n = request buf n := by rw [nget, toStop_of_lt small]
  rw [hstop] at pending complete ⊢
  have hwaits := @waits_request _ (n : ℤ) hbuffer ⟨by omega, by omega⟩
  obtain ⟨hline, hcount⟩ := hwaits.of_pending pending
  have hlength : keys.length < n := by
    have := hcount (by omega)
    omega
  obtain ⟨hafter, hkeeps⟩ := hwaits.inputs (keeps_request buf n mem) hline hcount
    fun typed htyped => by
      have hle := length_foldl_edit_le typed []
      have hprefix := htyped.length_le
      rw [List.length_nil] at hle
      omega
  have hfits : (Echo.edit (line keys) c).length < 2 ^ 32 := by
    have hle := length_foldl_edit_le (keys ++ [c]) []
    rw [← line_concat]
    unfold line
    simp only [List.length_nil, List.length_append, List.length_singleton] at hle
    omega
  obtain ⟨hholds, hend, -⟩ := hkeeps.input hafter hfits
  have hcompletes : Newline c ∨ keys.length + 1 = n := by
    rw [inputs_concat] at complete
    rcases hafter.unlocked_iff.1 complete with h | h
    · exact Or.inl h
    · unfold leftAfter at h
      rw [if_neg (by omega)] at h
      exact Or.inr (by omega)
  have hnewline : Newline c → c ≠ 8 := by
    rintro h rfl
    revert h
    decide
  rw [inputs_concat, storeAll_append]
  constructor
  · rintro ⟨-, h | h⟩
    · exact Or.inl h
    · refine or_iff_not_imp_left.2 fun hnot hmem => ?_
      have hlt := length_foldl_edit_lt hmem []
      have htotal := hcompletes.resolve_left hnot
      unfold line at h
      simp only [List.length_nil, List.length_append, List.length_singleton] at hlt
      omega
  · intro h
    have hback : c ≠ 8 := by
      rcases h with h | h
      · exact hnewline h
      · rintro rfl
        exact h (by simp)
    refine ⟨line_concat keys c ▸ hholds.concat (hend hback), ?_⟩
    rcases h with h | h
    · exact Or.inl h
    · refine hcompletes.imp_right fun htotal => ?_
      rw [line_of_no_back h, List.length_append, List.length_singleton]
      exact htotal

/-- A newline completes a request for four characters after an `a`, a backspace and a `b`. -/
theorem nget_line_edited :
    (Holds (storeAll (fun _ => 0) ((nget 0x1000 4).inputs ([97, 8, 98] ++ [10])).2) 0x1000
        (line ([97, 8, 98] ++ [10]) ++ [0]) ∧
      (Newline 10 ∨ (line ([97, 8, 98] ++ [10])).length = 4)) ↔
      (Newline 10 ∨ 8 ∉ ([97, 8, 98] ++ [10] : List UInt8)) :=
  nget_line_iff (fun _ => 0) 0x1000 4 (by decide) (by decide) [97, 8, 98] 10 rfl rfl

/-- A request for two characters is over after an `a` and a backspace, and returns the `a`. -/
theorem not_nget_line : ¬∀ (mem : ℕ → UInt8) (buf n : ℕ), 1 ≤ n → n < 2 ^ 31 →
    ∀ (keys : List UInt8) (c : UInt8), ((nget buf n).inputs keys).1.ilock = true →
      ((nget buf n).inputs (keys ++ [c])).1.ilock = false →
        Holds (storeAll mem ((nget buf n).inputs (keys ++ [c])).2) buf
            (line (keys ++ [c]) ++ [0]) ∧
          (Newline c ∨ (line (keys ++ [c])).length = n) := by
  intro hall
  obtain ⟨hholds, -⟩ := hall (fun _ => 0) 0x1000 2 (by decide) (by decide) [97] 8 rfl rfl
  have hfirst := hholds 0 (by decide)
  exact absurd hfirst (by decide)

end Nget

/-! ## The bytes a request stores -/

section Stores

variable {kb : Keyboard} {mem : ℕ → UInt8} {buf top : ℕ} {stop : ℤ} {text keys : List UInt8}
  {c : UInt8}

theorem heard_cons (counts : stop ≠ -2 ∧ stop ≠ 0) (c : UInt8) (keys : List UInt8) :
    heard stop (c :: keys) = c :: if Completes stop c then [] else heard (next stop) keys := by
  obtain ⟨hmode, hzero⟩ := counts
  unfold heard next Completes
  rw [if_neg hmode]
  by_cases hscan : stop < 0
  · have hone : stop ≠ 1 := by omega
    simp only [if_pos hscan, if_neg hmode, upToNewline]
    by_cases hend : Newline c
    · simp [hend]
    · simp [hend, hone]
  · obtain ⟨n, rfl⟩ : ∃ n : ℕ, stop = n + 1 := ⟨(stop - 1).toNat, by omega⟩
    have htake : ((n : ℤ) + 1).toNat = n + 1 := by omega
    have hleft : ((n : ℤ) + 1 - 1).toNat = n := by omega
    have hmode' : ¬((n : ℤ) + 1 - 1 = -2) := by omega
    have hscan' : ¬((n : ℤ) + 1 - 1 < 0) := by omega
    simp only [if_neg hscan, if_neg hscan', if_neg hmode', htake, hleft, List.take_succ_cons,
      upToNewline]
    by_cases hend : Newline c
    · simp [hend]
    · by_cases hn : n = 0
      · simp [hend, hn, upToNewline]
      · simp [hend, hn]

theorem heard_of_idle (h : stop = -2 ∨ stop = 0) (keys : List UInt8) : heard stop keys = [] := by
  rcases h with rfl | rfl
  · rfl
  · simp [heard, upToNewline]

theorem Keeps.typed_below_iff (keeps : Keeps text kb mem) (near : top < kb.ubuf + 2 ^ 32)
    (below : text ≠ [] → kb.ubuf + text.length < top) :
    (∀ st ∈ (kb.typed c).2, st.1 < top) ↔ kb.ubuf + (Echo.edit text c).length < top := by
  have hpos := keeps.pos
  by_cases hback : c = 8
  · rw [hback, edit_back, List.length_dropLast]
    by_cases hzero : kb.pos = 0
    · rw [typed_stuck hzero, ← hpos, hzero]
      simp
    · have hne : kb.pos.toNat ≠ 0 := fun h => hzero (UInt32.toNat_inj.1 h)
      have htext : text ≠ [] := by
        rintro rfl
        exact hne hpos
      have hlast := below htext
      rw [typed_back hzero]
      exact iff_of_true (by simp) (by omega)
  · have hfits : text.length + 1 < 2 ^ 32 := by
      by_cases htext : text = []
      · rw [htext]
        decide
      · have hlast := below htext
        omega
    have hnext : (kb.pos + 1).toNat = text.length + 1 := by
      rw [UInt32.toNat_add, hpos]
      exact Nat.mod_eq_of_lt hfits
    rw [typed_char hback, hnext, hpos, edit_char hback]
    simp
    omega

theorem forall_prefix_cons_iff (P : List UInt8 → Prop) (c : UInt8) (keys : List UInt8) :
    (∀ typed, typed ≠ [] → typed <+: c :: keys → P typed) ↔
      P [c] ∧ ∀ typed, typed ≠ [] → typed <+: keys → P (c :: typed) := by
  constructor
  · intro h
    refine ⟨h [c] (by simp) (by simp), fun typed _ htyped => ?_⟩
    exact h (c :: typed) (by simp) (List.cons_prefix_cons.2 ⟨rfl, htyped⟩)
  · rintro ⟨hone, hmore⟩ typed hne htyped
    cases typed with
    | nil => exact absurd rfl hne
    | cons d typed =>
      obtain ⟨rfl, hprefix⟩ := List.cons_prefix_cons.1 htyped
      cases typed with
      | nil => exact hone
      | cons e typed => exact hmore (e :: typed) (by simp) hprefix

/-- The bytes of a request lie below some address if its line ends below it after every keystroke
that it takes. -/
theorem Waits.below_iff (waits : Waits buf stop kb) (keeps : Keeps text kb mem)
    (near : top < buf + 2 ^ 32) (below : text ≠ [] → buf + text.length < top) :
    (∀ st ∈ (kb.inputs keys).2, st.1 < top) ↔
      ∀ typed, typed ≠ [] → typed <+: heard stop keys →
        buf + (typed.foldl Echo.edit text).length < top := by
  induction keys generalizing kb mem stop text with
  | nil =>
    refine iff_of_true (by simp) fun typed hne htyped => absurd ?_ hne
    have hheard : heard stop [] = [] := by simp [heard, upToNewline]
    rw [hheard] at htyped
    exact List.prefix_nil.1 htyped
  | cons c keys ih =>
    have hubuf := waits.ubuf
    have hone := keeps.typed_below_iff (c := c) (hubuf.symm ▸ near) (hubuf.symm ▸ below)
    rw [hubuf] at hone
    rw [heard_cons waits.counts, forall_prefix_cons_iff, inputs_cons, waits.input_eq]
    simp only [List.mem_append, or_imp, forall_and]
    by_cases hends : Completes stop c
    · rw [if_pos hends, if_pos hends]
      have hunlocked : kb.unlock.inputs keys = (kb.unlock, []) := inputs_of_unlocked rfl keys
      rw [hunlocked]
      refine and_congr hone (iff_of_true (by simp) fun typed hne htyped => absurd ?_ hne)
      exact List.prefix_nil.1 htyped
    · rw [if_neg hends, if_neg hends]
      have hnext := waits.input hends
      rw [waits.input_eq, if_neg hends] at hnext
      by_cases hbelow : buf + (Echo.edit text c).length < top
      · have hkeeps := (keeps.input waits (c := c) (by omega)).2.2 hends
        rw [waits.input_eq, if_neg hends] at hkeeps
        exact and_congr hone (ih hnext hkeeps fun _ => hbelow)
      · exact iff_of_false (fun h => hbelow (hone.1 h.1)) fun h => hbelow h.1

theorem le_of_mem_inputs (h : kb.ilock = false ∨ kb.ubuf = buf) :
    ∀ st ∈ (kb.inputs keys).2, buf ≤ st.1 := by
  induction keys generalizing kb with
  | nil => simp
  | cons c keys ih =>
    intro st hst
    obtain ⟨hkept, hstores⟩ := System.input_spec kb c
    rw [inputs_cons] at hst
    rcases h with h | h
    · rw [input_of_unlocked h, inputs_of_unlocked h] at hst
      cases hst
    · rcases List.mem_append.1 hst with hst | hst
      · exact h ▸ hstores st hst
      · exact ih (hkept.imp_right fun h' => h'.2.trans h) st hst

end Stores

/-! ## The buffer of the system call -/

section Syscall

/-- `doSyscalls` calls `Keyboard::nget` for the arguments. -/
def Called (arg1 arg2 : ℕ) : Prop :=
  isUserPtrValid arg1 ∧ isUserPtrValid ((arg1 + arg2) % 2 ^ 64)

instance (arg1 arg2 : ℕ) : Decidable (Called arg1 arg2) := inferInstanceAs (Decidable (_ ∧ _))

/-- Every byte stored for the call and some keystrokes lies in the buffer of the caller and in user
space. -/
def Inside (arg1 arg2 : ℕ) (keys : List UInt8) : Prop :=
  ∀ st ∈ ((nget arg1 (arg2 % 2 ^ 32)).inputs keys).2,
    (arg1 ≤ st.1 ∧ st.1 < arg1 + arg2) ∧ USER_OFFSET ≤ st.1 ∧ st.1 < USER_STACK

/-- After every keystroke that the request takes, its line ends inside the buffer and inside user
space, with room for the terminator. -/
def LeavesRoom (arg1 arg2 : ℕ) (keys : List UInt8) : Prop :=
  ∀ typed, typed ≠ [] → typed <+: heard (toStop arg2) keys →
    (line typed).length < arg2 ∧ arg1 + (line typed).length < USER_STACK

theorem toStop_mod (n : ℕ) : toStop (n % 2 ^ 32) = toStop n := by
  simp [toStop]

theorem called_iff {arg1 arg2 : ℕ} : Called arg1 arg2 ↔
    (USER_OFFSET ≤ arg1 ∧ arg1 ≤ USER_STACK) ∧
      USER_OFFSET ≤ (arg1 + arg2) % 2 ^ 64 ∧ (arg1 + arg2) % 2 ^ 64 ≤ USER_STACK := by
  simp [Called, isUserPtrValid]

theorem inputs_of_idle {buf : ℕ} {stop : ℤ} (h : stop = -2 ∨ stop = 0) (keys : List UInt8) :
    ((request buf stop).inputs keys).2 = [] := by
  rcases h with rfl | rfl
  · have hinput : ∀ c, (request buf (-2)).input c = (request buf (-2), []) := fun c => by
      simp [input, request]
    induction keys with
    | nil => rfl
    | cons c keys ih => rw [inputs_cons, hinput, ih]; rfl
  · cases keys with
    | nil => rfl
    | cons c keys =>
      have hinput : ((request buf 0).input c).2 = [] ∧ ((request buf 0).input c).1.ilock =
          (if buf = 0 then true else false) ∧ ((request buf 0).input c).1.ubuf = 0 := by
        by_cases hbuf : buf = 0
        · simp [input, request, hbuf]
        · simp [input, request, hbuf, unlock]
      rw [inputs_cons, inputs_of_null hinput.2.2, hinput.1]
      rfl

theorem inside_iff_leavesRoom {arg1 arg2 : ℕ} (call : Called arg1 arg2) (keys : List UInt8) :
    Inside arg1 arg2 keys ↔ LeavesRoom arg1 arg2 keys := by
  obtain ⟨⟨hlow, hhigh⟩, -⟩ := called_iff.1 call
  have hoffset : USER_OFFSET = 0x40000000 := rfl
  have hstack : USER_STACK = 0xE0000000 := rfl
  have hrequest : nget arg1 (arg2 % 2 ^ 32) = request arg1 (toStop arg2) := by
    rw [nget, toStop_mod]
  unfold Inside LeavesRoom
  rw [hrequest]
  by_cases hidle : toStop arg2 = -2 ∨ toStop arg2 = 0
  · rw [inputs_of_idle hidle, heard_of_idle hidle]
    refine iff_of_true (by simp) fun typed hne htyped => absurd ?_ hne
    exact List.prefix_nil.1 htyped
  · have hwaits := waits_request (show arg1 ≠ 0 by omega) (not_or.1 hidle)
    have hbelow := @Waits.below_iff _ _ _ _ _ _ keys hwaits
      (keeps_request arg1 (toStop arg2) fun _ => 0) (show min (arg1 + arg2) USER_STACK < _ by omega)
      fun h => absurd rfl h
    have hfrom := @le_of_mem_inputs _ _ keys (Or.inr hwaits.ubuf)
    constructor
    · intro hinside typed hne htyped
      have hline := hbelow.1 (fun st hst => by
        have := hinside st hst
        omega) typed hne htyped
      unfold line
      omega
    · intro hroom st hst
      have hline := hbelow.2 (fun typed hne htyped => by
        have := hroom typed hne htyped
        unfold line at this
        omega) st hst
      have := hfrom st hst
      omega

theorem heard_replicate {stop : ℤ} (hmode : stop ≠ -2) {n : ℕ} (h : 0 ≤ stop → n ≤ stop) :
    heard stop (List.replicate n 97) = List.replicate n 97 := by
  have hup : ∀ n, upToNewline (List.replicate n 97) = List.replicate n 97 := by
    intro n
    induction n with
    | zero => rfl
    | succ n ih =>
      rw [List.replicate_succ, upToNewline, if_neg (by decide), ih]
  unfold heard
  rw [if_neg hmode]
  by_cases hscan : stop < 0
  · rw [if_pos hscan, hup]
  · rw [if_neg hscan, List.take_of_length_le, hup]
    rw [List.length_replicate]
    have := h (by omega)
    omega

theorem line_replicate (n : ℕ) : line (List.replicate n 97) = List.replicate n 97 :=
  line_of_no_back fun hmem => absurd (List.eq_of_mem_replicate hmem) (by decide)

/-- `nget` stays inside the buffer of the system call, whatever is typed, only when it reads nothing;
for given keystrokes it does exactly if the line leaves room for its terminator after each of them. -/
theorem nget_inside_iff (arg1 arg2 : ℕ) (call : Called arg1 arg2) (word : arg2 < 2 ^ 64) :
    (∀ keys, Inside arg1 arg2 keys ↔ LeavesRoom arg1 arg2 keys) ∧
      ((∀ keys, Inside arg1 arg2 keys) ↔ arg2 = 0 ∨ arg2 = 2 ^ 64 - 2) := by
  refine ⟨inside_iff_leavesRoom call, ?_⟩
  obtain ⟨⟨hlow, hhigh⟩, hsumlow, hsumhigh⟩ := called_iff.1 call
  have hoffset : USER_OFFSET = 0x40000000 := rfl
  have hstack : USER_STACK = 0xE0000000 := rfl
  have hidle : toStop arg2 = -2 ∨ toStop arg2 = 0 ↔ arg2 = 0 ∨ arg2 = 2 ^ 64 - 2 := by
    unfold toStop
    omega
  rw [← hidle]
  constructor
  · intro hall
    by_contra hreads
    obtain ⟨hmode, hzero⟩ := not_or.1 hreads
    -- as many letters as the request counts, or as reach the end of user space
    obtain ⟨n, hn⟩ : ∃ n : ℕ, if toStop arg2 < 0 then n = USER_STACK - arg1 + 1
        else (n : ℤ) = toStop arg2 := by
      by_cases hscan : toStop arg2 < 0
      · exact ⟨_, by rw [if_pos hscan]⟩
      · exact ⟨(toStop arg2).toNat, by rw [if_neg hscan]; omega⟩
    have hheard : heard (toStop arg2) (List.replicate n 97) = List.replicate n 97 := by
      apply heard_replicate hmode
      intro hpos
      rw [if_neg (by omega)] at hn
      omega
    have hne : List.replicate n (97 : UInt8) ≠ [] := by
      intro hnil
      have hlength := congrArg List.length hnil
      rw [List.length_replicate, List.length_nil] at hlength
      split_ifs at hn <;> omega
    have hroom := (inside_iff_leavesRoom call _).1 (hall (List.replicate n 97)) _ hne
      (by rw [hheard])
    rw [line_replicate, List.length_replicate] at hroom
    unfold toStop at hn
    split_ifs at hn <;> omega
  · intro h keys
    apply (inside_iff_leavesRoom call keys).2
    intro typed hne htyped
    rw [heard_of_idle h] at htyped
    exact absurd (List.prefix_nil.1 htyped) hne

theorem called_one : Called USER_OFFSET 1 := by decide

theorem nget_inside_one :
    (∀ keys, Inside USER_OFFSET 1 keys ↔ LeavesRoom USER_OFFSET 1 keys) ∧
      ((∀ keys, Inside USER_OFFSET 1 keys) ↔ 1 = 0 ∨ 1 = 2 ^ 64 - 2) :=
  nget_inside_iff USER_OFFSET 1 called_one (by decide)

/-- The terminator of the only character lies behind the buffer. -/
theorem not_nget_inside : ¬∀ arg1 arg2 : ℕ, Called arg1 arg2 → arg2 < 2 ^ 64 →
    ∀ keys, Inside arg1 arg2 keys := by
  intro hall
  have hinside := hall USER_OFFSET 1 called_one (by decide) [97] (USER_OFFSET + 1, 0) (by decide)
  exact absurd hinside (by decide)

end Syscall

end Keyboard

/-! ## The requests of the system -/

namespace System

variable {s : System}

/-- The system call of a task that runs and finds the lock free: after the five steps of `nget` the
keyboard waits for the request; a call that is not valid does nothing. -/
theorem sysNget_request {arg1 arg2 : ℕ} (task : s.current ≠ 0) (idle : s.nget s.current = .idle)
    (free : s.kb.ilock = false) :
    (Keyboard.Called arg1 arg2 →
      (s.sysNget arg1 arg2).advance.advance.advance.advance.advance.kb =
        Keyboard.nget arg1 (arg2 % 2 ^ 32)) ∧
      (¬Keyboard.Called arg1 arg2 → s.sysNget arg1 arg2 = s) := by
  have hcall : s.sysNget arg1 arg2 = if Keyboard.Called arg1 arg2
      then { s with nget := Function.update s.nget s.current (.test arg1 (arg2 % 2 ^ 32)) }
      else s := by
    unfold sysNget
    rw [idle]
    by_cases h : Keyboard.Called arg1 arg2
    · rw [if_pos h]
      exact if_pos ⟨task, h⟩
    · rw [if_neg h]
      exact if_neg fun h' => h h'.2
  rw [hcall]
  refine ⟨fun h => ?_, fun h => if_neg h⟩
  rw [if_pos h]
  generalize hasking : Function.update s.nget s.current (.test arg1 (arg2 % 2 ^ 32)) = asking
  have hasks : asking s.current = .test arg1 (arg2 % 2 ^ 32) := by
    rw [← hasking]
    exact Function.update_self ..
  exact congrArg System.kb (advance_of_free (s := { s with nget := asking }) rfl hasks free)

theorem kb_key {s' : System} {c : UInt8} (h : s.key c = some s') : s'.kb = (s.kb.input c).1 := by
  unfold key at h
  split_ifs at h
  generalize s.m.returnFrom = m' at h
  cases h
  rfl

end System
