import SepplesOS.Proc.LineEdit

/-!
# Scan codes

The keyboard interrupt `isr_kbd_int` (`kernel/interrupt.cpp`) keeps a flag for each modifier and looks the
other keys up in `kbdmap` (`kernel/keyboardLayout.cpp`), which is shorter than the range of codes that
count as pressed keys.  The flags are compared with the keys that are down, over any sequence of codes.
-/

namespace Kbd

/-- `kbdmap`: four characters for each key, of which the first two are used. -/
def kbdmap : List UInt8 :=
  [27, 27, 27, 27, 49, 33, 49, 49, 50, 64, 50, 50, 51, 35, 51, 51, 52, 36, 52, 52, 53, 37, 53, 53,
   54, 94, 54, 54, 55, 38, 55, 55, 56, 42, 56, 56, 57, 40, 57, 57, 48, 41, 48, 48, 45, 95, 45, 45,
   61, 43, 61, 61, 8, 8, 127, 8, 9, 9, 9, 9, 113, 81, 113, 113, 119, 87, 119, 119, 101, 69, 101,
   101, 114, 82, 114, 114, 116, 84, 116, 116, 121, 89, 121, 121, 117, 85, 117, 117, 105, 73, 105,
   105, 111, 79, 111, 111, 112, 80, 112, 112, 91, 123, 91, 91, 93, 125, 93, 93, 10, 10, 10, 10, 255,
   255, 255, 255, 97, 65, 97, 97, 115, 83, 115, 115, 100, 68, 100, 100, 102, 70, 102, 102, 103, 71,
   103, 103, 104, 72, 104, 104, 106, 74, 106, 106, 107, 75, 107, 107, 108, 76, 108, 108, 59, 58, 59,
   59, 39, 34, 39, 39, 96, 126, 96, 96, 255, 255, 255, 255, 92, 124, 92, 92, 122, 90, 122, 122, 120,
   88, 120, 120, 99, 67, 99, 99, 118, 86, 118, 118, 98, 66, 98, 98, 110, 78, 110, 110, 109, 77, 109,
   109, 44, 60, 44, 44, 46, 62, 46, 46, 47, 63, 47, 47, 255, 255, 255, 255, 42, 255, 255, 255, 255,
   255, 255, 255, 32, 32, 32, 32, 255, 255, 255, 255, 255, 255, 255, 255, 255, 255, 255, 255, 255,
   255, 255, 255, 255, 255, 255, 255, 255, 255, 255, 255, 255, 255, 255, 255, 255, 255, 255, 255,
   255, 255, 255, 255, 255, 255, 255, 255, 255, 255, 255, 255, 255, 255, 255, 255, 255, 255, 255,
   255, 55, 255, 255, 255, 56, 255, 255, 255, 57, 255, 255, 255, 45, 255, 255, 255, 52, 255, 255,
   255, 53, 255, 255, 255, 54, 255, 255, 255, 43, 255, 255, 255, 49, 255, 255, 255, 50, 255, 255,
   255, 51, 255, 255, 255, 48, 255, 255, 255, 46, 255, 255, 255, 255, 255, 255, 255, 255, 255, 255,
   255, 255, 255, 255, 255, 255, 255, 255, 255, 255, 255, 255, 255, 255, 255, 255, 255, 255, 255,
   255, 255, 255, 255, 255, 255, 255, 255, 255, 255, 255, 255, 255, 255, 255, 255, 255, 255, 255,
   255, 255, 255, 255, 255, 255, 255, 255, 255, 255, 255]

/-- The static variables of `isr_kbd_int`. -/
structure Flags where
  lshift_enable : Bool
  rshift_enable : Bool
  alt_enable : Bool
  ctrl_enable : Bool
  deriving DecidableEq

/-- What the handler calls; `outside` is a read behind the end of `kbdmap`. -/
inductive Effect
  | reboot
  | halt
  | printStats
  | scroll (lines : ℤ)
  | input (c : UInt8)
  | outside
  | nothing
  deriving DecidableEq

/-- `isr_kbd_int`, for a code read from the keyboard. -/
def isr_kbd_int (f : Flags) (code : UInt8) : Flags × Effect :=
  let i := code - 1
  if i < 0x80 then
    match i.toNat with
    | 0x00 => (f, if f.ctrl_enable || f.alt_enable then .reboot else .halt)
    | 0x29 => ({ f with lshift_enable := true }, .nothing)
    | 0x35 => ({ f with rshift_enable := true }, .nothing)
    | 0x1C => ({ f with ctrl_enable := true }, .nothing)
    | 0x37 => ({ f with alt_enable := true }, .nothing)
    | 0x44 => (f, .printStats)
    | 0x48 => (f, .scroll (-1))
    | 0x50 => (f, .scroll 1)
    | i =>
      match kbdmap[i * 4 + if f.lshift_enable || f.rshift_enable then 1 else 0]? with
      | some c => (f, .input c)
      | none => (f, .outside)
  else
    match (i - 0x80).toNat with
    | 0x29 => ({ f with lshift_enable := false }, .nothing)
    | 0x35 => ({ f with rshift_enable := false }, .nothing)
    | 0x1C => ({ f with ctrl_enable := false }, .nothing)
    | 0x37 => ({ f with alt_enable := false }, .nothing)
    | _ => (f, .nothing)

/-- The character passed to `Keyboard::input`. -/
def Effect.char : Effect → Option UInt8
  | .input c => some c
  | _ => none

/-- The handler does not return, or it has read outside of the table. -/
def Effect.stops : Effect → Bool
  | .reboot | .halt | .outside => true
  | _ => false

/-- The handler over a sequence of codes: the flags, and the characters passed to `Keyboard::input`.
`none` if the machine stops, or if a character is read from outside of `kbdmap`. -/
def run (f : Flags) : List UInt8 → Option (Flags × List UInt8)
  | [] => some (f, [])
  | code :: codes =>
    let (f, effect) := isr_kbd_int f code
    if effect.stops then none
    else (run f codes).map fun r => (r.1, effect.char.toList ++ r.2)

/-! ## The keys that are down -/

/-- What a code says about a key: that it is pressed, that it is released, or nothing. -/
def heed (key : UInt8) (isDown : Bool) (code : UInt8) : Bool :=
  if code = key then true else if code = key + 0x80 then false else isDown

/-- Whether a key is down after some codes. -/
def down (key : UInt8) (codes : List UInt8) : Bool := codes.foldl (heed key) false

/-- One of the shift keys is down. -/
def shiftDown (codes : List UInt8) : Bool := down 0x2A codes || down 0x36 codes

/-- The flags that say which modifiers are down. -/
def flagsOf (codes : List UInt8) : Flags where
  lshift_enable := down 0x2A codes
  rshift_enable := down 0x36 codes
  alt_enable := down 0x38 codes
  ctrl_enable := down 0x1D codes

/-- The codes of the keys pressed that the handler does not look up. -/
def special : List UInt8 := [0x01, 0x2A, 0x36, 0x1D, 0x38, 0x45, 0x49, 0x51]

/-- The character of a key that is pressed. -/
def keyChar (shift : Bool) (code : UInt8) : Option UInt8 :=
  if code ∈ special ∨ code = 0 ∨ 0x80 < code then none
  else kbdmap[(code.toNat - 1) * 4 + if shift then 1 else 0]?

/-- The characters of some codes, after others. -/
def typed (before : List UInt8) : List UInt8 → List UInt8
  | [] => []
  | code :: codes => (keyChar (shiftDown before) code).toList ++ typed (before ++ [code]) codes

/-- The codes at which the machine stops, or the table ends. -/
def Stops (code : UInt8) : Prop := code = 0x01 ∨ 0x61 < code ∧ code ≤ 0x80

instance (code : UInt8) : Decidable (Stops code) := inferInstanceAs (Decidable (_ ∨ _))

theorem down_concat (key : UInt8) (codes : List UInt8) (code : UInt8) :
    down key (codes ++ [code]) = heed key (down key codes) code :=
  List.foldl_concat ..

theorem down_iff {key : UInt8} {codes : List UInt8} :
    down key codes = true ↔ ∃ before after, codes = before ++ key :: after ∧ key + 0x80 ∉ after := by
  induction codes using List.reverseRecOn with
  | nil => simp [down]
  | append_singleton codes code ih =>
    have hlast : ∀ before after, codes ++ [code] = before ++ key :: after →
        (after = [] ∧ code = key ∧ codes = before) ∨
          ∃ after', after = after' ++ [code] ∧ codes = before ++ key :: after' := by
      intro before after heq
      rcases List.eq_nil_or_concat' after with rfl | ⟨after', last, rfl⟩
      · obtain ⟨hcodes, hcode⟩ := List.append_inj' heq rfl
        exact Or.inl ⟨rfl, (List.cons.inj hcode).1, hcodes⟩
      · have heq' : codes ++ [code] = (before ++ key :: after') ++ [last] := by simpa using heq
        obtain ⟨hcodes, hcode⟩ := List.append_inj' heq' rfl
        exact Or.inr ⟨after', by rw [(List.cons.inj hcode).1], hcodes⟩
    rw [down_concat]
    unfold heed
    split_ifs with hpress hrelease
    · exact iff_of_true rfl ⟨codes, [], by rw [hpress], List.not_mem_nil⟩
    · apply iff_of_false not_false
      rintro ⟨before, after, heq, hkept⟩
      rcases hlast before after heq with ⟨-, hcode, -⟩ | ⟨after', rfl, -⟩
      · exact hpress hcode
      · apply hkept
        simp [hrelease]
    · rw [ih]
      constructor
      · rintro ⟨before, after, rfl, hkept⟩
        refine ⟨before, after ++ [code], by simp, ?_⟩
        simp [hkept, Ne.symm hrelease]
      · rintro ⟨before, after, heq, hkept⟩
        rcases hlast before after heq with ⟨-, hcode, -⟩ | ⟨after', rfl, rfl⟩
        · exact absurd hcode hpress
        · exact ⟨before, after', rfl, fun hmem => hkept (List.mem_append_left _ hmem)⟩

/-! ## What the handler does -/

theorem isr_kbd_int_flags (code : UInt8) (l r a c : Bool) :
    (isr_kbd_int ⟨l, r, a, c⟩ code).1 =
      ⟨heed 0x2A l code, heed 0x36 r code, heed 0x38 a code, heed 0x1D c code⟩ := by
  revert code l r a c
  decide +kernel

theorem isr_kbd_int_effect (code : UInt8) (l r a c : Bool) :
    (isr_kbd_int ⟨l, r, a, c⟩ code).2 = (isr_kbd_int ⟨l || r, false, false, c || a⟩ code).2 := by
  unfold isr_kbd_int
  simp only [Bool.or_false]
  split
  · split
    all_goals try rfl
    cases kbdmap[(code - 1).toNat * 4 + if (l || r) = true then 1 else 0]? <;> rfl
  · split <;> rfl

theorem effect_spec (code : UInt8) (shift other : Bool) :
    (isr_kbd_int ⟨shift, false, false, other⟩ code).2.stops = decide (Stops code) ∧
      (¬Stops code → (isr_kbd_int ⟨shift, false, false, other⟩ code).2.char = keyChar shift code) := by
  revert code shift other
  decide +kernel

/-- One code: each flag heeds its key, and the rest depends on the shift keys only. -/
theorem isr_kbd_int_spec (code : UInt8) (l r a c : Bool) :
    (isr_kbd_int ⟨l, r, a, c⟩ code).1 =
        ⟨heed 0x2A l code, heed 0x36 r code, heed 0x38 a code, heed 0x1D c code⟩ ∧
      (isr_kbd_int ⟨l, r, a, c⟩ code).2.stops = decide (Stops code) ∧
      (¬Stops code → (isr_kbd_int ⟨l, r, a, c⟩ code).2.char = keyChar (l || r) code) := by
  rw [isr_kbd_int_effect]
  exact ⟨isr_kbd_int_flags code l r a c, effect_spec code (l || r) (c || a)⟩

theorem run_after (before codes : List UInt8) :
    run (flagsOf before) codes =
      if ∃ code ∈ codes, Stops code then none
      else some (flagsOf (before ++ codes), typed before codes) := by
  induction codes generalizing before with
  | nil => simp [run, typed]
  | cons code codes ih =>
    obtain ⟨hflags, hstops, hchar⟩ := isr_kbd_int_spec code (down 0x2A before) (down 0x36 before)
      (down 0x38 before) (down 0x1D before)
    have hnext : (isr_kbd_int (flagsOf before) code).1 = flagsOf (before ++ [code]) := by
      simp only [flagsOf, down_concat]
      exact hflags
    rw [run]
    simp only [hnext]
    have hstops' : (isr_kbd_int (flagsOf before) code).2.stops = decide (Stops code) := hstops
    rw [hstops', ih]
    by_cases hstop : Stops code
    · simp [hstop]
    · have hchar' : (isr_kbd_int (flagsOf before) code).2.char = keyChar (shiftDown before) code :=
        hchar hstop
      rw [hchar', if_neg (by simpa using hstop)]
      by_cases hlater : ∃ code ∈ codes, Stops code
      · simp [hlater]
      · simp [hstop, hlater, typed]

/-! ## Typing -/

/-- The codes for a character: its key pressed and released, with the left shift key around it where the
character needs it; none if no key has the character. -/
def strokes (c : UInt8) : List UInt8 :=
  let codes := (List.range 97).map fun i => UInt8.ofNat (i + 1)
  match codes.find? fun code => keyChar false code = some c with
  | some code => [code, code + 0x80]
  | none =>
    match codes.find? fun code => keyChar true code = some c with
    | some code => [0x2A, code, code + 0x80, 0xAA]
    | none => []

/-- Some key has the character. -/
def Typable (c : UInt8) : Prop := strokes c ≠ []

instance (c : UInt8) : Decidable (Typable c) := inferInstanceAs (Decidable (_ ≠ _))

theorem run_key (code : UInt8) (a b : Bool) :
    (keyChar false code ≠ none → run ⟨false, false, a, b⟩ [code, code + 0x80] =
        some (⟨false, false, a, b⟩, (keyChar false code).toList)) ∧
      (keyChar true code ≠ none → run ⟨false, false, a, b⟩ [0x2A, code, code + 0x80, 0xAA] =
        some (⟨false, false, a, b⟩, (keyChar true code).toList)) := by
  revert code a b
  decide +kernel

theorem run_strokes (c : UInt8) (a b : Bool) (typable : Typable c) :
    run ⟨false, false, a, b⟩ (strokes c) = some (⟨false, false, a, b⟩, [c]) := by
  unfold Typable at typable
  unfold strokes at typable ⊢
  dsimp only at typable ⊢
  split
  · next code hfind =>
    have hchar : keyChar false code = some c := by simpa using List.find?_some hfind
    have hrun := (run_key code a b).1 (by simp [hchar])
    rw [hrun, hchar]
    rfl
  · next hplain =>
    split
    · next code hfind =>
      have hchar : keyChar true code = some c := by simpa using List.find?_some hfind
      have hrun := (run_key code a b).2 (by simp [hchar])
      rw [hrun, hchar]
      rfl
    · next hshifted =>
      rw [hplain, hshifted] at typable
      exact absurd rfl typable

theorem run_append {f f' f'' : Flags} {xs ys cs ds : List UInt8} (first : run f xs = some (f', cs))
    (second : run f' ys = some (f'', ds)) : run f (xs ++ ys) = some (f'', cs ++ ds) := by
  induction xs generalizing f cs with
  | nil =>
    cases first
    exact second
  | cons code xs ih =>
    rw [run] at first
    rw [List.cons_append, run]
    dsimp only at first ⊢
    split_ifs at first ⊢ with hstops
    obtain ⟨⟨f₁, cs₁⟩, hrun, heq⟩ := Option.map_eq_some_iff.1 first
    cases heq
    rw [ih hrun, Option.map_some, List.append_assoc]

theorem run_text (text : List UInt8) (typable : ∀ c ∈ text, Typable c) (a b : Bool) :
    run ⟨false, false, a, b⟩ (text.flatMap strokes) = some (⟨false, false, a, b⟩, text) := by
  induction text with
  | nil => rfl
  | cons c text ih =>
    have hfirst := run_strokes c a b (typable c List.mem_cons_self)
    exact run_append hfirst (ih fun d hd => typable d (List.mem_cons_of_mem c hd))

/-- The handler over any sequence of codes, from the start: the machine stops or the table is left
exactly at escape and at the codes behind the table that count as pressed; up to there each flag says
whether its key is down, and the characters are those of the keys pressed, each in the row of the shift
keys at that moment.  Every text of typable characters has codes that give it. -/
theorem run_codes :
    (∀ codes, run (flagsOf []) codes =
      if ∃ code ∈ codes, Stops code then none else some (flagsOf codes, typed [] codes)) ∧
    (∀ key codes, down key codes = true ↔
      ∃ before after, codes = before ++ key :: after ∧ key + 0x80 ∉ after) ∧
    ∀ text, (∀ c ∈ text, Typable c) → run (flagsOf []) (text.flatMap strokes) = some (flagsOf [], text) :=
  ⟨fun codes => run_after [] codes, fun _ _ => down_iff, fun text h => run_text text h false false⟩

end Kbd
