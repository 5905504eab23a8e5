import SepplesOS.Proc.Keyboard
import SepplesOS.Vga.Contents

/-!
# The echo of the keyboard

`Keyboard::input` edits the buffer of a request by a position in it, and then prints the character,
which edits the screen by the cursor and the rubout limit.  Both agree as long as the text neither
makes the screen scroll nor is edited back at or before the column where it began: the rubout limit
is compared by column alone, on every line.
-/

/-- The keyboard, the bytes of the user's buffer, and the console. -/
structure Echo where
  kb : Keyboard
  ubuf : ℕ → UInt8
  vga : VGAText

/-- A keystroke, with the heap as the console finds it. -/
structure Keystroke where
  h : Heap
  c : UInt8

namespace Echo

/-- `scan` and `nget` up to the loop that waits for the end of the request. -/
def ask (e : Echo) (buf : ℕ) (stop : ℤ) : Echo :=
  { e with kb := ⟨true, buf, 0, stop⟩, vga := e.vga.setRuboutLimit (-1) (-1) }
def scan (e : Echo) (buf : ℕ) : Echo := e.ask buf (-1)
def nget (e : Echo) (buf n : ℕ) : Echo := e.ask buf (Keyboard.toStop n)

/-- `input` with `logInput` set. -/
def input (e : Echo) (key : Keystroke) : Echo where
  kb := (e.kb.input key.c).1
  ubuf := (e.kb.input key.c).2.foldl (fun ubuf st => Function.update ubuf st.1 st.2) e.ubuf
  vga := e.vga.put key.h key.c

/-- The state after some keystrokes. -/
def run (e : Echo) (keys : List Keystroke) : Echo := keys.foldl input e

/-- `ubuf[0..pos)`. -/
def line (e : Echo) : List UInt8 :=
  (List.range e.kb.pos.toNat).map fun i => e.ubuf (e.kb.ubuf + i)

/-- The characters displayed from the place `(x, y)` up to the cursor, in screen order. -/
def shown (e : Echo) (x y : ℤ) : List UInt8 :=
  (List.range (80 * e.vga.m_curY + e.vga.m_curX - (80 * y + x)).toNat).map fun (i : ℕ) =>
    e.vga.mem (VGAText.m_memBase + 2 * (80 * y + x + i))

/-- What a keystroke does to the text of a request. -/
def edit (text : List UInt8) (c : UInt8) : List UInt8 :=
  if c = 8 then text.dropLast else text ++ [c]

/-- A backspace or a character that is printed as it is. -/
def Typable (c : UInt8) : Prop := c ≠ 9 ∧ c ≠ 10 ∧ c ≠ 13

/-- The condition on the cursor: a backspace that has a character to remove is typed to the right of
the column where the request began, and no other character is typed in the last place of the
screen. -/
def Follows (e : Echo) (c : UInt8) : Prop :=
  if c = 8 then e.kb.pos ≠ 0 → e.vga.m_curX > e.vga.ruboutLimitX
  else ¬(e.vga.m_curX = 79 ∧ e.vga.m_curY = 24)

end Echo

/-! ## The console -/

namespace VGAText

variable {s : VGAText} {h : Heap}

theorem toEnd_spec (s : VGAText) :
    s.toEnd.ruboutLimitX = s.ruboutLimitX ∧ s.toEnd.ruboutLimitY = s.ruboutLimitY ∧
      s.toEnd.logEnabled = s.logEnabled ∧ s.toEnd.m_logLim = s.m_logLim ∧
      (s.logEnabled = false ∨ s.m_logCur = s.m_logLim - 4000 → s.toEnd = s) := by
  unfold toEnd
  split_ifs with hscroll
  · have hvars := (quiet_render { s with m_logCur := s.m_logLim - 2 * m_width * m_height }).vars
    rw [scrollDown, limitX_of_vars hvars, limitY_of_vars hvars, logEnabled_of_vars hvars,
      logLim_of_vars hvars]
    refine ⟨rfl, rfl, rfl, rfl, ?_⟩
    rintro (hoff | hend)
    · rw [hoff] at hscroll
      cases hscroll.1
    · exact absurd hend hscroll.2
  · exact ⟨rfl, rfl, rfl, rfl, fun _ => rfl⟩

theorem put_of_typeChar {s₁ : VGAText} {c : UInt8} (typed : s.toEnd.typeChar c = s₁)
    (on : s₁.m_curY < m_height) : s.put h c = s₁ := by
  have hchar : s.putChar h c = (s₁, false) := by
    unfold putChar
    dsimp only
    rw [typed, if_neg (not_le.2 on)]
  unfold put
  rw [hchar]
  rfl

/-- `put` of a character that is printed as it is, not in the last place of the screen. -/
theorem put_plain (inv : Inv s) {c : UInt8} (plain : c ≠ 10 ∧ c ≠ 8 ∧ c ≠ 9 ∧ c ≠ 13)
    (room : ¬(s.m_curX = 79 ∧ s.m_curY = 24)) :
    s.put h c = { s.toEnd.setChar (2 * s.m_curX + 160 * s.m_curY) c s.toEnd.m_curStyle with
      m_curX := if s.m_curX = 79 then 0 else s.m_curX + 1
      m_curY := if s.m_curX = 79 then s.m_curY + 1 else s.m_curY } := by
  obtain ⟨hend, hX, hY, -⟩ := inv_toEnd inv
  have honX : 0 ≤ s.m_curX ∧ s.m_curX < 80 := inv.curX
  have honY : 0 ≤ s.m_curY ∧ s.m_curY < 25 := inv.curY
  have hvars := vars_setChar s.toEnd (2 * s.m_curX + 160 * s.m_curY) c s.toEnd.m_curStyle
  have hsetX := (curX_of_vars hvars).trans hX
  have hsetY := (curY_of_vars hvars).trans hY
  have hnextX : toI8 (s.m_curX + 1) = s.m_curX + 1 := toI8_of_small (by omega)
  have hnextY : toI8 (s.m_curY + 1) = s.m_curY + 1 := toI8_of_small (by omega)
  apply put_of_typeChar
  · unfold typeChar
    rw [if_neg plain.1, if_neg plain.2.1, if_neg plain.2.2.1, if_neg plain.2.2.2, hX, hY]
    rw [show 2 * s.m_curX + 2 * m_width * s.m_curY = 2 * s.m_curX + 160 * s.m_curY from rfl]
    generalize s.toEnd.setChar (2 * s.m_curX + 160 * s.m_curY) c s.toEnd.m_curStyle = s₁ at *
    dsimp only
    rw [hsetX, hsetY, hnextX, hnextY]
    by_cases hlast : s.m_curX = 79
    · rw [if_pos hlast, if_pos hlast, if_pos (by unfold m_width; omega)]
    · rw [if_neg hlast, if_neg hlast, if_neg (by unfold m_width; omega), ← hsetY]
  · unfold m_height
    dsimp only
    split_ifs <;> omega

theorem put_back (inv : Inv s)
    (right : s.m_curY ≥ s.ruboutLimitY ∧ s.m_curX > s.ruboutLimitX) :
    s.put h 8 = { s.toEnd.setChar (2 * s.m_curX + 160 * s.m_curY - 2) 0 CUR_WHITE with
      m_curX := s.m_curX - 1
      m_curY := s.m_curY } := by
  obtain ⟨hend, hX, hY, -⟩ := inv_toEnd inv
  obtain ⟨hlimitX, hlimitY, -⟩ := toEnd_spec s
  have honX : 0 ≤ s.m_curX ∧ s.m_curX < 80 := inv.curX
  have hpos : s.m_curX > 0 := lt_of_le_of_lt inv.limit right.2
  have hback : toI8 (s.m_curX - 1) = s.m_curX - 1 := toI8_of_small (by omega)
  have hset (off : ℤ) :
      { s.toEnd with m_curX := s.m_curX - 1, m_curY := s.m_curY }.setChar off 0 CUR_WHITE =
        { s.toEnd.setChar off 0 CUR_WHITE with m_curX := s.m_curX - 1, m_curY := s.m_curY } := by
    unfold setChar
    dsimp only
    split_ifs <;> rfl
  apply put_of_typeChar
  · unfold typeChar
    rw [if_neg (by decide), if_pos rfl, hX, hY, hlimitX, hlimitY, if_pos right]
    unfold rubout
    dsimp only
    rw [hX, hY, if_pos hpos, hback]
    exact hset _
  · exact inv.curY.2

theorem put_stuck (inv : Inv s)
    (left : ¬(s.m_curY ≥ s.ruboutLimitY ∧ s.m_curX > s.ruboutLimitX)) :
    s.put h 8 = s.toEnd := by
  obtain ⟨hend, hX, hY, -⟩ := inv_toEnd inv
  obtain ⟨hlimitX, hlimitY, -⟩ := toEnd_spec s
  apply put_of_typeChar
  · unfold typeChar
    rw [if_neg (by decide), if_pos rfl, hX, hY, hlimitX, hlimitY, if_neg left]
  · exact hend.curY.2

/-- The text is on the screen, from the place `(x, y)` up to the cursor. -/
structure Shows (x y : ℤ) (text : List UInt8) (s : VGAText) : Prop where
  inv : Inv s
  limit : s.ruboutLimitX = x ∧ s.ruboutLimitY = y
  origin : (0 ≤ x ∧ x < 80) ∧ 0 ≤ y ∧ y < 25
  cursor : 80 * s.m_curY + s.m_curX = 80 * y + x + text.length
  placed : s.logEnabled = true → m_memLim ≤ s.m_logLim - 4000
  atEnd : s.logEnabled = true → text ≠ [] → s.m_logCur = s.m_logLim - 4000
  chars : ∀ i : ℕ, i < text.length → text[i]? = some (s.mem (m_memBase + 2 * (80 * y + x + i)))

section Shows

variable {x y : ℤ} {text : List UInt8}

theorem Shows.toEnd (shows : Shows x y text s) : Shows x y text s.toEnd ∧
    (s.toEnd.logEnabled = true → s.toEnd.m_logCur = s.toEnd.m_logLim - 4000) := by
  obtain ⟨hinv, hX, hY, hend⟩ := inv_toEnd shows.inv
  obtain ⟨hlimitX, hlimitY, hlog, hlim, hstay⟩ := toEnd_spec s
  refine ⟨⟨hinv, ?_, shows.origin, ?_, ?_, fun on _ => hend on, ?_⟩, hend⟩
  · rw [hlimitX, hlimitY]
    exact shows.limit
  · rw [hX, hY]
    exact shows.cursor
  · rw [hlog, hlim]
    exact shows.placed
  · intro i hi
    have hsame : s.toEnd = s := by
      apply hstay
      by_cases on : s.logEnabled = true
      · exact Or.inr (shows.atEnd on (List.ne_nil_of_length_pos (by omega)))
      · exact Or.inl (Bool.eq_false_iff.2 on)
    rw [hsame]
    exact shows.chars i hi

/-- The text grows by a character, or shrinks by one, at the place `off` on the screen. -/
theorem Shows.setChar (shows : Shows x y text s)
    (atEnd : s.logEnabled = true → s.m_logCur = s.m_logLim - 4000) {text' : List UInt8}
    {X Y off : ℤ} {c style : UInt8} (onX : 0 ≤ X ∧ X < 80) (onY : 0 ≤ Y ∧ Y < 25)
    (cursor : 80 * Y + X = 80 * y + x + text'.length)
    (on : 0 ≤ off ∧ off + 1 < 4000)
    (chars : ∀ i : ℕ, i < text'.length → text'[i]? =
      if 2 * (80 * y + x + i) = off then some c else text[i]?) (even : off % 2 = 0)
    (short : text'.length ≤ text.length + 1)
    (last : text'.length = text.length + 1 → off = 2 * (80 * y + x + text.length)) :
    Shows x y text' { s.setChar off c style with m_curX := X, m_curY := Y } := by
  have hvars := vars_setChar s off c style
  have hset := (quiet_setChar _ _ c style on atEnd).inv shows.inv
  refine ⟨⟨⟨onX, onY, hset.stores⟩, hset.limit⟩, ?_, shows.origin, cursor, ?_, ?_, ?_⟩
  · exact ⟨(limitX_of_vars hvars).trans shows.limit.1, (limitY_of_vars hvars).trans shows.limit.2⟩
  · dsimp only
    rw [logEnabled_of_vars hvars, logLim_of_vars hvars]
    exact shows.placed
  · dsimp only
    rw [logEnabled_of_vars hvars, logLim_of_vars hvars, logCur_of_vars hvars]
    exact fun on _ => atEnd on
  · intro i hi
    have horigin := shows.origin
    have hmem := setChar_mem_screen s c style
      (by omega : 0 ≤ 2 * (80 * y + x + (i : ℤ)) ∧ 2 * (80 * y + x + (i : ℤ)) < 4000) on.1 fun on => by
        rw [atEnd on]
        exact shows.placed on
    have hodd : 2 * (80 * y + x + (i : ℤ)) ≠ off + 1 := by omega
    rw [if_neg hodd] at hmem
    dsimp only
    rw [chars i hi, hmem]
    split_ifs with hplace
    · rfl
    · exact shows.chars i (by omega)

theorem Shows.put_plain (shows : Shows x y text s) {c : UInt8}
    (plain : c ≠ 10 ∧ c ≠ 8 ∧ c ≠ 9 ∧ c ≠ 13) (room : ¬(s.m_curX = 79 ∧ s.m_curY = 24)) :
    Shows x y (text ++ [c]) (s.put h c) := by
  have hX : 0 ≤ s.m_curX ∧ s.m_curX < 80 := shows.inv.curX
  have hY : 0 ≤ s.m_curY ∧ s.m_curY < 25 := shows.inv.curY
  have hcursor := shows.cursor
  have horigin := shows.origin
  obtain ⟨hend, hatEnd⟩ := shows.toEnd
  rw [VGAText.put_plain shows.inv plain room]
  refine hend.setChar hatEnd ?_ ?_ ?_ (by omega) (fun i hi => ?_) (by omega)
    (by rw [List.length_append, List.length_singleton]) fun _ => by omega
  · split_ifs <;> omega
  · split_ifs <;> omega
  · rw [List.length_append, List.length_singleton]
    split_ifs <;> omega
  · rw [List.length_append, List.length_singleton] at hi
    by_cases hlast : i = text.length
    · rw [if_pos (by omega), hlast]
      exact List.getElem?_concat_length
    · rw [if_neg (by omega)]
      exact List.getElem?_append_left (by omega)

theorem Shows.put_back (shows : Shows x y text s) (some_text : text ≠ [])
    (right : s.m_curX > x) : Shows x y text.dropLast (s.put h 8) := by
  have hX : 0 ≤ s.m_curX ∧ s.m_curX < 80 := shows.inv.curX
  have hY : 0 ≤ s.m_curY ∧ s.m_curY < 25 := shows.inv.curY
  have hcursor := shows.cursor
  have horigin := shows.origin
  have hlength := List.length_pos_of_ne_nil some_text
  obtain ⟨hend, hatEnd⟩ := shows.toEnd
  have hright : s.m_curY ≥ s.ruboutLimitY ∧ s.m_curX > s.ruboutLimitX := by
    rw [shows.limit.1, shows.limit.2]
    omega
  rw [VGAText.put_back shows.inv hright]
  refine hend.setChar hatEnd (by omega) hY ?_ (by omega) (fun i hi => ?_) (by omega) ?_ ?_
  · rw [List.length_dropLast]
    omega
  · rw [List.length_dropLast] at hi
    rw [if_neg (by omega), List.getElem?_dropLast, if_pos hi]
  · rw [List.length_dropLast]
    omega
  · rw [List.length_dropLast]
    omega

theorem Shows.put_stuck (shows : Shows x y [] s) : Shows x y [] (s.put h 8) := by
  have hX : 0 ≤ s.m_curX ∧ s.m_curX < 80 := shows.inv.curX
  have hcursor := shows.cursor
  have horigin := shows.origin
  rw [List.length_nil] at hcursor
  rw [VGAText.put_stuck shows.inv (by rw [shows.limit.1, shows.limit.2]; omega)]
  exact shows.toEnd.1

end Shows

end VGAText

namespace Echo

/-! ## The buffer -/

section Buffer

variable {e : Echo} {key : Keystroke}

/-- A keystroke of a request that is still pending afterwards. -/
theorem input_pending {kb : Keyboard} {c : UInt8} (active : kb.ilock ∧ kb.ubuf ≠ 0 ∧ kb.stop ≠ -2)
    (typable : Typable c) (pending : (kb.input c).1.ilock = true) :
    (kb.input c).2 = (kb.typed c).2 ∧ (kb.input c).1.ubuf = kb.ubuf ∧
      (kb.input c).1.pos = (kb.typed c).1.pos ∧ (kb.input c).1.stop ≠ -2 := by
  have hubuf := (System.typed_spec kb c).2.1
  have hstop : (kb.typed c).1.stop = kb.stop := by
    unfold Keyboard.typed
    split_ifs <;> rfl
  have hend : ¬(c = 10 ∨ c = 13) := by
    rintro (rfl | rfl)
    · exact typable.2.1 rfl
    · exact typable.2.2 rfl
  unfold Keyboard.input at pending ⊢
  rw [if_pos active] at pending ⊢
  generalize kb.typed c = typed at *
  obtain ⟨kb', stores⟩ := typed
  dsimp only at hubuf hstop pending ⊢
  simp only [hend, if_false] at pending ⊢
  by_cases hscan : kb.stop < 0
  · rw [if_pos hscan]
    exact ⟨rfl, hubuf, rfl, hstop.symm ▸ active.2.2⟩
  · rw [if_neg hscan] at pending ⊢
    by_cases hzero : kb.stop = 0
    · rw [if_pos hzero] at pending
      cases pending
    · rw [if_neg hzero] at pending ⊢
      by_cases hlast : kb'.stop - 1 = 0
      · rw [if_pos hlast] at pending
        cases pending
      · rw [if_neg hlast]
        refine ⟨rfl, hubuf, rfl, ?_⟩
        dsimp only
        omega

/-- The text is in the buffer of a request that is pending. -/
structure Holds (text : List UInt8) (e : Echo) : Prop where
  active : e.kb.ilock ∧ e.kb.ubuf ≠ 0 ∧ e.kb.stop ≠ -2
  pos : e.kb.pos.toNat = text.length
  bytes : ∀ i : ℕ, i < text.length → text[i]? = some (e.ubuf (e.kb.ubuf + i))

theorem Holds.line_eq {text : List UInt8} (holds : Holds text e) : e.line = text := by
  apply List.ext_getElem?
  intro i
  unfold line
  rw [List.getElem?_map, holds.pos]
  by_cases hi : i < text.length
  · rw [List.getElem?_range hi, holds.bytes i hi]
    rfl
  · rw [List.getElem?_eq_none (by rw [List.length_range]; omega), List.getElem?_eq_none (by omega)]
    rfl

theorem Holds.input {text : List UInt8} (holds : Holds text e) (typable : Typable key.c)
    (short : text.length < 2000) (pending : (e.input key).kb.ilock = true) :
    Holds (edit text key.c) (e.input key) := by
  obtain ⟨hstores, hubuf, hpos, hstop⟩ := input_pending holds.active typable pending
  have hactive : (e.kb.input key.c).1.ilock ∧ (e.kb.input key.c).1.ubuf ≠ 0 ∧
      (e.kb.input key.c).1.stop ≠ -2 := ⟨pending, hubuf ▸ holds.active.2.1, hstop⟩
  have hlength := holds.pos
  by_cases hback : key.c = 8
  · unfold edit
    rw [if_pos hback]
    unfold Keyboard.typed at hstores hpos
    rw [if_pos hback] at hstores hpos
    by_cases hzero : e.kb.pos = 0
    · have hnil : text = [] := by
        apply List.eq_nil_of_length_eq_zero
        rw [← hlength, hzero]
        rfl
      rw [if_neg (not_not.2 hzero)] at hpos
      rw [hnil]
      exact ⟨hactive, congrArg UInt32.toNat (hpos.trans hzero), fun i hi => absurd hi (Nat.not_lt_zero i)⟩
    · have hne : e.kb.pos.toNat ≠ 0 := fun h => hzero (UInt32.toNat_inj.1 h)
      have hprev : (e.kb.pos - 1).toNat = e.kb.pos.toNat - 1 :=
        UInt32.toNat_sub_of_le _ _ (UInt32.le_iff_toNat_le.2 (by change 1 ≤ e.kb.pos.toNat; omega))
      rw [if_pos hzero] at hstores hpos
      refine ⟨hactive, ?_, fun i hi => ?_⟩
      · refine (congrArg UInt32.toNat hpos).trans ?_
        rw [hprev, hlength, List.length_dropLast]
      · rw [List.length_dropLast] at hi
        show _ = some ((e.kb.input key.c).2.foldl _ e.ubuf ((e.kb.input key.c).1.ubuf + i))
        rw [hstores, hubuf, List.foldl_nil, List.getElem?_dropLast, if_pos hi]
        exact holds.bytes i (by omega)
  · have htyped : e.kb.typed key.c = ({ e.kb with pos := e.kb.pos + 1 },
        [(e.kb.ubuf + e.kb.pos.toNat, key.c), (e.kb.ubuf + (e.kb.pos + 1).toNat, 0)]) := by
      unfold Keyboard.typed
      rw [if_neg hback]
    have hnext : (e.kb.pos + 1).toNat = e.kb.pos.toNat + 1 := by
      rw [UInt32.toNat_add]
      exact Nat.mod_eq_of_lt (by change e.kb.pos.toNat + 1 < 2 ^ 32; omega)
    rw [htyped] at hstores hpos
    unfold edit
    rw [if_neg hback]
    refine ⟨hactive, ?_, fun i hi => ?_⟩
    · exact (congrArg UInt32.toNat hpos).trans (by
        rw [hnext, hlength, List.length_append, List.length_singleton])
    · rw [List.length_append, List.length_singleton] at hi
      show _ = some ((e.kb.input key.c).2.foldl _ e.ubuf ((e.kb.input key.c).1.ubuf + i))
      rw [hstores, hubuf, List.foldl_cons, List.foldl_cons, List.foldl_nil, hnext]
      dsimp only
      rw [Function.update_of_ne (by omega)]
      by_cases hlast : i = text.length
      · rw [hlast, hlength, Function.update_self]
        exact List.getElem?_concat_length
      · rw [Function.update_of_ne (by omega), List.getElem?_append_left (by omega)]
        exact holds.bytes i (by omega)

end Buffer

/-! ## One keystroke -/

section Step

variable {e : Echo} {key : Keystroke} {x y : ℤ} {text : List UInt8}

/-- The screen shows `ubuf[0..pos)`. -/
def Agrees (x y : ℤ) (e : Echo) : Prop := e.shown x y = e.line

theorem shown_eq (shows : VGAText.Shows x y text e.vga) : e.shown x y = text := by
  have hlength : (80 * e.vga.m_curY + e.vga.m_curX - (80 * y + x)).toNat = text.length := by
    rw [shows.cursor]
    omega
  apply List.ext_getElem?
  intro i
  unfold shown
  rw [hlength, List.getElem?_map]
  by_cases hi : i < text.length
  · rw [List.getElem?_range hi, shows.chars i hi]
    rfl
  · rw [List.getElem?_eq_none (by rw [List.length_range]; omega), List.getElem?_eq_none (by omega)]
    rfl

/-- The console edits the text while the keystroke follows the condition. -/
theorem shows_put (shows : VGAText.Shows x y text e.vga) (holds : Holds text e)
    (typable : Typable key.c) (follows : e.Follows key.c) :
    VGAText.Shows x y (edit text key.c) (e.vga.put key.h key.c) := by
  unfold Follows at follows
  unfold edit
  by_cases hback : key.c = 8
  · rw [if_pos hback] at follows ⊢
    rw [hback]
    by_cases hnil : text = []
    · rw [hnil] at shows ⊢
      exact shows.put_stuck
    · refine shows.put_back hnil ?_
      have hpos : e.kb.pos ≠ 0 := by
        intro hzero
        apply hnil
        apply List.eq_nil_of_length_eq_zero
        rw [← holds.pos, hzero]
        rfl
      rw [← shows.limit.1]
      exact follows hpos
  · rw [if_neg hback] at follows ⊢
    exact shows.put_plain ⟨typable.2.1, hback, typable.1, typable.2.2⟩ follows

/-- Any other keystroke leaves the screen and the buffer with different lengths. -/
theorem not_agrees_input (shows : VGAText.Shows x y text e.vga) (holds : Holds text e)
    (typable : Typable key.c) (pending : (e.input key).kb.ilock = true)
    (breaks : ¬e.Follows key.c) : ¬Agrees x y (e.input key) := by
  have hcursor := shows.cursor
  have hX : 0 ≤ e.vga.m_curX ∧ e.vga.m_curX < 80 := shows.inv.curX
  have hY : 0 ≤ e.vga.m_curY ∧ e.vga.m_curY < 25 := shows.inv.curY
  have horigin := shows.origin
  have hline := (holds.input typable (by omega) pending).line_eq
  intro hagrees
  unfold Agrees at hagrees
  rw [hline] at hagrees
  have hlength := congrArg List.length hagrees
  unfold shown at hlength
  rw [List.length_map, List.length_range] at hlength
  unfold Follows at breaks
  unfold edit at hlength
  have hinput : (e.input key).vga = e.vga.put key.h key.c := rfl
  rw [hinput] at hlength
  by_cases hback : key.c = 8
  · rw [if_pos hback] at breaks hlength
    push Not at breaks
    obtain ⟨hpos, hleft⟩ := breaks
    have hne : e.kb.pos.toNat ≠ 0 := fun h => hpos (UInt32.toNat_inj.1 h)
    have hlen := holds.pos
    obtain ⟨-, hsameX, hsameY, -⟩ := VGAText.inv_toEnd shows.inv
    rw [hback, VGAText.put_stuck shows.inv (fun right => absurd right.2 (not_lt.2 hleft)), hsameX,
      hsameY, List.length_dropLast] at hlength
    omega
  · rw [if_neg hback] at breaks hlength
    rw [not_not] at breaks
    have hinv := VGAText.inv_put (h := key.h) shows.inv fun htab => absurd htab typable.1
    have hX' : 0 ≤ (e.vga.put key.h key.c).m_curX ∧ (e.vga.put key.h key.c).m_curX < 80 := hinv.curX
    have hY' : 0 ≤ (e.vga.put key.h key.c).m_curY ∧ (e.vga.put key.h key.c).m_curY < 25 := hinv.curY
    rw [List.length_append, List.length_singleton] at hlength
    omega

end Step

/-! ## A request -/

/-- Every keystroke follows the condition on the cursor. -/
def FollowsAll : Echo → List Keystroke → Prop
  | _, [] => True
  | e, key :: keys => e.Follows key.c ∧ FollowsAll (e.input key) keys

theorem agrees_run_iff {x y : ℤ} {text : List UInt8} {e : Echo}
    (shows : VGAText.Shows x y text e.vga) (holds : Holds text e) (keys : List Keystroke)
    (typable : ∀ key ∈ keys, Typable key.c)
    (pending : ∀ n, (e.run (keys.take n)).kb.ilock = true) :
    (∀ n, Agrees x y (e.run (keys.take n))) ↔ FollowsAll e keys := by
  induction keys generalizing e text with
  | nil =>
    refine iff_of_true (fun n => ?_) trivial
    rw [List.take_nil]
    exact (shown_eq shows).trans holds.line_eq.symm
  | cons key keys ih =>
    have hcursor := shows.cursor
    have hX : 0 ≤ e.vga.m_curX ∧ e.vga.m_curX < 80 := shows.inv.curX
    have hY : 0 ≤ e.vga.m_curY ∧ e.vga.m_curY < 25 := shows.inv.curY
    have horigin := shows.origin
    have hkey : Typable key.c := typable key List.mem_cons_self
    have hrest : ∀ key ∈ keys, Typable key.c := fun key' h => typable key' (List.mem_cons_of_mem _ h)
    have hlock : (e.input key).kb.ilock = true := pending 1
    have hnext : e.Follows key.c → ((∀ n, Agrees x y ((e.input key).run (keys.take n))) ↔
        FollowsAll (e.input key) keys) := fun follows =>
      ih (shows_put shows holds hkey follows) (holds.input hkey (by omega) hlock) hrest
        fun n => pending (n + 1)
    constructor
    · intro hall
      have follows : e.Follows key.c := by
        by_contra breaks
        exact not_agrees_input shows holds hkey hlock breaks (hall 1)
      exact ⟨follows, (hnext follows).1 fun n => hall (n + 1)⟩
    · rintro ⟨follows, hfollows⟩ n
      cases n with
      | zero => exact (shown_eq shows).trans holds.line_eq.symm
      | succ n => exact (hnext follows).2 hfollows n

theorem shows_ask {e : Echo} (console : VGAText.InBounds e.vga)
    (placed : e.vga.logEnabled = true → VGAText.m_memLim ≤ e.vga.m_logLim - 4000) {buf : ℕ}
    (buffer : buf ≠ 0) {stop : ℤ} (mode : stop ≠ -2) :
    VGAText.Shows e.vga.m_curX e.vga.m_curY [] (e.ask buf stop).vga ∧ Holds [] (e.ask buf stop) := by
  refine ⟨⟨⟨⟨console.curX, console.curY, console.stores⟩, console.curX.1⟩, ⟨rfl, rfl⟩,
    ⟨console.curX, console.curY⟩, ?_, placed, fun _ hne => absurd rfl hne,
    fun i hi => absurd hi (Nat.not_lt_zero i)⟩,
    ⟨⟨rfl, buffer, mode⟩, rfl, fun i hi => absurd hi (Nat.not_lt_zero i)⟩⟩
  show 80 * e.vga.m_curY + e.vga.m_curX = _
  rw [List.length_nil, Nat.cast_zero, add_zero]

/-- The echo agrees with the buffer over a whole request exactly as long as every keystroke follows
the condition on the cursor. -/
theorem agrees_ask_iff (e : Echo) (console : VGAText.InBounds e.vga)
    (placed : e.vga.logEnabled = true → VGAText.m_memLim ≤ e.vga.m_logLim - 4000) (buf : ℕ)
    (buffer : buf ≠ 0) (stop : ℤ) (mode : stop ≠ -2) (keys : List Keystroke)
    (typable : ∀ key ∈ keys, Typable key.c)
    (pending : ∀ n, ((e.ask buf stop).run (keys.take n)).kb.ilock = true) :
    (∀ n, Agrees e.vga.m_curX e.vga.m_curY ((e.ask buf stop).run (keys.take n))) ↔
      FollowsAll (e.ask buf stop) keys := by
  obtain ⟨hshows, hholds⟩ := shows_ask console placed buffer mode
  exact agrees_run_iff hshows hholds keys typable pending

/-- The cursor in the last column of the first line. -/
def lastColumn : Echo where
  kb := ⟨false, 0, 0, -2⟩
  ubuf := fun _ => 0
  vga := { VGAText.start with m_curX := 79 }

theorem lastColumn_inBounds : VGAText.InBounds lastColumn.vga where
  curX := (by decide : (0 : ℤ) ≤ 79 ∧ 79 < VGAText.m_width)
  curY := (by decide : (0 : ℤ) ≤ 0 ∧ 0 < VGAText.m_height)
  stores := fun _ hst => absurd hst List.not_mem_nil

/-- The letter `a` and a backspace. -/
def typedBack : List Keystroke := [⟨VGAText.noHeap, 97⟩, ⟨VGAText.noHeap, 8⟩]

theorem typedBack_typable : ∀ key ∈ typedBack, Typable key.c := by
  intro key hkey
  rcases List.mem_cons.1 hkey with rfl | hkey
  · exact ⟨by decide, by decide, by decide⟩
  · rw [List.mem_singleton.1 hkey]
    exact ⟨by decide, by decide, by decide⟩

theorem typedBack_pending (n : ℕ) :
    ((lastColumn.scan 0x1000).run (typedBack.take n)).kb.ilock = true := by
  match n with
  | 0 => rfl
  | 1 => rfl
  | n + 2 =>
    rw [List.take_of_length_le (Nat.le_add_left 2 n)]
    rfl

theorem agrees_lastColumn :
    (∀ n, Agrees lastColumn.vga.m_curX lastColumn.vga.m_curY
      ((lastColumn.ask 0x1000 (-1)).run (typedBack.take n))) ↔
        FollowsAll (lastColumn.ask 0x1000 (-1)) typedBack :=
  agrees_ask_iff lastColumn lastColumn_inBounds (fun on => absurd on (by decide)) 0x1000 (by decide)
    (-1) (by decide) typedBack typedBack_typable typedBack_pending

/-- A letter typed in the last column cannot be removed from the next line. -/
theorem not_agrees_lastColumn : ¬∀ (e : Echo), VGAText.InBounds e.vga →
    (e.vga.logEnabled = true → VGAText.m_memLim ≤ e.vga.m_logLim - 4000) →
    ∀ buf, buf ≠ 0 → ∀ keys : List Keystroke, (∀ key ∈ keys, Typable key.c) →
      (∀ n, ((e.scan buf).run (keys.take n)).kb.ilock = true) →
        ∀ n, Agrees e.vga.m_curX e.vga.m_curY ((e.scan buf).run (keys.take n)) := by
  intro hall
  have hagrees := hall lastColumn lastColumn_inBounds (fun on => absurd on (by decide)) 0x1000
    (by decide) typedBack typedBack_typable typedBack_pending
  obtain ⟨hshows, hholds⟩ := shows_ask lastColumn_inBounds (fun on => absurd on (by decide))
    (by decide : 0x1000 ≠ 0) (by decide : (-1 : ℤ) ≠ -2)
  obtain ⟨-, hback, -⟩ := (agrees_run_iff hshows hholds typedBack typedBack_typable
    typedBack_pending).1 hagrees
  -- the cursor is in the first column of the second line, and the request began in the last one
  have hput := VGAText.put_plain (h := VGAText.noHeap) (c := 97) hshows.inv (by decide) (by decide)
  have hX : ((lastColumn.ask 0x1000 (-1)).vga.put VGAText.noHeap 97).m_curX = 0 := by
    rw [hput]
    rfl
  have htypable : Typable (⟨VGAText.noHeap, 97⟩ : Keystroke).c := by
    unfold Typable
    decide
  have hfollows := shows_put hshows hholds htypable (by unfold Follows; decide)
  have hlimit : ((lastColumn.ask 0x1000 (-1)).vga.put VGAText.noHeap 97).ruboutLimitX = 79 :=
    hfollows.limit.1
  have hright : ((lastColumn.ask 0x1000 (-1)).vga.put VGAText.noHeap 97).m_curX >
      ((lastColumn.ask 0x1000 (-1)).vga.put VGAText.noHeap 97).ruboutLimitX :=
    hback (by decide)
  rw [hX, hlimit] at hright
  exact absurd hright (by decide)

end Echo
