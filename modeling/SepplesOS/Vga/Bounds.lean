import SepplesOS.Vga.Text

/-!
# The console stays inside its buffers

With the cursor on the screen, every character but one kind leaves it there, and all stores go into
the framebuffer and the last screenful of the log.  The exception is a tab in one of the last four
columns, which moves the cursor behind the end of the line.
-/

/-- The store goes into the framebuffer, or into the log. -/
def VGAStore.Inside : VGAStore → Prop
  | .screen addr => VGAText.m_memBase ≤ addr ∧ addr < VGAText.m_memLim
  | .log addr m_logCur m_logLim => m_logCur ≤ addr ∧ addr < m_logLim

namespace VGAText

/-- The variables of the console, without memory. -/
def vars (s : VGAText) : VGAText := { s with mem := fun _ => 0, stores := [] }

section Vars

variable {s s' : VGAText} (h : s'.vars = s.vars)
include h

theorem curX_of_vars : s'.m_curX = s.m_curX := by simpa [vars] using congrArg m_curX h
theorem curY_of_vars : s'.m_curY = s.m_curY := by simpa [vars] using congrArg m_curY h
theorem logEnabled_of_vars : s'.logEnabled = s.logEnabled := by
  simpa [vars] using congrArg logEnabled h
theorem logBase_of_vars : s'.m_logBase = s.m_logBase := by simpa [vars] using congrArg m_logBase h
theorem logLim_of_vars : s'.m_logLim = s.m_logLim := by simpa [vars] using congrArg m_logLim h
theorem logCur_of_vars : s'.m_logCur = s.m_logCur := by simpa [vars] using congrArg m_logCur h
theorem limitX_of_vars : s'.ruboutLimitX = s.ruboutLimitX := by
  simpa [vars] using congrArg ruboutLimitX h
theorem limitY_of_vars : s'.ruboutLimitY = s.ruboutLimitY := by
  simpa [vars] using congrArg ruboutLimitY h

end Vars

/-- The variables stay the same, and all new stores are inside. -/
structure Quiet (s s' : VGAText) : Prop where
  vars : s'.vars = s.vars
  stores : ∀ st ∈ s'.stores, st ∈ s.stores ∨ st.Inside

/-- The cursor is on the screen, and all stores were inside. -/
structure InBounds (s : VGAText) : Prop where
  curX : 0 ≤ s.m_curX ∧ s.m_curX < m_width
  curY : 0 ≤ s.m_curY ∧ s.m_curY < m_height
  stores : ∀ st ∈ s.stores, st.Inside

section Quiet

variable {s s' s'' : VGAText}

theorem Quiet.refl (s : VGAText) : Quiet s s := ⟨rfl, fun _ h => Or.inl h⟩

theorem Quiet.trans (h : Quiet s s') (h' : Quiet s' s'') : Quiet s s'' where
  vars := h'.vars.trans h.vars
  stores := fun st hst => (h'.stores st hst).elim (h.stores st) Or.inr

theorem Quiet.inBounds (h : Quiet s s') (inBounds : InBounds s) : InBounds s' where
  curX := by
    rw [curX_of_vars h.vars]
    exact inBounds.curX
  curY := by
    rw [curY_of_vars h.vars]
    exact inBounds.curY
  stores := fun st hst => (h.stores st hst).elim (inBounds.stores st) id

theorem quiet_pokeScreen {addr : ℤ} (byte : UInt8) (inside : m_memBase ≤ addr ∧ addr < m_memLim) :
    Quiet s (s.pokeScreen addr byte) where
  vars := rfl
  stores := by
    intro st hst
    rcases List.mem_cons.1 hst with rfl | hold
    · exact Or.inr inside
    · exact Or.inl hold

theorem quiet_pokeLog {addr : ℤ} (byte : UInt8) (inside : s.m_logCur ≤ addr ∧ addr < s.m_logLim) :
    Quiet s (s.pokeLog addr byte) where
  vars := rfl
  stores := by
    intro st hst
    rcases List.mem_cons.1 hst with rfl | hold
    · exact Or.inr inside
    · exact Or.inl hold

/-- A loop whose rounds are quiet is quiet. -/
theorem quiet_foldl {f : VGAText → ℕ → VGAText} (n : ℕ)
    (round : ∀ i < n, ∀ s', s'.vars = s.vars → Quiet s' (f s' i)) :
    Quiet s ((List.range n).foldl f s) := by
  induction n with
  | zero => exact Quiet.refl s
  | succ n ih =>
    rw [List.range_succ, List.foldl_append]
    have hquiet := ih fun i hi => round i (Nat.lt_succ_of_lt hi)
    exact hquiet.trans (round n (Nat.lt_succ_self n) _ hquiet.vars)

theorem quiet_render (s : VGAText) : Quiet s s.render := by
  unfold render
  refine quiet_foldl _ fun i hi s' _ => quiet_pokeScreen _ ?_
  unfold m_memLim m_memBase m_width m_height
  omega

theorem quiet_blankScreen {addr : ℤ} (inside : m_memBase ≤ addr ∧ addr + 1 < m_memLim) :
    Quiet s (s.blankScreen addr) :=
  (quiet_pokeScreen 0 ⟨inside.1, by omega⟩).trans (quiet_pokeScreen _ ⟨by omega, inside.2⟩)

theorem quiet_blankAll (s : VGAText) : Quiet s s.blankAll := by
  unfold blankAll
  refine quiet_foldl _ fun i hi s' _ => quiet_blankScreen ?_
  unfold m_memLim m_memBase m_width m_height
  omega

theorem quiet_blankLog {addr : ℤ} (inside : s.m_logCur ≤ addr ∧ addr + 1 < s.m_logLim) :
    Quiet s (s.blankLog addr) :=
  (quiet_pokeLog 0 ⟨inside.1, by omega⟩).trans
    (quiet_pokeLog _ ⟨show s.m_logCur ≤ addr + 1 by omega, inside.2⟩)

theorem quiet_shiftChar {n videomem : ℤ} (inside : m_memBase ≤ videomem ∧ videomem + 1 < m_memLim) :
    Quiet s (s.shiftChar n videomem) := by
  unfold shiftChar
  dsimp only
  split_ifs
  · exact (quiet_pokeScreen _ ⟨inside.1, by omega⟩).trans
      (quiet_pokeScreen _ ⟨by omega, inside.2⟩)
  · exact quiet_blankScreen inside

theorem quiet_shiftScreen (s : VGAText) (n : ℤ) : Quiet s (s.shiftScreen n) := by
  unfold shiftScreen
  refine quiet_foldl _ fun i hi s' _ => quiet_shiftChar ?_
  unfold m_memLim m_memBase m_width m_height
  omega

theorem quiet_blankFrom {ptr : ℤ} (above : s.m_logCur ≤ ptr) (even : (s.m_logLim - ptr) % 2 = 0) :
    Quiet s (s.blankFrom ptr) := by
  unfold blankFrom
  refine quiet_foldl _ fun i hi s' hvars => quiet_blankLog ?_
  rw [logCur_of_vars hvars, logLim_of_vars hvars]
  omega

theorem quiet_setChar (s : VGAText) (videoOff : ℤ) (c style : UInt8) (on : 0 ≤ videoOff ∧ videoOff + 1 < 4000)
    (last : s.logEnabled = true → s.m_logCur = s.m_logLim - 4000) :
    Quiet s (s.setChar videoOff c style) := by
  have hscreen (s : VGAText) : Quiet s
      ((s.pokeScreen (m_memBase + videoOff) c).pokeScreen (m_memBase + videoOff + 1) style) := by
    apply (quiet_pokeScreen c _).trans (quiet_pokeScreen style _) <;>
      · unfold m_memLim m_memBase m_width m_height
        omega
  unfold setChar
  dsimp only
  split_ifs with hlog
  · have hcur := last hlog
    have hfirst : Quiet s (s.pokeLog (s.m_logCur + videoOff) c) :=
      quiet_pokeLog c (by omega)
    refine (hfirst.trans (quiet_pokeLog style ?_)).trans (hscreen _)
    show s.m_logCur ≤ s.m_logCur + videoOff + 1 ∧ s.m_logCur + videoOff + 1 < s.m_logLim
    omega
  · exact hscreen s

end Quiet

/-! ## One character -/

section Char

variable {s : VGAText} {h : Heap}

/-- The cursor is on the screen, the stores were inside, and the rubout limit is not to the left of
the screen. -/
structure Inv (s : VGAText) : Prop extends InBounds s where
  limit : 0 ≤ s.ruboutLimitX

theorem Quiet.inv {s' : VGAText} (q : Quiet s s') (inv : Inv s) : Inv s' where
  toInBounds := q.inBounds inv.toInBounds
  limit := by
    rw [limitX_of_vars q.vars]
    exact inv.limit

theorem toI8_of_small {x : ℤ} (small : -128 ≤ x ∧ x < 128) : toI8 x = x := by
  unfold toI8
  rw [Int.bmod_def]
  omega

theorem newLines_one (curY : s.m_curY = m_height) :
    s.newLines h 1 =
      if s.logEnabled ∧ h.isMallocReady then (({ s with m_curY := 24 }.shiftScreen 1).growLog h 1, false)
      else if s.logEnabled then
        ({ { s with m_curY := 24 }.shiftScreen 1 with logEnabled := false }, true)
      else ({ s with m_curY := 24 }.shiftScreen 1, false) := by
  have hlog : ({ s with m_curY := 24 }.shiftScreen 1).logEnabled = s.logEnabled :=
    logEnabled_of_vars (s := { s with m_curY := 24 }) (quiet_shiftScreen _ 1).vars
  have hY : toI8 (m_height - ((1 : ℕ) : ℤ)) = 24 := by decide
  have hstay : (if (24 : ℤ) < 0 then (0 : ℤ) else if (24 : ℤ) > m_height then m_height else 24) = 24 := by
    decide
  have hn : (if (((1 : ℕ) : ℤ) > m_height) then m_height else ((1 : ℕ) : ℤ)) = 1 := by decide
  unfold newLines
  simp only [curY, hY, hstay, hn, hlog]

theorem inv_newLines (curX : 0 ≤ s.m_curX ∧ s.m_curX < m_width) (curY : s.m_curY = m_height)
    (stores : ∀ st ∈ s.stores, st.Inside) (limit : 0 ≤ s.ruboutLimitX) :
    Inv (s.newLines h 1).1 := by
  have hinv : Inv { s with m_curY := 24 } :=
    ⟨⟨curX, (by decide : (0 : ℤ) ≤ 24 ∧ 24 < m_height), stores⟩, limit⟩
  have hshift : Inv ({ s with m_curY := 24 }.shiftScreen 1) := (quiet_shiftScreen _ 1).inv hinv
  rw [newLines_one curY]
  generalize { s with m_curY := 24 }.shiftScreen 1 = s₁ at hshift ⊢
  split_ifs
  · -- the log grows by a line
    unfold growLog
    dsimp only
    refine Quiet.inv (quiet_blankFrom ?_ ?_) ⟨⟨hshift.curX, hshift.curY, hshift.stores⟩,
      hshift.limit⟩
    · dsimp only
      split_ifs <;> omega
    · dsimp only
      unfold m_width m_height
      split_ifs <;> omega
  · exact ⟨⟨hshift.curX, hshift.curY, hshift.stores⟩, hshift.limit⟩
  · exact hshift

theorem toI8_tab {x : ℤ} (on : 0 ≤ x ∧ x < 80) :
    toI8 (x + m_tabSize - x.tmod m_tabSize) = x + 4 - x % 4 := by
  rw [show x.tmod m_tabSize = x % 4 from Int.tmod_eq_emod_of_nonneg on.1]
  exact toI8_of_small (by unfold m_tabSize; omega)

theorem inv_toEnd (inv : Inv s) : Inv s.toEnd ∧ s.toEnd.m_curX = s.m_curX ∧
    s.toEnd.m_curY = s.m_curY ∧
    (s.toEnd.logEnabled = true → s.toEnd.m_logCur = s.toEnd.m_logLim - 4000) := by
  unfold toEnd
  split_ifs with hscroll
  · have hquiet := quiet_render { s with m_logCur := s.m_logLim - 2 * m_width * m_height }
    have hX := curX_of_vars hquiet.vars
    have hY := curY_of_vars hquiet.vars
    refine ⟨hquiet.inv ⟨⟨inv.curX, inv.curY, inv.stores⟩, inv.limit⟩, hX, hY, fun _ => ?_⟩
    rw [scrollDown, logCur_of_vars hquiet.vars, logLim_of_vars hquiet.vars]
    rfl
  · refine ⟨inv, rfl, rfl, fun hlog => ?_⟩
    by_contra hne
    exact hscroll ⟨hlog, hne⟩

/-- The second step leaves the cursor on the screen, or at the start of the line below it. -/
theorem typeChar_spec (inv : Inv s) {c : UInt8} (tab : c = 9 → s.m_curX < 76)
    (last : s.logEnabled = true → s.m_logCur = s.m_logLim - 4000) :
    (0 ≤ (s.typeChar c).m_curX ∧ (s.typeChar c).m_curX < m_width) ∧
      (0 ≤ (s.typeChar c).m_curY ∧ (s.typeChar c).m_curY ≤ m_height) ∧
      (∀ st ∈ (s.typeChar c).stores, st.Inside) ∧ 0 ≤ (s.typeChar c).ruboutLimitX := by
  have hX : 0 ≤ s.m_curX ∧ s.m_curX < 80 := inv.curX
  have hY : 0 ≤ s.m_curY ∧ s.m_curY < 25 := inv.curY
  have hnext : toI8 (s.m_curY + 1) = s.m_curY + 1 := toI8_of_small (by omega)
  unfold typeChar m_width m_height
  split_ifs with hnl hbs hrub htab hcr
  · exact ⟨⟨le_rfl, (by decide : (0 : ℤ) < 80)⟩, by dsimp only; omega, inv.stores, inv.limit⟩
  · -- the cursor is to the right of the rubout limit
    have hpos : s.m_curX > 0 := lt_of_le_of_lt inv.limit hrub.2
    have hback : toI8 (s.m_curX - 1) = s.m_curX - 1 := toI8_of_small (by omega)
    have hinv : Inv { s with m_curX := toI8 (s.m_curX - 1) } := by
      rw [hback]
      exact ⟨⟨(by omega : 0 ≤ s.m_curX - 1 ∧ s.m_curX - 1 < 80), inv.curY, inv.stores⟩, inv.limit⟩
    unfold rubout
    dsimp only
    rw [if_pos hpos]
    have hset := (quiet_setChar { s with m_curX := toI8 (s.m_curX - 1) }
      (2 * s.m_curX + 2 * m_width * s.m_curY - 2) 0 CUR_WHITE
      (by unfold m_width; omega) last).inv hinv
    exact ⟨hset.curX, ⟨hset.curY.1, hset.curY.2.le⟩, hset.stores, hset.limit⟩
  · exact ⟨hX, ⟨hY.1, hY.2.le⟩, inv.stores, inv.limit⟩
  · have hlt := tab htab
    refine ⟨?_, ⟨hY.1, hY.2.le⟩, inv.stores, inv.limit⟩
    dsimp only
    rw [toI8_tab hX]
    omega
  · exact ⟨⟨le_rfl, (by decide : (0 : ℤ) < 80)⟩, ⟨hY.1, hY.2.le⟩, inv.stores, inv.limit⟩
  · have hquiet := quiet_setChar s (2 * s.m_curX + 2 * 80 * s.m_curY) c s.m_curStyle
      (by omega) last
    have hset := hquiet.inv inv
    have hnextX : toI8 (s.m_curX + 1) = s.m_curX + 1 := toI8_of_small (by omega)
    have hsetX := curX_of_vars hquiet.vars
    have hsetY := curY_of_vars hquiet.vars
    generalize s.setChar (2 * s.m_curX + 2 * 80 * s.m_curY) c s.m_curStyle = s₁ at *
    dsimp only
    rw [hsetX, hsetY, hnextX, hnext]
    split_ifs with hwrap
    · exact ⟨⟨le_rfl, (by decide : (0 : ℤ) < 80)⟩, by dsimp only; omega, hset.stores, hset.limit⟩
    · exact ⟨by dsimp only; omega, by dsimp only; omega, hset.stores, hset.limit⟩

theorem inv_putChar (inv : Inv s) {c : UInt8} (tab : c = 9 → s.m_curX < 76) :
    Inv (s.putChar h c).1 := by
  obtain ⟨hend, hX, -, hlast⟩ := inv_toEnd inv
  obtain ⟨hcurX, hcurY, hstores, hlimit⟩ := typeChar_spec hend (by rwa [hX]) hlast
  unfold putChar
  dsimp only
  generalize s.toEnd.typeChar c = s₁ at *
  split_ifs with hfull
  · have heq : s₁.m_curY = m_height := le_antisymm hcurY.2 hfull
    rw [show (1 + s₁.m_curY - m_height).toNat = 1 by omega]
    exact inv_newLines hcurX heq hstores hlimit
  · exact ⟨⟨hcurX, ⟨hcurY.1, not_le.1 hfull⟩, hstores⟩, hlimit⟩

/-- A tab moves the cursor to the next stop, on the line or not. -/
theorem put_tab (inv : Inv s) : s.put h 9 = { s.toEnd with m_curX := s.m_curX + 4 - s.m_curX % 4 } := by
  obtain ⟨hend, hX, -, -⟩ := inv_toEnd inv
  have hon : 0 ≤ s.m_curX ∧ s.m_curX < 80 := inv.curX
  have hrow : ¬s.toEnd.m_curY ≥ m_height := not_le.2 hend.curY.2
  have htab : s.toEnd.typeChar 9 = { s.toEnd with m_curX := s.m_curX + 4 - s.m_curX % 4 } := by
    have hmove := toI8_tab (x := s.toEnd.m_curX) (by rwa [hX])
    unfold typeChar
    rw [if_neg (by decide), if_neg (by decide), if_pos rfl, hmove, hX]
  have hchar : s.putChar h 9 = ({ s.toEnd with m_curX := s.m_curX + 4 - s.m_curX % 4 }, false) := by
    unfold putChar
    dsimp only
    rw [htab, if_neg hrow]
  unfold put
  rw [hchar]
  rfl

theorem inv_printChars (inv : Inv s) {msg : String} (plain : ∀ c ∈ text msg, c ≠ 9) :
    Inv (s.printChars h msg) := by
  unfold printChars
  generalize text msg = cs at plain
  induction cs generalizing s with
  | nil => exact inv
  | cons c cs ih =>
    rw [List.foldl_cons]
    exact ih (inv_putChar inv fun htab => absurd htab (plain c List.mem_cons_self))
      fun c' hc' => plain c' (List.mem_cons_of_mem _ hc')

theorem inv_error (inv : Inv s) {msg : String} (plain : ∀ c ∈ text msg, c ≠ 9) :
    Inv (s.error h msg) := by
  have hstyle (s : VGAText) (inv : Inv s) (color : UInt8) : Inv (s.setCurStyle color false 0 false) :=
    ⟨⟨inv.curX, inv.curY, inv.stores⟩, inv.limit⟩
  have hred := hstyle s inv CUR_RED
  unfold error
  dsimp only
  generalize s.setCurStyle CUR_RED false 0 false = s₁ at hred
  refine hstyle _ (inv_printChars ?_ plain) CUR_WHITE
  split_ifs
  · refine inv_printChars ?_ (by simp only [text, String.reduceToList]; decide +kernel)
    unfold disableLog
    dsimp only
    split_ifs <;> exact ⟨⟨hred.curX, hred.curY, hred.stores⟩, hred.limit⟩
  · exact hred

theorem inv_put (inv : Inv s) {c : UInt8} (tab : c = 9 → s.m_curX < 76) : Inv (s.put h c) := by
  have hchar := inv_putChar (h := h) inv tab
  unfold put
  dsimp only
  split_ifs
  · exact inv_error hchar (by simp only [text, String.reduceToList]; decide +kernel)
  · exact hchar

/-- `showCursor` and `hideCursor` change nothing while the cursor is on the screen. -/
theorem showCursor_eq (inv : Inv s) : s.showCursor h = s := by
  have hX : 0 ≤ s.m_curX ∧ s.m_curX < 80 := inv.curX
  have hY : 0 ≤ s.m_curY ∧ s.m_curY < 25 := inv.curY
  unfold showCursor moveCursor m_width m_height
  rw [if_neg (by omega), if_pos (by omega)]

theorem hideCursor_eq (s : VGAText) : s.hideCursor h = s := by
  unfold hideCursor moveCursor
  rw [if_neg (by decide), if_neg (by decide)]

/-- Where `scroll` moves the start of the screen in the log. -/
def scrollTo (s : VGAText) (n : ℤ) : ℤ :=
  let m_logCur := toPtr (s.m_logCur + n * 2 * m_width)
  if n < 0 then if m_logCur < s.m_logBase then s.m_logBase else m_logCur
  else if m_logCur ≥ s.m_logLim - 2 * m_width * m_height then s.m_logLim - 2 * m_width * m_height
  else m_logCur

theorem scroll_on (inv : Inv s) (on : s.logEnabled = true) (n : ℤ) :
    s.scroll h n = if n = 0 ∨ n < 0 ∧ s.m_logCur = s.m_logBase then s
      else { s with m_logCur := s.scrollTo n }.render := by
  have hcursor (cur : ℤ) : { s with m_logCur := cur }.showCursor h = { s with m_logCur := cur } :=
    showCursor_eq ⟨⟨inv.curX, inv.curY, inv.stores⟩, inv.limit⟩
  unfold scroll scrollTo
  rw [hideCursor_eq]
  dsimp only
  rw [hcursor]
  by_cases hzero : n = 0
  · simp only [on, hzero, not_true, if_false, if_true, true_or]
  by_cases hneg : n < 0
  · by_cases htop : s.m_logCur = s.m_logBase
    · simp only [on, hzero, hneg, htop, not_true, if_false, if_true, true_and, or_true]
    · simp only [on, hzero, hneg, htop, not_true, if_false, if_true, and_false, or_self]
  · simp only [on, hzero, hneg, not_true, if_false, false_and, or_self]
    split_ifs <;> rfl

theorem inv_scroll (inv : Inv s) (n : ℤ) : Inv (s.scroll h n) := by
  by_cases on : s.logEnabled = true
  · rw [scroll_on inv on]
    split_ifs
    · exact inv
    · exact (quiet_render _).inv ⟨⟨inv.curX, inv.curY, inv.stores⟩, inv.limit⟩
  · unfold scroll
    rw [if_pos on]
    exact inv_error inv (by simp only [text, String.reduceToList]; decide +kernel)

end Char

/-! ## Runs -/

/-- A call of the console, with the heap as the call finds it. -/
inductive ConsoleOp
  | put (h : Heap) (c : UInt8)
  | scroll (h : Heap) (n : ℤ)
  | setRuboutLimit
  | resetRuboutLimit

/-- The state after a call. -/
def apply (s : VGAText) : ConsoleOp → VGAText
  | .put h c => s.put h c
  | .scroll h n => s.scroll h n
  | .setRuboutLimit => s.setRuboutLimit (-1) (-1)
  | .resetRuboutLimit => s.setRuboutLimit 0 0

/-- The call is no tab in the last four columns. -/
def NoFarTab (s : VGAText) : ConsoleOp → Prop
  | .put _ c => c = 9 → s.m_curX < 76
  | _ => True

/-- The state after some calls. -/
def run (s : VGAText) (ops : List ConsoleOp) : VGAText := ops.foldl apply s

/-- No call of the run is a tab in the last four columns. -/
def NoFarTabs : VGAText → List ConsoleOp → Prop
  | _, [] => True
  | s, op :: ops => s.NoFarTab op ∧ NoFarTabs (s.apply op) ops

/-- The screen cleared, with no stores recorded yet. -/
def cleared (h : Heap) (s : VGAText) : VGAText := { s.clear h with stores := [] }

theorem inv_apply {s : VGAText} (inv : Inv s) {op : ConsoleOp} (near : s.NoFarTab op) :
    Inv (s.apply op) := by
  cases op with
  | put h c => exact inv_put inv near
  | scroll h n => exact inv_scroll inv n
  | setRuboutLimit => exact ⟨⟨inv.curX, inv.curY, inv.stores⟩, inv.curX.1⟩
  | resetRuboutLimit => exact ⟨⟨inv.curX, inv.curY, inv.stores⟩, le_rfl⟩

theorem not_inBounds_apply {s : VGAText} (inv : Inv s) {op : ConsoleOp} (far : ¬s.NoFarTab op) :
    ¬InBounds (s.apply op) := by
  cases op with
  | put h c =>
    have hfar : c = 9 ∧ 76 ≤ s.m_curX := by
      unfold NoFarTab at far
      push Not at far
      exact far
    obtain ⟨rfl, hfar⟩ := hfar
    intro hin
    have hX : (s.put h 9).m_curX < 80 := hin.curX.2
    rw [put_tab inv] at hX
    have hstop : s.m_curX + 4 - s.m_curX % 4 < 80 := hX
    have hon : 0 ≤ s.m_curX ∧ s.m_curX < 80 := inv.curX
    omega
  | scroll h n => exact absurd trivial far
  | setRuboutLimit => exact absurd trivial far
  | resetRuboutLimit => exact absurd trivial far

theorem inv_cleared (h : Heap) (s : VGAText) (limit : 0 ≤ (s.clear h).ruboutLimitX) :
    Inv (cleared h s) where
  curX := ⟨le_rfl, (by decide : (0 : ℤ) < 80)⟩
  curY := ⟨le_rfl, (by decide : (0 : ℤ) < 25)⟩
  stores := fun _ hst => absurd hst List.not_mem_nil
  limit := limit

/-- From a state with the cursor on the screen, the console stays inside its buffers as long as no
tab is typed in the last four columns, and no longer. -/
theorem inBounds_run {s : VGAText} (inv : Inv s) (ops : List ConsoleOp) :
    (∀ n, InBounds (s.run (ops.take n))) ↔ NoFarTabs s ops := by
  induction ops generalizing s with
  | nil =>
    refine iff_of_true (fun n => ?_) trivial
    rw [List.take_nil]
    exact inv.toInBounds
  | cons op ops ih =>
    constructor
    · intro hall
      have hfirst : InBounds (s.apply op) := hall 1
      have near : s.NoFarTab op := by
        by_contra far
        exact not_inBounds_apply inv far hfirst
      exact ⟨near, (ih (inv_apply inv near)).1 fun n => hall (n + 1)⟩
    · rintro ⟨near, hrest⟩ n
      cases n with
      | zero => exact inv.toInBounds
      | succ n => exact (ih (inv_apply inv near)).2 hrest n

/-- The console as the kernel starts, with the screen empty. -/
def start : VGAText :=
  ⟨0, 0, CUR_WHITE, false, 0, 0, 0, 0, 0, fun _ => 0, []⟩

/-- `Malloc` before it is ready. -/
def noHeap : Heap := ⟨false, fun mem _ => (0, mem), fun mem _ _ => (0, mem), fun mem _ => mem⟩

theorem vars_cleared_start (h : Heap) : (cleared h start).vars = start.vars := by
  have hquiet := quiet_blankAll start
  have hlog : start.blankAll.logEnabled = false := logEnabled_of_vars hquiet.vars
  have hvars := hquiet.vars
  unfold cleared clear
  dsimp only
  rw [hlog, if_neg (by decide)]
  have hX := curX_of_vars hvars
  have hY := curY_of_vars hvars
  generalize start.blankAll = s at *
  unfold vars at hvars ⊢
  rw [← hvars]
  simp only [hX, hY]
  rfl

theorem run_tabs {s : VGAText} (inv : Inv s) (h : Heap) (off : s.logEnabled = false)
    (first : s.m_curX = 0) {k : ℕ} (short : k ≤ 20) :
    s.run (List.replicate k (.put h 9)) = { s with m_curX := 4 * k } := by
  induction k with
  | zero =>
    have hX : s.m_curX = 4 * ((0 : ℕ) : ℤ) := first
    rw [← hX]
    rfl
  | succ k ih =>
    have hinv : Inv { s with m_curX := 4 * k } :=
      ⟨⟨(by omega : (0 : ℤ) ≤ 4 * k ∧ (4 : ℤ) * k < 80), inv.curY, inv.stores⟩, inv.limit⟩
    have hput := put_tab (h := h) hinv
    have hend : toEnd { s with m_curX := 4 * k } = { s with m_curX := 4 * k } := by
      unfold toEnd
      rw [if_neg fun hlog => absurd (off.symm.trans hlog.1) (by decide)]
    rw [hend] at hput
    rw [run, List.replicate_succ', List.foldl_append]
    rw [run] at ih
    rw [ih (by omega)]
    refine Eq.trans hput ?_
    rw [ show (4 : ℤ) * k + 4 - 4 * k % 4 = 4 * ((k + 1 : ℕ) : ℤ) by omega]

/-- The console after `clear` stays inside its buffers exactly as long as no tab is typed in the last
four columns. -/
theorem inBounds_cleared_iff (h : Heap) (s : VGAText) (limit : 0 ≤ (cleared h s).ruboutLimitX)
    (ops : List ConsoleOp) :
    (∀ n, InBounds ((cleared h s).run (ops.take n))) ↔ NoFarTabs (cleared h s) ops :=
  inBounds_run (inv_cleared h s limit) ops

theorem inBounds_cleared_iff_start :
    (∀ n, InBounds ((cleared noHeap start).run
      (([.put noHeap 9, .put noHeap 65] : List ConsoleOp).take n))) ↔
      NoFarTabs (cleared noHeap start) [.put noHeap 9, .put noHeap 65] :=
  inBounds_cleared_iff noHeap start (limitX_of_vars (vars_cleared_start noHeap)).ge _

/-- Twenty tabs on the first line leave the screen. -/
theorem not_inBounds_start : ¬∀ (h : Heap) (s : VGAText), 0 ≤ (cleared h s).ruboutLimitX →
    ∀ (ops : List ConsoleOp) (n : ℕ), InBounds ((cleared h s).run (ops.take n)) := by
  intro hall
  have hvars := vars_cleared_start noHeap
  have hlimit : 0 ≤ (cleared noHeap start).ruboutLimitX := (limitX_of_vars hvars).ge
  have hrun := run_tabs (inv_cleared noHeap start hlimit) noHeap (logEnabled_of_vars hvars)
    (curX_of_vars hvars) (le_refl 20)
  have hin := hall noHeap start hlimit (List.replicate 20 (.put noHeap 9)) 20
  rw [List.take_of_length_le (by rw [List.length_replicate]), hrun] at hin
  exact absurd hin.curX.2 (by decide)

end VGAText
