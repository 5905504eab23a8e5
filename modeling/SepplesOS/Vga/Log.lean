import SepplesOS.Vga.Contents

/-!
# The screen is a window on the log

With the log on, the screen shows a screenful of the log, at a whole number of lines from both of
its ends.  Characters are written twice, and the log grows by the line that the screen loses.  The
exception is a scroll that would move `m_logCur` below address zero: the pointer wraps around, and
the comparison with `m_logBase` does not see it.
-/

/-- What the console relies on when it enables the log. -/
structure Heap.Ready (h : Heap) : Prop where
  ready : h.isMallocReady = true
  alloc : ∀ mem, VGAText.m_memLim ≤ (h.alloc mem 4000).1 ∧ (h.alloc mem 4000).1 + 4000 ≤ 2 ^ 63

/-- What the console relies on while the log is on: `realloc` keeps the old contents, and blocks lie
behind the framebuffer. -/
structure Heap.Keeps (h : Heap) (s : VGAText) : Prop extends h.Ready where
  placed : ∀ mem, let newsize := s.m_logLim - s.m_logBase + 160
    VGAText.m_memLim ≤ (h.realloc mem s.m_logBase newsize).1 ∧
      (h.realloc mem s.m_logBase newsize).1 + newsize ≤ 2 ^ 63
  kept : ∀ mem i, 0 ≤ i → i < s.m_logLim - s.m_logBase →
    let block := h.realloc mem s.m_logBase (s.m_logLim - s.m_logBase + 160)
    block.2 (block.1 + i) = mem (s.m_logBase + i)
  screen : ∀ mem a, VGAText.m_memBase ≤ a → a < VGAText.m_memLim →
    (h.realloc mem s.m_logBase (s.m_logLim - s.m_logBase + 160)).2 a = mem a

namespace VGAText

/-- The screen shows the log from `m_logCur` on. -/
structure Window (s : VGAText) : Prop where
  base_le : s.m_logBase ≤ s.m_logCur
  le_lim : s.m_logCur ≤ s.m_logLim - 4000
  cur_lines : (s.m_logCur - s.m_logBase) % 160 = 0
  lim_lines : (s.m_logLim - s.m_logBase) % 160 = 0
  same : ∀ i, 0 ≤ i → i < 4000 → s.mem (m_memBase + i) = s.mem (s.m_logCur + i)

/-- The log is on, behind the framebuffer, and on the screen. -/
structure Logged (s : VGAText) : Prop extends Window s where
  on : s.logEnabled = true
  placed : m_memLim ≤ s.m_logBase ∧ s.m_logLim ≤ 2 ^ 63

/-- The log is on the screen, and the cursor too. -/
structure LogInv (s : VGAText) : Prop extends Inv s, Logged s

/-- All bytes of the log but the last `n` stay the same. -/
structure KeepsLog (n : ℤ) (s s' : VGAText) : Prop where
  base : s'.m_logBase = s.m_logBase
  lim : s'.m_logLim = s.m_logLim
  mem : ∀ a, s.m_logBase ≤ a → a < s.m_logLim - n → s'.mem a = s.mem a

/-- The bytes before the last screenful stay the same, wherever the log now is. -/
structure KeepsOld (s s' : VGAText) : Prop where
  grows : s.m_logLim - s.m_logBase ≤ s'.m_logLim - s'.m_logBase
  mem : ∀ i, 0 ≤ i → i < s.m_logLim - s.m_logBase - 4000 →
    s'.mem (s'.m_logBase + i) = s.mem (s.m_logBase + i)

variable {s s' s'' : VGAText} {h : Heap}

/-- What the console relies on depends on the place of the log only. -/
theorem keeps_congr (keeps : h.Keeps s) (base : s'.m_logBase = s.m_logBase)
    (lim : s'.m_logLim = s.m_logLim) : h.Keeps s' where
  toReady := keeps.toReady
  placed := by
    rw [base, lim]
    exact keeps.placed
  kept := by
    rw [base, lim]
    exact keeps.kept
  screen := by
    rw [base, lim]
    exact keeps.screen

theorem KeepsLog.refl (n : ℤ) (s : VGAText) : KeepsLog n s s := ⟨rfl, rfl, fun _ _ _ => rfl⟩

theorem KeepsLog.trans {n : ℤ} (first : KeepsLog n s s') (second : KeepsLog n s' s'') :
    KeepsLog n s s'' where
  base := second.base.trans first.base
  lim := second.lim.trans first.lim
  mem := by
    intro a hlo hhi
    rw [second.mem a (by rwa [first.base]) (by rwa [first.lim]), first.mem a hlo hhi]

theorem KeepsLog.old {n : ℤ} (kept : KeepsLog n s s') (le_screen : n ≤ 4000) : KeepsOld s s' where
  grows := by rw [kept.base, kept.lim]
  mem := by
    intro i hlo hhi
    rw [kept.base]
    exact kept.mem _ (by omega) (by omega)

theorem KeepsOld.trans (first : KeepsOld s s') (second : KeepsOld s' s'') : KeepsOld s s'' where
  grows := first.grows.trans second.grows
  mem := by
    intro i hlo hhi
    have hgrows := first.grows
    rw [second.mem i hlo (by omega), first.mem i hlo hhi]

/-! ## Moving in the log -/

/-- The log is shown from another line on. -/
theorem logged_render (log : Logged s) (cur : ℤ) (base_le : s.m_logBase ≤ cur)
    (le_lim : cur ≤ s.m_logLim - 4000) (lines : (cur - s.m_logBase) % 160 = 0) :
    Logged { s with m_logCur := cur }.render ∧ KeepsLog 0 s { s with m_logCur := cur }.render := by
  have hplaced := log.placed
  have hend : m_memLim = m_memBase + 4000 := by decide
  have hfill := filled_render (s := { s with m_logCur := cur }) (hplaced.1.trans base_le)
  have hbase := logBase_of_vars hfill.vars
  have hlim := logLim_of_vars hfill.vars
  have hcur := logCur_of_vars hfill.vars
  have hon := logEnabled_of_vars hfill.vars
  have hlog : ∀ a, s.m_logBase ≤ a → { s with m_logCur := cur }.render.mem a = s.mem a :=
    fun a ha => hfill.outside a (Or.inr (by omega))
  have hsame : ∀ i, 0 ≤ i → i < 4000 →
      { s with m_logCur := cur }.render.mem (m_memBase + i) = s.mem (cur + i) := by
    intro i hlo hhi
    rw [hfill.inside _ (by omega) (by omega), add_sub_cancel_left]
  generalize { s with m_logCur := cur }.render = s₁ at *
  dsimp only at hbase hlim hcur hon
  refine ⟨⟨⟨?_, ?_, ?_, ?_, ?_⟩, hon.trans log.on, ?_⟩, hbase, hlim, fun a hlo _ => hlog a hlo⟩
  · rwa [hbase, hcur]
  · rwa [hlim, hcur]
  · rwa [hbase, hcur]
  · rw [hbase, hlim]
    exact log.lim_lines
  · intro i hlo hhi
    rw [hsame i hlo hhi, hcur, hlog _ (by omega)]
  · rwa [hbase, hlim]

theorem logged_scrollDown (log : Logged s) :
    Logged s.scrollDown ∧ KeepsLog 0 s s.scrollDown ∧
      s.scrollDown.m_logCur = s.scrollDown.m_logLim - 4000 := by
  have hroom := log.base_le.trans log.le_lim
  have hlines := log.lim_lines
  obtain ⟨hlogged, hkept⟩ :=
    logged_render log (s.m_logLim - 4000) hroom le_rfl (by omega)
  have hquiet := quiet_render { s with m_logCur := s.m_logLim - 4000 }
  refine ⟨hlogged, hkept, ?_⟩
  exact (logCur_of_vars hquiet.vars).trans
    (congrArg (· - 4000) (logLim_of_vars hquiet.vars).symm)

theorem logged_toEnd (log : Logged s) :
    Logged s.toEnd ∧ KeepsLog 0 s s.toEnd ∧ s.toEnd.m_logCur = s.toEnd.m_logLim - 4000 := by
  unfold toEnd
  split_ifs with hscroll
  · exact logged_scrollDown log
  · refine ⟨log, KeepsLog.refl 0 s, ?_⟩
    by_contra hne
    exact hscroll ⟨log.on, hne⟩

/-- The pointer that `scroll` computes wraps around. -/
def Wraps (s : VGAText) (n : ℤ) : Prop :=
  n < 0 ∧ s.m_logCur ≠ s.m_logBase ∧ s.m_logCur + n * 160 < 0

theorem scrollTo_spec (log : Logged s) {n : ℤ} (range : -2 ^ 31 ≤ n * 160 ∧ n * 160 < 2 ^ 31)
    (moves : ¬(n = 0 ∨ n < 0 ∧ s.m_logCur = s.m_logBase)) :
    (s.Wraps n → s.m_logLim - 4000 < s.scrollTo n) ∧
      (¬s.Wraps n → s.m_logBase ≤ s.scrollTo n ∧ s.scrollTo n ≤ s.m_logLim - 4000 ∧
        (s.scrollTo n - s.m_logBase) % 160 = 0) := by
  have hend : m_memLim = 757664 := by decide
  have hplaced := log.placed
  have hbase := log.base_le
  have hlim := log.le_lim
  have hcur := log.cur_lines
  have hlines := log.lim_lines
  have hn : s.m_logCur + n * 2 * 80 = s.m_logCur + n * 160 := by ring
  unfold scrollTo Wraps toPtr m_width m_height
  dsimp only
  rw [hn]
  by_cases hwraps : s.m_logCur + n * 160 < 0
  · have hmod : (s.m_logCur + n * 160) % 2 ^ 64 = s.m_logCur + n * 160 + 2 ^ 64 := by
      rw [← Int.add_emod_right]
      exact Int.emod_eq_of_lt (by omega) (by omega)
    rw [hmod]
    split_ifs <;> omega
  · have hmod : (s.m_logCur + n * 160) % 2 ^ 64 = s.m_logCur + n * 160 :=
      Int.emod_eq_of_lt (by omega) (by omega)
    rw [hmod]
    split_ifs <;> omega

theorem logged_scroll (inv : LogInv s) {n : ℤ} (range : -2 ^ 31 ≤ n * 160 ∧ n * 160 < 2 ^ 31)
    (stays : ¬s.Wraps n) : Logged (s.scroll h n) ∧ KeepsLog 0 s (s.scroll h n) := by
  rw [scroll_on inv.toInv inv.on]
  split_ifs with hstay
  · exact ⟨inv.toLogged, KeepsLog.refl 0 s⟩
  · have hto := (scrollTo_spec inv.toLogged range hstay).2 stays
    exact logged_render inv.toLogged _ hto.1 hto.2.1 hto.2.2

/-- After the pointer has wrapped around, the screen is no window on the log. -/
theorem not_window_scroll (inv : LogInv s) {n : ℤ}
    (range : -2 ^ 31 ≤ n * 160 ∧ n * 160 < 2 ^ 31) (wraps : s.Wraps n) :
    (s.scroll h n).logEnabled = true ∧ ¬Window (s.scroll h n) := by
  have hstay : ¬(n = 0 ∨ n < 0 ∧ s.m_logCur = s.m_logBase) := by
    obtain ⟨hneg, hne, -⟩ := wraps
    rintro (hzero | ⟨-, htop⟩)
    · omega
    · exact hne htop
  have hto := (scrollTo_spec inv.toLogged range hstay).1 wraps
  rw [scroll_on inv.toInv inv.on, if_neg hstay]
  have hvars := (quiet_render { s with m_logCur := s.scrollTo n }).vars
  refine ⟨(logEnabled_of_vars hvars).trans inv.on, fun window => ?_⟩
  have hle := window.le_lim
  rw [logCur_of_vars hvars, logLim_of_vars hvars] at hle
  exact absurd hto (not_lt.2 hle)

/-! ## One character -/

theorem Logged.moveCursor (log : Logged s) (x y : ℤ) :
    Logged { s with m_curX := x, m_curY := y } :=
  ⟨⟨log.base_le, log.le_lim, log.cur_lines, log.lim_lines, log.same⟩, log.on, log.placed⟩

/-- A character in the last screenful of the log, and at the same place on the screen. -/
theorem logged_setChar (log : Logged s) (atEnd : s.m_logCur = s.m_logLim - 4000) {off : ℤ}
    (on : 0 ≤ off ∧ off + 1 < 4000) (c style : UInt8) :
    Logged (s.setChar off c style) ∧ KeepsLog 4000 s (s.setChar off c style) := by
  have hend : m_memLim = m_memBase + 4000 := by decide
  have hplaced := log.placed
  have hbase_le := log.base_le
  have hvars := vars_setChar s off c style
  have hbase := logBase_of_vars hvars
  have hlim := logLim_of_vars hvars
  have hcur := logCur_of_vars hvars
  have hlog : ∀ i, s.m_logBase ≤ s.m_logCur + i → (s.setChar off c style).mem (s.m_logCur + i) =
      if i = off + 1 then style else if i = off then c else s.mem (s.m_logCur + i) :=
    fun i hi => setChar_mem_log c style log.on (by omega) on.2
  refine ⟨⟨⟨?_, ?_, ?_, ?_, ?_⟩, (logEnabled_of_vars hvars).trans log.on, ?_⟩, hbase, hlim, ?_⟩
  · rwa [hbase, hcur]
  · rw [hlim, hcur]
    exact log.le_lim
  · rw [hbase, hcur]
    exact log.cur_lines
  · rw [hbase, hlim]
    exact log.lim_lines
  · intro i hlo hhi
    have hscreen := setChar_mem_screen s c style ⟨hlo, hhi⟩ on.1 fun _ => hplaced.1.trans hbase_le
    rw [hcur, hlog i (by omega), hscreen, log.same i hlo hhi]
  · rwa [hbase, hlim]
  · intro a hlo hhi
    have hbelow := hlog (a - s.m_logCur) (by omega)
    rwa [if_neg (by omega), if_neg (by omega), add_sub_cancel] at hbelow

theorem logged_typeChar (inv : LogInv s) (atEnd : s.m_logCur = s.m_logLim - 4000) {c : UInt8}
    (tab : c ≠ 9) : Logged (s.typeChar c) ∧ KeepsLog 4000 s (s.typeChar c) ∧
      (s.typeChar c).m_logCur = (s.typeChar c).m_logLim - 4000 := by
  have hX : 0 ≤ s.m_curX ∧ s.m_curX < 80 := inv.curX
  have hY : 0 ≤ s.m_curY ∧ s.m_curY < 25 := inv.curY
  have hkeep (x y : ℤ) : KeepsLog 4000 s { s with m_curX := x, m_curY := y } :=
    ⟨rfl, rfl, fun _ _ _ => rfl⟩
  have hset {off : ℤ} (on : 0 ≤ off ∧ off + 1 < 4000) (s' : VGAText) (log : Logged s')
      (atEnd : s'.m_logCur = s'.m_logLim - 4000) (c style : UInt8) :
      (s'.setChar off c style).m_logCur = (s'.setChar off c style).m_logLim - 4000 := by
    have hvars := vars_setChar s' off c style
    rw [logCur_of_vars hvars, logLim_of_vars hvars, atEnd]
  unfold typeChar
  split_ifs with hnl hbs hrub hcr
  · exact ⟨inv.toLogged.moveCursor _ _, hkeep _ _, atEnd⟩
  · -- the character before the cursor is on the same line
    have hpos : s.m_curX > 0 := lt_of_le_of_lt inv.limit hrub.2
    have hon : 0 ≤ 2 * s.m_curX + 2 * m_width * s.m_curY - 2 ∧
        2 * s.m_curX + 2 * m_width * s.m_curY - 2 + 1 < 4000 := by
      unfold m_width
      omega
    unfold rubout
    dsimp only
    rw [if_pos hpos]
    have hback := inv.toLogged.moveCursor (toI8 (s.m_curX - 1)) s.m_curY
    obtain ⟨hlog, hold⟩ := logged_setChar hback atEnd hon 0 CUR_WHITE
    exact ⟨hlog, (hkeep (toI8 (s.m_curX - 1)) s.m_curY).trans hold, hset hon _ hback atEnd _ _⟩
  · exact ⟨inv.toLogged, KeepsLog.refl 4000 s, atEnd⟩
  · exact ⟨inv.toLogged.moveCursor _ _, hkeep _ _, atEnd⟩
  · have hon : 0 ≤ 2 * s.m_curX + 2 * m_width * s.m_curY ∧
        2 * s.m_curX + 2 * m_width * s.m_curY + 1 < 4000 := by
      unfold m_width
      omega
    obtain ⟨hlog, hold⟩ := logged_setChar inv.toLogged atEnd hon c s.m_curStyle
    have hend := hset hon s inv.toLogged atEnd c s.m_curStyle
    generalize s.setChar (2 * s.m_curX + 2 * m_width * s.m_curY) c s.m_curStyle = s₁ at *
    have hkeep₁ (x y : ℤ) : KeepsLog 4000 s₁ { s₁ with m_curX := x, m_curY := y } :=
      ⟨rfl, rfl, fun _ _ _ => rfl⟩
    dsimp only
    split_ifs
    · exact ⟨hlog.moveCursor _ _, hold.trans (hkeep₁ _ _), hend⟩
    · exact ⟨hlog.moveCursor _ _, hold.trans (hkeep₁ _ _), hend⟩

/-- The log moved to a block with one more line, and the screen at its end. -/
def grown (s : VGAText) (block : ℤ × (ℤ → UInt8)) : VGAText :=
  { s with
    mem := block.2
    m_logBase := block.1
    m_logLim := block.1 + (s.m_logLim - s.m_logBase + 160)
    m_logCur := block.1 + (s.m_logLim - s.m_logBase + 160) - 4000 }

theorem grown_logBase (s : VGAText) (block : ℤ × (ℤ → UInt8)) :
    (s.grown block).m_logBase = block.1 := rfl

theorem grown_logLim (s : VGAText) (block : ℤ × (ℤ → UInt8)) :
    (s.grown block).m_logLim = block.1 + (s.m_logLim - s.m_logBase + 160) := rfl

theorem grown_logCur (s : VGAText) (block : ℤ × (ℤ → UInt8)) :
    (s.grown block).m_logCur = (s.grown block).m_logLim - 4000 := rfl

theorem grown_curY (s : VGAText) (block : ℤ × (ℤ → UInt8)) :
    (s.grown block).m_curY = s.m_curY := rfl

theorem growLog_one (s : VGAText) (h : Heap) :
    s.growLog h 1 =
      (s.grown (h.realloc s.mem s.m_logBase (s.m_logLim - s.m_logBase + 160))).blankFrom
        ((h.realloc s.mem s.m_logBase (s.m_logLim - s.m_logBase + 160)).1 +
          (s.m_logLim - s.m_logBase)) := by
  have hline : 1 * 2 * m_width = 160 := by decide
  have hscreen : 2 * m_width * m_height = 4000 := by decide
  rcases hblock : h.realloc s.mem s.m_logBase (s.m_logLim - s.m_logBase + 160) with ⟨newLog, mem⟩
  have hptr : (if newLog + (s.m_logLim - s.m_logBase + 160) - 160 <
      newLog + (s.m_logLim - s.m_logBase + 160) - 4000 then
        newLog + (s.m_logLim - s.m_logBase + 160) - 4000
      else newLog + (s.m_logLim - s.m_logBase + 160) - 160) =
        newLog + (s.m_logLim - s.m_logBase) := by
    split_ifs <;> omega
  unfold growLog grown
  simp only [hline, hscreen, hblock, hptr]

/-- A log with one more line, before that line is emptied.  The screen has moved up already. -/
structure Moved (s s' : VGAText) : Prop where
  on : s'.logEnabled = true
  placed : m_memLim ≤ s'.m_logBase ∧ s'.m_logLim ≤ 2 ^ 63
  lim : s'.m_logLim = s'.m_logBase + (s.m_logLim - s.m_logBase) + 160
  cur : s'.m_logCur = s'.m_logLim - 4000
  log : ∀ i, 0 ≤ i → i < s.m_logLim - s.m_logBase →
    s'.mem (s'.m_logBase + i) = s.mem (s.m_logBase + i)
  screen : ∀ i, 0 ≤ i → i < 4000 → s'.mem (m_memBase + i) =
    if i < 3840 then s.mem (m_memBase + (i + 160)) else blank 0 i

theorem logged_moved (log : Logged s) (atEnd : s.m_logCur = s.m_logLim - 4000)
    (moved : Moved s s') :
    Logged (s'.blankFrom (s'.m_logBase + (s.m_logLim - s.m_logBase))) ∧
      KeepsOld s (s'.blankFrom (s'.m_logBase + (s.m_logLim - s.m_logBase))) ∧
      (s'.blankFrom (s'.m_logBase + (s.m_logLim - s.m_logBase))).vars = s'.vars := by
  have hend : m_memLim = m_memBase + 4000 := by decide
  have hlines := log.lim_lines
  have hroom := log.base_le
  have hplaced := moved.placed
  have hlim := moved.lim
  have hcur := moved.cur
  have hfill := filled_blankFrom s'
    (by omega : s'.m_logBase + (s.m_logLim - s.m_logBase) ≤ s'.m_logLim) (by omega)
  have hbase₁ := logBase_of_vars hfill.vars
  have hlim₁ := logLim_of_vars hfill.vars
  have hcur₁ := logCur_of_vars hfill.vars
  have hon₁ := logEnabled_of_vars hfill.vars
  generalize s'.blankFrom (s'.m_logBase + (s.m_logLim - s.m_logBase)) = s₁ at *
  have hlog : ∀ i, 0 ≤ i → i < s.m_logLim - s.m_logBase →
      s₁.mem (s'.m_logBase + i) = s.mem (s.m_logBase + i) := by
    intro i hlo hhi
    rw [hfill.outside _ (Or.inl (by omega)), moved.log i hlo hhi]
  refine ⟨⟨⟨?_, ?_, ?_, ?_, ?_⟩, hon₁.trans moved.on, ?_⟩, ⟨?_, ?_⟩, hfill.vars⟩
  · omega
  · omega
  · omega
  · omega
  · intro i hlo hhi
    rw [hfill.outside _ (Or.inl (by omega)), moved.screen i hlo hhi, hcur₁, hcur, hlim]
    split_ifs with hline
    · -- a line that was on the screen
      have hsame := log.same (i + 160) (by omega) (by omega)
      have hold := hlog (s.m_logLim - s.m_logBase - 3840 + i) (by omega) (by omega)
      rw [atEnd] at hsame
      rw [hsame, show s'.m_logBase + (s.m_logLim - s.m_logBase) + 160 - 4000 + i =
        s'.m_logBase + (s.m_logLim - s.m_logBase - 3840 + i) by ring, hold]
      congr 1
      ring
    · -- the new line
      rw [hfill.inside _ (by omega) (by omega)]
      unfold blank
      rw [show (i - 0) % 2 = (s'.m_logBase + (s.m_logLim - s.m_logBase) + 160 - 4000 + i -
        (s'.m_logBase + (s.m_logLim - s.m_logBase))) % 2 by omega]
  · omega
  · omega
  · intro i hlo hhi
    rw [hbase₁, hlog i hlo (by omega)]

theorem moved_grown (log : Logged s) (keeps : h.Keeps s) :
    Moved s ((s.shiftScreen 1).grown
      (h.realloc (s.shiftScreen 1).mem s.m_logBase (s.m_logLim - s.m_logBase + 160))) := by
  have hend : m_memLim = m_memBase + 4000 := by decide
  have hplaced := log.placed
  have hshift := filled_shiftScreen (s := s) (n := 1) one_pos
  have hbase := logBase_of_vars hshift.vars
  have hlim := logLim_of_vars hshift.vars
  have hon := logEnabled_of_vars hshift.vars
  generalize s.shiftScreen 1 = s₁ at *
  have hkept := keeps.kept s₁.mem
  have hscreen := keeps.screen s₁.mem
  have hblock := keeps.placed s₁.mem
  dsimp only at hkept hblock
  generalize h.realloc s₁.mem s.m_logBase (s.m_logLim - s.m_logBase + 160) = block at *
  unfold grown
  rw [hbase, hlim]
  refine ⟨hon.trans log.on, ?_, ?_, rfl, ?_, ?_⟩
  · dsimp only
    omega
  · dsimp only
    omega
  · intro i hlo hhi
    exact (hkept i hlo hhi).trans (hshift.outside _ (Or.inr (by omega)))
  · intro i hlo hhi
    refine (hscreen _ (by omega) (by omega)).trans ?_
    rw [hshift.inside _ (by omega) (by omega)]
    by_cases hline : i < 3840
    · rw [if_pos (by omega), if_pos hline]
      congr 1
      ring
    · rw [if_neg (by omega), if_neg hline]
      unfold blank
      rw [add_sub_cancel_left, sub_zero]

/-- The log grows by the line that the screen gains. -/
theorem logged_growLog (log : Logged s) (keeps : h.Keeps s)
    (atEnd : s.m_logCur = s.m_logLim - 4000) :
    Logged ((s.shiftScreen 1).growLog h 1) ∧ KeepsOld s ((s.shiftScreen 1).growLog h 1) ∧
      ∃ mem, ((s.shiftScreen 1).growLog h 1).vars = ((s.shiftScreen 1).grown
        (h.realloc mem s.m_logBase (s.m_logLim - s.m_logBase + 160))).vars := by
  have hvars := (quiet_shiftScreen s 1).vars
  rw [growLog_one, logBase_of_vars hvars, logLim_of_vars hvars]
  obtain ⟨hlog, hold, hsame⟩ := logged_moved log atEnd (moved_grown log keeps)
  exact ⟨hlog, hold, _, hsame⟩

theorem logged_put (inv : LogInv s) (keeps : h.Keeps s) {c : UInt8} (tab : c ≠ 9) :
    Logged (s.put h c) ∧ KeepsOld s (s.put h c) := by
  obtain ⟨hend, hkept, hatEnd⟩ := logged_toEnd inv.toLogged
  obtain ⟨hinv, -, -, hlast⟩ := inv_toEnd inv.toInv
  obtain ⟨htype, htop, htypeEnd⟩ := logged_typeChar ⟨hinv, hend⟩ hatEnd tab
  obtain ⟨-, hY, -, -⟩ := typeChar_spec hinv (fun htab => absurd htab tab) hlast
  have hkeeps : h.Keeps (s.toEnd.typeChar c) :=
    keeps_congr keeps (htop.base.trans hkept.base) (htop.lim.trans hkept.lim)
  have hold : KeepsOld s (s.toEnd.typeChar c) := (hkept.old (by decide)).trans (htop.old le_rfl)
  unfold put putChar
  dsimp only
  generalize s.toEnd.typeChar c = s₁ at *
  by_cases hfull : s₁.m_curY ≥ m_height
  · have heq : s₁.m_curY = m_height := le_antisymm hY.2 hfull
    have hlines : s₁.newLines h 1 =
        (({ s₁ with m_curY := 24 }.shiftScreen 1).growLog h 1, false) := by
      rw [newLines_one heq, if_pos ⟨htype.on, keeps.ready⟩]
    obtain ⟨hlog, hgrow, -⟩ := logged_growLog (htype.moveCursor s₁.m_curX 24)
      (keeps_congr hkeeps rfl rfl) htypeEnd
    rw [if_pos hfull, show (1 + s₁.m_curY - m_height).toNat = 1 by omega, hlines]
    exact ⟨hlog, hold.trans ⟨hgrow.grows, hgrow.mem⟩⟩
  · rw [if_neg hfull]
    exact ⟨htype, hold⟩

/-! ## Enabling the log -/

/-- The log in a new block. -/
def opened (s : VGAText) (block : ℤ × (ℤ → UInt8)) : VGAText :=
  { s with mem := block.2, m_logBase := block.1, m_logCur := block.1, m_logLim := block.1 + 4000 }

theorem enableLog_off (ready : h.Ready) (off : s.logEnabled = false) : ∃ s₁ : VGAText,
    s.enableLog h = { (opened s₁ (h.alloc s₁.mem 4000)).copyScreen with logEnabled := true } ∧
      s₁.vars = s.vars ∧ s₁.stores = s.stores := by
  have hsize : 2 * m_width * m_height = 4000 := by decide
  have hfree : ∃ s₁ : VGAText, (if s.m_logBase ≠ 0 then
      { s with mem := h.free s.mem s.m_logBase } else s) = s₁ ∧
        s₁.vars = s.vars ∧ s₁.stores = s.stores := by
    refine ⟨_, rfl, ?_⟩
    split_ifs <;> exact ⟨rfl, rfl⟩
  obtain ⟨s₁, hs₁, hsame⟩ := hfree
  refine ⟨s₁, ?_, hsame⟩
  unfold enableLog opened
  rw [if_neg (by rw [off]; decide), if_pos ready.ready]
  simp only [hs₁, hsize]

theorem logged_enableLog (ready : h.Ready) (off : s.logEnabled = false) :
    Logged (s.enableLog h) := by
  have hend : m_memLim = m_memBase + 4000 := by decide
  obtain ⟨s₁, heq, -⟩ := enableLog_off ready off
  have hplaced := ready.alloc s₁.mem
  generalize h.alloc s₁.mem 4000 = block at *
  have hfill := filled_copyScreen (s := opened s₁ block) hplaced.1
  have hbase : _ = block.1 := logBase_of_vars hfill.vars
  have hlim : _ = block.1 + 4000 := logLim_of_vars hfill.vars
  have hcur : _ = block.1 := logCur_of_vars hfill.vars
  rw [heq]
  rw [show (opened s₁ block).m_logBase = block.1 from rfl] at hfill
  generalize (opened s₁ block).copyScreen = s₂ at *
  refine ⟨⟨?_, ?_, ?_, ?_, ?_⟩, rfl, ?_⟩
  · exact (hbase.trans hcur.symm).le
  · dsimp only
    omega
  · dsimp only
    omega
  · dsimp only
    omega
  · intro i hlo hhi
    have hscreen := hfill.outside (m_memBase + i) (Or.inl (by omega))
    have hlog := hfill.inside (block.1 + i) (by omega) (by omega)
    dsimp only at hlog ⊢
    rw [add_sub_cancel_left] at hlog
    rw [hcur, hscreen, hlog]
  · dsimp only
    omega

theorem inv_enableLog (ready : h.Ready) (off : s.logEnabled = false) (inv : Inv s) :
    Inv (s.enableLog h) := by
  obtain ⟨s₁, heq, hvars, hstores⟩ := enableLog_off ready off
  generalize h.alloc s₁.mem 4000 = block at *
  have hquiet : Quiet (opened s₁ block) (opened s₁ block).copyScreen := by
    unfold copyScreen
    refine quiet_foldl _ fun i hi s' hs' => quiet_pokeLog _ ?_
    have hbase : s'.m_logBase = block.1 := logBase_of_vars hs'
    have hlim : s'.m_logLim = block.1 + 4000 := logLim_of_vars hs'
    have hcur : s'.m_logCur = block.1 := logCur_of_vars hs'
    omega
  have hopened : Inv (opened s₁ block) := by
    have hX := curX_of_vars hvars
    have hY := curY_of_vars hvars
    have hlimit := limitX_of_vars hvars
    exact ⟨⟨hX ▸ inv.curX, hY ▸ inv.curY, fun st hst => inv.stores st (hstores ▸ hst)⟩,
      hlimit ▸ inv.limit⟩
  have hinv := hquiet.inv hopened
  rw [heq]
  exact ⟨⟨hinv.curX, hinv.curY, hinv.stores⟩, hinv.limit⟩

theorem clear_on (on : s.logEnabled = true) : ∃ s₁ : VGAText,
    s.clear h = { s₁.enableLog h with m_curX := 0, m_curY := 0 } ∧ s₁.logEnabled = false ∧
      (Inv s → Inv s₁) := by
  have hquiet := quiet_blankAll s
  have hon := (logEnabled_of_vars hquiet.vars).trans on
  refine ⟨s.blankAll.disableLog h, ?_, ?_, fun inv => ?_⟩
  · unfold clear
    dsimp only
    rw [if_pos hon]
  · unfold disableLog
    rw [if_pos hon]
  · have hinv := hquiet.inv inv
    unfold disableLog
    rw [if_pos hon]
    dsimp only
    split_ifs <;> exact ⟨⟨hinv.curX, hinv.curY, hinv.stores⟩, hinv.limit⟩

theorem logged_clear (ready : h.Ready) (on : s.logEnabled = true) : Logged (s.clear h) := by
  obtain ⟨s₁, heq, hoff, -⟩ := clear_on (h := h) on
  rw [heq]
  exact (logged_enableLog ready hoff).moveCursor 0 0

theorem inv_clear (ready : h.Ready) (on : s.logEnabled = true) (inv : Inv s) :
    Inv (s.clear h) := by
  obtain ⟨s₁, heq, hoff, hinv⟩ := clear_on (h := h) on
  have henabled := inv_enableLog ready hoff (hinv inv)
  rw [heq]
  exact ⟨⟨⟨le_rfl, (by decide : (0 : ℤ) < 80)⟩, ⟨le_rfl, (by decide : (0 : ℤ) < 25)⟩,
    henabled.stores⟩, henabled.limit⟩

/-! ## Scrolling back -/

/-- The screens show the same. -/
def SameScreen (s s' : VGAText) : Prop := ∀ i, 0 ≤ i → i < 4000 →
  s'.mem (m_memBase + i) = s.mem (m_memBase + i)

theorem sameScreen_of_keepsLog (log : Logged s) (log' : Logged s') (kept : KeepsLog 0 s s')
    (cur : s'.m_logCur = s.m_logCur) : SameScreen s s' := by
  intro i hlo hhi
  have hbase := log.base_le
  have hlim := log.le_lim
  rw [log.same i hlo hhi, log'.same i hlo hhi, cur, kept.mem _ (by omega) (by omega)]

theorem logInv_scroll (inv : LogInv s) {n : ℤ} (range : -2 ^ 31 ≤ n * 160 ∧ n * 160 < 2 ^ 31)
    (stays : ¬s.Wraps n) : LogInv (s.scroll h n) :=
  ⟨inv_scroll inv.toInv n, (logged_scroll inv range stays).1⟩

theorem scroll_logCur (inv : LogInv s) {n : ℤ} (range : -2 ^ 31 ≤ n * 160 ∧ n * 160 < 2 ^ 31)
    (stays : ¬s.Wraps n) : (s.scroll h n).m_logCur =
      if n < 0 then max s.m_logBase (s.m_logCur + n * 160)
      else min (s.m_logLim - 4000) (s.m_logCur + n * 160) := by
  have hend : m_memLim = 757664 := by decide
  have hplaced := inv.placed
  have hbase := inv.base_le
  have hlim := inv.le_lim
  rw [scroll_on inv.toInv inv.on]
  by_cases hstay : n = 0 ∨ n < 0 ∧ s.m_logCur = s.m_logBase
  · rw [if_pos hstay]
    split_ifs <;> omega
  · have hmod : (s.m_logCur + n * 2 * m_width) % 2 ^ 64 = s.m_logCur + n * 160 := by
      have hn : s.m_logCur + n * 2 * m_width = s.m_logCur + n * 160 := by
        unfold m_width
        ring
      rw [hn]
      unfold Wraps at stays
      exact Int.emod_eq_of_lt (by omega) (by omega)
    have hsize : 2 * m_width * m_height = 4000 := by decide
    rw [if_neg hstay, logCur_of_vars (quiet_render { s with m_logCur := s.scrollTo n }).vars]
    unfold scrollTo toPtr
    dsimp only
    rw [hmod, hsize]
    split_ifs <;> omega

/-- Scrolling up and back down restores the screen, from the end of the log and wherever there are
enough lines above. -/
theorem scroll_back (inv : LogInv s) {n : ℤ} (pos : 0 < n) (range : n * 160 < 2 ^ 31)
    (stays : ¬s.Wraps (-n))
    (room : s.m_logCur = s.m_logLim - 4000 ∨ n * 160 ≤ s.m_logCur - s.m_logBase) (h h' : Heap) :
    SameScreen s ((s.scroll h (-n)).scroll h' n) := by
  have hbase := inv.base_le
  have hlim := inv.le_lim
  have hup : -2 ^ 31 ≤ -n * 160 ∧ -n * 160 < 2 ^ 31 := by omega
  have hdown : -2 ^ 31 ≤ n * 160 ∧ n * 160 < 2 ^ 31 := by omega
  have hinv : LogInv (s.scroll h (-n)) := logInv_scroll inv hup stays
  have hstays : ¬(s.scroll h (-n)).Wraps n := fun hwraps => absurd hwraps.1 (not_lt.2 pos.le)
  have hkept := (logged_scroll (h := h) inv hup stays).2
  have hkept' := (logged_scroll (h := h') hinv hdown hstays).2
  have hcur := scroll_logCur (h := h) inv hup stays
  have hcur' := scroll_logCur (h := h') hinv hdown hstays
  refine sameScreen_of_keepsLog inv.toLogged (logInv_scroll hinv hdown hstays).toLogged
    (hkept.trans hkept') ?_
  rw [hcur', hkept.lim, if_neg (by omega), hcur, if_pos (by omega)]
  omega

/-! ## Runs with the log on -/

/-- A call of the console, with the heap as the call finds it. -/
inductive LogOp
  | enableLog (h : Heap)
  | put (h : Heap) (c : UInt8)
  | clear (h : Heap)
  | scroll (h : Heap) (n : ℤ)
  | scrollDown

/-- The state after a call. -/
def call (s : VGAText) : LogOp → VGAText
  | .enableLog h => s.enableLog h
  | .put h c => s.put h c
  | .clear h => s.clear h
  | .scroll h n => s.scroll h n
  | .scrollDown => s.scrollDown

/-- The state after some calls. -/
def calls (s : VGAText) (ops : List LogOp) : VGAText := ops.foldl call s

/-- Every call of a run finds the state as `P` says. -/
def Each (P : VGAText → LogOp → Prop) (s : VGAText) (ops : List LogOp) : Prop :=
  ∀ n op, ops[n]? = some op → P (s.calls (ops.take n)) op

/-- What the calls rely on. -/
def Allowed (s : VGAText) : LogOp → Prop
  | .enableLog h => h.Ready
  | .put h c => h.Keeps s ∧ c ≠ 9
  | .clear h => h.Ready
  | .scroll _ n => -2 ^ 31 ≤ n * 160 ∧ n * 160 < 2 ^ 31
  | .scrollDown => True

/-- The call is no scroll whose pointer wraps around. -/
def NoWrap (s : VGAText) : LogOp → Prop
  | .scroll _ n => ¬s.Wraps n
  | _ => True

/-- The call moves the screen in the log. -/
def LogOp.Moves : LogOp → Prop
  | .scroll _ _ => True
  | .scrollDown => True
  | _ => False

/-- What a call keeps of the log. -/
def Kept (s : VGAText) : LogOp → Prop
  | .put h c => KeepsOld s (s.put h c)
  | .scroll h n => KeepsLog 0 s (s.scroll h n)
  | .scrollDown => KeepsLog 0 s s.scrollDown
  | _ => True

/-- In every state of the run the screen is a window on the log, no call changes what it must keep,
and scrolling back restores the screen. -/
structure WindowRun (s : VGAText) (ops : List LogOp) : Prop where
  window : ∀ n, (s.calls (ops.take n)).logEnabled = true → Window (s.calls (ops.take n))
  kept : Each Kept s ops
  restored : ∀ m n, m ≤ n → (∀ op ∈ (ops.take n).drop m, op.Moves) →
    (s.calls (ops.take n)).m_logCur = (s.calls (ops.take m)).m_logCur →
      SameScreen (s.calls (ops.take m)) (s.calls (ops.take n))
  back : ∀ m n h h', 0 < n → n * 160 < 2 ^ 31 → ¬(s.calls (ops.take m)).Wraps (-n) →
    (s.calls (ops.take m)).m_logCur = (s.calls (ops.take m)).m_logLim - 4000 ∨
      n * 160 ≤ (s.calls (ops.take m)).m_logCur - (s.calls (ops.take m)).m_logBase →
        SameScreen (s.calls (ops.take m)) (((s.calls (ops.take m)).scroll h (-n)).scroll h' n)

theorem calls_take_succ (s : VGAText) (ops : List LogOp) (n : ℕ) :
    s.calls (ops.take (n + 1)) = match ops[n]? with
      | some op => (s.calls (ops.take n)).call op
      | none => s.calls (ops.take n) := by
  rw [List.take_add_one]
  unfold calls
  rw [List.foldl_append]
  cases ops[n]? <;> rfl

theorem calls_of_some {ops : List LogOp} {n : ℕ} {op : LogOp} (hop : ops[n]? = some op) :
    s.calls (ops.take (n + 1)) = (s.calls (ops.take n)).call op := by
  rw [calls_take_succ, hop]

theorem logInv_call (inv : LogInv s) (op : LogOp) (allowed : Allowed s op) (stays : NoWrap s op) :
    LogInv (s.call op) ∧ Kept s op := by
  cases op with
  | enableLog h =>
    refine ⟨?_, trivial⟩
    show LogInv (s.enableLog h)
    unfold enableLog
    rwa [if_pos inv.on]
  | put h c =>
    obtain ⟨hlog, hold⟩ := logged_put inv allowed.1 allowed.2
    exact ⟨⟨inv_put inv.toInv fun htab => absurd htab allowed.2, hlog⟩, hold⟩
  | clear h => exact ⟨⟨inv_clear allowed inv.on inv.toInv, logged_clear allowed inv.on⟩, trivial⟩
  | scroll h n => exact ⟨logInv_scroll inv allowed stays, (logged_scroll inv allowed stays).2⟩
  | scrollDown =>
    obtain ⟨hlog, hkept, -⟩ := logged_scrollDown inv.toLogged
    exact ⟨⟨(quiet_render _).inv ⟨⟨inv.curX, inv.curY, inv.stores⟩, inv.limit⟩, hlog⟩, hkept⟩

/-- A call whose pointer wraps around is seen at once. -/
theorem noWrap_of_window (inv : LogInv s) {op : LogOp} (allowed : Allowed s op)
    (window : (s.call op).logEnabled = true → Window (s.call op)) : NoWrap s op := by
  cases op with
  | scroll h n =>
    intro hwraps
    obtain ⟨hon, hnot⟩ := not_window_scroll (h := h) inv allowed hwraps
    exact hnot (window hon)
  | _ => trivial

theorem logInv_calls (inv : LogInv s) {ops : List LogOp} (allowed : Each Allowed s ops)
    (stays : Each NoWrap s ops) (n : ℕ) : LogInv (s.calls (ops.take n)) := by
  induction n with
  | zero => exact inv
  | succ n ih =>
    rw [calls_take_succ]
    cases hop : ops[n]? with
    | none => exact ih
    | some op => exact (logInv_call ih op (allowed n op hop) (stays n op hop)).1

theorem keepsLog_moves {ops : List LogOp} (kept : Each Kept s ops) {m n : ℕ} (le : m ≤ n)
    (moves : ∀ op ∈ (ops.take n).drop m, op.Moves) :
    KeepsLog 0 (s.calls (ops.take m)) (s.calls (ops.take n)) := by
  induction n, le using Nat.le_induction with
  | base => exact KeepsLog.refl 0 _
  | succ n le ih =>
    rw [List.take_add_one] at moves
    have hbefore : ∀ op ∈ (ops.take n).drop m, op.Moves := by
      intro op hop
      apply moves op
      rw [List.drop_append]
      exact List.mem_append_left _ hop
    refine (ih hbefore).trans ?_
    rw [calls_take_succ]
    cases hop : ops[n]? with
    | none => exact KeepsLog.refl 0 _
    | some op =>
      have hmoves : op.Moves := by
        have hlength : n < ops.length := (List.getElem?_eq_some_iff.1 hop).1
        apply moves op
        rw [List.drop_append, List.length_take, show m - min n ops.length = 0 by omega, hop]
        exact List.mem_append_right _ List.mem_cons_self
      have hkept := kept n op hop
      cases op with
      | enableLog h => exact absurd hmoves id
      | put h c => exact absurd hmoves id
      | clear h => exact absurd hmoves id
      | scroll h n => exact hkept
      | scrollDown => exact hkept

/-- The screen cleared and the log just enabled. -/
def logStart (h h' : Heap) (s : VGAText) : VGAText := (cleared h s).enableLog h'

theorem logInv_start {h h' : Heap} (ready : h.Ready) (ready' : h'.Ready)
    (limit : 0 ≤ (cleared h s).ruboutLimitX) : LogInv (logStart h h' s) := by
  have hinv := inv_cleared h s limit
  by_cases hon : s.logEnabled = true
  · have hlog := logged_clear ready hon
    have hcleared : Logged (cleared h s) :=
      ⟨⟨hlog.base_le, hlog.le_lim, hlog.cur_lines, hlog.lim_lines, hlog.same⟩, hlog.on, hlog.placed⟩
    unfold logStart enableLog
    rw [if_pos hcleared.on]
    exact ⟨hinv, hcleared⟩
  · have hoff : (cleared h s).logEnabled = false := by
      have hblank := logEnabled_of_vars (quiet_blankAll s).vars
      unfold cleared clear
      dsimp only
      rw [if_neg (by rwa [hblank])]
      exact hblank.trans (Bool.eq_false_iff.2 hon)
    exact ⟨inv_enableLog ready' hoff hinv, logged_enableLog ready' hoff⟩

/-! ## A scroll that wraps around -/

/-- A heap with one block, which it never moves. -/
def blockHeap : Heap :=
  ⟨true, fun mem _ => (0x100000, mem), fun mem p _ => (p, mem), fun mem _ => mem⟩

theorem blockHeap_ready : blockHeap.Ready where
  ready := rfl
  alloc := fun _ => (by decide : m_memLim ≤ 0x100000 ∧ (0x100000 : ℤ) + 4000 ≤ 2 ^ 63)

theorem blockHeap_realloc (mem : ℤ → UInt8) (p n : ℤ) : (blockHeap.realloc mem p n).1 = p := rfl

theorem blockHeap_keeps (log : Logged s) (room : s.m_logLim + 160 ≤ 2 ^ 63) :
    blockHeap.Keeps s where
  toReady := blockHeap_ready
  placed := fun _ => ⟨log.placed.1,
    (by omega : s.m_logBase + (s.m_logLim - s.m_logBase + 160) ≤ 2 ^ 63)⟩
  kept := fun _ _ _ _ => rfl
  screen := fun _ _ _ _ => rfl

theorem start_spec : LogInv (logStart blockHeap blockHeap start) ∧
    (logStart blockHeap blockHeap start).m_logBase = 0x100000 ∧
    (logStart blockHeap blockHeap start).m_logLim = 0x100000 + 4000 ∧
    (logStart blockHeap blockHeap start).m_curY = 0 := by
  have hvars := vars_cleared_start blockHeap
  have hoff : (cleared blockHeap start).logEnabled = false := logEnabled_of_vars hvars
  refine ⟨logInv_start blockHeap_ready blockHeap_ready (limitX_of_vars hvars).ge, ?_⟩
  obtain ⟨s₁, heq, hsame, -⟩ := enableLog_off blockHeap_ready hoff
  have hcopy := filled_copyScreen (s := opened s₁ (blockHeap.alloc s₁.mem 4000))
    (blockHeap_ready.alloc s₁.mem).1
  have hbase := logBase_of_vars hcopy.vars
  have hlim := logLim_of_vars hcopy.vars
  have hY := (curY_of_vars hcopy.vars).trans ((curY_of_vars hsame).trans (curY_of_vars hvars))
  unfold logStart
  rw [heq]
  exact ⟨hbase, hlim, hY⟩

theorem put_newline (inv : LogInv s) (above : s.m_curY < 24) :
    s.put h 10 = { s.toEnd with m_curX := 0, m_curY := s.m_curY + 1 } := by
  obtain ⟨-, -, hY, -⟩ := inv_toEnd inv.toInv
  have hon : 0 ≤ s.m_curY ∧ s.m_curY < 25 := inv.curY
  have hnext : toI8 (s.m_curY + 1) = s.m_curY + 1 := toI8_of_small (by omega)
  have htype : s.toEnd.typeChar 10 = { s.toEnd with m_curX := 0, m_curY := s.m_curY + 1 } := by
    unfold typeChar
    rw [if_pos rfl, hY, hnext]
  have hrow : ¬s.m_curY + 1 ≥ m_height := by
    unfold m_height
    omega
  have hchar : s.putChar h 10 =
      ({ s.toEnd with m_curX := 0, m_curY := s.m_curY + 1 }, false) := by
    unfold putChar
    dsimp only
    rw [htype, if_neg hrow]
  unfold put
  rw [hchar]
  rfl

theorem grown_of_vars {block : ℤ × (ℤ → UInt8)} (hvars : s''.vars = (s'.grown block).vars)
    (quiet : s'.vars = s.vars) :
    s''.m_logBase = block.1 ∧
      s''.m_logLim = s''.m_logBase + (s.m_logLim - s.m_logBase + 160) ∧
      s''.m_logCur = s''.m_logLim - 4000 ∧ s''.m_curY = s.m_curY := by
  have hbase := (logBase_of_vars hvars).trans (grown_logBase s' block)
  have hlim := (logLim_of_vars hvars).trans (grown_logLim s' block)
  have hcur := (logCur_of_vars hvars).trans (grown_logCur s' block)
  rw [← logLim_of_vars hvars] at hcur
  rw [logLim_of_vars quiet, logBase_of_vars quiet, ← hbase] at hlim
  have hrows := (curY_of_vars hvars).trans (grown_curY s' block)
  exact ⟨hbase, hlim, hcur, hrows.trans (curY_of_vars quiet)⟩

theorem put_newline_last (inv : LogInv s) (keeps : h.Keeps s) (last : s.m_curY = 24) :
    ∃ mem, (s.put h 10).m_logBase =
        (h.realloc mem s.m_logBase (s.m_logLim - s.m_logBase + 160)).1 ∧
      (s.put h 10).m_logLim = (s.put h 10).m_logBase + (s.m_logLim - s.m_logBase + 160) ∧
      (s.put h 10).m_logCur = (s.put h 10).m_logLim - 4000 ∧ (s.put h 10).m_curY = 24 := by
  obtain ⟨hend, hkept, hatEnd⟩ := logged_toEnd inv.toLogged
  obtain ⟨-, -, hY, -⟩ := inv_toEnd inv.toInv
  have hnext : toI8 (24 + 1) = 25 := toI8_of_small (by decide)
  have htype : s.toEnd.typeChar 10 = { s.toEnd with m_curX := 0, m_curY := 25 } := by
    unfold typeChar
    rw [if_pos rfl, hY, last, hnext]
  have hkeeps : h.Keeps { s.toEnd with m_curX := 0, m_curY := 24 } :=
    keeps_congr keeps hkept.base hkept.lim
  have hlines : newLines h { s.toEnd with m_curX := 0, m_curY := 25 } 1 =
      (({ s.toEnd with m_curX := 0, m_curY := 24 }.shiftScreen 1).growLog h 1, false) := by
    rw [newLines_one rfl, if_pos ⟨hend.on, keeps.ready⟩]
  have hrow : (25 : ℤ) ≥ m_height := by decide
  have hput : s.put h 10 =
      ({ s.toEnd with m_curX := 0, m_curY := 24 }.shiftScreen 1).growLog h 1 := by
    unfold put putChar
    rw [htype, if_pos hrow, show (1 + (25 : ℤ) - m_height).toNat = 1 by decide, hlines]
    rfl
  obtain ⟨-, -, mem, hvars⟩ := logged_growLog (hend.moveCursor 0 24) hkeeps hatEnd
  rw [← hput] at hvars
  obtain ⟨hbase, hlim, hcur, hrows⟩ := grown_of_vars hvars (quiet_shiftScreen _ 1).vars
  dsimp only at hbase hlim
  rw [hkept.base, hkept.lim] at hbase hlim
  exact ⟨mem, hbase, hlim, hcur, hrows⟩

/-- The first console after some newlines. -/
def newlines (k : ℕ) : VGAText :=
  (logStart blockHeap blockHeap start).calls (List.replicate k (.put blockHeap 10))

theorem newlines_succ (k : ℕ) : newlines (k + 1) = (newlines k).put blockHeap 10 := by
  unfold newlines calls
  rw [List.replicate_succ', List.foldl_append]
  rfl

/-- The log has a line for each newline that the screen has no row for. -/
theorem newlines_spec {k : ℕ} (short : k ≤ 2 ^ 30) :
    LogInv (newlines k) ∧ (newlines k).m_logBase = 0x100000 ∧
      (newlines k).m_logLim = 0x100000 + 4000 + 160 * (k - 24 : ℕ) ∧
      (newlines k).m_curY = min k 24 := by
  induction k with
  | zero => exact start_spec
  | succ k ih =>
    obtain ⟨hinv, hbase, hlim, hY⟩ := ih (by omega)
    have hkeeps : blockHeap.Keeps (newlines k) := blockHeap_keeps hinv.toLogged (by omega)
    have hnext := (logInv_call hinv (.put blockHeap 10) ⟨hkeeps, by decide⟩ trivial).1
    rw [newlines_succ]
    refine ⟨hnext, ?_⟩
    by_cases habove : k < 24
    · rw [put_newline (h := blockHeap) hinv (by omega)]
      obtain ⟨-, hkept, -⟩ := logged_toEnd hinv.toLogged
      refine ⟨hkept.base.trans hbase, hkept.lim.trans (hlim.trans ?_), ?_⟩
      · congr 2
        omega
      · show (newlines k).m_curY + 1 = _
        omega
    · obtain ⟨mem, hbase', hlim', -, hY'⟩ := put_newline_last hinv hkeeps (by omega)
      have hblock : ((newlines k).put blockHeap 10).m_logBase = 0x100000 :=
        hbase'.trans ((blockHeap_realloc mem _ _).trans hbase)
      refine ⟨hblock, ?_, ?_⟩
      · rw [hlim', hblock, hlim, hbase]
        omega
      · rw [hY']
        omega

theorem newlines_atEnd {k : ℕ} (short : k ≤ 2 ^ 30) (long : 25 ≤ k) :
    (newlines k).m_logCur = (newlines k).m_logLim - 4000 := by
  obtain ⟨j, rfl⟩ := Nat.exists_eq_add_of_le' (show 1 ≤ k by omega)
  obtain ⟨hinv, hbase, hlim, hY⟩ := newlines_spec (k := j) (by omega)
  have hkeeps : blockHeap.Keeps (newlines j) := blockHeap_keeps hinv.toLogged (by omega)
  obtain ⟨mem, -, -, hcur, -⟩ := put_newline_last hinv hkeeps (by omega)
  rwa [newlines_succ]

/-- The console that a scroll back by 13421772 lines breaks. -/
theorem newlines_wraps : LogInv (newlines 25) ∧ (newlines 25).Wraps (-13421772) := by
  obtain ⟨hinv, hbase, hlim, -⟩ := newlines_spec (k := 25) (by decide)
  have hcur := newlines_atEnd (k := 25) (by decide) le_rfl
  refine ⟨hinv, ?_⟩
  unfold Wraps
  omega

theorem each_newlines {P : VGAText → LogOp → Prop} {k : ℕ} {n : ℤ}
    (newline : ∀ j < k, P (newlines j) (.put blockHeap 10))
    (scroll : P (newlines k) (.scroll blockHeap n)) :
    Each P (logStart blockHeap blockHeap start)
      (List.replicate k (.put blockHeap 10) ++ [.scroll blockHeap n]) := by
  intro j op hop
  by_cases hj : j < k
  · rw [List.getElem?_append_left (by rwa [List.length_replicate]), List.getElem?_replicate,
      if_pos hj] at hop
    obtain rfl := Option.some.inj hop
    rw [List.take_append_of_le_length (by rw [List.length_replicate]; omega), List.take_replicate,
      show min j k = j by omega]
    exact newline j hj
  · have hlength : (List.replicate k (LogOp.put blockHeap 10)).length = k := List.length_replicate
    rw [List.getElem?_append_right (by omega)] at hop
    have hlast : j - (List.replicate k (LogOp.put blockHeap 10)).length = 0 := by
      have := (List.getElem?_eq_some_iff.1 hop).1
      simpa using this
    rw [hlast] at hop
    obtain rfl := Option.some.inj hop
    obtain rfl : j = k := by omega
    rw [List.take_left' hlength]
    exact scroll

theorem newlines_allowed {k : ℕ} {n : ℤ} (short : k ≤ 2 ^ 30)
    (range : -2 ^ 31 ≤ n * 160 ∧ n * 160 < 2 ^ 31) :
    Each Allowed (logStart blockHeap blockHeap start)
      (List.replicate k (.put blockHeap 10) ++ [.scroll blockHeap n]) := by
  apply each_newlines
  · intro j hj
    obtain ⟨hinv, -, hlim, -⟩ := newlines_spec (k := j) (by omega)
    have hroom : (newlines j).m_logLim + 160 ≤ 2 ^ 63 := by omega
    exact ⟨blockHeap_keeps hinv.toLogged hroom, by decide⟩
  · exact range

/-- The screen is a window on the log exactly as long as no scroll moves its pointer below zero. -/
theorem windowRun_iff {h h' : Heap} (s : VGAText) (ready : h.Ready) (ready' : h'.Ready)
    (limit : 0 ≤ (cleared h s).ruboutLimitX) (ops : List LogOp)
    (allowed : Each Allowed (logStart h h' s) ops) :
    WindowRun (logStart h h' s) ops ↔ Each NoWrap (logStart h h' s) ops := by
  have hstart : LogInv (logStart h h' s) := logInv_start ready ready' limit
  generalize logStart h h' s = s at *
  constructor
  · intro hrun
    have hstays : ∀ n op, ops[n]? = some op → LogInv (s.calls (ops.take n)) →
        NoWrap (s.calls (ops.take n)) op := by
      intro n op hop hinv
      have hwindow := hrun.window (n + 1)
      rw [calls_of_some hop] at hwindow
      exact noWrap_of_window hinv (allowed n op hop) hwindow
    have hinv : ∀ n, LogInv (s.calls (ops.take n)) := by
      intro n
      induction n with
      | zero => exact hstart
      | succ n ih =>
        cases hop : ops[n]? with
        | none =>
          rw [calls_take_succ, hop]
          exact ih
        | some op =>
          rw [calls_of_some hop]
          exact (logInv_call ih op (allowed n op hop) (hstays n op hop ih)).1
    exact fun n op hop => hstays n op hop (hinv n)
  · intro stays
    have hinv := logInv_calls hstart allowed stays
    have hkept : Each Kept s ops := fun n op hop =>
      (logInv_call (hinv n) op (allowed n op hop) (stays n op hop)).2
    exact {
      window := fun n _ => (hinv n).toWindow
      kept := hkept
      restored := fun m n le moves cur => sameScreen_of_keepsLog (hinv m).toLogged
        (hinv n).toLogged (keepsLog_moves hkept le moves) cur
      back := fun m n h h' pos range hwraps room =>
        scroll_back (hinv m) pos range hwraps room h h' }

/-- Two newlines more than the screen has rows for, and a scroll back to the first line that it has
lost. -/
theorem windowRun_iff_back :
    (newlines 26).m_logCur = (newlines 26).m_logBase + 320 ∧
      WindowRun (logStart blockHeap blockHeap start)
        (List.replicate 26 (.put blockHeap 10) ++ [.scroll blockHeap (-2)]) := by
  obtain ⟨-, hbase, hlim, -⟩ := newlines_spec (k := 26) (by decide)
  have hcur := newlines_atEnd (k := 26) (by decide) (by decide)
  refine ⟨by omega, (windowRun_iff start blockHeap_ready blockHeap_ready
    (limitX_of_vars (vars_cleared_start blockHeap)).ge _
    (newlines_allowed (by decide) (by decide))).2 (each_newlines (fun _ _ => trivial) ?_)⟩
  show ¬Wraps _ _
  unfold Wraps
  omega

/-- The log is a line longer than the screen, and a scroll goes back by 13421772 lines. -/
theorem not_windowRun_newlines : ¬∀ (h h' : Heap) (s : VGAText), h.Ready → h'.Ready →
    0 ≤ (cleared h s).ruboutLimitX → ∀ ops, Each Allowed (logStart h h' s) ops →
      WindowRun (logStart h h' s) ops := by
  intro hall
  have hrun := hall blockHeap blockHeap start blockHeap_ready blockHeap_ready
    (limitX_of_vars (vars_cleared_start blockHeap)).ge _
    (newlines_allowed (by decide : 25 ≤ 2 ^ 30)
      (by decide : -2 ^ 31 ≤ -13421772 * 160 ∧ (-13421772 : ℤ) * 160 < 2 ^ 31))
  obtain ⟨hinv, hwraps⟩ := newlines_wraps
  obtain ⟨hon, hnot⟩ := not_window_scroll (h := blockHeap) hinv (by decide) hwraps
  have hlast : (logStart blockHeap blockHeap start).calls
      (List.replicate 25 (.put blockHeap 10) ++ [.scroll blockHeap (-13421772)]) =
        (newlines 25).scroll blockHeap (-13421772) := by
    simp only [newlines, calls, List.foldl_append, List.foldl_cons, List.foldl_nil, call]
  have hwindow := hrun.window 26
  rw [List.take_of_length_le (by decide), hlast] at hwindow
  exact hnot (hwindow hon)

end VGAText
