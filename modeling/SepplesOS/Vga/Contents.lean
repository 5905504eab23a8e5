import SepplesOS.Vga.Bounds

/-!
# What the loops of the console write

Each loop fills a stretch of memory, from low addresses to high ones, and changes nothing else.  The
loops read only bytes that they have not written yet, so that the new contents are a function of the
old ones.
-/

namespace VGAText

/-- The bytes from `lo` to `hi` are now those of `val`, and nothing else has changed. -/
structure Filled (s s' : VGAText) (lo hi : ℤ) (val : ℤ → UInt8) : Prop where
  vars : s'.vars = s.vars
  inside : ∀ a, lo ≤ a → a < hi → s'.mem a = val a
  outside : ∀ a, a < lo ∨ hi ≤ a → s'.mem a = s.mem a

/-- The bytes of empty characters from `lo` on. -/
def blank (lo a : ℤ) : UInt8 := if (a - lo) % 2 = 0 then 0 else CUR_WHITE

variable {s s' s'' : VGAText} {lo mid hi : ℤ} {val : ℤ → UInt8}

theorem Filled.empty (s : VGAText) (lo : ℤ) (val : ℤ → UInt8) : Filled s s lo lo val where
  vars := rfl
  inside := fun _ hlo hhi => absurd hhi (not_lt.2 hlo)
  outside := fun _ _ => rfl

theorem Filled.append (first : Filled s s' lo mid val) (second : Filled s' s'' mid hi val)
    (le_mid : lo ≤ mid) (mid_le : mid ≤ hi) : Filled s s'' lo hi val where
  vars := second.vars.trans first.vars
  inside := by
    intro a hlo hhi
    by_cases hmid : a < mid
    · rw [second.outside a (Or.inl hmid), first.inside a hlo hmid]
    · exact second.inside a (not_lt.1 hmid) hhi
  outside := by
    intro a ha
    rw [second.outside a (by omega), first.outside a (by omega)]

theorem filled_pokeScreen {addr : ℤ} {byte : UInt8} (value : byte = val addr) :
    Filled s (s.pokeScreen addr byte) addr (addr + 1) val where
  vars := rfl
  inside := by
    intro a hlo hhi
    obtain rfl : a = addr := by omega
    exact (Function.update_self ..).trans value
  outside := fun a ha => Function.update_of_ne (by omega) ..

theorem filled_pokeLog {addr : ℤ} {byte : UInt8} (value : byte = val addr) :
    Filled s (s.pokeLog addr byte) addr (addr + 1) val where
  vars := rfl
  inside := by
    intro a hlo hhi
    obtain rfl : a = addr := by omega
    exact (Function.update_self ..).trans value
  outside := fun a ha => Function.update_of_ne (by omega) ..

theorem filled_blankScreen (s : VGAText) {addr lo : ℤ} (even : (addr - lo) % 2 = 0) :
    Filled s (s.blankScreen addr) addr (addr + 2) (blank lo) := by
  have hodd : CUR_WHITE = blank lo (addr + 1) := by
    unfold blank
    rw [if_neg (by omega)]
  have heven : 0 = blank lo addr := by
    unfold blank
    rw [if_pos even]
  have hsecond := filled_pokeScreen (s := s.pokeScreen addr 0) hodd
  rw [add_assoc] at hsecond
  exact (filled_pokeScreen heven).append hsecond (by omega) (by omega)

theorem filled_blankLog {addr : ℤ} (even : (addr - lo) % 2 = 0) :
    Filled s (s.blankLog addr) addr (addr + 2) (blank lo) := by
  have hodd : CUR_WHITE = blank lo (addr + 1) := by
    unfold blank
    rw [if_neg (by omega)]
  have heven : 0 = blank lo addr := by
    unfold blank
    rw [if_pos even]
  have hsecond := filled_pokeLog (s := s.pokeLog addr 0) hodd
  rw [add_assoc] at hsecond
  exact (filled_pokeLog heven).append hsecond (by omega) (by omega)

/-- A loop whose rounds fill `w` bytes each, one stretch after the other. -/
theorem filled_foldl {f : VGAText → ℕ → VGAText} {w : ℤ} (pos : 0 ≤ w) (n : ℕ)
    (round : ∀ i : ℕ, i < n → ∀ s', Filled s s' lo (lo + w * i) val →
      Filled s' (f s' i) (lo + w * i) (lo + w * i + w) val) :
    Filled s ((List.range n).foldl f s) lo (lo + w * n) val := by
  induction n with
  | zero =>
    rw [Nat.cast_zero, mul_zero, add_zero]
    exact Filled.empty s lo val
  | succ n ih =>
    have hfirst := ih fun i hi => round i (Nat.lt_succ_of_lt hi)
    have hlast := round n (Nat.lt_succ_self n) _ hfirst
    have hn : 0 ≤ w * n := mul_nonneg pos (Nat.cast_nonneg n)
    rw [List.range_succ, List.foldl_append]
    rw [show lo + w * ((n + 1 : ℕ) : ℤ) = lo + w * n + w by push_cast; ring]
    exact hfirst.append hlast (by omega) (by omega)

theorem filled_render (apart : m_memLim ≤ s.m_logCur) :
    Filled s s.render m_memBase m_memLim fun a => s.mem (s.m_logCur + (a - m_memBase)) := by
  unfold render
  have hlim : m_memLim = m_memBase + 1 * ((4000 : ℕ) : ℤ) := by decide
  rw [hlim]
  refine filled_foldl (by decide) 4000 fun i hi s' hs' => ?_
  rw [one_mul] at hs' ⊢
  apply filled_pokeScreen
  rw [hs'.outside _ (Or.inr (by rw [logCur_of_vars hs'.vars]; omega)), logCur_of_vars hs'.vars]
  rw [add_sub_cancel_left]

theorem filled_copyScreen (apart : m_memLim ≤ s.m_logBase) :
    Filled s s.copyScreen s.m_logBase (s.m_logBase + 4000)
      fun a => s.mem (m_memBase + (a - s.m_logBase)) := by
  unfold copyScreen
  have hlim : m_memLim = m_memBase + 4000 := by decide
  rw [show (4000 : ℤ) = 1 * ((4000 : ℕ) : ℤ) by decide]
  refine filled_foldl (by decide) 4000 fun i hi s' hs' => ?_
  rw [one_mul] at hs' ⊢
  rw [logBase_of_vars hs'.vars]
  apply filled_pokeLog
  rw [hs'.outside _ (Or.inl (by omega)), add_sub_cancel_left]

/-- The screen after `newLines` has moved it up by `n` lines. -/
theorem filled_shiftScreen {n : ℤ} (pos : 0 < n) :
    Filled s (s.shiftScreen n) m_memBase m_memLim fun a =>
      if a + 160 * n < m_memLim then s.mem (a + 160 * n) else blank m_memBase a := by
  unfold shiftScreen
  have hlim : m_memLim = m_memBase + 2 * ((2000 : ℕ) : ℤ) := by decide
  have hend : m_memLim = m_memBase + 4000 := by decide
  rw [hlim]
  refine filled_foldl (by decide) 2000 fun i hi s' hs' => ?_
  rw [← hlim]
  unfold shiftChar m_width
  dsimp only
  rw [show m_memBase + 2 * (i : ℤ) + n * 2 * 80 = m_memBase + 2 * i + 160 * n by ring]
  split_ifs with hmem
  · -- the source of both bytes lies behind what the loop has written
    have hfirst : s'.mem (m_memBase + 2 * i + 160 * n) = s.mem (m_memBase + 2 * i + 160 * n) :=
      hs'.outside _ (Or.inr (by omega))
    have hsecond : s'.mem (m_memBase + 2 * i + 160 * n + 1) =
        s.mem (m_memBase + 2 * i + 1 + 160 * n) := by
      rw [hs'.outside _ (Or.inr (by omega))]
      congr 1
      ring
    have hkept : (s'.pokeScreen (m_memBase + 2 * i) (s'.mem (m_memBase + 2 * i + 160 * n))).mem
        (m_memBase + 2 * i + 160 * n + 1) = s'.mem (m_memBase + 2 * i + 160 * n + 1) :=
      Function.update_of_ne (by omega) ..
    rw [hkept, hfirst, hsecond]
    rw [show m_memBase + 2 * (i : ℤ) + 2 = m_memBase + 2 * i + 1 + 1 by ring]
    refine (filled_pokeScreen ?_).append (filled_pokeScreen ?_) (by omega) (by omega)
    · rw [if_pos hmem]
    · rw [if_pos (by omega)]
  · have hblank := filled_blankScreen s' (by omega : (m_memBase + 2 * (i : ℤ) - m_memBase) % 2 = 0)
    refine ⟨hblank.vars, fun a hlo hhi => ?_, hblank.outside⟩
    rw [hblank.inside a hlo hhi, if_neg (by omega)]

theorem filled_blankFrom (s : VGAText) {ptr : ℤ} (le_lim : ptr ≤ s.m_logLim)
    (even : (s.m_logLim - ptr) % 2 = 0) :
    Filled s (s.blankFrom ptr) ptr s.m_logLim (blank ptr) := by
  unfold blankFrom
  have hlim : s.m_logLim = ptr + 2 * (((s.m_logLim - ptr + 1) / 2).toNat : ℤ) := by omega
  generalize ((s.m_logLim - ptr + 1) / 2).toNat = n at hlim ⊢
  rw [hlim]
  exact filled_foldl (by decide) n fun i hi s' hs' => filled_blankLog (by omega)

theorem setChar_mem_screen (s : VGAText) {i off : ℤ} (c style : UInt8) (on : 0 ≤ i ∧ i < 4000)
    (from_zero : 0 ≤ off) (apart : s.logEnabled = true → m_memLim ≤ s.m_logCur) :
    (s.setChar off c style).mem (m_memBase + i) =
      if i = off + 1 then style else if i = off then c else s.mem (m_memBase + i) := by
  have hend : m_memLim = m_memBase + 4000 := by decide
  have hpoke (s : VGAText) : ((s.pokeScreen (m_memBase + off) c).pokeScreen
      (m_memBase + off + 1) style).mem (m_memBase + i) =
        if i = off + 1 then style else if i = off then c else s.mem (m_memBase + i) := by
    unfold pokeScreen
    simp only [Function.update_apply, add_assoc, add_right_inj]
  unfold setChar
  dsimp only
  rw [hpoke]
  split_ifs with h₁ h₂ hlog
  · rfl
  · rfl
  · have habove := apart hlog
    unfold pokeLog
    dsimp only
    rw [Function.update_of_ne (by omega), Function.update_of_ne (by omega)]
  · rfl

theorem setChar_mem_log {i off : ℤ} (c style : UInt8) (on : s.logEnabled = true)
    (apart : m_memLim ≤ s.m_logCur + i) (off_lt : off + 1 < 4000) :
    (s.setChar off c style).mem (s.m_logCur + i) =
      if i = off + 1 then style else if i = off then c else s.mem (s.m_logCur + i) := by
  have hend : m_memLim = m_memBase + 4000 := by decide
  unfold setChar pokeLog pokeScreen
  dsimp only
  rw [if_pos on]
  dsimp only
  rw [Function.update_of_ne (by omega), Function.update_of_ne (by omega)]
  simp only [Function.update_apply, add_assoc, add_right_inj]

theorem vars_setChar (s : VGAText) (off : ℤ) (c style : UInt8) :
    (s.setChar off c style).vars = s.vars := by
  unfold setChar
  dsimp only
  split_ifs <;> rfl

end VGAText
