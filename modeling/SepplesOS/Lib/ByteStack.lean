import SepplesOS.Lib.Bytes

/-!
# A stack of strings and words

A block of memory built downwards: every item is put right below the one before, so that what is put
later leaves alone everything above it.
-/

namespace Buf

/-- A copy of a string, given without its terminator. -/
def strcpy (buf : Buf) (dest : ℕ) : List UInt8 → Buf
  | [] => Function.update buf dest 0
  | c :: src => strcpy (Function.update buf dest c) (dest + 1) src

/-- Copies of strings, each right below the one before: memory, the new stack pointer and the
addresses of the copies. -/
def pushStrings (buf : Buf) (sp : ℕ) : List (List UInt8) → Buf × ℕ × List ℕ
  | [] => (buf, sp, [])
  | s :: ss =>
    let sp := sp - (s.length + 1)
    let (buf, last, addrs) := pushStrings (buf.strcpy sp s) sp ss
    (buf, last, sp :: addrs)

/-- Words of 8 bytes, each right below the one before. -/
def pushWords (buf : Buf) (sp : ℕ) : List ℕ → Buf × ℕ
  | [] => (buf, sp)
  | w :: ws => pushWords (buf.putLeNat (sp - 8) 8 w) (sp - 8) ws

/-- The size of some strings with their terminators. -/
def total (ss : List (List UInt8)) : ℕ := (ss.map fun s => s.length + 1).sum

section Strcpy

variable {buf : Buf} {dest k : ℕ} {s : List UInt8}

theorem strcpy_of_not (h : ¬(dest ≤ k ∧ k < dest + (s.length + 1))) : buf.strcpy dest s k = buf k := by
  induction s generalizing buf dest with
  | nil =>
    rw [List.length_nil] at h
    rw [strcpy, Function.update_of_ne (by omega)]
  | cons c s ih =>
    rw [List.length_cons] at h
    rw [strcpy, ih (by omega), Function.update_of_ne (by omega)]

/-- The copy is a string with its terminator. -/
theorem bytes_strcpy (buf : Buf) (dest : ℕ) (s : List UInt8) :
    (buf.strcpy dest s).bytes dest (s.length + 1) = s ++ [0] := by
  induction s generalizing buf dest with
  | nil => simp [bytes, strcpy]
  | cons c s ih =>
    have hfirst : strcpy (Function.update buf dest c) (dest + 1) s dest = c := by
      rw [strcpy_of_not (by omega), Function.update_self]
    have hrest := ih (Function.update buf dest c) (dest + 1)
    unfold bytes at hrest ⊢
    rw [List.length_cons, List.range_succ_eq_map, List.map_cons, List.map_map, strcpy, Nat.add_zero dest,
      hfirst, List.cons_append, ← hrest]
    simp [Function.comp_def, Nat.add_assoc, Nat.add_comm 1]

end Strcpy

/-! ## Strings -/

section Strings

variable {buf : Buf} {sp : ℕ} {ss : List (List UInt8)}

/-- What `pushStrings` leaves: its result is `(out, last, addrs)`. -/
structure StringsPushed (buf : Buf) (sp : ℕ) (ss : List (List UInt8)) (out : Buf) (last : ℕ)
    (addrs : List ℕ) : Prop where
  room : last + total ss = sp
  length : addrs.length = ss.length
  above : ∀ k, sp ≤ k → out k = buf k
  copies : ∀ (i : ℕ) (s : List UInt8) (p : ℕ), ss[i]? = some s → addrs[i]? = some p →
    out.bytes p (s.length + 1) = s ++ [0] ∧ last ≤ p ∧ p + (s.length + 1) ≤ sp
  apart : ∀ (i j : ℕ) (s : List UInt8) (p q : ℕ), i < j → addrs[i]? = some p →
    addrs[j]? = some q → ss[j]? = some s → q + (s.length + 1) ≤ p

theorem total_cons (s : List UInt8) (ss : List (List UInt8)) :
    total (s :: ss) = s.length + 1 + total ss := by
  simp [total]

theorem pushStrings_spec (room : total ss ≤ sp) :
    StringsPushed buf sp ss (buf.pushStrings sp ss).1 (buf.pushStrings sp ss).2.1
      (buf.pushStrings sp ss).2.2 := by
  induction ss generalizing buf sp with
  | nil =>
    refine ⟨rfl, rfl, fun _ _ => rfl, fun i s p h => ?_, fun i j s p q _ h => ?_⟩
    · simp at h
    · simp [pushStrings] at h
  | cons s ss ih =>
    rw [total_cons] at room
    have hrest := @ih (buf.strcpy (sp - (s.length + 1)) s) (sp - (s.length + 1)) (by omega)
    rw [pushStrings]
    dsimp only
    generalize (buf.strcpy (sp - (s.length + 1)) s).pushStrings (sp - (s.length + 1)) ss = out at hrest
    obtain ⟨mem, last, addrs⟩ := out
    obtain ⟨hlast, hlength, habove, hcopies, hapart⟩ := hrest
    dsimp only at hlast hlength habove hcopies hapart ⊢
    have hends := total_cons s ss
    refine ⟨by omega, by simp [hlength], fun k hk => ?_, ?_, ?_⟩
    · rw [habove k (by omega), strcpy_of_not (by omega)]
    · intro i t p ht hp
      cases i with
      | zero =>
        cases ht
        cases hp
        refine ⟨?_, by omega, by omega⟩
        rw [← bytes_strcpy buf (sp - (s.length + 1)) s]
        exact bytes_congr fun i _ => habove _ (Nat.le_add_right _ i)
      | succ i =>
        obtain ⟨hbytes, hle, hend⟩ := hcopies i t p ht hp
        exact ⟨hbytes, hle, by omega⟩
    · intro i j t p q hij hp hq ht
      obtain ⟨j, rfl⟩ : ∃ m, j = m + 1 := ⟨j - 1, by omega⟩
      cases i with
      | zero =>
        cases hp
        exact (hcopies j t q ht hq).2.2
      | succ i => exact hapart i j t p q (by omega) hp hq ht

end Strings

/-! ## Words -/

section Words

variable {buf : Buf} {sp : ℕ} {ws : List ℕ}

theorem pushWords_sp (buf : Buf) (sp : ℕ) (ws : List ℕ) :
    (buf.pushWords sp ws).2 = sp - 8 * ws.length := by
  induction ws generalizing buf sp with
  | nil => rfl
  | cons w ws ih =>
    rw [pushWords, ih, List.length_cons]
    omega

/-- Pushing words leaves alone what lies at or above the stack pointer. -/
theorem pushWords_above (room : 8 * ws.length ≤ sp) {k : ℕ} (above : sp ≤ k) :
    (buf.pushWords sp ws).1 k = buf k := by
  induction ws generalizing buf sp with
  | nil => rfl
  | cons w ws ih =>
    rw [List.length_cons] at room
    rw [pushWords, ih (by omega) (by omega), putLeNat_of_not (by omega)]

/-- The word pushed at position `i` is found `i + 1` words below the old stack pointer. -/
theorem leNat_pushWords (room : 8 * ws.length ≤ sp) {i w : ℕ} (hw : ws[i]? = some w)
    (small : w < 2 ^ 64) : (buf.pushWords sp ws).1.leNat (sp - 8 * (i + 1)) 8 = w := by
  induction ws generalizing buf sp i with
  | nil => cases hw
  | cons v ws ih =>
    rw [List.length_cons] at room
    rw [pushWords]
    cases i with
    | zero =>
      cases hw
      have hframe : ((buf.putLeNat (sp - 8) 8 w).pushWords (sp - 8) ws).1.leNat (sp - 8) 8 =
          (buf.putLeNat (sp - 8) 8 w).leNat (sp - 8) 8 :=
        leNat_congr fun i _ => pushWords_above (by omega) (Nat.le_add_right _ i)
      rw [Nat.zero_add, Nat.mul_one, hframe, leNat_putLeNat]
      exact Nat.mod_eq_of_lt small
    | succ i =>
      have hrest := @ih (buf.putLeNat (sp - 8) 8 v) (sp - 8) (by omega) i hw
      rwa [Nat.sub_sub, show 8 + 8 * (i + 1) = 8 * (i + 1 + 1) by omega] at hrest

end Words

end Buf
