import SepplesOS.Lib.TableForest
import SepplesOS.Mm.Paging

/-!
# Frames and entries

What one operation on the bitmap or on a word of memory does: the pages marked used, the page
`getFreePhysPage` finds, and the entries of the tables as a forest.
-/

/-! ## Addresses -/

theorem pageOf_mod (addr : ℕ) : pageOf addr % PAGESIZE = 0 := by
  show (addr - addr % 4096) % 4096 = 0
  omega

theorem pageOf_eq {p : ℕ} (aligned : p % PAGESIZE = 0) : pageOf p = p := by
  show p - p % PAGESIZE = p
  rw [aligned, Nat.sub_zero]

theorem pageOf_mul (page : ℕ) : pageOf (page * PAGESIZE) = page * PAGESIZE :=
  pageOf_eq (Nat.mul_mod_left _ _)

theorem mul_div_page (page : ℕ) : page * PAGESIZE / PAGESIZE = page :=
  Nat.mul_div_cancel _ (by decide)

theorem page_or {p x : ℕ} (aligned : p % PAGESIZE = 0) (small : x < PAGESIZE) :
    p ||| x = p + x := by
  have haligned : p % 4096 = 0 := aligned
  obtain ⟨k, rfl⟩ : ∃ k, p = k <<< 12 := ⟨p / 4096, by rw [Nat.shiftLeft_eq]; omega⟩
  exact (Nat.shiftLeft_add_eq_or_of_lt (show x < 2 ^ 12 from small) k).symm

theorem pageOf_or {p x : ℕ} (aligned : p % PAGESIZE = 0) (small : x < PAGESIZE) :
    pageOf (p ||| x) = p := by
  rw [page_or aligned small]
  have haligned : p % 4096 = 0 := aligned
  have hsmall : x < 4096 := small
  show p + x - (p + x) % 4096 = p
  omega

theorem present_or_odd (p x : ℕ) (odd : x.testBit 0 = true) : Present (p ||| x) := by
  unfold Present PAGE_ATTR_PRESENT
  rw [Nat.and_one_is_mod]
  have hbit : (p ||| x).testBit 0 = true := by rw [Nat.testBit_or, odd, Bool.or_true]
  rw [Nat.testBit_zero] at hbit
  simpa using hbit

theorem not_present_zero : ¬Present 0 := by decide

theorem flags_small {flags : ℕ} (small : flags < PAGESIZE) :
    PAGE_ATTR_PRESENT ||| PAGE_ATTR_WRITE ||| flags < PAGESIZE :=
  Nat.or_lt_two_pow (n := 12) (by decide) small

theorem attrs_small (flags : ℕ) : flags &&& 0xFFF < PAGESIZE :=
  Nat.lt_succ_of_le Nat.and_le_right

theorem flags_odd (flags : ℕ) :
    (PAGE_ATTR_PRESENT ||| PAGE_ATTR_WRITE ||| flags).testBit 0 = true := by
  simp [PAGE_ATTR_PRESENT]

namespace Paging

variable {m : Paging}

/-! ## The bitmap -/

/-- The bit of the page is set. -/
def Used (m : Paging) (page : ℕ) : Prop := (m.physPageBitmap (page / 8)).getLsbD (page % 8) = true

instance (m : Paging) (page : ℕ) : Decidable (m.Used page) := inferInstanceAs (Decidable (_ = _))

theorem bit_set (b : BitVec 8) (j k : ℕ) (hj : j < 8) :
    (b ||| 1#8 <<< k).getLsbD j = (b.getLsbD j || decide (j = k)) := by
  simp only [BitVec.getLsbD_or, BitVec.getLsbD_shiftLeft, hj, BitVec.getLsbD_one]
  grind

theorem bit_clear (b : BitVec 8) (j k : ℕ) (hj : j < 8) :
    (b &&& ~~~(1#8 <<< k)).getLsbD j = (b.getLsbD j && decide (j ≠ k)) := by
  simp only [BitVec.getLsbD_and, BitVec.getLsbD_not, BitVec.getLsbD_shiftLeft, hj,
    BitVec.getLsbD_one]
  grind

theorem bit_free (b : BitVec 8) (k : ℕ) (hk : k < 8) (free : b &&& 1#8 <<< k = 0#8) :
    b.getLsbD k = false := by
  have h := congrArg (fun x => x.getLsbD k) free
  simpa [BitVec.getLsbD_shiftLeft, hk] using h

theorem split_page (p q : ℕ) : q = p ↔ q / 8 = p / 8 ∧ q % 8 = p % 8 := by omega

theorem used_markPhysPageUsed (p q : ℕ) :
    (m.markPhysPageUsed p).Used q ↔ m.Used q ∨ q = p ∧ p < m.maxPhysPages := by
  unfold markPhysPageUsed Used
  split_ifs with hout
  · simp only [show ¬p < m.maxPhysPages by omega, and_false, or_false]
  · have hlt : q % 8 < 8 := Nat.mod_lt _ (by decide)
    by_cases hbyte : q / 8 = p / 8
    · simp only [hbyte, Function.update_self, bit_set _ _ _ hlt, Bool.or_eq_true, decide_eq_true_eq,
        split_page p q]
      simp only [true_and, show p < m.maxPhysPages by omega, and_true]
    · simp only [Function.update_of_ne hbyte, split_page p q, hbyte, false_and, or_false]

theorem used_markPhysPageFree (p q : ℕ) :
    (m.markPhysPageFree p).Used q ↔ m.Used q ∧ ¬(q = p ∧ p < m.maxPhysPages) := by
  unfold markPhysPageFree Used
  split_ifs with hout
  · simp only [show ¬p < m.maxPhysPages by omega, and_false, not_false_eq_true, and_true]
  · have hlt : q % 8 < 8 := Nat.mod_lt _ (by decide)
    by_cases hbyte : q / 8 = p / 8
    · simp only [hbyte, Function.update_self, bit_clear _ _ _ hlt, Bool.and_eq_true,
        decide_eq_true_eq, split_page p q]
      simp only [true_and, show p < m.maxPhysPages by omega, and_true, ne_eq]
    · simp only [Function.update_of_ne hbyte, split_page p q, hbyte, false_and, not_false_eq_true,
        and_true]

/-- Freeing a page that was free before it was marked leaves the bitmap as it was. -/
theorem markPhysPageFree_used (p : ℕ) (free : ¬m.Used p) :
    ((m.markPhysPageUsed p).markPhysPageFree p) = m := by
  unfold markPhysPageUsed
  split_ifs with hout
  · rw [markPhysPageFree, if_pos hout]
  · rw [markPhysPageFree, if_neg hout]
    have hbits : (m.physPageBitmap (p / 8) ||| 1#8 <<< (p % 8)) &&& ~~~(1#8 <<< (p % 8)) =
        m.physPageBitmap (p / 8) := by
      apply BitVec.eq_of_getLsbD_eq
      intro j hj
      rw [bit_clear _ _ _ hj, bit_set _ _ _ hj]
      by_cases hjp : j = p % 8
      · subst hjp
        simpa [Used] using free
      · simp [hjp]
    simp only [Function.update_self, hbits, Function.update_idem, Function.update_eq_self]

@[simp] theorem markPhysPageUsed_mem (p : ℕ) : (m.markPhysPageUsed p).mem = m.mem := by
  unfold markPhysPageUsed
  split_ifs <;> rfl

@[simp] theorem markPhysPageFree_mem (p : ℕ) : (m.markPhysPageFree p).mem = m.mem := by
  unfold markPhysPageFree
  split_ifs <;> rfl

@[simp] theorem markPhysPageUsed_max (p : ℕ) :
    (m.markPhysPageUsed p).maxPhysPages = m.maxPhysPages := by
  unfold markPhysPageUsed
  split_ifs <;> rfl

@[simp] theorem markPhysPageFree_max (p : ℕ) :
    (m.markPhysPageFree p).maxPhysPages = m.maxPhysPages := by
  unfold markPhysPageFree
  split_ifs <;> rfl

/-! ## The search for a free page -/

theorem freeBit_spec (b : BitVec 8) (n bit k : ℕ) (found : freeBit b n bit = some k) :
    k < bit + n ∧ b &&& 1#8 <<< k = 0#8 := by
  induction n generalizing bit with
  | zero => cases found
  | succ n ih =>
    rw [freeBit] at found
    split_ifs at found with hzero
    · obtain rfl := Option.some.inj found
      exact ⟨by omega, hzero⟩
    · obtain ⟨hlt, hbit⟩ := ih _ found
      exact ⟨by omega, hbit⟩

theorem freePage_spec (n byte page : ℕ) (found : m.freePage n byte = some page) :
    page / 8 < byte + n ∧ ¬m.Used page := by
  induction n generalizing byte with
  | zero => cases found
  | succ n ih =>
    have hnext : m.freePage n (byte + 1) = some page → page / 8 < byte + (n + 1) ∧ ¬m.Used page := by
      intro h
      obtain ⟨hlt, hfree⟩ := ih _ h
      exact ⟨by omega, hfree⟩
    rw [freePage] at found
    split_ifs at found with hfull
    · exact hnext found
    · cases hbit : freeBit (m.physPageBitmap byte) 8 0 with
      | none =>
        rw [hbit] at found
        exact hnext found
      | some bit =>
        rw [hbit] at found
        obtain rfl := Option.some.inj found
        obtain ⟨hlt, hzero⟩ := freeBit_spec _ _ _ _ hbit
        have hdiv : (8 * byte + bit) / 8 = byte := by omega
        have hmod : (8 * byte + bit) % 8 = bit := by omega
        refine ⟨by omega, ?_⟩
        unfold Used
        rw [hdiv, hmod, bit_free _ _ (by omega) hzero]
        exact Bool.false_ne_true

/-- The page `getFreePhysPage` returns exists and is free. -/
theorem getFreePhysPage_spec (found : m.getFreePhysPage ≠ 0) :
    ∃ page, m.getFreePhysPage = page * PAGESIZE ∧ page < m.maxPhysPages ∧ ¬m.Used page := by
  unfold getFreePhysPage at found ⊢
  cases h : m.freePage (m.maxPhysPages / 8) 0 with
  | none => simp [h] at found
  | some page =>
    obtain ⟨hlt, hfree⟩ := freePage_spec _ _ _ h
    exact ⟨page, rfl, by omega, hfree⟩

/-! ## Words of memory -/

theorem phyread_congr {m' : Paging} (h : m'.mem = m.mem) (a : ℕ) : m'.phyread a = m.phyread a := by
  unfold phyread
  rw [h]

theorem phyread_phywrite (a w b : ℕ) :
    (m.phywrite a w).phyread b = if b = a ∧ a ≠ TMPMAP_PTE then w else m.phyread b := by
  unfold phyread phywrite
  by_cases hb : b = a
  · subst hb
    by_cases hslot : b = TMPMAP_PTE <;> simp [hslot]
  · simp [hb]

theorem phyread_phyzero {page : ℕ} (above : PT0_ADDR + PAGESIZE ≤ page) (b : ℕ) :
    (m.phyzero page).phyread b = if page ≤ b ∧ b < page + PAGESIZE then 0 else m.phyread b := by
  unfold phyread phyzero
  by_cases hb : b = TMPMAP_PTE
  · have hbelow : ¬page ≤ b := by
      have habove : 0x5000 ≤ page := above
      subst hb
      show ¬page ≤ 0x4038
      omega
    simp [hb ▸ hbelow, hb]
  · simp [hb]

/-! ## Entries -/

open TableForest

/-- What the entries of a table refer to. -/
def child (m : Paging) : Tables ℕ ℕ := fun f i =>
  if i < 512 ∧ Present (m.phyread (f + i * 8)) then some (pageOf (m.phyread (f + i * 8))) else none

theorem child_some {f i c : ℕ} (h : m.child f i = some c) :
    i < 512 ∧ Present (m.phyread (f + i * 8)) ∧ pageOf (m.phyread (f + i * 8)) = c := by
  unfold child at h
  split_ifs at h with hpresent
  exact ⟨hpresent.1, hpresent.2, Option.some.inj h⟩

theorem child_of_present {f i : ℕ} (lt : i < 512) (present : Present (m.phyread (f + i * 8))) :
    m.child f i = some (pageOf (m.phyread (f + i * 8))) :=
  if_pos ⟨lt, present⟩

theorem child_of_not_present {f i : ℕ} (absent : ¬Present (m.phyread (f + i * 8))) :
    m.child f i = none :=
  if_neg fun h => absent h.2

theorem present_of_child {f i : ℕ} (lt : i < 512) (absent : m.child f i = none) :
    ¬Present (m.phyread (f + i * 8)) := by
  intro present
  rw [child_of_present lt present] at absent
  cases absent

theorem child_congr {m' : Paging} {f i : ℕ} (h : m'.phyread (f + i * 8) = m.phyread (f + i * 8)) :
    m'.child f i = m.child f i := by
  unfold child
  rw [h]

theorem child_of_mem {m' : Paging} (h : m'.mem = m.mem) : m'.child = m.child :=
  funext fun _ => funext fun _ => child_congr (phyread_congr h _)

theorem entry_ne {f f₀ i i₀ : ℕ} (aligned : f % PAGESIZE = 0) (aligned₀ : f₀ % PAGESIZE = 0)
    (lt : i < 512) (lt₀ : i₀ < 512) (ne : ¬(f = f₀ ∧ i = i₀)) : f + i * 8 ≠ f₀ + i₀ * 8 := by
  have h : f % 4096 = 0 := aligned
  have h₀ : f₀ % 4096 = 0 := aligned₀
  omega

/-- Writing one entry leaves the other entries of all tables. -/
theorem child_phywrite_ne {f f₀ i i₀ w : ℕ} (aligned : f % PAGESIZE = 0)
    (aligned₀ : f₀ % PAGESIZE = 0) (lt₀ : i₀ < 512) (ne : ¬(f = f₀ ∧ i = i₀)) :
    (m.phywrite (f₀ + i₀ * 8) w).child f i = m.child f i := by
  by_cases lt : i < 512
  · apply child_congr
    rw [phyread_phywrite, if_neg fun h => entry_ne aligned aligned₀ lt lt₀ ne h.1]
  · unfold child
    rw [if_neg fun h => lt h.1, if_neg fun h => lt h.1]

theorem child_phywrite_self {f i w : ℕ} (lt : i < 512) (slot : f + i * 8 ≠ TMPMAP_PTE) :
    (m.phywrite (f + i * 8) w).child f i = if Present w then some (pageOf w) else none := by
  have hread : (m.phywrite (f + i * 8) w).phyread (f + i * 8) = w := by
    rw [phyread_phywrite, if_pos ⟨rfl, slot⟩]
  unfold child
  simp only [hread, lt, true_and]

theorem child_phywrite_first_ne {f f₀ i w : ℕ} (aligned : f % PAGESIZE = 0)
    (aligned₀ : f₀ % PAGESIZE = 0) (ne : ¬(f = f₀ ∧ i = 0)) :
    (m.phywrite f₀ w).child f i = m.child f i :=
  child_phywrite_ne aligned aligned₀ (by decide : 0 < 512) ne

theorem child_phywrite_first {f w : ℕ} (above : PT0_ADDR + PAGESIZE ≤ f) :
    (m.phywrite f w).child f 0 = if Present w then some (pageOf w) else none := by
  refine child_phywrite_self (by decide : 0 < 512) ?_
  rintro heq
  rw [Nat.zero_mul, Nat.add_zero] at heq
  rw [heq] at above
  exact absurd above (by decide)

theorem child_phyzero_ne {f i page : ℕ} (above : PT0_ADDR + PAGESIZE ≤ page)
    (aligned : f % PAGESIZE = 0) (apart : page % PAGESIZE = 0) (ne : f ≠ page) :
    (m.phyzero page).child f i = m.child f i := by
  by_cases lt : i < 512
  · apply child_congr
    rw [phyread_phyzero above, if_neg]
    have h : f % 4096 = 0 := aligned
    have h₀ : page % 4096 = 0 := apart
    show ¬(page ≤ f + i * 8 ∧ f + i * 8 < page + 4096)
    omega
  · unfold child
    rw [if_neg fun h => lt h.1, if_neg fun h => lt h.1]

theorem child_phyzero_self {i page : ℕ} (above : PT0_ADDR + PAGESIZE ≤ page) :
    (m.phyzero page).child page i = none := by
  by_cases lt : i < 512
  · apply child_of_not_present
    rw [phyread_phyzero above, if_pos]
    · exact not_present_zero
    · show page ≤ page + i * 8 ∧ page + i * 8 < page + 4096
      omega
  · exact if_neg fun h => lt h.1

end Paging
