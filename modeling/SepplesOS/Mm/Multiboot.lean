import SepplesOS.Lib.Bytes
import SepplesOS.Mm.Frames

/-!
# The memory map of the bootloader

`reserveMbiMemmap` (`kernel/multiboot.cpp`) walks over the memory map and marks the pages of the
entries that are not available memory.  An entry holds a `u32` at offset 0, two `u64` and a `u32`.
In the bootloader's format they follow each other at 4, 12 and 20.  `struct mmap` is not packed, so
that the compiler aligns the two `u64`, and the code reads them at 8, 16 and 24.

The counter of the inner loop is a `u32` and the length it runs to a `u64`: where the loop neither
reaches the length nor the last physical page, it wraps and runs forever.  The model gives both
loops a fuel, and `none` says that it ran out.
-/

/-- The fields of `struct multiboot_info` that `reserveMbiMemmap` reads. -/
structure MultibootInfo where
  flags : UInt32
  mmap_length : UInt32
  mmap_addr : UInt32

/-- `struct mmap`. -/
structure Mmap where
  size : ℕ
  base_addr : ℕ
  length : ℕ
  type : ℕ

namespace Mmap

/-- The entry at `cur`, at the offsets the compiler gives the fields of `struct mmap`. -/
def ofBuf (mem : Buf) (cur : ℕ) : Mmap where
  size := mem.leNat cur 4
  base_addr := mem.leNat (cur + 8) 8
  length := mem.leNat (cur + 16) 8
  type := mem.leNat (cur + 24) 4

end Mmap

namespace Paging

/-- The loop over the pages of an entry, at the counter `i`. -/
def reservePages (entry : Mmap) : ℕ → ℕ → Paging → Option Paging
  | 0, _, _ => none
  | fuel + 1, i, m =>
    if i < entry.length then
      let page := (entry.base_addr + i) % 2 ^ 64 / PAGESIZE
      if page < m.maxPhysPages then
        reservePages entry fuel ((i + PAGESIZE) % 2 ^ 32) (m.markPhysPageUsed page)
      else some m
    else some m

/-- The loop over the entries of the map, at `cur`. -/
def reserveEntries (mem : Buf) (limit pageFuel : ℕ) : ℕ → ℕ → Paging → Option Paging
  | 0, _, _ => none
  | fuel + 1, cur, m =>
    if cur < limit then
      let entry := Mmap.ofBuf mem cur
      let reserved := if entry.type ≠ 1 then m.reservePages entry pageFuel 0 else some m
      match reserved with
      | none => none
      | some m => reserveEntries mem limit pageFuel fuel (cur + entry.size + 4) m
    else some m

/-- `reserveMbiMemmap`: whether there was a map, and the bitmap after it. -/
def reserveMbiMemmap (mem : Buf) (mbi : MultibootInfo) (fuel : ℕ) (m : Paging) :
    Option (Bool × Paging) :=
  if mbi.flags &&& 0b01000000 = 0 then some (false, m)
  else
    let cur := mbi.mmap_addr.toNat
    (reserveEntries mem (cur + mbi.mmap_length.toNat) fuel fuel cur m).map fun m => (true, m)

/-! ## The loop over the pages -/

end Paging

namespace Mmap

theorem ofBuf_fits (mem : Buf) (cur : ℕ) : (ofBuf mem cur).base_addr < 2 ^ 64 := by
  have hbytes := mem.leNat_lt (cur + 8) 8
  rwa [show 256 ^ 8 = 2 ^ 64 by norm_num] at hbytes

/-- The loop over the pages of the entry ends before its counter wraps. -/
def Ends (entry : Mmap) (maxPhysPages : ℕ) : Prop :=
  entry.type ≠ 1 → entry.length ≤ 2 ^ 32 - PAGESIZE ∨
    maxPhysPages < entry.base_addr / PAGESIZE + 2 ^ 20

/-- The loop over the pages of the entry marks the page, if it exists. -/
def Covers (entry : Mmap) (page : ℕ) : Prop :=
  entry.type ≠ 1 ∧ entry.base_addr / PAGESIZE ≤ page ∧
    (page - entry.base_addr / PAGESIZE) * PAGESIZE < entry.length

end Mmap

namespace Paging

variable {entry : Mmap} {m : Paging}

/-- The page that the loop marks when its counter is at the page `k` of the entry. -/
theorem page_at {max k : ℕ} (size : max < 2 ^ 32) (small : k < 2 ^ 20)
    (inside : k = 0 ∨ entry.base_addr / PAGESIZE < max) (fits : entry.base_addr < 2 ^ 64) :
    (entry.base_addr + k * PAGESIZE) % 2 ^ 64 / PAGESIZE = entry.base_addr / PAGESIZE + k := by
  unfold PAGESIZE at inside ⊢
  omega

theorem reservePages_ends (fits : entry.base_addr < 2 ^ 64)
    (ends : entry.length ≤ 2 ^ 32 - PAGESIZE ∨
      m.maxPhysPages < entry.base_addr / PAGESIZE + 2 ^ 20)
    (size : m.maxPhysPages < 2 ^ 32) (fuel k : ℕ) (small : k < 2 ^ 20)
    (inside : k = 0 ∨ entry.base_addr / PAGESIZE < m.maxPhysPages) (enough : 2 ^ 20 ≤ fuel + k) :
    ∃ m', m.reservePages entry fuel (k * PAGESIZE) = some m' ∧
      m'.maxPhysPages = m.maxPhysPages ∧
      ∀ page, m'.Used page ↔ m.Used page ∨ page < m.maxPhysPages ∧
        entry.base_addr / PAGESIZE + k ≤ page ∧
        (page - entry.base_addr / PAGESIZE) * PAGESIZE < entry.length := by
  induction fuel generalizing k m with
  | zero => omega
  | succ fuel ih =>
    rw [reservePages, page_at size small inside fits]
    dsimp only
    split_ifs with hlength hmax
    · -- the counter reaches the next page without wrapping
      have hnext : k + 1 < 2 ^ 20 := by unfold PAGESIZE at *; omega
      have hcounter : (k * PAGESIZE + PAGESIZE) % 2 ^ 32 = (k + 1) * PAGESIZE := by
        unfold PAGESIZE; omega
      rw [hcounter]
      obtain ⟨m', hrun, hsame, hused⟩ := ih
        (m := m.markPhysPageUsed (entry.base_addr / PAGESIZE + k)) (by simpa using ends)
        (by simpa using size) (k + 1) hnext (Or.inr (by rw [markPhysPageUsed_max]; omega))
        (by omega)
      rw [markPhysPageUsed_max] at hsame hused
      refine ⟨m', hrun, hsame, fun page => ?_⟩
      rw [hused, used_markPhysPageUsed, or_assoc]
      refine or_congr_right ⟨?_, ?_⟩
      · rintro (⟨rfl, _⟩ | ⟨hpage, hfrom, hin⟩)
        · refine ⟨hmax, le_refl _, ?_⟩
          rwa [Nat.add_sub_cancel_left]
        · exact ⟨hpage, by omega, hin⟩
      · rintro ⟨hpage, hfrom, hin⟩
        by_cases hthis : page = entry.base_addr / PAGESIZE + k
        · exact Or.inl ⟨hthis, hmax⟩
        · exact Or.inr ⟨hpage, by omega, hin⟩
    · refine ⟨m, rfl, rfl, fun page => (or_iff_left ?_).symm⟩
      omega
    · refine ⟨m, rfl, rfl, fun page => (or_iff_left ?_).symm⟩
      rintro ⟨_, hfrom, hin⟩
      have : k * PAGESIZE ≤ (page - entry.base_addr / PAGESIZE) * PAGESIZE :=
        Nat.mul_le_mul_right _ (by omega)
      omega

/-- A loop whose counter wraps never ends. -/
theorem reservePages_loops (fits : entry.base_addr < 2 ^ 64)
    (long : 2 ^ 32 - PAGESIZE < entry.length)
    (size : m.maxPhysPages < 2 ^ 32)
    (room : entry.base_addr / PAGESIZE + 2 ^ 20 ≤ m.maxPhysPages) (fuel k : ℕ)
    (small : k < 2 ^ 20) : m.reservePages entry fuel (k * PAGESIZE) = none := by
  induction fuel generalizing k m with
  | zero => rfl
  | succ fuel ih =>
    rw [reservePages, page_at size small (Or.inr (by omega)) fits]
    dsimp only
    rw [if_pos (by unfold PAGESIZE at *; omega), if_pos (by omega)]
    have hcounter : (k * PAGESIZE + PAGESIZE) % 2 ^ 32 = (k + 1) % 2 ^ 20 * PAGESIZE := by
      unfold PAGESIZE; omega
    rw [hcounter]
    exact ih (by rwa [markPhysPageUsed_max]) (by rwa [markPhysPageUsed_max]) _
      (Nat.mod_lt _ (by decide))

theorem reservePages_mono {fuel fuel' i : ℕ} {m' : Paging}
    (run : m.reservePages entry fuel i = some m') (more : fuel ≤ fuel') :
    m.reservePages entry fuel' i = some m' := by
  induction fuel generalizing fuel' i m with
  | zero => exact absurd run (by simp [reservePages])
  | succ fuel ih =>
    obtain ⟨fuel', rfl⟩ : ∃ n, fuel' = n + 1 := ⟨fuel' - 1, by omega⟩
    rw [reservePages] at run ⊢
    dsimp only at run ⊢
    split_ifs at run ⊢ with hlength hmax
    · exact ih run (by omega)
    · exact run
    · exact run

/-! ## The loop over the entries -/

/-- The addresses of the entries from `cur` on, at most `n` of them. -/
def entriesFrom (mem : Buf) (limit : ℕ) : ℕ → ℕ → List ℕ
  | 0, _ => []
  | n + 1, cur =>
    if cur < limit then cur :: entriesFrom mem limit n (cur + mem.leNat cur 4 + 4) else []

/-- The addresses of the entries of the map. -/
def entries (mem : Buf) (mbi : MultibootInfo) : List ℕ :=
  entriesFrom mem (mbi.mmap_addr.toNat + mbi.mmap_length.toNat) mbi.mmap_length.toNat
    mbi.mmap_addr.toNat

theorem entriesFrom_enough (mem : Buf) {limit n n' cur : ℕ} (enough : limit - cur ≤ n)
    (enough' : limit - cur ≤ n') : entriesFrom mem limit n cur = entriesFrom mem limit n' cur := by
  induction n generalizing n' cur with
  | zero =>
    cases n' with
    | zero => rfl
    | succ n' => rw [entriesFrom, entriesFrom, if_neg (by omega)]
  | succ n ih =>
    cases n' with
    | zero => rw [entriesFrom, entriesFrom, if_neg (by omega)]
    | succ n' =>
      rw [entriesFrom, entriesFrom]
      split_ifs with hcur
      · exact congrArg _ (ih (by omega) (by omega))
      · rfl

variable {mem : Buf} {limit : ℕ}

theorem reserveEntries_ends (size : m.maxPhysPages < 2 ^ 32) {pageFuel : ℕ}
    (enough : 2 ^ 20 ≤ pageFuel) (fuel cur : ℕ) (steps : limit - cur < fuel)
    (ends : ∀ c ∈ entriesFrom mem limit fuel cur, (Mmap.ofBuf mem c).Ends m.maxPhysPages) :
    ∃ m', m.reserveEntries mem limit pageFuel fuel cur = some m' ∧
      m'.maxPhysPages = m.maxPhysPages ∧
      ∀ page, m'.Used page ↔ m.Used page ∨ page < m.maxPhysPages ∧
        ∃ c ∈ entriesFrom mem limit fuel cur, (Mmap.ofBuf mem c).Covers page := by
  induction fuel generalizing cur m with
  | zero => omega
  | succ fuel ih =>
    rw [entriesFrom] at ends ⊢
    rw [reserveEntries]
    dsimp only
    by_cases hcur : cur < limit
    · rw [if_pos hcur] at ends ⊢
      rw [if_pos hcur]
      have hfirst : (Mmap.ofBuf mem cur).Ends m.maxPhysPages := ends cur List.mem_cons_self
      -- the first entry
      obtain ⟨m₁, hrun₁, hsame₁, hused₁⟩ : ∃ m₁, (if (Mmap.ofBuf mem cur).type ≠ 1 then
            m.reservePages (Mmap.ofBuf mem cur) pageFuel 0 else some m) = some m₁ ∧
          m₁.maxPhysPages = m.maxPhysPages ∧
          ∀ page, m₁.Used page ↔ m.Used page ∨ page < m.maxPhysPages ∧
            (Mmap.ofBuf mem cur).Covers page := by
        by_cases htype : (Mmap.ofBuf mem cur).type = 1
        · rw [if_neg (not_not.2 htype)]
          exact ⟨m, rfl, rfl, fun page => (or_iff_left fun h => h.2.1 htype).symm⟩
        · rw [if_pos htype]
          obtain ⟨m₁, hrun, hsame, hused⟩ := reservePages_ends (Mmap.ofBuf_fits mem _) (hfirst htype)
            size pageFuel 0 (Nat.two_pow_pos 20) (Or.inl rfl) enough
          rw [Nat.zero_mul] at hrun
          refine ⟨m₁, hrun, hsame, fun page => ?_⟩
          rw [hused, Nat.add_zero]
          exact or_congr_right (and_congr_right fun _ => ⟨fun h => ⟨htype, h⟩, fun h => h.2⟩)
      rw [hrun₁]
      -- the entries behind it
      obtain ⟨m₂, hrun₂, hsame₂, hused₂⟩ := ih (m := m₁) (by rwa [hsame₁])
        (cur + (Mmap.ofBuf mem cur).size + 4) (by omega)
        (fun c hc => by rw [hsame₁]; exact ends c (List.mem_cons_of_mem _ hc))
      refine ⟨m₂, hrun₂, hsame₂.trans hsame₁, fun page => ?_⟩
      rw [hused₂, hused₁, hsame₁, or_assoc, ← and_or_left, List.exists_mem_cons_iff]
      rfl
    · rw [if_neg hcur] at ends ⊢
      rw [if_neg hcur]
      exact ⟨m, rfl, rfl, fun page => (or_iff_left (by simp)).symm⟩

theorem reserveEntries_loops (size : m.maxPhysPages < 2 ^ 32) (n fuel pageFuel cur : ℕ)
    (loops : ∃ c ∈ entriesFrom mem limit n cur, ¬(Mmap.ofBuf mem c).Ends m.maxPhysPages) :
    m.reserveEntries mem limit pageFuel fuel cur = none := by
  induction fuel generalizing n cur m with
  | zero => rfl
  | succ fuel ih =>
    cases n with
    | zero => simp [entriesFrom] at loops
    | succ n =>
      rw [entriesFrom] at loops
      by_cases hcur : cur < limit
      · rw [if_pos hcur, List.exists_mem_cons_iff] at loops
        rw [reserveEntries]
        dsimp only
        rw [if_pos hcur]
        by_cases hfirst : (Mmap.ofBuf mem cur).Ends m.maxPhysPages
        · -- whatever the first entry does, a later one loops
          have hlater := loops.resolve_left (not_not.2 hfirst)
          by_cases htype : (Mmap.ofBuf mem cur).type = 1
          · rw [if_neg (not_not.2 htype)]
            exact ih size n _ hlater
          · rw [if_pos htype]
            cases hrun : m.reservePages (Mmap.ofBuf mem cur) pageFuel 0 with
            | none => rfl
            | some m₁ =>
              obtain ⟨m₂, hrun₂, hsame, _⟩ := reservePages_ends (Mmap.ofBuf_fits mem _) (hfirst htype)
                size (pageFuel + 2 ^ 20) 0 (Nat.two_pow_pos 20) (Or.inl rfl) (by omega)
              rw [Nat.zero_mul, reservePages_mono hrun (Nat.le_add_right _ _)] at hrun₂
              have hmax : m₁.maxPhysPages = m.maxPhysPages := by
                rw [Option.some.inj hrun₂]
                exact hsame
              exact ih (by rwa [hmax]) n _ (by rw [hmax]; exact hlater)
        · unfold Mmap.Ends at hfirst
          push Not at hfirst
          obtain ⟨htype, hlong, hroom⟩ := hfirst
          have hloop := reservePages_loops (Mmap.ofBuf_fits mem _) hlong size hroom pageFuel 0
            (Nat.two_pow_pos 20)
          rw [Nat.zero_mul] at hloop
          rw [if_pos htype, hloop]
      · rw [if_neg hcur] at loops
        simp at loops

theorem reserveEntries_mono {pageFuel pageFuel' fuel fuel' cur : ℕ} {m' : Paging}
    (run : m.reserveEntries mem limit pageFuel fuel cur = some m') (more : pageFuel ≤ pageFuel')
    (steps : fuel ≤ fuel') : m.reserveEntries mem limit pageFuel' fuel' cur = some m' := by
  induction fuel generalizing fuel' cur m with
  | zero => exact absurd run (by simp [reserveEntries])
  | succ fuel ih =>
    obtain ⟨fuel', rfl⟩ : ∃ n, fuel' = n + 1 := ⟨fuel' - 1, by omega⟩
    rw [reserveEntries] at run ⊢
    dsimp only at run ⊢
    by_cases hcur : cur < limit
    · rw [if_pos hcur] at run ⊢
      by_cases htype : (Mmap.ofBuf mem cur).type = 1
      · rw [if_neg (not_not.2 htype)] at run ⊢
        exact ih run (by omega)
      · rw [if_pos htype] at run ⊢
        cases hrun : m.reservePages (Mmap.ofBuf mem cur) pageFuel 0 with
        | none => rw [hrun] at run; exact absurd run (by simp)
        | some m₁ =>
          rw [hrun] at run
          rw [reservePages_mono hrun more]
          exact ih run (by omega)
    · rw [if_neg hcur] at run ⊢
      exact run

/-! ## What is reserved -/

end Paging

namespace Mmap

/-- The entry at `cur`, at the offsets of the bootloader's format. -/
def declared (mem : Buf) (cur : ℕ) : Mmap where
  size := mem.leNat cur 4
  base_addr := mem.leNat (cur + 4) 8
  length := mem.leNat (cur + 12) 8
  type := mem.leNat (cur + 20) 4

/-- The entry is not available memory, and one of its bytes lies in the page. -/
def Overlaps (entry : Mmap) (page : ℕ) : Prop :=
  entry.type ≠ 1 ∧ ∃ addr, entry.base_addr ≤ addr ∧ addr < entry.base_addr + entry.length ∧
    addr / PAGESIZE = page

end Mmap

namespace Paging

variable {m : Paging}

/-- A page of the bitmap is reserved by an entry of the map, in the bootloader's format. -/
def Declared (mem : Buf) (mbi : MultibootInfo) (page : ℕ) : Prop :=
  ∃ cur ∈ entries mem mbi, (Mmap.declared mem cur).Overlaps page

/-- The pages of the reserved entries are marked, the other pages keep their marks, and no reserved
page is handed out. -/
structure Reserves (mem : Buf) (mbi : MultibootInfo) (m m' : Paging) : Prop where
  reserved : ∀ page < m.maxPhysPages, Declared mem mbi page → m'.Used page
  kept : ∀ page, ¬Declared mem mbi page → (m'.Used page ↔ m.Used page)
  handsOut : m'.getFreePhysPage ≠ 0 → ¬Declared mem mbi (m'.getFreePhysPage / PAGESIZE)

/-- The pages that are not marked yet are declared exactly when the code's fields cover them. -/
def Agrees (mem : Buf) (mbi : MultibootInfo) (m : Paging) : Prop :=
  ∀ page < m.maxPhysPages, ¬m.Used page → (Declared mem mbi page ↔
    ∃ cur ∈ entries mem mbi, (Mmap.ofBuf mem cur).Covers page)

theorem reserveMbiMemmap_given (mem : Buf) {mbi : MultibootInfo} (given : mbi.flags &&& 64 ≠ 0)
    (fuel : ℕ) : m.reserveMbiMemmap mem mbi fuel = (m.reserveEntries mem
      (mbi.mmap_addr.toNat + mbi.mmap_length.toNat) fuel fuel mbi.mmap_addr.toNat).map
        fun m => (true, m) := by
  unfold reserveMbiMemmap
  rw [if_neg given]

theorem reserveMbiMemmap_ends (mem : Buf) (mbi : MultibootInfo) (given : mbi.flags &&& 64 ≠ 0)
    (size : m.maxPhysPages < 2 ^ 32)
    (ends : ∀ cur ∈ entries mem mbi, (Mmap.ofBuf mem cur).Ends m.maxPhysPages) (fuel : ℕ)
    (enough : 2 ^ 20 + mbi.mmap_length.toNat < fuel) :
    ∃ m', m.reserveMbiMemmap mem mbi fuel = some (true, m') ∧
      m'.maxPhysPages = m.maxPhysPages ∧
      ∀ page, m'.Used page ↔ m.Used page ∨ page < m.maxPhysPages ∧
        ∃ cur ∈ entries mem mbi, (Mmap.ofBuf mem cur).Covers page := by
  have hentries : entries mem mbi = entriesFrom mem
      (mbi.mmap_addr.toNat + mbi.mmap_length.toNat) fuel mbi.mmap_addr.toNat :=
    entriesFrom_enough mem (by omega) (by omega)
  rw [hentries] at ends ⊢
  obtain ⟨m', hrun, hsame, hused⟩ := reserveEntries_ends size
    (show 2 ^ 20 ≤ fuel by omega) fuel mbi.mmap_addr.toNat (by omega) ends
  refine ⟨m', ?_, hsame, hused⟩
  rw [reserveMbiMemmap_given mem given, hrun]
  rfl

/-- Whatever the fuel, a run that returns has marked what the entries cover. -/
theorem reserveMbiMemmap_spec {mem : Buf} {mbi : MultibootInfo} (given : mbi.flags &&& 64 ≠ 0)
    (size : m.maxPhysPages < 2 ^ 32) {fuel : ℕ} {found : Bool} {m' : Paging}
    (run : m.reserveMbiMemmap mem mbi fuel = some (found, m')) :
    (∀ cur ∈ entries mem mbi, (Mmap.ofBuf mem cur).Ends m.maxPhysPages) ∧
      ∀ page, m'.Used page ↔ m.Used page ∨ page < m.maxPhysPages ∧
        ∃ cur ∈ entries mem mbi, (Mmap.ofBuf mem cur).Covers page := by
  rw [reserveMbiMemmap_given mem given] at run
  have hends : ∀ cur ∈ entries mem mbi, (Mmap.ofBuf mem cur).Ends m.maxPhysPages := by
    by_contra hloops
    push Not at hloops
    rw [reserveEntries_loops size _ fuel fuel _ hloops] at run
    exact absurd run (by simp)
  refine ⟨hends, ?_⟩
  obtain ⟨m₁, hrun₁, _, hused⟩ := reserveMbiMemmap_ends mem mbi given size hends
    (fuel + 2 ^ 20 + mbi.mmap_length.toNat + 1) (by omega)
  obtain ⟨m₂, hloop, heq⟩ := Option.map_eq_some_iff.1 run
  rw [reserveMbiMemmap_given mem given, reserveEntries_mono hloop (by omega) (by omega)] at hrun₁
  have hsame : m₁ = m' := by
    rw [← (Prod.mk.inj (Option.some.inj hrun₁)).2, (Prod.mk.inj heq).2]
  rwa [hsame] at hused

/-- `reserveMbiMemmap` reserves the memory map exactly when its inner loops end and, among the
pages not marked yet, the ranges read from the padded `struct mmap` are the declared ones. -/
theorem reserveMbiMemmap_reserves_iff (mem : Buf) (mbi : MultibootInfo) (m : Paging)
    (given : mbi.flags &&& 64 ≠ 0) (size : m.maxPhysPages < 2 ^ 32) :
    (∃ fuel m', m.reserveMbiMemmap mem mbi fuel = some (true, m') ∧ Reserves mem mbi m m') ↔
      (∀ cur ∈ entries mem mbi, (Mmap.ofBuf mem cur).Ends m.maxPhysPages) ∧
        Agrees mem mbi m := by
  constructor
  · rintro ⟨fuel, m', hrun, hreserves⟩
    obtain ⟨hends, hused⟩ := reserveMbiMemmap_spec given size hrun
    refine ⟨hends, fun page hpage hfree => ⟨fun hdeclared => ?_, fun hcovered => ?_⟩⟩
    · exact (((hused page).1 (hreserves.reserved page hpage hdeclared)).resolve_left hfree).2
    · by_contra hdeclared
      exact hfree ((hreserves.kept page hdeclared).1 ((hused page).2 (Or.inr ⟨hpage, hcovered⟩)))
  · rintro ⟨hends, hagrees⟩
    obtain ⟨m', hrun, hmax, hused⟩ := reserveMbiMemmap_ends mem mbi given size hends _
      (Nat.lt_succ_self _)
    have hreserved (page : ℕ) (hpage : page < m.maxPhysPages) (hdeclared : Declared mem mbi page) :
        m'.Used page := by
      rw [hused]
      by_cases hfree : m.Used page
      · exact Or.inl hfree
      · exact Or.inr ⟨hpage, (hagrees page hpage hfree).1 hdeclared⟩
    refine ⟨_, m', hrun, hreserved, fun page hdeclared => ?_, fun hfound => ?_⟩
    · rw [hused]
      refine ⟨fun h => ?_, Or.inl⟩
      by_contra hfree
      obtain ⟨hpage, hcovered⟩ := h.resolve_left hfree
      exact hdeclared ((hagrees page hpage hfree).2 hcovered)
    · obtain ⟨page, heq, hpage, hfree⟩ := getFreePhysPage_spec hfound
      rw [heq, mul_div_page]
      exact fun hdeclared => hfree (hreserved page (by rwa [← hmax]) hdeclared)

/-- In a map of entries whose length is not a multiple of 4 GiB, the code finds every range above
the memory and marks nothing. -/
theorem reserveMbiMemmap_marks_nothing (mem : Buf) (mbi : MultibootInfo)
    (given : mbi.flags &&& 64 ≠ 0) (size : m.maxPhysPages ≤ 2 ^ 20)
    (short : ∀ cur ∈ entries mem mbi, mem.leNat (cur + 12) 4 ≠ 0) :
    ∃ fuel m', m.reserveMbiMemmap mem mbi fuel = some (true, m') ∧
      ∀ page, m'.Used page ↔ m.Used page := by
  have habove : ∀ cur ∈ entries mem mbi,
      m.maxPhysPages ≤ (Mmap.ofBuf mem cur).base_addr / PAGESIZE := by
    intro cur hcur
    have hshort := short cur hcur
    have hsplit : (Mmap.ofBuf mem cur).base_addr =
        mem.leNat (cur + 8) 4 + 2 ^ 32 * mem.leNat (cur + 12) 4 := by
      show mem.leNat (cur + 8) 8 = _
      rw [show (8 : ℕ) = 4 + 4 from rfl, Buf.leNat_add]
      norm_num
    unfold PAGESIZE
    omega
  obtain ⟨m', hrun, _, hused⟩ := reserveMbiMemmap_ends (m := m) mem mbi given (by omega)
    (fun cur hcur _ => Or.inr (by have := habove cur hcur; omega)) _ (Nat.lt_succ_self _)
  refine ⟨_, m', hrun, fun page => ?_⟩
  rw [hused]
  refine or_iff_left ?_
  rintro ⟨hpage, cur, hcur, _, hfrom, _⟩
  have := habove cur hcur
  omega

/-- A map of one entry: the page at `0x200000` is reserved. -/
def oneReserved : Buf := fun k =>
  ([20, 0, 0, 0, 0, 0, 0x20, 0, 0, 0, 0, 0, 0, 0x10, 0, 0, 0, 0, 0, 0, 2, 0, 0, 0] :
    List UInt8).getD (k - 0x2000) 0

theorem entries_oneReserved : entries oneReserved ⟨64, 24, 0x2000⟩ = [0x2000] := by
  decide +kernel

theorem declared_oneReserved : Declared oneReserved ⟨64, 24, 0x2000⟩ 0x200 := by
  have hbase : (Mmap.declared oneReserved 0x2000).base_addr = 0x200000 := by decide +kernel
  have hlength : (Mmap.declared oneReserved 0x2000).length = 0x1000 := by decide +kernel
  have htype : (Mmap.declared oneReserved 0x2000).type ≠ 1 := by decide +kernel
  unfold Declared
  rw [entries_oneReserved]
  refine ⟨0x2000, List.mem_singleton_self _, htype, 0x200000, ?_, ?_, by decide⟩
  · rw [hbase]
  · rw [hbase, hlength]
    decide

theorem not_covered_oneReserved : ¬∃ cur ∈ entries oneReserved ⟨64, 24, 0x2000⟩,
    (Mmap.ofBuf oneReserved cur).Covers 0x200 := by
  rw [entries_oneReserved]
  rintro ⟨cur, hcur, _, hfrom, _⟩
  rw [List.mem_singleton.1 hcur] at hfrom
  revert hfrom
  decide +kernel

/-- 16 MiB of memory, as `init` leaves it. -/
def memory16 : Paging := init (bootMem fun _ => 0) (fun _ => 0) 0x1000000

theorem memory16_max : memory16.maxPhysPages = 4096 := by decide +kernel

theorem memory16_free : ¬memory16.Used 0x200 := by decide +kernel

/-- The reserved page of the map is not marked. -/
theorem reserveMbiMemmap_misses : ¬∀ (mem : Buf) (mbi : MultibootInfo) (m : Paging),
    mbi.flags &&& 64 ≠ 0 → m.maxPhysPages < 2 ^ 32 →
      ∃ fuel m', m.reserveMbiMemmap mem mbi fuel = some (true, m') ∧ Reserves mem mbi m m' := by
  intro h
  have hsize : memory16.maxPhysPages < 2 ^ 32 := by
    rw [memory16_max]
    norm_num
  obtain ⟨fuel, m', hrun, hreserves⟩ := h oneReserved ⟨64, 24, 0x2000⟩ memory16 (by decide) hsize
  have hused := (reserveMbiMemmap_spec (by decide) hsize hrun).2 0x200
  have hmarked := hreserves.reserved 0x200 (by rw [memory16_max]; norm_num) declared_oneReserved
  obtain hused | ⟨_, hcovered⟩ := hused.1 hmarked
  · exact memory16_free hused
  · exact not_covered_oneReserved hcovered

/-- A map of one entry: the first 4 GiB are reserved. -/
def allReserved : Buf := fun k =>
  ([20, 0, 0, 0, 0, 0, 0, 0, 0, 0, 0, 0, 0, 0, 0, 0, 1, 0, 0, 0, 2, 0, 0, 0] :
    List UInt8).getD (k - 0x2000) 0

theorem agrees_allReserved : Agrees allReserved ⟨64, 24, 0x2000⟩ memory16 := by
  have hentries : entries allReserved ⟨64, 24, 0x2000⟩ = [0x2000] := by decide +kernel
  have hread : (Mmap.ofBuf allReserved 0x2000).type = 0 ∧
      (Mmap.ofBuf allReserved 0x2000).base_addr = 0 ∧
      (Mmap.ofBuf allReserved 0x2000).length = 2 ^ 33 + 1 := by decide +kernel
  have hdeclared : (Mmap.declared allReserved 0x2000).type = 2 ∧
      (Mmap.declared allReserved 0x2000).base_addr = 0 ∧
      (Mmap.declared allReserved 0x2000).length = 2 ^ 32 := by decide +kernel
  intro page hpage _
  rw [memory16_max] at hpage
  rw [Declared, hentries]
  apply iff_of_true
  · refine ⟨0x2000, List.mem_singleton_self _, by rw [hdeclared.1]; decide, page * PAGESIZE, ?_⟩
    rw [hdeclared.2.1, hdeclared.2.2]
    unfold PAGESIZE
    omega
  · refine ⟨0x2000, List.mem_singleton_self _, by rw [hread.1]; decide, ?_⟩
    rw [hread.2.1, hread.2.2]
    unfold PAGESIZE
    omega

/-- That map is reserved; on the map of one page the condition fails, and with it the
reservation. -/
theorem reserveMbiMemmap_two_maps :
    (∃ fuel m', memory16.reserveMbiMemmap allReserved ⟨64, 24, 0x2000⟩ fuel = some (true, m') ∧
      Reserves allReserved ⟨64, 24, 0x2000⟩ memory16 m') ∧
    ¬∃ fuel m', memory16.reserveMbiMemmap oneReserved ⟨64, 24, 0x2000⟩ fuel = some (true, m') ∧
      Reserves oneReserved ⟨64, 24, 0x2000⟩ memory16 m' := by
  have hsize : memory16.maxPhysPages < 2 ^ 32 := by
    rw [memory16_max]
    norm_num
  constructor
  · rw [reserveMbiMemmap_reserves_iff _ _ _ (by decide) hsize]
    refine ⟨fun cur hcur _ => Or.inr ?_, agrees_allReserved⟩
    rw [memory16_max]
    exact lt_of_lt_of_le (by decide) (Nat.le_add_left (2 ^ 20) _)
  · rw [reserveMbiMemmap_reserves_iff _ _ _ (by decide) hsize]
    rintro ⟨_, hagrees⟩
    exact not_covered_oneReserved
      ((hagrees 0x200 (by rw [memory16_max]; norm_num) memory16_free).1 declared_oneReserved)

end Paging
