import SepplesOS.Mm.PageTree

/-!
# The boot state

`init` leaves the kernel's tree with the tables of the boot code, and the pages up to the end of the
bitmap marked used.
-/

namespace Paging

open TableForest

/-! ## The loops of `init` -/

section Boot

variable {m : Paging}

theorem foldl_phywrite (addr word : ℕ → ℕ) (n x : ℕ) :
    let m' := (List.range n).foldl (fun m i => m.phywrite (addr i) (word i)) m
    (m'.mem x = m.mem x ∧ ∀ i < n, x ≠ addr i) ∨ ∃ i < n, x = addr i ∧ m'.mem x = word i := by
  induction n with
  | zero => exact Or.inl ⟨rfl, fun i hi => absurd hi (Nat.not_lt_zero i)⟩
  | succ n ih =>
    dsimp only at ih ⊢
    rw [List.range_succ, List.foldl_append, List.foldl_cons, List.foldl_nil]
    generalize (List.range n).foldl (fun m i => m.phywrite (addr i) (word i)) m = m' at ih ⊢
    by_cases hx : x = addr n
    · subst hx
      exact Or.inr ⟨n, Nat.lt_succ_self n, rfl, Function.update_self _ _ _⟩
    · have hlast : (m'.phywrite (addr n) (word n)).mem x = m'.mem x := Function.update_of_ne hx _ _
      rw [hlast]
      rcases ih with ⟨hold, hne⟩ | ⟨i, hi, hat, hnew⟩
      · refine Or.inl ⟨hold, fun i hi => ?_⟩
        rcases Nat.lt_succ_iff_lt_or_eq.1 hi with hlt | rfl
        · exact hne i hlt
        · exact hx
      · exact Or.inr ⟨i, by omega, hat, hnew⟩

theorem foldl_phywrite_bitmap (addr word : ℕ → ℕ) (k : ℕ) :
    ((List.range k).foldl (fun m i => m.phywrite (addr i) (word i)) m).physPageBitmap =
        m.physPageBitmap ∧
      ((List.range k).foldl (fun m i => m.phywrite (addr i) (word i)) m).maxPhysPages =
        m.maxPhysPages := by
  induction k with
  | zero => exact ⟨rfl, rfl⟩
  | succ k ih =>
    rw [List.range_succ, List.foldl_append]
    exact ih

theorem foldl_markPhysPageUsed (page : ℕ → ℕ) (n : ℕ) :
    let m' := (List.range n).foldl (fun m i => m.markPhysPageUsed (page i)) m
    m'.mem = m.mem ∧ m'.maxPhysPages = m.maxPhysPages ∧
      ∀ q, m'.Used q ↔ m.Used q ∨ ∃ i < n, q = page i ∧ page i < m.maxPhysPages := by
  induction n with
  | zero => exact ⟨rfl, rfl, fun q => by simp⟩
  | succ n ih =>
    dsimp only at ih ⊢
    rw [List.range_succ, List.foldl_append, List.foldl_cons, List.foldl_nil]
    obtain ⟨hmem, hmax, hused⟩ := ih
    refine ⟨(markPhysPageUsed_mem _).trans hmem, (markPhysPageUsed_max _).trans hmax, fun q => ?_⟩
    rw [used_markPhysPageUsed, hused, hmax]
    constructor
    · rintro ((h | ⟨i, hi, h⟩) | h)
      · exact Or.inl h
      · exact Or.inr ⟨i, by omega, h⟩
      · exact Or.inr ⟨n, by omega, h⟩
    · rintro (h | ⟨i, hi, h⟩)
      · exact Or.inl (Or.inl h)
      · rcases Nat.lt_succ_iff_lt_or_eq.1 hi with hlt | rfl
        · exact Or.inl (Or.inr ⟨i, hlt, h⟩)
        · exact Or.inr h

variable (mem : ℕ → ℕ) (bitmap : ℕ → BitVec 8) (availableMem : ℕ)

theorem init_max : (init mem bitmap availableMem).maxPhysPages = unitsOf availableMem PAGESIZE := by
  unfold init
  dsimp only
  rw [(foldl_markPhysPageUsed _ _).2.1, (foldl_markPhysPageUsed _ _).2.1]
  generalize bitmapPages (unitsOf availableMem PAGESIZE) = n
  induction n with
  | zero => rfl
  | succ n ih =>
    rw [List.range_succ, List.foldl_append]
    exact ih

theorem init_mem (x : ℕ) :
    ((init mem bitmap availableMem).mem x = mem x ∧
      ∀ i < bitmapPages (unitsOf availableMem PAGESIZE),
        x ≠ PT0_ADDR + (FREE_PAGES_START / PAGESIZE + i) * 8) ∨
    ∃ i < bitmapPages (unitsOf availableMem PAGESIZE),
      x = PT0_ADDR + (FREE_PAGES_START / PAGESIZE + i) * 8 ∧
      (init mem bitmap availableMem).mem x = (FREE_PAGES_START + i * PAGESIZE) ||| 0b11 := by
  unfold init
  dsimp only
  rw [(foldl_markPhysPageUsed _ _).1, (foldl_markPhysPageUsed _ _).1]
  exact foldl_phywrite _ _ _ x

theorem init_low (page : ℕ) (low : page < (init mem bitmap availableMem).reservedPages)
    (room : page < (init mem bitmap availableMem).maxPhysPages) :
    (init mem bitmap availableMem).Used page := by
  unfold reservedPages at low
  rw [init_max] at low room
  unfold init
  dsimp only
  rw [(foldl_markPhysPageUsed _ _).2.2, (foldl_markPhysPageUsed _ _).2.2,
    (foldl_markPhysPageUsed _ _).2.1]
  have hroom := room
  rw [← init_max mem bitmap] at hroom
  unfold init at hroom
  dsimp only at hroom
  rw [(foldl_markPhysPageUsed _ _).2.1, (foldl_markPhysPageUsed _ _).2.1] at hroom
  by_cases hbitmap : page < FREE_PAGES_START / PAGESIZE
  · exact Or.inr ⟨page, hbitmap, rfl, hroom⟩
  · refine Or.inl (Or.inr ⟨page - FREE_PAGES_START / PAGESIZE, by omega, by omega, ?_⟩)
    rw [show FREE_PAGES_START / PAGESIZE + (page - FREE_PAGES_START / PAGESIZE) = page by omega]
    exact hroom

/-! ## The tables of the boot code -/

variable (ram : ℕ → ℕ)

theorem init_phyread (x : ℕ) (slot : x ≠ TMPMAP_PTE)
    (below : x < PT0_ADDR + FREE_PAGES_START / PAGESIZE * 8) :
    (init (bootMem ram) bitmap availableMem).phyread x = bootMem ram x := by
  rw [phyread, if_neg slot]
  rcases init_mem (bootMem ram) bitmap availableMem x with ⟨hsame, -⟩ | ⟨i, -, rfl, -⟩
  · exact hsame
  · omega

theorem init_child (k : ℕ) (hk : k = 1 ∨ k = 2 ∨ k = 3) (i : ℕ) :
    (init (bootMem ram) bitmap availableMem).child (k * PAGESIZE) i =
      if i = 0 then some ((k + 1) * PAGESIZE) else none := by
  by_cases hi : i < 512
  · have hread : (init (bootMem ram) bitmap availableMem).phyread (k * PAGESIZE + i * 8) =
        if i = 0 then (k + 1) * PAGESIZE ||| 0b11 else 0 := by
      have hpage : pageOf (k * PAGESIZE + i * 8) = k * PAGESIZE := by
        show k * 4096 + i * 8 - (k * 4096 + i * 8) % 4096 = k * 4096
        omega
      have hfirst : k * PAGESIZE + i * 8 = k * PAGESIZE ↔ i = 0 := by omega
      rw [init_phyread]
      · unfold bootMem
        rw [hpage]
        rcases hk with rfl | rfl | rfl
        · rw [if_pos (by decide)]
          exact if_congr hfirst rfl rfl
        · rw [if_neg (by decide), if_pos (by decide)]
          exact if_congr hfirst rfl rfl
        · rw [if_neg (by decide), if_neg (by decide), if_pos (by decide)]
          exact if_congr hfirst rfl rfl
      · show k * 4096 + i * 8 ≠ 0x4038
        omega
      · show k * 4096 + i * 8 < 0x4800
        omega
    unfold child
    rw [hread]
    by_cases hzero : i = 0
    · rw [if_pos hzero, if_pos hzero, if_pos ⟨hi, present_or_odd _ _ (by decide)⟩,
        pageOf_or (Nat.mul_mod_left _ _) (by decide)]
    · rw [if_neg hzero, if_neg hzero, if_neg fun h => not_present_zero h.2]
  · unfold child
    rw [if_neg fun h => hi h.1, if_neg (by omega)]

/-- Page table 0 maps pages up to the end of the bitmap only. -/
theorem init_child_PT0 (i f : ℕ)
    (h : (init (bootMem ram) bitmap availableMem).child PT0_ADDR i = some f) :
    f / PAGESIZE < (init (bootMem ram) bitmap availableMem).reservedPages := by
  have hreserved := reserved_le (m := init (bootMem ram) bitmap availableMem)
  obtain ⟨hi, hpresent, rfl⟩ := child_some h
  by_cases hslot : PT0_ADDR + i * 8 = TMPMAP_PTE
  · rw [hslot, phyread, if_pos rfl]
    exact lt_of_lt_of_le (by decide) hreserved
  · rw [phyread, if_neg hslot] at hpresent ⊢
    rcases init_mem (bootMem ram) bitmap availableMem (PT0_ADDR + i * 8) with
      ⟨hsame, -⟩ | ⟨j, hj, -, hword⟩
    · rw [hsame] at hpresent ⊢
      have hpage : pageOf (PT0_ADDR + i * 8) = PT0_ADDR := by
        show 0x4000 + i * 8 - (0x4000 + i * 8) % 4096 = 0x4000
        omega
      have hindex : (PT0_ADDR + i * 8 - PT0_ADDR) / 8 = i := by omega
      unfold bootMem at hpresent ⊢
      rw [hpage, if_neg (by decide), if_neg (by decide), if_neg (by decide), if_pos rfl] at hpresent ⊢
      dsimp only at hpresent ⊢
      rw [hindex] at hpresent ⊢
      split_ifs at hpresent ⊢ with hlow hvga
      · rw [pageOf_or (Nat.mul_mod_left _ _) (by decide), mul_div_page]
        exact lt_of_lt_of_le (show i < 0x100 by omega) hreserved
      · exact lt_of_lt_of_le (by decide) hreserved
      · exact absurd hpresent not_present_zero
    · rw [hword, show FREE_PAGES_START + j * PAGESIZE = (FREE_PAGES_START / PAGESIZE + j) * PAGESIZE by
        rw [Nat.add_mul]; rfl, pageOf_or (Nat.mul_mod_left _ _) (by decide), mul_div_page]
      unfold reservedPages
      rw [init_max]
      omega

theorem init_walk {p : List ℕ} {f : ℕ} (short : p.length ≤ 4)
    (hf : walk (init (bootMem ram) bitmap availableMem).child PML4_ADDR p = some f) :
    bootFrame p = some f ∨
      p.length = 4 ∧ f / PAGESIZE < (init (bootMem ram) bitmap availableMem).reservedPages := by
  have h₁ := init_child bitmap availableMem ram 1 (by decide)
  have h₂ := init_child bitmap availableMem ram 2 (by decide)
  have h₃ := init_child bitmap availableMem ram 3 (by decide)
  have h₄ := init_child_PT0 bitmap availableMem ram
  generalize init (bootMem ram) bitmap availableMem = m at h₁ h₂ h₃ h₄ hf ⊢
  change ∀ i, m.child PML4_ADDR i = if i = 0 then some PDPT0_ADDR else none at h₁
  change ∀ i, m.child PDPT0_ADDR i = if i = 0 then some PD0_ADDR else none at h₂
  change ∀ i, m.child PD0_ADDR i = if i = 0 then some PT0_ADDR else none at h₃
  match p, short with
  | [], _ => exact Or.inl hf
  | [i], _ =>
    simp only [walk_cons, walk_nil, h₁] at hf
    split_ifs at hf with hi
    · subst hi
      exact Or.inl hf
    · cases hf
  | [i, j], _ =>
    simp only [walk_cons, walk_nil, h₁] at hf
    split_ifs at hf with hi
    · simp only [Option.bind_some, h₂] at hf
      split_ifs at hf with hj
      · subst hi hj
        exact Or.inl hf
      · cases hf
    · cases hf
  | [i, j, k], _ =>
    simp only [walk_cons, walk_nil, h₁] at hf
    split_ifs at hf with hi
    · simp only [Option.bind_some, h₂] at hf
      split_ifs at hf with hj
      · simp only [Option.bind_some, h₃] at hf
        split_ifs at hf with hk
        · subst hi hj hk
          exact Or.inl hf
        · cases hf
      · cases hf
    · cases hf
  | [i, j, k, l], _ =>
    simp only [walk_cons, walk_nil, h₁] at hf
    split_ifs at hf with hi
    · simp only [Option.bind_some, h₂] at hf
      split_ifs at hf with hj
      · simp only [Option.bind_some, h₃] at hf
        split_ifs at hf with hk
        · simp only [Option.bind_some, Option.bind_fun_some] at hf
          exact Or.inr ⟨rfl, h₄ l f hf⟩
        · cases hf
      · cases hf
    · cases hf

/-- The boot state has the kernel's tree only. -/
theorem init_trees : PageTrees (init (bootMem ram) bitmap availableMem) ∅ := by
  have h₁ := init_child bitmap availableMem ram 1 (by decide)
  have h₂ := init_child bitmap availableMem ram 2 (by decide)
  have h₃ := init_child bitmap availableMem ram 3 (by decide)
  have hboot := fun p f => @init_walk bitmap availableMem ram p f
  generalize hm : init (bootMem ram) bitmap availableMem = m at h₁ h₂ h₃ hboot
  change ∀ i, m.child PML4_ADDR i = if i = 0 then some PDPT0_ADDR else none at h₁
  change ∀ i, m.child PDPT0_ADDR i = if i = 0 then some PD0_ADDR else none at h₂
  change ∀ i, m.child PD0_ADDR i = if i = 0 then some PT0_ADDR else none at h₃
  have hkernel : ∀ {r p}, Pos ∅ r p → r = PML4_ADDR := fun hp =>
    hp.root.resolve_right (Set.notMem_empty _)
  constructor
  case apart => exact Set.notMem_empty _
  case boot =>
    intro p f hp
    unfold bootFrame at hp
    split at hp
    case h_1 => exact hp
    case h_2 => simpa [walk_cons, h₁] using hp
    case h_3 => simpa [walk_cons, h₁, h₂] using hp
    case h_4 => simpa [walk_cons, h₁, h₂, h₃] using hp
    case h_5 => cases hp
  case shared => exact fun d hd => absurd hd (Set.notMem_empty d)
  case top =>
    rintro r i f (rfl | hr) h
    · rw [h₁] at h
      split_ifs at h with hi
      exact hi
    · exact absurd hr (Set.notMem_empty r)
  case low =>
    rw [← hm]
    exact fun page => init_low _ _ _ page
  case owned =>
    intro r p f hp hf
    obtain rfl := hkernel hp
    exact Or.inr ⟨rfl, hboot p f hp.1 hf⟩
  case sep =>
    intro r p r' p' f hp hp' hf _ hmanaged
    obtain rfl := hkernel hp
    exact absurd ⟨rfl, hboot p f hp.1 hf⟩ hmanaged.not_boot

end Boot

end Paging
