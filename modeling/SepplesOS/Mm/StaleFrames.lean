import SepplesOS.Mm.FrameOwnership

/-!
# What a new page holds

Two states that differ in the contents of free frames only (`Agree`) take the same way through
`mapPage`: the tables it makes are zeroed, so that they agree as soon as they are in use.  The frame
of the page itself is not zeroed.  It still holds in each state what it held before the call.
-/

namespace Paging

open TableForest

/-- The page is marked used, or the bitmap says nothing of it. -/
def InUse (m : Paging) (page : ℕ) : Prop := m.Used page ∨ m.maxPhysPages ≤ page

/-- The states agree on everything but the contents of the free frames. -/
structure Agree (m n : Paging) : Prop where
  bitmap : n.physPageBitmap = m.physPageBitmap
  max : n.maxPhysPages = m.maxPhysPages
  mem : ∀ a, m.InUse (a / PAGESIZE) → n.mem a = m.mem a

section Agree

variable {m n m' n' : Paging}

theorem Agree.used (h : Agree m n) (page : ℕ) : n.Used page ↔ m.Used page := by
  unfold Used
  rw [h.bitmap]

theorem Agree.inUse (h : Agree m n) (page : ℕ) : n.InUse page ↔ m.InUse page := by
  unfold InUse
  rw [h.used, h.max]

theorem Agree.phyread (h : Agree m n) {a : ℕ} (used : m.InUse (a / PAGESIZE)) :
    n.phyread a = m.phyread a := by
  unfold Paging.phyread
  rw [h.mem a used]

theorem freePage_congr (bitmap : n.physPageBitmap = m.physPageBitmap) (k byte : ℕ) :
    n.freePage k byte = m.freePage k byte := by
  induction k generalizing byte with
  | zero => rfl
  | succ k ih => rw [freePage, freePage, bitmap, ih]

theorem getFreePhysPage_congr (bitmap : n.physPageBitmap = m.physPageBitmap)
    (max : n.maxPhysPages = m.maxPhysPages) : n.getFreePhysPage = m.getFreePhysPage := by
  unfold getFreePhysPage
  rw [max, freePage_congr bitmap]

theorem markPhysPageUsed_congr (bitmap : n.physPageBitmap = m.physPageBitmap)
    (max : n.maxPhysPages = m.maxPhysPages) (page : ℕ) :
    (n.markPhysPageUsed page).physPageBitmap = (m.markPhysPageUsed page).physPageBitmap := by
  unfold markPhysPageUsed
  rw [max]
  split_ifs
  · exact bitmap
  · show Function.update n.physPageBitmap _ _ = _
    rw [bitmap]

/-- Once it is zeroed, a frame may be marked used. -/
theorem Agree.zeroed (h : Agree m n) (page : ℕ) :
    Agree ((m.markPhysPageUsed page).phyzero (page * PAGESIZE))
      ((n.markPhysPageUsed page).phyzero (page * PAGESIZE)) where
  bitmap := markPhysPageUsed_congr h.bitmap h.max page
  max := by
    show (n.markPhysPageUsed page).maxPhysPages = (m.markPhysPageUsed page).maxPhysPages
    rw [markPhysPageUsed_max, markPhysPageUsed_max, h.max]
  mem := by
    intro a hused
    replace hused : (m.markPhysPageUsed page).InUse (a / PAGESIZE) := hused
    unfold phyzero
    dsimp only
    split_ifs with hin
    · rfl
    · rw [markPhysPageUsed_mem, markPhysPageUsed_mem]
      refine h.mem a ?_
      unfold InUse at hused
      rw [used_markPhysPageUsed, markPhysPageUsed_max] at hused
      rcases hused with (hold | ⟨heq, -⟩) | hout
      · exact Or.inl hold
      · refine absurd ?_ hin
        unfold PAGESIZE at heq ⊢
        omega
      · exact Or.inr hout

theorem Agree.phywrite (h : Agree m n) (a w : ℕ) : Agree (m.phywrite a w) (n.phywrite a w) where
  bitmap := h.bitmap
  max := h.max
  mem := by
    intro b hused
    show Function.update n.mem a w b = Function.update m.mem a w b
    by_cases hb : b = a
    · rw [hb, Function.update_self, Function.update_self]
    · rw [Function.update_of_ne hb, Function.update_of_ne hb]
      exact h.mem b hused

theorem Agree.presentOrNew (h : Agree m n) {addr : ℕ} (used : m.InUse (addr / PAGESIZE))
    (flags : ℕ) :
    m.presentOrNew addr flags = none ∧ n.presentOrNew addr flags = none ∨
      ∃ entry m' n', m.presentOrNew addr flags = some (entry, m') ∧
        n.presentOrNew addr flags = some (entry, n') ∧ Agree m' n' := by
  unfold Paging.presentOrNew
  rw [h.phyread used, getFreePhysPage_congr h.bitmap h.max]
  by_cases hpresent : Present (m.phyread addr)
  · simp only [hpresent, if_true]
    exact Or.inr ⟨_, m, n, rfl, rfl, h⟩
  · by_cases hfull : m.getFreePhysPage = 0
    · simp [hpresent, hfull]
    · obtain ⟨page, hpage, -, -⟩ := getFreePhysPage_spec hfull
      have hne : page * PAGESIZE ≠ 0 := hpage ▸ hfull
      simp only [hpresent, if_false, hpage, hne, pageOf_mul, mul_div_page]
      exact Or.inr ⟨_, _, _, rfl, rfl, (h.zeroed page).phywrite _ _⟩

/-- What stays free keeps its contents. -/
theorem presentOrNew_keeps {addr flags entry a : ℕ} (used : m.InUse (addr / PAGESIZE))
    (run : m.presentOrNew addr flags = some (entry, m')) (free : ¬m'.InUse (a / PAGESIZE)) :
    m'.mem a = m.mem a := by
  rcases presentOrNew_cases run with ⟨-, -, rfl⟩ | ⟨-, page, hroom, -, -, rfl⟩
  · rfl
  · have hfree : ¬(m.markPhysPageUsed page).InUse (a / PAGESIZE) := free
    unfold InUse at hfree
    rw [used_markPhysPageUsed, markPhysPageUsed_max] at hfree
    push Not at hfree
    obtain ⟨⟨hold, hne⟩, hin⟩ := hfree
    have haddr : a ≠ addr := by
      rintro rfl
      exact used.elim hold (not_le.2 hin)
    have hpage : ¬(page * PAGESIZE ≤ a ∧ a < page * PAGESIZE + PAGESIZE) := by
      intro h
      refine absurd hroom (not_lt.2 (hne ?_))
      unfold PAGESIZE at h ⊢
      omega
    unfold phywrite phyzero
    dsimp only
    rw [Function.update_of_ne haddr, if_neg hpage, markPhysPageUsed_mem]

theorem presentOrNew_inUse {addr flags entry page : ℕ}
    (run : m.presentOrNew addr flags = some (entry, m')) (used : m.InUse page) :
    m'.InUse page := by
  rcases presentOrNew_cases run with ⟨-, -, rfl⟩ | ⟨-, new, -, -, -, rfl⟩
  · exact used
  · show (m.markPhysPageUsed new).InUse page
    unfold InUse
    rw [used_markPhysPageUsed, markPhysPageUsed_max]
    exact used.imp Or.inl id

end Agree

/-! ## Mapping a page in two states -/

/-- The words of a frame. -/
def frameWords (m : Paging) (frame : ℕ) : List ℕ :=
  (List.range 512).map fun i => m.mem (frame + i * 8)

/-- The words that can be read through the mapping of a virtual address. -/
def pageWords (m : Paging) (pml4 vaddr : ℕ) : Option (List ℕ) :=
  (walk m.child pml4 (path vaddr)).map m.frameWords

/-- The results of `mapPage` in two states `m` and `n` that agree: the fatal error in both, no page
in both, or in both the same frame, which was free and holds what it held. -/
inductive SameMapping (m n : Paging) (pml4 vaddr : ℕ) :
    Option (ℕ × Paging) → Option (ℕ × Paging) → Prop
  | fatal : SameMapping m n pml4 vaddr none none
  | unmapped {m' n' : Paging} (agree : Agree m' n') :
    SameMapping m n pml4 vaddr (some (0, m')) (some (0, n'))
  | mapped {m' n' : Paging} {frame : ℕ} (bitmap : n'.physPageBitmap = m'.physPageBitmap)
    (max : n'.maxPhysPages = m'.maxPhysPages) (aligned : frame % PAGESIZE = 0)
    (free : ¬m.InUse (frame / PAGESIZE))
    (mem : ∀ a, m'.InUse (a / PAGESIZE) → a / PAGESIZE ≠ frame / PAGESIZE → n'.mem a = m'.mem a)
    (walk : walk m'.child pml4 (path vaddr) = some frame)
    (walk' : TableForest.walk n'.child pml4 (path vaddr) = some frame)
    (kept : ∀ i < 512, m'.mem (frame + i * 8) = m.mem (frame + i * 8))
    (kept' : ∀ i < 512, n'.mem (frame + i * 8) = n.mem (frame + i * 8)) :
    SameMapping m n pml4 vaddr (some (vaddr, m')) (some (vaddr, n'))

section Mapping

variable {m n : Paging} {live : Set ℕ}

theorem PageTrees.entry_inUse (t : PageTrees m live) {r f i : ℕ} {p : List ℕ}
    (h : Interior live r p) (hwalk : walk m.child r p = some f) (lt : i < 512) :
    m.InUse ((f + i * 8) / PAGESIZE) := by
  have hpage : (f + i * 8) / PAGESIZE = f / PAGESIZE := by
    have haligned := t.table_aligned h hwalk
    unfold PAGESIZE at haligned ⊢
    omega
  rw [hpage]
  rcases t.table h hwalk with hm | ⟨-, hboot⟩
  · exact Or.inl hm.used
  · by_cases hroom : f / PAGESIZE < m.maxPhysPages
    · exact Or.inl (t.low _ ((bootFrame_low hboot).2.trans_le reserved_le) hroom)
    · exact Or.inr (not_lt.1 hroom)

theorem leaf_mem (entryAddr w page a : ℕ) (ne : a ≠ entryAddr) :
    ((m.phywrite entryAddr w).markPhysPageUsed page).mem a = m.mem a := by
  rw [markPhysPageUsed_mem]
  exact Function.update_of_ne ne _ _

/-- Two walks down the same tables, but for the contents of a frame that is no table. -/
theorem PageTrees.walk_agree {m' n' : Paging} (t : PageTrees m' live) {r frame : ℕ} {p : List ℕ}
    (place : Pos live r p) (long : p.length = 4) (hwalk : walk m'.child r p = some frame)
    (above : m'.Managed frame)
    (mem : ∀ a, m'.InUse (a / PAGESIZE) → a / PAGESIZE ≠ frame / PAGESIZE → n'.mem a = m'.mem a) :
    walk n'.child r p = some frame := by
  rw [← hwalk]
  apply walk_congr
  intro q i hq f hf
  have hin : Interior live r q := place.interior hq
  by_cases lt : i < 512
  · -- a table is not the frame at the end
    have hne : (f + i * 8) / PAGESIZE ≠ frame / PAGESIZE := by
      have haligned := t.table_aligned hin hf
      have haligned' := above.aligned
      have hdiff : f ≠ frame := by
        rintro rfl
        have := (t.sep _ _ _ _ _ hin.1 place hf hwalk above).2
        have := hin.2
        subst q
        omega
      unfold PAGESIZE at haligned haligned' ⊢
      omega
    apply child_congr
    unfold phyread
    rw [mem _ (t.entry_inUse hin hf lt) hne]
  · unfold child
    rw [if_neg fun h => lt h.1, if_neg fun h => lt h.1]

theorem word_page {frame i : ℕ} (aligned : frame % PAGESIZE = 0) (lt : i < 512) :
    (frame + i * 8) / PAGESIZE = frame / PAGESIZE := by
  unfold PAGESIZE at aligned ⊢
  omega

theorem SameMapping.before {m₁ n₁ : Paging} {pml4 vaddr : ℕ} {x y : Option (ℕ × Paging)}
    (h : SameMapping m₁ n₁ pml4 vaddr x y) (inUse : ∀ page, m.InUse page → m₁.InUse page)
    (keeps : ∀ a, ¬m₁.InUse (a / PAGESIZE) → m₁.mem a = m.mem a)
    (keeps' : ∀ a, ¬m₁.InUse (a / PAGESIZE) → n₁.mem a = n.mem a) :
    SameMapping m n pml4 vaddr x y := by
  cases h with
  | fatal => exact .fatal
  | unmapped agree => exact .unmapped agree
  | mapped bitmap max aligned free mem walk walk' kept kept' =>
    refine .mapped bitmap max aligned (fun h => free (inUse _ h)) mem walk walk' ?_ ?_
    · intro i lt
      rw [kept i lt, keeps _ (by rwa [word_page aligned lt])]
    · intro i lt
      rw [kept' i lt, keeps' _ (by rwa [word_page aligned lt])]

/-- The leaf that `mapPage` writes in two states that agree: the frame itself is written nowhere. -/
theorem mapLeaf_agree (t : PageTrees m live) (agree : Agree m n) {vaddr flags pml4 f page : ℕ}
    {q : List ℕ} (leaf : q.length = 3) (hpath : path vaddr = q ++ [index vaddr 12])
    (hin : Interior live pml4 q) (htable : walk m.child pml4 q = some f)
    (place : Pos live pml4 (path vaddr)) (small : flags < PAGESIZE)
    (absent : m.child f (index vaddr 12) = none) (free : ¬m.Used page)
    (room : page < m.maxPhysPages) :
    SameMapping m n pml4 vaddr
      (some (vaddr, (m.phywrite (f + index vaddr 12 * 8) (page * PAGESIZE |||
        (PAGE_ATTR_PRESENT ||| PAGE_ATTR_WRITE ||| flags))).markPhysPageUsed page))
      (some (vaddr, (n.phywrite (f + index vaddr 12 * 8) (page * PAGESIZE |||
        (PAGE_ATTR_PRESENT ||| PAGE_ATTR_WRITE ||| flags))).markPhysPageUsed page)) := by
  have hused := t.entry_inUse hin htable (index_lt vaddr 12)
  have hunused : ¬m.InUse page := not_or.2 ⟨free, not_le.2 room⟩
  have hung := hung_leaf t hin htable (index_lt _ _) small absent free room leaf
  rw [hpath] at place
  have t' := t.hung hung place htable absent (by
    rintro rfl
    simp at leaf)
  classical
  have hleaf := t.walk_hung hung place htable absent place
  rw [if_pos ⟨rfl, rfl⟩] at hleaf
  have hmanaged := (hung.grows t place htable absent).managed t t' place hleaf (by
    rw [walk_concat, htable]
    exact absent)
  have hwrite := agree.phywrite (f + index vaddr 12 * 8)
    (page * PAGESIZE ||| (PAGE_ATTR_PRESENT ||| PAGE_ATTR_WRITE ||| flags))
  have hapart (i : ℕ) (lt : i < 512) : page * PAGESIZE + i * 8 ≠ f + index vaddr 12 * 8 := by
    intro heq
    rw [← heq, word_page (Nat.mul_mod_left _ _) lt, mul_div_page] at hused
    exact hunused hused
  generalize page * PAGESIZE ||| (PAGE_ATTR_PRESENT ||| PAGE_ATTR_WRITE ||| flags) = w at *
  have hmem : ∀ a, ((m.phywrite (f + index vaddr 12 * 8) w).markPhysPageUsed page).InUse
      (a / PAGESIZE) → a / PAGESIZE ≠ page * PAGESIZE / PAGESIZE →
      ((n.phywrite (f + index vaddr 12 * 8) w).markPhysPageUsed page).mem a =
        ((m.phywrite (f + index vaddr 12 * 8) w).markPhysPageUsed page).mem a := by
    intro a hin hdiff
    rw [mul_div_page] at hdiff
    rw [markPhysPageUsed_mem, markPhysPageUsed_mem]
    refine hwrite.mem a ?_
    unfold InUse at hin
    rw [used_markPhysPageUsed, markPhysPageUsed_max] at hin
    exact hin.imp_left fun h => h.resolve_right fun heq => hdiff heq.1
  refine .mapped (markPhysPageUsed_congr hwrite.bitmap hwrite.max page) ?_
    (Nat.mul_mod_left page PAGESIZE) ?_ hmem ?_ ?_ ?_ ?_
  · rw [markPhysPageUsed_max, markPhysPageUsed_max]
    exact agree.max
  · rwa [mul_div_page]
  · rw [hpath]
    exact hleaf
  · rw [hpath]
    exact t'.walk_agree place (by simp [leaf]) hleaf hmanaged hmem
  · exact fun i lt => leaf_mem _ _ _ _ (hapart i lt)
  · exact fun i lt => leaf_mem _ _ _ _ (hapart i lt)

theorem SameMapping.presentOrNew {m₁ n₁ : Paging} {pml4 vaddr addr flags entry : ℕ}
    {x y : Option (ℕ × Paging)} (h : SameMapping m₁ n₁ pml4 vaddr x y) (agree : Agree m n)
    (used : m.InUse (addr / PAGESIZE)) (run : m.presentOrNew addr flags = some (entry, m₁))
    (run' : n.presentOrNew addr flags = some (entry, n₁)) (agree₁ : Agree m₁ n₁) :
    SameMapping m n pml4 vaddr x y := by
  refine h.before (fun page => presentOrNew_inUse run) (fun a => presentOrNew_keeps used run)
    fun a free => presentOrNew_keeps ((agree.inUse _).2 used) run' ?_
  rwa [agree₁.inUse]

/-- `mapPage` of a user address in two states that agree. -/
theorem mapPageAt_agree (flags : ℕ) (t : PageTrees m live) (agree : Agree m n) {vaddr pml4 : ℕ}
    (root : pml4 = PML4_ADDR ∨ pml4 ∈ live) (user : USER_OFFSET ≤ vaddr) (low : vaddr < 2 ^ 39) :
    SameMapping m n pml4 vaddr (m.mapPageAt vaddr 0 flags pml4)
      (n.mapPageAt vaddr 0 flags pml4) := by
  have howner : owner vaddr pml4 = pml4 := if_neg (user_index user low)
  have hsmall := attrs_small flags
  have hshort (p : List ℕ) (hp : p.length ≤ 1) : Interior live pml4 p := by
    have hshared : ¬[0, 0] <+: p := fun h => absurd h.length_le (by simp; omega)
    have hslot : p ≠ [0, 0, 0, 7] := by
      rintro rfl
      simp at hp
    exact ⟨⟨by omega, root.imp (fun h => ⟨h, hslot⟩) (fun h => ⟨h, hshared⟩)⟩, by omega⟩
  unfold mapPageAt
  simp only [index_top low]
  rw [agree.phyread (t.entry_inUse (hshort [] (by simp)) (walk_nil _ _) (by decide : 0 < 512))]
  by_cases htop : Present (m.phyread (pml4 + 0 * 8))
  · simp only [htop, if_true]
    have first := child_of_present (by decide) htop
    generalize flags &&& 0xFFF = flags at hsmall ⊢
    -- the page directory
    have hwalk₁ : walk m.child pml4 [0] = some (pageOf (m.phyread (pml4 + 0 * 8))) := by
      rw [walk_cons, first]
      rfl
    have used₁ := t.entry_inUse (hshort [0] (by simp)) hwalk₁ (index_lt vaddr 30)
    rcases agree.presentOrNew used₁ flags with ⟨hm, hn⟩ | ⟨PDPTentry, m₁, n₁, hm₁, hn₁, agree₁⟩
    · rw [hm, hn]
      exact .fatal
    rw [hm₁, hn₁]
    refine SameMapping.presentOrNew ?_ agree used₁ hm₁ hn₁ agree₁
    dsimp only
    obtain ⟨adds₁, hdir⟩ := pageDirectory_spec t root first hsmall hm₁
    have t₁ := adds₁.trees hsmall t
    rw [howner] at hdir
    -- the page table
    have place₁ : Pos live pml4 [0, index vaddr 30] := by
      have h : Pos live (owner vaddr pml4) [0, index vaddr 30] :=
        owner_pos root (by simp) fun _ => by simp
      rwa [howner] at h
    have used₂ := t₁.entry_inUse ⟨place₁, by simp⟩ hdir (index_lt vaddr 21)
    rcases agree₁.presentOrNew used₂ flags with ⟨hm, hn⟩ | ⟨PDentry, m₂, n₂, hm₂, hn₂, agree₂⟩
    · rw [hm, hn]
      exact .fatal
    rw [hm₂, hn₂]
    refine SameMapping.presentOrNew ?_ agree₁ used₂ hm₂ hn₂ agree₂
    dsimp only
    have place₂ : Pos live pml4 ([0, index vaddr 30] ++ [index vaddr 21]) := by
      have h : Pos live (owner vaddr pml4) [0, index vaddr 30, index vaddr 21] :=
        owner_pos root (by simp) fun _ => by simp
      rwa [howner] at h
    obtain ⟨adds₂, htable⟩ :=
      presentOrNew_spec t₁ (by simp) (by simp) place₂ hdir (index_lt _ _) hsmall hm₂
    have t₂ := adds₂.trees hsmall t₁
    -- the leaf
    have hin : Interior live pml4 ([0, index vaddr 30] ++ [index vaddr 21]) := ⟨place₂, by simp⟩
    rw [agree₂.phyread (t₂.entry_inUse hin htable (index_lt vaddr 12)),
      getFreePhysPage_congr agree₂.bitmap agree₂.max]
    by_cases hpresent : Present (m₂.phyread (pageOf PDentry + index vaddr 12 * 8))
    · simp only [hpresent, if_true]
      exact .unmapped agree₂
    by_cases hfull : m₂.getFreePhysPage = 0
    · simp only [hpresent, if_false, if_true, hfull]
      exact .unmapped agree₂
    obtain ⟨page, hpage, hroom, hfree⟩ := getFreePhysPage_spec hfull
    have hne : page * PAGESIZE ≠ 0 := hpage ▸ hfull
    simp only [hpresent, if_false, hpage, hne, pageOf_mul, mul_div_page]
    have absent := child_of_not_present hpresent
    have hpath : path vaddr = ([0, index vaddr 30] ++ [index vaddr 21]) ++ [index vaddr 12] :=
      path_of_first (index_top low)
    have place : Pos live pml4 (path vaddr) := by
      have h : Pos live (owner vaddr pml4) [0, index vaddr 30, index vaddr 21, index vaddr 12] :=
        owner_pos root (by simp) fun hkernel =>
          t₂.leaf_ne_slot htable (index_lt _ _) absent (howner ▸ hkernel)
      rw [howner] at h
      rw [hpath]
      exact h
    exact mapLeaf_agree t₂ agree₂ rfl hpath hin htable place hsmall absent hfree hroom
  · simp only [htop, if_false]
    exact .fatal

end Mapping

end Paging

/-! ## Boot states and new directories -/

namespace Paging

section Boot

variable {m n : Paging}

theorem Agree.plantedPages (h : Agree m n) (d f w w' : ℕ) :
    Agree ((((((m.markPhysPageUsed d).markPhysPageUsed f).phyzero (d * PAGESIZE)).phywrite
        (d * PAGESIZE) w).phyzero (f * PAGESIZE)).phywrite (f * PAGESIZE) w')
      ((((((n.markPhysPageUsed d).markPhysPageUsed f).phyzero (d * PAGESIZE)).phywrite
        (d * PAGESIZE) w).phyzero (f * PAGESIZE)).phywrite (f * PAGESIZE) w') where
  bitmap := by
    refine markPhysPageUsed_congr (markPhysPageUsed_congr h.bitmap h.max d) ?_ f
    rw [markPhysPageUsed_max, markPhysPageUsed_max, h.max]
  max := by
    show ((n.markPhysPageUsed d).markPhysPageUsed f).maxPhysPages =
      ((m.markPhysPageUsed d).markPhysPageUsed f).maxPhysPages
    rw [markPhysPageUsed_max, markPhysPageUsed_max, markPhysPageUsed_max, markPhysPageUsed_max,
      h.max]
  mem := by
    intro a hused
    replace hused : ((m.markPhysPageUsed d).markPhysPageUsed f).InUse (a / PAGESIZE) := hused
    unfold InUse at hused
    simp only [used_markPhysPageUsed, markPhysPageUsed_max] at hused
    unfold Paging.phywrite Paging.phyzero
    simp only [Function.update_apply, markPhysPageUsed_mem]
    split_ifs with h₁ h₂ h₃ h₄
    · rfl
    · rfl
    · rfl
    · rfl
    · have hd : a / PAGESIZE ≠ d := by unfold PAGESIZE at *; omega
      have hf : a / PAGESIZE ≠ f := by unfold PAGESIZE at *; omega
      refine h.mem a (hused.imp_left fun hmarked => ?_)
      exact (hmarked.resolve_right fun heq => hf heq.1).resolve_right fun heq => hd heq.1

/-- A new directory does not depend on what the free frames hold. -/
theorem Agree.createPageDir (h : Agree m n) : n.createPageDir.1 = m.createPageDir.1 ∧
    Agree m.createPageDir.2 n.createPageDir.2 := by
  unfold Paging.createPageDir
  rw [getFreePhysPage_congr h.bitmap h.max]
  by_cases hfull : m.getFreePhysPage = 0
  · simp only [hfull, if_true]
    exact ⟨trivial, h⟩
  · obtain ⟨d, hd, hroom, hfree⟩ := getFreePhysPage_spec hfull
    have hzero : d * PAGESIZE ≠ 0 := hd ▸ hfull
    have hmax : (n.markPhysPageUsed d).maxPhysPages = (m.markPhysPageUsed d).maxPhysPages := by
      rw [markPhysPageUsed_max, markPhysPageUsed_max, h.max]
    simp only [hd, hzero, if_false, markPhysPageUsedAddr, markPhysPageFreeAddr, mul_div_page]
    rw [getFreePhysPage_congr (markPhysPageUsed_congr h.bitmap h.max d) hmax]
    by_cases hfull' : (m.markPhysPageUsed d).getFreePhysPage = 0
    · have hfree' : ¬n.Used d := by rwa [h.used]
      simp only [hfull', if_true, markPhysPageFree_used d hfree, markPhysPageFree_used d hfree']
      exact ⟨trivial, h⟩
    · obtain ⟨f, hf, -, -⟩ := getFreePhysPage_spec hfull'
      have hzero' : f * PAGESIZE ≠ 0 := hf ▸ hfull'
      simp only [hf, hzero', if_false, mul_div_page]
      exact ⟨trivial, h.plantedPages d f _ _⟩

theorem foldl_markPhysPageUsed_congr (page : ℕ → ℕ) (k : ℕ)
    (bitmap : n.physPageBitmap = m.physPageBitmap) (max : n.maxPhysPages = m.maxPhysPages) :
    ((List.range k).foldl (fun m i => m.markPhysPageUsed (page i)) n).physPageBitmap =
      ((List.range k).foldl (fun m i => m.markPhysPageUsed (page i)) m).physPageBitmap := by
  induction k with
  | zero => exact bitmap
  | succ k ih =>
    rw [List.range_succ, List.foldl_append, List.foldl_append]
    refine markPhysPageUsed_congr ih ?_ _
    rw [(foldl_markPhysPageUsed page k).2.1, (foldl_markPhysPageUsed page k).2.1, max]

theorem agree_init (ram ram' : ℕ → ℕ) (bitmap : ℕ → BitVec 8) (availableMem : ℕ)
    (same : ∀ a, (init (bootMem ram) bitmap availableMem).InUse (a / PAGESIZE) → ram' a = ram a) :
    Agree (init (bootMem ram) bitmap availableMem) (init (bootMem ram') bitmap availableMem) where
  bitmap := by
    unfold init
    dsimp only
    refine foldl_markPhysPageUsed_congr _ _ (foldl_markPhysPageUsed_congr _ _ ?_ ?_) ?_
    · simp only [(foldl_phywrite_bitmap _ _ _).1]
    · simp only [(foldl_phywrite_bitmap _ _ _).2]
    · rw [(foldl_markPhysPageUsed _ _).2.1, (foldl_markPhysPageUsed _ _).2.1]
      simp only [(foldl_phywrite_bitmap _ _ _).2]
  max := by rw [init_max, init_max]
  mem := by
    intro a hused
    have hboot : bootMem ram' a = bootMem ram a := by
      unfold bootMem
      rw [same a hused]
    rcases init_mem (bootMem ram) bitmap availableMem a with ⟨hsame, hne⟩ | ⟨i, hi, hat, hnew⟩ <;>
      rcases init_mem (bootMem ram') bitmap availableMem a with ⟨hsame', hne'⟩ | ⟨j, hj, hat', hnew'⟩
    · rw [hsame, hsame', hboot]
    · exact absurd hat' (hne j hj)
    · exact absurd hat (hne' i hi)
    · rw [hnew, hnew', show i = j by omega]

end Boot

end Paging

namespace PagingState

open Paging

/-- Whatever free frames hold, `mapPage` of a user address takes the same way: the same result, the
same bitmap, the same tables and the same frame.  What can be read through the mapping is what that
frame held before. -/
theorem mapPage_reveals {availableMem : ℕ} {s : PagingState} {n : Paging} {vaddr pml4 : ℕ}
    (reach : Reachable availableMem s) (root : s.Root pml4) (agree : Agree s.m n)
    (user : USER_OFFSET ≤ vaddr) (below : vaddr < USER_STACK) :
    SameMapping s.m n pml4 vaddr (s.m.mapPage vaddr 0 PAGE_ATTR_USER pml4)
        (n.mapPage vaddr 0 PAGE_ATTR_USER pml4) ∧
      ∀ w m', s.m.mapPage vaddr 0 PAGE_ATTR_USER pml4 = some (w, m') → w ≠ 0 →
        ∃ frame n', n.mapPage vaddr 0 PAGE_ATTR_USER pml4 = some (w, n') ∧
          ¬s.m.InUse (frame / PAGESIZE) ∧
          pageWords m' pml4 vaddr = some (s.m.frameWords frame) ∧
          pageWords n' pml4 vaddr = some (n.frameWords frame) := by
  have low : vaddr < 2 ^ 39 := by
    unfold USER_STACK at below
    omega
  have hne : vaddr ≠ 0 := by
    unfold USER_OFFSET at user
    omega
  have hsame := mapPageAt_agree PAGE_ATTR_USER (inv_reachable reach).trees agree root user low
  unfold mapPage
  rw [if_neg hne, if_neg hne]
  refine ⟨hsame, fun w m' hrun hw => ?_⟩
  rw [hrun] at hsame
  generalize n.mapPageAt vaddr 0 PAGE_ATTR_USER pml4 = y at hsame ⊢
  cases hsame with
  | unmapped => exact absurd rfl hw
  | @mapped _ n' frame bitmap max aligned free mem walk walk' kept kept' =>
    refine ⟨frame, n', rfl, free, ?_, ?_⟩
    · rw [pageWords, walk]
      exact congrArg some (List.map_congr_left fun i hi => kept i (List.mem_range.1 hi))
    · rw [pageWords, walk']
      exact congrArg some (List.map_congr_left fun i hi => kept' i (List.mem_range.1 hi))

/-- The boot state with 16 megabytes of memory whose only nonzero word lies in a free frame. -/
def bootWith (word : ℕ) : PagingState :=
  boot (fun a => if a = 0x105000 then word else 0) (fun _ => 0) 0x1000000

theorem boot_m (ram : ℕ → ℕ) (bitmap : ℕ → BitVec 8) (availableMem : ℕ) :
    (boot ram bitmap availableMem).m = init (bootMem ram) bitmap availableMem := by
  rw [boot]

/-- The state after `createPageDir`. -/
def created (s : PagingState) : PagingState :=
  ⟨s.m.createPageDir.2, {d | d ∈ s.live ∨ d = s.m.createPageDir.1 ∧ d ≠ 0}, s.mapped⟩

theorem reachable_created {availableMem : ℕ} {s : PagingState} (reach : Reachable availableMem s) :
    Reachable availableMem s.created :=
  reach.step .createPageDir

theorem root_created {s : PagingState} {d : ℕ} (dir : s.m.createPageDir.1 = d) (ne : d ≠ 0) :
    s.created.Root d :=
  Or.inr (Or.inr ⟨dir.symm, ne⟩)

theorem reachable_bootWith (word : ℕ) : Reachable 0x1000000 (bootWith word) := .boot _ _

theorem bootWith_dir : (bootWith 0).m.createPageDir.1 = 0x101000 := by decide +kernel

theorem agree_bootWith (word : ℕ) : Agree (bootWith 0).m (bootWith word).m := by
  have hfree : ¬(bootWith 0).m.InUse (0x105000 / PAGESIZE) := by
    unfold InUse
    decide +kernel
  unfold bootWith at *
  rw [boot_m] at hfree ⊢
  rw [boot_m]
  generalize 0x1000000 = availableMem at hfree ⊢
  refine agree_init _ _ _ _ fun a hused => ?_
  by_cases ha : a = 0x105000
  · rw [ha] at hused
    exact absurd hused hfree
  · rw [if_neg ha, if_neg ha]

theorem mapPage_bootWith :
    ((bootWith 0).created.m.mapPage 0x40000000 0 PAGE_ATTR_USER 0x101000).map (fun x =>
        (x.1, (pageWords x.2 0x101000 0x40000000).map List.head?)) =
      some (0x40000000, some (some 0)) ∧
    ((bootWith 1).created.m.mapPage 0x40000000 0 PAGE_ATTR_USER 0x101000).map (fun x =>
        (x.1, (pageWords x.2 0x101000 0x40000000).map List.head?)) =
      some (0x40000000, some (some 1)) := by
  decide +kernel

/-- What the frame of a new page held can be read. -/
theorem mapPage_stale : ¬∀ (availableMem : ℕ) (s s' : PagingState) (vaddr pml4 : ℕ),
    Reachable availableMem s → Reachable availableMem s' → s.Root pml4 → s'.Root pml4 →
      Agree s.m s'.m → USER_OFFSET ≤ vaddr → vaddr < USER_STACK → ∀ w w' m m',
        s.m.mapPage vaddr 0 PAGE_ATTR_USER pml4 = some (w, m) →
        s'.m.mapPage vaddr 0 PAGE_ATTR_USER pml4 = some (w', m') →
          w = w' ∧ (w ≠ 0 → pageWords m pml4 vaddr = pageWords m' pml4 vaddr) := by
  intro h
  have hwords := mapPage_bootWith
  have hdir := bootWith_dir
  have hagree := agree_bootWith 1
  have reach := reachable_bootWith 0
  have reach' := reachable_bootWith 1
  generalize bootWith 0 = s at hwords hdir hagree reach
  generalize bootWith 1 = s' at hwords hagree reach'
  obtain ⟨hword, hword'⟩ := hwords
  obtain ⟨⟨w, m⟩, hrun, hm⟩ := Option.map_eq_some_iff.1 hword
  obtain ⟨⟨w', m'⟩, hrun', hm'⟩ := Option.map_eq_some_iff.1 hword'
  obtain ⟨rfl, hm⟩ := Prod.mk.inj hm
  obtain ⟨rfl, hm'⟩ := Prod.mk.inj hm'
  have hsame := (h _ _ _ _ _ (reachable_created reach) (reachable_created reach')
    (root_created hdir (by decide)) (root_created (hagree.createPageDir.1.trans hdir) (by decide))
    hagree.createPageDir.2 (by decide) (by decide) _ _ _ _ hrun hrun').2 (by decide)
  rw [hsame, hm'] at hm
  simp at hm

/-- The first user page of the first directory, whatever the free frames hold. -/
theorem mapPage_reveals_bootWith : ∃ frame m', (bootWith 1).created.m.mapPage 0x40000000 0
      PAGE_ATTR_USER 0x101000 = some (0x40000000, m') ∧
    pageWords m' 0x101000 0x40000000 = some ((bootWith 1).created.m.frameWords frame) := by
  have hwords := mapPage_bootWith.1
  have hdir := bootWith_dir
  have hagree := agree_bootWith 1
  have reach := reachable_bootWith 0
  generalize bootWith 0 = s at hwords hdir hagree reach
  generalize bootWith 1 = s' at hagree ⊢
  obtain ⟨⟨w, m⟩, hrun, hm⟩ := Option.map_eq_some_iff.1 hwords
  obtain ⟨rfl, hm⟩ := Prod.mk.inj hm
  obtain ⟨frame, m', hrun', -, -, hread⟩ := (mapPage_reveals (reachable_created reach)
    (root_created hdir (by decide)) hagree.createPageDir.2 (by decide) (by decide)).2 _ _ hrun
      (by decide)
  exact ⟨frame, m', hrun', hread⟩

end PagingState
