import SepplesOS.Lib.Coherence
import SepplesOS.Lib.Run
import SepplesOS.Mm.KernelDirectory
import SepplesOS.Mm.PAddr
import SepplesOS.Mm.Translation

/-!
# The memory of the processes

The processor translates each access of a process by its page directory.  Where no page is mapped, the
page-fault handler `isr_exc_PF` (`kernel/interrupt.cpp`) maps one, and the access is tried again.  To the
processes this looks as if each had a memory of its own, and the kernel another one, over all calls of the
paging functions.  The accesses are those to aligned words; the permissions of the pages are left out.
-/

namespace Paging

open TableForest

/-! ## Pages that keep their contents -/

/-- A page that is mapped at the end of a path, beyond the bitmap. -/
structure Leaf (m : Paging) (live : Set ℕ) (r : ℕ) (p : List ℕ) (f : ℕ) : Prop where
  place : Pos live r p
  full : p.length = 4
  reached : walk m.child r p = some f
  managed : m.Managed f

/-- The words of the frame are the same. -/
def SameWords (m m' : Paging) (f : ℕ) : Prop := ∀ k < PAGESIZE, m'.mem (f + k) = m.mem (f + k)

theorem SameWords.trans {m m' m'' : Paging} {f : ℕ} (first : SameWords m m' f)
    (second : SameWords m' m'' f) : SameWords m m'' f :=
  fun k hk => (second k hk).trans (first k hk)

section Leaf

variable {m m' : Paging} {live : Set ℕ} {r r' g f flags i k : ℕ} {p p' q : List ℕ}

/-- A page is no table. -/
theorem Leaf.ne_table (h : m.Leaf live r p f) (t : PageTrees m live) (inner : Interior live r' q)
    (table : walk m.child r' q = some g) : g ≠ f := by
  rintro rfl
  obtain ⟨-, hpath⟩ := t.sep r p r' q g h.place inner.1 h.reached table h.managed
  have hfull := h.full
  have hshort := inner.2
  rw [hpath] at hfull
  omega

theorem Leaf.ne_entry (h : m.Leaf live r p f) (t : PageTrees m live) (inner : Interior live r' q)
    (table : walk m.child r' q = some g) (lt : i < 512) (hk : k < PAGESIZE) : f + k ≠ g + i * 8 := by
  have hne := h.ne_table t inner table
  have haligned := h.managed.aligned
  have haligned' := t.table_aligned inner table
  unfold PAGESIZE at haligned haligned' hk
  omega

theorem Leaf.unique (h : m.Leaf live r p f) (h' : m.Leaf live r' p' f) (t : PageTrees m live) :
    r = r' ∧ p = p' :=
  t.sep r p r' p' f h.place h'.place h.reached h'.reached h.managed

theorem Leaf.addTable (h : m.Leaf live r p f) (t : PageTrees m live) {page : ℕ}
    (vacant : m.Vacant live r' q i g page) : SameWords m (m.addTable g i page flags) f := by
  intro k hk
  have hentry := h.ne_entry t vacant.place.concat_interior vacant.reached vacant.lt hk
  have hpage : ¬(page * PAGESIZE ≤ f + k ∧ f + k < page * PAGESIZE + PAGESIZE) := by
    rintro ⟨hle, hlt⟩
    apply vacant.free
    have haligned := h.managed.aligned
    have hused := h.managed.used
    unfold PAGESIZE at haligned hk hle hlt hused
    rwa [show page = f / 0x1000 by omega]
  unfold Paging.addTable phywrite phyzero
  dsimp only
  rw [Function.update_of_ne hentry, if_neg hpage, markPhysPageUsed_mem]

theorem Leaf.adds (h : m.Leaf live r p f) (t : PageTrees m live) (small : flags < PAGESIZE)
    (adds : AddsTables live r' flags m m') : m'.Leaf live r p f ∧ SameWords m m' f := by
  induction adds with
  | refl => exact ⟨h, fun _ _ => rfl⟩
  | add before vacant inner ih =>
    obtain ⟨hleaf, hsame⟩ := ih
    have t' := before.trees small t
    have hone : AddsTables live r' flags _ _ := .add .refl vacant inner
    have hgrows := hone.grows small t'
    refine ⟨⟨h.place, h.full, ?_, ?_⟩, hsame.trans (hleaf.addTable t' vacant)⟩
    · rw [hone.leaves small t' h.place h.full, hleaf.reached]
    · exact hleaf.managed.mono hgrows.max ((hgrows.used _).2 (Or.inl hleaf.managed.used))

theorem Leaf.addLeaf (h : m.Leaf live r p f) (t : PageTrees m live) (small : flags < PAGESIZE) {page : ℕ}
    (vacant : m.Vacant live r' q i g page) (leaf : q.length = 3) :
    (m.addLeaf g i page flags).Leaf live r p f ∧ SameWords m (m.addLeaf g i page flags) f := by
  have hung := vacant.hung_leaf t small leaf
  have hgrows := hung.grows t vacant.place vacant.reached vacant.absent
  refine ⟨⟨h.place, h.full, ?_, ?_⟩, fun k hk => ?_⟩
  · exact hgrows.keep r p f h.place h.reached
  · exact h.managed.mono hgrows.max ((hgrows.used _).2 (Or.inl h.managed.used))
  · have hentry := h.ne_entry t vacant.place.concat_interior vacant.reached vacant.lt hk
    unfold Paging.addLeaf phywrite
    rw [markPhysPageUsed_mem]
    exact Function.update_of_ne hentry _ _

/-- Mapping a page keeps the others. -/
theorem Leaf.mapPage (h : m.Leaf live r p f) (t : PageTrees m live) {vaddr pml4 w : ℕ}
    (root : pml4 = PML4_ADDR ∨ pml4 ∈ live) (result : m.mapPage vaddr 0 flags pml4 = some (w, m')) :
    m'.Leaf live r p f ∧ SameWords m m' f := by
  have hsmall := attrs_small flags
  obtain ⟨v, m₁, -, adds₁, ⟨-, rfl⟩ | ⟨-, -, hat⟩⟩ := mapPage_cases t result
  · exact h.adds t (by decide) adds₁
  · have t₁ := adds₁.trees (by decide) t
    obtain ⟨h₁, hsame₁⟩ := h.adds t (by decide) adds₁
    obtain ⟨-, m₂, adds₂, htail⟩ := mapPageAt_cases t₁ root hat
    obtain ⟨h₂, hsame₂⟩ := h₁.adds t₁ hsmall adds₂
    rcases htail with ⟨-, rfl⟩ | ⟨g, page, -, vacant, rfl⟩
    · exact ⟨h₂, hsame₁.trans hsame₂⟩
    · obtain ⟨h₃, hsame₃⟩ := h₂.addLeaf (adds₂.trees hsmall t₁) hsmall vacant rfl
      exact ⟨h₃, hsame₁.trans (hsame₂.trans hsame₃)⟩

theorem Leaf.unmapPage (h : m.Leaf live r p f) (t : PageTrees m live) {vaddr : ℕ}
    (managed : ∀ f, walk m.child PML4_ADDR (path vaddr) = some f → m.Managed f)
    (other : ¬(r = PML4_ADDR ∧ p = path vaddr)) :
    (m.unmapPage vaddr).Leaf live r p f ∧ SameWords m (m.unmapPage vaddr) f := by
  classical
  have hwalk : walk (m.unmapPage vaddr).child r p = some f := by
    rw [walk_unmapPage t managed h.place, if_neg other, h.reached]
  rcases unmapPage_cut t managed with ⟨-, hsame⟩ | ⟨g, page, hcut, place, htable, hpage, hchild⟩
  · rw [hsame]
    exact ⟨h, fun _ _ => rfl⟩
  have hleaf : m.Leaf live PML4_ADDR (path vaddr) (page * PAGESIZE) := by
    refine ⟨place, rfl, ?_, hpage⟩
    rw [show path vaddr = [index vaddr 39, index vaddr 30, index vaddr 21] ++ [index vaddr 12] from rfl,
      walk_concat, htable]
    exact hchild
  have hne : f / PAGESIZE ≠ page := by
    rintro rfl
    rw [Nat.div_mul_cancel (Nat.dvd_of_mod_eq_zero h.managed.aligned)] at hleaf
    exact other (h.unique hleaf t)
  refine ⟨⟨h.place, h.full, hwalk, ?_⟩, fun k hk => ?_⟩
  · exact h.managed.mono hcut.max ((hcut.used _).2 ⟨h.managed.used, hne⟩)
  · rcases unmapPage_cases m vaddr with ⟨-, hsame⟩ | ⟨g', c, htable', -, hunmap⟩
    · rw [hsame]
    · rw [htable] at htable'
      cases htable'
      have hentry := h.ne_entry t place.concat_interior htable (index_lt vaddr 12) hk
      rw [hunmap]
      unfold phywrite markPhysPageFreeAddr
      rw [markPhysPageFree_mem]
      exact Function.update_of_ne hentry _ _

theorem Leaf.createPageDir (h : m.Leaf live r p f) (t : PageTrees m live) {live' : Set ℕ}
    (sub : live ⊆ live') : m.createPageDir.2.Leaf live' r p f ∧ SameWords m m.createPageDir.2 f := by
  have hsame : SameWords m m.createPageDir.2 f := by
    intro k hk
    have haligned := h.managed.aligned
    have hframe : (f + k) / PAGESIZE = f / PAGESIZE := by
      unfold PAGESIZE at haligned hk ⊢
      omega
    exact createPageDir_keeps (Or.inl (hframe ▸ h.managed.used))
  rcases createPageDir_spec t with hfail | ⟨d, g, -, -, planted⟩
  · rw [hfail] at hsame ⊢
    exact ⟨⟨h.place.mono sub, h.full, h.reached, h.managed⟩, hsame⟩
  · refine ⟨⟨h.place.mono sub, h.full, ?_, ?_⟩, hsame⟩
    · rw [t.walk_planted planted h.place, h.reached]
    · exact h.managed.mono planted.max ((planted.used _).2 (Or.inl h.managed.used))

theorem Leaf.destroyPageDir (h : m.Leaf live r p f) (t : PageTrees m live) {d : ℕ} (hd : d ∈ live)
    (other : r ≠ d) :
    (m.destroyPageDir d).Leaf (live \ {d}) r p f ∧ SameWords m (m.destroyPageDir d) f := by
  have felled := destroyPageDir_felled t hd
  have hpage : f / PAGESIZE * PAGESIZE = f :=
    Nat.div_mul_cancel (Nat.dvd_of_mod_eq_zero h.managed.aligned)
  refine ⟨⟨⟨h.place.1, ?_⟩, h.full, ?_, ?_⟩, fun k _ => congrFun felled.mem _⟩
  · exact h.place.2.imp_right fun hr => ⟨⟨hr.1, other⟩, hr.2⟩
  · rw [child_of_mem felled.mem, h.reached]
  · refine h.managed.mono felled.max ((felled.used _).2 ⟨h.managed.used, ?_⟩)
    apply t.belongs_other h.place
    · rw [hpage, h.reached]
    · rw [hpage]
      exact h.managed
    · exact other

/-! ## Stores -/

theorem Leaf.child_store (h : m.Leaf live r p f) (t : PageTrees m live) (hk : k < PAGESIZE) {w j : ℕ}
    (inner : Interior live r' q) (table : walk m.child r' q = some g) :
    (m.phywrite (f + k) w).child g j = m.child g j := by
  by_cases hj : j < 512
  · apply child_congr
    rw [phyread_phywrite, if_neg fun heq => h.ne_entry t inner table hj hk heq.1.symm]
  · unfold child
    rw [if_neg fun heq => hj heq.1, if_neg fun heq => hj heq.1]

theorem Leaf.walk_store (h : m.Leaf live r p f) (t : PageTrees m live) (hk : k < PAGESIZE) {w : ℕ}
    (place : Pos live r' q) : walk (m.phywrite (f + k) w).child r' q = walk m.child r' q := by
  apply walk_congr
  intro q' j before g hg
  exact h.child_store t hk (place.interior before) hg

theorem Leaf.trees_store (h : m.Leaf live r p f) (t : PageTrees m live) (hk : k < PAGESIZE) (w : ℕ) :
    PageTrees (m.phywrite (f + k) w) live where
  apart := t.apart
  boot := by
    intro q g hboot
    rw [h.walk_store t hk (pos_bootFrame hboot)]
    exact t.boot q g hboot
  shared := by
    intro d hd
    obtain ⟨g, hg, hchild⟩ := t.shared d hd
    have place : Pos live d [0] := ⟨by simp, Or.inr ⟨hd, by simp⟩⟩
    refine ⟨g, ?_, ?_⟩
    · rw [h.walk_store t hk place, hg]
    · rw [h.child_store t hk ⟨place, by simp⟩ hg, hchild]
  top := by
    intro d j g root hg
    have place : Pos live d [] := by
      rcases root with rfl | hd
      · exact pos_kernel (by simp) (by simp)
      · exact ⟨by simp, Or.inr ⟨hd, by simp⟩⟩
    rw [h.child_store t hk ⟨place, by simp⟩ (walk_nil _ _)] at hg
    exact t.top d j g root hg
  low := t.low
  owned := by
    intro d q g place hg
    rw [h.walk_store t hk place] at hg
    rcases t.owned d q g place hg with hm | hb
    · exact Or.inl ⟨hm.aligned, hm.above, hm.room, hm.used⟩
    · exact Or.inr hb
  sep := by
    intro d q d' q' g place place' hg hg' hm
    rw [h.walk_store t hk place] at hg
    rw [h.walk_store t hk place'] at hg'
    exact t.sep d q d' q' g place place' hg hg' ⟨hm.aligned, hm.above, hm.room, hm.used⟩

/-- A store keeps the pages, and the words at other places. -/
theorem Leaf.store (h : m.Leaf live r p f) (t : PageTrees m live) (hk : k < PAGESIZE) (w : ℕ)
    (h' : m.Leaf live r' p' g) : (m.phywrite (f + k) w).Leaf live r' p' g ∧ ∀ j < PAGESIZE,
      ¬(r' = r ∧ p' = p ∧ j = k) → (m.phywrite (f + k) w).mem (g + j) = m.mem (g + j) := by
  refine ⟨⟨h'.place, h'.full, ?_, ?_⟩, fun j hj other => ?_⟩
  · rw [h.walk_store t hk h'.place, h'.reached]
  · exact ⟨h'.managed.aligned, h'.managed.above, h'.managed.room, h'.managed.used⟩
  · refine Function.update_of_ne (fun heq => other ?_) _ _
    have haligned := h.managed.aligned
    have haligned' := h'.managed.aligned
    obtain ⟨rfl, rfl⟩ : g = f ∧ j = k := by
      unfold PAGESIZE at haligned haligned' hk hj
      omega
    obtain ⟨hroot, hpath⟩ := h'.unique h t
    exact ⟨hroot, hpath, rfl⟩

end Leaf

/-! ## The frames that a mapping takes -/

/-- Whether a table is missing, as a number. -/
def missing (m : Paging) (r : ℕ) (p : List ℕ) : ℕ := if walk m.child r p = none then 1 else 0

/-- The frames that are wanted to map a page: one for each table that is missing on the way, and the page's own. -/
def wanted (m : Paging) (r vaddr : ℕ) : ℕ :=
  m.missing r [0, index vaddr 30] + m.missing r [0, index vaddr 30, index vaddr 21] + 1

section Wanted

variable {m m' : Paging} {live : Set ℕ} {r f i flags : ℕ} {q : List ℕ}

/-- `presentOrNew` by the frames that are left: it takes one if the table is missing. -/
theorem presentOrNew_frames (t : PageTrees m live) (below : q ≠ []) (place : Pos live r (q ++ [i]))
    (reached : walk m.child r q = some f) (lt : i < 512) (small : flags < PAGESIZE) :
    m.presentOrNew (f + i * 8) flags = none ∧ m.missing r (q ++ [i]) = 1 ∧ m.freeFrames.card = 0 ∨
    ∃ entry m', m.presentOrNew (f + i * 8) flags = some (entry, m') ∧ PageTrees m' live ∧
      walk m'.child r (q ++ [i]) = some (pageOf entry) ∧
      m'.freeFrames.card + m.missing r (q ++ [i]) = m.freeFrames.card ∧
      ∀ p, Pos live r p → p ≠ q ++ [i] → walk m'.child r p = walk m.child r p := by
  classical
  have hentry : walk m.child r (q ++ [i]) = m.child f i := by
    rw [walk_concat, reached]
    rfl
  unfold missing
  rw [hentry]
  by_cases hpresent : Present (m.phyread (f + i * 8))
  · have hchild := child_of_present lt hpresent
    refine Or.inr ⟨_, m, presentOrNew_present hpresent flags, t, hentry.trans hchild, ?_, fun _ _ _ => rfl⟩
    rw [hchild, if_neg (by simp), Nat.add_zero]
  · have habsent := child_of_not_present hpresent
    rw [if_pos habsent]
    rcases getFreePhysPage_left t with ⟨hzero, hempty⟩ | ⟨page, hleft, hpage, hne⟩
    · refine Or.inl ⟨?_, rfl, by rw [hempty, Finset.card_empty]⟩
      unfold presentOrNew
      simp only [hpresent, hzero, if_true, if_false]
    · have hroom : page < m.maxPhysPages := by
        have hscanned := (mem_freeFrames.1 hleft).1
        omega
      have vacant : m.Vacant live r q i f page :=
        ⟨below, place, reached, lt, habsent, (mem_freeFrames.1 hleft).2, hroom⟩
      have hung := vacant.hung_table t small
      have hwalk := fun p hp => t.walk_hung hung place reached habsent (p := p) (r := r) hp
      refine Or.inr ⟨entryOf page flags, m.addTable f i page flags, ?_,
        t.hung hung place reached habsent below, ?_, ?_, fun p hp hother => ?_⟩
      · unfold presentOrNew
        simp only [hpresent, if_false, hpage, hne, pageOf_mul, mul_div_page]
        rfl
      · rw [hwalk _ place, if_pos ⟨rfl, rfl⟩]
        exact congrArg some (pageOf_or (Nat.mul_mod_left _ _) (flags_small small)).symm
      · rw [freeFrames_used hung.max hung.used]
        exact Finset.card_erase_add_one hleft
      · rw [hwalk p hp, if_neg fun h => hother h.2]

/-- A page of a process that is not mapped is mapped if and only if enough frames are left. -/
theorem mapPageAt_wanted (t : PageTrees m live) {d vaddr : ℕ} (hd : d ∈ live) (nonzero : vaddr ≠ 0)
    (first : index vaddr 39 = 0) (user : index vaddr 30 ≠ 0) (absent : walk m.child d (path vaddr) = none) :
    (∃ m', m.mapPageAt vaddr 0 flags d = some (vaddr, m')) ↔ m.wanted d vaddr ≤ m.freeFrames.card := by
  have hsmall := attrs_small flags
  have hplace : ∀ p : List ℕ, p.length ≤ 2 → Pos live d (0 :: index vaddr 30 :: p) := by
    intro p hp
    have howner : owner vaddr d = d := if_neg user
    have hpos : Pos live (owner vaddr d) (0 :: index vaddr 30 :: p) := owner_pos (Or.inr hd) hp fun h => by
      rw [howner] at h
      exact absurd (h ▸ hd) t.apart
    rwa [howner] at hpos
  obtain ⟨g, hg, -⟩ := t.shared d hd
  have htop : m.child d 0 = some g := by
    rw [walk_cons] at hg
    obtain ⟨g', hg', hnil⟩ := Option.bind_eq_some_iff.1 hg
    rw [hg', ← Option.some.inj hnil]
  obtain ⟨-, hpresent, hpage⟩ := child_some htop
  unfold mapPageAt wanted
  dsimp only
  rw [first, if_pos hpresent, hpage]
  -- the page directory
  have hdir := presentOrNew_frames t (by simp) (hplace [] (by simp)) hg (index_lt vaddr 30) hsmall
  simp only [List.cons_append, List.nil_append] at hdir
  rcases hdir with ⟨hnone, hmissing, hcard⟩ | ⟨PDPTentry, m₁, hnew, t₁, hreached₁, hcard₁, hsame₁⟩
  · rw [hnone]
    exact iff_of_false (by simp) (by omega)
  rw [hnew]
  dsimp only
  -- the page table
  have htable := presentOrNew_frames t₁ (by simp) (hplace [index vaddr 21] (by simp)) hreached₁
    (index_lt vaddr 21) hsmall
  simp only [List.cons_append, List.nil_append] at htable
  have hmissing₁ : m₁.missing d [0, index vaddr 30, index vaddr 21] =
      m.missing d [0, index vaddr 30, index vaddr 21] := by
    unfold missing
    rw [hsame₁ _ (hplace [index vaddr 21] (by simp)) (by simp)]
  rw [hmissing₁] at htable
  rcases htable with ⟨hnone, hmissing, hcard⟩ | ⟨PDentry, m₂, hnew₂, t₂, hreached₂, hcard₂, hsame₂⟩
  · rw [hnone]
    exact iff_of_false (by simp) (by omega)
  rw [hnew₂]
  dsimp only
  -- the page
  have hleaf : ¬Present (m₂.phyread (pageOf PDentry + index vaddr 12 * 8)) := by
    have hpath : Pos live d (path vaddr) := by
      rw [path_of_first first]
      exact hplace [index vaddr 21, index vaddr 12] (by simp)
    rw [← hsame₁ _ hpath (by simp [path]), ← hsame₂ _ hpath (by simp [path]), path_of_first first,
      walk_concat, hreached₂] at absent
    exact present_of_child (index_lt vaddr 12) absent
  rw [if_neg hleaf, if_pos rfl]
  rcases getFreePhysPage_left t₂ with ⟨hzero, hempty⟩ | ⟨page, hleft, hpage, hne⟩
  · rw [hempty, Finset.card_empty] at hcard₂
    rw [if_pos hzero]
    refine iff_of_false ?_ (by omega)
    rintro ⟨m', heq⟩
    exact nonzero (Prod.mk.inj (Option.some.inj heq)).1.symm
  · have hpos := Finset.card_pos.2 ⟨page, hleft⟩
    rw [if_neg (hpage ▸ hne)]
    exact iff_of_true ⟨_, rfl⟩ (by omega)

end Wanted

/-! ## Page faults -/

/-- What `isr_exc_PF` does: the machine is halted, the process is ended, or a page has been mapped. -/
inductive Fault
  | fatal
  | exit
  | mapped (m : Paging)

/-- `isr_exc_PF`, while the process `pid` with the directory `pml4` runs. -/
def isr_exc_PF (m : Paging) (pid pml4 faulting_addr : ℕ) : Fault :=
  if pid = 0 ∧ faulting_addr < 0x1000 then .fatal
  else if pid ≠ 0 ∧ USER_OFFSET ≤ faulting_addr ∧ faulting_addr < USER_STACK then
    match m.mapPage (faulting_addr &&& 0xFFFFF000) 0 PAGE_ATTR_USER pml4 with
    | none => .fatal
    | some (w, m) => if w = 0 then .fatal else .mapped m
  else .exit

theorem and_mask {v : ℕ} (low : v < 2 ^ 32) : v &&& 0xFFFFF000 = pageOf v := by
  have hpage : pageOf v = v >>> 12 <<< 12 := by
    rw [Nat.shiftLeft_eq, Nat.shiftRight_eq_div_pow]
    show v - v % 4096 = _
    omega
  have hmask : 0xFFFFF000 = (2 ^ 20 - 1) <<< 12 := by decide
  rw [hpage, hmask]
  apply Nat.eq_of_testBit_eq
  intro i
  rw [Nat.testBit_and, Nat.testBit_shiftLeft, Nat.testBit_shiftLeft, Nat.testBit_two_pow_sub_one,
    Nat.testBit_shiftRight]
  by_cases hi : 12 ≤ i
  · rw [Nat.add_sub_cancel' hi]
    by_cases hhigh : i < 32
    · simp [hi, show i - 12 < 20 by omega]
    · have hbit : v.testBit i = false :=
        Nat.testBit_lt_two_pow (low.trans_le (Nat.pow_le_pow_right (by decide) (by omega)))
      simp [hbit]
  · simp [hi]

/-- The page has been mapped. -/
def Fault.resolved : Fault → Bool
  | .mapped _ => true
  | _ => false

end Paging

namespace PagingState

open Paging TableForest Coherence

/-! ## Accesses -/

/-- The processor finds the frame `f` for the address `v` of a word in the directory `r`: in the user space
of a process, or at a page that the kernel has mapped for itself. -/
structure Hits (s : PagingState) (r v f : ℕ) : Prop where
  root : s.Root r
  low : v < 2 ^ 39
  aligned : v % 8 = 0
  reached : s.translate r v = some f
  mine : r ∈ s.live ∧ USER_OFFSET ≤ v ∨ owner v r = PML4_ADDR ∧ pageOf v ∈ s.mapped

/-- The memories, with their addresses: one for each process, by its directory, and one for the kernel. -/
abbrev Place := ℕ × ℕ

/-- What a call takes away. -/
def lost : Op → Set Place
  | .destroyPageDir d => {k | k.1 = d}
  | .unmapPage v => {k | k.1 = PML4_ADDR ∧ path k.2 = path v}
  | _ => ∅

theorem mem_lost_destroyPageDir {k : Place} {d : ℕ} : k ∈ lost (.destroyPageDir d) ↔ k.1 = d := Iff.rfl

theorem mem_lost_unmapPage {k : Place} {v : ℕ} :
    k ∈ lost (.unmapPage v) ↔ k.1 = PML4_ADDR ∧ path k.2 = path v := Iff.rfl

/-- What can happen: a call of a paging function, a page fault that is resolved, and the accesses. -/
inductive Does (s : PagingState) : Event Place ℕ → PagingState → Prop
  | call {op : Op} {s' : PagingState} (step : s.Step op s') : Does s (.lose (lost op)) s'
  | fault {d v pid : ℕ} {m' : Paging} (live : d ∈ s.live) (absent : s.translate d v = none)
    (handled : isr_exc_PF s.m pid d v = .mapped m') : Does s (.lose ∅) (s.withPaging m')
  | load {r v f : ℕ} (hits : s.Hits r v f) :
    Does s (.load (owner v r, v) (s.m.mem (f + v % PAGESIZE))) s
  | store {r v f : ℕ} (w : ℕ) (hits : s.Hits r v f) :
    Does s (.store (owner v r, v) w) (s.withPaging (s.m.phywrite (f + v % PAGESIZE) w))

/-- The word at an address of a memory. -/
def Holds (s : PagingState) (k : Place) (w : ℕ) : Prop :=
  ∃ f, s.m.Leaf s.live k.1 (path k.2) f ∧ k.2 < 2 ^ 39 ∧ s.m.mem (f + k.2 % PAGESIZE) = w

section Accesses

variable {s s' : PagingState} {r v f : ℕ}

theorem Hits.leaf (hits : s.Hits r v f) (inv : s.Inv) : s.m.Leaf s.live (owner v r) (path v) f := by
  have hfirst := index_top hits.low
  have hwalk : walk s.m.child (owner v r) (path v) = some f := by
    rw [← canon_eq_owner hfirst, walk_canon inv.trees hits.root]
    exact hits.reached
  rcases hits.mine with ⟨hlive, huser⟩ | ⟨howner, hmapped⟩
  · have hne := user_index huser hits.low
    have howner : owner v r = r := if_neg hne
    rw [howner] at hwalk ⊢
    have place : Pos s.live r (path v) := by
      refine ⟨le_rfl, Or.inr ⟨hlive, fun hshared => hne ?_⟩⟩
      exact (List.cons_prefix_cons.1 (List.cons_prefix_cons.1 hshared).2).1.symm
    exact ⟨place, rfl, hwalk, inv.trees.owned_live hlive place hwalk⟩
  · have managed := inv.kernel _ hmapped
    rw [path_pageOf] at managed
    rw [howner] at hwalk ⊢
    exact ⟨kernel_place inv.trees managed, rfl, hwalk, managed f hwalk⟩

theorem Hits.holds (hits : s.Hits r v f) (inv : s.Inv) :
    s.Holds (owner v r, v) (s.m.mem (f + v % PAGESIZE)) :=
  ⟨f, hits.leaf inv, hits.low, rfl⟩

/-- The handler has mapped the page at the address, as a call of `mapPage`. -/
theorem fault_spec {d pid : ℕ} {m' : Paging} (handled : isr_exc_PF s.m pid d v = .mapped m') :
    v < 2 ^ 39 ∧ USER_OFFSET ≤ v ∧
      ∃ w, w ≠ 0 ∧ s.m.mapPage (pageOf v) 0 PAGE_ATTR_USER d = some (w, m') := by
  unfold isr_exc_PF at handled
  split_ifs at handled with hnull huser
  have hlow : v < 0xE0000000 := huser.2.2
  rw [and_mask (by omega)] at handled
  cases hmap : s.m.mapPage (pageOf v) 0 PAGE_ATTR_USER d with
  | none =>
    rw [hmap] at handled
    cases handled
  | some res =>
    obtain ⟨w, m₁⟩ := res
    rw [hmap] at handled
    dsimp only at handled
    split_ifs at handled with hzero
    cases handled
    exact ⟨by omega, huser.2.1, w, hzero, rfl⟩

theorem step_fault (inv : s.Inv) {d pid : ℕ} {m' : Paging} (live : d ∈ s.live)
    (handled : isr_exc_PF s.m pid d v = .mapped m') :
    ∃ v', s.Step (.mapPage v' PAGE_ATTR_USER d) (s.withPaging m') := by
  obtain ⟨hlow, huser, w, hne, hmap⟩ := fault_spec handled
  have hpage : pageOf v < 2 ^ 39 := (Nat.sub_le _ _).trans_lt hlow
  have huser' : USER_OFFSET ≤ pageOf v := by
    unfold pageOf PAGESIZE
    unfold USER_OFFSET at huser ⊢
    omega
  have hw : w = pageOf v := by
    apply (mapPage_mapped inv (Or.inr live) hmap hne).1
    unfold USER_OFFSET at huser'
    omega
  have howner : owner w d ≠ PML4_ADDR := by
    unfold owner
    rw [hw, if_neg (user_index huser' hpage)]
    exact fun heq => inv.trees.apart (heq ▸ live)
  have hstep : s.Step (.mapPage (pageOf v) PAGE_ATTR_USER d) _ :=
    .mapPage (pageOf v) PAGE_ATTR_USER d w m' (Or.inr live) hpage hmap
  have hmapped : {u | u ∈ s.mapped ∨ u = pageOf w ∧ w ≠ 0 ∧ owner w d = PML4_ADDR} = s.mapped := by
    ext u
    exact or_iff_left fun hu => howner hu.2.2
  rw [hmapped] at hstep
  exact ⟨pageOf v, hstep⟩

/-- Accesses and calls keep the invariant. -/
theorem inv_does {e : Event Place ℕ} (inv : s.Inv) (does : s.Does e s') : s'.Inv := by
  cases does with
  | call step => exact inv_step inv step
  | fault live absent handled =>
    obtain ⟨v', hstep⟩ := step_fault inv live handled
    exact inv_step inv hstep
  | load hits => exact inv
  | @store r v f w hits =>
    have hleaf := hits.leaf inv
    have hk : v % PAGESIZE < PAGESIZE := Nat.mod_lt _ (by decide)
    refine ⟨hleaf.trees_store inv.trees hk w, fun u hu g hg => ?_⟩
    have managed := inv.kernel u hu
    rw [show (s.withPaging (s.m.phywrite (f + v % PAGESIZE) w)).m = s.m.phywrite (f + v % PAGESIZE) w
      from rfl, hleaf.walk_store inv.trees hk (kernel_place inv.trees managed)] at hg
    have hm := managed g hg
    exact ⟨hm.aligned, hm.above, hm.room, hm.used⟩

theorem step_keeps {op : Op} (inv : s.Inv) (step : s.Step op s') (kept : (r, v) ∉ lost op)
    (leaf : s.m.Leaf s.live r (path v) f) :
    s'.m.Leaf s'.live r (path v) f ∧ SameWords s.m s'.m f := by
  cases step with
  | createPageDir => exact leaf.createPageDir inv.trees fun d hd => Or.inl hd
  | destroyPageDir d live =>
    rw [mem_lost_destroyPageDir] at kept
    have hkept := leaf.destroyPageDir inv.trees live kept
    generalize s.m.destroyPageDir d = m' at hkept ⊢
    exact hkept
  | mapPage vaddr flags pml4 w m' root low result => exact leaf.mapPage inv.trees root result
  | getUnmappedVAddr vaddr m' result =>
    have adds := (getUnmappedVAddr_spec inv.trees result).1
    exact leaf.adds inv.trees (by decide) adds
  | unmapPage vaddr above kernel =>
    have managed := inv.kernel _ kernel
    rw [path_pageOf] at managed
    rw [mem_lost_unmapPage] at kept
    exact leaf.unmapPage inv.trees managed kept

/-- Each step keeps the words, but for what it stores or takes away. -/
theorem keeps_does {e : Event Place ℕ} (inv : s.Inv) (does : s.Does e s') : e.Keeps s.Holds s'.Holds := by
  have hcall : ∀ op s₁, s.Step op s₁ → ∀ k w, k ∉ lost op → s.Holds k w → s₁.Holds k w := by
    rintro op s₁ step ⟨r, v⟩ w kept ⟨f, leaf, low, rfl⟩
    obtain ⟨hleaf, hsame⟩ := step_keeps inv step kept leaf
    exact ⟨f, hleaf, low, hsame _ (Nat.mod_lt _ (by decide))⟩
  cases does with
  | @call op s' step =>
    constructor
    · rintro k w (heq | heq) <;> cases heq
    · exact fun k w kept holds => hcall op s' step k w kept holds
  | fault live absent handled =>
    obtain ⟨v', hstep⟩ := step_fault inv live handled
    constructor
    · rintro k w (heq | heq) <;> cases heq
    · exact fun k w _ holds => hcall _ _ hstep k w (Set.notMem_empty k) holds
  | @load r v f hits =>
    constructor
    · rintro k w (heq | heq) <;> cases heq
      exact hits.holds inv
    · exact fun k w _ holds => holds
  | @store r v f w hits =>
    have hleaf := hits.leaf inv
    have hk : v % PAGESIZE < PAGESIZE := Nat.mod_lt _ (by decide)
    constructor
    · rintro k w' (heq | heq) <;> cases heq
      exact ⟨f, (hleaf.store inv.trees hk w hleaf).1, hits.low, Function.update_self ..⟩
    · rintro ⟨r', v'⟩ w' other ⟨g, leaf, low, rfl⟩
      obtain ⟨hkept, hwords⟩ := hleaf.store inv.trees hk w leaf
      refine ⟨g, hkept, low, hwords _ (Nat.mod_lt _ (by decide)) ?_⟩
      dsimp only at low ⊢
      rintro ⟨hroot, hpath, hoffset⟩
      have hpage := pageOf_path low hits.low hpath
      have hv : v' = v := by
        unfold pageOf at hpage
        have hle := Nat.mod_le v PAGESIZE
        have hle' := Nat.mod_le v' PAGESIZE
        omega
      exact other (by rw [hroot, hv, Event.Changes])

theorem holds_single {k : Place} {w w' : ℕ} (holds : s.Holds k w) (holds' : s.Holds k w') : w = w' := by
  obtain ⟨f, leaf, -, rfl⟩ := holds
  obtain ⟨f', leaf', -, rfl⟩ := holds'
  rw [Option.some.inj (leaf.reached.symm.trans leaf'.reached)]

theorem fault_resolved (inv : s.Inv) {pid v d : ℕ} (live : d ∈ s.live) (absent : s.translate d v = none)
    (user : pid ≠ 0) (low : USER_OFFSET ≤ v) (high : v < USER_STACK) :
    (s.m.wanted d v ≤ s.m.freeFrames.card → ∃ m' f, isr_exc_PF s.m pid d v = .mapped m' ∧
      (s.withPaging m').translate d v = some f) ∧
    (s.m.freeFrames.card < s.m.wanted d v → isr_exc_PF s.m pid d v = .fatal) := by
  have hlow : v < 2 ^ 39 := high.trans (by decide)
  have hnonzero : pageOf v ≠ 0 := by
    unfold pageOf PAGESIZE
    unfold USER_OFFSET at low
    omega
  have hindex : index (pageOf v) 39 = index v 39 ∧ index (pageOf v) 30 = index v 30 ∧
      index (pageOf v) 21 = index v 21 := by
    have hpath := path_pageOf v
    simp only [path, List.cons.injEq] at hpath
    exact ⟨hpath.1, hpath.2.1, hpath.2.2.1⟩
  have hmap : s.m.mapPage (pageOf v) 0 PAGE_ATTR_USER d = s.m.mapPageAt (pageOf v) 0 PAGE_ATTR_USER d :=
    if_neg hnonzero
  have hwanted : s.m.wanted d (pageOf v) = s.m.wanted d v := by
    unfold wanted
    rw [hindex.2.1, hindex.2.2]
  have hiff : (∃ m', s.m.mapPageAt (pageOf v) 0 PAGE_ATTR_USER d = some (pageOf v, m')) ↔
      s.m.wanted d (pageOf v) ≤ s.m.freeFrames.card := mapPageAt_wanted inv.trees live hnonzero
    (hindex.1.trans (index_top hlow)) (hindex.2.1 ▸ user_index low hlow) (by rw [path_pageOf]; exact absent)
  rw [← hmap, hwanted] at hiff
  have hfault : isr_exc_PF s.m pid d v =
      match s.m.mapPage (pageOf v) 0 PAGE_ATTR_USER d with
      | none => .fatal
      | some (w, m) => if w = 0 then .fatal else .mapped m := by
    unfold isr_exc_PF
    rw [if_neg fun h => user h.1, if_pos ⟨user, low, high⟩, and_mask (high.trans (by decide))]
  constructor
  · intro hleft
    obtain ⟨m', hm'⟩ := hiff.2 hleft
    obtain ⟨-, f, -, -, htranslate, -⟩ := mapPage_mapped inv (Or.inr live) hm' hnonzero
    unfold translate at htranslate
    rw [path_pageOf] at htranslate
    refine ⟨m', f, ?_, htranslate⟩
    rw [hfault, hm']
    exact if_neg hnonzero
  · intro hfew
    rw [hfault]
    cases hm : s.m.mapPage (pageOf v) 0 PAGE_ATTR_USER d with
    | none => rfl
    | some res =>
      obtain ⟨w, m'⟩ := res
      apply if_pos
      by_contra hw
      -- a page that is mapped is the page at the address
      obtain ⟨hat, -⟩ := mapPage_mapped inv (Or.inr live) hm hw
      rw [hat hnonzero] at hm
      exact absurd (hiff.1 ⟨m', hm⟩) (by omega)

end Accesses

/-- The states after `Paging::init`. -/
def Starts (availableMem : ℕ) (s : PagingState) : Prop := ∃ ram bitmap, s = boot ram bitmap availableMem

/-- In every run, whatever the order of the accesses of the processes and the kernel, of the page faults
and of the calls: a load returns what the last access to the same address of the same memory has left, if
the page has not been taken away since.  And a page fault in user space is resolved, so that the access
succeeds when it is tried again, if a frame is left for the page and for each table that is missing; only
otherwise it halts the machine. -/
theorem private_memory {availableMem : ℕ} {events : List (Event Place ℕ)} {s : PagingState}
    (run : Runs (Starts availableMem) Does events s) :
    Coherent events ∧ ∀ d ∈ s.live, ∀ pid v, pid ≠ 0 → USER_OFFSET ≤ v → v < USER_STACK →
      s.translate d v = none →
      (s.m.wanted d v ≤ s.m.freeFrames.card → ∃ m' f, isr_exc_PF s.m pid d v = .mapped m' ∧
        (s.withPaging m').translate d v = some f) ∧
      (s.m.freeFrames.card < s.m.wanted d v → isr_exc_PF s.m pid d v = .fatal) := by
  have hinit : ∀ s, Starts availableMem s → s.Inv := by
    rintro s ⟨ram, bitmap, rfl⟩
    exact inv_boot ram bitmap availableMem
  have hnext : ∀ s e s', Inv s → Does s e s' → Inv s' := fun _ _ _ inv does => inv_does inv does
  have hinv := run.invariant hinit hnext
  constructor
  · exact run.coherent hinit hnext (fun _ _ _ inv does => keeps_does inv does)
      fun _ _ _ _ holds holds' => holds_single holds holds'
  · exact fun d live pid v user low high absent => fault_resolved hinv live absent user low high

/-! ## The first process -/

theorem first_dir : (boot (fun _ => 0) (fun _ => 0) 0x1000000).m.createPageDir.1 = 0x101000 := by
  decide +kernel

theorem first_absent : walk (boot (fun _ => 0) (fun _ => 0) 0x1000000).m.createPageDir.2.child 0x101000
    (path 0x40000008) = none := by
  decide +kernel

theorem first_fault : (isr_exc_PF (boot (fun _ => 0) (fun _ => 0) 0x1000000).m.createPageDir.2 1 0x101000
    0x40000008).resolved = true := by
  decide +kernel

/-- A process is created, stores at an address that is not mapped yet, and loads from it. -/
theorem private_memory_first_process : ∃ s,
    Runs (Starts 0x1000000) Does [.lose ∅, .lose ∅, .store (0x101000, 0x40000008) 7,
      .load (0x101000, 0x40000008) 7] s ∧
    Coherent [Event.lose ∅, .lose ∅, .store ((0x101000, 0x40000008) : Place) 7,
      .load (0x101000, 0x40000008) 7] := by
  have hdir := first_dir
  have habsent := first_absent
  have hfault := first_fault
  have run₀ : Runs (Starts 0x1000000) Does [] (boot (fun _ => 0) (fun _ => 0) 0x1000000) :=
    .start ⟨_, _, rfl⟩
  have inv₀ : Inv (boot (fun _ => 0) (fun _ => 0) 0x1000000) := inv_boot _ _ _
  generalize boot (fun _ => 0) (fun _ => 0) 0x1000000 = s₀ at hdir habsent hfault run₀ inv₀
  have step₁ : s₀.Step .createPageDir s₀.created := .createPageDir
  have live : 0x101000 ∈ s₀.created.live := Or.inr ⟨hdir.symm, by decide⟩
  have inv₁ := inv_step inv₀ step₁
  -- the page fault
  obtain ⟨hresolved, hfatal⟩ := fault_resolved inv₁ live habsent (by decide : 1 ≠ 0) (by decide) (by decide)
  have hleft : s₀.created.m.wanted 0x101000 0x40000008 ≤ s₀.created.m.freeFrames.card := by
    by_contra hfew
    rw [show s₀.m.createPageDir.2 = s₀.created.m from rfl, hfatal (not_le.1 hfew)] at hfault
    cases hfault
  obtain ⟨m₂, f, hmapped, hreached⟩ := hresolved hleft
  have fault₂ : Does s₀.created (.lose ∅) (s₀.created.withPaging m₂) := .fault live habsent hmapped
  have inv₂ := inv_does inv₁ fault₂
  have howner : owner 0x40000008 0x101000 = 0x101000 := by decide
  have hits₂ : (s₀.created.withPaging m₂).Hits 0x101000 0x40000008 f :=
    ⟨Or.inr live, by decide, by decide, hreached, Or.inl ⟨live, by decide⟩⟩
  -- the store, and the load
  have leaf₂ := hits₂.leaf inv₂
  rw [howner] at leaf₂
  have hk : 0x40000008 % PAGESIZE < PAGESIZE := by decide
  have step₃ := Does.store 7 hits₂
  obtain ⟨leaf₃, -⟩ := leaf₂.store inv₂.trees hk 7 leaf₂
  have hits₃ : ((s₀.created.withPaging m₂).withPaging (m₂.phywrite (f + 0x40000008 % PAGESIZE) 7)).Hits
      0x101000 0x40000008 f :=
    ⟨Or.inr live, by decide, by decide, leaf₃.reached, Or.inl ⟨live, by decide⟩⟩
  have step₄ := Does.load hits₃
  have hvalue : (m₂.phywrite (f + 0x40000008 % PAGESIZE) 7).mem (f + 0x40000008 % PAGESIZE) = 7 :=
    Function.update_self ..
  rw [howner] at step₃ step₄
  rw [show ((s₀.created.withPaging m₂).withPaging (m₂.phywrite (f + 0x40000008 % PAGESIZE) 7)).m.mem
    (f + 0x40000008 % PAGESIZE) = 7 from hvalue] at step₄
  have run := ((((run₀.step (.call step₁)).step fault₂).step step₃).step step₄)
  exact ⟨_, run, (private_memory run).1⟩

end PagingState
