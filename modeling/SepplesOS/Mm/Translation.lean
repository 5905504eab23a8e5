import SepplesOS.Mm.FrameOwnership

/-!
# What mapping a page changes

`mapPage` adds tables to a tree and then one leaf (`mapPage_cases`), and tables map nothing.  So the
translation of one page changes, to a frame that was free, and that of no other page in any
directory; `unmapPage` is the same the other way round.
-/

namespace PagingState

open Paging TableForest

/-- The temporary page. -/
def tmpPath : List ℕ := [0, 0, 0, 7]

/-- The same page of the same directory, or a page that both directories share. -/
def SamePage (r v r' v' : ℕ) : Prop := path v' = path v ∧ (r' = r ∨ index v 30 = 0)

section Places

variable {s : PagingState} {r v r' v' : ℕ}

theorem pos_canon (root : s.Root r) (tmp : path v ≠ tmpPath) : Pos s.live (canon r (path v)) (path v) := by
  refine ⟨le_rfl, ?_⟩
  unfold canon
  split_ifs with hshared
  · exact Or.inl ⟨rfl, tmp⟩
  · exact root.imp (fun hr => ⟨hr, tmp⟩) fun hr => ⟨hr, hshared⟩

/-- Below the first level all pages of one path have one tree, when it is the kernel's. -/
theorem canon_eq_owner (first : index v 39 = 0) : canon r (path v) = owner v r := by
  unfold canon owner path
  simp only [first, List.cons_prefix_cons, List.nil_prefix, and_true, true_and]
  by_cases h : index v 30 = 0
  · rw [if_pos h.symm, if_pos h]
  · rw [if_neg (Ne.symm h), if_neg h]

theorem samePage_iff (first : index v 39 = 0) :
    SamePage r v r' v' ↔ canon r' (path v') = owner v r ∧ path v' = path v := by
  unfold SamePage
  constructor
  · rintro ⟨hpath, hroot⟩
    refine ⟨?_, hpath⟩
    rw [hpath, canon_eq_owner first]
    rcases hroot with rfl | hshared
    · rfl
    · unfold owner
      rw [if_pos hshared, if_pos hshared]
  · rintro ⟨hroot, hpath⟩
    refine ⟨hpath, ?_⟩
    rw [hpath, canon_eq_owner first] at hroot
    unfold owner at hroot
    split_ifs at hroot with hshared
    · exact Or.inr hshared
    · exact Or.inl hroot

theorem translate_eq (t : PageTrees s.m s.live) (root : s.Root r) :
    s.translate r v = walk s.m.child (canon r (path v)) (path v) :=
  (walk_canon t root (path v)).symm

end Places

/-- The state after a call that leaves the directories as they are. -/
def withPaging (s : PagingState) (m : Paging) : PagingState := { s with m := m }

theorem translate_withPaging {s : PagingState} {m : Paging} {r v : ℕ} (t : PageTrees m s.live)
    (root : s.Root r) :
    (s.withPaging m).translate r v = walk m.child (canon r (path v)) (path v) :=
  translate_eq (s := s.withPaging m) t root

/-- Nothing is translated otherwise, but for the temporary page. -/
def SameTranslation (s : PagingState) (m : Paging) : Prop :=
  ∀ r v, s.Root r → path v ≠ tmpPath → (s.withPaging m).translate r v = s.translate r v

/-- The page at `v` of the directory `r` is translated to `target` now, and no other page is
translated otherwise, but for the temporary page. -/
def OnlyChanges (s : PagingState) (m : Paging) (r v : ℕ) (target : Option ℕ) : Prop :=
  ∀ r' v', s.Root r' → path v' ≠ tmpPath →
    (SamePage r v r' v' → (s.withPaging m).translate r' v' = target) ∧
    (¬SamePage r v r' v' → (s.withPaging m).translate r' v' = s.translate r' v')

/-- `mapPage` and `unmapPage` change the translation of one page, or of none. -/
structure MapsLocally (s : PagingState) : Prop where
  failed : ∀ v flags pml4 m', s.Root pml4 → s.m.mapPage v 0 flags pml4 = some (0, m') →
    s.SameTranslation m'
  mapped : ∀ v flags pml4 w m', s.Root pml4 → s.m.mapPage v 0 flags pml4 = some (w, m') → w ≠ 0 →
    (v ≠ 0 → w = v) ∧ ∃ f, ¬s.m.Used (f / PAGESIZE) ∧ m'.Used (f / PAGESIZE) ∧
      (s.withPaging m').translate pml4 w = some f ∧ s.OnlyChanges m' pml4 w (some f)
  unmapped : ∀ v, pageOf v ∈ s.mapped →
    (s.withPaging (s.m.unmapPage v)).translate PML4_ADDR v = none ∧
    s.OnlyChanges (s.m.unmapPage v) PML4_ADDR v none ∧
    ∀ q, (s.m.unmapPage v).Used q ↔
      s.m.Used q ∧ ∀ f, s.translate PML4_ADDR v = some f → q ≠ f / PAGESIZE

section Local

variable {s : PagingState}

/-- Added tables change no translation. -/
theorem sameTranslation_of_adds {r flags : ℕ} {m' : Paging} (t : PageTrees s.m s.live)
    (small : flags < PAGESIZE) (adds : AddsTables s.live r flags s.m m') : s.SameTranslation m' := by
  intro r' v root tmp
  rw [translate_eq t root, translate_withPaging (adds.trees small t) root]
  exact adds.leaves small t (pos_canon root tmp) rfl

theorem SameTranslation.trans {m m' : Paging} (first : s.SameTranslation m)
    (second : (s.withPaging m).SameTranslation m') : s.SameTranslation m' :=
  fun r v root tmp => (second r v root tmp).trans (first r v root tmp)

theorem onlyChanges_addLeaf {r v f page flags : ℕ} (t : PageTrees s.m s.live) (first : index v 39 = 0)
    (small : flags < PAGESIZE)
    (vacant : s.m.Vacant s.live (owner v r) [0, index v 30, index v 21] (index v 12) f page) :
    s.OnlyChanges (s.m.addLeaf f (index v 12) page flags) r v (some (page * PAGESIZE)) := by
  classical
  have hung := vacant.hung_leaf t small rfl
  have t' := t.hung hung vacant.place vacant.reached vacant.absent vacant.below
  have hpath := path_of_first first
  intro r' v' root tmp
  have hwalk := t.walk_hung hung vacant.place vacant.reached vacant.absent (pos_canon root tmp)
  rw [← hpath] at hwalk
  rw [translate_withPaging t' root, translate_eq t root, samePage_iff first]
  refine ⟨fun hsame => ?_, fun hother => ?_⟩
  · exact hwalk.trans (if_pos hsame)
  · exact hwalk.trans (if_neg hother)

theorem mapPage_mapped (inv : s.Inv) {v flags pml4 w : ℕ} {m' : Paging} (root : s.Root pml4)
    (result : s.m.mapPage v 0 flags pml4 = some (w, m')) (success : w ≠ 0) :
    (v ≠ 0 → w = v) ∧ ∃ f, ¬s.m.Used (f / PAGESIZE) ∧ m'.Used (f / PAGESIZE) ∧
      (s.withPaging m').translate pml4 w = some f ∧ s.OnlyChanges m' pml4 w (some f) := by
  have hsmall := attrs_small flags
  obtain ⟨v₁, m₁, hv, adds₁, ⟨rfl, -⟩ | ⟨-, -, hat⟩⟩ := mapPage_cases inv.trees result
  · exact absurd rfl success
  have t₁ := adds₁.trees (by decide) inv.trees
  obtain ⟨hfirst, m₂, adds₂, ⟨rfl, -⟩ | ⟨f, page, rfl, vacant, rfl⟩⟩ := mapPageAt_cases t₁ root hat
  · exact absurd rfl success
  have t₂ := adds₂.trees hsmall t₁
  -- the tables first, then the leaf
  have hsame : s.SameTranslation m₂ :=
    (sameTranslation_of_adds inv.trees (by decide) adds₁).trans
      (sameTranslation_of_adds (s := s.withPaging m₁) t₁ hsmall adds₂)
  have honly := onlyChanges_addLeaf (s := s.withPaging m₂) (r := pml4) t₂ hfirst hsmall vacant
  have hchanges : s.OnlyChanges (m₂.addLeaf f (index w 12) page (flags &&& 0xFFF)) pml4 w
      (some (page * PAGESIZE)) := fun r' v' root' tmp =>
    ⟨(honly r' v' root' tmp).1, fun hother =>
      ((honly r' v' root' tmp).2 hother).trans (hsame r' v' root' tmp)⟩
  have htmp : path w ≠ tmpPath := by
    have hpath := path_of_first hfirst
    intro heq
    have howner : owner w pml4 = PML4_ADDR := by
      simp only [path, tmpPath, List.cons.injEq] at heq
      exact if_pos heq.2.1
    rw [hpath] at heq
    exact t₂.leaf_ne_slot vacant.reached vacant.lt vacant.absent howner heq
  refine ⟨fun hne => (hv hne).1, page * PAGESIZE, ?_, ?_,
    (hchanges pml4 w root htmp).1 ⟨rfl, Or.inl rfl⟩, hchanges⟩
  · rw [mul_div_page]
    intro hused
    have hused₁ := ((adds₁.grows (by decide) inv.trees).used page).2 (Or.inl hused)
    exact vacant.free (((adds₂.grows hsmall t₁).used page).2 (Or.inl hused₁))
  · rw [mul_div_page]
    exact ((vacant.hung_leaf t₂ hsmall rfl).used page).2 (Or.inr rfl)

theorem mapPage_failed (inv : s.Inv) {v flags pml4 : ℕ} {m' : Paging} (root : s.Root pml4)
    (result : s.m.mapPage v 0 flags pml4 = some (0, m')) : s.SameTranslation m' := by
  have hsmall := attrs_small flags
  obtain ⟨v₁, m₁, -, adds₁, ⟨-, rfl⟩ | ⟨hne, -, hat⟩⟩ := mapPage_cases inv.trees result
  · exact sameTranslation_of_adds inv.trees (by decide) adds₁
  · have t₁ := adds₁.trees (by decide) inv.trees
    obtain ⟨-, m₂, adds₂, ⟨-, rfl⟩ | ⟨-, -, heq, -⟩⟩ := mapPageAt_cases t₁ root hat
    · exact (sameTranslation_of_adds inv.trees (by decide) adds₁).trans
        (sameTranslation_of_adds (s := s.withPaging m₁) t₁ hsmall adds₂)
    · exact absurd heq.symm hne

theorem unmapPage_unmapped (inv : s.Inv) {v : ℕ} (kernel : pageOf v ∈ s.mapped) :
    (s.withPaging (s.m.unmapPage v)).translate PML4_ADDR v = none ∧
    s.OnlyChanges (s.m.unmapPage v) PML4_ADDR v none ∧
    ∀ q, (s.m.unmapPage v).Used q ↔
      s.m.Used q ∧ ∀ f, s.translate PML4_ADDR v = some f → q ≠ f / PAGESIZE := by
  classical
  have managed := inv.kernel _ kernel
  have place := kernel_place inv.trees managed
  rw [path_pageOf] at managed place
  have t' := (unmapPage_spec inv.trees managed).1
  have hself : walk (s.m.unmapPage v).child PML4_ADDR (path v) = none := by
    rw [walk_unmapPage inv.trees managed place, if_pos ⟨rfl, rfl⟩]
  refine ⟨hself, ?_, ?_⟩
  · intro r' v' root tmp
    rw [translate_withPaging t' root, translate_eq inv.trees root,
      walk_unmapPage inv.trees managed (pos_canon root tmp)]
    by_cases hfirst : index v 39 = 0
    · have howner : owner v PML4_ADDR = PML4_ADDR := ite_self _
      rw [samePage_iff hfirst, howner]
      exact ⟨fun hsame => if_pos hsame, fun hother => if_neg hother⟩
    · -- nothing lies behind the other entries of a directory
      have hnone : path v' = path v → walk s.m.child (canon r' (path v')) (path v') = none := by
        intro hpath
        rw [walk_canon inv.trees root, hpath, path, walk_cons]
        cases hchild : s.m.child r' (index v 39) with
        | none => rfl
        | some f => exact absurd (inv.trees.top r' _ f root hchild) hfirst
      refine ⟨fun hsame => ?_, fun hother => ?_⟩
      · rw [hnone hsame.1, ite_self]
      · by_cases hpath : path v' = path v
        · rw [hnone hpath, ite_self]
        · exact if_neg fun h => hpath h.2
  · intro q
    rcases unmapPage_cut inv.trees managed with ⟨hnone, hsame⟩ | ⟨f₃, page, hcut, -, hwalk, -, hchild⟩
    · rw [hsame]
      refine ⟨fun hused => ⟨hused, fun f hf => ?_⟩, And.left⟩
      rw [translate, hnone] at hf
      cases hf
    · have hleaf : s.translate PML4_ADDR v = some (page * PAGESIZE) := by
        unfold translate
        rw [show path v = [index v 39, index v 30, index v 21] ++ [index v 12] from rfl, walk_concat,
          hwalk]
        exact hchild
      rw [hcut.used, hleaf]
      refine and_congr Iff.rfl ⟨?_, fun hne => ?_⟩
      · rintro hne f hf
        rw [← Option.some.inj hf, mul_div_page]
        exact hne
      · have hpage := hne _ rfl
        rwa [mul_div_page] at hpage

/-- `mapPage` and `unmapPage` change one translation in every reachable state. -/
theorem mapsLocally_reachable {availableMem : ℕ} (reach : Reachable availableMem s) :
    s.MapsLocally where
  failed := fun _ _ _ _ root result => mapPage_failed (inv_reachable reach) root result
  mapped := fun _ _ _ _ _ root result success =>
    mapPage_mapped (inv_reachable reach) root result success
  unmapped := fun _ kernel => unmapPage_unmapped (inv_reachable reach) kernel

/-- The state after `Paging::init`, with 16 megabytes of memory. -/
theorem mapsLocally_boot : (boot (fun _ => 0) (fun _ => 0) 0x1000000).MapsLocally :=
  mapsLocally_reachable (.boot _ _)

end Local

end PagingState
