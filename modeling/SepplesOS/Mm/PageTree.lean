import SepplesOS.Mm.Frames

/-!
# The page trees

All page directories refer to the kernel's page directory 0.  So a frame is placed by the directory
it belongs to and the path to it from there (`Pos`), and the shared directory belongs to the kernel.
`PageTrees` says that every frame beyond the bitmap has one place and is marked used.  Memory changes
in four ways: a fresh frame is hung into a tree, a kernel page is taken out, a directory is planted,
a directory is felled.
-/

namespace Paging

open TableForest

/-- The pages up to the end of the bitmap. -/
def reservedPages (m : Paging) : ℕ := FREE_PAGES_START / PAGESIZE + bitmapPages m.maxPhysPages

/-- The places for frames: everything below the kernel's directory but the temporary page, and below
another directory what it does not share with the kernel's. -/
def Pos (live : Set ℕ) (r : ℕ) (p : List ℕ) : Prop :=
  p.length ≤ 4 ∧ (r = PML4_ADDR ∧ p ≠ [0, 0, 0, 7] ∨ r ∈ live ∧ ¬[0, 0] <+: p)

/-- The places for tables. -/
def Interior (live : Set ℕ) (r : ℕ) (p : List ℕ) : Prop := Pos live r p ∧ p.length ≤ 3

/-- The tables of the boot code, by their paths. -/
def bootFrame : List ℕ → Option ℕ
  | [] => some PML4_ADDR
  | [0] => some PDPT0_ADDR
  | [0, 0] => some PD0_ADDR
  | [0, 0, 0] => some PT0_ADDR
  | _ => none

/-- The frame lies beyond the bitmap and is marked used. -/
structure Managed (m : Paging) (f : ℕ) : Prop where
  aligned : f % PAGESIZE = 0
  above : m.reservedPages ≤ f / PAGESIZE
  room : f / PAGESIZE < m.maxPhysPages
  used : m.Used (f / PAGESIZE)

/-- The frame was there from the start. -/
def Boot (m : Paging) (r : ℕ) (p : List ℕ) (f : ℕ) : Prop :=
  r = PML4_ADDR ∧ (bootFrame p = some f ∨ p.length = 4 ∧ f / PAGESIZE < m.reservedPages)

/-- The page trees of the kernel and of the live directories. -/
structure PageTrees (m : Paging) (live : Set ℕ) : Prop where
  apart : PML4_ADDR ∉ live
  boot : ∀ p f, bootFrame p = some f → walk m.child PML4_ADDR p = some f
  shared : ∀ d ∈ live, ∃ f, walk m.child d [0] = some f ∧ m.child f 0 = some PD0_ADDR
  top : ∀ r i f, r = PML4_ADDR ∨ r ∈ live → m.child r i = some f → i = 0
  low : ∀ page, page < m.reservedPages → page < m.maxPhysPages → m.Used page
  owned : ∀ r p f, Pos live r p → walk m.child r p = some f → m.Managed f ∨ m.Boot r p f
  sep : ∀ r p r' p' f, Pos live r p → Pos live r' p' → walk m.child r p = some f →
    walk m.child r' p' = some f → m.Managed f → r = r' ∧ p = p'

/-! ## Places -/

section Places

variable {live : Set ℕ} {r : ℕ} {p : List ℕ}

theorem pos_kernel (short : p.length ≤ 4) (ne : p ≠ [0, 0, 0, 7]) : Pos live PML4_ADDR p :=
  ⟨short, Or.inl ⟨rfl, ne⟩⟩

theorem Pos.interior {q : List ℕ} {i : ℕ} (h : Pos live r p) (before : q ++ [i] <+: p) :
    Interior live r q := by
  have hlen : q.length + 1 ≤ p.length := by simpa using before.length_le
  have hshort := h.1
  refine ⟨⟨by omega, ?_⟩, by omega⟩
  rcases h.2 with ⟨rfl, -⟩ | ⟨hlive, hshared⟩
  · refine Or.inl ⟨rfl, ?_⟩
    rintro rfl
    simp at hlen
    omega
  · exact Or.inr ⟨hlive, fun hq =>
      hshared (hq.trans ((List.prefix_append q [i]).trans before))⟩

theorem Pos.concat_interior {q : List ℕ} {i : ℕ} (h : Pos live r (q ++ [i])) : Interior live r q :=
  h.interior (List.prefix_rfl)

theorem bootFrame_short {f : ℕ} (h : bootFrame p = some f) : p.length ≤ 3 := by
  unfold bootFrame at h
  split at h <;> first | simp | cases h

theorem bootFrame_path {f : ℕ} (h : bootFrame p = some f) :
    p = List.replicate (f / PAGESIZE - 1) 0 := by
  unfold bootFrame at h
  split at h <;> first | (obtain rfl := Option.some.inj h; rfl) | cases h

theorem bootFrame_inj {p' : List ℕ} {f : ℕ} (h : bootFrame p = some f)
    (h' : bootFrame p' = some f) : p = p' :=
  (bootFrame_path h).trans (bootFrame_path h').symm

theorem bootFrame_low {f : ℕ} (h : bootFrame p = some f) :
    f % PAGESIZE = 0 ∧ f / PAGESIZE < FREE_PAGES_START / PAGESIZE := by
  unfold bootFrame at h
  split at h <;> first | (obtain rfl := Option.some.inj h; decide) | cases h

theorem pos_bootFrame {f : ℕ} (h : bootFrame p = some f) : Pos live PML4_ADDR p := by
  have hshort := bootFrame_short h
  refine pos_kernel (by omega) ?_
  rintro rfl
  simp at hshort

end Places

section Trees

variable {m : Paging} {live : Set ℕ}

theorem reserved_le : FREE_PAGES_START / PAGESIZE ≤ m.reservedPages := Nat.le_add_right _ _

theorem Managed.not_boot {f : ℕ} {r : ℕ} {p : List ℕ} (h : m.Managed f) : ¬m.Boot r p f := by
  rintro ⟨-, hboot | ⟨-, hlow⟩⟩
  · have hlow := (bootFrame_low hboot).2
    have := h.above
    have := reserved_le (m := m)
    omega
  · have := h.above
    omega

namespace PageTrees

variable (t : PageTrees m live)
include t

theorem fresh_above {page : ℕ} (free : ¬m.Used page) (room : page < m.maxPhysPages) :
    m.reservedPages ≤ page :=
  Nat.le_of_not_lt fun hlow => free (t.low page hlow room)

/-- A table is one of the boot code or lies beyond the bitmap. -/
theorem table {r : ℕ} {p : List ℕ} {f : ℕ} (h : Interior live r p)
    (hwalk : walk m.child r p = some f) :
    m.Managed f ∨ r = PML4_ADDR ∧ bootFrame p = some f := by
  rcases t.owned r p f h.1 hwalk with hm | ⟨hr, hboot | ⟨hlen, -⟩⟩
  · exact Or.inl hm
  · exact Or.inr ⟨hr, hboot⟩
  · have := h.2
    omega

theorem table_aligned {r : ℕ} {p : List ℕ} {f : ℕ} (h : Interior live r p)
    (hwalk : walk m.child r p = some f) : f % PAGESIZE = 0 := by
  rcases t.table h hwalk with hm | ⟨-, hboot⟩
  · exact hm.aligned
  · exact (bootFrame_low hboot).1

theorem table_ne_fresh {r : ℕ} {p : List ℕ} {f page : ℕ} (h : Interior live r p)
    (hwalk : walk m.child r p = some f) (free : ¬m.Used page) (room : page < m.maxPhysPages) :
    f ≠ page * PAGESIZE := by
  rintro rfl
  rcases t.table h hwalk with hm | ⟨-, hboot⟩
  · have hused := hm.used
    rw [mul_div_page] at hused
    exact free hused
  · have hlow := (bootFrame_low hboot).2
    rw [mul_div_page] at hlow
    have := t.fresh_above free room
    have := reserved_le (m := m)
    omega

/-- No two tables share a frame. -/
theorem separate : Separate m.child (Interior live) := by
  intro r p r' p' f h h' hwalk hwalk'
  rcases t.table h hwalk with hm | ⟨hr, hboot⟩
  · exact t.sep r p r' p' f h.1 h'.1 hwalk hwalk' hm
  · rcases t.table h' hwalk' with hm | ⟨hr', hboot'⟩
    · exact t.sep r p r' p' f h.1 h'.1 hwalk hwalk' hm
    · exact ⟨hr.trans hr'.symm, bootFrame_inj hboot hboot'⟩

theorem owned_live {d f : ℕ} {p : List ℕ} (hd : d ∈ live) (hp : Pos live d p)
    (hwalk : walk m.child d p = some f) : m.Managed f := by
  rcases t.owned d p f hp hwalk with hm | hb
  · exact hm
  · exact absurd (hb.1 ▸ hd) t.apart

theorem live_managed {d : ℕ} (hd : d ∈ live) : m.Managed d :=
  t.owned_live hd ⟨by simp, Or.inr ⟨hd, by simp⟩⟩ (walk_nil _ _)

end PageTrees

end Trees

/-! ## Hanging a frame into a tree -/

/-- The free page is hung in as entry `i₀` of the table `f₀`, as an empty table or as a leaf. -/
structure Hung (m m' : Paging) (f₀ i₀ page : ℕ) (table : Prop) : Prop where
  max : m'.maxPhysPages = m.maxPhysPages
  free : ¬m.Used page
  room : page < m.maxPhysPages
  entry : m'.child f₀ i₀ = some (page * PAGESIZE)
  others : ∀ f i, f % PAGESIZE = 0 → f ≠ page * PAGESIZE → ¬(f = f₀ ∧ i = i₀) →
    m'.child f i = m.child f i
  empty : table → ∀ i, m'.child (page * PAGESIZE) i = none
  used : ∀ q, m'.Used q ↔ m.Used q ∨ q = page

section Hung

variable {m m' : Paging} {live : Set ℕ} {r₀ f₀ i₀ page : ℕ} {q₀ : List ℕ}

theorem Managed.mono {f : ℕ} (h : m.Managed f) (max : m'.maxPhysPages = m.maxPhysPages)
    (used : m'.Used (f / PAGESIZE)) : m'.Managed f where
  aligned := h.aligned
  above := by
    unfold reservedPages
    rw [max]
    exact h.above
  room := max ▸ h.room
  used := used

theorem reservedPages_congr (max : m'.maxPhysPages = m.maxPhysPages) :
    m'.reservedPages = m.reservedPages := by
  unfold reservedPages
  rw [max]

theorem Boot.congr {r f : ℕ} {p : List ℕ} (h : m.Boot r p f)
    (max : m'.maxPhysPages = m.maxPhysPages) : m'.Boot r p f := by
  unfold Boot
  rw [reservedPages_congr max]
  exact h

variable (t : PageTrees m live) (h : Hung m m' f₀ i₀ page (q₀.length < 3))
  (place : Pos live r₀ (q₀ ++ [i₀])) (hwalk : walk m.child r₀ q₀ = some f₀)
  (absent : m.child f₀ i₀ = none)
include t h place hwalk absent

theorem PageTrees.walk_hung {r : ℕ} {p : List ℕ} (hp : Pos live r p)
    [Decidable (r = r₀ ∧ p = q₀ ++ [i₀])] :
    walk m'.child r p =
      if r = r₀ ∧ p = q₀ ++ [i₀] then some (page * PAGESIZE) else walk m.child r p := by
  apply walk_change t.separate place.concat_interior hwalk h.entry
  · intro r q f i hq hf hne
    exact h.others f i (t.table_aligned hq hf) (t.table_ne_fresh hq hf h.free h.room) hne
  · intro hin
    have hlen : q₀.length + 1 ≤ 3 := by simpa using hin.2
    refine ⟨absent, fun c hc => ?_⟩
    obtain rfl := Option.some.inj hc
    exact h.empty (by omega)
  · intro q i hq
    exact hp.interior hq

theorem PageTrees.keep_hung {r f : ℕ} {p : List ℕ} (hp : Pos live r p)
    (hf : walk m.child r p = some f) : walk m'.child r p = some f := by
  classical
  rw [t.walk_hung h place hwalk absent hp, if_neg]
  · exact hf
  · rintro ⟨rfl, rfl⟩
    rw [walk_concat, hwalk] at hf
    exact absurd (absent.symm.trans hf) (by simp)

theorem PageTrees.cases_hung {r f : ℕ} {p : List ℕ} (hp : Pos live r p)
    (hf : walk m'.child r p = some f) :
    (r = r₀ ∧ p = q₀ ++ [i₀]) ∧ f = page * PAGESIZE ∨
      walk m.child r p = some f ∧ f ≠ page * PAGESIZE := by
  classical
  rw [t.walk_hung h place hwalk absent hp] at hf
  split_ifs at hf with hnew
  · exact Or.inl ⟨hnew, (Option.some.inj hf).symm⟩
  · refine Or.inr ⟨hf, ?_⟩
    rintro rfl
    rcases t.owned r p _ hp hf with hm | ⟨-, hboot | ⟨-, hlow⟩⟩
    · have hused := hm.used
      rw [mul_div_page] at hused
      exact h.free hused
    · have hlow := (bootFrame_low hboot).2
      rw [mul_div_page] at hlow
      have := t.fresh_above h.free h.room
      have := reserved_le (m := m)
      omega
    · rw [mul_div_page] at hlow
      have := t.fresh_above h.free h.room
      omega

/-- Hanging a free page below the first level keeps the page trees. -/
theorem PageTrees.hung (below : q₀ ≠ []) : PageTrees m' live where
  apart := t.apart
  boot := fun p f hp => t.keep_hung h place hwalk absent (pos_bootFrame hp) (t.boot p f hp)
  shared := by
    intro d hd
    obtain ⟨f, hf, hchild⟩ := t.shared d hd
    have hpos : Pos live d [0] := ⟨by simp, Or.inr ⟨hd, by simp⟩⟩
    refine ⟨f, t.keep_hung h place hwalk absent hpos hf, ?_⟩
    have hin : Interior live d [0] := ⟨hpos, by simp⟩
    rw [h.others f 0 (t.table_aligned hin hf) (t.table_ne_fresh hin hf h.free h.room)]
    · exact hchild
    · rintro ⟨rfl, rfl⟩
      rw [absent] at hchild
      cases hchild
  top := by
    intro r i f hr hf
    have hpos : Pos live r [i] := by
      rcases hr with rfl | hr
      · exact pos_kernel (by simp) (by simp)
      · exact ⟨by simp, Or.inr ⟨hr, fun hp => by simpa using hp.length_le⟩⟩
    have hw : walk m'.child r [i] = some f := by rw [walk_cons, hf]; rfl
    rcases t.cases_hung h place hwalk absent hpos hw with ⟨⟨-, hnew⟩, -⟩ | ⟨hold, -⟩
    · exact absurd (List.append_eq_singleton_iff.1 hnew.symm) (by simp [below])
    · rw [walk_cons] at hold
      cases hi : m.child r i with
      | none =>
        rw [hi] at hold
        cases hold
      | some g => exact t.top r i g hr hi
  low := by
    intro q hlow hroom
    rw [reservedPages_congr h.max] at hlow
    rw [h.max] at hroom
    exact (h.used q).2 (Or.inl (t.low q hlow hroom))
  owned := by
    intro r p f hp hf
    rcases t.cases_hung h place hwalk absent hp hf with ⟨-, rfl⟩ | ⟨hold, -⟩
    · refine Or.inl ⟨Nat.mul_mod_left _ _, ?_, ?_, ?_⟩ <;> rw [mul_div_page]
      · rw [reservedPages_congr h.max]
        exact t.fresh_above h.free h.room
      · exact h.max ▸ h.room
      · exact (h.used page).2 (Or.inr rfl)
    · rcases t.owned r p f hp hold with hm | hb
      · exact Or.inl (hm.mono h.max ((h.used _).2 (Or.inl hm.used)))
      · exact Or.inr (hb.congr h.max)
  sep := by
    intro r p r' p' f hp hp' hf hf' hm
    rcases t.cases_hung h place hwalk absent hp hf with ⟨⟨rfl, rfl⟩, heq⟩ | ⟨hold, hne⟩
    · rcases t.cases_hung h place hwalk absent hp' hf' with ⟨⟨rfl, rfl⟩, -⟩ | ⟨-, hne'⟩
      · exact ⟨rfl, rfl⟩
      · exact absurd heq hne'
    · rcases t.cases_hung h place hwalk absent hp' hf' with ⟨-, heq'⟩ | ⟨hold', -⟩
      · exact absurd heq' hne
      · refine t.sep r p r' p' f hp hp' hold hold' ?_
        rcases t.owned r p f hp hold with hmanaged | hboot
        · exact hmanaged
        · exact absurd (hboot.congr h.max) hm.not_boot

end Hung

/-! ## Taking a page out -/

/-- Entry `i₀` of the table `f₀` is cleared and its page marked free. -/
structure Cut (m m' : Paging) (f₀ i₀ page : ℕ) : Prop where
  max : m'.maxPhysPages = m.maxPhysPages
  entry : m'.child f₀ i₀ = none
  others : ∀ f i, f % PAGESIZE = 0 → ¬(f = f₀ ∧ i = i₀) → m'.child f i = m.child f i
  used : ∀ q, m'.Used q ↔ m.Used q ∧ q ≠ page

section Cut

variable {m m' : Paging} {live : Set ℕ} {r₀ f₀ i₀ page : ℕ} {q₀ : List ℕ}

variable (t : PageTrees m live) (h : Cut m m' f₀ i₀ page) (leaf : q₀.length = 3)
  (place : Pos live r₀ (q₀ ++ [i₀])) (hwalk : walk m.child r₀ q₀ = some f₀)
include t h leaf place hwalk

theorem PageTrees.walk_cut {r : ℕ} {p : List ℕ} (hp : Pos live r p)
    [Decidable (r = r₀ ∧ p = q₀ ++ [i₀])] :
    walk m'.child r p = if r = r₀ ∧ p = q₀ ++ [i₀] then none else walk m.child r p := by
  apply walk_change t.separate place.concat_interior hwalk h.entry
  · intro r q f i hq hf hne
    exact h.others f i (t.table_aligned hq hf) hne
  · intro hin
    have hlen : q₀.length + 1 ≤ 3 := by simpa using hin.2
    omega
  · intro q i hq
    exact hp.interior hq

theorem PageTrees.cases_cut (managed : m.Managed (page * PAGESIZE))
    (present : m.child f₀ i₀ = some (page * PAGESIZE)) {r f : ℕ} {p : List ℕ} (hp : Pos live r p)
    (hf : walk m'.child r p = some f) :
    walk m.child r p = some f ∧ f ≠ page * PAGESIZE := by
  classical
  rw [t.walk_cut h leaf place hwalk hp] at hf
  split_ifs at hf with hnew
  refine ⟨hf, ?_⟩
  rintro rfl
  refine hnew (t.sep r p r₀ (q₀ ++ [i₀]) _ hp place hf ?_ managed)
  rw [walk_concat, hwalk]
  exact present

/-- Taking out a page beyond the bitmap keeps the page trees. -/
theorem PageTrees.cut (managed : m.Managed (page * PAGESIZE))
    (present : m.child f₀ i₀ = some (page * PAGESIZE)) : PageTrees m' live where
  apart := t.apart
  boot := by
    classical
    intro p f hp
    rw [t.walk_cut h leaf place hwalk (pos_bootFrame hp), if_neg]
    · exact t.boot p f hp
    · rintro ⟨-, rfl⟩
      have hshort := bootFrame_short hp
      rw [List.length_append, leaf] at hshort
      simp at hshort
  shared := by
    classical
    intro d hd
    obtain ⟨f, hf, hchild⟩ := t.shared d hd
    have hin : Interior live d [0] := ⟨⟨by simp, Or.inr ⟨hd, by simp⟩⟩, by simp⟩
    refine ⟨f, ?_, ?_⟩
    · rw [t.walk_cut h leaf place hwalk hin.1, if_neg]
      · exact hf
      · rintro ⟨-, heq⟩
        have hlen := congrArg List.length heq
        rw [List.length_append, leaf] at hlen
        simp at hlen
    · rw [h.others f 0 (t.table_aligned hin hf)]
      · exact hchild
      · rintro ⟨rfl, -⟩
        have heq := (t.separate _ _ _ _ _ hin place.concat_interior hf hwalk).2
        rw [← heq] at leaf
        simp at leaf
  top := by
    intro r i f hr hf
    by_cases hat : r = f₀ ∧ i = i₀
    · rw [hat.1, hat.2, h.entry] at hf
      cases hf
    · have haligned : r % PAGESIZE = 0 := by
        rcases hr with rfl | hr
        · rfl
        · exact (t.live_managed hr).aligned
      rw [h.others r i haligned hat] at hf
      exact t.top r i f hr hf
  low := by
    intro q hlow hroom
    rw [reservedPages_congr h.max] at hlow
    rw [h.max] at hroom
    refine (h.used q).2 ⟨t.low q hlow hroom, ?_⟩
    rintro rfl
    have := managed.above
    rw [mul_div_page] at this
    omega
  owned := by
    intro r p f hp hf
    obtain ⟨hold, hne⟩ := t.cases_cut h leaf place hwalk managed present hp hf
    rcases t.owned r p f hp hold with hm | hb
    · refine Or.inl (hm.mono h.max ((h.used _).2 ⟨hm.used, ?_⟩))
      rintro rfl
      exact hne (Nat.div_mul_cancel (Nat.dvd_of_mod_eq_zero hm.aligned)).symm
    · exact Or.inr (hb.congr h.max)
  sep := by
    intro r p r' p' f hp hp' hf hf' hm
    obtain ⟨hold, -⟩ := t.cases_cut h leaf place hwalk managed present hp hf
    obtain ⟨hold', -⟩ := t.cases_cut h leaf place hwalk managed present hp' hf'
    refine t.sep r p r' p' f hp hp' hold hold' ?_
    rcases t.owned r p f hp hold with hmanaged | hboot
    · exact hmanaged
    · exact absurd (hboot.congr h.max) hm.not_boot

end Cut

/-! ## Planting a directory -/

/-- The free pages `d` and `f` become a directory that shares the kernel's page directory 0. -/
structure Planted (m m' : Paging) (d f : ℕ) : Prop where
  max : m'.maxPhysPages = m.maxPhysPages
  free : ¬m.Used d
  room : d < m.maxPhysPages
  free_table : ¬m.Used f
  room_table : f < m.maxPhysPages
  ne : d ≠ f
  root : ∀ i, m'.child (d * PAGESIZE) i = if i = 0 then some (f * PAGESIZE) else none
  table : ∀ i, m'.child (f * PAGESIZE) i = if i = 0 then some PD0_ADDR else none
  others : ∀ g i, g % PAGESIZE = 0 → g ≠ d * PAGESIZE → g ≠ f * PAGESIZE →
    m'.child g i = m.child g i
  used : ∀ q, m'.Used q ↔ m.Used q ∨ q = d ∨ q = f

section Planted

variable {m m' : Paging} {live : Set ℕ} {d f : ℕ}

theorem Planted.walk_root (h : Planted m m' d f) {p : List ℕ} {g : ℕ} (apart : ¬[0, 0] <+: p)
    (hg : walk m'.child (d * PAGESIZE) p = some g) :
    p = [] ∧ g = d * PAGESIZE ∨ p = [0] ∧ g = f * PAGESIZE := by
  match p with
  | [] => exact Or.inl ⟨rfl, (Option.some.inj hg).symm⟩
  | i :: p =>
    rw [walk_cons, h.root] at hg
    split_ifs at hg with hi
    · subst hi
      change walk m'.child (f * PAGESIZE) p = some g at hg
      match p with
      | [] => exact Or.inr ⟨rfl, (Option.some.inj hg).symm⟩
      | j :: p =>
        rw [walk_cons, h.table] at hg
        split_ifs at hg with hj
        · exact absurd ⟨p, by rw [hj]; rfl⟩ apart
        · cases hg
    · cases hg

variable (t : PageTrees m live) (h : Planted m m' d f)
include t h

theorem PageTrees.walk_planted {r : ℕ} {p : List ℕ} (hp : Pos live r p) :
    walk m'.child r p = walk m.child r p := by
  refine walk_congr fun q i hq g hg => ?_
  have hin := hp.interior hq
  exact h.others g i (t.table_aligned hin hg) (t.table_ne_fresh hin hg h.free h.room)
    (t.table_ne_fresh hin hg h.free_table h.room_table)

theorem PageTrees.cases_planted {r g : ℕ} {p : List ℕ} (hp : Pos (insert (d * PAGESIZE) live) r p)
    (hg : walk m'.child r p = some g) :
    (Pos live r p ∧ walk m.child r p = some g) ∨
      r = d * PAGESIZE ∧ (p = [] ∧ g = d * PAGESIZE ∨ p = [0] ∧ g = f * PAGESIZE) := by
  rcases hp.2 with hk | ⟨rfl | hr, hshared⟩
  · have hold : Pos live r p := ⟨hp.1, Or.inl hk⟩
    exact Or.inl ⟨hold, by rw [← t.walk_planted h hold]; exact hg⟩
  · exact Or.inr ⟨rfl, h.walk_root hshared hg⟩
  · have hold : Pos live r p := ⟨hp.1, Or.inr ⟨hr, hshared⟩⟩
    exact Or.inl ⟨hold, by rw [← t.walk_planted h hold]; exact hg⟩

theorem PageTrees.new_managed {page : ℕ} (either : page = d ∨ page = f) :
    m'.Managed (page * PAGESIZE) := by
  have hfree : ¬m.Used page := by
    rcases either with rfl | rfl
    · exact h.free
    · exact h.free_table
  have hroom : page < m.maxPhysPages := by
    rcases either with rfl | rfl
    · exact h.room
    · exact h.room_table
  refine ⟨Nat.mul_mod_left _ _, ?_, ?_, ?_⟩ <;> rw [mul_div_page]
  · rw [reservedPages_congr h.max]
    exact t.fresh_above hfree hroom
  · exact h.max ▸ hroom
  · exact (h.used page).2 (Or.inr either)

theorem PageTrees.old_ne {r g page : ℕ} {p : List ℕ} (either : page = d ∨ page = f)
    (hp : Pos live r p) (hg : walk m.child r p = some g) (managed : m'.Managed g) :
    g ≠ page * PAGESIZE := by
  rintro rfl
  rcases t.owned r p _ hp hg with hm | hb
  · have hused := hm.used
    rw [mul_div_page] at hused
    rcases either with rfl | rfl
    · exact h.free hused
    · exact h.free_table hused
  · exact managed.not_boot (hb.congr h.max)

/-- Planting a directory keeps the page trees. -/
theorem PageTrees.planted : PageTrees m' (insert (d * PAGESIZE) live) where
  apart := by
    rintro (heq | hlive)
    · have habove := (t.new_managed h (Or.inl rfl)).above
      rw [← heq] at habove
      exact absurd (reserved_le.trans habove) (by decide)
    · exact t.apart hlive
  boot := fun p g hp => by
    rw [t.walk_planted h (pos_bootFrame hp)]
    exact t.boot p g hp
  shared := by
    rintro r (rfl | hr)
    · refine ⟨f * PAGESIZE, ?_, ?_⟩
      · rw [walk_cons, h.root, if_pos rfl]
        rfl
      · rw [h.table, if_pos rfl]
    · obtain ⟨g, hg, hchild⟩ := t.shared r hr
      have hin : Interior live r [0] := ⟨⟨by simp, Or.inr ⟨hr, by simp⟩⟩, by simp⟩
      refine ⟨g, by rw [t.walk_planted h hin.1]; exact hg, ?_⟩
      rw [h.others g 0 (t.table_aligned hin hg) (t.table_ne_fresh hin hg h.free h.room)
        (t.table_ne_fresh hin hg h.free_table h.room_table)]
      exact hchild
  top := by
    intro r i g hr hg
    by_cases hnew : r = d * PAGESIZE
    · subst hnew
      rw [h.root] at hg
      split_ifs at hg with hi
      exact hi
    · have hold : r = PML4_ADDR ∨ r ∈ live := by
        rcases hr with rfl | heq | hr
        · exact Or.inl rfl
        · exact absurd heq hnew
        · exact Or.inr hr
      have hin : Interior live r [] := by
        rcases hold with rfl | hr
        · exact ⟨pos_kernel (by simp) (by simp), by simp⟩
        · exact ⟨⟨by simp, Or.inr ⟨hr, by simp⟩⟩, by simp⟩
      rw [h.others r i (t.table_aligned hin rfl) (t.table_ne_fresh hin rfl h.free h.room)
        (t.table_ne_fresh hin rfl h.free_table h.room_table)] at hg
      exact t.top r i g hold hg
  low := by
    intro q hlow hroom
    rw [reservedPages_congr h.max] at hlow
    rw [h.max] at hroom
    exact (h.used q).2 (Or.inl (t.low q hlow hroom))
  owned := by
    intro r p g hp hg
    rcases t.cases_planted h hp hg with ⟨hold, hwalk⟩ | ⟨-, ⟨-, rfl⟩ | ⟨-, rfl⟩⟩
    · rcases t.owned r p g hold hwalk with hm | hb
      · exact Or.inl (hm.mono h.max ((h.used _).2 (Or.inl hm.used)))
      · exact Or.inr (hb.congr h.max)
    · exact Or.inl (t.new_managed h (Or.inl rfl))
    · exact Or.inl (t.new_managed h (Or.inr rfl))
  sep := by
    intro r p r' p' g hp hp' hg hg' hm
    have hpages : d * PAGESIZE ≠ f * PAGESIZE := by
      intro heq
      exact h.ne (Nat.eq_of_mul_eq_mul_right (by decide) heq)
    rcases t.cases_planted h hp hg with ⟨hold, hwalk⟩ | ⟨rfl, hnew⟩
    · rcases t.cases_planted h hp' hg' with ⟨hold', hwalk'⟩ | ⟨-, ⟨-, heq⟩ | ⟨-, heq⟩⟩
      · refine t.sep r p r' p' g hold hold' hwalk hwalk' ?_
        rcases t.owned r p g hold hwalk with hmanaged | hboot
        · exact hmanaged
        · exact absurd (hboot.congr h.max) hm.not_boot
      · exact absurd heq (t.old_ne h (Or.inl rfl) hold hwalk hm)
      · exact absurd heq (t.old_ne h (Or.inr rfl) hold hwalk hm)
    · rcases t.cases_planted h hp' hg' with ⟨hold', hwalk'⟩ | ⟨rfl, hnew'⟩
      · rcases hnew with ⟨-, heq⟩ | ⟨-, heq⟩
        · exact absurd heq (t.old_ne h (Or.inl rfl) hold' hwalk' hm)
        · exact absurd heq (t.old_ne h (Or.inr rfl) hold' hwalk' hm)
      · rcases hnew with ⟨rfl, rfl⟩ | ⟨rfl, rfl⟩ <;> rcases hnew' with ⟨rfl, heq⟩ | ⟨rfl, heq⟩
        · exact ⟨rfl, rfl⟩
        · exact absurd heq hpages
        · exact absurd heq.symm hpages
        · exact ⟨rfl, rfl⟩

end Planted

/-! ## Felling a directory -/

/-- The pages that belong to a directory. -/
def Belongs (m : Paging) (live : Set ℕ) (d page : ℕ) : Prop :=
  ∃ p, Pos live d p ∧ walk m.child d p = some (page * PAGESIZE)

/-- All pages of the directory `d` are marked free. -/
structure Felled (m m' : Paging) (live : Set ℕ) (d : ℕ) : Prop where
  mem : m'.mem = m.mem
  max : m'.maxPhysPages = m.maxPhysPages
  used : ∀ q, m'.Used q ↔ m.Used q ∧ ¬m.Belongs live d q

section Felled

variable {m m' : Paging} {live : Set ℕ} {d : ℕ}

theorem Pos.mono {live' : Set ℕ} {r : ℕ} {p : List ℕ} (h : Pos live r p) (sub : live ⊆ live') :
    Pos live' r p :=
  ⟨h.1, h.2.imp_right fun hr => ⟨sub hr.1, hr.2⟩⟩

theorem Pos.root {r : ℕ} {p : List ℕ} (h : Pos live r p) : r = PML4_ADDR ∨ r ∈ live :=
  h.2.imp And.left And.left

variable (t : PageTrees m live)
include t

theorem PageTrees.belongs_other {r page : ℕ} {p : List ℕ} (hp : Pos live r p)
    (hwalk : walk m.child r p = some (page * PAGESIZE)) (managed : m.Managed (page * PAGESIZE))
    (ne : r ≠ d) : ¬m.Belongs live d page := by
  rintro ⟨q, hq, hd⟩
  exact ne (t.sep r p d q _ hp hq hwalk hd managed).1

theorem PageTrees.belongs_managed (hd : d ∈ live) {page : ℕ} (h : m.Belongs live d page) :
    m.Managed (page * PAGESIZE) := by
  obtain ⟨p, hp, hwalk⟩ := h
  exact t.owned_live hd hp hwalk

/-- Felling a directory keeps the page trees of the others. -/
theorem PageTrees.felled (hd : d ∈ live) (h : Felled m m' live d) :
    PageTrees m' (live \ {d}) := by
  have hchild : m'.child = m.child := child_of_mem h.mem
  have hsub : live \ {d} ⊆ live := Set.sdiff_subset
  have hne : ∀ r, r = PML4_ADDR ∨ r ∈ live \ {d} → r ≠ d := by
    rintro r (rfl | hr) rfl
    · exact t.apart hd
    · exact hr.2 rfl
  constructor
  case apart => exact fun hk => t.apart (hsub hk)
  case boot =>
    rw [hchild]
    exact t.boot
  case shared =>
    rw [hchild]
    exact fun r hr => t.shared r (hsub hr)
  case top =>
    rw [hchild]
    exact fun r i f hr => t.top r i f (hr.imp_right (@hsub r))
  case low =>
    intro q hlow hroom
    rw [reservedPages_congr h.max] at hlow
    rw [h.max] at hroom
    refine (h.used q).2 ⟨t.low q hlow hroom, fun hb => ?_⟩
    have habove := (t.belongs_managed hd hb).above
    rw [mul_div_page] at habove
    omega
  case owned =>
    rw [hchild]
    intro r p f hp hf
    rcases t.owned r p f (hp.mono hsub) hf with hm | hb
    · have hpage : f / PAGESIZE * PAGESIZE = f :=
        Nat.div_mul_cancel (Nat.dvd_of_mod_eq_zero hm.aligned)
      refine Or.inl (hm.mono h.max ((h.used _).2 ⟨hm.used, ?_⟩))
      apply t.belongs_other (hp.mono hsub) _ _ (hne r hp.root)
      · rw [hpage]
        exact hf
      · rw [hpage]
        exact hm
    · exact Or.inr (hb.congr h.max)
  case sep =>
    rw [hchild]
    intro r p r' p' f hp hp' hf hf' hm
    exact t.sep r p r' p' f (hp.mono hsub) (hp'.mono hsub) hf hf'
      (hm.mono h.max.symm ((h.used _).1 hm.used).1)

end Felled

end Paging
