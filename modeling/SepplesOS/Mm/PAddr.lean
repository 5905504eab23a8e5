import SepplesOS.Mm.StaleFrames

/-!
# Reading a mapping back

`getPAddr` (`kernel/mm/paging.cpp`) walks the kernel's tables like the hardware, but it takes the
address out of an entry with `~0x7FF` where `mapPage` puts it in above twelve bits of flags.  The
two agree as long as no entry of the kernel's tables has the flag `0x800`.
-/

/-- `entry & ~0x7FF`. -/
def addrOf (entry : ℕ) : ℕ := entry - entry % 0x800

namespace Paging

open TableForest

variable (m : Paging)

/-- `getPAddr`; `0` when an entry on the way is not present. -/
def getPAddr (vaddr : ℕ) : ℕ :=
  let entry := m.phyread (PML4_ADDR + index vaddr 39 * 8)
  if Present entry then
    let entry := m.phyread (addrOf entry + index vaddr 30 * 8)
    if Present entry then
      let entry := m.phyread (addrOf entry + index vaddr 21 * 8)
      if Present entry then
        let entry := m.phyread (addrOf entry + index vaddr 12 * 8)
        if Present entry then addrOf entry else 0
      else 0
    else 0
  else 0

/-- The flag `0x800` is not set. -/
def CleanEntry (entry : ℕ) : Prop := entry % PAGESIZE < 0x800

/-- No present entry of the kernel's tables has the flag `0x800`. -/
def CleanEntries : Prop :=
  ∀ q f i, q.length ≤ 3 → walk m.child PML4_ADDR q = some f → i < 512 →
    Present (m.phyread (f + i * 8)) → CleanEntry (m.phyread (f + i * 8))

/-! ## Entries -/

section Entries

variable {m}

theorem addrOf_clean {entry : ℕ} (clean : CleanEntry entry) : addrOf entry = pageOf entry := by
  have h : entry % 4096 < 2048 := clean
  show entry - entry % 2048 = entry - entry % 4096
  omega

theorem clean_or {p flags : ℕ} (aligned : p % PAGESIZE = 0) (small : flags < 0x800) :
    CleanEntry (p ||| (PAGE_ATTR_PRESENT ||| PAGE_ATTR_WRITE ||| flags)) := by
  have hflags : PAGE_ATTR_PRESENT ||| PAGE_ATTR_WRITE ||| flags < 0x800 :=
    Nat.or_lt_two_pow (n := 11) (by decide) small
  have haligned : p % 4096 = 0 := aligned
  rw [CleanEntry, page_or aligned (hflags.trans (by decide))]
  show (p + _) % 4096 < _
  omega

theorem flags_clean {flags : ℕ} (clear : flags.testBit 11 = false) : flags &&& 0xFFF < 0x800 := by
  have hmod : flags &&& 0xFFF = flags % 2 ^ 12 := Nat.and_two_pow_sub_one_eq_mod flags 12
  rw [Nat.testBit_eq_decide_div_mod_eq, decide_eq_false_iff_not] at clear
  rw [hmod]
  omega

theorem CleanEntries.next (clean : m.CleanEntries) {q : List ℕ} {f i : ℕ} (short : q.length ≤ 3)
    (reached : walk m.child PML4_ADDR q = some f) (lt : i < 512)
    (present : Present (m.phyread (f + i * 8))) :
    ∃ g, addrOf (m.phyread (f + i * 8)) = g ∧ walk m.child PML4_ADDR (q ++ [i]) = some g := by
  refine ⟨_, addrOf_clean (clean q f i short reached lt present), ?_⟩
  rw [walk_concat, reached]
  exact child_of_present lt present

theorem walk_absent {q s : List ℕ} {r f i : ℕ} (reached : walk m.child r q = some f)
    (absent : ¬Present (m.phyread (f + i * 8))) : walk m.child r (q ++ i :: s) = none := by
  rw [walk_append, reached, Option.bind_some, walk_cons, child_of_not_present absent]
  rfl

/-- In clean tables `getPAddr` is the walk of the hardware. -/
theorem getPAddr_eq (clean : m.CleanEntries) (v : ℕ) :
    m.getPAddr v = (walk m.child PML4_ADDR (path v)).getD 0 := by
  have w₀ : walk m.child PML4_ADDR [] = some PML4_ADDR := rfl
  unfold getPAddr path
  dsimp only
  by_cases h₁ : Present (m.phyread (PML4_ADDR + index v 39 * 8))
  · obtain ⟨f₁, e₁, w₁⟩ := clean.next (by simp) w₀ (index_lt v 39) h₁
    rw [if_pos h₁, e₁]
    by_cases h₂ : Present (m.phyread (f₁ + index v 30 * 8))
    · obtain ⟨f₂, e₂, w₂⟩ := clean.next (by simp) w₁ (index_lt v 30) h₂
      rw [if_pos h₂, e₂]
      by_cases h₃ : Present (m.phyread (f₂ + index v 21 * 8))
      · obtain ⟨f₃, e₃, w₃⟩ := clean.next (by simp) w₂ (index_lt v 21) h₃
        rw [if_pos h₃, e₃]
        by_cases h₄ : Present (m.phyread (f₃ + index v 12 * 8))
        · obtain ⟨f₄, e₄, w₄⟩ := clean.next (by simp) w₃ (index_lt v 12) h₄
          rw [if_pos h₄, e₄]
          exact (congrArg (Option.getD · 0) w₄).symm
        · rw [if_neg h₄]
          exact (congrArg (Option.getD · 0) (walk_absent (s := []) w₃ h₄)).symm
      · rw [if_neg h₃]
        exact (congrArg (Option.getD · 0) (walk_absent w₂ h₃)).symm
    · rw [if_neg h₂]
      exact (congrArg (Option.getD · 0) (walk_absent w₁ h₂)).symm
  · rw [if_neg h₁]
    exact (congrArg (Option.getD · 0) (walk_absent w₀ h₁)).symm

end Entries

/-! ## What keeps the tables clean -/

section Keep

variable {m} {m' : Paging} {live : Set ℕ}

theorem CleanEntries.congr (clean : m.CleanEntries) (h : m'.mem = m.mem) : m'.CleanEntries := by
  intro q f i short reached lt present
  rw [child_of_mem h] at reached
  rw [phyread_congr h] at present ⊢
  exact clean q f i short reached lt present

theorem interior_kernel {q : List ℕ} (short : q.length ≤ 3) : Interior live PML4_ADDR q := by
  refine ⟨pos_kernel (by omega) ?_, short⟩
  rintro rfl
  simp at short

theorem walk_leaf (t : PageTrees m live) {r f i w : ℕ} {q : List ℕ} (h : Interior live r q)
    (leaf : q.length = 3) (reached : walk m.child r q = some f) (lt : i < 512) {q' : List ℕ}
    (short : q'.length ≤ 3) :
    walk (m.phywrite (f + i * 8) w).child PML4_ADDR q' = walk m.child PML4_ADDR q' := by
  apply walk_congr
  intro p j hp g hg
  have hin : Interior live PML4_ADDR p := (interior_kernel short).1.interior hp
  apply child_phywrite_ne (t.table_aligned hin hg) (t.table_aligned h reached) lt
  rintro ⟨rfl, -⟩
  have heq := (t.separate _ _ _ _ _ hin h hg reached).2
  have hlen := hp.length_le
  rw [List.length_append, heq, leaf] at hlen
  simp at hlen
  omega

/-- A write into a page table that leaves the kernel's tables clean. -/
theorem CleanEntries.leaf (clean : m.CleanEntries) (t : PageTrees m live) {r f i w : ℕ} {q : List ℕ}
    (h : Interior live r q) (leaf : q.length = 3) (reached : walk m.child r q = some f)
    (lt : i < 512) (entry : r = PML4_ADDR → Present w → CleanEntry w) :
    (m.phywrite (f + i * 8) w).CleanEntries := by
  intro q' f' j short reached' ltj
  rw [walk_leaf t h leaf reached lt short] at reached'
  have hin : Interior live PML4_ADDR q' := interior_kernel short
  rw [phyread_phywrite]
  split_ifs with hat
  · have heq : f' = f := by
      by_contra hne
      exact entry_ne (t.table_aligned hin reached') (t.table_aligned h reached) ltj lt
        (fun h => hne h.1) hat.1
    subst heq
    exact entry (t.separate _ _ _ _ _ h hin reached reached').1
  · exact clean q' f' j short reached' ltj

/-- A new table is empty, and the entry that refers to it is clean. -/
theorem CleanEntries.addTable (clean : m.CleanEntries) (t : PageTrees m live)
    {r f i page flags : ℕ} {q : List ℕ} (vacant : m.Vacant live r q i f page) (inner : q.length < 3)
    (small : flags < PAGESIZE) (entry : r = PML4_ADDR → flags < 0x800) :
    (m.addTable f i page flags).CleanEntries := by
  have hung := vacant.hung_table t small
  have above := t.fresh_above_boot vacant.free vacant.room
  have haligned := t.table_aligned vacant.place.concat_interior vacant.reached
  intro q' f' j short reached' lt
  have hin : Interior live PML4_ADDR q' := interior_kernel short
  rcases t.cases_hung hung vacant.place vacant.reached vacant.absent hin.1 reached' with
    ⟨-, rfl⟩ | ⟨hold, hne⟩
  · intro present
    exact absurd present (present_of_child lt (hung.empty inner j))
  · have haligned' := t.table_aligned hin hold
    unfold Paging.addTable
    rw [phyread_phywrite]
    split_ifs with hat
    · have heq : f' = f := by
        by_contra hdiff
        exact entry_ne haligned' haligned lt vacant.lt (fun h => hdiff h.1) hat.1
      subst heq
      intro _
      exact clean_or (Nat.mul_mod_left _ _)
        (entry (t.separate _ _ _ _ _ vacant.place.concat_interior hin vacant.reached hold).1)
    · have hpage : ¬(page * PAGESIZE ≤ f' + j * 8 ∧ f' + j * 8 < page * PAGESIZE + PAGESIZE) := by
        unfold PAGESIZE at *
        omega
      rw [phyread_phyzero above, if_neg hpage, phyread_congr (markPhysPageUsed_mem page)]
      exact clean q' f' j short hold lt

theorem CleanEntries.adds (clean : m.CleanEntries) (t : PageTrees m live) {r flags : ℕ}
    (adds : AddsTables live r flags m m') (small : flags < PAGESIZE)
    (entry : r = PML4_ADDR → flags < 0x800) : m'.CleanEntries := by
  induction adds with
  | refl => exact clean
  | add before vacant inner ih => exact ih.addTable (before.trees small t) vacant inner small entry

theorem createPageDir_keeps {a : ℕ} (used : m.InUse (a / PAGESIZE)) :
    m.createPageDir.2.mem a = m.mem a := by
  unfold createPageDir
  by_cases hfull : m.getFreePhysPage = 0
  · simp only [hfull, if_true]
  · obtain ⟨d, hd, hroom, hfree⟩ := getFreePhysPage_spec hfull
    have hzero : d * PAGESIZE ≠ 0 := hd ▸ hfull
    simp only [hd, hzero, if_false, markPhysPageUsedAddr, markPhysPageFreeAddr, mul_div_page]
    by_cases hfull' : (m.markPhysPageUsed d).getFreePhysPage = 0
    · simp only [hfull', if_true, markPhysPageFree_used d hfree]
    · obtain ⟨f, hf, hroom', hfree'⟩ := getFreePhysPage_spec hfull'
      have hzero' : f * PAGESIZE ≠ 0 := hf ▸ hfull'
      rw [used_markPhysPageUsed] at hfree'
      rw [markPhysPageUsed_max] at hroom'
      simp only [hf, hzero', if_false, mul_div_page]
      have hout : ∀ page, ¬m.Used page → page < m.maxPhysPages → a / PAGESIZE ≠ page := by
        rintro page free room rfl
        exact used.elim free (not_le.2 room)
      have hda := hout d hfree hroom
      have hfa := hout f (fun h => hfree' (Or.inl h)) hroom'
      unfold phywrite phyzero
      simp only [Function.update_apply, markPhysPageUsed_mem]
      unfold PAGESIZE at hda hfa ⊢
      split_ifs <;> first | rfl | omega

theorem CleanEntries.createPageDir (clean : m.CleanEntries) (t : PageTrees m live) :
    m.createPageDir.2.CleanEntries := by
  intro q f i short reached lt
  have hin : Interior live PML4_ADDR q := interior_kernel short
  have hold : walk m.child PML4_ADDR q = some f := by
    rcases createPageDir_spec t with hfail | ⟨_, _, -, -, planted⟩
    · rw [hfail] at reached
      exact reached
    · rw [t.walk_planted planted hin.1] at reached
      exact reached
  have hread : m.createPageDir.2.phyread (f + i * 8) = m.phyread (f + i * 8) := by
    unfold phyread
    rw [createPageDir_keeps (t.entry_inUse hin hold lt)]
  rw [hread]
  exact clean q f i short hold lt

theorem CleanEntries.mapPage (clean : m.CleanEntries) (t : PageTrees m live)
    {vaddr flags pml4 w : ℕ} (root : pml4 = PML4_ADDR ∨ pml4 ∈ live)
    (entry : owner vaddr pml4 = PML4_ADDR → flags.testBit 11 = false)
    (h : m.mapPage vaddr 0 flags pml4 = some (w, m')) : m'.CleanEntries := by
  have hsmall := attrs_small flags
  obtain ⟨v, m₁, hv, adds₁, ⟨-, rfl⟩ | ⟨-, -, hat⟩⟩ := mapPage_cases t h
  · exact clean.adds t adds₁ (by decide) fun _ => by decide
  · have t₁ := adds₁.trees (by decide) t
    have clean₁ := clean.adds t adds₁ (by decide) fun _ => by decide
    have hentry : owner v pml4 = PML4_ADDR → flags &&& 0xFFF < 0x800 := by
      intro howner
      apply flags_clean
      apply entry
      by_cases hzero : vaddr = 0
      · rw [hzero]
        rfl
      · rwa [← (hv hzero).1]
    obtain ⟨-, m₂, adds₂, ⟨-, rfl⟩ | ⟨f, page, rfl, vacant, rfl⟩⟩ := mapPageAt_cases t₁ root hat
    · exact clean₁.adds t₁ adds₂ hsmall hentry
    · have clean₂ := clean₁.adds t₁ adds₂ hsmall hentry
      have hleaf := clean₂.leaf (w := entryOf page (flags &&& 0xFFF)) (adds₂.trees hsmall t₁)
        vacant.place.concat_interior rfl vacant.reached vacant.lt fun howner _ =>
          clean_or (Nat.mul_mod_left _ _) (hentry howner)
      exact hleaf.congr (markPhysPageUsed_mem page)

theorem CleanEntries.unmapPage (clean : m.CleanEntries) (t : PageTrees m live) {vaddr : ℕ} :
    (m.unmapPage vaddr).CleanEntries := by
  rcases unmapPage_cases m vaddr with ⟨-, hsame⟩ | ⟨f₃, f, reached, -, hunmap⟩
  · rw [hsame]
    exact clean
  · have hleaf := clean.leaf t (w := 0) (interior_kernel (by simp)) rfl reached (index_lt vaddr 12)
      fun _ present => absurd present not_present_zero
    rw [hunmap]
    apply hleaf.congr
    show Function.update (m.markPhysPageFree (f / PAGESIZE)).mem _ _ = _
    rw [markPhysPageFree_mem]
    rfl

end Keep

/-! ## The start -/

section Start

variable (bitmap : ℕ → BitVec 8) (availableMem : ℕ) (ram : ℕ → ℕ)

theorem bootMem_clean {x : ℕ} (table : PML4_ADDR ≤ pageOf x ∧ pageOf x ≤ PT0_ADDR) :
    CleanEntry (bootMem ram x) := by
  have hentry : ∀ k, CleanEntry (k * PAGESIZE ||| 0b11) := fun k =>
    @clean_or _ 0 (Nat.mul_mod_left _ _) (by decide)
  have hpage : pageOf x = PML4_ADDR ∨ pageOf x = PDPT0_ADDR ∨ pageOf x = PD0_ADDR ∨
      pageOf x = PT0_ADDR := by
    have haligned : pageOf x % 4096 = 0 := pageOf_mod x
    have hlow : 0x1000 ≤ pageOf x := table.1
    have hhigh : pageOf x ≤ 0x4000 := table.2
    show _ = 0x1000 ∨ _ = 0x2000 ∨ _ = 0x3000 ∨ _ = 0x4000
    omega
  have hzero : CleanEntry 0 := by
    show 0 % PAGESIZE < 0x800
    decide
  unfold bootMem
  dsimp only
  split_ifs
  · exact hentry 2
  · exact hzero
  · exact hentry 3
  · exact hzero
  · exact hentry 4
  · exact hzero
  · exact hentry _
  · exact hentry 0xB8
  · exact hzero
  · omega

theorem init_clean : (init (bootMem ram) bitmap availableMem).CleanEntries := by
  intro q f i short reached lt _
  rcases init_walk bitmap availableMem ram (by omega) reached with hboot | ⟨hlen, -⟩
  · by_cases hslot : f + i * 8 = TMPMAP_PTE
    · rw [phyread, if_pos hslot]
      show (PT0_ADDR ||| 0b11) % PAGESIZE < 0x800
      decide
    · rw [phyread, if_neg hslot]
      rcases init_mem (bootMem ram) bitmap availableMem (f + i * 8) with ⟨hsame, -⟩ | ⟨j, -, -, hword⟩
      · rw [hsame]
        apply bootMem_clean
        have hpage : pageOf (f + i * 8) = f := by
          have haligned : f % 4096 = 0 := (bootFrame_low hboot).1
          show f + i * 8 - (f + i * 8) % 4096 = f
          omega
        rw [hpage]
        unfold bootFrame at hboot
        split at hboot <;> first | (obtain rfl := Option.some.inj hboot; decide) | cases hboot
      · rw [hword]
        refine @clean_or _ 0 ?_ (by decide)
        show (0x100000 + j * 4096) % 4096 = 0
        omega
  · omega

end Start

end Paging

namespace PagingState

open Paging TableForest

/-- The call does not map a page of the kernel's directory with the flag `0x800`. -/
def CleanOp : Op → Prop
  | .mapPage vaddr flags pml4 => owner vaddr pml4 = PML4_ADDR → flags.testBit 11 = false
  | _ => True

/-- The states of the runs that map no page of the kernel's directory with the flag `0x800`. -/
inductive CleanRun (availableMem : ℕ) : PagingState → Prop
  | boot (ram : ℕ → ℕ) (bitmap : ℕ → BitVec 8) : CleanRun availableMem (boot ram bitmap availableMem)
  | step {s s' : PagingState} {op : Op} (run : CleanRun availableMem s) (clean : CleanOp op)
    (step : s.Step op s') : CleanRun availableMem s'

/-- `getPAddr` returns the frame that `mapPage` has mapped with these flags. -/
def ReadsBack (s : PagingState) (flags : ℕ) : Prop :=
  ∀ v p w m', p % PAGESIZE = 0 → 0 < p → s.m.mapPage v p flags PML4_ADDR = some (w, m') → w ≠ 0 →
    (v ≠ 0 → w = v) ∧ m'.getPAddr w = p

/-- `getPAddr` agrees with the walk of the hardware. -/
def WalksAlike (s : PagingState) : Prop :=
  ∀ v, s.m.getPAddr v = (s.translate PML4_ADDR v).getD 0

section Runs

variable {s s' : PagingState} {availableMem : ℕ}

theorem CleanRun.reachable (run : CleanRun availableMem s) : Reachable availableMem s := by
  induction run with
  | boot ram bitmap => exact .boot ram bitmap
  | step _ _ step ih => exact ih.step step

theorem clean_step (inv : s.Inv) (clean : s.m.CleanEntries) {op : Op} (entry : CleanOp op)
    (step : s.Step op s') : s'.m.CleanEntries := by
  cases step with
  | createPageDir => exact clean.createPageDir inv.trees
  | destroyPageDir d live =>
    have hmem : (s.m.destroyPageDir d).mem = s.m.mem := by rw [destroyPageDir_eq, freeAll_mem]
    exact clean.congr hmem
  | mapPage vaddr flags pml4 w m' root low result => exact clean.mapPage inv.trees root entry result
  | getUnmappedVAddr vaddr m' result =>
    exact clean.adds inv.trees (getUnmappedVAddr_spec inv.trees result).1 (by decide) fun _ => by decide
  | unmapPage vaddr above kernel => exact clean.unmapPage inv.trees

/-- The kernel's tables stay clean. -/
theorem clean_run (run : CleanRun availableMem s) : s.m.CleanEntries := by
  induction run with
  | boot ram bitmap =>
    rw [boot_m]
    exact init_clean bitmap availableMem ram
  | step run entry step ih => exact clean_step (inv_reachable run.reachable) ih entry step

theorem readsBack_clean (t : PageTrees s.m s.live) (clean : s.m.CleanEntries) {flags : ℕ}
    (clear : flags.testBit 11 = false) : s.ReadsBack flags := by
  have hsmall := attrs_small flags
  have hclean := flags_clean clear
  intro v p w m' aligned pos result success
  obtain ⟨u, m₁, hu, adds₁, ⟨rfl, -⟩ | ⟨-, -, hat⟩⟩ := mapPage_cases t result
  · exact absurd rfl success
  have t₁ := adds₁.trees (by decide) t
  have clean₁ := clean.adds t adds₁ (by decide) fun _ => by decide
  obtain ⟨hfirst, m₂, f, adds, htable, ⟨rfl, -⟩ | ⟨frame, -, hframe, habsent, rfl, rfl⟩⟩ :=
    mapPageAt_tables t₁ (Or.inl rfl) hat
  · exact absurd rfl success
  · refine ⟨fun hne => (hu hne).1, ?_⟩
    rw [if_neg pos.ne'] at hframe
    subst hframe
    have howner : owner w PML4_ADDR = PML4_ADDR := ite_self _
    rw [howner] at htable adds
    rw [pageOf_eq aligned]
    have t₂ := adds.trees hsmall t₁
    have clean₂ := clean₁.adds t₁ adds hsmall fun _ => hclean
    have hin : Interior s.live PML4_ADDR [0, index w 30, index w 21] := interior_kernel (by simp)
    have hleaf := clean₂.leaf (w := frame ||| (PAGE_ATTR_PRESENT ||| PAGE_ATTR_WRITE |||
      (flags &&& 0xFFF))) t₂ hin rfl htable (index_lt w 12) fun _ _ => clean_or aligned hclean
    rw [getPAddr_eq (hleaf.congr (markPhysPageUsed_mem _)), child_of_mem (markPhysPageUsed_mem _)]
    have hslot := slot_ne (index_lt w 12) (child_of_not_present habsent)
    rw [path_of_first hfirst, walk_concat, walk_leaf t₂ hin rfl htable (index_lt w 12) (by simp), htable,
      Option.bind_some, child_phywrite_self (index_lt w 12) hslot,
      if_pos (present_or_odd _ _ (flags_odd _)), pageOf_or aligned (flags_small hsmall)]
    rfl

/-- In every run that maps no page of the kernel's directory with the flag `0x800`, `getPAddr` agrees
with the walk of the hardware, and a page that is mapped with flags other than `0x800` reads back. -/
theorem getPAddr_cleanRun (run : CleanRun availableMem s) :
    (∀ flags ≤ 0xFFF, flags.testBit 11 = false → s.ReadsBack flags) ∧ s.WalksAlike :=
  ⟨fun _ _ clear => readsBack_clean (inv_reachable run.reachable).trees (clean_run run) clear,
    fun v => getPAddr_eq (clean_run run) v⟩

theorem mapPage_0x800 :
    ((boot (fun _ => 0) (fun _ => 0) 0x1000000).m.mapPage 0x150000 0x200000 0x800 PML4_ADDR).map
      (fun x => (x.1, x.2.getPAddr x.1)) = some (0x150000, 0x200800) := by decide +kernel

theorem mapPage_user :
    ((boot (fun _ => 0) (fun _ => 0) 0x1000000).m.mapPage 0x150000 0x200000 PAGE_ATTR_USER
      PML4_ADDR).map Prod.fst = some 0x150000 := by decide +kernel

/-- With 16 megabytes of memory, the first page that is mapped. -/
theorem getPAddr_first : ∃ m', (boot (fun _ => 0) (fun _ => 0) 0x1000000).m.mapPage 0x150000 0x200000
    PAGE_ATTR_USER PML4_ADDR = some (0x150000, m') ∧ m'.getPAddr 0x150000 = 0x200000 := by
  have hmap := mapPage_user
  have run : CleanRun 0x1000000 (boot (fun _ => 0) (fun _ => 0) 0x1000000) := .boot _ _
  generalize boot (fun _ => 0) (fun _ => 0) 0x1000000 = s at hmap run ⊢
  obtain ⟨⟨w, m'⟩, hrun, rfl⟩ := Option.map_eq_some_iff.1 hmap
  exact ⟨m', hrun, ((getPAddr_cleanRun run).1 PAGE_ATTR_USER (by decide) (by decide) _ _ _ _
    (by decide) (by decide) hrun (by decide)).2⟩

/-- The flag `0x800` is read back as part of the address. -/
theorem not_readsBack : ¬∀ availableMem s, Reachable availableMem s →
    (∀ flags ≤ 0xFFF, s.ReadsBack flags) ∧ s.WalksAlike := by
  intro hall
  have hmap := mapPage_0x800
  have reach : Reachable 0x1000000 (boot (fun _ => 0) (fun _ => 0) 0x1000000) := .boot _ _
  generalize boot (fun _ => 0) (fun _ => 0) 0x1000000 = s at hmap reach
  obtain ⟨⟨w, m'⟩, hrun, hread⟩ := Option.map_eq_some_iff.1 hmap
  obtain ⟨rfl, hread⟩ := Prod.mk.inj hread
  have hback := ((hall _ s reach).1 0x800 (by decide) _ _ _ _ (by decide) (by decide) hrun
    (by decide)).2
  exact absurd (hread.symm.trans hback) (by decide)

end Runs

end PagingState
