import SepplesOS.Lib.Bytes
import SepplesOS.Lib.Run
import SepplesOS.Mm.Frames

/-!
# Access to physical memory

`tmpmap`, `phyread`, `phywrite` and `phyzero` (`kernel/mm/paging.cpp`), byte by byte.  The processor
translates an address of the temporary page through its entry of page table 0, which is at the same
physical as virtual address, and any other address as it did before the call: that is a parameter.
-/

/-- Physical memory.  The arguments of the calls of `tmpmap`, and the virtual addresses that `memcpy` and
`memzero` have accessed, are logged. -/
structure PhysMem where
  phys : Buf
  tmpmaps : List ℕ
  accesses : List ℕ

namespace PhysMem

section Code

variable (place : ℕ → ℕ)

/-- The physical address of a virtual one. -/
def translate (phys : Buf) (vaddr : ℕ) : ℕ :=
  if pageOf vaddr = TMPMAP_PAGE_VADDR then pageOf (phys.leNat TMPMAP_PTE 8) + vaddr % PAGESIZE
  else place vaddr

/-- A byte is written to a virtual address. -/
def store (m : PhysMem) (vaddr : ℕ) (b : UInt8) : PhysMem :=
  { m with phys := Function.update m.phys (translate place m.phys vaddr) b
           accesses := vaddr :: m.accesses }

/-- A byte is read. -/
def load (m : PhysMem) (vaddr : ℕ) : UInt8 × PhysMem :=
  (m.phys (translate place m.phys vaddr), { m with accesses := vaddr :: m.accesses })

/-- `memcpy`. -/
def memcpy (m : PhysMem) (dest src : ℕ) : ℕ → PhysMem
  | 0 => m
  | count + 1 =>
    let (b, m) := m.load place src
    memcpy (m.store place dest b) (dest + 1) (src + 1) count

/-- `memzero`. -/
def memzero (m : PhysMem) (dst : ℕ) : ℕ → PhysMem
  | 0 => m
  | count + 1 => memzero (m.store place dst 0) (dst + 1) count

/-- `tmpmap`; it halts where `fatalError` does. -/
def tmpmap (m : PhysMem) (pdst : ℕ) : Run Unit PhysMem :=
  let page_pdst := pdst - pdst % 0x200
  if pdst ≠ page_pdst then .halted ()
  else .done { m with phys := m.phys.putLeNat TMPMAP_PTE 8 (page_pdst ||| 0b11)
                      tmpmaps := pdst :: m.tmpmaps }

/-- The loop of the three functions: what they do with the part of the temporary page and with the part of
the buffer is `access`. -/
def window (access : PhysMem → ℕ → ℕ → ℕ → PhysMem) : ℕ → PhysMem → ℕ → ℕ → ℕ → Run Unit PhysMem
  | 0, _, _, _, _ => .running
  | fuel + 1, m, paddr, vaddr, size =>
    if size = 0 then .done m
    else do
      let page := pageOf paddr
      let m ← m.tmpmap page
      let offset := paddr - page
      let realsize := min size (PAGESIZE - offset)
      let m := access m vaddr (TMPMAP_PAGE_VADDR + offset) realsize
      window access fuel m ((paddr + realsize) % 2 ^ 64) ((vaddr + realsize) % 2 ^ 64) (size - realsize)

/-- `phyread`. -/
def phyread (fuel : ℕ) (m : PhysMem) (vdst psrc size : ℕ) : Run Unit PhysMem :=
  window (fun m vdst tmp realsize => m.memcpy place vdst tmp realsize) fuel m psrc vdst size

/-- `phywrite`. -/
def phywrite (fuel : ℕ) (m : PhysMem) (pdst vsrc size : ℕ) : Run Unit PhysMem :=
  window (fun m vsrc tmp realsize => m.memcpy place tmp vsrc realsize) fuel m pdst vsrc size

/-- `phyzero`. -/
def phyzero (fuel : ℕ) (m : PhysMem) (pdst size : ℕ) : Run Unit PhysMem :=
  window (fun m _ tmp realsize => m.memzero place tmp realsize) fuel m pdst 0 size

end Code

/-! ## Blocks of bytes -/

/-- A byte of the entry of the temporary page. -/
def InEntry (a : ℕ) : Prop := TMPMAP_PTE ≤ a ∧ a < TMPMAP_PTE + 8

section Blocks

variable {place : ℕ → ℕ} {m : PhysMem} {phys phys' : Buf} {v n : ℕ} {D S : ℕ → ℕ}

theorem translate_congr (same : ∀ a, InEntry a → phys' a = phys a) :
    translate place phys' v = translate place phys v := by
  unfold translate
  rw [Buf.leNat_congr fun i hi => same (TMPMAP_PTE + i) ⟨by omega, by omega⟩]

theorem translate_store {b : UInt8} (clear : ¬InEntry (translate place m.phys v)) (u : ℕ) :
    translate place (m.store place v b).phys u = translate place m.phys u := by
  refine translate_congr fun a ha => Function.update_of_ne ?_ _ _
  rintro rfl
  exact clear ha

/-- A copy from the physical addresses `S` to the addresses `D`, which are others. -/
theorem memcpy_spec {dest src : ℕ} (dests : ∀ i < n, translate place m.phys (dest + i) = D i)
    (srcs : ∀ i < n, translate place m.phys (src + i) = S i) (clear : ∀ i < n, ¬InEntry (D i))
    (inj : ∀ i < n, ∀ j < n, D i = D j → i = j) (apart : ∀ i < n, ∀ j < n, D i ≠ S j) :
    (∀ i < n, (m.memcpy place dest src n).phys (D i) = m.phys (S i)) ∧
    (∀ a, (∀ i < n, a ≠ D i) → (m.memcpy place dest src n).phys a = m.phys a) ∧
    (m.memcpy place dest src n).tmpmaps = m.tmpmaps ∧
    ∀ a ∈ (m.memcpy place dest src n).accesses,
      a ∈ m.accesses ∨ ∃ i < n, a = dest + i ∨ a = src + i := by
  induction n generalizing m dest src D S with
  | zero => exact ⟨nofun, fun _ _ => rfl, rfl, fun a ha => Or.inl ha⟩
  | succ n ih =>
    unfold memcpy
    dsimp only [load]
    set m₁ : PhysMem := { m with accesses := src :: m.accesses }
    set m₂ := m₁.store place dest (m.phys (translate place m.phys src))
    have hdest : translate place m₁.phys dest = D 0 := dests 0 (Nat.succ_pos n)
    have hsrc : translate place m.phys src = S 0 := srcs 0 (Nat.succ_pos n)
    have htranslate : ∀ u, translate place m₂.phys u = translate place m.phys u :=
      translate_store (by rw [hdest]; exact clear 0 (Nat.succ_pos n))
    have hphys : m₂.phys = Function.update m.phys (D 0) (m.phys (S 0)) := by
      rw [← hdest, ← hsrc]
      rfl
    obtain ⟨hcopy, hframe, htmpmaps, haccesses⟩ := @ih m₂ (fun i => D (i + 1)) (fun i => S (i + 1))
      (dest + 1) (src + 1)
      (fun i hi => by rw [htranslate, Nat.add_assoc, Nat.add_comm 1]; exact dests (i + 1) (by omega))
      (fun i hi => by rw [htranslate, Nat.add_assoc, Nat.add_comm 1]; exact srcs (i + 1) (by omega))
      (fun i hi => clear (i + 1) (by omega))
      (fun i hi j hj heq => Nat.succ.inj (inj (i + 1) (by omega) (j + 1) (by omega) heq))
      (fun i hi j hj => apart (i + 1) (by omega) (j + 1) (by omega))
    refine ⟨fun i hi => ?_, fun a ha => ?_, htmpmaps, fun a ha => ?_⟩
    · cases i with
      | zero =>
        rw [hframe, hphys, Function.update_self]
        exact fun i hi heq => Nat.succ_ne_zero i (inj 0 (by omega) (i + 1) (by omega) heq).symm
      | succ i =>
        rw [hcopy i (by omega), hphys]
        exact Function.update_of_ne (apart 0 (by omega) (i + 1) hi).symm _ _
    · rw [hframe a fun i hi => ha (i + 1) (by omega), hphys]
      exact Function.update_of_ne (ha 0 (Nat.succ_pos n)) _ _
    · rcases haccesses a ha with hold | ⟨i, hi, heq⟩
      · rcases List.mem_cons.1 hold with rfl | hold
        · exact Or.inr ⟨0, Nat.succ_pos n, Or.inl rfl⟩
        · rcases List.mem_cons.1 hold with rfl | hold
          · exact Or.inr ⟨0, Nat.succ_pos n, Or.inr rfl⟩
          · exact Or.inl hold
      · exact Or.inr ⟨i + 1, by omega, by omega⟩

theorem memzero_spec {dst : ℕ} (dests : ∀ i < n, translate place m.phys (dst + i) = D i)
    (clear : ∀ i < n, ¬InEntry (D i)) :
    (∀ i < n, (m.memzero place dst n).phys (D i) = 0) ∧
    (∀ a, (∀ i < n, a ≠ D i) → (m.memzero place dst n).phys a = m.phys a) ∧
    (m.memzero place dst n).tmpmaps = m.tmpmaps ∧
    ∀ a ∈ (m.memzero place dst n).accesses, a ∈ m.accesses ∨ ∃ i < n, a = dst + i := by
  induction n generalizing m dst D with
  | zero => exact ⟨nofun, fun _ _ => rfl, rfl, fun a ha => Or.inl ha⟩
  | succ n ih =>
    unfold memzero
    set m₁ := m.store place dst 0
    have hdest : translate place m.phys dst = D 0 := dests 0 (Nat.succ_pos n)
    have htranslate : ∀ u, translate place m₁.phys u = translate place m.phys u :=
      translate_store (by rw [hdest]; exact clear 0 (Nat.succ_pos n))
    have hphys : m₁.phys = Function.update m.phys (D 0) 0 := by
      rw [← hdest]
      rfl
    obtain ⟨hzero, hframe, htmpmaps, haccesses⟩ := @ih m₁ (fun i => D (i + 1)) (dst + 1)
      (fun i hi => by rw [htranslate, Nat.add_assoc, Nat.add_comm 1]; exact dests (i + 1) (by omega))
      (fun i hi => clear (i + 1) (by omega))
    refine ⟨fun i hi => ?_, fun a ha => ?_, htmpmaps, fun a ha => ?_⟩
    · cases i with
      | zero =>
        by_cases hlater : ∃ i < n, D 0 = D (i + 1)
        · obtain ⟨i, hi, heq⟩ := hlater
          rw [heq]
          exact hzero i hi
        · rw [hframe _ fun i hi heq => hlater ⟨i, hi, heq⟩, hphys, Function.update_self]
      | succ i => exact hzero i (by omega)
    · rw [hframe a fun i hi => ha (i + 1) (by omega), hphys]
      exact Function.update_of_ne (ha 0 (Nat.succ_pos n)) _ _
    · rcases haccesses a ha with hold | ⟨i, hi, heq⟩
      · rcases List.mem_cons.1 hold with rfl | hold
        · exact Or.inr ⟨0, Nat.succ_pos n, rfl⟩
        · exact Or.inl hold
      · exact Or.inr ⟨i + 1, by omega, by omega⟩

end Blocks

/-! ## The window -/

section Window

variable {place : ℕ → ℕ} {m : PhysMem} {page p v size : ℕ}

/-- Memory with a page in the window. -/
def mapped (m : PhysMem) (page : ℕ) : PhysMem :=
  { m with phys := m.phys.putLeNat TMPMAP_PTE 8 (page ||| 0b11), tmpmaps := page :: m.tmpmaps }

theorem tmpmap_eq (aligned : page % PAGESIZE = 0) : m.tmpmap page = .done (m.mapped page) := by
  have hmod : page % 0x200 = 0 := by
    have h : page % 4096 = 0 := aligned
    omega
  unfold tmpmap
  dsimp only
  rw [hmod, Nat.sub_zero, if_neg (not_not.2 rfl)]
  rfl

theorem mapped_of_not {a : ℕ} (out : ¬InEntry a) : (m.mapped page).phys a = m.phys a :=
  Buf.putLeNat_of_not out

/-- The window is the page. -/
theorem translate_window {i : ℕ} (aligned : page % PAGESIZE = 0) (small : page < 2 ^ 64)
    (inside : i < PAGESIZE) :
    translate place (m.mapped page).phys (TMPMAP_PAGE_VADDR + i) = page + i := by
  have hi : i < 4096 := inside
  have hpage : pageOf (TMPMAP_PAGE_VADDR + i) = TMPMAP_PAGE_VADDR := by
    show 0x7000 + i - (0x7000 + i) % 4096 = 0x7000
    omega
  have hoffset : (TMPMAP_PAGE_VADDR + i) % PAGESIZE = i := by
    show (0x7000 + i) % 4096 = i
    omega
  have hentry : (page ||| 0b11) % 256 ^ 8 = page ||| 0b11 :=
    Nat.mod_eq_of_lt (Nat.or_lt_two_pow small (by decide))
  unfold translate mapped
  rw [if_pos hpage, Buf.leNat_putLeNat, hentry, pageOf_or aligned (by decide), hoffset]

theorem translate_of_ne {phys : Buf} (outside : pageOf v ≠ TMPMAP_PAGE_VADDR) :
    translate place phys v = place v := if_neg outside

theorem pageOf_add_mod (a : ℕ) : pageOf a + a % PAGESIZE = a :=
  Nat.sub_add_cancel (Nat.mod_le a PAGESIZE)

section Loop

variable (access : PhysMem → ℕ → ℕ → ℕ → PhysMem) (inv : ℕ → PhysMem → Prop)

/-- With `d` bytes done, the access to the next part keeps the invariant. -/
def KeepsPart (p v size : ℕ) : Prop := ∀ d n m, inv d m → d + n ≤ size → 0 < n →
  (p + d) % PAGESIZE + n ≤ PAGESIZE →
    inv (d + n) (access (m.mapped (pageOf (p + d))) (v + d) (TMPMAP_PAGE_VADDR + (p + d) % PAGESIZE) n)

variable {access inv}

theorem KeepsPart.rest (keeps : KeepsPart access inv p v size) (fits : p + size ≤ 2 ^ 64)
    (room : v + size ≤ 2 ^ 64) {fuel d k : ℕ} (rest : d + k = size) (enough : k < fuel)
    (start : inv d m) :
    ∃ m', window access fuel m ((p + d) % 2 ^ 64) ((v + d) % 2 ^ 64) k = .done m' ∧ inv size m' := by
  induction fuel generalizing m d k with
  | zero => exact absurd enough (Nat.not_lt_zero k)
  | succ fuel ih =>
    unfold window
    split_ifs with hk
    · rw [hk, Nat.add_zero] at rest
      exact ⟨m, rfl, rest ▸ start⟩
    · have hp : (p + d) % 2 ^ 64 = p + d := Nat.mod_eq_of_lt (by omega)
      have hv : (v + d) % 2 ^ 64 = v + d := Nat.mod_eq_of_lt (by omega)
      have hoffset : p + d - pageOf (p + d) = (p + d) % PAGESIZE := by
        have h := pageOf_add_mod (p + d)
        omega
      have hlt : (p + d) % PAGESIZE < PAGESIZE := Nat.mod_lt _ (by decide)
      rw [hp, hv]
      dsimp only
      rw [tmpmap_eq (pageOf_mod _), Run.done_bind, hoffset]
      set n := min k (PAGESIZE - (p + d) % PAGESIZE)
      have hn : n ≤ k := Nat.min_le_left _ _
      have hn' : n ≤ PAGESIZE - (p + d) % PAGESIZE := Nat.min_le_right _ _
      have hpos : 0 < n := Nat.lt_min.2 ⟨Nat.pos_of_ne_zero hk, by omega⟩
      rw [Nat.add_assoc p, Nat.add_assoc v]
      exact ih (by omega) (by omega) (keeps d n m start (by omega) hpos (by omega))

/-- What the access to a part keeps, the loop over all parts keeps, and it ends. -/
theorem KeepsPart.window (keeps : KeepsPart access inv p v size) (fits : p + size ≤ 2 ^ 64)
    (room : v + size ≤ 2 ^ 64) {fuel : ℕ} (enough : size < fuel) (start : inv 0 m) :
    ∃ m', window access fuel m p v size = .done m' ∧ inv size m' := by
  by_cases hsize : size = 0
  · obtain ⟨n, rfl⟩ : ∃ n, fuel = n + 1 := ⟨fuel - 1, by omega⟩
    rw [hsize]
    exact ⟨m, rfl, start⟩
  · have h := keeps.rest fits room (Nat.zero_add size) enough start
    rwa [Nat.add_zero, Nat.add_zero, Nat.mod_eq_of_lt (show p < 2 ^ 64 by omega),
      Nat.mod_eq_of_lt (show v < 2 ^ 64 by omega)] at h

end Loop

end Window

/-! ## The three functions -/

section Calls

variable (place : ℕ → ℕ) (phys : Buf) (p v size : ℕ)

/-- `tmpmap` has got pages only, and every access was to the temporary page or to the buffer. -/
structure Logged (m : PhysMem) : Prop where
  tmpmaps : ∀ pdst ∈ m.tmpmaps, pdst % PAGESIZE = 0
  accesses : ∀ a ∈ m.accesses, TMPMAP_PAGE_VADDR ≤ a ∧ a < TMPMAP_PAGE_VADDR + PAGESIZE ∨
    v ≤ a ∧ a < v + size

/-- The buffer is outside of the temporary page, and in memory of its own. -/
structure Buffer : Prop where
  room : v + size ≤ 2 ^ 64
  outside : ∀ i < size, pageOf (v + i) ≠ TMPMAP_PAGE_VADDR
  clear : ∀ i < size, ¬InEntry (place (v + i))
  apart : ∀ i < size, ∀ j < size, place (v + i) ≠ p + j

/-- Memory as it is seen through the window: the entry of the temporary page is what maps its table. -/
def seen : Buf := phys.putLeNat TMPMAP_PTE 8 (PT0_ADDR ||| 0b11)

variable {place phys p v size} {m : PhysMem}

theorem Logged.part (logged : Logged v size m) {m' : PhysMem} {page : ℕ}
    (tmpmaps : m'.tmpmaps = page :: m.tmpmaps) (aligned : page % PAGESIZE = 0)
    (accesses : ∀ a ∈ m'.accesses, a ∈ m.accesses ∨
      (TMPMAP_PAGE_VADDR ≤ a ∧ a < TMPMAP_PAGE_VADDR + PAGESIZE ∨ v ≤ a ∧ a < v + size)) :
    Logged v size m' := by
  constructor
  · intro pdst hpdst
    rw [tmpmaps] at hpdst
    rcases List.mem_cons.1 hpdst with rfl | hold
    · exact aligned
    · exact logged.tmpmaps pdst hold
  · intro a ha
    rcases accesses a ha with hold | hnew
    · exact logged.accesses a hold
    · exact hnew

theorem mapped_seen {a page : ℕ} (inside : pageOf a = page) (same : ¬InEntry a → m.phys a = phys a) :
    (m.mapped page).phys a = seen phys a := by
  by_cases ha : InEntry a
  · have hpage : page = PT0_ADDR := by
      obtain ⟨hlow, hhigh⟩ := ha
      change 0x4038 ≤ a at hlow
      change a < 0x4040 at hhigh
      change a - a % 4096 = page at inside
      show page = 0x4000
      omega
    rw [hpage]
    exact (if_pos ha).trans (if_pos ha).symm
  · rw [mapped_of_not ha, same ha]
    exact (if_neg ha).symm

theorem part_place {d n i : ℕ} (fits : p + size ≤ 2 ^ 64) (inside : d + n ≤ size)
    (whole : (p + d) % PAGESIZE + n ≤ PAGESIZE) (hi : i < n) :
    translate place (m.mapped (pageOf (p + d))).phys (TMPMAP_PAGE_VADDR + (p + d) % PAGESIZE + i) =
      p + d + i := by
  have hle : pageOf (p + d) ≤ p + d := Nat.sub_le _ _
  rw [Nat.add_assoc, translate_window (pageOf_mod _) (by omega) (by omega), ← Nat.add_assoc,
    pageOf_add_mod]

theorem pageOf_part {d n i : ℕ} (whole : (p + d) % PAGESIZE + n ≤ PAGESIZE) (hi : i < n) :
    pageOf (p + d + i) = pageOf (p + d) := by
  change (p + d) % 4096 + n ≤ 4096 at whole
  show p + d + i - (p + d + i) % 4096 = p + d - (p + d) % 4096
  omega

/-- Of a buffer with the first `d` bytes read from `p` on. -/
def ReadUpTo (place : ℕ → ℕ) (phys : Buf) (p v size d : ℕ) (m : PhysMem) : Prop :=
  (∀ i < d, m.phys (place (v + i)) = seen phys (p + i)) ∧
  (∀ a, (∀ i < size, a ≠ place (v + i)) → ¬InEntry a → m.phys a = phys a) ∧ Logged v size m

/-- Of the first `d` bytes from `p` on with those of a buffer. -/
def WrittenUpTo (place : ℕ → ℕ) (phys : Buf) (p v size d : ℕ) (m : PhysMem) : Prop :=
  (∀ i < d, m.phys (p + i) = phys (place (v + i))) ∧
  (∀ a, (∀ i < size, a ≠ p + i) → ¬InEntry a → m.phys a = phys a) ∧ Logged v size m

/-- Of the first `d` bytes from `p` on that are zero. -/
def ZeroUpTo (phys : Buf) (p size d : ℕ) (m : PhysMem) : Prop :=
  (∀ i < d, m.phys (p + i) = 0) ∧
  (∀ a, (∀ i < size, a ≠ p + i) → ¬InEntry a → m.phys a = phys a) ∧ Logged 0 0 m

theorem keepsPart_read (fits : p + size ≤ 2 ^ 64) (buffer : Buffer place p v size)
    (inj : ∀ i < size, ∀ j < size, place (v + i) = place (v + j) → i = j) :
    KeepsPart (fun m vdst tmp realsize => m.memcpy place vdst tmp realsize)
      (ReadUpTo place phys p v size) p v size := by
  rintro d n m ⟨hread, hframe, hlogged⟩ hinside hpos hwhole
  dsimp only
  set m₁ := m.mapped (pageOf (p + d))
  obtain ⟨hcopy, hkept, htmpmaps, haccesses⟩ := @memcpy_spec place m₁ n (fun i => place (v + d + i))
    (fun i => p + d + i) (v + d) (TMPMAP_PAGE_VADDR + (p + d) % PAGESIZE)
    (fun i hi => translate_of_ne (by rw [Nat.add_assoc]; exact buffer.outside (d + i) (by omega)))
    (fun i hi => part_place fits hinside hwhole hi)
    (fun i hi => by rw [Nat.add_assoc]; exact buffer.clear (d + i) (by omega))
    (fun i hi j hj heq => by
      have h := inj (d + i) (by omega) (d + j) (by omega)
      rw [← Nat.add_assoc, ← Nat.add_assoc] at h
      have hij := h heq
      omega)
    (fun i hi j hj heq => buffer.apart (d + i) (by omega) (d + j) (by omega)
      (by rw [← Nat.add_assoc, ← Nat.add_assoc]; exact heq))
  refine ⟨fun i hi => ?_, fun a ha hentry => ?_, ?_⟩
  · by_cases hold : i < d
    · rw [hkept, mapped_of_not (buffer.clear i (by omega)), hread i hold]
      intro j hj heq
      rw [Nat.add_assoc] at heq
      have h := inj i (by omega) (d + j) (by omega) heq
      omega
    · have h := hcopy (i - d) (by omega)
      rw [show v + d + (i - d) = v + i by omega, show p + d + (i - d) = p + i by omega] at h
      rw [h]
      refine mapped_seen ?_ (hframe _ fun j hj => (buffer.apart j hj i (by omega)).symm)
      have hpage := pageOf_part (p := p) hwhole (show i - d < n by omega)
      rwa [show p + d + (i - d) = p + i by omega] at hpage
  · rw [hkept a, mapped_of_not hentry, hframe a ha hentry]
    intro i hi
    rw [Nat.add_assoc]
    exact ha (d + i) (by omega)
  · refine hlogged.part htmpmaps (pageOf_mod _) fun a ha => (haccesses a ha).imp id ?_
    rintro ⟨i, hi, rfl | rfl⟩
    · exact Or.inr ⟨by omega, by omega⟩
    · exact Or.inl ⟨by omega, by omega⟩

theorem keepsPart_write (fits : p + size ≤ 2 ^ 64) (buffer : Buffer place p v size)
    (clear : ∀ i < size, ¬InEntry (p + i)) :
    KeepsPart (fun m vsrc tmp realsize => m.memcpy place tmp vsrc realsize)
      (WrittenUpTo place phys p v size) p v size := by
  rintro d n m ⟨hwritten, hframe, hlogged⟩ hinside hpos hwhole
  dsimp only
  set m₁ := m.mapped (pageOf (p + d))
  obtain ⟨hcopy, hkept, htmpmaps, haccesses⟩ := @memcpy_spec place m₁ n (fun i => p + d + i)
    (fun i => place (v + d + i)) (TMPMAP_PAGE_VADDR + (p + d) % PAGESIZE) (v + d)
    (fun i hi => part_place fits hinside hwhole hi)
    (fun i hi => translate_of_ne (by rw [Nat.add_assoc]; exact buffer.outside (d + i) (by omega)))
    (fun i hi => by rw [Nat.add_assoc]; exact clear (d + i) (by omega))
    (fun i hi j hj heq => by omega)
    (fun i hi j hj heq => buffer.apart (d + j) (by omega) (d + i) (by omega)
      (by rw [← Nat.add_assoc, ← Nat.add_assoc]; exact heq.symm))
  refine ⟨fun i hi => ?_, fun a ha hentry => ?_, ?_⟩
  · by_cases hold : i < d
    · rw [hkept _ fun j hj => by omega, mapped_of_not (clear i (by omega)), hwritten i hold]
    · have h := hcopy (i - d) (by omega)
      rw [show v + d + (i - d) = v + i by omega, show p + d + (i - d) = p + i by omega] at h
      rw [h, mapped_of_not (buffer.clear i (by omega))]
      exact hframe _ (fun j hj => buffer.apart i (by omega) j hj) (buffer.clear i (by omega))
  · rw [hkept a, mapped_of_not hentry, hframe a ha hentry]
    intro i hi
    rw [Nat.add_assoc]
    exact ha (d + i) (by omega)
  · refine hlogged.part htmpmaps (pageOf_mod _) fun a ha => (haccesses a ha).imp id ?_
    rintro ⟨i, hi, rfl | rfl⟩
    · exact Or.inl ⟨by omega, by omega⟩
    · exact Or.inr ⟨by omega, by omega⟩

theorem keepsPart_zero (fits : p + size ≤ 2 ^ 64) (clear : ∀ i < size, ¬InEntry (p + i)) :
    KeepsPart (fun m _ tmp realsize => m.memzero place tmp realsize) (ZeroUpTo phys p size) p 0 size := by
  rintro d n m ⟨hzero, hframe, hlogged⟩ hinside hpos hwhole
  dsimp only
  set m₁ := m.mapped (pageOf (p + d))
  obtain ⟨hnew, hkept, htmpmaps, haccesses⟩ := @memzero_spec place m₁ n (fun i => p + d + i)
    (TMPMAP_PAGE_VADDR + (p + d) % PAGESIZE) (fun i hi => part_place fits hinside hwhole hi)
    (fun i hi => by rw [Nat.add_assoc]; exact clear (d + i) (by omega))
  refine ⟨fun i hi => ?_, fun a ha hentry => ?_, ?_⟩
  · by_cases hold : i < d
    · rw [hkept _ fun j hj => by omega, mapped_of_not (clear i (by omega)), hzero i hold]
    · have h := hnew (i - d) (by omega)
      rwa [show p + d + (i - d) = p + i by omega] at h
  · rw [hkept a, mapped_of_not hentry, hframe a ha hentry]
    intro i hi
    rw [Nat.add_assoc]
    exact ha (d + i) (by omega)
  · refine hlogged.part htmpmaps (pageOf_mod _) fun a ha => (haccesses a ha).imp id ?_
    rintro ⟨i, hi, rfl⟩
    exact Or.inl ⟨by omega, by omega⟩

/-- `phyread` copies the bytes of physical memory to the buffer, `phywrite` those of the buffer to physical
memory, and `phyzero` zeroes them; nothing else changes but the entry of the temporary page. -/
theorem phys_access (fits : p + size ≤ 2 ^ 64) {fuel : ℕ} (enough : size < fuel) :
    (Buffer place p v size → (∀ i < size, ∀ j < size, place (v + i) = place (v + j) → i = j) →
      ∃ m, phyread place fuel ⟨phys, [], []⟩ v p size = .done m ∧ Logged v size m ∧
        (∀ i < size, m.phys (place (v + i)) = seen phys (p + i)) ∧
        ∀ a, (∀ i < size, a ≠ place (v + i)) → ¬InEntry a → m.phys a = phys a) ∧
    (Buffer place p v size → (∀ i < size, ¬InEntry (p + i)) →
      ∃ m, phywrite place fuel ⟨phys, [], []⟩ p v size = .done m ∧ Logged v size m ∧
        (∀ i < size, m.phys (p + i) = phys (place (v + i))) ∧
        ∀ a, (∀ i < size, a ≠ p + i) → ¬InEntry a → m.phys a = phys a) ∧
    ((∀ i < size, ¬InEntry (p + i)) →
      ∃ m, phyzero place fuel ⟨phys, [], []⟩ p size = .done m ∧ Logged 0 0 m ∧
        (∀ i < size, m.phys (p + i) = 0) ∧
        ∀ a, (∀ i < size, a ≠ p + i) → ¬InEntry a → m.phys a = phys a) := by
  refine ⟨fun buffer inj => ?_, fun buffer clear => ?_, fun clear => ?_⟩
  · have hstart : ReadUpTo place phys p v size 0 ⟨phys, [], []⟩ := ⟨nofun, fun _ _ _ => rfl, nofun, nofun⟩
    obtain ⟨m, hdone, hread, hframe, hlogged⟩ :=
      (keepsPart_read fits buffer inj).window fits buffer.room enough hstart
    exact ⟨m, hdone, hlogged, hread, hframe⟩
  · have hstart : WrittenUpTo place phys p v size 0 ⟨phys, [], []⟩ :=
      ⟨nofun, fun _ _ _ => rfl, nofun, nofun⟩
    obtain ⟨m, hdone, hwritten, hframe, hlogged⟩ :=
      (keepsPart_write fits buffer clear).window fits buffer.room enough hstart
    exact ⟨m, hdone, hlogged, hwritten, hframe⟩
  · have hstart : ZeroUpTo phys p size 0 ⟨phys, [], []⟩ := ⟨nofun, fun _ _ _ => rfl, nofun, nofun⟩
    obtain ⟨m, hdone, hzero, hframe, hlogged⟩ :=
      (keepsPart_zero fits clear).window fits (show 0 + size ≤ 2 ^ 64 by omega) enough hstart
    exact ⟨m, hdone, hlogged, hzero, hframe⟩

/-! ## Words -/

/-- The words of physical memory. -/
def words (phys : Buf) (a : ℕ) : ℕ := phys.leNat a 8

theorem inEntry_word {a i : ℕ} (aligned : a % 8 = 0) (ne : a ≠ TMPMAP_PTE) (hi : i < 8) :
    ¬InEntry (a + i) := by
  rintro ⟨hlow, hhigh⟩
  change 0x4038 ≤ a + i at hlow
  change a + i < 0x4040 at hhigh
  change a ≠ 0x4038 at ne
  omega

theorem seen_word {a max : ℕ} {bitmap : ℕ → BitVec 8} (aligned : a % 8 = 0) :
    (seen phys).leNat a 8 = (Paging.mk (words phys) bitmap max).phyread a := by
  unfold Paging.phyread
  split_ifs with ha
  · rw [ha]
    exact (Buf.leNat_putLeNat _ _ _ _).trans (by decide)
  · exact Buf.leNat_congr fun i hi => Buf.putLeNat_of_not (inEntry_word aligned ha hi)

/-- A word read through the window is the one that the page tables are said to hold. -/
theorem phyread_word {bitmap : ℕ → BitVec 8} {max fuel : ℕ} (aligned : p % 8 = 0) (fits : p + 8 ≤ 2 ^ 64)
    (buffer : Buffer place p v 8) (inj : ∀ i < 8, ∀ j < 8, place (v + i) = place (v + j) → i = j)
    (enough : 8 < fuel) : ∃ m, phyread place fuel ⟨phys, [], []⟩ v p 8 = .done m ∧
      Buf.leNat (fun i => m.phys (place (v + i))) 0 8 =
        (Paging.mk (words phys) bitmap max).phyread p := by
  obtain ⟨m, hdone, hread, -⟩ := (keepsPart_read fits buffer inj).window fits buffer.room enough
    (show ReadUpTo place phys p v 8 0 ⟨phys, [], []⟩ from ⟨nofun, fun _ _ _ => rfl, nofun, nofun⟩)
  refine ⟨m, hdone, ?_⟩
  rw [← seen_word aligned]
  refine Buf.leNat_shift fun i hi => ?_
  rw [Nat.zero_add]
  exact hread i hi

/-- A word written through the window is the only one that changes. -/
theorem phywrite_word {bitmap : ℕ → BitVec 8} {max fuel : ℕ} (aligned : p % 8 = 0) (fits : p + 8 ≤ 2 ^ 64)
    (ne : p ≠ TMPMAP_PTE) (buffer : Buffer place p v 8) (enough : 8 < fuel) :
    ∃ m, phywrite place fuel ⟨phys, [], []⟩ p v 8 = .done m ∧ ∀ a, a % 8 = 0 → a ≠ TMPMAP_PTE →
      words m.phys a = ((Paging.mk (words phys) bitmap max).phywrite p
        (Buf.leNat (fun i => phys (place (v + i))) 0 8)).mem a := by
  obtain ⟨m, hdone, hwritten, hframe, -⟩ := (keepsPart_write fits buffer
    fun i hi => inEntry_word aligned ne hi).window fits buffer.room enough
    (show WrittenUpTo place phys p v 8 0 ⟨phys, [], []⟩ from ⟨nofun, fun _ _ _ => rfl, nofun, nofun⟩)
  refine ⟨m, hdone, fun a ha hne => ?_⟩
  unfold Paging.phywrite
  dsimp only
  by_cases hap : a = p
  · rw [hap, Function.update_self]
    refine Buf.leNat_shift fun i hi => ?_
    rw [Nat.zero_add]
    exact hwritten i hi
  · rw [Function.update_of_ne hap]
    exact Buf.leNat_congr fun i hi => hframe _ (fun j hj => by omega) (inEntry_word ha hne hi)

theorem phyzero_page {bitmap : ℕ → BitVec 8} {max fuel : ℕ} (aligned : p % PAGESIZE = 0)
    (fits : p + PAGESIZE ≤ 2 ^ 64) (ne : p ≠ PT0_ADDR) (enough : PAGESIZE < fuel) :
    ∃ m, phyzero place fuel ⟨phys, [], []⟩ p PAGESIZE = .done m ∧ ∀ a, a % 8 = 0 → a ≠ TMPMAP_PTE →
      words m.phys a = ((Paging.mk (words phys) bitmap max).phyzero p).mem a := by
  have hpage : p % 4096 = 0 := aligned
  have hclear : ∀ i < PAGESIZE, ¬InEntry (p + i) := by
    rintro i hi ⟨hlow, hhigh⟩
    change i < 4096 at hi
    change 0x4038 ≤ p + i at hlow
    change p + i < 0x4040 at hhigh
    change p ≠ 0x4000 at ne
    omega
  obtain ⟨m, hdone, hzero, hframe, -⟩ := (@keepsPart_zero place phys p PAGESIZE fits hclear).window fits
    (show 0 + PAGESIZE ≤ 2 ^ 64 by decide) enough
    (show ZeroUpTo phys p PAGESIZE 0 ⟨phys, [], []⟩ from ⟨nofun, fun _ _ _ => rfl, nofun, nofun⟩)
  refine ⟨m, hdone, fun a ha hne => ?_⟩
  unfold Paging.phyzero words
  dsimp only
  split_ifs with hin
  · obtain ⟨hlow, hhigh⟩ := hin
    change a < p + 4096 at hhigh
    refine Buf.leNat_eq_zero fun i hi => ?_
    have h := hzero (a + i - p) (show a + i - p < 4096 by omega)
    rwa [show p + (a + i - p) = a + i by omega] at h
  · refine Buf.leNat_congr fun i hi => hframe _ (fun j hj heq => hin ?_) (inEntry_word ha hne hi)
    change j < 4096 at hj
    refine ⟨by omega, ?_⟩
    show a < p + 4096
    omega

end Calls

/-- Four bytes over the end of a page, read to a buffer that is mapped elsewhere. -/
theorem phys_access_four : ∃ m, phyread (· + 0x200000) 5 ⟨UInt8.ofNat, [], []⟩ 0x10000 0x8FFE 4 = .done m ∧
    Logged 0x10000 4 m ∧ (∀ i < 4, m.phys (0x210000 + i) = seen UInt8.ofNat (0x8FFE + i)) ∧
    ∀ a, (∀ i < 4, a ≠ 0x10000 + i + 0x200000) → ¬InEntry a → m.phys a = UInt8.ofNat a := by
  have hclear : ∀ a, InEntry a → a < 0x4040 := fun a ha => ha.2
  have hbuffer : Buffer (· + 0x200000) 0x8FFE 0x10000 4 := by
    constructor
    case room => decide
    case outside => decide
    case clear => exact fun i _ h => absurd (hclear _ h) (by omega)
    case apart => exact fun i _ j hj => by omega
  obtain ⟨m, hdone, hlogged, hread, hframe⟩ := (@phys_access (· + 0x200000) UInt8.ofNat 0x8FFE 0x10000 4
    (by decide) 5 (by decide)).1 hbuffer fun i _ j _ h => by omega
  refine ⟨m, hdone, hlogged, fun i hi => ?_, hframe⟩
  have h := hread i hi
  rwa [show 0x10000 + i + 0x200000 = 0x210000 + i by omega] at h

/-- A buffer in the memory that is read: its first byte is read as the second one. -/
theorem phyread_overlap : ∃ m, phyread id 3 ⟨fun a => if a = 0x8000 then 1 else 2, [], []⟩ 0x8001 0x8000 2 =
    .done m ∧ m.phys 0x8002 = 1 := ⟨_, rfl, rfl⟩

end PhysMem
