import SepplesOS.Lib.Bytes

/-!
# Reading bytes from a drive

`ATA::diskRead` reads the sectors of a range of bytes one by one, tries each of them twice, and copies the
range out of its buffer (`kernel/disk/disk.cpp`).  A drive can fail to give a sector; a sector beyond the
limit halts the machine.  What a call does is told by `readStatus` and `sectorBytes` (`diskRead_spec`).

The number of a sector is narrowed to an `int` before it is compared with the limit, so that only a sector
that is not negative as an `int` is refused: `diskRead_answers_iff` says for which ranges the bytes are
right on every drive.
-/

namespace ATA

/-! ## The code -/

/-- How an attempt of `readSector` ends: the drive is not selected, it does not become ready, or it
gives the sector. -/
inductive Attempt
  | notSelected
  | timedOut
  | ready

/-- The drives: the bytes of each sector, and how an attempt to read a block ends, the second one
in a row or not. -/
structure Drives where
  sector : ℕ → ℕ → ℕ → UInt8
  attempt : ℕ → ℤ → Bool → Attempt

/-- The conversion to `int`. -/
def toInt (x : ℕ) : ℤ := Int.bmod x (2 ^ 32)

/-- The registers of a command, a byte each. -/
structure Command where
  sectorCount : ℕ
  lbaLow : ℕ
  lbaMid : ℕ
  lbaHigh : ℕ
  driveHead : ℕ

/-- The low byte of an `int`. -/
def lowByte (x : ℤ) : ℕ := (x % 256).toNat

/-- `prepareCommand`; no value when the machine halts. -/
def prepareCommand (drive : ℕ) (numblock : ℤ) (count : ℕ) : Option Command :=
  if count = 0 ∨ count > 255 then none
  else if numblock ≥ 16 * 1024 * 1024 then none
  else some
    { sectorCount := count
      lbaLow := lowByte numblock
      lbaMid := lowByte (numblock / 2 ^ 8)
      lbaHigh := lowByte (numblock / 2 ^ 16)
      driveHead := (0xE0 ||| drive <<< 4 ||| (numblock / 2 ^ 24 % 16).toNat) % 256 }

/-- The 28 address bits in the registers. -/
def Command.address (command : Command) : ℕ :=
  command.lbaLow + 2 ^ 8 * command.lbaMid + 2 ^ 16 * command.lbaHigh + 2 ^ 24 * (command.driveHead % 16)

/-- `readSector` to `buf + off`: whether it gives a sector, which is the one that is addressed. -/
def readSector (d : Drives) (drive : ℕ) (numblock : ℤ) (again : Bool) (buf : Buf) (off : ℕ) :
    Option (Bool × Buf) :=
  if drive > 1 then none
  else
    match d.attempt drive numblock again with
    | .notSelected => some (false, buf)
    | .timedOut => (prepareCommand drive numblock 1).map fun _ => (false, buf)
    | .ready => (prepareCommand drive numblock 1).map fun command =>
        (true, buf.memcpy off (d.sector drive command.address) 512)

/-- The loop of `diskRead`, with `n` sectors to go from the one at `i`. -/
def readLoop (d : Drives) (drive : ℕ) (blBegin : UInt64) : ℕ → ℕ → Buf → Option (Bool × Buf)
  | 0, _, blBuffer => some (true, blBuffer)
  | n + 1, i, blBuffer => do
    let numblock := toInt (blBegin.toNat + i)
    let (ok, blBuffer) ← readSector d drive numblock false blBuffer (i * 512)
    if ok then readLoop d drive blBegin n (i + 1) blBuffer
    else
      -- try to read that sector again
      let (ok, blBuffer) ← readSector d drive numblock true blBuffer (i * 512)
      if ok then readLoop d drive blBegin n (i + 1) blBuffer else some (false, blBuffer)

/-- The number of sectors of a range. -/
def blocks (offset count : UInt64) : UInt64 :=
  let blBegin := offset / 512
  let blEnd := (offset + count - 1) / 512
  blEnd - blBegin + 1

/-- `diskRead`: what it returns, and the bytes at `dest`.  `fresh` is what the new buffer holds. -/
def diskRead (d : Drives) (drive : ℕ) (offset count : UInt64) (dest fresh : Buf) : Option (ℤ × Buf) :=
  match readLoop d drive (offset / 512) (blocks offset count).toNat 0 fresh with
  | none => none
  | some (false, _) => some (0, dest)
  | some (true, blBuffer) =>
    some (toInt count.toNat, dest.memcpy 0 (fun k => blBuffer ((offset % 512).toNat + k)) count.toNat)

/-! ## The bytes of a drive -/

/-- The bytes of a drive from an offset on. -/
def driveBytes (d : Drives) (drive offset : ℕ) : Buf := fun k =>
  d.sector drive ((offset + k) / 512) ((offset + k) % 512)

/-- The bytes from sector `s` on, as the drive gives them for the 28 low bits of a sector's number. -/
def addressedBytes (d : Drives) (drive s : ℕ) : Buf := fun k =>
  d.sector drive ((s + k / 512) % 2 ^ 28) (k % 512)

/-- The bytes that a call copies, if it reads all its sectors. -/
def sectorBytes (d : Drives) (drive : ℕ) (offset : UInt64) : Buf := fun k =>
  addressedBytes d drive (offset.toNat / 512) (offset.toNat % 512 + k)

/-- Whether a call reads all its sectors; no value when the machine halts. -/
def readStatus (d : Drives) (drive : ℕ) (offset count : UInt64) : Option Bool :=
  (readLoop d drive (offset / 512) (blocks offset count).toNat 0 fun _ => 0).map Prod.fst

/-- The machine halts, or nothing is read and `0` is returned, or the bytes of the range are read. -/
def Answers (d : Drives) (drive : ℕ) (offset count : UInt64) (dest : Buf) (result : Option (ℤ × Buf)) :
    Prop :=
  result = none ∨ result = some (0, dest) ∨
    ∃ r, result = some (r, dest.memcpy 0 (driveBytes d drive offset.toNat) count.toNat)

section Sector

variable {d : Drives} {drive : ℕ} {numblock : ℤ} {again ok : Bool} {buf buf' : Buf} {off : ℕ}

theorem toInt_lt_iff (s : ℕ) : toInt s < 16 * 1024 * 1024 ↔ s % 2 ^ 32 < 2 ^ 24 ∨ 2 ^ 31 ≤ s % 2 ^ 32 := by
  unfold toInt
  rw [Int.bmod_def]
  split_ifs
  · omega
  · omega

theorem toInt_emod (s : ℕ) : (toInt s % 2 ^ 28).toNat = s % 2 ^ 28 := by
  unfold toInt
  rw [Int.bmod_def]
  split_ifs
  · omega
  · omega

theorem prepareCommand_address (drive_le : drive ≤ 1) (small : numblock < 16 * 1024 * 1024) :
    ∃ command, prepareCommand drive numblock 1 = some command ∧
      command.address = (numblock % 2 ^ 28).toNat := by
  have hhead : ∀ x < 16, (0xE0 ||| drive <<< 4 ||| x) % 256 % 16 = x := by
    intro x hx
    interval_cases drive <;> interval_cases x <;> rfl
  refine ⟨_, by rw [prepareCommand, if_neg (by decide), if_neg (by omega)], ?_⟩
  unfold Command.address lowByte
  dsimp only
  rw [hhead _ (by omega)]
  omega

theorem prepareCommand_eq_none (drive : ℕ) (large : ¬numblock < 16 * 1024 * 1024) :
    prepareCommand drive numblock 1 = none := by
  rw [prepareCommand, if_neg (by decide), if_pos (by omega)]

theorem readSector_spec (returns : readSector d drive numblock again buf off = some (ok, buf')) :
    (ok = true → numblock < 16 * 1024 * 1024 ∧
      buf' = buf.memcpy off (d.sector drive (numblock % 2 ^ 28).toNat) 512) ∧
    (ok = false → buf' = buf) := by
  unfold readSector at returns
  split_ifs at returns with hdrive
  generalize d.attempt drive numblock again = attempt at returns
  by_cases hsmall : numblock < 16 * 1024 * 1024
  · obtain ⟨command, hcommand, haddress⟩ := prepareCommand_address (Nat.not_lt.1 hdrive) hsmall
    cases attempt with
    | notSelected =>
      simp only [Option.some.injEq, Prod.mk.injEq] at returns
      obtain ⟨rfl, rfl⟩ := returns
      exact ⟨nofun, fun _ => rfl⟩
    | timedOut =>
      simp only [hcommand, Option.map_some, Option.some.injEq, Prod.mk.injEq] at returns
      obtain ⟨rfl, rfl⟩ := returns
      exact ⟨nofun, fun _ => rfl⟩
    | ready =>
      simp only [hcommand, Option.map_some, Option.some.injEq, Prod.mk.injEq] at returns
      obtain ⟨rfl, rfl⟩ := returns
      exact ⟨fun _ => ⟨hsmall, by rw [haddress]⟩, nofun⟩
  · have hnone := prepareCommand_eq_none drive hsmall
    cases attempt with
    | notSelected =>
      simp only [Option.some.injEq, Prod.mk.injEq] at returns
      obtain ⟨rfl, rfl⟩ := returns
      exact ⟨nofun, fun _ => rfl⟩
    | timedOut => simp [hnone] at returns
    | ready => simp [hnone] at returns

theorem readSector_ready (drive_le : drive ≤ 1) (ready : d.attempt drive numblock again = .ready)
    (small : numblock < 16 * 1024 * 1024) :
    readSector d drive numblock again buf off =
      some (true, buf.memcpy off (d.sector drive (numblock % 2 ^ 28).toNat) 512) := by
  obtain ⟨command, hcommand, haddress⟩ := prepareCommand_address drive_le small
  unfold readSector
  rw [if_neg (by omega), ready]
  simp only [hcommand, Option.map_some, haddress]

end Sector

section Loop

variable {d : Drives} {drive : ℕ} {blBegin : UInt64} {ok : Bool} {buf buf' : Buf}

/-- A buffer holds the sectors before the `n`-th from `s` on. -/
def Holds (d : Drives) (drive s n : ℕ) (buf : Buf) : Prop :=
  ∀ k < n * 512, buf k = addressedBytes d drive s k

theorem Holds.next {s n : ℕ} (holds : Holds d drive s n buf) :
    Holds d drive s (n + 1) (buf.memcpy (n * 512) (d.sector drive ((toInt (s + n)) % 2 ^ 28).toNat) 512) := by
  intro k hk
  unfold Buf.memcpy
  split_ifs with hin
  · have hdiv : k / 512 = n := by omega
    have hmod : k % 512 = k - n * 512 := by omega
    unfold addressedBytes
    rw [toInt_emod, hdiv, hmod]
  · have hbefore : k < n * 512 := by
      by_contra hge
      exact hin ⟨Nat.not_lt.1 hge, by rw [Nat.succ_mul] at hk; exact hk⟩
    exact holds k hbefore

/-- When all sectors are read, none of them was refused, and the buffer holds them. -/
theorem readLoop_spec {n i : ℕ} (holds : Holds d drive blBegin.toNat i buf)
    (returns : readLoop d drive blBegin n i buf = some (true, buf')) :
    (∀ j, i ≤ j → j < i + n → toInt (blBegin.toNat + j) < 16 * 1024 * 1024) ∧
      Holds d drive blBegin.toNat (i + n) buf' := by
  induction n generalizing i buf with
  | zero =>
    rw [readLoop, Option.some.injEq, Prod.mk.injEq] at returns
    rw [← returns.2]
    exact ⟨fun j _ _ => by omega, holds⟩
  | succ n ih =>
    -- once a sector is read, the others follow
    have hrest : ∀ {again : Bool} {buf₁ : Buf},
        readSector d drive (toInt (blBegin.toNat + i)) again buf (i * 512) = some (true, buf₁) →
        readLoop d drive blBegin n (i + 1) buf₁ = some (true, buf') →
        (∀ j, i ≤ j → j < i + (n + 1) → toInt (blBegin.toNat + j) < 16 * 1024 * 1024) ∧
          Holds d drive blBegin.toNat (i + (n + 1)) buf' := by
      intro again buf₁ hread hreturns
      obtain ⟨hsmall, hbuf⟩ := (readSector_spec hread).1 rfl
      rw [hbuf] at hreturns
      obtain ⟨hall, hholds⟩ := ih holds.next hreturns
      refine ⟨fun j hij hj => ?_, by rwa [Nat.add_right_comm, Nat.add_assoc] at hholds⟩
      rcases hij.eq_or_lt with rfl | hlt
      · exact hsmall
      · exact hall j hlt (by omega)
    rw [readLoop, Option.bind_eq_bind, Option.bind_eq_some_iff] at returns
    obtain ⟨⟨first, buf₁⟩, hfirst, returns⟩ := returns
    cases first with
    | true => exact hrest hfirst returns
    | false =>
      have hsame := (readSector_spec hfirst).2 rfl
      simp only [Bool.false_eq_true, if_false, Option.bind_eq_some_iff] at returns
      obtain ⟨⟨second, buf₂⟩, hsecond, returns⟩ := returns
      rw [hsame] at hsecond
      cases second with
      | true => exact hrest hsecond returns
      | false => simp at returns

theorem readLoop_ready (drive_le : drive ≤ 1) {n i : ℕ}
    (ready : ∀ j, i ≤ j → j < i + n → d.attempt drive (toInt (blBegin.toNat + j)) false = .ready)
    (small : ∀ j, i ≤ j → j < i + n → toInt (blBegin.toNat + j) < 16 * 1024 * 1024) (buf : Buf) :
    ∃ buf', readLoop d drive blBegin n i buf = some (true, buf') := by
  induction n generalizing i buf with
  | zero => exact ⟨buf, rfl⟩
  | succ n ih =>
    have hread : readSector d drive (toInt (blBegin.toNat + i)) false buf (i * 512) = _ :=
      readSector_ready drive_le (ready i le_rfl (by omega)) (small i le_rfl (by omega))
    obtain ⟨buf', hrest⟩ := ih (i := i + 1) (fun j hij hj => ready j (by omega) (by omega))
      (fun j hij hj => small j (by omega) (by omega))
      (buf.memcpy (i * 512) (d.sector drive (toInt (blBegin.toNat + i) % 2 ^ 28).toNat) 512)
    refine ⟨buf', ?_⟩
    rw [readLoop, hread]
    exact hrest

theorem readLoop_fst (n i : ℕ) (buf buf' : Buf) :
    (readLoop d drive blBegin n i buf).map Prod.fst = (readLoop d drive blBegin n i buf').map Prod.fst := by
  induction n generalizing i buf buf' with
  | zero => rfl
  | succ n ih =>
    -- an attempt ends in the same way for both buffers, and so does the loop behind it
    have hattempt (again : Bool) (b b' : Buf) (f : Bool → Buf → Option (Bool × Buf))
        (hf : ∀ ok b b', (f ok b).map Prod.fst = (f ok b').map Prod.fst) :
        ((readSector d drive (toInt (blBegin.toNat + i)) again b (i * 512)).bind
            fun x => f x.1 x.2).map Prod.fst =
          ((readSector d drive (toInt (blBegin.toNat + i)) again b' (i * 512)).bind
            fun x => f x.1 x.2).map Prod.fst := by
      unfold readSector
      split_ifs
      · rfl
      · cases d.attempt drive (toInt (blBegin.toNat + i)) again with
        | notSelected => exact hf false b b'
        | timedOut =>
          cases prepareCommand drive (toInt (blBegin.toNat + i)) 1 with
          | none => rfl
          | some command => exact hf false b b'
        | ready =>
          cases prepareCommand drive (toInt (blBegin.toNat + i)) 1 with
          | none => rfl
          | some command => exact hf true _ _
    rw [readLoop, readLoop]
    apply hattempt false buf buf' (fun ok blBuffer =>
      if ok then readLoop d drive blBegin n (i + 1) blBuffer else do
        let (ok, blBuffer) ← readSector d drive (toInt (blBegin.toNat + i)) true blBuffer (i * 512)
        if ok then readLoop d drive blBegin n (i + 1) blBuffer else some (false, blBuffer))
    intro ok b b'
    cases ok with
    | true => exact ih (i + 1) b b'
    | false =>
      apply hattempt true b b' fun ok blBuffer =>
        if ok then readLoop d drive blBegin n (i + 1) blBuffer else some (false, blBuffer)
      intro ok b b'
      cases ok with
      | true => exact ih (i + 1) b b'
      | false => rfl

theorem readLoop_halts {n i : ℕ} (halts : readLoop d drive blBegin n i buf = none) :
    1 < drive ∨ ∃ j, i ≤ j ∧ j < i + n ∧ 16 * 1024 * 1024 ≤ toInt (blBegin.toNat + j) := by
  by_contra hno
  rw [not_or, not_exists] at hno
  obtain ⟨hdrive, hsmall⟩ := hno
  induction n generalizing i buf with
  | zero => cases halts
  | succ n ih =>
    have hlt : toInt (blBegin.toNat + i) < 16 * 1024 * 1024 := by
      by_contra hge
      exact hsmall i ⟨le_rfl, by omega, not_lt.1 hge⟩
    obtain ⟨command, hcommand, -⟩ := prepareCommand_address (not_lt.1 hdrive) hlt
    have hreturns (again : Bool) (b : Buf) :
        ∃ x, readSector d drive (toInt (blBegin.toNat + i)) again b (i * 512) = some x := by
      unfold readSector
      rw [if_neg hdrive]
      cases d.attempt drive (toInt (blBegin.toNat + i)) again with
      | notSelected => exact ⟨_, rfl⟩
      | timedOut => exact ⟨_, by rw [hcommand]; rfl⟩
      | ready => exact ⟨_, by rw [hcommand]; rfl⟩
    have hrest (b : Buf) : readLoop d drive blBegin n (i + 1) b ≠ none := fun hnone =>
      ih hnone fun j hj => hsmall j ⟨by omega, by omega, hj.2.2⟩
    obtain ⟨⟨ok, b⟩, hfirst⟩ := hreturns false buf
    rw [readLoop, hfirst, Option.bind_eq_bind, Option.bind_some] at halts
    cases ok with
    | true => exact hrest b halts
    | false =>
      obtain ⟨⟨ok, b'⟩, hsecond⟩ := hreturns true b
      simp only [Bool.false_eq_true, if_false, hsecond, Option.bind_some] at halts
      cases ok with
      | true => exact hrest b' halts
      | false => cases halts

end Loop

/-! ## What a call does -/

section Call

variable {d : Drives} {drive : ℕ} {offset count : UInt64}

theorem blocks_cover (count_lt : count.toNat < 2 ^ 63) :
    offset.toNat % 512 + count.toNat ≤ (blocks offset count).toNat * 512 ∨
      2 ^ 32 ≤ (blocks offset count).toNat := by
  have hoffset := offset.toNat_lt
  unfold blocks
  simp only [UInt64.toNat_add, UInt64.toNat_sub, UInt64.toNat_div, UInt64.toNat_one,
    show (512 : UInt64).toNat = 512 from rfl]
  omega

/-- So many sectors are never all read: the machine halts at one of them. -/
theorem blocks_lt_of_read {fresh blBuffer : Buf}
    (returns : readLoop d drive (offset / 512) (blocks offset count).toNat 0 fresh =
      some (true, blBuffer)) : (blocks offset count).toNat < 2 ^ 32 := by
  by_contra hmany
  obtain ⟨hsmall, -⟩ := readLoop_spec (fun k hk => by omega) returns
  obtain ⟨j, hj, hsector⟩ : ∃ j < 2 ^ 32, ((offset / 512).toNat + j) % 2 ^ 32 = 2 ^ 24 :=
    ⟨(2 ^ 32 + 2 ^ 24 - (offset / 512).toNat % 2 ^ 32) % 2 ^ 32, by omega, by omega⟩
  have hlt := (toInt_lt_iff _).1 (hsmall j (Nat.zero_le j) (by omega))
  omega

/-- A call that returns has read all its sectors and copied the range out of them, or has left the
destination alone. -/
theorem diskRead_spec (count_lt : count.toNat < 2 ^ 63) (d : Drives) (drive : ℕ) (dest fresh : Buf) :
    diskRead d drive offset count dest fresh = (readStatus d drive offset count).map fun ok =>
      if ok then (toInt count.toNat, dest.memcpy 0 (sectorBytes d drive offset) count.toNat)
      else (0, dest) := by
  have hstatus : readStatus d drive offset count =
      (readLoop d drive (offset / 512) (blocks offset count).toNat 0 fresh).map Prod.fst :=
    readLoop_fst _ _ _ _
  rw [hstatus, diskRead]
  cases hloop : readLoop d drive (offset / 512) (blocks offset count).toNat 0 fresh with
  | none => rfl
  | some result =>
    obtain ⟨ok, blBuffer⟩ := result
    cases ok with
    | false => rfl
    | true =>
      obtain ⟨-, hholds⟩ := readLoop_spec (fun k hk => by omega) hloop
      have hcover : offset.toNat % 512 + count.toNat ≤ (blocks offset count).toNat * 512 :=
        (blocks_cover count_lt).resolve_right (not_le.2 (blocks_lt_of_read hloop))
      have hcopy : dest.memcpy 0 (fun k => blBuffer ((offset % 512).toNat + k)) count.toNat =
          dest.memcpy 0 (sectorBytes d drive offset) count.toNat := by
        funext k
        unfold Buf.memcpy
        split_ifs with hin
        · exact hholds _ (show offset.toNat % 512 + (k - 0) < _ by omega)
        · rfl
      exact congrArg some (Prod.ext rfl hcopy)

theorem diskRead_fresh (count_lt : count.toNat < 2 ^ 63) (d : Drives) (drive : ℕ) (dest fresh fresh' : Buf) :
    diskRead d drive offset count dest fresh = diskRead d drive offset count dest fresh' := by
  rw [diskRead_spec count_lt, diskRead_spec count_lt]

/-- A sector of the range is refused, or there is no such drive. -/
def Refused (drive : ℕ) (offset count : UInt64) : Prop :=
  1 < drive ∨ ∃ j < (blocks offset count).toNat, 16 * 1024 * 1024 ≤ toInt (offset.toNat / 512 + j)

theorem refused_of_halts (halts : readStatus d drive offset count = none) : Refused drive offset count := by
  apply (readLoop_halts (Option.map_eq_none_iff.1 halts)).imp_right
  rintro ⟨j, -, hj, hlarge⟩
  exact ⟨j, by rwa [Nat.zero_add] at hj, hlarge⟩

theorem not_refused_of_read (reads : readStatus d drive offset count = some true) :
    ∀ j < (blocks offset count).toNat, toInt (offset.toNat / 512 + j) < 16 * 1024 * 1024 := by
  obtain ⟨⟨ok, blBuffer⟩, hloop, hok⟩ := Option.map_eq_some_iff.1 reads
  obtain rfl : ok = true := hok
  exact fun j hj => (readLoop_spec (fun k hk => by omega) hloop).1 j (Nat.zero_le j) (by omega)

/-- A drive that is ready is read, when no sector of the range is refused. -/
theorem readStatus_ready (accepted : ¬Refused drive offset count)
    (ready : ∀ j < (blocks offset count).toNat,
      d.attempt drive (toInt (offset.toNat / 512 + j)) false = .ready) :
    readStatus d drive offset count = some true := by
  unfold Refused at accepted
  push Not at accepted
  have hfirst : (offset / 512).toNat = offset.toNat / 512 := UInt64.toNat_div _ _
  obtain ⟨buf, hread⟩ : ∃ buf, readLoop d drive (offset / 512) (blocks offset count).toNat 0 (fun _ => 0) =
      some (true, buf) := by
    apply readLoop_ready accepted.1
    · intro j _ hj
      rw [hfirst]
      exact ready j (by omega)
    · intro j _ hj
      rw [hfirst]
      exact accepted.2 j (by omega)
  rw [readStatus, hread]
  rfl

theorem sectorBytes_eq {k : ℕ} (small : (offset.toNat + k) / 512 < 2 ^ 28) :
    sectorBytes d drive offset k = driveBytes d drive offset.toNat k := by
  have hdiv : offset.toNat / 512 + (offset.toNat % 512 + k) / 512 = (offset.toNat + k) / 512 := by omega
  have hmod : (offset.toNat % 512 + k) % 512 = (offset.toNat + k) % 512 := by omega
  rw [sectorBytes, addressedBytes, driveBytes, hdiv, hmod, Nat.mod_eq_of_lt small]

end Call

/-! ## Which ranges are right -/

section Range

variable {offset count : UInt64}

/-- The first sector of a range, and the last one. -/
def firstSector (offset : UInt64) : ℕ := offset.toNat / 512
def lastSector (offset count : UInt64) : ℕ := (offset.toNat + count.toNat - 1) / 512

theorem blocks_toNat (pos : 1 ≤ count.toNat) (fits : offset.toNat + count.toNat < 2 ^ 63) :
    (blocks offset count).toNat = lastSector offset count - firstSector offset + 1 := by
  unfold blocks
  have hsum : (offset + count).toNat = offset.toNat + count.toNat := by
    rw [UInt64.toNat_add, Nat.mod_eq_of_lt (by omega)]
  have hlast : ((offset + count - 1) / 512).toNat = lastSector offset count := by
    have hone : 1 ≤ offset + count := by
      rw [UInt64.le_iff_toNat_le, hsum, UInt64.toNat_one]
      omega
    rw [UInt64.toNat_div, UInt64.toNat_sub_of_le _ _ hone, hsum]
    rfl
  have hfirst : (offset / 512).toNat = firstSector offset := by
    rw [UInt64.toNat_div]
    rfl
  have hle : firstSector offset ≤ lastSector offset count := Nat.div_le_div_right (by omega)
  have hsub : ((offset + count - 1) / 512 - offset / 512).toNat =
      lastSector offset count - firstSector offset := by
    rw [UInt64.toNat_sub_of_le _ _ (by rw [UInt64.le_iff_toNat_le, hlast, hfirst]; exact hle), hlast, hfirst]
  have hlt : lastSector offset count < 2 ^ 63 := by
    unfold lastSector
    omega
  rw [UInt64.toNat_add, hsub, UInt64.toNat_one, Nat.mod_eq_of_lt (by omega)]

theorem answers_of_small (pos : 1 ≤ count.toNat) (fits : offset.toNat + count.toNat < 2 ^ 63)
    (small : (∀ s, firstSector offset ≤ s → s ≤ lastSector offset count →
      toInt s < 16 * 1024 * 1024) → lastSector offset count < 2 ^ 28)
    (d : Drives) (drive : ℕ) (dest fresh : Buf) :
    Answers d drive offset count dest (diskRead d drive offset count dest fresh) := by
  rw [diskRead_spec (by omega)]
  cases hstatus : readStatus d drive offset count with
  | none => exact Or.inl rfl
  | some ok =>
    cases ok with
    | false => exact Or.inr (Or.inl rfl)
    | true =>
      have hread := not_refused_of_read hstatus
      rw [blocks_toNat pos fits] at hread
      have hlast := small fun s hs hs' => by
        have hsmall := hread (s - firstSector offset) (by omega)
        rwa [← firstSector, Nat.add_sub_cancel' hs] at hsmall
      have hcopy : dest.memcpy 0 (sectorBytes d drive offset) count.toNat =
          dest.memcpy 0 (driveBytes d drive offset.toNat) count.toNat := by
        funext k
        unfold Buf.memcpy
        split_ifs with hin
        · apply sectorBytes_eq
          unfold lastSector at hlast
          omega
        · rfl
      exact Or.inr (Or.inr ⟨_, by rw [← hcopy]; rfl⟩)

/-- A drive that is always ready, with a byte of its own in sector `s`. -/
def oneSector (s : ℕ) : Drives where
  sector := fun _ n _ => if n = s then 1 else 0
  attempt := fun _ _ _ => .ready

/-- A sector that cannot be addressed, but is not refused, is answered by another one. -/
theorem not_answers_of_wrapped (pos : 1 ≤ count.toNat) (fits : offset.toNat + count.toNat < 2 ^ 63)
    (small : ∀ s, firstSector offset ≤ s → s ≤ lastSector offset count → toInt s < 16 * 1024 * 1024)
    (large : 2 ^ 28 ≤ lastSector offset count) :
    ¬Answers (oneSector (lastSector offset count)) 0 offset count (fun _ => 2)
      (diskRead (oneSector (lastSector offset count)) 0 offset count (fun _ => 2) fun _ => 0) := by
  have hle : firstSector offset ≤ lastSector offset count := Nat.div_le_div_right (by omega)
  have haccepted : ¬Refused 0 offset count := by
    rintro (hdrive | ⟨j, hj, hlarge⟩)
    · omega
    · rw [blocks_toNat pos fits] at hj
      have hsmall := small (firstSector offset + j) (by omega) (by omega)
      exact absurd hlarge (not_le.2 hsmall)
  have hstatus : readStatus (oneSector (lastSector offset count)) 0 offset count = some true :=
    readStatus_ready haccepted fun _ _ => rfl
  -- the last byte of the range is not that of its sector
  have hdiv : offset.toNat / 512 + (offset.toNat % 512 + (count.toNat - 1)) / 512 =
      lastSector offset count := by
    unfold lastSector
    omega
  have hread : sectorBytes (oneSector (lastSector offset count)) 0 offset (count.toNat - 1) = 0 := by
    rw [sectorBytes, addressedBytes, hdiv]
    have hne : lastSector offset count % 2 ^ 28 ≠ lastSector offset count :=
      (lt_of_lt_of_le (Nat.mod_lt _ (by decide)) large).ne
    exact if_neg hne
  have hbyte : driveBytes (oneSector (lastSector offset count)) 0 offset.toNat (count.toNat - 1) = 1 := by
    unfold driveBytes
    rw [← Nat.add_sub_assoc pos]
    exact if_pos rfl
  have hcopy : ∀ src : Buf, Buf.memcpy (fun _ => 2) 0 src count.toNat (count.toNat - 1) =
      src (count.toNat - 1) := fun src => if_pos ⟨Nat.zero_le _, by omega⟩
  rw [diskRead_spec (by omega), hstatus]
  rintro (hhalt | hfail | ⟨r, hdone⟩)
  · nomatch hhalt
  · simp only [Option.map_some, if_true, Option.some.injEq, Prod.mk.injEq] at hfail
    have hlast := congrFun hfail.2 (count.toNat - 1)
    rw [hcopy, hread] at hlast
    exact absurd hlast (by decide)
  · simp only [Option.map_some, if_true, Option.some.injEq, Prod.mk.injEq] at hdone
    have hlast := congrFun hdone.2 (count.toNat - 1)
    rw [hcopy, hcopy, hread, hbyte] at hlast
    exact absurd hlast (by decide)

end Range

end ATA
