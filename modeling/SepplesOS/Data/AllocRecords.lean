import SepplesOS.Data.SizedArray

/-!
# Records of the allocations

`operator new` and `operator delete` keep a record of each block that the kernel has
(`kernel/mm/malloc.cpp`).  The records are an array, which gets its own memory with `realloc` and with the
same operators; while `noRecordSelf` is set these do nothing but allocate.  `Malloc::malloc` is ready, and
the place that it finds for a block is a parameter.
-/

/-- A record: the caller of the operator, the size of the block in bytes, and its address. -/
structure AllocRecord where
  caller : ℕ
  size : ℕ
  addr : ℕ

namespace AllocRecord

/-- The size of a record. -/
def SIZE : ℕ := 24

end AllocRecord

/-- The live blocks, each with what it holds as an array of records, and the two static variables. -/
structure Tracker where
  heap : Blocks (List AllocRecord)
  allocRecords : SizedArray
  noRecordSelf : Bool

namespace Tracker

open AllocRecord (SIZE)
open SizedArray (New Holds Lawful Becomes)

/-- The place that `Malloc::malloc` finds for so many bytes. -/
abbrev Places := Blocks (List AllocRecord) → ℕ → New AllocRecord

/-! ## The operators -/

section Code

variable (places : Places) (site : ℕ)

/-- `Malloc::malloc`.  The kernel has less than `2 ^ 32` bytes of memory. -/
def malloc (t : Tracker) (size : ℕ) : Run BlockFault (ℕ × Tracker) :=
  if size = 0 then .done (0, t)
  else if 2 ^ 32 ≤ size then .halted .exhausted
  else do
    let new := places t.heap size
    let heap ← t.heap.alloc new.addr (new.block (size / SIZE))
    .done (new.addr, { t with heap })

/-- `Malloc::free`. -/
def free (t : Tracker) (addr : ℕ) : Run BlockFault Tracker := do
  let heap ← t.heap.free addr
  .done { t with heap }

/-- `Malloc::realloc`. -/
def realloc (t : Tracker) (addr newsize : ℕ) : Run BlockFault (ℕ × Tracker) :=
  if addr = 0 then malloc places t newsize
  else if 2 ^ 32 ≤ newsize then .halted .exhausted
  else do
    let (addr, heap) ← SizedArray.realloc (places t.heap newsize) t.heap addr (newsize / SIZE)
    .done (addr, { t with heap })

/-- The memory of the array, with the operators that it uses. -/
def arrays (new : Tracker → ℕ → Run BlockFault (ℕ × Tracker))
    (delete : Tracker → ℕ → Run BlockFault Tracker) : ArrayMemory Tracker AllocRecord where
  heap := Tracker.heap
  store := fun t heap => { t with heap }
  newArray := fun t n => new t (n * SIZE)
  delete := delete
  realloc := fun t addr n => realloc places t addr (n * SIZE)

/-- `allocRecords[i]`.  The index is an `int`. -/
def record (t : Tracker) (i : ℕ) : Run BlockFault AllocRecord := do
  let records ← t.heap.get t.allocRecords.elems
  let index := (BitVec.ofNat 32 i).toInt
  if 0 ≤ index then .ofOption .dangling records[index.toNat]? else .halted .dangling

/-- The first of the `n` records from the one at `i` on that is of the block at `addr`. -/
def find (t : Tracker) (addr i : ℕ) : ℕ → Run BlockFault (Option ℕ)
  | 0 => .done none
  | n + 1 => do
    let record ← t.record i
    if record.addr = addr then .done (some i) else find t addr (i + 1) n

mutual

/-- `operator new` and `operator new[]`, called from `caller`.  The fuel bounds how deep the calls go, and
`site` is the place in `removeAt` that it is called from. -/
def operatorNew : ℕ → Tracker → ℕ → ℕ → Run BlockFault (ℕ × Tracker)
  | 0, _, _, _ => .running
  | fuel + 1, t, caller, size =>
    if !t.noRecordSelf then do
      let t := { t with noRecordSelf := true }
      let (addr, t) ← malloc places t size
      let (allocRecords, t) ← SizedArray.append
        (arrays places (fun t => operatorNew fuel t site) (operatorDelete fuel)) t t.allocRecords
        ⟨caller, size, addr⟩
      .done (addr, { t with allocRecords, noRecordSelf := false })
    else malloc places t size

/-- `operator delete` and `operator delete[]`. -/
def operatorDelete : ℕ → Tracker → ℕ → Run BlockFault Tracker
  | 0, _, _ => .running
  | fuel + 1, t, addr => do
    let t ← free t addr
    if !t.noRecordSelf then do
      let t := { t with noRecordSelf := true }
      match ← find t addr 0 t.allocRecords.size with
      | some i =>
        let (allocRecords, t) ← SizedArray.removeAt
          (arrays places (fun t => operatorNew fuel t site) (operatorDelete fuel)) t t.allocRecords i
        .done { t with allocRecords, noRecordSelf := false }
      | none => .done { t with noRecordSelf := false }
    else .done t

end

/-- The static variables are zero before; `static_init` assigns the array to itself. -/
def init (heap : Blocks (List AllocRecord)) : Run BlockFault Tracker := do
  let t : Tracker := ⟨heap, SizedArray.construct, false⟩
  let (allocRecords, t) ← SizedArray.assign
    (arrays places (fun t => operatorNew places site 2 t site) (operatorDelete places site 2)) t
    t.allocRecords t.allocRecords true
  .done { t with allocRecords, noRecordSelf := false }

end Code

/-! ## The memory of the array -/

section Memory

variable {places : Places} {site : ℕ} {t : Tracker} {o : SizedArray}

theorem malloc_spec (t : Tracker) (size : ℕ) : Run.Sat (malloc places t size)
    (fun r => r.2 = { t with heap := r.2.heap } ∧ (size = 0 → r.1 = 0 ∧ r.2.heap = t.heap) ∧
      (size ≠ 0 → r.1 ≠ 0 ∧ t.heap r.1 = none ∧ ∃ junk : List AllocRecord, junk.length = size / SIZE ∧
        r.2.heap = Function.update t.heap r.1 (some junk)))
    (· = .exhausted) False := by
  unfold malloc
  split_ifs with hsize hlarge
  · exact Run.sat_done ⟨rfl, fun _ => ⟨rfl, rfl⟩, fun hne => absurd hsize hne⟩
  · exact Run.sat_halted rfl
  · refine (SizedArray.alloc_sat _ _ _).bind fun heap hheap => Run.sat_done ?_
    obtain ⟨hne, hfree, hheap⟩ := hheap
    exact ⟨rfl, fun hzero => absurd hzero hsize,
      fun _ => ⟨hne, hfree, _, SizedArray.length_block _ _, hheap⟩⟩

theorem free_spec {addr : ℕ} (live : addr = 0 ∨ t.heap addr ≠ none) (null : t.heap 0 = none) :
    Run.Sat (free t addr) (fun t' => t' = { t with heap := Function.update t.heap addr none })
      (· = .exhausted) False := by
  refine (SizedArray.free_sat live null).bind fun heap hheap => Run.sat_done ?_
  rw [hheap]

theorem realloc_spec {addr n : ℕ} (pos : n ≠ 0) (live : addr = 0 ∨ t.heap addr ≠ none)
    (null : t.heap 0 = none) : Run.Sat (realloc places t addr (n * SIZE))
      (fun r => r.2 = { t with heap := r.2.heap } ∧ r.1 ≠ 0 ∧ (r.1 = addr ∨ t.heap r.1 = none) ∧
        ∃ xs : List AllocRecord, xs.length = n ∧
          (∀ old, t.heap addr = some old → old.length ≤ n → old <+: xs) ∧
          r.2.heap = Function.update (Function.update t.heap addr none) r.1 (some xs))
      (· = .exhausted) False := by
  have hdiv : n * SIZE / SIZE = n := Nat.mul_div_cancel _ (by decide)
  have hsize : n * SIZE ≠ 0 := Nat.mul_ne_zero pos (by decide)
  unfold realloc
  split_ifs with haddr hlarge
  · refine (malloc_spec t _).mono (fun r hr => ?_) (fun _ h => h) id
    obtain ⟨hsame, -, hr⟩ := hr
    obtain ⟨hne, hfree, junk, hlength, hheap⟩ := hr hsize
    refine ⟨hsame, hne, Or.inr hfree, junk, hlength.trans hdiv, fun old hold => ?_, ?_⟩
    · rw [haddr, null] at hold
      cases hold
    · rw [hheap, haddr, ← null, Function.update_eq_self]
  · exact Run.sat_halted rfl
  · rw [hdiv]
    exact (SizedArray.realloc_sat _ pos live null).bind fun r hr => Run.sat_done ⟨rfl, hr⟩

/-- With the flag set the operators are plain memory, and the array in the static variable stays. -/
theorem arrays_lawful (fuel : ℕ) (o : SizedArray) :
    Lawful (arrays places (fun t => operatorNew places site (fuel + 1) t site)
      (operatorDelete places site (fuel + 1))) fun t => t.noRecordSelf = true ∧ t.allocRecords = o := by
  constructor
  case heap_store => exact fun _ _ => rfl
  case keep => exact fun _ _ inv => inv
  case newArray =>
    rintro t n ⟨flag, rfl⟩
    have hdiv : n * SIZE / SIZE = n := Nat.mul_div_cancel _ (by decide)
    dsimp only [arrays]
    unfold operatorNew
    rw [flag, if_neg (by decide)]
    refine (malloc_spec t _).mono (fun r hr => ?_) (fun _ h => h) id
    obtain ⟨hsame, hzero, hpos⟩ := hr
    rw [hdiv] at hpos
    refine ⟨?_, fun hn => hzero (by rw [hn, Nat.zero_mul]), fun hn => ?_⟩
    · rw [hsame]
      exact ⟨flag, rfl⟩
    · exact hpos (Nat.mul_ne_zero hn (by decide))
  case delete =>
    rintro t p ⟨flag, rfl⟩ live null
    dsimp only [arrays]
    unfold operatorDelete
    refine (free_spec live null).bind fun t' ht => ?_
    subst ht
    rw [flag]
    exact Run.sat_done ⟨⟨rfl, rfl⟩, rfl⟩
  case realloc =>
    rintro t p n ⟨flag, rfl⟩ pos live null
    refine (realloc_spec pos live null).mono (fun r hr => ?_) (fun _ h => h) id
    obtain ⟨hsame, hr⟩ := hr
    refine ⟨?_, hr⟩
    rw [hsame]
    exact ⟨flag, rfl⟩

end Memory

/-! ## The search for a record -/

section Find

variable {t : Tracker} {rs : List AllocRecord} {r : AllocRecord}

theorem toInt_index {i : ℕ} (lt : i < 2 ^ 31) : (BitVec.ofNat 32 i).toInt = i := by
  rw [BitVec.toInt_ofNat']
  exact Int.bmod_eq_of_le (by omega) (by omega)

theorem record_of_get {i : ℕ} (holds : Holds t.heap t.allocRecords rs) (small : rs.length ≤ 2 ^ 31)
    (get : rs[i]? = some r) : t.record i = .done r := by
  obtain ⟨hi, -⟩ := List.getElem?_eq_some_iff.1 get
  have hrs : rs ≠ [] := List.ne_nil_of_length_pos (Nat.zero_lt_of_lt hi)
  unfold record
  rw [Blocks.get_of_some (holds.elems hrs), Run.done_bind, toInt_index (by omega)]
  dsimp only
  rw [if_pos (Int.natCast_nonneg i), Int.toNat_natCast, get]
  rfl

/-- The loop finds a record of the block, or there is none from the start on. -/
theorem find_spec (holds : Holds t.heap t.allocRecords rs) (small : rs.length ≤ 2 ^ 31) (addr i n : ℕ)
    (stop : i + n = rs.length) : ∃ found, find t addr i n = .done found ∧
      (∀ j, found = some j → ∃ r, rs[j]? = some r ∧ r.addr = addr) ∧
      (found = none → ∀ j r, i ≤ j → rs[j]? = some r → r.addr ≠ addr) := by
  induction n generalizing i with
  | zero =>
    refine ⟨none, rfl, nofun, fun _ j r hj hr => ?_⟩
    obtain ⟨hlt, -⟩ := List.getElem?_eq_some_iff.1 hr
    omega
  | succ n ih =>
    have hi : i < rs.length := by omega
    have hget : rs[i]? = some rs[i] := List.getElem?_eq_getElem hi
    unfold find
    rw [record_of_get holds small hget, Run.done_bind]
    split_ifs with haddr
    · refine ⟨some i, rfl, fun j hj => ?_, nofun⟩
      obtain rfl := Option.some.inj hj
      exact ⟨_, hget, haddr⟩
    · obtain ⟨found, hfind, hsome, hnone⟩ := ih (i + 1) (by omega)
      refine ⟨found, hfind, hsome, fun hfound j r hj hr => ?_⟩
      rcases Nat.eq_or_lt_of_le hj with rfl | hlt
      · rw [hget] at hr
        rwa [← Option.some.inj hr]
      · exact hnone hfound j r hlt hr

end Find

/-! ## Blocks of the kernel, and the block of the array -/

section Apart

/-- The live blocks are those of the kernel, the one of the array, and those from before, all apart. -/
structure Apart (h₀ h : Blocks (List AllocRecord)) (o : SizedArray) (live : Set ℕ) : Prop where
  base : h₀ 0 = none
  null : h 0 = none
  array : o.elems = 0 ∨ h o.elems ≠ none
  fresh : h₀ o.elems = none
  user : ∀ p ∈ live, h p ≠ none ∧ h₀ p = none ∧ p ≠ o.elems
  frame : ∀ q, q ∉ live → q ≠ o.elems → h q = h₀ q

variable {h₀ h h' : Blocks (List AllocRecord)} {o o' : SizedArray} {live : Set ℕ} {p : ℕ}
  {rs : List AllocRecord}

theorem Apart.unused (apart : Apart h₀ h o live) (free : h p = none) : h₀ p = none := by
  by_cases hp : p = o.elems
  · rw [hp]
    exact apart.fresh
  · rw [← apart.frame p (fun hlive => (apart.user p hlive).1 free) hp]
    exact free

theorem Apart.ne_zero (apart : Apart h₀ h o live) (mem : p ∈ live) : p ≠ 0 := by
  rintro rfl
  exact (apart.user 0 mem).1 apart.null

theorem Apart.alloc (apart : Apart h₀ h o live) (ne : p ≠ 0) (free : h p = none) :
    Apart h₀ (Function.update h p (some rs)) o (insert p live) := by
  have helems : o.elems ≠ p := by
    rintro rfl
    rcases apart.array with hzero | hlive
    · exact ne hzero
    · exact hlive free
  constructor
  case base => exact apart.base
  case null => rw [Function.update_of_ne ne.symm, apart.null]
  case array => rw [Function.update_of_ne helems]; exact apart.array
  case fresh => exact apart.fresh
  case user =>
    rintro q (rfl | hq)
    · refine ⟨?_, apart.unused free, helems.symm⟩
      rw [Function.update_self]
      exact Option.some_ne_none rs
    · have hqp : q ≠ p := by
        rintro rfl
        exact (apart.user q hq).1 free
      rw [Function.update_of_ne hqp]
      exact apart.user q hq
  case frame =>
    intro q hq hqo
    rw [Set.mem_insert_iff, not_or] at hq
    rw [Function.update_of_ne hq.1]
    exact apart.frame q hq.2 hqo

theorem Apart.free (apart : Apart h₀ h o live) (mem : p = 0 ∨ p ∈ live) :
    Apart h₀ (Function.update h p none) o (live \ {p}) := by
  have hp : h₀ p = none := by
    rcases mem with rfl | hlive
    · exact apart.base
    · exact (apart.user p hlive).2.1
  constructor
  case base => exact apart.base
  case null =>
    rw [Function.update_apply]
    split_ifs
    · rfl
    · exact apart.null
  case array =>
    rcases apart.array with hzero | hlive
    · exact Or.inl hzero
    · refine Or.inr ?_
      rw [Function.update_of_ne]
      · exact hlive
      · rintro rfl
        rcases mem with hzero | hmem
        · rw [hzero] at hlive
          exact hlive apart.null
        · exact (apart.user _ hmem).2.2 rfl
  case fresh => exact apart.fresh
  case user =>
    rintro q ⟨hq, hqp⟩
    rw [Function.update_of_ne hqp]
    exact apart.user q hq
  case frame =>
    intro q hq hqo
    by_cases hqp : q = p
    · rw [hqp, Function.update_self, hp]
    · rw [Function.update_of_ne hqp]
      exact apart.frame q (fun hlive => hq ⟨hlive, hqp⟩) hqo

theorem Apart.becomes (apart : Apart h₀ h o live) (becomes : Becomes h h' o o' rs) :
    Apart h₀ h' o' live := by
  have huser : ∀ p ∈ live, p ≠ o'.elems := by
    rintro p hp rfl
    rcases becomes.fresh with heq | hzero | hfree
    · exact (apart.user _ hp).2.2 heq
    · exact apart.ne_zero hp hzero
    · exact (apart.user _ hp).1 hfree
  constructor
  case base => exact apart.base
  case null => exact becomes.null
  case array => exact becomes.holds.live
  case fresh =>
    rcases becomes.fresh with heq | hzero | hfree
    · rw [heq]
      exact apart.fresh
    · rw [hzero]
      exact apart.base
    · exact apart.unused hfree
  case user =>
    intro p hp
    obtain ⟨hlive, hbase, hne⟩ := apart.user p hp
    rw [becomes.same p hne (huser p hp)]
    exact ⟨hlive, hbase, huser p hp⟩
  case frame =>
    intro q hq hqo
    by_cases hold : q = o.elems
    · rw [hold, becomes.freed (hold ▸ hqo), apart.fresh]
    · rw [becomes.same q hold hqo]
      exact apart.frame q hq hold

end Apart

/-! ## The operators keep the records -/

/-- There is one record for each block that the kernel has, with its size, and none besides.  The blocks of
the kernel and the one of the array, if there are records, are the only ones in use that were not before. -/
structure Tracked (h₀ : Blocks (List AllocRecord)) (t : Tracker) (blocks : ℕ → Option ℕ)
    (rs : List AllocRecord) : Prop where
  flag : t.noRecordSelf = false
  apart : Apart h₀ t.heap t.allocRecords {p | blocks p ≠ none}
  holds : Holds t.heap t.allocRecords rs
  once : (rs.map AllocRecord.addr).Nodup
  records : ∀ p n, blocks p = some n ↔ ∃ r ∈ rs, r.addr = p ∧ r.size = n
  small : rs.length * SIZE < 2 ^ 32

section Operators

variable {places : Places} {site : ℕ} {h₀ : Blocks (List AllocRecord)} {t : Tracker}
  {blocks : ℕ → Option ℕ} {rs : List AllocRecord} {addr size caller fuel : ℕ}

/-- The blocks of which there are records are those of the kernel. -/
theorem Tracked.mem_addrs (tracked : Tracked h₀ t blocks rs) :
    addr ∈ rs.map AllocRecord.addr ↔ blocks addr ≠ none := by
  rw [List.mem_map, Option.ne_none_iff_exists']
  constructor
  · rintro ⟨r, hr, haddr⟩
    exact ⟨r.size, (tracked.records addr r.size).2 ⟨r, hr, haddr, rfl⟩⟩
  · rintro ⟨n, hn⟩
    obtain ⟨r, hr, haddr, -⟩ := (tracked.records addr n).1 hn
    exact ⟨r, hr, haddr⟩

/-- Too many records do not fit in memory. -/
theorem append_large {o : SizedArray} {r : AllocRecord} {n : ℕ} (large : 2 ^ 32 ≤ (o.size + 1) * SIZE) :
    SizedArray.append (arrays places (fun t => operatorNew places site n t site)
      (operatorDelete places site n)) t o r = .halted .exhausted := by
  unfold SizedArray.append
  dsimp only [arrays]
  unfold realloc malloc
  rw [if_neg (show (o.size + 1) * SIZE ≠ 0 by omega), if_pos large, if_pos large, ite_self]
  rfl

theorem operatorNew_spec (tracked : Tracked h₀ t blocks rs) (pos : 0 < size) :
    Run.Sat (operatorNew places site (fuel + 2) t caller size)
      (fun r => r.1 ≠ 0 ∧ blocks r.1 = none ∧
        Tracked h₀ r.2 (Function.update blocks r.1 (some size)) (rs ++ [⟨caller, size, r.1⟩]))
      (· = .exhausted) False := by
  unfold operatorNew
  rw [tracked.flag, if_pos (by decide)]
  refine (malloc_spec _ size).bind fun r hr => ?_
  obtain ⟨addr, t₁⟩ := r
  obtain ⟨hsame, -, hr⟩ := hr
  obtain ⟨hne, hfree, junk, -, hheap⟩ := hr pos.ne'
  dsimp only at hsame hne hfree hheap ⊢
  have hflag : t₁.noRecordSelf = true := by rw [hsame]
  have ho : t₁.allocRecords = t.allocRecords := by rw [hsame]
  have hapart : Apart h₀ t₁.heap t₁.allocRecords (insert addr {p | blocks p ≠ none}) := by
    rw [hheap, ho]
    exact tracked.apart.alloc hne hfree
  have hblocks : blocks addr = none := by
    by_contra hlive
    exact (tracked.apart.user addr hlive).1 hfree
  have hholds : Holds t₁.heap t₁.allocRecords rs := by
    rw [ho]
    refine tracked.holds.congr (fun hzero => ?_) tracked.apart.null
    rw [hheap, Function.update_of_ne]
    rintro rfl
    exact tracked.apart.array.elim hzero fun hlive => hlive hfree
  by_cases hlarge : 2 ^ 32 ≤ (t₁.allocRecords.size + 1) * SIZE
  · rw [append_large hlarge]
    exact Run.sat_halted rfl
  · refine (SizedArray.append_spec (arrays_lawful fuel _) ⟨hflag, rfl⟩ hapart.null hholds).bind
      fun r hr => Run.sat_done ?_
    obtain ⟨o', t₂⟩ := r
    obtain ⟨-, hbecomes⟩ := hr
    refine ⟨hne, hblocks, ?_⟩
    constructor
    case flag => rfl
    case apart =>
      have hset : {p | Function.update blocks addr (some size) p ≠ none} =
          insert addr {p | blocks p ≠ none} := by
        ext p
        by_cases hp : p = addr <;> simp [hp]
      rw [hset]
      exact hapart.becomes hbecomes
    case holds => exact hbecomes.holds
    case once =>
      rw [List.map_append, List.map_singleton, List.nodup_append]
      refine ⟨tracked.once, List.nodup_singleton _, fun p hp q hq => ?_⟩
      rw [List.mem_singleton] at hq
      rintro rfl
      rw [hq] at hp
      exact tracked.mem_addrs.1 hp hblocks
    case records =>
      intro p n
      by_cases hp : p = addr
      · subst hp
        have hno : ∀ r ∈ rs, r.addr ≠ p := fun r hr heq =>
          tracked.mem_addrs.1 (List.mem_map.2 ⟨r, hr, heq⟩) hblocks
        rw [Function.update_self]
        constructor
        · intro hsize
          exact ⟨⟨caller, size, p⟩, by simp, rfl, Option.some.inj hsize⟩
        · rintro ⟨r, hr, haddr, hsize⟩
          rcases List.mem_append.1 hr with hr | hr
          · exact absurd haddr (hno r hr)
          · rw [List.mem_singleton.1 hr] at hsize
            exact congrArg some hsize
      · rw [Function.update_of_ne hp, tracked.records p n]
        simp [Ne.symm hp, or_and_right, exists_or]
    case small =>
      rw [List.length_append, List.length_singleton, ← hholds.size]
      omega

theorem mem_erased {i : ℕ} {r r' : AllocRecord} (once : (rs.map AllocRecord.addr).Nodup)
    (get : rs[i]? = some r) : r' ∈ rs.eraseIdx i ↔ r' ∈ rs ∧ r'.addr ≠ r.addr := by
  rw [List.mem_eraseIdx_iff_getElem?]
  constructor
  · rintro ⟨j, hne, hj⟩
    refine ⟨List.mem_iff_getElem?.2 ⟨j, hj⟩, fun haddr => hne ?_⟩
    obtain ⟨hlt, -⟩ := List.getElem?_eq_some_iff.1 hj
    refine (List.getElem?_inj (by rwa [List.length_map]) once).1 ?_
    rw [List.getElem?_map, List.getElem?_map, hj, get, Option.map_some, Option.map_some, haddr]
  · rintro ⟨hmem, hne⟩
    obtain ⟨j, hj⟩ := List.mem_iff_getElem?.1 hmem
    refine ⟨j, ?_, hj⟩
    rintro rfl
    rw [get] at hj
    exact hne (congrArg _ (Option.some.inj hj).symm)

theorem operatorDelete_spec (tracked : Tracked h₀ t blocks rs) (live : addr = 0 ∨ blocks addr ≠ none) :
    Run.Sat (operatorDelete places site (fuel + 2) t addr)
      (fun t' => ∃ rs', Tracked h₀ t' (Function.update blocks addr none) rs') (· = .exhausted) False := by
  have hset : {p | Function.update blocks addr none p ≠ none} = {p | blocks p ≠ none} \ {addr} := by
    ext p
    by_cases hp : p = addr <;> simp [hp]
  have hapart : Apart h₀ (Function.update t.heap addr none) t.allocRecords
      {p | Function.update blocks addr none p ≠ none} := by
    rw [hset]
    exact tracked.apart.free live
  have hholds : Holds (Function.update t.heap addr none) t.allocRecords rs := by
    refine tracked.holds.congr (fun hzero => ?_) tracked.apart.null
    refine Function.update_of_ne ?_ _ _
    rintro rfl
    rcases live with hnull | hlive
    · exact hzero hnull
    · exact (tracked.apart.user _ hlive).2.2 rfl
  have hsmall : rs.length ≤ 2 ^ 31 := by
    have h := tracked.small
    unfold SIZE at h
    omega
  have hfree : addr = 0 ∨ t.heap addr ≠ none := live.imp id fun h => (tracked.apart.user addr h).1
  let t₁ : Tracker := ⟨Function.update t.heap addr none, t.allocRecords, true⟩
  have hsize : 0 + t.allocRecords.size = rs.length := by rw [hholds.size, Nat.zero_add]
  obtain ⟨found, hfind, hsome, hnone⟩ := find_spec (t := t₁) hholds hsmall addr 0 _ hsize
  unfold operatorDelete
  refine (free_spec hfree tracked.apart.null).bind fun t₂ ht => ?_
  subst ht
  dsimp only
  rw [tracked.flag, if_pos (by decide), hfind, Run.done_bind]
  cases found with
  | none =>
    -- only the null pointer has no record
    have hblocks : blocks addr = none := by
      by_contra hne
      obtain ⟨r, hr, haddr⟩ := List.mem_map.1 (tracked.mem_addrs.2 hne)
      obtain ⟨j, hj⟩ := List.mem_iff_getElem?.1 hr
      exact hnone rfl j r (Nat.zero_le j) hj haddr
    refine Run.sat_done ⟨rs, ?_⟩
    constructor
    case flag => rfl
    case apart => exact hapart
    case holds => exact hholds
    case once => exact tracked.once
    case records =>
      rw [← hblocks, Function.update_eq_self]
      exact tracked.records
    case small => exact tracked.small
  | some i =>
    obtain ⟨r, hget, rfl⟩ := hsome i rfl
    obtain ⟨hlt, -⟩ := List.getElem?_eq_some_iff.1 hget
    refine (SizedArray.removeAt_spec (m := t₁) (arrays_lawful fuel t.allocRecords) ⟨rfl, rfl⟩ hapart.null
      hholds hlt).bind fun s hs => Run.sat_done ⟨rs.eraseIdx i, ?_⟩
    constructor
    case flag => rfl
    case apart => exact hapart.becomes hs.2
    case holds => exact hs.2.holds
    case once => exact ((List.eraseIdx_sublist rs i).map _).nodup tracked.once
    case records =>
      intro p n
      by_cases hp : p = r.addr
      · rw [hp, Function.update_self]
        refine iff_of_false (Option.some_ne_none n).symm ?_
        rintro ⟨r', hr', haddr, -⟩
        exact ((mem_erased tracked.once hget).1 hr').2 haddr
      · rw [Function.update_of_ne hp, tracked.records p n]
        refine exists_congr fun r' => and_congr_left fun hr' => ?_
        rw [mem_erased tracked.once hget]
        exact (and_iff_left (hr'.1 ▸ hp)).symm
    case small =>
      have hlength := List.length_eraseIdx_le rs i
      have h := tracked.small
      unfold SIZE at h ⊢
      omega

/-- The runs of the operators from `Malloc::init` on: the blocks that the kernel has had from `new` and not
given to `delete`, with their sizes. -/
inductive Reach (h₀ : Blocks (List AllocRecord)) : Tracker → (ℕ → Option ℕ) → Prop
  | init (places : Places) (site : ℕ) {t : Tracker} (result : init places site h₀ = .done t) :
      Reach h₀ t fun _ => none
  | new (places : Places) (site fuel caller size : ℕ) {addr : ℕ} {t t' : Tracker} {blocks : ℕ → Option ℕ}
      (run : Reach h₀ t blocks) (pos : 0 < size)
      (result : operatorNew places site (fuel + 2) t caller size = .done (addr, t')) :
      Reach h₀ t' (Function.update blocks addr (some size))
  | delete (places : Places) (site fuel addr : ℕ) {t t' : Tracker} {blocks : ℕ → Option ℕ}
      (run : Reach h₀ t blocks) (live : addr = 0 ∨ blocks addr ≠ none)
      (result : operatorDelete places site (fuel + 2) t addr = .done t') :
      Reach h₀ t' (Function.update blocks addr none)

theorem init_eq (heap : Blocks (List AllocRecord)) :
    init places site heap = .done ⟨heap, SizedArray.construct, false⟩ := rfl

theorem Tracked.start (null : h₀ 0 = none) :
    Tracked h₀ ⟨h₀, SizedArray.construct, false⟩ (fun _ => none) [] where
  flag := rfl
  apart := ⟨null, null, Or.inl rfl, null, nofun, fun _ _ _ => rfl⟩
  holds := SizedArray.holds_construct
  once := List.nodup_nil
  records := by simp
  small := by decide

/-- In every run there is one record for each block that the kernel has, and none besides; the next
operator ends, its calls at most two deep, unless no memory can be had. -/
theorem allocRecords_exact (null : h₀ 0 = none) (run : Reach h₀ t blocks) :
    (∃ rs, Tracked h₀ t blocks rs) ∧
    (∀ (places : Places) (site fuel caller size : ℕ), 0 < size →
      Run.Sat (operatorNew places site (fuel + 2) t caller size)
        (fun r => r.1 ≠ 0 ∧ blocks r.1 = none) (· = .exhausted) False) ∧
    ∀ (places : Places) (site fuel addr : ℕ), addr = 0 ∨ blocks addr ≠ none →
      Run.Sat (operatorDelete places site (fuel + 2) t addr) (fun _ => True) (· = .exhausted) False := by
  have htracked : ∃ rs, Tracked h₀ t blocks rs := by
    induction run with
    | init _ _ result =>
      rw [init_eq] at result
      cases result
      exact ⟨[], Tracked.start null⟩
    | new _ _ _ _ _ _ pos result ih =>
      obtain ⟨rs, hrs⟩ := ih
      exact ⟨_, ((operatorNew_spec hrs pos).of_done result).2.2⟩
    | delete _ _ _ _ _ live result ih =>
      obtain ⟨rs, hrs⟩ := ih
      exact (operatorDelete_spec hrs live).of_done result
  obtain ⟨rs, hrs⟩ := htracked
  refine ⟨⟨rs, hrs⟩, fun places site fuel caller size pos => ?_, fun places site fuel addr live => ?_⟩
  · exact (operatorNew_spec hrs pos).mono (fun _ h => ⟨h.1, h.2.1⟩) (fun _ h => h) id
  · exact (operatorDelete_spec hrs live).mono (fun _ _ => trivial) (fun _ h => h) id

end Operators

section Run

/-- The first free one of the addresses `1`, `2` and `3`. -/
def firstPlace : Places := fun heap _ =>
  ⟨if heap 1 = none then 1 else if heap 2 = none then 2 else 3, fun _ => ⟨0, 0, 0⟩⟩

/-- A block is got and given back, and another one got. -/
theorem allocRecords_exact_two : ∃ (t : Tracker) (blocks : ℕ → Option ℕ) (rs : List AllocRecord),
    blocks 1 = some 24 ∧ Tracked (fun _ => none) t blocks rs := by
  have h₁ : Reach (fun _ => none) _ _ := .init firstPlace 0 rfl
  have h₂ : Reach (fun _ => none) _ _ := .new firstPlace 0 0 0 8 h₁ (by decide) rfl
  have h₃ : Reach (fun _ => none) _ _ := .delete firstPlace 0 0 1 h₂ (Or.inr (Option.some_ne_none 8)) rfl
  have h₄ : Reach (fun _ => none) _ _ := .new firstPlace 0 0 0 24 h₃ (by decide) rfl
  obtain ⟨rs, hrs⟩ := (allocRecords_exact rfl h₄).1
  exact ⟨_, _, rs, rfl, hrs⟩

/-- When the only block has been given back, there is no array. -/
theorem exists_no_array : ∃ (t : Tracker) (blocks : ℕ → Option ℕ),
    Reach (fun _ => none) t blocks ∧ t.heap t.allocRecords.elems = none := by
  have h₁ : Reach (fun _ => none) _ _ := .init firstPlace 0 rfl
  have h₂ : Reach (fun _ => none) _ _ := .new firstPlace 0 0 0 8 h₁ (by decide) rfl
  have h₃ : Reach (fun _ => none) _ _ := .delete firstPlace 0 0 1 h₂ (Or.inr (Option.some_ne_none 8)) rfl
  exact ⟨_, _, h₃, rfl⟩

end Run

end Tracker
