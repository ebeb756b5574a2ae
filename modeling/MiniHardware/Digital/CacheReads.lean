import MiniHardware.Digital.Cache

/-!
# What the cache reads and replaces

A line that is taken for another tag keeps its bytes, and way 0 of a set is
compared by its time stamp even when it is invalid. `Traced` is the cache with
the writes that each line has got since it was taken, and the lines that were
used. In every run whose calls do not run into one of the two, and whose copies
stay within a line, a read returns the word last written to its address, and a
write replaces an invalid line or else the least recently used one
(`cache_run_correct`).
-/

namespace MiniHardware.Digital
open Lib

namespace Cache

/-- The line that an access to the address hits. -/
def hit (c : Cache) (addr : UInt32) : Option (Nat × Nat) :=
  match c.geom.place addr with
  | none => none
  | some p => if p.set < c.geom.numSets then (c.findWay p).map (p.set, ·) else none

/-- The line that a write to the address replaces. -/
def replaced (c : Cache) (addr : UInt32) : Option (Nat × Nat) :=
  match c.geom.place addr with
  | none => none
  | some p =>
    if p.set < c.geom.numSets then
      match c.findWay p with
      | some _ => none
      | none => some (p.set, c.victim p.set)
    else none

end Cache

/-! ## Effects -/

/-- The access made these lines of the cache. -/
structure Ticked (c c' : Cache) (lines : Nat × Nat → CacheLine) : Prop where
  geom : c'.geom = c.geom
  accesses : c'.accesses = c.accesses + 1
  lines_eq : c'.lines = lines

section Effects

variable {c : Cache} {addr : UInt32} {slot : Nat × Nat}

/-- A hit is at the place of the address, in a way that the search finds. -/
theorem hit_eq_some (hit : c.hit addr = some slot) :
    ∃ p, c.geom.place addr = some p ∧ p.set < c.geom.numSets ∧ p.set = slot.1 ∧ c.findWay p = some slot.2 := by
  unfold Cache.hit at hit
  split at hit
  · cases hit
  · rename_i p place
    split at hit
    · rename_i lt
      obtain ⟨w, found, eq⟩ := Option.map_eq_some_iff.1 hit
      subst eq
      exact ⟨p, place, lt, rfl, found⟩
    · cases hit

/-- A line is replaced where the search fails, and it is the victim of the set. -/
theorem replaced_eq_some (replaced : c.replaced addr = some slot) :
    ∃ p, c.geom.place addr = some p ∧ p.set < c.geom.numSets ∧ p.set = slot.1 ∧ c.findWay p = none ∧
      slot.2 = c.victim slot.1 := by
  unfold Cache.replaced at replaced
  split at replaced
  · cases replaced
  · rename_i p place
    split at replaced
    · rename_i lt
      split at replaced
      · cases replaced
      · rename_i miss
        cases replaced
        exact ⟨p, place, lt, rfl, miss, rfl⟩
    · cases replaced

/-- The way found is in the set, valid and of the tag. -/
theorem findWay_eq_some {p : Place} {w : Nat} (found : c.findWay p = some w) :
    w < c.geom.numWays ∧ (c.lines (p.set, w)).valid = true ∧ (c.lines (p.set, w)).tag = p.tag := by
  have test := List.find?_some found
  rw [Bool.and_eq_true, decide_eq_true_eq] at test
  exact ⟨List.mem_range.1 (List.mem_of_find?_eq_some found), test⟩

/-- Where the search fails, no valid way of the set has the tag. -/
theorem findWay_eq_none {p : Place} (miss : c.findWay p = none) {w : Nat} (lt : w < c.geom.numWays)
    (valid : (c.lines (p.set, w)).valid = true) : (c.lines (p.set, w)).tag ≠ p.tag := by
  intro tag
  have test := List.find?_eq_none.1 miss w (List.mem_range.2 lt)
  rw [valid, tag] at test
  exact test (by simp)

/-- A copy that fits writes the four bytes and no others. -/
theorem copyIn_eq_some (data : Nat → UInt8) {off : Nat} (fits : off + 4 ≤ cacheLineSize) (word : Word) :
    ∃ data', copyIn data off word = some data' ∧ (∀ i : Fin 4, data' (off + i.val) = word.get i) ∧
      ∀ k, ¬ (off ≤ k ∧ k < off + 4) → data' k = data k := by
  refine ⟨_, if_pos fits, fun i => ?_, fun k outside => dif_neg outside⟩
  rw [dif_pos ⟨Nat.le_add_right _ _, Nat.add_lt_add_left i.isLt off⟩]
  congr 1
  apply Fin.ext
  show off + i.val - off = i.val
  omega

/-- The access counter goes on while it is below `INT_MAX`. -/
theorem tick_eq (ticks : c.accesses + 1 < 2 ^ 31) : c.tick = some { c with accesses := c.accesses + 1 } :=
  if_pos ticks

/-- The search does not read the access counter. -/
theorem findWay_accesses (n : Nat) (p : Place) : Cache.findWay { c with accesses := n } p = c.findWay p := rfl

/-- The choice of the victim does not read the access counter. -/
theorem victim_accesses (n set : Nat) : Cache.victim { c with accesses := n } set = c.victim set := rfl

/-- A call that may go on and whose address is in one of the sets. -/
structure Reaches (c : Cache) (addr : UInt32) (p : Place) : Prop where
  ticks : c.accesses + 1 < 2 ^ 31
  place : c.geom.place addr = some p
  lt : p.set < c.geom.numSets

variable {p : Place}

/-- A read hit returns the four bytes and stamps the line. -/
theorem cacheRead_hit (h : Reaches c addr p) {w : Nat} (found : c.findWay p = some w)
    (fits : p.off + 4 ≤ cacheLineSize) :
    ∃ c', cacheRead c addr =
        some (c', some (Vector.ofFn fun i => (c.lines (p.set, w)).data (p.off + i.val))) ∧
      Ticked c c' (Function.update c.lines (p.set, w)
        { c.lines (p.set, w) with lastAccess := c.accesses + 1 }) := by
  unfold cacheRead
  simp only [tick_eq h.ticks, Option.bind_eq_bind, Option.bind_some, h.place, ge_iff_le,
    Nat.not_le.2 h.lt, if_false, findWay_accesses, found, copyOut, if_pos fits]
  exact ⟨_, rfl, rfl, rfl, rfl⟩

/-- A read miss returns nothing and changes no line. -/
theorem cacheRead_miss (ticks : c.accesses + 1 < 2 ^ 31) (place : (c.geom.place addr).isSome)
    (miss : c.hit addr = none) : ∃ c', cacheRead c addr = some (c', none) ∧ Ticked c c' c.lines := by
  obtain ⟨p, place⟩ := Option.isSome_iff_exists.1 place
  unfold cacheRead
  simp only [tick_eq ticks, Option.bind_eq_bind, Option.bind_some, place, ge_iff_le, findWay_accesses]
  split
  · exact ⟨_, rfl, rfl, rfl, rfl⟩
  · rename_i lt
    have none : c.findWay p = none := by
      simp only [Cache.hit, place, Nat.not_le.1 lt, if_true, Option.map_eq_none_iff] at miss
      exact miss
    rw [none]
    exact ⟨_, rfl, rfl, rfl, rfl⟩

/-- A write hit copies into the line and stamps it. -/
theorem cacheWrite_hit (h : Reaches c addr p) {w : Nat} (found : c.findWay p = some w) {dataIn : Word}
    {data : Nat → UInt8} (copied : copyIn (c.lines (p.set, w)).data p.off dataIn = some data) :
    ∃ c', cacheWrite c addr dataIn = some (c', true) ∧
      Ticked c c' (Function.update c.lines (p.set, w)
        { c.lines (p.set, w) with
          data := data, dirty := decide (c.writePolicy = .writeBack), lastAccess := c.accesses + 1 }) := by
  unfold cacheWrite
  simp only [tick_eq h.ticks, Option.bind_eq_bind, Option.bind_some, h.place, ge_iff_le,
    Nat.not_le.2 h.lt, if_false, findWay_accesses, found, copied]
  exact ⟨_, rfl, rfl, rfl, rfl⟩

/-- A write miss takes the victim for the line of the address. -/
theorem cacheWrite_miss (h : Reaches c addr p) (miss : c.findWay p = none) {dataIn : Word}
    {data : Nat → UInt8}
    (copied : copyIn (c.lines (p.set, c.victim p.set)).data p.off dataIn = some data) :
    ∃ c', cacheWrite c addr dataIn = some (c', true) ∧
      Ticked c c' (Function.update c.lines (p.set, c.victim p.set)
        ⟨true, decide (c.writePolicy = .writeBack), p.tag, data, c.accesses + 1⟩) := by
  unfold cacheWrite
  simp only [tick_eq h.ticks, Option.bind_eq_bind, Option.bind_some, h.place, ge_iff_le,
    Nat.not_le.2 h.lt, if_false, findWay_accesses, miss, victim_accesses, copied]
  exact ⟨_, rfl, rfl, rfl, rfl⟩

/-- A write whose set is beyond the last changes no line. -/
theorem cacheWrite_outside (ticks : c.accesses + 1 < 2 ^ 31) (place : c.geom.place addr = some p)
    (outside : ¬ p.set < c.geom.numSets) (dataIn : Word) :
    ∃ c', cacheWrite c addr dataIn = some (c', false) ∧ Ticked c c' c.lines := by
  unfold cacheWrite
  simp only [tick_eq ticks, Option.bind_eq_bind, Option.bind_some, place, ge_iff_le,
    Nat.not_lt.1 outside, if_true]
  exact ⟨_, rfl, rfl, rfl, rfl⟩

end Effects

/-! ## The way replaced -/

section Victim

variable {lines : Nat → CacheLine} {ws : List Nat} {lruWay oldest : Nat}

/-- The first invalid way ends the loop. -/
theorem victimLoop_invalid (some : ∃ w ∈ ws, (lines w).valid = false) :
    victimLoop lines ws lruWay oldest ∈ ws ∧ (lines (victimLoop lines ws lruWay oldest)).valid = false := by
  induction ws generalizing lruWay oldest with
  | nil =>
    obtain ⟨w, mem, -⟩ := some
    cases mem
  | cons w ws ih =>
    unfold victimLoop
    split
    · rename_i invalid
      exact ⟨List.mem_cons_self, by simpa using invalid⟩
    · rename_i valid
      have later : ∃ w ∈ ws, (lines w).valid = false := by
        obtain ⟨v, mem, invalid⟩ := some
        rcases List.mem_cons.1 mem with rfl | mem
        · rw [invalid] at valid
          exact absurd rfl valid
        · exact ⟨v, mem, invalid⟩
      split
      · exact ⟨List.mem_cons_of_mem w (ih later).1, (ih later).2⟩
      · exact ⟨List.mem_cons_of_mem w (ih later).1, (ih later).2⟩

/-- Without one the loop finds a least time stamp. -/
theorem victimLoop_least (valid : ∀ w ∈ ws, (lines w).valid = true) :
    victimLoop lines ws lruWay (lines lruWay).lastAccess ∈ lruWay :: ws ∧
      ∀ w ∈ lruWay :: ws,
        (lines (victimLoop lines ws lruWay (lines lruWay).lastAccess)).lastAccess ≤ (lines w).lastAccess := by
  induction ws generalizing lruWay with
  | nil =>
    refine ⟨List.mem_cons_self, fun w mem => ?_⟩
    rw [List.mem_singleton.1 mem]
    exact le_rfl
  | cons v ws ih =>
    have rest : ∀ w ∈ ws, (lines w).valid = true := fun w mem => valid w (List.mem_cons_of_mem v mem)
    unfold victimLoop
    rw [if_neg (by rw [valid v List.mem_cons_self]; decide)]
    split
    · rename_i less
      obtain ⟨mem, least⟩ := @ih v rest
      refine ⟨List.mem_cons_of_mem lruWay mem, fun w memw => ?_⟩
      rcases List.mem_cons.1 memw with rfl | memw
      · exact (least v List.mem_cons_self).trans less.le
      · exact least w memw
    · rename_i less
      obtain ⟨mem, least⟩ := @ih lruWay rest
      constructor
      · rcases List.mem_cons.1 mem with eq | mem
        · rw [eq]
          exact List.mem_cons_self
        · exact List.mem_cons_of_mem _ (List.mem_cons_of_mem v mem)
      · intro w memw
        rcases List.mem_cons.1 memw with rfl | memw
        · exact least w List.mem_cons_self
        · rcases List.mem_cons.1 memw with rfl | memw
          · exact (least lruWay List.mem_cons_self).trans (Nat.not_lt.1 less)
          · exact least w (List.mem_cons_of_mem _ memw)

/-- A way that no other one undercuts stays the way to replace. -/
theorem victimLoop_first (valid : ∀ w ∈ ws, (lines w).valid = true)
    (least : ∀ w ∈ ws, oldest ≤ (lines w).lastAccess) : victimLoop lines ws lruWay oldest = lruWay := by
  induction ws with
  | nil => rfl
  | cons w ws ih =>
    unfold victimLoop
    rw [if_neg (by rw [valid w List.mem_cons_self]; decide),
      if_neg (Nat.not_lt.2 (least w List.mem_cons_self))]
    exact ih (fun v mem => valid v (List.mem_cons_of_mem w mem))
      fun v mem => least v (List.mem_cons_of_mem w mem)

/-- The ways that the loop of the victim goes over, all but way 0. -/
theorem mem_otherWays {ways w : Nat} : w ∈ List.range' 1 (ways - 1) ↔ w < ways ∧ w ≠ 0 := by
  rw [List.mem_range'_1]
  omega

end Victim

/-! ## Runs -/

/-- The cache with the writes each line has got since it was taken, the newest first, the lines
used, the last one first, and the calls so far. -/
structure Traced where
  cache : Cache
  stored : Nat × Nat → List (UInt32 × Word)
  uses : List (Nat × Nat)
  log : List CacheCall

/-- The word of the last write to the address. -/
def lastWrite (log : List CacheCall) (addr : UInt32) : Option Word :=
  log.foldl (fun last call =>
    match call with
    | .write a word => if a = addr then some word else last
    | _ => last) none

namespace Traced

def start (c : Cache) : Traced := ⟨c, fun _ => [], [], []⟩

/-- The line that a call uses. -/
def used (c : Cache) : CacheCall → Option (Nat × Nat)
  | .read addr => c.hit addr
  | .write addr _ => (c.hit addr).or (c.replaced addr)
  | .invalidate _ | .flush => none

/-- The writes to the lines after a call. -/
def storedAfter (t : Traced) : CacheCall → Nat × Nat → List (UInt32 × Word)
  | .write addr word =>
    match t.cache.hit addr with
    | some slot => Function.update t.stored slot ((addr, word) :: t.stored slot)
    | none =>
      match t.cache.replaced addr with
      | some slot => Function.update t.stored slot [(addr, word)]
      | none => t.stored
  | _ => t.stored

/-- A call without a result has no state after it. -/
def step (t : Option Traced) (call : CacheCall) : Option Traced := do
  let t ← t
  let c ← cacheCall t.cache call
  some
    { cache := c
      stored := t.storedAfter call
      uses := (used t.cache call).toList ++ t.uses
      log := t.log ++ [call] }

/-! ## What is right -/

/-- The line is invalid if a way of the set is, and otherwise every other way was used after it. -/
structure Replaceable (t : Traced) (slot : Nat × Nat) : Prop where
  invalid : (∃ w < t.cache.geom.numWays, (t.cache.lines (slot.1, w)).valid = false) →
    (t.cache.lines slot).valid = false
  oldest : (∀ w < t.cache.geom.numWays, (t.cache.lines (slot.1, w)).valid = true) →
    ∀ w < t.cache.geom.numWays, w ≠ slot.2 → UsedSince t.uses slot (slot.1, w)

/-- A read of a word-aligned address that returns a word, returns the one last written to the
address, and a write that replaces a line, replaces the right one. -/
def Correct (t : Traced) : CacheCall → Prop
  | .read addr => addr.toNat % 4 = 0 → ∀ c out, cacheRead t.cache addr = some (c, some out) →
      lastWrite t.log addr = some out
  | .write addr _ => ∀ slot, t.cache.replaced addr = some slot → t.Replaceable slot
  | .invalidate _ | .flush => True

/-! ## When it is -/

/-- The word at the address is within the bytes of a line. -/
def Fits (geom : CacheGeometry) (addr : UInt32) : Prop := (addrOffset addr geom).toNat + 4 ≤ cacheLineSize

/-- Words at the two addresses of a line have a byte in common. -/
def Overlap (geom : CacheGeometry) (a b : UInt32) : Prop :=
  (addrOffset a geom).toNat < (addrOffset b geom).toNat + 4 ∧
    (addrOffset b geom).toNat < (addrOffset a geom).toNat + 4

/-- Way 0 is the only invalid one of the set, and its time stamp is not the least. -/
def StaleFirst (c : Cache) (set : Nat) : Prop :=
  (c.lines (set, 0)).valid = false ∧
    (∀ w < c.geom.numWays, w ≠ 0 → (c.lines (set, w)).valid = true) ∧
    ∃ w < c.geom.numWays, (c.lines (set, w)).lastAccess < (c.lines (set, 0)).lastAccess

instance (geom : CacheGeometry) (addr : UInt32) : Decidable (Fits geom addr) :=
  inferInstanceAs (Decidable (_ ≤ _))

instance (geom : CacheGeometry) (a b : UInt32) : Decidable (Overlap geom a b) :=
  inferInstanceAs (Decidable (_ ∧ _))

instance (c : Cache) (set : Nat) : Decidable (StaleFirst c set) :=
  inferInstanceAs (Decidable (_ ∧ _ ∧ _))

/-- The newest write that the line has got at the bytes of the address, since it was taken, was to
the address. -/
def Written (t : Traced) (slot : Nat × Nat) (addr : UInt32) : Prop :=
  ((t.stored slot).find? fun e => decide (Overlap t.cache.geom e.1 addr)).map (·.1) = some addr

/-- The copies of the call stay within the line, a read of an aligned address hits a word that was
written since the line was taken, and a write does not meet a set with a stale way 0. -/
def Ok (t : Traced) : CacheCall → Prop
  | .read addr =>
    t.cache.accesses + 1 < 2 ^ 31 ∧ (t.cache.geom.place addr).isSome ∧
      ∀ slot ∈ t.cache.hit addr, Fits t.cache.geom addr ∧ (addr.toNat % 4 = 0 → t.Written slot addr)
  | .write addr _ =>
    t.cache.accesses + 1 < 2 ^ 31 ∧ (t.cache.geom.place addr).isSome ∧
      (∀ p ∈ t.cache.geom.place addr, p.set < t.cache.geom.numSets → Fits t.cache.geom addr) ∧
      ∀ slot ∈ t.cache.replaced addr, ¬ StaleFirst t.cache slot.1
  | .invalidate addr => (t.cache.geom.place addr).isSome
  | .flush => True

instance (t : Traced) (slot : Nat × Nat) (addr : UInt32) : Decidable (t.Written slot addr) :=
  inferInstanceAs (Decidable (_ = _))

instance okDecidable (t : Traced) : (call : CacheCall) → Decidable (t.Ok call)
  | .read addr =>
    inferInstanceAs (Decidable (_ ∧ _ ∧ ∀ slot ∈ t.cache.hit addr,
      Fits t.cache.geom addr ∧ (addr.toNat % 4 = 0 → t.Written slot addr)))
  | .write addr _ =>
    inferInstanceAs (Decidable (_ ∧ _ ∧
      (∀ p ∈ t.cache.geom.place addr, p.set < t.cache.geom.numSets → Fits t.cache.geom addr) ∧
      ∀ slot ∈ t.cache.replaced addr, ¬ StaleFirst t.cache slot.1))
  | .invalidate addr => inferInstanceAs (Decidable ((t.cache.geom.place addr).isSome = true))
  | .flush => inferInstanceAs (Decidable True)

/-- `Ok` in a state that there is. -/
def StepOk (t : Option Traced) (call : CacheCall) : Prop :=
  match t with
  | none => False
  | some t => t.Ok call

instance stepOkDecidable : (t : Option Traced) → (call : CacheCall) → Decidable (StepOk t call)
  | none, _ => inferInstanceAs (Decidable False)
  | some t, call => inferInstanceAs (Decidable (t.Ok call))

end Traced

/-! ## The invariant -/

section Invariant

/-- The write stored byte `k` of a line. -/
def Stores (geom : CacheGeometry) (k : Nat) (e : UInt32 × Word) : Prop :=
  (addrOffset e.1 geom).toNat ≤ k ∧ k < (addrOffset e.1 geom).toNat + 4

instance (geom : CacheGeometry) (k : Nat) (e : UInt32 × Word) : Decidable (Stores geom k e) :=
  inferInstanceAs (Decidable (_ ∧ _))

/-- What a line has got: each byte is of the newest write that stored it, and the newest write to
an address of a valid line is the last one of all. -/
structure Holds (geom : CacheGeometry) (log : List CacheCall) (line : CacheLine) (set : Nat)
    (stored : List (UInt32 × Word)) : Prop where
  data : ∀ k e, (stored.find? fun e => decide (Stores geom k e)) = some e →
    ∀ i : Fin 4, (addrOffset e.1 geom).toNat + i.val = k → line.data k = e.2.get i
  last : line.valid = true → ∀ addr p, geom.place addr = some p → p.set = set → p.tag = line.tag →
    ∀ e, (stored.find? fun e => decide (e.1 = addr)) = some e → lastWrite log addr = some e.2

structure CacheInv (t : Traced) : Prop where
  ways : 0 < t.cache.geom.numWays
  inside : ∀ slot, (t.cache.lines slot).valid = true →
    slot.1 < t.cache.geom.numSets ∧ slot.2 < t.cache.geom.numWays
  once : ∀ s v w, (t.cache.lines (s, v)).valid = true → (t.cache.lines (s, w)).valid = true →
    (t.cache.lines (s, v)).tag = (t.cache.lines (s, w)).tag → v = w
  holds : ∀ slot, Holds t.cache.geom t.log (t.cache.lines slot) slot.1 (t.stored slot)
  clocked : Clocked (fun slot => (t.cache.lines slot).lastAccess) t.cache.accesses t.uses
  used : ∀ slot, (t.cache.lines slot).valid = true → slot ∈ t.uses

/-- One more call is the last write if it writes to the address. -/
theorem lastWrite_snoc (log : List CacheCall) (call : CacheCall) (addr : UInt32) :
    lastWrite (log ++ [call]) addr =
      match call with
      | .write a word => if a = addr then some word else lastWrite log addr
      | _ => lastWrite log addr := by
  unfold lastWrite
  rw [List.foldl_append]
  rfl

/-- Calls that write nothing leave what a line holds, also when it becomes invalid. -/
theorem Holds.keep {geom : CacheGeometry} {log log' : List CacheCall} {line line' : CacheLine} {set : Nat}
    {stored : List (UInt32 × Word)} (h : Holds geom log line set stored) (data : line'.data = line.data)
    (valid : line'.valid = true → line.valid = true ∧ line'.tag = line.tag)
    (same : ∀ addr, lastWrite log' addr = lastWrite log addr) : Holds geom log' line' set stored where
  data k e found i eq := by
    rw [data]
    exact h.data k e found i eq
  last valid' addr p place set_eq tag e found := by
    rw [same]
    exact h.last (valid valid').1 addr p place set_eq (tag.trans (valid valid').2) e found

/-- A write of another line's address. -/
theorem Holds.other {geom : CacheGeometry} {log : List CacheCall} {line : CacheLine} {set : Nat}
    {stored : List (UInt32 × Word)} (h : Holds geom log line set stored) {addr : UInt32} {p : Place}
    (place : geom.place addr = some p) (apart : line.valid = true → p.set = set → p.tag ≠ line.tag)
    (word : Word) : Holds geom (log ++ [.write addr word]) line set stored where
  data := h.data
  last valid a q place' set_eq tag e found := by
    rw [lastWrite_snoc]
    dsimp only
    rw [if_neg]
    · exact h.last valid a q place' set_eq tag e found
    · rintro rfl
      rw [place] at place'
      cases place'
      exact apart valid set_eq tag

/-- A write into the line. -/
theorem Holds.write {geom : CacheGeometry} {log : List CacheCall} {line line' : CacheLine} {set : Nat}
    {stored : List (UInt32 × Word)} (h : Holds geom log line set stored) {addr : UInt32} {word : Word}
    (here : ∀ i : Fin 4, line'.data ((addrOffset addr geom).toNat + i.val) = word.get i)
    (others : ∀ k, ¬ ((addrOffset addr geom).toNat ≤ k ∧ k < (addrOffset addr geom).toNat + 4) →
      line'.data k = line.data k) {kept : List (UInt32 × Word)}
    (keeps : kept = [] ∨ kept = stored ∧ line.valid = true ∧ line'.tag = line.tag) :
    Holds geom (log ++ [.write addr word]) line' set ((addr, word) :: kept) where
  data k e found i eq := by
    rw [List.find?_cons] at found
    split at found
    · cases found
      rw [← eq]
      exact here i
    · rename_i outside
      rw [others k (of_decide_eq_false outside)]
      rcases keeps with rfl | ⟨rfl, -⟩
      · cases found
      · exact h.data k e found i eq
  last valid a p place set_eq tag e found := by
    rw [lastWrite_snoc]
    dsimp only
    rw [List.find?_cons] at found
    split at found
    · rename_i same
      cases found
      rw [if_pos (of_decide_eq_true same)]
    · rename_i other
      rw [if_neg (of_decide_eq_false other)]
      rcases keeps with rfl | ⟨rfl, valid', tag'⟩
      · cases found
      · exact h.last valid' a p place set_eq (tag.trans tag') e found

variable {t : Traced} {call : CacheCall}

/-- The offset of the place is that of the address. -/
theorem place_off {geom : CacheGeometry} {addr : UInt32} {p : Place} (place : geom.place addr = some p) :
    p.off = (addrOffset addr geom).toNat := by
  unfold CacheGeometry.place at place
  simp only [Option.bind_eq_bind, Option.bind_eq_some_iff, Option.some.injEq] at place
  obtain ⟨tag, -, set, -, rfl⟩ := place
  rfl

/-- A narrower test that the first hit of a wider one passes has the same first hit. -/
theorem find?_of_imp {α : Type} {p q : α → Bool} {l : List α} {x : α} (found : l.find? p = some x)
    (test : q x = true) (imp : ∀ y, q y = true → p y = true) : l.find? q = some x := by
  rw [List.find?_eq_some_iff_append] at found ⊢
  obtain ⟨-, as, bs, eq, before⟩ := found
  refine ⟨test, as, bs, eq, fun a mem => ?_⟩
  have no := before a mem
  rw [Bool.not_eq_true'] at no ⊢
  exact Bool.eq_false_iff.2 fun yes => Bool.eq_false_iff.1 no (imp a yes)

/-- A word written since the line was taken is read as the last write left it. -/
theorem CacheInv.read (inv : CacheInv t) {addr : UInt32} {p : Place} {w : Nat}
    (reaches : Reaches t.cache addr p) (found : t.cache.findWay p = some w)
    (written : t.Written (p.set, w) addr) :
    lastWrite t.log addr =
      some (Vector.ofFn fun i => (t.cache.lines (p.set, w)).data (p.off + i.val)) := by
  obtain ⟨e, newest, same⟩ := Option.map_eq_some_iff.1 written
  have holds := inv.holds (p.set, w)
  have line := findWay_eq_some found
  have latest := holds.last line.2.1 addr p reaches.place rfl line.2.2.symm e
    (find?_of_imp newest (decide_eq_true same) fun y yes => by
      rw [decide_eq_true_eq] at yes ⊢
      rw [yes]
      unfold Traced.Overlap
      omega)
  have word : e.2 = Vector.ofFn fun i => (t.cache.lines (p.set, w)).data (p.off + i.val) := by
    apply Vector.ext
    intro i lt
    rw [Vector.getElem_ofFn, place_off reaches.place]
    refine (holds.data _ e (find?_of_imp newest ?_ fun y yes => ?_) ⟨i, lt⟩ (by rw [same])).symm
    · rw [decide_eq_true_eq]
      unfold Stores
      rw [same]
      omega
    · rw [decide_eq_true_eq] at yes ⊢
      unfold Stores at yes
      unfold Traced.Overlap
      omega
  rw [latest, word]

/-- The victim is a way of the set. -/
theorem CacheInv.victim_lt (inv : CacheInv t) (set : Nat) : t.cache.victim set < t.cache.geom.numWays := by
  have pos := inv.ways
  by_cases other : ∃ w ∈ List.range' 1 (t.cache.geom.numWays - 1), (t.cache.lines (set, w)).valid = false
  · exact (mem_otherWays.1 (@victimLoop_invalid (fun w => t.cache.lines (set, w)) _ _ _ other).1).1
  · have mem := (@victimLoop_least (fun w => t.cache.lines (set, w))
      (List.range' 1 (t.cache.geom.numWays - 1)) 0 fun w mem => by
        rw [← Bool.not_eq_false]
        exact fun h => other ⟨w, mem, h⟩).1
    rcases List.mem_cons.1 mem with eq | mem
    · exact eq.trans_lt pos
    · exact (mem_otherWays.1 mem).1

/-- Outside of the stale sets the loop finds an invalid way if there is one. -/
theorem CacheInv.replaceable (inv : CacheInv t) {slot : Nat × Nat} (victim : slot.2 = t.cache.victim slot.1)
    (fresh : ¬ Traced.StaleFirst t.cache slot.1) : t.Replaceable slot := by
  obtain ⟨set, v⟩ := slot
  obtain rfl : v = t.cache.victim set := victim
  constructor
  · rintro ⟨w, lt, invalid⟩
    by_cases other : ∃ w ∈ List.range' 1 (t.cache.geom.numWays - 1), (t.cache.lines (set, w)).valid = false
    · exact (@victimLoop_invalid (fun w => t.cache.lines (set, w)) _ _ _ other).2
    · have valid : ∀ w ∈ List.range' 1 (t.cache.geom.numWays - 1), (t.cache.lines (set, w)).valid = true := by
        intro w mem
        rw [← Bool.not_eq_false]
        exact fun h => other ⟨w, mem, h⟩
      have zero : w = 0 := by
        by_contra ne
        rw [valid w (mem_otherWays.2 ⟨lt, ne⟩)] at invalid
        cases invalid
      rw [zero] at invalid
      -- way 0 is the only invalid one, and the set is not stale
      have least : ∀ w ∈ List.range' 1 (t.cache.geom.numWays - 1),
          (t.cache.lines (set, 0)).lastAccess ≤ (t.cache.lines (set, w)).lastAccess := by
        intro w mem
        by_contra less
        exact fresh ⟨invalid, fun w lt ne => valid w (mem_otherWays.2 ⟨lt, ne⟩), w,
          (mem_otherWays.1 mem).1, Nat.not_le.1 less⟩
      have first : t.cache.victim set = 0 :=
        @victimLoop_first (fun w => t.cache.lines (set, w)) _ _ _ valid least
      rw [first]
      exact invalid
  · intro valid w lt ne
    have pos := inv.ways
    obtain ⟨mem, least⟩ := @victimLoop_least (fun w => t.cache.lines (set, w))
      (List.range' 1 (t.cache.geom.numWays - 1)) 0 fun w mem => valid w (mem_otherWays.1 mem).1
    have inside := inv.victim_lt set
    apply inv.clocked.since_of_le (inv.used _ (valid _ inside))
    · exact fun eq => ne (Prod.mk.inj eq).2.symm
    · apply least w
      rw [List.mem_cons, mem_otherWays]
      omega

/-- In a state of the invariant, a call that is `Ok` is correct. -/
theorem CacheInv.correct (inv : CacheInv t) (ok : t.Ok call) : t.Correct call := by
  cases call with
  | read addr =>
    intro aligned c out read
    obtain ⟨ticks, place, hits⟩ := ok
    cases look : t.cache.hit addr with
    | none =>
      obtain ⟨c', missed, -⟩ := cacheRead_miss ticks place look
      rw [missed] at read
      cases read
    | some slot =>
      obtain ⟨p, place, lt, eq, found⟩ := hit_eq_some look
      obtain ⟨fits, written⟩ := hits slot look
      have reaches : Reaches t.cache addr p := ⟨ticks, place, lt⟩
      obtain ⟨c', value, -⟩ := cacheRead_hit reaches found (by rw [place_off place]; exact fits)
      rw [value] at read
      cases read
      exact inv.read reaches found (by rw [eq]; exact written aligned)
  | write addr word =>
    intro slot replaced
    obtain ⟨p, place, lt, eq, miss, victim⟩ := replaced_eq_some replaced
    exact inv.replaceable victim (ok.2.2.2 slot replaced)
  | invalidate addr => trivial
  | flush => trivial

/-! ## The steps -/

/-- An access that leaves a valid line in one slot. -/
theorem CacheInv.put (inv : CacheInv t) {c' : Cache} {slot : Nat × Nat} {line' : CacheLine}
    (ticked : Ticked t.cache c' (Function.update t.cache.lines slot line'))
    (stamp : line'.lastAccess = t.cache.accesses + 1)
    (inside : slot.1 < t.cache.geom.numSets ∧ slot.2 < t.cache.geom.numWays)
    (unique : ∀ w, w ≠ slot.2 → (t.cache.lines (slot.1, w)).valid = true →
      (t.cache.lines (slot.1, w)).tag ≠ line'.tag)
    {stored : Nat × Nat → List (UInt32 × Word)} {log : List CacheCall}
    (here : Holds t.cache.geom log line' slot.1 (stored slot))
    (others : ∀ s, s ≠ slot → Holds t.cache.geom log (t.cache.lines s) s.1 (stored s)) :
    CacheInv ⟨c', stored, slot :: t.uses, log⟩ where
  ways := by
    show 0 < c'.geom.numWays
    rw [ticked.geom]
    exact inv.ways
  inside s valid := by
    change (c'.lines s).valid = true at valid
    show s.1 < c'.geom.numSets ∧ s.2 < c'.geom.numWays
    rw [ticked.geom]
    rw [ticked.lines_eq] at valid
    rcases eq_or_ne s slot with rfl | ne
    · exact inside
    · rw [Function.update_of_ne ne] at valid
      exact inv.inside s valid
  once s v w := by
    show (c'.lines (s, v)).valid = true → (c'.lines (s, w)).valid = true →
      (c'.lines (s, v)).tag = (c'.lines (s, w)).tag → v = w
    rw [ticked.lines_eq]
    intro hv hw tags
    rcases eq_or_ne (s, v) slot with rfl | nev
    · rcases eq_or_ne (s, w) (s, v) with eq | new
      · exact (Prod.mk.inj eq).2.symm
      · rw [Function.update_of_ne new] at hw tags
        rw [Function.update_self] at tags
        exact absurd tags.symm (unique w (fun eq => new (by rw [eq])) hw)
    · rw [Function.update_of_ne nev] at hv tags
      rcases eq_or_ne (s, w) slot with rfl | new
      · rw [Function.update_self] at tags
        exact absurd tags (unique v (fun eq => nev (by rw [eq])) hv)
      · rw [Function.update_of_ne new] at hw tags
        exact inv.once s v w hv hw tags
  holds s := by
    show Holds c'.geom log (c'.lines s) s.1 (stored s)
    rw [ticked.geom, ticked.lines_eq]
    rcases eq_or_ne s slot with rfl | ne
    · rw [Function.update_self]
      exact here
    · rw [Function.update_of_ne ne]
      exact others s ne
  clocked := by
    have next : t.cache.accesses < c'.accesses := by
      rw [ticked.accesses]
      exact Nat.lt_succ_self _
    apply inv.clocked.use next
    · rw [ticked.lines_eq, Function.update_self, stamp, ticked.accesses]
    · intro s ne
      rw [ticked.lines_eq, Function.update_of_ne ne]
  used s valid := by
    change (c'.lines s).valid = true at valid
    rw [ticked.lines_eq] at valid
    rcases eq_or_ne s slot with rfl | ne
    · exact List.mem_cons_self
    · rw [Function.update_of_ne ne] at valid
      exact List.mem_cons_of_mem slot (inv.used s valid)

/-- A call that uses no line, and after which no more lines are valid. -/
theorem CacheInv.idle (inv : CacheInv t) {c' : Cache} (geom : c'.geom = t.cache.geom)
    (le : t.cache.accesses ≤ c'.accesses)
    (stamp : ∀ s, (c'.lines s).lastAccess = (t.cache.lines s).lastAccess)
    (valid : ∀ s, (c'.lines s).valid = true →
      (t.cache.lines s).valid = true ∧ (c'.lines s).tag = (t.cache.lines s).tag)
    {log : List CacheCall} (holds : ∀ s, Holds t.cache.geom log (c'.lines s) s.1 (t.stored s)) :
    CacheInv ⟨c', t.stored, t.uses, log⟩ where
  ways := by
    show 0 < c'.geom.numWays
    rw [geom]
    exact inv.ways
  inside s valid' := by
    show s.1 < c'.geom.numSets ∧ s.2 < c'.geom.numWays
    rw [geom]
    exact inv.inside s (valid s valid').1
  once s v w hv hw tags := by
    have fst := valid (s, v) hv
    have snd := valid (s, w) hw
    exact inv.once s v w fst.1 snd.1 (fst.2.symm.trans (Eq.trans tags snd.2))
  holds s := by
    show Holds c'.geom log (c'.lines s) s.1 (t.stored s)
    rw [geom]
    exact holds s
  clocked := inv.clocked.later le stamp
  used s valid' := inv.used s (valid s valid').1

/-- A step of the traced cache, from the parts that it computes. -/
theorem step_eq {c' : Cache} {stored : Nat × Nat → List (UInt32 × Word)} {slot : Option (Nat × Nat)}
    (call_eq : cacheCall t.cache call = some c') (stored_eq : t.storedAfter call = stored)
    (used_eq : Traced.used t.cache call = slot) :
    Traced.step (some t) call = some ⟨c', stored, slot.toList ++ t.uses, t.log ++ [call]⟩ := by
  unfold Traced.step
  simp only [Option.bind_eq_bind, Option.bind_some, call_eq, stored_eq, used_eq]

/-- The lines after `cache_invalidate` and `cache_flush`. -/
theorem CacheInv.clear (inv : CacheInv t) (q : Nat × Nat → Bool)
    (same : ∀ addr, lastWrite (t.log ++ [call]) addr = lastWrite t.log addr) :
    CacheInv ⟨t.cache.clear q, t.stored, t.uses, t.log ++ [call]⟩ := by
  have line (s : Nat × Nat) : (t.cache.clear q).lines s = t.cache.lines s ∨
      (t.cache.clear q).lines s = { t.cache.lines s with valid := false, dirty := false } := by
    unfold Cache.clear
    dsimp only
    split
    · exact Or.inr rfl
    · exact Or.inl rfl
  have valid (s : Nat × Nat) (h : ((t.cache.clear q).lines s).valid = true) :
      (t.cache.lines s).valid = true ∧ ((t.cache.clear q).lines s).tag = (t.cache.lines s).tag := by
    rcases line s with eq | eq
    · rw [eq] at h ⊢
      exact ⟨h, rfl⟩
    · rw [eq] at h
      cases h
  have geom : (t.cache.clear q).geom = t.cache.geom := rfl
  refine inv.idle geom (Nat.le_refl _) (fun s => ?_) valid fun s => ?_
  · rcases line s with eq | eq <;> rw [eq]
  · refine (inv.holds s).keep ?_ (valid s) same
    rcases line s with eq | eq <;> rw [eq]

/-- A read that is `Ok` keeps the invariant. -/
theorem CacheInv.step_read (inv : CacheInv t) {addr : UInt32} (ok : t.Ok (.read addr)) :
    ∃ t', Traced.step (some t) (.read addr) = some t' ∧ CacheInv t' := by
  obtain ⟨ticks, place, hits⟩ := ok
  have same (a : UInt32) : lastWrite (t.log ++ [.read addr]) a = lastWrite t.log a := lastWrite_snoc _ _ a
  cases look : t.cache.hit addr with
  | none =>
    obtain ⟨c', missed, ticked⟩ := cacheRead_miss ticks place look
    refine ⟨_, step_eq (by rw [cacheCall, missed]; rfl) rfl look, ?_⟩
    refine inv.idle ticked.geom (by rw [ticked.accesses]; exact Nat.le_succ _) (fun s => ?_) (fun s valid => ?_)
      fun s => ?_
    · rw [ticked.lines_eq]
    · rw [ticked.lines_eq] at valid ⊢
      exact ⟨valid, rfl⟩
    · rw [ticked.lines_eq]
      exact (inv.holds s).keep rfl (fun valid => ⟨valid, rfl⟩) same
  | some slot =>
    obtain ⟨p, place, lt, eq, found⟩ := hit_eq_some look
    have reaches : Reaches t.cache addr p := ⟨ticks, place, lt⟩
    obtain ⟨c', value, ticked⟩ := cacheRead_hit reaches found (by
      rw [place_off place]
      exact (hits slot look).1)
    have line := findWay_eq_some found
    have slot_eq : (p.set, slot.2) = slot := by rw [eq]
    rw [slot_eq] at ticked line
    refine ⟨_, step_eq (by rw [cacheCall, value]; rfl) rfl look, ?_⟩
    refine inv.put ticked rfl (inv.inside slot line.2.1) (fun w ne valid tag => ?_) ?_ fun s _ => ?_
    · exact ne (inv.once slot.1 w slot.2 valid line.2.1 tag)
    · exact (inv.holds slot).keep rfl (fun valid => ⟨valid, rfl⟩) same
    · exact (inv.holds s).keep rfl (fun valid => ⟨valid, rfl⟩) same

/-- A write that is `Ok` keeps the invariant. -/
theorem CacheInv.step_write (inv : CacheInv t) {addr : UInt32} {word : Word} (ok : t.Ok (.write addr word)) :
    ∃ t', Traced.step (some t) (.write addr word) = some t' ∧ CacheInv t' := by
  obtain ⟨ticks, isSome, fits, -⟩ := ok
  obtain ⟨p, place⟩ := Option.isSome_iff_exists.1 isSome
  by_cases lt : p.set < t.cache.geom.numSets
  · have reaches : Reaches t.cache addr p := ⟨ticks, place, lt⟩
    have room : p.off + 4 ≤ cacheLineSize := by
      rw [place_off place]
      exact fits p place lt
    cases found : t.cache.findWay p with
    | some w =>
      obtain ⟨data, copied, here, others⟩ := copyIn_eq_some (t.cache.lines (p.set, w)).data room word
      obtain ⟨c', value, ticked⟩ := cacheWrite_hit reaches found copied
      have line := findWay_eq_some found
      have look : t.cache.hit addr = some (p.set, w) := by
        simp only [Cache.hit, place, lt, if_true, found, Option.map_some]
      refine ⟨_, step_eq (by rw [cacheCall, value]; rfl) (by simp only [Traced.storedAfter, look]; rfl)
        (by simp only [Traced.used, look]; rfl), ?_⟩
      rw [place_off place] at here others
      refine inv.put ticked rfl (inv.inside _ line.2.1) (fun v ne valid tag => ?_) ?_ fun s ne => ?_
      · exact ne (inv.once p.set v w valid line.2.1 tag)
      · rw [Function.update_self]
        exact (inv.holds (p.set, w)).write here others (Or.inr ⟨rfl, line.2.1, rfl⟩)
      · rw [Function.update_of_ne ne]
        refine (inv.holds s).other place (fun valid set_eq tag => ?_) word
        obtain ⟨set, v⟩ := s
        obtain rfl : p.set = set := set_eq
        exact ne (by rw [inv.once p.set v w valid line.2.1 (tag.symm.trans line.2.2.symm)])
    | none =>
      obtain ⟨data, copied, here, others⟩ :=
        copyIn_eq_some (t.cache.lines (p.set, t.cache.victim p.set)).data room word
      obtain ⟨c', value, ticked⟩ := cacheWrite_miss reaches found copied
      have look : t.cache.hit addr = none := by
        simp only [Cache.hit, place, lt, if_true, found, Option.map_none]
      have replaced : t.cache.replaced addr = some (p.set, t.cache.victim p.set) := by
        simp only [Cache.replaced, place, lt, if_true, found]
      have apart (v : Nat) (valid : (t.cache.lines (p.set, v)).valid = true) :
          (t.cache.lines (p.set, v)).tag ≠ p.tag :=
        findWay_eq_none found (inv.inside _ valid).2 valid
      refine ⟨_, step_eq (by rw [cacheCall, value]; rfl)
        (by simp only [Traced.storedAfter, look, replaced]; rfl)
        (by simp only [Traced.used, look, replaced]; rfl), ?_⟩
      rw [place_off place] at here others
      refine inv.put ticked rfl ⟨lt, inv.victim_lt p.set⟩ (fun v _ valid => apart v valid) ?_ fun s ne => ?_
      · rw [Function.update_self]
        exact (inv.holds (p.set, t.cache.victim p.set)).write here others (Or.inl rfl)
      · rw [Function.update_of_ne ne]
        refine (inv.holds s).other place (fun valid set_eq tag => ?_) word
        obtain ⟨set, v⟩ := s
        obtain rfl : p.set = set := set_eq
        exact apart v valid tag.symm
  · obtain ⟨c', refused, ticked⟩ := cacheWrite_outside ticks place lt word
    have look : t.cache.hit addr = none := by simp only [Cache.hit, place, lt, if_false]
    have replaced : t.cache.replaced addr = none := by simp only [Cache.replaced, place, lt, if_false]
    refine ⟨_, step_eq (by rw [cacheCall, refused]; rfl)
      (by simp only [Traced.storedAfter, look, replaced]; rfl)
      (by simp only [Traced.used, look, replaced]; rfl), ?_⟩
    refine inv.idle ticked.geom (by rw [ticked.accesses]; exact Nat.le_succ _) (fun s => ?_) (fun s valid => ?_)
      fun s => ?_
    · rw [ticked.lines_eq]
    · rw [ticked.lines_eq] at valid ⊢
      exact ⟨valid, rfl⟩
    · rw [ticked.lines_eq]
      refine (inv.holds s).other place (fun valid set_eq => ?_) word
      exact absurd (set_eq ▸ (inv.inside s valid).1) lt

/-- Every call that is `Ok` keeps the invariant. -/
theorem CacheInv.step (inv : CacheInv t) (ok : t.Ok call) :
    ∃ t', Traced.step (some t) call = some t' ∧ CacheInv t' := by
  cases call with
  | read addr => exact inv.step_read ok
  | write addr word => exact inv.step_write ok
  | invalidate addr =>
    have same (a : UInt32) : lastWrite (t.log ++ [.invalidate addr]) a = lastWrite t.log a := lastWrite_snoc _ _ a
    obtain ⟨p, place⟩ := Option.isSome_iff_exists.1 ok
    by_cases lt : p.set < t.cache.geom.numSets
    · exact ⟨_, step_eq (by simp only [cacheCall, cacheInvalidate, place, Option.bind_eq_bind,
        Option.bind_some, ge_iff_le, Nat.not_le.2 lt, if_false]; rfl) rfl rfl, inv.clear _ same⟩
    · refine ⟨_, step_eq (by simp only [cacheCall, cacheInvalidate, place, Option.bind_eq_bind,
        Option.bind_some, ge_iff_le, Nat.not_lt.1 lt, if_true]; rfl) rfl rfl, ?_⟩
      refine inv.idle rfl le_rfl (fun _ => rfl) (fun _ valid => ⟨valid, rfl⟩) fun s => ?_
      exact (inv.holds s).keep rfl (fun valid => ⟨valid, rfl⟩) same
  | flush =>
    have same (a : UInt32) : lastWrite (t.log ++ [.flush]) a = lastWrite t.log a := lastWrite_snoc _ _ a
    exact ⟨_, step_eq rfl rfl rfl, inv.clear _ same⟩

/-- A step is a call of the cache, and is logged. -/
theorem step_trace {t' : Traced} (step : Traced.step (some t) call = some t') :
    cacheCall t.cache call = some t'.cache ∧ t'.log = t.log ++ [call] := by
  unfold Traced.step at step
  simp only [Option.bind_eq_bind, Option.bind_some, Option.bind_eq_some_iff, Option.some.injEq] at step
  obtain ⟨c, call_eq, rfl⟩ := step
  exact ⟨call_eq, rfl⟩

/-- Calls that are all `Ok` keep it, and the traced run is the run of the cache. -/
theorem CacheInv.run (inv : CacheInv t) {calls : List CacheCall}
    (guard : Guarded Traced.step Traced.StepOk (some t) calls) :
    ∃ t', run Traced.step (some t) calls = some t' ∧ calls.foldlM cacheCall t.cache = some t'.cache ∧
      t'.log = t.log ++ calls ∧ CacheInv t' := by
  induction calls generalizing t with
  | nil => exact ⟨t, rfl, rfl, (List.append_nil _).symm, inv⟩
  | cons call calls ih =>
    obtain ⟨t₁, step, inv₁⟩ := inv.step guard.1
    obtain ⟨call_eq, log⟩ := step_trace step
    have rest := guard.2
    rw [step] at rest
    obtain ⟨t', run, calls_eq, log', inv'⟩ := ih inv₁ rest
    refine ⟨t', ?_, ?_, ?_, inv'⟩
    · rw [run_cons, step, run]
    · rw [List.foldlM_cons, call_eq]
      exact calls_eq
    · rw [log', log, List.append_assoc]
      rfl

end Invariant

/-- Clamping keeps a positive bound positive. -/
theorem clamp_pos (top bound : Int) (pos : 0 < top) : 0 < clamp top bound := by
  unfold clamp
  dsimp only
  split <;> split <;> omega

/-- A new cache is in the invariant. -/
theorem start_inv (wp : WritePolicy) (sets ways lineSize : Int) :
    CacheInv (Traced.start (cacheCreate wp sets ways lineSize)) where
  ways := clamp_pos cacheMaxWays ways (by decide)
  inside _ valid := by cases valid
  once _ _ _ valid := by cases valid
  holds _ := ⟨fun _ _ found => by (cases found), fun valid => by cases valid⟩
  clocked := Clocked.start (fun _ => rfl) 0
  used _ valid := by cases valid

/-- In a run of calls that all meet the condition, every read of an aligned address that returns a
word returns the one last written to the address, and every write that replaces a line replaces an
invalid one, or the least recently used one if there is none. -/
theorem cache_run_correct (wp : WritePolicy) (sets ways lineSize : Int) (calls : List CacheCall)
    (guard : Guarded Traced.step Traced.StepOk
      (some (Traced.start (cacheCreate wp sets ways lineSize))) calls)
    (before : List CacheCall) (call : CacheCall) (rest : List CacheCall)
    (split : calls = before ++ call :: rest) :
    ∃ t, run Traced.step (some (Traced.start (cacheCreate wp sets ways lineSize))) before = some t ∧
      before.foldlM cacheCall (cacheCreate wp sets ways lineSize) = some t.cache ∧ t.log = before ∧
      t.Correct call := by
  rw [split, guarded_append] at guard
  obtain ⟨t, run, calls_eq, log, inv⟩ := (start_inv wp sets ways lineSize).run guard.1
  have ok := guard.2.1
  rw [run] at ok
  exact ⟨t, run, calls_eq, log, inv.correct ok⟩

/-- Two words of one line. -/
theorem cache_run_correct_line :
    ∃ t, run Traced.step (some (Traced.start (cacheCreate .writeBack 1 2 64)))
        [.write 4 #v[1, 2, 3, 4], .write 8 #v[5, 6, 7, 8]] = some t ∧
      [CacheCall.write 4 #v[1, 2, 3, 4], .write 8 #v[5, 6, 7, 8]].foldlM cacheCall
        (cacheCreate .writeBack 1 2 64) = some t.cache ∧
      t.log = [.write 4 #v[1, 2, 3, 4], .write 8 #v[5, 6, 7, 8]] ∧ t.Correct (.read 4) :=
  cache_run_correct .writeBack 1 2 64
    [.write 4 #v[1, 2, 3, 4], .write 8 #v[5, 6, 7, 8], .read 4] (by decide)
    [.write 4 #v[1, 2, 3, 4], .write 8 #v[5, 6, 7, 8]] (.read 4) [] rfl

/-- A read returns the word written to another address, which the line held before it was taken;
and a write replaces a valid line although the way of an invalidated one is free. -/
theorem cache_run_incorrect :
    (∃ t, run Traced.step (some (Traced.start (cacheCreate .writeBack 1 1 64)))
        [.write 4 #v[1, 2, 3, 4], .write 64 #v[5, 6, 7, 8]] = some t ∧ ¬ t.Correct (.read 68)) ∧
      ∃ t, run Traced.step (some (Traced.start (cacheCreate .writeBack 1 2 64)))
        [.write 0 #v[1, 2, 3, 4], .write 64 #v[5, 6, 7, 8], .invalidate 64] = some t ∧
        ¬ t.Correct (.write 128 #v[0, 0, 0, 0]) := by
  constructor
  · obtain ⟨t, run_eq⟩ := Option.isSome_iff_exists.1 (show (run Traced.step
      (some (Traced.start (cacheCreate .writeBack 1 1 64)))
        [.write 4 #v[1, 2, 3, 4], .write 64 #v[5, 6, 7, 8]]).isSome = true by decide)
    have facts : (run Traced.step (some (Traced.start (cacheCreate .writeBack 1 1 64)))
        [.write 4 #v[1, 2, 3, 4], .write 64 #v[5, 6, 7, 8]]).map
          (fun t => ((cacheRead t.cache 68).map (·.2), lastWrite t.log 68)) =
        some (some (some #v[1, 2, 3, 4]), none) := by decide
    rw [run_eq, Option.map_some, Option.some.injEq, Prod.mk.injEq] at facts
    obtain ⟨⟨c, out⟩, read, rfl⟩ := Option.map_eq_some_iff.1 facts.1
    refine ⟨t, run_eq, fun correct => ?_⟩
    rw [correct (by decide) c _ read] at facts
    cases facts.2
  · obtain ⟨t, run_eq⟩ := Option.isSome_iff_exists.1 (show (run Traced.step
      (some (Traced.start (cacheCreate .writeBack 1 2 64)))
        [.write 0 #v[1, 2, 3, 4], .write 64 #v[5, 6, 7, 8], .invalidate 64]).isSome = true by decide)
    have facts : (run Traced.step (some (Traced.start (cacheCreate .writeBack 1 2 64)))
        [.write 0 #v[1, 2, 3, 4], .write 64 #v[5, 6, 7, 8], .invalidate 64]).map
          (fun t => (t.cache.replaced 128, t.cache.geom.numWays, (t.cache.lines (0, 0)).valid,
            (t.cache.lines (0, 1)).valid)) = some (some (0, 1), 2, false, true) := by decide
    rw [run_eq] at facts
    simp only [Option.map_some, Option.some.injEq, Prod.mk.injEq] at facts
    obtain ⟨replaced, ways, free, taken⟩ := facts
    refine ⟨t, run_eq, fun correct => ?_⟩
    have invalid := (correct (0, 1) replaced).invalid ⟨0, by omega, free⟩
    rw [taken] at invalid
    cases invalid

end MiniHardware.Digital
