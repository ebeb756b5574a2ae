import Mathlib.Algebra.GroupWithZero.Nat
import Mathlib.Logic.Function.Basic
import MiniHardware.Lib.Trace

/-!
# A cache of the processor (`mini-cpu-arch/src/cache.c`)

The lines stand in one array, those of a set next to each other. `cache_init`
bounds the geometry, so that the products of set, way and associativity below
stay under 2^14. A line has a valid bit, which the lookup asks for, and a MESI
state, which it does not.
-/

namespace MiniHardware.Cpu
open Lib

/-- `CACHE_MAX_WAYS`. -/
abbrev cacheMaxWays : UInt32 := 16

/-- `CACHE_MAX_SETS`. -/
abbrev cacheMaxSets : UInt32 := 1024

/-- `CACHE_LINE_SIZE_MAX`. -/
abbrev cacheLineSizeMax : UInt32 := 256

structure CacheGeometry where
  sizeBytes : UInt32
  lineSize : UInt32
  associativity : UInt32
  numSets : UInt32

inductive ReplacePolicy where
  | lru | fifo | random | plru
deriving DecidableEq

inductive WritePolicy where
  | writeThroughNoAlloc | writeThroughAlloc | writeBackAlloc
deriving DecidableEq

inductive MESIState where
  | modified | exclusive | shared | invalid
deriving DecidableEq

structure CacheLine where
  valid : Bool
  dirty : Bool
  tag : UInt32
  accessOrder : UInt32
  mesiState : MESIState

structure CacheStats where
  accesses : UInt64
  hits : UInt64
  misses : UInt64
  reads : UInt64
  writes : UInt64
  writebacks : UInt64
  invalidations : UInt64

/-- `plruBits` is `none` where the pointer is `NULL`. -/
structure Cache where
  geom : CacheGeometry
  lines : Nat → CacheLine
  replacePolicy : ReplacePolicy
  writePolicy : WritePolicy
  stats : CacheStats
  clock : UInt32
  plruBits : Option (Nat → UInt32)

/-- The set index, the tag and the offset of an address. -/
def cacheAddrSplit (addr lineSize numSets : UInt32) : UInt32 × UInt32 × UInt32 :=
  let offsetBits := UInt32.ofNat (Nat.log2 lineSize.toNat)
  let setBits := UInt32.ofNat (Nat.log2 numSets.toNat)
  ((addr >>> offsetBits) &&& (numSets - 1), addr >>> (offsetBits + setBits), addr &&& (lineSize - 1))

/-- The checks of `cache_init`. -/
def CacheGeometry.Accepted (geom : CacheGeometry) : Prop :=
  ¬ (geom.lineSize < 4 ∨ geom.lineSize > cacheLineSizeMax) ∧
    ¬ (geom.associativity = 0 ∨ geom.associativity > cacheMaxWays) ∧
    ¬ (geom.numSets = 0 ∨ geom.numSets > cacheMaxSets) ∧
    geom.sizeBytes = geom.lineSize * geom.associativity * geom.numSets

instance acceptedGeometry (geom : CacheGeometry) : Decidable geom.Accepted :=
  inferInstanceAs (Decidable (_ ∧ _ ∧ _ ∧ _))

/-- The bounds of an accepted geometry, over numbers. -/
theorem CacheGeometry.Accepted.bounds {geom : CacheGeometry} (h : geom.Accepted) :
    (4 ≤ geom.lineSize.toNat ∧ geom.lineSize.toNat ≤ 256) ∧
      (0 < geom.associativity.toNat ∧ geom.associativity.toNat ≤ 16) ∧
      0 < geom.numSets.toNat ∧ geom.numSets.toNat ≤ 1024 := by
  obtain ⟨line, ways, sets, -⟩ := h
  simp only [not_or, UInt32.not_lt, gt_iff_lt, UInt32.le_iff_toNat_le, ← UInt32.toNat_inj] at line ways sets
  have zero : (0 : UInt32).toNat = 0 := rfl
  have four : (4 : UInt32).toNat = 4 := rfl
  have lineMax : cacheLineSizeMax.toNat = 256 := rfl
  have waysMax : cacheMaxWays.toNat = 16 := rfl
  have setsMax : cacheMaxSets.toNat = 1024 := rfl
  omega

/-- `cache_init`; a failure is `none`. -/
def cacheInit (geom : CacheGeometry) (rp : ReplacePolicy) (wp : WritePolicy) : Option Cache :=
  if geom.Accepted then
    some
      { geom := geom
        lines := fun _ => ⟨false, false, 0, 0, .invalid⟩
        replacePolicy := rp
        writePolicy := wp
        stats := ⟨0, 0, 0, 0, 0, 0, 0⟩
        clock := 0
        plruBits := if rp = .plru then some fun _ => 0 else none }
  else none

/-- A cache that was made has an accepted geometry and no valid line. -/
theorem cacheInit_some {geom : CacheGeometry} {rp : ReplacePolicy} {wp : WritePolicy} {c : Cache}
    (made : cacheInit geom rp wp = some c) :
    geom.Accepted ∧ c.geom = geom ∧ c.writePolicy = wp ∧ c.plruBits.isSome = decide (rp = .plru) ∧
      ∀ idx, (c.lines idx).valid = false := by
  unfold cacheInit at made
  split at made
  · rename_i accepted
    cases made
    refine ⟨accepted, rfl, rfl, ?_, fun _ => rfl⟩
    cases rp <;> rfl
  · cases made

namespace Cache

def ways (c : Cache) : Nat := c.geom.associativity.toNat

/-- The set index of an address. -/
def setOf (c : Cache) (addr : UInt32) : Nat :=
  (cacheAddrSplit addr c.geom.lineSize c.geom.numSets).1.toNat

/-- The tag of an address. -/
def tagOf (c : Cache) (addr : UInt32) : UInt32 :=
  (cacheAddrSplit addr c.geom.lineSize c.geom.numSets).2.1

def setLine (c : Cache) (idx : Nat) (line : CacheLine) : Cache :=
  { c with lines := Function.update c.lines idx line }

end Cache

/-- `cache_lookup`; `-1` is `none`. -/
def cacheLookup (c : Cache) (addr : UInt32) : Option Nat :=
  ((List.range c.ways).map fun w => c.setOf addr * c.ways + w).find? fun idx =>
    (c.lines idx).valid && decide ((c.lines idx).tag = c.tagOf addr)

/-! ## Replacement -/

/-- The loop of `plru_update`. -/
def plruPoint (bits : Nat → UInt32) (base way rs re node : Nat) : Nat → UInt32 :=
  if 1 < re - rs then
    let mid := (rs + re) / 2
    if way < mid then plruPoint (Function.update bits (base + node) 1) base way rs mid (2 * node + 1)
    else plruPoint (Function.update bits (base + node) 0) base way mid re (2 * node + 2)
  else bits
termination_by re - rs

def plruUpdate (c : Cache) (setIndex way : Nat) : Cache :=
  if c.ways ≤ 1 then c
  else
    { c with
      plruBits := c.plruBits.map fun bits =>
        plruPoint bits (setIndex * (c.ways - 1)) way 0 c.ways 0 }

/-- The loop of the PLRU branch of `find_victim`. -/
def plruVictim (bits : Nat → UInt32) (base rs re node : Nat) : Nat :=
  if 1 < re - rs then
    let mid := (rs + re) / 2
    if bits (base + node) = 0 then plruVictim bits base rs mid (2 * node + 1)
    else plruVictim bits base mid re (2 * node + 2)
  else rs
termination_by re - rs

/-- The loop of the LRU and FIFO branches: the least `access_order` so far, and its way. -/
def leastOrderStep (order : Nat → UInt32) (best : UInt32 × Nat) (w : Nat) : UInt32 × Nat :=
  if order w < best.1 then (order w, w) else best

/-- `rand` is what `rand()` would return. -/
def findVictim (c : Cache) (setIndex rand : Nat) : Nat :=
  let base := setIndex * c.ways
  match (List.range c.ways).find? fun w => !(c.lines (base + w)).valid with
  | some w => w
  | none =>
    match c.replacePolicy with
    | .random => rand % c.ways
    | .fifo | .lru =>
      ((List.range c.ways).foldl (leastOrderStep fun w => (c.lines (base + w)).accessOrder) (0xFFFFFFFF, 0)).2
    | .plru =>
      match c.plruBits with
      | none => 0
      | some bits =>
        let rs := plruVictim bits (setIndex * (c.ways - 1)) 0 c.ways 0
        if rs < c.ways then rs else 0

section Plru

/-! A set has `associativity - 1` PLRU bits. Where the associativity is a power of two, the walks
from the root halve the ways down to one, and node `k` stands for `re - rs` of them only while
`(k + 2) * (re - rs)` is at most twice the associativity; so they stay among these bits. -/

variable {assoc base rs re node k : Nat} {bits : Nat → UInt32}

/-- The children of a node of the tree are in the array. -/
theorem plru_children (inside : (node + 2) * 2 ^ (k + 1) ≤ 2 * assoc) :
    node < assoc - 1 ∧ (2 * node + 1 + 2) * 2 ^ k ≤ 2 * assoc ∧ (2 * node + 2 + 2) * 2 ^ k ≤ 2 * assoc := by
  have twice : (node + 2) * 2 ^ (k + 1) = (2 * node + 2 + 2) * 2 ^ k := by
    rw [Nat.pow_succ', ← Nat.mul_assoc, Nat.mul_comm _ 2]
    rfl
  have two : (2 * node + 2 + 2) * 1 ≤ (2 * node + 2 + 2) * 2 ^ k :=
    Nat.mul_le_mul_left _ (Nat.two_pow_pos k)
  have left : (2 * node + 1 + 2) * 2 ^ k ≤ (2 * node + 2 + 2) * 2 ^ k :=
    Nat.mul_le_mul_right _ (by omega)
  omega

end Plru

/-! ## Accesses -/

/-- The end of a miss that allocates. -/
def cacheFill (c : Cache) (addr : UInt32) (rand : Nat) (dirty : Bool) (mesi : MESIState) : Cache :=
  let si := c.setOf addr
  let vw := findVictim c si rand
  let vl := c.lines (si * c.ways + vw)
  let c :=
    if vl.valid && vl.dirty then { c with stats.writebacks := c.stats.writebacks + 1 } else c
  plruUpdate (c.setLine (si * c.ways + vw) ⟨true, dirty, c.tagOf addr, c.clock, mesi⟩) si vw

def cacheRead (c : Cache) (addr : UInt32) (rand : Nat) : Cache :=
  let c :=
    { c with
      stats.accesses := c.stats.accesses + 1
      stats.reads := c.stats.reads + 1
      clock := c.clock + 1 }
  match cacheLookup c addr with
  | some idx =>
    let c := { c with stats.hits := c.stats.hits + 1 }
    let c := c.setLine idx { c.lines idx with accessOrder := c.clock }
    plruUpdate c (c.setOf addr) (idx % c.ways)
  | none =>
    let c := { c with stats.misses := c.stats.misses + 1 }
    cacheFill c addr rand false .exclusive

/-- The `value` is not kept. -/
def cacheWrite (c : Cache) (addr _value : UInt32) (rand : Nat) : Cache :=
  let c :=
    { c with
      stats.accesses := c.stats.accesses + 1
      stats.writes := c.stats.writes + 1
      clock := c.clock + 1 }
  match cacheLookup c addr with
  | some idx =>
    let c := { c with stats.hits := c.stats.hits + 1 }
    let line := c.lines idx
    let line :=
      match c.writePolicy with
      | .writeBackAlloc => { line with dirty := true, mesiState := .modified }
      | .writeThroughAlloc | .writeThroughNoAlloc => { line with mesiState := .modified }
    c.setLine idx { line with accessOrder := c.clock }
  | none =>
    let c := { c with stats.misses := c.stats.misses + 1 }
    match c.writePolicy with
    | .writeBackAlloc => cacheFill c addr rand true .modified
    | .writeThroughAlloc => cacheFill c addr rand false .modified
    | .writeThroughNoAlloc => c

/-! ## Lookup -/

namespace Cache

/-- Line `idx` is a valid copy of the line of the address. -/
def Covers (c : Cache) (idx : Nat) (addr : UInt32) : Prop :=
  (∃ w < c.ways, idx = c.setOf addr * c.ways + w) ∧
    (c.lines idx).valid = true ∧ (c.lines idx).tag = c.tagOf addr

/-- The two addresses are in one line. -/
def SameLine (c : Cache) (a b : UInt32) : Prop := c.setOf a = c.setOf b ∧ c.tagOf a = c.tagOf b

/-- A line covers all addresses of its line. -/
theorem Covers.congr {c : Cache} {idx : Nat} {a b : UInt32} (h : c.Covers idx a)
    (same : c.SameLine a b) : c.Covers idx b := by
  unfold Covers
  rw [← same.1, ← same.2]
  exact h

/-- What one slot covers is in one line. -/
theorem Covers.sameLine {c : Cache} {idx : Nat} {a b : UInt32} (ha : c.Covers idx a)
    (hb : c.Covers idx b) : c.SameLine a b := by
  obtain ⟨⟨v, v_lt, eq⟩, -, tag⟩ := ha
  obtain ⟨⟨w, w_lt, eq'⟩, -, tag'⟩ := hb
  have pos : 0 < c.ways := Nat.zero_lt_of_lt v_lt
  refine ⟨?_, tag.symm.trans tag'⟩
  calc c.setOf a = idx / c.ways := by
        rw [eq, Nat.add_comm, Nat.add_mul_div_right _ _ pos, Nat.div_eq_of_lt v_lt, Nat.zero_add]
    _ = c.setOf b := by
        rw [eq', Nat.add_comm, Nat.add_mul_div_right _ _ pos, Nat.div_eq_of_lt w_lt, Nat.zero_add]

end Cache

variable {c : Cache} {addr : UInt32}

/-- The line that a lookup finds covers the address. -/
theorem covers_of_lookup {idx : Nat} (h : cacheLookup c addr = some idx) : c.Covers idx addr := by
  have found := List.find?_some h
  rw [Bool.and_eq_true, decide_eq_true_eq] at found
  obtain ⟨w, mem, eq⟩ := List.mem_map.1 (List.mem_of_find?_eq_some h)
  exact ⟨⟨w, List.mem_range.1 mem, eq.symm⟩, found⟩

/-- The lookup fails where no line covers the address. -/
theorem lookup_eq_none : cacheLookup c addr = none ↔ ∀ idx, ¬ c.Covers idx addr := by
  constructor
  · rintro none idx ⟨⟨w, lt, rfl⟩, found⟩
    have miss := List.find?_eq_none.1 none _ (List.mem_map_of_mem (List.mem_range.2 lt))
    rw [Bool.and_eq_true, decide_eq_true_eq] at miss
    exact miss found
  · intro none
    rw [Option.eq_none_iff_forall_ne_some]
    intro idx found
    exact none idx (covers_of_lookup found)

/-- Caches of one geometry with the same valid lines look up alike. -/
theorem covers_congr {c c' : Cache} (geom : c'.geom = c.geom) {idx : Nat}
    (valid : (c'.lines idx).valid = (c.lines idx).valid) (tag : (c'.lines idx).tag = (c.lines idx).tag)
    (addr : UInt32) : c'.Covers idx addr ↔ c.Covers idx addr := by
  unfold Cache.Covers Cache.setOf Cache.tagOf Cache.ways
  rw [geom, valid, tag]

/-! ## What an access does -/

/-- Updating the PLRU bits leaves the geometry. -/
@[simp] theorem plruUpdate_geom (c : Cache) (s w : Nat) : (plruUpdate c s w).geom = c.geom := by
  unfold plruUpdate
  split <;> rfl

/-- Updating the PLRU bits leaves the lines. -/
@[simp] theorem plruUpdate_lines (c : Cache) (s w : Nat) : (plruUpdate c s w).lines = c.lines := by
  unfold plruUpdate
  split <;> rfl

@[simp] theorem plruUpdate_writePolicy (c : Cache) (s w : Nat) :
    (plruUpdate c s w).writePolicy = c.writePolicy := by
  unfold plruUpdate
  split <;> rfl

/-- The victim is one of the ways. -/
theorem findVictim_lt (pos : 0 < c.ways) (s rand : Nat) : findVictim c s rand < c.ways := by
  unfold findVictim
  dsimp only
  split
  · rename_i w found
    exact List.mem_range.1 (List.mem_of_find?_eq_some found)
  · have oldest (order : Nat → UInt32) :
        ((List.range c.ways).foldl (leastOrderStep order) (0xFFFFFFFF, 0)).2 < c.ways := by
      refine List.foldlRecOn (motive := fun best : UInt32 × Nat => best.2 < c.ways) _ _ pos ?_
      intro best lt w mem
      unfold leastOrderStep
      split
      · exact List.mem_range.1 mem
      · exact lt
    split
    · exact Nat.mod_lt _ pos
    · apply oldest
    · apply oldest
    · split
      · exact pos
      · split
        · assumption
        · exact pos

/-- An access that hit: the same lines are valid, with the same tags, and a MESI state that
changed is Modified now. -/
structure Touched (c c' : Cache) : Prop where
  geom : c'.geom = c.geom
  writePolicy : c'.writePolicy = c.writePolicy
  valid : ∀ k, (c'.lines k).valid = (c.lines k).valid
  tag : ∀ k, (c'.lines k).tag = (c.lines k).tag
  mesi : ∀ k, (c'.lines k).mesiState = (c.lines k).mesiState ∨ (c'.lines k).mesiState = .modified

/-- A miss that took slot `idx` for the line of `addr`. -/
structure Filled (c c' : Cache) (addr : UInt32) (idx : Nat) : Prop where
  geom : c'.geom = c.geom
  writePolicy : c'.writePolicy = c.writePolicy
  slot : ∃ w < c.ways, idx = c.setOf addr * c.ways + w
  others : ∀ k, k ≠ idx → c'.lines k = c.lines k
  valid : (c'.lines idx).valid = true
  tag : (c'.lines idx).tag = c.tagOf addr
  mesi : (c'.lines idx).mesiState = .modified ∨ (c'.lines idx).mesiState = .exclusive

namespace Touched

variable {c' : Cache}

theorem of_setLine {k : Nat} {line : CacheLine} (geom : c'.geom = c.geom)
    (policy : c'.writePolicy = c.writePolicy) (lines : c'.lines = Function.update c.lines k line)
    (valid : line.valid = (c.lines k).valid) (tag : line.tag = (c.lines k).tag)
    (mesi : line.mesiState = (c.lines k).mesiState ∨ line.mesiState = .modified) : Touched c c' := by
  refine ⟨geom, policy, fun j => ?_, fun j => ?_, fun j => ?_⟩ <;> rw [lines]
  all_goals rcases eq_or_ne j k with rfl | ne
  · rw [Function.update_self, valid]
  · rw [Function.update_of_ne ne]
  · rw [Function.update_self, tag]
  · rw [Function.update_of_ne ne]
  · rw [Function.update_self]
    exact mesi
  · rw [Function.update_of_ne ne]
    exact Or.inl rfl

/-- A touched cache covers what it did. -/
theorem covers_iff (h : Touched c c') (idx : Nat) (addr : UInt32) :
    c'.Covers idx addr ↔ c.Covers idx addr :=
  covers_congr h.geom (h.valid idx) (h.tag idx) addr

end Touched

namespace Filled

variable {c' : Cache} {idx : Nat}

/-- The slot covers the line of the address, and only this. -/
theorem covers (h : Filled c c' addr idx) {a : UInt32} (same : c.SameLine addr a) : c'.Covers idx a := by
  unfold Cache.Covers Cache.setOf Cache.tagOf Cache.ways
  rw [h.geom]
  obtain ⟨w, lt, eq⟩ := h.slot
  exact ⟨⟨w, lt, eq.trans (by rw [same.1]; rfl)⟩, h.valid, h.tag.trans same.2⟩

/-- The line that was filled covers the line of the address. -/
theorem sameLine_of_covers (h : Filled c c' addr idx) {a : UInt32} (covers : c'.Covers idx a) :
    c.SameLine addr a := by
  have same : c'.SameLine addr a := (h.covers ⟨rfl, rfl⟩).sameLine covers
  unfold Cache.SameLine Cache.setOf Cache.tagOf at same ⊢
  rw [h.geom] at same
  exact same

/-- The other lines cover what they did. -/
theorem covers_other (h : Filled c c' addr idx) {k : Nat} (ne : k ≠ idx) (a : UInt32) :
    c'.Covers k a ↔ c.Covers k a :=
  covers_congr h.geom (by rw [h.others k ne]) (by rw [h.others k ne]) a

end Filled

/-- The slot that a miss on the address fills. -/
def Cache.victimIdx (c : Cache) (addr : UInt32) (rand : Nat) : Nat :=
  c.setOf addr * c.ways + findVictim c (c.setOf addr) rand

/-- A fill takes a slot of the address's set. -/
theorem cacheFill_filled (pos : 0 < c.ways) (addr : UInt32) (rand : Nat) (dirty : Bool)
    {mesi : MESIState} (owned : mesi = .modified ∨ mesi = .exclusive) :
    Filled c (cacheFill c addr rand dirty mesi) addr (c.victimIdx addr rand) := by
  have lines : (cacheFill c addr rand dirty mesi).lines =
      Function.update c.lines (c.setOf addr * c.ways + findVictim c (c.setOf addr) rand)
        ⟨true, dirty, c.tagOf addr, c.clock, mesi⟩ := by
    unfold cacheFill
    dsimp only
    rw [plruUpdate_lines]
    split <;> rfl
  unfold Cache.victimIdx
  refine
    { geom := ?_
      writePolicy := ?_
      slot := ⟨_, findVictim_lt pos _ _, rfl⟩
      others := fun k ne => by rw [lines, Function.update_of_ne ne]
      valid := by rw [lines, Function.update_self]
      tag := by rw [lines, Function.update_self]
      mesi := by rw [lines, Function.update_self]; exact owned }
  · unfold cacheFill
    dsimp only
    rw [plruUpdate_geom]
    split <;> rfl
  · unfold cacheFill
    dsimp only
    rw [plruUpdate_writePolicy]
    split <;> rfl

/-- A read hit touches. -/
theorem cacheRead_hit {idx : Nat} (hit : cacheLookup c addr = some idx) (rand : Nat) :
    Touched c (cacheRead c addr rand) := by
  unfold cacheRead
  dsimp only
  split
  · rename_i idx' _
    exact Touched.of_setLine (k := idx') (plruUpdate_geom _ _ _) (plruUpdate_writePolicy _ _ _)
      (plruUpdate_lines _ _ _) rfl rfl (Or.inl rfl)
  · rename_i miss
    exact absurd (hit.symm.trans miss) (Option.some_ne_none idx)

/-- A read miss fills the victim. -/
theorem cacheRead_miss (pos : 0 < c.ways) (miss : cacheLookup c addr = none) (rand : Nat) :
    Filled c (cacheRead c addr rand) addr (c.victimIdx addr rand) := by
  unfold cacheRead
  dsimp only
  split
  · rename_i idx hit
    exact absurd (hit.symm.trans miss) (Option.some_ne_none idx)
  · have filled := cacheFill_filled (c := { c with
      stats.accesses := c.stats.accesses + 1, stats.reads := c.stats.reads + 1
      stats.misses := c.stats.misses + 1, clock := c.clock + 1 }) pos addr rand false (Or.inr rfl)
    exact ⟨filled.geom, filled.writePolicy, filled.slot, filled.others, filled.valid, filled.tag, filled.mesi⟩

/-- A write hit touches. -/
theorem cacheWrite_hit {idx : Nat} (hit : cacheLookup c addr = some idx) (value : UInt32) (rand : Nat) :
    Touched c (cacheWrite c addr value rand) := by
  unfold cacheWrite
  dsimp only
  split
  · rename_i idx' _
    exact Touched.of_setLine (k := idx') rfl rfl rfl (by split <;> rfl) (by split <;> rfl)
      (Or.inr (by split <;> rfl))
  · rename_i miss
    exact absurd (hit.symm.trans miss) (Option.some_ne_none idx)

/-- A write miss that allocates fills the victim. -/
theorem cacheWrite_miss (pos : 0 < c.ways) (policy : c.writePolicy ≠ .writeThroughNoAlloc)
    (miss : cacheLookup c addr = none) (value : UInt32) (rand : Nat) :
    Filled c (cacheWrite c addr value rand) addr (c.victimIdx addr rand) := by
  have fill (dirty : Bool) := cacheFill_filled (c := { c with
    stats.accesses := c.stats.accesses + 1, stats.writes := c.stats.writes + 1
    stats.misses := c.stats.misses + 1, clock := c.clock + 1 }) pos addr rand dirty (Or.inl rfl)
  unfold cacheWrite
  dsimp only
  split
  · rename_i idx hit
    exact absurd (hit.symm.trans miss) (Option.some_ne_none idx)
  split
  · have filled := fill true
    exact ⟨filled.geom, filled.writePolicy, filled.slot, filled.others, filled.valid, filled.tag, filled.mesi⟩
  · have filled := fill false
    exact ⟨filled.geom, filled.writePolicy, filled.slot, filled.others, filled.valid, filled.tag, filled.mesi⟩
  · rename_i no
    exact absurd no policy

/-- A write that misses and does not allocate leaves the lines. -/
theorem cacheWrite_bypass (policy : c.writePolicy = .writeThroughNoAlloc) (miss : cacheLookup c addr = none)
    (value : UInt32) (rand : Nat) : Touched c (cacheWrite c addr value rand) := by
  unfold cacheWrite
  dsimp only
  split
  · rename_i idx hit
    exact absurd (hit.symm.trans miss) (Option.some_ne_none idx)
  split
  · rename_i eq
    exact absurd (eq.symm.trans policy) (by decide)
  · rename_i eq
    exact absurd (eq.symm.trans policy) (by decide)
  · exact ⟨rfl, rfl, fun _ => rfl, fun _ => rfl, fun _ => .inl rfl⟩

end MiniHardware.Cpu
