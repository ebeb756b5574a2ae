import Mathlib.Data.List.FinRange
import MiniHardware.Cpu.Cache

/-!
# The MESI bus (`mini-cpu-arch/src/cache.c`)

A core snoops the other caches before it accesses its own. A write snoop
changes the MESI state of the other copies, but not the valid bit that
`cache_lookup` asks for, and a read that misses takes the line as Exclusive
whoever else has it. So the caches stay coherent exactly in those runs in which
no core ever accesses a line that another cache still holds
(`mesiBus_coherent_iff`).
-/

namespace MiniHardware.Cpu
open Lib

/-- A bus of `n` caches; `num_cores` is `n`. -/
structure CoherenceBus (n : Nat) where
  caches : Fin n → Cache
  busCycles : UInt32
  snoopRequests : UInt64

/-- At most four cores are on the bus. -/
def mesiBusInit {numCores : Nat} (cores : Fin numCores → Cache) : CoherenceBus (min numCores 4) where
  caches i := cores (i.castLE (Nat.min_le_left numCores 4))
  busCycles := 0
  snoopRequests := 0

variable {n : Nat}

def CoherenceBus.setCache (bus : CoherenceBus n) (i : Fin n) (c : Cache) : CoherenceBus n :=
  { bus with caches := Function.update bus.caches i c }

def setMesi (c : Cache) (idx : Nat) (mesi : MESIState) : Cache :=
  c.setLine idx { c.lines idx with mesiState := mesi }

/-- A round of the loop of `mesi_bus_write_snoop`, with the number of invalidations. -/
def writeSnooped (c : Cache) (addr : UInt32) : Cache × Nat :=
  match cacheLookup c addr with
  | none => (c, 0)
  | some idx =>
    match (c.lines idx).mesiState with
    | .shared | .exclusive =>
      ({ setMesi c idx .invalid with stats.invalidations := c.stats.invalidations + 1 }, 1)
    | .modified =>
      ({ setMesi c idx .invalid with
          stats.writebacks := c.stats.writebacks + 1
          stats.invalidations := c.stats.invalidations + 1 }, 1)
    | .invalid => (c, 0)

/-- A round of the loop of `mesi_bus_read_snoop`, with whether it found modified data. -/
def readSnooped (c : Cache) (addr : UInt32) : Cache × Bool :=
  match cacheLookup c addr with
  | none => (c, false)
  | some idx =>
    match (c.lines idx).mesiState with
    | .modified => ({ setMesi c idx .shared with stats.writebacks := c.stats.writebacks + 1 }, true)
    | .exclusive => (setMesi c idx .shared, false)
    | .shared | .invalid => (c, false)

/-- The loop over the other caches; `join` collects what the rounds found. -/
def snoopOthers {R : Type} (snooped : Cache → Cache × R) (join : R → R → R) (zero : R)
    (bus : CoherenceBus n) (coreId : Fin n) : CoherenceBus n × R :=
  (List.finRange n).foldl
    (fun acc i =>
      if i = coreId then acc
      else
        let found := snooped (acc.1.caches i)
        (acc.1.setCache i found.1, join acc.2 found.2))
    (bus, zero)

def mesiBusWriteSnoop (bus : CoherenceBus n) (coreId : Fin n) (addr : UInt32) : CoherenceBus n × Nat :=
  let (bus, invCount) := snoopOthers (writeSnooped · addr) (· + ·) 0 bus coreId
  ({ bus with
      snoopRequests := bus.snoopRequests + 1
      busCycles := bus.busCycles + if invCount > 0 then 2 else 1 }, invCount)

def mesiBusReadSnoop (bus : CoherenceBus n) (coreId : Fin n) (addr : UInt32) : CoherenceBus n × Bool :=
  let (bus, foundModified) := snoopOthers (readSnooped · addr) (· || ·) false bus coreId
  ({ bus with snoopRequests := bus.snoopRequests + 1, busCycles := bus.busCycles + 1 }, foundModified)

/-! ## Accesses of the cores -/

/-- What a core does at an address. -/
inductive CoreOp where
  | read
  | write (value : UInt32)

/-- `rand` is what `rand()` would return, should a victim be chosen at random. -/
structure CoreAccess (n : Nat) where
  core : Fin n
  addr : UInt32
  op : CoreOp
  rand : Nat

/-- The snoop of an access. -/
def CoreAccess.snoop (a : CoreAccess n) (bus : CoherenceBus n) : CoherenceBus n :=
  match a.op with
  | .read => (mesiBusReadSnoop bus a.core a.addr).1
  | .write _ => (mesiBusWriteSnoop bus a.core a.addr).1

/-- The access of a core to its own cache. -/
def CoreAccess.own (a : CoreAccess n) (c : Cache) : Cache :=
  match a.op with
  | .read => cacheRead c a.addr a.rand
  | .write value => cacheWrite c a.addr value a.rand

def busStep (bus : CoherenceBus n) (a : CoreAccess n) : CoherenceBus n :=
  let bus := a.snoop bus
  bus.setCache a.core (a.own (bus.caches a.core))

/-! ## What a snoop does -/

/-- A snooped cache looks up as before, and is the same unless it hit. -/
structure Snooped (addr : UInt32) (c c' : Cache) : Prop where
  covers : ∀ idx a, c'.Covers idx a ↔ c.Covers idx a
  missed : cacheLookup c addr = none → c' = c

/-- A cache that is left alone is snooped. -/
theorem Snooped.refl (addr : UInt32) (c : Cache) : Snooped addr c c :=
  ⟨fun _ _ => Iff.rfl, fun _ => rfl⟩

/-- The state of a line is not looked up. -/
theorem covers_setMesi (c : Cache) (k : Nat) (mesi : MESIState) (stats : CacheStats) (idx : Nat)
    (a : UInt32) :
    Cache.Covers { setMesi c k mesi with stats := stats } idx a ↔ c.Covers idx a := by
  have geom : Cache.geom { setMesi c k mesi with stats := stats } = c.geom := rfl
  refine covers_congr geom ?_ ?_ a
  · show (Function.update c.lines k _ idx).valid = _
    rcases eq_or_ne idx k with rfl | ne
    · rw [Function.update_self]
    · rw [Function.update_of_ne ne]
  · show (Function.update c.lines k _ idx).tag = _
    rcases eq_or_ne idx k with rfl | ne
    · rw [Function.update_self]
    · rw [Function.update_of_ne ne]

/-- A cache snooped by a write looks up as before. -/
theorem snooped_write (c : Cache) (addr : UInt32) : Snooped addr c (writeSnooped c addr).1 := by
  unfold writeSnooped
  split
  · exact Snooped.refl addr c
  · rename_i idx hit
    have found : cacheLookup c addr ≠ none := by rw [hit]; exact Option.some_ne_none idx
    split
    · exact ⟨covers_setMesi c idx _ _, fun h => absurd h found⟩
    · exact ⟨covers_setMesi c idx _ _, fun h => absurd h found⟩
    · exact ⟨covers_setMesi c idx _ _, fun h => absurd h found⟩
    · exact Snooped.refl addr c

/-- A cache snooped by a read looks up as before. -/
theorem snooped_read (c : Cache) (addr : UInt32) : Snooped addr c (readSnooped c addr).1 := by
  unfold readSnooped
  split
  · exact Snooped.refl addr c
  · rename_i idx hit
    have found : cacheLookup c addr ≠ none := by rw [hit]; exact Option.some_ne_none idx
    split
    · exact ⟨covers_setMesi c idx _ _, fun h => absurd h found⟩
    · exact ⟨covers_setMesi c idx _ c.stats, fun h => absurd h found⟩
    · exact Snooped.refl addr c
    · exact Snooped.refl addr c

/-- After the snoop of `core` its own cache is the same and the others are snooped. -/
structure BusSnooped (core : Fin n) (addr : UInt32) (bus bus' : CoherenceBus n) : Prop where
  own : bus'.caches core = bus.caches core
  others : ∀ j, Snooped addr (bus.caches j) (bus'.caches j)

/-- The loop snoops the caches of the other cores. -/
theorem snoopOthers_snooped {R : Type} {snooped : Cache → Cache × R} (addr : UInt32)
    (one : ∀ c, Snooped addr c (snooped c).1) (join : R → R → R) (zero : R) (bus : CoherenceBus n)
    (core : Fin n) : BusSnooped core addr bus (snoopOthers snooped join zero bus core).1 := by
  unfold snoopOthers
  -- a round of the loop snoops one more cache, which no round before it has touched
  have loop := finRange_foldl_invariant
    (f := fun (acc : CoherenceBus n × R) i =>
      if i = core then acc
      else
        let found := snooped (acc.1.caches i)
        (acc.1.setCache i found.1, join acc.2 found.2))
    (motive := fun k acc => acc.1.caches core = bus.caches core ∧
      (∀ j, Snooped addr (bus.caches j) (acc.1.caches j)) ∧
      ∀ j : Fin n, k ≤ j.val → acc.1.caches j = bus.caches j)
    (s := (bus, zero)) ⟨rfl, fun j => Snooped.refl addr _, fun j _ => rfl⟩ ?_
  · exact ⟨loop.1, loop.2.1⟩
  · rintro i acc ⟨own, others, later⟩
    dsimp only
    split
    · exact ⟨own, others, fun j le => later j (by omega)⟩
    · rename_i ne
      refine ⟨?_, fun j => ?_, fun j le => ?_⟩
      · exact (Function.update_of_ne (Ne.symm ne) _ _).trans own
      · rcases eq_or_ne j i with rfl | other
        · show Snooped addr _ (Function.update acc.1.caches j _ j)
          rw [Function.update_self, later j le_rfl]
          exact one _
        · show Snooped addr _ (Function.update acc.1.caches i _ j)
          rw [Function.update_of_ne other]
          exact others j
      · have other : j ≠ i := by
          rintro rfl
          omega
        exact (Function.update_of_ne other _ _).trans (later j (by omega))

/-- The snoop of an access snoops the caches of the other cores. -/
theorem CoreAccess.snooped (a : CoreAccess n) (bus : CoherenceBus n) :
    BusSnooped a.core a.addr bus (a.snoop bus) := by
  unfold CoreAccess.snoop
  split
  · have h := snoopOthers_snooped a.addr (snooped_read · a.addr) (· || ·) false bus a.core
    exact ⟨h.own, h.others⟩
  · have h := snoopOthers_snooped a.addr (snooped_write · a.addr) (· + ·) 0 bus a.core
    exact ⟨h.own, h.others⟩

/-! ## Coherence -/

/-- A copy that was invalidated is not hit, and next to a copy in M or E no other cache has one. -/
structure BusCoherent (bus : CoherenceBus n) : Prop where
  gone : ∀ i addr idx, cacheLookup (bus.caches i) addr = some idx →
    ((bus.caches i).lines idx).mesiState ≠ .invalid
  sole : ∀ i addr idx, (bus.caches i).Covers idx addr →
    ((bus.caches i).lines idx).mesiState = .modified ∨ ((bus.caches i).lines idx).mesiState = .exclusive →
    ∀ j, j ≠ i → cacheLookup (bus.caches j) addr = none

/-- No other cache holds a copy of an address of the line that the core accesses. -/
def Unshared (bus : CoherenceBus n) (a : CoreAccess n) : Prop :=
  ∀ addr, (bus.caches a.core).SameLine a.addr addr →
    ∀ j, j ≠ a.core → cacheLookup (bus.caches j) addr = none

/-- A write-back allocate cache whose copies are Modified or Exclusive. -/
structure Owning (c : Cache) : Prop where
  ways : 0 < c.ways
  policy : c.writePolicy = .writeBackAlloc
  owned : ∀ idx, (c.lines idx).valid = true →
    (c.lines idx).mesiState = .modified ∨ (c.lines idx).mesiState = .exclusive

/-- Every copy is Modified or Exclusive, and no two caches have a copy of one address. -/
structure Partitioned (bus : CoherenceBus n) : Prop where
  owning : ∀ i, Owning (bus.caches i)
  alone : ∀ i j, i ≠ j → ∀ addr k, (bus.caches i).Covers k addr → cacheLookup (bus.caches j) addr = none

/-- Where no line is in two caches, the bus is coherent. -/
theorem Partitioned.coherent {bus : CoherenceBus n} (h : Partitioned bus) : BusCoherent bus where
  gone i addr idx hit := by
    rcases (h.owning i).owned idx (covers_of_lookup hit).2.1 with eq | eq <;> rw [eq] <;> decide
  sole i addr idx covers _ j ne := h.alone i j ne.symm addr idx covers

/-! ## One access -/

/-- A hit touches the core's own cache. -/
theorem CoreAccess.own_hit (a : CoreAccess n) {c : Cache} {idx : Nat}
    (hit : cacheLookup c a.addr = some idx) : Touched c (a.own c) := by
  unfold CoreAccess.own
  split
  · exact cacheRead_hit hit a.rand
  · exact cacheWrite_hit hit _ a.rand

/-- A miss fills the core's own cache. -/
theorem CoreAccess.own_miss (a : CoreAccess n) {c : Cache} (h : Owning c)
    (miss : cacheLookup c a.addr = none) : ∃ idx, Filled c (a.own c) a.addr idx := by
  unfold CoreAccess.own
  split
  · exact ⟨_, cacheRead_miss h.ways miss a.rand⟩
  · have policy : c.writePolicy ≠ .writeThroughNoAlloc := by
      rw [h.policy]
      decide
    exact ⟨_, cacheWrite_miss h.ways policy miss _ a.rand⟩

/-- A core's access keeps its cache one that owns its lines. -/
theorem Owning.own {c : Cache} (h : Owning c) (a : CoreAccess n) : Owning (a.own c) := by
  have pos := h.ways
  cases look : cacheLookup c a.addr with
  | some idx =>
    have touched := a.own_hit look
    refine ⟨?_, touched.writePolicy.trans h.policy, fun k valid => ?_⟩
    · unfold Cache.ways
      rw [touched.geom]
      exact pos
    · rcases touched.mesi k with same | modified
      · rw [same]
        exact h.owned k ((touched.valid k).symm.trans valid)
      · exact Or.inl modified
  | none =>
    obtain ⟨idx, filled⟩ := a.own_miss h look
    refine ⟨?_, filled.writePolicy.trans h.policy, fun k valid => ?_⟩
    · unfold Cache.ways
      rw [filled.geom]
      exact pos
    · rcases eq_or_ne k idx with rfl | ne
      · exact filled.mesi
      · rw [filled.others k ne] at valid ⊢
        exact h.owned k valid

/-- What a cache covers after an access, it covered before, or it is in the line accessed. -/
theorem Owning.covers_own {c : Cache} (h : Owning c) {a : CoreAccess n} {k : Nat} {addr : UInt32}
    (covers : (a.own c).Covers k addr) : c.Covers k addr ∨ c.SameLine a.addr addr := by
  cases look : cacheLookup c a.addr with
  | some idx => exact Or.inl (((a.own_hit look).covers_iff k addr).1 covers)
  | none =>
    obtain ⟨idx, filled⟩ := a.own_miss h look
    rcases eq_or_ne k idx with rfl | ne
    · exact Or.inr (filled.sameLine_of_covers covers)
    · exact Or.inl ((filled.covers_other ne addr).1 covers)

variable {bus : CoherenceBus n} {a : CoreAccess n}

/-- The core's cache after the snoop and the access. -/
theorem busStep_own : (busStep bus a).caches a.core = a.own (bus.caches a.core) := by
  show Function.update (a.snoop bus).caches a.core _ a.core = _
  rw [Function.update_self, (a.snooped bus).own]

/-- The other caches have been snooped. -/
theorem busStep_other {j : Fin n} (ne : j ≠ a.core) :
    Snooped a.addr (bus.caches j) ((busStep bus a).caches j) := by
  show Snooped a.addr _ (Function.update (a.snoop bus).caches a.core _ j)
  rw [Function.update_of_ne ne]
  exact (a.snooped bus).others j

/-- An access of a line nobody else holds, leaves the other caches as they are. -/
theorem Unshared.busStep_other (free : Unshared bus a) {j : Fin n} (ne : j ≠ a.core) :
    (busStep bus a).caches j = bus.caches j :=
  (Cpu.busStep_other ne).missed (free a.addr ⟨rfl, rfl⟩ j ne)

/-- An access to a line that no other core has keeps the partition. -/
theorem Partitioned.busStep (h : Partitioned bus) (free : Unshared bus a) :
    Partitioned (Cpu.busStep bus a) := by
  have alone_own {j : Fin n} (ne : j ≠ a.core) {addr : UInt32} {k : Nat}
      (covers : (a.own (bus.caches a.core)).Covers k addr) : cacheLookup (bus.caches j) addr = none := by
    rcases (h.owning a.core).covers_own covers with before | same
    · exact h.alone a.core j ne.symm addr k before
    · exact free addr same j ne
  refine ⟨fun i => ?_, fun i j ne addr k covers => ?_⟩
  · rcases eq_or_ne i a.core with rfl | other
    · rw [busStep_own]
      exact (h.owning a.core).own a
    · rw [free.busStep_other other]
      exact h.owning i
  · rcases eq_or_ne i a.core with rfl | other
    · rw [free.busStep_other ne.symm]
      rw [busStep_own] at covers
      exact alone_own ne.symm covers
    · rw [free.busStep_other other] at covers
      rcases eq_or_ne j a.core with rfl | other'
      · rw [busStep_own, lookup_eq_none]
        intro idx covers'
        exact lookup_eq_none.1 (alone_own ne covers') k covers
      · rw [free.busStep_other other']
        exact h.alone i j ne addr k covers

/-- An access of a line that another cache holds, fills it as Modified or Exclusive next to it. -/
theorem Partitioned.incoherent (h : Partitioned bus) (shared : ¬ Unshared bus a) :
    ¬ BusCoherent (Cpu.busStep bus a) := by
  intro coherent
  apply shared
  intro addr same j ne
  cases look : cacheLookup (bus.caches a.core) a.addr with
  | some idx => exact h.alone a.core j ne.symm addr idx ((covers_of_lookup look).congr same)
  | none =>
    obtain ⟨idx, filled⟩ := a.own_miss (h.owning a.core) look
    rw [← busStep_own] at filled
    have none := coherent.sole a.core addr idx (filled.covers same) filled.mesi j ne
    rw [lookup_eq_none] at none ⊢
    intro k covers
    exact none k (((busStep_other ne).covers k addr).2 covers)

/-! ## Runs -/

/-- All of the geometry are powers of two. -/
def CacheGeometry.PowerOfTwo (geom : CacheGeometry) : Prop :=
  ∃ l a s, geom.lineSize.toNat = 2 ^ l ∧ geom.associativity.toNat = 2 ^ a ∧ geom.numSets.toNat = 2 ^ s

/-- A fresh write-back allocate cache of an accepted power-of-two geometry. -/
structure CoreCache where
  cache : Cache
  geom : CacheGeometry
  policy : ReplacePolicy
  pow : geom.PowerOfTwo
  made : cacheInit geom policy .writeBackAlloc = some cache

/-- A new cache under write-back owns its lines, of which there are none. -/
theorem cacheInit_owning {c : Cache} {geom : CacheGeometry} {rp : ReplacePolicy}
    (made : cacheInit geom rp .writeBackAlloc = some c) :
    Owning c ∧ ∀ idx, (c.lines idx).valid = false := by
  obtain ⟨accepted, same, policy, -, invalid⟩ := cacheInit_some made
  refine ⟨⟨?_, policy, fun idx valid => ?_⟩, invalid⟩
  · have ne : geom.associativity ≠ 0 := fun eq => accepted.2.1 (Or.inl eq)
    unfold Cache.ways
    rw [same]
    exact Nat.pos_of_ne_zero fun eq => ne (UInt32.toNat_inj.1 eq)
  · exact absurd (valid.symm.trans (invalid idx)) (by decide)

/-- The bus of fresh caches. -/
def freshBus {numCores : Nat} (cores : Fin numCores → CoreCache) : CoherenceBus (min numCores 4) :=
  mesiBusInit fun i => (cores i).cache

/-- New caches have no line in common. -/
theorem freshBus_partitioned {numCores : Nat} (cores : Fin numCores → CoreCache) :
    Partitioned (freshBus cores) where
  owning i := (cacheInit_owning (cores _).made).1
  alone i j _ addr k covers := by
    have invalid := (cacheInit_owning (cores (i.castLE (Nat.min_le_left numCores 4))).made).2 k
    exact absurd (invalid.symm.trans covers.2.1) (by decide)

/-- The caches are coherent after every access of a run if and only if no core ever accesses a
line that another cache holds. -/
theorem mesiBus_coherent_iff {numCores : Nat} (cores : Fin numCores → CoreCache)
    (accesses : List (CoreAccess (min numCores 4))) :
    (∀ before rest, accesses = before ++ rest → BusCoherent (run busStep (freshBus cores) before)) ↔
      Guarded busStep Unshared (freshBus cores) accesses := by
  apply guarded_iff_prefixes Partitioned
  · exact fun _ h => h.coherent
  · exact fun _ _ h free => h.busStep free
  · exact fun _ _ h shared => h.incoherent shared
  · exact freshBus_partitioned cores

/-- A cache with two sets of two lines of 16 bytes. -/
def smallCache : CoreCache where
  cache := (cacheInit ⟨64, 16, 2, 2⟩ .lru .writeBackAlloc).get (by decide)
  geom := ⟨64, 16, 2, 2⟩
  policy := .lru
  pow := ⟨4, 1, 1, rfl, rfl, rfl⟩
  made := (Option.some_get _).symm

/-- A copy that a write of the other core invalidated is hit, and a read takes as Exclusive a line
that the other core has as Shared. -/
theorem mesiBus_incoherent :
    let bus : CoherenceBus 2 := freshBus fun _ : Fin 2 => smallCache
    ¬ BusCoherent (run busStep bus [⟨0, 0x40, .read, 0⟩, ⟨1, 0x40, .write 7, 0⟩]) ∧
      ¬ BusCoherent (run busStep bus [⟨0, 0x40, .read, 0⟩, ⟨1, 0x40, .read, 0⟩]) := by
  intro bus
  constructor
  · intro coherent
    exact coherent.gone 0 0x40 0 (by decide) (by decide)
  · intro coherent
    exact absurd (coherent.sole 1 0x40 0 (covers_of_lookup (by decide)) (by decide) 0 (by decide)) (by decide)

end MiniHardware.Cpu
