import MiniHardware.Lib.Lru
import MiniHardware.Lib.Trace

/-!
# The simulated cache (`lake_test_mini/src/cache_bench.c`)

Each way has the time of its last access, and a miss takes the first invalid
way, or the one with the least time. A cache with one set is an LRU store, and
counts the misses of one.
-/

namespace MiniHardware.Bench
open Lib

inductive CacheAccessType where
  | read | write
deriving DecidableEq

/-- What the four arrays of a set hold at a way. -/
structure SimWay where
  tag : UInt64
  accessTimestamp : UInt64
  valid : Bool
  dirty : Bool

structure SimCache where
  /-- Of the ways of each set, the first `assoc` are there. -/
  sets : Nat → Nat → SimWay
  numSets : UInt32
  assoc : UInt32
  lineSize : UInt32
  totalSize : UInt64
  globalTime : UInt64
  totalAccesses : UInt64
  totalHits : UInt64
  totalMisses : UInt64
  totalEvictions : UInt64
  totalWritebacks : UInt64
  writeBack : Bool

/-- `none` is the division by zero of a product that is zero in 32 bits. -/
def simCacheInit (totalSize lineSize associativity : UInt32) (writeBack : Bool) : Option SimCache :=
  if lineSize * associativity = 0 then none
  else
    let numSets := totalSize / (lineSize * associativity)
    some
      { sets := fun _ _ => ⟨0, 0, false, false⟩
        numSets := if numSets = 0 then 1 else numSets
        assoc := associativity
        lineSize := lineSize
        totalSize := totalSize.toUInt64
        globalTime := 0
        totalAccesses := 0
        totalHits := 0
        totalMisses := 0
        totalEvictions := 0
        totalWritebacks := 0
        writeBack := writeBack }

/-- The first way that is valid and has the tag. -/
def findHit (ways : Nat → SimWay) (assoc : UInt32) (tag : UInt64) : Option Nat :=
  (List.range assoc.toNat).find? fun i => (ways i).valid && (ways i).tag == tag

/-- The loop over the ways for the victim: the way, and whether it is invalid. -/
def scanVictim (ways : Nat → SimWay) (victim : Nat) (oldest : UInt64) : List Nat → Nat × Bool
  | [] => (victim, false)
  | i :: is =>
    if ¬(ways i).valid then (i, true)
    else if (ways i).accessTimestamp < oldest then scanVictim ways i (ways i).accessTimestamp is
    else scanVictim ways victim oldest is

def findVictim (ways : Nat → SimWay) (assoc : UInt32) : Nat × Bool :=
  scanVictim ways 0 0xFFFFFFFFFFFFFFFF (List.range assoc.toNat)

def SimCache.setWay (cache : SimCache) (s i : Nat) (way : SimWay) : SimCache :=
  { cache with sets := Function.update cache.sets s (Function.update (cache.sets s) i way) }

/-- A hit, or not, and the cache after the access; `none` is a division by zero. -/
def simCacheAccess (cache : SimCache) (address : UInt64) (type : CacheAccessType) : Option (Bool × SimCache) :=
  if cache.lineSize * cache.numSets = 0 then none
  else
    let tag := address / (cache.lineSize * cache.numSets).toUInt64
    let setIdx := (address / cache.lineSize.toUInt64 % cache.numSets.toUInt64).toNat
    let ways := cache.sets setIdx
    match findHit ways cache.assoc tag with
    | some i =>
      let way : SimWay :=
        { ways i with
          accessTimestamp := cache.globalTime + 1
          dirty := decide (type = .write) || (ways i).dirty }
      some (true, { cache.setWay setIdx i way with
        globalTime := cache.globalTime + 1
        totalAccesses := cache.totalAccesses + 1
        totalHits := cache.totalHits + 1 })
    | none =>
      let (victim, foundInvalid) := findVictim ways cache.assoc
      let writesBack := !foundInvalid && (ways victim).valid && (ways victim).dirty
      some (false, { cache.setWay setIdx victim ⟨tag, cache.globalTime + 1, true, decide (type = .write)⟩ with
        globalTime := cache.globalTime + 1
        totalAccesses := cache.totalAccesses + 1
        totalMisses := cache.totalMisses + 1
        totalEvictions := if foundInvalid then cache.totalEvictions else cache.totalEvictions + 1
        totalWritebacks := if writesBack then cache.totalWritebacks + 1 else cache.totalWritebacks })

def simCacheRun (cache : SimCache) (accesses : List (UInt64 × CacheAccessType)) : Option SimCache :=
  accesses.foldlM (fun c a => (simCacheAccess c a.1 a.2).map Prod.snd) cache

/-! ## The searches -/

theorem find_hit_some {ways : Nat → SimWay} {assoc : UInt32} {tag : UInt64} {i : Nat}
    (found : findHit ways assoc tag = some i) : i < assoc.toNat ∧ (ways i).valid = true ∧ (ways i).tag = tag := by
  have here := List.find?_some found
  rw [Bool.and_eq_true, beq_iff_eq] at here
  exact ⟨List.mem_range.1 (List.mem_of_find?_eq_some found), here⟩

theorem find_hit_none {ways : Nat → SimWay} {assoc : UInt32} {tag : UInt64} (absent : findHit ways assoc tag = none)
    {i : Nat} (lt : i < assoc.toNat) : ¬((ways i).valid = true ∧ (ways i).tag = tag) := by
  have away := List.find?_eq_none.1 absent i (List.mem_range.2 lt)
  rwa [Bool.and_eq_true, beq_iff_eq] at away

/-- The scan ends at an invalid way, or at the way with the least time; `victim` and `oldest` are the way and
the time it came with. -/
theorem scan_victim_spec (ways : Nat → SimWay) (is : List Nat) (victim : Nat) (oldest : UInt64) :
    (∃ i ∈ is, (ways i).valid = false ∧ scanVictim ways victim oldest is = (i, true)) ∨
    (∀ j ∈ is, (ways j).valid = true) ∧
      ((scanVictim ways victim oldest is = (victim, false) ∧ ∀ j ∈ is, oldest ≤ (ways j).accessTimestamp) ∨
        ∃ i ∈ is, scanVictim ways victim oldest is = (i, false) ∧ (ways i).accessTimestamp < oldest ∧
          ∀ j ∈ is, (ways i).accessTimestamp ≤ (ways j).accessTimestamp) := by
  induction is generalizing victim oldest with
  | nil => exact .inr ⟨nofun, .inl ⟨rfl, nofun⟩⟩
  | cons k is ih =>
    rw [scanVictim]
    cases valid : (ways k).valid with
    | false => exact .inl ⟨k, List.mem_cons_self, valid, if_pos Bool.false_ne_true⟩
    | true =>
      rw [if_neg (not_not.2 rfl)]
      split
      · rename_i younger
        obtain ⟨i, mem, free, ends⟩ | ⟨full, ⟨ends, least⟩ | ⟨i, mem, ends, less, least⟩⟩ :=
          ih k (ways k).accessTimestamp
        · exact .inl ⟨i, List.mem_cons_of_mem k mem, free, ends⟩
        · refine .inr ⟨List.forall_mem_cons.2 ⟨valid, full⟩, .inr ⟨k, List.mem_cons_self, ends, younger, ?_⟩⟩
          exact List.forall_mem_cons.2 ⟨UInt64.le_refl _, least⟩
        · refine .inr ⟨List.forall_mem_cons.2 ⟨valid, full⟩, .inr ⟨i, List.mem_cons_of_mem k mem, ends, ?_, ?_⟩⟩
          · exact UInt64.lt_trans less younger
          · exact List.forall_mem_cons.2 ⟨UInt64.le_of_lt less, least⟩
      · rename_i notYounger
        have old := UInt64.not_lt.1 notYounger
        obtain ⟨i, mem, free, ends⟩ | ⟨full, ⟨ends, least⟩ | ⟨i, mem, ends, less, least⟩⟩ := ih victim oldest
        · exact .inl ⟨i, List.mem_cons_of_mem k mem, free, ends⟩
        · exact .inr ⟨List.forall_mem_cons.2 ⟨valid, full⟩, .inl ⟨ends, List.forall_mem_cons.2 ⟨old, least⟩⟩⟩
        · refine .inr ⟨List.forall_mem_cons.2 ⟨valid, full⟩, .inr ⟨i, List.mem_cons_of_mem k mem, ends, less, ?_⟩⟩
          exact List.forall_mem_cons.2 ⟨UInt64.le_trans (UInt64.le_of_lt less) old, least⟩

/-- The victim is an invalid way, or the one with the least time of all. -/
theorem find_victim_spec (ways : Nat → SimWay) {assoc : UInt32} (pos : 0 < assoc.toNat) :
    (findVictim ways assoc).1 < assoc.toNat ∧
      ((ways (findVictim ways assoc).1).valid = false ∨
        (∀ j < assoc.toNat, (ways j).valid = true) ∧
          ∀ j < assoc.toNat, (ways (findVictim ways assoc).1).accessTimestamp ≤ (ways j).accessTimestamp) := by
  have top (t : UInt64) : t ≤ 0xFFFFFFFFFFFFFFFF := UInt64.le_iff_toNat_le.2 (Nat.le_of_lt_succ t.toNat_lt)
  rw [findVictim]
  obtain ⟨i, mem, free, ends⟩ | ⟨full, ⟨ends, least⟩ | ⟨i, mem, ends, -, least⟩⟩ :=
    scan_victim_spec ways (List.range assoc.toNat) 0 0xFFFFFFFFFFFFFFFF
  · rw [ends]
    exact ⟨List.mem_range.1 mem, .inl free⟩
  · rw [ends]
    refine ⟨pos, .inr ⟨fun j lt => full j (List.mem_range.2 lt), fun j lt => ?_⟩⟩
    exact UInt64.le_trans (top _) (least j (List.mem_range.2 lt))
  · rw [ends]
    exact ⟨List.mem_range.1 mem, .inr ⟨fun j lt => full j (List.mem_range.2 lt),
      fun j lt => least j (List.mem_range.2 lt)⟩⟩

/-! ## One set as an LRU store -/

/-- The tag that a way of the first set holds. -/
def heldTag (c : SimCache) (i : Nat) : Option UInt64 :=
  if (c.sets 0 i).valid then some (c.sets 0 i).tag else none

def wayStamp (c : SimCache) (i : Nat) : Nat := (c.sets 0 i).accessTimestamp.toNat

theorem heldTag_some {c : SimCache} {i : Nat} {tag : UInt64} :
    heldTag c i = some tag ↔ (c.sets 0 i).valid = true ∧ (c.sets 0 i).tag = tag := by
  unfold heldTag
  exact Option.ite_some_none_eq_some

theorem heldTag_none {c : SimCache} {i : Nat} : heldTag c i = none ↔ (c.sets 0 i).valid = false := by
  simp [heldTag]

/-- A cache with one set after accesses with these tags, the last one first. -/
structure OneSet (lineSize assoc : UInt32) (past : List UInt64) (c : SimCache) : Prop where
  line : c.lineSize = lineSize
  one : c.numSets = 1
  ways : c.assoc = assoc
  time : c.globalTime.toNat = past.length
  accesses : c.totalAccesses.toNat = past.length
  misses : c.totalMisses.toNat = lruMisses assoc.toNat past
  lru : Stamped assoc.toNat (heldTag c) (wayStamp c) past.length ((recency past).take assoc.toNat)

section Step

variable {c c' : SimCache} {lineSize assoc : UInt32} {past : List UInt64} {i : Nat} {tag : UInt64}

theorem setWay_self (c : SimCache) (s i : Nat) (way : SimWay) : (c.setWay s i way).sets s i = way := by
  show Function.update c.sets s (Function.update (c.sets s) i way) s i = way
  rw [Function.update_self, Function.update_self]

theorem setWay_of_ne (c : SimCache) (s : Nat) {i j : Nat} (way : SimWay) (ne : j ≠ i) :
    (c.setWay s i way).sets s j = c.sets s j := by
  show Function.update c.sets s (Function.update (c.sets s) i way) s j = c.sets s j
  rw [Function.update_self, Function.update_of_ne ne]

/-- A way of the set is written with the tag of the access and the time. -/
theorem OneSet.use (h : OneSet lineSize assoc past c) (way : SimWay) (lt : i < assoc.toNat)
    (short : past.length + 1 < 2 ^ 64) (sets : c'.sets = (c.setWay 0 i way).sets) (valid : way.valid = true) (tagged : way.tag = tag)
    (stamp : way.accessTimestamp = c.globalTime + 1)
    (pick : heldTag c i = some tag ∨ (∀ j < assoc.toNat, heldTag c j ≠ some tag) ∧
      (heldTag c i = none ∨ (∀ j < assoc.toNat, heldTag c j ≠ none) ∧ ∀ j < assoc.toNat, wayStamp c i ≤ wayStamp c j)) :
    Stamped assoc.toNat (heldTag c') (wayStamp c') (tag :: past).length
      ((recency (tag :: past)).take assoc.toNat) := by
  have here : c'.sets 0 i = way := by
    rw [sets, setWay_self]
  rw [← lruStep_recency]
  apply h.lru.use lt (Nat.lt_succ_self past.length) pick
  · rw [heldTag_some, here]
    exact ⟨valid, tagged⟩
  · rw [wayStamp, here, stamp]
    exact toNat_tick h.time short
  · intro j _ ne
    have there : c'.sets 0 j = c.sets 0 j := by
      rw [sets, setWay_of_ne c 0 way ne]
    rw [heldTag, wayStamp, there]
    exact ⟨rfl, rfl⟩

/-- One access. -/
theorem OneSet.access (h : OneSet lineSize assoc past c) (pos : 0 < assoc.toNat) (line : lineSize ≠ 0)
    (short : past.length + 1 < 2 ^ 64) (address : UInt64) (type : CacheAccessType) :
    ∃ hit c', simCacheAccess c address type = some (hit, c') ∧
      OneSet lineSize assoc (address / lineSize.toUInt64 :: past) c' := by
  have span : c.lineSize * c.numSets = lineSize := by rw [h.line, h.one, UInt32.mul_one]
  have first : (address / c.lineSize.toUInt64 % c.numSets.toUInt64).toNat = 0 := by
    rw [h.one, UInt64.toNat_mod]
    exact Nat.mod_one _
  have count := (lruMisses_le assoc.toNat past).trans_lt (Nat.lt_of_succ_lt short)
  rw [simCacheAccess, span, if_neg line, first]
  dsimp only
  generalize address / lineSize.toUInt64 = tag
  rw [h.ways]
  cases found : findHit (c.sets 0) assoc tag with
  | some i =>
    obtain ⟨lt, valid, tagged⟩ := find_hit_some found
    have held : heldTag c i = some tag := heldTag_some.2 ⟨valid, tagged⟩
    refine ⟨_, _, rfl, h.line, h.one, h.ways, toNat_tick h.time short, toNat_tick h.accesses short, ?_, ?_⟩
    · rw [lruMisses, if_pos ((h.lru.mem_iff tag).2 ⟨i, lt, held⟩)]
      exact h.misses
    · exact h.use _ lt short rfl valid tagged rfl (.inl held)
  | none =>
    have absent : ∀ j < assoc.toNat, heldTag c j ≠ some tag := fun j lt held =>
      find_hit_none found lt (heldTag_some.1 held)
    obtain ⟨lt, victim⟩ := find_victim_spec (c.sets 0) pos
    refine ⟨_, _, rfl, h.line, h.one, h.ways, toNat_tick h.time short, toNat_tick h.accesses short, ?_, ?_⟩
    · have miss : tag ∉ (recency past).take assoc.toNat := by
        intro mem
        obtain ⟨j, jlt, held⟩ := (h.lru.mem_iff tag).1 mem
        exact absent j jlt held
      rw [lruMisses, if_neg miss]
      exact toNat_tick h.misses (by have := lruMisses_le assoc.toNat past; omega)
    · apply h.use ⟨tag, c.globalTime + 1, true, decide (type = .write)⟩ lt short rfl rfl rfl rfl
      refine .inr ⟨absent, ?_⟩
      rcases victim with free | ⟨full, least⟩
      · exact .inl (heldTag_none.2 free)
      · refine .inr ⟨fun j jlt none => ?_, fun j jlt => UInt64.le_iff_toNat_le.1 (least j jlt)⟩
        rw [heldTag_none, full j jlt] at none
        cases none

end Step

/-! ## Runs -/

/-- A new cache that has one set. -/
theorem one_set_init {totalSize lineSize associativity : UInt32} {writeBack : Bool} {c : SimCache}
    (init : simCacheInit totalSize lineSize associativity writeBack = some c) (one : c.numSets = 1) :
    OneSet lineSize associativity [] c ∧ lineSize ≠ 0 ∧ 0 < associativity.toNat := by
  rw [simCacheInit] at init
  split at init
  · cases init
  · rename_i product
    cases init
    refine ⟨⟨rfl, one, rfl, rfl, rfl, rfl, ?_⟩, ?_, ?_⟩
    · rw [recency, List.take_nil]
      exact Stamped.empty fun i _ => heldTag_none.2 rfl
    · rintro rfl
      exact product UInt32.zero_mul
    · apply Nat.pos_of_ne_zero
      intro zero
      apply product
      rw [UInt32.toNat_inj.1 (show associativity.toNat = (0 : UInt32).toNat from zero), UInt32.mul_zero]

/-- The tags of accesses, the last one first. -/
def tagHistory (lineSize : UInt32) (accesses : List (UInt64 × CacheAccessType)) : List UInt64 :=
  accesses.reverse.map fun a => a.1 / lineSize.toUInt64

theorem length_tagHistory (lineSize : UInt32) (accesses : List (UInt64 × CacheAccessType)) :
    (tagHistory lineSize accesses).length = accesses.length := by
  rw [tagHistory, List.length_map, List.length_reverse]

/-- **A cache with one set counts the misses of an LRU store** of as many places as it has ways. -/
theorem sim_cache_run_one_set {c : SimCache} {lineSize assoc : UInt32} (start : OneSet lineSize assoc [] c)
    (line : lineSize ≠ 0) (pos : 0 < assoc.toNat) (accesses : List (UInt64 × CacheAccessType))
    (short : accesses.length < 2 ^ 64) :
    ∃ c', simCacheRun c accesses = some c' ∧ OneSet lineSize assoc (tagHistory lineSize accesses) c' := by
  induction accesses using List.reverseRecOn with
  | nil => exact ⟨c, rfl, start⟩
  | append_singleton accesses a ih =>
    rw [List.length_append, List.length_singleton] at short
    obtain ⟨c₁, ran, h⟩ := ih (Nat.lt_of_succ_lt short)
    obtain ⟨hit, c', accessed, next⟩ := h.access pos line (by rwa [length_tagHistory]) a.1 a.2
    refine ⟨c', ?_, ?_⟩
    · have ran' : accesses.foldlM (fun c a => (simCacheAccess c a.1 a.2).map Prod.snd) c = some c₁ := ran
      rw [simCacheRun, foldlM_snoc, ran', Option.bind_some, accessed]
      rfl
    · rw [tagHistory, List.reverse_append, List.reverse_singleton, List.singleton_append, List.map_cons]
      exact next

end MiniHardware.Bench
