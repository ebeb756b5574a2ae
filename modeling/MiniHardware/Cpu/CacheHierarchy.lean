import MiniHardware.Cpu.Cache

/-!
# The cache hierarchy (`mini-cpu-arch/src/cache.c`)

Two caches over a second level and possibly a third. Its comment has an inclusive
hierarchy in which each level fills the one above. A read that misses everywhere
fills nothing, so the third level stays empty. A write fills the first level on
its own, and what the second level replaces stays in the first.
`hierarchy_inclusive_iff` says which runs nevertheless deliver.
-/

namespace MiniHardware.Cpu
open Lib

structure CacheHierarchy where
  l1i : Cache
  l1d : Cache
  l2 : Cache
  l3 : Option Cache
  mainMemoryLatency : UInt32

/-- `cache_hierarchy_init`; a failure is `none`. -/
def cacheHierarchyInit (l1iGeo l1dGeo l2Geo l3Geo : CacheGeometry) (l1Wp l2Wp : WritePolicy) :
    Option CacheHierarchy := do
  let l1i ← cacheInit l1iGeo .lru .writeBackAlloc
  let l1d ← cacheInit l1dGeo .lru l1Wp
  let l2 ← cacheInit l2Geo .lru l2Wp
  if l3Geo.sizeBytes > 0 then
    let l3 ← cacheInit l3Geo .lru .writeBackAlloc
    return { l1i := l1i, l1d := l1d, l2 := l2, l3 := some l3, mainMemoryLatency := 100 }
  else
    return { l1i := l1i, l1d := l1d, l2 := l2, l3 := none, mainMemoryLatency := 100 }

/-- The counters of a probe that hits. -/
def Cache.probeHit (c : Cache) : Cache :=
  { c with
    stats.accesses := c.stats.accesses + 1
    stats.hits := c.stats.hits + 1 }

/-- The counters of a probe that misses. -/
def Cache.probeMiss (c : Cache) : Cache :=
  { c with
    stats.accesses := c.stats.accesses + 1
    stats.misses := c.stats.misses + 1 }

namespace CacheHierarchy

def l1 (h : CacheHierarchy) (isIfetch : Bool) : Cache := if isIfetch then h.l1i else h.l1d

def setL1 (h : CacheHierarchy) (isIfetch : Bool) (c : Cache) : CacheHierarchy :=
  if isIfetch then { h with l1i := c } else { h with l1d := c }

end CacheHierarchy

/-- `cache_hierarchy_read`. All caches are LRU, which does not call `rand`. -/
def cacheHierarchyRead (h : CacheHierarchy) (addr : UInt32) (isIfetch : Bool) : CacheHierarchy × UInt32 :=
  let l1 := h.l1 isIfetch
  if (cacheLookup l1 addr).isSome then (h.setL1 isIfetch l1.probeHit, 0)
  else
    let l1 := l1.probeMiss
    if (cacheLookup h.l2 addr).isSome then
      ({ h with l2 := h.l2.probeHit }.setL1 isIfetch (cacheRead l1 addr 0), 0)
    else
      let h := { h with l2 := h.l2.probeMiss }
      match h.l3 with
      | none => (h.setL1 isIfetch l1, h.mainMemoryLatency)
      | some l3 =>
        if (cacheLookup l3 addr).isSome then
          let h := { h with l3 := some l3.probeHit }
          let h := { h with l2 := cacheRead h.l2 addr 0 }
          (h.setL1 isIfetch (cacheRead l1 addr 0), 0)
        else ({ h with l3 := some l3.probeMiss }.setL1 isIfetch l1, h.mainMemoryLatency)

/-- `cache_hierarchy_write`. -/
def cacheHierarchyWrite (h : CacheHierarchy) (addr value : UInt32) : CacheHierarchy :=
  let h := { h with l1d := cacheWrite h.l1d addr value 0 }
  match h.l1d.writePolicy with
  | .writeThroughAlloc | .writeThroughNoAlloc => { h with l2 := cacheWrite h.l2 addr value 0 }
  | .writeBackAlloc => h

inductive HierarchyCall where
  | read (addr : UInt32) (isIfetch : Bool)
  | write (addr value : UInt32)

def CacheHierarchy.step (h : CacheHierarchy) : HierarchyCall → CacheHierarchy
  | .read addr isIfetch => (cacheHierarchyRead h addr isIfetch).1
  | .write addr value => cacheHierarchyWrite h addr value

/-! ## What a cache holds -/

namespace Cache

/-- The address hits. -/
def Has (c : Cache) (addr : UInt32) : Prop := (cacheLookup c addr).isSome = true

instance (c : Cache) (addr : UInt32) : Decidable (c.Has addr) := inferInstanceAs (Decidable (_ = true))

/-- A fill for `addr` brings `a`, or leaves it in another slot than the one replaced. -/
def Keeps (c : Cache) (addr a : UInt32) : Prop :=
  c.SameLine addr a ∨ ∃ k, k ≠ c.victimIdx addr 0 ∧ c.Covers k a

/-- A cache has an address where some line covers it. -/
theorem has_iff {c : Cache} {a : UInt32} : c.Has a ↔ ∃ k, c.Covers k a := by
  unfold Has
  rw [Option.isSome_iff_ne_none, ne_eq, lookup_eq_none, not_forall_not]

/-- A cache does not have an address where the lookup fails. -/
theorem not_has_iff {c : Cache} {a : UInt32} : ¬ c.Has a ↔ cacheLookup c a = none := by
  unfold Has
  rw [Bool.not_eq_true, Option.isSome_eq_false_iff, Option.isNone_iff_eq_none]

end Cache

/-- A hit leaves the addresses that a cache has. -/
theorem Touched.has_iff {c c' : Cache} (h : Touched c c') {a : UInt32} : c'.Has a ↔ c.Has a := by
  simp only [Cache.has_iff, h.covers_iff]

/-- After a fill a cache has what the fill keeps. -/
theorem Filled.has_iff {c c' : Cache} {addr : UInt32} (h : Filled c c' addr (c.victimIdx addr 0)) {a : UInt32} :
    c'.Has a ↔ c.Keeps addr a := by
  rw [Cache.has_iff]
  constructor
  · rintro ⟨k, covers⟩
    rcases eq_or_ne k (c.victimIdx addr 0) with rfl | ne
    · exact .inl (h.sameLine_of_covers covers)
    · exact .inr ⟨k, ne, (h.covers_other ne a).1 covers⟩
  · rintro (same | ⟨k, ne, covers⟩)
    · exact ⟨_, h.covers same⟩
    · exact ⟨k, (h.covers_other ne a).2 covers⟩

namespace CacheHierarchy

/-- What a first-level cache holds, the levels below hold. -/
def Inclusive (h : CacheHierarchy) : Prop :=
  ∀ a, h.l1i.Has a ∨ h.l1d.Has a → h.l2.Has a ∧ ∀ c, h.l3 = some c → c.Has a

/-- After a read its line is in the first level, and a second read takes no time. -/
def Served (h : CacheHierarchy) : HierarchyCall → Prop
  | .read addr isIfetch => (h.l1 isIfetch).Has addr ∧ (cacheHierarchyRead h addr isIfetch).2 = 0
  | .write _ _ => True

/-- The call leaves the hierarchy as documented. -/
def Delivers (h : CacheHierarchy) (call : HierarchyCall) : Prop :=
  (h.step call).Inclusive ∧ (h.step call).Served call

/-- Where the first level fills on a miss, there is no third level, and the second has the whole
line already or is filled for it, without a loss to the first level. -/
def Ready (h : CacheHierarchy) : HierarchyCall → Prop
  | .read addr isIfetch =>
    (h.l1 isIfetch).Has addr ∨ h.l3 = none ∧ ∀ a, (h.l1 isIfetch).SameLine addr a → h.l2.Has a
  | .write addr _ =>
    h.l1d.Has addr ∨
      match h.l1d.writePolicy with
      | .writeBackAlloc => h.l3 = none ∧ ∀ a, h.l1d.SameLine addr a → h.l2.Has a
      | .writeThroughAlloc =>
        h.l3 = none ∧
          if h.l2.Has addr then ∀ a, h.l1d.SameLine addr a → h.l2.Has a
          else
            h.l2.writePolicy ≠ .writeThroughNoAlloc ∧
              ∀ a, h.l1i.Has a ∨ h.l1d.Keeps addr a → h.l2.Keeps addr a
      | .writeThroughNoAlloc =>
        h.l2.Has addr ∨ h.l2.writePolicy = .writeThroughNoAlloc ∨
          ∀ a, h.l1i.Has a ∨ h.l1d.Has a → h.l2.Keeps addr a

end CacheHierarchy

/-! ## What an access leaves in a cache -/

namespace Cache

variable {c : Cache} {addr a value : UInt32}

/-- A fill keeps the address it is for. -/
theorem keeps_self (c : Cache) (addr : UInt32) : c.Keeps addr addr := .inl ⟨rfl, rfl⟩

/-- What a fill keeps is of the line filled or was there. -/
theorem Keeps.cases (h : c.Keeps addr a) : c.SameLine addr a ∨ c.Has a := by
  obtain same | ⟨k, -, covers⟩ := h
  · exact .inl same
  · exact .inr (has_iff.2 ⟨k, covers⟩)

/-- After a read that missed, the cache has what the fill keeps. -/
theorem read_has (pos : 0 < c.ways) (miss : ¬ c.Has addr) :
    (cacheRead c.probeMiss addr 0).Has a ↔ c.Keeps addr a := by
  have miss' : cacheLookup c.probeMiss addr = none := not_has_iff.1 miss
  exact (cacheRead_miss (c := c.probeMiss) pos miss' 0).has_iff

/-- A fill leaves the number of ways. -/
theorem read_ways (pos : 0 < c.ways) (miss : ¬ c.Has addr) : (cacheRead c.probeMiss addr 0).ways = c.ways := by
  have miss' : cacheLookup c.probeMiss addr = none := not_has_iff.1 miss
  have geom := (cacheRead_miss (c := c.probeMiss) pos miss' 0).geom
  unfold ways
  rw [geom]
  rfl

/-- A write hit leaves the addresses of a cache. -/
theorem write_has_hit (hit : c.Has addr) : (cacheWrite c addr value 0).Has a ↔ c.Has a := by
  obtain ⟨idx, look⟩ := Option.isSome_iff_exists.1 hit
  exact (cacheWrite_hit look value 0).has_iff

/-- A write miss that allocates fills. -/
theorem write_has_fill (pos : 0 < c.ways) (policy : c.writePolicy ≠ .writeThroughNoAlloc)
    (miss : ¬ c.Has addr) : (cacheWrite c addr value 0).Has a ↔ c.Keeps addr a :=
  (cacheWrite_miss pos policy (not_has_iff.1 miss) value 0).has_iff

/-- A write miss that does not allocate leaves the addresses. -/
theorem write_has_bypass (policy : c.writePolicy = .writeThroughNoAlloc) (miss : ¬ c.Has addr) :
    (cacheWrite c addr value 0).Has a ↔ c.Has a :=
  (cacheWrite_bypass policy (not_has_iff.1 miss) value 0).has_iff

/-- A write keeps geometry and policy. -/
theorem write_fixed (pos : 0 < c.ways) :
    (cacheWrite c addr value 0).geom = c.geom ∧ (cacheWrite c addr value 0).writePolicy = c.writePolicy := by
  by_cases hit : c.Has addr
  · obtain ⟨idx, look⟩ := Option.isSome_iff_exists.1 hit
    have touched := cacheWrite_hit look value 0
    exact ⟨touched.geom, touched.writePolicy⟩
  · rw [not_has_iff] at hit
    by_cases policy : c.writePolicy = .writeThroughNoAlloc
    · have touched := cacheWrite_bypass policy hit value 0
      exact ⟨touched.geom, touched.writePolicy⟩
    · have filled := cacheWrite_miss pos policy hit value 0
      exact ⟨filled.geom, filled.writePolicy⟩

end Cache

/-! ## Calls -/

namespace CacheHierarchy

variable {h : CacheHierarchy} {addr value : UInt32} {isIfetch : Bool} {call : HierarchyCall}

/-- Caches with ways, in an inclusive hierarchy whose third level is empty. -/
structure Inv (h : CacheHierarchy) : Prop where
  l1i : 0 < h.l1i.ways
  l1d : 0 < h.l1d.ways
  l2 : 0 < h.l2.ways
  empty : ∀ c, h.l3 = some c → ∀ a, ¬ c.Has a
  inclusive : h.Inclusive

/-- The first-level cache of either kind has a way. -/
theorem Inv.l1 (h' : Inv h) (isIfetch : Bool) : 0 < (h.l1 isIfetch).ways := by
  cases isIfetch
  · exact h'.l1d
  · exact h'.l1i

/-- The second level has what either first-level cache has. -/
theorem Inclusive.l1 (h' : Inclusive h) (isIfetch : Bool) {a : UInt32} (has : (h.l1 isIfetch).Has a) : h.l2.Has a := by
  cases isIfetch
  · exact (h' a (.inr has)).1
  · exact (h' a (.inl has)).1

/-- The first-level cache that was set. -/
@[simp] theorem l1_setL1 (h : CacheHierarchy) (isIfetch : Bool) (c : Cache) :
    (h.setL1 isIfetch c).l1 isIfetch = c := by
  cases isIfetch <;> rfl

/-- A hit in the first level takes no time and touches no other level. -/
theorem read_hit (hit : (h.l1 isIfetch).Has addr) :
    cacheHierarchyRead h addr isIfetch = (h.setL1 isIfetch (h.l1 isIfetch).probeHit, 0) := if_pos hit

/-- A first-level miss that the second level serves. -/
theorem read_fill (miss : ¬ (h.l1 isIfetch).Has addr) (below : h.l2.Has addr) :
    cacheHierarchyRead h addr isIfetch =
      ({ h with l2 := h.l2.probeHit }.setL1 isIfetch (cacheRead (h.l1 isIfetch).probeMiss addr 0), 0) :=
  (if_neg miss).trans (if_pos below)

/-- A read that misses everywhere leaves the lines. -/
theorem read_miss (empty : ∀ c, h.l3 = some c → ∀ a, ¬ c.Has a) (miss : ¬ (h.l1 isIfetch).Has addr)
    (below : ¬ h.l2.Has addr) :
    (cacheHierarchyRead h addr isIfetch).1.l1 isIfetch = (h.l1 isIfetch).probeMiss := by
  have reads : cacheHierarchyRead h addr isIfetch = _ := (if_neg miss).trans (if_neg below)
  rw [reads]
  dsimp only
  split
  · apply l1_setL1
  · rename_i l3 eq
    have nowhere : ¬ (cacheLookup l3 addr).isSome = true := empty l3 eq addr
    rw [if_neg nowhere]
    apply l1_setL1

/-- A read that hits is served. -/
theorem served_of_has (has : (h.l1 isIfetch).Has addr) : h.Served (.read addr isIfetch) := by
  refine ⟨has, ?_⟩
  rw [read_hit has]

/-- A first-level cache that fills a line keeps the hierarchy inclusive if and only if the second
level has the whole line, and there is no third one. -/
theorem Inv.fill_iff (h' : Inv h) (isIfetch : Bool) (addr : UInt32) :
    (∀ a, (h.l1 (!isIfetch)).Has a ∨ (h.l1 isIfetch).Keeps addr a →
        h.l2.Has a ∧ ∀ c, h.l3 = some c → c.Has a) ↔
      h.l3 = none ∧ ∀ a, (h.l1 isIfetch).SameLine addr a → h.l2.Has a := by
  constructor
  · intro all
    refine ⟨?_, fun a same => (all a (.inr (.inl same))).1⟩
    rw [Option.eq_none_iff_forall_ne_some]
    intro c eq
    exact h'.empty c eq addr ((all addr (.inr (Cache.keeps_self _ addr))).2 c eq)
  · rintro ⟨none, line⟩ a kept
    refine ⟨?_, fun c eq => by rw [none] at eq; cases eq⟩
    obtain other | kept := kept
    · exact h'.inclusive.l1 _ other
    · obtain same | has := kept.cases
      · exact line a same
      · exact h'.inclusive.l1 _ has

/-- A read delivers exactly when it is ready. -/
theorem Inv.delivers_read (h' : Inv h) : h.Delivers (.read addr isIfetch) ↔ h.Ready (.read addr isIfetch) := by
  by_cases hit : (h.l1 isIfetch).Has addr
  · refine ⟨fun _ => .inl hit, fun _ => ?_⟩
    unfold Delivers CacheHierarchy.step
    dsimp only
    rw [read_hit hit]
    refine ⟨?_, served_of_has (by rw [l1_setL1]; exact hit)⟩
    cases isIfetch
    · exact h'.inclusive
    · exact h'.inclusive
  by_cases below : h.l2.Has addr
  · have fill (a : UInt32) := Cache.read_has (a := a) (h'.l1 isIfetch) hit
    unfold Delivers Ready CacheHierarchy.step
    dsimp only
    rw [read_fill hit below, or_iff_right hit, ← h'.fill_iff isIfetch addr]
    rw [and_iff_left (served_of_has (by rw [l1_setL1, fill]; exact Cache.keeps_self _ addr))]
    apply forall_congr'
    intro a
    cases isIfetch
    · exact imp_congr (or_congr Iff.rfl (fill a)) Iff.rfl
    · exact imp_congr (or_comm.trans (or_congr Iff.rfl (fill a))) Iff.rfl
  · constructor
    · rintro ⟨-, has, -⟩
      unfold CacheHierarchy.step at has
      dsimp only at has
      rw [read_miss h'.empty hit below] at has
      exact absurd has hit
    · rintro (has | ⟨-, line⟩)
      · exact absurd has hit
      · exact absurd (line addr ⟨rfl, rfl⟩) below

/-- Under write-back a write stays in the first level. -/
theorem write_back (h' : Inv h) (policy : h.l1d.writePolicy = .writeBackAlloc) :
    cacheHierarchyWrite h addr value = { h with l1d := cacheWrite h.l1d addr value 0 } := by
  unfold cacheHierarchyWrite
  dsimp only
  rw [(Cache.write_fixed h'.l1d).2, policy]

/-- Under write-through a write goes to the second level as well. -/
theorem write_through (h' : Inv h) (policy : h.l1d.writePolicy ≠ .writeBackAlloc) :
    cacheHierarchyWrite h addr value =
      { h with l1d := cacheWrite h.l1d addr value 0, l2 := cacheWrite h.l2 addr value 0 } := by
  unfold cacheHierarchyWrite
  dsimp only
  rw [(Cache.write_fixed h'.l1d).2]
  split
  · rfl
  · rfl
  · rename_i back
    exact absurd back policy

/-- When a write under write-back leaves the hierarchy inclusive, from what the first level has after it. -/
theorem write_back_inclusive (h' : Inv h) (policy : h.l1d.writePolicy = .writeBackAlloc) {p : UInt32 → Prop}
    (own : ∀ a, (cacheWrite h.l1d addr value 0).Has a ↔ p a) :
    (cacheHierarchyWrite h addr value).Inclusive ↔
      ∀ a, h.l1i.Has a ∨ p a → h.l2.Has a ∧ ∀ c, h.l3 = some c → c.Has a := by
  rw [write_back h' policy]
  unfold Inclusive
  simp only [own]

/-- When a write under write-through leaves the hierarchy inclusive, from what both levels have after it. -/
theorem write_through_inclusive (h' : Inv h) (policy : h.l1d.writePolicy ≠ .writeBackAlloc)
    {p q : UInt32 → Prop} (own : ∀ a, (cacheWrite h.l1d addr value 0).Has a ↔ p a)
    (lower : ∀ a, (cacheWrite h.l2 addr value 0).Has a ↔ q a) :
    (cacheHierarchyWrite h addr value).Inclusive ↔
      ∀ a, h.l1i.Has a ∨ p a → q a ∧ ∀ c, h.l3 = some c → c.Has a := by
  rw [write_through h' policy]
  unfold Inclusive
  simp only [own, lower]

/-- A write delivers exactly when it is ready. -/
theorem Inv.delivers_write (h' : Inv h) : h.Delivers (.write addr value) ↔ h.Ready (.write addr value) := by
  unfold Delivers Ready CacheHierarchy.step
  dsimp only
  rw [and_iff_left (by trivial)]
  by_cases hit : h.l1d.Has addr
  · -- the second level has the line as well
    refine ⟨fun _ => .inl hit, fun _ => ?_⟩
    have below := h'.inclusive.l1 false hit
    have own (a : UInt32) : (cacheWrite h.l1d addr value 0).Has a ↔ h.l1d.Has a := Cache.write_has_hit hit
    have lower (a : UInt32) : (cacheWrite h.l2 addr value 0).Has a ↔ h.l2.Has a := Cache.write_has_hit below
    by_cases policy : h.l1d.writePolicy = .writeBackAlloc
    · rw [write_back_inclusive h' policy own]
      exact h'.inclusive
    · rw [write_through_inclusive h' policy own lower]
      exact h'.inclusive
  rw [or_iff_right hit]
  have fill : (∀ a, h.l1i.Has a ∨ h.l1d.Keeps addr a → h.l2.Has a ∧ ∀ c, h.l3 = some c → c.Has a) ↔
      h.l3 = none ∧ ∀ a, h.l1d.SameLine addr a → h.l2.Has a := h'.fill_iff false addr
  split
  · rename_i policy
    have own (a : UInt32) : (cacheWrite h.l1d addr value 0).Has a ↔ h.l1d.Keeps addr a :=
      Cache.write_has_fill h'.l1d (by rw [policy]; decide) hit
    rw [write_back_inclusive h' policy own]
    exact fill
  · rename_i policy
    have own (a : UInt32) : (cacheWrite h.l1d addr value 0).Has a ↔ h.l1d.Keeps addr a :=
      Cache.write_has_fill h'.l1d (by rw [policy]; decide) hit
    have through : h.l1d.writePolicy ≠ .writeBackAlloc := by rw [policy]; decide
    by_cases below : h.l2.Has addr
    · have lower (a : UInt32) : (cacheWrite h.l2 addr value 0).Has a ↔ h.l2.Has a := Cache.write_has_hit below
      rw [write_through_inclusive h' through own lower, if_pos below]
      exact fill
    rw [if_neg below]
    by_cases bypass : h.l2.writePolicy = .writeThroughNoAlloc
    · have lower (a : UInt32) : (cacheWrite h.l2 addr value 0).Has a ↔ h.l2.Has a :=
        Cache.write_has_bypass bypass below
      rw [write_through_inclusive h' through own lower]
      constructor
      · intro all
        exact absurd (all addr (.inr (Cache.keeps_self _ addr))).1 below
      · rintro ⟨-, alloc, -⟩
        exact absurd bypass alloc
    · have lower (a : UInt32) : (cacheWrite h.l2 addr value 0).Has a ↔ h.l2.Keeps addr a :=
        Cache.write_has_fill h'.l2 bypass below
      rw [write_through_inclusive h' through own lower]
      constructor
      · intro all
        refine ⟨?_, bypass, fun a kept => (all a kept).1⟩
        rw [Option.eq_none_iff_forall_ne_some]
        intro c eq
        exact h'.empty c eq addr ((all addr (.inr (Cache.keeps_self _ addr))).2 c eq)
      · rintro ⟨none, -, line⟩ a kept
        refine ⟨line a kept, fun c eq => ?_⟩
        rw [none] at eq
        cases eq
  · rename_i policy
    have own (a : UInt32) : (cacheWrite h.l1d addr value 0).Has a ↔ h.l1d.Has a :=
      Cache.write_has_bypass policy hit
    have through : h.l1d.writePolicy ≠ .writeBackAlloc := by rw [policy]; decide
    by_cases below : h.l2.Has addr
    · have lower (a : UInt32) : (cacheWrite h.l2 addr value 0).Has a ↔ h.l2.Has a := Cache.write_has_hit below
      rw [write_through_inclusive h' through own lower]
      exact ⟨fun _ => .inl below, fun _ => h'.inclusive⟩
    rw [or_iff_right below]
    by_cases bypass : h.l2.writePolicy = .writeThroughNoAlloc
    · have lower (a : UInt32) : (cacheWrite h.l2 addr value 0).Has a ↔ h.l2.Has a :=
        Cache.write_has_bypass bypass below
      rw [write_through_inclusive h' through own lower]
      exact ⟨fun _ => .inl bypass, fun _ => h'.inclusive⟩
    · have lower (a : UInt32) : (cacheWrite h.l2 addr value 0).Has a ↔ h.l2.Keeps addr a :=
        Cache.write_has_fill h'.l2 bypass below
      rw [or_iff_right bypass, write_through_inclusive h' through own lower]
      constructor
      · exact fun all a kept => (all a kept).1
      · exact fun line a kept => ⟨line a kept, (h'.inclusive a kept).2⟩

/-- A call delivers exactly when it is ready. -/
theorem Inv.delivers_iff (h' : Inv h) (call : HierarchyCall) : h.Delivers call ↔ h.Ready call := by
  cases call with
  | read addr isIfetch => exact h'.delivers_read
  | write addr value => exact h'.delivers_write

/-- A ready call keeps the invariant. -/
theorem Inv.step (h' : Inv h) (ready : h.Ready call) : Inv (h.step call) := by
  have inclusive := ((h'.delivers_iff call).2 ready).1
  cases call with
  | read addr isIfetch =>
    unfold CacheHierarchy.step at inclusive ⊢
    dsimp only at inclusive ⊢
    by_cases hit : (h.l1 isIfetch).Has addr
    · rw [read_hit hit] at inclusive ⊢
      cases isIfetch
      · exact ⟨h'.l1i, h'.l1d, h'.l2, h'.empty, inclusive⟩
      · exact ⟨h'.l1i, h'.l1d, h'.l2, h'.empty, inclusive⟩
    · have line := (ready.resolve_left hit).2
      have pos : 0 < (cacheRead (h.l1 isIfetch).probeMiss addr 0).ways := by
        rw [Cache.read_ways (h'.l1 isIfetch) hit]
        exact h'.l1 isIfetch
      rw [read_fill hit (line addr ⟨rfl, rfl⟩)] at inclusive ⊢
      cases isIfetch
      · exact ⟨h'.l1i, pos, h'.l2, h'.empty, inclusive⟩
      · exact ⟨pos, h'.l1d, h'.l2, h'.empty, inclusive⟩
  | write addr value =>
    unfold CacheHierarchy.step at inclusive ⊢
    dsimp only at inclusive ⊢
    have l1d : 0 < (cacheWrite h.l1d addr value 0).ways := by
      unfold Cache.ways
      rw [(Cache.write_fixed h'.l1d).1]
      exact h'.l1d
    have l2 : 0 < (cacheWrite h.l2 addr value 0).ways := by
      unfold Cache.ways
      rw [(Cache.write_fixed h'.l2).1]
      exact h'.l2
    by_cases policy : h.l1d.writePolicy = .writeBackAlloc
    · rw [write_back h' policy] at inclusive ⊢
      exact ⟨h'.l1i, l1d, h'.l2, h'.empty, inclusive⟩
    · rw [write_through h' policy] at inclusive ⊢
      exact ⟨h'.l1i, l1d, l2, h'.empty, inclusive⟩

/-- The caches start empty, so inclusive. -/
theorem Inv.init {l1iGeo l1dGeo l2Geo l3Geo : CacheGeometry} {l1Wp l2Wp : WritePolicy}
    (made : cacheHierarchyInit l1iGeo l1dGeo l2Geo l3Geo l1Wp l2Wp = some h) : Inv h := by
  have fresh {geom : CacheGeometry} {rp : ReplacePolicy} {wp : WritePolicy} {c : Cache}
      (made : cacheInit geom rp wp = some c) : 0 < c.ways ∧ ∀ a, ¬ c.Has a := by
    obtain ⟨accepted, rfl, -, -, invalid⟩ := cacheInit_some made
    refine ⟨accepted.bounds.2.1.1, fun a has => ?_⟩
    obtain ⟨k, covers⟩ := Cache.has_iff.1 has
    exact absurd (covers.2.1.symm.trans (invalid k)) (by decide)
  unfold cacheHierarchyInit at made
  simp only [bind, Option.bind_eq_some_iff] at made
  obtain ⟨l1i, made1, l1d, made2, l2, made3, made⟩ := made
  have inclusive : (CacheHierarchy.mk l1i l1d l2 h.l3 100).Inclusive := by
    rintro a (has | has)
    · exact absurd has ((fresh made1).2 a)
    · exact absurd has ((fresh made2).2 a)
  split at made
  · obtain ⟨l3, made4, eq⟩ := Option.bind_eq_some_iff.1 made
    obtain rfl := Option.some.inj eq
    refine ⟨(fresh made1).1, (fresh made2).1, (fresh made3).1, fun c eq => ?_, inclusive⟩
    rw [← Option.some.inj eq]
    exact (fresh made4).2
  · obtain rfl := Option.some.inj made
    exact ⟨(fresh made1).1, (fresh made2).1, (fresh made3).1, (fun _ eq => nomatch eq), inclusive⟩

end CacheHierarchy

/-- The hierarchy is inclusive after every call of a run, and a read brings its line, if and only if
every call finds the hierarchy ready for it. -/
theorem hierarchy_inclusive_iff {l1iGeo l1dGeo l2Geo l3Geo : CacheGeometry} {l1Wp l2Wp : WritePolicy}
    {h : CacheHierarchy} (made : cacheHierarchyInit l1iGeo l1dGeo l2Geo l3Geo l1Wp l2Wp = some h)
    (calls : List HierarchyCall) :
    h.Inclusive ∧ Guarded CacheHierarchy.step CacheHierarchy.Delivers h calls ↔
      Guarded CacheHierarchy.step CacheHierarchy.Ready h calls := by
  have init := CacheHierarchy.Inv.init made
  rw [and_iff_right init.inclusive]
  apply guarded_congr CacheHierarchy.Inv
  · exact fun _ call h' => h'.delivers_iff call
  · exact fun _ _ h' ready => h'.step ready
  · exact init

/-- A write through both levels, then a read of the line. -/
theorem hierarchy_inclusive_iff_through :
    ∃ h, cacheHierarchyInit ⟨64, 16, 2, 2⟩ ⟨64, 16, 2, 2⟩ ⟨128, 16, 4, 2⟩ ⟨0, 16, 1, 1⟩ .writeThroughAlloc
        .writeBackAlloc = some h ∧
      h.Inclusive ∧ Guarded CacheHierarchy.step CacheHierarchy.Delivers h [.write 0x40 7, .read 0x40 false] := by
  obtain ⟨h, made⟩ : ∃ h, cacheHierarchyInit ⟨64, 16, 2, 2⟩ ⟨64, 16, 2, 2⟩ ⟨128, 16, 4, 2⟩ ⟨0, 16, 1, 1⟩
    .writeThroughAlloc .writeBackAlloc = some h := ⟨_, rfl⟩
  refine ⟨h, made, (hierarchy_inclusive_iff made _).2 ⟨.inr ?_, .inl ?_, trivial⟩⟩
  · obtain rfl := Option.some.inj made
    refine ⟨rfl, ?_⟩
    rw [if_neg (by decide)]
    refine ⟨by decide, ?_⟩
    rintro a (has | same | ⟨k, -, covers⟩)
    · obtain ⟨k, covers⟩ := Cache.has_iff.1 has
      cases covers.2.1
    · exact .inl same
    · cases covers.2.1
  · obtain rfl := Option.some.inj made
    decide

/-- A first read fills nothing, and a second one takes the time of the memory again. A first write
fills the first level only. -/
theorem hierarchy_not_inclusive :
    ∃ h, cacheHierarchyInit ⟨64, 16, 2, 2⟩ ⟨64, 16, 2, 2⟩ ⟨128, 16, 4, 2⟩ ⟨256, 16, 4, 4⟩ .writeBackAlloc
        .writeBackAlloc = some h ∧
      ((cacheHierarchyRead (h.step (.read 0x40 false)) 0x40 false).2 = 100 ∧
        ¬ (h.step (.read 0x40 false)).Served (.read 0x40 false)) ∧
      ¬ (h.step (.write 0x40 7)).Inclusive := by
  refine ⟨_, rfl, ⟨by decide, fun served => ?_⟩, fun inclusive => ?_⟩
  · exact absurd served.1 (by decide)
  · exact absurd (inclusive 0x40 (.inr (by decide))).1 (by decide)

end MiniHardware.Cpu
