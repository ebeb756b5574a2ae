import Mathlib.Data.Nat.Bitwise
import MiniHardware.Cpu.Cache

/-!
# What a cache hit stands for (`mini-cpu-arch/src/cache.c`)

The cache beside a log of the address that was last installed in every slot.
`cache_init` does not ask for powers of two, but `cache_addr_split` cuts the
address at `log2` of the line size and masks it with one less than the number of
sets. `cache_hits_sound_iff` says that both have to be powers of two, for hits to
be of the line installed; and with PLRU the associativity, as the walks of
`plru_update` leave the bits that are allocated otherwise.
-/

namespace MiniHardware.Cpu
open Lib

inductive CacheAccess where
  | read (addr : UInt32) (rand : Nat)
  | write (addr value : UInt32) (rand : Nat)

namespace CacheAccess

def addr : CacheAccess → UInt32
  | read addr _ | write addr _ _ => addr

def rand : CacheAccess → Nat
  | read _ rand | write _ _ rand => rand

def apply (c : Cache) : CacheAccess → Cache
  | read addr rand => cacheRead c addr rand
  | write addr value rand => cacheWrite c addr value rand

/-- The miss of the access allocates. -/
def allocates (c : Cache) : CacheAccess → Bool
  | read _ _ => true
  | write _ _ _ => c.writePolicy ≠ .writeThroughNoAlloc

/-- The access fills a slot. -/
def fills (c : Cache) (a : CacheAccess) : Bool := (cacheLookup c a.addr).isNone && a.allocates c

end CacheAccess

/-! ## The PLRU bits an access reads and writes -/

/-- The loop of `plru_update` stays in an array of `size` bits. -/
def pointInside (size base way rs re node : Nat) : Bool :=
  if 1 < re - rs then
    let mid := (rs + re) / 2
    decide (base + node < size) &&
      if way < mid then pointInside size base way rs mid (2 * node + 1)
      else pointInside size base way mid re (2 * node + 2)
  else true
termination_by re - rs

/-- The loop of the PLRU branch of `find_victim` stays in an array of `size` bits. -/
def victimInside (bits : Nat → UInt32) (size base rs re node : Nat) : Bool :=
  if 1 < re - rs then
    let mid := (rs + re) / 2
    decide (base + node < size) &&
      if bits (base + node) = 0 then victimInside bits size base rs mid (2 * node + 1)
      else victimInside bits size base mid re (2 * node + 2)
  else true
termination_by re - rs

namespace Cache

/-- The bits that `cache_init` allocates. -/
def plruSize (c : Cache) : Nat := c.geom.numSets.toNat * (c.ways - 1)

def updateInside (c : Cache) (setIndex way : Nat) : Bool :=
  if c.ways ≤ 1 ∨ c.plruBits = none then true
  else pointInside c.plruSize (setIndex * (c.ways - 1)) way 0 c.ways 0

def findInside (c : Cache) (setIndex : Nat) : Bool :=
  match (List.range c.ways).find? fun w => !(c.lines (setIndex * c.ways + w)).valid with
  | some _ => true
  | none =>
    match c.replacePolicy, c.plruBits with
    | .plru, some bits => victimInside bits c.plruSize (setIndex * (c.ways - 1)) 0 c.ways 0
    | _, _ => true

end Cache

/-- The access stays in the PLRU bits. -/
def CacheAccess.inside (c : Cache) (a : CacheAccess) : Bool :=
  let si := c.setOf a.addr
  match cacheLookup c a.addr with
  | some idx =>
    match a with
    | .read _ _ => c.updateInside si (idx % c.ways)
    | .write _ _ _ => true
  | none =>
    if a.allocates c then c.findInside si && c.updateInside si (findVictim c si a.rand) else true

/-! ## The addresses installed -/

/-- The cache and, for every slot, the address whose access filled it last. -/
structure LoggedCache where
  cache : Cache
  installed : Nat → Option UInt32

namespace LoggedCache

def fresh (c : Cache) : LoggedCache := ⟨c, fun _ => none⟩

def step (t : LoggedCache) (a : CacheAccess) : LoggedCache where
  cache := a.apply t.cache
  installed :=
    if a.fills t.cache then
      Function.update t.installed (t.cache.victimIdx a.addr a.rand) (some a.addr)
    else t.installed

/-- The `line_size`-aligned line of an address. -/
def lineOf (t : LoggedCache) (addr : UInt32) : UInt32 := addr / t.cache.geom.lineSize

/-- A hit is of a slot that an access of the line installed, and no set has a line twice. -/
structure Sound (t : LoggedCache) : Prop where
  hit : ∀ addr idx, cacheLookup t.cache addr = some idx →
    ∃ a, t.installed idx = some a ∧ t.lineOf a = t.lineOf addr
  once : ∀ i j a b, i / t.cache.ways = j / t.cache.ways →
    (t.cache.lines i).valid = true → (t.cache.lines j).valid = true →
    t.installed i = some a → t.installed j = some b → t.lineOf a = t.lineOf b → i = j

end LoggedCache

/-! ## An access -/

section Access

variable {c : Cache} {a : CacheAccess}

/-- An access leaves the lines' tags, or takes the slot that it logs. -/
theorem CacheAccess.apply_cases (pos : 0 < c.ways) :
    (a.fills c = false ∧ Touched c (a.apply c)) ∨
      (a.fills c = true ∧ cacheLookup c a.addr = none ∧
        Filled c (a.apply c) a.addr (c.victimIdx a.addr a.rand)) := by
  unfold CacheAccess.fills
  cases look : cacheLookup c a.addr with
  | some idx =>
    left
    refine ⟨rfl, ?_⟩
    cases a with
    | read addr rand => exact cacheRead_hit look rand
    | write addr value rand => exact cacheWrite_hit look value rand
  | none =>
    cases a with
    | read addr rand => exact .inr ⟨rfl, rfl, cacheRead_miss pos look rand⟩
    | write addr value rand =>
      by_cases policy : c.writePolicy = .writeThroughNoAlloc
      · left
        refine ⟨?_, cacheWrite_bypass policy look value rand⟩
        simp [CacheAccess.allocates, policy]
      · right
        refine ⟨?_, rfl, cacheWrite_miss pos policy look value rand⟩
        simp [CacheAccess.allocates, policy]

end Access

/-! ## Set and tag of an address -/

section Address

variable {c : Cache} {addr a b : UInt32}

/-- The bits of the offset. -/
def CacheGeometry.offsetBits (geom : CacheGeometry) : Nat := Nat.log2 geom.lineSize.toNat

/-- The bits of the set index. -/
def CacheGeometry.setBits (geom : CacheGeometry) : Nat := Nat.log2 geom.numSets.toNat

/-- A line of at most 256 bytes has at most eight bits of offset. -/
theorem CacheGeometry.Accepted.offsetBits_le {geom : CacheGeometry} (h : geom.Accepted) :
    geom.offsetBits ≤ 8 := by
  have bounds := h.bounds
  have lt : geom.offsetBits < 9 := (Nat.log2_lt (by omega)).2 (by omega)
  omega

/-- At most 1024 sets have at most ten bits of index. -/
theorem CacheGeometry.Accepted.setBits_le {geom : CacheGeometry} (h : geom.Accepted) :
    geom.setBits ≤ 10 := by
  have bounds := h.bounds
  have lt : geom.setBits < 11 := (Nat.log2_lt (by omega)).2 (by omega)
  omega

/-- Such a number of bits is not cut off. -/
theorem toNat_bitCount {k : Nat} (le : k ≤ 10) : (UInt32.ofNat k).toNat = k := by
  rw [UInt32.toNat_ofNat']
  exact Nat.mod_eq_of_lt (by omega)

/-- The set of an address, over numbers. -/
theorem Cache.setOf_eq (h : c.geom.Accepted) (addr : UInt32) :
    c.setOf addr = (addr.toNat / 2 ^ c.geom.offsetBits) &&& (c.geom.numSets.toNat - 1) := by
  have offset := h.offsetBits_le
  have one : (1 : UInt32) ≤ c.geom.numSets := by
    rw [UInt32.le_iff_toNat_le]
    exact h.bounds.2.2.1
  have amount : (UInt32.ofNat c.geom.offsetBits).toNat % 32 = c.geom.offsetBits := by
    rw [toNat_bitCount (by omega), Nat.mod_eq_of_lt (by omega)]
  show ((addr >>> UInt32.ofNat c.geom.offsetBits) &&& (c.geom.numSets - 1)).toNat = _
  rw [UInt32.toNat_and, UInt32.toNat_shiftRight, amount, UInt32.toNat_sub_of_le _ _ one,
    Nat.shiftRight_eq_div_pow]
  rfl

/-- The tag of an address, over numbers. -/
theorem Cache.tagOf_eq (h : c.geom.Accepted) (addr : UInt32) :
    (c.tagOf addr).toNat = addr.toNat / 2 ^ c.geom.offsetBits / 2 ^ c.geom.setBits := by
  have offset := h.offsetBits_le
  have sets := h.setBits_le
  have amount : (UInt32.ofNat c.geom.offsetBits + UInt32.ofNat c.geom.setBits).toNat % 32 = c.geom.offsetBits + c.geom.setBits := by
    rw [UInt32.toNat_add, toNat_bitCount (by omega), toNat_bitCount sets]
    omega
  show (addr >>> (UInt32.ofNat c.geom.offsetBits + UInt32.ofNat c.geom.setBits)).toNat = _
  rw [UInt32.toNat_shiftRight, amount, Nat.shiftRight_eq_div_pow, Nat.pow_add, Nat.div_div_eq_div_mul]

/-- The set of an address is one of the sets. -/
theorem Cache.setOf_lt (h : c.geom.Accepted) (addr : UInt32) : c.setOf addr < c.geom.numSets.toNat := by
  have bounds := h.bounds
  have le : c.setOf addr ≤ c.geom.numSets.toNat - 1 := by
    rw [Cache.setOf_eq h]
    exact Nat.and_le_right
  omega

/-- Where line size and number of sets are powers of two, set and tag tell the lines apart. -/
theorem Cache.sameLine_iff (h : c.geom.Accepted) (line : c.geom.lineSize.toNat = 2 ^ c.geom.offsetBits)
    (sets : c.geom.numSets.toNat = 2 ^ c.geom.setBits) :
    c.SameLine a b ↔ a / c.geom.lineSize = b / c.geom.lineSize := by
  unfold Cache.SameLine
  rw [← UInt32.toNat_inj, ← UInt32.toNat_inj, Cache.tagOf_eq h, Cache.tagOf_eq h, Cache.setOf_eq h,
    Cache.setOf_eq h, UInt32.toNat_div, UInt32.toNat_div, line, sets, Nat.and_two_pow_sub_one_eq_mod,
    Nat.and_two_pow_sub_one_eq_mod]
  constructor
  · rintro ⟨set, tag⟩
    rw [← Nat.div_add_mod (a.toNat / 2 ^ c.geom.offsetBits) (2 ^ c.geom.setBits), set, tag, Nat.div_add_mod]
  · intro same
    rw [same]
    exact ⟨rfl, rfl⟩

end Address

/-! ## Walks over the PLRU bits -/

section Walks

variable {c : Cache} {size assoc base rs re node k way : Nat} {bits : Nat → UInt32}

/-- The walks over the ways of a set, a power of two, stay in the bits of the set. -/
theorem pointInside_of_pow (span : re = rs + 2 ^ k) (inside : (node + 2) * 2 ^ k ≤ 2 * assoc)
    (fits : base + (assoc - 1) ≤ size) : pointInside size base way rs re node = true := by
  induction k generalizing rs re node with
  | zero =>
    unfold pointInside
    rw [if_neg (by omega)]
  | succ k ih =>
    obtain ⟨node_lt, left, right⟩ := plru_children inside
    have pos : 0 < 2 ^ k := Nat.two_pow_pos k
    have half : (rs + re) / 2 = rs + 2 ^ k := by omega
    unfold pointInside
    rw [if_pos (by omega), half, Bool.and_eq_true, decide_eq_true_eq]
    refine ⟨by omega, ?_⟩
    split
    · exact ih rfl left
    · exact ih (by omega) right

/-- With a power of two of ways below it, the search of a subtree stays in the bits, by induction on the exponent. -/
theorem victimInside_of_pow (span : re = rs + 2 ^ k) (inside : (node + 2) * 2 ^ k ≤ 2 * assoc)
    (fits : base + (assoc - 1) ≤ size) : victimInside bits size base rs re node = true := by
  induction k generalizing rs re node with
  | zero =>
    unfold victimInside
    rw [if_neg (by omega)]
  | succ k ih =>
    obtain ⟨node_lt, left, right⟩ := plru_children inside
    have pos : 0 < 2 ^ k := Nat.two_pow_pos k
    have half : (rs + re) / 2 = rs + 2 ^ k := by omega
    unfold victimInside
    rw [if_pos (by omega), half, Bool.and_eq_true, decide_eq_true_eq]
    refine ⟨by omega, ?_⟩
    split
    · exact ih rfl left
    · exact ih (by omega) right

/-- A walk to the last of several ways, when it stays inside, is as deep as the bits allow. -/
theorem pow_of_pointInside (many : 1 < re - rs) (last : re ≤ way + 1)
    (inside : pointInside size base way rs re node = true) :
    ∃ k, re - rs ≤ 2 ^ (k + 1) ∧ base + (node + 2) * 2 ^ k ≤ size + 1 := by
  induction span : re - rs using Nat.strong_induction_on generalizing rs node with
  | _ n ih =>
    unfold pointInside at inside
    rw [if_pos many, Bool.and_eq_true, decide_eq_true_eq, if_neg (by omega)] at inside
    obtain ⟨node_lt, rest⟩ := inside
    by_cases one : re - (rs + re) / 2 ≤ 1
    · exact ⟨0, by omega, by omega⟩
    · obtain ⟨k, ways, bound⟩ := ih (re - (rs + re) / 2) (by omega) (by omega) rest rfl
      refine ⟨k + 1, ?_, ?_⟩
      · rw [Nat.pow_succ]
        omega
      · have twice : (node + 2) * 2 ^ (k + 1) = (2 * node + 2 + 2) * 2 ^ k := by
          rw [Nat.pow_succ', ← Nat.mul_assoc, Nat.mul_comm _ 2]
          rfl
        omega

/-- All sets have their bits in the array. -/
theorem Cache.setBase_le (h : c.geom.Accepted) (addr : UInt32) :
    c.setOf addr * (c.ways - 1) + (c.ways - 1) ≤ c.plruSize := by
  have lt := Cache.setOf_lt h addr
  calc c.setOf addr * (c.ways - 1) + (c.ways - 1) = (c.setOf addr + 1) * (c.ways - 1) := by
        rw [Nat.add_mul, Nat.one_mul]
    _ ≤ c.plruSize := Nat.mul_le_mul_right _ lt

/-- Without PLRU, or with a power of two of ways, every access stays in the bits. -/
theorem CacheAccess.inside_of_pow (h : c.geom.Accepted)
    (ways : c.plruBits.isSome = true → ∃ k, c.ways = 2 ^ k) (a : CacheAccess) : a.inside c = true := by
  have fits := Cache.setBase_le h a.addr
  have update (way : Nat) : c.updateInside (c.setOf a.addr) way = true := by
    unfold Cache.updateInside
    split
    · rfl
    · rename_i many
      obtain ⟨k, pow⟩ := ways (Option.isSome_iff_ne_none.2 fun none => many (.inr none))
      exact pointInside_of_pow (k := k) (by omega) (by omega) fits
  have find : c.findInside (c.setOf a.addr) = true := by
    unfold Cache.findInside
    split
    · rfl
    split
    · rename_i bits _ some
      obtain ⟨k, pow⟩ := ways (by rw [some]; rfl)
      exact victimInside_of_pow (k := k) (by omega) (by omega) fits
    · rfl
  unfold CacheAccess.inside
  dsimp only
  split
  · cases a with
    | read addr rand => exact update _
    | write addr value rand => rfl
  · split
    · rw [find, update]
      rfl
    · rfl

/-- The PLRU bits are allocated once and for all. -/
theorem plruUpdate_isSome (c : Cache) (s w : Nat) :
    (plruUpdate c s w).plruBits.isSome = c.plruBits.isSome := by
  unfold plruUpdate
  split
  · rfl
  · exact Option.isSome_map

/-- A fill allocates no PLRU bits. -/
theorem cacheFill_isSome (c : Cache) (addr : UInt32) (rand : Nat) (dirty : Bool) (mesi : MESIState) :
    (cacheFill c addr rand dirty mesi).plruBits.isSome = c.plruBits.isSome := by
  unfold cacheFill
  dsimp only
  rw [plruUpdate_isSome]
  split <;> rfl

/-- An access allocates no PLRU bits. -/
theorem CacheAccess.apply_isSome (c : Cache) (a : CacheAccess) :
    (a.apply c).plruBits.isSome = c.plruBits.isSome := by
  cases a with
  | read addr rand =>
    unfold CacheAccess.apply cacheRead
    dsimp only
    split
    · rw [plruUpdate_isSome]
      rfl
    · rw [cacheFill_isSome]
  | write addr value rand =>
    unfold CacheAccess.apply cacheWrite
    dsimp only
    split
    · rfl
    · split
      · rw [cacheFill_isSome]
      · rw [cacheFill_isSome]
      · rfl

end Walks

/-! ## Runs -/

/-- Every valid line is that of the address logged for its slot, and no line is in two slots. -/
structure LoggedCache.Inv (init : Cache) (t : LoggedCache) : Prop where
  geom : t.cache.geom = init.geom
  plru : t.cache.plruBits.isSome = init.plruBits.isSome
  installed : ∀ k, (t.cache.lines k).valid = true → ∃ a, t.installed k = some a ∧ t.cache.Covers k a
  once : ∀ i j a, t.cache.Covers i a → t.cache.Covers j a → i = j

namespace LoggedCache

variable {init c : Cache} {t : LoggedCache} {geom : CacheGeometry} {rp : ReplacePolicy} {wp : WritePolicy}

/-- Every access keeps the invariant. -/
theorem Inv.step (h : Inv init t) (pos : 0 < init.ways) (a : CacheAccess) : Inv init (t.step a) := by
  have pos' : 0 < t.cache.ways := by
    unfold Cache.ways
    rw [h.geom]
    exact pos
  have plru : (t.step a).cache.plruBits.isSome = init.plruBits.isSome :=
    (CacheAccess.apply_isSome t.cache a).trans h.plru
  obtain ⟨hit, touched⟩ | ⟨miss, look, filled⟩ := CacheAccess.apply_cases (a := a) pos'
  · have same : (t.step a).installed = t.installed := if_neg (by rw [hit]; decide)
    refine ⟨touched.geom.trans h.geom, plru, fun k valid => ?_, fun i j b ci cj => ?_⟩
    · obtain ⟨b, log, covers⟩ := h.installed k ((touched.valid k).symm.trans valid)
      rw [same]
      exact ⟨b, log, (touched.covers_iff k b).2 covers⟩
    · exact h.once i j b ((touched.covers_iff i b).1 ci) ((touched.covers_iff j b).1 cj)
  · have log : (t.step a).installed =
        Function.update t.installed (t.cache.victimIdx a.addr a.rand) (some a.addr) := if_pos miss
    -- the line was in no slot before the miss
    have new {j : Nat} {b : UInt32} (same : t.cache.SameLine a.addr b) : ¬ t.cache.Covers j b := by
      intro covers
      exact lookup_eq_none.1 look j (covers.congr ⟨same.1.symm, same.2.symm⟩)
    refine ⟨filled.geom.trans h.geom, plru, fun k valid => ?_, fun i j b ci cj => ?_⟩
    · rw [log]
      rcases eq_or_ne k (t.cache.victimIdx a.addr a.rand) with rfl | ne
      · rw [Function.update_self]
        exact ⟨a.addr, rfl, filled.covers ⟨rfl, rfl⟩⟩
      · obtain ⟨b, eq, covers⟩ := h.installed k (by rw [← filled.others k ne]; exact valid)
        rw [Function.update_of_ne ne]
        exact ⟨b, eq, (filled.covers_other ne b).2 covers⟩
    · rcases eq_or_ne i (t.cache.victimIdx a.addr a.rand) with rfl | ni
      · rcases eq_or_ne j (t.cache.victimIdx a.addr a.rand) with rfl | nj
        · rfl
        · exact absurd ((filled.covers_other nj b).1 cj) (new (filled.sameLine_of_covers ci))
      · rcases eq_or_ne j (t.cache.victimIdx a.addr a.rand) with rfl | nj
        · exact absurd ((filled.covers_other ni b).1 ci) (new (filled.sameLine_of_covers cj))
        · exact h.once i j b ((filled.covers_other ni b).1 ci) ((filled.covers_other nj b).1 cj)

/-- A cache without valid lines is in the invariant. -/
theorem Inv.fresh (invalid : ∀ k, (init.lines k).valid = false) : Inv init (fresh init) where
  geom := rfl
  plru := rfl
  installed k valid := absurd (valid.symm.trans (invalid k)) (by decide)
  once i _ _ covers _ := absurd (covers.2.1.symm.trans (invalid i)) (by decide)

/-- The invariant gives sound hits, where the bits of the address cut out the line and the set. -/
theorem Inv.sound (h : Inv init t) (accepted : init.geom.Accepted)
    (line : init.geom.lineSize.toNat = 2 ^ init.geom.offsetBits)
    (sets : init.geom.numSets.toNat = 2 ^ init.geom.setBits) : Sound t := by
  have same {a b : UInt32} : t.cache.SameLine a b ↔ t.lineOf a = t.lineOf b := by
    rw [← h.geom] at accepted line sets
    exact Cache.sameLine_iff accepted line sets
  refine ⟨fun addr idx hit => ?_, fun i j a b _ vi vj la lb eq => ?_⟩
  · have covers := covers_of_lookup hit
    obtain ⟨a, log, own⟩ := h.installed idx covers.2.1
    exact ⟨a, log, same.1 (own.sameLine covers)⟩
  · obtain ⟨a', la', ca⟩ := h.installed i vi
    obtain ⟨b', lb', cb⟩ := h.installed j vj
    obtain rfl := Option.some.inj (la'.symm.trans la)
    obtain rfl := Option.some.inj (lb'.symm.trans lb)
    exact h.once i j b' (ca.congr (same.2 eq)) cb

/-! ## Runs that go wrong -/

/-- After one read, a hit shows that the two addresses are of one line. -/
theorem lineOf_eq_of_sound (pos : 0 < init.ways) (invalid : ∀ k, (init.lines k).valid = false)
    {x y : UInt32} (sound : Sound ((fresh init).step (.read x 0))) (same : init.SameLine x y) :
    x / init.geom.lineSize = y / init.geom.lineSize := by
  have miss : cacheLookup init x = none := by
    rw [lookup_eq_none]
    intro idx covers
    exact absurd (covers.2.1.symm.trans (invalid idx)) (by decide)
  have filled := cacheRead_miss pos miss 0
  have log : ((fresh init).step (.read x 0)).installed =
      Function.update (fun _ => none) (init.victimIdx x 0) (some x) := by
    apply if_pos
    show ((cacheLookup init x).isNone && true) = true
    rw [miss]
    rfl
  cases look : cacheLookup (cacheRead init x 0) y with
  | none => exact absurd (filled.covers same) (lookup_eq_none.1 look _)
  | some idx =>
    obtain ⟨a, eq, line⟩ := sound.hit y idx look
    have line : a / (cacheRead init x 0).geom.lineSize = y / (cacheRead init x 0).geom.lineSize := line
    rw [filled.geom] at line
    rw [log] at eq
    rcases eq_or_ne idx (init.victimIdx x 0) with rfl | ne
    · rw [Function.update_self] at eq
      rw [Option.some.inj eq]
      exact line
    · rw [Function.update_of_ne ne] at eq
      cases eq

/-- The last byte of a line and the first of the next are told apart by a power of two only. -/
theorem lineSize_pow_of_sound (accepted : init.geom.Accepted) (invalid : ∀ k, (init.lines k).valid = false)
    (sound : ∀ x, Sound ((fresh init).step (.read x 0))) :
    init.geom.lineSize.toNat = 2 ^ init.geom.offsetBits := by
  have bounds := accepted.bounds
  by_contra ne
  have le : 2 ^ init.geom.offsetBits ≤ init.geom.lineSize.toNat := Nat.log2_self_le (by omega)
  have lt : init.geom.lineSize.toNat < 2 ^ (init.geom.offsetBits + 1) := Nat.lt_log2_self
  rw [Nat.pow_succ] at lt
  have one : (1 : UInt32) ≤ init.geom.lineSize := by
    rw [UInt32.le_iff_toNat_le]
    show 1 ≤ _
    omega
  have before : (init.geom.lineSize - 1).toNat = init.geom.lineSize.toNat - 1 :=
    UInt32.toNat_sub_of_le _ _ one
  have cut : (init.geom.lineSize - 1).toNat / 2 ^ init.geom.offsetBits =
      init.geom.lineSize.toNat / 2 ^ init.geom.offsetBits := by
    rw [before, Nat.div_eq_of_lt_le (k := 1) (by omega) (by omega),
      Nat.div_eq_of_lt_le (k := 1) (by omega) (by omega)]
  have same : init.SameLine (init.geom.lineSize - 1) init.geom.lineSize := by
    unfold Cache.SameLine
    rw [← UInt32.toNat_inj, Cache.tagOf_eq accepted, Cache.tagOf_eq accepted, Cache.setOf_eq accepted,
      Cache.setOf_eq accepted, cut]
    exact ⟨rfl, rfl⟩
  have lines := lineOf_eq_of_sound bounds.2.1.1 invalid (sound _) same
  rw [← UInt32.toNat_inj, UInt32.toNat_div, UInt32.toNat_div, before, Nat.div_self (by omega),
    Nat.div_eq_of_lt (by omega)] at lines
  cases lines

/-- A number that is no power of two, less one, lacks a bit below its highest one. -/
theorem exists_testBit_false {n : Nat} (pos : 0 < n) (ne : n ≠ 2 ^ Nat.log2 n) :
    ∃ j < Nat.log2 n, (n - 1).testBit j = false := by
  by_contra all
  have le : 2 ^ Nat.log2 n ≤ n := Nat.log2_self_le (by omega)
  have lt : n < 2 ^ (Nat.log2 n + 1) := Nat.lt_log2_self
  have ones : n - 1 = 2 ^ (Nat.log2 n + 1) - 1 := by
    apply Nat.eq_of_testBit_eq
    intro i
    rw [Nat.testBit_two_pow_sub_one]
    rcases Nat.lt_trichotomy i (Nat.log2 n) with low | rfl | high
    · rw [decide_eq_true (by omega), ← Bool.not_eq_false]
      exact fun bit => all ⟨i, low, bit⟩
    · rw [decide_eq_true (by omega), Nat.testBit_eq_decide_div_mod_eq,
        Nat.div_eq_of_lt_le (k := 1) (by omega) (by omega)]
      rfl
    · rw [decide_eq_false (by omega)]
      apply Nat.testBit_lt_two_pow
      calc n - 1 < 2 ^ (Nat.log2 n + 1) := by omega
        _ ≤ 2 ^ i := Nat.pow_le_pow_right (by decide) high
  omega

/-- An index whose one bit the mask drops is taken for set and tag 0. -/
theorem numSets_pow_of_sound (accepted : init.geom.Accepted) (invalid : ∀ k, (init.lines k).valid = false)
    (line : init.geom.lineSize.toNat = 2 ^ init.geom.offsetBits)
    (sound : ∀ x, Sound ((fresh init).step (.read x 0))) :
    init.geom.numSets.toNat = 2 ^ init.geom.setBits := by
  have bounds := accepted.bounds
  by_contra ne
  obtain ⟨j, lt, bit⟩ := exists_testBit_false bounds.2.2.1 ne
  have index : 2 ^ j < 2 ^ init.geom.setBits := Nat.pow_lt_pow_right (by decide) lt
  have sets : 2 ^ init.geom.setBits ≤ init.geom.numSets.toNat := Nat.log2_self_le (by omega)
  have pos : 0 < 2 ^ j := Nat.two_pow_pos j
  have small : 2 ^ j * init.geom.lineSize.toNat ≤ 1024 * 256 := Nat.mul_le_mul (by omega) (by omega)
  have value : (UInt32.ofNat (2 ^ j * init.geom.lineSize.toNat)).toNat = 2 ^ j * init.geom.lineSize.toNat := by
    rw [UInt32.toNat_ofNat']
    exact Nat.mod_eq_of_lt (by omega)
  have cut : (UInt32.ofNat (2 ^ j * init.geom.lineSize.toNat)).toNat / 2 ^ init.geom.offsetBits = 2 ^ j := by
    rw [value, ← line]
    exact Nat.mul_div_cancel _ (by omega)
  have masked : 2 ^ j &&& (init.geom.numSets.toNat - 1) = 0 := by
    rw [Nat.two_pow_and, bit]
    simp
  have same : init.SameLine 0 (UInt32.ofNat (2 ^ j * init.geom.lineSize.toNat)) := by
    unfold Cache.SameLine
    rw [← UInt32.toNat_inj, Cache.tagOf_eq accepted, Cache.tagOf_eq accepted, Cache.setOf_eq accepted,
      Cache.setOf_eq accepted, cut, masked, Nat.div_eq_of_lt index]
    simp
  have lines := lineOf_eq_of_sound bounds.2.1.1 invalid (sound 0) same
  rw [← UInt32.toNat_inj, UInt32.toNat_div, UInt32.toNat_div, value, Nat.mul_div_cancel _ (by omega)] at lines
  have zero : (0 : UInt32).toNat / init.geom.lineSize.toNat = 0 := Nat.zero_div _
  omega

/-! A set is filled by reads of as many tags. The last one updates the bits on the way to the
right-most leaf. -/

/-- An address of tag `w` in the last set. -/
def lastSetAddr (geom : CacheGeometry) (w : Nat) : UInt32 :=
  UInt32.ofNat ((w * geom.numSets.toNat + (geom.numSets.toNat - 1)) * geom.lineSize.toNat)

def fillLastSet (geom : CacheGeometry) (n : Nat) : List CacheAccess :=
  (List.range n).map fun w => .read (lastSetAddr geom w) 0

section Filling

variable (accepted : c.geom.Accepted) (line : c.geom.lineSize.toNat = 2 ^ c.geom.offsetBits)
  (sets : c.geom.numSets.toNat = 2 ^ c.geom.setBits) {w : Nat} (lt : w < 16)
include accepted line lt

/-- The index of the `w`-th address for the last set, over numbers. -/
theorem lastSetAddr_index :
    (lastSetAddr c.geom w).toNat / 2 ^ c.geom.offsetBits = w * c.geom.numSets.toNat + (c.geom.numSets.toNat - 1) := by
  have bounds := accepted.bounds
  have tags : w * c.geom.numSets.toNat ≤ 16 * 1024 := Nat.mul_le_mul (by omega) (by omega)
  have small : (w * c.geom.numSets.toNat + (c.geom.numSets.toNat - 1)) * c.geom.lineSize.toNat ≤
      (16 * 1024 + 1024) * 256 := Nat.mul_le_mul (by omega) (by omega)
  unfold lastSetAddr
  rw [UInt32.toNat_ofNat', Nat.mod_eq_of_lt (by omega), ← line]
  exact Nat.mul_div_cancel _ (by omega)

include sets

/-- The `w`-th address for the last set is in that set. -/
theorem lastSetAddr_set : c.setOf (lastSetAddr c.geom w) = c.geom.numSets.toNat - 1 := by
  have pos := Nat.two_pow_pos c.geom.setBits
  rw [Cache.setOf_eq accepted, lastSetAddr_index accepted line lt, sets, Nat.and_two_pow_sub_one_eq_mod,
    Nat.mul_add_mod_of_lt (by omega)]

/-- The tag of the `w`-th address for the last set is `w`. -/
theorem lastSetAddr_tag : (c.tagOf (lastSetAddr c.geom w)).toNat = w := by
  have bounds := accepted.bounds
  rw [Cache.tagOf_eq accepted, lastSetAddr_index accepted line lt, ← sets, Nat.mul_comm,
    Nat.mul_add_div (by omega), Nat.div_eq_of_lt (by omega)]
  rfl

end Filling

/-- The first `n` ways of the last set hold the tags below `n`, the others are invalid. -/
structure FilledTo (init : Cache) (n : Nat) (c : Cache) : Prop where
  valid : ∀ w < init.ways, (c.lines ((init.geom.numSets.toNat - 1) * init.ways + w)).valid = decide (w < n)
  tag : ∀ w < n, (c.lines ((init.geom.numSets.toNat - 1) * init.ways + w)).tag.toNat = w

section Filling

variable (accepted : init.geom.Accepted) (line : init.geom.lineSize.toNat = 2 ^ init.geom.offsetBits)
  (sets : init.geom.numSets.toNat = 2 ^ init.geom.setBits) {n : Nat} (lt : n < init.ways)
include accepted line sets lt

/-- Where the set is filled to `n`, the read of tag `n` misses and takes way `n`. -/
theorem FilledTo.miss (geom : c.geom = init.geom) (filled : FilledTo init n c) :
    cacheLookup c (lastSetAddr init.geom n) = none ∧
      c.setOf (lastSetAddr init.geom n) = init.geom.numSets.toNat - 1 ∧
      findVictim c (init.geom.numSets.toNat - 1) 0 = n := by
  have bounds := accepted.bounds
  have ways : init.ways = init.geom.associativity.toNat := rfl
  have ways' : c.ways = init.ways := by
    unfold Cache.ways
    rw [geom]
  rw [← geom] at accepted line sets
  have set := lastSetAddr_set accepted line sets (w := n) (by omega)
  have tag := lastSetAddr_tag accepted line sets (w := n) (by omega)
  rw [geom] at set tag
  refine ⟨?_, set, ?_⟩
  · rw [lookup_eq_none]
    rintro idx ⟨⟨w, w_lt, rfl⟩, valid, same⟩
    rw [set, ways'] at valid same
    rw [ways'] at w_lt
    rw [filled.valid w w_lt, decide_eq_true_eq] at valid
    have own := filled.tag w valid
    rw [same, tag] at own
    omega
  · have find : (List.range c.ways).find? (fun w =>
        !(c.lines ((init.geom.numSets.toNat - 1) * c.ways + w)).valid) = some n := by
      rw [List.find?_range_eq_some, ways', List.mem_range, filled.valid n lt]
      refine ⟨by simp, lt, fun j j_lt => ?_⟩
      rw [filled.valid j (by omega), decide_eq_true j_lt]
      rfl
    unfold findVictim
    dsimp only
    rw [find]

/-- One more read fills one more way. -/
theorem FilledTo.read (geom : c.geom = init.geom) (filled : FilledTo init n c) :
    FilledTo init (n + 1) (cacheRead c (lastSetAddr init.geom n) 0) := by
  obtain ⟨look, set, way⟩ := filled.miss accepted line sets lt geom
  have bounds := accepted.bounds
  have ways : init.ways = init.geom.associativity.toNat := rfl
  have ways' : c.ways = init.ways := by
    unfold Cache.ways
    rw [geom]
  have fill := cacheRead_miss (by omega) look 0
  have slot : c.victimIdx (lastSetAddr init.geom n) 0 = (init.geom.numSets.toNat - 1) * init.ways + n := by
    unfold Cache.victimIdx
    rw [set, way, ways']
  rw [slot] at fill
  have tag : (c.tagOf (lastSetAddr init.geom n)).toNat = n := by
    rw [← geom] at accepted line sets ⊢
    exact lastSetAddr_tag accepted line sets (by omega)
  constructor
  · intro w w_lt
    rcases eq_or_ne w n with rfl | ne
    · rw [fill.valid, decide_eq_true (Nat.lt_succ_self w)]
    · rw [fill.others _ (by omega), filled.valid w w_lt, decide_eq_decide]
      omega
  · intro w w_lt
    rcases eq_or_ne w n with rfl | ne
    · rw [fill.tag, tag]
    · rw [fill.others _ (by omega)]
      exact filled.tag w (by omega)

end Filling

/-- The reads fill the ways of the last set in order. -/
theorem filledTo_run (accepted : init.geom.Accepted) (invalid : ∀ k, (init.lines k).valid = false)
    (line : init.geom.lineSize.toNat = 2 ^ init.geom.offsetBits)
    (sets : init.geom.numSets.toNat = 2 ^ init.geom.setBits) {n : Nat} (le : n ≤ init.ways) :
    FilledTo init n (run step (fresh init) (fillLastSet init.geom n)).cache := by
  induction n with
  | zero =>
    refine ⟨fun w _ => ?_, fun w lt => absurd lt (Nat.not_lt_zero w)⟩
    exact invalid _
  | succ n ih =>
    have inv : Inv init (run step (fresh init) (fillLastSet init.geom n)) :=
      run_invariant (fun _ a h => h.step accepted.bounds.2.1.1 a) (Inv.fresh invalid) _
    unfold fillLastSet
    rw [List.range_succ, List.map_append, List.map_singleton, run_snoc]
    exact (ih (by omega)).read accepted line sets le inv.geom

/-- With PLRU and no power of two of ways, the last read that fills a set leaves the bits. -/
theorem ways_pow_of_inside (accepted : init.geom.Accepted) (invalid : ∀ k, (init.lines k).valid = false)
    (line : init.geom.lineSize.toNat = 2 ^ init.geom.offsetBits)
    (sets : init.geom.numSets.toNat = 2 ^ init.geom.setBits) (plru : init.plruBits.isSome = true)
    (inside : Guarded step (fun t a => a.inside t.cache = true) (fresh init) (fillLastSet init.geom init.ways)) :
    ∃ k, init.ways = 2 ^ k := by
  have pos : 0 < init.ways := accepted.bounds.2.1.1
  by_cases one : init.ways = 1
  · exact ⟨0, one⟩
  obtain ⟨n, eq⟩ : ∃ n, init.ways = n + 1 := ⟨init.ways - 1, by omega⟩
  have inv : Inv init (run step (fresh init) (fillLastSet init.geom n)) :=
    run_invariant (fun _ a h => h.step pos a) (Inv.fresh invalid) _
  have filled := filledTo_run accepted invalid line sets (n := n) (by omega)
  obtain ⟨look, set, way⟩ := filled.miss accepted line sets (by omega) inv.geom
  unfold fillLastSet at inside
  rw [eq, List.range_succ, List.map_append, List.map_singleton, guarded_append] at inside
  have last : CacheAccess.inside (run step (fresh init) (fillLastSet init.geom n)).cache
      (.read (lastSetAddr init.geom n) 0) = true := inside.2.1
  have geom : (run step (fresh init) (fillLastSet init.geom n)).cache.geom = init.geom := inv.geom
  have some : (run step (fresh init) (fillLastSet init.geom n)).cache.plruBits.isSome = true := inv.plru.trans plru
  generalize (run step (fresh init) (fillLastSet init.geom n)).cache = c at last look set way geom some
  have update : c.updateInside (init.geom.numSets.toNat - 1) n = true := by
    unfold CacheAccess.inside at last
    dsimp only [CacheAccess.addr, CacheAccess.rand] at last
    rw [look, set, way] at last
    exact (Bool.and_eq_true_iff.1 last).2
  have ways : c.ways = n + 1 := by
    rw [← eq]
    unfold Cache.ways
    rw [geom]
  have size : c.plruSize = (init.geom.numSets.toNat - 1) * n + n := by
    have sets_pos := accepted.bounds.2.2.1
    unfold Cache.plruSize
    rw [ways, geom]
    calc init.geom.numSets.toNat * n = (init.geom.numSets.toNat - 1 + 1) * n := by
          rw [Nat.sub_add_cancel sets_pos]
      _ = (init.geom.numSets.toNat - 1) * n + n := by rw [Nat.add_mul, Nat.one_mul]
  have none : c.plruBits ≠ none := Option.isSome_iff_ne_none.1 some
  have many : ¬ (n + 1 ≤ 1 ∨ c.plruBits = Option.none) := by
    rintro (few | eq)
    · omega
    · exact none eq
  unfold Cache.updateInside at update
  rw [ways, if_neg many, size] at update
  obtain ⟨k, depth, bound⟩ := pow_of_pointInside (by omega) (Nat.le_refl (n + 1)) update
  refine ⟨k + 1, ?_⟩
  rw [Nat.pow_succ] at depth ⊢
  have fits : (init.geom.numSets.toNat - 1) * (n + 1 - 1) = (init.geom.numSets.toNat - 1) * n := rfl
  omega

end LoggedCache

/-- A power of two is that of its `log2`. -/
theorem eq_two_pow_log2 {n : Nat} (h : n.isPowerOfTwo) : n = 2 ^ Nat.log2 n := by
  obtain ⟨k, eq⟩ := h
  rw [eq, Nat.log2_two_pow]

/-- Hits are of the line installed, no set has a line twice and the PLRU walks stay in their bits,
in all runs, if and only if line size and number of sets, and with PLRU the associativity, are
powers of two. -/
theorem cache_hits_sound_iff {geom : CacheGeometry} {rp : ReplacePolicy} {wp : WritePolicy} {c : Cache}
    (init : cacheInit geom rp wp = some c) :
    (∀ accesses, (run LoggedCache.step (.fresh c) accesses).Sound ∧
        Guarded LoggedCache.step (fun t a => a.inside t.cache = true) (.fresh c) accesses) ↔
      geom.lineSize.toNat.isPowerOfTwo ∧ geom.numSets.toNat.isPowerOfTwo ∧
        (rp = .plru → geom.associativity.toNat.isPowerOfTwo) := by
  obtain ⟨accepted, rfl, -, plru, invalid⟩ := cacheInit_some init
  have pos : 0 < c.ways := accepted.bounds.2.1.1
  constructor
  · intro all
    have line := LoggedCache.lineSize_pow_of_sound accepted invalid fun x => (all [.read x 0]).1
    have sets := LoggedCache.numSets_pow_of_sound accepted invalid line fun x => (all [.read x 0]).1
    refine ⟨⟨_, line⟩, ⟨_, sets⟩, fun policy => ?_⟩
    apply LoggedCache.ways_pow_of_inside accepted invalid line sets
    · rw [plru, policy]
      rfl
    · exact (all _).2
  · rintro ⟨line, sets, ways⟩ accesses
    have inv (accesses : List CacheAccess) : LoggedCache.Inv c (run LoggedCache.step (.fresh c) accesses) :=
      run_invariant (fun _ a h => h.step pos a) (LoggedCache.Inv.fresh invalid) accesses
    refine ⟨(inv accesses).sound accepted (eq_two_pow_log2 line) (eq_two_pow_log2 sets), ?_⟩
    rw [guarded_iff_splits]
    rintro before a rest -
    have h := inv before
    apply CacheAccess.inside_of_pow
    · rw [h.geom]
      exact accepted
    · intro some
      rw [h.plru, plru, decide_eq_true_eq] at some
      unfold Cache.ways
      rw [h.geom]
      exact ways some

/-- Three ways with PLRU: some run leaves the bits of its two nodes. -/
theorem cache_hits_sound_iff_plru :
    ∃ c, cacheInit ⟨192, 16, 3, 4⟩ .plru .writeBackAlloc = some c ∧
      ¬ ∀ accesses, (run LoggedCache.step (.fresh c) accesses).Sound ∧
        Guarded LoggedCache.step (fun t a => a.inside t.cache = true) (.fresh c) accesses := by
  obtain ⟨c, made⟩ : ∃ c, cacheInit ⟨192, 16, 3, 4⟩ .plru .writeBackAlloc = some c := ⟨_, rfl⟩
  refine ⟨c, made, fun all => ?_⟩
  have ways := ((cache_hits_sound_iff made).1 all).2.2 rfl
  exact absurd ways (by decide)

/-- With lines of 12 bytes, byte 12 is hit after a read of byte 8. With three sets of lines of 16
bytes, the second line is hit after a read of the first. -/
theorem cache_hits_unsound :
    (∃ c, cacheInit ⟨48, 12, 2, 2⟩ .lru .writeBackAlloc = some c ∧
        ¬ (run LoggedCache.step (.fresh c) [.read 8 0]).Sound) ∧
      ∃ c, cacheInit ⟨96, 16, 2, 3⟩ .lru .writeBackAlloc = some c ∧
        ¬ (run LoggedCache.step (.fresh c) [.read 0 0]).Sound := by
  constructor
  · refine ⟨_, rfl, fun sound => ?_⟩
    obtain ⟨a, log, line⟩ := sound.hit 12 2 (by decide)
    obtain rfl : 8 = a := Option.some.inj log
    exact absurd line (by decide)
  · refine ⟨_, rfl, fun sound => ?_⟩
    obtain ⟨a, log, line⟩ := sound.hit 16 0 (by decide)
    obtain rfl : 0 = a := Option.some.inj log
    exact absurd line (by decide)

end MiniHardware.Cpu
