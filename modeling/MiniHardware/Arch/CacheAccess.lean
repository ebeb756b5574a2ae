import MiniHardware.Arch.Cache
import Mathlib.Order.Defs.LinearOrder

/-!
# What one access does

For a set that fits its `CacheSet`, and a copy within the data of a line, a read
or a write has a result. It touches one way: the one with the tag on a hit, and
on a miss a free way, or the victim of the policy when there is none.
-/

namespace MiniHardware.Arch
open Lib

inductive CacheAccess where
  | read (address : UInt32) (dataOut : Bool) (rand : Nat)
  | write (address : UInt32) (dataIn : Option (Nat → UInt8)) (rand : Nat)

namespace CacheAccess

def address : CacheAccess → UInt32
  | read address _ _ => address
  | write address _ _ => address

def isWrite : CacheAccess → Bool
  | read _ _ _ => false
  | write _ _ _ => true

/-- The access comes with a data pointer. -/
def copies : CacheAccess → Bool
  | read _ dataOut _ => dataOut
  | write _ dataIn _ => dataIn.isSome

def tag (a : CacheAccess) (c : Cache) : UInt32 :=
  (cacheDecomposeAddress c.lineSize c.numSets a.address).1

def index (a : CacheAccess) (c : Cache) : UInt32 :=
  (cacheDecomposeAddress c.lineSize c.numSets a.address).2.1

/-- The eight bytes from the address on stay within the 64 of a line, or are not asked for. -/
def InBounds (a : CacheAccess) (lineSize : UInt32) : Prop :=
  a.copies = true → Fits lineSize (a.address &&& ((1 <<< log2U32 lineSize) - 1))

instance inBoundsDecidable (a : CacheAccess) (lineSize : UInt32) : Decidable (a.InBounds lineSize) :=
  inferInstanceAs (Decidable (_ → _))

/-- The set has the line of the access. -/
def Present (a : CacheAccess) (c : Cache) : Prop :=
  ∃ i < c.associativity.toNat, (c.lines (a.index c).toNat i).valid = true ∧
    (c.lines (a.index c).toNat i).tag = a.tag c

/-- What is copied stays within the 64 bytes of the line; a read that misses copies nothing. -/
def CopiesInside (a : CacheAccess) (c : Cache) : Prop :=
  a.isWrite = true ∨ a.Present c → a.InBounds c.lineSize

end CacheAccess

/-- Hit or miss, and the cache. -/
def cacheAccess (c : Cache) : CacheAccess → Option (Bool × Cache)
  | .read address dataOut rand =>
    (cacheRead c address dataOut rand).map fun (hit, _, c) => (hit, c)
  | .write address dataIn rand => cacheWrite c address dataIn rand

def accessStep (c : Cache) (a : CacheAccess) : Option Cache := (cacheAccess c a).map Prod.snd

/-! ## The configuration -/

/-- The set is not empty, and a `CacheSet` has room for it. -/
def WaysFit (c : Cache) : Prop :=
  0 < c.associativity.toNat ∧ c.associativity.toNat ≤ cacheMaxAssociativity

/-- What `cache_init` sets once. -/
structure SameConfig (c c' : Cache) : Prop where
  numSets : c'.numSets = c.numSets
  associativity : c'.associativity = c.associativity
  lineSize : c'.lineSize = c.lineSize
  replacement : c'.replacement = c.replacement
  writePolicy : c'.writePolicy = c.writePolicy

/-- A cache has its own configuration. -/
theorem SameConfig.refl (c : Cache) : SameConfig c c := ⟨rfl, rfl, rfl, rfl, rfl⟩

/-- The configuration is carried along a chain of caches. -/
theorem SameConfig.trans {a b c : Cache} (h : SameConfig a b) (k : SameConfig b c) : SameConfig a c :=
  ⟨k.numSets.trans h.numSets, k.associativity.trans h.associativity, k.lineSize.trans h.lineSize,
    k.replacement.trans h.replacement, k.writePolicy.trans h.writePolicy⟩

/-- Whether the ways fit is a matter of the configuration alone. -/
theorem SameConfig.waysFit {c c' : Cache} (h : SameConfig c c') (fit : WaysFit c) : WaysFit c' := by
  unfold WaysFit
  rw [h.associativity]
  exact fit

/-! ## Ways -/

/-- A search that fails nowhere. -/
theorem findM?_some {α : Type} {f : α → Option Bool} {p : α → Bool} {l : List α}
    (defined : ∀ x ∈ l, f x = some (p x)) : l.findM? f = some (l.find? p) := by
  induction l with
  | nil => rfl
  | cons x l ih =>
    rw [List.findM?, defined x List.mem_cons_self, List.find?_cons]
    cases p x with
    | true => rfl
    | false => exact ih fun y hy => defined y (List.mem_cons_of_mem x hy)

/-- Where the ways fit, the code's search is a search of the list of ways. -/
theorem findWay_eq {c : Cache} (fit : WaysFit c) (s : Nat) (p : CacheLine → Bool) :
    findWay c s p = some ((List.range c.associativity.toNat).find? fun i => p (c.lines s i)) := by
  apply findM?_some
  intro i mem
  have lt : i < cacheMaxAssociativity := (List.mem_range.1 mem).trans_le fit.2
  unfold wayAt
  rw [if_pos lt]
  rfl

/-- A way that was found is below the bound and passes the test. -/
theorem find_range_some {n i : Nat} {p : Nat → Bool} (h : (List.range n).find? p = some i) :
    i < n ∧ p i = true :=
  ⟨List.mem_range.1 (List.mem_of_find?_eq_some h), List.find?_some h⟩

/-- Where nothing was found, no way below the bound passes the test. -/
theorem find_range_none {n : Nat} {p : Nat → Bool} (h : (List.range n).find? p = none) :
    ∀ i < n, p i = false := by
  intro i lt
  have no := List.find?_eq_none.1 h i (List.mem_range.2 lt)
  simpa using no

/-- The running best of the scan is the counter of its index, at most the start and at most each counter
seen, and its index was either the start's or seen. -/
theorem foldl_leastStep (counter : Nat → UInt64) (l : List Nat) (best : UInt64 × Nat)
    (start : best.1 = counter best.2) :
    (l.foldl (leastStep counter) best).1 = counter (l.foldl (leastStep counter) best).2 ∧
      (l.foldl (leastStep counter) best).1 ≤ best.1 ∧
      (∀ j ∈ l, (l.foldl (leastStep counter) best).1 ≤ counter j) ∧
      ((l.foldl (leastStep counter) best).2 = best.2 ∨ (l.foldl (leastStep counter) best).2 ∈ l) := by
  induction l generalizing best with
  | nil => exact ⟨start, UInt64.le_refl _, fun j hj => absurd hj List.not_mem_nil, Or.inl rfl⟩
  | cons i l ih =>
    have one : (leastStep counter best i).1 = counter (leastStep counter best i).2 ∧
        (leastStep counter best i).1 ≤ best.1 ∧ (leastStep counter best i).1 ≤ counter i ∧
        ((leastStep counter best i).2 = best.2 ∨ (leastStep counter best i).2 = i) := by
      unfold leastStep
      split
      · rename_i less
        exact ⟨rfl, UInt64.le_of_lt less, UInt64.le_refl _, Or.inr rfl⟩
      · rename_i notLess
        exact ⟨start, UInt64.le_refl _, UInt64.not_lt.1 notLess, Or.inl rfl⟩
    obtain ⟨keep, below, least, place⟩ := ih (leastStep counter best i) one.1
    rw [List.foldl_cons]
    refine ⟨keep, UInt64.le_trans below one.2.1, ?_, ?_⟩
    · intro j hj
      rcases List.mem_cons.1 hj with rfl | hj
      · exact UInt64.le_trans below one.2.2.1
      · exact least j hj
    · rw [List.mem_cons]
      rcases place with eq | mem
      · rw [eq]
        exact one.2.2.2.imp_right Or.inl
      · exact Or.inr (Or.inr mem)

/-- The scan for the least counter finds a way of the set, and none has less. -/
theorem leastWay_spec (counter : Nat → UInt64) {n : Nat} (pos : 0 < n) :
    leastWay counter n < n ∧ ∀ j < n, counter (leastWay counter n) ≤ counter j := by
  obtain ⟨keep, below, least, place⟩ := foldl_leastStep counter (List.range' 1 (n - 1)) (counter 0, 0) rfl
  unfold leastWay
  rw [keep] at below least
  constructor
  · rcases place with eq | mem
    · rw [eq]
      exact pos
    · have lt := List.mem_range'_1.1 mem
      omega
  · intro j lt
    rcases Nat.eq_zero_or_pos j with rfl | pos'
    · exact below
    · exact least j (List.mem_range'_1.2 (by omega))

/-! ## The victim -/

/-- Way `i` is one that a miss may fill. -/
def Victim (c : Cache) (s i : Nat) : Prop :=
  (c.lines s i).valid = false ∨
    (∀ j < c.associativity.toNat, (c.lines s j).valid = true) ∧
      (c.replacement = .lru →
        ∀ j < c.associativity.toNat, (c.lines s i).lruCounter ≤ (c.lines s j).lruCounter)

/-- Where the ways fit, the policy has a candidate, and it is a victim in the sense of `Victim`. -/
theorem candidate_spec {c : Cache} (fit : WaysFit c) (s rand : Nat) :
    ∃ i < c.associativity.toNat, Victim c s i ∧ findReplacementCandidate c s rand = some i := by
  unfold findReplacementCandidate
  rw [findWay_eq fit, Option.bind_eq_bind, Option.bind_some]
  cases found : (List.range c.associativity.toNat).find? fun i => !(c.lines s i).valid with
  | some i =>
    obtain ⟨lt, free⟩ := find_range_some found
    exact ⟨i, lt, Or.inl (by simpa using free), rfl⟩
  | none =>
    have full : ∀ j < c.associativity.toNat, (c.lines s j).valid = true := by
      intro j hj
      simpa using find_range_none found j hj
    dsimp only
    cases policy : c.replacement with
    | lru =>
      obtain ⟨lt, least⟩ := leastWay_spec (fun i => (c.lines s i).lruCounter) fit.1
      exact ⟨_, lt, Or.inr ⟨full, fun _ => least⟩, rfl⟩
    | fifo =>
      refine ⟨_, Nat.mod_lt _ fit.1, Or.inr ⟨full, fun eq => ?_⟩, rfl⟩
      rw [policy] at eq
      cases eq
    | random =>
      refine ⟨_, Nat.mod_lt _ fit.1, Or.inr ⟨full, fun eq => ?_⟩, rfl⟩
      rw [policy] at eq
      cases eq
    | lfu =>
      obtain ⟨lt, -⟩ := leastWay_spec (fun i => (c.lines s i).accessCount) fit.1
      refine ⟨_, lt, Or.inr ⟨full, fun eq => ?_⟩, rfl⟩
      rw [policy] at eq
      cases eq

/-- A fill takes a victim's way, counts what it evicts and sets the line. -/
theorem fillWay_spec {c : Cache} (fit : WaysFit c) (s : Nat) (tag : UInt32) (dirty : Bool) (rand : Nat) :
    ∃ i < c.associativity.toNat, Victim c s i ∧
      fillWay c s tag dirty rand = some (i,
        setWay { c with stats := evictStats c (c.lines s i) } s i
          { valid := true
            dirty := dirty
            tag := tag
            lruCounter := c.globalCounter
            accessCount := 1
            data := fun _ => 0 }) := by
  obtain ⟨i, lt, victim, found⟩ := candidate_spec fit s rand
  have way : wayAt c s i = some (c.lines s i) := if_pos (lt.trans_le fit.2)
  refine ⟨i, lt, victim, ?_⟩
  unfold fillWay
  rw [found, Option.bind_eq_bind, Option.bind_some, way]
  rfl

/-- An eviction counts a write-back for a valid dirty line under write-back, and otherwise none. -/
theorem evictStats_writebacks (c : Cache) (line : CacheLine) :
    (evictStats c line).writebacks =
      if line.valid ∧ line.dirty ∧ c.writePolicy = .writeBack then c.stats.writebacks + 1
      else c.stats.writebacks := by
  unfold evictStats
  split
  · rfl
  split
  · rfl
  · rfl

/-! ## Reads and writes -/

/-- The way that was set. -/
theorem setWay_get (c : Cache) (s i : Nat) (line : CacheLine) : (setWay c s i line).lines s i = line :=
  if_pos ⟨rfl, rfl⟩

/-- The lines after a way is set depend on the lines before alone. -/
theorem setWay_lines {c c' : Cache} (same : c'.lines = c.lines) (s i : Nat) (line : CacheLine) :
    (setWay c' s i line).lines = (setWay c s i line).lines := by
  unfold setWay
  rw [same]

/-- The second setting of a way counts. -/
theorem setWay_setWay (c : Cache) (s i : Nat) (line line' : CacheLine) :
    setWay (setWay c s i line) s i line' = setWay c s i line' := by
  unfold setWay
  congr 1
  funext s' i'
  dsimp only
  split
  · rfl
  · rfl

/-- Setting a way to the line it has changes nothing. -/
theorem setWay_self (c : Cache) (s i : Nat) : setWay c s i (c.lines s i) = c := by
  have same : (fun s' i' => if s' = s ∧ i' = i then c.lines s i else c.lines s' i') = c.lines := by
    funext s' i'
    split
    · rename_i eq
      rw [eq.1, eq.2]
    · rfl
  unfold setWay
  rw [same]

/-- A copy changes the data of the way and nothing else. -/
theorem storeData_spec {c : Cache} (s i : Nat) (offset : UInt32) (dataIn : Option (Nat → UInt8))
    (bounds : dataIn.isSome = true → Fits c.lineSize offset) :
    ∃ data, storeData c s i offset dataIn = some (setWay c s i { c.lines s i with data := data }) := by
  cases dataIn with
  | none =>
    refine ⟨(c.lines s i).data, ?_⟩
    rw [setWay_self]
    rfl
  | some src =>
    obtain ⟨data, copied⟩ : ∃ data, copyIn c.lineSize offset (c.lines s i).data src = some data :=
      ⟨_, if_pos (bounds rfl)⟩
    refine ⟨data, ?_⟩
    unfold storeData
    dsimp only
    rw [copied]
    rfl

/-- Either the first way with the tag is found, or there is none. -/
theorem findTag_cases {c : Cache} (fit : WaysFit c) (s : Nat) (tag : UInt32) :
    (∃ i < c.associativity.toNat, (c.lines s i).valid = true ∧ (c.lines s i).tag = tag ∧
      findTag c s tag = some (some i)) ∨
    (∀ j < c.associativity.toNat, ¬((c.lines s j).valid = true ∧ (c.lines s j).tag = tag)) ∧
      findTag c s tag = some none := by
  unfold findTag
  rw [findWay_eq fit]
  cases found : (List.range c.associativity.toNat).find? fun i =>
      (c.lines s i).valid && (c.lines s i).tag == tag with
  | some i =>
    obtain ⟨lt, both⟩ := find_range_some found
    rw [Bool.and_eq_true, beq_iff_eq] at both
    exact Or.inl ⟨i, lt, both.1, both.2, rfl⟩
  | none =>
    refine Or.inr ⟨fun j hj both => ?_, rfl⟩
    have no := find_range_none found j hj
    rw [both.1, both.2, beq_self_eq_true] at no
    cases no

/-- Hit or miss, and what becomes of the ways and of the count of writebacks. -/
inductive Effect (c : Cache) (a : CacheAccess) : Bool → Cache → Prop where
  | outside {c' : Cache} (out : c.numSets ≤ a.index c) (lines : c'.lines = c.lines)
      (writebacks : c'.stats.writebacks = c.stats.writebacks) : Effect c a false c'
  | hit {c' : Cache} {i : Nat} {line : CacheLine} (inside : a.index c < c.numSets)
      (lt : i < c.associativity.toNat) (valid : (c.lines (a.index c).toNat i).valid = true)
      (tag : (c.lines (a.index c).toNat i).tag = a.tag c)
      (lines : c'.lines = (setWay c (a.index c).toNat i line).lines)
      (valid' : line.valid = true) (tag' : line.tag = a.tag c)
      (dirty' : line.dirty = if a.isWrite then true else (c.lines (a.index c).toNat i).dirty)
      (stamp' : line.lruCounter = c.globalCounter + 1)
      (writebacks : c'.stats.writebacks =
        if a.isWrite ∧ c.writePolicy = .writeThrough then c.stats.writebacks + 1
        else c.stats.writebacks) : Effect c a true c'
  | miss {c' : Cache} {i : Nat} {line : CacheLine} (inside : a.index c < c.numSets)
      (absent : ∀ j < c.associativity.toNat, ¬((c.lines (a.index c).toNat j).valid = true ∧
        (c.lines (a.index c).toNat j).tag = a.tag c))
      (lt : i < c.associativity.toNat) (victim : Victim c (a.index c).toNat i)
      (lines : c'.lines = (setWay c (a.index c).toNat i line).lines)
      (valid' : line.valid = true) (tag' : line.tag = a.tag c)
      (dirty' : line.dirty = (a.isWrite && c.writePolicy == .writeBack))
      (stamp' : line.lruCounter = c.globalCounter + 1)
      (writebacks : c'.stats.writebacks =
        if (c.lines (a.index c).toNat i).valid ∧ (c.lines (a.index c).toNat i).dirty ∧
            c.writePolicy = .writeBack then c.stats.writebacks + 1
        else c.stats.writebacks) : Effect c a false c'

section Access

variable {c : Cache} {address : UInt32} {rand : Nat}

/-- A read hit has a result when its copy fits, and touches the way it hit. -/
theorem readHit_spec (s i : Nat) (offset : UInt32) (dataOut : Bool)
    (bounds : dataOut = true → Fits c.lineSize offset) :
    ∃ out, readHit c s i offset dataOut = some (true, out, hitWay c s i false) := by
  unfold readHit
  cases dataOut with
  | false => exact ⟨none, rfl⟩
  | true =>
    obtain ⟨out, copied⟩ : ∃ out, copyOut c.lineSize offset (c.lines s i).data = some out :=
      ⟨_, if_pos (bounds rfl)⟩
    refine ⟨some out, ?_⟩
    rw [if_pos rfl, copied]
    rfl

/-- A read whose copies fit has a result, keeps the configuration, advances the counter and has the effect
of `Effect`. -/
theorem cacheRead_spec (fit : WaysFit c) {dataOut : Bool}
    (bounds : (CacheAccess.read address dataOut rand).CopiesInside c) :
    ∃ hit c', cacheAccess c (.read address dataOut rand) = some (hit, c') ∧ SameConfig c c' ∧
      c'.globalCounter = c.globalCounter + 1 ∧ Effect c (.read address dataOut rand) hit c' := by
  unfold cacheAccess cacheRead
  dsimp only
  have fit' : WaysFit (countRead c) := fit
  rcases UInt32.lt_or_le (cacheDecomposeAddress c.lineSize c.numSets address).2.1 c.numSets with
    inside | out
  · rw [if_neg (c := _ ≥ (countRead c).numSets) (UInt32.not_le.2 inside)]
    rcases findTag_cases fit' (cacheDecomposeAddress c.lineSize c.numSets address).2.1.toNat
      (cacheDecomposeAddress c.lineSize c.numSets address).1 with
      ⟨i, lt, valid, tag, found⟩ | ⟨absent, found⟩
    · obtain ⟨out, read⟩ := readHit_spec (c := countRead c)
        (cacheDecomposeAddress c.lineSize c.numSets address).2.1.toNat i
        (cacheDecomposeAddress c.lineSize c.numSets address).2.2 dataOut (bounds (.inr ⟨i, lt, valid, tag⟩))
      rw [found, Option.bind_eq_bind, Option.bind_some]
      dsimp only
      rw [read]
      exact ⟨true, _, rfl, ⟨rfl, rfl, rfl, rfl, rfl⟩, rfl,
        .hit inside lt valid tag rfl valid tag rfl rfl rfl⟩
    · obtain ⟨i, lt, victim, filled⟩ := fillWay_spec (c := countMiss (countRead c)) fit
        (cacheDecomposeAddress c.lineSize c.numSets address).2.1.toNat
        (cacheDecomposeAddress c.lineSize c.numSets address).1 false rand
      rw [found, Option.bind_eq_bind, Option.bind_some]
      dsimp only
      unfold readMiss
      rw [filled]
      refine ⟨false, _, rfl, ⟨rfl, rfl, rfl, rfl, rfl⟩, rfl,
        .miss inside absent lt victim rfl rfl rfl rfl rfl ?_⟩
      exact evictStats_writebacks (countMiss (countRead c)) _
  · rw [if_pos (c := _ ≥ (countRead c).numSets) out]
    exact ⟨false, _, rfl, ⟨rfl, rfl, rfl, rfl, rfl⟩, rfl, .outside out rfl rfl⟩

/-- A write hit has a result when its copy fits; it sets the way it hit and no other. -/
theorem writeHit_spec (s i : Nat) (offset : UInt32) (dataIn : Option (Nat → UInt8))
    (bounds : dataIn.isSome = true → Fits c.lineSize offset) :
    ∃ c' line, writeHit c s i offset dataIn = some (true, c') ∧ SameConfig c c' ∧
      c'.globalCounter = c.globalCounter ∧ c'.lines = (setWay c s i line).lines ∧
      line.valid = (c.lines s i).valid ∧ line.tag = (c.lines s i).tag ∧ line.dirty = true ∧
      line.lruCounter = c.globalCounter ∧
      c'.stats.writebacks =
        if c.writePolicy = .writeThrough then c.stats.writebacks + 1 else c.stats.writebacks := by
  obtain ⟨data, stored⟩ := storeData_spec (c := hitWay c s i true) s i offset dataIn bounds
  unfold writeHit
  rw [stored, hitWay, setWay_setWay, setWay_get, Option.bind_eq_bind, Option.bind_some]
  by_cases policy : c.writePolicy = .writeThrough
  · rw [if_pos policy]
    exact ⟨_, _, congrArg (fun c => some (true, c)) (if_pos policy), ⟨rfl, rfl, rfl, rfl, rfl⟩, rfl,
      setWay_lines rfl s i _, rfl, rfl, rfl, rfl, rfl⟩
  · rw [if_neg policy]
    exact ⟨_, _, congrArg (fun c => some (true, c)) (if_neg policy), ⟨rfl, rfl, rfl, rfl, rfl⟩, rfl,
      setWay_lines rfl s i _, rfl, rfl, rfl, rfl, rfl⟩

/-- A write miss has a result when its copy fits; it sets one way, a victim's. -/
theorem writeMiss_spec (fit : WaysFit c) (s : Nat) (tag offset : UInt32)
    (dataIn : Option (Nat → UInt8)) (rand : Nat)
    (bounds : dataIn.isSome = true → Fits c.lineSize offset) :
    ∃ i < c.associativity.toNat, Victim c s i ∧
      ∃ c' line, writeMiss c s tag offset dataIn rand = some (false, c') ∧ SameConfig c c' ∧
        c'.globalCounter = c.globalCounter ∧ c'.lines = (setWay c s i line).lines ∧
        line.valid = true ∧ line.tag = tag ∧ line.dirty = (c.writePolicy == .writeBack) ∧
        line.lruCounter = c.globalCounter ∧
        c'.stats.writebacks =
          if (c.lines s i).valid ∧ (c.lines s i).dirty ∧ c.writePolicy = .writeBack then
            c.stats.writebacks + 1
          else c.stats.writebacks := by
  obtain ⟨i, lt, victim, filled⟩ := fillWay_spec (c := countMiss c) fit s tag
    (c.writePolicy == .writeBack) rand
  generalize made : setWay { countMiss c with stats := evictStats (countMiss c) ((countMiss c).lines s i) } s i _ =
    c₁ at filled
  have size : c₁.lineSize = c.lineSize := by
    rw [← made]
    rfl
  obtain ⟨data, stored⟩ := storeData_spec (c := c₁) s i offset dataIn (by rwa [size])
  refine ⟨i, lt, victim, setWay c₁ s i { c₁.lines s i with data := data }, { c₁.lines s i with data := data },
    ?_, ?_⟩
  · unfold writeMiss
    rw [filled, Option.bind_eq_bind, Option.bind_some]
    dsimp only
    rw [stored]
    rfl
  · subst made
    refine ⟨⟨rfl, rfl, rfl, rfl, rfl⟩, rfl, ?_, ?_, ?_, ?_, ?_, ?_⟩
    · rw [setWay_setWay]
      exact setWay_lines rfl s i _
    · rw [setWay_get]
    · rw [setWay_get]
    · rw [setWay_get]
    · rw [setWay_get]
      rfl
    · exact evictStats_writebacks (countMiss c) _

/-- A write whose copies fit has a result, keeps the configuration, advances the counter and has the effect
of `Effect`. -/
theorem cacheWrite_spec (fit : WaysFit c) {dataIn : Option (Nat → UInt8)}
    (bounds : (CacheAccess.write address dataIn rand).CopiesInside c) :
    ∃ hit c', cacheAccess c (.write address dataIn rand) = some (hit, c') ∧ SameConfig c c' ∧
      c'.globalCounter = c.globalCounter + 1 ∧ Effect c (.write address dataIn rand) hit c' := by
  unfold cacheAccess cacheWrite
  dsimp only
  have fit' : WaysFit (countWrite c) := fit
  have config : SameConfig c (countWrite c) := ⟨rfl, rfl, rfl, rfl, rfl⟩
  rcases UInt32.lt_or_le (cacheDecomposeAddress c.lineSize c.numSets address).2.1 c.numSets with
    inside | out
  · rw [if_neg (c := _ ≥ (countWrite c).numSets) (UInt32.not_le.2 inside)]
    rcases findTag_cases fit' (cacheDecomposeAddress c.lineSize c.numSets address).2.1.toNat
      (cacheDecomposeAddress c.lineSize c.numSets address).1 with
      ⟨i, lt, valid, tag, found⟩ | ⟨absent, found⟩
    · obtain ⟨c', line, written, same, counter, lines, valid', tag', dirty', stamp', writebacks⟩ :=
        writeHit_spec (c := countWrite c)
          (cacheDecomposeAddress c.lineSize c.numSets address).2.1.toNat i
          (cacheDecomposeAddress c.lineSize c.numSets address).2.2 dataIn (bounds (.inl rfl))
      rw [found, Option.bind_eq_bind, Option.bind_some]
      dsimp only
      rw [written]
      refine ⟨true, c', rfl, config.trans same, counter,
        .hit inside lt valid tag lines (valid'.trans valid) (tag'.trans tag) dirty' stamp' ?_⟩
      by_cases policy : c.writePolicy = .writeThrough
      · rw [if_pos ⟨rfl, policy⟩]
        exact writebacks.trans (if_pos policy)
      · rw [if_neg fun both => policy both.2]
        exact writebacks.trans (if_neg policy)
    · obtain ⟨i, lt, victim, c', line, written, same, counter, lines, valid', tag', dirty', stamp',
          writebacks⟩ :=
        writeMiss_spec (c := countWrite c) fit
          (cacheDecomposeAddress c.lineSize c.numSets address).2.1.toNat
          (cacheDecomposeAddress c.lineSize c.numSets address).1
          (cacheDecomposeAddress c.lineSize c.numSets address).2.2 dataIn rand (bounds (.inl rfl))
      rw [found, Option.bind_eq_bind, Option.bind_some]
      dsimp only
      rw [written]
      exact ⟨false, c', rfl, config.trans same, counter,
        .miss inside absent lt victim lines valid' tag' (by rw [dirty']; rfl) stamp' writebacks⟩
  · rw [if_pos (c := _ ≥ (countWrite c).numSets) out]
    exact ⟨false, _, rfl, ⟨rfl, rfl, rfl, rfl, rfl⟩, rfl, .outside out rfl rfl⟩

end Access

/-- An access whose copies fit has a result: the one lemma about accesses that the invariants use. -/
theorem cacheAccess_spec {c : Cache} (fit : WaysFit c) {a : CacheAccess} (bounds : a.CopiesInside c) :
    ∃ hit c', cacheAccess c a = some (hit, c') ∧ SameConfig c c' ∧
      c'.globalCounter = c.globalCounter + 1 ∧ Effect c a hit c' := by
  cases a with
  | read address dataOut rand => exact cacheRead_spec fit bounds
  | write address dataIn rand => exact cacheWrite_spec fit bounds

end MiniHardware.Arch
