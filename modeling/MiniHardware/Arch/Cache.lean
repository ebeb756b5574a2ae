import MiniHardware.Lib.Trace

/-!
# A set-associative cache (`mini-computer-arch/src/cache.c`)

`cache_init` bounds the number of sets, but neither the associativity, of which
a `CacheSet` has room for 32, nor the line size, of which a line has room for 64
bytes. A step that leaves an array, or divides by zero, has no result here:
it is `none`.
-/

namespace MiniHardware.Arch
open Lib

/-- `CACHE_LINE_DATA_SIZE`. -/
abbrev cacheLineDataSize : Nat := 64

/-- `CACHE_MAX_ASSOCIATIVITY`. -/
abbrev cacheMaxAssociativity : Nat := 32

/-- `CACHE_MAX_SETS`. -/
abbrev cacheMaxSets : UInt32 := 4096

inductive ReplacementPolicy where
  | lru | fifo | random | lfu
deriving DecidableEq

inductive WritePolicy where
  | writeThrough | writeBack
deriving DecidableEq

structure CacheLine where
  valid : Bool
  dirty : Bool
  tag : UInt32
  data : Nat → UInt8
  lruCounter : UInt64
  accessCount : UInt64

structure CacheStatistics where
  hits : UInt64
  misses : UInt64
  reads : UInt64
  writes : UInt64
  evictions : UInt64
  writebacks : UInt64

/-- `lines s i` is way `i` of set `s`. -/
structure Cache where
  numSets : UInt32
  associativity : UInt32
  lineSize : UInt32
  totalSize : UInt32
  lines : Nat → Nat → CacheLine
  replacement : ReplacementPolicy
  writePolicy : WritePolicy
  stats : CacheStatistics
  globalCounter : UInt64

def log2U32 (x : UInt32) : UInt32 := UInt32.ofNat (Nat.log2 x.toNat)

def cacheInit (totalSize lineSize associativity : UInt32) (rp : ReplacementPolicy)
    (wp : WritePolicy) : Option Cache :=
  if lineSize = 0 ∨ associativity = 0 then none
  else
    let totalLines := totalSize / lineSize
    let numSets := totalLines / associativity
    let numSets := if numSets < 1 then 1 else numSets
    let numSets := if numSets > cacheMaxSets then cacheMaxSets else numSets
    some
      { totalSize := totalSize
        lineSize := lineSize
        associativity := associativity
        numSets := numSets
        lines := fun _ _ => ⟨false, false, 0, fun _ => 0, 0, 0⟩
        replacement := rp
        writePolicy := wp
        globalCounter := 0
        stats := ⟨0, 0, 0, 0, 0, 0⟩ }

/-- Tag, index and offset. -/
def cacheDecomposeAddress (lineSize numSets address : UInt32) : UInt32 × UInt32 × UInt32 :=
  let offsetBits := log2U32 lineSize
  let indexBits := log2U32 numSets
  (address >>> (offsetBits + indexBits), (address >>> offsetBits) &&& ((1 <<< indexBits) - 1),
    address &&& ((1 <<< offsetBits) - 1))

/-! ## Ways -/

/-- The access to `lines[i]`. -/
def wayAt (c : Cache) (s i : Nat) : Option CacheLine :=
  if i < cacheMaxAssociativity then some (c.lines s i) else none

/-- The first way of the set with the property, if any. -/
def findWay (c : Cache) (s : Nat) (p : CacheLine → Bool) : Option (Option Nat) :=
  (List.range c.associativity.toNat).findM? fun i => (wayAt c s i).map p

def setWay (c : Cache) (s i : Nat) (line : CacheLine) : Cache :=
  { c with lines := fun s' i' => if s' = s ∧ i' = i then line else c.lines s' i' }

/-- The loop of LRU and LFU: the least counter so far, and its way. -/
def leastStep (counter : Nat → UInt64) (best : UInt64 × Nat) (i : Nat) : UInt64 × Nat :=
  if counter i < best.1 then (counter i, i) else best

def leastWay (counter : Nat → UInt64) (associativity : Nat) : Nat :=
  ((List.range' 1 (associativity - 1)).foldl (leastStep counter) (counter 0, 0)).2

/-- `rand` is what the random generator would return. -/
def findReplacementCandidate (c : Cache) (s rand : Nat) : Option Nat := do
  match ← findWay c s fun line => !line.valid with
  | some i => some i
  | none =>
    match c.replacement with
    | .lru => some (leastWay (fun i => (c.lines s i).lruCounter) c.associativity.toNat)
    | .fifo => some (c.globalCounter.toNat % c.associativity.toNat)
    | .random => some (rand % c.associativity.toNat)
    | .lfu => some (leastWay (fun i => (c.lines s i).accessCount) c.associativity.toNat)

/-! ## Data -/

/-- The number of bytes copied at an offset. -/
def copySize (lineSize offset : UInt32) : Nat :=
  if lineSize - offset < 8 then (lineSize - offset).toNat else 8

/-- The bytes stay within the data of a line. -/
def Fits (lineSize offset : UInt32) : Prop :=
  offset.toNat + copySize lineSize offset ≤ cacheLineDataSize

instance fitsDecidable (lineSize offset : UInt32) : Decidable (Fits lineSize offset) :=
  inferInstanceAs (Decidable (_ ≤ _))

def copyOut (lineSize offset : UInt32) (data : Nat → UInt8) : Option (List UInt8) :=
  if Fits lineSize offset then
    some ((List.range (copySize lineSize offset)).map fun k => data (offset.toNat + k))
  else none

def copyIn (lineSize offset : UInt32) (data src : Nat → UInt8) : Option (Nat → UInt8) :=
  if Fits lineSize offset then
    some fun k =>
      if offset.toNat ≤ k ∧ k < offset.toNat + copySize lineSize offset then src (k - offset.toNat)
      else data k
  else none

/-! ## Accesses -/

/-- `reads++` and `global_counter++`. -/
def countRead (c : Cache) : Cache :=
  { c with
    stats := { c.stats with reads := c.stats.reads + 1 }
    globalCounter := c.globalCounter + 1 }

/-- `writes++` and `global_counter++`. -/
def countWrite (c : Cache) : Cache :=
  { c with
    stats := { c.stats with writes := c.stats.writes + 1 }
    globalCounter := c.globalCounter + 1 }

def countMiss (c : Cache) : Cache :=
  { c with stats := { c.stats with misses := c.stats.misses + 1 } }

def countWriteback (c : Cache) : Cache :=
  { c with stats := { c.stats with writebacks := c.stats.writebacks + 1 } }

/-- The way with the tag, if any. -/
def findTag (c : Cache) (s : Nat) (tag : UInt32) : Option (Option Nat) :=
  findWay c s fun line => line.valid && line.tag == tag

/-- A hit in way `i`; a write makes it dirty. -/
def hitWay (c : Cache) (s i : Nat) (write : Bool) : Cache :=
  setWay { c with stats := { c.stats with hits := c.stats.hits + 1 } } s i
    { c.lines s i with
      lruCounter := c.globalCounter
      accessCount := (c.lines s i).accessCount + 1
      dirty := if write then true else (c.lines s i).dirty }

/-- What a miss counts when it fills way `victim`. -/
def evictStats (c : Cache) (line : CacheLine) : CacheStatistics :=
  if line.valid ∧ line.dirty ∧ c.writePolicy = .writeBack then
    { c.stats with writebacks := c.stats.writebacks + 1, evictions := c.stats.evictions + 1 }
  else if line.valid then { c.stats with evictions := c.stats.evictions + 1 }
  else c.stats

/-- A miss, up to the copy of the data: the way filled, and the cache. -/
def fillWay (c : Cache) (s : Nat) (tag : UInt32) (dirty : Bool) (rand : Nat) : Option (Nat × Cache) := do
  let victim ← findReplacementCandidate c s rand
  let line ← wayAt c s victim
  some (victim,
    setWay { c with stats := evictStats c line } s victim
      { valid := true
        dirty := dirty
        tag := tag
        lruCounter := c.globalCounter
        accessCount := 1
        data := fun _ => 0 })

/-- The copy from `data_in`, unless that is a null pointer. -/
def storeData (c : Cache) (s i : Nat) (offset : UInt32) : Option (Nat → UInt8) → Option Cache
  | none => some c
  | some src => do
    let data ← copyIn c.lineSize offset (c.lines s i).data src
    some (setWay c s i { c.lines s i with data := data })

def readHit (c : Cache) (s i : Nat) (offset : UInt32) (dataOut : Bool) :
    Option (Bool × Option (List UInt8) × Cache) :=
  if dataOut then do
    let out ← copyOut c.lineSize offset (c.lines s i).data
    some (true, some out, hitWay c s i false)
  else some (true, none, hitWay c s i false)

def readMiss (c : Cache) (s : Nat) (tag : UInt32) (rand : Nat) :
    Option (Bool × Option (List UInt8) × Cache) := do
  let (_, c) ← fillWay (countMiss c) s tag false rand
  some (false, none, c)

/-- The result, what is written to `data_out` if that is no null pointer, and the cache. -/
def cacheRead (c : Cache) (address : UInt32) (dataOut : Bool) (rand : Nat) :
    Option (Bool × Option (List UInt8) × Cache) :=
  let (tag, index, offset) := cacheDecomposeAddress c.lineSize c.numSets address
  let c := countRead c
  if index ≥ c.numSets then some (false, none, countMiss c)
  else do
    match ← findTag c index.toNat tag with
    | some i => readHit c index.toNat i offset dataOut
    | none => readMiss c index.toNat tag rand

def writeHit (c : Cache) (s i : Nat) (offset : UInt32) (dataIn : Option (Nat → UInt8)) :
    Option (Bool × Cache) := do
  let c ← storeData (hitWay c s i true) s i offset dataIn
  some (true, if c.writePolicy = .writeThrough then countWriteback c else c)

def writeMiss (c : Cache) (s : Nat) (tag offset : UInt32) (dataIn : Option (Nat → UInt8))
    (rand : Nat) : Option (Bool × Cache) := do
  let (i, c) ← fillWay (countMiss c) s tag (c.writePolicy == .writeBack) rand
  let c ← storeData c s i offset dataIn
  some (false, c)

/-- `data_in` is `none` for a null pointer, or the bytes that it points to. -/
def cacheWrite (c : Cache) (address : UInt32) (dataIn : Option (Nat → UInt8)) (rand : Nat) :
    Option (Bool × Cache) :=
  let (tag, index, offset) := cacheDecomposeAddress c.lineSize c.numSets address
  let c := countWrite c
  if index ≥ c.numSets then some (false, countMiss c)
  else do
    match ← findTag c index.toNat tag with
    | some i => writeHit c index.toNat i offset dataIn
    | none => writeMiss c index.toNat tag offset dataIn rand

def flushWay (s : Nat) (c : Cache) (i : Nat) : Option Cache := do
  let line ← wayAt c s i
  let c := if line.valid ∧ line.dirty ∧ c.writePolicy = .writeBack then countWriteback c else c
  some (setWay c s i
    { line with
      valid := false
      dirty := false
      tag := 0
      lruCounter := 0
      accessCount := 0 })

def cacheFlush (c : Cache) : Option Cache :=
  (List.range c.numSets.toNat).foldlM
    (fun c s => (List.range c.associativity.toNat).foldlM (flushWay s) c) c

end MiniHardware.Arch
