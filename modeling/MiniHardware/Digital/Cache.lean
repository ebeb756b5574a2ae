import Mathlib.Algebra.GroupWithZero.Nat
import MiniHardware.Lib.Lru
import MiniHardware.Lib.Trace

/-!
# A cache (`mini-digital-circuit/src/memory.c`)

`cache_create` bounds the sets and the ways but takes every line size, while a
line has room for 64 bytes. A call that copies beyond them, shifts by 32 or
counts its accesses beyond `INT_MAX` has no result: it is `none`. The other
counters are statistics that nothing reads, and are counted without a bound.
-/

namespace MiniHardware.Digital
open Lib

/-- `CACHE_LINE_SIZE`. -/
abbrev cacheLineSize : Nat := 64

/-- `CACHE_MAX_SETS`. -/
abbrev cacheMaxSets : Int := 64

/-- `CACHE_MAX_WAYS`. -/
abbrev cacheMaxWays : Int := 4

/-- The `MEM_WORD_SIZE` bytes that an access copies. -/
abbrev Word := Vector UInt8 4

inductive WritePolicy where
  | writeThrough | writeBack
deriving DecidableEq

structure CacheLine where
  valid : Bool
  dirty : Bool
  tag : UInt32
  data : Nat → UInt8
  lastAccess : Nat

structure CacheGeometry where
  numSets : Nat
  numWays : Nat
  lineSize : Int

/-- `lines (s, w)` is way `w` of set `s`. -/
structure Cache where
  writePolicy : WritePolicy
  geom : CacheGeometry
  lines : Nat × Nat → CacheLine
  hits : Nat
  misses : Nat
  accesses : Nat
  evictions : Nat
  writeBacks : Nat

/-- `bound`, but at least 1 and at most `top`. -/
def clamp (top bound : Int) : Nat :=
  let n := if bound > top then top else bound
  if n < 1 then 1 else n.toNat

/-- All bytes of the sets are zero. -/
def cacheCreate (wp : WritePolicy) (sets ways lineSize : Int) : Cache where
  writePolicy := wp
  geom := ⟨clamp cacheMaxSets sets, clamp cacheMaxWays ways, lineSize⟩
  lines _ := ⟨false, false, 0, fun _ => 0, 0⟩
  hits := 0
  misses := 0
  accesses := 0
  evictions := 0
  writeBacks := 0

/-! ## Addresses -/

/-- The loop that counts the bits of `n - 1`. -/
def bitsFor (n : Int) : Nat := if n ≤ 1 then 0 else Nat.log2 (n - 1).toNat + 1

def addrTag (addr : UInt32) (geom : CacheGeometry) : Option UInt32 :=
  let shift := bitsFor geom.numSets + bitsFor geom.lineSize
  if shift < 32 then some (addr >>> UInt32.ofNat shift) else none

def addrSet (addr : UInt32) (geom : CacheGeometry) : Option UInt32 :=
  let offBits := bitsFor geom.lineSize
  let setBits := bitsFor geom.numSets
  if offBits < 32 ∧ setBits < 32 then
    some ((addr >>> UInt32.ofNat offBits) &&& ((1 <<< UInt32.ofNat setBits) - 1))
  else none

def addrOffset (addr : UInt32) (geom : CacheGeometry) : UInt32 :=
  addr &&& UInt32.ofInt (geom.lineSize - 1)

/-- Tag, set and offset of an address. -/
structure Place where
  tag : UInt32
  set : Nat
  off : Nat
deriving DecidableEq

def CacheGeometry.place (geom : CacheGeometry) (addr : UInt32) : Option Place := do
  let tag ← addrTag addr geom
  let set ← addrSet addr geom
  some ⟨tag, set.toNat, (addrOffset addr geom).toNat⟩

/-! ## Lines -/

namespace Cache

/-- `c->accesses++`. -/
def tick (c : Cache) : Option Cache :=
  if c.accesses + 1 < 2 ^ 31 then some { c with accesses := c.accesses + 1 } else none

/-- The first valid way of the set with the tag. -/
def findWay (c : Cache) (p : Place) : Option Nat :=
  (List.range c.geom.numWays).find? fun w =>
    (c.lines (p.set, w)).valid && decide ((c.lines (p.set, w)).tag = p.tag)

def setLine (c : Cache) (slot : Nat × Nat) (line : CacheLine) : Cache :=
  { c with lines := Function.update c.lines slot line }

/-- The loops of `cache_invalidate` and `cache_flush`: the lines of the sets with the property are
made invalid. -/
def clear (c : Cache) (p : Nat × Nat → Bool) : Cache :=
  let inside slot := decide (slot.1 < c.geom.numSets ∧ slot.2 < c.geom.numWays) && p slot
  { c with
    lines := fun slot =>
      if inside slot then { c.lines slot with valid := false, dirty := false } else c.lines slot
    writeBacks := c.writeBacks +
      ((List.range c.geom.numSets).flatMap fun s =>
        (List.range c.geom.numWays).map fun w => (s, w)).countP fun slot =>
          inside slot && (c.lines slot).dirty }

end Cache

/-- The word at an offset, if it is within the bytes of a line. -/
def copyOut (data : Nat → UInt8) (off : Nat) : Option Word :=
  if off + 4 ≤ cacheLineSize then some (Vector.ofFn fun i => data (off + i.val)) else none

def copyIn (data : Nat → UInt8) (off : Nat) (word : Word) : Option (Nat → UInt8) :=
  if off + 4 ≤ cacheLineSize then
    some fun k => if h : off ≤ k ∧ k < off + 4 then word.get ⟨k - off, by omega⟩ else data k
  else none

/-- The loop that looks for the way to replace, over the remaining ways. -/
def victimLoop (lines : Nat → CacheLine) : List Nat → Nat → Nat → Nat
  | [], lruWay, _ => lruWay
  | w :: ws, lruWay, oldest =>
    if !(lines w).valid then w
    else if (lines w).lastAccess < oldest then victimLoop lines ws w (lines w).lastAccess
    else victimLoop lines ws lruWay oldest

/-- The way of the set that `cache_write` replaces. -/
def Cache.victim (c : Cache) (set : Nat) : Nat :=
  victimLoop (fun w => c.lines (set, w)) (List.range' 1 (c.geom.numWays - 1)) 0 (c.lines (set, 0)).lastAccess

/-! ## Calls -/

/-- The cache after the call and the word read; the result `false` is no word. -/
def cacheRead (c : Cache) (addr : UInt32) : Option (Cache × Option Word) := do
  let c ← c.tick
  let p ← c.geom.place addr
  if p.set ≥ c.geom.numSets then some (c, none)
  else
    match c.findWay p with
    | some w =>
      let line := c.lines (p.set, w)
      let out ← copyOut line.data p.off
      some ({ c with hits := c.hits + 1 }.setLine (p.set, w) { line with lastAccess := c.accesses }, some out)
    | none => some ({ c with misses := c.misses + 1 }, none)

/-- The cache after the call and its result. -/
def cacheWrite (c : Cache) (addr : UInt32) (dataIn : Word) : Option (Cache × Bool) := do
  let c ← c.tick
  let p ← c.geom.place addr
  if p.set ≥ c.geom.numSets then some (c, false)
  else
    let back := decide (c.writePolicy = .writeBack)
    match c.findWay p with
    | some w =>
      let line := c.lines (p.set, w)
      let data ← copyIn line.data p.off dataIn
      some
        ({ c with
            hits := c.hits + 1
            writeBacks := c.writeBacks + if back then 1 else 0 }.setLine (p.set, w)
          { line with data := data, dirty := back, lastAccess := c.accesses }, true)
    | none =>
      let lruWay := c.victim p.set
      let line := c.lines (p.set, lruWay)
      let evicted := if line.valid && line.dirty then 1 else 0
      let data ← copyIn line.data p.off dataIn
      some
        ({ c with
            misses := c.misses + 1
            evictions := c.evictions + evicted
            writeBacks := c.writeBacks + evicted }.setLine (p.set, lruWay)
          ⟨true, back, p.tag, data, c.accesses⟩, true)

def cacheInvalidate (c : Cache) (addr : UInt32) : Option Cache := do
  let p ← c.geom.place addr
  if p.set ≥ c.geom.numSets then some c
  else
    some (c.clear fun slot =>
      decide (slot.1 = p.set) && (c.lines slot).valid && decide ((c.lines slot).tag = p.tag))

def cacheFlush (c : Cache) : Cache := c.clear fun _ => true

inductive CacheCall where
  | read (addr : UInt32)
  | write (addr : UInt32) (dataIn : Word)
  | invalidate (addr : UInt32)
  | flush

/-- The cache after a call. -/
def cacheCall (c : Cache) : CacheCall → Option Cache
  | .read addr => (cacheRead c addr).map (·.1)
  | .write addr dataIn => (cacheWrite c addr dataIn).map (·.1)
  | .invalidate addr => cacheInvalidate c addr
  | .flush => some (cacheFlush c)

end MiniHardware.Digital
