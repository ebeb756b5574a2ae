import MiniHardware.Lib.Index
import MiniHardware.Lib.Trace

/-!
# The memory of a GPU (`mini-gpu-arch/src/memory_gpu.c`)

The backing arrays hold floats, and an access begins at the float of its
address. The range check is a sum that can wrap, and an access that fails it in
global memory reports success all the same. Where accesses are aligned and in
range, global memory is an array of bytes (`gpu_mem_delivers`).
-/

namespace MiniHardware.Gpu
open Lib

/-- `CACHE_ASSOC`. -/
abbrev cacheAssoc : Nat := 4

/-- `CACHE_NUM_SETS`. -/
abbrev cacheNumSets : Nat := 64

/-- The bytes of a line that `gpu_mem_create` gives both caches. -/
abbrev gpuLineSize : UInt64 := 128

/-- The size of `data` of the shared memory, which is also its `total_size`. -/
abbrev sharedMemSize : Nat := 49152

/-- `SMEM_NUM_BANKS`. -/
abbrev smemNumBanks : Nat := 32

inductive GPUMemSpace where
  | global | shared | local_ | constant | texture | register
deriving DecidableEq

structure CacheLine where
  tag : UInt64
  valid : Bool
  dirty : Bool
  lastAccessCycle : UInt32

structure CacheSet where
  lines : Fin cacheAssoc → CacheLine
  lruCounter : Fin cacheAssoc → UInt32

structure GPUCache where
  totalSize : Int32
  sets : Fin cacheNumSets → CacheSet
  accesses : UInt64
  hits : UInt64
  misses : UInt64
  evictions : UInt64
  writebacks : UInt64
  lruEpoch : UInt32

structure SharedMemory where
  data : Vector UInt8 sharedMemSize
  accessCount : Fin smemNumBanks → Int32

/-- The bytes that are allocated, one float more than the size has. -/
def backingSize (totalSize : UInt64) : Nat := (totalSize.toNat / 4 + 1) * 4

structure GlobalMemory where
  totalSize : UInt64
  allocated : UInt64
  data : Vector UInt8 (backingSize totalSize)

structure GPUMemorySubsystem where
  globalMem : GlobalMemory
  sharedMem : SharedMemory
  l1Cache : GPUCache
  l2Cache : GPUCache
  totalReads : UInt64
  totalWrites : UInt64
  dramCycles : UInt64

def emptyCache (totalSize : Int32) : GPUCache :=
  ⟨totalSize, fun _ => ⟨fun _ => ⟨0, false, false, 0⟩, fun _ => 0⟩, 0, 0, 0, 0, 0, 0⟩

def gpuMemCreate (globalSize : UInt64) (l1Size l2Size : Int32) : GPUMemorySubsystem where
  globalMem := ⟨globalSize, 0, Vector.replicate _ 0⟩
  sharedMem := ⟨Vector.replicate _ 0, fun _ => 0⟩
  l1Cache := emptyCache l1Size
  l2Cache := emptyCache l2Size
  totalReads := 0
  totalWrites := 0
  dramCycles := 0

/-! ## The caches, which hold no data -/

def cacheTag (addr : UInt64) : UInt64 := addr / gpuLineSize / 64

def cacheSetIndex (addr : UInt64) : Fin cacheNumSets :=
  ⟨(addr / gpuLineSize).toNat % cacheNumSets, Nat.mod_lt _ (by decide)⟩

/-- The search for a victim from the second way on, with the least counter so far. -/
def lruVictim (set : CacheSet) (lruWay : Fin cacheAssoc) (minLru : UInt32) :
    List (Fin cacheAssoc) → Fin cacheAssoc
  | [] => lruWay
  | way :: rest =>
    if !(set.lines way).valid then way
    else if set.lruCounter way < minLru then lruVictim set way (set.lruCounter way) rest
    else lruVictim set lruWay minLru rest

def cacheAccess (c : GPUCache) (addr : UInt64) (isWrite : Bool) : Bool × GPUCache :=
  let setIdx := cacheSetIndex addr
  let set := c.sets setIdx
  let epoch := c.lruEpoch
  let place (way : Fin cacheAssoc) (line : CacheLine) : Fin cacheNumSets → CacheSet :=
    Function.update c.sets setIdx
      ⟨Function.update set.lines way line, Function.update set.lruCounter way (epoch + 1)⟩
  let hit := (List.finRange cacheAssoc).find? fun way =>
    (set.lines way).valid && (set.lines way).tag == cacheTag addr
  match hit with
  | some way =>
    let line := set.lines way
    (true, { c with
      accesses := c.accesses + 1
      hits := c.hits + 1
      lruEpoch := epoch + 1
      sets := place way { line with lastAccessCycle := epoch, dirty := line.dirty || isWrite } })
  | none =>
    let way := lruVictim set 0 (set.lruCounter 0) [1, 2, 3]
    let line := set.lines way
    (false, { c with
      accesses := c.accesses + 1
      misses := c.misses + 1
      writebacks := if line.valid && line.dirty then c.writebacks + 1 else c.writebacks
      evictions := if line.valid then c.evictions + 1 else c.evictions
      lruEpoch := epoch + 1
      sets := place way ⟨cacheTag addr, true, isWrite, epoch⟩ })

/-- The way of a read through the caches. -/
def cachedRead (m : GPUMemorySubsystem) (addr : UInt64) : GPUMemorySubsystem :=
  let (l1Hit, l1) := cacheAccess m.l1Cache addr false
  if l1Hit then { m with l1Cache := l1 }
  else
    let (l2Hit, l2) := cacheAccess m.l2Cache addr false
    if l2Hit then { m with l1Cache := l1, l2Cache := l2 }
    else
      { m with
        dramCycles := m.dramCycles + 200
        l2Cache := (cacheAccess l2 addr false).2
        l1Cache := (cacheAccess l1 addr false).2 }

/-! ## Accesses -/

/-- The offset of `data[addr / sizeof(float)]`. -/
def floatOffset (addr : UInt64) : Nat := (addr / 4).toNat * 4

/-- An access to shared memory counts for its bank. -/
def countBank (s : SharedMemory) (addr : UInt64) : SharedMemory :=
  let bank : Fin smemNumBanks := ⟨(addr / 4).toNat % smemNumBanks, Nat.mod_lt _ (by decide)⟩
  { s with accessCount := Function.update s.accessCount bank (s.accessCount bank + 1) }

/-- A call: the result, what a read leaves in its buffer, and the memory. -/
structure Outcome where
  ok : Bool
  buffer : Nat → UInt8
  mem : GPUMemorySubsystem

/-- `buffer` is what `data` points to before. Undefined where a copy leaves an array. -/
def gpuMemRead (m : GPUMemorySubsystem) (addr : UInt64) (buffer : Nat → UInt8) (size : Int32) (space : GPUMemSpace) :
    Option Outcome :=
  if size.toInt ≤ 0 then some ⟨false, buffer, m⟩ else
  let m := { m with totalReads := m.totalReads + 1 }
  let count := size.toInt.toNat
  match space with
  | .shared =>
    if addr + UInt64.ofNat count ≤ UInt64.ofNat sharedMemSize then
      (copyOut m.sharedMem.data (floatOffset addr) count buffer).map fun buffer =>
        ⟨true, buffer, { m with sharedMem := countBank m.sharedMem addr }⟩
    else some ⟨false, buffer, m⟩
  | .global | .local_ | .constant | .texture =>
    let m := cachedRead m addr
    if addr + UInt64.ofNat count ≤ m.globalMem.totalSize then
      (copyOut m.globalMem.data (floatOffset addr) count buffer).map fun buffer => ⟨true, buffer, m⟩
    else some ⟨true, buffer, m⟩
  | .register => some ⟨false, buffer, m⟩

/-- `data` is what the pointer points to. -/
def gpuMemWrite (m : GPUMemorySubsystem) (addr : UInt64) (data : Nat → UInt8) (size : Int32) (space : GPUMemSpace) :
    Option (Bool × GPUMemorySubsystem) :=
  if size.toInt ≤ 0 then some (false, m) else
  let m := { m with totalWrites := m.totalWrites + 1 }
  let count := size.toInt.toNat
  match space with
  | .shared =>
    if addr + UInt64.ofNat count ≤ UInt64.ofNat sharedMemSize then
      (copyIn m.sharedMem.data (floatOffset addr) count data).map fun bytes =>
        (true, { m with sharedMem := countBank { m.sharedMem with data := bytes } addr })
    else some (false, m)
  | .global | .local_ =>
    let m := { m with
      l1Cache := (cacheAccess m.l1Cache addr true).2
      l2Cache := { m.l2Cache with accesses := m.l2Cache.accesses + 1 } }
    if addr + UInt64.ofNat count ≤ m.globalMem.totalSize then
      (copyIn m.globalMem.data (floatOffset addr) count data).map fun bytes =>
        (true, { m with
          globalMem := { m.globalMem with allocated := m.globalMem.allocated + UInt64.ofNat count, data := bytes } })
    else some (true, m)
  | _ => some (false, m)

/-! ## An array of bytes -/

inductive MemCall where
  | read (addr : UInt64) (buffer : Nat → UInt8) (size : Int32)
  | write (addr : UInt64) (data : Nat → UInt8) (size : Int32)

/-- What a successful read was asked for and delivers. -/
structure Delivery where
  addr : UInt64
  size : Nat
  bytes : Nat → UInt8

/-- `contents` is no part of the code: the byte that was last written successfully at each address.
`last` is the delivery of the last call. -/
structure MemTrace where
  mem : GPUMemorySubsystem
  contents : Nat → UInt8
  last : Option Delivery

def memTraceInit (globalSize : UInt64) (l1Size l2Size : Int32) : MemTrace :=
  ⟨gpuMemCreate globalSize l1Size l2Size, fun _ => 0, none⟩

/-- The contents after a successful write. -/
def written (contents : Nat → UInt8) (addr : UInt64) (data : Nat → UInt8) (size : Nat) : Nat → UInt8 := fun a =>
  if addr.toNat ≤ a ∧ a < addr.toNat + size then data (a - addr.toNat) else contents a

/-- Calls on the global space. -/
def memStep (s : Option MemTrace) (call : MemCall) : Option MemTrace :=
  s.bind fun s =>
    match call with
    | .read addr buffer size =>
      (gpuMemRead s.mem addr buffer size .global).map fun r =>
        ⟨r.mem, s.contents, if r.ok then some ⟨addr, size.toInt.toNat, r.buffer⟩ else none⟩
    | .write addr data size =>
      (gpuMemWrite s.mem addr data size .global).map fun r =>
        ⟨r.2, if r.1 then written s.contents addr data size.toInt.toNat else s.contents, none⟩

/-- No call has left an array, and the last one, if it is a successful read, delivers the contents. -/
def DeliversContents (s : Option MemTrace) : Prop :=
  ∃ t, s = some t ∧ ∀ d, t.last = some d → ∀ i < d.size, d.bytes i = t.contents (d.addr.toNat + i)

/-- Nothing is asked for, or a range of the memory from a multiple of four on. -/
def InRange (totalSize : UInt64) (addr : UInt64) (size : Int32) : Prop :=
  0 < size.toInt → addr.toNat % 4 = 0 ∧ addr.toNat + size.toInt.toNat ≤ totalSize.toNat

/-- The condition on a call. -/
def MemCallOk (s : Option MemTrace) : MemCall → Prop
  | .read addr _ size | .write addr _ size => ∀ t, s = some t → InRange t.mem.globalMem.totalSize addr size

/-! ## Runs -/

variable {m : GPUMemorySubsystem} {addr : UInt64} {buffer data : Nat → UInt8} {size : Int32}

/-- The global memory holds the contents. -/
def HoldsContents (m : GPUMemorySubsystem) (contents : Nat → UInt8) : Prop :=
  ∀ i : Fin (backingSize m.globalMem.totalSize), m.globalMem.data.get i = contents i.val

/-- The contents are held and were delivered. -/
def MemInv (s : Option MemTrace) : Prop :=
  ∃ t, s = some t ∧ HoldsContents t.mem t.contents ∧
    ∀ d, t.last = some d → ∀ i < d.size, d.bytes i = t.contents (d.addr.toNat + i)

theorem cachedRead_globalMem (m : GPUMemorySubsystem) (addr : UInt64) :
    (cachedRead m addr).globalMem = m.globalMem := by
  unfold cachedRead
  dsimp only
  split
  · rfl
  split <;> rfl

/-- A range of the memory passes the check and lies inside the array, from its address on. -/
theorem InRange.checked {totalSize : UInt64} (ok : InRange totalSize addr size) (pos : 0 < size.toInt) :
    addr + UInt64.ofNat size.toInt.toNat ≤ totalSize ∧ floatOffset addr = addr.toNat ∧
      floatOffset addr + size.toInt.toNat ≤ backingSize totalSize := by
  obtain ⟨aligned, le⟩ := ok pos
  have total := totalSize.toNat_lt
  have count : (UInt64.ofNat size.toInt.toNat).toNat = size.toInt.toNat :=
    UInt64.toNat_ofNat_of_lt (Nat.lt_of_le_of_lt (Nat.le_add_left _ _) (Nat.lt_of_le_of_lt le total))
  have offset : floatOffset addr = addr.toNat := by
    rw [floatOffset, UInt64.toNat_div]
    show addr.toNat / 4 * 4 = addr.toNat
    omega
  refine ⟨?_, offset, ?_⟩
  · rw [UInt64.le_iff_toNat_le, UInt64.toNat_add, count, Nat.mod_eq_of_lt (Nat.lt_of_le_of_lt le total)]
    exact le
  · rw [offset, backingSize]
    omega

theorem read_not_pos (m : GPUMemorySubsystem) (space : GPUMemSpace) (none : ¬ 0 < size.toInt) :
    gpuMemRead m addr buffer size space = some ⟨false, buffer, m⟩ :=
  if_pos (Int.not_lt.1 none)

theorem write_not_pos (m : GPUMemorySubsystem) (space : GPUMemSpace) (none : ¬ 0 < size.toInt) :
    gpuMemWrite m addr data size space = some (false, m) :=
  if_pos (Int.not_lt.1 none)

/-- A read of a range delivers its bytes and leaves the global memory. -/
theorem read_global (ok : InRange m.globalMem.totalSize addr size) (pos : 0 < size.toInt) {contents : Nat → UInt8}
    (holds : HoldsContents m contents) :
    ∃ r, gpuMemRead m addr buffer size .global = some r ∧ r.mem.globalMem = m.globalMem ∧
      ∀ i < size.toInt.toNat, r.buffer i = contents (addr.toNat + i) := by
  obtain ⟨check, offset, inside⟩ := ok.checked pos
  have same : (cachedRead { m with totalReads := m.totalReads + 1 } addr).globalMem = m.globalMem :=
    cachedRead_globalMem _ _
  obtain ⟨out, copied, bytes⟩ := copyOut_of_le m.globalMem.data inside buffer
  refine ⟨⟨true, out, cachedRead { m with totalReads := m.totalReads + 1 } addr⟩, ?_, same, fun i lt => ?_⟩
  · unfold gpuMemRead
    rw [if_neg (Int.not_le.2 pos)]
    dsimp only
    rw [same, if_pos check, copied]
    rfl
  · show out i = _
    rw [bytes i lt, holds]
    exact congrArg (fun o => contents (o + i)) offset

/-- A write of a range succeeds and changes its bytes. -/
theorem write_global (ok : InRange m.globalMem.totalSize addr size) (pos : 0 < size.toInt) {contents : Nat → UInt8}
    (holds : HoldsContents m contents) :
    ∃ r, gpuMemWrite m addr data size .global = some r ∧ r.1 = true ∧
      HoldsContents r.2 (written contents addr data size.toInt.toNat) := by
  obtain ⟨check, offset, inside⟩ := ok.checked pos
  obtain ⟨bytes, copied, gets⟩ := copyIn_of_le m.globalMem.data inside data
  unfold gpuMemWrite
  rw [if_neg (Int.not_le.2 pos)]
  dsimp only
  rw [if_pos check, copied]
  refine ⟨_, rfl, rfl, fun i => ?_⟩
  show bytes.get i = _
  rw [gets, offset, written, ← holds]

theorem MemInv.step (s : Option MemTrace) (call : MemCall) (inv : MemInv s) (ok : MemCallOk s call) :
    MemInv (memStep s call) := by
  obtain ⟨t, rfl, holds, -⟩ := inv
  have nothing (m : GPUMemorySubsystem) (eq : m.globalMem = t.mem.globalMem) (contents : Nat → UInt8)
      (h : HoldsContents t.mem contents) : HoldsContents m contents := by
    unfold HoldsContents at h ⊢
    rw [eq]
    exact h
  cases call with
  | read addr buffer size =>
    have range : InRange t.mem.globalMem.totalSize addr size := ok t rfl
    show MemInv ((gpuMemRead t.mem addr buffer size .global).map _)
    by_cases pos : 0 < size.toInt
    · obtain ⟨r, eq, same, bytes⟩ := @read_global t.mem addr buffer size range pos _ holds
      rw [eq]
      refine ⟨_, rfl, nothing _ same _ holds, fun d last i lt => ?_⟩
      dsimp only at last
      split at last
      · obtain rfl := Option.some.inj last
        exact bytes i lt
      · cases last
    · rw [read_not_pos _ _ pos]
      refine ⟨_, rfl, holds, fun d last => ?_⟩
      cases last
  | write addr data size =>
    have range : InRange t.mem.globalMem.totalSize addr size := ok t rfl
    show MemInv ((gpuMemWrite t.mem addr data size .global).map _)
    by_cases pos : 0 < size.toInt
    · obtain ⟨r, eq, yes, holds'⟩ := @write_global t.mem addr data size range pos _ holds
      rw [eq]
      refine ⟨_, rfl, ?_, fun d last => ?_⟩
      · dsimp only
        rw [if_pos yes]
        exact holds'
      · cases last
    · rw [write_not_pos _ _ pos]
      refine ⟨_, rfl, holds, fun d last => ?_⟩
      cases last

theorem MemInv.init (globalSize : UInt64) (l1Size l2Size : Int32) :
    MemInv (some (memTraceInit globalSize l1Size l2Size)) := by
  refine ⟨_, rfl, fun i => get_replicate 0 i, fun d last => ?_⟩
  cases last

/-- In every sequence of calls that ask for aligned ranges of the global memory, the reads deliver the
bytes that were last written, and no call leaves the arrays. -/
theorem gpu_mem_delivers (globalSize : UInt64) (l1Size l2Size : Int32) (calls : List MemCall)
    (guard : Guarded memStep MemCallOk (some (memTraceInit globalSize l1Size l2Size)) calls) :
    DeliversContents (run memStep (some (memTraceInit globalSize l1Size l2Size)) calls) := by
  obtain ⟨t, eq, -, delivered⟩ := guarded_invariant MemInv.step (MemInv.init globalSize l1Size l2Size) guard
  exact ⟨t, eq, delivered⟩

/-- Two overlapping writes and a read across them. -/
def overlappingWrites : List MemCall :=
  [.write 0 (fun i => UInt8.ofNat (i + 1)) 8, .write 4 (fun _ => 9) 2, .read 0 (fun _ => 0) 7]

theorem gpu_mem_delivers_overlapping :
    DeliversContents (run memStep (some (memTraceInit 16 0 0)) overlappingWrites) := by
  apply gpu_mem_delivers
  refine ⟨?_, ?_, ?_, trivial⟩
  all_goals
    rintro t eq -
    obtain rfl := Option.some.inj eq
    exact ⟨by decide, by decide⟩

/-- A byte written at address 1 is read at address 0. -/
theorem gpu_mem_unaligned :
    ¬ DeliversContents (run memStep (some (memTraceInit 16 0 0))
      [.write 1 (fun _ => 5) 1, .read 0 (fun _ => 7) 1]) := by
  rintro ⟨t, eq, delivered⟩
  obtain rfl := Option.some.inj eq
  have byte := delivered _ rfl 0 (by decide)
  exact absurd byte (by decide)

end MiniHardware.Gpu
