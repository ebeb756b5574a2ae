import MiniHardware.Storage.Ftl

/-!
# Garbage collection (`mini-storage-hardware/src/gc.c`)

The collector holds a pointer to its FTL; here the FTL is a second argument
and result. `gc_trigger` picks a victim block, copies its VALID pages out with
`ftl_write` and erases it.
-/

namespace MiniHardware.Storage

inductive GCPolicy where
  | greedy | costBenefit | agedBlocks
deriving DecidableEq

structure GCMetrics where
  totalBgs : UInt64
  validPagesCopied : UInt64
  blocksErased : UInt64

structure GarbageCollector where
  policy : GCPolicy
  overprovisioningPct : UInt32
  threshold : UInt32
  metrics : GCMetrics

/-- `FTL_BLOCKS_PER_PLANE * FTL_PLANES`. -/
abbrev totalBlocks : Nat := 64

def getBlock (blockIdx : Nat) : Option BlockRef :=
  if h : blockIdx / ftlBlocksPerPlane < ftlPlanes ∧
      blockIdx % ftlBlocksPerPlane < ftlBlocksPerPlane then
    some ⟨⟨_, h.1⟩, ⟨_, h.2⟩⟩
  else none

/-- The loop both page counters share: how many pages of the block are in the state. -/
def countPages (block : FlashBlock) (state : PageState) : Nat :=
  (List.finRange ftlPagesPerBlock).countP fun i => (block.pages i).state = state

def countValidPages (block : FlashBlock) : Nat := countPages block .valid

def countInvalidPages (block : FlashBlock) : Nat := countPages block .invalid

def countFreeBlocks (f : FTL) : Nat :=
  (List.range totalBlocks).countP fun i =>
    match getBlock i with
    | some b => countValidPages (f.block b) = 0 ∧ countInvalidPages (f.block b) = 0 ∧
        (f.block b).state = .free
    | none => false

def gcInit (policy : GCPolicy) (opPct threshold : UInt32) : GarbageCollector :=
  ⟨policy, opPct, threshold, ⟨0, 0, 0⟩⟩

/-- The locals of `gc_select_victim`. -/
structure VictimScan where
  bestBlock : Nat
  fewestValid : Nat
  found : Bool

/-- The body of the scan loop. -/
def victimStep (gc : GarbageCollector) (f : FTL) (s : VictimScan) (i : Nat) : VictimScan :=
  match getBlock i with
  | none => s
  | some b =>
    let block := f.block b
    if block.state = .bad ∨ block.state = .free then s
    else
      let valid := countValidPages block
      let invalid := countInvalidPages block
      if 0 < invalid ∧ valid < s.fewestValid then
        match gc.policy with
        | .greedy => ⟨i, valid, true⟩
        | .agedBlocks =>
          match getBlock s.bestBlock with
          | some best =>
            if (f.block best).eraseCount < block.eraseCount then ⟨i, valid, true⟩ else s
          | none => s
        | .costBenefit => ⟨i, valid, true⟩
      else s

/-- `gc_select_victim`; `-1` is `none`. -/
def gcSelectVictim (gc : GarbageCollector) (f : FTL) : Option Nat :=
  let s := (List.range totalBlocks).foldl (victimStep gc f) ⟨0, ftlPagesPerBlock + 1, false⟩
  if s.found then some s.bestBlock else none

/-- `old_block->pages[old_phys % FTL_PAGES_PER_BLOCK].state = PAGE_STATE_INVALID`. -/
def markStale (f : FTL) (lba : Lba) : FTL :=
  match f.mappingTable lba with
  | some oldPhys =>
    match getBlock (blockIndexFromPage oldPhys) with
    | some b =>
      let r : PageRef := ⟨b, ⟨oldPhys.val % ftlPagesPerBlock, Nat.mod_lt _ (by decide)⟩⟩
      f.setPage r { f.page r with state := .invalid }
    | none => f
  | none => f

/-- The loop body of `gc_migrate` for page `i` of the victim. A failing `ftl_write` is
only not counted. -/
def migratePage (victim : BlockRef) (s : GCMetrics × FTL) (i : Fin ftlPagesPerBlock) :
    GCMetrics × FTL :=
  let page := s.2.page ⟨victim, i⟩
  if page.state = .valid then
    match s.2.reverseMap page.id with
    | some lba =>
      let f := markStale s.2 lba
      match ftlWrite f (UInt32.ofNat lba.val) (f.page ⟨victim, i⟩).data with
      | (ret, f) =>
        if ret = 0 then
          ({ s.1 with validPagesCopied := s.1.validPagesCopied + 1 },
            { f with stats := { f.stats with
                gcMoves := f.stats.gcMoves + 1, hostWrites := f.stats.hostWrites - 1 } })
        else (s.1, f)
    | none => s
  else s

def gcMigrate (gc : GarbageCollector) (f : FTL) (victimBlock : Nat) :
    Int × GarbageCollector × FTL :=
  match getBlock victimBlock with
  | none => (-1, gc, f)
  | some v =>
    let s := (List.finRange ftlPagesPerBlock).foldl (migratePage v) (gc.metrics, f)
    (0, { gc with metrics := s.1 }, s.2)

/-- The state of `gc_erase_block` after the page loop and the bookkeeping. -/
def eraseBlock (f : FTL) (b : BlockRef) : FTL :=
  let block := f.block b
  let f := f.setBlock b
    { pages := fun i => { block.pages i with state := .free }
      eraseCount := block.eraseCount + 1
      state := .free }
  { f with
    freePages := f.freePages + 128
    writePointer := PageRef.phys ⟨b, 0⟩
    stats := { f.stats with erases := f.stats.erases + 1 } }

def gcEraseBlock (gc : GarbageCollector) (f : FTL) (blockIdx : Nat) :
    Int × GarbageCollector × FTL :=
  match getBlock blockIdx with
  | none => (-1, gc, f)
  | some b =>
    (0, { gc with metrics := { gc.metrics with blocksErased := gc.metrics.blocksErased + 1 } },
      eraseBlock f b)

/-- `free_needed`, in 32-bit arithmetic. -/
def freeNeeded (gc : GarbageCollector) : UInt32 := UInt32.ofNat totalBlocks * gc.threshold / 100

def gcTrigger (gc : GarbageCollector) (f : FTL) : Int × GarbageCollector × FTL :=
  if (freeNeeded gc).toNat ≤ countFreeBlocks f then (0, gc, f)
  else
    match gcSelectVictim gc f with
    | none => (-1, gc, f)
    | some victim =>
      let gc := { gc with metrics := { gc.metrics with totalBgs := gc.metrics.totalBgs + 1 } }
      match gcMigrate gc f victim with
      | (ret, gc, f) =>
        if ret ≠ 0 then (-2, gc, f)
        else
          match gcEraseBlock gc f victim with
          | (ret, gc, f) => if ret ≠ 0 then (-3, gc, f) else (1, gc, f)

end MiniHardware.Storage
