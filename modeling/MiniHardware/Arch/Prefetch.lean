import MiniHardware.Arch.Predictor
import MiniHardware.Lib.Ring

/-!
# Prefetching (`mini-computer-arch/src/prefetch.c`)

The controller asks one of four prefetchers at every miss and queues what it
names. Behind the tables and buffers each of them looks at the last misses only,
and the queue is one of bounded length (`prefetch_refines`). A prefetch is counted
as used once at most, so coverage and accuracy are ratios (`prefetch_counts`).
The counts and the confidence are numbers, as in runs of fewer than 2^31 calls,
which wrap none of them.
-/

namespace MiniHardware.Arch
open Lib

/-- `PREFETCH_QUEUE_SIZE`. -/
abbrev prefetchQueueSize : Nat := 16

/-- `PREFETCH_RPT_SIZE`. -/
abbrev prefetchRptSize : Nat := 256

/-- `PREFETCH_GHB_SIZE`. -/
abbrev prefetchGhbSize : Nat := 256

/-! ## The prefetchers

A stride is the difference of two addresses as an `int32_t`. -/

structure StridePrefetcher where
  lastAddr : UInt32
  lastStride : Int32
  confidence : Int

def strideRecordAccess (sp : StridePrefetcher) (addr : UInt32) : StridePrefetcher :=
  let currentStride := (addr - sp.lastAddr).toInt32
  if currentStride = sp.lastStride ∧ currentStride ≠ 0 then
    { sp with lastAddr := addr, confidence := sp.confidence + 1 }
  else ⟨addr, currentStride, 0⟩

/-- The address, if one is named, here and below. -/
def strideGetPrefetch (sp : StridePrefetcher) : Option UInt32 :=
  if sp.confidence ≥ 1 then some (sp.lastAddr + sp.lastStride.toUInt32) else none

structure RPTEntry where
  tag : UInt32
  lastAddr : UInt32
  stride : Int32
  state : Nat
  valid : Bool

abbrev RPTPrefetcher := Vector RPTEntry prefetchRptSize

def rptHash (pc : UInt32) : Fin prefetchRptSize := ⟨((pc >>> 2) &&& 255).toNat, and_mask_lt _ _ (by decide)⟩

/-- What becomes of the entry of an access. -/
def rptEntry (e : RPTEntry) (pc addr : UInt32) : RPTEntry :=
  if e.valid = false then ⟨pc >>> 2, addr, 0, 0, true⟩
  else if e.tag ≠ pc >>> 2 then { e with tag := pc >>> 2, lastAddr := addr, stride := 0, state := 0 }
  else
    let newStride := (addr - e.lastAddr).toInt32
    if newStride = e.stride then
      { e with lastAddr := addr, state := if e.state < 3 then e.state + 1 else e.state }
    else { e with lastAddr := addr, stride := newStride, state := 0 }

def rptRecordAccess (rpt : RPTPrefetcher) (pc addr : UInt32) : RPTPrefetcher :=
  let idx := rptHash pc
  rpt.set idx (rptEntry (rpt.get idx) pc addr)

def rptGetPrefetch (rpt : RPTPrefetcher) (pc : UInt32) : Option UInt32 :=
  let e := rpt.get (rptHash pc)
  if e.valid ∧ e.tag = pc >>> 2 ∧ e.state ≥ 1 then some (e.lastAddr + e.stride.toUInt32) else none

structure GHBEntry where
  address : UInt32
  delta : Int32
  nextIdx : Fin prefetchGhbSize

structure GHBPrefetcher where
  ghb : Fin prefetchGhbSize → GHBEntry
  head : Fin prefetchGhbSize
  tail : Fin prefetchGhbSize
  count : Nat

/-- `(idx - 1 + PREFETCH_GHB_SIZE) % PREFETCH_GHB_SIZE`. -/
def ghbBefore (idx : Fin prefetchGhbSize) : Fin prefetchGhbSize := Ring.behind idx (prefetchGhbSize - 1)

def ghbRecordAccess (g : GHBPrefetcher) (addr : UInt32) : GHBPrefetcher :=
  let idx := g.tail
  let delta := if g.count > 0 then (addr - (g.ghb (ghbBefore idx)).address).toInt32 else 0
  { ghb := Function.update g.ghb idx ⟨addr, delta, Ring.behind idx 1⟩
    tail := Ring.behind g.tail 1
    count := if g.count < prefetchGhbSize then g.count + 1 else g.count
    head := if g.count < prefetchGhbSize then g.head else Ring.behind g.head 1 }

def ghbGetPrefetch (g : GHBPrefetcher) : Option UInt32 :=
  if g.count < 2 then none
  else
    let last := g.ghb (ghbBefore g.tail)
    if last.delta ≠ 0 then some (last.address + last.delta.toUInt32) else none

/-! ## The controller -/

inductive PrefetcherType where
  | none | nextLine | stride | markov | rpt | ghb | sms
deriving DecidableEq

structure PrefetchRequest where
  address : UInt32
  issued : Bool
  used : Bool
  timestamp : Nat

structure PrefetchQueue where
  queue : Ring PrefetchRequest prefetchQueueSize
  totalIssued : Nat
  totalUsed : Nat

/-- `nextLine` is the last miss of that prefetcher. -/
structure PrefetchController where
  type : PrefetcherType
  nextLine : UInt32
  stride : StridePrefetcher
  rpt : RPTPrefetcher
  ghb : GHBPrefetcher
  queue : PrefetchQueue
  totalDemandMisses : Nat
  totalPrefetchHits : Nat

def pfInit (type : PrefetcherType) : PrefetchController where
  type := type
  nextLine := 0
  stride := ⟨0, 0, 0⟩
  rpt := Vector.replicate prefetchRptSize ⟨0, 0, 0, 0, false⟩
  ghb := ⟨fun _ => ⟨0, 0, 0⟩, 0, 0, 0⟩
  queue := ⟨⟨fun _ => ⟨0, false, false, 0⟩, 0, 0, 0⟩, 0, 0⟩
  totalDemandMisses := 0
  totalPrefetchHits := 0

/-- The switch over the types: what is named, and the prefetchers after it. -/
def pfPredict (pf : PrefetchController) (missAddr missPc : UInt32) : Option UInt32 × PrefetchController :=
  match pf.type with
  | .nextLine => (some (missAddr + 64), { pf with nextLine := missAddr })
  | .stride =>
    let stride := strideRecordAccess pf.stride missAddr
    (strideGetPrefetch stride, { pf with stride })
  | .rpt =>
    let rpt := rptRecordAccess pf.rpt missPc missAddr
    (rptGetPrefetch rpt missPc, { pf with rpt })
  | .ghb =>
    let ghb := ghbRecordAccess pf.ghb missAddr
    (ghbGetPrefetch ghb, { pf with ghb })
  | _ => (Option.none, pf)

/-- A prefetch of address 0 is not queued, and none when the queue is full. -/
def pfEnqueue (pf : PrefetchController) (pfAddr : UInt32) : PrefetchController :=
  if pfAddr ≠ 0 ∧ pf.queue.queue.count < prefetchQueueSize then
    { pf with queue :=
      { pf.queue with
        queue := pf.queue.queue.push ⟨pfAddr, true, false, pf.totalDemandMisses⟩
        totalIssued := pf.queue.totalIssued + 1 } }
  else pf

def pfRequestPrefetch (pf : PrefetchController) (missAddr missPc : UInt32) : Bool × PrefetchController :=
  let pf := { pf with totalDemandMisses := pf.totalDemandMisses + 1 }
  match pfPredict pf missAddr missPc with
  | (Option.none, pf) => (false, pf)
  | (some pfAddr, pf) => (true, pfEnqueue pf pfAddr)

def pfGetPrefetch (pf : PrefetchController) : Option UInt32 × PrefetchController :=
  let queue := pf.queue.queue
  if queue.count = 0 then (Option.none, pf)
  else (some (queue.cells queue.head).address, { pf with queue := { pf.queue with queue := queue.pop } })

/-- The cell of a prefetch of the address. -/
def pfFind (cells : Fin prefetchQueueSize → PrefetchRequest) (addr : UInt32) : Option (Fin prefetchQueueSize) :=
  (List.finRange prefetchQueueSize).find? fun i => (cells i).address == addr && (cells i).issued

def pfNotifyUse (pf : PrefetchController) (addr : UInt32) : PrefetchController :=
  let queue := pf.queue.queue
  match pfFind queue.cells addr with
  | Option.none => pf
  | some i =>
    if (queue.cells i).used then pf
    else
      { pf with
        queue :=
          { pf.queue with
            queue := { queue with cells := Function.update queue.cells i { queue.cells i with used := true } }
            totalUsed := pf.queue.totalUsed + 1 }
        totalPrefetchHits := pf.totalPrefetchHits + 1 }

inductive PrefetchOp where
  | request (missAddr missPc : UInt32)
  | get
  | notifyUse (addr : UInt32)

inductive PrefetchAnswer where
  | issued (issued : Bool)
  | prefetch (addr : Option UInt32)
  | done

def pfStep (pf : PrefetchController) : PrefetchOp → PrefetchAnswer × PrefetchController
  | .request missAddr missPc => (.issued (pfRequestPrefetch pf missAddr missPc).1, (pfRequestPrefetch pf missAddr missPc).2)
  | .get => (.prefetch (pfGetPrefetch pf).1, (pfGetPrefetch pf).2)
  | .notifyUse addr => (.done, pfNotifyUse pf addr)

/-! ## What they look at

The misses that came before are listed the last one first, with their addresses and their branches' words. -/

/-- The stride of the last access of a list. -/
def lastStride : List UInt32 → UInt32
  | a :: b :: _ => a - b
  | _ => 0

/-- The stride of the last access, if it repeats the one before it. -/
def steadyStride : List UInt32 → Option UInt32
  | a :: b :: r => if a - b = lastStride (b :: r) then some (a - b) else none
  | _ => none

/-- The instructions have the same tag. -/
def sameWord (pc pc' : UInt32) : Bool := pc >>> 2 = pc' >>> 2

/-- The accesses at the front of a list that have the tag of an instruction. -/
def ownRun (pc : UInt32) (misses : List (UInt32 × UInt32)) : List UInt32 :=
  (misses.takeWhile fun m => sameWord m.2 pc).map Prod.fst

/-- The accesses that came to the entry of an instruction. -/
def entryMisses (idx : Fin prefetchRptSize) (misses : List (UInt32 × UInt32)) : List (UInt32 × UInt32) :=
  misses.filter fun m => rptHash m.2 == idx

/-- What a prefetcher names after the misses. -/
def predicted : PrefetcherType → List (UInt32 × UInt32) → Option UInt32
  | .nextLine, (a, _) :: _ => some (a + 64)
  | .stride, (a, pc) :: misses =>
    ((steadyStride (((a, pc) :: misses).map Prod.fst ++ [0])).filter (· != 0)).map (a + ·)
  | .rpt, (a, pc) :: misses => (steadyStride (ownRun pc (entryMisses (rptHash pc) ((a, pc) :: misses)))).map (a + ·)
  | .ghb, (a, _) :: (b, _) :: _ => if a ≠ b then some (a + (a - b)) else none
  | _, _ => none

section Tracks
variable {a b pc : UInt32} {misses : List (UInt32 × UInt32)}

theorem toInt32_inj {x y : UInt32} : x.toInt32 = y.toInt32 ↔ x = y := by
  constructor
  · intro eq
    exact congrArg Int32.toUInt32 eq
  · rintro rfl
    rfl

theorem toInt32_eq_zero {x : UInt32} : x.toInt32 = 0 ↔ x = 0 := toInt32_inj (y := 0)

/-- The last two addresses, of which there were none but 0 before the run. -/
structure TracksStride (misses : List (UInt32 × UInt32)) (sp : StridePrefetcher) : Prop where
  addr : sp.lastAddr = (misses.map Prod.fst ++ [0]).headD 0
  stride : sp.lastStride = (lastStride (misses.map Prod.fst ++ [0])).toInt32
  confident : 0 ≤ sp.confidence

/-- One miss more: the stride prefetcher predicts as the history says, and tracks it. -/
theorem TracksStride.record {sp : StridePrefetcher} (h : TracksStride misses sp) (a pc : UInt32) :
    strideGetPrefetch (strideRecordAccess sp a) = predicted .stride ((a, pc) :: misses) ∧
      TracksStride ((a, pc) :: misses) (strideRecordAccess sp a) := by
  obtain ⟨b, r, eq⟩ : ∃ b r, misses.map Prod.fst ++ [0] = b :: r := by
    cases misses with
    | nil => exact ⟨0, [], rfl⟩
    | cons m misses => exact ⟨m.1, misses.map Prod.fst ++ [0], rfl⟩
  have addr := h.addr
  have stride := h.stride
  have confident := h.confident
  have more : ((a, pc) :: misses).map Prod.fst ++ [0] = a :: b :: r := by
    rw [List.map_cons, List.cons_append, eq]
  rw [eq, List.headD_cons] at addr
  rw [eq] at stride
  have same : (a - b).toInt32 = sp.lastStride ↔ a - b = lastStride (b :: r) := by
    rw [stride, toInt32_inj]
  have zero : (a - b).toInt32 ≠ 0 ↔ a - b ≠ 0 := toInt32_inj.not
  rw [predicted, more, steadyStride, strideRecordAccess, addr]
  have tracked (c : Int) (pos : 0 ≤ c) : TracksStride ((a, pc) :: misses) ⟨a, (a - b).toInt32, c⟩ :=
    ⟨by rw [more, List.headD_cons], by rw [more, lastStride], pos⟩
  by_cases repeats : a - b = lastStride (b :: r)
  · rw [if_pos repeats]
    by_cases moves : a - b ≠ 0
    · have named : strideGetPrefetch ⟨a, (a - b).toInt32, sp.confidence + 1⟩ = some (a + (a - b)) :=
        if_pos (by show sp.confidence + 1 ≥ 1; omega)
      rw [if_pos ⟨same.2 repeats, zero.2 moves⟩, ← same.2 repeats, named, Option.filter_some,
        if_pos (bne_iff_ne.2 moves)]
      exact ⟨rfl, tracked _ (by omega)⟩
    · rw [if_neg fun both => moves (zero.1 both.2), Option.filter_some, if_neg fun ne => moves (bne_iff_ne.1 ne)]
      exact ⟨rfl, tracked 0 (le_refl 0)⟩
  · rw [if_neg repeats, if_neg fun both => repeats (same.1 both.1)]
    exact ⟨rfl, tracked 0 (le_refl 0)⟩

/-- The entry of a table has the last access of those that came to it, if one did. -/
def TracksEntry (e : RPTEntry) : List (UInt32 × UInt32) → Prop
  | [] => e.valid = false
  | (a, pc) :: misses => e.valid = true ∧ e.tag = pc >>> 2 ∧ e.lastAddr = a ∧
      e.stride = (lastStride (ownRun pc ((a, pc) :: misses))).toInt32

/-- The run of a program counter, from its last miss on. -/
theorem ownRun_cons (a pc : UInt32) (misses : List (UInt32 × UInt32)) :
    ownRun pc ((a, pc) :: misses) = a :: ownRun pc misses := by
  have self : sameWord pc pc = true := decide_eq_true rfl
  rw [ownRun, List.takeWhile_cons, if_pos self]
  rfl

/-- What an access makes of its entry; the state says whether its stride repeated the one before it. -/
theorem TracksEntry.record {e : RPTEntry} (h : TracksEntry e misses) (a pc : UInt32) :
    TracksEntry (rptEntry e pc a) ((a, pc) :: misses) ∧
      steadyStride (ownRun pc ((a, pc) :: misses)) =
        if (rptEntry e pc a).state ≥ 1 then some (rptEntry e pc a).stride.toUInt32 else none := by
  have fresh (other : ownRun pc misses = []) (state : rptEntry e pc a = ⟨pc >>> 2, a, 0, 0, true⟩) :
      TracksEntry (rptEntry e pc a) ((a, pc) :: misses) ∧
        steadyStride (ownRun pc ((a, pc) :: misses)) =
          if (rptEntry e pc a).state ≥ 1 then some (rptEntry e pc a).stride.toUInt32 else none := by
    rw [TracksEntry, ownRun_cons, other, state]
    exact ⟨⟨rfl, rfl, rfl, rfl⟩, rfl⟩
  cases misses with
  | nil => exact fresh rfl (if_pos h)
  | cons m misses =>
    obtain ⟨b, pc'⟩ := m
    obtain ⟨valid, tag, addr, stride⟩ := h
    have there : ¬ e.valid = false := by
      rw [valid]
      decide
    by_cases word : sameWord pc' pc = true
    · have eq : pc' >>> 2 = pc >>> 2 := decide_eq_true_iff.1 word
      have mine : ownRun pc ((b, pc') :: misses) = ownRun pc' ((b, pc') :: misses) := by
        rw [ownRun, ownRun]
        simp only [sameWord, eq]
      rw [TracksEntry, ownRun_cons, mine, ownRun_cons, lastStride, steadyStride, rptEntry, if_neg there,
        if_neg (not_not.2 (tag.trans eq)), addr]
      rw [ownRun_cons] at stride
      have same : (a - b).toInt32 = e.stride ↔ a - b = lastStride (b :: ownRun pc' misses) := by
        rw [stride, toInt32_inj]
      dsimp only
      by_cases repeats : a - b = lastStride (b :: ownRun pc' misses)
      · rw [if_pos (same.2 repeats), if_pos repeats]
        refine ⟨⟨valid, tag.trans eq, rfl, (same.2 repeats).symm⟩, ?_⟩
        have sure : (if e.state < 3 then e.state + 1 else e.state) ≥ 1 := by
          split <;> omega
        rw [if_pos sure, ← same.2 repeats]
        rfl
      · rw [if_neg fun eq => repeats (same.1 eq), if_neg repeats]
        exact ⟨⟨valid, tag.trans eq, rfl, rfl⟩, rfl⟩
    · have ne : e.tag ≠ pc >>> 2 := by
        rw [tag]
        exact fun eq => word (decide_eq_true eq)
      refine fresh ?_ ?_
      · rw [ownRun, List.takeWhile_cons, if_neg word]
        rfl
      · rw [rptEntry, if_neg there, if_pos ne, valid]

/-- Every entry of the table. -/
def TracksRpt (misses : List (UInt32 × UInt32)) (rpt : RPTPrefetcher) : Prop :=
  ∀ idx, TracksEntry (rpt.get idx) (entryMisses idx misses)

/-- One miss more: the reference prediction table predicts as the history says, and tracks it. -/
theorem TracksRpt.record {rpt : RPTPrefetcher} (h : TracksRpt misses rpt) (a pc : UInt32) :
    rptGetPrefetch (rptRecordAccess rpt pc a) pc = predicted .rpt ((a, pc) :: misses) ∧
      TracksRpt ((a, pc) :: misses) (rptRecordAccess rpt pc a) := by
  have mine : entryMisses (rptHash pc) ((a, pc) :: misses) = (a, pc) :: entryMisses (rptHash pc) misses :=
    List.filter_cons_of_pos (beq_iff_eq.2 rfl)
  obtain ⟨tracks, steady⟩ := (h (rptHash pc)).record a pc
  have ⟨valid, tag, addr, _⟩ := tracks
  constructor
  · rw [predicted, mine, steady, rptGetPrefetch, rptRecordAccess, get_set, if_pos rfl]
    by_cases sure : (rptEntry (rpt.get (rptHash pc)) pc a).state ≥ 1
    · rw [if_pos ⟨valid, tag, sure⟩, if_pos sure, addr]
      rfl
    · rw [if_neg fun all => sure all.2.2, if_neg sure]
      rfl
  · intro idx
    rw [rptRecordAccess, get_set]
    split
    · rename_i eq
      subst eq
      rw [mine]
      exact tracks
    · rename_i ne
      have other : entryMisses idx ((a, pc) :: misses) = entryMisses idx misses :=
        List.filter_cons_of_neg fun eq => ne (beq_iff_eq.1 eq).symm
      rw [other]
      exact h idx

/-- The cell before the tail has the last address, and the count is right up to the size. -/
structure TracksGhb (misses : List (UInt32 × UInt32)) (g : GHBPrefetcher) : Prop where
  count : g.count = min misses.length prefetchGhbSize
  last : ∀ m ∈ misses.head?, (g.ghb (ghbBefore g.tail)).address = m.1

/-- The cell before the next one. -/
theorem ghbBefore_behind (idx : Fin prefetchGhbSize) : ghbBefore (Ring.behind idx 1) = idx := by
  apply Fin.ext
  have lt : idx.val < 256 := idx.isLt
  show ((idx.val + 1) % 256 + 255) % 256 = idx.val
  omega

/-- One miss more: the global history buffer predicts as the history says, and tracks it. -/
theorem TracksGhb.record {g : GHBPrefetcher} (h : TracksGhb misses g) (a pc : UInt32) :
    ghbGetPrefetch (ghbRecordAccess g a) = predicted .ghb ((a, pc) :: misses) ∧
      TracksGhb ((a, pc) :: misses) (ghbRecordAccess g a) := by
  have count := h.count
  have counted : (ghbRecordAccess g a).count = min (misses.length + 1) prefetchGhbSize := by
    show (if g.count < prefetchGhbSize then g.count + 1 else g.count) = _
    rw [count]
    split <;> omega
  have last (delta : Int32) : Function.update g.ghb g.tail ⟨a, delta, Ring.behind g.tail 1⟩
      (ghbBefore (Ring.behind g.tail 1)) = ⟨a, delta, Ring.behind g.tail 1⟩ := by
    rw [ghbBefore_behind, Function.update_self]
  refine ⟨?_, counted, fun m mem => ?_⟩
  · rw [ghbGetPrefetch, counted]
    cases misses with
    | nil => rfl
    | cons m misses =>
      have size : prefetchGhbSize = 256 := rfl
      have some_miss : g.count > 0 := by
        rw [count, List.length_cons, size]
        omega
      have several : ¬ min ((m :: misses).length + 1) prefetchGhbSize < 2 := by
        rw [List.length_cons, size]
        omega
      have before : (g.ghb (ghbBefore g.tail)).address = m.1 := h.last m rfl
      rw [if_neg several, predicted]
      show (if (Function.update g.ghb g.tail _ (ghbBefore (Ring.behind g.tail 1))).delta ≠ 0 then
        some ((Function.update g.ghb g.tail _ (ghbBefore (Ring.behind g.tail 1))).address +
          (Function.update g.ghb g.tail _ (ghbBefore (Ring.behind g.tail 1))).delta.toUInt32) else none) = _
      rw [last, if_pos some_miss, before]
      refine if_congr ?_ rfl rfl
      rw [ne_eq, toInt32_eq_zero]
      refine not_congr ⟨fun zero => ?_, fun eq => ?_⟩
      · rw [← UInt32.sub_add_cancel a m.1, zero, UInt32.zero_add]
      · rw [eq, UInt32.sub_self]
  · obtain rfl : (a, pc) = m := Option.some.inj mem
    exact congrArg GHBEntry.address (last _)

/-- The prefetcher of the type has seen the misses. -/
def Tracks (misses : List (UInt32 × UInt32)) (pf : PrefetchController) : Prop :=
  match pf.type with
  | .stride => TracksStride misses pf.stride
  | .rpt => TracksRpt misses pf.rpt
  | .ghb => TracksGhb misses pf.ghb
  | _ => True

/-- A new controller tracks the empty history. -/
theorem tracks_init (type : PrefetcherType) : Tracks [] (pfInit type) := by
  cases type with
  | stride => exact ⟨rfl, rfl, le_refl 0⟩
  | rpt =>
    intro idx
    have entry : (pfInit .rpt).rpt.get idx = ⟨0, 0, 0, 0, false⟩ := get_replicate _ idx
    rw [entry]
    rfl
  | ghb => exact ⟨rfl, nofun⟩
  | _ => trivial

/-- Nothing but the prefetchers is changed. -/
theorem pfPredict_others (pf : PrefetchController) (a pc : UInt32) :
    (pfPredict pf a pc).2.type = pf.type ∧ (pfPredict pf a pc).2.queue = pf.queue ∧
      (pfPredict pf a pc).2.totalDemandMisses = pf.totalDemandMisses ∧
      (pfPredict pf a pc).2.totalPrefetchHits = pf.totalPrefetchHits := by
  rw [pfPredict]
  split <;> exact ⟨rfl, rfl, rfl, rfl⟩

/-- Whatever the type, a miss is predicted as the history says. -/
theorem Tracks.predict {pf : PrefetchController} (h : Tracks misses pf) (a pc : UInt32) :
    (pfPredict pf a pc).1 = predicted pf.type ((a, pc) :: misses) ∧ Tracks ((a, pc) :: misses) (pfPredict pf a pc).2 := by
  rw [Tracks] at h
  unfold pfPredict Tracks
  cases type : pf.type with
  | stride =>
    rw [type] at h
    exact h.record a pc
  | rpt =>
    rw [type] at h
    exact h.record a pc
  | ghb =>
    rw [type] at h
    exact h.record a pc
  | nextLine => exact ⟨rfl, trivial⟩
  | none | markov | sms =>
    refine ⟨rfl, ?_⟩
    simp only [type]

end Tracks

/-! ## The queue -/

/-- Every miss, the last one first, and the addresses that wait in the queue. -/
structure PrefetchSpec where
  misses : List (UInt32 × UInt32)
  queue : List UInt32

/-- What the controller is to do: queue what is predicted if it is not 0 and there is room, and hand it out in order. -/
def specStep (type : PrefetcherType) (s : PrefetchSpec) : PrefetchOp → PrefetchAnswer × PrefetchSpec
  | .request missAddr missPc =>
    let misses := (missAddr, missPc) :: s.misses
    let named := (predicted type misses).filter fun addr => addr != 0 && decide (s.queue.length < prefetchQueueSize)
    (.issued (predicted type misses).isSome, ⟨misses, s.queue ++ named.toList⟩)
  | .get => (.prefetch s.queue.head?, { s with queue := s.queue.tail })
  | .notifyUse _ => (.done, s)

section Refinement
variable {pf : PrefetchController} {s : PrefetchSpec}

/-- The addresses in the queue of the controller. -/
def PrefetchController.waiting (pf : PrefetchController) : List UInt32 := pf.queue.queue.toList.map PrefetchRequest.address

structure Refines (type : PrefetcherType) (pf : PrefetchController) (s : PrefetchSpec) : Prop where
  type : pf.type = type
  tracks : Tracks s.misses pf
  valid : pf.queue.queue.Valid
  waiting : pf.waiting = s.queue

/-- A nonzero address is queued if there is room. -/
theorem waiting_enqueue (valid : pf.queue.queue.Valid) (addr : UInt32) :
    (pfEnqueue pf addr).waiting = pf.waiting ++ ((some addr).filter fun addr =>
        addr != 0 && decide (pf.waiting.length < prefetchQueueSize)).toList ∧
      (pfEnqueue pf addr).queue.queue.Valid := by
  have length : pf.waiting.length = pf.queue.queue.count := by
    rw [PrefetchController.waiting, List.length_map, Ring.length_toList]
  rw [length, Option.filter_some, pfEnqueue]
  by_cases room : addr ≠ 0 ∧ pf.queue.queue.count < prefetchQueueSize
  · have both : (addr != 0 && decide (pf.queue.queue.count < prefetchQueueSize)) = true :=
      Bool.and_eq_true_iff.2 ⟨bne_iff_ne.2 room.1, decide_eq_true room.2⟩
    rw [if_pos room, if_pos both]
    refine ⟨?_, valid.push room.2 _⟩
    show (Ring.toList (Ring.push _ _)).map PrefetchRequest.address = _
    rw [Ring.toList_push valid room.2, List.map_append]
    rfl
  · have neither : ¬ (addr != 0 && decide (pf.queue.queue.count < prefetchQueueSize)) = true := by
      intro both
      obtain ⟨ne, lt⟩ := Bool.and_eq_true_iff.1 both
      exact room ⟨bne_iff_ne.1 ne, of_decide_eq_true lt⟩
    rw [if_neg room, if_neg neither, Option.toList_none, List.append_nil]
    exact ⟨rfl, valid⟩

/-- Queueing keeps the type. -/
theorem type_enqueue (pf : PrefetchController) (addr : UInt32) : (pfEnqueue pf addr).type = pf.type := by
  rw [pfEnqueue]
  split <;> rfl

/-- Queueing is not a miss. -/
theorem tracks_enqueue {misses : List (UInt32 × UInt32)} (addr : UInt32) :
    Tracks misses (pfEnqueue pf addr) ↔ Tracks misses pf := by
  rw [pfEnqueue]
  split <;> rfl

/-- Every call answers as the abstract prefetcher does, and keeps the refinement. -/
theorem refines_step {type : PrefetcherType} (h : Refines type pf s) (op : PrefetchOp) :
    (pfStep pf op).1 = (specStep type s op).1 ∧ Refines type (pfStep pf op).2 (specStep type s op).2 := by
  cases op with
  | request missAddr missPc =>
    have counted : Tracks s.misses { pf with totalDemandMisses := pf.totalDemandMisses + 1 } := h.tracks
    obtain ⟨named, tracks⟩ := counted.predict missAddr missPc
    obtain ⟨same, queue, -⟩ := pfPredict_others { pf with totalDemandMisses := pf.totalDemandMisses + 1 } missAddr missPc
    have type' := same.trans h.type
    have waiting : (pfPredict { pf with totalDemandMisses := pf.totalDemandMisses + 1 } missAddr missPc).2.waiting =
        s.queue := by
      rw [PrefetchController.waiting, queue]
      exact h.waiting
    have valid := h.valid
    rw [show pf.queue = _ from queue.symm] at valid
    have named := named.trans (congrArg (predicted · ((missAddr, missPc) :: s.misses)) h.type)
    rw [pfStep, specStep, pfRequestPrefetch]
    dsimp only at named ⊢
    rw [← named]
    generalize pfPredict { pf with totalDemandMisses := pf.totalDemandMisses + 1 } missAddr missPc = answer
      at tracks type' waiting valid
    obtain ⟨addr, pf'⟩ := answer
    cases addr with
    | none => exact ⟨rfl, type', tracks, valid, waiting.trans (List.append_nil s.queue).symm⟩
    | some addr =>
      obtain ⟨queued, valid'⟩ := waiting_enqueue valid addr
      rw [waiting] at queued
      exact ⟨rfl, (type_enqueue pf' addr).trans type', (tracks_enqueue addr).2 tracks, valid', queued⟩
  | get =>
    rw [pfStep, specStep, pfGetPrefetch, ← h.waiting, PrefetchController.waiting]
    dsimp only
    by_cases empty : pf.queue.queue.count = 0
    · have none : pf.queue.queue.toList = [] := List.eq_nil_of_length_eq_zero ((Ring.length_toList _).trans empty)
      rw [if_pos empty, none]
      exact ⟨rfl, h.type, h.tracks, h.valid, congrArg _ none⟩
    · have pos := Nat.pos_of_ne_zero empty
      rw [if_neg empty, Ring.toList_pop pos]
      exact ⟨rfl, h.type, h.tracks, h.valid.pop pos, rfl⟩
  | notifyUse addr =>
    refine ⟨rfl, ?_⟩
    rw [pfStep, specStep, pfNotifyUse]
    dsimp only
    split
    · exact h
    · rename_i i _
      split
      · exact h
      · refine ⟨h.type, h.tracks, ⟨h.valid.count_le, h.valid.tail⟩, Eq.trans ?_ h.waiting⟩
        rw [PrefetchController.waiting, PrefetchController.waiting, Ring.toList, Ring.toList, List.map_map, List.map_map]
        refine List.map_congr_left fun j _ => ?_
        show (Function.update pf.queue.queue.cells i _ (pf.queue.queue.index j)).address = _
        by_cases eq : pf.queue.queue.index j = i
        · rw [eq, Function.update_self]
          exact congrArg (fun k => (pf.queue.queue.cells k).address) eq.symm
        · rw [Function.update_of_ne eq]
          rfl

/-- **The prefetcher is its specification:** over every run of misses, gets and uses it answers as a bounded queue of
what is predicted from the last misses. -/
theorem prefetch_refines (type : PrefetcherType) (ops : List PrefetchOp) :
    answers pfStep (pfInit type) ops = answers (specStep type) ⟨[], []⟩ ops :=
  answers_sim (Refines type) (fun _ _ op h => refines_step h op)
    ⟨rfl, tracks_init type, ⟨Nat.zero_le _, rfl⟩, rfl⟩ ops

end Refinement

/-! ## Coverage and accuracy -/

section Counts
variable {pf : PrefetchController} {cells : Fin prefetchQueueSize → PrefetchRequest}

/-- The cells whose prefetch was issued, and has not been used yet. -/
def unused (cells : Fin prefetchQueueSize → PrefetchRequest) : Finset (Fin prefetchQueueSize) :=
  Finset.univ.filter fun i => (cells i).issued = true ∧ (cells i).used = false

/-- The requests issued and not yet used. -/
theorem mem_unused {i : Fin prefetchQueueSize} :
    i ∈ unused cells ↔ (cells i).issued = true ∧ (cells i).used = false := by
  rw [unused, Finset.mem_filter]
  exact and_iff_right (Finset.mem_univ i)

/-- Issuing adds one at most. -/
theorem card_unused_issue (i : Fin prefetchQueueSize) (req : PrefetchRequest) :
    (unused (Function.update cells i req)).card ≤ (unused cells).card + 1 := by
  have sub : unused (Function.update cells i req) ⊆ insert i (unused cells) := by
    intro j mem
    rw [Finset.mem_insert]
    by_cases eq : j = i
    · exact Or.inl eq
    · rw [mem_unused, Function.update_of_ne eq] at mem
      exact Or.inr (mem_unused.2 mem)
  exact le_trans (Finset.card_le_card sub) (Finset.card_insert_le _ _)

/-- A use takes one away. -/
theorem card_unused_use {i : Fin prefetchQueueSize} {req : PrefetchRequest} (mem : i ∈ unused cells)
    (used : req.used = true) : (unused (Function.update cells i req)).card + 1 ≤ (unused cells).card := by
  have sub : unused (Function.update cells i req) ⊆ (unused cells).erase i := by
    intro j mem
    rw [Finset.mem_erase]
    by_cases eq : j = i
    · rw [mem_unused, eq, Function.update_self, used] at mem
      exact absurd mem.2 (by decide)
    · rw [mem_unused, Function.update_of_ne eq] at mem
      exact ⟨eq, mem_unused.2 mem⟩
  have le := Finset.card_le_card sub
  have pos := Finset.card_pos.2 ⟨i, mem⟩
  rw [Finset.card_erase_of_mem mem] at le
  omega

/-- A use is the use of a prefetch that was issued, and a prefetch is issued for a miss. -/
structure Counted (pf : PrefetchController) : Prop where
  hits : pf.totalPrefetchHits = pf.queue.totalUsed
  used : pf.queue.totalUsed + (unused pf.queue.queue.cells).card ≤ pf.queue.totalIssued
  issued : pf.queue.totalIssued ≤ pf.totalDemandMisses

/-- A request keeps the counts in order. -/
theorem Counted.request (h : Counted pf) (missAddr missPc : UInt32) : Counted (pfRequestPrefetch pf missAddr missPc).2 := by
  have hits := h.hits
  have used := h.used
  have issued := h.issued
  obtain ⟨-, queue, misses, hits'⟩ :=
    pfPredict_others { pf with totalDemandMisses := pf.totalDemandMisses + 1 } missAddr missPc
  rw [pfRequestPrefetch]
  dsimp only at queue misses hits' ⊢
  generalize pfPredict { pf with totalDemandMisses := pf.totalDemandMisses + 1 } missAddr missPc = answer
    at queue misses hits'
  obtain ⟨addr, pf'⟩ := answer
  dsimp only at queue misses hits'
  have same : Counted pf' := by
    refine ⟨?_, ?_, ?_⟩ <;> rw [queue]
    · rw [hits', hits]
    · exact used
    · rw [misses]
      omega
  cases addr with
  | none => exact same
  | some addr =>
    show Counted (pfEnqueue pf' addr)
    rw [pfEnqueue]
    split
    · refine ⟨same.hits, ?_, ?_⟩
      · exact le_trans (Nat.add_le_add_left (card_unused_issue _ _) _) (Nat.succ_le_succ same.used)
      · show pf'.queue.totalIssued + 1 ≤ pf'.totalDemandMisses
        rw [queue, misses]
        omega
    · exact same

/-- A use keeps the counts in order. -/
theorem Counted.notifyUse (h : Counted pf) (addr : UInt32) : Counted (pfNotifyUse pf addr) := by
  rw [pfNotifyUse]
  dsimp only
  split
  · exact h
  · rename_i i found
    split
    · exact h
    · rename_i fresh
      have issued := List.find?_some found
      have mem : i ∈ unused pf.queue.queue.cells :=
        mem_unused.2 ⟨(Bool.and_eq_true_iff.1 issued).2, Bool.eq_false_of_not_eq_true fresh⟩
      refine ⟨congrArg (· + 1) h.hits, ?_, h.issued⟩
      rw [add_assoc, add_comm 1]
      exact le_trans (Nat.add_le_add_left (card_unused_use mem rfl) _) h.used

/-- **Coverage and accuracy are at most 1:** over every run the prefetches used are among those issued, each for a
miss of its own. -/
theorem prefetch_counts (type : PrefetcherType) (ops : List PrefetchOp) :
    Counted (run (fun pf op => (pfStep pf op).2) (pfInit type) ops) := by
  refine run_invariant (fun pf op h => ?_) ⟨rfl, le_of_eq rfl, le_refl _⟩ ops
  cases op with
  | request missAddr missPc => exact h.request missAddr missPc
  | get =>
    show Counted (pfGetPrefetch pf).2
    rw [pfGetPrefetch]
    dsimp only
    split
    · exact h
    · exact ⟨h.hits, h.used, h.issued⟩
  | notifyUse addr => exact h.notifyUse addr

end Counts

end MiniHardware.Arch
