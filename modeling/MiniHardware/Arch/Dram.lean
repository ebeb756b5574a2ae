import Mathlib.Algebra.Order.Group.Nat
import Mathlib.Data.Multiset.AddSub
import MiniHardware.Lib.Index
import MiniHardware.Lib.Ring

/-!
# The DRAM controller (`mini-computer-arch/src/dram_controller.c`)

Requests wait in a ring. In every cycle a policy may exchange them in place,
and the first one is looked at: it is popped when its row is open, else its
bank is precharged or activated. Requests are neither lost nor duplicated,
which the counters bear out.
-/

namespace MiniHardware.Arch
open Lib

/-- `DRAM_REQ_QUEUE_SIZE`. -/
abbrev dramReqQueueSize : Nat := 64

/-- `DRAM_MAX_BANKS * DRAM_MAX_RANKS`. -/
abbrev dramBanks : Nat := 16

/-- The timing parameters that are read. The refresh interval divides. -/
structure DRAMTiming where
  tRCD : UInt32
  tRP : UInt32
  tRFC : UInt32
  tREFI : UInt32
  pos : 0 < tREFI

def ddr4_3200Default : DRAMTiming := ⟨14, 14, 560, 12480, by decide⟩

structure MemRequest where
  address : UInt64
  bank : Fin dramBanks
  row : UInt32
  col : UInt32
  rank : UInt32
  isWrite : Bool
  arrivalTime : UInt64
  deadline : UInt64
  priority : UInt32
  id : UInt32
  completed : Bool

inductive BankState where
  | idle | activating | active | precharging | refreshing
deriving DecidableEq

structure DRAMBank where
  state : BankState
  openRow : UInt32
  rowValid : Bool
  readyTime : UInt64
  activeCount : UInt64
  rowMissCount : UInt64
  rowHitCount : UInt64

inductive SchedulingPolicy where
  | fcfs | frFcfs | stfm | parbs | atlas | tcm | bliss
deriving DecidableEq

structure DRAMController where
  banks : Fin dramBanks → DRAMBank
  numBanks : UInt32
  numRanks : UInt32
  /-- The loops over the banks stay inside the array. -/
  banksIn : (numBanks * numRanks).toNat ≤ dramBanks
  timing : DRAMTiming
  reqQueue : Ring MemRequest dramReqQueueSize
  policy : SchedulingPolicy
  cycles : UInt64
  totalReads : UInt64
  totalWrites : UInt64
  rowHits : UInt64
  rowConflicts : UInt64
  refreshCycles : UInt64
  stallCycles : UInt64
  activeBanks : UInt32
  bankLevelParallelism : UInt64
  blpSamples : UInt32

theorem decoded_bank_lt (addr : UInt64) :
    (((((addr >>> 14) &&& 3).toUInt32 <<< 2) ||| ((addr >>> 12) &&& 3).toUInt32) : UInt32).toNat < dramBanks := by
  have two : ∀ x : UInt64, (x &&& 3).toNat < 4 := by
    intro x
    rw [UInt64.toNat_and]
    exact Nat.lt_succ_of_le Nat.and_le_right
  have shifted : ((((addr >>> 14) &&& 3).toUInt32 <<< 2 : UInt32)).toNat < 2 ^ 4 := by
    have := two (addr >>> 14)
    rw [UInt32.toNat_shiftLeft, UInt64.toNat_toUInt32, Nat.shiftLeft_eq]
    show _ * 2 ^ 2 % 2 ^ 32 < 2 ^ 4
    omega
  rw [UInt32.toNat_or]
  refine Nat.or_lt_two_pow shifted ?_
  rw [UInt64.toNat_toUInt32]
  have := two (addr >>> 12)
  exact (Nat.mod_le _ _).trans_lt (by omega)

/-- What `dram_decode_address` writes to `*bank`. -/
def decodeBank (addr : UInt64) : Fin dramBanks :=
  let bg := ((addr >>> 14) &&& 3).toUInt32
  let ba := ((addr >>> 12) &&& 3).toUInt32
  ⟨((bg <<< 2) ||| ba).toNat, decoded_bank_lt addr⟩

def zeroBank : DRAMBank := ⟨.idle, 0, false, 0, 0, 0, 0⟩

def zeroRequest : MemRequest := ⟨0, 0, 0, 0, 0, false, 0, 0, 0, 0, false⟩

/-- Without a timing the default is taken. -/
def dramInit (numBanks numRanks : UInt32) (banksIn : (numBanks * numRanks).toNat ≤ dramBanks)
    (timing : Option DRAMTiming) (policy : SchedulingPolicy) : DRAMController where
  banks _ := zeroBank
  numBanks := numBanks
  numRanks := numRanks
  banksIn := banksIn
  timing := timing.getD ddr4_3200Default
  reqQueue := ⟨fun _ => zeroRequest, 0, 0, 0⟩
  policy := policy
  cycles := 0
  totalReads := 0
  totalWrites := 0
  rowHits := 0
  rowConflicts := 0
  refreshCycles := 0
  stallCycles := 0
  activeBanks := 0
  bankLevelParallelism := 0
  blpSamples := 0

/-- The request that `dram_enqueue` puts at the tail. -/
def newRequest (ctrl : DRAMController) (addr : UInt64) (isWrite : Bool) (id : UInt32) : MemRequest where
  address := addr
  bank := decodeBank addr
  row := ((addr >>> 16) &&& 0xFFFF).toUInt32
  col := ((addr >>> 2) &&& 0x3FF).toUInt32
  rank := ((addr >>> 32) &&& 1).toUInt32
  isWrite := isWrite
  arrivalTime := ctrl.cycles
  deadline := ctrl.cycles + 1000
  priority := 0
  id := id
  completed := false

def dramEnqueue (ctrl : DRAMController) (addr : UInt64) (isWrite : Bool) (id : UInt32) : Bool × DRAMController :=
  if ctrl.reqQueue.count ≥ dramReqQueueSize then (false, ctrl)
  else
    (true, { ctrl with
      reqQueue := ctrl.reqQueue.push (newRequest ctrl addr isWrite id)
      totalWrites := if isWrite then ctrl.totalWrites + 1 else ctrl.totalWrites
      totalReads := if isWrite then ctrl.totalReads else ctrl.totalReads + 1 })

def dramBankReady (bank : DRAMBank) (currentCycle : UInt64) : Bool := currentCycle ≥ bank.readyTime

def dramBankActivate (bank : DRAMBank) (row : UInt32) (cycle : UInt64) (t : DRAMTiming) : DRAMBank :=
  { bank with
    state := .activating
    openRow := row
    rowValid := true
    readyTime := cycle + t.tRCD.toUInt64
    activeCount := bank.activeCount + 1 }

def dramBankPrecharge (bank : DRAMBank) (cycle : UInt64) (t : DRAMTiming) : DRAMBank :=
  { bank with state := .precharging, rowValid := false, readyTime := cycle + t.tRP.toUInt64 }

/-- The body of the loop of `dram_parbs_batch`. -/
def batchRound (cycles : UInt64) (q : Ring MemRequest dramReqQueueSize) (i : Nat) :
    Ring MemRequest dramReqQueueSize :=
  let req := q.cells (q.index i)
  if cycles - req.arrivalTime > 500 then q.set i { req with priority := 3 } else q

def dramParbsBatch (ctrl : DRAMController) : DRAMController :=
  { ctrl with reqQueue := (List.range ctrl.reqQueue.count).foldl (batchRound ctrl.cycles) ctrl.reqQueue }

/-- `a_hit` and `b_hit`. -/
def rowHit (banks : Fin dramBanks → DRAMBank) (req : MemRequest) : Bool :=
  (banks req.bank).rowValid && (banks req.bank).openRow == req.row

/-- The variable `swap`. -/
def swapped (banks : Fin dramBanks → DRAMBank) (a b : MemRequest) : Bool :=
  if a.priority < b.priority then true
  else if a.priority = b.priority then
    if !rowHit banks a && rowHit banks b then true
    else rowHit banks a == rowHit banks b && decide (a.arrivalTime > b.arrivalTime)
  else false

/-- The body of the inner loop of `dram_parbs_rank`. -/
def rankRound (banks : Fin dramBanks → DRAMBank) (i : Nat) (q : Ring MemRequest dramReqQueueSize) (j : Nat) :
    Ring MemRequest dramReqQueueSize :=
  if swapped banks (q.cells (q.index i)) (q.cells (q.index j)) then q.swap i j else q

def dramParbsRank (ctrl : DRAMController) : DRAMController :=
  let ctrl := dramParbsBatch ctrl
  let n := ctrl.reqQueue.count
  { ctrl with
    reqQueue := (List.range n).foldl
      (fun q i => ((List.range n).drop (i + 1)).foldl (rankRound ctrl.banks i) q) ctrl.reqQueue }

/-- The `switch` of `dram_schedule_command`. -/
def applyPolicy (ctrl : DRAMController) : DRAMController :=
  match ctrl.policy with
  | .frFcfs | .parbs => dramParbsRank ctrl
  | _ => ctrl

/-- What is done with the first request. -/
def serveBest (ctrl : DRAMController) : Option MemRequest × DRAMController :=
  let best := ctrl.reqQueue.cells ctrl.reqQueue.head
  let bank := ctrl.banks best.bank
  if !dramBankReady bank ctrl.cycles then (none, { ctrl with stallCycles := ctrl.stallCycles + 1 })
  else if !bank.rowValid then
    let bank := dramBankActivate bank best.row ctrl.cycles ctrl.timing
    (none, { ctrl with
      banks := Function.update ctrl.banks best.bank { bank with rowMissCount := bank.rowMissCount + 1 } })
  else if bank.openRow ≠ best.row then
    let bank := dramBankPrecharge bank ctrl.cycles ctrl.timing
    (none, { ctrl with
      banks := Function.update ctrl.banks best.bank { bank with rowMissCount := bank.rowMissCount + 1 }
      rowConflicts := ctrl.rowConflicts + 1 })
  else
    (some best, { ctrl with
      banks := Function.update ctrl.banks best.bank { bank with rowHitCount := bank.rowHitCount + 1 }
      rowHits := ctrl.rowHits + 1
      reqQueue := ctrl.reqQueue.pop
      activeBanks := ctrl.activeBanks + 1
      blpSamples := ctrl.blpSamples + 1 })

/-- The command is always `NULL`; what is given here is the request that is popped. -/
def dramScheduleCommand (ctrl : DRAMController) : Option MemRequest × DRAMController :=
  if ctrl.reqQueue.count = 0 then (none, ctrl) else serveBest (applyPolicy ctrl)

/-- The banks that are there are refreshed. -/
def dramRefresh (ctrl : DRAMController) : DRAMController :=
  { ctrl with
    refreshCycles := ctrl.refreshCycles + ctrl.timing.tRFC.toUInt64
    banks := fun i =>
      if i.val < (ctrl.numBanks * ctrl.numRanks).toNat then
        { ctrl.banks i with state := .refreshing, readyTime := ctrl.cycles + ctrl.timing.tRFC.toUInt64 }
      else ctrl.banks i
    stallCycles := ctrl.stallCycles + ctrl.timing.tRFC.toUInt64 }

/-- The body of the loop over the banks of `dram_cycle`. -/
def updateBank (cycles : UInt64) (bank : DRAMBank) : DRAMBank :=
  if bank.state = .activating ∧ cycles ≥ bank.readyTime then { bank with state := .active }
  else if bank.state = .precharging ∧ cycles ≥ bank.readyTime then { bank with state := .idle }
  else bank

/-- What `dram_cycle` does before it schedules. -/
def advance (ctrl : DRAMController) : DRAMController :=
  let ctrl := { ctrl with cycles := ctrl.cycles + 1 }
  let ctrl := if ctrl.cycles % ctrl.timing.tREFI.toUInt64 = 0 then dramRefresh ctrl else ctrl
  { ctrl with
    banks := fun i =>
      if i.val < (ctrl.numBanks * ctrl.numRanks).toNat then updateBank ctrl.cycles (ctrl.banks i) else ctrl.banks i }

/-- With the request that is popped. The bandwidth, which nothing reads, is left out. -/
def dramCycle (ctrl : DRAMController) : Option MemRequest × DRAMController :=
  let (popped, ctrl) := dramScheduleCommand (advance ctrl)
  (popped, if ctrl.numBanks * ctrl.numRanks > 0 then
    { ctrl with bankLevelParallelism := ctrl.activeBanks.toUInt64 } else ctrl)

/-! ## What happens to the queue -/

/-- What a request keeps until it is popped. -/
structure RequestKey where
  address : UInt64
  isWrite : Bool
  arrivalTime : UInt64
  id : UInt32

def MemRequest.key (req : MemRequest) : RequestKey := ⟨req.address, req.isWrite, req.arrivalTime, req.id⟩

/-- The requests of a queue. -/
def queued (q : Ring MemRequest dramReqQueueSize) : Multiset RequestKey := q.toList.map MemRequest.key

variable {q : Ring MemRequest dramReqQueueSize}

/-- A round that keeps the entries up to their order, and what else a ring needs. -/
structure Rearranged (q q' : Ring MemRequest dramReqQueueSize) : Prop where
  valid : q'.Valid
  count : q'.count = q.count
  queued : queued q' = queued q

theorem Rearranged.refl (h : q.Valid) : Rearranged q q := ⟨h, rfl, rfl⟩

theorem Rearranged.trans {q₁ q₂ q₃ : Ring MemRequest dramReqQueueSize} (h : Rearranged q₁ q₂)
    (h' : Rearranged q₂ q₃) : Rearranged q₁ q₃ :=
  ⟨h'.valid, h'.count.trans h.count, h'.queued.trans h.queued⟩

/-- A loop of such rounds, over entries of the queue. -/
theorem Rearranged.loop {f : Ring MemRequest dramReqQueueSize → Nat → Ring MemRequest dramReqQueueSize}
    {l : List Nat} {n : Nat} (round : ∀ q i, q.Valid → q.count = n → i ∈ l → Rearranged q (f q i)) (h : q.Valid)
    (count : q.count = n) : Rearranged q (l.foldl f q) := by
  induction l generalizing q with
  | nil => exact .refl h
  | cons i l ih =>
    have first := round q i h count List.mem_cons_self
    have rest := ih (fun q j h eq mem => round q j h eq (List.mem_cons_of_mem i mem)) first.valid
      (first.count.trans count)
    exact first.trans rest

theorem batch_round (h : q.Valid) (cycles : UInt64) {i : Nat} (lt : i < q.count) :
    Rearranged q (batchRound cycles q i) := by
  unfold batchRound
  dsimp only
  split
  case isTrue old =>
    refine ⟨h.set i _, rfl, ?_⟩
    have here : i < q.toList.length := by rwa [Ring.length_toList]
    have same : q.cells (q.index i) = q.toList[i] := (Ring.getElem_toList here).symm
    rw [queued, Ring.toList_set h lt, List.map_set, queued, same]
    have inside : i < (q.toList.map MemRequest.key).length := by rwa [List.length_map]
    have key : MemRequest.key { q.toList[i] with priority := 3 } = (q.toList.map MemRequest.key)[i] := by
      rw [List.getElem_map]
      rfl
    rw [key, List.set_getElem_self]
  case isFalse => exact .refl h

theorem rank_round (h : q.Valid) (banks : Fin dramBanks → DRAMBank) {i j : Nat} (hi : i < q.count)
    (hj : j < q.count) : Rearranged q (rankRound banks i q j) := by
  unfold rankRound
  split
  · exact ⟨h.swap i j, rfl, Multiset.coe_eq_coe.2 ((Ring.toList_swap h hi hj).map _)⟩
  · exact .refl h

variable {ctrl : DRAMController}

theorem dram_parbs_batch_rearranges (h : ctrl.reqQueue.Valid) :
    Rearranged ctrl.reqQueue (dramParbsBatch ctrl).reqQueue :=
  Rearranged.loop (fun _ _ h eq mem => batch_round h ctrl.cycles (by rw [eq]; exact List.mem_range.1 mem)) h rfl

/-- The ranking permutes the queue. -/
theorem dram_parbs_rank_rearranges (h : ctrl.reqQueue.Valid) :
    Rearranged ctrl.reqQueue (dramParbsRank ctrl).reqQueue := by
  have batch := dram_parbs_batch_rearranges h
  refine batch.trans (Rearranged.loop (fun q i h eq mem => ?_) batch.valid rfl)
  refine Rearranged.loop (fun q' j h' eq' mem' => ?_) h eq
  have hi := List.mem_range.1 mem
  have hj := List.mem_range.1 (List.mem_of_mem_drop mem')
  exact rank_round h' ctrl.banks (by rw [eq']; exact hi) (by rw [eq']; exact hj)

/-! ## The accounts -/

/-- The accepted requests are the popped ones and those in the queue, and the counters say how
many there are. -/
structure Accounts (accepted popped : List RequestKey) (ctrl : DRAMController) : Prop where
  valid : ctrl.reqQueue.Valid
  conserved : (accepted : Multiset RequestKey) = popped + queued ctrl.reqQueue
  hits : ctrl.rowHits = UInt64.ofNat popped.length
  total : ctrl.totalReads + ctrl.totalWrites = ctrl.rowHits + UInt64.ofNat ctrl.reqQueue.count

variable {accepted popped : List RequestKey}

/-- Only the queue and four counters matter. -/
theorem Accounts.congr {ctrl' : DRAMController} (h : Accounts accepted popped ctrl)
    (queue : Rearranged ctrl.reqQueue ctrl'.reqQueue) (hits : ctrl'.rowHits = ctrl.rowHits)
    (reads : ctrl'.totalReads = ctrl.totalReads) (writes : ctrl'.totalWrites = ctrl.totalWrites) :
    Accounts accepted popped ctrl' := by
  refine ⟨queue.valid, ?_, hits.trans h.hits, ?_⟩
  · rw [queue.queued]
    exact h.conserved
  · rw [reads, writes, hits, queue.count]
    exact h.total

theorem accounts_init (numBanks numRanks : UInt32) (banksIn : (numBanks * numRanks).toNat ≤ dramBanks)
    (timing : Option DRAMTiming) (policy : SchedulingPolicy) :
    Accounts [] [] (dramInit numBanks numRanks banksIn timing policy) :=
  ⟨⟨Nat.zero_le _, rfl⟩, rfl, rfl, rfl⟩

/-- The key of a request that would be accepted now. -/
def enqueuedKey (ctrl : DRAMController) (addr : UInt64) (isWrite : Bool) (id : UInt32) : RequestKey :=
  ⟨addr, isWrite, ctrl.cycles, id⟩

theorem Accounts.enqueue (h : Accounts accepted popped ctrl) (addr : UInt64) (isWrite : Bool) (id : UInt32) :
    Accounts (if (dramEnqueue ctrl addr isWrite id).1 then accepted ++ [enqueuedKey ctrl addr isWrite id]
      else accepted) popped (dramEnqueue ctrl addr isWrite id).2 := by
  unfold dramEnqueue
  split
  case isTrue full => exact h
  case isFalse room =>
    have lt : ctrl.reqQueue.count < dramReqQueueSize := Nat.not_le.1 room
    have content := Ring.toList_push h.valid lt (newRequest ctrl addr isWrite id)
    refine ⟨h.valid.push lt _, ?_, h.hits, ?_⟩
    · rw [if_pos rfl, ← Multiset.coe_add, h.conserved, queued, queued, content, List.map_append,
        ← Multiset.coe_add, Multiset.add_assoc]
      rfl
    · have one : UInt64.ofNat (ctrl.reqQueue.count + 1) = UInt64.ofNat ctrl.reqQueue.count + 1 := UInt64.ofNat_add _ _
      show (if isWrite then _ else _) + (if isWrite then _ else _) =
        ctrl.rowHits + UInt64.ofNat (ctrl.reqQueue.count + 1)
      rw [one, ← UInt64.add_assoc, ← h.total]
      cases isWrite with
      | true => exact (UInt64.add_assoc _ _ _).symm
      | false =>
        show ctrl.totalReads + 1 + ctrl.totalWrites = ctrl.totalReads + ctrl.totalWrites + 1
        rw [UInt64.add_assoc, UInt64.add_comm 1, ← UInt64.add_assoc]

theorem applyPolicy_rearranges (h : ctrl.reqQueue.Valid) :
    Rearranged ctrl.reqQueue (applyPolicy ctrl).reqQueue := by
  unfold applyPolicy
  split
  · exact dram_parbs_rank_rearranges h
  · exact dram_parbs_rank_rearranges h
  · exact .refl h

theorem Accounts.policy (h : Accounts accepted popped ctrl) : Accounts accepted popped (applyPolicy ctrl) := by
  refine h.congr (applyPolicy_rearranges h.valid) ?_ ?_ ?_
  all_goals
    unfold applyPolicy
    split <;> rfl

/-- Nothing is popped. -/
theorem Accounts.none (h : Accounts accepted popped ctrl) :
    Accounts accepted (popped ++ ((none : Option MemRequest).map MemRequest.key).toList) ctrl := by
  rw [Option.map_none, Option.toList_none, List.append_nil]
  exact h

/-- What is popped leaves the queue for the popped ones. -/
theorem Accounts.serve (h : Accounts accepted popped ctrl) (pos : 0 < ctrl.reqQueue.count) :
    Accounts accepted (popped ++ ((serveBest ctrl).1.map MemRequest.key).toList) (serveBest ctrl).2 := by
  unfold serveBest
  dsimp only
  split
  · exact Accounts.none (h.congr (.refl h.valid) rfl rfl rfl)
  split
  · exact Accounts.none (h.congr (.refl h.valid) rfl rfl rfl)
  split
  · exact Accounts.none (h.congr (.refl h.valid) rfl rfl rfl)
  -- The row is open: the request at the head is popped.
  refine ⟨h.valid.pop pos, ?_, ?_, ?_⟩
  · show (accepted : Multiset RequestKey) =
      ((popped ++ [(ctrl.reqQueue.cells ctrl.reqQueue.head).key] : List RequestKey) : Multiset RequestKey) +
        queued ctrl.reqQueue.pop
    rw [h.conserved, queued, queued, Ring.toList_pop pos, List.map_cons, ← Multiset.coe_add, Multiset.add_assoc]
    rfl
  · show ctrl.rowHits + 1 = UInt64.ofNat (popped ++ [_]).length
    rw [List.length_append, List.length_singleton, UInt64.ofNat_add, h.hits]
    rfl
  · show ctrl.totalReads + ctrl.totalWrites = ctrl.rowHits + 1 + UInt64.ofNat (ctrl.reqQueue.count - 1)
    have one : UInt64.ofNat ctrl.reqQueue.count = 1 + UInt64.ofNat (ctrl.reqQueue.count - 1) := by
      rw [show (1 : UInt64) = UInt64.ofNat 1 from rfl, ← UInt64.ofNat_add, Nat.add_sub_cancel' pos]
    rw [h.total, one, UInt64.add_assoc]

theorem Accounts.schedule (h : Accounts accepted popped ctrl) :
    Accounts accepted (popped ++ ((dramScheduleCommand ctrl).1.map MemRequest.key).toList)
      (dramScheduleCommand ctrl).2 := by
  unfold dramScheduleCommand
  split
  case isTrue => exact h.none
  case isFalse more =>
    apply h.policy.serve
    rw [(applyPolicy_rearranges h.valid).count]
    exact Nat.pos_of_ne_zero more

theorem Accounts.advance (h : Accounts accepted popped ctrl) : Accounts accepted popped (advance ctrl) := by
  unfold Arch.advance
  dsimp only
  split
  · exact h.congr (.refl h.valid) rfl rfl rfl
  · exact h.congr (.refl h.valid) rfl rfl rfl

theorem Accounts.cycle (h : Accounts accepted popped ctrl) :
    Accounts accepted (popped ++ ((dramCycle ctrl).1.map MemRequest.key).toList) (dramCycle ctrl).2 := by
  have scheduled := h.advance.schedule
  unfold dramCycle
  dsimp only
  split
  · exact scheduled.congr (.refl scheduled.valid) rfl rfl rfl
  · exact scheduled

/-! ## Runs -/

inductive DramOp where
  | enqueue (addr : UInt64) (isWrite : Bool) (id : UInt32)
  | cycle

/-- The controller, the requests it has accepted and those it has popped. -/
structure DramRun where
  ctrl : DRAMController
  accepted : List RequestKey
  popped : List RequestKey

def dramStep (s : DramRun) : DramOp → DramRun
  | .enqueue addr isWrite id =>
    { s with
      ctrl := (dramEnqueue s.ctrl addr isWrite id).2
      accepted :=
        if (dramEnqueue s.ctrl addr isWrite id).1 then s.accepted ++ [enqueuedKey s.ctrl addr isWrite id]
        else s.accepted }
  | .cycle =>
    { s with
      ctrl := (dramCycle s.ctrl).2
      popped := s.popped ++ ((dramCycle s.ctrl).1.map MemRequest.key).toList }

/-- Nothing is lost, and the ranking only permutes. -/
structure Conserved (s : DramRun) : Prop where
  requests : (s.accepted : Multiset RequestKey) = s.popped + queued s.ctrl.reqQueue
  ranking : queued (dramParbsRank s.ctrl).reqQueue = queued s.ctrl.reqQueue
  hits : s.ctrl.rowHits = UInt64.ofNat s.popped.length
  total : s.ctrl.totalReads + s.ctrl.totalWrites = s.ctrl.rowHits + UInt64.ofNat s.ctrl.reqQueue.count

/-- **No request is lost or duplicated,** whatever the timing, the policy and the calls. -/
theorem dram_conserves_requests (numBanks numRanks : UInt32)
    (banksIn : (numBanks * numRanks).toNat ≤ dramBanks) (timing : Option DRAMTiming) (policy : SchedulingPolicy)
    (ops : List DramOp) :
    Conserved (run dramStep ⟨dramInit numBanks numRanks banksIn timing policy, [], []⟩ ops) := by
  have keep : ∀ (s : DramRun) op, Accounts s.accepted s.popped s.ctrl →
      Accounts (dramStep s op).accepted (dramStep s op).popped (dramStep s op).ctrl := by
    intro s op h
    cases op with
    | enqueue addr isWrite id => exact h.enqueue addr isWrite id
    | cycle => exact h.cycle
  have h := run_invariant (motive := fun s : DramRun => Accounts s.accepted s.popped s.ctrl) keep
    (s := ⟨dramInit numBanks numRanks banksIn timing policy, [], []⟩)
    (accounts_init numBanks numRanks banksIn timing policy) ops
  exact ⟨h.conserved, (dram_parbs_rank_rearranges h.valid).queued, h.hits, h.total⟩

theorem dram_conserves_requests_parbs :
    Conserved (run dramStep ⟨dramInit 8 2 (by decide) none .parbs, [], []⟩
      [.enqueue 0x12345678 false 1, .cycle, .enqueue 0x12340000 true 2, .cycle]) :=
  dram_conserves_requests 8 2 (by decide) none .parbs
    [.enqueue 0x12345678 false 1, .cycle, .enqueue 0x12340000 true 2, .cycle]

end MiniHardware.Arch
