import MiniHardware.Lib.FirstReady
import MiniHardware.Lib.Index

/-!
# The memory controller (`mini-cpu-arch/src/memory_system.c`)

The pending requests are the first `queue_size` entries of the array, in the
order in which they were put there. `memctrl_schedule` looks twice for the
request that arrived first: among those whose bank has their row open, then
among all.
-/

namespace MiniHardware.Cpu
open Lib

inductive MemReqType where
  | read | write | refresh | prefetch
deriving DecidableEq

structure MemRequest where
  type : MemReqType
  addr : UInt32
  data : UInt32
  arrivalTime : UInt32
  priority : UInt32
  isPrefetch : Bool
deriving DecidableEq

structure MemController where
  pendingQueue : List MemRequest
  queueCapacity : UInt32
  totalServed : UInt32
  totalLatency : UInt32
  bankBusy : Vector UInt32 8
deriving DecidableEq

def memctrlInit (capacity : UInt32) : MemController :=
  { pendingQueue := []
    queueCapacity := if capacity > 0 then capacity else 32
    totalServed := 0
    totalLatency := 0
    bankBusy := Vector.replicate 8 0 }

/-- The entry that `memctrl_enqueue` fills in. -/
def newRequest (mc : MemController) (type : MemReqType) (addr data : UInt32) : MemRequest :=
  { type := type
    addr := addr
    data := data
    arrivalTime := mc.totalServed
    priority := 0
    isPrefetch := type = .prefetch }

def memctrlEnqueue (mc : MemController) (type : MemReqType) (addr data : UInt32) : MemController :=
  if mc.pendingQueue.length ≥ mc.queueCapacity.toNat then mc
  else { mc with pendingQueue := mc.pendingQueue ++ [newRequest mc type addr data] }

def memBank (addr : UInt32) : UInt32 := (addr >>> 6) &&& 0x7

def memRow (addr : UInt32) : UInt32 := (addr >>> 13) &&& 0x3FF

theorem mem_bank_lt (addr : UInt32) : (memBank addr).toNat < 8 := by
  rw [memBank, UInt32.toNat_and]
  exact Nat.lt_of_le_of_lt Nat.and_le_right (by decide)

/-- The index into `bank_busy`. -/
def bankIdx (addr : UInt32) : Fin 8 := ⟨(memBank addr).toNat, mem_bank_lt addr⟩

/-- The row of the request is open in its bank. -/
def rowHit (mc : MemController) (req : MemRequest) : Bool :=
  mc.bankBusy.get (bankIdx req.addr) = memRow req.addr

/-- `best_idx`, `best_arrival`, and whether the loop has found one. -/
structure Best where
  idx : Int
  arrival : UInt32
  found : Bool

/-- The conversion `(int)i`. -/
def intOf (i : Nat) : Int := (i : Int).bmod (2 ^ 32)

/-- The body the two loops share; `eligible` is the test of the first one. -/
def bestStep (eligible : MemRequest → Bool) (best : Best) (req : MemRequest × Nat) : Best :=
  if eligible req.1 then
    if req.1.arrivalTime < best.arrival then ⟨intOf req.2, req.1.arrivalTime, true⟩ else best
  else best

def bestRequest (eligible : MemRequest → Bool) (best : Best) (queue : List MemRequest) : Best :=
  queue.zipIdx.foldl (bestStep eligible) best

/-- The part of `memctrl_schedule` after the search. -/
def serve (mc : MemController) (bestIdx : Nat) (served : MemRequest) (foundHit : Bool) : MemController :=
  { mc with
    bankBusy := mc.bankBusy.set (bankIdx served.addr) (memRow served.addr)
    totalLatency := mc.totalLatency + (if foundHit then 10 else 30)
    totalServed := mc.totalServed + 1
    pendingQueue := mc.pendingQueue.eraseIdx bestIdx }

/-- The return value, the index served or `-1`, and the new state. -/
def memctrlSchedule (mc : MemController) : Int × MemController :=
  if mc.pendingQueue.length = 0 then (-1, mc)
  else
    let hit := bestRequest (rowHit mc) ⟨-1, 0xFFFFFFFF, false⟩ mc.pendingQueue
    let best := if hit.found then hit
      else bestRequest (fun _ => true) ⟨hit.idx, hit.arrival, false⟩ mc.pendingQueue
    if best.idx < 0 then (-1, mc)
    else
      match mc.pendingQueue[best.idx.toNat]? with
      | none => (-1, mc)
      | some served => (best.idx, serve mc best.idx.toNat served hit.found)

/-! ## The search -/

/-- Arrival times as they are while `total_served` has not wrapped around. -/
structure Aged (queue : List MemRequest) : Prop where
  sorted : queue.Pairwise fun a b => a.arrivalTime ≤ b.arrivalTime
  below : ∀ r ∈ queue, r.arrivalTime < 0xFFFFFFFF

theorem Aged.tail {req : MemRequest} {queue : List MemRequest} (h : Aged (req :: queue)) : Aged queue :=
  ⟨(List.pairwise_cons.1 h.sorted).2, fun r hr => h.below r (List.mem_cons_of_mem req hr)⟩

theorem Aged.eraseIdx {queue : List MemRequest} (h : Aged queue) (i : Nat) : Aged (queue.eraseIdx i) where
  sorted := h.sorted.sublist (List.eraseIdx_sublist queue i)
  below r hr := h.below r (List.mem_of_mem_eraseIdx hr)

/-- A later request does not displace an earlier one. -/
theorem best_step_later {eligible : MemRequest → Bool} {best : Best} {queue : List MemRequest} (k : Nat)
    (later : ∀ r ∈ queue, best.arrival ≤ r.arrivalTime) :
    (queue.zipIdx k).foldl (bestStep eligible) best = best := by
  induction queue generalizing k with
  | nil => rfl
  | cons req queue ih =>
    have stay : bestStep eligible best (req, k) = best := by
      have := UInt32.not_lt.2 (later req List.mem_cons_self)
      simp only [bestStep, this, if_false, ite_self]
    rw [List.zipIdx_cons, List.foldl_cons, stay]
    exact ih (k + 1) fun r hr => later r (List.mem_cons_of_mem req hr)

/-- The loop finds the first request that is eligible. -/
theorem best_request_spec {eligible : MemRequest → Bool} {queue : List MemRequest} (aged : Aged queue)
    (k : Nat) (b : Bool) :
    (queue.zipIdx k).foldl (bestStep eligible) ⟨-1, 0xFFFFFFFF, b⟩ =
      match queue.findIdx? eligible with
      | none => ⟨-1, 0xFFFFFFFF, b⟩
      | some i => ⟨intOf (k + i), (queue[i]?.map MemRequest.arrivalTime).getD 0, true⟩ := by
  induction queue generalizing k with
  | nil => rfl
  | cons req queue ih =>
    rw [List.zipIdx_cons, List.foldl_cons, List.findIdx?_cons]
    by_cases yes : eligible req = true
    · have first : bestStep eligible ⟨-1, 0xFFFFFFFF, b⟩ (req, k) = ⟨intOf k, req.arrivalTime, true⟩ := by
        simp only [bestStep, yes, if_true, aged.below req List.mem_cons_self]
      rw [first, best_step_later (k + 1) (List.pairwise_cons.1 aged.sorted).1, if_pos yes]
      rfl
    · have stay : bestStep eligible ⟨-1, 0xFFFFFFFF, b⟩ (req, k) = ⟨-1, 0xFFFFFFFF, b⟩ := by
        simp only [bestStep, yes, Bool.false_eq_true, if_false]
      rw [stay, ih aged.tail (k + 1), if_neg yes]
      cases queue.findIdx? eligible with
      | none => rfl
      | some i => simp only [Option.map_some, List.getElem?_cons_succ, Nat.add_assoc, Nat.add_comm 1]

theorem int_of_eq {i : Nat} (lt : i < 2 ^ 31) : intOf i = i := Int.bmod_eq_of_le (by omega) (by omega)

/-- Of a queue in order of arrival, the first request whose row is open is served, else the head. -/
theorem memctrl_schedule_spec {mc : MemController} (aged : Aged mc.pendingQueue)
    (short : mc.pendingQueue.length ≤ 2 ^ 31) (nonempty : mc.pendingQueue ≠ []) :
    ∃ served, mc.pendingQueue[firstReady (rowHit mc) mc.pendingQueue]? = some served ∧
      memctrlSchedule mc = (Int.ofNat (firstReady (rowHit mc) mc.pendingQueue),
        serve mc (firstReady (rowHit mc) mc.pendingQueue) served (mc.pendingQueue.any (rowHit mc))) := by
  refine ⟨_, List.getElem?_eq_getElem (firstReady_lt nonempty), ?_⟩
  have len : mc.pendingQueue.length ≠ 0 := fun zero => nonempty (List.length_eq_zero_iff.1 zero)
  have hits := @best_request_spec (rowHit mc) _ aged 0 false
  have lt : firstReady (rowHit mc) mc.pendingQueue < mc.pendingQueue.length := firstReady_lt nonempty
  have entry := List.getElem?_eq_getElem lt
  generalize mc.pendingQueue[firstReady (rowHit mc) mc.pendingQueue] = served at entry ⊢
  unfold memctrlSchedule bestRequest
  rw [if_neg len, hits]
  unfold firstReady at lt entry ⊢
  cases found : mc.pendingQueue.findIdx? (rowHit mc) with
  | none =>
    -- no row is open, so the second loop takes the head
    have all := @best_request_spec (fun _ => true) _ aged 0 false
    have head : mc.pendingQueue.findIdx? (fun _ => true) = some 0 := by
      obtain ⟨req, queue, eq⟩ := List.exists_cons_of_ne_nil nonempty
      rw [eq]
      rfl
    rw [head] at all
    have miss : mc.pendingQueue.any (rowHit mc) = false := by
      rw [List.any_eq_false]
      exact fun r hr => by simp [List.findIdx?_eq_none_iff.1 found r hr]
    simp only [found, Option.getD_none] at lt entry
    simp only [Bool.false_eq_true, if_false, all, miss, Option.getD_none]
    rw [int_of_eq (by decide), if_neg (by omega)]
    simp only [Nat.add_zero, Int.toNat_natCast, entry]
    rfl
  | some i =>
    obtain ⟨_, isHit, _⟩ := List.findIdx?_eq_some_iff_getElem.1 found
    simp only [found, Option.getD_some] at lt entry
    have hit : mc.pendingQueue.any (rowHit mc) = true :=
      List.any_eq_true.2 ⟨_, List.getElem_mem lt, isHit⟩
    simp only [if_true, hit, Option.getD_some]
    rw [int_of_eq (by omega), if_neg (by omega)]
    simp only [Nat.zero_add, Int.toNat_natCast, entry]
    rfl

end MiniHardware.Cpu
