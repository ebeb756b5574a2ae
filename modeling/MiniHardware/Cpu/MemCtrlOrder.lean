import MiniHardware.Lib.Trace
import MiniHardware.Cpu.MemCtrl

/-!
# Every request is served once, and in order within its row

A `History` is the controller with what its caller has seen: the requests
accepted, numbered from 0, which of them are still pending and which have been
served. The caller knows the latter from the index that `memctrl_schedule`
returns.
-/

namespace MiniHardware.Cpu
open Lib

inductive MemOp where
  | enqueue (type : MemReqType) (addr data : UInt32)
  | schedule

/-- What the caller asked for. -/
structure Asked where
  type : MemReqType
  addr : UInt32
  data : UInt32
deriving DecidableEq

structure History where
  mc : MemController
  accepted : List Asked
  pending : List Nat
  served : List Nat

namespace History

def init (capacity : UInt32) : History := ⟨memctrlInit capacity, [], [], []⟩

/-- A request is accepted if the queue has grown; an index returned is that of the request served. -/
def step (h : History) : MemOp → History
  | .enqueue type addr data =>
    let mc := memctrlEnqueue h.mc type addr data
    if mc.pendingQueue.length = h.mc.pendingQueue.length then { h with mc := mc }
    else
      { mc := mc
        accepted := h.accepted ++ [⟨type, addr, data⟩]
        pending := h.pending ++ [h.accepted.length]
        served := h.served }
  | .schedule =>
    match memctrlSchedule h.mc with
    | (idx, mc) =>
      if idx < 0 then { h with mc := mc }
      else
        { mc := mc
          accepted := h.accepted
          pending := h.pending.eraseIdx idx.toNat
          served := h.served ++ h.pending[idx.toNat]?.toList }

/-- A request arrives before `total_served` wraps around to below an arrival time that is still
in the queue, or to the value that stands for none, and finds fewer than `2 ^ 31` before it. -/
def Timely (h : History) : MemOp → Prop
  | .enqueue _ _ _ => h.mc.totalServed ≠ 0xFFFFFFFF ∧
      (∀ r ∈ h.mc.pendingQueue, r.arrivalTime ≤ h.mc.totalServed) ∧
      h.mc.pendingQueue.length < 2 ^ 31
  | .schedule => True

instance timelyDecidable (h : History) : ∀ op, Decidable (Timely h op)
  | .enqueue _ _ _ => inferInstanceAs (Decidable (_ ∧ _ ∧ _))
  | .schedule => inferInstanceAs (Decidable True)

def addrOf (accepted : List Asked) (id : Nat) : UInt32 := (accepted[id]?.map Asked.addr).getD 0

/-- Requests to one row of one bank. -/
def SameRow (h : History) (i j : Nat) : Prop :=
  bankIdx (addrOf h.accepted i) = bankIdx (addrOf h.accepted j) ∧
    memRow (addrOf h.accepted i) = memRow (addrOf h.accepted j)

/-- The row of the request to the bank that was served last, row 0 at first. -/
def openRow (h : History) (bank : Fin 8) : UInt32 :=
  (((h.served.map (addrOf h.accepted)).reverse.find? fun addr => bankIdx addr = bank).map memRow).getD 0

/-- The row of the request is open. -/
def Hits (h : History) (id : Nat) : Prop :=
  h.openRow (bankIdx (addrOf h.accepted id)) = memRow (addrOf h.accepted id)

instance hitsDecidable (h : History) (id : Nat) : Decidable (h.Hits id) :=
  inferInstanceAs (Decidable (_ = _))

/-- The oldest of the pending requests whose row is open, or the oldest of all if there is none. -/
structure Chosen (h : History) (id : Nat) : Prop where
  pending : id ∈ h.pending
  hit : (∃ i ∈ h.pending, h.Hits i) → h.Hits id ∧ ∀ i ∈ h.pending, h.Hits i → id ≤ i
  oldest : (∀ i ∈ h.pending, ¬h.Hits i) → ∀ i ∈ h.pending, id ≤ i

/-- What holds of every history whose requests are timely. -/
structure Consistent (h : History) : Prop where
  aged : Aged h.mc.pendingQueue
  short : h.mc.pendingQueue.length ≤ 2 ^ 31
  queue : h.mc.pendingQueue.map (fun r => some ⟨r.type, r.addr, r.data⟩) =
    h.pending.map fun id => h.accepted[id]?
  once : (h.served ++ h.pending).Perm (List.range h.accepted.length)
  sorted : h.pending.Pairwise (· < ·)
  order : (h.served ++ h.pending).Pairwise fun i j => h.SameRow i j → i < j
  rows : ∀ bank, h.mc.bankBusy.get bank = h.openRow bank

variable {h : History}

theorem consistent_init (capacity : UInt32) : Consistent (init capacity) where
  aged := ⟨List.Pairwise.nil, by simp [init, memctrlInit]⟩
  short := by simp [init, memctrlInit]
  queue := rfl
  once := List.Perm.refl _
  sorted := List.Pairwise.nil
  order := List.Pairwise.nil
  rows bank := get_replicate 0 bank

/-- The queue is as long as the list of pending requests. -/
theorem Consistent.length_eq (c : Consistent h) : h.mc.pendingQueue.length = h.pending.length := by
  have := congrArg List.length c.queue
  rwa [List.length_map, List.length_map] at this

/-- Served and pending requests were accepted. -/
theorem Consistent.lt_length (c : Consistent h) {id : Nat} (mem : id ∈ h.served ++ h.pending) :
    id < h.accepted.length :=
  List.mem_range.1 ((c.once.mem_iff).1 mem)

/-- The addresses of the pending requests. -/
theorem Consistent.addrs (c : Consistent h) :
    h.mc.pendingQueue.map MemRequest.addr = h.pending.map (addrOf h.accepted) := by
  have := congrArg (List.map fun a => (a.map Asked.addr).getD 0) c.queue
  rw [List.map_map, List.map_map] at this
  exact this

/-! ## One step -/

/-- The counter has not reached its last value. -/
theorem lt_of_ne_max {x : UInt32} (ne : x ≠ 0xFFFFFFFF) : x < 0xFFFFFFFF := by
  have lt := x.toNat_lt
  have ne : x.toNat ≠ 0xFFFFFFFF := fun eq => ne (UInt32.toNat_inj.1 eq)
  exact UInt32.lt_iff_toNat_lt.2 (by simp only [UInt32.reduceToNat]; omega)

/-- Accepting another request leaves the addresses of the earlier ones. -/
theorem addrOf_append {accepted : List Asked} {id : Nat} (lt : id < accepted.length) (new : Asked) :
    addrOf (accepted ++ [new]) id = addrOf accepted id := by
  rw [addrOf, addrOf, List.getElem?_append_left lt]

/-- A timely request keeps the history consistent. -/
theorem Consistent.enqueue (c : Consistent h) {type : MemReqType} {addr data : UInt32}
    (timely : h.Timely (.enqueue type addr data)) : Consistent (h.step (.enqueue type addr data)) := by
  obtain ⟨notMax, recent, room⟩ := timely
  unfold step memctrlEnqueue
  by_cases full : h.mc.pendingQueue.length ≥ h.mc.queueCapacity.toNat
  · simp only [full, if_true]
    exact c
  · simp only [full, if_false, List.length_append, List.length_singleton, Nat.succ_ne_self]
    have keep : ∀ id ∈ h.served ++ h.pending,
        addrOf (h.accepted ++ [⟨type, addr, data⟩]) id = addrOf h.accepted id :=
      fun id mem => addrOf_append (c.lt_length mem) _
    constructor
    · constructor
      · apply List.pairwise_append.2
        refine ⟨c.aged.sorted, List.pairwise_singleton _ _, fun a ha b hb => ?_⟩
        rw [List.mem_singleton.1 hb]
        exact recent a ha
      · intro r hr
        rcases List.mem_append.1 hr with hr | hr
        · exact c.aged.below r hr
        · rw [List.mem_singleton.1 hr]
          exact lt_of_ne_max notMax
    · simp only [List.length_append, List.length_singleton]
      omega
    · simp only [List.map_append, List.map_cons, List.map_nil, List.getElem?_concat_length, newRequest]
      congr 1
      rw [c.queue]
      apply List.map_congr_left
      intro id mem
      exact (List.getElem?_append_left (c.lt_length (List.mem_append_right _ mem))).symm
    · simp only [List.length_append, List.length_singleton, List.range_succ]
      rw [← List.append_assoc]
      exact c.once.append_right _
    · apply List.pairwise_append.2
      refine ⟨c.sorted, List.pairwise_singleton _ _, fun a ha b hb => ?_⟩
      rw [List.mem_singleton.1 hb]
      exact c.lt_length (List.mem_append_right _ ha)
    · dsimp only
      rw [← List.append_assoc]
      apply List.pairwise_append.2
      refine ⟨?_, List.pairwise_singleton _ _, fun a ha b hb _ => ?_⟩
      · apply c.order.imp_of_mem
        intro i j hi hj lt same
        simp only [SameRow, keep i hi, keep j hj] at same
        exact lt same
      · rw [List.mem_singleton.1 hb]
        exact c.lt_length ha
    · intro bank
      have same := List.map_congr_left fun id mem => keep id (List.mem_append_left _ mem)
      rw [c.rows bank, openRow, openRow, same]

/-- The position of the pending request that is served. -/
def next (h : History) : Nat := firstReady (fun id => h.Hits id) h.pending

/-- The controller looks at the requests as the caller does. -/
theorem Consistent.next_eq (c : Consistent h) :
    firstReady (rowHit h.mc) h.mc.pendingQueue = h.next := by
  have hit : ∀ r, rowHit h.mc r = decide (h.openRow (bankIdx r.addr) = memRow r.addr) := by
    intro r
    rw [rowHit, c.rows]
  calc firstReady (rowHit h.mc) h.mc.pendingQueue
      = firstReady (fun r => decide (h.openRow (bankIdx r.addr) = memRow r.addr)) h.mc.pendingQueue := by
        rw [funext hit]
    _ = firstReady (fun addr => decide (h.openRow (bankIdx addr) = memRow addr))
          (h.mc.pendingQueue.map MemRequest.addr) := by rw [firstReady_map]
    _ = h.next := by
        rw [c.addrs, firstReady_map]
        rfl

/-- The request served is one of those pending. -/
theorem next_lt (nonempty : h.pending ≠ []) : h.next < h.pending.length := firstReady_lt nonempty

/-- What a schedule call does while requests are pending: `id` is pulled out of the queue, and
passes only requests to other rows. -/
theorem Consistent.schedule_eq (c : Consistent h) (nonempty : h.pending ≠ []) :
    ∃ id a b served, h.pending = a ++ id :: b ∧ a.length = h.next ∧
      (∀ y ∈ a, ¬h.SameRow id y) ∧ served.addr = addrOf h.accepted id ∧
      h.step .schedule =
        { mc := serve h.mc h.next served (h.mc.pendingQueue.any (rowHit h.mc))
          accepted := h.accepted
          pending := a ++ b
          served := h.served ++ [id] } := by
  have queue : h.mc.pendingQueue ≠ [] := by
    intro nil
    have len := c.length_eq
    rw [nil] at len
    exact nonempty (List.length_eq_zero_iff.1 len.symm)
  obtain ⟨served, entry, result⟩ := memctrl_schedule_spec c.aged c.short queue
  rw [c.next_eq] at entry result
  have lt := next_lt nonempty
  obtain ⟨a, b, split, erase, len⟩ := exists_split_of_lt lt
  refine ⟨_, a, b, served, split, len, ?_, ?_, ?_⟩
  · -- requests of one row are equally ready
    have classes : ∀ x y, h.SameRow x y → decide (h.Hits x) = decide (h.Hits y) := by
      rintro x y ⟨bank, row⟩
      rw [decide_eq_decide, Hits, Hits, bank, row]
    generalize h.pending.get ⟨h.next, lt⟩ = id at split
    unfold next at len
    rw [split] at len
    intro y hy same
    exact firstReady_passes classes len y hy ⟨same.1.symm, same.2.symm⟩
  · have addr := congrArg (·[h.next]?) c.addrs
    simp only [List.getElem?_map, entry, List.getElem?_eq_getElem lt, Option.map_some] at addr
    exact Option.some.inj addr
  · unfold step
    rw [result]
    simp only [Int.ofNat_eq_natCast, Int.toNat_natCast, List.getElem?_eq_getElem lt, erase]
    rfl

/-- Scheduling an empty queue does nothing. -/
theorem step_schedule_nil (queue : h.mc.pendingQueue = []) : h.step .schedule = h := by
  unfold step memctrlSchedule
  rw [queue]
  rfl

/-- Scheduling keeps the history consistent. -/
theorem Consistent.schedule (c : Consistent h) : Consistent (h.step .schedule) := by
  by_cases nil : h.pending = []
  · have queue : h.mc.pendingQueue = [] := by
      apply List.length_eq_zero_iff.1
      rw [c.length_eq, nil]
      rfl
    rw [step_schedule_nil queue]
    exact c
  · obtain ⟨id, a, b, served, split, len, pass, addr, result⟩ := c.schedule_eq nil
    have once := c.once
    have order := c.order
    have sorted := c.sorted
    have queue := c.queue
    rw [split] at once order sorted queue
    rw [result]
    constructor
    · exact c.aged.eraseIdx _
    · exact (List.eraseIdx_sublist _ _).length_le.trans c.short
    · dsimp only [serve]
      rw [← List.eraseIdx_map, queue, List.eraseIdx_map, ← len, List.eraseIdx_append_of_length_le
        (Nat.le_refl _), Nat.sub_self, List.eraseIdx_cons_zero]
    · exact (pull_perm _ _ _ _).trans once
    · exact sorted.sublist (List.Sublist.append_left (List.sublist_cons_self _ _) a)
    · exact pull_pairwise order fun y hy same => absurd same (pass y hy)
    · intro bank
      dsimp only [serve, openRow]
      rw [get_set, List.map_append, List.reverse_append, addr]
      simp only [List.map_cons, List.map_nil, List.reverse_singleton, List.singleton_append,
        List.find?_cons]
      by_cases eq : bank = bankIdx (addrOf h.accepted id)
      · simp [eq]
      · simp only [eq, Ne.symm eq, if_false, decide_false]
        exact c.rows bank

/-! ## All runs -/

/-- Every timely call does. -/
theorem Consistent.step (c : Consistent h) {op : MemOp} (timely : h.Timely op) :
    Consistent (h.step op) := by
  cases op with
  | enqueue => exact c.enqueue timely
  | schedule => exact c.schedule

/-- The queue is empty when nothing is pending. -/
theorem Consistent.pending_eq_nil_iff (c : Consistent h) :
    h.mc.pendingQueue = [] ↔ h.pending = [] := by
  rw [← List.length_eq_zero_iff, ← List.length_eq_zero_iff, c.length_eq]

/-- Scheduling serves the request that first-ready first-come order chooses. -/
theorem Consistent.chosen (c : Consistent h) (nonempty : h.pending ≠ []) :
    ∃ id, h.Chosen id ∧ (h.step .schedule).served = h.served ++ [id] := by
  obtain ⟨id, a, b, served, split, len, -, -, result⟩ := c.schedule_eq nonempty
  have sorted := c.sorted
  unfold next at len
  rw [split] at len sorted
  have later : ∀ i ∈ b, id < i := (List.pairwise_cons.1 (List.pairwise_append.1 sorted).2.1).1
  refine ⟨id, ?_, by rw [result]⟩
  constructor
  · rw [split]
    exact List.mem_append_right a List.mem_cons_self
  · rw [split]
    rintro ⟨i, mem, hit⟩
    obtain ⟨own, before⟩ := firstReady_split len ⟨i, mem, decide_eq_true hit⟩
    refine ⟨of_decide_eq_true own, fun j mem hit => ?_⟩
    rcases List.mem_append.1 mem with mem | mem
    · exact absurd (decide_eq_true hit) (before j mem)
    · rcases List.mem_cons.1 mem with rfl | mem
      · exact Nat.le_refl _
      · exact Nat.le_of_lt (later j mem)
  · rw [split]
    intro none j mem
    have nil := firstReady_split_nil len fun i mem hit => none i mem (of_decide_eq_true hit)
    rw [nil, List.nil_append] at mem
    rcases List.mem_cons.1 mem with rfl | mem
    · exact Nat.le_refl _
    · exact Nat.le_of_lt (later j mem)

/-- As many schedule calls as requests are pending. -/
def drained (h : History) : History := run step h (List.replicate h.pending.length .schedule)

/-- As many schedule calls as requests are pending serve them all. -/
theorem Consistent.drain (c : Consistent h) :
    h.drained.pending = [] ∧ h.drained.accepted = h.accepted ∧ h.drained.Consistent := by
  unfold drained
  generalize size : h.pending.length = n
  induction n generalizing h with
  | zero => exact ⟨List.length_eq_zero_iff.1 size, rfl, c⟩
  | succ n ih =>
    have nonempty : h.pending ≠ [] := List.ne_nil_of_length_eq_add_one size
    obtain ⟨id, a, b, served, split, -, -, -, result⟩ := c.schedule_eq nonempty
    have fewer : (h.step .schedule).pending.length = n := by
      rw [result]
      rw [split] at size
      simp only [List.length_append, List.length_cons] at size ⊢
      omega
    have same : (h.step .schedule).accepted = h.accepted := by rw [result]
    rw [List.replicate_succ, run_cons, ← same]
    exact ih c.schedule fewer

/-- **First ready, first come, first served.** When every request is timely, the requests served and
those pending are all that were accepted, each once, and pending ones are served by as many calls; a
call serves the oldest request whose row is open, or the oldest; and requests to one row are served
in their order. -/
theorem memctrl_fr_fcfs {capacity : UInt32} {ops : List MemOp}
    (timely : Guarded History.step Timely (init capacity) ops) :
    let h := run History.step (init capacity) ops
    (h.served ++ h.pending).Perm (List.range h.accepted.length) ∧
    h.mc.pendingQueue.map (fun r => some ⟨r.type, r.addr, r.data⟩) =
      (h.pending.map fun id => h.accepted[id]?) ∧
    (h.drained.pending = [] ∧ h.drained.served.Perm (List.range h.accepted.length)) ∧
    (h.pending = [] → h.step .schedule = h) ∧
    (h.pending ≠ [] → ∃ id, h.Chosen id ∧ (h.step .schedule).served = h.served ++ [id]) ∧
    (h.served ++ h.pending).Pairwise fun i j => h.SameRow i j → i < j := by
  intro h
  have c : Consistent h :=
    guarded_invariant (fun _ _ c ok => c.step ok) (consistent_init capacity) timely
  obtain ⟨empty, same, after⟩ := c.drain
  refine ⟨c.once, c.queue, ⟨empty, ?_⟩, ?_, c.chosen, c.order⟩
  · have once := after.once
    rwa [empty, List.append_nil, same] at once
  · exact fun nil => step_schedule_nil (c.pending_eq_nil_iff.2 nil)

/-- The second request overtakes the first one: its row is open. -/
theorem memctrl_fr_fcfs_overtaking :
    let h := run step (init 4) [.enqueue .read 0x2000 0, .enqueue .write 0 7, .schedule]
    h.served = [1] ∧ h.pending = [0] ∧ (h.served ++ h.pending).Perm (List.range h.accepted.length) :=
  ⟨by decide, by decide, (memctrl_fr_fcfs (by decide)).1⟩

/-! ## The end of the arrival times -/

/-- A request that arrives at the value that stands for none. -/
theorem memctrl_schedule_stuck {mc : MemController} {req : MemRequest} (queue : mc.pendingQueue = [req])
    (never : req.arrivalTime = 0xFFFFFFFF) : memctrlSchedule mc = (-1, mc) := by
  have stay : ∀ eligible b,
      bestStep eligible ⟨-1, 0xFFFFFFFF, b⟩ (req, 0) = ⟨-1, 0xFFFFFFFF, b⟩ := by
    intro eligible b
    rw [bestStep, never]
    simp only [UInt32.lt_irrefl, if_false, ite_self]
  unfold memctrlSchedule bestRequest
  simp only [queue, List.zipIdx_cons, List.zipIdx_nil, List.foldl_cons, List.foldl_nil, stay]
  rfl

/-- The controller is empty and has served `n` requests. -/
structure Idle (h : History) (n : Nat) : Prop where
  consistent : Consistent h
  pending : h.pending = []
  served : h.mc.totalServed = UInt32.ofNat n
  capacity : h.mc.queueCapacity = 1

/-- A request to an empty queue of one place. -/
theorem enqueue_of_nil {mc : MemController} (queue : mc.pendingQueue = []) (capacity : mc.queueCapacity = 1) :
    memctrlEnqueue mc .read 0 0 = { mc with pendingQueue := [newRequest mc .read 0 0] } := by
  rw [memctrlEnqueue, queue, capacity]
  rfl

/-- An idle controller accepts a read. -/
theorem Idle.enqueue {n : Nat} (i : Idle h n) :
    h.step (.enqueue .read 0 0) =
      { mc := { h.mc with pendingQueue := [newRequest h.mc .read 0 0] }
        accepted := h.accepted ++ [⟨.read, 0, 0⟩]
        pending := [h.accepted.length]
        served := h.served } := by
  have queue := i.consistent.pending_eq_nil_iff.2 i.pending
  simp only [step]
  rw [enqueue_of_nil queue i.capacity, queue, i.pending]
  rfl

/-- A read accepted and served leaves the controller idle again. -/
theorem Idle.round {n : Nat} (i : Idle h n) (lt : n < 0xFFFFFFFF) :
    Idle ((h.step (.enqueue .read 0 0)).step .schedule) (n + 1) := by
  have queue := i.consistent.pending_eq_nil_iff.2 i.pending
  have timely : h.Timely (.enqueue .read 0 0) := by
    refine ⟨?_, ?_, ?_⟩
    · rw [i.served]
      intro eq
      have := congrArg UInt32.toNat eq
      rw [UInt32.toNat_ofNat_of_lt' (lt.trans (by decide))] at this
      exact absurd this (Nat.ne_of_lt lt)
    · simp [queue]
    · simp [queue]
  have c := i.consistent.enqueue timely
  rw [i.enqueue] at c ⊢
  obtain ⟨id, a, b, served, split, -, -, -, result⟩ := c.schedule_eq (List.cons_ne_nil _ _)
  have len := congrArg List.length split
  simp only [List.length_append, List.length_cons, List.length_nil] at len
  constructor
  · exact c.schedule
  · rw [result]
    apply List.length_eq_zero_iff.1
    rw [List.length_append]
    omega
  · rw [result]
    dsimp only [serve]
    rw [i.served, UInt32.ofNat_add]
    rfl
  · rw [result]
    exact i.capacity

/-- Requests are served one by one. -/
def churn : Nat → List MemOp
  | 0 => []
  | n + 1 => churn n ++ [.enqueue .read 0 0, .schedule]

/-- Up to the last value of the counter, the rounds leave the controller idle. -/
theorem churn_idle (n : Nat) (le : n ≤ 0xFFFFFFFF) : Idle (run step (init 1) (churn n)) n := by
  induction n with
  | zero => exact ⟨consistent_init 1, rfl, rfl, rfl⟩
  | succ n ih =>
    rw [churn, run_append]
    exact (ih (by omega)).round (by omega)

/-- At the last value a request is accepted and never served. -/
theorem Idle.stuck {n : Nat} (i : Idle h n) (eq : n = 0xFFFFFFFF) :
    (h.step (.enqueue .read 0 0)).pending ≠ [] ∧
      (h.step (.enqueue .read 0 0)).step .schedule = h.step (.enqueue .read 0 0) := by
  have max : h.mc.totalServed = 0xFFFFFFFF := by
    rw [i.served, eq]
    rfl
  rw [i.enqueue]
  refine ⟨List.cons_ne_nil _ _, ?_⟩
  have stuck : memctrlSchedule { h.mc with pendingQueue := [newRequest h.mc .read 0 0] } = (-1, _) :=
    memctrl_schedule_stuck rfl max
  simp only [step, stuck]
  rfl

/-- After `2 ^ 32 - 1` requests the next one is never served. -/
theorem memctrl_starves :
    ∃ ops, (run step (init 1) ops).pending ≠ [] ∧
      ∀ n, run step (run step (init 1) ops) (List.replicate n .schedule) = run step (init 1) ops := by
  obtain ⟨k, eq⟩ : ∃ k, k = 0xFFFFFFFF := ⟨_, rfl⟩
  obtain ⟨waits, stuck⟩ := (churn_idle k (Nat.le_of_eq eq)).stuck eq
  rw [← run_snoc step] at waits stuck
  refine ⟨churn k ++ [.enqueue .read 0 0], waits, fun n => ?_⟩
  induction n with
  | zero => rfl
  | succ n ih => rw [List.replicate_succ, run_cons, stuck, ih]

end History

end MiniHardware.Cpu
