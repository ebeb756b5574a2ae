import Mathlib.Data.Fin.Tuple.Basic
import MiniHardware.Lib.Index
import MiniHardware.Lib.RoundRobin

/-!
# NVMe queues and their arbiter (`mini-storage-hardware/src/nvme.c`)

The host puts commands into the submission queues and rings the doorbells. No
function takes a command out again or completes one, so each queue takes the
commands that fit and no completion is ever found (`nvme_queues`). The arbiter
hands out the turns one by one, with weights as without (`nvmeArbiter_rotates`).
-/

namespace MiniHardware.Storage
open Lib

/-- `NVME_MAX_IO_QUEUES`. -/
abbrev nvmeMaxIoQueues : Nat := 8

/-- `NVME_QUEUE_DEPTH`, the `depth` of every queue. -/
abbrev nvmeQueueDepth : Nat := 64

structure NVMeQueue (α : Type*) where
  entries : Fin nvmeQueueDepth → α
  head : Fin nvmeQueueDepth
  tail : Fin nvmeQueueDepth

structure NVMeCompletion where
  cmdSpecific : UInt32
  reserved : UInt32
  sqHeadPtr : UInt16
  sqId : UInt16
  commandId : UInt16
  status : UInt16

/-- The doorbells of the admin queues come first. -/
structure NVMeController (α : Type*) where
  adminSq : NVMeQueue α
  adminCq : NVMeQueue α
  ioSqs : Fin nvmeMaxIoQueues → NVMeQueue α
  ioCqs : Fin nvmeMaxIoQueues → NVMeQueue α
  sqTailDoorbell : Fin (nvmeMaxIoQueues + 1) → Fin nvmeQueueDepth
  cqHeadDoorbell : Fin (nvmeMaxIoQueues + 1) → Fin nvmeQueueDepth

section Model
variable {α : Type*}

def sqIsFull (sq : NVMeQueue α) : Bool :=
  let count :=
    if sq.tail ≥ sq.head then sq.tail.val - sq.head.val else nvmeQueueDepth - sq.head.val + sq.tail.val
  count ≥ nvmeQueueDepth - 1

def sqIsEmpty (sq : NVMeQueue α) : Bool := sq.head = sq.tail

/-- `zero` is a command of zeros. -/
def nvmeInit (zero : α) : NVMeController α :=
  let queue : NVMeQueue α := ⟨fun _ => zero, 0, 0⟩
  ⟨queue, queue, fun _ => queue, fun _ => queue, fun _ => 0, fun _ => 0⟩

/-- Nothing is the return of `-1`, here and below. -/
def sqEnqueue (sq : NVMeQueue α) (cmd : α) : Option (NVMeQueue α) :=
  if sqIsFull sq then none
  else some { sq with entries := Function.update sq.entries sq.tail cmd, tail := Ring.behind sq.tail 1 }

def nvmeSubmitAdminCmd (ctrl : NVMeController α) (cmd : α) : Bool × NVMeController α :=
  match sqEnqueue ctrl.adminSq cmd with
  | none => (false, ctrl)
  | some sq => (true, { ctrl with adminSq := sq, sqTailDoorbell := Function.update ctrl.sqTailDoorbell 0 sq.tail })

def nvmeSubmitIoCmd (ctrl : NVMeController α) (qid : UInt32) (cmd : α) : Bool × NVMeController α :=
  if h : qid.toNat < nvmeMaxIoQueues then
    let q : Fin nvmeMaxIoQueues := ⟨qid.toNat, h⟩
    match sqEnqueue (ctrl.ioSqs q) cmd with
    | none => (false, ctrl)
    | some sq =>
      (true, { ctrl with
        ioSqs := Function.update ctrl.ioSqs q sq
        sqTailDoorbell := Function.update ctrl.sqTailDoorbell q.succ sq.tail })
  else (false, ctrl)

/-- The completion queue of an identifier, of which 0 is that of the admin queue. -/
def NVMeController.cq (ctrl : NVMeController α) : Fin (nvmeMaxIoQueues + 1) → NVMeQueue α :=
  Fin.cons ctrl.adminCq ctrl.ioCqs

def NVMeController.setCq (ctrl : NVMeController α) (q : Fin (nvmeMaxIoQueues + 1)) (cq : NVMeQueue α) :
    NVMeController α :=
  { ctrl with
    adminCq := Function.update ctrl.cq q cq 0
    ioCqs := fun i => Function.update ctrl.cq q cq i.succ }

def nvmeProcessCq (ctrl : NVMeController α) (qid : UInt32) : Option NVMeCompletion × NVMeController α :=
  if h : qid.toNat ≤ nvmeMaxIoQueues then
    let q : Fin (nvmeMaxIoQueues + 1) := ⟨qid.toNat, Nat.lt_succ_of_le h⟩
    let cq := ctrl.cq q
    if sqIsEmpty cq then (none, ctrl)
    else
      let outComp : NVMeCompletion := ⟨0, 0, UInt16.ofNat cq.head.val, qid.toUInt16, 0, 0⟩
      let cq := { cq with head := Ring.behind cq.head 1 }
      (some outComp,
        { ctrl.setCq q cq with cqHeadDoorbell := Function.update ctrl.cqHeadDoorbell q cq.head })
  else (none, ctrl)

inductive NVMeOp (α : Type*) where
  | submitAdmin (cmd : α)
  | submitIo (qid : UInt32) (cmd : α)
  | processCq (qid : UInt32)

def nvmeStep (ctrl : NVMeController α) : NVMeOp α → NVMeController α
  | .submitAdmin cmd => (nvmeSubmitAdminCmd ctrl cmd).2
  | .submitIo qid cmd => (nvmeSubmitIoCmd ctrl qid cmd).2
  | .processCq qid => (nvmeProcessCq ctrl qid).2

end Model

/-! ## What a queue holds -/

section Queue
variable {α : Type*} {sq : NVMeQueue α} {cmd : α}

/-- The commands in a queue, the oldest first. -/
def NVMeQueue.commands (sq : NVMeQueue α) : List α := (Ring.ofEnds sq.entries sq.head sq.tail).toList

theorem sqIsFull_iff : sqIsFull sq = true ↔ sq.commands.length = nvmeQueueDepth - 1 := by
  have places : (if sq.tail ≥ sq.head then sq.tail.val - sq.head.val else nvmeQueueDepth - sq.head.val + sq.tail.val) =
      Ring.between sq.head sq.tail := by
    have head := sq.head.isLt
    have tail := sq.tail.isLt
    rw [Ring.between]
    split
    · rename_i le
      have le : sq.head.val ≤ sq.tail.val := le
      have around : sq.tail.val + (nvmeQueueDepth - sq.head.val) = sq.tail.val - sq.head.val + nvmeQueueDepth := by omega
      rw [around, Nat.add_mod_right, Nat.mod_eq_of_lt (by omega)]
    · rename_i gt
      have gt : ¬ sq.head.val ≤ sq.tail.val := gt
      rw [Nat.mod_eq_of_lt (by omega)]
      omega
  have room := Ring.between_lt sq.head sq.tail
  have length : sq.commands.length = Ring.between sq.head sq.tail := Ring.length_toList _
  rw [sqIsFull, places, decide_eq_true_iff, length]
  omega

/-- A command is put behind the others, if there is room. -/
theorem sqEnqueue_eq (sq : NVMeQueue α) (cmd : α) :
    sq.commands.length = nvmeQueueDepth - 1 ∧ sqEnqueue sq cmd = none ∨
      sq.commands.length < nvmeQueueDepth - 1 ∧ ∃ sq', sqEnqueue sq cmd = some sq' ∧
        sq'.commands = sq.commands ++ [cmd] ∧ sq'.head = sq.head := by
  have length : sq.commands.length = Ring.between sq.head sq.tail := Ring.length_toList _
  have lt := Ring.between_lt sq.head sq.tail
  rw [sqEnqueue]
  cases full : sqIsFull sq with
  | true => exact .inl ⟨sqIsFull_iff.1 full, rfl⟩
  | false =>
    have room : sq.commands.length ≠ nvmeQueueDepth - 1 := by
      intro eq
      rw [sqIsFull_iff.2 eq] at full
      cases full
    have next : Ring.behind sq.tail 1 ≠ sq.head := Ring.behind_ne_of_room (by omega)
    refine .inr ⟨by omega, _, rfl, ?_, rfl⟩
    obtain ⟨-, pushed⟩ := Ring.ofEnds_push sq.entries next cmd
    rw [NVMeQueue.commands, pushed]
    exact Ring.toList_push (Ring.valid_ofEnds _ _ _) lt cmd

/-- A queue that starts at the first cell ends where its length says. -/
theorem tail_of_head (first : sq.head = 0) : sq.tail.val = sq.commands.length := by
  have length : sq.commands.length = Ring.between sq.head sq.tail := Ring.length_toList _
  have tail := sq.tail.isLt
  rw [length, first, Ring.between]
  show sq.tail.val = (sq.tail.val + (nvmeQueueDepth - 0)) % nvmeQueueDepth
  rw [Nat.sub_zero, Nat.add_mod_right, Nat.mod_eq_of_lt tail]

end Queue

/-! ## Runs -/

section Runs
variable {α : Type*}

/-- The submission queue of an identifier, of which 0 is the admin queue. -/
def NVMeController.sq (ctrl : NVMeController α) : Fin (nvmeMaxIoQueues + 1) → NVMeQueue α :=
  Fin.cons ctrl.adminSq ctrl.ioSqs

/-- The command that an operation submits to a queue. -/
def NVMeOp.submits (q : Fin (nvmeMaxIoQueues + 1)) : NVMeOp α → Option α
  | .submitAdmin cmd => if q = 0 then some cmd else none
  | .submitIo qid cmd => if qid.toNat + 1 = q.val then some cmd else none
  | .processCq _ => none

/-- The commands submitted to a queue. -/
def submittedTo (q : Fin (nvmeMaxIoQueues + 1)) (ops : List (NVMeOp α)) : List α := ops.filterMap (NVMeOp.submits q)

variable {ops : List (NVMeOp α)} {ctrl : NVMeController α} {q : Fin (nvmeMaxIoQueues + 1)} {op : NVMeOp α} {cmd : α}

theorem submits_iff : op.submits q = some cmd ↔
    op = .submitAdmin cmd ∧ q = 0 ∨ ∃ qid, op = .submitIo qid cmd ∧ qid.toNat + 1 = q.val := by
  cases op with
  | submitAdmin cmd' => simp [NVMeOp.submits, and_comm]
  | submitIo qid cmd' => simp [NVMeOp.submits, and_comm]
  | processCq qid => simp [NVMeOp.submits]

theorem submits_elsewhere (here : op.submits q = some cmd) {other : Fin (nvmeMaxIoQueues + 1)} (ne : other ≠ q) :
    op.submits other = none := by
  rcases submits_iff.1 here with ⟨rfl, rfl⟩ | ⟨qid, rfl, eq⟩
  · exact if_neg ne
  · refine if_neg fun eq' => ne (Fin.ext ?_)
    rw [← eq', eq]

/-- What a submission does: nothing to a full queue, and to another that it gets the command and a ring of its
doorbell. -/
theorem nvmeStep_submit (here : op.submits q = some cmd) :
    (sqEnqueue (ctrl.sq q) cmd = none → nvmeStep ctrl op = ctrl) ∧
      ∀ sq', sqEnqueue (ctrl.sq q) cmd = some sq' → (nvmeStep ctrl op).sq = Function.update ctrl.sq q sq' ∧
        (nvmeStep ctrl op).sqTailDoorbell = Function.update ctrl.sqTailDoorbell q sq'.tail ∧
        (nvmeStep ctrl op).cq = ctrl.cq := by
  rcases submits_iff.1 here with ⟨rfl, rfl⟩ | ⟨qid, rfl, eq⟩
  · have admin : ctrl.sq 0 = ctrl.adminSq := rfl
    rw [nvmeStep, nvmeSubmitAdminCmd, admin]
    refine ⟨fun refused => ?_, fun sq' taken => ?_⟩
    · rw [refused]
    · rw [taken]
      exact ⟨(Fin.update_cons_zero ..).symm, rfl, rfl⟩
  · have lt : qid.toNat < nvmeMaxIoQueues := by
      have := q.isLt
      omega
    obtain rfl : q = Fin.succ ⟨qid.toNat, lt⟩ := Fin.ext eq.symm
    have io : ctrl.sq (Fin.succ ⟨qid.toNat, lt⟩) = ctrl.ioSqs ⟨qid.toNat, lt⟩ := rfl
    rw [nvmeStep, nvmeSubmitIoCmd, dif_pos lt, io]
    dsimp only
    refine ⟨fun refused => ?_, fun sq' taken => ?_⟩
    · rw [refused]
    · rw [taken]
      exact ⟨Fin.cons_update .., rfl, rfl⟩

/-- The first commands are in the queue, and its doorbell has been rung for them. -/
structure QueueHolds (ops : List (NVMeOp α)) (ctrl : NVMeController α) (q : Fin (nvmeMaxIoQueues + 1)) : Prop where
  head : (ctrl.sq q).head = 0
  commands : (ctrl.sq q).commands = (submittedTo q ops).take (nvmeQueueDepth - 1)
  doorbell : ctrl.sqTailDoorbell q = (ctrl.sq q).tail
  empty : (ctrl.cq q).head = (ctrl.cq q).tail

/-- Nothing happens to a queue. -/
theorem QueueHolds.keep (h : QueueHolds ops ctrl q) (none : op.submits q = none) : QueueHolds (ops ++ [op]) ctrl q := by
  have same : submittedTo q (ops ++ [op]) = submittedTo q ops := by
    rw [submittedTo, List.filterMap_append, List.filterMap_cons_none none, List.filterMap_nil, List.append_nil]
    rfl
  exact ⟨h.head, same ▸ h.commands, h.doorbell, h.empty⟩

theorem QueueHolds.submit (h : QueueHolds ops ctrl q) (here : op.submits q = some cmd) :
    QueueHolds (ops ++ [op]) (nvmeStep ctrl op) q := by
  have more : submittedTo q (ops ++ [op]) = submittedTo q ops ++ [cmd] := by
    rw [submittedTo, List.filterMap_append, List.filterMap_cons_some here, List.filterMap_nil]
    rfl
  have held : (ctrl.sq q).commands.length = min (nvmeQueueDepth - 1) (submittedTo q ops).length := by
    rw [h.commands, List.length_take]
  rcases sqEnqueue_eq (ctrl.sq q) cmd with ⟨full, refused⟩ | ⟨room, sq', taken, put, head⟩
  · have long : nvmeQueueDepth - 1 ≤ (submittedTo q ops).length := by omega
    rw [(nvmeStep_submit here).1 refused]
    refine ⟨h.head, ?_, h.doorbell, h.empty⟩
    rw [more, List.take_append_of_le_length long, h.commands]
  · have short : (submittedTo q ops).length < nvmeQueueDepth - 1 := by omega
    obtain ⟨sq, bell, cq⟩ := (nvmeStep_submit here).2 sq' taken
    refine ⟨?_, ?_, ?_, ?_⟩
    · rw [sq, Function.update_self, head, h.head]
    · have len : (submittedTo q ops ++ [cmd]).length ≤ nvmeQueueDepth - 1 := by
        rw [List.length_append, List.length_singleton]
        omega
      rw [sq, Function.update_self, put, more, List.take_of_length_le len, h.commands,
        List.take_of_length_le short.le]
    · rw [bell, sq, Function.update_self, Function.update_self]
    · rw [cq, h.empty]

/-- A completion queue without entries answers nothing. -/
theorem processCq_idle (empty : ∀ q, (ctrl.cq q).head = (ctrl.cq q).tail) (qid : UInt32) :
    nvmeProcessCq ctrl qid = (none, ctrl) := by
  rw [nvmeProcessCq]
  split
  · exact if_pos (decide_eq_true (empty _))
  · rfl

/-- An operation that submits nothing does nothing. -/
theorem nvmeStep_idle (h : ∀ q, QueueHolds ops ctrl q) (none : ∀ q, op.submits q = none) : nvmeStep ctrl op = ctrl := by
  cases op with
  | submitAdmin cmd => exact absurd (none 0) (by simp [NVMeOp.submits])
  | submitIo qid cmd =>
    rw [nvmeStep, nvmeSubmitIoCmd]
    split
    · rename_i lt
      exact absurd (none ⟨qid.toNat + 1, Nat.succ_lt_succ lt⟩) (by simp [NVMeOp.submits])
    · rfl
  | processCq qid =>
    rw [nvmeStep, processCq_idle fun q => (h q).empty]

theorem queueHolds_step (h : ∀ q, QueueHolds ops ctrl q) (op : NVMeOp α) (q : Fin (nvmeMaxIoQueues + 1)) :
    QueueHolds (ops ++ [op]) (nvmeStep ctrl op) q := by
  by_cases some_queue : ∃ q' cmd, op.submits q' = some cmd
  · obtain ⟨q', cmd, here⟩ := some_queue
    by_cases eq : q = q'
    · subst eq
      exact (h q).submit here
    · have kept := (h q).keep (submits_elsewhere here eq)
      rcases sqEnqueue_eq (ctrl.sq q') cmd with ⟨-, refused⟩ | ⟨-, sq', taken, -, -⟩
      · rw [(nvmeStep_submit here).1 refused]
        exact kept
      · obtain ⟨sq, bell, cq⟩ := (nvmeStep_submit here).2 sq' taken
        obtain ⟨head, commands, doorbell, empty⟩ := kept
        constructor
        · rw [sq, Function.update_of_ne eq, head]
        · rw [sq, Function.update_of_ne eq, commands]
        · rw [bell, sq, Function.update_of_ne eq, Function.update_of_ne eq, doorbell]
        · rw [cq, empty]
  · have none (q) : op.submits q = none := by
      rw [Option.eq_none_iff_forall_ne_some]
      exact fun cmd here => some_queue ⟨q, cmd, here⟩
    rw [nvmeStep_idle h none]
    exact (h q).keep (none q)

theorem queueHolds_run (zero : α) (ops : List (NVMeOp α)) (q : Fin (nvmeMaxIoQueues + 1)) :
    QueueHolds ops (run nvmeStep (nvmeInit zero) ops) q := by
  induction ops using List.reverseRecOn generalizing q with
  | nil =>
    have empty : NVMeQueue.commands (⟨fun _ => zero, 0, 0⟩ : NVMeQueue α) = [] :=
      List.eq_nil_of_length_eq_zero ((Ring.length_toList _).trans (Ring.between_self 0))
    refine Fin.cases ⟨rfl, empty, rfl, rfl⟩ (fun i => ⟨rfl, empty, rfl, rfl⟩) q
  | append_singleton ops op ih =>
    rw [run_snoc]
    exact queueHolds_step ih op q

theorem QueueHolds.taken_iff (h : QueueHolds ops ctrl q) (cmd : α) :
    (sqEnqueue (ctrl.sq q) cmd).isSome = true ↔ (submittedTo q ops).length < nvmeQueueDepth - 1 := by
  have held : (ctrl.sq q).commands.length = min (nvmeQueueDepth - 1) (submittedTo q ops).length := by
    rw [h.commands, List.length_take]
  rcases sqEnqueue_eq (ctrl.sq q) cmd with ⟨full, refused⟩ | ⟨room, sq', taken, -, -⟩
  · rw [refused]
    exact ⟨nofun, fun short => by omega⟩
  · rw [taken]
    exact ⟨fun _ => by omega, fun _ => rfl⟩

/-- **Each queue takes 63 commands and no more, and none of them completes,** in every run: what it holds are
the first 63 that were submitted to it, its doorbell tells how many, and no completion is found. -/
theorem nvme_queues (zero : α) (ops : List (NVMeOp α)) :
    let ctrl := run nvmeStep (nvmeInit zero) ops
    (∀ q, (ctrl.sq q).commands = (submittedTo q ops).take (nvmeQueueDepth - 1) ∧
      (ctrl.sqTailDoorbell q).val = min (nvmeQueueDepth - 1) (submittedTo q ops).length) ∧
      (∀ cmd, (nvmeSubmitAdminCmd ctrl cmd).1 = true ↔ (submittedTo 0 ops).length < nvmeQueueDepth - 1) ∧
      (∀ (q : Fin nvmeMaxIoQueues) cmd,
        (nvmeSubmitIoCmd ctrl (UInt32.ofNat q.val) cmd).1 = true ↔
          (submittedTo q.succ ops).length < nvmeQueueDepth - 1) ∧
      ∀ qid, (nvmeProcessCq ctrl qid).1 = none := by
  intro ctrl
  have holds : ∀ q, QueueHolds ops ctrl q := queueHolds_run zero ops
  refine ⟨fun q => ⟨(holds q).commands, ?_⟩, fun cmd => ?_, fun q cmd => ?_, fun qid => ?_⟩
  · rw [(holds q).doorbell, tail_of_head (holds q).head, (holds q).commands, List.length_take]
  · rw [← (holds 0).taken_iff cmd, nvmeSubmitAdminCmd]
    have admin : ctrl.sq 0 = ctrl.adminSq := rfl
    rw [admin]
    cases sqEnqueue ctrl.adminSq cmd <;> simp
  · have small : (UInt32.ofNat q.val).toNat = q.val := by
      have lt : q.val < 8 := q.isLt
      rw [UInt32.toNat_ofNat']
      omega
    have io : ctrl.sq q.succ = ctrl.ioSqs q := rfl
    rw [← (holds q.succ).taken_iff cmd, nvmeSubmitIoCmd, io]
    simp only [small, q.isLt, dif_pos, Fin.eta]
    cases sqEnqueue (ctrl.ioSqs q) cmd <;> simp
  · rw [processCq_idle fun q => (holds q).empty]

end Runs

/-! ## The arbiter -/

structure NVMeArbiter where
  weights : Fin nvmeMaxIoQueues → UInt8
  remainingBurst : Fin nvmeMaxIoQueues → UInt32
  currentSq : Fin nvmeMaxIoQueues
  arbBurst : UInt32

def nvmeArbiterInit (burst : UInt32) : NVMeArbiter := ⟨fun _ => 0, fun _ => burst, 0, burst⟩

def nvmeArbiterSetWeight (arb : NVMeArbiter) (qid : UInt32) (weight : UInt8) : NVMeArbiter :=
  if h : qid.toNat < nvmeMaxIoQueues then { arb with weights := Function.update arb.weights ⟨qid.toNat, h⟩ weight }
  else arb

/-- What a queue's turn takes from its burst: 1 without a weight, and its credits with one. -/
def burstTake (weight : UInt8) (left : UInt32) : UInt32 :=
  if weight = 0 then 1
  else
    let credits := weight.toUInt32
    if credits < left then credits else left

/-- A burst that is used up starts again. -/
def refill (burst left : UInt32) : UInt32 := if left = 0 then burst else left

/-- The body of the loop for a queue, and whether it is returned. -/
def arbiterTry (arb : NVMeArbiter) (qid : Fin nvmeMaxIoQueues) : Bool × NVMeArbiter :=
  let left := arb.remainingBurst qid
  if left > 0 then
    let left := left - burstTake (arb.weights qid) left
    (true, { arb with
      remainingBurst := Function.update arb.remainingBurst qid (refill arb.arbBurst left)
      currentSq := Ring.behind qid 1 })
  else (false, { arb with remainingBurst := Function.update arb.remainingBurst qid arb.arbBurst })

/-- The loop, over the rest of its rounds. -/
def arbiterScan (start : Fin nvmeMaxIoQueues) (arb : NVMeArbiter) :
    List Nat → Option (Fin nvmeMaxIoQueues) × NVMeArbiter
  | [] => (none, arb)
  | i :: is =>
    match arbiterTry arb (Ring.behind start i) with
    | (true, arb) => (some (Ring.behind start i), arb)
    | (false, arb) => arbiterScan start arb is

/-- `none` is the return of `-1`. -/
def nvmeArbiterNextSq (arb : NVMeArbiter) : Option (Fin nvmeMaxIoQueues) × NVMeArbiter :=
  arbiterScan arb.currentSq arb (List.range nvmeMaxIoQueues)

inductive ArbiterOp where
  | setWeight (qid : UInt32) (weight : UInt8)
  | nextSq

def ArbiterOp.isNext : ArbiterOp → Bool
  | .setWeight _ _ => false
  | .nextSq => true

def arbiterStep (arb : NVMeArbiter) : ArbiterOp → NVMeArbiter
  | .setWeight qid weight => nvmeArbiterSetWeight arb qid weight
  | .nextSq => (nvmeArbiterNextSq arb).2

/-- The queues that are returned in a run. -/
def arbiterPicks : NVMeArbiter → List ArbiterOp → List (Option (Fin nvmeMaxIoQueues))
  | _, [] => []
  | arb, op :: ops =>
    if op.isNext then (nvmeArbiterNextSq arb).1 :: arbiterPicks (arbiterStep arb op) ops
    else arbiterPicks (arbiterStep arb op) ops

section Arbiter
variable {burst : UInt32} {k : Nat} {arb : NVMeArbiter}

theorem refill_eq_zero {left : UInt32} : refill burst left = 0 ↔ burst = 0 ∧ left = 0 := by
  rw [refill]
  split
  · rename_i zero
    rw [zero]
    exact (and_iff_left rfl).symm
  · rename_i some_left
    exact ⟨fun zero => absurd zero some_left, fun both => absurd both.2 some_left⟩

/-- A burst is only used up where it is empty from the start; then queue `k` has turn `k`. -/
structure Rotates (burst : UInt32) (k : Nat) (arb : NVMeArbiter) : Prop where
  same : arb.arbBurst = burst
  left : ∀ q, arb.remainingBurst q = 0 ↔ burst = 0
  turn : burst ≠ 0 → arb.currentSq = Ring.behind 0 k

theorem rotates_init (burst : UInt32) : Rotates burst 0 (nvmeArbiterInit burst) :=
  ⟨rfl, fun _ => Iff.rfl, fun _ => rfl⟩

theorem Rotates.setWeight (h : Rotates burst k arb) (qid : UInt32) (weight : UInt8) :
    Rotates burst k (nvmeArbiterSetWeight arb qid weight) := by
  rw [nvmeArbiterSetWeight]
  split
  · exact ⟨h.same, h.left, h.turn⟩
  · exact h

/-- Without a burst the loop goes through all queues and finds none. -/
theorem Rotates.scan_none (h : Rotates 0 k arb) (start : Fin nvmeMaxIoQueues) (is : List Nat) :
    ∃ arb', arbiterScan start arb is = (none, arb') ∧ Rotates 0 k arb' := by
  induction is generalizing arb with
  | nil => exact ⟨arb, rfl, h⟩
  | cons i is ih =>
    have empty := (h.left (Ring.behind start i)).2 rfl
    have tried : arbiterTry arb (Ring.behind start i) = (false, { arb with
        remainingBurst := Function.update arb.remainingBurst (Ring.behind start i) arb.arbBurst }) := by
      rw [arbiterTry, empty]
      rfl
    rw [arbiterScan, tried]
    refine ih ⟨h.same, fun q => ?_, fun some_burst => absurd rfl some_burst⟩
    show Function.update arb.remainingBurst _ arb.arbBurst q = 0 ↔ _
    rw [Function.update_apply, h.same]
    split
    · exact Iff.rfl
    · exact h.left q

theorem Rotates.next (h : Rotates burst k arb) :
    (nvmeArbiterNextSq arb).1 = (if burst = 0 then none else some (Ring.behind 0 k)) ∧
      Rotates burst (k + 1) (nvmeArbiterNextSq arb).2 := by
  by_cases zero : burst = 0
  · subst zero
    obtain ⟨arb', none, still⟩ := h.scan_none arb.currentSq (List.range nvmeMaxIoQueues)
    rw [nvmeArbiterNextSq, none]
    exact ⟨rfl, still.same, still.left, fun some_burst => absurd rfl some_burst⟩
  · have left : arb.remainingBurst arb.currentSq > 0 := UInt32.pos_iff_ne_zero.2 fun eq => zero ((h.left _).1 eq)
    have first : List.range nvmeMaxIoQueues = 0 :: [1, 2, 3, 4, 5, 6, 7] := rfl
    rw [nvmeArbiterNextSq, first, arbiterScan, Ring.behind_zero, arbiterTry, if_pos left, if_neg zero, ← h.turn zero]
    refine ⟨rfl, h.same, fun q => ?_, fun _ => ?_⟩
    · show Function.update arb.remainingBurst _ _ q = 0 ↔ _
      rw [Function.update_apply]
      split
      · rw [refill_eq_zero, h.same]
        exact ⟨And.left, fun eq => absurd eq zero⟩
      · exact h.left q
    · show Ring.behind arb.currentSq 1 = _
      rw [h.turn zero, Ring.behind_behind]

theorem Rotates.picks (h : Rotates burst k arb) (ops : List ArbiterOp) :
    arbiterPicks arb ops = (List.range (ops.countP ArbiterOp.isNext)).map fun i =>
      if burst = 0 then none else some (Ring.behind 0 (k + i)) := by
  induction ops generalizing k arb with
  | nil => rfl
  | cons op ops ih =>
    cases op with
    | setWeight qid weight =>
      have other : ¬ (ArbiterOp.setWeight qid weight).isNext = true := Bool.false_ne_true
      rw [arbiterPicks, if_neg other, List.countP_cons_of_neg other]
      exact ih (h.setWeight qid weight)
    | nextSq =>
      rw [arbiterPicks, List.countP_cons_of_pos (by decide), List.range_succ_eq_map, List.map_cons, List.map_map,
        if_pos (by decide), arbiterStep, ih h.next.2, h.next.1]
      congr 1
      apply List.map_congr_left
      intro i _
      rw [Function.comp_apply, Nat.succ_eq_add_one, Nat.add_assoc, Nat.add_comm 1 i]

end Arbiter

/-- **The weights change nothing.** However they are set in between, the queues are returned one after the other,
and none without a burst. -/
theorem nvmeArbiter_rotates (burst : UInt32) (ops : List ArbiterOp) :
    arbiterPicks (nvmeArbiterInit burst) ops = (List.range (ops.countP ArbiterOp.isNext)).map fun k =>
      if burst = 0 then none else some (Ring.behind 0 k) := by
  rw [(rotates_init burst).picks ops]
  simp only [Nat.zero_add]

example : arbiterPicks (nvmeArbiterInit 2) [.setWeight 0 9, .nextSq, .nextSq, .setWeight 1 1, .nextSq] =
    [some 0, some 1, some 2] := by decide

end MiniHardware.Storage
