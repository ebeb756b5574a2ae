import MiniHardware.Lib.Ring

/-!
# The NVMe queue pair (`lake_test_mini/src/io_profile.c`)

A command that is submitted is completed at once: it goes into the submission
ring and its completion into the completion ring. No function moves `sq_head`,
so the submission ring fills up for good: what is accepted is completed, in
order, but after `queue_size - 1` commands nothing more is accepted.
-/

namespace MiniHardware.Bench
open Lib

structure NvmeSQEntry where
  opcode : UInt8
  flags : UInt8
  commandId : UInt16
  namespaceId : UInt32
  startLba : UInt64
  numBlocks : UInt16
  dataPointer : UInt64

structure NvmeCQEntry where
  commandId : UInt16
  status : UInt16
  result : UInt32

/-- The rings have `queue_size` entries each. -/
structure NvmeQueuePair (queueSize : UInt16) where
  sq : Fin queueSize.toNat → NvmeSQEntry
  cq : Fin queueSize.toNat → NvmeCQEntry
  sqHead : Fin queueSize.toNat
  sqTail : Fin queueSize.toNat
  cqHead : Fin queueSize.toNat
  cqTail : Fin queueSize.toNat
  totalCommandsProcessed : UInt64

def nvmeQpInit (queueSize : UInt16) (pos : 0 < queueSize.toNat) : NvmeQueuePair queueSize :=
  let first : Fin queueSize.toNat := ⟨0, pos⟩
  ⟨fun _ => ⟨0, 0, 0, 0, 0, 0, 0⟩, fun _ => ⟨0, 0, 0⟩, first, first, first, first, 0⟩

variable {queueSize : UInt16}

/-- The completion of a command: success. -/
def NvmeSQEntry.completion (cmd : NvmeSQEntry) : NvmeCQEntry := ⟨cmd.commandId, 0, 0⟩

/-- The second half of `nvme_qp_submit`: a completion is dropped if the ring has no room for it. -/
def nvmeQpComplete (qp : NvmeQueuePair queueSize) (completion : NvmeCQEntry) : NvmeQueuePair queueSize :=
  let nextCqTail := Ring.behind qp.cqTail 1
  if nextCqTail ≠ qp.cqHead then
    { qp with
      cq := Function.update qp.cq qp.cqTail completion
      cqTail := nextCqTail
      totalCommandsProcessed := qp.totalCommandsProcessed + 1 }
  else qp

def nvmeQpSubmit (qp : NvmeQueuePair queueSize) (cmd : NvmeSQEntry) : Bool × NvmeQueuePair queueSize :=
  let nextTail := Ring.behind qp.sqTail 1
  if nextTail = qp.sqHead then (false, qp)
  else
    let qp := { qp with sq := Function.update qp.sq qp.sqTail cmd, sqTail := nextTail }
    (true, nvmeQpComplete qp cmd.completion)

/-- The loop of `nvme_qp_process_completions` with room for so many more results. -/
def processCompletions : Nat → NvmeQueuePair queueSize → List NvmeCQEntry × NvmeQueuePair queueSize
  | 0, qp => ([], qp)
  | more + 1, qp =>
    if qp.cqHead ≠ qp.cqTail then
      let (results, qp') := processCompletions more { qp with cqHead := Ring.behind qp.cqHead 1 }
      (qp.cq qp.cqHead :: results, qp')
    else ([], qp)

/-- The entries of `results` that are filled; their number is what is returned. -/
def nvmeQpProcessCompletions (qp : NvmeQueuePair queueSize) (maxResults : UInt32) :
    List NvmeCQEntry × NvmeQueuePair queueSize :=
  processCompletions maxResults.toNat qp

/-! ## The completion ring -/

/-- The completions not processed yet. -/
def NvmeQueuePair.pending (qp : NvmeQueuePair queueSize) : List NvmeCQEntry :=
  (Ring.ofEnds qp.cq qp.cqHead qp.cqTail).toList

theorem length_pending (qp : NvmeQueuePair queueSize) :
    qp.pending.length = Ring.between qp.cqHead qp.cqTail :=
  Ring.length_toList _

theorem pending_of_done {qp : NvmeQueuePair queueSize} (done : qp.cqHead = qp.cqTail) : qp.pending = [] := by
  rw [← List.length_eq_zero_iff, length_pending, done, Ring.between_self]

theorem complete_pending {qp : NvmeQueuePair queueSize} (room : qp.pending.length + 1 < queueSize.toNat)
    (completion : NvmeCQEntry) : (nvmeQpComplete qp completion).pending = qp.pending ++ [completion] := by
  rw [length_pending] at room
  have free := Ring.behind_ne_of_room room
  obtain ⟨below, push⟩ := Ring.ofEnds_push qp.cq free completion
  rw [nvmeQpComplete, if_pos free, NvmeQueuePair.pending, push]
  exact Ring.toList_push (Ring.valid_ofEnds ..) below completion

theorem complete_sq (qp : NvmeQueuePair queueSize) (completion : NvmeCQEntry) :
    (nvmeQpComplete qp completion).sqHead = qp.sqHead ∧ (nvmeQpComplete qp completion).sqTail = qp.sqTail := by
  unfold nvmeQpComplete
  dsimp only
  split <;> exact ⟨rfl, rfl⟩

/-- What is processed are the oldest completions. -/
theorem process_completions_eq (more : Nat) (qp : NvmeQueuePair queueSize) :
    (processCompletions more qp).1 ++ (processCompletions more qp).2.pending = qp.pending ∧
      (processCompletions more qp).1.length = min more qp.pending.length ∧
      (processCompletions more qp).2.sqHead = qp.sqHead ∧ (processCompletions more qp).2.sqTail = qp.sqTail := by
  induction more generalizing qp with
  | zero => exact ⟨rfl, (Nat.zero_min _).symm, rfl, rfl⟩
  | succ more ih =>
    unfold processCompletions
    split
    · rename_i ne
      obtain ⟨kept, count, head, tail⟩ := ih { qp with cqHead := Ring.behind qp.cqHead 1 }
      have first : qp.pending = qp.cq qp.cqHead :: NvmeQueuePair.pending { qp with cqHead := Ring.behind qp.cqHead 1 } := by
        rw [NvmeQueuePair.pending, NvmeQueuePair.pending, Ring.ofEnds_pop _ ne]
        exact Ring.toList_pop (Ring.between_pos ne)
      refine ⟨?_, ?_, head, tail⟩
      · rw [List.cons_append, kept, first]
      · rw [List.length_cons, count, first, List.length_cons]
        omega
    · rename_i done
      rw [pending_of_done (not_not.1 done)]
      exact ⟨rfl, (Nat.min_zero _).symm, rfl, rfl⟩

/-! ## Runs -/

inductive NvmeOp where
  | submit (cmd : NvmeSQEntry)
  | processCompletions (maxResults : UInt32)

/-- The queue pair, the number of commands submitted, those accepted and the completions delivered. -/
structure NvmeRun (queueSize : UInt16) where
  qp : NvmeQueuePair queueSize
  submitted : Nat
  accepted : List NvmeSQEntry
  delivered : List NvmeCQEntry

def nvmeStart (queueSize : UInt16) (pos : 0 < queueSize.toNat) : NvmeRun queueSize :=
  ⟨nvmeQpInit queueSize pos, 0, [], []⟩

def nvmeStep (s : NvmeRun queueSize) : NvmeOp → NvmeRun queueSize
  | .submit cmd =>
    let (ok, qp) := nvmeQpSubmit s.qp cmd
    { s with qp := qp, submitted := s.submitted + 1, accepted := s.accepted ++ if ok then [cmd] else [] }
  | .processCompletions maxResults =>
    let (results, qp) := nvmeQpProcessCompletions s.qp maxResults
    { s with qp := qp, delivered := s.delivered ++ results }

/-- All completions of earlier commands have been processed. -/
def Settled (s : NvmeRun queueSize) : Prop := s.qp.cqHead = s.qp.cqTail

/-- A command is accepted when all completions of earlier ones have been processed. -/
def Recovers (s : NvmeRun queueSize) : NvmeOp → Prop
  | .submit cmd => Settled s → (nvmeQpSubmit s.qp cmd).1 = true
  | .processCompletions _ => True

/-- No command comes after the first `queue_size - 1` when nothing is left to process. -/
def WithinFirst (s : NvmeRun queueSize) : NvmeOp → Prop
  | .submit _ => Settled s → s.submitted + 1 < queueSize.toNat
  | .processCompletions _ => True

structure NvmeInv (s : NvmeRun queueSize) : Prop where
  head : s.qp.sqHead.val = 0
  tail : s.qp.sqTail.val = s.accepted.length
  count : s.accepted.length = min s.submitted (queueSize.toNat - 1)
  /-- Each command accepted has one completion, delivered or pending, in order. -/
  kept : s.delivered ++ s.qp.pending = s.accepted.map NvmeSQEntry.completion

theorem nvmeInv_start (pos : 0 < queueSize.toNat) : NvmeInv (nvmeStart queueSize pos) :=
  ⟨rfl, rfl, (Nat.zero_min _).symm, pending_of_done rfl⟩

variable {s : NvmeRun queueSize}

/-- The head is never moved, so the ring counts the commands ever accepted. -/
theorem NvmeInv.full_iff (inv : NvmeInv s) :
    Ring.behind s.qp.sqTail 1 = s.qp.sqHead ↔ queueSize.toNat ≤ s.accepted.length + 1 := by
  have lt := s.qp.sqTail.isLt
  rw [inv.tail] at lt
  rw [Fin.ext_iff, inv.head]
  show (s.qp.sqTail.val + 1) % queueSize.toNat = 0 ↔ _
  rw [inv.tail]
  constructor
  · intro zero
    by_contra below
    rw [Nat.mod_eq_of_lt (by omega)] at zero
    omega
  · intro full
    have all : s.accepted.length + 1 = queueSize.toNat := Nat.le_antisymm lt full
    rw [all, Nat.mod_self]

theorem NvmeInv.submit_iff (inv : NvmeInv s) (cmd : NvmeSQEntry) :
    (nvmeQpSubmit s.qp cmd).1 = true ↔ s.submitted + 1 < queueSize.toNat := by
  have lt := s.qp.sqTail.isLt
  have tail := inv.tail
  have count := inv.count
  unfold nvmeQpSubmit
  dsimp only
  split
  · rename_i full
    have full := inv.full_iff.1 full
    constructor
    · rintro ⟨⟩
    · omega
  · rename_i notFull
    have below := mt inv.full_iff.2 notFull
    constructor
    · omega
    · exact fun _ => rfl

theorem NvmeInv.submit (inv : NvmeInv s) (cmd : NvmeSQEntry) : NvmeInv (nvmeStep s (.submit cmd)) := by
  have lt := s.qp.sqTail.isLt
  have tail := inv.tail
  have count := inv.count
  have length := congrArg List.length inv.kept
  rw [List.length_append, List.length_map] at length
  unfold nvmeStep nvmeQpSubmit
  dsimp only
  split
  · rename_i full
    have full := inv.full_iff.1 full
    simp only [Bool.false_eq_true, if_false, List.append_nil]
    exact ⟨inv.head, tail, by dsimp only; omega, inv.kept⟩
  · rename_i notFull
    have below := mt inv.full_iff.2 notFull
    have next : (Ring.behind s.qp.sqTail 1).val = s.accepted.length + 1 := by
      show (s.qp.sqTail.val + 1) % queueSize.toNat = _
      rw [tail, Nat.mod_eq_of_lt (by omega)]
    let qp := { s.qp with sq := Function.update s.qp.sq s.qp.sqTail cmd, sqTail := Ring.behind s.qp.sqTail 1 }
    have room : qp.pending.length + 1 < queueSize.toNat := by
      show s.qp.pending.length + 1 < _
      omega
    obtain ⟨headKept, tailKept⟩ := complete_sq qp cmd.completion
    simp only [if_true]
    refine ⟨?_, ?_, ?_, ?_⟩
    · rw [headKept]
      exact inv.head
    · rw [tailKept, List.length_append]
      exact next
    · rw [List.length_append, List.length_singleton]
      dsimp only
      omega
    · rw [complete_pending room, ← List.append_assoc, List.map_append]
      congr 1
      exact inv.kept

theorem NvmeInv.process (inv : NvmeInv s) (maxResults : UInt32) :
    NvmeInv (nvmeStep s (.processCompletions maxResults)) := by
  obtain ⟨kept, -, head, tail⟩ := process_completions_eq maxResults.toNat s.qp
  refine ⟨?_, ?_, inv.count, ?_⟩
  · exact (congrArg Fin.val head).trans inv.head
  · exact (congrArg Fin.val tail).trans inv.tail
  · show (s.delivered ++ (processCompletions maxResults.toNat s.qp).1) ++ _ = _
    rw [List.append_assoc]
    exact (congrArg (s.delivered ++ ·) kept).trans inv.kept

theorem NvmeInv.step (s : NvmeRun queueSize) (op : NvmeOp) (inv : NvmeInv s) : NvmeInv (nvmeStep s op) := by
  cases op with
  | submit cmd => exact inv.submit cmd
  | processCompletions maxResults => exact inv.process maxResults

/-- **What is accepted is completed once, in order; and commands are accepted again when all earlier ones
are processed if and only if they are among the first `queue_size - 1`.** -/
theorem nvme_qp_recovers_iff (queueSize : UInt16) (two : 2 ≤ queueSize.toNat) (ops : List NvmeOp) :
    let start := nvmeStart queueSize (Nat.lt_of_lt_of_le Nat.two_pos two)
    let s := run nvmeStep start ops
    (s.delivered ++ s.qp.pending = s.accepted.map NvmeSQEntry.completion ∧ Guarded nvmeStep Recovers start ops) ↔
      Guarded nvmeStep WithinFirst start ops := by
  intro start s
  have init : NvmeInv start := nvmeInv_start _
  have kept := (run_invariant NvmeInv.step init ops).kept
  rw [and_iff_right kept]
  refine guarded_congr NvmeInv ?_ (fun s op inv _ => inv.step s op) init
  intro s op inv
  cases op with
  | submit cmd => exact imp_congr_right fun _ => inv.submit_iff cmd
  | processCompletions _ => exact Iff.rfl

/-- The command of the test of the queue pair. -/
def readCommand : NvmeSQEntry := ⟨0x02, 0, 1, 0, 0, 8, 0⟩

theorem nvme_qp_recovers_iff_test :
    let start := nvmeStart 64 (by decide)
    let ops := [.submit readCommand, .processCompletions 16]
    let s := run nvmeStep start ops
    (s.delivered ++ s.qp.pending = s.accepted.map NvmeSQEntry.completion ∧ Guarded nvmeStep Recovers start ops) ↔
      Guarded nvmeStep WithinFirst start ops :=
  nvme_qp_recovers_iff 64 (by decide) [.submit readCommand, .processCompletions 16]

/-- With two entries the second command is refused, though the first one is processed. -/
theorem nvme_qp_refuses :
    ¬ Guarded nvmeStep Recovers (nvmeStart 2 (by decide))
      [.submit readCommand, .processCompletions 16, .submit readCommand] := by
  rintro ⟨-, -, recovers, -⟩
  exact absurd (recovers rfl) (by decide)

end MiniHardware.Bench
