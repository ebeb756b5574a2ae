import MiniHardware.Lib.Index
import MiniHardware.Lib.Ring
import MiniHardware.Storage.Ftl
import Mathlib.Data.Nat.Periodic

/-!
# The SSD controller (`mini-storage-hardware/src/ssd_controller.c`)

Commands wait in the issue queue, are executed in order while the controller
is given cycles, and go to the completion queue, from where they are fetched.
The controller does not look at whether the completion queue has taken them.
Queues of three priorities are selected in rounds, by credits.
-/

namespace MiniHardware.Storage
open Lib

/-- `SSDC_QUEUE_DEPTH`. -/
abbrev ssdcQueueDepth : Nat := 64

/-- `SSDC_CHANNELS`. -/
def ssdcChannels : UInt64 := 4

inductive IOType where
  | read | write | erase
deriving DecidableEq

inductive IOStatus where
  | pending | issued | complete | error
deriving DecidableEq

structure IOCommand where
  type : IOType
  lba : UInt32
  length : UInt32
  data : PageData
  status : IOStatus
  cmdId : UInt32

abbrev CommandQueue := Ring IOCommand ssdcQueueDepth

def cqIsFull (cq : CommandQueue) : Bool := cq.count ≥ ssdcQueueDepth

def cqIsEmpty (cq : CommandQueue) : Bool := cq.count = 0

def cqEnqueue (cq : CommandQueue) (cmd : IOCommand) : Int × CommandQueue :=
  if cqIsFull cq then (-1, cq) else (0, cq.push cmd)

def cqDequeue (cq : CommandQueue) : Option IOCommand × CommandQueue :=
  if cqIsEmpty cq then (none, cq) else (some (cq.cells cq.head), cq.pop)

structure SSDController where
  issueQueue : CommandQueue
  completionQueue : CommandQueue
  ftl : FTL
  currentCycle : UInt64
  busyChannels : UInt64

/-- A command after `memset`. -/
def zeroCommand : IOCommand := ⟨.read, 0, 0, zeroPage, .pending, 0⟩

def emptyQueue : CommandQueue := ⟨fun _ => zeroCommand, 0, 0, 0⟩

def ssdcInit : SSDController := ⟨emptyQueue, emptyQueue, ftlInit .pageLevel, 0, 0⟩

/-- The command that `ssdc_submit_io` makes. -/
def submitted (ctrl : SSDController) (type : IOType) (lba : UInt32) (data : Option PageData) : IOCommand where
  type := type
  lba := lba
  length := 1
  data := if type = .write then data.getD zeroPage else zeroPage
  status := .pending
  cmdId := UInt32.ofNat ctrl.issueQueue.count

def ssdcSubmitIo (ctrl : SSDController) (type : IOType) (lba : UInt32) (data : Option PageData) :
    Int × SSDController :=
  let (rc, q) := cqEnqueue ctrl.issueQueue (submitted ctrl type lba data)
  (rc, { ctrl with issueQueue := q })

/-- The `switch` of `ssdc_process`. A failed read leaves the data. -/
def execute (ftl : FTL) (cmd : IOCommand) : IOCommand × FTL :=
  match cmd.type with
  | .read =>
    match ftlRead ftl cmd.lba with
    | (some data, ftl) => ({ cmd with data := data, status := .complete }, ftl)
    | (none, ftl) => ({ cmd with status := .error }, ftl)
  | .write =>
    let (rc, ftl) := ftlWrite ftl cmd.lba cmd.data
    ({ cmd with status := if rc = 0 then .complete else .error }, ftl)
  | .erase => ({ cmd with status := .complete }, ftl)

/-- The body of the inner loop, for a command that has left the issue queue. -/
def issue (ctrl : SSDController) (cmd : IOCommand) : SSDController :=
  let ctrl := { ctrl with busyChannels := ctrl.busyChannels + 1 }
  let (cmd, ftl) := execute ctrl.ftl { cmd with status := .issued }
  let (_, q) := cqEnqueue ctrl.completionQueue cmd
  { ctrl with ftl := ftl, completionQueue := q, busyChannels := ctrl.busyChannels - 1 }

/-- The inner loop. The queue is not empty, so it gives a command. -/
def issueLoop (ctrl : SSDController) : SSDController :=
  if _h : ctrl.issueQueue.count ≠ 0 ∧ ctrl.busyChannels < ssdcChannels then
    issueLoop (issue { ctrl with issueQueue := ctrl.issueQueue.pop } (ctrl.issueQueue.cells ctrl.issueQueue.head))
  else ctrl
termination_by ctrl.issueQueue.count
decreasing_by
  exact Nat.sub_one_lt _h.1

/-- The inner loop takes no cycle. -/
theorem issueLoop_currentCycle (ctrl : SSDController) : (issueLoop ctrl).currentCycle = ctrl.currentCycle := by
  fun_induction issueLoop ctrl with
  | case1 ctrl more ih => exact ih
  | case2 ctrl stop => rfl

/-- The outer loop. -/
def processLoop (ctrl : SSDController) (target : UInt64) : SSDController :=
  if _h : ctrl.currentCycle < target then
    processLoop { issueLoop ctrl with currentCycle := (issueLoop ctrl).currentCycle + 1 } target
  else ctrl
termination_by target.toNat - ctrl.currentCycle.toNat
decreasing_by
  have lt := UInt64.lt_iff_toNat_lt.1 _h
  have small := target.toNat_lt
  rw [issueLoop_currentCycle, UInt64.toNat_add, UInt64.toNat_one, Nat.mod_eq_of_lt (by omega)]
  omega

def ssdcProcess (ctrl : SSDController) (cycles : UInt64) : SSDController :=
  processLoop ctrl (ctrl.currentCycle + cycles)

/-- The command received when 0 is returned, `none` when -1 is. -/
def ssdcComplete (ctrl : SSDController) : Option IOCommand × SSDController :=
  let (out, q) := cqDequeue ctrl.completionQueue
  (out, { ctrl with completionQueue := q })

/-! ## The queues as lists -/

/-- The commands as they come out, and the translation layer after them. -/
def executeAll (ftl : FTL) : List IOCommand → List IOCommand × FTL
  | [] => ([], ftl)
  | cmd :: cmds =>
    let (result, ftl) := execute ftl { cmd with status := .issued }
    let (results, ftl) := executeAll ftl cmds
    (result :: results, ftl)

/-- Commands executed in two parts, the second where the first left the translation layer. -/
theorem executeAll_append (ftl : FTL) (xs ys : List IOCommand) :
    executeAll ftl (xs ++ ys) =
      ((executeAll ftl xs).1 ++ (executeAll (executeAll ftl xs).2 ys).1, (executeAll (executeAll ftl xs).2 ys).2) := by
  induction xs generalizing ftl with
  | nil => rfl
  | cons x xs ih => simp [executeAll, ih]

/-- Each command has its result. -/
theorem length_executeAll (ftl : FTL) (cmds : List IOCommand) : (executeAll ftl cmds).1.length = cmds.length := by
  induction cmds generalizing ftl with
  | nil => rfl
  | cons cmd cmds ih => simp [executeAll, ih]

/-- The queues are in order and no channel is busy. -/
structure Queues (ctrl : SSDController) (issue completion : List IOCommand) : Prop where
  issueValid : ctrl.issueQueue.Valid
  issue : ctrl.issueQueue.toList = issue
  completionValid : ctrl.completionQueue.Valid
  completion : ctrl.completionQueue.toList = completion
  idle : ctrl.busyChannels = 0

/-- The queues start empty. -/
theorem queues_init : Queues ssdcInit [] [] :=
  ⟨⟨Nat.zero_le _, rfl⟩, rfl, ⟨Nat.zero_le _, rfl⟩, rfl, rfl⟩

variable {ctrl : SSDController} {issued completion : List IOCommand} {cq : CommandQueue}

/-- A prefix that is cut again with more behind it. -/
theorem take_take_append {α : Type*} (l m : List α) (n : Nat) : (l.take n ++ m).take n = (l ++ m).take n := by
  rcases Nat.le_total l.length n with le | ge
  · rw [List.take_of_length_le le]
  · rw [List.take_append_of_le_length (by simp [ge]), List.take_append_of_le_length ge, List.take_take, Nat.min_self]

/-- A full queue takes nothing. -/
theorem cq_enqueue_eq (valid : cq.Valid) (cmd : IOCommand) :
    (cqEnqueue cq cmd).2.Valid ∧ (cqEnqueue cq cmd).2.toList = (cq.toList ++ [cmd]).take ssdcQueueDepth := by
  unfold cqEnqueue
  split
  case isTrue full =>
    have ge : ssdcQueueDepth ≤ cq.toList.length := by
      rw [Ring.length_toList]
      exact of_decide_eq_true full
    rw [List.take_append_of_le_length ge, List.take_of_length_le (by rw [Ring.length_toList]; exact valid.count_le)]
    exact ⟨valid, rfl⟩
  case isFalse room =>
    have lt : cq.count < ssdcQueueDepth := by
      simpa [cqIsFull] using room
    have fits : (cq.toList ++ [cmd]).length ≤ ssdcQueueDepth := by
      rw [List.length_append, Ring.length_toList]
      exact lt
    rw [List.take_of_length_le fits]
    exact ⟨valid.push lt cmd, Ring.toList_push valid lt cmd⟩

/-- One round executes the command at the head. -/
theorem issue_eq {cmd : IOCommand} (h : Queues ctrl (cmd :: issued) completion) :
    let next := issue { ctrl with issueQueue := ctrl.issueQueue.pop } (ctrl.issueQueue.cells ctrl.issueQueue.head)
    let result := execute ctrl.ftl { cmd with status := .issued }
    ctrl.issueQueue.count ≠ 0 ∧ Queues next issued ((completion ++ [result.1]).take ssdcQueueDepth) ∧
      next.ftl = result.2 := by
  have count : ctrl.issueQueue.count = issued.length + 1 := by
    rw [← Ring.length_toList, h.issue, List.length_cons]
  have pos : 0 < ctrl.issueQueue.count := by omega
  have front := Ring.toList_pop pos
  rw [h.issue, List.cons.injEq] at front
  obtain ⟨valid, content⟩ := cq_enqueue_eq h.completionValid (execute ctrl.ftl { cmd with status := .issued }).1
  rw [h.completion] at content
  dsimp only
  rw [← front.1]
  refine ⟨Nat.ne_of_gt pos, ⟨h.issueValid.pop pos, front.2.symm, valid, content, ?_⟩, rfl⟩
  show ctrl.busyChannels + 1 - 1 = 0
  rw [h.idle]
  rfl

/-- The inner loop executes all commands that wait; what the completion queue cannot take is gone. -/
theorem issueLoop_eq (h : Queues ctrl issued completion) :
    Queues (issueLoop ctrl) [] ((completion ++ (executeAll ctrl.ftl issued).1).take ssdcQueueDepth) ∧
      (issueLoop ctrl).ftl = (executeAll ctrl.ftl issued).2 := by
  induction issued generalizing ctrl completion with
  | nil =>
    have none : ctrl.issueQueue.count = 0 := by
      rw [← Ring.length_toList, h.issue]
      rfl
    have fits : completion.length ≤ ssdcQueueDepth := by
      rw [← h.completion, Ring.length_toList]
      exact h.completionValid.count_le
    rw [issueLoop, dif_neg (fun more => more.1 none)]
    show Queues ctrl [] ((completion ++ []).take ssdcQueueDepth) ∧ ctrl.ftl = ctrl.ftl
    rw [List.append_nil, List.take_of_length_le fits]
    exact ⟨h, rfl⟩
  | cons cmd cmds ih =>
    obtain ⟨more, next, ftl⟩ := issue_eq h
    have free : ctrl.busyChannels < ssdcChannels := by
      rw [h.idle]
      decide
    obtain ⟨queues, last⟩ := ih next
    rw [ftl, take_take_append, List.append_assoc] at queues
    rw [issueLoop, dif_pos ⟨more, free⟩]
    refine ⟨queues, ?_⟩
    rw [last, ftl]
    rfl

/-- Without commands the outer loop only counts. -/
theorem processLoop_empty (ctrl : SSDController) (target : UInt64) (none : ctrl.issueQueue.count = 0) :
    ∃ cycle, processLoop ctrl target = { ctrl with currentCycle := cycle } := by
  fun_induction processLoop ctrl target with
  | case1 ctrl before ih =>
    have still : issueLoop ctrl = ctrl := by
      rw [issueLoop, dif_neg (fun more => more.1 none)]
    rw [still] at ih ⊢
    obtain ⟨cycle, eq⟩ := ih none
    exact ⟨cycle, eq⟩
  | case2 ctrl after => exact ⟨ctrl.currentCycle, rfl⟩

/-- What `ssdc_process` does if it has a cycle. -/
theorem ssdc_process_eq (h : Queues ctrl issued completion) {cycles : UInt64}
    (runs : ctrl.currentCycle < ctrl.currentCycle + cycles) :
    Queues (ssdcProcess ctrl cycles) [] ((completion ++ (executeAll ctrl.ftl issued).1).take ssdcQueueDepth) ∧
      (ssdcProcess ctrl cycles).ftl = (executeAll ctrl.ftl issued).2 := by
  obtain ⟨queues, ftl⟩ := issueLoop_eq h
  have none : (issueLoop ctrl).issueQueue.count = 0 := by
    rw [← Ring.length_toList, queues.issue]
    rfl
  rw [ssdcProcess, processLoop, dif_pos runs]
  obtain ⟨cycle, eq⟩ := processLoop_empty { issueLoop ctrl with currentCycle := (issueLoop ctrl).currentCycle + 1 }
    (ctrl.currentCycle + cycles) none
  rw [eq]
  exact ⟨⟨queues.issueValid, queues.issue, queues.completionValid, queues.completion, queues.idle⟩, ftl⟩

/-- The outer loop ends at its target, or does not run. -/
theorem processLoop_currentCycle (ctrl : SSDController) (target : UInt64) :
    (processLoop ctrl target).currentCycle =
      if ctrl.currentCycle < target then target else ctrl.currentCycle := by
  fun_induction processLoop ctrl target with
  | case1 ctrl before ih =>
    rw [issueLoop_currentCycle] at ih ⊢
    rw [ih, if_pos before]
    have lt := UInt64.lt_iff_toNat_lt.1 before
    have small := target.toNat_lt
    have next : (ctrl.currentCycle + 1).toNat = ctrl.currentCycle.toNat + 1 := by
      rw [UInt64.toNat_add, UInt64.toNat_one, Nat.mod_eq_of_lt (by omega)]
    split
    · rfl
    · rename_i reached
      rw [UInt64.lt_iff_toNat_lt, next] at reached
      show ctrl.currentCycle + 1 = target
      exact UInt64.toNat_inj.1 (by omega)
  | case2 ctrl after => rw [if_neg after]

/-- A count of cycles that wraps to no later one does nothing. -/
theorem ssdc_process_none {cycles : UInt64} (runs : ¬ ctrl.currentCycle < ctrl.currentCycle + cycles) :
    ssdcProcess ctrl cycles = ctrl := by
  rw [ssdcProcess, processLoop, dif_neg runs]

/-! ## Runs -/

inductive SsdOp where
  | submit (type : IOType) (lba : UInt32) (data : Option PageData)
  | process (cycles : UInt64)
  | complete

/-- The controller, the commands it has accepted and those it has given back. -/
structure SsdRun where
  ctrl : SSDController
  accepted : List IOCommand
  delivered : List IOCommand

def ssdStart : SsdRun := ⟨ssdcInit, [], []⟩

def ssdStep (s : SsdRun) : SsdOp → SsdRun
  | .submit type lba data =>
    let (rc, ctrl) := ssdcSubmitIo s.ctrl type lba data
    { s with
      ctrl := ctrl
      accepted := if rc = 0 then s.accepted ++ [submitted s.ctrl type lba data] else s.accepted }
  | .process cycles => { s with ctrl := ssdcProcess s.ctrl cycles }
  | .complete =>
    let (out, ctrl) := ssdcComplete s.ctrl
    { s with ctrl := ctrl, delivered := s.delivered ++ out.toList }

/-- The accepted commands wait, up to those that were executed, which have come out or wait to
come out, in order. -/
def Delivers (s : SsdRun) : Prop :=
  ∃ executed, s.accepted = executed ++ s.ctrl.issueQueue.toList ∧
    s.delivered ++ s.ctrl.completionQueue.toList = (executeAll (ftlInit .pageLevel) executed).1

/-- The completion queue has room for all commands that wait, if any are executed. -/
def Room (s : SsdRun) : SsdOp → Prop
  | .process cycles => s.ctrl.currentCycle < s.ctrl.currentCycle + cycles →
      s.ctrl.issueQueue.count + s.ctrl.completionQueue.count ≤ ssdcQueueDepth
  | _ => True

/-- The translation layer is where the executed commands have left it. -/
structure Consistent (s : SsdRun) : Prop where
  queues : Queues s.ctrl s.ctrl.issueQueue.toList s.ctrl.completionQueue.toList
  delivers : ∃ executed, s.accepted = executed ++ s.ctrl.issueQueue.toList ∧
    s.delivered ++ s.ctrl.completionQueue.toList = (executeAll (ftlInit .pageLevel) executed).1 ∧
    s.ctrl.ftl = (executeAll (ftlInit .pageLevel) executed).2

/-- A command for which there is room is accepted. -/
theorem submit_ctrl {s : SsdRun} (lt : s.ctrl.issueQueue.count < ssdcQueueDepth) (type : IOType) (lba : UInt32)
    (data : Option PageData) : (ssdStep s (.submit type lba data)).ctrl =
      { s.ctrl with issueQueue := s.ctrl.issueQueue.push (submitted s.ctrl type lba data) } := by
  have room : cqIsFull s.ctrl.issueQueue = false := decide_eq_false (Nat.not_le.2 lt)
  rw [ssdStep, ssdcSubmitIo, cqEnqueue, room]
  rfl

/-- A new controller is consistent. -/
theorem consistent_start : Consistent ssdStart := ⟨queues_init, [], rfl, rfl, rfl⟩

/-- A consistent controller delivers. -/
theorem Consistent.delivers' {s : SsdRun} (h : Consistent s) : Delivers s := by
  obtain ⟨executed, accepted, delivered, -⟩ := h.delivers
  exact ⟨executed, accepted, delivered⟩

/-- A submission keeps consistency, accepted or refused. -/
theorem Consistent.submit {s : SsdRun} (h : Consistent s) (type : IOType) (lba : UInt32) (data : Option PageData) :
    Consistent (ssdStep s (.submit type lba data)) := by
  obtain ⟨queues, executed, accepted, delivered, ftl⟩ := h
  unfold ssdStep ssdcSubmitIo cqEnqueue
  dsimp only
  split
  case isTrue full => exact ⟨queues, executed, accepted, delivered, ftl⟩
  case isFalse room =>
    have lt : s.ctrl.issueQueue.count < ssdcQueueDepth := by simpa [cqIsFull] using room
    have content := Ring.toList_push queues.issueValid lt (submitted s.ctrl type lba data)
    refine ⟨⟨queues.issueValid.push lt _, rfl, queues.completionValid, rfl, queues.idle⟩, executed, ?_, delivered, ftl⟩
    dsimp only
    rw [if_pos rfl, content, accepted, List.append_assoc]

/-- Fetching a completion keeps consistency. -/
theorem Consistent.complete {s : SsdRun} (h : Consistent s) : Consistent (ssdStep s .complete) := by
  obtain ⟨queues, executed, accepted, delivered, ftl⟩ := h
  unfold ssdStep ssdcComplete cqDequeue
  dsimp only
  split
  case isTrue empty =>
    refine ⟨queues, executed, accepted, ?_, ftl⟩
    rw [Option.toList_none, List.append_nil]
    exact delivered
  case isFalse more =>
    have pos : 0 < s.ctrl.completionQueue.count := by
      simpa [cqIsEmpty, Nat.pos_iff_ne_zero] using more
    refine ⟨⟨queues.issueValid, rfl, queues.completionValid.pop pos, rfl, queues.idle⟩, executed, accepted, ?_, ftl⟩
    rw [← delivered, Ring.toList_pop pos, Option.toList_some, List.append_assoc]
    rfl

/-- Processing keeps consistency, as long as the completion queue has room. -/
theorem Consistent.process {s : SsdRun} (h : Consistent s) {cycles : UInt64} (room : Room s (.process cycles)) :
    Consistent (ssdStep s (.process cycles)) := by
  obtain ⟨queues, executed, accepted, delivered, ftl⟩ := h
  by_cases runs : s.ctrl.currentCycle < s.ctrl.currentCycle + cycles
  · obtain ⟨queues', ftl'⟩ := ssdc_process_eq queues runs
    have fits : (s.ctrl.completionQueue.toList ++
        (executeAll s.ctrl.ftl s.ctrl.issueQueue.toList).1).length ≤ ssdcQueueDepth := by
      rw [List.length_append, length_executeAll, Ring.length_toList, Ring.length_toList, Nat.add_comm]
      exact room runs
    rw [List.take_of_length_le fits] at queues'
    refine ⟨⟨queues'.issueValid, rfl, queues'.completionValid, rfl, queues'.idle⟩, s.accepted, ?_, ?_, ?_⟩
    · show s.accepted = s.accepted ++ (ssdcProcess s.ctrl cycles).issueQueue.toList
      rw [queues'.issue, List.append_nil]
    · show s.delivered ++ (ssdcProcess s.ctrl cycles).completionQueue.toList = _
      rw [queues'.completion, ← List.append_assoc, delivered, accepted, executeAll_append, ftl]
    · show (ssdcProcess s.ctrl cycles).ftl = _
      rw [ftl', accepted, executeAll_append, ftl]
  · show Consistent { s with ctrl := ssdcProcess s.ctrl cycles }
    rw [ssdc_process_none runs]
    exact ⟨queues, executed, accepted, delivered, ftl⟩

/-- Without room some command is executed and its completion is nowhere. -/
theorem Consistent.process_full {s : SsdRun} (h : Consistent s) {cycles : UInt64}
    (full : ¬ Room s (.process cycles)) : ¬ Delivers (ssdStep s (.process cycles)) := by
  obtain ⟨queues, executed, accepted, delivered, ftl⟩ := h
  have full' : s.ctrl.currentCycle < s.ctrl.currentCycle + cycles ∧
      ssdcQueueDepth < s.ctrl.issueQueue.count + s.ctrl.completionQueue.count := by
    simpa [Room] using full
  obtain ⟨queues', -⟩ := ssdc_process_eq queues full'.1
  rintro ⟨executed', accepted', delivered'⟩
  have all : executed' = s.accepted := by
    have : s.accepted = executed' ++ (ssdcProcess s.ctrl cycles).issueQueue.toList := accepted'
    rw [this, queues'.issue, List.append_nil]
  have before := congrArg List.length delivered
  have after := congrArg List.length delivered'
  have taken : (ssdcProcess s.ctrl cycles).completionQueue.toList.length ≤ ssdcQueueDepth := by
    rw [queues'.completion]
    exact List.length_take_le _ _
  have total := congrArg List.length accepted
  rw [all, length_executeAll, List.length_append] at after
  rw [length_executeAll, List.length_append, Ring.length_toList] at before
  rw [List.length_append, Ring.length_toList] at total
  have after' : s.delivered.length + (ssdcProcess s.ctrl cycles).completionQueue.toList.length =
    s.accepted.length := after
  omega

/-- **Every accepted command is completed once, in order,** throughout a run exactly when the
completion queue has room at every call of `ssdc_process`. -/
theorem ssdc_delivers_iff (ops : List SsdOp) :
    (∀ before rest, ops = before ++ rest → Delivers (run ssdStep ssdStart before)) ↔
      Guarded ssdStep Room ssdStart ops := by
  refine guarded_iff_prefixes Consistent (fun s h => h.delivers') ?_ ?_ consistent_start
  · intro s op h room
    cases op with
    | submit type lba data => exact h.submit type lba data
    | process cycles => exact h.process room
    | complete => exact h.complete
  · intro s op h full
    cases op with
    | process cycles => exact h.process_full full
    | submit => exact absurd trivial full
    | complete => exact absurd trivial full

/-! ## A completion that is lost -/

/-- A read of LBA 0. -/
def readZero : SsdOp := .submit .read 0 none

/-- Reads of LBA 0 that are submitted and wait. -/
theorem consistent_reads {n : Nat} (le : n ≤ ssdcQueueDepth) :
    let s := run ssdStep ssdStart (List.replicate n readZero)
    Consistent s ∧ s.ctrl.issueQueue.count = n ∧ s.ctrl.completionQueue.count = 0 ∧ s.ctrl.currentCycle = 0 := by
  induction n with
  | zero => exact ⟨consistent_start, rfl, rfl, rfl⟩
  | succ n ih =>
    obtain ⟨h, issue, completion, cycle⟩ := ih (Nat.le_of_succ_le le)
    rw [List.replicate_succ', run_snoc]
    refine ⟨h.submit .read 0 none, ?_⟩
    rw [readZero] at issue completion cycle ⊢
    rw [submit_ctrl (by rw [issue]; exact le)]
    exact ⟨congrArg (· + 1) issue, completion, cycle⟩

/-- Sixty-four reads are executed and one more is, before any completion is fetched. -/
def lostCompletion : List SsdOp := List.replicate 64 readZero ++ [.process 1, readZero, .process 1]

/-- The last completion of `lostCompletion` finds the queue full and is lost. -/
theorem ssdc_loses_completion : ¬ Delivers (run ssdStep ssdStart lostCompletion) := by
  rw [lostCompletion, run_append]
  obtain ⟨h, issue, completion, cycle⟩ := consistent_reads (n := 64) (Nat.le_refl _)
  generalize run ssdStep ssdStart (List.replicate 64 readZero) = s at h issue completion cycle
  have runs : s.ctrl.currentCycle < s.ctrl.currentCycle + 1 := by rw [cycle]; decide
  have h' : Consistent (ssdStep s (.process 1)) := h.process fun _ => by rw [issue, completion]
  obtain ⟨queues, -⟩ := ssdc_process_eq h.queues runs
  have issue' : (ssdcProcess s.ctrl 1).issueQueue.count = 0 := by
    rw [← Ring.length_toList, queues.issue]
    rfl
  have completion' : (ssdcProcess s.ctrl 1).completionQueue.count = 64 := by
    rw [← Ring.length_toList, queues.completion, List.length_take, List.length_append, length_executeAll,
      Ring.length_toList, Ring.length_toList, issue, completion]
    rfl
  have cycle' : (ssdcProcess s.ctrl 1).currentCycle = 1 := by
    rw [ssdcProcess, processLoop_currentCycle, if_pos runs, cycle]
    rfl
  have room : (ssdStep s (.process 1)).ctrl.issueQueue.count < ssdcQueueDepth := by
    show (ssdcProcess s.ctrl 1).issueQueue.count < _
    rw [issue']
    decide
  apply (h'.submit .read 0 none).process_full
  intro fits
  rw [Room, submit_ctrl room] at fits
  have total : (ssdcProcess s.ctrl 1).issueQueue.count + 1 + (ssdcProcess s.ctrl 1).completionQueue.count ≤ 64 :=
    fits (by
      show (ssdcProcess s.ctrl 1).currentCycle < (ssdcProcess s.ctrl 1).currentCycle + 1
      rw [cycle']
      decide)
  omega

/-! ## Weighted queues -/

/-- `SSDC_QOS_NUM`. -/
abbrev ssdcQosNum : Nat := 3

instance neZeroQosNum : NeZero ssdcQosNum := ⟨by decide⟩

structure SSDIOScheduler where
  credits : Fin ssdcQosNum → UInt64
  consumed : Fin ssdcQosNum → UInt64

/-- `SSDC_QOS_HIGH`, `SSDC_QOS_MEDIUM` and `SSDC_QOS_LOW`. -/
def qosCredits : Fin ssdcQosNum → UInt64
  | 0 => 100
  | 1 => 50
  | 2 => 10

def ssdcQosInit : SSDIOScheduler := ⟨qosCredits, fun _ => 0⟩

def consume (s : SSDIOScheduler) (i : Fin ssdcQosNum) : SSDIOScheduler :=
  { s with consumed := Function.update s.consumed i (s.consumed i + 1) }

def ssdcQosSelectQueue (s : SSDIOScheduler) : Fin ssdcQosNum × SSDIOScheduler :=
  match (List.finRange ssdcQosNum).find? fun i => s.credits i > s.consumed i with
  | some i => (i, consume s i)
  | none => (0, consume { s with consumed := fun _ => 0 } 0)

/-- After `k` calls. -/
def qosAfter (s : SSDIOScheduler) : Nat → SSDIOScheduler
  | 0 => s
  | k + 1 => (ssdcQosSelectQueue (qosAfter s k)).2

/-- What the next call selects then. -/
def qosPick (s : SSDIOScheduler) (k : Nat) : Fin ssdcQosNum := (ssdcQosSelectQueue (qosAfter s k)).1

/-- The calls of a round. -/
def qosRound (credits : Fin ssdcQosNum → UInt64) : Nat := (credits 0).toNat + (credits 1).toNat + (credits 2).toNat

/-- The credits of the queues before. -/
def qosBefore (credits : Fin ssdcQosNum → UInt64) : Fin ssdcQosNum → Nat
  | 0 => 0
  | 1 => (credits 0).toNat
  | 2 => (credits 0).toNat + (credits 1).toNat

/-- What `r` calls of a round have consumed. -/
def RoundFilled (credits : Fin ssdcQosNum → UInt64) (r : Nat) (s : SSDIOScheduler) : Prop :=
  s.credits = credits ∧ ∀ i, (s.consumed i).toNat = min (r - qosBefore credits i) (credits i).toNat

section Qos
variable {credits : Fin ssdcQosNum → UInt64} {s : SSDIOScheduler} {r : Nat}

/-- The high queue is the first. -/
theorem qosBefore_zero : qosBefore credits 0 = 0 := rfl

/-- The credits of the high queue come before the medium one. -/
theorem qosBefore_one : qosBefore credits 1 = (credits 0).toNat := rfl

/-- Those of both come before the low one. -/
theorem qosBefore_two : qosBefore credits 2 = (credits 0).toNat + (credits 1).toNat := rfl

/-- There are three queues. -/
theorem queue_cases (i : Fin ssdcQosNum) : i = 0 ∨ i = 1 ∨ i = 2 := by
  revert i
  decide

/-- The scan over the queues, written out. -/
theorem find_queue (p : Fin ssdcQosNum → Bool) :
    (List.finRange ssdcQosNum).find? p =
      if p 0 then some 0 else if p 1 then some 1 else if p 2 then some 2 else none := by
  rw [show List.finRange ssdcQosNum = [0, 1, 2] from rfl, List.find?_cons, List.find?_cons, List.find?_cons,
    List.find?_nil]
  cases p 0 <;> cases p 1 <;> cases p 2 <;> rfl

/-- The queues do not share a turn. -/
theorem qosBefore_ne {i j : Fin ssdcQosNum} (ne : j ≠ i) :
    qosBefore credits i + (credits i).toNat ≤ qosBefore credits j ∨
      qosBefore credits j + (credits j).toNat ≤ qosBefore credits i := by
  rcases queue_cases i with rfl | rfl | rfl <;> rcases queue_cases j with rfl | rfl | rfl <;>
    first | exact absurd rfl ne | (simp only [qosBefore_zero, qosBefore_one, qosBefore_two]; omega)

/-- A call in the share of a queue fills the round by one. -/
theorem RoundFilled.consume {i : Fin ssdcQosNum} (h : RoundFilled credits r s) (first : qosBefore credits i ≤ r)
    (room : r < qosBefore credits i + (credits i).toNat) : RoundFilled credits (r + 1) (consume s i) := by
  refine ⟨h.1, fun j => ?_⟩
  have here := h.2 j
  have bound := (credits j).toNat_lt
  show (Function.update s.consumed i (s.consumed i + 1) j).toNat = _
  rw [Function.update_apply]
  split
  · rename_i eq
    rw [← eq, UInt64.toNat_add, here, UInt64.toNat_one]
    rw [eq] at bound ⊢
    omega
  · rename_i ne
    rw [here]
    have apart := @qosBefore_ne credits _ _ ne
    omega

/-- A queue has credits left while the calls are short of its share. -/
theorem RoundFilled.left_iff (h : RoundFilled credits r s) (i : Fin ssdcQosNum) :
    s.credits i > s.consumed i ↔ r - qosBefore credits i < (credits i).toNat := by
  rw [gt_iff_lt, UInt64.lt_iff_toNat_lt, h.1, h.2 i]
  omega

/-- A call within the round goes to the queue whose credits are next. -/
theorem RoundFilled.select (h : RoundFilled credits r s) (lt : r < qosRound credits) :
    ∃ i, ssdcQosSelectQueue s = (i, Storage.consume s i) ∧ qosBefore credits i ≤ r ∧
      r < qosBefore credits i + (credits i).toNat := by
  have left0 := h.left_iff 0
  have left1 := h.left_iff 1
  have left2 := h.left_iff 2
  rw [qosBefore_zero] at left0
  rw [qosBefore_one] at left1
  rw [qosBefore_two] at left2
  unfold qosRound at lt
  rw [ssdcQosSelectQueue, find_queue]
  by_cases first : r < (credits 0).toNat
  · rw [if_pos (decide_eq_true (left0.2 (by omega)))]
    exact ⟨0, rfl, by rw [qosBefore_zero]; omega, by rw [qosBefore_zero]; omega⟩
  rw [if_neg (by rw [decide_eq_true_iff, left0]; omega)]
  by_cases second : r < (credits 0).toNat + (credits 1).toNat
  · rw [if_pos (decide_eq_true (left1.2 (by omega)))]
    exact ⟨1, rfl, by rw [qosBefore_one]; omega, by rw [qosBefore_one]; omega⟩
  rw [if_neg (by rw [decide_eq_true_iff, left1]; omega), if_pos (decide_eq_true (left2.2 (by omega)))]
  exact ⟨2, rfl, by rw [qosBefore_two]; omega, by rw [qosBefore_two]; omega⟩

/-- Behind the round, the first queue begins the next one. -/
theorem RoundFilled.reset (h : RoundFilled credits (qosRound credits) s) :
    ssdcQosSelectQueue s = (0, Storage.consume { s with consumed := fun _ => 0 } 0) := by
  have left0 := h.left_iff 0
  have left1 := h.left_iff 1
  have left2 := h.left_iff 2
  rw [qosBefore_zero, qosRound] at left0
  rw [qosBefore_one, qosRound] at left1
  rw [qosBefore_two, qosRound] at left2
  rw [ssdcQosSelectQueue, find_queue, if_neg (by rw [decide_eq_true_iff, left0]; omega),
    if_neg (by rw [decide_eq_true_iff, left1]; omega), if_neg (by rw [decide_eq_true_iff, left2]; omega)]

/-- The queue whose credits the turn belongs to. -/
def InTurn (credits : Fin ssdcQosNum → UInt64) (r : Nat) (i : Fin ssdcQosNum) : Prop :=
  qosBefore credits i ≤ r ∧ r < qosBefore credits i + (credits i).toNat

/-- A turn belongs to one queue. -/
theorem InTurn.unique {i j : Fin ssdcQosNum} (hi : InTurn credits r i) (hj : InTurn credits r j) : i = j := by
  obtain ⟨first, room⟩ := hi
  obtain ⟨first', room'⟩ := hj
  by_contra ne
  rcases qosBefore_ne ne with after | before
  · exact absurd (room'.trans_le after) (Nat.not_lt.2 first)
  · exact absurd (room.trans_le before) (Nat.not_lt.2 first')

/-- After `k` calls the round is filled as far as the remainder says, where a full one counts as an empty one. -/
def QosInv (credits : Fin ssdcQosNum → UInt64) (k : Nat) (s : SSDIOScheduler) : Prop :=
  ∃ r, RoundFilled credits r s ∧ r ≤ qosRound credits ∧ r % qosRound credits = k % qosRound credits

/-- One call goes on by one in the round and selects the queue whose turn it is. -/
theorem QosInv.next {k : Nat} (h : QosInv credits k s) (pos : 0 < credits 0) :
    QosInv credits (k + 1) (ssdcQosSelectQueue s).2 ∧
      InTurn credits (k % qosRound credits) (ssdcQosSelectQueue s).1 := by
  obtain ⟨r, filled, le, mod⟩ := h
  rcases Nat.lt_or_eq_of_le le with lt | rfl
  · obtain ⟨i, eq, first, room⟩ := filled.select lt
    rw [eq, ← mod, Nat.mod_eq_of_lt lt]
    exact ⟨⟨r + 1, filled.consume first room, lt, Nat.ModEq.add_right 1 mod⟩, first, room⟩
  · -- the call that finds the round full is the first of the next one
    rw [filled.reset, ← mod, Nat.mod_self]
    have some_ : 0 < (credits 0).toNat := UInt64.lt_iff_toNat_lt.1 pos
    have turn : InTurn credits 0 0 := ⟨Nat.le_refl _, by rw [qosBefore_zero]; omega⟩
    have empty : RoundFilled credits 0 { s with consumed := fun _ => 0 } :=
      ⟨filled.1, fun i => by rw [Nat.zero_sub, Nat.zero_min]; rfl⟩
    have rounds : 1 ≤ qosRound credits := by
      unfold qosRound
      omega
    rw [Nat.mod_self] at mod
    exact ⟨⟨1, empty.consume turn.1 turn.2, rounds, Nat.ModEq.add_right 1 ((Nat.zero_mod _).trans mod)⟩, turn⟩

/-- The invariant after any number of calls. -/
theorem qosAfter_inv (pos : 0 < credits 0) (k : Nat) : QosInv credits k (qosAfter ⟨credits, fun _ => 0⟩ k) := by
  induction k with
  | zero => exact ⟨0, ⟨rfl, fun i => by rw [Nat.zero_sub, Nat.zero_min]; rfl⟩, Nat.zero_le _, rfl⟩
  | succ k ih => exact (ih.next pos).1

/-- Every call selects the queue whose turn it is. -/
theorem qosPick_inTurn (pos : 0 < credits 0) (k : Nat) :
    InTurn credits (k % qosRound credits) (qosPick ⟨credits, fun _ => 0⟩ k) :=
  ((qosAfter_inv pos k).next pos).2

/-- **Every queue gets its credits.** Of any calls in a row, as many as there are credits, each queue is selected as
often as it has credits. -/
theorem ssdcQos_shares (credits : Fin ssdcQosNum → UInt64) (pos : 0 < credits 0) (start : Nat) (i : Fin ssdcQosNum) :
    ((Finset.Ico start (start + qosRound credits)).filter fun k => qosPick ⟨credits, fun _ => 0⟩ k = i).card =
      (credits i).toNat := by
  have turn_iff (k : Nat) : qosPick ⟨credits, fun _ => 0⟩ k = i ↔ InTurn credits (k % qosRound credits) i :=
    ⟨fun eq => eq ▸ qosPick_inTurn pos k, fun turn => (qosPick_inTurn pos k).unique turn⟩
  have periodic : Function.Periodic (fun k => qosPick ⟨credits, fun _ => 0⟩ k = i) (qosRound credits) := fun k =>
    propext (by
      dsimp only
      rw [turn_iff, turn_iff, Nat.add_mod_right])
  have inside : qosBefore credits i + (credits i).toNat ≤ qosRound credits := by
    unfold qosRound
    rcases queue_cases i with rfl | rfl | rfl <;> simp only [qosBefore_zero, qosBefore_one, qosBefore_two] <;> omega
  rw [Nat.filter_Ico_card_eq_of_periodic _ _ _ periodic, Nat.count_eq_card_filter_range]
  have turns : (Finset.range (qosRound credits)).filter (fun k => qosPick ⟨credits, fun _ => 0⟩ k = i) =
      Finset.Ico (qosBefore credits i) (qosBefore credits i + (credits i).toNat) := by
    ext k
    rw [Finset.mem_filter, Finset.mem_range, turn_iff, Finset.mem_Ico]
    constructor
    · rintro ⟨lt, turn⟩
      rw [Nat.mod_eq_of_lt lt] at turn
      exact turn
    · intro turn
      have lt := turn.2.trans_le inside
      refine ⟨lt, ?_⟩
      rw [Nat.mod_eq_of_lt lt]
      exact turn
  rw [turns, Nat.card_Ico, Nat.add_sub_cancel_left]

/-- With the credits of `ssdc_qos_init`, 10 of 160 calls go to the queue of low priority. -/
theorem ssdcQos_shares_init : ((Finset.Ico 40 200).filter fun k => qosPick ssdcQosInit k = 2).card = 10 :=
  ssdcQos_shares qosCredits (by decide) 40 2

end Qos

end MiniHardware.Storage
