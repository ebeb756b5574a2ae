import MiniHardware.Accel.Tpu
import MiniHardware.Lib.Issue

/-!
# The core's instruction pipeline (`mini-ai-accelerator/src/tpu_isa.c`)

`tpuPipelineStep` advances the slots from the last to the first. Its calls of
`tpuExecute` are recorded. The slots' `stall_cycles` and the pipeline's
`has_structural_hazard`, which no function reads or writes, are left out.
-/

namespace MiniHardware.Accel
open Lib

/-! ## The pipeline -/

section Slots

inductive PipelineStage where
  | pipeIf
  | pipeId
  | pipeEx
  | pipeWb
  | bubble
deriving DecidableEq

structure PipelineSlot where
  instruction : TPUInstruction
  stage : PipelineStage
deriving DecidableEq

structure TPUPipeline where
  slotIf : PipelineSlot
  slotId : PipelineSlot
  slotEx : PipelineSlot
  slotWb : PipelineSlot
  cycle : Int
  hasDataHazard : Bool

/-- Memory that `memset` has cleared holds a MATMUL of no elements. -/
def clearedInstruction : TPUInstruction := ⟨.matmul, .relu, 0, 0, 0, 0, 0, 0⟩

def tpuPipelineInit : TPUPipeline where
  slotIf := ⟨clearedInstruction, .pipeIf⟩
  slotId := ⟨clearedInstruction, .pipeIf⟩
  slotEx := ⟨clearedInstruction, .pipeIf⟩
  slotWb := ⟨clearedInstruction, .pipeIf⟩
  cycle := 0
  hasDataHazard := false

def checkDataHazard (prev : Option TPUInstruction) (curr : TPUInstruction) : Bool :=
  match prev with
  | none => false
  | some prev =>
    if (prev.opcode = .matmul ∨ prev.opcode = .vectorAdd ∨ prev.opcode = .vectorMul ∨ prev.opcode = .activation) ∧
        (curr.opcode = .store ∨ curr.opcode = .activation ∨ curr.opcode = .vectorAdd ∨ curr.opcode = .vectorMul) then true
    else if prev.opcode = .loadWeight ∧ curr.opcode = .matmul ∧ prev.dstAddr = curr.dstAddr then true
    else false

/-- A pipeline and its core, with the instructions `tpuExecute` was called for. The
core is lost when a call accesses memory outside it. -/
structure PipelinedCore where
  pipe : TPUPipeline
  tpu : Option TPUCore
  calls : List TPUInstruction

def execute (s : PipelinedCore) (inst : TPUInstruction) : PipelinedCore :=
  { s with
    tpu := do some (← tpuExecute (← s.tpu) inst).2
    calls := s.calls ++ [inst] }

/-- The instruction of a slot that is valid for `stage`. -/
def PipelineSlot.valid (slot : PipelineSlot) (stage : PipelineStage) : Option TPUInstruction :=
  if slot.stage = stage then some slot.instruction else none

def writeBackStage (s : PipelinedCore) : PipelinedCore :=
  if s.pipe.slotEx.stage = .pipeEx then
    { s with pipe.slotWb := { s.pipe.slotEx with stage := .pipeWb } }
  else s

def executeStage (s : PipelinedCore) : PipelinedCore :=
  if s.pipe.slotId.stage = .pipeId then
    if checkDataHazard (s.pipe.slotEx.valid .pipeEx) s.pipe.slotId.instruction then
      { s with pipe.hasDataHazard := true }
    else
      execute { s with pipe.slotEx := { s.pipe.slotId with stage := .pipeEx } } s.pipe.slotId.instruction
  else s

def decodeStage (s : PipelinedCore) : PipelinedCore :=
  if s.pipe.slotIf.stage = .pipeIf then
    { s with pipe.slotId := { s.pipe.slotIf with stage := .pipeId } }
  else s

def fetchStage (s : PipelinedCore) (fetchInst : Option TPUInstruction) : PipelinedCore :=
  match fetchInst with
  | some inst => { s with pipe.slotIf := ⟨inst, .pipeIf⟩ }
  | none => { s with pipe.slotIf.stage := .bubble }

def tpuPipelineStep (s : PipelinedCore) (fetchInst : Option TPUInstruction) : PipelinedCore :=
  let s := fetchStage (decodeStage (executeStage (writeBackStage s))) fetchInst
  { s with pipe.cycle := s.pipe.cycle + 1 }

end Slots

/-! ## What the unit sees of the slots -/

section Simulation
variable (s : PipelinedCore)

def stages : Stages TPUInstruction where
  last := s.pipe.slotEx.valid .pipeEx
  held := s.pipe.slotId.valid .pipeId
  incoming := s.pipe.slotIf.valid .pipeIf
  issued := s.calls

theorem stages_writeBackStage : stages (writeBackStage s) = stages s := by
  unfold writeBackStage
  split <;> rfl

theorem stages_executeStage :
    stages (executeStage s) =
      let taken := (stages s).held.filter fun inst => !checkDataHazard (stages s).last inst
      { stages s with last := taken.or (stages s).last, issued := (stages s).issued ++ taken.toList } := by
  unfold executeStage
  split
  case isTrue valid =>
    have held : (stages s).held = some s.pipe.slotId.instruction := if_pos valid
    have last : (stages s).last = s.pipe.slotEx.valid .pipeEx := rfl
    split
    case isTrue hazard =>
      simp only [held, last, Option.filter_some, hazard, Bool.not_true, Bool.false_eq_true, if_false, Option.none_or,
        Option.toList_none, List.append_nil]
      rw [← held]
      rfl
    case isFalse free =>
      simp only [held, last, Option.filter_some, free, Bool.not_false, if_true, Option.some_or, Option.toList_some]
      let inst := s.pipe.slotId.instruction
      exact congrArg (fun held => Stages.mk (some inst) held (stages s).incoming (s.calls ++ [inst])) held
  case isFalse invalid =>
    have held : (stages s).held = none := if_neg invalid
    simp only [held, Option.filter_none, Option.none_or, Option.toList_none, List.append_nil]
    rw [← held]

theorem stages_decodeStage :
    stages (decodeStage s) = { stages s with held := (stages s).incoming.or (stages s).held } := by
  unfold decodeStage
  split
  case isTrue valid =>
    have incoming : (stages s).incoming = some s.pipe.slotIf.instruction := if_pos valid
    rw [incoming]
    simp [stages, PipelineSlot.valid]
  case isFalse invalid =>
    have incoming : (stages s).incoming = none := if_neg invalid
    rw [incoming]
    rfl

theorem stages_fetchStage (fetchInst : Option TPUInstruction) :
    stages (fetchStage s fetchInst) = { stages s with incoming := fetchInst } := by
  cases fetchInst <;> rfl

theorem stages_tpuPipelineStep (fetchInst : Option TPUInstruction) :
    stages (tpuPipelineStep s fetchInst) = (stages s).step checkDataHazard fetchInst := by
  have cycle : stages (tpuPipelineStep s fetchInst) =
      stages (fetchStage (decodeStage (executeStage (writeBackStage s))) fetchInst) := rfl
  rw [cycle, stages_fetchStage, stages_decodeStage, stages_executeStage, stages_writeBackStage]
  rfl

end Simulation

/-! ## Whole runs -/

section Runs
variable {tpu : TPUCore} {fed : List TPUInstruction}

def executeAll (tpu : TPUCore) (insts : List TPUInstruction) : Option TPUCore :=
  insts.foldlM (fun tpu inst => do some (← tpuExecute tpu inst).2) tpu

/-- A fresh pipeline in front of `tpu` after a step for each of `fetches`. -/
def pipelined (tpu : TPUCore) (fetches : List (Option TPUInstruction)) : PipelinedCore :=
  run tpuPipelineStep ⟨tpuPipelineInit, some tpu, []⟩ fetches

/-- The instructions `fed`, one in each step, and then bubbles. -/
def feed (fed : List TPUInstruction) (bubbles : Nat) : List (Option TPUInstruction) :=
  fed.map some ++ List.replicate bubbles none

theorem tpuExecute_clearedInstruction (tpu : TPUCore) : tpuExecute tpu clearedInstruction = some (0, tpu) := rfl

theorem executeAll_cleared {insts : List TPUInstruction} (cleared : ∀ inst ∈ insts, inst = clearedInstruction)
    (tpu : TPUCore) : executeAll tpu insts = some tpu := by
  induction insts with
  | nil => rfl
  | cons inst insts ih =>
    obtain rfl := cleared inst List.mem_cons_self
    rw [executeAll, List.foldlM_cons, tpuExecute_clearedInstruction]
    exact ih fun inst mem => cleared inst (List.mem_cons_of_mem _ mem)

theorem tpu_execute {s : PipelinedCore} (same : s.tpu = executeAll tpu s.calls) (inst : TPUInstruction) :
    (execute s inst).tpu = executeAll tpu (execute s inst).calls := by
  have calls : (execute s inst).calls = s.calls ++ [inst] := rfl
  rw [calls, executeAll, foldlM_snoc, ← executeAll, ← same]
  rfl

theorem tpu_executeStage {s : PipelinedCore} (same : s.tpu = executeAll tpu s.calls) :
    (executeStage s).tpu = executeAll tpu (executeStage s).calls := by
  unfold executeStage
  split
  case isTrue =>
    split
    case isTrue => exact same
    case isFalse => exact tpu_execute same _
  case isFalse => exact same

theorem tpu_fetchStage (s : PipelinedCore) (fetchInst : Option TPUInstruction) :
    (fetchStage s fetchInst).tpu = s.tpu ∧ (fetchStage s fetchInst).calls = s.calls := by
  cases fetchInst <;> exact ⟨rfl, rfl⟩

/-- The core is the one to which the calls lead. -/
theorem tpu_pipelined (tpu : TPUCore) (fetches : List (Option TPUInstruction)) :
    (pipelined tpu fetches).tpu = executeAll tpu (pipelined tpu fetches).calls := by
  refine run_invariant (motive := fun s : PipelinedCore => s.tpu = executeAll tpu s.calls) ?_ rfl fetches
  intro s fetchInst same
  have written : (writeBackStage s).tpu = executeAll tpu (writeBackStage s).calls := by
    unfold writeBackStage
    split <;> exact same
  have executed := tpu_executeStage written
  have decoded : (decodeStage (executeStage (writeBackStage s))).tpu =
      executeAll tpu (decodeStage (executeStage (writeBackStage s))).calls := by
    unfold decodeStage
    split <;> exact executed
  obtain ⟨core, calls⟩ := tpu_fetchStage (decodeStage (executeStage (writeBackStage s))) fetchInst
  rw [← core, ← calls] at decoded
  exact decoded

/-- The instruction in ID is tried again with each bubble behind the second one. -/
theorem calls_pipelined (tpu : TPUCore) (fed : List TPUInstruction) (extra : Nat) :
    (pipelined tpu (feed fed (extra + 2))).calls =
      issue checkDataHazard none (clearedInstruction :: fed ++
        List.replicate extra ((clearedInstruction :: fed).getLast (List.cons_ne_nil _ _))) := by
  have hom (fetches) : stages (pipelined tpu fetches) =
      run (Stages.step checkDataHazard) ⟨none, none, some clearedInstruction, []⟩ fetches :=
    (List.foldl_hom stages fun s fetchInst => (stages_tpuPipelineStep s fetchInst).symm).symm
  have two : feed fed (extra + 2) = feed fed extra ++ [none, none] := by
    rw [feed, feed, List.append_assoc, List.replicate_add]
    rfl
  have issued := congrArg Stages.issued (hom (feed fed extra ++ [none, none]))
  rw [Stages.issued_run, List.nil_append, latched, Option.or_none, Option.toList_none, List.nil_append, feed,
    latched_some] at issued
  rw [two]
  exact issued

/-- Two bubbles drain the pipeline. The calls of `tpuExecute` are those for the
instructions fed, behind one for the cleared slot, if and only if no instruction
conflicts with the one before it and the last one does not come again. -/
theorem tpu_pipeline_sequential_iff (tpu : TPUCore) (fed : List TPUInstruction) (extra : Nat) :
    let s := pipelined tpu (feed fed (extra + 2))
    s.calls ≠ fed ∧
      (((fed ≠ [] → s.calls = clearedInstruction :: fed) ∧ s.tpu = executeAll tpu fed) ↔
        (clearedInstruction :: fed).IsChain (fun prev curr => checkDataHazard (some prev) curr = false) ∧
          (extra = 0 ∨ ∀ last ∈ fed.getLast?, checkDataHazard (some last) last = true)) := by
  intro s
  have calls : s.calls = _ := calls_pipelined tpu fed extra
  have free : checkDataHazard none clearedInstruction = false := rfl
  have core : s.tpu = executeAll tpu s.calls := tpu_pipelined tpu _
  constructor
  · rw [calls, List.cons_append, issue_take free]
    exact issue_cons_ne (by decide) fed _
  · rcases eq_or_ne fed [] with rfl | some_fed
    · have unchanged : s.tpu = executeAll tpu [] := by
        rw [core]
        refine executeAll_cleared (fun inst mem => ?_) tpu
        rw [calls] at mem
        have fed := mem_of_mem_issue mem
        rw [List.cons_append, List.nil_append, List.mem_cons, List.mem_replicate] at fed
        exact fed.elim id And.right
      simp [unchanged]
    · have last : (clearedInstruction :: fed).getLast (List.cons_ne_nil _ _) = fed.getLast some_fed :=
        List.getLast_cons some_fed
      have again := issue_repeat_iff (l := fed) free extra
      rw [← calls, last] at again
      rw [List.getLast?_eq_some_getLast some_fed]
      constructor
      · rintro ⟨all, -⟩
        obtain ⟨chain, repeats⟩ := again.1 (all some_fed)
        exact ⟨chain, repeats.imp_right fun hazard last mem => Option.mem_some.1 mem ▸ hazard⟩
      · rintro ⟨chain, repeats⟩
        have all := again.2 ⟨chain, repeats.imp_right fun hazard => hazard _ rfl⟩
        refine ⟨fun _ => all, ?_⟩
        rw [core, all, executeAll, List.foldlM_cons, tpuExecute_clearedInstruction]
        rfl

def storeFour : TPUInstruction := ⟨.store, .relu, 0, 0, 16, 0, 0, 0⟩

/-- A store that comes first conflicts with the cleared slot's MATMUL and is lost. -/
theorem tpu_pipeline_drops :
    ¬ ∀ (tpu : TPUCore) (fed : List TPUInstruction), ∃ enough, ∀ bubbles, enough ≤ bubbles →
      (pipelined tpu (feed fed bubbles)).calls.filter (· ∈ fed) = fed ∧
        (pipelined tpu (feed fed bubbles)).tpu = executeAll tpu fed := by
  intro sequential
  obtain ⟨enough, drained⟩ := sequential (tpuInit 1) [storeFour]
  have once := (drained (enough + 2) (Nat.le_add_right _ _)).1
  have free : checkDataHazard none clearedInstruction = false := rfl
  have skipped : issue checkDataHazard (some clearedInstruction) (List.replicate (enough + 1) storeFour) = [] :=
    issue_replicate_eq_nil.2 (.inr (by decide))
  have calls : (pipelined (tpuInit 1) (feed [storeFour] (enough + 2))).calls = [clearedInstruction] := by
    rw [calls_pipelined, List.cons_append, issue_take free]
    exact congrArg (List.cons clearedInstruction) skipped
  rw [calls] at once
  exact absurd once (by decide)

end Runs

end MiniHardware.Accel
