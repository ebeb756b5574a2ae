import Mathlib.Algebra.BigOperators.Fin
import Mathlib.Data.Fintype.BigOperators
import MiniHardware.Lib.Index
import MiniHardware.Lib.ListScheduling
import MiniHardware.Lib.Trace

/-!
# The GigaThread engine (`mini-gpu-arch/src/thread_sched.c`)

Grids are submitted at any time, and `gte_schedule_blocks` assigns their blocks
to SMs by one of four policies. A run keeps a log of the assignments beside the
engine. A target of -1 is `none`; the threads of a block and the warp policy,
which this part does not read, are left out. The load of an SM is a sum that does
not overflow an `int`.
-/

namespace MiniHardware.Gpu
open Lib

structure ThreadBlock where
  blockId : Int
  numWarps : Int
  scheduled : Bool
  smAssigned : Int
deriving DecidableEq

/-- At most `MAX_BLOCKS` blocks are in use. -/
structure KernelGrid where
  totalBlocks : Nat
  blocks : Vector ThreadBlock 16
  blocksLaunched : Nat
  blocksCompleted : Int
  total_le : totalBlocks ≤ 16

def gridIsComplete (g : KernelGrid) : Bool := g.blocksCompleted ≥ g.totalBlocks

inductive BlockSchedPolicy where
  | roundRobin | fillFirst | minQueue | locality
deriving DecidableEq

/-- The arrays have the part that belongs to the SMs there are. -/
structure GigaThreadEngine where
  numSms : Nat
  grids : List KernelGrid
  blockPolicy : BlockSchedPolicy
  blocksPerSm : Vector Nat numSms
  smLoad : Vector Int numSms
  totalBlocksScheduled : Nat
  schedulingCycles : Nat
  pos : 0 < numSms
  le : numSms ≤ 128

def gteCreate (numSms : Int) : Option GigaThreadEngine :=
  if h : numSms ≤ 0 ∨ numSms > 128 then none
  else some
    { numSms := numSms.toNat
      grids := []
      blockPolicy := .roundRobin
      blocksPerSm := Vector.replicate numSms.toNat 0
      smLoad := Vector.replicate numSms.toNat 0
      totalBlocksScheduled := 0
      schedulingCycles := 0
      pos := by omega
      le := by omega }

/-- `MAX_GRIDS`. -/
def maxGrids : Nat := 4

/-- `gte_submit_grid`; the engine keeps a copy. -/
def gteSubmitGrid (gte : GigaThreadEngine) (g : KernelGrid) : GigaThreadEngine :=
  if gte.grids.length ≥ maxGrids then gte else { gte with grids := gte.grids ++ [g] }

def gteSetBlockPolicy (gte : GigaThreadEngine) (p : BlockSchedPolicy) : GigaThreadEngine :=
  { gte with blockPolicy := p }

/-! ## Scheduling -/

/-- The search of `BLOCK_SCHED_MIN_QUEUE`, from `INT_MAX` on. -/
def minQueue {n : Nat} (blocksPerSm : Vector Nat n) : Nat × Option (Fin n) :=
  (List.finRange n).foldl
    (fun best s => if blocksPerSm.get s < best.1 then (blocksPerSm.get s, some s) else best) (2147483647, none)

/-- `target_sm`. -/
def targetSm (gte : GigaThreadEngine) (totalScheduled : Nat) (block : ThreadBlock) : Option (Fin gte.numSms) :=
  match gte.blockPolicy with
  | .roundRobin => some ⟨totalScheduled % gte.numSms, Nat.mod_lt _ gte.pos⟩
  | .fillFirst => (List.finRange gte.numSms).find? fun s => gte.blocksPerSm.get s < 32
  | .minQueue => (minQueue gte.blocksPerSm).2
  | .locality =>
    -- the remainder of a negative number is negative in C
    if h : 0 ≤ block.blockId.tmod gte.numSms then
      some ⟨(block.blockId.tmod gte.numSms).toNat, by
        have := Int.tmod_lt_of_pos block.blockId (Int.natCast_pos.2 gte.pos)
        omega⟩
    else none

/-- One assignment: which block of which grid went to which SM. -/
structure Assignment where
  grid : Nat
  block : Nat
  sm : Nat
  warps : Int

/-- The engine, `total_scheduled`, and the log. -/
structure Scheduling where
  gte : GigaThreadEngine
  total : Nat
  log : List Assignment

/-- What is done when there is a target. -/
def assignBlock (s : Scheduling) (g b : Nat) (grid : KernelGrid) (block : ThreadBlock)
    (target : Fin s.gte.numSms) : Scheduling :=
  { gte :=
      { s.gte with
        grids := s.gte.grids.set g
          { grid with
            blocks := grid.blocks.setIfInBounds b { block with scheduled := true, smAssigned := target.val }
            blocksLaunched := grid.blocksLaunched + 1 }
        blocksPerSm := s.gte.blocksPerSm.set target (s.gte.blocksPerSm.get target + 1)
        smLoad := s.gte.smLoad.set target (s.gte.smLoad.get target + block.numWarps) }
    total := s.total + 1
    log := s.log ++ [⟨g, b, target.val, block.numWarps⟩] }

/-- The body of the loop over `b`. -/
def scheduleBlock (g : Nat) (s : Scheduling) (b : Nat) : Scheduling :=
  match s.gte.grids[g]? with
  | none => s
  | some grid =>
    match grid.blocks[b]? with
    | none => s
    | some block =>
      if block.scheduled then s
      else
        match targetSm s.gte s.total block with
        | none => s
        | some target => assignBlock s g b grid block target

/-- The body of the loop over `g`. -/
def scheduleGrid (s : Scheduling) (g : Nat) : Scheduling :=
  match s.gte.grids[g]? with
  | none => s
  | some grid =>
    if gridIsComplete grid then s else (List.range grid.totalBlocks).foldl (scheduleBlock g) s

/-- `gte_schedule_blocks`, which returns the `total` of the result. -/
def gteScheduleBlocks (gte : GigaThreadEngine) (log : List Assignment) : Scheduling :=
  let s := (List.range gte.grids.length).foldl scheduleGrid ⟨gte, 0, log⟩
  { s with
    gte :=
      { s.gte with
        totalBlocksScheduled := s.gte.totalBlocksScheduled + s.total
        schedulingCycles := s.gte.schedulingCycles + 1 } }

/-! ## Runs -/

inductive GteOp where
  | submit (g : KernelGrid)
  | setPolicy (p : BlockSchedPolicy)
  | schedule

def gteStep (s : GigaThreadEngine × List Assignment) : GteOp → GigaThreadEngine × List Assignment
  | .submit g => (gteSubmitGrid s.1 g, s.2)
  | .setPolicy p => (gteSetBlockPolicy s.1 p, s.2)
  | .schedule => ((gteScheduleBlocks s.1 s.2).gte, (gteScheduleBlocks s.1 s.2).log)

/-- The assignments to an SM. -/
def onSm (log : List Assignment) (s : Nat) : List Assignment := log.filter (·.sm = s)

/-- The log and the arrays say the same, up to the blocks `total` that are not yet in the total. -/
structure Accounted (gte : GigaThreadEngine) (log : List Assignment) (total : Nat) : Prop where
  once : (log.map fun a => (a.grid, a.block)).Nodup
  recorded : ∀ a ∈ log, ∃ grid block, gte.grids[a.grid]? = some grid ∧ grid.blocks[a.block]? = some block ∧
    block.scheduled = true ∧ block.smAssigned = a.sm ∧ block.numWarps = a.warps
  valid : ∀ a ∈ log, a.sm < gte.numSms
  blocks : ∀ s : Fin gte.numSms, gte.blocksPerSm.get s = (onSm log s.val).length
  load : ∀ s : Fin gte.numSms, gte.smLoad.get s = ((onSm log s.val).map Assignment.warps).sum
  total : gte.totalBlocksScheduled + total = ∑ s : Fin gte.numSms, gte.blocksPerSm.get s

/-! ## One assignment -/

/-- All that the body of the loop can do: nothing, or assign a block that was not scheduled to a target of
the policy. -/
theorem scheduleBlock_cases (g : Nat) (s : Scheduling) (b : Nat) :
    scheduleBlock g s b = s ∨ ∃ grid block target, s.gte.grids[g]? = some grid ∧
      grid.blocks[b]? = some block ∧ block.scheduled = false ∧ targetSm s.gte s.total block = some target ∧
        scheduleBlock g s b = assignBlock s g b grid block target := by
  unfold scheduleBlock
  split
  case h_1 => exact Or.inl rfl
  case h_2 grid atGrid =>
    split
    case h_1 => exact Or.inl rfl
    case h_2 block atBlock =>
      split
      case isTrue => exact Or.inl rfl
      case isFalse fresh =>
        split
        case h_1 => exact Or.inl rfl
        case h_2 target found =>
          exact Or.inr ⟨grid, block, target, atGrid, atBlock, Bool.eq_false_iff.2 fresh, found, rfl⟩

/-- One more assignment goes to the list of its SM. -/
theorem onSm_snoc (log : List Assignment) (a : Assignment) (s : Nat) :
    onSm (log ++ [a]) s = if a.sm = s then onSm log s ++ [a] else onSm log s := by
  rw [onSm, List.filter_append]
  split
  · rename_i here
    rw [List.filter_cons_of_pos (by simpa using here)]
    rfl
  · rename_i elsewhere
    rw [List.filter_cons_of_neg (by simpa using elsewhere), List.filter_nil, List.append_nil]
    rfl

/-- Counting one more at an SM is one more in total. -/
theorem sum_set {n : Nat} (v : Vector Nat n) (i : Fin n) :
    ∑ s : Fin n, (v.set i.val (v.get i + 1) i.isLt).get s = ∑ s : Fin n, v.get s + 1 := by
  have entry : ∀ s : Fin n, (v.set i.val (v.get i + 1) i.isLt).get s = v.get s + if s = i then 1 else 0 := by
    intro s
    rw [get_set]
    split
    · rename_i here
      rw [here]
    · rfl
  simp only [entry, Finset.sum_add_distrib, Finset.sum_ite_eq', Finset.mem_univ, if_true]

section Assign
variable {s : Scheduling} {g b : Nat} {grid : KernelGrid} {block : ThreadBlock} (target : Fin s.gte.numSms)
  (atGrid : s.gte.grids[g]? = some grid) (atBlock : grid.blocks[b]? = some block)

include atGrid in
/-- The other blocks stay as they are. -/
theorem assignBlock_other {g' b' : Nat} {grid' : KernelGrid} {block' : ThreadBlock} (other : (g', b') ≠ (g, b))
    (atGrid' : s.gte.grids[g']? = some grid') (atBlock' : grid'.blocks[b']? = some block') :
    ∃ grid'', (assignBlock s g b grid block target).gte.grids[g']? = some grid'' ∧
      grid''.blocks[b']? = some block' := by
  by_cases same : g = g'
  · subst same
    have eq : grid' = grid := Option.some.inj (atGrid'.symm.trans atGrid)
    have ne : b ≠ b' := fun eq => other (by rw [eq])
    subst eq
    refine ⟨_, List.getElem?_set_self (List.getElem?_eq_some_iff.1 atGrid).1, ?_⟩
    rw [← atBlock']
    exact Vector.getElem?_setIfInBounds_ne ne
  · exact ⟨grid', (List.getElem?_set_ne same).trans atGrid', atBlock'⟩

include atGrid atBlock in
/-- The assigned block is marked with its SM. -/
theorem assignBlock_self :
    ∃ grid', (assignBlock s g b grid block target).gte.grids[g]? = some grid' ∧
      grid'.blocks[b]? = some { block with scheduled := true, smAssigned := target.val } := by
  refine ⟨_, List.getElem?_set_self (List.getElem?_eq_some_iff.1 atGrid).1, ?_⟩
  exact Vector.getElem?_setIfInBounds_self_of_lt (Vector.getElem?_eq_some_iff.1 atBlock).1

include atGrid atBlock in
/-- An assignment of a block that was not scheduled keeps the account. -/
theorem Accounted.assignBlock (h : Accounted s.gte s.log s.total) (fresh : block.scheduled = false) :
    Accounted (assignBlock s g b grid block target).gte (assignBlock s g b grid block target).log
      (assignBlock s g b grid block target).total := by
  have absent : ∀ a ∈ s.log, (a.grid, a.block) ≠ (g, b) := by
    intro a mem same
    obtain ⟨grid', block', atGrid', atBlock', scheduled, -⟩ := h.recorded a mem
    obtain ⟨rfl, rfl⟩ := Prod.mk.inj same
    rw [atGrid] at atGrid'
    obtain rfl := Option.some.inj atGrid'
    rw [atBlock] at atBlock'
    obtain rfl := Option.some.inj atBlock'
    rw [fresh] at scheduled
    contradiction
  constructor
  case once =>
    show ((s.log ++ [_]).map _).Nodup
    rw [List.map_append, List.nodup_append]
    refine ⟨h.once, List.nodup_singleton _, ?_⟩
    intro x old y new
    obtain ⟨a, mem, rfl⟩ := List.mem_map.1 old
    obtain rfl := List.mem_singleton.1 new
    exact absent a mem
  case recorded =>
    intro a mem
    rcases List.mem_append.1 mem with old | new
    · obtain ⟨grid', block', atGrid', atBlock', rest⟩ := h.recorded a old
      obtain ⟨grid'', found, entry⟩ := assignBlock_other target atGrid (absent a old) atGrid' atBlock'
      exact ⟨grid'', block', found, entry, rest⟩
    · obtain rfl := List.mem_singleton.1 new
      obtain ⟨grid', found, entry⟩ := assignBlock_self target atGrid atBlock
      exact ⟨grid', _, found, entry, rfl, rfl, rfl⟩
  case valid =>
    intro a mem
    rcases List.mem_append.1 mem with old | new
    · exact h.valid a old
    · obtain rfl := List.mem_singleton.1 new
      exact target.isLt
  case blocks =>
    have entry : ∀ t : Fin s.gte.numSms, (s.gte.blocksPerSm.set target (s.gte.blocksPerSm.get target + 1)).get t =
        (onSm (s.log ++ [⟨g, b, target.val, block.numWarps⟩]) t.val).length := by
      intro t
      rw [get_set, onSm_snoc]
      by_cases here : t = target
      · rw [if_pos here, if_pos (congrArg Fin.val here.symm), List.length_append, ← h.blocks t, here]
        rfl
      · rw [if_neg here, if_neg fun same => here (Fin.ext same.symm)]
        exact h.blocks t
    exact entry
  case load =>
    have entry : ∀ t : Fin s.gte.numSms, (s.gte.smLoad.set target (s.gte.smLoad.get target + block.numWarps)).get t =
        ((onSm (s.log ++ [⟨g, b, target.val, block.numWarps⟩]) t.val).map Assignment.warps).sum := by
      intro t
      rw [get_set, onSm_snoc]
      by_cases here : t = target
      · rw [if_pos here, if_pos (congrArg Fin.val here.symm), List.map_append, List.sum_append, ← h.load t, here]
        simp
      · rw [if_neg here, if_neg fun same => here (Fin.ext same.symm)]
        exact h.load t
    exact entry
  case total =>
    have sum : s.gte.totalBlocksScheduled + (s.total + 1) =
        ∑ t : Fin s.gte.numSms, (s.gte.blocksPerSm.set target (s.gte.blocksPerSm.get target + 1)).get t := by
      rw [sum_set, ← h.total, Nat.add_assoc]
    exact sum

end Assign

/-! ## The shortest queue -/

/-- The search finds an SM with the fewest blocks. -/
theorem minQueue_spec {n : Nat} {v : Vector Nat n} {target : Fin n} (found : (minQueue v).2 = some target)
    (s : Fin n) : v.get target ≤ v.get s := by
  have least : (∀ s : Fin n, s.val < n → (minQueue v).1 ≤ v.get s) ∧
      ∀ t, (minQueue v).2 = some t → v.get t = (minQueue v).1 := by
    refine finRange_foldl_invariant
      (motive := fun i (best : Nat × Option (Fin n)) =>
        (∀ s : Fin n, s.val < i → best.1 ≤ v.get s) ∧ ∀ t, best.2 = some t → v.get t = best.1)
      ⟨fun _ lt => absurd lt (Nat.not_lt_zero _), fun _ eq => nomatch eq⟩ ?_
    rintro i best ⟨below, same⟩
    split
    · rename_i less
      refine ⟨fun s lt => ?_, fun t eq => by rw [Option.some.inj eq]⟩
      rcases Nat.lt_succ_iff_lt_or_eq.1 lt with before | here
      · exact Nat.le_trans (Nat.le_of_lt less) (below s before)
      · rw [Fin.ext here]
    · rename_i notLess
      refine ⟨fun s lt => ?_, same⟩
      rcases Nat.lt_succ_iff_lt_or_eq.1 lt with before | here
      · exact below s before
      · rw [Fin.ext here]
        exact Nat.not_lt.1 notLess
  rw [least.2 target found]
  exact least.1 s s.isLt

/-- No SM has two blocks more than another. -/
def LevelQueues {n : Nat} (v : Vector Nat n) : Prop := ∀ s t, v.get s ≤ v.get t + 1

/-- One more block at an SM with the fewest keeps the queues level. -/
theorem LevelQueues.set {n : Nat} {v : Vector Nat n} (h : LevelQueues v) {i : Fin n} (least : ∀ s, v.get i ≤ v.get s) :
    LevelQueues (v.set i.val (v.get i + 1) i.isLt) := by
  intro s t
  have up := h s i
  have hs := h s t
  have ht := least t
  rw [get_set, get_set]
  split <;> split <;> omega

/-! ## Whole calls -/

/-- What every assignment keeps, the loops keep. -/
theorem schedule_invariant {motive : Scheduling → Prop} (keep : ∀ g s b, motive s → motive (scheduleBlock g s b))
    {s : Scheduling} (init : motive s) (n : Nat) : motive ((List.range n).foldl scheduleGrid s) := by
  show motive (run scheduleGrid s (List.range n))
  apply run_invariant _ init
  intro s g h
  unfold scheduleGrid
  split
  · exact h
  · split
    · exact h
    · exact run_invariant (keep g) h _

/-- The body of the loop keeps the account. -/
theorem scheduleBlock_accounted (g : Nat) (s : Scheduling) (b : Nat) (h : Accounted s.gte s.log s.total) :
    Accounted (scheduleBlock g s b).gte (scheduleBlock g s b).log (scheduleBlock g s b).total := by
  rcases scheduleBlock_cases g s b with same | ⟨grid, block, target, atGrid, atBlock, fresh, -, eq⟩
  · rw [same]
    exact h
  · rw [eq]
    exact h.assignBlock target atGrid atBlock fresh

/-- A call of the scheduler keeps the account. -/
theorem Accounted.schedule {gte : GigaThreadEngine} {log : List Assignment} (h : Accounted gte log 0) :
    Accounted (gteScheduleBlocks gte log).gte (gteScheduleBlocks gte log).log 0 := by
  have loops := schedule_invariant (motive := fun s : Scheduling => Accounted s.gte s.log s.total) scheduleBlock_accounted
    (s := ⟨gte, 0, log⟩) h gte.grids.length
  exact ⟨loops.once, loops.recorded, loops.valid, loops.blocks, loops.load, loops.total⟩

/-- A grid is appended, or the engine is full. -/
theorem gteSubmitGrid_cases (gte : GigaThreadEngine) (g : KernelGrid) :
    gteSubmitGrid gte g = gte ∨ gteSubmitGrid gte g = { gte with grids := gte.grids ++ [g] } := by
  unfold gteSubmitGrid
  split
  · exact Or.inl rfl
  · exact Or.inr rfl

/-- Submitting a grid keeps the account. -/
theorem Accounted.submit {gte : GigaThreadEngine} {log : List Assignment} (h : Accounted gte log 0)
    (g : KernelGrid) : Accounted (gteSubmitGrid gte g) log 0 := by
  rcases gteSubmitGrid_cases gte g with same | added
  · rw [same]
    exact h
  · rw [added]
    refine ⟨h.once, fun a mem => ?_, h.valid, h.blocks, h.load, h.total⟩
    obtain ⟨grid, block, atGrid, rest⟩ := h.recorded a mem
    exact ⟨grid, block, (List.getElem?_append_left (List.getElem?_eq_some_iff.1 atGrid).1).trans atGrid, rest⟩

/-- The body of the loop keeps the queues level under the policy of the least queue. -/
theorem scheduleBlock_level (g : Nat) (s : Scheduling) (b : Nat)
    (h : s.gte.blockPolicy = .minQueue ∧ LevelQueues s.gte.blocksPerSm) :
    (scheduleBlock g s b).gte.blockPolicy = .minQueue ∧ LevelQueues (scheduleBlock g s b).gte.blocksPerSm := by
  rcases scheduleBlock_cases g s b with same | ⟨grid, block, target, -, -, -, found, eq⟩
  · rw [same]
    exact h
  · rw [eq]
    refine ⟨h.1, h.2.set fun t => ?_⟩
    rw [targetSm, h.1] at found
    exact minQueue_spec found t

/-! ## Runs from a new engine -/

/-- A new engine has nothing to account for. -/
theorem gteCreate_accounted {numSms : Int} {gte : GigaThreadEngine} (new : gteCreate numSms = some gte) :
    Accounted gte [] 0 ∧ LevelQueues gte.blocksPerSm := by
  unfold gteCreate at new
  split at new
  · contradiction
  · obtain rfl := Option.some.inj new
    refine ⟨⟨List.nodup_nil, nofun, nofun, ?_, ?_, ?_⟩, ?_⟩
    · intro s
      exact get_replicate 0 s
    · intro s
      exact get_replicate 0 s
    · simp only [get_replicate, Finset.sum_const_zero]
      rfl
    · intro s t
      rw [get_replicate, get_replicate]
      exact Nat.zero_le _

/-- A call of `gte_schedule_blocks` finds the policy `BLOCK_SCHED_MIN_QUEUE`. -/
def FindsMinQueue (s : GigaThreadEngine × List Assignment) : GteOp → Prop
  | .schedule => s.1.blockPolicy = .minQueue
  | _ => True

/-- Every call keeps the account. -/
theorem gteStep_accounted (s : GigaThreadEngine × List Assignment) (op : GteOp) (h : Accounted s.1 s.2 0) :
    Accounted (gteStep s op).1 (gteStep s op).2 0 := by
  cases op with
  | submit g => exact h.submit g
  | setPolicy p => exact ⟨h.once, h.recorded, h.valid, h.blocks, h.load, h.total⟩
  | schedule => exact h.schedule

/-- Every call that finds the policy of the least queue keeps the queues level. -/
theorem gteStep_level (s : GigaThreadEngine × List Assignment) (op : GteOp) (h : LevelQueues s.1.blocksPerSm)
    (finds : FindsMinQueue s op) : LevelQueues (gteStep s op).1.blocksPerSm := by
  cases op with
  | submit g =>
    show LevelQueues (gteSubmitGrid s.1 g).blocksPerSm
    rcases gteSubmitGrid_cases s.1 g with same | added
    · rw [same]
      exact h
    · rw [added]
      exact h
  | setPolicy p => exact h
  | schedule =>
    have loops := schedule_invariant
      (motive := fun s : Scheduling => s.gte.blockPolicy = .minQueue ∧ LevelQueues s.gte.blocksPerSm)
      scheduleBlock_level (s := ⟨s.1, 0, s.2⟩) ⟨finds, h⟩ s.1.grids.length
    exact loops.2

/-- Every run assigns a block once and to a valid SM and counts what it assigns, and with the
shortest queue as policy it keeps the queues level. -/
theorem gigaThread_accounts {numSms : Int} {gte : GigaThreadEngine} (new : gteCreate numSms = some gte)
    (ops : List GteOp) :
    Accounted (run gteStep (gte, []) ops).1 (run gteStep (gte, []) ops).2 0 ∧
      (Guarded gteStep FindsMinQueue (gte, []) ops → LevelQueues (run gteStep (gte, []) ops).1.blocksPerSm) := by
  obtain ⟨accounted, level⟩ := gteCreate_accounted new
  refine ⟨run_invariant (motive := fun s : GigaThreadEngine × List Assignment => Accounted s.1 s.2 0) gteStep_accounted accounted ops, fun finds => ?_⟩
  exact guarded_invariant (motive := fun s : GigaThreadEngine × List Assignment => LevelQueues s.1.blocksPerSm) gteStep_level level finds

/-- Two SMs and a grid of three blocks of two warps. -/
def threeBlocks : KernelGrid := ⟨3, Vector.replicate 16 ⟨0, 2, false, -1⟩, 0, 0, by decide⟩

/-- Three blocks over two SMs. -/
theorem gigaThread_accounts_three : ∃ gte, gteCreate 2 = some gte ∧
    (run gteStep (gte, []) [.submit threeBlocks, .setPolicy .minQueue, .schedule]).2.map Assignment.sm = [0, 1, 0] ∧
      Accounted (run gteStep (gte, []) [.submit threeBlocks, .setPolicy .minQueue, .schedule]).1
        (run gteStep (gte, []) [.submit threeBlocks, .setPolicy .minQueue, .schedule]).2 0 ∧
      LevelQueues (run gteStep (gte, []) [.submit threeBlocks, .setPolicy .minQueue, .schedule]).1.blocksPerSm :=
  ⟨_, rfl, by decide, (@gigaThread_accounts 2 _ rfl _).1,
    (@gigaThread_accounts 2 _ rfl _).2 ⟨trivial, trivial, rfl, trivial⟩⟩

/-! ## The policies by themselves -/

/-- The blocks of the grid, `sm_queues`, and the count returned. -/
structure BlockQueues (n : Nat) where
  blocks : Vector ThreadBlock 16
  smQueues : Vector Int n
  scheduled : Nat

section Policies
variable {n : Nat}

/-- What all three do with a block and its SM. -/
def placeOnSm (s : BlockQueues n) (b : Fin 16) (sm : Fin n) : BlockQueues n :=
  { blocks := Vector.ofFn (Function.update s.blocks.get b { s.blocks.get b with scheduled := true, smAssigned := sm.val })
    smQueues := s.smQueues.set sm (s.smQueues.get sm + 1) sm.isLt
    scheduled := s.scheduled + 1 }

/-- The blocks in use, `for (b = 0; b < total_blocks; b++)`. -/
def eachBlock (grid : KernelGrid) (body : BlockQueues n → Fin 16 → BlockQueues n) (s : BlockQueues n) : BlockQueues n :=
  (List.finRange grid.totalBlocks).foldl (fun s b => body s (b.castLE grid.total_le)) s

def blockScheduleRoundRobin (pos : 0 < n) (grid : KernelGrid) (smQueues : Vector Int n) : BlockQueues n :=
  eachBlock grid
    (fun s b => if (s.blocks.get b).scheduled then s else placeOnSm s b ⟨s.scheduled % n, Nat.mod_lt _ pos⟩)
    ⟨grid.blocks, smQueues, 0⟩

/-- The inner loop of `block_schedule_fill_first`, with its `break`. -/
def fillSm (sm : Fin n) : List (Fin 16) → BlockQueues n → BlockQueues n
  | [], s => s
  | b :: rest, s =>
    if (s.blocks.get b).scheduled then fillSm sm rest s
    else if 32 ≤ s.smQueues.get sm then s
    else fillSm sm rest (placeOnSm s b sm)

def blockScheduleFillFirst (grid : KernelGrid) (smQueues : Vector Int n) : BlockQueues n :=
  (List.finRange n).foldl
    (fun s sm => fillSm sm ((List.finRange grid.totalBlocks).map (Fin.castLE grid.total_le)) s)
    ⟨grid.blocks, smQueues, 0⟩

/-- `min_val` and `min_sm`. -/
def minSm (pos : 0 < n) (smQueues : Vector Int n) : Int × Fin n :=
  ((List.finRange n).drop 1).foldl
    (fun best s => if smQueues.get s < best.1 then (smQueues.get s, s) else best) (smQueues.get ⟨0, pos⟩, ⟨0, pos⟩)

def minQueueBlock (pos : 0 < n) (s : BlockQueues n) (b : Fin 16) : BlockQueues n :=
  if (s.blocks.get b).scheduled then s else placeOnSm s b (minSm pos s.smQueues).2

def blockScheduleMinQueue (pos : 0 < n) (grid : KernelGrid) (smQueues : Vector Int n) : BlockQueues n :=
  eachBlock grid (minQueueBlock pos) ⟨grid.blocks, smQueues, 0⟩

/-- The SM that the search returns has the least queue. -/
theorem minSm_least (pos : 0 < n) (q : Vector Int n) (s : Fin n) : q.get (minSm pos q).2 ≤ q.get s := by
  have scan : (∀ s : Fin n, s.val < n → (minSm pos q).1 ≤ q.get s) ∧ q.get (minSm pos q).2 = (minSm pos q).1 := by
    refine drop_finRange_foldl_invariant
      (motive := fun i (best : Int × Fin n) => (∀ s : Fin n, s.val < i → best.1 ≤ q.get s) ∧ q.get best.2 = best.1)
      pos ⟨fun s lt => ?_, rfl⟩ ?_
    · have zero : s = ⟨0, pos⟩ := Fin.ext (Nat.lt_one_iff.1 lt)
      rw [zero]
    · rintro i best - ⟨below, same⟩
      split
      · rename_i less
        refine ⟨fun s lt => ?_, rfl⟩
        rcases Nat.lt_succ_iff_lt_or_eq.1 lt with before | here
        · exact le_of_lt (lt_of_lt_of_le less (below s before))
        · rw [Fin.ext here]
      · rename_i notLess
        refine ⟨fun s lt => ?_, same⟩
        rcases Nat.lt_succ_iff_lt_or_eq.1 lt with before | here
        · exact below s before
        · rw [Fin.ext here]
          exact not_lt.1 notLess
  rw [scan.2]
  exact scan.1 s s.isLt

/-- The block that is placed is marked with its SM. -/
theorem blocks_placeOnSm (s : BlockQueues n) (b b' : Fin 16) (t : Fin n) :
    (placeOnSm s b t).blocks.get b' =
      if b' = b then { s.blocks.get b with scheduled := true, smAssigned := t.val } else s.blocks.get b' :=
  (get_ofFn _ b').trans (Function.update_apply _ _ _ _)

/-- One queue is longer by one. -/
theorem queues_placeOnSm (s : BlockQueues n) (b : Fin 16) (t : Fin n) :
    (placeOnSm s b t).smQueues.get = Function.update s.smQueues.get t (s.smQueues.get t + 1) := by
  funext sm
  rw [Function.update_apply]
  exact get_set _ _ _ _

/-- No block is taken back. -/
theorem scheduled_placeOnSm {s : BlockQueues n} {b b' : Fin 16} (t : Fin n)
    (either : (s.blocks.get b').scheduled = true ∨ b' = b) :
    ((placeOnSm s b t).blocks.get b').scheduled = true := by
  rw [blocks_placeOnSm]
  split
  · rfl
  · rename_i other
    exact either.resolve_right other

/-- The blocks below `i` that were waiting in the grid and are now on the SM. -/
def came (grid : KernelGrid) (i : Nat) (s : BlockQueues n) (sm : Fin n) : Finset (Fin 16) :=
  Finset.univ.filter fun b =>
    b.val < i ∧ (grid.blocks.get b).scheduled = false ∧ (s.blocks.get b).smAssigned = sm.val

/-- The blocks below `i` that wait in the grid. -/
def waiting (grid : KernelGrid) (i : Nat) : Finset (Fin 16) :=
  Finset.univ.filter fun b => b.val < i ∧ (grid.blocks.get b).scheduled = false

/-- What holds when the first `i` blocks are through. -/
structure Placed (grid : KernelGrid) (q : Vector Int n) (i : Nat) (s : BlockQueues n) : Prop where
  kept : ∀ b : Fin 16, i ≤ b.val ∨ (grid.blocks.get b).scheduled = true → s.blocks.get b = grid.blocks.get b
  given : ∀ b ∈ waiting grid i, ∃ sm : Fin n,
    s.blocks.get b = { grid.blocks.get b with scheduled := true, smAssigned := sm.val }
  queues : ∀ sm, s.smQueues.get sm = q.get sm + (came grid i s sm).card
  levelled : Levelled q.get s.smQueues.get
  sum : ∑ sm, s.smQueues.get sm = ∑ sm, q.get sm + s.scheduled
  count : s.scheduled = (waiting grid i).card

variable {grid : KernelGrid} {q : Vector Int n} {s : BlockQueues n}

/-- The blocks that the scan has sent to an SM. -/
theorem mem_came {i : Nat} {sm : Fin n} {b : Fin 16} :
    b ∈ came grid i s sm ↔ b.val < i ∧ (grid.blocks.get b).scheduled = false ∧ (s.blocks.get b).smAssigned = sm.val := by
  rw [came, Finset.mem_filter, and_iff_right (Finset.mem_univ b)]

/-- The blocks below `i` that have not been scheduled. -/
theorem mem_waiting {i : Nat} {b : Fin 16} :
    b ∈ waiting grid i ↔ b.val < i ∧ (grid.blocks.get b).scheduled = false := by
  rw [waiting, Finset.mem_filter, and_iff_right (Finset.mem_univ b)]

/-- A block that does not wait is not one of those waiting. -/
theorem waiting_skip {b : Fin 16} (scheduled : (grid.blocks.get b).scheduled = true) :
    waiting grid (b + 1) = waiting grid b := by
  ext b'
  rw [mem_waiting, mem_waiting]
  refine ⟨fun ⟨lt, waits⟩ => ⟨?_, waits⟩, fun ⟨lt, waits⟩ => ⟨Nat.lt_succ_of_lt lt, waits⟩⟩
  rcases Nat.lt_succ_iff_lt_or_eq.1 lt with before | here
  · exact before
  · rw [Fin.ext here, scheduled] at waits
    cases waits

/-- A block that waits is one more. -/
theorem waiting_place {b : Fin 16} (waits : (grid.blocks.get b).scheduled = false) :
    waiting grid (b + 1) = insert b (waiting grid b) := by
  ext b'
  rw [Finset.mem_insert, mem_waiting, mem_waiting]
  by_cases eq : b' = b
  · rw [eq]
    exact iff_of_true ⟨Nat.lt_succ_self _, waits⟩ (Or.inl rfl)
  · have before : b'.val < b + 1 ↔ b'.val < b := by
      have : b'.val ≠ b.val := fun eq' => eq (Fin.ext eq')
      omega
    rw [before, or_iff_right eq]

/-- A block that is not waiting leaves all as it is. -/
theorem Placed.skip {b : Fin 16} (h : Placed grid q b s) (scheduled : (s.blocks.get b).scheduled = true) :
    Placed grid q (b + 1) s := by
  have old : (grid.blocks.get b).scheduled = true := by
    rw [← h.kept b (Or.inl (Nat.le_refl _))]
    exact scheduled
  refine ⟨fun b' either => h.kept b' (either.imp_left Nat.le_of_succ_le), ?_, fun sm => ?_, h.levelled, h.sum, ?_⟩
  · rw [waiting_skip old]
    exact h.given
  · have same : came grid (b + 1) s sm = came grid b s sm := by
      ext b'
      rw [mem_came, mem_came, ← and_assoc, ← and_assoc, ← mem_waiting, ← mem_waiting, waiting_skip old]
    rw [same]
    exact h.queues sm
  · rw [waiting_skip old]
    exact h.count

/-- Placing a block that waited adds it to what came to its SM. -/
theorem came_place {b : Fin 16} (waited : (grid.blocks.get b).scheduled = false) (t sm : Fin n) :
    came grid (b + 1) (placeOnSm s b t) sm =
      if sm = t then insert b (came grid b s sm) else came grid b s sm := by
  have fresh : b ∉ came grid b s sm := fun mem => Nat.lt_irrefl _ (mem_came.1 mem).1
  ext b'
  rw [mem_came, blocks_placeOnSm]
  by_cases eq : b' = b
  · rw [if_pos eq, eq]
    split
    · rename_i here
      exact iff_of_true ⟨Nat.lt_succ_self _, waited, by rw [here]⟩ (Finset.mem_insert_self _ _)
    · rename_i elsewhere
      refine iff_of_false (fun all => elsewhere (Fin.ext ?_)) fresh
      exact Int.natCast_inj.1 all.2.2.symm
  · have before : b'.val < b + 1 ↔ b'.val < b := by
      have : b'.val ≠ b.val := fun eq' => eq (Fin.ext eq')
      omega
    rw [if_neg eq, before, ← mem_came]
    split
    · rw [Finset.mem_insert, or_iff_right eq]
    · rfl

/-- A waiting block on a shortest queue. -/
theorem Placed.place {b : Fin 16} (h : Placed grid q b s) (waits : (s.blocks.get b).scheduled = false) {t : Fin n}
    (least : ∀ sm, s.smQueues.get t ≤ s.smQueues.get sm) : Placed grid q (b + 1) (placeOnSm s b t) := by
  have same : s.blocks.get b = grid.blocks.get b := h.kept b (Or.inl (Nat.le_refl _))
  have waited : (grid.blocks.get b).scheduled = false := by
    rw [← same]
    exact waits
  have new : b ∉ waiting grid b := fun mem => Nat.lt_irrefl _ (mem_waiting.1 mem).1
  refine ⟨fun b' either => ?_, fun b' mem => ?_, fun sm => ?_, ?_, ?_, ?_⟩
  · rw [blocks_placeOnSm, if_neg]
    · exact h.kept b' (either.imp_left Nat.le_of_succ_le)
    · rintro rfl
      rcases either with le | scheduled
      · exact Nat.not_succ_le_self _ le
      · rw [waited] at scheduled
        cases scheduled
  · rw [blocks_placeOnSm]
    split
    · rename_i here
      exact ⟨t, by rw [here, same]⟩
    · rename_i other
      rw [waiting_place waited, Finset.mem_insert, or_iff_right other] at mem
      exact h.given b' mem
  · have fresh : b ∉ came grid b s sm := fun mem => Nat.lt_irrefl _ (mem_came.1 mem).1
    have old := h.queues sm
    rw [came_place waited, queues_placeOnSm, Function.update_apply]
    split
    · rename_i here
      rw [Finset.card_insert_of_notMem fresh, ← here, old, Nat.cast_succ, add_assoc]
    · exact old
  · rw [queues_placeOnSm]
    exact h.levelled.assign least
  · have total := h.sum
    rw [← Finset.add_sum_erase _ _ (Finset.mem_univ t)] at total
    rw [queues_placeOnSm, Finset.sum_update_of_mem (Finset.mem_univ t), Finset.sdiff_singleton_eq_erase]
    show _ = _ + ((s.scheduled + 1 : Nat) : Int)
    rw [Nat.cast_succ]
    omega
  · rw [waiting_place waited, Finset.card_insert_of_notMem new, ← h.count]
    rfl

/-- Every waiting block is given to one SM and the others stay as they are; the count returned is that of the blocks
given; each queue grows by those given to its SM; and no way of distributing as many blocks over the queues has a
smaller longest queue. -/
theorem blockScheduleMinQueue_optimal (pos : 0 < n) (grid : KernelGrid) (q : Vector Int n) :
    let s := blockScheduleMinQueue pos grid q
    (∀ b ∈ waiting grid grid.totalBlocks, ∃ sm : Fin n,
        s.blocks.get b = { grid.blocks.get b with scheduled := true, smAssigned := sm.val }) ∧
      (∀ b ∉ waiting grid grid.totalBlocks, s.blocks.get b = grid.blocks.get b) ∧
      s.scheduled = (waiting grid grid.totalBlocks).card ∧
      (∀ sm, s.smQueues.get sm = q.get sm +
        ((waiting grid grid.totalBlocks).filter fun b => (s.blocks.get b).smAssigned = sm.val).card) ∧
      ∀ other : Fin n → Int, (∀ sm, q.get sm ≤ other sm) →
        ∑ sm, other sm = ∑ sm, q.get sm + (waiting grid grid.totalBlocks).card →
        ∀ longest, (∀ sm, other sm ≤ longest) → ∀ sm, s.smQueues.get sm ≤ longest := by
  intro s
  have placed : Placed grid q grid.totalBlocks s := by
    apply finRange_foldl_invariant (motive := fun i s => Placed grid q i s)
    · have none (sm : Fin n) : came grid 0 ⟨grid.blocks, q, 0⟩ sm = ∅ :=
        Finset.filter_false_of_mem fun b _ all => Nat.not_lt_zero _ all.1
      have nobody : waiting grid 0 = ∅ := Finset.filter_false_of_mem fun b _ all => Nat.not_lt_zero _ all.1
      refine ⟨fun b _ => rfl, fun b mem => ?_, fun sm => ?_, Levelled.refl _, (add_zero _).symm, ?_⟩
      · rw [nobody] at mem
        exact absurd mem (Finset.notMem_empty b)
      · rw [none]
        exact (add_zero _).symm
      · rw [nobody]
        rfl
    · intro b s h
      rw [minQueueBlock]
      split
      · rename_i scheduled
        exact h.skip (b := b.castLE grid.total_le) scheduled
      · rename_i waits
        exact h.place (b := b.castLE grid.total_le) (Bool.eq_false_of_not_eq_true waits) (minSm_least pos s.smQueues)
  refine ⟨placed.given, fun b out => placed.kept b ?_, placed.count, fun sm => ?_, fun other grows same longest le sm => ?_⟩
  · rw [mem_waiting, not_and_or, Nat.not_lt] at out
    exact out.imp_right fun ne => Bool.eq_true_of_not_eq_false ne
  · have chosen : came grid grid.totalBlocks s sm =
        (waiting grid grid.totalBlocks).filter fun b => (s.blocks.get b).smAssigned = sm.val := by
      ext b
      rw [mem_came, Finset.mem_filter, mem_waiting, and_assoc]
    rw [← chosen]
    exact placed.queues sm
  · exact placed.levelled.optimal grows (by rw [placed.sum, same, placed.count]) le sm

/-- Three waiting blocks on queues of 2, 0 and 1: none becomes longer than 2. -/
theorem blockScheduleMinQueue_optimal_three :
    let s := blockScheduleMinQueue (n := 3) (by decide) threeBlocks ⟨#[2, 0, 1], rfl⟩
    ∀ sm, s.smQueues.get sm ≤ 2 :=
  (blockScheduleMinQueue_optimal (n := 3) (by decide) threeBlocks ⟨#[2, 0, 1], rfl⟩).2.2.2.2 (fun _ => 2) (by decide)
    (by decide) 2 fun _ => le_refl _

/-- What a pass for one SM keeps, and what it ends with. -/
structure FilledSm (s : BlockQueues n) (sm : Fin n) (l : List (Fin 16)) (s' : BlockQueues n) : Prop where
  grows : ∀ sm', s.smQueues.get sm' ≤ s'.smQueues.get sm'
  bound : ∀ sm', s'.smQueues.get sm' ≤ max (s.smQueues.get sm') 32
  keeps : ∀ b, (s.blocks.get b).scheduled = true → (s'.blocks.get b).scheduled = true
  ends : (∀ b ∈ l, (s'.blocks.get b).scheduled = true) ∨ 32 ≤ s'.smQueues.get sm

/-- Filling an SM from a list, by induction on it. -/
theorem fillSm_filled (sm : Fin n) (l : List (Fin 16)) (s : BlockQueues n) : FilledSm s sm l (fillSm sm l s) := by
  induction l generalizing s with
  | nil => exact ⟨fun _ => le_refl _, fun _ => le_max_left _ _, fun _ => id, .inl fun b mem => absurd mem List.not_mem_nil⟩
  | cons b rest ih =>
    rw [fillSm]
    split
    · rename_i scheduled
      obtain ⟨grows, bound, keeps, ends⟩ := ih s
      refine ⟨grows, bound, keeps, ends.imp_left fun all b' mem => ?_⟩
      rcases List.mem_cons.1 mem with rfl | later
      · exact keeps b' scheduled
      · exact all b' later
    · split
      · rename_i full
        exact ⟨fun _ => le_refl _, fun _ => le_max_left _ _, fun _ => id, .inr full⟩
      · rename_i room
        obtain ⟨grows, bound, keeps, ends⟩ := ih (placeOnSm s b sm)
        refine ⟨fun sm' => le_trans ?_ (grows sm'), fun sm' => le_trans (bound sm') ?_, fun b' scheduled => ?_, ?_⟩
        · rw [queues_placeOnSm, Function.update_apply]
          split
          · rename_i here
            rw [here]
            omega
          · exact le_refl _
        · rw [queues_placeOnSm, Function.update_apply]
          split
          · rename_i here
            rw [here]
            omega
          · exact le_refl _
        · exact keeps b' (scheduled_placeOnSm sm (.inl scheduled))
        · refine ends.imp_left fun all b' mem => ?_
          rcases List.mem_cons.1 mem with rfl | later
          · exact keeps b' (scheduled_placeOnSm sm (.inr rfl))
          · exact all b' later

/-- No queue is filled above 32, and blocks are left only where every queue has come to 32. -/
theorem blockScheduleFillFirst_fills (grid : KernelGrid) (q : Vector Int n) :
    let s := blockScheduleFillFirst grid q
    (∀ sm, q.get sm ≤ s.smQueues.get sm ∧ s.smQueues.get sm ≤ max (q.get sm) 32) ∧
      (0 < n → (∀ b : Fin 16, b.val < grid.totalBlocks → (s.blocks.get b).scheduled = true) ∨
        ∀ sm, 32 ≤ s.smQueues.get sm) := by
  intro s
  have passes : (∀ sm, q.get sm ≤ s.smQueues.get sm ∧ s.smQueues.get sm ≤ max (q.get sm) 32) ∧
      ((0 < n ∧ ∀ b : Fin 16, b.val < grid.totalBlocks → (s.blocks.get b).scheduled = true) ∨
        ∀ sm : Fin n, sm.val < n → 32 ≤ s.smQueues.get sm) := by
    refine finRange_foldl_invariant
      (motive := fun i (s : BlockQueues n) =>
        (∀ sm, q.get sm ≤ s.smQueues.get sm ∧ s.smQueues.get sm ≤ max (q.get sm) 32) ∧
          ((0 < i ∧ ∀ b : Fin 16, b.val < grid.totalBlocks → (s.blocks.get b).scheduled = true) ∨
            ∀ sm : Fin n, sm.val < i → 32 ≤ s.smQueues.get sm))
      ⟨fun sm => ⟨le_refl _, le_max_left _ _⟩, .inr fun sm lt => absurd lt (Nat.not_lt_zero _)⟩ ?_
    rintro i s ⟨within, sofar⟩
    obtain ⟨grows, bound, keeps, ends⟩ :=
      fillSm_filled i ((List.finRange grid.totalBlocks).map (Fin.castLE grid.total_le)) s
    refine ⟨fun sm => ⟨(within sm).1.trans (grows sm), (bound sm).trans (max_le (within sm).2 (le_max_right _ _))⟩, ?_⟩
    rcases sofar with ⟨-, all⟩ | full
    · exact .inl ⟨Nat.succ_pos _, fun b lt => keeps b (all b lt)⟩
    · rcases ends with all | here
      · refine .inl ⟨Nat.succ_pos _, fun b lt => all b (List.mem_map.2 ⟨⟨b.val, lt⟩, List.mem_finRange _, rfl⟩)⟩
      · refine .inr fun sm lt => ?_
        rcases Nat.lt_succ_iff_lt_or_eq.1 lt with before | eq
        · exact (full sm before).trans (grows sm)
        · rw [Fin.ext eq]
          exact here
  exact ⟨passes.1, fun _ => passes.2.imp And.right fun full sm => full sm sm.isLt⟩

end Policies

end MiniHardware.Gpu
