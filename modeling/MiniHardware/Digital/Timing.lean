import MiniHardware.Lib.Relaxation
import Mathlib.Algebra.Order.Ring.Int

/-!
# Static timing (`mini-digital-circuit/src/timing.c`)

The arrival times are relaxed along the edges and the required times against
them, both started from whatever an earlier analysis left in the nodes. The
numbers are those of any ordered group, where the source has `double`.
-/

namespace MiniHardware.Digital
open Lib

/-- `TIMING_MAX_NODES`. -/
def timingMaxNodes : Nat := 128

/-- `TIMING_MAX_PATHS`. -/
def timingMaxPaths : Nat := 256

structure TimingNode (α : Type*) where
  arrival : α
  required : α
  slack : α
  isInput : Bool
  isOutput : Bool

structure TimingEdge (α : Type*) where
  fromNode : Fin timingMaxNodes
  toNode : Fin timingMaxNodes
  delay : α

abbrev TimingNodes (α : Type*) := Fin timingMaxNodes → TimingNode α

/-- What `nodes` holds behind `nodeCount` is not initialised. -/
structure TimingGraph (α : Type*) where
  nodes : TimingNodes α
  nodeCount : Nat
  edges : List (TimingEdge α)
  clockPeriod : α
  setup : α
  nodeCount_le : nodeCount ≤ timingMaxNodes
  edges_le : edges.length ≤ timingMaxPaths
  inside : ∀ e ∈ edges, e.fromNode.val < nodeCount ∧ e.toNode.val < nodeCount

section Model

variable {α : Type*}

def timingGraphCreate (memory : TimingNodes α) (clockPeriod setup : α) : TimingGraph α :=
  ⟨memory, 0, [], clockPeriod, setup, Nat.zero_le _, Nat.zero_le _, by simp⟩

def timingAddNode [Zero α] (g : TimingGraph α) (isIn isOut : Bool) : TimingGraph α × Int :=
  if room : g.nodeCount < timingMaxNodes then
    ({ g with
        nodes := Function.update g.nodes ⟨g.nodeCount, room⟩ ⟨0, g.clockPeriod, 0, isIn, isOut⟩
        nodeCount := g.nodeCount + 1
        nodeCount_le := room
        inside := fun e mem => (g.inside e mem).imp Nat.lt_succ_of_lt Nat.lt_succ_of_lt }, g.nodeCount)
  else (g, -1)

def timingAddEdge (g : TimingGraph α) (start stop : Int) (delay : α) : TimingGraph α × Int :=
  if ok : g.edges.length < timingMaxPaths ∧ (0 ≤ start ∧ start < g.nodeCount) ∧ 0 ≤ stop ∧ stop < g.nodeCount then
    have le := g.nodeCount_le
    let e : TimingEdge α := ⟨⟨start.toNat, by omega⟩, ⟨stop.toNat, by omega⟩, delay⟩
    ({ g with
        edges := g.edges ++ [e]
        edges_le := by
          rw [List.length_append]
          exact ok.1
        inside := List.forall_mem_append.2 ⟨g.inside, by
          simp only [List.mem_singleton, forall_eq, e]
          omega⟩ }, g.edges.length)
  else (g, -1)

variable [AddCommGroup α] [LinearOrder α]

/-- The body of the loop over the edges in `timing_propagate_arrival`. -/
def arrivalEdge (r : TimingNodes α × Bool) (e : TimingEdge α) : TimingNodes α × Bool :=
  let newArrival := (r.1 e.fromNode).arrival + e.delay
  if newArrival > (r.1 e.toNode).arrival then
    (Function.update r.1 e.toNode { r.1 e.toNode with arrival := newArrival }, true)
  else r

def timingPropagateArrival (fuel : Nat) (g : TimingGraph α) : Option (TimingGraph α) :=
  let reset : TimingNodes α := fun i =>
    if i.val < g.nodeCount ∧ (g.nodes i).isInput then { g.nodes i with arrival := 0 } else g.nodes i
  (relaxLoop arrivalEdge g.edges fuel reset).map ({ g with nodes := · })

/-- The body of the loop over the edges in `timing_propagate_required`. -/
def requiredEdge (r : TimingNodes α × Bool) (e : TimingEdge α) : TimingNodes α × Bool :=
  let newReq := (r.1 e.toNode).required - e.delay
  if newReq < (r.1 e.fromNode).required then
    (Function.update r.1 e.fromNode { r.1 e.fromNode with required := newReq }, true)
  else r

def timingPropagateRequired (fuel : Nat) (g : TimingGraph α) : Option (TimingGraph α) :=
  let reset : TimingNodes α := fun i =>
    if i.val < g.nodeCount ∧ (g.nodes i).isOutput then
      { g.nodes i with required := g.clockPeriod - g.setup } else g.nodes i
  (relaxLoop requiredEdge g.edges fuel reset).map ({ g with nodes := · })

/-- The loop that ends `timing_compute_slack`. -/
def slacks (g : TimingGraph α) : TimingNodes α := fun i =>
  if i.val < g.nodeCount then { g.nodes i with slack := (g.nodes i).required - (g.nodes i).arrival }
  else g.nodes i

def timingComputeSlack (fuel : Nat) (g : TimingGraph α) : Option (TimingGraph α) := do
  let g ← timingPropagateArrival fuel g
  let g ← timingPropagateRequired fuel g
  return { g with nodes := slacks g }

inductive TimingOp (α : Type*) where
  | addNode (isIn isOut : Bool)
  | addEdge (start stop : Int) (delay : α)
  | computeSlack

def timingOp (fuel : Nat) (g : TimingGraph α) : TimingOp α → Option (TimingGraph α)
  | .addNode isIn isOut => some (timingAddNode g isIn isOut).1
  | .addEdge start stop delay => some (timingAddEdge g start stop delay).1
  | .computeSlack => timingComputeSlack fuel g

/-- A sequence of calls. -/
def timingRun (fuel : Nat) (ops : List (TimingOp α)) (g : TimingGraph α) : Option (TimingGraph α) :=
  ops.foldlM (timingOp fuel) g

end Model

/-! ## Paths -/

section Paths

variable {α : Type*} [AddCommGroup α]

abbrev TimingPath : Fin timingMaxNodes → List (TimingEdge α) → Fin timingMaxNodes → Prop :=
  Walk TimingEdge.fromNode TimingEdge.toNode

def pathDelay (l : List (TimingEdge α)) : α := (l.map TimingEdge.delay).sum

namespace TimingGraph

variable (g : TimingGraph α)

/-- The time at which a path may end at a node. -/
def due (u : Fin timingMaxNodes) : α :=
  if (g.nodes u).isOutput then g.clockPeriod - g.setup else g.clockPeriod

/-- The delays of the paths that end at a node. -/
def arrivals (v : Fin timingMaxNodes) : Set α :=
  {d | ∃ u l, l ⊆ g.edges ∧ TimingPath u l v ∧ d = pathDelay l}

/-- The times the ends of the paths from a node leave to it. -/
def requirements (v : Fin timingMaxNodes) : Set α :=
  {d | ∃ u l, l ⊆ g.edges ∧ TimingPath v l u ∧ d = g.due u - pathDelay l}

/-- The graph as `timing_compute_slack` should leave it. -/
structure Timed [LinearOrder α] : Prop where
  arrival : ∀ v, v.val < g.nodeCount → IsGreatest (g.arrivals v) (g.nodes v).arrival
  required : ∀ v, v.val < g.nodeCount → IsLeast (g.requirements v) (g.nodes v).required
  slack : ∀ v, v.val < g.nodeCount →
    (g.nodes v).slack = (g.nodes v).required - (g.nodes v).arrival

/-- What holds between the calls: the times are those of some path. The required time of an output
is set at the start of the next analysis. -/
structure Sound [LinearOrder α] : Prop where
  arrival : ∀ v, v.val < g.nodeCount → 0 ≤ (g.nodes v).arrival ∧ (g.nodes v).arrival ∈ g.arrivals v
  required : ∀ v, v.val < g.nodeCount → (g.nodes v).isOutput = false →
    (g.nodes v).required ≤ g.clockPeriod ∧ (g.nodes v).required ∈ g.requirements v

variable {g}

omit [AddCommGroup α] in
/-- A path stays among the nodes. -/
theorem path_end_lt {u v : Fin timingMaxNodes} {l : List (TimingEdge α)} (sub : l ⊆ g.edges)
    (path : TimingPath u l v) (lt : u.val < g.nodeCount) : v.val < g.nodeCount := by
  exact walk_start_mem (D := {v : Fin timingMaxNodes | v.val < g.nodeCount}) (fun e mem => (g.inside e mem).2)
    (fun e mem => sub (List.mem_reverse.1 mem)) (walk_reverse.2 path) lt

end TimingGraph

end Paths

/-! ## The two analyses -/

section Analyses

variable {α : Type*} [AddCommGroup α] [LinearOrder α]

def arrivalRelaxation : Relaxation (TimingNodes α) (TimingEdge α) (Fin timingMaxNodes) α where
  val nodes v := (nodes v).arrival
  src := TimingEdge.fromNode
  dst := TimingEdge.toNode
  len := TimingEdge.delay
  body := arrivalEdge
  raise nodes changed e less := by
    refine ⟨_, if_pos less, ?_⟩
    funext v
    by_cases h : v = e.toNode
    · subst h
      simp
    · simp [h]
  keep nodes changed e less := if_neg less

variable [IsOrderedAddMonoid α]

/-- Against the edges, over the negated times. -/
def requiredRelaxation : Relaxation (TimingNodes α) (TimingEdge α) (Fin timingMaxNodes) α where
  val nodes v := -(nodes v).required
  src := TimingEdge.toNode
  dst := TimingEdge.fromNode
  len := TimingEdge.delay
  body := requiredEdge
  raise nodes changed e less := by
    have less : (nodes e.toNode).required - e.delay < (nodes e.fromNode).required := by
      rw [← neg_lt_neg_iff, neg_sub', sub_neg_eq_add]
      exact less
    refine ⟨_, if_pos less, ?_⟩
    funext v
    by_cases h : v = e.fromNode
    · subst h
      simp [sub_eq_add_neg, add_comm]
    · simp [h]
  keep nodes changed e less := by
    refine if_neg (fun less' => less ?_)
    rw [← neg_lt_neg_iff, neg_sub', sub_neg_eq_add] at less'
    exact less'

variable {g : TimingGraph α} {fuel : Nat}

omit [IsOrderedAddMonoid α] in
/-- The arrivals are the values of walks in the relaxation. -/
theorem arrivals_eq (v : Fin timingMaxNodes) :
    arrivalRelaxation.walkValues g.edges (fun _ => 0) v = g.arrivals v := by
  simp only [Relaxation.walkValues, zero_add]
  rfl

/-- The requirements are those of the relaxation against the edges, with the sign changed. -/
theorem mem_requirements {v : Fin timingMaxNodes} {d : α} :
    d ∈ g.requirements v ↔ -d ∈ requiredRelaxation.walkValues g.edges (fun u => -g.due u) v := by
  have value : ∀ u l, -d = -g.due u + pathDelay l ↔ d = g.due u - pathDelay l := by
    intro u l
    rw [neg_eq_iff_eq_neg, neg_add, neg_neg, sub_eq_add_neg]
  have delay : ∀ l : List (TimingEdge α), pathDelay l.reverse = pathDelay l := by
    intro l
    rw [pathDelay, List.map_reverse, List.sum_reverse]
    rfl
  constructor
  · rintro ⟨u, l, sub, path, eq⟩
    refine ⟨u, l.reverse, fun e mem => sub (List.mem_reverse.1 mem), walk_reverse.2 path, ?_⟩
    exact (value u _).2 (eq.trans (by rw [delay]))
  · rintro ⟨u, l, sub, walk, eq⟩
    refine ⟨u, l.reverse, fun e mem => sub (List.mem_reverse.1 mem), ?_, ?_⟩
    · rw [TimingPath, ← walk_reverse, List.reverse_reverse]
      exact walk
    · rw [delay]
      exact (value u _).1 eq

abbrev TimingGraph.Acyclic (g : TimingGraph α) : Prop :=
  Lib.Acyclic TimingEdge.fromNode TimingEdge.toNode g.edges

omit [IsOrderedAddMonoid α] in
/-- A round writes the arrival time of one node. -/
theorem arrival_edge_kept (r : TimingNodes α × Bool) (e : TimingEdge α) (i : Fin timingMaxNodes) :
    ((arrivalEdge r e).1 i).required = (r.1 i).required ∧
      ((arrivalEdge r e).1 i).isOutput = (r.1 i).isOutput := by
  rw [arrivalEdge]
  split
  · by_cases h : i = e.toNode
    · subst h
      simp
    · simp [h]
  · exact ⟨rfl, rfl⟩

omit [IsOrderedAddMonoid α] in
/-- The backward pass changes required times only. -/
theorem required_edge_kept (r : TimingNodes α × Bool) (e : TimingEdge α) (i : Fin timingMaxNodes) :
    ((requiredEdge r e).1 i).arrival = (r.1 i).arrival ∧
      ((requiredEdge r e).1 i).isOutput = (r.1 i).isOutput := by
  rw [requiredEdge]
  split
  · by_cases h : i = e.fromNode
    · subst h
      simp
    · simp [h]
  · exact ⟨rfl, rfl⟩

omit [LinearOrder α] [IsOrderedAddMonoid α] in
/-- The last loop changes slacks only. -/
@[simp] theorem slacks_kept (i : Fin timingMaxNodes) :
    (slacks g i).arrival = (g.nodes i).arrival ∧ (slacks g i).required = (g.nodes i).required ∧
      (slacks g i).isOutput = (g.nodes i).isOutput := by
  rw [slacks]
  split <;> exact ⟨rfl, rfl, rfl⟩

/-- An input starts from zero, another node from what it holds. -/
theorem propagate_arrival_spec (acyclic : g.Acyclic) (enough : timingMaxNodes < fuel)
    (before : ∀ v, v.val < g.nodeCount → 0 ≤ (g.nodes v).arrival ∧ (g.nodes v).arrival ∈ g.arrivals v) :
    ∃ nodes, timingPropagateArrival fuel g = some { g with nodes := nodes } ∧
      (∀ i, (nodes i).required = (g.nodes i).required ∧ (nodes i).isOutput = (g.nodes i).isOutput) ∧
      ∀ v, v.val < g.nodeCount → IsGreatest (g.arrivals v) (nodes v).arrival := by
  let reset : TimingNodes α := fun i =>
    if i.val < g.nodeCount ∧ (g.nodes i).isInput then { g.nodes i with arrival := 0 } else g.nodes i
  have start : ∀ v, v.val < g.nodeCount → 0 ≤ (reset v).arrival ∧ (reset v).arrival ∈ g.arrivals v := by
    intro v lt
    by_cases input : v.val < g.nodeCount ∧ (g.nodes v).isInput
    · rw [show (reset v).arrival = 0 by simp [reset, input]]
      exact ⟨le_rfl, v, [], by simp, rfl, rfl⟩
    · rw [show reset v = g.nodes v from if_neg input]
      exact before v lt
  obtain ⟨nodes, run, greatest⟩ := Relaxation.relax_greatest_on arrivalRelaxation (fun _ => 0)
    (D := {v : Fin timingMaxNodes | v.val < g.nodeCount}) (s := reset) (fun e mem => (g.inside e mem).1) acyclic
    (fun v lt => arrivals_eq (g := g) v ▸ (start v lt).2) (fun v lt => (start v lt).1) (by simpa using enough)
  refine ⟨nodes, congrArg (Option.map _) run, ?_, fun v lt => arrivals_eq (g := g) v ▸ greatest v lt⟩
  refine relaxLoop_kept (P := fun nodes : TimingNodes α => ∀ i,
    (nodes i).required = (g.nodes i).required ∧ (nodes i).isOutput = (g.nodes i).isOutput) ?_ run ?_
  · intro r e kept i
    change ((arrivalEdge r e).1 i).required = _ ∧ ((arrivalEdge r e).1 i).isOutput = _
    rw [(arrival_edge_kept r e i).1, (arrival_edge_kept r e i).2]
    exact kept i
  · intro i
    simp only [reset]
    split <;> exact ⟨rfl, rfl⟩

/-- An output starts from its own limit, another node from what it holds. -/
theorem propagate_required_spec (acyclic : g.Acyclic) (enough : timingMaxNodes < fuel)
    (before : ∀ v, v.val < g.nodeCount → (g.nodes v).isOutput = false →
      (g.nodes v).required ≤ g.clockPeriod ∧ (g.nodes v).required ∈ g.requirements v) :
    ∃ nodes, timingPropagateRequired fuel g = some { g with nodes := nodes } ∧
      (∀ i, (nodes i).arrival = (g.nodes i).arrival ∧ (nodes i).isOutput = (g.nodes i).isOutput) ∧
      ∀ v, v.val < g.nodeCount → IsLeast (g.requirements v) (nodes v).required := by
  let reset : TimingNodes α := fun i =>
    if i.val < g.nodeCount ∧ (g.nodes i).isOutput then
      { g.nodes i with required := g.clockPeriod - g.setup } else g.nodes i
  have start : ∀ v, v.val < g.nodeCount → (reset v).required ≤ g.due v ∧ (reset v).required ∈ g.requirements v := by
    intro v lt
    by_cases output : (g.nodes v).isOutput
    · have due : (reset v).required = g.due v := by simp [reset, TimingGraph.due, lt, output]
      rw [due]
      exact ⟨le_rfl, v, [], by simp, rfl, (sub_zero _).symm⟩
    · rw [show reset v = g.nodes v from if_neg fun h => output h.2,
        show g.due v = g.clockPeriod from if_neg output]
      exact before v lt (Bool.not_eq_true _ ▸ output)
  obtain ⟨nodes, run, greatest⟩ := Relaxation.relax_greatest_on requiredRelaxation (fun u => -g.due u)
    (D := {v : Fin timingMaxNodes | v.val < g.nodeCount}) (s := reset) (fun e mem => (g.inside e mem).2)
    acyclic.reverse (fun v lt => mem_requirements.1 (start v lt).2)
    (fun v lt => neg_le_neg (start v lt).1) (by simpa using enough)
  refine ⟨nodes, congrArg (Option.map _) run, ?_, fun v lt => ⟨mem_requirements.2 (greatest v lt).1, ?_⟩⟩
  · refine relaxLoop_kept (P := fun nodes : TimingNodes α => ∀ i,
      (nodes i).arrival = (g.nodes i).arrival ∧ (nodes i).isOutput = (g.nodes i).isOutput) ?_ run ?_
    · intro r e kept i
      change ((requiredEdge r e).1 i).arrival = _ ∧ ((requiredEdge r e).1 i).isOutput = _
      rw [(required_edge_kept r e i).1, (required_edge_kept r e i).2]
      exact kept i
    · intro i
      simp only [reset]
      split <;> exact ⟨rfl, rfl⟩
  · intro d mem
    exact neg_le_neg_iff.1 ((greatest v lt).2 (mem_requirements.1 mem))

/-- **The analysis of a sound graph** ends, and leaves the times of the paths. -/
theorem compute_slack_spec (sound : g.Sound) (acyclic : g.Acyclic) (enough : timingMaxNodes < fuel) :
    ∃ nodes, timingComputeSlack fuel g = some { g with nodes := nodes } ∧
      (∀ i, (nodes i).isOutput = (g.nodes i).isOutput) ∧ { g with nodes := nodes }.Timed := by
  obtain ⟨nodes₁, run₁, kept₁, greatest⟩ := propagate_arrival_spec acyclic enough sound.arrival
  have due₁ : { g with nodes := nodes₁ }.requirements = g.requirements := by
    funext v
    simp only [TimingGraph.requirements, TimingGraph.due, kept₁]
  obtain ⟨nodes₂, run₂, kept₂, least⟩ := propagate_required_spec (g := { g with nodes := nodes₁ }) acyclic enough
    (by
      intro v lt inner
      rw [due₁, (kept₁ v).1]
      exact sound.required v lt ((kept₁ v).2 ▸ inner))
  have due₂ : { g with nodes := slacks { g with nodes := nodes₂ } }.requirements = g.requirements := by
    funext v
    simp only [TimingGraph.requirements, TimingGraph.due, slacks_kept, kept₂, kept₁]
  refine ⟨slacks { g with nodes := nodes₂ }, ?_, ?_, ?_, ?_, ?_⟩
  · rw [timingComputeSlack, run₁, Option.bind_eq_bind, Option.bind_some, run₂]
    rfl
  · intro i
    simp only [slacks_kept, kept₂, kept₁]
  · intro v lt
    simp only [slacks_kept, kept₂]
    exact greatest v lt
  · intro v lt
    rw [due₂, ← due₁]
    simp only [slacks_kept]
    exact least v lt
  · intro v lt
    simp only [slacks, if_pos lt]

end Analyses

/-! ## Sequences of calls -/

section Shape

variable {α : Type*} {g h : TimingGraph α}

/-- The graphs differ in the times their nodes hold. -/
def SameShape (g h : TimingGraph α) : Prop :=
  ∃ nodes, g = { h with nodes := nodes } ∧ ∀ i, (nodes i).isOutput = (h.nodes i).isOutput

/-- A graph has its own shape. -/
theorem SameShape.refl (g : TimingGraph α) : SameShape g g :=
  ⟨g.nodes, rfl, fun _ => rfl⟩

/-- Graphs of one shape get the same edges. -/
theorem SameShape.addEdge (shape : SameShape g h) (start stop : Int) (delay : α) :
    SameShape (timingAddEdge g start stop delay).1 (timingAddEdge h start stop delay).1 := by
  obtain ⟨nodes, rfl, output⟩ := shape
  simp only [timingAddEdge]
  split
  · exact ⟨nodes, rfl, output⟩
  · exact ⟨nodes, rfl, output⟩

/-- Adding an edge loses none. -/
theorem addEdge_edges (g : TimingGraph α) (start stop : Int) (delay : α) :
    g.edges ⊆ (timingAddEdge g start stop delay).1.edges := by
  rw [timingAddEdge]
  split
  · exact List.subset_append_left _ _
  · exact List.Subset.refl _

variable [Zero α]

/-- Graphs of one shape get the same nodes. -/
theorem SameShape.addNode (shape : SameShape g h) (isIn isOut : Bool) :
    SameShape (timingAddNode g isIn isOut).1 (timingAddNode h isIn isOut).1 := by
  obtain ⟨nodes, rfl, output⟩ := shape
  by_cases room : h.nodeCount < timingMaxNodes
  · simp only [timingAddNode, dif_pos room]
    refine ⟨_, rfl, fun i => ?_⟩
    by_cases new : i = ⟨h.nodeCount, room⟩
    · simp [new]
    · simp [new, output i]
  · simp only [timingAddNode, dif_neg room]
    exact ⟨nodes, rfl, output⟩

/-- Adding a node adds no edge. -/
theorem addNode_edges (g : TimingGraph α) (isIn isOut : Bool) :
    (timingAddNode g isIn isOut).1.edges = g.edges := by
  rw [timingAddNode]
  split <;> rfl

/-- What the calls build, the analyses left out. -/
def builtGraph (ops : List (TimingOp α)) (g : TimingGraph α) : TimingGraph α :=
  ops.foldl (fun g op => match op with
    | .addNode isIn isOut => (timingAddNode g isIn isOut).1
    | .addEdge start stop delay => (timingAddEdge g start stop delay).1
    | .computeSlack => g) g

/-- No call loses an edge. -/
theorem builtGraph_edges (ops : List (TimingOp α)) (g : TimingGraph α) :
    g.edges ⊆ (builtGraph ops g).edges := by
  induction ops generalizing g with
  | nil => exact List.Subset.refl _
  | cons op ops ih =>
    refine List.Subset.trans ?_ (ih _)
    cases op with
    | addNode isIn isOut => rw [addNode_edges]; exact List.Subset.refl _
    | addEdge start stop delay => exact addEdge_edges g start stop delay
    | computeSlack => exact List.Subset.refl _

end Shape

section Calls

variable {α : Type*} [AddCommGroup α] [LinearOrder α] {g h : TimingGraph α}

/-- A new node is sound. -/
theorem sound_addNode (sound : g.Sound) (isIn isOut : Bool) : (timingAddNode g isIn isOut).1.Sound := by
  rw [timingAddNode]
  split
  · rename_i room
    have old : ∀ v : Fin timingMaxNodes, v.val < g.nodeCount → v ≠ ⟨g.nodeCount, room⟩ :=
      fun v lt same => by simp [same] at lt
    have new : ∀ v : Fin timingMaxNodes, v.val < g.nodeCount + 1 → ¬ v.val < g.nodeCount →
        v = ⟨g.nodeCount, room⟩ := fun v lt ge => Fin.ext (by simp; omega)
    constructor
    · intro v lt
      by_cases before : v.val < g.nodeCount
      · simp only [Function.update_of_ne (old v before)]
        exact sound.arrival v before
      · obtain rfl := new v lt before
        refine ⟨by simp, _, [], by simp, rfl, ?_⟩
        simp [pathDelay]
    · intro v lt inner
      by_cases before : v.val < g.nodeCount
      · simp only [Function.update_of_ne (old v before)] at inner ⊢
        obtain ⟨le, u, l, sub, path, eq⟩ := sound.required v before inner
        refine ⟨le, u, l, sub, path, ?_⟩
        have last := old u (TimingGraph.path_end_lt sub path before)
        simpa [TimingGraph.due, last] using eq
      · obtain rfl := new v lt before
        refine ⟨by simp, _, [], by simp, rfl, ?_⟩
        simp only [Function.update_self] at inner
        simp [TimingGraph.due, pathDelay, inner]
  · exact sound

/-- An edge changes no node. -/
theorem sound_addEdge (sound : g.Sound) (start stop : Int) (delay : α) :
    (timingAddEdge g start stop delay).1.Sound := by
  rw [timingAddEdge]
  split
  · constructor
    · intro v lt
      obtain ⟨le, u, l, sub, path⟩ := sound.arrival v lt
      exact ⟨le, u, l, List.subset_append_of_subset_left _ sub, path⟩
    · intro v lt inner
      obtain ⟨le, u, l, sub, path⟩ := sound.required v lt inner
      exact ⟨le, u, l, List.subset_append_of_subset_left _ sub, path⟩
  · exact sound

/-- Computed times are sound. -/
theorem TimingGraph.Timed.sound (timed : g.Timed) : g.Sound := by
  constructor
  · intro v lt
    exact ⟨(timed.arrival v lt).2 ⟨v, [], by simp, rfl, rfl⟩, (timed.arrival v lt).1⟩
  · intro v lt inner
    refine ⟨(timed.required v lt).2 ⟨v, [], by simp, rfl, ?_⟩, (timed.required v lt).1⟩
    simp [TimingGraph.due, inner, pathDelay]

/-- A new graph has no nodes. -/
theorem timing_create_sound (memory : TimingNodes α) (clockPeriod setup : α) :
    (timingGraphCreate memory clockPeriod setup).Sound :=
  ⟨fun _ lt => absurd lt (Nat.not_lt_zero _), fun _ lt => absurd lt (Nat.not_lt_zero _)⟩

variable [IsOrderedAddMonoid α]

/-- Every call is answered while no cycle is built. -/
theorem timing_run_spec (ops : List (TimingOp α)) {fuel : Nat} (enough : timingMaxNodes < fuel)
    (shape : SameShape g h) (sound : g.Sound) (acyclic : (builtGraph ops h).Acyclic) :
    ∃ g', timingRun fuel ops g = some g' ∧ SameShape g' (builtGraph ops h) ∧ g'.Sound := by
  induction ops generalizing g h with
  | nil => exact ⟨g, rfl, shape, sound⟩
  | cons op ops ih =>
    cases op with
    | addNode isIn isOut => exact ih (shape.addNode isIn isOut) (sound_addNode sound isIn isOut) acyclic
    | addEdge start stop delay =>
      exact ih (shape.addEdge start stop delay) (sound_addEdge sound start stop delay) acyclic
    | computeSlack =>
      obtain ⟨nodes, rfl, output⟩ := shape
      have now : { h with nodes := nodes }.Acyclic := acyclic.of_subset (builtGraph_edges ops h)
      obtain ⟨nodes', run, output', timed⟩ := compute_slack_spec sound now enough
      obtain ⟨g', rest, shape', sound'⟩ := ih (h := h) ⟨nodes', rfl, fun i => (output' i).trans (output i)⟩
        timed.sound acyclic
      refine ⟨g', ?_, shape', sound'⟩
      rw [timingRun, List.foldlM_cons, timingOp, run]
      exact rest

/-- **Static timing.** However nodes, edges and analyses are interleaved, over a graph without
cycles the last analysis ends, with the longest delay to and the tightest limit from every node. -/
theorem timing_compute_slack_correct (memory : TimingNodes α) (clockPeriod setup : α)
    (ops : List (TimingOp α)) {fuel : Nat} (enough : timingMaxNodes < fuel)
    (acyclic : (builtGraph ops (timingGraphCreate memory clockPeriod setup)).Acyclic) :
    ∃ g, timingRun fuel (ops ++ [.computeSlack]) (timingGraphCreate memory clockPeriod setup) = some g ∧
      SameShape g (builtGraph ops (timingGraphCreate memory clockPeriod setup)) ∧ g.Timed := by
  obtain ⟨g, run, ⟨nodes, rfl, output⟩, sound⟩ := timing_run_spec ops enough (SameShape.refl _)
    (timing_create_sound memory clockPeriod setup) acyclic
  obtain ⟨nodes', last, output', timed⟩ := compute_slack_spec sound acyclic enough
  refine ⟨_, ?_, ⟨nodes', rfl, fun i => (output' i).trans (output i)⟩, timed⟩
  rw [timingRun] at run ⊢
  rw [List.foldlM_append, run, Option.bind_eq_bind, Option.bind_some, List.foldlM_cons, timingOp, last]
  rfl

end Calls

/-- Two nodes, analysed before and after the edge between them. -/
theorem timing_compute_slack_correct_two_nodes :
    ∃ g, timingRun 129 ([.addNode true false, .addNode false true, .computeSlack, .addEdge 0 1 3] ++
        [.computeSlack]) (timingGraphCreate (fun _ => ⟨7, 7, 7, false, false⟩) (10 : Int) 1) = some g ∧
      SameShape g (builtGraph [.addNode true false, .addNode false true, .computeSlack, .addEdge 0 1 3]
        (timingGraphCreate (fun _ => ⟨7, 7, 7, false, false⟩) 10 1)) ∧ g.Timed :=
  timing_compute_slack_correct _ _ _ _ (by decide) (acyclic_of_rank Fin.val (by decide))

end MiniHardware.Digital
