import MiniHardware.Lib.CycleSearch

/-!
# Gate networks (`mini-digital-circuit/src/logic_gate.c`)

Wires are numbers and `values` is what they carry; a null pointer is `none`,
and so is the result of a function that follows one. `gate_net_topo_sort` and
`gate_net_is_cyclic` walk the same edges, from a gate to the gates that read
its output (`readers`), and both leave out the edge from a gate to itself.
-/

namespace MiniHardware.Digital
open Lib

inductive GateType where
  | and
  | or
  | not
  | nand
  | nor
  | xor
  | xnor
  | buf
  deriving DecidableEq

/-- `inputs` are the first `input_count` of the inputs. -/
structure LogicGate where
  type : GateType
  inputs : List (Option Nat)
  output : Option Nat
  deriving DecidableEq

/-! ## Evaluation of a gate -/

section Eval

variable (values : Nat → Bool)

/-- `inputs[i]->value`. -/
def inputValue (input : Option Nat) : Option Bool := input.map values

/-- `GATE_AND`: the loop ends at the first input that is false. -/
def andLoop : List (Option Nat) → Option Bool
  | [] => some true
  | input :: inputs => do if ← inputValue values input then andLoop inputs else some false

/-- `GATE_OR`: the loop ends at the first input that is true. -/
def orLoop : List (Option Nat) → Option Bool
  | [] => some false
  | input :: inputs => do if ← inputValue values input then some true else orLoop inputs

/-- `GATE_XOR`. -/
def xorLoop (r : Bool) : List (Option Nat) → Option Bool
  | [] => some r
  | input :: inputs => do xorLoop (r != (← inputValue values input)) inputs

/-- `inputs[0]->value`, which `GATE_NOT` and `GATE_BUF` read in any case. -/
def firstInput : List (Option Nat) → Option Bool
  | [] => none
  | input :: _ => inputValue values input

/-- The result `r` of `logic_eval`. -/
def gateResult (gate : LogicGate) : Option Bool :=
  match gate.type with
  | .and => andLoop values gate.inputs
  | .or => orLoop values gate.inputs
  | .not => (firstInput values gate.inputs).map (!·)
  | .nand => (andLoop values gate.inputs).map (!·)
  | .nor => (orLoop values gate.inputs).map (!·)
  | .xor => xorLoop values false gate.inputs
  | .xnor => (xorLoop values false gate.inputs).map (!·)
  | .buf => firstInput values gate.inputs

/-- The values after `logic_eval`. -/
def logicEval (gate : LogicGate) : Option (Nat → Bool) :=
  match gate.output with
  | none => some values
  | some out => (gateResult values gate).map (Function.update values out)

end Eval

/-! ## Networks -/

section Order

variable (gates : List LogicGate)

/-- The gate `j` of the loops over `j` and `k`, once for each input `k` that is the output of gate `u`. -/
def readers (u : Fin gates.length) : List (Fin gates.length) :=
  match gates[u].output with
  | none => []
  | some out => (List.finRange gates.length).flatMap fun j =>
      if u = j then [] else (gates[j].inputs.filter (· = some out)).map fun _ => j

/-- The gates taken from the queue, in this order. -/
def kahnOrder : List (Fin gates.length) := (kahn (readers gates) (List.finRange gates.length)).order

/-- `order` after `gate_net_topo_sort`: the gates taken, and `-1` for the others. -/
def topoOrder : List Int :=
  (kahnOrder gates).map (fun u => (u.val : Int)) ++ List.replicate (gates.length - (kahnOrder gates).length) (-1)

end Order

/-- `order` holds its first `gate_count` entries. -/
structure GateNetwork where
  gates : List LogicGate
  wireCount : Nat
  values : Nat → Bool
  sorted : Bool
  order : List Int
  gate_count : gates.length ≤ 256
  wire_count : wireCount ≤ 512
  /-- The flag stands for the order of these gates. -/
  fresh : sorted = true → (kahnOrder gates).length = gates.length ∧ (gates = [] ∨ order = topoOrder gates)

def gateNetCreate : GateNetwork where
  gates := []
  wireCount := 0
  values := fun _ => false
  sorted := false
  order := []
  gate_count := by decide
  wire_count := by decide
  fresh := by simp

/-- The number of the new wire, or -1. -/
def gateNetAddWire (net : GateNetwork) : GateNetwork × Int :=
  if h : net.wireCount ≥ 512 then (net, -1)
  else ({ net with
    values := Function.update net.values net.wireCount false
    wireCount := net.wireCount + 1
    wire_count := by omega }, net.wireCount)

/-- The number of the new gate, or -1. An input that is no wire becomes null; the output is taken
as it is. -/
def gateNetAddGate (net : GateNetwork) (type : GateType) (inputIds : List Int) (outId : Nat) :
    GateNetwork × Int :=
  if h : net.gates.length ≥ 256 then (net, -1)
  else ({ net with
    gates := net.gates ++ [{
      type := type
      inputs := (inputIds.take 8).map fun (id : Int) => if 0 ≤ id ∧ id < net.wireCount then some id.toNat else none
      output := some outId }]
    sorted := false
    gate_count := by
      rw [List.length_append, List.length_singleton]
      omega
    fresh := by simp }, net.gates.length)

/-- The network with its order, and whether all gates are in it. -/
def gateNetTopoSort (net : GateNetwork) : GateNetwork × Bool :=
  if empty : net.gates.length = 0 then
    ({ net with
      sorted := true
      fresh := by
        intro _
        obtain ⟨gates, _⟩ := net
        obtain rfl := List.length_eq_zero_iff.1 empty
        exact ⟨rfl, .inl rfl⟩ }, true)
  else
    let sorted := decide ((kahnOrder net.gates).length = net.gates.length)
    ({ net with
      sorted := sorted
      order := topoOrder net.gates
      fresh := by
        intro h
        exact ⟨of_decide_eq_true h, .inr rfl⟩ }, sorted)

def gateNetIsCyclic (net : GateNetwork) : Option Bool :=
  isCyclic (readers net.gates) (List.finRange net.gates.length)

/-- A round of the loop of `gate_net_evaluate`. -/
def evaluateStep (gates : List LogicGate) (values : Nat → Bool) (gi : Int) : Option (Nat → Bool) :=
  if h : 0 ≤ gi ∧ gi < gates.length then logicEval values (gates.get ⟨gi.toNat, by omega⟩) else some values

def gateNetEvaluate (net : GateNetwork) : Option GateNetwork :=
  let net := if net.sorted = false then (gateNetTopoSort net).1 else net
  ((net.order.take net.gates.length).foldlM (evaluateStep net.gates) net.values).map fun values =>
    { net with values := values }

/-! ## Edges -/

/-- The gate has its own output among its inputs. -/
def LogicGate.ReadsSelf (gate : LogicGate) : Prop := gate.output ≠ none ∧ gate.output ∈ gate.inputs

/-- An edge leads from a gate to another one that reads its output. -/
theorem edge_readers {gates : List LogicGate} {u v : Fin gates.length} :
    Edge (readers gates) u v ↔ u ≠ v ∧ ∃ out, gates[u].output = some out ∧ some out ∈ gates[v].inputs := by
  rw [Edge, readers]
  cases output : gates[u].output with
  | none => simp
  | some out =>
    simp only [List.mem_flatMap, List.mem_finRange, true_and, Option.some.injEq, exists_eq_left']
    constructor
    · rintro ⟨j, mem⟩
      by_cases same : u = j
      · rw [if_pos same] at mem
        cases mem
      · rw [if_neg same, List.mem_map] at mem
        obtain ⟨input, reads, rfl⟩ := mem
        rw [List.mem_filter, decide_eq_true_iff] at reads
        rw [← reads.2]
        exact ⟨same, reads.1⟩
    · rintro ⟨ne, reads⟩
      refine ⟨v, ?_⟩
      rw [if_neg ne, List.mem_map]
      exact ⟨some out, List.mem_filter.2 ⟨reads, decide_eq_true rfl⟩, rfl⟩

section Sorted

variable (gates : List LogicGate)

/-- All gates are ordered when there is no cycle. -/
theorem kahnOrder_full_iff :
    (kahnOrder gates).length = gates.length ↔ ¬ Cyclic (readers gates) := by
  have full : (kahn (readers gates) (List.finRange gates.length)).order.length =
      (List.finRange gates.length).length ↔ ¬ Cyclic (readers gates) :=
    kahn_full_iff (List.nodup_finRange _) List.mem_finRange
  rwa [List.length_finRange] at full

variable {gates} in
/-- Without a cycle each gate is once in the order. -/
theorem kahnOrder_perm (acyclic : ¬ Cyclic (readers gates)) :
    (kahnOrder gates).Perm (List.finRange gates.length) := by
  have full := (kahnOrder_full_iff gates).2 acyclic
  exact kahn_order_perm (List.nodup_finRange _) List.mem_finRange (by rwa [List.length_finRange])

/-- A gate comes after those it reads. -/
theorem kahnOrder_sorted : TopoSorted (readers gates) (kahnOrder gates) :=
  (kahnAt_kahn (List.nodup_finRange _) List.mem_finRange).sorted

end Sorted

/-- A set flag stands for the whole order. -/
theorem GateNetwork.order_eq (net : GateNetwork) (sorted : net.sorted = true) :
    net.order.take net.gates.length = (kahnOrder net.gates).map fun u => (u.val : Int) := by
  obtain ⟨full, empty | order⟩ := net.fresh sorted
  · have none : net.gates.length = 0 := List.length_eq_zero_iff.2 empty
    rw [List.length_eq_zero_iff.1 (full.trans none), List.map_nil, none, List.take_zero]
  · rw [order, topoOrder, full, Nat.sub_self, List.replicate_zero, List.append_nil]
    exact List.take_of_length_le (by rw [List.length_map, full])

section TopoSort

variable (net : GateNetwork)

/-- Sorting changes no gate. -/
theorem gateNetTopoSort_gates : (gateNetTopoSort net).1.gates = net.gates := by
  rw [gateNetTopoSort]
  split <;> rfl

theorem gateNetTopoSort_values : (gateNetTopoSort net).1.values = net.values := by
  rw [gateNetTopoSort]
  split <;> rfl

/-- The flag is the return value. -/
theorem gateNetTopoSort_flag : (gateNetTopoSort net).1.sorted = (gateNetTopoSort net).2 := by
  rw [gateNetTopoSort]
  split <;> rfl

/-- Sorting succeeds when there is no cycle. -/
theorem gateNetTopoSort_iff : (gateNetTopoSort net).2 = true ↔ ¬ Cyclic (readers net.gates) := by
  rw [← kahnOrder_full_iff]
  constructor
  · intro sorted
    rw [← gateNetTopoSort_flag] at sorted
    have full := ((gateNetTopoSort net).1.fresh sorted).1
    rwa [gateNetTopoSort_gates] at full
  · intro full
    rw [gateNetTopoSort]
    split
    · rfl
    · exact decide_eq_true full

/-- The test for a cycle is whether sorting fails. -/
theorem gateNetIsCyclic_eq : gateNetIsCyclic net = some (!(gateNetTopoSort net).2) := by
  obtain ⟨b, run, found⟩ : ∃ b, isCyclic (readers net.gates) (List.finRange net.gates.length) = some b ∧
      (b = true ↔ Cyclic (readers net.gates)) := isCyclic_eq (List.nodup_finRange _) List.mem_finRange
  rw [gateNetIsCyclic, run, Option.some_inj, Bool.eq_iff_iff, found, Bool.not_eq_true', Bool.eq_false_iff,
    Ne, gateNetTopoSort_iff, not_not]

end TopoSort

/-! ## The order -/

/-- **Sorting succeeds if and only if the search finds no cycle**, and then every gate comes before
the gates that read its output. -/
theorem gate_net_topo_sort_cyclic (net : GateNetwork) (noSelf : ∀ gate ∈ net.gates, ¬ gate.ReadsSelf) :
    gateNetIsCyclic net = some (!(gateNetTopoSort net).2) ∧
      ((gateNetTopoSort net).2 = true → ∃ order : List (Fin net.gates.length),
        (gateNetTopoSort net).1.order.take net.gates.length = order.map (fun u => (u.val : Int)) ∧
        order.Perm (List.finRange net.gates.length) ∧
        ∀ u v out, net.gates[u].output = some out → some out ∈ net.gates[v].inputs →
          order.idxOf u < order.idxOf v) := by
  refine ⟨gateNetIsCyclic_eq net, fun sorted => ?_⟩
  have perm := kahnOrder_perm ((gateNetTopoSort_iff net).1 sorted)
  refine ⟨kahnOrder net.gates, ?_, perm, ?_⟩
  · have order := (gateNetTopoSort net).1.order_eq ((gateNetTopoSort_flag net).trans sorted)
    rwa [gateNetTopoSort_gates] at order
  · intro u v out drives reads
    have ne : u ≠ v := by
      rintro rfl
      refine noSelf net.gates[u] (List.getElem_mem _) ⟨?_, ?_⟩
      · rw [drives]
        exact Option.some_ne_none out
      · rwa [drives]
    have edge : Edge (readers net.gates) u v := edge_readers.2 ⟨ne, out, drives, reads⟩
    exact (kahnOrder_sorted net.gates u v edge (perm.symm.subset (List.mem_finRange v))).2

/-- An inverter, and a gate that reads its output twice. -/
def invertTwice : GateNetwork :=
  (gateNetAddGate (gateNetAddGate (gateNetAddWire (gateNetAddWire (gateNetAddWire gateNetCreate).1).1).1
    .and [1, 1] 2).1 .not [0] 1).1

/-- Two inverters, listed against their order. -/
theorem gate_net_topo_sort_cyclic_invertTwice :
    (∀ gate ∈ invertTwice.gates, ¬ gate.ReadsSelf) ∧ gateNetIsCyclic invertTwice = some false ∧
      (gateNetTopoSort invertTwice).1.order = [1, 0] := by
  have noSelf : ∀ gate ∈ invertTwice.gates, ¬ gate.ReadsSelf := by
    unfold LogicGate.ReadsSelf
    decide
  have := (gate_net_topo_sort_cyclic invertTwice noSelf).1
  refine ⟨noSelf, ?_, by decide⟩
  rw [this]
  decide

end MiniHardware.Digital
