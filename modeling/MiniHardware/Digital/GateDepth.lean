import MiniHardware.Digital.GateNet
import MiniHardware.Lib.ChainDepth

/-!
# Logic depth (`mini-digital-circuit/src/logic_gate.c`)

`gate_net_logic_depth` goes over the gates in the order of the last sort and
raises the depth of the gates that read their outputs. An entry of `order` that
is no gate would be an access outside `depth`, and its result is `none`.
-/

namespace MiniHardware.Digital
open Lib

/-- A round of the loop over `order`; the loops over `j` and `k` are those over the readers. -/
def depthStep (gates : List LogicGate) (s : (Fin gates.length → Nat) × Nat) (gi : Int) :
    Option ((Fin gates.length → Nat) × Nat) :=
  if gi < 0 then some s
  else if h : gi.toNat < gates.length then some (depthRound (readers gates) s ⟨gi.toNat, h⟩)
  else none

/-- The loop over `order` from a sorted network. -/
def depthLoop (net : GateNetwork) : Option Nat :=
  ((net.order.take net.gates.length).foldlM (depthStep net.gates) (fun _ => 0, 0)).map (·.2)

/-- The network, which may be sorted first, and the depth. -/
def gateNetLogicDepth (net : GateNetwork) : Option (GateNetwork × Int) :=
  let (net, sorted) := if net.sorted = false then gateNetTopoSort net else (net, true)
  if sorted = false then some (net, -1)
  else (depthLoop net).map fun maxd => (net, maxd)

/-- The gate `u` drives an input of `v`. -/
def Drives (gates : List LogicGate) (u v : Fin gates.length) : Prop :=
  ∃ out, (gates.get u).output = some out ∧ some out ∈ (gates.get v).inputs

/-- The number of edges of the longest chain of distinct gates. -/
def LongestChain (gates : List LogicGate) (depth : Nat) : Prop :=
  IsGreatest {k | ∃ chain : List (Fin gates.length),
    chain.Nodup ∧ chain.IsChain (Drives gates) ∧ k = chain.length - 1} depth

/-- Between distinct gates a driven input is an edge. -/
theorem chain_edges {gates : List LogicGate} {chain : List (Fin gates.length)} (nodup : chain.Nodup)
    (drives : chain.IsChain (Drives gates)) : chain.IsChain (Edge (readers gates)) := by
  induction chain with
  | nil => exact .nil
  | cons u rest ih =>
    cases rest with
    | nil => exact .singleton u
    | cons v rest =>
      obtain ⟨fresh, nodup⟩ := List.nodup_cons.1 nodup
      obtain ⟨first, drives⟩ := List.isChain_cons_cons.1 drives
      refine List.isChain_cons_cons.2 ⟨edge_readers.2 ⟨?_, first⟩, ih nodup drives⟩
      rintro rfl
      exact fresh List.mem_cons_self

theorem longestChain_depths {gates : List LogicGate} (acyclic : ¬ Cyclic (readers gates)) :
    LongestChain gates (depths (readers gates) (kahnOrder gates)).2 := by
  have perm := kahnOrder_perm acyclic
  have greatest := depths_greatest (perm.symm.nodup (List.nodup_finRange _))
    (fun v => perm.symm.subset (List.mem_finRange v)) (kahnOrder_sorted gates)
  have chains : ∀ chain : List (Fin gates.length), chain.IsChain (Edge (readers gates)) ↔
      chain.Nodup ∧ chain.IsChain (Drives gates) := by
    intro chain
    constructor
    · intro edges
      exact ⟨chain_nodup acyclic edges, edges.imp fun u v edge => (edge_readers.1 edge).2⟩
    · rintro ⟨nodup, drives⟩
      exact chain_edges nodup drives
  simpa only [LongestChain, chains, and_assoc] using greatest

/-- After a sort that succeeded the loop stays inside its arrays. -/
theorem depthLoop_eq {net : GateNetwork} (sorted : net.sorted = true) :
    depthLoop net = some (depths (readers net.gates) (kahnOrder net.gates)).2 := by
  have step : ∀ (s : (Fin net.gates.length → Nat) × Nat) (u : Fin net.gates.length),
      depthStep net.gates s u.val = some (depthRound (readers net.gates) s u) := by
    intro s u
    rw [depthStep, if_neg (Int.not_lt.2 (Int.natCast_nonneg _)), dif_pos (by simp)]
    rfl
  rw [depthLoop, net.order_eq sorted, List.foldlM_map]
  simp only [step]
  exact congrArg (Option.map _) List.foldlM_pure

/-- **The logic depth.** Where the sort succeeds, whether it was done before or is done now, the
result is the length of the longest chain of gates. -/
theorem gate_net_logic_depth (net : GateNetwork) (sorts : (gateNetTopoSort net).2 = true) :
    ∃ (net' : GateNetwork) (depth : Nat), gateNetLogicDepth net = some (net', (depth : Int)) ∧
      net'.gates = net.gates ∧ LongestChain net.gates depth := by
  have result : ∀ net' : GateNetwork, net'.sorted = true → net'.gates = net.gates →
      ∃ depth : Nat, (depthLoop net').map (fun maxd => (net', (maxd : Int))) = some (net', (depth : Int)) ∧
        LongestChain net.gates depth := by
    intro net' sorted same
    have acyclic := (kahnOrder_full_iff net'.gates).1 (net'.fresh sorted).1
    rw [depthLoop_eq sorted]
    exact ⟨_, rfl, same ▸ longestChain_depths acyclic⟩
  cases before : net.sorted with
  | false =>
    obtain ⟨depth, run, longest⟩ := result (gateNetTopoSort net).1 ((gateNetTopoSort_flag net).trans sorts)
      (gateNetTopoSort_gates net)
    refine ⟨_, depth, ?_, gateNetTopoSort_gates net, longest⟩
    simp only [gateNetLogicDepth, before, if_pos, sorts]
    exact run
  | true =>
    obtain ⟨depth, run, longest⟩ := result net before rfl
    refine ⟨net, depth, ?_, rfl, longest⟩
    simpa [gateNetLogicDepth, before] using run

theorem gate_net_logic_depth_invertTwice :
    (gateNetLogicDepth invertTwice).map (·.2) = some 1 ∧ LongestChain invertTwice.gates 1 := by
  obtain ⟨net', depth, run, -, longest⟩ := gate_net_logic_depth invertTwice (by decide)
  have value : (gateNetLogicDepth invertTwice).map (·.2) = some 1 := by decide
  refine ⟨value, ?_⟩
  rw [run] at value
  obtain rfl : depth = 1 := by simpa using value
  exact longest

end MiniHardware.Digital
