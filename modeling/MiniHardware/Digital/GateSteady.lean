import MiniHardware.Digital.GateNet

/-!
# One evaluation of a network without cycles

The gates are evaluated in an order in which no gate changes an input of an
earlier one, so every output stays what the gate computed. The input of a gate
from its own output, which neither the order nor the test for cycles looks at,
still carries the old value when the gate is evaluated.
-/

namespace MiniHardware.Digital
open Lib

/-- The logic function of a gate. -/
def gateFunction (type : GateType) (inputs : List Bool) : Bool :=
  match type with
  | .and => inputs.all id
  | .or => inputs.any id
  | .not => !inputs.headD false
  | .nand => !inputs.all id
  | .nor => !inputs.any id
  | .xor => inputs.foldl (· != ·) false
  | .xnor => !inputs.foldl (· != ·) false
  | .buf => inputs.headD false

/-- What the input wires of a gate carry. -/
def LogicGate.inputValues (gate : LogicGate) (values : Nat → Bool) : List Bool :=
  gate.inputs.map fun input => input.elim false values

/-- No input is null, and `GATE_NOT` and `GATE_BUF` have one. -/
structure LogicGate.InputsExist (gate : LogicGate) : Prop where
  notNull : none ∉ gate.inputs
  first : gate.type = .not ∨ gate.type = .buf → gate.inputs ≠ []

/-- Every wire is the output of one gate at most. -/
def OneDriver (gates : List LogicGate) : Prop :=
  ∀ u v : Fin gates.length, (gates.get u).output ≠ none → (gates.get u).output = (gates.get v).output → u = v

/-! ## The loops of a gate -/

section Loops

variable {values : Nat → Bool} {inputs : List (Option Nat)} (notNull : none ∉ inputs)

include notNull

theorem andLoop_eq : andLoop values inputs = some ((inputs.map fun input => input.elim false values).all id) := by
  induction inputs with
  | nil => rfl
  | cons input inputs ih =>
    obtain ⟨here, rest⟩ := not_or.1 (mt List.mem_cons.2 notNull)
    obtain ⟨w, rfl⟩ := Option.ne_none_iff_exists'.1 (Ne.symm here)
    cases h : values w <;> simp [andLoop, inputValue, h, ih rest]

theorem orLoop_eq : orLoop values inputs = some ((inputs.map fun input => input.elim false values).any id) := by
  induction inputs with
  | nil => rfl
  | cons input inputs ih =>
    obtain ⟨here, rest⟩ := not_or.1 (mt List.mem_cons.2 notNull)
    obtain ⟨w, rfl⟩ := Option.ne_none_iff_exists'.1 (Ne.symm here)
    cases h : values w <;> simp [orLoop, inputValue, h, ih rest]

theorem xorLoop_eq (r : Bool) :
    xorLoop values r inputs = some ((inputs.map fun input => input.elim false values).foldl (· != ·) r) := by
  induction inputs generalizing r with
  | nil => rfl
  | cons input inputs ih =>
    obtain ⟨here, rest⟩ := not_or.1 (mt List.mem_cons.2 notNull)
    obtain ⟨w, rfl⟩ := Option.ne_none_iff_exists'.1 (Ne.symm here)
    simp [xorLoop, inputValue, ih rest]

theorem firstInput_eq (first : inputs ≠ []) :
    firstInput values inputs = some ((inputs.map fun input => input.elim false values).headD false) := by
  cases inputs with
  | nil => exact absurd rfl first
  | cons input inputs =>
    obtain ⟨w, rfl⟩ := Option.ne_none_iff_exists'.1 (Ne.symm (not_or.1 (mt List.mem_cons.2 notNull)).1)
    rfl

end Loops

/-- A gate with its inputs computes its logic function. -/
theorem gateResult_eq {gate : LogicGate} (exist : gate.InputsExist) (values : Nat → Bool) :
    gateResult values gate = some (gateFunction gate.type (gate.inputValues values)) := by
  obtain ⟨notNull, first⟩ := exist
  rw [gateResult, LogicGate.inputValues]
  cases type : gate.type with
  | and => exact andLoop_eq notNull
  | or => exact orLoop_eq notNull
  | not =>
    simp only [firstInput_eq notNull (first (.inl type)), Option.map_some]
    rfl
  | nand =>
    simp only [andLoop_eq notNull, Option.map_some]
    rfl
  | nor =>
    simp only [orLoop_eq notNull, Option.map_some]
    rfl
  | xor => exact xorLoop_eq notNull false
  | xnor =>
    simp only [xorLoop_eq notNull, Option.map_some]
    rfl
  | buf => exact firstInput_eq notNull (first (.inr type))

theorem LogicGate.inputValues_congr {gate : LogicGate} {values values' : Nat → Bool}
    (same : ∀ w, some w ∈ gate.inputs → values w = values' w) :
    gate.inputValues values = gate.inputValues values' := by
  apply List.map_congr_left
  intro input mem
  cases input with
  | none => rfl
  | some w => exact same w mem

/-! ## The pass over the gates -/

/-- The gate's output is its function of its inputs; an input from its own output counts as it was. -/
def SteadyGate (gate : LogicGate) (before values : Nat → Bool) : Prop :=
  ∀ out, gate.output = some out →
    values out = gateFunction gate.type (gate.inputValues (Function.update values out (before out)))

/-- After the gates `done`. -/
structure SteadyAt {n : Nat} (gate : Fin n → LogicGate) (before : Nat → Bool) (done : List (Fin n))
    (values : Nat → Bool) : Prop where
  steady : ∀ u ∈ done, SteadyGate (gate u) before values
  later : ∀ u, u ∉ done → ∀ out, (gate u).output = some out → values out = before out

section Pass

variable {gates : List LogicGate} (one : OneDriver gates) (exist : ∀ gate ∈ gates, gate.InputsExist)
  {before : Nat → Bool}

include one exist

/-- One more gate, whose output no gate before it reads. -/
theorem SteadyAt.step {done : List (Fin gates.length)} {u : Fin gates.length} {values : Nat → Bool}
    (h : SteadyAt gates.get before done values) (fresh : u ∉ done)
    (unread : ∀ v ∈ done, ¬ Edge (readers gates) u v) :
    ∃ values', logicEval values (gates.get u) = some values' ∧
      SteadyAt gates.get before (done ++ [u]) values' := by
  rw [logicEval]
  cases output : (gates.get u).output with
  | none =>
    refine ⟨values, rfl, ?_, ?_⟩
    · intro v hv
      rcases List.mem_append.1 hv with old | new
      · exact h.steady v old
      · obtain rfl := List.mem_singleton.1 new
        intro out drives
        rw [output] at drives
        cases drives
    · intro v hv
      exact h.later v fun old => hv (List.mem_append_left _ old)
  | some out =>
    have apart : ∀ v, v ≠ u → (gates.get v).output ≠ some out := by
      intro v ne drives
      have some_out : (gates.get v).output ≠ none := by
        rw [drives]
        exact Option.some_ne_none out
      exact ne (one v u some_out (drives.trans output.symm))
    dsimp only
    rw [gateResult_eq (exist (gates.get u) (List.get_mem _ _)), Option.map_some]
    refine ⟨_, rfl, ?_, ?_⟩
    · intro v hv out' drives
      rcases List.mem_append.1 hv with old | new
      · have ne : v ≠ u := fun same => fresh (same ▸ old)
        have other : out' ≠ out := fun same => apart v ne (same ▸ drives)
        rw [Function.update_of_ne other, h.steady v old out' drives]
        refine congrArg _ (LogicGate.inputValues_congr fun w reads => ?_)
        have kept : w ≠ out := by
          rintro rfl
          exact unread v old (edge_readers.2 ⟨ne.symm, w, output, reads⟩)
        by_cases own : w = out'
        · rw [own, Function.update_self, Function.update_self]
        · rw [Function.update_of_ne own, Function.update_of_ne own, Function.update_of_ne kept]
      · obtain rfl := List.mem_singleton.1 new
        obtain rfl : out = out' := Option.some_inj.1 (output.symm.trans drives)
        rw [Function.update_self, Function.update_idem, ← h.later v fresh out output, Function.update_eq_self]
    · intro v hv out' drives
      rw [List.mem_append, List.mem_singleton, not_or] at hv
      have other : out' ≠ out := fun same => apart v hv.2 (same ▸ drives)
      rw [Function.update_of_ne other]
      exact h.later v hv.1 out' drives

/-- The whole pass, in a sorted order. -/
theorem SteadyAt.run {order : List (Fin gates.length)} (nodup : order.Nodup)
    (sorted : TopoSorted (readers gates) order) (rest : List (Fin gates.length)) :
    ∀ done values, order = done ++ rest → SteadyAt gates.get before done values →
      ∃ values', (rest.map fun u => (u.val : Int)).foldlM (evaluateStep gates) values = some values' ∧
        SteadyAt gates.get before order values' := by
  induction rest with
  | nil =>
    rintro done values rfl h
    rw [List.append_nil]
    exact ⟨values, rfl, h⟩
  | cons u rest ih =>
    intro done values split h
    rw [split] at nodup sorted
    have fresh : u ∉ done := fun mem => (List.nodup_append.1 nodup).2.2 u mem u List.mem_cons_self rfl
    obtain ⟨values', eval, h'⟩ := h.step one exist fresh fun v mem => sorted.not_edge_back nodup mem
    obtain ⟨values'', run, steady⟩ := ih (done ++ [u]) values' (by rw [split, List.append_assoc]; rfl) h'
    refine ⟨values'', ?_, steady⟩
    rw [List.map_cons, List.foldlM_cons]
    have bounds : (0 : Int) ≤ u.val ∧ (u.val : Int) < gates.length := by omega
    rw [evaluateStep, dif_pos bounds]
    simp only [Int.toNat_natCast]
    rw [show gates.get ⟨u.val, u.isLt⟩ = gates.get u from rfl, eval]
    exact run

end Pass

/-! ## The evaluation -/

theorem evaluate_sorted (net : GateNetwork) (one : OneDriver net.gates)
    (exist : ∀ gate ∈ net.gates, gate.InputsExist) (sorted : net.sorted = true) :
    ∃ values, (net.order.take net.gates.length).foldlM (evaluateStep net.gates) net.values = some values ∧
      ∀ gate ∈ net.gates, SteadyGate gate net.values values := by
  have acyclic := (kahnOrder_full_iff net.gates).1 (net.fresh sorted).1
  have perm := kahnOrder_perm acyclic
  have nodup : (kahnOrder net.gates).Nodup := perm.nodup_iff.2 (List.nodup_finRange _)
  have start : SteadyAt net.gates.get net.values [] net.values := by
    constructor
    · intro u mem
      cases mem
    · intro _ _ _ _
      rfl
  obtain ⟨values, run, steady⟩ := SteadyAt.run one exist nodup (kahnOrder_sorted net.gates)
    (kahnOrder net.gates) [] net.values rfl start
  refine ⟨values, by rw [net.order_eq sorted, run], ?_⟩
  intro gate mem
  obtain ⟨u, lt, rfl⟩ := List.getElem_of_mem mem
  exact steady.steady ⟨u, lt⟩ (perm.symm.subset (List.mem_finRange _))

/-- **After one evaluation of a network without cycles every gate is steady**; a gate that reads its own
output with the old value of that output. -/
theorem gate_net_evaluate_steady (net : GateNetwork) (one : OneDriver net.gates)
    (exist : ∀ gate ∈ net.gates, gate.InputsExist) (acyclic : gateNetIsCyclic net = some false) :
    ∃ net', gateNetEvaluate net = some net' ∧ net'.gates = net.gates ∧
      ∀ gate ∈ net.gates, ∀ out, gate.output = some out →
        net'.values out = gateFunction gate.type
            (gate.inputValues (Function.update net'.values out (net.values out))) ∧
          (¬ gate.ReadsSelf → net'.values out = gateFunction gate.type (gate.inputValues net'.values)) := by
  have own : ∀ (gate : LogicGate) (values : Nat → Bool), SteadyGate gate net.values values →
      ∀ out, gate.output = some out →
        values out = gateFunction gate.type (gate.inputValues (Function.update values out (net.values out))) ∧
          (¬ gate.ReadsSelf → values out = gateFunction gate.type (gate.inputValues values)) := by
    intro gate values steady out drives
    refine ⟨steady out drives, fun noSelf => ?_⟩
    rw [steady out drives]
    refine congrArg _ (LogicGate.inputValues_congr fun w reads => Function.update_of_ne ?_ _ _)
    rintro rfl
    exact noSelf ⟨by rw [drives]; exact Option.some_ne_none w, by rwa [drives]⟩
  rw [gateNetIsCyclic_eq, Option.some_inj, Bool.not_eq_false'] at acyclic
  rw [gateNetEvaluate]
  by_cases stale : net.sorted = false
  · rw [if_pos stale]
    have gates := gateNetTopoSort_gates net
    obtain ⟨values, run, steady⟩ := evaluate_sorted (gateNetTopoSort net).1 (by rwa [gates]) (by rwa [gates])
      ((gateNetTopoSort_flag net).trans acyclic)
    rw [gateNetTopoSort_values, gates] at steady
    refine ⟨{ (gateNetTopoSort net).1 with values := values }, by rw [run, Option.map_some], gates, fun gate mem => own gate values (steady gate mem)⟩
  · rw [if_neg stale]
    obtain ⟨values, run, steady⟩ := evaluate_sorted net one exist (by simpa using stale)
    exact ⟨{ net with values := values }, by rw [run, Option.map_some], rfl, fun gate mem => own gate values (steady gate mem)⟩

theorem gate_net_evaluate_steady_invertTwice :
    OneDriver invertTwice.gates ∧ (∀ gate ∈ invertTwice.gates, gate.InputsExist) ∧
      gateNetIsCyclic invertTwice = some false ∧
      ∃ net', gateNetEvaluate invertTwice = some net' ∧ net'.values 1 = !net'.values 0 := by
  have one : OneDriver invertTwice.gates := by
    unfold OneDriver
    decide
  have exist : ∀ gate ∈ invertTwice.gates, gate.InputsExist := by
    intro gate mem
    constructor
    · revert gate
      decide
    · revert gate
      decide
  have acyclic : gateNetIsCyclic invertTwice = some false := by decide
  obtain ⟨net', run, _, steady⟩ := gate_net_evaluate_steady invertTwice one exist acyclic
  refine ⟨one, exist, acyclic, net', run, ?_⟩
  exact (steady ⟨.not, [some 0], some 1⟩ (by decide) 1 rfl).2 (by unfold LogicGate.ReadsSelf; decide)

/-- An inverter of its own output. -/
def selfInverter : GateNetwork := (gateNetAddGate (gateNetAddWire gateNetCreate).1 .not [0] 0).1

/-- It counts as free of cycles and never is steady. -/
theorem gate_net_evaluate_selfInverter :
    OneDriver selfInverter.gates ∧ (∀ gate ∈ selfInverter.gates, gate.InputsExist) ∧
      gateNetIsCyclic selfInverter = some false ∧ (gateNetEvaluate selfInverter).isSome = true ∧
      ¬ ∃ net', gateNetEvaluate selfInverter = some net' ∧
        ∀ gate ∈ selfInverter.gates, ∀ out, gate.output = some out →
          net'.values out = gateFunction gate.type (gate.inputValues net'.values) := by
  refine ⟨?_, ?_, by decide, by decide, ?_⟩
  · unfold OneDriver
    decide
  · intro gate mem
    constructor
    · revert gate
      decide
    · revert gate
      decide
  · rintro ⟨net', _, steady⟩
    have inverted : net'.values 0 = !net'.values 0 := steady ⟨.not, [some 0], some 0⟩ (by decide) 0 rfl
    cases h : net'.values 0 <;> simp [h] at inverted

end MiniHardware.Digital
