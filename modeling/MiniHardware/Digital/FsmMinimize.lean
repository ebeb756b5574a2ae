import MiniHardware.Lib.Moore
import MiniHardware.Digital.Fsm

/-!
# State minimization (`mini-digital-circuit/src/fsm.c`)

`fsm_minimize` merges states with the same Moore output and acceptance and
never looks at their successors. So it counts the partition by outputs, which
is the state equivalence exactly if it is stable (`fsmMinimize_counts_iff`).
-/

namespace MiniHardware.Digital
open Lib

variable {n : Nat}

/-- The loop over `k`: the class of `old` joins that of `i`. -/
def joinClass (equiv : Fin n → Fin n) (i old : Fin n) : Fin n → Fin n :=
  (List.finRange n).foldl
    (fun equiv k => if equiv k = old then Function.update equiv k (equiv i) else equiv) equiv

namespace FSM

/-- What `fsm_minimize` compares. -/
def output (fsm : FSM) (s : Fin fsm.stateCount) : Int × Bool :=
  ((fsm.states.get s).mooreOutput, (fsm.states.get s).isAccept)

/-- The body of the loops over `i` and `j`, with the flag `changed`. -/
def mergePair (fsm : FSM) (i : Fin fsm.stateCount) (acc : (Fin fsm.stateCount → Fin fsm.stateCount) × Bool)
    (j : Fin fsm.stateCount) : (Fin fsm.stateCount → Fin fsm.stateCount) × Bool :=
  if acc.1 i = acc.1 j then acc
  else if (fsm.states.get i).mooreOutput ≠ (fsm.states.get j).mooreOutput then acc
  else if (fsm.states.get i).isAccept ≠ (fsm.states.get j).isAccept then acc
  else (joinClass acc.1 i (acc.1 j), true)

/-- The body of the `while` loop. -/
def mergePass (fsm : FSM) (equiv : Fin fsm.stateCount → Fin fsm.stateCount) :
    (Fin fsm.stateCount → Fin fsm.stateCount) × Bool :=
  (List.finRange fsm.stateCount).foldl
    (fun acc i => ((List.finRange fsm.stateCount).drop (i.val + 1)).foldl (fsm.mergePair i) acc)
    (equiv, false)

/-- The `while` loop, for at most `fuel` rounds. -/
def mergeLoop (fsm : FSM) : Nat → (Fin fsm.stateCount → Fin fsm.stateCount) →
    Option (Fin fsm.stateCount → Fin fsm.stateCount)
  | 0, _ => none
  | fuel + 1, equiv =>
    let (equiv, changed) := fsm.mergePass equiv
    if changed then fsm.mergeLoop fuel equiv else some equiv

end FSM

/-- `none` if the `while` loop takes more than `fuel` rounds. -/
def fsmMinimize (fuel : Nat) (fsm : FSM) : Option Nat :=
  if fsm.stateCount ≤ 1 then some fsm.stateCount
  else
    (fsm.mergeLoop fuel id).map fun equiv =>
      (List.finRange fsm.stateCount).countP fun i => decide (equiv i = i)

/-! ## The loops -/

theorem joinClass_apply {equiv : Fin n → Fin n} {i old : Fin n} (ne : equiv i ≠ old) (k : Fin n) :
    joinClass equiv i old k = if equiv k = old then equiv i else equiv k := by
  have loop := finRange_foldl_invariant
    (f := fun (e : Fin n → Fin n) k => if e k = old then Function.update e k (e i) else e)
    (motive := fun m e => ∀ k, e k = if k.val < m ∧ equiv k = old then equiv i else equiv k)
    (s := equiv) (fun k => by simp) ?_
  · rw [joinClass, loop k]
    simp
  · intro m e inv k
    have here : e i = equiv i := by
      rw [inv i, if_neg fun h => ne h.2]
    have at_m : e m = equiv m := by
      rw [inv m, if_neg fun h => absurd h.1 (Nat.lt_irrefl _)]
    rcases eq_or_ne k m with rfl | other
    · by_cases h : equiv k = old
      · rw [at_m, if_pos h, Function.update_self, here, if_pos ⟨Nat.lt_succ_self _, h⟩]
      · rw [at_m, if_neg h, at_m, if_neg fun h' => h h'.2]
    · have value : (if e m = old then Function.update e m (e i) else e) k = e k := by
        split
        · exact Function.update_of_ne other _ _
        · rfl
      have less : k.val < m + 1 ↔ k.val < m := by
        have := Fin.val_ne_of_ne other
        omega
      rw [value, inv k]
      simp only [less]

namespace FSM

variable {fsm : FSM} {equiv : Fin fsm.stateCount → Fin fsm.stateCount}

/-- `equiv` names a member of each class, of states with the same output. -/
structure Named (fsm : FSM) (equiv : Fin fsm.stateCount → Fin fsm.stateCount) : Prop where
  idem : ∀ k, equiv (equiv k) = equiv k
  output : ∀ k, fsm.output (equiv k) = fsm.output k

theorem named_id (fsm : FSM) : fsm.Named id := ⟨fun _ => rfl, fun _ => rfl⟩

/-- All states with the same output are in one class. -/
def Merged (fsm : FSM) (equiv : Fin fsm.stateCount → Fin fsm.stateCount) : Prop :=
  ∀ i j, fsm.output i = fsm.output j → equiv i = equiv j

theorem Named.join (named : fsm.Named equiv) {i j : Fin fsm.stateCount} (ne : equiv i ≠ equiv j)
    (same : fsm.output i = fsm.output j) : fsm.Named (joinClass equiv i (equiv j)) := by
  have apply_eq := joinClass_apply (i := i) ne
  refine ⟨fun k => ?_, fun k => ?_⟩
  · rw [apply_eq k]
    split
    · rw [apply_eq, named.idem, if_neg ne]
    · rename_i other
      rw [apply_eq, named.idem, if_neg other]
  · rw [apply_eq k]
    split
    · rename_i eq
      calc fsm.output (equiv i) = fsm.output i := named.output i
        _ = fsm.output j := same
        _ = fsm.output (equiv j) := (named.output j).symm
        _ = fsm.output (equiv k) := by rw [eq]
        _ = fsm.output k := named.output k
    · exact named.output k

/-- What one round of the inner loops does: classes only join, and those of the pair do if its
outputs are the same. -/
structure PairDone (fsm : FSM) (i j : Fin fsm.stateCount)
    (equiv equiv' : Fin fsm.stateCount → Fin fsm.stateCount) : Prop where
  named : fsm.Named equiv'
  kept : ∀ a b, equiv a = equiv b → equiv' a = equiv' b
  pair : fsm.output i = fsm.output j → equiv' i = equiv' j

theorem mergePair_done (named : fsm.Named equiv) (changed : Bool) (i j : Fin fsm.stateCount) :
    fsm.PairDone i j equiv (fsm.mergePair i (equiv, changed) j).1 := by
  have apart (ne : fsm.output i ≠ fsm.output j) : fsm.PairDone i j equiv equiv :=
    ⟨named, fun _ _ h => h, fun h => absurd h ne⟩
  unfold mergePair
  split
  · rename_i eq
    exact ⟨named, fun _ _ h => h, fun _ => eq⟩
  · rename_i ne
    split
    · rename_i outputs
      exact apart fun h => outputs (congrArg Prod.fst h)
    · rename_i outputs
      split
      · rename_i accepts
        exact apart fun h => accepts (congrArg Prod.snd h)
      · rename_i accepts
        have same : fsm.output i = fsm.output j :=
          Prod.ext (Classical.not_not.1 outputs) (Classical.not_not.1 accepts)
        have apply_eq (k : Fin fsm.stateCount) : joinClass equiv i (equiv j) k =
            if equiv k = equiv j then equiv i else equiv k := joinClass_apply ne k
        refine ⟨named.join ne same, fun a b h => ?_, fun _ => ?_⟩
        · show joinClass equiv i (equiv j) a = joinClass equiv i (equiv j) b
          rw [apply_eq, apply_eq, h]
        · show joinClass equiv i (equiv j) i = joinClass equiv i (equiv j) j
          rw [apply_eq, apply_eq, if_neg ne, if_pos rfl]

theorem mergePair_of_merged (merged : fsm.Merged equiv) (changed : Bool) (i j : Fin fsm.stateCount) :
    fsm.mergePair i (equiv, changed) j = (equiv, changed) := by
  unfold mergePair
  split
  · rfl
  · rename_i ne
    split
    · rfl
    · rename_i outputs
      rw [if_pos]
      intro accepts
      exact ne (merged i j (Prod.ext (Classical.not_not.1 outputs) accepts))

/-- A round of the `while` loop merges all states with the same output. -/
theorem mergePass_merged (named : fsm.Named equiv) :
    fsm.Named (fsm.mergePass equiv).1 ∧ fsm.Merged (fsm.mergePass equiv).1 := by
  -- `i` counts the rows of pairs that are done, `j` the pairs of row `i`
  let rows (i : Nat) (acc : (Fin fsm.stateCount → Fin fsm.stateCount) × Bool) : Prop :=
    fsm.Named acc.1 ∧ ∀ a b : Fin fsm.stateCount, a.val < i → a.val < b.val →
      fsm.output a = fsm.output b → acc.1 a = acc.1 b
  have all : rows fsm.stateCount (fsm.mergePass equiv) := by
    unfold mergePass
    refine finRange_foldl_invariant (motive := rows) ⟨named, fun a _ lt => absurd lt (Nat.not_lt_zero _)⟩ ?_
    intro i acc before
    have row := drop_finRange_foldl_invariant (m := i.val + 1) (f := fsm.mergePair i)
      (motive := fun j acc => rows i acc ∧ ∀ b : Fin fsm.stateCount, i.val < b.val → b.val < j →
        fsm.output i = fsm.output b → acc.1 i = acc.1 b)
      (s := acc) i.isLt ⟨before, fun b lt lt' => absurd lt' (by omega)⟩ ?_
    · refine ⟨row.1.1, fun a b lt less same => ?_⟩
      rcases Nat.lt_succ_iff_lt_or_eq.1 lt with earlier | eq
      · exact row.1.2 a b earlier less same
      · obtain rfl : a = i := Fin.ext eq
        exact row.2 b less b.isLt same
    · rintro j ⟨e, changed⟩ _ ⟨⟨named', earlier⟩, here⟩
      have done := mergePair_done named' changed i j
      refine ⟨⟨done.named, fun a b lt less same => done.kept a b (earlier a b lt less same)⟩, ?_⟩
      intro b less lt same
      rcases Nat.lt_succ_iff_lt_or_eq.1 lt with lt' | eq
      · exact done.kept i b (here b less lt' same)
      · obtain rfl : b = j := Fin.ext eq
        exact done.pair same
  refine ⟨all.1, fun i j same => ?_⟩
  rcases Nat.lt_trichotomy i.val j.val with lt | eq | gt
  · exact all.2 i j i.isLt lt same
  · rw [Fin.ext eq]
  · exact (all.2 j i j.isLt gt same.symm).symm

theorem mergePass_of_merged (merged : fsm.Merged equiv) : fsm.mergePass equiv = (equiv, false) := by
  unfold mergePass
  apply List.foldl_fixed'
  intro i
  apply List.foldl_fixed'
  exact fun j => mergePair_of_merged merged false i j

/-- The `while` loop ends after two rounds at most. -/
theorem mergeLoop_spec (fsm : FSM) (fuel : Nat) :
    ∃ equiv, fsm.mergeLoop (fuel + 2) id = some equiv ∧ fsm.Named equiv ∧ fsm.Merged equiv := by
  obtain ⟨named, merged⟩ := mergePass_merged (named_id fsm)
  refine ⟨(fsm.mergePass id).1, ?_, named, merged⟩
  unfold mergeLoop
  dsimp only
  split
  · unfold mergeLoop
    rw [mergePass_of_merged merged]
    rfl
  · rfl

end FSM

/-- `fsm_minimize` counts the classes of states with the same output. -/
theorem fsmMinimize_eq (fsm : FSM) (fuel : Nat) :
    fsmMinimize (fuel + 2) fsm = some (Nat.card (Quotient (Setoid.ker fsm.output))) := by
  unfold fsmMinimize
  split
  · rename_i le
    have single (s t : Fin fsm.stateCount) : s = t := Fin.ext (by omega)
    rw [@card_quotient_eq_card_fixed _ (Setoid.ker fsm.output) id (fun _ => rfl)
      fun s t => by rw [single s t]; exact iff_of_true rfl rfl]
    simp
  · obtain ⟨equiv, loop, named, merged⟩ := fsm.mergeLoop_spec fuel
    have classes (s t : Fin fsm.stateCount) : equiv s = equiv t ↔ Setoid.ker fsm.output s t := by
      constructor
      · intro eq
        calc fsm.output s = fsm.output (equiv s) := (named.output s).symm
          _ = fsm.output (equiv t) := by rw [eq]
          _ = fsm.output t := named.output t
      · exact merged s t
    rw [loop, card_quotient_eq_card_fixed _ named.idem classes, Nat.card_eq_fintype_card,
      Fintype.card_subtype, Option.map_some, List.countP_eq_length_filter]
    rfl

/-! ## Moore machines -/

/-- A Moore machine with one transition for each state and input. -/
structure MooreMachine where
  fsm : FSM
  inputs : List Int
  moore : fsm.type = .moore
  fits : fsm.stateCount ≤ fsmMaxStates ∧ fsm.transitions.length ≤ fsmMaxTransitions
  inside : ∀ t ∈ fsm.transitions, t.fromState < fsm.stateCount ∧ t.input ∈ inputs ∧ t.toState < fsm.stateCount
  complete : ∀ s < fsm.stateCount, ∀ a ∈ inputs,
    (fsm.transitions.countP fun t => decide (t.fromState = s ∧ t.input = a)) = 1

namespace MooreMachine

abbrev State (m : MooreMachine) : Type := Fin m.fsm.stateCount

abbrev Input (m : MooreMachine) : Type := {a : Int // a ∈ m.inputs}

theorem find_isSome (m : MooreMachine) (s : m.State) (a : m.Input) : (m.fsm.find s a).isSome := by
  apply List.find?_isSome.2
  apply List.countP_pos_iff.1
  rw [m.complete s s.isLt a a.2]
  exact Nat.one_pos

/-- The state after an input. -/
def next (m : MooreMachine) (s : m.State) (a : m.Input) : m.State :=
  let t := (m.fsm.find s a).get (m.find_isSome s a)
  ⟨t.toState, (m.inside t (List.mem_of_find?_eq_some (Option.some_get _).symm)).2.2⟩

/-- This is what `fsm_step` does. -/
theorem fsmStep_eq (m : MooreMachine) (s : m.State) (a : m.Input) :
    fsmStep { m.fsm with currentState := s } a =
      some
        ({ m.fsm with currentState := m.next s a, lastOutput := (m.fsm.output (m.next s a)).1 },
          (m.next s a).val) := by
  have found : m.fsm.find s a = some ((m.fsm.find s a).get (m.find_isSome s a)) :=
    (Option.some_get _).symm
  have target : m.fsm.states[(m.next s a).val]? = some (m.fsm.states.get (m.next s a)) :=
    List.getElem?_eq_getElem (m.next s a).isLt
  rw [@fsmStep_of_find { m.fsm with currentState := s } a _ _ found target]
  dsimp only
  rw [m.moore]
  rfl

end MooreMachine

/-- `fsm_minimize` returns the number of equivalence classes if and only if states with the same
output and acceptance have, on every input, successors with the same output and acceptance. -/
theorem fsmMinimize_counts_iff (m : MooreMachine) (fuel : Nat) :
    ∃ classes, fsmMinimize (fuel + 2) m.fsm = some classes ∧
      (classes = Nat.card (Quotient (equivalent m.next m.fsm.output)) ↔
        StableOutput m.next m.fsm.output) := by
  refine ⟨_, fsmMinimize_eq m.fsm fuel, ?_⟩
  rw [card_quotient_eq_iff equivalent_le_ker, equivalent_eq_ker_iff]

/-- Three states in a row, of which the last one has another output. -/
def threeInARow : MooreMachine where
  fsm :=
    { type := .moore
      states := [⟨0, true, false, 0⟩, ⟨0, false, false, 1⟩, ⟨1, false, false, 2⟩]
      transitions := [⟨0, 0, 1, 0⟩, ⟨1, 0, 2, 0⟩, ⟨2, 0, 2, 0⟩]
      currentState := 0
      lastOutput := 0 }
  inputs := [0]
  moore := rfl
  fits := by decide
  inside := by decide
  complete := by decide

/-- No two of them are equivalent, but two have the same output. -/
theorem fsmMinimize_merges_inequivalent :
    fsmMinimize 2 threeInARow.fsm = some 2 ∧
      Nat.card (Quotient (equivalent threeInARow.next threeInARow.fsm.output)) = 3 := by
  constructor
  · decide
  · have apart : ∀ s t : threeInARow.State, threeInARow.fsm.output s = threeInARow.fsm.output t →
        threeInARow.fsm.output (threeInARow.next s ⟨0, List.mem_singleton_self 0⟩) =
          threeInARow.fsm.output (threeInARow.next t ⟨0, List.mem_singleton_self 0⟩) → s = t := by
      decide
    have classes (s t : threeInARow.State) :
        id s = id t ↔ equivalent threeInARow.next threeInARow.fsm.output s t := by
      constructor
      · rintro rfl
        exact fun _ => rfl
      · exact fun h => apart s t (h []) (h [⟨0, List.mem_singleton_self 0⟩])
    rw [card_quotient_eq_card_fixed _ (fun _ => rfl) classes,
      Nat.card_congr (Equiv.subtypeUnivEquiv fun _ => rfl)]
    exact Nat.card_fin 3

end MiniHardware.Digital
