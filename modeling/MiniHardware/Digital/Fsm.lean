import MiniHardware.Lib.Trace

/-!
# Finite state machines (`mini-digital-circuit/src/fsm.c`)

The arrays `states` and `transitions` with their counts are lists of at most
`FSM_MAX_STATES` and `FSM_MAX_TRANSITIONS` elements. The names of the states
are only printed and are left out. A step into a state that is not there reads
outside of `states`; it has no result.
-/

namespace MiniHardware.Digital
open Lib

/-- `FSM_MAX_STATES`. -/
abbrev fsmMaxStates : Nat := 64

/-- `FSM_MAX_TRANSITIONS`. -/
abbrev fsmMaxTransitions : Nat := 256

inductive FSMType where
  | moore | mealy
deriving DecidableEq

structure FSMState where
  mooreOutput : Int
  isInitial : Bool
  isAccept : Bool
  encoding : Nat

structure FSMTransition where
  fromState : Nat
  input : Int
  toState : Nat
  mealyOutput : Int

structure FSM where
  type : FSMType
  states : List FSMState
  transitions : List FSMTransition
  currentState : Nat
  lastOutput : Int

namespace FSM

abbrev stateCount (fsm : FSM) : Nat := fsm.states.length

/-- The first transition from the state with the input. -/
def find (fsm : FSM) (state : Nat) (input : Int) : Option FSMTransition :=
  fsm.transitions.find? fun t => decide (t.fromState = state ∧ t.input = input)

end FSM

def fsmCreate (type : FSMType) : FSM := ⟨type, [], [], 0, 0⟩

/-- `-1` is `none`. -/
def fsmAddState (fsm : FSM) (mooreOutput : Int) (isInitial isAccept : Bool) : FSM × Option Nat :=
  if fsm.stateCount ≥ fsmMaxStates then (fsm, none)
  else
    ({ fsm with
        states := fsm.states ++ [⟨mooreOutput, isInitial, isAccept, fsm.stateCount⟩]
        currentState := if isInitial then fsm.stateCount else fsm.currentState },
      some fsm.stateCount)

def fsmAddTransition (fsm : FSM) (fromState : Nat) (input : Int) (toState : Nat) (mealyOutput : Int) : FSM :=
  if fsm.transitions.length ≥ fsmMaxTransitions then fsm
  else { fsm with transitions := fsm.transitions ++ [⟨fromState, input, toState, mealyOutput⟩] }

/-- The machine after the step and the state returned. -/
def fsmStep (fsm : FSM) (input : Int) : Option (FSM × Nat) :=
  match fsm.find fsm.currentState input with
  | some t =>
    match fsm.states[t.toState]? with
    | some target =>
      some
        ({ fsm with
            currentState := t.toState
            lastOutput := if fsm.type = .mealy then t.mealyOutput else target.mooreOutput },
          t.toState)
    | none => none
  | none => some (fsm, fsm.currentState)

theorem fsmStep_of_find {fsm : FSM} {input : Int} {t : FSMTransition} {target : FSMState}
    (found : fsm.find fsm.currentState input = some t) (inside : fsm.states[t.toState]? = some target) :
    fsmStep fsm input =
      some
        ({ fsm with
            currentState := t.toState
            lastOutput := if fsm.type = .mealy then t.mealyOutput else target.mooreOutput },
          t.toState) := by
  unfold fsmStep
  rw [found]
  dsimp only
  rw [inside]

def fsmIsAccept (fsm : FSM) : Bool :=
  match fsm.states[fsm.currentState]? with
  | some s => s.isAccept
  | none => false

end MiniHardware.Digital
