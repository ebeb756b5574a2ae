import Mathlib.Data.List.TakeWhile
import MiniHardware.Digital.Fsm

/-!
# The string matching machine (`mini-digital-circuit/src/fsm.c`)

`fsm_kmp_build` adds a transition for each of 256 bytes to each state, but a
machine has room for `FSM_MAX_TRANSITIONS` = 256, which are those of the first
state. So the machine moves on the first byte of the pattern and then stays
where it is (`fsmKmp_accepts_iff`).
-/

namespace MiniHardware.Digital
open Lib

/-- The length of a string that ends before the first 0. -/
def strlen (s : List UInt8) : Nat := (s.takeWhile (· ≠ 0)).length

/-- The test of the loop over `k`: on the byte `c`, the last `k` bytes read in state `i` are the
first `k` of the pattern. -/
def kmpBorder (pattern : List UInt8) (i c k : Nat) : Bool :=
  decide (c = (pattern.getD (k - 1) 0).toNat) &&
    (List.range (k - 1)).all fun j => decide (pattern.getD j 0 = pattern.getD (i - k + 1 + j) 0)

/-- The state after state `i` and the byte `c`; the loop runs from `i` down to 1. -/
def kmpNext (pattern : List UInt8) (m i c : Nat) : Nat :=
  if i < m ∧ c = (pattern.getD i 0).toNat then i + 1
  else (((List.range i).map (· + 1)).reverse.find? (kmpBorder pattern i c)).getD 0

/-- The loop that adds the states. -/
def kmpStates (m count : Nat) (fsm : FSM) : FSM :=
  (List.range count).foldl
    (fun fsm i => (fsmAddState fsm 0 (decide (i = 0)) (decide (i = m))).1) fsm

/-- The inner loop that adds the transitions of state `i`. -/
def kmpTransitions (next : Nat → Nat) (i bytes : Nat) (fsm : FSM) : FSM :=
  (List.range bytes).foldl (fun fsm (c : Nat) => fsmAddTransition fsm i c (next c) 0) fsm

def fsmKmpBuild (pattern : List UInt8) : FSM :=
  let m := strlen pattern
  let fsm := kmpStates m (m + 1) (fsmCreate .moore)
  (List.range (m + 1)).foldl (fun fsm i => kmpTransitions (kmpNext pattern m i) i 256 fsm) fsm

/-- `fsm_step` over the bytes of a text. -/
def fsmRun (fsm : FSM) (text : List UInt8) : Option FSM :=
  text.foldlM (fun fsm byte => (fsmStep fsm byte.toNat).map (·.1)) fsm

/-! ## The machine that is built -/

theorem strlen_eq {s : List UInt8} (noNul : 0 ∉ s) : strlen s = s.length := by
  unfold strlen
  rw [List.takeWhile_eq_self_iff.2]
  intro b mem
  rw [decide_eq_true_eq]
  rintro rfl
  exact noNul mem

/-- The states of the machine of a pattern of `m` bytes, with the transitions of the first state. -/
def kmpMachine (m state : Nat) (next : Nat → Nat) : FSM where
  type := .moore
  states := (List.range (m + 1)).map fun i => ⟨0, decide (i = 0), decide (i = m), i⟩
  transitions := (List.range 256).map fun (c : Nat) => ⟨0, (c : Int), next c, 0⟩
  currentState := state
  lastOutput := 0

theorem kmpStates_eq (m : Nat) {count : Nat} (le : count ≤ fsmMaxStates) :
    kmpStates m count (fsmCreate .moore) =
      { fsmCreate .moore with
        states := (List.range count).map fun i => ⟨0, decide (i = 0), decide (i = m), i⟩ } := by
  induction count with
  | zero => rfl
  | succ count ih =>
    have step : kmpStates m (count + 1) (fsmCreate .moore) =
        (fsmAddState (kmpStates m count (fsmCreate .moore)) 0 (decide (count = 0)) (decide (count = m))).1 := by
      unfold kmpStates
      rw [List.range_succ, List.foldl_append]
      rfl
    rw [step, ih (by omega)]
    unfold fsmAddState
    rw [if_neg (by simp only [FSM.stateCount, List.length_map, List.length_range]; omega)]
    rw [List.range_succ, List.map_append]
    simp only [FSM.stateCount, List.length_map, List.length_range, fsmCreate, List.map_cons, List.map_nil]
    congr 1
    split
    · rename_i h
      exact of_decide_eq_true h
    · rfl

theorem kmpTransitions_eq (next : Nat → Nat) (i : Nat) {bytes : Nat} (le : bytes ≤ fsmMaxTransitions) {fsm : FSM}
    (empty : fsm.transitions = []) :
    kmpTransitions next i bytes fsm =
      { fsm with transitions := (List.range bytes).map fun (c : Nat) => ⟨i, (c : Int), next c, 0⟩ } := by
  induction bytes with
  | zero =>
    show fsm = { fsm with transitions := [] }
    rw [← empty]
  | succ bytes ih =>
    have step : kmpTransitions next i (bytes + 1) fsm =
        fsmAddTransition (kmpTransitions next i bytes fsm) i bytes (next bytes) 0 := by
      unfold kmpTransitions
      rw [List.range_succ, List.foldl_append]
      rfl
    rw [step, ih (by omega)]
    unfold fsmAddTransition
    rw [if_neg (by simp only [List.length_map, List.length_range]; omega), List.range_succ, List.map_append]
    rfl

/-- A full table takes no more transitions. -/
theorem kmpTransitions_full (next : Nat → Nat) (i bytes : Nat) {fsm : FSM}
    (full : fsmMaxTransitions ≤ fsm.transitions.length) : kmpTransitions next i bytes fsm = fsm := by
  unfold kmpTransitions
  apply List.foldl_fixed'
  intro c
  unfold fsmAddTransition
  rw [if_pos full]

theorem fsmKmpBuild_eq {pattern : List UInt8} (noNul : 0 ∉ pattern) (fits : pattern.length < fsmMaxStates) :
    fsmKmpBuild pattern = kmpMachine pattern.length 0 (kmpNext pattern pattern.length 0) := by
  have first : kmpTransitions (kmpNext pattern pattern.length 0) 0 256
      (kmpStates pattern.length (pattern.length + 1) (fsmCreate .moore)) =
        kmpMachine pattern.length 0 (kmpNext pattern pattern.length 0) := by
    rw [kmpStates_eq _ (by omega), kmpTransitions_eq _ _ le_rfl rfl]
    rfl
  unfold fsmKmpBuild
  dsimp only
  rw [strlen_eq noNul, List.range_succ_eq_map, List.foldl_cons, first, List.foldl_map]
  refine List.foldl_fixed' (fun i => ?_) _
  exact kmpTransitions_full _ _ _ (by simp [kmpMachine])

/-! ## Its runs -/

section Run

variable {m : Nat} {next : Nat → Nat}

/-- In the first state every byte has its transition. -/
theorem kmpMachine_find_first (byte : UInt8) :
    (kmpMachine m 0 next).find 0 byte.toNat = some ⟨0, byte.toNat, next byte.toNat, 0⟩ := by
  have found : (List.range 256).find? (fun (c : Nat) => decide (0 = 0 ∧ (c : Int) = byte.toNat)) =
      some byte.toNat := by
    rw [List.find?_range_eq_some]
    refine ⟨by simp, List.mem_range.2 byte.toNat_lt, fun j lt => ?_⟩
    simp
    omega
  unfold FSM.find kmpMachine
  rw [List.find?_map]
  exact congrArg (Option.map _) found

/-- In another state no byte has one. -/
theorem kmpMachine_find_other {s : Nat} (ne : s ≠ 0) (input : Int) :
    (kmpMachine m s next).find s input = none := by
  unfold FSM.find kmpMachine
  rw [List.find?_eq_none]
  intro t mem
  obtain ⟨c, -, rfl⟩ := List.mem_map.1 mem
  simp only [decide_eq_true_eq]
  exact fun h => ne h.1.symm

/-- A step that finds a transition into one of the states. -/
theorem kmpMachine_step_first (byte : UInt8) (inside : next byte.toNat ≤ m) :
    (fsmStep (kmpMachine m 0 next) byte.toNat).map (·.1) = some (kmpMachine m (next byte.toNat) next) := by
  have target : (kmpMachine m 0 next).states[next byte.toNat]? =
      some ⟨0, decide (next byte.toNat = 0), decide (next byte.toNat = m), next byte.toNat⟩ := by
    unfold kmpMachine
    rw [List.getElem?_map, List.getElem?_range (by omega)]
    rfl
  unfold fsmStep
  rw [show (kmpMachine m 0 next).currentState = 0 from rfl, kmpMachine_find_first]
  dsimp only
  rw [target]
  rfl

theorem kmpMachine_step_other {s : Nat} (ne : s ≠ 0) (byte : UInt8) :
    (fsmStep (kmpMachine m s next) byte.toNat).map (·.1) = some (kmpMachine m s next) := by
  unfold fsmStep
  rw [show (kmpMachine m s next).currentState = s from rfl, kmpMachine_find_other ne]
  rfl

theorem kmpMachine_run_other {s : Nat} (ne : s ≠ 0) (text : List UInt8) :
    fsmRun (kmpMachine m s next) text = some (kmpMachine m s next) := by
  unfold fsmRun
  induction text with
  | nil => rfl
  | cons byte text ih =>
    rw [List.foldlM_cons, kmpMachine_step_other ne]
    exact ih

theorem kmpMachine_run_empty (step : ∀ byte : UInt8, next byte.toNat = 0) (text : List UInt8) :
    fsmRun (kmpMachine m 0 next) text = some (kmpMachine m 0 next) := by
  unfold fsmRun
  induction text with
  | nil => rfl
  | cons byte text ih =>
    rw [List.foldlM_cons, kmpMachine_step_first byte (by rw [step]; exact Nat.zero_le m), step]
    exact ih

/-- The machine is in state 1 once it has read the first byte of the pattern. -/
theorem kmpMachine_run {first : UInt8} (pos : 0 < m)
    (step : ∀ byte : UInt8, next byte.toNat = if byte = first then 1 else 0) (text : List UInt8) :
    fsmRun (kmpMachine m 0 next) text = some (kmpMachine m (if first ∈ text then 1 else 0) next) := by
  induction text with
  | nil => rfl
  | cons byte text ih =>
    have one : (fsmStep (kmpMachine m 0 next) byte.toNat).map (·.1) =
        some (kmpMachine m (if byte = first then 1 else 0) next) := by
      rw [kmpMachine_step_first byte (by rw [step]; split <;> omega), step]
    unfold fsmRun at ih ⊢
    rw [List.foldlM_cons, one]
    by_cases h : byte = first
    · rw [if_pos h, if_pos (h ▸ List.mem_cons_self)]
      exact kmpMachine_run_other Nat.one_ne_zero text
    · rw [if_neg h]
      refine ih.trans ?_
      have mem : first ∈ byte :: text ↔ first ∈ text := by
        rw [List.mem_cons]
        exact or_iff_right fun eq => h eq.symm
      simp only [mem]

theorem kmpMachine_isAccept {s : Nat} (le : s ≤ m) :
    fsmIsAccept (kmpMachine m s next) = decide (s = m) := by
  have state : (kmpMachine m s next).states[s]? = some ⟨0, decide (s = 0), decide (s = m), s⟩ := by
    unfold kmpMachine
    rw [List.getElem?_map, List.getElem?_range (by omega)]
    rfl
  unfold fsmIsAccept
  rw [show (kmpMachine m s next).currentState = s from rfl, state]

end Run

/-- From the first state the first byte of the pattern leads to state 1, another one back. -/
theorem kmpNext_first (first : UInt8) (rest : List UInt8) (byte : UInt8) :
    kmpNext (first :: rest) (first :: rest).length 0 byte.toNat = if byte = first then 1 else 0 := by
  unfold kmpNext
  simp only [List.length_cons, Nat.zero_lt_succ, true_and, List.getD_cons_zero, List.range_zero,
    List.map_nil, List.reverse_nil, List.find?_nil, Option.getD_none, UInt8.toNat_inj, Nat.zero_add]

/-- The state after a text. -/
def kmpState (pattern text : List UInt8) : Nat :=
  match pattern with
  | [] => 0
  | first :: _ => if first ∈ text then 1 else 0

theorem kmpState_le (pattern text : List UInt8) : kmpState pattern text ≤ pattern.length := by
  cases pattern with
  | nil => exact le_rfl
  | cons first rest =>
    show (if first ∈ text then 1 else 0) ≤ rest.length + 1
    split <;> omega

theorem kmpMachine_run_pattern (pattern text : List UInt8) :
    fsmRun (kmpMachine pattern.length 0 (kmpNext pattern pattern.length 0)) text =
      some (kmpMachine pattern.length (kmpState pattern text) (kmpNext pattern pattern.length 0)) := by
  cases pattern with
  | nil => exact kmpMachine_run_empty (fun _ => rfl) text
  | cons first rest => exact kmpMachine_run (Nat.succ_pos _) (kmpNext_first first rest) text

/-- The machine after a text. -/
theorem fsmKmp_run {pattern : List UInt8} (noNul : 0 ∉ pattern) (fits : pattern.length < fsmMaxStates)
    (text : List UInt8) :
    ∃ fsm, fsmRun (fsmKmpBuild pattern) text = some fsm ∧
      fsmIsAccept fsm = decide (kmpState pattern text = pattern.length) := by
  rw [fsmKmpBuild_eq noNul fits, kmpMachine_run_pattern]
  exact ⟨_, rfl, kmpMachine_isAccept (kmpState_le pattern text)⟩

/-- The texts after which acceptance is right. -/
def KmpRight (pattern text : List UInt8) : Prop :=
  match pattern with
  | [] => True
  | [byte] => byte ∉ text ∨ [byte] <:+ text
  | _ :: _ :: _ => ¬ pattern <:+ text

/-- Acceptance says whether the text ends with the pattern if and only if the pattern is empty, or
of one byte, which is the last one of the text or not in it, or longer and the text does not end
with it. -/
theorem fsmKmp_accepts_iff (pattern text : List UInt8) (noNul : 0 ∉ pattern)
    (fits : pattern.length < fsmMaxStates) :
    ∃ fsm, fsmRun (fsmKmpBuild pattern) text = some fsm ∧
      ((fsmIsAccept fsm = true ↔ pattern <:+ text) ↔ KmpRight pattern text) := by
  obtain ⟨fsm, run, accept⟩ := fsmKmp_run noNul fits text
  have accepts : fsmIsAccept fsm = true ↔ kmpState pattern text = pattern.length := by
    rw [accept]
    exact decide_eq_true_iff
  refine ⟨fsm, run, ?_⟩
  rw [accepts]
  clear run accept accepts
  match pattern with
  | [] => exact iff_of_true (iff_of_true rfl List.nil_suffix) trivial
  | [byte] =>
    have mem : [byte] <:+ text → byte ∈ text := fun h => h.subset List.mem_cons_self
    show ((if byte ∈ text then 1 else 0) = 1 ↔ [byte] <:+ text) ↔ (byte ∉ text ∨ [byte] <:+ text)
    by_cases h : byte ∈ text
    · simp [h]
    · simp only [h, if_false, Nat.zero_ne_one, false_iff, not_false_eq_true, true_or, iff_true]
      exact fun suffix => h (mem suffix)
  | first :: second :: rest =>
    have less : kmpState (first :: second :: rest) text ≠ (first :: second :: rest).length := by
      show (if first ∈ text then 1 else 0) ≠ rest.length + 2
      split <;> omega
    show (_ ↔ _) ↔ ¬ first :: second :: rest <:+ text
    simp only [less, false_iff]

theorem fsmKmp_accepts_iff_byte :
    ∃ fsm, fsmRun (fsmKmpBuild [97]) [98, 97] = some fsm ∧
      ((fsmIsAccept fsm = true ↔ [97] <:+ ([98, 97] : List UInt8)) ↔ KmpRight [97] [98, 97]) :=
  fsmKmp_accepts_iff [97] [98, 97] (by decide) (by decide)

/-- The machine of a pattern of two bytes does not accept the pattern. -/
theorem fsmKmp_misses_pattern :
    ([97, 98] : List UInt8) <:+ [97, 98] ∧
      ∃ fsm, fsmRun (fsmKmpBuild [97, 98]) [97, 98] = some fsm ∧ fsmIsAccept fsm = false := by
  obtain ⟨fsm, run, accept⟩ := @fsmKmp_run [97, 98] (by decide) (by decide) [97, 98]
  exact ⟨List.suffix_rfl, fsm, run, accept.trans (by decide)⟩

end MiniHardware.Digital
