import Mathlib.Algebra.BigOperators.Fin
import MiniHardware.Lib.Index
import MiniHardware.Lib.Mistakes

/-!
# The perceptron predictor (`mini-computer-arch/src/predictor.c`)

The weights are `int8_t`, and `perceptron_train` adds to them without saturating.
Outcomes that a fixed weighing of the history bits decides with enough margin are
learnt before any weight can wrap round: `perceptron_train` changes the weights
only a bounded number of times, whatever the order of the branches, and every other
branch is predicted right (`perceptron_converges`).
-/

namespace MiniHardware.Arch
open Lib Lib.Counters Lib.Perceptron Matrix

/-- `PRED_PERCEPTRON_WEIGHTS`. -/
abbrev predPerceptronWeights : Nat := 64

/-- `(int32_t)(1.93 * PRED_PERCEPTRON_WEIGHTS + 14)`, of `137.52`. -/
def perceptronThreshold : Int := 137

structure PerceptronPredictor where
  weights : Vector Int8 predPerceptronWeights
  bias : Int
  threshold : Int
  predictions : Nat
  correct : Nat
  trainingIterations : Nat

def perceptronInit : PerceptronPredictor :=
  ⟨Vector.replicate predPerceptronWeights 0, 0, perceptronThreshold, 0, 0, 0⟩

/-- The `sum` of both functions. -/
def perceptronSum (pp : PerceptronPredictor) (history : Vector Int8 predPerceptronWeights) : Int :=
  (List.finRange predPerceptronWeights).foldl
    (fun sum i => sum + (pp.weights.get i).toInt * (history.get i).toInt) pp.bias

def perceptronPredict (pp : PerceptronPredictor) (history : Vector Int8 predPerceptronWeights) :
    Bool × PerceptronPredictor :=
  (decide (0 ≤ perceptronSum pp history), { pp with predictions := pp.predictions + 1 })

/-- Where `perceptron_train` changes the weights. -/
def perceptronTrains (pp : PerceptronPredictor) (history : Vector Int8 predPerceptronWeights) (outcome : Bool) : Bool :=
  let sum := perceptronSum pp history
  decide (0 ≤ sum) != outcome || decide (-pp.threshold ≤ sum) && decide (sum ≤ pp.threshold)

/-- A sum of an `int8_t` with an `int`, put back into the `int8_t`. -/
def addWeight (weight : Int8) (t : Int) (bit : Int8) : Int8 := Int8.ofInt (weight.toInt + t * bit.toInt)

def perceptronTrain (pp : PerceptronPredictor) (history : Vector Int8 predPerceptronWeights) (outcome : Bool) :
    PerceptronPredictor :=
  let pred := decide (0 ≤ perceptronSum pp history)
  let t : Int := if outcome then 1 else -1
  let correct := pp.correct + (pred == outcome).toNat
  if perceptronTrains pp history outcome then
    { pp with
      correct := correct
      bias := pp.bias + t
      weights := Vector.ofFn fun i => addWeight (pp.weights.get i) t (history.get i)
      trainingIterations := pp.trainingIterations + 1 }
  else { pp with correct := correct }

/-- A branch as the predictor sees it. -/
structure Outcome where
  history : Vector Int8 predPerceptronWeights
  outcome : Bool

def trainOn (pp : PerceptronPredictor) (b : Outcome) : PerceptronPredictor := perceptronTrain pp b.history b.outcome

/-! ## Weights as a vector -/

/-- The bias is the weight of an input that is always one. -/
def weighing (pp : PerceptronPredictor) : Option (Fin predPerceptronWeights) → Int
  | none => pp.bias
  | some i => (pp.weights.get i).toInt

def inputs (history : Vector Int8 predPerceptronWeights) : Option (Fin predPerceptronWeights) → Int
  | none => 1
  | some i => (history.get i).toInt

/-- The input, turned so that the outcome is a positive sum. -/
def Outcome.signed (b : Outcome) : Option (Fin predPerceptronWeights) → Int :=
  (if b.outcome then (1 : Int) else -1) • inputs b.history

/-- Every history bit is `1` or `-1`. -/
def Outcome.Bits (b : Outcome) : Prop := ∀ i, b.history.get i = 1 ∨ b.history.get i = -1

/-- The sum of the code is a dot product. -/
theorem perceptronSum_eq (pp : PerceptronPredictor) (history : Vector Int8 predPerceptronWeights) :
    perceptronSum pp history = weighing pp ⬝ᵥ inputs history := by
  have fold (l : List (Fin predPerceptronWeights)) (sum : Int) :
      l.foldl (fun sum i => sum + (pp.weights.get i).toInt * (history.get i).toInt) sum =
        sum + (l.map fun i => (pp.weights.get i).toInt * (history.get i).toInt).sum := by
    induction l generalizing sum with
    | nil => exact (add_zero sum).symm
    | cons i l ih => rw [List.foldl_cons, ih, List.map_cons, List.sum_cons, add_assoc]
  rw [perceptronSum, fold, dotProduct, Fintype.sum_option, Fin.sum_univ_def]
  simp only [weighing, inputs, mul_one]

/-- An input of 1 or -1 has square 1. -/
theorem signed_sq {b : Outcome} (bits : b.Bits) (i : Option (Fin predPerceptronWeights)) :
    b.signed i * b.signed i = 1 := by
  have one : inputs b.history i * inputs b.history i = 1 := by
    cases i with
    | none => rfl
    | some i => rcases bits i with plus | minus <;> rw [inputs] <;> simp [*]
  rw [Outcome.signed, Pi.smul_apply, smul_eq_mul]
  cases b.outcome <;> simpa using one

/-- An input of 1 or -1 has absolute value 1. -/
theorem signed_abs {b : Outcome} (bits : b.Bits) (i : Option (Fin predPerceptronWeights)) : |b.signed i| = 1 := by
  rcases mul_self_eq_one_iff.1 (signed_sq bits i) with one | minus
  · rw [one]
    rfl
  · rw [minus]
    rfl

/-- The 64 inputs and the bias have square 65. -/
theorem signed_dotProduct {b : Outcome} (bits : b.Bits) : b.signed ⬝ᵥ b.signed = 65 := by
  rw [dotProduct, Finset.sum_congr rfl fun i _ => signed_sq bits i, Finset.sum_const, Finset.card_univ,
    Fintype.card_option, Fintype.card_fin]
  rfl

/-- What is still within the weights' type is added as it is. -/
theorem addWeight_toInt {weight bit : Int8} {t : Int} (low : -128 ≤ weight.toInt + t * bit.toInt)
    (high : weight.toInt + t * bit.toInt < 128) : (addWeight weight t bit).toInt = weight.toInt + t * bit.toInt := by
  rw [addWeight, Int8.toInt_ofInt, Int.bmod_eq_of_le low high]

/-- A branch that trains is not predicted right by more than the threshold. -/
theorem trains_margin {pp : PerceptronPredictor} (threshold : pp.threshold = 137) {b : Outcome}
    (trains : perceptronTrains pp b.history b.outcome = true) : weighing pp ⬝ᵥ b.signed ≤ 137 := by
  rw [perceptronTrains, threshold] at trains
  rw [Outcome.signed, dotProduct_smul, ← perceptronSum_eq, smul_eq_mul]
  generalize perceptronSum pp b.history = sum at trains ⊢
  rcases Bool.or_eq_true_iff.1 trains with wrong | unsure
  · rw [bne_iff_ne] at wrong
    cases outcome : b.outcome with
    | true =>
      rw [outcome, ne_eq, decide_eq_true_eq] at wrong
      simp only [if_true]
      omega
    | false =>
      rw [outcome, ne_eq, decide_eq_false_iff_not, not_not] at wrong
      simp only [Bool.false_eq_true, if_false]
      omega
  · obtain ⟨low, high⟩ := Bool.and_eq_true_iff.1 unsure
    have low := of_decide_eq_true low
    have high := of_decide_eq_true high
    split <;> omega

section Separated
variable {u : Option (Fin predPerceptronWeights) → Int} {γ : Int}

/-- What training leaves where `u` separates the outcomes with margin `γ`. -/
structure Trained (u : Option (Fin predPerceptronWeights) → Int) (γ : Int) (pp : PerceptronPredictor) : Prop where
  threshold : pp.threshold = 137
  bounded : Bounded u γ 339 pp.trainingIterations (weighing pp)
  small : ∀ i, |(pp.weights.get i).toInt| ≤ pp.trainingIterations

/-- A new predictor has not been trained. -/
theorem Trained.init : Trained u γ perceptronInit := by
  have zero : weighing perceptronInit = 0 := by
    funext i
    cases i with
    | none => rfl
    | some i =>
      rw [weighing, perceptronInit, get_replicate]
      rfl
  refine ⟨rfl, ?_, fun i => ?_⟩
  · rw [zero]
    exact Bounded.zero
  · rw [perceptronInit, get_replicate]
    exact le_refl _

/-- One branch: training, if there is any, moves the weights towards `u` by the margin. -/
theorem Trained.step {pp : PerceptronPredictor} (h : Trained u γ pp) (pos : 0 < γ)
    (roomy : 339 * (u ⬝ᵥ u) < 128 * γ ^ 2) {b : Outcome} (bits : b.Bits) (margin : γ ≤ u ⬝ᵥ b.signed) :
    Trained u γ (trainOn pp b) := by
  rw [trainOn, perceptronTrain]
  by_cases trains : perceptronTrains pp b.history b.outcome = true
  · have moved : Bounded u γ 339 (pp.trainingIterations + 1) (weighing pp + b.signed) := by
      apply h.bounded.add margin
      have near := trains_margin h.threshold trains
      rw [signed_dotProduct bits]
      omega
    -- more than 127 moves are more than the margin allows, so no weight has got that far
    have few : pp.trainingIterations + 1 < 128 := by
      have spent := moved.count_le pos.le (by decide)
      by_contra many
      have grown : 128 * γ ^ 2 ≤ ((pp.trainingIterations + 1 : Nat) : Int) * γ ^ 2 :=
        mul_le_mul_of_nonneg_right (by omega) (sq_nonneg γ)
      omega
    have exact_weight (i : Fin predPerceptronWeights) :
        (addWeight (pp.weights.get i) (if b.outcome then 1 else -1) (b.history.get i)).toInt =
          (pp.weights.get i).toInt + b.signed (some i) := by
      have small := abs_le.1 (h.small i)
      have unit := abs_le.1 (signed_abs bits (some i)).le
      exact addWeight_toInt (by change _ ≤ _ + b.signed (some i); omega) (by change _ + b.signed (some i) < _; omega)
    rw [if_pos trains]
    refine ⟨h.threshold, ?_, fun i => ?_⟩
    · convert moved using 1
      funext i
      cases i with
      | none => exact congrArg (pp.bias + ·) (mul_one _).symm
      | some i =>
        rw [weighing, get_ofFn, exact_weight]
        rfl
    · rw [get_ofFn, exact_weight]
      calc |(pp.weights.get i).toInt + b.signed (some i)|
          ≤ |(pp.weights.get i).toInt| + |b.signed (some i)| := abs_add_le _ _
        _ ≤ pp.trainingIterations + 1 := add_le_add (h.small i) (signed_abs bits (some i)).le
        _ = ((pp.trainingIterations + 1 : Nat) : Int) := (Nat.cast_succ _).symm
  · rw [if_neg trains]
    exact ⟨h.threshold, h.bounded, h.small⟩

end Separated

/-- A branch that does not train is predicted right. -/
theorem perceptronPredict_or_trains (pp : PerceptronPredictor) (b : Outcome) :
    (perceptronPredict pp b.history).1 = b.outcome ∨
      (trainOn pp b).trainingIterations = pp.trainingIterations + 1 := by
  rw [trainOn, perceptronTrain]
  by_cases trains : perceptronTrains pp b.history b.outcome = true
  · rw [if_pos trains]
    exact .inr rfl
  · have sure := Bool.eq_false_of_not_eq_true trains
    rw [perceptronTrains, Bool.or_eq_false_iff] at sure
    exact .inl (bne_eq_false_iff_eq.1 sure.1)

/-- Every branch is counted, as a round of training or as predicted right. -/
theorem trainOn_counts (pp : PerceptronPredictor) (b : Outcome) :
    pp.correct + pp.trainingIterations + 1 ≤ (trainOn pp b).correct + (trainOn pp b).trainingIterations := by
  rw [trainOn, perceptronTrain]
  by_cases trains : perceptronTrains pp b.history b.outcome = true
  · rw [if_pos trains]
    dsimp only
    omega
  · rw [if_neg trains]
    have right : (decide (0 ≤ perceptronSum pp b.history) == b.outcome) = true := by
      have sure := Bool.eq_false_of_not_eq_true trains
      rw [perceptronTrains, Bool.or_eq_false_iff] at sure
      simpa using sure.1
    rw [right]
    show _ ≤ pp.correct + 1 + pp.trainingIterations
    omega

/-- The convergence of the perceptron: outcomes that some weighing `u` of the history decides with margin `γ`
train at most `339 * (u ⬝ᵥ u) / γ ^ 2` times in any order, and where a branch does not train it is predicted
right. -/
theorem perceptron_converges {u : Option (Fin predPerceptronWeights) → Int} {γ : Int} (pos : 0 < γ)
    (roomy : 339 * (u ⬝ᵥ u) < 128 * γ ^ 2) {trace : List Outcome} (bits : ∀ b ∈ trace, b.Bits)
    (margin : ∀ b ∈ trace, γ ≤ u ⬝ᵥ b.signed) :
    let pp := run trainOn perceptronInit trace
    pp.trainingIterations * γ ^ 2 ≤ 339 * (u ⬝ᵥ u) ∧ trace.length ≤ pp.correct + pp.trainingIterations ∧
      (∀ i, |(pp.weights.get i).toInt| ≤ pp.trainingIterations) ∧
      ∀ before b after, trace = before ++ b :: after →
        let seen := run trainOn perceptronInit before
        (perceptronPredict seen b.history).1 = b.outcome ∨
          (trainOn seen b).trainingIterations = seen.trainingIterations + 1 := by
  have trained : Trained u γ (run trainOn perceptronInit trace) :=
    List.foldlRecOn trace trainOn Trained.init fun _ h b mem => h.step pos roomy (bits b mem) (margin b mem)
  have counted : 0 + trace.length ≤ (run trainOn perceptronInit trace).correct +
      (run trainOn perceptronInit trace).trainingIterations :=
    length_le_counter (fun pp b => trainOn_counts pp b) perceptronInit trace
  rw [Nat.zero_add] at counted
  exact ⟨trained.bounded.count_le pos.le (by decide), counted, trained.small,
    fun _ b _ _ => perceptronPredict_or_trains _ b⟩

/-- A branch that is always taken, after a history of taken branches. -/
def alwaysTaken : Outcome := ⟨Vector.replicate predPerceptronWeights 1, true⟩

/-- Its first five rounds are all that train. -/
theorem perceptron_converges_alwaysTaken :
    (run trainOn perceptronInit (List.replicate 100 alwaysTaken)).trainingIterations ≤ 5 := by
  have ones : alwaysTaken.signed = fun _ => 1 := by
    funext i
    cases i with
    | none => rfl
    | some i =>
      rw [Outcome.signed, Pi.smul_apply, inputs, alwaysTaken, get_replicate]
      rfl
  have length : (fun _ => 1 : Option (Fin predPerceptronWeights) → Int) ⬝ᵥ (fun _ => 1) = 65 := by
    simp [dotProduct]
  have same {b : Outcome} (mem : b ∈ List.replicate 100 alwaysTaken) : b = alwaysTaken := List.eq_of_mem_replicate mem
  have bits (b : Outcome) (mem : b ∈ List.replicate 100 alwaysTaken) : b.Bits := by
    rw [same mem]
    exact fun i => Or.inl (get_replicate _ i)
  have bound := perceptron_converges (u := fun _ => 1) (γ := 65) (by decide) (by rw [length]; decide) bits
    fun b mem => by rw [same mem, ones, length]
  rw [length] at bound
  have few := bound.1
  omega

end MiniHardware.Arch
