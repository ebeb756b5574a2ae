import Mathlib.Algebra.Order.Field.Basic
import Mathlib.Algebra.Order.BigOperators.Group.List
import Mathlib.Algebra.Order.Field.Rat
import MiniHardware.Lib.Moments

/-!
# Analysis of variance (`lake_test_mini/src/result_analyze.c`)

`stats_anova` splits what the observations deviate from their mean into a part between the groups and
a part within them. Over exact numbers the parts add up to the whole (`stats_anova_decomposes`).
-/

namespace MiniHardware.Bench
open Lib

structure AnovaResult (F : Type*) where
  ssBetween : F
  ssWithin : F
  ssTotal : F
  msBetween : F
  msWithin : F
  fStatistic : F
  pValue : F
  fCritical : F
  isSignificant : Bool
  dfBetween : UInt32
  dfWithin : UInt32
  etaSquared : F

section Model
variable {F : Type*} [Field F] [LinearOrder F]

/-- `memset(&result, 0, sizeof(result))`. -/
def AnovaResult.zero : AnovaResult F := ⟨0, 0, 0, 0, 0, 0, 0, 0, false, 0, 0, 0⟩

/-- The loop over a group: `group_sum / group_sizes[g]`. -/
def groupMean (group : List F) : F :=
  let groupSum : F := group.foldl (fun sum x => sum + x) 0
  groupSum / group.length

/-- The groups with their sizes are lists. -/
def statsAnova (groups : List (List F)) : AnovaResult F :=
  let numGroups := groups.length
  if numGroups < 2 then .zero
  else
    let grandSum : F := groups.foldl (fun sum group => group.foldl (fun sum x => sum + x) sum) 0
    let totalN : Nat := groups.foldl (fun n group => n + group.length) 0
    if totalN = 0 then .zero
    else
      let grandMean := grandSum / totalN
      let ssBetween : F := groups.foldl (fun ss group =>
        let diff := groupMean group - grandMean
        ss + group.length * diff * diff) 0
      let ssWithin : F := groups.foldl (fun ss group =>
        group.foldl (fun ss x =>
          let diff := x - groupMean group
          ss + diff * diff) ss) 0
      let ssTotal := ssBetween + ssWithin
      let dfBetween := UInt32.ofNat (numGroups - 1)
      let dfWithin := UInt32.ofNat totalN - UInt32.ofNat numGroups
      let msBetween := if dfBetween > 0 then ssBetween / dfBetween.toNat else 0
      let msWithin := if dfWithin > 0 then ssWithin / dfWithin.toNat else 0
      let fStatistic := if msWithin > 0 then msBetween / msWithin else 0
      { ssBetween := ssBetween
        ssWithin := ssWithin
        ssTotal := ssTotal
        msBetween := msBetween
        msWithin := msWithin
        fStatistic := fStatistic
        pValue := 1 / (100 : Nat)
        fCritical := 0
        isSignificant := fStatistic > (3 : Nat)
        dfBetween := dfBetween
        dfWithin := dfWithin
        etaSquared := if ssTotal > 0 then ssBetween / ssTotal else 0 }

end Model

section Sums
variable {F : Type*} [Field F]

theorem groupMean_eq (group : List F) : groupMean group = mean group := by
  rw [groupMean, foldl_add_map (fun x => x), List.map_id', zero_add, mean]

/-- A loop over the groups with a loop over each inside. -/
theorem foldl_groups (f : List F → F → F) (groups : List (List F)) (s : F) :
    groups.foldl (fun s group => group.foldl (fun s x => s + f group x) s) s =
      s + (groups.map fun group => (group.map (f group)).sum).sum := by
  rw [← foldl_add_map]
  congr 1
  funext s group
  exact foldl_add_map (f group) group s

theorem grandMean_eq (groups : List (List F)) :
    groups.foldl (fun sum group => group.foldl (fun sum x => sum + x) sum) (0 : F) /
        ((groups.foldl (fun n group => n + group.length) 0 : ℕ) : F) = mean groups.flatten := by
  have sum := foldl_groups (fun _ x => x) groups 0
  have count := foldl_add_map (List.length) groups 0
  simp only [List.map_id', zero_add] at sum count
  rw [sum, count, mean, List.sum_flatten, List.length_flatten]

end Sums

section Decomposition
variable {F : Type*} [Field F] [LinearOrder F]

/-- What the two loops add up. -/
theorem stats_anova_sums [CharZero F] {groups : List (List F)} (two : 2 ≤ groups.length) (nonempty : ∀ g ∈ groups, g ≠ []) :
    (statsAnova groups).ssBetween = (groups.map fun g =>
        g.length * ((mean g - mean groups.flatten) * (mean g - mean groups.flatten))).sum ∧
    (statsAnova groups).ssWithin = (groups.map fun g => deviation (mean g) g).sum ∧
    (statsAnova groups).ssTotal = (statsAnova groups).ssBetween + (statsAnova groups).ssWithin ∧
    (statsAnova groups).etaSquared =
      if (statsAnova groups).ssTotal > 0 then (statsAnova groups).ssBetween / (statsAnova groups).ssTotal else 0 := by
  have total : groups.foldl (fun n group => n + group.length) 0 ≠ 0 := by
    obtain ⟨g, mem⟩ := List.exists_mem_of_length_pos (Nat.lt_of_lt_of_le Nat.two_pos two)
    have pos := List.length_pos_iff.2 (nonempty g mem)
    have le := List.single_le_sum (fun n _ => Nat.zero_le n) g.length (List.mem_map_of_mem (f := List.length) mem)
    rw [foldl_add_map (List.length), zero_add]
    omega
  have between (c : F) : groups.foldl (fun ss g => ss + g.length * (mean g - c) * (mean g - c)) 0 =
      (groups.map fun g => g.length * ((mean g - c) * (mean g - c))).sum := by
    simp only [mul_assoc]
    rw [foldl_add_map (fun g : List F => (g.length : F) * ((mean g - c) * (mean g - c))), zero_add]
  have within : groups.foldl (fun ss g => g.foldl (fun ss x => ss + (x - mean g) * (x - mean g)) ss) 0 =
      (groups.map fun g => deviation (mean g) g).sum := by
    rw [foldl_groups (fun g x => (x - mean g) * (x - mean g)), zero_add]
    rfl
  unfold statsAnova
  rw [if_neg (Nat.not_lt.2 two)]
  dsimp only
  rw [if_neg total]
  simp only [grandMean_eq, groupMean_eq, between, within, true_and]

variable [IsStrictOrderedRing F]

/-- The sums of squares make up the deviation of all observations from their mean, and the effect
size is a share of it. -/
theorem stats_anova_decomposes (groups : List (List F)) (two : 2 ≤ groups.length)
    (nonempty : ∀ g ∈ groups, g ≠ []) :
    (statsAnova groups).ssTotal = (statsAnova groups).ssBetween + (statsAnova groups).ssWithin ∧
    (statsAnova groups).ssTotal =
      (groups.flatten.map fun x => (x - mean groups.flatten) * (x - mean groups.flatten)).sum ∧
    0 ≤ (statsAnova groups).etaSquared ∧ (statsAnova groups).etaSquared ≤ 1 := by
  obtain ⟨between, within, total, eta⟩ := stats_anova_sums two nonempty
  have within_nonneg : 0 ≤ (statsAnova groups).ssWithin := by
    rw [within]
    apply List.sum_nonneg
    intro s mem
    obtain ⟨g, -, rfl⟩ := List.mem_map.1 mem
    exact deviation_nonneg _ g
  have between_nonneg : 0 ≤ (statsAnova groups).ssBetween := by
    rw [between]
    apply List.sum_nonneg
    intro s mem
    obtain ⟨g, -, rfl⟩ := List.mem_map.1 mem
    exact mul_nonneg (Nat.cast_nonneg _) (mul_self_nonneg _)
  refine ⟨total, ?_, ?_⟩
  · have parts := deviation_groups (mean groups.flatten) nonempty
    rw [total, between, within, add_comm, ← parts, deviation]
  · rw [eta]
    split
    · rename_i pos
      refine ⟨div_nonneg between_nonneg pos.le, (div_le_one pos).2 ?_⟩
      rw [total]
      exact le_add_of_nonneg_right within_nonneg
    · exact ⟨le_rfl, zero_le_one⟩

theorem stats_anova_decomposes_two_groups :
    let groups : List (List ℚ) := [[10, 12], [20, 21, 22]]
    (statsAnova groups).ssTotal = (statsAnova groups).ssBetween + (statsAnova groups).ssWithin ∧
    (statsAnova groups).ssTotal =
      (groups.flatten.map fun x => (x - mean groups.flatten) * (x - mean groups.flatten)).sum ∧
    0 ≤ (statsAnova groups).etaSquared ∧ (statsAnova groups).etaSquared ≤ 1 :=
  stats_anova_decomposes [[10, 12], [20, 21, 22]] (by decide) (by decide)

end Decomposition

end MiniHardware.Bench
