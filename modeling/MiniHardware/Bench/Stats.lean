import Mathlib.Algebra.Order.Floor.Ring
import Mathlib.Data.List.GetD
import Mathlib.Data.Rat.Floor
import Mathlib.Order.Bounds.Lattice
import MiniHardware.Lib.Moments

/-!
# Descriptive statistics (`lake_test_mini/src/result_analyze.c`)

`stats_compute` describes a data set, `stats_merge` puts two descriptions together. The numbers are
those of an ordered field with the square root as a parameter. Count, mean, variance, minimum and
maximum of a merge are those of the data sets put together (`stats_merge_pools`); the other fields a
merge leaves at zero.
-/

namespace MiniHardware.Bench
open Lib

structure DescriptiveStats (F : Type*) where
  min : F
  max : F
  mean : F
  median : F
  variance : F
  stddev : F
  skewness : F
  kurtosis : F
  p25 : F
  p50 : F
  p75 : F
  p90 : F
  p95 : F
  p99 : F
  p999 : F
  count : Nat
  outlierCount : Nat

/-- The fields of a merge that are filled in from both sides. -/
@[ext] structure Summary (F : Type*) where
  count : Nat
  mean : F
  variance : F
  min : F
  max : F

def DescriptiveStats.summary {F : Type*} (s : DescriptiveStats F) : Summary F :=
  ⟨s.count, s.mean, s.variance, s.min, s.max⟩

section Model
variable {F : Type*} [Field F] [LinearOrder F]

/-- `memset(&stats, 0, sizeof(stats))`. -/
def DescriptiveStats.zero : DescriptiveStats F := ⟨0, 0, 0, 0, 0, 0, 0, 0, 0, 0, 0, 0, 0, 0, 0, 0, 0⟩

/-- A decimal fraction of the source. -/
def decimal (num den : Nat) : F := num / den

/-- The body of the percentile loop. -/
def percentile [FloorRing F] (sorted : List F) (position : F) : F :=
  let count := sorted.length
  let pos := position * (count - 1 : Nat)
  let idxLow := ⌊pos⌋.toNat
  let idxHigh := ⌈pos⌉.toNat
  let idxLow := if idxLow ≥ count then count - 1 else idxLow
  let idxHigh := if idxHigh ≥ count then count - 1 else idxHigh
  if idxLow = idxHigh then sorted.getD idxLow 0
  else
    let frac := pos - idxLow
    sorted.getD idxLow 0 * (1 - frac) + sorted.getD idxHigh 0 * frac

def statsCompute [FloorRing F] (sqrtf : F → F) (data : List F) : DescriptiveStats F :=
  let count := data.length
  if count = 0 then .zero
  else
    let sorted := data.mergeSort
    let sum : F := data.foldl (fun sum x => sum + x) 0
    let mean := sum / count
    let median :=
      if count % 2 = 1 then sorted.getD (count / 2) 0
      else (sorted.getD (count / 2 - 1) 0 + sorted.getD (count / 2) 0) / (2 : Nat)
    let ss : F := data.foldl (fun ss x => ss + (x - mean) * (x - mean)) 0
    let variance := ss / count
    let stddev := sqrtf variance
    let diff (x : F) := (x - mean) / stddev
    let m3 : F := data.foldl (fun m3 x => m3 + diff x * diff x * diff x) 0
    let m4 : F := data.foldl (fun m4 x => m4 + diff x * diff x * diff x * diff x) 0
    { min := sorted.getD 0 0
      max := sorted.getD (count - 1) 0
      mean := mean
      median := median
      variance := variance
      stddev := stddev
      skewness := m3 / count
      kurtosis := m4 / count - (3 : Nat)
      p25 := percentile sorted (decimal 25 100)
      p50 := percentile sorted (decimal 50 100)
      p75 := percentile sorted (decimal 75 100)
      p90 := percentile sorted (decimal 90 100)
      p95 := percentile sorted (decimal 95 100)
      p99 := percentile sorted (decimal 99 100)
      p999 := percentile sorted (decimal 999 1000)
      count := count
      outlierCount := 0 }

/-- `NULL` is `none`. -/
def statsMerge (sqrtf : F → F) (a b : Option (DescriptiveStats F)) : DescriptiveStats F :=
  match a, b with
  | none, none => .zero
  | some a, none => a
  | none, some b => b
  | some a, some b =>
    let total : F := (a.count + b.count : Nat)
    let mean := (a.mean * a.count + b.mean * b.count) / total
    let diff1 := a.mean - mean
    let diff2 := b.mean - mean
    let variance :=
      (a.count * a.variance + b.count * b.variance + a.count * diff1 * diff1 + b.count * diff2 * diff2) / total
    { DescriptiveStats.zero with
      mean := mean
      count := a.count + b.count
      variance := variance
      stddev := sqrtf variance
      min := if a.min < b.min then a.min else b.min
      max := if a.max > b.max then a.max else b.max }

end Model

/-! ## What a description says of its data -/

section Compute
variable {F : Type*} [Field F] [LinearOrder F] {a b : List F}

theorem sorted_bounds (nonempty : a ≠ []) :
    IsLeast {x | x ∈ a} (a.mergeSort.getD 0 0) ∧ IsGreatest {x | x ∈ a} (a.mergeSort.getD (a.length - 1) 0) := by
  have sorted : a.mergeSort.Pairwise (· ≤ ·) := by
    have trans (x y z : F) : decide (x ≤ y) = true → decide (y ≤ z) = true → decide (x ≤ z) = true := by
      simp only [decide_eq_true_eq]
      exact le_trans
    have total (x y : F) : (decide (x ≤ y) || decide (y ≤ x)) = true := by
      simp only [Bool.or_eq_true, decide_eq_true_eq]
      exact le_total x y
    have pairwise := a.pairwise_mergeSort trans total
    exact pairwise.imp fun le => of_decide_eq_true le
  have length : a.mergeSort.length = a.length := List.length_mergeSort a
  have mem (x : F) : x ∈ a.mergeSort ↔ x ∈ a := List.mem_mergeSort
  have pos : 0 < a.length := List.length_pos_iff.2 nonempty
  have entry {i : ℕ} (lt : i < a.length) : a.mergeSort.getD i 0 = a.mergeSort.get ⟨i, length ▸ lt⟩ :=
    List.getD_eq_getElem _ _ _
  rw [entry pos, entry (Nat.sub_lt pos Nat.one_pos)]
  refine ⟨⟨(mem _).1 (List.get_mem ..), fun x hx => ?_⟩, (mem _).1 (List.get_mem ..), fun x hx => ?_⟩
  · obtain ⟨i, lt, rfl⟩ := List.getElem_of_mem ((mem x).2 hx)
    rcases Nat.eq_zero_or_pos i with rfl | later
    · exact le_rfl
    · exact List.pairwise_iff_getElem.1 sorted 0 i _ _ later
  · obtain ⟨i, lt, rfl⟩ := List.getElem_of_mem ((mem x).2 hx)
    rcases Nat.lt_or_ge i (a.length - 1) with earlier | last
    · exact List.pairwise_iff_getElem.1 sorted i (a.length - 1) _ _ earlier
    · have : i = a.length - 1 := by omega
      subst this
      exact le_rfl

variable [FloorRing F] (sqrtf : F → F)

theorem statsCompute_summary (nonempty : a ≠ []) :
    (statsCompute sqrtf a).summary =
      ⟨a.length, mean a, deviation (mean a) a / a.length, a.mergeSort.getD 0 0, a.mergeSort.getD (a.length - 1) 0⟩ := by
  have count : a.length ≠ 0 := fun zero => nonempty (List.eq_nil_of_length_eq_zero zero)
  have sum : a.foldl (fun sum x => sum + x) 0 / (a.length : F) = mean a := by
    rw [foldl_add_map (fun x => x) a 0, List.map_id', zero_add, mean]
  have squares (c : F) : a.foldl (fun ss x => ss + (x - c) * (x - c)) 0 = deviation c a := by
    rw [foldl_add_map (fun x => (x - c) * (x - c)) a 0, zero_add, deviation]
  unfold statsCompute
  rw [if_neg count]
  simp only [DescriptiveStats.summary, sum, squares]

/-- The description is that of the data, whatever its order. -/
theorem summary_append (ha : a ≠ []) (hb : b ≠ []) :
    (statsCompute sqrtf (a ++ b)).summary =
      ⟨a.length + b.length, mean (a ++ b), deviation (mean (a ++ b)) (a ++ b) / (a.length + b.length : ℕ),
        min (a.mergeSort.getD 0 0) (b.mergeSort.getD 0 0),
        max (a.mergeSort.getD (a.length - 1) 0) (b.mergeSort.getD (b.length - 1) 0)⟩ := by
  have nonempty : a ++ b ≠ [] := fun nil => ha (List.append_eq_nil_iff.1 nil).1
  have both : {x | x ∈ a ++ b} = {x | x ∈ a} ∪ {x | x ∈ b} := Set.ext fun x => List.mem_append
  obtain ⟨least, greatest⟩ := sorted_bounds nonempty
  obtain ⟨la, ga⟩ := sorted_bounds ha
  obtain ⟨lb, gb⟩ := sorted_bounds hb
  rw [both] at least greatest
  rw [statsCompute_summary sqrtf nonempty, least.unique (la.union lb), greatest.unique (ga.union gb),
    List.length_append]

end Compute

/-! ## Merging -/

section Merge
variable {F : Type*} [Field F] [LinearOrder F]

/-- The merge of two summaries. -/
def Summary.merge (x y : Summary F) : Summary F :=
  let total : F := (x.count + y.count : Nat)
  let mean := (x.mean * x.count + y.mean * y.count) / total
  ⟨x.count + y.count, mean,
    (x.count * x.variance + y.count * y.variance + x.count * (x.mean - mean) * (x.mean - mean) +
      y.count * (y.mean - mean) * (y.mean - mean)) / total,
    Min.min x.min y.min, Max.max x.max y.max⟩

theorem stats_merge_summary (sqrtf : F → F) (x y : DescriptiveStats F) :
    (statsMerge sqrtf (some x) (some y)).summary = x.summary.merge y.summary := by
  have least : (if x.min < y.min then x.min else y.min) = Min.min x.min y.min := by
    split
    · rename_i lt
      exact (min_eq_left lt.le).symm
    · rename_i le
      exact (min_eq_right (not_lt.1 le)).symm
  have greatest : (if x.max > y.max then x.max else y.max) = Max.max x.max y.max := by
    split
    · rename_i lt
      exact (max_eq_left (le_of_lt lt)).symm
    · rename_i le
      exact (max_eq_right (not_lt.1 le)).symm
  simp only [statsMerge, DescriptiveStats.summary, Summary.merge, least, greatest]

theorem Summary.merge_comm (x y : Summary F) : x.merge y = y.merge x := by
  have mean : x.mean * x.count + y.mean * y.count = y.mean * y.count + x.mean * x.count := add_comm _ _
  unfold Summary.merge
  rw [Nat.add_comm y.count, mean, min_comm, max_comm]
  dsimp only
  congr 2
  ring

variable [IsStrictOrderedRing F] {x y z : Summary F}

/-- The weighted mean of a merge. -/
theorem Summary.mean_merge (pos : 0 < x.count + y.count) :
    (x.merge y).mean * (x.merge y).count = x.mean * x.count + y.mean * y.count := by
  have total : ((x.count + y.count : ℕ) : F) ≠ 0 := Nat.cast_ne_zero.2 pos.ne'
  exact div_mul_cancel₀ _ total

/-- The sum of squares of a merge. -/
theorem Summary.squares_merge (pos : 0 < x.count + y.count) :
    (x.merge y).count * ((x.merge y).variance + (x.merge y).mean ^ 2) =
      x.count * (x.variance + x.mean ^ 2) + y.count * (y.variance + y.mean ^ 2) := by
  have total : ((x.count + y.count : ℕ) : F) ≠ 0 := Nat.cast_ne_zero.2 pos.ne'
  have mean := Summary.mean_merge pos
  rw [show (x.merge y).count = x.count + y.count from rfl, Nat.cast_add] at mean
  rw [← pooled_squares mean, mul_add, ← Nat.cast_add]
  congr 1
  exact mul_div_cancel₀ _ total

/-- Count, sum, sum of squares and the two ends determine a summary. -/
theorem Summary.ext_sums (pos : 0 < x.count) (count : x.count = y.count) (sum : x.mean * x.count = y.mean * y.count)
    (squares : x.count * (x.variance + x.mean ^ 2) = y.count * (y.variance + y.mean ^ 2))
    (min : x.min = y.min) (max : x.max = y.max) : x = y := by
  have total : (x.count : F) ≠ 0 := Nat.cast_ne_zero.2 pos.ne'
  rw [← count] at sum squares
  have mean : x.mean = y.mean := mul_right_cancel₀ total sum
  have variance : x.variance = y.variance := by
    have both := mul_left_cancel₀ total squares
    rw [mean] at both
    exact add_right_cancel both
  exact Summary.ext count mean variance min max

theorem Summary.merge_assoc (hx : 0 < x.count) (hy : 0 < y.count) :
    (x.merge y).merge z = x.merge (y.merge z) := by
  have xy : 0 < (x.merge y).count := Nat.add_pos_left hx _
  have yz : 0 < (y.merge z).count := Nat.add_pos_left hy _
  apply Summary.ext_sums (Nat.add_pos_left xy _)
  · exact Nat.add_assoc _ _ _
  · rw [Summary.mean_merge (Nat.add_pos_left xy _), Summary.mean_merge (Nat.add_pos_left hx _),
      Summary.mean_merge (Nat.add_pos_left hx _), Summary.mean_merge (Nat.add_pos_left hy _), add_assoc]
  · rw [Summary.squares_merge (Nat.add_pos_left xy _), Summary.squares_merge (Nat.add_pos_left hx _),
      Summary.squares_merge (Nat.add_pos_left hx _), Summary.squares_merge (Nat.add_pos_left hy _), add_assoc]
  · exact min_assoc _ _ _
  · exact max_assoc _ _ _

/-- Merging describes the lists put together; it is commutative and associative. -/
theorem stats_merge_pools [FloorRing F] (sqrtf : F → F) :
    (∀ a b : List F, a ≠ [] → b ≠ [] →
      (statsMerge sqrtf (some (statsCompute sqrtf a)) (some (statsCompute sqrtf b))).summary =
        (statsCompute sqrtf (a ++ b)).summary) ∧
    (∀ x y : DescriptiveStats F,
      (statsMerge sqrtf (some x) (some y)).summary = (statsMerge sqrtf (some y) (some x)).summary) ∧
    ∀ x y z : DescriptiveStats F, 0 < x.count → 0 < y.count →
      (statsMerge sqrtf (some (statsMerge sqrtf (some x) (some y))) (some z)).summary =
        (statsMerge sqrtf (some x) (some (statsMerge sqrtf (some y) (some z)))).summary := by
  refine ⟨fun a b ha hb => ?_, fun x y => ?_, fun x y z hx hy => ?_⟩
  · have mean_eq : (mean a * a.length + mean b * b.length) / ((a.length + b.length : ℕ) : F) = mean (a ++ b) := by
      rw [mul_comm, length_mul_mean ha, mul_comm, length_mul_mean hb, ← List.sum_append, ← List.length_append, mean]
    have length {l : List F} (nonempty : l ≠ []) : (l.length : F) ≠ 0 :=
      Nat.cast_ne_zero.2 fun zero => nonempty (List.eq_nil_of_length_eq_zero zero)
    rw [stats_merge_summary, statsCompute_summary sqrtf ha, statsCompute_summary sqrtf hb, summary_append sqrtf ha hb,
      deviation_append, deviation_eq_mean (mean (a ++ b)) ha, deviation_eq_mean (mean (a ++ b)) hb]
    simp only [Summary.merge, mean_eq, mul_div_cancel₀ _ (length ha), mul_div_cancel₀ _ (length hb)]
    congr 2
    ring
  · rw [stats_merge_summary, stats_merge_summary, Summary.merge_comm]
  · rw [stats_merge_summary, stats_merge_summary, stats_merge_summary, stats_merge_summary,
      Summary.merge_assoc (x := x.summary) (y := y.summary) (z := z.summary) hx hy]

theorem stats_merge_pools_two_runs :
    (statsMerge id (some (statsCompute id [1, 2])) (some (statsCompute id [4]))).summary =
        (statsCompute id [(1 : ℚ), 2, 4]).summary ∧
      (statsMerge id (some (statsMerge id (some (statsCompute id [1, 2])) (some (statsCompute id [4]))))
          (some (statsCompute id [(8 : ℚ)]))).summary =
        (statsMerge id (some (statsCompute id [1, 2]))
          (some (statsMerge id (some (statsCompute id [4])) (some (statsCompute id [8]))))).summary :=
  ⟨(stats_merge_pools id).1 [1, 2] [4] (by decide) (by decide),
    (stats_merge_pools id).2.2 _ _ _ (by decide +kernel) (by decide +kernel)⟩

end Merge

end MiniHardware.Bench
