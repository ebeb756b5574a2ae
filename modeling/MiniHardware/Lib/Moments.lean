import Mathlib.Algebra.BigOperators.Group.List.Lemmas
import Mathlib.Algebra.BigOperators.Ring.List
import Mathlib.Algebra.CharZero.Defs
import Mathlib.Algebra.Order.BigOperators.Group.List
import Mathlib.Algebra.Order.Ring.Basic
import Mathlib.Tactic.FieldSimp
import Mathlib.Tactic.LinearCombination
import Mathlib.Tactic.Ring

/-!
# Means and squared deviations

The squared deviations of a list from any point are those from its mean and the squared distance of
the mean for each entry. Lists put together add up their deviations, so what is known of the parts
by length, mean and deviation is known of the whole.
-/

namespace MiniHardware.Lib

/-- A loop that adds up. -/
theorem foldl_add_map {ι M : Type*} [AddCommMonoid M] (f : ι → M) (l : List ι) (s : M) :
    l.foldl (fun s x => s + f x) s = s + (l.map f).sum := by
  induction l generalizing s with
  | nil => rw [List.foldl_nil, List.map_nil, List.sum_nil, add_zero]
  | cons x l ih => rw [List.foldl_cons, ih, List.map_cons, List.sum_cons, add_assoc]

variable {F : Type*} [Field F]

def mean (l : List F) : F := l.sum / l.length

/-- The squared deviations from `c`, added up. -/
def deviation (c : F) (l : List F) : F := (l.map fun x => (x - c) * (x - c)).sum

theorem length_mul_mean [CharZero F] {l : List F} (nonempty : l ≠ []) : l.length * mean l = l.sum := by
  have length : (l.length : F) ≠ 0 := Nat.cast_ne_zero.2 fun zero => nonempty (List.eq_nil_of_length_eq_zero zero)
  rw [mean, mul_div_cancel₀ _ length]

theorem deviation_cons (c x : F) (l : List F) : deviation c (x :: l) = (x - c) * (x - c) + deviation c l := by
  rw [deviation, List.map_cons, List.sum_cons, deviation]

theorem deviation_append (c : F) (a b : List F) : deviation c (a ++ b) = deviation c a + deviation c b := by
  rw [deviation, List.map_append, List.sum_append, deviation, deviation]

theorem deviation_flatten (c : F) (groups : List (List F)) :
    deviation c groups.flatten = (groups.map (deviation c)).sum := by
  induction groups with
  | nil => rfl
  | cons g groups ih => rw [List.flatten_cons, deviation_append, ih, List.map_cons, List.sum_cons]

/-- Deviations from two points differ by a term that is linear in the sum. -/
theorem deviation_move (c d : F) (l : List F) :
    deviation c l = deviation d l + 2 * (d - c) * (l.sum - l.length * d) + l.length * ((d - c) * (d - c)) := by
  induction l with
  | nil => simp [deviation]
  | cons x l ih =>
    rw [deviation_cons, deviation_cons, ih, List.sum_cons, List.length_cons, Nat.cast_succ]
    ring

/-- The parallel axis theorem. -/
theorem deviation_eq_mean [CharZero F] (c : F) {l : List F} (nonempty : l ≠ []) :
    deviation c l = deviation (mean l) l + l.length * ((mean l - c) * (mean l - c)) := by
  rw [deviation_move c (mean l), length_mul_mean nonempty, sub_self, mul_zero, add_zero]

/-- Deviations within the groups, and of the means between them. -/
theorem deviation_groups [CharZero F] (c : F) {groups : List (List F)} (nonempty : ∀ g ∈ groups, g ≠ []) :
    deviation c groups.flatten = (groups.map fun g => deviation (mean g) g).sum +
      (groups.map fun g => g.length * ((mean g - c) * (mean g - c))).sum := by
  rw [deviation_flatten, ← List.sum_map_add]
  congr 1
  exact List.map_congr_left fun g mem => deviation_eq_mean c (nonempty g mem)

theorem deviation_nonneg [LinearOrder F] [IsStrictOrderedRing F] (c : F) (l : List F) : 0 ≤ deviation c l := by
  apply List.sum_nonneg
  intro y mem
  obtain ⟨x, -, rfl⟩ := List.mem_map.1 mem
  exact mul_self_nonneg _

/-- A mean and a variance per weight, put together, add up in weight, in sum and in sum of squares. -/
theorem pooled_squares {n₁ n₂ m₁ m₂ m v₁ v₂ : F} (hm : m * (n₁ + n₂) = m₁ * n₁ + m₂ * n₂) :
    n₁ * v₁ + n₂ * v₂ + n₁ * (m₁ - m) * (m₁ - m) + n₂ * (m₂ - m) * (m₂ - m) + (n₁ + n₂) * m ^ 2 =
      n₁ * (v₁ + m₁ ^ 2) + n₂ * (v₂ + m₂ ^ 2) := by
  linear_combination 2 * m * hm

end MiniHardware.Lib
