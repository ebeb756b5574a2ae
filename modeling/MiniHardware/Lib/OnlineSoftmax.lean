import Mathlib.Algebra.BigOperators.Ring.List
import Mathlib.Algebra.Order.BigOperators.Group.List
import Mathlib.Algebra.Order.Field.Basic
import Mathlib.Tactic.FieldSimp
import Mathlib.Tactic.Ring

/-!
# Softmax in one pass

Exponential sums relative to a shift, over a list of scored items. Changing the
shift scales all of them alike, so their quotients do not depend on it
(`expSum_div`), and sums over a part of the list can be brought to a new shift
when the next part comes (`Running.step`).
-/

namespace MiniHardware.Lib

variable {R : Type*} [Field R] {β δ : Type*} {exp : R → R} {s v : β → R}

/-- What is used of an exponential function. -/
structure IsExp [LinearOrder R] (exp : R → R) : Prop where
  add : ∀ a b, exp (a + b) = exp a * exp b
  pos : ∀ a, 0 < exp a

/-- The sum of the values, weighted by the exponentials of the scores less `m`. -/
def expSum (exp : R → R) (s v : β → R) (m : R) (xs : List β) : R := (xs.map fun x => exp (s x - m) * v x).sum

theorem expSum_append (exp : R → R) (s v : β → R) (m : R) (xs ys : List β) :
    expSum exp s v m (xs ++ ys) = expSum exp s v m xs + expSum exp s v m ys := by
  rw [expSum, List.map_append, List.sum_append]
  rfl

/-- The sums over the items so far, relative to their greatest score, or to `low` before any. -/
structure Running (exp : R → R) (s : β → R) (v : δ → β → R) (low : R) (done : List β) (m l : R) (o : δ → R) :
    Prop where
  weight : l = expSum exp s (fun _ => 1) m done
  out : ∀ d, o d = expSum exp s (v d) m done
  shift : (m = low ∧ done = []) ∨ ∃ x ∈ done, s x = m

theorem running_nil (v : δ → β → R) (low : R) : Running exp s v low [] low 0 fun _ => 0 :=
  ⟨rfl, fun _ => rfl, .inl ⟨rfl, rfl⟩⟩

variable [LinearOrder R]

theorem IsExp.rescale (h : IsExp exp) (m m' : R) (xs : List β) :
    exp (m - m') * expSum exp s v m xs = expSum exp s v m' xs := by
  rw [expSum, expSum, ← List.sum_map_mul_left]
  congr 1
  refine List.map_congr_left fun x _ => ?_
  rw [← mul_assoc, ← h.add, add_comm, sub_add_sub_cancel]

/-- The shift cancels. -/
theorem IsExp.expSum_div (h : IsExp exp) (w : β → R) (m m' : R) (xs : List β) :
    expSum exp s v m xs / expSum exp s w m xs = expSum exp s v m' xs / expSum exp s w m' xs := by
  rw [← h.rescale m m', ← h.rescale (v := w) m m', mul_div_mul_left _ _ (h.pos _).ne']

/-! ## Part by part -/

variable {v : δ → β → R} {low m l : R} {o : δ → R} {done part : List β}

/-- The next part, with its own sums, joins the ones so far. -/
theorem Running.step (h : Running exp s v low done m l o) (isExp : IsExp exp) {top : R}
    (attained : ∃ x ∈ part, s x = top) (above : ∀ x ∈ part, low < s x) :
    let m' := if top > m then top else m
    Running exp s v low (done ++ part) m'
      (exp (m - m') * l + exp (top - m') * expSum exp s (fun _ => 1) top part)
      (fun d => exp (m - m') * o d + exp (top - m') * expSum exp s (v d) top part) := by
  intro m'
  refine ⟨?_, fun d => ?_, ?_⟩
  · rw [h.weight, isExp.rescale, isExp.rescale, expSum_append]
  · rw [h.out, isExp.rescale, isExp.rescale, expSum_append]
  · obtain ⟨x, mem, eq⟩ := attained
    right
    show ∃ y ∈ done ++ part, s y = if top > m then top else m
    split
    case isTrue higher => exact ⟨x, List.mem_append_right _ mem, eq⟩
    case isFalse lower =>
      rcases h.shift with ⟨rfl, rfl⟩ | ⟨y, mem', eq'⟩
      · exact absurd (eq ▸ above x mem) lower
      · exact ⟨y, List.mem_append_left _ mem', eq'⟩

/-! ## The whole list -/

theorem IsExp.zero (h : IsExp exp) : exp 0 = 1 := by
  have twice := h.add 0 0
  rw [add_zero] at twice
  exact (mul_eq_left₀ (h.pos 0).ne').1 twice.symm

variable [IsStrictOrderedRing R]

/-- A shift by one of the scores leaves a term that is one. -/
theorem IsExp.one_le_expSum (h : IsExp exp) {m : R} {xs : List β} (attained : ∃ x ∈ xs, s x = m) :
    1 ≤ expSum exp s (fun _ => 1) m xs := by
  obtain ⟨x, mem, rfl⟩ := attained
  have term : exp (s x - s x) * 1 ∈ xs.map fun y => exp (s y - s x) * 1 := List.mem_map_of_mem mem
  rw [sub_self, h.zero, one_mul] at term
  refine List.single_le_sum (fun y hy => ?_) 1 term
  obtain ⟨z, -, rfl⟩ := List.mem_map.1 hy
  rw [mul_one]
  exact (h.pos _).le

/-- What is left is the quotient of the sums, whatever they are relative to. -/
theorem Running.quotient (h : Running exp s v low done m l o) (isExp : IsExp exp) (some : done ≠ []) :
    1 ≤ l ∧ ∀ m' d, o d / l = expSum exp s (v d) m' done / expSum exp s (fun _ => 1) m' done := by
  constructor
  · rw [h.weight]
    exact isExp.one_le_expSum (h.shift.resolve_left fun none => some none.2)
  · intro m' d
    rw [h.out, h.weight, isExp.expSum_div]

end MiniHardware.Lib
