import Mathlib.Algebra.BigOperators.Ring.Finset
import Mathlib.Algebra.BigOperators.Group.Finset.Sigma
import Mathlib.Tactic.Ring

/-!
# Fast filtering algorithms

An algorithm transforms the kernel and the input, multiplies what it gets
entry by entry, and transforms the products back; `place i a` is the input the
output `i` meets the kernel entry `a` at. Used for the rows and for the columns
it filters in two dimensions (`nested`).
-/

namespace MiniHardware.Lib

/-- Transforms whose products filter in one dimension. -/
structure Filtering (R out ker inp mul : Type*) [CommRing R] [Fintype ker] [Fintype inp] [Fintype mul] where
  A : out → mul → R
  G : mul → ker → R
  B : mul → inp → R
  place : out → ker → inp
  computes : ∀ i (x : ker → R) (y : inp → R),
    ∑ k, A i k * ((∑ a, G k a * x a) * ∑ p, B k p * y p) = ∑ a, x a * y (place i a)

/-- A transform of the columns and then of the rows. -/
def bothSides {R m n : Type*} [CommRing R] [Fintype n] (T : m → n → R) (X : n → n → R) : m → m → R :=
  fun i j => ∑ b, T j b * ∑ a, T i a * X a b

section

variable {R m n ι : Type*} [CommRing R] [Fintype n]

theorem bothSides_sum (s : Finset ι) (T : m → n → R) (X : ι → n → n → R) (i j : m) :
    bothSides T (fun a b => ∑ c ∈ s, X c a b) i j = ∑ c ∈ s, bothSides T (X c) i j := by
  simp only [bothSides, Finset.mul_sum]
  rw [Finset.sum_comm (s := s)]
  refine Finset.sum_congr rfl fun b _ => ?_
  rw [Finset.sum_comm]

end

namespace Filtering

variable {R out ker inp mul : Type*} [CommRing R] [Fintype ker] [Fintype inp] [Fintype mul]

/-- **The algorithm nested in itself** filters in two dimensions. -/
theorem nested (F : Filtering R out ker inp mul) (g : ker → ker → R) (d : inp → inp → R) (i j : out) :
    bothSides F.A (fun k l => bothSides F.G g k l * bothSides F.B d k l) i j =
      ∑ a, ∑ b, g a b * d (F.place i a) (F.place j b) := by
  calc
    _ = ∑ k, F.A i k * ∑ l, F.A j l *
          ((∑ b, F.G l b * ∑ a, F.G k a * g a b) * ∑ q, F.B l q * ∑ p, F.B k p * d p q) := by
      simp only [bothSides, Finset.mul_sum (s := (Finset.univ : Finset mul))]
      rw [Finset.sum_comm]
      refine Finset.sum_congr rfl fun k _ => Finset.sum_congr rfl fun l _ => ?_
      ring
    _ = ∑ k, F.A i k * ∑ b, (∑ a, F.G k a * g a b) * ∑ p, F.B k p * d p (F.place j b) := by
      simp only [F.computes]
    _ = ∑ b, ∑ k, F.A i k * ((∑ a, F.G k a * g a b) * ∑ p, F.B k p * d p (F.place j b)) := by
      rw [Finset.sum_comm]
      simp only [← Finset.mul_sum]
    _ = ∑ b, ∑ a, g a b * d (F.place i a) (F.place j b) := by
      simp only [F.computes]
    _ = _ := Finset.sum_comm

end Filtering

end MiniHardware.Lib
