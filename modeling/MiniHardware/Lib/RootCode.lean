import Mathlib.Algebra.CharP.Two
import Mathlib.GroupTheory.OrderOfElement
import Mathlib.LinearAlgebra.Lagrange
import Mathlib.LinearAlgebra.Vandermonde
import Mathlib.Tactic.LinearCombination

/-!
# Codes given by roots

The symbols of a word are the coefficients of a polynomial, the first symbol
that of the highest power (`highFirst`). A shift register divides a word by a
monic polynomial (`dvd_shiftRegister`). Words with few symbols do not vanish
at many consecutive powers of distinct numbers (`eq_zero_of_power_sums`).
-/

namespace MiniHardware.Lib
open Polynomial

/-! ## Words as polynomials -/

section Words

variable {K : Type*} [CommRing K] {n : Nat}

noncomputable section

/-- The first symbol is the coefficient of the highest power. -/
def highFirst (w : Fin n → K) : K[X] := ∑ j : Fin n, C (w j) * X ^ (n - 1 - j.val)

/-- Symbol `j` is the coefficient of `X ^ j`. -/
def lowFirst (w : Fin n → K) : K[X] := ∑ j : Fin n, C (w j) * X ^ j.val

end

theorem lowFirst_eq_rev (w : Fin n → K) : lowFirst w = highFirst fun j => w j.rev := by
  rw [lowFirst, highFirst, ← Equiv.sum_comp Fin.revPerm]
  refine Finset.sum_congr rfl fun j _ => ?_
  rw [Fin.revPerm_apply, Fin.val_rev, show n - (j.val + 1) = n - 1 - j.val by omega]

theorem coeff_lowFirst (w : Fin n → K) (j : Fin n) : (lowFirst w).coeff j.val = w j := by
  simp only [lowFirst, finsetSum_coeff, coeff_C_mul, coeff_X_pow, Fin.val_inj, mul_ite, mul_one,
    mul_zero]
  rw [Finset.sum_ite_eq Finset.univ j, if_pos (Finset.mem_univ j)]

theorem degree_lowFirst_lt (w : Fin n → K) : (lowFirst w).degree < n := degree_sum_fin_lt _

theorem highFirst_eq_rev (w : Fin n → K) : highFirst w = lowFirst fun j => w j.rev := by
  rw [lowFirst_eq_rev]
  simp only [Fin.rev_rev]

theorem degree_highFirst_lt (w : Fin n → K) : (highFirst w).degree < n := by
  rw [highFirst_eq_rev]
  exact degree_lowFirst_lt _

theorem coeff_highFirst (w : Fin n → K) (j : Fin n) : (highFirst w).coeff (n - 1 - j.val) = w j := by
  have := coeff_lowFirst (fun j => w j.rev) j.rev
  rw [highFirst_eq_rev]
  rwa [Fin.rev_rev, Fin.val_rev, show n - (j.val + 1) = n - 1 - j.val by omega] at this

theorem eval_highFirst (w : Fin n → K) (x : K) :
    (highFirst w).eval x = ∑ j : Fin n, w j * x ^ (n - 1 - j.val) := by
  simp only [highFirst, eval_finsetSum, eval_mul, eval_C, eval_pow, eval_X]

/-- Reading a word the other way round is evaluating it at the inverse. -/
theorem sum_mul_pow_eq (w : Fin n → K) {x y : K} (inverse : x * y = 1) :
    ∑ j : Fin n, w j * x ^ j.val = x ^ (n - 1) * (highFirst w).eval y := by
  rw [eval_highFirst, Finset.mul_sum]
  refine Finset.sum_congr rfl fun j _ => ?_
  have split : x ^ (n - 1) = x ^ j.val * x ^ (n - 1 - j.val) := by
    rw [← pow_add]
    congr 1
    omega
  calc
    w j * x ^ j.val = w j * x ^ j.val * (x * y) ^ (n - 1 - j.val) := by rw [inverse, one_pow, mul_one]
    _ = x ^ (n - 1) * (w j * y ^ (n - 1 - j.val)) := by rw [split, mul_pow]; ring

/-- Two words one after the other. -/
theorem highFirst_append {m : Nat} (v : Fin m → K) (w : Fin n → K) :
    highFirst (Fin.append v w) = highFirst v * X ^ n + highFirst w := by
  rw [highFirst, highFirst, highFirst, Fin.sum_univ_add, Finset.sum_mul]
  refine congrArg₂ (· + ·) (Finset.sum_congr rfl fun j _ => ?_) (Finset.sum_congr rfl fun j _ => ?_)
  · rw [Fin.append_left, mul_assoc, ← pow_add, Fin.val_castAdd,
      show m + n - 1 - j.val = m - 1 - j.val + n by omega]
  · rw [Fin.append_right, Fin.val_natAdd, show m + n - 1 - (m + j.val) = n - 1 - j.val by omega]

theorem highFirst_snoc (w : Fin n → K) (d : K) :
    highFirst (Fin.snoc w d : Fin (n + 1) → K) = X * highFirst w + C d := by
  rw [highFirst, Fin.sum_univ_castSucc, highFirst, Finset.mul_sum]
  refine congrArg₂ (· + ·) (Finset.sum_congr rfl fun j _ => ?_) ?_
  · rw [Fin.snoc_castSucc, Fin.val_castSucc, show n + 1 - 1 - j.val = n - 1 - j.val + 1 by omega, pow_succ]
    ring
  · rw [Fin.snoc_last, Fin.val_last, Nat.add_sub_cancel, Nat.sub_self, pow_zero, mul_one]

/-- Multiplication by `X + a`, for coefficients of which the last one is zero. -/
theorem lowFirst_mul_root (g : Fin (n + 1) → K) (a : K) (top : g (Fin.last n) = 0) :
    lowFirst (fun j => (Fin.cons 0 (fun i : Fin n => g i.castSucc) : Fin (n + 1) → K) j + g j * a) =
      (X + C a) * lowFirst g := by
  have shifted : lowFirst (Fin.cons 0 (fun i : Fin n => g i.castSucc) : Fin (n + 1) → K) = X * lowFirst g := by
    rw [lowFirst, lowFirst, Fin.sum_univ_succ, Fin.sum_univ_castSucc, Fin.cons_zero, C_0, zero_mul,
      zero_add, top, C_0, zero_mul, add_zero, Finset.mul_sum]
    refine Finset.sum_congr rfl fun j _ => ?_
    rw [Fin.cons_succ, Fin.val_succ, Fin.val_castSucc, pow_succ]
    ring
  have scaled : lowFirst (fun j => g j * a) = C a * lowFirst g := by
    rw [lowFirst, lowFirst, Finset.mul_sum]
    exact Finset.sum_congr rfl fun j _ => by rw [C_mul]; ring
  rw [add_mul, ← shifted, ← scaled]
  simp only [lowFirst, C_add, add_mul, Finset.sum_add_distrib]

/-- A loop that adds up a word at the powers of `x`. -/
theorem power_sum_loop {S : Type*} (acc pow : S → K) (x : K) (w : Fin n → K) {step : S → Fin n → S}
    (add : ∀ s j, acc (step s j) = acc s + w j * pow s) (mul : ∀ s j, pow (step s j) = pow s * x) (s : S) :
    acc ((List.finRange n).foldl step s) = acc s + pow s * ∑ j : Fin n, w j * x ^ j.val ∧
      pow ((List.finRange n).foldl step s) = pow s * x ^ n := by
  induction n with
  | zero => simp
  | succ n ih =>
    obtain ⟨sum, power⟩ := ih (fun j => w j.castSucc) (fun s j => add s j.castSucc) fun s j => mul s j.castSucc
    rw [List.finRange_succ_last, List.foldl_append, List.foldl_map]
    simp only [List.foldl_cons, List.foldl_nil]
    rw [add, mul, sum, power, Fin.sum_univ_castSucc, Fin.val_last, pow_succ]
    constructor
    · simp only [Fin.val_castSucc]
      ring
    · ring

end Words

/-! ## Division by a shift register -/

section Register

variable {K : Type*} [CommRing K] [CharP K 2] {n : Nat}

/-- One step of the register that divides by `X ^ (n + 1) + lowFirst g`; the feedback is added along
the coefficients of the divisor. -/
def shiftRegister (g : Fin (n + 1) → K) (r : Fin (n + 1) → K) (d : K) : Fin (n + 1) → K :=
  fun j => (Fin.snoc (fun i : Fin n => r i.succ) 0 : Fin (n + 1) → K) j + (d + r 0) * g j.rev

theorem highFirst_shiftRegister (g r : Fin (n + 1) → K) (d : K) :
    highFirst (shiftRegister g r d) =
      X * highFirst r + C d * X ^ (n + 1) + C (d + r 0) * (X ^ (n + 1) + lowFirst g) := by
  have shifted : highFirst (Fin.snoc (fun i : Fin n => r i.succ) 0 : Fin (n + 1) → K) + C (r 0) * X ^ (n + 1) =
      X * highFirst r := by
    rw [highFirst_snoc, C_0, add_zero, highFirst, highFirst, Fin.sum_univ_succ (n := n), mul_add,
      add_comm]
    refine congrArg₂ (· + ·) ?_ ?_
    · rw [Fin.val_zero, Nat.sub_zero, Nat.add_sub_cancel, pow_succ]
      ring
    · refine congrArg (X * ·) (Finset.sum_congr rfl fun j _ => ?_)
      rw [Fin.val_succ, show n + 1 - 1 - (j.val + 1) = n - 1 - j.val by omega]
  have feedback : highFirst (fun j : Fin (n + 1) => (d + r 0) * g j.rev) = C (d + r 0) * lowFirst g := by
    rw [lowFirst_eq_rev, highFirst, highFirst, Finset.mul_sum]
    exact Finset.sum_congr rfl fun j _ => by rw [C_mul, mul_assoc]
  have sum : highFirst (shiftRegister g r d) =
      highFirst (Fin.snoc (fun i : Fin n => r i.succ) 0 : Fin (n + 1) → K) +
        highFirst (fun j : Fin (n + 1) => (d + r 0) * g j.rev) := by
    simp only [highFirst, shiftRegister, C_add, add_mul, Finset.sum_add_distrib]
  have cancel : C (r 0) * X ^ (n + 1) + C d * X ^ (n + 1) + C (d + r 0) * X ^ (n + 1) = 0 := by
    rw [← add_mul, ← add_mul, ← C_add, ← C_add, add_comm (r 0), CharTwo.add_self_eq_zero, C_0, zero_mul]
  rw [sum, feedback, ← shifted]
  linear_combination -cancel

/-- After the symbols of `w` the register holds the remainder: it completes them to a multiple of
the divisor. -/
theorem dvd_shiftRegister (g : Fin (n + 1) → K) {m : Nat} (w : Fin m → K) :
    X ^ (n + 1) + lowFirst g ∣
      highFirst w * X ^ (n + 1) +
        highFirst ((List.finRange m).foldl (fun r j => shiftRegister g r (w j)) 0) := by
  induction m with
  | zero => simp [highFirst]
  | succ m ih =>
    rw [List.finRange_succ_last, List.foldl_append, List.foldl_map]
    obtain ⟨q, hq⟩ := ih fun j => w j.castSucc
    generalize (List.finRange m).foldl (fun r j => shiftRegister g r (w j.castSucc)) 0 = r at hq
    have last : highFirst w = X * highFirst (fun j : Fin m => w j.castSucc) + C (w (Fin.last m)) := by
      rw [← highFirst_snoc]
      exact congrArg highFirst (Fin.snoc_init_self w).symm
    have double : C (w (Fin.last m)) * X ^ (n + 1) + C (w (Fin.last m)) * X ^ (n + 1) = (0 : K[X]) := by
      rw [← add_mul, ← C_add, CharTwo.add_self_eq_zero, C_0, zero_mul]
    refine ⟨X * q + C (w (Fin.last m) + r 0), ?_⟩
    show highFirst w * X ^ (n + 1) + highFirst (shiftRegister g r (w (Fin.last m))) = _
    rw [highFirst_shiftRegister, last]
    linear_combination X * hq + double

end Register

/-! ## Distance -/

section Distance

variable {K : Type*} [CommRing K]

/-- If as many powers of `a` are distinct as there are numbers other than zero, every number other
than zero has an inverse. -/
theorem isDomain_of_orderOf [Fintype K] [Nontrivial K] {a : K}
    (order : orderOf a = Fintype.card K - 1) : IsDomain K := by
  classical
  have card : 1 < Fintype.card K := Fintype.one_lt_card
  have unit : IsUnit a := IsUnit.of_pow_eq_one (pow_orderOf_eq_one a) (by omega)
  have powers : (Finset.range (orderOf a)).image (a ^ ·) = Finset.univ.erase (0 : K) := by
    apply Finset.eq_of_subset_of_card_le
    · intro x hx
      obtain ⟨i, -, rfl⟩ := Finset.mem_image.1 hx
      exact Finset.mem_erase.2 ⟨(unit.pow i).ne_zero, Finset.mem_univ _⟩
    · rw [Finset.card_image_of_injOn, Finset.card_range, Finset.card_erase_of_mem (Finset.mem_univ _),
        Finset.card_univ, order]
      intro i hi j hj same
      exact pow_injOn_Iio_orderOf (by simpa using hi) (by simpa using hj) same
  have units : ∀ x : K, x ≠ 0 → IsUnit x := by
    intro x ne
    have mem : x ∈ Finset.univ.erase (0 : K) := Finset.mem_erase.2 ⟨ne, Finset.mem_univ x⟩
    rw [← powers] at mem
    obtain ⟨i, -, rfl⟩ := Finset.mem_image.1 mem
    exact unit.pow i
  have : NoZeroDivisors K := ⟨fun {x y} zero => by
    by_contra h
    rw [not_or] at h
    exact h.2 ((units x h.1).mul_right_eq_zero.1 zero)⟩
  exact NoZeroDivisors.to_isDomain K

variable [IsDomain K]

/-- As few terms do not cancel at as many consecutive powers. -/
theorem eq_zero_of_power_sums {ι : Type*} {s : Finset ι} {β e : ι → K} {t : Nat} (few : s.card ≤ t)
    (inj : Set.InjOn β s) (nonzero : ∀ i ∈ s, β i ≠ 0)
    (vanish : ∀ k < t, ∑ i ∈ s, e i * β i ^ (k + 1) = 0) {i : ι} (mem : i ∈ s) : e i = 0 := by
  have reindex : ∀ f : ι → K, ∑ j : Fin s.card, f (s.equivFin.symm j) = ∑ i ∈ s, f i := by
    intro f
    rw [← Finset.sum_coe_sort s f]
    exact Equiv.sum_comp s.equivFin.symm fun i => f i
  have zero := Matrix.eq_zero_of_forall_pow_sum_mul_pow_eq_zero
    (f := fun j : Fin s.card => β (s.equivFin.symm j))
    (v := fun j => e (s.equivFin.symm j) * β (s.equivFin.symm j)) ?_ ?_
  · have := congrFun zero (s.equivFin ⟨i, mem⟩)
    simp only [Equiv.symm_apply_apply, Pi.zero_apply] at this
    exact (mul_eq_zero.1 this).resolve_right (nonzero i mem)
  · intro j j' same
    apply s.equivFin.symm.injective
    exact Subtype.ext (inj (s.equivFin.symm j).2 (s.equivFin.symm j').2 same)
  · intro k
    rw [← vanish k (by omega), ← reindex]
    exact Finset.sum_congr rfl fun j _ => by rw [pow_succ]; ring

/-- A polynomial that vanishes at distinct numbers is a multiple of their product. -/
theorem prod_dvd_of_eval_eq_zero {ι : Type*} {s : Finset ι} {β : ι → K} {p : K[X]} (inj : Set.InjOn β s)
    (vanish : ∀ i ∈ s, p.eval (β i) = 0) : ∏ i ∈ s, (X - C (β i)) ∣ p := by
  classical
  by_cases zero : p = 0
  · rw [zero]
    exact dvd_zero _
  · rw [← Finset.prod_image (f := fun x => X - C x) inj]
    refine (Multiset.prod_X_sub_C_dvd_iff_le_roots zero (s.image β).val).2 ?_
    rw [Multiset.le_iff_subset (s.image β).nodup]
    intro x hx
    obtain ⟨i, mem, rfl⟩ := Finset.mem_image.1 hx
    exact (mem_roots zero).2 (vanish i mem)

end Distance

end MiniHardware.Lib
