import Mathlib.RingTheory.AdjoinRoot
import Mathlib.Algebra.CharP.Two
import Mathlib.Algebra.Field.ZMod
import Mathlib.Data.List.FinRange
import MiniHardware.Lib.Trace

/-!
# Bits as polynomials over `GF(2)`

`n` bits stand for a polynomial of degree below `n`, and for its class modulo
a polynomial `X ^ n + low`. Addition is `xor`; multiplication by `X` shifts
the bits and adds `low` when a one falls out (`residue_double`). A loop that
shifts one factor and adds it up where the other one has a bit therefore
multiplies (`shift_add`). A loop that adds and multiplies in turn evaluates a
polynomial (`eval_horner`), whose coefficients are those it adds.
-/

namespace MiniHardware.Lib
open Polynomial

variable {n : Nat}

/-- The number of a bit. -/
def bit2 (b : Bool) : ZMod 2 := if b then 1 else 0

/-- The exclusive or of bits is addition. -/
@[simp] theorem bit2_xor (b c : Bool) : bit2 (b ^^ c) = bit2 b + bit2 c := by
  cases b <;> cases c <;> decide

/-- The and of bits is multiplication. -/
theorem bit2_and (b c : Bool) : bit2 (b && c) = bit2 b * bit2 c := by
  cases b <;> cases c <;> decide

/-- A bit is its number. -/
theorem bit2_injective : Function.Injective bit2 := by
  intro b c h
  cases b <;> cases c <;> first | rfl | exact absurd h (by decide)

/-- Every number modulo two is that of a bit. -/
theorem bit2_eq_one (x : ZMod 2) : bit2 (decide (x = 1)) = x := by
  revert x
  decide

noncomputable section

/-- Bit `i` is the coefficient of `X ^ i`. -/
def bitPoly (b : Fin n → Bool) : (ZMod 2)[X] := ∑ i : Fin n, C (bit2 (b i)) * X ^ i.val

/-- The coefficients below `n` are the bits. -/
theorem coeff_bitPoly (b : Fin n → Bool) (i : Fin n) : (bitPoly b).coeff i.val = bit2 (b i) := by
  simp only [bitPoly, finsetSum_coeff, coeff_C_mul, coeff_X_pow, Fin.val_inj, mul_ite, mul_one,
    mul_zero]
  rw [Finset.sum_ite_eq Finset.univ i, if_pos (Finset.mem_univ i)]

/-- `n` bits have a degree below `n`. -/
theorem degree_bitPoly_lt (b : Fin n → Bool) : (bitPoly b).degree < n := degree_sum_fin_lt _

/-- Exclusive or adds the polynomials. -/
theorem bitPoly_xor (b c : Fin n → Bool) : bitPoly (fun i => b i ^^ c i) = bitPoly b + bitPoly c := by
  simp only [bitPoly, bit2_xor, C_add, add_mul, Finset.sum_add_distrib]

/-- The bits are determined by their polynomial. -/
theorem bitPoly_injective : Function.Injective (bitPoly (n := n)) := by
  intro b c h
  funext i
  apply bit2_injective
  rw [← coeff_bitPoly, h, coeff_bitPoly]

/-- Every polynomial of degree below `n` is one of `n` bits. -/
theorem exists_bitPoly {p : (ZMod 2)[X]} (lt : p.degree < n) : ∃ b : Fin n → Bool, bitPoly b = p := by
  refine ⟨fun i => decide (p.coeff i.val = 1), ?_⟩
  ext k
  by_cases h : k < n
  · have := coeff_bitPoly (fun i : Fin n => decide (p.coeff i.val = 1)) ⟨k, h⟩
    rw [this, bit2_eq_one]
  · rw [coeff_eq_zero_of_degree_lt (lt_of_lt_of_le lt (by exact_mod_cast Nat.le_of_not_lt h)),
      coeff_eq_zero_of_degree_lt
        (lt_of_lt_of_le (degree_bitPoly_lt _) (by exact_mod_cast Nat.le_of_not_lt h))]

/-! ## Residues -/

/-- `X ^ n + low`. -/
def modulus (low : Fin n → Bool) : (ZMod 2)[X] := X ^ n + bitPoly low

/-- The modulus has the leading term `X ^ n`. -/
theorem modulus_monic (low : Fin n → Bool) : (modulus low).Monic :=
  monic_X_pow_add (degree_bitPoly_lt low)

/-- The modulus has degree `n`. -/
theorem degree_modulus (low : Fin n → Bool) : (modulus low).degree = n := by
  rw [modulus, degree_add_eq_left_of_degree_lt] <;> rw [degree_X_pow]
  exact degree_bitPoly_lt low

/-- The class of the bits modulo `X ^ n + low`. -/
def residue (low b : Fin n → Bool) : AdjoinRoot (modulus low) := AdjoinRoot.mk _ (bitPoly b)

variable {low : Fin n → Bool}

/-- Bits are reduced already. -/
theorem bitPoly_mod (b : Fin n → Bool) : bitPoly b %ₘ modulus low = bitPoly b := by
  rw [modByMonic_eq_self_iff (modulus_monic low), degree_modulus]
  exact degree_bitPoly_lt b

/-- A residue is a sum of powers of the root. -/
theorem residue_eq_sum (b : Fin n → Bool) :
    residue low b = ∑ i : Fin n, if b i then AdjoinRoot.root (modulus low) ^ i.val else 0 := by
  rw [residue, bitPoly, map_sum]
  refine Finset.sum_congr rfl fun i _ => ?_
  rw [map_mul, map_pow, AdjoinRoot.mk_X, AdjoinRoot.mk_C]
  cases b i <;> simp [bit2]

/-- Exclusive or adds the residues. -/
theorem residue_xor (b c : Fin n → Bool) :
    residue low (fun i => b i ^^ c i) = residue low b + residue low c := by
  rw [residue, bitPoly_xor, map_add]
  rfl

/-- No bits are the zero residue. -/
@[simp] theorem residue_zero : residue low (fun _ => false) = 0 := by
  rw [residue_eq_sum]
  exact Finset.sum_eq_zero fun _ _ => if_neg Bool.false_ne_true

/-- One bit is a power of the root. -/
theorem residue_decide_eq (k : Fin n) :
    residue low (fun i => decide (i = k)) = AdjoinRoot.root (modulus low) ^ k.val := by
  rw [residue_eq_sum, Finset.sum_eq_single k]
  · rw [decide_eq_true rfl, if_pos rfl]
  · intro i _ ne
    rw [decide_eq_false ne, if_neg Bool.false_ne_true]
  · exact fun h => absurd (Finset.mem_univ _) h

/-- Different bits have different residues. -/
theorem residue_injective : Function.Injective (residue low) := by
  intro b c h
  have := congrArg (AdjoinRoot.modByMonicHom (modulus_monic low)) h
  rw [residue, residue, AdjoinRoot.modByMonicHom_mk, AdjoinRoot.modByMonicHom_mk, bitPoly_mod,
    bitPoly_mod] at this
  exact bitPoly_injective this

/-- Every residue has its bits. -/
theorem residue_surjective : Function.Surjective (residue low) := by
  intro x
  obtain ⟨p, rfl⟩ := AdjoinRoot.mk_surjective x
  have lt : (p %ₘ modulus low).degree < n := by
    rw [← degree_modulus low]
    exact degree_modByMonic_lt p (modulus_monic low)
  obtain ⟨b, hb⟩ := exists_bitPoly lt
  refine ⟨b, ?_⟩
  rw [residue, hb, AdjoinRoot.mk_eq_mk]
  refine ⟨-(p /ₘ modulus low), ?_⟩
  nth_rewrite 2 [← modByMonic_add_div p (modulus low)]
  ring

/-- Equal residues are equal remainders. -/
theorem bitPoly_eq_mod_of_residue {a b c : Fin n → Bool}
    (h : residue low c = residue low a * residue low b) :
    bitPoly c = bitPoly a * bitPoly b %ₘ modulus low := by
  rw [residue, residue, residue, ← map_mul] at h
  have := congrArg (AdjoinRoot.modByMonicHom (modulus_monic low)) h
  rwa [AdjoinRoot.modByMonicHom_mk, AdjoinRoot.modByMonicHom_mk, bitPoly_mod] at this

/-! ## Multiplication by `X` -/

/-- The bits, moved up by one, with `low` added when the last one falls out. -/
def double (low : Fin (n + 1) → Bool) (b : Fin (n + 1) → Bool) : Fin (n + 1) → Bool := fun i =>
  (Fin.cons false (fun j : Fin n => b j.castSucc) : Fin (n + 1) → Bool) i ^^ (b (Fin.last n) && low i)

/-- Doubling multiplies by the root. -/
theorem residue_double (low : Fin (n + 1) → Bool) (b : Fin (n + 1) → Bool) :
    residue low (double low b) = AdjoinRoot.root (modulus low) * residue low b := by
  have shifted : bitPoly (Fin.cons false (fun j : Fin n => b j.castSucc) : Fin (n + 1) → Bool) +
      C (bit2 (b (Fin.last n))) * X ^ (n + 1) = X * bitPoly b := by
    rw [bitPoly, bitPoly, Fin.sum_univ_succ, Fin.sum_univ_castSucc, mul_add, Finset.mul_sum]
    simp only [Fin.cons_zero, Fin.cons_succ, Fin.val_succ, Fin.val_castSucc, Fin.val_last]
    rw [show bit2 false = 0 from rfl, C_0, zero_mul, zero_add]
    refine congrArg₂ (· + ·) (Finset.sum_congr rfl fun i _ => ?_) ?_
    · ring
    · ring
  have top : bitPoly (fun i => b (Fin.last n) && low i) = C (bit2 (b (Fin.last n))) * bitPoly low := by
    simp only [bitPoly, bit2_and, C_mul, Finset.mul_sum, mul_assoc]
  have root : AdjoinRoot.mk (modulus low) (bitPoly low) = AdjoinRoot.mk (modulus low) (X ^ (n + 1)) := by
    rw [AdjoinRoot.mk_eq_mk]
    refine ⟨1, ?_⟩
    rw [mul_one, modulus, CharTwo.sub_eq_add, add_comm]
  unfold double
  rw [residue_xor, residue, residue, top, map_mul, root, ← map_mul, ← map_add, shifted, map_mul,
    AdjoinRoot.mk_X]
  rfl

end

/-! ## The multiplication loop -/

/-- Adding up one factor while it is multiplied by `r`, where the bits of `x` say so; the step finds
its bit through the invariant. -/
theorem shift_add {S K : Type*} [CommRing K] (acc mult : S → K) (r : K) (x : Fin n → Bool)
    (I : Nat → S → Prop) {step : S → Fin n → S}
    (keep : ∀ s i, I i.val s → I (i.val + 1) (step s i))
    (add : ∀ s i, I i.val s → acc (step s i) = acc s + if x i then mult s else 0)
    (mul : ∀ s i, mult (step s i) = r * mult s) {s : S} (start : I 0 s) (zero : acc s = 0) :
    acc ((List.finRange n).foldl step s) =
      (∑ i : Fin n, if x i then r ^ i.val else 0) * mult s := by
  have loop := @finRange_foldl_invariant S n step (fun k t => I k t ∧
    acc t = (∑ i : Fin n, if x i ∧ i.val < k then r ^ i.val else 0) * mult s ∧
      mult t = r ^ k * mult s) s ⟨start, by simp [zero], by simp⟩ ?_
  · rw [loop.2.1]
    congr 1
    exact Finset.sum_congr rfl fun i _ => by simp [i.isLt]
  · rintro i t ⟨inv, sum, pow⟩
    refine ⟨keep t i inv, ?_, by rw [mul, pow, pow_succ]; ring⟩
    have next : ∀ j : Fin n, (if x j ∧ j.val < i.val + 1 then r ^ j.val else 0) =
        (if x j ∧ j.val < i.val then r ^ j.val else 0) + if j = i then (if x i then r ^ i.val else 0) else 0 := by
      intro j
      rcases lt_trichotomy j i with lt | rfl | gt
      · have : j.val < i.val := lt
        simp [this, Nat.lt_succ_of_lt this, lt.ne]
      · simp
      · have : i.val < j.val := gt
        simp [show ¬ j.val < i.val by omega, show ¬ j.val < i.val + 1 by omega, gt.ne']
    rw [add t i inv, sum, pow, Finset.sum_congr rfl fun j _ => next j, Finset.sum_add_distrib,
      Finset.sum_ite_eq' Finset.univ i, if_pos (Finset.mem_univ i), add_mul, ite_mul, zero_mul]

/-! ## Evaluation -/

section Horner
variable {K : Type*} [CommRing K]

/-- The polynomial that adds the entries of a list up by `y := (y + c) * X`. -/
noncomputable def horner (l : List K) : K[X] := l.foldl (fun p c => (p + C c) * X) 0

/-- The last entry is added last. -/
theorem horner_snoc (l : List K) (c : K) : horner (l ++ [c]) = (horner l + C c) * X := by
  rw [horner, List.foldl_append]
  rfl

/-- The value of the polynomial is what the loop of additions and multiplications computes. -/
theorem eval_horner (l : List K) (h : K) : (horner l).eval h = l.foldl (fun y c => (y + c) * h) 0 := by
  induction l using List.reverseRecOn with
  | nil => exact eval_zero
  | append_singleton l c ih => rw [horner_snoc, eval_mul, eval_add, eval_C, eval_X, ih, List.foldl_append]; rfl

/-- The last step multiplies by `X`. -/
theorem coeff_zero_horner (l : List K) : (horner l).coeff 0 = 0 := by
  cases l using List.reverseRecOn with
  | nil => exact coeff_zero 0
  | append_singleton l c => rw [horner_snoc, mul_coeff_zero, coeff_X_zero, mul_zero]

/-- The last entries are seen, and so are the others. -/
theorem horner_snoc_inj {l l' : List K} {c c' : K} (eq : horner (l ++ [c]) = horner (l' ++ [c'])) :
    horner l = horner l' ∧ c = c' := by
  rw [horner_snoc, horner_snoc] at eq
  have sums : horner l + C c = horner l' + C c' := by
    ext k
    rw [← coeff_mul_X (horner l + C c) k, eq, coeff_mul_X]
  have last := congrArg (coeff · 0) sums
  rw [coeff_add, coeff_add, coeff_zero_horner, coeff_zero_horner, coeff_C_zero, coeff_C_zero, zero_add, zero_add] at last
  rw [last] at sums
  exact ⟨add_right_cancel sums, last⟩

/-- Lists of one length are determined by their polynomial. -/
theorem horner_inj {l l' : List K} (same : l.length = l'.length) (eq : horner l = horner l') : l = l' := by
  induction l using List.reverseRecOn generalizing l' with
  | nil => exact (List.length_eq_zero_iff.1 same.symm).symm
  | append_singleton l c ih =>
    cases l' using List.reverseRecOn with
    | nil =>
      rw [List.length_append] at same
      exact absurd same (Nat.succ_ne_zero _)
    | append_singleton l' c' =>
      obtain ⟨rest, last⟩ := horner_snoc_inj eq
      rw [List.length_append, List.length_append] at same
      rw [ih (Nat.add_right_cancel same) rest, last]

end Horner

end MiniHardware.Lib
