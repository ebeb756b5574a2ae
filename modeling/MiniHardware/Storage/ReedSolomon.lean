import Mathlib.Tactic.NormNum.Prime
import MiniHardware.Lib.BitPoly
import MiniHardware.Lib.Bytes
import MiniHardware.Lib.RootCode
import MiniHardware.Lib.Index

/-!
# Reed-Solomon encoding

`rs_gf_mul` multiplies in `GF(2)[x] / (x^8 + x^4 + x^3 + x^2 + 1)`
(`rsValue_mul`), `ecc_rs_generator_poly` multiplies the polynomials
`x - alpha^(i+1)` (`rsGeneratorPoly_eq`), and the loop of `ecc_rs_encode` is a
shift register that divides by their product.
-/

namespace MiniHardware.Storage
open Lib Polynomial

/-! ## The code -/

/-- A round of `rs_gf_mul`, on `p`, `a` and `b`. -/
def rsGfMulRound (s : UInt8 × UInt8 × UInt8) : UInt8 × UInt8 × UInt8 :=
  let p := if s.2.2 &&& 1 ≠ 0 then s.1 ^^^ s.2.1 else s.1
  let carry := s.2.1 &&& 0x80
  let a := if carry ≠ 0 then (s.2.1 <<< 1) ^^^ 0x1D else s.2.1 <<< 1
  (p, a, s.2.2 >>> 1)

def rsGfMul (a b : UInt8) : UInt8 :=
  ((List.finRange 8).foldl (fun s _ => rsGfMulRound s) (0, a, b)).1

/-- `root` and `alpha_pow` after `k` multiplications by 2. -/
def rsAlphaPow : Nat → UInt8
  | 0 => 1
  | k + 1 => rsGfMul (rsAlphaPow k) 2

/-- The product with `x - alpha^(i+1)`. The loop over `j` runs down, so it reads old coefficients. -/
def eccRsGeneratorStep (gen : Vector UInt8 17) (i : Fin 16) : Vector UInt8 17 :=
  let root := rsAlphaPow (i.val + 1)
  Vector.ofFn fun j =>
    if j.val = 0 then rsGfMul gen[0] root
    else if j.val ≤ i.val + 1 then gen[j.val - 1] ^^^ rsGfMul gen[j] root
    else gen[j]

def eccRsGeneratorPoly : Vector UInt8 17 :=
  (List.finRange 16).foldl eccRsGeneratorStep ((Vector.replicate 17 0).set 0 1)

/-- The remainder after one more byte of data. The loops over `j` run up, so they read old bytes. -/
def eccRsEncodeStep (gen : Vector UInt8 17) (data : Vector UInt8 239) (remainder : Vector UInt8 16)
    (i : Fin 239) : Vector UInt8 16 :=
  let feedback := data.get i ^^^ remainder.get 0
  if feedback ≠ 0 then
    Vector.ofFn fun j =>
      if h : j.val < 15 then remainder[j.val + 1] ^^^ rsGfMul feedback gen[15 - j.val]
      else rsGfMul feedback gen[0]
  else
    Vector.ofFn fun j => if h : j.val < 15 then remainder[j.val + 1] else 0

/-- The parity bytes. -/
def eccRsEncode (data : Vector UInt8 239) : Vector UInt8 16 :=
  (List.finRange 239).foldl (eccRsEncodeStep eccRsGeneratorPoly data) (Vector.replicate 16 0)

/-! ## The field -/

/-- The bits of the reduction `0x1D`. -/
def rsLow (i : Fin 8) : Bool := byteBit 0x1D i.val

noncomputable section

/-- `GF(2)[x] / (x^8 + x^4 + x^3 + x^2 + 1)`. -/
abbrev RsField := AdjoinRoot (modulus rsLow)

/-- A byte as a number of the field: bit `k` is the coefficient of `x^k`. -/
def rsValue (x : UInt8) : RsField := residue rsLow fun i => byteBit x i.val

/-- The primitive element 2. -/
def rsAlpha : RsField := AdjoinRoot.root (modulus rsLow)

/-- A byte is known by its field element. -/
theorem rsValue_injective : Function.Injective rsValue := by
  intro x y same
  apply byte_ext
  intro k lt
  exact congrFun (residue_injective same) ⟨k, lt⟩

instance : Nontrivial RsField :=
  ⟨rsValue 0, rsValue 1, fun same => absurd (rsValue_injective same) (by decide)⟩

/-- Every element of the field is that of a byte. -/
theorem rsValue_surjective : Function.Surjective rsValue := by
  intro v
  obtain ⟨b, rfl⟩ := residue_surjective v
  exact ⟨ofBits b, congrArg (residue rsLow) (funext (byteBit_ofBits b))⟩

@[simp] theorem rsValue_zero : rsValue 0 = 0 := by
  simp only [rsValue, byteBit_zero, residue_zero]

@[simp] theorem rsValue_one : rsValue 1 = 1 := by
  have bits : (fun i : Fin 8 => byteBit 1 i.val) = fun i => decide (i = 0) := by decide
  rw [rsValue, bits, residue_decide_eq]
  exact pow_zero _

/-- The byte 2 is the generator of the field. -/
theorem rsValue_two : rsValue 2 = rsAlpha := by
  have bits : (fun i : Fin 8 => byteBit 2 i.val) = fun i => decide (i = 1) := by decide
  rw [rsValue, bits, residue_decide_eq]
  exact pow_one _

/-- Exclusive or is addition. -/
@[simp] theorem rsValue_xor (x y : UInt8) : rsValue (x ^^^ y) = rsValue x + rsValue y := by
  simp only [rsValue, byteBit_xor]
  exact residue_xor _ _

instance : CharP RsField 2 := by
  apply CharTwo.of_one_ne_zero_of_two_eq_zero one_ne_zero
  rw [← one_add_one_eq_two, ← rsValue_one, ← rsValue_xor]
  exact rsValue_zero

/-- `a <<= 1` with the reduction. -/
theorem rsValue_shift (a : UInt8) :
    rsValue (if a &&& 0x80 ≠ 0 then (a <<< 1) ^^^ 0x1D else a <<< 1) = rsAlpha * rsValue a := by
  have bits : ∀ a : UInt8, ∀ i : Fin 8,
      byteBit (if a &&& 0x80 ≠ 0 then (a <<< 1) ^^^ 0x1D else a <<< 1) i.val =
        double rsLow (fun i => byteBit a i.val) i := forall_byte (by decide +kernel)
  rw [rsValue, funext (bits a)]
  exact residue_double rsLow _

/-- **`rs_gf_mul` is the product.** -/
@[simp] theorem rsValue_mul (a b : UInt8) : rsValue (rsGfMul a b) = rsValue a * rsValue b := by
  have coeffs : rsValue b = ∑ i : Fin 8, if byteBit b i.val then rsAlpha ^ i.val else 0 := residue_eq_sum _
  have product := @shift_add 8 (UInt8 × UInt8 × UInt8) _ _ (fun s => rsValue s.1) (fun s => rsValue s.2.1)
    rsAlpha (fun i => byteBit b i.val) (fun k s => ∀ i, byteBit s.2.2 i = byteBit b (k + i))
    (fun s _ => rsGfMulRound s) ?_ ?_ ?_ (0, a, b) ?_ rsValue_zero
  · rw [mul_comm, coeffs]
    exact product
  · intro s i shifted k
    rw [rsGfMulRound, byteBit_shiftRight_one, shifted, Nat.add_right_comm, Nat.add_assoc]
  · intro s i shifted
    have bit : s.2.2 &&& 1 ≠ 0 ↔ byteBit b i.val = true := by rw [and_one_ne_zero, shifted, Nat.add_zero]
    rw [rsGfMulRound]
    by_cases h : byteBit b i.val = true
    · rw [if_pos h, if_pos (bit.2 h), rsValue_xor]
    · rw [if_neg h, if_neg (mt bit.1 h), add_zero]
  · intro s i
    exact rsValue_shift s.2.1
  · intro i
    rw [Nat.zero_add]

/-- The table of powers has the powers of the generator. -/
@[simp] theorem rsValue_alphaPow (k : Nat) : rsValue (rsAlphaPow k) = rsAlpha ^ k := by
  induction k with
  | zero => rw [rsAlphaPow, rsValue_one, pow_zero]
  | succ k ih => rw [rsAlphaPow, rsValue_mul, ih, rsValue_two, pow_succ]

/-! ## The generator polynomial -/

/-- The symbols of bytes. -/
def rsSymbols {n : Nat} (v : Vector UInt8 n) (j : Fin n) : RsField := rsValue (v.get j)

/-- The polynomial of `ecc_rs_generator_poly`: `gen[j]` is the coefficient of `x^j`. -/
def rsGeneratorPoly : RsField[X] := lowFirst (rsSymbols eccRsGeneratorPoly)

/-- What the coefficients are after the first `k` roots. -/
structure GeneratorAt (k : Nat) (gen : Vector UInt8 17) : Prop where
  above : ∀ j : Fin 17, k < j.val → gen[j] = 0
  product : lowFirst (rsSymbols gen) = ∏ e ∈ Finset.Icc 1 k, (X + C (rsAlpha ^ e))

/-- The array starts as the polynomial 1. -/
theorem generatorAt_zero : GeneratorAt 0 ((Vector.replicate 17 0).set 0 1) := by
  constructor
  · decide
  · rw [lowFirst, Fin.sum_univ_succ, Finset.sum_eq_zero, Finset.Icc_eq_empty (by decide), Finset.prod_empty]
    · simp [rsSymbols, get_eq]
    · intro j _
      simp [rsSymbols, get_eq]

/-- A round multiplies by one root factor, coefficient by coefficient. -/
theorem rsSymbols_generatorStep {gen : Vector UInt8 17} {i : Fin 16} (h : GeneratorAt i.val gen) :
    rsSymbols (eccRsGeneratorStep gen i) = fun j =>
      (Fin.cons 0 (fun l : Fin 16 => rsSymbols gen l.castSucc) : Fin 17 → RsField) j +
        rsSymbols gen j * rsAlpha ^ (i.val + 1) := by
  funext j
  refine Fin.cases ?_ (fun l => ?_) j
  · simp [rsSymbols, get_eq, eccRsGeneratorStep]
  · rw [Fin.cons_succ]
    by_cases inside : l.val + 1 ≤ i.val + 1
    · simp [rsSymbols, get_eq, eccRsGeneratorStep, inside]
    · have here : gen[l.val + 1] = 0 := h.above l.succ (by rw [Fin.val_succ]; omega)
      have below : gen[l.val] = 0 := h.above l.castSucc (by rw [Fin.val_castSucc]; omega)
      simp [rsSymbols, get_eq, eccRsGeneratorStep, inside, here, below]

/-- After round `i` the array is the product of the first `i + 1` factors. -/
theorem GeneratorAt.step {gen : Vector UInt8 17} {i : Fin 16} (h : GeneratorAt i.val gen) :
    GeneratorAt (i.val + 1) (eccRsGeneratorStep gen i) := by
  constructor
  · intro j lt
    have here := h.above j (by omega)
    simp only [eccRsGeneratorStep, Vector.getElem_ofFn, Fin.getElem_fin] at here ⊢
    rw [if_neg (by omega), if_neg (by omega), here]
  · have top : rsSymbols gen (Fin.last 16) = 0 := by
      have zero : gen.get (Fin.last 16) = 0 := h.above (Fin.last 16) i.isLt
      rw [rsSymbols, zero, rsValue_zero]
    rw [rsSymbols_generatorStep h, lowFirst_mul_root _ _ top, h.product, Finset.prod_Icc_succ_top (by omega),
      mul_comm]

/-- **The generator polynomial has the roots `alpha^1, …, alpha^16`.** -/
theorem rsGeneratorPoly_eq : rsGeneratorPoly = ∏ e ∈ Finset.Icc 1 16, (X - C (rsAlpha ^ e)) := by
  simp only [CharTwo.sub_eq_add]
  exact (finRange_foldl_invariant generatorAt_zero fun _ _ h => GeneratorAt.step h).product

/-- The generator is monic. -/
theorem rsGeneratorPoly_monic : rsGeneratorPoly.Monic := by
  rw [rsGeneratorPoly_eq]
  exact monic_prod_of_monic _ _ fun _ _ => monic_X_sub_C _

/-- The degree of the generator is 16. -/
theorem natDegree_rsGeneratorPoly : rsGeneratorPoly.natDegree = 16 := by
  rw [rsGeneratorPoly_eq, natDegree_prod_of_monic _ _ fun _ _ => monic_X_sub_C _]
  simp only [natDegree_X_sub_C, Finset.sum_const, Nat.card_Icc, smul_eq_mul, mul_one]

/-- The array has the low coefficients of the generator. -/
theorem rsGeneratorPoly_split :
    rsGeneratorPoly = X ^ 16 + lowFirst fun j : Fin 16 => rsSymbols eccRsGeneratorPoly j.castSucc := by
  have top : rsSymbols eccRsGeneratorPoly (Fin.last 16) = 1 := by
    rw [← coeff_lowFirst (rsSymbols eccRsGeneratorPoly)]
    have leading := rsGeneratorPoly_monic.coeff_natDegree
    rwa [natDegree_rsGeneratorPoly] at leading
  rw [rsGeneratorPoly, lowFirst, Fin.sum_univ_castSucc, top, C_1, one_mul, add_comm]
  rfl

/-! ## The remainder -/

/-- A symbol of data is one step of the shift register. -/
theorem rsSymbols_encodeStep (gen : Vector UInt8 17) (data : Vector UInt8 239) (remainder : Vector UInt8 16)
    (i : Fin 239) :
    rsSymbols (eccRsEncodeStep gen data remainder i) =
      shiftRegister (fun j : Fin 16 => rsSymbols gen j.castSucc) (rsSymbols remainder)
        (rsSymbols data i) := by
  have feedback : rsSymbols data i + rsSymbols remainder 0 = rsValue (data.get i ^^^ remainder.get 0) :=
    (rsValue_xor _ _).symm
  funext j
  rw [shiftRegister, feedback, eccRsEncodeStep]
  generalize data.get i ^^^ remainder.get 0 = f
  refine Fin.lastCases ?_ (fun j => ?_) j
  · rw [Fin.snoc_last]
    by_cases h : f = 0 <;> simp [rsSymbols, get_eq, h]
  · rw [Fin.snoc_castSucc]
    by_cases h : f = 0 <;> simp [rsSymbols, get_eq, h, Fin.val_rev]

/-- The encoder runs the shift register over the data. -/
theorem rsSymbols_encode (data : Vector UInt8 239) :
    rsSymbols (eccRsEncode data) =
      (List.finRange 239).foldl (fun r i =>
        shiftRegister (fun j : Fin 16 => rsSymbols eccRsGeneratorPoly j.castSucc) r (rsSymbols data i)) 0 := by
  have start : rsSymbols (Vector.replicate 16 0) = 0 := by
    funext j
    simp [rsSymbols, get_eq]
  rw [eccRsEncode, ← start]
  exact (List.foldl_hom rsSymbols fun r i => (rsSymbols_encodeStep _ data r i).symm).symm

/-- `data(x) * x^16 + parity(x)`, with `data[0]` and `parity[0]` the highest coefficients. -/
def rsCodewordPoly (data : Vector UInt8 239) (parity : Vector UInt8 16) : RsField[X] :=
  highFirst (rsSymbols data) * X ^ 16 + highFirst (rsSymbols parity)

/-- A codeword is a multiple of the generator. -/
theorem rsGeneratorPoly_dvd (data : Vector UInt8 239) :
    rsGeneratorPoly ∣ rsCodewordPoly data (eccRsEncode data) := by
  have divides := @dvd_shiftRegister RsField _ _ 15 (fun j => rsSymbols eccRsGeneratorPoly j.castSucc) 239
    (rsSymbols data)
  rw [← rsSymbols_encode, ← rsGeneratorPoly_split] at divides
  unfold rsCodewordPoly
  exact divides

/-- A codeword vanishes at the sixteen roots. -/
theorem eval_rsCodewordPoly_encode (data : Vector UInt8 239) {e : Nat} (root : e ∈ Finset.Icc 1 16) :
    (rsCodewordPoly data (eccRsEncode data)).eval (rsAlpha ^ e) = 0 := by
  obtain ⟨q, hq⟩ := rsGeneratorPoly_dvd data
  rw [hq, rsGeneratorPoly_eq, eval_mul, eval_prod, Finset.prod_eq_zero root, zero_mul]
  rw [eval_sub, eval_X, eval_C, sub_self]

/-- **Encoded data is a multiple of the generator polynomial** and vanishes at
`alpha^1, …, alpha^16`. -/
theorem ecc_rs_encode_codeword (data : Vector UInt8 239) :
    rsGeneratorPoly = ∏ e ∈ Finset.Icc 1 16, (X - C (rsAlpha ^ e)) ∧
      rsGeneratorPoly ∣ rsCodewordPoly data (eccRsEncode data) ∧
      ∀ e ∈ Finset.Icc 1 16, (rsCodewordPoly data (eccRsEncode data)).eval (rsAlpha ^ e) = 0 :=
  ⟨rsGeneratorPoly_eq, rsGeneratorPoly_dvd data, fun _ root => eval_rsCodewordPoly_encode data root⟩

end

end MiniHardware.Storage
