import Mathlib.InformationTheory.Hamming
import MiniHardware.Storage.ReedSolomon

/-!
# Reed-Solomon syndromes

`ecc_rs_syndromes` adds the symbols up at the powers of `alpha` in the order
in which they are stored (`rsValue_syndrome`), so it takes `data[0]` as the
lowest coefficient; `ecc_rs_encode` takes it as the highest. The syndromes of
encoded data are those of the mirrored word, zero only for data of a code with
32 roots. Sixteen changed symbols always change a syndrome.
-/

namespace MiniHardware.Storage
open Lib Polynomial

/-! ## The code -/

/-- `syn` and `eval_pow` after one more symbol. -/
def eccRsSyndromeStep {n : Nat} (symbols : Vector UInt8 n) (alphaPow : UInt8) (s : UInt8 × UInt8)
    (j : Fin n) : UInt8 × UInt8 :=
  (s.1 ^^^ rsGfMul (symbols.get j) s.2, rsGfMul s.2 alphaPow)

def eccRsSyndrome (data : Vector UInt8 239) (parity : Vector UInt8 16) (i : Fin 16) : UInt8 :=
  let alphaPow := rsAlphaPow (i.val + 1)
  let s := (List.finRange 239).foldl (eccRsSyndromeStep data alphaPow) (0, 1)
  ((List.finRange 16).foldl (eccRsSyndromeStep parity alphaPow) s).1

def eccRsSyndromes (data : Vector UInt8 239) (parity : Vector UInt8 16) : Vector UInt8 16 :=
  Vector.ofFn (eccRsSyndrome data parity)

/-- The 255 symbols of data and parity. -/
def rsWord (data : Vector UInt8 239) (parity : Vector UInt8 16) : Fin (239 + 16) → UInt8 :=
  Fin.append data.get parity.get

/-! ## The field -/

noncomputable section

theorem rsAlpha_pow_eq_one (k : Nat) : rsAlpha ^ k = 1 ↔ rsAlphaPow k = 1 := by
  rw [← rsValue_alphaPow, ← rsValue_one]
  exact rsValue_injective.eq_iff

/-- **The powers of 2 are all bytes but 0.** -/
theorem orderOf_rsAlpha : orderOf rsAlpha = 255 := by
  apply orderOf_eq_of_pow_and_pow_div_prime (by decide)
  · rw [rsAlpha_pow_eq_one]
    decide +kernel
  · intro p prime divides
    have factor : p = 3 ∨ p = 5 ∨ p = 17 := by
      rw [show 255 = 3 * 5 * 17 by rfl, prime.dvd_mul, prime.dvd_mul] at divides
      rw [← Nat.prime_dvd_prime_iff_eq prime (by norm_num), ← Nat.prime_dvd_prime_iff_eq prime (by norm_num),
        ← Nat.prime_dvd_prime_iff_eq prime (by norm_num)]
      exact or_assoc.1 divides
    rw [Ne, rsAlpha_pow_eq_one]
    rcases factor with rfl | rfl | rfl <;> decide +kernel

theorem rsValue_ofNat_bijective : Function.Bijective fun n : Fin 256 => rsValue (UInt8.ofNat n.val) := by
  constructor
  · intro m n same
    have := congrArg UInt8.toNat (rsValue_injective same)
    rw [UInt8.toNat_ofNat', UInt8.toNat_ofNat', Nat.mod_eq_of_lt m.isLt, Nat.mod_eq_of_lt n.isLt] at this
    exact Fin.ext this
  · intro v
    obtain ⟨x, rfl⟩ := rsValue_surjective v
    exact ⟨⟨x.toNat, x.toNat_lt⟩, congrArg rsValue (UInt8.ofNat_toNat)⟩

instance : Fintype RsField := Fintype.ofSurjective _ rsValue_ofNat_bijective.surjective

instance : IsDomain RsField := by
  apply isDomain_of_orderOf (a := rsAlpha)
  rw [orderOf_rsAlpha, ← Fintype.card_of_bijective rsValue_ofNat_bijective, Fintype.card_fin]

theorem rsAlpha_pow_injOn : Set.InjOn (rsAlpha ^ ·) (Set.Iio 255) := by
  rw [← orderOf_rsAlpha]
  exact pow_injOn_Iio_orderOf

theorem rsAlpha_ne_zero : rsAlpha ≠ 0 := by
  rw [← rsValue_two, ← rsValue_zero]
  exact rsValue_injective.ne (by decide)

theorem rsAlpha_pow_inverse {e : Nat} (le : e ≤ 255) : rsAlpha ^ e * rsAlpha ^ (255 - e) = 1 := by
  rw [← pow_add, Nat.add_sub_cancel' le, ← orderOf_rsAlpha, pow_orderOf_eq_one]

/-! ## The loop -/

theorem rsValue_rsWord (data : Vector UInt8 239) (parity : Vector UInt8 16) :
    (fun j => rsValue (rsWord data parity j)) = Fin.append (rsSymbols data) (rsSymbols parity) := by
  funext j
  refine Fin.addCases (fun j => ?_) (fun j => ?_) j
  · rw [rsWord, Fin.append_left, Fin.append_left, rsSymbols]
  · rw [rsWord, Fin.append_right, Fin.append_right, rsSymbols]

/-- **A syndrome takes the symbols as coefficients, the first one as the lowest.** -/
theorem rsValue_syndrome (data : Vector UInt8 239) (parity : Vector UInt8 16) (i : Fin 16) :
    rsValue (eccRsSyndrome data parity i) =
      ∑ j : Fin (239 + 16), rsValue (rsWord data parity j) * (rsAlpha ^ (i.val + 1)) ^ j.val := by
  have loop : ∀ {n : Nat} (v : Vector UInt8 n) s,
      rsValue ((List.finRange n).foldl (eccRsSyndromeStep v (rsAlphaPow (i.val + 1))) s).1 =
          rsValue s.1 + rsValue s.2 * ∑ j : Fin n, rsSymbols v j * (rsAlpha ^ (i.val + 1)) ^ j.val ∧
        rsValue ((List.finRange n).foldl (eccRsSyndromeStep v (rsAlphaPow (i.val + 1))) s).2 =
          rsValue s.2 * (rsAlpha ^ (i.val + 1)) ^ n := by
    intro n v
    apply power_sum_loop (fun s : UInt8 × UInt8 => rsValue s.1) fun s => rsValue s.2
    · intro s j
      rw [eccRsSyndromeStep, rsValue_xor, rsValue_mul, rsSymbols]
    · intro s j
      rw [eccRsSyndromeStep, rsValue_mul, rsValue_alphaPow]
  obtain ⟨sum, power⟩ := loop data (0, 1)
  rw [eccRsSyndrome, (loop parity _).1, sum, power, rsValue_zero, rsValue_one, zero_add, one_mul, one_mul,
    Fin.sum_univ_add, Finset.mul_sum]
  refine congrArg₂ (· + ·) (Finset.sum_congr rfl fun j _ => ?_) (Finset.sum_congr rfl fun j _ => ?_)
  · rw [rsWord, Fin.append_left, Fin.val_castAdd, rsSymbols]
  · rw [rsWord, Fin.append_right, Fin.val_natAdd, rsSymbols, pow_add]
    ring

theorem eccRsSyndromes_eq_zero {data : Vector UInt8 239} {parity : Vector UInt8 16} :
    eccRsSyndromes data parity = Vector.replicate 16 0 ↔ ∀ i : Fin 16,
      ∑ j : Fin (239 + 16), rsValue (rsWord data parity j) * (rsAlpha ^ (i.val + 1)) ^ j.val = 0 := by
  simp only [← rsValue_syndrome, ← rsValue_zero, rsValue_injective.eq_iff]
  constructor
  · intro h i
    have here := congrArg (fun v => v[i]) h
    simpa [eccRsSyndromes] using here
  · intro h
    apply Vector.ext
    intro i lt
    simpa [eccRsSyndromes] using h ⟨i, lt⟩

/-! ## Changed symbols -/

/-- **The code has distance 17**: two words that differ in one to sixteen symbols do not both have
zero syndromes. -/
theorem eccRsSyndromes_detect {data data' : Vector UInt8 239} {parity parity' : Vector UInt8 16}
    (clean : eccRsSyndromes data parity = Vector.replicate 16 0)
    (clean' : eccRsSyndromes data' parity' = Vector.replicate 16 0)
    (few : hammingDist (rsWord data parity) (rsWord data' parity') ≤ 16) :
    hammingDist (rsWord data parity) (rsWord data' parity') = 0 := by
  rw [eccRsSyndromes_eq_zero] at clean clean'
  rw [hammingDist_eq_zero]
  by_contra ne
  obtain ⟨j, differ⟩ := Function.ne_iff.1 ne
  have zero := @eq_zero_of_power_sums RsField _ _ (Fin (239 + 16))
    (Finset.univ.filter fun j => rsWord data parity j ≠ rsWord data' parity' j) (fun j => rsAlpha ^ j.val)
    (fun j => rsValue (rsWord data parity j) - rsValue (rsWord data' parity' j)) 16 few ?_ ?_ ?_ j
    (Finset.mem_filter.2 ⟨Finset.mem_univ j, differ⟩)
  · exact differ (rsValue_injective (sub_eq_zero.1 zero))
  · intro j _ j' _ same
    exact Fin.ext (rsAlpha_pow_injOn j.isLt j'.isLt same)
  · exact fun j _ => pow_ne_zero _ rsAlpha_ne_zero
  · intro k lt
    have rest := sub_eq_zero.2 ((clean ⟨k, lt⟩).trans (clean' ⟨k, lt⟩).symm)
    rw [← Finset.sum_sub_distrib] at rest
    rw [Finset.sum_filter]
    refine (Finset.sum_congr rfl fun j _ => ?_).trans rest
    by_cases same : rsWord data parity j = rsWord data' parity' j
    · rw [if_neg (not_not.2 same), same, sub_self]
    · rw [if_pos same, ← pow_mul, ← pow_mul, mul_comm j.val]
      ring

/-! ## Encoded data -/

/-- The exponents of `alpha^1, …, alpha^16` and of their inverses. -/
def rsTwoSidedExponents : Finset Nat := Finset.Icc 1 16 ∪ Finset.Icc 239 254

/-- The polynomial with the roots `alpha^1, …, alpha^16` and their inverses. -/
def rsTwoSidedPoly : RsField[X] := ∏ e ∈ rsTwoSidedExponents, (X - C (rsAlpha ^ e))

/-- The data are the highest 239 of the 255 coefficients of a multiple of `rsTwoSidedPoly`. -/
def RsTwoSided (data : Vector UInt8 239) : Prop :=
  ∃ q : RsField[X], (rsTwoSidedPoly * q).degree < 255 ∧
    ∀ j : Fin 239, (rsTwoSidedPoly * q).coeff (254 - j.val) = rsSymbols data j

theorem rsCodewordPoly_eq (data : Vector UInt8 239) (parity : Vector UInt8 16) :
    rsCodewordPoly data parity = highFirst fun j => rsValue (rsWord data parity j) := by
  have word := highFirst_append (rsSymbols data) (rsSymbols parity)
  rw [← rsValue_rsWord] at word
  unfold rsCodewordPoly
  exact word.symm

/-- The syndromes are those of the mirrored word. -/
theorem eccRsSyndromes_eq_zero_iff_eval {data : Vector UInt8 239} {parity : Vector UInt8 16} :
    eccRsSyndromes data parity = Vector.replicate 16 0 ↔
      ∀ e ∈ Finset.Icc 239 254, (rsCodewordPoly data parity).eval (rsAlpha ^ e) = 0 := by
  rw [eccRsSyndromes_eq_zero, rsCodewordPoly_eq]
  have mirror : ∀ e ≤ 255, (∑ j : Fin (239 + 16), rsValue (rsWord data parity j) * (rsAlpha ^ e) ^ j.val = 0 ↔
      (highFirst fun j => rsValue (rsWord data parity j)).eval (rsAlpha ^ (255 - e)) = 0) := by
    intro e le
    rw [sum_mul_pow_eq _ (rsAlpha_pow_inverse le), mul_eq_zero]
    exact or_iff_right (pow_ne_zero _ (pow_ne_zero _ rsAlpha_ne_zero))
  constructor
  · intro zero e mem
    rw [Finset.mem_Icc] at mem
    have here := (mirror (255 - e) (by omega)).1 (by
      have := zero ⟨254 - e, by omega⟩
      rwa [show 254 - e + 1 = 255 - e by omega] at this)
    rwa [Nat.sub_sub_self (by omega)] at here
  · intro zero i
    apply (mirror (i.val + 1) (by omega)).2
    exact zero _ (Finset.mem_Icc.2 ⟨by omega, by omega⟩)

theorem coeff_rsCodewordPoly (data : Vector UInt8 239) (parity : Vector UInt8 16) (j : Fin 239) :
    (rsCodewordPoly data parity).coeff (254 - j.val) = rsSymbols data j := by
  have here := coeff_highFirst (fun j => rsValue (rsWord data parity j)) (j.castAdd 16)
  rw [← rsCodewordPoly_eq, Fin.val_castAdd] at here
  rw [here, rsWord, Fin.append_left, rsSymbols]

theorem degree_rsCodewordPoly_lt (data : Vector UInt8 239) (parity : Vector UInt8 16) :
    (rsCodewordPoly data parity).degree < 255 := by
  rw [rsCodewordPoly_eq]
  exact degree_highFirst_lt _

/-- **The syndromes of encoded data are zero for two-sided data only.** -/
theorem eccRsSyndromes_encode (data : Vector UInt8 239) :
    eccRsSyndromes data (eccRsEncode data) = Vector.replicate 16 0 ↔ RsTwoSided data := by
  rw [eccRsSyndromes_eq_zero_iff_eval]
  constructor
  · intro zero
    have divides : rsTwoSidedPoly ∣ rsCodewordPoly data (eccRsEncode data) := by
      apply prod_dvd_of_eval_eq_zero
      · refine rsAlpha_pow_injOn.mono fun e mem => ?_
        have := Finset.mem_union.1 mem
        simp only [Finset.mem_Icc] at this
        exact Set.mem_Iio.2 (by omega)
      · intro e mem
        rcases Finset.mem_union.1 mem with low | high
        · exact eval_rsCodewordPoly_encode data low
        · exact zero e high
    obtain ⟨q, hq⟩ := divides
    refine ⟨q, ?_, fun j => ?_⟩ <;> rw [← hq]
    · exact degree_rsCodewordPoly_lt _ _
    · exact coeff_rsCodewordPoly _ _ j
  · rintro ⟨q, degree, leading⟩ e mem
    have same : rsCodewordPoly data (eccRsEncode data) = rsTwoSidedPoly * q := by
      -- the difference is a multiple of the generator polynomial below its degree
      have divides : rsGeneratorPoly ∣ rsCodewordPoly data (eccRsEncode data) - rsTwoSidedPoly * q := by
        refine dvd_sub (rsGeneratorPoly_dvd data) (Dvd.dvd.mul_right ?_ q)
        rw [rsGeneratorPoly_eq]
        exact Finset.prod_dvd_prod_of_subset _ _ _ Finset.subset_union_left
      have below : (rsCodewordPoly data (eccRsEncode data) - rsTwoSidedPoly * q).degree <
          rsGeneratorPoly.degree := by
        rw [degree_eq_natDegree rsGeneratorPoly_monic.ne_zero, natDegree_rsGeneratorPoly]
        rw [degree_lt_iff_coeff_zero]
        intro n le
        rw [coeff_sub, sub_eq_zero]
        rcases Nat.lt_or_ge n 255 with lt | ge
        · have here := leading ⟨254 - n, by omega⟩
          have there := coeff_rsCodewordPoly data (eccRsEncode data) ⟨254 - n, by omega⟩
          rw [Nat.sub_sub_self (by omega)] at here there
          rw [here, there]
        · have top : (255 : WithBot Nat) ≤ n := by exact_mod_cast ge
          rw [coeff_eq_zero_of_degree_lt (lt_of_lt_of_le (degree_rsCodewordPoly_lt _ _) top),
            coeff_eq_zero_of_degree_lt (lt_of_lt_of_le degree top)]
      by_contra ne
      exact rsGeneratorPoly_monic.not_dvd_of_degree_lt (sub_ne_zero.2 ne) below divides
    have root : e ∈ rsTwoSidedExponents := Finset.mem_union_right _ mem
    rw [same, eval_mul, rsTwoSidedPoly, eval_prod, Finset.prod_eq_zero root, zero_mul]
    rw [eval_sub, eval_X, eval_C, sub_self]

/-- **Exactly the two-sided data have zero syndromes and show one to sixteen changed symbols.** -/
theorem ecc_rs_syndromes_detect_iff (data : Vector UInt8 239) :
    (eccRsSyndromes data (eccRsEncode data) = Vector.replicate 16 0 ∧
      ∀ data' parity',
        1 ≤ hammingDist (rsWord data (eccRsEncode data)) (rsWord data' parity') →
        hammingDist (rsWord data (eccRsEncode data)) (rsWord data' parity') ≤ 16 →
        eccRsSyndromes data' parity' ≠ Vector.replicate 16 0) ↔ RsTwoSided data := by
  rw [← eccRsSyndromes_encode]
  refine ⟨And.left, fun clean => ⟨clean, ?_⟩⟩
  intro data' parity' some few clean'
  have := eccRsSyndromes_detect clean clean' few
  omega

/-- The message `0, …, 0, 1`. -/
def lastByteOne : Vector UInt8 239 := (Vector.replicate 239 0).set 238 1

theorem rsTwoSidedPoly_monic : rsTwoSidedPoly.Monic := monic_prod_of_monic _ _ fun _ _ => monic_X_sub_C _

theorem natDegree_rsTwoSidedPoly : rsTwoSidedPoly.natDegree = 32 := by
  rw [rsTwoSidedPoly, natDegree_prod_of_monic _ _ fun _ _ => monic_X_sub_C _]
  simp only [natDegree_X_sub_C, Finset.sum_const, smul_eq_mul, mul_one]
  rfl

/-- Encoded, it has a syndrome other than zero. -/
theorem ecc_rs_syndromes_last_byte_one :
    eccRsSyndromes lastByteOne (eccRsEncode lastByteOne) ≠ Vector.replicate 16 0 := by
  rw [Ne, eccRsSyndromes_encode]
  -- a multiple of degree 16 would have fewer coefficients than the divisor
  rintro ⟨q, degree, leading⟩
  have one : (rsTwoSidedPoly * q).coeff 16 = 1 := (leading ⟨238, by decide⟩).trans rsValue_one
  have below : (rsTwoSidedPoly * q).degree < rsTwoSidedPoly.degree := by
    rw [degree_eq_natDegree rsTwoSidedPoly_monic.ne_zero, natDegree_rsTwoSidedPoly, degree_lt_iff_coeff_zero]
    intro n le
    rcases Nat.lt_or_ge n 255 with lt | ge
    · have zero : lastByteOne[254 - n] = 0 := by
        rw [lastByteOne, Vector.getElem_set_ne _ _ (by omega), Vector.getElem_replicate]
      have here := leading ⟨254 - n, by omega⟩
      rw [Nat.sub_sub_self (by omega), rsSymbols, get_mk, zero, rsValue_zero] at here
      exact here
    · exact coeff_eq_zero_of_degree_lt (lt_of_lt_of_le degree (by exact_mod_cast ge))
  refine rsTwoSidedPoly_monic.not_dvd_of_degree_lt (fun zero => ?_) below (Dvd.intro q rfl)
  rw [zero, coeff_zero] at one
  exact zero_ne_one one

end

end MiniHardware.Storage
