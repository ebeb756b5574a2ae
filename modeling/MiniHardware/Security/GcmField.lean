import Mathlib.Algebra.Ring.TransferInstance
import MiniHardware.Lib.BitPoly
import MiniHardware.Lib.Bytes
import MiniHardware.Security.Gcm

/-!
# `gcm_mult` multiplies polynomials

The first bit of a block, the most significant one of byte 0, is the constant
coefficient. `V >> 1` multiplies by `X` modulo `X^128 + X^7 + X^2 + X + 1`,
so the loop multiplies, and the blocks with `xor` and `gcm_mult` are the
quotient ring. GHASH is then a polynomial in the hash key, and with the bits in
the other order the same ring has the tweaks of XTS.
-/

namespace MiniHardware.Security
open Lib Polynomial

/-- Coefficient `i` of a block. -/
def gcmBit (v : AesBlock) (i : Fin 128) : Bool := byteBit (v.get (byteIdx i)) (7 - i.val % 8)

/-- The bits of the reduction `0xE1`. -/
def gcmLow (i : Fin 128) : Bool := decide (i = 0 ∨ i = 1 ∨ i = 2 ∨ i = 7)

/-- `0x80` followed by zeros. -/
def oneBlock : AesBlock := zeroBlock.setIfInBounds 0 0x80

/-! ## The bits of a block -/

/-- The bits of a sum are the sums of the bits. -/
theorem gcmBit_xorBlock (a b : AesBlock) : gcmBit (xorBlock a b) = fun i => gcmBit a i ^^ gcmBit b i := by
  funext i
  simp only [gcmBit, byteIdx, get_mk, xorBlock, Vector.getElem_zipWith, byteBit_xor]

theorem gcmBit_zeroBlock (i : Fin 128) : gcmBit zeroBlock i = false := by
  simp only [gcmBit, byteIdx, get_mk, zeroBlock, Vector.getElem_replicate, byteBit_zero]

theorem gcmBit_oneBlock (i : Fin 128) : gcmBit oneBlock i = decide (i = 0) := by
  revert i
  decide +kernel

/-- A block is known by its bits. -/
theorem gcmBit_injective : Function.Injective gcmBit := by
  intro a b h
  refine Vector.ext fun j hj => ?_
  apply byte_ext
  intro k hk
  have here := congrFun h ⟨8 * j + (7 - k), by omega⟩
  simp only [gcmBit, byteIdx, get_mk] at here
  simpa only [show (8 * j + (7 - k)) / 8 = j by omega, show 7 - (8 * j + (7 - k)) % 8 = k by omega]
    using here

/-- Any bits are those of a block. -/
theorem gcmBit_surjective : Function.Surjective gcmBit := by
  intro b
  refine ⟨Vector.ofFn fun j => ofBits fun k => b ⟨8 * j.val + (7 - k.val), by omega⟩, ?_⟩
  funext i
  have here := byteBit_ofBits (fun k => b ⟨8 * (i.val / 8) + (7 - k.val), by omega⟩)
    ⟨7 - i.val % 8, by omega⟩
  simp only [gcmBit, byteIdx, get_mk, Vector.getElem_ofFn]
  rw [here]
  congr 1
  apply Fin.ext
  dsimp only
  omega

/-- The shift of the bytes moves every bit one place on, in the order of GCM. -/
theorem gcmBit_shiftRightBytes (v : AesBlock) :
    gcmBit (shiftRightBytes v) = Fin.cons false fun i : Fin 127 => gcmBit v i.castSucc := by
  funext i
  refine Fin.cases ?_ (fun i => ?_) i
  · rw [Fin.cons_zero]
    have first : (shiftRightBytes v).get 0 = v.get 0 >>> 1 := Vector.getElem_ofFn _
    show byteBit ((shiftRightBytes v).get 0) 7 = false
    rw [first, byteBit_shiftRight_one, byteBit_of_le _ (Nat.le_refl 8)]
  · rw [Fin.cons_succ]
    simp only [gcmBit, byteIdx, get_mk, shiftRightBytes, Vector.getElem_ofFn, Fin.val_succ,
      Fin.val_castSucc]
    by_cases first : (i.val + 1) / 8 = 0
    · simp only [first, if_true, byteBit_shiftRight_one]
      congr 1
      · simp only [show i.val / 8 = 0 by omega]
        rfl
      · omega
    · rw [if_neg first, byteBit_or, byteBit_shiftRight_one, byteBit_shiftLeft_seven _ (by omega)]
      by_cases boundary : (i.val + 1) % 8 = 0
      · -- the lowest bit of the byte before
        rw [byteBit_of_le _ (by omega), boundary]
        simp only [show i.val / 8 = (i.val + 1) / 8 - 1 by omega, show i.val % 8 = 7 by omega]
        rfl
      · rw [decide_eq_false (by omega), Bool.false_and, Bool.or_false]
        simp only [show i.val / 8 = (i.val + 1) / 8 by omega,
          show 7 - i.val % 8 = 7 - (i.val + 1) % 8 + 1 by omega]

/-- The constant `0xE1` in the order of GCM. -/
theorem gcmLow_eq (i : Fin 128) : gcmLow i = if i.val / 8 = 0 then byteBit 0xE1 (7 - i.val % 8) else false := by
  revert i
  decide

/-- `V >> 1` with the reduction. -/
theorem gcmBit_shiftRightReduce (v : AesBlock) :
    gcmBit (shiftRightReduce v) = double gcmLow (gcmBit v) := by
  funext i
  have last : gcmBit v (Fin.last 127) = byteBit v[15] 0 := rfl
  have shape : shiftRightReduce v =
      if v[15] &&& 1 ≠ 0 then
        (shiftRightBytes v).setIfInBounds 0 ((shiftRightBytes v)[0] ^^^ 0xE1)
      else shiftRightBytes v := rfl
  rw [double, ← gcmBit_shiftRightBytes, last, shape, gcmLow_eq]
  by_cases lsb : byteBit v[15] 0 = true
  · rw [if_pos ((and_one_ne_zero _).2 lsb), lsb, Bool.true_and]
    by_cases first : i.val / 8 = 0
    · simp only [gcmBit, byteIdx, get_mk, first, if_true, Vector.getElem_setIfInBounds_self,
        byteBit_xor]
    · rw [if_neg first, Bool.xor_false]
      simp only [gcmBit, byteIdx, get_mk]
      rw [Vector.getElem_setIfInBounds_ne _ (Ne.symm first)]
  · rw [if_neg fun ne => lsb ((and_one_ne_zero _).1 ne), Bool.eq_false_iff.2 lsb, Bool.false_and,
      Bool.xor_false]

/-! ## The tweaks of XTS (`memory_crypto.c`)

The first bit of a block is the least significant one of byte 0 here. -/

/-- The body of the loop, with `carry`. -/
def multAlphaByte (s : AesBlock × UInt8) (i : Fin 16) : AesBlock × UInt8 :=
  let newCarry := s.1.get i >>> 7
  (s.1.setIfInBounds i ((s.1.get i <<< 1) ||| s.2), newCarry)

def xtsMultAlpha (block : AesBlock) : AesBlock :=
  let (block, carry) := (List.finRange 16).foldl multAlphaByte (block, 0)
  if carry ≠ 0 then block.setIfInBounds 0 (block.get 0 ^^^ 0x87) else block

def sectorBytes (sector : UInt64) : AesBlock := Vector.ofFn fun i =>
  if i.val < 8 then ((sector >>> UInt64.ofNat (8 * i.val)) &&& 0xFF).toUInt8 else 0

def xtsComputeTweak (k2Ctx : MiniHwSecAesCtx) (sector blockNum : UInt64) : AesBlock :=
  (List.range blockNum.toNat).foldl (fun tweak _ => xtsMultAlpha tweak) (aesEncrypt k2Ctx (sectorBytes sector))

/-- Coefficient `i` of a block. -/
def xtsBit (v : AesBlock) (i : Fin 128) : Bool := byteBit (v.get (byteIdx i)) (i.val % 8)

theorem get_setIfInBounds (v : AesBlock) {i : Nat} (j : Fin 16) (x : UInt8) :
    (v.setIfInBounds i x).get j = if j.val = i then x else v.get j := by
  rw [get_eq, get_eq, Vector.getElem_setIfInBounds]
  exact if_congr eq_comm rfl rfl

/-- The carry into byte `i`. -/
def carryInto (v : AesBlock) : Nat → UInt8
  | 0 => 0
  | i + 1 => v.toList.getD i 0 >>> 7

/-- What is carried into a byte is the top bit of the one before. -/
theorem carryInto_succ (v : AesBlock) (i : Fin 16) : carryInto v (i + 1) = v.get i >>> 7 := by
  rw [carryInto, List.getD_eq_getElem _ _ (by rw [Vector.length_toList]; exact i.isLt)]
  rfl

/-- The bytes, moved up by one bit. -/
theorem multAlpha_loop (v : AesBlock) :
    ((List.finRange 16).foldl multAlphaByte (v, 0)).2 = v.get 15 >>> 7 ∧
      ∀ j : Fin 16, ((List.finRange 16).foldl multAlphaByte (v, 0)).1.get j = (v.get j <<< 1) ||| carryInto v j := by
  obtain ⟨carry, bytes⟩ := finRange_foldl_invariant (n := 16) (f := multAlphaByte)
    (motive := fun i s => s.2 = carryInto v i ∧
      ∀ j : Fin 16, s.1.get j = if j.val < i then (v.get j <<< 1) ||| carryInto v j else v.get j)
    (s := (v, 0)) ⟨rfl, fun j => (if_neg (Nat.not_lt_zero _)).symm⟩ (by
      rintro i s ⟨carry, bytes⟩
      have here : s.1.get i = v.get i := (bytes i).trans (if_neg (Nat.lt_irrefl _))
      rw [multAlphaByte]
      refine ⟨?_, fun j => ?_⟩
      · rw [carryInto_succ, ← here]
      · rw [get_setIfInBounds, here, carry]
        by_cases eq : j.val = i.val
        · rw [if_pos eq, if_pos (by omega), Fin.ext eq]
        · rw [if_neg eq, bytes j]
          exact if_congr (by omega) rfl rfl)
  exact ⟨carry.trans (carryInto_succ v 15), fun j => (bytes j).trans (if_pos j.isLt)⟩

/-- Bits of a byte shifted left by one. -/
theorem byteBit_double (x : UInt8) {k : Nat} (lt : k < 8) :
    byteBit (x <<< 1) k = if k = 0 then false else byteBit x (k - 1) := by
  have value : (x <<< 1).toNat = x.toNat <<< 1 % 2 ^ 8 := UInt8.toNat_shiftLeft x 1
  rw [byteBit, value, Nat.testBit_mod_two_pow, decide_eq_true lt, Bool.true_and, Nat.testBit_shiftLeft]
  split
  · rename_i zero
    rw [decide_eq_false (by omega), Bool.false_and]
  · rw [decide_eq_true (by omega), Bool.true_and, byteBit]

/-- Shifting right by seven leaves the top bit alone, at the bottom. -/
theorem byteBit_shiftRight_seven (x : UInt8) {k : Nat} (lt : k < 8) :
    byteBit (x >>> 7) k = if k = 0 then byteBit x 7 else false := by
  have value : (x >>> 7).toNat = x.toNat >>> 7 := UInt8.toNat_shiftRight x 7
  rw [byteBit, value, Nat.testBit_shiftRight]
  split
  · rename_i zero
    rw [zero, byteBit]
  · have small : x.toNat < 2 ^ (7 + k) :=
      Nat.lt_of_lt_of_le x.toNat_lt (Nat.pow_le_pow_right Nat.two_pos (by omega))
    exact Nat.testBit_lt_two_pow small

theorem shiftRight_seven_ne_zero (x : UInt8) : x >>> 7 ≠ 0 ↔ byteBit x 7 = true := by
  have first : byteBit (x >>> 7) 0 = byteBit x 7 := (byteBit_shiftRight_seven x (by omega)).trans (if_pos rfl)
  rw [← first]
  constructor
  · intro some_
    by_contra none_
    refine some_ (byte_ext fun k lt => ?_)
    rw [byteBit_zero, byteBit_shiftRight_seven x lt]
    split
    · rw [← first, Bool.not_eq_true] at *
      exact none_
    · rfl
  · intro set_ zero
    rw [zero, byteBit_zero] at set_
    cases set_
/-- A carry has no bit but the lowest. -/
theorem byteBit_carryInto (v : AesBlock) (i : Nat) {k : Nat} (lt : k < 8) (pos : k ≠ 0) :
    byteBit (carryInto v i) k = false := by
  cases i with
  | zero => exact byteBit_zero k
  | succ i => exact (byteBit_shiftRight_seven _ lt).trans (if_neg pos)

/-- Shifting all bytes left with their carries moves every bit one place on, in the order of XTS. -/
theorem xtsBit_moved {v w : AesBlock} (bytes : ∀ j : Fin 16, w.get j = (v.get j <<< 1) ||| carryInto v j) (i : Fin 128) :
    xtsBit w i = (Fin.cons false (fun j : Fin 127 => xtsBit v j.castSucc) : Fin 128 → Bool) i := by
  have lt : i.val % 8 < 8 := Nat.mod_lt _ (by decide)
  rw [xtsBit, bytes, byteBit_or, byteBit_double _ lt]
  cases i using Fin.cases with
  | zero =>
    have zero : (0 : Fin 128).val % 8 = 0 := rfl
    rw [Fin.cons_zero, if_pos zero, Bool.false_or]
    exact byteBit_zero 0
  | succ m =>
    rw [Fin.cons_succ]
    rw [Fin.val_succ] at lt ⊢
    by_cases first : (m.val + 1) % 8 = 0
    · have byte : (byteIdx m.succ).val = (byteIdx m.castSucc).val + 1 := by
        show (m.val + 1) / 8 = m.val / 8 + 1
        omega
      have bit : m.val % 8 = 7 := by omega
      rw [if_pos first, first, Bool.false_or, byte, carryInto_succ, byteBit_shiftRight_seven _ (by decide), if_pos rfl,
        xtsBit, Fin.val_castSucc, bit]
    · have byte : byteIdx m.succ = byteIdx m.castSucc := by
        apply Fin.ext
        show (m.val + 1) / 8 = m.val / 8
        omega
      have bit : (m.val + 1) % 8 - 1 = m.val % 8 := by omega
      rw [if_neg first, byteBit_carryInto v _ lt first, Bool.or_false, byte, bit]
      rfl

/-- The constant `0x87` in the order of XTS is the same polynomial. -/
theorem gcmLow_eq_xts (i : Fin 128) : gcmLow i = if i.val / 8 = 0 then byteBit 0x87 (i.val % 8) else false := by
  revert i
  decide

/-- The tweak is multiplied by `X`. -/
theorem xtsBit_multAlpha (v : AesBlock) : xtsBit (xtsMultAlpha v) = double gcmLow (xtsBit v) := by
  obtain ⟨carry, bytes⟩ := multAlpha_loop v
  rw [xtsMultAlpha]
  generalize (List.finRange 16).foldl multAlphaByte (v, 0) = s at carry bytes
  obtain ⟨w, c⟩ := s
  dsimp only at carry bytes ⊢
  have last : xtsBit v (Fin.last 127) = byteBit (v.get 15) 7 := rfl
  have out : c ≠ 0 ↔ byteBit (v.get 15) 7 = true := by
    rw [carry]
    exact shiftRight_seven_ne_zero (v.get 15)
  funext i
  rw [double, ← xtsBit_moved bytes, last, gcmLow_eq_xts]
  by_cases top : byteBit (v.get 15) 7 = true
  · have byte : (byteIdx i).val = i.val / 8 := rfl
    rw [if_pos (out.2 top), top, Bool.true_and, xtsBit, get_setIfInBounds, byte]
    by_cases first : i.val / 8 = 0
    · have zero : byteIdx i = 0 := Fin.ext first
      rw [if_pos first, if_pos first, byteBit_xor, xtsBit, zero]
    · rw [if_neg first, if_neg first, Bool.xor_false]
      rfl
  · rw [if_neg fun ne => top (out.1 ne), Bool.eq_false_iff.2 top, Bool.false_and, Bool.xor_false]

/-! ## The loop -/

noncomputable section

/-- A block as an element of the quotient ring. -/
def gcmValue (v : AesBlock) : AdjoinRoot (modulus gcmLow) := residue gcmLow (gcmBit v)

/-- A block is known by its value in the field. -/
theorem gcmValue_injective : Function.Injective gcmValue := residue_injective.comp gcmBit_injective

/-- Every element of the field is the value of a block. -/
theorem gcmValue_surjective : Function.Surjective gcmValue :=
  residue_surjective.comp gcmBit_surjective

/-- Exclusive or is the addition of the field. -/
theorem gcmValue_xorBlock (a b : AesBlock) : gcmValue (xorBlock a b) = gcmValue a + gcmValue b := by
  rw [gcmValue, gcmBit_xorBlock]
  exact residue_xor _ _

theorem gcmValue_zeroBlock : gcmValue zeroBlock = 0 := by
  rw [gcmValue, funext gcmBit_zeroBlock, residue_zero]

theorem gcmValue_oneBlock : gcmValue oneBlock = 1 := by
  rw [gcmValue, funext gcmBit_oneBlock, residue_decide_eq]
  exact pow_zero _

/-- The bitwise product of the code is the product of the field. -/
theorem gcmValue_gcmMult (x y : AesBlock) : gcmValue (gcmMult x y) = gcmValue x * gcmValue y := by
  have coeffs : gcmValue x =
      ∑ i : Fin 128, if gcmBit x i then AdjoinRoot.root (modulus gcmLow) ^ i.val else 0 :=
    residue_eq_sum _
  have product := @shift_add 128 (AesBlock × AesBlock) _ _ (fun s => gcmValue s.1) (fun s => gcmValue s.2)
    (AdjoinRoot.root (modulus gcmLow)) (gcmBit x) (fun _ _ => True) (gcmMultStep x)
    (fun _ _ _ => trivial) ?_ ?_ (zeroBlock, y) trivial gcmValue_zeroBlock
  · rw [coeffs]
    exact product
  · intro s i _
    rw [gcmMultStep]
    dsimp only
    by_cases h : gcmBit x i = true
    · rw [if_pos ((and_shiftLeft_ne_zero _ (by omega)).2 h), if_pos h, gcmValue_xorBlock]
    · rw [if_neg fun ne => h ((and_shiftLeft_ne_zero _ (by omega)).1 ne), if_neg h, add_zero]
  · intro s i
    rw [gcmMultStep, gcmValue, gcmBit_shiftRightReduce]
    exact residue_double gcmLow (gcmBit s.2)

/-! ## The ring of blocks -/

/-- The block as a polynomial, under the bit order of GCM. -/
def gcmPoly (v : AesBlock) : (ZMod 2)[X] := ∑ i : Fin 128, C (bit2 (gcmBit v i)) * X ^ i.val

/-- The modulus as it is written down. -/
theorem modulus_gcmLow : modulus gcmLow = X ^ 128 + X ^ 7 + X ^ 2 + X + 1 := by
  have terms : bitPoly gcmLow = ∑ i : Fin 128, if i ∈ ({0, 1, 2, 7} : Finset (Fin 128)) then X ^ i.val else 0 := by
    refine Finset.sum_congr rfl fun i _ => ?_
    by_cases h : i = 0 ∨ i = 1 ∨ i = 2 ∨ i = 7
    · rw [gcmLow, decide_eq_true h, if_pos (by simpa using h), show bit2 true = 1 from rfl, C_1, one_mul]
    · rw [gcmLow, decide_eq_false h, if_neg (by simpa using h), show bit2 false = 0 from rfl, C_0, zero_mul]
  rw [modulus, terms, Finset.sum_ite_mem, Finset.univ_inter]
  rw [Finset.sum_insert (by decide), Finset.sum_insert (by decide), Finset.sum_insert (by decide),
    Finset.sum_singleton, show ((0 : Fin 128) : Nat) = 0 from rfl, show ((1 : Fin 128) : Nat) = 1 from rfl,
    show ((2 : Fin 128) : Nat) = 2 from rfl, show ((7 : Fin 128) : Nat) = 7 from rfl]
  ring

/-- The blocks, with the operations of the quotient ring. -/
abbrev gcmRing : CommRing AesBlock :=
  (Equiv.ofBijective gcmValue ⟨gcmValue_injective, gcmValue_surjective⟩).commRing

/-- **The blocks are a commutative ring** with `xor` as addition, `gcm_mult` as multiplication and
`0x80 0 … 0` as one, and `gcm_mult` is the product modulo `X^128 + X^7 + X^2 + X + 1`. -/
theorem gcm_mult_ring :
    ∃ ring : CommRing AesBlock, (∀ a b, ring.add a b = xorBlock a b) ∧
      (∀ a b, ring.mul a b = gcmMult a b) ∧ ring.zero = zeroBlock ∧ ring.one = oneBlock ∧
      ∀ a b, gcmPoly (gcmMult a b) =
        gcmPoly a * gcmPoly b %ₘ (X ^ 128 + X ^ 7 + X ^ 2 + X + 1) := by
  have undo : ∀ v x, gcmValue v = x →
      (Equiv.ofBijective gcmValue ⟨gcmValue_injective, gcmValue_surjective⟩).symm x = v := by
    rintro v _ rfl
    exact Equiv.ofBijective_symm_apply_apply _ _ v
  refine ⟨gcmRing, fun a b => undo _ _ (gcmValue_xorBlock a b), fun a b => undo _ _ (gcmValue_gcmMult a b),
    undo _ _ gcmValue_zeroBlock, undo _ _ gcmValue_oneBlock, fun a b => ?_⟩
  rw [← modulus_gcmLow]
  exact bitPoly_eq_mod_of_residue (gcmValue_gcmMult a b)

/-! ## GHASH is a polynomial in the hash key -/

/-- The blocks one of the loops adds. -/
def dataBlocks : List UInt8 → List AesBlock
  | [] => []
  | b :: bs => padBlock ((b :: bs).take 16) :: dataBlocks ((b :: bs).drop 16)
termination_by bytes => bytes.length
decreasing_by simp only [List.length_drop, List.length_cons]; omega

/-- `len_block`. -/
def lengthBlock (aadLen cipherLen : Nat) : AesBlock := Vector.ofFn fun i =>
  if i.val < 8 then byteOfLength (UInt64.ofNat aadLen * 8) i.val
  else byteOfLength (UInt64.ofNat cipherLen * 8) (i.val - 8)

def ghashTerms (aad cipher : List UInt8) : List AesBlock :=
  dataBlocks aad ++ dataBlocks cipher ++ [lengthBlock aad.length cipher.length]

/-- What GHASH evaluates, known to all who see the message. -/
def ghashPoly (aad cipher : List UInt8) : (AdjoinRoot (modulus gcmLow))[X] :=
  horner ((ghashTerms aad cipher).map gcmValue)

section Ghash
variable {aad cipher aad' cipher' : List UInt8}

/-- GHASH goes through the blocks of the padded data. -/
theorem ghashBlocks_eq (h y : AesBlock) (bytes : List UInt8) :
    ghashBlocks h y bytes = (dataBlocks bytes).foldl (fun y b => gcmMult (xorBlock y b) h) y := by
  induction y, bytes using ghashBlocks.induct h with
  | case1 y =>
    rw [ghashBlocks, dataBlocks]
    rfl
  | case2 y b bs ih =>
    rw [ghashBlocks, dataBlocks, ih]
    rfl

/-- GHASH is evaluated as a Horner scheme. -/
theorem gcmValue_terms (h : AesBlock) (l : List AesBlock) (y : AesBlock) :
    gcmValue (l.foldl (fun y b => gcmMult (xorBlock y b) h) y) =
      (l.map gcmValue).foldl (fun y c => (y + c) * gcmValue h) (gcmValue y) := by
  induction l generalizing y with
  | nil => rfl
  | cons b l ih => rw [List.foldl_cons, ih, gcmValue_gcmMult, gcmValue_xorBlock, List.map_cons, List.foldl_cons]

/-- GHASH is the value of a polynomial at the hash key. -/
theorem gcmValue_ghash (h : AesBlock) (aad cipher : List UInt8) :
    gcmValue (ghash h aad cipher) = (ghashPoly aad cipher).eval (gcmValue h) := by
  have terms : ghash h aad cipher = (ghashTerms aad cipher).foldl (fun y b => gcmMult (xorBlock y b) h) zeroBlock := by
    rw [ghash, ghashBlocks_eq, ghashBlocks_eq, ghashTerms, List.foldl_append, List.foldl_append]
    rfl
  rw [terms, gcmValue_terms, gcmValue_zeroBlock, ghashPoly, eval_horner]

theorem length_dataBlocks (bytes : List UInt8) : (dataBlocks bytes).length = (bytes.length + 15) / 16 := by
  induction bytes using dataBlocks.induct with
  | case1 => rw [dataBlocks]; rfl
  | case2 b bs ih =>
    rw [dataBlocks, List.length_cons, ih, List.length_drop, List.length_cons]
    omega

/-- Padding loses nothing where the length is known. -/
theorem dataBlocks_inj {bytes bytes' : List UInt8} (same : bytes.length = bytes'.length)
    (eq : dataBlocks bytes = dataBlocks bytes') : bytes = bytes' := by
  induction bytes using dataBlocks.induct generalizing bytes' with
  | case1 => exact (List.length_eq_zero_iff.1 same.symm).symm
  | case2 b bs ih =>
    cases bytes' with
    | nil => exact absurd same (Nat.succ_ne_zero _)
    | cons b' bs' =>
      rw [dataBlocks, dataBlocks, List.cons.injEq] at eq
      have rest := ih (by rw [List.length_drop, List.length_drop, same]) eq.2
      have front : (b :: bs).take 16 = (b' :: bs').take 16 := by
        refine List.ext_getElem (by rw [List.length_take, List.length_take, same]) fun k lt lt' => ?_
        have here := congrArg (·.get ⟨k, lt_of_lt_of_le lt (List.length_take_le _ _)⟩) eq.1
        rw [padBlock, padBlock, get_ofFn, get_ofFn, List.getD_eq_getElem _ _ lt, List.getD_eq_getElem _ _ lt'] at here
        exact here
      rw [← List.take_append_drop 16 (b :: bs), front, rest, List.take_append_drop]

theorem toNat_byteOfLength (bits : UInt64) {i : Nat} (lt : i < 8) :
    (byteOfLength bits i).toNat = bits.toNat / 2 ^ (56 - 8 * i) % 256 := by
  have shift : (UInt64.ofNat (56 - 8 * i)).toNat = 56 - 8 * i := UInt64.toNat_ofNat_of_lt' (by
    show 56 - 8 * i < 2 ^ 64
    omega)
  have small : (56 - 8 * i) % 64 = 56 - 8 * i := Nat.mod_eq_of_lt (by omega)
  rw [byteOfLength, UInt64.toNat_toUInt8, UInt64.toNat_shiftRight, shift, small, Nat.shiftRight_eq_div_pow]

/-- The eight bytes of a length determine it. -/
theorem byteOfLength_inj {bits bits' : UInt64} (same : ∀ i < 8, byteOfLength bits i = byteOfLength bits' i) :
    bits = bits' := by
  have bytes (i : Nat) (lt : i < 8) : bits.toNat / 2 ^ (56 - 8 * i) % 256 = bits'.toNat / 2 ^ (56 - 8 * i) % 256 := by
    rw [← toNat_byteOfLength bits lt, ← toNat_byteOfLength bits' lt, same i lt]
  -- the numbers agree from the top byte down
  have upper (k : Nat) (le : k ≤ 8) : bits.toNat / 2 ^ (64 - 8 * k) = bits'.toNat / 2 ^ (64 - 8 * k) := by
    induction k with
    | zero => rw [Nat.div_eq_of_lt bits.toNat_lt, Nat.div_eq_of_lt bits'.toNat_lt]
    | succ k ih =>
      have above : 2 ^ (64 - 8 * k) = 2 ^ (56 - 8 * k) * 256 := by
        rw [show 64 - 8 * k = 56 - 8 * k + 8 by omega, Nat.pow_add]
      have ih := ih (Nat.le_of_succ_le le)
      rw [above, ← Nat.div_div_eq_div_mul, ← Nat.div_div_eq_div_mul] at ih
      rw [show 64 - 8 * (k + 1) = 56 - 8 * k by omega, ← Nat.div_add_mod (bits.toNat / 2 ^ (56 - 8 * k)) 256,
        ← Nat.div_add_mod (bits'.toNat / 2 ^ (56 - 8 * k)) 256, ih, bytes k le]
  have whole := upper 8 (Nat.le_refl 8)
  rw [Nat.pow_zero, Nat.div_one, Nat.div_one] at whole
  exact UInt64.toNat_inj.1 whole

/-- A length that fits has its own bytes. -/
theorem bits_inj {n n' : Nat} (fits : n < 2 ^ 61) (fits' : n' < 2 ^ 61)
    (same : ∀ i < 8, byteOfLength (UInt64.ofNat n * 8) i = byteOfLength (UInt64.ofNat n' * 8) i) : n = n' := by
  have bits := congrArg UInt64.toNat (byteOfLength_inj same)
  rw [UInt64.toNat_mul, UInt64.toNat_mul, UInt64.toNat_ofNat', UInt64.toNat_ofNat'] at bits
  have eight : (8 : UInt64).toNat = 8 := rfl
  rw [eight] at bits
  omega

/-- The length block determines both lengths, as long as their bit counts have room. -/
theorem lengthBlock_inj {m m' n n' : Nat} (fits : m < 2 ^ 61 ∧ m' < 2 ^ 61 ∧ n < 2 ^ 61 ∧ n' < 2 ^ 61)
    (same : lengthBlock m n = lengthBlock m' n') : m = m' ∧ n = n' := by
  have bytes (i : Fin 16) := congrArg (·.get i) same
  simp only [lengthBlock, get_ofFn] at bytes
  constructor
  · refine bits_inj fits.1 fits.2.1 fun i lt => ?_
    have here := bytes ⟨i, by omega⟩
    rwa [if_pos lt, if_pos lt] at here
  · refine bits_inj fits.2.2.1 fits.2.2.2 fun i lt => ?_
    have here := bytes ⟨i + 8, by omega⟩
    dsimp only at here
    rwa [if_neg (by omega), if_neg (by omega), Nat.add_sub_cancel] at here

/-- Other data make another polynomial. -/
theorem ghashPoly_inj
    (fits : aad.length < 2 ^ 61 ∧ aad'.length < 2 ^ 61 ∧ cipher.length < 2 ^ 61 ∧ cipher'.length < 2 ^ 61)
    (eq : ghashPoly aad cipher = ghashPoly aad' cipher') : aad = aad' ∧ cipher = cipher' := by
  have terms (aad cipher : List UInt8) : (ghashTerms aad cipher).map gcmValue =
      (dataBlocks aad ++ dataBlocks cipher).map gcmValue ++ [gcmValue (lengthBlock aad.length cipher.length)] := by
    rw [ghashTerms, List.map_append]
    rfl
  rw [ghashPoly, ghashPoly, terms, terms] at eq
  obtain ⟨data, last⟩ := horner_snoc_inj eq
  obtain ⟨aadLen, cipherLen⟩ := lengthBlock_inj fits (gcmValue_injective last)
  have length : (dataBlocks aad).length = (dataBlocks aad').length := by
    rw [length_dataBlocks, length_dataBlocks, aadLen]
  have length' : (dataBlocks cipher).length = (dataBlocks cipher').length := by
    rw [length_dataBlocks, length_dataBlocks, cipherLen]
  have blocks := List.map_injective_iff.2 gcmValue_injective (horner_inj (by simp [length, length']) data)
  obtain ⟨aadBlocks, cipherBlocks⟩ := List.append_inj blocks length
  exact ⟨dataBlocks_inj aadLen aadBlocks, dataBlocks_inj cipherLen cipherBlocks⟩

/-- **A nonce used twice gives the hash key away as a root.** The tags of two messages under one key and one IV show
what a polynomial, known from the ciphertexts, has at the hash key, and it is zero for equal messages only. -/
theorem gcm_nonce_reuse (ctx : MiniHwSecAesCtx) (iv : Vector UInt8 12) (plain plain' aad aad' : List UInt8)
    (fits : aad.length < 2 ^ 61 ∧ aad'.length < 2 ^ 61 ∧ plain.length < 2 ^ 61 ∧ plain'.length < 2 ^ 61) :
    (ghashPoly aad (gcmEncrypt ctx iv plain aad).1 - ghashPoly aad' (gcmEncrypt ctx iv plain' aad').1).eval
          (gcmValue (aesEncrypt ctx zeroBlock)) =
        gcmValue (gcmEncrypt ctx iv plain aad).2 - gcmValue (gcmEncrypt ctx iv plain' aad').2 ∧
      (ghashPoly aad (gcmEncrypt ctx iv plain aad).1 - ghashPoly aad' (gcmEncrypt ctx iv plain' aad').1 = 0 ↔
        aad = aad' ∧ plain = plain') := by
  rw [gcmEncrypt, gcmEncrypt]
  constructor
  · rw [gcmTag, gcmTag, eval_sub, gcmValue_xorBlock, gcmValue_xorBlock, gcmValue_ghash, gcmValue_ghash]
    ring
  · rw [sub_eq_zero]
    constructor
    · intro eq
      obtain ⟨sameAad, sameCipher⟩ := ghashPoly_inj (by simpa using fits) eq
      have undo := congrArg (ctrXor ctx (incrementCounter (initialCounter iv))) sameCipher
      rw [ctrXor_ctrXor, ctrXor_ctrXor] at undo
      exact ⟨sameAad, undo⟩
    · rintro ⟨rfl, rfl⟩
      rfl

/-- The key and the IV are zero. -/
theorem gcm_nonce_reuse_bytes :
    (ghashPoly [] (gcmEncrypt (aesInit (Vector.replicate 32 0)) (Vector.replicate 12 0) [1] []).1 -
            ghashPoly [7] (gcmEncrypt (aesInit (Vector.replicate 32 0)) (Vector.replicate 12 0) [2, 3] [7]).1).eval
          (gcmValue (aesEncrypt (aesInit (Vector.replicate 32 0)) zeroBlock)) =
        gcmValue (gcmEncrypt (aesInit (Vector.replicate 32 0)) (Vector.replicate 12 0) [1] []).2 -
          gcmValue (gcmEncrypt (aesInit (Vector.replicate 32 0)) (Vector.replicate 12 0) [2, 3] [7]).2 ∧
      (ghashPoly [] (gcmEncrypt (aesInit (Vector.replicate 32 0)) (Vector.replicate 12 0) [1] []).1 -
          ghashPoly [7] (gcmEncrypt (aesInit (Vector.replicate 32 0)) (Vector.replicate 12 0) [2, 3] [7]).1 = 0 ↔
        ([] : List UInt8) = [7] ∧ ([1] : List UInt8) = [2, 3]) :=
  gcm_nonce_reuse (aesInit (Vector.replicate 32 0)) (Vector.replicate 12 0) [1] [2, 3] [] [7] (by decide)

end Ghash

/-! ## The tweaks as powers -/

/-- A block as an element of the quotient ring. -/
def xtsValue (v : AesBlock) : AdjoinRoot (modulus gcmLow) := residue gcmLow (xtsBit v)

/-- **The tweak of a block is `E(sector) * X ^ block`** modulo `X^128 + X^7 + X^2 + X + 1`. -/
theorem xtsValue_computeTweak (k2Ctx : MiniHwSecAesCtx) (sector blockNum : UInt64) :
    xtsValue (xtsComputeTweak k2Ctx sector blockNum) =
      AdjoinRoot.root (modulus gcmLow) ^ blockNum.toNat * xtsValue (aesEncrypt k2Ctx (sectorBytes sector)) := by
  rw [xtsComputeTweak]
  induction blockNum.toNat with
  | zero => rw [pow_zero, one_mul]; rfl
  | succ n ih =>
    rw [List.range_succ, List.foldl_append, pow_succ', mul_assoc, ← ih]
    show xtsValue (xtsMultAlpha _) = _
    rw [xtsValue, xtsBit_multAlpha, residue_double]
    rfl

end

end MiniHardware.Security
