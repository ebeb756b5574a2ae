import MiniHardware.Lib.Bytes
import MiniHardware.Security.Aes
import Mathlib.Data.Fintype.EquivFin
import Mathlib.Tactic.IntervalCases

/-!
# Decryption inverts encryption

Each round transformation has the one the other direction uses as its inverse.
The tables are checked entry by entry; the column matrices are additive, so
that in each entry of their products the doublings of a byte cancel.
-/

namespace MiniHardware.Security
open Lib

/-! ## The tables -/

/-- An entry, from the number of the table. -/
theorem toNat_lookup (table : Vector UInt8 256) (x : UInt8) :
    (lookup table x).toNat = tableNumber table.toList >>> (8 * x.toNat) % 256 := by
  have lt : x.toNat < (table.toList.map UInt8.toNat).length := by
    rw [List.length_map, Vector.length_toList]
    exact x.toNat_lt
  rw [tableNumber_shiftRight, List.getD_eq_getElem _ _ lt, List.getElem_map, Vector.getElem_toList]
  rfl

/-- `aesInvSbox` inverts `aesSbox`, by evaluation over all bytes. -/
theorem inv_sbox_sbox (x : UInt8) : lookup aesInvSbox (lookup aesSbox x) = x := by
  have entries : ∀ n : Fin 256, tableNumber aesInvSbox.toList >>>
      (8 * (tableNumber aesSbox.toList >>> (8 * n.val) % 256)) % 256 = n.val := by
    decide +kernel
  apply UInt8.toNat_inj.1
  rw [toNat_lookup, toNat_lookup]
  exact entries ⟨x.toNat, x.toNat_lt⟩

/-- The bytes are finite, so the left inverse is a right inverse. -/
theorem sbox_inv_sbox (x : UInt8) : lookup aesSbox (lookup aesInvSbox x) = x := by
  have : Finite UInt8 := Finite.of_injective UInt8.toFin fun _ _ h => UInt8.toFin_inj.1 h
  have left : Function.LeftInverse (lookup aesInvSbox) (lookup aesSbox) := inv_sbox_sbox
  exact left.rightInverse_of_surjective (Finite.surjective_of_injective left.injective) x

/-- `InvSubBytes` undoes `SubBytes`. -/
theorem invSubBytes_subBytes (s : AesBlock) : invSubBytes (subBytes s) = s := by
  ext i h
  simp [invSubBytes, subBytes, inv_sbox_sbox]

/-- `SubBytes` undoes `InvSubBytes`. -/
theorem subBytes_invSubBytes (s : AesBlock) : subBytes (invSubBytes s) = s := by
  ext i h
  simp [invSubBytes, subBytes, sbox_inv_sbox]

/-! ## The rows -/

/-- `InvShiftRows` undoes `ShiftRows`. -/
theorem invShiftRows_shiftRows (s : AesBlock) : invShiftRows (shiftRows s) = s := by
  ext i h
  interval_cases i <;> rfl

/-- `ShiftRows` undoes `InvShiftRows`. -/
theorem shiftRows_invShiftRows (s : AesBlock) : shiftRows (invShiftRows s) = s := by
  ext i h
  interval_cases i <;> rfl

/-! ## The columns -/

/-- The reduction is a shift and a conditional `xor`, both additive. -/
theorem gfMul2_eq (x : UInt8) : gfMul2 x = (x <<< 1) ^^^ (x >>> 7) * 0x1B :=
  forall_byte (p := fun x => gfMul2 x = (x <<< 1) ^^^ (x >>> 7) * 0x1B) (by decide +kernel) x

/-- The top bit is all that a shift by seven leaves. -/
theorem topBit_cases (x : UInt8) : x >>> 7 = 0 ∨ x >>> 7 = 1 :=
  forall_byte (p := fun x => x >>> 7 = 0 ∨ x >>> 7 = 1) (by decide +kernel) x

/-- Doubling is linear. -/
theorem gfMul2_xor (x y : UInt8) : gfMul2 (x ^^^ y) = gfMul2 x ^^^ gfMul2 y := by
  have top : ((x ^^^ y) >>> 7) * (0x1B : UInt8) =
      ((x >>> 7) * (0x1B : UInt8)) ^^^ ((y >>> 7) * (0x1B : UInt8)) := by
    rw [UInt8.shiftRight_xor]
    rcases topBit_cases x with h | h <;> rcases topBit_cases y with h' | h' <;> rw [h, h'] <;> decide
  rw [gfMul2_eq, gfMul2_eq, gfMul2_eq, top, UInt8.shiftLeft_xor]
  ac_rfl

theorem gfMul3_xor (x y : UInt8) : gfMul3 (x ^^^ y) = gfMul3 x ^^^ gfMul3 y := by
  simp only [gfMul3, gfMul2_xor]; ac_rfl

theorem gfMul9_xor (x y : UInt8) : gfMul9 (x ^^^ y) = gfMul9 x ^^^ gfMul9 y := by
  simp only [gfMul9, gfMul2_xor]; ac_rfl

theorem gfMul11_xor (x y : UInt8) : gfMul11 (x ^^^ y) = gfMul11 x ^^^ gfMul11 y := by
  simp only [gfMul11, gfMul2_xor]; ac_rfl

theorem gfMul13_xor (x y : UInt8) : gfMul13 (x ^^^ y) = gfMul13 x ^^^ gfMul13 y := by
  simp only [gfMul13, gfMul2_xor]; ac_rfl

theorem gfMul14_xor (x y : UInt8) : gfMul14 (x ^^^ y) = gfMul14 x ^^^ gfMul14 y := by
  simp only [gfMul14, gfMul2_xor]; ac_rfl

/-- One entry of the product of the inverse matrix with the matrix, row by column. -/
theorem inv_mix_entry (a b c d : UInt8) :
    gfMul14 (gfMul2 a ^^^ gfMul3 b ^^^ c ^^^ d) ^^^ gfMul11 (a ^^^ gfMul2 b ^^^ gfMul3 c ^^^ d) ^^^
      gfMul13 (a ^^^ b ^^^ gfMul2 c ^^^ gfMul3 d) ^^^
      gfMul9 (gfMul3 a ^^^ b ^^^ c ^^^ gfMul2 d) = a := by
  have ha (a : UInt8) : gfMul14 (gfMul2 a) ^^^ gfMul11 a ^^^ gfMul13 a ^^^ gfMul9 (gfMul3 a) = a := by
    simp [gfMul14, gfMul13, gfMul11, gfMul9, gfMul3, gfMul2_xor, UInt8.xor_assoc, UInt8.xor_comm,
      byte_xor_left_comm]
  have hb (b : UInt8) : gfMul14 (gfMul3 b) ^^^ gfMul11 (gfMul2 b) ^^^ gfMul13 b ^^^ gfMul9 b = 0 := by
    simp [gfMul14, gfMul13, gfMul11, gfMul9, gfMul3, gfMul2_xor, UInt8.xor_assoc, UInt8.xor_comm,
      byte_xor_left_comm]
  have hc (c : UInt8) : gfMul14 c ^^^ gfMul11 (gfMul3 c) ^^^ gfMul13 (gfMul2 c) ^^^ gfMul9 c = 0 := by
    simp [gfMul14, gfMul13, gfMul11, gfMul9, gfMul3, gfMul2_xor, UInt8.xor_assoc, UInt8.xor_comm,
      byte_xor_left_comm]
  have hd (d : UInt8) : gfMul14 d ^^^ gfMul11 d ^^^ gfMul13 (gfMul3 d) ^^^ gfMul9 (gfMul2 d) = 0 := by
    simp [gfMul14, gfMul13, gfMul11, gfMul9, gfMul3, gfMul2_xor, UInt8.xor_assoc, UInt8.xor_comm,
      byte_xor_left_comm]
  calc
    _ = (gfMul14 (gfMul2 a) ^^^ gfMul11 a ^^^ gfMul13 a ^^^ gfMul9 (gfMul3 a)) ^^^
        (gfMul14 (gfMul3 b) ^^^ gfMul11 (gfMul2 b) ^^^ gfMul13 b ^^^ gfMul9 b) ^^^
        (gfMul14 c ^^^ gfMul11 (gfMul3 c) ^^^ gfMul13 (gfMul2 c) ^^^ gfMul9 c) ^^^
        (gfMul14 d ^^^ gfMul11 d ^^^ gfMul13 (gfMul3 d) ^^^ gfMul9 (gfMul2 d)) := by
      simp only [gfMul14_xor, gfMul11_xor, gfMul13_xor, gfMul9_xor]
      ac_rfl
    _ = a := by rw [ha, hb, hc, hd]; simp only [UInt8.xor_zero]

/-- One entry of the product the other way. -/
theorem mix_inv_entry (a b c d : UInt8) :
    gfMul2 (gfMul14 a ^^^ gfMul11 b ^^^ gfMul13 c ^^^ gfMul9 d) ^^^
      gfMul3 (gfMul9 a ^^^ gfMul14 b ^^^ gfMul11 c ^^^ gfMul13 d) ^^^
      (gfMul13 a ^^^ gfMul9 b ^^^ gfMul14 c ^^^ gfMul11 d) ^^^
      (gfMul11 a ^^^ gfMul13 b ^^^ gfMul9 c ^^^ gfMul14 d) = a := by
  have ha (a : UInt8) : gfMul2 (gfMul14 a) ^^^ gfMul3 (gfMul9 a) ^^^ gfMul13 a ^^^ gfMul11 a = a := by
    simp [gfMul14, gfMul13, gfMul11, gfMul9, gfMul3, gfMul2_xor, UInt8.xor_assoc, UInt8.xor_comm,
      byte_xor_left_comm]
  have hb (b : UInt8) : gfMul2 (gfMul11 b) ^^^ gfMul3 (gfMul14 b) ^^^ gfMul9 b ^^^ gfMul13 b = 0 := by
    simp [gfMul14, gfMul13, gfMul11, gfMul9, gfMul3, gfMul2_xor, UInt8.xor_assoc, UInt8.xor_comm,
      byte_xor_left_comm]
  have hc (c : UInt8) : gfMul2 (gfMul13 c) ^^^ gfMul3 (gfMul11 c) ^^^ gfMul14 c ^^^ gfMul9 c = 0 := by
    simp [gfMul14, gfMul13, gfMul11, gfMul9, gfMul3, gfMul2_xor, UInt8.xor_assoc, UInt8.xor_comm,
      byte_xor_left_comm]
  have hd (d : UInt8) : gfMul2 (gfMul9 d) ^^^ gfMul3 (gfMul13 d) ^^^ gfMul11 d ^^^ gfMul14 d = 0 := by
    simp [gfMul14, gfMul13, gfMul11, gfMul9, gfMul3, gfMul2_xor, UInt8.xor_assoc, UInt8.xor_comm,
      byte_xor_left_comm]
  calc
    _ = (gfMul2 (gfMul14 a) ^^^ gfMul3 (gfMul9 a) ^^^ gfMul13 a ^^^ gfMul11 a) ^^^
        (gfMul2 (gfMul11 b) ^^^ gfMul3 (gfMul14 b) ^^^ gfMul9 b ^^^ gfMul13 b) ^^^
        (gfMul2 (gfMul13 c) ^^^ gfMul3 (gfMul11 c) ^^^ gfMul14 c ^^^ gfMul9 c) ^^^
        (gfMul2 (gfMul9 d) ^^^ gfMul3 (gfMul13 d) ^^^ gfMul11 d ^^^ gfMul14 d) := by
      simp only [gfMul2_xor, gfMul3_xor]
      ac_rfl
    _ = a := by rw [ha, hb, hc, hd]; simp only [UInt8.xor_zero]

/-- `g` undoes `f` on every column. -/
theorem mapColumns_cancel {f g : UInt8 → UInt8 → UInt8 → UInt8 → Vector UInt8 4}
    (cancel : ∀ a b c d, g ((f a b c d).get 0) ((f a b c d).get 1) ((f a b c d).get 2) ((f a b c d).get 3) = #v[a, b, c, d])
    (s : AesBlock) : mapColumns g (mapColumns f s) = s := by
  have columns : mapColumns g (mapColumns f s) = mapColumns (fun a b c d => #v[a, b, c, d]) s := by
    simp only [← cancel]
    rfl
  rw [columns]
  refine Vector.ext fun i h => ?_
  interval_cases i <;> rfl

/-- The matrix is circulant: a rotated column gives the rotated result. -/
def Circulant (f : UInt8 → UInt8 → UInt8 → UInt8 → Vector UInt8 4) : Prop :=
  ∀ a b c d, f b c d a = #v[((f a b c d).get 1), ((f a b c d).get 2), ((f a b c d).get 3), ((f a b c d).get 0)]

theorem circulant_mixColumn : Circulant mixColumn := by
  intro a b c d
  refine Vector.ext fun i h => ?_
  interval_cases i <;> simp only [mixColumn, Vector.getElem_mk, List.getElem_toArray,
    List.getElem_cons_zero, List.getElem_cons_succ] <;> ac_rfl

theorem circulant_invMixColumn : Circulant invMixColumn := by
  intro a b c d
  refine Vector.ext fun i h => ?_
  interval_cases i <;> simp only [invMixColumn, Vector.getElem_mk, List.getElem_toArray,
    List.getElem_cons_zero, List.getElem_cons_succ] <;> ac_rfl

/-- For circulant matrices the first entry of the product decides. -/
theorem Circulant.cancel {f g : UInt8 → UInt8 → UInt8 → UInt8 → Vector UInt8 4}
    (hf : Circulant f) (hg : Circulant g)
    (first : ∀ a b c d,
      (g ((f a b c d).get 0) ((f a b c d).get 1) ((f a b c d).get 2) ((f a b c d).get 3)).get 0 = a) (a b c d : UInt8) :
    g ((f a b c d).get 0) ((f a b c d).get 1) ((f a b c d).get 2) ((f a b c d).get 3) = #v[a, b, c, d] := by
  have h1 := first b c d a
  have h2 := first c d a b
  have h3 := first d a b c
  rw [hf a b c d] at h1
  rw [hf b c d a, hf a b c d] at h2
  rw [hf c d a b, hf b c d a, hf a b c d] at h3
  refine Vector.ext fun i h => ?_
  interval_cases i
  · exact first a b c d
  · rw [hg] at h1
    exact h1
  · rw [hg, hg] at h2
    exact h2
  · rw [hg, hg, hg] at h3
    exact h3

/-- `InvMixColumns` undoes `MixColumns`. -/
theorem invMixColumns_mixColumns (s : AesBlock) : invMixColumns (mixColumns s) = s :=
  mapColumns_cancel (circulant_mixColumn.cancel circulant_invMixColumn inv_mix_entry) s

/-- `MixColumns` undoes `InvMixColumns`. -/
theorem mixColumns_invMixColumns (s : AesBlock) : mixColumns (invMixColumns s) = s := by
  refine mapColumns_cancel (circulant_invMixColumn.cancel circulant_mixColumn ?_) s
  intro a b c d
  exact mix_inv_entry a b c d

/-! ## The cipher -/

/-- A round key added twice is gone. -/
theorem addRoundKey_addRoundKey (s k : AesBlock) : addRoundKey (addRoundKey s k) k = s := by
  refine Vector.ext fun i h => ?_
  simp only [addRoundKey, Vector.getElem_zipWith, UInt8.xor_assoc, UInt8.xor_self, UInt8.xor_zero]

/-- A decryption round undoes an encryption round, between the two halves of `SubBytes` and
`ShiftRows`. -/
theorem decryptRound_encryptRound (ctx : MiniHwSecAesCtx) (s : AesBlock) (r : Fin 15) :
    decryptRound ctx (shiftRows (subBytes (encryptRound ctx s r))) r = shiftRows (subBytes s) := by
  rw [decryptRound, invShiftRows_shiftRows, invSubBytes_subBytes, encryptRound,
    addRoundKey_addRoundKey, invMixColumns_mixColumns]

/-- A round of encryption undoes one of decryption, up to the shift and the boxes between them. -/
theorem encryptRound_decryptRound (ctx : MiniHwSecAesCtx) (s : AesBlock) (r : Fin 15) :
    encryptRound ctx (invSubBytes (invShiftRows (decryptRound ctx s r))) r =
      invSubBytes (invShiftRows s) := by
  rw [encryptRound, subBytes_invSubBytes, shiftRows_invShiftRows, decryptRound,
    mixColumns_invMixColumns, addRoundKey_addRoundKey]

/-- Decryption undoes encryption, whatever the round keys. -/
theorem aes_decrypt_encrypt_ctx (ctx : MiniHwSecAesCtx) (block : AesBlock) :
    aesDecrypt ctx (aesEncrypt ctx block) = block := by
  have inner (s : AesBlock) : (innerRounds ctx).reverse.foldl (decryptRound ctx)
      (shiftRows (subBytes ((innerRounds ctx).foldl (encryptRound ctx) s))) =
        shiftRows (subBytes s) :=
    run_reverse_undo (x := fun s => shiftRows (subBytes s)) (decryptRound_encryptRound ctx) s _
  simp only [aesDecrypt, aesEncrypt, addRoundKey_addRoundKey, inner, invShiftRows_shiftRows,
    invSubBytes_subBytes]

/-- Encryption undoes decryption, whatever the round keys. -/
theorem aes_encrypt_decrypt_ctx (ctx : MiniHwSecAesCtx) (block : AesBlock) :
    aesEncrypt ctx (aesDecrypt ctx block) = block := by
  have inner (s : AesBlock) : (innerRounds ctx).foldl (encryptRound ctx)
      (invSubBytes (invShiftRows ((innerRounds ctx).reverse.foldl (decryptRound ctx) s))) =
        invSubBytes (invShiftRows s) := by
    have := run_reverse_undo (x := fun s => invSubBytes (invShiftRows s))
      (encryptRound_decryptRound ctx) s (innerRounds ctx).reverse
    rwa [List.reverse_reverse] at this
  simp only [aesDecrypt, aesEncrypt, addRoundKey_addRoundKey, inner, shiftRows_invShiftRows,
    subBytes_invSubBytes]

/-- **Encryption and decryption are inverse.** With the context of any key, each undoes the
other on every block. -/
theorem aes_round_trip (key : AesKey) (block : AesBlock) :
    aesDecrypt (aesInit key) (aesEncrypt (aesInit key) block) = block ∧
      aesEncrypt (aesInit key) (aesDecrypt (aesInit key) block) = block :=
  ⟨aes_decrypt_encrypt_ctx _ block, aes_encrypt_decrypt_ctx _ block⟩

end MiniHardware.Security
