import MiniHardware.Security.AesInverse
import MiniHardware.Security.Sha256Nat

/-!
# AES over natural numbers

Encryption with words and bytes as natural numbers and lists for the arrays, so
that the encryption of a given block is computed where a proof asks for it
(`bytes_aesEncrypt`).
-/

namespace MiniHardware.Security.AesNat
open Lib Sha256Nat

/-- The numbers of a string of bytes. -/
def bytes {n : Nat} (v : Vector UInt8 n) : List Nat := v.toList.map UInt8.toNat

/-- Vectors with the same numbers are the same. -/
theorem bytes_inj {n : Nat} {v w : Vector UInt8 n} : bytes v = bytes w ↔ v = w := by
  constructor
  · intro same
    have lists := (List.map_injective_iff.2 fun _ _ => UInt8.toNat_inj.1) same
    exact Vector.toList_inj.1 lists
  · rintro rfl
    rfl

/-- The numbers of a vector stand at the indices of its bytes. -/
theorem getElem_bytes {n : Nat} (v : Vector UInt8 n) {i : Nat} (h : i < (bytes v).length) (lt : i < n) :
    (bytes v)[i] = v[i].toNat := by
  simp only [bytes, List.getElem_map, Vector.getElem_toList]

/-! ## Bytes -/

def sbox (x : Nat) : Nat := tableNumber aesSbox.toList >>> (8 * x) % 256

def gfMul2 (x : Nat) : Nat := (x <<< 1 % 256) ^^^ (x >>> 7 * 27 % 256)

def gfMul3 (x : Nat) : Nat := gfMul2 x ^^^ x

/-- Doubling in the field, read over numbers. -/
theorem toNat_gfMul2 (x : UInt8) : (Security.gfMul2 x).toNat = gfMul2 x.toNat := by
  rw [gfMul2_eq, UInt8.toNat_xor, UInt8.toNat_mul, UInt8.toNat_shiftLeft, UInt8.toNat_shiftRight]
  rfl

/-- Tripling in the field, read over numbers. -/
theorem toNat_gfMul3 (x : UInt8) : (Security.gfMul3 x).toNat = gfMul3 x.toNat := by
  rw [Security.gfMul3, UInt8.toNat_xor, toNat_gfMul2]
  rfl

/-! ## The key schedule -/

/-- Byte `b` of a word, the most significant first. -/
def wordByte (w b : Nat) : Nat := w >>> (24 - 8 * b) % 256

def ofBytes (b0 b1 b2 b3 : Nat) : Nat :=
  b0 <<< 24 % 4294967296 ||| b1 <<< 16 % 4294967296 ||| b2 <<< 8 % 4294967296 ||| b3

def rotWord (w : Nat) : Nat := w <<< 8 % 4294967296 ||| w >>> 24

def subWord (w : Nat) : Nat :=
  ofBytes (sbox (wordByte w 0)) (sbox (wordByte w 1)) (sbox (wordByte w 2)) (sbox (wordByte w 3))

/-- Word `i` from the words before it, the last one first. -/
def nextWord (w : List Nat) (i : Nat) : Nat :=
  let temp := w.getD 0 0
  let temp :=
    if i % 8 = 0 then subWord (rotWord temp) ^^^ ((aesRcon.toList.map UInt8.toNat).getD (i / 8) 0) <<< 24 % 4294967296
    else if i % 8 = 4 then subWord temp
    else temp
  w.getD 7 0 ^^^ temp

def firstWords (key : List Nat) : List Nat :=
  (List.range 8).map fun i =>
    ofBytes (key.getD (4 * i) 0) (key.getD (4 * i + 1) 0) (key.getD (4 * i + 2) 0) (key.getD (4 * i + 3) 0)

/-- The words before place `k`, the last one first. -/
def wordsBefore (key : List Nat) (k : Nat) : List Nat :=
  ((List.range k).drop 8).foldl (fun w i => nextWord w i :: w) (firstWords key).reverse

def roundKey (key : List Nat) (r : Nat) : List Nat :=
  (List.range 16).map fun i => wordByte ((wordsBefore key 60).getD (59 - (r * 16 + i) / 4) 0) ((r * 16 + i) % 4)

/-- A list of the words before place `n`, the last one first. -/
theorem getD_reverse_range (f : Nat → Nat) {n i : Nat} (lt : i < n) :
    (((List.range n).map f).reverse).getD i 0 = f (n - 1 - i) := by
  rw [List.getD_eq_getElem _ _ (by simpa using lt), List.getElem_reverse, List.getElem_map, List.getElem_range,
    List.length_map, List.length_range]

/-- A word built from four bytes, read over numbers. -/
theorem toNat_ofBytes (b0 b1 b2 b3 : UInt8) :
    ((b0.toUInt32 <<< 24) ||| (b1.toUInt32 <<< 16) ||| (b2.toUInt32 <<< 8) ||| b3.toUInt32).toNat =
      ofBytes b0.toNat b1.toNat b2.toNat b3.toNat := by
  rw [UInt32.toNat_or, UInt32.toNat_or, UInt32.toNat_or, UInt32.toNat_shiftLeft, UInt32.toNat_shiftLeft,
    UInt32.toNat_shiftLeft]
  rfl

/-- A byte of a word, read over numbers. -/
theorem toNat_byteOfWord (w : UInt32) (b : Fin 4) : (byteOfWord w b).toNat = wordByte w.toNat b.val := by
  match b with
  | 0 | 1 | 2 =>
    rw [byteOfWord, UInt32.toNat_toUInt8, UInt32.toNat_shiftRight]
    rfl
  | 3 =>
    rw [byteOfWord, UInt32.toNat_toUInt8]
    rfl

/-- `SubWord` of the key schedule, read over numbers. -/
theorem toNat_subWord (w : UInt32) : (Security.subWord w).toNat = subWord w.toNat := by
  rw [Security.subWord, toNat_ofBytes, toNat_lookup, toNat_lookup, toNat_lookup, toNat_lookup]
  have b0 : (w >>> 24).toUInt8.toNat = wordByte w.toNat 0 := toNat_byteOfWord w 0
  have b1 : (w >>> 16).toUInt8.toNat = wordByte w.toNat 1 := toNat_byteOfWord w 1
  have b2 : (w >>> 8).toUInt8.toNat = wordByte w.toNat 2 := toNat_byteOfWord w 2
  have b3 : w.toUInt8.toNat = wordByte w.toNat 3 := toNat_byteOfWord w 3
  rw [subWord, ← b0, ← b1, ← b2, ← b3]
  rfl

/-- `RotWord` of the key schedule, read over numbers. -/
theorem toNat_rotWord (w : UInt32) : (Security.rotWord w).toNat = rotWord w.toNat := by
  rw [Security.rotWord, UInt32.toNat_or, UInt32.toNat_shiftLeft, UInt32.toNat_shiftRight]
  rfl

/-- One word of the key schedule keeps the two schedules in step: after it they agree up to and with that word. -/
theorem toNat_expandWord {key : List Nat} {w : AesWords} {i : Fin 60} (le : 8 ≤ i.val)
    (known : ∀ t (lt : t < 60), t < i.val → w[t].toNat = (wordsBefore key i.val).getD (i.val - 1 - t) 0) :
    ∀ t (lt : t < 60), t < i.val + 1 →
      (expandWord w i)[t].toNat = (wordsBefore key (i.val + 1)).getD (i.val + 1 - 1 - t) 0 := by
  have longer : wordsBefore key (i.val + 1) = nextWord (wordsBefore key i.val) i.val :: wordsBefore key i.val := by
    rw [wordsBefore, List.range_succ, List.drop_append_of_le_length (by simpa using le), List.foldl_append]
    rfl
  intro t lt upto
  rw [longer, expandWord, Vector.getElem_set]
  by_cases here : i.val = t
  · subst here
    have last := known (i.val - 1) (by omega) (by omega)
    have eighth := known (i.val - 8) (by omega) (by omega)
    rw [show i.val - 1 - (i.val - 1) = 0 by omega] at last
    rw [show i.val - 1 - (i.val - 8) = 7 by omega] at eighth
    have rcon : (aesRcon.get ⟨i.val / 8, by omega⟩).toNat = (aesRcon.toList.map UInt8.toNat).getD (i.val / 8) 0 := by
      have lt : i.val / 8 < (aesRcon.toList.map UInt8.toNat).length := by
        rw [List.length_map, Vector.length_toList]
        omega
      rw [List.getD_eq_getElem _ _ lt, List.getElem_map, Vector.getElem_toList]
      rfl
    rw [if_pos rfl, show i.val + 1 - 1 - i.val = 0 by omega, List.getD_cons_zero, UInt32.toNat_xor, eighth, nextWord]
    rw [← last]
    congr 1
    split
    · rw [UInt32.toNat_xor, toNat_subWord, toNat_rotWord, UInt32.toNat_shiftLeft, ← rcon]
      rfl
    · split
      · exact toNat_subWord _
      · rfl
  · rw [if_neg here, show i.val + 1 - 1 - t = (i.val - 1 - t) + 1 by omega, List.getD_cons_succ]
    exact known t lt (by omega)

/-- The expanded keys agree in all 60 words. -/
theorem toNat_expandKey (key : AesKey) (t : Nat) (lt : t < 60) :
    (expandKey key)[t].toNat = (wordsBefore (bytes key) 60).getD (59 - t) 0 := by
  have filled := @drop_finRange_foldl_invariant AesWords 8 60 expandWord
    (fun k w => ∀ t (lt : t < 60), t < k → w[t].toNat = (wordsBefore (bytes key) k).getD (k - 1 - t) 0)
    (Vector.ofFn fun i => if h : i.val < 8 then keyWord key ⟨i.val, h⟩ else 0) (by decide) ?_ ?_
  · exact filled t lt lt
  · intro t lt first
    have byte : ∀ j (jlt : j < 32), (bytes key).getD j 0 = key[j].toNat := by
      intro j jlt
      rw [bytes, List.getD_eq_getElem _ _ (by simpa using jlt), List.getElem_map, Vector.getElem_toList]
    have start : wordsBefore (bytes key) 8 = (firstWords (bytes key)).reverse := by
      rw [wordsBefore, List.drop_of_length_le (by rw [List.length_range]), List.foldl_nil]
    rw [Vector.getElem_ofFn, dif_pos first, start, firstWords, getD_reverse_range _ (by omega), keyWord, toNat_ofBytes,
      byte _ (by omega), byte _ (by omega), byte _ (by omega), byte _ (by omega)]
    simp only [show 8 - 1 - (8 - 1 - t) = t by omega]
  · exact fun i w le known => toNat_expandWord le known

/-- The sixteen bytes of each round key agree. -/
theorem bytes_roundKey (key : AesKey) (r : Fin 15) :
    bytes (Security.roundKey (aesInit key) r) = roundKey (bytes key) r.val := by
  apply List.ext_getElem
  · rw [bytes, roundKey, List.length_map, List.length_map, Vector.length_toList, List.length_range]
  · intro i h h'
    have lt : i < 16 := by rwa [bytes, List.length_map, Vector.length_toList] at h
    have rlt := r.isLt
    have word := toNat_expandKey key ((r.val * 16 + i) / 4) (by omega)
    have byte := toNat_byteOfWord ((expandKey key)[(r.val * 16 + i) / 4]) ⟨(r.val * 16 + i) % 4, Nat.mod_lt _ (by decide)⟩
    have there : (Security.roundKey (aesInit key) r)[i] =
        byteOfWord ((expandKey key)[(r.val * 16 + i) / 4]) ⟨(r.val * 16 + i) % 4, Nat.mod_lt _ (by decide)⟩ := by
      rw [Security.roundKey, Vector.getElem_ofFn]
      show (aesInit key).roundKeys[r.val * 16 + i] = _
      rw [aesInit, Vector.getElem_ofFn]
    rw [getElem_bytes _ h lt, there, byte, word]
    simp only [roundKey, List.getElem_map, List.getElem_range]

/-! ## Encryption -/

def shiftRows (s : List Nat) : List Nat :=
  [0, 5, 10, 15, 4, 9, 14, 3, 8, 13, 2, 7, 12, 1, 6, 11].map fun i => s.getD i 0

def mixColumns : List Nat → List Nat
  | s0 :: s1 :: s2 :: s3 :: s =>
    (gfMul2 s0 ^^^ gfMul3 s1 ^^^ s2 ^^^ s3) :: (s0 ^^^ gfMul2 s1 ^^^ gfMul3 s2 ^^^ s3) ::
      (s0 ^^^ s1 ^^^ gfMul2 s2 ^^^ gfMul3 s3) :: (gfMul3 s0 ^^^ s1 ^^^ s2 ^^^ gfMul2 s3) :: mixColumns s
  | _ => []

def addRoundKey (s key : List Nat) : List Nat := List.zipWith (· ^^^ ·) s key

def encrypt (key block : List Nat) : List Nat :=
  let s := addRoundKey block (roundKey key 0)
  let s := [1, 2, 3, 4, 5, 6, 7, 8, 9, 10, 11, 12, 13].foldl
    (fun s r => addRoundKey (mixColumns (shiftRows (s.map sbox))) (roundKey key r)) s
  addRoundKey (shiftRows (s.map sbox)) (roundKey key 14)

/-- `SubBytes` maps the box over the block. -/
theorem bytes_subBytes (s : AesBlock) : bytes (subBytes s) = (bytes s).map sbox := by
  rw [bytes, bytes, subBytes, Vector.toList_map, List.map_map, List.map_map]
  exact List.map_congr_left fun x _ => toNat_lookup aesSbox x

/-- `AddRoundKey` over the numbers of the block and the key. -/
theorem bytes_addRoundKey (s key : AesBlock) :
    bytes (Security.addRoundKey s key) = addRoundKey (bytes s) (bytes key) := by
  rw [bytes, bytes, bytes, Security.addRoundKey, addRoundKey, Vector.toList_zipWith, List.map_zipWith,
    List.zipWith_map]
  rfl

/-- The numbers of a block, written out. -/
theorem bytes_block (s : AesBlock) :
    bytes s = [(s.get 0).toNat, (s.get 1).toNat, (s.get 2).toNat, (s.get 3).toNat, (s.get 4).toNat, (s.get 5).toNat,
      (s.get 6).toNat, (s.get 7).toNat, (s.get 8).toNat, (s.get 9).toNat, (s.get 10).toNat, (s.get 11).toNat,
      (s.get 12).toNat, (s.get 13).toNat, (s.get 14).toNat, (s.get 15).toNat] := by
  have whole : s = #v[s.get 0, s.get 1, s.get 2, s.get 3, s.get 4, s.get 5, s.get 6, s.get 7, s.get 8, s.get 9,
      s.get 10, s.get 11, s.get 12, s.get 13, s.get 14, s.get 15] := by
    refine Vector.ext fun i lt => ?_
    interval_cases i <;> rfl
  conv_lhs => rw [whole]
  rfl

/-- `ShiftRows` over the numbers of the block. -/
theorem bytes_shiftRows (s : AesBlock) : bytes (Security.shiftRows s) = shiftRows (bytes s) := by
  rw [bytes_block s]
  rfl

/-- `MixColumns` over the numbers of the block. -/
theorem bytes_mixColumns (s : AesBlock) : bytes (Security.mixColumns s) = mixColumns (bytes s) := by
  rw [bytes_block s]
  simp only [mixColumns, ← toNat_gfMul2, ← toNat_gfMul3, ← UInt8.toNat_xor]
  rfl

/-- A middle round over the numbers of the block. -/
theorem bytes_encryptRound (key : AesKey) (s : AesBlock) (r : Fin 15) :
    bytes (encryptRound (aesInit key) s r) =
      addRoundKey (mixColumns (shiftRows ((bytes s).map sbox))) (roundKey (bytes key) r.val) := by
  rw [encryptRound, bytes_addRoundKey, bytes_mixColumns, bytes_shiftRows, bytes_subBytes, bytes_roundKey]

/-- **The encryption of a block, by its numbers.** -/
theorem bytes_aesEncrypt (key : AesKey) (block : AesBlock) :
    bytes (aesEncrypt (aesInit key) block) = encrypt (bytes key) (bytes block) := by
  have inner : (innerRounds (aesInit key)).map Fin.val = [1, 2, 3, 4, 5, 6, 7, 8, 9, 10, 11, 12, 13] := rfl
  have last : (aesInit key).rounds.val = 14 := rfl
  have first : bytes (Security.roundKey (aesInit key) 0) = roundKey (bytes key) 0 := bytes_roundKey key 0
  have rounds (s : AesBlock) :
      bytes ((innerRounds (aesInit key)).foldl (encryptRound (aesInit key)) s) =
        (innerRounds (aesInit key)).foldl
          (fun s r => addRoundKey (mixColumns (shiftRows (s.map sbox))) (roundKey (bytes key) r.val)) (bytes s) :=
    (List.foldl_hom bytes fun s r => (bytes_encryptRound key s r).symm).symm
  rw [aesEncrypt, encrypt, ← inner, List.foldl_map, bytes_addRoundKey, bytes_shiftRows, bytes_subBytes, bytes_roundKey,
    last, rounds, bytes_addRoundKey, first]

end MiniHardware.Security.AesNat
