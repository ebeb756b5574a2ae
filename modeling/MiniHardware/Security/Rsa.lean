import Mathlib.Data.Nat.Factorization.Basic
import Mathlib.FieldTheory.Finite.Basic
import MiniHardware.Lib.Bytes
import MiniHardware.Lib.Trace
import MiniHardware.Security.Hmac

/-!
# RSA (`mini-hardware-security/src/hw_crypto.c`)

Numbers are arrays of bytes, the lowest byte first, and exponents lists of bytes,
the highest byte first. The modulus is never read: a power is taken modulo
`256 ^ len` (`tableNumber_bnModexp`), with what follows for keys, messages and
signatures.
-/

namespace MiniHardware.Security
open Lib

/-! ## Numbers -/

variable {len : Nat}

/-- `prod`, its low byte and the next carry. -/
def bnDigit (x y acc : UInt8) (carry : UInt16) : UInt8 × UInt16 :=
  let prod := x.toUInt32 * y.toUInt32 + acc.toUInt32 + carry.toUInt32
  ((prod &&& 0xFF).toUInt8, (prod >>> 8).toUInt16)

/-- The loop over `j`; the last carry is dropped. -/
def bnRow (x : UInt8) (y : Vector UInt8 len) (i : Fin len) (acc : Vector UInt8 (len + len)) : Vector UInt8 (len + len) :=
  ((List.finRange len).foldl (fun (s : Vector UInt8 (len + len) × UInt16) j =>
    let digit := bnDigit x (y.get j) (s.1.get ⟨i + j, by omega⟩) s.2
    (s.1.set (i + j) digit.1 (by omega), digit.2)) (acc, 0)).1

/-- The loop over `i`, as it stands for the square and for the product with the base. -/
def bnMul (x y : Vector UInt8 len) : Vector UInt8 (len + len) :=
  (List.finRange len).foldl (fun acc i => bnRow (x.get i) y i acc) (Vector.replicate (len + len) 0)

/-- The low bytes of the product. -/
def bnTimes (x y : Vector UInt8 len) : Vector UInt8 len := Vector.ofFn fun i => (bnMul x y).get ⟨i, by omega⟩

def bnOne : Vector UInt8 len := Vector.ofFn fun i => if i.val = 0 then 1 else 0

/-- The body of the loop over the bits of a byte. -/
def bnBit (base : Vector UInt8 len) (byte : UInt8) (result : Vector UInt8 len) (bit : Nat) : Vector UInt8 len :=
  let result := bnTimes result result
  if byte &&& (1 <<< UInt8.ofNat bit) ≠ 0 then bnTimes result base else result

/-- `mini_hwsec_bn_modexp`. -/
def bnModexp (base : Vector UInt8 len) (exp : List UInt8) (_mod : Vector UInt8 len) : Vector UInt8 len :=
  exp.foldl (fun result byte => [7, 6, 5, 4, 3, 2, 1, 0].foldl (bnBit base byte) result) bnOne

/-! ## Keys, messages and signatures -/

/-- `MINI_HWSEC_RSA_KEY_BYTES`. -/
abbrev rsaKeyBytes : Nat := 256

abbrev RsaNumber := Vector UInt8 rsaKeyBytes

structure RsaPubKey where
  n : RsaNumber
  e : RsaNumber

structure RsaPrivKey where
  n : RsaNumber
  d : RsaNumber
  p : Vector UInt8 (rsaKeyBytes / 2)
  q : Vector UInt8 (rsaKeyBytes / 2)

def rsaZero : RsaNumber := Vector.replicate rsaKeyBytes 0

/-- A prime of a key, from random bytes. -/
def rsaPrime (p : Vector UInt8 (rsaKeyBytes / 2)) : Vector UInt8 (rsaKeyBytes / 2) :=
  let p := p.set 0 (p[0] ||| 1)
  p.set 127 (p[127] ||| 0x80)

/-- `mini_hwsec_rsa_generate`, given what `mini_hwsec_random` puts in `p` and in `q`. -/
def rsaGenerate (p q : Vector UInt8 (rsaKeyBytes / 2)) : RsaPubKey × RsaPrivKey :=
  let p := rsaPrime p
  let q := rsaPrime q
  let n : RsaNumber := Vector.ofFn fun i => if h : i.val < rsaKeyBytes / 2 then p[i.val] else 0
  (⟨n, ((rsaZero.set 0 0x01).set 1 0x00).set 2 0x01⟩, ⟨n, rsaZero, p, q⟩)

/-- The bytes of the exponent that are read. -/
def RsaPubKey.exponent (pub : RsaPubKey) : List UInt8 := pub.e.toList.take 3

/-- Nothing is the answer -1. -/
def rsaEncrypt (pub : RsaPubKey) (plain : RsaNumber) (plainLen : Nat) : Option RsaNumber :=
  if plainLen > rsaKeyBytes then none else some (bnModexp plain pub.exponent pub.n)

def rsaDecrypt (priv : RsaPrivKey) (cipher : RsaNumber) : RsaNumber := bnModexp cipher priv.d.toList priv.n

/-- `padded` of `mini_hwsec_rsa_sign`. -/
def rsaPadded (hash : Digest) : RsaNumber :=
  #v[(0x00 : UInt8), 0x01] ++ Vector.replicate (rsaKeyBytes - 32 - 1 - 2) (0xFF : UInt8) ++ #v[(0x00 : UInt8)] ++ hash

def rsaSign (priv : RsaPrivKey) (hash : Digest) : RsaNumber := rsaDecrypt priv (rsaPadded hash)

/-- Nothing where a byte outside of `padded` is read. -/
def rsaVerify (pub : RsaPubKey) (hash : Digest) (sig : RsaNumber) : Option Bool :=
  let padded := bnModexp sig pub.exponent pub.n
  if padded[0] ≠ 0x00 ∨ padded[1] ≠ 0x01 then some false
  else
    let pos := 2 + ((padded.toList.drop 2).takeWhile (· == 0xFF)).length
    if h : pos < rsaKeyBytes then
      if padded[pos] ≠ 0x00 then some false
      else if h : pos + 1 + 32 ≤ rsaKeyBytes then
        some (constantTimeEq (Vector.ofFn fun i => padded[pos + 1 + i.val]) hash)
      else none
    else none

/-! ## Powers -/

theorem bnDigit_spec (x y acc : UInt8) {carry : UInt16} (le : carry.toNat ≤ 255) :
    (bnDigit x y acc carry).1.toNat + 256 * (bnDigit x y acc carry).2.toNat =
        x.toNat * y.toNat + acc.toNat + carry.toNat ∧
      (bnDigit x y acc carry).2.toNat ≤ 255 := by
  have hx : x.toNat < 256 := x.toNat_lt
  have hy : y.toNat < 256 := y.toNat_lt
  have hacc : acc.toNat < 256 := acc.toNat_lt
  have le_prod : x.toNat * y.toNat ≤ 255 * 255 := Nat.mul_le_mul (by omega) (by omega)
  have prod : (x.toUInt32 * y.toUInt32 + acc.toUInt32 + carry.toUInt32).toNat =
      x.toNat * y.toNat + acc.toNat + carry.toNat := by
    rw [UInt32.toNat_add, UInt32.toNat_add, UInt32.toNat_mul, UInt8.toNat_toUInt32, UInt8.toNat_toUInt32,
      UInt8.toNat_toUInt32, UInt16.toNat_toUInt32]
    omega
  rw [bnDigit]
  dsimp only
  generalize x.toUInt32 * y.toUInt32 + acc.toUInt32 + carry.toUInt32 = p at prod
  have low : (p &&& 0xFF).toUInt8.toNat = p.toNat % 256 := by
    rw [UInt32.toNat_toUInt8, UInt32.toNat_and]
    show (p.toNat &&& 2 ^ 8 - 1) % 256 = _
    rw [Nat.and_two_pow_sub_one_eq_mod]
    omega
  have high : (p >>> 8).toUInt16.toNat = p.toNat / 256 % 65536 := by
    rw [UInt32.toNat_toUInt16, UInt32.toNat_shiftRight]
    show p.toNat >>> 8 % 65536 = _
    rw [Nat.shiftRight_eq_div_pow]
  rw [low, high, ← prod]
  have lt : p.toNat < 65536 := by omega
  omega

section Rows
variable {x : UInt8} {y : Vector UInt8 len} {i : Fin len} {acc : Vector UInt8 (len + len)}

/-- What a row has added after `j` rounds. -/
def RowAdded (x : UInt8) (y : Vector UInt8 len) (i : Fin len) (acc : Vector UInt8 (len + len)) (j : Nat)
    (s : Vector UInt8 (len + len) × UInt16) : Prop :=
  tableNumber s.1.toList + s.2.toNat * 256 ^ (i.val + j) =
      tableNumber acc.toList + x.toNat * 256 ^ i.val * tableNumber (y.toList.take j) ∧
    s.2.toNat ≤ 255

theorem RowAdded.next {s : Vector UInt8 (len + len) × UInt16} (j : Fin len) (h : RowAdded x y i acc j s) :
    RowAdded x y i acc (j + 1)
      (s.1.set (i + j) (bnDigit x (y.get j) (s.1.get ⟨i + j, by omega⟩) s.2).1 (by omega),
        (bnDigit x (y.get j) (s.1.get ⟨i + j, by omega⟩) s.2).2) := by
  obtain ⟨sum, small⟩ := h
  obtain ⟨digit, carry⟩ := bnDigit_spec x (y.get j) (s.1.get ⟨i + j, by omega⟩) small
  refine ⟨?_, carry⟩
  generalize bnDigit x (y.get j) (s.1.get ⟨i + j, by omega⟩) s.2 = d at digit
  have lt : i.val + j < s.1.toList.length := by
    rw [Vector.length_toList]
    omega
  have stored := tableNumber_set lt d.1
  have taken : tableNumber (y.toList.take (j + 1)) = tableNumber (y.toList.take j) + (y.get j).toNat * 256 ^ j.val :=
    tableNumber_take_succ (by rw [Vector.length_toList]; exact j.isLt)
  have old : s.1.toList[i.val + j] = s.1.get ⟨i + j, by omega⟩ := rfl
  rw [old] at stored
  dsimp only
  rw [Vector.toList_set, taken]
  have weight : d.2.toNat * 256 ^ (i.val + (j + 1)) = 256 * d.2.toNat * 256 ^ (i.val + j) := by
    rw [← Nat.add_assoc, pow_succ]
    ring
  have product : x.toNat * 256 ^ i.val * ((y.get j).toNat * 256 ^ j.val) =
      x.toNat * (y.get j).toNat * 256 ^ (i.val + j) := by
    rw [pow_add]
    ring
  rw [Nat.mul_add, product, weight]
  calc tableNumber (s.1.toList.set (i.val + j) d.1) + 256 * d.2.toNat * 256 ^ (i.val + j)
    _ = tableNumber s.1.toList + s.2.toNat * 256 ^ (i.val + j) + x.toNat * (y.get j).toNat * 256 ^ (i.val + j) := by
      have digits := congrArg (· * 256 ^ (i.val + j.val)) digit
      rw [Nat.add_mul, Nat.add_mul, Nat.add_mul] at digits
      omega
    _ = _ := by rw [sum, Nat.add_assoc]

/-- A row adds one multiple of `y`, up to the carry that is dropped. -/
theorem tableNumber_bnRow (x : UInt8) (y : Vector UInt8 len) (i : Fin len) (acc : Vector UInt8 (len + len)) :
    tableNumber (bnRow x y i acc).toList ≡
      tableNumber acc.toList + x.toNat * 256 ^ i.val * tableNumber y.toList [MOD 256 ^ len] := by
  have start : RowAdded x y i acc 0 (acc, 0) := ⟨by simp [tableNumber], Nat.zero_le _⟩
  obtain ⟨sum, -⟩ := finRange_foldl_invariant start fun j s h => h.next j
  rw [List.take_of_length_le (by rw [Vector.length_toList])] at sum
  rw [← sum]
  have dropped : 256 ^ len ∣ 256 ^ (i.val + len) := pow_dvd_pow _ (Nat.le_add_left _ _)
  exact (Nat.modEq_zero_iff_dvd.2 (dropped.mul_left _)).symm.add_left _

end Rows

theorem tableNumber_bnTimes (x y : Vector UInt8 len) :
    tableNumber (bnTimes x y).toList = tableNumber x.toList * tableNumber y.toList % 256 ^ len := by
  have product : tableNumber (bnMul x y).toList ≡
      tableNumber (x.toList.take len) * tableNumber y.toList [MOD 256 ^ len] := by
    refine finRange_foldl_invariant
      (motive := fun i (acc : Vector UInt8 (len + len)) =>
        tableNumber acc.toList ≡ tableNumber (x.toList.take i) * tableNumber y.toList [MOD 256 ^ len])
      ?_ fun i acc h => ?_
    · rw [Vector.toList_replicate, tableNumber_zeros, List.take_zero]
      exact (Nat.zero_mul _).symm ▸ Nat.ModEq.rfl
    · have taken : tableNumber (x.toList.take (i + 1)) = tableNumber (x.toList.take i) + (x.get i).toNat * 256 ^ i.val :=
        tableNumber_take_succ (by rw [Vector.length_toList]; exact i.isLt)
      rw [taken, Nat.add_mul]
      exact (tableNumber_bnRow _ _ _ _).trans (h.add_right _)
  have low : (bnTimes x y).toList = (bnMul x y).toList.take len := by
    refine List.ext_getElem (by simp) fun k h _ => ?_
    rw [Vector.length_toList] at h
    rw [List.getElem_take, Vector.getElem_toList, Vector.getElem_toList]
    exact Vector.getElem_ofFn h
  rw [low, tableNumber_take]
  rw [List.take_of_length_le (by rw [Vector.length_toList])] at product
  exact product

theorem tableNumber_bnOne : tableNumber (bnOne : Vector UInt8 len).toList = 1 % 256 ^ len := by
  have low : (bnOne : Vector UInt8 len).toList = (1 :: List.replicate len 0).take len := by
    refine List.ext_getElem (by simp) fun k h _ => ?_
    rw [Vector.length_toList] at h
    rw [List.getElem_take, Vector.getElem_toList]
    refine (Vector.getElem_ofFn h).trans ?_
    cases k with
    | zero => rfl
    | succ k =>
      rw [List.getElem_cons_succ, List.getElem_replicate]
      rfl
  rw [low, tableNumber_take, tableNumber_cons, tableNumber_zeros]
  rfl

section Modexp
variable {base result : Vector UInt8 len} {n : Nat}

/-- The result is a power of the base. -/
def IsPower (base : Vector UInt8 len) (n : Nat) (result : Vector UInt8 len) : Prop :=
  tableNumber result.toList = tableNumber base.toList ^ n % 256 ^ len

theorem IsPower.bit (h : IsPower base n result) (byte : UInt8) {bit : Nat} (lt : bit < 8) :
    IsPower base (2 * n + (byteBit byte bit).toNat) (bnBit base byte result bit) := by
  have square : IsPower base (2 * n) (bnTimes result result) := by
    rw [IsPower, tableNumber_bnTimes, h, ← Nat.mul_mod, ← pow_add, ← Nat.two_mul]
  rw [bnBit]
  cases set : byteBit byte bit with
  | false =>
    rw [if_neg fun ne => by rw [(and_shiftLeft_ne_zero byte lt).1 ne] at set; cases set]
    exact square
  | true =>
    rw [if_pos ((and_shiftLeft_ne_zero byte lt).2 set), IsPower, tableNumber_bnTimes, square, Nat.mod_mul_mod,
      ← pow_succ]
    rfl

/-- The eight bits of a byte, read from the top, are appended to the number. -/
theorem bits_of_byte (byte : UInt8) (n : Nat) :
    [7, 6, 5, 4, 3, 2, 1, 0].foldl (fun n bit => 2 * n + (byteBit byte bit).toNat) n = 256 * n + byte.toNat := by
  have bit (m k : Nat) : 2 * (m + byte.toNat / 2 ^ (k + 1)) + (byteBit byte k).toNat = 2 * m + byte.toNat / 2 ^ k := by
    have half : byte.toNat / 2 ^ (k + 1) = byte.toNat / 2 ^ k / 2 := by rw [Nat.pow_succ, Nat.div_div_eq_div_mul]
    rw [byteBit, Nat.toNat_testBit]
    omega
  have none : n + byte.toNat / 2 ^ (7 + 1) = n := by
    rw [Nat.div_eq_of_lt byte.toNat_lt, Nat.add_zero]
  simp only [List.foldl_cons, List.foldl_nil]
  rw [← none, bit n 7, bit _ 6, bit _ 5, bit _ 4, bit _ 3, bit _ 2, bit _ 1, bit _ 0, Nat.pow_zero, Nat.div_one, none]
  omega

theorem IsPower.byte (h : IsPower base n result) (byte : UInt8) :
    IsPower base (256 * n + byte.toNat) ([7, 6, 5, 4, 3, 2, 1, 0].foldl (bnBit base byte) result) := by
  have bits : ∀ (l : List Nat), (∀ bit ∈ l, bit < 8) → ∀ {n : Nat} {result : Vector UInt8 len},
      IsPower base n result →
        IsPower base (l.foldl (fun n bit => 2 * n + (byteBit byte bit).toNat) n) (l.foldl (bnBit base byte) result) := by
    intro l
    induction l with
    | nil => exact fun _ _ _ h => h
    | cons bit l ih =>
      intro lt n result h
      exact ih (fun b mem => lt b (List.mem_cons_of_mem _ mem)) (h.bit byte (lt bit List.mem_cons_self))
  rw [← bits_of_byte]
  exact bits _ (by decide) h

/-- **The exponentiation is one modulo `256 ^ len`,** whatever the modulus is. -/
theorem tableNumber_bnModexp (base : Vector UInt8 len) (exp : List UInt8) (mod : Vector UInt8 len) :
    tableNumber (bnModexp base exp mod).toList = tableNumber base.toList ^ tableNumber exp.reverse % 256 ^ len := by
  show IsPower base (tableNumber exp.reverse) (bnModexp base exp mod)
  rw [bnModexp]
  induction exp using List.reverseRecOn with
  | nil => exact tableNumber_bnOne
  | append_singleton exp byte ih =>
    rw [List.foldl_append, List.reverse_append]
    exact ih.byte byte

end Modexp

/-! ## Exponents modulo a power of 256 -/

theorem dvd_eight {s e : Nat} (h : s ^ e % 65536 = 256) : e ∣ 8 := by
  have eq : s ^ e = 2 ^ 8 * (2 * (128 * (s ^ e / 65536)) + 1) := by omega
  have odd : (2 * (128 * (s ^ e / 65536)) + 1).factorization 2 = 0 :=
    Nat.factorization_eq_zero_of_not_dvd (by omega)
  have count : (s ^ e).factorization 2 = 8 := by
    rw [eq, Nat.factorization_mul (by decide) (by omega), Finsupp.add_apply, odd, Nat.factorization_pow,
      Finsupp.smul_apply, Nat.prime_two.factorization_self]
    rfl
  rw [Nat.factorization_pow, Finsupp.smul_apply] at count
  exact ⟨s.factorization 2, count.symm⟩

theorem pow_256 (k : Nat) : 256 ^ k = 2 ^ (8 * k) := by
  rw [pow_mul]
  rfl

theorem pow_even_mod {v e k : Nat} (even : v % 2 = 0) (le : 8 * k ≤ e) : v ^ e % 256 ^ k = 0 := by
  rw [pow_256]
  exact Nat.mod_eq_zero_of_dvd ((pow_dvd_pow 2 le).trans (pow_dvd_pow_of_dvd (Nat.dvd_of_mod_eq_zero even) e))

/-- An odd exponent has an inverse on the odd numbers. -/
theorem exists_inverse {e : Nat} (odd : e % 2 = 1) {k : Nat} (pos : 0 < k) :
    ∃ d < 256 ^ k, ∀ v < 256 ^ k, v % 2 = 1 → (v ^ e % 256 ^ k) ^ d % 256 ^ k = v := by
  have coprime {n : Nat} (odd : n % 2 = 1) (j : Nat) : n.Coprime (2 ^ j) :=
    (Nat.coprime_two_right.2 (Nat.odd_iff.2 odd)).pow_right j
  have totient : (256 ^ k).totient = 2 ^ (8 * k - 1) := by
    rw [pow_256, Nat.totient_prime_pow Nat.prime_two (by omega), Nat.mul_one]
  have large : 1 < (256 ^ k).totient := by
    rw [totient]
    exact Nat.one_lt_two_pow (by omega)
  obtain ⟨d, lt, inverse⟩ := Nat.exists_mul_mod_eq_one_of_coprime (totient ▸ coprime odd _) large
  refine ⟨d, lt_of_lt_of_le lt (Nat.totient_le _), fun v small oddv => ?_⟩
  have euler : v ^ (256 ^ k).totient ≡ 1 [MOD 256 ^ k] := Nat.ModEq.pow_totient (pow_256 k ▸ coprime oddv _)
  obtain ⟨t, exponent⟩ : ∃ t, e * d = (256 ^ k).totient * t + 1 := by
    have parts := Nat.div_add_mod (e * d) (256 ^ k).totient
    rw [inverse] at parts
    exact ⟨_, parts.symm⟩
  have same : (v ^ (256 ^ k).totient) ^ t * v ≡ 1 ^ t * v [MOD 256 ^ k] := (euler.pow t).mul_right v
  calc (v ^ e % 256 ^ k) ^ d % 256 ^ k
    _ = v ^ (e * d) % 256 ^ k := by rw [← Nat.pow_mod, ← pow_mul]
    _ = (v ^ Nat.totient (256 ^ k)) ^ t * v % 256 ^ k := by rw [exponent, pow_succ, pow_mul]
    _ = 1 ^ t * v % 256 ^ k := same
    _ = v := by rw [one_pow, Nat.one_mul, Nat.mod_eq_of_lt small]

/-! ## RSA -/

theorem number_inj {x y : Vector UInt8 len} (eq : tableNumber x.toList = tableNumber y.toList) : x = y :=
  Vector.toList_inj.1 (tableNumber_inj (by rw [Vector.length_toList, Vector.length_toList]) eq)

theorem number_lt (x : Vector UInt8 len) : tableNumber x.toList < 256 ^ len := by
  have lt := tableNumber_lt x.toList
  rwa [Vector.length_toList] at lt

theorem tableNumber_low (x : RsaNumber) : tableNumber x.toList % 65536 = x[0].toNat + 256 * x[1].toNat := by
  have low : x.toList.take 2 = [x[0], x[1]] := by
    have length : (x.toList.take 2).length = 2 := by
      rw [List.length_take, Vector.length_toList]
      rfl
    refine List.ext_getElem length fun k _ lt => ?_
    rw [List.getElem_take, Vector.getElem_toList]
    match k, lt with
    | 0, _ => rfl
    | 1, _ => rfl
  have taken := tableNumber_take x.toList 2
  rw [low] at taken
  show _ % 256 ^ 2 = _
  rw [← taken, tableNumber_cons, tableNumber_cons]
  show 256 * (256 * 0 + _) + _ = _
  omega

theorem exponent_generated (p q : Vector UInt8 (rsaKeyBytes / 2)) : (rsaGenerate p q).1.exponent = [1, 0, 1] := rfl

/-- A signature is accepted at small exponents only. -/
theorem rsaVerify_of_not_dvd {pub : RsaPubKey} (large : ¬ tableNumber pub.exponent.reverse ∣ 8) (hash : Digest)
    (sig : RsaNumber) : rsaVerify pub hash sig = some false := by
  rw [rsaVerify]
  refine if_pos ?_
  by_contra both
  rw [not_or, not_not, not_not] at both
  have low := tableNumber_low (bnModexp sig pub.exponent pub.n)
  have divides : 65536 ∣ 256 ^ rsaKeyBytes := pow_dvd_pow 256 (by decide : 2 ≤ rsaKeyBytes)
  rw [both.1, both.2, tableNumber_bnModexp, Nat.mod_mod_of_dvd _ divides] at low
  exact large (dvd_eight low)

/-- **No signature is accepted under a generated key,** and its private half signs and decrypts everything as 1. -/
theorem rsa_generated (p q : Vector UInt8 (rsaKeyBytes / 2)) (hash : Digest) :
    (∀ sig, rsaVerify (rsaGenerate p q).1 hash sig = some false) ∧ rsaSign (rsaGenerate p q).2 hash = bnOne ∧
      ∀ cipher, rsaDecrypt (rsaGenerate p q).2 cipher = bnOne := by
  have decrypted (cipher : RsaNumber) : rsaDecrypt (rsaGenerate p q).2 cipher = bnOne := by
    apply number_inj
    have zero : (rsaGenerate p q).2.d.toList.reverse = List.replicate rsaKeyBytes 0 := by
      show (Vector.replicate rsaKeyBytes 0).toList.reverse = _
      rw [Vector.toList_replicate, List.reverse_replicate]
    rw [rsaDecrypt, tableNumber_bnModexp, zero, tableNumber_zeros, pow_zero, tableNumber_bnOne]
  refine ⟨rsaVerify_of_not_dvd ?_ hash, decrypted _, decrypted⟩
  rw [exponent_generated]
  decide

/-- **The encryption is no secret.** One exponent, found without any key, decrypts every odd message; every even one is
encrypted to zero. -/
theorem rsa_public : ∃ d : RsaNumber, ∀ (p q : Vector UInt8 (rsaKeyBytes / 2)) (plain : RsaNumber)
    (plainLen : Fin (rsaKeyBytes + 1)) (priv : RsaPrivKey), ∃ cipher,
      rsaEncrypt (rsaGenerate p q).1 plain plainLen = some cipher ∧
        if plain[0].toNat % 2 = 1 then rsaDecrypt { priv with d } cipher = plain else cipher = rsaZero := by
  obtain ⟨d, lt, inverse⟩ := exists_inverse (e := 65537) (by decide) (k := rsaKeyBytes) (by decide)
  obtain ⟨table, length, number⟩ := exists_table lt
  refine ⟨⟨table.reverse.toArray, by simp [length]⟩, fun p q plain plainLen priv => ⟨_, if_neg (by omega), ?_⟩⟩
  have power (mod : RsaNumber) : tableNumber (bnModexp plain (rsaGenerate p q).1.exponent mod).toList =
      tableNumber plain.toList ^ 65537 % 256 ^ rsaKeyBytes := by
    rw [tableNumber_bnModexp, exponent_generated]
    rfl
  have low := tableNumber_low plain
  split
  · rename_i odd
    apply number_inj
    have exponent : tableNumber table.reverse.reverse = d := by rw [List.reverse_reverse, number]
    rw [rsaDecrypt, tableNumber_bnModexp, power]
    show _ ^ tableNumber table.reverse.reverse % _ = _
    rw [exponent, inverse _ (number_lt plain) (by omega)]
  · apply number_inj
    rw [power, pow_even_mod (by omega) (by decide), rsaZero, Vector.toList_replicate, tableNumber_zeros]

end MiniHardware.Security
