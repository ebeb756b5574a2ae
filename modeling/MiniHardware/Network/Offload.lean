import MiniHardware.Lib.EndAround

/-!
# Checksum offload (`mini-network-hardware/src/offload.c`)

`offload_csum_compute` adds the words up in 32 bits and brings the carries back
in at the end. What the accumulator loses are multiples of `2 ^ 32`, each of
which is worth one: with the lengths of an `int` they are too few to cancel, so
the checksum is right if and only if nothing is lost (`offload_csum_iff`).
-/

namespace MiniHardware.Network
open Lib

/-- `(uint16_t)((data[i] << 8) | data[i + 1])`. -/
def csumWord (hi lo : UInt8) : UInt16 := (hi.toUInt16 <<< 8) ||| lo.toUInt16

/-- The loop over the words, and the last byte of an odd length. -/
def csumLoop (sum : UInt32) : List UInt8 → UInt32
  | hi :: lo :: rest => csumLoop (sum + (csumWord hi lo).toUInt32) rest
  | [last] => sum + (last.toUInt16 <<< 8).toUInt32
  | [] => sum

theorem folded_lt {sum : UInt32} (carries : sum >>> 16 ≠ 0) :
    ((sum &&& (0xFFFF : UInt32)) + (sum >>> 16)).toNat = sum.toNat % 65536 + sum.toNat / 65536 ∧
      sum.toNat % 65536 + sum.toNat / 65536 < sum.toNat := by
  have low : (sum &&& 0xFFFF).toNat = sum.toNat % 65536 := by
    rw [UInt32.toNat_and]
    exact Nat.and_two_pow_sub_one_eq_mod _ 16
  have high : (sum >>> 16).toNat = sum.toNat / 65536 := by
    rw [UInt32.toNat_shiftRight, Nat.shiftRight_eq_div_pow]
    rfl
  have some : sum.toNat / 65536 ≠ 0 := fun zero => carries (UInt32.toNat_inj.1 (high.trans zero))
  have lt := sum.toNat_lt
  rw [UInt32.toNat_add, low, high]
  omega

/-- `while (sum >> 16) sum = (sum & 0xFFFF) + (sum >> 16);`. -/
def foldCarries (sum : UInt32) : UInt32 :=
  if sum >>> 16 ≠ 0 then foldCarries ((sum &&& (0xFFFF : UInt32)) + (sum >>> 16)) else sum
termination_by sum.toNat
decreasing_by
  rename_i carries
  rw [(folded_lt carries).1]
  exact (folded_lt carries).2

/-- `data` are the `len` bytes. -/
def offloadCsumCompute (data : List UInt8) : UInt16 := (~~~(foldCarries (csumLoop 0 data))).toUInt16

/-! ## The checksum of RFC 1071 -/

/-- The bytes as words of two, the first byte the high one; an odd last byte is padded by zero. -/
def checksumWords : List UInt8 → List Nat
  | hi :: lo :: rest => (256 * hi.toNat + lo.toNat) :: checksumWords rest
  | [last] => [256 * last.toNat]
  | [] => []

/-- The complement of the sum of the words with end-around carry. -/
def internetChecksum (data : List UInt8) : Nat := 65535 - (checksumWords data).foldl (endAround 65535) 0

theorem checksumWords_le (data : List UInt8) : ∀ x ∈ checksumWords data, x ≤ 65535 := by
  induction data using checksumWords.induct with
  | case1 hi lo rest ih =>
    have hh := hi.toNat_lt
    have hl := lo.toNat_lt
    rw [checksumWords, List.forall_mem_cons]
    exact ⟨by omega, ih⟩
  | case2 last =>
    have := last.toNat_lt
    simp [checksumWords]
    omega
  | case3 => simp [checksumWords]

theorem internetChecksum_eq (data : List UInt8) :
    internetChecksum data = 65535 - digitOf 65535 (checksumWords data).sum := by
  rw [internetChecksum, foldl_endAround (by decide) (checksumWords_le data)]

theorem sum_checksumWords_le (data : List UInt8) : 2 * (checksumWords data).sum ≤ 65535 * (data.length + 1) := by
  induction data using checksumWords.induct with
  | case1 hi lo rest ih =>
    have hh := hi.toNat_lt
    have hl := lo.toNat_lt
    rw [checksumWords, List.sum_cons, List.length_cons, List.length_cons]
    omega
  | case2 last =>
    have := last.toNat_lt
    simp [checksumWords]
    omega
  | case3 => simp [checksumWords]

/-! ## The code's sum -/

theorem toNat_highByte (x : UInt8) : (x.toUInt16 <<< 8).toNat = 256 * x.toNat := by
  have := x.toNat_lt
  rw [UInt16.toNat_shiftLeft, UInt8.toNat_toUInt16]
  show x.toNat <<< 8 % 65536 = _
  rw [Nat.shiftLeft_eq]
  omega

theorem toNat_csumWord (hi lo : UInt8) : (csumWord hi lo).toNat = 256 * hi.toNat + lo.toNat := by
  rw [csumWord, UInt16.toNat_or, toNat_highByte, UInt8.toNat_toUInt16]
  exact (Nat.two_pow_add_eq_or_of_lt (i := 8) lo.toNat_lt hi.toNat).symm

/-- The accumulator holds the sum modulo `2 ^ 32`. -/
theorem toNat_csumLoop (sum : UInt32) (data : List UInt8) :
    (csumLoop sum data).toNat = (sum.toNat + (checksumWords data).sum) % 2 ^ 32 := by
  induction data using checksumWords.induct generalizing sum with
  | case1 hi lo rest ih =>
    rw [csumLoop, ih, UInt32.toNat_add, UInt16.toNat_toUInt32, toNat_csumWord, Nat.mod_add_mod, checksumWords,
      List.sum_cons, Nat.add_assoc]
  | case2 last =>
    rw [csumLoop, UInt32.toNat_add, UInt16.toNat_toUInt32, toNat_highByte]
    rfl
  | case3 => exact (Nat.mod_eq_of_lt sum.toNat_lt).symm

theorem toNat_foldCarries (sum : UInt32) : (foldCarries sum).toNat = digitOf 65535 sum.toNat := by
  induction k : sum.toNat using Nat.strongRecOn generalizing sum with
  | ind k ih =>
    subst k
    rw [foldCarries]
    split
    · rename_i carries
      obtain ⟨folded, lt⟩ := folded_lt carries
      rw [ih _ (by rw [folded]; exact lt) _ rfl, folded]
      exact digitOf_fold (m := 65535) sum.toNat
    · rename_i none
      have high : (sum >>> 16).toNat = sum.toNat / 65536 := by
        rw [UInt32.toNat_shiftRight, Nat.shiftRight_eq_div_pow]
        rfl
      rw [not_not.1 none, UInt32.toNat_zero] at high
      exact (digitOf_of_le (by omega)).symm

/-- What the function computes. -/
theorem toNat_offloadCsumCompute (data : List UInt8) :
    (offloadCsumCompute data).toNat = 65535 - digitOf 65535 ((checksumWords data).sum % 2 ^ 32) := by
  have value := toNat_foldCarries (csumLoop 0 data)
  rw [toNat_csumLoop, UInt32.toNat_zero, Nat.zero_add] at value
  have le := digitOf_le (m := 65535) (by decide) ((checksumWords data).sum % 2 ^ 32)
  rw [offloadCsumCompute, UInt32.toNat_toUInt16, UInt32.toNat_not, value]
  have size : UInt32.size = 4294967296 := rfl
  omega

/-- **The checksum is that of RFC 1071 if and only if** the sum of the words fits the accumulator. -/
theorem offload_csum_iff (data : List UInt8) (len : data.length < 2 ^ 31) :
    (offloadCsumCompute data).toNat = internetChecksum data ↔ (checksumWords data).sum < 2 ^ 32 := by
  have bound := sum_checksumWords_le data
  rw [toNat_offloadCsumCompute, internetChecksum_eq]
  generalize (checksumWords data).sum = total at bound
  have le := digitOf_le (m := 65535) (by decide) (total % 2 ^ 32)
  have le' := digitOf_le (m := 65535) (by decide) total
  constructor
  · intro same
    have digits : digitOf 65535 (total % 2 ^ 32) = digitOf 65535 total := by omega
    rw [digitOf_eq_iff] at digits
    omega
  · intro fits
    rw [Nat.mod_eq_of_lt fits]

theorem offload_csum_iff_odd : (offloadCsumCompute [0x45, 0x00, 0x1c]).toNat = internetChecksum [0x45, 0x00, 0x1c] :=
  (offload_csum_iff [0x45, 0x00, 0x1c] (by decide)).2 (by decide)

theorem sum_ones (k : Nat) : (checksumWords (List.replicate (2 * k) 0xFF)).sum = 65535 * k := by
  induction k with
  | zero => rfl
  | succ k ih =>
    have more : List.replicate (2 * (k + 1)) (0xFF : UInt8) = 0xFF :: 0xFF :: List.replicate (2 * k) 0xFF := rfl
    rw [more, checksumWords, List.sum_cons, ih]
    show 65535 + 65535 * k = _
    omega

/-- Of 131076 bytes `0xFF` the checksum is 0, and the function's is 1. -/
theorem offload_csum_loses_carry :
    (offloadCsumCompute (List.replicate (2 * 65538) 0xFF)).toNat = 1 ∧
      internetChecksum (List.replicate (2 * 65538) 0xFF) = 0 := by
  rw [toNat_offloadCsumCompute, internetChecksum_eq, sum_ones]
  decide

end MiniHardware.Network
