import MiniHardware.Cpu.Isa
import MiniHardware.Lib.Rv32

/-!
# The immediates `isa_decode` reads (`mini-cpu-arch/src/isa.c`)

The I, S and U immediates are those of RV32I. The bits of the B and J
immediates are read but not moved to their places, so these immediates are
right for a few offsets only.
-/

namespace MiniHardware.Cpu
open Lib.Rv32

theorem signExtend_toInt {v sign ext : UInt32} {w : Nat} (lt : w < 31) (fits : v.toNat < 2 ^ (w + 1))
    (hs : sign.toNat = 2 ^ w) (he : ext.toNat = (2 ^ (31 - w) - 1) * 2 ^ (w + 1)) :
    (signExtend v sign ext).toInt = sext (w + 1) v.toNat :=
  toInt_signExtend lt fits hs he

theorem immI_toInt (raw : UInt32) :
    (signExtend ((raw >>> 20) &&& (0xFFF : UInt32)) 0x800 0xFFFFF000).toInt = Format.i.imm raw := by
  have value : ((raw >>> 20) &&& (0xFFF : UInt32)).toNat = field raw 20 12 := by
    exact toNat_field raw (by decide) (by decide)
  have less := field_lt raw 20 12
  rw [signExtend_toInt (w := 11) (by decide) (by omega) (by decide) (by decide), value]
  rfl

theorem immS_toInt (raw : UInt32) :
    (signExtend (((raw >>> 7) &&& (0x1F : UInt32)) ||| ((raw >>> 25) <<< 5)) 0x800 0xFFFFF000).toInt =
      Format.s.imm raw := by
  have sum := toNat_storeFields raw
  have highLt := field_lt raw 25 7
  have lowLt := field_lt raw 7 5
  rw [UInt32.or_comm]
  rw [signExtend_toInt (w := 11) (by decide) (by omega) (by decide) (by decide), sum]
  rfl

theorem immU_toInt (raw : UInt32) : (raw &&& (0xFFFFF000 : UInt32)).toInt32.toInt = Format.u.imm raw := by
  rw [toInt_toInt32, toNat_mask_shifted raw 12 20 (by decide)]
  rfl

/-! ## The branch immediate -/

/-- The bits of a branch offset, as they are put together. -/
def branchBits (raw : UInt32) : UInt32 :=
  ((raw >>> 7) &&& (0x1E : UInt32)) ||| ((raw >>> 25) &&& (0x7E : UInt32)) ||| ((raw >>> 7) &&& (0x1 : UInt32)) |||
    ((raw >>> 31) &&& (0x1 : UInt32))

theorem branchBits_toNat (raw : UInt32) : (branchBits raw).toNat =
    field raw 8 4 * 2 ||| field raw 26 6 * 2 ||| field raw 7 1 ||| field raw 31 1 := by
  have first : ((raw >>> 7) &&& (0x1E : UInt32)).toNat = field raw 8 4 * 2 := by
    rw [toNat_mask_shifted _ 1 4 (by decide), field, toNat_shiftRight raw (by decide), Nat.div_div_eq_div_mul]
    rfl
  have second : ((raw >>> 25) &&& (0x7E : UInt32)).toNat = field raw 26 6 * 2 := by
    rw [toNat_mask_shifted _ 1 6 (by decide), field, toNat_shiftRight raw (by decide), Nat.div_div_eq_div_mul]
    rfl
  have third : ((raw >>> 7) &&& (0x1 : UInt32)).toNat = field raw 7 1 := by
    exact toNat_field raw (by decide) (by decide)
  have fourth : ((raw >>> 31) &&& (0x1 : UInt32)).toNat = field raw 31 1 := by
    exact toNat_field raw (by decide) (by decide)
  rw [branchBits, UInt32.toNat_or, UInt32.toNat_or, UInt32.toNat_or, first, second, third, fourth]

theorem branchBits_lt (raw : UInt32) : (branchBits raw).toNat < 2 ^ 7 := by
  have x := field_lt raw 8 4
  have y := field_lt raw 26 6
  have z := field_lt raw 7 1
  have t := field_lt raw 31 1
  rw [branchBits_toNat]
  refine Nat.or_lt_two_pow (Nat.or_lt_two_pow (Nat.or_lt_two_pow ?_ ?_) ?_) ?_ <;> omega

/-- The branch immediate is right for the offsets from 0 to 30 only. -/
theorem immB_toInt_iff (raw : UInt32) :
    (signExtend (branchBits raw) 0x1000 0xFFFFE000).toInt = Format.b.imm raw ↔
      field raw 25 7 = 0 ∧ field raw 7 1 = 0 := by
  have bits := branchBits_toNat raw
  have less := branchBits_lt raw
  rw [signExtend_toInt (w := 12) (by decide) (by omega) (by decide) (by decide), Format.imm]
  have top := field_lt raw 31 1
  have bit := field_lt raw 7 1
  have hi := field_lt raw 25 6
  have lo := field_lt raw 8 4
  have split25 : field raw 25 7 = field raw 31 1 * 2 ^ 6 + field raw 25 6 := by unfold field; omega
  have split26 : field raw 26 6 = field raw 31 1 * 2 ^ 5 + field raw 25 6 / 2 := by unfold field; omega
  constructor
  · intro same
    have topZero : field raw 31 1 = 0 := by
      unfold sext at same
      split at same <;> split at same <;> omega
    have bitZero : field raw 7 1 = 0 := by
      unfold sext at same
      split at same <;> split at same <;> omega
    rw [topZero, bitZero, Nat.or_zero, Nat.or_zero, split26, topZero] at bits
    have small : field raw 8 4 * 2 ||| (0 * 2 ^ 5 + field raw 25 6 / 2) * 2 < 2 ^ 6 :=
      Nat.or_lt_two_pow (by omega) (by omega)
    have hiSmall : field raw 25 6 < 2 := by
      unfold sext at same
      split at same <;> split at same <;> omega
    have half : (0 * 2 ^ 5 + field raw 25 6 / 2) * 2 = 0 := by omega
    rw [half, Nat.or_zero] at bits
    unfold sext at same
    split at same <;> split at same <;> omega
  · rintro ⟨upperZero, bitZero⟩
    have topZero : field raw 31 1 = 0 := by omega
    have hiZero : field raw 25 6 = 0 := by omega
    rw [split26, topZero, bitZero, hiZero, Nat.or_zero, Nat.or_zero] at bits
    have value : (branchBits raw).toNat = field raw 8 4 * 2 := bits.trans (Nat.or_zero _)
    rw [value, topZero, bitZero, hiZero, Nat.zero_mul, Nat.zero_mul, Nat.zero_mul, Nat.zero_add]

/-! ## The jump immediate -/

/-- The bits of a jump offset, as they are put together. -/
def jumpBits (raw : UInt32) : UInt32 :=
  ((raw >>> 21) &&& (0x3FF : UInt32)) ||| ((raw >>> 20) &&& (0x1 : UInt32)) ||| ((raw >>> 12) &&& (0xFF : UInt32)) |||
    ((raw >>> 31) &&& (0x1 : UInt32))

theorem jumpBits_toNat (raw : UInt32) : (jumpBits raw).toNat =
    field raw 21 10 ||| field raw 20 1 ||| field raw 12 8 ||| field raw 31 1 := by
  have first : ((raw >>> 21) &&& (0x3FF : UInt32)).toNat = field raw 21 10 := by
    exact toNat_field raw (by decide) (by decide)
  have second : ((raw >>> 20) &&& (0x1 : UInt32)).toNat = field raw 20 1 := by
    exact toNat_field raw (by decide) (by decide)
  have third : ((raw >>> 12) &&& (0xFF : UInt32)).toNat = field raw 12 8 := by
    exact toNat_field raw (by decide) (by decide)
  have fourth : ((raw >>> 31) &&& (0x1 : UInt32)).toNat = field raw 31 1 := by
    exact toNat_field raw (by decide) (by decide)
  rw [jumpBits, UInt32.toNat_or, UInt32.toNat_or, UInt32.toNat_or, first, second, third, fourth]

theorem jumpBits_lt (raw : UInt32) : (jumpBits raw).toNat < 2 ^ 10 := by
  have x := field_lt raw 21 10
  have y := field_lt raw 20 1
  have z := field_lt raw 12 8
  have t := field_lt raw 31 1
  rw [jumpBits_toNat]
  refine Nat.or_lt_two_pow (Nat.or_lt_two_pow (Nat.or_lt_two_pow ?_ ?_) ?_) ?_ <;> omega

/-- The jump immediate is right for the offset 0 only. -/
theorem immJ_toInt_iff (raw : UInt32) :
    (signExtend (jumpBits raw) 0x100000 0xFFE00000).toInt = Format.j.imm raw ↔ field raw 12 20 = 0 := by
  have bits := jumpBits_toNat raw
  have less := jumpBits_lt raw
  rw [signExtend_toInt (w := 20) (by decide) (by omega) (by decide) (by decide), Format.imm]
  have top := field_lt raw 31 1
  have mid := field_lt raw 12 8
  have bit := field_lt raw 20 1
  have lo := field_lt raw 21 10
  have parts : field raw 12 20 =
      field raw 31 1 * 2 ^ 19 + field raw 21 10 * 2 ^ 9 + field raw 20 1 * 2 ^ 8 + field raw 12 8 := by
    unfold field
    omega
  constructor
  · intro same
    have zeros : field raw 31 1 = 0 ∧ field raw 12 8 = 0 ∧ field raw 20 1 = 0 := by
      unfold sext at same
      split at same <;> split at same <;> omega
    obtain ⟨topZero, midZero, bitZero⟩ := zeros
    rw [topZero, midZero, bitZero, Nat.or_zero, Nat.or_zero, Nat.or_zero] at bits
    unfold sext at same
    split at same <;> split at same <;> omega
  · intro zero
    have topZero : field raw 31 1 = 0 := by omega
    have midZero : field raw 12 8 = 0 := by omega
    have bitZero : field raw 20 1 = 0 := by omega
    have loZero : field raw 21 10 = 0 := by omega
    rw [topZero, midZero, bitZero, loZero] at bits
    rw [topZero, midZero, bitZero, loZero, bits]
    rfl

/-! ## All formats -/

/-- The decoded immediate is that of RV32I, but for branches whose offset does not fit the
five low bits of its field and for jumps other than to the instruction itself. -/
theorem isaDecode_immediate_iff {raw : UInt32} {f : Format} (handled : opcodeFormat (field raw 0 7) = some f) :
    (isaDecode raw).immediate.toInt = f.imm raw ↔
      (f = .b → field raw 25 7 = 0 ∧ field raw 7 1 = 0) ∧ (f = .j → field raw 12 20 = 0) := by
  have low : (raw &&& (0x7F : UInt32)).toNat = field raw 0 7 := by
    rw [toNat_mask raw (w := 7) (by decide), field, Nat.pow_zero, Nat.div_one]
  have nonzero : raw ≠ 0 := by
    intro zero
    have unhandled : opcodeFormat (field 0 0 7) = none := by decide
    rw [zero, unhandled] at handled
    contradiction
  unfold opcodeFormat at handled
  split at handled <;> cases handled
  case h_1 h =>
    refine iff_of_true ?_ ⟨fun eq => absurd eq (by decide), fun eq => absurd eq (by decide)⟩
    simp only [isaDecode, if_neg nonzero, low, h, Format.imm, Int32.toInt_zero]
  case h_2 h =>
    refine iff_of_true ?_ ⟨fun eq => absurd eq (by decide), fun eq => absurd eq (by decide)⟩
    simpa only [isaDecode, if_neg nonzero, low, h] using immI_toInt raw
  case h_3 h =>
    refine iff_of_true ?_ ⟨fun eq => absurd eq (by decide), fun eq => absurd eq (by decide)⟩
    simpa only [isaDecode, if_neg nonzero, low, h] using immI_toInt raw
  case h_4 h =>
    refine iff_of_true ?_ ⟨fun eq => absurd eq (by decide), fun eq => absurd eq (by decide)⟩
    simpa only [isaDecode, if_neg nonzero, low, h] using immI_toInt raw
  case h_5 h =>
    refine iff_of_true ?_ ⟨fun eq => absurd eq (by decide), fun eq => absurd eq (by decide)⟩
    simpa only [isaDecode, if_neg nonzero, low, h] using immS_toInt raw
  case h_6 h =>
    have branch : (isaDecode raw).immediate = signExtend (branchBits raw) 0x1000 0xFFFFE000 := by
      simp only [isaDecode, if_neg nonzero, low, h]
      rfl
    rw [branch, immB_toInt_iff raw]
    exact ⟨fun zero => ⟨fun _ => zero, fun eq => absurd eq (by decide)⟩, fun both => both.1 rfl⟩
  case h_7 h =>
    refine iff_of_true ?_ ⟨fun eq => absurd eq (by decide), fun eq => absurd eq (by decide)⟩
    simpa only [isaDecode, if_neg nonzero, low, h] using immU_toInt raw
  case h_8 h =>
    refine iff_of_true ?_ ⟨fun eq => absurd eq (by decide), fun eq => absurd eq (by decide)⟩
    simpa only [isaDecode, if_neg nonzero, low, h] using immU_toInt raw
  case h_9 h =>
    have jump : (isaDecode raw).immediate = signExtend (jumpBits raw) 0x100000 0xFFE00000 := by
      simp only [isaDecode, if_neg nonzero, low, h]
      rfl
    rw [jump, immJ_toInt_iff raw]
    exact ⟨fun zero => ⟨fun eq => absurd eq (by decide), fun _ => zero⟩, fun both => both.2 rfl⟩

/-- `lw x1, -1(x2)`. -/
theorem isaDecode_immediate_iff_lw : (isaDecode 0xFFF12083).immediate.toInt = Format.i.imm 0xFFF12083 ↔
    (Format.i = .b → field 0xFFF12083 25 7 = 0 ∧ field 0xFFF12083 7 1 = 0) ∧
      (Format.i = .j → field 0xFFF12083 12 20 = 0) :=
  isaDecode_immediate_iff (by decide)

/-- `beq x1, x2, 32` is decoded as a branch to itself, and `jal x1, 2` as a jump by 1. -/
theorem isaDecode_misplaces :
    (isaDecode 0x02208063).immediate = 0 ∧ Format.b.imm 0x02208063 = 32 ∧
      (isaDecode 0x002000EF).immediate = 1 ∧ Format.j.imm 0x002000EF = 2 := by
  decide

end MiniHardware.Cpu
