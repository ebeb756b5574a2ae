import Mathlib.Algebra.Order.Field.Rat
import Mathlib.Data.Rat.Floor
import Mathlib.Data.List.ProdSigma

/-!
# Precisions of the tensor core (`mini-ai-accelerator/src/tensor_core.c`)

A `float` is its 32 bits; its value is a rational number, an infinity or not a
number. The conversions work on the bits as the source does. Sums and products
are exact, with the usual rules for infinities.
-/

namespace MiniHardware.Accel

/-- What a `float` stands for. -/
inductive FloatValue where
  | finite (q : ℚ)
  | inf (negative : Bool)
  | nan
  deriving DecidableEq

namespace FloatValue

def add : FloatValue → FloatValue → FloatValue
  | finite p, finite q => finite (p + q)
  | inf s, inf t => if s = t then inf s else nan
  | inf s, finite _ => inf s
  | finite _, inf t => inf t
  | nan, _ => nan
  | _, nan => nan

def mul : FloatValue → FloatValue → FloatValue
  | finite p, finite q => finite (p * q)
  | inf s, inf t => inf (s ^^ t)
  | inf s, finite q => if q = 0 then nan else inf (s ^^ decide (q < 0))
  | finite p, inf t => if p = 0 then nan else inf (decide (p < 0) ^^ t)
  | nan, _ => nan
  | _, nan => nan

instance : Add FloatValue := ⟨add⟩

instance : Mul FloatValue := ⟨mul⟩

/-- The number, where there is one. -/
def toRat : FloatValue → ℚ
  | finite q => q
  | _ => 0

@[simp] theorem finite_add (p q : ℚ) : finite p + finite q = finite (p + q) := rfl

@[simp] theorem finite_mul (p q : ℚ) : finite p * finite q = finite (p * q) := rfl

@[simp] theorem toRat_finite (q : ℚ) : (finite q).toRat = q := rfl

end FloatValue

/-- The value of the bits. -/
def floatValue (bits : UInt32) : FloatValue :=
  let negative := bits >>> 31 ≠ 0
  let exponent := ((bits >>> 23) &&& 0xFF).toNat
  let mantissa := (bits &&& 0x7FFFFF).toNat
  if exponent = 255 then if mantissa = 0 then .inf negative else .nan
  else
    let size : ℚ :=
      if exponent = 0 then mantissa / 2 ^ 149
      else (2 ^ 23 + mantissa) * 2 ^ exponent / 2 ^ 150
    .finite (if negative then -size else size)

/-- The comparison `f == 0.0f`, true of both zeros. -/
def isZero (f : UInt32) : Bool := f &&& 0x7FFFFFFF = 0

/-- The exponent without its bias. -/
def floatExponent (f : UInt32) : Int := (((f >>> 23) &&& 0xFF).toNat : Int) - 127

def fp32ToFp16 (f : UInt32) : UInt16 :=
  if isZero f then 0
  else
    let sign := (f >>> 16) &&& 0x8000
    let exponent := floatExponent f
    let mantissa := f &&& 0x7FFFFF
    if exponent > 15 then (sign ||| 0x7C00).toUInt16
    else if exponent < -14 then sign.toUInt16
    else
      let newMant := (mantissa + 0x1000) >>> 13
      let newExp := if newMant ≥ 0x400 then exponent + 15 + 1 else exponent + 15
      let newMant : UInt32 := if newMant ≥ 0x400 then 0 else newMant
      if newExp ≥ 31 then (sign ||| 0x7C00).toUInt16
      else (sign ||| (UInt32.ofNat newExp.toNat <<< 10) ||| (newMant &&& 0x3FF)).toUInt16

def fp16ToFp32 (h : UInt16) : UInt32 :=
  let sign := (h &&& 0x8000).toUInt32 <<< 16
  let exponent := (h >>> 10).toUInt32 &&& 0x1F
  let mantissa := (h &&& 0x3FF).toUInt32
  if exponent = 0 then sign
  else if exponent = 31 then sign ||| (0x7F800000 : UInt32) ||| (mantissa <<< 13)
  else sign ||| ((exponent - 15 + 127) <<< 23) ||| (mantissa <<< 13)

def fp32ToBf16 (f : UInt32) : UInt16 :=
  let roundingBias := (0x7FFF : UInt32) + ((f >>> 16) &&& 1)
  ((f + roundingBias) >>> 16).toUInt16

def bf16ToFp32 (b : UInt16) : UInt32 := b.toUInt32 <<< 16

def fp32ToFp8E4m3 (f : UInt32) : UInt8 :=
  if isZero f then 0
  else
    let signBit := ((f >>> 31) &&& 1).toUInt8
    let exponent := floatExponent f
    let mantissa := f &&& 0x7FFFFF
    if exponent > 7 then (signBit <<< 7) ||| 0x77
    else if exponent < -8 then signBit <<< 7
    else
      let newExp := exponent + 7
      if newExp < 0 then
        let shift := UInt32.ofNat (-newExp).toNat
        let subMant := (0x400000 ||| mantissa) >>> (shift + 20)
        (signBit <<< 7) ||| (subMant &&& 7).toUInt8
      else
        let newMant := ((mantissa + 0x80000) >>> 20) &&& 7
        let newExp := if newMant ≥ 8 then newExp + 1 else newExp
        let newMant : UInt32 := if newMant ≥ 8 then 0 else newMant
        if newExp ≥ 15 then (signBit <<< 7) ||| 0x77
        else (signBit <<< 7) ||| ((UInt8.ofNat newExp.toNat &&& 0xF) <<< 3) ||| (newMant &&& 7).toUInt8

/-- The source computes these numbers in `float`, where they are exact. -/
def fp8E4m3ToFp32 (v : UInt8) : FloatValue :=
  let sign := (v >>> 7) &&& 1 ≠ 0
  let exp := ((v >>> 3) &&& 0xF).toNat
  let mant := (v &&& 7).toNat
  if exp = 15 then .nan
  else
    let value : ℚ := if exp = 0 then mant / 8 / 2 ^ 6 else (1 + mant / 8) * 2 ^ exp / 2 ^ 7
    .finite (if sign then -value else value)

/-- To the nearest integer, halves away from zero. -/
def roundf (q : ℚ) : Int := if q < 0 then -⌊-q + 1 / 2⌋ else ⌊q + 1 / 2⌋

/-- Rounded, and clamped between `lo` and `hi`. -/
def roundClamp (lo hi : Int) : FloatValue → FloatValue
  | .finite q =>
    let val := roundf q
    let val := if val > hi then hi else val
    let val := if val < lo then lo else val
    .finite val
  | .inf negative => .finite (if negative then lo else hi)
  | .nan => .nan

inductive TensorCorePrecision where
  | fp16Fp16Fp32
  | bf16Bf16Fp32
  | tf32Tf32Fp32
  | fp8Fp8Fp32
  | int8Int8Int32
  | int4Int4Int32
  | fp16SparseFp32
  deriving DecidableEq

/-- The value of what the function returns. -/
def precisionRoundInput (val : UInt32) : TensorCorePrecision → FloatValue
  | .fp16Fp16Fp32 | .fp16SparseFp32 => floatValue (fp16ToFp32 (fp32ToFp16 val))
  | .bf16Bf16Fp32 => floatValue (bf16ToFp32 (fp32ToBf16 val))
  | .tf32Tf32Fp32 => floatValue (val &&& 0xFFFFE000)
  | .fp8Fp8Fp32 => fp8E4m3ToFp32 (fp32ToFp8E4m3 val)
  | .int8Int8Int32 => roundClamp (-128) 127 (floatValue val)
  | .int4Int4Int32 => roundClamp (-8) 7 (floatValue val)

/-- Padding stays padding. -/
theorem precision_round_zero (precision : TensorCorePrecision) :
    precisionRoundInput 0 precision = .finite 0 := by
  cases precision <;> decide +kernel

end MiniHardware.Accel
