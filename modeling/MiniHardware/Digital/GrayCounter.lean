import Mathlib.Data.Nat.GCD.Basic
import Mathlib.Data.Int.ModEq
import Mathlib.Data.Set.Finite.Basic
import Mathlib.Order.Interval.Set.Nat
import MiniHardware.Lib.GrayCode
import MiniHardware.Lib.LongWords

/-!
# Counters (`mini-digital-circuit/src/sequential.c`)

A Gray counter holds the code of a binary number, and a tick is a step of that
number modulo `2 ^ num_bits` (`counter_tick_up`, `counter_tick_down`).
-/

namespace MiniHardware.Digital
open Lib

/-- `COUNTER_MAX_BITS`. -/
abbrev counterMaxBits : Nat := 64

inductive CounterType where
  | binary
  | bcd
  | gray
  | johnson
  | ring
  | upDown
deriving DecidableEq

structure Counter where
  type : CounterType
  numBits : Nat
  value : UInt64
  maxValue : UInt64
  up : Bool

def bin2gray (n : UInt64) : UInt64 := n ^^^ (n >>> 1)

/-- `while (m) { m >>= 1; n ^= m; }`. -/
def gray2binLoop (n m : UInt64) : UInt64 :=
  if m = 0 then n else gray2binLoop (n ^^^ (m >>> 1)) (m >>> 1)
termination_by m.toNat
decreasing_by
  rename_i h
  have pos : m.toNat ≠ 0 := fun zero => h (UInt64.toNat_inj.1 zero)
  have shift : (m >>> 1).toNat = m.toNat / 2 := by
    rw [UInt64.toNat_shiftRight, Nat.shiftRight_eq_div_pow]
    rfl
  omega

def gray2bin (n : UInt64) : UInt64 := gray2binLoop n n

/-- With all 64 bits the shift of the source is undefined. -/
def counterCreate (type : CounterType) (numBits : Int) : Counter :=
  let numBits := if numBits > counterMaxBits then (counterMaxBits : Int) else numBits
  let numBits := (if numBits < 1 then 1 else numBits).toNat
  { type := type
    numBits := numBits
    value := 0
    up := true
    maxValue := if type = .bcd then 9 else (1 <<< UInt64.ofNat numBits) - 1 }

def counterTick (c : Counter) : Counter :=
  match c.type with
  | .binary | .upDown | .johnson | .ring =>
    { c with value := if c.up then (c.value + 1) &&& c.maxValue else (c.value - 1) &&& c.maxValue }
  | .bcd => { c with value := if c.up then (c.value + 1) % 10 else if c.value = 0 then 9 else c.value - 1 }
  | .gray =>
    let bin := gray2bin c.value
    let bin := if c.up then (bin + 1) &&& c.maxValue else (bin - 1) &&& c.maxValue
    { c with value := bin2gray bin }

def counterSetDirection (c : Counter) (up : Bool) : Counter := { c with up := up }

/-! ## The code of a word -/

theorem toNat_shiftRight_one (x : UInt64) : (x >>> 1).toNat = x.toNat >>> 1 := UInt64.toNat_shiftRight ..

theorem toNat_bin2gray (x : UInt64) : (bin2gray x).toNat = gray x.toNat := by
  rw [bin2gray, UInt64.toNat_xor, toNat_shiftRight_one, gray]

theorem bin2gray_shiftRight (x : UInt64) : bin2gray x >>> 1 = bin2gray (x >>> 1) := by
  rw [bin2gray, bin2gray, UInt64.shiftRight_xor]

/-- The loop takes the code of `y` off, up to its first round. -/
theorem gray2binLoop_bin2gray (n y : UInt64) : gray2binLoop n (bin2gray y) = n ^^^ (y >>> 1) := by
  induction bound : (bin2gray y).toNat using Nat.strongRecOn generalizing n y with
  | ind k ih =>
    rw [gray2binLoop]
    split
    · rename_i zero
      have none : y.toNat = 0 := by rw [← gray_eq_zero, ← toNat_bin2gray, zero, UInt64.toNat_zero]
      obtain rfl : y = 0 := UInt64.toNat_inj.1 none
      exact (UInt64.xor_zero (a := n)).symm
    · rename_i some
      have pos : (bin2gray y).toNat ≠ 0 := fun zero => some (UInt64.toNat_inj.1 zero)
      have half : (bin2gray (y >>> 1)).toNat < k := by
        rw [← bin2gray_shiftRight, toNat_shiftRight_one, Nat.shiftRight_eq_div_pow]
        omega
      rw [bin2gray_shiftRight, ih _ half _ _ rfl, bin2gray, UInt64.xor_assoc, UInt64.xor_assoc, UInt64.xor_self,
        UInt64.xor_zero]

/-- `gray2bin` undoes `bin2gray`. -/
theorem gray2bin_bin2gray (x : UInt64) : gray2bin (bin2gray x) = x := by
  rw [gray2bin, gray2binLoop_bin2gray, bin2gray, UInt64.xor_assoc, UInt64.xor_self, UInt64.xor_zero]

/-! ## Ticks -/

/-- One less, modulo a divisor of the word's size. -/
theorem sub_one_add_mod {m k : Nat} (posM : 0 < m) (posK : 0 < k) (y : Nat) :
    (m * k - 1 + y) % m = (y + (m - 1)) % m := by
  obtain ⟨j, rfl⟩ := Nat.exists_eq_add_of_lt posK
  have split : m * (0 + j + 1) - 1 + y = y + (m - 1) + m * j := by
    rw [Nat.zero_add, Nat.mul_succ]
    omega
  rw [split, Nat.add_mul_mod_self_left]

/-- A Gray counter with a value and a direction. -/
def grayCounter (n : Nat) (up : Bool) (value : UInt64) : Counter :=
  { counterCreate .gray n with value := value, up := up }

/-- The code of a number. -/
def grayCode (y : Nat) : UInt64 := UInt64.ofNat (gray y)

/-- What a tick adds to the number, modulo `2 ^ n`. -/
def stride (n : Nat) (up : Bool) : Nat := if up then 1 else 2 ^ n - 1

section Ticks

variable {n : Nat} (pos : 1 ≤ n) (le : n ≤ 63)

include le in
theorem two_pow_bits_lt : 2 ^ n < 2 ^ 64 := Nat.pow_lt_pow_right (by decide) (by omega)

include pos le in
theorem grayCounter_maxValue (up : Bool) (value : UInt64) :
    (grayCounter n up value).maxValue.toNat = 2 ^ n - 1 := by
  have bits : (if (if (n : Int) > counterMaxBits then (counterMaxBits : Int) else n) < 1 then 1
      else if (n : Int) > counterMaxBits then (counterMaxBits : Int) else n).toNat = n := by
    have eq : counterMaxBits = 64 := rfl
    split <;> split <;> omega
  have mask : (1 <<< UInt64.ofNat n : UInt64).toNat = 2 ^ n := toNat_longMask (by omega)
  have one : (1 : UInt64) ≤ 1 <<< UInt64.ofNat n := by
    rw [UInt64.le_iff_toNat_le, mask]
    exact Nat.one_le_two_pow
  show ((1 <<< UInt64.ofNat _ : UInt64) - 1).toNat = _
  rw [bits, UInt64.toNat_sub_of_le _ _ one, mask]
  rfl

include le in
theorem toNat_grayCode {y : Nat} (lt : y < 2 ^ n) : (grayCode y).toNat = gray y := by
  rw [grayCode, UInt64.toNat_ofNat']
  exact Nat.mod_eq_of_lt (Nat.lt_trans (gray_lt lt) (two_pow_bits_lt le))

include le in
theorem bin2gray_ofNat {y : Nat} (lt : y < 2 ^ n) : bin2gray (UInt64.ofNat y) = grayCode y := by
  apply UInt64.toNat_inj.1
  rw [toNat_bin2gray, toNat_grayCode le lt, UInt64.toNat_ofNat',
    Nat.mod_eq_of_lt (Nat.lt_trans lt (two_pow_bits_lt le))]

include pos le in
theorem counter_tick {y : Nat} (lt : y < 2 ^ n) (up : Bool) :
    counterTick (grayCounter n up (grayCode y)) = grayCounter n up (grayCode ((y + stride n up) % 2 ^ n)) := by
  have big := two_pow_bits_lt le
  have next : (y + stride n up) % 2 ^ n < 2 ^ n := Nat.mod_lt _ (Nat.two_pow_pos n)
  have decoded : gray2bin (grayCode y) = UInt64.ofNat y := by rw [← bin2gray_ofNat le lt, gray2bin_bin2gray]
  have divides : 2 ^ n ∣ 2 ^ 64 := Nat.pow_dvd_pow 2 (by omega)
  have small : y % 2 ^ 64 = y := Nat.mod_eq_of_lt (Nat.lt_trans lt big)
  have bin : (if up then (UInt64.ofNat y + 1) &&& (grayCounter n up (grayCode y)).maxValue
      else (UInt64.ofNat y - 1) &&& (grayCounter n up (grayCode y)).maxValue) =
      UInt64.ofNat ((y + stride n up) % 2 ^ n) := by
    apply UInt64.toNat_inj.1
    rw [UInt64.toNat_ofNat', Nat.mod_eq_of_lt (Nat.lt_trans next big), stride]
    cases up with
    | true =>
      rw [if_pos rfl, if_pos rfl, UInt64.toNat_and, grayCounter_maxValue pos le, Nat.and_two_pow_sub_one_eq_mod,
        UInt64.toNat_add, UInt64.toNat_ofNat', small, Nat.mod_mod_of_dvd _ divides]
      rfl
    | false =>
      rw [if_neg Bool.false_ne_true, if_neg Bool.false_ne_true, UInt64.toNat_and, grayCounter_maxValue pos le,
        Nat.and_two_pow_sub_one_eq_mod, UInt64.toNat_sub, UInt64.toNat_ofNat', small, Nat.mod_mod_of_dvd _ divides,
        UInt64.toNat_one]
      obtain ⟨k, eq⟩ := divides
      rw [eq]
      refine sub_one_add_mod (Nat.two_pow_pos n) (Nat.pos_of_ne_zero ?_) y
      rintro rfl
      rw [Nat.mul_zero] at eq
      exact absurd eq (by decide)
  show grayCounter n up (bin2gray (if up then (gray2bin (grayCode y) + 1) &&& (grayCounter n up (grayCode y)).maxValue
    else (gray2bin (grayCode y) - 1) &&& (grayCounter n up (grayCode y)).maxValue)) = _
  rw [decoded, bin, bin2gray_ofNat le next]

include pos le in
theorem counter_ticks {y : Nat} (lt : y < 2 ^ n) (up : Bool) (k : Nat) :
    counterTick^[k] (grayCounter n up (grayCode y)) =
      grayCounter n up (grayCode ((y + k * stride n up) % 2 ^ n)) := by
  induction k with
  | zero => rw [Nat.zero_mul, Nat.add_zero, Nat.mod_eq_of_lt lt]; rfl
  | succ k ih =>
    rw [Function.iterate_succ_apply', ih, counter_tick pos le (Nat.mod_lt _ (Nat.two_pow_pos n)), Nat.mod_add_mod,
      Nat.succ_mul, Nat.add_assoc]

/-- A value below `2 ^ n` is the code of a number below `2 ^ n`. -/
theorem exists_grayCode {value : UInt64} (lt : value.toNat < 2 ^ n) : ∃ y < 2 ^ n, value = grayCode y := by
  obtain ⟨y, ltY, code⟩ := exists_gray lt
  exact ⟨y, ltY, by rw [grayCode, code, UInt64.ofNat_toNat]⟩

include pos le in
theorem grayCode_stride {y : Nat} (lt : y < 2 ^ n) (up : Bool) :
    ∃ k < n, grayCode ((y + stride n up) % 2 ^ n) = grayCode y ^^^ (1 <<< UInt64.ofNat k) := by
  have positive := Nat.two_pow_pos n
  have next : (y + stride n up) % 2 ^ n < 2 ^ n := Nat.mod_lt _ positive
  suffices h : ∃ k < n, gray ((y + stride n up) % 2 ^ n) = gray y ^^^ 2 ^ k by
    obtain ⟨k, ltK, code⟩ := h
    refine ⟨k, ltK, UInt64.toNat_inj.1 ?_⟩
    rw [UInt64.toNat_xor, toNat_grayCode le next, toNat_grayCode le lt, toNat_longMask (by omega), code]
  cases up with
  | true => exact gray_succ pos lt
  | false =>
    obtain ⟨k, ltK, code⟩ := gray_succ pos next
    refine ⟨k, ltK, ?_⟩
    have back : ((y + (2 ^ n - 1)) % 2 ^ n + 1) % 2 ^ n = y := by
      rw [Nat.mod_add_mod, Nat.add_assoc, Nat.sub_add_cancel positive, Nat.add_mod_right, Nat.mod_eq_of_lt lt]
    rw [show stride n false = 2 ^ n - 1 from rfl, back] at code
    rw [code, Nat.xor_assoc, Nat.xor_self, Nat.xor_zero]
    rfl

theorem stride_coprime (up : Bool) : (stride n up).Coprime (2 ^ n) := by
  cases up with
  | true => exact Nat.coprime_one_left _
  | false => exact (Nat.coprime_self_sub_left (Nat.two_pow_pos n)).2 (Nat.coprime_one_left _)

end Ticks

/-! ## The cycle -/

/-- Steps of a stride that has no factor in common with the modulus visit every place once. -/
theorem strides_bijOn {m s : Nat} (pos : 0 < m) (coprime : s.Coprime m) (y : Nat) :
    Set.BijOn (fun k => (y + k * s) % m) (Set.Iio m) (Set.Iio m) := by
  have maps : Set.MapsTo (fun k => (y + k * s) % m) (Set.Iio m) (Set.Iio m) := fun _ _ => Nat.mod_lt _ pos
  refine ((Set.finite_Iio m).injOn_iff_bijOn_of_mapsTo maps).1 ?_
  intro k ltK k' ltK' same
  have steps : Nat.ModEq m (k * s) (k' * s) := Nat.ModEq.add_left_cancel' y same
  have eq := Nat.ModEq.cancel_right_of_coprime coprime.symm steps
  rwa [Nat.ModEq, Nat.mod_eq_of_lt ltK, Nat.mod_eq_of_lt ltK'] at eq

theorem grayCode_bijOn {n : Nat} (le : n ≤ 63) :
    Set.BijOn grayCode (Set.Iio (2 ^ n)) {v | v.toNat < 2 ^ n} := by
  refine ⟨fun y lt => ?_, fun y lt y' lt' same => ?_, fun v lt => ?_⟩
  · show (grayCode y).toNat < 2 ^ n
    rw [toNat_grayCode le lt]
    exact gray_lt lt
  · have codes := congrArg UInt64.toNat same
    rwa [toNat_grayCode le lt, toNat_grayCode le lt', gray_inj] at codes
  · obtain ⟨y, ltY, rfl⟩ := exists_grayCode lt
    exact ⟨y, ltY, rfl⟩

/-- **A Gray counter changes one bit a tick and visits every value before it repeats**, in either
direction, and a tick down undoes a tick up. -/
theorem gray_counter_cycles (n : Nat) (pos : 1 ≤ n) (le : n ≤ 63) (value : UInt64) (lt : value.toNat < 2 ^ n)
    (up : Bool) :
    let c := { counterCreate .gray n with value := value, up := up }
    (∃ k < n, (counterTick c).value = value ^^^ (1 <<< UInt64.ofNat k)) ∧
      Set.BijOn (fun k => (counterTick^[k] c).value) (Set.Iio (2 ^ n)) {v | v.toNat < 2 ^ n} ∧
      (counterTick^[2 ^ n] c).value = value ∧
      (counterTick (counterSetDirection (counterTick (counterSetDirection c true)) false)).value = value ∧
      ∀ x, gray2bin (bin2gray x) = x := by
  obtain ⟨y, ltY, rfl⟩ := exists_grayCode lt
  have positive := Nat.two_pow_pos n
  intro c
  have ticks : ∀ k, (counterTick^[k] c).value = grayCode ((y + k * stride n up) % 2 ^ n) := fun k =>
    congrArg Counter.value (counter_ticks pos le ltY up k)
  refine ⟨?_, ?_, ?_, ?_, gray2bin_bin2gray⟩
  · obtain ⟨k, ltK, code⟩ := grayCode_stride pos le ltY up
    exact ⟨k, ltK, (congrArg Counter.value (counter_tick pos le ltY up)).trans code⟩
  · have all := (grayCode_bijOn le).comp (strides_bijOn positive (stride_coprime up) y)
    exact all.congr fun k _ => (ticks k).symm
  · rw [ticks, Nat.add_mul_mod_self_left, Nat.mod_eq_of_lt ltY]
  · have upward : counterTick (counterSetDirection c true) = _ := counter_tick pos le ltY true
    have downward := counter_tick pos le (Nat.mod_lt (y + stride n true) positive) false
    rw [upward]
    refine (congrArg Counter.value downward).trans ?_
    show grayCode _ = _
    rw [Nat.mod_add_mod, Nat.add_assoc, show stride n true + stride n false = 2 ^ n from Nat.add_sub_cancel' positive,
      Nat.add_mod_right, Nat.mod_eq_of_lt ltY]

theorem gray_counter_cycles_three_bits :
    (counterTick^[2 ^ 3] { counterCreate .gray 3 with value := 5, up := false }).value = 5 :=
  (gray_counter_cycles 3 (by decide) (by decide) 5 (by decide) false).2.2.1

end MiniHardware.Digital
