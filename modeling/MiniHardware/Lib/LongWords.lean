import Mathlib.Algebra.Group.Int.Defs
import Mathlib.Data.Int.Order.Basic
import Mathlib.Data.Nat.Bitwise
import MiniHardware.Lib.Trace

/-!
# Machine integers

Words of 64 bits, and the checked arithmetic of `int`: `checked x` is the result of
an operation whose value is `x`, and nothing where the operation overflows.
-/

namespace MiniHardware.Lib

/-- Bit `k`, the least significant one first. -/
def longBit (x : UInt64) (k : Nat) : Bool := x.toNat.testBit k

@[simp] theorem longBit_zero (k : Nat) : longBit 0 k = false := Nat.zero_testBit k

@[simp] theorem longBit_or (x y : UInt64) (k : Nat) : longBit (x ||| y) k = (longBit x k || longBit y k) := by
  simp [longBit, UInt64.toNat_or]

/-- The mask of one bit. -/
theorem toNat_longMask {k : Nat} (lt : k < 64) : (1 <<< UInt64.ofNat k : UInt64).toNat = 2 ^ k := by
  have small : k % 2 ^ 64 % 64 = k := by omega
  rw [UInt64.toNat_shiftLeft, UInt64.toNat_ofNat', small, UInt64.toNat_one, Nat.one_shiftLeft]
  exact Nat.mod_eq_of_lt (Nat.pow_lt_pow_right (by decide) lt)

theorem longBit_flag (b : Bool) {i : Nat} (lt : i < 64) (k : Nat) :
    longBit (b.toUInt64 <<< UInt64.ofNat i) k = (b && decide (i = k)) := by
  cases b with
  | false =>
    have zero : (false.toUInt64 <<< UInt64.ofNat i : UInt64) = 0 := UInt64.zero_shiftLeft
    rw [zero, longBit_zero, Bool.false_and]
  | true =>
    have mask : (true.toUInt64 <<< UInt64.ofNat i : UInt64).toNat = 2 ^ i := toNat_longMask lt
    rw [longBit, mask, Nat.testBit_two_pow, Bool.true_and]

/-- A loop that puts one flag in every place of a word. -/
theorem longBit_gather {w : Nat} (le : w ≤ 64) (flag : Fin w → Bool) (k : Nat) :
    longBit ((List.finRange w).foldl (fun sum i => sum ||| ((flag i).toUInt64 <<< UInt64.ofNat i.val)) 0) k =
      if h : k < w then flag ⟨k, h⟩ else false := by
  have loop := finRange_foldl_invariant
    (f := fun (sum : UInt64) (i : Fin w) => sum ||| ((flag i).toUInt64 <<< UInt64.ofNat i.val))
    (motive := fun m sum => ∀ k, longBit sum k = if h : k < w then decide (k < m) && flag ⟨k, h⟩ else false)
    (s := 0) (by simp) ?_
  · rw [loop k]
    split
    · rename_i lt
      rw [decide_eq_true lt, Bool.true_and]
    · rfl
  · intro i sum inv k
    rw [longBit_or, inv k, longBit_flag _ (Nat.lt_of_lt_of_le i.isLt le)]
    by_cases here : i.val = k
    · subst here
      simp
    · have next : k < i.val + 1 ↔ k < i.val := by omega
      simp [here, next]

/-! ## Checked integers -/

section Checked

/-- The values of a C `int`. -/
def FitsInt (x : Int) : Prop := -(2 ^ 31) ≤ x ∧ x < 2 ^ 31

instance decidableFitsInt (x : Int) : Decidable (FitsInt x) := inferInstanceAs (Decidable (_ ∧ _))

def checked (x : Int) : Option Int := if FitsInt x then some x else none

variable {x : Int}

theorem checked_of_fits (fits : FitsInt x) : checked x = some x := if_pos fits

theorem checked_of_not_fits (outside : ¬ FitsInt x) : checked x = none := if_neg outside

end Checked

end MiniHardware.Lib
