import Mathlib.Algebra.Order.Group.Nat
import Mathlib.Data.Nat.ModEq
import Mathlib.Tactic.Ring

/-!
# Sums with an end-around carry

A digit below `m + 1` is a residue modulo `m`, with two digits, `0` and `m`,
for zero. `endAround m` adds two digits and brings the carry out of the top
back in; a sum that starts at `0` only comes to `0` if all its terms are `0`
(`foldl_endAround`).
-/

namespace MiniHardware.Lib

variable {m : Nat}

def endAround (m a b : Nat) : Nat := if a + b ≤ m then a + b else a + b - m

/-- The digit of a number. -/
def digitOf (m n : Nat) : Nat := if n = 0 then 0 else (n - 1) % m + 1

@[simp] theorem digitOf_zero : digitOf m 0 = 0 := rfl

theorem digitOf_eq_zero {n : Nat} : digitOf m n = 0 ↔ n = 0 := by
  unfold digitOf
  split <;> simp_all

theorem digitOf_le (pos : 0 < m) (n : Nat) : digitOf m n ≤ m := by
  unfold digitOf
  split
  · exact Nat.zero_le m
  · exact Nat.succ_le_of_lt (Nat.mod_lt _ pos)

theorem digitOf_of_le {n : Nat} (le : n ≤ m) : digitOf m n = n := by
  unfold digitOf
  split
  · rename_i zero
    exact zero.symm
  · rw [Nat.mod_eq_of_lt (by omega)]
    omega

theorem digitOf_mod (n : Nat) : digitOf m n % m = n % m := by
  unfold digitOf
  split
  · rename_i zero
    rw [zero]
  · rw [Nat.mod_add_mod]
    congr 1
    omega

/-- Two numbers have the same digit if they are the same residue, and both are zero or none. -/
theorem digitOf_eq_iff {n k : Nat} : digitOf m n = digitOf m k ↔ (n = 0 ↔ k = 0) ∧ n % m = k % m := by
  constructor
  · intro eq
    exact ⟨by rw [← @digitOf_eq_zero m n, ← @digitOf_eq_zero m k, eq], by rw [← digitOf_mod n, ← digitOf_mod k, eq]⟩
  · rintro ⟨zero, residue⟩
    unfold digitOf
    by_cases none : n = 0
    · rw [if_pos none, if_pos (zero.1 none)]
    · rw [if_neg none, if_neg fun h => none (zero.2 h)]
      congr 1
      have one : Nat.ModEq m (n - 1 + 1) (k - 1 + 1) := by
        rw [Nat.sub_add_cancel (Nat.pos_of_ne_zero none),
          Nat.sub_add_cancel (Nat.pos_of_ne_zero fun h => none (zero.2 h))]
        exact residue
      exact Nat.ModEq.add_right_cancel' 1 one

theorem digitOf_add (n k : Nat) : digitOf m (digitOf m n + k) = digitOf m (n + k) := by
  rw [digitOf_eq_iff]
  refine ⟨?_, ?_⟩
  · rw [Nat.add_eq_zero_iff, Nat.add_eq_zero_iff, digitOf_eq_zero]
  · rw [Nat.add_mod, digitOf_mod, ← Nat.add_mod]

theorem endAround_eq {a b : Nat} (ha : a ≤ m) (hb : b ≤ m) : endAround m a b = digitOf m (a + b) := by
  unfold endAround
  split
  · rename_i le
    exact (digitOf_of_le le).symm
  · rename_i gt
    have carried : a + b - m ≤ m := by omega
    have digit := digitOf_of_le carried
    rw [← digit, digitOf_eq_iff]
    refine ⟨by omega, ?_⟩
    rw [← Nat.add_mod_right (a + b - m)]
    congr 1
    omega

/-- **The end-around-carry sum** is the digit of the sum. -/
theorem foldl_endAround (pos : 0 < m) {words : List Nat} (le : ∀ x ∈ words, x ≤ m) :
    words.foldl (endAround m) 0 = digitOf m words.sum := by
  have later : ∀ s, (∀ x ∈ words, x ≤ m) → words.foldl (endAround m) (digitOf m s) = digitOf m (s + words.sum) := by
    intro s le
    induction words generalizing s with
    | nil => simp
    | cons x words ih =>
      obtain ⟨first, rest⟩ := List.forall_mem_cons.1 le
      rw [List.foldl_cons, endAround_eq (digitOf_le pos s) first, digitOf_add, ih rest (s + x) rest, List.sum_cons,
        Nat.add_assoc]
  have all := later 0 le
  rwa [digitOf_zero, Nat.zero_add] at all

/-- Bringing all carries of a number back in at once. -/
theorem digitOf_fold (n : Nat) : digitOf m (n % (m + 1) + n / (m + 1)) = digitOf m n := by
  have parts := Nat.div_add_mod n (m + 1)
  rw [digitOf_eq_iff]
  refine ⟨?_, ?_⟩
  · constructor
    · intro none
      rw [Nat.add_eq_zero_iff] at none
      rw [← parts, none.1, none.2, Nat.mul_zero]
    · rintro rfl
      simp
  · have split : n = n % (m + 1) + n / (m + 1) + m * (n / (m + 1)) := by
      calc n = (m + 1) * (n / (m + 1)) + n % (m + 1) := parts.symm
        _ = _ := by ring
    conv_rhs => rw [split]
    exact (Nat.add_mul_mod_self_left _ _ _).symm

end MiniHardware.Lib
