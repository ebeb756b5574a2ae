import Mathlib.Data.Nat.Bitwise

/-!
# The Gray code

`gray` is linear for the exclusive or, so the codes of two numbers differ where
the code of their difference has its bits. A number and its successor modulo
`2 ^ n` differ in a block of low bits, whose code is a single bit
(`gray_succ`).
-/

namespace MiniHardware.Lib

def gray (x : Nat) : Nat := x ^^^ (x >>> 1)

theorem gray_xor (x y : Nat) : gray (x ^^^ y) = gray x ^^^ gray y := by
  apply Nat.eq_of_testBit_eq
  intro k
  simp only [gray, Nat.testBit_xor, Nat.testBit_shiftRight]
  cases x.testBit k <;> cases y.testBit k <;> simp

theorem gray_lt {x n : Nat} (lt : x < 2 ^ n) : gray x < 2 ^ n :=
  Nat.xor_lt_two_pow lt (Nat.lt_of_le_of_lt (Nat.shiftRight_le x 1) lt)

theorem gray_eq_zero {x : Nat} : gray x = 0 ↔ x = 0 := by
  rw [gray, Nat.xor_eq_zero_iff, Nat.shiftRight_eq_div_pow]
  omega

theorem gray_inj {x y : Nat} : gray x = gray y ↔ x = y := by
  rw [← Nat.xor_eq_zero_iff, ← gray_xor, gray_eq_zero, Nat.xor_eq_zero_iff]

/-- Every number of `n` bits is the code of one. -/
theorem exists_gray {n v : Nat} (lt : v < 2 ^ n) : ∃ y < 2 ^ n, gray y = v := by
  induction v using Nat.strongRecOn with
  | ind v ih =>
    rcases Nat.eq_zero_or_pos v with rfl | pos
    · exact ⟨0, lt, rfl⟩
    · have half : v >>> 1 < v := by
        rw [Nat.shiftRight_eq_div_pow]
        omega
      obtain ⟨y, ltY, code⟩ := ih (v >>> 1) half (Nat.lt_trans half lt)
      refine ⟨v ^^^ y, Nat.xor_lt_two_pow lt ltY, ?_⟩
      have shifted : (v ^^^ y) >>> 1 = y := by
        rw [Nat.shiftRight_xor_distrib, ← code, gray, Nat.xor_assoc, Nat.xor_self, Nat.xor_zero]
      rw [gray, shifted, Nat.xor_assoc, Nat.xor_self, Nat.xor_zero]

/-- The code of a block of low bits. -/
theorem gray_block (t : Nat) : gray (2 ^ (t + 1) - 1) = 2 ^ t := by
  apply Nat.eq_of_testBit_eq
  intro k
  rw [gray, Nat.testBit_xor, Nat.testBit_shiftRight, Nat.testBit_two_pow_sub_one, Nat.testBit_two_pow_sub_one,
    Nat.testBit_two_pow]
  rcases Nat.lt_trichotomy k t with lt | rfl | gt
  · have a : k < t + 1 := by omega
    have b : 1 + k < t + 1 := by omega
    have c : t ≠ k := by omega
    simp [a, b, c]
  · have b : ¬ 1 + k < k + 1 := by omega
    simp [b]
  · have a : ¬ k < t + 1 := by omega
    have b : ¬ 1 + k < t + 1 := by omega
    have c : t ≠ k := by omega
    simp [a, b, c]

/-- The bits that change when one is added. -/
theorem succ_xor {n x : Nat} (pos : 0 < n) (lt : x < 2 ^ n) : ∃ t < n, (x + 1) % 2 ^ n ^^^ x = 2 ^ (t + 1) - 1 := by
  induction n generalizing x with
  | zero => exact absurd pos (Nat.lt_irrefl 0)
  | succ n ih =>
    have double : ∀ k, (2 * k) ^^^ (2 * (x / 2) + 1) = 2 * (k ^^^ (x / 2)) + 1 := by
      intro k
      have := Nat.xor_bit false k true (x / 2)
      simpa [Nat.bit_val] using this
    rcases Nat.even_or_odd' x with ⟨y, rfl | rfl⟩
    · refine ⟨0, Nat.succ_pos n, ?_⟩
      have inside : (2 * y + 1) % 2 ^ (n + 1) = 2 * y + 1 := Nat.mod_eq_of_lt (by rw [Nat.pow_succ] at lt ⊢; omega)
      have := Nat.xor_bit true y false y
      rw [inside]
      simpa [Nat.bit_val] using this
    · have half : (2 * y + 1) / 2 = y := by omega
      rw [half] at double
      have next : (2 * y + 1 + 1) % 2 ^ (n + 1) = 2 * ((y + 1) % 2 ^ n) := by
        rw [Nat.pow_succ', ← Nat.mul_mod_mul_left]
        congr 1
      rcases Nat.eq_zero_or_pos n with rfl | pos
      · obtain rfl : y = 0 := by omega
        exact ⟨0, by decide, by decide⟩
      · obtain ⟨t, ltT, block⟩ := ih pos (by rw [Nat.pow_succ] at lt; omega : y < 2 ^ n)
        refine ⟨t + 1, Nat.succ_lt_succ ltT, ?_⟩
        have positive := Nat.two_pow_pos (t + 1)
        rw [next, double, block, Nat.pow_succ _ (t + 1)]
        omega

/-- **The codes of a number and its successor differ in one bit.** -/
theorem gray_succ {n x : Nat} (pos : 0 < n) (lt : x < 2 ^ n) :
    ∃ t < n, gray ((x + 1) % 2 ^ n) = gray x ^^^ 2 ^ t := by
  obtain ⟨t, ltT, block⟩ := succ_xor pos lt
  refine ⟨t, ltT, ?_⟩
  have code : gray ((x + 1) % 2 ^ n) ^^^ gray x = 2 ^ t := by rw [← gray_xor, block, gray_block]
  rw [← code, Nat.xor_comm (gray ((x + 1) % 2 ^ n)), ← Nat.xor_assoc, Nat.xor_self, Nat.zero_xor]

end MiniHardware.Lib
