import Mathlib.Data.List.Basic

/-!
# Exclusive-or sums of bytes

`xorSum f n` is `f 0 ^^^ … ^^^ f (n - 1)`, as a loop accumulates it. Exclusive
or and conjunction are the sum and the product of a ring, so a product of two
sums is the sum of all products; `crossSum` is the part off the diagonal.
-/

namespace MiniHardware.Lib

def xorSum (f : Nat → UInt8) (n : Nat) : UInt8 := (List.range n).foldl (fun acc i => acc ^^^ f i) 0

/-- The products of two different indices. -/
def crossSum (a b : Nat → UInt8) (n : Nat) : UInt8 :=
  xorSum (fun i => xorSum (fun j => if j = i then 0 else a i &&& b j) n) n

variable {f g : Nat → UInt8} {n : Nat}

@[simp] theorem xorSum_zero (f : Nat → UInt8) : xorSum f 0 = 0 := rfl

@[simp] theorem xorSum_succ (f : Nat → UInt8) (n : Nat) : xorSum f (n + 1) = xorSum f n ^^^ f n := by
  rw [xorSum, List.range_succ, List.foldl_append]
  rfl

theorem xorSum_congr (same : ∀ i < n, f i = g i) : xorSum f n = xorSum g n := by
  induction n with
  | zero => rfl
  | succ n ih =>
    rw [xorSum_succ, xorSum_succ, same n (Nat.lt_succ_self n)]
    rw [ih fun i lt => same i (Nat.lt_succ_of_lt lt)]

/-- Four summands, the inner two exchanged. -/
theorem xor_xor_xor_comm (a b c d : UInt8) : (a ^^^ b) ^^^ (c ^^^ d) = (a ^^^ c) ^^^ (b ^^^ d) := by
  rw [UInt8.xor_assoc, UInt8.xor_assoc, ← UInt8.xor_assoc b, UInt8.xor_comm b, UInt8.xor_assoc c]

theorem xorSum_xor (f g : Nat → UInt8) (n : Nat) :
    xorSum (fun i => f i ^^^ g i) n = xorSum f n ^^^ xorSum g n := by
  induction n with
  | zero => exact UInt8.xor_zero.symm
  | succ n ih => rw [xorSum_succ, xorSum_succ, xorSum_succ, ih, xor_xor_xor_comm]

theorem xorSum_append (f : Nat → UInt8) (m n : Nat) :
    xorSum f (m + n) = xorSum f m ^^^ xorSum (fun i => f (m + i)) n := by
  induction n with
  | zero => rw [Nat.add_zero, xorSum_zero, UInt8.xor_zero]
  | succ n ih => rw [← Nat.add_assoc, xorSum_succ, xorSum_succ, ih, UInt8.xor_assoc]

theorem and_xor_distrib (a b c : UInt8) : a &&& (b ^^^ c) = (a &&& b) ^^^ (a &&& c) := by
  apply UInt8.toBitVec_inj.1
  apply BitVec.eq_of_getElem_eq
  intro i lt
  simp only [UInt8.toBitVec_and, UInt8.toBitVec_xor, BitVec.getElem_and, BitVec.getElem_xor]
  exact Bool.and_xor_distrib_left _ _ _

theorem and_xorSum (a : UInt8) (f : Nat → UInt8) (n : Nat) :
    a &&& xorSum f n = xorSum (fun i => a &&& f i) n := by
  induction n with
  | zero => exact UInt8.and_zero
  | succ n ih => rw [xorSum_succ, xorSum_succ, and_xor_distrib, ih]

theorem xorSum_and (a : UInt8) (f : Nat → UInt8) (n : Nat) :
    xorSum f n &&& a = xorSum (fun i => f i &&& a) n := by
  rw [UInt8.and_comm, and_xorSum]
  exact xorSum_congr fun i _ => UInt8.and_comm _ _

theorem xorSum_eq_zero (zero : ∀ i < n, f i = 0) : xorSum f n = 0 := by
  induction n with
  | zero => rfl
  | succ n ih =>
    rw [xorSum_succ, zero n (Nat.lt_succ_self n), ih fun i lt => zero i (Nat.lt_succ_of_lt lt)]
    rfl

/-- One summand taken out. -/
theorem xorSum_eq_xor {i : Nat} (f : Nat → UInt8) (lt : i < n) :
    xorSum f n = f i ^^^ xorSum (fun j => if j = i then 0 else f j) n := by
  have single : xorSum (fun j => if j = i then f j else 0) n = f i := by
    induction n with
    | zero => exact absurd lt (Nat.not_lt_zero i)
    | succ n ih =>
      rw [xorSum_succ]
      rcases Nat.lt_succ_iff_lt_or_eq.1 lt with lt | rfl
      · rw [ih lt, if_neg (Nat.ne_of_gt lt), UInt8.xor_zero]
      · rw [xorSum_eq_zero fun j lt => if_neg (Nat.ne_of_lt lt), if_pos rfl, UInt8.zero_xor]
  rw [← single, ← xorSum_xor]
  apply xorSum_congr
  intro j _
  split
  · exact UInt8.xor_zero.symm
  · exact UInt8.zero_xor.symm

/-- The product of two sums: the diagonal and the cross products. -/
theorem xorSum_and_xorSum (a b : Nat → UInt8) (n : Nat) :
    xorSum a n &&& xorSum b n = xorSum (fun i => a i &&& b i) n ^^^ crossSum a b n := by
  rw [xorSum_and, crossSum, ← xorSum_xor]
  apply xorSum_congr
  intro i lt
  rw [and_xorSum]
  exact xorSum_eq_xor _ lt

end MiniHardware.Lib
