import Mathlib.Algebra.BigOperators.Ring.Finset
import Mathlib.Algebra.Order.BigOperators.Group.Finset
import Mathlib.Algebra.Order.Ring.Int
import Mathlib.Data.Int.Interval
import Mathlib.Tactic.Linarith

/-!
# Scheduling independent tasks on identical machines

A `Schedule` gives each task a machine and a start. Whatever the schedule, its
length is at least the average load and the longest task. `Balanced` is what
assigning every task to a least loaded machine keeps; the two together are the
guarantee of list scheduling.
-/

namespace MiniHardware.Lib

/-! ## Schedules and their lower bounds -/

section Schedules

variable {ι : Type*} {m : ℕ} {duration : ι → ℤ}

/-- Tasks of one machine do not overlap. -/
structure Schedule (m : ℕ) (duration : ι → ℤ) where
  machine : ι → Fin m
  start : ι → ℤ
  nonneg : ∀ i, 0 ≤ start i
  apart : ∀ i j, i ≠ j → machine i = machine j →
    start i + duration i ≤ start j ∨ start j + duration j ≤ start i

def Schedule.EndsBy (S : Schedule m duration) (c : ℤ) : Prop :=
  ∀ i, S.start i + duration i ≤ c

theorem Schedule.duration_le {S : Schedule m duration} {c : ℤ} (ends : S.EndsBy c) (i : ι) :
    duration i ≤ c := by
  have := S.nonneg i
  have := ends i
  omega

variable [Fintype ι]

/-- What one machine runs fits into the time it has. -/
theorem Schedule.load_le {S : Schedule m duration} {c : ℤ} (pos : 0 ≤ c) (ends : S.EndsBy c)
    (nonneg : ∀ i, 0 ≤ duration i) (k : Fin m) : ∑ i with S.machine i = k, duration i ≤ c := by
  classical
  -- the instants a task is running
  let busy : ι → Finset ℤ := fun i => Finset.Ico (S.start i) (S.start i + duration i)
  have card : ∀ i, ((busy i).card : ℤ) = duration i := by
    intro i
    rw [Int.card_Ico, add_sub_cancel_left, Int.toNat_of_nonneg (nonneg i)]
  have disjoint : Set.PairwiseDisjoint {i | S.machine i = k} busy := by
    intro i hi j hj ne
    apply Finset.disjoint_left.2
    intro t ti tj
    rw [Finset.mem_Ico] at ti tj
    rcases S.apart i j ne (hi.trans hj.symm) with h | h
    · omega
    · omega
  have inside : (Finset.univ.filter fun i => S.machine i = k).biUnion busy ⊆ Finset.Ico 0 c := by
    intro t ht
    obtain ⟨i, -, ti⟩ := Finset.mem_biUnion.1 ht
    rw [Finset.mem_Ico] at ti ⊢
    have := S.nonneg i
    have := ends i
    omega
  calc ∑ i with S.machine i = k, duration i
      = ((∑ i with S.machine i = k, (busy i).card : ℕ) : ℤ) := by
        rw [Nat.cast_sum]
        exact Finset.sum_congr rfl fun i _ => (card i).symm
    _ = (((Finset.univ.filter fun i => S.machine i = k).biUnion busy).card : ℤ) := by
        rw [Finset.card_biUnion]
        intro i hi j hj ne
        apply disjoint _ _ ne
        · exact (Finset.mem_filter.1 hi).2
        · exact (Finset.mem_filter.1 hj).2
    _ ≤ ((Finset.Ico 0 c).card : ℤ) := by exact_mod_cast Finset.card_le_card inside
    _ = c := by rw [Int.card_Ico, sub_zero, Int.toNat_of_nonneg pos]

theorem Schedule.total_le {S : Schedule m duration} {c : ℤ} (pos : 0 ≤ c) (ends : S.EndsBy c)
    (nonneg : ∀ i, 0 ≤ duration i) : ∑ i, duration i ≤ m * c := by
  classical
  rw [← Finset.sum_fiberwise Finset.univ S.machine duration]
  calc ∑ k, ∑ i with S.machine i = k, duration i
      ≤ ∑ _k : Fin m, c := Finset.sum_le_sum fun k _ => S.load_le pos ends nonneg k
    _ = m * c := by rw [Finset.sum_const, Finset.card_univ, Fintype.card_fin, nsmul_eq_mul]

end Schedules

/-! ## Always a least loaded machine -/

section Greedy

variable {m : ℕ} {load : Fin m → ℤ} {total longest d : ℤ}

/-- The loads add up to the total, and none is above the average by more than the share
`(m - 1) / m` of the longest task. -/
structure Balanced (load : Fin m → ℤ) (total longest : ℤ) : Prop where
  sum : ∑ k, load k = total
  bound : ∀ k, m * load k ≤ total + (m - 1) * longest

theorem balanced_zero (m : ℕ) : Balanced (fun _ : Fin m => 0) 0 0 where
  sum := Finset.sum_const_zero
  bound _ := by simp

/-- A least load is at most the average. -/
theorem Balanced.least_le (h : Balanced load total longest) {j : Fin m} (least : ∀ k, load j ≤ load k) :
    m * load j ≤ total := by
  rw [← h.sum]
  calc (m : ℤ) * load j = ∑ _k : Fin m, load j := by
        rw [Finset.sum_const, Finset.card_univ, Fintype.card_fin, nsmul_eq_mul]
    _ ≤ ∑ k, load k := Finset.sum_le_sum fun k _ => least k

theorem Balanced.assign (h : Balanced load total longest) {j : Fin m} (least : ∀ k, load j ≤ load k)
    (nonneg : 0 ≤ d) : Balanced (Function.update load j (load j + d)) (total + d) (max longest d) where
  sum := by
    rw [Finset.sum_update_of_mem (Finset.mem_univ j), ← h.sum,
      ← Finset.add_sum_erase _ load (Finset.mem_univ j), Finset.sdiff_singleton_eq_erase,
      add_right_comm]
  bound k := by
    have one : (1 : ℤ) ≤ m := by exact_mod_cast Nat.succ_le_of_lt j.pos
    have share : (m - 1 : ℤ) * longest ≤ (m - 1) * max longest d :=
      mul_le_mul_of_nonneg_left (le_max_left _ _) (by omega)
    rcases eq_or_ne k j with rfl | ne
    · have avg := h.least_le least
      have own : (m - 1 : ℤ) * d ≤ (m - 1) * max longest d :=
        mul_le_mul_of_nonneg_left (le_max_right _ _) (by omega)
      rw [Function.update_self]
      linarith
    · have old := h.bound k
      rw [Function.update_of_ne ne]
      linarith

/-- Against any schedule that ends by `c`. -/
theorem Balanced.ratio (h : Balanced load total longest) {c : ℤ} (avg : total ≤ m * c)
    (crit : longest ≤ c) (k : Fin m) : m * load k ≤ (2 * m - 1) * c := by
  have one : (1 : ℤ) ≤ m := by exact_mod_cast Nat.succ_le_of_lt k.pos
  have share : (m - 1 : ℤ) * longest ≤ (m - 1) * c := mul_le_mul_of_nonneg_left crit (by omega)
  have := h.bound k
  linarith

end Greedy

/-! ## Unit tasks on machines that are loaded already -/

section Units

variable {m : ℕ} {start load other : Fin m → ℤ}

/-- What unit tasks on a least loaded machine keep: where a task came to, no other machine has two tasks
less. -/
structure Levelled (start load : Fin m → ℤ) : Prop where
  grows : ∀ k, start k ≤ load k
  level : ∀ k, start k < load k → ∀ j, load k ≤ load j + 1

theorem Levelled.refl (start : Fin m → ℤ) : Levelled start start where
  grows _ := le_refl _
  level _ lt := absurd lt (lt_irrefl _)

theorem Levelled.assign (h : Levelled start load) {i : Fin m} (least : ∀ k, load i ≤ load k) :
    Levelled start (Function.update load i (load i + 1)) where
  grows k := by
    have := h.grows k
    rcases eq_or_ne k i with rfl | ne
    · rw [Function.update_self]
      omega
    · rwa [Function.update_of_ne ne]
  level k lt j := by
    have below := least j
    rcases eq_or_ne k i with rfl | ne
    · rw [Function.update_self]
      rcases eq_or_ne j k with rfl | ne'
      · rw [Function.update_self]
        omega
      · rw [Function.update_of_ne ne']
        omega
    · rw [Function.update_of_ne ne] at lt ⊢
      have level := h.level k lt j
      rcases eq_or_ne j i with rfl | ne'
      · rw [Function.update_self]
        omega
      · rwa [Function.update_of_ne ne']

/-- No other way of placing as many tasks has a smaller greatest load. -/
theorem Levelled.optimal (h : Levelled start load) (grows : ∀ k, start k ≤ other k)
    (same : ∑ k, load k ≤ ∑ k, other k) {c : ℤ} (le : ∀ k, other k ≤ c) (k : Fin m) : load k ≤ c := by
  by_contra above
  have came : start k < load k := by
    have := grows k
    have := le k
    omega
  -- every machine has at least `c`, and machine `k` more
  have each (j : Fin m) : other j ≤ load j := by
    have := h.level k came j
    have := le j
    omega
  have more : other k < load k := lt_of_le_of_lt (le k) (not_le.1 above)
  exact absurd same (not_le.2 (Finset.sum_lt_sum (fun j _ => each j) ⟨k, Finset.mem_univ k, more⟩))

end Units

end MiniHardware.Lib
