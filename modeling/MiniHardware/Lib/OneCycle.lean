import Mathlib.Data.List.FinRange
import Mathlib.Dynamics.PeriodicPts.Lemmas

/-!
# Permutations of one cycle

A permutation of finitely many ordered points falls into cycles. Every cycle has a least point, and
the rest of it leads from that point back to it through larger ones; so there is one cycle only if
no point but the least of all is come back to that way.
-/

namespace MiniHardware.Lib
open Function

variable {α : Type*}

/-- From every point every other is reached. -/
def OneCycle (f : α → α) : Prop := ∀ x y, ∃ k, f^[k] x = y

/-- The way from `x` leads to `m` through points above `m`. -/
def LeadsTo [LT α] (f : α → α) (m x : α) : Prop := ∃ k, (∀ l < k, m < f^[l] x) ∧ f^[k] x = m

/-- The way depends on the points above `m` only. -/
theorem leadsTo_congr [LT α] {f g : α → α} {m : α} (same : ∀ x, m < x → f x = g x) (x : α) :
    LeadsTo f m x ↔ LeadsTo g m x := by
  have transfer {f g : α → α} (same : ∀ x, m < x → f x = g x) (way : LeadsTo f m x) : LeadsTo g m x := by
    obtain ⟨k, above, back⟩ := way
    have steps (l : ℕ) (le : l ≤ k) : g^[l] x = f^[l] x := by
      induction l with
      | zero => rfl
      | succ l ih =>
        rw [iterate_succ_apply', iterate_succ_apply', ih (Nat.le_of_succ_le le), same _ (above l le)]
    refine ⟨k, fun l lt => ?_, ?_⟩
    · rw [steps l lt.le]
      exact above l lt
    · rw [steps k le_rfl]
      exact back
  exact ⟨transfer same, transfer fun x lt => (same x lt).symm⟩

/-- A point that is come back to through larger ones, is the least of its cycle. -/
theorem le_iterate [Preorder α] {f : α → α} {m : α} (back : LeadsTo f m (f m)) (i : ℕ) : m ≤ f^[i] m := by
  obtain ⟨k, above, last⟩ := back
  have period : IsPeriodicPt f (k + 1) m := last
  rw [← period.iterate_mod_apply i]
  have lt : i % (k + 1) < k + 1 := Nat.mod_lt i (Nat.succ_pos k)
  cases h : i % (k + 1) with
  | zero => exact le_rfl
  | succ l => exact (above l (by omega)).le

section Finite
variable [Finite α] {f : α → α}

theorem period_pos (inj : Injective f) (x : α) : 0 < minimalPeriod f x :=
  minimalPeriod_pos_of_mem_periodicPts (inj.mem_periodicPts x)

/-- Every point reached leads back. -/
theorem exists_iterate_back (inj : Injective f) (x : α) (k : ℕ) : ∃ l, f^[l] (f^[k] x) = x := by
  refine ⟨k * minimalPeriod f x - k, ?_⟩
  have le : k ≤ k * minimalPeriod f x := Nat.le_mul_of_pos_right k (period_pos inj x)
  rw [← iterate_add_apply, Nat.sub_add_cancel le]
  exact (isPeriodicPt_minimalPeriod f x).const_mul k

/-- Every point has a least one on its cycle, that is come back to through larger ones. -/
theorem exists_least [LinearOrder α] (inj : Injective f) (x : α) :
    ∃ m, (∃ k, f^[k] x = m) ∧ LeadsTo f m (f m) := by
  obtain ⟨m, ⟨k, reach⟩, least⟩ := (Set.range fun k => f^[k] x).toFinite.exists_minimal ⟨x, 0, rfl⟩
  have least (i : ℕ) : m ≤ f^[i] m := by
    have mem : f^[i] m ∈ Set.range fun k => f^[k] x := ⟨i + k, by
      dsimp only at reach ⊢
      rw [iterate_add_apply, reach]⟩
    rcases le_total m (f^[i] m) with le | ge
    · exact le
    · exact least mem ge
  have pos := period_pos inj m
  refine ⟨m, ⟨k, reach⟩, minimalPeriod f m - 1, fun l lt => ?_, ?_⟩
  · rw [← iterate_succ_apply]
    apply lt_of_le_of_ne (least _)
    intro eq
    exact not_isPeriodicPt_of_pos_of_lt_minimalPeriod (Nat.succ_ne_zero l) (by omega) eq.symm
  · rw [← iterate_succ_apply, Nat.succ_eq_add_one, Nat.sub_add_cancel pos]
    exact iterate_minimalPeriod

/-- There is one cycle exactly if no point above the least is come back to through larger ones. -/
theorem one_cycle_iff [LinearOrder α] {bot : α} (bottom : ∀ x, bot ≤ x) (inj : Injective f) :
    OneCycle f ↔ ∀ m, bot < m → ¬ LeadsTo f m (f m) := by
  constructor
  · intro one m lt back
    obtain ⟨k, reach⟩ := one m bot
    have le := le_iterate back k
    rw [reach] at le
    exact absurd lt (not_lt.2 le)
  · intro none x y
    have down (z : α) : ∃ k, f^[k] z = bot := by
      obtain ⟨m, reach, back⟩ := exists_least inj z
      rcases (bottom m).lt_or_eq with lt | rfl
      · exact absurd back (none m lt)
      · exact reach
    obtain ⟨i, hi⟩ := down x
    obtain ⟨j, hj⟩ := down y
    obtain ⟨l, hl⟩ := exists_iterate_back inj y j
    refine ⟨l + i, ?_⟩
    rw [iterate_add_apply, hi, ← hj]
    exact hl

end Finite

/-- Following one cycle for as many steps as there are points, meets each point once. -/
theorem OneCycle.count_visits [Fintype α] [DecidableEq α] {f : α → α} (one : OneCycle f) (inj : Injective f) (s x : α) :
    ((List.range (Fintype.card α)).map fun k => f^[k + 1] s).count x = 1 := by
  have all (y : α) : y ∈ (List.range (Fintype.card α)).map fun k => f^[k + 1] s := by
    obtain ⟨k, reach⟩ := one (f s) y
    have pos := period_pos inj (f s)
    refine List.mem_map.2 ⟨k % minimalPeriod f (f s), List.mem_range.2 ?_, ?_⟩
    · exact (Nat.mod_lt k pos).trans_le minimalPeriod_le_card
    · rw [iterate_succ_apply, iterate_mod_minimalPeriod_eq, reach]
  apply List.count_eq_one_of_mem _ (all x)
  have univ : ((List.range (Fintype.card α)).map fun k => f^[k + 1] s).toFinset = Finset.univ :=
    Finset.eq_univ_iff_forall.2 fun y => List.mem_toFinset.2 (all y)
  rw [← Multiset.coe_nodup, ← Multiset.toFinset_card_eq_card_iff_nodup, Multiset.coe_card, List.length_map,
    List.length_range]
  have card := congrArg Finset.card univ
  rw [Finset.card_univ] at card
  exact card

end MiniHardware.Lib
