import Mathlib.Algebra.BigOperators.Group.Finset.Piecewise
import Mathlib.Algebra.Order.BigOperators.Group.Finset
import Mathlib.Data.Finset.Max
import Mathlib.Data.List.FinRange

/-!
# Pruning

`eraseDupsBy r` goes through a list and deletes behind every element that is
still there what is `r`-related to it. If `r` is transitive, what stays are the
elements that are related to no earlier one of the list (`eraseDupsBy_eq`).
Dropping the entries with the least costs costs least (`sum_least_le`).
-/

namespace MiniHardware.Lib

variable {α : Type*} (r : α → α → Bool)

/-- The element is related to no earlier one. -/
def First (l : List α) (j : Fin l.length) : Prop := ∀ i < j, r (l.get j) (l.get i) = false

instance decidableFirst (l : List α) (j : Fin l.length) : Decidable (First r l j) :=
  inferInstanceAs (Decidable (∀ i < j, r (l.get j) (l.get i) = false))

variable {r}

theorem first_zero (a : α) (l : List α) : First r (a :: l) ⟨0, Nat.succ_pos _⟩ :=
  fun i lt => absurd lt (Nat.not_lt_zero i.val)

theorem first_succ (a : α) (l : List α) (j : Fin l.length) :
    First r (a :: l) j.succ ↔ r (l.get j) a = false ∧ First r l j := by
  constructor
  · intro first
    exact ⟨first ⟨0, Nat.succ_pos _⟩ (Nat.succ_pos _), fun i lt => first i.succ (Nat.succ_lt_succ lt)⟩
  · rintro ⟨head, tail⟩ ⟨_ | i, hi⟩ lt
    · exact head
    · exact tail ⟨i, Nat.lt_of_succ_lt_succ hi⟩ (Nat.lt_of_succ_lt_succ lt)

/-- What is left of the elements that are related to no element of `seen`. -/
theorem eraseDupsBy_filter (trans : ∀ a b c, r c b = true → r b a = true → r c a = true) (seen l : List α) :
    (l.filter fun b => !seen.any (r b)).eraseDupsBy r =
      ((List.finRange l.length).filter fun j => decide (First r l j) && !seen.any (r (l.get j))).map l.get := by
  induction l generalizing seen with
  | nil => simp
  | cons a l ih =>
    have later := ih (seen ++ [a])
    have tail : ((List.finRange l.length).filter fun j =>
        decide (First r (a :: l) j.succ) && !seen.any (r (l.get j))) =
        (List.finRange l.length).filter fun j => decide (First r l j) && !(seen ++ [a]).any (r (l.get j)) := by
      refine List.filter_congr fun j _ => ?_
      rw [decide_eq_decide.2 (first_succ a l j), Bool.decide_and, List.any_append]
      cases h : r (l.get j) a <;> simp [h, List.get_eq_getElem] at h ⊢
    have split : ((List.finRange (a :: l).length).filter fun j =>
        decide (First r (a :: l) j) && !seen.any (r ((a :: l).get j))).map (a :: l).get =
        (if seen.any (r a) then [] else [a]) ++
          ((List.finRange l.length).filter fun j =>
            decide (First r l j) && !(seen ++ [a]).any (r (l.get j))).map l.get := by
      have finRange : List.finRange (a :: l).length = ⟨0, Nat.succ_pos _⟩ :: (List.finRange l.length).map Fin.succ :=
        List.finRange_succ
      have head : (a :: l).get ⟨0, Nat.succ_pos _⟩ = a := rfl
      rw [← tail, finRange, List.filter_cons, List.filter_map, decide_eq_true (first_zero a l), head]
      cases seen.any (r a)
      · exact congrArg (fun m => a :: m) List.map_map
      · exact List.map_map
    rw [split, ← later]
    cases covered : seen.any (r a) with
    | true =>
      rw [List.filter_cons_of_neg (by simp [covered]), if_pos rfl, List.nil_append]
      congr 1
      refine List.filter_congr fun b _ => ?_
      obtain ⟨s, mem, hs⟩ := List.any_eq_true.1 covered
      cases hb : r b a with
      | false => simp [hb]
      | true =>
        have before : seen.any (r b) = true := List.any_eq_true.2 ⟨s, mem, trans s a b hb hs⟩
        simp [before]
    | false =>
      rw [List.filter_cons_of_pos (by simp [covered]), List.eraseDupsBy_cons, List.filter_filter,
        if_neg Bool.false_ne_true]
      refine congrArg (fun m => a :: m) (congrArg _ (List.filter_congr fun b _ => ?_))
      cases hb : r b a <;> simp [hb]

/-- **The elements that stay.** -/
theorem eraseDupsBy_eq (trans : ∀ a b c, r c b = true → r b a = true → r c a = true) (l : List α) :
    l.eraseDupsBy r = ((List.finRange l.length).filter fun j => decide (First r l j)).map l.get := by
  simpa using eraseDupsBy_filter trans [] l

/-- The least costs add up to no more than as many others, or more. -/
theorem sum_least_le {ι : Type*} [DecidableEq ι] {M : Type*} [AddCommMonoid M] [LinearOrder M] [IsOrderedAddMonoid M]
    {cost : ι → M} {least other : Finset ι} (card : least.card ≤ other.card)
    (below : ∀ i ∈ least, ∀ j ∉ least, cost i ≤ cost j) (nonneg : ∀ j, 0 ≤ cost j) :
    ∑ i ∈ least, cost i ≤ ∑ i ∈ other, cost i := by
  have counts : (least \ other).card ≤ (other \ least).card := by
    have := Finset.card_sdiff_add_card_inter least other
    have := Finset.card_sdiff_add_card_inter other least
    rw [Finset.inter_comm] at this
    omega
  have outside : ∑ i ∈ least \ other, cost i ≤ ∑ j ∈ other \ least, cost j := by
    rcases (least \ other).eq_empty_or_nonempty with none | some
    · rw [none, Finset.sum_empty]
      exact Finset.sum_nonneg fun j _ => nonneg j
    · obtain ⟨top, mem, greatest⟩ := Finset.exists_max_image _ cost some
      calc ∑ i ∈ least \ other, cost i ≤ (least \ other).card • cost top := Finset.sum_le_card_nsmul _ _ _ greatest
        _ ≤ (other \ least).card • cost top := nsmul_le_nsmul_left (nonneg top) counts
        _ ≤ ∑ j ∈ other \ least, cost j := Finset.card_nsmul_le_sum _ _ _ fun j hj =>
            below top (Finset.mem_sdiff.1 mem).1 j (Finset.mem_sdiff.1 hj).2
  rw [← Finset.sum_inter_add_sum_sdiff least other, ← Finset.sum_inter_add_sum_sdiff other least, Finset.inter_comm]
  exact add_le_add_right outside _

end MiniHardware.Lib
