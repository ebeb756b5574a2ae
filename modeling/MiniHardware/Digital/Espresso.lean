import MiniHardware.Lib.Prune
import MiniHardware.Digital.Sop

/-!
# Dropping covered terms (`mini-digital-circuit/src/boolean_algebra.c`)

`minterm_covers(a, b)` holds if `a` asks for all that `b` asks for, so if `a`
implies `b`. `espresso_reduce` then removes `b`, the more general of the two,
and only looks at pairs where the special term comes first. What stays are the
terms that no earlier one implies (`espresso_reduce_terms`).
-/

namespace MiniHardware.Digital
open Lib

def mintermCovers (a b : Minterm) : Bool :=
  if a.mask &&& b.mask ≠ b.mask then false
  else a.values &&& b.mask == b.values &&& b.mask

/-- The loop over `j`: `memmove` closes the gap of a removed term, and the next one is looked at
in the same place. -/
def reduceInner (i j : Nat) (lt : i < j) (terms : List Minterm) (removed : Nat) : List Minterm × Nat :=
  if h : j < terms.length then
    if mintermCovers terms[i] terms[j] then
      reduceInner i j lt (terms.eraseIdx j) (removed + 1)
    else reduceInner i (j + 1) (Nat.lt_succ_of_lt lt) terms removed
  else (terms, removed)
termination_by terms.length - j
decreasing_by
  · rw [List.length_eraseIdx_of_lt h]
    omega
  · omega

theorem reduceInner_length (i j : Nat) (lt : i < j) (terms : List Minterm) (removed : Nat) :
    (reduceInner i j lt terms removed).2 + (reduceInner i j lt terms removed).1.length =
      removed + terms.length := by
  fun_induction reduceInner i j lt terms removed with
  | case1 j lt terms removed h covers ih =>
    rw [ih, List.length_eraseIdx_of_lt h]
    omega
  | case2 j lt terms removed h apart ih => exact ih
  | case3 j lt terms removed h => rfl

theorem reduceInner_removed_le (i j : Nat) (lt : i < j) (terms : List Minterm) (removed : Nat) :
    removed ≤ (reduceInner i j lt terms removed).2 := by
  fun_induction reduceInner i j lt terms removed with
  | case1 j lt terms removed h covers ih => exact Nat.le_of_succ_le ih
  | case2 j lt terms removed h apart ih => exact ih
  | case3 j lt terms removed h => rfl

/-- The loop over `i`. -/
def reduceOuter (i : Nat) (terms : List Minterm) (removed : Nat) : List Minterm × Nat :=
  if i < terms.length then
    let s := reduceInner i (i + 1) (Nat.lt_succ_self i) terms removed
    reduceOuter (i + 1) s.1 s.2
  else (terms, removed)
termination_by terms.length - i
decreasing_by
  have length := reduceInner_length i (i + 1) (Nat.lt_succ_self i) terms removed
  have more := reduceInner_removed_le i (i + 1) (Nat.lt_succ_self i) terms removed
  omega

theorem reduceOuter_length (i : Nat) (terms : List Minterm) (removed : Nat) :
    (reduceOuter i terms removed).2 + (reduceOuter i terms removed).1.length = removed + terms.length := by
  fun_induction reduceOuter i terms removed with
  | case1 i terms removed h s ih => exact ih.trans (reduceInner_length i (i + 1) _ terms removed)
  | case2 i terms removed h => rfl

/-- The number of terms removed, and the sum after the call. -/
def espressoReduce (sop : SOP) : Nat × SOP :=
  let s := reduceOuter 0 sop.terms 0
  (s.2, { sop with
    terms := s.1
    count_le := by
      show (reduceOuter 0 sop.terms 0).1.length ≤ baMaxTerms
      have length := reduceOuter_length 0 sop.terms 0
      have le := sop.count_le
      omega })

/-! ## What stays -/

/-- The loop over `j` deletes from `j` on what term `i` covers. -/
theorem reduceInner_terms (i j : Nat) (lt : i < j) (terms : List Minterm) (removed : Nat) (le : j ≤ terms.length) :
    (reduceInner i j lt terms removed).1 =
      terms.take j ++ (terms.drop j).filter fun t => !mintermCovers terms[i] t := by
  fun_induction reduceInner i j lt terms removed with
  | case1 j lt terms removed h covers ih =>
    have shorter : j ≤ (terms.eraseIdx j).length := by
      rw [List.length_eraseIdx_of_lt h]
      omega
    have same : (terms.eraseIdx j)[i] = terms[i] :=
      List.getElem_eraseIdx_of_lt _ lt
    have short : (terms.take j).length = j := by rw [List.length_take, Nat.min_eq_left le]
    have front : (terms.eraseIdx j).take j = terms.take j := by
      rw [List.eraseIdx_eq_take_drop_succ, List.take_left' short]
    have back : (terms.eraseIdx j).drop j = terms.drop (j + 1) := by
      rw [List.eraseIdx_eq_take_drop_succ, List.drop_left' short]
    rw [ih shorter, same, front, back, List.drop_eq_getElem_cons h, List.filter_cons_of_neg (by simp [covers])]
  | case2 j lt terms removed h apart ih =>
    rw [ih h, List.drop_eq_getElem_cons h,
      List.filter_cons_of_pos (by simp [apart]), List.take_succ_eq_append_getElem h, List.append_assoc]
    rfl
  | case3 j lt terms removed h =>
    obtain rfl : j = terms.length := by omega
    simp

/-- What the double loop leaves of a list whose first `i` terms are done. -/
theorem reduceOuter_terms (done rest : List Minterm) (removed : Nat) :
    (reduceOuter done.length (done ++ rest) removed).1 =
      done ++ rest.eraseDupsBy fun b a => mintermCovers a b := by
  induction len : rest.length using Nat.strongRecOn generalizing done rest removed with
  | ind n ih =>
    rw [reduceOuter]
    cases rest with
    | nil => simp
    | cons a rest =>
      have inside : done.length < (done ++ a :: rest).length := by simp
      have here : (done ++ a :: rest)[done.length] = a := by simp
      have inner := reduceInner_terms done.length (done.length + 1) (Nat.lt_succ_self _) (done ++ a :: rest) removed inside
      have front : (done ++ a :: rest).take (done.length + 1) = done ++ [a] := by
        rw [List.take_append, List.take_of_length_le (Nat.le_succ _)]
        simp
      have back : (done ++ a :: rest).drop (done.length + 1) = rest := by simp [List.drop_append]
      have snoc : done.length + 1 = (done ++ [a]).length := by simp
      rw [here, front, back] at inner
      rw [if_pos inside]
      dsimp only
      rw [inner]
      generalize (reduceInner done.length (done.length + 1) _ (done ++ a :: rest) removed).2 = count
      rw [snoc, ih _ ?_ (done ++ [a]) _ _ rfl, List.eraseDupsBy_cons]
      · simp
      · rw [← len]
        exact Nat.lt_succ_of_le (List.length_filter_le ..)

theorem espresso_reduce_prunes (sop : SOP) :
    (espressoReduce sop).2.terms = sop.terms.eraseDupsBy fun b a => mintermCovers a b :=
  reduceOuter_terms [] sop.terms 0

/-! ## Covering is implication -/

section Covers

variable {a b c : Minterm}

theorem mintermCovers_iff :
    mintermCovers a b = true ↔ ∀ v, byteBit b.mask v = true →
      byteBit a.mask v = true ∧ byteBit a.values v = byteBit b.values v := by
  have bits : ∀ x y : UInt8, x = y ↔ ∀ v, byteBit x v = byteBit y v :=
    fun x y => ⟨fun eq v => by rw [eq], fun all => byte_ext fun v _ => all v⟩
  have iff : mintermCovers a b = true ↔ a.mask &&& b.mask = b.mask ∧ a.values &&& b.mask = b.values &&& b.mask := by
    unfold mintermCovers
    split <;> simp_all
  rw [iff, bits, bits, ← forall_and]
  refine forall_congr' fun v => ?_
  cases h : byteBit b.mask v <;> simp [h]

theorem mintermCovers_trans (ab : mintermCovers a b = true) (bc : mintermCovers b c = true) :
    mintermCovers a c = true := by
  rw [mintermCovers_iff] at *
  intro v asks
  obtain ⟨mask, values⟩ := bc v asks
  obtain ⟨mask', values'⟩ := ab v mask
  exact ⟨mask', values'.trans values⟩

end Covers

/-- No earlier term implies this one. -/
abbrev Unimplied (sop : SOP) (j : Fin sop.terms.length) : Prop :=
  First (fun b a => mintermCovers a b) sop.terms j

/-- **The terms that stay** are those that no earlier one implies. -/
theorem espresso_reduce_terms (sop : SOP) :
    (espressoReduce sop).2.terms =
      ((List.finRange sop.terms.length).filter fun j => decide (Unimplied sop j)).map sop.terms.get := by
  rw [espresso_reduce_prunes]
  have trans : ∀ a b c : Minterm, mintermCovers b c = true → mintermCovers a b = true → mintermCovers a c = true :=
    fun a b c bc ab => mintermCovers_trans ab bc
  exact @eraseDupsBy_eq _ (fun b a => mintermCovers a b) trans sop.terms

/-- What the function is for: nothing but terms goes, the sum stays, and no two terms are left of
which one implies the other. -/
structure Reduces (sop sop' : SOP) (removed : Nat) : Prop where
  vars : sop'.numVars = sop.numVars
  sublist : sop'.terms.Sublist sop.terms
  count : removed + sop'.terms.length = sop.terms.length
  eval : ∀ r, sopEval sop' r = sopEval sop r
  apart : sop'.terms.Pairwise fun t u => ¬ TermImplies sop.numVars t u ∧ ¬ TermImplies sop.numVars u t

theorem espresso_reduce_sublist (sop : SOP) : (espressoReduce sop).2.terms.Sublist sop.terms := by
  have all := (List.filter_sublist (p := fun j => decide (Unimplied sop j))
    (l := List.finRange sop.terms.length)).map sop.terms.get
  rw [espresso_reduce_terms]
  rwa [List.map_get_finRange] at all

theorem espresso_reduce_eval (sop : SOP) (r : UInt8) :
    sopEval (espressoReduce sop).2 r = true ↔
      ∃ j, Unimplied sop j ∧ termTrue sop.numVars (sop.terms.get j) r = true := by
  rw [sopEval_iff, espresso_reduce_terms]
  simp only [List.mem_map, List.mem_filter, List.mem_finRange, true_and, decide_eq_true_iff]
  constructor
  · rintro ⟨_, ⟨j, first, rfl⟩, holds⟩
    exact ⟨j, first, holds⟩
  · rintro ⟨j, first, holds⟩
    exact ⟨_, ⟨j, first, rfl⟩, holds⟩

/-- **`espresso_reduce` does what it is for if and only if** the terms that an earlier one implies are
covered by those that none does, and of the latter none implies another. -/
theorem espresso_reduce_iff (sop : SOP) :
    Reduces sop (espressoReduce sop).2 (espressoReduce sop).1 ↔
      (∀ i j, i < j → mintermCovers (sop.terms.get i) (sop.terms.get j) = true →
        ∀ r, termTrue sop.numVars (sop.terms.get j) r = true →
          ∃ k, Unimplied sop k ∧ termTrue sop.numVars (sop.terms.get k) r = true) ∧
      ∀ i j, Unimplied sop i → Unimplied sop j → i ≠ j →
        ¬ TermImplies sop.numVars (sop.terms.get i) (sop.terms.get j) := by
  constructor
  · intro reduces
    refine ⟨fun i j _ _ r holds => ?_, fun i j firstI firstJ ne implies => ?_⟩
    · rw [← espresso_reduce_eval, reduces.eval, sopEval_iff]
      exact ⟨_, List.get_mem _ _, holds⟩
    · have apart := reduces.apart
      rw [espresso_reduce_terms, List.pairwise_map, List.pairwise_filter] at apart
      simp only [decide_eq_true_iff] at apart
      have ordered := List.pairwise_iff_getElem.1 apart
      rcases Nat.lt_or_gt_of_ne (Fin.val_ne_of_ne ne) with lt | gt
      · have := ordered i.val j.val (by simp) (by simp) lt
        simp only [List.getElem_finRange, Fin.cast_mk, Fin.eta] at this
        exact (this firstI firstJ).1 implies
      · have := ordered j.val i.val (by simp) (by simp) gt
        simp only [List.getElem_finRange, Fin.cast_mk, Fin.eta] at this
        exact (this firstJ firstI).2 implies
  · rintro ⟨covered, apart⟩
    refine ⟨rfl, espresso_reduce_sublist sop, ?_, fun r => ?_, ?_⟩
    · exact (reduceOuter_length 0 sop.terms 0).trans (Nat.zero_add _)
    · rw [Bool.eq_iff_iff, espresso_reduce_eval, sopEval_iff]
      constructor
      · rintro ⟨j, _, holds⟩
        exact ⟨_, List.get_mem _ _, holds⟩
      · rintro ⟨t, mem, holds⟩
        obtain ⟨j, rfl⟩ := List.get_of_mem mem
        by_cases first : Unimplied sop j
        · exact ⟨j, first, holds⟩
        · unfold Unimplied First at first
          push Not at first
          obtain ⟨i, lt, covers⟩ := first
          exact covered i j lt (Bool.of_not_eq_false covers) r holds
    · rw [espresso_reduce_terms, List.pairwise_map, List.pairwise_filter]
      simp only [decide_eq_true_iff]
      have distinct : (List.finRange sop.terms.length).Pairwise fun i j => i ≠ j := List.nodup_finRange _
      exact distinct.imp fun ne firstI firstJ => ⟨apart _ _ firstI firstJ ne, apart _ _ firstJ firstI ne.symm⟩

/-- `A & B`, then `A`. -/
def specialFirst : SOP := sopAddTerm (sopAddTerm (sopCreate 2) 3 3) 1 1

/-- The general term goes, and with it a valuation. -/
theorem espresso_reduce_drops_general :
    sopEval specialFirst 1 = true ∧ sopEval (espressoReduce specialFirst).2 1 = false := by
  have terms := espresso_reduce_prunes specialFirst
  refine ⟨by decide, ?_⟩
  rw [sopEval, terms]
  decide

end MiniHardware.Digital
