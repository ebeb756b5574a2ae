import MiniHardware.Digital.Sop

/-!
# Shannon expansion (`mini-digital-circuit/src/boolean_algebra.c`)

A cofactor keeps the terms that agree with the value of the variable and takes
the variable out of them, so at every valuation it is what the sum is with the
variable set to the value (`shannon_expansion`).
-/

namespace MiniHardware.Digital
open Lib

/-- The body of the loop over the terms. -/
def cofactorStep (var : Nat) (value : Bool) (co : SOP) (term : Minterm) : SOP :=
  if byteBit term.mask var ∧ byteBit term.values var ≠ value then co
  else co.push (term.drop var)

def shannonCofactor (sop : SOP) (var : Int) (value : Bool) : SOP :=
  let co := sopCreate sop.numVars
  if var < 0 ∨ var ≥ sop.numVars then co
  else sop.terms.foldl (cofactorStep var.toNat value) co

def shannonVerify (sop : SOP) (var : Int) : Bool :=
  if var < 0 ∨ var ≥ sop.numVars then false
  else
    let rows := 1 <<< sop.numVars
    let co1 := shannonCofactor sop var true
    let co0 := shannonCofactor sop var false
    (List.range rows).all fun r =>
      let orig := sopEval sop (UInt8.ofNat r)
      let varVal := byteBit (UInt8.ofNat r) var.toNat
      let cofVal := if varVal then sopEval co1 (UInt8.ofNat r) else sopEval co0 (UInt8.ofNat r)
      orig == cofVal

/-! ## One term -/

section Term

variable {n var : Nat} {b : Bool} {r : UInt8} {t : Minterm}

/-- A term that asks for the other value of the variable is false there. -/
theorem termTrue_withBit_of_ne (lt : var < 8) (below : var < n) (asks : byteBit t.mask var = true)
    (other : byteBit t.values var ≠ b) : termTrue n t (withBit r var b) = false := by
  rw [Bool.eq_false_iff, Ne, termTrue_iff]
  intro all
  have here := all var below asks
  rw [byteBit_withBit lt, if_pos rfl] at here
  exact other here.symm

end Term

/-! ## The sum -/

section Sum

variable (sop : SOP) (var : Fin sop.numVars) (b : Bool)

theorem var_lt (var : Fin sop.numVars) : var.val < 8 := Nat.lt_of_lt_of_le var.isLt sop.vars_le

/-- What becomes of a term. -/
def cofactorTerm (var : Nat) (value : Bool) (term : Minterm) : Option Minterm :=
  if byteBit term.mask var ∧ byteBit term.values var ≠ value then none else some (term.drop var)

/-- The cofactor has room for all of its terms. -/
theorem shannon_cofactor_terms :
    (shannonCofactor sop var.val b).numVars = sop.numVars ∧
      (shannonCofactor sop var.val b).terms = sop.terms.filterMap (cofactorTerm var.val b) := by
  have inside : ¬ ((var.val : Int) < 0 ∨ (var.val : Int) ≥ sop.numVars) := by omega
  have pos : 1 ≤ sop.numVars := Nat.succ_le_of_lt (Nat.zero_lt_of_lt var.isLt)
  have vars : (sopCreate sop.numVars).numVars = sop.numVars := sopVars_of_le pos sop.vars_le
  have step : ∀ (s : SOP) t, s.numVars = sop.numVars →
      cofactorStep var.val b s t = (cofactorTerm var.val b t).elim s s.push := by
    intro s t _
    unfold cofactorStep cofactorTerm
    split <;> rfl
  have loop := foldl_push_terms step vars sop.terms (by simpa using sop.count_le)
  rw [sopCreate_terms, List.nil_append] at loop
  unfold shannonCofactor
  rwa [if_neg inside]

theorem sop_eval_cofactor (r : UInt8) :
    sopEval (shannonCofactor sop var.val b) r = sopEval sop (withBit r var.val b) := by
  obtain ⟨vars, terms⟩ := shannon_cofactor_terms sop var b
  have lt := var_lt sop var
  rw [Bool.eq_iff_iff, sopEval_iff, sopEval_iff, vars, terms]
  simp only [List.mem_filterMap]
  constructor
  · rintro ⟨_, ⟨t, mem, kept⟩, holds⟩
    unfold cofactorTerm at kept
    split at kept
    · cases kept
    · rename_i agrees
      obtain rfl := Option.some.inj kept
      rw [not_and, not_not] at agrees
      exact ⟨t, mem, (termTrue_drop lt agrees).symm.trans holds⟩
  · rintro ⟨t, mem, holds⟩
    have agrees : byteBit t.mask var.val = true → byteBit t.values var.val = b := by
      intro asks
      by_contra other
      rw [termTrue_withBit_of_ne lt var.isLt asks other] at holds
      cases holds
    refine ⟨t.drop var.val, ⟨t, mem, ?_⟩, (termTrue_drop lt agrees).trans holds⟩
    rw [cofactorTerm, if_neg fun h => h.2 (agrees h.1)]

theorem shannon_verify_true : shannonVerify sop var.val = true := by
  have inside : ¬ ((var.val : Int) < 0 ∨ (var.val : Int) ≥ sop.numVars) := by omega
  unfold shannonVerify
  rw [if_neg inside]
  dsimp only
  rw [List.all_eq_true]
  intro r _
  rw [beq_iff_eq, Int.toNat_natCast]
  have choice : ∀ b, byteBit (UInt8.ofNat r) var.val = b →
      sopEval (shannonCofactor sop var.val b) (UInt8.ofNat r) = sopEval sop (UInt8.ofNat r) := by
    rintro b rfl
    rw [sop_eval_cofactor, withBit_self (var_lt sop var)]
  cases bit : byteBit (UInt8.ofNat r) var.val with
  | true => exact (choice true bit).symm
  | false => exact (choice false bit).symm

end Sum

/-- **Shannon expansion**: a cofactor is the sum with the variable set, and the check of the
expansion passes. -/
theorem shannon_expansion (sop : SOP) (var : Fin sop.numVars) :
    (∀ b r, sopEval (shannonCofactor sop var.val b) r = sopEval sop (withBit r var.val b)) ∧
      shannonVerify sop var.val = true :=
  ⟨sop_eval_cofactor sop var, shannon_verify_true sop var⟩

end MiniHardware.Digital
