import MiniHardware.Lib.Bytes

/-!
# Sums of products (`mini-digital-circuit/src/boolean_algebra.c`)

A term is a cube: its mask tells the variables it asks about and `values` what
they have to be. Both are bytes, bit `v` for variable `v`; `(x >> v) & 1` and
the test of `x & (1 << v)` are `byteBit x v`.
-/

namespace MiniHardware.Digital
open Lib

/-- `BA_MAX_VARS`. -/
abbrev baMaxVars : Nat := 8

/-- `BA_MAX_TERMS`. -/
abbrev baMaxTerms : Nat := 256

structure Minterm where
  numVars : Nat
  mask : UInt8
  values : UInt8
  isDontCare : Bool
deriving DecidableEq

/-- `terms` holds the first `term_count` terms. -/
structure SOP where
  numVars : Nat
  terms : List Minterm
  vars_le : numVars ≤ baMaxVars
  count_le : terms.length ≤ baMaxTerms

/-- The number of variables that `sop_create` takes. -/
def sopVars (numVars : Int) : Int :=
  let n := if numVars > baMaxVars then (baMaxVars : Int) else numVars
  if n < 1 then 1 else n

theorem sopVars_le (numVars : Int) : (sopVars numVars).toNat ≤ baMaxVars := by
  have eight : baMaxVars = 8 := rfl
  unfold sopVars
  dsimp only
  split <;> split <;> omega

@[simp] theorem sopVars_of_le {n : Nat} (pos : 1 ≤ n) (le : n ≤ baMaxVars) : (sopVars n).toNat = n := by
  unfold sopVars
  dsimp only
  split <;> split <;> omega

def sopCreate (numVars : Int) : SOP where
  numVars := (sopVars numVars).toNat
  terms := []
  vars_le := sopVars_le numVars
  count_le := Nat.zero_le _

/-- `terms[term_count++] = m`, if there is room. -/
def SOP.push (sop : SOP) (m : Minterm) : SOP :=
  if h : sop.terms.length < baMaxTerms then
    { sop with
      terms := sop.terms ++ [m]
      count_le := by rw [List.length_append]; exact h }
  else sop

def sopAddTerm (sop : SOP) (mask values : UInt8) : SOP := sop.push ⟨sop.numVars, mask, values, false⟩

/-- The loop over the variables: `term_true`. -/
def termTrue (numVars : Nat) (term : Minterm) (inputValues : UInt8) : Bool :=
  (List.range numVars).all fun v =>
    if byteBit term.mask v then
      let varVal := byteBit inputValues v
      let expected := byteBit term.values v
      varVal == expected
    else true

def sopEval (sop : SOP) (inputValues : UInt8) : Bool :=
  sop.terms.any fun term => termTrue sop.numVars term inputValues

/-- The term without a variable: `mask &= ~(1 << var); values &= ~(1 << var)`. -/
def Minterm.drop (m : Minterm) (var : Nat) : Minterm :=
  { m with
    mask := m.mask &&& ~~~(1 <<< UInt8.ofNat var)
    values := m.values &&& ~~~(1 <<< UInt8.ofNat var) }

/-! ## Cubes -/

section Cubes

variable {n : Nat} {t u : Minterm} {r : UInt8}

theorem termTrue_iff :
    termTrue n t r = true ↔ ∀ v < n, byteBit t.mask v = true → byteBit r v = byteBit t.values v := by
  rw [termTrue, List.all_eq_true]
  simp only [List.mem_range]
  refine forall₂_congr fun v _ => ?_
  cases byteBit t.mask v <;> simp

theorem sopEval_iff {sop : SOP} : sopEval sop r = true ↔ ∃ t ∈ sop.terms, termTrue sop.numVars t r = true :=
  List.any_eq_true

/-- Every valuation of `t` is one of `u`. -/
def TermImplies (n : Nat) (t u : Minterm) : Prop := ∀ r, termTrue n t r = true → termTrue n u r = true

end Cubes

/-! ## Taking a variable out -/

/-- A valuation with one variable set to a value. -/
def withBit (r : UInt8) (var : Nat) (value : Bool) : UInt8 :=
  if value then r ||| (1 <<< UInt8.ofNat var) else r &&& ~~~(1 <<< UInt8.ofNat var)

section Drop

variable {n var : Nat} {b : Bool} {r : UInt8} {t : Minterm}

theorem byteBit_withBit (lt : var < 8) (v : Nat) :
    byteBit (withBit r var b) v = if v = var then b else byteBit r v := by
  unfold withBit
  cases b with
  | true =>
    rw [if_pos rfl, byteBit_set r lt]
    by_cases eq : v = var
    · simp [eq]
    · simp [eq, Ne.symm eq]
  | false =>
    rw [if_neg Bool.false_ne_true, byteBit_clear r lt]
    by_cases eq : v = var
    · simp [eq]
    · simp [eq, Ne.symm eq]

theorem withBit_self (lt : var < 8) : withBit r var (byteBit r var) = r := by
  apply byte_ext
  intro v _
  rw [byteBit_withBit lt]
  split
  · rename_i eq
    rw [eq]
  · rfl

/-- Without the variable the term is what it is where the variable has the value it asks for. -/
theorem termTrue_drop (lt : var < 8) (fits : byteBit t.mask var = true → byteBit t.values var = b) :
    termTrue n (t.drop var) r = termTrue n t (withBit r var b) := by
  rw [Bool.eq_iff_iff, termTrue_iff, termTrue_iff]
  refine forall₂_congr fun v _ => ?_
  rw [byteBit_withBit lt, Minterm.drop]
  dsimp only
  rw [byteBit_clear _ lt, byteBit_clear _ lt]
  by_cases eq : v = var
  · subst eq
    simpa using fun asks => (fits asks).symm
  · simp [eq, Ne.symm eq]

end Drop

/-! ## Adding terms -/

section Push

variable {sop : SOP} {m : Minterm}

@[simp] theorem sopCreate_terms (numVars : Int) : (sopCreate numVars).terms = [] := rfl

@[simp] theorem push_numVars : (sop.push m).numVars = sop.numVars := by
  unfold SOP.push
  split <;> rfl

theorem push_terms (room : sop.terms.length < baMaxTerms) : (sop.push m).terms = sop.terms ++ [m] := by
  rw [SOP.push, dif_pos room]

/-- Terms that have room are all there, in order. -/
theorem foldl_push_terms {ι : Type*} {n : Nat} {body : SOP → ι → SOP} {term : ι → Option Minterm}
    (body_eq : ∀ s x, s.numVars = n → body s x = (term x).elim s s.push) (vars : sop.numVars = n) (l : List ι)
    (room : sop.terms.length + l.length ≤ baMaxTerms) :
    (l.foldl body sop).numVars = n ∧ (l.foldl body sop).terms = sop.terms ++ l.filterMap term := by
  induction l generalizing sop with
  | nil => simp [vars]
  | cons x l ih =>
    rw [List.length_cons] at room
    rw [List.foldl_cons, body_eq sop x vars]
    cases here : term x with
    | none =>
      rw [List.filterMap_cons_none here, Option.elim_none]
      exact ih vars (by omega)
    | some m =>
      have pushed : (sop.push m).terms = sop.terms ++ [m] := push_terms (by omega)
      have later := ih (push_numVars.trans vars) (by rw [pushed, List.length_append, List.length_singleton]; omega)
      rw [pushed, List.append_assoc] at later
      rwa [Option.elim_some, List.filterMap_cons_some here]

end Push

end MiniHardware.Digital
