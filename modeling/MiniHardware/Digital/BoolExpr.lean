import Mathlib.Tactic.Common

/-!
# Boolean expressions (`mini-digital-circuit/src/logic_gate.c`)

A tree is simplified bottom-up in one pass: the children first, then one look
at the node and its new children. `Simplified` are the trees the pass cannot
change any more; one pass always ends in one.
-/

namespace MiniHardware.Digital

/-- The nodes; the constructors are the members of `BoolNodeType`. -/
inductive BoolExpr where
  | const (constVal : Bool)
  | var (varId : Int)
  | and (left right : BoolExpr)
  | or (left right : BoolExpr)
  | not (left : BoolExpr)
  | xor (left right : BoolExpr)
  deriving DecidableEq

/-- A null `var_values` makes every variable false. -/
def boolExprEval (expr : BoolExpr) (varValues : Option (Int → Bool)) : Bool :=
  match expr with
  | .const constVal => constVal
  | .var varId => varValues.elim false fun values => values varId
  | .and left right => boolExprEval left varValues && boolExprEval right varValues
  | .or left right => boolExprEval left varValues || boolExprEval right varValues
  | .not left => !boolExprEval left varValues
  | .xor left right => boolExprEval left varValues != boolExprEval right varValues

def boolExprNodeCount : BoolExpr → Nat
  | .const _ => 1
  | .var _ => 1
  | .and left right => 1 + boolExprNodeCount left + boolExprNodeCount right
  | .or left right => 1 + boolExprNodeCount left + boolExprNodeCount right
  | .not left => 1 + boolExprNodeCount left
  | .xor left right => 1 + boolExprNodeCount left + boolExprNodeCount right

/-- `BOOL_AND` and `BOOL_OR`, the children simplified: the right one is looked at first, and the
constant `absorbing` decides the node. -/
def simplifyJunction (op : BoolExpr → BoolExpr → BoolExpr) (absorbing : Bool)
    (left right : BoolExpr) : BoolExpr :=
  match right with
  | .const constVal => if constVal = absorbing then .const absorbing else left
  | right =>
    match left with
    | .const constVal => if constVal = absorbing then .const absorbing else right
    | left => op left right

/-- `case BOOL_AND`. -/
def simplifyAnd (left right : BoolExpr) : BoolExpr := simplifyJunction .and false left right

/-- `case BOOL_OR`. -/
def simplifyOr (left right : BoolExpr) : BoolExpr := simplifyJunction .or true left right

/-- `case BOOL_NOT`. -/
def simplifyNot (left : BoolExpr) : BoolExpr :=
  match left with
  | .not inner => inner
  | .const constVal => .const (!constVal)
  | left => .not left

def boolExprSimplify : BoolExpr → BoolExpr
  | .const constVal => .const constVal
  | .var varId => .var varId
  | .and left right => simplifyAnd (boolExprSimplify left) (boolExprSimplify right)
  | .or left right => simplifyOr (boolExprSimplify left) (boolExprSimplify right)
  | .not left => simplifyNot (boolExprSimplify left)
  | .xor left right => .xor (boolExprSimplify left) (boolExprSimplify right)

/-! ## Normal forms -/

def BoolExpr.IsConst : BoolExpr → Prop
  | .const _ => True
  | _ => False

def BoolExpr.IsNot : BoolExpr → Prop
  | .not _ => True
  | _ => False

/-- No AND, OR or NOT node has a constant operand, and no NOT has a NOT below it. -/
def Simplified : BoolExpr → Prop
  | .const _ => True
  | .var _ => True
  | .and left right => (Simplified left ∧ ¬ left.IsConst) ∧ (Simplified right ∧ ¬ right.IsConst)
  | .or left right => (Simplified left ∧ ¬ left.IsConst) ∧ (Simplified right ∧ ¬ right.IsConst)
  | .not left => Simplified left ∧ ¬ left.IsConst ∧ ¬ left.IsNot
  | .xor left right => Simplified left ∧ Simplified right

theorem simplifyJunction_of_not_const {op : BoolExpr → BoolExpr → BoolExpr} {absorbing : Bool}
    {left right : BoolExpr} (hl : ¬ left.IsConst) (hr : ¬ right.IsConst) :
    simplifyJunction op absorbing left right = op left right := by
  cases right <;> cases left <;> first | rfl | exact absurd trivial hl | exact absurd trivial hr

theorem simplifyJunction_const_left {op : BoolExpr → BoolExpr → BoolExpr} {absorbing b : Bool}
    {right : BoolExpr} (hr : ¬ right.IsConst) :
    simplifyJunction op absorbing (.const b) right =
      if b = absorbing then .const absorbing else right := by
  cases right <;> first | rfl | exact absurd trivial hr

theorem simplifyNot_of_plain {left : BoolExpr} (hc : ¬ left.IsConst) (hn : ¬ left.IsNot) :
    simplifyNot left = .not left := by
  cases left <;> first | rfl | exact absurd trivial hc | exact absurd trivial hn

/-! ## One node -/

/-- `result` replaces the node `expr`. -/
structure Replaces (result expr : BoolExpr) : Prop where
  eval : ∀ values, boolExprEval result values = boolExprEval expr values
  nodeCount : boolExprNodeCount result ≤ boolExprNodeCount expr
  simplified : Simplified result

theorem BoolExpr.const_or (e : BoolExpr) : (∃ b, e = .const b) ∨ ¬ e.IsConst := by
  cases e with
  | const b => exact Or.inl ⟨b, rfl⟩
  | _ => exact Or.inr id

/-- What AND and OR have in common: `f`, with the constant that absorbs and the one that does
nothing. -/
structure Junction (op : BoolExpr → BoolExpr → BoolExpr) (absorbing : Bool) (f : Bool → Bool → Bool) :
    Prop where
  eval : ∀ l r v, boolExprEval (op l r) v = f (boolExprEval l v) (boolExprEval r v)
  nodeCount : ∀ l r, boolExprNodeCount (op l r) = 1 + boolExprNodeCount l + boolExprNodeCount r
  simplified : ∀ l r, Simplified (op l r) ↔
    (Simplified l ∧ ¬ l.IsConst) ∧ (Simplified r ∧ ¬ r.IsConst)
  absorb : ∀ b, f absorbing b = absorbing ∧ f b absorbing = absorbing
  unit : ∀ b, f (!absorbing) b = b ∧ f b (!absorbing) = b

theorem junction_and : Junction .and false (· && ·) :=
  ⟨fun _ _ _ => rfl, fun _ _ => rfl, fun _ _ => Iff.rfl, by decide, by decide⟩

theorem junction_or : Junction .or true (· || ·) :=
  ⟨fun _ _ _ => rfl, fun _ _ => rfl, fun _ _ => Iff.rfl, by decide, by decide⟩

section Junction

variable {op : BoolExpr → BoolExpr → BoolExpr} {absorbing : Bool} {f : Bool → Bool → Bool}
  {left right : BoolExpr}

theorem Junction.replaces (junction : Junction op absorbing f) (hl : Simplified left)
    (hr : Simplified right) : Replaces (simplifyJunction op absorbing left right) (op left right) := by
  have count := junction.nodeCount left right
  have unit : ∀ b, b ≠ absorbing → b = !absorbing := by
    intro b ne
    cases b <;> cases absorbing <;> first | rfl | exact absurd rfl ne
  have absorbed (same : ∀ v, f (boolExprEval left v) (boolExprEval right v) = absorbing) :
      Replaces (.const absorbing) (op left right) := by
    refine ⟨fun v => ((junction.eval left right v).trans (same v)).symm, ?_, trivial⟩
    rw [count, boolExprNodeCount]
    omega
  rcases right.const_or with ⟨b, rfl⟩ | nr
  · rw [simplifyJunction]
    split
    · rename_i here
      subst here
      exact absorbed fun v => (junction.absorb _).2
    · rename_i here
      obtain rfl := unit b here
      refine ⟨fun v => ?_, by omega, hl⟩
      rw [junction.eval]
      exact ((junction.unit _).2).symm
  · rcases left.const_or with ⟨b, rfl⟩ | nl
    · rw [simplifyJunction_const_left nr]
      split
      · rename_i here
        subst here
        exact absorbed fun v => (junction.absorb _).1
      · rename_i here
        obtain rfl := unit b here
        refine ⟨fun v => ?_, by omega, hr⟩
        rw [junction.eval]
        exact ((junction.unit _).1).symm
    · rw [simplifyJunction_of_not_const nl nr]
      exact ⟨fun _ => rfl, Nat.le_refl _, (junction.simplified left right).2 ⟨⟨hl, nl⟩, hr, nr⟩⟩

end Junction

theorem simplifyNot_replaces {left : BoolExpr} (hl : Simplified left) :
    Replaces (simplifyNot left) (.not left) := by
  cases left with
  | not inner =>
    refine ⟨fun v => by simp [simplifyNot, boolExprEval], ?_, hl.1⟩
    simp only [simplifyNot, boolExprNodeCount]
    omega
  | const b =>
    refine ⟨fun v => rfl, ?_, trivial⟩
    simp only [simplifyNot, boolExprNodeCount]
    omega
  | _ =>
    rw [simplifyNot_of_plain id id]
    exact ⟨fun _ => rfl, Nat.le_refl _, hl, id, id⟩

/-! ## The tree -/

/-- The children may be replaced below a node that is replaced. -/
theorem Replaces.binary {op : BoolExpr → BoolExpr → BoolExpr} {eval : Bool → Bool → Bool}
    (evalOp : ∀ l r v, boolExprEval (op l r) v = eval (boolExprEval l v) (boolExprEval r v))
    (countOp : ∀ l r, boolExprNodeCount (op l r) = 1 + boolExprNodeCount l + boolExprNodeCount r)
    {l l' r r' result : BoolExpr} (left : Replaces l' l) (right : Replaces r' r)
    (node : Replaces result (op l' r')) : Replaces result (op l r) where
  eval v := by rw [node.eval, evalOp, evalOp, left.eval, right.eval]
  nodeCount := by
    have := node.nodeCount
    have := left.nodeCount
    have := right.nodeCount
    rw [countOp] at *
    omega
  simplified := node.simplified

theorem bool_expr_simplify_replaces (e : BoolExpr) : Replaces (boolExprSimplify e) e := by
  induction e with
  | const b => exact ⟨fun _ => rfl, Nat.le_refl _, trivial⟩
  | var i => exact ⟨fun _ => rfl, Nat.le_refl _, trivial⟩
  | and l r ihl ihr =>
    exact Replaces.binary (fun _ _ _ => rfl) (fun _ _ => rfl) ihl ihr
      (junction_and.replaces ihl.simplified ihr.simplified)
  | or l r ihl ihr =>
    exact Replaces.binary (fun _ _ _ => rfl) (fun _ _ => rfl) ihl ihr
      (junction_or.replaces ihl.simplified ihr.simplified)
  | not l ih =>
    have node := simplifyNot_replaces ih.simplified
    refine ⟨fun v => ?_, ?_, node.simplified⟩
    · rw [boolExprSimplify, node.eval, boolExprEval, boolExprEval, ih.eval]
    · have := ih.nodeCount
      have := node.nodeCount
      rw [boolExprSimplify]
      simp only [boolExprNodeCount] at *
      omega
  | xor l r ihl ihr =>
    exact Replaces.binary (fun _ _ _ => rfl) (fun _ _ => rfl) ihl ihr
      ⟨fun _ => rfl, Nat.le_refl _, ihl.simplified, ihr.simplified⟩

/-- The simplified trees are those the pass does not change. -/
theorem bool_expr_simplify_eq_iff (e : BoolExpr) : boolExprSimplify e = e ↔ Simplified e := by
  constructor
  · intro same
    rw [← same]
    exact (bool_expr_simplify_replaces e).simplified
  · intro simplified
    induction e with
    | const b => rfl
    | var i => rfl
    | and l r ihl ihr =>
      obtain ⟨⟨hl, nl⟩, hr, nr⟩ := simplified
      rw [boolExprSimplify, ihl hl, ihr hr, simplifyAnd, simplifyJunction_of_not_const nl nr]
    | or l r ihl ihr =>
      obtain ⟨⟨hl, nl⟩, hr, nr⟩ := simplified
      rw [boolExprSimplify, ihl hl, ihr hr, simplifyOr, simplifyJunction_of_not_const nl nr]
    | not l ih =>
      obtain ⟨hl, nc, nn⟩ := simplified
      rw [boolExprSimplify, ih hl, simplifyNot_of_plain nc nn]
    | xor l r ihl ihr => rw [boolExprSimplify, ihl simplified.1, ihr simplified.2]

/-- **One pass simplifies.** It keeps the value under every valuation, adds no node, and a second
pass changes nothing: no AND, OR or NOT has a constant operand left, and no NOT a NOT. -/
theorem bool_expr_simplify_normalises (e : BoolExpr) :
    (∀ values, boolExprEval (boolExprSimplify e) values = boolExprEval e values) ∧
      boolExprNodeCount (boolExprSimplify e) ≤ boolExprNodeCount e ∧
      boolExprSimplify (boolExprSimplify e) = boolExprSimplify e ∧ Simplified (boolExprSimplify e) := by
  obtain ⟨eval, count, simplified⟩ := bool_expr_simplify_replaces e
  exact ⟨eval, count, (bool_expr_simplify_eq_iff _).2 simplified, simplified⟩

end MiniHardware.Digital
