import Mathlib.Algebra.Order.Archimedean.Basic
import Mathlib.Algebra.Order.Group.Abs
import Mathlib.Tactic.Abel
import MiniHardware.Lib.Trace

/-!
# Costs of runs

What a run costs is bounded through a potential: a step may cost as much as it
lowers the potential, and as much more as a second quantity grows. Costs of
either sign are bounded over all runs only if coming back to a state costs nothing.
-/

namespace MiniHardware.Lib

variable {σ ο F : Type*}

/-- The cost of the operations `ops`, each in the state it is applied to. -/
def cost [AddCommGroup F] (step : σ → ο → σ) (price : σ → ο → F) : σ → List ο → F
  | _, [] => 0
  | s, op :: ops => price s op + cost step price (step s op) ops

section Loops
variable [AddCommGroup F] {step : σ → ο → σ} {price : σ → ο → F}

theorem cost_append (s : σ) (xs ys : List ο) :
    cost step price s (xs ++ ys) = cost step price s xs + cost step price (run step s xs) ys := by
  induction xs generalizing s with
  | nil => simp [cost]
  | cons op xs ih => rw [List.cons_append, cost, cost, ih, run_cons, add_assoc]

/-- Steps that cost what the potential rises. -/
theorem cost_eq_potential (ok : ο → Prop) (potential : σ → F)
    (rises : ∀ s op, ok op → price s op + potential s = potential (step s op)) (s : σ) {ops : List ο}
    (all : ∀ op ∈ ops, ok op) : cost step price s ops + potential s = potential (run step s ops) := by
  induction ops generalizing s with
  | nil => simp [cost]
  | cons op ops ih =>
    rw [cost, run_cons, add_right_comm, rises s op (all op List.mem_cons_self), add_comm]
    exact ih _ fun op mem => all op (List.mem_cons_of_mem _ mem)

theorem cost_replicate {s : σ} {loop : List ο} (closed : run step s loop = s) (k : Nat) :
    cost step price s (List.replicate k loop).flatten = k • cost step price s loop := by
  induction k with
  | zero => simp [cost]
  | succ k ih =>
    rw [List.replicate_succ, List.flatten_cons, cost_append, closed, ih, succ_nsmul, add_comm]

theorem cost_loop_zero [LinearOrder F] [IsOrderedAddMonoid F] [Archimedean F] {s : σ} {loop : List ο} (bound : F)
    (closed : run step s loop = s)
    (bounded : ∀ k : Nat, |cost step price s (List.replicate k loop).flatten| ≤ bound) :
    cost step price s loop = 0 := by
  by_contra ne
  obtain ⟨k, above⟩ := Archimedean.arch (bound + |cost step price s loop|) (abs_pos.mpr ne)
  have below := bounded k
  rw [cost_replicate closed, abs_nsmul] at below
  have := above.trans below
  exact absurd this (not_le.mpr (lt_add_of_pos_right bound (abs_pos.mpr ne)))

end Loops

variable [AddCommGroup F] [LinearOrder F] [IsOrderedAddMonoid F]

/-- Costs that are paid step by step are paid for over the run. -/
theorem cost_le_potential {step : σ → ο → σ} {price : σ → ο → F} (Inv : σ → Prop) (potential supply : σ → F)
    (keep : ∀ s op, Inv s → Inv (step s op))
    (paid : ∀ s op, Inv s →
      price s op + potential (step s op) ≤ potential s + (supply (step s op) - supply s))
    {s : σ} (init : Inv s) (ops : List ο) :
    cost step price s ops + potential (run step s ops) ≤
      potential s + (supply (run step s ops) - supply s) := by
  induction ops generalizing s with
  | nil => simp [cost]
  | cons op ops ih =>
    have first := paid s op init
    have rest := ih (keep s op init)
    calc price s op + cost step price (step s op) ops + potential (run step (step s op) ops)
        = price s op + (cost step price (step s op) ops + potential (run step (step s op) ops)) := add_assoc _ _ _
      _ ≤ price s op + (potential (step s op) + (supply (run step (step s op) ops) - supply (step s op))) :=
          add_le_add_right rest _
      _ = price s op + potential (step s op) + (supply (run step (step s op) ops) - supply (step s op)) :=
          (add_assoc _ _ _).symm
      _ ≤ potential s + (supply (step s op) - supply s) +
            (supply (run step (step s op) ops) - supply (step s op)) := add_le_add_left first _
      _ = potential s + (supply (run step (step s op) ops) - supply s) := by abel

end MiniHardware.Lib
