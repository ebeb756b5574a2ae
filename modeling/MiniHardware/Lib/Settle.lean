import Mathlib.Logic.Function.Iterate
import Mathlib.Tactic.Common

/-!
# Runs of a partial step

`after step n s` is the state after `n` steps, if all of them are defined.
`settles` is the total-correctness rule used for machines that come to rest:
under an invariant every step is defined, and until the machine is at rest a
rank falls; then it is at rest from some step on.
-/

namespace MiniHardware.Lib

variable {σ : Type*}

/-- The state after `n` steps. -/
def after (step : σ → Option σ) : Nat → σ → Option σ
  | 0, s => some s
  | n + 1, s => (step s).bind (after step n)

@[simp] theorem after_zero (step : σ → Option σ) (s : σ) : after step 0 s = some s := rfl

theorem after_succ {step : σ → Option σ} {n : Nat} {s s' : σ} (h : step s = some s') :
    after step (n + 1) s = after step n s' := by
  rw [after, h]; rfl

theorem after_add (step : σ → Option σ) (m n : Nat) (s : σ) :
    after step (m + n) s = (after step m s).bind (after step n) := by
  induction m generalizing s with
  | zero => rw [Nat.zero_add]; rfl
  | succ m ih =>
    rw [Nat.succ_add, after, after]
    cases step s with
    | none => rfl
    | some s' => exact ih s'

theorem after_snoc (step : σ → Option σ) (n : Nat) (s : σ) :
    after step (n + 1) s = (after step n s).bind step := by
  rw [after_add]
  congr 1
  funext s'
  rw [after]
  cases step s' <;> rfl

/-- An initial part of a defined run is defined. -/
theorem after_isSome_of_le {step : σ → Option σ} {m n : Nat} {s s' : σ} (le : m ≤ n)
    (h : after step n s = some s') : ∃ t, after step m s = some t := by
  obtain ⟨k, rfl⟩ := Nat.exists_eq_add_of_le le
  rw [after_add] at h
  cases e : after step m s with
  | none => rw [e] at h; cases h
  | some t => exact ⟨t, rfl⟩

variable {step : σ → Option σ}

/-- A kept invariant holds after any number of steps. -/
theorem after_invariant {Inv : σ → Prop} (keep : ∀ s, Inv s → ∃ s', step s = some s' ∧ Inv s') {s : σ}
    (init : Inv s) (n : Nat) : ∃ s', after step n s = some s' ∧ Inv s' := by
  induction n generalizing s with
  | zero => exact ⟨s, rfl, init⟩
  | succ n ih =>
    obtain ⟨t, ht, inv⟩ := keep s init
    rw [after_succ ht]
    exact ih inv

/-- A machine whose states carry a rank that falls at every step settles in rank 0. -/
theorem settles {Inv : Nat → σ → Prop}
    (move : ∀ k s, Inv (k + 1) s → ∃ s' j, step s = some s' ∧ j ≤ k ∧ Inv j s')
    (stay : ∀ s, Inv 0 s → ∃ s', step s = some s' ∧ Inv 0 s') {k : Nat} {s : σ} (init : Inv k s) :
    ∃ N, ∀ n, N ≤ n → ∃ s', after step n s = some s' ∧ Inv 0 s' := by
  induction k using Nat.strongRecOn generalizing s with
  | ind k ih =>
    cases k with
    | zero => exact ⟨0, fun n _ => after_invariant stay init n⟩
    | succ k =>
      obtain ⟨t, j, ht, le, inv⟩ := move k s init
      obtain ⟨N, settled⟩ := ih j (by omega) inv
      refine ⟨N + 1, fun n le => ?_⟩
      obtain ⟨n, rfl⟩ := Nat.exists_eq_add_of_le' (Nat.le_trans (Nat.le_add_left 1 N) le)
      rw [after_succ ht]
      exact settled n (by omega)

/-- The runs of a total step are its iterates. -/
theorem after_total (step : σ → σ) (n : Nat) (s : σ) :
    after (fun s => some (step s)) n s = some (step^[n] s) := by
  induction n generalizing s with
  | zero => rfl
  | succ n ih =>
    rw [Function.iterate_succ_apply]
    exact ih (step s)

/-- `settles` for a total step. -/
theorem settles_iterate {step : σ → σ} {Inv : Nat → σ → Prop}
    (move : ∀ k s, Inv k s → ∃ j, (j < k ∨ j = 0) ∧ Inv j (step s)) {k : Nat} {s : σ}
    (init : Inv k s) : ∃ N, ∀ n, N ≤ n → Inv 0 (step^[n] s) := by
  obtain ⟨N, settled⟩ := @settles σ (fun s => some (step s)) Inv
    (fun k s inv => by
      obtain ⟨j, fall, inv'⟩ := move (k + 1) s inv
      exact ⟨step s, j, rfl, by omega, inv'⟩)
    (fun s inv => by
      obtain ⟨j, fall, inv'⟩ := move 0 s inv
      obtain rfl : j = 0 := by omega
      exact ⟨step s, rfl, inv'⟩) k s init
  refine ⟨N, fun n le => ?_⟩
  obtain ⟨t, run, inv⟩ := settled n le
  rw [after_total] at run
  rw [Option.some.inj run]
  exact inv

end MiniHardware.Lib
