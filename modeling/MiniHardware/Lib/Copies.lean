import Mathlib.Logic.Function.Basic
import Mathlib.Tactic.Common

/-!
# Replicated copies

The copies of one datum: every holder has none, or one with a right and a
value. A holder may be granted a shared copy (the others lose their sole
right) or the sole one (the others lose their copy), and may lose its copy at
any time. `SingleWriter` says that a sole copy is the only one, `Agree` that
all copies have one value.
-/

namespace MiniHardware.Lib

inductive Right where
  | shared | sole
deriving DecidableEq

/-- The copies of one datum with holders `H` and values `D`. -/
abbrev Copies (H D : Type*) := H → Option (Right × D)

namespace Copies

variable {H D : Type*}

/-- A sole copy is the only copy. -/
def SingleWriter (c : Copies H D) : Prop :=
  ∀ h h' v, c h = some (.sole, v) → h' ≠ h → c h' = none

/-- Every copy has the value `v`. -/
def Agree (c : Copies H D) (v : D) : Prop := ∀ h r x, c h = some (r, x) → x = v

/-- Some holder has a copy. -/
def Held (c : Copies H D) : Prop := ∃ h, c h ≠ none

/-- All copies become shared. -/
def demote (c : Copies H D) : Copies H D := fun h => (c h).map fun x => (.shared, x.2)

/-- A demoted copy is shared and has its value. -/
theorem demote_eq_some {c : Copies H D} {h : H} {r : Right} {v : D} :
    demote c h = some (r, v) ↔ r = .shared ∧ ∃ r', c h = some (r', v) := by
  cases e : c h with
  | none => simp [demote, e]
  | some x => cases x; simp [demote, e, eq_comm, and_comm]

/-- Demoting keeps the values of the copies. -/
theorem Agree.demote {c : Copies H D} {v : D} (agree : c.Agree v) : (demote c).Agree v := by
  intro h r x e
  obtain ⟨-, r', e'⟩ := demote_eq_some.1 e
  exact agree h r' x e'

variable [DecidableEq H]

/-- `h` loses its copy. -/
def evict (c : Copies H D) (h : H) : Copies H D := Function.update c h none

/-- `h` is granted a shared copy. -/
def share (c : Copies H D) (h : H) (v : D) : Copies H D :=
  Function.update (demote c) h (some (.shared, v))

/-- `h` is granted the sole copy. -/
def own (h : H) (v : D) : Copies H D := Function.update (fun _ => none) h (some (.sole, v))

/-- The copies of the others stay. -/
theorem evict_eq_some {c : Copies H D} {h k : H} {x : Right × D} :
    evict c h k = some x ↔ k ≠ h ∧ c k = some x := by
  by_cases e : k = h <;> simp [evict, e]

/-- Nobody else has a copy. -/
theorem own_eq_some {h k : H} {v : D} {x : Right × D} :
    own h v k = some x ↔ k = h ∧ x = (.sole, v) := by
  by_cases e : k = h <;> simp [own, e, eq_comm]

theorem own_self (h : H) (v : D) : own h v h = some (.sole, v) := Function.update_self _ _ _

theorem share_self (c : Copies H D) (h : H) (v : D) : share c h v h = some (.shared, v) :=
  Function.update_self _ _ _

/-- The other copies become shared. -/
theorem share_of_ne {c : Copies H D} {h k : H} {v x : D} {r : Right} (ne : k ≠ h) (e : c k = some (r, x)) :
    share c h v k = some (.shared, x) := by
  rw [share, Function.update_of_ne ne]
  exact demote_eq_some.2 ⟨rfl, r, e⟩

/-- A copy after a share is shared, and is the new one or an old one. -/
theorem share_eq_some {c : Copies H D} {h k : H} {v x : D} {r : Right} (e : share c h v k = some (r, x)) :
    r = .shared ∧ (k = h ∨ ∃ r', c k = some (r', x)) := by
  by_cases here : k = h
  · rw [here, share_self] at e
    exact ⟨(congrArg Prod.fst (Option.some.inj e)).symm, .inl here⟩
  · rw [share, Function.update_of_ne here] at e
    obtain ⟨shared, old⟩ := demote_eq_some.1 e
    exact ⟨shared, .inr old⟩

/-- Losing a copy makes no second one. -/
theorem SingleWriter.evict {c : Copies H D} (single : c.SingleWriter) (h : H) :
    (evict c h).SingleWriter := by
  intro k k' v e ne
  obtain ⟨-, e⟩ := evict_eq_some.1 e
  simp only [Copies.evict, Function.update_apply]
  split
  · rfl
  · exact single k k' v e ne

/-- After a shared grant there is no sole copy. -/
theorem single_writer_share (c : Copies H D) (h : H) (v : D) : (share c h v).SingleWriter := by
  intro k k' x e ne
  simp only [share, Function.update_apply] at e
  split at e
  · cases e
  · cases (demote_eq_some.1 e).1

/-- After a sole grant there is one copy. -/
theorem single_writer_own (h : H) (v : D) : (own h v).SingleWriter := by
  intro k k' x e ne
  obtain ⟨rfl, -⟩ := own_eq_some.1 e
  simp [own, Function.update_of_ne ne]

/-- Losing a copy keeps the others in agreement. -/
theorem Agree.evict {c : Copies H D} {v : D} (agree : c.Agree v) (h : H) : (evict c h).Agree v :=
  fun k r x e => agree k r x (evict_eq_some.1 e).2

/-- A shared copy of the value keeps the copies in agreement. -/
theorem Agree.share {c : Copies H D} {v : D} (agree : c.Agree v) (h : H) :
    (share c h v).Agree v := by
  intro k r x e
  simp only [Copies.share, Function.update_apply] at e
  split at e
  · cases e; rfl
  · exact agree.demote k r x e

/-- The sole copy has its own value. -/
theorem agree_own (h : H) (v : D) : (own h v).Agree v := by
  intro k r x e
  cases (own_eq_some.1 e).2
  rfl

end Copies

end MiniHardware.Lib
