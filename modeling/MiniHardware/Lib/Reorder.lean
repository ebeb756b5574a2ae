import Mathlib.Data.Nat.Init
import Mathlib.Tactic.Common

/-!
# Writes out of order

Numbered operations write cells; `contents k` is what the cells hold after the
first `k` of them in order. Some are executed early, others are pending. The
cells hold `InOrder` what they should if every cell is right at each number
that separates the operations executed on it from those pending on it. An
operation may be executed if no later one already executed writes its cells;
it reads right if besides no earlier one is pending on the cells it reads.
-/

namespace MiniHardware.Lib

variable {α β : Type*} {contents : Nat → α → β} {writes : Nat → α → Prop}

/-- `cells` is the outcome of the first `n` operations but the pending ones. -/
def InOrder (contents : Nat → α → β) (writes : Nat → α → Prop) (n : Nat) (pending : Nat → Prop)
    (cells : α → β) : Prop :=
  ∀ k a, k ≤ n → (∀ i, i < k → pending i → ¬ writes i a) →
    (∀ i, k ≤ i → i < n → ¬ pending i → ¬ writes i a) → cells a = contents k a

/-- Cells nobody writes keep their contents. -/
theorem contents_of_not_written (frame : ∀ i a, ¬ writes i a → contents (i + 1) a = contents i a)
    {j k : Nat} {a : α} (le : j ≤ k) (free : ∀ i, j ≤ i → i < k → ¬ writes i a) :
    contents k a = contents j a := by
  induction k, le using Nat.le_induction with
  | base => rfl
  | succ k le ih =>
    rw [frame k a (free k le (Nat.lt_succ_self k))]
    apply ih
    intro i lo hi
    exact free i lo (by omega)

namespace InOrder

variable {n : Nat} {pending pending' : Nat → Prop} {cells cells' : α → β}

/-- A new operation is pending. -/
theorem issue (frame : ∀ i a, ¬ writes i a → contents (i + 1) a = contents i a)
    (inOrder : InOrder contents writes n pending cells) (new : pending' n)
    (same : ∀ i, i < n → (pending' i ↔ pending i)) :
    InOrder contents writes (n + 1) pending' cells := by
  intro k a le before behind
  rcases Nat.lt_or_eq_of_le le with lt | rfl
  · apply inOrder k a (by omega)
    · intro i hi p
      exact before i hi ((same i (by omega)).2 p)
    · intro i lo hi p
      exact behind i lo (by omega) fun p' => p ((same i hi).1 p')
  · rw [frame n a (before n (Nat.lt_succ_self n) new)]
    apply inOrder n a (Nat.le_refl n)
    · intro i hi p
      exact before i (by omega) ((same i hi).2 p)
    · intro i lo hi
      omega

/-- A pending operation is executed. -/
theorem execute (frame : ∀ i a, ¬ writes i a → contents (i + 1) a = contents i a)
    (inOrder : InOrder contents writes n pending cells) {j : Nat} (lt : j < n)
    (fewer : ∀ i, pending' i ↔ pending i ∧ i ≠ j)
    (written : ∀ a, writes j a → cells' a = contents (j + 1) a)
    (kept : ∀ a, ¬ writes j a → cells' a = cells a)
    (alone : ∀ i a, j < i → i < n → ¬ pending i → writes j a → ¬ writes i a) :
    InOrder contents writes n pending' cells' := by
  intro k a le before behind
  by_cases here : writes j a
  · have inside : j < k := by
      by_contra out
      exact behind j (by omega) lt (fun p => ((fewer j).1 p).2 rfl) here
    rw [written a here, contents_of_not_written frame inside]
    intro i lo hi
    by_cases p : pending i
    · exact before i hi ((fewer i).2 ⟨p, by omega⟩)
    · exact alone i a lo (by omega) p here
  · rw [kept a here]
    apply inOrder k a le
    · intro i hi p
      rcases eq_or_ne i j with rfl | ne
      · exact here
      · exact before i hi ((fewer i).2 ⟨p, ne⟩)
    · intro i lo hi p
      exact behind i lo hi fun p' => p ((fewer i).1 p').1

/-- With the same operations pending, the same cells are in order. -/
theorem congr (inOrder : InOrder contents writes n pending cells)
    (same : ∀ i, i < n → (pending' i ↔ pending i)) : InOrder contents writes n pending' cells := by
  intro k a le before behind
  apply inOrder k a le
  · intro i hi p
    exact before i hi ((same i (by omega)).2 p)
  · intro i lo hi p
    exact behind i lo hi fun p' => p ((same i hi).1 p')

/-- When nothing is pending, all operations have had their effect. -/
theorem done (inOrder : InOrder contents writes n pending cells) (none : ∀ i, i < n → ¬ pending i) :
    cells = contents n := by
  funext a
  apply inOrder n a (Nat.le_refl n)
  · intro i hi p
    exact absurd p (none i hi)
  · intro i lo hi
    omega

end InOrder

end MiniHardware.Lib
