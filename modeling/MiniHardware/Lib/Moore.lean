import Mathlib.Data.Setoid.Basic
import Mathlib.SetTheory.Cardinal.Finite
import MiniHardware.Lib.Trace

/-!
# Equivalent states

A machine has states, a successor for each state and input, and an output for
each state. Two states are equivalent if every input word leads from them to
states with the same output. This is the partition by outputs if and only if
that partition is stable: states with the same output have successors with the
same output.
-/

namespace MiniHardware.Lib

universe u v w

variable {S : Type u} {A : Type v} {O : Type w}

/-- Every input word leads to the same output. -/
def equivalent (next : S → A → S) (out : S → O) : Setoid S where
  r s t := ∀ word, out (run next s word) = out (run next t word)
  iseqv :=
    { refl := fun _ _ => rfl
      symm := fun h word => (h word).symm
      trans := fun h h' word => (h word).trans (h' word) }

/-- States with the same output have successors with the same output. -/
def StableOutput (next : S → A → S) (out : S → O) : Prop :=
  ∀ s t, out s = out t → ∀ a, out (next s a) = out (next t a)

variable {next : S → A → S} {out : S → O}

theorem equivalent_le_ker : equivalent next out ≤ Setoid.ker out := fun _ _ h => h []

theorem equivalent_next {s t : S} (h : equivalent next out s t) (a : A) :
    equivalent next out (next s a) (next t a) := fun word => h (a :: word)

/-- The partition by outputs is the equivalence if and only if it is stable. -/
theorem equivalent_eq_ker_iff : equivalent next out = Setoid.ker out ↔ StableOutput next out := by
  constructor
  · intro eq s t same a
    have eqv : equivalent next out s t := by
      rw [eq]
      exact same
    exact equivalent_le_ker (equivalent_next eqv a)
  · intro stable
    apply le_antisymm equivalent_le_ker
    intro s t same word
    induction word generalizing s t with
    | nil => exact same
    | cons a word ih => exact ih (stable s t same a)

/-! ## The number of classes -/

/-- A finer partition has as many classes only if it is the same one. -/
theorem card_quotient_eq_iff [Finite S] {r s : Setoid S} (le : r ≤ s) :
    Nat.card (Quotient s) = Nat.card (Quotient r) ↔ r = s := by
  constructor
  · intro eq
    let coarsen : Quotient r → Quotient s := Quotient.map' id le
    have onto : Function.Surjective coarsen := by
      intro q
      induction q using Quotient.inductionOn with
      | h x => exact ⟨Quotient.mk r x, rfl⟩
    have inj := (onto.bijective_of_nat_card_le eq.ge).1
    apply le_antisymm le
    intro x y related
    apply Quotient.exact (s := r)
    apply inj
    exact Quotient.sound (s := s) related
  · rintro rfl
    rfl

/-- A function that picks a member of each class fixes one state of each. -/
theorem card_quotient_eq_card_fixed (r : Setoid S) {rep : S → S} (idem : ∀ s, rep (rep s) = rep s)
    (same : ∀ s t, rep s = rep t ↔ r s t) : Nat.card (Quotient r) = Nat.card {s // rep s = s} := by
  symm
  apply Nat.card_congr
  apply Equiv.ofBijective fun s : {s // rep s = s} => Quotient.mk r s.1
  constructor
  · rintro ⟨s, hs⟩ ⟨t, ht⟩ eq
    apply Subtype.ext
    calc s = rep s := hs.symm
      _ = rep t := (same s t).2 (Quotient.exact eq)
      _ = t := ht
  · intro q
    induction q using Quotient.inductionOn with
    | h x => exact ⟨⟨rep x, idem x⟩, Quotient.sound ((same (rep x) x).1 (idem x))⟩

end MiniHardware.Lib
