import Mathlib.Algebra.BigOperators.Group.Finset.Basic
import Mathlib.Algebra.BigOperators.Group.Finset.Piecewise
import Mathlib.Algebra.Order.BigOperators.Group.Finset
import Mathlib.Algebra.Order.BigOperators.Ring.Finset
import Mathlib.Data.Matrix.Mul
import Mathlib.Tactic.Linarith
import Mathlib.Tactic.Ring
import MiniHardware.Lib.Trace

/-!
# Mistake bounds

A table of saturating counters, of which a machine asks one entry after the
other. A counter below `2 * half` guesses yes from `half` on and moves one step
towards every outcome. Against any fixed answer for each entry, the table errs at
most twice for every outcome that the answer gets wrong, and once more for each
step that a counter starts away from the answer (`tally_mistakes_le`).

A perceptron's weight vector is moved by vectors that a fixed `u` separates: each
of them has a margin of at least `γ` against `u`, and each raises the square of the
weights by at most `B`. After `k` moves the weights are then both long along `u`
and short, which bounds the number of moves (`Bounded.count_le`).
-/

namespace MiniHardware.Lib.Counters

variable {ι σ ο : Type*} {half : Nat}

def guess (half c : Nat) : Bool := decide (half ≤ c)

/-- One step towards the outcome, within `0 .. 2 * half - 1`. -/
def train (half c : Nat) (outcome : Bool) : Nat :=
  if outcome then (if c < 2 * half - 1 then c + 1 else c) else c - 1

/-- How many steps the counter is away from guessing `side`. -/
def debt (half c : Nat) (side : Bool) : Nat := if side then half - c else c + 1 - half

/-- A mistake is paid by the debt, or by the fixed answer's own mistake. -/
theorem mistake_paid (pos : 0 < half) {c : Nat} (outcome side : Bool) :
    (guess half c != outcome).toNat + debt half (train half c outcome) side ≤
      debt half c side + 2 * (outcome != side).toNat := by
  rcases Nat.lt_or_ge c half with low | high
  · have no : guess half c = false := decide_eq_false (Nat.not_le.2 low)
    rw [no]
    cases outcome <;> cases side <;> simp only [train, debt] <;> grind
  · have yes : guess half c = true := decide_eq_true high
    rw [yes]
    cases outcome <;> cases side <;> simp only [train, debt] <;> grind

/-- What the entries owe where all counters start alike, and owe nothing for one of the answers. -/
theorem sum_debt_const {start : Nat} (easy : Bool) (side : ι → Bool) (free : debt half start easy = 0)
    (one : debt half start (!easy) = 1) (entries : Finset ι) :
    ∑ i ∈ entries, debt half start (side i) = (entries.filter fun i => side i = !easy).card := by
  rw [Finset.card_filter]
  apply Finset.sum_congr rfl
  intro i _
  split
  · rename_i hard
    rw [hard, one]
  · rename_i soft
    rw [Bool.eq_not_of_ne soft, Bool.not_not, free]

/-! ## A table -/

section Table
variable [DecidableEq ι]

/-- The entry that is asked, if one is, learns the outcome. -/
def learn (half : Nat) (table : ι → Nat) : Option (ι × Bool) → ι → Nat
  | none => table
  | some (i, outcome) => Function.update table i (train half (table i) outcome)

/-- Whether the table's guess is not the outcome. -/
def mistake (half : Nat) (table : ι → Nat) : Option (ι × Bool) → Bool
  | none => false
  | some (i, outcome) => guess half (table i) != outcome

/-- Whether the fixed answer of the entry is not the outcome. -/
def excepted (side : ι → Bool) : Option (ι × Bool) → Bool
  | none => false
  | some (i, outcome) => outcome != side i

theorem sum_debt_learn (pos : 0 < half) (side : ι → Bool) (table : ι → Nat) {entries : Finset ι} {i : ι}
    (mem : i ∈ entries) (outcome : Bool) :
    (guess half (table i) != outcome).toNat +
        ∑ k ∈ entries, debt half (learn half table (some (i, outcome)) k) (side k) ≤
      ∑ k ∈ entries, debt half (table k) (side k) + 2 * (outcome != side i).toNat := by
  have others : ∑ k ∈ entries.erase i, debt half (learn half table (some (i, outcome)) k) (side k) =
      ∑ k ∈ entries.erase i, debt half (table k) (side k) := by
    apply Finset.sum_congr rfl
    intro k away
    rw [learn, Function.update_of_ne (Finset.ne_of_mem_erase away)]
  have here : learn half table (some (i, outcome)) i = train half (table i) outcome := Function.update_self ..
  rw [← Finset.add_sum_erase _ _ mem, ← Finset.add_sum_erase _ _ mem, others, here]
  have paid : _ ≤ debt half (table i) (side i) + _ := mistake_paid pos outcome (side i)
  omega

end Table

/-! ## A machine that asks a table -/

section Machine
variable (step : σ → ο → σ)

/-- The sum of `f` along a run. -/
def tally (f : σ → ο → Nat) : σ → List ο → Nat
  | _, [] => 0
  | s, op :: ops => f s op + tally f (step s op) ops

variable {step} {f g h : σ → ο → Nat}

theorem tally_add (sum : ∀ s op, f s op + g s op = h s op) (s : σ) (ops : List ο) :
    tally step f s ops + tally step g s ops = tally step h s ops := by
  induction ops generalizing s with
  | nil => rfl
  | cons op ops ih =>
    rw [tally, tally, tally, ← ih, ← sum]
    omega

theorem tally_const (k : Nat) (s : σ) (ops : List ο) : tally step (fun _ _ => k) s ops = ops.length * k := by
  induction ops generalizing s with
  | nil => rw [tally, List.length_nil, Nat.zero_mul]
  | cons op ops ih => rw [tally, ih, List.length_cons, Nat.succ_mul, Nat.add_comm]

/-- Two machines that stay related raise the same sums. -/
theorem tally_sim {τ : Type*} {step' : τ → ο → τ} {g : τ → ο → Nat} (Related : σ → τ → Prop)
    (keep : ∀ s t op, Related s t → Related (step s op) (step' t op))
    (same : ∀ s t op, Related s t → f s op = g t op) {s : σ} {t : τ} (init : Related s t) (ops : List ο) :
    tally step f s ops = tally step' g t ops := by
  induction ops generalizing s t with
  | nil => rfl
  | cons op ops ih => rw [tally, tally, same s t op init, ih (keep s t op init)]

/-- Two sums that agree wherever an invariant of the run holds. -/
theorem tally_congr (Inv : σ → Prop) (keep : ∀ s op, Inv s → Inv (step s op))
    (same : ∀ s op, Inv s → f s op = g s op) {s : σ} (init : Inv s) (ops : List ο) :
    tally step f s ops = tally step g s ops :=
  tally_sim (fun s t => s = t ∧ Inv s)
    (fun s _ op related => ⟨congrArg (step · op) related.1, keep s op related.2⟩)
    (fun s _ op related => related.1 ▸ same s op related.2) ⟨rfl, init⟩ ops

/-- A counter that every step raises by `f`. -/
theorem counter_run {count : σ → Nat} (counts : ∀ s op, count (step s op) = count s + f s op) (s : σ)
    (ops : List ο) : count (run step s ops) = count s + tally step f s ops := by
  induction ops generalizing s with
  | nil => rfl
  | cons op ops ih => rw [run_cons, ih, counts, tally, Nat.add_assoc]

/-- A counter that every step raises by one at least. -/
theorem length_le_counter {count : σ → Nat} (counts : ∀ s op, count s + 1 ≤ count (step s op)) (s : σ)
    (ops : List ο) : count s + ops.length ≤ count (run step s ops) := by
  induction ops generalizing s with
  | nil => exact Nat.le_refl _
  | cons op ops ih =>
    have here := counts s op
    have rest := ih (step s op)
    rw [run_cons, List.length_cons]
    omega

variable (step) (asks : σ → ο → Option (ι × Bool))

/-- The entries asked along a run. -/
def asked [DecidableEq ι] : σ → List ο → Finset ι
  | _, [] => ∅
  | s, op :: ops => ((asks s op).map Prod.fst).toFinset ∪ asked (step s op) ops

variable {step asks} [DecidableEq ι] {table : σ → ι → Nat}

theorem tally_mistakes_add (pos : 0 < half) (side : ι → Bool)
    (learns : ∀ s op, table (step s op) = learn half (table s) (asks s op)) {entries : Finset ι} {s : σ}
    {ops : List ο} (within : asked step asks s ops ⊆ entries) :
    tally step (fun s op => (mistake half (table s) (asks s op)).toNat) s ops ≤
      2 * tally step (fun s op => (excepted side (asks s op)).toNat) s ops +
        ∑ i ∈ entries, debt half (table s i) (side i) := by
  induction ops generalizing s with
  | nil => exact Nat.zero_le _
  | cons op ops ih =>
    rw [asked, Finset.union_subset_iff] at within
    have later := ih within.2
    rw [learns] at later
    rw [tally, tally]
    rcases ask : asks s op with _ | ⟨i, outcome⟩
    · rw [ask] at later
      simp only [mistake, excepted, Bool.toNat_false] at later ⊢
      rw [learn] at later
      omega
    · rw [ask] at later within
      have mem : i ∈ entries := within.1 (by simp)
      have paid := sum_debt_learn pos side (table s) mem outcome
      simp only [mistake, excepted] at later ⊢
      omega

/-- The mistakes of a table along a run, against any fixed answer for each entry. -/
theorem tally_mistakes_le (pos : 0 < half) (side : ι → Bool)
    (learns : ∀ s op, table (step s op) = learn half (table s) (asks s op)) (s : σ) (ops : List ο) :
    tally step (fun s op => (mistake half (table s) (asks s op)).toNat) s ops ≤
      2 * tally step (fun s op => (excepted side (asks s op)).toNat) s ops +
        ∑ i ∈ asked step asks s ops, debt half (table s i) (side i) :=
  tally_mistakes_add pos side learns (Finset.Subset.refl _)

end Machine

end MiniHardware.Lib.Counters

namespace MiniHardware.Lib.Perceptron
open Matrix

variable {ι R : Type*} [Fintype ι] [CommRing R]

theorem dotProduct_add_self (w x : ι → R) : (w + x) ⬝ᵥ (w + x) = w ⬝ᵥ w + (2 * (w ⬝ᵥ x) + x ⬝ᵥ x) := by
  rw [add_dotProduct, dotProduct_add, dotProduct_add, dotProduct_comm x w]
  ring

variable [LinearOrder R] {u w x : ι → R} {γ B : R} {k : Nat}

/-- What `k` moves leave. -/
structure Bounded (u : ι → R) (γ B : R) (k : Nat) (w : ι → R) : Prop where
  gains : k * γ ≤ u ⬝ᵥ w
  spends : w ⬝ᵥ w ≤ k * B

theorem Bounded.zero : Bounded u γ B 0 0 := by
  constructor
  · rw [Nat.cast_zero, zero_mul, dotProduct_zero]
  · rw [Nat.cast_zero, zero_mul, dotProduct_zero]

variable [IsStrictOrderedRing R]

theorem Bounded.add (h : Bounded u γ B k w) (margin : γ ≤ u ⬝ᵥ x) (short : 2 * (w ⬝ᵥ x) + x ⬝ᵥ x ≤ B) :
    Bounded u γ B (k + 1) (w + x) := by
  constructor
  · rw [dotProduct_add, Nat.cast_succ, add_mul, one_mul]
    exact add_le_add h.gains margin
  · rw [dotProduct_add_self, Nat.cast_succ, add_mul, one_mul]
    exact add_le_add h.spends short

theorem dotProduct_sq_le (u w : ι → R) : (u ⬝ᵥ w) ^ 2 ≤ (u ⬝ᵥ u) * (w ⬝ᵥ w) := by
  have square (v : ι → R) : v ⬝ᵥ v = ∑ i, v i ^ 2 := Finset.sum_congr rfl fun i _ => (pow_two (v i)).symm
  rw [square, square]
  exact Finset.sum_mul_sq_le_sq_mul_sq Finset.univ u w

theorem dotProduct_self_nonneg (u : ι → R) : 0 ≤ u ⬝ᵥ u := Finset.sum_nonneg fun i _ => mul_self_nonneg (u i)

/-- The moves are bounded by what they gain and spend. -/
theorem Bounded.count_le (h : Bounded u γ B k w) (pos : 0 ≤ γ) (nonneg : 0 ≤ B) : k * γ ^ 2 ≤ B * (u ⬝ᵥ u) := by
  rcases Nat.eq_zero_or_pos k with rfl | some_move
  · rw [Nat.cast_zero, zero_mul]
    exact mul_nonneg nonneg (dotProduct_self_nonneg u)
  · have k_pos : (0 : R) < k := Nat.cast_pos.2 some_move
    have long : (k * γ) ^ 2 ≤ (u ⬝ᵥ w) ^ 2 := pow_le_pow_left₀ (mul_nonneg k_pos.le pos) h.gains 2
    have squares : k * (k * γ ^ 2) ≤ k * (B * (u ⬝ᵥ u)) := by
      calc k * (k * γ ^ 2) = (k * γ) ^ 2 := by ring
        _ ≤ (u ⬝ᵥ w) ^ 2 := long
        _ ≤ (u ⬝ᵥ u) * (w ⬝ᵥ w) := dotProduct_sq_le u w
        _ ≤ (u ⬝ᵥ u) * (k * B) := mul_le_mul_of_nonneg_left h.spends (dotProduct_self_nonneg u)
        _ = k * (B * (u ⬝ᵥ u)) := by ring
    exact le_of_mul_le_mul_left squares k_pos

end MiniHardware.Lib.Perceptron
