import Mathlib.Data.Int.CardIntervalMod
import MiniHardware.Lib.Ring

/-!
# Taking turns

A search that starts behind the index found last, in cyclic order. Whoever it
passes over is nearer to the next start (`between_turn`), so nobody waits for
more turns than there are indices; `exists_served` is the rule for runs in which
every tick serves the one who waits, or brings its turn nearer.
-/

namespace MiniHardware.Lib

section Search

variable {n : Nat} {start w m : Fin n} {p : Fin n → Bool}

/-- The first index that meets `p`, from `start` on and around. -/
def firstFrom (start : Fin n) (p : Fin n → Bool) : Option (Fin n) :=
  ((List.range n).map (Ring.behind start)).find? p

theorem mem_around (start m : Fin n) : m ∈ (List.range n).map (Ring.behind start) :=
  List.mem_map.2 ⟨Ring.between start m, List.mem_range.2 (Ring.between_lt start m), Ring.behind_between start m⟩

theorem firstFrom_eq_none : firstFrom start p = none ↔ ∀ m, p m = false := by
  rw [firstFrom, List.find?_eq_none]
  constructor
  · intro all m
    simpa using all m (mem_around start m)
  · intro none m _
    simp [none m]

theorem firstFrom_holds (found : firstFrom start p = some w) : p w = true := List.find?_some found

/-- No other index comes before it. -/
theorem firstFrom_first (found : firstFrom start p = some w) (holds : p m = true) :
    Ring.between start w ≤ Ring.between start m := by
  obtain ⟨-, i, lt, rfl, before⟩ := List.find?_eq_some_iff_getElem.1 found
  simp only [List.length_map, List.length_range] at lt
  simp only [List.getElem_map, List.getElem_range] at before ⊢
  rw [Ring.between_behind start lt]
  by_contra earlier
  have skipped := before (Ring.between start m) (Nat.not_le.1 earlier)
  rw [Ring.behind_between, holds] at skipped
  cases skipped

/-- The turn of one who is passed over comes nearer. -/
theorem between_turn (found : firstFrom start p = some w) (holds : p m = true) (ne : m ≠ w) :
    Ring.between (Ring.behind w 1) m < Ring.between start m := by
  have le := firstFrom_first found holds
  have other : Ring.between start w ≠ Ring.between start m := by
    intro same
    apply ne
    rw [← Ring.behind_between start m, ← same, Ring.behind_between]
  have next : Ring.behind w 1 = Ring.behind start (Ring.between start w + 1) := by
    rw [← Ring.behind_behind, Ring.behind_between]
  have total : Ring.between start w + 1 + (Ring.between start m - Ring.between start w - 1) =
      Ring.between start m := by omega
  have place : m = Ring.behind (Ring.behind w 1) (Ring.between start m - Ring.between start w - 1) := by
    rw [next, Ring.behind_behind, total, Ring.behind_between]
  have far := Ring.between_lt start m
  conv_lhs => rw [place]
  rw [Ring.between_behind _ (by omega)]
  omega

end Search

section Served

variable {σ ο : Type*} {step : σ → ο → σ} (tick : ο → Bool) (served : σ → ο → Prop) (waits : σ → Prop)
  (allowed : ο → Prop)

/-- Where every tick serves the one who waits or lowers `d`, it is served before `d` ticks have gone by. -/
theorem exists_served (d : σ → Nat)
    (turn : ∀ s op, waits s → allowed op → tick op = true →
      served s op ∨ waits (step s op) ∧ d (step s op) < d s)
    (other : ∀ s op, waits s → allowed op → tick op = false → waits (step s op) ∧ d (step s op) ≤ d s)
    {s : σ} (start : waits s) {ops : List ο} (ok : ∀ op ∈ ops, allowed op) (ticks : d s < ops.countP tick) :
    ∃ before op rest, ops = before ++ op :: rest ∧ tick op = true ∧ before.countP tick ≤ d s ∧
      served (run step s before) op := by
  induction ops generalizing s with
  | nil => exact absurd ticks (Nat.not_lt_zero _)
  | cons op ops ih =>
    have here := ok op List.mem_cons_self
    have later := fun op' mem => ok op' (List.mem_cons_of_mem op mem)
    cases isTick : tick op with
    | true =>
      rcases turn s op start here isTick with now | ⟨still, nearer⟩
      · exact ⟨[], op, ops, rfl, isTick, Nat.zero_le _, now⟩
      · rw [List.countP_cons_of_pos isTick] at ticks
        obtain ⟨before, op', rest, eq, isTick', count, now⟩ := ih still later (by omega)
        refine ⟨op :: before, op', rest, by rw [eq, List.cons_append], isTick', ?_, now⟩
        rw [List.countP_cons_of_pos isTick]
        omega
    | false =>
      have notTick : ¬ tick op = true := by simp [isTick]
      obtain ⟨still, near⟩ := other s op start here isTick
      rw [List.countP_cons_of_neg notTick] at ticks
      obtain ⟨before, op', rest, eq, isTick', count, now⟩ := ih still later (by omega)
      refine ⟨op :: before, op', rest, by rw [eq, List.cons_append], isTick', ?_, now⟩
      rw [List.countP_cons_of_neg notTick]
      omega

end Served

section Turns

/-- How often index `i` of `n` has its turn in `t` turns, of which `start` has the first. -/
def turns (n start t i : Nat) : Nat := (List.range t).countP fun k => decide ((start + k) % n = i)

end Turns

end MiniHardware.Lib
