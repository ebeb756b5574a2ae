import Mathlib.Algebra.BigOperators.Fin
import Mathlib.Algebra.BigOperators.Intervals
import Mathlib.Logic.Equiv.Fin.Basic

/-!
# Loops over tiles

A loop whose rounds each own some of the observed cells: a cell changes in the
round that owns it and in no other (`foldl_owned`, `foldl_kept`), or collects
a summand in every round (`foldl_collect`). A sum over `n` indices is a sum
over tiles of size `t`, the last of which may be ragged (`sum_tiles`).
-/

namespace MiniHardware.Lib

variable {σ ι β : Type*} {body : σ → ι → σ}

/-- A cell no round changes. -/
theorem foldl_kept (obs : σ → β) {l : List ι} (kept : ∀ s, ∀ x ∈ l, obs (body s x) = obs s) (s : σ) :
    obs (l.foldl body s) = obs s := by
  induction l generalizing s with
  | nil => rfl
  | cons x l ih =>
    rw [List.foldl_cons, ih fun s y hy => kept s y (List.mem_cons_of_mem x hy)]
    exact kept s x List.mem_cons_self

/-- A cell that only the round `owner` changes, by `f`. -/
theorem foldl_owned (obs : σ → β) (f : β → β) {owner : ι} {l : List ι} (mem : owner ∈ l)
    (nodup : l.Nodup) (own : ∀ s, obs (body s owner) = f (obs s))
    (other : ∀ s x, x ≠ owner → obs (body s x) = obs s) (s : σ) :
    obs (l.foldl body s) = f (obs s) := by
  induction l generalizing s with
  | nil => cases mem
  | cons x l ih =>
    rw [List.nodup_cons] at nodup
    rw [List.foldl_cons]
    rcases eq_or_ne x owner with rfl | ne
    · rw [← own s]
      apply foldl_kept
      intro s y hy
      apply other
      rintro rfl
      exact nodup.1 hy
    · rw [ih ((List.mem_cons.1 mem).resolve_left ne.symm) nodup.2, other s x ne]

/-- A cell to which every round adds its summand. -/
theorem foldl_collect [AddMonoid β] (obs : σ → β) {g : ι → β}
    (collect : ∀ s x, obs (body s x) = obs s + g x) (l : List ι) (s : σ) :
    obs (l.foldl body s) = obs s + (l.map g).sum := by
  induction l generalizing s with
  | nil => simp
  | cons x l ih => rw [List.foldl_cons, ih, collect, List.map_cons, List.sum_cons, add_assoc]

/-- The same for a counted loop. -/
theorem finRange_collect [AddCommMonoid β] {n : Nat} {body : σ → Fin n → σ} (obs : σ → β)
    {g : Fin n → β} (collect : ∀ s x, obs (body s x) = obs s + g x) (s : σ) :
    obs ((List.finRange n).foldl body s) = obs s + ∑ i, g i := by
  rw [foldl_collect obs collect, ← List.ofFn_eq_map, Fin.sum_ofFn]

/-- The same where the rounds are known. -/
theorem foldl_collect_mem [AddMonoid β] (obs : σ → β) {g : ι → β} {l : List ι}
    (collect : ∀ s, ∀ x ∈ l, obs (body s x) = obs s + g x) (s : σ) :
    obs (l.foldl body s) = obs s + (l.map g).sum := by
  induction l generalizing s with
  | nil => simp
  | cons x l ih =>
    rw [List.foldl_cons, ih fun s y mem => collect s y (List.mem_cons_of_mem x mem), collect s x List.mem_cons_self,
      List.map_cons, List.sum_cons, add_assoc]

/-- The same for a loop over numbers. -/
theorem range_collect [AddCommMonoid β] {n : Nat} {body : σ → Nat → σ} (obs : σ → β) {g : Nat → β}
    (collect : ∀ s, ∀ k < n, obs (body s k) = obs s + g k) (s : σ) :
    obs ((List.range n).foldl body s) = obs s + ∑ k ∈ Finset.range n, g k := by
  induction n with
  | zero => simp
  | succ n ih =>
    rw [List.range_succ, List.foldl_append, Finset.sum_range_succ, ← add_assoc,
      ← ih fun s k lt => collect s k (Nat.lt_succ_of_lt lt)]
    exact collect _ n (Nat.lt_succ_self n)

/-- The number of tiles of size `t` that cover `n` indices. -/
def tiles (n t : Nat) : Nat := (n + t - 1) / t

theorem div_lt_tiles {n t i : Nat} (pos : 0 < t) (lt : i < n) : i / t < tiles n t := by
  rw [tiles, Nat.div_lt_iff_lt_mul pos]
  have := Nat.div_add_mod (n + t - 1) t
  have := Nat.mod_lt (n + t - 1) pos
  rw [Nat.mul_comm]
  omega

theorem le_tiles_mul {n t : Nat} (pos : 0 < t) : n ≤ tiles n t * t := by
  have := Nat.div_add_mod (n + t - 1) t
  have := Nat.mod_lt (n + t - 1) pos
  rw [tiles, Nat.mul_comm]
  omega

theorem tile_start_lt {n t a : Nat} (lt : a < tiles n t) : a * t < n := by
  rcases Nat.eq_zero_or_pos t with rfl | pos
  · rw [tiles, Nat.div_zero] at lt
    exact absurd lt (Nat.not_lt_zero a)
  · have := (Nat.le_div_iff_mul_le pos).1 (Nat.succ_le_of_lt lt)
    rw [Nat.succ_mul] at this
    omega

/-- A remainder makes one more tile. -/
theorem tiles_eq {n t : Nat} (pos : 0 < t) : tiles n t = n / t + if 0 < n % t then 1 else 0 := by
  have parts := Nat.div_add_mod n t
  have rest := Nat.mod_lt n pos
  rw [tiles]
  split
  · have sum : n + t - 1 = (n % t - 1) + t * (n / t + 1) := by
      rw [Nat.mul_succ]
      omega
    rw [sum, Nat.add_mul_div_left _ _ pos, Nat.div_eq_of_lt (by omega), Nat.zero_add]
  · have sum : n + t - 1 = (t - 1) + t * (n / t) := by omega
    rw [sum, Nat.add_mul_div_left _ _ pos, Nat.div_eq_of_lt (by omega), Nat.zero_add, Nat.add_zero]

/-- A sum by tiles; what lies behind `n` in the last tile is left out. -/
theorem sum_tiles [AddCommMonoid β] {n t : Nat} (pos : 0 < t) (f : Nat → β) :
    ∑ a : Fin (tiles n t), ∑ b : Fin t, (if a.val * t + b.val < n then f (a.val * t + b.val) else 0) =
      ∑ k : Fin n, f k := by
  have long : ∀ m, ∑ a : Fin m, ∑ b : Fin t,
      (if a.val * t + b.val < n then f (a.val * t + b.val) else 0) =
        ∑ k ∈ Finset.range (m * t), if k < n then f k else 0 := by
    intro m
    rw [← Fin.sum_univ_eq_sum_range, ← Fintype.sum_prod_type', ← Equiv.sum_comp finProdFinEquiv]
    refine Finset.sum_congr rfl fun p _ => ?_
    rw [finProdFinEquiv_apply_val, Nat.add_comm, Nat.mul_comm]
  rw [long, Fin.sum_univ_eq_sum_range f n, ← Finset.sum_filter]
  congr 1
  ext k
  have := le_tiles_mul (n := n) pos
  simp only [Finset.mem_filter, Finset.mem_range]
  omega

/-- The rounds of a loop over tile `a` that leaves the loop at the end of the `n` indices. -/
def ragged (n t a : Nat) : List Nat := (List.range t).takeWhile fun b => a * t + b < n

theorem ragged_eq (n t a : Nat) : ragged n t a = List.range (min t (n - a * t)) := by
  have all : ∀ k, ((List.range k).takeWhile fun b => a * t + b < n) = List.range (min k (n - a * t)) := by
    intro k
    induction k with
    | zero => simp
    | succ k ih =>
      rw [List.range_succ, List.takeWhile_append, ih, List.length_range, List.length_range]
      split
      · rename_i inside
        by_cases lt : a * t + k < n
        · have goes : ([k].takeWhile fun b => decide (a * t + b < n)) = [k] := by simp [lt]
          rw [goes, ← List.range_succ, Nat.min_eq_left (by omega)]
        · have stops : ([k].takeWhile fun b => decide (a * t + b < n)) = [] := by simp [lt]
          rw [stops, List.append_nil]
          congr 1
          omega
      · congr 1
        omega
  exact all t

theorem mem_ragged {n t a b : Nat} : b ∈ ragged n t a ↔ b < t ∧ a * t + b < n := by
  rw [ragged_eq, List.mem_range]
  omega

/-- The last tile is left out where there is nothing left of it. -/
theorem ragged_sum [AddCommMonoid β] (n t a : Nat) (f : Nat → β) :
    ((ragged n t a).map f).sum = ∑ b : Fin t, if a * t + b.val < n then f b else 0 := by
  have rounds : (Finset.range t).filter (fun b => a * t + b < n) = Finset.range (min t (n - a * t)) := by
    ext b
    simp only [Finset.mem_filter, Finset.mem_range]
    omega
  rw [ragged_eq, Fin.sum_univ_eq_sum_range (fun b => if a * t + b < n then f b else 0), ← Finset.sum_filter, rounds,
    Finset.sum_range, ← List.sum_ofFn, List.ofFn_eq_map, ← List.map_coe_finRange_eq_range, List.map_map]
  rfl

/-- An index is in one tile, at one place. -/
theorem ragged_single [AddCommMonoid β] {n t : Nat} (pos : 0 < t) {i : Nat} (lt : i < n) (a : Nat) (v : β) :
    ((ragged n t a).map fun b => if i = a * t + b then v else 0).sum = if i / t = a then v else 0 := by
  have parts := Nat.div_add_mod i t
  have rest := Nat.mod_lt i pos
  rw [ragged_sum]
  split
  · rename_i eq
    rw [eq, Nat.mul_comm] at parts
    rw [Finset.sum_eq_single ⟨i % t, rest⟩]
    · rw [if_pos (by dsimp only; omega), if_pos parts.symm]
    · intro b _ ne
      have elsewhere : i ≠ a * t + b.val := fun here => ne (Fin.ext (by show b.val = i % t; omega))
      rw [if_neg elsewhere, ite_self]
    · exact fun absent => absurd (Finset.mem_univ _) absent
  · rename_i ne
    refine Finset.sum_eq_zero fun b _ => ?_
    have elsewhere : i ≠ a * t + b.val := by
      intro here
      rw [here, Nat.mul_comm, Nat.mul_add_div pos, Nat.div_eq_of_lt b.isLt, Nat.add_zero] at ne
      exact ne rfl
    rw [if_neg elsewhere, ite_self]

theorem sum_map_ite [AddMonoid β] (p : Prop) [Decidable p] (l : List ι) (f : ι → β) :
    (l.map fun x => if p then f x else 0).sum = if p then (l.map f).sum else 0 := by
  split
  · rfl
  · exact List.sum_eq_zero fun x mem => by
      obtain ⟨_, _, rfl⟩ := List.mem_map.mp mem
      rfl

theorem sum_filter_range [AddCommMonoid β] (n : Nat) (p : Nat → Bool) (f : Nat → β) :
    (((List.range n).filter p).map f).sum = ∑ k ∈ Finset.range n, if p k then f k else 0 := by
  induction n with
  | zero => rfl
  | succ n ih =>
    rw [List.range_succ, List.filter_append, List.map_append, List.sum_append, ih, Finset.sum_range_succ]
    cases h : p n <;> simp [h]

end MiniHardware.Lib
