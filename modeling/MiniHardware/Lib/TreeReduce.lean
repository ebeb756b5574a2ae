import Mathlib.Data.List.Nodup
import Mathlib.Data.Nat.Bitwise

/-!
# Tree reductions

A reduction in strides: in round `k` place `i`, a multiple of `2^(k+1)`, merges with place `i + 2^k`,
where that is below the limit and the two places join. `treeLanes` are the places whose values get to a
place so; place `j` gets to place 0 if it joins at each of its bits (`mem_treeLanes_zero`).
-/

namespace MiniHardware.Lib

variable {α : Type*}

section Tree
variable (limit : Nat) (joins : Nat → Nat → Bool) (merge : α → α → α) (w : Nat → α)

/-- What place `i` holds before round `k`. -/
def treeValue : Nat → Nat → α
  | 0, i => w i
  | k + 1, i =>
    if i + 2 ^ k < limit ∧ joins i (i + 2 ^ k) = true then merge (treeValue k i) (treeValue k (i + 2 ^ k))
    else treeValue k i

/-- The places that `treeValue k i` is merged from, from left to right. -/
def treeLanes : Nat → Nat → List Nat
  | 0, i => [i]
  | k + 1, i =>
    if i + 2 ^ k < limit ∧ joins i (i + 2 ^ k) = true then treeLanes k i ++ treeLanes k (i + 2 ^ k)
    else treeLanes k i

/-- At each set bit `b` of `j`, the place that `j` has got to joins the one `2^b` to its left. -/
def Arrives (j : Nat) : Prop := ∀ b < j, j.testBit b = true → joins (j / 2 ^ b * 2 ^ b - 2 ^ b) (j / 2 ^ b * 2 ^ b) = true

instance arrivesDecidable (j : Nat) : Decidable (Arrives joins j) :=
  inferInstanceAs (Decidable (∀ b < j, _ → _))

end Tree

variable {limit : Nat} {joins : Nat → Nat → Bool} {merge : α → α → α} {w : Nat → α}

/-! ## Folds and properties of the value -/

/-- With an associative operation and its identity, the value is a fold over the places. -/
theorem treeValue_foldr (merge : α → α → α) (e : α) (assoc : ∀ a b c, merge (merge a b) c = merge a (merge b c))
    (left : ∀ a, merge e a = a) (right : ∀ a, merge a e = a) (k i : Nat) :
    treeValue limit joins merge w k i = (treeLanes limit joins k i).foldr (fun j acc => merge (w j) acc) e := by
  have append (l : List Nat) (x : α) :
      l.foldr (fun j acc => merge (w j) acc) x = merge (l.foldr (fun j acc => merge (w j) acc) e) x := by
    induction l with
    | nil => exact (left x).symm
    | cons j l ih => rw [List.foldr_cons, List.foldr_cons, ih, assoc]
  induction k generalizing i with
  | zero => exact (right (w i)).symm
  | succ k ih =>
    unfold treeValue treeLanes
    split
    · rw [List.foldr_append, append, ih, ih]
    · exact ih i

/-- A property that a merge has only from both its sides comes from all the places. -/
theorem treeValue_of {P : α → Prop} (sides : ∀ a b, P (merge a b) → P a ∧ P b) {k i : Nat}
    (h : P (treeValue limit joins merge w k i)) : ∀ j ∈ treeLanes limit joins k i, P (w j) := by
  induction k generalizing i with
  | zero =>
    intro j mem
    rw [List.mem_singleton.1 mem]
    exact h
  | succ k ih =>
    unfold treeValue at h
    unfold treeLanes
    split at h
    · rename_i joined
      rw [if_pos joined]
      intro j mem
      rcases List.mem_append.1 mem with mem | mem
      · exact ih (sides _ _ h).1 j mem
      · exact ih (sides _ _ h).2 j mem
    · rename_i apart
      rw [if_neg apart]
      exact ih h

/-- A property that passes to a merge from its sides passes to the value from the places. -/
theorem treeValue_mk {P : α → Prop} (both : ∀ a b, P a → P b → P (merge a b)) {k i : Nat}
    (h : ∀ j ∈ treeLanes limit joins k i, P (w j)) : P (treeValue limit joins merge w k i) := by
  induction k generalizing i with
  | zero => exact h i (List.mem_singleton_self i)
  | succ k ih =>
    unfold treeLanes at h
    unfold treeValue
    split at h
    · rename_i joined
      rw [if_pos joined]
      exact both _ _ (ih fun j mem => h j (List.mem_append_left _ mem)) (ih fun j mem => h j (List.mem_append_right _ mem))
    · rename_i apart
      rw [if_neg apart]
      exact ih h

/-- The last place merges with nothing. -/
theorem treeValue_last {i : Nat} (last : limit ≤ i + 1) (k : Nat) : treeValue limit joins merge w k i = w i := by
  induction k with
  | zero => rfl
  | succ k ih =>
    have pos : 0 < 2 ^ k := Nat.two_pow_pos k
    unfold treeValue
    rw [if_neg (by omega), ih]

/-! ## The places -/

theorem treeLanes_range {k i j : Nat} (mem : j ∈ treeLanes limit joins k i) : i ≤ j ∧ j < i + 2 ^ k := by
  induction k generalizing i with
  | zero =>
    rw [List.mem_singleton.1 mem]
    exact ⟨Nat.le_refl i, Nat.lt_succ_self i⟩
  | succ k ih =>
    have pow : 2 ^ (k + 1) = 2 ^ k + 2 ^ k := by rw [Nat.pow_succ, Nat.mul_two]
    unfold treeLanes at mem
    split at mem
    · rcases List.mem_append.1 mem with mem | mem
      · have := ih mem
        omega
      · have := ih mem
        omega
    · have := ih mem
      omega

theorem treeLanes_nodup (k i : Nat) : (treeLanes limit joins k i).Nodup := by
  induction k generalizing i with
  | zero => exact List.nodup_singleton i
  | succ k ih =>
    unfold treeLanes
    split
    · refine List.Nodup.append (ih i) (ih (i + 2 ^ k)) fun j left right => ?_
      have := (treeLanes_range left).2
      have := (treeLanes_range right).1
      omega
    · exact ih i

/-- In the left half of a node the bit of the round is not set, and in the right half it is. -/
theorem node_bit {k i j : Nat} (aligned : 2 ^ (k + 1) ∣ i) (le : i ≤ j) (lt : j < i + 2 ^ (k + 1)) :
    (j.testBit k = true ↔ i + 2 ^ k ≤ j) ∧ (i + 2 ^ k ≤ j → j / 2 ^ k * 2 ^ k = i + 2 ^ k) := by
  have pos : 0 < 2 ^ k := Nat.two_pow_pos k
  have pow : 2 ^ (k + 1) = 2 ^ k + 2 ^ k := by rw [Nat.pow_succ, Nat.mul_two]
  obtain ⟨m, rfl⟩ := aligned
  have split : 2 ^ (k + 1) * m = 2 ^ k * (2 * m) := by rw [Nat.pow_succ, Nat.mul_assoc]
  obtain ⟨r, rfl⟩ := Nat.exists_eq_add_of_le le
  rw [split] at lt ⊢
  have quotient : (2 ^ k * (2 * m) + r) / 2 ^ k = 2 * m + r / 2 ^ k := Nat.mul_add_div pos _ _
  rw [Nat.testBit_eq_decide_div_mod_eq, decide_eq_true_iff, quotient]
  rcases Nat.lt_or_ge r (2 ^ k) with left | right
  · rw [Nat.div_eq_of_lt left]
    constructor
    · omega
    · intro right
      omega
  · have one : r / 2 ^ k = 1 := by
      rw [Nat.div_eq_iff pos]
      omega
    rw [one]
    refine ⟨by omega, fun _ => ?_⟩
    rw [Nat.add_mul, Nat.one_mul, Nat.mul_comm]

theorem mem_treeLanes {k i j : Nat} (aligned : 2 ^ k ∣ i) (inside : i < limit) : j ∈ treeLanes limit joins k i ↔
    i ≤ j ∧ j < i + 2 ^ k ∧ j < limit ∧
      ∀ b < k, j.testBit b = true → joins (j / 2 ^ b * 2 ^ b - 2 ^ b) (j / 2 ^ b * 2 ^ b) = true := by
  induction k generalizing i with
  | zero =>
    unfold treeLanes
    rw [List.mem_singleton]
    constructor
    · rintro rfl
      exact ⟨Nat.le_refl j, Nat.lt_succ_self j, inside, fun b lt => absurd lt (Nat.not_lt_zero b)⟩
    · rintro ⟨le, lt, -⟩
      omega
  | succ k ih =>
    have pos : 0 < 2 ^ k := Nat.two_pow_pos k
    have pow : 2 ^ (k + 1) = 2 ^ k + 2 ^ k := by rw [Nat.pow_succ, Nat.mul_two]
    have left : 2 ^ k ∣ i := (Nat.pow_dvd_pow 2 (Nat.le_succ k)).trans aligned
    have right : 2 ^ k ∣ i + 2 ^ k := Nat.dvd_add left (Nat.dvd_refl _)
    have bits : (∀ b < k + 1, j.testBit b = true → joins (j / 2 ^ b * 2 ^ b - 2 ^ b) (j / 2 ^ b * 2 ^ b) = true) ↔
        (∀ b < k, j.testBit b = true → joins (j / 2 ^ b * 2 ^ b - 2 ^ b) (j / 2 ^ b * 2 ^ b) = true) ∧
          (j.testBit k = true → joins (j / 2 ^ k * 2 ^ k - 2 ^ k) (j / 2 ^ k * 2 ^ k) = true) := by
      constructor
      · exact fun all => ⟨fun b lt => all b (Nat.lt_succ_of_lt lt), all k (Nat.lt_succ_self k)⟩
      · rintro ⟨below, top⟩ b lt
        rcases Nat.lt_succ_iff_lt_or_eq.1 lt with lt | rfl
        · exact below b lt
        · exact top
    unfold treeLanes
    rw [bits]
    split
    · rename_i joined
      rw [List.mem_append, ih left inside, ih right joined.1]
      constructor
      · rintro (⟨le, lt, below, arrives⟩ | ⟨le, lt, below, arrives⟩)
        · obtain ⟨bit, -⟩ := node_bit aligned le (by omega)
          refine ⟨le, by omega, below, arrives, fun set => ?_⟩
          have := bit.1 set
          omega
        · obtain ⟨-, place⟩ := node_bit aligned (by omega : i ≤ j) (by omega)
          refine ⟨by omega, by omega, below, arrives, fun _ => ?_⟩
          rw [place le, Nat.add_sub_cancel]
          exact joined.2
      · rintro ⟨le, lt, below, arrives, -⟩
        rcases Nat.lt_or_ge j (i + 2 ^ k) with inLeft | inRight
        · exact .inl ⟨le, inLeft, below, arrives⟩
        · exact .inr ⟨inRight, by omega, below, arrives⟩
    · rename_i apart
      rw [ih left inside]
      constructor
      · rintro ⟨le, lt, below, arrives⟩
        obtain ⟨bit, -⟩ := node_bit aligned le (by omega)
        refine ⟨le, by omega, below, arrives, fun set => ?_⟩
        have := bit.1 set
        omega
      · rintro ⟨le, lt, below, arrives, top⟩
        obtain ⟨bit, place⟩ := node_bit aligned le lt
        refine ⟨le, ?_, below, arrives⟩
        by_contra beyond
        have far : i + 2 ^ k ≤ j := by omega
        have joined := top (bit.2 far)
        rw [place far, Nat.add_sub_cancel] at joined
        exact apart ⟨by omega, joined⟩

/-- Once the strides cover all places, place 0 has those that arrive. -/
theorem mem_treeLanes_zero {k j : Nat} (some : 0 < limit) (cover : limit ≤ 2 ^ k) :
    j ∈ treeLanes limit joins k 0 ↔ j < limit ∧ Arrives joins j := by
  rw [mem_treeLanes (Nat.dvd_zero _) some]
  constructor
  · rintro ⟨-, -, below, arrives⟩
    refine ⟨below, fun b _ set => arrives b ?_ set⟩
    by_contra high
    have far : 2 ^ k ≤ 2 ^ b := Nat.pow_le_pow_right Nat.two_pos (Nat.le_of_not_lt high)
    rw [Nat.testBit_lt_two_pow (by omega)] at set
    cases set
  · rintro ⟨below, arrives⟩
    refine ⟨Nat.zero_le j, by omega, below, fun b _ set => arrives b ?_ set⟩
    exact Nat.lt_of_lt_of_le Nat.lt_two_pow_self (Nat.ge_two_pow_of_testBit set)

end MiniHardware.Lib
