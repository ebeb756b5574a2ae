import Mathlib.Data.List.Basic
import Mathlib.Data.List.Perm.Basic
import Mathlib.Order.Lattice

/-!
# First ready, first come

A queue in order of arrival serves its first entry that is ready, or its head
when none is. If being ready depends on the class of an entry only, entries of
one class leave in the order in which they came. A queue may also serve the first
of the entries with the least key (`Served`).
-/

namespace MiniHardware.Lib

variable {α : Type*} {ready : α → Bool} {l : List α}

/-- The index served. -/
def firstReady (ready : α → Bool) (l : List α) : Nat := (l.findIdx? ready).getD 0

theorem firstReady_lt (some : l ≠ []) : firstReady ready l < l.length := by
  unfold firstReady
  cases h : l.findIdx? ready with
  | none => exact List.length_pos_iff.2 some
  | some i =>
    obtain ⟨lt, -⟩ := List.findIdx?_eq_some_iff_getElem.1 h
    exact lt

theorem firstReady_map {β : Type*} (ready : β → Bool) (f : α → β) (l : List α) :
    firstReady ready (l.map f) = firstReady (fun x => ready (f x)) l := by
  rw [firstReady, List.findIdx?_map]
  rfl

/-- If an entry is ready, the first of the ready ones is served. -/
theorem firstReady_of_exists (some : ∃ x ∈ l, ready x) :
    ∃ h : firstReady ready l < l.length, ready (l.get ⟨firstReady ready l, h⟩) ∧
      ∀ j (lt : j < firstReady ready l), ¬ready (l.get ⟨j, Nat.lt_trans lt h⟩) := by
  unfold firstReady
  cases h : l.findIdx? ready with
  | none =>
    obtain ⟨x, hx, isReady⟩ := some
    exact absurd isReady (by simp [List.findIdx?_eq_none_iff.1 h x hx])
  | some i =>
    obtain ⟨lt, isReady, before⟩ := List.findIdx?_eq_some_iff_getElem.1 h
    exact ⟨lt, isReady, fun j lt' => before j lt'⟩

/-- Otherwise the head. -/
theorem firstReady_of_forall (none : ∀ x ∈ l, ¬ready x) : firstReady ready l = 0 := by
  unfold firstReady
  rw [List.findIdx?_eq_none_iff.2 fun x hx => by simpa using none x hx]
  rfl

section Split

variable {a b : List α} {x : α}

/-- The same of the parts around the entry served. -/
theorem firstReady_split (len : a.length = firstReady ready (a ++ x :: b))
    (some : ∃ z ∈ a ++ x :: b, ready z) : ready x ∧ ∀ y ∈ a, ¬ready y := by
  obtain ⟨lt, isReady, before⟩ := firstReady_of_exists some
  constructor
  · simpa [← len] using isReady
  · intro y hy
    obtain ⟨j, hj, rfl⟩ := List.mem_iff_getElem.1 hy
    have earlier := before j (len ▸ hj)
    rwa [List.get_eq_getElem, List.getElem_append_left hj] at earlier

theorem firstReady_split_nil (len : a.length = firstReady ready (a ++ x :: b))
    (none : ∀ z ∈ a ++ x :: b, ¬ready z) : a = [] := by
  rw [firstReady_of_forall none] at len
  exact List.length_eq_zero_iff.1 len

/-- Nothing of the class of the entry served came earlier. -/
theorem firstReady_passes {same : α → α → Prop} (classes : ∀ x y, same x y → ready x = ready y)
    (len : a.length = firstReady ready (a ++ x :: b)) : ∀ y ∈ a, ¬same y x := by
  intro y hy eq
  by_cases some : ∃ z ∈ a ++ x :: b, ready z
  · obtain ⟨hx, before⟩ := firstReady_split len some
    exact before y hy ((classes _ _ eq).trans hx)
  · rw [firstReady_split_nil len fun z hz isReady => some ⟨z, hz, isReady⟩] at hy
    exact List.not_mem_nil hy

end Split

/-! ## Pulling one entry out of a queue -/

variable {R : α → α → Prop} {s r : List α} {x : α}

theorem pull_perm (s l r : List α) (x : α) : (s ++ [x] ++ (l ++ r)).Perm (s ++ (l ++ x :: r)) := by
  rw [List.append_assoc, List.singleton_append]
  exact List.Perm.append_left s List.perm_middle.symm

/-- What was pulled out is now before the entries it has passed. -/
theorem pull_pairwise (h : (s ++ (l ++ x :: r)).Pairwise R) (pass : ∀ y ∈ l, R x y) :
    (s ++ [x] ++ (l ++ r)).Pairwise R := by
  obtain ⟨hs, hq, cross⟩ := List.pairwise_append.1 h
  obtain ⟨hl, hxr, left⟩ := List.pairwise_append.1 hq
  obtain ⟨hx, hr⟩ := List.pairwise_cons.1 hxr
  rw [List.append_assoc, List.singleton_append]
  apply List.pairwise_append.2
  refine ⟨hs, List.pairwise_cons.2 ⟨?_, ?_⟩, ?_⟩
  · intro y hy
    rcases List.mem_append.1 hy with hy | hy
    · exact pass y hy
    · exact hx y hy
  · apply List.pairwise_append.2
    exact ⟨hl, hr, fun a ha b hb => left a ha b (List.mem_cons_of_mem x hb)⟩
  · intro a ha b hb
    apply cross a ha b
    rw [List.mem_append, List.mem_cons]
    rcases List.mem_cons.1 hb with eq | hb
    · exact Or.inr (Or.inl eq)
    · exact (List.mem_append.1 hb).imp id Or.inr

/-- The entry at an index and the two parts around it. -/
theorem exists_split_of_lt {i : Nat} (lt : i < l.length) :
    ∃ a b, l = a ++ l.get ⟨i, lt⟩ :: b ∧ l.eraseIdx i = a ++ b ∧ a.length = i := by
  refine ⟨l.take i, l.drop (i + 1), ?_, List.eraseIdx_eq_take_drop_succ l i, ?_⟩
  · rw [List.get_eq_getElem, List.getElem_cons_drop, List.take_append_drop]
  · exact List.length_take_of_le (Nat.le_of_lt lt)

/-! ## Serving by a key -/

section Key
variable {κ : Type*} [LinearOrder κ] {key : α → κ} {pick : List α → Nat}

/-- Index `i` has the first of the entries with the least key. -/
def FirstLeast (key : α → κ) (l : List α) (i : Nat) : Prop :=
  ∃ a x b, l = a ++ x :: b ∧ a.length = i ∧ (∀ y ∈ a, key x < key y) ∧ ∀ y ∈ b, key x ≤ key y

/-- A queue of which `none` serves the entry that is picked; what was served, and what is left. -/
def serve (pick : List α → Nat) (s : List α × List α) : Option α → List α × List α
  | some x => (s.1, s.2 ++ [x])
  | none => (s.1 ++ s.2[pick s.2]?.toList, s.2.eraseIdx (pick s.2))

theorem FirstLeast.split {s : List α × List α} (least : FirstLeast key s.2 (pick s.2)) :
    ∃ a x b, s.2 = a ++ x :: b ∧ serve pick s none = (s.1 ++ [x], a ++ b) ∧ (∀ y ∈ a, key x < key y) ∧
      ∀ y ∈ b, key x ≤ key y := by
  obtain ⟨a, x, b, split, len, before, behind⟩ := least
  refine ⟨a, x, b, split, ?_, before, behind⟩
  rw [serve, ← len, split, List.getElem?_append_right (Nat.le_refl _), Nat.sub_self, List.getElem?_cons_zero,
    List.eraseIdx_append_of_length_le (Nat.le_refl _), Nat.sub_self, List.eraseIdx_cons_zero]
  rfl

/-- What was put in is served or left, and in the order of arrival among the entries of one key. -/
structure Served (key : α → κ) (put : List α) (s : List α × List α) : Prop where
  perm : (s.1 ++ s.2).Perm put
  stable : ∀ k, (s.1 ++ s.2).filter (fun x => decide (key x = k)) = put.filter fun x => decide (key x = k)

theorem Served.put {put : List α} {s : List α × List α} (h : Served key put s) (pick : List α → Nat) (x : α) :
    Served key (put ++ [x]) (serve pick s (some x)) := by
  constructor
  · rw [serve, ← List.append_assoc]
    exact h.perm.append_right [x]
  · intro k
    rw [serve, ← List.append_assoc, List.filter_append, h.stable, List.filter_append]

theorem Served.take {put : List α} {s : List α × List α} (h : Served key put s) (pick : List α → Nat)
    (least : FirstLeast key s.2 (pick s.2)) : Served key put (serve pick s none) := by
  obtain ⟨a, x, b, split, served, before, -⟩ := least.split
  rw [served]
  constructor
  · apply List.Perm.trans _ h.perm
    rw [split]
    exact pull_perm s.1 a b x
  · intro k
    rw [← h.stable, split]
    -- the entries passed have greater keys, so none of them is kept when the one served is
    have passed : key x = k → a.filter (fun y => decide (key y = k)) = [] := by
      intro eq
      rw [List.filter_eq_nil_iff]
      intro y mem
      rw [decide_eq_true_eq]
      exact fun eq' => absurd (eq.trans eq'.symm) (ne_of_lt (before y mem))
    rw [List.filter_append, List.filter_append, List.filter_append, List.filter_append, List.filter_append]
    by_cases eq : key x = k
    · have kept (l : List α) : (x :: l).filter (fun y => decide (key y = k)) = x :: l.filter fun y => decide (key y = k) :=
        List.filter_cons_of_pos (decide_eq_true eq)
      rw [passed eq, kept, kept, List.filter_nil, List.append_assoc]
      rfl
    · have dropped (l : List α) : (x :: l).filter (fun y => decide (key y = k)) = l.filter fun y => decide (key y = k) :=
        List.filter_cons_of_neg (by rwa [decide_eq_true_eq])
      rw [dropped, dropped, List.filter_nil, List.append_nil]

end Key

end MiniHardware.Lib
