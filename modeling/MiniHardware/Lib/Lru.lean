import Mathlib.Data.Finset.Card
import MiniHardware.Lib.Index

/-!
# Least recently used

A history, the last use first, orders its elements by recency. An LRU store of
`n` places holds the `n` most recent ones, so that a use is a hit when fewer
than `n` other elements were used since the last time. Places with time stamps
are such a store if what is replaced has the least stamp.
-/

namespace MiniHardware.Lib

universe u

section Recency

variable {α : Type u} [DecidableEq α] {x : α}

/-- The elements of a history, the most recent one first. -/
def recency : List α → List α
  | [] => []
  | x :: past => x :: (recency past).erase x

/-- No element is listed twice. -/
theorem recency_nodup (past : List α) : (recency past).Nodup := by
  induction past with
  | nil => exact List.nodup_nil
  | cons x past ih =>
    apply List.nodup_cons.2
    exact ⟨ih.not_mem_erase, ih.erase x⟩

/-- The elements listed are those used. -/
theorem mem_recency (past : List α) : x ∈ recency past ↔ x ∈ past := by
  induction past with
  | nil => exact Iff.rfl
  | cons y past ih =>
    unfold recency
    rw [List.mem_cons, List.mem_cons]
    rcases eq_or_ne x y with eq | ne
    · exact iff_of_true (Or.inl eq) (Or.inl eq)
    · rw [List.mem_erase_of_ne ne, ih]

/-! ## Reuse distance -/

/-- Erasing another element commutes with cutting before `x`. -/
theorem takeWhile_erase {y : α} (ne : y ≠ x) (l : List α) :
    (l.erase y).takeWhile (fun z => decide (z ≠ x)) = (l.takeWhile fun z => decide (z ≠ x)).erase y := by
  induction l with
  | nil => rfl
  | cons z l ih =>
    rcases eq_or_ne z y with rfl | other
    · rw [List.erase_cons_head, List.takeWhile_cons, if_pos (by simpa using ne), List.erase_cons_head]
    · rw [List.erase_cons_tail (by simpa using other), List.takeWhile_cons, List.takeWhile_cons]
      split
      · rw [ih, List.erase_cons_tail (by simpa using other)]
      · rfl

/-- What stands before `x` are the elements used since the last use of `x`. -/
theorem toFinset_takeWhile_recency (x : α) (past : List α) :
    ((recency past).takeWhile fun z => decide (z ≠ x)).toFinset =
      (past.takeWhile fun z => decide (z ≠ x)).toFinset := by
  induction past with
  | nil => rfl
  | cons y past ih =>
    unfold recency
    rw [List.takeWhile_cons, List.takeWhile_cons]
    split
    · rename_i ne
      rw [takeWhile_erase (by simpa using ne), List.toFinset_cons, List.toFinset_cons, ← ih]
      apply Finset.ext
      intro z
      rw [Finset.mem_insert, Finset.mem_insert, List.mem_toFinset, List.mem_toFinset]
      rcases eq_or_ne z y with eq | other
      · exact iff_of_true (Or.inl eq) (Or.inl eq)
      · rw [List.mem_erase_of_ne other]
    · rfl

/-- An element is among the first `n` if fewer than `n` stand before it. -/
theorem mem_take_iff (l : List α) (n : Nat) :
    x ∈ l.take n ↔ x ∈ l ∧ (l.takeWhile fun z => decide (z ≠ x)).length < n := by
  induction l generalizing n with
  | nil => simp
  | cons y l ih =>
    cases n with
    | zero => simp
    | succ n =>
      rw [List.take_succ_cons, List.mem_cons, List.mem_cons, List.takeWhile_cons, ih]
      rcases eq_or_ne y x with rfl | ne
      · simp
      · rw [if_pos (by simpa using ne), List.length_cons, Nat.succ_lt_succ_iff]
        simp [ne.symm]

/-- `x` is among the `n` most recent elements if it was used, and fewer than `n` others since. -/
theorem mem_take_recency (past : List α) (n : Nat) :
    x ∈ (recency past).take n ↔
      x ∈ past ∧ (past.takeWhile fun z => decide (z ≠ x)).toFinset.card < n := by
  have nodup : ((recency past).takeWhile fun z => decide (z ≠ x)).Nodup :=
    (recency_nodup past).sublist (List.takeWhile_sublist _)
  rw [mem_take_iff, mem_recency, ← toFinset_takeWhile_recency, List.toFinset_card_of_nodup nodup]

/-! ## The store -/

/-- The elements held after the use of `x`, the most recent one first. -/
def lruStep (n : Nat) (q : List α) (x : α) : List α := (x :: q.erase x).take n

/-- Erasing before cutting, or after. -/
theorem take_erase (l : List α) (n : Nat) : ((l.take (n + 1)).erase x).take n = (l.erase x).take n := by
  induction l generalizing n with
  | nil => rfl
  | cons y l ih =>
    rw [List.take_succ_cons]
    rcases eq_or_ne y x with rfl | ne
    · rw [List.erase_cons_head, List.erase_cons_head, List.take_take, Nat.min_self]
    · rw [List.erase_cons_tail (by simpa using ne), List.erase_cons_tail (by simpa using ne)]
      cases n with
      | zero => rfl
      | succ n => rw [List.take_succ_cons, List.take_succ_cons, ih]

/-- The store holds the `n` elements used most recently, one use further on. -/
theorem lruStep_recency (past : List α) (n : Nat) (x : α) :
    lruStep n ((recency past).take n) x = (recency (x :: past)).take n := by
  unfold lruStep
  cases n with
  | zero => rfl
  | succ n =>
    rw [List.take_succ_cons, take_erase]
    rfl

/-! ## Misses and distances -/

/-- The list is as long as there are different elements. -/
theorem length_recency (past : List α) : (recency past).length = past.toFinset.card := by
  rw [← List.toFinset_card_of_nodup (recency_nodup past)]
  congr 1
  ext x
  rw [List.mem_toFinset, List.mem_toFinset, mem_recency]

/-- How many uses of a history miss in a store of `n` places. -/
def lruMisses (n : Nat) : List α → Nat
  | [] => 0
  | x :: past => lruMisses n past + if x ∈ (recency past).take n then 0 else 1

/-- The first use misses. -/
theorem lruMisses_pos (n : Nat) {history : List α} (ne : history ≠ []) : 0 < lruMisses n history := by
  induction history with
  | nil => exact absurd rfl ne
  | cons x past ih =>
    rw [lruMisses]
    cases past with
    | nil =>
      rw [recency, List.take_nil, if_neg List.not_mem_nil]
      exact Nat.succ_pos _
    | cons y past => exact Nat.add_pos_left (ih (List.cons_ne_nil y past)) _

/-- At most every use misses. -/
theorem lruMisses_le (n : Nat) (history : List α) : lruMisses n history ≤ history.length := by
  induction history with
  | nil => exact Nat.le_refl 0
  | cons x past ih =>
    rw [lruMisses, List.length_cons]
    split <;> omega

/-- The distance of a use: the place of the element in the order of recency, or `cold` for a first use. -/
def reuseDistance (cold : Nat) (x : α) (past : List α) : Nat :=
  if x ∈ past then (recency past).idxOf x else cold

/-- How many uses of a history have a distance of `n` at least. -/
def usesBeyond (cold n : Nat) : List α → Nat
  | [] => 0
  | x :: past => usesBeyond cold n past + if n ≤ reuseDistance cold x past then 1 else 0

/-- At most every use counts. -/
theorem usesBeyond_le (cold n : Nat) (history : List α) : usesBeyond cold n history ≤ history.length := by
  induction history with
  | nil => exact Nat.le_refl 0
  | cons x past ih =>
    rw [usesBeyond, List.length_cons]
    split <;> omega

/-- An element is held by a store of `n` places if its distance is below `n`. -/
theorem mem_take_recency_iff_distance {cold n : Nat} (le : n ≤ cold) (x : α) (past : List α) :
    x ∈ (recency past).take n ↔ ¬ n ≤ reuseDistance cold x past := by
  rw [reuseDistance]
  split
  · rename_i old
    rw [List.mem_take_iff_idxOf_lt ((mem_recency past).2 old), Nat.not_le]
  · rename_i new
    exact iff_of_false (fun mem => new ((mem_recency past).1 (List.mem_of_mem_take mem))) (not_not.2 le)

/-- The distances tell the misses of every store of up to `cold` places. -/
theorem lruMisses_eq_usesBeyond {cold n : Nat} (le : n ≤ cold) (history : List α) :
    lruMisses n history = usesBeyond cold n history := by
  induction history with
  | nil => rfl
  | cons x past ih =>
    rw [lruMisses, usesBeyond, ih]
    simp only [mem_take_recency_iff_distance le, ite_not]

/-- A distance is at most that of a first use, if there are no more elements than that. -/
theorem reuseDistance_le {cold : Nat} (x : α) {past : List α} (le : past.toFinset.card ≤ cold) :
    reuseDistance cold x past ≤ cold := by
  rw [reuseDistance]
  split
  · rename_i old
    have lt := List.idxOf_lt_length_of_mem ((mem_recency past).2 old)
    rw [length_recency] at lt
    omega
  · exact Nat.le_refl cold

/-- An earlier history has no more elements. -/
theorem card_tail_le (x : α) (past : List α) : past.toFinset.card ≤ (x :: past).toFinset.card := by
  rw [List.toFinset_cons]
  exact Finset.card_le_card (Finset.subset_insert x _)

/-- No distance is above that of a first use, if this is at least the number of elements. -/
theorem usesBeyond_eq_zero {cold n : Nat} (lt : cold < n) {history : List α} (le : history.toFinset.card ≤ cold) :
    usesBeyond cold n history = 0 := by
  induction history with
  | nil => rfl
  | cons x past ih =>
    have fewer := (card_tail_le x past).trans le
    have near := reuseDistance_le x fewer
    rw [usesBeyond, ih fewer, if_neg (by omega)]

section Map

variable {β : Type u} [DecidableEq β] {f : α → β}

/-- Erasing commutes with a map that is injective at the element. -/
theorem erase_map {l : List α} (inj : ∀ y ∈ l, f y = f x → y = x) : (l.map f).erase (f x) = (l.erase x).map f := by
  induction l with
  | nil => rfl
  | cons y l ih =>
    rw [List.map_cons]
    rcases eq_or_ne y x with rfl | ne
    · rw [List.erase_cons_head, List.erase_cons_head]
    · have other : f y ≠ f x := fun eq => ne (inj y List.mem_cons_self eq)
      rw [List.erase_cons_tail (by simpa using other), List.erase_cons_tail (by simpa using ne), List.map_cons,
        ih fun z mem => inj z (List.mem_cons_of_mem y mem)]

/-- Recency under a function that tells the elements apart. -/
theorem recency_map {past : List α} (inj : ∀ x ∈ past, ∀ y ∈ past, f x = f y → x = y) :
    recency (past.map f) = (recency past).map f := by
  induction past with
  | nil => rfl
  | cons x past ih =>
    rw [List.map_cons, recency, recency, List.map_cons,
      ih fun y hy z hz => inj y (List.mem_cons_of_mem x hy) z (List.mem_cons_of_mem x hz), erase_map]
    exact fun y mem => inj y (List.mem_cons_of_mem x ((mem_recency past).1 mem)) x List.mem_cons_self

/-- Renaming the elements injectively leaves the misses. -/
theorem lruMisses_map (n : Nat) {history : List α} (inj : ∀ x ∈ history, ∀ y ∈ history, f x = f y → x = y) :
    lruMisses n (history.map f) = lruMisses n history := by
  induction history with
  | nil => rfl
  | cons x past ih =>
    have inj' : ∀ y ∈ past, ∀ z ∈ past, f y = f z → y = z := fun y hy z hz =>
      inj y (List.mem_cons_of_mem x hy) z (List.mem_cons_of_mem x hz)
    have same : f x ∈ ((recency past).map f).take n ↔ x ∈ (recency past).take n := by
      rw [← List.map_take, List.mem_map]
      constructor
      · rintro ⟨y, mem, eq⟩
        have old : y ∈ past := (mem_recency past).1 (List.mem_of_mem_take mem)
        rwa [← inj y (List.mem_cons_of_mem x old) x List.mem_cons_self eq]
      · exact fun mem => ⟨x, mem, rfl⟩
    rw [List.map_cons, lruMisses, lruMisses, ih inj', recency_map inj']
    simp only [same]

end Map

end Recency

/-! ## Time stamps -/

/-- The next time, of a clock that does not overflow. -/
theorem toNat_tick {clock : UInt64} {now : Nat} (time : clock.toNat = now) (bound : now + 1 < 2 ^ 64) :
    (clock + 1).toNat = now + 1 := by
  rw [UInt64.toNat_add, time, UInt64.toNat_one]
  exact Nat.mod_eq_of_lt bound

section Stamps

variable {α : Type u} {x : α}

/-- Of `n` places some hold an element, with the time of its last use; `q` lists what they hold,
the most recent one first. -/
structure Stamped (n : Nat) (held : Nat → Option α) (stamp : Nat → Nat) (now : Nat)
    (q : List α) : Prop where
  nodup : q.Nodup
  mem_iff : ∀ x, x ∈ q ↔ ∃ i < n, held i = some x
  once : ∀ i < n, ∀ j < n, ∀ x, held i = some x → held j = some x → i = j
  le_now : ∀ i < n, held i ≠ none → stamp i ≤ now
  sorted : q.Pairwise fun x y =>
    ∀ i < n, ∀ j < n, held i = some x → held j = some y → stamp j < stamp i

namespace Stamped

variable {n now now' i : Nat} {held held' : Nat → Option α} {stamp stamp' : Nat → Nat}
  {q kept : List α}

/-- An empty store is stamped, whatever the stamps. -/
theorem empty (none : ∀ i < n, held i = none) : Stamped n held stamp now [] where
  nodup := List.nodup_nil
  mem_iff x := by
    constructor
    · intro mem
      cases mem
    · rintro ⟨i, lt, here⟩
      rw [none i lt] at here
      cases here
  once i hi j hj x here := by
    rw [none i hi] at here
    cases here
  le_now i hi some := absurd (none i hi) some
  sorted := List.Pairwise.nil

/-- Time passes. -/
theorem later (h : Stamped n held stamp now q) (le : now ≤ now') : Stamped n held stamp now' q :=
  { h with le_now := fun i hi some => Nat.le_trans (h.le_now i hi some) le }

/-- An element is put into a place, and what was there before is gone. -/
theorem put (h : Stamped n held stamp now q) (lt : i < n) (next : now < now')
    (sub : kept.Sublist q) (mem : ∀ y, y ∈ kept ↔ y ∈ q ∧ held i ≠ some y) (new : x ∉ kept)
    (here : held' i = some x) (time : stamp' i = now')
    (others : ∀ j < n, j ≠ i → held' j = held j ∧ stamp' j = stamp j) :
    Stamped n held' stamp' now' (x :: kept) where
  nodup := List.nodup_cons.2 ⟨new, h.nodup.sublist sub⟩
  mem_iff y := by
    rw [List.mem_cons, mem]
    constructor
    · rintro (rfl | ⟨old, ne⟩)
      · exact ⟨i, lt, here⟩
      · obtain ⟨j, hj, there⟩ := (h.mem_iff y).1 old
        have ji : j ≠ i := by
          rintro rfl
          exact ne there
        exact ⟨j, hj, (others j hj ji).1.trans there⟩
    · rintro ⟨j, hj, there⟩
      rcases eq_or_ne j i with rfl | ji
      · rw [here] at there
        exact Or.inl (Option.some.inj there).symm
      · rw [(others j hj ji).1] at there
        refine Or.inr ⟨(h.mem_iff y).2 ⟨j, hj, there⟩, fun at_i => ?_⟩
        exact ji (h.once j hj i lt y there at_i)
  once j hj k hk y hy hy' := by
    have only : ∀ m < n, m ≠ i → held' m ≠ some x := by
      intro m hm mi at_m
      rw [(others m hm mi).1] at at_m
      have old : x ∈ q := (h.mem_iff x).2 ⟨m, hm, at_m⟩
      apply new
      rw [mem]
      exact ⟨old, fun at_i => mi (h.once m hm i lt x at_m at_i)⟩
    rcases eq_or_ne j i with rfl | ji
    · rw [here] at hy
      obtain rfl := Option.some.inj hy
      by_contra ne
      exact only k hk (fun eq => ne eq.symm) hy'
    rcases eq_or_ne k i with rfl | ki
    · rw [here] at hy'
      obtain rfl := Option.some.inj hy'
      exact absurd hy (only j hj ji)
    · rw [(others j hj ji).1] at hy
      rw [(others k hk ki).1] at hy'
      exact h.once j hj k hk y hy hy'
  le_now j hj some := by
    rcases eq_or_ne j i with rfl | ji
    · exact Nat.le_of_eq time
    · rw [(others j hj ji).1] at some
      rw [(others j hj ji).2]
      exact Nat.le_trans (h.le_now j hj some) (Nat.le_of_lt next)
  sorted := by
    have away : ∀ y ∈ kept, ∀ j < n, held' j = some y → j ≠ i := by
      rintro y hy j - at_j rfl
      rw [here] at at_j
      exact new (Option.some.inj at_j ▸ hy)
    apply List.pairwise_cons.2
    constructor
    · intro y hy j hj k hk at_j at_k
      have ki := away y hy k hk at_k
      have ji : j = i := by
        by_contra ji
        rw [(others j hj ji).1] at at_j
        apply new
        rw [mem]
        refine ⟨(h.mem_iff x).2 ⟨j, hj, at_j⟩, fun at_i => ?_⟩
        exact ji (h.once j hj i lt x at_j at_i)
      rw [(others k hk ki).1] at at_k
      rw [ji, time, (others k hk ki).2]
      apply Nat.lt_of_le_of_lt (h.le_now k hk _) next
      rw [at_k]
      exact Option.some_ne_none y
    · apply List.Pairwise.imp_of_mem _ (h.sorted.sublist sub)
      intro y z hy hz lt' j hj k hk at_j at_k
      have ji := away y hy j hj at_j
      have ki := away z hz k hk at_k
      rw [(others j hj ji).1] at at_j
      rw [(others k hk ki).1] at at_k
      rw [(others j hj ji).2, (others k hk ki).2]
      exact lt' j hj k hk at_j at_k

/-- What the places hold, in the order of the places. -/
theorem perm (h : Stamped n held stamp now q) : q.Perm ((List.range n).filterMap held) := by
  have nodup : ((List.range n).filterMap held).Nodup := by
    apply List.pairwise_filterMap.2
    apply List.Pairwise.imp_of_mem _ List.nodup_range
    rintro i j hi hj ne x at_i y at_j rfl
    exact ne (h.once i (List.mem_range.1 hi) j (List.mem_range.1 hj) x at_i at_j)
  rw [List.perm_ext_iff_of_nodup h.nodup nodup]
  intro x
  rw [h.mem_iff, List.mem_filterMap]
  simp only [List.mem_range]

/-- There are no more elements than places. -/
theorem length_le (h : Stamped n held stamp now q) : q.length ≤ n := by
  rw [h.perm.length_eq]
  exact (List.length_filterMap_le held _).trans (Nat.le_of_eq List.length_range)

/-- There are fewer if a place is empty. -/
theorem length_lt (h : Stamped n held stamp now q) (lt : i < n) (none : held i = none) :
    q.length < n := by
  have less : ((List.range n).filterMap held).length < (List.range n).length :=
    List.length_filterMap_lt_length_iff_exists.2 ⟨i, List.mem_range.2 lt, none⟩
  rw [List.length_range, ← h.perm.length_eq] at less
  exact less

/-- There are as many if none is. -/
theorem length_eq (h : Stamped n held stamp now q) (full : ∀ i < n, held i ≠ none) :
    q.length = n := by
  apply Nat.le_antisymm h.length_le
  by_contra less
  have short : ((List.range n).filterMap held).length < (List.range n).length := by
    rw [← h.perm.length_eq, List.length_range]
    omega
  obtain ⟨i, mem, none⟩ := List.length_filterMap_lt_length_iff_exists.1 short
  exact full i (List.mem_range.1 mem) none

/-- With all places taken, the one with the least stamp holds the last element. -/
theorem oldest (h : Stamped n held stamp now q) (lt : i < n) {v : α} (here : held i = some v)
    (least : ∀ j < n, stamp i ≤ stamp j) : ∃ front, q = front ++ [v] := by
  have mem : v ∈ q := (h.mem_iff v).2 ⟨i, lt, here⟩
  have split : q = q.dropLast ++ [q.getLast (List.ne_nil_of_mem mem)] :=
    (List.dropLast_append_getLast _).symm
  generalize q.getLast (List.ne_nil_of_mem mem) = l at split
  generalize q.dropLast = front at split
  subst split
  obtain ⟨k, hk, at_k⟩ := (h.mem_iff l).1 (List.mem_append_right _ List.mem_cons_self)
  rcases List.mem_append.1 mem with before | last
  · have less := (List.pairwise_append.1 h.sorted).2.2 v before l List.mem_cons_self i lt k hk here at_k
    exact absurd (least k hk) (Nat.not_le.2 less)
  · exact ⟨front, by rw [List.mem_singleton.1 last]⟩

/-- An LRU store: a hit renews the stamp, a miss takes a free place, or the place with the least
stamp when there is none. -/
theorem use [DecidableEq α] (h : Stamped n held stamp now q) (lt : i < n) (next : now < now')
    (pick : held i = some x ∨
      (∀ j < n, held j ≠ some x) ∧
        (held i = none ∨ (∀ j < n, held j ≠ none) ∧ ∀ j < n, stamp i ≤ stamp j))
    (here : held' i = some x) (time : stamp' i = now')
    (others : ∀ j < n, j ≠ i → held' j = held j ∧ stamp' j = stamp j) :
    Stamped n held' stamp' now' (lruStep n q x) := by
  obtain ⟨m, rfl⟩ : ∃ m, n = m + 1 := ⟨n - 1, by omega⟩
  unfold lruStep
  rw [List.take_succ_cons]
  have le := h.length_le
  rcases pick with hit | ⟨miss, free | ⟨full, least⟩⟩
  · have mem : x ∈ q := (h.mem_iff x).2 ⟨i, lt, hit⟩
    have short : (q.erase x).length ≤ m := by
      rw [List.length_erase_of_mem mem]
      omega
    rw [List.take_of_length_le short]
    apply h.put lt next List.erase_sublist _ h.nodup.not_mem_erase here time others
    intro y
    rw [h.nodup.mem_erase_iff, hit, and_comm, ne_eq, ne_eq, Option.some_inj, eq_comm]
  all_goals
    have new : x ∉ q := by
      intro mem
      obtain ⟨j, hj, at_j⟩ := (h.mem_iff x).1 mem
      exact miss j hj at_j
    rw [List.erase_of_not_mem new]
  · rw [List.take_of_length_le (Nat.le_of_lt_succ (h.length_lt lt free))]
    apply h.put lt next (List.Sublist.refl q) _ new here time others
    intro y
    rw [free]
    exact (and_iff_left (Option.some_ne_none y).symm).symm
  · obtain ⟨v, at_i⟩ := Option.ne_none_iff_exists'.1 (full i lt)
    obtain ⟨front, rfl⟩ := h.oldest lt at_i least
    have length := h.length_eq full
    rw [List.length_append, List.length_singleton, Nat.add_right_cancel_iff] at length
    rw [← length, List.take_left]
    have nodup := List.nodup_append.1 h.nodup
    rw [length]
    apply h.put lt next (List.sublist_append_left front [v]) _ _ here time others
    · intro y
      rw [at_i, List.mem_append, List.mem_singleton, ne_eq, Option.some_inj]
      constructor
      · intro mem
        exact ⟨Or.inl mem, fun eq => nodup.2.2 y mem v List.mem_cons_self eq.symm⟩
      · rintro ⟨mem | eq, ne⟩
        · exact mem
        · exact absurd eq.symm ne
    · exact fun mem => new (List.mem_append_left _ mem)

end Stamped

end Stamps

/-! ## Last uses -/

section LastUse

variable {P : Type u} [DecidableEq P] {stamp stamp' : P → Nat} {now now' : Nat} {uses : List P} {p q : P}

/-- `q` was used after the last use of `p`; the last use is the first of the list. -/
def UsedSince (uses : List P) (p q : P) : Prop := q ∈ uses.takeWhile fun r => decide (r ≠ p)

instance (uses : List P) (p q : P) : Decidable (UsedSince uses p q) :=
  inferInstanceAs (Decidable (q ∈ _))

/-- Of two places, one of them used, one was used after the other. -/
theorem usedSince_or (mem : p ∈ uses) (ne : p ≠ q) : UsedSince uses p q ∨ UsedSince uses q p := by
  induction uses with
  | nil => cases mem
  | cons r uses ih =>
    unfold UsedSince
    rcases eq_or_ne r p with rfl | hp
    · right
      rw [List.takeWhile_cons_of_pos (by simpa using ne)]
      exact List.mem_cons_self
    · rcases eq_or_ne r q with rfl | hq
      · left
        rw [List.takeWhile_cons_of_pos (by simpa using hp)]
        exact List.mem_cons_self
      · rw [List.takeWhile_cons_of_pos (by simpa using hp), List.takeWhile_cons_of_pos (by simpa using hq)]
        rcases ih ((List.mem_cons.1 mem).resolve_left hp.symm) with later | later
        · exact Or.inl (List.mem_cons_of_mem r later)
        · exact Or.inr (List.mem_cons_of_mem r later)

/-- The stamps are the times of the last uses. -/
structure Clocked (stamp : P → Nat) (now : Nat) (uses : List P) : Prop where
  le_now : ∀ p, stamp p ≤ now
  since : ∀ p q, p ≠ q → (stamp p < stamp q ↔ UsedSince uses p q)

namespace Clocked

/-- A place whose stamp is least was used before the others. -/
theorem since_of_le (h : Clocked stamp now uses) (mem : p ∈ uses) (ne : p ≠ q) (le : stamp p ≤ stamp q) :
    UsedSince uses p q := by
  rcases usedSince_or mem ne with since | before
  · exact since
  · have lt := (h.since q p ne.symm).2 before
    omega

/-- Before any use all stamps are zero. -/
theorem start (zero : ∀ p, stamp p = 0) (now : Nat) : Clocked stamp now [] where
  le_now p := by
    rw [zero p]
    exact Nat.zero_le now
  since p q _ := by
    rw [zero p, zero q]
    exact iff_of_false (Nat.lt_irrefl 0) List.not_mem_nil

/-- Time passes. -/
theorem later (h : Clocked stamp now uses) (le : now ≤ now') (same : ∀ p, stamp' p = stamp p) :
    Clocked stamp' now' uses where
  le_now p := by
    rw [same]
    exact (h.le_now p).trans le
  since p q ne := by
    rw [same, same]
    exact h.since p q ne

/-- The clock after one more use, whose stamp is the new time. -/
theorem use (h : Clocked stamp now uses) (next : now < now') (here : stamp' p = now')
    (others : ∀ q, q ≠ p → stamp' q = stamp q) : Clocked stamp' now' (p :: uses) where
  le_now q := by
    rcases eq_or_ne q p with rfl | ne
    · exact Nat.le_of_eq here
    · rw [others q ne]
      exact ((h.le_now q).trans_lt next).le
  since q r ne := by
    unfold UsedSince
    rcases eq_or_ne q p with rfl | other
    · rw [List.takeWhile_cons_of_neg (by simp), here, others r ne.symm]
      exact iff_of_false (Nat.not_lt.2 ((h.le_now r).trans next.le)) List.not_mem_nil
    · rw [List.takeWhile_cons_of_pos (by simpa using other.symm), List.mem_cons, others q other]
      rcases eq_or_ne r p with rfl | last
      · rw [here]
        exact iff_of_true ((h.le_now q).trans_lt next) (Or.inl rfl)
      · rw [others r last, or_iff_right last]
        exact h.since q r ne

end Clocked

end LastUse

end MiniHardware.Lib
