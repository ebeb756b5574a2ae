import MiniHardware.Lib.Trace
import Mathlib.Data.List.Induction

/-!
# Queues of bounded length

A ring of `cap` cells, of which a head and a length say which hold a queue; and
the queue as a replacement policy: what is not in it is appended, and the head
makes room. The queue is then in the order of age, where the age of an element
is the number of states that it has been in without a break.
-/

namespace MiniHardware.Lib

universe u v w

/-! ## Rings -/

section Ring

variable {α : Type u} {cells : Nat → α} {head cap : Nat} {x : α} {q : List α}

/-- The cells from `head` on hold `q`. -/
def RingHolds (cells : Nat → α) (head cap : Nat) (q : List α) : Prop :=
  ∀ i (h : i < q.length), cells ((head + i) % cap) = q.get ⟨i, h⟩

theorem ringHolds_nil : RingHolds cells head cap [] :=
  fun _ h => absurd h (Nat.not_lt_zero _)

/-- Two places of a ring that are less than its length apart are different cells. -/
theorem ring_index_ne {i j : Nat} (lt : i < j) (room : j - i < cap) :
    (head + i) % cap ≠ (head + j) % cap := by
  intro eq
  have dvd : cap ∣ (head + j) - (head + i) :=
    Nat.dvd_of_mod_eq_zero (Nat.sub_mod_eq_zero_of_mod_eq eq.symm)
  have le : cap ≤ (head + j) - (head + i) := Nat.le_of_dvd (by omega) dvd
  omega

theorem RingHolds.push (h : RingHolds cells head cap q) (room : q.length < cap) :
    RingHolds (fun k => if k = (head + q.length) % cap then x else cells k) head cap (q ++ [x]) := by
  intro i lt
  rw [List.length_append, List.length_singleton] at lt
  dsimp only
  rcases Nat.lt_or_eq_of_le (Nat.le_of_lt_succ lt) with below | rfl
  · rw [if_neg (ring_index_ne below (by omega)), h i below]
    exact (List.getElem_append_left below).symm
  · rw [if_pos rfl]
    exact (List.getElem_concat_length rfl _).symm

theorem RingHolds.pop (h : RingHolds cells head cap (x :: q)) :
    RingHolds cells ((head + 1) % cap) cap q := by
  intro i lt
  rw [Nat.mod_add_mod, Nat.add_assoc, Nat.add_comm 1]
  exact h (i + 1) (Nat.succ_lt_succ lt)

theorem RingHolds.first (h : RingHolds cells head cap (x :: q)) (lt : head < cap) : cells head = x := by
  have cell := h 0 (Nat.succ_pos _)
  rwa [Nat.add_zero, Nat.mod_eq_of_lt lt] at cell

end Ring

/-! ## First in, first out -/

section Fifo

variable {α : Type u} [DecidableEq α] {cap : Nat} {q : List α} {x : α}

/-- The elements held after the use of `x`. -/
def fifoStep (cap : Nat) (q : List α) (x : α) : List α :=
  if x ∈ q then q else if q.length < cap then q ++ [x] else q.tail ++ [x]

theorem mem_fifoStep_self : x ∈ fifoStep cap q x := by
  unfold fifoStep
  split
  · assumption
  split
  · exact List.mem_append_right _ List.mem_cons_self
  · exact List.mem_append_right _ List.mem_cons_self

/-- A queue in order of age stays so: what stays grows older by one, what is new is the youngest. -/
theorem fifoStep_pairwise {age age' : α → Nat} (sorted : q.Pairwise fun a b => age b < age a)
    (old : ∀ y ∈ q, 0 < age y) (stays : ∀ y ∈ q, y ∈ fifoStep cap q x → age' y = age y + 1)
    (new : x ∉ q → age' x = 1) :
    (fifoStep cap q x).Pairwise fun a b => age' b < age' a := by
  unfold fifoStep at stays ⊢
  have append : ∀ {l : List α}, l.Sublist q → x ∉ q → (∀ y ∈ l, age' y = age y + 1) →
      (l ++ [x]).Pairwise fun a b => age' b < age' a := by
    intro l sub notMem older
    apply List.pairwise_append.2
    refine ⟨?_, List.pairwise_singleton _ x, ?_⟩
    · apply List.Pairwise.imp_of_mem _ (sorted.sublist sub)
      intro a b ha hb lt
      rw [older a ha, older b hb]
      exact Nat.succ_lt_succ lt
    · intro a ha b hb
      rw [List.mem_singleton.1 hb, new notMem, older a ha]
      exact Nat.succ_lt_succ (old a (sub.subset ha))
  split
  · rename_i mem
    apply List.Pairwise.imp_of_mem _ sorted
    intro a b ha hb lt
    rw [stays a ha (by rwa [if_pos mem]), stays b hb (by rwa [if_pos mem])]
    exact Nat.succ_lt_succ lt
  · rename_i notMem
    rw [if_neg notMem] at stays
    split
    · rename_i room
      rw [if_pos room] at stays
      exact append (List.Sublist.refl q) notMem fun y hy => stays y hy (List.mem_append_left _ hy)
    · rename_i full
      rw [if_neg full] at stays
      exact append (List.tail_sublist q) notMem fun y hy =>
        stays y (List.mem_of_mem_tail hy) (List.mem_append_left _ hy)

end Fifo

/-! ## Age -/

section Age

variable {σ : Type v} {ο : Type w} {step : σ → ο → σ}

/-- The number of the last states of the run, up to the present one, in which `p` holds
without a break. -/
def age (step : σ → ο → σ) (p : σ → Bool) (s : σ) (ops : List ο) : Nat :=
  ((ops.scanl step s).reverse.takeWhile p).length

theorem age_nil (p : σ → Bool) (s : σ) : age step p s [] = if p s then 1 else 0 := by
  unfold age
  rw [List.scanl_nil, List.reverse_singleton, List.takeWhile_cons]
  split <;> rfl

theorem age_snoc (p : σ → Bool) (s : σ) (ops : List ο) (op : ο) :
    age step p s (ops ++ [op]) =
      if p (run step s (ops ++ [op])) then age step p s ops + 1 else 0 := by
  unfold age
  rw [List.scanl_append, List.scanl_singleton, List.tail_cons, List.reverse_append,
    List.reverse_singleton, List.singleton_append, List.takeWhile_cons, run_snoc]
  unfold run
  split <;> rfl

theorem age_pos {p : σ → Bool} {s : σ} {ops : List ο} (h : p (run step s ops) = true) :
    0 < age step p s ops := by
  induction ops using List.reverseRecOn with
  | nil =>
    rw [run_nil] at h
    rw [age_nil, if_pos h]
    exact Nat.one_pos
  | append_singleton ops op _ =>
    rw [age_snoc, if_pos h]
    exact Nat.succ_pos _

theorem age_zero {p : σ → Bool} {s : σ} {ops : List ο} (h : p (run step s ops) = false) :
    age step p s ops = 0 := by
  induction ops using List.reverseRecOn with
  | nil =>
    rw [run_nil] at h
    rw [age_nil, h]
    rfl
  | append_singleton ops op _ =>
    rw [age_snoc, h]
    rfl

end Age

end MiniHardware.Lib
