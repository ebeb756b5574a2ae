import Mathlib.Order.Nat
import MiniHardware.Lib.Trace

/-!
# Nested pushes and pops

A `Nest` is a properly nested sequence of labelled pushes and of pops. On a
machine with room for `bound` pushes, where a pop undoes a push over everything
that keeps the machine below it, a nest that fits in keeps the machine, and so
do all of its parts (`Nest.keeps`). On a stack that drops the pushes it has no room
for, the pops find their own labels just if the nest fits in (`Nest.popped_iff_fits`).
-/

namespace MiniHardware.Lib

inductive Nest (α : Type*) where
  | nil
  | wrap (label : α) (inner rest : Nest α)

namespace Nest

variable {α β σ : Type*}

/-- The sequence of the pushes, and of the pops, which are `none`. -/
def calls : Nest α → List (Option α)
  | nil => []
  | wrap a inner rest => some a :: inner.calls ++ none :: rest.calls

/-- How many pushes are open at once. -/
def height : Nest α → Nat
  | nil => 0
  | wrap _ inner rest => max (inner.height + 1) rest.height

def map (f : α → β) : Nest α → Nest β
  | nil => nil
  | wrap a inner rest => wrap (f a) (inner.map f) (rest.map f)

theorem height_map (f : α → β) (n : Nest α) : (n.map f).height = n.height := by
  induction n with
  | nil => rfl
  | wrap a inner rest ihInner ihRest => rw [map, height, height, ihInner, ihRest]

section Machine

variable (push : σ → α → σ) (pop : σ → σ)

/-- A call of the sequence. -/
def call (s : σ) : Option α → σ
  | some a => push s a
  | none => pop s

/-- The machine after the sequence. -/
def exec (s : σ) : Nest α → σ
  | nil => s
  | wrap a inner rest => exec (pop (exec (push s a) inner)) rest

theorem run_calls (s : σ) (n : Nest α) : run (call push pop) s n.calls = exec push pop s n := by
  induction n generalizing s with
  | nil => rfl
  | wrap a inner rest ihInner ihRest =>
    rw [calls, List.cons_append, run_cons, run_append, run_cons]
    show run (call push pop) (pop (run (call push pop) (push s a) inner.calls)) rest.calls = _
    rw [ihInner, ihRest]
    rfl

/-- Before each push and after its pop the machine is related. -/
def Restores (Same : σ → σ → Prop) (s : σ) : Nest α → Prop
  | nil => True
  | wrap a inner rest =>
    Restores Same (push s a) inner ∧ Same s (pop (exec push pop (push s a) inner)) ∧
      Restores Same (pop (exec push pop (push s a) inner)) rest

variable {push pop} {Keeps Same : σ → σ → Prop} {level : σ → Nat} {bound : Nat}

theorem Restores.mono (weaker : ∀ s t, Keeps s t → Same s t) {s : σ} {n : Nest α}
    (h : Restores push pop Keeps s n) : Restores push pop Same s n := by
  induction n generalizing s with
  | nil => trivial
  | wrap a inner rest ihInner ihRest =>
    exact ⟨ihInner h.1, weaker _ _ h.2.1, ihRest h.2.2⟩

/-- A nest that fits in keeps the machine. -/
theorem keeps {Inv : σ → Prop} (refl : ∀ s, Keeps s s) (trans : ∀ s t u, Keeps s t → Keeps t u → Keeps s u)
    (keeps_level : ∀ s t, Keeps s t → level t = level s) (keeps_inv : ∀ s t, Inv s → Keeps s t → Inv t)
    (push_level : ∀ s a, level s < bound → level (push s a) = level s + 1)
    (push_inv : ∀ s a, Inv s → level s < bound → Inv (push s a))
    (pop_keeps : ∀ s a t, Inv s → level s < bound → Keeps (push s a) t → Keeps s (pop t)) {s : σ}
    (inv : Inv s) {n : Nest α} (room : level s + n.height ≤ bound) :
    Keeps s (exec push pop s n) ∧ Restores push pop Keeps s n := by
  induction n generalizing s with
  | nil => exact ⟨refl s, trivial⟩
  | wrap a inner rest ihInner ihRest =>
    have fits : level s + (inner.height + 1) ≤ bound :=
      Nat.le_trans (Nat.add_le_add_left (Nat.le_max_left _ _) _) room
    have fits' : level s + rest.height ≤ bound :=
      Nat.le_trans (Nat.add_le_add_left (Nat.le_max_right _ _) _) room
    have lt : level s < bound := by omega
    have roomInner : level (push s a) + inner.height ≤ bound := by
      rw [push_level s a lt]
      omega
    obtain ⟨keepsInner, restoresInner⟩ := ihInner (push_inv s a inv lt) roomInner
    have popped := pop_keeps s a _ inv lt keepsInner
    have roomRest : level (pop (exec push pop (push s a) inner)) + rest.height ≤ bound := by
      rw [keeps_level _ _ popped]
      exact fits'
    obtain ⟨keepsRest, restoresRest⟩ := ihRest (keeps_inv _ _ inv popped) roomRest
    exact ⟨trans _ _ _ popped keepsRest, restoresInner, popped, restoresRest⟩

end Machine

/-! ## A stack that drops what it has no room for -/

section Dropping
variable {bound : Nat}

def dropPush (bound : Nat) (s : List α) (a : α) : List α := if s.length < bound then a :: s else s

/-- What the pops of a sequence find on top. -/
def popped (bound : Nat) : List α → List (Option α) → List (Option α)
  | _, [] => []
  | s, some a :: ops => popped bound (dropPush bound s a) ops
  | s, none :: ops => s.head? :: popped bound s.tail ops

/-- The labels in the order of their pops. -/
def labels : Nest α → List α
  | nil => []
  | wrap a inner rest => inner.labels ++ a :: rest.labels

theorem popped_append (s : List α) (xs ys : List (Option α)) :
    popped bound s (xs ++ ys) = popped bound s xs ++ popped bound (run (call (dropPush bound) List.tail) s xs) ys := by
  induction xs generalizing s with
  | nil => rfl
  | cons op xs ih =>
    cases op with
    | some a => exact ih _
    | none => exact congrArg (s.head? :: ·) (ih _)

/-- What the pops of a wrap find. -/
theorem popped_wrap (s : List α) (a : α) (inner rest : Nest α) :
    popped bound s (wrap a inner rest).calls =
      popped bound (dropPush bound s a) inner.calls ++
        (exec (dropPush bound) List.tail (dropPush bound s a) inner).head? ::
          popped bound (exec (dropPush bound) List.tail (dropPush bound s a) inner).tail rest.calls := by
  rw [calls, List.cons_append, popped, popped_append, run_calls, popped]

/-- A nest that fits in restores the stack, and every pop finds its own label. -/
theorem popped_of_fits {s : List α} {n : Nest α} (fits : s.length + n.height ≤ bound) :
    exec (dropPush bound) List.tail s n = s ∧ popped bound s n.calls = n.labels.map some := by
  induction n generalizing s with
  | nil => exact ⟨rfl, rfl⟩
  | wrap a inner rest ihInner ihRest =>
    rw [height] at fits
    have push : dropPush bound s a = a :: s := if_pos (by omega)
    have deep : (a :: s).length + inner.height ≤ bound := by
      rw [List.length_cons]
      omega
    obtain ⟨restores, finds⟩ := ihInner deep
    obtain ⟨restores', finds'⟩ := ihRest (s := s) (by omega)
    constructor
    · rw [exec, push, restores, List.tail_cons, restores']
    · rw [popped_wrap, push, restores, finds, List.tail_cons, finds', labels, List.map_append, List.map_cons,
        List.head?_cons]

theorem exec_length_le {s : List α} (le : s.length ≤ bound) (n : Nest α) :
    (exec (dropPush bound) List.tail s n).length ≤ s.length := by
  induction n generalizing s with
  | nil => exact Nat.le_refl _
  | wrap a inner rest ihInner ihRest =>
    have pushed : (dropPush bound s a).length ≤ s.length + 1 ∧ (dropPush bound s a).length ≤ bound := by
      rw [dropPush]
      split
      · exact ⟨Nat.le_refl _, by assumption⟩
      · exact ⟨Nat.le_succ _, le⟩
    have inside := ihInner pushed.2
    have back : (exec (dropPush bound) List.tail (dropPush bound s a) inner).tail.length ≤ s.length := by
      rw [List.length_tail]
      omega
    exact Nat.le_trans (ihRest (Nat.le_trans back le)) back

/-- A nest that does not fit in takes more from the stack than it leaves, or finds it empty. -/
theorem overflows {s : List α} (le : s.length ≤ bound) {n : Nest α} (deep : bound < s.length + n.height) :
    none ∈ popped bound s n.calls ∨ (exec (dropPush bound) List.tail s n).length < s.length := by
  induction n generalizing s with
  | nil => exact absurd deep (Nat.not_lt.2 le)
  | wrap a inner rest ihInner ihRest =>
    rw [height] at deep
    rw [popped_wrap, exec]
    generalize inside : exec (dropPush bound) List.tail (dropPush bound s a) inner = t
    -- what is on the stack at the pop decides: nothing, less than before the push, or all of it
    rcases t with _ | ⟨top, below⟩
    · left
      simp
    · have rest_le (shorter : below.length < s.length) :
          (exec (dropPush bound) List.tail below rest).length < s.length := by
        exact Nat.lt_of_le_of_lt (exec_length_le (by omega) rest) shorter
      rcases Nat.lt_or_ge s.length bound with room | full
      · have push : dropPush bound s a = a :: s := if_pos room
        rw [push] at inside ⊢
        rcases Nat.lt_or_ge bound ((a :: s).length + inner.height) with deepInner | fits
        · rcases ihInner (s := a :: s) room deepInner with empty | shorter
          · left
            exact List.mem_append_left _ empty
          · right
            rw [inside] at shorter
            exact rest_le (by simpa using shorter)
        · obtain ⟨restores, -⟩ := popped_of_fits fits
          rw [restores] at inside
          obtain ⟨-, rfl⟩ := List.cons.inj inside
          rw [List.length_cons] at fits
          rcases ihRest le (by omega) with empty | shorter
          · left
            exact List.mem_append_right _ (List.mem_cons_of_mem _ empty)
          · right
            exact shorter
      · have drop : dropPush bound s a = s := if_neg (Nat.not_lt.2 full)
        right
        have kept := exec_length_le le inner
        rw [drop] at inside
        rw [inside, List.length_cons] at kept
        exact rest_le kept

/-- On an empty stack every pop finds a label, its own, just if the nest fits in. -/
theorem popped_iff_fits {n : Nest α} : popped bound [] n.calls = n.labels.map some ↔ n.height ≤ bound := by
  constructor
  · intro finds
    by_contra deep
    have within : bound < ([] : List α).length + n.height := by
      rw [List.length_nil]
      omega
    rcases overflows (Nat.zero_le _) within with empty | shorter
    · rw [finds] at empty
      obtain ⟨_, _, found⟩ := List.mem_map.1 empty
      cases found
    · exact Nat.not_lt_zero _ shorter
  · intro fits
    exact (popped_of_fits (by rwa [List.length_nil, Nat.zero_add])).2

end Dropping

end Nest

end MiniHardware.Lib
