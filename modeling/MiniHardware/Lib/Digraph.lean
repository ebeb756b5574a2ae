import Mathlib.Algebra.BigOperators.Group.Finset.Basic
import Mathlib.Algebra.Order.BigOperators.Group.Finset
import Mathlib.Algebra.Order.Ring.Int
import Mathlib.Data.Fintype.Card
import Mathlib.Data.Fintype.EquivFin
import Mathlib.Data.List.Perm.Basic
import Mathlib.Logic.Relation
import Mathlib.Order.WellFounded
import Mathlib.Tactic.Common

/-!
# Sorting a directed graph

`succ u` lists the vertices at the ends of the edges out of `u`, one entry for
each edge. Kahn's algorithm takes a vertex when all edges into it start at
taken vertices; it takes all of them if and only if the graph has no cycle
(`kahn_full_iff`).
-/

namespace MiniHardware.Lib

section Graph

variable {V : Type*} (succ : V → List V)

def Edge (u v : V) : Prop := v ∈ succ u

/-- Some vertex is reached from itself. -/
def Cyclic : Prop := ∃ v, Relation.TransGen (Edge succ) v v

/-- Every edge into a vertex of the list starts at an earlier one. -/
def TopoSorted [DecidableEq V] (l : List V) : Prop :=
  ∀ u v, Edge succ u v → v ∈ l → u ∈ l ∧ l.idxOf u < l.idxOf v

variable {succ}

/-- A graph that can be sorted has no cycle. -/
theorem TopoSorted.not_cyclic [DecidableEq V] {l : List V} (sorted : TopoSorted succ l) (all : ∀ v, v ∈ l) :
    ¬ Cyclic succ := by
  rintro ⟨v, loop⟩
  have up : ∀ w, Relation.TransGen (Edge succ) v w → l.idxOf v < l.idxOf w := by
    intro w path
    induction path with
    | single edge => exact (sorted _ _ edge (all _)).2
    | tail _ edge ih => exact ih.trans (sorted _ _ edge (all _)).2
  exact lt_irrefl _ (up v loop)

/-- No edge leads back in a sorted list. -/
theorem TopoSorted.not_edge_back [DecidableEq V] {l₁ l₂ : List V} {u v : V} (nodup : (l₁ ++ u :: l₂).Nodup)
    (sorted : TopoSorted succ (l₁ ++ u :: l₂)) (before : v ∈ l₁) : ¬ Edge succ u v := by
  intro edge
  have fresh : u ∉ l₁ := fun mem => (List.nodup_append.1 nodup).2.2 u mem u List.mem_cons_self rfl
  have up := (sorted u v edge (List.mem_append_left _ before)).2
  rw [List.idxOf_append_of_mem before, List.idxOf_append_of_notMem fresh] at up
  have := List.idxOf_lt_length_of_mem before
  omega

/-- A nonempty set of vertices with an edge into each of them from another one has a cycle. -/
theorem cyclic_of_pred [Finite V] {s : Set V} {v : V} (mem : v ∈ s)
    (pred : ∀ w ∈ s, ∃ u ∈ s, Edge succ u w) : Cyclic succ := by
  by_contra acyclic
  have irrefl : Std.Irrefl (Relation.TransGen (Edge succ)) := ⟨fun w loop => acyclic ⟨w, loop⟩⟩
  have wf := Finite.wellFounded_of_trans_of_irrefl (Relation.TransGen (Edge succ))
  obtain ⟨w, hw, least⟩ := wf.has_min s ⟨v, mem⟩
  obtain ⟨u, hu, edge⟩ := pred w hw
  exact least u hu (.single edge)

end Graph

/-! ## Kahn's algorithm -/

section Kahn

variable {V : Type*} [DecidableEq V] (succ : V → List V)

/-- The vertices that wait in the queue, and those taken from it. -/
structure KahnState (V : Type*) where
  indegree : V → Int
  queue : List V
  order : List V

/-- One edge into `v` less. -/
def release (s : (V → Int) × List V) (v : V) : (V → Int) × List V :=
  (Function.update s.1 v (s.1 v - 1), if s.1 v - 1 = 0 then s.2 ++ [v] else s.2)

def kahnStep (s : KahnState V) : KahnState V :=
  match s.queue with
  | [] => s
  | u :: rest =>
    let r := (succ u).foldl release (s.indegree, rest)
    ⟨r.1, r.2, s.order ++ [u]⟩

def indegrees (vertices : List V) : V → Int :=
  vertices.foldl (fun d u => (succ u).foldl (fun d v => Function.update d v (d v + 1)) d) fun _ => 0

def kahnStart (vertices : List V) : KahnState V :=
  ⟨indegrees succ vertices, vertices.filter (indegrees succ vertices · = 0), []⟩

/-- As many rounds as there are vertices empty the queue (`kahn_queue`). -/
def kahn (vertices : List V) : KahnState V := (kahnStep succ)^[vertices.length] (kahnStart succ vertices)

/-- Over a list of edges, the vertices whose number of edges reaches zero enter the queue. -/
theorem foldl_release (l : List V) (d : V → Int) (q : List V) :
    ∃ new : List V, l.foldl release (d, q) = (fun v => d v - l.count v, q ++ new) ∧ new.Nodup ∧
      ∀ v, v ∈ new ↔ 0 < d v ∧ d v ≤ l.count v := by
  induction l generalizing d q with
  | nil =>
    refine ⟨[], by simp, List.nodup_nil, fun v => ?_⟩
    simp only [List.not_mem_nil, List.count_nil, false_iff]
    omega
  | cons w l ih =>
    obtain ⟨new, run, nodup, mem⟩ := ih (Function.update d w (d w - 1)) (if d w - 1 = 0 then q ++ [w] else q)
    have degrees : (fun v => Function.update d w (d w - 1) v - (l.count v : Int)) =
        fun v => d v - ((w :: l).count v : Int) := by
      funext v
      by_cases h : v = w
      · subst h
        rw [Function.update_self, List.count_cons_self]
        push_cast
        omega
      · rw [Function.update_of_ne h, List.count_cons_of_ne (Ne.symm h)]
    have entered : ∀ v, v ∈ new ↔ 0 < Function.update d w (d w - 1) v ∧
        Function.update d w (d w - 1) v ≤ l.count v := mem
    rw [List.foldl_cons, release, run, degrees]
    by_cases last : d w - 1 = 0
    · have out : w ∉ new := by
        rw [entered, Function.update_self]
        omega
      refine ⟨w :: new, by rw [if_pos last, List.append_assoc]; rfl, List.nodup_cons.2 ⟨out, nodup⟩, ?_⟩
      intro v
      by_cases h : v = w
      · subst h
        simp only [List.mem_cons, true_or, List.count_cons_self, true_iff]
        push_cast
        omega
      · rw [List.mem_cons, or_iff_right h, entered, Function.update_of_ne h,
          List.count_cons_of_ne (Ne.symm h)]
    · refine ⟨new, by rw [if_neg last], nodup, fun v => ?_⟩
      rw [entered]
      by_cases h : v = w
      · subst h
        rw [Function.update_self, List.count_cons_self]
        push_cast
        omega
      · rw [Function.update_of_ne h, List.count_cons_of_ne (Ne.symm h)]

variable {succ} in
/-- Counting up along a list adds the counts. -/
theorem foldl_increment (l : List V) (d : V → Int) :
    l.foldl (fun d v => Function.update d v (d v + 1)) d = fun v => d v + l.count v := by
  induction l generalizing d with
  | nil => simp
  | cons w l ih =>
    rw [List.foldl_cons, ih]
    funext v
    by_cases h : v = w
    · subst h
      rw [Function.update_self, List.count_cons_self]
      push_cast
      omega
    · rw [Function.update_of_ne h, List.count_cons_of_ne (Ne.symm h)]

/-- The in-degrees are the sums of the edges. -/
theorem foldl_indegrees (vertices : List V) (d : V → Int) (v : V) :
    vertices.foldl (fun d u => (succ u).foldl (fun d v => Function.update d v (d v + 1)) d) d v =
      d v + (vertices.map fun u => ((succ u).count v : Int)).sum := by
  induction vertices generalizing d with
  | nil => simp
  | cons u vertices ih =>
    rw [List.foldl_cons, ih, foldl_increment, List.map_cons, List.sum_cons, Int.add_assoc]

variable [Fintype V]

/-- The edges into `v` from vertices that are not taken. -/
def pending (order : List V) (v : V) : Int := ∑ u with u ∉ order, ((succ u).count v : Int)

variable {succ}

/-- No number of edges is negative. -/
theorem pending_nonneg (order : List V) (v : V) : 0 ≤ pending succ order v :=
  Finset.sum_nonneg fun _ _ => Int.natCast_nonneg _

/-- Nothing is pending when all vertices before are taken. -/
theorem pending_eq_zero {order : List V} {v : V} :
    pending succ order v = 0 ↔ ∀ u, Edge succ u v → u ∈ order := by
  rw [pending, Finset.sum_eq_zero_iff_of_nonneg fun _ _ => Int.natCast_nonneg _]
  simp only [Finset.mem_filter, Finset.mem_univ, true_and, Int.natCast_eq_zero, List.count_eq_zero, Edge]
  exact forall_congr' fun u => not_imp_not

/-- Taking a vertex takes its edges away. -/
theorem pending_snoc {order : List V} {u : V} (fresh : u ∉ order) (v : V) :
    pending succ (order ++ [u]) v = pending succ order v - (succ u).count v := by
  have split : (Finset.univ.filter fun w => w ∉ order) = insert u (Finset.univ.filter fun w => w ∉ order ++ [u]) := by
    ext w
    simp only [Finset.mem_filter, Finset.mem_univ, true_and, Finset.mem_insert, List.mem_append,
      List.mem_singleton, not_or]
    constructor
    · intro h
      exact (eq_or_ne w u).imp_right fun ne => ⟨h, ne⟩
    · rintro (rfl | h)
      · exact fresh
      · exact h.1
  rw [pending, pending, split, Finset.sum_insert (by simp)]
  omega

/-- The rounds keep count of the pending edges. -/
structure KahnAt (succ : V → List V) (s : KahnState V) : Prop where
  indegree : s.indegree = pending succ s.order
  nodup : (s.order ++ s.queue).Nodup
  released : ∀ v, v ∈ s.order ++ s.queue ↔ pending succ s.order v = 0
  sorted : TopoSorted succ s.order

/-- The start counts every edge. -/
theorem kahnAt_start {vertices : List V} (nodup : vertices.Nodup) (all : ∀ v, v ∈ vertices) :
    KahnAt succ (kahnStart succ vertices) := by
  have degrees : indegrees succ vertices = pending succ [] := by
    funext v
    have univ : vertices.toFinset = Finset.univ := Finset.eq_univ_iff_forall.2 fun v => List.mem_toFinset.2 (all v)
    rw [indegrees, foldl_indegrees, ← List.sum_toFinset _ nodup, univ, pending]
    simp
  constructor
  · exact degrees
  · exact nodup.filter _
  · intro v
    rw [kahnStart, List.nil_append, List.mem_filter, degrees]
    simp [all]
  · intro u v _ mem
    cases mem

/-- A round keeps count. -/
theorem KahnAt.step {s : KahnState V} (h : KahnAt succ s) : KahnAt succ (kahnStep succ s) := by
  rw [kahnStep]
  rcases s with ⟨indegree, _ | ⟨u, rest⟩, order⟩
  · exact h
  obtain ⟨degrees, nodup, released, sorted⟩ := h
  dsimp only at degrees nodup released sorted
  subst degrees
  obtain ⟨new, run, nodupNew, memNew⟩ := foldl_release (succ u) (pending succ order) rest
  have fresh : u ∉ order := fun mem => (List.nodup_append.1 nodup).2.2 u mem u List.mem_cons_self rfl
  have none : pending succ order u = 0 := (released u).1 (by simp)
  simp only [run]
  have shape : order ++ [u] ++ (rest ++ new) = (order ++ u :: rest) ++ new := by simp
  constructor
  · funext v
    exact (pending_snoc fresh v).symm
  · show (order ++ [u] ++ (rest ++ new)).Nodup
    rw [shape]
    refine List.nodup_append.2 ⟨nodup, nodupNew, ?_⟩
    rintro v old _ hnew rfl
    have := (released v).1 old
    have := (memNew v).1 hnew
    omega
  · intro v
    show v ∈ order ++ [u] ++ (rest ++ new) ↔ _
    have before : 0 ≤ pending succ order v := pending_nonneg order v
    have after : 0 ≤ pending succ (order ++ [u]) v := pending_nonneg (order ++ [u]) v
    rw [shape, List.mem_append, released, memNew, pending_snoc fresh]
    rw [pending_snoc fresh] at after
    omega
  · intro w v edge mem
    rcases List.mem_append.1 mem with old | last
    · obtain ⟨here, lt⟩ := sorted w v edge old
      rw [List.idxOf_append_of_mem here, List.idxOf_append_of_mem old]
      exact ⟨List.mem_append_left _ here, lt⟩
    · obtain rfl := List.mem_singleton.1 last
      have here := pending_eq_zero.1 none w edge
      rw [List.idxOf_append_of_mem here, List.idxOf_append_of_notMem fresh]
      exact ⟨List.mem_append_left _ here, Nat.lt_add_right _ (List.idxOf_lt_length_of_mem here)⟩

omit [Fintype V] in
/-- A round takes a vertex, unless the queue is empty. -/
theorem kahn_progress (vertices : List V) (k : Nat) :
    ((kahnStep succ)^[k] (kahnStart succ vertices)).queue = [] ∨
      ((kahnStep succ)^[k] (kahnStart succ vertices)).order.length = k := by
  induction k with
  | zero => exact .inr rfl
  | succ k ih =>
    rw [Function.iterate_succ_apply']
    generalize (kahnStep succ)^[k] (kahnStart succ vertices) = s at ih
    rcases s with ⟨indegree, _ | ⟨u, rest⟩, order⟩
    · exact .inl rfl
    · right
      have := ih.resolve_left (List.cons_ne_nil u rest)
      simp only [kahnStep, List.length_append, List.length_singleton]
      rw [this]

section Result

variable {vertices : List V} (nodup : vertices.Nodup) (all : ∀ v, v ∈ vertices)

include nodup all

/-- The count after any number of rounds. -/
theorem kahnAt_iterate (k : Nat) : KahnAt succ ((kahnStep succ)^[k] (kahnStart succ vertices)) := by
  induction k with
  | zero => exact kahnAt_start nodup all
  | succ k ih =>
    rw [Function.iterate_succ_apply']
    exact ih.step

/-- The count after as many rounds as there are vertices. -/
theorem kahnAt_kahn : KahnAt succ (kahn succ vertices) := kahnAt_iterate nodup all _

/-- The loop runs until its queue is empty. -/
theorem kahn_queue : (kahn succ vertices).queue = [] := by
  rcases @kahn_progress V _ succ vertices vertices.length with empty | full
  · exact empty
  · have at_end : KahnAt succ (kahn succ vertices) := kahnAt_kahn nodup all
    have inside := at_end.nodup.subperm fun v _ => all v
    have le := inside.length_le
    rw [List.length_append] at le
    exact List.length_eq_zero_iff.1 (by rw [kahn] at *; omega)

/-- A full order has every vertex once. -/
theorem kahn_order_perm (full : (kahn succ vertices).order.length = vertices.length) :
    (kahn succ vertices).order.Perm vertices := by
  have at_end : KahnAt succ (kahn succ vertices) := kahnAt_kahn nodup all
  have distinct := (List.nodup_append.1 at_end.nodup).1
  exact (distinct.subperm fun v _ => all v).perm_of_length_le full.ge

/-- **All vertices are taken if and only if there is no cycle.** -/
theorem kahn_full_iff : (kahn succ vertices).order.length = vertices.length ↔ ¬ Cyclic succ := by
  have at_end : KahnAt succ (kahn succ vertices) := kahnAt_kahn nodup all
  constructor
  · intro full
    apply at_end.sorted.not_cyclic
    intro v
    exact (kahn_order_perm nodup all full).symm.subset (all v)
  · intro acyclic
    by_contra short
    have out : ∃ v, v ∉ (kahn succ vertices).order := by
      by_contra none
      push Not at none
      have distinct := (List.nodup_append.1 at_end.nodup).1
      have one := (distinct.subperm fun v _ => all v).length_le
      have two := (nodup.subperm fun v _ => none v).length_le
      omega
    obtain ⟨v, hv⟩ := out
    refine acyclic (cyclic_of_pred (s := {w | w ∉ (kahn succ vertices).order}) hv ?_)
    intro w hw
    by_contra closed
    push Not at closed
    have := (at_end.released w).2 (pending_eq_zero.2 fun u edge => by
      by_contra hu
      exact closed u hu edge)
    rw [kahn_queue nodup all, List.append_nil] at this
    exact hw this

end Result

end Kahn

end MiniHardware.Lib
