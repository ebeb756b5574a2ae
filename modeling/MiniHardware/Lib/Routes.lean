import Mathlib.Combinatorics.SimpleGraph.Metric

/-!
# Routes that a potential proves shortest

A route lists the nodes it passes. A potential that falls by one on every step of a route, and by at
most one on every edge, is the distance to its zero: a route that ends there is a shortest path.
-/

namespace MiniHardware.Lib

variable {V : Type*} {G : SimpleGraph V} {f : V → ℕ} {s c d : V} {path : List V}

/-- The list is a path from `s` to `d`, of neighbours, without repetition and as short as any. -/
structure ShortestRoute (G : SimpleGraph V) (s d : V) (path : List V) : Prop where
  starts : path.head? = some s
  ends : path.getLast? = some d
  neighbours : path.IsChain G.Adj
  nodup : path.Nodup
  shortest : path.length = G.dist s d + 1

/-- A route under way: it has come from `s` to `c`, and every step lowered the potential by one. -/
structure Descends (G : SimpleGraph V) (f : V → ℕ) (s c : V) (path : List V) : Prop where
  starts : path.head? = some s
  here : path.getLast? = some c
  neighbours : path.IsChain G.Adj
  spent : path.length + f c = f s + 1

theorem Descends.start (G : SimpleGraph V) (f : V → ℕ) (s : V) : Descends G f s s [s] :=
  ⟨rfl, rfl, List.isChain_singleton s, Nat.add_comm 1 (f s)⟩

theorem Descends.push (route : Descends G f s c path) (adj : G.Adj c d) (falls : f c = f d + 1) :
    Descends G f s d (path ++ [d]) := by
  have nonempty : path ≠ [] := by
    rintro rfl
    cases route.starts
  constructor
  · rw [List.head?_append_of_ne_nil _ nonempty, route.starts]
  · rw [List.getLast?_append_of_ne_nil _ (List.cons_ne_nil d []), List.getLast?_singleton]
  · rw [List.isChain_append]
    refine ⟨route.neighbours, List.isChain_singleton d, fun a last b first => ?_⟩
    rw [route.here] at last
    cases last
    cases first
    exact adj
  · have spent := route.spent
    rw [List.length_append, List.length_singleton]
    omega

/-- A potential that no edge lowers by more than one bounds the length of every walk. -/
theorem le_add_length (lipschitz : ∀ a b, G.Adj a b → f a ≤ f b + 1) (p : G.Walk s d) :
    f s ≤ f d + p.length := by
  induction p with
  | nil => exact Nat.le_add_right _ _
  | cons adj p ih =>
    have step := lipschitz _ _ adj
    rw [SimpleGraph.Walk.length_cons]
    omega

/-- A list of neighbours is the support of a walk. -/
theorem exists_walk (starts : path.head? = some s) (ends : path.getLast? = some d)
    (chain : path.IsChain G.Adj) : ∃ p : G.Walk s d, p.support = path := by
  have nonempty : path ≠ [] := by
    rintro rfl
    cases starts
  have first : path.head nonempty = s := Option.some.inj ((List.head?_eq_some_head nonempty).symm.trans starts)
  have last : path.getLast nonempty = d :=
    Option.some.inj ((List.getLast?_eq_some_getLast nonempty).symm.trans ends)
  exact ⟨(SimpleGraph.Walk.ofSupport path nonempty chain).copy first last, by
    rw [SimpleGraph.Walk.support_copy, SimpleGraph.Walk.support_ofSupport]⟩

/-- A route that comes down to zero, is shortest. -/
theorem Descends.shortest (route : Descends G f s d path) (zero : f d = 0)
    (lipschitz : ∀ a b, G.Adj a b → f a ≤ f b + 1) :
    ShortestRoute G s d path ∧ G.dist s d = f s := by
  obtain ⟨p, support⟩ := exists_walk route.starts route.here route.neighbours
  have length : p.length = f s := by
    have spent := route.spent
    have nodes := p.length_support
    rw [support] at nodes
    omega
  have dist : G.dist s d = f s := by
    apply Nat.le_antisymm
    · rw [← length]
      exact SimpleGraph.dist_le p
    · obtain ⟨q, least⟩ := p.reachable.exists_walk_length_eq_dist
      have bound := le_add_length lipschitz q
      omega
  have isPath : p.IsPath := p.isPath_of_length_eq_dist (length.trans dist.symm)
  refine ⟨⟨route.starts, route.here, route.neighbours, ?_, ?_⟩, dist⟩
  · rw [← support]
    exact isPath.support_nodup
  · have spent := route.spent
    omega

end MiniHardware.Lib
