import MiniHardware.Lib.Digraph
import Mathlib.Data.List.Chain
import Mathlib.Order.Bounds.Basic

/-!
# Depths in a sorted graph

Over the vertices in a sorted order, each raises the depth of the vertices its
edges lead to above its own; the greatest depth is the number of edges of the
longest chain (`depths_greatest`).
-/

namespace MiniHardware.Lib

section Chains

variable {V : Type*} {succ : V → List V}

theorem chain_nodup (acyclic : ¬ Cyclic succ) {l : List V} (chain : l.IsChain (Edge succ)) : l.Nodup := by
  have ordered : l.Pairwise (Relation.TransGen (Edge succ)) :=
    List.isChain_iff_pairwise.1 (chain.imp fun _ _ edge => .single edge)
  refine ordered.imp ?_
  rintro u v path rfl
  exact acyclic ⟨u, path⟩

variable (succ) in
/-- A chain of `k` edges ends at `v`; `rest` leads back to its start. -/
def ChainTo (v : V) (k : Nat) : Prop :=
  ∃ rest : List V, rest.length = k ∧ (v :: rest).IsChain fun a b => Edge succ b a

theorem ChainTo.zero (v : V) : ChainTo succ v 0 := ⟨[], rfl, by simp⟩

theorem ChainTo.snoc {u v : V} {k : Nat} (chain : ChainTo succ u k) (edge : Edge succ u v) :
    ChainTo succ v (k + 1) := by
  obtain ⟨rest, rfl, chain⟩ := chain
  exact ⟨u :: rest, rfl, List.isChain_cons_cons.2 ⟨edge, chain⟩⟩

end Chains

/-! ## The rounds -/

section Rounds

variable {V : Type*} [DecidableEq V] (succ : V → List V)

/-- One edge from `u` to `v`: the depths and the greatest of them. -/
def deepen (u : V) (s : (V → Nat) × Nat) (v : V) : (V → Nat) × Nat :=
  if s.1 v < s.1 u + 1 then
    (Function.update s.1 v (s.1 u + 1), if s.1 u + 1 > s.2 then s.1 u + 1 else s.2)
  else s

def depthRound (s : (V → Nat) × Nat) (u : V) : (V → Nat) × Nat :=
  (succ u).foldl (deepen u) s

def depths (order : List V) : (V → Nat) × Nat :=
  order.foldl (depthRound succ) (fun _ => 0, 0)

/-- The depths are those of chains, and the greatest one is known. -/
structure Measured (s : (V → Nat) × Nat) : Prop where
  attained : ∀ v, ChainTo succ v (s.1 v)
  bounded : ∀ v, s.1 v ≤ s.2
  peak : s.2 = 0 ∨ ∃ v, ChainTo succ v s.2

variable {succ}

theorem deepen_measured {u v : V} {s : (V → Nat) × Nat} (edge : Edge succ u v) (h : Measured succ s) :
    Measured succ (deepen u s v) := by
  have chain := (h.attained u).snoc edge
  rw [deepen]
  split
  · refine ⟨fun w => ?_, fun w => ?_, ?_⟩
    · by_cases same : w = v
      · subst same
        simpa using chain
      · simpa [same] using h.attained w
    · have := h.bounded w
      by_cases same : w = v
      · subst same
        simp only [Function.update_self]
        split <;> omega
      · simp only [Function.update_of_ne same]
        split <;> omega
    · dsimp only
      split
      · exact .inr ⟨v, chain⟩
      · exact h.peak
  · exact h

theorem deepen_le (u : V) (s : (V → Nat) × Nat) (v w : V) : s.1 w ≤ (deepen u s v).1 w := by
  rw [deepen]
  split
  · by_cases same : w = v
    · subst same
      simp only [Function.update_self]
      omega
    · simp [same]
  · exact le_rfl

theorem deepen_other (u : V) (s : (V → Nat) × Nat) {v w : V} (ne : w ≠ v) : (deepen u s v).1 w = s.1 w := by
  rw [deepen]
  split
  · exact Function.update_of_ne ne _ _
  · rfl

theorem deepen_self (u : V) (s : (V → Nat) × Nat) (v : V) : s.1 u + 1 ≤ (deepen u s v).1 v := by
  rw [deepen]
  split
  · simp
  · omega

/-- The edges out of one vertex. -/
theorem foldl_deepen {u : V} {l : List V} (edges : ∀ v ∈ l, Edge succ u v) (self : u ∉ l)
    {s : (V → Nat) × Nat} (h : Measured succ s) :
    Measured succ (l.foldl (deepen u) s) ∧ (∀ w, s.1 w ≤ (l.foldl (deepen u) s).1 w) ∧
      (∀ w, w ∉ l → (l.foldl (deepen u) s).1 w = s.1 w) ∧
      ∀ v ∈ l, s.1 u + 1 ≤ (l.foldl (deepen u) s).1 v := by
  induction l generalizing s with
  | nil => exact ⟨h, fun w => le_rfl, fun w _ => rfl, by simp⟩
  | cons v l ih =>
    rw [List.mem_cons, not_or] at self
    rw [List.forall_mem_cons] at edges
    obtain ⟨measured, up, other, carried⟩ := ih edges.2 self.2 (deepen_measured edges.1 h)
    rw [deepen_other u s self.1] at carried
    refine ⟨measured, fun w => (deepen_le u s v w).trans (up w), fun w out => ?_, ?_⟩
    · rw [List.mem_cons, not_or] at out
      exact (other w out.2).trans (deepen_other u s out.1)
    · rw [List.forall_mem_cons]
      exact ⟨(deepen_self u s v).trans (up v), carried⟩

/-- Each edge out of a vertex that was taken leads to a greater depth. -/
def Carried (succ : V → List V) (done : List V) (s : (V → Nat) × Nat) : Prop :=
  ∀ u ∈ done, ∀ v, Edge succ u v → s.1 u + 1 ≤ s.1 v

theorem depthRound_spec {done : List V} {u : V} {s : (V → Nat) × Nat} (back : ∀ w ∈ done, ¬ Edge succ u w)
    (self : ¬ Edge succ u u) (h : Measured succ s) (carried : Carried succ done s) :
    Measured succ (depthRound succ s u) ∧ Carried succ (done ++ [u]) (depthRound succ s u) := by
  obtain ⟨measured, up, other, raised⟩ := foldl_deepen (fun _ mem => mem) self h
  refine ⟨measured, fun w mem v edge => ?_⟩
  rcases List.mem_append.1 mem with old | last
  · rw [depthRound, other w (back w old)]
    exact (carried w old v edge).trans (up v)
  · obtain rfl := List.mem_singleton.1 last
    rw [depthRound, other w self]
    exact raised v edge

theorem depths_spec {order : List V} (nodup : order.Nodup) (sorted : TopoSorted succ order) :
    Measured succ (depths succ order) ∧ Carried succ order (depths succ order) := by
  have rounds : ∀ rest done s, done ++ rest = order → Measured succ s → Carried succ done s →
      Measured succ (rest.foldl (depthRound succ) s) ∧ Carried succ order (rest.foldl (depthRound succ) s) := by
    intro rest
    induction rest with
    | nil =>
      intro done s whole measured carried
      rw [List.append_nil] at whole
      exact ⟨measured, whole ▸ carried⟩
    | cons u rest ih =>
      intro done s whole measured carried
      have back : ∀ w ∈ done, ¬ Edge succ u w := fun w mem =>
        TopoSorted.not_edge_back (whole ▸ nodup) (whole ▸ sorted) mem
      have self : ¬ Edge succ u u := fun edge =>
        lt_irrefl _ (sorted u u edge (whole ▸ List.mem_append_right _ List.mem_cons_self)).2
      obtain ⟨measured', carried'⟩ := depthRound_spec back self measured carried
      exact ih (done ++ [u]) _ (by simpa using whole) measured' carried'
  refine rounds order [] _ rfl ⟨ChainTo.zero, fun _ => le_rfl, .inl rfl⟩ ?_
  intro u mem
  cases mem

/-- **The greatest depth** is the number of edges of the longest chain. -/
theorem depths_greatest {order : List V} (nodup : order.Nodup) (all : ∀ v, v ∈ order)
    (sorted : TopoSorted succ order) :
    IsGreatest {k | ∃ chain : List V, chain.IsChain (Edge succ) ∧ k = chain.length - 1}
      (depths succ order).2 := by
  obtain ⟨measured, carried⟩ := depths_spec nodup sorted
  constructor
  · rcases measured.peak with zero | ⟨v, rest, length, chain⟩
    · exact ⟨[], by simp, zero⟩
    · exact ⟨(v :: rest).reverse, List.isChain_reverse.2 chain, by simp [length]⟩
  · have deep : ∀ (rest : List V) v, (v :: rest).IsChain (fun a b => Edge succ b a) →
        rest.length ≤ (depths succ order).1 v := by
      intro rest
      induction rest with
      | nil => exact fun v _ => Nat.zero_le _
      | cons u rest ih =>
        intro v chain
        rw [List.isChain_cons_cons] at chain
        have := ih u chain.2
        have := carried u (all u) v chain.1
        simp only [List.length_cons]
        omega
    rintro k ⟨chain, edges, rfl⟩
    rw [← List.length_reverse]
    rw [← List.reverse_reverse chain, List.isChain_reverse] at edges
    cases reversed : chain.reverse with
    | nil => exact Nat.zero_le _
    | cons v rest =>
      rw [reversed] at edges
      exact (deep rest v edges).trans (measured.bounded v)

end Rounds

end MiniHardware.Lib
