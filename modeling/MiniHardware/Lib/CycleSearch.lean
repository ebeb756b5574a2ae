import MiniHardware.Lib.Digraph

/-!
# The search for a cycle

Depth first, with the recursion stack marked: an edge back to a vertex on the
stack closes a cycle, and no cycle goes through a vertex that the search has
left (`SearchInv`). So it reports a cycle if and only if there is one
(`isCyclic_eq`).
-/

namespace MiniHardware.Lib

section Search

variable {V : Type*} [DecidableEq V]

/-- The vertices visited, and those on the recursion stack. -/
structure SearchState (V : Type*) where
  vis : V → Bool
  onStack : V → Bool

/-- The loop over the edges out of a vertex: a vertex on the stack closes a cycle. -/
def searchFrom (visit : V → SearchState V → Option (Bool × SearchState V)) :
    List V → SearchState V → Option (Bool × SearchState V)
  | [], s => some (false, s)
  | v :: vs, s =>
    if s.vis v = false then
      (visit v s).bind fun r => if r.1 then some r else searchFrom visit vs r.2
    else if s.onStack v then some (true, s)
    else searchFrom visit vs s

variable (succ : V → List V)

/-- `none` stands for a recursion deeper than `fuel`. -/
def dfsCycle : Nat → V → SearchState V → Option (Bool × SearchState V)
  | 0, _, _ => none
  | fuel + 1, u, s =>
    (searchFrom (dfsCycle fuel) (succ u)
      ⟨Function.update s.vis u true, Function.update s.onStack u true⟩).bind fun r =>
        some (if r.1 then r else (false, ⟨r.2.vis, Function.update r.2.onStack u false⟩))

/-- The loop over the vertices. -/
def searchAll (visit : V → SearchState V → Option (Bool × SearchState V)) :
    List V → SearchState V → Option Bool
  | [], _ => some false
  | v :: vs, s =>
    if s.vis v = false then
      (visit v s).bind fun r => if r.1 then some true else searchAll visit vs r.2
    else searchAll visit vs s

/-- The recursion is never deeper than the number of vertices (`isCyclic_eq`). -/
def isCyclic (vertices : List V) : Option Bool :=
  searchAll (dfsCycle succ vertices.length) vertices ⟨fun _ => false, fun _ => false⟩

/-- The search has left `v`. -/
def SearchState.Done (s : SearchState V) (v : V) : Prop := s.vis v = true ∧ s.onStack v = false

variable {succ}

/-- No cycle goes through a vertex that the search has left. -/
structure SearchInv (succ : V → List V) (s : SearchState V) : Prop where
  stack : ∀ v, s.onStack v = true → s.vis v = true
  closed : ∀ u v, s.Done u → Edge succ u v → s.Done v
  acyclic : ∀ v, s.Done v → ¬ Relation.TransGen (Edge succ) v v

/-- The result of a search below the vertices `vs`. -/
def SearchPost (succ : V → List V) (s : SearchState V) (vs : List V) (r : Bool × SearchState V) : Prop :=
  if r.1 then Cyclic succ
  else SearchInv succ r.2 ∧ r.2.onStack = s.onStack ∧ (∀ v, s.vis v = true → r.2.vis v = true) ∧
    ∀ v ∈ vs, r.2.Done v

/-- Every vertex on the stack leads to `u`. -/
def StackTo (succ : V → List V) (s : SearchState V) (u : V) : Prop :=
  ∀ v, s.onStack v = true → Relation.ReflTransGen (Edge succ) v u

omit [DecidableEq V] in
theorem SearchInv.reach {s : SearchState V} (h : SearchInv succ s) {u v : V} (done : s.Done u)
    (path : Relation.ReflTransGen (Edge succ) u v) : s.Done v := by
  induction path with
  | refl => exact done
  | tail _ edge ih => exact h.closed _ _ ih edge

section Enter

variable {s : SearchState V} {u : V} (h : SearchInv succ s) (new : s.vis u = false)

include h new

omit [DecidableEq V] in
theorem SearchInv.off_stack : s.onStack u = false := by
  by_contra on
  rw [h.stack u (by simpa using on)] at new
  cases new

/-- Entering a new vertex. -/
theorem SearchInv.enter :
    SearchInv succ ⟨Function.update s.vis u true, Function.update s.onStack u true⟩ := by
  have done : ∀ v, SearchState.Done ⟨Function.update s.vis u true, Function.update s.onStack u true⟩ v ↔
      s.Done v := by
    intro v
    by_cases same : v = u
    · subst same
      simp [SearchState.Done, new]
    · simp [SearchState.Done, Function.update_of_ne same]
  constructor
  · intro v on
    by_cases same : v = u
    · subst same
      exact Function.update_self _ _ _
    · simp only [Function.update_of_ne same] at on ⊢
      exact h.stack v on
  · intro v w hv edge
    exact (done w).2 (h.closed v w ((done v).1 hv) edge)
  · intro v hv
    exact h.acyclic v ((done v).1 hv)

/-- Leaving it, when the vertices behind its edges have been left. -/
theorem SearchInv.leave {t : SearchState V} (inv : SearchInv succ t)
    (stack : t.onStack = Function.update s.onStack u true)
    (vis : ∀ v, Function.update s.vis u true v = true → t.vis v = true)
    (behind : ∀ v ∈ succ u, t.Done v) :
    SearchPost succ s [u] (false, ⟨t.vis, Function.update t.onStack u false⟩) := by
  have here : t.onStack u = true := by rw [stack, Function.update_self]
  have seen : t.vis u = true := vis u (Function.update_self _ _ _)
  have done : ∀ v, SearchState.Done ⟨t.vis, Function.update t.onStack u false⟩ v ↔ t.Done v ∨ v = u := by
    intro v
    by_cases same : v = u
    · subst same
      simp [SearchState.Done, seen]
    · simp [SearchState.Done, same]
  rw [SearchPost, if_neg Bool.false_ne_true]
  refine ⟨⟨?_, ?_, ?_⟩, ?_, ?_, ?_⟩
  · intro v on
    by_cases same : v = u
    · rw [same]
      exact seen
    · exact inv.stack v (by simpa [Function.update_of_ne same] using on)
  · intro v w hv edge
    rw [done] at hv ⊢
    rcases hv with hv | rfl
    · exact .inl (inv.closed v w hv edge)
    · exact .inl (behind w edge)
  · intro v hv loop
    rcases (done v).1 hv with hv | rfl
    · exact inv.acyclic v hv loop
    · -- the first vertex of the cycle has been left, so all of them have
      obtain ⟨w, edge, path⟩ := Relation.TransGen.head'_iff.1 loop
      have := (inv.reach (behind w edge) path).2
      rw [here] at this
      cases this
  · funext v
    by_cases same : v = u
    · subst same
      exact (Function.update_self _ _ _).trans (h.off_stack new).symm
    · refine (Function.update_of_ne same _ _).trans ?_
      rw [stack, Function.update_of_ne same]
  · intro v old
    apply vis v
    by_cases same : v = u
    · rw [same, Function.update_self]
    · rwa [Function.update_of_ne same]
  · intro v mem
    exact (done v).2 (.inr (List.mem_singleton.1 mem))

end Enter

/-! ## The recursion -/

section Recursion

variable [Fintype V]

/-- The number of vertices that are still to be visited. -/
def unvisited (s : SearchState V) : Nat := (Finset.univ.filter fun v => s.vis v = false).card

omit [DecidableEq V] in
theorem unvisited_mono {s t : SearchState V} (vis : ∀ v, s.vis v = true → t.vis v = true) :
    unvisited t ≤ unvisited s := by
  apply Finset.card_le_card
  intro v hv
  rw [Finset.mem_filter] at hv ⊢
  refine ⟨hv.1, ?_⟩
  by_contra seen
  rw [vis v (by simpa using seen)] at hv
  cases hv.2

theorem unvisited_enter {s : SearchState V} {u : V} (new : s.vis u = false) (on : V → Bool) :
    unvisited ⟨Function.update s.vis u true, on⟩ < unvisited s := by
  apply Finset.card_lt_card
  refine Finset.ssubset_iff_of_subset ?_ |>.2 ⟨u, by simp [new], by simp⟩
  intro v hv
  rw [Finset.mem_filter] at hv ⊢
  refine ⟨hv.1, ?_⟩
  by_cases same : v = u
  · rw [same, new]
  · simpa [Function.update_of_ne same] using hv.2

omit [DecidableEq V] [Fintype V] in
theorem SearchPost.cons {s t : SearchState V} {v : V} {vs : List V} {r : Bool × SearchState V}
    (post : SearchPost succ t vs r) (stack : t.onStack = s.onStack)
    (vis : ∀ w, s.vis w = true → t.vis w = true) (left : t.Done v) : SearchPost succ s (v :: vs) r := by
  rw [SearchPost] at post ⊢
  by_cases found : r.1 = true
  · rw [if_pos found] at post ⊢
    exact post
  · rw [if_neg found] at post ⊢
    obtain ⟨inv, stackR, visR, doneR⟩ := post
    refine ⟨inv, stackR.trans stack, fun w seen => visR w (vis w seen), ?_⟩
    intro w hw
    rcases List.mem_cons.1 hw with rfl | hw
    · refine ⟨visR w left.1, ?_⟩
      rw [stackR]
      exact left.2
    · exact doneR w hw

/-- A search below one vertex, with enough fuel. -/
def VisitSpec (succ : V → List V) (fuel : Nat) (visit : V → SearchState V → Option (Bool × SearchState V)) : Prop :=
  ∀ u s, SearchInv succ s → s.vis u = false → StackTo succ s u → unvisited s ≤ fuel →
    ∃ r, visit u s = some r ∧ SearchPost succ s [u] r

omit [DecidableEq V] in
/-- The loop over the edges out of `u`. -/
theorem searchFrom_spec {fuel : Nat} {visit : V → SearchState V → Option (Bool × SearchState V)}
    (spec : VisitSpec succ fuel visit) {u : V} (vs : List V) (edges : ∀ v ∈ vs, Edge succ u v)
    (s : SearchState V) (inv : SearchInv succ s) (path : StackTo succ s u)
    (room : unvisited s ≤ fuel) :
    ∃ r, searchFrom visit vs s = some r ∧ SearchPost succ s vs r := by
  induction vs generalizing s with
  | nil => exact ⟨_, rfl, by simp [SearchPost, inv]⟩
  | cons v vs ih =>
    have edge := edges v List.mem_cons_self
    have rest := fun w hw => edges w (List.mem_cons_of_mem v hw)
    rw [searchFrom]
    by_cases new : s.vis v = false
    · have pathV : StackTo succ s v := fun w on => (path w on).tail edge
      obtain ⟨⟨found, t⟩, run, post⟩ := spec v s inv new pathV room
      rw [if_pos new, run, Option.bind_some]
      cases found with
      | true => exact ⟨_, rfl, post⟩
      | false =>
        obtain ⟨invT, stackT, visT, doneT⟩ := post
        dsimp only at invT stackT visT doneT
        obtain ⟨r, run', post'⟩ := ih rest t invT (fun w on => path w (by rwa [stackT] at on))
          ((unvisited_mono visT).trans room)
        exact ⟨r, run', post'.cons stackT visT (doneT v (List.mem_singleton_self v))⟩
    · have seen : s.vis v = true := by simpa using new
      rw [if_neg new]
      by_cases on : s.onStack v = true
      · refine ⟨_, if_pos on, ?_⟩
        rw [SearchPost, if_pos rfl]
        exact ⟨v, Relation.TransGen.tail' (path v on) edge⟩
      · obtain ⟨r, run, post⟩ := ih rest s inv path room
        have left : s.Done v := ⟨seen, by simpa using on⟩
        exact ⟨r, by rw [if_neg on, run], post.cons rfl (fun _ h => h) left⟩

theorem dfsCycle_spec (fuel : Nat) : VisitSpec succ fuel (dfsCycle succ fuel) := by
  induction fuel with
  | zero =>
    intro u s _ new _ room
    have := unvisited_enter new s.onStack
    omega
  | succ fuel ih =>
    intro u s inv new path room
    have inside := unvisited_enter new (Function.update s.onStack u true)
    have pathU : StackTo succ ⟨Function.update s.vis u true, Function.update s.onStack u true⟩ u := by
      intro v on
      by_cases same : v = u
      · rw [same]
      · exact path v (by simpa [Function.update_of_ne same] using on)
    obtain ⟨⟨found, t⟩, run, post⟩ := searchFrom_spec ih (succ u) (fun _ edge => edge) _ (inv.enter new) pathU
      (by omega)
    rw [dfsCycle, run, Option.bind_some]
    cases found with
    | true => exact ⟨_, rfl, post⟩
    | false =>
      obtain ⟨invT, stackT, visT, doneT⟩ := post
      exact ⟨_, rfl, inv.leave new invT stackT visT doneT⟩

omit [DecidableEq V] in
/-- The loop over the vertices, with an empty stack. -/
theorem searchAll_spec {fuel : Nat} {visit : V → SearchState V → Option (Bool × SearchState V)}
    (spec : VisitSpec succ fuel visit) (vs : List V) (s : SearchState V) (inv : SearchInv succ s)
    (empty : ∀ v, s.onStack v = false) (room : unvisited s ≤ fuel) :
    ∃ b, searchAll visit vs s = some b ∧ (b = true → Cyclic succ) ∧
      (b = false → ∃ t, SearchInv succ t ∧ (∀ v, s.Done v → t.Done v) ∧ ∀ v ∈ vs, t.Done v) := by
  induction vs generalizing s with
  | nil => exact ⟨false, rfl, by simp, fun _ => ⟨s, inv, fun _ h => h, by simp⟩⟩
  | cons v vs ih =>
    rw [searchAll]
    by_cases new : s.vis v = false
    · obtain ⟨⟨found, t⟩, run, post⟩ := spec v s inv new (fun w on => by rw [empty] at on; cases on) room
      rw [if_pos new, run, Option.bind_some]
      cases found with
      | true => exact ⟨true, rfl, fun _ => post, by simp⟩
      | false =>
        obtain ⟨invT, stackT, visT, doneT⟩ := post
        dsimp only at invT stackT visT doneT
        have emptyT : ∀ w, t.onStack w = false := fun w => by rw [stackT, empty]
        obtain ⟨b, run', found', left⟩ := ih t invT emptyT ((unvisited_mono visT).trans room)
        refine ⟨b, run', found', fun none => ?_⟩
        obtain ⟨r, invR, keep, doneR⟩ := left none
        refine ⟨r, invR, fun w hw => keep w ⟨visT w hw.1, emptyT w⟩, ?_⟩
        intro w hw
        rcases List.mem_cons.1 hw with rfl | hw
        · exact keep w (doneT w (List.mem_singleton_self w))
        · exact doneR w hw
    · obtain ⟨b, run, found, left⟩ := ih s inv empty room
      refine ⟨b, by rw [if_neg new, run], found, fun none => ?_⟩
      obtain ⟨r, invR, keep, doneR⟩ := left none
      refine ⟨r, invR, keep, ?_⟩
      intro w hw
      rcases List.mem_cons.1 hw with rfl | hw
      · exact keep w ⟨by simpa using new, empty w⟩
      · exact doneR w hw

/-- **The search ends, and finds a cycle if and only if there is one.** -/
theorem isCyclic_eq {vertices : List V} (nodup : vertices.Nodup) (all : ∀ v, v ∈ vertices) :
    ∃ b, isCyclic succ vertices = some b ∧ (b = true ↔ Cyclic succ) := by
  have start : SearchInv succ ⟨fun _ => false, fun _ => false⟩ := by
    constructor
    · intro v on
      cases on
    · intro u v done _
      cases done.1
    · intro v done
      cases done.1
  have room : unvisited (⟨fun _ => false, fun _ => false⟩ : SearchState V) ≤ vertices.length := by
    rw [← List.toFinset_card_of_nodup nodup]
    exact Finset.card_le_card fun v _ => List.mem_toFinset.2 (all v)
  obtain ⟨b, run, found, left⟩ := searchAll_spec (dfsCycle_spec _) vertices _ start (fun _ => rfl) room
  refine ⟨b, run, found, fun ⟨v, loop⟩ => ?_⟩
  by_contra none
  obtain ⟨t, inv, _, done⟩ := left (by simpa using none)
  exact inv.acyclic v (done v (all v)) loop

end Recursion

end Search

end MiniHardware.Lib
