import MiniHardware.Digital.Fsm
import MiniHardware.Lib.Bfs
import MiniHardware.Lib.Fill
import Mathlib.Data.List.Perm.Subperm

/-!
# Reachable states (`mini-digital-circuit/src/fsm.c`)

`fsm_reachable_states` searches breadth first over the list of transitions. A
read or a write outside `visited`, `queue` or the caller's `reachable` has no
result.
-/

namespace MiniHardware.Digital
open Lib

/-- The local arrays, and the caller's. -/
structure ReachState (maxStates : Nat) where
  visited : Vector Bool fsmMaxStates
  queue : Vector Nat fsmMaxStates
  qh : Nat
  qt : Nat
  reachable : Vector Nat maxStates
  cnt : Nat

section Model

variable {maxStates : Nat}

/-- The body of the loop over the transitions, for the state `s`. -/
def visitTransition (stateCount s : Nat) (r : ReachState maxStates) (t : FSMTransition) :
    Option (ReachState maxStates) :=
  if t.fromState = s then do
    let seen ← r.visited[t.toState]?
    if seen = false ∧ t.toState < stateCount then do
      let visited ← checkedSet r.visited t.toState true
      let queue ← checkedSet r.queue r.qt t.toState
      some { r with visited := visited, queue := queue, qt := r.qt + 1 }
    else some r
  else some r

/-- The `while` loop, for at most `fuel` rounds. -/
def reachLoop (fsm : FSM) : Nat → ReachState maxStates → Option (ReachState maxStates)
  | 0, _ => none
  | fuel + 1, r =>
    if r.qh < r.qt ∧ r.cnt < maxStates then do
      let s ← r.queue[r.qh]?
      let reachable ← checkedSet r.reachable r.cnt s
      let r ← fsm.transitions.foldlM (visitTransition fsm.stateCount s)
        { r with qh := r.qh + 1, reachable := reachable, cnt := r.cnt + 1 }
      reachLoop fsm fuel r
    else some r

/-- The array `reachable` after the call and the result. What `queue` holds at first is not
initialised. -/
def fsmReachableStates (fuel : Nat) (queue : Vector Nat fsmMaxStates) (fsm : FSM)
    (reachable : Vector Nat maxStates) : Option (Vector Nat maxStates × Nat) :=
  if fsm.stateCount = 0 then some (reachable, 0)
  else do
    let visited ← checkedSet (Vector.replicate fsmMaxStates false) fsm.currentState true
    let queue ← checkedSet queue 0 fsm.currentState
    let r ← reachLoop fsm fuel ⟨visited, queue, 0, 1, reachable, 0⟩
    return (r.reachable, r.cnt)

end Model

namespace FSM

/-- The states fit the arrays, and the indices are those of states. -/
structure Valid (fsm : FSM) : Prop where
  count_le : fsm.stateCount ≤ fsmMaxStates
  current : fsm.currentState < fsm.stateCount
  ends : ∀ t ∈ fsm.transitions, t.fromState < fsm.stateCount ∧ t.toState < fsm.stateCount

/-- Some transition leads from `s` to `t`. -/
def Leads (fsm : FSM) (s t : Nat) : Prop :=
  ∃ tr ∈ fsm.transitions, tr.fromState = s ∧ tr.toState = t

/-- The ends of the transitions from `s`. -/
def targets (transitions : List FSMTransition) (s : Nat) : List Nat :=
  (transitions.filter fun t => decide (t.fromState = s)).map FSMTransition.toState

theorem mem_targets {fsm : FSM} {s t : Nat} : t ∈ targets fsm.transitions s ↔ fsm.Leads s t := by
  simp [targets, Leads, and_assoc]

end FSM

/-! ## The arrays -/

section Arrays

variable {maxStates : Nat} {fsm : FSM}

/-- The queue holds the states found, and the marks are theirs. -/
structure ReachState.Holds (r : ReachState maxStates) (found : List Nat) : Prop where
  queue : found <+: r.queue.toList
  qt : r.qt = found.length
  visited : ∀ s (h : s < fsmMaxStates), r.visited[s] = decide (s ∈ found)

/-- Distinct states are not more than there are states. -/
theorem length_le_of_states {found : List Nat} {count : Nat} (nodup : found.Nodup) (inside : ∀ s ∈ found, s < count) :
    found.length ≤ count := by
  have sub := nodup.subperm fun s mem => List.mem_range.2 (inside s mem)
  simpa using sub.length_le

theorem visit_transition_spec {r : ReachState maxStates} {found : List Nat} (valid : fsm.Valid) {t : FSMTransition}
    (lt : t.toState < fsm.stateCount) (holds : r.Holds found) (nodup : found.Nodup)
    (inside : ∀ s ∈ found, s < fsm.stateCount) (s : Nat) :
    ∃ r', visitTransition fsm.stateCount s r t = some r' ∧
      r'.Holds (if t.fromState = s then pushNew found t.toState else found) ∧
      r'.qh = r.qh ∧ r'.reachable = r.reachable ∧ r'.cnt = r.cnt := by
  have lt_max : t.toState < fsmMaxStates := lt.trans_le valid.count_le
  rw [visitTransition]
  by_cases starts : t.fromState = s
  · rw [if_pos starts, if_pos starts, Vector.getElem?_eq_getElem lt_max, Option.bind_eq_bind, Option.bind_some,
      holds.visited _ lt_max, pushNew]
    by_cases old : t.toState ∈ found
    · rw [if_pos old, if_neg (by simp [old])]
      exact ⟨r, rfl, holds, rfl, rfl, rfl⟩
    · rw [if_neg old, if_pos (by simp [old, lt])]
      have room : found.length < fsmMaxStates := by
        have le := length_le_of_states (List.nodup_cons.2 ⟨old, nodup⟩) (List.forall_mem_cons.2 ⟨lt, inside⟩)
        exact le.trans valid.count_le
      obtain ⟨queue, push, starts⟩ := checkedSet_behind holds.queue room t.toState
      refine ⟨{ r with
        visited := r.visited.set t.toState true, queue := queue, qt := r.qt + 1 }, ?_, ?_, rfl, rfl, rfl⟩
      · rw [checkedSet, dif_pos lt_max, Option.bind_eq_bind, Option.bind_some, holds.qt, push]
        rfl
      · refine ⟨starts, by simp [holds.qt], fun k lt_k => ?_⟩
        rw [Vector.getElem_set, holds.visited k lt_k]
        by_cases same : t.toState = k
        · simp [same]
        · simp [same, Ne.symm same]
  · rw [if_neg starts, if_neg starts]
    exact ⟨r, rfl, holds, rfl, rfl, rfl⟩

/-- The loop over the transitions appends the states that are new. -/
theorem visit_all {r : ReachState maxStates} {found : List Nat} (valid : fsm.Valid) {l : List FSMTransition}
    (sub : l ⊆ fsm.transitions) (holds : r.Holds found) (nodup : found.Nodup)
    (inside : ∀ s ∈ found, s < fsm.stateCount) (s : Nat) :
    ∃ r', l.foldlM (visitTransition fsm.stateCount s) r = some r' ∧
      r'.Holds ((FSM.targets l s).foldl pushNew found) ∧
      r'.qh = r.qh ∧ r'.reachable = r.reachable ∧ r'.cnt = r.cnt := by
  induction l generalizing r found with
  | nil => exact ⟨r, rfl, holds, rfl, rfl, rfl⟩
  | cons t l ih =>
    rw [List.cons_subset] at sub
    have lt := (valid.ends t sub.1).2
    obtain ⟨r₁, run₁, holds₁, qh₁, reachable₁, cnt₁⟩ := visit_transition_spec valid lt holds nodup inside s
    have next : (FSM.targets (t :: l) s).foldl pushNew found =
        (FSM.targets l s).foldl pushNew (if t.fromState = s then pushNew found t.toState else found) := by
      by_cases starts : t.fromState = s
      · simp [FSM.targets, starts]
      · simp [FSM.targets, starts]
    have nodup₁ : (if t.fromState = s then pushNew found t.toState else found).Nodup := by
      split
      · exact pushNew_nodup nodup
      · exact nodup
    have inside₁ : ∀ k ∈ (if t.fromState = s then pushNew found t.toState else found), k < fsm.stateCount := by
      split
      · intro k mem
        rcases mem_pushNew.1 mem with old | rfl
        · exact inside k old
        · exact lt
      · exact inside
    obtain ⟨r', run, holds', qh, reachable, cnt⟩ := ih sub.2 holds₁ nodup₁ inside₁
    refine ⟨r', ?_, next ▸ holds', qh.trans qh₁, reachable.trans reachable₁, cnt.trans cnt₁⟩
    rw [List.foldlM_cons, run₁]
    exact run

end Arrays

/-! ## The search -/

section Search

variable {maxStates : Nat} {fsm : FSM}

/-- Between the rounds the states expanded stand in `reachable`. -/
structure Reaching (fsm : FSM) (r : ReachState maxStates) (found : List Nat) : Prop where
  holds : r.Holds found
  search : Search fsm.Leads fsm.currentState r.qh found
  cnt : r.cnt = r.qh
  reachable : found.take r.qh <+: r.reachable.toList
  inside : ∀ s ∈ found, s < fsm.stateCount

theorem Reaching.length_le {r : ReachState maxStates} {found : List Nat} (reaching : Reaching fsm r found) :
    found.length ≤ fsm.stateCount :=
  length_le_of_states reaching.search.nodup reaching.inside

/-- A round expands the next state. -/
theorem reach_round {r : ReachState maxStates} {found : List Nat} (valid : fsm.Valid)
    (room : fsm.stateCount ≤ maxStates) (reaching : Reaching fsm r found) (more : r.qh < found.length) (fuel : Nat) :
    ∃ r' found', reachLoop fsm (fuel + 1) r = reachLoop fsm fuel r' ∧ Reaching fsm r' found' ∧ r'.qh = r.qh + 1 := by
  have bound := reaching.length_le
  have count_le := valid.count_le
  have short : (found.take r.qh).length = r.qh := by
    rw [List.length_take]
    omega
  have head : r.queue[r.qh]? = some found[r.qh] := by
    rw [Vector.getElem?_eq_getElem (by omega), ← Vector.getElem_toList, reaching.holds.queue.getElem more]
  obtain ⟨reachable, write, starts⟩ := checkedSet_behind reaching.reachable (by omega) found[r.qh]
  rw [short] at write
  obtain ⟨r', run, holds, qh, same, cnt⟩ := visit_all (r := { r with
    qh := r.qh + 1, reachable := reachable, cnt := r.cnt + 1 }) valid (List.Subset.refl _)
    ⟨reaching.holds.queue, reaching.holds.qt, reaching.holds.visited⟩ reaching.search.nodup reaching.inside found[r.qh]
  have all : ∀ w, w ∈ FSM.targets fsm.transitions found[r.qh] ↔ fsm.Leads found[r.qh] w :=
    fun w => FSM.mem_targets
  have expanded := reaching.search.expand more all
  have grown := (foldl_pushNew found (FSM.targets fsm.transitions found[r.qh]) reaching.search.nodup).2
  refine ⟨r', _, ?_, ⟨holds, qh ▸ expanded, ?_, ?_, ?_⟩, qh⟩
  · rw [reaching.cnt] at run
    rw [reachLoop, if_pos ⟨by rw [reaching.holds.qt]; exact more, by rw [reaching.cnt]; omega⟩, head,
      Option.bind_eq_bind, Option.bind_some, reaching.cnt, write, Option.bind_eq_bind, Option.bind_some, run]
    rfl
  · rw [cnt, qh, reaching.cnt]
  · rw [qh, take_succ_of_starts grown more, same]
    exact starts
  · intro s mem
    rcases mem_foldl_pushNew.1 mem with old | new
    · exact reaching.inside s old
    · obtain ⟨t, listed, -, rfl⟩ := FSM.mem_targets.1 new
      exact (valid.ends t listed).2

theorem reach_loop_spec (valid : fsm.Valid) (room : fsm.stateCount ≤ maxStates) {fuel : Nat}
    {r : ReachState maxStates} {found : List Nat} (reaching : Reaching fsm r found)
    (enough : fsm.stateCount < fuel + r.qh) :
    ∃ r' found', reachLoop fsm fuel r = some r' ∧ Reaching fsm r' found' ∧ r'.qh = found'.length := by
  induction fuel generalizing r found with
  | zero =>
    have := reaching.length_le
    have := reaching.search.head_le
    omega
  | succ fuel ih =>
    by_cases more : r.qh < found.length
    · obtain ⟨r₁, found₁, run, reaching₁, qh⟩ := reach_round valid room reaching more fuel
      rw [run]
      exact ih reaching₁ (by omega)
    · have done : r.qh = found.length := le_antisymm reaching.search.head_le (Nat.not_lt.1 more)
      refine ⟨r, found, ?_, reaching, done⟩
      rw [reachLoop, if_neg (by rw [reaching.holds.qt]; exact fun h => more h.1)]

/-- **The states reached.** With room for all states the search ends and returns them, each once and
the current state first; no access is outside an array. -/
theorem fsm_reachable_states (valid : fsm.Valid) (room : fsm.stateCount ≤ maxStates)
    (queue : Vector Nat fsmMaxStates) (reachable : Vector Nat maxStates) {fuel : Nat}
    (enough : fsm.stateCount < fuel) :
    ∃ (reachable' : Vector Nat maxStates) (cnt : Nat),
      fsmReachableStates fuel queue fsm reachable = some (reachable', cnt) ∧ cnt ≤ fsm.stateCount ∧
      (reachable'.toList.take cnt).Nodup ∧ (reachable'.toList.take cnt).head? = some fsm.currentState ∧
      ∀ s, s ∈ reachable'.toList.take cnt ↔ Relation.ReflTransGen fsm.Leads fsm.currentState s := by
  have current := valid.current
  have lt_max : fsm.currentState < fsmMaxStates := current.trans_le valid.count_le
  have mark : checkedSet (Vector.replicate fsmMaxStates false) fsm.currentState true =
      some ((Vector.replicate fsmMaxStates false).set fsm.currentState true) := dif_pos lt_max
  obtain ⟨queue', first, starts⟩ := checkedSet_behind (List.nil_prefix (l := queue.toList)) (by decide) fsm.currentState
  rw [List.length_nil] at first
  have init : Reaching fsm ⟨(Vector.replicate fsmMaxStates false).set fsm.currentState true, queue', 0, 1, reachable, 0⟩
      [fsm.currentState] := by
    refine ⟨⟨starts, rfl, fun s lt => ?_⟩, Search.init _ _, rfl, List.nil_prefix, by simpa using current⟩
    rw [Vector.getElem_set]
    by_cases same : fsm.currentState = s
    · simp [same]
    · simp [same, Ne.symm same]
  obtain ⟨r, found, run, reaching, done⟩ := reach_loop_spec valid room init (by simpa using enough)
  have result : r.reachable.toList.take r.cnt = found := by
    have starts := reaching.reachable
    rw [done, List.take_length, List.prefix_iff_eq_take] at starts
    rw [reaching.cnt, done, ← starts]
  refine ⟨r.reachable, r.cnt, ?_, ?_, ?_⟩
  · rw [fsmReachableStates, if_neg (by omega), mark, Option.bind_eq_bind, Option.bind_some, first,
      Option.bind_eq_bind, Option.bind_some, run]
    rfl
  · rw [reaching.cnt, done]
    exact reaching.length_le
  · rw [result]
    have search := reaching.search
    rw [done] at search
    exact ⟨search.nodup, search.first, search.mem_iff⟩

end Search

/-- Three states, the last of which leads to the first and is not reached. -/
def deadState : FSM :=
  ⟨.moore, List.replicate 3 ⟨0, false, false, 0⟩, [⟨2, 0, 0, 0⟩, ⟨0, 0, 1, 0⟩, ⟨0, 1, 1, 0⟩], 0, 0⟩

theorem fsm_reachable_states_deadState :
    ((fsmReachableStates 4 (Vector.replicate _ 7) deadState (Vector.replicate 3 9)).map fun r =>
        (r.1.toList, r.2)) = some ([0, 1, 9], 2) ∧
      ∃ (reachable : Vector Nat 3) (cnt : Nat),
        fsmReachableStates 4 (Vector.replicate _ 7) deadState (Vector.replicate 3 9) = some (reachable, cnt) ∧
        cnt ≤ 3 ∧ (reachable.toList.take cnt).Nodup ∧ (reachable.toList.take cnt).head? = some 0 ∧
        ∀ s, s ∈ reachable.toList.take cnt ↔ Relation.ReflTransGen deadState.Leads 0 s :=
  ⟨by decide +kernel, fsm_reachable_states ⟨by decide, by decide, by decide⟩ (by decide) _ _ (by decide)⟩

end MiniHardware.Digital
