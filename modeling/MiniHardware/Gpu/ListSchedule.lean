import MiniHardware.Lib.Index
import MiniHardware.Lib.ListScheduling
import MiniHardware.Lib.Trace
import Mathlib.Algebra.BigOperators.Fin
import Mathlib.Algebra.Order.Floor.Ring
import Mathlib.Data.Rat.Floor
import Mathlib.Tactic.FieldSimp

/-!
# List scheduling (`mini-gpu-arch/src/thread_sched.c`)

`list_schedule` gives each task, in the order of the list, to the SM that is
free first. An `int` is an `Int` (an `int` sum that overflows has no meaning
in C) and a `double` the rational number it stands for.
-/

namespace MiniHardware.Gpu
open Lib

structure SchedTask where
  taskId : Int
  duration : Int
  smId : Int
  startCycle : Int
  endCycle : Int
  scheduled : Bool
deriving DecidableEq

structure SchedResult where
  numTasks : Nat
  tasks : List SchedTask
  numSms : Int
  makespan : Int
  efficiency : ℚ
  lowerBound : ℚ

/-! ## The source -/

/-- The two accumulators `total_duration` and `max_duration`. -/
def addDuration (acc : Int × Int) (t : SchedTask) : Int × Int :=
  (acc.1 + t.duration, if t.duration > acc.2 then t.duration else acc.2)

def makespanLowerBound (tasks : List SchedTask) (numSms : Int) : ℚ :=
  if tasks.length = 0 ∨ numSms ≤ 0 then 0
  else
    match tasks.foldl addDuration (0, 0) with
    | (totalDuration, maxDuration) =>
      let avgBound : ℚ := totalDuration / numSms
      if avgBound > maxDuration then avgBound else maxDuration

section Sms

variable {n : Nat}

/-- The search for `best_sm` and `best_end`. -/
def bestSm (smEndTime : Vector Int (n + 1)) : Fin (n + 1) × Int :=
  ((List.finRange (n + 1)).drop 1).foldl
    (fun best s => if smEndTime.get s < best.2 then (s, smEndTime.get s) else best)
    (⟨0, n.succ_pos⟩, smEndTime.get ⟨0, n.succ_pos⟩)

/-- The body of the loop over the tasks; the state is `sm_end_time` and the tasks placed so far. -/
def placeTask (s : Vector Int (n + 1) × List SchedTask) (t : SchedTask) :
    Vector Int (n + 1) × List SchedTask :=
  match bestSm s.1 with
  | (best, bestEnd) =>
    let t := { t with
      smId := best.val, startCycle := bestEnd, endCycle := bestEnd + t.duration, scheduled := true }
    (s.1.set best t.endCycle, s.2 ++ [t])

def maxEnd (smEndTime : Vector Int (n + 1)) : Int :=
  (List.finRange (n + 1)).foldl
    (fun makespan s => if smEndTime.get s > makespan then smEndTime.get s else makespan) 0

end Sms

/-- `NULL` is `none`. -/
def listSchedule (tasks : List SchedTask) (numSms : Int) : Option SchedResult :=
  if tasks.length = 0 ∨ numSms ≤ 0 then none
  else
    match tasks.foldl placeTask (Vector.replicate (numSms.toNat - 1 + 1) 0, []) with
    | (smEndTime, placed) =>
      let makespan := maxEnd smEndTime
      let totalWork := (placed.map SchedTask.duration).sum
      some
        { numTasks := tasks.length
          tasks := placed
          numSms := numSms
          makespan := makespan
          efficiency := if numSms * makespan > 0 then totalWork / (numSms * makespan) else 0
          lowerBound := makespanLowerBound tasks numSms }

/-! ## The two searches -/

section Sms

variable {n : Nat}

theorem best_sm_spec (smEndTime : Vector Int (n + 1)) :
    (bestSm smEndTime).2 = smEndTime.get (bestSm smEndTime).1 ∧
      ∀ k, (bestSm smEndTime).2 ≤ smEndTime.get k := by
  have scan := drop_finRange_foldl_invariant (m := 1) (n := n + 1)
    (f := fun best s => if smEndTime.get s < best.2 then (s, smEndTime.get s) else best)
    (s := (⟨0, n.succ_pos⟩, smEndTime.get ⟨0, n.succ_pos⟩))
    (motive := fun i best => best.2 = smEndTime.get best.1 ∧
      ∀ k : Fin (n + 1), k.val < i → best.2 ≤ smEndTime.get k) (by omega) ?_ ?_
  · exact ⟨scan.1, fun k => scan.2 k k.isLt⟩
  · refine ⟨rfl, fun k lt => ?_⟩
    obtain rfl : k = ⟨0, n.succ_pos⟩ := Fin.ext (Nat.lt_one_iff.1 lt)
    exact le_refl _
  · rintro s best - ⟨own, least⟩
    split
    · rename_i better
      refine ⟨rfl, fun k lt => ?_⟩
      rcases Nat.lt_succ_iff_lt_or_eq.1 lt with lt | eq
      · exact better.le.trans (least k lt)
      · rw [Fin.ext eq]
    · rename_i worse
      refine ⟨own, fun k lt => ?_⟩
      rcases Nat.lt_succ_iff_lt_or_eq.1 lt with lt | eq
      · exact least k lt
      · rw [Fin.ext eq]
        exact Int.not_lt.1 worse

theorem max_end_spec (smEndTime : Vector Int (n + 1)) :
    0 ≤ maxEnd smEndTime ∧ (∀ k, smEndTime.get k ≤ maxEnd smEndTime) ∧
      (maxEnd smEndTime = 0 ∨ ∃ k, maxEnd smEndTime = smEndTime.get k) := by
  have scan := finRange_foldl_invariant (n := n + 1)
    (f := fun makespan s => if smEndTime.get s > makespan then smEndTime.get s else makespan)
    (s := (0 : Int))
    (motive := fun i makespan => 0 ≤ makespan ∧
      (∀ k : Fin (n + 1), k.val < i → smEndTime.get k ≤ makespan) ∧
      (makespan = 0 ∨ ∃ k, makespan = smEndTime.get k)) ?_ ?_
  · exact ⟨scan.1, fun k => scan.2.1 k k.isLt, scan.2.2⟩
  · exact ⟨le_refl _, fun k lt => absurd lt (Nat.not_lt_zero _), Or.inl rfl⟩
  · rintro s makespan ⟨pos, above, attained⟩
    split
    · rename_i later
      refine ⟨pos.trans later.le, fun k lt => ?_, Or.inr ⟨s, rfl⟩⟩
      rcases Nat.lt_succ_iff_lt_or_eq.1 lt with lt | eq
      · exact (above k lt).trans later.le
      · rw [Fin.ext eq]
    · rename_i earlier
      refine ⟨pos, fun k lt => ?_, attained⟩
      rcases Nat.lt_succ_iff_lt_or_eq.1 lt with lt | eq
      · exact above k lt
      · rw [Fin.ext eq]
        exact Int.not_lt.1 earlier

end Sms

/-! ## The loop over the tasks -/

def totalWork (tasks : List SchedTask) : Int := (tasks.map SchedTask.duration).sum

def longest (tasks : List SchedTask) : Int := (tasks.map SchedTask.duration).foldl max 0

theorem total_work_snoc (tasks : List SchedTask) (t : SchedTask) :
    totalWork (tasks ++ [t]) = totalWork tasks + t.duration := by simp [totalWork]

theorem longest_snoc (tasks : List SchedTask) (t : SchedTask) :
    longest (tasks ++ [t]) = max (longest tasks) t.duration := by simp [longest]

/-- `placed` is a schedule of `tasks` on `numSms` SMs: the same tasks in the same order, each on
one SM, and what an SM runs later starts after what it runs before has ended. -/
structure Places (tasks placed : List SchedTask) (numSms : Int) : Prop where
  same : placed.map (fun t => (t.taskId, t.duration)) = tasks.map fun t => (t.taskId, t.duration)
  sm : ∀ t ∈ placed, 0 ≤ t.smId ∧ t.smId < numSms ∧ t.scheduled = true
  time : ∀ t ∈ placed, 0 ≤ t.startCycle ∧ t.endCycle = t.startCycle + t.duration
  apart : placed.Pairwise fun a b => a.smId = b.smId → a.endCycle ≤ b.startCycle

/-- The state of the loop after `tasks`. -/
structure Filled {n : Nat} (tasks : List SchedTask) (s : Vector Int (n + 1) × List SchedTask) : Prop where
  balanced : Balanced s.1.get (totalWork tasks) (longest tasks)
  free : ∀ k, 0 ≤ s.1.get k
  places : Places tasks s.2 (n + 1)
  ends : ∀ t ∈ s.2, ∀ k : Fin (n + 1), t.smId = k.val → t.endCycle ≤ s.1.get k
  attained : ∀ k, s.1.get k = 0 ∨ ∃ t ∈ s.2, t.endCycle = s.1.get k

theorem filled_init (n : Nat) : Filled (n := n) [] (Vector.replicate (n + 1) 0, []) := by
  have zero : (Vector.replicate (n + 1) (0 : Int)).get = fun _ => 0 := by
    funext k
    exact get_replicate 0 k
  constructor
  · dsimp only
    rw [zero]
    exact balanced_zero (n + 1)
  · intro k
    exact (congrFun zero k).ge
  · exact ⟨rfl, by simp, by simp, List.Pairwise.nil⟩
  · simp
  · intro k
    exact Or.inl (congrFun zero k)

theorem get_set_update {n : Nat} (v : Vector Int n) (i : Fin n) (x : Int) :
    (v.set i x i.isLt).get = Function.update v.get i x := by
  funext k
  rw [get_set, Function.update_apply]

theorem Filled.placeTask {n : Nat} {tasks : List SchedTask} {s : Vector Int (n + 1) × List SchedTask}
    (h : Filled tasks s) {t : SchedTask} (nonneg : 0 ≤ t.duration) :
    Filled (tasks ++ [t]) (placeTask s t) := by
  obtain ⟨own, least⟩ := best_sm_spec s.1
  unfold Gpu.placeTask
  generalize bestSm s.1 = best at own least
  obtain ⟨best, bestEnd⟩ := best
  dsimp only at own least ⊢
  subst own
  constructor
  · rw [get_set_update, total_work_snoc, longest_snoc]
    exact h.balanced.assign least nonneg
  · intro k
    rw [get_set_update]
    rcases eq_or_ne k best with rfl | ne
    · rw [Function.update_self]
      exact add_nonneg (h.free k) nonneg
    · rw [Function.update_of_ne ne]
      exact h.free k
  · constructor
    · rw [List.map_append, List.map_append, h.places.same]
      rfl
    · intro u hu
      rcases List.mem_append.1 hu with hu | hu
      · exact h.places.sm u hu
      · obtain rfl := List.mem_singleton.1 hu
        exact ⟨Int.natCast_nonneg _, Int.ofNat_lt.2 best.isLt, rfl⟩
    · intro u hu
      rcases List.mem_append.1 hu with hu | hu
      · exact h.places.time u hu
      · obtain rfl := List.mem_singleton.1 hu
        exact ⟨h.free best, rfl⟩
    · apply List.pairwise_append.2
      refine ⟨h.places.apart, List.pairwise_singleton _ _, fun a ha b hb eq => ?_⟩
      obtain rfl := List.mem_singleton.1 hb
      exact h.ends a ha best eq
  · intro u hu k sm
    rw [get_set_update]
    rcases List.mem_append.1 hu with hu | hu
    · have old := h.ends u hu k sm
      rcases eq_or_ne k best with rfl | ne
      · rw [Function.update_self]
        exact old.trans (le_add_of_nonneg_right nonneg)
      · rw [Function.update_of_ne ne]
        exact old
    · obtain rfl := List.mem_singleton.1 hu
      obtain rfl : best = k := Fin.ext (Int.ofNat_inj.1 sm)
      rw [Function.update_self]
  · intro k
    rw [get_set_update]
    rcases eq_or_ne k best with rfl | ne
    · refine Or.inr ⟨_, List.mem_append_right _ (List.mem_singleton_self _), ?_⟩
      rw [Function.update_self]
    · rw [Function.update_of_ne ne]
      rcases h.attained k with zero | ⟨u, hu, eq⟩
      · exact Or.inl zero
      · exact Or.inr ⟨u, List.mem_append_left _ hu, eq⟩

theorem filled_tasks {n : Nat} {tasks : List SchedTask} (nonneg : ∀ t ∈ tasks, 0 ≤ t.duration) :
    Filled tasks (tasks.foldl placeTask (Vector.replicate (n + 1) 0, [])) := by
  induction tasks using List.reverseRecOn with
  | nil => exact filled_init n
  | append_singleton tasks t ih =>
    rw [List.foldl_append]
    apply Filled.placeTask
    · exact ih fun u hu => nonneg u (List.mem_append_left _ hu)
    · exact nonneg t (List.mem_append_right _ (List.mem_singleton_self t))

/-! ## The bounds -/

theorem foldl_add_duration (tasks : List SchedTask) :
    tasks.foldl addDuration (0, 0) = (totalWork tasks, longest tasks) := by
  induction tasks using List.reverseRecOn with
  | nil => rfl
  | append_singleton tasks t ih =>
    rw [List.foldl_append, ih, total_work_snoc, longest_snoc]
    simp only [List.foldl_cons, List.foldl_nil, addDuration, Prod.mk.injEq, true_and]
    split
    · rename_i longer
      exact (max_eq_right longer.le).symm
    · rename_i shorter
      exact (max_eq_left (Int.not_lt.1 shorter)).symm

theorem longest_le {tasks : List SchedTask} {c : Int} (pos : 0 ≤ c)
    (le : ∀ t ∈ tasks, t.duration ≤ c) : longest tasks ≤ c := by
  induction tasks using List.reverseRecOn with
  | nil => exact pos
  | append_singleton tasks t ih =>
    rw [longest_snoc]
    apply max_le
    · exact ih fun u hu => le u (List.mem_append_left _ hu)
    · exact le t (List.mem_append_right _ (List.mem_singleton_self t))

theorem total_work_eq_sum (tasks : List SchedTask) :
    totalWork tasks = ∑ i, (tasks.get i).duration := by
  rw [totalWork, ← Fin.sum_univ_fun_getElem tasks SchedTask.duration]
  rfl

/-- Tasks as jobs of an arbitrary schedule. -/
abbrev durations (tasks : List SchedTask) (i : Fin tasks.length) : ℤ := (tasks.get i).duration

/-- Any schedule is as long as the average load and the longest task. -/
theorem schedule_bounds {tasks : List SchedTask} {m : Nat} {S : Schedule m (durations tasks)} {c : ℤ}
    (some : tasks ≠ []) (nonneg : ∀ t ∈ tasks, 0 ≤ t.duration) (ends : S.EndsBy c) :
    totalWork tasks ≤ m * c ∧ longest tasks ≤ c := by
  have each : ∀ t ∈ tasks, t.duration ≤ c := by
    intro t ht
    obtain ⟨i, rfl⟩ := List.get_of_mem ht
    exact Schedule.duration_le ends i
  have pos : 0 ≤ c := by
    obtain ⟨t, ht⟩ := List.exists_mem_of_ne_nil tasks some
    exact (nonneg t ht).trans (each t ht)
  constructor
  · rw [total_work_eq_sum]
    exact Schedule.total_le pos ends fun i => nonneg _ (List.get_mem tasks i)
  · exact longest_le pos each

/-- The placed tasks are themselves such a schedule. -/
theorem Places.schedule {tasks placed : List SchedTask} {numSms c : Int}
    (h : Places tasks placed numSms) (ends : ∀ t ∈ placed, t.endCycle ≤ c) :
    ∃ S : Schedule numSms.toNat (durations tasks), S.EndsBy c := by
  have len : tasks.length = placed.length := by
    have := congrArg List.length h.same
    rw [List.length_map, List.length_map] at this
    exact this.symm
  let at_ : Fin tasks.length → SchedTask := fun i => placed.get (i.cast len)
  have mem : ∀ i, at_ i ∈ placed := fun i => List.get_mem placed _
  have same : ∀ i, (at_ i).startCycle + durations tasks i = (at_ i).endCycle := by
    intro i
    have eq : (placed.map fun t => (t.taskId, t.duration))[i.val]? =
        (tasks.map fun t => (t.taskId, t.duration))[i.val]? := by rw [h.same]
    rw [List.getElem?_map, List.getElem?_map, List.getElem?_eq_getElem i.isLt,
      List.getElem?_eq_getElem (len ▸ i.isLt)] at eq
    rw [(h.time _ (mem i)).2]
    exact congrArg (_ + ·) (Prod.mk.inj (Option.some.inj eq)).2.symm
  have sm : ∀ i, (at_ i).smId.toNat < numSms.toNat := by
    intro i
    obtain ⟨pos, lt, -⟩ := h.sm _ (mem i)
    omega
  refine ⟨⟨fun i => ⟨_, sm i⟩, fun i => (at_ i).startCycle, ?_, ?_⟩, ?_⟩
  · exact fun i => (h.time _ (mem i)).1
  · intro i j ne eq
    have posI := (h.sm _ (mem i)).1
    have posJ := (h.sm _ (mem j)).1
    have one : (at_ i).smId = (at_ j).smId := by
      have := Fin.val_eq_of_eq eq
      dsimp only at this
      omega
    rw [same, same]
    rcases Nat.lt_or_gt_of_ne (Fin.val_ne_of_ne ne) with lt | gt
    · exact Or.inl (List.pairwise_iff_get.1 h.apart _ _ lt one)
    · exact Or.inr (List.pairwise_iff_get.1 h.apart _ _ gt one.symm)
  · intro i
    dsimp only
    rw [same]
    exact ends _ (mem i)

theorem makespan_lower_bound_le {tasks : List SchedTask} {numSms c : Int} (sms : 1 ≤ numSms)
    (pos : 0 ≤ c) (avg : totalWork tasks ≤ numSms * c) (crit : longest tasks ≤ c) :
    makespanLowerBound tasks numSms ≤ c := by
  have posSms : (0 : ℚ) < numSms := by exact_mod_cast sms
  unfold makespanLowerBound
  split
  · exact_mod_cast pos
  · rw [foldl_add_duration]
    dsimp only
    split
    · rw [div_le_iff₀ posSms, mul_comm]
      exact_mod_cast avg
    · exact_mod_cast crit

/-- The result comes from a filled state. -/
theorem list_schedule_filled {tasks : List SchedTask} {n : Nat} (nonneg : ∀ t ∈ tasks, 0 ≤ t.duration)
    {r : SchedResult} (h : listSchedule tasks (n + 1 : ℕ) = some r) :
    ∃ s : Vector Int (n + 1) × List SchedTask, Filled tasks s ∧ tasks ≠ [] ∧ r.tasks = s.2 ∧
      r.makespan = maxEnd s.1 ∧ r.lowerBound = makespanLowerBound tasks (n + 1 : ℕ) := by
  refine ⟨_, filled_tasks nonneg, ?_⟩
  unfold listSchedule at h
  split at h
  · cases h
  · rename_i run
    obtain rfl := Option.some.inj h
    exact ⟨fun nil => run (Or.inl (congrArg List.length nil)), rfl, rfl, rfl⟩

theorem Filled.exists_maxEnd {tasks : List SchedTask} {n : Nat}
    {s : Vector Int (n + 1) × List SchedTask} (h : Filled tasks s) : ∃ k, maxEnd s.1 = s.1.get k := by
  obtain ⟨pos, above, zero | attained⟩ := max_end_spec s.1
  · -- all SMs are free from the beginning
    refine ⟨⟨0, n.succ_pos⟩, le_antisymm ?_ (above _)⟩
    rw [zero]
    exact h.free _
  · exact attained

/-- Every task ends by the makespan, one ends then. -/
theorem Filled.makespan {tasks : List SchedTask} {n : Nat} {s : Vector Int (n + 1) × List SchedTask}
    (h : Filled tasks s) (some : tasks ≠ []) (nonneg : ∀ t ∈ tasks, 0 ≤ t.duration) :
    (∀ t ∈ s.2, t.endCycle ≤ maxEnd s.1) ∧ ∃ t ∈ s.2, t.endCycle = maxEnd s.1 := by
  have ends : ∀ t ∈ s.2, t.endCycle ≤ maxEnd s.1 := by
    intro t ht
    obtain ⟨pos, lt, -⟩ := h.places.sm t ht
    have le := h.ends t ht ⟨t.smId.toNat, by omega⟩ (Int.toNat_of_nonneg pos).symm
    exact le.trans ((max_end_spec s.1).2.1 _)
  refine ⟨ends, ?_⟩
  obtain ⟨k, eq⟩ := h.exists_maxEnd
  rcases h.attained k with zero | ⟨t, ht, last⟩
  · -- then no task takes any time
    have len := congrArg List.length h.places.same
    rw [List.length_map, List.length_map] at len
    obtain ⟨t, ht⟩ := List.exists_mem_of_length_pos (len ▸ List.length_pos_iff.2 some)
    refine ⟨t, ht, le_antisymm (ends t ht) ?_⟩
    have mem : (t.taskId, t.duration) ∈ tasks.map fun t => (t.taskId, t.duration) :=
      h.places.same ▸ List.mem_map_of_mem ht
    obtain ⟨u, hu, same⟩ := List.mem_map.1 mem
    have dur := nonneg u hu
    rw [(Prod.mk.inj same).2] at dur
    obtain ⟨start, end_⟩ := h.places.time t ht
    rw [eq, zero, end_]
    exact add_nonneg start dur
  · exact ⟨t, ht, last.trans eq.symm⟩

/-- **Graham's bound.** Every task is placed on one SM, tasks of an SM do not overlap, and the
latest end is at most `2 - 1 / m` times that of any schedule. -/
theorem list_schedule_graham {tasks : List SchedTask} {numSms : Int} (sms : 1 ≤ numSms)
    (nonneg : ∀ t ∈ tasks, 0 ≤ t.duration) :
    (tasks ≠ [] → (listSchedule tasks numSms).isSome) ∧
    ∀ r, listSchedule tasks numSms = some r →
      Places tasks r.tasks numSms ∧
      (∀ t ∈ r.tasks, t.endCycle ≤ r.makespan) ∧ (∃ t ∈ r.tasks, t.endCycle = r.makespan) ∧
      max ⌈(totalWork tasks : ℚ) / numSms⌉ (longest tasks) ≤ r.makespan ∧
      r.lowerBound ≤ r.makespan ∧
      numSms * r.makespan ≤ totalWork tasks + (numSms - 1) * longest tasks ∧
      (∃ S : Schedule numSms.toNat (durations tasks), S.EndsBy r.makespan) ∧
      ∀ (S : Schedule numSms.toNat (durations tasks)) (c : ℤ), S.EndsBy c →
        (r.makespan : ℚ) ≤ (2 - 1 / numSms) * c := by
  obtain ⟨n, rfl⟩ : ∃ n : Nat, numSms = (n + 1 : ℕ) := ⟨(numSms - 1).toNat, by omega⟩
  constructor
  · intro some
    unfold listSchedule
    rw [if_neg]
    · rfl
    · rintro (nil | neg)
      · exact some (List.length_eq_zero_iff.1 nil)
      · omega
  · intro r result
    obtain ⟨s, filled, some, rTasks, rMakespan, rBound⟩ := list_schedule_filled nonneg result
    rw [rTasks, rMakespan, rBound]
    have pos := (max_end_spec s.1).1
    obtain ⟨k, latest⟩ := filled.exists_maxEnd
    obtain ⟨ends, last⟩ := filled.makespan some nonneg
    obtain ⟨S, own⟩ := filled.places.schedule ends
    obtain ⟨avg, crit⟩ := schedule_bounds some nonneg own
    have posSms : (0 : ℚ) < ((n + 1 : ℕ) : ℤ) := by exact_mod_cast sms
    refine ⟨filled.places, ends, last, max_le ?_ crit, makespan_lower_bound_le sms pos avg crit, ?_,
      ⟨S, own⟩, ?_⟩
    · rw [Int.ceil_le, div_le_iff₀ posSms, mul_comm]
      exact_mod_cast avg
    · rw [latest]
      exact filled.balanced.bound k
    · intro S' c ends'
      obtain ⟨avg', crit'⟩ := schedule_bounds some nonneg ends'
      have ratio := filled.balanced.ratio avg' crit' k
      rw [← latest] at ratio
      have ratio : (((n + 1 : ℕ) : ℤ) : ℚ) * maxEnd s.1 ≤ (2 * ((n + 1 : ℕ) : ℤ) - 1) * c := by
        exact_mod_cast ratio
      calc (maxEnd s.1 : ℚ)
          ≤ (2 * ((n + 1 : ℕ) : ℤ) - 1) * c / ((n + 1 : ℕ) : ℤ) := by
            rw [le_div_iff₀ posSms, mul_comm]
            exact ratio
        _ = (2 - 1 / ((n + 1 : ℕ) : ℤ)) * c := by field_simp

def unevenTasks : List SchedTask :=
  [⟨0, 1, 0, 0, 0, false⟩, ⟨1, 1, 0, 0, 0, false⟩, ⟨2, 2, 0, 0, 0, false⟩]

/-- The long task comes last, and both bounds are reached: two SMs need 3 cycles instead of 2. -/
theorem list_schedule_graham_tight :
    (listSchedule unevenTasks 2).map SchedResult.makespan = some 3 ∧
    ∀ r, listSchedule unevenTasks 2 = some r →
      2 * r.makespan ≤ totalWork unevenTasks + (2 - 1) * longest unevenTasks ∧
      totalWork unevenTasks + (2 - 1) * longest unevenTasks = 6 := by
  refine ⟨by decide, fun r h => ⟨?_, by decide⟩⟩
  obtain ⟨-, -, -, -, -, bound, -⟩ := (list_schedule_graham (by decide) (by decide)).2 r h
  exact bound

end MiniHardware.Gpu
