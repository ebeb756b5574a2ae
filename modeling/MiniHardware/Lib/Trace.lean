import Mathlib.Data.List.FinRange

/-!
# Runs of a step function

A component is a state, a type of operations and a step function. `run` is the
state after a list of operations. `Guarded` says that every operation of the
list meets a condition in the state it is applied to; `guarded_invariant`
turns a one-step preservation fact into one about every guarded run.
-/

namespace MiniHardware.Lib

universe u v

variable {σ : Type u} {ο : Type v}

/-- The state after the operations `ops`, applied in order. -/
def run (step : σ → ο → σ) (s : σ) (ops : List ο) : σ := ops.foldl step s

@[simp] theorem run_nil (step : σ → ο → σ) (s : σ) : run step s [] = s := rfl

@[simp] theorem run_cons (step : σ → ο → σ) (s : σ) (op : ο) (ops : List ο) :
    run step s (op :: ops) = run step (step s op) ops := rfl

theorem run_append (step : σ → ο → σ) (s : σ) (xs ys : List ο) :
    run step s (xs ++ ys) = run step (run step s xs) ys := List.foldl_append

theorem run_snoc (step : σ → ο → σ) (s : σ) (xs : List ο) (op : ο) :
    run step s (xs ++ [op]) = step (run step s xs) op := by
  rw [run_append]; rfl

/-- A run is undone by running back with steps that undo one step each, seen through `x`. -/
theorem run_reverse_undo {f g : σ → ο → σ} {x : σ → σ} (undo : ∀ s op, g (x (f s op)) op = x s)
    (s : σ) (ops : List ο) : run g (x (run f s ops)) ops.reverse = x s := by
  induction ops generalizing s with
  | nil => rfl
  | cons op ops ih => rw [run_cons, List.reverse_cons, run_snoc, ih, undo]

/-- Every operation of the run meets `ok` in the state it is applied to. -/
def Guarded (step : σ → ο → σ) (ok : σ → ο → Prop) : σ → List ο → Prop
  | _, [] => True
  | s, op :: ops => ok s op ∧ Guarded step ok (step s op) ops

instance guardedDecidable (step : σ → ο → σ) (ok : σ → ο → Prop) [∀ s op, Decidable (ok s op)] :
    ∀ s ops, Decidable (Guarded step ok s ops)
  | _, [] => inferInstanceAs (Decidable True)
  | s, op :: ops =>
    have := guardedDecidable step ok (step s op) ops
    inferInstanceAs (Decidable (ok s op ∧ Guarded step ok (step s op) ops))

theorem guarded_append {step : σ → ο → σ} {ok : σ → ο → Prop} {s : σ} {xs ys : List ο} :
    Guarded step ok s (xs ++ ys) ↔
      Guarded step ok s xs ∧ Guarded step ok (run step s xs) ys := by
  induction xs generalizing s with
  | nil => simp [Guarded]
  | cons op xs ih => simp [Guarded, ih, and_assoc]

theorem guarded_iff_splits {step : σ → ο → σ} {ok : σ → ο → Prop} {s : σ} {ops : List ο} :
    Guarded step ok s ops ↔ ∀ before op rest, ops = before ++ op :: rest → ok (run step s before) op := by
  induction ops generalizing s with
  | nil => simp [Guarded]
  | cons first ops ih =>
    rw [Guarded, ih]
    constructor
    · rintro ⟨here, later⟩ before op rest eq
      cases before with
      | nil =>
        rw [List.nil_append, List.cons.injEq] at eq
        rw [← eq.1]
        exact here
      | cons first' before =>
        rw [List.cons_append, List.cons.injEq] at eq
        rw [run_cons, ← eq.1]
        exact later before op rest eq.2
    · intro all
      refine ⟨all [] first ops rfl, fun before op rest eq => ?_⟩
      exact all (first :: before) op rest (by rw [eq, List.cons_append])

/-- A property kept by every step holds after every run. -/
theorem run_invariant {step : σ → ο → σ} {motive : σ → Prop}
    (keep : ∀ s op, motive s → motive (step s op)) {s : σ} (init : motive s) (ops : List ο) :
    motive (run step s ops) := by
  induction ops generalizing s with
  | nil => exact init
  | cons op ops ih => exact ih (keep s op init)

/-- A property kept by every step that meets its guard holds after every guarded run. -/
theorem guarded_invariant {step : σ → ο → σ} {ok : σ → ο → Prop} {motive : σ → Prop}
    (keep : ∀ s op, motive s → ok s op → motive (step s op)) {s : σ} (init : motive s) {ops : List ο}
    (guard : Guarded step ok s ops) : motive (run step s ops) := by
  induction ops generalizing s with
  | nil => exact init
  | cons op ops ih => exact ih (keep s op init guard.1) guard.2

/-- A guard that keeps the invariant and gives another guard there. -/
theorem guarded_mono {step : σ → ο → σ} {p q : σ → ο → Prop} (Inv : σ → Prop)
    (implies : ∀ s op, Inv s → p s op → q s op ∧ Inv (step s op)) {s : σ} (init : Inv s) {ops : List ο}
    (guard : Guarded step p s ops) : Guarded step q s ops := by
  induction ops generalizing s with
  | nil => trivial
  | cons op ops ih =>
    obtain ⟨here, next⟩ := implies s op init guard.1
    exact ⟨here, ih next guard.2⟩

/-- Two guards that agree wherever the invariant holds, guard the same runs. -/
theorem guarded_congr {step : σ → ο → σ} {p q : σ → ο → Prop} (Inv : σ → Prop)
    (same : ∀ s op, Inv s → (p s op ↔ q s op))
    (keep : ∀ s op, Inv s → q s op → Inv (step s op)) {s : σ} (init : Inv s) {ops : List ο} :
    Guarded step p s ops ↔ Guarded step q s ops := by
  constructor
  · apply guarded_mono Inv _ init
    intro s op inv h
    have hq := (same s op inv).1 h
    exact ⟨hq, keep s op inv hq⟩
  · apply guarded_mono Inv _ init
    intro s op inv hq
    exact ⟨(same s op inv).2 hq, keep s op inv hq⟩

/-- A property of every state of a run, where a legal step keeps the invariant that implies it if
and only if it meets its guard. -/
theorem guarded_iff_prefixes_on {step : σ → ο → σ} {ok : σ → ο → Prop} {holds : σ → Prop} (Inv : σ → Prop)
    (legal : ο → Prop) (implies : ∀ s, Inv s → holds s)
    (keep : ∀ s op, legal op → Inv s → ok s op → Inv (step s op))
    (breaks : ∀ s op, legal op → Inv s → ¬ ok s op → ¬ holds (step s op)) {s : σ} (init : Inv s) {ops : List ο}
    (all_legal : ∀ op ∈ ops, legal op) :
    (∀ before rest, ops = before ++ rest → holds (run step s before)) ↔ Guarded step ok s ops := by
  induction ops generalizing s with
  | nil =>
    constructor
    · intro _
      trivial
    · intro _ before rest eq
      rw [List.append_eq_nil_iff.1 eq.symm |>.1]
      exact implies s init
  | cons op ops ih =>
    have now := all_legal op List.mem_cons_self
    have later : ∀ op ∈ ops, legal op := fun op mem => all_legal op (List.mem_cons_of_mem _ mem)
    constructor
    · intro all
      have first : ok s op := by
        by_contra bad
        exact breaks s op now init bad (all [op] ops rfl)
      refine ⟨first, (ih (keep s op now init first) later).1 fun before rest eq => ?_⟩
      exact all (op :: before) rest (by rw [eq, List.cons_append])
    · rintro ⟨first, others⟩ before rest eq
      cases before with
      | nil => exact implies s init
      | cons op' before =>
        rw [List.cons_append, List.cons.injEq] at eq
        rw [run_cons, ← eq.1]
        exact (ih (keep s op now init first) later).2 others before rest eq.2

/-- The same where every step is legal. -/
theorem guarded_iff_prefixes {step : σ → ο → σ} {ok : σ → ο → Prop} {holds : σ → Prop} (Inv : σ → Prop)
    (implies : ∀ s, Inv s → holds s) (keep : ∀ s op, Inv s → ok s op → Inv (step s op))
    (breaks : ∀ s op, Inv s → ¬ ok s op → ¬ holds (step s op)) {s : σ} (init : Inv s) {ops : List ο} :
    (∀ before rest, ops = before ++ rest → holds (run step s before)) ↔ Guarded step ok s ops := by
  apply guarded_iff_prefixes_on Inv (fun _ => True) implies
  · exact fun s op _ => keep s op
  · exact fun s op _ => breaks s op
  · exact init
  · exact fun _ _ => trivial

/-- What a component answers to the operations. -/
def answers {α : Type*} (step : σ → ο → α × σ) : σ → List ο → List α
  | _, [] => []
  | s, op :: ops => (step s op).1 :: answers step (step s op).2 ops

/-- Two components that answer alike as long as they are related, and stay so. -/
theorem answers_sim {α τ : Type*} {step : σ → ο → α × σ} {step' : τ → ο → α × τ} (Related : σ → τ → Prop)
    (sim : ∀ s t op, Related s t → (step s op).1 = (step' t op).1 ∧ Related (step s op).2 (step' t op).2)
    {s : σ} {t : τ} (init : Related s t) (ops : List ο) : answers step s ops = answers step' t ops := by
  induction ops generalizing s t with
  | nil => rfl
  | cons op ops ih =>
    obtain ⟨same, next⟩ := sim s t op init
    rw [answers, answers, same, ih next]

/-- The invariant rule of a counted loop `for (i = 0; i < n; i++)`. -/
theorem finRange_foldl_invariant {n : Nat} {f : σ → Fin n → σ} {motive : Nat → σ → Prop} {s : σ}
    (init : motive 0 s) (keep : ∀ (i : Fin n) s, motive i s → motive (i + 1) (f s i)) :
    motive n ((List.finRange n).foldl f s) := by
  induction n with
  | zero => simpa using init
  | succ n ih =>
    rw [List.finRange_succ_last, List.foldl_append, List.foldl_map]
    exact keep (Fin.last n) _ (ih fun i s h => keep i.castSucc s h)

/-- The invariant rule of a counted loop `for (i = m; i < n; i++)`. -/
theorem drop_finRange_foldl_invariant {m n : Nat} {f : σ → Fin n → σ} {motive : Nat → σ → Prop} {s : σ}
    (le : m ≤ n) (init : motive m s)
    (keep : ∀ (i : Fin n) s, m ≤ i.val → motive i s → motive (i + 1) (f s i)) :
    motive n (((List.finRange n).drop m).foldl f s) := by
  induction n with
  | zero =>
    obtain rfl := Nat.le_zero.1 le
    simpa using init
  | succ n ih =>
    rcases Nat.lt_or_ge n m with lt | ge
    · obtain rfl : m = n + 1 := by omega
      rw [List.drop_of_length_le (by simp)]
      exact init
    · rw [List.finRange_succ_last, List.drop_append_of_le_length (by simpa using ge), List.foldl_append,
        ← List.map_drop, List.foldl_map]
      exact keep (Fin.last n) _ ge (ih ge fun i s le h => keep i.castSucc s le h)

/-- A loop that makes something true in some of its rounds. -/
theorem foldl_or {ι : Type*} {step : σ → ι → σ} {holds : σ → Prop} {hit : ι → Prop}
    (one : ∀ s x, holds (step s x) ↔ holds s ∨ hit x) (l : List ι) (s : σ) :
    holds (l.foldl step s) ↔ holds s ∨ ∃ x ∈ l, hit x := by
  induction l generalizing s with
  | nil => simp
  | cons x l ih =>
    rw [List.foldl_cons, ih, one, or_assoc]
    simp only [List.mem_cons, exists_eq_or_imp]

theorem foldlM_snoc (step : σ → ο → Option σ) (s : σ) (xs : List ο) (op : ο) :
    (xs ++ [op]).foldlM step s = (xs.foldlM step s).bind fun s => step s op := by
  rw [List.foldlM_append]
  congr 1
  funext s
  exact bind_pure (step s op)

/-- A loop whose every round has a result and keeps a property. -/
theorem foldlM_invariant {f : σ → ο → Option σ} {holds : σ → Prop} {l : List ο}
    (keep : ∀ x ∈ l, ∀ s, holds s → ∃ s', f s x = some s' ∧ holds s') {s : σ} (init : holds s) :
    ∃ s', l.foldlM f s = some s' ∧ holds s' := by
  induction l generalizing s with
  | nil => exact ⟨s, rfl, init⟩
  | cons x l ih =>
    obtain ⟨s', step, next⟩ := keep x List.mem_cons_self s init
    obtain ⟨s'', rest, last⟩ := ih (fun y hy => keep y (List.mem_cons_of_mem x hy)) next
    refine ⟨s'', ?_, last⟩
    rw [List.foldlM_cons, step]
    exact rest

/-- A loop whose body does something in one round only. -/
theorem foldlM_single {ι : Type*} {f : σ → ι → Option σ} {s s' : σ} {x : ι} {l : List ι}
    (mem : x ∈ l) (nodup : l.Nodup) (before : ∀ y ∈ l, y ≠ x → f s y = some s)
    (here : f s x = some s') (behind : ∀ y ∈ l, y ≠ x → f s' y = some s') :
    l.foldlM f s = some s' := by
  have skip : ∀ {l : List ι} {t : σ}, (∀ y ∈ l, f t y = some t) → l.foldlM f t = some t := by
    intro l t same
    induction l with
    | nil => rfl
    | cons y l ih =>
      rw [List.foldlM_cons, same y List.mem_cons_self]
      exact ih fun z hz => same z (List.mem_cons_of_mem y hz)
  induction l with
  | nil => cases mem
  | cons y l ih =>
    rw [List.nodup_cons] at nodup
    rw [List.foldlM_cons]
    rcases eq_or_ne y x with rfl | ne
    · rw [here]
      apply skip
      intro z hz
      apply behind z (List.mem_cons_of_mem y hz)
      rintro rfl
      exact nodup.1 hz
    · rw [before y List.mem_cons_self ne]
      apply ih ((List.mem_cons.1 mem).resolve_left ne.symm) nodup.2
      · exact fun z hz => before z (List.mem_cons_of_mem y hz)
      · exact fun z hz => behind z (List.mem_cons_of_mem y hz)

/-- A loop whose body does nothing in some of its rounds, is the loop over the others. -/
theorem foldlM_filter {ι : Type*} {f : σ → ι → Option σ} {active : ι → Bool} {Inv : σ → Prop}
    (skip : ∀ s x, Inv s → active x = false → f s x = some s)
    (keep : ∀ s x s', Inv s → f s x = some s' → Inv s') {s : σ} (init : Inv s) (l : List ι) :
    l.foldlM f s = (l.filter active).foldlM f s := by
  induction l generalizing s with
  | nil => rfl
  | cons x l ih =>
    rw [List.foldlM_cons]
    cases act : active x with
    | false =>
      rw [skip s x init act, List.filter_cons_of_neg (by rw [act]; decide)]
      exact ih init
    | true =>
      rw [List.filter_cons_of_pos act, List.foldlM_cons]
      cases step : f s x with
      | none => rfl
      | some s' => exact ih (keep s x s' init step)

/-- The rounds of a counted loop that are in a sorted list. -/
theorem filter_finRange {n : Nat} {l : List (Fin n)} (sorted : l.Pairwise (· < ·)) :
    (List.finRange n).filter (fun i => decide (i ∈ l)) = l := by
  have nodup : l.Nodup := sorted.imp fun lt => Fin.ne_of_lt lt
  have perm : ((List.finRange n).filter fun i => decide (i ∈ l)).Perm l := by
    rw [List.perm_ext_iff_of_nodup ((List.nodup_finRange n).filter _) nodup]
    intro i
    simp
  apply perm.eq_of_pairwise _ ((List.pairwise_lt_finRange n).filter _) sorted
  intro i j _ _ lt gt
  exact absurd (Fin.lt_trans lt gt) (Fin.lt_irrefl i)

end MiniHardware.Lib
