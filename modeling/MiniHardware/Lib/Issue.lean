import MiniHardware.Lib.Trace

/-!
# In-order issue that does not wait

A unit takes one instruction after the other and skips each that conflicts with
the one issued last. `issue` is what it issues. In front of the unit stand two
latches; the second keeps what it holds when nothing comes.
-/

namespace MiniHardware.Lib

variable {ι : Type*} {hazard : Option ι → ι → Bool}

/-! ## What is issued -/

section Issue

def issue (hazard : Option ι → ι → Bool) : Option ι → List ι → List ι
  | _, [] => []
  | last, x :: l => if hazard last x then issue hazard last l else x :: issue hazard (some x) l

theorem issue_skip {last : Option ι} {x : ι} (conflict : hazard last x = true) (l : List ι) :
    issue hazard last (x :: l) = issue hazard last l := if_pos conflict

theorem issue_take {last : Option ι} {x : ι} (free : hazard last x = false) (l : List ι) :
    issue hazard last (x :: l) = x :: issue hazard (some x) l := if_neg (by rw [free]; exact Bool.false_ne_true)

theorem issue_append (last : Option ι) (l m : List ι) :
    issue hazard last (l ++ m) =
      issue hazard last l ++ issue hazard ((issue hazard last l).getLast?.or last) m := by
  induction l generalizing last with
  | nil => rfl
  | cons x l ih =>
    rw [List.cons_append]
    cases h : hazard last x with
    | true => rw [issue_skip h, issue_skip h, ih]
    | false =>
      rw [issue_take h, issue_take h, ih, List.cons_append, List.getLast?_cons]
      cases (issue hazard (some x) l).getLast? <;> rfl

theorem mem_of_mem_issue {last : Option ι} {x : ι} {l : List ι} (mem : x ∈ issue hazard last l) : x ∈ l := by
  induction l generalizing last with
  | nil => cases mem
  | cons y l ih =>
    cases h : hazard last y with
    | true =>
      rw [issue_skip h] at mem
      exact List.mem_cons_of_mem y (ih mem)
    | false =>
      rw [issue_take h] at mem
      rcases List.mem_cons.1 mem with rfl | later
      · exact List.mem_cons_self
      · exact List.mem_cons_of_mem y (ih later)

/-- The first one issued does not conflict with the one before. -/
theorem free_of_issue_cons {last : Option ι} {x : ι} {l m : List ι} (first : issue hazard last l = x :: m) :
    hazard last x = false := by
  induction l with
  | nil => cases first
  | cons y l ih =>
    cases h : hazard last y with
    | true =>
      rw [issue_skip h] at first
      exact ih first
    | false =>
      rw [issue_take h, List.cons.injEq] at first
      rw [← first.1]
      exact h

/-- When a first part of what comes is issued, nothing of it was skipped. -/
theorem issue_eq_of_prefix {last : Option ι} {l m : List ι} (all : issue hazard last (l ++ m) = l) :
    issue hazard last l = l := by
  induction l generalizing last with
  | nil => rfl
  | cons x l ih =>
    have free := free_of_issue_cons all
    rw [List.cons_append, issue_take free, List.cons.injEq] at all
    rw [issue_take free, ih all.2]

theorem issue_eq_self_iff {last : Option ι} {x : ι} {l : List ι} (free : hazard last x = false) :
    issue hazard last (x :: l) = x :: l ↔ (x :: l).IsChain fun a b => hazard (some a) b = false := by
  induction l generalizing last x with
  | nil => simp [issue, free]
  | cons y l ih =>
    rw [issue_take free, List.cons.injEq, List.isChain_cons_cons]
    constructor
    · rintro ⟨-, rest⟩
      have free' := free_of_issue_cons rest
      exact ⟨free', (ih free').1 rest⟩
    · rintro ⟨free', chain⟩
      exact ⟨rfl, (ih free').2 chain⟩

theorem issue_replicate_eq_nil {last : Option ι} {x : ι} {k : Nat} :
    issue hazard last (List.replicate k x) = [] ↔ k = 0 ∨ hazard last x = true := by
  induction k with
  | zero => simp [issue]
  | succ k ih =>
    rw [List.replicate_succ]
    cases h : hazard last x with
    | true =>
      rw [issue_skip h, ih]
      simp [h]
    | false =>
      rw [issue_take h]
      simp

/-- A list whose last element comes again and again is issued as it is if nothing in
it conflicts with its neighbour, and the last one with itself where it comes again. -/
theorem issue_repeat_iff {last : Option ι} {x : ι} {l : List ι} (free : hazard last x = false) (k : Nat) :
    issue hazard last (x :: l ++ List.replicate k ((x :: l).getLast (List.cons_ne_nil x l))) = x :: l ↔
      ((x :: l).IsChain fun a b => hazard (some a) b = false) ∧
        (k = 0 ∨ hazard (some ((x :: l).getLast (List.cons_ne_nil x l))) ((x :: l).getLast (List.cons_ne_nil x l)) = true) := by
  constructor
  · intro all
    have own := issue_eq_of_prefix all
    rw [issue_append, own, List.append_right_eq_self, List.getLast?_eq_some_getLast (List.cons_ne_nil x l), Option.some_or,
      issue_replicate_eq_nil] at all
    exact ⟨(issue_eq_self_iff free).1 own, all⟩
  · rintro ⟨chain, again⟩
    rw [issue_append, (issue_eq_self_iff free).2 chain, List.getLast?_eq_some_getLast (List.cons_ne_nil x l),
      Option.some_or, issue_replicate_eq_nil.2 again, List.append_nil]

/-- What comes first is issued once more than it comes behind. -/
theorem issue_cons_ne {x : ι} (free : hazard (some x) x = false) (l m : List ι) :
    x :: issue hazard (some x) (l ++ m) ≠ l := by
  induction l with
  | nil => exact List.cons_ne_nil _ _
  | cons y l ih =>
    intro eq
    rw [List.cons.injEq] at eq
    obtain ⟨rfl, rest⟩ := eq
    rw [List.cons_append, issue_take free] at rest
    exact ih rest

end Issue

/-! ## The latches in front -/

section Latches

/-- What stands in a latch that keeps what it holds when nothing comes. -/
def latched : Option ι → List (Option ι) → List ι
  | held, [] => held.toList
  | held, next :: l => held.toList ++ latched (next.or held) l

theorem latched_some (x : ι) (l : List ι) (k : Nat) :
    latched (some x) (l.map some ++ List.replicate k none) =
      x :: l ++ List.replicate k ((x :: l).getLast (List.cons_ne_nil x l)) := by
  induction l generalizing x with
  | nil =>
    induction k with
    | zero => rfl
    | succ k ih =>
      rw [List.map_nil, List.nil_append] at ih ⊢
      rw [List.replicate_succ, latched, Option.none_or, ih]
      rfl
  | cons y l ih =>
    rw [List.map_cons, List.cons_append, latched, Option.some_or, ih y]
    rfl

structure Stages (ι : Type*) where
  last : Option ι
  held : Option ι
  incoming : Option ι
  issued : List ι

def Stages.step (hazard : Option ι → ι → Bool) (s : Stages ι) (next : Option ι) : Stages ι :=
  let taken := s.held.filter fun x => !hazard s.last x
  { last := taken.or s.last
    held := s.incoming.or s.held
    incoming := next
    issued := s.issued ++ taken.toList }

/-- The unit takes what the second latch holds. -/
theorem Stages.issue_step (hazard : Option ι → ι → Bool) (s : Stages ι) (next : Option ι) (l : List ι) :
    s.issued ++ issue hazard s.last (s.held.toList ++ l) =
      (s.step hazard next).issued ++ issue hazard (s.step hazard next).last l := by
  obtain ⟨last, held, incoming, issued⟩ := s
  cases held with
  | none => simp [step]
  | some x =>
    cases h : hazard last x with
    | true => simp [step, Option.filter_some, h, issue_skip h]
    | false => simp [step, Option.filter_some, h, issue_take h]

/-- After two more steps everything has come to the unit. -/
theorem Stages.issued_run (s : Stages ι) (fetches : List (Option ι)) (u v : Option ι) :
    (run (step hazard) s (fetches ++ [u, v])).issued =
      s.issued ++ issue hazard s.last (latched s.held (s.incoming :: fetches)) := by
  induction fetches generalizing s with
  | nil =>
    have last := issue_step hazard (s.step hazard u) v []
    rw [List.append_nil] at last
    rw [latched, latched, issue_step hazard s u]
    exact (last.trans (List.append_nil _)).symm
  | cons next fetches ih =>
    rw [latched, issue_step hazard s next]
    exact ih (s.step hazard next)

end Latches

end MiniHardware.Lib
