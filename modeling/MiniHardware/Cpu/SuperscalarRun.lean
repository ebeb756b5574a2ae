import MiniHardware.Cpu.SuperscalarOrder

/-!
# The superscalar core against the interpreter
-/

namespace MiniHardware.Cpu
open Lib

namespace Superscalar

/-! ## Runs -/

inductive Event where
  | issue (insts : List Instruction)
  | step

/-- The instructions a run issues, in order. -/
def issuedOf (events : List Event) : List Instruction :=
  events.flatMap fun event =>
    match event with
    | .issue insts => insts
    | .step => []

/-- The core after an event, if nothing undefined has happened. -/
def event (core : Option Superscalar) (event : Event) : Option Superscalar :=
  match event with
  | .issue insts => core.bind fun s => superscalarIssue s insts
  | .step => core.bind superscalarStep

/-- A group is issued while the reorder buffer has room for it. -/
def Accepts (core : Option Superscalar) (event : Event) : Prop :=
  match event with
  | .issue insts => insts.length ≤ maxIssueWidth ∧ ∀ s ∈ core, s.robCount + insts.length ≤ maxRobEntries
  | .step => True

/-- The event meets its conditions. -/
def EventOk (core : Option Superscalar) (event : Event) : Prop :=
  match event with
  | .issue insts => ∀ s ∈ core, s.GroupOk insts
  | .step => ∀ s ∈ core, s.CommitOk 0 (List.finRange maxRobEntries)

instance acceptsDecidable (core : Option Superscalar) (event : Event) : Decidable (Accepts core event) :=
  match event with
  | .issue insts => inferInstanceAs (Decidable (insts.length ≤ maxIssueWidth ∧ ∀ s ∈ core, _))
  | .step => inferInstanceAs (Decidable True)

instance eventOkDecidable (core : Option Superscalar) (event : Event) : Decidable (EventOk core event) :=
  match event with
  | .issue _ => inferInstanceAs (Decidable (∀ s ∈ core, _))
  | .step => inferInstanceAs (Decidable (∀ s ∈ core, _))

/-! ## The invariant along a run -/

variable {s : Superscalar} {ctx t : IsaContext}

theorem busyCount_init (registers : Reg → UInt32) (memory : Memory) :
    (superscalarInit registers memory).busyCount = 0 := by
  unfold busyCount
  rw [Finset.card_eq_zero, Finset.filter_eq_empty_iff]
  rintro k - busy
  cases busy

theorem pending_init (registers : Reg → UInt32) (memory : Memory) :
    (superscalarInit registers memory).Pending (.start registers memory) [] where
  running := rfl
  sorted := List.Pairwise.nil
  waits := trivial
  done _ _ busy := by cases busy
  fresh _ busy := by cases busy
  memory := rfl
  zero := rfl
  tracks _ _ _ := Or.inr ⟨fun _ busy => (by cases busy), rfl⟩
  count := (busyCount_init registers memory).symm
  counted := rfl

/-- A run whose events meet their conditions issues its instructions and keeps the invariant. -/
theorem Pending.events (h : s.Pending ctx []) {events : List Event}
    (supported : ∀ inst ∈ issuedOf events, oooSupported inst.opcode = true)
    (exec : executeAll ctx (issuedOf events) = some t)
    (accepted : Guarded event Accepts (some s) events) (ok : Guarded event EventOk (some s) events) :
    ∃ s', run event (some s) events = some s' ∧ s'.Pending t [] ∧
      s'.instructionsIssued = s.instructionsIssued + UInt32.ofNat (issuedOf events).length ∧
      s'.robCount ≤ s.robCount + (issuedOf events).length := by
  induction events generalizing s ctx with
  | nil =>
    cases exec
    exact ⟨s, rfl, h, (UInt32.add_zero _).symm, Nat.le_refl _⟩
  | cons ev events ih =>
    cases ev with
    | issue insts =>
      have split : issuedOf (.issue insts :: events) = insts ++ issuedOf events := rfl
      rw [split] at supported exec ⊢
      rw [executeAll_append] at exec
      obtain ⟨ctx₁, group, rest⟩ := Option.bind_eq_some_iff.1 exec
      obtain ⟨⟨width, room⟩, accepted⟩ := accepted
      obtain ⟨here, ok⟩ := ok
      obtain ⟨s₁, step, pending, issued, count⟩ := h.issue width (room s rfl)
        (fun inst mem => supported inst (List.mem_append_left _ mem)) (here s rfl) group
      have next : event (some s) (.issue insts) = some s₁ := step
      rw [next] at accepted ok
      obtain ⟨s', reached, pending', issued', count'⟩ := ih pending
        (fun inst mem => supported inst (List.mem_append_right _ mem)) rest accepted ok
      refine ⟨s', ?_, pending', ?_, ?_⟩
      · rw [run_cons, next, reached]
      · rw [issued', issued, List.length_append, UInt32.ofNat_add, UInt32.add_assoc]
      · rw [List.length_append]
        omega
    | step =>
      obtain ⟨-, accepted⟩ := accepted
      obtain ⟨here, ok⟩ := ok
      obtain ⟨s₁, step, pending, issued, count⟩ := h.step (here s rfl)
      have next : event (some s) .step = some s₁ := step
      rw [next] at accepted ok
      obtain ⟨s', reached, pending', issued', count'⟩ := ih pending supported exec accepted ok
      refine ⟨s', ?_, pending', ?_, ?_⟩
      · rw [run_cons, next, reached]
      · rw [issued', issued]
        rfl
      · have same : issuedOf (.step :: events) = issuedOf events := rfl
        rw [same]
        omega

/-- Each further step retires an entry while there is one. -/
theorem Pending.steps (h : s.Pending ctx []) {n : Nat}
    (ok : Guarded event EventOk (some s) (List.replicate n .step)) :
    ∃ s', run event (some s) (List.replicate n .step) = some s' ∧ s'.Pending ctx [] ∧
      s'.instructionsIssued = s.instructionsIssued ∧ s'.robCount ≤ s.robCount - n := by
  induction n generalizing s with
  | zero => exact ⟨s, rfl, h, rfl, Nat.le_refl _⟩
  | succ n ih =>
    rw [List.replicate_succ] at ok ⊢
    obtain ⟨here, ok⟩ := ok
    obtain ⟨s₁, step, pending, issued, count⟩ := h.step (here s rfl)
    have next : event (some s) .step = some s₁ := step
    rw [next] at ok
    obtain ⟨s', reached, pending', issued', count'⟩ := ih pending ok
    refine ⟨s', ?_, pending', issued'.trans issued, ?_⟩
    · rw [run_cons, next, reached]
    · omega

/-- When the reorder buffer is empty the registers are the interpreter's. -/
theorem Pending.registers_eq (h : s.Pending ctx []) (idle : ∀ k, (s.rob k).busy = false) :
    s.registers = ctx.registers := by
  funext r
  rcases eq_or_ne r 0 with rfl | ne
  · exact h.zero
  · rcases h.tracks r ne (by simp) with ⟨k, -, busy, -⟩ | ⟨-, value⟩
    · rw [idle k] at busy
      cases busy
    · exact value

theorem Pending.idle (h : s.Pending ctx []) (empty : s.robCount = 0) (k : RobSlot) :
    (s.rob k).busy = false := by
  by_contra busy
  have pos := busyCount_pos (Bool.eq_true_of_not_eq_false busy)
  rw [← h.count] at pos
  omega

theorem Pending.robCount_le (h : s.Pending ctx []) : s.robCount ≤ maxRobEntries := by
  rw [h.count]
  exact Nat.le_trans (Finset.card_le_univ _) (Nat.le_of_eq (Fintype.card_fin maxRobEntries))

/-! ## The refinement -/

/-- If every group and every step of a run meets its conditions, as many further steps as there are
instructions, or entries, commit all of them, and the registers and the memory are then those of the
interpreter. -/
theorem superscalar_refines (registers : Reg → UInt32) (memory : Memory) (events : List Event)
    (t : IsaContext) (supported : ∀ inst ∈ issuedOf events, oooSupported inst.opcode = true)
    (seq : executeAll (.start registers memory) (issuedOf events) = some t)
    (accepted : Guarded event Accepts (some (superscalarInit registers memory)) events) (n : Nat)
    (enough : min maxRobEntries (issuedOf events).length ≤ n)
    (ok : Guarded event EventOk (some (superscalarInit registers memory))
      (events ++ List.replicate n .step)) :
    ∃ s, run event (some (superscalarInit registers memory)) (events ++ List.replicate n .step) = some s ∧
      (∀ k, (s.rob k).busy = false) ∧ s.instructionsIssued = UInt32.ofNat (issuedOf events).length ∧
      s.instructionsCommitted = s.instructionsIssued ∧ s.registers = t.registers ∧
      s.memory = t.memory := by
  rw [guarded_append] at ok
  obtain ⟨s₁, reached, pending, issued, count⟩ :=
    (pending_init registers memory).events supported seq accepted ok.1
  have ok' := ok.2
  rw [reached] at ok'
  obtain ⟨s, later, pending', issued', count'⟩ := pending.steps ok'
  have bound := pending.robCount_le
  have start : (superscalarInit registers memory).robCount = 0 := rfl
  have empty : s.robCount = 0 := by omega
  have idle := pending'.idle empty
  refine ⟨s, ?_, idle, ?_, ?_, pending'.registers_eq idle, pending'.memory⟩
  · rw [run_append, reached, later]
  · rw [issued', issued]
    exact UInt32.zero_add _
  · rw [← pending'.counted, empty]
    exact (UInt32.add_zero _).symm

/-- `ADDI x1, x0, 5; ADD x2, x1, x1`, in one group. -/
def oneGroup : List Event := [.issue [isaDecode 0x00500093, isaDecode 0x00108133]]

theorem superscalar_refines_group :
    ∃ t, executeAll (.start (fun _ => 0) fun _ => 0) (issuedOf oneGroup) = some t ∧
      ∃ s, run event (some (superscalarInit (fun _ => 0) fun _ => 0))
          (oneGroup ++ List.replicate 2 .step) = some s ∧
        (∀ k, (s.rob k).busy = false) ∧ s.instructionsIssued = 2 ∧
        s.instructionsCommitted = s.instructionsIssued ∧ s.registers = t.registers ∧
        s.memory = t.memory := by
  have defined : (executeAll (.start (fun _ => 0) fun _ => 0) (issuedOf oneGroup)).isSome = true := by
    decide
  obtain ⟨t, seq⟩ := Option.isSome_iff_exists.1 defined
  exact ⟨t, seq, superscalar_refines _ _ oneGroup t (by decide) seq (by decide) 2
    (by decide) (by decide)⟩

/-! ## An instruction that waits for itself -/

/-- Slot 0 is the oldest entry, and waits for the register it writes. -/
structure SelfWaits (s : Superscalar) : Prop where
  head : s.robHead = 0
  entry : s.Waits 0
  others : ∀ k, k ≠ 0 → (s.rob k).busy = false
  source : (s.rob 0).inst.rs1 ≠ 0 ∧ s.regRobMapping (s.rob 0).inst.rs1 = some 0

instance selfWaitsDecidable (s : Superscalar) : Decidable s.SelfWaits :=
  decidable_of_iff (_ ∧ _ ∧ _ ∧ _) ⟨fun ⟨head, entry, others, source⟩ => ⟨head, entry, others, source⟩,
    fun ⟨head, entry, others, source⟩ => ⟨head, entry, others, source⟩⟩

theorem SelfWaits.dispatchEntry (h : s.SelfWaits) (i : RobSlot) : s.dispatchEntry i = some s := by
  unfold Superscalar.dispatchEntry
  rcases eq_or_ne i 0 with rfl | ne
  · have none : s.operand (s.rob 0).inst.rs1 = Option.none := by
      unfold operand
      rw [if_pos h.source.1, h.source.2]
      dsimp only
      rw [h.entry.2, Bool.and_false]
      rfl
    rw [if_pos h.entry]
    dsimp only
    rw [none]
  · rw [if_neg]
    rintro ⟨busy, -⟩
    rw [h.others i ne] at busy
    cases busy

/-- Nothing is dispatched or retired. -/
theorem SelfWaits.step (h : s.SelfWaits) :
    superscalarStep s = some { s with cycles := s.cycles + 1 } := by
  have commit : superscalarCommit s = s := by
    unfold superscalarCommit
    have rounds : List.finRange maxRobEntries = 0 :: (List.finRange 31).map Fin.succ := List.finRange_succ
    have here : s.slotAt 0 = 0 := by
      rw [slotAt, h.head]
      rfl
    rw [rounds, commitLoop, if_pos (by decide), here]
    dsimp only
    rw [h.entry.1, h.entry.2]
    rfl
  unfold superscalarStep
  rw [dispatch_idle h.dispatchEntry, Option.map_some, commit]

theorem SelfWaits.steps (h : s.SelfWaits) (n : Nat) :
    ∃ s', run event (some s) (List.replicate n .step) = some s' ∧ s'.SelfWaits := by
  induction n generalizing s with
  | zero => exact ⟨s, rfl, h⟩
  | succ n ih =>
    have next : event (some s) .step = some { s with cycles := s.cycles + 1 } := h.step
    have again : ({ s with cycles := s.cycles + 1 } : Superscalar).SelfWaits :=
      ⟨h.head, h.entry, h.others, h.source⟩
    rw [List.replicate_succ, run_cons, next]
    exact ih again

/-- `ADDI x1, x1, 1`. -/
def increment : List Event := [.issue [isaDecode 0x00108093]]

/-- The increment of a register waits for the reorder buffer entry of the increment itself, and no
number of steps retires it. -/
theorem superscalar_increment_stuck :
    ¬ ∀ registers memory events t,
      (∀ inst ∈ issuedOf events, oooSupported inst.opcode = true) →
      executeAll (.start registers memory) (issuedOf events) = some t →
      Guarded event Accepts (some (superscalarInit registers memory)) events →
      ∃ n s, run event (some (superscalarInit registers memory)) (events ++ List.replicate n .step) =
        some s ∧ (∀ k, (s.rob k).busy = false) ∧ s.registers = t.registers ∧ s.memory = t.memory := by
  intro commits
  have defined : (executeAll (.start (fun _ => 0) fun _ => 0) (issuedOf increment)).isSome = true := by
    decide
  obtain ⟨t, seq⟩ := Option.isSome_iff_exists.1 defined
  obtain ⟨n, s, reached, idle, -⟩ :=
    commits _ _ increment t (by decide) seq (by decide)
  have waits : (run event (some (superscalarInit (fun _ => 0) fun _ => 0)) increment).any
      (fun s => decide s.SelfWaits) = true := by decide
  obtain ⟨s₁, issued, stuck⟩ := (Option.any_eq_true _ _).1 waits
  obtain ⟨s', later, still⟩ := (of_decide_eq_true stuck).steps n
  rw [run_append, issued, later] at reached
  cases reached
  have busy := still.entry.1
  rw [idle 0] at busy
  cases busy

end Superscalar

end MiniHardware.Cpu
