import MiniHardware.Lib.Settle
import MiniHardware.Cpu.OooCommit

/-!
# The out-of-order processor against the interpreter
-/

namespace MiniHardware.Cpu
open Lib

/-! ## Runs -/

inductive OooEvent where
  | issue (inst : Instruction)
  | step

/-- The instructions a run issues, in order. -/
def issuedOf (events : List OooEvent) : List Instruction :=
  events.flatMap fun event =>
    match event with
    | .issue inst => [inst]
    | .step => []

/-- The processor, if nothing undefined has happened, and the number of issued instructions. -/
structure OooHistory where
  proc : Option OooProcessor
  issued : Nat

def oooStart (registers : Reg → UInt32) (memory : Memory) : OooHistory :=
  ⟨some (oooInit registers memory), 0⟩

def oooEvent (h : OooHistory) (event : OooEvent) : OooHistory :=
  match event with
  | .issue inst => ⟨h.proc.map fun p => oooIssue p inst, h.issued + 1⟩
  | .step => ⟨h.proc.bind oooStep, h.issued⟩

/-- An instruction is issued while a station and an entry are free. -/
def Accepted (h : OooHistory) (event : OooEvent) : Prop :=
  match event with
  | .issue _ => ∀ p ∈ h.proc, (findFreeRs p).isSome = true ∧ (findFreeRob p).isSome = true
  | .step => True

/-- The event meets its conditions. -/
def SafeEvent (ctx : IsaContext) (prog : List Instruction) (h : OooHistory) (event : OooEvent) :
    Prop :=
  match event with
  | .issue _ => ∀ p ∈ h.proc, SafeIssue ctx prog h.issued p
  | .step => ∀ p ∈ h.proc, SafeStep ctx prog h.issued p

instance (h : OooHistory) (event : OooEvent) : Decidable (Accepted h event) :=
  match event with
  | .issue _ => inferInstanceAs (Decidable (∀ p ∈ h.proc, _))
  | .step => inferInstanceAs (Decidable True)

instance (ctx : IsaContext) (prog : List Instruction) (h : OooHistory) (event : OooEvent) :
    Decidable (SafeEvent ctx prog h event) :=
  match event with
  | .issue _ => inferInstanceAs (Decidable (∀ p ∈ h.proc, _))
  | .step => inferInstanceAs (Decidable (∀ p ∈ h.proc, _))

/-- Further steps are steps of the processor. -/
theorem run_steps (h : OooHistory) (n : Nat) :
    run oooEvent h (List.replicate n .step) = ⟨h.proc.bind (after oooStep n), h.issued⟩ := by
  induction n with
  | zero => cases h with | mk proc issued => cases proc <;> rfl
  | succ n ih =>
    rw [List.replicate_succ', run_snoc, ih]
    simp only [oooEvent, Option.bind_assoc]
    congr 2
    funext p
    exact (after_snoc oooStep n p).symm

/-! ## The invariant along a run -/

variable {ctx : IsaContext} {prog : List Instruction} {c n : Nat} {p : OooProcessor}

theorem oooInv_init (registers : Reg → UInt32) (memory : Memory) :
    OooInv (.start registers memory) prog 0 0 (oooInit registers memory) where
  slots :=
    { le := Nat.le_refl 0
      issued := Nat.zero_le _
      count := rfl
      room := by omega
      head := rfl
      tail := rfl
      busy := fun i _ hi => by omega
      rd := fun i _ hi => by omega
      isStore := fun i _ hi => by omega
      value := fun i _ hi => by omega
      station := fun x busy => by cases busy
      distinct := fun x y busy => by cases busy
      pending := fun i _ hi => by omega
      bus := fun valid => by cases valid }
  renames :=
    { zero := rfl
      settled := fun r _ => ⟨rfl, fun _ => rfl⟩
      renamed := fun i _ hi => by omega }
  memoryOrder :=
    { memory := by
        intro k a le _ _
        obtain rfl : k = 0 := by omega
        rfl
      order := fun j i _ hi => by omega }
  stores i hi := by omega

/-- A safe run issues its instructions and keeps the invariant. -/
theorem OooInv.events (run : SeqRun ctx prog) (inv : OooInv ctx prog c n p)
    {events : List OooEvent} (rest : issuedOf events = prog.drop n)
    (accepted : Guarded oooEvent Accepted ⟨some p, n⟩ events)
    (safe : Guarded oooEvent (SafeEvent ctx prog) ⟨some p, n⟩ events) :
    ∃ q c', Lib.run oooEvent ⟨some p, n⟩ events = ⟨some q, prog.length⟩ ∧
      OooInv ctx prog c' prog.length q := by
  induction events generalizing c n p with
  | nil =>
    have := inv.slots.issued
    have := List.drop_eq_nil_iff.1 rest.symm
    obtain rfl : n = prog.length := by omega
    exact ⟨p, c, rfl, inv⟩
  | cons event events ih =>
    obtain ⟨free, accepted⟩ := accepted
    obtain ⟨ok, safe⟩ := safe
    cases event with
    | issue inst =>
      have head : inst :: issuedOf events = prog.drop n := rest
      have lt : n < prog.length := by
        by_contra h
        rw [List.drop_eq_nil_of_le (by omega)] at head
        cases head
      rw [List.drop_eq_getElem_cons lt] at head
      obtain ⟨hinst, rest'⟩ := List.cons.inj head
      have hinst : inst = seqInst prog n := by simp [hinst, seqInst, lt]
      subst hinst
      obtain ⟨station, entry⟩ := free p rfl
      obtain ⟨x, hx⟩ := Option.isSome_iff_exists.1 station
      have room : p.robCount < 32 := by
        by_contra full
        rw [findFreeRob, if_pos (by omega)] at entry
        cases entry
      exact ih (inv.issue run lt hx room (ok p rfl)) rest' accepted safe
    | step =>
      obtain ⟨q, c', hstep, inv', -⟩ := inv.step run (ok p rfl)
      have next : oooEvent ⟨some p, n⟩ .step = ⟨some q, n⟩ := by simp [oooEvent, hstep]
      rw [next] at accepted safe
      rw [run_cons, next]
      exact ih inv' rest accepted safe

/-! ## The refinement -/

/-- If every issue and every step of a run meets its conditions, enough further steps empty the
reorder buffer, and the registers and the memory are then those of the interpreter. -/
theorem ooo_refines (registers : Reg → UInt32) (memory : Memory) (events : List OooEvent)
    (t : IsaContext) (supported : ∀ inst ∈ issuedOf events, oooSupported inst.opcode = true)
    (seq : executeAll (.start registers memory) (issuedOf events) = some t)
    (accepted : Guarded oooEvent Accepted (oooStart registers memory) events)
    (safe : ∀ n, Guarded oooEvent (SafeEvent (.start registers memory) (issuedOf events))
      (oooStart registers memory) (events ++ List.replicate n .step)) :
    ∃ N, ∀ n, N ≤ n → ∃ p,
      (run oooEvent (oooStart registers memory) (events ++ List.replicate n .step)).proc = some p ∧
        p.robCount = 0 ∧ p.registers = t.registers ∧ p.memory = t.memory := by
  have seqRun := SeqRun.of_executeAll rfl seq supported
  obtain ⟨p, c, issued, inv⟩ := (oooInv_init registers memory).events seqRun rfl accepted
    (guarded_append.1 (safe 0)).1
  have later : ∀ n, run oooEvent (oooStart registers memory) (events ++ List.replicate n .step) =
      ⟨after oooStep n p, (issuedOf events).length⟩ := by
    intro n
    rw [run_append, show run oooEvent (oooStart registers memory) events = _ from issued, run_steps]
    rfl
  have safeSteps : ∀ m q, after oooStep m p = some q →
      SafeStep (.start registers memory) (issuedOf events) (issuedOf events).length q := by
    intro m q hq
    have := safe (m + 1)
    rw [List.replicate_succ', ← List.append_assoc, guarded_append, later m] at this
    exact this.2.1 q hq
  -- in rank `k` fewer than `k` instructions wait in stations; in rank 0 the buffer is empty
  obtain ⟨N, settled⟩ := @settles _ oooStep
    (fun k q => (∃ c, OooInv (.start registers memory) (issuedOf events) c
        (issuedOf events).length q ∧
        (busyCount q < k ∨ busyCount q = 0 ∧ c = (issuedOf events).length)) ∧
      ∀ m r, after oooStep m q = some r →
        SafeStep (.start registers memory) (issuedOf events) (issuedOf events).length r)
    (by
      rintro k q ⟨⟨c, inv, rank⟩, safe⟩
      obtain ⟨r, c', hstep, inv', fall⟩ := inv.step seqRun (safe 0 q rfl)
      exact ⟨r, k, hstep, Nat.le_refl k, ⟨c', inv', by omega⟩,
        fun m u run => safe (m + 1) u (by rw [after_succ hstep, run])⟩)
    (by
      rintro q ⟨⟨c, inv, rank⟩, safe⟩
      obtain ⟨r, c', hstep, inv', fall⟩ := inv.step seqRun (safe 0 q rfl)
      exact ⟨r, hstep, ⟨c', inv', by omega⟩,
        fun m u run => safe (m + 1) u (by rw [after_succ hstep, run])⟩)
    (busyCount p + 1) p ⟨⟨c, inv, Or.inl (Nat.lt_succ_self _)⟩, safeSteps⟩
  refine ⟨N, fun n le => ?_⟩
  obtain ⟨q, run, ⟨c, inv, rank⟩, -⟩ := settled n le
  obtain ⟨empty, rfl⟩ : busyCount q = 0 ∧ c = (issuedOf events).length := by
    rcases rank with h | h
    · omega
    · exact h
  have last := seqAt_length seq
  refine ⟨q, by rw [later, run], by rw [inv.slots.count, Nat.sub_self], ?_, ?_⟩
  · funext r
    rw [(inv.renames.settled r fun i lo hi => by omega).1, last]
  · rw [← last]
    apply inv.memoryOrder.memory.done
    rintro i hi ⟨lo, -⟩
    omega

/-! ## An idle processor -/

/-- Nothing is in a station or on the bus. -/
structure OooIdle (p : OooProcessor) : Prop where
  bus : p.cdb.valid = false
  stations : ∀ x, (p.rs x).busy = false

instance (p : OooProcessor) : Decidable (OooIdle p) :=
  decidable_of_iff (_ ∧ _) ⟨fun ⟨bus, stations⟩ => ⟨bus, stations⟩, fun ⟨bus, stations⟩ => ⟨bus, stations⟩⟩

theorem commitLoop_frame (rounds : Nat) :
    (commitLoop rounds p).rs = p.rs ∧ (commitLoop rounds p).cdb = p.cdb := by
  induction rounds generalizing p with
  | zero => exact ⟨rfl, rfl⟩
  | succ rounds ih =>
    rw [commitLoop]
    split
    · exact ih
    · exact ⟨rfl, rfl⟩

/-- An idle processor only commits. -/
theorem OooIdle.step (idle : OooIdle p) :
    oooStep p = some { oooCommit p with cycles := (oooCommit p).cycles + 1 } := by
  apply oooStep_eq
  rw [oooWriteResult_idle idle.bus]
  apply oooExecute_none
  · intro y busy
    rw [idle.stations y] at busy
    cases busy
  · intro y
    simp [ReservationStation.Starts, idle.stations y]

theorem OooIdle.keep (idle : OooIdle p) : ∃ q, oooStep p = some q ∧ OooIdle q := by
  obtain ⟨rs, cdb⟩ := @commitLoop_frame p p.robCount
  refine ⟨_, idle.step, ⟨?_, fun x => ?_⟩⟩
  · exact (congrArg CdbEntry.valid cdb).trans idle.bus
  · exact (congrArg ReservationStation.busy (congrFun rs x)).trans (idle.stations x)

theorem OooIdle.safe (idle : OooIdle p) : SafeStep ctx prog n p where
  single x y fires := by
    simp [Fires, oooWriteResult_idle idle.bus, ReservationStation.Starts, idle.stations x] at fires
  order x y _ busy := by
    rw [idle.stations y] at busy
    cases busy
  broadcast valid := by
    rw [idle.bus] at valid
    cases valid

theorem OooIdle.guarded (idle : OooIdle p) (k : Nat) :
    Guarded oooEvent (SafeEvent ctx prog) ⟨some p, n⟩ (List.replicate k .step) := by
  induction k generalizing p with
  | zero => trivial
  | succ k ih =>
    obtain ⟨q, hstep, idle'⟩ := idle.keep
    refine ⟨fun r hr => ?_, ?_⟩
    · obtain rfl := Option.some.inj hr
      exact idle.safe
    · have next : oooEvent ⟨some p, n⟩ .step = ⟨some q, n⟩ := by simp [oooEvent, hstep]
      rw [next]
      exact ih idle'

/-- `ADDI x1, x0, 5; ADD x2, x1, x1`, the second one waiting for the first. -/
def waitingEvents : List OooEvent :=
  [.issue (isaDecode 0x00500093), .issue (isaDecode 0x00108133), .step, .step, .step]

theorem ooo_refines_waiting :
    ∃ t, executeAll (.start (fun _ => 0) fun _ => 0) (issuedOf waitingEvents) = some t ∧
      ∃ N, ∀ n, N ≤ n → ∃ p,
        (run oooEvent (oooStart (fun _ => 0) fun _ => 0)
          (waitingEvents ++ List.replicate n .step)).proc = some p ∧
          p.robCount = 0 ∧ p.registers = t.registers ∧ p.memory = t.memory := by
  have defined : (executeAll (.start (fun _ => 0) fun _ => 0) (issuedOf waitingEvents)).isSome = true := by
    decide
  obtain ⟨t, seq⟩ := Option.isSome_iff_exists.1 defined
  refine ⟨t, seq, ooo_refines _ _ waitingEvents t (by decide) seq (by decide) ?_⟩
  have idles : (run oooEvent (oooStart (fun _ => 0) fun _ => 0) waitingEvents).proc.any
      (fun p => decide (OooIdle p)) = true := by decide
  obtain ⟨p, here, idle⟩ := (Option.any_eq_true _ _).1 idles
  intro n
  refine guarded_append.2 ⟨by decide, ?_⟩
  rw [show run oooEvent (oooStart (fun _ => 0) fun _ => 0) waitingEvents =
    ⟨some p, _⟩ from by rw [← here]]
  exact (of_decide_eq_true idle).guarded n

/-! ## A result that is lost on the bus -/

/-- An idle processor whose oldest instruction has no result never empties its buffer. -/
theorem OooIdle.stuck (idle : OooIdle p) (waits : (p.rob p.robHead).ready = false) :
    oooStep p = some { p with cycles := p.cycles + 1 } := by
  have commit : ∀ rounds, commitLoop rounds p = p := by
    intro rounds
    cases rounds with
    | zero => rfl
    | succ rounds => exact if_neg fun h => by simp [waits] at h
  rw [idle.step, oooCommit, commit]

/-- `ADDI x1, x0, 5; ADDI x2, x0, 3`, both ready in the same step. -/
def twoReady : List OooEvent := [.issue (isaDecode 0x00500093), .issue (isaDecode 0x00300113)]

/-- Both stations put their results on the one bus, the first result is lost, and the reorder
buffer is never emptied. -/
theorem ooo_two_ready_stuck :
    ¬ ∀ registers memory events t,
      (∀ inst ∈ issuedOf events, oooSupported inst.opcode = true) →
      executeAll (.start registers memory) (issuedOf events) = some t →
      Guarded oooEvent Accepted (oooStart registers memory) events →
      ∃ n p, (run oooEvent (oooStart registers memory) (events ++ List.replicate n .step)).proc =
        some p ∧ p.robCount = 0 ∧ p.registers = t.registers ∧ p.memory = t.memory := by
  intro claim
  have defined : (executeAll (.start (fun _ => 0) fun _ => 0) (issuedOf twoReady)).isSome = true := by
    decide
  obtain ⟨t, seq⟩ := Option.isSome_iff_exists.1 defined
  obtain ⟨n, q, reached, empty, -⟩ :=
    claim _ _ twoReady t (by decide) seq (by decide)
  have early : ∀ n, n < 2 →
      (run oooEvent (oooStart (fun _ => 0) fun _ => 0) (twoReady ++ List.replicate n .step)).proc.any
        (fun p => decide (p.robCount = 0)) = false := by decide
  have stuck : (run oooEvent (oooStart (fun _ => 0) fun _ => 0)
      (twoReady ++ List.replicate 2 .step)).proc.any
        (fun p => decide (OooIdle p ∧ (p.rob p.robHead).ready = false ∧ p.robCount = 2)) = true := by
    decide
  rcases Nat.lt_or_ge n 2 with lt | ge
  · have := early n lt
    rw [reached, Option.any_some, empty] at this
    cases this
  · -- the head of the buffer has no result, and no station computes one
    obtain ⟨k, rfl⟩ := Nat.exists_eq_add_of_le ge
    obtain ⟨p, here, inv⟩ := (Option.any_eq_true _ _).1 stuck
    have keep : ∀ p, OooIdle p ∧ (p.rob p.robHead).ready = false ∧ p.robCount = 2 →
        ∃ q, oooStep p = some q ∧ OooIdle q ∧ (q.rob q.robHead).ready = false ∧ q.robCount = 2 := by
      rintro p ⟨idle, waits, count⟩
      exact ⟨_, idle.stuck waits, ⟨idle.bus, idle.stations⟩, waits, count⟩
    obtain ⟨r, later, -, -, count⟩ := after_invariant keep (of_decide_eq_true inv) k
    rw [List.replicate_add, ← List.append_assoc, run_append, run_steps, here, Option.bind_some,
      later] at reached
    obtain rfl := Option.some.inj reached
    rw [count] at empty
    cases empty

end MiniHardware.Cpu
