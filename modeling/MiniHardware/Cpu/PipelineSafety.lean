import Mathlib.Tactic.IntervalCases
import MiniHardware.Cpu.PipelineSim

/-!
# The pipeline settles

`Sim` follows the pipeline through a program: instruction `e` is fetched, it is
issued, and at the end the last two instructions drain. The rank is the number
of cycles that may still be needed.
-/

namespace MiniHardware.Cpu
open Lib

variable {ctx : IsaContext} {len : Nat}

/-- The states of the pipeline while it runs the program, and the cycles still needed. -/
inductive Sim (ctx : IsaContext) (len : Nat) : Nat → Pipeline → Prop where
  | start {p : Pipeline} (calm : Calm p) (back : Back ctx 0 0 0 p) (idle : p.idEx.valid = false)
      (empty : p.ifId.valid = false) (pc : p.isa.pc = (trace ctx 0).pc) :
      Sim ctx len (2 * len + 4) p
  | fetched {p : Pipeline} {w e : Nat} (le : e ≤ len) (behind : bubble ctx e = true ∨ e = len)
      (calm : Calm p) (back : Back ctx w (e - 1) e p) (idle : p.idEx.valid = false)
      (fetched : Fetched p (trace ctx e).pc (trace ctx (e - 1)).memory) :
      Sim ctx len (2 * (len - e) + 3) p
  | issued {p : Pipeline} {e : Nat} (lt : e < len) (calm : Calm p)
      (back : Back ctx (readAt ctx e) (issueAt ctx e) e p) (issued : Issued ctx e p)
      (fetched : Fetched p ((trace ctx e).pc + 4) (trace ctx (issueAt ctx e)).memory) :
      Sim ctx len (2 * (len - e) + 2) p
  | drained {p : Pipeline} {w : Nat} (calm : Calm p) (back : Back ctx w len len p)
      (idle : p.idEx.valid = false) (empty : p.ifId.valid = false)
      (pc : p.isa.pc = (trace ctx len).pc) : Sim ctx len (len - w) p

/-- The cycle, once the stages up to decoding are known. -/
theorem pipelineCycle_spec {p q d : Pipeline} (calm : Calm p) (halted : p.isa.halted = false)
    (advance : pipelineMemory (pipelineWriteback p) = some q)
    (front : pipelineDecode (pipelineExecute q) = d) (running : d.isa.halted = false)
    (word : Word d.isa.pc) :
    ∃ r, pipelineCycle p = some r ∧ Fetched r d.isa.pc d.isa.memory ∧ r.idEx = d.idEx ∧
      r.ifId.rs1 = d.ifId.rs1 ∧ r.ifId.rs2 = d.ifId.rs2 ∧
      ∀ w m e, Back ctx w m e d → Back ctx w m e r := by
  obtain ⟨r, fetch, fetched, idEx, rs1, rs2, back⟩ := @pipelineFetch_spec ctx _ running word
  refine ⟨{ r with cycles := r.cycles + 1 }, ?_, fetched, idEx, rs1, rs2, fun w m e h => ?_⟩
  · simp [pipelineCycle, halted, calm.no_hazard, advance, front, fetch]
  · exact (back w m e h).congr rfl rfl rfl rfl rfl

/-- A cycle with nothing to decode: the back moves on, and the fetch stage fetches. -/
theorem pipelineCycle_idle (prog : Program ctx len) {p : Pipeline} {w m e : Nat} (le : e ≤ len)
    (calm : Calm p) (back : Back ctx w m e p) (idle : p.idEx.valid = false)
    (empty : p.ifId.valid = false) (word : Word p.isa.pc) :
    ∃ r, pipelineCycle p = some r ∧ Fetched r p.isa.pc (trace ctx e).memory ∧ Calm r ∧
      Back ctx m e e r ∧ r.idEx.valid = false := by
  obtain ⟨q, advance, backq, ifId, idEx, pc⟩ := back.advance prog le
  have front : pipelineDecode (pipelineExecute q) =
      { q with exMem := { q.exMem with valid := false }, idEx := { q.idEx with valid := false } } := by
    rw [pipelineExecute_idle (by rw [idEx, idle]), pipelineDecode_idle (by simp [ifId, empty])]
  have backd : Back ctx m e e (pipelineDecode (pipelineExecute q)) := by
    rw [front]
    exact ⟨backq.running, backq.registers, backq.memory, backq.wb, Or.inl ⟨rfl, rfl⟩⟩
  obtain ⟨r, cycle, fetched, idExr, rs1, rs2, backr⟩ :=
    pipelineCycle_spec calm back.running advance front backq.running (by simpa [pc] using word)
  rw [front] at backd
  refine ⟨r, cycle, ?_, ⟨?_, ?_, ?_⟩, backr _ _ _ backd, by rw [idExr]⟩
  · simpa [pc, backq.memory] using fetched
  · rw [rs1, ifId, calm.rs1]
  · rw [rs2, ifId, calm.rs2]
  · rw [idExr, idEx]
    exact calm.load

/-- Decoding the next instruction of the program, in the context it is read in. -/
theorem pipelineDecode_issue (prog : Program ctx len) {e : Nat} (lt : e < len)
    (safe : StepSafe ctx e) {p q : Pipeline}
    (fetched : Fetched p (trace ctx e).pc (trace ctx (readAt ctx e)).memory)
    (ifId : q.ifId = p.ifId) (registers : q.isa.registers = (trace ctx (readAt ctx e)).registers) :
    Issued ctx e (pipelineDecode q) ∧
      ((pipelineDecode q).idEx.memRead = true → (pipelineDecode q).idEx.rd ≠ 0) ∧
      (pipelineDecode q).isa = q.isa ∧ (pipelineDecode q).ifId.rs1 = q.ifId.rs1 ∧
      (pipelineDecode q).ifId.rs2 = q.ifId.rs2 ∧
      ∀ w m n, Back ctx w m n q → Back ctx w m n (pipelineDecode q) := by
  rw [Fetched, prog.inside e lt, if_pos rfl] at fetched
  obtain ⟨raw, load, valid, inst, pc, -⟩ := fetched
  have decoded : isaDecode raw = instAt ctx e := by
    have fetch := prog.fetch e lt
    rw [isaFetch_of_inMemory (prog.running e (by omega)) (prog.inside e lt), ← safe.code, load] at fetch
    exact Option.some.inj fetch
  rw [pipelineDecode_valid (by rw [ifId, valid])]
  refine ⟨⟨q.idEx, ?_⟩, fun read => ?_, rfl, rfl, rfl, fun w m n back => ?_⟩
  · rw [ifId, inst, pc, decoded, registers]
  · rw [ifId, inst, decoded] at read ⊢
    exact (safe.load ((prog.executes lt).memRead_iff.1 read)).1
  · exact back.congr rfl rfl rfl rfl rfl

/-- A cycle that issues instruction `e`. -/
theorem Sim.issue (prog : Program ctx len) {e : Nat} (lt : e < len) (safe : StepSafe ctx e)
    {p q x : Pipeline} (calm : Calm p) (halted : p.isa.halted = false)
    (advance : pipelineMemory (pipelineWriteback p) = some q) (execute : pipelineExecute q = x)
    (fetched : Fetched p (trace ctx e).pc (trace ctx (readAt ctx e)).memory)
    (ifId : x.ifId = p.ifId) (pc : x.isa.pc = p.isa.pc)
    (back : Back ctx (readAt ctx e) (issueAt ctx e) e x) :
    ∃ r, pipelineCycle p = some r ∧ Sim ctx len (2 * (len - e) + 2) r := by
  obtain ⟨issued, load, isa, rs1, rs2, backd⟩ :=
    pipelineDecode_issue prog lt safe fetched ifId back.registers
  have next : x.isa.pc = (trace ctx e).pc + 4 := by
    rw [Fetched, prog.inside e lt, if_pos rfl] at fetched
    obtain ⟨-, -, -, -, -, h⟩ := fetched
    rw [pc, h]
  have word : Word (pipelineDecode x).isa.pc := by
    rw [isa, next]
    exact prog.word_next lt
  obtain ⟨r, cycle, fetched', idEx, rs1', rs2', backr⟩ :=
    pipelineCycle_spec calm halted advance (by rw [execute]) (by rw [isa]; exact back.running) word
  rw [isa, next, back.memory] at fetched'
  obtain ⟨old, latch⟩ := issued
  refine ⟨r, cycle, .issued lt ⟨?_, ?_, ?_⟩ (backr _ _ _ (backd _ _ _ back)) ⟨old, ?_⟩ fetched'⟩
  · rw [rs1', rs1, ifId, calm.rs1]
  · rw [rs2', rs2, ifId, calm.rs2]
  · rw [idEx]
    exact load
  · rw [idEx, latch]

/-- A cycle at the end of the program. -/
theorem Sim.drain (prog : Program ctx len) {p : Pipeline} {w m : Nat} (calm : Calm p)
    (back : Back ctx w m len p) (idle : p.idEx.valid = false) (empty : p.ifId.valid = false)
    (pc : p.isa.pc = (trace ctx len).pc) :
    ∃ r, pipelineCycle p = some r ∧ Sim ctx len (len - m) r := by
  obtain ⟨r, cycle, fetched, calm', back', idle'⟩ :=
    pipelineCycle_idle prog (Nat.le_refl len) calm back idle empty
      (by rw [pc]; exact prog.word (Nat.le_refl len))
  rw [pc, Fetched, prog.outside, if_neg Bool.false_ne_true] at fetched
  exact ⟨r, cycle, .drained calm' back' idle' fetched.1 fetched.2⟩

/-- A cycle that executes instruction `e`. -/
theorem Sim.execute (prog : Program ctx len) (safe : ∀ e < len, StepSafe ctx e) {p : Pipeline}
    {e : Nat} (lt : e < len) (calm : Calm p) (back : Back ctx (readAt ctx e) (issueAt ctx e) e p)
    (issued : Issued ctx e p)
    (fetched : Fetched p ((trace ctx e).pc + 4) (trace ctx (issueAt ctx e)).memory) :
    ∃ r j, pipelineCycle p = some r ∧ j < 2 * (len - e) + 2 ∧ Sim ctx len j r := by
  obtain ⟨q, advance, backq, ifId, idEx, pc⟩ := back.advance prog (Nat.le_of_lt lt)
  have issuedq : Issued ctx e q := by
    obtain ⟨old, latch⟩ := issued
    exact ⟨old, by rw [idEx, latch]⟩
  obtain ⟨x, execute, backx, idlex, read, rd, rs1, rs2, taken, flow⟩ :=
    pipelineExecute_spec prog lt (safe e lt) backq issuedq
  -- without an instruction to decode, the next one is fetched now
  have refetch : x.ifId.valid = false → x.isa.pc = (trace ctx (e + 1)).pc →
      (bubble ctx (e + 1) = true ∨ e + 1 = len) →
      ∃ r, pipelineCycle p = some r ∧ Sim ctx len (2 * (len - (e + 1)) + 3) r := by
    intro empty target behind
    have front : pipelineDecode (pipelineExecute q) =
        { x with idEx := { x.idEx with valid := false } } := by
      rw [execute, pipelineDecode_idle empty]
    obtain ⟨r, cycle, fetched', idExr, rs1r, rs2r, backr⟩ :=
      pipelineCycle_spec calm back.running advance front backx.running
        (by simpa [target] using prog.word (Nat.succ_le_of_lt lt))
    have fetched' : Fetched r (trace ctx (e + 1)).pc (trace ctx e).memory := by
      simpa [target, backx.memory] using fetched'
    refine ⟨r, cycle, .fetched (Nat.succ_le_of_lt lt) behind ⟨?_, ?_, ?_⟩
      (backr _ _ _ (backx.congr rfl rfl rfl rfl rfl)) (by rw [idExr]) fetched'⟩
    · rw [rs1r, rs1, ifId, calm.rs1]
    · rw [rs2r, rs2, ifId, calm.rs2]
    · rw [idExr]
      simpa [read, rd, idEx] using calm.load
  cases h : bubble ctx (e + 1) with
  | true =>
    obtain ⟨r, cycle, sim⟩ := refetch (taken h).1 (taken h).2 (Or.inl h)
    exact ⟨r, _, cycle, by omega, sim⟩
  | false =>
    obtain ⟨ifIdx, pcx, next⟩ := flow h
    rw [← next] at fetched
    rcases Nat.lt_or_eq_of_le (show e + 1 ≤ len from lt) with lt' | eq
    · have issue : issueAt ctx (e + 1) = e := by simp [issueAt, h]
      rw [← readAt_succ h] at fetched backx
      obtain ⟨r, cycle, sim⟩ := Sim.issue prog lt' (safe _ lt') calm back.running advance execute
        fetched (ifIdx.trans ifId) (pcx.trans pc) (by rw [issue]; exact backx)
      exact ⟨r, _, cycle, by omega, sim⟩
    · rw [Fetched, eq, prog.outside, if_neg Bool.false_ne_true] at fetched
      obtain ⟨r, cycle, sim⟩ := refetch (by rw [ifIdx, ifId, fetched.1])
        (by rw [pcx, pc, eq, fetched.2]) (Or.inr eq)
      exact ⟨r, _, cycle, by omega, sim⟩

/-- One cycle. -/
theorem Sim.step (prog : Program ctx len) (safe : ∀ e < len, StepSafe ctx e) {k : Nat} {p : Pipeline}
    (sim : Sim ctx len k p) :
    ∃ q j, pipelineCycle p = some q ∧ (j < k ∨ j = 0) ∧ Sim ctx len j q := by
  cases sim with
  | start calm back idle empty pc =>
    obtain ⟨r, cycle, fetched, calm', back', idle'⟩ :=
      pipelineCycle_idle prog (Nat.zero_le len) calm back idle empty
        (by rw [pc]; exact prog.word (Nat.zero_le len))
    rw [pc] at fetched
    exact ⟨r, _, cycle, Or.inl (by omega),
      .fetched (Nat.zero_le len) (Or.inl rfl) calm' back' idle' fetched⟩
  | @fetched _ w e le behind calm back idle fetched =>
    rcases Nat.lt_or_eq_of_le le with lt | rfl
    · have behind : bubble ctx e = true := behind.resolve_right (by omega)
      have read : readAt ctx e = e - 1 := by simp [readAt, behind]
      have issue : issueAt ctx e = e := by simp [issueAt, behind]
      obtain ⟨q, advance, backq, ifId, idEx, pc⟩ := back.advance prog le
      have execute := pipelineExecute_idle (by rw [idEx, idle] : q.idEx.valid = false)
      rw [← read] at fetched backq
      obtain ⟨r, cycle, sim⟩ := Sim.issue prog lt (safe e lt) calm back.running advance execute
        fetched ifId pc (by
          rw [issue]
          exact ⟨backq.running, backq.registers, backq.memory, backq.wb, Or.inl ⟨rfl, rfl⟩⟩)
      exact ⟨r, _, cycle, Or.inl (by omega), sim⟩
    · rw [Fetched, prog.outside, if_neg Bool.false_ne_true] at fetched
      obtain ⟨r, cycle, sim⟩ := Sim.drain prog calm back idle fetched.1 fetched.2
      exact ⟨r, _, cycle, Or.inl (by omega), sim⟩
  | @issued _ e lt calm back issued fetched =>
    obtain ⟨r, j, cycle, lt', sim⟩ := Sim.execute prog safe lt calm back issued fetched
    exact ⟨r, j, cycle, Or.inl lt', sim⟩
  | @drained _ w calm back idle empty pc =>
    obtain ⟨r, cycle, sim⟩ := Sim.drain prog calm back idle empty pc
    refine ⟨r, _, cycle, ?_, sim⟩
    omega

/-- With no cycle left, everything is written back. -/
theorem Sim.rest {p : Pipeline} (sim : Sim ctx len 0 p) :
    p.isa.registers = (trace ctx len).registers ∧ p.isa.memory = (trace ctx len).memory := by
  generalize h : 0 = k at sim
  cases sim with
  | start => omega
  | fetched => omega
  | issued => omega
  | @drained _ w calm back idle empty pc =>
    obtain rfl : w = len := by
      rcases back.wb with ⟨h', -⟩ | ⟨h', -⟩ <;> omega
    exact ⟨back.registers, back.memory⟩

/-! ## The refinement -/

/-- The first `e + 1` instructions are fetched from the memory. -/
def InProgram (ctx : IsaContext) (e : Nat) : Prop := ∀ n ≤ e, inMemory (trace ctx n).pc = true

/-- If every instruction of a program that finishes is safe, the pipeline comes to rest in the
registers and the memory the interpreter finishes with. -/
theorem pipeline_settles (registers : Reg → UInt32) (memory : Memory)
    (safe : ∀ e, InProgram (.start registers memory) e → StepSafe (.start registers memory) e)
    (s : IsaContext) (finishes : (IsaContext.start registers memory).Finishes s) :
    ∃ N, ∀ n, N ≤ n →
      ∃ p, after pipelineCycle n (pipelineInit (.start registers memory)) = some p ∧
        p.isa.registers = s.registers ∧ p.isa.memory = s.memory := by
  set ctx := IsaContext.start registers memory with hctx
  obtain ⟨len, prog, regs, mem⟩ := finishes.program rfl
  have safe : ∀ e < len, StepSafe ctx e := by
    intro e lt
    apply safe
    intro n le
    exact prog.inside n (by omega)
  have init : Sim ctx len (2 * len + 4) (pipelineInit ctx) :=
    .start ⟨rfl, rfl, nofun⟩ ⟨rfl, rfl, rfl, Or.inl ⟨rfl, rfl⟩, Or.inl ⟨rfl, rfl⟩⟩ rfl rfl rfl
  obtain ⟨N, settled⟩ := settles
    (fun k p sim => by
      obtain ⟨q, j, cycle, fall, sim⟩ := Sim.step prog safe sim
      exact ⟨q, j, cycle, by omega, sim⟩)
    (fun p sim => by
      obtain ⟨q, j, cycle, fall, sim⟩ := Sim.step prog safe sim
      obtain rfl : j = 0 := by omega
      exact ⟨q, cycle, sim⟩) init
  refine ⟨N, fun n le => ?_⟩
  obtain ⟨p, run, sim⟩ := settled n le
  obtain ⟨hregs, hmem⟩ := sim.rest
  exact ⟨p, run, by rw [hregs, regs], by rw [hmem, mem]⟩

/-- Forwarding at distance one: `ADDI x1, x0, 5; ADD x3, x1, x1; JALR x0, x5, 0`, with the end of
the memory in `x5`. -/
def forwardingProgram : IsaContext :=
  .start (Function.update (fun _ => 0) 5 4096)
    (isaLoadProgram (fun _ => 0) [0x00500093, 0x001081B3, 0x00028067])

theorem pipeline_settles_forwarding :
    ∃ N, ∀ n, N ≤ n →
      ∃ p, after pipelineCycle n (pipelineInit forwardingProgram) = some p ∧
        p.isa.registers = (trace forwardingProgram 3).registers ∧
        p.isa.memory = (trace forwardingProgram 3).memory := by
  have outside : inMemory (trace forwardingProgram 3).pc = false := by decide
  have halted : (trace forwardingProgram 3).halted = false := by decide
  have safe : ∀ e, InProgram forwardingProgram e → StepSafe forwardingProgram e := by
    intro e inside
    have lt : e < 3 := by
      by_contra h
      rw [inside 3 (by omega)] at outside
      cases outside
    interval_cases e <;> decide
  exact pipeline_settles _ _ safe _
    ⟨⟨3, after_eq_trace (by decide)⟩, IsaContext.onlyNops_of_outside halted outside⟩

/-! ## A result that is lost -/

/-- All latches are empty and nothing is left to fetch. -/
structure Idle (p : Pipeline) : Prop where
  running : p.isa.halted = false
  hazard : detectLoadUseHazard p = false
  outside : inMemory p.isa.pc = false
  empty : p.ifId.valid = false ∧ p.idEx.valid = false ∧ p.exMem.valid = false ∧ p.memWb.valid = false

instance (p : Pipeline) : Decidable (Idle p) :=
  decidable_of_iff (_ ∧ _ ∧ _ ∧ _)
    ⟨fun ⟨running, hazard, outside, empty⟩ => ⟨running, hazard, outside, empty⟩,
      fun ⟨running, hazard, outside, empty⟩ => ⟨running, hazard, outside, empty⟩⟩

/-- An idle pipeline keeps its registers. -/
theorem Idle.cycle {p : Pipeline} (idle : Idle p) :
    ∃ q, pipelineCycle p = some q ∧ Idle q ∧ q.isa.registers = p.isa.registers := by
  obtain ⟨running, hazard, outside, ifId, idEx, exMem, memWb⟩ := idle
  refine ⟨{ p with
      memWb := { p.memWb with valid := false }
      exMem := { p.exMem with valid := false }
      idEx := { p.idEx with valid := false }
      ifId := { p.ifId with valid := false }
      cycles := p.cycles + 1 }, ?_, ⟨running, hazard, outside, rfl, rfl, rfl, rfl⟩, rfl⟩
  simp [pipelineCycle, running, hazard, pipelineWriteback, memWb, pipelineMemory, exMem,
    pipelineExecute, idEx, pipelineDecode, ifId, pipelineFetch, outside]

/-- `ADDI x1, x0, 5; ADDI x2, x0, 1; ADD x3, x1, x0; JALR x0, x5, 0`. -/
def staleProgram : IsaContext :=
  .start (Function.update (fun _ => 0) 5 4096)
    (isaLoadProgram (fun _ => 0) [0x00500093, 0x00100113, 0x000081B3, 0x00028067])

/-- ADD reads `x1` two instructions after it is written and gets the old value: the interpreter
finishes with 5 in `x3`, the pipeline with 0. -/
theorem pipeline_stale_operand :
    ¬ ∀ registers memory s, (IsaContext.start registers memory).Finishes s →
      ∃ N, ∀ n, N ≤ n →
        ∃ p, after pipelineCycle n (pipelineInit (.start registers memory)) = some p ∧
          p.isa.registers = s.registers ∧ p.isa.memory = s.memory := by
  intro claim
  have outside : inMemory (trace staleProgram 4).pc = false := by decide
  have halted : (trace staleProgram 4).halted = false := by decide
  obtain ⟨N, settled⟩ := claim _ _ (trace staleProgram 4)
    ⟨⟨4, after_eq_trace (by decide)⟩, IsaContext.onlyNops_of_outside halted outside⟩
  have idles : (after pipelineCycle 10 (pipelineInit staleProgram)).any
      (fun p => decide (Idle p ∧ p.isa.registers 3 = 0)) = true := by decide
  obtain ⟨p, run, idle⟩ := (Option.any_eq_true _ _).1 idles
  have stays : ∀ p, Idle p ∧ p.isa.registers 3 = 0 →
      ∃ q, pipelineCycle p = some q ∧ Idle q ∧ q.isa.registers 3 = 0 := by
    rintro p ⟨idle, x3⟩
    obtain ⟨q, cycle, idle', same⟩ := idle.cycle
    exact ⟨q, cycle, idle', by rw [same, x3]⟩
  obtain ⟨q, run', -, x3⟩ := after_invariant stays (of_decide_eq_true idle) N
  obtain ⟨r, run'', same, -⟩ := settled (10 + N) (by omega)
  rw [after_add, show IsaContext.start _ _ = staleProgram from rfl, run, Option.bind_some, run']
    at run''
  obtain rfl := Option.some.inj run''
  rw [same] at x3
  exact absurd x3 (by decide)

end MiniHardware.Cpu
