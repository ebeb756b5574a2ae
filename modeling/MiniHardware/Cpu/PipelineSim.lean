import MiniHardware.Cpu.PipelineStages

/-!
# The pipeline against the interpreter

The pipeline forwards the result of the previous instruction only, and reads
its operands before the instruction two places ahead has written back: the
registers instruction `e` is decoded with are those of `readAt e`. `StepSafe`
says that this is no difference for one instruction. If it holds of all of
them, the pipeline settles in the interpreter's registers and memory.
-/

namespace MiniHardware.Cpu
open Lib

/-! ## The condition -/

/-- Instruction `e` is issued behind an empty slot: it is the first one, or its predecessor
transfers control. -/
def bubble (ctx : IsaContext) : Nat → Bool
  | 0 => true
  | e + 1 => transfers (trace ctx e) (instAt ctx e)

/-- Instruction `e` is fetched and decoded in the context of this index. -/
def readAt (ctx : IsaContext) (e : Nat) : Nat :=
  if bubble ctx e || bubble ctx (e - 1) then e - 1 else e - 2

/-- The predecessor of instruction `e` forwards its result as `r`. -/
def forwards (ctx : IsaContext) (e : Nat) (r : Reg) : Bool :=
  !bubble ctx e && regWriteEn (instAt ctx (e - 1)).opcode &&
    decide ((instAt ctx (e - 1)).rd ≠ 0) && decide ((instAt ctx (e - 1)).rd = r)

/-- Instruction `e` gets the value of `r`. -/
def Fresh (ctx : IsaContext) (e : Nat) (r : Reg) : Prop :=
  forwards ctx e r = true ∨ (trace ctx (readAt ctx e)).registers r = (trace ctx e).registers r

/-- Instruction `e` is the one the interpreter executes and gets its operands; a load writes a
register and is in range; a store in range has its value forwarded or stores its own immediate; a
jump that links goes to the next instruction. -/
structure StepSafe (ctx : IsaContext) (e : Nat) : Prop where
  code : loadWord (trace ctx (readAt ctx e)).memory (trace ctx e).pc =
    loadWord (trace ctx e).memory (trace ctx e).pc
  first : usesRs1 (instAt ctx e).opcode = true → Fresh ctx e (instAt ctx e).rs1
  second : usesRs2 (instAt ctx e).opcode = true → Fresh ctx e (instAt ctx e).rs2
  load : (instAt ctx e).opcode = .lw →
    (instAt ctx e).rd ≠ 0 ∧ inMemory (accessAddr (trace ctx e) (instAt ctx e)) = true
  store : (instAt ctx e).opcode = .sw →
    inMemory (accessAddr (trace ctx e) (instAt ctx e)) = true →
      forwards ctx e (instAt ctx e).rs2 = true ∨
        (instAt ctx e).immediate.toUInt32 = (trace ctx e).registers (instAt ctx e).rs2
  link : jumps (instAt ctx e).opcode = true → (instAt ctx e).rd ≠ 0 →
    (trace ctx (e + 1)).pc = (trace ctx e).pc + 4

instance (ctx : IsaContext) (e : Nat) (r : Reg) : Decidable (Fresh ctx e r) :=
  inferInstanceAs (Decidable (_ ∨ _))

instance (ctx : IsaContext) (e : Nat) : Decidable (StepSafe ctx e) :=
  decidable_of_iff (_ ∧ _ ∧ _ ∧ _ ∧ _ ∧ _)
    ⟨fun ⟨code, first, second, load, store, link⟩ => ⟨code, first, second, load, store, link⟩,
      fun ⟨code, first, second, load, store, link⟩ => ⟨code, first, second, load, store, link⟩⟩

/-! ## The back of the pipeline -/

variable {ctx : IsaContext} {len : Nat}

theorem Program.executes (prog : Program ctx len) {e : Nat} (lt : e < len) :
    Executes (trace ctx e) (instAt ctx e) (trace ctx (e + 1)) := by
  refine ⟨prog.running e (by omega), ?_, prog.exec e lt⟩
  have fetch := prog.fetch e lt
  rw [isaFetch_of_inMemory (prog.running e (by omega)) (prog.inside e lt),
    Option.map_eq_some_iff] at fetch
  obtain ⟨raw, -, h⟩ := fetch
  exact ⟨raw, h.symm⟩

/-- Registers written back before `w`, memory written before `m`, executed before `e`: the last two
latches hold instruction `w` if it is before `m`, and instruction `m` if it is before `e`. -/
structure Back (ctx : IsaContext) (w m e : Nat) (p : Pipeline) : Prop where
  running : p.isa.halted = false
  registers : p.isa.registers = (trace ctx w).registers
  memory : p.isa.memory = (trace ctx m).memory
  wb : m = w ∧ p.memWb.valid = false ∨
    m = w + 1 ∧ WbHolds p.memWb (instAt ctx w) (trace ctx m)
  ex : e = m ∧ p.exMem.valid = false ∨
    e = m + 1 ∧ ExHolds p.exMem (instAt ctx m) (trace ctx m) (trace ctx e)

/-- The back depends on the last two latches, the registers and the memory. -/
theorem Back.congr {w m e : Nat} {p q : Pipeline} (back : Back ctx w m e p)
    (running : q.isa.halted = p.isa.halted) (registers : q.isa.registers = p.isa.registers)
    (memory : q.isa.memory = p.isa.memory) (memWb : q.memWb = p.memWb)
    (exMem : q.exMem = p.exMem) : Back ctx w m e q := by
  obtain ⟨h1, h2, h3, h4, h5⟩ := back
  exact ⟨by rw [running, h1], by rw [registers, h2], by rw [memory, h3], by rw [memWb]; exact h4,
    by rw [exMem]; exact h5⟩

/-- Write-back and memory stage move both instructions on by one stage. -/
theorem Back.advance (prog : Program ctx len) {w m e : Nat} {p : Pipeline} (le : e ≤ len)
    (back : Back ctx w m e p) :
    ∃ q, pipelineMemory (pipelineWriteback p) = some q ∧ Back ctx m e e q ∧ q.ifId = p.ifId ∧
      q.idEx = p.idEx ∧ q.isa.pc = p.isa.pc := by
  have written : (pipelineWriteback p).isa.registers = (trace ctx m).registers := by
    rcases back.wb with ⟨rfl, empty⟩ | ⟨rfl, holds⟩
    · simp [pipelineWriteback, empty, back.registers]
    · have step := prog.executes (e := w) (by rcases back.ex with h | h <;> omega)
      have := holds.writeback step
      rw [← back.registers] at this
      simpa [pipelineWriteback, holds.valid] using this
  have same : (pipelineWriteback p).isa.memory = p.isa.memory ∧
      (pipelineWriteback p).isa.pc = p.isa.pc ∧ (pipelineWriteback p).isa.halted = p.isa.halted ∧
      (pipelineWriteback p).exMem = p.exMem ∧ (pipelineWriteback p).ifId = p.ifId ∧
      (pipelineWriteback p).idEx = p.idEx := by
    unfold pipelineWriteback
    split <;> simp
  obtain ⟨mem, pc, halted, exMem, ifId, idEx⟩ := same
  set r := pipelineWriteback p
  rcases back.ex with ⟨rfl, empty⟩ | ⟨rfl, holds⟩
  · refine ⟨{ r with memWb := { r.memWb with valid := false } }, ?_, ?_, ifId, idEx, pc⟩
    · simp [pipelineMemory, exMem, empty]
    · refine ⟨halted.trans back.running, written, mem.trans back.memory, Or.inl ⟨rfl, rfl⟩,
        Or.inl ⟨rfl, ?_⟩⟩
      rw [exMem]
      exact empty
  · obtain ⟨v, result, value⟩ := holds.result
    have store := holds.store
    rw [← back.memory, ← mem] at result store
    have moved : pipelineMemory r = some
        { r with
          memWb :=
            { r.memWb with
              valid := true
              aluResult := v
              regWriteEn := p.exMem.regWriteEn
              rd := p.exMem.rd
              pc := p.exMem.pc }
          isa := { r.isa with memory := (trace ctx (m + 1)).memory }
          exMem := { p.exMem with valid := false } } := by
      simp [pipelineMemory, exMem, holds.valid, result, store]
    refine ⟨_, moved, ⟨halted.trans back.running, written, rfl, ?_, Or.inl ⟨rfl, rfl⟩⟩, ifId, idEx, pc⟩
    exact Or.inr ⟨rfl, rfl, holds.writeEn, holds.rd, value⟩

/-! ## The stages before it -/

/-- The fetch stage has tried to fetch at `pc` from `memory`. -/
def Fetched (p : Pipeline) (pc : UInt32) (memory : Memory) : Prop :=
  if inMemory pc then
    ∃ raw, loadWord memory pc = some raw ∧ p.ifId.valid = true ∧ p.ifId.inst = isaDecode raw ∧
      p.ifId.pc = pc ∧ p.isa.pc = pc + 4
  else p.ifId.valid = false ∧ p.isa.pc = pc

/-- The latch before execution holds instruction `e`. -/
def Issued (ctx : IsaContext) (e : Nat) (p : Pipeline) : Prop :=
  ∃ old, p.idEx = decodeReg old (instAt ctx e) (trace ctx e).pc (trace ctx (readAt ctx e)).registers

/-- Nothing for the hazard unit to see: `if_id` has no register fields, and no load to register 0
has been decoded. -/
structure Calm (p : Pipeline) : Prop where
  rs1 : p.ifId.rs1 = 0
  rs2 : p.ifId.rs2 = 0
  load : p.idEx.memRead = true → p.idEx.rd ≠ 0

theorem Calm.no_hazard {p : Pipeline} (calm : Calm p) : detectLoadUseHazard p = false := by
  have := calm.load
  simp_all [detectLoadUseHazard, calm.rs1, calm.rs2]

/-- The counter `pc` has four bytes of memory if it passes the check. -/
def Word (pc : UInt32) : Prop := inMemory pc = true → pc.toNat + 4 ≤ 4096

theorem Program.word (prog : Program ctx len) {e : Nat} (le : e ≤ len) : Word (trace ctx e).pc := by
  intro inside
  rcases Nat.lt_or_eq_of_le le with lt | rfl
  · exact le_of_isaFetch (prog.running e le) inside (prog.fetch e lt)
  · rw [prog.outside] at inside
    cases inside

theorem Program.word_next (prog : Program ctx len) {e : Nat} (lt : e < len) :
    Word ((trace ctx e).pc + 4) := by
  intro inside
  have := prog.word (Nat.le_of_lt lt) (prog.inside e lt)
  rw [inMemory_iff] at inside
  simp only [UInt32.toNat_add, UInt32.reduceToNat] at inside ⊢
  omega

theorem pipelineFetch_spec {p : Pipeline} (running : p.isa.halted = false)
    (word : Word p.isa.pc) :
    ∃ q, pipelineFetch p = some q ∧ Fetched q p.isa.pc p.isa.memory ∧ q.idEx = p.idEx ∧
      q.ifId.rs1 = p.ifId.rs1 ∧ q.ifId.rs2 = p.ifId.rs2 ∧
      ∀ w m e, Back ctx w m e p → Back ctx w m e q := by
  cases inside : inMemory p.isa.pc with
  | false =>
    refine ⟨_, if_pos (Or.inr (by simp [inside])), ?_, rfl, rfl, rfl, fun w m e back => ?_⟩
    · simp [Fetched, inside]
    · exact back.congr rfl rfl rfl rfl rfl
  | true =>
    obtain ⟨raw, load⟩ := (@loadWord_isSome_iff p.isa.memory _).2 (word inside)
    have fetch : isaFetch p.isa = some (isaDecode raw) := by
      rw [isaFetch_of_inMemory running inside, load]
      rfl
    refine ⟨_, (if_neg (by simp [running, inside])).trans (congrArg (Option.map _) fetch), ?_, rfl,
      rfl, rfl, fun w m e back => ?_⟩
    · simp [Fetched, inside, load]
    · exact back.congr rfl rfl rfl rfl rfl

theorem pipelineDecode_idle {p : Pipeline} (empty : p.ifId.valid = false) :
    pipelineDecode p = { p with idEx := { p.idEx with valid := false } } := by
  simp [pipelineDecode, empty]

theorem pipelineDecode_valid {p : Pipeline} (valid : p.ifId.valid = true) :
    pipelineDecode p =
      { p with
        idEx := decodeReg p.idEx p.ifId.inst p.ifId.pc p.isa.registers
        ifId := { p.ifId with valid := false } } := by
  simp [pipelineDecode, valid]

theorem pipelineExecute_idle {p : Pipeline} (idle : p.idEx.valid = false) :
    pipelineExecute p = { p with exMem := { p.exMem with valid := false } } := by
  simp [pipelineExecute, idle]

theorem pipelineExecute_valid {p : Pipeline} {a b result : UInt32} {taken : Bool}
    (valid : p.idEx.valid = true) (ha : (forward p p.idEx.rs1).getD p.idEx.rs1Val = a)
    (hb : (forward p p.idEx.rs2).getD p.idEx.rs2Val = b)
    (alu : pipelineAlu p.idEx a b = (result, taken)) :
    pipelineExecute p =
      { p with
        exMem := executeReg p.exMem p.idEx b result taken
        idEx := { p.idEx with valid := false, branchTaken := taken }
        ifId := if taken then { p.ifId with valid := false } else p.ifId
        isa := if taken then { p.isa with pc := result } else p.isa
        bubbleCount := if taken then p.bubbleCount + 1 else p.bubbleCount } := by
  subst ha hb
  simp [pipelineExecute, valid, forwardingUnit, alu]

/-! ## Execution -/

/-- The context memory and operands are at when instruction `e` is executed. -/
def issueAt (ctx : IsaContext) (e : Nat) : Nat := if bubble ctx e then e else e - 1

theorem readAt_succ {e : Nat} (flow : bubble ctx (e + 1) = false) :
    readAt ctx (e + 1) = issueAt ctx e := by
  rw [readAt, issueAt, flow, Bool.false_or, Nat.add_sub_cancel, show e + 1 - 2 = e - 1 from rfl]

/-- What is forwarded to instruction `e` is the right value. -/
theorem Back.forward_eq {e : Nat} {p : Pipeline} (back : Back ctx (issueAt ctx e) e e p)
    (r : Reg) :
    forward p r = if forwards ctx e r then some ((trace ctx e).registers r) else none := by
  have empty : p.exMem.valid = false := by
    rcases back.ex with ⟨-, h⟩ | ⟨h, -⟩
    · exact h
    · omega
  have noEx : p.exMem.Writes r = false := by simp [PipelineReg.Writes, empty]
  rw [forward, noEx, if_neg Bool.false_ne_true]
  rcases back.wb with ⟨at_e, empty⟩ | ⟨at_e, holds⟩
  · have behind : bubble ctx e = true := by
      cases h : bubble ctx e with
      | true => rfl
      | false =>
        rw [issueAt, h, if_neg Bool.false_ne_true] at at_e
        obtain rfl : e = 0 := by omega
        cases h
    simp [PipelineReg.Writes, empty, forwards, behind]
  · have flow : bubble ctx e = false := by
      cases h : bubble ctx e with
      | false => rfl
      | true =>
        rw [issueAt, h, if_pos rfl] at at_e
        omega
    have index : issueAt ctx e = e - 1 := by rw [issueAt, flow, if_neg Bool.false_ne_true]
    rw [index] at holds
    have same : p.memWb.Writes r = forwards ctx e r := by
      simp [PipelineReg.Writes, forwards, flow, holds.valid, holds.writeEn, holds.rd]
    rw [same]
    cases h : forwards ctx e r with
    | false => rfl
    | true =>
      simp only [forwards, Bool.and_eq_true, decide_eq_true_eq] at h
      obtain ⟨⟨⟨-, writes⟩, nonzero⟩, rfl⟩ := h
      rw [if_pos rfl, if_pos rfl, holds.value writes nonzero]

theorem Back.operand {e : Nat} {p : Pipeline} (back : Back ctx (issueAt ctx e) e e p) {r : Reg}
    (fresh : Fresh ctx e r) :
    (forward p r).getD ((trace ctx (readAt ctx e)).registers r) = (trace ctx e).registers r := by
  rw [back.forward_eq]
  cases h : forwards ctx e r with
  | true => rfl
  | false =>
    rcases fresh with h' | h'
    · rw [h] at h'
      cases h'
    · exact h'

/-- One instruction is executed: the pipeline goes on where the interpreter does. -/
theorem pipelineExecute_spec (prog : Program ctx len) {e : Nat} {p : Pipeline} (lt : e < len)
    (safe : StepSafe ctx e) (back : Back ctx (issueAt ctx e) e e p) (issued : Issued ctx e p) :
    ∃ q, pipelineExecute p = q ∧ Back ctx (issueAt ctx e) e (e + 1) q ∧ q.idEx.valid = false ∧
      q.idEx.memRead = p.idEx.memRead ∧ q.idEx.rd = p.idEx.rd ∧
      q.ifId.rs1 = p.ifId.rs1 ∧ q.ifId.rs2 = p.ifId.rs2 ∧
      (bubble ctx (e + 1) = true → q.ifId.valid = false ∧ q.isa.pc = (trace ctx (e + 1)).pc) ∧
      (bubble ctx (e + 1) = false →
        q.ifId = p.ifId ∧ q.isa.pc = p.isa.pc ∧ (trace ctx (e + 1)).pc = (trace ctx e).pc + 4) := by
  obtain ⟨old, latch⟩ := issued
  have step := prog.executes lt
  obtain ⟨effect, he, -, nextPc, -⟩ := step.effect_eq
  set inst := instAt ctx e with hinst
  set s := trace ctx e with hs
  -- the operands of the ALU
  set a := (forward p p.idEx.rs1).getD p.idEx.rs1Val with ha
  set b := (forward p p.idEx.rs2).getD p.idEx.rs2Val with hb
  have first : usesRs1 inst.opcode → a = s.registers inst.rs1 := by
    intro uses
    rw [ha, latch]
    exact back.operand (safe.first uses)
  have second : usesRs2 inst.opcode → b = s.registers inst.rs2 := by
    intro uses
    have register : isImmOp inst.opcode = false := by
      cases op : inst.opcode <;> simp_all [usesRs2, isImmOp]
    have := back.operand (safe.second uses)
    rw [hb, latch]
    simpa [decodeReg, register] using this
  have store : inst.opcode = .sw →
      inMemory (s.registers inst.rs1 + inst.immediate.toUInt32) = true → b = s.registers inst.rs2 := by
    intro isStore inRange
    have imm : isImmOp inst.opcode = true := by rw [isStore]; rfl
    have value := safe.store isStore inRange
    rw [hb, latch]
    simp only [decodeReg, imm, if_true]
    rw [back.forward_eq]
    cases h : forwards ctx e inst.rs2 with
    | true => rfl
    | false =>
      rw [h] at value
      simpa using value
  obtain ⟨taken, next⟩ :=
    @pipelineAlu_transfers _ _ _ p.idEx a b (by rw [latch]; rfl)
      (by rw [latch]; rfl) (by rw [latch]; rfl) (by rw [latch]; rfl) he first second
  have holds : ExHolds (executeReg p.exMem p.idEx b (pipelineAlu p.idEx a b).1
      (pipelineAlu p.idEx a b).2) inst s (trace ctx (e + 1)) := by
    apply ExHolds.of_execute step
    any_goals first | (rw [latch]; rfl) | assumption
    · exact fun isLoad => (safe.load isLoad).2
    · exact safe.link
  have valid : p.idEx.valid = true := by rw [latch]; rfl
  generalize alu : pipelineAlu p.idEx a b = out at taken next holds
  obtain ⟨result, jump⟩ := out
  refine ⟨_, rfl, ?_⟩
  rw [pipelineExecute_valid valid ha.symm hb.symm alu, show bubble ctx (e + 1) = jump from taken.symm,
    nextPc]
  rw [← taken] at next
  cases jump with
  | true =>
    exact ⟨⟨back.running, back.registers, back.memory, back.wb, Or.inr ⟨rfl, holds⟩⟩, rfl, rfl, rfl,
      rfl, rfl, fun _ => ⟨rfl, next.symm⟩, fun h => Bool.noConfusion h⟩
  | false =>
    exact ⟨⟨back.running, back.registers, back.memory, back.wb, Or.inr ⟨rfl, holds⟩⟩, rfl, rfl, rfl,
      rfl, rfl, fun h => Bool.noConfusion h, fun _ => ⟨rfl, rfl, next⟩⟩

end MiniHardware.Cpu
