import MiniHardware.Cpu.IsaRun
import MiniHardware.Cpu.Pipeline

/-!
# The latches of the pipeline against the interpreter

`WbHolds` and `ExHolds` say what the last two latches must hold for an
instruction that leads from one context of the interpreter to the next.
-/

namespace MiniHardware.Cpu

/-! ## What an instruction needs -/

/-- The decoder has no byte accesses. -/
theorem isaDecode_opcode (raw : UInt32) :
    (isaDecode raw).opcode ≠ .lb ∧ (isaDecode raw).opcode ≠ .sb := by
  simp only [isaDecode, decodeRegister, decodeImmediate, decodeBranch, nopInstruction]
  constructor <;> repeat' split
  all_goals simp_all

def usesRs1 (opcode : Opcode) : Bool :=
  match opcode with
  | .lui | .auipc | .jal | .nop => false
  | _ => true

/-- The operand `b` of the ALU comes from `rs2`. -/
def usesRs2 (opcode : Opcode) : Bool :=
  match opcode with
  | .add | .sub | .and | .or | .xor | .sll | .srl | .sra | .slt | .sltu
  | .beq | .bne | .blt | .bge | .bltu | .bgeu => true
  | _ => false

/-- The instruction transfers control: a jump, or a branch whose condition holds. -/
def transfers (s : IsaContext) (inst : Instruction) : Bool :=
  let a := s.registers inst.rs1
  let b := s.registers inst.rs2
  match inst.opcode with
  | .jal | .jalr => true
  | .beq => a = b
  | .bne => a ≠ b
  | .blt => a.toInt32 < b.toInt32
  | .bge => b.toInt32 ≤ a.toInt32
  | .bltu => a < b
  | .bgeu => b ≤ a
  | _ => false

variable {s t : IsaContext} {inst : Instruction} {effect : Effect}

/-- The ALU of the pipeline on right operands decides transfers as the interpreter does. -/
theorem pipelineAlu_transfers {latch : PipelineReg} {a b : UInt32} (hinst : latch.inst = inst)
    (pc : latch.pc = s.pc) (imm : latch.imm = inst.immediate)
    (taken : latch.branchTaken = jumps inst.opcode) (exec : isaEffect s inst = some effect)
    (first : usesRs1 inst.opcode → a = s.registers inst.rs1)
    (second : usesRs2 inst.opcode → b = s.registers inst.rs2) :
    (pipelineAlu latch a b).2 = transfers s inst ∧
      effect.nextPc = if transfers s inst then (pipelineAlu latch a b).1 else s.pc + 4 := by
  cases op : inst.opcode
  case lw | sw =>
    simp only [isaEffect, op] at exec
    split at exec <;> simp [Option.bind_eq_some_iff, Option.map_eq_some_iff] at exec
    · obtain ⟨_, -, rfl⟩ := exec
      simp [pipelineAlu, hinst, op, taken, jumps, transfers]
    · obtain rfl := exec
      simp [pipelineAlu, hinst, op, taken, jumps, transfers]
  all_goals
    simp only [isaEffect, op, Option.some.injEq] at exec
    simp only [op, usesRs1, usesRs2, forall_const] at first second
    subst exec
    simp [pipelineAlu, hinst, op, taken, jumps, transfers, pc, imm, first, second]
  all_goals split <;> simp_all

/-- What the ALU of the pipeline computes is what the instruction writes, jumps and loads apart. -/
theorem pipelineAlu_value {latch : PipelineReg} {a b : UInt32} (hinst : latch.inst = inst)
    (pc : latch.pc = s.pc) (imm : latch.imm = inst.immediate)
    (exec : isaEffect s inst = some effect)
    (first : usesRs1 inst.opcode → a = s.registers inst.rs1)
    (second : usesRs2 inst.opcode → b = s.registers inst.rs2)
    (writes : regWriteEn inst.opcode = true) (noLoad : memRead inst.opcode = false)
    (noJump : jumps inst.opcode = false) :
    (pipelineAlu latch a b).1 = effect.rdVal := by
  cases op : inst.opcode
  case lw | lb => simp [op, memRead] at noLoad
  case jal | jalr => simp [op, jumps] at noJump
  case sw | sb | beq | bne | blt | bge | bltu | bgeu | nop => simp [op, regWriteEn] at writes
  all_goals
    simp only [isaEffect, op, Option.some.injEq] at exec
    simp only [op, usesRs1, usesRs2, forall_const] at first second
    subst exec
    simp [pipelineAlu, hinst, op, pc, imm, first, second]

/-! ## What an instruction changes -/

/-- The instructions of a program: none of the byte accesses, which the decoder does not know. -/
structure Executes (s : IsaContext) (inst : Instruction) (t : IsaContext) : Prop where
  running : s.halted = false
  decoded : ∃ raw, inst = isaDecode raw
  exec : isaExecute s inst = some t

namespace Executes

theorem keeps (step : Executes s inst t) :
    isaKeepsRegisters inst.opcode = !regWriteEn inst.opcode := by
  obtain ⟨raw, rfl⟩ := step.decoded
  have := isaDecode_opcode raw
  cases op : (isaDecode raw).opcode <;> simp_all [isaKeepsRegisters, regWriteEn]

theorem memRead_iff (step : Executes s inst t) : memRead inst.opcode = true ↔ inst.opcode = .lw := by
  obtain ⟨raw, rfl⟩ := step.decoded
  have := isaDecode_opcode raw
  cases op : (isaDecode raw).opcode <;> simp_all [memRead]

theorem memWrite_iff (step : Executes s inst t) :
    memWrite inst.opcode = true ↔ inst.opcode = .sw := by
  obtain ⟨raw, rfl⟩ := step.decoded
  have := isaDecode_opcode raw
  cases op : (isaDecode raw).opcode <;> simp_all [memWrite]

/-- The register write of a step. -/
theorem effect_eq (step : Executes s inst t) :
    ∃ effect, isaEffect s inst = some effect ∧ t.memory = effect.memory ∧ t.pc = effect.nextPc ∧
      t.registers =
        if regWriteEn inst.opcode = true ∧ inst.rd ≠ 0 then
          Function.update s.registers inst.rd effect.rdVal
        else s.registers := by
  obtain ⟨effect, he, mem, pc, -, regs⟩ := isaExecute_eq_some step.running step.exec
  refine ⟨effect, he, mem, pc, ?_⟩
  simp only [regs, step.keeps, Bool.not_eq_true', Bool.not_eq_false]
  simp only [and_comm]

end Executes

/-! ## The last two latches -/

/-- The latch before write-back holds the result of `inst`, which leads to `t`. -/
structure WbHolds (latch : PipelineReg) (inst : Instruction) (t : IsaContext) : Prop where
  valid : latch.valid = true
  writeEn : latch.regWriteEn = regWriteEn inst.opcode
  rd : latch.rd = inst.rd
  value : regWriteEn inst.opcode = true → inst.rd ≠ 0 → latch.aluResult = t.registers inst.rd

/-- The memory stage turns the latch into the result and the store of `inst`. -/
structure ExHolds (latch : PipelineReg) (inst : Instruction) (s t : IsaContext) : Prop where
  valid : latch.valid = true
  writeEn : latch.regWriteEn = regWriteEn inst.opcode
  rd : latch.rd = inst.rd
  result : ∃ v, memoryResult latch s.memory = some v ∧
    (regWriteEn inst.opcode = true → inst.rd ≠ 0 → v = t.registers inst.rd)
  store : memoryStore latch s.memory = some t.memory

/-- Writing the latch back gives the registers after the instruction. -/
theorem WbHolds.writeback {latch : PipelineReg} (step : Executes s inst t)
    (holds : WbHolds latch inst t) :
    (if latch.regWriteEn = true ∧ latch.rd ≠ 0 then
      Function.update s.registers latch.rd latch.aluResult else s.registers) = t.registers := by
  obtain ⟨effect, -, -, -, regs⟩ := step.effect_eq
  rw [holds.writeEn, holds.rd]
  by_cases writes : regWriteEn inst.opcode = true ∧ inst.rd ≠ 0
  · rw [if_pos writes] at regs ⊢
    rw [holds.value writes.1 writes.2, regs, Function.update_self]
  · rw [if_neg writes] at regs ⊢
    exact regs.symm

/-- `pipeline_execute` on right operands. A load must be in range (the pipeline returns the address
otherwise), the value stored must be the one in `rs2`, and a jump that links must jump to the next
instruction (the pipeline links the target). -/
theorem ExHolds.of_execute {old latch : PipelineReg} {a b : UInt32} (step : Executes s inst t)
    (hinst : latch.inst = inst) (pc : latch.pc = s.pc) (imm : latch.imm = inst.immediate)
    (writeEn : latch.regWriteEn = regWriteEn inst.opcode) (rd : latch.rd = inst.rd)
    (read : latch.memRead = memRead inst.opcode) (write : latch.memWrite = memWrite inst.opcode)
    (taken : latch.branchTaken = jumps inst.opcode)
    (first : usesRs1 inst.opcode → a = s.registers inst.rs1)
    (second : usesRs2 inst.opcode → b = s.registers inst.rs2)
    (load : inst.opcode = .lw → inMemory (s.registers inst.rs1 + inst.immediate.toUInt32) = true)
    (store : inst.opcode = .sw →
      inMemory (s.registers inst.rs1 + inst.immediate.toUInt32) = true → b = s.registers inst.rs2)
    (link : jumps inst.opcode → inst.rd ≠ 0 → t.pc = s.pc + 4) :
    ExHolds (executeReg old latch b (pipelineAlu latch a b).1 (pipelineAlu latch a b).2) inst s t := by
  obtain ⟨effect, he, mem, nextPc, regs⟩ := step.effect_eq
  have written : regWriteEn inst.opcode = true → inst.rd ≠ 0 → t.registers inst.rd = effect.rdVal := by
    intro w r
    rw [regs, if_pos ⟨w, r⟩, Function.update_self]
  refine ⟨rfl, writeEn, rd, ?_, ?_⟩
  · by_cases isLoad : inst.opcode = .lw
    · -- the load of the interpreter, at the same address
      have inRange := load isLoad
      have addr : (pipelineAlu latch a b).1 = s.registers inst.rs1 + inst.immediate.toUInt32 := by
        simp [pipelineAlu, hinst, isLoad, imm, first (by simp [isLoad, usesRs1])]
      simp only [isaEffect, isLoad, inRange, if_true, Option.bind_eq_some_iff] at he
      obtain ⟨v, hv, he⟩ := he
      obtain rfl := Option.some.inj he
      refine ⟨v, ?_, fun w r => (written w r).symm⟩
      simp [memoryResult, executeReg, read, isLoad, memRead, addr, inRange, hv]
    · have noLoad : memRead inst.opcode = false := by
        rw [← Bool.not_eq_true, step.memRead_iff]
        exact isLoad
      refine ⟨(pipelineAlu latch a b).1, ?_, fun w r => ?_⟩
      · simp [memoryResult, executeReg, read, noLoad]
      · rw [written w r]
        cases j : jumps inst.opcode with
        | false => exact pipelineAlu_value hinst pc imm he first second w noLoad j
        | true =>
          obtain ⟨-, next⟩ := pipelineAlu_transfers hinst pc imm taken he first second
          have target : effect.nextPc = effect.rdVal ∧ transfers s inst = true := by
            have := link j r
            rw [nextPc] at this
            cases op : inst.opcode <;> simp only [op, jumps, Bool.false_eq_true] at j
            all_goals
              simp only [isaEffect, op, Option.some.injEq] at he
              obtain rfl := he
              exact ⟨this, by simp [transfers, op]⟩
          rw [target.2, if_pos rfl] at next
          rw [← next, target.1]
  · by_cases isStore : inst.opcode = .sw
    · have addr : (pipelineAlu latch a b).1 = s.registers inst.rs1 + inst.immediate.toUInt32 := by
        simp [pipelineAlu, hinst, isStore, imm, first (by simp [isStore, usesRs1])]
      simp only [isaEffect, isStore] at he
      simp only [memoryStore, executeReg, write, isStore, memWrite, addr, true_and]
      split at he <;> rename_i inRange
      · rw [if_pos inRange, store isStore inRange]
        simp only [Option.map_eq_some_iff] at he
        obtain ⟨memory, hmem, rfl⟩ := he
        rw [hmem, mem]
      · rw [if_neg inRange]
        obtain rfl := Option.some.inj he
        rw [mem]
    · have noStore : memWrite inst.opcode = false := by
        rw [← Bool.not_eq_true, step.memWrite_iff]
        exact isStore
      simp [memoryStore, executeReg, write, noStore, mem, isaEffect_memory he isStore]

end MiniHardware.Cpu
