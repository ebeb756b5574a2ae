import Mathlib.Data.Fintype.Pi
import MiniHardware.Arch.PipelineSeq

/-!
# The pipeline against sequential execution

The operand an instruction needs from its predecessor is forwarded too early,
the instruction two places behind a taken transfer is executed, and the last
instructions are lost when the fetch leaves the memory. `StepSafe` and `EndSafe`
say that none of this matters for a program.
-/

namespace MiniHardware.Arch.Pipeline

variable (imem : Fin 256 → UInt32)

/-! ## The condition -/

/-- Instruction `e` transfers control. -/
def taken (e : Nat) : Bool := seqTaken (seqAt imem e) (instAt imem e)

/-- Instruction `e` does not follow its predecessor through the pipeline. -/
def bubble : Nat → Bool
  | 0 => true
  | e + 1 => taken imem e

/-- When instruction `e` is executed, the instructions before this one are written back. -/
def issueAt (e : Nat) : Nat := if bubble imem e then e else e - 1

def isMemory (opcode : Opcode) : Bool := opcode = .lw || opcode = .sw

/-- The instruction uses its first operand. -/
def usesFirst (opcode : Opcode) : Bool :=
  match opcode with
  | .lui | .auipc | .jal | .nop | .halt => false
  | _ => true

/-- The instruction uses its second operand, from a register. -/
def usesSecond (opcode : Opcode) : Bool :=
  match opcode with
  | .add | .sub | .and | .or | .xor | .sll | .srl | .sra | .slt | .sltu | .mul | .div
  | .beq | .bne | .blt => true
  | _ => false

/-- The instruction does nothing. -/
def Harmless (inst : DecodedInstruction) : Bool :=
  inst.rd = 0 &&
    match inst.opcode with
    | .lw | .sw | .beq | .bne | .blt | .jal | .jalr | .halt => false
    | _ => true

/-- Instruction `e` gets the value of `r`: the predecessor does not write it, nor does a load or
the immediate of a store two places ahead name it; behind a transfer at address 1016, which empties
the stage in between, the transfer does not link to it. -/
def OperandSafe (e : Nat) (r : Reg) : Prop :=
  r = 0 ∨
    (bubble imem e = false → (instAt imem (e - 1)).rd ≠ r ∧
      (bubble imem (e - 1) = false → isMemory (instAt imem (e - 2)).opcode = true →
        (instAt imem (e - 2)).rd ≠ r)) ∧
    (bubble imem e = true → (seqAt imem (e - 1)).pc.toNat / 4 = 254 →
      (instAt imem (e - 1)).rd ≠ r)

/-- Instruction `e` gets its operands and does not stall behind a load; a store in range stores its
own immediate; a transfer within the memory is not the last word and has a harmless instruction in
the second place behind it. -/
structure StepSafe (e : Nat) : Prop where
  first : usesFirst (instAt imem e).opcode = true → OperandSafe imem e (instAt imem e).rs1
  second : usesSecond (instAt imem e).opcode = true → OperandSafe imem e (instAt imem e).rs2
  stall : bubble imem e = false → (instAt imem (e - 1)).opcode = .lw →
    (instAt imem (e - 1)).rd ≠ 0 → (instAt imem (e - 1)).rd ≠ (instAt imem e).rs1 ∧
      (instAt imem (e - 1)).rd ≠ (instAt imem e).rs2
  store : (instAt imem e).opcode = .sw →
    dmemIndex (seqResult (seqAt imem e) (instAt imem e)) ≠ none →
      (seqAt imem e).regfile (instAt imem e).rs2 = (instAt imem e).imm
  shadow : taken imem e = true → (seqAt imem (e + 1)).pc.toNat < 1024 →
    (seqAt imem e).pc.toNat / 4 ≠ 255 ∧
      ∀ i, imemIndex ((seqAt imem e).pc + 8) = some i →
        Harmless (pipelineDecode (imem i) ((seqAt imem e).pc + 8)) = true

/-- What the last instructions still had to write when the fetch leaves the memory does not matter:
it is the last three if the program runs off its end, the last one or two if it jumps out. -/
def EndSafe (len : Nat) : Prop :=
  let e := len - 1
  if (seqAt imem e).pc.toNat / 4 = 255 then
    let w := if bubble imem e then e else issueAt imem (e - 1)
    (seqAt imem w).regfile = (seqAt imem len).regfile ∧
      (seqAt imem (issueAt imem e)).dmem = (seqAt imem len).dmem
  else if (seqAt imem e).pc.toNat / 4 = 254 then
    (seqAt imem (issueAt imem e)).regfile = (seqAt imem len).regfile
  else
    (seqAt imem e).regfile = (seqAt imem len).regfile ∧
      (seqAt imem len).pc.toNat < 4294967292

instance (e : Nat) (r : Reg) : Decidable (OperandSafe imem e r) :=
  inferInstanceAs (Decidable (_ ∨ _))

instance (e : Nat) : Decidable (StepSafe imem e) :=
  decidable_of_iff (_ ∧ _ ∧ _ ∧ _ ∧ _)
    ⟨fun ⟨first, second, stall, store, shadow⟩ => ⟨first, second, stall, store, shadow⟩,
      fun ⟨first, second, stall, store, shadow⟩ => ⟨first, second, stall, store, shadow⟩⟩

instance (len : Nat) : Decidable (EndSafe imem len) := inferInstanceAs (Decidable (ite _ _ _))

/-! ## The EX stage -/

theorem exResult_congr {inst : DecodedInstruction} {old old' a a' b b' : Int32}
    (noHalt : inst.opcode ≠ .halt) (first : usesFirst inst.opcode = true → a = a')
    (second : usesSecond inst.opcode = true ∨ usesImm inst.opcode = true → b = b') :
    exResult inst old a b = exResult inst old' a' b' := by
  cases op : inst.opcode
  case halt => exact absurd op noHalt
  all_goals
    simp only [op, usesFirst, usesSecond, usesImm] at first second
    simp_all [exResult, pipelineAluCompute]

theorem exTaken_congr {inst : DecodedInstruction} {a a' b b' : Int32} (old : Bool)
    (first : usesFirst inst.opcode = true → a = a')
    (second : usesSecond inst.opcode = true → b = b') :
    exTaken inst old a b = exTaken inst old a' b' := by
  cases op : inst.opcode
  all_goals
    simp only [op, usesFirst, usesSecond] at first second
    simp_all [exTaken, pipelineAluCompute]

theorem exTarget_congr {inst : DecodedInstruction} {old old' : UInt32} {a a' b b' : Int32}
    (first : usesFirst inst.opcode = true → a = a')
    (second : usesSecond inst.opcode = true → b = b')
    (taken : exTaken inst false a b = true) :
    exTarget inst old a b = exTarget inst old' a' b' := by
  cases op : inst.opcode
  all_goals
    simp only [op, usesFirst, usesSecond] at first second
    simp_all [exTarget, exTaken, pipelineAluCompute]

theorem not_isMemory_of_taken {inst : DecodedInstruction} {a b : Int32}
    (taken : exTaken inst false a b = true) : isMemory inst.opcode = false := by
  cases op : inst.opcode <;> simp_all [exTaken, isMemory]

/-- A harmless instruction does not transfer control. -/
theorem harmless_not_taken {inst : DecodedInstruction} (harmless : Harmless inst = true) (old : Bool)
    (a b : Int32) : exTaken inst old a b = old := by
  cases op : inst.opcode <;> simp_all [Harmless, exTaken]

theorem harmless_opcode {inst : DecodedInstruction} (harmless : Harmless inst = true) :
    inst.rd = 0 ∧ inst.opcode ≠ .lw ∧ inst.opcode ≠ .sw ∧ inst.opcode ≠ .halt := by
  cases op : inst.opcode <;> simp_all [Harmless]

/-! ## The last two latches -/

/-- The latch before write-back holds the result of `inst`, which leads to `t`. -/
structure WbHolds (latch : MemWbRegister) (inst : DecodedInstruction) (t : SeqState) : Prop where
  valid : latch.valid = true
  same : latch.inst = inst
  regWrite : latch.regWrite = decide (inst.opcode ≠ .sw)
  value : inst.rd ≠ 0 → inst.opcode ≠ .sw →
    (if inst.opcode = .lw then latch.memData else latch.aluResult) = t.regfile inst.rd

/-- The latch before the MEM stage holds `inst`, executed, which leads from `s` to `t`. -/
structure ExHolds (latch : ExMemRegister) (inst : DecodedInstruction) (s t : SeqState) : Prop where
  valid : latch.valid = true
  same : latch.inst = inst
  memData : loadData inst.opcode latch.aluResult s.dmem s.memData = t.memData
  dmem : storeData inst.opcode latch.aluResult latch.storeData s.dmem = t.dmem
  value : inst.rd ≠ 0 → inst.opcode ≠ .sw →
    (if inst.opcode = .lw then t.memData else latch.aluResult) = t.regfile inst.rd

/-- Write-back of a latch that does not matter. -/
def WbIdle (latch : MemWbRegister) : Prop := latch.valid = true → latch.inst.rd = 0

/-- A latch before the MEM stage that does not matter. -/
def ExIdle (latch : ExMemRegister) : Prop := latch.valid = true → Harmless latch.inst = true

variable {imem} {len : Nat}

/-- What a sequential step does to a register. -/
theorem seqExec_regfile_of_ne {s : SeqState} {inst : DecodedInstruction} {r : Reg}
    (other : inst.rd = r → r = 0) : (seqExec s inst).regfile r = s.regfile r := by
  simp only [seqExec]
  split
  · rename_i writes
    apply Function.update_of_ne
    rintro rfl
    exact writes.1 (other rfl)
  · rfl

theorem WbHolds.writeback {latch : MemWbRegister} {inst : DecodedInstruction} {s : SeqState}
    (holds : WbHolds latch inst (seqExec s inst)) (p : PipelineProcessor) (memWb : p.memWb = latch)
    (regfile : p.regfile = s.regfile) :
    (writebackStage p).regfile = (seqExec s inst).regfile := by
  simp only [writebackStage, memWb, holds.valid, if_true, holds.same, holds.regWrite,
    decide_eq_true_eq]
  by_cases writes : inst.rd ≠ 0 ∧ inst.opcode ≠ .sw
  · rw [if_pos writes]
    simp only [holds.value writes.1 writes.2]
    funext r
    rcases eq_or_ne r inst.rd with rfl | ne
    · exact Function.update_self _ _ _
    · rw [Function.update_of_ne ne, regfile]
      exact (seqExec_regfile_of_ne fun same => absurd same.symm ne).symm
  · rw [if_neg writes, regfile, seqExec, if_neg writes]

theorem writebackStage_idle {p : PipelineProcessor} (idle : WbIdle p.memWb) :
    writebackStage p = p := by
  rw [writebackStage]
  split
  · rename_i valid
    exact if_neg fun writes => writes.1 (idle valid)
  · rfl

/-- Write-back only touches the register file. -/
theorem writebackStage_frame (p : PipelineProcessor) :
    writebackStage p = { p with regfile := (writebackStage p).regfile } := by
  simp only [writebackStage]
  repeat' split
  all_goals rfl

/-! ## Write-back and memory -/

/-- The registers of instruction `w` on are not written back, the memory operations of `m` on not
done; `e` is the next instruction to be executed. -/
structure Back (imem : Fin 256 → UInt32) (w m e : Nat) (p : PipelineProcessor) : Prop where
  code : p.imem = imem
  running : p.halted = false
  noStall : p.stall = false
  regfile : p.regfile = (seqAt imem w).regfile
  dmem : p.dmem = (seqAt imem m).dmem
  memData : p.memWb.memData = (seqAt imem m).memData
  wb : m = w ∧ WbIdle p.memWb ∨
    m = w + 1 ∧ WbHolds p.memWb (instAt imem w) (seqAt imem m)
  ex : e = m ∧ ExIdle p.exMem ∨
    e = m + 1 ∧ ExHolds p.exMem (instAt imem m) (seqAt imem m) (seqAt imem e)

/-- What write-back and the MEM stage leave: the instructions before `m` are written back, those
before `e` have accessed the memory. -/
structure Advanced (imem : Fin 256 → UInt32) (m e : Nat) (p q : PipelineProcessor) : Prop where
  regfile : q.regfile = (seqAt imem m).regfile
  dmem : q.dmem = (seqAt imem e).dmem
  memData : q.memWb.memData = (seqAt imem e).memData
  wb : e = m ∧ WbIdle q.memWb ∨
    e = m + 1 ∧ WbHolds q.memWb (instAt imem m) (seqAt imem e)
  fwMem : if p.exMem.valid = true then q.fwMemRd = p.exMem.inst.rd ∧ q.fwMemResult = p.exMem.aluResult
    else q.fwMemRd = p.fwMemRd ∧ q.fwMemResult = p.fwMemResult
  same : q.imem = p.imem ∧ q.halted = p.halted ∧ q.stall = p.stall ∧ q.flush = p.flush ∧ q.pc = p.pc ∧
    q.ifId = p.ifId ∧ q.idEx = p.idEx ∧ q.exMem = p.exMem ∧ q.fwExRd = p.fwExRd

theorem Back.advance (prog : Program imem len) {w m e : Nat} {p : PipelineProcessor} (le : e ≤ len)
    (back : Back imem w m e p) : Advanced imem m e p (memoryStage (writebackStage p)) := by
  have regfile : (writebackStage p).regfile = (seqAt imem m).regfile := by
    rcases back.wb with ⟨rfl, idle⟩ | ⟨rfl, holds⟩
    · rw [writebackStage_idle idle, back.regfile]
    · have lt : w < len := by rcases back.ex with h | h <;> omega
      rw [prog.succ lt] at holds ⊢
      exact holds.writeback p rfl back.regfile
  rw [writebackStage_frame]
  generalize (writebackStage p).regfile = written at regfile
  cases valid : p.exMem.valid with
  | false =>
    have idle : e = m := by
      rcases back.ex with ⟨h, -⟩ | ⟨-, holds⟩
      · exact h
      · rw [holds.valid] at valid
        cases valid
    subst idle
    have moved : memoryStage { p with regfile := written } =
        { p with
          regfile := written
          memWb :=
            { valid := false
              inst := p.exMem.inst
              aluResult := p.exMem.aluResult
              regWrite := true
              memData := p.memWb.memData } } := by
      simp [memoryStage, valid]
    rw [moved]
    exact ⟨regfile, back.dmem, back.memData, Or.inl ⟨rfl, nofun⟩,
      by rw [if_neg (by simp [valid])]; exact ⟨rfl, rfl⟩, rfl, rfl, rfl, rfl, rfl, rfl, rfl, rfl, rfl⟩
  | true =>
    have moved : memoryStage { p with regfile := written } =
        { p with
          regfile := written
          fwMemResult := p.exMem.aluResult
          fwMemRd := p.exMem.inst.rd
          memWb :=
            { valid := true
              inst := p.exMem.inst
              aluResult := p.exMem.aluResult
              regWrite := p.exMem.inst.opcode ≠ .sw
              memData := loadData p.exMem.inst.opcode p.exMem.aluResult p.dmem p.memWb.memData }
          dmem := storeData p.exMem.inst.opcode p.exMem.aluResult p.exMem.storeData p.dmem } := by
      simp [memoryStage, valid]
    rw [moved]
    refine ⟨regfile, ?_, ?_, ?_, by rw [if_pos valid]; exact ⟨rfl, rfl⟩,
      rfl, rfl, rfl, rfl, rfl, rfl, rfl, rfl, rfl⟩
    all_goals rcases back.ex with ⟨rfl, idle⟩ | ⟨rfl, holds⟩
    · obtain ⟨-, -, noStore, -⟩ := harmless_opcode (idle valid)
      simp [storeData, noStore, back.dmem]
    · simp only [holds.same, back.dmem]
      exact holds.dmem
    · obtain ⟨-, noLoad, -, -⟩ := harmless_opcode (idle valid)
      simp [loadData, noLoad, back.memData]
    · simp only [holds.same, back.dmem, back.memData]
      exact holds.memData
    · exact Or.inl ⟨rfl, fun _ => (harmless_opcode (idle valid)).1⟩
    · refine Or.inr ⟨rfl, rfl, holds.same, by simp [holds.same], fun nonzero noStore => ?_⟩
      rw [← holds.value nonzero noStore]
      simp only [holds.same, back.dmem, back.memData, holds.memData]

end MiniHardware.Arch.Pipeline
