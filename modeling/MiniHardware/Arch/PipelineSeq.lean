import Mathlib.Data.Nat.Find
import MiniHardware.Arch.Pipeline

/-!
# One instruction at a time

The sequential execution of a program: each instruction decoded by
`pipelineDecode`, operands from the register file or the immediate, store data
from `rs2`, results and targets as in the EX and MEM stages. A load out of range
keeps the last loaded word, as `mem_data` does.
-/

namespace MiniHardware.Arch.Pipeline

structure SeqState where
  regfile : Reg → Int32
  pc : UInt32
  dmem : Fin 1024 → Int32
  memData : Int32

/-- The state `pipelineInit` starts from. -/
def seqInit : SeqState := ⟨pipelineInit.regfile, 0, pipelineInit.dmem, 0⟩

def seqFetch (imem : Fin 256 → UInt32) (s : SeqState) : Option DecodedInstruction :=
  (imemIndex s.pc).map fun i => pipelineDecode (imem i) s.pc

/-- The second operand. -/
def secondOperand (s : SeqState) (inst : DecodedInstruction) : Int32 :=
  if usesImm inst.opcode then inst.imm else s.regfile inst.rs2

def seqResult (s : SeqState) (inst : DecodedInstruction) : Int32 :=
  exResult inst 0 (s.regfile inst.rs1) (secondOperand s inst)

/-- The instruction transfers control. -/
def seqTaken (s : SeqState) (inst : DecodedInstruction) : Bool :=
  exTaken inst false (s.regfile inst.rs1) (secondOperand s inst)

def seqTarget (s : SeqState) (inst : DecodedInstruction) : UInt32 :=
  exTarget inst 0 (s.regfile inst.rs1) (secondOperand s inst)

def seqExec (s : SeqState) (inst : DecodedInstruction) : SeqState :=
  let memData := loadData inst.opcode (seqResult s inst) s.dmem s.memData
  let value := if inst.opcode = .lw then memData else seqResult s inst
  { regfile :=
      if inst.rd ≠ 0 ∧ inst.opcode ≠ .sw then Function.update s.regfile inst.rd value
      else s.regfile
    pc := if seqTaken s inst then seqTarget s inst else s.pc + 4
    dmem := storeData inst.opcode (seqResult s inst) (s.regfile inst.rs2) s.dmem
    memData := memData }

def seqStep (imem : Fin 256 → UInt32) (s : SeqState) : SeqState :=
  match seqFetch imem s with
  | some inst => seqExec s inst
  | none => s

variable (imem : Fin 256 → UInt32)

/-- The state after `n` instructions. -/
def seqAt : Nat → SeqState
  | 0 => seqInit
  | n + 1 => seqStep imem (seqAt n)

/-- The instruction executed in it. -/
def instAt (n : Nat) : DecodedInstruction := (seqFetch imem (seqAt imem n)).getD zeroInst

/-- The execution ends: HALT is reached, or the instruction memory is left. -/
def Stops (s : SeqState) : Prop := ∀ inst, seqFetch imem s = some inst → inst.opcode = .halt

/-- The sequential execution ends in `t`. -/
def Finishes (t : SeqState) : Prop := ∃ n, seqAt imem n = t ∧ Stops imem t

/-! ## Programs -/

/-- The decoder has no HALT. -/
theorem pipelineDecode_opcode (raw pc : UInt32) : (pipelineDecode raw pc).opcode ≠ .halt := by
  simp only [pipelineDecode, decodeRegister, decodeImmediate, decodeBranch]
  repeat' split
  all_goals simp

@[simp] theorem pipelineDecode_pc (raw pc : UInt32) : (pipelineDecode raw pc).pc = pc := by
  simp only [pipelineDecode]
  split <;> rfl

theorem imemIndex_eq_none_iff {pc : UInt32} : imemIndex pc = none ↔ 1024 ≤ pc.toNat := by
  simp only [imemIndex]
  split <;> simp <;> omega

theorem imemIndex_isSome_iff {pc : UInt32} : (∃ i, imemIndex pc = some i) ↔ pc.toNat < 1024 := by
  simp only [imemIndex]
  split <;> simp <;> omega

/-- The first `len` instructions lie in the memory, the next one does not. -/
structure Program (len : Nat) : Prop where
  inside : ∀ e < len, (seqAt imem e).pc.toNat < 1024
  outside : 1024 ≤ (seqAt imem len).pc.toNat

variable {imem} {len : Nat}

theorem Finishes.program {t : SeqState} (finishes : Finishes imem t) :
    ∃ len, Program imem len ∧ seqAt imem len = t := by
  obtain ⟨k, rfl, stops⟩ := finishes
  have leaves : 1024 ≤ (seqAt imem k).pc.toNat := by
    by_contra inside
    obtain ⟨i, hi⟩ := imemIndex_isSome_iff.2 (Nat.lt_of_not_le inside)
    exact pipelineDecode_opcode _ _ (stops _ (by rw [seqFetch, hi]; rfl))
  have first : ∃ n, 1024 ≤ (seqAt imem n).pc.toNat := ⟨k, leaves⟩
  have le : Nat.find first ≤ k := Nat.find_min' first leaves
  refine ⟨Nat.find first, ⟨fun e lt => ?_, Nat.find_spec first⟩, ?_⟩
  · exact Nat.lt_of_not_le (Nat.find_min first lt)
  · -- outside the memory nothing happens
    have stay : ∀ n, Nat.find first ≤ n → seqAt imem n = seqAt imem (Nat.find first) := by
      intro n hn
      induction n, hn using Nat.le_induction with
      | base => rfl
      | succ n hn ih =>
        have none : imemIndex (seqAt imem (Nat.find first)).pc = none :=
          imemIndex_eq_none_iff.2 (Nat.find_spec first)
        rw [seqAt, ih, seqStep, seqFetch, none]
        rfl
    exact (stay k le).symm

theorem Program.fetch (prog : Program imem len) {e : Nat} (lt : e < len) :
    ∃ i, imemIndex (seqAt imem e).pc = some i ∧
      instAt imem e = pipelineDecode (imem i) (seqAt imem e).pc := by
  obtain ⟨i, hi⟩ := imemIndex_isSome_iff.2 (prog.inside e lt)
  exact ⟨i, hi, by rw [instAt, seqFetch, hi]; rfl⟩

theorem Program.succ (prog : Program imem len) {e : Nat} (lt : e < len) :
    seqAt imem (e + 1) = seqExec (seqAt imem e) (instAt imem e) := by
  obtain ⟨i, hi, inst⟩ := prog.fetch lt
  rw [seqAt, seqStep, seqFetch, hi, inst]
  rfl

theorem Program.no_halt (prog : Program imem len) {e : Nat} (lt : e < len) :
    (instAt imem e).opcode ≠ .halt := by
  obtain ⟨i, -, inst⟩ := prog.fetch lt
  rw [inst]
  exact pipelineDecode_opcode _ _

/-- A program has an instruction: it starts at address 0. -/
theorem Program.pos (prog : Program imem len) : 0 < len := by
  rcases Nat.eq_zero_or_pos len with rfl | h
  · have outside : 1024 ≤ (0 : UInt32).toNat := prog.outside
    exact absurd outside (by decide)
  · exact h

end MiniHardware.Arch.Pipeline
