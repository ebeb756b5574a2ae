import Mathlib.Logic.Function.Basic
import Mathlib.Tactic.Common
import MiniHardware.Lib.Index

/-!
# The five-stage pipeline (`mini-computer-arch/src/pipeline.c`)

`pipelineCycle` runs the stages from write-back to fetch on one state, so a
stage sees what the stages behind it in program order have already done in the
same cycle. The statistics counters and the latch fields nothing reads are left
out; `int32_t` arithmetic wraps. The value `pipeline_cycle` returns is the
negation of `halted`.
-/

namespace MiniHardware.Arch.Pipeline

inductive Opcode where
  | add | sub | and | or | xor
  | sll | srl | sra | slt | sltu
  | addi | andi | ori | xori
  | lw | sw | beq | bne | blt
  | jal | jalr | lui | auipc
  | mul | div | nop | halt
deriving DecidableEq

/-- A register number, below `PIPELINE_MAX_REGS`. -/
abbrev Reg := Fin 32

structure DecodedInstruction where
  opcode : Opcode
  rd : Reg
  rs1 : Reg
  rs2 : Reg
  imm : Int32
  raw : UInt32
  pc : UInt32
deriving DecidableEq

/-- The instruction after `memset`; opcode 0 is ADD. -/
def zeroInst : DecodedInstruction := ⟨.add, 0, 0, 0, 0, 0, 0⟩

/-! ## Decoding -/

def signExtend (val bits : UInt32) : Int32 :=
  let mask := (1 : UInt32) <<< (bits - 1)
  (if val &&& mask ≠ 0 then val ||| (~~~(0 : UInt32) <<< bits) else val).toInt32

/-- The five-bit register field. -/
def regField (bits : UInt32) : Reg := Fin.ofNat 32 (bits &&& (0x1F : UInt32)).toNat

/-- The opcodes of the `0x33` group. -/
def decodeRegister (funct3 funct7 : UInt32) : Opcode :=
  match funct3.toNat with
  | 0x0 => if funct7 = 0x20 then .sub else .add
  | 0x1 => .sll
  | 0x2 => .slt
  | 0x3 => .sltu
  | 0x4 => .xor
  | 0x5 => if funct7 = 0x20 then .sra else .srl
  | 0x6 => .or
  | 0x7 => .and
  | _ => .nop

/-- The opcodes of the `0x13` group; SLTI and SLTIU become SLT and SLTU. -/
def decodeImmediate (funct3 : UInt32) : Opcode :=
  match funct3.toNat with
  | 0x0 => .addi
  | 0x2 => .slt
  | 0x3 => .sltu
  | 0x4 => .xori
  | 0x6 => .ori
  | 0x7 => .andi
  | _ => .addi

/-- The opcodes of the `0x63` group. -/
def decodeBranch (funct3 : UInt32) : Opcode :=
  match funct3.toNat with
  | 0x0 => .beq
  | 0x1 => .bne
  | 0x4 => .blt
  | _ => .nop

def pipelineDecode (raw pc : UInt32) : DecodedInstruction :=
  let funct3 := (raw >>> 12) &&& (0x7 : UInt32)
  let funct7 := (raw >>> 25) &&& (0x7F : UInt32)
  let immI := signExtend ((raw >>> 20) &&& (0xFFF : UInt32)) 12
  let immS := signExtend (((raw >>> 25) <<< 5) ||| ((raw >>> 7) &&& (0x1F : UInt32))) 12
  let immB := signExtend
    (((raw >>> 31) <<< 12) ||| (((raw >>> 7) &&& (1 : UInt32)) <<< 11) |||
      (((raw >>> 25) &&& (0x3F : UInt32)) <<< 5) ||| (((raw >>> 8) &&& (0xF : UInt32)) <<< 1)) 13
  let immU := (raw &&& (0xFFFFF000 : UInt32)).toInt32
  let immJ := signExtend
    (((raw >>> 31) <<< 20) ||| (((raw >>> 12) &&& (0xFF : UInt32)) <<< 12) |||
      (((raw >>> 20) &&& (1 : UInt32)) <<< 11) ||| (((raw >>> 21) &&& (0x3FF : UInt32)) <<< 1)) 21
  let inst : DecodedInstruction :=
    { opcode := .nop, rd := regField (raw >>> 7), rs1 := regField (raw >>> 15)
      rs2 := regField (raw >>> 20), imm := 0, raw := raw, pc := pc }
  match (raw &&& (0x7F : UInt32)).toNat with
  | 0x33 => { inst with opcode := decodeRegister funct3 funct7 }
  | 0x13 => { inst with opcode := decodeImmediate funct3, imm := immI }
  | 0x03 => { inst with opcode := .lw, imm := immI }
  | 0x23 => { inst with opcode := .sw, imm := immS }
  | 0x63 => { inst with opcode := decodeBranch funct3, imm := immB }
  | 0x37 => { inst with opcode := .lui, imm := immU }
  | 0x17 => { inst with opcode := .auipc, imm := immU }
  | 0x6F => { inst with opcode := .jal, imm := immJ }
  | 0x67 => { inst with opcode := .jalr, imm := immI }
  | _ => inst

/-! ## State -/

structure IfIdRegister where
  valid : Bool
  inst : DecodedInstruction
  rs1Val : Int32
  rs2Val : Int32

structure IdExRegister where
  valid : Bool
  inst : DecodedInstruction
  rs1Val : Int32
  rs2Val : Int32
  branchTaken : Bool
  branchTarget : UInt32

structure ExMemRegister where
  valid : Bool
  inst : DecodedInstruction
  rs1Val : Int32
  rs2Val : Int32
  aluResult : Int32
  storeData : Int32
  branchTaken : Bool
  branchTarget : UInt32

structure MemWbRegister where
  valid : Bool
  inst : DecodedInstruction
  memData : Int32
  aluResult : Int32
  regWrite : Bool

structure PipelineProcessor where
  regfile : Reg → Int32
  pc : UInt32
  imem : Fin 256 → UInt32
  dmem : Fin 1024 → Int32
  ifId : IfIdRegister
  idEx : IdExRegister
  exMem : ExMemRegister
  memWb : MemWbRegister
  stall : Bool
  flush : Bool
  halted : Bool
  fwExResult : Int32
  fwExRd : Reg
  fwMemResult : Int32
  fwMemRd : Reg

def zeroIfId : IfIdRegister := ⟨false, zeroInst, 0, 0⟩
def zeroIdEx : IdExRegister := ⟨false, zeroInst, 0, 0, false, 0⟩
def zeroExMem : ExMemRegister := ⟨false, zeroInst, 0, 0, 0, 0, false, 0⟩
def zeroMemWb : MemWbRegister := ⟨false, zeroInst, 0, 0, false⟩

/-- `pipeline_init`: everything zero but the stack pointer. -/
def pipelineInit : PipelineProcessor where
  regfile := Function.update (fun _ => 0) 2 (1024 - 16)
  pc := 0
  imem _ := 0
  dmem _ := 0
  ifId := zeroIfId
  idEx := zeroIdEx
  exMem := zeroExMem
  memWb := zeroMemWb
  stall := false
  flush := false
  halted := false
  fwExResult := 0
  fwExRd := 0
  fwMemResult := 0
  fwMemRd := 0

/-- `pipeline_load_program`: the words that fit, at the start of the instruction memory. -/
def pipelineLoadProgram (p : PipelineProcessor) (instrs : List UInt32) : PipelineProcessor :=
  { p with imem := fun i => instrs.getD i.val (p.imem i), halted := false, pc := 0 }

/-! ## Execution -/

def pipelineAluCompute (op : Opcode) (a b : Int32) : Int32 :=
  match op with
  | .add | .addi => a + b
  | .sub => a - b
  | .and | .andi => a &&& b
  | .or | .ori => a ||| b
  | .xor | .xori => a ^^^ b
  | .sll => a <<< (b &&& 0x1F)
  | .srl => (a.toUInt32 >>> (b &&& 0x1F).toUInt32).toInt32
  | .sra => a >>> (b &&& 0x1F)
  | .slt | .sltu => if a < b then 1 else 0
  | .mul => a * b
  | .div => if b ≠ 0 then a / b else 0
  | .beq => if a = b then 1 else 0
  | .bne => if a ≠ b then 1 else 0
  | .blt => if a < b then 1 else 0
  | .lui => b
  | .auipc => a + b
  | .jal | .jalr => a + 4
  | _ => 0

/-- `alu_result` after the switch of the EX stage; HALT leaves the old one. -/
def exResult (inst : DecodedInstruction) (old op1 op2 : Int32) : Int32 :=
  match inst.opcode with
  | .lui => inst.imm
  | .auipc => (inst.pc + inst.imm.toUInt32).toInt32
  | .sw | .lw => op1 + inst.imm
  | .beq | .bne | .blt | .jal | .jalr => (inst.pc + 4).toInt32
  | .halt => old
  | opcode => pipelineAluCompute opcode op1 op2

/-- `branch_taken` after the switch. -/
def exTaken (inst : DecodedInstruction) (old : Bool) (op1 op2 : Int32) : Bool :=
  match inst.opcode with
  | .beq | .bne | .blt => pipelineAluCompute inst.opcode op1 op2 ≠ 0
  | .jal | .jalr => true
  | _ => old

/-- `branch_target` after the switch. -/
def exTarget (inst : DecodedInstruction) (old : UInt32) (op1 op2 : Int32) : UInt32 :=
  match inst.opcode with
  | .beq | .bne | .blt =>
    if pipelineAluCompute inst.opcode op1 op2 ≠ 0 then (inst.pc.toInt32 + inst.imm).toUInt32 else old
  | .jal => (inst.pc.toInt32 + inst.imm).toUInt32
  | .jalr => ((op1 + inst.imm) &&& ~~~1).toUInt32
  | _ => old

/-! ## Hazards and forwarding -/

inductive HazardType where
  | none | raw
deriving DecidableEq

structure HazardInfo where
  type : HazardType
  stallCycles : UInt8
  affectedPc : UInt32
  srcReg : Reg
  dstReg : Reg

/-- `ex_rw`: the instruction in EX writes its destination. -/
def exWrites (opcode : Opcode) : Bool :=
  match opcode with
  | .sw | .beq | .bne | .blt | .nop | .halt => false
  | _ => true

def pipelineDetectHazards (p : PipelineProcessor) : HazardInfo :=
  let none : HazardInfo := ⟨.none, 0, 0, 0, 0⟩
  let rs1 := p.idEx.inst.rs1
  let rs2 := p.idEx.inst.rs2
  let rd := p.exMem.inst.rd
  let src := if rd = rs1 then rs1 else rs2
  if ¬ p.idEx.valid then none
  else if p.exMem.valid ∧ rd ≠ 0 ∧ exWrites p.exMem.inst.opcode ∧ (rd = rs1 ∨ rd = rs2) then
    if p.exMem.inst.opcode = .lw then ⟨.raw, 1, p.idEx.inst.pc, src, rd⟩
    else ⟨.raw, 0, 0, src, rd⟩
  else none

def pipelineNeedsStall (p : PipelineProcessor) : Bool :=
  let h := pipelineDetectHazards p
  h.type = .raw && 0 < h.stallCycles

inductive ForwardSource where
  | none | fromEx | fromMem
deriving DecidableEq

/-- The source and the value forwarded to the operand `rs`. -/
def forward (p : PipelineProcessor) (rs : Reg) : ForwardSource × Int32 :=
  if p.fwExRd ≠ 0 ∧ p.fwExRd = rs then (.fromEx, p.fwExResult)
  else if p.fwMemRd ≠ 0 ∧ p.fwMemRd = rs then (.fromMem, p.fwMemResult)
  else (.none, 0)

structure ForwardingInfo where
  src1Fw : ForwardSource
  src2Fw : ForwardSource
  fwVal1 : Int32
  fwVal2 : Int32

def pipelineDetectForwarding (p : PipelineProcessor) : ForwardingInfo :=
  let f1 := forward p p.idEx.inst.rs1
  let f2 := forward p p.idEx.inst.rs2
  ⟨f1.1, f2.1, f1.2, f2.2⟩

/-! ## The stages of `pipeline_cycle` -/

def writebackStage (p : PipelineProcessor) : PipelineProcessor :=
  if p.memWb.valid then
    let wbVal := if p.memWb.inst.opcode = .lw then p.memWb.memData else p.memWb.aluResult
    if p.memWb.inst.rd ≠ 0 ∧ p.memWb.regWrite then
      { p with regfile := Function.update p.regfile p.memWb.inst.rd wbVal }
    else p
  else p

/-- The word of data memory an address selects, below `PIPELINE_DMEM_SIZE`. -/
def dmemIndex (addr : Int32) : Option (Fin 1024) :=
  if h : addr.toUInt32.toNat / 4 < 1024 then some ⟨addr.toUInt32.toNat / 4, h⟩ else none

/-- `mem_data` after the MEM stage: a load out of range keeps the old word. -/
def loadData (opcode : Opcode) (addr : Int32) (dmem : Fin 1024 → Int32) (old : Int32) : Int32 :=
  if opcode = .lw then ((dmemIndex addr).map dmem).getD old else old

/-- The data memory after the MEM stage. -/
def storeData (opcode : Opcode) (addr val : Int32) (dmem : Fin 1024 → Int32) : Fin 1024 → Int32 :=
  if opcode = .sw then ((dmemIndex addr).map fun i => Function.update dmem i val).getD dmem
  else dmem

def memoryStage (p : PipelineProcessor) : PipelineProcessor :=
  let memWb : MemWbRegister :=
    { valid := p.exMem.valid
      inst := p.exMem.inst
      aluResult := p.exMem.aluResult
      regWrite := true
      memData := p.memWb.memData }
  if p.exMem.valid then
    { p with
      fwMemResult := p.exMem.aluResult
      fwMemRd := p.exMem.inst.rd
      memWb :=
        { memWb with
          memData := loadData p.exMem.inst.opcode p.exMem.aluResult p.dmem memWb.memData
          regWrite := p.exMem.inst.opcode ≠ .sw }
      dmem := storeData p.exMem.inst.opcode p.exMem.aluResult p.exMem.storeData p.dmem }
  else { p with memWb := memWb }

/-- The latch the EX stage starts from: a flush empties it, a stall keeps it. -/
def exInput (p : PipelineProcessor) : ExMemRegister :=
  if p.flush then zeroExMem
  else if p.stall then p.exMem
  else
    { p.exMem with
      valid := p.idEx.valid
      inst := p.idEx.inst
      rs1Val := p.idEx.rs1Val
      rs2Val := p.idEx.rs2Val
      branchTaken := p.idEx.branchTaken
      branchTarget := p.idEx.branchTarget }

/-- The latch after the switch of the EX stage. -/
def exOutput (exMem : ExMemRegister) : ExMemRegister :=
  { exMem with
    aluResult := exResult exMem.inst exMem.aluResult exMem.rs1Val exMem.rs2Val
    branchTaken := exTaken exMem.inst exMem.branchTaken exMem.rs1Val exMem.rs2Val
    branchTarget := exTarget exMem.inst exMem.branchTarget exMem.rs1Val exMem.rs2Val
    storeData := if exMem.inst.opcode = .sw then exMem.rs2Val else exMem.storeData }

def executeStage (p : PipelineProcessor) : PipelineProcessor :=
  let exMem := exInput p
  let p := { p with exMem := exMem, flush := false }
  if exMem.valid then
    { p with
      -- before the switch: the result of the instruction that was here
      fwExResult := exMem.aluResult
      fwExRd := exMem.inst.rd
      exMem := exOutput exMem
      halted := p.halted || decide (exMem.inst.opcode = .halt) }
  else p

/-- The opcodes whose second operand is the immediate. -/
def usesImm (opcode : Opcode) : Bool :=
  match opcode with
  | .addi | .andi | .ori | .xori | .lw | .sw => true
  | _ => false

/-- The latch of the ID stage before the operands are read. -/
def idInput (p : PipelineProcessor) : IdExRegister where
  valid := p.ifId.valid
  inst := p.ifId.inst
  rs1Val := p.ifId.rs1Val
  rs2Val := p.ifId.rs2Val
  branchTaken := false
  branchTarget := 0

/-- The operands: forwarded, from the register file, or the immediate. -/
def readOperands (p : PipelineProcessor) : PipelineProcessor :=
  let inst := p.idEx.inst
  let fw := pipelineDetectForwarding p
  { p with
    idEx :=
      { p.idEx with
        rs1Val := if fw.src1Fw ≠ .none then fw.fwVal1 else p.regfile inst.rs1
        rs2Val :=
          if usesImm inst.opcode then inst.imm
          else if fw.src2Fw ≠ .none then fw.fwVal2
          else p.regfile inst.rs2 } }

def decodeStage (p : PipelineProcessor) : PipelineProcessor :=
  if p.stall then { p with idEx := zeroIdEx, stall := false }
  else if p.flush then { p with idEx := zeroIdEx }
  else
    let p := { p with idEx := idInput p }
    if p.idEx.valid then
      let p := readOperands p
      if pipelineNeedsStall p then { p with stall := true } else p
    else p

/-- The word of instruction memory the counter selects, below `PIPELINE_IMEM_SIZE`. -/
def imemIndex (pc : UInt32) : Option (Fin 256) :=
  if h : pc.toNat / 4 < 256 then some ⟨pc.toNat / 4, h⟩ else none

def fetchStage (p : PipelineProcessor) : PipelineProcessor :=
  if p.stall then p
  else
    match imemIndex p.pc with
    | some i => { p with ifId := { p.ifId with valid := true, inst := pipelineDecode (p.imem i) p.pc } }
    | none => { p with ifId := { p.ifId with valid := false } }

def updatePc (p : PipelineProcessor) : PipelineProcessor :=
  if p.exMem.valid ∧ p.exMem.branchTaken then { p with pc := p.exMem.branchTarget, flush := true }
  else if ¬ p.stall then { p with pc := p.pc + 4 }
  else p

def checkHalt (p : PipelineProcessor) : PipelineProcessor :=
  if 1024 ≤ p.pc ∧ ¬ p.ifId.valid then { p with halted := true } else p

def pipelineCycle (p : PipelineProcessor) : PipelineProcessor :=
  if p.halted then p
  else
    checkHalt (updatePc (fetchStage (decodeStage (executeStage (memoryStage (writebackStage p))))))

end MiniHardware.Arch.Pipeline
