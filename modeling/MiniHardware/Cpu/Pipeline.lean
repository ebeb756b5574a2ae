import MiniHardware.Cpu.Isa

/-!
# The five-stage pipeline (`mini-cpu-arch/src/pipeline.c`)

`pipelineCycle` calls the stages from write-back to fetch, so each stage sees
the latches its successors have already emptied in the same cycle. The stage
fields that no function reads (`stalled`, `next_pc`, `mem_data`) are left out,
and `forwardingUnit` returns the forwarded values instead of storing them.
-/

namespace MiniHardware.Cpu

/-- One pipeline latch. -/
structure PipelineReg where
  valid : Bool
  inst : Instruction
  pc : UInt32
  regWriteEn : Bool
  rd : Reg
  rs1 : Reg
  rs2 : Reg
  rs1Val : UInt32
  rs2Val : UInt32
  imm : Int32
  aluResult : UInt32
  memRead : Bool
  memWrite : Bool
  branchTaken : Bool

structure Pipeline where
  ifId : PipelineReg
  idEx : PipelineReg
  exMem : PipelineReg
  memWb : PipelineReg
  isa : IsaContext
  cycles : UInt32
  stallCount : UInt32
  bubbleCount : UInt32

/-- The latch after `memset`; opcode 0 is ADD. -/
def zeroedReg : PipelineReg where
  valid := false
  inst := { nopInstruction 0 with opcode := .add }
  pc := 0
  regWriteEn := false
  rd := 0
  rs1 := 0
  rs2 := 0
  rs1Val := 0
  rs2Val := 0
  imm := 0
  aluResult := 0
  memRead := false
  memWrite := false
  branchTaken := false

/-- `pipeline_init`, with the registers and the memory the program starts from. -/
def pipelineInit (isa : IsaContext) : Pipeline :=
  ⟨zeroedReg, zeroedReg, zeroedReg, zeroedReg, isa, 0, 0, 0⟩

/-! ## Control signals of `pipeline_decode` -/

def isImmOp (opcode : Opcode) : Bool :=
  match opcode with
  | .addi | .andi | .ori | .xori | .slli | .srli | .srai | .slti | .sltiu
  | .lw | .sw | .lb | .sb => true
  | _ => false

def regWriteEn (opcode : Opcode) : Bool :=
  match opcode with
  | .add | .sub | .and | .or | .xor | .sll | .srl | .sra | .slt | .sltu
  | .addi | .andi | .ori | .xori | .slli | .srli | .srai | .slti | .sltiu
  | .lui | .auipc | .lw | .lb | .jal | .jalr => true
  | _ => false

def memRead (opcode : Opcode) : Bool :=
  match opcode with
  | .lw | .lb => true
  | _ => false

def memWrite (opcode : Opcode) : Bool :=
  match opcode with
  | .sw | .sb => true
  | _ => false

/-- The jumps, marked taken when they are decoded. -/
def jumps (opcode : Opcode) : Bool :=
  match opcode with
  | .jal | .jalr => true
  | _ => false

/-! ## The stages -/

/-- The latch `latch` will write `rs`. -/
def PipelineReg.Writes (latch : PipelineReg) (rs : Reg) : Bool :=
  latch.valid && latch.regWriteEn && decide (latch.rd ≠ 0) && decide (latch.rd = rs)

/-- What the forwarding unit drives for the operand `rs`. -/
def forward (p : Pipeline) (rs : Reg) : Option UInt32 :=
  if p.exMem.Writes rs then some p.exMem.aluResult
  else if p.memWb.Writes rs then some p.memWb.aluResult
  else none

/-- `forward_a` and `forward_b`. -/
def forwardingUnit (p : Pipeline) : Option UInt32 × Option UInt32 :=
  (forward p p.idEx.rs1, forward p p.idEx.rs2)

def detectLoadUseHazard (p : Pipeline) : Bool :=
  p.idEx.memRead && (decide (p.idEx.rd = p.ifId.rs1) || decide (p.idEx.rd = p.ifId.rs2))

def pipelineFetch (p : Pipeline) : Option Pipeline :=
  if p.isa.halted ∨ ¬ inMemory p.isa.pc then
    some { p with ifId := { p.ifId with valid := false } }
  else
    (isaFetch p.isa).map fun inst =>
      { p with
        ifId := { p.ifId with inst := inst, pc := p.isa.pc, valid := true }
        isa := { p.isa with pc := p.isa.pc + 4 } }

/-- The latch `pipeline_decode` fills. -/
def decodeReg (old : PipelineReg) (inst : Instruction) (pc : UInt32) (registers : Reg → UInt32) :
    PipelineReg :=
  { old with
    valid := true
    inst := inst
    pc := pc
    rd := inst.rd
    rs1 := inst.rs1
    rs2 := inst.rs2
    imm := inst.immediate
    rs1Val := registers inst.rs1
    rs2Val := if isImmOp inst.opcode then inst.immediate.toUInt32 else registers inst.rs2
    regWriteEn := regWriteEn inst.opcode
    memRead := memRead inst.opcode
    memWrite := memWrite inst.opcode
    branchTaken := jumps inst.opcode }

def pipelineDecode (p : Pipeline) : Pipeline :=
  if ¬ p.ifId.valid then { p with idEx := { p.idEx with valid := false } }
  else
    { p with
      idEx := decodeReg p.idEx p.ifId.inst p.ifId.pc p.isa.registers
      ifId := { p.ifId with valid := false } }

/-- The switch of `pipeline_execute`: the result and `branch_taken`. -/
def pipelineAlu (idEx : PipelineReg) (a b : UInt32) : UInt32 × Bool :=
  let sa := a.toInt32
  let sb := b.toInt32
  let imm := idEx.imm.toUInt32
  let value (result : UInt32) : UInt32 × Bool := (result, idEx.branchTaken)
  let branch (cond : Bool) : UInt32 × Bool :=
    if cond then (idEx.pc + imm, true) else (idEx.pc + 4, false)
  match idEx.inst.opcode with
  | .add => value (a + b)
  | .addi => value (a + imm)
  | .sub => value (a - b)
  | .and => value (a &&& b)
  | .andi => value (a &&& imm)
  | .or => value (a ||| b)
  | .ori => value (a ||| imm)
  | .xor => value (a ^^^ b)
  | .xori => value (a ^^^ imm)
  | .sll => value (a <<< (b &&& 0x1F))
  | .slli => value (a <<< (imm &&& 0x1F))
  | .srl => value (a >>> (b &&& 0x1F))
  | .srli => value (a >>> (imm &&& 0x1F))
  | .sra => value (sa >>> (b &&& 0x1F).toInt32).toUInt32
  | .srai => value (sa >>> (imm &&& 0x1F).toInt32).toUInt32
  | .slt => value (if sa < sb then 1 else 0)
  | .slti => value (if sa < imm.toInt32 then 1 else 0)
  | .sltu => value (if a < b then 1 else 0)
  | .sltiu => value (if a < imm then 1 else 0)
  | .lui => value imm
  | .auipc => value (idEx.pc + imm)
  | .lw | .lb => value (a + imm)
  | .sw | .sb => value (a + imm)
  | .beq => branch (a = b)
  | .bne => branch (a ≠ b)
  | .blt => branch (sa < sb)
  | .bge => branch (sb ≤ sa)
  | .bltu => branch (a < b)
  | .bgeu => branch (b ≤ a)
  | .jal => value (idEx.pc + imm)
  | .jalr => value ((a + imm) &&& ~~~1)
  | .nop => value 0

/-- The latch `pipeline_execute` fills. -/
def executeReg (old idEx : PipelineReg) (b result : UInt32) (taken : Bool) : PipelineReg :=
  { old with
    valid := true
    aluResult := result
    regWriteEn := idEx.regWriteEn
    rd := idEx.rd
    rs2Val := b
    memRead := idEx.memRead
    memWrite := idEx.memWrite
    branchTaken := taken
    pc := idEx.pc }

def pipelineExecute (p : Pipeline) : Pipeline :=
  if ¬ p.idEx.valid then { p with exMem := { p.exMem with valid := false } }
  else
    let a := (forwardingUnit p).1.getD p.idEx.rs1Val
    let b := (forwardingUnit p).2.getD p.idEx.rs2Val
    let (result, taken) := pipelineAlu p.idEx a b
    { p with
      exMem := executeReg p.exMem p.idEx b result taken
      idEx := { p.idEx with valid := false, branchTaken := taken }
      -- a taken transfer drops the instruction behind it
      ifId := if taken then { p.ifId with valid := false } else p.ifId
      isa := if taken then { p.isa with pc := result } else p.isa
      bubbleCount := if taken then p.bubbleCount + 1 else p.bubbleCount }

/-- The load of `pipeline_memory`; out of range the result stays the address. -/
def memoryResult (exMem : PipelineReg) (memory : Memory) : Option UInt32 :=
  if exMem.memRead ∧ inMemory exMem.aluResult then loadWord memory exMem.aluResult
  else some exMem.aluResult

/-- The store of `pipeline_memory`. -/
def memoryStore (exMem : PipelineReg) (memory : Memory) : Option Memory :=
  if exMem.memWrite ∧ inMemory exMem.aluResult then
    storeWord memory exMem.aluResult exMem.rs2Val
  else some memory

def pipelineMemory (p : Pipeline) : Option Pipeline :=
  if ¬ p.exMem.valid then some { p with memWb := { p.memWb with valid := false } }
  else
    (memoryResult p.exMem p.isa.memory).bind fun result =>
      (memoryStore p.exMem p.isa.memory).map fun memory =>
        { p with
          memWb :=
            { p.memWb with
              valid := true
              aluResult := result
              regWriteEn := p.exMem.regWriteEn
              rd := p.exMem.rd
              pc := p.exMem.pc }
          isa := { p.isa with memory := memory }
          exMem := { p.exMem with valid := false } }

def pipelineWriteback (p : Pipeline) : Pipeline :=
  if ¬ p.memWb.valid then p
  else
    { p with
      isa :=
        { p.isa with
          registers :=
            if p.memWb.regWriteEn ∧ p.memWb.rd ≠ 0 then
              Function.update p.isa.registers p.memWb.rd p.memWb.aluResult
            else p.isa.registers }
      memWb := { p.memWb with valid := false } }

def pipelineCycle (p : Pipeline) : Option Pipeline :=
  if p.isa.halted then some p
  else if detectLoadUseHazard p then
    pipelineMemory (pipelineWriteback { p with stallCount := p.stallCount + 1 })
  else
    (pipelineMemory (pipelineWriteback p)).bind fun p =>
      (pipelineFetch (pipelineDecode (pipelineExecute p))).map fun p =>
        { p with cycles := p.cycles + 1 }

end MiniHardware.Cpu
