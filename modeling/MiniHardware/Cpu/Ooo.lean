import Mathlib.Data.List.FinRange
import MiniHardware.Cpu.Isa

/-!
# Out-of-order execution (`mini-cpu-arch/src/ooo_exec.c`)

Reservation stations, a reorder buffer and one common data bus. A reorder
buffer number is a `RobIndex`; `(uint32_t)-1` in a register status is `none`.
The addresses and the store data nothing reads are left out. A memory access
outside the array is undefined in C, and a step that makes one is `none`.
-/

namespace MiniHardware.Cpu

/-- A station, below `MAX_RS`. -/
abbrev RsIndex := Fin 16

/-- An entry of the reorder buffer, below `MAX_ROB`. -/
abbrev RobIndex := Fin 32

structure ReservationStation where
  busy : Bool
  op : Opcode
  vj : UInt32
  vk : UInt32
  qj : Option RobIndex
  qk : Option RobIndex
  dest : RobIndex
  qjValid : Bool
  qkValid : Bool
  executing : Bool
  cyclesLeft : UInt32

structure RegisterStatus where
  robNum : Option RobIndex
  ready : Bool

structure CdbEntry where
  value : UInt32
  tag : RobIndex
  valid : Bool

structure RobEntry where
  busy : Bool
  ready : Bool
  committed : Bool
  inst : Instruction
  value : UInt32
  pc : UInt32
  robIndex : RobIndex
  rd : Reg
  isStore : Bool

structure OooProcessor where
  rs : RsIndex → ReservationStation
  regStatus : Reg → RegisterStatus
  rob : RobIndex → RobEntry
  robHead : RobIndex
  robTail : RobIndex
  robCount : Nat
  cdb : CdbEntry
  registers : Reg → UInt32
  memory : Memory
  pc : UInt32
  cycles : UInt32
  instIssued : UInt32
  instCommitted : UInt32

/-- `ooo_init`, with the registers and the memory the program starts from. -/
def oooInit (registers : Reg → UInt32) (memory : Memory) : OooProcessor where
  rs _ := ⟨false, .add, 0, 0, some 0, some 0, 0, false, false, false, 0⟩
  regStatus _ := ⟨none, true⟩
  rob _ := ⟨false, false, false, { nopInstruction 0 with opcode := .add }, 0, 0, 0, 0, false⟩
  robHead := 0
  robTail := 0
  robCount := 0
  cdb := ⟨0, 0, false⟩
  registers := registers
  memory := memory
  pc := 0
  cycles := 0
  instIssued := 0
  instCommitted := 0

/-! ## Issue -/

def findFreeRs (p : OooProcessor) : Option RsIndex :=
  (List.finRange 16).find? fun i => !(p.rs i).busy

def findFreeRob (p : OooProcessor) : Option RobIndex :=
  if 32 ≤ p.robCount then none else some p.robTail

/-- `is_imm_op` of `ooo_issue`. -/
def oooIsImmOp (opcode : Opcode) : Bool :=
  match opcode with
  | .addi | .andi | .ori | .xori | .slli | .srli | .srai | .slti | .sltiu | .lw | .sw
  | .lui | .auipc | .jalr => true
  | _ => false

/-- The value and the tag of an operand that is read from register `r`. -/
def readOperand (p : OooProcessor) (r : Reg) : UInt32 × Option (Option RobIndex) :=
  if r ≠ 0 ∧ ¬ (p.regStatus r).ready then (0, some (p.regStatus r).robNum)
  else (p.registers r, none)

/-- The station `ooo_issue` fills. A tag that is not valid keeps its old number. -/
def issueRs (p : OooProcessor) (old : ReservationStation) (inst : Instruction) (dest : RobIndex) :
    ReservationStation :=
  let j := readOperand p inst.rs1
  let k := if oooIsImmOp inst.opcode then (inst.immediate.toUInt32, none)
    else readOperand p inst.rs2
  { busy := true
    op := inst.opcode
    vj := j.1
    vk := k.1
    qj := j.2.getD old.qj
    qk := k.2.getD old.qk
    dest := dest
    qjValid := j.2.isSome
    qkValid := k.2.isSome
    executing := false
    cyclesLeft := 1 }

def issueRob (p : OooProcessor) (inst : Instruction) (index : RobIndex) : RobEntry where
  busy := true
  ready := false
  committed := false
  inst := inst
  value := 0
  pc := p.pc
  robIndex := index
  rd := inst.rd
  isStore := inst.opcode = .sw

def oooIssue (p : OooProcessor) (inst : Instruction) : OooProcessor :=
  if inst.opcode = .nop then { p with pc := p.pc + 4 }
  else
    match findFreeRs p, findFreeRob p with
    | some x, some index =>
      { p with
        rs := Function.update p.rs x (issueRs p (p.rs x) inst index)
        rob := Function.update p.rob index (issueRob p inst index)
        regStatus :=
          if inst.rd ≠ 0 then Function.update p.regStatus inst.rd ⟨some index, false⟩
          else p.regStatus
        robTail := p.robTail + 1
        robCount := p.robCount + 1
        pc := p.pc + 4
        instIssued := p.instIssued + 1 }
    | _, _ => p

/-! ## Execution -/

/-- A station that starts to execute: it is busy and waits for no operand. -/
def ReservationStation.Starts (rs : ReservationStation) : Bool :=
  rs.busy && !rs.executing && !(rs.qjValid || rs.qkValid)

def startRs (rs : ReservationStation) : ReservationStation :=
  if rs.Starts then { rs with executing := true, cyclesLeft := 1 } else rs

/-- The switch of `ooo_execute`: the result and the memory. A store writes `vk`. -/
def oooResult (rs : ReservationStation) (memory : Memory) : Option (UInt32 × Memory) :=
  let a := rs.vj
  let b := rs.vk
  let addr := a + b
  match rs.op with
  | .add => some (a + b, memory)
  | .sub => some (a - b, memory)
  | .and => some (a &&& b, memory)
  | .or => some (a ||| b, memory)
  | .xor => some (a ^^^ b, memory)
  | .addi => some (a + b, memory)
  | .slti => some (if a.toInt32 < b.toInt32 then 1 else 0, memory)
  | .lw =>
    if inMemory addr then (loadWord memory addr).map fun result => (result, memory)
    else some (0, memory)
  | .sw =>
    if inMemory addr then (storeWord memory addr rs.vk).map fun memory => (0, memory)
    else some (0, memory)
  | _ => some (0, memory)

/-- The second loop of `ooo_execute` at station `x`. -/
def finishRs (p : OooProcessor) (x : RsIndex) : Option OooProcessor :=
  if ¬ (p.rs x).busy ∨ ¬ (p.rs x).executing then some p
  else
    let rs := { p.rs x with cyclesLeft := (p.rs x).cyclesLeft - 1 }
    if rs.cyclesLeft ≠ 0 then some { p with rs := Function.update p.rs x rs }
    else
      (oooResult rs p.memory).map fun (result, memory) =>
        { p with
          memory := memory
          cdb := ⟨result, rs.dest, true⟩
          rs := Function.update p.rs x { rs with busy := false, executing := false } }

/-- `ooo_execute` and whether a station started. -/
def oooExecute (p : OooProcessor) : Option (OooProcessor × Bool) :=
  ((List.finRange 16).foldlM finishRs { p with rs := fun x => startRs (p.rs x) }).map fun q =>
    (q, (List.finRange 16).any fun x => (p.rs x).Starts)

/-! ## Write-back and commit -/

/-- What a broadcast of `value` under `tag` does to a station. -/
def ReservationStation.receive (rs : ReservationStation) (tag : RobIndex) (value : UInt32) :
    ReservationStation :=
  let j := rs.busy && rs.qjValid && decide (rs.qj = some tag)
  let k := rs.busy && rs.qkValid && decide (rs.qk = some tag)
  { rs with
    vj := if j then value else rs.vj
    qjValid := if j then false else rs.qjValid
    vk := if k then value else rs.vk
    qkValid := if k then false else rs.qkValid }

def oooWriteResult (p : OooProcessor) : OooProcessor :=
  if ¬ p.cdb.valid then p
  else
    { p with
      rob := Function.update p.rob p.cdb.tag
        { p.rob p.cdb.tag with value := p.cdb.value, ready := true }
      regStatus := fun r =>
        if (p.regStatus r).robNum = some p.cdb.tag then { p.regStatus r with ready := true }
        else p.regStatus r
      registers := fun r =>
        if (p.regStatus r).robNum = some p.cdb.tag then p.cdb.value else p.registers r
      rs := fun x => (p.rs x).receive p.cdb.tag p.cdb.value
      cdb := { p.cdb with valid := false } }

/-- One round of the loop of `ooo_commit`. -/
def commitHead (p : OooProcessor) : OooProcessor :=
  let rob := p.rob p.robHead
  { p with
    registers :=
      if rob.rd ≠ 0 ∧ ¬ rob.isStore then Function.update p.registers rob.rd rob.value
      else p.registers
    rob := Function.update p.rob p.robHead { rob with busy := false, committed := true }
    robHead := p.robHead + 1
    robCount := p.robCount - 1
    instCommitted := p.instCommitted + 1 }

/-- The loop of `ooo_commit`: each round takes one entry out. -/
def commitLoop : Nat → OooProcessor → OooProcessor
  | 0, p => p
  | rounds + 1, p =>
    if 0 < p.robCount ∧ (p.rob p.robHead).busy ∧ (p.rob p.robHead).ready then
      commitLoop rounds (commitHead p)
    else p

def oooCommit (p : OooProcessor) : OooProcessor := commitLoop p.robCount p

def oooStep (p : OooProcessor) : Option OooProcessor :=
  (oooExecute (oooWriteResult p)).map fun (q, _) =>
    let q := oooCommit q
    { q with cycles := q.cycles + 1 }

end MiniHardware.Cpu
