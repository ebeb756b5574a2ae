import Mathlib.Logic.Function.Basic
import Mathlib.Tactic.Common
import MiniHardware.Lib.Index

/-!
# The instruction set (`mini-cpu-arch/src/isa.c`)

The sequential interpreter. Bounds are checked in 32-bit arithmetic, as in
`addr + 4 <= MEMORY_SIZE`; an access that passes the check but lies outside
the memory array is undefined in C, and a step that makes one is `none`.
-/

namespace MiniHardware.Cpu

inductive Opcode where
  | add | sub | and | or | xor
  | sll | srl | sra | slt | sltu
  | addi | andi | ori | xori | slli
  | srli | srai | slti | sltiu
  | lw | sw | lb | sb
  | beq | bne | blt | bge | bltu | bgeu
  | jal | jalr
  | lui | auipc
  | nop
deriving DecidableEq

/-- A register number, below `MAX_REGISTERS`. -/
abbrev Reg := Fin 16

structure Instruction where
  raw : UInt32
  opcode : Opcode
  rd : Reg
  rs1 : Reg
  rs2 : Reg
  funct3 : UInt8
  funct7 : UInt8
  immediate : Int32
deriving DecidableEq

/-- The `MEMORY_SIZE` bytes. -/
abbrev Memory := Fin 4096 → UInt8

structure IsaContext where
  registers : Reg → UInt32
  pc : UInt32
  memory : Memory
  halted : Bool
  cycles : UInt64

def isaInit : IsaContext := ⟨fun _ => 0, 0, fun _ => 0, false, 0⟩

/-! ## Decoding -/

/-- A five-bit register field, of which the low four bits are kept. -/
def regField (bits : UInt32) : Reg := Fin.ofNat 16 (bits &&& (0x1F : UInt32)).toNat

/-- `if (imm & sign) imm |= ext`. -/
def signExtend (imm sign ext : UInt32) : Int32 :=
  (if imm &&& sign ≠ 0 then imm ||| ext else imm).toInt32

/-- The instruction `isa_fetch` and `isa_decode` start from. -/
def nopInstruction (raw : UInt32) : Instruction := ⟨raw, .nop, 0, 0, 0, 0, 0, 0⟩

/-- The opcodes of the `0x33` group. -/
def decodeRegister (funct3 funct7 : UInt8) : Opcode :=
  match funct3.toNat with
  | 0x0 => if funct7 = 0 then .add else .sub
  | 0x1 => .sll
  | 0x2 => .slt
  | 0x3 => .sltu
  | 0x4 => .xor
  | 0x5 => if funct7 = 0 then .srl else .sra
  | 0x6 => .or
  | 0x7 => .and
  | _ => .nop

/-- The opcodes of the `0x13` group. -/
def decodeImmediate (funct3 funct7 : UInt8) : Opcode :=
  match funct3.toNat with
  | 0x0 => .addi
  | 0x1 => .slli
  | 0x2 => .slti
  | 0x3 => .sltiu
  | 0x4 => .xori
  | 0x5 => if funct7 = 0 then .srli else .srai
  | 0x6 => .ori
  | 0x7 => .andi
  | _ => .nop

/-- The opcodes of the `0x63` group; the other two `funct3` values stay NOP. -/
def decodeBranch (funct3 : UInt8) : Opcode :=
  match funct3.toNat with
  | 0x0 => .beq
  | 0x1 => .bne
  | 0x4 => .blt
  | 0x5 => .bge
  | 0x6 => .bltu
  | 0x7 => .bgeu
  | _ => .nop

def isaDecode (raw : UInt32) : Instruction :=
  if raw = 0 then nopInstruction raw
  else
    let funct3 := ((raw >>> 12) &&& (0x7 : UInt32)).toUInt8
    let funct7 := ((raw >>> 25) &&& (0x7F : UInt32)).toUInt8
    let immI := signExtend ((raw >>> 20) &&& (0xFFF : UInt32)) 0x800 0xFFFFF000
    let immS := signExtend (((raw >>> 7) &&& (0x1F : UInt32)) ||| ((raw >>> 25) <<< 5)) 0x800 0xFFFFF000
    let immB := signExtend
      (((raw >>> 7) &&& (0x1E : UInt32)) ||| ((raw >>> 25) &&& (0x7E : UInt32)) ||| ((raw >>> 7) &&& (0x1 : UInt32)) |||
        ((raw >>> 31) &&& (0x1 : UInt32))) 0x1000 0xFFFFE000
    let immU := (raw &&& (0xFFFFF000 : UInt32)).toInt32
    let immJ := signExtend
      (((raw >>> 21) &&& (0x3FF : UInt32)) ||| ((raw >>> 20) &&& (0x1 : UInt32)) ||| ((raw >>> 12) &&& (0xFF : UInt32)) |||
        ((raw >>> 31) &&& (0x1 : UInt32))) 0x100000 0xFFE00000
    let inst : Instruction :=
      { raw := raw, opcode := .nop, rd := regField (raw >>> 7), rs1 := regField (raw >>> 15)
        rs2 := regField (raw >>> 20), funct3 := funct3, funct7 := funct7, immediate := 0 }
    match (raw &&& (0x7F : UInt32)).toNat with
    | 0x33 => { inst with opcode := decodeRegister funct3 funct7 }
    | 0x13 => { inst with opcode := decodeImmediate funct3 funct7, immediate := immI }
    | 0x03 => { inst with opcode := .lw, immediate := immI }
    | 0x23 => { inst with opcode := .sw, immediate := immS }
    | 0x63 => { inst with opcode := decodeBranch funct3, immediate := immB }
    | 0x6F => { inst with opcode := .jal, immediate := immJ }
    | 0x67 => { inst with opcode := .jalr, immediate := immI }
    | 0x37 => { inst with opcode := .lui, immediate := immU }
    | 0x17 => { inst with opcode := .auipc, immediate := immU }
    | _ => inst

/-! ## Memory -/

/-- The check `addr + 4 <= MEMORY_SIZE`. -/
def inMemory (addr : UInt32) : Bool := addr + 4 ≤ 4096

/-- The little-endian word at `addr`, if the four bytes exist. -/
def loadWord (memory : Memory) (addr : UInt32) : Option UInt32 :=
  if h : addr.toNat + 4 ≤ 4096 then
    some ((memory ⟨addr.toNat, by omega⟩).toUInt32 |||
      ((memory ⟨addr.toNat + 1, by omega⟩).toUInt32 <<< 8) |||
      ((memory ⟨addr.toNat + 2, by omega⟩).toUInt32 <<< 16) |||
      ((memory ⟨addr.toNat + 3, by omega⟩).toUInt32 <<< 24))
  else none

def storeWord (memory : Memory) (addr val : UInt32) : Option Memory :=
  if addr.toNat + 4 ≤ 4096 then
    some fun i =>
      if i.val = addr.toNat then (val &&& 0xFF).toUInt8
      else if i.val = addr.toNat + 1 then ((val >>> 8) &&& 0xFF).toUInt8
      else if i.val = addr.toNat + 2 then ((val >>> 16) &&& 0xFF).toUInt8
      else if i.val = addr.toNat + 3 then ((val >>> 24) &&& 0xFF).toUInt8
      else memory i
  else none

/-- `isa_load_program`: the words, low byte first, at the start of the memory. -/
def isaLoadProgram (memory : Memory) (program : List UInt32) : Memory := fun i =>
  match program[i.val / 4]? with
  | some word => (word >>> UInt32.ofNat (8 * (i.val % 4))).toUInt8
  | none => memory i

/-! ## Execution -/

def isaFetch (ctx : IsaContext) : Option Instruction :=
  if ctx.halted ∨ ¬ inMemory ctx.pc then some (nopInstruction 0)
  else (loadWord ctx.memory ctx.pc).map isaDecode

/-- What the switch of `isa_execute` leaves in `rd_val`, `next_pc` and the memory. -/
structure Effect where
  rdVal : UInt32
  nextPc : UInt32
  memory : Memory

def isaEffect (ctx : IsaContext) (inst : Instruction) : Option Effect :=
  let a := ctx.registers inst.rs1
  let b := ctx.registers inst.rs2
  let sa := a.toInt32
  let sb := b.toInt32
  let imm := inst.immediate.toUInt32
  let value (rdVal : UInt32) : Option Effect := some ⟨rdVal, ctx.pc + 4, ctx.memory⟩
  let jump (target : UInt32) : Option Effect := some ⟨ctx.pc + 4, target, ctx.memory⟩
  let branch (cond : Bool) : Option Effect :=
    some ⟨0, if cond then ctx.pc + imm else ctx.pc + 4, ctx.memory⟩
  match inst.opcode with
  | .add => value (a + b)
  | .sub => value (a - b)
  | .and => value (a &&& b)
  | .or => value (a ||| b)
  | .xor => value (a ^^^ b)
  | .sll => value (a <<< (b &&& 0x1F))
  | .srl => value (a >>> (b &&& 0x1F))
  | .sra => value (sa >>> (b &&& 0x1F).toInt32).toUInt32
  | .slt => value (if sa < sb then 1 else 0)
  | .sltu => value (if a < b then 1 else 0)
  | .addi => value (a + imm)
  | .andi => value (a &&& imm)
  | .ori => value (a ||| imm)
  | .xori => value (a ^^^ imm)
  | .slli => value (a <<< (imm &&& 0x1F))
  | .srli => value (a >>> (imm &&& 0x1F))
  | .srai => value (sa >>> (imm &&& 0x1F).toInt32).toUInt32
  | .slti => value (if sa < inst.immediate then 1 else 0)
  | .sltiu => value (if a < imm then 1 else 0)
  | .lui => value imm
  | .auipc => value (ctx.pc + imm)
  | .jal => jump (ctx.pc + imm)
  | .jalr => jump ((a + imm) &&& ~~~1)
  | .beq => branch (a = b)
  | .bne => branch (a ≠ b)
  | .blt => branch (sa < sb)
  | .bge => branch (sb ≤ sa)
  | .bltu => branch (a < b)
  | .bgeu => branch (b ≤ a)
  | .lw =>
    let addr := a + imm
    if inMemory addr then (loadWord ctx.memory addr).bind value else value 0
  | .sw =>
    let addr := a + imm
    if inMemory addr then (storeWord ctx.memory addr b).map fun memory => ⟨0, ctx.pc + 4, memory⟩
    else value 0
  | .lb | .sb | .nop => value 0

/-- The opcodes that do not write `rd`. -/
def isaKeepsRegisters (opcode : Opcode) : Bool :=
  match opcode with
  | .sw | .beq | .bne | .blt | .bge | .bltu | .bgeu | .nop => true
  | _ => false

def isaExecute (ctx : IsaContext) (inst : Instruction) : Option IsaContext :=
  if ctx.halted then some ctx
  else
    (isaEffect ctx inst).map fun effect =>
      { ctx with
        registers :=
          if inst.rd ≠ 0 ∧ ¬ isaKeepsRegisters inst.opcode then
            Function.update ctx.registers inst.rd effect.rdVal
          else ctx.registers
        memory := effect.memory
        pc := effect.nextPc
        cycles := ctx.cycles + 1 }

def isaStep (ctx : IsaContext) : Option IsaContext :=
  if ctx.halted then some ctx else (isaFetch ctx).bind (isaExecute ctx)

end MiniHardware.Cpu
