import Mathlib.Data.List.FinRange
import MiniHardware.Cpu.Isa

/-!
# The superscalar core (`mini-cpu-arch/src/superscalar.c`)

Instructions are entered into free slots of the reorder buffer, dispatched in
the order of the slots as soon as their operands are there, and retired from
`rob_head` on. `reg_rob_mapping` names the slot of the last writer of a register
from the issue on, also after that writer has been retired. What only the dump
prints (`rob_tail`, the issue queue) is left out. A load or store that passes
the bounds check but lies outside of the memory has no result, as in `isa.c`.
-/

namespace MiniHardware.Cpu

/-- `MAX_ROB_ENTRIES`. -/
abbrev maxRobEntries : Nat := 32

/-- `MAX_DISPATCH_WIDTH`, the number of entries retired in a step. -/
abbrev maxDispatchWidth : Nat := 2

/-- `MAX_ISSUE_WIDTH`. -/
abbrev maxIssueWidth : Nat := 2

abbrev RobSlot := Fin maxRobEntries

structure ROBEntry where
  busy : Bool
  done : Bool
  committed : Bool
  inst : Instruction
  rd : Reg
  value : UInt32
  pc : UInt32
  robIndex : UInt32

/-- `none` in `regRobMapping` is `(uint32_t)-1`. -/
structure Superscalar where
  rob : RobSlot → ROBEntry
  robHead : RobSlot
  robCount : Nat
  registers : Reg → UInt32
  regRobMapping : Reg → Option RobSlot
  pc : UInt32
  memory : Memory
  cycles : UInt32
  instructionsIssued : UInt32
  instructionsCommitted : UInt32

/-- The bytes of an instruction set to zero. -/
def zeroInstruction : Instruction := ⟨0, .add, 0, 0, 0, 0, 0, 0⟩

/-- `superscalar_init`, and then the registers and the memory the program starts with. -/
def superscalarInit (registers : Reg → UInt32) (memory : Memory) : Superscalar where
  rob _ := ⟨false, false, false, zeroInstruction, 0, 0, 0, 0⟩
  robHead := 0
  robCount := 0
  registers := registers
  regRobMapping _ := none
  pc := 0
  memory := memory
  cycles := 0
  instructionsIssued := 0
  instructionsCommitted := 0

namespace Superscalar

def setEntry (s : Superscalar) (slot : RobSlot) (entry : ROBEntry) : Superscalar :=
  { s with rob := Function.update s.rob slot entry }

/-- `find_free_rob`; `-1` is `none`. -/
def findFree (s : Superscalar) : Option RobSlot :=
  (List.finRange maxRobEntries).find? fun i => !(s.rob i).busy

/-- An instruction is entered into a slot. -/
def enter (s : Superscalar) (slot : RobSlot) (inst : Instruction) : Superscalar :=
  { s with
    rob := Function.update s.rob slot
      { busy := true
        done := false
        committed := false
        inst := inst
        rd := inst.rd
        pc := s.pc
        value := 0
        robIndex := UInt32.ofNat slot.val }
    regRobMapping :=
      if inst.rd ≠ 0 then Function.update s.regRobMapping inst.rd (some slot) else s.regRobMapping
    robCount := s.robCount + 1
    instructionsIssued := s.instructionsIssued + 1
    pc := s.pc + 4 }

/-- The loop of `superscalar_issue`. -/
def enterAll (s : Superscalar) : List Instruction → Superscalar
  | [] => s
  | inst :: rest =>
    if s.robCount ≥ maxRobEntries then s
    else
      match s.findFree with
      | some slot => (s.enter slot inst).enterAll rest
      | none => s

/-! ## Dispatch -/

/-- The value of a source register, if it is there. -/
def operand (s : Superscalar) (r : Reg) : Option UInt32 :=
  if r ≠ 0 then
    match s.regRobMapping r with
    | some k => if (s.rob k).busy && (s.rob k).done then some (s.rob k).value else none
    | none => some (s.registers r)
  else some (s.registers r)

/-- The switch of `superscalar_dispatch`: the result and the memory. -/
def result (memory : Memory) (inst : Instruction) (a b : UInt32) : Option (UInt32 × Memory) :=
  let addr := a + inst.immediate.toUInt32
  match inst.opcode with
  | .add => some (a + b, memory)
  | .sub => some (a - b, memory)
  | .and => some (a &&& b, memory)
  | .or => some (a ||| b, memory)
  | .xor => some (a ^^^ b, memory)
  | .addi => some (addr, memory)
  | .slti => some (if a.toInt32 < inst.immediate then 1 else 0, memory)
  | .lw =>
    if inMemory addr then (loadWord memory addr).map fun value => (value, memory)
    else some (0, memory)
  | .sw =>
    if inMemory addr then (storeWord memory addr b).map fun memory => (0, memory)
    else some (0, memory)
  | _ => some (0, memory)

/-- The entry waits for its dispatch. -/
def Waits (s : Superscalar) (i : RobSlot) : Prop := (s.rob i).busy = true ∧ (s.rob i).done = false

instance (s : Superscalar) (i : RobSlot) : Decidable (s.Waits i) :=
  inferInstanceAs (Decidable (_ ∧ _))

/-- The body of the loop of `superscalar_dispatch`. -/
def dispatchEntry (s : Superscalar) (i : RobSlot) : Option Superscalar :=
  if s.Waits i then
    let entry := s.rob i
    match s.operand entry.inst.rs1, s.operand entry.inst.rs2 with
    | some a, some b =>
      (result s.memory entry.inst a b).map fun (value, memory) =>
        { s.setEntry i { entry with value := value, done := true } with memory := memory }
    | _, _ => some s
  else some s

end Superscalar

def superscalarDispatch (s : Superscalar) : Option Superscalar :=
  (List.finRange maxRobEntries).foldlM Superscalar.dispatchEntry s

def superscalarIssue (s : Superscalar) (insts : List Instruction) : Option Superscalar :=
  superscalarDispatch (s.enterAll (insts.take maxIssueWidth))

/-! ## Commit -/

namespace Superscalar

/-- An entry is retired. -/
def retire (s : Superscalar) (idx : RobSlot) : Superscalar :=
  let entry := s.rob idx
  { s with
    registers :=
      if entry.rd ≠ 0 then Function.update s.registers entry.rd entry.value else s.registers
    rob := Function.update s.rob idx { entry with busy := false, committed := true }
    robCount := s.robCount - 1
    instructionsCommitted := s.instructionsCommitted + 1
    robHead := s.robHead + 1 }

/-- The slot `(rob_head + i) % MAX_ROB_ENTRIES`, with the `rob_head` of now. -/
def slotAt (s : Superscalar) (i : RobSlot) : RobSlot := s.robHead + i

/-- The loop of `superscalar_commit` over the `i` left, with `commit_count`. -/
def commitLoop (s : Superscalar) (commitCount : Nat) : List RobSlot → Superscalar
  | [] => s
  | i :: is =>
    if commitCount < maxDispatchWidth then
      let entry := s.rob (s.slotAt i)
      if !entry.busy then s.commitLoop commitCount is
      else if !entry.done then s
      else if entry.committed then s
      else (s.retire (s.slotAt i)).commitLoop (commitCount + 1) is
    else s

end Superscalar

def superscalarCommit (s : Superscalar) : Superscalar := s.commitLoop 0 (List.finRange maxRobEntries)

def superscalarStep (s : Superscalar) : Option Superscalar :=
  (superscalarDispatch s).map fun s => { superscalarCommit s with cycles := s.cycles + 1 }

end MiniHardware.Cpu
