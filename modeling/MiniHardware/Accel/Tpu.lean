import MiniHardware.Accel.Systolic
import MiniHardware.Lib.Segments

/-!
# A tensor core (`mini-ai-accelerator/src/tpu_isa.c`)

The unified buffer is read and written in words of four bytes, as floats or as
fields of instructions. `float` is Lean's own type, and an access outside an
array has no result. Numbers of type `int` are those of the source where it
does not overflow.
-/

namespace MiniHardware.Accel
open Lib
open Systolic (systolicRun maxSystolicSize)

inductive TPUOpcode where
  | matmul
  | vectorAdd
  | vectorMul
  | activation
  | loadWeight
  | loadAct
  | store
  | sync
  | other (code : UInt32) (unknown : 8 ≤ code)
deriving DecidableEq

inductive TPUActivation where
  | relu
  | sigmoid
  | tanh
  | other (code : UInt32) (unknown : 3 ≤ code)
deriving DecidableEq

def TPUOpcode.code : TPUOpcode → UInt32
  | .matmul => 0
  | .vectorAdd => 1
  | .vectorMul => 2
  | .activation => 3
  | .loadWeight => 4
  | .loadAct => 5
  | .store => 6
  | .sync => 7
  | .other code _ => code

def TPUOpcode.ofCode (code : UInt32) : TPUOpcode :=
  if unknown : 8 ≤ code then .other code unknown
  else match code.toNat with
    | 0 => .matmul
    | 1 => .vectorAdd
    | 2 => .vectorMul
    | 3 => .activation
    | 4 => .loadWeight
    | 5 => .loadAct
    | 6 => .store
    | _ => .sync

@[simp] theorem TPUOpcode.ofCode_code (opcode : TPUOpcode) : ofCode opcode.code = opcode := by
  cases opcode with
  | other code unknown => exact dif_pos unknown
  | _ => decide

def TPUActivation.code : TPUActivation → UInt32
  | .relu => 0
  | .sigmoid => 1
  | .tanh => 2
  | .other code _ => code

def TPUActivation.ofCode (code : UInt32) : TPUActivation :=
  if unknown : 3 ≤ code then .other code unknown
  else match code.toNat with
    | 0 => .relu
    | 1 => .sigmoid
    | _ => .tanh

@[simp] theorem TPUActivation.ofCode_code (activation : TPUActivation) : ofCode activation.code = activation := by
  cases activation with
  | other code unknown => exact dif_pos unknown
  | _ => decide

structure TPUInstruction where
  opcode : TPUOpcode
  activation : TPUActivation
  srcAddr : UInt32
  dstAddr : UInt32
  sizeBytes : UInt32
  arg0 : UInt32
  arg1 : UInt32
  arg2 : UInt32
deriving DecidableEq

/-- An instruction as it lies in memory. -/
def TPUInstruction.words (inst : TPUInstruction) : List UInt32 :=
  [inst.opcode.code, inst.activation.code, inst.srcAddr, inst.dstAddr, inst.sizeBytes, inst.arg0, inst.arg1, inst.arg2]

/-- `sizeof(TPUInstruction)` in words. -/
abbrev instructionWords : Nat := 8

def TPUInstruction.ofWords : List UInt32 → Option TPUInstruction
  | [opcode, activation, srcAddr, dstAddr, sizeBytes, arg0, arg1, arg2] =>
    some ⟨.ofCode opcode, .ofCode activation, srcAddr, dstAddr, sizeBytes, arg0, arg1, arg2⟩
  | _ => none

@[simp] theorem TPUInstruction.length_words (inst : TPUInstruction) : inst.words.length = instructionWords := rfl

@[simp] theorem TPUInstruction.ofWords_words (inst : TPUInstruction) : ofWords inst.words = some inst := by
  simp [words, ofWords]

/-! ## The core -/

section Core

/-- `TPU_ACCUMULATOR_SIZE`. -/
abbrev tpuAccumulatorSize : Nat := 4096

/-- `TPU_UB_MAX_MB`. -/
def tpuUbMaxMb : UInt32 := 24

structure TPUCore where
  unifiedBuffer : List UInt32
  ubSize : UInt32
  ubAllocPtr : UInt32
  accumulatorBuffer : Vector Float32 tpuAccumulatorSize
  pc : UInt32
  running : Bool

def tpuInit (ubSizeMb : UInt32) : TPUCore :=
  let ubSizeMb := if ubSizeMb > tpuUbMaxMb then tpuUbMaxMb else ubSizeMb
  let ubSize := ubSizeMb * 1024 * 1024
  { unifiedBuffer := List.replicate (ubSize.toNat / 4) 0
    ubSize
    ubAllocPtr := 0
    accumulatorBuffer := Vector.replicate tpuAccumulatorSize 0
    pc := 0
    running := true }

def tpuLoadProgram (tpu : TPUCore) (prog : List TPUInstruction) : TPUCore :=
  let tpu := { tpu with pc := 0, running := true }
  if 4 * instructionWords * prog.length > tpu.ubSize.toNat then { tpu with running := false }
  else
    { tpu with unifiedBuffer :=
        prog.flatMap TPUInstruction.words ++ tpu.unifiedBuffer.drop (instructionWords * prog.length) }

def tpuUbAlloc (tpu : TPUCore) (sizeBytes : UInt32) : UInt32 × TPUCore :=
  let aligned := (sizeBytes + 63) &&& ~~~63
  if tpu.ubAllocPtr + aligned > tpu.ubSize then (-1, tpu)
  else
    let addr := tpu.ubAllocPtr
    (addr, { tpu with ubAllocPtr := tpu.ubAllocPtr + aligned })

def tpuUbFree (tpu : TPUCore) : TPUCore := { tpu with ubAllocPtr := 0 }

/-- `ub_float[i]`. -/
def ubFloat (tpu : TPUCore) (i : Int) : Option Float32 :=
  if i < 0 then none else tpu.unifiedBuffer[i.toNat]?.map Float32.ofBits

/-- An unsigned word as an `int`. -/
def wordInt (w : UInt32) : Int := w.toInt32.toInt

/-- The rounds of the loops over the accumulators. -/
def accumulatorRange (inst : TPUInstruction) : List Nat :=
  List.range (min (inst.sizeBytes / 4).toNat tpuAccumulatorSize)

def activate (activation : TPUActivation) (v : Float32) : Float32 :=
  match activation with
  | .relu => if v > 0 then v else 0
  | .sigmoid => 1 / (1 + Float32.exp (-v))
  | .tanh => Float32.tanh v
  | .other _ _ => v

/-- The returned value and the core. -/
def tpuExecute (tpu : TPUCore) (inst : TPUInstruction) : Option (Int × TPUCore) :=
  let src : Int := (inst.srcAddr / 4).toNat
  let dst : Int := (inst.dstAddr / 4).toNat
  match inst.opcode with
  | .matmul => do
    -- the array has all its rows, so its constructor leaves nothing as it was
    let accumulatorBuffer ← systolicRun (fun _ => 0) (fun _ => 0) maxSystolicSize maxSystolicSize
      (fun i => ubFloat tpu (src + i)) (fun i => ubFloat tpu (dst + i))
      (wordInt inst.arg0) (wordInt inst.arg1) (wordInt inst.arg2) tpu.accumulatorBuffer
    some (0, { tpu with accumulatorBuffer })
  | .vectorAdd => do
    let accumulatorBuffer ← fill (accumulatorRange inst) id
      (fun i => do some ((← ubFloat tpu (src + i)) + (← ubFloat tpu (dst + i)))) tpu.accumulatorBuffer
    some (0, { tpu with accumulatorBuffer })
  | .vectorMul => do
    let accumulatorBuffer ← fill (accumulatorRange inst) id
      (fun i => do some ((← ubFloat tpu (src + i)) * (← ubFloat tpu (dst + i)))) tpu.accumulatorBuffer
    some (0, { tpu with accumulatorBuffer })
  | .activation => do
    let accumulatorBuffer ← fill (accumulatorRange inst) id
      (fun i => tpu.accumulatorBuffer[i]?.map (activate inst.activation)) tpu.accumulatorBuffer
    some (0, { tpu with accumulatorBuffer })
  | .loadWeight | .loadAct =>
    if inst.srcAddr + inst.sizeBytes > tpu.ubSize then some (-1, tpu) else some (0, tpu)
  | .store => do
    let unifiedBuffer ← (accumulatorRange inst).foldlM (fun ub i => do
      let v ← tpu.accumulatorBuffer[i]?
      writeAt ub ((inst.dstAddr / 4).toNat + i) v.toBits) tpu.unifiedBuffer
    some (0, { tpu with unifiedBuffer })
  | .sync => some (0, tpu)
  | .other _ _ => some (-1, tpu)

/-- `program[pc]`. -/
def programAt (tpu : TPUCore) (pc : Nat) : Option TPUInstruction :=
  TPUInstruction.ofWords ((tpu.unifiedBuffer.drop (instructionWords * pc)).take instructionWords)

def tpuStep (tpu : TPUCore) : Option TPUCore :=
  if tpu.running then do
    let inst ← programAt tpu tpu.pc.toNat
    let (_, tpu) ← tpuExecute tpu inst
    some { tpu with pc := tpu.pc + 1, running := if inst.opcode = .sync then false else tpu.running }
  else some tpu

/-- A loaded program is fetched from the bytes it was copied to. -/
theorem programAt_tpuLoadProgram (tpu : TPUCore) {prog : List TPUInstruction}
    (fits : 4 * instructionWords * prog.length ≤ tpu.ubSize.toNat) {pc : Nat} (lt : pc < prog.length) :
    programAt (tpuLoadProgram tpu prog) pc = some prog[pc] := by
  have place : ∀ k ≤ prog.length, offset (prog.map TPUInstruction.words) k = instructionWords * k := by
    intro k le
    induction k with
    | zero => rfl
    | succ k ih =>
      rw [offset_succ (by rw [List.length_map]; omega), ih (by omega), List.getElem_map, TPUInstruction.length_words]
      rfl
  have row := @drop_take_flatten _ (prog.map TPUInstruction.words) pc (by rw [List.length_map]; exact lt)
  rw [place pc (by omega), place (pc + 1) (by omega), List.drop_take, List.getElem_map] at row
  have inside : instructionWords * pc + instructionWords ≤ (prog.flatMap TPUInstruction.words).length := by
    have last := place prog.length (Nat.le_refl _)
    rw [offset_of_length_le (by rw [List.length_map]), ← List.flatMap_def] at last
    rw [last]
    unfold instructionWords at *
    omega
  have width : instructionWords * (pc + 1) - instructionWords * pc = instructionWords := by
    unfold instructionWords
    omega
  rw [width, ← List.flatMap_def] at row
  have loaded : (tpuLoadProgram tpu prog).unifiedBuffer =
      prog.flatMap TPUInstruction.words ++ tpu.unifiedBuffer.drop (instructionWords * prog.length) := by
    rw [tpuLoadProgram]
    exact congrArg TPUCore.unifiedBuffer (if_neg (Nat.not_lt.2 fits))
  rw [programAt, loaded, List.drop_append_of_le_length (by omega),
    List.take_append_of_le_length (by rw [List.length_drop]; omega), row, TPUInstruction.ofWords_words]

end Core

end MiniHardware.Accel
