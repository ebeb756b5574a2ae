import MiniHardware.Lib.Reorder
import MiniHardware.Cpu.OooProgram

/-!
# The invariant of the out-of-order processor

Instructions `c` to `n - 1` of the program are in the reorder buffer,
instruction `i` in entry `slot i`. Each of them waits in a station, is on the
data bus, or has its result. `SafeStep` and `SafeIssue` are the conditions
under which a step and an issue keep this so; they exclude two results in one
step, memory operations that overtake a conflicting one, a broadcast that hits
a register renamed long ago, and an operand read from a register that the
commit of an older result has overwritten.
-/

namespace MiniHardware.Cpu
open Lib

variable (ctx : IsaContext) (prog : List Instruction)

/-- The entry of instruction `i`. -/
def slot (i : Nat) : RobIndex := Fin.ofNat 32 i

/-! ## Conditions on a step -/

/-- Instruction `i` loads or stores a word in the memory. -/
def Accesses (i : Nat) : Prop :=
  ((seqInst prog i).opcode = .lw ∨ (seqInst prog i).opcode = .sw) ∧
    inMemory (accessAddr (seqAt ctx prog i) (seqInst prog i)) = true

/-- Instruction `i` stores the byte at `a`. -/
def StoresAt (i : Nat) (a : Fin 4096) : Prop :=
  (seqInst prog i).opcode = .sw ∧
    inMemory (accessAddr (seqAt ctx prog i) (seqInst prog i)) = true ∧
    Covers (accessAddr (seqAt ctx prog i) (seqInst prog i)) a

/-- Instructions `i` and `j` access a common byte, and one of them stores. -/
def Conflict (i j : Nat) : Prop :=
  Accesses ctx prog i ∧ Accesses ctx prog j ∧
    ((seqInst prog i).opcode = .sw ∨ (seqInst prog j).opcode = .sw) ∧
    (accessAddr (seqAt ctx prog i) (seqInst prog i)).toNat <
      (accessAddr (seqAt ctx prog j) (seqInst prog j)).toNat + 4 ∧
    (accessAddr (seqAt ctx prog j) (seqInst prog j)).toNat <
      (accessAddr (seqAt ctx prog i) (seqInst prog i)).toNat + 4

/-- The instruction in entry `index`, when `n` instructions have been issued. -/
def indexOf (p : OooProcessor) (n : Nat) (index : RobIndex) : Nat :=
  n - p.robCount + (index - p.robHead).val

/-- Station `x` executes in the next step. -/
def Fires (p : OooProcessor) (x : RsIndex) : Bool := ((oooWriteResult p).rs x).Starts

/-- One station executes at a time; no older conflicting memory operation is still in a station;
the result on the bus reaches no register but its destination, unless it is there already. -/
structure SafeStep (n : Nat) (p : OooProcessor) : Prop where
  single : ∀ x y, Fires p x = true → Fires p y = true → x = y
  order : ∀ x y, Fires p x = true → (p.rs y).busy = true →
    indexOf p n (p.rs y).dest < indexOf p n (p.rs x).dest →
      ¬ Conflict ctx prog (indexOf p n (p.rs y).dest) (indexOf p n (p.rs x).dest)
  broadcast : p.cdb.valid = true → ∀ r, (p.regStatus r).robNum = some p.cdb.tag →
    r ≠ (p.rob p.cdb.tag).rd → p.registers r = p.cdb.value

/-- If the last result for `r` is in the buffer, the register has it too. -/
def FreshSource (p : OooProcessor) (r : Reg) : Prop :=
  r ≠ 0 → (p.regStatus r).ready = true → ∀ index, (p.regStatus r).robNum = some index →
    (p.rob index).busy = true → (p.rob index).rd = r → p.registers r = (p.rob index).value

/-- The registers instruction `n` reads are up to date; a store names no destination, and stores
its own immediate. -/
structure SafeIssue (n : Nat) (p : OooProcessor) : Prop where
  first : FreshSource p (seqInst prog n).rs1
  second : oooIsImmOp (seqInst prog n).opcode = false → FreshSource p (seqInst prog n).rs2
  store : (seqInst prog n).opcode = .sw → (seqInst prog n).rd = 0 ∧
    (inMemory (accessAddr (seqAt ctx prog n) (seqInst prog n)) = true →
      (seqInst prog n).immediate.toUInt32 = (seqAt ctx prog n).registers (seqInst prog n).rs2)

instance (i j : Nat) : Decidable (Conflict ctx prog i j) := by
  unfold Conflict Accesses
  infer_instance

instance (n : Nat) (p : OooProcessor) : Decidable (SafeStep ctx prog n p) :=
  decidable_of_iff (_ ∧ _ ∧ _)
    ⟨fun ⟨single, order, broadcast⟩ => ⟨single, order, broadcast⟩,
      fun ⟨single, order, broadcast⟩ => ⟨single, order, broadcast⟩⟩

instance (p : OooProcessor) (r : Reg) : Decidable (FreshSource p r) := by
  unfold FreshSource
  infer_instance

instance (n : Nat) (p : OooProcessor) : Decidable (SafeIssue ctx prog n p) :=
  decidable_of_iff (_ ∧ _ ∧ _)
    ⟨fun ⟨first, second, store⟩ => ⟨first, second, store⟩,
      fun ⟨first, second, store⟩ => ⟨first, second, store⟩⟩

/-! ## The invariant -/

/-- Instruction `i` waits in a station. -/
def Waiting (p : OooProcessor) (c n i : Nat) : Prop :=
  c ≤ i ∧ i < n ∧ ∃ x, (p.rs x).busy = true ∧ (p.rs x).dest = slot i

/-- An operand of instruction `i`: its value, or the entry of a pending instruction before `i` that
computes it. -/
def Operand (p : OooProcessor) (c i : Nat) (tagged : Bool) (tag : Option RobIndex)
    (value target : UInt32) : Prop :=
  tagged = false ∧ value = target ∨
    tagged = true ∧ ∃ w, c ≤ w ∧ w < i ∧ tag = some (slot w) ∧ (p.rob (slot w)).ready = false ∧
      (seqInst prog w).rd ≠ 0 ∧ (seqAt ctx prog (w + 1)).registers (seqInst prog w).rd = target

/-- The second operand of instruction `i`. -/
def secondOperand (i : Nat) : UInt32 :=
  if oooIsImmOp (seqInst prog i).opcode then (seqInst prog i).immediate.toUInt32
  else (seqAt ctx prog i).registers (seqInst prog i).rs2

/-- Station `rs` holds instruction `i`. -/
structure Holds (p : OooProcessor) (c n : Nat) (rs : ReservationStation) (i : Nat) : Prop where
  lo : c ≤ i
  hi : i < n
  dest : rs.dest = slot i
  op : rs.op = (seqInst prog i).opcode
  still : rs.executing = false
  pending : (p.rob (slot i)).ready = false
  offBus : p.cdb.valid = true → p.cdb.tag ≠ slot i
  first : Operand ctx prog p c i rs.qjValid rs.qj rs.vj
    ((seqAt ctx prog i).registers (seqInst prog i).rs1)
  second : Operand ctx prog p c i rs.qkValid rs.qk rs.vk (secondOperand ctx prog i)

/-- The buffer, the stations and the bus. -/
structure Slots (c n : Nat) (p : OooProcessor) : Prop where
  le : c ≤ n
  issued : n ≤ prog.length
  count : p.robCount = n - c
  room : n - c ≤ 32
  head : p.robHead = slot c
  tail : p.robTail = slot n
  busy : ∀ i, c ≤ i → i < n → (p.rob (slot i)).busy = true
  rd : ∀ i, c ≤ i → i < n → (p.rob (slot i)).rd = (seqInst prog i).rd
  isStore : ∀ i, c ≤ i → i < n →
    (p.rob (slot i)).isStore = decide ((seqInst prog i).opcode = .sw)
  value : ∀ i, c ≤ i → i < n → (p.rob (slot i)).ready = true → (seqInst prog i).rd ≠ 0 →
    (p.rob (slot i)).value = (seqAt ctx prog (i + 1)).registers (seqInst prog i).rd
  station : ∀ x, (p.rs x).busy = true → ∃ i, Holds ctx prog p c n (p.rs x) i
  distinct : ∀ x y, (p.rs x).busy = true → (p.rs y).busy = true →
    (p.rs x).dest = (p.rs y).dest → x = y
  pending : ∀ i, c ≤ i → i < n → (p.rob (slot i)).ready = false →
    (∃ x, (p.rs x).busy = true ∧ (p.rs x).dest = slot i) ∨
      p.cdb.valid = true ∧ p.cdb.tag = slot i
  bus : p.cdb.valid = true → ∃ i, c ≤ i ∧ i < n ∧ p.cdb.tag = slot i ∧
    (p.rob (slot i)).ready = false ∧ ((seqInst prog i).rd ≠ 0 →
      p.cdb.value = (seqAt ctx prog (i + 1)).registers (seqInst prog i).rd)

/-- The registers: right where no result is in the buffer, and named after the last one elsewhere. -/
structure Renaming (c n : Nat) (p : OooProcessor) : Prop where
  zero : (p.regStatus 0).robNum = none
  settled : ∀ r, (∀ i, c ≤ i → i < n → (seqInst prog i).rd = r → r = 0) →
    p.registers r = (seqAt ctx prog n).registers r ∧ (r ≠ 0 → (p.regStatus r).ready = true)
  renamed : ∀ i, c ≤ i → i < n → (seqInst prog i).rd ≠ 0 →
    (∀ j, i < j → j < n → (seqInst prog j).rd ≠ (seqInst prog i).rd) →
      (p.regStatus (seqInst prog i).rd).robNum = some (slot i) ∧
        (p.regStatus (seqInst prog i).rd).ready = (p.rob (slot i)).ready

/-- The memory, with the stores that wait in stations left out. -/
structure MemoryOrder (c n : Nat) (p : OooProcessor) : Prop where
  memory : InOrder (fun k => (seqAt ctx prog k).memory) (StoresAt ctx prog) n (Waiting p c n)
    p.memory
  order : ∀ j i, j < i → i < n → Waiting p c n j → ¬ Waiting p c n i → ¬ Conflict ctx prog j i

structure OooInv (c n : Nat) (p : OooProcessor) : Prop where
  slots : Slots ctx prog c n p
  renames : Renaming ctx prog c n p
  memoryOrder : MemoryOrder ctx prog c n p
  /-- Stores name no destination and store their immediate. -/
  stores : ∀ i < n, (seqInst prog i).opcode = .sw → (seqInst prog i).rd = 0 ∧
    (inMemory (accessAddr (seqAt ctx prog i) (seqInst prog i)) = true →
      (seqInst prog i).immediate.toUInt32 = (seqAt ctx prog i).registers (seqInst prog i).rs2)

/-! ## Entries -/

theorem slot_succ (i : Nat) : slot (i + 1) = slot i + 1 := by
  apply Fin.ext
  simp only [slot, Fin.ofNat_eq_cast, Fin.val_natCast, Fin.val_add]
  simp

/-- Instructions that are in the buffer together have different entries. -/
theorem eq_of_slot_eq {c i j : Nat} (ci : c ≤ i) (cj : c ≤ j) (hi : i < c + 32) (hj : j < c + 32)
    (same : slot i = slot j) : i = j := by
  have := congrArg Fin.val same
  simp only [slot, Fin.ofNat_eq_cast, Fin.val_natCast] at this
  omega

variable {ctx prog} {c n : Nat} {p : OooProcessor}

theorem Slots.index (slots : Slots ctx prog c n p) {i : Nat} (lo : c ≤ i) (hi : i < n) :
    indexOf p n (slot i) = i := by
  have := slots.le
  have := slots.room
  have sub : (slot i - slot c).val = i - c := by
    simp only [slot, Fin.ofNat_eq_cast, Fin.sub_def, Fin.val_natCast]
    omega
  rw [indexOf, slots.count, slots.head, sub]
  omega

theorem Slots.eq_of_slot_eq (slots : Slots ctx prog c n p) {i j : Nat} (ci : c ≤ i) (hi : i < n)
    (cj : c ≤ j) (hj : j < n) (same : slot i = slot j) : i = j := by
  have := slots.room
  exact Cpu.eq_of_slot_eq ci cj (by omega) (by omega) same

end MiniHardware.Cpu
