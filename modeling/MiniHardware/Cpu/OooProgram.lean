import MiniHardware.Cpu.IsaRun
import MiniHardware.Cpu.Ooo

/-!
# Programs for the out-of-order processor

`seqAt` are the contexts of the interpreter between the instructions of a
list, and `oooResult_eq` compares a station that has its operands with the
interpreter.
-/

namespace MiniHardware.Cpu

/-- `isa_execute` on each instruction in order. -/
def executeAll (ctx : IsaContext) (prog : List Instruction) : Option IsaContext :=
  prog.foldlM isaExecute ctx

/-- The context before instruction `k`. -/
def seqAt (ctx : IsaContext) (prog : List Instruction) (k : Nat) : IsaContext :=
  (executeAll ctx (prog.take k)).getD ctx

/-- Instruction `k`. -/
def seqInst (prog : List Instruction) (k : Nat) : Instruction := prog.getD k (nopInstruction 0)

/-- The operations the out-of-order processor is used with. -/
def oooSupported (opcode : Opcode) : Bool :=
  match opcode with
  | .add | .sub | .and | .or | .xor | .addi | .slti | .lw | .sw => true
  | _ => false

variable {ctx t : IsaContext} {prog : List Instruction}

theorem executeAll_append {xs ys : List Instruction} :
    executeAll ctx (xs ++ ys) = (executeAll ctx xs).bind fun u => executeAll u ys := by
  simp only [executeAll, List.foldlM_append]
  rfl

/-- The instructions are executed one after the other, and each is a supported one. -/
structure SeqRun (ctx : IsaContext) (prog : List Instruction) : Prop where
  running : ∀ k, (seqAt ctx prog k).halted = false
  exec : ∀ k < prog.length,
    isaExecute (seqAt ctx prog k) (seqInst prog k) = some (seqAt ctx prog (k + 1))
  beyond : ∀ k, prog.length ≤ k → seqAt ctx prog (k + 1) = seqAt ctx prog k
  supported : ∀ k < prog.length, oooSupported (seqInst prog k).opcode = true

theorem seqAt_length (run : executeAll ctx prog = some t) : seqAt ctx prog prog.length = t := by
  rw [seqAt, List.take_length, run]
  rfl

/-- A defined run is defined up to each of its instructions. -/
theorem executeAll_take (run : executeAll ctx prog = some t) (k : Nat) :
    executeAll ctx (prog.take k) = some (seqAt ctx prog k) := by
  have split := @executeAll_append ctx (prog.take k) (prog.drop k)
  rw [List.take_append_drop, run] at split
  cases h : executeAll ctx (prog.take k) with
  | none =>
    rw [h] at split
    cases split
  | some u => rw [seqAt, h]; rfl

theorem halted_of_isaExecute {s u : IsaContext} {inst : Instruction} (running : s.halted = false)
    (exec : isaExecute s inst = some u) : u.halted = false := by
  obtain ⟨-, -, -, -, h, -⟩ := isaExecute_eq_some running exec
  exact h

theorem SeqRun.of_executeAll (running : ctx.halted = false) (run : executeAll ctx prog = some t)
    (supported : ∀ inst ∈ prog, oooSupported inst.opcode = true) : SeqRun ctx prog := by
  have at_lt : ∀ k (h : k < prog.length), seqInst prog k = prog.get ⟨k, h⟩ := by
    intro k h
    simp [seqInst, h]
  have exec : ∀ k < prog.length,
      isaExecute (seqAt ctx prog k) (seqInst prog k) = some (seqAt ctx prog (k + 1)) := by
    intro k h
    have next := executeAll_take run (k + 1)
    rw [List.take_succ_eq_append_getElem h, executeAll_append, executeAll_take run k] at next
    simpa [executeAll, at_lt k h] using next
  have beyond : ∀ k, prog.length ≤ k → seqAt ctx prog (k + 1) = seqAt ctx prog k := by
    intro k h
    rw [seqAt, seqAt, List.take_of_length_le h, List.take_of_length_le (by omega)]
  refine ⟨fun k => ?_, exec, beyond, fun k h => ?_⟩
  · induction k with
    | zero => exact running
    | succ k ih =>
      rcases Nat.lt_or_ge k prog.length with h | h
      · exact halted_of_isaExecute ih (exec k h)
      · rw [beyond k h, ih]
  · rw [at_lt k h]
    exact supported _ (List.get_mem _ _)

namespace SeqRun

variable {k : Nat}

/-- A register an instruction does not name as its destination stays. -/
theorem registers_of_ne (run : SeqRun ctx prog) {r : Reg} (other : (seqInst prog k).rd = r → r = 0) :
    (seqAt ctx prog (k + 1)).registers r = (seqAt ctx prog k).registers r := by
  rcases Nat.lt_or_ge k prog.length with lt | le
  · obtain ⟨effect, -, -, -, -, regs⟩ := isaExecute_eq_some (run.running k) (run.exec k lt)
    rw [regs]
    split
    · rename_i writes
      apply Function.update_of_ne
      intro eq
      exact writes.1 (eq ▸ other eq.symm)
    · rfl
  · rw [run.beyond k le]

/-- Nor does it change over instructions that do not name it. -/
theorem registers_of_not_written (run : SeqRun ctx prog) {r : Reg} {j : Nat} (le : j ≤ k)
    (free : ∀ i, j ≤ i → i < k → (seqInst prog i).rd = r → r = 0) :
    (seqAt ctx prog k).registers r = (seqAt ctx prog j).registers r := by
  induction k, le using Nat.le_induction with
  | base => rfl
  | succ k le ih =>
    rw [run.registers_of_ne (free k le (Nat.lt_succ_self k)), ih fun i lo hi => free i lo (by omega)]

end SeqRun

/-! ## Words in memory -/

/-- The word at `addr` has a byte at `a`. -/
def Covers (addr : UInt32) (a : Fin 4096) : Prop := addr.toNat ≤ a.val ∧ a.val < addr.toNat + 4

/-- A load depends on the bytes of its word. -/
theorem loadWord_congr {m m' : Memory} {addr : UInt32}
    (same : ∀ a, Covers addr a → m a = m' a) : loadWord m addr = loadWord m' addr := by
  simp only [loadWord]
  split
  · rw [same, same, same, same] <;> simp only [Covers] <;> omega
  · rfl

/-- A store writes the bytes of its word, whatever they were. -/
theorem storeWord_covers {m m' n n' : Memory} {addr val : UInt32}
    (hm : storeWord m addr val = some m') (hn : storeWord n addr val = some n') {a : Fin 4096}
    (covers : Covers addr a) : m' a = n' a := by
  simp only [storeWord, Option.ite_none_right_eq_some, Option.some.injEq] at hm hn
  obtain ⟨-, rfl⟩ := hm
  obtain ⟨-, rfl⟩ := hn
  obtain ⟨lo, hi⟩ := covers
  dsimp only
  repeat' split
  all_goals first | rfl | omega

theorem storeWord_of_not_covers {m m' : Memory} {addr val : UInt32}
    (hm : storeWord m addr val = some m') {a : Fin 4096} (out : ¬ Covers addr a) : m' a = m a := by
  simp only [storeWord, Option.ite_none_right_eq_some, Option.some.injEq] at hm
  obtain ⟨-, rfl⟩ := hm
  unfold Covers at out
  dsimp only
  repeat' split
  all_goals first | rfl | omega

theorem storeWord_isSome_iff {m : Memory} {addr val : UInt32} :
    (∃ m', storeWord m addr val = some m') ↔ addr.toNat + 4 ≤ 4096 := by
  simp [storeWord]

/-! ## A station against the interpreter -/

/-- What a station with the right operands computes, on a memory that agrees where it loads. -/
theorem oooResult_eq {s u : IsaContext} {inst : Instruction} {rs : ReservationStation} {m : Memory}
    (running : s.halted = false) (exec : isaExecute s inst = some u)
    (supported : oooSupported inst.opcode = true) (op : rs.op = inst.opcode)
    (vj : rs.vj = s.registers inst.rs1)
    (vk : rs.vk = if oooIsImmOp inst.opcode then inst.immediate.toUInt32
      else s.registers inst.rs2)
    (load : inst.opcode = .lw → inMemory (accessAddr s inst) = true →
      loadWord m (accessAddr s inst) = loadWord s.memory (accessAddr s inst))
    (store : inst.opcode = .sw → inMemory (accessAddr s inst) = true →
      inst.immediate.toUInt32 = s.registers inst.rs2) :
    ∃ value m', oooResult rs m = some (value, m') ∧
      (inst.opcode ≠ .sw → inst.rd ≠ 0 → value = u.registers inst.rd) ∧
      (inst.opcode = .sw ∧ inMemory (accessAddr s inst) = true →
        storeWord m (accessAddr s inst) (s.registers inst.rs2) = some m' ∧
          storeWord s.memory (accessAddr s inst) (s.registers inst.rs2) = some u.memory) ∧
      (¬ (inst.opcode = .sw ∧ inMemory (accessAddr s inst) = true) →
        m' = m ∧ u.memory = s.memory) := by
  obtain ⟨effect, he, mem, -, -, regs⟩ := isaExecute_eq_some running exec
  have written : inst.opcode ≠ .sw → inst.rd ≠ 0 → u.registers inst.rd = effect.rdVal := by
    intro noStore nonzero
    have keeps : isaKeepsRegisters inst.opcode = false := by
      cases h : inst.opcode <;> simp_all [oooSupported, isaKeepsRegisters]
    rw [regs, if_pos ⟨nonzero, by simp [keeps]⟩, Function.update_self]
  cases h : inst.opcode
  case lw =>
    have addr : rs.vj + rs.vk = accessAddr s inst := by
      simp [vj, vk, h, oooIsImmOp, accessAddr]
    simp only [isaEffect, h] at he
    change (if inMemory (accessAddr s inst) = true then _ else _) = _ at he
    simp only [oooResult, op, h, addr]
    split at he <;> rename_i inRange
    · obtain ⟨v, hv, he⟩ := Option.bind_eq_some_iff.1 he
      obtain rfl := Option.some.inj he
      rw [if_pos inRange, load h inRange]
      refine ⟨v, m, ?_, ?_, by simp, fun _ => ⟨rfl, mem⟩⟩
      · rw [show loadWord s.memory (accessAddr s inst) = some v from hv]
        rfl
      · intro _ nonzero
        exact (written (by simp [h]) nonzero).symm
    · obtain rfl := Option.some.inj he
      rw [if_neg inRange]
      refine ⟨0, m, rfl, ?_, by simp, fun _ => ⟨rfl, mem⟩⟩
      intro _ nonzero
      exact (written (by simp [h]) nonzero).symm
  case sw =>
    have addr : rs.vj + rs.vk = accessAddr s inst := by
      simp [vj, vk, h, oooIsImmOp, accessAddr]
    simp only [isaEffect, h] at he
    change (if inMemory (accessAddr s inst) = true then _ else _) = _ at he
    simp only [oooResult, op, h, addr]
    split at he <;> rename_i inRange
    · have value : rs.vk = s.registers inst.rs2 := by
        rw [vk, h, ← store h inRange]
        rfl
      obtain ⟨memory, hmem, he⟩ := Option.map_eq_some_iff.1 he
      obtain ⟨m', hm'⟩ := (@storeWord_isSome_iff m (accessAddr s inst) (s.registers inst.rs2)).2
        (storeWord_isSome_iff.1 ⟨memory, hmem⟩)
      rw [if_pos inRange, value, hm']
      refine ⟨0, m', rfl, by simp, fun _ => ⟨rfl, ?_⟩, fun out => absurd ⟨trivial, inRange⟩ out⟩
      rw [mem, ← he]
      exact hmem
    · obtain rfl := Option.some.inj he
      rw [if_neg inRange]
      exact ⟨0, m, rfl, by simp, fun h => absurd h.2 inRange, fun _ => ⟨rfl, mem⟩⟩
  all_goals first
    | (rw [h] at supported; cases supported; done)
    | simp only [isaEffect, h, Option.some.injEq] at he
      subst he
      simp only [oooResult, op, h, vj, vk, oooIsImmOp]
      refine ⟨_, m, rfl, ?_, by simp, fun _ => ⟨rfl, mem⟩⟩
      intro _ nonzero
      exact (written (by simp [h]) nonzero).symm

end MiniHardware.Cpu
