import Mathlib.Tactic.IntervalCases
import MiniHardware.Arch.PipelineStages
import MiniHardware.Lib.Settle

/-!
# The pipeline halts

`Sim` follows the pipeline through a program: the counter is redirected to
instruction `e`, it is fetched, it is issued. The rank bounds the cycles that
may still be needed.
-/

namespace MiniHardware.Arch.Pipeline
open Lib

variable {imem : Fin 256 → UInt32} {len : Nat}

/-! ## The first two latches -/

/-- The fetch stage has tried to fetch at `pc`. -/
def FetchedAt (imem : Fin 256 → UInt32) (pc : UInt32) (latch : IfIdRegister) : Prop :=
  match imemIndex pc with
  | some i => latch.valid = true ∧ latch.inst = pipelineDecode (imem i) pc
  | none => latch.valid = false

theorem fetchedAt_fetched {p : PipelineProcessor} {pc : UInt32} (code : p.imem = imem)
    (counter : p.pc = pc) : FetchedAt imem pc (fetched p) := by
  subst code counter
  rw [FetchedAt, fetched]
  cases imemIndex p.pc with
  | none => rfl
  | some i => exact ⟨rfl, rfl⟩

theorem FetchedAt.valid_iff {pc : UInt32} {latch : IfIdRegister} (h : FetchedAt imem pc latch) :
    latch.valid = true ↔ pc.toNat < 1024 := by
  rw [FetchedAt] at h
  cases index : imemIndex pc with
  | none =>
    rw [index] at h
    have outside := imemIndex_eq_none_iff.1 index
    simp only at h
    simp only [h, Bool.false_eq_true, false_iff]
    omega
  | some i =>
    rw [index] at h
    exact ⟨fun _ => imemIndex_isSome_iff.1 ⟨i, index⟩, fun _ => h.1⟩

/-- In the program, it is the next instruction. -/
theorem Program.fetchedAt (prog : Program imem len) {e : Nat} (lt : e < len) {latch : IfIdRegister}
    (h : FetchedAt imem (seqAt imem e).pc latch) : latch.valid = true ∧ latch.inst = instAt imem e := by
  obtain ⟨i, hi, inst⟩ := prog.fetch lt
  rw [FetchedAt, hi] at h
  exact ⟨h.1, h.2.trans inst.symm⟩

/-- The latch before execution holds instruction `e` with its operands. -/
structure Issued (imem : Fin 256 → UInt32) (e : Nat) (latch : IdExRegister) : Prop where
  valid : latch.valid = true
  same : latch.inst = instAt imem e
  flows : latch.branchTaken = false
  first : usesFirst (instAt imem e).opcode = true →
    latch.rs1Val = (seqAt imem e).regfile (instAt imem e).rs1
  second : usesSecond (instAt imem e).opcode = true →
    latch.rs2Val = (seqAt imem e).regfile (instAt imem e).rs2
  imm : usesImm (instAt imem e).opcode = true → latch.rs2Val = (instAt imem e).imm

theorem usesImm_of_usesSecond {opcode : Opcode} (h : usesSecond opcode = true) :
    usesImm opcode = false := by
  cases opcode <;> simp_all [usesSecond, usesImm]

theorem issued_spec {p : PipelineProcessor} {e : Nat} (valid : p.ifId.valid = true)
    (same : p.ifId.inst = instAt imem e)
    (first : usesFirst (instAt imem e).opcode = true →
      readReg p (instAt imem e).rs1 = (seqAt imem e).regfile (instAt imem e).rs1)
    (second : usesSecond (instAt imem e).opcode = true →
      readReg p (instAt imem e).rs2 = (seqAt imem e).regfile (instAt imem e).rs2) :
    Issued imem e (issued p) := by
  rw [issued, if_pos valid, same]
  refine ⟨rfl, rfl, rfl, first, fun uses => ?_, fun uses => if_pos uses⟩
  rw [← second uses]
  exact if_neg (by simp [usesImm_of_usesSecond uses])

/-! ## Execution -/

theorem Program.exHolds (prog : Program imem len) {e : Nat} (lt : e < len) (safe : StepSafe imem e)
    {latch : ExMemRegister} (valid : latch.valid = true) (same : latch.inst = instAt imem e)
    (result : latch.aluResult = seqResult (seqAt imem e) (instAt imem e))
    (store : (instAt imem e).opcode = .sw → latch.storeData = (instAt imem e).imm) :
    ExHolds latch (instAt imem e) (seqAt imem e) (seqAt imem (e + 1)) := by
  rw [prog.succ lt]
  refine ⟨valid, same, by rw [result]; rfl, ?_, fun nonzero noStore => ?_⟩
  · rw [result]
    simp only [storeData, seqExec]
    split
    · rename_i isStore
      cases index : dmemIndex (seqResult (seqAt imem e) (instAt imem e)) with
      | none => rfl
      | some i =>
        -- in range the stored value is the immediate
        rw [store isStore, ← safe.store isStore (by simp [index])]
    · rfl
  · have written : (seqExec (seqAt imem e) (instAt imem e)).regfile (instAt imem e).rd =
        if (instAt imem e).opcode = .lw then (seqExec (seqAt imem e) (instAt imem e)).memData
        else seqResult (seqAt imem e) (instAt imem e) := by
      simp only [seqExec]
      rw [if_pos ⟨nonzero, noStore⟩, Function.update_self]
    rw [written, result]

theorem executeStage_issued (prog : Program imem len) {e : Nat} (lt : e < len)
    (safe : StepSafe imem e) {p : PipelineProcessor} (noFlush : p.flush = false)
    (noStall : p.stall = false) (issued : Issued imem e p.idEx) :
    ∃ latch result, executeStage p = leaveEx p latch result (instAt imem e).rd ∧
      ExHolds latch (instAt imem e) (seqAt imem e) (seqAt imem (e + 1)) ∧
      latch.branchTaken = taken imem e ∧
      (taken imem e = true → latch.branchTarget = (seqAt imem (e + 1)).pc) := by
  have noHalt := prog.no_halt lt
  have second : usesSecond (instAt imem e).opcode = true →
      p.idEx.rs2Val = secondOperand (seqAt imem e) (instAt imem e) := by
    intro uses
    rw [issued.second uses, secondOperand, if_neg (by simp [usesImm_of_usesSecond uses])]
  have operand : usesSecond (instAt imem e).opcode = true ∨ usesImm (instAt imem e).opcode = true →
      p.idEx.rs2Val = secondOperand (seqAt imem e) (instAt imem e) := by
    rintro (uses | uses)
    · exact second uses
    · rw [issued.imm uses, secondOperand, if_pos uses]
  have step := executeStage_valid noFlush noStall issued.valid (by rw [issued.same]; exact noHalt)
  rw [issued.same] at step
  have jumps : exTaken (instAt imem e) p.idEx.branchTaken p.idEx.rs1Val p.idEx.rs2Val =
      taken imem e := by
    rw [issued.flows]
    exact exTaken_congr false issued.first second
  refine ⟨_, _, step, prog.exHolds lt safe rfl rfl ?_ ?_, jumps, fun jump => ?_⟩
  · exact exResult_congr noHalt issued.first operand
  · intro isStore
    have imm := issued.imm (by rw [isStore]; rfl)
    simp only [exOutput, isStore, if_true, imm]
  · rw [prog.succ lt]
    have target : (seqExec (seqAt imem e) (instAt imem e)).pc =
        seqTarget (seqAt imem e) (instAt imem e) := if_pos jump
    rw [target]
    refine exTarget_congr issued.first second ?_
    rw [issued.flows] at jumps
    rw [jumps, jump]

/-! ## Operands -/

/-- The MEM stage forwards a value that is right before instruction `e`. -/
def MemForward (imem : Fin 256 → UInt32) (e : Nat) (p : PipelineProcessor) : Prop :=
  p.fwMemRd ≠ 0 → p.fwMemResult = (seqAt imem e).regfile p.fwMemRd

/-- What it forwards next: the result of the instruction in it, which must not be a load or a store
naming the register. -/
theorem Back.memForward {w m e : Nat} {p q : PipelineProcessor} (back : Back imem w m e p)
    (advanced : Advanced imem m e p q) (kept : p.exMem.valid = false → MemForward imem e p)
    (nonzero : q.fwMemRd ≠ 0)
    (plain : e = m + 1 → isMemory (instAt imem m).opcode = true → (instAt imem m).rd ≠ q.fwMemRd) :
    q.fwMemResult = (seqAt imem e).regfile q.fwMemRd := by
  have moved := advanced.fwMem
  cases valid : p.exMem.valid with
  | false =>
    rw [if_neg (by simp [valid])] at moved
    rw [moved.2, moved.1]
    rw [moved.1] at nonzero
    exact kept valid nonzero
  | true =>
    rw [if_pos valid] at moved
    rcases back.ex with ⟨-, idle⟩ | ⟨rfl, holds⟩
    · rw [moved.1, (harmless_opcode (idle valid)).1] at nonzero
      exact absurd rfl nonzero
    · rw [moved.1, holds.same] at nonzero plain ⊢
      rw [moved.2]
      have noMemory : ¬ isMemory (instAt imem m).opcode = true := fun isMem => plain rfl isMem rfl
      simp only [isMemory, Bool.or_eq_true, decide_eq_true_eq, not_or] at noMemory
      rw [← holds.value nonzero noMemory.2, if_neg noMemory.1]

theorem Back.operand (prog : Program imem len) {w m e : Nat} (le : e ≤ len)
    {p q x : PipelineProcessor} (back : Back imem w m e p) (advanced : Advanced imem m e p q)
    (kept : p.exMem.valid = false → MemForward imem e p)
    (same : x.regfile = q.regfile ∧ x.fwMemRd = q.fwMemRd ∧ x.fwMemResult = q.fwMemResult) {r : Reg}
    (noEx : x.fwExRd ≠ 0 → x.fwExRd ≠ r)
    (plain : r ≠ 0 → e = m + 1 → isMemory (instAt imem m).opcode = true →
      (instAt imem m).rd ≠ r) : readReg x r = (seqAt imem e).regfile r := by
  obtain ⟨regfile, fwMemRd, fwMemResult⟩ := same
  apply readReg_eq noEx
  · rintro nonzero rfl
    rw [fwMemRd] at nonzero plain ⊢
    rw [fwMemResult]
    exact back.memForward advanced kept nonzero (plain nonzero)
  · intro other
    rw [regfile, advanced.regfile]
    rw [fwMemRd] at other
    rcases back.ex with ⟨rfl, -⟩ | ⟨rfl, holds⟩
    · rfl
    · rw [prog.succ (by omega)]
      refine (seqExec_regfile_of_ne fun names => ?_).symm
      have moved := advanced.fwMem
      rw [if_pos holds.valid, holds.same] at moved
      rw [← names, ← moved.1]
      exact other (by rw [moved.1, names])

/-! ## The program counter -/

theorem toNat_pc_add {pc k : UInt32} (inside : pc.toNat < 1024) (small : k.toNat ≤ 8) :
    (pc + k).toNat = pc.toNat + k.toNat := by
  rw [UInt32.toNat_add]
  omega

theorem Program.next_pc (prog : Program imem len) {e : Nat} (lt : e < len)
    (flows : taken imem e = false) : (seqAt imem (e + 1)).pc = (seqAt imem e).pc + 4 := by
  rw [prog.succ lt]
  exact if_neg (by rw [← taken, flows]; exact Bool.false_ne_true)

/-- The last word of the memory ends the program. -/
theorem Program.last (prog : Program imem len) {e : Nat} (lt : e < len) (safe : StepSafe imem e)
    (last : (seqAt imem e).pc.toNat / 4 = 255) : e = len - 1 := by
  by_contra more
  have inside := prog.inside (e + 1) (by omega)
  cases jump : taken imem e with
  | true => exact (safe.shadow jump inside).1 last
  | false =>
    rw [prog.next_pc lt jump, toNat_pc_add (prog.inside e lt) (by decide)] at inside
    have four : (4 : UInt32).toNat = 4 := rfl
    omega

/-! ## One cycle -/

/-- The EX stage still names the register a transfer at address 1016 links to. -/
def ExLink (imem : Fin 256 → UInt32) (e : Nat) (rd : Reg) : Prop :=
  rd ≠ 0 → (seqAt imem (e - 1)).pc.toNat / 4 = 254 ∧ rd = (instAt imem (e - 1)).rd

/-- The states of the pipeline while it runs the program, and a bound on the cycles still needed. -/
inductive Sim (imem : Fin 256 → UInt32) (len : Nat) : Nat → PipelineProcessor → Prop where
  | redirecting {p : PipelineProcessor} {w m e : Nat} (le : e ≤ len) (behind : bubble imem e = true)
      (back : Back imem w m e p) (squash : p.flush = true ∨ p.idEx.valid = false)
      (pc : p.pc = (seqAt imem e).pc)
      (shadow : e < len → p.ifId.valid = true → Harmless p.ifId.inst = true)
      (plain : p.exMem.valid = true → isMemory p.exMem.inst.opcode = false)
      (kept : p.exMem.valid = false → MemForward imem e p)
      (link : p.ifId.valid = false → ExLink imem e p.fwExRd)
      (ends : e = len → (seqAt imem m).regfile = (seqAt imem len).regfile ∧
        (seqAt imem len).pc.toNat < 4294967292) :
      Sim imem len (3 * (len - e) + 3) p
  | fetching {p : PipelineProcessor} {w e : Nat} (lt : e < len) (behind : bubble imem e = true)
      (back : Back imem w e e p) (noFlush : p.flush = false) (idle : IdIdle p.idEx)
      (ifId : FetchedAt imem (seqAt imem e).pc p.ifId) (pc : p.pc = (seqAt imem e).pc + 4)
      (kept : MemForward imem e p) (link : p.idEx.valid = false → ExLink imem e p.fwExRd) :
      Sim imem len (3 * (len - e) + 2) p
  | issuing {p : PipelineProcessor} {w e : Nat} (lt : e < len)
      (back : Back imem w (issueAt imem e) e p) (noFlush : p.flush = false)
      (issued : Issued imem e p.idEx) (inside : (seqAt imem e).pc.toNat / 4 ≠ 255)
      (ifId : FetchedAt imem ((seqAt imem e).pc + 4) p.ifId) (pc : p.pc = (seqAt imem e).pc + 8)
      (kept : p.exMem.valid = false → MemForward imem e p) :
      Sim imem len (3 * (len - e) + 1) p
  | stopped {p : PipelineProcessor} (halted : p.halted = true)
      (regfile : p.regfile = (seqAt imem len).regfile) (dmem : p.dmem = (seqAt imem len).dmem) :
      Sim imem len 0 p

/-- The rest of a cycle that issues instruction `e`; behind the last word of the memory it halts. -/
theorem Sim.issue (prog : Program imem len) (ends : EndSafe imem len) {w e : Nat} (lt : e < len)
    (safe : StepSafe imem e) {x : PipelineProcessor} (back : Back imem w (issueAt imem e) e x)
    (written : w = if bubble imem e then e else issueAt imem (e - 1)) (noFlush : x.flush = false)
    (flows : redirects x = false) (ifId : FetchedAt imem (seqAt imem e).pc x.ifId)
    (pc : x.pc = (seqAt imem e).pc + 4) (kept : x.exMem.valid = false → MemForward imem e x)
    (noLoad : x.exMem.valid = true → x.exMem.inst.opcode = .lw → x.exMem.inst.rd ≠ 0 →
      x.exMem.inst.rd ≠ (instAt imem e).rs1 ∧ x.exMem.inst.rd ≠ (instAt imem e).rs2)
    (first : usesFirst (instAt imem e).opcode = true →
      readReg x (instAt imem e).rs1 = (seqAt imem e).regfile (instAt imem e).rs1)
    (second : usesSecond (instAt imem e).opcode = true →
      readReg x (instAt imem e).rs2 = (seqAt imem e).regfile (instAt imem e).rs2) :
    ∃ j, j ≤ 3 * (len - e) + 1 ∧
      Sim imem len j (checkHalt (updatePc (fetchStage (decodeStage x)))) := by
  obtain ⟨valid, same⟩ := prog.fetchedAt lt ifId
  have inside := prog.inside e lt
  have four : (4 : UInt32).toNat = 4 := rfl
  have eight : (8 : UInt32).toNat = 8 := rfl
  have next : nextPc x = (seqAt imem e).pc + 8 := by
    rw [nextPc, if_neg (by simp [flows]), pc, UInt32.add_assoc]
    rfl
  have latch := fetchedAt_fetched back.code pc
  have validNext := latch.valid_iff
  rw [toNat_pc_add inside (by decide)] at validNext
  rw [frontEnd_eq noFlush back.noStall back.running (by rw [same]; exact fun h _ => noLoad h), next]
  by_cases last : (seqAt imem e).pc.toNat / 4 = 255
  · obtain rfl : e = len - 1 := prog.last lt safe last
    rw [EndSafe, if_pos last] at ends
    refine ⟨0, Nat.zero_le _, .stopped ?_ ?_ ?_⟩
    · have outside : (fetched x).valid = false := by
        rw [← Bool.not_eq_true, validNext]
        omega
      have leaves : 1024 ≤ (seqAt imem (len - 1)).pc + 8 := by
        rw [UInt32.le_iff_toNat_le, toNat_pc_add inside (by decide)]
        simp only [UInt32.reduceToNat]
        omega
      simp [outside, leaves]
    · rw [← ends.1, ← written]
      exact back.regfile
    · rw [← ends.2]
      exact back.dmem
  · have running : (decide (1024 ≤ (seqAt imem e).pc + 8) && !(fetched x).valid) = false := by
      rw [validNext.2 (by omega), Bool.not_true, Bool.and_false]
    refine ⟨_, Nat.le_refl _, .issuing lt ⟨back.code, running, back.noStall, back.regfile, back.dmem,
      back.memData, back.wb, back.ex⟩ flows ?_ last latch rfl kept⟩
    exact issued_spec valid same first second

/-- A cycle behind a transfer of control fetches the target, or halts if it is outside. -/
theorem Sim.redirect (prog : Program imem len) {p : PipelineProcessor} {w m e : Nat} (le : e ≤ len)
    (behind : bubble imem e = true) (back : Back imem w m e p)
    (squash : p.flush = true ∨ p.idEx.valid = false) (pc : p.pc = (seqAt imem e).pc)
    (shadow : e < len → p.ifId.valid = true → Harmless p.ifId.inst = true)
    (plain : p.exMem.valid = true → isMemory p.exMem.inst.opcode = false)
    (kept : p.exMem.valid = false → MemForward imem e p)
    (link : p.ifId.valid = false → ExLink imem e p.fwExRd)
    (ends : e = len → (seqAt imem m).regfile = (seqAt imem len).regfile ∧
      (seqAt imem len).pc.toNat < 4294967292) :
    ∃ j, j ≤ 3 * (len - e) + 2 ∧ Sim imem len j (pipelineCycle p) := by
  have advanced := back.advance prog le
  rw [pipelineCycle_eq back.running]
  generalize memoryStage (writebackStage p) = q at advanced
  obtain ⟨code, halted, stall, flush, pcq, ifId, idEx, exMem, fwExRd⟩ := advanced.same
  have noStall : q.stall = false := stall.trans back.noStall
  have running : q.halted = false := halted.trans back.running
  obtain ⟨latch, empty, step⟩ := executeStage_squash noStall (by rw [flush, idEx]; exact squash)
  have forward : MemForward imem e q := by
    intro nonzero
    refine back.memForward advanced kept nonzero fun next isMem => ?_
    rcases back.ex with ⟨same, -⟩ | ⟨-, holds⟩
    · omega
    · rw [← holds.same, plain holds.valid] at isMem
      cases isMem
  rw [step]
  have flows : redirects (leaveEx q latch q.fwExResult q.fwExRd) = false := by
    simp [redirects, leaveEx, empty]
  have next : nextPc (leaveEx q latch q.fwExResult q.fwExRd) = (seqAt imem e).pc + 4 := by
    rw [nextPc, if_neg (by simp [flows])]
    exact congrArg (· + 4) (pcq.trans pc)
  have fetch : FetchedAt imem (seqAt imem e).pc (fetched (leaveEx q latch q.fwExResult q.fwExRd)) :=
    fetchedAt_fetched (code.trans back.code) (pcq.trans pc)
  rw [frontEnd_eq (p := leaveEx q latch q.fwExResult q.fwExRd) rfl noStall running
    (by simp [leaveEx, empty]), next, flows]
  have idEx' : (issued (leaveEx q latch q.fwExResult q.fwExRd)).valid = p.ifId.valid ∧
      (issued (leaveEx q latch q.fwExResult q.fwExRd)).inst = p.ifId.inst ∧
      (issued (leaveEx q latch q.fwExResult q.fwExRd)).branchTaken = false := by
    rw [← ifId]
    cases valid : q.ifId.valid <;> simp [issued, leaveEx, idInput, valid]
  rcases Nat.lt_or_eq_of_le le with lt | rfl
  · have valid := (prog.fetchedAt lt fetch).1
    refine ⟨_, Nat.le_refl _, .fetching (w := m) lt behind ?_ rfl ?_ fetch rfl forward ?_⟩
    · refine ⟨code.trans back.code, ?_, noStall, advanced.regfile, advanced.dmem, advanced.memData,
        advanced.wb, Or.inl ⟨rfl, fun full => ?_⟩⟩
      · rw [valid, Bool.not_true, Bool.and_false]
      · exact absurd full (by simp [leaveEx, empty])
    · intro full
      refine ⟨?_, idEx'.2.2⟩
      rw [idEx'.2.1]
      exact shadow lt (idEx'.1 ▸ full)
    · intro none
      have := link (idEx'.1 ▸ none)
      rw [← fwExRd] at this
      exact this
  · obtain ⟨regfile, small⟩ := ends rfl
    refine ⟨0, Nat.zero_le _, .stopped ?_ (advanced.regfile.trans regfile) advanced.dmem⟩
    have outside : 1024 ≤ (seqAt imem e).pc.toNat := prog.outside
    have invalid : (fetched (leaveEx q latch q.fwExResult q.fwExRd)).valid = false := by
      rw [← Bool.not_eq_true, fetch.valid_iff]
      omega
    have leaves : 1024 ≤ (seqAt imem e).pc + 4 := by
      rw [UInt32.le_iff_toNat_le, UInt32.toNat_add]
      simp only [UInt32.reduceToNat]
      omega
    simp [invalid, leaves]

/-- A cycle that decodes the first instruction behind a transfer. -/
theorem Sim.fetch (prog : Program imem len) (ends : EndSafe imem len) {p : PipelineProcessor}
    {w e : Nat} (lt : e < len) (safe : StepSafe imem e) (behind : bubble imem e = true)
    (back : Back imem w e e p) (noFlush : p.flush = false) (idle : IdIdle p.idEx)
    (ifId : FetchedAt imem (seqAt imem e).pc p.ifId) (pc : p.pc = (seqAt imem e).pc + 4)
    (kept : MemForward imem e p) (link : p.idEx.valid = false → ExLink imem e p.fwExRd) :
    ∃ j, j ≤ 3 * (len - e) + 1 ∧ Sim imem len j (pipelineCycle p) := by
  have advanced := back.advance prog (Nat.le_of_lt lt)
  rw [pipelineCycle_eq back.running]
  generalize memoryStage (writebackStage p) = q at advanced
  obtain ⟨code, halted, stall, flush, pcq, ifIdq, idEx, exMem, fwExRd⟩ := advanced.same
  have noStall : q.stall = false := stall.trans back.noStall
  obtain ⟨latch, result, rd, step, valid, exIdle, flows, shadow⟩ :=
    executeStage_idle (flush.trans noFlush) noStall (idEx ▸ idle)
  have forward : MemForward imem e q := fun nonzero =>
    back.memForward advanced (fun _ => kept) nonzero fun next => by omega
  have issue : issueAt imem e = e := if_pos behind
  have operand : ∀ r, OperandSafe imem e r →
      readReg (leaveEx q latch result rd) r = (seqAt imem e).regfile r := by
    intro r fresh
    refine back.operand (x := leaveEx q latch result rd) prog (Nat.le_of_lt lt) advanced
      (fun _ => kept) ⟨rfl, rfl, rfl⟩ (fun nonzero => ?_) fun _ next => by omega
    rcases fresh with rfl | ⟨-, far⟩
    · exact nonzero
    · obtain ⟨none, stale⟩ := shadow nonzero
      rw [fwExRd] at stale
      rw [idEx] at none
      have linked := link none (stale ▸ nonzero)
      have names : (leaveEx q latch result rd).fwExRd = (instAt imem (e - 1)).rd :=
        stale.trans linked.2
      rw [names]
      exact far behind linked.1
  rw [step]
  refine Sim.issue prog ends lt safe (w := e) (x := leaveEx q latch result rd) ?_
    (if_pos behind).symm rfl ?_ (ifIdq ▸ ifId) (pcq.trans pc) (fun _ => forward) ?_
    (fun uses => operand _ (safe.first uses)) (fun uses => operand _ (safe.second uses))
  · rw [issue]
    exact ⟨code.trans back.code, halted.trans back.running, noStall, advanced.regfile, advanced.dmem,
      advanced.memData, advanced.wb, Or.inl ⟨rfl, exIdle⟩⟩
  · cases full : latch.valid with
    | false => simp [redirects, leaveEx, full]
    | true => simp [redirects, leaveEx, full, flows full]
  · intro full isLoad
    exact absurd isLoad (harmless_opcode (exIdle full)).2.1

/-- A cycle that executes instruction `e` and decodes the next one. -/
theorem Sim.flow (prog : Program imem len) (ends : EndSafe imem len)
    (safe : ∀ e < len, StepSafe imem e) {p q : PipelineProcessor} {w e : Nat} (lt : e < len)
    (back : Back imem w (issueAt imem e) e p) (advanced : Advanced imem (issueAt imem e) e p q)
    (inside : (seqAt imem e).pc.toNat / 4 ≠ 255)
    (ifId : FetchedAt imem ((seqAt imem e).pc + 4) p.ifId) (pc : p.pc = (seqAt imem e).pc + 8)
    (kept : p.exMem.valid = false → MemForward imem e p) {latch : ExMemRegister} {result : Int32}
    (holds : ExHolds latch (instAt imem e) (seqAt imem e) (seqAt imem (e + 1)))
    (branch : latch.branchTaken = false) (flows : taken imem e = false) :
    ∃ j, j ≤ 3 * (len - e) ∧
      Sim imem len j
        (checkHalt (updatePc (fetchStage (decodeStage (leaveEx q latch result (instAt imem e).rd))))) := by
  obtain ⟨code, halted, stall, flush, pcq, ifIdq, idEx, exMem, fwExRd⟩ := advanced.same
  have next := prog.next_pc lt flows
  have here := prog.inside e lt
  have four : (4 : UInt32).toNat = 4 := rfl
  have bubble : bubble imem (e + 1) = false := flows
  have lt' : e + 1 < len := by
    refine Nat.lt_of_le_of_ne lt ?_
    rintro rfl
    have outside := prog.outside
    rw [next, toNat_pc_add here (by decide)] at outside
    omega
  have issue : issueAt imem (e + 1) = e := by simp [issueAt, bubble]
  have operand : ∀ r, OperandSafe imem (e + 1) r →
      readReg (leaveEx q latch result (instAt imem e).rd) r = (seqAt imem (e + 1)).regfile r := by
    intro r fresh
    have keeps : (instAt imem e).rd = r → r = 0 := by
      rintro rfl
      rcases fresh with zero | ⟨near, -⟩
      · exact zero
      · exact absurd rfl (near bubble).1
    rw [prog.succ lt, seqExec_regfile_of_ne keeps]
    refine back.operand (x := leaveEx q latch result (instAt imem e).rd) prog (Nat.le_of_lt lt)
      advanced kept ⟨rfl, rfl, rfl⟩ ?_ ?_
    · rintro nonzero same
      exact nonzero (same.trans (keeps same))
    · intro nonzero far isMem
      -- the instruction two places ahead is still in the MEM stage
      have flow : Pipeline.bubble imem e = false := by
        rw [← Bool.not_eq_true]
        intro behind
        rw [issueAt, if_pos behind] at far
        omega
      have two : issueAt imem e = e + 1 - 2 := by
        rw [issueAt, if_neg (by simp [flow])]
        omega
      rw [two] at isMem ⊢
      exact ((fresh.resolve_left nonzero).1 bubble).2 flow isMem
  obtain ⟨j, le, sim⟩ := Sim.issue prog ends lt' (safe _ lt') (w := issueAt imem e)
    (x := leaveEx q latch result (instAt imem e).rd)
    (by
      rw [issue]
      exact ⟨code.trans back.code, halted.trans back.running, stall.trans back.noStall,
        advanced.regfile, advanced.dmem, advanced.memData, advanced.wb, Or.inr ⟨rfl, holds⟩⟩)
    (by simp [bubble]) rfl (by simp [redirects, leaveEx, branch]) (by rw [next]; exact ifIdq ▸ ifId)
    (by
      rw [next, UInt32.add_assoc]
      exact pcq.trans pc)
    (fun empty => absurd (holds.valid.symm.trans empty) nofun)
    (fun _ isLoad nonzero => by
      rw [show (leaveEx q latch result (instAt imem e).rd).exMem.inst = instAt imem e from holds.same]
        at isLoad nonzero ⊢
      exact (safe _ lt').stall bubble isLoad nonzero)
    (fun uses => operand _ ((safe _ lt').first uses))
    (fun uses => operand _ ((safe _ lt').second uses))
  exact ⟨j, by omega, sim⟩

/-- A cycle that executes a transfer `e` redirects the fetch, or halts if this is the last but one word
of the memory and the target is outside. -/
theorem Sim.jump (prog : Program imem len) (ends : EndSafe imem len)
    (safe : ∀ e < len, StepSafe imem e) {p q : PipelineProcessor} {w e : Nat} (lt : e < len)
    (back : Back imem w (issueAt imem e) e p) (advanced : Advanced imem (issueAt imem e) e p q)
    (inside : (seqAt imem e).pc.toNat / 4 ≠ 255)
    (pc : p.pc = (seqAt imem e).pc + 8) {latch : ExMemRegister} {result : Int32}
    (holds : ExHolds latch (instAt imem e) (seqAt imem e) (seqAt imem (e + 1)))
    (branch : latch.branchTaken = true) (target : latch.branchTarget = (seqAt imem (e + 1)).pc)
    (jump : taken imem e = true) :
    ∃ j, j ≤ 3 * (len - e) ∧
      Sim imem len j
        (checkHalt (updatePc (fetchStage (decodeStage (leaveEx q latch result (instAt imem e).rd))))) := by
  obtain ⟨code, halted, stall, flush, pcq, ifIdq, idEx, exMem, fwExRd⟩ := advanced.same
  have noStall : q.stall = false := stall.trans back.noStall
  have running : q.halted = false := halted.trans back.running
  have here := prog.inside e lt
  have eight : (8 : UInt32).toNat = 8 := rfl
  have noMemory : isMemory (instAt imem e).opcode = false := not_isMemory_of_taken jump
  have fetch : FetchedAt imem ((seqAt imem e).pc + 8)
      (fetched (leaveEx q latch result (instAt imem e).rd)) :=
    fetchedAt_fetched (code.trans back.code) (pcq.trans pc)
  have redirect : redirects (leaveEx q latch result (instAt imem e).rd) = true := by
    simp [redirects, leaveEx, holds.valid, branch]
  have next : nextPc (leaveEx q latch result (instAt imem e).rd) = (seqAt imem (e + 1)).pc := by
    rw [nextPc, if_pos redirect]
    exact target
  have noLoad : latch.inst.opcode ≠ .lw := by
    intro isLoad
    rw [← holds.same, isLoad] at noMemory
    cases noMemory
  rw [frontEnd_eq (p := leaveEx q latch result (instAt imem e).rd) rfl noStall running
    (fun _ _ isLoad => absurd isLoad noLoad), next, redirect]
  have validShadow := fetch.valid_iff
  rw [toNat_pc_add here (by decide)] at validShadow
  have leaves : 1024 ≤ (seqAt imem (e + 1)).pc ↔ e + 1 = len := by
    rw [UInt32.le_iff_toNat_le]
    refine ⟨fun outside => ?_, ?_⟩
    · by_contra more
      have inside := prog.inside (e + 1) (by omega)
      simp only [UInt32.reduceToNat] at outside
      omega
    · rintro rfl
      exact prog.outside
  by_cases stops : e + 1 = len ∧ (seqAt imem e).pc.toNat / 4 = 254
  · obtain ⟨rfl, at254⟩ := stops
    rw [EndSafe, Nat.add_sub_cancel, if_neg inside, if_pos at254] at ends
    refine ⟨0, Nat.zero_le _, .stopped ?_ (advanced.regfile.trans ends) ?_⟩
    · have invalid : (fetched (leaveEx q latch result (instAt imem e).rd)).valid = false := by
        rw [← Bool.not_eq_true, validShadow]
        omega
      simp [invalid, leaves]
    · -- a transfer stores nothing
      refine advanced.dmem.trans (holds.dmem.symm.trans (if_neg ?_)).symm
      intro isStore
      rw [isStore] at noMemory
      cases noMemory
  · have goes : (decide (1024 ≤ (seqAt imem (e + 1)).pc) &&
        !(fetched (leaveEx q latch result (instAt imem e).rd)).valid) = false := by
      rw [← Bool.not_eq_true]
      simp only [Bool.and_eq_true, decide_eq_true_eq, leaves, Bool.not_eq_true', ← Bool.not_eq_true,
        validShadow]
      omega
    refine ⟨_, by omega, .redirecting (w := issueAt imem e) (m := e) (e := e + 1) lt jump ?_
      (Or.inl rfl) rfl ?_ ?_ ?_ ?_ ?_⟩
    · exact ⟨code.trans back.code, goes, noStall, advanced.regfile, advanced.dmem, advanced.memData,
        advanced.wb, Or.inr ⟨rfl, holds⟩⟩
    · intro more valid
      obtain ⟨i, hi⟩ := imemIndex_isSome_iff.2 (fetch.valid_iff.1 valid)
      have harmless := ((safe e lt).shadow jump (prog.inside _ more)).2 i hi
      rw [FetchedAt, hi] at fetch
      rw [← fetch.2] at harmless
      exact harmless
    · intro _
      rw [show (leaveEx q latch result (instAt imem e).rd).exMem.inst = instAt imem e from holds.same]
      exact noMemory
    · intro empty
      exact absurd (holds.valid.symm.trans empty) (by decide)
    · intro invalid _
      refine ⟨?_, rfl⟩
      rw [← Bool.not_eq_true, validShadow] at invalid
      rw [Nat.add_sub_cancel]
      omega
    · rintro rfl
      have not254 : (seqAt imem e).pc.toNat / 4 ≠ 254 := fun at254 => stops ⟨rfl, at254⟩
      rw [EndSafe, Nat.add_sub_cancel, if_neg inside, if_neg not254] at ends
      exact ends

theorem Sim.execute (prog : Program imem len) (ends : EndSafe imem len)
    (safe : ∀ e < len, StepSafe imem e) {p : PipelineProcessor} {w e : Nat} (lt : e < len)
    (back : Back imem w (issueAt imem e) e p) (noFlush : p.flush = false)
    (issued : Issued imem e p.idEx) (inside : (seqAt imem e).pc.toNat / 4 ≠ 255)
    (ifId : FetchedAt imem ((seqAt imem e).pc + 4) p.ifId) (pc : p.pc = (seqAt imem e).pc + 8)
    (kept : p.exMem.valid = false → MemForward imem e p) :
    ∃ j, j ≤ 3 * (len - e) ∧ Sim imem len j (pipelineCycle p) := by
  have advanced := back.advance prog (Nat.le_of_lt lt)
  rw [pipelineCycle_eq back.running]
  generalize memoryStage (writebackStage p) = q at advanced
  obtain ⟨-, -, stall, flush, -, -, idEx, -, -⟩ := advanced.same
  obtain ⟨latch, result, step, holds, branch, target⟩ :=
    executeStage_issued prog lt (safe e lt) (flush.trans noFlush) (stall.trans back.noStall)
      (idEx ▸ issued)
  rw [step]
  cases jump : taken imem e with
  | true =>
    exact Sim.jump prog ends safe lt back advanced inside pc holds (branch.trans jump) (target jump) jump
  | false =>
    exact Sim.flow prog ends safe lt back advanced inside ifId pc kept holds (branch.trans jump) jump

/-- One cycle. -/
theorem Sim.step (prog : Program imem len) (ends : EndSafe imem len)
    (safe : ∀ e < len, StepSafe imem e) {k : Nat} {p : PipelineProcessor} (sim : Sim imem len k p) :
    ∃ j, (j < k ∨ j = 0) ∧ Sim imem len j (pipelineCycle p) := by
  cases sim with
  | redirecting le behind back squash pc shadow plain kept link outside =>
    obtain ⟨j, fall, sim⟩ :=
      Sim.redirect prog le behind back squash pc shadow plain kept link outside
    exact ⟨j, by omega, sim⟩
  | fetching lt behind back noFlush idle ifId pc kept link =>
    obtain ⟨j, fall, sim⟩ :=
      Sim.fetch prog ends lt (safe _ lt) behind back noFlush idle ifId pc kept link
    exact ⟨j, by omega, sim⟩
  | issuing lt back noFlush issued inside ifId pc kept =>
    obtain ⟨j, fall, sim⟩ :=
      Sim.execute prog ends safe lt back noFlush issued inside ifId pc kept
    exact ⟨j, by omega, sim⟩
  | stopped halted regfile dmem =>
    refine ⟨0, Or.inr rfl, ?_⟩
    rw [pipelineCycle, if_pos halted]
    exact .stopped halted regfile dmem

/-- With no cycle left, the pipeline has halted. -/
theorem Sim.rest {p : PipelineProcessor} (sim : Sim imem len 0 p) :
    p.halted = true ∧ p.regfile = (seqAt imem len).regfile ∧ p.dmem = (seqAt imem len).dmem := by
  generalize h : 0 = k at sim
  cases sim with
  | redirecting => omega
  | fetching => omega
  | issuing => omega
  | stopped halted regfile dmem => exact ⟨halted, regfile, dmem⟩

/-! ## The refinement -/

/-- The first `e + 1` instructions are fetched from the memory. -/
def InProgram (imem : Fin 256 → UInt32) (e : Nat) : Prop :=
  ∀ n ≤ e, (seqAt imem n).pc.toNat < 1024

/-- The processor with a program loaded. -/
def loaded (instrs : List UInt32) : PipelineProcessor := pipelineLoadProgram pipelineInit instrs

/-- If every instruction of a program that finishes is safe, and so is its end, the pipeline halts
with the registers and the data memory of the sequential execution. -/
theorem pipeline_halts (instrs : List UInt32)
    (safe : ∀ e, InProgram (loaded instrs).imem e → StepSafe (loaded instrs).imem e)
    (ends : ∀ len, Program (loaded instrs).imem len → EndSafe (loaded instrs).imem len) (t : SeqState)
    (finishes : Finishes (loaded instrs).imem t) :
    ∃ N, ∀ n, N ≤ n →
      (pipelineCycle^[n] (loaded instrs)).halted = true ∧
        (pipelineCycle^[n] (loaded instrs)).regfile = t.regfile ∧
        (pipelineCycle^[n] (loaded instrs)).dmem = t.dmem := by
  obtain ⟨len, prog, rfl⟩ := finishes.program
  have safe : ∀ e < len, StepSafe (loaded instrs).imem e := by
    intro e lt
    apply safe
    intro n le
    exact prog.inside n (by omega)
  have init : Sim (loaded instrs).imem len (3 * (len - 0) + 3) (loaded instrs) :=
    .redirecting (w := 0) (m := 0) (Nat.zero_le _) rfl
      ⟨rfl, rfl, rfl, rfl, rfl, rfl, Or.inl ⟨rfl, nofun⟩, Or.inl ⟨rfl, nofun⟩⟩ (Or.inr rfl) rfl
      (fun _ => nofun) nofun (fun _ nonzero => absurd rfl nonzero)
      (fun _ nonzero => absurd rfl nonzero) (fun empty => absurd empty (Nat.ne_of_lt prog.pos))
  obtain ⟨N, settled⟩ := settles_iterate (fun _ _ sim => Sim.step prog (ends len prog) safe sim) init
  exact ⟨N, fun n le => (settled n le).rest⟩

theorem InProgram.lt {e : Nat} (inside : InProgram imem e)
    (outside : 1024 ≤ (seqAt imem len).pc.toNat) : e < len := by
  by_contra h
  have := inside len (by omega)
  omega

/-- A program has one length. -/
theorem Program.unique {len' : Nat} (prog : Program imem len) (prog' : Program imem len') :
    len = len' := by
  rcases Nat.lt_trichotomy len len' with lt | eq | lt
  · exact absurd (prog'.inside _ lt) (Nat.not_lt.2 prog.outside)
  · exact eq
  · exact absurd (prog.inside _ lt) (Nat.not_lt.2 prog'.outside)

/-- `ADDI x1, x0, 5; JAL x0, 12; NOP; NOP; ADD x3, x1, x1; JAL x0, 2048`. -/
def jumpingProgram : List UInt32 :=
  [0x00500093, 0x00C0006F, 0x00000013, 0x00000013, 0x001081B3, 0x0010006F]

theorem pipeline_halts_jumping :
    ∃ N, ∀ n, N ≤ n →
      (pipelineCycle^[n] (loaded jumpingProgram)).halted = true ∧
        (pipelineCycle^[n] (loaded jumpingProgram)).regfile =
          (seqAt (loaded jumpingProgram).imem 4).regfile ∧
        (pipelineCycle^[n] (loaded jumpingProgram)).dmem =
          (seqAt (loaded jumpingProgram).imem 4).dmem := by
  have prog : Program (loaded jumpingProgram).imem 4 := by
    refine ⟨fun e lt => ?_, by decide⟩
    interval_cases e <;> decide
  have stops : Stops (loaded jumpingProgram).imem (seqAt (loaded jumpingProgram).imem 4) := by
    intro inst fetch
    rw [seqFetch, imemIndex_eq_none_iff.2 prog.outside] at fetch
    cases fetch
  refine pipeline_halts jumpingProgram ?_ ?_ _ ⟨4, rfl, stops⟩
  · intro e inside
    have lt := inside.lt prog.outside
    interval_cases e <;> decide +kernel
  · intro len prog'
    obtain rfl := prog.unique prog'
    decide

/-! ## A value forwarded too early -/

/-- `ADDI x1, x0, 5; ADDI x2, x1, 0; JAL x0, 2048`. -/
def staleProgram : List UInt32 := [0x00500093, 0x00008113, 0x0010006F]

/-- The second ADDI gets what the EX stage held before the first one: the sequential execution ends
with 5 in `x2`, the pipeline halts with 0. -/
theorem pipeline_forwards_stale :
    ¬ ∀ instrs t, Finishes (loaded instrs).imem t →
      ∃ N, ∀ n, N ≤ n →
        (pipelineCycle^[n] (loaded instrs)).halted = true ∧
          (pipelineCycle^[n] (loaded instrs)).regfile = t.regfile ∧
          (pipelineCycle^[n] (loaded instrs)).dmem = t.dmem := by
  intro claim
  have outside : 1024 ≤ (seqAt (loaded staleProgram).imem 3).pc.toNat := by decide
  have stops : Stops (loaded staleProgram).imem (seqAt (loaded staleProgram).imem 3) := by
    intro inst fetch
    rw [seqFetch, imemIndex_eq_none_iff.2 outside] at fetch
    cases fetch
  obtain ⟨N, settled⟩ := claim staleProgram _ ⟨3, rfl, stops⟩
  have halts : (pipelineCycle^[6] (loaded staleProgram)).halted = true := by decide
  have stays : pipelineCycle (pipelineCycle^[6] (loaded staleProgram)) =
      pipelineCycle^[6] (loaded staleProgram) := by
    rw [pipelineCycle, if_pos halts]
  obtain ⟨-, same, -⟩ := settled (N + 6) (Nat.le_add_right N 6)
  rw [Function.iterate_add_apply, Function.iterate_fixed stays] at same
  exact absurd (congrFun same 2) (by decide)

end MiniHardware.Arch.Pipeline
