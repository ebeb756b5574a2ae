import MiniHardware.Arch.PipelineSim

/-!
# The stages of a cycle

`executeStage` on a latch that is valid, empty or flushed, and the stages before
it in one equation (`frontEnd_eq`).
-/

namespace MiniHardware.Arch.Pipeline

variable {p : PipelineProcessor}

/-! ## Execution -/

/-- What the EX stage leaves: its latch, and what it forwards. -/
def leaveEx (p : PipelineProcessor) (latch : ExMemRegister) (result : Int32) (rd : Reg) :
    PipelineProcessor :=
  { p with exMem := latch, fwExResult := result, fwExRd := rd, flush := false }

theorem executeStage_valid (noFlush : p.flush = false) (noStall : p.stall = false)
    (valid : p.idEx.valid = true) (noHalt : p.idEx.inst.opcode ≠ .halt) :
    executeStage p =
      leaveEx p
        (exOutput
          { p.exMem with
            valid := true
            inst := p.idEx.inst
            rs1Val := p.idEx.rs1Val
            rs2Val := p.idEx.rs2Val
            branchTaken := p.idEx.branchTaken
            branchTarget := p.idEx.branchTarget })
        p.exMem.aluResult p.idEx.inst.rd := by
  obtain ⟨regfile, pc, imem, dmem, ifId, idEx, exMem, memWb, stall, flush, halted, f1, f2, f3, f4⟩ := p
  simp only at noFlush noStall valid noHalt
  subst noFlush noStall
  simp [executeStage, exInput, leaveEx, valid, noHalt]

/-- A flush or an empty latch leaves the EX stage empty. -/
theorem executeStage_squash (noStall : p.stall = false)
    (squash : p.flush = true ∨ p.idEx.valid = false) :
    ∃ latch, latch.valid = false ∧ executeStage p = leaveEx p latch p.fwExResult p.fwExRd := by
  cases flush : p.flush with
  | true => exact ⟨zeroExMem, rfl, by simp [executeStage, exInput, leaveEx, flush, zeroExMem]⟩
  | false =>
    have empty : p.idEx.valid = false := by simpa [flush] using squash
    refine ⟨exInput p, ?_, ?_⟩
    · simp [exInput, flush, noStall, empty]
    · simp [executeStage, exInput, leaveEx, flush, noStall, empty]

/-- An instruction that does not matter: it writes register 0 and goes on. -/
def IdIdle (latch : IdExRegister) : Prop :=
  latch.valid = true → Harmless latch.inst = true ∧ latch.branchTaken = false

theorem executeStage_idle (noFlush : p.flush = false) (noStall : p.stall = false)
    (idle : IdIdle p.idEx) :
    ∃ latch result rd, executeStage p = leaveEx p latch result rd ∧
      latch.valid = p.idEx.valid ∧ ExIdle latch ∧
      (latch.valid = true → latch.branchTaken = false) ∧
      (rd ≠ 0 → p.idEx.valid = false ∧ rd = p.fwExRd) := by
  cases valid : p.idEx.valid with
  | false =>
    obtain ⟨latch, empty, step⟩ := executeStage_squash noStall (Or.inr valid)
    refine ⟨latch, _, _, step, empty, ?_, ?_, fun _ => ⟨rfl, rfl⟩⟩
    · intro full
      rw [empty] at full
      cases full
    · intro full
      rw [empty] at full
      cases full
  | true =>
    obtain ⟨harmless, flows⟩ := idle valid
    have noHalt := (harmless_opcode harmless).2.2.2
    refine ⟨_, _, _, executeStage_valid noFlush noStall valid noHalt, rfl, fun _ => harmless,
      fun _ => ?_, fun nonzero => absurd (harmless_opcode harmless).1 nonzero⟩
    rw [← flows]
    exact harmless_not_taken harmless _ _ _

/-! ## Operands -/

/-- Register `x` as the ID stage reads it. -/
def readReg (p : PipelineProcessor) (x : Reg) : Int32 :=
  if (forward p x).1 ≠ .none then (forward p x).2 else p.regfile x

/-- The EX stage must not name the register; the MEM stage may, with the right value. -/
theorem readReg_eq {x : Reg} {v : Int32} (ex : p.fwExRd ≠ 0 → p.fwExRd ≠ x)
    (mem : p.fwMemRd ≠ 0 → p.fwMemRd = x → p.fwMemResult = v)
    (reg : (p.fwMemRd = x → p.fwMemRd = 0) → p.regfile x = v) : readReg p x = v := by
  have noEx : ¬ (p.fwExRd ≠ 0 ∧ p.fwExRd = x) := fun h => ex h.1 h.2
  rw [readReg, forward, if_neg noEx]
  by_cases fromMem : p.fwMemRd ≠ 0 ∧ p.fwMemRd = x
  · rw [if_pos fromMem]
    simpa using mem fromMem.1 fromMem.2
  · rw [if_neg fromMem]
    simp only [ne_eq, not_true_eq_false, if_false]
    apply reg
    intro same
    by_contra nonzero
    exact fromMem ⟨nonzero, same⟩

/-- There is no stall unless a load writes one of the register fields. -/
theorem pipelineNeedsStall_eq_false
    (noLoad : p.exMem.valid = true → p.exMem.inst.opcode = .lw → p.exMem.inst.rd ≠ 0 →
      p.exMem.inst.rd ≠ p.idEx.inst.rs1 ∧ p.exMem.inst.rd ≠ p.idEx.inst.rs2) :
    pipelineNeedsStall p = false := by
  simp only [pipelineNeedsStall, pipelineDetectHazards]
  split
  · rfl
  · split
    · rename_i hazard
      split
      · rename_i isLoad
        obtain ⟨valid, nonzero, -, match_⟩ := hazard
        obtain ⟨ne1, ne2⟩ := noLoad valid isLoad nonzero
        exact absurd match_ (not_or.2 ⟨ne1, ne2⟩)
      · rfl
    · rfl

/-! ## Decoding and fetching -/

/-- The latch after the ID stage, when nothing stalls. -/
def issued (p : PipelineProcessor) : IdExRegister :=
  if p.ifId.valid then
    { valid := true
      inst := p.ifId.inst
      rs1Val := readReg p p.ifId.inst.rs1
      rs2Val := if usesImm p.ifId.inst.opcode then p.ifId.inst.imm else readReg p p.ifId.inst.rs2
      branchTaken := false
      branchTarget := 0 }
  else idInput p

theorem decodeStage_eq (noFlush : p.flush = false) (noStall : p.stall = false)
    (noLoad : p.exMem.valid = true → p.ifId.valid = true → p.exMem.inst.opcode = .lw →
      p.exMem.inst.rd ≠ 0 →
        p.exMem.inst.rd ≠ p.ifId.inst.rs1 ∧ p.exMem.inst.rd ≠ p.ifId.inst.rs2) :
    decodeStage p = { p with idEx := issued p } := by
  rw [decodeStage, if_neg (by simp [noStall]), if_neg (by simp [noFlush])]
  cases valid : p.ifId.valid with
  | false =>
    have latch : issued p = idInput p := by simp [issued, valid]
    rw [latch]
    exact if_neg (by simp [idInput, valid])
  | true =>
    have operands : readOperands { p with idEx := idInput p } = { p with idEx := issued p } := by
      simp only [readOperands, issued, valid, if_true, idInput]
      rfl
    have noHazard : pipelineNeedsStall { p with idEx := issued p } = false := by
      have latch : (issued p).inst = p.ifId.inst := by simp [issued, valid]
      apply pipelineNeedsStall_eq_false
      rw [latch]
      intro validEx
      exact noLoad validEx valid
    refine (if_pos valid).trans ?_
    rw [operands]
    exact if_neg (by simp [noHazard])

/-- The latch after the IF stage. -/
def fetched (p : PipelineProcessor) : IfIdRegister :=
  match imemIndex p.pc with
  | some i => { p.ifId with valid := true, inst := pipelineDecode (p.imem i) p.pc }
  | none => { p.ifId with valid := false }

/-- The instruction in EX redirects the fetch. -/
def redirects (p : PipelineProcessor) : Bool := p.exMem.valid && p.exMem.branchTaken

def nextPc (p : PipelineProcessor) : UInt32 := if redirects p then p.exMem.branchTarget else p.pc + 4

/-- The stages after execution, when nothing stalls. -/
theorem frontEnd_eq (noFlush : p.flush = false) (noStall : p.stall = false)
    (running : p.halted = false)
    (noLoad : p.exMem.valid = true → p.ifId.valid = true → p.exMem.inst.opcode = .lw →
      p.exMem.inst.rd ≠ 0 →
        p.exMem.inst.rd ≠ p.ifId.inst.rs1 ∧ p.exMem.inst.rd ≠ p.ifId.inst.rs2) :
    checkHalt (updatePc (fetchStage (decodeStage p))) =
      { p with
        idEx := issued p
        ifId := fetched p
        pc := nextPc p
        flush := redirects p
        halted := decide (1024 ≤ nextPc p) && !(fetched p).valid } := by
  rw [decodeStage_eq noFlush noStall noLoad]
  have fetch : fetchStage { p with idEx := issued p } =
      { p with idEx := issued p, ifId := fetched p } := by
    simp only [fetchStage, noStall, Bool.false_eq_true, if_false, fetched]
    cases imemIndex p.pc <;> rfl
  have update : updatePc { p with idEx := issued p, ifId := fetched p } =
      { p with idEx := issued p, ifId := fetched p, pc := nextPc p, flush := redirects p } := by
    cases redirect : redirects p with
    | true =>
      have taken : p.exMem.valid = true ∧ p.exMem.branchTaken = true := by
        simpa [redirects] using redirect
      rw [nextPc, if_pos redirect]
      exact if_pos taken
    | false =>
      have flows : ¬ (p.exMem.valid = true ∧ p.exMem.branchTaken = true) := by
        simpa [redirects] using redirect
      rw [nextPc, if_neg (by simp [redirect]), ← noFlush]
      exact (if_neg flows).trans (if_pos (by simp [noStall]))
  rw [fetch, update]
  simp only [checkHalt]
  split
  · rename_i stops
    simp [stops.1, stops.2]
  · rename_i goes
    have : (decide (1024 ≤ nextPc p) && !(fetched p).valid) = false := by
      rw [← Bool.not_eq_true]
      simpa using goes
    rw [this, ← running]

theorem pipelineCycle_eq (running : p.halted = false) :
    pipelineCycle p =
      checkHalt (updatePc (fetchStage (decodeStage (executeStage (memoryStage (writebackStage p)))))) := by
  simp [pipelineCycle, running]

end MiniHardware.Arch.Pipeline
