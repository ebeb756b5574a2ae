import MiniHardware.Cpu.OooInvariant

/-!
# Issue
-/

namespace MiniHardware.Cpu
open Lib

variable {ctx : IsaContext} {prog : List Instruction} {c n : Nat} {p : OooProcessor}

/-- Operands stay as they are while the instructions they wait for are pending. -/
theorem Operand.mono {q : OooProcessor} {c' i : Nat} {tagged : Bool} {tag : Option RobIndex}
    {value target : UInt32} (operand : Operand ctx prog p c i tagged tag value target)
    (keep : ∀ w, c ≤ w → w < i → (p.rob (slot w)).ready = false →
      c' ≤ w ∧ (q.rob (slot w)).ready = false) :
    Operand ctx prog q c' i tagged tag value target := by
  rcases operand with h | ⟨tagged, w, lo, hi, tag, pending, rd, value⟩
  · exact Or.inl h
  · obtain ⟨lo', pending'⟩ := keep w lo hi pending
    exact Or.inr ⟨tagged, w, lo', hi, tag, pending', rd, value⟩

/-- So do the stations. -/
theorem Holds.mono {q : OooProcessor} {c' n' i : Nat} {rs : ReservationStation}
    (holds : Holds ctx prog p c n rs i) (le : n ≤ n')
    (keep : ∀ w, c ≤ w → w ≤ i → (p.rob (slot w)).ready = false →
      c' ≤ w ∧ (q.rob (slot w)).ready = false)
    (offBus : q.cdb.valid = true → q.cdb.tag ≠ slot i) : Holds ctx prog q c' n' rs i where
  lo := (keep i holds.lo (Nat.le_refl i) holds.pending).1
  hi := Nat.lt_of_lt_of_le holds.hi le
  dest := holds.dest
  op := holds.op
  still := holds.still
  pending := (keep i holds.lo (Nat.le_refl i) holds.pending).2
  offBus := offBus
  first := holds.first.mono fun w lo hi => keep w lo (Nat.le_of_lt hi)
  second := holds.second.mono fun w lo hi => keep w lo (Nat.le_of_lt hi)

/-! ## Operands -/

/-- The last instruction in the buffer that names `r`. -/
theorem last_writer (r : Reg) :
    (∀ i, c ≤ i → i < n → (seqInst prog i).rd = r → r = 0) ∨
      ∃ i, c ≤ i ∧ i < n ∧ (seqInst prog i).rd = r ∧ r ≠ 0 ∧
        ∀ j, i < j → j < n → (seqInst prog j).rd ≠ r := by
  induction n with
  | zero => exact Or.inl fun i _ hi => by omega
  | succ n ih =>
    by_cases here : c ≤ n ∧ (seqInst prog n).rd = r ∧ r ≠ 0
    · exact Or.inr ⟨n, here.1, Nat.lt_succ_self n, here.2.1, here.2.2, fun j lo hi => by omega⟩
    · rcases ih with none | ⟨i, lo, hi, rd, nonzero, last⟩
      · refine Or.inl fun i lo hi rd => ?_
        rcases Nat.lt_or_eq_of_le (Nat.le_of_lt_succ hi) with lt | rfl
        · exact none i lo lt rd
        · by_contra nonzero
          exact here ⟨lo, rd, nonzero⟩
      · refine Or.inr ⟨i, lo, by omega, rd, nonzero, fun j lo' hi' rd' => ?_⟩
        rcases Nat.lt_or_eq_of_le (Nat.le_of_lt_succ hi') with lt | rfl
        · exact last j lo' lt rd'
        · exact here ⟨by omega, rd', nonzero⟩

/-- What `ooo_issue` reads from a fresh register is its value, or the entry that computes it. -/
theorem readOperand_spec (run : SeqRun ctx prog) (inv : OooInv ctx prog c n p) {r : Reg}
    (fresh : FreshSource p r) (old : Option RobIndex) :
    Operand ctx prog p c n (readOperand p r).2.isSome ((readOperand p r).2.getD old)
      (readOperand p r).1 ((seqAt ctx prog n).registers r) := by
  rcases @last_writer prog c n r with none | ⟨w, lo, hi, rd, nonzero, last⟩
  · -- no pending result: the register is right
    obtain ⟨value, ready⟩ := inv.renames.settled r none
    have direct : readOperand p r = (p.registers r, Option.none) := by
      apply if_neg
      rintro ⟨nonzero, h⟩
      exact h (ready nonzero)
    rw [direct]
    exact Or.inl ⟨rfl, value⟩
  · subst rd
    obtain ⟨num, ready⟩ := inv.renames.renamed w lo hi nonzero last
    have target : (seqAt ctx prog n).registers (seqInst prog w).rd =
        (seqAt ctx prog (w + 1)).registers (seqInst prog w).rd :=
      run.registers_of_not_written hi fun i lo' hi' rd' => absurd rd' (last i lo' hi')
    cases done : (p.rob (slot w)).ready with
    | false =>
      have waits : readOperand p (seqInst prog w).rd = (0, some (some (slot w))) := by
        rw [readOperand, if_pos ⟨nonzero, by rw [ready, done]; exact Bool.false_ne_true⟩, num]
      rw [waits, target]
      exact Or.inr ⟨rfl, w, lo, hi, rfl, done, nonzero, rfl⟩
    | true =>
      have direct : readOperand p (seqInst prog w).rd =
          (p.registers (seqInst prog w).rd, Option.none) := by
        apply if_neg
        rintro ⟨-, h⟩
        rw [ready, done] at h
        exact h rfl
      rw [direct, target]
      refine Or.inl ⟨rfl, ?_⟩
      rw [fresh nonzero (by rw [ready, done]) _ num (inv.slots.busy w lo hi)
        (inv.slots.rd w lo hi)]
      exact inv.slots.value w lo hi done nonzero

/-! ## The new entry -/

theorem findFreeRs_eq_some {x : RsIndex} (free : findFreeRs p = some x) : (p.rs x).busy = false := by
  have := List.find?_some free
  simpa using this

theorem oooIssue_eq {inst : Instruction} {x : RsIndex} (op : inst.opcode ≠ .nop)
    (free : findFreeRs p = some x) (room : p.robCount < 32) :
    oooIssue p inst =
      { p with
        rs := Function.update p.rs x (issueRs p (p.rs x) inst p.robTail)
        rob := Function.update p.rob p.robTail (issueRob p inst p.robTail)
        regStatus :=
          if inst.rd ≠ 0 then Function.update p.regStatus inst.rd ⟨some p.robTail, false⟩
          else p.regStatus
        robTail := p.robTail + 1
        robCount := p.robCount + 1
        pc := p.pc + 4
        instIssued := p.instIssued + 1 } := by
  have index : findFreeRob p = some p.robTail := if_neg (by omega)
  simp [oooIssue, op, free, index]

/-- The new entry is none of those in the buffer. -/
theorem Slots.tail_ne (slots : Slots ctx prog c n p) (room : p.robCount < 32) {i : Nat}
    (lo : c ≤ i) (hi : i < n) : slot i ≠ p.robTail := by
  intro same
  rw [slots.tail] at same
  have := slots.count
  have := Cpu.eq_of_slot_eq (c := c) lo slots.le (by omega) (by omega) same
  omega

theorem not_nop (run : SeqRun ctx prog) (lt : n < prog.length) :
    (seqInst prog n).opcode ≠ .nop := by
  intro h
  have := run.supported n lt
  rw [h] at this
  cases this

theorem Slots.issue (run : SeqRun ctx prog) (inv : OooInv ctx prog c n p) (lt : n < prog.length)
    {x : RsIndex} (free : findFreeRs p = some x) (room : p.robCount < 32)
    (safe : SafeIssue ctx prog n p) : Slots ctx prog c (n + 1) (oooIssue p (seqInst prog n)) := by
  have slots := inv.slots
  have le := slots.le
  have count := slots.count
  have nop := not_nop run lt
  have old : ∀ i, c ≤ i → i < n →
      (oooIssue p (seqInst prog n)).rob (slot i) = p.rob (slot i) := by
    intro i lo hi
    rw [oooIssue_eq nop free room]
    exact Function.update_of_ne (slots.tail_ne room lo hi) _ _
  have new : (oooIssue p (seqInst prog n)).rob (slot n) =
      issueRob p (seqInst prog n) p.robTail := by
    rw [oooIssue_eq nop free room, ← slots.tail]
    exact Function.update_self _ _ _
  have oldRs : ∀ y, y ≠ x → (oooIssue p (seqInst prog n)).rs y = p.rs y := by
    intro y ne
    rw [oooIssue_eq nop free room]
    exact Function.update_of_ne ne _ _
  have newRs : (oooIssue p (seqInst prog n)).rs x =
      issueRs p (p.rs x) (seqInst prog n) p.robTail := by
    rw [oooIssue_eq nop free room]
    exact Function.update_self _ _ _
  have cdb : (oooIssue p (seqInst prog n)).cdb = p.cdb := by rw [oooIssue_eq nop free room]
  have split : ∀ {motive : Nat → Prop}, (∀ i, c ≤ i → i < n → motive i) → motive n →
      ∀ i, c ≤ i → i < n + 1 → motive i := by
    intro motive before last i lo hi
    rcases Nat.lt_or_eq_of_le (Nat.le_of_lt_succ hi) with lt | rfl
    · exact before i lo lt
    · exact last
  have busyOld : ∀ y, y ≠ x → ((oooIssue p (seqInst prog n)).rs y).busy = true →
      ∃ i, Holds ctx prog p c n ((oooIssue p (seqInst prog n)).rs y) i := by
    intro y ne busy
    rw [oldRs y ne] at busy ⊢
    exact slots.station y busy
  refine
    { le := by omega
      issued := lt
      count := by rw [oooIssue_eq nop free room]; show p.robCount + 1 = _; omega
      room := by omega
      head := by rw [oooIssue_eq nop free room]; exact slots.head
      tail := by rw [oooIssue_eq nop free room, slot_succ, ← slots.tail]
      busy := split (fun i lo hi => by rw [old i lo hi]; exact slots.busy i lo hi)
        (by rw [new]; rfl)
      rd := split (fun i lo hi => by rw [old i lo hi]; exact slots.rd i lo hi) (by rw [new]; rfl)
      isStore := split (fun i lo hi => by rw [old i lo hi]; exact slots.isStore i lo hi)
        (by rw [new]; rfl)
      value := split (fun i lo hi => by rw [old i lo hi]; exact slots.value i lo hi)
        (by rw [new]; nofun)
      station := ?_
      distinct := ?_
      pending := split (fun i lo hi pending => ?_) (fun _ => Or.inl ⟨x, by rw [newRs]; rfl, ?_⟩)
      bus := ?_ }
  · intro y busy
    by_cases ne : y = x
    · subst ne
      refine ⟨n, ?_⟩
      rw [newRs]
      have keep : ∀ w, c ≤ w → w < n → (p.rob (slot w)).ready = false →
          c ≤ w ∧ ((oooIssue p (seqInst prog n)).rob (slot w)).ready = false := by
        intro w lo hi pending
        exact ⟨lo, by rw [old w lo hi, pending]⟩
      refine ⟨le, Nat.lt_succ_self n, slots.tail, rfl, rfl, by rw [new]; rfl, ?_, ?_, ?_⟩
      · rw [cdb]
        intro valid
        obtain ⟨i, lo, hi, tag, -⟩ := slots.bus valid
        rw [tag, ← slots.tail]
        exact slots.tail_ne room lo hi
      · exact (readOperand_spec run inv safe.first _).mono keep
      · simp only [issueRs, secondOperand]
        cases imm : oooIsImmOp (seqInst prog n).opcode with
        | true => exact Or.inl ⟨rfl, rfl⟩
        | false => exact (readOperand_spec run inv (safe.second imm) _).mono keep
    · obtain ⟨i, holds⟩ := busyOld y ne busy
      refine ⟨i, holds.mono (Nat.le_succ n) (fun w lo hi pending => ⟨lo, ?_⟩) ?_⟩
      · have := holds.hi
        rw [old w lo (by omega), pending]
      · rw [cdb]
        exact holds.offBus
  · -- the new station has the new entry
    have fresh : ∀ y, y ≠ x → ((oooIssue p (seqInst prog n)).rs y).busy = true →
        ((oooIssue p (seqInst prog n)).rs y).dest ≠ p.robTail := by
      intro y ne busy
      obtain ⟨i, holds⟩ := busyOld y ne busy
      rw [holds.dest]
      exact slots.tail_ne room holds.lo holds.hi
    intro y z busyY busyZ same
    by_cases hy : y = x <;> by_cases hz : z = x
    · rw [hy, hz]
    · rw [hy, newRs] at same
      exact absurd same.symm (fresh z hz busyZ)
    · rw [hz, newRs] at same
      exact absurd same (fresh y hy busyY)
    · rw [oldRs y hy] at busyY same
      rw [oldRs z hz] at busyZ same
      exact slots.distinct y z busyY busyZ same
  · rw [old i lo hi] at pending
    rcases slots.pending i lo hi pending with ⟨y, busy, dest⟩ | onBus
    · have ne : y ≠ x := by
        rintro rfl
        rw [findFreeRs_eq_some free] at busy
        cases busy
      exact Or.inl ⟨y, by rw [oldRs y ne]; exact busy, by rw [oldRs y ne]; exact dest⟩
    · rw [cdb]
      exact Or.inr onBus
  · rw [newRs]
    exact slots.tail
  · rw [cdb]
    intro valid
    obtain ⟨i, lo, hi, tag, pending, value⟩ := slots.bus valid
    exact ⟨i, lo, by omega, tag, by rw [old i lo hi]; exact pending, value⟩

theorem Renaming.issue (run : SeqRun ctx prog) (inv : OooInv ctx prog c n p)
    (lt : n < prog.length) {x : RsIndex} (free : findFreeRs p = some x) (room : p.robCount < 32) :
    Renaming ctx prog c (n + 1) (oooIssue p (seqInst prog n)) := by
  have renames := inv.renames
  have le := inv.slots.le
  rw [oooIssue_eq (not_nop run lt) free room]
  -- only the destination gets a new status
  have status : ∀ r, ((seqInst prog n).rd = r → r = 0) →
      (if (seqInst prog n).rd ≠ 0 then
        Function.update p.regStatus (seqInst prog n).rd ⟨some p.robTail, false⟩
        else p.regStatus) r = p.regStatus r := by
    intro r other
    split
    · rename_i nonzero
      apply Function.update_of_ne
      rintro rfl
      exact nonzero (other rfl)
    · rfl
  refine ⟨?_, fun r none => ?_, fun i lo hi nonzero last => ?_⟩
  · simp only
    rw [status 0 fun _ => rfl]
    exact renames.zero
  · have other : (seqInst prog n).rd = r → r = 0 := none n le (Nat.lt_succ_self n)
    obtain ⟨value, ready⟩ := renames.settled r fun i lo hi => none i lo (by omega)
    refine ⟨?_, ?_⟩
    · simp only
      rw [value, run.registers_of_ne other]
    · simp only
      rw [status r other]
      exact ready
  · rcases Nat.lt_or_eq_of_le (Nat.le_of_lt_succ hi) with hi | rfl
    · have other : (seqInst prog n).rd = (seqInst prog i).rd → (seqInst prog i).rd = 0 :=
        fun same => absurd same (last n hi (Nat.lt_succ_self n))
      simp only
      rw [status _ other, Function.update_of_ne (inv.slots.tail_ne room lo hi)]
      exact renames.renamed i lo hi nonzero fun j lo' hi' => last j lo' (by omega)
    · simp only
      rw [if_pos nonzero, Function.update_self, ← inv.slots.tail, Function.update_self]
      exact ⟨rfl, rfl⟩

/-- Memory cells no store covers keep their contents. -/
theorem SeqRun.memory_frame (run : SeqRun ctx prog) (i : Nat) (a : Fin 4096)
    (free : ¬ StoresAt ctx prog i a) :
    (seqAt ctx prog (i + 1)).memory a = (seqAt ctx prog i).memory a := by
  rcases Nat.lt_or_ge i prog.length with lt | le
  · obtain ⟨effect, he, mem, -, -, -⟩ := isaExecute_eq_some (run.running i) (run.exec i lt)
    rw [mem]
    by_cases isStore : (seqInst prog i).opcode = .sw
    · simp only [isaEffect, isStore] at he
      change (if inMemory (accessAddr (seqAt ctx prog i) (seqInst prog i)) = true then _ else _) = _
        at he
      split at he <;> rename_i inRange
      · obtain ⟨memory, store, rfl⟩ := Option.map_eq_some_iff.1 he
        apply storeWord_of_not_covers store
        intro covers
        exact free ⟨isStore, inRange, covers⟩
      · obtain rfl := Option.some.inj he
        rfl
    · rw [isaEffect_memory he isStore]
  · rw [run.beyond i le]

theorem waiting_issue_iff (run : SeqRun ctx prog) (inv : OooInv ctx prog c n p)
    (lt : n < prog.length) {x : RsIndex} (free : findFreeRs p = some x) (room : p.robCount < 32)
    {i : Nat} (hi : i < n) :
    Waiting (oooIssue p (seqInst prog n)) c (n + 1) i ↔ Waiting p c n i := by
  rw [oooIssue_eq (not_nop run lt) free room]
  constructor
  · rintro ⟨lo, -, y, busy, dest⟩
    by_cases ne : y = x
    · subst ne
      simp only [Function.update_self] at dest
      exact absurd dest.symm (inv.slots.tail_ne room lo hi)
    · simp only [Function.update_of_ne ne] at busy dest
      exact ⟨lo, hi, y, busy, dest⟩
  · rintro ⟨lo, -, y, busy, dest⟩
    have ne : y ≠ x := by
      rintro rfl
      rw [findFreeRs_eq_some free] at busy
      cases busy
    refine ⟨lo, by omega, y, ?_, ?_⟩ <;> simp only [Function.update_of_ne ne]
    · exact busy
    · exact dest

theorem MemoryOrder.issue (run : SeqRun ctx prog) (inv : OooInv ctx prog c n p)
    (lt : n < prog.length) {x : RsIndex} (free : findFreeRs p = some x) (room : p.robCount < 32) :
    MemoryOrder ctx prog c (n + 1) (oooIssue p (seqInst prog n)) := by
  have new : Waiting (oooIssue p (seqInst prog n)) c (n + 1) n := by
    rw [oooIssue_eq (not_nop run lt) free room]
    refine ⟨inv.slots.le, Nat.lt_succ_self n, x, ?_, ?_⟩ <;> simp only [Function.update_self]
    · rfl
    · exact inv.slots.tail
  have same : ∀ i, i < n → (Waiting (oooIssue p (seqInst prog n)) c (n + 1) i ↔ Waiting p c n i) :=
    fun i hi => waiting_issue_iff run inv lt free room hi
  have memory : (oooIssue p (seqInst prog n)).memory = p.memory := by
    rw [oooIssue_eq (not_nop run lt) free room]
  constructor
  · rw [memory]
    exact inv.memoryOrder.memory.issue run.memory_frame new same
  · intro j i ji hi waits executed
    rcases Nat.lt_or_eq_of_le (Nat.le_of_lt_succ hi) with hi | rfl
    · apply inv.memoryOrder.order j i ji hi ((same j (by omega)).1 waits)
      intro waits'
      exact executed ((same i hi).2 waits')
    · exact absurd new executed

theorem OooInv.issue (run : SeqRun ctx prog) (inv : OooInv ctx prog c n p)
    (lt : n < prog.length) {x : RsIndex} (free : findFreeRs p = some x) (room : p.robCount < 32)
    (safe : SafeIssue ctx prog n p) : OooInv ctx prog c (n + 1) (oooIssue p (seqInst prog n)) where
  slots := Slots.issue run inv lt free room safe
  renames := Renaming.issue run inv lt free room
  memoryOrder := MemoryOrder.issue run inv lt free room
  stores i hi := by
    rcases Nat.lt_or_eq_of_le (Nat.le_of_lt_succ hi) with hi | rfl
    · exact inv.stores i hi
    · exact safe.store

end MiniHardware.Cpu
