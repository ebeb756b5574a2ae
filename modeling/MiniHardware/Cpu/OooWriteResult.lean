import MiniHardware.Cpu.OooIssue

/-!
# Write-back

The result on the bus goes to the buffer, to the registers named after its
entry and to the stations that wait for it.
-/

namespace MiniHardware.Cpu
open Lib

variable {ctx : IsaContext} {prog : List Instruction} {c n : Nat} {p : OooProcessor}

/-- Without a broadcast nothing happens. -/
theorem oooWriteResult_idle (idle : p.cdb.valid = false) : oooWriteResult p = p := by
  simp [oooWriteResult, idle]

/-- A broadcast, written out: the entry, the registers and the stations that wait for its tag, and the bus emptied. -/
theorem oooWriteResult_valid (valid : p.cdb.valid = true) :
    oooWriteResult p =
      { p with
        rob := Function.update p.rob p.cdb.tag
          { p.rob p.cdb.tag with value := p.cdb.value, ready := true }
        regStatus := fun r =>
          if (p.regStatus r).robNum = some p.cdb.tag then { p.regStatus r with ready := true }
          else p.regStatus r
        registers := fun r =>
          if (p.regStatus r).robNum = some p.cdb.tag then p.cdb.value else p.registers r
        rs := fun x => (p.rs x).receive p.cdb.tag p.cdb.value
        cdb := { p.cdb with valid := false } } := by
  simp [oooWriteResult, valid]

/-- A station stays busy when it receives. -/
@[simp] theorem ReservationStation.receive_busy (rs : ReservationStation) (tag : RobIndex)
    (value : UInt32) : (rs.receive tag value).busy = rs.busy := rfl

/-- A station keeps the entry it is for when it receives. -/
@[simp] theorem ReservationStation.receive_dest (rs : ReservationStation) (tag : RobIndex)
    (value : UInt32) : (rs.receive tag value).dest = rs.dest := rfl

/-- The bus is empty afterwards. -/
theorem oooWriteResult_cdb : (oooWriteResult p).cdb.valid = false := by
  cases valid : p.cdb.valid with
  | false => rw [oooWriteResult_idle valid, valid]
  | true => rw [oooWriteResult_valid valid]

/-- A broadcast fills stations and does not empty them. -/
theorem oooWriteResult_rs (x : RsIndex) :
    ((oooWriteResult p).rs x).busy = (p.rs x).busy ∧
      ((oooWriteResult p).rs x).dest = (p.rs x).dest := by
  cases valid : p.cdb.valid with
  | false => rw [oooWriteResult_idle valid]; exact ⟨rfl, rfl⟩
  | true => rw [oooWriteResult_valid valid]; exact ⟨rfl, rfl⟩

/-- The window of the buffer stays. -/
theorem oooWriteResult_head :
    (oooWriteResult p).robHead = p.robHead ∧ (oooWriteResult p).robCount = p.robCount := by
  cases valid : p.cdb.valid with
  | false => rw [oooWriteResult_idle valid]; exact ⟨rfl, rfl⟩
  | true => rw [oooWriteResult_valid valid]; exact ⟨rfl, rfl⟩

/-- An operand receives the result of the instruction it waits for. -/
theorem Operand.receive (slots : Slots ctx prog c n p) (valid : p.cdb.valid = true) {i : Nat}
    (hi : i < n) {tagged : Bool} {tag : Option RobIndex} {value target : UInt32}
    (operand : Operand ctx prog p c i tagged tag value target) :
    Operand ctx prog (oooWriteResult p) c i
      (if tagged && decide (tag = some p.cdb.tag) then false else tagged) tag
      (if tagged && decide (tag = some p.cdb.tag) then p.cdb.value else value) target := by
  rcases operand with ⟨rfl, h⟩ | ⟨rfl, w, lo, lt, rfl, pending, rd, h⟩
  · exact Or.inl ⟨rfl, h⟩
  · obtain ⟨b, lob, hib, tag, -, result⟩ := slots.bus valid
    by_cases same : slot w = p.cdb.tag
    · obtain rfl : w = b := slots.eq_of_slot_eq lo (by omega) lob hib (same.trans tag)
      refine Or.inl ?_
      simp only [same, decide_true, Bool.and_true, if_true]
      exact ⟨trivial, by rw [result rd, h]⟩
    · refine Or.inr ?_
      simp only [Option.some.injEq, same, decide_false, Bool.and_false]
      refine ⟨rfl, w, lo, lt, rfl, ?_, rd, h⟩
      rw [oooWriteResult_valid valid]
      simp only [Function.update_of_ne same]
      exact pending

/-- The buffer, the stations and the bus still hold the instructions from `c` to `n` after a broadcast. -/
theorem Slots.writeResult (slots : Slots ctx prog c n p) :
    Slots ctx prog c n (oooWriteResult p) := by
  cases valid : p.cdb.valid with
  | false => rw [oooWriteResult_idle valid]; exact slots
  | true =>
    obtain ⟨b, lob, hib, tag, pendingB, result⟩ := slots.bus valid
    have other : ∀ i, c ≤ i → i < n → i ≠ b →
        (oooWriteResult p).rob (slot i) = p.rob (slot i) := by
      intro i lo hi ne
      rw [oooWriteResult_valid valid]
      apply Function.update_of_ne
      rw [tag]
      exact fun same => ne (slots.eq_of_slot_eq lo hi lob hib same)
    have bus : (oooWriteResult p).rob (slot b) =
        { p.rob (slot b) with value := p.cdb.value, ready := true } := by
      rw [oooWriteResult_valid valid, tag]
      exact Function.update_self _ _ _
    have idle := oooWriteResult_cdb (p := p)
    have rs : ∀ x, (oooWriteResult p).rs x = (p.rs x).receive p.cdb.tag p.cdb.value := by
      intro x
      rw [oooWriteResult_valid valid]
    refine
      { le := slots.le
        issued := slots.issued
        count := by rw [oooWriteResult_valid valid]; exact slots.count
        room := slots.room
        head := by rw [oooWriteResult_valid valid]; exact slots.head
        tail := by rw [oooWriteResult_valid valid]; exact slots.tail
        busy := fun i lo hi => ?_
        rd := fun i lo hi => ?_
        isStore := fun i lo hi => ?_
        value := fun i lo hi => ?_
        station := fun x busy => ?_
        distinct := fun x y => ?_
        pending := fun i lo hi => ?_
        bus := fun h => by rw [idle] at h; cases h }
    · by_cases ne : i = b
      · subst ne; rw [bus]; exact slots.busy i lo hi
      · rw [other i lo hi ne]; exact slots.busy i lo hi
    · by_cases ne : i = b
      · subst ne; rw [bus]; exact slots.rd i lo hi
      · rw [other i lo hi ne]; exact slots.rd i lo hi
    · by_cases ne : i = b
      · subst ne; rw [bus]; exact slots.isStore i lo hi
      · rw [other i lo hi ne]; exact slots.isStore i lo hi
    · by_cases ne : i = b
      · subst ne; rw [bus]; exact fun _ => result
      · rw [other i lo hi ne]; exact slots.value i lo hi
    · rw [rs] at busy ⊢
      obtain ⟨i, holds⟩ := slots.station x busy
      have ne : i ≠ b := fun same => holds.offBus valid (by rw [tag, same])
      have busy : (p.rs x).busy = true := busy
      refine ⟨i, holds.lo, holds.hi, holds.dest, holds.op, holds.still, ?_, ?_, ?_, ?_⟩
      · rw [other i holds.lo holds.hi ne]
        exact holds.pending
      · intro h
        rw [idle] at h
        cases h
      · have := holds.first.receive slots valid holds.hi
        simpa [ReservationStation.receive, busy] using this
      · have := holds.second.receive slots valid holds.hi
        simpa [ReservationStation.receive, busy] using this
    · rw [rs, rs]
      exact slots.distinct x y
    · intro pending
      have ne : i ≠ b := by
        rintro rfl
        rw [bus] at pending
        cases pending
      rw [other i lo hi ne] at pending
      rcases slots.pending i lo hi pending with ⟨x, busy, dest⟩ | ⟨-, same⟩
      · exact Or.inl ⟨x, by rw [rs]; exact busy, by rw [rs]; exact dest⟩
      · exact absurd (slots.eq_of_slot_eq lo hi lob hib (same.symm.trans tag)) ne

/-- The registers are still named after their last writers, given that a register named after the tag on the
bus but not its target already has the value. -/
theorem Renaming.writeResult (slots : Slots ctx prog c n p) (renames : Renaming ctx prog c n p)
    (broadcast : p.cdb.valid = true → ∀ r, (p.regStatus r).robNum = some p.cdb.tag →
      r ≠ (p.rob p.cdb.tag).rd → p.registers r = p.cdb.value) :
    Renaming ctx prog c n (oooWriteResult p) := by
  cases valid : p.cdb.valid with
  | false => rw [oooWriteResult_idle valid]; exact renames
  | true =>
    obtain ⟨b, lob, hib, tag, -, -⟩ := slots.bus valid
    rw [oooWriteResult_valid valid]
    refine ⟨?_, fun r none => ?_, fun i lo hi nonzero last => ?_⟩
    · simp only
      rw [renames.zero, if_neg (by simp)]
      exact renames.zero
    · obtain ⟨value, ready⟩ := renames.settled r none
      simp only
      split
      · rename_i num
        refine ⟨?_, fun _ => rfl⟩
        rw [← value]
        symm
        apply broadcast valid r num
        -- the result on the bus names a register that is pending
        rintro same
        rw [tag, slots.rd b lob hib] at same
        obtain rfl := none b lob hib same.symm
        rw [renames.zero] at num
        cases num
      · exact ⟨value, ready⟩
    · obtain ⟨num, ready⟩ := renames.renamed i lo hi nonzero last
      simp only
      rw [num]
      by_cases same : slot i = p.cdb.tag
      · rw [same, if_pos rfl, Function.update_self]
        exact ⟨rfl, rfl⟩
      · rw [if_neg (by simpa using same), Function.update_of_ne same]
        exact ⟨num, ready⟩

/-- An instruction waits in a station after a broadcast if it did before. -/
theorem waiting_writeResult_iff {i : Nat} : Waiting (oooWriteResult p) c n i ↔ Waiting p c n i := by
  simp only [Waiting, oooWriteResult_rs]

/-- The invariant is kept by a broadcast. -/
theorem OooInv.writeResult (inv : OooInv ctx prog c n p)
    (broadcast : p.cdb.valid = true → ∀ r, (p.regStatus r).robNum = some p.cdb.tag →
      r ≠ (p.rob p.cdb.tag).rd → p.registers r = p.cdb.value) :
    OooInv ctx prog c n (oooWriteResult p) where
  slots := inv.slots.writeResult
  renames := inv.renames.writeResult inv.slots broadcast
  memoryOrder := by
    have memory : (oooWriteResult p).memory = p.memory := by
      cases valid : p.cdb.valid with
      | false => rw [oooWriteResult_idle valid]
      | true => rw [oooWriteResult_valid valid]
    constructor
    · rw [memory]
      exact inv.memoryOrder.memory.congr fun i _ => waiting_writeResult_iff
    · intro j i ji hi waits executed
      apply inv.memoryOrder.order j i ji hi (waiting_writeResult_iff.1 waits)
      intro waits'
      exact executed (waiting_writeResult_iff.2 waits')
  stores := inv.stores

end MiniHardware.Cpu
