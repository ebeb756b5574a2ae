import MiniHardware.Cpu.OooExecute

/-!
# Commit and the whole step
-/

namespace MiniHardware.Cpu
open Lib

variable {ctx : IsaContext} {prog : List Instruction} {c n : Nat} {p : OooProcessor}

/-! ## Commit -/

theorem Slots.commitHead (slots : Slots ctx prog c n p) (lt : c < n)
    (ready : (p.rob p.robHead).ready = true) : Slots ctx prog (c + 1) n (commitHead p) := by
  rw [slots.head] at ready
  have others : ∀ i, c + 1 ≤ i → i < n → (Cpu.commitHead p).rob (slot i) = p.rob (slot i) := by
    intro i lo hi
    simp only [Cpu.commitHead, slots.head]
    apply Function.update_of_ne
    intro same
    have := slots.eq_of_slot_eq (by omega) hi (Nat.le_refl c) lt same
    omega
  -- a pending instruction is not the one at the head
  have above : ∀ w, c ≤ w → (p.rob (slot w)).ready = false → c + 1 ≤ w := by
    intro w lo pending
    rcases Nat.lt_or_eq_of_le lo with h | rfl
    · exact h
    · rw [ready] at pending
      cases pending
  have count := slots.count
  have room := slots.room
  refine
    { le := lt
      issued := slots.issued
      count := by show p.robCount - 1 = _; omega
      room := by omega
      head := by show p.robHead + 1 = _; rw [slot_succ, slots.head]
      tail := slots.tail
      busy := fun i lo hi => by rw [others i lo hi]; exact slots.busy i (by omega) hi
      rd := fun i lo hi => by rw [others i lo hi]; exact slots.rd i (by omega) hi
      isStore := fun i lo hi => by rw [others i lo hi]; exact slots.isStore i (by omega) hi
      value := fun i lo hi => by rw [others i lo hi]; exact slots.value i (by omega) hi
      station := fun x busy => ?_
      distinct := slots.distinct
      pending := fun i lo hi => by rw [others i lo hi]; exact slots.pending i (by omega) hi
      bus := fun valid => ?_ }
  · obtain ⟨i, holds⟩ := slots.station x busy
    refine ⟨i, holds.mono (Nat.le_refl n) (fun w lo hi pending => ?_) holds.offBus⟩
    have hi' := holds.hi
    exact ⟨above w lo pending, by rw [others w (above w lo pending) (by omega), pending]⟩
  · obtain ⟨b, lo, hi, tag, pending, result⟩ := slots.bus valid
    exact ⟨b, above b lo pending, hi, tag, by rw [others b (above b lo pending) hi, pending], result⟩

theorem Renaming.commitHead (run : SeqRun ctx prog) (inv : OooInv ctx prog c n p) (lt : c < n)
    (ready : (p.rob p.robHead).ready = true) : Renaming ctx prog (c + 1) n (commitHead p) := by
  have slots := inv.slots
  have renames := inv.renames
  rw [slots.head] at ready
  have rd := slots.rd c (Nat.le_refl c) lt
  refine ⟨renames.zero, fun r none => ?_, fun i lo hi nonzero last => ?_⟩
  · by_cases here : (seqInst prog c).rd = r ∧ r ≠ 0
    · -- the result of the last instruction that names `r`
      obtain ⟨rfl, nonzero⟩ := here
      have last : ∀ j, c < j → j < n → (seqInst prog j).rd ≠ (seqInst prog c).rd :=
        fun j lo hi same => nonzero (none j lo hi same)
      obtain ⟨-, status⟩ := renames.renamed c (Nat.le_refl c) lt nonzero last
      refine ⟨?_, fun _ => by rw [← ready, ← status]; rfl⟩
      have noStore : (p.rob (slot c)).isStore = false := by
        rw [slots.isStore c (Nat.le_refl c) lt, decide_eq_false_iff_not]
        intro isStore
        exact nonzero (inv.stores c lt isStore).1
      simp only [Cpu.commitHead, slots.head, rd, noStore]
      rw [if_pos ⟨nonzero, Bool.false_ne_true⟩, Function.update_self,
        slots.value c (Nat.le_refl c) lt ready nonzero]
      symm
      exact run.registers_of_not_written lt fun i lo hi same => absurd same (last i lo hi)
    · have none' : ∀ i, c ≤ i → i < n → (seqInst prog i).rd = r → r = 0 := by
        intro i lo hi same
        rcases Nat.lt_or_eq_of_le lo with h | rfl
        · exact none i h hi same
        · by_contra nonzero
          exact here ⟨same, nonzero⟩
      obtain ⟨value, status⟩ := renames.settled r none'
      refine ⟨?_, status⟩
      rw [← value]
      simp only [Cpu.commitHead, slots.head, rd]
      split
      · rename_i writes
        apply Function.update_of_ne
        rintro rfl
        exact here ⟨rfl, writes.1⟩
      · rfl
  · obtain ⟨num, status⟩ := renames.renamed i (by omega) hi nonzero last
    refine ⟨num, ?_⟩
    simp only [Cpu.commitHead, slots.head]
    rw [Function.update_of_ne]
    · exact status
    · intro same
      have := slots.eq_of_slot_eq (by omega) hi (Nat.le_refl c) lt same
      omega

theorem OooInv.commitHead (run : SeqRun ctx prog) (inv : OooInv ctx prog c n p) (lt : c < n)
    (ready : (p.rob p.robHead).ready = true) : OooInv ctx prog (c + 1) n (commitHead p) := by
  have slots := inv.slots
  have same : ∀ i, Waiting (Cpu.commitHead p) (c + 1) n i ↔ Waiting p c n i := by
    intro i
    constructor
    · rintro ⟨lo, hi, h⟩
      exact ⟨by omega, hi, h⟩
    · rintro ⟨lo, hi, x, busy, dest⟩
      obtain ⟨i', holds⟩ := slots.station x busy
      obtain rfl : i' = i :=
        slots.eq_of_slot_eq holds.lo holds.hi lo hi (holds.dest.symm.trans dest)
      refine ⟨?_, hi, x, busy, dest⟩
      rcases Nat.lt_or_eq_of_le lo with h | rfl
      · exact h
      · have := holds.pending
        rw [← slots.head, ready] at this
        cases this
  refine ⟨slots.commitHead lt ready, Renaming.commitHead run inv lt ready, ⟨?_, ?_⟩, inv.stores⟩
  · exact inv.memoryOrder.memory.congr fun i _ => same i
  · intro j i ji hi waits executed
    apply inv.memoryOrder.order j i ji hi ((same j).1 waits)
    intro waits'
    exact executed ((same i).2 waits')

/-- The loop of `ooo_commit` keeps the invariant, and if everything is ready it empties the
buffer. -/
theorem OooInv.commitLoop (run : SeqRun ctx prog) (inv : OooInv ctx prog c n p) (rounds : Nat) :
    ∃ c', OooInv ctx prog c' n (commitLoop rounds p) ∧ (commitLoop rounds p).rs = p.rs ∧
      ((∀ i, c ≤ i → i < n → (p.rob (slot i)).ready = true) → n - c ≤ rounds → c' = n) := by
  induction rounds generalizing c p with
  | zero =>
    have le := inv.slots.le
    exact ⟨c, inv, rfl, fun _ _ => by omega⟩
  | succ rounds ih =>
    have slots := inv.slots
    have le := slots.le
    have count := slots.count
    rw [Cpu.commitLoop]
    split
    · rename_i more
      have lt : c < n := by omega
      obtain ⟨c', inv', rs, all⟩ := ih (inv.commitHead run lt more.2.2)
      refine ⟨c', inv', rs, fun ready enough => all (fun i lo hi => ?_) (by omega)⟩
      have other : slot i ≠ slot c := by
        intro same
        have := slots.eq_of_slot_eq (by omega) hi (Nat.le_refl c) lt same
        omega
      simp only [Cpu.commitHead, slots.head]
      rw [Function.update_of_ne other]
      exact ready i (by omega) hi
    · rename_i stops
      refine ⟨c, inv, rfl, fun ready enough => ?_⟩
      by_contra ne
      have lt : c < n := by omega
      apply stops
      rw [slots.head]
      exact ⟨by omega, slots.busy c (Nat.le_refl c) lt, ready c (Nat.le_refl c) lt⟩

/-! ## The step -/

/-- The stations that hold an instruction. -/
def busyCount (p : OooProcessor) : Nat := (Finset.univ.filter fun x => (p.rs x).busy = true).card

theorem busyCount_executed {x : RsIndex} {value : UInt32} {memory : Memory}
    (busy : (p.rs x).busy = true) : busyCount (executed p x value memory) < busyCount p := by
  apply Finset.card_lt_card
  refine ⟨fun y => ?_, fun sub => ?_⟩
  · simp only [Finset.mem_filter, Finset.mem_univ, true_and]
    intro busyY
    have ne : y ≠ x := by
      rintro rfl
      simp only [executed, Function.update_self] at busyY
      cases busyY
    simpa only [executed, Function.update_of_ne ne] using busyY
  · have := (Finset.mem_filter.1 (sub (Finset.mem_filter.2 ⟨Finset.mem_univ x, busy⟩))).2
    simp [executed] at this

theorem busyCount_congr {q : OooProcessor} (same : ∀ x, (q.rs x).busy = (p.rs x).busy) :
    busyCount q = busyCount p := by
  simp only [busyCount, same]

theorem busyCount_eq_zero_iff : busyCount p = 0 ↔ ∀ x, (p.rs x).busy = false := by
  simp [busyCount, Finset.filter_eq_empty_iff]

theorem oooStep_eq {q : OooProcessor} {any : Bool}
    (exec : oooExecute (oooWriteResult p) = some (q, any)) :
    oooStep p = some { oooCommit q with cycles := (oooCommit q).cycles + 1 } := by
  rw [oooStep, exec]
  rfl

/-- The invariant does not mention the cycle counter. -/
theorem OooInv.setCycles (inv : OooInv ctx prog c n p) (cycles : UInt32) :
    OooInv ctx prog c n { p with cycles := cycles } := by
  obtain ⟨slots, renames, memoryOrder, stores⟩ := inv
  refine ⟨{ slots with station := fun x busy => ?_ }, { renames with }, { memoryOrder with }, stores⟩
  obtain ⟨i, holds⟩ := slots.station x busy
  exact ⟨i, holds.mono (Nat.le_refl n) (fun w lo _ pending => ⟨lo, pending⟩) holds.offBus⟩

/-- A step that meets its conditions keeps the invariant. It takes an instruction out of the
stations, or out of an otherwise idle processor all of them. -/
theorem OooInv.step (run : SeqRun ctx prog) (inv : OooInv ctx prog c n p)
    (safe : SafeStep ctx prog n p) :
    ∃ q c', oooStep p = some q ∧ OooInv ctx prog c' n q ∧
      (busyCount q < busyCount p ∨ busyCount q = 0 ∧ c' = n) := by
  have inv1 := inv.writeResult safe.broadcast
  have idle := oooWriteResult_cdb (p := p)
  have count : busyCount (oooWriteResult p) = busyCount p :=
    busyCount_congr fun x => (oooWriteResult_rs x).1
  have index : ∀ d, indexOf (oooWriteResult p) n d = indexOf p n d := by
    intro d
    simp only [indexOf, oooWriteResult_head]
  by_cases some_busy : ∃ x, ((oooWriteResult p).rs x).busy = true
  · obtain ⟨x, busy⟩ := some_busy
    obtain ⟨y, starts⟩ := inv1.slots.starts idle busy
    have busyY : ((oooWriteResult p).rs y).busy = true := by
      simp only [ReservationStation.Starts, Bool.and_eq_true] at starts
      exact starts.1.1
    obtain ⟨value, memory, result, inv2⟩ := inv1.execute run idle starts (by
      intro z busyZ
      rw [index, index, (oooWriteResult_rs z).2, (oooWriteResult_rs y).2]
      exact safe.order y z starts ((oooWriteResult_rs z).1 ▸ busyZ))
    have exec := oooExecute_one inv1.slots.still starts (fun z h => safe.single z y h starts) result
    obtain ⟨c', inv3, rs, -⟩ := inv2.commitLoop run (executed (oooWriteResult p) y value memory).robCount
    refine ⟨_, c', oooStep_eq exec, inv3.setCycles _, Or.inl ?_⟩
    rw [← count]
    have kept : ∀ x, ((oooCommit (executed (oooWriteResult p) y value memory)).rs x).busy =
        ((executed (oooWriteResult p) y value memory).rs x).busy :=
      fun x => congrArg ReservationStation.busy (congrFun rs x)
    exact Nat.lt_of_le_of_lt (Nat.le_of_eq (busyCount_congr kept)) (busyCount_executed busyY)
  · have none : ∀ x, ((oooWriteResult p).rs x).busy = false := by
      intro x
      rw [← Bool.not_eq_true]
      exact fun busy => some_busy ⟨x, busy⟩
    have exec := oooExecute_none inv1.slots.still fun x => by
      simp [ReservationStation.Starts, none x]
    have ready : ∀ i, c ≤ i → i < n → ((oooWriteResult p).rob (slot i)).ready = true := by
      intro i lo hi
      cases h : ((oooWriteResult p).rob (slot i)).ready with
      | true => rfl
      | false =>
        rcases inv1.slots.pending i lo hi h with ⟨x, busy, -⟩ | ⟨valid, -⟩
        · exact absurd ⟨x, busy⟩ some_busy
        · rw [idle] at valid
          cases valid
    obtain ⟨c', inv2, rs, all⟩ := inv1.commitLoop run (oooWriteResult p).robCount
    refine ⟨_, c', oooStep_eq exec, inv2.setCycles _,
      Or.inr ⟨?_, all ready (Nat.le_of_eq inv1.slots.count.symm)⟩⟩
    rw [busyCount_eq_zero_iff]
    intro x
    exact (congrArg ReservationStation.busy (congrFun rs x)).trans (none x)

end MiniHardware.Cpu
