import Mathlib.Data.Finset.Card
import Mathlib.Data.Fintype.Basic
import MiniHardware.Lib.Trace
import MiniHardware.Cpu.OooWriteResult

/-!
# Execution

The oldest instruction in a station has its operands once the bus is free, so
a step always executes one.
-/

namespace MiniHardware.Cpu
open Lib

variable {ctx : IsaContext} {prog : List Instruction} {c n : Nat} {p : OooProcessor}

/-! ## The loop -/

theorem startRs_of_not_starts {rs : ReservationStation} (not : rs.Starts = false) :
    startRs rs = rs := by
  simp [startRs, not]

theorem finishRs_skip {x : RsIndex} (idle : (p.rs x).busy = true → (p.rs x).executing = false) :
    finishRs p x = some p := by
  apply if_pos
  cases busy : (p.rs x).busy with
  | false => exact Or.inl Bool.false_ne_true
  | true => exact Or.inr (by rw [idle busy]; exact Bool.false_ne_true)

/-- What the execution of station `x` leaves. -/
def executed (p : OooProcessor) (x : RsIndex) (value : UInt32) (memory : Memory) : OooProcessor :=
  { p with
    memory := memory
    cdb := ⟨value, (p.rs x).dest, true⟩
    rs := Function.update p.rs x
      { p.rs x with busy := false, executing := false, cyclesLeft := 0 } }

/-- If `x` is the only station that starts, `ooo_execute` executes it. -/
theorem oooExecute_one (still : ∀ y, (p.rs y).busy = true → (p.rs y).executing = false)
    {x : RsIndex} (starts : (p.rs x).Starts = true)
    (single : ∀ y, (p.rs y).Starts = true → y = x) {value : UInt32} {memory : Memory}
    (result : oooResult (p.rs x) p.memory = some (value, memory)) :
    oooExecute p = some (executed p x value memory, true) := by
  have others : ∀ y, y ≠ x → startRs (p.rs y) = p.rs y := by
    intro y ne
    apply startRs_of_not_starts
    cases h : (p.rs y).Starts with
    | false => rfl
    | true => exact absurd (single y h) ne
  have this_one : startRs (p.rs x) = { p.rs x with executing := true, cyclesLeft := 1 } := by
    simp [startRs, starts]
  have busy : (p.rs x).busy = true := by
    simp only [ReservationStation.Starts, Bool.and_eq_true] at starts
    exact starts.1.1
  have loop : (List.finRange 16).foldlM finishRs { p with rs := fun x => startRs (p.rs x) } =
      some (executed p x value memory) := by
    apply foldlM_single (List.mem_finRange x) (List.nodup_finRange 16)
    · intro y _ ne
      apply finishRs_skip
      simp only [others y ne]
      exact still y
    · have last : (1 : UInt32) - 1 = 0 := by decide
      simp only [finishRs, this_one, busy, last, not_true_eq_false, or_self, if_false, ne_eq]
      change Option.map _ (oooResult (p.rs x) p.memory) = _
      rw [result]
      simp only [Option.map_some, executed]
      congr 2
      funext y
      rcases eq_or_ne y x with rfl | ne
      · simp
      · simp [ne, others y ne]
    · intro y _ ne
      apply finishRs_skip
      simp only [executed, Function.update_of_ne ne]
      exact still y
  rw [oooExecute, loop, Option.map_some]
  congr 2
  rw [List.any_eq_true]
  exact ⟨x, List.mem_finRange x, starts⟩

/-- If no station starts, nothing happens. -/
theorem oooExecute_none (still : ∀ y, (p.rs y).busy = true → (p.rs y).executing = false)
    (none : ∀ y, (p.rs y).Starts = false) : oooExecute p = some (p, false) := by
  have started : { p with rs := fun x => startRs (p.rs x) } = p := by
    have : (fun x => startRs (p.rs x)) = p.rs := funext fun x => startRs_of_not_starts (none x)
    rw [this]
  have loop : ∀ l : List RsIndex, l.foldlM finishRs p = some p := by
    intro l
    induction l with
    | nil => rfl
    | cons y l ih =>
      rw [List.foldlM_cons, finishRs_skip (still y)]
      exact ih
  rw [oooExecute, started, loop, Option.map_some]
  congr 2
  rw [List.any_eq_false]
  intro y _
  rw [none y]
  exact Bool.false_ne_true

/-! ## Which station executes -/

theorem Slots.still (slots : Slots ctx prog c n p) (y : RsIndex) (busy : (p.rs y).busy = true) :
    (p.rs y).executing = false := by
  obtain ⟨i, holds⟩ := slots.station y busy
  exact holds.still

/-- With the bus free, some station has its operands: that of the oldest instruction. -/
theorem Slots.starts (slots : Slots ctx prog c n p) (idle : p.cdb.valid = false) {x : RsIndex}
    (busy : (p.rs x).busy = true) : ∃ y, (p.rs y).Starts = true := by
  obtain ⟨i, holds⟩ := slots.station x busy
  induction i using Nat.strongRecOn generalizing x with
  | ind i ih =>
    -- an operand that is missing is in a station as well
    have producer : ∀ {tagged tag value target},
        Operand ctx prog p c i tagged tag value target → tagged = true →
          ∃ y, (p.rs y).Starts = true := by
      intro tagged tag value target operand missing
      rcases operand with ⟨h, -⟩ | ⟨-, w, lo, lt, -, pending, -, -⟩
      · rw [h] at missing
        cases missing
      · have hi := holds.hi
        rcases slots.pending w lo (by omega) pending with ⟨y, busyY, dest⟩ | ⟨valid, -⟩
        · obtain ⟨w', holdsY⟩ := slots.station y busyY
          obtain rfl : w' = w := slots.eq_of_slot_eq holdsY.lo holdsY.hi lo (by omega)
            (holdsY.dest.symm.trans dest)
          exact ih w' lt busyY holdsY
        · rw [idle] at valid
          cases valid
    cases j : (p.rs x).qjValid with
    | true => exact producer holds.first j
    | false =>
      cases k : (p.rs x).qkValid with
      | true => exact producer holds.second k
      | false => exact ⟨x, by simp [ReservationStation.Starts, busy, holds.still, j, k]⟩

/-! ## What it leaves -/

theorem Conflict.of_covers {i j : Nat} {a : Fin 4096} (hi : Accesses ctx prog i)
    (hj : Accesses ctx prog j)
    (store : (seqInst prog i).opcode = .sw ∨ (seqInst prog j).opcode = .sw)
    (ci : Covers (accessAddr (seqAt ctx prog i) (seqInst prog i)) a)
    (cj : Covers (accessAddr (seqAt ctx prog j) (seqInst prog j)) a) : Conflict ctx prog i j := by
  unfold Covers at ci cj
  exact ⟨hi, hj, store, by omega, by omega⟩

theorem StoresAt.accesses {i : Nat} {a : Fin 4096} (stores : StoresAt ctx prog i a) :
    Accesses ctx prog i := ⟨Or.inr stores.1, stores.2.1⟩

theorem waiting_of_holds {x : RsIndex} {i : Nat} (busy : (p.rs x).busy = true)
    (holds : Holds ctx prog p c n (p.rs x) i) : Waiting p c n i :=
  ⟨holds.lo, holds.hi, x, busy, holds.dest⟩

theorem waiting_executed_iff (slots : Slots ctx prog c n p) {x : RsIndex} {i : Nat}
    (busy : (p.rs x).busy = true) (holds : Holds ctx prog p c n (p.rs x) i) (value : UInt32)
    (memory : Memory) (k : Nat) :
    Waiting (executed p x value memory) c n k ↔ Waiting p c n k ∧ k ≠ i := by
  constructor
  · rintro ⟨lo, hi, y, busyY, dest⟩
    have ne : y ≠ x := by
      rintro rfl
      simp only [executed, Function.update_self] at busyY
      cases busyY
    simp only [executed, Function.update_of_ne ne] at busyY dest
    refine ⟨⟨lo, hi, y, busyY, dest⟩, ?_⟩
    rintro rfl
    exact ne (slots.distinct y x busyY busy (dest.trans holds.dest.symm))
  · rintro ⟨⟨lo, hi, y, busyY, dest⟩, other⟩
    have ne : y ≠ x := by
      rintro rfl
      exact other (slots.eq_of_slot_eq lo hi holds.lo holds.hi (dest.symm.trans holds.dest))
    refine ⟨lo, hi, y, ?_, ?_⟩ <;> simp only [executed, Function.update_of_ne ne]
    · exact busyY
    · exact dest

theorem Slots.execute (slots : Slots ctx prog c n p) (idle : p.cdb.valid = false) {x : RsIndex}
    {i : Nat} {value : UInt32} {memory : Memory} (busy : (p.rs x).busy = true)
    (holds : Holds ctx prog p c n (p.rs x) i)
    (result : (seqInst prog i).rd ≠ 0 →
      value = (seqAt ctx prog (i + 1)).registers (seqInst prog i).rd) :
    Slots ctx prog c n (executed p x value memory) := by
  have others : ∀ y, ((executed p x value memory).rs y).busy = true →
      y ≠ x ∧ (executed p x value memory).rs y = p.rs y := by
    intro y busyY
    have ne : y ≠ x := by
      rintro rfl
      simp only [executed, Function.update_self] at busyY
      cases busyY
    exact ⟨ne, Function.update_of_ne ne _ _⟩
  refine
    { le := slots.le
      issued := slots.issued
      count := slots.count
      room := slots.room
      head := slots.head
      tail := slots.tail
      busy := slots.busy
      rd := slots.rd
      isStore := slots.isStore
      value := slots.value
      station := fun y busyY => ?_
      distinct := fun y z busyY busyZ => ?_
      pending := fun k lo hi pending => ?_
      bus := fun _ => ⟨i, holds.lo, holds.hi, holds.dest, holds.pending, result⟩ }
  · obtain ⟨ne, same⟩ := others y busyY
    rw [same] at busyY ⊢
    obtain ⟨k, holdsY⟩ := slots.station y busyY
    refine ⟨k, holdsY.mono (Nat.le_refl n) (fun w lo _ pending => ⟨lo, pending⟩) fun _ tag => ?_⟩
    exact ne (slots.distinct y x busyY busy (holdsY.dest.trans tag.symm))
  · obtain ⟨-, sameY⟩ := others y busyY
    obtain ⟨-, sameZ⟩ := others z busyZ
    rw [sameY] at busyY ⊢
    rw [sameZ] at busyZ ⊢
    exact slots.distinct y z busyY busyZ
  · rcases slots.pending k lo hi pending with ⟨y, busyY, dest⟩ | ⟨valid, -⟩
    · by_cases ne : y = x
      · subst ne
        exact Or.inr ⟨rfl, dest⟩
      · have same : (executed p x value memory).rs y = p.rs y := Function.update_of_ne ne _ _
        exact Or.inl ⟨y, by rw [same]; exact busyY, by rw [same]; exact dest⟩
    · rw [idle] at valid
      cases valid

/-- A station with its operands executes as the interpreter does, and the invariant is kept. -/
theorem OooInv.execute (run : SeqRun ctx prog) (inv : OooInv ctx prog c n p)
    (idle : p.cdb.valid = false) {x : RsIndex} (starts : (p.rs x).Starts = true)
    (order : ∀ y, (p.rs y).busy = true → indexOf p n (p.rs y).dest < indexOf p n (p.rs x).dest →
      ¬ Conflict ctx prog (indexOf p n (p.rs y).dest) (indexOf p n (p.rs x).dest)) :
    ∃ value memory, oooResult (p.rs x) p.memory = some (value, memory) ∧
      OooInv ctx prog c n (executed p x value memory) := by
  have slots := inv.slots
  simp only [ReservationStation.Starts, Bool.and_eq_true, Bool.not_eq_true', Bool.or_eq_false_iff]
    at starts
  obtain ⟨⟨busy, -⟩, hasJ, hasK⟩ := starts
  obtain ⟨i, holds⟩ := slots.station x busy
  have lt : i < prog.length := Nat.lt_of_lt_of_le holds.hi slots.issued
  have vj : (p.rs x).vj = (seqAt ctx prog i).registers (seqInst prog i).rs1 := by
    rcases holds.first with ⟨-, h⟩ | ⟨h, -⟩
    · exact h
    · rw [hasJ] at h
      cases h
  have vk : (p.rs x).vk = secondOperand ctx prog i := by
    rcases holds.second with ⟨-, h⟩ | ⟨h, -⟩
    · exact h
    · rw [hasK] at h
      cases h
  have waits := waiting_of_holds busy holds
  -- no conflicting operation is pending before `i` or executed behind it
  have before : ∀ j, j < i → Waiting p c n j → ¬ Conflict ctx prog j i := by
    rintro j ji ⟨lo, hi, y, busyY, dest⟩
    have := order y busyY
    rw [dest, holds.dest, slots.index lo hi, slots.index holds.lo holds.hi] at this
    exact this ji
  have behind : ∀ k, i < k → k < n → ¬ Waiting p c n k → ¬ Conflict ctx prog i k :=
    fun k ik hk executed => inv.memoryOrder.order i k ik hk waits executed
  obtain ⟨value, memory, result, written, stored, kept⟩ :=
    oooResult_eq (m := p.memory) (run.running i) (run.exec i lt) (run.supported i lt) holds.op vj vk
      (by
        intro isLoad inRange
        apply loadWord_congr
        intro a covers
        apply inv.memoryOrder.memory i a (Nat.le_of_lt holds.hi)
        · intro j ji waitsJ stores
          exact before j ji waitsJ
            (.of_covers stores.accesses ⟨Or.inl isLoad, inRange⟩ (Or.inl stores.1) stores.2.2 covers)
        · intro k le hk executed stores
          rcases Nat.lt_or_eq_of_le le with ik | rfl
          · exact behind k ik hk executed
              (.of_covers ⟨Or.inl isLoad, inRange⟩ stores.accesses (Or.inr stores.1) covers
                stores.2.2)
          · exact executed waits)
      (fun isStore => (inv.stores i holds.hi isStore).2)
  refine ⟨value, memory, result, ?_⟩
  have fewer := waiting_executed_iff slots busy holds value memory
  refine ⟨slots.execute idle busy holds ?_, ?_, ⟨?_, ?_⟩, inv.stores⟩
  · intro nonzero
    apply written _ nonzero
    intro isStore
    exact nonzero (inv.stores i holds.hi isStore).1
  · exact ⟨inv.renames.zero, inv.renames.settled, inv.renames.renamed⟩
  · apply inv.memoryOrder.memory.execute run.memory_frame holds.hi fewer
    · intro a stores
      obtain ⟨here, there⟩ := stored ⟨stores.1, stores.2.1⟩
      exact storeWord_covers here there stores.2.2
    · intro a free
      by_cases store : (seqInst prog i).opcode = .sw ∧
          inMemory (accessAddr (seqAt ctx prog i) (seqInst prog i)) = true
      · apply storeWord_of_not_covers (stored store).1
        intro covers
        exact free ⟨store.1, store.2, covers⟩
      · exact congrFun (kept store).1 a
    · intro k a ik hk executed storesI storesK
      exact behind k ik hk executed
        (.of_covers storesI.accesses storesK.accesses (Or.inl storesI.1) storesI.2.2 storesK.2.2)
  · intro j k jk hk waitsJ executed
    obtain ⟨waitsJ, -⟩ := (fewer j).1 waitsJ
    by_cases here : k = i
    · subst here
      exact before j jk waitsJ
    · apply inv.memoryOrder.order j k jk hk waitsJ
      intro waitsK
      exact executed ((fewer k).2 ⟨waitsK, here⟩)

end MiniHardware.Cpu
