import Mathlib.Data.Fintype.Card
import MiniHardware.Lib.Trace
import MiniHardware.Cpu.OooProgram
import MiniHardware.Cpu.Superscalar

/-!
# Program order in the superscalar core

A register's mapping outlives its writer, an instruction waits for a register
that it or a later one of its group writes, a store with a destination writes a
register, and entries are not retired in program order. A run that meets none of
these dispatches every instruction while it is issued, in program order.
`Pending` is the invariant between two dispatches: the registers that no waiting
entry writes are those of the interpreter, in the reorder buffer or retired.
-/

namespace MiniHardware.Cpu
open Lib

namespace Superscalar

/-! ## The condition -/

/-- The register was never written, or its last writer is in the reorder buffer. -/
def Live (s : Superscalar) (r : Reg) : Prop :=
  r ≠ 0 → ∀ k ∈ s.regRobMapping r, (s.rob k).busy = true ∧ (s.rob k).rd = r

/-- The sources are live and neither the instruction nor a later one of its group writes them, and
a store has no destination. -/
def GroupOk (s : Superscalar) : List Instruction → Prop
  | [] => True
  | inst :: rest =>
    (s.Live inst.rs1 ∧ s.Live inst.rs2) ∧
      (∀ later ∈ inst :: rest, later.rd ≠ 0 → later.rd ≠ inst.rs1 ∧ later.rd ≠ inst.rs2) ∧
      (inst.opcode = .sw → inst.rd = 0) ∧
      ∀ slot ∈ s.findFree, (s.enter slot inst).GroupOk rest

/-- No other entry writes the register that the entry is the last writer of. -/
def LastOk (s : Superscalar) (idx : RobSlot) : Prop :=
  s.regRobMapping (s.rob idx).rd = some idx →
    ∀ k, k ≠ idx → (s.rob k).busy = true → (s.rob k).rd ≠ (s.rob idx).rd

/-- `LastOk` of the entries that the loop of `superscalar_commit` retires. -/
def CommitOk (s : Superscalar) (commitCount : Nat) : List RobSlot → Prop
  | [] => True
  | i :: is =>
    commitCount < maxDispatchWidth →
      if !(s.rob (s.slotAt i)).busy then s.CommitOk commitCount is
      else s.LastOk (s.slotAt i) ∧ (s.retire (s.slotAt i)).CommitOk (commitCount + 1) is

instance liveDecidable (s : Superscalar) (r : Reg) : Decidable (s.Live r) :=
  inferInstanceAs (Decidable (r ≠ 0 → ∀ k ∈ s.regRobMapping r, (s.rob k).busy = true ∧ (s.rob k).rd = r))

instance groupOkDecidable : (s : Superscalar) → (insts : List Instruction) → Decidable (s.GroupOk insts)
  | _, [] => inferInstanceAs (Decidable True)
  | s, inst :: rest =>
    have := fun slot => groupOkDecidable (s.enter slot inst) rest
    inferInstanceAs (Decidable ((s.Live inst.rs1 ∧ s.Live inst.rs2) ∧
      (∀ later ∈ inst :: rest, later.rd ≠ 0 → later.rd ≠ inst.rs1 ∧ later.rd ≠ inst.rs2) ∧
      (inst.opcode = .sw → inst.rd = 0) ∧
      ∀ slot ∈ s.findFree, (s.enter slot inst).GroupOk rest))

instance lastOkDecidable (s : Superscalar) (idx : RobSlot) : Decidable (s.LastOk idx) :=
  inferInstanceAs (Decidable (s.regRobMapping (s.rob idx).rd = some idx → ∀ k, k ≠ idx → _))

instance commitOkDecidable : (s : Superscalar) → (commitCount : Nat) → (is : List RobSlot) →
    Decidable (s.CommitOk commitCount is)
  | _, _, [] => inferInstanceAs (Decidable True)
  | s, commitCount, i :: is =>
    have := commitOkDecidable s commitCount is
    have := commitOkDecidable (s.retire (s.slotAt i)) (commitCount + 1) is
    inferInstanceAs (Decidable (commitCount < maxDispatchWidth →
      if !(s.rob (s.slotAt i)).busy then s.CommitOk commitCount is
      else s.LastOk (s.slotAt i) ∧ (s.retire (s.slotAt i)).CommitOk (commitCount + 1) is))

/-! ## The invariant -/

/-- The value of the register is that of the interpreter: its last writer in the reorder buffer has
it, or the register has and no entry writes it. -/
def Tracks (s : Superscalar) (ctx : IsaContext) (r : Reg) : Prop :=
  (∃ k, s.regRobMapping r = some k ∧ (s.rob k).busy = true ∧ (s.rob k).rd = r ∧
      (s.rob k).value = ctx.registers r) ∨
    (∀ k, (s.rob k).busy = true → (s.rob k).rd ≠ r) ∧ s.registers r = ctx.registers r

/-- The number of entries. -/
def busyCount (s : Superscalar) : Nat := (Finset.univ.filter fun k => (s.rob k).busy = true).card

/-- What holds of an entry that waits for its dispatch, with the ones after it. -/
structure WaitsOk (s : Superscalar) (w : RobSlot × Instruction) (after : List (RobSlot × Instruction)) :
    Prop where
  entry : (s.rob w.1).busy = true ∧ (s.rob w.1).done = false ∧ (s.rob w.1).inst = w.2 ∧
    (s.rob w.1).rd = w.2.rd
  below : ∀ k < w.1, (s.rob k).busy = true
  map : w.2.rd ≠ 0 → (∀ v ∈ after, v.2.rd ≠ w.2.rd) → s.regRobMapping w.2.rd = some w.1
  live : s.Live w.2.rs1 ∧ s.Live w.2.rs2
  clear : ∀ v ∈ w :: after, v.2.rd ≠ 0 → v.2.rd ≠ w.2.rs1 ∧ v.2.rd ≠ w.2.rs2
  store : w.2.opcode = .sw → w.2.rd = 0
  supported : oooSupported w.2.opcode = true

/-- Each of the waiting entries is `WaitsOk`. -/
def AllWait (s : Superscalar) : List (RobSlot × Instruction) → Prop
  | [] => True
  | w :: after => s.WaitsOk w after ∧ s.AllWait after

/-- The entries of `waiting` wait for their dispatch, and `ctx` is the context of the interpreter
after the instructions before them. -/
structure Pending (s : Superscalar) (ctx : IsaContext) (waiting : List (RobSlot × Instruction)) :
    Prop where
  running : ctx.halted = false
  sorted : (waiting.map (·.1)).Pairwise (· < ·)
  waits : s.AllWait waiting
  done : ∀ k, k ∉ waiting.map (·.1) → (s.rob k).busy = true → (s.rob k).done = true
  fresh : ∀ k, (s.rob k).busy = true → (s.rob k).committed = false
  memory : s.memory = ctx.memory
  zero : s.registers 0 = ctx.registers 0
  tracks : ∀ r, r ≠ 0 → (∀ w ∈ waiting, w.2.rd ≠ r) → s.Tracks ctx r
  count : s.robCount = s.busyCount
  counted : s.instructionsCommitted + UInt32.ofNat s.robCount = s.instructionsIssued

variable {s s' : Superscalar} {ctx ctx' : IsaContext} {waiting : List (RobSlot × Instruction)}
  {w : RobSlot × Instruction} {after : List (RobSlot × Instruction)} {inst : Instruction} {slot : RobSlot}

/-! ## Dispatch -/

/-- Every waiting instruction waits in the state that the later ones leave. -/
theorem AllWait.of_mem (h : s.AllWait waiting) (mem : w ∈ waiting) : ∃ after, s.WaitsOk w after := by
  induction waiting with
  | nil => cases mem
  | cons v waiting ih =>
    rcases List.mem_cons.1 mem with rfl | mem
    · exact ⟨waiting, h.1⟩
    · exact ih h.2 mem

/-- The entry of a waiting instruction names its register. -/
theorem Pending.entry_rd (h : s.Pending ctx waiting) (mem : w ∈ waiting) : (s.rob w.1).rd = w.2.rd := by
  obtain ⟨after, ok⟩ := h.waits.of_mem mem
  exact ok.entry.2.2.2

/-- The sources of the first waiting entry are there, with the interpreter's values. -/
theorem Pending.operand (h : s.Pending ctx (w :: after)) {r : Reg}
    (source : r = w.2.rs1 ∨ r = w.2.rs2) : s.operand r = some (ctx.registers r) := by
  have first := h.waits.1
  have unwritten (ne : r ≠ 0) : ∀ v ∈ w :: after, v.2.rd ≠ r := by
    rintro v mem rfl
    have clear := first.clear v mem ne
    rcases source with eq | eq
    · exact clear.1 eq
    · exact clear.2 eq
  have live : s.Live r := by
    rcases source with eq | eq
    · rw [eq]
      exact first.live.1
    · rw [eq]
      exact first.live.2
  unfold Superscalar.operand
  split
  · rename_i ne
    have tracks := h.tracks r ne (unwritten ne)
    split
    · rename_i k map
      obtain ⟨busy, rd⟩ := live ne k map
      have idle : k ∉ (w :: after).map (·.1) := by
        intro mem
        obtain ⟨v, memv, rfl⟩ := List.mem_map.1 mem
        exact unwritten ne v memv (h.entry_rd memv ▸ rd)
      rw [if_pos (by rw [busy, h.done k idle busy]; rfl)]
      rcases tracks with ⟨j, map', -, -, value⟩ | ⟨none, -⟩
      · rw [map] at map'
        cases map'
        rw [value]
      · exact absurd rd (none k busy)
    · rename_i map
      rcases tracks with ⟨j, map', -⟩ | ⟨-, value⟩
      · rw [map] at map'
        cases map'
      · rw [value]
  · rename_i zero
    rw [Classical.not_not.1 zero, h.zero]

/-- The switch of the dispatch computes what the interpreter's does. -/
theorem result_of_effect {effect : Effect} (supported : oooSupported inst.opcode = true)
    (eq : isaEffect ctx inst = some effect) :
    result ctx.memory inst (ctx.registers inst.rs1) (ctx.registers inst.rs2) =
      some (effect.rdVal, effect.memory) := by
  unfold isaEffect at eq
  unfold result
  cases h : inst.opcode
  case lw =>
    simp only [h] at eq ⊢
    split at eq <;> rename_i inside
    · obtain ⟨value, load, eq⟩ := Option.bind_eq_some_iff.1 eq
      cases eq
      rw [if_pos inside, load]
      rfl
    · cases eq
      rw [if_neg inside]
  case sw =>
    simp only [h] at eq ⊢
    split at eq <;> rename_i inside
    · obtain ⟨memory, store, rfl⟩ := Option.map_eq_some_iff.1 eq
      rw [if_pos inside, store]
      rfl
    · cases eq
      rw [if_neg inside]
  all_goals
    first
      | exact absurd supported (by rw [h]; decide)
      | simp only [h] at eq ⊢
        cases eq
        rfl

/-- The interpreter's context after a supported instruction. -/
theorem result_of_execute (running : ctx.halted = false) (supported : oooSupported inst.opcode = true)
    (exec : isaExecute ctx inst = some ctx') :
    ∃ value, result ctx.memory inst (ctx.registers inst.rs1) (ctx.registers inst.rs2) =
        some (value, ctx'.memory) ∧ ctx'.halted = false ∧
      ctx'.registers = if inst.rd ≠ 0 ∧ inst.opcode ≠ .sw then
        Function.update ctx.registers inst.rd value else ctx.registers := by
  obtain ⟨effect, eq, memory, -, halted, registers⟩ := isaExecute_eq_some running exec
  have keeps : ¬ isaKeepsRegisters inst.opcode = true ↔ inst.opcode ≠ .sw := by
    cases h : inst.opcode <;> simp_all [oooSupported, isaKeepsRegisters]
  refine ⟨effect.rdVal, ?_, halted, ?_⟩
  · rw [memory]
    exact result_of_effect supported eq
  · rw [registers]
    simp only [keeps]

/-- The reorder buffer has the same entries for the same registers. -/
structure Alike (s s' : Superscalar) : Prop where
  busy : ∀ k, (s'.rob k).busy = (s.rob k).busy
  rd : ∀ k, (s'.rob k).rd = (s.rob k).rd
  map : s'.regRobMapping = s.regRobMapping

/-- A register that has a writer in the buffer keeps it. -/
theorem Alike.live (h : Alike s s') {r : Reg} (live : s.Live r) : s'.Live r := by
  intro ne k map
  rw [h.map] at map
  rw [h.busy, h.rd]
  exact live ne k map

/-- An instruction waits on in a state that differs in other entries only. -/
theorem Alike.waitsOk (h : Alike s s') (same : s'.rob w.1 = s.rob w.1) (ok : s.WaitsOk w after) :
    s'.WaitsOk w after where
  entry := by
    rw [same]
    exact ok.entry
  below k lt := by
    rw [h.busy]
    exact ok.below k lt
  map ne last := by
    rw [h.map]
    exact ok.map ne last
  live := ⟨h.live ok.live.1, h.live ok.live.2⟩
  clear := ok.clear
  store := ok.store
  supported := ok.supported

/-- All waiting instructions go on waiting in a state that is alike. -/
theorem Alike.allWait (h : Alike s s') (same : ∀ w ∈ waiting, s'.rob w.1 = s.rob w.1)
    (ok : s.AllWait waiting) : s'.AllWait waiting := by
  induction waiting with
  | nil => trivial
  | cons w waiting ih =>
    exact ⟨h.waitsOk (same w List.mem_cons_self) ok.1,
      ih (fun v mem => same v (List.mem_cons_of_mem w mem)) ok.2⟩

theorem Alike.busyCount (h : Alike s s') : s'.busyCount = s.busyCount := by
  unfold Superscalar.busyCount
  simp only [h.busy]

/-- The entry of `i` gets its value. -/
def dispatched (s : Superscalar) (i : RobSlot) (value : UInt32) (memory : Memory) : Superscalar :=
  { s.setEntry i { s.rob i with value := value, done := true } with memory := memory }

/-- Dispatching writes the value and the flag of its own entry. -/
theorem dispatched_rob (i k : RobSlot) (value : UInt32) (memory : Memory) :
    (s.dispatched i value memory).rob k =
      if k = i then { s.rob i with value := value, done := true } else s.rob k :=
  Function.update_apply _ _ _ _

/-- Dispatching frees no entry and changes no mapping. -/
theorem alike_dispatched (i : RobSlot) (value : UInt32) (memory : Memory) :
    Alike s (s.dispatched i value memory) where
  busy k := by
    rw [dispatched_rob]
    split
    · rename_i eq
      rw [eq]
    · rfl
  rd k := by
    rw [dispatched_rob]
    split
    · rename_i eq
      rw [eq]
    · rfl
  map := rfl

/-- The oldest waiting instruction is dispatched with the values of the program order. -/
theorem Pending.dispatchEntry_first {value : UInt32} {memory : Memory} (h : s.Pending ctx (w :: after))
    (res : result ctx.memory w.2 (ctx.registers w.2.rs1) (ctx.registers w.2.rs2) = some (value, memory)) :
    s.dispatchEntry w.1 = some (s.dispatched w.1 value memory) := by
  obtain ⟨busy, done, inst, -⟩ := h.waits.1.entry
  have fst : s.operand (s.rob w.1).inst.rs1 = some (ctx.registers w.2.rs1) := by
    rw [inst]
    exact h.operand (Or.inl rfl)
  have snd : s.operand (s.rob w.1).inst.rs2 = some (ctx.registers w.2.rs2) := by
    rw [inst]
    exact h.operand (Or.inr rfl)
  have here : result s.memory (s.rob w.1).inst (ctx.registers w.2.rs1) (ctx.registers w.2.rs2) =
      some (value, memory) := by
    rw [inst, h.memory, res]
  unfold dispatchEntry
  rw [if_pos ⟨busy, done⟩]
  dsimp only
  rw [fst, snd]
  dsimp only
  rw [here]
  rfl

/-- The registers that the dispatched instruction does not write keep their values. -/
theorem Tracks.dispatched {i : RobSlot} {r : Reg} {value : UInt32} {memory : Memory}
    (h : s.Tracks ctx r) (other : (s.rob i).rd ≠ r) (kept : ctx'.registers r = ctx.registers r) :
    (s.dispatched i value memory).Tracks ctx' r := by
  have alike := @alike_dispatched s i value memory
  rcases h with ⟨k, map, busy, rd, value'⟩ | ⟨none, value'⟩
  · have ne : k ≠ i := by
      rintro rfl
      exact other rd
    left
    refine ⟨k, map, (alike.busy k).trans busy, (alike.rd k).trans rd, ?_⟩
    rw [dispatched_rob, if_neg ne, kept, value']
  · right
    refine ⟨fun k busy => ?_, value'.trans kept.symm⟩
    rw [alike.busy] at busy
    rw [alike.rd]
    exact none k busy

/-- The last writer of a register has its value in the reorder buffer. -/
theorem WaitsOk.tracks_dispatched {memory : Memory} (ok : s.WaitsOk w after) (ne : w.2.rd ≠ 0)
    (last : ∀ v ∈ after, v.2.rd ≠ w.2.rd) :
    (s.dispatched w.1 (ctx'.registers w.2.rd) memory).Tracks ctx' w.2.rd := by
  obtain ⟨busy, -, -, rd⟩ := ok.entry
  have alike := @alike_dispatched s w.1 (ctx'.registers w.2.rd) memory
  left
  refine ⟨w.1, ok.map ne last, (alike.busy w.1).trans busy, (alike.rd w.1).trans rd, ?_⟩
  rw [dispatched_rob, if_pos rfl]

/-- The first waiting entry is dispatched as the interpreter executes its instruction. -/
theorem Pending.dispatch_first (h : s.Pending ctx (w :: after)) (exec : isaExecute ctx w.2 = some ctx') :
    ∃ value, s.dispatchEntry w.1 = some (s.dispatched w.1 value ctx'.memory) ∧
      (s.dispatched w.1 value ctx'.memory).Pending ctx' after := by
  have first := h.waits.1
  obtain ⟨value, res, halted, registers⟩ := result_of_execute h.running first.supported exec
  have alike := @alike_dispatched s w.1 value ctx'.memory
  have sorted := List.pairwise_cons.1 h.sorted
  have kept (r : Reg) (other : w.2.rd ≠ r ∨ r = 0) : ctx'.registers r = ctx.registers r := by
    rw [registers]
    split
    · rename_i writes
      apply Function.update_of_ne
      rintro rfl
      rcases other with other | zero
      · exact other rfl
      · exact writes.1 zero
    · rfl
  refine ⟨value, h.dispatchEntry_first res, ?_⟩
  refine
    { running := halted
      sorted := sorted.2
      waits := ?_
      done := ?_
      fresh := ?_
      memory := rfl
      zero := h.zero.trans (kept 0 (Or.inr rfl)).symm
      tracks := ?_
      count := h.count.trans alike.busyCount.symm
      counted := h.counted }
  · apply alike.allWait _ h.waits.2
    intro v mem
    have lt := sorted.1 v.1 (List.mem_map_of_mem mem)
    rw [dispatched_rob, if_neg (Fin.ne_of_gt lt)]
  · intro k out busy
    rw [alike.busy] at busy
    rw [dispatched_rob]
    split
    · rfl
    · rename_i ne
      apply h.done k _ busy
      rw [List.map_cons, List.mem_cons, not_or]
      exact ⟨ne, out⟩
  · intro k busy
    rw [alike.busy] at busy
    rw [dispatched_rob]
    split
    · rename_i eq
      rw [← eq]
      exact h.fresh k busy
    · exact h.fresh k busy
  · intro r ne unwritten
    by_cases writes : w.2.rd = r
    · subst writes
      have value_eq : ctx'.registers w.2.rd = value := by
        rw [registers, if_pos ⟨ne, fun store => ne (first.store store)⟩, Function.update_self]
      rw [← value_eq]
      exact first.tracks_dispatched ne unwritten
    · have rd : (s.rob w.1).rd ≠ r := by
        rw [first.entry.2.2.2]
        exact writes
      exact (h.tracks r ne (List.forall_mem_cons.2 ⟨writes, unwritten⟩)).dispatched rd (kept r (Or.inl writes))

/-- The dispatch of the waiting entries alone. -/
theorem Pending.dispatch_waiting (h : s.Pending ctx waiting)
    (exec : executeAll ctx (waiting.map (·.2)) = some ctx') :
    ∃ s', (waiting.map (·.1)).foldlM dispatchEntry s = some s' ∧ s'.Pending ctx' [] ∧
      s'.instructionsIssued = s.instructionsIssued ∧ s'.robCount = s.robCount := by
  induction waiting generalizing s ctx with
  | nil =>
    cases exec
    exact ⟨s, rfl, h, rfl, rfl⟩
  | cons w waiting ih =>
    obtain ⟨ctx₁, first, rest⟩ := Option.bind_eq_some_iff.1 (show (isaExecute ctx w.2).bind
      (fun ctx => executeAll ctx (waiting.map (·.2))) = some ctx' from exec)
    obtain ⟨value, step, next⟩ := h.dispatch_first first
    obtain ⟨s', steps, pending, issued, count⟩ := ih next rest
    refine ⟨s', ?_, pending, issued, count⟩
    rw [List.map_cons, List.foldlM_cons, step]
    exact steps

/-- Dispatching makes no entry wait. -/
theorem dispatchEntry_waits {i k : RobSlot} (step : s.dispatchEntry i = some s') (waits : s'.Waits k) :
    s.Waits k := by
  unfold dispatchEntry at step
  split at step
  · rename_i here
    dsimp only at step
    split at step
    · obtain ⟨⟨value, memory⟩, -, eq⟩ := Option.map_eq_some_iff.1 step
      rcases eq_or_ne k i with rfl | ne
      · exact here
      · have same : s'.rob k = s.rob k := by
          rw [← eq]
          exact Function.update_of_ne ne _ _
        unfold Waits at waits ⊢
        rw [same] at waits
        exact waits
    · cases step
      exact waits
  · cases step
    exact waits

/-- `superscalar_dispatch` executes the waiting entries in program order. -/
theorem Pending.dispatch (h : s.Pending ctx waiting)
    (exec : executeAll ctx (waiting.map (·.2)) = some ctx') :
    ∃ s', superscalarDispatch s = some s' ∧ s'.Pending ctx' [] ∧
      s'.instructionsIssued = s.instructionsIssued ∧ s'.robCount = s.robCount := by
  let Idle (s : Superscalar) : Prop := ∀ k : RobSlot, k ∉ waiting.map (·.1) → ¬ s.Waits k
  have only : Idle s := by
    rintro k out ⟨busy, done⟩
    rw [h.done k out busy] at done
    cases done
  have skip (s : Superscalar) (k : RobSlot) (idle : Idle s) (out : decide (k ∈ waiting.map (·.1)) = false) :
      s.dispatchEntry k = some s := if_neg (idle k (of_decide_eq_false out))
  have keep (s : Superscalar) (i : RobSlot) (s' : Superscalar) (idle : Idle s)
      (step : s.dispatchEntry i = some s') : Idle s' :=
    fun k out waits => idle k out (dispatchEntry_waits step waits)
  have rounds := foldlM_filter skip keep only (List.finRange maxRobEntries)
  unfold superscalarDispatch
  rw [rounds, filter_finRange h.sorted]
  exact h.dispatch_waiting exec

/-! ## Issue -/

/-- The slot that is found is free, and all before it are busy. -/
theorem findFree_eq_some (free : s.findFree = some slot) :
    (s.rob slot).busy = false ∧ ∀ k < slot, (s.rob k).busy = true := by
  unfold findFree at free
  obtain ⟨idle, i, lt, eq, before⟩ := List.find?_eq_some_iff_getElem.1 free
  rw [List.getElem_finRange] at eq
  refine ⟨by simpa using idle, fun k below => ?_⟩
  rw [← eq] at below
  have busy := before k.val below
  simpa using busy

/-- A buffer that is not full has a free slot. -/
theorem findFree_isSome (room : s.busyCount < maxRobEntries) : ∃ slot, s.findFree = some slot := by
  rw [← Option.isSome_iff_exists]
  unfold findFree
  rw [List.find?_isSome]
  by_contra full
  have all : (Finset.univ.filter fun k => (s.rob k).busy = true) = Finset.univ := by
    apply Finset.filter_true_of_mem
    intro k _
    by_contra free
    exact full ⟨k, List.mem_finRange k, by simpa using free⟩
  unfold busyCount at room
  rw [all, Finset.card_univ, Fintype.card_fin] at room
  exact Nat.lt_irrefl _ room

theorem ne_of_busy {k : RobSlot} (busy : (s.rob k).busy = true) (free : (s.rob slot).busy = false) :
    k ≠ slot := by
  rintro rfl
  rw [free] at busy
  cases busy

/-- Entering an instruction leaves the other entries alone. -/
theorem enter_rob_of_ne {k : RobSlot} (ne : k ≠ slot) : (s.enter slot inst).rob k = s.rob k :=
  Function.update_of_ne ne _ _

/-- The new entry is neither ready nor done. -/
theorem enter_rob_self : (s.enter slot inst).rob slot =
    ⟨true, false, false, inst, inst.rd, 0, s.pc, UInt32.ofNat slot.val⟩ :=
  Function.update_self _ _ _

theorem enter_map_of_ne {r : Reg} (other : inst.rd ≠ r) :
    (s.enter slot inst).regRobMapping r = s.regRobMapping r := by
  unfold enter
  dsimp only
  split
  · exact Function.update_of_ne (Ne.symm other) _ _
  · rfl

/-- An entry that is busy stays so. -/
theorem enter_busy (k : RobSlot) (busy : (s.rob k).busy = true) :
    ((s.enter slot inst).rob k).busy = true := by
  rcases eq_or_ne k slot with rfl | ne
  · rw [enter_rob_self]
  · rw [enter_rob_of_ne ne, busy]

/-- Registers that the new instruction does not write stay live. -/
theorem Live.enter {r : Reg} (live : s.Live r) (free : (s.rob slot).busy = false)
    (other : inst.rd ≠ 0 → inst.rd ≠ r) : (s.enter slot inst).Live r := by
  intro ne k map
  have apart : inst.rd ≠ r := by
    rintro rfl
    exact other ne rfl
  rw [enter_map_of_ne apart] at map
  obtain ⟨busy, rd⟩ := live ne k map
  rw [enter_rob_of_ne (ne_of_busy busy free)]
  exact ⟨busy, rd⟩

/-- An instruction waits on behind a new one that writes none of its sources. -/
theorem WaitsOk.enter (ok : s.WaitsOk w after) (free : (s.rob slot).busy = false)
    (clear : inst.rd ≠ 0 → inst.rd ≠ w.2.rs1 ∧ inst.rd ≠ w.2.rs2) :
    (s.enter slot inst).WaitsOk w (after ++ [(slot, inst)]) := by
  have old : w.1 ≠ slot := ne_of_busy ok.entry.1 free
  refine
    { entry := ?_
      below := fun k lt => enter_busy k (ok.below k lt)
      map := fun ne last => ?_
      live := ⟨ok.live.1.enter free fun ne => (clear ne).1, ok.live.2.enter free fun ne => (clear ne).2⟩
      clear := ?_
      store := ok.store
      supported := ok.supported }
  · rw [enter_rob_of_ne old]
    exact ok.entry
  · rw [enter_map_of_ne (last (slot, inst) (by simp))]
    exact ok.map ne fun v mem => last v (List.mem_append_left _ mem)
  · intro v mem
    rw [← List.cons_append, List.mem_append, List.mem_singleton] at mem
    rcases mem with mem | rfl
    · exact ok.clear v mem
    · exact clear

/-- All of them go on waiting when an instruction enters, the new one included. -/
theorem AllWait.enter (ok : s.AllWait waiting) (free : (s.rob slot).busy = false)
    (clear : ∀ v ∈ waiting, inst.rd ≠ 0 → inst.rd ≠ v.2.rs1 ∧ inst.rd ≠ v.2.rs2)
    (last : (s.enter slot inst).WaitsOk (slot, inst) []) :
    (s.enter slot inst).AllWait (waiting ++ [(slot, inst)]) := by
  induction waiting with
  | nil => exact ⟨last, trivial⟩
  | cons w waiting ih =>
    exact ⟨ok.1.enter free (clear w List.mem_cons_self),
      ih ok.2 fun v mem => clear v (List.mem_cons_of_mem w mem)⟩

/-- What an instruction is entered with. -/
structure Enters (s : Superscalar) (inst : Instruction) : Prop where
  live : s.Live inst.rs1 ∧ s.Live inst.rs2
  clear : inst.rd ≠ 0 → inst.rd ≠ inst.rs1 ∧ inst.rd ≠ inst.rs2
  store : inst.opcode = .sw → inst.rd = 0
  supported : oooSupported inst.opcode = true

/-- What is entered under the condition of an issue can wait. -/
theorem Enters.waitsOk (ok : s.Enters inst) (free : s.findFree = some slot) :
    (s.enter slot inst).WaitsOk (slot, inst) [] := by
  obtain ⟨idle, below⟩ := findFree_eq_some free
  refine
    { entry := ?_
      below := fun k lt => enter_busy k (below k lt)
      map := fun ne _ => ?_
      live := ⟨ok.live.1.enter idle fun ne => (ok.clear ne).1, ok.live.2.enter idle fun ne => (ok.clear ne).2⟩
      clear := fun v mem => ?_
      store := ok.store
      supported := ok.supported }
  · rw [enter_rob_self]
    exact ⟨rfl, rfl, rfl, rfl⟩
  · unfold enter
    dsimp only
    rw [if_pos ne, Function.update_self]
  · rw [List.mem_singleton.1 mem]
    exact ok.clear

theorem busyCount_enter (free : (s.rob slot).busy = false) :
    (s.enter slot inst).busyCount = s.busyCount + 1 := by
  have set : (Finset.univ.filter fun k => ((s.enter slot inst).rob k).busy = true) =
      insert slot (Finset.univ.filter fun k => (s.rob k).busy = true) := by
    apply Finset.ext
    intro k
    rw [Finset.mem_insert, Finset.mem_filter_univ, Finset.mem_filter_univ]
    rcases eq_or_ne k slot with rfl | ne
    · rw [enter_rob_self]
      exact iff_of_true rfl (Or.inl rfl)
    · rw [enter_rob_of_ne ne, or_iff_right ne]
  unfold busyCount
  rw [set, Finset.card_insert_of_notMem]
  rw [Finset.mem_filter_univ, free]
  decide

/-- A new writer of another register does not matter to the register's value. -/
theorem Tracks.enter {r : Reg} (h : s.Tracks ctx r) (free : (s.rob slot).busy = false)
    (other : inst.rd ≠ r) : (s.enter slot inst).Tracks ctx r := by
  unfold Tracks
  rw [enter_map_of_ne other]
  rcases h with ⟨k, map, busy, rd, value⟩ | ⟨none, value⟩
  · have old : k ≠ slot := ne_of_busy busy free
    left
    rw [← @enter_rob_of_ne s inst slot k old] at busy rd value
    exact ⟨k, map, busy, rd, value⟩
  · right
    refine ⟨fun k busy => ?_, value⟩
    rcases eq_or_ne k slot with rfl | old
    · rw [enter_rob_self]
      exact other
    · rw [enter_rob_of_ne old] at busy ⊢
      exact none k busy

/-- An instruction entered into a free slot waits after the others. -/
theorem Pending.enter (h : s.Pending ctx waiting) (free : s.findFree = some slot) (ok : s.Enters inst)
    (clear : ∀ v ∈ waiting, inst.rd ≠ 0 → inst.rd ≠ v.2.rs1 ∧ inst.rd ≠ v.2.rs2) :
    (s.enter slot inst).Pending ctx (waiting ++ [(slot, inst)]) := by
  obtain ⟨idle, below⟩ := findFree_eq_some free
  have slots : (waiting ++ [(slot, inst)]).map (·.1) = waiting.map (·.1) ++ [slot] := List.map_append
  refine
    { running := h.running
      sorted := ?_
      waits := h.waits.enter idle clear (ok.waitsOk free)
      done := ?_
      fresh := ?_
      memory := h.memory
      zero := h.zero
      tracks := ?_
      count := ?_
      counted := ?_ }
  · rw [slots, List.pairwise_append]
    refine ⟨h.sorted, List.pairwise_singleton _ _, fun k mem j mem' => ?_⟩
    rw [List.mem_singleton.1 mem']
    obtain ⟨v, memv, rfl⟩ := List.mem_map.1 mem
    obtain ⟨after, ok'⟩ := h.waits.of_mem memv
    -- a waiting slot has no free one below it
    by_contra le
    rcases Fin.lt_or_eq_of_le (Fin.not_lt.1 le) with lt | eq
    · exact ne_of_busy (ok'.below slot lt) idle rfl
    · exact ne_of_busy ok'.entry.1 idle eq.symm
  · intro k out busy
    rw [slots, List.mem_append, List.mem_singleton, not_or] at out
    rw [enter_rob_of_ne out.2] at busy ⊢
    exact h.done k out.1 busy
  · intro k busy
    rcases eq_or_ne k slot with rfl | ne
    · rw [enter_rob_self]
    · rw [enter_rob_of_ne ne] at busy ⊢
      exact h.fresh k busy
  · intro r ne unwritten
    have tracks := h.tracks r ne fun w mem => unwritten w (List.mem_append_left _ mem)
    exact tracks.enter idle (unwritten (slot, inst) (List.mem_append_right _ List.mem_cons_self))
  · rw [busyCount_enter idle, ← h.count]
    rfl
  · show s.instructionsCommitted + UInt32.ofNat (s.robCount + 1) = s.instructionsIssued + 1
    rw [← h.counted, UInt32.ofNat_add, UInt32.add_assoc]
    rfl

/-- The loop of `superscalar_issue` on instructions that none of the waiting ones reads from. -/
theorem Pending.enterAll {insts : List Instruction} (h : s.Pending ctx waiting)
    (room : s.robCount + insts.length ≤ maxRobEntries)
    (supported : ∀ inst ∈ insts, oooSupported inst.opcode = true) (ok : s.GroupOk insts)
    (clear : ∀ v ∈ waiting, ∀ inst ∈ insts, inst.rd ≠ 0 → inst.rd ≠ v.2.rs1 ∧ inst.rd ≠ v.2.rs2) :
    ∃ entered, (s.enterAll insts).Pending ctx (waiting ++ entered) ∧ entered.map (·.2) = insts ∧
      (s.enterAll insts).robCount = s.robCount + insts.length ∧
      (s.enterAll insts).instructionsIssued = s.instructionsIssued + UInt32.ofNat insts.length := by
  induction insts generalizing s waiting with
  | nil =>
    refine ⟨[], ?_, rfl, rfl, (UInt32.add_zero _).symm⟩
    rw [List.append_nil]
    exact h
  | cons inst rest ih =>
    rw [List.length_cons] at room
    have space : s.busyCount < maxRobEntries := by
      rw [← h.count]
      omega
    obtain ⟨slot, free⟩ := findFree_isSome space
    obtain ⟨live, group, store, next⟩ := ok
    have enters : s.Enters inst :=
      { live := live
        clear := group inst List.mem_cons_self
        store := store
        supported := supported inst List.mem_cons_self }
    have pending := h.enter free enters fun v mem => clear v mem inst List.mem_cons_self
    have clear' : ∀ v ∈ waiting ++ [(slot, inst)], ∀ later ∈ rest, later.rd ≠ 0 →
        later.rd ≠ v.2.rs1 ∧ later.rd ≠ v.2.rs2 := by
      intro v mem later memLater
      rcases List.mem_append.1 mem with mem | mem
      · exact clear v mem later (List.mem_cons_of_mem inst memLater)
      · rw [List.mem_singleton.1 mem]
        exact group later (List.mem_cons_of_mem inst memLater)
    have room' : (s.enter slot inst).robCount + rest.length ≤ maxRobEntries := by
      show s.robCount + 1 + rest.length ≤ maxRobEntries
      omega
    obtain ⟨entered, after, insts, count, issued⟩ := ih pending room'
      (fun later mem => supported later (List.mem_cons_of_mem inst mem)) (next slot free) clear'
    have unfolded : s.enterAll (inst :: rest) = (s.enter slot inst).enterAll rest := by
      rw [Superscalar.enterAll, if_neg (by omega), free]
    rw [unfolded]
    refine ⟨(slot, inst) :: entered, ?_, ?_, ?_, ?_⟩
    · rw [List.append_cons]
      exact after
    · rw [List.map_cons, insts]
    · rw [count, List.length_cons]
      show s.robCount + 1 + rest.length = s.robCount + (rest.length + 1)
      omega
    · rw [issued, List.length_cons, UInt32.ofNat_add]
      show s.instructionsIssued + 1 + UInt32.ofNat rest.length =
        s.instructionsIssued + (UInt32.ofNat rest.length + 1)
      rw [UInt32.add_assoc, UInt32.add_comm 1]

/-- `superscalar_issue` executes the group in program order. -/
theorem Pending.issue {insts : List Instruction} (h : s.Pending ctx []) (width : insts.length ≤ maxIssueWidth)
    (room : s.robCount + insts.length ≤ maxRobEntries)
    (supported : ∀ inst ∈ insts, oooSupported inst.opcode = true) (ok : s.GroupOk insts)
    (exec : executeAll ctx insts = some ctx') :
    ∃ s', superscalarIssue s insts = some s' ∧ s'.Pending ctx' [] ∧
      s'.instructionsIssued = s.instructionsIssued + UInt32.ofNat insts.length ∧
      s'.robCount = s.robCount + insts.length := by
  obtain ⟨entered, pending, eq, count, issued⟩ := h.enterAll room supported ok (by simp)
  rw [List.nil_append] at pending
  obtain ⟨s', dispatch, done, issued', count'⟩ := pending.dispatch (eq ▸ exec)
  refine ⟨s', ?_, done, issued'.trans issued, count'.trans count⟩
  unfold superscalarIssue
  rw [List.take_of_length_le width]
  exact dispatch

/-! ## Commit -/

/-- Retiring leaves the other entries alone. -/
theorem retire_rob_of_ne {idx k : RobSlot} (ne : k ≠ idx) : (s.retire idx).rob k = s.rob k :=
  Function.update_of_ne ne _ _

/-- The entry that is retired is free. -/
theorem retire_idle (idx : RobSlot) : ((s.retire idx).rob idx).busy = false := by
  unfold retire
  dsimp only
  rw [Function.update_self]

theorem ne_of_retire_busy {idx k : RobSlot} (busy : ((s.retire idx).rob k).busy = true) : k ≠ idx := by
  rintro rfl
  rw [retire_idle] at busy
  cases busy

/-- Retiring writes the entry's register only. -/
theorem retire_registers_of_ne {idx : RobSlot} {r : Reg} (other : (s.rob idx).rd ≠ r) :
    (s.retire idx).registers r = s.registers r := by
  unfold retire
  dsimp only
  split
  · exact Function.update_of_ne (Ne.symm other) _ _
  · rfl

/-- There is one busy entry less. -/
theorem busyCount_retire {idx : RobSlot} (busy : (s.rob idx).busy = true) :
    (s.retire idx).busyCount = s.busyCount - 1 := by
  have set : (Finset.univ.filter fun k => ((s.retire idx).rob k).busy = true) =
      (Finset.univ.filter fun k => (s.rob k).busy = true).erase idx := by
    apply Finset.ext
    intro k
    rw [Finset.mem_erase, Finset.mem_filter_univ, Finset.mem_filter_univ]
    rcases eq_or_ne k idx with rfl | ne
    · rw [retire_idle]
      simp
    · rw [retire_rob_of_ne ne, and_iff_right ne]
  have mem : idx ∈ Finset.univ.filter fun k => (s.rob k).busy = true := (Finset.mem_filter_univ _).2 busy
  unfold busyCount
  rw [set, Finset.card_erase_of_mem mem]

theorem busyCount_pos {k : RobSlot} (busy : (s.rob k).busy = true) : 0 < s.busyCount :=
  Finset.card_pos.2 ⟨k, (Finset.mem_filter_univ _).2 busy⟩

/-- The value of a retired last writer goes to the register. -/
theorem Tracks.retire {idx : RobSlot} {r : Reg} (h : s.Tracks ctx r) (ne : r ≠ 0)
    (busy : (s.rob idx).busy = true) (last : s.LastOk idx) : (s.retire idx).Tracks ctx r := by
  rcases h with ⟨k, map, busy', rd, value⟩ | ⟨none, value⟩
  · rcases eq_or_ne k idx with rfl | other
    · subst rd
      right
      refine ⟨fun j busy'' => ?_, ?_⟩
      · have ne' := ne_of_retire_busy busy''
        rw [retire_rob_of_ne ne'] at busy'' ⊢
        exact last map j ne' busy''
      · rw [← value]
        unfold Superscalar.retire
        dsimp only
        rw [if_pos ne, Function.update_self]
    · left
      refine ⟨k, map, ?_⟩
      rw [retire_rob_of_ne other]
      exact ⟨busy', rd, value⟩
  · right
    refine ⟨fun k busy' => ?_, ?_⟩
    · have ne' := ne_of_retire_busy busy'
      rw [retire_rob_of_ne ne'] at busy' ⊢
      exact none k busy'
    · rw [retire_registers_of_ne (none idx busy), value]

/-- An entry is retired, and the registers stay the interpreter's. -/
theorem Pending.retire {idx : RobSlot} (h : s.Pending ctx []) (busy : (s.rob idx).busy = true)
    (last : s.LastOk idx) : (s.retire idx).Pending ctx [] := by
  have some_busy := busyCount_pos busy
  refine
    { running := h.running
      sorted := h.sorted
      waits := trivial
      done := fun k out busy' => ?_
      fresh := fun k busy' => ?_
      memory := h.memory
      zero := ?_
      tracks := fun r ne unwritten => ?_
      count := ?_
      counted := ?_ }
  · have ne := ne_of_retire_busy busy'
    rw [retire_rob_of_ne ne] at busy' ⊢
    exact h.done k out busy'
  · have ne := ne_of_retire_busy busy'
    rw [retire_rob_of_ne ne] at busy' ⊢
    exact h.fresh k busy'
  · rw [← h.zero]
    unfold Superscalar.retire
    dsimp only
    split
    · rename_i writes
      exact Function.update_of_ne (Ne.symm writes) _ _
    · rfl
  · exact (h.tracks r ne unwritten).retire ne busy last
  · rw [busyCount_retire busy, ← h.count]
    rfl
  · show s.instructionsCommitted + 1 + UInt32.ofNat (s.robCount - 1) = s.instructionsIssued
    obtain ⟨n, eq⟩ := Nat.exists_eq_add_of_lt some_busy
    rw [Nat.zero_add, ← h.count] at eq
    rw [← h.counted, eq, Nat.add_sub_cancel, UInt32.ofNat_add, UInt32.add_assoc, UInt32.add_comm 1]
    rfl

/-- The loop of `superscalar_commit`. -/
theorem Pending.commitLoop {commitCount : Nat} {is : List RobSlot} (h : s.Pending ctx [])
    (ok : s.CommitOk commitCount is) :
    (s.commitLoop commitCount is).Pending ctx [] ∧
      (s.commitLoop commitCount is).instructionsIssued = s.instructionsIssued := by
  induction is generalizing s commitCount with
  | nil => exact ⟨h, rfl⟩
  | cons i is ih =>
    unfold Superscalar.commitLoop
    unfold CommitOk at ok
    by_cases room : commitCount < maxDispatchWidth
    · have ok' := ok room
      rw [if_pos room]
      dsimp only
      cases busy : (s.rob (s.slotAt i)).busy with
      | false =>
        rw [busy] at ok'
        exact ih h ok'
      | true =>
        rw [busy] at ok'
        rw [h.done _ (by simp) busy, h.fresh _ busy]
        exact ih (h.retire busy ok'.1) ok'.2
    · rw [if_neg room]
      exact ⟨h, rfl⟩

/-- Committing never raises the count of the buffer. -/
theorem commitLoop_robCount_le (commitCount : Nat) (is : List RobSlot) :
    (s.commitLoop commitCount is).robCount ≤ s.robCount := by
  induction is generalizing s commitCount with
  | nil => exact Nat.le_refl _
  | cons i is ih =>
    unfold Superscalar.commitLoop
    dsimp only
    split
    · split
      · exact ih commitCount
      · split
        · exact Nat.le_refl _
        · split
          · exact Nat.le_refl _
          · exact Nat.le_trans (ih (commitCount + 1)) (Nat.sub_le s.robCount 1)
    · exact Nat.le_refl _

/-- One of the entries that the loop comes to is retired. -/
theorem Pending.commitLoop_lt {commitCount : Nat} {is : List RobSlot} {i : RobSlot}
    (h : s.Pending ctx []) (room : commitCount < maxDispatchWidth) (mem : i ∈ is)
    (busy : (s.rob (s.slotAt i)).busy = true) :
    (s.commitLoop commitCount is).robCount < s.robCount := by
  induction is with
  | nil => cases mem
  | cons j is ih =>
    unfold Superscalar.commitLoop
    rw [if_pos room]
    dsimp only
    cases busy' : (s.rob (s.slotAt j)).busy with
    | false =>
      rcases List.mem_cons.1 mem with rfl | mem
      · rw [busy] at busy'
        cases busy'
      · exact ih mem
    | true =>
      rw [h.done _ (by simp) busy', h.fresh _ busy']
      have pos := busyCount_pos busy'
      rw [← h.count] at pos
      exact Nat.lt_of_le_of_lt (commitLoop_robCount_le (commitCount + 1) is)
        (Nat.sub_lt pos Nat.one_pos)

/-- `superscalar_commit` retires an entry if there is one. -/
theorem Pending.commit_robCount (h : s.Pending ctx []) : (superscalarCommit s).robCount ≤ s.robCount - 1 := by
  unfold superscalarCommit
  rcases Nat.eq_zero_or_pos s.robCount with none | some_busy
  · rw [none]
    exact Nat.le_trans (commitLoop_robCount_le 0 _) (Nat.le_of_eq none)
  · rw [h.count] at some_busy
    obtain ⟨k, mem⟩ := Finset.card_pos.1 some_busy
    have busy : (s.rob (s.slotAt (k - s.robHead))).busy = true := by
      have here : s.slotAt (k - s.robHead) = k := by
        apply Fin.ext
        rw [slotAt, Fin.val_add, Fin.val_sub]
        unfold maxRobEntries
        omega
      rw [here]
      exact (Finset.mem_filter.1 mem).2
    have room : 0 < maxDispatchWidth := by decide
    have less := h.commitLoop_lt room (List.mem_finRange (k - s.robHead)) busy
    omega

/-- Where no entry can be dispatched the stage changes nothing. -/
theorem dispatch_idle (idle : ∀ k, s.dispatchEntry k = some s) : superscalarDispatch s = some s := by
  unfold superscalarDispatch
  generalize List.finRange maxRobEntries = slots
  induction slots with
  | nil => rfl
  | cons i slots ih =>
    rw [List.foldlM_cons, idle i]
    exact ih

/-- `superscalar_step` keeps the invariant, and retires an entry if there is one. -/
theorem Pending.step (h : s.Pending ctx []) (ok : s.CommitOk 0 (List.finRange maxRobEntries)) :
    ∃ s', superscalarStep s = some s' ∧ s'.Pending ctx [] ∧
      s'.instructionsIssued = s.instructionsIssued ∧ s'.robCount ≤ s.robCount - 1 := by
  have idle (k : RobSlot) : s.dispatchEntry k = some s := by
    apply if_neg
    rintro ⟨busy, done⟩
    rw [h.done k (by simp) busy] at done
    cases done
  obtain ⟨pending, issued⟩ := h.commitLoop ok
  refine ⟨{ superscalarCommit s with cycles := s.cycles + 1 }, ?_, ?_, issued, ?_⟩
  · unfold superscalarStep
    rw [dispatch_idle idle]
    rfl
  · exact
      { running := pending.running
        sorted := pending.sorted
        waits := trivial
        done := pending.done
        fresh := pending.fresh
        memory := pending.memory
        zero := pending.zero
        tracks := pending.tracks
        count := pending.count
        counted := pending.counted }
  · exact h.commit_robCount

end Superscalar

end MiniHardware.Cpu
