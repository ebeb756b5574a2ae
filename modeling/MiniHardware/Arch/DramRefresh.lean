import MiniHardware.Arch.Dram

/-!
# Refresh and open rows (`mini-computer-arch/src/dram_controller.c`)

`dram_refresh` puts a bank in the refreshing state and leaves its row marked as
open; nothing but an activation or a precharge takes the bank out of that state.
A request for the row then counts as a hit as soon as the refresh is over, with
no activation since. Banks beyond those of the geometry, which addresses decode
to as well, never become active. Where no such request comes to its turn, what
leaves the queue leaves it from an active bank (`dram_pops_active`).
-/

namespace MiniHardware.Arch
open Lib

/-- The number of the banks that the loops go over. -/
def DRAMController.size (ctrl : DRAMController) : Nat := (ctrl.numBanks * ctrl.numRanks).toNat

/-- The next cycle begins with a refresh. -/
def refreshDue (ctrl : DRAMController) : Bool := (ctrl.cycles + 1) % ctrl.timing.tREFI.toUInt64 = 0

/-- The ghost part counts the cycles without bound, and has the request of the last cycle, and for each
bank the cycle of its last activation and whether it was refreshed since. -/
structure DramTrace where
  ctrl : DRAMController
  now : Nat
  popped : Option MemRequest
  activated : Fin dramBanks → Nat
  refreshed : Fin dramBanks → Bool

def traceInit (ctrl : DRAMController) : DramTrace := ⟨ctrl, 0, none, fun _ => 0, fun _ => false⟩

/-- `active_count` tells an activation. -/
def activates (ctrl : DRAMController) (i : Fin dramBanks) : Prop :=
  ((dramCycle ctrl).2.banks i).activeCount ≠ (ctrl.banks i).activeCount

instance activatesDecidable (ctrl : DRAMController) (i : Fin dramBanks) : Decidable (activates ctrl i) :=
  inferInstanceAs (Decidable (_ ≠ _))

def traceStep (s : DramTrace) : DramOp → DramTrace
  | .enqueue addr isWrite id => { s with ctrl := (dramEnqueue s.ctrl addr isWrite id).2, popped := none }
  | .cycle =>
    { ctrl := (dramCycle s.ctrl).2
      now := s.now + 1
      popped := (dramCycle s.ctrl).1
      activated := fun i => if activates s.ctrl i then s.now + 1 else s.activated i
      refreshed := fun i =>
        if activates s.ctrl i then false else s.refreshed i || (refreshDue s.ctrl && decide (i.val < s.ctrl.size)) }

/-- The request of the last cycle, if one left the queue, had its row open in an active bank, which
was activated long enough ago and not refreshed since. -/
def PopsActive (s : DramTrace) : Prop :=
  ∀ req, s.popped = some req →
    (s.ctrl.banks req.bank).state = .active ∧ (s.ctrl.banks req.bank).rowValid = true ∧
    (s.ctrl.banks req.bank).openRow = req.row ∧
    s.activated req.bank + s.ctrl.timing.tRCD.toNat ≤ s.now ∧ s.refreshed req.bank = false

/-- All the parameters are positive. -/
structure DRAMTiming.Positive (t : DRAMTiming) : Prop where
  rcd : 0 < t.tRCD
  rp : 0 < t.tRP
  rfc : 0 < t.tRFC

/-- A request that the policy may put first. -/
def MayBeFirst (ctrl : DRAMController) (req : MemRequest) : Prop :=
  match ctrl.policy with
  | .frFcfs | .parbs => req ∈ ctrl.reqQueue.toList
  | _ => 0 < ctrl.reqQueue.count ∧ req = ctrl.reqQueue.cells ctrl.reqQueue.head

/-- The clock is far from its end, and a request that may be first and finds its row open in a bank
that will be ready, finds it in a bank of the geometry that is not in the refreshing state. -/
def CycleOk (ctrl : DRAMController) : Prop :=
  ctrl.cycles.toNat + 1 + ctrl.timing.tRCD.toNat < 2 ^ 64 ∧ ctrl.cycles.toNat + 1 + ctrl.timing.tRFC.toNat < 2 ^ 64 ∧
  ∀ req, MayBeFirst ctrl req → rowHit ctrl.banks req = true →
    dramBankReady (ctrl.banks req.bank) (ctrl.cycles + 1) = true →
    req.bank.val < ctrl.size ∧ (ctrl.banks req.bank).state ≠ .refreshing

/-- The condition on a call. -/
def DramOpOk (s : DramTrace) : DramOp → Prop
  | .enqueue .. => True
  | .cycle => CycleOk s.ctrl

/-! ## What a cycle does to the banks -/

variable {ctrl : DRAMController}

/-- A loop that keeps the requests of a queue in a set that does not depend on the priority. -/
theorem parbs_rank_all {P : MemRequest → Prop} (stable : ∀ req, P req → P { req with priority := 3 })
    (valid : ctrl.reqQueue.Valid) (all : ∀ req ∈ ctrl.reqQueue.toList, P req) :
    ∀ req ∈ (dramParbsRank ctrl).reqQueue.toList, P req := by
  let Holds (q : Ring MemRequest dramReqQueueSize) : Prop :=
    q.Valid ∧ q.count = ctrl.reqQueue.count ∧ ∀ req ∈ q.toList, P req
  have batch : Holds (dramParbsBatch ctrl).reqQueue := by
    apply List.foldlRecOn (motive := Holds) _ _ ⟨valid, rfl, all⟩
    rintro q ⟨valid, count, all⟩ i mem
    unfold batchRound
    dsimp only
    split
    · have lt : i < q.count := by
        rw [count]
        exact List.mem_range.1 mem
      refine ⟨valid.set i _, count, fun req mem => ?_⟩
      rw [Ring.toList_set valid lt] at mem
      rcases List.mem_or_eq_of_mem_set mem with old | rfl
      · exact all req old
      · apply stable
        apply all
        have here : i < q.toList.length := by rwa [Ring.length_toList]
        rw [← Ring.getElem_toList here]
        exact List.getElem_mem here
    · exact ⟨valid, count, all⟩
  have count := batch.2.1
  have rank : Holds (dramParbsRank ctrl).reqQueue := by
    apply List.foldlRecOn (motive := Holds) _ _ batch
    intro q h i mem
    apply List.foldlRecOn (motive := Holds) _ _ h
    rintro q ⟨valid, count', all⟩ j mem'
    have hi : i < q.count := by
      rw [count', ← count]
      exact List.mem_range.1 mem
    have hj : j < q.count := by
      rw [count', ← count]
      exact List.mem_range.1 (List.mem_of_mem_drop mem')
    unfold rankRound
    split
    · refine ⟨valid.swap i j, count', fun req mem => ?_⟩
      exact all req ((Ring.toList_swap valid hi hj).mem_iff.1 mem)
    · exact ⟨valid, count', all⟩
  exact rank.2.2

/-- The request that the policy puts first, up to its priority. -/
theorem applyPolicy_first (valid : ctrl.reqQueue.Valid) (pos : 0 < ctrl.reqQueue.count) :
    let best := (applyPolicy ctrl).reqQueue.cells (applyPolicy ctrl).reqQueue.head
    ∃ req, MayBeFirst ctrl req ∧ req.bank = best.bank ∧ req.row = best.row := by
  have ranked : (∃ req ∈ ctrl.reqQueue.toList,
      req.bank = ((dramParbsRank ctrl).reqQueue.cells (dramParbsRank ctrl).reqQueue.head).bank ∧
      req.row = ((dramParbsRank ctrl).reqQueue.cells (dramParbsRank ctrl).reqQueue.head).row) := by
    have all := @parbs_rank_all ctrl
      (fun best => ∃ req ∈ ctrl.reqQueue.toList, req.bank = best.bank ∧ req.row = best.row) (fun _ h => h) valid (fun req mem => ⟨req, mem, rfl, rfl⟩)
    apply all
    rw [Ring.toList_pop]
    · exact List.mem_cons_self
    · rw [(dram_parbs_rank_rearranges valid).count]
      exact pos
  unfold applyPolicy MayBeFirst
  cases ctrl.policy with
  | frFcfs => exact ranked
  | parbs => exact ranked
  | _ => exact ⟨_, ⟨pos, rfl⟩, rfl, rfl⟩

theorem applyPolicy_banks (ctrl : DRAMController) : (applyPolicy ctrl).banks = ctrl.banks ∧
    (applyPolicy ctrl).cycles = ctrl.cycles ∧ (applyPolicy ctrl).timing = ctrl.timing := by
  unfold applyPolicy
  cases ctrl.policy <;> exact ⟨rfl, rfl, rfl⟩

/-- What a command does: nothing, or an activation, a precharge or a hit in the bank of the first request. -/
theorem serveBest_cases (ctrl : DRAMController) :
    let best := ctrl.reqQueue.cells ctrl.reqQueue.head
    let bank := ctrl.banks best.bank
    ((serveBest ctrl).1 = none ∧ (serveBest ctrl).2.banks = ctrl.banks) ∨
    ((serveBest ctrl).1 = none ∧ ∃ misses, (serveBest ctrl).2.banks = Function.update ctrl.banks best.bank
      { dramBankActivate bank best.row ctrl.cycles ctrl.timing with rowMissCount := misses }) ∨
    ((serveBest ctrl).1 = none ∧ ∃ misses, (serveBest ctrl).2.banks = Function.update ctrl.banks best.bank
      { dramBankPrecharge bank ctrl.cycles ctrl.timing with rowMissCount := misses }) ∨
    (dramBankReady bank ctrl.cycles = true ∧ bank.rowValid = true ∧ bank.openRow = best.row ∧
      (serveBest ctrl).1 = some best ∧ ∃ hits, (serveBest ctrl).2.banks = Function.update ctrl.banks best.bank
        { bank with rowHitCount := hits }) := by
  unfold serveBest
  dsimp only
  split
  · exact .inl ⟨rfl, rfl⟩
  rename_i ready
  split
  · exact .inr (.inl ⟨rfl, _, rfl⟩)
  rename_i open_
  split
  · exact .inr (.inr (.inl ⟨rfl, _, rfl⟩))
  rename_i row
  refine .inr (.inr (.inr ⟨?_, ?_, not_ne_iff.1 row, rfl, _, rfl⟩))
  · simpa using ready
  · simpa using open_

theorem serveBest_frame (ctrl : DRAMController) : (serveBest ctrl).2.cycles = ctrl.cycles ∧
    (serveBest ctrl).2.timing = ctrl.timing ∧ (serveBest ctrl).2.size = ctrl.size := by
  unfold serveBest
  dsimp only
  split
  · exact ⟨rfl, rfl, rfl⟩
  split
  · exact ⟨rfl, rfl, rfl⟩
  split <;> exact ⟨rfl, rfl, rfl⟩

/-- Before it schedules, a cycle refreshes a bank of the geometry or lets it go on. -/
theorem advance_bank (ctrl : DRAMController) (i : Fin dramBanks) : (advance ctrl).banks i =
    if i.val < ctrl.size then
      if refreshDue ctrl then
        { ctrl.banks i with
          state := .refreshing
          readyTime := ctrl.cycles + 1 + ctrl.timing.tRFC.toUInt64 }
      else updateBank (ctrl.cycles + 1) (ctrl.banks i)
    else ctrl.banks i := by
  unfold advance refreshDue DRAMController.size
  dsimp only
  by_cases due : (ctrl.cycles + 1) % ctrl.timing.tREFI.toUInt64 = 0
  · rw [if_pos due, if_pos (decide_eq_true due)]
    unfold dramRefresh
    dsimp only
    split <;> rfl
  · rw [if_neg due, decide_eq_false due]
    rfl

theorem advance_frame (ctrl : DRAMController) : (advance ctrl).cycles = ctrl.cycles + 1 ∧
    (advance ctrl).timing = ctrl.timing ∧ (advance ctrl).size = ctrl.size ∧
    (advance ctrl).reqQueue = ctrl.reqQueue ∧ (advance ctrl).policy = ctrl.policy := by
  unfold advance
  dsimp only
  split <;> exact ⟨rfl, rfl, rfl, rfl, rfl⟩

theorem dramCycle_eq (ctrl : DRAMController) : (dramCycle ctrl).1 = (dramScheduleCommand (advance ctrl)).1 ∧
    (dramCycle ctrl).2.banks = (dramScheduleCommand (advance ctrl)).2.banks ∧
    (dramCycle ctrl).2.cycles = (dramScheduleCommand (advance ctrl)).2.cycles ∧
    (dramCycle ctrl).2.timing = (dramScheduleCommand (advance ctrl)).2.timing ∧
    (dramCycle ctrl).2.size = (dramScheduleCommand (advance ctrl)).2.size := by
  unfold dramCycle
  dsimp only
  split <;> exact ⟨rfl, rfl, rfl, rfl, rfl⟩

theorem dramCycle_frame (ctrl : DRAMController) : (dramCycle ctrl).2.cycles = ctrl.cycles + 1 ∧
    (dramCycle ctrl).2.timing = ctrl.timing ∧ (dramCycle ctrl).2.size = ctrl.size := by
  obtain ⟨cycles, timing, size, -, -⟩ := advance_frame ctrl
  obtain ⟨-, -, cycles', timing', size'⟩ := dramCycle_eq ctrl
  rw [cycles', timing', size']
  unfold dramScheduleCommand
  split
  · exact ⟨cycles, timing, size⟩
  · obtain ⟨served, served', served''⟩ := serveBest_frame (applyPolicy (advance ctrl))
    obtain ⟨-, policy, policy'⟩ := applyPolicy_banks (advance ctrl)
    have policy'' : (applyPolicy (advance ctrl)).size = (advance ctrl).size := by
      unfold applyPolicy
      cases (advance ctrl).policy <;> rfl
    rw [served, served', served'', policy, policy', policy'']
    exact ⟨cycles, timing, size⟩

/-! ## The invariant -/

/-- An open row was activated, with its delay in the ready time, and the bank is not refreshed since or
in the refreshing state. -/
def BankTracked (t : DRAMTiming) (activated : Nat) (refreshed : Bool) (bank : DRAMBank) : Prop :=
  bank.rowValid = true → bank.state = .refreshing ∨
    (bank.state = .activating ∨ bank.state = .active) ∧ bank.readyTime.toNat = activated + t.tRCD.toNat ∧
      refreshed = false

structure DramTracked (s : DramTrace) : Prop where
  accounts : ∃ accepted popped, Accounts accepted popped s.ctrl
  clock : s.now = s.ctrl.cycles.toNat
  banks : ∀ i, BankTracked s.ctrl.timing (s.activated i) (s.refreshed i) (s.ctrl.banks i)

variable {s : DramTrace} {i : Fin dramBanks}

/-- The loop of `dram_cycle` changes the state of a bank only. -/
theorem updateBank_frame (cycles : UInt64) (bank : DRAMBank) :
    (updateBank cycles bank).rowValid = bank.rowValid ∧ (updateBank cycles bank).openRow = bank.openRow ∧
    (updateBank cycles bank).readyTime = bank.readyTime ∧ (updateBank cycles bank).activeCount = bank.activeCount := by
  unfold updateBank
  split
  · exact ⟨rfl, rfl, rfl, rfl⟩
  split <;> exact ⟨rfl, rfl, rfl, rfl⟩

/-- An activated bank becomes active when it is ready, and stays so. -/
theorem updateBank_open {cycles : UInt64} {bank : DRAMBank} (h : bank.state = .activating ∨ bank.state = .active) :
    (updateBank cycles bank).state = .activating ∨ (updateBank cycles bank).state = .active := by
  unfold updateBank
  split
  · exact .inr rfl
  split
  · rename_i precharging
    rcases h with eq | eq <;> rw [eq] at precharging <;> cases precharging.1
  · exact h

theorem updateBank_ready {cycles : UInt64} {bank : DRAMBank} (h : bank.state = .activating ∨ bank.state = .active)
    (ready : dramBankReady bank cycles = true) : (updateBank cycles bank).state = .active := by
  have after : cycles ≥ bank.readyTime := of_decide_eq_true ready
  rcases h with eq | eq
  · rw [updateBank, if_pos ⟨eq, after⟩]
  · have no : ∀ state, state ≠ BankState.active → ¬ (bank.state = state ∧ cycles ≥ bank.readyTime) := by
      rintro state ne ⟨eq', -⟩
      exact ne (eq'.symm.trans eq)
    rw [updateBank, if_neg (no _ (by decide)), if_neg (no _ (by decide))]
    exact eq

theorem updateBank_refreshing {cycles : UInt64} {bank : DRAMBank} (h : bank.state = .refreshing) :
    updateBank cycles bank = bank := by
  have no : ∀ state, state ≠ BankState.refreshing → ¬ (bank.state = state ∧ cycles ≥ bank.readyTime) := by
    rintro state ne ⟨eq, -⟩
    exact ne (eq.symm.trans h)
  rw [updateBank, if_neg (no _ (by decide)), if_neg (no _ (by decide))]

/-- The ghost mark of the refresh that a cycle begins with. -/
def refreshMark (s : DramTrace) (i : Fin dramBanks) : Bool :=
  s.refreshed i || (refreshDue s.ctrl && decide (i.val < s.ctrl.size))

theorem DramTracked.refreshed_mark (h : DramTracked s) (i : Fin dramBanks) :
    BankTracked s.ctrl.timing (s.activated i) (refreshMark s i) ((advance s.ctrl).banks i) := by
  rw [advance_bank]
  by_cases lt : i.val < s.ctrl.size
  · rw [if_pos lt]
    cases due : refreshDue s.ctrl with
    | true =>
      rw [if_pos rfl]
      exact fun _ => .inl rfl
    | false =>
      rw [if_neg Bool.false_ne_true]
      intro valid
      obtain ⟨rowValid, -, readyTime, -⟩ := updateBank_frame (s.ctrl.cycles + 1) (s.ctrl.banks i)
      rw [rowValid] at valid
      rcases h.banks i valid with refreshing | ⟨open_, ready, fresh⟩
      · rw [updateBank_refreshing refreshing]
        exact .inl refreshing
      · refine .inr ⟨updateBank_open open_, by rw [readyTime]; exact ready, ?_⟩
        rw [refreshMark, fresh, due]
        rfl
  · rw [if_neg lt]
    intro valid
    rcases h.banks i valid with refreshing | ⟨open_, ready, fresh⟩
    · exact .inl refreshing
    · refine .inr ⟨open_, ready, ?_⟩
      rw [refreshMark, fresh, decide_eq_false lt, Bool.and_false]
      rfl

/-- In a cycle that meets its condition, a request that finds its row open in a ready bank finds the
bank active. -/
theorem DramTracked.hit (h : DramTracked s) (positive : s.ctrl.timing.Positive) (ok : CycleOk s.ctrl)
    {req : MemRequest} (first : MayBeFirst s.ctrl req)
    (ready : dramBankReady ((advance s.ctrl).banks req.bank) (s.ctrl.cycles + 1) = true)
    (valid : ((advance s.ctrl).banks req.bank).rowValid = true)
    (row : ((advance s.ctrl).banks req.bank).openRow = req.row) :
    ((advance s.ctrl).banks req.bank).state = .active ∧
    s.activated req.bank + s.ctrl.timing.tRCD.toNat ≤ s.now + 1 ∧ refreshMark s req.bank = false := by
  obtain ⟨in_time, in_time', served⟩ := ok
  have next : (s.ctrl.cycles + 1).toNat = s.ctrl.cycles.toNat + 1 := by
    rw [UInt64.toNat_add]
    exact Nat.mod_eq_of_lt (by show s.ctrl.cycles.toNat + 1 < 2 ^ 64; omega)
  -- the bank is not being refreshed, so that its row and ready time are those of before
  have same : ¬ req.bank.val < s.ctrl.size ∧ (advance s.ctrl).banks req.bank = s.ctrl.banks req.bank ∨
      req.bank.val < s.ctrl.size ∧ refreshDue s.ctrl = false ∧
        (advance s.ctrl).banks req.bank = updateBank (s.ctrl.cycles + 1) (s.ctrl.banks req.bank) := by
    rw [advance_bank] at ready ⊢
    split
    · rename_i lt
      rw [if_pos lt] at ready
      split
      · rename_i due
        rw [if_pos due] at ready
        have past : s.ctrl.cycles + 1 + s.ctrl.timing.tRFC.toUInt64 ≤ s.ctrl.cycles + 1 := of_decide_eq_true ready
        rw [UInt64.le_iff_toNat_le, UInt64.toNat_add, next, UInt32.toNat_toUInt64,
          Nat.mod_eq_of_lt in_time'] at past
        have pos : 0 < s.ctrl.timing.tRFC.toNat := positive.rfc
        omega
      · rename_i due
        exact .inr ⟨lt, Bool.eq_false_of_not_eq_true due, rfl⟩
    · rename_i beyond
      exact .inl ⟨beyond, rfl⟩
  have before : dramBankReady (s.ctrl.banks req.bank) (s.ctrl.cycles + 1) = true ∧
      (s.ctrl.banks req.bank).rowValid = true ∧ (s.ctrl.banks req.bank).openRow = req.row := by
    rcases same with ⟨-, eq⟩ | ⟨-, -, eq⟩
    · rw [eq] at ready valid row
      exact ⟨ready, valid, row⟩
    · obtain ⟨rowValid, openRow, readyTime, -⟩ := updateBank_frame (s.ctrl.cycles + 1) (s.ctrl.banks req.bank)
      rw [eq] at ready valid row
      rw [dramBankReady, readyTime] at ready
      exact ⟨ready, rowValid.symm.trans valid, openRow.symm.trans row⟩
  obtain ⟨ready', valid', row'⟩ := before
  have hit : rowHit s.ctrl.banks req = true := by
    rw [rowHit, valid', row', Bool.true_and, BEq.rfl]
  obtain ⟨lt, not_refreshing⟩ := served req first hit ready'
  obtain ⟨open_, delay, fresh⟩ := (h.banks req.bank valid').resolve_left not_refreshing
  have after : (s.ctrl.banks req.bank).readyTime.toNat ≤ s.ctrl.cycles.toNat + 1 := by
    rw [← next, ← UInt64.le_iff_toNat_le]
    exact of_decide_eq_true ready'
  rcases same with ⟨beyond, -⟩ | ⟨-, due, eq⟩
  · exact absurd lt beyond
  · rw [eq]
    refine ⟨updateBank_ready open_ ready', ?_, ?_⟩
    · rw [h.clock, ← delay]
      exact after
    · rw [refreshMark, fresh, due]
      rfl

/-- Other counts of hits and misses. -/
theorem BankTracked.of_eq {t : DRAMTiming} {activated : Nat} {refreshed : Bool} {bank bank' : DRAMBank}
    (h : BankTracked t activated refreshed bank) (state : bank'.state = bank.state)
    (rowValid : bank'.rowValid = bank.rowValid) (ready : bank'.readyTime = bank.readyTime) :
    BankTracked t activated refreshed bank' := by
  rw [BankTracked, state, rowValid, ready]
  exact h

theorem DramTracked.enqueue (h : DramTracked s) (addr : UInt64) (isWrite : Bool) (id : UInt32) :
    DramTracked (traceStep s (.enqueue addr isWrite id)) := by
  obtain ⟨accepted, popped, accounts⟩ := h.accounts
  have frame : (dramEnqueue s.ctrl addr isWrite id).2.cycles = s.ctrl.cycles ∧
      (dramEnqueue s.ctrl addr isWrite id).2.banks = s.ctrl.banks ∧
      (dramEnqueue s.ctrl addr isWrite id).2.timing = s.ctrl.timing := by
    unfold dramEnqueue
    split <;> exact ⟨rfl, rfl, rfl⟩
  refine ⟨⟨_, _, accounts.enqueue addr isWrite id⟩, ?_, fun i => ?_⟩
  · show s.now = (dramEnqueue s.ctrl addr isWrite id).2.cycles.toNat
    rw [frame.1]
    exact h.clock
  · show BankTracked (dramEnqueue s.ctrl addr isWrite id).2.timing _ _ ((dramEnqueue s.ctrl addr isWrite id).2.banks i)
    rw [frame.2.1, frame.2.2]
    exact h.banks i

/-- What a cycle leaves of a bank, and the request that leaves the queue. -/
theorem dramCycle_cases (valid : ctrl.reqQueue.Valid) :
    ((dramCycle ctrl).1 = none ∧ (dramCycle ctrl).2.banks = (advance ctrl).banks) ∨
    ∃ req, MayBeFirst ctrl req ∧ ∃ bank, (dramCycle ctrl).2.banks = Function.update (advance ctrl).banks req.bank bank ∧
      ((dramCycle ctrl).1 = none ∧ bank.activeCount = ((advance ctrl).banks req.bank).activeCount + 1 ∧
          bank.state = .activating ∧ bank.readyTime = ctrl.cycles + 1 + ctrl.timing.tRCD.toUInt64 ∨
        (dramCycle ctrl).1 = none ∧ bank.activeCount = ((advance ctrl).banks req.bank).activeCount ∧
          bank.rowValid = false ∨
        dramBankReady ((advance ctrl).banks req.bank) (ctrl.cycles + 1) = true ∧
          ((advance ctrl).banks req.bank).rowValid = true ∧ ((advance ctrl).banks req.bank).openRow = req.row ∧
          (∃ best, (dramCycle ctrl).1 = some best ∧ best.bank = req.bank ∧ best.row = req.row) ∧
          ∃ hits, bank = { (advance ctrl).banks req.bank with rowHitCount := hits }) := by
  obtain ⟨popped, banks, -, -, -⟩ := dramCycle_eq ctrl
  obtain ⟨cycles, timing, -, queue, policy⟩ := advance_frame ctrl
  rw [popped, banks]
  unfold dramScheduleCommand
  split
  · exact .inl ⟨rfl, rfl⟩
  · rename_i more
    have pos : 0 < (advance ctrl).reqQueue.count := Nat.pos_of_ne_zero more
    have valid' : (advance ctrl).reqQueue.Valid := by
      rw [queue]
      exact valid
    obtain ⟨req, first, bank_eq, row_eq⟩ := applyPolicy_first valid' pos
    have first' : MayBeFirst ctrl req := by
      unfold MayBeFirst at first ⊢
      rw [queue, policy] at first
      exact first
    obtain ⟨same, same', same''⟩ := applyPolicy_banks (advance ctrl)
    have served := serveBest_cases (applyPolicy (advance ctrl))
    dsimp only at served
    rw [same, same', same'', cycles, timing, ← bank_eq, ← row_eq] at served
    rcases served with ⟨no, eq⟩ | ⟨no, misses, eq⟩ | ⟨no, misses, eq⟩ | ⟨ready, open_, row, hit, hits, eq⟩
    · exact .inl ⟨no, eq⟩
    · exact .inr ⟨req, first', _, eq, .inl ⟨no, rfl, rfl, rfl⟩⟩
    · exact .inr ⟨req, first', _, eq, .inr (.inl ⟨no, rfl, rfl⟩)⟩
    · exact .inr ⟨req, first', _, eq, .inr (.inr ⟨ready, open_, row, ⟨_, hit, bank_eq.symm, row_eq.symm⟩, hits, rfl⟩)⟩

section Cycle

attribute [local irreducible] dramCycle

theorem advance_activeCount (ctrl : DRAMController) (i : Fin dramBanks) :
    ((advance ctrl).banks i).activeCount = (ctrl.banks i).activeCount := by
  rw [advance_bank]
  split
  · split
    · rfl
    · exact (updateBank_frame _ _).2.2.2
  · rfl

/-- A bank that a cycle leaves as it was after the refresh and the update, up to the counts of hits. -/
theorem DramTrace.untouched
    (count : ((dramCycle s.ctrl).2.banks i).activeCount = ((advance s.ctrl).banks i).activeCount) :
    (traceStep s .cycle).activated i = s.activated i ∧ (traceStep s .cycle).refreshed i = refreshMark s i := by
  have no : ¬ activates s.ctrl i := by
    rw [activates, not_ne_iff, count]
    exact advance_activeCount s.ctrl i
  exact ⟨if_neg no, if_neg no⟩

theorem DramTracked.cycle (h : DramTracked s) (positive : s.ctrl.timing.Positive) (ok : CycleOk s.ctrl) :
    DramTracked (traceStep s .cycle) ∧ PopsActive (traceStep s .cycle) := by
  obtain ⟨accepted, popped, accounts⟩ := h.accounts
  obtain ⟨cycles, timing, -⟩ := dramCycle_frame s.ctrl
  have next : (s.ctrl.cycles + 1).toNat = s.ctrl.cycles.toNat + 1 := by
    rw [UInt64.toNat_add]
    exact Nat.mod_eq_of_lt (by have := ok.1; show s.ctrl.cycles.toNat + 1 < 2 ^ 64; omega)
  have clock : (traceStep s .cycle).now = (traceStep s .cycle).ctrl.cycles.toNat := by
    show s.now + 1 = (dramCycle s.ctrl).2.cycles.toNat
    rw [cycles, next, h.clock]
  have step_timing : (traceStep s .cycle).ctrl.timing = s.ctrl.timing := timing
  -- the banks that no command goes to
  have other (i : Fin dramBanks) (eq : (dramCycle s.ctrl).2.banks i = (advance s.ctrl).banks i) :
      BankTracked (traceStep s .cycle).ctrl.timing ((traceStep s .cycle).activated i)
        ((traceStep s .cycle).refreshed i) ((traceStep s .cycle).ctrl.banks i) := by
    obtain ⟨activated, refreshed⟩ := DramTrace.untouched (by rw [eq])
    have bank : (traceStep s .cycle).ctrl.banks i = (advance s.ctrl).banks i := eq
    rw [step_timing, activated, refreshed, bank]
    exact h.refreshed_mark i
  rcases dramCycle_cases accounts.valid with ⟨no, banks⟩ | ⟨req, first, bank, banks, command⟩
  · constructor
    · exact ⟨⟨_, _, accounts.cycle⟩, clock, fun i => other i (by rw [banks])⟩
    · intro req eq
      cases no.symm.trans eq
  have here : (traceStep s .cycle).ctrl.banks req.bank = bank := by
    show (dramCycle s.ctrl).2.banks req.bank = bank
    rw [banks, Function.update_self]
  have tracked (at_bank : BankTracked s.ctrl.timing ((traceStep s .cycle).activated req.bank)
      ((traceStep s .cycle).refreshed req.bank) bank) : DramTracked (traceStep s .cycle) := by
    refine ⟨⟨_, _, accounts.cycle⟩, clock, fun i => ?_⟩
    rcases eq_or_ne i req.bank with rfl | ne
    · rw [here, step_timing]
      exact at_bank
    · exact other i (by rw [banks, Function.update_of_ne ne])
  rcases command with ⟨no, count, state, ready⟩ | ⟨no, count, closed⟩ | ⟨ready, valid, row, ⟨best, hit, bank_eq, row_eq⟩, hits, rfl⟩
  · constructor
    · apply tracked
      have yes : activates s.ctrl req.bank := by
        have bank_eq : (dramCycle s.ctrl).2.banks req.bank = bank := here
        rw [activates, bank_eq, count, advance_activeCount]
        intro eq
        exact absurd (UInt64.add_eq_left.1 eq) (by decide)
      have activated : (traceStep s .cycle).activated req.bank = s.now + 1 := if_pos yes
      have refreshed : (traceStep s .cycle).refreshed req.bank = false := if_pos yes
      intro _
      refine .inr ⟨.inl state, ?_, refreshed⟩
      rw [ready, activated, UInt64.toNat_add, next, UInt32.toNat_toUInt64, Nat.mod_eq_of_lt ok.1, h.clock]
    · intro req eq
      cases no.symm.trans eq
  · constructor
    · apply tracked
      intro open_
      rw [closed] at open_
      cases open_
    · intro req eq
      cases no.symm.trans eq
  · have count : ((dramCycle s.ctrl).2.banks req.bank).activeCount =
        ((advance s.ctrl).banks req.bank).activeCount := by
      have bank_eq : (dramCycle s.ctrl).2.banks req.bank = _ := here
      rw [bank_eq]
    obtain ⟨activated, refreshed⟩ := DramTrace.untouched count
    obtain ⟨state, delay, fresh⟩ := h.hit positive ok first ready valid row
    constructor
    · apply tracked
      rw [activated, refreshed]
      exact (h.refreshed_mark req.bank).of_eq rfl rfl rfl
    · intro req' eq
      obtain rfl : best = req' := Option.some.inj (hit.symm.trans eq)
      rw [bank_eq, row_eq, here, step_timing, activated, refreshed]
      exact ⟨state, valid, row, delay, fresh⟩

/-! ## Runs -/

theorem DramTracked.init (numBanks numRanks : UInt32) (banksIn : (numBanks * numRanks).toNat ≤ dramBanks)
    (timing : Option DRAMTiming) (policy : SchedulingPolicy) :
    DramTracked (traceInit (dramInit numBanks numRanks banksIn timing policy)) where
  accounts := ⟨[], [], accounts_init numBanks numRanks banksIn timing policy⟩
  clock := rfl
  banks _ valid := by cases valid

/-- In every run, with positive timing, whose cycles meet the condition, each request that leaves the
queue leaves it from an active bank that was not refreshed since its row was activated. -/
theorem dram_pops_active (numBanks numRanks : UInt32) (banksIn : (numBanks * numRanks).toNat ≤ dramBanks)
    (timing : Option DRAMTiming) (policy : SchedulingPolicy)
    (positive : (timing.getD ddr4_3200Default).Positive) (ops : List DramOp)
    (guard : Guarded traceStep DramOpOk (traceInit (dramInit numBanks numRanks banksIn timing policy)) ops) :
    PopsActive (run traceStep (traceInit (dramInit numBanks numRanks banksIn timing policy)) ops) := by
  have keep (s : DramTrace) (op : DramOp)
      (h : DramTracked s ∧ s.ctrl.timing.Positive ∧ PopsActive s) (ok : DramOpOk s op) :
      DramTracked (traceStep s op) ∧ (traceStep s op).ctrl.timing.Positive ∧ PopsActive (traceStep s op) := by
    obtain ⟨tracked, positive, -⟩ := h
    cases op with
    | enqueue addr isWrite id =>
      refine ⟨tracked.enqueue addr isWrite id, ?_, ?_⟩
      · show (dramEnqueue s.ctrl addr isWrite id).2.timing.Positive
        unfold dramEnqueue
        split <;> exact positive
      · intro req eq
        cases eq
    | cycle =>
      obtain ⟨tracked', pops⟩ := tracked.cycle positive ok
      refine ⟨tracked', ?_, pops⟩
      have timing : (traceStep s .cycle).ctrl.timing = s.ctrl.timing := (dramCycle_frame s.ctrl).2.1
      rw [timing]
      exact positive
  have start := DramTracked.init numBanks numRanks banksIn timing policy
  have none_yet : PopsActive (traceInit (dramInit numBanks numRanks banksIn timing policy)) := by
    intro req eq
    cases eq
  exact (guarded_invariant keep ⟨start, positive, none_yet⟩ guard).2.2

end Cycle

/-- Every command takes a cycle, and every third cycle is a refresh. -/
def quickTiming : DRAMTiming := ⟨1, 1, 1, 3, by decide⟩

/-- A request is activated and served. -/
theorem dram_pops_active_once :
    PopsActive (run traceStep (traceInit (dramInit 16 1 (by decide) (some quickTiming) .fcfs))
      [.enqueue 0 false 1, .cycle, .cycle]) := by
  apply dram_pops_active 16 1 (by decide) (some quickTiming) .fcfs ⟨by decide, by decide, by decide⟩
  refine ⟨trivial, ⟨by decide, by decide, ?_⟩, ⟨by decide, by decide, ?_⟩, trivial⟩
  · rintro req ⟨-, rfl⟩ - -
    exact ⟨by decide, by decide⟩
  · rintro req ⟨-, rfl⟩ - -
    exact ⟨by decide, by decide⟩

/-- The second request comes between the hit of the first and the refresh, and is served in the
refreshing state. -/
theorem dram_pops_refreshing :
    ¬ PopsActive (run traceStep (traceInit (dramInit 16 1 (by decide) (some quickTiming) .fcfs))
      [.enqueue 0 false 1, .cycle, .cycle, .enqueue 0 false 2, .cycle, .cycle]) := by
  intro pops
  obtain ⟨active, -⟩ := pops _ rfl
  exact absurd active (by decide)

end MiniHardware.Arch
