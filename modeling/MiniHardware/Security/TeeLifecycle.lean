import MiniHardware.Lib.RoundRobin
import MiniHardware.Security.Tee

/-!
# The life cycle of enclaves

What the return codes of the calls say about each slot, beside the manager's own
count and states. They agree in every run that destroys only what there is and
attests for no destroyed slot (`tee_lifecycle_iff`). The scheduler gives every
enclave that can be entered its turn, whatever the others do (`teeScheduler_serves`).
Reports for a remote party stay valid, whatever is called after (`teeVerifyReport_attests`).
-/

namespace MiniHardware.Security
open Lib

/-- What the caller knows of a slot. -/
inductive Life where
  | absent | created | ready
deriving DecidableEq

/-- The slots with an enclave. -/
@[irreducible] def liveSlots (life : Fin teeMaxEnclaves → Life) : Finset (Fin teeMaxEnclaves) :=
  Finset.univ.filter fun i => life i ≠ .absent

/-- A slot is live when the caller knows of an enclave in it. -/
theorem mem_liveSlots {life : Fin teeMaxEnclaves → Life} {i : Fin teeMaxEnclaves} :
    i ∈ liveSlots life ↔ life i ≠ .absent := by
  unfold liveSlots
  exact Finset.mem_filter_univ i

inductive TeeOp where
  | create (code : List UInt8) (signerHash : Digest) (productId : UInt16) (attributes : UInt32)
  | initEnclave (enclaveId : Int32)
  | enter (enclaveId : Int32) (data : List UInt8) (outputLen : Option Nat)
  | destroy (enclaveId : Int32)
  | attestLocal (enclaveId targetId : Int32)
  | attestRemote (enclaveId : Int32) (challenge random : Digest)

/-- The manager, and what the return codes so far say of each slot. -/
structure TeeRun where
  tee : TEEManager
  life : Fin teeMaxEnclaves → Life

def teeStart (masterKey : Digest) (baseEpc epcSize : UInt64) (hasHw : Bool) : TeeRun :=
  ⟨teeInit masterKey baseEpc epcSize hasHw, fun _ => .absent⟩

/-- The slot of an identifier gets to another point of its life, if the call returned true. -/
def advance (life : Fin teeMaxEnclaves → Life) (enclaveId : Int32) (ok : Bool) (next : Life) :
    Fin teeMaxEnclaves → Life :=
  match ok, teeSlot enclaveId with
  | true, some slot => Function.update life slot next
  | _, _ => life

/-- A call that returned true moves the slot of its identifier. -/
theorem advance_of_slot {life : Fin teeMaxEnclaves → Life} {enclaveId : Int32} {slot : Fin teeMaxEnclaves}
    (found : teeSlot enclaveId = some slot) (next : Life) :
    advance life enclaveId true next = Function.update life slot next := by
  rw [advance.eq_def, found]

def teeStep (s : TeeRun) : TeeOp → TeeRun
  | .create code signerHash productId attributes =>
    let (id, tee) := teeCreateEnclave s.tee code signerHash productId attributes
    { tee := tee
      life :=
        match id with
        | some slot => Function.update s.life slot .created
        | none => s.life }
  | .initEnclave enclaveId =>
    let (ok, tee) := teeInitEnclave s.tee enclaveId
    ⟨tee, advance s.life enclaveId ok .ready⟩
  | .enter enclaveId data outputLen => { s with tee := (teeEnter s.tee enclaveId data outputLen).2.2 }
  | .destroy enclaveId =>
    let (ok, tee) := teeDestroy s.tee enclaveId
    ⟨tee, advance s.life enclaveId ok .absent⟩
  | .attestLocal _ _ => s
  | .attestRemote _ _ _ => s

/-- The identifier names an enclave that was created and initialised and not destroyed since. -/
def Ready (s : TeeRun) (enclaveId : Int32) : Prop := ∃ slot, teeSlot enclaveId = some slot ∧ s.life slot = .ready

/-- What succeeds, does so for ready enclaves only. -/
def RightlySucceeds (s : TeeRun) : TeeOp → Prop
  | .enter enclaveId data outputLen => (teeEnter s.tee enclaveId data outputLen).1 = true → Ready s enclaveId
  | .attestLocal enclaveId targetId =>
    (teeAttestLocal s.tee enclaveId targetId).isSome = true → Ready s enclaveId ∧ Ready s targetId
  | .attestRemote enclaveId challenge random =>
    (teeAttestRemote s.tee enclaveId challenge random).isSome = true → Ready s enclaveId
  | _ => True

/-- What the manager promises of a call: it succeeds rightly, and the count is right after it. -/
structure KeepsBook (s : TeeRun) (op : TeeOp) : Prop where
  success : RightlySucceeds s op
  count : (teeStep s op).tee.enclaveCount = (liveSlots (teeStep s op).life).card

/-- What is destroyed is there, and no slot in the state DESTROYED attests, unless the other of the two
is not initialised. -/
def Careful (s : TeeRun) : TeeOp → Prop
  | .destroy enclaveId => ∀ slot, teeSlot enclaveId = some slot → s.life slot ≠ .absent
  | .attestLocal enclaveId targetId =>
    ∀ source target, teeSlot enclaveId = some source → teeSlot targetId = some target →
      TEEState.initialized.value ≤ (s.tee.enclaves source).state.value →
      TEEState.initialized.value ≤ (s.tee.enclaves target).state.value →
      (s.tee.enclaves source).state ≠ .destroyed ∧ (s.tee.enclaves target).state ≠ .destroyed
  | .attestRemote enclaveId _ _ =>
    ∀ slot, teeSlot enclaveId = some slot → (s.tee.enclaves slot).state ≠ .destroyed
  | _ => True

/-! ## Counting -/

section Counting

variable {life : Fin teeMaxEnclaves → Life} {slot : Fin teeMaxEnclaves}

/-- No slot is live at first. -/
theorem liveSlots_start : (liveSlots fun _ => .absent).card = 0 := by
  rw [Finset.card_eq_zero, Finset.eq_empty_iff_forall_notMem]
  intro i mem
  exact mem_liveSlots.1 mem rfl

/-- Creating in an absent slot makes one more live. -/
theorem card_liveSlots_create (free : life slot = .absent) :
    (liveSlots (Function.update life slot .created)).card = (liveSlots life).card + 1 := by
  have new : slot ∉ liveSlots life := fun mem => mem_liveSlots.1 mem free
  rw [← Finset.card_insert_of_notMem new]
  congr 1
  ext i
  rw [Finset.mem_insert, mem_liveSlots, mem_liveSlots, Function.update_apply]
  split <;> simp [*]

/-- Destroying in a live slot makes one less. -/
theorem card_liveSlots_destroy (live : life slot ≠ .absent) :
    (liveSlots (Function.update life slot .absent)).card + 1 = (liveSlots life).card := by
  have mem := mem_liveSlots.2 live
  rw [← Finset.card_erase_add_one mem]
  congr 2
  ext i
  rw [Finset.mem_erase, mem_liveSlots, mem_liveSlots, Function.update_apply]
  split <;> simp [*]

/-- A slot that stays with or without an enclave. -/
theorem liveSlots_update {next : Life} (same : next = .absent ↔ life slot = .absent) :
    liveSlots (Function.update life slot next) = liveSlots life := by
  ext i
  rw [mem_liveSlots, mem_liveSlots, Function.update_apply]
  split
  · rename_i eq
    rw [eq]
    exact not_congr same
  · rfl

end Counting

/-! ## The states and the lives -/

/-- What a state says of the life. -/
def TEEState.life : TEEState → Life
  | .uninitialized => .absent
  | .created => .created
  | .initialized => .ready
  | .running => .ready
  | .stopped => .ready
  | .destroyed => .absent

/-- The states tell the lives, in every state. -/
def TellsLife (s : TeeRun) : Prop := s.life = fun i => (s.tee.enclaves i).state.life

/-- The life of the slot that was set. -/
theorem life_set (enclaves : Fin teeMaxEnclaves → TEEEnclave) (slot : Fin teeMaxEnclaves) (enclave : TEEEnclave) :
    (fun i => (Function.update enclaves slot enclave i).state.life) =
      Function.update (fun i => (enclaves i).state.life) slot enclave.state.life := by
  funext i
  rw [Function.update_apply, Function.update_apply]
  split <;> rfl

structure TeeInv (s : TeeRun) : Prop where
  tells : TellsLife s
  count : s.tee.enclaveCount = (liveSlots s.life).card

/-- The invariant holds after `tee_init`. -/
theorem teeInv_start (masterKey : Digest) (baseEpc epcSize : UInt64) (hasHw : Bool) :
    TeeInv (teeStart masterKey baseEpc epcSize hasHw) := by
  refine ⟨rfl, ?_⟩
  show (0 : Int) = (liveSlots fun _ => .absent).card
  rw [liveSlots_start]
  rfl

variable {s : TeeRun}

/-- What the caller knows of a slot is what its state says. -/
theorem TellsLife.apply (h : TellsLife s) (slot : Fin teeMaxEnclaves) :
    s.life slot = (s.tee.enclaves slot).state.life := congrFun h slot

/-- From INITIALIZED on, an enclave is ready or destroyed. -/
theorem ready_of_value {state : TEEState} (from_ : TEEState.initialized.value ≤ state.value) :
    state.life = .ready ↔ state ≠ .destroyed := by
  cases state with
  | uninitialized => exact absurd from_ (by decide)
  | created => exact absurd from_ (by decide)
  | _ => decide

/-- Creating keeps the invariant. -/
theorem TeeInv.create (inv : TeeInv s) (code : List UInt8) (signerHash : Digest) (productId : UInt16)
    (attributes : UInt32) : TeeInv (teeStep s (.create code signerHash productId attributes)) := by
  rw [teeStep]
  obtain same | ⟨slot, unused, made⟩ := create_outcome s.tee code signerHash productId attributes
  · rw [same]
    exact inv
  · rw [made]
    have free : s.life slot = .absent := by
      rw [inv.tells.apply]
      rcases unused with eq | eq
      · rw [eq]
        rfl
      · rw [eq]
        rfl
    constructor
    · show Function.update s.life slot .created = _
      rw [life_set, ← show s.life = _ from inv.tells]
      rfl
    · show s.tee.enclaveCount + 1 = _
      rw [card_liveSlots_create free, inv.count]
      rfl

/-- Initialising keeps the invariant. -/
theorem TeeInv.initEnclave (inv : TeeInv s) (enclaveId : Int32) : TeeInv (teeStep s (.initEnclave enclaveId)) := by
  rw [teeStep]
  obtain same | ⟨slot, memory, found, created, made⟩ := init_enclave_outcome s.tee enclaveId
  · rw [same]
    exact inv
  · rw [made]
    dsimp only
    rw [advance_of_slot found]
    have old : s.life slot = .created := by
      rw [inv.tells.apply, created]
      rfl
    constructor
    · show Function.update s.life slot .ready = _
      rw [TEEManager.setEnclave, life_set, ← show s.life = _ from inv.tells]
      rfl
    · rw [liveSlots_update (by rw [old]; decide)]
      exact inv.count

/-- Entering keeps the invariant and succeeds rightly. -/
theorem TeeInv.enter (inv : TeeInv s) (enclaveId : Int32) (data : List UInt8) (outputLen : Option Nat) :
    TeeInv (teeStep s (.enter enclaveId data outputLen)) ∧
      RightlySucceeds s (.enter enclaveId data outputLen) := by
  rw [teeStep, RightlySucceeds]
  obtain same | ⟨slot, entry, exit, found, runs, left⟩ := enter_outcome s.tee enclaveId data outputLen
  · rw [same]
    exact ⟨inv, nofun⟩
  · rw [left]
    have ready : s.life slot = .ready := by
      rw [inv.tells.apply]
      rcases runs with eq | eq
      · rw [eq]
        rfl
      · rw [eq]
        rfl
    refine ⟨⟨?_, inv.count⟩, fun _ => ⟨slot, found, ready⟩⟩
    show s.life = _
    rw [TEEManager.setEnclave, life_set, ← show s.life = _ from inv.tells]
    exact (Function.update_eq_self_iff.2 ready.symm).symm

/-- The count goes down with every identifier in range, the number of enclaves only if there was one. -/
theorem TeeInv.destroy (inv : TeeInv s) (enclaveId : Int32) :
    TellsLife (teeStep s (.destroy enclaveId)) ∧
      ((teeStep s (.destroy enclaveId)).tee.enclaveCount = (liveSlots (teeStep s (.destroy enclaveId)).life).card ↔
        Careful s (.destroy enclaveId)) := by
  rw [teeStep, Careful, teeDestroy]
  cases found : teeSlot enclaveId with
  | none => exact ⟨inv.tells, fun _ _ => nofun, fun _ => inv.count⟩
  | some slot =>
    dsimp only
    rw [advance_of_slot found]
    constructor
    · show Function.update s.life slot .absent = _
      rw [TEEManager.setEnclave, life_set, ← show s.life = _ from inv.tells]
      rfl
    · show s.tee.enclaveCount - 1 = ((liveSlots (Function.update s.life slot .absent)).card : Int) ↔ _
      rw [inv.count]
      constructor
      · rintro count _ ⟨⟩ absent
        rw [liveSlots_update (by rw [absent])] at count
        omega
      · intro live
        have card := card_liveSlots_destroy (live slot rfl)
        omega

/-- A local attestation succeeds rightly exactly when it is careful. -/
theorem TeeInv.attestLocal_iff (inv : TeeInv s) (enclaveId targetId : Int32) :
    RightlySucceeds s (.attestLocal enclaveId targetId) ↔ Careful s (.attestLocal enclaveId targetId) := by
  rw [RightlySucceeds, Careful, attest_local_isSome]
  constructor
  · intro right source target foundSource foundTarget lateSource lateTarget
    obtain ⟨⟨_, eqSource, readySource⟩, _, eqTarget, readyTarget⟩ :=
      right ⟨source, target, foundSource, foundTarget, lateSource, lateTarget⟩
    cases foundSource.symm.trans eqSource
    cases foundTarget.symm.trans eqTarget
    rw [inv.tells.apply] at readySource readyTarget
    exact ⟨(ready_of_value lateSource).1 readySource, (ready_of_value lateTarget).1 readyTarget⟩
  · rintro careful ⟨source, target, foundSource, foundTarget, lateSource, lateTarget⟩
    obtain ⟨neSource, neTarget⟩ := careful source target foundSource foundTarget lateSource lateTarget
    refine ⟨⟨source, foundSource, ?_⟩, target, foundTarget, ?_⟩
    · rw [inv.tells.apply]
      exact (ready_of_value lateSource).2 neSource
    · rw [inv.tells.apply]
      exact (ready_of_value lateTarget).2 neTarget

/-- A remote attestation succeeds rightly exactly when it is careful. -/
theorem TeeInv.attestRemote_iff (inv : TeeInv s) (enclaveId : Int32) (challenge random : Digest) :
    RightlySucceeds s (.attestRemote enclaveId challenge random) ↔
      Careful s (.attestRemote enclaveId challenge random) := by
  rw [RightlySucceeds, Careful, attest_remote_isSome]
  constructor
  · intro right slot found destroyed
    have late : TEEState.initialized.value ≤ (s.tee.enclaves slot).state.value := by
      rw [destroyed]
      decide
    obtain ⟨_, eq, ready⟩ := right ⟨slot, found, late⟩
    cases found.symm.trans eq
    rw [inv.tells.apply] at ready
    exact (ready_of_value late).1 ready destroyed
  · rintro careful ⟨slot, found, late⟩
    refine ⟨slot, found, ?_⟩
    rw [inv.tells.apply]
    exact (ready_of_value late).2 (careful slot found)

/-- A careful call keeps the invariant. -/
theorem TeeInv.step (s : TeeRun) (op : TeeOp) (inv : TeeInv s) (careful : Careful s op) :
    TeeInv (teeStep s op) := by
  cases op with
  | create code signerHash productId attributes => exact inv.create code signerHash productId attributes
  | initEnclave enclaveId => exact inv.initEnclave enclaveId
  | enter enclaveId data outputLen => exact (inv.enter enclaveId data outputLen).1
  | destroy enclaveId => exact ⟨(inv.destroy enclaveId).1, (inv.destroy enclaveId).2.2 careful⟩
  | attestLocal enclaveId targetId => exact inv
  | attestRemote enclaveId challenge random => exact inv

/-- A call keeps the book exactly when it is careful. -/
theorem TeeInv.keepsBook_iff (s : TeeRun) (op : TeeOp) (inv : TeeInv s) : KeepsBook s op ↔ Careful s op := by
  have success : Careful s op → RightlySucceeds s op := by
    cases op with
    | enter enclaveId data outputLen => exact fun _ => (inv.enter enclaveId data outputLen).2
    | attestLocal enclaveId targetId => exact (inv.attestLocal_iff enclaveId targetId).2
    | attestRemote enclaveId challenge random => exact (inv.attestRemote_iff enclaveId challenge random).2
    | _ => exact fun _ => trivial
  constructor
  · rintro ⟨success, count⟩
    cases op with
    | destroy enclaveId => exact (inv.destroy enclaveId).2.1 count
    | attestLocal enclaveId targetId => exact (inv.attestLocal_iff enclaveId targetId).1 success
    | attestRemote enclaveId challenge random => exact (inv.attestRemote_iff enclaveId challenge random).1 success
    | _ => trivial
  · intro careful
    exact ⟨success careful, (inv.step s op careful).count⟩

/-- **The count is right and only ready enclaves are entered and attest, in every call of a run, if and
only if each call destroys what there is or attests for no slot that is destroyed.** -/
theorem tee_lifecycle_iff (masterKey : Digest) (baseEpc epcSize : UInt64) (hasHw : Bool) (ops : List TeeOp) :
    Guarded teeStep KeepsBook (teeStart masterKey baseEpc epcSize hasHw) ops ↔
      Guarded teeStep Careful (teeStart masterKey baseEpc epcSize hasHw) ops :=
  guarded_congr TeeInv TeeInv.keepsBook_iff (fun s op inv careful => inv.step s op careful)
    (teeInv_start masterKey baseEpc epcSize hasHw)

/-- A second `destroy` takes the count to -1, and a destroyed enclave attests itself. -/
theorem tee_destroyed_attests :
    (run teeStep (teeStart zeroDigest 0 0 false)
      [.create [] zeroDigest 1 0, .initEnclave 0, .destroy 0, .destroy 0]).tee.enclaveCount = -1 ∧
    ¬ Guarded teeStep KeepsBook (teeStart zeroDigest 0 0 false)
      [.create [] zeroDigest 1 0, .initEnclave 0, .destroy 0, .attestRemote 0 zeroDigest zeroDigest] := by
  refine ⟨by decide, ?_⟩
  rintro ⟨-, -, -, attest, -⟩
  obtain ⟨slot, found, ready⟩ := attest.success rfl
  cases found
  exact absurd ready (by decide)

/-! ## The scheduler

It looks for an enclave that can be entered behind the one it found last. Other calls may come in
between. -/

/-- `-1` is `none`. -/
structure TEEScheduler where
  currentEnclave : Option (Fin teeMaxEnclaves)
  nextEnclave : Option (Fin teeMaxEnclaves)
  quantumCycles : UInt64

def teeSchedulerInit : TEEScheduler := ⟨none, none, 1000000⟩

/-- The enclave can be entered. -/
def TEEEnclave.runnable (enclave : TEEEnclave) : Bool :=
  enclave.state = .initialized ∨ enclave.state = .stopped

/-- `start`. -/
def TEEScheduler.start (sched : TEEScheduler) : Fin teeMaxEnclaves :=
  match sched.currentEnclave with
  | none => 0
  | some idx => Ring.behind idx 1

def teeSchedulerSchedule (sched : TEEScheduler) (tee : TEEManager) : Option (Fin teeMaxEnclaves) × TEEScheduler :=
  let found := firstFrom sched.start fun idx => (tee.enclaves idx).runnable
  (found, { sched with currentEnclave := found })

def teeSchedulerYield (sched : TEEScheduler) : TEEScheduler := { sched with nextEnclave := none }

inductive SchedOp where
  | call (op : TeeOp)
  | schedule
  | yield

/-- The manager and the scheduler. -/
structure SchedRun where
  mgr : TeeRun
  sched : TEEScheduler

/-- What a call of the scheduler finds. -/
def SchedRun.next (s : SchedRun) : Option (Fin teeMaxEnclaves) := (teeSchedulerSchedule s.sched s.mgr.tee).1

def schedStep (s : SchedRun) : SchedOp → SchedRun
  | .call op => { s with mgr := teeStep s.mgr op }
  | .schedule => { s with sched := (teeSchedulerSchedule s.sched s.mgr.tee).2 }
  | .yield => { s with sched := teeSchedulerYield s.sched }

def SchedOp.isSchedule : SchedOp → Bool
  | .schedule => true
  | _ => false

/-- The operation destroys the enclave in the slot. -/
def SchedOp.Destroys (slot : Fin teeMaxEnclaves) : SchedOp → Prop
  | .call (.destroy enclaveId) => teeSlot enclaveId = some slot
  | _ => False

section Scheduler
variable {slot : Fin teeMaxEnclaves}

/-- The two states that can be entered. -/
theorem runnable_iff {enclave : TEEEnclave} :
    enclave.runnable = true ↔ enclave.state = .initialized ∨ enclave.state = .stopped := decide_eq_true_iff

/-- A runnable slot stays so when no enclave that is not runnable is put there. -/
theorem runnable_set {tee : TEEManager} {slot' : Fin teeMaxEnclaves} {enclave : TEEEnclave}
    (there : (tee.enclaves slot).runnable = true) (new : slot' = slot → enclave.runnable = true) :
    ((tee.setEnclave slot' enclave).enclaves slot).runnable = true := by
  show (Function.update tee.enclaves slot' enclave slot).runnable = true
  rw [Function.update_apply]
  split
  · rename_i eq
    exact new eq.symm
  · exact there

/-- An enclave can be entered until it is destroyed. -/
theorem teeStep_runnable {s : TeeRun} {op : TeeOp} (there : (s.tee.enclaves slot).runnable = true)
    (keeps : ¬ (SchedOp.call op).Destroys slot) : ((teeStep s op).tee.enclaves slot).runnable = true := by
  cases op with
  | create code signerHash productId attributes =>
    rw [teeStep]
    obtain same | ⟨slot', unused, made⟩ := create_outcome s.tee code signerHash productId attributes
    · rw [same]
      exact there
    · rw [made]
      have other : slot' ≠ slot := by
        rintro rfl
        rcases runnable_iff.1 there with eq | eq <;> rw [eq] at unused <;> rcases unused with eq' | eq' <;> cases eq'
      show (Function.update s.tee.enclaves slot' _ slot).runnable = true
      rw [Function.update_of_ne (Ne.symm other)]
      exact there
  | initEnclave enclaveId =>
    rw [teeStep]
    obtain same | ⟨slot', memory, -, -, made⟩ := init_enclave_outcome s.tee enclaveId
    · rw [same]
      exact there
    · rw [made]
      exact runnable_set there fun _ => rfl
  | enter enclaveId data outputLen =>
    rw [teeStep]
    obtain same | ⟨slot', entry, exit, -, -, left⟩ := enter_outcome s.tee enclaveId data outputLen
    · rw [same]
      exact there
    · rw [left]
      exact runnable_set there fun _ => rfl
  | destroy enclaveId =>
    rw [teeStep, teeDestroy]
    cases found : teeSlot enclaveId with
    | none => exact there
    | some slot' =>
      have other : slot' ≠ slot := by
        rintro rfl
        exact keeps found
      exact runnable_set there fun eq => absurd eq other
  | attestLocal enclaveId targetId => exact there
  | attestRemote enclaveId challenge random => exact there

/-- Who is not found has its turn nearer. -/
theorem schedule_turn {s : SchedRun} (there : (s.mgr.tee.enclaves slot).runnable = true) :
    s.next = some slot ∨
      Ring.between (schedStep s .schedule).sched.start slot < Ring.between s.sched.start slot := by
  have found : ∃ idx, s.next = some idx := by
    rw [← Option.ne_none_iff_exists']
    intro none
    rw [firstFrom_eq_none.1 none slot] at there
    cases there
  obtain ⟨idx, found⟩ := found
  by_cases here : idx = slot
  · exact .inl (found.trans (congrArg some here))
  · have start : (schedStep s .schedule).sched.start = Ring.behind idx 1 := by
      show TEEScheduler.start { s.sched with currentEnclave := s.next } = _
      rw [found]
      rfl
    have first : firstFrom s.sched.start (fun idx => (s.mgr.tee.enclaves idx).runnable) = some idx := found
    rw [start]
    exact .inr (between_turn first there (Ne.symm here))

/-- **No enclave starves.** One that can be entered and is not destroyed is found by one of any
`MINI_HWSEC_TEE_MAX_ENCLAVES` calls of the scheduler, whatever is called between them. -/
theorem teeScheduler_serves (s : SchedRun) (there : (s.mgr.tee.enclaves slot).runnable = true) {ops : List SchedOp}
    (kept : ∀ op ∈ ops, ¬ op.Destroys slot) (calls : teeMaxEnclaves ≤ ops.countP SchedOp.isSchedule) :
    ∃ before rest, ops = before ++ .schedule :: rest ∧ before.countP SchedOp.isSchedule < teeMaxEnclaves ∧
      (run schedStep s before).next = some slot := by
  have turn : ∀ (s : SchedRun) (op : SchedOp), (s.mgr.tee.enclaves slot).runnable = true → ¬ op.Destroys slot →
      op.isSchedule = true → s.next = some slot ∨ ((schedStep s op).mgr.tee.enclaves slot).runnable = true ∧
        Ring.between (schedStep s op).sched.start slot < Ring.between s.sched.start slot := by
    intro s op there _ isTick
    cases op with
    | schedule => exact (schedule_turn there).imp id fun nearer => ⟨there, nearer⟩
    | call op => cases isTick
    | yield => cases isTick
  have other : ∀ (s : SchedRun) (op : SchedOp), (s.mgr.tee.enclaves slot).runnable = true → ¬ op.Destroys slot →
      op.isSchedule = false → ((schedStep s op).mgr.tee.enclaves slot).runnable = true ∧
        Ring.between (schedStep s op).sched.start slot ≤ Ring.between s.sched.start slot := by
    intro s op there keeps isOther
    cases op with
    | schedule => cases isOther
    | call op => exact ⟨teeStep_runnable there keeps, Nat.le_refl _⟩
    | yield => exact ⟨there, Nat.le_refl _⟩
  have far := Ring.between_lt s.sched.start slot
  obtain ⟨before, op, rest, eq, isTick, count, now⟩ := exists_served SchedOp.isSchedule
    (fun (s : SchedRun) _ => s.next = some slot) (fun s => (s.mgr.tee.enclaves slot).runnable = true)
    (fun op => ¬ op.Destroys slot) (fun s => Ring.between s.sched.start slot) turn other there kept (far.trans_le calls)
  cases op with
  | schedule => exact ⟨before, rest, eq, count.trans_lt far, now⟩
  | call op => cases isTick
  | yield => cases isTick

/-- Two enclaves are entered in turn. -/
def twoReady : SchedRun :=
  ⟨run teeStep (teeStart zeroDigest 0 0 false)
    [.create [] zeroDigest 1 0, .create [] zeroDigest 2 0, .initEnclave 0, .initEnclave 1], teeSchedulerInit⟩

/-- Of two ready enclaves the second is served as well. -/
theorem teeScheduler_serves_second :
    ∃ before rest, List.replicate 16 SchedOp.schedule = before ++ .schedule :: rest ∧
      before.countP SchedOp.isSchedule < teeMaxEnclaves ∧ (run schedStep twoReady before).next = some 1 := by
  refine @teeScheduler_serves 1 twoReady (by decide) (List.replicate 16 .schedule) (fun op mem destroys => ?_) (by decide)
  rw [List.eq_of_mem_replicate mem] at destroys
  exact destroys

end Scheduler

/-! ## Reports over a run -/

/-- No call changes the key of the platform. -/
theorem platformMasterKey_teeStep (s : TeeRun) (op : TeeOp) :
    (teeStep s op).tee.platformMasterKey = s.tee.platformMasterKey := by
  cases op with
  | create code signerHash productId attributes =>
    rw [teeStep]
    obtain same | ⟨slot, -, made⟩ := create_outcome s.tee code signerHash productId attributes
    · rw [same]
    · rw [made]
  | initEnclave enclaveId =>
    rw [teeStep]
    obtain same | ⟨slot, memory, -, -, made⟩ := init_enclave_outcome s.tee enclaveId
    · rw [same]
    · rw [made]
      rfl
  | enter enclaveId data outputLen =>
    rw [teeStep]
    obtain same | ⟨slot, entry, exit, -, -, left⟩ := enter_outcome s.tee enclaveId data outputLen
    · rw [same]
    · rw [left]
      rfl
  | destroy enclaveId =>
    rw [teeStep, teeDestroy]
    cases teeSlot enclaveId with
    | none => rfl
    | some slot => rfl
  | attestLocal enclaveId targetId => rfl
  | attestRemote enclaveId challenge random => rfl

/-- No call changes the attestation key. -/
theorem attestKey_run (s : TeeRun) (ops : List TeeOp) : attestKey (run teeStep s ops).tee = attestKey s.tee := by
  have key : (run teeStep s ops).tee.platformMasterKey = s.tee.platformMasterKey :=
    run_invariant (motive := fun s' => s'.tee.platformMasterKey = s.tee.platformMasterKey)
      (fun s' op same => (platformMasterKey_teeStep s' op).trans same) rfl ops
  rw [attestKey, key, attestKey]

/-- **Remote reports are verified, local ones are not.** A report of `attest_remote` is accepted after any further calls,
and what shares its fields or its MAC with it is accepted only if it is the report itself, but for collisions of the MAC.
A report of `attest_local` is accepted only if two keys give it the same MAC. -/
theorem teeVerifyReport_attests (s : TeeRun) (ops : List TeeOp) :
    (∀ enclaveId challenge random report, teeAttestRemote s.tee enclaveId challenge random = some report →
      teeVerifyReport (run teeStep s ops).tee report = true ∧
      ∀ other : TEEAttestReport, other.reportData.length = 64 →
        reportBytes other = reportBytes report ∨ other.reportMac = report.reportMac →
        (teeVerifyReport (run teeStep s ops).tee other = true ↔
          other = report ∨ other.reportMac = report.reportMac ∧
            SameMac (attestKey s.tee) (reportBytes other) (reportBytes report))) ∧
    ∀ enclaveId targetId report, teeAttestLocal s.tee enclaveId targetId = some report →
      ∃ target, teeSlot targetId = some target ∧
        (teeVerifyReport (run teeStep s ops).tee report = true ↔
          hmacSha256 (s.tee.enclaves target).sealKey.toList (reportBytes report) =
            hmacSha256 (attestKey s.tee).toList (reportBytes report)) := by
  constructor
  · intro enclaveId challenge random report made
    obtain ⟨mac, len⟩ := reportMac_attest_remote made
    have genuine : teeVerifyReport (run teeStep s ops).tee report = true := by
      rw [verify_report_iff, attestKey_run]
      exact mac
    refine ⟨genuine, fun other lenOther shared => ⟨fun accepted => ?_, ?_⟩⟩
    · rw [verify_report_iff, attestKey_run] at accepted
      by_cases fields : reportBytes other = reportBytes report
      · rw [fields, ← mac] at accepted
        refine .inl (((reportBytes_inj (lenOther.trans len.symm)).1 fields).trans ?_)
        rw [accepted]
      · have sameMac := shared.resolve_left fields
        refine .inr ⟨sameMac, fields, ?_⟩
        rw [sameMac, mac] at accepted
        exact ((digestAt_inj (length_hmacSha256 _ _) (length_hmacSha256 _ _)).1 accepted).symm
    · rintro (eq | ⟨sameMac, -, collision⟩)
      · rw [eq]
        exact genuine
      · rw [verify_report_iff, attestKey_run, sameMac, mac, collision]
  · intro enclaveId targetId report made
    obtain ⟨target, found, mac⟩ := reportMac_attest_local made
    refine ⟨target, found, ?_⟩
    rw [verify_report_iff, attestKey_run, mac, digestAt_inj (length_hmacSha256 _ _) (length_hmacSha256 _ _)]

end MiniHardware.Security
