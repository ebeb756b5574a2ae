import MiniHardware.Lib.Trace
import MiniHardware.Security.Puf

/-!
# The hardware root of trust (`mini-hardware-security/src/hrot_puf.c`)

The life cycle only goes forward. RMA is said to wipe the keys, but no function
looks at the life cycle for a key: after RMA the slots give the keys they had
and derivation uses the device key it always used (`hrot_rma_iff`).
-/

namespace MiniHardware.Security
open Lib

/-- `MINI_HWSEC_HROT_KEY_SLOTS`. -/
abbrev hrotKeySlots : Nat := 8

/-- `MINI_HWSEC_HROT_COUNTER_COUNT`. -/
abbrev hrotCounterCount : Nat := 4

structure MiniHwSecDeviceIdentity where
  uid : Vector UInt8 32
  deviceKey : Digest
  keyProvisioned : Bool
  debugLocked : Bool

structure MiniHwSecKeySlot where
  key : Digest
  slot : Int32
  occupied : Bool
  locked : Bool
  exportable : Bool
  label : Vector UInt8 32

structure MiniHwSecSecureCounter where
  value : UInt64
  minValue : UInt64
  locked : Bool

/-- 0 is MANUFACTURING, 1 PROVISIONED, 2 SECURE and 3 RMA. -/
structure MiniHwSecHRoT where
  sramPuf : MiniHwSecSRAMPuf
  identity : MiniHwSecDeviceIdentity
  keySlots : Fin hrotKeySlots → MiniHwSecKeySlot
  counters : Fin hrotCounterCount → MiniHwSecSecureCounter
  tamperDetected : Bool
  initialized : Bool
  lifecycleState : UInt32

def emptySlot : MiniHwSecKeySlot := ⟨Vector.replicate 32 0, 0, false, false, false, Vector.replicate 32 0⟩

def hrotInit (deviceUid : Vector UInt8 32) (reads : Fin 32 → PufResponse) : MiniHwSecHRoT :=
  let enrolled := (sramPufEnroll zeroPuf zeroEnrollment reads).2
  { sramPuf := enrolled.1
    identity := ⟨deviceUid, enrolled.2.goldenKey, true, false⟩
    keySlots := fun _ => emptySlot
    counters := fun _ => ⟨0, 0, false⟩
    tamperDetected := false
    initialized := true
    lifecycleState := 1 }

/-! ## Keys -/

/-- The key that HKDF derives from a device key. -/
def deriveFrom (deviceKey : Digest) (label : List UInt8) (context : Option Digest) : Digest :=
  digestAt (hkdfSha256 deviceKey.toList (label ++ (context.map Vector.toList).getD []) (labelBytes "HRoT-KDF") 32)

/-- Label and context have room in the 128 bytes of `derivation_input`. -/
def Fits (label : List UInt8) (context : Option Digest) : Prop :=
  label.length + ((context.map Vector.toList).getD []).length ≤ 128

instance (label : List UInt8) (context : Option Digest) : Decidable (Fits label context) :=
  inferInstanceAs (Decidable (_ ≤ _))

/-- A call that writes past `derivation_input` has no result. -/
def hrotDeriveKey (hrot : MiniHwSecHRoT) (label : List UInt8) (context : Option Digest) : Option Digest :=
  if Fits label context then some (deriveFrom hrot.identity.deviceKey label context) else none

/-- The place of a number that is in range. -/
def placeOf (n : Nat) (id : Int32) : Option (Fin n) :=
  if h : 0 ≤ id.toInt ∧ id.toInt < n then some ⟨id.toInt.toNat, by omega⟩ else none

/-- At most 31 bytes of the label and a zero, and what was there behind them. -/
def writeLabel (old : Vector UInt8 32) (label : List UInt8) : Vector UInt8 32 :=
  let len := min label.length 31
  Vector.ofFn fun i => if i.val < len then label.getD i.val 0 else if i.val = len then 0 else old.get i

def hrotProvisionKey (hrot : MiniHwSecHRoT) (slot : Int32) (key : Digest) (label : Option (List UInt8)) :
    Bool × MiniHwSecHRoT :=
  match placeOf hrotKeySlots slot with
  | none => (false, hrot)
  | some i =>
    let old := hrot.keySlots i
    if old.locked then (false, hrot)
    else
      (true, { hrot with
        keySlots := Function.update hrot.keySlots i
          { old with
            key := key
            slot := slot
            occupied := true
            exportable := false
            label := match label with
              | some text => writeLabel old.label text
              | none => old.label } })

/-- `none` is the return of false, which leaves the key buffer alone. -/
def hrotGetKey (hrot : MiniHwSecHRoT) (slot : Int32) : Option Digest :=
  match placeOf hrotKeySlots slot with
  | none => none
  | some i => if (hrot.keySlots i).occupied then some (hrot.keySlots i).key else none

/-! ## Counters -/

def counterRead (hrot : MiniHwSecHRoT) (counterId : Int32) : UInt64 :=
  match placeOf hrotCounterCount counterId with
  | none => 0
  | some i => (hrot.counters i).value

/-- The counter has moved even where an overflow of 56 bits is reported. -/
def counterIncrement (hrot : MiniHwSecHRoT) (counterId : Int32) : Bool × MiniHwSecHRoT :=
  match placeOf hrotCounterCount counterId with
  | none => (false, hrot)
  | some i =>
    let counter := hrot.counters i
    if counter.locked then (false, hrot)
    else
      let value := counter.value + 1
      (decide (value ≤ 0x00FFFFFFFFFFFFFF),
        { hrot with counters := Function.update hrot.counters i { counter with value := value } })

def counterVerify (hrot : MiniHwSecHRoT) (counterId : Int32) (minExpected : UInt64) : Bool :=
  match placeOf hrotCounterCount counterId with
  | none => false
  | some i => decide ((hrot.counters i).value ≥ minExpected)

def counterLock (hrot : MiniHwSecHRoT) (counterId : Int32) : Bool × MiniHwSecHRoT :=
  match placeOf hrotCounterCount counterId with
  | none => (false, hrot)
  | some i =>
    (true, { hrot with counters := Function.update hrot.counters i { hrot.counters i with locked := true } })

/-! ## The life cycle -/

def hrotAdvanceLifecycle (hrot : MiniHwSecHRoT) (newState : Int32) : Bool × MiniHwSecHRoT :=
  if newState < 0 ∨ newState > 3 then (false, hrot)
  else if newState < hrot.lifecycleState.toInt32 then (false, hrot)
  else (true, { hrot with lifecycleState := newState.toUInt32 })

def hrotLockDebug (hrot : MiniHwSecHRoT) : Bool × MiniHwSecHRoT :=
  if hrot.lifecycleState < 2 then (false, hrot)
  else (true, { hrot with identity := { hrot.identity with debugLocked := true } })

/-- The calls that are defined: a label to derive from comes with the proof that it has room. -/
inductive HrotOp where
  | provisionKey (slot : Int32) (key : Digest) (label : Option (List UInt8))
  | getKey (slot : Int32)
  | deriveKey (label : List UInt8) (context : Option Digest) (fits : Fits label context)
  | counterRead (counterId : Int32)
  | counterIncrement (counterId : Int32)
  | counterVerify (counterId : Int32) (minExpected : UInt64)
  | counterLock (counterId : Int32)
  | advanceLifecycle (newState : Int32)
  | lockDebug

/-- The root of trust, and the keys provisioned before RMA that nothing has replaced since. -/
structure HrotRun where
  hrot : MiniHwSecHRoT
  before : Fin hrotKeySlots → Option Digest

def hrotStart (deviceUid : Vector UInt8 32) (reads : Fin 32 → PufResponse) : HrotRun :=
  ⟨hrotInit deviceUid reads, fun _ => none⟩

/-- The book of old keys after a key has come in. -/
def noteKey (s : HrotRun) (slot : Int32) (key : Digest) (ok : Bool) : Fin hrotKeySlots → Option Digest :=
  match ok, placeOf hrotKeySlots slot with
  | true, some i => Function.update s.before i (if s.hrot.lifecycleState = 3 then none else some key)
  | _, _ => s.before

def hrotStep (s : HrotRun) : HrotOp → HrotRun
  | .provisionKey slot key label =>
    let (ok, hrot) := hrotProvisionKey s.hrot slot key label
    ⟨hrot, noteKey s slot key ok⟩
  | .getKey _ => s
  | .deriveKey _ _ _ => s
  | .counterRead _ => s
  | .counterIncrement counterId => { s with hrot := (Security.counterIncrement s.hrot counterId).2 }
  | .counterVerify _ _ => s
  | .counterLock counterId => { s with hrot := (Security.counterLock s.hrot counterId).2 }
  | .advanceLifecycle newState => { s with hrot := (hrotAdvanceLifecycle s.hrot newState).2 }
  | .lockDebug => { s with hrot := (hrotLockDebug s.hrot).2 }

/-! ## What RMA promises -/

/-- The call returns no key provisioned before RMA, and derives nothing from the old device key. -/
def Wiped (deviceKey : Digest) (s : HrotRun) : HrotOp → Prop
  | .getKey slot => ∀ i key, placeOf hrotKeySlots slot = some i → s.before i = some key → hrotGetKey s.hrot slot ≠ some key
  | .deriveKey label context _ => hrotDeriveKey s.hrot label context ≠ some (deriveFrom deviceKey label context)
  | _ => True

/-- What the life cycle promises of a call. -/
structure HonoursLifecycle (deviceKey : Digest) (s : HrotRun) (op : HrotOp) : Prop where
  forward : s.hrot.lifecycleState ≤ (hrotStep s op).hrot.lifecycleState
  wiped : s.hrot.lifecycleState = 3 → Wiped deviceKey s op

/-- The call asks for no slot with an old key, and derives no key. -/
def Spares (s : HrotRun) : HrotOp → Prop
  | .getKey slot => ∀ i, placeOf hrotKeySlots slot = some i → s.before i = none
  | .deriveKey _ _ _ => False
  | _ => True

def SparesAfterRma (s : HrotRun) (op : HrotOp) : Prop := s.hrot.lifecycleState = 3 → Spares s op

/-! ## What each call does -/

variable {hrot : MiniHwSecHRoT}

/-- Provisioning fails and changes nothing, or stores the key in its slot. -/
theorem hrot_provision_key_outcome (hrot : MiniHwSecHRoT) (slot : Int32) (key : Digest) (label : Option (List UInt8)) :
    hrotProvisionKey hrot slot key label = (false, hrot) ∨
    ∃ i stored, placeOf hrotKeySlots slot = some i ∧ stored.occupied = true ∧ stored.key = key ∧
      hrotProvisionKey hrot slot key label =
        (true, { hrot with keySlots := Function.update hrot.keySlots i stored }) := by
  rw [hrotProvisionKey]
  cases placeOf hrotKeySlots slot with
  | none => exact .inl rfl
  | some i =>
    dsimp only
    split
    · exact .inl rfl
    · exact .inr ⟨i, _, rfl, rfl, rfl, rfl⟩

/-- Incrementing changes counters only. -/
theorem counter_increment_frame (hrot : MiniHwSecHRoT) (counterId : Int32) :
    ∃ counters, (counterIncrement hrot counterId).2 = { hrot with counters := counters } := by
  rw [counterIncrement]
  split
  · exact ⟨hrot.counters, rfl⟩
  · dsimp only
    split
    · exact ⟨hrot.counters, rfl⟩
    · exact ⟨_, rfl⟩

/-- Locking a counter changes counters only. -/
theorem counter_lock_frame (hrot : MiniHwSecHRoT) (counterId : Int32) :
    ∃ counters, (counterLock hrot counterId).2 = { hrot with counters := counters } := by
  rw [counterLock]
  split
  · exact ⟨hrot.counters, rfl⟩
  · exact ⟨_, rfl⟩

/-- Locking the debug port changes the identity only. -/
theorem hrot_lock_debug_frame (hrot : MiniHwSecHRoT) :
    ∃ locked, (hrotLockDebug hrot).2 = { hrot with identity := { hrot.identity with debugLocked := locked } } := by
  rw [hrotLockDebug]
  split
  · exact ⟨hrot.identity.debugLocked, rfl⟩
  · exact ⟨true, rfl⟩

/-- The numbers of the states compare alike as words with and without a sign. -/
theorem state_le {state : UInt32} {newState : Int32} (bound : state ≤ 3) (inRange : ¬(newState < 0 ∨ newState > 3))
    (notLess : ¬ newState < state.toInt32) : state ≤ newState.toUInt32 ∧ newState.toUInt32 ≤ 3 := by
  rw [not_or] at inRange
  obtain ⟨low, high⟩ := inRange
  have low' : ¬ newState.toBitVec.toInt < 0 := fun lt => low (Int32.lt_iff_toInt_lt.2 lt)
  have high' : ¬ 3 < newState.toBitVec.toInt := fun lt => high (Int32.lt_iff_toInt_lt.2 lt)
  have less' : ¬ newState.toBitVec.toInt < state.toBitVec.toInt := fun lt => notLess (Int32.lt_iff_toInt_lt.2 lt)
  have bound' : state.toBitVec.toNat ≤ 3 := bound
  show state.toBitVec.toNat ≤ newState.toBitVec.toNat ∧ newState.toBitVec.toNat ≤ 3
  rw [BitVec.toInt_eq_toNat_cond] at low' high' less'
  rw [BitVec.toInt_eq_toNat_cond] at less'
  have lt := newState.toBitVec.isLt
  split at low' <;> omega

/-- Advancing changes the state only, and never lowers it. -/
theorem hrot_advance_lifecycle_outcome (bound : hrot.lifecycleState ≤ 3) (newState : Int32) :
    ∃ state, (hrotAdvanceLifecycle hrot newState).2 = { hrot with lifecycleState := state } ∧
      hrot.lifecycleState ≤ state ∧ state ≤ 3 := by
  rw [hrotAdvanceLifecycle]
  split
  · exact ⟨hrot.lifecycleState, rfl, UInt32.le_refl _, bound⟩
  · rename_i inRange
    split
    · exact ⟨hrot.lifecycleState, rfl, UInt32.le_refl _, bound⟩
    · rename_i notLess
      exact ⟨newState.toUInt32, rfl, state_le bound inRange notLess⟩

/-! ## Runs -/

/-- The device key is the old one, and the slots still hold the old keys. -/
structure HrotInv (deviceKey : Digest) (s : HrotRun) : Prop where
  bound : s.hrot.lifecycleState ≤ 3
  device : s.hrot.identity.deviceKey = deviceKey
  held : ∀ i key, s.before i = some key → (s.hrot.keySlots i).occupied = true ∧ (s.hrot.keySlots i).key = key

/-- The invariant holds after `hrot_init`. -/
theorem hrotInv_start (deviceUid : Vector UInt8 32) (reads : Fin 32 → PufResponse) :
    HrotInv (hrotStart deviceUid reads).hrot.identity.deviceKey (hrotStart deviceUid reads) :=
  ⟨show (1 : UInt32) ≤ 3 by decide, rfl, nofun⟩

variable {deviceKey : Digest} {s : HrotRun}

/-- Provisioning keeps the invariant and the state. -/
theorem HrotInv.provision (inv : HrotInv deviceKey s) (slot : Int32) (key : Digest) (label : Option (List UInt8)) :
    HrotInv deviceKey (hrotStep s (.provisionKey slot key label)) ∧
      (hrotStep s (.provisionKey slot key label)).hrot.lifecycleState = s.hrot.lifecycleState := by
  rw [hrotStep]
  obtain same | ⟨i, stored, found, occupied, stores, made⟩ := hrot_provision_key_outcome s.hrot slot key label
  · rw [same]
    exact ⟨⟨inv.bound, inv.device, inv.held⟩, rfl⟩
  · rw [made]
    refine ⟨⟨inv.bound, inv.device, ?_⟩, rfl⟩
    intro k old
    dsimp only
    rw [noteKey.eq_def, found]
    dsimp only
    rw [Function.update_apply, Function.update_apply]
    split
    · intro noted
      split at noted
      · cases noted
      · rw [← Option.some.inj noted]
        exact ⟨occupied, stores⟩
    · exact inv.held k old

/-- Every call keeps the invariant, and the life cycle does not go back. -/
theorem HrotInv.step (inv : HrotInv deviceKey s) (op : HrotOp) :
    HrotInv deviceKey (hrotStep s op) ∧ s.hrot.lifecycleState ≤ (hrotStep s op).hrot.lifecycleState := by
  have stays : s.hrot.lifecycleState ≤ s.hrot.lifecycleState := UInt32.le_refl _
  cases op with
  | provisionKey slot key label =>
    obtain ⟨kept, same⟩ := inv.provision slot key label
    rw [same]
    exact ⟨kept, stays⟩
  | counterIncrement counterId =>
    rw [hrotStep]
    obtain ⟨counters, made⟩ := counter_increment_frame s.hrot counterId
    rw [made]
    exact ⟨⟨inv.bound, inv.device, inv.held⟩, stays⟩
  | counterLock counterId =>
    rw [hrotStep]
    obtain ⟨counters, made⟩ := counter_lock_frame s.hrot counterId
    rw [made]
    exact ⟨⟨inv.bound, inv.device, inv.held⟩, stays⟩
  | advanceLifecycle newState =>
    rw [hrotStep]
    obtain ⟨state, made, le, bound⟩ := hrot_advance_lifecycle_outcome inv.bound newState
    rw [made]
    exact ⟨⟨bound, inv.device, inv.held⟩, le⟩
  | lockDebug =>
    rw [hrotStep]
    obtain ⟨locked, made⟩ := hrot_lock_debug_frame s.hrot
    rw [made]
    exact ⟨⟨inv.bound, inv.device, inv.held⟩, stays⟩
  | getKey slot => exact ⟨inv, stays⟩
  | deriveKey label context fits => exact ⟨inv, stays⟩
  | counterRead counterId => exact ⟨inv, stays⟩
  | counterVerify counterId minExpected => exact ⟨inv, stays⟩

/-- A call hands out no wiped key exactly when it spares them. -/
theorem HrotInv.wiped_iff (inv : HrotInv deviceKey s) (op : HrotOp) : Wiped deviceKey s op ↔ Spares s op := by
  cases op with
  | getKey slot =>
    constructor
    · intro wiped i found
      cases old : s.before i with
      | none => rfl
      | some key =>
        obtain ⟨occupied, stores⟩ := inv.held i key old
        refine absurd ?_ (wiped i key found old)
        rw [hrotGetKey, found]
        dsimp only
        rw [if_pos occupied, stores]
    · intro spares i key found old
      rw [spares i found] at old
      cases old
  | deriveKey label context fits =>
    rw [Wiped, Spares, hrotDeriveKey, inv.device, if_pos fits]
    exact ⟨fun ne => ne rfl, fun spared => spared.elim⟩
  | _ => exact Iff.rfl

/-- A call honours the lifecycle exactly when it spares the keys after RMA. -/
theorem HrotInv.honours_iff (inv : HrotInv deviceKey s) (op : HrotOp) :
    HonoursLifecycle deviceKey s op ↔ SparesAfterRma s op := by
  constructor
  · exact fun honours rma => (inv.wiped_iff op).1 (honours.wiped rma)
  · exact fun spares => ⟨(inv.step op).2, fun rma => (inv.wiped_iff op).2 (spares rma)⟩

/-- **The life cycle goes forward, and RMA keeps its promise as long as nobody asks.** In every run, no call
returns a key from before RMA and none derives from the old device key if and only if no call after it asks for
a slot whose key is from before, and none derives a key. -/
theorem hrot_rma_iff (deviceUid : Vector UInt8 32) (reads : Fin 32 → PufResponse) (ops : List HrotOp) :
    Guarded hrotStep (HonoursLifecycle (hrotInit deviceUid reads).identity.deviceKey) (hrotStart deviceUid reads) ops ↔
      Guarded hrotStep SparesAfterRma (hrotStart deviceUid reads) ops :=
  guarded_congr (HrotInv (hrotInit deviceUid reads).identity.deviceKey) (fun _ op inv => inv.honours_iff op)
    (fun _ op inv _ => (inv.step op).1) (hrotInv_start deviceUid reads)

/-- The life cycle goes forward in every run. -/
theorem hrot_lifecycle_forward (deviceUid : Vector UInt8 32) (reads : Fin 32 → PufResponse)
    (before after : List HrotOp) :
    (run hrotStep (hrotStart deviceUid reads) before).hrot.lifecycleState ≤
      (run hrotStep (hrotStart deviceUid reads) (before ++ after)).hrot.lifecycleState := by
  have inv : HrotInv (hrotInit deviceUid reads).identity.deviceKey (run hrotStep (hrotStart deviceUid reads) before) :=
    run_invariant (fun _ op inv => (inv.step op).1) (hrotInv_start deviceUid reads) before
  rw [run_append]
  generalize run hrotStep (hrotStart deviceUid reads) before = s at inv ⊢
  induction after generalizing s with
  | nil => exact UInt32.le_refl _
  | cons op after ih =>
    obtain ⟨kept, le⟩ := inv.step op
    exact UInt32.le_trans le (ih _ kept)

/-- After RMA a slot gives the key it was provisioned with, and the device key derives as before. -/
theorem hrot_rma_keys_remain :
    let reads : Fin 32 → PufResponse := fun _ => zeroResponse
    let uid : Vector UInt8 32 := Vector.replicate 32 0
    let ops : List HrotOp := [.provisionKey 0 (Vector.replicate 32 1) none, .advanceLifecycle 3]
    ¬ Guarded hrotStep (HonoursLifecycle (hrotInit uid reads).identity.deviceKey) (hrotStart uid reads)
      (ops ++ [.getKey 0]) ∧
    ¬ Guarded hrotStep (HonoursLifecycle (hrotInit uid reads).identity.deviceKey) (hrotStart uid reads)
      (ops ++ [.deriveKey [] none (by decide)]) := by
  constructor
  · rintro ⟨-, -, asked, -⟩
    exact asked.wiped rfl 0 (Vector.replicate 32 1) rfl rfl rfl
  · rintro ⟨-, -, derived, -⟩
    exact derived.wiped rfl rfl

end MiniHardware.Security
