import MiniHardware.Security.Hmac
import MiniHardware.Lib.Trace
import Mathlib.Data.Fintype.Card

/-!
# Enclaves (`mini-hardware-security/src/tee_enclave.c`)

An enclave is created in a free slot, initialised, entered and destroyed, and
attests itself to another enclave or to a remote party. `destroy` does not ask
for an enclave in the slot, and counts down all the same; the attestations ask
for a state from INITIALIZED on, which DESTROYED is.
-/

namespace MiniHardware.Security
open Lib

abbrev teeMaxEnclaves : Nat := 16
abbrev teeEnclaveSize : Nat := 65536
abbrev teeStackSize : Nat := 4096
abbrev teeHeapSize : Nat := 8192

inductive TEEState where
  | uninitialized | created | initialized | running | stopped | destroyed
deriving DecidableEq

/-- The number of a state. -/
def TEEState.value : TEEState → Nat
  | .uninitialized => 0
  | .created => 1
  | .initialized => 2
  | .running => 3
  | .stopped => 4
  | .destroyed => 5

structure TEEIdentity where
  mrEnclave : Digest
  mrSigner : Digest
  enclaveId : UInt32
  productId : UInt16
  securityVersion : UInt16
  attributes : UInt32
  baseAddress : UInt64
  size : UInt64
  debugAllowed : Bool

/-- Of the code, the bytes that are loaded; nothing uses the stack and the heap. -/
structure TEEMemory where
  code : List UInt8
  baseAddr : UInt64
  stackTop : UInt64
  heapBase : UInt64
  accessControlled : Bool
  encrypted : Bool

structure TEEEnclave where
  identity : TEEIdentity
  state : TEEState
  memory : TEEMemory
  sealKey : Digest
  tscStart : UInt64
  tscLastEntry : UInt64
  tscLastExit : UInt64
  threadId : UInt32
  isSecure : Bool

structure TEEManager where
  enclaves : Fin teeMaxEnclaves → TEEEnclave
  enclaveCount : Int
  platformMasterKey : Digest
  baseEpc : UInt64
  epcSize : UInt64
  hardwareTee : Bool

/-! ## The life of an enclave -/

def zeroDigest : Digest := Vector.replicate 32 0

def zeroIdentity : TEEIdentity := ⟨zeroDigest, zeroDigest, 0, 0, 0, 0, 0, 0, false⟩

def zeroMemory : TEEMemory := ⟨[], 0, 0, 0, false, false⟩

def zeroEnclave : TEEEnclave := ⟨zeroIdentity, .uninitialized, zeroMemory, zeroDigest, 0, 0, 0, 0, false⟩

def teeInit (masterKey : Digest) (baseEpc epcSize : UInt64) (hasHw : Bool) : TEEManager :=
  ⟨fun _ => zeroEnclave, 0, masterKey, baseEpc, epcSize, hasHw⟩

/-- The two low bytes of a word. -/
def lowBytes (x : UInt32) : List UInt8 := [x.toUInt8, (x >>> 8).toUInt8]

/-- The key is derived from both measurements, the product and the low half of the attributes. -/
def enclaveSealKey (masterKey : Digest) (identity : TEEIdentity) : Digest :=
  let derivationInput := identity.mrEnclave.toList ++ identity.mrSigner.toList ++
    lowBytes identity.productId.toUInt32 ++ lowBytes identity.attributes
  digestAt (hkdfSha256 masterKey.toList derivationInput (labelBytes "SEAL-KEY") 32)

/-- The enclave that is made in a slot. -/
def newEnclave (tee : TEEManager) (slot : Fin teeMaxEnclaves) (code : List UInt8) (signerHash : Digest)
    (productId : UInt16) (attributes : UInt32) : TEEEnclave :=
  let base := tee.baseEpc + UInt64.ofNat (slot.val * teeEnclaveSize)
  let identity : TEEIdentity :=
    { mrEnclave := digestAt (hashPieces [code])
      mrSigner := signerHash
      enclaveId := UInt32.ofNat slot.val
      productId := productId
      securityVersion := 0
      attributes := attributes
      baseAddress := base
      size := UInt64.ofNat teeEnclaveSize
      debugAllowed := attributes &&& 0x01 ≠ 0 }
  { zeroEnclave with
    identity := identity
    memory :=
      { code := code
        baseAddr := base
        stackTop := UInt64.ofNat teeStackSize
        heapBase := UInt64.ofNat (teeStackSize + teeHeapSize)
        accessControlled := false
        encrypted := tee.hardwareTee }
    sealKey := enclaveSealKey tee.platformMasterKey identity
    state := .created
    threadId := UInt32.ofNat slot.val }

/-- The slot is free. -/
def TEEEnclave.unused (enclave : TEEEnclave) : Bool :=
  enclave.state = .uninitialized ∨ enclave.state = .destroyed

/-- The slot of the new enclave; `none` is the return of `-1`. -/
def teeCreateEnclave (tee : TEEManager) (code : List UInt8) (signerHash : Digest) (productId : UInt16)
    (attributes : UInt32) : Option (Fin teeMaxEnclaves) × TEEManager :=
  if code.length > teeEnclaveSize then (none, tee)
  else
    match (List.finRange teeMaxEnclaves).find? fun i => (tee.enclaves i).unused with
    | none => (none, tee)
    | some slot =>
      let enclave := newEnclave tee slot code signerHash productId attributes
      (some slot, { tee with
        enclaves := Function.update tee.enclaves slot enclave
        enclaveCount := tee.enclaveCount + 1 })

/-- The slot of an identifier, if it is in range. -/
def teeSlot (enclaveId : Int32) : Option (Fin teeMaxEnclaves) :=
  if h : 0 ≤ enclaveId.toInt ∧ enclaveId.toInt < teeMaxEnclaves then some ⟨enclaveId.toInt.toNat, by omega⟩
  else none

def TEEManager.setEnclave (tee : TEEManager) (slot : Fin teeMaxEnclaves) (enclave : TEEEnclave) : TEEManager :=
  { tee with enclaves := Function.update tee.enclaves slot enclave }

def teeInitEnclave (tee : TEEManager) (enclaveId : Int32) : Bool × TEEManager :=
  match teeSlot enclaveId with
  | none => (false, tee)
  | some slot =>
    let enclave := tee.enclaves slot
    if enclave.state ≠ .created then (false, tee)
    else
      (true, tee.setEnclave slot
        { enclave with
          memory := { enclave.memory with accessControlled := true }
          isSecure := true
          state := .initialized })

/-- What is written to `output`, or `none`; a `NULL` for `data` is an empty list, and for the output no
length. -/
def enclaveOutput (data : List UInt8) (outputLen : Option Nat) : Option (List UInt8) :=
  if data.length > 0 then outputLen.map fun outSz => (hashPieces [data]).take (min outSz 32) else none

def teeEnter (tee : TEEManager) (enclaveId : Int32) (data : List UInt8) (outputLen : Option Nat) :
    Bool × Option (List UInt8) × TEEManager :=
  match teeSlot enclaveId with
  | none => (false, none, tee)
  | some slot =>
    let enclave := tee.enclaves slot
    if enclave.state ≠ .initialized ∧ enclave.state ≠ .stopped then (false, none, tee)
    else
      let left : TEEEnclave :=
        { enclave with
          tscLastEntry := enclave.tscStart
          tscLastExit := enclave.tscStart + 1000
          state := .stopped }
      (true, enclaveOutput data outputLen, tee.setEnclave slot left)

def teeDestroy (tee : TEEManager) (enclaveId : Int32) : Bool × TEEManager :=
  match teeSlot enclaveId with
  | none => (false, tee)
  | some slot =>
    let enclave := tee.enclaves slot
    let wiped : TEEEnclave :=
      { enclave with memory := zeroMemory, identity := zeroIdentity, sealKey := zeroDigest, state := .destroyed }
    (true, { tee.setEnclave slot wiped with enclaveCount := tee.enclaveCount - 1 })

/-! ## Attestation -/

inductive AttestType where
  | local_ | remote

def AttestType.value : AttestType → UInt8
  | .local_ => 0
  | .remote => 1

structure TEEAttestReport where
  attestType : AttestType
  /-- 64 bytes. -/
  reportData : List UInt8
  mrEnclave : Digest
  mrSigner : Digest
  productId : UInt16
  securityVersion : UInt16
  attributes : UInt32
  reportMac : Digest

/-- The bytes of a report before its MAC. -/
def reportBytes (report : TEEAttestReport) : List UInt8 :=
  [report.attestType.value, 0, 0, 0] ++ report.reportData ++ report.mrEnclave.toList ++ report.mrSigner.toList ++
    lowBytes report.productId.toUInt32 ++ lowBytes report.securityVersion.toUInt32 ++
    lowBytes report.attributes ++ lowBytes (report.attributes >>> 16)

/-- The report of an enclave about such data, with the MAC under the key. -/
def makeReport (type : AttestType) (enclave : TEEEnclave) (reportData : List UInt8) (key : Digest) :
    TEEAttestReport :=
  let report : TEEAttestReport :=
    { attestType := type
      reportData := reportData
      mrEnclave := enclave.identity.mrEnclave
      mrSigner := enclave.identity.mrSigner
      productId := enclave.identity.productId
      securityVersion := enclave.identity.securityVersion
      attributes := enclave.identity.attributes
      reportMac := zeroDigest }
  { report with reportMac := digestAt (hmacSha256 key.toList (reportBytes report)) }

/-- The random bytes that are drawn do not get into the report. -/
def teeAttestLocal (tee : TEEManager) (enclaveId targetId : Int32) : Option TEEAttestReport :=
  match teeSlot enclaveId, teeSlot targetId with
  | some source, some target =>
    let src := tee.enclaves source
    let target := tee.enclaves target
    if src.state.value < TEEState.initialized.value ∨ target.state.value < TEEState.initialized.value then none
    else
      some (makeReport .local_ src (src.identity.mrEnclave.toList ++ target.identity.mrEnclave.toList)
        target.sealKey)
  | _, _ => none

/-- The label has 11 bytes, with the zero at its end. -/
def attestKey (tee : TEEManager) : Digest :=
  digestAt (hkdfSha256 tee.platformMasterKey.toList (labelBytes "ATTEST-KEY" ++ [0]) [] 32)

/-- `random` are the 32 bytes drawn. -/
def teeAttestRemote (tee : TEEManager) (enclaveId : Int32) (challenge random : Digest) :
    Option TEEAttestReport :=
  match teeSlot enclaveId with
  | none => none
  | some slot =>
    let enclave := tee.enclaves slot
    if enclave.state.value < TEEState.initialized.value then none
    else some (makeReport .remote enclave (challenge.toList ++ random.toList) (attestKey tee))

/-- The key of remote reports is used for all. -/
def teeVerifyReport (tee : TEEManager) (report : TEEAttestReport) : Bool :=
  constantTimeEq (digestAt (hmacSha256 (attestKey tee).toList (reportBytes report))) report.reportMac

/-! ## What a call can do -/

/-- A creation fails and changes nothing, or takes a slot that was not in use. -/
theorem create_outcome (tee : TEEManager) (code : List UInt8) (signerHash : Digest) (productId : UInt16)
    (attributes : UInt32) :
    teeCreateEnclave tee code signerHash productId attributes = (none, tee) ∨
      ∃ slot, ((tee.enclaves slot).state = .uninitialized ∨ (tee.enclaves slot).state = .destroyed) ∧
        teeCreateEnclave tee code signerHash productId attributes =
          (some slot, { tee with
            enclaves :=
              Function.update tee.enclaves slot (newEnclave tee slot code signerHash productId attributes)
            enclaveCount := tee.enclaveCount + 1 }) := by
  unfold teeCreateEnclave
  split
  · exact .inl rfl
  split
  · exact .inl rfl
  · rename_i slot found
    have unused := List.find?_some found
    exact .inr ⟨slot, decide_eq_true_iff.1 unused, rfl⟩

/-- An initialisation fails and changes nothing, or takes a created slot on. -/
theorem init_enclave_outcome (tee : TEEManager) (enclaveId : Int32) :
    teeInitEnclave tee enclaveId = (false, tee) ∨
      ∃ slot memory, teeSlot enclaveId = some slot ∧ (tee.enclaves slot).state = .created ∧
        teeInitEnclave tee enclaveId =
          (true, tee.setEnclave slot
            { tee.enclaves slot with memory := memory, isSecure := true, state := .initialized }) := by
  unfold teeInitEnclave
  split
  · exact .inl rfl
  · rename_i slot found
    dsimp only
    split
    · exact .inl rfl
    · rename_i created
      exact .inr ⟨slot, _, found, not_not.1 created, rfl⟩

/-- Entering fails and changes nothing, or succeeds in a slot that can be entered. -/
theorem enter_outcome (tee : TEEManager) (enclaveId : Int32) (data : List UInt8) (outputLen : Option Nat) :
    teeEnter tee enclaveId data outputLen = (false, none, tee) ∨
      ∃ slot entry exit, teeSlot enclaveId = some slot ∧
        ((tee.enclaves slot).state = .initialized ∨ (tee.enclaves slot).state = .stopped) ∧
        teeEnter tee enclaveId data outputLen =
          (true, enclaveOutput data outputLen, tee.setEnclave slot
            { tee.enclaves slot with tscLastEntry := entry, tscLastExit := exit, state := .stopped }) := by
  unfold teeEnter
  split
  · exact .inl rfl
  · rename_i slot found
    dsimp only
    split
    · exact .inl rfl
    · rename_i runs
      rw [not_and_or, not_not, not_not] at runs
      exact .inr ⟨slot, _, _, found, runs, rfl⟩

/-- When a local attestation succeeds, by the order of the states. -/
theorem attest_local_isSome (tee : TEEManager) (enclaveId targetId : Int32) :
    (teeAttestLocal tee enclaveId targetId).isSome = true ↔
      ∃ source target, teeSlot enclaveId = some source ∧ teeSlot targetId = some target ∧
        TEEState.initialized.value ≤ (tee.enclaves source).state.value ∧
        TEEState.initialized.value ≤ (tee.enclaves target).state.value := by
  constructor
  · intro some_
    unfold teeAttestLocal at some_
    split at some_
    · rename_i source target foundSource foundTarget
      dsimp only at some_
      split at some_
      · cases some_
      · rename_i late
        rw [not_or, Nat.not_lt, Nat.not_lt] at late
        exact ⟨source, target, foundSource, foundTarget, late⟩
    · cases some_
  · rintro ⟨source, target, foundSource, foundTarget, late⟩
    have notEarly : ¬ ((tee.enclaves source).state.value < TEEState.initialized.value ∨
        (tee.enclaves target).state.value < TEEState.initialized.value) := by
      rw [not_or, Nat.not_lt, Nat.not_lt]
      exact late
    rw [teeAttestLocal, foundSource, foundTarget]
    dsimp only
    rw [if_neg notEarly]
    rfl

/-- When a remote one does. -/
theorem attest_remote_isSome (tee : TEEManager) (enclaveId : Int32) (challenge random : Digest) :
    (teeAttestRemote tee enclaveId challenge random).isSome = true ↔
      ∃ slot, teeSlot enclaveId = some slot ∧
        TEEState.initialized.value ≤ (tee.enclaves slot).state.value := by
  constructor
  · intro some_
    unfold teeAttestRemote at some_
    split at some_
    · cases some_
    · rename_i slot found
      dsimp only at some_
      split at some_
      · cases some_
      · rename_i late
        exact ⟨slot, found, Nat.not_lt.1 late⟩
  · rintro ⟨slot, found, late⟩
    rw [teeAttestRemote, found]
    dsimp only
    rw [if_neg (Nat.not_lt.2 late)]
    rfl

/-! ## Reports -/

/-- The two low bytes tell words apart modulo 65536. -/
theorem lowBytes_inj {x y : UInt32} : lowBytes x = lowBytes y ↔ x.toNat % 65536 = y.toNat % 65536 := by
  have low (x : UInt32) : x.toUInt8.toNat = x.toNat % 256 := UInt32.toNat_toUInt8 x
  have high (x : UInt32) : (x >>> 8).toNat = x.toNat / 256 := by
    rw [UInt32.toNat_shiftRight, Nat.shiftRight_eq_div_pow]
    rfl
  simp only [lowBytes, List.cons.injEq, and_true, ← UInt8.toNat_inj, low, high]
  omega

/-- The bytes before the MAC are those fields. -/
theorem reportBytes_inj {report other : TEEAttestReport} (len : other.reportData.length = report.reportData.length) :
    reportBytes other = reportBytes report ↔ other = { report with reportMac := other.reportMac } := by
  refine ⟨fun same => ?_, fun eq => by rw [eq]; rfl⟩
  unfold reportBytes at same
  obtain ⟨same, high⟩ := List.append_inj' same rfl
  obtain ⟨same, low⟩ := List.append_inj' same rfl
  obtain ⟨same, version⟩ := List.append_inj' same rfl
  obtain ⟨same, product⟩ := List.append_inj' same rfl
  obtain ⟨same, signer⟩ := List.append_inj' same (by rw [Vector.length_toList, Vector.length_toList])
  obtain ⟨same, enclave⟩ := List.append_inj' same (by rw [Vector.length_toList, Vector.length_toList])
  obtain ⟨type, data⟩ := List.append_inj same rfl
  rw [lowBytes_inj] at high low version product
  have typeEq : other.attestType = report.attestType := by
    have value := List.head_eq_of_cons_eq type
    cases h : other.attestType <;> cases h' : report.attestType <;> rw [h, h'] at value <;> first | rfl | cases value
  have productEq : other.productId = report.productId := by
    have bound := report.productId.toNat_lt
    have bound' := other.productId.toNat_lt
    rw [UInt16.toNat_toUInt32, UInt16.toNat_toUInt32] at product
    exact UInt16.toNat_inj.1 (by omega)
  have versionEq : other.securityVersion = report.securityVersion := by
    have bound := report.securityVersion.toNat_lt
    have bound' := other.securityVersion.toNat_lt
    rw [UInt16.toNat_toUInt32, UInt16.toNat_toUInt32] at version
    exact UInt16.toNat_inj.1 (by omega)
  have attributesEq : other.attributes = report.attributes := by
    have bound := report.attributes.toNat_lt
    have bound' := other.attributes.toNat_lt
    have half (x : UInt32) : (x >>> 16).toNat = x.toNat / 65536 := by
      rw [UInt32.toNat_shiftRight, Nat.shiftRight_eq_div_pow]
      rfl
    rw [half, half] at high
    exact UInt32.toNat_inj.1 (by omega)
  cases other
  cases report
  dsimp only at typeEq productEq versionEq attributesEq signer enclave data
  rw [typeEq, data, Vector.toList_inj.1 enclave, Vector.toList_inj.1 signer, productEq, versionEq, attributesEq]

/-- Different bytes with the same MAC. -/
def SameMac (key : Digest) (msg msg' : List UInt8) : Prop :=
  msg ≠ msg' ∧ hmacSha256 key.toList msg = hmacSha256 key.toList msg'

/-- What the verification compares. -/
theorem verify_report_iff {tee : TEEManager} {report : TEEAttestReport} :
    teeVerifyReport tee report = true ↔
      report.reportMac = digestAt (hmacSha256 (attestKey tee).toList (reportBytes report)) := by
  rw [teeVerifyReport, constant_time_eq_iff, eq_comm]

/-- A report carries the code of its bytes under the key it was made with. -/
theorem reportMac_makeReport (type : AttestType) (enclave : TEEEnclave) (reportData : List UInt8) (key : Digest) :
    (makeReport type enclave reportData key).reportMac =
      digestAt (hmacSha256 key.toList (reportBytes (makeReport type enclave reportData key))) := by
  simp only [makeReport, reportBytes]

/-- A remote report is made under the attestation key. -/
theorem reportMac_attest_remote {tee : TEEManager} {enclaveId : Int32} {challenge random : Digest}
    {report : TEEAttestReport} (made : teeAttestRemote tee enclaveId challenge random = some report) :
    report.reportMac = digestAt (hmacSha256 (attestKey tee).toList (reportBytes report)) ∧
      report.reportData.length = 64 := by
  unfold teeAttestRemote at made
  split at made
  · cases made
  · dsimp only at made
    split at made
    · cases made
    · rw [← Option.some.inj made]
      refine ⟨reportMac_makeReport .., ?_⟩
      rw [makeReport, List.length_append, Vector.length_toList, Vector.length_toList]

/-- A local one under the seal key of the target. -/
theorem reportMac_attest_local {tee : TEEManager} {enclaveId targetId : Int32} {report : TEEAttestReport}
    (made : teeAttestLocal tee enclaveId targetId = some report) :
    ∃ target, teeSlot targetId = some target ∧
      report.reportMac = digestAt (hmacSha256 (tee.enclaves target).sealKey.toList (reportBytes report)) := by
  unfold teeAttestLocal at made
  split at made
  · rename_i source target foundSource foundTarget
    dsimp only at made
    split at made
    · cases made
    · rw [← Option.some.inj made]
      exact ⟨target, foundTarget, reportMac_makeReport ..⟩
  · cases made

end MiniHardware.Security
