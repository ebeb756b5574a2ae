import MiniHardware.Security.Tpm

/-!
# The event log (`mini-hardware-security/src/secure_boot.c`)

Every measurement extends a PCR and records an event. The log has room for 256
events; `event_log_record` drops what does not fit, and `tpm_extend` fails for
an index that is not one of a PCR. The two records of a run agree when neither
happens, or both.
-/

namespace MiniHardware.Security
open Lib

inductive MiniHwSecEventType where
  | pcrExtend | stageVerify | stageLaunch | keyRevoke | policyUpdate | securityAlert
deriving DecidableEq

structure MiniHwSecBootEvent where
  type : MiniHwSecEventType
  pcrIndex : UInt32
  digest : Digest
  stageId : UInt32
  timestamp : UInt64
  description : List Char

/-- `MINI_HWSEC_MAX_EVENTS`. -/
abbrev maxEvents : Nat := 256

/-- The first `event_count` entries. -/
structure MiniHwSecEventLog where
  events : List MiniHwSecBootEvent

def eventLogInit : MiniHwSecEventLog := ⟨[]⟩

/-- The description is cut to what fits into 128 bytes with its end. -/
def eventLogRecord (log : MiniHwSecEventLog) (type : MiniHwSecEventType) (pcrIndex : UInt32)
    (digest : Digest) (stageId : UInt32) (description : String) : MiniHwSecEventLog :=
  if log.events.length ≥ maxEvents then log
  else
    ⟨log.events ++ [
      { type := type
        pcrIndex := pcrIndex
        digest := digest
        stageId := stageId
        timestamp := UInt64.ofNat log.events.length
        description := description.toList.take 127 }]⟩

/-- The TPM and the log. -/
structure Measured where
  tpm : MiniHwSecTPM
  log : MiniHwSecEventLog

def sbMeasure (pcrIndex : UInt32) (data : List UInt8) (s : Measured) : Measured :=
  let dataHash := digestAt (hashPieces [data])
  { tpm := (tpmExtend s.tpm pcrIndex dataHash).2
    log := eventLogRecord s.log .pcrExtend pcrIndex dataHash 0 "measurement" }

/-! ## Runs and replay -/

/-- A measurement: PCR index and data. -/
abbrev Measurement := UInt32 × List UInt8

def measureStep (s : Measured) (m : Measurement) : Measured := sbMeasure m.1 m.2 s

/-- The state that `mini_hwsec_sb_init` sets up. -/
def bootState (ekSeed : Digest) : Measured := ⟨tpmInit ekSeed, eventLogInit⟩

def pcrValues (tpm : MiniHwSecTPM) : List Digest := tpm.pcrs.toList.map MiniHwSecPCR.value

/-- The PCR-extend events of the log, extended in order. -/
def replay (tpm : MiniHwSecTPM) (log : MiniHwSecEventLog) : MiniHwSecTPM :=
  (log.events.filter fun e => e.type = .pcrExtend).foldl
    (fun tpm e => (tpmExtend tpm e.pcrIndex e.digest).2) tpm

/-- The measurement extends a PCR. -/
def Extends (s : Measured) (m : Measurement) : Prop :=
  (tpmExtend s.tpm m.1 (digestAt (hashPieces [m.2]))).1 = true

/-- The measurement leaves an event. -/
def Logs (s : Measured) (m : Measurement) : Prop :=
  (measureStep s m).log.events.length = s.log.events.length + 1

/-! ## One measurement -/

theorem length_eventLogRecord (log : MiniHwSecEventLog) (type : MiniHwSecEventType)
    (pcrIndex : UInt32) (digest : Digest) (stageId : UInt32) (description : String) :
    (eventLogRecord log type pcrIndex digest stageId description).events.length =
      if log.events.length < maxEvents then log.events.length + 1 else log.events.length := by
  unfold eventLogRecord
  split
  · rw [if_neg (by omega)]
  · rw [if_pos (by omega), List.length_append, List.length_singleton]

theorem logs_iff (s : Measured) (m : Measurement) : Logs s m ↔ s.log.events.length < maxEvents := by
  unfold Logs measureStep sbMeasure
  rw [length_eventLogRecord]
  split <;> omega

/-- An initialised TPM none of whose PCRs is locked. -/
structure Open (tpm : MiniHwSecTPM) : Prop where
  initialized : tpm.initialized = true
  unlocked : ∀ i, (tpm.pcrs.get i).locked = false

theorem open_init (ekSeed : Digest) : Open (tpmInit ekSeed) where
  initialized := rfl
  unlocked i := by
    exact congrArg MiniHwSecPCR.locked (Vector.getElem_ofFn i.isLt)

theorem Open.extend {tpm : MiniHwSecTPM} (o : Open tpm) (pcrIdx : UInt32) (digest : Digest) :
    (tpmExtend tpm pcrIdx digest).1 = decide (pcrIdx.toNat < maxPcrRegisters) ∧
      Open (tpmExtend tpm pcrIdx digest).2 := by
  by_cases h : pcrIdx.toNat < maxPcrRegisters
  · rw [tpm_extend_of_lt digest o.initialized h (o.unlocked _), decide_eq_true h]
    refine ⟨rfl, o.initialized, fun i => ?_⟩
    dsimp only
    rw [get_setPcr]
    split
    · dsimp only
      exact o.unlocked ⟨pcrIdx.toNat, h⟩
    · exact o.unlocked i
  · rw [tpm_extend_of_not_lt tpm digest h, decide_eq_false h]
    exact ⟨rfl, o⟩

theorem extends_iff {s : Measured} (o : Open s.tpm) (m : Measurement) :
    Extends s m ↔ m.1.toNat < maxPcrRegisters := by
  rw [Extends, (o.extend _ _).1, decide_eq_true_iff]

theorem tpm_extend_failed {tpm : MiniHwSecTPM} {pcrIdx : UInt32} {digest : Digest}
    (failed : (tpmExtend tpm pcrIdx digest).1 = false) : (tpmExtend tpm pcrIdx digest).2 = tpm := by
  unfold tpmExtend at failed ⊢
  split at failed
  · rename_i closed
    rw [if_pos closed]
  · rename_i open_
    rw [if_neg open_]
    split at failed
    · rename_i h
      rw [dif_pos h]
      split at failed
      · rename_i locked
        rw [if_pos locked]
      · cases failed
    · rename_i h
      rw [dif_neg h]

/-- While each measurement leaves both records or none, replay follows. -/
theorem replay_step {s : Measured} {t : MiniHwSecTPM} (m : Measurement) (same : replay t s.log = s.tpm)
    (agree : Extends s m ↔ Logs s m) : replay t (measureStep s m).log = (measureStep s m).tpm := by
  have logs := logs_iff s m
  unfold measureStep sbMeasure
  by_cases room : s.log.events.length < maxEvents
  · have room' : ¬s.log.events.length ≥ maxEvents := Nat.not_le.2 room
    unfold replay at same ⊢
    simp only [eventLogRecord, room', if_false]
    simp only [List.filter_append, List.foldl_append, same]
    rfl
  · have failed : (tpmExtend s.tpm m.1 (digestAt (hashPieces [m.2]))).1 = false := by
      rw [← Bool.not_eq_true]
      exact fun ext => room (logs.1 (agree.1 ext))
    have full : s.log.events.length ≥ maxEvents := Nat.not_lt.1 room
    dsimp only
    rw [tpm_extend_failed failed, eventLogRecord, if_pos full]
    exact same

/-! ## All runs -/

theorem replay_run {s : Measured} {t : MiniHwSecTPM} {ms : List Measurement}
    (same : replay t s.log = s.tpm)
    (agree : Guarded measureStep (fun s m => Extends s m ↔ Logs s m) s ms) :
    replay t (run measureStep s ms).log = (run measureStep s ms).tpm :=
  guarded_invariant (motive := fun s => replay t s.log = s.tpm)
    (fun _ m same agree => replay_step m same agree) same agree

/-- The records agree on the measurements that still fit exactly if these name PCRs, and on the
later ones if these do not. -/
theorem guarded_agree_iff {s : Measured} (o : Open s.tpm) (le : s.log.events.length ≤ maxEvents)
    (ms : List Measurement) :
    Guarded measureStep (fun s m => Extends s m ↔ Logs s m) s ms ↔
      (∀ m ∈ ms.take (maxEvents - s.log.events.length), m.1.toNat < maxPcrRegisters) ∧
        ∀ m ∈ ms.drop (maxEvents - s.log.events.length), ¬m.1.toNat < maxPcrRegisters := by
  induction ms generalizing s with
  | nil => simp [Guarded]
  | cons m ms ih =>
    have len : (measureStep s m).log.events.length =
        if s.log.events.length < maxEvents then s.log.events.length + 1 else s.log.events.length :=
      length_eventLogRecord _ _ _ _ _ _
    have rest := ih (s := measureStep s m) (o.extend _ _).2 (by rw [len]; split <;> omega)
    rw [Guarded, rest, extends_iff o, logs_iff, len]
    by_cases room : s.log.events.length < maxEvents
    · obtain ⟨left, eq⟩ : ∃ left, maxEvents - s.log.events.length = left + 1 :=
        ⟨maxEvents - s.log.events.length - 1, by omega⟩
      have eq' : maxEvents - (s.log.events.length + 1) = left := by omega
      rw [if_pos room, eq, eq', List.take_succ_cons, List.drop_succ_cons, List.forall_mem_cons, and_assoc]
      simp only [room, iff_true]
    · have eq : maxEvents - s.log.events.length = 0 := by omega
      rw [if_neg room, eq]
      simp only [room, iff_false, List.take_zero, List.drop_zero, List.forall_mem_cons,
        List.not_mem_nil, false_imp_iff, implies_true, true_and]

/-- **Replay.** No measurement extends without an event or leaves an event without an extend, and
the log replays to the PCRs, exactly when the first 256 measurements name PCRs and later ones
do not. -/
theorem event_log_replay_iff (ekSeed : Digest) (ms : List Measurement) :
    (Guarded measureStep (fun s m => Extends s m ↔ Logs s m) (bootState ekSeed) ms ∧
      pcrValues (replay (tpmInit ekSeed) (run measureStep (bootState ekSeed) ms).log) =
        pcrValues (run measureStep (bootState ekSeed) ms).tpm) ↔
    (∀ m ∈ ms.take maxEvents, m.1.toNat < maxPcrRegisters) ∧
      ∀ m ∈ ms.drop maxEvents, ¬m.1.toNat < maxPcrRegisters := by
  have agree := guarded_agree_iff (s := bootState ekSeed) (open_init ekSeed) (Nat.zero_le _) ms
  constructor
  · rintro ⟨guarded, -⟩
    exact agree.1 guarded
  · intro fits
    have guarded := agree.2 fits
    refine ⟨guarded, congrArg pcrValues ?_⟩
    apply replay_run _ guarded
    rfl

/-- The 257th measurement of PCR 0 leaves no event, a measurement of PCR 24 nothing else. -/
theorem event_log_diverges :
    ¬Guarded measureStep (fun s m => Extends s m ↔ Logs s m) (bootState pcrInitial)
        (List.replicate 257 (0, [])) ∧
      ¬Guarded measureStep (fun s m => Extends s m ↔ Logs s m) (bootState pcrInitial) [(24, [])] := by
  have agree := guarded_agree_iff (s := bootState pcrInitial) (open_init pcrInitial) (Nat.zero_le _)
  constructor
  · rw [agree]
    rintro ⟨-, later⟩
    apply later (0, []) _ (by decide)
    rw [List.drop_replicate]
    exact List.mem_replicate.2 ⟨Nat.one_ne_zero, rfl⟩
  · rw [agree]
    rintro ⟨first, -⟩
    exact absurd (first (24, []) List.mem_cons_self) (by decide)

end MiniHardware.Security
