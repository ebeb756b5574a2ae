import MiniHardware.Security.AesNat
import MiniHardware.Security.TeeLifecycle

/-!
# Sealing (`mini-hardware-security/src/tee_enclave.c`)

Data is encrypted under a key derived from the enclave's seal key, with the name
of the policy as nonce and as additional data. The seal key depends on the code
whatever the policy, so what one version of an enclave has sealed to its signer,
another one does not open.
-/

namespace MiniHardware.Security
open Lib

/-- 1024 bytes of data, the 16 of the MAC that are used, and the name of the policy in 16 bytes. -/
structure TEESealedData where
  encryptedData : List UInt8
  mac : AesBlock
  keyPolicy : List UInt8
  dataSize : Nat
  valid : Bool

def policyName (policyMrsigner : Bool) : List UInt8 :=
  writeFront (labelBytes (if policyMrsigner then "MRSIGNER" else "MRENCLAVE")) (List.replicate 16 0)

def sealAesKey (sealKey : Digest) : AesKey := digestAt (hkdfSha256 sealKey.toList (labelBytes "ENC") [] 32)

def sealIv (keyPolicy : List UInt8) : Vector UInt8 12 :=
  Vector.ofFn fun i => if i.val < 8 then keyPolicy.getD i.val 0 else 0

/-- The name up to its end, as `strlen` finds it. -/
def policyAad (keyPolicy : List UInt8) : List UInt8 := keyPolicy.takeWhile (· ≠ 0)

/-- The encryption of data for an enclave with such a seal key. -/
def sealEncrypt (sealKey : Digest) (keyPolicy data : List UInt8) : List UInt8 × AesBlock :=
  gcmEncrypt (aesInit (sealAesKey sealKey)) (sealIv keyPolicy) data (policyAad keyPolicy)

/-- `data` that is too long or an identifier out of range leaves `sealed` as it was. -/
def teeSeal (tee : TEEManager) (enclaveId : Int32) (data : List UInt8) (sealed : TEESealedData)
    (policyMrsigner : Bool) : TEESealedData :=
  if data.length > 1024 then sealed
  else
    match teeSlot enclaveId with
    | none => sealed
    | some slot =>
      let keyPolicy := policyName policyMrsigner
      let (cipher, mac) := sealEncrypt (tee.enclaves slot).sealKey keyPolicy data
      { encryptedData := writeFront cipher (List.replicate 1024 0)
        mac := mac
        keyPolicy := keyPolicy
        dataSize := data.length
        valid := true }

/-- The return value, the output buffer and its length; `data` and `dataLen` are what they held. -/
def teeUnseal (tee : TEEManager) (enclaveId : Int32) (sealed : TEESealedData) (data : List UInt8) (dataLen : Nat) :
    Bool × List UInt8 × Nat :=
  if sealed.valid = false then (false, data, dataLen)
  else
    match teeSlot enclaveId with
    | none => (false, data, dataLen)
    | some slot =>
      if sealed.dataSize > 1024 then (false, data, dataLen)
      else
        let ctx := aesInit (sealAesKey (tee.enclaves slot).sealKey)
        let (ok, out) := gcmDecrypt ctx (sealIv sealed.keyPolicy) (sealed.encryptedData.take sealed.dataSize) data
          (policyAad sealed.keyPolicy) sealed.mac
        (ok, out, if ok then sealed.dataSize else dataLen)

/-! ## The keys of live enclaves -/

/-- The enclave in the slot of an identifier, created and not destroyed. -/
structure Live (tee : TEEManager) (enclaveId : Int32) (enclave : TEEEnclave) : Prop where
  there : ∃ slot, teeSlot enclaveId = some slot ∧ tee.enclaves slot = enclave
  alive : enclave.unused = false

/-- Each live enclave has the key of its identity. -/
structure Keyed (masterKey : Digest) (tee : TEEManager) : Prop where
  master : tee.platformMasterKey = masterKey
  key : ∀ slot, (tee.enclaves slot).unused = false →
    (tee.enclaves slot).sealKey = enclaveSealKey masterKey (tee.enclaves slot).identity

/-- An enclave is in use between its creation and its destruction. -/
theorem unused_eq_false {enclave : TEEEnclave} :
    enclave.unused = false ↔ enclave.state ≠ .uninitialized ∧ enclave.state ≠ .destroyed := by
  rw [TEEEnclave.unused, decide_eq_false_iff_not, not_or]

variable {masterKey : Digest} {tee : TEEManager}

/-- An enclave that was live and keeps its identity and key. -/
theorem Keyed.setEnclave (keyed : Keyed masterKey tee) (slot : Fin teeMaxEnclaves) (enclave : TEEEnclave)
    (key : enclave.unused = false → enclave.sealKey = enclaveSealKey masterKey enclave.identity) :
    Keyed masterKey (tee.setEnclave slot enclave) := by
  refine ⟨keyed.master, fun i => ?_⟩
  show (Function.update tee.enclaves slot enclave i).unused = false →
    (Function.update tee.enclaves slot enclave i).sealKey =
      enclaveSealKey masterKey (Function.update tee.enclaves slot enclave i).identity
  rw [Function.update_apply]
  split
  · exact key
  · exact keyed.key i

/-- Every call keeps the keys. -/
theorem keyed_step (s : TeeRun) (op : TeeOp) (keyed : Keyed masterKey s.tee) :
    Keyed masterKey (teeStep s op).tee := by
  cases op with
  | create code signerHash productId attributes =>
    rw [teeStep]
    obtain same | ⟨slot, -, made⟩ := create_outcome s.tee code signerHash productId attributes
    · rw [same]
      exact keyed
    · rw [made]
      have set := keyed.setEnclave slot (newEnclave s.tee slot code signerHash productId attributes)
        (by rw [← keyed.master]; exact fun _ => rfl)
      exact ⟨set.master, set.key⟩
  | initEnclave enclaveId =>
    rw [teeStep]
    obtain same | ⟨slot, memory, -, created, made⟩ := init_enclave_outcome s.tee enclaveId
    · rw [same]
      exact keyed
    · rw [made]
      exact keyed.setEnclave _ _ fun _ => keyed.key slot (unused_eq_false.2 (by rw [created]; decide))
  | enter enclaveId data outputLen =>
    rw [teeStep]
    obtain same | ⟨slot, entry, exit, -, runs, left⟩ := enter_outcome s.tee enclaveId data outputLen
    · rw [same]
      exact keyed
    · rw [left]
      refine keyed.setEnclave _ _ fun _ => keyed.key slot (unused_eq_false.2 ?_)
      rcases runs with eq | eq
      · rw [eq]
        decide
      · rw [eq]
        decide
  | destroy enclaveId =>
    rw [teeStep, teeDestroy]
    cases teeSlot enclaveId with
    | none => exact keyed
    | some slot =>
      have set := keyed.setEnclave slot
        ({ s.tee.enclaves slot with
          memory := zeroMemory, identity := zeroIdentity, sealKey := zeroDigest, state := .destroyed })
        (fun alive => absurd rfl (unused_eq_false.1 alive).2)
      exact ⟨set.master, set.key⟩
  | attestLocal enclaveId targetId => exact keyed
  | attestRemote enclaveId challenge random => exact keyed

/-- Each live enclave has the key of its identity after any calls. -/
theorem keyed_run (masterKey : Digest) (baseEpc epcSize : UInt64) (hasHw : Bool) (ops : List TeeOp) :
    Keyed masterKey (run teeStep (teeStart masterKey baseEpc epcSize hasHw) ops).tee :=
  run_invariant (motive := fun s : TeeRun => Keyed masterKey s.tee) keyed_step
    ⟨rfl, fun _ alive => absurd rfl (unused_eq_false.1 alive).1⟩ ops

/-- The key of a live enclave. -/
theorem Live.key {enclaveId : Int32} {enclave : TEEEnclave} (live : Live tee enclaveId enclave)
    (keyed : Keyed masterKey tee) : enclave.sealKey = enclaveSealKey masterKey enclave.identity := by
  obtain ⟨⟨slot, -, rfl⟩, alive⟩ := live
  exact keyed.key slot alive

/-! ## The round trip -/

/-- The policy lets an enclave open what another one has sealed. -/
def Allows (policyMrsigner : Bool) (a b : TEEIdentity) : Prop :=
  if policyMrsigner then b.mrSigner = a.mrSigner
  else b.mrEnclave = a.mrEnclave ∧ b.mrSigner = a.mrSigner ∧ b.productId = a.productId ∧ b.attributes = a.attributes

/-- The keys of the two identities encrypt the data alike. -/
def SealsAlike (masterKey : Digest) (a b : TEEIdentity) (policyMrsigner : Bool) (data : List UInt8) : Prop :=
  sealEncrypt (enclaveSealKey masterKey b) (policyName policyMrsigner) data =
    sealEncrypt (enclaveSealKey masterKey a) (policyName policyMrsigner) data

/-- What the seal key is derived from beside the signer: the code, the product and the low half of the
attributes. -/
def SameKeyInput (a b : TEEIdentity) : Prop :=
  b.mrEnclave = a.mrEnclave ∧ b.productId = a.productId ∧ lowBytes b.attributes = lowBytes a.attributes

/-- Identities with the same input to the derivation seal alike. -/
theorem sealsAlike_of_same {a b : TEEIdentity} (signer : b.mrSigner = a.mrSigner) (same : SameKeyInput a b)
    (policyMrsigner : Bool) (data : List UInt8) : SealsAlike masterKey a b policyMrsigner data := by
  obtain ⟨code, product, attributes⟩ := same
  rw [SealsAlike, enclaveSealKey, enclaveSealKey, code, signer, product, attributes]

/-- The front of the buffer is the ciphertext. -/
theorem take_writeFront_zeros (cipher : List UInt8) : (writeFront cipher (List.replicate 1024 0)).take cipher.length = cipher :=
  List.take_left

/-- Different ciphertexts of one length leave different buffers. -/
theorem writeFront_inj {x y buffer : List UInt8} (len : x.length = y.length) :
    writeFront x buffer = writeFront y buffer ↔ x = y := by
  rw [writeFront, writeFront, len]
  exact List.append_left_inj _

/-- What is sealed in one state is opened in another if and only if the two keys encrypt it alike. -/
theorem tee_unseal_seal_iff {tee' : TEEManager} {a b : Int32} {slotA slotB : Fin teeMaxEnclaves}
    (foundA : teeSlot a = some slotA) (foundB : teeSlot b = some slotB) {data : List UInt8}
    (le : data.length ≤ 1024) (sealed : TEESealedData) (policyMrsigner : Bool) (buffer : List UInt8) (dataLen : Nat) :
    teeUnseal tee' b (teeSeal tee a data sealed policyMrsigner) buffer dataLen =
        (true, writeFront data buffer, data.length) ↔
      sealEncrypt (tee'.enclaves slotB).sealKey (policyName policyMrsigner) data =
        sealEncrypt (tee.enclaves slotA).sealKey (policyName policyMrsigner) data := by
  generalize keyA : (tee.enclaves slotA).sealKey = sealKeyA
  generalize keyB : (tee'.enclaves slotB).sealKey = sealKeyB
  have cipherLen : (sealEncrypt sealKeyA (policyName policyMrsigner) data).1.length = data.length :=
    length_ctrXor _ _ _
  have blob : (teeSeal tee a data sealed policyMrsigner) =
      ⟨writeFront (sealEncrypt sealKeyA (policyName policyMrsigner) data).1 (List.replicate 1024 0),
        (sealEncrypt sealKeyA (policyName policyMrsigner) data).2, policyName policyMrsigner, data.length, true⟩ := by
    rw [teeSeal, if_neg (Nat.not_lt.2 le), foundA, ← keyA]
  have front := take_writeFront_zeros (sealEncrypt sealKeyA (policyName policyMrsigner) data).1
  rw [cipherLen] at front
  rw [blob, teeUnseal, if_neg Bool.noConfusion, foundB]
  dsimp only
  rw [if_neg (Nat.not_lt.2 le), keyB, front, gcm_decrypt_accepts]
  generalize sealed₀ : sealEncrypt sealKeyA (policyName policyMrsigner) data = blobA at cipherLen ⊢
  obtain ⟨cipher, mac⟩ := blobA
  rw [sealEncrypt, gcm_encrypt_eq_iff]
  dsimp only at cipherLen ⊢
  split
  · rename_i same
    have outLen := length_ctrXor (aesInit (sealAesKey sealKeyB))
      (incrementCounter (initialCounter (sealIv (policyName policyMrsigner)))) cipher
    rw [and_iff_left same]
    show (true, writeFront _ buffer, data.length) = (true, writeFront data buffer, data.length) ↔ _
    rw [Prod.mk.injEq, Prod.mk.injEq, and_iff_right rfl, and_iff_left rfl,
      writeFront_inj (outLen.trans cipherLen)]
    exact eq_comm
  · rename_i differs
    constructor
    · intro eq
      exact absurd (congrArg Prod.fst eq) (Bool.noConfusion)
    · exact fun both => absurd both.2 differs

/-- **An enclave opens what another one has sealed, where the policy lets it, if and only if the policy is
not the signer's, or the signers differ, or the code, the product and the low half of the attributes are
the same too, but for keys that encrypt alike though they are derived from different identities.** -/
theorem tee_unseal_allowed_iff (masterKey : Digest) (baseEpc epcSize : UInt64) (hasHw : Bool)
    (before after : List TeeOp) (a b : Int32) (enclaveA enclaveB : TEEEnclave)
    (liveA : Live (run teeStep (teeStart masterKey baseEpc epcSize hasHw) before).tee a enclaveA)
    (liveB : Live (run teeStep (teeStart masterKey baseEpc epcSize hasHw) (before ++ after)).tee b enclaveB)
    (data : List UInt8) (le : data.length ≤ 1024) (sealed : TEESealedData) (policyMrsigner : Bool)
    (buffer : List UInt8) (dataLen : Nat) :
    let start := teeStart masterKey baseEpc epcSize hasHw
    let blob := teeSeal (run teeStep start before).tee a data sealed policyMrsigner
    (Allows policyMrsigner enclaveA.identity enclaveB.identity →
      teeUnseal (run teeStep start (before ++ after)).tee b blob buffer dataLen =
        (true, writeFront data buffer, data.length)) ↔
    (policyMrsigner = true → enclaveB.identity.mrSigner = enclaveA.identity.mrSigner →
      SameKeyInput enclaveA.identity enclaveB.identity ∨
        SealsAlike masterKey enclaveA.identity enclaveB.identity policyMrsigner data) := by
  intro start blob
  have keyA := liveA.key (keyed_run ..)
  have keyB := liveB.key (keyed_run ..)
  obtain ⟨⟨slotA, foundA, rfl⟩, -⟩ := liveA
  obtain ⟨⟨slotB, foundB, rfl⟩, -⟩ := liveB
  rw [tee_unseal_seal_iff foundA foundB le sealed policyMrsigner buffer dataLen, keyA, keyB]
  cases policyMrsigner with
  | true =>
    constructor
    · exact fun opens _ signer => .inr (opens signer)
    · intro alike signer
      rcases alike rfl signer with same | alike
      · exact sealsAlike_of_same signer same true data
      · exact alike
  | false =>
    refine ⟨fun _ => nofun, ?_⟩
    rintro - ⟨code, signer, product, attributes⟩
    exact sealsAlike_of_same signer ⟨code, product, congrArg lowBytes attributes⟩ false data

/-! ## Two versions of an enclave -/

/-- Two enclaves of one signer with different code. -/
def twoVersions : List TeeOp := [.create [] zeroDigest 1 0, .create [0] zeroDigest 1 0]

def versionsTee : TEEManager := (run teeStep (teeStart zeroDigest 0 0 false) twoVersions).tee

def versionCode (slot : Fin teeMaxEnclaves) : List UInt8 := if slot = 0 then [] else [0]

/-- The bytes of the AES key of a version. -/
def versionKey (slot : Fin teeMaxEnclaves) : List Nat :=
  let zeros := List.replicate 32 0
  let sealKey := Sha256Nat.hkdf zeros
    (Sha256Nat.sha256 ((versionCode slot).map UInt8.toNat) ++ zeros ++ [1, 0, 0, 0])
    ((labelBytes "SEAL-KEY").map UInt8.toNat)
  Sha256Nat.hkdf sealKey ((labelBytes "ENC").map UInt8.toNat) []

/-- The AES key of a version, over numbers. -/
theorem bytes_sealAesKey {slot : Fin teeMaxEnclaves} {identity : TEEIdentity}
    (code : identity.mrEnclave = digestAt (hashPieces [versionCode slot])) (signer : identity.mrSigner = zeroDigest)
    (product : identity.productId = 1) (attributes : identity.attributes = 0) :
    AesNat.bytes (sealAesKey (enclaveSealKey zeroDigest identity)) = versionKey slot := by
  have long : ∀ salt ikm info : List UInt8, salt.length ≠ 0 → (hkdfSha256 salt ikm info 32).length = 32 := by
    intro salt ikm info pos
    rw [Sha256Nat.hkdfSha256_eq salt ikm info pos]
    exact length_hmacSha256 _ _
  have salt : ∀ d : Digest, d.toList.length ≠ 0 := by
    intro d
    rw [Vector.length_toList]
    decide
  have zeros : zeroDigest.toList.map UInt8.toNat = List.replicate 32 0 := by decide
  rw [AesNat.bytes, sealAesKey, toList_digestAt (long _ _ _ (salt _)), Sha256Nat.toNat_hkdfSha256 _ _ _ (salt _),
    enclaveSealKey, toList_digestAt (long _ _ _ (salt _)), Sha256Nat.toNat_hkdfSha256 _ _ _ (salt _), code, signer,
    product, attributes, toList_digestAt (length_hashPieces _)]
  simp only [List.map_append, Sha256Nat.toNat_hashPieces, List.flatten_singleton, zeros]
  rfl

/-- The enclave that one of the versions becomes. -/
def versionEnclave (slot : Fin teeMaxEnclaves) : TEEEnclave :=
  newEnclave (teeInit zeroDigest 0 0 false) slot (versionCode slot) zeroDigest 1 0

/-- Both versions have one signer. -/
theorem versionEnclave_signer (slot : Fin teeMaxEnclaves) : (versionEnclave slot).identity.mrSigner = zeroDigest := rfl

/-- Their keys are those that `versionKey` computes. -/
theorem bytes_versionEnclave (slot : Fin teeMaxEnclaves) :
    AesNat.bytes (sealAesKey (versionEnclave slot).sealKey) = versionKey slot :=
  @bytes_sealAesKey slot (versionEnclave slot).identity rfl rfl rfl rfl

/-- The first version is in slot 0. -/
theorem versionsTee_first : versionsTee.enclaves 0 = versionEnclave 0 := rfl

/-- The second version is in slot 1. -/
theorem versionsTee_second : versionsTee.enclaves 1 = versionEnclave 1 := rfl

/-- The keys of the two versions. -/
theorem version_keys :
    versionKey 0 = [62, 173, 174, 231, 128, 63, 180, 168, 156, 87, 179, 127, 71, 131, 0, 3, 142, 51, 23, 202, 163,
      179, 228, 249, 123, 214, 126, 40, 99, 16, 43, 147] ∧
    versionKey 1 = [124, 228, 67, 64, 82, 174, 63, 135, 154, 35, 82, 8, 238, 151, 41, 115, 93, 4, 73, 39, 5, 121, 65,
      160, 9, 184, 104, 16, 97, 95, 216, 219] := by
  decide +kernel

/-- The first counter block under the policy of the signer. -/
def signerCounter : AesBlock := incrementCounter (initialCounter (sealIv (policyName true)))

/-- The counter block, over numbers. -/
theorem bytes_signerCounter : AesNat.bytes signerCounter = [77, 82, 83, 73, 71, 78, 69, 82, 0, 0, 0, 0, 0, 0, 0, 2] := by
  decide

/-- The first bytes of the two keystreams are not the same. -/
theorem version_streams :
    (AesNat.encrypt (versionKey 0) (AesNat.bytes signerCounter)).getD 0 0 = 45 ∧
    (AesNat.encrypt (versionKey 1) (AesNat.bytes signerCounter)).getD 0 0 = 102 := by
  rw [version_keys.1, version_keys.2, bytes_signerCounter]
  decide +kernel

/-- A zero byte is encrypted to the first byte of the key stream. -/
theorem toNat_ctrXor_zero (key : AesKey) (ctr : AesBlock) :
    (ctrXor (aesInit key) ctr [0]).map UInt8.toNat = [(AesNat.encrypt (AesNat.bytes key) (AesNat.bytes ctr)).getD 0 0] := by
  rw [← AesNat.bytes_aesEncrypt, AesNat.bytes_block]
  generalize encrypted : aesEncrypt (aesInit key) ctr = stream
  have whole : ctrXor (aesInit key) ctr [0] = [stream[0]] := by
    rw [ctrXor, mask_eq, encrypted, List.take_of_length_le (by decide), List.drop_of_length_le (by decide), mask_nil,
      List.append_nil]
    refine List.ext_getElem (by simp) fun i _ h => ?_
    rw [List.length_singleton, Nat.lt_one_iff] at h
    subst h
    rw [List.getElem_zipWith, Vector.getElem_toList, List.getElem_cons_zero, List.getElem_cons_zero, UInt8.zero_xor]
  rw [whole]
  rfl

/-- The two versions seal a byte of zero differently. -/
theorem sealEncrypt_versions_ne :
    sealEncrypt (versionEnclave 1).sealKey (policyName true) [0] ≠
      sealEncrypt (versionEnclave 0).sealKey (policyName true) [0] := by
  intro alike
  have ciphers : ctrXor (aesInit (sealAesKey (versionEnclave 1).sealKey)) signerCounter [0] =
      ctrXor (aesInit (sealAesKey (versionEnclave 0).sealKey)) signerCounter [0] := congrArg Prod.fst alike
  have streams := congrArg (List.map UInt8.toNat) ciphers
  rw [toNat_ctrXor_zero, toNat_ctrXor_zero, bytes_versionEnclave, bytes_versionEnclave, version_streams.1,
    version_streams.2] at streams
  exact absurd streams (by decide)

/-- The first version is live. -/
theorem live_version_first : Live versionsTee 0 (versionEnclave 0) := ⟨⟨0, rfl, versionsTee_first⟩, rfl⟩

/-- The second version is live. -/
theorem live_version_second : Live versionsTee 1 (versionEnclave 1) := ⟨⟨1, rfl, versionsTee_second⟩, rfl⟩

/-- A version opens what it has sealed itself. -/
theorem tee_unseal_allowed_first :
    teeUnseal versionsTee 0 (teeSeal versionsTee 0 [0] ⟨[], zeroBlock, [], 0, false⟩ true) [0] 0 =
      (true, writeFront [0] [0], 1) :=
  (tee_unseal_allowed_iff zeroDigest 0 0 false twoVersions [] 0 0 (versionEnclave 0) (versionEnclave 0)
    live_version_first live_version_first [0] (by decide) ⟨[], zeroBlock, [], 0, false⟩ true [0] 0).2
    (fun _ _ => .inl ⟨rfl, rfl, rfl⟩) rfl

/-- What the first version has sealed to its signer, the second one does not open. -/
theorem tee_seal_mrsigner_lost :
    Live versionsTee 0 (versionEnclave 0) ∧ Live versionsTee 1 (versionEnclave 1) ∧
    Allows true (versionEnclave 0).identity (versionEnclave 1).identity ∧
    ∀ sealed buffer dataLen, teeUnseal versionsTee 1 (teeSeal versionsTee 0 [0] sealed true) buffer dataLen ≠
      (true, writeFront [0] buffer, 1) := by
  refine ⟨live_version_first, live_version_second, ?_, ?_⟩
  · exact (versionEnclave_signer 1).trans (versionEnclave_signer 0).symm
  · intro sealed buffer dataLen opens
    have found0 : teeSlot 0 = some 0 := rfl
    have found1 : teeSlot 1 = some 1 := rfl
    have alike := (tee_unseal_seal_iff found0 found1 (by decide) sealed true buffer dataLen).1 opens
    rw [versionsTee_first, versionsTee_second] at alike
    exact sealEncrypt_versions_ne alike

end MiniHardware.Security
