import MiniHardware.Security.EventLog

/-!
# The secure boot chain (`mini-hardware-security/src/secure_boot.c`)

`sb_verify_image` hashes the fields of an image and compares with the hash the
image names. `sb_execute_chain` takes the flag it leaves behind, and for an
image without the flag only looks for a trusted anchor with the key id the
image itself names.
-/

namespace MiniHardware.Security
open Lib

/-- `MINI_HWSEC_SB_MAX_STAGES`. -/
abbrev maxStages : Nat := 6

structure MiniHwSecPubKey where
  keyId : UInt32
  revoked : Bool

structure MiniHwSecTrustAnchor where
  fingerprint : Digest
  keyId : UInt32
  trusted : Bool

structure MiniHwSecBootImage where
  stageName : Vector UInt8 32
  binaryHash : Digest
  version : UInt32
  imageSize : UInt32
  loadAddress : UInt64
  entryPoint : UInt64
  signerKeyId : UInt8
  signatureValid : Bool

/-- The first `stage_count` entries are in use. -/
structure MiniHwSecBootChain where
  stages : Vector MiniHwSecBootImage maxStages
  stageCount : Nat
  le : stageCount ≤ maxStages
  bootSuccessful : Bool
  failedStage : UInt32

inductive MiniHwSecBootPolicy where
  | none | verify | enforce | measure
deriving DecidableEq

/-- The first `anchor_count` anchors. -/
structure MiniHwSecBootConfig where
  anchors : List MiniHwSecTrustAnchor
  policy : MiniHwSecBootPolicy
  minVersion : Vector UInt32 maxStages

/-! ## Verifying one image -/

/-- The bytes of an integer in memory, the least significant one first. -/
def littleEndian (bytes : Nat) (x : Nat) : List UInt8 :=
  (List.range bytes).map fun i => UInt8.ofNat (x / 256 ^ i)

@[irreducible] def imageHash (image : MiniHwSecBootImage) : Digest :=
  digestAt (hashPieces [image.stageName.toList, littleEndian 4 image.version.toNat,
    littleEndian 4 image.imageSize.toNat, littleEndian 8 image.loadAddress.toNat,
    littleEndian 8 image.entryPoint.toNat])

/-- `NULL` is `none`; the trust anchor is not looked at. -/
def sbVerifyImage (image : MiniHwSecBootImage) (pubKey : Option MiniHwSecPubKey) :
    Bool × MiniHwSecBootImage :=
  let hashMatch := constantTimeEq (imageHash image) image.binaryHash
  let keyValid := match pubKey with
    | some key => !key.revoked
    | none => false
  (hashMatch && keyValid, { image with signatureValid := hashMatch && keyValid })

def sbRollbackDetect (image : MiniHwSecBootImage) (currentVersion : UInt32) : Bool :=
  image.version < currentVersion

/-! ## Executing the chain -/

/-- The chain and the two records. -/
structure Booting where
  chain : MiniHwSecBootChain
  measured : Measured

/-- A trusted anchor has the key id that the image names. -/
def anchored (config : MiniHwSecBootConfig) (stage : MiniHwSecBootImage) : Bool :=
  config.anchors.any fun anchor => anchor.trusted && anchor.keyId == stage.signerKeyId.toUInt32

def logEvent (s : Measured) (type : MiniHwSecEventType) (i : Nat) (stage : MiniHwSecBootImage)
    (description : String) : Measured :=
  { s with log := eventLogRecord s.log type (UInt32.ofNat i + 4) stage.binaryHash (UInt32.ofNat i) description }

/-- Return `false` at stage `i`. -/
def failAt (b : Booting) (i : Nat) (measured : Measured) : Bool × Booting :=
  (false, ⟨{ b.chain with failedStage := UInt32.ofNat i }, measured⟩)

/-- The loop from the stages `is` on. -/
def executeStages (config : MiniHwSecBootConfig) : List (Fin maxStages) → Booting → Bool × Booting
  | [], b => (true, { b with chain := { b.chain with bootSuccessful := true } })
  | i :: is, b =>
    let stage := b.chain.stages.get i
    let s := sbMeasure (UInt32.ofNat (i.val + 4)) stage.binaryHash.toList b.measured
    if config.minVersion.get i > 0 ∧ sbRollbackDetect stage (config.minVersion.get i) then
      failAt b i.val (logEvent s .securityAlert i.val stage "ROLLBACK_DETECTED")
    else
      let verified := stage.signatureValid || anchored config stage
      let stage := { stage with signatureValid := verified }
      let b := { b with chain := { b.chain with stages := b.chain.stages.set i stage } }
      let s := if verified then s
        else logEvent s .stageVerify i.val stage "SIGNATURE_VERIFICATION_FAILED"
      if ¬verified ∧ config.policy = .enforce then failAt b i.val s
      else
        let s := logEvent s .stageVerify i.val stage "VERIFIED_OK"
        let s := logEvent s .stageLaunch i.val stage "LAUNCHED"
        executeStages config is { b with measured := s }

/-- The stages in use. -/
def stagesOf (chain : MiniHwSecBootChain) : List (Fin maxStages) :=
  (List.finRange chain.stageCount).map (Fin.castLE chain.le)

def sbExecuteChain (chain : MiniHwSecBootChain) (config : MiniHwSecBootConfig) (measured : Measured) :
    Bool × Booting :=
  executeStages config (stagesOf chain) ⟨{ chain with bootSuccessful := false, failedStage := 0 }, measured⟩

/-! ## What execution accepts -/

/-- A stage that the loop lets through. -/
structure Passes (config : MiniHwSecBootConfig) (stage : MiniHwSecBootImage) (i : Fin maxStages) : Prop where
  version : ¬stage.version < config.minVersion.get i
  verified : config.policy = .enforce → stage.signatureValid = true ∨ anchored config stage = true

theorem passes_iff {config : MiniHwSecBootConfig} {stage : MiniHwSecBootImage} {i : Fin maxStages} :
    Passes config stage i ↔
      ¬(config.minVersion.get i > 0 ∧ sbRollbackDetect stage (config.minVersion.get i) = true) ∧
        ¬(¬(stage.signatureValid || anchored config stage) = true ∧ config.policy = .enforce) := by
  have rollback : config.minVersion.get i > 0 ∧ sbRollbackDetect stage (config.minVersion.get i) = true ↔
      stage.version < config.minVersion.get i := by
    rw [sbRollbackDetect, decide_eq_true_iff, and_iff_right_iff_imp]
    exact fun lt => UInt32.lt_of_le_of_lt UInt32.zero_le lt
  rw [rollback, Bool.or_eq_true, not_and', not_not]
  exact ⟨fun h => ⟨h.version, h.verified⟩, fun h => ⟨h.1, h.2⟩⟩

/-- A stage is looked at once, before the flags of others are set. -/
theorem execute_stages_iff {config : MiniHwSecBootConfig} {is : List (Fin maxStages)} (nodup : is.Nodup)
    (b : Booting) :
    (executeStages config is b).1 = true ↔ ∀ i ∈ is, Passes config (b.chain.stages.get i) i := by
  induction is generalizing b with
  | nil => simp [executeStages]
  | cons i is ih =>
    obtain ⟨fresh, nodup⟩ := List.nodup_cons.1 nodup
    rw [List.forall_mem_cons, passes_iff, executeStages]
    dsimp only
    split
    · rename_i rolledBack
      simp only [failAt, Bool.false_eq_true, false_iff]
      exact fun h => h.1.1 rolledBack
    · rename_i current
      split
      · rename_i unverified
        simp only [failAt, Bool.false_eq_true, false_iff]
        exact fun h => h.1.2 unverified
      · rename_i verified
        rw [ih nodup, and_iff_right ⟨current, verified⟩]
        apply forall₂_congr
        intro k hk
        have other : k ≠ i := by
          rintro rfl
          exact fresh hk
        dsimp only
        rw [get_set, if_neg other]

theorem nodup_stagesOf (chain : MiniHwSecBootChain) : (stagesOf chain).Nodup :=
  (List.nodup_finRange _).map (Fin.castLE_injective chain.le)

theorem execute_chain_iff (chain : MiniHwSecBootChain) (config : MiniHwSecBootConfig)
    (measured : Measured) :
    (sbExecuteChain chain config measured).1 = true ↔
      ∀ i ∈ stagesOf chain, Passes config (chain.stages.get i) i :=
  execute_stages_iff (nodup_stagesOf chain) _

theorem image_hash_flag (image : MiniHwSecBootImage) (flag : Bool) :
    imageHash { image with signatureValid := flag } = imageHash image := by
  simp only [imageHash]

/-- Verifying sets the flag only if the hash is right, and changes nothing that is hashed. -/
theorem hash_of_verified {image stage : MiniHwSecBootImage} {pubKey : Option MiniHwSecPubKey}
    (verified : sbVerifyImage image pubKey = (true, stage)) : imageHash stage = stage.binaryHash := by
  obtain ⟨flag, rfl⟩ := Prod.mk.inj verified
  rw [image_hash_flag]
  exact constant_time_eq_iff.1 (Bool.and_eq_true_iff.1 flag).1

/-- **When the chain can be trusted.** With flags that only `verify_image` has set, execution in
ENFORCE mode launches stages with the right hash and version only, exactly when some stage is stopped
or every stage without the flag has the right hash. -/
theorem execute_chain_trusted_iff {chain : MiniHwSecBootChain} {config : MiniHwSecBootConfig}
    (measured : Measured) (enforce : config.policy = .enforce)
    (flags : ∀ i ∈ stagesOf chain, (chain.stages.get i).signatureValid = true →
      ∃ image pubKey, sbVerifyImage image pubKey = (true, chain.stages.get i)) :
    ((sbExecuteChain chain config measured).1 = true → ∀ i ∈ stagesOf chain,
      imageHash (chain.stages.get i) = (chain.stages.get i).binaryHash ∧
        ¬(chain.stages.get i).version < config.minVersion.get i) ↔
    (∃ i ∈ stagesOf chain, (chain.stages.get i).version < config.minVersion.get i ∨
      (chain.stages.get i).signatureValid = false ∧ anchored config (chain.stages.get i) = false) ∨
    ∀ i ∈ stagesOf chain, (chain.stages.get i).signatureValid = false →
      imageHash (chain.stages.get i) = (chain.stages.get i).binaryHash := by
  rw [execute_chain_iff]
  constructor
  · intro trusted
    by_cases all : ∀ i ∈ stagesOf chain, Passes config (chain.stages.get i) i
    · exact Or.inr fun i mem _ => (trusted all i mem).1
    · rw [not_forall₂] at all
      obtain ⟨i, mem, stopped⟩ := all
      refine Or.inl ⟨i, mem, ?_⟩
      by_contra neither
      rw [not_or, not_and_or, Bool.not_eq_false, Bool.not_eq_false] at neither
      exact stopped ⟨neither.1, fun _ => neither.2⟩
  · rintro (⟨i, mem, stopped⟩ | right) all
    · obtain ⟨version, verified⟩ := all i mem
      rcases stopped with old | ⟨flag, anchor⟩
      · exact absurd old version
      · rw [flag, anchor] at verified
        rcases verified enforce with h | h
        · cases h
        · cases h
    · intro i mem
      refine ⟨?_, (all i mem).version⟩
      cases flag : (chain.stages.get i).signatureValid with
      | false => exact right i mem flag
      | true =>
        obtain ⟨image, pubKey, verified⟩ := flags i mem flag
        exact hash_of_verified verified

/-! ## Chains of one and of two stages -/

/-- Signed by key 7, as the image says. -/
def imageOf (hash : Digest) (flag : Bool) : MiniHwSecBootImage :=
  ⟨Vector.replicate 32 0, hash, 1, 0, 0, 0, 7, flag⟩

def chainOf (image : MiniHwSecBootImage) : MiniHwSecBootChain :=
  ⟨Vector.replicate maxStages image, 1, by decide, false, 0⟩

/-- Key 7 is trusted. -/
def configOf : MiniHwSecBootConfig := ⟨[⟨pcrInitial, 7, true⟩], .enforce, Vector.replicate maxStages 0⟩

theorem chainOf_get (image : MiniHwSecBootImage) (i : Fin maxStages) :
    (chainOf image).stages.get i = image := get_replicate image i

theorem configOf_minVersion {image : MiniHwSecBootImage} (i : Fin maxStages) :
    ¬image.version < configOf.minVersion.get i := by
  rw [show configOf.minVersion.get i = 0 from get_replicate 0 i]
  exact UInt32.not_lt_zero

theorem image_hash_imageOf (hash hash' : Digest) (flag flag' : Bool) :
    imageHash (imageOf hash flag) = imageHash (imageOf hash' flag') := by
  simp only [imageHash, imageOf]

/-- The hash of the image itself. -/
def ownHash : Digest := imageHash (imageOf pcrInitial false)

/-- The first stage has been verified, the second only names a trusted key. -/
def twoStages : MiniHwSecBootChain :=
  ⟨Vector.ofFn fun i => imageOf ownHash (i == 0), 2, by decide, false, 0⟩

theorem twoStages_get (i : Fin maxStages) : twoStages.stages.get i = imageOf ownHash (i == 0) := get_ofFn _ i

/-- Both are launched, with the right hash. -/
theorem execute_chain_trusted_iff_two :
    (sbExecuteChain twoStages configOf (bootState pcrInitial)).1 = true ∧
      ∀ i ∈ stagesOf twoStages,
        imageHash (twoStages.stages.get i) = (twoStages.stages.get i).binaryHash ∧
          ¬(twoStages.stages.get i).version < configOf.minVersion.get i := by
  have launched : (sbExecuteChain twoStages configOf (bootState pcrInitial)).1 = true := by
    rw [execute_chain_iff]
    intro i _
    rw [twoStages_get]
    exact ⟨configOf_minVersion i, fun _ => Or.inr rfl⟩
  have right (flag : Bool) : imageHash (imageOf ownHash flag) = ownHash := image_hash_imageOf _ _ _ _
  refine ⟨launched, (execute_chain_trusted_iff (bootState pcrInitial) rfl fun i _ flag => ?_).2
    (Or.inr fun i _ _ => ?_) launched⟩
  · -- verifying the image with its key sets the flag
    rw [twoStages_get] at flag ⊢
    refine ⟨imageOf ownHash false, some ⟨7, false⟩, ?_⟩
    rw [show (i == 0) = true from flag, sbVerifyImage, right]
    exact congrArg (fun b => (b && !false, { imageOf ownHash false with signatureValid := b && !false }))
      (constant_time_eq_self ownHash)
  · rw [twoStages_get]
    exact right _

/-- Any image that names a trusted key id is launched: here its hash is wrong in every byte. -/
theorem execute_chain_launches_tampered :
    ∃ chain config, config.policy = .enforce ∧
      (∀ i ∈ stagesOf chain, (chain.stages.get i).signatureValid = false) ∧
      (sbExecuteChain chain config (bootState pcrInitial)).1 = true ∧
      ∃ i ∈ stagesOf chain, imageHash (chain.stages.get i) ≠ (chain.stages.get i).binaryHash := by
  let wrong : Digest := ownHash.map (· ^^^ 1)
  have get := chainOf_get (imageOf wrong false)
  refine ⟨chainOf (imageOf wrong false), configOf, rfl, ?_, ?_, ⟨0, by decide⟩, ?_, ?_⟩
  · intro i _
    rw [get]
    rfl
  · rw [execute_chain_iff]
    intro i _
    rw [get]
    exact ⟨configOf_minVersion i, fun _ => Or.inr rfl⟩
  · exact List.mem_singleton_self _
  · rw [get, image_hash_imageOf wrong pcrInitial false false]
    intro eq
    have byte := congrArg (fun d : Digest => d.get ⟨0, by decide⟩) eq
    have flipped : wrong.get ⟨0, by decide⟩ = ownHash.get ⟨0, by decide⟩ ^^^ 1 := Vector.getElem_map _ _
    have same : ownHash.get ⟨0, by decide⟩ = ownHash.get ⟨0, by decide⟩ ^^^ 1 := byte.trans flipped
    have one := (UInt8.xor_right_inj (ownHash.get ⟨0, by decide⟩)).1 (UInt8.xor_zero.trans same)
    exact absurd one (by decide)

end MiniHardware.Security
