import MiniHardware.Lib.Bytes
import MiniHardware.Lib.Trace
import MiniHardware.Security.AesModes
import MiniHardware.Security.Sha256Nat

/-!
# The TPM simulator (`mini-hardware-security/src/secure_boot.c`)

The PCRs are a bank of 24 digests that can only be extended. `tpm_seal`
encrypts data under a key derived from a hash over the selected ones;
`tpm_unseal` gives the data back while this hash is the same. `tpm_quote` puts
the hash with a nonce into a quote for another party. `pcr_count` is 24 from
`tpm_init` on. Pointers are not null, and buffers do not overlap.
-/

namespace MiniHardware.Security
open Lib

/-- `MINI_HWSEC_SB_MAX_PCR_REGISTERS`. -/
abbrev maxPcrRegisters : Nat := 24

structure MiniHwSecPCR where
  value : Digest
  index : UInt32
  resettable : Bool
  locked : Bool

structure MiniHwSecTPM where
  pcrs : Vector MiniHwSecPCR maxPcrRegisters
  storageRootKey : Digest
  initialized : Bool

/-- `mini_hwsec_pcr_initial`. -/
def pcrInitial : Digest := Vector.replicate 32 0

/-- `ek_seed` is what the random generator delivers. -/
def tpmInit (ekSeed : Digest) : MiniHwSecTPM :=
  { pcrs := Vector.ofFn fun i => ⟨pcrInitial, UInt32.ofNat i.val, i.val < 16, false⟩
    storageRootKey := digestAt (hashPieces [ekSeed.toList])
    initialized := true }

/-- `PCR_new = SHA-256(PCR_old || digest)`. -/
def extendValue (value digest : Digest) : Digest := digestAt (hashPieces [value.toList ++ digest.toList])

def setPcr (tpm : MiniHwSecTPM) (i : Fin maxPcrRegisters) (value : Digest) : MiniHwSecTPM :=
  { tpm with pcrs := tpm.pcrs.set i { tpm.pcrs.get i with value := value } }

/-- The locality is not looked at. -/
def tpmExtend (tpm : MiniHwSecTPM) (pcrIdx : UInt32) (digest : Digest) : Bool × MiniHwSecTPM :=
  if ¬tpm.initialized then (false, tpm)
  else if h : pcrIdx.toNat < maxPcrRegisters then
    if (tpm.pcrs.get ⟨_, h⟩).locked then (false, tpm)
    else (true, setPcr tpm ⟨_, h⟩ (extendValue (tpm.pcrs.get ⟨_, h⟩).value digest))
  else (false, tpm)

/-- An extend of an unlocked register replaces its value by the hash. -/
theorem tpm_extend_of_lt {tpm : MiniHwSecTPM} {pcrIdx : UInt32} (digest : Digest)
    (initialized : tpm.initialized = true) (h : pcrIdx.toNat < maxPcrRegisters)
    (unlocked : (tpm.pcrs.get ⟨_, h⟩).locked = false) :
    tpmExtend tpm pcrIdx digest =
      (true, setPcr tpm ⟨_, h⟩ (extendValue (tpm.pcrs.get ⟨_, h⟩).value digest)) := by
  rw [tpmExtend, if_neg (not_not.2 initialized), dif_pos h, unlocked, if_neg Bool.false_ne_true]

/-- An index out of range extends nothing. -/
theorem tpm_extend_of_not_lt (tpm : MiniHwSecTPM) {pcrIdx : UInt32} (digest : Digest)
    (h : ¬pcrIdx.toNat < maxPcrRegisters) : tpmExtend tpm pcrIdx digest = (false, tpm) := by
  rw [tpmExtend, dif_neg h, ite_self]

/-! ## Sealing -/

/-- `pcr_mask & (1u << i)`. -/
def selected (pcrMask : UInt32) (i : Nat) : Bool := pcrMask &&& (1 <<< UInt32.ofNat i) ≠ 0

/-- The body of the loop over the PCRs. -/
def absorbPcr (tpm : MiniHwSecTPM) (pcrMask : UInt32) (ctx : MiniHwSecSha256Ctx)
    (i : Fin maxPcrRegisters) : MiniHwSecSha256Ctx :=
  if selected pcrMask i.val then sha256Update ctx (tpm.pcrs.get i).value.toList else ctx

/-- The hash over the selected PCRs. -/
@[irreducible] def pcrComposite (tpm : MiniHwSecTPM) (pcrMask : UInt32) : Digest :=
  digestAt (sha256Final ((List.finRange maxPcrRegisters).foldl (absorbPcr tpm pcrMask)
    (sha256Init stackCtx))).2

def sealKeyOf (tpm : MiniHwSecTPM) (composite : Digest) : List UInt8 :=
  hmacSha256 tpm.storageRootKey.toList composite.toList

/-- The bytes of `"TPM-SEAL"`. -/
def sealLabel : List UInt8 := [0x54, 0x50, 0x4D, 0x2D, 0x53, 0x45, 0x41, 0x4C]

/-- Counter mode under the key derived from `seal_key`, with the front of the composite as nonce. -/
def sealCipher (sealKey : List UInt8) (composite : Digest) (data : List UInt8) : List UInt8 :=
  aesCtrMode (aesInit (digestAt (hkdfSha256 sealKey sealLabel [] 32)))
    (Vector.ofFn fun i => composite.toList.getD i.val 0) data

def maskBytes (pcrMask : UInt32) : List UInt8 :=
  [(pcrMask &&& 0xFF).toUInt8, ((pcrMask >>> 8) &&& 0xFF).toUInt8, ((pcrMask >>> 16) &&& 0xFF).toUInt8,
    ((pcrMask >>> 24) &&& 0xFF).toUInt8]

def maskOfBytes (bytes : List UInt8) : UInt32 :=
  (bytes.getD 0 0).toUInt32 ||| ((bytes.getD 1 0).toUInt32 <<< 8) |||
    ((bytes.getD 2 0).toUInt32 <<< 16) ||| ((bytes.getD 3 0).toUInt32 <<< 24)

/-- What is written to `sealed`, or nothing when `false` is returned. -/
def tpmSeal (tpm : MiniHwSecTPM) (data : List UInt8) (pcrMask : UInt32) : Option (List UInt8) :=
  if data.length > 1024 then none
  else
    let composite := pcrComposite tpm pcrMask
    let sealKey := sealKeyOf tpm composite
    let out := maskBytes pcrMask ++ composite.toList ++ sealCipher sealKey composite data
    some (out ++ hmacSha256 sealKey out)

/-- The return value, the data buffer and `data_len`; `data` and `dataLen` are what they held. -/
def tpmUnseal (tpm : MiniHwSecTPM) (sealedBlob data : List UInt8) (dataLen : Nat) :
    Bool × List UInt8 × Nat :=
  if sealedBlob.length < 4 + 32 + 32 then (false, data, dataLen)
  else
    let expected := digestAt (sealedBlob.drop 4)
    let current := pcrComposite tpm (maskOfBytes sealedBlob)
    if ¬constantTimeEq current expected then (false, data, dataLen)
    else
      let sealKey := sealKeyOf tpm current
      let dataEncLen := sealedBlob.length - 4 - 32 * 2
      let computed := hmacSha256 sealKey (sealedBlob.take (sealedBlob.length - 32))
      let stored := sealedBlob.drop (sealedBlob.length - 32)
      if ¬constantTimeEq (digestAt computed) (digestAt stored) then (false, data, dataLen)
      else
        (true, writeFront (sealCipher sealKey current ((sealedBlob.drop 36).take dataEncLen)) data,
          dataEncLen)

/-! ## The sealed blob -/

/-- The four bytes of a word in the other order. -/
theorem or_reverse (a b c d : UInt32) : a ||| b ||| c ||| d = d ||| c ||| b ||| a := by
  rw [UInt32.or_comm _ d, UInt32.or_comm _ c, UInt32.or_comm a b, ← UInt32.or_assoc, ← UInt32.or_assoc]

/-- The mask is read back from its bytes. -/
theorem mask_of_maskBytes (pcrMask : UInt32) (rest : List UInt8) :
    maskOfBytes (maskBytes pcrMask ++ rest) = pcrMask := by
  simp only [maskOfBytes, maskBytes, List.cons_append, List.getD_cons_zero, List.getD_cons_succ]
  rw [or_reverse]
  exact or_bytes_of_word pcrMask

/-- The layout: mask, composite, ciphertext and tag. -/
def blobFront (pcrMask : UInt32) (composite : Digest) (cipher : List UInt8) : List UInt8 :=
  maskBytes pcrMask ++ composite.toList ++ cipher

/-- The blob before the tag. -/
theorem length_blobFront (pcrMask : UInt32) (composite : Digest) (cipher : List UInt8) :
    (blobFront pcrMask composite cipher).length = 36 + cipher.length := by
  rw [blobFront, List.length_append, List.length_append, Vector.length_toList]
  rfl

/-- What `tpm_unseal` makes of any blob of this layout. -/
theorem tpm_unseal_blob (tpm : MiniHwSecTPM) (pcrMask : UInt32) (composite : Digest)
    (cipher tag data : List UInt8) (dataLen : Nat) (len : tag.length = 32) :
    tpmUnseal tpm (blobFront pcrMask composite cipher ++ tag) data dataLen =
      if pcrComposite tpm pcrMask = composite ∧
          hmacSha256 (sealKeyOf tpm composite) (blobFront pcrMask composite cipher) = tag then
        (true, writeFront (sealCipher (sealKeyOf tpm composite) composite cipher) data, cipher.length)
      else (false, data, dataLen) := by
  have front := length_blobFront pcrMask composite cipher
  have all : (blobFront pcrMask composite cipher ++ tag).length = 68 + cipher.length := by
    rw [List.length_append, front, len]
    omega
  have mask : maskOfBytes (blobFront pcrMask composite cipher ++ tag) = pcrMask := by
    rw [blobFront, List.append_assoc, List.append_assoc, mask_of_maskBytes]
  have expected : digestAt ((blobFront pcrMask composite cipher ++ tag).drop 4) = composite := by
    rw [blobFront, List.append_assoc, List.append_assoc, List.drop_left' (show _ = 4 from rfl)]
    exact digestAt_append composite _
  have cut : 68 + cipher.length - 32 = (blobFront pcrMask composite cipher).length := by omega
  have stored : (blobFront pcrMask composite cipher ++ tag).drop (68 + cipher.length - 32) = tag := by
    rw [cut, List.drop_left]
  have body : ((blobFront pcrMask composite cipher ++ tag).drop 36).take (68 + cipher.length - 4 - 32 * 2) =
      cipher := by
    have head : (maskBytes pcrMask ++ composite.toList).length = 36 := by
      rw [List.length_append, Vector.length_toList]
      rfl
    rw [blobFront, List.append_assoc, List.drop_left' head]
    exact List.take_left' (by omega)
  unfold tpmUnseal
  rw [if_neg (by omega)]
  simp only [mask, expected, all, stored, body, constant_time_eq_iff]
  rw [cut, List.take_left]
  by_cases same : pcrComposite tpm pcrMask = composite
  · rw [if_neg (not_not.2 same), same]
    simp only [digestAt_inj (length_hmacSha256 _ _) len, true_and, ite_not]
    rw [show 68 + cipher.length - 4 - 32 * 2 = cipher.length by omega]
  · rw [if_pos same, if_neg fun both => same both.1]

/-- A sealed blob has this layout. -/
theorem tpm_seal_eq {tpm : MiniHwSecTPM} {data : List UInt8} (pcrMask : UInt32) (le : data.length ≤ 1024) :
    tpmSeal tpm data pcrMask =
      let composite := pcrComposite tpm pcrMask
      let front := blobFront pcrMask composite (sealCipher (sealKeyOf tpm composite) composite data)
      some (front ++ hmacSha256 (sealKeyOf tpm composite) front) := by
  rw [tpmSeal, if_neg (Nat.not_lt.2 le)]
  rfl

/-- The cipher undoes itself. -/
theorem sealCipher_sealCipher (sealKey : List UInt8) (composite : Digest) (data : List UInt8) :
    sealCipher sealKey composite (sealCipher sealKey composite data) = data :=
  aes_ctr_mode_twice _ _ data

/-- The cipher keeps the length. -/
theorem length_sealCipher (sealKey : List UInt8) (composite : Digest) (data : List UInt8) :
    (sealCipher sealKey composite data).length = data.length :=
  length_mask _ data

/-! ## The composite depends on the selected PCRs only -/

/-- The composite depends on the selected registers alone. -/
theorem pcr_composite_congr {tpm tpm' : MiniHwSecTPM} {pcrMask : UInt32}
    (same : ∀ i : Fin maxPcrRegisters, selected pcrMask i.val = true →
      (tpm'.pcrs.get i).value = (tpm.pcrs.get i).value) :
    pcrComposite tpm' pcrMask = pcrComposite tpm pcrMask := by
  have body : absorbPcr tpm' pcrMask = absorbPcr tpm pcrMask := by
    funext ctx i
    unfold absorbPcr
    split
    · rename_i sel
      rw [same i sel]
    · rfl
  unfold pcrComposite
  rw [body]

/-- Setting a register changes no other. -/
theorem get_setPcr (tpm : MiniHwSecTPM) (i k : Fin maxPcrRegisters) (value : Digest) :
    (setPcr tpm i value).pcrs.get k =
      if k = i then { tpm.pcrs.get i with value := value } else tpm.pcrs.get k :=
  get_set tpm.pcrs i k _

/-- An extend touches one PCR at most. -/
theorem tpm_extend_other (tpm : MiniHwSecTPM) (pcrIdx : UInt32) (digest : Digest)
    {k : Fin maxPcrRegisters} (ne : k.val ≠ pcrIdx.toNat) :
    (tpmExtend tpm pcrIdx digest).2.pcrs.get k = tpm.pcrs.get k := by
  unfold tpmExtend
  split
  · rfl
  · split
    · split
      · rfl
      · rw [get_setPcr, if_neg fun eq => ne (congrArg Fin.val eq)]
    · rfl

/-- An extend leaves the storage root key. -/
theorem tpm_extend_storage_root_key (tpm : MiniHwSecTPM) (pcrIdx : UInt32) (digest : Digest) :
    (tpmExtend tpm pcrIdx digest).2.storageRootKey = tpm.storageRootKey := by
  unfold tpmExtend setPcr
  split
  · rfl
  · split
    · split <;> rfl
    · rfl

/-- Any number of extends: PCR index and digest. -/
def extends_ (tpm : MiniHwSecTPM) (ops : List (UInt32 × Digest)) : MiniHwSecTPM :=
  run (fun tpm op => (tpmExtend tpm op.1 op.2).2) tpm ops

/-- Outside the mask, or no PCR at all. -/
def Outside (pcrMask : UInt32) (op : UInt32 × Digest) : Prop :=
  op.1.toNat < maxPcrRegisters → selected pcrMask op.1.toNat = false

instance (pcrMask : UInt32) (op : UInt32 × Digest) : Decidable (Outside pcrMask op) :=
  inferInstanceAs (Decidable (_ → _))

/-- Any number of extends leave the storage root key. -/
theorem extends_storage_root_key (tpm : MiniHwSecTPM) (ops : List (UInt32 × Digest)) :
    (extends_ tpm ops).storageRootKey = tpm.storageRootKey :=
  run_invariant (motive := fun t => t.storageRootKey = tpm.storageRootKey)
    (fun t op same => (tpm_extend_storage_root_key t op.1 op.2).trans same) rfl ops

/-- Extends of other registers leave the composite. -/
theorem pcr_composite_extends {tpm : MiniHwSecTPM} {pcrMask : UInt32} {ops : List (UInt32 × Digest)}
    (outside : ∀ op ∈ ops, Outside pcrMask op) :
    pcrComposite (extends_ tpm ops) pcrMask = pcrComposite tpm pcrMask := by
  induction ops generalizing tpm with
  | nil => rfl
  | cons op ops ih =>
    have here := outside op List.mem_cons_self
    refine (ih fun op' mem => outside op' (List.mem_cons_of_mem op mem)).trans ?_
    apply pcr_composite_congr
    intro i sel
    rw [tpm_extend_other]
    intro eq
    have := here (eq ▸ i.isLt)
    rw [← eq, sel] at this
    cases this

/-! ## The round trip -/

/-- **Sealed to the PCRs of the mask.** Data that was sealed is unsealed after any extends outside the
mask, and not after extends that change the composite. -/
theorem tpm_unseal_seal (tpm : MiniHwSecTPM) {data : List UInt8} (pcrMask : UInt32)
    (le : data.length ≤ 1024) :
    ∃ sealedBlob, tpmSeal tpm data pcrMask = some sealedBlob ∧
      (∀ ops, (∀ op ∈ ops, Outside pcrMask op) → ∀ buffer dataLen,
        tpmUnseal (extends_ tpm ops) sealedBlob buffer dataLen =
          (true, writeFront data buffer, data.length)) ∧
      ∀ ops, pcrComposite (extends_ tpm ops) pcrMask ≠ pcrComposite tpm pcrMask → ∀ buffer dataLen,
        tpmUnseal (extends_ tpm ops) sealedBlob buffer dataLen = (false, buffer, dataLen) := by
  refine ⟨_, tpm_seal_eq pcrMask le, fun ops outside buffer dataLen => ?_,
    fun ops differs buffer dataLen => ?_⟩
  · have key : ∀ composite, sealKeyOf (extends_ tpm ops) composite = sealKeyOf tpm composite := by
      intro composite
      rw [sealKeyOf, extends_storage_root_key, sealKeyOf]
    rw [tpm_unseal_blob _ _ _ _ _ _ _ (length_hmacSha256 _ _), pcr_composite_extends outside, key,
      if_pos ⟨rfl, rfl⟩, sealCipher_sealCipher, length_sealCipher]
  · rw [tpm_unseal_blob _ _ _ _ _ _ _ (length_hmacSha256 _ _), if_neg fun both => differs both.1]

/-- The composite is the hash of the selected values, one after the other. -/
theorem pcr_composite_eq (tpm : MiniHwSecTPM) (pcrMask : UInt32) :
    pcrComposite tpm pcrMask =
      digestAt (hashPieces (((List.finRange maxPcrRegisters).filter fun i => selected pcrMask i.val).map
        fun i => (tpm.pcrs.get i).value.toList)) := by
  unfold pcrComposite hashPieces
  rw [List.foldl_map, List.foldl_filter]
  rfl

/-- A fresh TPM, its PCR 0 extended by zeros. -/
theorem pcr_composite_differs :
    pcrComposite (extends_ (tpmInit pcrInitial) [(0, pcrInitial)]) 1 ≠ pcrComposite (tpmInit pcrInitial) 1 := by
  intro same
  have only : ((List.finRange maxPcrRegisters).filter fun i => selected 1 i.val) = [0] := by decide
  have extended : ((extends_ (tpmInit pcrInitial) [(0, pcrInitial)]).pcrs.get 0).value =
      extendValue pcrInitial pcrInitial := rfl
  have fresh : ((tpmInit pcrInitial).pcrs.get 0).value = pcrInitial := rfl
  rw [pcr_composite_eq, pcr_composite_eq, only, List.map_singleton, List.map_singleton, extended, fresh,
    digestAt_inj (length_hashPieces _) (length_hashPieces _)] at same
  have numbers := congrArg (List.map UInt8.toNat) same
  rw [extendValue, toList_digestAt (length_hashPieces _), Sha256Nat.toNat_hashPieces, Sha256Nat.toNat_hashPieces,
    List.flatten_singleton, List.flatten_singleton, Sha256Nat.toNat_hashPieces, List.flatten_singleton, pcrInitial,
    Vector.toList_replicate, List.replicate_append_replicate, List.map_replicate, List.map_replicate] at numbers
  revert numbers
  decide +kernel

/-- Three bytes sealed to PCR 0 survive an extend of PCR 1, not one of PCR 0. -/
theorem tpm_unseal_seal_three :
    ∃ sealedBlob, tpmSeal (tpmInit pcrInitial) [1, 2, 3] 1 = some sealedBlob ∧
      tpmUnseal (extends_ (tpmInit pcrInitial) [(1, pcrInitial)]) sealedBlob [0, 0, 0, 0] 0 =
        (true, [1, 2, 3, 0], 3) ∧
      tpmUnseal (extends_ (tpmInit pcrInitial) [(0, pcrInitial)]) sealedBlob [0, 0, 0, 0] 0 =
        (false, [0, 0, 0, 0], 0) := by
  obtain ⟨sealedBlob, result, kept, lost⟩ :=
    tpm_unseal_seal (tpmInit pcrInitial) 1 (show ([1, 2, 3] : List UInt8).length ≤ 1024 by decide)
  exact ⟨sealedBlob, result, kept [(1, pcrInitial)] (by decide) _ _, lost _ pcr_composite_differs _ _⟩

/-! ## Quotes -/

/-- `MINI_HWSEC_SB_SIG_SIZE`. -/
def sbSigSize : Nat := 256

structure MiniHwSecTPMQuote where
  pcrSelect : List UInt8
  pcrCompositeHash : Digest
  nonce : Digest
  signature : List UInt8
  valid : Bool

/-- The hash over the selected values and a nonce. -/
@[irreducible] def quoteComposite (values : Fin maxPcrRegisters → Digest) (pcrMask : UInt32)
    (nonce : Digest) : Digest :=
  let ctx := (List.finRange maxPcrRegisters).foldl
    (fun ctx i => if selected pcrMask i.val then sha256Update ctx (values i).toList else ctx) (sha256Init stackCtx)
  digestAt (sha256Final (sha256Update ctx nonce.toList)).2

def registerValues (tpm : MiniHwSecTPM) (i : Fin maxPcrRegisters) : Digest := (tpm.pcrs.get i).value

/-- `attestationKey` is the front of the modulus. -/
def tpmQuote (tpm : MiniHwSecTPM) (attestationKey : Digest) (pcrMask : UInt32) (nonce : Digest) : MiniHwSecTPMQuote :=
  let composite := quoteComposite (registerValues tpm) pcrMask nonce
  { pcrSelect := (maskBytes pcrMask).take 3
    pcrCompositeHash := composite
    nonce
    signature := hmacSha256 attestationKey.toList composite.toList ++ List.replicate (sbSigSize - 32) 0
    valid := true }

def tpmQuoteVerify (quote : MiniHwSecTPMQuote) (expectedPcrs : Fin maxPcrRegisters → Digest) (pcrMask : UInt32)
    (nonce : Digest) : Bool :=
  if ¬quote.valid then false
  else constantTimeEq (quoteComposite expectedPcrs pcrMask nonce) quote.pcrCompositeHash

/-- The values of the mask, in order; which registers they are from is not among them. -/
def quotedValues (values : Fin maxPcrRegisters → Digest) (pcrMask : UInt32) : List Digest :=
  ((List.finRange maxPcrRegisters).filter fun i => selected pcrMask i.val).map values

/-- What is hashed. -/
def quotedBytes (values : Fin maxPcrRegisters → Digest) (pcrMask : UInt32) (nonce : Digest) : List UInt8 :=
  ((quotedValues values pcrMask ++ [nonce]).map Vector.toList).flatten

/-- The composite of a quote is the hash of the quoted bytes. -/
theorem quoteComposite_eq (values : Fin maxPcrRegisters → Digest) (pcrMask : UInt32) (nonce : Digest) :
    quoteComposite values pcrMask nonce = digestAt (sha256Spec (quotedBytes values pcrMask nonce)) := by
  have pieces : quoteComposite values pcrMask nonce =
      digestAt (hashPieces ((quotedValues values pcrMask ++ [nonce]).map Vector.toList)) := by
    unfold quoteComposite hashPieces quotedValues
    rw [List.map_append, List.foldl_append, List.map_map, List.foldl_map (f := Vector.toList ∘ values),
      List.foldl_filter]
    rfl
  rw [pieces, hashPieces_eq, quotedBytes]

/-- Digests in a row are known by their bytes. -/
theorem flatten_digests_inj {l l' : List Digest} :
    (l.map Vector.toList).flatten = (l'.map Vector.toList).flatten ↔ l = l' := by
  refine ⟨fun same => ?_, fun eq => by rw [eq]⟩
  induction l generalizing l' with
  | nil =>
    cases l' with
    | nil => rfl
    | cons d l' =>
      have len := congrArg List.length same
      rw [List.map_nil, List.map_cons, List.flatten_cons, List.length_append, Vector.length_toList, List.flatten_nil,
        List.length_nil] at len
      omega
  | cons d l ih =>
    cases l' with
    | nil =>
      have len := congrArg List.length same
      rw [List.map_nil, List.map_cons, List.flatten_cons, List.length_append, Vector.length_toList, List.flatten_nil,
        List.length_nil] at len
      omega
    | cons d' l' =>
      rw [List.map_cons, List.map_cons, List.flatten_cons, List.flatten_cons] at same
      obtain ⟨head, tail⟩ := List.append_inj same (by rw [Vector.length_toList, Vector.length_toList])
      rw [Vector.toList_inj.1 head, ih tail]

/-- Extends outside the mask leave the registers of the mask. -/
theorem get_extends_outside {tpm : MiniHwSecTPM} {pcrMask : UInt32} {ops : List (UInt32 × Digest)}
    (outside : ∀ op ∈ ops, Outside pcrMask op) {i : Fin maxPcrRegisters} (sel : selected pcrMask i.val = true) :
    (extends_ tpm ops).pcrs.get i = tpm.pcrs.get i := by
  induction ops generalizing tpm with
  | nil => rfl
  | cons op ops ih =>
    have here := outside op List.mem_cons_self
    refine (ih fun op' mem => outside op' (List.mem_cons_of_mem op mem)).trans ?_
    apply tpm_extend_other
    intro eq
    have other := here (eq ▸ i.isLt)
    rw [← eq, sel] at other
    cases other

/-- Different bytes with the same hash. -/
def SameHash (msg msg' : List UInt8) : Prop := msg ≠ msg' ∧ sha256Spec msg = sha256Spec msg'

/-- What the verification compares. -/
theorem tpmQuoteVerify_iff {quote : MiniHwSecTPMQuote} (valid : quote.valid = true)
    {values expectedPcrs : Fin maxPcrRegisters → Digest} {pcrMask pcrMask' : UInt32} {nonce nonce' : Digest}
    (composite : quote.pcrCompositeHash = quoteComposite values pcrMask nonce) :
    tpmQuoteVerify quote expectedPcrs pcrMask' nonce' = true ↔
      quotedValues values pcrMask = quotedValues expectedPcrs pcrMask' ∧ nonce = nonce' ∨
        SameHash (quotedBytes values pcrMask nonce) (quotedBytes expectedPcrs pcrMask' nonce') := by
  have len : ∀ msg, (sha256Spec msg).length = 32 := fun _ => length_digestOf _
  rw [tpmQuoteVerify, if_neg (not_not.2 valid), constant_time_eq_iff, composite, quoteComposite_eq, quoteComposite_eq,
    digestAt_inj (len _) (len _)]
  have bytes : quotedBytes values pcrMask nonce = quotedBytes expectedPcrs pcrMask' nonce' ↔
      quotedValues values pcrMask = quotedValues expectedPcrs pcrMask' ∧ nonce = nonce' := by
    rw [quotedBytes, quotedBytes, flatten_digests_inj]
    refine ⟨fun same => ?_, fun both => by rw [both.1, both.2]⟩
    obtain ⟨front, last⟩ := List.append_inj' same rfl
    exact ⟨front, List.singleton_inj.1 last⟩
  rw [← bytes, SameHash]
  constructor
  · intro same
    by_cases eq : quotedBytes values pcrMask nonce = quotedBytes expectedPcrs pcrMask' nonce'
    · exact .inl eq
    · exact .inr ⟨eq, same.symm⟩
  · rintro (eq | ⟨-, same⟩)
    · rw [eq]
    · exact same.symm

/-- **Attestation.** A quote is accepted for the values it was made of, also after extends outside the mask. Otherwise it
is accepted only for the same values in the same order and the same nonce, but for collisions of SHA-256; which
registers were selected, the attestation key and the signature do not matter. -/
theorem tpmQuote_attests (tpm : MiniHwSecTPM) (attestationKey : Digest) (pcrMask : UInt32) (nonce : Digest) :
    (∀ ops, (∀ op ∈ ops, Outside pcrMask op) →
      tpmQuoteVerify (tpmQuote (extends_ tpm ops) attestationKey pcrMask nonce) (registerValues tpm) pcrMask nonce = true) ∧
    ∀ quote : MiniHwSecTPMQuote, quote.valid = true →
      quote.pcrCompositeHash = (tpmQuote tpm attestationKey pcrMask nonce).pcrCompositeHash →
      ∀ expectedPcrs pcrMask' nonce', tpmQuoteVerify quote expectedPcrs pcrMask' nonce' = true ↔
        quotedValues (registerValues tpm) pcrMask = quotedValues expectedPcrs pcrMask' ∧ nonce = nonce' ∨
          SameHash (quotedBytes (registerValues tpm) pcrMask nonce) (quotedBytes expectedPcrs pcrMask' nonce') := by
  refine ⟨fun ops outside => ?_, fun quote valid composite expectedPcrs pcrMask' nonce' =>
    tpmQuoteVerify_iff valid composite⟩
  refine (tpmQuoteVerify_iff rfl rfl).2 (.inl ⟨?_, rfl⟩)
  refine List.map_congr_left fun i mem => congrArg MiniHwSecPCR.value ?_
  exact get_extends_outside outside (List.mem_filter.1 mem).2

end MiniHardware.Security
