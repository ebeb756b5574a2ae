import Mathlib.Algebra.Order.Field.Rat
import Mathlib.Tactic.NormNum
import MiniHardware.Lib.Bytes
import MiniHardware.Lib.Trace
import MiniHardware.Security.Sha256Nat

/-!
# The SRAM PUF (`mini-hardware-security/src/hrot_puf.c`)

Enrolment measures the SRAM 32 times, keeps the bits that come out alike and
hashes them to the golden key. The helper data is the same hash, and
reconstruction hashes the exclusive or of a later reading with it: the decoder
corrects nothing, so the golden key does not come back
(`fuzzy_extractor_iff`). The stabilities are fractions of 32 and the
reliability of 2048, which a double has exactly.
-/

namespace MiniHardware.Security
open Lib

/-- A response of `256 * 8` bits. -/
abbrev PufResponse := Vector UInt8 256

structure MiniHwSecSRAMPuf where
  rawResponse : PufResponse
  stableMask : PufResponse
  helperData : Vector UInt8 512
  reliability : ℚ
  uniqueness : ℚ
  unstableBitCount : Nat
  enrolled : Bool

structure MiniHwSecPufEnrollment where
  responses : Fin 32 → PufResponse
  helperData : Vector UInt8 512
  goldenKey : Digest
  measurementCount : Nat
  bitStability : Fin 2048 → ℚ
  enrollmentComplete : Bool

/-! ## Bits of a response -/

/-- `b / 8`. -/
def byteIndex (b : Fin 2048) : Fin 256 := ⟨b.val / 8, by omega⟩

/-- `1 << (b % 8)`. -/
def bitMask (b : Fin 2048) : UInt8 := 1 <<< UInt8.ofNat (b.val % 8)

def responseBit (r : PufResponse) (b : Fin 2048) : Bool := r.get (byteIndex b) &&& bitMask b ≠ 0

def setBit (r : PufResponse) (b : Fin 2048) : PufResponse :=
  r.set (byteIndex b) (r.get (byteIndex b) ||| bitMask b)

def clearBit (r : PufResponse) (b : Fin 2048) : PufResponse :=
  r.set (byteIndex b) (r.get (byteIndex b) &&& ~~~(bitMask b))

/-! ## Enrolment -/

/-- The loop over the bits of one measurement. -/
def measure (bitCounts : Vector Nat 2048) (response : PufResponse) : Vector Nat 2048 :=
  Vector.ofFn fun b => if responseBit response b then bitCounts.get b + 1 else bitCounts.get b

structure Stability where
  rawResponse : PufResponse
  stableMask : PufResponse
  bitStability : Fin 2048 → ℚ
  stableBits : Nat
  unstableCount : Nat

/-- The body of the loop over the stabilities. -/
def stabilityStep (bitCounts : Vector Nat 2048) (s : Stability) (b : Fin 2048) : Stability :=
  let stability : ℚ := (bitCounts.get b : ℚ) / 32
  if stability > 7 / 8 then
    { s with
      rawResponse := setBit s.rawResponse b
      stableMask := setBit s.stableMask b
      bitStability := Function.update s.bitStability b 1
      stableBits := s.stableBits + 1 }
  else if stability < 1 / 8 then
    { s with
      rawResponse := clearBit s.rawResponse b
      stableMask := setBit s.stableMask b
      bitStability := Function.update s.bitStability b 1
      stableBits := s.stableBits + 1 }
  else
    { s with
      bitStability := Function.update s.bitStability b stability
      unstableCount := s.unstableCount + 1 }

def responseHash (r : PufResponse) : Digest := digestAt (hashPieces [r.toList])

/-- The hash of the data, written to the front of the parity buffer. -/
def bchEncode (data : PufResponse) (parity : Vector UInt8 512) : Vector UInt8 512 := Vector.ofFn fun i =>
  if h : i.val < 32 then (responseHash data).get ⟨i.val, h⟩ else parity.get i

/-- `reads m` is what `read_puf` delivers at measurement `m`. -/
def sramPufEnroll (puf : MiniHwSecSRAMPuf) (enrollment : MiniHwSecPufEnrollment) (reads : Fin 32 → PufResponse) :
    Bool × MiniHwSecSRAMPuf × MiniHwSecPufEnrollment :=
  let bitCounts := (List.finRange 32).foldl (fun counts m => measure counts (reads m)) (Vector.replicate 2048 0)
  let s := (List.finRange 2048).foldl (stabilityStep bitCounts)
    ⟨puf.rawResponse, puf.stableMask, enrollment.bitStability, 0, 0⟩
  let helperData := bchEncode s.rawResponse enrollment.helperData
  let keyMaterial := Vector.zipWith (· &&& ·) s.rawResponse s.stableMask
  (true,
    { rawResponse := s.rawResponse
      stableMask := s.stableMask
      helperData := helperData
      reliability := (s.stableBits : ℚ) / 2048
      uniqueness := 1 / 2
      unstableBitCount := s.unstableCount
      enrolled := true },
    { responses := reads
      helperData := helperData
      goldenKey := responseHash keyMaterial
      measurementCount := 32
      bitStability := s.bitStability
      enrollmentComplete := true })

/-! ## Reconstruction -/

/-- The number of errors and the corrected data, of `256 * 8` bits. -/
def bchDecode (data : PufResponse) : Int × PufResponse := (0, data)

/-- The return value and the key buffer; `key` is what it held. -/
def fuzzyExtract (noisy : PufResponse) (helper : Vector UInt8 512) (key : Digest) : Bool × Digest :=
  let corrected : PufResponse := Vector.ofFn fun i => noisy.get i ^^^ helper.get ⟨i.val % 512, by omega⟩
  let (errors, decoded) := bchDecode corrected
  if errors < 0 ∨ errors > 18 then (false, key) else (true, responseHash decoded)

/-- `noisyResponse` is what `read_puf` delivers. -/
def sramPufReconstruct (puf : MiniHwSecSRAMPuf) (key : Digest) (noisyResponse : PufResponse) : Bool × Digest :=
  if puf.enrolled then fuzzyExtract noisyResponse puf.helperData key else (false, key)

/-! ## Bits after a write -/

/-- The bits of a response are those of its bytes. -/
theorem responseBit_eq (r : PufResponse) (b : Fin 2048) :
    responseBit r b = byteBit (r.get (byteIndex b)) (b.val % 8) := by
  rw [responseBit, bitMask, Bool.eq_iff_iff, decide_eq_true_iff]
  exact and_shiftLeft_ne_zero _ (Nat.mod_lt _ (by decide))

/-- A response is known by its bits. -/
theorem response_ext {r r' : PufResponse} (same : ∀ b, responseBit r b = responseBit r' b) : r = r' := by
  apply Vector.ext
  intro i lt
  apply byte_ext
  intro k klt
  have bit := same ⟨8 * i + k, by omega⟩
  have place : (8 * i + k) / 8 = i := by omega
  have offset : (8 * i + k) % 8 = k := by omega
  rw [responseBit_eq, responseBit_eq] at bit
  simp only [byteIndex, place, offset] at bit
  exact bit

/-- A bit after its byte is written. -/
theorem responseBit_set (r : PufResponse) (x : UInt8) (b b' : Fin 2048) :
    responseBit (r.set (byteIndex b) x) b' =
      if byteIndex b' = byteIndex b then byteBit x (b'.val % 8) else responseBit r b' := by
  rw [responseBit_eq, responseBit_eq, get_set]
  split <;> rfl

/-- Within a byte, bits are told apart by the remainder. -/
theorem bit_eq_iff {b b' : Fin 2048} (byte : byteIndex b' = byteIndex b) : b.val % 8 = b'.val % 8 ↔ b = b' := by
  have quot : b'.val / 8 = b.val / 8 := Fin.mk.inj byte
  rw [Fin.ext_iff]
  omega

/-- Bits of different bytes are different. -/
theorem byteIndex_ne {b b' : Fin 2048} (byte : byteIndex b' ≠ byteIndex b) : b ≠ b' := by
  rintro rfl
  exact byte rfl

/-- Setting a bit changes no other. -/
theorem responseBit_setBit (r : PufResponse) (b b' : Fin 2048) :
    responseBit (setBit r b) b' = (decide (b = b') || responseBit r b') := by
  rw [setBit, responseBit_set]
  split
  · rename_i byte
    rw [bitMask, byteBit_set _ (Nat.mod_lt _ (by decide)), responseBit_eq, byte, Bool.or_comm]
    simp only [bit_eq_iff byte]
  · rename_i byte
    rw [decide_eq_false (byteIndex_ne byte), Bool.false_or]

/-- Clearing a bit changes no other. -/
theorem responseBit_clearBit (r : PufResponse) (b b' : Fin 2048) :
    responseBit (clearBit r b) b' = (!decide (b = b') && responseBit r b') := by
  rw [clearBit, responseBit_set]
  split
  · rename_i byte
    rw [bitMask, byteBit_clear _ (Nat.mod_lt _ (by decide)), responseBit_eq, byte, Bool.and_comm]
    simp only [bit_eq_iff byte]
  · rename_i byte
    rw [decide_eq_false (byteIndex_ne byte), Bool.not_false, Bool.true_and]

/-! ## Identical readings -/

/-- Thirty-two identical readings count each bit 32 times or never. -/
theorem counts_same (w : PufResponse) (b : Fin 2048) :
    ((List.finRange 32).foldl (fun counts _ => measure counts w) (Vector.replicate 2048 0)).get b =
      if responseBit w b then 32 else 0 := by
  refine finRange_foldl_invariant (n := 32)
    (motive := fun m (counts : Vector Nat 2048) => counts.get b = if responseBit w b then m else 0) ?_ ?_
  · rw [get_replicate, ite_self]
  · intro m counts known
    rw [measure, get_eq, Vector.getElem_ofFn]
    split
    · rename_i high
      rw [known, if_pos high]
    · rename_i low
      rw [known, if_neg low]

/-- The first bits are those of the response, and stable. -/
structure Kept (w : PufResponse) (upto : Nat) (s : Stability) : Prop where
  raw : ∀ b : Fin 2048, b.val < upto → responseBit s.rawResponse b = responseBit w b
  mask : ∀ b : Fin 2048, b.val < upto → responseBit s.stableMask b = true

/-- One bit more of the loop over the stabilities. -/
theorem Kept.step {w : PufResponse} {bitCounts : Vector Nat 2048} {s : Stability} {b : Fin 2048}
    (kept : Kept w b.val s) (count : bitCounts.get b = if responseBit w b then 32 else 0) :
    Kept w (b.val + 1) (stabilityStep bitCounts s b) := by
  have mask : ∀ b' : Fin 2048, b'.val < b.val + 1 → responseBit (setBit s.stableMask b) b' = true := by
    intro b' lt
    rw [responseBit_setBit]
    by_cases eq : b = b'
    · rw [decide_eq_true eq, Bool.true_or]
    · rw [kept.mask b' (by rw [Fin.ext_iff] at eq; omega), Bool.or_true]
  cases bit : responseBit w b with
  | true =>
    rw [stabilityStep, count, bit, if_pos rfl, if_pos (by norm_num)]
    refine ⟨fun b' lt => ?_, mask⟩
    show responseBit (setBit s.rawResponse b) b' = _
    rw [responseBit_setBit]
    by_cases eq : b = b'
    · rw [decide_eq_true eq, Bool.true_or, ← eq, bit]
    · rw [decide_eq_false eq, Bool.false_or, kept.raw b' (by rw [Fin.ext_iff] at eq; omega)]
  | false =>
    rw [stabilityStep, count, bit, if_neg Bool.false_ne_true, if_neg (by norm_num), if_pos (by norm_num)]
    refine ⟨fun b' lt => ?_, mask⟩
    show responseBit (clearBit s.rawResponse b) b' = _
    rw [responseBit_clearBit]
    by_cases eq : b = b'
    · rw [decide_eq_true eq, Bool.not_true, Bool.false_and, ← eq, bit]
    · rw [decide_eq_false eq, Bool.not_false, Bool.true_and, kept.raw b' (by rw [Fin.ext_iff] at eq; omega)]

/-- All the bits are kept. -/
theorem Kept.all {w : PufResponse} {s : Stability} (kept : Kept w 2048 s) :
    s.rawResponse = w ∧ Vector.zipWith (· &&& ·) s.rawResponse s.stableMask = w := by
  have raw : s.rawResponse = w := response_ext fun b => kept.raw b b.isLt
  refine ⟨raw, response_ext fun b => ?_⟩
  rw [responseBit_eq, get_eq, Vector.getElem_zipWith, byteBit_and]
  have mask := kept.mask b b.isLt
  rw [responseBit_eq, get_eq] at mask
  rw [mask, Bool.and_true, raw, responseBit_eq, get_eq]

/-- **Enrolment with a response that is always read alike.** -/
theorem sram_puf_enroll_same (puf : MiniHwSecSRAMPuf) (enrollment : MiniHwSecPufEnrollment) (w : PufResponse) :
    ∃ puf' enrollment', sramPufEnroll puf enrollment (fun _ => w) = (true, puf', enrollment') ∧
      puf'.enrolled = true ∧ puf'.helperData = bchEncode w enrollment.helperData ∧
      enrollment'.goldenKey = responseHash w := by
  refine ⟨_, _, rfl, rfl, ?_, ?_⟩ <;> dsimp only
  all_goals
    obtain ⟨raw, material⟩ := Kept.all (finRange_foldl_invariant (n := 2048) (motive := Kept w)
      (f := stabilityStep ((List.finRange 32).foldl (fun counts _ => measure counts w) (Vector.replicate 2048 0)))
      (s := ⟨puf.rawResponse, puf.stableMask, enrollment.bitStability, 0, 0⟩) ⟨nofun, nofun⟩
      fun b s kept => kept.step (counts_same w b))
  · rw [raw]
  · rw [material]

/-! ## The key that comes back -/

/-- The bits of block `k` in which two responses differ; the blocks have 255 bits. -/
def flips (w w' : PufResponse) (k : Nat) : Nat :=
  (List.finRange 2048).countP fun b => b.val / 255 = k ∧ responseBit w b ≠ responseBit w' b

/-- At most 15 bits differ in each block, of which there are nine. -/
def Admissible (w w' : PufResponse) : Prop := ∀ k < 9, flips w w' k ≤ 15

def xorResponse (r r' : PufResponse) : PufResponse := Vector.zipWith (· ^^^ ·) r r'

/-- The helper data as far as it is used: the hash of the response, and what the buffer of the enrolment had
behind it. -/
def helperFront (w : PufResponse) (helperData : Vector UInt8 512) : PufResponse := Vector.ofFn fun i =>
  (bchEncode w helperData).get ⟨i.val, by omega⟩

/-- Another response with the same hash. -/
def Collides (w other : PufResponse) : Prop := other ≠ w ∧ responseHash other = responseHash w

/-- The helper data and the response give each other. -/
theorem xorResponse_eq_iff {w w' p : PufResponse} : xorResponse w' p = w ↔ xorResponse w w' = p := by
  constructor
  · rintro rfl
    refine Vector.ext fun i lt => ?_
    simp only [xorResponse, Vector.getElem_zipWith]
    rw [UInt8.xor_comm, byte_xor_cancel_left]
  · rintro rfl
    refine Vector.ext fun i lt => ?_
    simp only [xorResponse, Vector.getElem_zipWith]
    rw [byte_xor_left_comm, UInt8.xor_self, UInt8.xor_zero]

/-- Reconstruction never fails, and hashes the reading with the helper data on it. -/
theorem sram_puf_reconstruct_eq {puf : MiniHwSecSRAMPuf} (enrolled : puf.enrolled = true) (key : Digest)
    (w' : PufResponse) :
    sramPufReconstruct puf key w' =
      (true, responseHash (xorResponse w' (Vector.ofFn fun i => puf.helperData.get ⟨i.val, by omega⟩))) := by
  have corrected : (Vector.ofFn fun i : Fin 256 => w'.get i ^^^ puf.helperData.get ⟨i.val % 512, by omega⟩) =
      xorResponse w' (Vector.ofFn fun i => puf.helperData.get ⟨i.val, by omega⟩) := by
    refine Vector.ext fun i lt => ?_
    have same : i % 512 = i := Nat.mod_eq_of_lt (by omega)
    simp only [xorResponse, Vector.getElem_zipWith, Vector.getElem_ofFn, get_mk, same]
  rw [sramPufReconstruct, if_pos enrolled, fuzzyExtract, corrected]
  rfl

/-- **The golden key comes back from an admissible reading if and only if the noise is the helper data**, but
for collisions of SHA-256. -/
theorem fuzzy_extractor_iff (puf : MiniHwSecSRAMPuf) (enrollment : MiniHwSecPufEnrollment) (w w' : PufResponse)
    (key : Digest) :
    let enrolled := (sramPufEnroll puf enrollment fun _ => w).2
    (Admissible w w' → sramPufReconstruct enrolled.1 key w' = (true, enrolled.2.goldenKey)) ↔
      (Admissible w w' →
        xorResponse w w' = helperFront w enrollment.helperData ∨
        Collides w (xorResponse w' (helperFront w enrollment.helperData))) := by
  obtain ⟨puf', enrollment', enrols, enrolled, helper, golden⟩ := sram_puf_enroll_same puf enrollment w
  rw [enrols]
  dsimp only
  have rebuilt := sram_puf_reconstruct_eq enrolled key w'
  rw [helper] at rebuilt
  rw [rebuilt, golden, Prod.mk.injEq, and_iff_right rfl, ← xorResponse_eq_iff]
  refine imp_congr_right fun _ => ?_
  show responseHash (xorResponse w' (helperFront w enrollment.helperData)) = responseHash w ↔ _
  generalize xorResponse w' (helperFront w enrollment.helperData) = decoded
  constructor
  · intro same
    by_cases eq : decoded = w
    · exact .inl eq
    · exact .inr ⟨eq, same⟩
  · rintro (rfl | ⟨-, same⟩)
    · rfl
    · exact same

/-! ## A response of zeros -/

def zeroResponse : PufResponse := Vector.replicate 256 0

def zeroPuf : MiniHwSecSRAMPuf := ⟨zeroResponse, zeroResponse, Vector.replicate 512 0, 0, 0, 0, false⟩

def zeroEnrollment : MiniHwSecPufEnrollment :=
  ⟨fun _ => zeroResponse, Vector.replicate 512 0, Vector.replicate 32 0, 0, fun _ => 0, false⟩

/-- A response is within the errors of itself. -/
theorem admissible_self (w : PufResponse) : Admissible w w := by
  intro k _
  rw [flips, List.countP_eq_zero.2]
  · exact Nat.zero_le _
  · intro b _
    simp

/-- The hash of a response, over numbers. -/
theorem toNat_responseHash (r : PufResponse) :
    (responseHash r).toList.map UInt8.toNat = Sha256Nat.sha256 (r.toList.map UInt8.toNat) := by
  rw [responseHash, toList_digestAt (length_hashPieces _), Sha256Nat.toNat_hashPieces, List.flatten_singleton]

/-- The hash of 256 zeros. -/
def zeroHash : Digest := #v[255, 14, 211, 255, 153, 56, 152, 86, 246, 233, 230, 13, 116, 246, 36, 59, 35, 71, 115, 215,
  150, 247, 190, 26, 195, 51, 233, 15, 23, 153, 233, 83]

/-- The hash of the response without a bit set. -/
theorem responseHash_zero : responseHash zeroResponse = zeroHash := by
  have zeros : zeroResponse.toList.map UInt8.toNat = List.replicate 256 0 := by
    rw [zeroResponse, Vector.toList_replicate, List.map_replicate]
    rfl
  rw [← Vector.toList_inj, ← List.map_inj_right fun _ _ => UInt8.toNat_inj.1, toNat_responseHash, zeros]
  decide +kernel

/-- What is hashed when the response is read again. -/
def zeroDecoded : PufResponse := xorResponse zeroResponse (helperFront zeroResponse (Vector.replicate 512 0))

/-- What the second reading of that response is decoded to, over numbers. -/
theorem toNat_zeroDecoded :
    zeroDecoded.toList.map UInt8.toNat = zeroHash.toList.map UInt8.toNat ++ List.replicate 224 0 := by
  have front : zeroDecoded = Vector.ofFn fun i => if h : i.val < 32 then zeroHash.get ⟨i.val, h⟩ else 0 := by
    rw [zeroDecoded, helperFront, bchEncode, responseHash_zero]
    refine Vector.ext fun i lt => ?_
    simp only [xorResponse, zeroResponse, get_eq, Vector.getElem_zipWith, Vector.getElem_replicate, Vector.getElem_ofFn,
      UInt8.zero_xor]
  rw [front]
  decide +kernel

/-- The second reading has another hash. -/
theorem responseHash_zeroDecoded : responseHash zeroDecoded ≠ zeroHash := by
  intro same
  have bytes : (responseHash zeroDecoded).toList.map UInt8.toNat = zeroHash.toList.map UInt8.toNat := by rw [same]
  rw [toNat_responseHash, toNat_zeroDecoded] at bytes
  revert bytes
  decide +kernel

/-- A response of zeros that is read again without an error does not give its golden key. -/
theorem fuzzy_extractor_zeros :
    let enrolled := (sramPufEnroll zeroPuf zeroEnrollment fun _ => zeroResponse).2
    Admissible zeroResponse zeroResponse ∧
      (sramPufReconstruct enrolled.1 (Vector.replicate 32 0) zeroResponse).2 ≠ enrolled.2.goldenKey := by
  obtain ⟨puf', enrollment', enrols, enrolled, helper, golden⟩ :=
    sram_puf_enroll_same zeroPuf zeroEnrollment zeroResponse
  rw [enrols]
  refine ⟨admissible_self _, ?_⟩
  have rebuilt := sram_puf_reconstruct_eq enrolled (Vector.replicate 32 0) zeroResponse
  rw [helper] at rebuilt
  rw [rebuilt, golden, responseHash_zero]
  exact responseHash_zeroDecoded

end MiniHardware.Security
