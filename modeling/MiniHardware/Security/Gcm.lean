import MiniHardware.Lib.Blocks
import MiniHardware.Security.Aes

/-!
# AES-256-GCM (`mini-hardware-security/src/hw_crypto.c`)

Byte strings are lists; `len` and `aad_len` are their lengths. Decryption
computes the tag of the ciphertext first and leaves the output buffer alone
unless it is the tag it was given (`gcm_decrypt_iff_encrypt`).
-/

namespace MiniHardware.Security
open Lib

/-! ## GHASH -/

def zeroBlock : AesBlock := Vector.replicate 16 0

def xorBlock (a b : AesBlock) : AesBlock := Vector.zipWith (· ^^^ ·) a b

/-- `V >> 1` across the bytes. -/
def shiftRightBytes (v : AesBlock) : AesBlock := Vector.ofFn fun j =>
  if j.val = 0 then v.get 0 >>> 1 else (v.get j >>> 1) ||| (v[j.val - 1] <<< 7)

/-- `V >> 1` with the reduction by `0xE1`. -/
def shiftRightReduce (v : AesBlock) : AesBlock :=
  let lsb := v.get 15 &&& 1
  let w := shiftRightBytes v
  if lsb ≠ 0 then w.setIfInBounds 0 (w.get 0 ^^^ 0xE1) else w

/-- `byte_idx` for bit `i`. -/
def byteIdx (i : Fin 128) : Fin 16 := ⟨i.val / 8, by omega⟩

/-- The loop body of `gcm_mult` for bit `i` of `x`; the state is `(z, v)`. -/
def gcmMultStep (x : AesBlock) (s : AesBlock × AesBlock) (i : Fin 128) : AesBlock × AesBlock :=
  let bitIdx := UInt8.ofNat (7 - i.val % 8)
  let z := if x.get (byteIdx i) &&& (1 <<< bitIdx) ≠ 0 then xorBlock s.1 s.2 else s.1
  (z, shiftRightReduce s.2)

def gcmMult (x y : AesBlock) : AesBlock :=
  ((List.finRange 128).foldl (gcmMultStep x) (zeroBlock, y)).1

/-- `memcpy` of up to 16 bytes and zeros after them. -/
def padBlock (bytes : List UInt8) : AesBlock := Vector.ofFn fun i => bytes.getD i.val 0

/-- The loop over the 16-byte blocks of the AAD or the ciphertext. -/
def ghashBlocks (hashSubkey : AesBlock) (y : AesBlock) : List UInt8 → AesBlock
  | [] => y
  | b :: bs =>
    ghashBlocks hashSubkey (gcmMult (xorBlock y (padBlock ((b :: bs).take 16))) hashSubkey)
      ((b :: bs).drop 16)
termination_by bytes => bytes.length
decreasing_by simp only [List.length_drop, List.length_cons]; omega

/-- Byte `i` of a 64-bit length, big-endian. -/
def byteOfLength (bits : UInt64) (i : Nat) : UInt8 := (bits >>> UInt64.ofNat (56 - 8 * i)).toUInt8

def ghash (hashSubkey : AesBlock) (aad cipher : List UInt8) : AesBlock :=
  let y := ghashBlocks hashSubkey zeroBlock aad
  let y := ghashBlocks hashSubkey y cipher
  let aadBits := UInt64.ofNat aad.length * 8
  let cipherBits := UInt64.ofNat cipher.length * 8
  let lenBlock : AesBlock := Vector.ofFn fun i =>
    if i.val < 8 then byteOfLength aadBits i.val else byteOfLength cipherBits (i.val - 8)
  gcmMult (xorBlock y lenBlock) hashSubkey

/-! ## Counter mode -/

/-- `J0`: the IV followed by the 32-bit number 1. -/
def initialCounter (iv : Vector UInt8 12) : AesBlock :=
  iv ++ (#v[0, 0, 0, 1] : Vector UInt8 4)

/-- The last four bytes, as a big-endian number, are incremented modulo `2^32`. -/
def incrementCounter (ctr : AesBlock) : AesBlock :=
  let val := ((ctr.get 12).toUInt32 <<< 24) ||| ((ctr.get 13).toUInt32 <<< 16) |||
    ((ctr.get 14).toUInt32 <<< 8) ||| (ctr.get 15).toUInt32
  let val := val + 1
  let ctr := ctr.setIfInBounds 12 (val >>> 24).toUInt8
  let ctr := ctr.setIfInBounds 13 (val >>> 16).toUInt8
  let ctr := ctr.setIfInBounds 14 (val >>> 8).toUInt8
  ctr.setIfInBounds 15 val.toUInt8

/-- The `while (off < len)` loop: what is written to the output. -/
def ctrXor (ctx : MiniHwSecAesCtx) (ctr : AesBlock) (input : List UInt8) : List UInt8 :=
  mask (· ^^^ ·) (aesEncrypt ctx) incrementCounter ctr input

/-! ## Authenticated encryption -/

/-- The tag both directions compute from the ciphertext. -/
def gcmTag (ctx : MiniHwSecAesCtx) (iv : Vector UInt8 12) (aad cipher : List UInt8) : AesBlock :=
  let hashSubkey := aesEncrypt ctx zeroBlock
  xorBlock (ghash hashSubkey aad cipher) (aesEncrypt ctx (initialCounter iv))

/-- Ciphertext and tag. -/
def gcmEncrypt (ctx : MiniHwSecAesCtx) (iv : Vector UInt8 12) (plain aad : List UInt8) :
    List UInt8 × AesBlock :=
  let cipher := ctrXor ctx (incrementCounter (initialCounter iv)) plain
  (cipher, gcmTag ctx iv aad cipher)

/-- `diff` after the constant-time comparison. -/
def tagDiff (computedTag tag : AesBlock) : UInt8 :=
  (List.finRange 16).foldl (fun diff i => diff ||| (computedTag.get i ^^^ tag.get i)) 0

/-- `bytes` written to the front of a buffer. -/
def writeFront (bytes buffer : List UInt8) : List UInt8 := bytes ++ buffer.drop bytes.length

/-- The return value and the output buffer; `plain` is what the buffer held before. -/
def gcmDecrypt (ctx : MiniHwSecAesCtx) (iv : Vector UInt8 12) (cipher plain aad : List UInt8)
    (tag : AesBlock) : Bool × List UInt8 :=
  if tagDiff (gcmTag ctx iv aad cipher) tag ≠ 0 then (false, plain)
  else (true, writeFront (ctrXor ctx (incrementCounter (initialCounter iv)) cipher) plain)

/-! ## What decryption accepts -/

/-- Counter mode is its own inverse. -/
theorem ctrXor_ctrXor (ctx : MiniHwSecAesCtx) (ctr : AesBlock) (input : List UInt8) :
    ctrXor ctx ctr (ctrXor ctx ctr input) = input :=
  mask_mask (fun a k => by rw [UInt8.xor_assoc, UInt8.xor_self, UInt8.xor_zero]) ctr input

@[simp] theorem length_ctrXor (ctx : MiniHwSecAesCtx) (ctr : AesBlock) (input : List UInt8) :
    (ctrXor ctx ctr input).length = input.length :=
  length_mask ctr input

theorem or_eq_zero {a b : UInt8} : a ||| b = 0 ↔ a = 0 ∧ b = 0 := by
  rw [← UInt8.toBitVec_inj, ← UInt8.toBitVec_inj, ← UInt8.toBitVec_inj]
  exact BitVec.or_eq_zero_iff

theorem foldl_or_eq_zero {ι : Type} (f : ι → UInt8) (is : List ι) (d : UInt8) :
    is.foldl (fun diff i => diff ||| f i) d = 0 ↔ d = 0 ∧ ∀ i ∈ is, f i = 0 := by
  induction is generalizing d with
  | nil => simp
  | cons i is ih => rw [List.foldl_cons, ih, or_eq_zero, List.forall_mem_cons, and_assoc]

/-- The comparison finds every difference. -/
theorem tagDiff_eq_zero {computedTag tag : AesBlock} :
    tagDiff computedTag tag = 0 ↔ computedTag = tag := by
  rw [tagDiff, foldl_or_eq_zero]
  constructor
  · rintro ⟨-, same⟩
    refine Vector.ext fun i h => ?_
    exact UInt8.xor_eq_zero_iff.1 (same ⟨i, h⟩ (List.mem_finRange _))
  · rintro rfl
    exact ⟨rfl, fun i _ => UInt8.xor_self⟩

/-- `gcm_decrypt` accepts exactly the ciphertexts with their tag. -/
theorem gcm_decrypt_accepts (ctx : MiniHwSecAesCtx) (iv : Vector UInt8 12)
    (cipher plain aad : List UInt8) (tag : AesBlock) :
    gcmDecrypt ctx iv cipher plain aad tag =
      if gcmTag ctx iv aad cipher = tag then
        (true, writeFront (ctrXor ctx (incrementCounter (initialCounter iv)) cipher) plain)
      else (false, plain) := by
  unfold gcmDecrypt
  by_cases same : gcmTag ctx iv aad cipher = tag
  · rw [if_pos same, if_neg (not_not.2 (tagDiff_eq_zero.2 same))]
  · rw [if_neg same, if_pos fun zero => same (tagDiff_eq_zero.1 zero)]

/-- A text encrypts to the ciphertext and tag exactly if it is the decrypted one and the tag
is right. -/
theorem gcm_encrypt_eq_iff (ctx : MiniHwSecAesCtx) (iv : Vector UInt8 12)
    (text cipher aad : List UInt8) (tag : AesBlock) :
    gcmEncrypt ctx iv text aad = (cipher, tag) ↔
      text = ctrXor ctx (incrementCounter (initialCounter iv)) cipher ∧
        gcmTag ctx iv aad cipher = tag := by
  simp only [gcmEncrypt, Prod.mk.injEq]
  constructor
  · rintro ⟨rfl, h⟩
    exact ⟨(ctrXor_ctrXor _ _ _).symm, h⟩
  · rintro ⟨rfl, h⟩
    rw [ctrXor_ctrXor]
    exact ⟨rfl, h⟩

/-- One call with output buffer `plain` accepts what encryption yields and nothing else, and writes only then. -/
structure DecryptsExactly (ctx : MiniHwSecAesCtx) (iv : Vector UInt8 12)
    (cipher plain aad : List UInt8) (tag : AesBlock) : Prop where
  accepts : (gcmDecrypt ctx iv cipher plain aad tag).1 = true ↔
    ∃ text, text.length = cipher.length ∧ gcmEncrypt ctx iv text aad = (cipher, tag)
  writes : ∀ text, gcmEncrypt ctx iv text aad = (cipher, tag) →
    (gcmDecrypt ctx iv cipher plain aad tag).2 = writeFront text plain
  untouched : (gcmDecrypt ctx iv cipher plain aad tag).1 = false →
    (gcmDecrypt ctx iv cipher plain aad tag).2 = plain

/-- **Decryption accepts exactly what encryption produces.** It returns true if and only if
the ciphertext and tag encrypt some plaintext, writes that plaintext then, and else
nothing. -/
theorem gcm_decrypt_iff_encrypt (key : AesKey) (iv : Vector UInt8 12)
    (cipher plain aad : List UInt8) (tag : AesBlock) :
    DecryptsExactly (aesInit key) iv cipher plain aad tag := by
  generalize aesInit key = ctx
  refine ⟨?_, ?_, ?_⟩ <;> rw [gcm_decrypt_accepts]
  · constructor
    · intro h
      split at h
      · rename_i same
        exact ⟨_, length_ctrXor _ _ _, (gcm_encrypt_eq_iff ..).2 ⟨rfl, same⟩⟩
      · cases h
    · rintro ⟨text, -, h⟩
      rw [if_pos ((gcm_encrypt_eq_iff ..).1 h).2]
  · intro text h
    obtain ⟨rfl, same⟩ := (gcm_encrypt_eq_iff ..).1 h
    rw [if_pos same]
  · intro h
    split at h
    · cases h
    · rw [if_neg ‹_›]

end MiniHardware.Security
