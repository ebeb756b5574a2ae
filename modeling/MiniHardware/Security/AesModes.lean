import MiniHardware.Lib.Blocks
import MiniHardware.Security.AesInverse
import MiniHardware.Security.Gcm

/-!
# AES-256-CBC and AES-256-CTR (`mini-hardware-security/src/hw_crypto.c`)

Buffers are lists of bytes, input and output distinct. CBC threads the
previous ciphertext block, CTR a 32-bit block number that wraps around.
-/

namespace MiniHardware.Security
open Lib

/-! ## Cipher block chaining -/

/-- One block; the state is `prev_ct`. -/
def cbcEncryptBlock (ctx : MiniHwSecAesCtx) (prevCt input : AesBlock) : AesBlock × AesBlock :=
  let output := aesEncrypt ctx (xorBlock input prevCt)
  (output, output)

def cbcDecryptBlock (ctx : MiniHwSecAesCtx) (prevCt input : AesBlock) : AesBlock × AesBlock :=
  let decrypted := aesDecrypt ctx input
  (input, xorBlock decrypted prevCt)

/-- What is written to the output buffer, or nothing when `false` is returned. -/
def aesCbcEncrypt (ctx : MiniHwSecAesCtx) (iv : AesBlock) (input : List UInt8) : Option (List UInt8) :=
  if input.length % 16 ≠ 0 then none else some (transduce (cbcEncryptBlock ctx) iv input)

def aesCbcDecrypt (ctx : MiniHwSecAesCtx) (iv : AesBlock) (input : List UInt8) : Option (List UInt8) :=
  if input.length % 16 ≠ 0 then none else some (transduce (cbcDecryptBlock ctx) iv input)

/-! ## Counter mode -/

/-- The nonce and the block number, big-endian. -/
def ctrCounter (nonce : Vector UInt8 12) (blockNum : UInt32) : AesBlock :=
  nonce ++ (#v[(blockNum >>> 24).toUInt8, (blockNum >>> 16).toUInt8, (blockNum >>> 8).toUInt8,
    blockNum.toUInt8] : Vector UInt8 4)

/-- `mini_hwsec_aes_ctr_block`. -/
def aesCtrBlock (ctx : MiniHwSecAesCtx) (counter : AesBlock) : AesBlock := aesEncrypt ctx counter

def aesCtrMode (ctx : MiniHwSecAesCtx) (nonce : Vector UInt8 12) (input : List UInt8) : List UInt8 :=
  mask (· ^^^ ·) (fun blockNum => aesCtrBlock ctx (ctrCounter nonce blockNum)) (· + 1) (0 : UInt32) input

/-! ## Round trips -/

theorem xorBlock_xorBlock (a b : AesBlock) : xorBlock (xorBlock a b) b = a := by
  refine Vector.ext fun i h => ?_
  simp only [xorBlock, Vector.getElem_zipWith, UInt8.xor_assoc, UInt8.xor_self, UInt8.xor_zero]

/-- A block is decrypted with the previous ciphertext block it was encrypted with. -/
theorem cbcDecryptBlock_cbcEncryptBlock (ctx : MiniHwSecAesCtx) (prevCt block : AesBlock) :
    cbcDecryptBlock ctx prevCt (cbcEncryptBlock ctx prevCt block).2 =
      ((cbcEncryptBlock ctx prevCt block).1, block) := by
  rw [cbcDecryptBlock, cbcEncryptBlock]
  dsimp only
  rw [aes_decrypt_encrypt_ctx, xorBlock_xorBlock]

theorem aes_cbc_decrypt_encrypt (ctx : MiniHwSecAesCtx) (iv : AesBlock) (input : List UInt8) :
    (aesCbcEncrypt ctx iv input).bind (aesCbcDecrypt ctx iv) =
      if input.length % 16 = 0 then some input else none := by
  rw [aesCbcEncrypt]
  by_cases whole : input.length % 16 = 0
  · have undone := transduce_transduce (cbcDecryptBlock_cbcEncryptBlock ctx) iv input whole
    have same := length_transduce (f := cbcEncryptBlock ctx) iv input whole
    rw [if_neg (not_not.2 whole), Option.bind_some, aesCbcDecrypt, same, if_neg (not_not.2 whole),
      undone, if_pos whole]
  · rw [if_pos whole, if_neg whole, Option.bind_none]

theorem aes_ctr_mode_twice (ctx : MiniHwSecAesCtx) (nonce : Vector UInt8 12) (input : List UInt8) :
    aesCtrMode ctx nonce (aesCtrMode ctx nonce input) = input :=
  mask_mask (fun a k => by rw [UInt8.xor_assoc, UInt8.xor_self, UInt8.xor_zero]) 0 input

/-- **Both modes can be undone.** CBC decryption gives back every buffer of complete blocks, and
CTR applied twice every buffer. -/
theorem aes_modes_round_trip (key : AesKey) (iv : AesBlock) (nonce : Vector UInt8 12)
    (input : List UInt8) :
    (aesCbcEncrypt (aesInit key) iv input).bind (aesCbcDecrypt (aesInit key) iv) =
        (if input.length % 16 = 0 then some input else none) ∧
      aesCtrMode (aesInit key) nonce (aesCtrMode (aesInit key) nonce input) = input :=
  ⟨aes_cbc_decrypt_encrypt _ iv input, aes_ctr_mode_twice _ nonce input⟩

end MiniHardware.Security
