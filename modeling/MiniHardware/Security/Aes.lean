import MiniHardware.Lib.Index
import MiniHardware.Lib.Trace

/-!
# AES-256 (`mini-hardware-security/src/hw_crypto.c`)

The state is the 16 bytes of a block, column by column. Encryption and
decryption are written as the source has them: two directions with their own
tables, rotations and field multiplications.
-/

namespace MiniHardware.Security

/-- `MINI_HWSEC_AES_BLOCK_SIZE` bytes. -/
abbrev AesBlock := Vector UInt8 16

/-- `MINI_HWSEC_AES_KEY_SIZE` bytes. -/
abbrev AesKey := Vector UInt8 32

/-- `MINI_HWSEC_AES_WORD_COUNT` words. -/
abbrev AesWords := Vector UInt32 60

/-- `rounds` is the number of the last round key, of which there are 15. -/
structure MiniHwSecAesCtx where
  roundKeys : Vector UInt8 240
  rounds : Fin 15

set_option maxRecDepth 2000 in
def aesSbox : Vector UInt8 256 := #v[
  0x63, 0x7C, 0x77, 0x7B, 0xF2, 0x6B, 0x6F, 0xC5, 0x30, 0x01, 0x67, 0x2B, 0xFE, 0xD7, 0xAB, 0x76,
  0xCA, 0x82, 0xC9, 0x7D, 0xFA, 0x59, 0x47, 0xF0, 0xAD, 0xD4, 0xA2, 0xAF, 0x9C, 0xA4, 0x72, 0xC0,
  0xB7, 0xFD, 0x93, 0x26, 0x36, 0x3F, 0xF7, 0xCC, 0x34, 0xA5, 0xE5, 0xF1, 0x71, 0xD8, 0x31, 0x15,
  0x04, 0xC7, 0x23, 0xC3, 0x18, 0x96, 0x05, 0x9A, 0x07, 0x12, 0x80, 0xE2, 0xEB, 0x27, 0xB2, 0x75,
  0x09, 0x83, 0x2C, 0x1A, 0x1B, 0x6E, 0x5A, 0xA0, 0x52, 0x3B, 0xD6, 0xB3, 0x29, 0xE3, 0x2F, 0x84,
  0x53, 0xD1, 0x00, 0xED, 0x20, 0xFC, 0xB1, 0x5B, 0x6A, 0xCB, 0xBE, 0x39, 0x4A, 0x4C, 0x58, 0xCF,
  0xD0, 0xEF, 0xAA, 0xFB, 0x43, 0x4D, 0x33, 0x85, 0x45, 0xF9, 0x02, 0x7F, 0x50, 0x3C, 0x9F, 0xA8,
  0x51, 0xA3, 0x40, 0x8F, 0x92, 0x9D, 0x38, 0xF5, 0xBC, 0xB6, 0xDA, 0x21, 0x10, 0xFF, 0xF3, 0xD2,
  0xCD, 0x0C, 0x13, 0xEC, 0x5F, 0x97, 0x44, 0x17, 0xC4, 0xA7, 0x7E, 0x3D, 0x64, 0x5D, 0x19, 0x73,
  0x60, 0x81, 0x4F, 0xDC, 0x22, 0x2A, 0x90, 0x88, 0x46, 0xEE, 0xB8, 0x14, 0xDE, 0x5E, 0x0B, 0xDB,
  0xE0, 0x32, 0x3A, 0x0A, 0x49, 0x06, 0x24, 0x5C, 0xC2, 0xD3, 0xAC, 0x62, 0x91, 0x95, 0xE4, 0x79,
  0xE7, 0xC8, 0x37, 0x6D, 0x8D, 0xD5, 0x4E, 0xA9, 0x6C, 0x56, 0xF4, 0xEA, 0x65, 0x7A, 0xAE, 0x08,
  0xBA, 0x78, 0x25, 0x2E, 0x1C, 0xA6, 0xB4, 0xC6, 0xE8, 0xDD, 0x74, 0x1F, 0x4B, 0xBD, 0x8B, 0x8A,
  0x70, 0x3E, 0xB5, 0x66, 0x48, 0x03, 0xF6, 0x0E, 0x61, 0x35, 0x57, 0xB9, 0x86, 0xC1, 0x1D, 0x9E,
  0xE1, 0xF8, 0x98, 0x11, 0x69, 0xD9, 0x8E, 0x94, 0x9B, 0x1E, 0x87, 0xE9, 0xCE, 0x55, 0x28, 0xDF,
  0x8C, 0xA1, 0x89, 0x0D, 0xBF, 0xE6, 0x42, 0x68, 0x41, 0x99, 0x2D, 0x0F, 0xB0, 0x54, 0xBB, 0x16]

set_option maxRecDepth 2000 in
def aesInvSbox : Vector UInt8 256 := #v[
  0x52, 0x09, 0x6A, 0xD5, 0x30, 0x36, 0xA5, 0x38, 0xBF, 0x40, 0xA3, 0x9E, 0x81, 0xF3, 0xD7, 0xFB,
  0x7C, 0xE3, 0x39, 0x82, 0x9B, 0x2F, 0xFF, 0x87, 0x34, 0x8E, 0x43, 0x44, 0xC4, 0xDE, 0xE9, 0xCB,
  0x54, 0x7B, 0x94, 0x32, 0xA6, 0xC2, 0x23, 0x3D, 0xEE, 0x4C, 0x95, 0x0B, 0x42, 0xFA, 0xC3, 0x4E,
  0x08, 0x2E, 0xA1, 0x66, 0x28, 0xD9, 0x24, 0xB2, 0x76, 0x5B, 0xA2, 0x49, 0x6D, 0x8B, 0xD1, 0x25,
  0x72, 0xF8, 0xF6, 0x64, 0x86, 0x68, 0x98, 0x16, 0xD4, 0xA4, 0x5C, 0xCC, 0x5D, 0x65, 0xB6, 0x92,
  0x6C, 0x70, 0x48, 0x50, 0xFD, 0xED, 0xB9, 0xDA, 0x5E, 0x15, 0x46, 0x57, 0xA7, 0x8D, 0x9D, 0x84,
  0x90, 0xD8, 0xAB, 0x00, 0x8C, 0xBC, 0xD3, 0x0A, 0xF7, 0xE4, 0x58, 0x05, 0xB8, 0xB3, 0x45, 0x06,
  0xD0, 0x2C, 0x1E, 0x8F, 0xCA, 0x3F, 0x0F, 0x02, 0xC1, 0xAF, 0xBD, 0x03, 0x01, 0x13, 0x8A, 0x6B,
  0x3A, 0x91, 0x11, 0x41, 0x4F, 0x67, 0xDC, 0xEA, 0x97, 0xF2, 0xCF, 0xCE, 0xF0, 0xB4, 0xE6, 0x73,
  0x96, 0xAC, 0x74, 0x22, 0xE7, 0xAD, 0x35, 0x85, 0xE2, 0xF9, 0x37, 0xE8, 0x1C, 0x75, 0xDF, 0x6E,
  0x47, 0xF1, 0x1A, 0x71, 0x1D, 0x29, 0xC5, 0x89, 0x6F, 0xB7, 0x62, 0x0E, 0xAA, 0x18, 0xBE, 0x1B,
  0xFC, 0x56, 0x3E, 0x4B, 0xC6, 0xD2, 0x79, 0x20, 0x9A, 0xDB, 0xC0, 0xFE, 0x78, 0xCD, 0x5A, 0xF4,
  0x1F, 0xDD, 0xA8, 0x33, 0x88, 0x07, 0xC7, 0x31, 0xB1, 0x12, 0x10, 0x59, 0x27, 0x80, 0xEC, 0x5F,
  0x60, 0x51, 0x7F, 0xA9, 0x19, 0xB5, 0x4A, 0x0D, 0x2D, 0xE5, 0x7A, 0x9F, 0x93, 0xC9, 0x9C, 0xEF,
  0xA0, 0xE0, 0x3B, 0x4D, 0xAE, 0x2A, 0xF5, 0xB0, 0xC8, 0xEB, 0xBB, 0x3C, 0x83, 0x53, 0x99, 0x61,
  0x17, 0x2B, 0x04, 0x7E, 0xBA, 0x77, 0xD6, 0x26, 0xE1, 0x69, 0x14, 0x63, 0x55, 0x21, 0x0C, 0x7D]

def aesRcon : Vector UInt8 11 :=
  #v[0x00, 0x01, 0x02, 0x04, 0x08, 0x10, 0x20, 0x40, 0x80, 0x1B, 0x36]

/-! ## Multiplication in `GF(2^8)` -/

def gfMul2 (x : UInt8) : UInt8 := if x &&& 0x80 ≠ 0 then (x <<< 1) ^^^ 0x1B else x <<< 1

def gfMul3 (x : UInt8) : UInt8 := gfMul2 x ^^^ x

def gfMul9 (x : UInt8) : UInt8 := gfMul2 (gfMul2 (gfMul2 x)) ^^^ x

def gfMul11 (x : UInt8) : UInt8 :=
  let t := gfMul2 (gfMul2 (gfMul2 x))
  t ^^^ gfMul2 x ^^^ x

def gfMul13 (x : UInt8) : UInt8 :=
  let t := gfMul2 (gfMul2 (gfMul2 x))
  t ^^^ gfMul2 (gfMul2 x) ^^^ x

def gfMul14 (x : UInt8) : UInt8 :=
  let t := gfMul2 (gfMul2 (gfMul2 x))
  t ^^^ gfMul2 (gfMul2 x) ^^^ gfMul2 x

/-! ## Key expansion -/

def rotWord (w : UInt32) : UInt32 := (w <<< 8) ||| (w >>> 24)

/-- `table[x]` for a byte `x`. -/
def lookup (table : Vector UInt8 256) (x : UInt8) : UInt8 := table.get ⟨x.toNat, x.toNat_lt⟩

def subWord (w : UInt32) : UInt32 :=
  ((lookup aesSbox (w >>> 24).toUInt8).toUInt32 <<< 24) |||
  ((lookup aesSbox (w >>> 16).toUInt8).toUInt32 <<< 16) |||
  ((lookup aesSbox (w >>> 8).toUInt8).toUInt32 <<< 8) |||
  (lookup aesSbox w.toUInt8).toUInt32

/-- The big-endian word at byte `4 * i` of the key. -/
def keyWord (key : AesKey) (i : Fin 8) : UInt32 :=
  (key[4 * i.val].toUInt32 <<< 24) ||| (key[4 * i.val + 1].toUInt32 <<< 16) |||
  (key[4 * i.val + 2].toUInt32 <<< 8) ||| key[4 * i.val + 3].toUInt32

/-- The loop body of the expansion, for `i ≥ 8`. -/
def expandWord (w : AesWords) (i : Fin 60) : AesWords :=
  let temp := w[i.val - 1]
  let temp :=
    if i.val % 8 = 0 then
      subWord (rotWord temp) ^^^ ((aesRcon.get ⟨i.val / 8, by have := i.isLt; omega⟩).toUInt32 <<< 24)
    else if i.val % 8 = 4 then subWord temp
    else temp
  w.set i.val (w[i.val - 8] ^^^ temp)

def expandKey (key : AesKey) : AesWords :=
  ((List.finRange 60).drop 8).foldl expandWord
    (Vector.ofFn fun i => if h : i.val < 8 then keyWord key ⟨i.val, h⟩ else 0)

/-- Byte `b` of a word, the most significant first. -/
def byteOfWord (w : UInt32) (b : Fin 4) : UInt8 :=
  match b with
  | 0 => (w >>> 24).toUInt8
  | 1 => (w >>> 16).toUInt8
  | 2 => (w >>> 8).toUInt8
  | 3 => w.toUInt8

def aesInit (key : AesKey) : MiniHwSecAesCtx where
  roundKeys := Vector.ofFn fun i =>
    byteOfWord ((expandKey key)[i.val / 4]) ⟨i.val % 4, Nat.mod_lt _ (by decide)⟩
  rounds := 14

/-! ## Round transformations -/

/-- `ctx->round_keys + r * 16`. -/
def roundKey (ctx : MiniHwSecAesCtx) (r : Fin 15) : AesBlock :=
  Vector.ofFn fun i => ctx.roundKeys.get ⟨r.val * 16 + i.val, by have := r.isLt; have := i.isLt; omega⟩

def addRoundKey (state : AesBlock) (rk : AesBlock) : AesBlock := Vector.zipWith (· ^^^ ·) state rk

def subBytes (state : AesBlock) : AesBlock := state.map (lookup aesSbox)

def invSubBytes (state : AesBlock) : AesBlock := state.map (lookup aesInvSbox)

/-- Row `j`, the bytes `j`, `j + 4`, `j + 8` and `j + 12`, moves left by `j`. -/
def shiftRows (state : AesBlock) : AesBlock :=
  #v[state[0], state[5], state[10], state[15], state[4], state[9], state[14], state[3],
    state[8], state[13], state[2], state[7], state[12], state[1], state[6], state[11]]

def invShiftRows (state : AesBlock) : AesBlock :=
  #v[state[0], state[13], state[10], state[7], state[4], state[1], state[14], state[11],
    state[8], state[5], state[2], state[15], state[12], state[9], state[6], state[3]]

/-- Apply `f` to the four columns. -/
def mapColumns (f : UInt8 → UInt8 → UInt8 → UInt8 → Vector UInt8 4) (state : AesBlock) : AesBlock :=
  let c0 := f state[0] state[1] state[2] state[3]
  let c1 := f state[4] state[5] state[6] state[7]
  let c2 := f state[8] state[9] state[10] state[11]
  let c3 := f state[12] state[13] state[14] state[15]
  #v[c0[0], c0[1], c0[2], c0[3], c1[0], c1[1], c1[2], c1[3],
    c2[0], c2[1], c2[2], c2[3], c3[0], c3[1], c3[2], c3[3]]

def mixColumn (s0 s1 s2 s3 : UInt8) : Vector UInt8 4 :=
  #v[gfMul2 s0 ^^^ gfMul3 s1 ^^^ s2 ^^^ s3,
    s0 ^^^ gfMul2 s1 ^^^ gfMul3 s2 ^^^ s3,
    s0 ^^^ s1 ^^^ gfMul2 s2 ^^^ gfMul3 s3,
    gfMul3 s0 ^^^ s1 ^^^ s2 ^^^ gfMul2 s3]

def invMixColumn (s0 s1 s2 s3 : UInt8) : Vector UInt8 4 :=
  #v[gfMul14 s0 ^^^ gfMul11 s1 ^^^ gfMul13 s2 ^^^ gfMul9 s3,
    gfMul9 s0 ^^^ gfMul14 s1 ^^^ gfMul11 s2 ^^^ gfMul13 s3,
    gfMul13 s0 ^^^ gfMul9 s1 ^^^ gfMul14 s2 ^^^ gfMul11 s3,
    gfMul11 s0 ^^^ gfMul13 s1 ^^^ gfMul9 s2 ^^^ gfMul14 s3]

def mixColumns (state : AesBlock) : AesBlock := mapColumns mixColumn state

def invMixColumns (state : AesBlock) : AesBlock := mapColumns invMixColumn state

/-! ## The cipher -/

/-- The round numbers of `for (r = 1; r < ctx->rounds; r++)`. -/
def innerRounds (ctx : MiniHwSecAesCtx) : List (Fin 15) :=
  (List.finRange 15).filter fun r => 0 < r.val ∧ r.val < ctx.rounds.val

def encryptRound (ctx : MiniHwSecAesCtx) (state : AesBlock) (r : Fin 15) : AesBlock :=
  addRoundKey (mixColumns (shiftRows (subBytes state))) (roundKey ctx r)

def decryptRound (ctx : MiniHwSecAesCtx) (state : AesBlock) (r : Fin 15) : AesBlock :=
  invMixColumns (addRoundKey (invSubBytes (invShiftRows state)) (roundKey ctx r))

def aesEncrypt (ctx : MiniHwSecAesCtx) (plain : AesBlock) : AesBlock :=
  let state := addRoundKey plain (roundKey ctx 0)
  let state := (innerRounds ctx).foldl (encryptRound ctx) state
  addRoundKey (shiftRows (subBytes state)) (roundKey ctx ctx.rounds)

/-- The loop runs from `ctx->rounds - 1` down to 1. -/
def aesDecrypt (ctx : MiniHwSecAesCtx) (cipher : AesBlock) : AesBlock :=
  let state := addRoundKey cipher (roundKey ctx ctx.rounds)
  let state := (innerRounds ctx).reverse.foldl (decryptRound ctx) state
  addRoundKey (invSubBytes (invShiftRows state)) (roundKey ctx 0)

end MiniHardware.Security
