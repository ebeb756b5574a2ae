import MiniHardware.Lib.Blocks
import MiniHardware.Lib.Index

/-!
# SHA-256 (`mini-hardware-security/src/hw_crypto.c`)

The message schedule, the compression transform and the streaming interface:
a context buffers what does not fill a block of 64 bytes yet. `sha256_init`
does not write the buffer, so it takes the context it initialises.
-/

namespace MiniHardware.Security
open Lib

/-- The context; `buffer_len` is an `int`, never negative here. -/
structure MiniHwSecSha256Ctx where
  h : Vector UInt32 8
  buffer : Vector UInt8 64
  totalBytes : UInt64
  bufferLen : Nat

def sha256K : Vector UInt32 64 := #v[
  0x428a2f98, 0x71374491, 0xb5c0fbcf, 0xe9b5dba5, 0x3956c25b, 0x59f111f1, 0x923f82a4, 0xab1c5ed5,
  0xd807aa98, 0x12835b01, 0x243185be, 0x550c7dc3, 0x72be5d74, 0x80deb1fe, 0x9bdc06a7, 0xc19bf174,
  0xe49b69c1, 0xefbe4786, 0x0fc19dc6, 0x240ca1cc, 0x2de92c6f, 0x4a7484aa, 0x5cb0a9dc, 0x76f988da,
  0x983e5152, 0xa831c66d, 0xb00327c8, 0xbf597fc7, 0xc6e00bf3, 0xd5a79147, 0x06ca6351, 0x14292967,
  0x27b70a85, 0x2e1b2138, 0x4d2c6dfc, 0x53380d13, 0x650a7354, 0x766a0abb, 0x81c2c92e, 0x92722c85,
  0xa2bfe8a1, 0xa81a664b, 0xc24b8b70, 0xc76c51a3, 0xd192e819, 0xd6990624, 0xf40e3585, 0x106aa070,
  0x19a4c116, 0x1e376c08, 0x2748774c, 0x34b0bcb5, 0x391c0cb3, 0x4ed8aa4a, 0x5b9cca4f, 0x682e6ff3,
  0x748f82ee, 0x78a5636f, 0x84c87814, 0x8cc70208, 0x90befffa, 0xa4506ceb, 0xbef9a3f7, 0xc67178f2]

def ror32 (x n : UInt32) : UInt32 := (x >>> n) ||| (x <<< (32 - n))

def ch (x y z : UInt32) : UInt32 := (x &&& y) ^^^ (~~~x &&& z)

def maj (x y z : UInt32) : UInt32 := (x &&& y) ^^^ (x &&& z) ^^^ (y &&& z)

def sig0 (x : UInt32) : UInt32 := ror32 x 2 ^^^ ror32 x 13 ^^^ ror32 x 22

def sig1 (x : UInt32) : UInt32 := ror32 x 6 ^^^ ror32 x 11 ^^^ ror32 x 25

def sig2 (x : UInt32) : UInt32 := ror32 x 7 ^^^ ror32 x 18 ^^^ (x >>> 3)

def sig3 (x : UInt32) : UInt32 := ror32 x 17 ^^^ ror32 x 22 ^^^ (x >>> 10)

/-! ## The transform -/

/-- The big-endian word at byte `4 * t` of the block. -/
def blockWord (block : Vector UInt8 64) (t : Fin 16) : UInt32 :=
  (block[t.val * 4].toUInt32 <<< 24) ||| (block[t.val * 4 + 1].toUInt32 <<< 16) |||
  (block[t.val * 4 + 2].toUInt32 <<< 8) ||| block[t.val * 4 + 3].toUInt32

/-- The working variables. -/
structure Working where
  a : UInt32
  b : UInt32
  c : UInt32
  d : UInt32
  e : UInt32
  f : UInt32
  g : UInt32
  hi : UInt32

def roundStep (w : Vector UInt32 64) (s : Working) (t : Fin 64) : Working :=
  let t1 := s.hi + sig1 s.e + ch s.e s.f s.g + sha256K[t] + w[t]
  let t2 := sig0 s.a + maj s.a s.b s.c
  { a := t1 + t2, b := s.a, c := s.b, d := s.c, e := s.d + t1, f := s.e, g := s.f, hi := s.g }

section Sigma

variable (sigma : UInt32 → UInt32)

/-- The loop body that extends the schedule, for `t ≥ 16`, with `sigma` for `SIG3`. -/
def scheduleStepWith (w : Vector UInt32 64) (t : Fin 64) : Vector UInt32 64 :=
  w.set t.val (sigma w[t.val - 2] + w[t.val - 7] + sig2 w[t.val - 15] + w[t.val - 16])

def scheduleWith (block : Vector UInt8 64) : Vector UInt32 64 :=
  ((List.finRange 64).drop 16).foldl (scheduleStepWith sigma)
    (Vector.ofFn fun t => if h : t.val < 16 then blockWord block ⟨t.val, h⟩ else 0)

def transformWith (h : Vector UInt32 8) (block : Vector UInt8 64) : Vector UInt32 8 :=
  let s := (List.finRange 64).foldl (roundStep (scheduleWith sigma block))
    ⟨h[0], h[1], h[2], h[3], h[4], h[5], h[6], h[7]⟩
  #v[h[0] + s.a, h[1] + s.b, h[2] + s.c, h[3] + s.d, h[4] + s.e, h[5] + s.f, h[6] + s.g, h[7] + s.hi]

end Sigma

def schedule (block : Vector UInt8 64) : Vector UInt32 64 := scheduleWith sig3 block

def sha256Transform (h : Vector UInt32 8) (block : Vector UInt8 64) : Vector UInt32 8 := transformWith sig3 h block

/-! ## The streaming interface -/

/-- The state that `sha256_init` stores. -/
def initialHash : Vector UInt32 8 :=
  #v[0x6a09e667, 0xbb67ae85, 0x3c6ef372, 0xa54ff53a, 0x510e527f, 0x9b05688c, 0x1f83d9ab, 0x5be0cd19]

def sha256Init (ctx : MiniHwSecSha256Ctx) : MiniHwSecSha256Ctx :=
  { ctx with h := initialHash, totalBytes := 0, bufferLen := 0 }

/-- `memcpy(buffer + off, data, len)`. -/
def copyInto (buffer : Vector UInt8 64) (off : Nat) (data : List UInt8) : Vector UInt8 64 :=
  Vector.ofFn fun i => if off ≤ i.val ∧ i.val < off + data.length then data.getD (i.val - off) 0
    else buffer[i]

/-- The 64 bytes at a pointer. -/
def blockAt (data : List UInt8) : Vector UInt8 64 := Vector.ofFn fun i => data.getD i.val 0

/-- The `while` loop over the complete blocks of `data`. -/
def transformBlocks (h : Vector UInt32 8) (data : List UInt8) : Vector UInt32 8 × List UInt8 :=
  foldBlocks 64 (fun h block => sha256Transform h (blockAt block)) h data

/-- The tail of `update`: transform the complete blocks, keep the rest. -/
def updateBlocks (ctx : MiniHwSecSha256Ctx) (data : List UInt8) : MiniHwSecSha256Ctx :=
  match transformBlocks ctx.h data with
  | (h, rest) =>
    let ctx := { ctx with h := h }
    if 0 < rest.length then
      { ctx with buffer := copyInto ctx.buffer 0 rest, bufferLen := rest.length }
    else ctx

def sha256Update (ctx : MiniHwSecSha256Ctx) (data : List UInt8) : MiniHwSecSha256Ctx :=
  let ctx := { ctx with totalBytes := ctx.totalBytes + UInt64.ofNat data.length }
  if 0 < ctx.bufferLen then
    let fill := 64 - ctx.bufferLen
    if data.length < fill then
      { ctx with
        buffer := copyInto ctx.buffer ctx.bufferLen data, bufferLen := ctx.bufferLen + data.length }
    else
      let buffer := copyInto ctx.buffer ctx.bufferLen (data.take fill)
      updateBlocks
        { ctx with buffer := buffer, h := sha256Transform ctx.h buffer, bufferLen := 0 }
        (data.drop fill)
  else updateBlocks ctx data

/-- The eight bytes of a 64-bit number, big-endian. -/
def bigEndian64 (x : UInt64) : List UInt8 :=
  [(x >>> 56).toUInt8, (x >>> 48).toUInt8, (x >>> 40).toUInt8, (x >>> 32).toUInt8,
    (x >>> 24).toUInt8, (x >>> 16).toUInt8, (x >>> 8).toUInt8, x.toUInt8]

/-- The eight words of the state, big-endian. -/
def digestOf (h : Vector UInt32 8) : List UInt8 :=
  h.toList.flatMap fun w : UInt32 =>
    [(w >>> 24).toUInt8, (w >>> 16).toUInt8, (w >>> 8).toUInt8, w.toUInt8]

def sha256Final (ctx : MiniHwSecSha256Ctx) : MiniHwSecSha256Ctx × List UInt8 :=
  let totalBits := ctx.totalBytes * 8
  let ctx := { ctx with
    buffer := copyInto ctx.buffer ctx.bufferLen [0x80], bufferLen := ctx.bufferLen + 1 }
  let ctx :=
    if 56 < ctx.bufferLen then
      let buffer := copyInto ctx.buffer ctx.bufferLen (List.replicate (64 - ctx.bufferLen) 0)
      { ctx with buffer := buffer, h := sha256Transform ctx.h buffer, bufferLen := 0 }
    else ctx
  let buffer := copyInto ctx.buffer ctx.bufferLen (List.replicate (56 - ctx.bufferLen) 0)
  let buffer := copyInto buffer 56 (bigEndian64 totalBits)
  let ctx := { ctx with buffer := buffer, h := sha256Transform ctx.h buffer }
  (ctx, digestOf ctx.h)

def sha256 (ctx : MiniHwSecSha256Ctx) (data : List UInt8) : List UInt8 :=
  (sha256Final (sha256Update (sha256Init ctx) data)).2

end MiniHardware.Security
