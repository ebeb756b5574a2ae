import Mathlib.Algebra.Order.Ring.Nat
import Mathlib.Data.List.FinRange
import Mathlib.Tactic.Common
import MiniHardware.Lib.Index

/-!
# SHA-256 as FIPS 180-4 defines it

Words, the message schedule, the compression of a block, padding and digest,
in the terms of the standard. The schedule and what is built on it take the
function `sigma1` as a parameter; SHA-256 has `smallSigma1` there.
-/

namespace MiniHardware.Security.Fips180

/-! ## Functions -/

def rotr (n : Nat) (x : UInt32) : UInt32 := ⟨x.toBitVec.rotateRight n⟩

def shr (n : Nat) (x : UInt32) : UInt32 := ⟨x.toBitVec >>> n⟩

def chooseBits (x y z : UInt32) : UInt32 := (x &&& y) ^^^ (~~~x &&& z)

def majority (x y z : UInt32) : UInt32 := (x &&& y) ^^^ (x &&& z) ^^^ (y &&& z)

def bigSigma0 (x : UInt32) : UInt32 := rotr 2 x ^^^ rotr 13 x ^^^ rotr 22 x

def bigSigma1 (x : UInt32) : UInt32 := rotr 6 x ^^^ rotr 11 x ^^^ rotr 25 x

def smallSigma0 (x : UInt32) : UInt32 := rotr 7 x ^^^ rotr 18 x ^^^ shr 3 x

def smallSigma1 (x : UInt32) : UInt32 := rotr 17 x ^^^ rotr 19 x ^^^ shr 10 x

/-! ## Constants -/

/-- The first 64 primes. -/
def primes : Vector Nat 64 := #v[
  2, 3, 5, 7, 11, 13, 17, 19, 23, 29, 31, 37, 41, 43, 47, 53, 59, 61, 67, 71, 73, 79, 83, 89, 97, 101, 103, 107,
  109, 113, 127, 131, 137, 139, 149, 151, 157, 163, 167, 173, 179, 181, 191, 193, 197, 199, 211, 223, 227, 229,
  233, 239, 241, 251, 257, 263, 269, 271, 277, 281, 283, 293, 307, 311]

/-- The integer root, found from its 36 bits. -/
def root (k m : Nat) : Nat :=
  (List.range 36).reverse.foldl (fun n i => if (n + 2 ^ i) ^ k ≤ m then n + 2 ^ i else n) 0

/-- The first 32 bits of the fractional part of the root of `p`. -/
def fractionOfRoot (k p : Nat) : UInt32 := UInt32.ofNat (root k (p * 2 ^ (32 * k)))

/-- From the cube roots of the first 64 primes. -/
def constantK (t : Fin 64) : UInt32 := fractionOfRoot 3 (primes.get t)

/-- From the square roots of the first eight primes. -/
def initialHash : Vector UInt32 8 := Vector.ofFn fun i => fractionOfRoot 2 primes[i.val]

/-! ## Padding -/

/-- The `k` bytes of a number, the most significant one first. -/
def bigEndian (k n : Nat) : List UInt8 := (List.range k).map fun i => UInt8.ofNat (n / 256 ^ (k - 1 - i))

/-- The smallest number of zero bytes that leaves eight bytes in the last block. -/
def zeroBytes (length : Nat) : Nat :=
  ((List.range 64).find? fun z => (length + 1 + z) % 64 = 56).getD 0

def padded (msg : List UInt8) : List UInt8 :=
  msg ++ 0x80 :: List.replicate (zeroBytes msg.length) 0 ++ bigEndian 8 (8 * msg.length)

/-- The blocks of 64 bytes. -/
def blocks (msg : List UInt8) : List (List UInt8) :=
  (List.range ((padded msg).length / 64)).map fun i => ((padded msg).drop (64 * i)).take 64

/-- Word `t` of a block. -/
def word (block : List UInt8) (t : Nat) : UInt32 :=
  UInt32.ofNat (((block.drop (4 * t)).take 4).foldl (fun n byte => 256 * n + byte.toNat) 0)

/-! ## Computation -/

section Computation

variable (sigma1 : UInt32 → UInt32)

/-- The message schedule. -/
def schedule (m : Nat → UInt32) (t : Nat) : UInt32 :=
  if t < 16 then m t
  else sigma1 (schedule m (t - 2)) + schedule m (t - 7) + smallSigma0 (schedule m (t - 15)) + schedule m (t - 16)
termination_by t

variable {sigma1} in
theorem schedule_of_lt {m : Nat → UInt32} {t : Nat} (lt : t < 16) : schedule sigma1 m t = m t := by
  rw [schedule, if_pos lt]

variable {sigma1} in
theorem schedule_of_le {m : Nat → UInt32} {t : Nat} (le : 16 ≤ t) :
    schedule sigma1 m t = sigma1 (schedule sigma1 m (t - 2)) + schedule sigma1 m (t - 7) +
      smallSigma0 (schedule sigma1 m (t - 15)) + schedule sigma1 m (t - 16) := by
  rw [schedule, if_neg (Nat.not_lt.2 le)]

/-- The working variables `a, …, h` after one more round. -/
def round (w : Nat → UInt32) (v : Vector UInt32 8) (t : Fin 64) : Vector UInt32 8 :=
  let t1 := v.get 7 + bigSigma1 (v.get 4) + chooseBits (v.get 4) (v.get 5) (v.get 6) + constantK t + w t.val
  let t2 := bigSigma0 (v.get 0) + majority (v.get 0) (v.get 1) (v.get 2)
  #v[t1 + t2, v.get 0, v.get 1, v.get 2, v.get 3 + t1, v.get 4, v.get 5, v.get 6]

/-- The hash value after one more block. -/
def compress (hash : Vector UInt32 8) (block : List UInt8) : Vector UInt32 8 :=
  let v := (List.finRange 64).foldl (round (schedule sigma1 (word block))) hash
  Vector.zipWith (· + ·) v hash

def sha256With (msg : List UInt8) : List UInt8 :=
  ((blocks msg).foldl (compress sigma1) initialHash).toList.flatMap fun w => bigEndian 4 w.toNat

end Computation

/-- **SHA-256.** -/
def sha256 (msg : List UInt8) : List UInt8 := sha256With smallSigma1 msg

end MiniHardware.Security.Fips180
