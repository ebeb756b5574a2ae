import MiniHardware.Security.Gcm
import MiniHardware.Security.Sha256Stream

/-!
# HMAC, HKDF and comparison (`mini-hardware-security/src/hw_crypto.c`)

A hash is computed in a context on the stack, which holds anything before
`sha256_init`. The source's HKDF also computes an HMAC that it does not use.
-/

namespace MiniHardware.Security
open Lib

/-- 32 bytes, the size of a SHA-256 digest. -/
abbrev Digest := Vector UInt8 32

/-- The 32 bytes at a pointer. -/
def digestAt (bytes : List UInt8) : Digest := Vector.ofFn fun i => bytes.getD i.val 0

/-- The characters of a label, a byte each. -/
def labelBytes (label : String) : List UInt8 := label.toList.map fun c => UInt8.ofNat c.toNat

/-- A context on the stack. -/
def stackCtx : MiniHwSecSha256Ctx := ⟨Vector.replicate 8 0, Vector.replicate 64 0, 0, 0⟩

/-- `init`, an `update` for each piece, and `final`. -/
@[irreducible] def hashPieces (pieces : List (List UInt8)) : List UInt8 :=
  (sha256Final (pieces.foldl sha256Update (sha256Init stackCtx))).2

def keyBlock (key : List UInt8) : List UInt8 :=
  if key.length > 64 then hashPieces [key] ++ List.replicate 32 0
  else key ++ List.replicate (64 - key.length) 0

def hmacSha256 (key data : List UInt8) : List UInt8 :=
  let innerKey := (keyBlock key).map (· ^^^ 0x36)
  let outerKey := (keyBlock key).map (· ^^^ 0x5C)
  hashPieces [outerKey, hashPieces [innerKey, data]]

/-- The loop of `hkdf_sha256`: `left` bytes are still to be written. -/
def hkdfExpand (prk info tPrev : List UInt8) (counter : UInt8) (left : Nat) : List UInt8 :=
  if left = 0 then []
  else
    let t := hmacSha256 prk (tPrev ++ info ++ [counter])
    t.take (min left 32) ++ hkdfExpand prk info t (counter + 1) (left - min left 32)
termination_by left

def hkdfSha256 (salt ikm info : List UInt8) (okmLen : Nat) : List UInt8 :=
  let prk := if salt.length = 0 then hmacSha256 (List.replicate 32 0) ikm else hmacSha256 salt ikm
  hkdfExpand prk info [] 1 okmLen

/-- `constant_time_eq` of 32 bytes. -/
def constantTimeEq (a b : Digest) : Bool :=
  (List.finRange 32).foldl (fun diff i => diff ||| (a.get i ^^^ b.get i)) 0 = 0

/-! ## Facts -/

theorem constant_time_eq_iff {a b : Digest} : constantTimeEq a b = true ↔ a = b := by
  rw [constantTimeEq, decide_eq_true_iff, foldl_or_eq_zero]
  constructor
  · rintro ⟨-, same⟩
    apply Vector.ext
    intro i h
    exact UInt8.xor_eq_zero_iff.1 (same ⟨i, h⟩ (List.mem_finRange _))
  · rintro rfl
    exact ⟨rfl, fun i _ => UInt8.xor_self⟩

theorem constant_time_eq_self (a : Digest) : constantTimeEq a a = true := constant_time_eq_iff.2 rfl

theorem length_digestOf (h : Vector UInt32 8) : (digestOf h).length = 32 := by
  rw [digestOf, List.length_flatMap]
  simp only [List.length_cons, List.length_nil, List.map_const', Vector.length_toList,
    List.sum_replicate_nat]

@[simp] theorem length_hashPieces (pieces : List (List UInt8)) : (hashPieces pieces).length = 32 := by
  unfold hashPieces
  exact length_digestOf _

@[simp] theorem length_hmacSha256 (key data : List UInt8) : (hmacSha256 key data).length = 32 :=
  length_hashPieces _

/-- The hash of the concatenation, whatever the stack held. -/
theorem hashPieces_eq (pieces : List (List UInt8)) : hashPieces pieces = sha256Spec pieces.flatten := by
  unfold hashPieces
  exact (absorbed_run stackCtx pieces).final

theorem toList_digestAt {bytes : List UInt8} (len : bytes.length = 32) : (digestAt bytes).toList = bytes := by
  apply List.ext_getElem
  · rw [Vector.length_toList, len]
  · intro i h h'
    simp only [digestAt, Vector.getElem_toList, Vector.getElem_ofFn]
    exact List.getD_eq_getElem _ _ h'

/-- A digest at a pointer, whatever follows it. -/
theorem digestAt_append (d : Digest) (rest : List UInt8) : digestAt (d.toList ++ rest) = d := by
  apply Vector.ext
  intro i h
  simp only [digestAt, Vector.getElem_ofFn]
  rw [List.getD_append _ _ _ _ (by rwa [Vector.length_toList]),
    List.getD_eq_getElem _ _ (by rwa [Vector.length_toList])]
  exact Vector.getElem_toList _

theorem digestAt_inj {x y : List UInt8} (lenX : x.length = 32) (lenY : y.length = 32) :
    digestAt x = digestAt y ↔ x = y := by
  constructor
  · intro eq
    rw [← toList_digestAt lenX, eq, toList_digestAt lenY]
  · exact fun eq => congrArg digestAt eq

end MiniHardware.Security
