import Mathlib.Algebra.GroupWithZero.Nat
import Mathlib.Tactic.Common

/-!
# The 64b/66b code (`mini-network-hardware/src/serdes.c`)

The 66 bits of a symbol go into a word of 64: the data word is shifted up by
two places to make room for the sync header. What is shifted out are the two
highest bits of the scrambled word, so a word comes back if and only if these
are zero, which is where the word agrees with the mask.
-/

namespace MiniHardware.Network

/-- `SYNC_DATA` is `0b01` and `SYNC_CTRL` is `0b10`. -/
inductive SyncHeaderType where
  | data
  | ctrl
deriving DecidableEq

def SyncHeaderType.value : SyncHeaderType → UInt64
  | .data => 0b01
  | .ctrl => 0b10

def scramblerMask : UInt64 := 0xA5A5A5A5A5A5A5A5

def serdes64b66bEncode (dataWord : UInt64) (syncHdr : SyncHeaderType) : UInt64 :=
  let scrambled := dataWord ^^^ scramblerMask
  (scrambled <<< 2) ||| syncHdr.value

/-- `none` is the return of -1. -/
def serdes64b66bDecode (encoded : UInt64) : Option (UInt64 × SyncHeaderType) :=
  let rawHdr := (encoded &&& 0x03).toUInt8
  let header : Option SyncHeaderType := if rawHdr = 0b01 then some .data else if rawHdr = 0b10 then some .ctrl else none
  header.map fun syncHdr =>
    let scrambled := encoded >>> 2
    (scrambled ^^^ scramblerMask, syncHdr)

variable {x : UInt64} {hdr : SyncHeaderType}

theorem SyncHeaderType.value_lt (hdr : SyncHeaderType) : hdr.value.toNat < 4 := by
  cases hdr <;> decide

/-- The symbol of a scrambled word, as a number. -/
theorem toNat_symbol (x : UInt64) (hdr : SyncHeaderType) :
    ((x <<< 2) ||| hdr.value).toNat = x.toNat % 2 ^ 62 * 4 + hdr.value.toNat := by
  have shifted : (x <<< 2).toNat = (x.toNat % 2 ^ 62) <<< 2 := by
    have two : (2 : UInt64).toNat % 64 = 2 := rfl
    rw [UInt64.toNat_shiftLeft, two, Nat.shiftLeft_eq, Nat.shiftLeft_eq]
    omega
  rw [UInt64.toNat_or, shifted, ← Nat.shiftLeft_add_eq_or_of_lt hdr.value_lt, Nat.shiftLeft_eq]

theorem header_symbol (x : UInt64) (hdr : SyncHeaderType) :
    ((x <<< 2) ||| hdr.value) &&& 0x03 = hdr.value := by
  have lt := hdr.value_lt
  apply UInt64.toNat_inj.1
  have mask : (0x03 : UInt64).toNat = 2 ^ 2 - 1 := rfl
  rw [UInt64.toNat_and, toNat_symbol, mask, Nat.and_two_pow_sub_one_eq_mod]
  omega

theorem payload_symbol (x : UInt64) (hdr : SyncHeaderType) :
    (((x <<< 2) ||| hdr.value) >>> 2).toNat = x.toNat % 2 ^ 62 := by
  have lt := hdr.value_lt
  have two : (2 : UInt64).toNat % 64 = 2 := rfl
  rw [UInt64.toNat_shiftRight, toNat_symbol, two, Nat.shiftRight_eq_div_pow]
  omega

/-- The header always comes back, and the word without its two highest scrambled bits. -/
theorem serdes_64b66b_decode_encode (dataWord : UInt64) (syncHdr : SyncHeaderType) :
    serdes64b66bDecode (serdes64b66bEncode dataWord syncHdr) =
      some ((serdes64b66bEncode dataWord syncHdr >>> 2) ^^^ scramblerMask, syncHdr) := by
  have header := header_symbol (dataWord ^^^ scramblerMask) syncHdr
  unfold serdes64b66bDecode
  change serdes64b66bEncode dataWord syncHdr &&& 0x03 = _ at header
  dsimp only
  rw [header]
  cases syncHdr <;> rfl

theorem lt_iff_top_bits (d : UInt64) : (d ^^^ scramblerMask).toNat < 2 ^ 62 ↔ d >>> 62 = 2 := by
  have split : (d ^^^ scramblerMask) >>> 62 = d >>> 62 ^^^ 2 := by
    have top : scramblerMask >>> 62 = 2 := by decide
    rw [← top, UInt64.shiftRight_xor]
  have high : (d ^^^ scramblerMask).toNat < 2 ^ 62 ↔ (d ^^^ scramblerMask) >>> 62 = 0 := by
    have places : (62 : UInt64).toNat % 64 = 62 := rfl
    rw [← UInt64.toNat_inj, UInt64.toNat_shiftRight, places, Nat.shiftRight_eq_div_pow]
    exact (Nat.div_eq_zero_iff_lt (by decide)).symm
  rw [high, split, UInt64.xor_eq_zero_iff]

/-- **A 64b/66b symbol is decoded to what was encoded if and only if the two highest bits of the word
are those of the mask.** -/
theorem serdes_64b66b_round_trip_iff (dataWord : UInt64) (syncHdr : SyncHeaderType) :
    serdes64b66bDecode (serdes64b66bEncode dataWord syncHdr) = some (dataWord, syncHdr) ↔ dataWord >>> 62 = 2 := by
  rw [serdes_64b66b_decode_encode, ← lt_iff_top_bits, Option.some_inj, Prod.mk.injEq, and_iff_left rfl]
  have payload := payload_symbol (dataWord ^^^ scramblerMask) syncHdr
  change (serdes64b66bEncode dataWord syncHdr >>> 2).toNat = _ at payload
  generalize serdes64b66bEncode dataWord syncHdr >>> 2 = scrambled at payload
  have cancel : scrambled ^^^ scramblerMask = dataWord ↔ scrambled = dataWord ^^^ scramblerMask := by
    constructor
    · rintro rfl
      rw [UInt64.xor_assoc, UInt64.xor_self, UInt64.xor_zero]
    · rintro rfl
      rw [UInt64.xor_assoc, UInt64.xor_self, UInt64.xor_zero]
  rw [cancel, ← UInt64.toNat_inj, payload]
  exact Nat.mod_eq_iff_lt (by decide)

/-- A zero word comes back with its highest bit set. -/
theorem serdes_64b66b_loses_bits :
    serdes64b66bDecode (serdes64b66bEncode 0 .data) = some (0x8000000000000000, .data) ∧
      serdes64b66bDecode (serdes64b66bEncode 0 .data) ≠ some (0, .data) := by
  decide

end MiniHardware.Network
