import Mathlib.Data.Set.Insert
import MiniHardware.Lib.Bytes
import MiniHardware.Lib.Crc

/-!
# Ethernet frames (`mini-network-hardware/src/mac.c`)

`macFrameBuild` and `macFrameCheck` put the same bytes into `crc_buf`; both
allocate it, and the allocation is taken to succeed. The check sequence is the
table-driven CRC-32, which is the bit-serial one of `Lib.Crc`.
-/

namespace MiniHardware.Network
open Lib

abbrev ethernetMtu : Nat := 1500

abbrev macAddrLen : Nat := 6

abbrev macCrc32Poly : UInt32 := 0xEDB88320

structure MACFrame where
  dstMac : Vector UInt8 macAddrLen
  srcMac : Vector UInt8 macAddrLen
  ethertype : UInt16
  payload : Vector UInt8 ethernetMtu
  payloadLen : UInt16
  fcs : UInt32

/-! ## The check sequence -/

/-- A round of the loop that fills the table. -/
def crcRound (c : UInt32) : UInt32 :=
  if c &&& 1 ≠ 0 then macCrc32Poly ^^^ (c >>> 1) else c >>> 1

/-- `table`, which the first call fills. -/
def crcTable : Vector UInt32 256 := Vector.ofFn fun i => crcRound^[8] (UInt32.ofNat i.val)

theorem get_crcTable (i : Fin 256) : crcTable.get i = crcRound^[8] (UInt32.ofNat i.val) :=
  Vector.getElem_ofFn i.isLt

theorem and_byte_lt (x : UInt32) : (x &&& 0xFF).toNat < 256 := by
  rw [UInt32.toNat_and]
  exact Nat.lt_of_le_of_lt Nat.and_le_right (by decide)

/-- A round of the loop over the data. -/
def crcByte (crc : UInt32) (b : UInt8) : UInt32 :=
  crcTable.get ⟨((crc ^^^ b.toUInt32) &&& 0xFF).toNat, and_byte_lt _⟩ ^^^ (crc >>> 8)

def macCrc32 (data : List UInt8) : UInt32 := data.foldl crcByte 0xFFFFFFFF ^^^ 0xFFFFFFFF

/-! ## Frames -/

/-- `crc_buf`: the addresses, the EtherType with the high byte first, the payload. -/
def crcBuf (f : MACFrame) : List UInt8 :=
  f.dstMac.toList ++ f.srcMac.toList ++
    [(f.ethertype >>> 8).toUInt8, (f.ethertype &&& 0xFF).toUInt8] ++
    f.payload.toList.take f.payloadLen.toNat

/-- The first `n` bytes from a pointer, in a zeroed payload. -/
def copyPayload (bytes : Nat → UInt8) (n : Nat) : Vector UInt8 ethernetMtu :=
  Vector.ofFn fun i => if i.val < n then bytes i.val else 0

/-- The payload and its length; a null pointer with a length above the MTU is read all the same. -/
def framePayload (payload : Option (Nat → UInt8)) (len : Int) :
    Option (Vector UInt8 ethernetMtu × UInt16) :=
  match payload with
  | some bytes =>
    if 0 < len ∧ len ≤ ethernetMtu then some (copyPayload bytes len.toNat, UInt16.ofNat len.toNat)
    else if ethernetMtu < len then
      some (copyPayload bytes ethernetMtu, UInt16.ofNat ethernetMtu)
    else some (copyPayload bytes 0, 0)
  | none => if ethernetMtu < len then none else some (Vector.replicate ethernetMtu 0, 0)

def macFrameBuild (dst src : Vector UInt8 macAddrLen) (ethertype : UInt16)
    (payload : Option (Nat → UInt8)) (len : Int) : Option MACFrame :=
  (framePayload payload len).map fun p =>
    let f : MACFrame := ⟨dst, src, ethertype, p.1, p.2, 0⟩
    { f with fcs := macCrc32 (crcBuf f) }

def macFrameCheck (f : MACFrame) : Bool := macCrc32 (crcBuf f) == f.fcs

/-! ## Bytes through the register -/

/-- The polynomial as the register of `Lib.Crc` takes it. -/
abbrev poly : BitVec 32 := macCrc32Poly.toBitVec

theorem crcRound_toBitVec (c : UInt32) : (crcRound c).toBitVec = crcShift poly c.toBitVec := by
  have bit : (c &&& 1).toBitVec = BitVec.setWidth 32 (BitVec.ofBool (c.toBitVec.getLsbD 0)) := by
    rw [UInt32.toBitVec_and]
    exact BitVec.and_one_eq_setWidth_ofBool_getLsbD
  cases low : c.toBitVec.getLsbD 0 with
  | false =>
    rw [low] at bit
    have zero : c &&& 1 = 0 := UInt32.toBitVec_inj.1 bit
    rw [crcRound, if_neg (by simp [zero]), crcShift_of_low low]
    rfl
  | true =>
    rw [low] at bit
    have one : c &&& 1 = 1 := UInt32.toBitVec_inj.1 bit
    rw [crcRound, if_pos (by simp [one]), crcShift, if_pos low, BitVec.xor_comm]
    rfl

theorem iterate_crcRound_toBitVec (n : Nat) (c : UInt32) :
    (crcRound^[n] c).toBitVec = (crcShift poly)^[n] c.toBitVec :=
  Function.Semiconj.iterate_right crcRound_toBitVec n c

/-- Eight shifts are the table's word for the low byte, and the rest moved down. -/
theorem iterate_crcShift_eight (x : BitVec 32) :
    (crcShift poly)^[8] x = (crcShift poly)^[8] (x &&& 0xFF#32) ^^^ (x >>> 8) := by
  have mask : ∀ i, (0xFF#32).getLsbD i = decide (i < 8) := by
    intro i
    rw [BitVec.getLsbD_ofNat, show 0xFF = 2 ^ 8 - 1 from rfl, Nat.testBit_two_pow_sub_one]
    rcases Nat.lt_or_ge i 8 with lt | ge
    · simp [lt, Nat.lt_trans lt (by decide : 8 < 32)]
    · simp [Nat.not_lt.2 ge]
  have split : x = (x &&& 0xFF#32) ^^^ (x &&& ~~~0xFF#32) := by
    apply BitVec.eq_of_getLsbD_eq
    intro i lt
    simp only [BitVec.getLsbD_xor, BitVec.getLsbD_and, BitVec.getLsbD_not, mask, lt]
    cases x.getLsbD i <;> simp
  have high : (x &&& ~~~0xFF#32) >>> 8 = x >>> 8 := by
    apply BitVec.eq_of_getLsbD_eq
    intro i _
    simp only [BitVec.getLsbD_ushiftRight, BitVec.getLsbD_and, BitVec.getLsbD_not, mask]
    rcases Nat.lt_or_ge (8 + i) 32 with lt | ge
    · simp [lt]
    · simp [BitVec.getLsbD_of_ge x (8 + i) ge]
  have clear : ∀ i < 8, (x &&& ~~~0xFF#32).getLsbD i = false := by
    intro i lt
    simp only [BitVec.getLsbD_and, BitVec.getLsbD_not, mask]
    simp [lt]
  conv_lhs => rw [split]
  rw [iterate_crcShift_xor, iterate_crcShift_of_low clear, high]

/-- The bits of a byte on the wire, the least significant one first. -/
def byteBits (b : UInt8) : List Bool := (List.range 8).map (byteBit b)

@[simp] theorem length_byteBits (b : UInt8) : (byteBits b).length = 8 := by simp [byteBits]

theorem wordOf_byteBits (b : UInt8) : (wordOf (byteBits b) : BitVec 32) = b.toUInt32.toBitVec := by
  apply BitVec.eq_of_getLsbD_eq
  intro i lt
  rw [getLsbD_wordOf _ lt, UInt8.toBitVec_toUInt32, BitVec.getLsbD_setWidth,
    List.getD_eq_getElem?_getD]
  rcases Nat.lt_or_ge i 8 with small | ge
  · rw [List.getElem?_eq_getElem (by simpa using small)]
    simp [byteBits, byteBit, lt, ← UInt8.toNat_toBitVec, BitVec.testBit_toNat]
  · rw [List.getElem?_eq_none (by simpa using ge), BitVec.getLsbD_of_ge _ _ ge]
    simp

theorem crcByte_toBitVec (crc : UInt32) (b : UInt8) :
    (crcByte crc b).toBitVec = crcRun poly crc.toBitVec (byteBits b) := by
  have high : (crc.toBitVec ^^^ b.toUInt32.toBitVec) >>> 8 = (crc >>> 8).toBitVec := by
    rw [BitVec.ushiftRight_xor_distrib, UInt8.toBitVec_toUInt32, UInt32.toBitVec_shiftRight]
    have low : (b.toBitVec.setWidth 32) >>> 8 = 0 := by
      apply BitVec.eq_of_toNat_eq
      have lt := b.toNat_lt
      simp [BitVec.toNat_ushiftRight, Nat.shiftRight_eq_div_pow]
      omega
    rw [low]
    exact BitVec.xor_zero
  rw [crcRun_word _ (by simp), length_byteBits, wordOf_byteBits, iterate_crcShift_eight, high, crcByte,
    UInt32.toBitVec_xor]
  rw [get_crcTable, iterate_crcRound_toBitVec, UInt32.ofNat_toNat, UInt32.toBitVec_and,
    UInt32.toBitVec_xor]
  rfl

theorem foldl_crcByte_toBitVec (data : List UInt8) (crc : UInt32) :
    (data.foldl crcByte crc).toBitVec = crcRun poly crc.toBitVec (data.flatMap byteBits) := by
  induction data generalizing crc with
  | nil => rfl
  | cons b data ih =>
    rw [List.foldl_cons, ih, crcByte_toBitVec, List.flatMap_cons, crcRun_append]

/-! ## The wire -/

/-- The bits of the check sequence on the wire, the least significant one first. -/
def fcsBits (fcs : UInt32) : List Bool := (List.range 32).map fcs.toNat.testBit

/-- The covered bits in the order of transmission, the check sequence last. -/
def wire (f : MACFrame) : List Bool := (crcBuf f).flatMap byteBits ++ fcsBits f.fcs

/-- The positions on the wire in which two frames differ. -/
def flipped (f g : MACFrame) : Set Nat := {k | (wire f)[k]? ≠ (wire g)[k]?}

theorem wordOf_fcsBits (fcs : UInt32) : (wordOf (fcsBits fcs) : BitVec 32) = fcs.toBitVec := by
  apply BitVec.eq_of_getLsbD_eq
  intro i lt
  rw [getLsbD_wordOf _ lt, List.getD_eq_getElem?_getD, List.getElem?_eq_getElem (by simpa [fcsBits])]
  simp [fcsBits, ← UInt32.toNat_toBitVec, BitVec.testBit_toNat]

/-- An accepted frame leaves the same register, whatever it holds. -/
theorem crcRun_wire {f : MACFrame} (accepted : macFrameCheck f = true) :
    crcRun poly (-1) (wire f) = (crcShift poly)^[32] (-1) := by
  have crc : macCrc32 (crcBuf f) = f.fcs := by simpa [macFrameCheck] using accepted
  have register := foldl_crcByte_toBitVec (crcBuf f) 0xFFFFFFFF
  have ones : (0xFFFFFFFF : UInt32).toBitVec = -1 := rfl
  rw [ones] at register
  rw [wire, crcRun_append, ← register, crcRun_word _ (by simp [fcsBits]), wordOf_fcsBits, ← crc, macCrc32,
    UInt32.toBitVec_xor, ← BitVec.xor_assoc, BitVec.xor_self, ones]
  have len : (fcsBits ((crcBuf f).foldl crcByte 0xFFFFFFFF ^^^ 0xFFFFFFFF)).length = 32 := by
    simp [fcsBits]
  rw [len]
  exact congrArg _ BitVec.zero_xor

theorem length_wire (f : MACFrame) :
    (wire f).length = 8 * (14 + min f.payloadLen.toNat 1500) + 32 := by
  have bits : ∀ l : List UInt8, (l.flatMap byteBits).length = 8 * l.length := by
    intro l
    induction l with
    | nil => rfl
    | cons b l ih =>
      rw [List.flatMap_cons, List.length_append, ih, length_byteBits, List.length_cons]
      omega
  have addr : macAddrLen = 6 := rfl
  have mtu : ethernetMtu = 1500 := rfl
  rw [wire, List.length_append, bits]
  simp [crcBuf, fcsBits]
  omega

/-- A lone bit does not come back within the bits of a frame. -/
theorem crcShift_order {d : Nat} (pos : 0 < d) (le : d ≤ 12143) : (crcShift poly)^[d] 1 ≠ 1 := by
  have check : noReturn poly 12143 1 = true := by decide +kernel
  exact iterate_ne_one_of_noReturn check pos le

/-- **Errors are detected.** A frame that was built is accepted; one of the same length that differs
from it on the wire, but only within 32 consecutive bits, or in one or two bits, is rejected. -/
theorem mac_frame_check_detects (dst src : Vector UInt8 macAddrLen) (ethertype : UInt16)
    (payload : Option (Nat → UInt8)) (len : Int) (f : MACFrame)
    (built : macFrameBuild dst src ethertype payload len = some f) :
    macFrameCheck f = true ∧
      ∀ g : MACFrame, g.payloadLen = f.payloadLen →
        (((flipped f g).Nonempty ∧ ∃ p, flipped f g ⊆ Set.Ico p (p + 32)) ∨
          ∃ i j, flipped f g = {i, j}) →
        macFrameCheck g = false := by
  have accepted : macFrameCheck f = true := by
    rw [macFrameBuild, Option.map_eq_some_iff] at built
    obtain ⟨p, -, rfl⟩ := built
    exact beq_self_eq_true _
  refine ⟨accepted, fun g same flips => ?_⟩
  rw [← Bool.not_eq_true]
  intro accepted'
  have run : crcRun poly (-1) (wire f) = crcRun poly (-1) (wire g) :=
    (crcRun_wire accepted).trans (crcRun_wire accepted').symm
  have len : (wire f).length = (wire g).length := by rw [length_wire, length_wire, same]
  have top : BitVec.msb poly = true := by decide
  rcases flips with ⟨⟨k, hit⟩, p, window⟩ | ⟨i, j, pair⟩
  · exact crcRun_ne_of_window top len (p := p) (fun k differ => window differ) ⟨k, hit⟩ _ run
  · refine crcRun_ne_of_pair top len (i := i) (j := j) (fun d pos lt => ?_) (fun k => ?_) _ run
    · rw [length_wire] at lt
      exact crcShift_order pos (by omega)
    · exact iff_of_eq (congrArg (k ∈ ·) pair)

/-- An empty broadcast frame. -/
def broadcastFrame : MACFrame :=
  let f : MACFrame := ⟨Vector.replicate _ 0xFF, Vector.replicate _ 0x02, 0x0800,
    Vector.replicate _ 0, 0, 0⟩
  { f with fcs := macCrc32 (crcBuf f) }

theorem mac_frame_check_detects_broadcast :
    macFrameCheck broadcastFrame = true ∧
      macFrameCheck { broadcastFrame with fcs := broadcastFrame.fcs ^^^ 1 } = false := by
  have detects := mac_frame_check_detects (Vector.replicate _ 0xFF) (Vector.replicate _ 0x02) 0x0800
    none 0 broadcastFrame rfl
  refine ⟨detects.1, detects.2 _ rfl (Or.inl ⟨⟨112, ?_⟩, 112, ?_⟩)⟩
  · show (wire _)[112]? ≠ (wire _)[112]?
    decide +kernel
  · intro k differ
    have head : ∀ k < 112, (wire broadcastFrame)[k]? =
        (wire { broadcastFrame with fcs := broadcastFrame.fcs ^^^ 1 })[k]? := by decide
    constructor
    · by_contra lt
      exact differ (head k (Nat.not_le.1 lt))
    · by_contra ge
      refine differ ?_
      rw [List.getElem?_eq_none, List.getElem?_eq_none]
      · rw [length_wire]
        exact Nat.not_lt.1 ge
      · rw [length_wire]
        exact Nat.not_lt.1 ge

end MiniHardware.Network
