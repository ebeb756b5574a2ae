import MiniHardware.Arch.Pipeline
import MiniHardware.Lib.Rv32

/-!
# Encoding and decoding (`mini-computer-arch/src/pipeline.c`)

`pipeline_decode` reads the RV32I immediate of every format. `pipeline_encode`
writes it back, but for bit 11 of a branch offset, which it leaves out of the word.
-/

namespace MiniHardware.Arch.Pipeline
open Lib.Rv32

/-- `pipeline_encode`, with the shifts of the C expressions in 32 bits. -/
def pipelineEncode (op : Opcode) (rd rs1 rs2 : UInt8) (imm : Int32) : UInt32 :=
  match op with
  | .add => (0x33 : UInt32) ||| (rd.toUInt32 <<< 7) ||| ((0x0 : UInt32) <<< 12) |||
      (rs1.toUInt32 <<< 15) ||| (rs2.toUInt32 <<< 20) ||| ((0x00 : UInt32) <<< 25)
  | .sub => (0x33 : UInt32) ||| (rd.toUInt32 <<< 7) ||| ((0x0 : UInt32) <<< 12) |||
      (rs1.toUInt32 <<< 15) ||| (rs2.toUInt32 <<< 20) ||| ((0x20 : UInt32) <<< 25)
  | .addi => (0x13 : UInt32) ||| (rd.toUInt32 <<< 7) ||| ((0x0 : UInt32) <<< 12) |||
      (rs1.toUInt32 <<< 15) ||| ((imm &&& 0xFFF).toUInt32 <<< 20)
  | .lw => (0x03 : UInt32) ||| (rd.toUInt32 <<< 7) ||| ((0x2 : UInt32) <<< 12) |||
      (rs1.toUInt32 <<< 15) ||| ((imm &&& 0xFFF).toUInt32 <<< 20)
  | .sw => (0x23 : UInt32) ||| ((imm &&& 0x1F).toUInt32 <<< 7) ||| ((0x2 : UInt32) <<< 12) |||
      (rs1.toUInt32 <<< 15) ||| (rs2.toUInt32 <<< 20) ||| (((imm >>> 5) &&& 0x7F).toUInt32 <<< 25)
  | .beq =>
    let bimm := imm.toUInt32
    (0x63 : UInt32) ||| (((bimm >>> 1) &&& 0xF) <<< 8) ||| ((0x0 : UInt32) <<< 12) |||
      (rs1.toUInt32 <<< 15) ||| (rs2.toUInt32 <<< 20) ||| (((bimm >>> 5) &&& 0x3F) <<< 25) |||
      (((bimm >>> 12) &&& 1) <<< 31)
  | .jal =>
    let ji := (imm &&& 0x1FFFFF).toUInt32
    (0x6F : UInt32) ||| (rd.toUInt32 <<< 7) ||| (((ji >>> 1) &&& 0x3FF) <<< 21) |||
      (((ji >>> 11) &&& 1) <<< 20) ||| (((ji >>> 12) &&& 0xFF) <<< 12) |||
      (((ji >>> 20) &&& 1) <<< 31)
  | .lui => (0x37 : UInt32) ||| (rd.toUInt32 <<< 7) ||| (imm.toUInt32 &&& 0xFFFFF000)
  | .auipc => (0x17 : UInt32) ||| (rd.toUInt32 <<< 7) ||| (imm.toUInt32 &&& 0xFFFFF000)
  | .jalr => (0x67 : UInt32) ||| (rd.toUInt32 <<< 7) ||| ((0x0 : UInt32) <<< 12) |||
      (rs1.toUInt32 <<< 15) ||| ((imm &&& 0xFFF).toUInt32 <<< 20)
  | .nop => 0x13
  | .halt => 0x0000006F
  | _ => 0x13

/-! ## What the decoder reads -/

theorem regField_val (bits : UInt32) : (regField bits).val = bits.toNat % 32 := by
  rw [regField, Fin.val_ofNat, toNat_mask bits (w := 5) (by decide)]
  omega

/-- A register field of the word, by the place of its bits. -/
theorem regField_field (raw : UInt32) {shift : UInt32} (lt : shift.toNat < 32) :
    (regField (raw >>> shift)).val = field raw shift.toNat 5 := by
  rw [regField_val, toNat_shiftRight raw lt]
  rfl

/-- The sign extension of the code is that of the number in so many bits. -/
theorem signExtend_toInt {v bits : UInt32} {w : Nat} (lt : w < 31)
    (fits : v.toNat < 2 ^ (w + 1)) (hs : ((1 : UInt32) <<< (bits - 1)).toNat = 2 ^ w)
    (he : (~~~(0 : UInt32) <<< bits).toNat = (2 ^ (31 - w) - 1) * 2 ^ (w + 1)) :
    (signExtend v bits).toInt = sext (w + 1) v.toNat :=
  toInt_signExtend lt fits hs he

/-- The immediate of an I-type word. -/
theorem immI_toInt (raw : UInt32) :
    (signExtend ((raw >>> 20) &&& (0xFFF : UInt32)) 12).toInt = Format.i.imm raw := by
  have value : ((raw >>> 20) &&& (0xFFF : UInt32)).toNat = field raw 20 12 := by
    exact toNat_field raw (by decide) (by decide)
  have less := field_lt raw 20 12
  rw [signExtend_toInt (w := 11) (by decide) (by omega) (by decide) (by decide), value]
  rfl

/-- The immediate of an S-type word, of two parts. -/
theorem immS_toInt (raw : UInt32) :
    (signExtend (((raw >>> 25) <<< 5) ||| ((raw >>> 7) &&& (0x1F : UInt32))) 12).toInt = Format.s.imm raw := by
  have sum := toNat_storeFields raw
  have highLt := field_lt raw 25 7
  have lowLt := field_lt raw 7 5
  rw [signExtend_toInt (w := 11) (by decide) (by omega) (by decide) (by decide), sum]
  rfl

/-- The immediate of a B-type word, of four parts. -/
theorem immB_toInt (raw : UInt32) :
    (signExtend (((raw >>> 31) <<< 12) ||| (((raw >>> 7) &&& (1 : UInt32)) <<< 11) |||
      (((raw >>> 25) &&& (0x3F : UInt32)) <<< 5) ||| (((raw >>> 8) &&& (0xF : UInt32)) <<< 1)) 13).toInt =
      Format.b.imm raw := by
  have top : (raw >>> 31).toNat = field raw 31 1 := toNat_topField raw (by decide) (by decide)
  have bit : ((raw >>> 7) &&& (1 : UInt32)).toNat = field raw 7 1 := by
    exact toNat_field raw (by decide) (by decide)
  have mid : ((raw >>> 25) &&& (0x3F : UInt32)).toNat = field raw 25 6 := by
    exact toNat_field raw (by decide) (by decide)
  have low : ((raw >>> 8) &&& (0xF : UInt32)).toNat = field raw 8 4 := by
    exact toNat_field raw (by decide) (by decide)
  have word := toNat_four_placed (i := 12) (j := 11) (k := 5) (l := 1) (top.trans_lt (field_lt raw 31 1))
    (bit.trans_lt (field_lt raw 7 1)) (mid.trans_lt (field_lt raw 25 6)) (low.trans_lt (field_lt raw 8 4))
    (by decide) (by decide) (by decide) (by decide) (by decide)
  have topLt := field_lt raw 31 1
  have bitLt := field_lt raw 7 1
  have midLt := field_lt raw 25 6
  have lowLt := field_lt raw 8 4
  have places : (12 : UInt32).toNat = 12 ∧ (11 : UInt32).toNat = 11 ∧ (5 : UInt32).toNat = 5 ∧
      (1 : UInt32).toNat = 1 := by decide
  rw [top, bit, mid, low, places.1, places.2.1, places.2.2.1, places.2.2.2] at word
  rw [signExtend_toInt (w := 12) (by decide) (by omega) (by decide) (by decide), word]
  rfl

/-- The immediate of a J-type word, of four parts. -/
theorem immJ_toInt (raw : UInt32) :
    (signExtend (((raw >>> 31) <<< 20) ||| (((raw >>> 12) &&& (0xFF : UInt32)) <<< 12) |||
      (((raw >>> 20) &&& (1 : UInt32)) <<< 11) ||| (((raw >>> 21) &&& (0x3FF : UInt32)) <<< 1)) 21).toInt =
      Format.j.imm raw := by
  have top : (raw >>> 31).toNat = field raw 31 1 := toNat_topField raw (by decide) (by decide)
  have mid : ((raw >>> 12) &&& (0xFF : UInt32)).toNat = field raw 12 8 := by
    exact toNat_field raw (by decide) (by decide)
  have bit : ((raw >>> 20) &&& (1 : UInt32)).toNat = field raw 20 1 := by
    exact toNat_field raw (by decide) (by decide)
  have low : ((raw >>> 21) &&& (0x3FF : UInt32)).toNat = field raw 21 10 := by
    exact toNat_field raw (by decide) (by decide)
  have word := toNat_four_placed (i := 20) (j := 12) (k := 11) (l := 1) (top.trans_lt (field_lt raw 31 1))
    (mid.trans_lt (field_lt raw 12 8)) (bit.trans_lt (field_lt raw 20 1)) (low.trans_lt (field_lt raw 21 10))
    (by decide) (by decide) (by decide) (by decide) (by decide)
  have topLt := field_lt raw 31 1
  have midLt := field_lt raw 12 8
  have bitLt := field_lt raw 20 1
  have lowLt := field_lt raw 21 10
  have places : (20 : UInt32).toNat = 20 ∧ (12 : UInt32).toNat = 12 ∧ (11 : UInt32).toNat = 11 ∧
      (1 : UInt32).toNat = 1 := by decide
  rw [top, mid, bit, low, places.1, places.2.1, places.2.2.1, places.2.2.2] at word
  rw [signExtend_toInt (w := 20) (by decide) (by omega) (by decide) (by decide), word]
  rfl

/-- The immediate of a U-type word. -/
theorem immU_toInt (raw : UInt32) : (raw &&& (0xFFFFF000 : UInt32)).toInt32.toInt = Format.u.imm raw := by
  rw [toInt_toInt32, toNat_mask_shifted raw 12 20 (by decide)]
  rfl

/-- The decoder reads the RV32I immediate of the word's format. -/
theorem pipelineDecode_imm {raw : UInt32} {f : Format} (hf : opcodeFormat (field raw 0 7) = some f)
    (pc : UInt32) : (pipelineDecode raw pc).imm.toInt = f.imm raw := by
  have low : (raw &&& (0x7F : UInt32)).toNat = field raw 0 7 := by
    rw [toNat_mask raw (w := 7) (by decide), field, Nat.pow_zero, Nat.div_one]
  unfold opcodeFormat at hf
  split at hf <;> cases hf
  case h_1 h => simp only [pipelineDecode, low, h, Format.imm, Int32.toInt_zero]
  case h_2 h => simpa only [pipelineDecode, low, h] using immI_toInt raw
  case h_3 h => simpa only [pipelineDecode, low, h] using immI_toInt raw
  case h_4 h => simpa only [pipelineDecode, low, h] using immI_toInt raw
  case h_5 h => simpa only [pipelineDecode, low, h] using immS_toInt raw
  case h_6 h => simpa only [pipelineDecode, low, h] using immB_toInt raw
  case h_7 h => simpa only [pipelineDecode, low, h] using immU_toInt raw
  case h_8 h => simpa only [pipelineDecode, low, h] using immU_toInt raw
  case h_9 h => simpa only [pipelineDecode, low, h] using immJ_toInt raw

/-- The opcode of the words with the given `opcode`, `funct3` and `funct7` fields. -/
def opcodeAt (op : Nat) (funct3 funct7 : UInt32) : Opcode :=
  match op with
  | 0x33 => decodeRegister funct3 funct7
  | 0x13 => decodeImmediate funct3
  | 0x03 => .lw
  | 0x23 => .sw
  | 0x63 => decodeBranch funct3
  | 0x37 => .lui
  | 0x17 => .auipc
  | 0x6F => .jal
  | 0x67 => .jalr
  | _ => .nop

section
variable (raw pc : UInt32)

/-- The decoder takes the registers from their fields, whatever the opcode. -/
theorem pipelineDecode_rd : (pipelineDecode raw pc).rd.val = field raw 7 5 := by
  have value : (regField (raw >>> 7)).val = field raw 7 5 := regField_field raw (by decide)
  rw [← value, pipelineDecode]
  split <;> rfl

theorem pipelineDecode_rs1 : (pipelineDecode raw pc).rs1.val = field raw 15 5 := by
  have value : (regField (raw >>> 15)).val = field raw 15 5 := regField_field raw (by decide)
  rw [← value, pipelineDecode]
  split <;> rfl

theorem pipelineDecode_rs2 : (pipelineDecode raw pc).rs2.val = field raw 20 5 := by
  have value : (regField (raw >>> 20)).val = field raw 20 5 := regField_field raw (by decide)
  rw [← value, pipelineDecode]
  split <;> rfl

/-- The decoded opcode depends on three fields only. -/
theorem pipelineDecode_opcodeAt : (pipelineDecode raw pc).opcode =
    opcodeAt (field raw 0 7) (UInt32.ofNat (field raw 12 3)) (UInt32.ofNat (field raw 25 7)) := by
  have low : (raw &&& (0x7F : UInt32)).toNat = field raw 0 7 := by
    rw [toNat_mask raw (w := 7) (by decide), field, Nat.pow_zero, Nat.div_one]
  have funct3 : (raw >>> 12) &&& (0x7 : UInt32) = UInt32.ofNat (field raw 12 3) := by
    have value : ((raw >>> 12) &&& (0x7 : UInt32)).toNat = field raw 12 3 := by
      exact toNat_field raw (by decide) (by decide)
    rw [← value, UInt32.ofNat_toNat]
  have funct7 : (raw >>> 25) &&& (0x7F : UInt32) = UInt32.ofNat (field raw 25 7) := by
    have value : ((raw >>> 25) &&& (0x7F : UInt32)).toNat = field raw 25 7 := by
      exact toNat_field raw (by decide) (by decide)
    rw [← value, UInt32.ofNat_toNat]
  unfold opcodeAt
  split
  case h_10 =>
    rw [pipelineDecode, low]
    split
    case h_10 => rfl
    all_goals contradiction
  all_goals
    rename_i h
    simp only [pipelineDecode, low, h, funct3, funct7]

end

/-! ## The round trip -/

/-- The formats of the instructions `pipeline_encode` supports. -/
def format : Opcode → Option Format
  | .add | .sub => some .r
  | .addi | .lw | .jalr => some .i
  | .sw => some .s
  | .beq => some .b
  | .jal => some .j
  | .lui | .auipc => some .u
  | _ => none

/-- `inst` has the opcode and, where the format carries them, the registers and the immediate. -/
structure RoundTrip (f : Format) (op : Opcode) (rd rs1 rs2 : UInt8) (imm : Int32)
    (inst : DecodedInstruction) : Prop where
  opcode : inst.opcode = op
  rd : f.hasRd → inst.rd.val = rd.toNat
  rs1 : f.hasRs1 → inst.rs1.val = rs1.toNat
  rs2 : f.hasRs2 → inst.rs2.val = rs2.toNat
  imm : f.hasImm → inst.imm = imm

/-- The low bits of an immediate. -/
theorem toNat_maskImm (imm mask : Int32) {w : Nat} (hm : mask.toUInt32.toNat = 2 ^ w - 1) :
    (imm &&& mask).toUInt32.toNat = imm.toUInt32.toNat % 2 ^ w := by
  rw [Int32.toUInt32_and, toNat_mask _ hm]

/-- The upper part of a store's offset. -/
theorem toInt_shiftRight_five (imm : Int32) : (imm >>> 5).toInt = imm.toInt / 32 := by
  have shift : ((5 : Int32).toBitVec.smod 32).toNat = 5 := by decide
  show (BitVec.sshiftRight' imm.toBitVec ((5 : Int32).toBitVec.smod 32)).toInt = _
  rw [BitVec.toInt_sshiftRight', shift, Int.shiftRight_eq_div_pow]
  rfl

/-- Immediates are compared as numbers. -/
theorem imm_eq {x y : Int32} (h : x.toInt = y.toInt) : x = y := Int32.toInt_inj.1 h

section
variable {op : Opcode} {rd rs1 rs2 : UInt8} (hrd : rd.toNat < 32) (h1 : rs1.toNat < 32)
  (h2 : rs2.toNat < 32) {imm : Int32} {raw : UInt32} {code : Nat}

/-! ### One word of each format -/

include hrd h1 h2 in
/-- A word of R-type that is put together from its fields is decoded to them. -/
theorem roundTrip_r (funct7 : Nat) (pc : UInt32) (h7 : funct7 < 128) (hop : opcodeAt 0x33 0 (UInt32.ofNat funct7) = op)
    (word : raw.toNat = 0x33 + rd.toNat * 2 ^ 7 + rs1.toNat * 2 ^ 15 + rs2.toNat * 2 ^ 20 + funct7 * 2 ^ 25) :
    RoundTrip .r op rd rs1 rs2 imm (pipelineDecode raw pc) := by
  have low : field raw 0 7 = 0x33 := by unfold field; omega
  have mid : field raw 12 3 = 0 := by unfold field; omega
  have high : field raw 25 7 = funct7 := by unfold field; omega
  constructor
  case opcode =>
    rw [pipelineDecode_opcodeAt, low, mid, high]
    exact hop
  case rd =>
    intro _
    rw [pipelineDecode_rd, field]
    omega
  case rs1 =>
    intro _
    rw [pipelineDecode_rs1, field]
    omega
  case rs2 =>
    intro _
    rw [pipelineDecode_rs2, field]
    omega
  case imm =>
    intro carried
    contradiction

include hrd h1 in
/-- A word of I-type, likewise. -/
theorem roundTrip_i (funct3 : Nat) (pc : UInt32) (hcode : code < 128) (hfmt : opcodeFormat code = some .i) (h3 : funct3 < 8)
    (hop : ∀ funct7, opcodeAt code (UInt32.ofNat funct3) funct7 = op)
    (fits : Format.i.Representable imm.toInt)
    (word : raw.toNat = code + rd.toNat * 2 ^ 7 + funct3 * 2 ^ 12 + rs1.toNat * 2 ^ 15 +
      imm.toUInt32.toNat % 2 ^ 12 * 2 ^ 20) :
    RoundTrip .i op rd rs1 rs2 imm (pipelineDecode raw pc) := by
  have low : field raw 0 7 = code := by unfold field; omega
  have mid : field raw 12 3 = funct3 := by unfold field; omega
  have bits := toNat_toUInt32 imm
  obtain ⟨lower, upper⟩ := fits
  constructor
  case opcode =>
    rw [pipelineDecode_opcodeAt, low, mid]
    exact hop _
  case rd =>
    intro _
    rw [pipelineDecode_rd, field]
    omega
  case rs1 =>
    intro _
    rw [pipelineDecode_rs1, field]
    omega
  case rs2 =>
    intro carried
    contradiction
  case imm =>
    intro _
    apply imm_eq
    rw [pipelineDecode_imm (by rw [low]; exact hfmt), Format.imm, field, sext]
    split <;> omega

include h1 h2 in
/-- A word of S-type, with the offset in two parts. -/
theorem roundTrip_s (pc : UInt32) {lo hi : Nat} (hlo : lo < 2 ^ 5) (hhi : hi < 2 ^ 7)
    (value : sext 12 (hi * 2 ^ 5 + lo) = imm.toInt)
    (word : raw.toNat = 0x23 + lo * 2 ^ 7 + 2 * 2 ^ 12 + rs1.toNat * 2 ^ 15 + rs2.toNat * 2 ^ 20 + hi * 2 ^ 25) :
    RoundTrip .s .sw rd rs1 rs2 imm (pipelineDecode raw pc) := by
  have low : field raw 0 7 = 0x23 := by unfold field; omega
  constructor
  case opcode =>
    rw [pipelineDecode_opcodeAt, low]
    rfl
  case rd =>
    intro carried
    contradiction
  case rs1 =>
    intro _
    rw [pipelineDecode_rs1, field]
    omega
  case rs2 =>
    intro _
    rw [pipelineDecode_rs2, field]
    omega
  case imm =>
    intro _
    apply imm_eq
    have immHigh : field raw 25 7 = hi := by unfold field; omega
    have immLow : field raw 7 5 = lo := by unfold field; omega
    rw [pipelineDecode_imm (f := .s) (by rw [low]; rfl), Format.imm]
    rw [immHigh, immLow, value]

include h1 h2 in
/-- Whatever the branch offset, the word has a zero for its bit 11. -/
theorem roundTrip_b (pc : UInt32) {lo hi top : Nat} (hlo : lo < 2 ^ 4) (hhi : hi < 2 ^ 6) (htop : top < 2)
    (word : raw.toNat =
      0x63 + lo * 2 ^ 8 + rs1.toNat * 2 ^ 15 + rs2.toNat * 2 ^ 20 + hi * 2 ^ 25 + top * 2 ^ 31) :
    RoundTrip .b .beq rd rs1 rs2 imm (pipelineDecode raw pc) ↔
      sext 13 (top * 2 ^ 12 + hi * 2 ^ 5 + lo * 2) = imm.toInt := by
  have low : field raw 0 7 = 0x63 := by unfold field; omega
  have mid : field raw 12 3 = 0 := by unfold field; omega
  have immTop : field raw 31 1 = top := by unfold field; omega
  have missing : field raw 7 1 = 0 := by unfold field; omega
  have immHigh : field raw 25 6 = hi := by unfold field; omega
  have immLow : field raw 8 4 = lo := by unfold field; omega
  have value : (pipelineDecode raw pc).imm.toInt = sext 13 (top * 2 ^ 12 + hi * 2 ^ 5 + lo * 2) := by
    rw [pipelineDecode_imm (f := .b) (by rw [low]; rfl), Format.imm]
    rw [immTop, missing, immHigh, immLow, Nat.zero_mul, Nat.add_zero]
  constructor
  · intro trip
    rw [← value, trip.imm rfl]
  · intro same
    constructor
    case opcode =>
      rw [pipelineDecode_opcodeAt, low, mid]
      rfl
    case rd =>
      intro carried
      contradiction
    case rs1 =>
      intro _
      rw [pipelineDecode_rs1, field]
      omega
    case rs2 =>
      intro _
      rw [pipelineDecode_rs2, field]
      omega
    case imm =>
      intro _
      exact imm_eq (value.trans same)

include hrd in
/-- A word of U-type. -/
theorem roundTrip_u (pc : UInt32) (hcode : code < 128) (hfmt : opcodeFormat code = some .u)
    (hop : ∀ funct3 funct7, opcodeAt code funct3 funct7 = op) (fits : Format.u.Representable imm.toInt)
    (word : raw.toNat = code + rd.toNat * 2 ^ 7 + imm.toUInt32.toNat / 2 ^ 12 % 2 ^ 20 * 2 ^ 12) :
    RoundTrip .u op rd rs1 rs2 imm (pipelineDecode raw pc) := by
  have low : field raw 0 7 = code := by unfold field; omega
  have bits := toNat_toUInt32 imm
  obtain ⟨lower, upper, aligned⟩ := fits
  constructor
  case opcode =>
    rw [pipelineDecode_opcodeAt, low]
    exact hop _ _
  case rd =>
    intro _
    rw [pipelineDecode_rd, field]
    omega
  case rs1 =>
    intro carried
    contradiction
  case rs2 =>
    intro carried
    contradiction
  case imm =>
    intro _
    apply imm_eq
    have immHigh : field raw 12 20 = imm.toUInt32.toNat / 2 ^ 12 % 2 ^ 20 := by unfold field; omega
    rw [pipelineDecode_imm (by rw [low]; exact hfmt), Format.imm, immHigh, sext]
    split <;> omega

include hrd in
/-- A word of J-type, with the offset in four parts. -/
theorem roundTrip_j (pc : UInt32) {lo bit mid top : Nat} (hlo : lo < 2 ^ 10) (hbit : bit < 2)
    (hmid : mid < 2 ^ 8) (htop : top < 2)
    (value : sext 21 (top * 2 ^ 20 + mid * 2 ^ 12 + bit * 2 ^ 11 + lo * 2) = imm.toInt)
    (word : raw.toNat =
      0x6F + rd.toNat * 2 ^ 7 + mid * 2 ^ 12 + bit * 2 ^ 20 + lo * 2 ^ 21 + top * 2 ^ 31) :
    RoundTrip .j .jal rd rs1 rs2 imm (pipelineDecode raw pc) := by
  have low : field raw 0 7 = 0x6F := by unfold field; omega
  constructor
  case opcode =>
    rw [pipelineDecode_opcodeAt, low]
    rfl
  case rd =>
    intro _
    rw [pipelineDecode_rd, field]
    omega
  case rs1 =>
    intro carried
    contradiction
  case rs2 =>
    intro carried
    contradiction
  case imm =>
    intro _
    apply imm_eq
    have immTop : field raw 31 1 = top := by unfold field; omega
    have immMid : field raw 12 8 = mid := by unfold field; omega
    have immBit : field raw 20 1 = bit := by unfold field; omega
    have immLow : field raw 21 10 = lo := by unfold field; omega
    rw [pipelineDecode_imm (f := .j) (by rw [low]; rfl), Format.imm]
    rw [immTop, immMid, immBit, immLow, value]

end

/-- The encoder and the decoder join the parts in different orders. -/
theorem or_reverse (a b c d : UInt32) : a ||| b ||| c ||| d = a ||| d ||| c ||| b := by ac_rfl

section
variable {rd rs1 rs2 : UInt8} (hrd : rd.toNat < 32) (h1 : rs1.toNat < 32) (h2 : rs2.toNat < 32)
  (imm : Int32) (pc : UInt32)
include hrd h1 h2

theorem roundTrip_add :
    RoundTrip .r .add rd rs1 rs2 imm (pipelineDecode (pipelineEncode .add rd rs1 rs2 imm) pc) := by
  have word := @toNat_rWord 0x33 rd.toUInt32 0 rs1.toUInt32 rs2.toUInt32 (by decide) hrd (by decide) h1 h2
    0 (by decide)
  exact roundTrip_r hrd h1 h2 0 pc (by decide) rfl word

theorem roundTrip_sub :
    RoundTrip .r .sub rd rs1 rs2 imm (pipelineDecode (pipelineEncode .sub rd rs1 rs2 imm) pc) := by
  have word := @toNat_rWord 0x33 rd.toUInt32 0 rs1.toUInt32 rs2.toUInt32 (by decide) hrd (by decide) h1 h2
    0x20 (by decide)
  exact roundTrip_r hrd h1 h2 0x20 pc (by decide) rfl word

omit h2 in
/-- The four instructions of the I format, which differ in the opcode field and in `funct3`. -/
theorem toNat_iEncode (op funct3 : UInt32) (hop : op.toNat < 2 ^ 7) (h3 : funct3.toNat < 2 ^ 3) :
    (op ||| (rd.toUInt32 <<< 7) ||| (funct3 <<< 12) ||| (rs1.toUInt32 <<< 15) |||
      ((imm &&& 0xFFF).toUInt32 <<< 20)).toNat = op.toNat + rd.toNat * 2 ^ 7 + funct3.toNat * 2 ^ 12 +
      rs1.toNat * 2 ^ 15 + imm.toUInt32.toNat % 2 ^ 12 * 2 ^ 20 := by
  have low := toNat_maskImm imm 0xFFF (w := 12) (by decide)
  rw [@toNat_iWord op rd.toUInt32 funct3 rs1.toUInt32 hop hrd h3 h1 _ (by omega), low]
  rfl

omit h2 in
/-- An immediate that has room comes back. -/
theorem roundTrip_addi (fits : Format.i.Representable imm.toInt) :
    RoundTrip .i .addi rd rs1 rs2 imm (pipelineDecode (pipelineEncode .addi rd rs1 rs2 imm) pc) :=
  roundTrip_i hrd h1 0 pc (by decide) rfl (by decide) (fun _ => rfl) fits
    (toNat_iEncode hrd h1 imm 0x13 0 (by decide) (by decide))

omit h2 in
theorem roundTrip_lw (fits : Format.i.Representable imm.toInt) :
    RoundTrip .i .lw rd rs1 rs2 imm (pipelineDecode (pipelineEncode .lw rd rs1 rs2 imm) pc) :=
  roundTrip_i hrd h1 2 pc (by decide) rfl (by decide) (fun _ => rfl) fits
    (toNat_iEncode hrd h1 imm 0x03 2 (by decide) (by decide))

omit h2 in
theorem roundTrip_jalr (fits : Format.i.Representable imm.toInt) :
    RoundTrip .i .jalr rd rs1 rs2 imm (pipelineDecode (pipelineEncode .jalr rd rs1 rs2 imm) pc) :=
  roundTrip_i hrd h1 0 pc (by decide) rfl (by decide) (fun _ => rfl) fits
    (toNat_iEncode hrd h1 imm 0x67 0 (by decide) (by decide))

omit hrd in
/-- A store offset that has room comes back. -/
theorem roundTrip_sw (fits : Format.s.Representable imm.toInt) :
    RoundTrip .s .sw rd rs1 rs2 imm (pipelineDecode (pipelineEncode .sw rd rs1 rs2 imm) pc) := by
  have low := toNat_maskImm imm 0x1F (w := 5) (by decide)
  have high := toNat_maskImm (imm >>> 5) 0x7F (w := 7) (by decide)
  have bits := toNat_toUInt32 imm
  have shifted := toNat_toUInt32 (imm >>> 5)
  rw [toInt_shiftRight_five] at shifted
  have word := @toNat_rWord 0x23 (imm &&& 0x1F).toUInt32 2 rs1.toUInt32 rs2.toUInt32 (by decide) (by omega)
    (by decide) h1 h2 ((imm >>> 5) &&& 0x7F).toUInt32 (by omega)
  obtain ⟨lower, upper⟩ := fits
  have value : sext 12 (((imm >>> 5) &&& 0x7F).toUInt32.toNat * 2 ^ 5 + (imm &&& 0x1F).toUInt32.toNat) =
      imm.toInt := by
    rw [sext]
    split <;> omega
  exact roundTrip_s h1 h2 pc (by omega) (by omega) value word

omit hrd in
/-- The word of a branch from the three parts of the offset that are encoded. -/
theorem toNat_bWord {lo hi top : UInt32} (hlo : lo.toNat < 2 ^ 4) (hhi : hi.toNat < 2 ^ 6)
    (htop : top.toNat < 2 ^ 1) :
    ((0x63 : UInt32) ||| (lo <<< 8) ||| ((0x0 : UInt32) <<< 12) ||| (rs1.toUInt32 <<< 15) |||
      (rs2.toUInt32 <<< 20) ||| (hi <<< 25) ||| (top <<< 31)).toNat =
      0x63 + lo.toNat * 2 ^ 8 + rs1.toNat * 2 ^ 15 + rs2.toNat * 2 ^ 20 + hi.toNat * 2 ^ 25 +
        top.toNat * 2 ^ 31 := by
  have first : ((0x63 : UInt32) ||| (lo <<< 8) ||| ((0x0 : UInt32) <<< 12)).toNat = 0x63 + lo.toNat * 2 ^ 8 := by
    rw [UInt32.zero_shiftLeft, UInt32.or_zero]
    exact toNat_or_placed (by decide) hlo (by decide) (by decide)
  generalize (0x63 : UInt32) ||| (lo <<< 8) ||| ((0x0 : UInt32) <<< 12) = a at first
  have second : (a ||| (rs1.toUInt32 <<< 15)).toNat = a.toNat + rs1.toNat * 2 ^ 15 := by
    apply toNat_or_placed (x := rs1.toUInt32) (w := 5) _ h1 (by decide) (by decide)
    show _ < 2 ^ 15
    omega
  generalize a ||| (rs1.toUInt32 <<< 15) = b at second
  have third : (b ||| (rs2.toUInt32 <<< 20)).toNat = b.toNat + rs2.toNat * 2 ^ 20 := by
    apply toNat_or_placed (x := rs2.toUInt32) (w := 5) _ h2 (by decide) (by decide)
    show _ < 2 ^ 20
    omega
  generalize b ||| (rs2.toUInt32 <<< 20) = c at third
  have fourth : (c ||| (hi <<< 25)).toNat = c.toNat + hi.toNat * 2 ^ 25 := by
    apply toNat_or_placed _ hhi (by decide) (by decide)
    show _ < 2 ^ 25
    omega
  generalize c ||| (hi <<< 25) = d at fourth
  have fifth : (d ||| (top <<< 31)).toNat = d.toNat + top.toNat * 2 ^ 31 := by
    apply toNat_or_placed _ htop (by decide) (by decide)
    show _ < 2 ^ 31
    omega
  omega

omit hrd in
/-- Bit 11 of a branch offset is lost by the encoder, so the offset comes back where it is zero. -/
theorem roundTrip_beq (fits : Format.b.Representable imm.toInt) :
    RoundTrip .b .beq rd rs1 rs2 imm (pipelineDecode (pipelineEncode .beq rd rs1 rs2 imm) pc) ↔
      imm.toInt / 2 ^ 11 % 2 = 0 := by
  have lo : ((imm.toUInt32 >>> 1) &&& (0xF : UInt32)).toNat = field imm.toUInt32 1 4 := by
    exact toNat_field imm.toUInt32 (by decide) (by decide)
  have hi : ((imm.toUInt32 >>> 5) &&& (0x3F : UInt32)).toNat = field imm.toUInt32 5 6 := by
    exact toNat_field imm.toUInt32 (by decide) (by decide)
  have top : ((imm.toUInt32 >>> 12) &&& (1 : UInt32)).toNat = field imm.toUInt32 12 1 := by
    exact toNat_field imm.toUInt32 (by decide) (by decide)
  have loLt := field_lt imm.toUInt32 1 4
  have hiLt := field_lt imm.toUInt32 5 6
  have topLt := field_lt imm.toUInt32 12 1
  have word : (pipelineEncode .beq rd rs1 rs2 imm).toNat =
      0x63 + field imm.toUInt32 1 4 * 2 ^ 8 + rs1.toNat * 2 ^ 15 + rs2.toNat * 2 ^ 20 +
        field imm.toUInt32 5 6 * 2 ^ 25 + field imm.toUInt32 12 1 * 2 ^ 31 := by
    rw [← lo, ← hi, ← top]
    exact toNat_bWord h1 h2 (lo.trans_lt loLt) (hi.trans_lt hiLt) (top.trans_lt topLt)
  rw [roundTrip_b h1 h2 pc loLt hiLt topLt word]
  have bits := toNat_toUInt32 imm
  obtain ⟨lower, upper, even⟩ := fits
  unfold field sext
  split <;> omega

omit h1 h2 in
/-- The word of a jump, whose parts are not written in the order of their places. -/
theorem toNat_jWord {lo bit mid top : UInt32} (hlo : lo.toNat < 2 ^ 10) (hbit : bit.toNat < 2 ^ 1)
    (hmid : mid.toNat < 2 ^ 8) (htop : top.toNat < 2 ^ 1) :
    ((0x6F : UInt32) ||| (rd.toUInt32 <<< 7) ||| (lo <<< 21) ||| (bit <<< 20) ||| (mid <<< 12) |||
      (top <<< 31)).toNat =
      0x6F + rd.toNat * 2 ^ 7 + mid.toNat * 2 ^ 12 + bit.toNat * 2 ^ 20 + lo.toNat * 2 ^ 21 +
        top.toNat * 2 ^ 31 := by
  have first : ((0x6F : UInt32) ||| (rd.toUInt32 <<< 7)).toNat = 0x6F + rd.toNat * 2 ^ 7 :=
    toNat_opRd (by decide) hrd
  generalize (0x6F : UInt32) ||| (rd.toUInt32 <<< 7) = a at first
  rw [or_reverse a]
  have second : (a ||| (mid <<< 12)).toNat = a.toNat + mid.toNat * 2 ^ 12 := by
    apply toNat_or_placed _ hmid (by decide) (by decide)
    show _ < 2 ^ 12
    omega
  generalize a ||| (mid <<< 12) = b at second
  have third : (b ||| (bit <<< 20)).toNat = b.toNat + bit.toNat * 2 ^ 20 := by
    apply toNat_or_placed _ hbit (by decide) (by decide)
    show _ < 2 ^ 20
    omega
  generalize b ||| (bit <<< 20) = c at third
  have fourth : (c ||| (lo <<< 21)).toNat = c.toNat + lo.toNat * 2 ^ 21 := by
    apply toNat_or_placed _ hlo (by decide) (by decide)
    show _ < 2 ^ 21
    omega
  generalize c ||| (lo <<< 21) = d at fourth
  have fifth : (d ||| (top <<< 31)).toNat = d.toNat + top.toNat * 2 ^ 31 := by
    apply toNat_or_placed _ htop (by decide) (by decide)
    show _ < 2 ^ 31
    omega
  omega

omit h1 h2 in
/-- A jump offset that has room comes back. -/
theorem roundTrip_jal (fits : Format.j.Representable imm.toInt) :
    RoundTrip .j .jal rd rs1 rs2 imm (pipelineDecode (pipelineEncode .jal rd rs1 rs2 imm) pc) := by
  have low := toNat_maskImm imm 0x1FFFFF (w := 21) (by decide)
  generalize encoded : (imm &&& 0x1FFFFF).toUInt32 = ji at low
  have lo : ((ji >>> 1) &&& (0x3FF : UInt32)).toNat = field ji 1 10 := by
    exact toNat_field ji (by decide) (by decide)
  have bit : ((ji >>> 11) &&& (1 : UInt32)).toNat = field ji 11 1 := by
    exact toNat_field ji (by decide) (by decide)
  have mid : ((ji >>> 12) &&& (0xFF : UInt32)).toNat = field ji 12 8 := by
    exact toNat_field ji (by decide) (by decide)
  have top : ((ji >>> 20) &&& (1 : UInt32)).toNat = field ji 20 1 := by
    exact toNat_field ji (by decide) (by decide)
  have loLt := field_lt ji 1 10
  have bitLt := field_lt ji 11 1
  have midLt := field_lt ji 12 8
  have topLt := field_lt ji 20 1
  have word : (pipelineEncode .jal rd rs1 rs2 imm).toNat =
      0x6F + rd.toNat * 2 ^ 7 + field ji 12 8 * 2 ^ 12 + field ji 11 1 * 2 ^ 20 + field ji 1 10 * 2 ^ 21 +
        field ji 20 1 * 2 ^ 31 := by
    rw [← lo, ← bit, ← mid, ← top, ← encoded]
    rw [← encoded] at lo bit mid top loLt bitLt midLt topLt
    exact toNat_jWord hrd (lo.trans_lt loLt) (bit.trans_lt bitLt) (mid.trans_lt midLt) (top.trans_lt topLt)
  have value : sext 21 (field ji 20 1 * 2 ^ 20 + field ji 12 8 * 2 ^ 12 + field ji 11 1 * 2 ^ 11 +
      field ji 1 10 * 2) = imm.toInt := by
    have bits := toNat_toUInt32 imm
    obtain ⟨lower, upper, even⟩ := fits
    have whole : field ji 20 1 * 2 ^ 20 + field ji 12 8 * 2 ^ 12 + field ji 11 1 * 2 ^ 11 +
        field ji 1 10 * 2 = ji.toNat := by
      unfold field
      omega
    rw [whole, sext]
    split <;> omega
  exact roundTrip_j hrd pc loLt bitLt midLt topLt value word

omit h1 h2 in
/-- The two instructions of the U format, which differ in the opcode field. -/
theorem toNat_uEncode (op : UInt32) (hop : op.toNat < 2 ^ 7) :
    (op ||| (rd.toUInt32 <<< 7) ||| (imm.toUInt32 &&& 0xFFFFF000)).toNat =
      op.toNat + rd.toNat * 2 ^ 7 + imm.toUInt32.toNat / 2 ^ 12 % 2 ^ 20 * 2 ^ 12 := by
  have first := @toNat_opRd op rd.toUInt32 hop hrd
  have upper := toNat_mask_shifted imm.toUInt32 (m := 0xFFFFF000) 12 20 (by decide)
  rw [UInt8.toNat_toUInt32] at first
  rw [UInt32.or_comm, toNat_or 12 (by rw [upper, Nat.mul_mod_left]) (by omega), first, upper, Nat.add_comm]
  rfl

omit h1 h2 in
/-- The upper 20 bits come back. -/
theorem roundTrip_lui (fits : Format.u.Representable imm.toInt) :
    RoundTrip .u .lui rd rs1 rs2 imm (pipelineDecode (pipelineEncode .lui rd rs1 rs2 imm) pc) :=
  roundTrip_u hrd pc (by decide) rfl (fun _ _ => rfl) fits (toNat_uEncode hrd imm 0x37 (by decide))

omit h1 h2 in
theorem roundTrip_auipc (fits : Format.u.Representable imm.toInt) :
    RoundTrip .u .auipc rd rs1 rs2 imm (pipelineDecode (pipelineEncode .auipc rd rs1 rs2 imm) pc) :=
  roundTrip_u hrd pc (by decide) rfl (fun _ _ => rfl) fits (toNat_uEncode hrd imm 0x17 (by decide))

end

/-- Encoding and decoding give an instruction back, unless it is a branch whose offset has bit 11 set. -/
theorem pipelineEncode_roundTrip {op : Opcode} {f : Format} {rd rs1 rs2 : UInt8} {imm : Int32}
    (supported : format op = some f) (hrd : rd.toNat < 32) (h1 : rs1.toNat < 32) (h2 : rs2.toNat < 32)
    (fits : f.Representable imm.toInt) (pc : UInt32) :
    RoundTrip f op rd rs1 rs2 imm (pipelineDecode (pipelineEncode op rd rs1 rs2 imm) pc) ↔
      (op = .beq → imm.toInt / 2 ^ 11 % 2 = 0) := by
  unfold format at supported
  split at supported <;> cases supported
  case h_1 => exact iff_of_true (roundTrip_add hrd h1 h2 imm pc) nofun
  case h_2 => exact iff_of_true (roundTrip_sub hrd h1 h2 imm pc) nofun
  case h_3 => exact iff_of_true (roundTrip_addi hrd h1 imm pc fits) nofun
  case h_4 => exact iff_of_true (roundTrip_lw hrd h1 imm pc fits) nofun
  case h_5 => exact iff_of_true (roundTrip_jalr hrd h1 imm pc fits) nofun
  case h_6 => exact iff_of_true (roundTrip_sw h1 h2 imm pc fits) nofun
  case h_7 =>
    rw [roundTrip_beq h1 h2 imm pc fits]
    exact ⟨fun clear _ => clear, fun clear => clear rfl⟩
  case h_8 => exact iff_of_true (roundTrip_jal hrd imm pc fits) nofun
  case h_9 => exact iff_of_true (roundTrip_lui hrd imm pc fits) nofun
  case h_10 => exact iff_of_true (roundTrip_auipc hrd imm pc fits) nofun

/-- A decrement by 4. -/
theorem pipelineEncode_roundTrip_addi :
    RoundTrip .i .addi 1 2 0 (-4) (pipelineDecode (pipelineEncode .addi 1 2 0 (-4)) 0) ↔
      (Opcode.addi = .beq → (-4 : Int32).toInt / 2 ^ 11 % 2 = 0) := by
  have fits : Format.i.Representable (-4 : Int32).toInt := ⟨by decide, by decide⟩
  exact pipelineEncode_roundTrip rfl (by decide) (by decide) (by decide) fits 0

/-- A branch back by 4 is decoded as one back by 2052. -/
theorem beq_loses_bit : Format.b.Representable (-4 : Int32).toInt ∧
    (pipelineDecode (pipelineEncode .beq 0 1 2 (-4)) 0).imm = -2052 ∧
    ¬ RoundTrip .b .beq 0 1 2 (-4) (pipelineDecode (pipelineEncode .beq 0 1 2 (-4)) 0) := by
  have decoded : (pipelineDecode (pipelineEncode .beq 0 1 2 (-4)) 0).imm = -2052 := by decide
  refine ⟨⟨by decide, by decide, by decide⟩, decoded, ?_⟩
  intro trip
  have same := trip.imm rfl
  rw [decoded] at same
  exact absurd same (by decide)

end MiniHardware.Arch.Pipeline
