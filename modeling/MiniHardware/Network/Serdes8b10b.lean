import Mathlib.Algebra.Order.Ring.Int
import MiniHardware.Lib.Bytes
import MiniHardware.Lib.Index
import MiniHardware.Lib.Potential

/-!
# The 8b/10b code (`mini-network-hardware/src/serdes.c`)

Both parts of a symbol come from tables with one code for either disparity, the
second the complement of the first. The code of the low bits `0x0F` is also the
one that announces a control symbol, and most codes have more zeros than ones,
so that a disparity once negative remains negative.
-/

namespace MiniHardware.Network

open MiniHardware.Lib

inductive RunningDisparity where
  | negative
  | positive
deriving DecidableEq

structure Enc5b6bEntry where
  rdMinus : UInt8
  rdPlus : UInt8

structure Enc3b4bEntry where
  rdMinus : UInt8
  rdPlus : UInt8

section Model

abbrev enc5b6bSize : Nat := 32

abbrev enc3b4bSize : Nat := 8

/-- The tables as `serdes_8b10b_init_tables` fills them. -/
def enc5b6b (i : Fin enc5b6bSize) : Enc5b6bEntry :=
  let rdMinus := UInt8.ofNat i
  let rdPlus := UInt8.ofNat i ^^^ 0x3F
  let rdPlus := if rdPlus == rdMinus || rdPlus == 0 then (UInt8.ofNat i + 32) &&& 0x3F else rdPlus
  ⟨rdMinus, rdPlus⟩

def enc3b4b (i : Fin enc3b4bSize) : Enc3b4bEntry :=
  let rdMinus := UInt8.ofNat i
  let rdPlus := UInt8.ofNat i ^^^ 0x0F
  let rdPlus := if rdPlus == rdMinus || rdPlus == 0 then (UInt8.ofNat i + 8) &&& 0x0F else rdPlus
  ⟨rdMinus, rdPlus⟩

def countOnes (val : UInt8) (bits : Nat) : Int :=
  (List.range bits).foldl (fun count i => if val &&& (1 <<< UInt8.ofNat i) ≠ 0 then count + 1 else count) 0

def codeDisparity (val : UInt8) (bits : Nat) : Int :=
  let ones := countOnes val bits
  2 * ones - bits

/-- The update of `*rd`. -/
def updateRd (rd : RunningDisparity) (disp : Int) : RunningDisparity :=
  if disp > 0 then .positive else if disp < 0 then .negative else rd

/-- The low five bits index the table of six-bit codes. -/
theorem low5_lt (x : UInt8) : (x &&& 0x1F).toNat < enc5b6bSize := by
  rw [UInt8.toNat_and]
  exact Nat.and_lt_two_pow (n := 5) _ (by decide)

/-- The high three bits index the table of four-bit codes. -/
theorem high3_lt (x : UInt8) : (x &&& 0x07).toNat < enc3b4bSize := by
  rw [UInt8.toNat_and]
  exact Nat.and_lt_two_pow (n := 3) _ (by decide)

/-- The symbol and the new disparity. -/
def serdes8b10bEncode (dataByte : UInt8) (isControl : Bool) (rd : RunningDisparity) : UInt16 × RunningDisparity :=
  if isControl then
    let code3b := (dataByte >>> 5) &&& 0x07
    let enc6b : UInt8 := if rd = .negative then 0x0F else 0x30
    let e4 := enc3b4b ⟨code3b.toNat, high3_lt _⟩
    let enc4b := if rd = .negative then e4.rdMinus else e4.rdPlus
    let disp := codeDisparity enc6b 6 + codeDisparity enc4b 4
    (enc6b.toUInt16 ||| (enc4b.toUInt16 <<< 6), updateRd rd disp)
  else
    let low5 := dataByte &&& 0x1F
    let high3 := (dataByte >>> 5) &&& 0x07
    let e6 := enc5b6b ⟨low5.toNat, low5_lt _⟩
    let enc6b := if rd = .negative then e6.rdMinus else e6.rdPlus
    let disp6b := codeDisparity enc6b 6
    let rdMid := updateRd rd disp6b
    let e4 := enc3b4b ⟨high3.toNat, high3_lt _⟩
    let enc4b := if rdMid = .negative then e4.rdMinus else e4.rdPlus
    let disp4b := codeDisparity enc4b 4
    (enc6b.toUInt16 ||| (enc4b.toUInt16 <<< 6), updateRd rd (disp6b + disp4b))

/-- The first entry with the code in one of its columns. -/
def find5b (enc6b : UInt8) : Option (Fin enc5b6bSize) :=
  (List.finRange enc5b6bSize).find? fun i => (enc5b6b i).rdMinus == enc6b || (enc5b6b i).rdPlus == enc6b

def find3b (enc4b : UInt8) : Option (Fin enc3b4bSize) :=
  (List.finRange enc3b4bSize).find? fun i => (enc3b4b i).rdMinus == enc4b || (enc3b4b i).rdPlus == enc4b

/-- The byte, whether it is a control byte, and the new disparity; `none` when -1 is returned. -/
def serdes8b10bDecode (symbol : UInt16) (rd : RunningDisparity) : Option (UInt8 × Bool × RunningDisparity) :=
  let enc6b := (symbol &&& 0x3F).toUInt8
  let enc4b := ((symbol >>> 6) &&& 0x0F).toUInt8
  match find5b enc6b, find3b enc4b with
  | some found5b, some found3b =>
    let high := UInt8.ofNat found3b.val <<< 5
    let disp := codeDisparity enc6b 6 + codeDisparity enc4b 4
    if enc6b == 0x0F || enc6b == 0x30 then some (0x1C ||| high, true, updateRd rd disp)
    else some (UInt8.ofNat found5b.val ||| high, false, updateRd rd disp)
  | _, _ => none

end Model

/-! ## Streams -/

section Streams

def encodeStream (rd : RunningDisparity) : List UInt8 → List UInt16 × RunningDisparity
  | [] => ([], rd)
  | b :: data =>
    let (symbol, rd) := serdes8b10bEncode b false rd
    let (symbols, rd) := encodeStream rd data
    (symbol :: symbols, rd)

/-- The bytes with their flags, and the disparity at the end. -/
def decodeStream (rd : RunningDisparity) : List UInt16 → Option (List (UInt8 × Bool) × RunningDisparity)
  | [] => some ([], rd)
  | symbol :: symbols => do
    let (b, isControl, rd) ← serdes8b10bDecode symbol rd
    let (data, rd) ← decodeStream rd symbols
    return ((b, isControl) :: data, rd)

/-- Ones minus zeros, of the ten bits of a symbol. -/
def symbolDisparity (symbol : UInt16) : Int :=
  2 * ((List.range 10).countP fun i => symbol.toNat.testBit i : Nat) - 10

def streamDisparity (symbols : List UInt16) : Int := (symbols.map symbolDisparity).sum

/-- What a byte adds to the ones minus zeros when the disparity is negative; when it is
positive, it takes as much away. -/
def lead (b : UInt8) : Int :=
  let ones5 := countOnes (b &&& 0x1F) 5
  let ones3 := countOnes ((b >>> 5) &&& 0x07) 3
  if 4 ≤ ones5 then 2 * (ones5 - ones3) - 2 else 2 * (ones5 + ones3) - 10

end Streams

/-! ## The tables -/

section Tables

/-- The disparity of a six-bit code follows from the ones of the five bits, and is opposite in the two columns. -/
theorem disparity5b : ∀ i : Fin enc5b6bSize,
    codeDisparity (enc5b6b i).rdMinus 6 = 2 * countOnes (UInt8.ofNat i) 5 - 6 ∧
      codeDisparity (enc5b6b i).rdPlus 6 = 6 - 2 * countOnes (UInt8.ofNat i) 5 := by
  decide

/-- The disparity of a four-bit code follows from the ones of the three bits, and is opposite in the two columns. -/
theorem disparity3b : ∀ i : Fin enc3b4bSize,
    codeDisparity (enc3b4b i).rdMinus 4 = 2 * countOnes (UInt8.ofNat i) 3 - 4 ∧
      codeDisparity (enc3b4b i).rdPlus 4 = 4 - 2 * countOnes (UInt8.ofNat i) 3 := by
  decide

/-- The decoder finds each six-bit code at its own row. -/
theorem find5b_code : ∀ i, find5b (enc5b6b i).rdMinus = some i ∧ find5b (enc5b6b i).rdPlus = some i := by
  decide

/-- The decoder finds each four-bit code at its own row. -/
theorem find3b_code : ∀ i, find3b (enc3b4b i).rdMinus = some i ∧ find3b (enc3b4b i).rdPlus = some i := by
  decide

/-- A code of the first table has six bits. -/
theorem code5b_lt : ∀ i, (enc5b6b i).rdMinus.toNat < 64 ∧ (enc5b6b i).rdPlus.toNat < 64 := by
  decide

/-- A code of the second table has four bits. -/
theorem code3b_lt : ∀ i, (enc3b4b i).rdMinus.toNat < 16 ∧ (enc3b4b i).rdPlus.toNat < 16 := by
  decide

/-- Only the entry `0x0F` has the code of a control symbol. -/
theorem control5b : ∀ i,
    ((enc5b6b i).rdMinus == 0x0F || (enc5b6b i).rdMinus == 0x30) = decide (i = 0x0F) ∧
      ((enc5b6b i).rdPlus == 0x0F || (enc5b6b i).rdPlus == 0x30) = decide (i = 0x0F) := by
  decide

/-- The two codes come apart again from the symbol of ten bits. -/
theorem parts_symbol : ∀ (x : Fin 64) (y : Fin 16),
    let symbol := (UInt8.ofNat x).toUInt16 ||| ((UInt8.ofNat y).toUInt16 <<< 6)
    (symbol &&& 0x3F).toUInt8 = UInt8.ofNat x ∧ ((symbol >>> 6) &&& 0x0F).toUInt8 = UInt8.ofNat y ∧
      symbolDisparity symbol = codeDisparity (UInt8.ofNat x) 6 + codeDisparity (UInt8.ofNat y) 4 := by
  decide +kernel

/-- The two indices of a byte give the byte back. -/
theorem byte_of_parts : ∀ b : UInt8, UInt8.ofNat (b &&& 0x1F).toNat |||
    (UInt8.ofNat ((b >>> 5) &&& 0x07).toNat <<< 5) = b :=
  forall_byte (by decide +kernel)

end Tables

/-! ## One symbol -/

section Symbol

/-- A code of the one table and a code of the other. -/
structure Codes (i : Fin enc5b6bSize) (j : Fin enc3b4bSize) (enc6b enc4b : UInt8) : Prop where
  low : enc6b = (enc5b6b i).rdMinus ∨ enc6b = (enc5b6b i).rdPlus
  high : enc4b = (enc3b4b j).rdMinus ∨ enc4b = (enc3b4b j).rdPlus

variable {i : Fin enc5b6bSize} {j : Fin enc3b4bSize} {enc6b enc4b : UInt8}

/-- The parts of a symbol made of two table codes are those codes. -/
theorem Codes.parts (codes : Codes i j enc6b enc4b) :
    let symbol := enc6b.toUInt16 ||| (enc4b.toUInt16 <<< 6)
    (symbol &&& 0x3F).toUInt8 = enc6b ∧ ((symbol >>> 6) &&& 0x0F).toUInt8 = enc4b ∧
      symbolDisparity symbol = codeDisparity enc6b 6 + codeDisparity enc4b 4 := by
  have lt : enc6b.toNat < 64 := by
    rcases codes.low with rfl | rfl
    · exact (code5b_lt i).1
    · exact (code5b_lt i).2
  have lt' : enc4b.toNat < 16 := by
    rcases codes.high with rfl | rfl
    · exact (code3b_lt j).1
    · exact (code3b_lt j).2
  have parts := parts_symbol ⟨enc6b.toNat, lt⟩ ⟨enc4b.toNat, lt'⟩
  dsimp only at parts
  rw [UInt8.ofNat_toNat, UInt8.ofNat_toNat] at parts
  exact parts

/-- What the decoder makes of a symbol of two table codes, the row that it takes for a control symbol included. -/
theorem Codes.decode (codes : Codes i j enc6b enc4b) (rd : RunningDisparity) :
    serdes8b10bDecode (enc6b.toUInt16 ||| (enc4b.toUInt16 <<< 6)) rd =
      some (if i = 0x0F then (0x1C : UInt8) ||| (UInt8.ofNat j <<< 5) else UInt8.ofNat i ||| (UInt8.ofNat j <<< 5),
        decide (i = 0x0F), updateRd rd (codeDisparity enc6b 6 + codeDisparity enc4b 4)) := by
  obtain ⟨low, high, -⟩ := codes.parts
  have found : find5b enc6b = some i := by
    rcases codes.low with rfl | rfl
    · exact (find5b_code i).1
    · exact (find5b_code i).2
  have found' : find3b enc4b = some j := by
    rcases codes.high with rfl | rfl
    · exact (find3b_code j).1
    · exact (find3b_code j).2
  have control : (enc6b == 0x0F || enc6b == 0x30) = decide (i = 0x0F) := by
    rcases codes.low with rfl | rfl
    · exact (control5b i).1
    · exact (control5b i).2
  rw [serdes8b10bDecode]
  dsimp only at low high ⊢
  rw [low, high, found, found', control]
  dsimp only
  by_cases eq : i = 0x0F
  · rw [if_pos eq, if_pos (decide_eq_true eq), decide_eq_true eq]
  · rw [if_neg eq, if_neg (by rw [decide_eq_false eq]; decide), decide_eq_false eq]

/-- From a negative disparity, only a code with more ones leads away. -/
theorem updateRd_negative {disp : Int} : updateRd .negative disp = .negative ↔ disp ≤ 0 := by
  unfold updateRd
  split
  · exact ⟨nofun, by omega⟩
  · exact ⟨fun _ => by omega, fun _ => ite_self _⟩

/-- From a positive disparity, only a code with fewer ones leads back. -/
theorem updateRd_positive {disp : Int} : updateRd .positive disp = .negative ↔ disp < 0 := by
  unfold updateRd
  split
  · exact ⟨nofun, by omega⟩
  split
  · exact ⟨fun _ => by omega, fun _ => rfl⟩
  · exact ⟨nofun, by omega⟩

def lowIndex (b : UInt8) : Fin enc5b6bSize := ⟨(b &&& 0x1F).toNat, low5_lt b⟩

def highIndex (b : UInt8) : Fin enc3b4bSize := ⟨((b >>> 5) &&& 0x07).toNat, high3_lt _⟩

/-- The disparity of a code is that of its bits, with the sign of the column. -/
theorem encode_data (b : UInt8) (rd : RunningDisparity) : ∃ enc6b enc4b, Codes (lowIndex b) (highIndex b) enc6b enc4b ∧
    serdes8b10bEncode b false rd = (enc6b.toUInt16 ||| (enc4b.toUInt16 <<< 6),
      updateRd rd (codeDisparity enc6b 6 + codeDisparity enc4b 4)) ∧
    codeDisparity enc6b 6 + codeDisparity enc4b 4 = if rd = .negative then lead b else -lead b := by
  obtain ⟨minus, plus⟩ := disparity5b (lowIndex b)
  obtain ⟨minus', plus'⟩ := disparity3b (highIndex b)
  have low : UInt8.ofNat (lowIndex b) = b &&& 0x1F := UInt8.ofNat_toNat
  have high : UInt8.ofNat (highIndex b) = (b >>> 5) &&& 0x07 := UInt8.ofNat_toNat
  rw [low] at minus plus
  rw [high] at minus' plus'
  refine ⟨_, _, ⟨ite_eq_or_eq _ _ _, ite_eq_or_eq _ _ _⟩, rfl, ?_⟩
  cases rd with
  | negative =>
    show codeDisparity (enc5b6b (lowIndex b)).rdMinus 6 +
      codeDisparity (if updateRd .negative (codeDisparity (enc5b6b (lowIndex b)).rdMinus 6) = .negative then
        (enc3b4b (highIndex b)).rdMinus else (enc3b4b (highIndex b)).rdPlus) 4 = lead b
    rw [minus, lead]
    by_cases four : 4 ≤ countOnes (b &&& 0x1F) 5
    · rw [if_pos four, if_neg (by rw [updateRd_negative]; omega), plus']
      omega
    · rw [if_neg four, if_pos (by rw [updateRd_negative]; omega), minus']
      omega
  | positive =>
    show codeDisparity (enc5b6b (lowIndex b)).rdPlus 6 +
      codeDisparity (if updateRd .positive (codeDisparity (enc5b6b (lowIndex b)).rdPlus 6) = .negative then
        (enc3b4b (highIndex b)).rdMinus else (enc3b4b (highIndex b)).rdPlus) 4 = -lead b
    rw [plus, lead]
    by_cases four : 4 ≤ countOnes (b &&& 0x1F) 5
    · rw [if_pos four, if_pos (by rw [updateRd_positive]; omega), minus']
      omega
    · rw [if_neg four, if_neg (by rw [updateRd_positive]; omega), plus']
      omega

end Symbol

/-! ## Round trips -/

section RoundTrip

/-- One byte through encoder and decoder: it comes back as data with the encoder's disparity, unless its low
five bits are `0x0F`. -/
theorem decode_encode (b : UInt8) (rd : RunningDisparity) :
    serdes8b10bDecode (serdes8b10bEncode b false rd).1 rd =
      some (if b &&& 0x1F = 0x0F then (0x1C : UInt8) ||| (UInt8.ofNat (highIndex b) <<< 5) else b,
        decide (b &&& 0x1F = 0x0F), (serdes8b10bEncode b false rd).2) := by
  have control : lowIndex b = 0x0F ↔ b &&& 0x1F = 0x0F := by
    rw [Fin.ext_iff, ← UInt8.toNat_inj]
    exact Iff.rfl
  have whole : UInt8.ofNat (lowIndex b) ||| (UInt8.ofNat (highIndex b) <<< 5) = b := byte_of_parts b
  obtain ⟨enc6b, enc4b, codes, encoded, -⟩ := encode_data b rd
  rw [encoded, codes.decode, whole, if_congr control rfl rfl, decide_eq_decide.mpr control]

/-- A stream without such bytes comes back whole, and both ends have the same disparity. -/
theorem decodeStream_encodeStream (rd : RunningDisparity) (data : List UInt8) (plain : ∀ b ∈ data, b &&& 0x1F ≠ 0x0F) :
    decodeStream rd (encodeStream rd data).1 = some (data.map fun b => (b, false), (encodeStream rd data).2) := by
  induction data generalizing rd with
  | nil => rfl
  | cons b data ih =>
    have head := plain b List.mem_cons_self
    have rest := ih (serdes8b10bEncode b false rd).2 fun b' mem => plain b' (List.mem_cons_of_mem b mem)
    rw [encodeStream, decodeStream, decode_encode, if_neg head, decide_eq_false head]
    dsimp only [Option.bind_eq_bind, Option.bind_some]
    rw [rest]
    rfl

end RoundTrip

/-! ## Balance -/

section Balance

def nextRd (rd : RunningDisparity) (b : UInt8) : RunningDisparity := (serdes8b10bEncode b false rd).2

def added (rd : RunningDisparity) (b : UInt8) : Int := symbolDisparity (serdes8b10bEncode b false rd).1

/-- The disparity of a stream is the cost of its bytes in the two-state automaton of the encoder. -/
theorem streamDisparity_encodeStream (rd : RunningDisparity) (data : List UInt8) :
    streamDisparity (encodeStream rd data).1 = cost nextRd added rd data := by
  induction data generalizing rd with
  | nil => rfl
  | cons b data ih =>
    rw [encodeStream, cost, ← ih]
    exact List.sum_cons

/-- What a byte adds changes sign with the running disparity. -/
theorem added_eq (rd : RunningDisparity) (b : UInt8) : added rd b = if rd = .negative then lead b else -lead b := by
  obtain ⟨enc6b, enc4b, codes, encoded, disparity⟩ := encode_data b rd
  rw [added, encoded, ← disparity]
  exact codes.parts.2.2

/-- The next running disparity, from the lead of the byte. -/
theorem nextRd_eq (rd : RunningDisparity) (b : UInt8) :
    nextRd rd b = updateRd rd (if rd = .negative then lead b else -lead b) := by
  obtain ⟨enc6b, enc4b, -, encoded, disparity⟩ := encode_data b rd
  rw [nextRd, encoded, ← disparity]

/-- Bytes that stay at the disparity or change it by one fixed amount. -/
theorem balanced_of_lead {step : Int} {data : List UInt8} (pos : 0 < step) (leads : ∀ b ∈ data, lead b = 0 ∨ lead b = step)
    (rd : RunningDisparity) : |streamDisparity (encodeStream rd data).1| ≤ step := by
  have rises (rd : RunningDisparity) (b : UInt8) (ok : lead b = 0 ∨ lead b = step) :
      added rd b + (if rd = .negative then 0 else step) = if nextRd rd b = .negative then 0 else step := by
    rw [added_eq, nextRd_eq]
    cases rd with
    | negative =>
      rw [if_pos rfl, if_pos rfl]
      rcases ok with zero | whole
      · rw [zero]
        rfl
      · rw [whole, updateRd, if_pos pos, if_neg nofun, add_zero]
    | positive =>
      rw [if_neg nofun, if_neg nofun]
      rcases ok with zero | whole
      · rw [zero, neg_zero, zero_add]
        rfl
      · rw [whole, updateRd_positive.mpr (by omega), if_pos rfl]
        omega
  have total := cost_eq_potential (fun b => lead b = 0 ∨ lead b = step)
    (fun rd => if rd = .negative then 0 else step) rises rd leads
  rw [streamDisparity_encodeStream, abs_le]
  split at total
  all_goals
    split at total
    all_goals omega

variable {allowed : UInt8 → Prop} {bound : Int}

/-- Bytes that lead back to the disparity they began with can be repeated. -/
theorem loop_balanced
    (bounded : ∀ rd data, (∀ b ∈ data, allowed b) → |streamDisparity (encodeStream rd data).1| ≤ bound)
    (rd : RunningDisparity) {loop : List UInt8} (all : ∀ b ∈ loop, allowed b) (closed : run nextRd rd loop = rd) :
    cost nextRd added rd loop = 0 := by
  refine cost_loop_zero bound closed fun k => ?_
  rw [← streamDisparity_encodeStream]
  refine bounded rd _ fun b mem => ?_
  obtain ⟨l, replica, inside⟩ := List.mem_flatten.mp mem
  rw [List.eq_of_mem_replicate replica] at inside
  exact all b inside

/-- Where all streams over a set are balanced, none of its bytes lowers a negative disparity. -/
theorem lead_nonneg
    (bounded : ∀ rd data, (∀ b ∈ data, allowed b) → |streamDisparity (encodeStream rd data).1| ≤ bound)
    {b : UInt8} (ok : allowed b) : 0 ≤ lead b := by
  by_contra below
  have closed : nextRd .negative b = .negative := by
    rw [nextRd_eq, if_pos rfl, updateRd_negative]
    omega
  have all : ∀ b' ∈ [b], allowed b' := fun b' mem => List.mem_singleton.mp mem ▸ ok
  have zero := loop_balanced bounded .negative all closed
  rw [cost, cost, added_eq, if_pos rfl, add_zero] at zero
  omega

/-- Where all streams over a set are balanced, the bytes that raise a negative disparity raise it alike. -/
theorem lead_unique
    (bounded : ∀ rd data, (∀ b ∈ data, allowed b) → |streamDisparity (encodeStream rd data).1| ≤ bound)
    {b b' : UInt8} (ok : allowed b) (ok' : allowed b') (pos : 0 < lead b) (pos' : 0 < lead b') : lead b = lead b' := by
  have up : nextRd .negative b = .positive := by
    rw [nextRd_eq, if_pos rfl, updateRd, if_pos pos]
  have down : nextRd .positive b' = .negative := by
    rw [nextRd_eq, if_neg nofun, updateRd_positive]
    omega
  have closed : run nextRd .negative [b, b'] = .negative := by
    rw [run_cons, up, run_cons, down, run_nil]
  have all : ∀ b'' ∈ [b, b'], allowed b'' := by simp [ok, ok']
  have zero := loop_balanced bounded .negative all closed
  rw [cost, cost, cost, up, added_eq, added_eq, if_pos rfl, if_neg nofun] at zero
  omega

end Balance

/-- The streams over a set of bytes come back as they were sent, and are balanced, only if
none of the bytes reads as a control symbol or lowers a negative disparity, and all that
raise it do so by the same amount. -/
theorem serdes_8b10b_iff (allowed : UInt8 → Prop) :
    ((∀ rd data, (∀ b ∈ data, allowed b) →
        decodeStream rd (encodeStream rd data).1 = some (data.map fun b => (b, false), (encodeStream rd data).2)) ∧
      ∃ bound : Int, ∀ rd data, (∀ b ∈ data, allowed b) → |streamDisparity (encodeStream rd data).1| ≤ bound) ↔
    (∀ b, allowed b → b &&& 0x1F ≠ 0x0F ∧ 0 ≤ lead b) ∧
      ∀ b b', allowed b → allowed b' → 0 < lead b → 0 < lead b' → lead b = lead b' := by
  constructor
  · rintro ⟨round, bound, bounded⟩
    refine ⟨fun b ok => ⟨fun control => ?_, lead_nonneg bounded ok⟩, fun b b' ok ok' => lead_unique bounded ok ok'⟩
    have back := round .negative [b] fun b' mem => List.mem_singleton.mp mem ▸ ok
    rw [encodeStream, decodeStream, decode_encode, decide_eq_true control] at back
    exact absurd back (by simp [encodeStream, decodeStream])
  · rintro ⟨fine, unique⟩
    refine ⟨fun rd data ok => decodeStream_encodeStream rd data fun b mem => (fine b (ok b mem)).1, ?_⟩
    by_cases some : ∃ b, allowed b ∧ 0 < lead b
    · obtain ⟨b, allowedB, pos⟩ := some
      refine ⟨lead b, fun rd data ok => balanced_of_lead pos (fun b' mem => ?_) rd⟩
      rcases (fine b' (ok b' mem)).2.eq_or_lt with zero | pos'
      · exact .inl zero.symm
      · exact .inr (unique b' b (ok b' mem) allowedB pos' pos)
    · refine ⟨1, fun rd data ok => balanced_of_lead one_pos (fun b' mem => .inl ?_) rd⟩
      have := (fine b' (ok b' mem)).2
      by_contra ne
      exact some ⟨b', ok b' mem, by omega⟩

/-- The byte `0x0F` comes back as the control symbol `0x1C`. -/
theorem serdes_8b10b_confuses :
    ¬((∀ rd data, decodeStream rd (encodeStream rd data).1 =
        some (data.map fun b => (b, false), (encodeStream rd data).2)) ∧
      ∃ bound : Int, ∀ rd data, |streamDisparity (encodeStream rd data).1| ≤ bound) := by
  rintro ⟨round, -⟩
  have back := round .negative [0x0F]
  revert back
  decide +kernel

end MiniHardware.Network
