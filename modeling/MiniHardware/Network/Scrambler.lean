import Mathlib.Data.Nat.Bitwise
import MiniHardware.Lib.Bytes

/-!
# The scrambler (`mini-network-hardware/src/serdes.c`)

A shift register whose low bit is the output and whose high bit is the parity
of the tapped ones. `scramblerProcess` adds eight output bits to every byte of
a buffer, so it undoes itself from the same state, and a sequence of buffers is
treated like their concatenation.
-/

namespace MiniHardware.Network
open Lib

structure Scrambler where
  state : UInt64
  polynomial : UInt64
  bitWidth : Int32
  seed : Int32

/-- `(1ULL << width) - 1`. -/
def widthMask (width : Int32) : UInt64 := (1 <<< UInt64.ofNat width.toNatClampNeg) - 1

/-- The seed, or the default one, within the register. -/
def startState (width seed : Int32) : UInt64 :=
  (if seed > 0 then UInt64.ofNat seed.toNatClampNeg else 0xACE1) &&& widthMask width

def scramblerInit (poly : UInt64) (width seed : Int32) : Scrambler :=
  ⟨startState width seed, poly, width, seed⟩

/-- The loop `while (taps)`. -/
def feedbackLoop (feedback : UInt8) (taps : UInt64) : UInt8 :=
  if taps = 0 then feedback else feedbackLoop (feedback ^^^ (taps &&& 1).toUInt8) (taps >>> 1)
termination_by taps.toNat
decreasing_by
  rename_i nonzero
  have pos : 0 < taps.toNat := Nat.pos_of_ne_zero fun h => nonzero (UInt64.toNat_inj.1 h)
  rw [UInt64.toNat_shiftRight, Nat.shiftRight_eq_div_pow]
  exact Nat.div_lt_self pos (by decide)

def scramblerNextBit (scr : Scrambler) : UInt8 × Scrambler :=
  if scr.bitWidth ≤ 0 then (0, scr)
  else
    let outBit := (scr.state &&& 1).toUInt8
    let mask := scr.polynomial &&& widthMask scr.bitWidth
    let feedback := feedbackLoop 0 (scr.state &&& mask)
    let state := scr.state >>> 1
    let state :=
      if feedback ≠ 0 then state ||| (1 <<< UInt64.ofNat (scr.bitWidth - 1).toNatClampNeg) else state
    (outBit, { scr with state := state })

/-- A round of the loop over the bits of a word. -/
def wordRound (p : UInt64 × Scrambler) (i : Nat) : UInt64 × Scrambler :=
  let (bit, scr) := scramblerNextBit p.2
  (p.1 ||| (bit.toUInt64 <<< UInt64.ofNat i), scr)

def scramblerNextWord (scr : Scrambler) : UInt64 × Scrambler :=
  (List.range 64).foldl wordRound (0, scr)

/-- A round of the loop over the bits of a byte. -/
def byteRound (p : UInt8 × Scrambler) (b : Nat) : UInt8 × Scrambler :=
  let (bit, scr) := scramblerNextBit p.2
  (p.1 ||| (bit <<< UInt8.ofNat b), scr)

/-- `prbs_byte`. -/
def prbsByte (scr : Scrambler) : UInt8 × Scrambler := (List.range 8).foldl byteRound (0, scr)

def scramblerProcess (scr : Scrambler) : List UInt8 → List UInt8 × Scrambler
  | [] => ([], scr)
  | b :: data =>
    let (prbs, scr) := prbsByte scr
    let (rest, scr) := scramblerProcess scr data
    ((b ^^^ prbs) :: rest, scr)

def scramblerReset (scr : Scrambler) : Scrambler :=
  { scr with state := startState scr.bitWidth scr.seed }

/-! ## Buffers -/

/-- One call of `scrambler_process` for every chunk. -/
def processChunks (scr : Scrambler) : List (List UInt8) → List UInt8 × Scrambler
  | [] => ([], scr)
  | chunk :: chunks =>
    let (out, scr) := scramblerProcess scr chunk
    let (rest, scr) := processChunks scr chunks
    (out ++ rest, scr)

/-- The first byte is processed first. -/
theorem scrambler_process_cons (scr : Scrambler) (b : UInt8) (data : List UInt8) :
    scramblerProcess scr (b :: data) =
      ((b ^^^ (prbsByte scr).1) :: (scramblerProcess (prbsByte scr).2 data).1,
        (scramblerProcess (prbsByte scr).2 data).2) := by
  simp only [scramblerProcess]

/-- Two buffers in turn are processed as one. -/
theorem scrambler_process_append (scr : Scrambler) (xs ys : List UInt8) :
    scramblerProcess scr (xs ++ ys) =
      ((scramblerProcess scr xs).1 ++ (scramblerProcess (scramblerProcess scr xs).2 ys).1,
        (scramblerProcess (scramblerProcess scr xs).2 ys).2) := by
  induction xs generalizing scr with
  | nil => rfl
  | cons x xs ih => simp [scramblerProcess, ih]

/-- The chunks do not matter. -/
theorem process_chunks_eq (scr : Scrambler) (chunks : List (List UInt8)) :
    processChunks scr chunks = scramblerProcess scr chunks.flatten := by
  induction chunks generalizing scr with
  | nil => rfl
  | cons chunk chunks ih =>
    rw [processChunks, List.flatten_cons, scrambler_process_append]
    simp [ih]

/-- Scrambling from the same state undoes scrambling. -/
theorem scrambler_process_process (scr : Scrambler) (data : List UInt8) :
    (scramblerProcess scr (scramblerProcess scr data).1).1 = data := by
  induction data generalizing scr with
  | nil => rfl
  | cons b data ih =>
    simp only [scrambler_process_cons, ih]
    rw [UInt8.xor_assoc, UInt8.xor_self, UInt8.xor_zero]

/-! ## The stream of bits -/

/-- The register after one bit. -/
def scramblerStep (scr : Scrambler) : Scrambler := (scramblerNextBit scr).2

/-- `n` bits of the stream, the first one lowest. -/
def streamNat (scr : Scrambler) : Nat → Nat
  | 0 => 0
  | n + 1 => streamNat scr n + 2 ^ n * (scramblerNextBit (scramblerStep^[n] scr)).1.toNat

/-- The output is a bit. -/
theorem next_bit_le_one (scr : Scrambler) : (scramblerNextBit scr).1.toNat ≤ 1 := by
  unfold scramblerNextBit
  split
  · exact Nat.zero_le 1
  · show (scr.state &&& 1).toUInt8.toNat ≤ 1
    rw [UInt64.toNat_toUInt8, UInt64.toNat_and]
    exact (Nat.mod_le _ _).trans Nat.and_le_right

/-- `n` bits are a number below `2 ^ n`. -/
theorem streamNat_lt (scr : Scrambler) (n : Nat) : streamNat scr n < 2 ^ n := by
  induction n with
  | zero => exact Nat.one_pos
  | succ n ih =>
    have le := Nat.mul_le_mul_left (2 ^ n) (next_bit_le_one (scramblerStep^[n] scr))
    rw [streamNat, Nat.pow_succ]
    omega

/-- The stream goes on from the register reached. -/
theorem streamNat_add (scr : Scrambler) (m n : Nat) :
    streamNat scr (m + n) = streamNat scr m + 2 ^ m * streamNat (scramblerStep^[m] scr) n := by
  induction n with
  | zero => rfl
  | succ n ih =>
    rw [← Nat.add_assoc, streamNat, ih, streamNat, Nat.mul_add, ← Nat.mul_assoc, ← Nat.pow_add,
      ← Function.iterate_add_apply, Nat.add_comm n m, Nat.add_assoc]

/-- Setting bit `n` of a word that has none from there on adds `2 ^ n`. -/
theorem toNat_or_bit {w : UInt64} {b : UInt8} {n : Nat} (lt : n < 64) (low : w.toNat < 2 ^ n)
    (bit : b.toNat ≤ 1) : (w ||| (b.toUInt64 <<< UInt64.ofNat n)).toNat = w.toNat + 2 ^ n * b.toNat := by
  have small : n % 2 ^ 64 % 64 = n := by rw [Nat.mod_eq_of_lt (lt.trans (by decide)), Nat.mod_eq_of_lt lt]
  have fits : b.toNat * 2 ^ n < 2 ^ 64 :=
    (Nat.mul_le_mul_right _ bit).trans_lt (by rw [Nat.one_mul]; exact Nat.pow_lt_pow_right (by decide) lt)
  rw [UInt64.toNat_or, UInt64.toNat_shiftLeft, UInt64.toNat_ofNat', small, UInt8.toNat_toUInt64,
    Nat.shiftLeft_eq, Nat.mod_eq_of_lt fits, Nat.mul_comm b.toNat, Nat.add_comm,
    Nat.two_pow_add_eq_or_of_lt low, Nat.or_comm]

/-- Setting bit `n` of a byte that has none from there on adds `2 ^ n`. -/
theorem toNat_or_bit_byte {w b : UInt8} {n : Nat} (lt : n < 8) (low : w.toNat < 2 ^ n)
    (bit : b.toNat ≤ 1) : (w ||| (b <<< UInt8.ofNat n)).toNat = w.toNat + 2 ^ n * b.toNat := by
  have small : n % 2 ^ 8 % 8 = n := by rw [Nat.mod_eq_of_lt (lt.trans (by decide)), Nat.mod_eq_of_lt lt]
  have fits : b.toNat * 2 ^ n < 2 ^ 8 :=
    (Nat.mul_le_mul_right _ bit).trans_lt (by rw [Nat.one_mul]; exact Nat.pow_lt_pow_right (by decide) lt)
  rw [UInt8.toNat_or, UInt8.toNat_shiftLeft, UInt8.toNat_ofNat', small,
    Nat.shiftLeft_eq, Nat.mod_eq_of_lt fits, Nat.mul_comm b.toNat, Nat.add_comm,
    Nat.two_pow_add_eq_or_of_lt low, Nat.or_comm]

/-- The first `n` rounds of the loop collect the first `n` bits. -/
theorem wordRounds (scr : Scrambler) {n : Nat} (le : n ≤ 64) :
    ((List.range n).foldl wordRound (0, scr)).1.toNat = streamNat scr n ∧
      ((List.range n).foldl wordRound (0, scr)).2 = scramblerStep^[n] scr := by
  induction n with
  | zero => exact ⟨rfl, rfl⟩
  | succ n ih =>
    obtain ⟨word, state⟩ := ih (Nat.le_of_succ_le le)
    rw [List.range_succ, List.foldl_append, List.foldl_cons, List.foldl_nil, wordRound, state]
    refine ⟨?_, (Function.iterate_succ_apply' scramblerStep n scr).symm⟩
    have low := streamNat_lt scr n
    rw [← word] at low
    rw [streamNat, ← word]
    exact toNat_or_bit le low (next_bit_le_one _)

/-- After `n` rounds of a byte, `n` bits of the stream are out and the register has stepped `n` times. -/
theorem byteRounds (scr : Scrambler) {n : Nat} (le : n ≤ 8) :
    ((List.range n).foldl byteRound (0, scr)).1.toNat = streamNat scr n ∧
      ((List.range n).foldl byteRound (0, scr)).2 = scramblerStep^[n] scr := by
  induction n with
  | zero => exact ⟨rfl, rfl⟩
  | succ n ih =>
    obtain ⟨byte, state⟩ := ih (Nat.le_of_succ_le le)
    rw [List.range_succ, List.foldl_append, List.foldl_cons, List.foldl_nil, byteRound, state]
    refine ⟨?_, (Function.iterate_succ_apply' scramblerStep n scr).symm⟩
    have low := streamNat_lt scr n
    rw [← byte] at low
    rw [streamNat, ← byte]
    exact toNat_or_bit_byte le low (next_bit_le_one _)

/-- A word is 64 bits of the stream. -/
theorem toNat_next_word (scr : Scrambler) : (scramblerNextWord scr).1.toNat = streamNat scr 64 :=
  (wordRounds scr (n := 64) (by decide)).1

/-- A word takes 64 steps. -/
theorem next_word_state (scr : Scrambler) : (scramblerNextWord scr).2 = scramblerStep^[64] scr :=
  (wordRounds scr (n := 64) (by decide)).2

/-- A byte is eight bits of the stream. -/
theorem toNat_prbsByte (scr : Scrambler) : (prbsByte scr).1.toNat = streamNat scr 8 :=
  (byteRounds scr (n := 8) (by decide)).1

/-- A byte takes eight steps. -/
theorem prbsByte_state (scr : Scrambler) : (prbsByte scr).2 = scramblerStep^[8] scr :=
  (byteRounds scr (n := 8) (by decide)).2

/-! ## Words and their bytes -/

/-- The bytes of a word, the lowest one first. -/
def littleEndian (w : UInt64) : List UInt8 :=
  (List.range 8).map fun i => (w >>> UInt64.ofNat (8 * i)).toUInt8

/-- `n` calls of `scrambler_next_word`. -/
def nextWords (scr : Scrambler) : Nat → List UInt64 × Scrambler
  | 0 => ([], scr)
  | n + 1 =>
    let (word, scr) := scramblerNextWord scr
    let (words, scr) := nextWords scr n
    (word :: words, scr)

/-- The bytes of a word, the lowest first, are those of the stream. -/
theorem word_byte (scr : Scrambler) {i : Nat} (lt : i < 8) :
    ((scramblerNextWord scr).1 >>> UInt64.ofNat (8 * i)).toUInt8 =
      (prbsByte (scramblerStep^[8 * i] scr)).1 := by
  have small : 8 * i % 2 ^ 64 % 64 = 8 * i := by
    rw [Nat.mod_eq_of_lt (by omega), Nat.mod_eq_of_lt (by omega)]
  have parts : streamNat scr 64 = streamNat scr (8 * i) +
      2 ^ (8 * i) * (streamNat (scramblerStep^[8 * i] scr) 8 +
        2 ^ 8 * streamNat (scramblerStep^[8] (scramblerStep^[8 * i] scr)) (56 - 8 * i)) := by
    rw [← streamNat_add, ← streamNat_add]
    congr 1
    omega
  apply UInt8.toNat_inj.1
  rw [UInt64.toNat_toUInt8, UInt64.toNat_shiftRight, UInt64.toNat_ofNat', small, toNat_next_word,
    toNat_prbsByte, Nat.shiftRight_eq_div_pow, parts,
    Nat.add_mul_div_left _ _ (Nat.two_pow_pos _), Nat.div_eq_of_lt (streamNat_lt scr (8 * i)),
    Nat.zero_add, Nat.add_mul_mod_self_left, Nat.mod_eq_of_lt (streamNat_lt _ 8)]

/-- Zeros come out as the bytes of the stream. -/
theorem process_zeros (scr : Scrambler) (n : Nat) :
    scramblerProcess scr (List.replicate n 0) =
      ((List.range n).map fun i => (prbsByte (scramblerStep^[8 * i] scr)).1, scramblerStep^[8 * n] scr) := by
  induction n generalizing scr with
  | zero => rfl
  | succ n ih =>
    have later : ∀ i, scramblerStep^[8 * i] (scramblerStep^[8] scr) = scramblerStep^[8 * (i + 1)] scr := by
      intro i
      rw [← Function.iterate_add_apply, Nat.mul_succ]
    rw [List.replicate_succ, scrambler_process_cons, prbsByte_state, ih, List.range_succ_eq_map,
      List.map_cons, List.map_map, UInt8.zero_xor, Nat.mul_zero, Function.iterate_zero_apply]
    simp only [later, Function.comp_def, Nat.succ_eq_add_one]

/-- Eight zero bytes come out as the next word. -/
theorem process_word (scr : Scrambler) :
    scramblerProcess scr (List.replicate 8 0) =
      (littleEndian (scramblerNextWord scr).1, (scramblerNextWord scr).2) := by
  have bytes : ((List.range 8).map fun i => (prbsByte (scramblerStep^[8 * i] scr)).1) =
      littleEndian (scramblerNextWord scr).1 := by
    apply List.map_congr_left
    intro i mem
    exact (word_byte scr (List.mem_range.1 mem)).symm
  rw [process_zeros, next_word_state, bytes]

/-- Eight zeros for each word come out as the bytes of the words. -/
theorem process_words (scr : Scrambler) (n : Nat) :
    scramblerProcess scr (List.replicate (8 * n) 0) =
      ((nextWords scr n).1.flatMap littleEndian, (nextWords scr n).2) := by
  induction n generalizing scr with
  | zero => rfl
  | succ n ih =>
    rw [Nat.mul_succ, Nat.add_comm, ← List.replicate_append_replicate, scrambler_process_append, process_word, ih]
    simp only [nextWords, List.flatMap_cons]

/-! ## The range of the register -/

/-- The calls a scrambler takes. -/
inductive ScramblerOp where
  | nextBit
  | nextWord
  | process (data : List UInt8)
  | reset

def ScramblerOp.run (scr : Scrambler) : ScramblerOp → Scrambler
  | .nextBit => (scramblerNextBit scr).2
  | .nextWord => (scramblerNextWord scr).2
  | .process data => (scramblerProcess scr data).2
  | .reset => scramblerReset scr

def scramblerRun (scr : Scrambler) (ops : List ScramblerOp) : Scrambler := ops.foldl ScramblerOp.run scr

/-- A scrambler of these parameters with its state in the register. -/
structure InRange (poly : UInt64) (width seed : Int32) (scr : Scrambler) : Prop where
  polynomial : scr.polynomial = poly
  bitWidth : scr.bitWidth = width
  seed : scr.seed = seed
  state : scr.state.toNat < 2 ^ width.toNatClampNeg

section
variable {poly : UInt64} {width seed : Int32} {scr : Scrambler}

/-- The mask of a width up to 63 has that many ones. -/
theorem toNat_widthMask (le : width.toNatClampNeg ≤ 63) :
    (widthMask width).toNat = 2 ^ width.toNatClampNeg - 1 := by
  have small : width.toNatClampNeg % 2 ^ 64 % 64 = width.toNatClampNeg := by
    rw [Nat.mod_eq_of_lt (by omega), Nat.mod_eq_of_lt (by omega)]
  have fits : 2 ^ width.toNatClampNeg < 2 ^ 64 := Nat.pow_lt_pow_right (by decide) (by omega)
  have shifted : ((1 : UInt64) <<< UInt64.ofNat width.toNatClampNeg).toNat = 2 ^ width.toNatClampNeg := by
    rw [UInt64.toNat_shiftLeft, UInt64.toNat_ofNat', small, UInt64.toNat_one, Nat.one_shiftLeft,
      Nat.mod_eq_of_lt fits]
  have one : (1 : UInt64) ≤ 1 <<< UInt64.ofNat width.toNatClampNeg := by
    rw [UInt64.le_iff_toNat_le, shifted]
    exact Nat.one_le_two_pow
  rw [widthMask, UInt64.toNat_sub_of_le _ _ one, shifted]
  rfl

/-- The first state fits the register. -/
theorem startState_lt (le : width.toNatClampNeg ≤ 63) (seed : Int32) :
    (startState width seed).toNat < 2 ^ width.toNatClampNeg := by
  have mask : (startState width seed).toNat ≤ (widthMask width).toNat := by
    rw [startState, UInt64.toNat_and]
    exact Nat.and_le_right
  rw [toNat_widthMask le] at mask
  have := Nat.two_pow_pos width.toNatClampNeg
  omega

/-- A scrambler starts in range. -/
theorem InRange.init (le : width.toNatClampNeg ≤ 63) :
    InRange poly width seed (scramblerInit poly width seed) :=
  ⟨rfl, rfl, rfl, startState_lt le seed⟩

/-- The parameters are all that a reset reads. -/
theorem InRange.reset (h : InRange poly width seed scr) :
    scramblerReset scr = scramblerInit poly width seed := by
  obtain ⟨state, polynomial, bitWidth, seed⟩ := scr
  obtain ⟨rfl, rfl, rfl, -⟩ := h
  rfl

/-- Shifted down, with or without a new top bit. -/
theorem InRange.step (lo : 1 ≤ width) (hi : width.toNatClampNeg ≤ 63) (h : InRange poly width seed scr) :
    InRange poly width seed (scramblerStep scr) := by
  obtain ⟨polynomial, rfl, seed, lt⟩ := h
  have pos : 1 ≤ scr.bitWidth.toNatClampNeg := Int32.toNatClampNeg_le lo
  have top : (scr.bitWidth - 1).toNatClampNeg = scr.bitWidth.toNatClampNeg - 1 :=
    Int32.toNatClampNeg_sub_of_le (by decide) lo
  have down : (scr.state >>> 1).toNat < 2 ^ scr.bitWidth.toNatClampNeg := by
    rw [UInt64.toNat_shiftRight, Nat.shiftRight_eq_div_pow]
    exact (Nat.div_le_self _ _).trans_lt lt
  unfold scramblerStep scramblerNextBit
  split
  · exact ⟨polynomial, rfl, seed, lt⟩
  refine ⟨polynomial, rfl, seed, ?_⟩
  dsimp only
  split
  · rw [UInt64.toNat_or, top]
    refine Nat.or_lt_two_pow down ?_
    have small : (scr.bitWidth.toNatClampNeg - 1) % 2 ^ 64 % 64 = scr.bitWidth.toNatClampNeg - 1 := by
      rw [Nat.mod_eq_of_lt (by omega), Nat.mod_eq_of_lt (by omega)]
    rw [UInt64.toNat_shiftLeft, UInt64.toNat_ofNat', small, UInt64.toNat_one, Nat.one_shiftLeft]
    exact (Nat.mod_le _ _).trans_lt (Nat.pow_lt_pow_right (by decide) (by omega))
  · exact down

/-- The register is in range after any number of steps. -/
theorem InRange.steps (lo : 1 ≤ width) (hi : width.toNatClampNeg ≤ 63) (h : InRange poly width seed scr)
    (n : Nat) : InRange poly width seed (scramblerStep^[n] scr) := by
  induction n with
  | zero => exact h
  | succ n ih =>
    rw [Function.iterate_succ_apply']
    exact ih.step lo hi

/-- The register is in range after a buffer. -/
theorem InRange.process (lo : 1 ≤ width) (hi : width.toNatClampNeg ≤ 63) (h : InRange poly width seed scr)
    (data : List UInt8) : InRange poly width seed (scramblerProcess scr data).2 := by
  induction data generalizing scr with
  | nil => exact h
  | cons b data ih =>
    rw [scrambler_process_cons, prbsByte_state]
    exact ih (h.steps lo hi 8)

/-- The register is in range after each call. -/
theorem InRange.op (lo : 1 ≤ width) (hi : width.toNatClampNeg ≤ 63) (h : InRange poly width seed scr)
    (op : ScramblerOp) : InRange poly width seed (op.run scr) := by
  cases op with
  | nextBit => exact h.step lo hi
  | nextWord =>
    rw [ScramblerOp.run, next_word_state]
    exact h.steps lo hi 64
  | process data => exact h.process lo hi data
  | reset =>
    rw [ScramblerOp.run, h.reset]
    exact .init hi

/-- The register is in range after any calls. -/
theorem InRange.run (lo : 1 ≤ width) (hi : width.toNatClampNeg ≤ 63) (h : InRange poly width seed scr)
    (ops : List ScramblerOp) : InRange poly width seed (scramblerRun scr ops) := by
  induction ops generalizing scr with
  | nil => exact h
  | cons op ops ih => exact ih (h.op lo hi op)

end

/-! ## Two scramblers -/

/-- Initialised, or reset after any calls. -/
inductive Fresh (poly : UInt64) (width seed : Int32) : Scrambler → Prop where
  | init : Fresh poly width seed (scramblerInit poly width seed)
  | reset (ops : List ScramblerOp) :
      Fresh poly width seed (scramblerReset (scramblerRun (scramblerInit poly width seed) ops))

/-- A fresh scrambler is the one that `scrambler_init` makes. -/
theorem Fresh.eq_init {poly : UInt64} {width seed : Int32} {scr : Scrambler} (lo : 1 ≤ width)
    (hi : width.toNatClampNeg ≤ 63) (h : Fresh poly width seed scr) :
    scr = scramblerInit poly width seed := by
  cases h with
  | init => rfl
  | reset ops => exact ((InRange.init hi).run lo hi ops).reset

/-- What a scrambler of these parameters does to buffers. -/
structure Scrambles (poly : UInt64) (width seed : Int32) : Prop where
  /-- A fresh scrambler undoes another one, whatever the two sequences of chunks. -/
  restores : ∀ a b, Fresh poly width seed a → Fresh poly width seed b → ∀ chunks chunks',
    chunks'.flatten = (processChunks a chunks).1 → (processChunks b chunks').1 = chunks.flatten
  /-- Only the bytes of the chunks matter. -/
  chunking : ∀ (scr : Scrambler) (chunks chunks' : List (List UInt8)), chunks.flatten = chunks'.flatten →
    processChunks scr chunks = processChunks scr chunks'
  /-- The keystream is made of the words' bytes. -/
  keystream : ∀ (ops : List ScramblerOp) (n : Nat),
    let scr := scramblerRun (scramblerInit poly width seed) ops
    scramblerProcess scr (List.replicate (8 * n) 0) =
      ((nextWords scr n).1.flatMap littleEndian, (nextWords scr n).2)
  /-- Every output byte is the input byte and one of the keystream. -/
  masks : ∀ (scr : Scrambler) (data : List UInt8),
    (scramblerProcess scr data).1 =
      List.zipWith (· ^^^ ·) data (scramblerProcess scr (List.replicate data.length 0)).1
  range : ∀ ops : List ScramblerOp,
    (scramblerRun (scramblerInit poly width seed) ops).state.toNat < 2 ^ width.toNatClampNeg

/-- The output is the input under exclusive or with the stream. -/
theorem process_eq_zipWith (scr : Scrambler) (data : List UInt8) :
    (scramblerProcess scr data).1 =
      List.zipWith (· ^^^ ·) data (scramblerProcess scr (List.replicate data.length 0)).1 := by
  induction data generalizing scr with
  | nil => rfl
  | cons b data ih =>
    rw [List.length_cons, List.replicate_succ, scrambler_process_cons, scrambler_process_cons,
      List.zipWith_cons_cons, ← ih, UInt8.zero_xor]

theorem scrambler_scrambles (poly : UInt64) (width seed : Int32) (lo : 1 ≤ width) (hi : width ≤ 63) :
    Scrambles poly width seed := by
  have le : width.toNatClampNeg ≤ 63 := Int32.toNatClampNeg_le hi
  refine ⟨?_, ?_, ?_, process_eq_zipWith, ?_⟩
  · intro a b freshA freshB chunks chunks' eq
    rw [freshA.eq_init lo le, process_chunks_eq] at eq
    rw [freshB.eq_init lo le, process_chunks_eq, eq, scrambler_process_process]
  · intro scr chunks chunks' eq
    rw [process_chunks_eq, process_chunks_eq, eq]
  · intro ops n
    exact process_words _ n
  · intro ops
    exact ((InRange.init le).run lo le ops).state

/-- The parameters of PRBS-7. -/
theorem scrambler_scrambles_prbs7 : Scrambles 0xC1 7 0x5A :=
  scrambler_scrambles 0xC1 7 0x5A (by decide) (by decide)

end MiniHardware.Network
