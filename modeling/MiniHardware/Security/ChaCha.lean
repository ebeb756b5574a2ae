import Mathlib.Data.Fintype.Basic
import Mathlib.Tactic.FinCases
import MiniHardware.Lib.ChaCha20

/-!
# The random generator (`mini-hardware-security/src/hw_crypto.c`)

The ChaCha20 block on an array of sixteen words, and the generator that hands
out its bytes. The static state of the generator is a record, all zero before
the first request.
-/

namespace MiniHardware.Security
open Lib

/-! ## The block -/

def rotl32 (x n : UInt32) : UInt32 := (x <<< n) ||| (x >>> (32 - n))

abbrev ChachaWords := Vector UInt32 16

/-- One of the eight groups of four lines: `a += b; d ^= a; d <<<= 16; c += d; ...`. -/
def chachaQuarter (w : ChachaWords) (a b c d : Fin 16) : ChachaWords :=
  let w := w.set a (w.get a + w.get b)
  let w := w.set d (w.get d ^^^ w.get a)
  let w := w.set d (rotl32 (w.get d) 16)
  let w := w.set c (w.get c + w.get d)
  let w := w.set b (w.get b ^^^ w.get c)
  let w := w.set b (rotl32 (w.get b) 12)
  let w := w.set a (w.get a + w.get b)
  let w := w.set d (w.get d ^^^ w.get a)
  let w := w.set d (rotl32 (w.get d) 8)
  let w := w.set c (w.get c + w.get d)
  let w := w.set b (w.get b ^^^ w.get c)
  w.set b (rotl32 (w.get b) 7)

/-- The body of the loop over the rounds. -/
def chachaDoubleRound (w : ChachaWords) : ChachaWords :=
  let w := chachaQuarter w 0 4 8 12
  let w := chachaQuarter w 1 5 9 13
  let w := chachaQuarter w 2 6 10 14
  let w := chachaQuarter w 3 7 11 15
  let w := chachaQuarter w 0 5 10 15
  let w := chachaQuarter w 1 6 11 12
  let w := chachaQuarter w 2 7 8 13
  chachaQuarter w 3 4 9 14

/-- `MINI_HWSEC_CHACHA_ROUNDS`. -/
def chachaRounds : Nat := 20

/-- `mini_hwsec_chacha_block`. -/
def chachaBlock (key : Vector UInt32 8) (counter : UInt32) (nonce : Vector UInt32 3) : ChachaWords :=
  let state : ChachaWords := #v[0x61707865, 0x3320646e, 0x79622d32, 0x6b206574,
    key.get 0, key.get 1, key.get 2, key.get 3, key.get 4, key.get 5, key.get 6, key.get 7, counter, nonce[0], nonce[1], nonce[2]]
  let working := (List.range (chachaRounds / 2)).foldl (fun w _ => chachaDoubleRound w) state
  Vector.ofFn fun i => state.get i + working.get i

/-! ## The generator -/

/-- `mini_hwsec_global_drbg`, with the flag `seeded` of `mini_hwsec_drbg_init`. -/
structure ChachaDrbg where
  seeded : Bool
  key : Vector UInt32 8
  counter : UInt32
  nonce : Vector UInt32 3
  buffer : Vector UInt8 64
  bufferPos : Nat

/-- The static state before the first request. -/
def zeroDrbg : ChachaDrbg :=
  ⟨false, Vector.replicate 8 0, 0, Vector.replicate 3 0, Vector.replicate 64 0, 0⟩

def drbgSeed : Vector UInt8 32 :=
  let seed := Vector.replicate 32 (0xAB : UInt8)
  let seed := (((seed.set 0 0xDE).set 1 0xAD).set 2 0xBE).set 3 0xEF
  (((seed.set 4 0xCA).set 5 0xFE).set 6 0xBA).set 7 0xBE

def drbgKey : Vector UInt32 8 :=
  Vector.ofFn fun i =>
    (drbgSeed[i.val * 4].toUInt32 <<< 24) ||| (drbgSeed[i.val * 4 + 1].toUInt32 <<< 16) |||
      (drbgSeed[i.val * 4 + 2].toUInt32 <<< 8) ||| drbgSeed[i.val * 4 + 3].toUInt32

def drbgNonce : Vector UInt32 3 := #v[0x12345678, 0x9ABCDEF0, 0x0FEDCBA9]

/-- `mini_hwsec_drbg_init`. -/
def drbgInit (d : ChachaDrbg) : ChachaDrbg :=
  if d.seeded then d
  else { d with seeded := true, key := drbgKey, counter := 0, nonce := drbgNonce, bufferPos := 64 }

/-- The bytes of a block, as the loop stores them in the buffer. -/
def blockBytes (block : ChachaWords) : Vector UInt8 64 :=
  Vector.ofFn fun p => (block[p.val / 4] >>> UInt32.ofNat (8 * (p.val % 4))).toUInt8

/-- The next block, when all of the buffer has been handed out. -/
def refill (d : ChachaDrbg) : ChachaDrbg :=
  if 64 ≤ d.bufferPos then
    { d with
      buffer := blockBytes (chachaBlock d.key d.counter d.nonce)
      counter := d.counter + 1
      bufferPos := 0 }
  else d

/-- There is a byte to hand out after a refill. -/
theorem refill_bufferPos (d : ChachaDrbg) : (refill d).bufferPos < 64 := by
  rw [refill]
  split
  · exact Nat.zero_lt_succ 63
  · omega

/-- The bytes copied at once when `left` are wanted. -/
def chunkSize (d : ChachaDrbg) (left : Nat) : Nat :=
  if left < 64 - d.bufferPos then left else 64 - d.bufferPos

/-- A chunk is no more than is wanted and no more than is left. -/
theorem chunkSize_le (d : ChachaDrbg) (left : Nat) : chunkSize d left ≤ left ∧ chunkSize d left ≤ 64 - d.bufferPos := by
  rw [chunkSize]
  split <;> constructor <;> omega

/-- A chunk is not empty while both are there. -/
theorem chunkSize_pos {d : ChachaDrbg} (room : d.bufferPos < 64) {left : Nat} (pos : 0 < left) :
    0 < chunkSize d left := by
  rw [chunkSize]
  split <;> omega

/-- The loop of `mini_hwsec_random` from `offset` on: what it appends to `buf`, and the state after it. -/
def randomLoop (len offset : Nat) (d : ChachaDrbg) : List UInt8 × ChachaDrbg :=
  if offset < len then
    let filled := refill d
    let chunk := chunkSize filled (len - offset)
    let bytes := (filled.buffer.toList.drop filled.bufferPos).take chunk
    let rest := randomLoop len (offset + chunk) { filled with bufferPos := filled.bufferPos + chunk }
    (bytes ++ rest.1, rest.2)
  else ([], d)
termination_by len - offset
decreasing_by
  have pos := chunkSize_pos (refill_bufferPos d) (Nat.sub_pos_of_lt ‹offset < len›)
  omega

/-- `mini_hwsec_random`. -/
def hwsecRandom (d : ChachaDrbg) (len : Nat) : List UInt8 × ChachaDrbg := randomLoop len 0 (drbgInit d)

/-- The outputs of a sequence of requests. -/
def hwsecRandoms (d : ChachaDrbg) : List Nat → List (List UInt8)
  | [] => []
  | len :: lens => (hwsecRandom d len).1 :: hwsecRandoms (hwsecRandom d len).2 lens

/-! ## The block is ChaCha20 -/

/-- The rotation by 16 is the library's. -/
@[simp] theorem rotl32_16 (x : UInt32) : rotl32 x 16 = ChaCha20.rotl 16 x := rfl

/-- The rotation by 12. -/
@[simp] theorem rotl32_12 (x : UInt32) : rotl32 x 12 = ChaCha20.rotl 12 x := rfl

/-- The rotation by 8. -/
@[simp] theorem rotl32_8 (x : UInt32) : rotl32 x 8 = ChaCha20.rotl 8 x := rfl

/-- The rotation by 7. -/
@[simp] theorem rotl32_7 (x : UInt32) : rotl32 x 7 = ChaCha20.rotl 7 x := rfl

section
variable (w : ChachaWords) {l : Fin 4 → Fin 16}

/-- On four cells of their own, the code's lines are a quarter round. -/
theorem chachaQuarter_lane (inj : Function.Injective l) (k : Fin 4) :
    (chachaQuarter w (l 0) (l 1) (l 2) (l 3)).get (l k) = ChaCha20.quarter (fun k => w.get (l k)) k := by
  have ne : ∀ i j : Fin 4, (l i = l j) = (i = j) := fun i j => propext inj.eq_iff
  match k with
  | 0 => simp [chachaQuarter, ChaCha20.quarter, get_set, ne]
  | 1 => simp [chachaQuarter, ChaCha20.quarter, get_set, ne]
  | 2 => simp [chachaQuarter, ChaCha20.quarter, get_set, ne]
  | 3 => simp [chachaQuarter, ChaCha20.quarter, get_set, ne]

/-- The other cells stay. -/
theorem chachaQuarter_frame {x : Fin 16} (out : ∀ k, x ≠ l k) :
    (chachaQuarter w (l 0) (l 1) (l 2) (l 3)).get x = w.get x := by
  simp only [chachaQuarter, get_set, if_neg (out _)]

end

/-- The words of the array as the rows of the state. -/
def rows (w : ChachaWords) : ChaCha20.State := fun i j => w.get ⟨4 * i.val + j.val, by omega⟩

/-- Word `k` of column `i`. -/
def columnCell (k i : Fin 4) : Fin 16 := ⟨4 * k.val + i.val, by omega⟩

/-- Word `k` of diagonal `i`. -/
def diagonalCell (k i : Fin 4) : Fin 16 := columnCell k (i + k)

/-- Quarter rounds of four lanes, one after the other. -/
def laneRound (cell : Fin 4 → Fin 4 → Fin 16) (w : ChachaWords) : ChachaWords :=
  ([0, 1, 2, 3] : List (Fin 4)).foldl
    (fun w i => chachaQuarter w (cell 0 i) (cell 1 i) (cell 2 i) (cell 3 i)) w

/-- The eight groups of lines are a round of columns and one of diagonals. -/
theorem chachaDoubleRound_eq (w : ChachaWords) :
    chachaDoubleRound w = laneRound diagonalCell (laneRound columnCell w) := by
  simp [chachaDoubleRound, laneRound, diagonalCell, columnCell]

/-- The columns have no cell in common. -/
theorem columnCell_inj {k k' i i' : Fin 4} (same : columnCell k i = columnCell k' i') : k = k' ∧ i = i' := by
  have val := Fin.val_eq_of_eq same
  simp only [columnCell] at val
  exact ⟨Fin.ext (by omega), Fin.ext (by omega)⟩

/-- The diagonals have no cell in common. -/
theorem diagonalCell_inj {k k' i i' : Fin 4} (same : diagonalCell k i = diagonalCell k' i') :
    k = k' ∧ i = i' := by
  obtain ⟨rfl, turned⟩ := columnCell_inj same
  have cancel : ∀ i i' k : Fin 4, i + k = i' + k → i = i' := by decide
  exact ⟨rfl, cancel i i' k turned⟩

/-- All lanes are transformed at once. -/
theorem get_laneRound {cell : Fin 4 → Fin 4 → Fin 16}
    (inj : ∀ {k k' i i'}, cell k i = cell k' i' → k = k' ∧ i = i') (w : ChachaWords) (k i : Fin 4) :
    (laneRound cell w).get (cell k i) = ChaCha20.quarter (fun k => w.get (cell k i)) k := by
  have own : ∀ (w : ChachaWords) i k,
      (chachaQuarter w (cell 0 i) (cell 1 i) (cell 2 i) (cell 3 i)).get (cell k i) =
        ChaCha20.quarter (fun k => w.get (cell k i)) k := by
    intro w i k
    exact chachaQuarter_lane w (l := fun k => cell k i) (fun k k' same => (inj same).1) k
  have frame : ∀ (w : ChachaWords) i a, (∀ k, a ≠ cell k i) →
      (chachaQuarter w (cell 0 i) (cell 1 i) (cell 2 i) (cell 3 i)).get a = w.get a := by
    intro w i a out
    exact chachaQuarter_frame w (l := fun k => cell k i) out
  have mem : i ∈ ([0, 1, 2, 3] : List (Fin 4)) := by
    revert i
    decide
  exact ChaCha20.foldl_lanes (fun k k' i i' same => (inj same).2) own frame (by decide) mem w k

/-- The code's first four groups are the round of columns. -/
theorem rows_columnRound (w : ChachaWords) :
    rows (laneRound columnCell w) = ChaCha20.columnRound (rows w) := by
  funext i j
  exact get_laneRound columnCell_inj w i j

/-- The code's last four groups are the round of diagonals. -/
theorem rows_diagonalRound (w : ChachaWords) :
    rows (laneRound diagonalCell w) = ChaCha20.diagonalRound (rows w) := by
  funext i j
  have place : columnCell i j = diagonalCell i (j - i) := by
    have back : ∀ i j : Fin 4, j - i + i = j := by decide
    rw [diagonalCell, back]
  show (laneRound diagonalCell w).get (columnCell i j) = _
  rw [place, get_laneRound diagonalCell_inj]
  rfl

/-- The body of the loop is a double round. -/
theorem rows_chachaDoubleRound (w : ChachaWords) :
    rows (chachaDoubleRound w) = ChaCha20.doubleRound (rows w) := by
  rw [chachaDoubleRound_eq, rows_diagonalRound, rows_columnRound]
  rfl

/-- The loop repeats the double round. -/
theorem rows_rounds (n : Nat) (w : ChachaWords) :
    rows ((List.range n).foldl (fun w _ => chachaDoubleRound w) w) = ChaCha20.doubleRound^[n] (rows w) := by
  induction n with
  | zero => rfl
  | succ n ih =>
    rw [List.range_succ, List.foldl_append, List.foldl_cons, List.foldl_nil, rows_chachaDoubleRound, ih, Function.iterate_succ_apply']

/-- The array `mini_hwsec_chacha_block` starts from is the initial state. -/
theorem rows_start (key : Vector UInt32 8) (counter : UInt32) (nonce : Vector UInt32 3) :
    rows #v[0x61707865, 0x3320646e, 0x79622d32, 0x6b206574,
      key.get 0, key.get 1, key.get 2, key.get 3, key.get 4, key.get 5, key.get 6, key.get 7, counter, nonce[0], nonce[1], nonce[2]] =
      ChaCha20.initial key.get counter nonce.get := by
  funext i j
  fin_cases i <;> fin_cases j <;> rfl

/-- The block is the ChaCha20 block. -/
theorem rows_chachaBlock (key : Vector UInt32 8) (counter : UInt32) (nonce : Vector UInt32 3) :
    rows (chachaBlock key counter nonce) = ChaCha20.block key.get counter nonce.get := by
  funext i j
  rw [ChaCha20.block, ← rows_start, ← rows_rounds]
  show Vector.get (Vector.ofFn _) _ = _
  rw [get_eq, Vector.getElem_ofFn]
  rfl

/-! ## The output is the keystream -/

/-- Byte `i` of the keystream the generator hands out. -/
def drbgStream (i : Nat) : UInt8 := ChaCha20.keystream drbgKey.get drbgNonce.get i

/-- The bytes of block `n` are those of the keystream from `64 * n` on. -/
theorem blockBytes_getElem (n : Nat) {p : Nat} (lt : p < 64) :
    (blockBytes (chachaBlock drbgKey (UInt32.ofNat n) drbgNonce))[p] = drbgStream (64 * n + p) := by
  have number : (64 * n + p) / 64 = n := by omega
  have place : (64 * n + p) % 64 = p := by omega
  have word : 4 * (p / 16) + p / 4 % 4 = p / 4 := by omega
  rw [drbgStream, ChaCha20.keystream, ← rows_chachaBlock, blockBytes, Vector.getElem_ofFn]
  simp only [ChaCha20.serialize, rows, number, place, word, get_mk]

/-- `i` bytes have been handed out, and the rest of the buffer comes next. -/
structure StreamAt (i : Nat) (d : ChachaDrbg) : Prop where
  seeded : d.seeded = true
  key : d.key = drbgKey
  nonce : d.nonce = drbgNonce
  pos : d.bufferPos ≤ 64
  counter : ∃ n, i + (64 - d.bufferPos) = 64 * n ∧ d.counter = UInt32.ofNat n
  buffer : ∀ p (lt : p < 64), d.bufferPos ≤ p → d.buffer[p] = drbgStream (i + (p - d.bufferPos))

/-- The generator starts at byte 0. -/
theorem streamAt_init : StreamAt 0 (drbgInit zeroDrbg) where
  seeded := rfl
  key := rfl
  nonce := rfl
  pos := Nat.le_refl 64
  counter := ⟨0, rfl, rfl⟩
  buffer _ lt le := absurd lt (Nat.not_lt.2 le)

variable {i : Nat} {d : ChachaDrbg}

/-- A seeded generator is not seeded again. -/
theorem StreamAt.drbgInit (h : StreamAt i d) : drbgInit d = d := by
  rw [Security.drbgInit, if_pos h.seeded]

/-- A refill goes on with the next block of the stream. -/
theorem StreamAt.refill (h : StreamAt i d) : StreamAt i (refill d) := by
  rw [Security.refill]
  split
  case isFalse => exact h
  case isTrue full =>
    have pos := h.pos
    obtain ⟨n, whole, counter⟩ := h.counter
    have start : i = 64 * n := by omega
    refine ⟨h.seeded, h.key, h.nonce, Nat.zero_le 64, ⟨n + 1, ?_, ?_⟩, ?_⟩
    · show i + (64 - 0) = 64 * (n + 1)
      omega
    · show d.counter + 1 = UInt32.ofNat (n + 1)
      rw [counter, UInt32.ofNat_add]
      rfl
    · intro p lt le
      show (blockBytes (chachaBlock d.key d.counter d.nonce))[p] = _
      simp only [h.key, h.nonce, counter, blockBytes_getElem n lt, start]
      rfl

/-- Handing out a part of the buffer. -/
theorem StreamAt.advance (h : StreamAt i d) {chunk : Nat} (le : chunk ≤ 64 - d.bufferPos) :
    StreamAt (i + chunk) { d with bufferPos := d.bufferPos + chunk } := by
  have pos := h.pos
  obtain ⟨n, whole, counter⟩ := h.counter
  refine ⟨h.seeded, h.key, h.nonce, ?_, ⟨n, ?_, counter⟩, ?_⟩
  · show d.bufferPos + chunk ≤ 64
    omega
  · show i + chunk + (64 - (d.bufferPos + chunk)) = 64 * n
    omega
  · intro p lt after
    have after : d.bufferPos + chunk ≤ p := after
    have place : i + (p - d.bufferPos) = i + chunk + (p - (d.bufferPos + chunk)) := by omega
    rw [← place]
    exact h.buffer p lt (by omega)

/-- A chunk of the buffer is the next bytes of the stream. -/
theorem StreamAt.bytes (h : StreamAt i d) {chunk : Nat} (le : chunk ≤ 64 - d.bufferPos) :
    (d.buffer.toList.drop d.bufferPos).take chunk = (List.range' i chunk).map drbgStream := by
  apply List.ext_getElem
  · simp only [List.length_take, List.length_drop, Vector.length_toList, List.length_map, List.length_range']
    omega
  · intro k lt lt'
    simp only [List.length_map, List.length_range'] at lt'
    rw [List.getElem_take, List.getElem_drop, Vector.getElem_toList, h.buffer _ (by omega) (by omega),
      List.getElem_map, List.getElem_range']
    congr 1
    omega

/-- The loop hands out the next bytes, however the buffer splits them. -/
theorem randomLoop_spec (len offset : Nat) (h : StreamAt i d) :
    (randomLoop len offset d).1 = (List.range' i (len - offset)).map drbgStream ∧
      StreamAt (i + (len - offset)) (randomLoop len offset d).2 := by
  induction offset, d using randomLoop.induct len generalizing i with
  | case1 offset d more filled chunk =>
    rename_i ih
    have fits : chunk ≤ len - offset ∧ chunk ≤ 64 - filled.bufferPos := chunkSize_le filled (len - offset)
    have at' : StreamAt i filled := h.refill
    obtain ⟨bytes, state⟩ := ih (at'.advance fits.2)
    have unfolded : randomLoop len offset d =
        ((filled.buffer.toList.drop filled.bufferPos).take chunk ++
          (randomLoop len (offset + chunk) { filled with bufferPos := filled.bufferPos + chunk }).1,
          (randomLoop len (offset + chunk) { filled with bufferPos := filled.bufferPos + chunk }).2) := by
      rw [randomLoop, if_pos more]
    have rest : len - offset = chunk + (len - (offset + chunk)) := by omega
    rw [unfolded, bytes, at'.bytes fits.2, rest, ← List.range'_append_1, List.map_append]
    refine ⟨rfl, ?_⟩
    rw [← Nat.add_assoc]
    exact state
  | case2 offset d done =>
    have nothing : len - offset = 0 := by omega
    rw [randomLoop, if_neg done, nothing]
    exact ⟨rfl, h⟩

/-- A request is answered with the next bytes. -/
theorem hwsecRandom_spec (len : Nat) (h : StreamAt i (drbgInit d)) :
    (hwsecRandom d len).1 = (List.range' i len).map drbgStream ∧
      StreamAt (i + len) (drbgInit (hwsecRandom d len).2) := by
  obtain ⟨bytes, state⟩ := randomLoop_spec len 0 h
  rw [Nat.sub_zero] at bytes state
  rw [hwsecRandom, state.drbgInit]
  exact ⟨bytes, state⟩

/-- However the requests are split, no byte is changed, repeated or skipped. -/
theorem hwsecRandoms_flatten (lens : List Nat) (h : StreamAt i (drbgInit d)) :
    (hwsecRandoms d lens).flatten = (List.range' i lens.sum).map drbgStream := by
  induction lens generalizing i d with
  | nil => rfl
  | cons len lens ih =>
    obtain ⟨bytes, state⟩ := hwsecRandom_spec len h
    rw [hwsecRandoms, List.flatten_cons, ih state, bytes, List.sum_cons, ← List.range'_append_1,
      List.map_append]

/-- Each request is answered in full. -/
theorem hwsecRandoms_length (lens : List Nat) (h : StreamAt i (drbgInit d)) :
    (hwsecRandoms d lens).map List.length = lens := by
  induction lens generalizing i d with
  | nil => rfl
  | cons len lens ih =>
    obtain ⟨bytes, state⟩ := hwsecRandom_spec len h
    rw [hwsecRandoms, List.map_cons, ih state, bytes, List.length_map, List.length_range']

/-- The block function is ChaCha20 for all keys, counters and nonces, and the generator
hands out the bytes of its blocks 0, 1, 2, ... one after the other. -/
theorem hwsecRandom_keystream :
    (∀ key counter nonce, rows (chachaBlock key counter nonce) = ChaCha20.block key.get counter nonce.get) ∧
      ∀ lens : List Nat,
        (hwsecRandoms zeroDrbg lens).map List.length = lens ∧
          (hwsecRandoms zeroDrbg lens).flatten =
            (List.range lens.sum).map (ChaCha20.keystream drbgKey.get drbgNonce.get) := by
  refine ⟨rows_chachaBlock, ?_⟩
  intro lens
  refine ⟨hwsecRandoms_length lens streamAt_init, ?_⟩
  rw [hwsecRandoms_flatten lens streamAt_init, List.range_eq_range']
  rfl

end MiniHardware.Security
