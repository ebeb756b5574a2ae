import MiniHardware.Accel.Csr
import MiniHardware.Lib.Tiles
import Mathlib.Algebra.BigOperators.Pi

/-!
# Block sparse rows (`mini-ai-accelerator/src/sparse_accel.c`)

The first pass counts the blocks with an entry above the threshold, and the
second one writes every block to the next free slot before it knows whether the
block counts. Behind the last block that counts there is no slot, so a block
that comes after it is written outside the array. Allocations of no bytes may
fail, all others succeed; numbers and memory are those of the other format.
-/

namespace MiniHardware.Accel
open Lib

/-- `BCSR_BLOCK_SIZE`. -/
abbrev bcsrBlockSize : Nat := 4

structure BCSRMatrix (R : Type) where
  rows : Nat
  cols : Nat
  blockRows : Nat
  blockCols : Nat
  nnzBlocks : Nat
  rowPtr : List Nat
  colIdx : List Nat
  values : List R

section Model
variable {R : Type} [Field R] [LinearOrder R]

def bcsrCreate (R : Type) (rows cols : Nat) : BCSRMatrix R :=
  let blockRows := (rows + bcsrBlockSize - 1) / bcsrBlockSize
  let blockCols := (cols + bcsrBlockSize - 1) / bcsrBlockSize
  { rows, cols, blockRows, blockCols, nnzBlocks := 0, rowPtr := List.replicate (blockRows + 1) 0, colIdx := [], values := [] }

variable {rows cols : Nat}

/-- The entry `(r, c)` of block `(bi, bj)`. -/
def blockEntry (dense : Vector R (rows * cols)) (bi bj r c : Nat) : Option R :=
  let ri := bi * bcsrBlockSize + r
  let ci := bj * bcsrBlockSize + c
  dense[ri * cols + ci]?

/-- The search of the first pass; both loops end with the first entry that counts. -/
def hasNonzero (dense : Vector R (rows * cols)) (bi bj : Nat) : Option Bool :=
  (ragged rows bcsrBlockSize bi).foldlM (fun has r =>
    if has then some has
    else (ragged cols bcsrBlockSize bj).foldlM (fun has c =>
      if has then some has
      else do
        let val ← blockEntry dense bi bj r c
        some (isBig val)) has) false

/-- The first pass over a block row. -/
def countRow (dense : Vector R (rows * cols)) (bc nnzBlocks bi : Nat) : Option Nat := do
  let blockNnzCount ← (List.range bc).foldlM (fun count bj => do
    let has ← hasNonzero dense bi bj
    some (if has then count + 1 else count)) 0
  some (nnzBlocks + blockNnzCount)

def countBlocks (dense : Vector R (rows * cols)) (br bc : Nat) : Option Nat :=
  (List.range br).foldlM (countRow dense bc) 0

/-- The body of the loop over `c`, with `has_nonzero`. -/
def fillCell (dense : Vector R (rows * cols)) (bi bj blockIdx r : Nat) (s : List R × Bool) (c : Nat) :
    Option (List R × Bool) := do
  let val ← blockEntry dense bi bj r c
  let values ← writeAt s.1 (blockIdx * bcsrBlockSize * bcsrBlockSize + r * bcsrBlockSize + c) val
  some (values, if isBig val then true else s.2)

def fillBlock (dense : Vector R (rows * cols)) (bi bj blockIdx : Nat) (values : List R) : Option (List R × Bool) :=
  (ragged rows bcsrBlockSize bi).foldlM (fun s r =>
    (ragged cols bcsrBlockSize bj).foldlM (fillCell dense bi bj blockIdx r) s) (values, false)

/-- The body of the loop over `bj`, with `block_idx`. -/
def bcsrBlock (dense : Vector R (rows * cols)) (bi : Nat) (s : BCSRMatrix R × Nat) (bj : Nat) :
    Option (BCSRMatrix R × Nat) := do
  let (bcsr, blockIdx) := s
  let (values, has) ← fillBlock dense bi bj blockIdx bcsr.values
  if has then do
    let colIdx ← writeAt bcsr.colIdx blockIdx bj
    some ({ bcsr with colIdx, values }, blockIdx + 1)
  else some ({ bcsr with values }, blockIdx)

/-- The body of the loop over `bi`. -/
def bcsrRow (dense : Vector R (rows * cols)) (bc : Nat) (s : BCSRMatrix R × Nat) (bi : Nat) :
    Option (BCSRMatrix R × Nat) := do
  let (bcsr, blockIdx) ← (List.range bc).foldlM (bcsrBlock dense bi) s
  let rowPtr ← writeAt bcsr.rowPtr (bi + 1) blockIdx
  some ({ bcsr with rowPtr }, blockIdx)

/-- `nullOnZero` says whether allocations of no bytes fail. -/
def bcsrFromDense (nullOnZero : Bool) (foundInt : Nat → Nat) (dense : Vector R (rows * cols)) (bcsr : BCSRMatrix R) :
    Option (BCSRMatrix R) := do
  let br := bcsr.blockRows
  let bc := bcsr.blockCols
  let nnzBlocks ← countBlocks dense br bc
  if nullOnZero && nnzBlocks == 0 then some { bcsr with nnzBlocks := 0, colIdx := [], values := [] }
  else do
    let colIdx := (List.range nnzBlocks).map foundInt
    let values := List.replicate (nnzBlocks * bcsrBlockSize * bcsrBlockSize) 0
    let rowPtr ← writeAt bcsr.rowPtr 0 0
    let (bcsr, _) ← (List.range br).foldlM (bcsrRow dense bc) ({ bcsr with nnzBlocks, rowPtr, colIdx, values }, 0)
    some bcsr

/-- The body of the loop over `r`. -/
def spmmBlockRow (bcsr : BCSRMatrix R) (denseX : List R) (bi bj idx : Nat) (result : List R) (r : Nat) :
    Option (List R) := do
  let ri := bi * bcsrBlockSize + r
  let sum ← (ragged bcsr.cols bcsrBlockSize bj).foldlM (fun sum c => do
    let val ← bcsr.values[idx * bcsrBlockSize * bcsrBlockSize + (r * bcsrBlockSize + c)]?
    let x ← denseX[bj * bcsrBlockSize + c]?
    some (sum + val * x)) 0
  let old ← result[ri]?
  writeAt result ri (old + sum)

/-- The body of the loop over `idx`. -/
def spmmBlock (bcsr : BCSRMatrix R) (denseX : List R) (bi : Nat) (result : List R) (idx : Nat) : Option (List R) := do
  let bj ← bcsr.colIdx[idx]?
  (ragged bcsr.rows bcsrBlockSize bi).foldlM (spmmBlockRow bcsr denseX bi bj idx) result

/-- The body of the loop over `bi`. -/
def spmmBlocks (bcsr : BCSRMatrix R) (denseX result : List R) (bi : Nat) : Option (List R) := do
  let start ← bcsr.rowPtr[bi]?
  let stop ← bcsr.rowPtr[bi + 1]?
  (List.range' start (stop - start)).foldlM (spmmBlock bcsr denseX bi) result

def bcsrSpmm (bcsr : BCSRMatrix R) (denseX result : List R) : Option (List R) := do
  let result ← (List.range bcsr.rows).foldlM (fun result i => writeAt result i 0) result
  (List.range bcsr.blockRows).foldlM (spmmBlocks bcsr denseX) result

end Model

/-! ## The blocks that count -/

section Blocks
variable {R : Type} [Field R] [LinearOrder R] {rows cols : Nat}

def blockBig (dense : Vector R (rows * cols)) (bi bj : Nat) : Bool :=
  (ragged rows bcsrBlockSize bi).any fun r => (ragged cols bcsrBlockSize bj).any fun c =>
    isBig (padded dense (bi * bcsrBlockSize + r) (bj * bcsrBlockSize + c))

/-- The blocks of row `bi` that count, of the first `k`. -/
def bigIn (dense : Vector R (rows * cols)) (bi k : Nat) : List (Nat × Nat) :=
  ((List.range k).filter (blockBig dense bi)).map fun bj => (bi, bj)

def bigRows (dense : Vector R (rows * cols)) (br bc : Nat) : List (List (Nat × Nat)) :=
  (List.range br).map fun bi => bigIn dense bi bc

variable {dense : Vector R (rows * cols)} {bi bj : Nat}

omit [LinearOrder R] in
/-- An entry of a block is that of the matrix, padded with zeros. -/
theorem blockEntry_eq {r c : Nat} (hr : r ∈ ragged rows bcsrBlockSize bi) (hc : c ∈ ragged cols bcsrBlockSize bj) :
    blockEntry dense bi bj r c = some (padded dense (bi * bcsrBlockSize + r) (bj * bcsrBlockSize + c)) := by
  have row := (mem_ragged.mp hr).2
  have col := (mem_ragged.mp hc).2
  rw [padded, dif_pos ⟨row, col⟩]
  exact Vector.getElem?_eq_getElem (cell ⟨_, row⟩ ⟨_, col⟩).isLt

/-- The test goes through the part of the block inside the matrix, and finds an entry above the threshold. -/
theorem hasNonzero_eq (bi bj : Nat) : hasNonzero dense bi bj = some (blockBig dense bi bj) := by
  refine foldlM_any _ (fun r hr => ?_) fun r _ => rfl
  refine foldlM_any _ (fun c hc => ?_) fun c _ => rfl
  rw [if_neg Bool.false_ne_true, blockEntry_eq hr hc]
  rfl

/-- One more block of the row. -/
theorem bigIn_succ (bi k : Nat) :
    bigIn dense bi (k + 1) = bigIn dense bi k ++ if blockBig dense bi k then [(bi, k)] else [] := by
  rw [bigIn, List.range_succ, List.filter_append, List.map_append]
  cases big : blockBig dense bi k <;> simp [bigIn, big]

/-- One more row of blocks. -/
theorem bigRows_succ (br bc : Nat) :
    (bigRows dense (br + 1) bc).flatten = (bigRows dense br bc).flatten ++ bigIn dense br bc := by
  rw [bigRows, List.range_succ, List.map_append, List.flatten_append, List.map_singleton, List.flatten_singleton]
  rfl

/-- The counting pass counts the blocks that have an entry above the threshold. -/
theorem countRow_eq (nnzBlocks bi bc : Nat) :
    countRow dense bc nnzBlocks bi = some (nnzBlocks + (bigIn dense bi bc).length) := by
  have step (k count : Nat) (_ : k < bc) (eq : count = (bigIn dense bi k).length) :
      ∃ next, (do
        let has ← hasNonzero dense bi k
        some (if has then count + 1 else count)) = some next ∧ next = (bigIn dense bi (k + 1)).length := by
    rw [hasNonzero_eq, bigIn_succ, eq, List.length_append]
    cases blockBig dense bi k with
    | true => exact ⟨_, rfl, rfl⟩
    | false => exact ⟨_, rfl, rfl⟩
  obtain ⟨count, loop, eq⟩ := foldlM_range (fun k count => count = (bigIn dense bi k).length) step
    (rfl : 0 = (bigIn dense bi 0).length)
  rw [countRow, loop, eq]
  rfl

/-- The first pass counts the blocks. -/
theorem countBlocks_eq (dense : Vector R (rows * cols)) (br bc : Nat) : countBlocks dense br bc = some (bigRows dense br bc).flatten.length := by
  have step (bi count : Nat) (_ : bi < br) (eq : count = (bigRows dense bi bc).flatten.length) :
      ∃ next, countRow dense bc count bi = some next ∧ next = (bigRows dense (bi + 1) bc).flatten.length :=
    ⟨_, countRow_eq count bi bc, by rw [bigRows_succ, eq, List.length_append]⟩
  obtain ⟨count, loop, eq⟩ := foldlM_range (fun bi count => count = (bigRows dense bi bc).flatten.length) step
    (rfl : 0 = (bigRows dense 0 bc).flatten.length)
  rw [countBlocks, loop, eq]

end Blocks

/-! ## Writing a block -/

section Writing
variable {R : Type} [Field R] [LinearOrder R] {rows cols : Nat} {dense : Vector R (rows * cols)} {bi bj slot : Nat}

/-- The cells written so far, in the slot after those before it. -/
structure CellsWritten (dense : Vector R (rows * cols)) (bi bj slot : Nat) (old : List R) (cells : List (Nat × Nat))
    (s : List R × Bool) : Prop where
  length : s.1.length = old.length
  before : ∀ k < slot * bcsrBlockSize * bcsrBlockSize, s.1[k]? = old[k]?
  written : ∀ p ∈ cells, s.1[slot * bcsrBlockSize * bcsrBlockSize + (p.1 * bcsrBlockSize + p.2)]? =
    some (padded dense (bi * bcsrBlockSize + p.1) (bj * bcsrBlockSize + p.2))
  inside : ∀ p ∈ cells, p.1 < bcsrBlockSize ∧ p.2 < bcsrBlockSize
  flag : s.2 = cells.any fun p => isBig (padded dense (bi * bcsrBlockSize + p.1) (bj * bcsrBlockSize + p.2))

variable {old : List R} {cells : List (Nat × Nat)} {s : List R × Bool}

/-- A cell of a block is copied to its place. -/
theorem fillCell_written (room : (slot + 1) * bcsrBlockSize * bcsrBlockSize ≤ old.length) {r c : Nat}
    (hr : r ∈ ragged rows bcsrBlockSize bi) (hc : c ∈ ragged cols bcsrBlockSize bj)
    (written : CellsWritten dense bi bj slot old cells s) :
    ∃ s', fillCell dense bi bj slot r s c = some s' ∧ CellsWritten dense bi bj slot old (cells ++ [(r, c)]) s' := by
  obtain ⟨length, before, written, inside, flag⟩ := written
  have row := (mem_ragged.mp hr).1
  have col := (mem_ragged.mp hc).1
  have lt : slot * bcsrBlockSize * bcsrBlockSize + r * bcsrBlockSize + c < s.1.length := by
    unfold bcsrBlockSize at *
    omega
  rw [fillCell, blockEntry_eq hr hc, Option.bind_eq_bind, Option.bind_some, writeAt_eq lt]
  refine ⟨_, rfl, ⟨?_, fun k below => ?_, fun p mem => ?_, fun p mem => ?_, ?_⟩⟩
  · rw [List.length_set, length]
  · rw [List.getElem?_set_ne (by omega), before k below]
  · rcases List.mem_append.mp mem with earlier | here
    · have := inside p earlier
      by_cases same : p = (r, c)
      · rw [same, ← Nat.add_assoc, List.getElem?_set_self lt]
      · rw [List.getElem?_set_ne, written p earlier]
        intro eq
        have place : p.1 = r ∧ p.2 = c := by
          unfold bcsrBlockSize at *
          omega
        exact same (Prod.ext place.1 place.2)
    · rw [List.mem_singleton.mp here, ← Nat.add_assoc, List.getElem?_set_self lt]
  · rcases List.mem_append.mp mem with earlier | here
    · exact inside p earlier
    · rw [List.mem_singleton.mp here]
      exact ⟨row, col⟩
  · rw [List.any_append, ← flag, List.any_cons, List.any_nil, Bool.or_false]
    cases isBig (padded dense (bi * bcsrBlockSize + r) (bj * bcsrBlockSize + c)) <;> simp

/-- What is in a slot that belongs to a block. -/
def Holds (dense : Vector R (rows * cols)) (values : List R) (slot : Nat) (block : Nat × Nat) : Prop :=
  ∀ r ∈ ragged rows bcsrBlockSize block.1, ∀ c ∈ ragged cols bcsrBlockSize block.2,
    values[slot * bcsrBlockSize * bcsrBlockSize + (r * bcsrBlockSize + c)]? =
      some (padded dense (block.1 * bcsrBlockSize + r) (block.2 * bcsrBlockSize + c))

/-- Where there is a slot, the block is written to it, and the flag is that of the first pass. -/
theorem fillBlock_written (dense : Vector R (rows * cols)) (bi bj : Nat) (values : List R) (room : (slot + 1) * bcsrBlockSize * bcsrBlockSize ≤ values.length) :
    ∃ values', fillBlock dense bi bj slot values = some (values', blockBig dense bi bj) ∧
      values'.length = values.length ∧ (∀ k < slot * bcsrBlockSize * bcsrBlockSize, values'[k]? = values[k]?) ∧
      Holds dense values' slot (bi, bj) := by
  have row (cells : List (Nat × Nat)) (s : List R × Bool) (r : Nat) (hr : r ∈ ragged rows bcsrBlockSize bi)
      (written : CellsWritten dense bi bj slot values cells s) :
      ∃ s', (ragged cols bcsrBlockSize bj).foldlM (fillCell dense bi bj slot r) s = some s' ∧
        CellsWritten dense bi bj slot values (cells ++ (ragged cols bcsrBlockSize bj).map fun c => (r, c)) s' := by
    refine foldlM_rounds (fun done s => CellsWritten dense bi bj slot values (cells ++ done.map fun c => (r, c)) s)
      (fun done c rest s eq inv => ?_) (by rw [List.map_nil, List.append_nil]; exact written)
    have hc : c ∈ ragged cols bcsrBlockSize bj := eq ▸ List.mem_append_right done List.mem_cons_self
    rw [List.map_append, ← List.append_assoc]
    exact fillCell_written room hr hc inv
  have rounds (done : List Nat) (r : Nat) (rest : List Nat) (s : List R × Bool)
      (eq : ragged rows bcsrBlockSize bi = done ++ r :: rest)
      (inv : CellsWritten dense bi bj slot values
        (done.flatMap fun r => (ragged cols bcsrBlockSize bj).map fun c => (r, c)) s) :
      ∃ s', (ragged cols bcsrBlockSize bj).foldlM (fillCell dense bi bj slot r) s = some s' ∧
        CellsWritten dense bi bj slot values
          ((done ++ [r]).flatMap fun r => (ragged cols bcsrBlockSize bj).map fun c => (r, c)) s' := by
    rw [List.flatMap_append, List.flatMap_singleton]
    exact row _ s r (eq ▸ List.mem_append_right done List.mem_cons_self) inv
  have start : CellsWritten dense bi bj slot values [] (values, false) := ⟨rfl, fun _ _ => rfl, nofun, nofun, rfl⟩
  obtain ⟨⟨values', has⟩, loop, length, before, written, -, flag⟩ := foldlM_rounds
    (fun done s => CellsWritten dense bi bj slot values
      (done.flatMap fun r => (ragged cols bcsrBlockSize bj).map fun c => (r, c)) s) rounds start
  have big : has = blockBig dense bi bj := by
    rw [List.any_flatMap] at flag
    simp only [List.any_map] at flag
    exact flag
  refine ⟨values', big ▸ loop, length, before, fun r hr c hc => written (r, c) ?_⟩
  exact List.mem_flatMap.mpr ⟨r, hr, List.mem_map.mpr ⟨c, hc, rfl⟩⟩

theorem ragged_cons {n t a : Nat} (lt : a * t < n) (pos : 0 < t) : ∃ rest, ragged n t a = 0 :: rest := by
  obtain ⟨k, eq⟩ : ∃ k, min t (n - a * t) = k + 1 := ⟨min t (n - a * t) - 1, by omega⟩
  exact ⟨_, by rw [ragged_eq, eq, List.range_succ_eq_map]⟩

/-- Where there is none, the first entry is written behind the array. -/
theorem fillBlock_outside {values : List R} (full : values.length ≤ slot * bcsrBlockSize * bcsrBlockSize)
    (row : bi * bcsrBlockSize < rows) (col : bj * bcsrBlockSize < cols) : fillBlock dense bi bj slot values = none := by
  obtain ⟨rs, rowsEq⟩ := ragged_cons row (by decide)
  obtain ⟨cs, colsEq⟩ := ragged_cons col (by decide)
  have first : blockEntry dense bi bj 0 0 = some (padded dense (bi * bcsrBlockSize + 0) (bj * bcsrBlockSize + 0)) :=
    blockEntry_eq (rowsEq ▸ List.mem_cons_self) (colsEq ▸ List.mem_cons_self)
  rw [fillBlock, rowsEq, List.foldlM_cons, colsEq, List.foldlM_cons, fillCell, first]
  dsimp only [Option.bind_eq_bind, Option.bind_some]
  rw [writeAt_outside (by omega)]
  rfl

end Writing

/-! ## The second pass -/

section Filling
variable {R : Type} [Field R] [LinearOrder R] {rows cols : Nat} {dense : Vector R (rows * cols)}

omit [LinearOrder R] in
/-- A block stays where the values below its slot stay. -/
theorem Holds.kept {values values' : List R} {slot k : Nat} {block : Nat × Nat}
    (before : ∀ j < slot * bcsrBlockSize * bcsrBlockSize, values'[j]? = values[j]?) (lt : k < slot)
    (holds : Holds dense values k block) : Holds dense values' k block := by
  intro r hr c hc
  have row := (mem_ragged.mp hr).1
  have col := (mem_ragged.mp hc).1
  rw [before _ (by unfold bcsrBlockSize at *; omega)]
  exact holds r hr c hc

/-- The blocks `E` have been written; the slot behind them may hold anything. -/
structure BlocksFilled (dense : Vector R (rows * cols)) (base : BCSRMatrix R) (nnz : Nat) (E : List (Nat × Nat))
    (s : BCSRMatrix R × Nat) : Prop where
  shape : s.1 = { base with colIdx := s.1.colIdx, values := s.1.values }
  idx : s.2 = E.length
  colIdx : E.map (·.2) <+: s.1.colIdx
  holds : ∀ k block, E[k]? = some block → Holds dense s.1.values k block
  room : s.1.colIdx.length = nnz
  room' : s.1.values.length = nnz * bcsrBlockSize * bcsrBlockSize

variable {base : BCSRMatrix R} {nnz bi bj : Nat} {E : List (Nat × Nat)} {s s' : BCSRMatrix R × Nat}

/-- A block is filled in, and kept if it counts. -/
theorem bcsrBlock_filled (bi bj : Nat) (filled : BlocksFilled dense base nnz E s) (lt : E.length < nnz) :
    ∃ s', bcsrBlock dense bi s bj = some s' ∧
      BlocksFilled dense base nnz (E ++ if blockBig dense bi bj then [(bi, bj)] else []) s' := by
  obtain ⟨bcsr, idx⟩ := s
  obtain ⟨shape, rfl, colIdx, holds, room, room'⟩ := filled
  dsimp only at *
  have free : (E.length + 1) * bcsrBlockSize * bcsrBlockSize ≤ bcsr.values.length := by
    unfold bcsrBlockSize at *
    omega
  obtain ⟨values, written, length, before, here⟩ := fillBlock_written dense bi bj bcsr.values free
  have earlier (k : Nat) (block : Nat × Nat) (at_k : E[k]? = some block) : Holds dense values k block :=
    (holds k block at_k).kept before (List.getElem?_eq_some_iff.mp at_k).1
  rw [bcsrBlock, written, Option.bind_eq_bind, Option.bind_some]
  dsimp only
  by_cases big : blockBig dense bi bj
  · rw [if_pos big, if_pos big, writeAt_eq (by omega), Option.bind_eq_bind, Option.bind_some]
    refine ⟨_, rfl, ⟨?_, ?_, ?_, fun k block at_k => ?_, ?_, length.trans room'⟩⟩
    · rw [shape]
    · rw [List.length_append]
      rfl
    · have more := prefix_set colIdx (by rw [List.length_map]; omega) bj
      rw [List.length_map] at more
      rw [List.map_append]
      exact more
    · rw [List.getElem?_append] at at_k
      split at at_k
      · exact earlier k block at_k
      · obtain ⟨inside, eq⟩ := List.getElem?_eq_some_iff.mp at_k
        rw [List.length_singleton] at inside
        rw [List.getElem_singleton] at eq
        rw [← eq, show k = E.length by omega]
        exact here
    · rw [List.length_set, room]
  · rw [if_neg big, if_neg big, List.append_nil]
    refine ⟨_, rfl, ⟨?_, rfl, colIdx, earlier, room, length.trans room'⟩⟩
    rw [shape]

/-- Where no slot is left the copy of a block leaves the array. -/
theorem bcsrBlock_outside (filled : BlocksFilled dense base nnz E s) (full : nnz ≤ E.length)
    (row : bi * bcsrBlockSize < rows) (col : bj * bcsrBlockSize < cols) : bcsrBlock dense bi s bj = none := by
  obtain ⟨bcsr, idx⟩ := s
  obtain ⟨-, rfl, -, -, -, room'⟩ := filled
  dsimp only at *
  rw [bcsrBlock, fillBlock_outside (by unfold bcsrBlockSize at *; omega) row col]
  rfl

/-- What a block with a result leaves. -/
theorem bcsrBlock_kept (filled : BlocksFilled dense base nnz E s) (row : bi * bcsrBlockSize < rows)
    (col : bj * bcsrBlockSize < cols) (step : bcsrBlock dense bi s bj = some s') :
    BlocksFilled dense base nnz (E ++ if blockBig dense bi bj then [(bi, bj)] else []) s' := by
  rcases Nat.lt_or_ge E.length nnz with lt | full
  · obtain ⟨s'', step', filled⟩ := bcsrBlock_filled bi bj filled lt
    rw [step'] at step
    exact Option.some.inj step ▸ filled
  · rw [bcsrBlock_outside filled full row col] at step
    exact nomatch step

/-- With a free slot for every block, the loop over `bj` writes those that count. -/
theorem bcsrBlocks_filled {bc : Nat} (filled : BlocksFilled dense base nnz E s)
    (free : ∀ k < bc, (E ++ bigIn dense bi k).length < nnz) :
    ∃ s', (List.range bc).foldlM (bcsrBlock dense bi) s = some s' ∧
      BlocksFilled dense base nnz (E ++ bigIn dense bi bc) s' := by
  refine foldlM_range (fun k s => BlocksFilled dense base nnz (E ++ bigIn dense bi k) s) (fun k s lt inv => ?_) ?_
  · rw [bigIn_succ, ← List.append_assoc]
    exact bcsrBlock_filled bi k inv (free k lt)
  · exact (List.append_nil E).symm ▸ filled

/-- What a row of blocks with a result leaves. -/
theorem bcsrBlocks_kept {bc : Nat} (filled : BlocksFilled dense base nnz E s) (row : bi * bcsrBlockSize < rows)
    (col : ∀ k < bc, k * bcsrBlockSize < cols) (loop : (List.range bc).foldlM (bcsrBlock dense bi) s = some s') :
    BlocksFilled dense base nnz (E ++ bigIn dense bi bc) s' := by
  refine foldlM_range_some (fun k s => BlocksFilled dense base nnz (E ++ bigIn dense bi k) s)
    (fun k s s' lt inv step => ?_) ?_ loop
  · rw [bigIn_succ, ← List.append_assoc]
    exact bcsrBlock_kept inv row (col k lt) step
  · exact (List.append_nil E).symm ▸ filled

variable {br bc : Nat}

/-- The block rows before row `k` have been written, and the places where they begin. -/
def BlockRowsFilled (dense : Vector R (rows * cols)) (base : BCSRMatrix R) (br bc nnz k : Nat)
    (s : BCSRMatrix R × Nat) : Prop :=
  ∃ rowPtr, rowPtr.length = br + 1 ∧ (List.range (k + 1)).map (offset (bigRows dense br bc)) <+: rowPtr ∧
    BlocksFilled dense { base with rowPtr } nnz (bigRows dense k bc).flatten s

/-- A row pointer is the number of blocks in the rows before. -/
theorem offset_bigRows {k : Nat} (le : k ≤ br) :
    offset (bigRows dense br bc) k = (bigRows dense k bc).flatten.length := by
  rw [offset, bigRows, ← List.map_take, List.take_range, Nat.min_eq_left le, bigRows]

/-- A row whose blocks are filled sets the next pointer. -/
theorem bcsrRow_of_blocks {k : Nat} {rowPtr : List Nat} {mid : BCSRMatrix R × Nat} (lt : k < br)
    (long : rowPtr.length = br + 1) (ptrs : (List.range (k + 1)).map (offset (bigRows dense br bc)) <+: rowPtr)
    (loop : (List.range bc).foldlM (bcsrBlock dense k) s = some mid)
    (filled : BlocksFilled dense { base with rowPtr } nnz (bigRows dense (k + 1) bc).flatten mid) :
    ∃ s', bcsrRow dense bc s k = some s' ∧ BlockRowsFilled dense base br bc nnz (k + 1) s' := by
  obtain ⟨bcsr, idx⟩ := mid
  obtain ⟨shape, rfl, colIdx, holds, room, room'⟩ := filled
  dsimp only at *
  have ptr : bcsr.rowPtr = rowPtr := congrArg BCSRMatrix.rowPtr shape
  have more := prefix_set ptrs (by rw [List.length_map, List.length_range]; omega)
    (bigRows dense (k + 1) bc).flatten.length
  rw [List.length_map, List.length_range] at more
  refine ⟨({ bcsr with rowPtr := rowPtr.set (k + 1) (bigRows dense (k + 1) bc).flatten.length }, _), ?_,
    rowPtr.set (k + 1) (bigRows dense (k + 1) bc).flatten.length, by rw [List.length_set, long], ?_,
    ⟨?_, rfl, colIdx, holds, room, room'⟩⟩
  · rw [bcsrRow, loop, Option.bind_eq_bind, Option.bind_some]
    dsimp only
    rw [ptr, writeAt_eq (by omega)]
    rfl
  · rw [List.range_succ, List.map_append, List.map_singleton, offset_bigRows lt]
    exact more
  · rw [shape]

/-- A row with a slot for each of its blocks is filled in. -/
theorem bcsrRow_filled {k : Nat} (lt : k < br) (free : ∀ j < bc, ((bigRows dense k bc).flatten ++ bigIn dense k j).length < nnz)
    (filled : BlockRowsFilled dense base br bc nnz k s) :
    ∃ s', bcsrRow dense bc s k = some s' ∧ BlockRowsFilled dense base br bc nnz (k + 1) s' := by
  obtain ⟨rowPtr, long, ptrs, filled⟩ := filled
  obtain ⟨mid, loop, filled⟩ := bcsrBlocks_filled filled free
  rw [← bigRows_succ] at filled
  exact bcsrRow_of_blocks lt long ptrs loop filled

/-- What a row with a result leaves. -/
theorem bcsrRow_kept {k : Nat} (lt : k < br) (row : k * bcsrBlockSize < rows) (col : ∀ k < bc, k * bcsrBlockSize < cols)
    (filled : BlockRowsFilled dense base br bc nnz k s) (step : bcsrRow dense bc s k = some s') :
    BlockRowsFilled dense base br bc nnz (k + 1) s' := by
  obtain ⟨rowPtr, long, ptrs, filled⟩ := filled
  obtain ⟨mid, loop, rest⟩ := Option.bind_eq_some_iff.mp step
  have kept := bcsrBlocks_kept filled row col loop
  rw [← bigRows_succ] at kept
  obtain ⟨s'', step', filled⟩ := bcsrRow_of_blocks lt long ptrs loop kept
  rw [step'] at step
  exact Option.some.inj step ▸ filled

end Filling

/-! ## The free slots -/

section Slots
variable {R : Type} [Field R] [LinearOrder R] {rows cols : Nat} {dense : Vector R (rows * cols)}

/-- More blocks of a row have more that count. -/
theorem length_bigIn_mono (dense : Vector R (rows * cols)) (bi : Nat) {k k' : Nat} (le : k ≤ k') : (bigIn dense bi k).length ≤ (bigIn dense bi k').length := by
  rw [bigIn, bigIn, List.length_map, List.length_map]
  exact ((List.range_sublist.2 le).filter _).length_le

/-- More rows have more blocks that count. -/
theorem length_bigRows_mono (dense : Vector R (rows * cols)) (bc : Nat) {k k' : Nat} (le : k ≤ k') :
    (bigRows dense k bc).flatten.length ≤ (bigRows dense k' bc).flatten.length := by
  rw [← offset_bigRows le, ← offset_of_length_le (Nat.le_refl (bigRows dense k' bc).length)]
  refine offset_mono _ ?_
  rw [bigRows, List.length_map, List.length_range]
  exact le

variable {lastRow lastCol : Nat}

/-- Before the last block has been written there is room for one more, if it counts. -/
theorem free_of_big (big : blockBig dense lastRow lastCol) {bi k : Nat} (row : bi ≤ lastRow) (col : k ≤ lastCol) :
    ((bigRows dense bi (lastCol + 1)).flatten ++ bigIn dense bi k).length <
      (bigRows dense (lastRow + 1) (lastCol + 1)).flatten.length := by
  rw [bigRows_succ, bigIn_succ, if_pos big, List.length_append, List.length_append, List.length_append, List.length_singleton]
  rcases row.lt_or_eq with lt | rfl
  · have rest := length_bigRows_mono dense (lastCol + 1) (Nat.succ_le_of_lt lt)
    rw [bigRows_succ, List.length_append] at rest
    have := length_bigIn_mono dense bi (by omega : k ≤ lastCol + 1)
    omega
  · have := length_bigIn_mono dense bi col
    omega

/-- If it does not, the slots are used up by then. -/
theorem full_of_small (small : blockBig dense lastRow lastCol = false) :
    (bigRows dense (lastRow + 1) (lastCol + 1)).flatten.length =
      ((bigRows dense lastRow (lastCol + 1)).flatten ++ bigIn dense lastRow lastCol).length := by
  rw [bigRows_succ, bigIn_succ, if_neg (by rw [small]; exact Bool.false_ne_true), List.append_nil]

end Slots

/-! ## Conversions -/

section Conversion
variable {R : Type} [Field R] [LinearOrder R] {rows cols : Nat}

/-- A matrix that `bcsr_create` made for these dimensions, and that may have been filled since. -/
structure CreatedFor (rows cols : Nat) (bcsr : BCSRMatrix R) : Prop where
  sameRows : bcsr.rows = rows
  sameCols : bcsr.cols = cols
  blockRows : bcsr.blockRows = tiles rows bcsrBlockSize
  blockCols : bcsr.blockCols = tiles cols bcsrBlockSize
  ptrs : bcsr.rowPtr.length = bcsr.blockRows + 1

/-- All block rows, of those blocks that count. -/
def allBlocks (dense : Vector R (rows * cols)) : List (List (Nat × Nat)) :=
  bigRows dense (tiles rows bcsrBlockSize) (tiles cols bcsrBlockSize)

/-- The blocks of `dense` that count, laid out. -/
structure BcsrOf (dense : Vector R (rows * cols)) (A : BCSRMatrix R) : Prop where
  created : CreatedFor rows cols A
  nnzBlocks : A.nnzBlocks = (allBlocks dense).flatten.length
  rowPtr : A.rowPtr = offsets (allBlocks dense)
  colIdx : A.colIdx = (allBlocks dense).flatten.map (·.2)
  holds : ∀ k block, (allBlocks dense).flatten[k]? = some block → Holds dense A.values k block

variable {dense : Vector R (rows * cols)} {bcsr : BCSRMatrix R}

/-- What the second pass starts with. -/
def passStart (found : Nat → Nat) (dense : Vector R (rows * cols)) (bcsr : BCSRMatrix R) : BCSRMatrix R :=
  let nnzBlocks := (allBlocks dense).flatten.length
  { bcsr with
    nnzBlocks
    rowPtr := bcsr.rowPtr.set 0 0
    colIdx := (List.range nnzBlocks).map found
    values := List.replicate (nnzBlocks * bcsrBlockSize * bcsrBlockSize) 0 }

/-- The conversion counts the blocks, then fills them in unless nothing was allocated. -/
theorem bcsrFromDense_eq (nullOnZero : Bool) (found : Nat → Nat) (created : CreatedFor rows cols bcsr) :
    bcsrFromDense nullOnZero found dense bcsr =
      if nullOnZero = true ∧ (allBlocks dense).flatten = [] then
        some { bcsr with nnzBlocks := 0, colIdx := [], values := [] }
      else ((List.range (tiles rows bcsrBlockSize)).foldlM (bcsrRow dense (tiles cols bcsrBlockSize))
        (passStart found dense bcsr, 0)).map (·.1) := by
  have count := countBlocks_eq dense (tiles rows bcsrBlockSize) (tiles cols bcsrBlockSize)
  obtain ⟨bcsrRows, bcsrCols, br, bc, nnzBlocks, rowPtr, colIdx, values⟩ := bcsr
  obtain ⟨-, -, blockRows, blockCols, ptrs⟩ := created
  dsimp only at blockRows blockCols ptrs
  subst blockRows blockCols
  rw [bcsrFromDense]
  dsimp only
  rw [count, Option.bind_eq_bind, Option.bind_some]
  by_cases fails : nullOnZero = true ∧ (allBlocks dense).flatten = []
  · rw [if_pos fails, if_pos]
    rw [Bool.and_eq_true]
    exact ⟨fails.1, beq_iff_eq.mpr (List.length_eq_zero_iff.mpr fails.2)⟩
  · rw [if_neg fails, if_neg]
    · rw [writeAt_eq (by rw [ptrs]; exact Nat.succ_pos _), Option.bind_eq_bind, Option.bind_some, ← Option.map_eq_map,
        map_eq_pure_bind]
      rfl
    · rw [Bool.and_eq_true]
      exact fun ⟨null, zero⟩ => fails ⟨null, List.length_eq_zero_iff.mp (beq_iff_eq.mp zero)⟩

theorem passStart_filled (dense : Vector R (rows * cols)) (found : Nat → Nat) (created : CreatedFor rows cols bcsr) :
    BlockRowsFilled dense (passStart found dense bcsr) (tiles rows bcsrBlockSize) (tiles cols bcsrBlockSize)
      (allBlocks dense).flatten.length 0 (passStart found dense bcsr, 0) := by
  have long : bcsr.rowPtr.length = tiles rows bcsrBlockSize + 1 := created.ptrs.trans (congrArg (· + 1) created.blockRows)
  refine ⟨bcsr.rowPtr.set 0 0, by rw [List.length_set, long], ?_, ⟨rfl, rfl, List.nil_prefix, nofun, ?_, ?_⟩⟩
  · exact prefix_set List.nil_prefix (by rw [long]; exact Nat.succ_pos _) 0
  · exact (List.length_map _).trans List.length_range
  · exact List.length_replicate

/-- After the last row the matrix is converted. -/
theorem bcsrOf_filled {base : BCSRMatrix R} {s : BCSRMatrix R × Nat} (created : CreatedFor rows cols base)
    (count : base.nnzBlocks = (allBlocks dense).flatten.length)
    (filled : BlockRowsFilled dense base (tiles rows bcsrBlockSize) (tiles cols bcsrBlockSize)
      (allBlocks dense).flatten.length (tiles rows bcsrBlockSize) s) : BcsrOf dense s.1 := by
  obtain ⟨rowPtr, long, ptrs, shape, -, colIdx, holds, room, -⟩ := filled
  have length : (allBlocks dense).length = tiles rows bcsrBlockSize := by
    rw [allBlocks, bigRows, List.length_map, List.length_range]
  have ptr : rowPtr = offsets (allBlocks dense) := by
    rw [offsets, length]
    exact eq_of_prefix_full ptrs (by rw [List.length_map, List.length_range, long])
  have full : s.1.colIdx = (allBlocks dense).flatten.map (·.2) :=
    eq_of_prefix_full colIdx (by rw [List.length_map, room, allBlocks])
  constructor
  · rw [shape]
    exact ⟨created.sameRows, created.sameCols, created.blockRows, created.blockCols,
      long.trans (congrArg (· + 1) created.blockRows.symm)⟩
  · rw [shape]
    exact count
  · rw [shape]
    exact ptr
  · exact full
  · exact holds

theorem tiles_pos {n : Nat} (pos : 0 < n) : tiles n bcsrBlockSize = (n - 1) / bcsrBlockSize + 1 := by
  unfold tiles bcsrBlockSize
  omega

/-- The matrix has no blocks or the last one counts. -/
def LastBig (dense : Vector R (rows * cols)) : Prop :=
  rows = 0 ∨ cols = 0 ∨ blockBig dense ((rows - 1) / bcsrBlockSize) ((cols - 1) / bcsrBlockSize)

/-- A small last block is written behind the slots. -/
theorem lastBig_of_secondPass (found : Nat → Nat) (created : CreatedFor rows cols bcsr) {s : BCSRMatrix R × Nat}
    (loop : (List.range (tiles rows bcsrBlockSize)).foldlM (bcsrRow dense (tiles cols bcsrBlockSize))
      (passStart found dense bcsr, 0) = some s) : LastBig dense := by
  have start := passStart_filled dense found created
  have row (k : Nat) (lt : k < tiles rows bcsrBlockSize) : k * bcsrBlockSize < rows := tile_start_lt lt
  have col (k : Nat) (lt : k < tiles cols bcsrBlockSize) : k * bcsrBlockSize < cols := tile_start_lt lt
  by_contra wrong
  rw [LastBig] at wrong
  push Not at wrong
  obtain ⟨someRows, someCols, small⟩ := wrong
  have rowCount := tiles_pos (Nat.pos_of_ne_zero someRows)
  have colCount := tiles_pos (Nat.pos_of_ne_zero someCols)
  have full := full_of_small (Bool.eq_false_iff.mpr small)
  rw [allBlocks, rowCount, colCount, full] at start
  rw [rowCount, colCount] at loop
  rw [rowCount] at row
  rw [colCount] at col
  obtain ⟨mid, before, last⟩ := foldlM_range_succ loop
  have kept := foldlM_range_some _ (fun k s s' lt inv step =>
    bcsrRow_kept (Nat.lt_succ_of_lt lt) (row k (Nat.lt_succ_of_lt lt)) col inv step) start before
  obtain ⟨rowPtr, -, -, filled⟩ := kept
  obtain ⟨mid', blocks, -⟩ := Option.bind_eq_some_iff.mp last
  obtain ⟨mid'', blocks, step⟩ := foldlM_range_succ blocks
  have kept' := bcsrBlocks_kept filled (row _ (Nat.lt_succ_self _)) (fun k lt => col k (Nat.lt_succ_of_lt lt)) blocks
  rw [bcsrBlock_outside kept' (Nat.le_refl _) (row _ (Nat.lt_succ_self _)) (col _ (Nat.lt_succ_self _))] at step
  exact nomatch step

/-- If the last block counts, the second pass never runs out of slots. -/
theorem secondPass_of_lastBig (found : Nat → Nat) (created : CreatedFor rows cols bcsr) (right : LastBig dense) :
    ∃ s, (List.range (tiles rows bcsrBlockSize)).foldlM (bcsrRow dense (tiles cols bcsrBlockSize))
      (passStart found dense bcsr, 0) = some s ∧ BcsrOf dense s.1 := by
  have start := passStart_filled dense found created
  have free (k : Nat) (lt : k < tiles rows bcsrBlockSize) (j : Nat) (lt' : j < tiles cols bcsrBlockSize) :
      ((bigRows dense k (tiles cols bcsrBlockSize)).flatten ++ bigIn dense k j).length < (allBlocks dense).flatten.length := by
    have someRows : 0 < rows := Nat.zero_lt_of_lt (tile_start_lt lt)
    have someCols : 0 < cols := Nat.zero_lt_of_lt (tile_start_lt lt')
    have big : blockBig dense ((rows - 1) / bcsrBlockSize) ((cols - 1) / bcsrBlockSize) := by
      rcases right with none | none | big
      · omega
      · omega
      · exact big
    rw [allBlocks, tiles_pos someRows, tiles_pos someCols]
    rw [tiles_pos someRows] at lt
    rw [tiles_pos someCols] at lt'
    exact free_of_big big (Nat.le_of_lt_succ lt) (Nat.le_of_lt_succ lt')
  obtain ⟨s, loop, filled⟩ := foldlM_range _ (fun k s lt inv => bcsrRow_filled lt (free k lt) inv) start
  refine ⟨s, loop, bcsrOf_filled ?_ rfl filled⟩
  obtain ⟨sameRows, sameCols, blockRows, blockCols, ptrs⟩ := created
  exact ⟨sameRows, sameCols, blockRows, blockCols, (List.length_set ..).trans ptrs⟩

end Conversion

/-! ## The product -/

section Product
variable {R : Type} [Field R] [LinearOrder R] {rows cols : Nat} {dense : Vector R (rows * cols)} {A : BCSRMatrix R}

/-- Row `i` of a block times its part of the vector. -/
def blockTerm (dense : Vector R (rows * cols)) (x : Fin cols → R) (bj i : Nat) : R :=
  ((ragged cols bcsrBlockSize bj).map fun c => padded dense i (bj * bcsrBlockSize + c) *
    if h : bj * bcsrBlockSize + c < cols then x ⟨bj * bcsrBlockSize + c, h⟩ else 0).sum

omit [Field R] [LinearOrder R] in
/-- Writing to one of the first entries. -/
theorem set_ofFn (g : Fin rows → R) (tail : List R) (i : Fin rows) (v : R) :
    (List.ofFn g ++ tail).set i v = List.ofFn (Function.update g i v) ++ tail := by
  apply List.ext_getElem
  · simp
  · intro k lt lt'
    rw [List.getElem_set, List.getElem_append, List.getElem_append]
    by_cases inside : k < rows
    · rw [dif_pos (by rw [List.length_ofFn]; exact inside), dif_pos (by rw [List.length_ofFn]; exact inside),
        List.getElem_ofFn, List.getElem_ofFn, Function.update_apply]
      exact if_congr ⟨fun eq => Fin.ext eq.symm, fun eq => congrArg Fin.val eq.symm⟩ rfl rfl
    · have ne : i.val ≠ k := by omega
      simp [inside, ne]

omit [LinearOrder R] in
/-- One row of one block. -/
theorem spmmBlockRow_eq (x : Fin cols → R) {bi bj idx r : Nat} (sameCols : A.cols = cols) (holds : Holds dense A.values idx (bi, bj))
    (hr : r ∈ ragged rows bcsrBlockSize bi) (tail : List R) (g : Fin rows → R) :
    spmmBlockRow A (List.ofFn x) bi bj idx (List.ofFn g ++ tail) r =
      some (List.ofFn (g + fun i : Fin rows => if i.val = bi * bcsrBlockSize + r then blockTerm dense x bj i else 0) ++ tail) := by
  have row := (mem_ragged.mp hr).2
  have sum : (ragged cols bcsrBlockSize bj).foldlM (fun sum c => do
      let val ← A.values[idx * bcsrBlockSize * bcsrBlockSize + (r * bcsrBlockSize + c)]?
      let x ← (List.ofFn x)[bj * bcsrBlockSize + c]?
      some (sum + val * x)) 0 = some (0 + blockTerm dense x bj (bi * bcsrBlockSize + r)) := by
    refine foldlM_sum id _ (fun v c hc => ?_) 0
    have col := (mem_ragged.mp hc).2
    have b : (List.ofFn x)[bj * bcsrBlockSize + c]? = some (x ⟨_, col⟩) := by
      rw [List.getElem?_ofFn, dif_pos col]
    rw [holds r hr c hc, b, dif_pos col]
    rfl
  have old : (List.ofFn g ++ tail)[bi * bcsrBlockSize + r]? = some (g ⟨_, row⟩) := by
    rw [List.getElem?_append_left (by rw [List.length_ofFn]; exact row), List.getElem?_ofFn, dif_pos row]
  rw [spmmBlockRow, sameCols, sum, Option.bind_eq_bind, Option.bind_some, old, Option.bind_some,
    writeAt_eq (by rw [List.length_append, List.length_ofFn]; omega), zero_add]
  have place := set_ofFn g tail ⟨_, row⟩ (g ⟨_, row⟩ + blockTerm dense x bj (bi * bcsrBlockSize + r))
  dsimp only at place
  rw [place]
  congr 3
  funext i
  rw [Function.update_apply, Pi.add_apply]
  by_cases eq : i = ⟨_, row⟩
  · rw [if_pos eq, if_pos (congrArg Fin.val eq), eq]
  · rw [if_neg eq, if_neg fun val => eq (Fin.ext val), add_zero]

omit [LinearOrder R] in
/-- One block: of its row of blocks, every row gets its part. -/
theorem spmmBlock_eq (x : Fin cols → R) {bi bj idx : Nat} (created : CreatedFor rows cols A)
    (col : A.colIdx[idx]? = some bj) (holds : Holds dense A.values idx (bi, bj)) (tail : List R) (g : Fin rows → R) :
    spmmBlock A (List.ofFn x) bi (List.ofFn g ++ tail) idx =
      some (List.ofFn (g + fun i : Fin rows => if i.val / bcsrBlockSize = bi then blockTerm dense x bj i else 0) ++ tail) := by
  rw [spmmBlock, col, created.sameRows, Option.bind_eq_bind, Option.bind_some,
    foldlM_sum (fun g : Fin rows → R => List.ofFn g ++ tail) _
      fun g r hr => spmmBlockRow_eq x created.sameCols holds hr tail g]
  congr 4
  funext i
  rw [Pi.list_sum_apply, List.map_map]
  exact ragged_single (by decide) i.isLt bi (blockTerm dense x bj i)

/-- One row of blocks. -/
theorem spmmBlocks_eq (x : Fin cols → R) (of : BcsrOf dense A) {bi : Nat} (lt : bi < tiles rows bcsrBlockSize)
    (tail : List R) (g : Fin rows → R) :
    spmmBlocks A (List.ofFn x) (List.ofFn g ++ tail) bi =
      some (List.ofFn (g + fun i : Fin rows => if i.val / bcsrBlockSize = bi then
        ((bigIn dense bi (tiles cols bcsrBlockSize)).map fun e => blockTerm dense x e.2 i).sum else 0) ++ tail) := by
  have row : bi < (allBlocks dense).length := by
    rw [allBlocks, bigRows, List.length_map, List.length_range]
    exact lt
  have here : (allBlocks dense)[bi] = bigIn dense bi (tiles cols bcsrBlockSize) := by
    simp [allBlocks, bigRows]
  have last : offset (allBlocks dense) (bi + 1) ≤ (allBlocks dense).flatten.length := by
    rw [← offset_of_length_le (Nat.le_refl _)]
    exact offset_mono _ row
  have adds (v : Fin rows → R) (j : Nat) (mem : j ∈ List.range' (offset (allBlocks dense) bi)
      (offset (allBlocks dense) (bi + 1) - offset (allBlocks dense) bi)) :
      spmmBlock A (List.ofFn x) bi (List.ofFn v ++ tail) j =
        some (List.ofFn (v + (allBlocks dense).flatten[j]?.elim 0 fun e =>
          fun i : Fin rows => if i.val / bcsrBlockSize = bi then blockTerm dense x e.2 i else 0) ++ tail) := by
    obtain ⟨⟨bi', bj⟩, at_j⟩ : ∃ e, (allBlocks dense).flatten[j]? = some e := by
      have := List.mem_range'_1.mp mem
      exact ⟨_, List.getElem?_eq_getElem (by omega)⟩
    have inside := mem_places mem at_j
    rw [drop_take_flatten row, here, bigIn] at inside
    obtain ⟨_, -, eq⟩ := List.mem_map.mp inside
    obtain ⟨rfl, -⟩ := Prod.mk.inj eq
    have col : A.colIdx[j]? = some bj := by
      rw [of.colIdx, List.getElem?_map, at_j]
      rfl
    rw [spmmBlock_eq x of.created col (of.holds j _ at_j) tail v, at_j]
    rfl
  rw [spmmBlocks, of.rowPtr, getElem?_offsets (Nat.le_of_lt row), getElem?_offsets row, Option.bind_eq_bind,
    Option.bind_some, Option.bind_some, foldlM_sum (fun g : Fin rows → R => List.ofFn g ++ tail) _ adds,
    sum_places _ last, drop_take_flatten row, here]
  congr 4
  funext i
  rw [Pi.list_sum_apply, List.map_map]
  exact sum_map_ite _ _ _

/-- Row `i` of the product, with the entries of all other blocks taken as zeros. -/
theorem sum_blocks (dense : Vector R (rows * cols)) (x : Fin cols → R) (i : Fin rows) :
    ((bigIn dense (i / bcsrBlockSize) (tiles cols bcsrBlockSize)).map fun e => blockTerm dense x e.2 i).sum =
      ∑ j : Fin cols, (if blockBig dense (i / bcsrBlockSize) (j / bcsrBlockSize) then dense.get (cell i j) else 0) * x j := by
  have whole := sum_tiles (n := cols) (by decide : 0 < bcsrBlockSize) fun k =>
    (if blockBig dense (i / bcsrBlockSize) (k / bcsrBlockSize) then padded dense i k else 0) *
      if h : k < cols then x ⟨k, h⟩ else 0
  have terms (j : Fin cols) : (if blockBig dense (i / bcsrBlockSize) (j / bcsrBlockSize) then dense.get (cell i j) else 0) * x j =
      (if blockBig dense (i / bcsrBlockSize) (j / bcsrBlockSize) then padded dense i j else 0) *
        if h : j.val < cols then x ⟨j, h⟩ else 0 := by
    rw [padded_cell, dif_pos j.isLt]
    rfl
  have filtered := sum_filter_range (tiles cols bcsrBlockSize) (blockBig dense (i / bcsrBlockSize))
    fun bj => blockTerm dense x bj i
  rw [bigIn, List.map_map, Finset.sum_congr rfl fun j _ => terms j, ← whole]
  refine filtered.trans ?_
  rw [Finset.sum_range]
  refine Finset.sum_congr rfl fun bj _ => ?_
  rw [blockTerm, ragged_sum]
  split
  · rename_i big
    refine Finset.sum_congr rfl fun c _ => ?_
    have block : (bj.val * bcsrBlockSize + c.val) / bcsrBlockSize = bj := by
      have := c.isLt
      unfold bcsrBlockSize at *
      omega
    rw [block, if_pos big]
  · rename_i small
    refine (Finset.sum_eq_zero fun c _ => ?_).symm
    have block : (bj.val * bcsrBlockSize + c.val) / bcsrBlockSize = bj := by
      have := c.isLt
      unfold bcsrBlockSize at *
      omega
    rw [block, if_neg small, zero_mul, ite_self]

/-- The product of a converted matrix is that of the blocks that count. -/
theorem bcsrSpmm_eq (x : Fin cols → R) (of : BcsrOf dense A) {result : List R} (room : rows ≤ result.length) :
    bcsrSpmm A (List.ofFn x) result = some (List.ofFn (fun i : Fin rows => ∑ j : Fin cols,
      (if blockBig dense (i / bcsrBlockSize) (j / bcsrBlockSize) then dense.get (cell i j) else 0) * x j) ++
        result.drop rows) := by
  have clear (i : Nat) (mid : List R) (lt : i < rows) (done : mid = List.replicate i 0 ++ result.drop i) :
      ∃ next, writeAt mid i 0 = some next ∧ next = List.replicate (i + 1) 0 ++ result.drop (i + 1) := by
    refine ⟨_, writeAt_eq (by rw [done, List.length_append, List.length_replicate, List.length_drop]; omega) 0, ?_⟩
    rw [done, List.set_append_right _ _ (Nat.le_of_eq List.length_replicate), List.length_replicate, Nat.sub_self,
      List.drop_eq_getElem_cons (by omega : i < result.length), List.set_cons_zero, List.replicate_succ', List.append_assoc]
    rfl
  obtain ⟨zeros, memset, eq⟩ := foldlM_range (fun i mid => mid = List.replicate i (0 : R) ++ result.drop i) clear
    (rfl : result = List.replicate 0 0 ++ result.drop 0)
  have start : zeros = List.ofFn (0 : Fin rows → R) ++ result.drop rows := by
    rw [eq, ← List.ofFn_const]
    rfl
  have blocks := foldlM_sum (fun g : Fin rows → R => List.ofFn g ++ result.drop rows) _
    (fun g bi mem => spmmBlocks_eq x of (List.mem_range.mp mem) (result.drop rows) g) 0
  rw [bcsrSpmm, of.created.sameRows, of.created.blockRows, memset, Option.bind_eq_bind, Option.bind_some, start, blocks]
  congr 3
  funext i
  rw [zero_add, Pi.list_sum_apply, List.map_map, ← sum_blocks]
  have one := Finset.sum_ite_eq (Finset.range (tiles rows bcsrBlockSize)) (i.val / bcsrBlockSize) fun bi =>
    ((bigIn dense bi (tiles cols bcsrBlockSize)).map fun e => blockTerm dense x e.2 i).sum
  rw [if_pos (Finset.mem_range.mpr (div_lt_tiles (by decide) i.isLt))] at one
  exact one

end Product

/-! ## Which matrices are converted -/

section Conversion
variable {R : Type} [Field R] [LinearOrder R] {rows cols : Nat}

/-- A block with an entry above the threshold. -/
def BigBlock (dense : Vector R (rows * cols)) (bi bj : Nat) : Prop :=
  ∃ (i : Fin rows) (j : Fin cols), i.val / bcsrBlockSize = bi ∧ j.val / bcsrBlockSize = bj ∧
    |dense.get (cell i j)| > 1 / (10 ^ 7 : Nat)

instance (dense : Vector R (rows * cols)) (bi bj : Nat) : Decidable (BigBlock dense bi bj) :=
  inferInstanceAs (Decidable (∃ (i : Fin rows) (j : Fin cols), i.val / bcsrBlockSize = bi ∧
    j.val / bcsrBlockSize = bj ∧ |dense.get (cell i j)| > 1 / (10 ^ 7 : Nat)))

variable {dense : Vector R (rows * cols)}

/-- The test of the code, as a property of the matrix. -/
theorem blockBig_iff {bi bj : Nat} : blockBig dense bi bj = true ↔ BigBlock dense bi bj := by
  constructor
  · intro big
    obtain ⟨r, hr, inner⟩ := List.any_eq_true.mp big
    obtain ⟨c, hc, big⟩ := List.any_eq_true.mp inner
    obtain ⟨small, row⟩ := mem_ragged.mp hr
    obtain ⟨small', col⟩ := mem_ragged.mp hc
    rw [padded, dif_pos ⟨row, col⟩] at big
    refine ⟨⟨_, row⟩, ⟨_, col⟩, ?_, ?_, of_decide_eq_true big⟩
    · show (bi * bcsrBlockSize + r) / bcsrBlockSize = bi
      unfold bcsrBlockSize at *
      omega
    · show (bj * bcsrBlockSize + c) / bcsrBlockSize = bj
      unfold bcsrBlockSize at *
      omega
  · rintro ⟨i, j, rfl, rfl, big⟩
    have parts := Nat.div_add_mod' i.val bcsrBlockSize
    have parts' := Nat.div_add_mod' j.val bcsrBlockSize
    refine List.any_eq_true.mpr ⟨i % bcsrBlockSize, mem_ragged.mpr ⟨Nat.mod_lt _ (by decide), by omega⟩, ?_⟩
    refine List.any_eq_true.mpr ⟨j % bcsrBlockSize, mem_ragged.mpr ⟨Nat.mod_lt _ (by decide), by omega⟩, ?_⟩
    rw [parts, parts', padded, dif_pos ⟨i.isLt, j.isLt⟩]
    exact decide_eq_true big

/-- The blocks that are kept. -/
theorem mem_allBlocks {e : Nat × Nat} : e ∈ (allBlocks dense).flatten ↔
    e.1 < tiles rows bcsrBlockSize ∧ e.2 < tiles cols bcsrBlockSize ∧ BigBlock dense e.1 e.2 := by
  rw [allBlocks, bigRows, List.mem_flatten]
  constructor
  · rintro ⟨l, row, inside⟩
    obtain ⟨bi, lt, rfl⟩ := List.mem_map.mp row
    obtain ⟨bj, col, rfl⟩ := List.mem_map.mp inside
    obtain ⟨lt', big⟩ := List.mem_filter.mp col
    exact ⟨List.mem_range.mp lt, List.mem_range.mp lt', blockBig_iff.mp big⟩
  · rintro ⟨lt, lt', big⟩
    refine ⟨_, List.mem_map.mpr ⟨e.1, List.mem_range.mpr lt, rfl⟩, List.mem_map.mpr ⟨e.2, ?_, rfl⟩⟩
    exact List.mem_filter.mpr ⟨List.mem_range.mpr lt', blockBig_iff.mpr big⟩

/-- No block counts exactly if no entry does. -/
theorem allBlocks_eq_nil (dense : Vector R (rows * cols)) : (allBlocks dense).flatten = [] ↔
    ∀ (i : Fin rows) (j : Fin cols), |dense.get (cell i j)| ≤ 1 / (10 ^ 7 : Nat) := by
  rw [List.eq_nil_iff_forall_not_mem]
  constructor
  · intro none i j
    by_contra big
    refine none (i / bcsrBlockSize, j / bcsrBlockSize) (mem_allBlocks.mpr ⟨?_, ?_, i, j, rfl, rfl, not_le.mp big⟩)
    · exact div_lt_tiles (by decide) i.isLt
    · exact div_lt_tiles (by decide) j.isLt
  · intro small e mem
    obtain ⟨-, -, i, j, -, -, big⟩ := mem_allBlocks.mp mem
    exact absurd (small i j) (not_le.mpr big)

/-- The index arrays of a converted matrix are in order. -/
theorem rowsIndexed_bcsrOf {A : BCSRMatrix R} (of : BcsrOf dense A) :
    RowsIndexed A.rowPtr A.colIdx A.blockRows A.blockCols A.nnzBlocks := by
  have length : (allBlocks dense).length = tiles rows bcsrBlockSize := by
    rw [allBlocks, bigRows, List.length_map, List.length_range]
  rw [of.rowPtr, of.colIdx, of.nnzBlocks, of.created.blockRows, of.created.blockCols, ← length]
  refine rowsIndexed_offsets (fun e : Nat × Nat => e.2) (fun bi lt => ?_) fun bi lt e mem => ?_
  · have row : (allBlocks dense)[bi] = bigIn dense bi (tiles cols bcsrBlockSize) := by
      simp [allBlocks, bigRows]
    rw [row, bigIn, List.pairwise_map, List.pairwise_map]
    exact List.pairwise_lt_range.filter _
  · exact (mem_allBlocks.mp (List.mem_flatten.mpr ⟨_, List.getElem_mem lt, mem⟩)).2.1

/-- Where there is nothing to convert and the allocator says so, the pointers stay as they
were; otherwise the last block must be one that counts. -/
theorem bcsr_from_dense_iff (nullOnZero : Bool) (found : Nat → Nat) (dense : Vector R (rows * cols)) (bcsr : BCSRMatrix R)
    (created : CreatedFor rows cols bcsr) :
    (∃ A, bcsrFromDense nullOnZero found dense bcsr = some A ∧
      RowsIndexed A.rowPtr A.colIdx A.blockRows A.blockCols A.nnzBlocks ∧
      ∀ (x : Fin cols → R) (result : List R), rows ≤ result.length →
        bcsrSpmm A (List.ofFn x) result = some (List.ofFn (fun i : Fin rows => ∑ j : Fin cols,
          (if BigBlock dense (i / bcsrBlockSize) (j / bcsrBlockSize) then dense.get (cell i j) else 0) * x j) ++
            result.drop rows)) ↔
    if nullOnZero = true ∧ ∀ (i : Fin rows) (j : Fin cols), |dense.get (cell i j)| ≤ 1 / (10 ^ 7 : Nat) then
      ∀ p ∈ bcsr.rowPtr, p = 0
    else rows = 0 ∨ cols = 0 ∨ BigBlock dense ((rows - 1) / bcsrBlockSize) ((cols - 1) / bcsrBlockSize) := by
  have product (A : BCSRMatrix R) (of : BcsrOf dense A) (x : Fin cols → R) (result : List R) (room : rows ≤ result.length) :
      bcsrSpmm A (List.ofFn x) result = some (List.ofFn (fun i : Fin rows => ∑ j : Fin cols,
        (if BigBlock dense (i / bcsrBlockSize) (j / bcsrBlockSize) then dense.get (cell i j) else 0) * x j) ++
          result.drop rows) := by
    rw [bcsrSpmm_eq x of room]
    simp only [blockBig_iff]
  have empty := allBlocks_eq_nil dense
  rw [bcsrFromDense_eq nullOnZero found created]
  by_cases fails : nullOnZero = true ∧ ∀ (i : Fin rows) (j : Fin cols), |dense.get (cell i j)| ≤ 1 / (10 ^ 7 : Nat)
  · rw [if_pos ⟨fails.1, empty.mpr fails.2⟩, if_pos fails]
    constructor
    · rintro ⟨A, eq, indexed, -⟩
      obtain rfl := Option.some.inj eq
      exact indexed.zeros
    · intro zeros
      have nil := empty.mpr fails.2
      have of : BcsrOf dense { bcsr with nnzBlocks := 0, colIdx := [], values := [] } := by
        refine ⟨⟨created.sameRows, created.sameCols, created.blockRows, created.blockCols, created.ptrs⟩, ?_, ?_, ?_, ?_⟩
        · rw [nil]
          rfl
        · rw [offsets_of_nil nil, allBlocks, bigRows, List.length_map, List.length_range, ← created.blockRows, ← created.ptrs]
          exact List.eq_replicate_of_mem zeros
        · rw [nil]
          rfl
        · rw [nil]
          exact nofun
      exact ⟨_, rfl, rowsIndexed_bcsrOf of, product _ of⟩
  · rw [if_neg fun nil => fails ⟨nil.1, empty.mp nil.2⟩, if_neg fails, ← blockBig_iff]
    constructor
    · rintro ⟨A, eq, -⟩
      obtain ⟨s, loop, -⟩ := Option.map_eq_some_iff.mp eq
      exact lastBig_of_secondPass found created loop
    · intro right
      obtain ⟨s, loop, of⟩ := secondPass_of_lastBig found created right
      exact ⟨s.1, by rw [loop]; rfl, rowsIndexed_bcsrOf of, product _ of⟩

/-- One row, of a block with an entry and one without. -/
def oneEntry : Vector Rat (1 * 8) := ⟨#[1, 0, 0, 0, 0, 0, 0, 0], rfl⟩

/-- The same row the other way round, whose last block counts. -/
def lastEntry : Vector Rat (1 * 8) := ⟨#[0, 0, 0, 0, 0, 0, 0, 1], rfl⟩

/-- The second row is converted; the first is not, as its last block has no entry that counts. -/
theorem bcsr_from_dense_iff_rows :
    (∃ A, bcsrFromDense false (fun _ => 7) lastEntry (bcsrCreate Rat 1 8) = some A ∧
      RowsIndexed A.rowPtr A.colIdx A.blockRows A.blockCols A.nnzBlocks) ∧
    ¬ ∃ A, bcsrFromDense false (fun _ => 7) oneEntry (bcsrCreate Rat 1 8) = some A ∧
      RowsIndexed A.rowPtr A.colIdx A.blockRows A.blockCols A.nnzBlocks ∧
      ∀ (x : Fin 8 → Rat) (result : List Rat), 1 ≤ result.length →
        bcsrSpmm A (List.ofFn x) result = some (List.ofFn (fun i : Fin 1 => ∑ j : Fin 8,
          (if BigBlock oneEntry (i / bcsrBlockSize) (j / bcsrBlockSize) then oneEntry.get (cell i j) else 0) * x j) ++
            result.drop 1) := by
  have created : CreatedFor 1 8 (bcsrCreate Rat 1 8) := ⟨rfl, rfl, rfl, rfl, rfl⟩
  have last := bcsr_from_dense_iff false (fun _ => 7) lastEntry (bcsrCreate Rat 1 8) created
  have first := bcsr_from_dense_iff false (fun _ => 7) oneEntry (bcsrCreate Rat 1 8) created
  rw [if_neg (by simp)] at last first
  constructor
  · obtain ⟨A, converted, indexed, -⟩ := last.2 (.inr (.inr (by decide +kernel)))
    exact ⟨A, converted, indexed⟩
  · rw [first]
    decide +kernel

/-- The second block is written behind the one slot. -/
theorem bcsr_from_dense_overruns :
    ¬∀ (nullOnZero : Bool) (found : Nat → Nat) (rows cols : Nat) (dense : Vector Rat (rows * cols)),
      ∃ A, bcsrFromDense nullOnZero found dense (bcsrCreate Rat rows cols) = some A ∧
        RowsIndexed A.rowPtr A.colIdx A.blockRows A.blockCols A.nnzBlocks ∧
        ∀ (x : Fin cols → Rat) (result : List Rat), rows ≤ result.length →
          bcsrSpmm A (List.ofFn x) result = some (List.ofFn (fun i : Fin rows => ∑ j : Fin cols,
            (if BigBlock dense (i / bcsrBlockSize) (j / bcsrBlockSize) then dense.get (cell i j) else 0) * x j) ++
              result.drop rows) := by
  intro claim
  obtain ⟨A, eq, -⟩ := claim false (fun _ => 7) 1 8 oneEntry
  have none : (bcsrFromDense false (fun _ => 7) oneEntry (bcsrCreate Rat 1 8)).isNone := by decide +kernel
  rw [eq] at none
  exact nomatch none

end Conversion

end MiniHardware.Accel
