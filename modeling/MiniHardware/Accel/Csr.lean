import MiniHardware.Accel.Mma
import MiniHardware.Lib.Fill
import MiniHardware.Lib.Segments
import Mathlib.Algebra.Order.Field.Basic
import Mathlib.Algebra.Order.Field.Rat

/-!
# Compressed sparse rows (`mini-ai-accelerator/src/sparse_accel.c`)

The entries above the threshold stand row by row in two arrays, and `row_ptr`
has the places where the rows begin. The numbers are those of an ordered field,
where the source has `float`. Allocations succeed, and the memory they return has
contents of its own; an access outside an array has no result.
-/

namespace MiniHardware.Accel
open Lib

/-- `MAX_SPARSE_ENTRIES`. -/
def maxSparseEntries : Nat := 65536

structure SparseMatrix (R : Type) where
  rows : Nat
  cols : Nat
  nnz : Nat
  rowPtr : List Nat
  colIdx : List Nat
  values : List R

section Model
variable {R : Type} [Field R] [LinearOrder R]

/-- `fabsf(val) > 1e-7f`. -/
def isBig (val : R) : Bool := |val| > 1 / (10 ^ 7 : Nat)

/-- What was there, and what is found in the new part. -/
def realloc {β : Type*} (old : List β) (size : Nat) (found : Nat → β) : List β :=
  (List.range size).map fun i => old[i]?.getD (found i)

variable {rows cols : Nat}

/-- The first loop. -/
def countBig (dense : Vector R (rows * cols)) : Nat :=
  (List.finRange (rows * cols)).foldl (fun nnz i => if isBig (dense.get i) then nnz + 1 else nnz) 0

/-- The body of the loop over `j`, with `idx`. -/
def csrEntry (dense : Vector R (rows * cols)) (i : Fin rows) (s : SparseMatrix R × Nat) (j : Fin cols) :
    Option (SparseMatrix R × Nat) :=
  let (sparse, idx) := s
  let val := dense.get (cell i j)
  if isBig val then do
    let colIdx ← writeAt sparse.colIdx idx j.val
    let values ← writeAt sparse.values idx val
    some ({ sparse with colIdx, values }, idx + 1)
  else some s

/-- The body of the loop over `i`. -/
def csrRow (dense : Vector R (rows * cols)) (s : SparseMatrix R × Nat) (i : Fin rows) :
    Option (SparseMatrix R × Nat) := do
  let (sparse, idx) ← (List.finRange cols).foldlM (csrEntry dense i) s
  let rowPtr ← writeAt sparse.rowPtr (i.val + 1) idx
  some ({ sparse with rowPtr }, idx)

def sparseCsrFromDense (foundInt : Nat → Nat) (foundFloat : Nat → R) (dense : Vector R (rows * cols))
    (sparse : SparseMatrix R) : Option (SparseMatrix R) :=
  let nnz := countBig dense
  let sparse := { sparse with rows, cols, nnz }
  if nnz > maxSparseEntries then some { sparse with nnz := 0 }
  else do
    let sparse := { sparse with
      rowPtr := realloc sparse.rowPtr (rows + 1) foundInt
      colIdx := realloc sparse.colIdx nnz foundInt
      values := realloc sparse.values nnz foundFloat }
    let rowPtr ← writeAt sparse.rowPtr 0 0
    let (sparse, _) ← (List.finRange rows).foldlM (csrRow dense) ({ sparse with rowPtr }, 0)
    some sparse

/-- The body of the loop over `j`. -/
def spmmEntry (A : SparseMatrix R) (denseB : List R) (i : Nat) (result : List R) (j : Nat) : Option (List R) := do
  let col ← A.colIdx[j]?
  let val ← A.values[j]?
  let b ← denseB[col]?
  let r ← result[i]?
  writeAt result i (r + val * b)

/-- The body of the loop over `i`. -/
def spmmRow (A : SparseMatrix R) (denseB result : List R) (i : Nat) : Option (List R) := do
  let result ← writeAt result i 0
  let start ← A.rowPtr[i]?
  let stop ← A.rowPtr[i + 1]?
  (List.range' start (stop - start)).foldlM (spmmEntry A denseB i) result

def sparseSpmm (A : SparseMatrix R) (denseB result : List R) : Option (List R) :=
  (List.range A.rows).foldlM (spmmRow A denseB) result

end Model

/-! ## The entries that are kept -/

section Entries
variable {R : Type} [Field R] [LinearOrder R] {rows cols : Nat}

/-- An entry with its column, if it is kept. -/
def keptEntry (dense : Vector R (rows * cols)) (i : Fin rows) (j : Fin cols) : Option (Fin cols × R) :=
  if isBig (dense.get (cell i j)) then some (j, dense.get (cell i j)) else none

theorem keptEntry_column {dense : Vector R (rows * cols)} {i : Fin rows} {j : Fin cols} {e : Fin cols × R}
    (kept : keptEntry dense i j = some e) : e.1 = j := by
  rw [keptEntry] at kept
  split at kept
  · rw [← Option.some.inj kept]
  · exact nomatch kept

def rowEntries (dense : Vector R (rows * cols)) (i : Fin rows) : List (Fin cols × R) :=
  (List.finRange cols).filterMap (keptEntry dense i)

def allRows (dense : Vector R (rows * cols)) : List (List (Fin cols × R)) :=
  (List.finRange rows).map (rowEntries dense)

variable {dense : Vector R (rows * cols)}

theorem length_allRows (dense : Vector R (rows * cols)) : (allRows dense).length = rows := by
  rw [allRows, List.length_map, List.length_finRange]

theorem getElem_allRows (i : Fin rows) (lt : i.val < (allRows dense).length) :
    (allRows dense)[i.val] = rowEntries dense i := by
  simp [allRows]

theorem foldl_count {ι : Type*} (p : ι → Bool) (l : List ι) (n : Nat) :
    l.foldl (fun n i => if p i then n + 1 else n) n = n + l.countP p := by
  induction l generalizing n with
  | nil => rfl
  | cons i l ih =>
    rw [List.foldl_cons, ih, List.countP_cons]
    split <;> omega

/-- The first loop finds the room the second one needs. -/
theorem countBig_eq : countBig dense = (allRows dense).flatten.length := by
  have cells : List.finRange (rows * cols) = ((List.finRange rows).map fun i => (List.finRange cols).map (cell i)).flatten := by
    rw [← List.ofFn_id, List.ofFn_mul, List.ofFn_eq_map]
    congr 1
    refine List.map_congr_left fun i _ => ?_
    rw [List.ofFn_eq_map]
    rfl
  rw [countBig, foldl_count (fun i => isBig (dense.get i)), Nat.zero_add, cells, List.countP_flatten, List.length_flatten,
    allRows, List.map_map, List.map_map]
  congr 1
  refine List.map_congr_left fun i _ => ?_
  rw [Function.comp_apply, Function.comp_apply, List.countP_map, rowEntries, List.length_filterMap_eq_countP]
  refine List.countP_congr fun j _ => ?_
  rw [Function.comp_apply, keptEntry]
  split
  · rename_i big
    exact iff_of_true big rfl
  · rename_i small
    exact iff_of_false small nofun

end Entries

/-! ## The second loop -/

section Filling
variable {R : Type} [Field R] [LinearOrder R] {rows cols : Nat} {dense : Vector R (rows * cols)}

/-- The entries `E` have been written. -/
structure Filled (rows nnz : Nat) (rowPtr : List Nat) (E : List (Fin cols × R)) (s : SparseMatrix R × Nat) : Prop where
  shape : s.1 = { rows, cols, nnz, rowPtr, colIdx := s.1.colIdx, values := s.1.values }
  idx : s.2 = E.length
  colIdx : E.map (·.1.val) <+: s.1.colIdx
  values : E.map (·.2) <+: s.1.values
  room : s.1.colIdx.length = nnz
  room' : s.1.values.length = nnz

variable {nnz : Nat} {rowPtr : List Nat} {E : List (Fin cols × R)} {s : SparseMatrix R × Nat}

theorem csrEntry_filled (i : Fin rows) (j : Fin cols) (filled : Filled rows nnz rowPtr E s)
    (fits : (E ++ (keptEntry dense i j).toList).length ≤ nnz) :
    ∃ s', csrEntry dense i s j = some s' ∧
      Filled rows nnz rowPtr (E ++ (keptEntry dense i j).toList) s' := by
  obtain ⟨sparse, idx⟩ := s
  obtain ⟨shape, rfl, colIdx, values, room, room'⟩ := filled
  unfold csrEntry keptEntry at *
  dsimp only at *
  by_cases big : isBig (dense.get (cell i j))
  · rw [if_pos big] at fits
    rw [if_pos big, if_pos big, Option.toList_some]
    rw [Option.toList_some, List.length_append, List.length_singleton] at fits
    rw [writeAt_eq (by omega), writeAt_eq (by omega)]
    refine ⟨_, rfl, ?_, ?_, ?_, ?_, ?_, ?_⟩
    · rw [shape]
    · rw [List.length_append]
      rfl
    · rw [List.map_append]
      have := prefix_set colIdx (by rw [List.length_map]; omega) j.val
      rwa [List.length_map] at this
    · rw [List.map_append]
      have := prefix_set values (by rw [List.length_map]; omega) (dense.get (cell i j))
      rwa [List.length_map] at this
    · rw [List.length_set, room]
    · rw [List.length_set, room']
  · rw [if_neg big, if_neg big, Option.toList_none, List.append_nil]
    exact ⟨_, rfl, shape, rfl, colIdx, values, room, room'⟩

/-- The loop over `j` writes the entries of the row. -/
theorem csrEntries_filled (i : Fin rows) (filled : Filled rows nnz rowPtr E s)
    (fits : (E ++ rowEntries dense i).length ≤ nnz) :
    ∃ s', (List.finRange cols).foldlM (csrEntry dense i) s = some s' ∧
      Filled rows nnz rowPtr (E ++ rowEntries dense i) s' := by
  refine foldlM_rounds (fun done s => Filled rows nnz rowPtr (E ++ done.filterMap (keptEntry dense i)) s)
    (fun done j rest s eq inv => ?_) (by rw [List.filterMap_nil, List.append_nil]; exact filled)
  have one : (done ++ [j]).filterMap (keptEntry dense i) =
      done.filterMap (keptEntry dense i) ++ (keptEntry dense i j).toList := by
    rw [List.filterMap_append]
    cases kept : keptEntry dense i j <;> simp [kept]
  have all : rowEntries dense i = (done ++ [j]).filterMap (keptEntry dense i) ++ rest.filterMap (keptEntry dense i) := by
    rw [rowEntries, eq, ← List.filterMap_append]
    simp
  rw [one, ← List.append_assoc]
  refine csrEntry_filled i j inv ?_
  rw [all, one, ← List.append_assoc, ← List.append_assoc, List.length_append] at fits
  omega

theorem csrRow_filled (i : Fin rows) (filled : Filled rows nnz rowPtr E s)
    (fits : (E ++ rowEntries dense i).length ≤ nnz) (long : rowPtr.length = rows + 1) :
    ∃ s', csrRow dense s i = some s' ∧ Filled rows nnz
      (rowPtr.set (i + 1) (E ++ rowEntries dense i).length) (E ++ rowEntries dense i) s' := by
  obtain ⟨⟨sparse, idx⟩, entries, filled⟩ := csrEntries_filled i filled fits
  obtain ⟨shape, rfl, colIdx, values, room, room'⟩ := filled
  have ptr : sparse.rowPtr = rowPtr := congrArg SparseMatrix.rowPtr shape
  refine ⟨({ sparse with rowPtr := rowPtr.set (i + 1) (E ++ rowEntries dense i).length }, (E ++ rowEntries dense i).length),
    ?_, ⟨?_, rfl, colIdx, values, room, room'⟩⟩
  · rw [csrRow, entries]
    dsimp only [Option.bind_eq_bind, Option.bind_some]
    rw [ptr, writeAt_eq (by omega)]
    rfl
  · dsimp only at *
    rw [shape]

/-- The rows of a matrix, as they are laid out. -/
def csrOf (dense : Vector R (rows * cols)) : SparseMatrix R where
  rows := rows
  cols := cols
  nnz := (allRows dense).flatten.length
  rowPtr := offsets (allRows dense)
  colIdx := (allRows dense).flatten.map (·.1.val)
  values := (allRows dense).flatten.map (·.2)

/-- The rows before row `k` have been written. -/
def RowsFilled (dense : Vector R (rows * cols)) (k : Nat) (s : SparseMatrix R × Nat) : Prop :=
  ∃ rowPtr, rowPtr.length = rows + 1 ∧ (List.range (k + 1)).map (offset (allRows dense)) <+: rowPtr ∧
    Filled rows (allRows dense).flatten.length rowPtr ((allRows dense).take k).flatten s

theorem rowsFilled_start (dense : Vector R (rows * cols)) {rowPtr colIdx : List Nat} {values : List R} (long : rowPtr.length = rows + 1)
    (first : [0] <+: rowPtr) (room : colIdx.length = countBig dense) (room' : values.length = countBig dense) :
    RowsFilled dense 0 (⟨rows, cols, countBig dense, rowPtr, colIdx, values⟩, 0) := by
  rw [countBig_eq] at room room' ⊢
  exact ⟨rowPtr, long, first, rfl, rfl, List.nil_prefix, List.nil_prefix, room, room'⟩

theorem csrRow_rowsFilled (i : Fin rows) (filled : RowsFilled dense i s) :
    ∃ s', csrRow dense s i = some s' ∧ RowsFilled dense (i + 1) s' := by
  obtain ⟨rowPtr, long, ptrs, filled⟩ := filled
  have lt : i.val < (allRows dense).length := by
    rw [length_allRows]
    exact i.isLt
  have next := flatten_take_succ lt
  rw [getElem_allRows i lt] at next
  have most := offset_mono (allRows dense) (Nat.succ_le_of_lt lt)
  rw [offset_of_length_le (Nat.le_refl _), offset, next] at most
  obtain ⟨s', row, filled⟩ := csrRow_filled i filled most long
  refine ⟨s', row, _, ?_, ?_, next ▸ filled⟩
  · rw [List.length_set, long]
  · have more := prefix_set ptrs (by rw [List.length_map, List.length_range]; omega) (offset (allRows dense) (i + 1))
    rw [List.length_map, List.length_range] at more
    rw [List.range_succ, List.map_append]
    exact more

theorem rowsFilled_all (filled : RowsFilled dense rows s) : s.1 = csrOf dense := by
  obtain ⟨rowPtr, long, ptrs, filled⟩ := filled
  rw [List.take_of_length_le (Nat.le_of_eq (length_allRows dense))] at filled
  obtain ⟨shape, -, colIdx, values, room, room'⟩ := filled
  have ptr : rowPtr = offsets (allRows dense) := by
    rw [offsets, length_allRows]
    exact eq_of_prefix_full ptrs (by rw [List.length_map, List.length_range, long])
  rw [shape, csrOf, ptr, eq_of_prefix_full colIdx (by rw [List.length_map, room]),
    eq_of_prefix_full values (by rw [List.length_map, room'])]

/-- A conversion leaves the rows of its matrix, whatever was there before. -/
theorem sparseCsrFromDense_eq (foundInt : Nat → Nat) (foundFloat : Nat → R) (few : countBig dense ≤ maxSparseEntries)
    (sparse : SparseMatrix R) : sparseCsrFromDense foundInt foundFloat dense sparse = some (csrOf dense) := by
  have length {β : Type} (old : List β) (size : Nat) (found : Nat → β) : (realloc old size found).length = size := by
    rw [realloc, List.length_map, List.length_range]
  rw [sparseCsrFromDense]
  dsimp only
  rw [if_neg (Nat.not_lt.2 few), writeAt_eq (by rw [length]; omega)]
  dsimp only [Option.bind_eq_bind, Option.bind_some]
  have start := rowsFilled_start dense
    (by rw [List.length_set, length] : ((realloc sparse.rowPtr (rows + 1) foundInt).set 0 0).length = rows + 1) (prefix_set List.nil_prefix (by rw [length]; exact Nat.succ_pos _) 0)
    (length sparse.colIdx _ foundInt) (length sparse.values _ foundFloat)
  have keep (i : Fin rows) (s : SparseMatrix R × Nat) (filled : RowsFilled dense i s) :
      ∃ s', csrRow dense s i = some s' ∧ RowsFilled dense (i + 1) s' := csrRow_rowsFilled i filled
  obtain ⟨s', loop, filled⟩ := foldlM_finRange (RowsFilled dense) keep start
  rw [loop]
  exact congrArg some (rowsFilled_all filled)

end Filling

/-! ## The product -/

section Product
variable {R : Type} [Field R] [LinearOrder R] {rows cols : Nat} {dense : Vector R (rows * cols)}

/-- The sum of a row's entries is the sum of the row with the others as zeros. -/
theorem sum_rowEntries (i : Fin rows) (x : Fin cols → R) :
    ((rowEntries dense i).map fun e => e.2 * x e.1).sum =
      ∑ j, (if isBig (dense.get (cell i j)) then dense.get (cell i j) else 0) * x j := by
  have loop (l : List (Fin cols)) : ((l.filterMap (keptEntry dense i)).map fun e => e.2 * x e.1).sum =
      (l.map fun j => (if isBig (dense.get (cell i j)) then dense.get (cell i j) else 0) * x j).sum := by
    induction l with
    | nil => rfl
    | cons j l ih =>
      rw [List.filterMap_cons, List.map_cons, List.sum_cons, ← ih, keptEntry]
      by_cases big : isBig (dense.get (cell i j))
      · rw [if_pos big, if_pos big, List.map_cons, List.sum_cons]
      · rw [if_neg big, if_neg big, zero_mul, zero_add]
  rw [rowEntries, loop, ← List.ofFn_eq_map, List.sum_ofFn]

/-- Row `i` of the product, the other entries taken as zeros. -/
def productRow (dense : Vector R (rows * cols)) (x : Fin cols → R) (i : Fin rows) : R :=
  ∑ j, (if isBig (dense.get (cell i j)) then dense.get (cell i j) else 0) * x j

theorem spmmRow_csrOf (x : Fin cols → R) (i : Fin rows) {result : List R} (lt : i.val < result.length) :
    spmmRow (csrOf dense) (List.ofFn x) result i = some (result.set i (productRow dense x i)) := by
  have row : i.val < (allRows dense).length := by
    rw [length_allRows]
    exact i.isLt
  have last : offset (allRows dense) (i + 1) ≤ (allRows dense).flatten.length := by
    rw [← offset_of_length_le (Nat.le_refl _)]
    exact offset_mono _ row
  have start : (csrOf dense).rowPtr[i.val]? = some (offset (allRows dense) i) := getElem?_offsets (Nat.le_of_lt row)
  have stop : (csrOf dense).rowPtr[i.val + 1]? = some (offset (allRows dense) (i + 1)) := getElem?_offsets row
  have adds (v : R) (j : Nat) (mem : j ∈ List.range' (offset (allRows dense) i)
      (offset (allRows dense) (i + 1) - offset (allRows dense) i)) :
      spmmEntry (csrOf dense) (List.ofFn x) i (result.set i v) j =
        some (result.set i (v + (allRows dense).flatten[j]?.elim 0 fun e => e.2 * x e.1)) := by
    obtain ⟨e, at_j⟩ : ∃ e, (allRows dense).flatten[j]? = some e := by
      have := List.mem_range'_1.mp mem
      exact ⟨_, List.getElem?_eq_getElem (by omega)⟩
    have col : (csrOf dense).colIdx[j]? = some e.1.val := by
      rw [csrOf, List.getElem?_map, at_j]
      rfl
    have val : (csrOf dense).values[j]? = some e.2 := by
      rw [csrOf, List.getElem?_map, at_j]
      rfl
    have b : (List.ofFn x)[e.1.val]? = some (x e.1) := by simp
    rw [spmmEntry, col, val, at_j]
    dsimp only [Option.bind_eq_bind, Option.bind_some]
    rw [b, List.getElem?_set_self lt]
    dsimp only [Option.bind_some]
    rw [writeAt_eq (by rw [List.length_set]; exact lt), List.set_set]
    rfl
  rw [spmmRow, writeAt_eq lt, start, stop]
  dsimp only [Option.bind_eq_bind, Option.bind_some]
  rw [foldlM_sum (result.set i ·) _ adds, sum_places _ last, drop_take_flatten row, getElem_allRows i row, zero_add,
    sum_rowEntries]
  rfl

theorem sparseSpmm_csrOf (x : Fin cols → R) {result : List R} (room : rows ≤ result.length) :
    sparseSpmm (csrOf dense) (List.ofFn x) result = some (List.ofFn (productRow dense x) ++ result.drop rows) := by
  have length : (List.ofFn (productRow dense x)).length = rows := List.length_ofFn
  have keep (i : Nat) (mid : List R) (lt : i < rows) (done : mid = (List.ofFn (productRow dense x)).take i ++ result.drop i) :
      ∃ next, spmmRow (csrOf dense) (List.ofFn x) mid i = some next ∧
        next = (List.ofFn (productRow dense x)).take (i + 1) ++ result.drop (i + 1) := by
    have front : ((List.ofFn (productRow dense x)).take i).length = i := by
      rw [List.length_take, length]
      omega
    refine ⟨_, spmmRow_csrOf x ⟨i, lt⟩ (by rw [done, List.length_append, front, List.length_drop]; omega), ?_⟩
    rw [done, List.set_append_right _ _ (Nat.le_of_eq front), front, Nat.sub_self,
      List.drop_eq_getElem_cons (by omega : i < result.length), List.set_cons_zero,
      List.take_succ_eq_append_getElem (by rw [length]; exact lt), List.getElem_ofFn, List.append_assoc]
    rfl
  obtain ⟨out, loop, eq⟩ := foldlM_range
    (fun i mid => mid = (List.ofFn (productRow dense x)).take i ++ result.drop i) keep rfl
  rw [eq, List.take_of_length_le (Nat.le_of_eq length)] at loop
  exact loop

end Product

/-! ## Conversions -/

section Conversions
variable {R : Type} [Field R] [LinearOrder R]

/-- A matrix, and what the allocator's memory holds when it is converted. -/
structure Conversion (R : Type) where
  rows : Nat
  cols : Nat
  dense : Vector R (rows * cols)
  foundInt : Nat → Nat
  foundFloat : Nat → R

/-- Conversions into one sparse matrix, in order. -/
def convertAll (conversions : List (Conversion R)) (sparse : SparseMatrix R) : Option (SparseMatrix R) :=
  conversions.foldlM (fun sparse c => sparseCsrFromDense c.foundInt c.foundFloat c.dense sparse) sparse

variable {rows cols : Nat}

theorem rowsIndexed_csrOf (dense : Vector R (rows * cols)) :
    RowsIndexed (csrOf dense).rowPtr (csrOf dense).colIdx rows cols (csrOf dense).nnz := by
  have indexed : RowsIndexed (offsets (allRows dense)) ((allRows dense).flatten.map (·.1.val)) (allRows dense).length cols
      (allRows dense).flatten.length := by
    refine rowsIndexed_offsets (fun e : Fin cols × R => e.1.val) (fun i lt => ?_) fun i lt e _ => e.1.isLt
    rw [getElem_allRows ⟨i, length_allRows dense ▸ lt⟩ lt, List.pairwise_map, rowEntries, List.pairwise_filterMap]
    refine (List.pairwise_lt_finRange cols).imp fun lt e kept e' kept' => ?_
    rw [keptEntry_column kept, keptEntry_column kept']
    exact lt
  rwa [length_allRows] at indexed

theorem convertAll_isSome (conversions : List (Conversion R)) (sparse : SparseMatrix R)
    (few : ∀ c ∈ conversions, countBig c.dense ≤ maxSparseEntries) :
    ∃ A, convertAll conversions sparse = some A := by
  induction conversions generalizing sparse with
  | nil => exact ⟨sparse, rfl⟩
  | cons c conversions ih =>
    rw [convertAll, List.foldlM_cons, sparseCsrFromDense_eq _ _ (few c List.mem_cons_self)]
    exact ih (csrOf c.dense) fun c' mem => few c' (List.mem_cons_of_mem c mem)

/-- Whatever was converted before, the last matrix is laid out and multiplied with its
small entries as zeros. -/
theorem csr_from_dense_spmm (sparse : SparseMatrix R) (earlier : List (Conversion R)) (last : Conversion R)
    (few : ∀ c ∈ earlier ++ [last], countBig c.dense ≤ maxSparseEntries) :
    ∃ A, convertAll (earlier ++ [last]) sparse = some A ∧ A.rows = last.rows ∧ A.cols = last.cols ∧
      A.nnz = countBig last.dense ∧ RowsIndexed A.rowPtr A.colIdx A.rows A.cols A.nnz ∧
      ∀ (x : Fin last.cols → R) (result : List R), last.rows ≤ result.length →
        sparseSpmm A (List.ofFn x) result = some (List.ofFn (fun i => ∑ j,
          (if |last.dense.get (cell i j)| > 1 / (10 ^ 7 : Nat) then last.dense.get (cell i j) else 0) * x j) ++
            result.drop last.rows) := by
  obtain ⟨mid, before⟩ := convertAll_isSome earlier sparse fun c mem => few c (List.mem_append_left _ mem)
  refine ⟨csrOf last.dense, ?_, rfl, rfl, countBig_eq.symm, rowsIndexed_csrOf last.dense, fun x result room => ?_⟩
  · rw [convertAll] at before ⊢
    rw [List.foldlM_append, before]
    dsimp only [Option.bind_eq_bind, Option.bind_some]
    rw [List.foldlM_cons, sparseCsrFromDense_eq _ _ (few last (List.mem_append_right _ List.mem_cons_self))]
    rfl
  · have product : productRow last.dense x = fun i => ∑ j,
        (if |last.dense.get (cell i j)| > 1 / (10 ^ 7 : Nat) then last.dense.get (cell i j) else 0) * x j := by
      funext i
      simp only [productRow, isBig, decide_eq_true_eq]
    rw [sparseSpmm_csrOf x room, product]

/-- Three rows, the middle one empty. -/
def emptyRow : Conversion Rat := ⟨3, 2, ⟨#[0, 5, 0, 0, 6, -7], rfl⟩, fun _ => 9, fun _ => 9⟩

theorem csr_from_dense_spmm_emptyRow :
    ∃ A, convertAll ([⟨1, 2, ⟨#[3, 4], rfl⟩, fun _ => 8, fun _ => 8⟩] ++ [emptyRow]) ⟨0, 0, 0, [], [], []⟩ = some A ∧
      A.rows = 3 ∧ A.cols = 2 ∧ A.nnz = countBig emptyRow.dense ∧ RowsIndexed A.rowPtr A.colIdx A.rows A.cols A.nnz ∧
      ∀ (x : Fin 2 → Rat) (result : List Rat), 3 ≤ result.length →
        sparseSpmm A (List.ofFn x) result = some (List.ofFn (fun i : Fin 3 => ∑ j,
          (if |emptyRow.dense.get (cell i j)| > 1 / (10 ^ 7 : Nat) then emptyRow.dense.get (cell i j) else 0) * x j) ++
            result.drop 3) :=
  csr_from_dense_spmm ⟨0, 0, 0, [], [], []⟩ [⟨1, 2, ⟨#[3, 4], rfl⟩, fun _ => 8, fun _ => 8⟩] emptyRow (by decide +kernel)

end Conversions

end MiniHardware.Accel
