import MiniHardware.Accel.Csr
import MiniHardware.Lib.Index
import MiniHardware.Lib.Trace

/-!
# Rows of one length, and products under a mask (`mini-ai-accelerator/src/sparse_accel.c`)

An ELLPACK matrix has room for the same number of entries in every row; what a
row has more is dropped, and what an earlier matrix wrote behind the entries of
a later one is still multiplied. A block sparse product computes the blocks its
mask keeps. Numbers and memory are those of the other formats, and what `rand`
returns, as a part of `RAND_MAX`, is a sequence of numbers.
-/

namespace MiniHardware.Accel
open Lib

/-- An entry is written at its offset. -/
theorem get_setIfInBounds_cell {α : Type} {m n : Nat} (v : Vector α (m * n)) (i i' : Fin m) (j j' : Fin n) (x : α) :
    (v.setIfInBounds (i.val * n + j.val) x).get (cell i' j') = if i' = i ∧ j' = j then x else v.get (cell i' j') := by
  rw [get_eq, get_eq, Vector.getElem_setIfInBounds]
  refine if_congr ?_ rfl rfl
  have same : i.val * n + j.val = (cell i' j').val ↔ cell i j = cell i' j' :=
    ⟨fun eq => Fin.ext eq, fun eq => congrArg Fin.val eq⟩
  rw [same, cell_inj, Fin.ext_iff, Fin.ext_iff]
  exact and_congr eq_comm eq_comm

/-! ## ELLPACK -/

section Ell
variable {R : Type} [Field R] [LinearOrder R] {rows cols k : Nat}

structure ELLMatrix (R : Type) (rows maxNnzPerRow : Nat) where
  colIdx : Vector Int (rows * maxNnzPerRow)
  values : Vector R (rows * maxNnzPerRow)

/-- The body of the loop over `j`, with `nnz_count`; nothing is done after the last round. -/
def ellEntry (dense : Vector R (rows * cols)) (i : Fin rows) (s : ELLMatrix R rows k × Nat) (j : Fin cols) :
    ELLMatrix R rows k × Nat :=
  let (ell, nnzCount) := s
  let val := dense.get (cell i j)
  if nnzCount < k ∧ isBig val then
    let idx := i.val * k + nnzCount
    (⟨ell.colIdx.setIfInBounds idx j.val, ell.values.setIfInBounds idx val⟩, nnzCount + 1)
  else s

/-- What is at the place of an entry, or of none. -/
def EllSlot : Option (Fin cols × R) → Int → R → Prop
  | some e, col, value => col = e.1.val ∧ value = e.2
  | none, col, _ => col = -1

/-- The entries of a row, with -1 behind them. -/
def EllRow (ell : ELLMatrix R rows k) (i : Fin rows) (E : List (Fin cols × R)) : Prop :=
  ∀ p : Fin k, EllSlot E[p]? (ell.colIdx.get (cell i p)) (ell.values.get (cell i p))

/-- The entries of a row after one more matrix: the first `k` of its own, and the old ones behind them. -/
def overlay (k : Nat) (old new : List (Fin cols × R)) : List (Fin cols × R) := new.take k ++ old.drop (min k new.length)

omit [Field R] [LinearOrder R] in
theorem getElem?_overlay (old new : List (Fin cols × R)) {p : Nat} (lt : p < k) :
    (overlay k old new)[p]? = if p < new.length then new[p]? else old[p]? := by
  rw [overlay]
  by_cases inside : p < new.length
  · rw [if_pos inside, List.getElem?_append_left (by rw [List.length_take]; omega), List.getElem?_take_of_lt lt]
  · have all : new.take k = new := List.take_of_length_le (by omega)
    have size : min k new.length = new.length := by omega
    rw [if_neg inside, all, size, List.getElem?_append_right (by omega), List.getElem?_drop]
    congr 1
    omega

/-- What the loop over `j` has done after some of its rounds. -/
structure EllLoop (dense : Vector R (rows * cols)) (i : Fin rows) (before : ELLMatrix R rows k)
    (old : List (Fin cols × R)) (done : List (Fin cols)) (s : ELLMatrix R rows k × Nat) : Prop where
  count : s.2 = min k (done.filterMap (keptEntry dense i)).length
  row : EllRow s.1 i (overlay k old (done.filterMap (keptEntry dense i)))
  others : ∀ i' ≠ i, ∀ p, s.1.colIdx.get (cell i' p) = before.colIdx.get (cell i' p) ∧
    s.1.values.get (cell i' p) = before.values.get (cell i' p)

variable {dense : Vector R (rows * cols)} {i : Fin rows} {before : ELLMatrix R rows k} {old : List (Fin cols × R)}

theorem EllLoop.next {done : List (Fin cols)} {s : ELLMatrix R rows k × Nat} (h : EllLoop dense i before old done s)
    (j : Fin cols) : EllLoop dense i before old (done ++ [j]) (ellEntry dense i s j) := by
  obtain ⟨ell, n⟩ := s
  obtain ⟨count, row, others⟩ := h
  dsimp only at count row others
  have more : (done ++ [j]).filterMap (keptEntry dense i) =
      done.filterMap (keptEntry dense i) ++ (keptEntry dense i j).toList := by
    rw [List.filterMap_append]
    cases kept : keptEntry dense i j <;> simp [kept]
  generalize done.filterMap (keptEntry dense i) = E at count row more
  rw [ellEntry]
  dsimp only
  by_cases room : n < k ∧ isBig (dense.get (cell i j))
  · have kept : keptEntry dense i j = some (j, dense.get (cell i j)) := if_pos room.2
    rw [kept, Option.toList_some] at more
    have len : n = E.length := by omega
    rw [if_pos room]
    refine ⟨?_, fun p => ?_, fun i' ne p => ?_⟩
    · rw [more, List.length_append, List.length_singleton]
      dsimp only
      omega
    · have at_p := row p
      rw [Fin.getElem?_fin, getElem?_overlay _ _ p.isLt] at at_p
      rw [more, Fin.getElem?_fin, getElem?_overlay _ _ p.isLt]
      dsimp only
      rw [get_setIfInBounds_cell ell.colIdx i i ⟨n, room.1⟩ p, get_setIfInBounds_cell ell.values i i ⟨n, room.1⟩ p]
      by_cases here : p.val = n
      · have eq : p = ⟨n, room.1⟩ := Fin.ext here
        rw [if_pos (by rw [List.length_append, List.length_singleton]; omega), if_pos ⟨rfl, eq⟩, if_pos ⟨rfl, eq⟩,
          List.getElem?_append_right (by omega), here, len, Nat.sub_self]
        exact ⟨rfl, rfl⟩
      · have ne : ¬ (i = i ∧ p = ⟨n, room.1⟩) := fun both => here (congrArg Fin.val both.2)
        rw [if_neg ne, if_neg ne]
        by_cases inside : p.val < E.length
        · rw [if_pos (by rw [List.length_append]; omega), List.getElem?_append_left inside]
          rwa [if_pos inside] at at_p
        · rw [if_neg (by rw [List.length_append, List.length_singleton]; omega)]
          rwa [if_neg inside] at at_p
    · have ne' : ¬ (i' = i ∧ p = (⟨n, room.1⟩ : Fin k)) := fun both => ne both.1
      dsimp only
      rw [get_setIfInBounds_cell ell.colIdx i i' ⟨n, room.1⟩ p, if_neg ne',
        get_setIfInBounds_cell ell.values i i' ⟨n, room.1⟩ p, if_neg ne']
      exact others i' ne p
  · rw [if_neg room]
    have full : (keptEntry dense i j).toList = [] ∨ k ≤ E.length := by
      by_cases big : isBig (dense.get (cell i j))
      · have last : ¬ n < k := fun lt => room ⟨lt, big⟩
        exact .inr (by omega)
      · exact .inl (by rw [keptEntry, if_neg big]; rfl)
    refine ⟨?_, fun p => ?_, others⟩
    · rw [more, List.length_append]
      rcases full with none | full
      · rw [none]
        exact count
      · dsimp only
        omega
    · rw [more]
      rcases full with none | full
      · rw [none, List.append_nil]
        exact row p
      · have at_p := row p
        rw [Fin.getElem?_fin, getElem?_overlay _ _ p.isLt, if_pos (by omega)] at at_p
        rw [Fin.getElem?_fin, getElem?_overlay _ _ p.isLt, if_pos (by rw [List.length_append]; omega),
          List.getElem?_append_left (by omega)]
        exact at_p

end Ell

/-! ## Products under a mask of blocks -/

section BlockSparse
variable {R : Type} [Field R] [LinearOrder R] {M N K nb bs : Nat}

structure BlockSparsePattern (numBlocks blockSize : Nat) where
  blockMask : Vector Int (numBlocks * numBlocks)

/-- The body of the loop over `j`, with the number of calls of `rand` so far; the source scales what `rand` returns. -/
def randomMaskEntry (rand : Nat → R) (density : R) (i : Fin nb) (s : BlockSparsePattern nb bs × Nat) (j : Fin nb) :
    BlockSparsePattern nb bs × Nat :=
  let (bsp, calls) := s
  if i = j then (⟨bsp.blockMask.setIfInBounds (i.val * nb + j.val) 1⟩, calls)
  else (⟨bsp.blockMask.setIfInBounds (i.val * nb + j.val) (if rand calls < density then 1 else 0)⟩, calls + 1)

def blockSparseRandomMask (rand : Nat → R) (density : R) (bsp : BlockSparsePattern nb bs) : BlockSparsePattern nb bs :=
  ((List.finRange nb).foldl (fun s i => (List.finRange nb).foldl (randomMaskEntry rand density i) s) (bsp, 0)).1

/-- The loop over `kk`, which ends with the columns of `A`, so that no entry is padded. -/
def blockSum (bs : Nat) (A : Vector R (M * K)) (B : Vector R (K * N)) (ki mr nc : Nat) : R :=
  (ragged K bs ki).foldl (fun sum kk => sum + padded A mr (ki * bs + kk) * padded B (ki * bs + kk) nc) 0

/-- The loops over `r` and `c`. -/
def blockStep (bs : Nat) (A : Vector R (M * K)) (B : Vector R (K * N)) (mi ni : Nat) (C : Vector R (M * N)) (ki : Nat) :
    Vector R (M * N) :=
  (ragged M bs mi).foldl (fun C r => (ragged N bs ni).foldl (fun C c =>
    let mr := mi * bs + r
    let nc := ni * bs + c
    C.setIfInBounds (mr * N + nc) (padded C mr nc + blockSum bs A B ki mr nc)) C) C

/-- What is written to `C`. -/
def blockSparseMatmul (bsp : BlockSparsePattern nb bs) (A : Vector R (M * K)) (B : Vector R (K * N)) : Vector R (M * N) :=
  (List.range (min (tiles M bs) nb)).foldl (fun C mi => (List.range (min (tiles N bs) nb)).foldl (fun C ni =>
    if bsp.blockMask[mi * nb + ni]?.getD 0 = 0 then C
    else (List.range (tiles K bs)).foldl (blockStep bs A B mi ni) C) C) (Vector.replicate (M * N) 0)

omit [LinearOrder R] in
theorem blockSum_eq (A : Vector R (M * K)) (B : Vector R (K * N)) (ki mr nc : Nat) :
    blockSum bs A B ki mr nc = ∑ kk : Fin bs,
      if ki * bs + kk.val < K then padded A mr (ki * bs + kk.val) * padded B (ki * bs + kk.val) nc else 0 := by
  rw [blockSum, foldl_collect (fun sum => sum) (fun _ _ => rfl), zero_add,
    ragged_sum (n := K) (t := bs) (a := ki) fun kk => padded A mr (ki * bs + kk) * padded B (ki * bs + kk) nc]

omit [LinearOrder R] in
/-- One round over the inner dimension changes the entries of its own block. -/
theorem get_blockStep (pos : 0 < bs) (A : Vector R (M * K)) (B : Vector R (K * N)) (mi ni ki : Nat) (C : Vector R (M * N))
    (i : Fin M) (j : Fin N) :
    (blockStep bs A B mi ni C ki).get (cell i j) = C.get (cell i j) +
      if i.val / bs = mi then if j.val / bs = ni then blockSum bs A B ki i.val j.val else 0 else 0 := by
  have entry : ∀ r ∈ ragged M bs mi, ∀ (C : Vector R (M * N)), ∀ c ∈ ragged N bs ni,
      (C.setIfInBounds ((mi * bs + r) * N + (ni * bs + c)) (padded C (mi * bs + r) (ni * bs + c) +
        blockSum bs A B ki (mi * bs + r) (ni * bs + c))).get (cell i j) = C.get (cell i j) +
          if j.val = ni * bs + c then if i.val = mi * bs + r then blockSum bs A B ki i.val j.val else 0 else 0 := by
    intro r hr C c hc
    have row := (mem_ragged.1 hr).2
    have col := (mem_ragged.1 hc).2
    have old := padded_cell C ⟨_, row⟩ ⟨_, col⟩
    dsimp only at old
    rw [get_setIfInBounds_cell C ⟨_, row⟩ i ⟨_, col⟩ j, old, if_congr (and_congr Fin.ext_iff Fin.ext_iff) rfl rfl]
    by_cases here : i.val = mi * bs + r ∧ j.val = ni * bs + c
    · have same : cell (⟨mi * bs + r, row⟩ : Fin M) (⟨ni * bs + c, col⟩ : Fin N) = cell i j :=
        cell_inj.2 ⟨here.1.symm, here.2.symm⟩
      rw [if_pos here, if_pos here.2, if_pos here.1, here.1, here.2, get_eq]
      simp only [← same]
      rfl
    · rw [if_neg here]
      split
      · rename_i col
        rw [if_neg fun row => here ⟨row, col⟩, add_zero]
      · rw [add_zero]
  rw [blockStep, foldl_collect_mem (fun C : Vector R (M * N) => C.get (cell i j)) (g := fun r =>
    if i.val = mi * bs + r then if j.val / bs = ni then blockSum bs A B ki i.val j.val else 0 else 0),
    ragged_single pos i.isLt]
  intro C r hr
  dsimp only
  rw [foldl_collect_mem (fun C : Vector R (M * N) => C.get (cell i j)) (entry r hr), ragged_single pos j.isLt]
  congr 1
  split <;> simp

omit [LinearOrder R] in
/-- **The product has the blocks under the mask,** and zeros in the others. -/
theorem get_blockSparseMatmul (pos : 0 < bs) (bsp : BlockSparsePattern nb bs) (A : Vector R (M * K)) (B : Vector R (K * N))
    (i : Fin M) (j : Fin N) :
    (blockSparseMatmul bsp A B).get (cell i j) =
      if (i.val / bs < nb ∧ j.val / bs < nb) ∧ bsp.blockMask[i.val / bs * nb + j.val / bs]?.getD 0 ≠ 0 then
        ∑ k, A.get (cell i k) * B.get (cell k j) else 0 := by
  have sum : ∑ ki ∈ Finset.range (tiles K bs), blockSum bs A B ki i.val j.val =
      ∑ k, A.get (cell i k) * B.get (cell k j) := by
    rw [Finset.sum_range]
    simp only [blockSum_eq]
    rw [sum_tiles pos fun k => padded A i.val k * padded B k j.val]
    exact Finset.sum_congr rfl fun k _ => congrArg₂ (· * ·) (padded_cell A i k) (padded_cell B k j)
  generalize ∑ k, A.get (cell i k) * B.get (cell k j) = product at sum ⊢
  have block : ∀ mi ni (C : Vector R (M * N)),
      ((List.range (tiles K bs)).foldl (blockStep bs A B mi ni) C).get (cell i j) =
        C.get (cell i j) + if i.val / bs = mi then if j.val / bs = ni then product else 0 else 0 := by
    intro mi ni C
    rw [range_collect (fun C => C.get (cell i j)) fun C ki _ => get_blockStep pos A B mi ni ki C i j, ← sum]
    congr 1
    split
    · split
      · rfl
      · exact Finset.sum_const_zero
    · exact Finset.sum_const_zero
  have row : ∀ mi (C : Vector R (M * N)), ((List.range (min (tiles N bs) nb)).foldl (fun C ni =>
      if bsp.blockMask[mi * nb + ni]?.getD 0 = 0 then C
      else (List.range (tiles K bs)).foldl (blockStep bs A B mi ni) C) C).get (cell i j) =
        C.get (cell i j) + if i.val / bs = mi then
          if j.val / bs < nb ∧ bsp.blockMask[mi * nb + j.val / bs]?.getD 0 ≠ 0 then product else 0 else 0 := by
    intro mi C
    rw [range_collect (fun C : Vector R (M * N) => C.get (cell i j)) (g := fun ni => if j.val / bs = ni then
      if i.val / bs = mi then if bsp.blockMask[mi * nb + ni]?.getD 0 ≠ 0 then product else 0 else 0 else 0)]
    · rw [Finset.sum_ite_eq]
      congr 1
      have inside := div_lt_tiles pos j.isLt
      have mem : j.val / bs ∈ Finset.range (min (tiles N bs) nb) ↔ j.val / bs < nb := by
        rw [Finset.mem_range, lt_min_iff, and_iff_right inside]
      rw [if_congr mem rfl rfl]
      by_cases h : j.val / bs < nb <;> simp [h]
    · intro C ni _
      split
      · rename_i none
        simp [none]
      · rename_i some
        rw [block]
        congr 1
        by_cases row : i.val / bs = mi <;> simp [row]
  rw [blockSparseMatmul, range_collect (fun C => C.get (cell i j)) fun C mi _ => row mi C, Finset.sum_ite_eq, get_replicate,
    zero_add]
  have inside := div_lt_tiles pos i.isLt
  have mem : i.val / bs ∈ Finset.range (min (tiles M bs) nb) ↔ i.val / bs < nb := by
    rw [Finset.mem_range, lt_min_iff, and_iff_right inside]
  rw [if_congr mem rfl rfl]
  by_cases h : i.val / bs < nb <;> simp [h]

/-- The calls of `rand` before that for block `(i, j)`. -/
def callsBefore (nb i j : Nat) : Nat := i * (nb - 1) + if j ≤ i then j else j - 1

/-- The mask for a block. -/
def randomMask (nb : Nat) (rand : Nat → R) (density : R) (i j : Nat) : Int :=
  if i = j ∨ rand (callsBefore nb i j) < density then 1 else 0

/-- What the loops have done before block `(i, j)`. -/
structure MaskLoop (rand : Nat → R) (density : R) (i j : Nat) (s : BlockSparsePattern nb bs × Nat) : Prop where
  calls : s.2 = callsBefore nb i j
  rows : ∀ i' j' : Fin nb, i'.val < i → s.1.blockMask.get (cell i' j') = randomMask nb rand density i' j'
  row : ∀ i' j' : Fin nb, i'.val = i → j'.val < j → s.1.blockMask.get (cell i' j') = randomMask nb rand density i' j'

omit [Field R] in
theorem randomMaskEntry_eq (rand : Nat → R) (density : R) (i j : Fin nb) (bsp : BlockSparsePattern nb bs) :
    randomMaskEntry rand density i (bsp, callsBefore nb i j) j =
      (⟨bsp.blockMask.setIfInBounds (i.val * nb + j.val) (randomMask nb rand density i j)⟩,
        callsBefore nb i (j.val + 1)) := by
  rw [randomMaskEntry]
  by_cases eq : i = j
  · subst eq
    have mask : randomMask nb rand density i i = 1 := if_pos (.inl rfl)
    have calls : callsBefore nb i (i.val + 1) = callsBefore nb i i := by
      rw [callsBefore, callsBefore, if_neg (Nat.not_succ_le_self _), if_pos (Nat.le_refl _)]
      rfl
    rw [if_pos rfl, mask, calls]
  · have ne : i.val ≠ j.val := fun same => eq (Fin.ext same)
    have mask : randomMask nb rand density i j = if rand (callsBefore nb i j) < density then 1 else 0 :=
      if_congr (or_iff_right ne) rfl rfl
    have calls : callsBefore nb i (j.val + 1) = callsBefore nb i j + 1 := by
      rw [callsBefore, callsBefore]
      split <;> split <;> omega
    rw [if_neg eq, mask, calls]

omit [Field R] in
theorem MaskLoop.next {rand : Nat → R} {density : R} {i j : Fin nb} {s : BlockSparsePattern nb bs × Nat}
    (h : MaskLoop rand density i j s) : MaskLoop rand density i (j.val + 1) (randomMaskEntry rand density i s j) := by
  obtain ⟨bsp, n⟩ := s
  obtain ⟨calls, rows, row⟩ := h
  dsimp only at calls rows row
  rw [calls, randomMaskEntry_eq]
  refine ⟨rfl, fun i' j' lt => ?_, fun i' j' eq lt => ?_⟩
  · rw [get_setIfInBounds_cell, if_neg fun here => Nat.ne_of_lt lt (congrArg Fin.val here.1)]
    exact rows i' j' lt
  · obtain rfl : i' = i := Fin.ext eq
    rw [get_setIfInBounds_cell]
    split
    · rename_i here
      rw [here.2]
    · rename_i other
      exact row i' j' rfl (lt_of_le_of_ne (Nat.le_of_lt_succ lt) fun same => other ⟨rfl, Fin.ext same⟩)

omit [Field R] in
theorem MaskLoop.next_row {rand : Nat → R} {density : R} {i : Fin nb} {s : BlockSparsePattern nb bs × Nat}
    (h : MaskLoop rand density i 0 s) :
    MaskLoop rand density (i.val + 1) 0 ((List.finRange nb).foldl (randomMaskEntry rand density i) s) := by
  obtain ⟨calls, rows, row⟩ := finRange_foldl_invariant (motive := fun j s => MaskLoop rand density i.val j s) h
    fun j s h => h.next
  refine ⟨?_, fun i' j' lt => ?_, fun _ _ _ lt => absurd lt (Nat.not_lt_zero _)⟩
  · have last := i.isLt
    rw [calls, callsBefore, callsBefore, if_neg (by omega), if_pos (Nat.zero_le _), Nat.add_zero, Nat.succ_mul]
  · rcases Nat.lt_succ_iff_lt_or_eq.1 lt with lt | eq
    · exact rows i' j' lt
    · exact row i' j' eq j'.isLt

omit [Field R] in
theorem get_blockSparseRandomMask (rand : Nat → R) (density : R) (bsp : BlockSparsePattern nb bs) (i j : Fin nb) :
    (blockSparseRandomMask rand density bsp).blockMask.get (cell i j) = randomMask nb rand density i j := by
  have start : MaskLoop rand density 0 0 (bsp, 0) :=
    ⟨by simp [callsBefore], fun _ _ lt => absurd lt (Nat.not_lt_zero _), fun _ _ _ lt => absurd lt (Nat.not_lt_zero _)⟩
  have all := finRange_foldl_invariant (n := nb) (motive := fun i s => MaskLoop rand density i 0 s)
    (f := fun s i => (List.finRange nb).foldl (randomMaskEntry rand density i) s) start fun i s h => h.next_row
  exact all.rows i j i.isLt

/-- The product under a random mask has the blocks of the diagonal, and those whose call of `rand` was below the density. -/
theorem blockSparse_random (rand : Nat → R) (density : R) (bsp : BlockSparsePattern nb bs) (pos : 0 < bs)
    (A : Vector R (M * K)) (B : Vector R (K * N)) (i : Fin M) (j : Fin N) :
    (blockSparseMatmul (blockSparseRandomMask rand density bsp) A B).get (cell i j) =
      if (i.val / bs < nb ∧ j.val / bs < nb) ∧
          (i.val / bs = j.val / bs ∨ rand (callsBefore nb (i.val / bs) (j.val / bs)) < density) then
        ∑ k, A.get (cell i k) * B.get (cell k j) else 0 := by
  rw [get_blockSparseMatmul pos]
  refine if_congr (and_congr_right fun inside => ?_) rfl rfl
  have mask := get_blockSparseRandomMask rand density bsp ⟨_, inside.1⟩ ⟨_, inside.2⟩
  have found : (blockSparseRandomMask rand density bsp).blockMask[i.val / bs * nb + j.val / bs]? = some _ :=
    Vector.getElem?_eq_getElem (cell (⟨_, inside.1⟩ : Fin nb) ⟨_, inside.2⟩).isLt
  rw [get_eq] at mask
  rw [mask] at found
  rw [found, Option.getD_some, randomMask]
  split <;> simp_all

/-- Of the two blocks outside the diagonal the first one is kept. -/
def quarters (n : Nat) : Rat := if n = 0 then 1 / 4 else 3 / 4

def twoBlocks : BlockSparsePattern 2 1 := ⟨Vector.replicate _ 0⟩

theorem blockSparse_random_quarters :
    (blockSparseMatmul (blockSparseRandomMask quarters (1 / 2) twoBlocks) (⟨#[2, 3], rfl⟩ : Vector Rat (2 * 1))
      (⟨#[5, 7], rfl⟩ : Vector Rat (1 * 2))).get (cell 0 1) = 14 := by
  rw [blockSparse_random quarters (1 / 2) twoBlocks Nat.one_pos]
  decide +kernel

end BlockSparse

end MiniHardware.Accel
