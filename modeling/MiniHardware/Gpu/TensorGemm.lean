import Mathlib.Data.Rat.Defs
import MiniHardware.Accel.MatrixLoops

/-!
# Tiled multiplication on tensor cores (`mini-gpu-arch/src/tensor_core.c`)

`gemmBlockConfig` counts the tiles and the remainders of the three dimensions;
`gemmTiledExecute` copies a tile of `A` and of `B` into buffers of fixed size,
packed with the size the tile has, and adds the products to `D`. Every access
is checked. The pointers are taken not to be null, but for `C`. The numbers are
those of a commutative ring, and those of the plan rational. Dimensions, their
products and the counts of tiles are numbers that do not overflow an `int`.
-/

namespace MiniHardware.Gpu
open Lib
open Accel (cell getElem?_cell modify_block fill_cells padded)

inductive MMAShape where
  | m8n8k4 | m16n8k8 | m16n8k16
deriving DecidableEq

/-- The rows, columns and inner size of a tile. -/
def mmaShapeDims : MMAShape → Nat × Nat × Nat
  | .m8n8k4 => (8, 8, 4)
  | .m16n8k8 => (16, 8, 8)
  | .m16n8k16 => (16, 8, 16)

structure GEMMBlockConfig where
  mGlobal : Nat
  nGlobal : Nat
  kGlobal : Nat
  tm : Nat
  tn : Nat
  tk : Nat
  mBlocks : Nat
  nBlocks : Nat
  kBlocks : Nat
  mRemainder : Nat
  nRemainder : Nat
  kRemainder : Nat

def gemmBlockConfig (M N K : Nat) (shape : MMAShape) : GEMMBlockConfig :=
  let (tm, tn, tk) := mmaShapeDims shape
  { mGlobal := M
    nGlobal := N
    kGlobal := K
    tm := tm
    tn := tn
    tk := tk
    mBlocks := (M + tm - 1) / tm
    nBlocks := (N + tn - 1) / tn
    kBlocks := (K + tk - 1) / tk
    mRemainder := M % tm
    nRemainder := N % tn
    kRemainder := K % tk }

structure GEMMExecutionPlan where
  totalTiles : Nat
  tilesCompleted : Nat
  theoreticalFlops : ℚ
  effectiveFlops : ℚ
  efficiency : ℚ

/-- `m_size` and its like: the remainder for the last block, if there is one. -/
def blockSize (index blocks remainder tile : Nat) : Nat :=
  if index = blocks - 1 ∧ remainder > 0 then remainder else tile

section Model
variable {R : Type} [CommRing R] {a b d : Nat}

/-- The body of the loop over `kk`. -/
def dotRound (aTile bTile : Vector R (16 * 16)) (kSize nSize i j : Nat) (dot : R) (kk : Nat) : Option R := do
  let x ← aTile[i * kSize + kk]?
  let y ← bTile[kk * nSize + j]?
  some (dot + x * y)

/-- The product at one entry of a tile. -/
def tileDot (aTile bTile : Vector R (16 * 16)) (kSize nSize i j : Nat) : Option R :=
  (List.range kSize).foldlM (dotRound aTile bTile kSize nSize i j) 0

/-- The body of the loops for tile `(mi, ni, ki)`, with the plan's `tiles_completed`. -/
def gemmTile (cfg : GEMMBlockConfig) (A : Vector R a) (B : Vector R b) (mi ni : Nat) (s : Vector R d × Nat)
    (ki : Nat) : Option (Vector R d × Nat) := do
  let mStart := mi * cfg.tm
  let mSize := blockSize mi cfg.mBlocks cfg.mRemainder cfg.tm
  let nStart := ni * cfg.tn
  let nSize := blockSize ni cfg.nBlocks cfg.nRemainder cfg.tn
  let kStart := ki * cfg.tk
  let kSize := blockSize ki cfg.kBlocks cfg.kRemainder cfg.tk
  let aTile ← fill (List.range mSize ×ˢ List.range kSize) (fun p => p.1 * kSize + p.2)
    (fun p => A[(mStart + p.1) * cfg.kGlobal + (kStart + p.2)]?) (Vector.replicate (16 * 16) 0)
  let bTile ← fill (List.range kSize ×ˢ List.range nSize) (fun p => p.1 * nSize + p.2)
    (fun p => B[(kStart + p.1) * cfg.nGlobal + (nStart + p.2)]?) (Vector.replicate (16 * 16) 0)
  let D ← modifyEach (List.range mSize ×ˢ List.range nSize)
    (fun p => (mStart + p.1) * cfg.nGlobal + (nStart + p.2))
    (fun p x => (tileDot aTile bTile kSize nSize p.1 p.2).map (x + ·)) s.1
  some (D, s.2 + 1)

/-- `D` is first filled with `C`, which may be null, or with zeros. -/
def gemmInit (M N : Nat) (C : Option (Vector R d)) (D : Vector R d) : Option (Vector R d) :=
  match C with
  | some C => fill (List.range M ×ˢ List.range N) (fun p => p.1 * N + p.2) (fun p => C[p.1 * N + p.2]?) D
  | none => fill (List.range (M * N)) id (fun _ => some 0) D

/-- `gemm_tiled_execute`. -/
def gemmTiledExecute (A : Vector R a) (B : Vector R b) (C : Option (Vector R d)) (D : Vector R d)
    (cfg : GEMMBlockConfig) : Option (GEMMExecutionPlan × Vector R d) := do
  let flops : ℚ := 2 * cfg.mGlobal * cfg.nGlobal * cfg.kGlobal
  let D ← gemmInit cfg.mGlobal cfg.nGlobal C D
  let (D, tilesCompleted) ← (List.range cfg.mBlocks).foldlM (fun s mi =>
    (List.range cfg.nBlocks).foldlM (fun s ni =>
      (List.range cfg.kBlocks).foldlM (gemmTile cfg A B mi ni) s) s) (D, 0)
  some (⟨cfg.mBlocks * cfg.nBlocks * cfg.kBlocks, tilesCompleted, flops, flops, 1⟩, D)

end Model

/-! ## Blocks -/

theorem mmaShapeDims_bounds (shape : MMAShape) :
    0 < (mmaShapeDims shape).1 ∧ (mmaShapeDims shape).1 ≤ 16 ∧
      0 < (mmaShapeDims shape).2.1 ∧ (mmaShapeDims shape).2.1 ≤ 16 ∧
        0 < (mmaShapeDims shape).2.2 ∧ (mmaShapeDims shape).2.2 ≤ 16 := by
  cases shape <;> decide

/-- Where block `i` begins, and the end of the dimension for the block behind the last. -/
def blockStart (n t i : Nat) : Nat := min (i * t) n

theorem blockStart_of_lt {n t i : Nat} (lt : i < tiles n t) : blockStart n t i = i * t :=
  Nat.min_eq_left (tile_start_lt lt).le

theorem blockStart_tiles {n t : Nat} (pos : 0 < t) : blockStart n t (tiles n t) = n :=
  Nat.min_eq_right (le_tiles_mul pos)

/-- A block has the size of a tile or what remains, and reaches to the next one. -/
theorem blockSize_spec {n t i : Nat} (pos : 0 < t) (lt : i < tiles n t) :
    blockSize i (tiles n t) (n % t) t ≤ t ∧
      i * t + blockSize i (tiles n t) (n % t) t = blockStart n t (i + 1) := by
  have parts := Nat.div_add_mod n t
  have rest := Nat.mod_lt n pos
  rw [tiles_eq pos] at lt ⊢
  have next : (i + 1) * t = i * t + t := Nat.succ_mul i t
  unfold blockSize blockStart
  by_cases ragged : 0 < n % t
  · rw [if_pos ragged] at lt ⊢
    by_cases last : i = n / t
    · rw [if_pos ⟨by omega, ragged⟩, last, Nat.mul_comm (n / t) t]
      rw [last, Nat.mul_comm (n / t) t] at next
      omega
    · have fits : (i + 1) * t ≤ t * (n / t) := by
        rw [Nat.mul_comm t]
        exact Nat.mul_le_mul_right t (by omega)
      rw [if_neg (by omega)]
      omega
  · rw [if_neg ragged] at lt ⊢
    have fits : (i + 1) * t ≤ t * (n / t) := by
      rw [Nat.mul_comm t]
      exact Nat.mul_le_mul_right t (by omega)
    rw [if_neg (by omega)]
    omega

/-- The indices of a block. -/
theorem mem_block_iff {n t i x : Nat} (pos : 0 < t) (lt : i < tiles n t) (inside : x < n) :
    i * t ≤ x ∧ x < i * t + blockSize i (tiles n t) (n % t) t ↔ x / t = i := by
  rw [(blockSize_spec pos lt).2, blockStart, Nat.div_eq_iff pos, Nat.succ_mul]
  omega

/-! ## One tile -/

section Tile
variable {R : Type} [CommRing R] {M N K : Nat}

theorem tileDot_eq {aTile bTile : Vector R (16 * 16)} {kSize nSize i j : Nat} {x y : Nat → R}
    (left : ∀ kk < kSize, aTile[i * kSize + kk]? = some (x kk))
    (right : ∀ kk < kSize, bTile[kk * nSize + j]? = some (y kk)) :
    tileDot aTile bTile kSize nSize i j = some (∑ kk ∈ Finset.range kSize, x kk * y kk) := by
  have step : ∀ kk (dot : R), kk < kSize → dot = ∑ l ∈ Finset.range kk, x l * y l →
      ∃ dot', dotRound aTile bTile kSize nSize i j dot kk = some dot' ∧
        dot' = ∑ l ∈ Finset.range (kk + 1), x l * y l := by
    intro kk dot lt sum
    refine ⟨_, by rw [dotRound, left kk lt, right kk lt]; rfl, ?_⟩
    rw [sum, Finset.sum_range_succ]
  obtain ⟨dot, loop, sum⟩ := foldlM_range _ step (Finset.sum_range_zero _).symm
  rw [tileDot, loop, sum]

theorem padded_inside (X : Vector R (M * N)) {r c : Nat} (row : r < M) (col : c < N) :
    X[r * N + c]? = some (padded X r c) := by
  rw [padded, dif_pos ⟨row, col⟩]
  exact getElem?_cell X ⟨r, row⟩ ⟨c, col⟩

/-- The summand of position `k` for the entry at `(i, j)`. -/
def term (A : Vector R (M * K)) (B : Vector R (K * N)) (i j k : Nat) : R := padded A i k * padded B k j

/-- The configuration for tiles of any size. -/
def tiling (M N K tm tn tk : Nat) : GEMMBlockConfig :=
  ⟨M, N, K, tm, tn, tk, tiles M tm, tiles N tn, tiles K tk, M % tm, N % tn, K % tk⟩

theorem gemmBlockConfig_eq (M N K : Nat) (shape : MMAShape) : gemmBlockConfig M N K shape =
    tiling M N K (mmaShapeDims shape).1 (mmaShapeDims shape).2.1 (mmaShapeDims shape).2.2 := rfl

/-- The sizes of the tiles, which fit the buffers. -/
structure TileSizes (tm tn tk : Nat) : Prop where
  mPos : 0 < tm
  mLe : tm ≤ 16
  nPos : 0 < tn
  nLe : tn ≤ 16
  kPos : 0 < tk
  kLe : tk ≤ 16

variable {tm tn tk : Nat} (sizes : TileSizes tm tn tk) (A : Vector R (M * K)) (B : Vector R (K * N))

/-- The part of a product that block `ki` of the inner dimension has. -/
def blockSum (tk : Nat) (i j ki : Nat) : R :=
  ∑ kk ∈ Finset.range (blockSize ki (tiles K tk) (K % tk) tk), term A B i j (ki * tk + kk)

include sizes in
/-- A tile adds its part of the products to its block of `D`. -/
theorem gemmTile_eq {mi ni ki : Nat} (row : mi < tiles M tm) (col : ni < tiles N tn) (inner : ki < tiles K tk)
    (D : Vector R (M * N)) (done : Nat) :
    ∃ D', gemmTile (tiling M N K tm tn tk) A B mi ni (D, done) ki = some (D', done + 1) ∧
      ∀ (i : Fin M) (j : Fin N), D'.get (cell i j) = D.get (cell i j) +
        if i.val / tm = mi ∧ j.val / tn = ni then blockSum A B tk i.val j.val ki else 0 := by
  obtain ⟨mSizeLe, mEnd⟩ := blockSize_spec sizes.mPos row
  obtain ⟨nSizeLe, nEnd⟩ := blockSize_spec sizes.nPos col
  obtain ⟨kSizeLe, kEnd⟩ := blockSize_spec sizes.kPos inner
  have mIff := fun i : Fin M => mem_block_iff sizes.mPos row i.isLt
  have nIff := fun j : Fin N => mem_block_iff sizes.nPos col j.isLt
  have mLe := sizes.mLe
  have nLe := sizes.nLe
  have kLe := sizes.kLe
  have mIn : mi * tm + blockSize mi (tiles M tm) (M % tm) tm ≤ M := mEnd.trans_le (Nat.min_le_right _ _)
  have nIn : ni * tn + blockSize ni (tiles N tn) (N % tn) tn ≤ N := nEnd.trans_le (Nat.min_le_right _ _)
  have kIn : ki * tk + blockSize ki (tiles K tk) (K % tk) tk ≤ K := kEnd.trans_le (Nat.min_le_right _ _)
  unfold blockSum
  simp only [gemmTile, tiling]
  generalize blockSize mi (tiles M tm) (M % tm) tm = mSize at *
  generalize blockSize ni (tiles N tn) (N % tn) tn = nSize at *
  generalize blockSize ki (tiles K tk) (K % tk) tk = kSize at *
  have aFits : mSize * kSize ≤ 16 * 16 := Nat.mul_le_mul (by omega) (by omega)
  have bFits : kSize * nSize ≤ 16 * 16 := Nat.mul_le_mul (by omega) (by omega)
  obtain ⟨aTile, loadA, entryA⟩ := fill_packed (fun p => p.1 * kSize + p.2)
    (fun p => A[(mi * tm + p.1) * K + (ki * tk + p.2)]?) aFits (fun _ => rfl)
    (fun r c => padded A (mi * tm + r) (ki * tk + c))
    (fun r row c col => padded_inside A (by omega) (by omega)) (Vector.replicate (16 * 16) 0)
  obtain ⟨bTile, loadB, entryB⟩ := fill_packed (fun p => p.1 * nSize + p.2)
    (fun p => B[(ki * tk + p.1) * N + (ni * tn + p.2)]?) bFits (fun _ => rfl)
    (fun r c => padded B (ki * tk + r) (ni * tn + c))
    (fun r row c col => padded_inside B (by omega) (by omega)) (Vector.replicate (16 * 16) 0)
  have dot : ∀ (r : Fin mSize) (c : Fin nSize), tileDot aTile bTile kSize nSize r.val c.val =
      some (∑ kk ∈ Finset.range kSize, term A B (mi * tm + r.val) (ni * tn + c.val) (ki * tk + kk)) := fun r c =>
    tileDot_eq (fun kk lt => entryA r.val r.isLt kk lt) (fun kk lt => entryB kk lt c.val c.isLt)
  obtain ⟨D', store, entry⟩ := modify_block (fun p => (mi * tm + p.1) * N + (ni * tn + p.2))
    (fun p x => (tileDot aTile bTile kSize nSize p.1 p.2).map (x + ·)) mIn nIn (fun _ => rfl) D
    (fun i j => D.get (cell i j) + ∑ kk ∈ Finset.range kSize, term A B i.val j.val (ki * tk + kk))
    (fun r c => by
      dsimp only
      rw [dot]
      rfl)
  refine ⟨D', ?_, fun i j => ?_⟩
  · simp only [loadA, loadB, store, Option.bind_eq_bind, Option.bind_some]
  · refine (entry i j).trans ((if_congr (and_congr (mIff i) (nIff j)) rfl rfl).trans ?_)
    split
    · rfl
    · rw [add_zero]

/-! ## The loops over tiles -/

/-- The product at an entry. -/
def product (i : Fin M) (j : Fin N) : R := ∑ k : Fin K, A.get (cell i k) * B.get (cell k j)

/-- The blocks of the inner dimension make up the product. -/
theorem sum_blockSum (pos : 0 < tk) (i : Fin M) (j : Fin N) :
    ∑ ki ∈ Finset.range (tiles K tk), blockSum A B tk i.val j.val ki = product A B i j := by
  have upTo : ∀ count ≤ tiles K tk, ∑ ki ∈ Finset.range count, blockSum A B tk i.val j.val ki =
      ∑ k ∈ Finset.range (blockStart K tk count), term A B i.val j.val k := by
    intro count
    induction count with
    | zero =>
      intro _
      simp [blockStart]
    | succ count ih =>
      intro lt
      obtain ⟨-, stop⟩ := blockSize_spec (n := K) pos lt
      rw [Finset.sum_range_succ, ih (Nat.le_of_succ_le lt), ← stop, Finset.sum_range_add, blockStart_of_lt lt]
      rfl
  rw [upTo _ (Nat.le_refl _), blockStart_tiles pos, ← Fin.sum_univ_eq_sum_range, product]
  refine Finset.sum_congr rfl fun k _ => ?_
  rw [term, padded, padded, dif_pos ⟨i.isLt, k.isLt⟩, dif_pos ⟨k.isLt, j.isLt⟩]
  rfl

include sizes

/-- The loop over `ki` adds the whole product to one block of `D`. -/
theorem innerLoop_eq {mi ni : Nat} (row : mi < tiles M tm) (col : ni < tiles N tn) (s : Vector R (M * N) × Nat) :
    ∃ s', (List.range (tiles K tk)).foldlM (gemmTile (tiling M N K tm tn tk) A B mi ni) s = some s' ∧
      s'.2 = s.2 + tiles K tk ∧ ∀ (i : Fin M) (j : Fin N), s'.1.get (cell i j) = s.1.get (cell i j) +
        if i.val / tm = mi ∧ j.val / tn = ni then product A B i j else 0 := by
  obtain ⟨s', loop, count, entry⟩ := foldlM_range (s := s)
    (fun ki (s' : Vector R (M * N) × Nat) => s'.2 = s.2 + ki ∧
      ∀ (i : Fin M) (j : Fin N), s'.1.get (cell i j) = s.1.get (cell i j) +
        if i.val / tm = mi ∧ j.val / tn = ni then ∑ k ∈ Finset.range ki, blockSum A B tk i.val j.val k else 0)
    (fun ki s' lt inv => by
      obtain ⟨D', tile, entry⟩ := gemmTile_eq sizes A B row col lt s'.1 s'.2
      refine ⟨_, tile, ?_, fun i j => ?_⟩
      · show s'.2 + 1 = _
        rw [inv.1, Nat.add_assoc]
      · rw [entry, inv.2, add_assoc]
        split
        · rw [Finset.sum_range_succ]
        · rw [add_zero])
    ⟨rfl, fun i j => by rw [Finset.sum_range_zero, ite_self, add_zero]⟩
  refine ⟨s', loop, count, fun i j => ?_⟩
  rw [entry, sum_blockSum A B sizes.kPos]

/-- The loop over `ni` does so for the blocks of one row of blocks. -/
theorem middleLoop_eq {mi : Nat} (row : mi < tiles M tm) (s : Vector R (M * N) × Nat) :
    ∃ s', (List.range (tiles N tn)).foldlM (fun s ni =>
        (List.range (tiles K tk)).foldlM (gemmTile (tiling M N K tm tn tk) A B mi ni) s) s = some s' ∧
      s'.2 = s.2 + tiles N tn * tiles K tk ∧ ∀ (i : Fin M) (j : Fin N), s'.1.get (cell i j) =
        s.1.get (cell i j) + if i.val / tm = mi then product A B i j else 0 := by
  obtain ⟨s', loop, count, entry⟩ := foldlM_range (s := s)
    (fun ni (s' : Vector R (M * N) × Nat) => s'.2 = s.2 + ni * tiles K tk ∧
      ∀ (i : Fin M) (j : Fin N), s'.1.get (cell i j) = s.1.get (cell i j) +
        if i.val / tm = mi ∧ j.val / tn < ni then product A B i j else 0)
    (fun ni s' lt inv => by
      obtain ⟨s'', inner, count, entry⟩ := innerLoop_eq sizes A B row lt s'
      refine ⟨s'', inner, ?_, fun i j => ?_⟩
      · rw [count, inv.1, Nat.succ_mul, Nat.add_assoc]
      · rw [entry, inv.2, add_assoc]
        congr 1
        by_cases here : i.val / tm = mi
        · rcases Nat.lt_trichotomy (j.val / tn) ni with less | eq | more
          · rw [if_pos ⟨here, less⟩, if_neg (by omega), if_pos ⟨here, by omega⟩, add_zero]
          · rw [if_neg (by omega), if_pos ⟨here, eq⟩, if_pos ⟨here, by omega⟩, zero_add]
          · rw [if_neg (by omega), if_neg (by omega), if_neg (by omega), zero_add]
        · rw [if_neg (fun h => here h.1), if_neg (fun h => here h.1), if_neg (fun h => here h.1), zero_add])
    ⟨by rw [Nat.zero_mul, Nat.add_zero], fun i j => by rw [if_neg (fun h => Nat.not_lt_zero _ h.2), add_zero]⟩
  refine ⟨s', loop, count, fun i j => ?_⟩
  have last : j.val / tn < tiles N tn := div_lt_tiles sizes.nPos j.isLt
  rw [entry]
  simp only [last, and_true]

/-- The loop over `mi` adds the product everywhere. -/
theorem outerLoop_eq (s : Vector R (M * N) × Nat) :
    ∃ s', (List.range (tiles M tm)).foldlM (fun s mi => (List.range (tiles N tn)).foldlM (fun s ni =>
        (List.range (tiles K tk)).foldlM (gemmTile (tiling M N K tm tn tk) A B mi ni) s) s) s = some s' ∧
      s'.2 = s.2 + tiles M tm * (tiles N tn * tiles K tk) ∧
        ∀ (i : Fin M) (j : Fin N), s'.1.get (cell i j) = s.1.get (cell i j) + product A B i j := by
  obtain ⟨s', loop, count, entry⟩ := foldlM_range (s := s)
    (fun mi (s' : Vector R (M * N) × Nat) => s'.2 = s.2 + mi * (tiles N tn * tiles K tk) ∧
      ∀ (i : Fin M) (j : Fin N), s'.1.get (cell i j) = s.1.get (cell i j) +
        if i.val / tm < mi then product A B i j else 0)
    (fun mi s' lt inv => by
      obtain ⟨s'', middle, count, entry⟩ := middleLoop_eq sizes A B lt s'
      refine ⟨s'', middle, ?_, fun i j => ?_⟩
      · rw [count, inv.1, Nat.succ_mul, Nat.add_assoc]
      · rw [entry, inv.2, add_assoc]
        congr 1
        rcases Nat.lt_trichotomy (i.val / tm) mi with less | eq | more
        · rw [if_pos less, if_neg (by omega), if_pos (by omega), add_zero]
        · rw [if_neg (by omega), if_pos eq, if_pos (by omega), zero_add]
        · rw [if_neg (by omega), if_neg (by omega), if_neg (by omega), zero_add])
    ⟨by rw [Nat.zero_mul, Nat.add_zero], fun i j => by rw [if_neg (Nat.not_lt_zero _), add_zero]⟩
  refine ⟨s', loop, count, fun i j => ?_⟩
  rw [entry, if_pos (div_lt_tiles sizes.mPos i.isLt)]

end Tile

/-! ## The whole function -/

section Whole
variable {R : Type} [CommRing R] {M N K : Nat}

/-- An entry of the accumulator. -/
def accumulator (C : Option (Vector R (M * N))) (i : Fin M) (j : Fin N) : R :=
  C.elim 0 fun C => C.get (cell i j)

theorem gemmInit_eq (C : Option (Vector R (M * N))) (D : Vector R (M * N)) :
    ∃ D', gemmInit M N C D = some D' ∧ ∀ (i : Fin M) (j : Fin N), D'.get (cell i j) = accumulator C i j := by
  cases C with
  | some C =>
    exact fill_cells (fun p => p.1 * N + p.2) _ (fun _ => rfl) (g := fun i j => C.get (cell i j))
      (fun i j => getElem?_cell C i j) D
  | none =>
    obtain ⟨D', clear, entry⟩ := fill_eq (List.range (M * N)) id (fun _ => some (0 : R)) (fun _ => 0) D
      (fun p mem => List.mem_range.1 mem) (fun _ _ => rfl)
    refine ⟨D', clear, fun i j => ?_⟩
    have inside : (cell i j).val ∈ (List.range (M * N)).map id := by
      rw [List.map_id]
      exact List.mem_range.2 (cell i j).isLt
    exact (entry (cell i j).val (cell i j).isLt).trans (if_pos inside)

/-- Every shape multiplies right: no access leaves its array, all tiles are done, and each
entry of `D` is that of `A * B + C`. -/
theorem gemmTiledExecute_eq (A : Vector R (M * K)) (B : Vector R (K * N)) (C : Option (Vector R (M * N)))
    (D : Vector R (M * N)) (shape : MMAShape) :
    ∃ plan D', gemmTiledExecute A B C D (gemmBlockConfig M N K shape) = some (plan, D') ∧
      plan.tilesCompleted = (gemmBlockConfig M N K shape).mBlocks * (gemmBlockConfig M N K shape).nBlocks *
        (gemmBlockConfig M N K shape).kBlocks ∧
      plan.totalTiles = plan.tilesCompleted ∧
      ∀ (i : Fin M) (j : Fin N), D'.get (cell i j) =
        ∑ k : Fin K, A.get (cell i k) * B.get (cell k j) + accumulator C i j := by
  obtain ⟨mPos, mLe, nPos, nLe, kPos, kLe⟩ := mmaShapeDims_bounds shape
  obtain ⟨start, clear, entry⟩ := gemmInit_eq C D
  obtain ⟨s, loop, count, sum⟩ := outerLoop_eq ⟨mPos, mLe, nPos, nLe, kPos, kLe⟩ A B (start, 0)
  rw [gemmBlockConfig_eq]
  generalize (mmaShapeDims shape).1 = tm at *
  generalize (mmaShapeDims shape).2.1 = tn at *
  generalize (mmaShapeDims shape).2.2 = tk at *
  have all : s.2 = tiles M tm * tiles N tn * tiles K tk := by
    rw [count, Nat.zero_add, Nat.mul_assoc]
  refine ⟨⟨tiles M tm * tiles N tn * tiles K tk, s.2, 2 * M * N * K, 2 * M * N * K, 1⟩, s.1, ?_, all, all.symm,
    fun i j => ?_⟩
  · simp only [gemmTiledExecute, tiling] at loop ⊢
    rw [clear]
    simp only [Option.bind_eq_bind, Option.bind_some, loop]
  · rw [sum, entry, add_comm]
    rfl

end Whole

end MiniHardware.Gpu
