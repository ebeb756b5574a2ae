import MiniHardware.Accel.FloatFormats
import MiniHardware.Accel.MatrixLoops

/-!
# Tensor core multiplication (`mini-ai-accelerator/src/tensor_core.c`)

A fragment holds tiles of fixed size. `tensorCoreLargeMatmul` copies what lies
inside the matrices into tiles of zeros, multiplies them with rounded inputs,
hands every sum on as the next accumulator, and copies the inside part of the
last one back. Every access is checked; the products of dimensions are taken not
to overflow an `int`.
-/

namespace MiniHardware.Accel
open Lib

/-- `TC_M`. -/
def tcM : Nat := 16

/-- `TC_N`. -/
def tcN : Nat := 16

/-- `TC_K`. -/
def tcK : Nat := 16

structure TensorCore where
  precision : TensorCorePrecision
  totalMmaOps : UInt64

structure TensorCoreFragment where
  A : Vector UInt32 (tcM * tcK)
  B : Vector UInt32 (tcK * tcN)
  C : Vector FloatValue (tcM * tcN)
  D : Vector FloatValue (tcM * tcN)
  M : Nat
  N : Nat
  K : Nat
  precision : TensorCorePrecision

/-- The arrays are zeroed. -/
def tensorCoreFragmentCreate (M N K : Nat) (precision : TensorCorePrecision) : TensorCoreFragment where
  A := Vector.replicate _ 0
  B := Vector.replicate _ 0
  C := Vector.replicate _ (.finite 0)
  D := Vector.replicate _ (.finite 0)
  M := if M > tcM then tcM else M
  N := if N > tcN then tcN else N
  K := if K > tcK then tcK else K
  precision := precision

/-- The body of the loop over `k`. -/
def mmaRound (frag : TensorCoreFragment) (i j : Nat) (sum : FloatValue) (k : Nat) : Option FloatValue := do
  let a ← frag.A[i * tcK + k]?
  let b ← frag.B[k * tcN + j]?
  some (sum + precisionRoundInput a frag.precision * precisionRoundInput b frag.precision)

def tensorCoreMma (tc : TensorCore) (frag : TensorCoreFragment) : Option (TensorCore × TensorCoreFragment) := do
  let D ← fill (List.range frag.M ×ˢ List.range frag.N) (fun p => p.1 * tcN + p.2)
    (fun p => do (List.range frag.K).foldlM (mmaRound frag p.1 p.2) (← frag.C[p.1 * tcN + p.2]?)) frag.D
  some ({ tc with totalMmaOps := tc.totalMmaOps + 1 }, { frag with D := D })

/-- `m_act` and its like: how much of a tile at `start` lies before `limit`. -/
def actual (start size limit : Nat) : Nat :=
  (if start + size ≤ limit then start + size else limit) - start

/-- The loops that fill a tile with zeros and copy `a` rows and `b` columns from `(r, c)`. -/
def loadBlock {α : Type} {rows cols size : Nat} (zero : α) (src : Vector α size) (width r c a b : Nat)
    (tile : Vector α (rows * cols)) : Option (Vector α (rows * cols)) := do
  let tile ← fill (List.range rows ×ˢ List.range cols) (fun p => p.1 * cols + p.2) (fun _ => some zero) tile
  fill (List.range a ×ˢ List.range b) (fun p => p.1 * cols + p.2)
    (fun p => src[(r + p.1) * width + (c + p.2)]?) tile

section Model
variable {M N K : Nat}

/-- The body of the loop over `kt`. -/
def mmaTile (A : Vector UInt32 (M * K)) (B : Vector UInt32 (K * N)) (mStart nStart : Nat)
    (s : TensorCore × TensorCoreFragment) (kt : Nat) : Option (TensorCore × TensorCoreFragment) := do
  let kStart := kt * tcK
  let mAct := actual mStart tcM M
  let nAct := actual nStart tcN N
  let kAct := actual kStart tcK K
  let fragA ← loadBlock 0 A K mStart kStart mAct kAct s.2.A
  let fragB ← loadBlock 0 B N kStart nStart kAct nAct s.2.B
  let (tc, frag) ← tensorCoreMma s.1 { s.2 with A := fragA, B := fragB, M := tcM, N := tcN, K := tcK }
  let fragC ← fill (List.range tcM ×ˢ List.range tcN) (fun p => p.1 * tcN + p.2)
    (fun p => frag.D[p.1 * tcN + p.2]?) frag.C
  some (tc, { frag with C := fragC })

/-- The state of the loops: the core, its fragment and `D`. -/
abbrev MatmulState (M N : Nat) := TensorCore × TensorCoreFragment × Vector FloatValue (M * N)

/-- The body of the loop over `mt` and `nt`. -/
def matmulTile (A : Vector UInt32 (M * K)) (B : Vector UInt32 (K * N)) (s : MatmulState M N)
    (p : Nat × Nat) : Option (MatmulState M N) := do
  let (tc, frag, D) := s
  let mStart := p.1 * tcM
  let nStart := p.2 * tcN
  let mAct := actual mStart tcM M
  let nAct := actual nStart tcN N
  let fragC ← loadBlock (.finite 0) D N mStart nStart mAct nAct frag.C
  let (tc, frag) ← (List.range (tiles K tcK)).foldlM (mmaTile A B mStart nStart) (tc, { frag with C := fragC })
  let D ← fill (List.range mAct ×ˢ List.range nAct) (fun p => (mStart + p.1) * N + (nStart + p.2))
    (fun p => frag.D[p.1 * tcN + p.2]?) D
  some (tc, frag, D)

/-- `C` may be null. The fragment is taken to be allocated. -/
def tensorCoreLargeMatmul (tc : TensorCore) (A : Vector UInt32 (M * K)) (B : Vector UInt32 (K * N))
    (C : Option (Vector FloatValue (M * N))) (D : Vector FloatValue (M * N)) :
    Option (TensorCore × Vector FloatValue (M * N)) := do
  let D ← fill (List.range (M * N)) id (fun i => C.elim (some (.finite 0)) fun C => C[i]?) D
  let frag := tensorCoreFragmentCreate tcM tcN tcK tc.precision
  let (tc, _, D) ← (List.range (tiles M tcM) ×ˢ List.range (tiles N tcN)).foldlM (matmulTile A B) (tc, frag, D)
  some (tc, D)

end Model

/-! ## One tile -/

theorem actual_spec (size : Nat) {start limit : Nat} (le : start ≤ limit) :
    start + actual start size limit ≤ limit ∧ actual start size limit ≤ size ∧
      ∀ i < size, (i < actual start size limit ↔ start + i < limit) := by
  unfold actual
  split
  · refine ⟨by omega, by omega, fun i lt => by omega⟩
  · refine ⟨by omega, by omega, fun i lt => by omega⟩

/-- The entry at a place, or another value outside the matrix. -/
def entryOr {α : Type} {m n : Nat} (zero : α) (X : Vector α (m * n)) (r c : Nat) : α :=
  if row : r < m then if col : c < n then X.get (cell ⟨r, row⟩ ⟨c, col⟩) else zero else zero

theorem entryOr_inside {α : Type} {m n r c : Nat} (zero : α) (X : Vector α (m * n)) (row : r < m) (col : c < n) :
    entryOr zero X r c = X.get (cell ⟨r, row⟩ ⟨c, col⟩) := by
  rw [entryOr, dif_pos row, dif_pos col]

theorem entryOr_cell {α : Type} {m n : Nat} (zero : α) (X : Vector α (m * n)) (i : Fin m) (j : Fin n) :
    entryOr zero X i.val j.val = X.get (cell i j) :=
  entryOr_inside zero X i.isLt j.isLt

theorem entryOr_outside {α : Type} {m n r c : Nat} (zero : α) (X : Vector α (m * n)) (outside : ¬(r < m ∧ c < n)) :
    entryOr zero X r c = zero := by
  unfold entryOr
  split
  · rename_i row
    rw [dif_neg fun col => outside ⟨row, col⟩]
  · rfl

/-- A tile is loaded with what lies inside the matrix, and zeros around it. -/
theorem loadBlock_eq {α : Type} {rows cols m n r c : Nat} (zero : α) (src : Vector α (m * n))
    (row : r ≤ m) (col : c ≤ n) (tile : Vector α (rows * cols)) :
    ∃ tile', loadBlock zero src n r c (actual r rows m) (actual c cols n) tile = some tile' ∧
      ∀ i j, tile'.get (cell i j) = entryOr zero src (r + i.val) (c + j.val) := by
  obtain ⟨rowsIn, rowsLe, rowIff⟩ := actual_spec rows row
  obtain ⟨colsIn, colsLe, colIff⟩ := actual_spec cols col
  obtain ⟨blank, clear, cleared⟩ := fill_cells (fun p => p.1 * cols + p.2) (fun _ => some zero) (fun _ => rfl)
    (g := fun _ _ => zero) (fun _ _ => rfl) tile
  have known : ∀ (i : Fin (actual r rows m)) (j : Fin (actual c cols n)),
      src[(r + i.val) * n + (c + j.val)]? = some (entryOr zero src (r + i.val) (c + j.val)) := by
    intro i j
    have inside : r + i.val < m ∧ c + j.val < n := by omega
    rw [entryOr_inside _ _ inside.1 inside.2]
    exact getElem?_cell src ⟨_, inside.1⟩ ⟨_, inside.2⟩
  have start : 0 + actual r rows m ≤ rows ∧ 0 + actual c cols n ≤ cols := by omega
  obtain ⟨tile', copy, copied⟩ := fill_block (fun p => p.1 * cols + p.2)
    (fun p => src[(r + p.1) * n + (c + p.2)]?) start.1 start.2 (by simp)
    (fun i j => entryOr zero src (r + i.val) (c + j.val)) (by simpa using known) blank
  refine ⟨tile', ?_, fun i j => ?_⟩
  · rw [loadBlock, clear]
    exact copy
  · rw [copied, cleared]
    split
    · rfl
    · rename_i outside
      have := rowIff i.val i.isLt
      have := colIff j.val j.isLt
      exact (entryOr_outside zero src (by omega)).symm

/-! ## Sums of rounded products -/

/-- The number an input is rounded to. -/
def rounded (precision : TensorCorePrecision) (x : UInt32) : ℚ := (precisionRoundInput x precision).toRat

/-- All inputs are rounded to numbers. -/
def RoundsFinite {n : Nat} (precision : TensorCorePrecision) (X : Vector UInt32 n) : Prop :=
  ∀ k : Fin n, precisionRoundInput (X.get k) precision = .finite (rounded precision (X.get k))

instance {n : Nat} (precision : TensorCorePrecision) (X : Vector UInt32 n) :
    Decidable (RoundsFinite precision X) :=
  inferInstanceAs (Decidable (∀ k : Fin n, precisionRoundInput (X.get k) precision = .finite (rounded precision (X.get k))))

theorem rounded_zero (precision : TensorCorePrecision) : rounded precision 0 = 0 := by
  rw [rounded, precision_round_zero]
  rfl

/-- The padding is rounded to a number, too. -/
theorem RoundsFinite.entryOr {m n : Nat} {precision : TensorCorePrecision} {X : Vector UInt32 (m * n)}
    (fin : RoundsFinite precision X) (r c : Nat) :
    precisionRoundInput (entryOr 0 X r c) precision = .finite (rounded precision (entryOr 0 X r c)) := by
  by_cases inside : r < m ∧ c < n
  · rw [entryOr_inside _ _ inside.1 inside.2]
    exact fin (cell _ _)
  · rw [entryOr_outside _ _ inside, rounded_zero]
    exact precision_round_zero precision

section Fragment
variable {frag : TensorCoreFragment} {x y : Nat → ℚ}

theorem mmaRounds_eq (i : Fin tcM) (j : Fin tcN)
    (left : ∀ k : Fin tcK, precisionRoundInput (frag.A.get (cell i k)) frag.precision = .finite (x k.val))
    (right : ∀ k : Fin tcK, precisionRoundInput (frag.B.get (cell k j)) frag.precision = .finite (y k.val)) (c : ℚ) :
    (List.range tcK).foldlM (mmaRound frag i.val j.val) (.finite c) =
      some (.finite (c + ∑ k ∈ Finset.range tcK, x k * y k)) := by
  have step : ∀ k s, k < tcK → s = FloatValue.finite (c + ∑ l ∈ Finset.range k, x l * y l) →
      ∃ s', mmaRound frag i.val j.val s k = some s' ∧
        s' = .finite (c + ∑ l ∈ Finset.range (k + 1), x l * y l) := by
    rintro k s lt rfl
    have a : frag.A[i.val * tcK + k]? = some (frag.A.get (cell i ⟨k, lt⟩)) := getElem?_cell frag.A i ⟨k, lt⟩
    have b : frag.B[k * tcN + j.val]? = some (frag.B.get (cell ⟨k, lt⟩ j)) := getElem?_cell frag.B ⟨k, lt⟩ j
    refine ⟨_, by rw [mmaRound, a, b]; rfl, ?_⟩
    rw [left ⟨k, lt⟩, right ⟨k, lt⟩, FloatValue.finite_mul, FloatValue.finite_add, Finset.sum_range_succ,
      add_assoc]
  have start : FloatValue.finite c = .finite (c + ∑ l ∈ Finset.range 0, x l * y l) := by
    rw [Finset.sum_range_zero, add_zero]
  obtain ⟨s, loop, sum⟩ := foldlM_range
    (fun k s => s = FloatValue.finite (c + ∑ l ∈ Finset.range k, x l * y l)) step start
  rw [loop, sum]

/-- A full fragment is multiplied, with rounded inputs. -/
theorem tensor_core_mma_eq (tc : TensorCore) {x y : Nat → Nat → ℚ} {c : Nat → Nat → ℚ} (frag : TensorCoreFragment)
    (full : frag.M = tcM ∧ frag.N = tcN ∧ frag.K = tcK)
    (left : ∀ (i : Fin tcM) (k : Fin tcK),
      precisionRoundInput (frag.A.get (cell i k)) frag.precision = .finite (x i.val k.val))
    (right : ∀ (k : Fin tcK) (j : Fin tcN),
      precisionRoundInput (frag.B.get (cell k j)) frag.precision = .finite (y k.val j.val))
    (acc : ∀ (i : Fin tcM) (j : Fin tcN), frag.C.get (cell i j) = .finite (c i.val j.val)) :
    ∃ D, tensorCoreMma tc frag =
        some ({ tc with totalMmaOps := tc.totalMmaOps + 1 }, { frag with D := D }) ∧
      ∀ (i : Fin tcM) (j : Fin tcN),
        D.get (cell i j) = .finite (c i.val j.val + ∑ k ∈ Finset.range tcK, x i.val k * y k j.val) := by
  obtain ⟨D, loop, entry⟩ := fill_cells (m := tcM) (n := tcN) (fun p => p.1 * tcN + p.2)
    (fun p => do (List.range tcK).foldlM (mmaRound frag p.1 p.2) (← frag.C[p.1 * tcN + p.2]?)) (fun _ => rfl)
    (g := fun i j => .finite (c i.val j.val + ∑ k ∈ Finset.range tcK, x i.val k * y k j.val))
    (fun i j => by
      rw [getElem?_cell frag.C i j, acc]
      exact mmaRounds_eq i j (left i) (fun k => right k j) _) frag.D
  refine ⟨D, ?_, entry⟩
  rw [tensorCoreMma, full.1, full.2.1, full.2.2, loop]
  rfl

end Fragment

/-! ## The loops over tiles -/

section Tiles
variable {M N K : Nat} {precision : TensorCorePrecision}

/-- The accumulators of a tile. -/
structure Accumulated (precision : TensorCorePrecision) (sum : Nat → Nat → ℚ)
    (s : TensorCore × TensorCoreFragment) : Prop where
  core : s.1.precision = precision
  fragment : s.2.precision = precision
  C : ∀ (i : Fin tcM) (j : Fin tcN), s.2.C.get (cell i j) = .finite (sum i.val j.val)

/-- The summand of position `k` for the entry at `(r, c)`. -/
def roundedTerm (precision : TensorCorePrecision) (A : Vector UInt32 (M * K)) (B : Vector UInt32 (K * N))
    (r c k : Nat) : ℚ :=
  rounded precision (entryOr 0 A r k) * rounded precision (entryOr 0 B k c)

variable {A : Vector UInt32 (M * K)} {B : Vector UInt32 (K * N)}

/-- A tile of the inner dimension adds its summands, and leaves the sums in both arrays. -/
theorem mmaTile_eq (finA : RoundsFinite precision A) (finB : RoundsFinite precision B) {mStart nStart kt : Nat}
    (row : mStart ≤ M) (col : nStart ≤ N) (inner : kt * tcK ≤ K) {c : Nat → Nat → ℚ}
    {s : TensorCore × TensorCoreFragment} (h : Accumulated precision c s) :
    ∃ s', mmaTile A B mStart nStart s kt = some s' ∧
      Accumulated precision (fun i j => c i j +
        ∑ k ∈ Finset.range tcK, roundedTerm precision A B (mStart + i) (nStart + j) (kt * tcK + k)) s' ∧
      ∀ (i : Fin tcM) (j : Fin tcN), s'.2.D.get (cell i j) = s'.2.C.get (cell i j) := by
  obtain ⟨tc, frag⟩ := s
  obtain ⟨rfl, fragment, acc⟩ := h
  dsimp only at fragment acc
  obtain ⟨fragA, loadA, entryA⟩ := loadBlock_eq 0 A row inner frag.A
  obtain ⟨fragB, loadB, entryB⟩ := loadBlock_eq 0 B inner col frag.B
  obtain ⟨D, mma, entryD⟩ := tensor_core_mma_eq tc
    (x := fun i k => rounded tc.precision (entryOr 0 A (mStart + i) (kt * tcK + k)))
    (y := fun k j => rounded tc.precision (entryOr 0 B (kt * tcK + k) (nStart + j))) (c := c)
    { frag with A := fragA, B := fragB, M := tcM, N := tcN, K := tcK } ⟨rfl, rfl, rfl⟩
    (fun i k => by
      dsimp only
      rw [entryA, fragment]
      exact finA.entryOr _ _)
    (fun k j => by
      dsimp only
      rw [entryB, fragment]
      exact finB.entryOr _ _)
    acc
  obtain ⟨C, copy, entryC⟩ := fill_cells (m := tcM) (n := tcN) (fun p => p.1 * tcN + p.2)
    (fun p => D[p.1 * tcN + p.2]?) (fun _ => rfl) (g := fun i j => D.get (cell i j)) (getElem?_cell D) frag.C
  refine ⟨({ tc with totalMmaOps := tc.totalMmaOps + 1 },
    { frag with A := fragA, B := fragB, C := C, D := D, M := tcM, N := tcN, K := tcK }), ?_, ⟨rfl, fragment, ?_⟩, ?_⟩
  · simp only [mmaTile, loadA, loadB, Option.bind_eq_bind, Option.bind_some, mma, copy]
  · intro i j
    exact (entryC i j).trans (entryD i j)
  · intro i j
    exact (entryC i j).symm

/-- The inner loop, which runs at least once, adds all summands. -/
theorem mmaTiles_eq (pos : 0 < K) (finA : RoundsFinite precision A) (finB : RoundsFinite precision B)
    {mStart nStart : Nat} (row : mStart ≤ M) (col : nStart ≤ N) {c : Nat → Nat → ℚ}
    {s : TensorCore × TensorCoreFragment} (h : Accumulated precision c s) :
    ∃ s', (List.range (tiles K tcK)).foldlM (mmaTile A B mStart nStart) s = some s' ∧
      (s'.1.precision = precision ∧ s'.2.precision = precision) ∧
      ∀ (i : Fin tcM) (j : Fin tcN), s'.2.D.get (cell i j) =
        .finite (c i.val j.val + ∑ t ∈ Finset.range (tiles K tcK), ∑ k ∈ Finset.range tcK,
          roundedTerm precision A B (mStart + i.val) (nStart + j.val) (t * tcK + k)) := by
  have step : ∀ kt s, kt < tiles K tcK →
      (Accumulated precision (fun i j => c i j + ∑ t ∈ Finset.range kt, ∑ k ∈ Finset.range tcK,
        roundedTerm precision A B (mStart + i) (nStart + j) (t * tcK + k)) s ∧
          (0 < kt → ∀ (i : Fin tcM) (j : Fin tcN), s.2.D.get (cell i j) = s.2.C.get (cell i j))) →
      ∃ s', mmaTile A B mStart nStart s kt = some s' ∧
        Accumulated precision (fun i j => c i j + ∑ t ∈ Finset.range (kt + 1), ∑ k ∈ Finset.range tcK,
          roundedTerm precision A B (mStart + i) (nStart + j) (t * tcK + k)) s' ∧
            (0 < kt + 1 → ∀ (i : Fin tcM) (j : Fin tcN), s'.2.D.get (cell i j) = s'.2.C.get (cell i j)) := by
    rintro kt s lt ⟨acc, -⟩
    obtain ⟨s', tile, acc', copied⟩ := mmaTile_eq finA finB row col (tile_start_lt lt).le acc
    refine ⟨s', tile, ⟨acc'.core, acc'.fragment, fun i j => ?_⟩, fun _ => copied⟩
    rw [acc'.C, Finset.sum_range_succ, add_assoc]
  have start : Accumulated precision (fun i j => c i j + ∑ t ∈ Finset.range 0, ∑ k ∈ Finset.range tcK,
      roundedTerm precision A B (mStart + i) (nStart + j) (t * tcK + k)) s := by
    refine ⟨h.core, h.fragment, fun i j => ?_⟩
    rw [h.C, Finset.sum_range_zero, add_zero]
  obtain ⟨s', loop, last, copied⟩ := foldlM_range _ step ⟨start, fun pos => absurd pos (Nat.lt_irrefl 0)⟩
  refine ⟨s', loop, ⟨last.core, last.fragment⟩, fun i j => ?_⟩
  rw [copied (Nat.zero_lt_of_lt (div_lt_tiles (by decide) pos)), last.C]

/-- The product of the rounded matrices at an entry. -/
def roundedProduct (precision : TensorCorePrecision) (A : Vector UInt32 (M * K)) (B : Vector UInt32 (K * N))
    (i : Fin M) (j : Fin N) : ℚ :=
  ∑ k : Fin K, rounded precision (A.get (cell i k)) * rounded precision (B.get (cell k j))

/-- The tiles' sums make up the product. -/
theorem sum_tiles_eq_product (i : Fin M) (j : Fin N) :
    ∑ t ∈ Finset.range (tiles K tcK), ∑ k ∈ Finset.range tcK, roundedTerm precision A B i.val j.val (t * tcK + k) =
      roundedProduct precision A B i j := by
  have padding : ∀ k, roundedTerm precision A B i.val j.val k =
      if k < K then roundedTerm precision A B i.val j.val k else 0 := by
    intro k
    split
    · rfl
    · rename_i outside
      rw [roundedTerm, entryOr_outside _ _ (fun h => outside h.2), rounded_zero, zero_mul]
  calc
    _ = ∑ t : Fin (tiles K tcK), ∑ k : Fin tcK,
        if t.val * tcK + k.val < K then roundedTerm precision A B i.val j.val (t.val * tcK + k.val) else 0 := by
      simp only [← padding, ← Fin.sum_univ_eq_sum_range]
    _ = ∑ k : Fin K, roundedTerm precision A B i.val j.val k.val := sum_tiles (by decide) _
    _ = roundedProduct precision A B i j := by
      simp only [roundedTerm, entryOr_cell]
      rfl

/-- A tile of `D` gets the product added, the others stay. -/
theorem matmulTile_eq (pos : 0 < K) (finA : RoundsFinite precision A) (finB : RoundsFinite precision B)
    {p : Nat × Nat} (row : p.1 < tiles M tcM) (col : p.2 < tiles N tcN) {d : Fin M → Fin N → ℚ}
    {s : MatmulState M N} (same : s.1.precision = precision ∧ s.2.1.precision = precision)
    (entry : ∀ i j, s.2.2.get (cell i j) = .finite (d i j)) :
    ∃ s', matmulTile A B s p = some s' ∧ (s'.1.precision = precision ∧ s'.2.1.precision = precision) ∧
      ∀ (i : Fin M) (j : Fin N), s'.2.2.get (cell i j) = .finite (d i j +
        if (i.val / tcM, j.val / tcN) = p then roundedProduct precision A B i j else 0) := by
  obtain ⟨tc, frag, D⟩ := s
  obtain ⟨mt, nt⟩ := p
  dsimp only at row col same entry
  have rowLe := (tile_start_lt row).le
  have colLe := (tile_start_lt col).le
  obtain ⟨rowsIn, rowsLe, rowIff⟩ := actual_spec tcM rowLe
  obtain ⟨colsIn, colsLe, colIff⟩ := actual_spec tcN colLe
  obtain ⟨C, load, entryC⟩ := loadBlock_eq (.finite 0) D rowLe colLe frag.C
  have acc : Accumulated precision (fun i j => (entryOr (.finite 0) D (mt * tcM + i) (nt * tcN + j)).toRat)
      (tc, { frag with C := C }) := by
    refine ⟨same.1, same.2, fun i j => (entryC i j).trans ?_⟩
    by_cases place : mt * tcM + i.val < M ∧ nt * tcN + j.val < N
    · rw [entryOr_inside _ _ place.1 place.2, entry]
      rfl
    · rw [entryOr_outside _ _ place]
      rfl
  obtain ⟨⟨tc', frag'⟩, loop, same', entryD⟩ := mmaTiles_eq pos finA finB rowLe colLe acc
  have known : ∀ (i : Fin (actual (mt * tcM) tcM M)) (j : Fin (actual (nt * tcN) tcN N)),
      frag'.D[i.val * tcN + j.val]? = some (.finite (d ⟨mt * tcM + i.val, by omega⟩ ⟨nt * tcN + j.val, by omega⟩ +
        roundedProduct precision A B ⟨mt * tcM + i.val, by omega⟩ ⟨nt * tcN + j.val, by omega⟩)) := by
    intro i j
    have inTile : i.val < tcM ∧ j.val < tcN := by omega
    have place : mt * tcM + i.val < M ∧ nt * tcN + j.val < N := by omega
    have before : (entryOr (.finite 0) D (mt * tcM + i.val) (nt * tcN + j.val)).toRat =
        d ⟨mt * tcM + i.val, place.1⟩ ⟨nt * tcN + j.val, place.2⟩ := by
      rw [entryOr_inside _ _ place.1 place.2, entry]
      rfl
    rw [← sum_tiles_eq_product, ← before]
    exact (getElem?_cell frag'.D ⟨i.val, inTile.1⟩ ⟨j.val, inTile.2⟩).trans (congrArg some (entryD _ _))
  obtain ⟨D', store, stored⟩ := fill_block (m := M) (n := N)
    (fun p => (mt * tcM + p.1) * N + (nt * tcN + p.2)) (fun p => frag'.D[p.1 * tcN + p.2]?) rowsIn colsIn (fun _ => rfl)
    (fun i j => .finite (d i j + roundedProduct precision A B i j)) known D
  refine ⟨(tc', frag', D'), ?_, same', fun i j => ?_⟩
  · simp only [matmulTile, load, Option.bind_eq_bind, Option.bind_some, loop, store]
  · have owner : (i.val / tcM, j.val / tcN) = (mt, nt) ↔
        (mt * tcM ≤ i.val ∧ i.val < mt * tcM + actual (mt * tcM) tcM M) ∧
          nt * tcN ≤ j.val ∧ j.val < nt * tcN + actual (nt * tcN) tcN N := by
      have inRow := rowIff (i.val - mt * tcM)
      have inCol := colIff (j.val - nt * tcN)
      rw [Prod.mk.injEq]
      simp only [tcM, tcN] at *
      omega
    rw [stored, if_congr owner.symm rfl rfl, entry]
    split
    · rfl
    · rw [add_zero]

/-- The loop over all tiles adds the product to every entry. -/
theorem matmulTiles_eq (pos : 0 < K) (finA : RoundsFinite precision A) (finB : RoundsFinite precision B)
    {c : Fin M → Fin N → ℚ} {s : MatmulState M N}
    (same : s.1.precision = precision ∧ s.2.1.precision = precision)
    (entry : ∀ i j, s.2.2.get (cell i j) = .finite (c i j)) :
    ∃ s', (List.range (tiles M tcM) ×ˢ List.range (tiles N tcN)).foldlM (matmulTile A B) s = some s' ∧
      ∀ (i : Fin M) (j : Fin N), s'.2.2.get (cell i j) = .finite (c i j + roundedProduct precision A B i j) := by
  have nodup : (List.range (tiles M tcM) ×ˢ List.range (tiles N tcN)).Nodup :=
    List.nodup_range.product List.nodup_range
  have step : ∀ done p rest (s : MatmulState M N),
      List.range (tiles M tcM) ×ˢ List.range (tiles N tcN) = done ++ p :: rest →
      ((s.1.precision = precision ∧ s.2.1.precision = precision) ∧ ∀ (i : Fin M) (j : Fin N), s.2.2.get (cell i j) =
        .finite (c i j + if (i.val / tcM, j.val / tcN) ∈ done then roundedProduct precision A B i j else 0)) →
      ∃ s', matmulTile A B s p = some s' ∧
        (s'.1.precision = precision ∧ s'.2.1.precision = precision) ∧ ∀ (i : Fin M) (j : Fin N), s'.2.2.get (cell i j) =
          .finite (c i j +
            if (i.val / tcM, j.val / tcN) ∈ done ++ [p] then roundedProduct precision A B i j else 0) := by
    rintro done p rest s eq ⟨same, entry⟩
    have mem : p ∈ List.range (tiles M tcM) ×ˢ List.range (tiles N tcN) := by
      rw [eq]
      exact List.mem_append_right _ List.mem_cons_self
    obtain ⟨row, col⟩ := List.mem_product.1 mem
    obtain ⟨s', tile, same', entry'⟩ :=
      matmulTile_eq pos finA finB (List.mem_range.1 row) (List.mem_range.1 col) same entry
    refine ⟨s', tile, same', fun i j => ?_⟩
    have new : p ∉ done := fun old => List.disjoint_of_nodup_append (eq ▸ nodup) old List.mem_cons_self
    rw [entry', add_assoc]
    by_cases own : (i.val / tcM, j.val / tcN) = p
    · simp [own, new]
    · simp [own]
  obtain ⟨s', loop, -, last⟩ := foldlM_rounds _ step ⟨same, fun i j => by simpa using entry i j⟩
  refine ⟨s', loop, fun i j => ?_⟩
  have mem : (i.val / tcM, j.val / tcN) ∈ List.range (tiles M tcM) ×ˢ List.range (tiles N tcN) :=
    List.mem_product.2 ⟨List.mem_range.2 (div_lt_tiles (by decide) i.isLt),
      List.mem_range.2 (div_lt_tiles (by decide) j.isLt)⟩
  rw [last, if_pos mem]

/-- **The tiled product is the product of the rounded matrices.** The loops have a result, so
every access is inside its array. -/
theorem tensor_core_large_matmul_eq (tc : TensorCore) (pos : 0 < K) (A : Vector UInt32 (M * K))
    (B : Vector UInt32 (K * N)) (finA : RoundsFinite tc.precision A) (finB : RoundsFinite tc.precision B)
    (C : Option (Vector ℚ (M * N))) (D : Vector FloatValue (M * N)) :
    ∃ tc' D', tensorCoreLargeMatmul tc A B (C.map (Vector.map .finite)) D = some (tc', D') ∧ ∀ i j,
      D'.get (cell i j) = .finite (C.elim 0 (fun C => C.get (cell i j)) +
        ∑ k, rounded tc.precision (A.get (cell i k)) * rounded tc.precision (B.get (cell k j))) := by
  have value : ∀ k : Fin (M * N), ((C.map (Vector.map FloatValue.finite)).elim (some (.finite 0)) fun C => C[k.val]?) =
      some (.finite (C.elim 0 fun C => C[k])) := by
    intro k
    cases C with
    | none => rfl
    | some C =>
      show (C.map FloatValue.finite)[k.val]? = _
      rw [Vector.getElem?_eq_getElem k.isLt, Vector.getElem_map]
      rfl
  obtain ⟨D₀, init, start⟩ := fill_eq (List.range (M * N)) id
    (fun i => (C.map (Vector.map FloatValue.finite)).elim (some (.finite 0)) fun C => C[i]?)
    (fun k => .finite (C.elim 0 fun C => C[k])) D (fun k mem => List.mem_range.1 mem)
    (fun k mem => value ⟨k, List.mem_range.1 mem⟩)
  have entry : ∀ (i : Fin M) (j : Fin N), D₀.get (cell i j) = .finite (C.elim 0 fun C => C.get (cell i j)) := by
    intro i j
    refine (start _ (cell i j).isLt).trans (if_pos ?_)
    rw [List.map_id]
    exact List.mem_range.2 (cell i j).isLt
  obtain ⟨⟨tc', frag, D'⟩, loop, last⟩ := matmulTiles_eq pos finA finB
    (s := (tc, tensorCoreFragmentCreate tcM tcN tcK tc.precision, D₀)) ⟨rfl, rfl⟩ entry
  refine ⟨tc', D', ?_, last⟩
  simp only [tensorCoreLargeMatmul, init, Option.bind_eq_bind, Option.bind_some, loop]

end Tiles

/-- A row and a column of three entries, in half precision. -/
def matmulRow : Vector UInt32 (1 * 3) := #v[0x3F800000, 0xC0490FDB, 0x3DCCCCCD]

def matmulColumn : Vector UInt32 (3 * 1) := #v[0x40000000, 0x3F000000, 0x41200000]

theorem tensor_core_large_matmul_eq_row : ∃ tc' D',
    tensorCoreLargeMatmul ⟨.fp16Fp16Fp32, 0⟩ matmulRow matmulColumn
      ((none : Option (Vector ℚ (1 * 1))).map (Vector.map .finite)) (#v[.nan] : Vector FloatValue (1 * 1)) =
        some (tc', D') ∧ ∀ i j, D'.get (cell i j) =
      .finite ((none : Option (Vector ℚ (1 * 1))).elim 0 (fun C => C.get (cell i j)) +
        ∑ k, rounded .fp16Fp16Fp32 (matmulRow.get (cell i k)) * rounded .fp16Fp16Fp32 (matmulColumn.get (cell k j))) :=
  tensor_core_large_matmul_eq ⟨.fp16Fp16Fp32, 0⟩ (by decide) matmulRow matmulColumn (by decide +kernel)
    (by decide +kernel) none #v[.nan]

end MiniHardware.Accel
