import MiniHardware.Lib.Tiles
import Mathlib.Algebra.BigOperators.Ring.Finset
import Mathlib.Data.List.ProdSigma

/-!
# Tiled matrix multiplication (`mini-ai-accelerator/src/mma.c`)

Matrices are flat arrays, row by row. The loops read tiles padded with zeros,
multiply them, and write back what lies inside the matrix; an entry of `D`
collects one summand for every tile of the inner dimension. The numbers are
those of any commutative ring, where the source has `float`; the products of
dimensions are taken not to overflow an `int`.
-/

namespace MiniHardware.Accel
open Lib

/-- `TILE_SIZE`. -/
def maxTileSize : Nat := 8

/-- The size an engine works with fits its tiles. -/
structure MMAEngine where
  tileSize : Nat
  pos : 0 < tileSize
  le : tileSize ≤ maxTileSize

/-- `mma_engine_create` brings any size into the range. -/
def mmaEngineCreate (tileSize : Int) : MMAEngine :=
  if large : tileSize > maxTileSize then ⟨maxTileSize, by decide, Nat.le_refl _⟩
  else if h : tileSize < 1 then ⟨1, by decide, by decide⟩
  else ⟨tileSize.toNat, by omega, Int.toNat_le.2 (Int.not_lt.1 large)⟩

/-- The part of `data[TILE_SIZE][TILE_SIZE]` an engine uses. -/
abbrev MMATile (R : Type*) (eng : MMAEngine) := Fin eng.tileSize → Fin eng.tileSize → R

/-- The offset `i * n + j` of an entry. -/
def cell {m n : Nat} (i : Fin m) (j : Fin n) : Fin (m * n) :=
  ⟨i.val * n + j.val, by
    have := (finProdFinEquiv (i, j)).isLt
    rwa [finProdFinEquiv_apply_val, Nat.add_comm, Nat.mul_comm] at this⟩

theorem cell_inj {m n : Nat} {i i' : Fin m} {j j' : Fin n} :
    cell i j = cell i' j' ↔ i.val = i'.val ∧ j.val = j'.val := by
  have eq : ∀ (i : Fin m) (j : Fin n), cell i j = finProdFinEquiv (i, j) := by
    intro i j
    apply Fin.ext
    exact (Nat.add_comm _ _).trans (congrArg (j.val + ·) (Nat.mul_comm _ _))
  rw [eq, eq, finProdFinEquiv.apply_eq_iff_eq, Prod.mk.injEq, Fin.ext_iff, Fin.ext_iff]

section Model

variable {R : Type*} {M N K : Nat}

/-- The loops that write `tileD` back. -/
def storeTile (eng : MMAEngine) (mi ni : Nat) (D : Vector R (M * N)) (tileD : MMATile R eng) :
    Vector R (M * N) :=
  (List.finRange eng.tileSize ×ˢ List.finRange eng.tileSize).foldl
    (fun D p =>
      let di := mi * eng.tileSize + p.1.val
      let dj := ni * eng.tileSize + p.2.val
      if h : di < M ∧ dj < N then D.set (cell ⟨di, h.1⟩ ⟨dj, h.2⟩) (tileD p.1 p.2) else D) D

variable [CommRing R]

def mmaTileMatmul (eng : MMAEngine) (A B C : MMATile R eng) : MMATile R eng := fun i j =>
  (List.finRange eng.tileSize).foldl (fun d k => d + A i k * B k j) (C i j)

/-- An entry, or zero outside the matrix. -/
def padded (X : Vector R (M * N)) (r c : Nat) : R :=
  if h : r < M ∧ c < N then X[cell ⟨r, h.1⟩ ⟨c, h.2⟩] else 0

/-- The body of the loop over `ki`. -/
def tileStep (eng : MMAEngine) (A : Vector R (M * K)) (B : Vector R (K * N)) (mi ni : Nat)
    (D : Vector R (M * N)) (ki : Nat) : Vector R (M * N) :=
  let ts := eng.tileSize
  let tileA : MMATile R eng := fun i j => padded A (mi * ts + i.val) (ki * ts + j.val)
  let tileB : MMATile R eng := fun i j => padded B (ki * ts + i.val) (ni * ts + j.val)
  let tileC : MMATile R eng := fun i j => padded D (mi * ts + i.val) (ni * ts + j.val)
  storeTile eng mi ni D (mmaTileMatmul eng tileA tileB tileC)

/-- `C` may be null. What `D` held before is overwritten. -/
def mmaLargeMatmul (eng : MMAEngine) (A : Vector R (M * K)) (B : Vector R (K * N))
    (C : Option (Vector R (M * N))) : Vector R (M * N) :=
  let D := C.getD (Vector.replicate (M * N) 0)
  (List.finRange (tiles M eng.tileSize) ×ˢ List.finRange (tiles N eng.tileSize)).foldl
    (fun D p => (List.finRange (tiles K eng.tileSize)).foldl
      (fun D ki => tileStep eng A B p.1.val p.2.val D ki.val) D) D

end Model

/-! ## One tile -/

section Tile

variable {R : Type*} {M N : Nat} {eng : MMAEngine}

theorem mma_tile_matmul_eq [CommRing R] (A B C : MMATile R eng) (i j : Fin eng.tileSize) :
    mmaTileMatmul eng A B C i j = C i j + ∑ k, A i k * B k j :=
  finRange_collect id (fun _ _ => rfl) (C i j)

theorem padded_cell [CommRing R] (X : Vector R (M * N)) (i : Fin M) (j : Fin N) :
    padded X i.val j.val = X[cell i j] :=
  dif_pos ⟨i.isLt, j.isLt⟩

/-- An entry is written in the round of its place in the tile. -/
theorem get_store (D : Vector R (M * N)) (tileD : MMATile R eng) {mi ni : Nat} {i : Fin M} {j : Fin N}
    {a b : Fin eng.tileSize} (hi : i.val = mi * eng.tileSize + a.val)
    (hj : j.val = ni * eng.tileSize + b.val) :
    (storeTile eng mi ni D tileD)[cell i j] = tileD a b := by
  refine foldl_owned (fun D => D[cell i j]) (fun _ => tileD a b)
    (List.mem_product.2 ⟨List.mem_finRange a, List.mem_finRange b⟩)
    ((List.nodup_finRange _).product (List.nodup_finRange _)) ?_ ?_ D
  · intro D
    have inside : mi * eng.tileSize + a.val < M ∧ ni * eng.tileSize + b.val < N :=
      ⟨hi ▸ i.isLt, hj ▸ j.isLt⟩
    have here : cell ⟨_, inside.1⟩ ⟨_, inside.2⟩ = cell i j :=
      cell_inj.2 ⟨hi.symm, hj.symm⟩
    simp only [dif_pos inside, here]
    exact Vector.getElem_set_self _
  · rintro D ⟨a', b'⟩ ne
    dsimp only
    split
    · rename_i inside
      apply Vector.getElem_set_ne
      intro same
      obtain ⟨h, h'⟩ : mi * eng.tileSize + a'.val = i.val ∧ ni * eng.tileSize + b'.val = j.val :=
        cell_inj.1 (Fin.ext same)
      obtain rfl : a' = a := Fin.ext (by omega)
      obtain rfl : b' = b := Fin.ext (by omega)
      exact ne rfl
    · rfl

/-- The entries of the other tiles stay. -/
theorem get_store_other (D : Vector R (M * N)) (tileD : MMATile R eng) {mi ni : Nat} {i : Fin M}
    {j : Fin N} (ne : i.val / eng.tileSize ≠ mi ∨ j.val / eng.tileSize ≠ ni) :
    (storeTile eng mi ni D tileD)[cell i j] = D[cell i j] := by
  refine foldl_kept (fun D => D[cell i j]) (fun D p _ => ?_) D
  dsimp only
  split
  · rename_i inside
    apply Vector.getElem_set_ne
    intro same
    obtain ⟨h, h'⟩ := cell_inj.1 (Fin.ext same)
    have div : ∀ q (r : Fin eng.tileSize), (q * eng.tileSize + r.val) / eng.tileSize = q := by
      intro q r
      rw [Nat.mul_comm, Nat.mul_add_div eng.pos, Nat.div_eq_of_lt r.isLt, Nat.add_zero]
    rcases ne with ne | ne
    · rw [← h] at ne
      exact ne (div mi p.1)
    · rw [← h'] at ne
      exact ne (div ni p.2)
  · rfl

end Tile

/-! ## The whole matrix -/

section Matrix

variable {R : Type*} [CommRing R] {M N K : Nat} {eng : MMAEngine}

/-- One tile of the inner dimension adds its summands to the entries of its tile. -/
theorem get_tile_step (A : Vector R (M * K)) (B : Vector R (K * N)) (D : Vector R (M * N)) (i : Fin M)
    (j : Fin N) (ki : Nat) :
    (tileStep eng A B (i.val / eng.tileSize) (j.val / eng.tileSize) D ki)[cell i j] =
      D[cell i j] + ∑ b : Fin eng.tileSize, padded A i.val (ki * eng.tileSize + b.val) *
        padded B (ki * eng.tileSize + b.val) j.val := by
  have row := (Nat.div_add_mod' i.val eng.tileSize).symm
  have col := (Nat.div_add_mod' j.val eng.tileSize).symm
  rw [tileStep, get_store (a := ⟨_, Nat.mod_lt _ eng.pos⟩) (b := ⟨_, Nat.mod_lt _ eng.pos⟩) D _ row col,
    mma_tile_matmul_eq]
  simp only [← row, ← col, padded_cell]

/-- Behind `K` the tiles are padded with zeros. -/
theorem padded_summand (A : Vector R (M * K)) (B : Vector R (K * N)) (i : Fin M) (j : Fin N) (k : Nat) :
    padded A i.val k * padded B k j.val =
      if k < K then padded A i.val k * padded B k j.val else 0 := by
  split
  · rfl
  · rename_i outside
    rw [padded, dif_neg (fun h => outside h.2), zero_mul]

/-- **The tiled product is the product.** Every entry of `D` is the entry of `C`, or zero without
one, and the sum over the inner dimension. -/
theorem mma_large_matmul_eq (eng : MMAEngine) (A : Vector R (M * K)) (B : Vector R (K * N))
    (C : Option (Vector R (M * N))) (i : Fin M) (j : Fin N) :
    (mmaLargeMatmul eng A B C)[cell i j] =
      C.elim 0 (fun C => C[cell i j]) + ∑ k : Fin K, A[cell i k] * B[cell k j] := by
  have start : (C.getD (Vector.replicate (M * N) 0))[cell i j] = C.elim 0 (fun C => C[cell i j]) := by
    cases C with
    | none => exact Vector.getElem_replicate _
    | some C => rfl
  have sum : ∑ ki : Fin (tiles K eng.tileSize), ∑ b : Fin eng.tileSize,
      padded A i.val (ki.val * eng.tileSize + b.val) * padded B (ki.val * eng.tileSize + b.val) j.val =
        ∑ k : Fin K, A[cell i k] * B[cell k j] := by
    calc
      _ = ∑ k : Fin K, padded A i.val k.val * padded B k.val j.val := by
        rw [← sum_tiles eng.pos fun k => padded A i.val k * padded B k j.val]
        simp only [← padded_summand]
      _ = _ := by simp only [padded_cell]
  rw [← start, ← sum]
  refine foldl_owned (fun D => D[cell i j]) (· + _)
    (List.mem_product.2 ⟨List.mem_finRange ⟨_, div_lt_tiles eng.pos i.isLt⟩,
      List.mem_finRange ⟨_, div_lt_tiles eng.pos j.isLt⟩⟩)
    ((List.nodup_finRange _).product (List.nodup_finRange _)) ?_ ?_ _
  · intro D
    exact finRange_collect (fun D => D[cell i j]) (fun D ki => get_tile_step A B D i j ki.val) D
  · rintro D ⟨mi, ni⟩ ne
    refine foldl_kept (fun D => D[cell i j]) (fun D ki _ => ?_) D
    apply get_store_other
    by_contra same
    rw [not_or, not_not, not_not] at same
    exact ne (Prod.ext (Fin.ext same.1.symm) (Fin.ext same.2.symm))

end Matrix

end MiniHardware.Accel
