import MiniHardware.Accel.Mma
import MiniHardware.Lib.Filtering
import Mathlib.Algebra.Field.Rat
import Mathlib.Tactic.FieldSimp
import Mathlib.Tactic.FinCases

/-!
# Winograd convolution (`mini-ai-accelerator/src/mma.c`)

The output is computed in tiles of two by two from input tiles of four by four.
The numbers are those of any field of characteristic zero, where the source has
`float`. The function indexes its input without a channel; which convolution it
should compute depends on where the channels lie, so that place is a parameter
of the direct convolution (`hwc` is the one of the convolutions around it).
-/

namespace MiniHardware.Accel
open Lib

section Model

variable {R : Type*} [Field R]

/-- `G_F23`. -/
def gF23 : Fin 4 → Fin 3 → R :=
  ![![1, 0, 0], ![1 / 2, 1 / 2, 1 / 2], ![1 / 2, -1 / 2, 1 / 2], ![0, 0, 1]]

/-- `BT_F23`. -/
def btF23 : Fin 4 → Fin 4 → R :=
  ![![1, 0, -1, 0], ![0, 1, 1, 0], ![0, -1, 1, 0], ![0, 1, 0, -1]]

/-- `AT_F23`. -/
def atF23 : Fin 2 → Fin 4 → R :=
  ![![1, 1, 1, 0], ![0, 1, -1, -1]]

/-- The two loops of a transform: `tmp = T · X`, then `tmp · Tᵀ`. -/
def winogradTransform {m n : Nat} (T : Fin m → Fin n → R) (X : Fin n → Fin n → R) : Fin m → Fin m → R :=
  let tmp : Fin m → Fin n → R := fun i j => (List.finRange n).foldl (fun s k => s + T i k * X k j) 0
  fun i j => (List.finRange n).foldl (fun s k => s + tmp i k * T j k) 0

def winogradFilterTransformF23 (g : Fin 3 → Fin 3 → R) : Fin 4 → Fin 4 → R :=
  winogradTransform gF23 g

def winogradInputTransformF23 (d : Fin 4 → Fin 4 → R) : Fin 4 → Fin 4 → R :=
  winogradTransform btF23 d

def winogradOutputTransformF23 (M : Fin 4 → Fin 4 → R) : Fin 2 → Fin 2 → R :=
  winogradTransform atF23 M

/-- The store loops are those of an engine with this tile. -/
def winogradTile : MMAEngine :=
  ⟨2, by decide, by decide⟩

/-- A shape on which the function does not return at once. -/
structure ConvShape where
  H : Nat
  W : Nat
  C : Nat
  le_H : 4 ≤ H
  le_W : 4 ≤ W
  pos_C : 0 < C

variable (S : ConvShape)

abbrev ConvInput (R : Type*) := Vector R (S.H * S.W * S.C)

/-- One kernel of three by three a channel. -/
abbrev ConvKernel (R : Type*) := Vector R (S.C * (3 * 3))

abbrev ConvOutput (R : Type*) := Vector R ((S.H - 2) * (S.W - 2))

variable {S}

/-- `r * W + s`, an index of the first `H * W` elements. -/
def ConvShape.plane (S : ConvShape) (r : Fin S.H) (s : Fin S.W) : Fin (S.H * S.W * S.C) :=
  Fin.castLE (Nat.le_mul_of_pos_right _ S.pos_C) (cell r s)

/-- The pixel under the kernel entry `a`, for the output `i`. -/
def under {n : Nat} (i : Fin (n - 2)) (a : Fin 3) : Fin n :=
  ⟨i.val + a.val, by omega⟩

/-- The pixel `a` of the tile that starts at `2 * t`. -/
def tilePixel {n : Nat} (t : Fin ((n - 2) / 2)) (a : Fin 4) : Fin n :=
  ⟨t.val * 2 + a.val, by omega⟩

/-- The channels read the same tile. -/
def winogradAccumulate (input : ConvInput S R) (U : Fin S.C → Fin 4 → Fin 4 → R)
    (th : Fin ((S.H - 2) / 2)) (tw : Fin ((S.W - 2) / 2)) : Fin 4 → Fin 4 → R :=
  (List.finRange S.C).foldl (fun M c =>
    let d : Fin 4 → Fin 4 → R := fun i j => input[S.plane (tilePixel th i) (tilePixel tw j)]
    let V := winogradInputTransformF23 d
    fun i j => M i j + U c i j * V i j) (fun _ _ => 0)

/-- Behind the checks of the shape. -/
def winogradTiles (input : ConvInput S R) (kernel : ConvKernel S R) (output : ConvOutput S R) :
    ConvOutput S R :=
  let U : Fin S.C → Fin 4 → Fin 4 → R := fun c =>
    winogradFilterTransformF23 fun i j => kernel[cell c (cell i j)]
  (List.finRange ((S.H - 2) / 2) ×ˢ List.finRange ((S.W - 2) / 2)).foldl
    (fun output t =>
      let Y := winogradOutputTransformF23 (winogradAccumulate input U t.1 t.2)
      storeTile winogradTile t.1.val t.2.val output Y) output

def mmaWinogradConv2dF23 {H W C : Nat} (input : Vector R (H * W * C)) (kernel : Vector R (C * (3 * 3)))
    (output : Vector R ((H - 2) * (W - 2))) : Vector R ((H - 2) * (W - 2)) :=
  if h : 4 ≤ H ∧ 4 ≤ W ∧ 0 < C then
    winogradTiles (S := ⟨H, W, C, h.1, h.2.1, h.2.2⟩) input kernel output
  else output

end Model

/-! ## The tiles -/

section Tiles

variable {R : Type*} [Field R] {S : ConvShape}

theorem winograd_transform_eq {m n : Nat} (T : Fin m → Fin n → R) (X : Fin n → Fin n → R) :
    winogradTransform T X = bothSides T X := by
  funext i j
  have tmp : ∀ b, (List.finRange n).foldl (fun s k => s + T i k * X k b) 0 = ∑ a, T i a * X a b :=
    fun b => (finRange_collect id (fun _ _ => rfl) 0).trans (zero_add _)
  refine (finRange_collect id (fun _ _ => rfl) 0).trans ((zero_add _).trans ?_)
  simp [tmp, bothSides, mul_comm]

/-- The transforms of `F(2,3)`. -/
def f23 (R : Type*) [Field R] [CharZero R] : Filtering R (Fin 2) (Fin 3) (Fin 4) (Fin 4) where
  A := atF23
  G := gF23
  B := btF23
  place i a := ⟨i.val + a.val, by omega⟩
  computes i x y := by
    fin_cases i <;> simp [atF23, gF23, btF23, Fin.sum_univ_succ] <;> ring

theorem winograd_accumulate_eq (input : ConvInput S R) (U : Fin S.C → Fin 4 → Fin 4 → R)
    (th : Fin ((S.H - 2) / 2)) (tw : Fin ((S.W - 2) / 2)) :
    winogradAccumulate input U th tw = fun i j => ∑ c, U c i j * bothSides btF23
      (fun i j => input[S.plane (tilePixel th i) (tilePixel tw j)]) i j := by
  funext i j
  rw [← winograd_transform_eq]
  exact (finRange_collect (fun M : Fin 4 → Fin 4 → R => M i j) (fun _ _ => rfl) _).trans (zero_add _)

/-- The direct convolution summed over the channels, where channel `c` of a pixel is the element
`place c` of the input. -/
def directConv (place : Fin S.C → Fin S.H → Fin S.W → Fin (S.H * S.W * S.C)) (input : ConvInput S R)
    (kernel : ConvKernel S R) (i : Fin (S.H - 2)) (j : Fin (S.W - 2)) : R :=
  ∑ c, ∑ x, ∑ y, kernel[cell c (cell x y)] * input[place c (under i x) (under j y)]

/-- What a tile stores: the convolution of every channel's kernel with the one plane. -/
theorem winograd_tile_eq [CharZero R] (input : ConvInput S R) (kernel : ConvKernel S R)
    {th : Fin ((S.H - 2) / 2)} {tw : Fin ((S.W - 2) / 2)} {i : Fin (S.H - 2)} {j : Fin (S.W - 2)}
    {a b : Fin 2} (hi : i.val = th.val * 2 + a.val) (hj : j.val = tw.val * 2 + b.val) :
    winogradOutputTransformF23 (winogradAccumulate input (fun c =>
      winogradFilterTransformF23 fun i j => kernel[cell c (cell i j)]) th tw) a b =
        directConv (fun _ => S.plane) input kernel i j := by
  have row : ∀ x : Fin 3, tilePixel th ((f23 R).place a x) = under i x := by
    intro x
    apply Fin.ext
    simp [f23, tilePixel, under]
    omega
  have col : ∀ y : Fin 3, tilePixel tw ((f23 R).place b y) = under j y := by
    intro y
    apply Fin.ext
    simp [f23, tilePixel, under]
    omega
  rw [winogradOutputTransformF23, winograd_transform_eq, winograd_accumulate_eq, bothSides_sum]
  refine Finset.sum_congr rfl fun c _ => ?_
  rw [winogradFilterTransformF23, winograd_transform_eq]
  refine ((f23 R).nested _ _ a b).trans ?_
  simp only [row, col]

end Tiles

/-! ## The whole output -/

section Output

variable {R : Type*} [Field R] {S : ConvShape}

theorem winograd_conv_eq_tiles (input : ConvInput S R) (kernel : ConvKernel S R)
    (output : ConvOutput S R) :
    mmaWinogradConv2dF23 input kernel output = winogradTiles input kernel output :=
  dif_pos ⟨S.le_H, S.le_W, S.pos_C⟩

/-- An output in a whole tile. -/
theorem get_winograd_inside [CharZero R] (input : ConvInput S R) (kernel : ConvKernel S R)
    (output : ConvOutput S R) {i : Fin (S.H - 2)} {j : Fin (S.W - 2)} (hi : i.val / 2 < (S.H - 2) / 2)
    (hj : j.val / 2 < (S.W - 2) / 2) :
    (mmaWinogradConv2dF23 input kernel output)[cell i j] =
      directConv (fun _ => S.plane) input kernel i j := by
  let th : Fin ((S.H - 2) / 2) := ⟨i.val / 2, hi⟩
  let tw : Fin ((S.W - 2) / 2) := ⟨j.val / 2, hj⟩
  have row : i.val = th.val * 2 + i.val % 2 := (Nat.div_add_mod' i.val 2).symm
  have col : j.val = tw.val * 2 + j.val % 2 := (Nat.div_add_mod' j.val 2).symm
  rw [winograd_conv_eq_tiles]
  refine foldl_owned (fun output : ConvOutput S R => output[cell i j]) (fun _ => _)
    (List.mem_product.2 ⟨List.mem_finRange th, List.mem_finRange tw⟩)
    ((List.nodup_finRange _).product (List.nodup_finRange _)) ?_ ?_ output
  · intro output
    refine Eq.trans ?_ (winograd_tile_eq
      (a := ⟨_, Nat.mod_lt i.val two_pos⟩) (b := ⟨_, Nat.mod_lt j.val two_pos⟩) input kernel row col)
    exact get_store output _ row col
  · rintro output ⟨th', tw'⟩ ne
    apply get_store_other
    by_contra same
    rw [not_or, not_not, not_not] at same
    exact ne (Prod.ext (Fin.ext same.1.symm) (Fin.ext same.2.symm))

/-- The row or column behind the last whole tile is not written. -/
theorem get_winograd_behind (input : ConvInput S R) (kernel : ConvKernel S R) (output : ConvOutput S R)
    {i : Fin (S.H - 2)} {j : Fin (S.W - 2)}
    (behind : (S.H - 2) / 2 ≤ i.val / 2 ∨ (S.W - 2) / 2 ≤ j.val / 2) :
    (mmaWinogradConv2dF23 input kernel output)[cell i j] = output[cell i j] := by
  rw [winograd_conv_eq_tiles]
  refine foldl_kept (fun output : ConvOutput S R => output[cell i j]) (fun output t _ => ?_) output
  apply get_store_other
  have row : t.1.val < (S.H - 2) / 2 := t.1.isLt
  have col : t.2.val < (S.W - 2) / 2 := t.2.isLt
  change i.val / 2 ≠ t.1.val ∨ j.val / 2 ≠ t.2.val
  omega

/-- All outputs are written, with the direct convolution. -/
def WinogradDirect (place : Fin S.C → Fin S.H → Fin S.W → Fin (S.H * S.W * S.C)) (input : ConvInput S R)
    (kernel : ConvKernel S R) : Prop :=
  ∀ (output : ConvOutput S R) i j,
    (mmaWinogradConv2dF23 input kernel output)[cell i j] = directConv place input kernel i j

/-- A row or column behind the tiles is wrong for some output buffer. -/
theorem even_of_winograd {place : Fin S.C → Fin S.H → Fin S.W → Fin (S.H * S.W * S.C)}
    {input : ConvInput S R} {kernel : ConvKernel S R} (direct : WinogradDirect place input kernel) :
    S.H % 2 = 0 ∧ S.W % 2 = 0 := by
  have inside : ∀ (i : Fin (S.H - 2)) (j : Fin (S.W - 2)),
      i.val / 2 < (S.H - 2) / 2 ∧ j.val / 2 < (S.W - 2) / 2 := by
    intro i j
    by_contra behind
    rw [not_and_or, Nat.not_lt, Nat.not_lt] at behind
    have zero := direct (Vector.replicate _ 0) i j
    have one := direct (Vector.replicate _ 1) i j
    rw [get_winograd_behind input kernel _ behind, ← one, get_winograd_behind input kernel _ behind] at zero
    simp at zero
  have le_H := S.le_H
  have le_W := S.le_W
  have last := inside ⟨S.H - 3, by omega⟩ ⟨S.W - 3, by omega⟩
  dsimp only at last
  omega

theorem winograd_direct_eq [CharZero R] {place : Fin S.C → Fin S.H → Fin S.W → Fin (S.H * S.W * S.C)}
    {input : ConvInput S R} {kernel : ConvKernel S R} (direct : WinogradDirect place input kernel)
    (i : Fin (S.H - 2)) (j : Fin (S.W - 2)) :
    directConv place input kernel i j = directConv (fun _ => S.plane) input kernel i j := by
  obtain ⟨evenH, evenW⟩ := even_of_winograd direct
  rw [← direct (Vector.replicate _ 0) i j]
  exact get_winograd_inside input kernel _ (by omega) (by omega)

theorem winograd_of_direct_eq [CharZero R] {place : Fin S.C → Fin S.H → Fin S.W → Fin (S.H * S.W * S.C)}
    {input : ConvInput S R} {kernel : ConvKernel S R} (evenH : S.H % 2 = 0) (evenW : S.W % 2 = 0)
    (same : ∀ i j, directConv place input kernel i j = directConv (fun _ => S.plane) input kernel i j) :
    WinogradDirect place input kernel := by
  intro output i j
  rw [same]
  exact get_winograd_inside input kernel output (by omega) (by omega)

/-- **The outputs are those of the direct convolution** for the shapes whose height and width are
even, where the kernels cannot tell the channels from the one plane that is read. -/
theorem winograd_conv2d_iff [CharZero R] (place : Fin S.C → Fin S.H → Fin S.W → Fin (S.H * S.W * S.C))
    (input : ConvInput S R) (kernel : ConvKernel S R) :
    WinogradDirect place input kernel ↔ S.H % 2 = 0 ∧ S.W % 2 = 0 ∧
      ∀ (i : Fin (S.H - 2)) (j : Fin (S.W - 2)), ∑ c, ∑ x, ∑ y, kernel[cell c (cell x y)] *
        (input[place c (under i x) (under j y)] - input[S.plane (under i x) (under j y)]) = 0 := by
  have differ : ∀ i j, (∑ c, ∑ x, ∑ y, kernel[cell c (cell x y)] *
      (input[place c (under i x) (under j y)] - input[S.plane (under i x) (under j y)])) =
        directConv place input kernel i j - directConv (fun _ => S.plane) input kernel i j := by
    intro i j
    simp only [directConv, mul_sub, Finset.sum_sub_distrib]
  simp only [differ, sub_eq_zero]
  constructor
  · intro direct
    obtain ⟨evenH, evenW⟩ := even_of_winograd direct
    exact ⟨evenH, evenW, winograd_direct_eq direct⟩
  · rintro ⟨evenH, evenW, same⟩
    exact winograd_of_direct_eq evenH evenW same

/-- The channels of a pixel side by side, as the other convolutions index them. -/
def hwc (S : ConvShape) (c : Fin S.C) (r : Fin S.H) (s : Fin S.W) : Fin (S.H * S.W * S.C) :=
  cell (cell r s) c

theorem winograd_conv2d_iff_single_channel :
    WinogradDirect (S := ⟨4, 4, 1, by decide, by decide, by decide⟩) (hwc _)
      (Vector.replicate _ (1 : ℚ)) (Vector.replicate _ 1) :=
  (winograd_conv2d_iff _ _ _).2 ⟨rfl, rfl, fun i j => by simp⟩

/-- With five rows the third output row is not written; of two channels the second is not read. -/
theorem winograd_conv2d_wrong :
    ¬ WinogradDirect (S := ⟨5, 4, 1, by decide, by decide, by decide⟩) (hwc _)
        (Vector.replicate _ (1 : ℚ)) (Vector.replicate _ 1) ∧
      ¬ WinogradDirect (S := ⟨4, 4, 2, by decide, by decide, by decide⟩) (hwc _)
        (Vector.ofFn fun k => if k.val = 31 then (1 : ℚ) else 0) (Vector.replicate _ 1) := by
  constructor
  · intro direct
    have row := direct (Vector.replicate _ 0) ⟨2, by decide⟩ ⟨0, by decide⟩
    revert row
    decide +kernel
  · intro direct
    have corner := direct (Vector.replicate _ 0) ⟨1, by decide⟩ ⟨1, by decide⟩
    revert corner
    decide +kernel

/-- Of several channels the second one of the last pixel is not read. -/
theorem plane_ne_hwc {c : Fin S.C} (pos : 0 < c.val) {r r' : Fin S.H} {s s' : Fin S.W}
    (last : r.val = S.H - 1 ∧ s.val = S.W - 1) : S.plane r' s' ≠ hwc S c r s := by
  intro same
  have value : r'.val * S.W + s'.val = (r.val * S.W + s.val) * S.C + c.val := congrArg Fin.val same
  have first : r'.val * S.W + s'.val ≤ r.val * S.W + s.val := by
    have le : r'.val ≤ r.val := by omega
    have := Nat.mul_le_mul_right S.W le
    omega
  have := Nat.le_mul_of_pos_right (r.val * S.W + s.val) S.pos_C
  omega

/-- The last pixel of the second channel alone is missed by kernels of ones. -/
theorem single_channel_of_winograd [CharZero R]
    (direct : ∀ (input : ConvInput S R) kernel, WinogradDirect (hwc S) input kernel) : S.C = 1 := by
  by_contra more
  have le_H := S.le_H
  have le_W := S.le_W
  have pos_C := S.pos_C
  let c : Fin S.C := ⟨1, by omega⟩
  let i : Fin (S.H - 2) := ⟨S.H - 3, by omega⟩
  let j : Fin (S.W - 2) := ⟨S.W - 3, by omega⟩
  have last : (under i 2).val = S.H - 1 ∧ (under j 2).val = S.W - 1 := by
    simp only [under, i, j]
    omega
  have sum := winograd_direct_eq (direct
    (Vector.ofFn fun k => if k = hwc S c (under i 2) (under j 2) then 1 else 0)
    (Vector.replicate _ 1)) i j
  have here : ∀ c' x y, hwc S c' (under i x) (under j y) = hwc S c (under i 2) (under j 2) ↔
      c' = c ∧ x = 2 ∧ y = 2 := by
    intro c' x y
    rw [hwc, hwc, cell_inj, ← Fin.ext_iff, cell_inj]
    simp [under, Fin.ext_iff]
    omega
  simp [directConv, here, plane_ne_hwc (c := c) Nat.one_pos last, ite_and] at sum

/-- **The shapes.** Every input and every kernel is convolved right exactly if height and width are
even and there is one channel. -/
theorem winograd_shape_iff [CharZero R] :
    (∀ (input : ConvInput S R) kernel, WinogradDirect (hwc S) input kernel) ↔
      S.H % 2 = 0 ∧ S.W % 2 = 0 ∧ S.C = 1 := by
  constructor
  · intro direct
    obtain ⟨evenH, evenW⟩ := even_of_winograd (direct (Vector.replicate _ 0) (Vector.replicate _ 0))
    exact ⟨evenH, evenW, single_channel_of_winograd direct⟩
  · rintro ⟨evenH, evenW, one⟩ input kernel
    refine winograd_of_direct_eq evenH evenW fun i j => ?_
    have read : ∀ c r s, hwc S c r s = S.plane r s := by
      intro c r s
      apply Fin.ext
      have := c.isLt
      simp [hwc, ConvShape.plane, cell]
      rw [show c.val = 0 by omega, one, Nat.mul_one, Nat.add_zero]
    simp only [directConv, read]

end Output

end MiniHardware.Accel
