import MiniHardware.Accel.MatrixLoops
import MiniHardware.Lib.Segments
import Mathlib.Tactic.Ring

/-!
# Convolution (`mini-ai-accelerator/src/mma.c`)

`mma_conv2d_to_matmul` copies every patch of the image into a row of a matrix and
multiplies by the filters; `mma_depthwise_conv2d` runs one filter over each channel.
An image has its channels innermost, the filters and the output have them outermost.
All accesses stay inside the arrays, the first is the direct convolution
(`conv2d_direct`), and the second is the first with a filter for each channel that
is zero on the others (`depthwise_eq_conv2d`). Sizes are numbers that do not overflow
an `int`.
-/

namespace MiniHardware.Accel
open Lib

/-- The places `((oh + r) * W + (ow + s)) * C + c` and so on are digits in mixed radices. -/
theorem radix_lt {m n a b : Nat} (ha : a < m) (hb : b < n) : a * n + b < m * n := by
  calc a * n + b < a * n + n := Nat.add_lt_add_left hb _
    _ = (a + 1) * n := (Nat.succ_mul a n).symm
    _ ≤ m * n := Nat.mul_le_mul_right n ha

theorem radix_inj {n a b a' b' : Nat} (hb : b < n) (hb' : b' < n) (eq : a * n + b = a' * n + b') : a = a' ∧ b = b' := by
  have pos : 0 < n := Nat.zero_lt_of_lt hb
  have quotient (a b : Nat) (hb : b < n) : (a * n + b) / n = a := by
    rw [Nat.add_comm, Nat.add_mul_div_right _ _ pos, Nat.div_eq_of_lt hb, Nat.zero_add]
  have same : a = a' := by rw [← quotient a b hb, eq, quotient a' b' hb']
  rw [same] at eq
  exact ⟨same, Nat.add_left_cancel eq⟩

section Model
variable {α : Type*} [CommRing α] (H W C K R S : Nat)

/-- `out_h` and `out_w`; the loops do not run where they are not positive. -/
def outSize (size window : Nat) : Nat := size + 1 - window

/-- `in_idx`. -/
def inIdx (oh ow c r s : Nat) : Nat := ((oh + r) * W + (ow + s)) * C + c

/-- `im2col_idx`, of the patch at `(oh, ow)`. -/
def im2colIdx (oh ow c r s : Nat) : Nat := (oh * outSize W S + ow) * (C * R * S) + c * R * S + r * S + s

def im2colFill (input : Vector α (H * W * C)) :
    Option (Vector α (outSize H R * outSize W S * (C * R * S))) :=
  fill (List.range (outSize H R) ×ˢ List.range (outSize W S) ×ˢ List.range C ×ˢ List.range R ×ˢ List.range S)
    (fun (oh, ow, c, r, s) => im2colIdx W C R S oh ow c r s)
    (fun (oh, ow, c, r, s) => input[inIdx W C oh ow c r s]?)
    (Vector.replicate _ 0)

/-- The sum over `c`, `r` and `s`. -/
def patchSum (im2col : Vector α (outSize H R * outSize W S * (C * R * S))) (kernel : Vector α (K * C * R * S))
    (k oh ow : Nat) : Option α :=
  (List.range C ×ˢ List.range R ×ˢ List.range S).foldlM
    (fun sum (c, r, s) => do
      let x ← im2col[im2colIdx W C R S oh ow c r s]?
      let y ← kernel[k * C * R * S + c * R * S + r * S + s]?
      return sum + x * y) 0

/-- `none` is an access outside an array. -/
def mmaConv2dToMatmul (input : Vector α (H * W * C)) (kernel : Vector α (K * C * R * S))
    (output : Vector α (K * outSize H R * outSize W S)) : Option (Vector α (K * outSize H R * outSize W S)) := do
  let im2col ← im2colFill H W C R S input
  fill (List.range K ×ˢ List.range (outSize H R) ×ˢ List.range (outSize W S))
    (fun (k, oh, ow) => k * outSize H R * outSize W S + oh * outSize W S + ow)
    (fun (k, oh, ow) => patchSum H W C K R S im2col kernel k oh ow) output

def mmaDepthwiseConv2d (input : Vector α (H * W * C)) (kernel : Vector α (C * R * R))
    (output : Vector α (C * outSize H R * outSize W R)) : Option (Vector α (C * outSize H R * outSize W R)) :=
  fill (List.range C ×ˢ List.range (outSize H R) ×ˢ List.range (outSize W R))
    (fun (c, oh, ow) => c * outSize H R * outSize W R + oh * outSize W R + ow)
    (fun (c, oh, ow) => (List.range R ×ˢ List.range R).foldlM
      (fun sum (kh, kw) => do
        let x ← input[(oh + kh) * W * C + (ow + kw) * C + c]?
        let y ← kernel[c * R * R + kh * R + kw]?
        return sum + x * y) 0) output

end Model

/-! ## What convolution is -/

section Direct
variable {α : Type*} [CommRing α] {H W C K R S : Nat}

/-- The image and the filters by their coordinates, and zero outside. -/
def pixel (input : Vector α (H * W * C)) (h w c : Nat) : α := (input[(h * W + w) * C + c]?).getD 0

def weight (kernel : Vector α (K * C * R * S)) (k c r s : Nat) : α := (kernel[((k * C + c) * R + r) * S + s]?).getD 0

/-- Filter `k` over the patch at `(oh, ow)`. -/
def convolve (input : Vector α (H * W * C)) (kernel : Vector α (K * C * R * S)) (k oh ow : Nat) : α :=
  ∑ c : Fin C, ∑ r : Fin R, ∑ s : Fin S, pixel input (oh + r) (ow + s) c * weight kernel k c r s

theorem within {size window o r : Nat} (ho : o < outSize size window) (hr : r < window) : o + r < size := by
  rw [outSize] at ho
  omega

theorem pixel_eq (input : Vector α (H * W * C)) {oh ow c r s : Nat} (hoh : oh < outSize H R) (how : ow < outSize W S)
    (hc : c < C) (hr : r < R) (hs : s < S) :
    input[inIdx W C oh ow c r s]? = some (pixel input (oh + r) (ow + s) c) := by
  have inside : ((oh + r) * W + (ow + s)) * C + c < H * W * C :=
    radix_lt (radix_lt (within hoh hr) (within how hs)) hc
  rw [pixel, inIdx, Vector.getElem?_eq_getElem inside]
  rfl

theorem weight_eq (kernel : Vector α (K * C * R * S)) {k c r s : Nat} (hk : k < K) (hc : c < C) (hr : r < R)
    (hs : s < S) : kernel[k * C * R * S + c * R * S + r * S + s]? = some (weight kernel k c r s) := by
  have inside : ((k * C + c) * R + r) * S + s < K * C * R * S :=
    radix_lt (radix_lt (radix_lt hk hc) hr) hs
  have place : k * C * R * S + c * R * S + r * S + s = ((k * C + c) * R + r) * S + s := by ring
  rw [weight, place, Vector.getElem?_eq_getElem inside]
  rfl

theorem im2colIdx_eq (oh ow c r s : Nat) :
    im2colIdx W C R S oh ow c r s = (oh * outSize W S + ow) * (C * R * S) + ((c * R + r) * S + s) := by
  rw [im2colIdx]
  ring

/-- Every patch has its row. -/
theorem im2colFill_eq (input : Vector α (H * W * C)) :
    ∃ im2col, im2colFill H W C R S input = some im2col ∧
      ∀ oh < outSize H R, ∀ ow < outSize W S, ∀ c < C, ∀ r < R, ∀ s < S,
        im2col[im2colIdx W C R S oh ow c r s]? = some (pixel input (oh + r) (ow + s) c) := by
  have bounds {p : Nat × Nat × Nat × Nat × Nat} (mem : p ∈ List.range (outSize H R) ×ˢ List.range (outSize W S) ×ˢ
      List.range C ×ˢ List.range R ×ˢ List.range S) :
      p.1 < outSize H R ∧ p.2.1 < outSize W S ∧ p.2.2.1 < C ∧ p.2.2.2.1 < R ∧ p.2.2.2.2 < S := by
    obtain ⟨oh, ow, c, r, s⟩ := p
    simpa only [List.mem_product, List.mem_range] using mem
  suffices filled : ∃ im2col, im2colFill H W C R S input = some im2col ∧
      ∀ p ∈ List.range (outSize H R) ×ˢ List.range (outSize W S) ×ˢ List.range C ×ˢ List.range R ×ˢ List.range S,
        im2col[im2colIdx W C R S p.1 p.2.1 p.2.2.1 p.2.2.2.1 p.2.2.2.2]? =
          some (pixel input (p.1 + p.2.2.2.1) (p.2.1 + p.2.2.2.2) p.2.2.1) by
    obtain ⟨im2col, copied, entries⟩ := filled
    refine ⟨im2col, copied, fun oh hoh ow how c hc r hr s hs => entries (oh, ow, c, r, s) ?_⟩
    simp only [List.mem_product, List.mem_range]
    exact ⟨hoh, how, hc, hr, hs⟩
  apply fill_injOn
  · rintro ⟨oh, ow, c, r, s⟩ mem
    obtain ⟨hoh, how, hc, hr, hs⟩ := bounds mem
    dsimp only at hoh how hc hr hs ⊢
    rw [im2colIdx_eq]
    exact radix_lt (radix_lt hoh how) (radix_lt (radix_lt hc hr) hs)
  · rintro ⟨oh, ow, c, r, s⟩ mem ⟨oh', ow', c', r', s'⟩ mem' same
    obtain ⟨hoh, how, hc, hr, hs⟩ := bounds mem
    obtain ⟨hoh', how', hc', hr', hs'⟩ := bounds mem'
    dsimp only at hoh how hc hr hs hoh' how' hc' hr' hs' same
    rw [im2colIdx_eq, im2colIdx_eq] at same
    obtain ⟨patch, entry⟩ := radix_inj (radix_lt (radix_lt hc hr) hs) (radix_lt (radix_lt hc' hr') hs') same
    obtain ⟨rfl, rfl⟩ := radix_inj how how' patch
    obtain ⟨channel, rfl⟩ := radix_inj hs hs' entry
    obtain ⟨rfl, rfl⟩ := radix_inj hr hr' channel
    rfl
  · rintro ⟨oh, ow, c, r, s⟩ mem
    obtain ⟨hoh, how, hc, hr, hs⟩ := bounds mem
    exact pixel_eq input hoh how hc hr hs

/-- A sum over a double loop. -/
theorem sum_range_product {ι : Type*} (n : Nat) (l : List ι) (f : Nat × ι → α) :
    ((List.range n ×ˢ l).map f).sum = ∑ i : Fin n, (l.map fun x => f (i.val, x)).sum := by
  show (((List.range n).flatMap fun i => l.map (Prod.mk i)).map f).sum = _
  induction n with
  | zero => rfl
  | succ n ih =>
    rw [List.range_succ, List.flatMap_append, List.map_append, List.sum_append, ih, Fin.sum_univ_castSucc,
      List.flatMap_singleton, List.map_map]
    rfl

theorem sum_range_map (n : Nat) (f : Nat → α) : ((List.range n).map f).sum = ∑ i : Fin n, f i := by
  induction n with
  | zero => rfl
  | succ n ih =>
    rw [List.sum_range_succ, ih, Fin.sum_univ_castSucc]
    rfl

theorem patchSum_eq {input : Vector α (H * W * C)} {kernel : Vector α (K * C * R * S)}
    {im2col : Vector α (outSize H R * outSize W S * (C * R * S))} {k oh ow : Nat} (hk : k < K)
    (rows : ∀ c < C, ∀ r < R, ∀ s < S,
      im2col[im2colIdx W C R S oh ow c r s]? = some (pixel input (oh + r) (ow + s) c)) :
    patchSum H W C K R S im2col kernel k oh ow = some (convolve input kernel k oh ow) := by
  refine (foldlM_sum (id : α → α)
    (fun p : Nat × Nat × Nat => pixel input (oh + p.2.1) (ow + p.2.2) p.1 * weight kernel k p.1 p.2.1 p.2.2)
    (fun v p mem => ?_) 0).trans ?_
  · obtain ⟨c, r, s⟩ := p
    simp only [List.mem_product, List.mem_range] at mem
    obtain ⟨hc, hr, hs⟩ := mem
    dsimp only
    rw [rows c hc r hr s hs, weight_eq kernel hk hc hr hs]
    rfl
  · simp only [sum_range_product, sum_range_map, zero_add]
    rfl

omit [CommRing α] in
/-- A write for every entry of the output. -/
theorem fill_output {A B : Nat} (place : Nat × Nat × Nat → Nat) (value : Nat × Nat × Nat → Option α)
    (at_place : ∀ k oh ow, place (k, oh, ow) = (k * A + oh) * B + ow) {v : Nat → Nat → Nat → α}
    (known : ∀ k < K, ∀ oh < A, ∀ ow < B, value (k, oh, ow) = some (v k oh ow)) (output : Vector α (K * A * B)) :
    ∃ Y, fill (List.range K ×ˢ List.range A ×ˢ List.range B) place value output = some Y ∧
      ∀ k < K, ∀ oh < A, ∀ ow < B, Y[(k * A + oh) * B + ow]? = some (v k oh ow) := by
  suffices filled : ∃ Y, fill (List.range K ×ˢ List.range A ×ˢ List.range B) place value output = some Y ∧
      ∀ p ∈ List.range K ×ˢ List.range A ×ˢ List.range B, Y[place p]? = some (v p.1 p.2.1 p.2.2) by
    obtain ⟨Y, loop, entries⟩ := filled
    refine ⟨Y, loop, fun k hk oh hoh ow how => ?_⟩
    rw [← at_place]
    apply entries (k, oh, ow)
    simp only [List.mem_product, List.mem_range]
    exact ⟨hk, hoh, how⟩
  apply fill_injOn
  · rintro ⟨k, oh, ow⟩ mem
    simp only [List.mem_product, List.mem_range] at mem
    rw [at_place]
    exact radix_lt (radix_lt mem.1 mem.2.1) mem.2.2
  · rintro ⟨k, oh, ow⟩ mem ⟨k', oh', ow'⟩ mem' same
    simp only [List.mem_product, List.mem_range] at mem mem'
    rw [at_place, at_place] at same
    obtain ⟨row, rfl⟩ := radix_inj mem.2.2 mem'.2.2 same
    obtain ⟨rfl, rfl⟩ := radix_inj mem.2.1 mem'.2.1 row
    rfl
  · rintro ⟨k, oh, ow⟩ mem
    simp only [List.mem_product, List.mem_range] at mem
    exact known k mem.1 oh mem.2.1 ow mem.2.2

/-- Multiplying the rows of patches is the direct convolution, with all accesses inside the arrays. -/
theorem conv2d_direct (input : Vector α (H * W * C)) (kernel : Vector α (K * C * R * S))
    (output : Vector α (K * outSize H R * outSize W S)) :
    ∃ Y, mmaConv2dToMatmul H W C K R S input kernel output = some Y ∧
      ∀ k < K, ∀ oh < outSize H R, ∀ ow < outSize W S,
        Y[(k * outSize H R + oh) * outSize W S + ow]? = some (convolve input kernel k oh ow) := by
  obtain ⟨im2col, copied, rows⟩ := im2colFill_eq (R := R) (S := S) input
  rw [mmaConv2dToMatmul, copied]
  apply fill_output
  · intro k oh ow
    dsimp only
    ring
  · intro k hk oh hoh ow how
    exact patchSum_eq hk fun c hc r hr s hs => rows oh hoh ow how c hc r hr s hs

/-- The filter of channel `c` for channel `c`, and zero for the others. -/
def diagonal (kernel : Vector α (C * R * R)) : Vector α (C * C * R * R) :=
  Vector.ofFn fun i =>
    let s := i.val % R
    let r := i.val / R % R
    let c := i.val / R / R % C
    let k := i.val / R / R / C
    if c = k then (kernel[(c * R + r) * R + s]?).getD 0 else 0

theorem weight_diagonal (kernel : Vector α (C * R * R)) {k c r s : Nat} (hk : k < C) (hc : c < C) (hr : r < R)
    (hs : s < R) :
    weight (diagonal kernel) k c r s = if c = k then (kernel[(c * R + r) * R + s]?).getD 0 else 0 := by
  have inside : ((k * C + c) * R + r) * R + s < C * C * R * R :=
    radix_lt (radix_lt (radix_lt hk hc) hr) hs
  have digit {n a b : Nat} (hb : b < n) : (a * n + b) % n = b ∧ (a * n + b) / n = a := by
    have pos : 0 < n := Nat.zero_lt_of_lt hb
    rw [Nat.add_comm, Nat.add_mul_mod_self_right, Nat.mod_eq_of_lt hb, Nat.add_mul_div_right _ _ pos,
      Nat.div_eq_of_lt hb, Nat.zero_add]
    exact ⟨rfl, rfl⟩
  rw [weight, Vector.getElem?_eq_getElem inside, Option.getD_some, diagonal, Vector.getElem_ofFn]
  dsimp only
  rw [(digit hs).1, (digit hs).2, (digit hr).1, (digit hr).2, (digit hc).1, (digit hc).2]

/-- The depthwise convolution is the convolution with the diagonal filters. -/
theorem depthwise_eq_conv2d (input : Vector α (H * W * C)) (kernel : Vector α (C * R * R))
    (output : Vector α (C * outSize H R * outSize W R)) :
    ∃ Y Z, mmaDepthwiseConv2d H W C R input kernel output = some Y ∧
      mmaConv2dToMatmul H W C C R R input (diagonal kernel) output = some Z ∧
      ∀ c < C, ∀ oh < outSize H R, ∀ ow < outSize W R,
        Y[(c * outSize H R + oh) * outSize W R + ow]? = Z[(c * outSize H R + oh) * outSize W R + ow]? := by
  obtain ⟨Z, full, direct⟩ := conv2d_direct input (diagonal kernel) output
  have own : ∃ Y, mmaDepthwiseConv2d H W C R input kernel output = some Y ∧
      ∀ c < C, ∀ oh < outSize H R, ∀ ow < outSize W R,
        Y[(c * outSize H R + oh) * outSize W R + ow]? = some (convolve input (diagonal kernel) c oh ow) := by
    apply fill_output
    · intro k oh ow
      dsimp only
      ring
    · intro c hc oh hoh ow how
      dsimp only
      refine (foldlM_sum (id : α → α)
        (fun p : Nat × Nat => pixel input (oh + p.1) (ow + p.2) c * weight (diagonal kernel) c c p.1 p.2)
        (fun v p mem => ?_) 0).trans ?_
      · obtain ⟨kh, kw⟩ := p
        simp only [List.mem_product, List.mem_range] at mem
        have read := pixel_eq input hoh how hc mem.1 mem.2
        have place : (oh + kh) * W * C + (ow + kw) * C + c = inIdx W C oh ow c kh kw := by
          rw [inIdx]
          ring
        have filter : kernel[c * R * R + kh * R + kw]? = some (weight (diagonal kernel) c c kh kw) := by
          have inside : (c * R + kh) * R + kw < C * R * R := radix_lt (radix_lt hc mem.1) mem.2
          have place : c * R * R + kh * R + kw = (c * R + kh) * R + kw := by ring
          rw [weight_diagonal kernel hc hc mem.1 mem.2, if_pos rfl, place, Vector.getElem?_eq_getElem inside]
          rfl
        dsimp only
        rw [place, read, filter]
        rfl
      · have others (b : Fin C) (ne : b ≠ ⟨c, hc⟩) : ∑ r : Fin R, ∑ s : Fin R,
            pixel input (oh + r) (ow + s) b * weight (diagonal kernel) c b r s = 0 := by
          apply Finset.sum_eq_zero
          intro r _
          apply Finset.sum_eq_zero
          intro s _
          rw [weight_diagonal kernel hc b.isLt r.isLt s.isLt, if_neg fun eq => ne (Fin.ext eq), mul_zero]
        rw [convolve, Fintype.sum_eq_single ⟨c, hc⟩ others]
        simp only [sum_range_product, sum_range_map, zero_add]
        rfl
  obtain ⟨Y, depthwise, each⟩ := own
  refine ⟨Y, Z, depthwise, full, fun c hc oh hoh ow how => ?_⟩
  rw [each c hc oh hoh ow how, direct c hc oh hoh ow how]

end Direct

end MiniHardware.Accel
