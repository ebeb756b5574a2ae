import MiniHardware.Lib.Fill
import MiniHardware.Lib.OnlineSoftmax
import MiniHardware.Lib.Tiles
import Mathlib.Analysis.Complex.Exponential
import Mathlib.Analysis.Real.Sqrt

/-!
# Attention, plain and tiled (`mini-ai-accelerator/src/attention_accel.c`)

`attentionSingleHead` computes a whole row of scores before its softmax;
`flashAttentionTiled` keeps a maximum, a sum and an output for each row, and
rescales them with every tile of keys. The numbers are those of an ordered
field with an exponential, where the source has `float` and `double`. A tile
with more rows than the arrays `m_ij` and `P_rowsum` has no result.
-/

namespace MiniHardware.Accel
open Lib

/-- `FLASH_TILE_BLOCK_M`. -/
def flashTileBlockM : Nat := 64

/-- `FLASH_TILE_BLOCK_N`. -/
def flashTileBlockN : Nat := 64

inductive AttentionMaskType where
  | none
  | causal
  | padding
  | custom

/-- A tile size, or the default for none. -/
def blockSize (block : Int) (default : Nat) : Nat := if block ≤ 0 then default else block.toNat

/-- The array of `m` rows of length `n`, by row and column. -/
abbrev Rows (R : Type*) (m n : Nat) := Fin m → Fin n → R

section Model
variable {R : Type*} [Field R] [LinearOrder R]

/-- The search for the maximum, from the first entry on. -/
def rowMax {ι : Type*} (x : ι → R) : List ι → R
  | [] => 0
  | i :: is => is.foldl (fun maxVal i => if x i > maxVal then x i else maxVal) (x i)

/-- The loop of a sum. -/
def sumOver {ι : Type*} (x : ι → R) (is : List ι) : R := is.foldl (fun sum i => sum + x i) 0

variable (expf sqrtf : R → R)

def softmaxStable {len : Nat} (x : Fin len → R) : Fin len → R :=
  let maxVal := rowMax x (List.finRange len)
  let x := fun i => expf (x i - maxVal)
  let sum := sumOver x (List.finRange len)
  if sum > 1 / (10 ^ 15 : Nat) then
    let invSum := 1 / sum
    fun i => x i * invSum
  else fun _ => 1 / len

variable {seqLen kvLen headDim : Nat}

/-- The score `dot * scale`, as in step 1 of the one function and in `S_tile` of the other. -/
def score (Q : Rows R seqLen headDim) (K : Rows R kvLen headDim) (i : Fin seqLen) (j : Fin kvLen) : R :=
  let scale := 1 / sqrtf headDim
  sumOver (fun d => Q i d * K j d) (List.finRange headDim) * scale

/-- Step 2; `mask` may be null. -/
def applyMask (maskType : AttentionMaskType) (mask : Option (Rows R seqLen kvLen))
    (scores : Rows R seqLen kvLen) : Rows R seqLen kvLen :=
  match maskType, mask with
  | .causal, _ => fun i j => if j.val > i.val then -(10 ^ 9 : Nat) else scores i j
  | .custom, some mask => fun i j => if mask i j = 0 then -(10 ^ 9 : Nat) else scores i j
  | _, _ => scores

/-- `output`, and what is left in `attn_weights` if it is given. -/
def attentionSingleHead (Q : Rows R seqLen headDim) (K V : Rows R kvLen headDim)
    (maskType : AttentionMaskType) (mask : Option (Rows R seqLen kvLen)) :
    Option (Rows R seqLen headDim × Rows R seqLen kvLen) :=
  if seqLen = 0 ∨ kvLen = 0 ∨ headDim = 0 then none
  else
    let scores := applyMask maskType mask (score sqrtf Q K)
    let scores := fun i => softmaxStable expf (scores i)
    let output := fun i d => sumOver (fun j => scores i j * V j d) (List.finRange kvLen)
    some (output, scores)

/-- A row's entries of `m`, `l` and `output`. -/
structure FlashRow (R : Type*) (headDim : Nat) where
  m : R
  l : R
  output : Fin headDim → R

/-- What `flash_attention_tiled` keeps while it runs. `attn_weights` may be null. -/
structure FlashState (R : Type*) (seqLen kvLen headDim : Nat) where
  row : Fin seqLen → FlashRow R headDim
  attnWeights : Option (Rows R seqLen kvLen)

/-- The indices of a tile: `size` of them from `start` on, or what there is. -/
def tileOf (n start size : Nat) : List (Fin n) :=
  ((List.finRange n).drop start).take (if start + size ≤ n then size else n - start)

/-- A row of `P_tile`. -/
def tileWeights (S : Fin kvLen → R) (cols : List (Fin kvLen)) (j : Fin kvLen) : R :=
  let mij := rowMax S cols
  expf (S j - mij)

/-- What the loops over `r` do with a row, given its scores. -/
def updateRow (S : Fin kvLen → R) (V : Rows R kvLen headDim) (cols : List (Fin kvLen)) (row : FlashRow R headDim) :
    FlashRow R headDim :=
  let mij := rowMax S cols
  let P := tileWeights expf S cols
  let rowSum := sumOver P cols
  let mOld := row.m
  let mNew := if mij > mOld then mij else mOld
  let expDiffOld := expf (mOld - mNew)
  let expDiffNew := expf (mij - mNew)
  { m := mNew
    l := expDiffOld * row.l + expDiffNew * rowSum
    output := fun d =>
      let pvSum := sumOver (fun j => P j * V j d) cols
      expDiffOld * row.output d + expDiffNew * pvSum }

/-- The weights of the last tile of keys, as far as they are wanted. -/
def storeWeights (S : Rows R seqLen kvLen) (cols : List (Fin kvLen)) (i : Fin seqLen) (w : Rows R seqLen kvLen) :
    Rows R seqLen kvLen :=
  Function.update w i fun j => if j ∈ cols then tileWeights expf (S i) cols j else w i j

/-- The body of the loop over `ni`. -/
def flashTile (Q : Rows R seqLen headDim) (K V : Rows R kvLen headDim) (blockN : Nat)
    (rows : List (Fin seqLen)) (s : FlashState R seqLen kvLen headDim) (ni : Nat) :
    Option (FlashState R seqLen kvLen headDim) :=
  let S := score sqrtf Q K
  let cols := tileOf kvLen (ni * blockN) blockN
  let last := ni + 1 = tiles kvLen blockN
  if rows.length > flashTileBlockM then none
  else some <| rows.foldl (fun s i =>
    { row := Function.update s.row i (updateRow expf (S i) V cols (s.row i))
      attnWeights := if last then s.attnWeights.map (storeWeights expf S cols i) else s.attnWeights }) s

/-- The body of the loop over `mi`. -/
def flashBlock (Q : Rows R seqLen headDim) (K V : Rows R kvLen headDim) (blockM blockN : Nat)
    (s : FlashState R seqLen kvLen headDim) (mi : Nat) : Option (FlashState R seqLen kvLen headDim) :=
  let rows := tileOf seqLen (mi * blockM) blockM
  (List.range (tiles kvLen blockN)).foldlM (flashTile expf sqrtf Q K V blockN rows) s

/-- The final normalization. -/
def normalizeRow (row : FlashRow R headDim) : Fin headDim → R :=
  if row.l > 1 / (10 ^ 15 : Nat) then
    let invL := 1 / row.l
    fun d => row.output d * invL
  else row.output

/-- `output` and `attn_weights`. -/
def flashAttentionTiled (Q : Rows R seqLen headDim) (K V : Rows R kvLen headDim)
    (attnWeights : Option (Rows R seqLen kvLen)) (blockM blockN : Int) :
    Option (Rows R seqLen headDim × Option (Rows R seqLen kvLen)) := do
  let blockM := blockSize blockM flashTileBlockM
  let blockN := blockSize blockN flashTileBlockN
  let start : FlashState R seqLen kvLen headDim :=
    ⟨fun _ => ⟨-(10 ^ 30 : Nat), 0, fun _ => 0⟩, attnWeights.map fun _ _ _ => 0⟩
  let s ← (List.range (tiles seqLen blockM)).foldlM (flashBlock expf sqrtf Q K V blockM blockN) start
  some (fun i => normalizeRow (s.row i), s.attnWeights)

end Model

/-! ## The plain softmax -/

section Plain
variable {R : Type*} [Field R] {ι : Type*}

theorem sumOver_eq (x : ι → R) (is : List ι) : sumOver x is = (is.map x).sum := by
  have loop : is.foldl (fun sum i => sum + x i) 0 = 0 + (is.map x).sum := foldl_collect id (fun _ _ => rfl) is 0
  rw [sumOver, loop, zero_add]

variable {expf : R → R} {kvLen : Nat}

theorem sumOver_weights (S : Fin kvLen → R) (v : Fin kvLen → R) (m : R) (cols : List (Fin kvLen)) :
    sumOver (fun j => expf (S j - m) * v j) cols = expSum expf S v m cols :=
  sumOver_eq _ _

theorem sumOver_weight (S : Fin kvLen → R) (m : R) (cols : List (Fin kvLen)) :
    sumOver (fun j => expf (S j - m)) cols = expSum expf S (fun _ => 1) m cols := by
  rw [← sumOver_weights]
  simp only [mul_one]

variable [LinearOrder R]

/-- The maximum is one of the entries. -/
theorem rowMax_attained (x : ι → R) {is : List ι} (some : is ≠ []) : ∃ i ∈ is, x i = rowMax x is := by
  have search : ∀ (is : List ι) i, ∃ j ∈ i :: is,
      x j = is.foldl (fun maxVal i => if x i > maxVal then x i else maxVal) (x i) := by
    intro is
    induction is with
    | nil => exact fun i => ⟨i, List.mem_cons_self, rfl⟩
    | cons k is ih =>
      intro i
      rw [List.foldl_cons]
      split
      · obtain ⟨j, mem, eq⟩ := ih k
        exact ⟨j, List.mem_cons_of_mem i mem, eq⟩
      · obtain ⟨j, mem, eq⟩ := ih i
        refine ⟨j, ?_, eq⟩
        rcases List.mem_cons.1 mem with rfl | mem
        · exact List.mem_cons_self
        · exact List.mem_cons_of_mem i (List.mem_cons_of_mem k mem)
  cases is with
  | nil => exact absurd rfl some
  | cons i is => exact search is i

variable [IsStrictOrderedRing R]

theorem tiny_lt {x : R} (le : 1 ≤ x) : x > 1 / (10 ^ 15 : Nat) := by
  have : (1 : R) / (10 ^ 15 : Nat) < 1 := by norm_num
  exact this.trans_le le

/-- The sum is never so small that the weights become uniform. -/
theorem softmax_stable_eq (isExp : IsExp expf) (pos : 0 < kvLen) (x v : Fin kvLen → R) :
    ∃ m, sumOver (fun j => softmaxStable expf x j * v j) (List.finRange kvLen) =
      expSum expf x v m (List.finRange kvLen) / expSum expf x (fun _ => 1) m (List.finRange kvLen) := by
  have some : List.finRange kvLen ≠ [] := fun none => by
    have len := congrArg List.length none
    rw [List.length_finRange] at len
    exact pos.ne' len
  refine ⟨rowMax x (List.finRange kvLen), ?_⟩
  have large := tiny_lt (isExp.one_le_expSum (rowMax_attained x some))
  rw [← sumOver_weight] at large
  simp only [softmaxStable, if_pos large]
  rw [sumOver_eq, ← sumOver_weight, ← sumOver_weights, sumOver_eq (fun j => _ * v j), div_eq_mul_one_div (List.sum _),
    ← List.sum_map_mul_right]
  congr 1
  refine List.map_congr_left fun j _ => ?_
  ring

end Plain

/-! ## Tiles -/

section Tile

theorem blockSize_pos {default : Nat} (pos : 0 < default) (block : Int) : 0 < blockSize block default := by
  unfold blockSize
  split
  · exact pos
  · omega

theorem blockSize_le {block : Int} {default : Nat} (le : block ≤ default) : blockSize block default ≤ default := by
  unfold blockSize
  split
  · exact Nat.le_refl default
  · exact Int.toNat_le.2 le

theorem nodup_tileOf (n start size : Nat) : (tileOf n start size).Nodup :=
  (List.nodup_finRange n).sublist ((List.take_sublist _ _).trans (List.drop_sublist _ _))

theorem length_tileOf_le (n start size : Nat) : (tileOf n start size).length ≤ size := by
  refine (List.length_take_le _ _).trans ?_
  split
  · exact Nat.le_refl size
  · omega

/-- A tile goes on where the ones before it end. -/
theorem take_tileOf (n start size : Nat) :
    (List.finRange n).take start ++ tileOf n start size = (List.finRange n).take (start + size) := by
  rw [List.take_add, tileOf]
  congr 1
  split
  case isTrue inside => rfl
  case isFalse ragged =>
    have len : ((List.finRange n).drop start).length = n - start := by
      rw [List.length_drop, List.length_finRange]
    rw [List.take_of_length_le len.le, List.take_of_length_le]
    omega

theorem mem_tileOf {n start size : Nat} (i : Fin n) :
    i ∈ tileOf n start size ↔ start ≤ i.val ∧ i.val < start + size := by
  have before : ∀ m, i ∈ (List.finRange n).take m ↔ i.val < m := by
    intro m
    rw [List.mem_take_iff_getElem]
    constructor
    · rintro ⟨j, lt, rfl⟩
      rw [List.getElem_finRange]
      exact (Nat.lt_min.1 lt).1
    · intro lt
      refine ⟨i.val, Nat.lt_min.2 ⟨lt, ?_⟩, ?_⟩
      · rw [List.length_finRange]
        exact i.isLt
      · rw [List.getElem_finRange]
        rfl
  have parts := before (start + size)
  have nodup := (List.nodup_finRange n).sublist (List.take_sublist (start + size) _)
  rw [← take_tileOf] at parts nodup
  rw [List.mem_append, before] at parts
  constructor
  · intro mem
    refine ⟨Nat.not_lt.1 fun lt => ?_, parts.1 (.inr mem)⟩
    exact (List.nodup_append.1 nodup).2.2 i ((before start).2 lt) i mem rfl
  · rintro ⟨le, lt⟩
    exact (parts.2 lt).resolve_left le.not_gt

/-- A row is in one tile only. -/
theorem mem_tileOf_iff {n size mi : Nat} (pos : 0 < size) (i : Fin n) :
    i ∈ tileOf n (mi * size) size ↔ mi = i.val / size := by
  rw [mem_tileOf, eq_comm, Nat.div_eq_iff pos]
  omega

theorem tileOf_ne_nil {n start size : Nat} (pos : 0 < size) (lt : start < n) : tileOf n start size ≠ [] :=
  List.ne_nil_of_mem ((mem_tileOf ⟨start, lt⟩).2 ⟨Nat.le_refl start, Nat.lt_add_of_pos_right pos⟩)

end Tile

/-! ## The rows of the state -/

section Flash
variable {R : Type*} [Field R] [LinearOrder R] {expf sqrtf : R → R} {seqLen kvLen headDim : Nat}

/-- A tile of keys joins the sums of a row. -/
theorem updateRow_running (isExp : IsExp expf) {S : Fin kvLen → R} {V : Rows R kvLen headDim}
    {done cols : List (Fin kvLen)} {low : R} (above : ∀ j, low < S j) (some : cols ≠ [])
    {row : FlashRow R headDim} (h : Running expf S (fun d j => V j d) low done row.m row.l row.output) :
    let row' := updateRow expf S V cols row
    Running expf S (fun d j => V j d) low (done ++ cols) row'.m row'.l row'.output := by
  have next := h.step isExp (rowMax_attained S some) fun j _ => above j
  simp only [← sumOver_weights, mul_one] at next
  exact next

/-- A row after the first `n` tiles of keys. -/
def throughTiles (expf : R → R) (S : Fin kvLen → R) (V : Rows R kvLen headDim) (blockN n : Nat)
    (row : FlashRow R headDim) : FlashRow R headDim :=
  (List.range n).foldl (fun row ni => updateRow expf S V (tileOf kvLen (ni * blockN) blockN) row) row

theorem throughTiles_succ (S : Fin kvLen → R) (V : Rows R kvLen headDim) (blockN n : Nat) (row : FlashRow R headDim) :
    throughTiles expf S V blockN (n + 1) row =
      updateRow expf S V (tileOf kvLen (n * blockN) blockN) (throughTiles expf S V blockN n row) := by
  rw [throughTiles, List.range_succ, List.foldl_concat]
  rfl

/-- All tiles of keys are the whole row. -/
theorem throughTiles_running (isExp : IsExp expf) {S : Fin kvLen → R} (V : Rows R kvLen headDim) {blockN : Nat}
    (pos : 0 < blockN) {low : R} (above : ∀ j, low < S j) :
    let row := throughTiles expf S V blockN (tiles kvLen blockN) ⟨low, 0, fun _ => 0⟩
    Running expf S (fun d j => V j d) low (List.finRange kvLen) row.m row.l row.output := by
  have prefixes : ∀ n ≤ tiles kvLen blockN,
      let row := throughTiles expf S V blockN n ⟨low, 0, fun _ => 0⟩
      Running expf S (fun d j => V j d) low ((List.finRange kvLen).take (n * blockN)) row.m row.l row.output := by
    intro n
    induction n with
    | zero =>
      intro _
      rw [Nat.zero_mul, List.take_zero]
      exact running_nil _ low
    | succ n ih =>
      intro le
      have next := updateRow_running isExp above (tileOf_ne_nil pos (tile_start_lt le)) (ih (Nat.le_of_succ_le le))
      rw [take_tileOf, ← Nat.succ_mul] at next
      rw [throughTiles_succ]
      exact next
  have all := prefixes _ (Nat.le_refl _)
  rw [List.take_of_length_le] at all
  · exact all
  · rw [List.length_finRange]
    exact le_tiles_mul pos

variable (expf sqrtf) (Q : Rows R seqLen headDim) (K V : Rows R kvLen headDim) (blockN : Nat) {blockM : Nat}

/-- A tile of keys for a block of queries. -/
theorem flashTile_row {rows : List (Fin seqLen)} (fits : rows.length ≤ flashTileBlockM) (nodup : rows.Nodup)
    (s : FlashState R seqLen kvLen headDim) (ni : Nat) :
    ∃ s', flashTile expf sqrtf Q K V blockN rows s ni = some s' ∧ ∀ i, s'.row i =
      if i ∈ rows then updateRow expf (score sqrtf Q K i) V (tileOf kvLen (ni * blockN) blockN) (s.row i)
      else s.row i := by
  refine ⟨_, by rw [flashTile, if_neg fits.not_gt], fun i => ?_⟩
  by_cases mem : i ∈ rows
  · rw [if_pos mem]
    refine foldl_owned (fun s => s.row i) (updateRow expf (score sqrtf Q K i) V _) mem nodup ?_ ?_ s
    · intro s
      exact Function.update_self ..
    · intro s x ne
      exact Function.update_of_ne ne.symm ..
  · rw [if_neg mem]
    refine foldl_kept (fun s => s.row i) (fun s x mem' => ?_) s
    exact Function.update_of_ne (fun eq : i = x => mem (eq ▸ mem')) ..

/-- All tiles of keys for a block of queries. -/
theorem flashTiles_row {rows : List (Fin seqLen)} (fits : rows.length ≤ flashTileBlockM) (nodup : rows.Nodup)
    (s : FlashState R seqLen kvLen headDim) (n : Nat) :
    ∃ s', (List.range n).foldlM (flashTile expf sqrtf Q K V blockN rows) s = some s' ∧ ∀ i, s'.row i =
      if i ∈ rows then throughTiles expf (score sqrtf Q K i) V blockN n (s.row i) else s.row i := by
  refine foldlM_range (fun n (t : FlashState R seqLen kvLen headDim) => ∀ i, t.row i =
    if i ∈ rows then throughTiles expf (score sqrtf Q K i) V blockN n (s.row i) else s.row i) ?_ ?_
  · intro ni t _ h
    obtain ⟨t', tile, row⟩ := flashTile_row expf sqrtf Q K V blockN fits nodup t ni
    refine ⟨t', tile, fun i => ?_⟩
    rw [row, h]
    split
    · rw [throughTiles_succ]
    · rfl
  · intro i
    exact (ite_self _).symm

/-- Every row goes through all tiles of keys. -/
theorem flashBlocks_row (pos : 0 < blockM) (fits : blockM ≤ flashTileBlockM) (s : FlashState R seqLen kvLen headDim) :
    ∃ s', (List.range (tiles seqLen blockM)).foldlM (flashBlock expf sqrtf Q K V blockM blockN) s = some s' ∧
      ∀ i, s'.row i = throughTiles expf (score sqrtf Q K i) V blockN (tiles kvLen blockN) (s.row i) := by
  let final i := throughTiles expf (score sqrtf Q K i) V blockN (tiles kvLen blockN) (s.row i)
  have step : ∀ mi (t : FlashState R seqLen kvLen headDim), mi < tiles seqLen blockM →
      (∀ i, t.row i = if i.val / blockM < mi then final i else s.row i) →
        ∃ t', flashBlock expf sqrtf Q K V blockM blockN t mi = some t' ∧
          ∀ i, t'.row i = if i.val / blockM < mi + 1 then final i else s.row i := by
    intro mi t _ h
    have len := (length_tileOf_le seqLen (mi * blockM) blockM).trans fits
    obtain ⟨t', run, row⟩ := flashTiles_row expf sqrtf Q K V blockN len (nodup_tileOf ..) t (tiles kvLen blockN)
    refine ⟨t', run, fun i => ?_⟩
    rw [row, h]
    simp only [mem_tileOf_iff pos]
    rcases Nat.lt_trichotomy (i.val / blockM) mi with lt | rfl | gt
    · rw [if_neg lt.ne', if_pos lt, if_pos (lt.trans (Nat.lt_succ_self mi))]
    · rw [if_pos rfl, if_neg (Nat.lt_irrefl _), if_pos (Nat.lt_succ_self _)]
    · rw [if_neg gt.ne, if_neg gt.not_gt, if_neg (Nat.not_lt.2 gt)]
  have start : ∀ i : Fin seqLen, s.row i = if i.val / blockM < 0 then final i else s.row i :=
    fun i => (if_neg (Nat.not_lt_zero _)).symm
  obtain ⟨s', run, row⟩ := foldlM_range (fun mi (t : FlashState R seqLen kvLen headDim) =>
    ∀ i, t.row i = if i.val / blockM < mi then final i else s.row i) step start
  refine ⟨s', run, fun i => ?_⟩
  rw [row, if_pos (div_lt_tiles pos i.isLt)]

/-! ## The output -/

variable {expf sqrtf Q K V} [IsStrictOrderedRing R]

/-- Normalizing the sums of a row gives the quotient of the plain softmax. -/
theorem normalizeRow_eq (isExp : IsExp expf) {S : Fin kvLen → R} {low : R} {row : FlashRow R headDim}
    (h : Running expf S (fun d j => V j d) low (List.finRange kvLen) row.m row.l row.output) (pos : 0 < kvLen)
    (d : Fin headDim) :
    normalizeRow row d = sumOver (fun j => softmaxStable expf S j * V j d) (List.finRange kvLen) := by
  have some : List.finRange kvLen ≠ [] := List.ne_nil_of_mem (List.mem_finRange ⟨0, pos⟩)
  obtain ⟨large, quotient⟩ := h.quotient isExp some
  obtain ⟨m, plain⟩ := softmax_stable_eq isExp pos S fun j => V j d
  rw [plain, ← quotient m d, normalizeRow, if_pos (tiny_lt large)]
  exact mul_one_div _ _

/-- With scores above the first maximum, both functions have one output. -/
theorem tiled_eq_plain (isExp : IsExp expf) (V : Rows R kvLen headDim) (mask attnWeights : Option (Rows R seqLen kvLen))
    (lengths : ¬(seqLen = 0 ∨ kvLen = 0 ∨ headDim = 0)) {blockM : Int} (fits : blockM ≤ flashTileBlockM) (blockN : Int)
    (above : ∀ i j, -(10 ^ 30 : Nat) < score sqrtf Q K i j) :
    ∃ output weights weights', attentionSingleHead expf sqrtf Q K V .none mask = some (output, weights) ∧
      flashAttentionTiled expf sqrtf Q K V attnWeights blockM blockN = some (output, weights') := by
  have kv : 0 < kvLen := Nat.pos_of_ne_zero fun zero => lengths (.inr (.inl zero))
  obtain ⟨s, run, row⟩ := flashBlocks_row expf sqrtf Q K V (blockSize blockN flashTileBlockN)
    (blockSize_pos (by decide) blockM) (blockSize_le fits)
    ⟨fun _ => ⟨-(10 ^ 30 : Nat), 0, fun _ => 0⟩, attnWeights.map fun _ _ _ => 0⟩
  refine ⟨fun i => normalizeRow (s.row i), fun i => softmaxStable expf (score sqrtf Q K i), s.attnWeights, ?_, ?_⟩
  · rw [attentionSingleHead, if_neg lengths]
    simp only [applyMask]
    congr 2
    funext i d
    rw [row]
    exact (normalizeRow_eq isExp
      (throughTiles_running isExp V (blockSize_pos (by decide) blockN) (above i)) kv d).symm
  · rw [flashAttentionTiled, run]
    rfl

end Flash

/-! ## Real numbers -/

theorem isExp_real : IsExp Real.exp :=
  ⟨Real.exp_add, Real.exp_pos⟩

/-- **The tiled softmax is the softmax.** Whatever the tiles, and for all lengths `attentionSingleHead` accepts. -/
theorem flash_attention_tiled_eq {seqLen kvLen headDim : Nat} (Q : Rows ℝ seqLen headDim) (K V : Rows ℝ kvLen headDim)
    (mask attnWeights : Option (Rows ℝ seqLen kvLen)) (lengths : ¬(seqLen = 0 ∨ kvLen = 0 ∨ headDim = 0))
    {blockM : Int} (fits : blockM ≤ flashTileBlockM) (blockN : Int)
    (above : ∀ i j, -(10 ^ 30 : Nat) < score Real.sqrt Q K i j) :
    ∃ output weights weights', attentionSingleHead Real.exp Real.sqrt Q K V .none mask = some (output, weights) ∧
      flashAttentionTiled Real.exp Real.sqrt Q K V attnWeights blockM blockN = some (output, weights') :=
  tiled_eq_plain isExp_real V mask attnWeights lengths fits blockN above

/-- Two queries, three keys, tiles of one by two. -/
theorem flash_attention_tiled_eq_zeros :
    ∃ output weights weights',
      attentionSingleHead Real.exp Real.sqrt (0 : Rows ℝ 2 1) (0 : Rows ℝ 3 1) (fun j _ => j.val) .none none =
        some (output, weights) ∧
      flashAttentionTiled Real.exp Real.sqrt (0 : Rows ℝ 2 1) (0 : Rows ℝ 3 1) (fun j _ => j.val) none 1 2 =
        some (output, weights') :=
  flash_attention_tiled_eq 0 0 _ none none (by decide) (by decide) 2 fun i j => by
    rw [score, sumOver_eq]
    norm_num

end MiniHardware.Accel
