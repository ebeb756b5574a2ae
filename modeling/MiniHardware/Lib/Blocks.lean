import Mathlib.Algebra.GroupWithZero.Nat
import Mathlib.Data.List.Basic
import Mathlib.Tactic.Common

/-!
# Inputs in blocks

`foldBlocks` folds a step function over the complete blocks of `n` symbols of
an input and returns what is left over, fewer than `n` symbols. The result for
a longer input is got from the state and the leftover of the shorter one
(`foldBlocks_append`), so a state that keeps both can be fed in pieces.

A transducer replaces every block by one the state and the block determine, and
the state moves on. If another transducer undoes one step in the same state and
moves to the same state, it undoes the whole input, as long as the input
consists of complete blocks.

A generator yields one block of `n` symbols per state. `mask` combines an input
with the generated stream, block by block; the last block may be partial. If
combining twice with the same symbol cancels, masking twice from the same state
gives the input back, whatever its length.
-/

namespace MiniHardware.Lib

/-! ## Folds -/

section Folds

variable {η α : Type*} {n : Nat}

/-- The state after the complete blocks, and the leftover. -/
def foldBlocks (n : Nat) [NeZero n] (step : η → List α → η) (h : η) (input : List α) : η × List α :=
  if n ≤ input.length then foldBlocks n step (step h (input.take n)) (input.drop n) else (h, input)
termination_by input.length
decreasing_by
  have := Nat.pos_of_neZero n
  simp only [List.length_drop]
  omega

variable [NeZero n] {step : η → List α → η}

theorem foldBlocks_of_lt {h : η} {input : List α} (lt : input.length < n) :
    foldBlocks n step h input = (h, input) := by
  rw [foldBlocks, if_neg (Nat.not_le.2 lt)]

theorem foldBlocks_of_le {h : η} {input : List α} (le : n ≤ input.length) :
    foldBlocks n step h input = foldBlocks n step (step h (input.take n)) (input.drop n) := by
  rw [foldBlocks, if_pos le]

/-- The fold of a longer input continues on the leftover. -/
theorem foldBlocks_append (step : η → List α → η) (h : η) (input more : List α) :
    foldBlocks n step h (input ++ more) =
      foldBlocks n step (foldBlocks n step h input).1 ((foldBlocks n step h input).2 ++ more) := by
  induction h, input using foldBlocks.induct n step with
  | case1 h input le ih =>
    have le' : n ≤ (input ++ more).length := by rw [List.length_append]; omega
    rw [foldBlocks_of_le le, foldBlocks_of_le le', List.take_append_of_le_length le,
      List.drop_append_of_le_length le, ih]
  | case2 h input lt => rw [foldBlocks_of_lt (Nat.lt_of_not_le lt)]

theorem foldBlocks_block {h : η} {block : List α} (len : block.length = n) :
    foldBlocks n step h block = (step h block, []) := by
  have pos := Nat.pos_of_neZero n
  rw [foldBlocks_of_le (Nat.le_of_eq len.symm), List.take_of_length_le (Nat.le_of_eq len),
    List.drop_eq_nil_of_le (Nat.le_of_eq len), foldBlocks_of_lt (by simpa using pos)]

/-- One block in front of the rest. -/
theorem foldBlocks_block_append {h : η} {block rest : List α} (len : block.length = n) :
    foldBlocks n step h (block ++ rest) = foldBlocks n step (step h block) rest := by
  rw [foldBlocks_append, foldBlocks_block len, List.nil_append]

/-- The leftover is what does not fill a block. -/
theorem length_leftover (step : η → List α → η) (h : η) (input : List α) :
    (foldBlocks n step h input).2.length = input.length % n := by
  induction h, input using foldBlocks.induct n step with
  | case1 h input le ih =>
    rw [foldBlocks_of_le le, ih, List.length_drop, ← Nat.mod_eq_sub_mod le]
  | case2 h input lt =>
    rw [foldBlocks_of_lt (Nat.lt_of_not_le lt), Nat.mod_eq_of_lt (Nat.lt_of_not_le lt)]

/-- The fold, over the list of the complete blocks. -/
theorem foldBlocks_eq_foldl (step : η → List α → η) (h : η) (input : List α) :
    (foldBlocks n step h input).1 =
      ((List.range (input.length / n)).map fun i => (input.drop (n * i)).take n).foldl step h := by
  have pos := Nat.pos_of_neZero n
  induction h, input using foldBlocks.induct n step with
  | case1 h input le ih =>
    obtain ⟨k, hk⟩ : ∃ k, input.length / n = k + 1 := ⟨input.length / n - 1, by
      have := Nat.div_pos le pos
      omega⟩
    have rest : (input.drop n).length / n = k := by
      have less := Nat.sub_mul_div input.length n 1
      rw [Nat.mul_one, hk, Nat.add_sub_cancel] at less
      rw [List.length_drop, less]
    rw [foldBlocks_of_le le, ih, hk, rest, List.range_succ_eq_map, List.map_cons, List.foldl_cons, List.map_map,
      Nat.mul_zero, List.drop_zero]
    refine congrArg (List.foldl step _) (List.map_congr_left fun i _ => ?_)
    rw [List.drop_drop, Function.comp_apply, Nat.mul_succ, Nat.add_comm]
  | case2 h input lt =>
    rw [foldBlocks_of_lt (Nat.lt_of_not_le lt), Nat.div_eq_of_lt (Nat.lt_of_not_le lt)]
    rfl

end Folds

/-! ## Transducers -/

section Transducers

variable {σ α : Type*} {n : Nat}

/-- The first `n` symbols of a list that has them. -/
def firstBlock (input : List α) (le : n ≤ input.length) : Vector α n :=
  Vector.ofFn fun i => input[i.val]

theorem toList_firstBlock (input : List α) (le : n ≤ input.length) :
    (firstBlock input le).toList = input.take n := by
  apply List.ext_getElem
  · simp [le]
  · intro i h h'
    simp [firstBlock]

/-- Replace the complete blocks, from the first one on. -/
def transduce [NeZero n] (step : σ → Vector α n → σ × Vector α n) (s : σ) (input : List α) : List α :=
  if le : n ≤ input.length then
    let (s', out) := step s (firstBlock input le)
    out.toList ++ transduce step s' (input.drop n)
  else []
termination_by input.length
decreasing_by
  have := Nat.pos_of_neZero n
  simp only [List.length_drop]
  omega

variable [NeZero n] {f g : σ → Vector α n → σ × Vector α n}

theorem transduce_of_le {s : σ} {input : List α} (le : n ≤ input.length) :
    transduce f s input = (f s (firstBlock input le)).2.toList ++
      transduce f (f s (firstBlock input le)).1 (input.drop n) := by
  rw [transduce, dif_pos le]

theorem transduce_of_lt {s : σ} {input : List α} (lt : input.length < n) : transduce f s input = [] := by
  rw [transduce, dif_neg (Nat.not_le.2 lt)]

/-- One block in front of the rest. -/
theorem transduce_append {s : σ} {block : Vector α n} {rest : List α} :
    transduce f s (block.toList ++ rest) = (f s block).2.toList ++ transduce f (f s block).1 rest := by
  have le : n ≤ (block.toList ++ rest).length := by simp
  have first : firstBlock (block.toList ++ rest) le = block := by
    apply Vector.toList_inj.1
    rw [toList_firstBlock, List.take_left' (by simp)]
  rw [transduce_of_le le, first, List.drop_left' (by simp)]

/-- Undoing every block undoes the input. -/
theorem transduce_transduce (undo : ∀ s block, g s (f s block).2 = ((f s block).1, block)) (s : σ)
    (input : List α) (whole : input.length % n = 0) :
    transduce g s (transduce f s input) = input := by
  induction s, input using transduce.induct f with
  | case1 s input le s' out step ih =>
    have whole' : (input.drop n).length % n = 0 := by
      rw [List.length_drop, ← Nat.mod_eq_sub_mod le, whole]
    have undone := undo s (firstBlock input le)
    rw [step] at undone
    rw [transduce_of_le le, step, transduce_append, undone, ih whole', toList_firstBlock,
      List.take_append_drop]
  | case2 s input lt =>
    have nil : input = [] := by
      have := Nat.mod_eq_of_lt (Nat.lt_of_not_le lt)
      exact List.length_eq_zero_iff.1 (by omega)
    have empty : ∀ f : σ → Vector α n → σ × Vector α n, transduce f s [] = [] := fun _ =>
      transduce_of_lt (Nat.pos_of_neZero n)
    rw [nil, empty, empty]

/-- The output of complete blocks is as long as the input. -/
theorem length_transduce (s : σ) (input : List α) (whole : input.length % n = 0) :
    (transduce f s input).length = input.length := by
  induction s, input using transduce.induct f with
  | case1 s input le s' out step ih =>
    have whole' : (input.drop n).length % n = 0 := by
      rw [List.length_drop, ← Nat.mod_eq_sub_mod le, whole]
    rw [transduce_of_le le, step, List.length_append, ih whole', List.length_drop, Vector.length_toList]
    omega
  | case2 s input lt =>
    have := Nat.mod_eq_of_lt (Nat.lt_of_not_le lt)
    rw [transduce_of_lt (by omega)]
    simp only [List.length_nil]
    omega

end Transducers

/-! ## Keystreams -/

section Keystreams

variable {σ α : Type*} {n : Nat}

/-- Combine the input with the blocks of the states `s`, `next s`, and so on. -/
def mask [NeZero n] (op : α → α → α) (block : σ → Vector α n) (next : σ → σ)
    (s : σ) : List α → List α
  | [] => []
  | a :: as =>
    List.zipWith op ((a :: as).take n) (block s).toList ++
      mask op block next (next s) ((a :: as).drop n)
termination_by input => input.length
decreasing_by
  have := Nat.pos_of_neZero n
  simp only [List.length_drop, List.length_cons]
  omega

variable [NeZero n] {op : α → α → α} {block : σ → Vector α n} {next : σ → σ}

@[simp] theorem mask_nil (s : σ) : mask op block next s [] = [] := by
  rw [mask]

theorem mask_eq (s : σ) (input : List α) :
    mask op block next s input =
      List.zipWith op (input.take n) (block s).toList ++ mask op block next (next s) (input.drop n) := by
  cases input with
  | nil => simp
  | cons a as => rw [mask]

@[simp] theorem length_mask (s : σ) (input : List α) :
    (mask op block next s input).length = input.length := by
  induction s, input using mask.induct (n := n) next with
  | case1 s => simp
  | case2 s a as ih =>
    rw [mask_eq, List.length_append, ih]
    simp only [List.length_zipWith, List.length_take, Vector.length_toList, List.length_drop]
    omega

/-- The first block is masked with the first block of the stream. -/
theorem take_mask (s : σ) (input : List α) :
    (mask op block next s input).take n = List.zipWith op (input.take n) (block s).toList := by
  have len : (List.zipWith op (input.take n) (block s).toList).length = min n input.length := by simp
  rw [mask_eq]
  rcases Nat.le_total n input.length with le | le
  · rw [List.take_append_of_le_length (by omega), List.take_of_length_le (by omega)]
  · rw [List.drop_eq_nil_of_le le, mask_nil, List.append_nil, List.take_of_length_le (by omega)]

theorem drop_mask (s : σ) (input : List α) :
    (mask op block next s input).drop n = mask op block next (next s) (input.drop n) := by
  have len : (List.zipWith op (input.take n) (block s).toList).length = min n input.length := by simp
  rw [mask_eq]
  rcases Nat.le_total n input.length with le | le
  · rw [List.drop_append_of_le_length (by omega), List.drop_eq_nil_of_le (by omega), List.nil_append]
  · rw [List.drop_eq_nil_of_le le, mask_nil, List.append_nil, List.drop_eq_nil_of_le (by omega)]

theorem zipWith_zipWith_cancel (cancel : ∀ a k, op (op a k) k = a) {as ks : List α}
    (le : as.length ≤ ks.length) : List.zipWith op (List.zipWith op as ks) ks = as := by
  induction as generalizing ks with
  | nil => simp
  | cons a as ih =>
    cases ks with
    | nil => simp at le
    | cons k ks =>
      rw [List.zipWith_cons_cons, List.zipWith_cons_cons, cancel, ih (by simpa using le)]

/-- Masking twice from the same state cancels. -/
theorem mask_mask (cancel : ∀ a k, op (op a k) k = a) (s : σ) (input : List α) :
    mask op block next s (mask op block next s input) = input := by
  induction s, input using mask.induct (n := n) next with
  | case1 s => simp
  | case2 s a as ih =>
    have le : ((a :: as).take n).length ≤ (block s).toList.length := by
      rw [Vector.length_toList]
      exact List.length_take_le _ _
    rw [mask_eq s (mask op block next s (a :: as)), take_mask, drop_mask, ih,
      zipWith_zipWith_cancel cancel le, List.take_append_drop]

end Keystreams

end MiniHardware.Lib
