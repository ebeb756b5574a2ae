import MiniHardware.Accel.MatrixLoops
import MiniHardware.Lib.Index
import MiniHardware.Lib.Segments

/-!
# Systolic arrays (`mini-ai-accelerator/src/systolic_array.c`)

In every cycle a cell adds the product of its activation and its weight, then
activations move to the right and weights down. Both runs drive an array of
their own, of which they feed the first column, and read the sums at the end.
The array has any size and any numbers; the theorems take those of a commutative
ring, a tensor core has 16 by 16 cells of `float`. What the constructor does not
write has contents of its own, an access outside an array has no result, and an
`int` is an `Int`, as in a run that does not overflow.
-/

namespace MiniHardware.Accel.Systolic
open Lib

/-- `MAX_SYSTOLIC_SIZE`. -/
abbrev maxSystolicSize : Nat := 16

/-- A table for each field of the cells in use; nothing reads the last product. -/
structure SystolicArray (R : Type) (rows cols : Nat) where
  accumulator : Fin rows → Fin cols → R
  weight : Fin rows → Fin cols → R
  activation : Fin rows → Fin cols → R
  inputFifo : List R
  weightFifo : List R
  inputHead : Nat
  weightHead : Nat

/-- A loop that moves every entry up by one, from the last one on. -/
def shifted {α : Type} {n : Nat} (f : Fin n → α) : Fin n → α :=
  ((List.finRange n).drop 1).reverse.foldl
    (fun f j => Function.update f j (f ⟨j.val - 1, Nat.lt_of_le_of_lt (Nat.sub_le j.val 1) j.isLt⟩)) f

section Model
variable {R : Type} [Zero R] [Add R] [Mul R] {rows cols : Nat}

/-- Nothing for `NULL`; only the first `rows` entries of the queues are written. -/
def systolicArrayCreate (foundInput foundWeight : Nat → R) (rows cols : Nat) : Option (SystolicArray R rows cols) :=
  if rows < 1 ∨ rows > maxSystolicSize ∨ cols < 1 ∨ cols > maxSystolicSize then none
  else some {
    accumulator := fun _ _ => 0
    weight := fun _ _ => 0
    activation := fun _ _ => 0
    inputFifo := (List.range maxSystolicSize).map fun i => if i < rows then 0 else foundInput i
    weightFifo := (List.range maxSystolicSize).map fun i => if i < rows then 0 else foundWeight i
    inputHead := 0
    weightHead := 0 }

def setWeight (sa : SystolicArray R rows cols) (i j : Nat) (v : R) : SystolicArray R rows cols :=
  { sa with weight := fun i' j' => if i'.val = i ∧ j'.val = j then v else sa.weight i' j' }

def systolicLoadWeights (sa : SystolicArray R rows cols) (weights : Int → Option R) (N M : Int) :
    Option (SystolicArray R rows cols) :=
  (List.range (min N.toNat rows) ×ˢ List.range (min M.toNat cols)).foldlM (fun sa p => do
    let v ← weights (p.1 * M + p.2)
    some (setWeight sa p.1 p.2 v)) sa

/-- Products, activations one to the right, weights one down, then the queues. -/
def systolicCycle (sa : SystolicArray R rows cols) : Option (SystolicArray R rows cols) := do
  let top ← (if sa.weightHead < rows then sa.weightFifo[sa.weightHead]? else some 0)
  let input ← sa.inputFifo[sa.inputHead]?
  some { sa with
    accumulator := fun i j => sa.accumulator i j + sa.activation i j * sa.weight i j
    activation := fun i j => if j.val = 0 then input else shifted (sa.activation i) j
    weight := fun i j => if i.val = 0 then top else shifted (fun i => sa.weight i j) i
    inputHead := sa.inputHead + 1
    weightHead := sa.weightHead + 1 }

def writeInput (sa : SystolicArray R rows cols) (i : Nat) (v : R) : Option (SystolicArray R rows cols) := do
  let inputFifo ← writeAt sa.inputFifo i v
  some { sa with inputFifo }

/-- An accumulator of a cell in use. -/
def accumulatorAt (sa : SystolicArray R rows cols) (i j : Nat) : Option R :=
  if hi : i < rows then if hj : j < cols then some (sa.accumulator ⟨i, hi⟩ ⟨j, hj⟩) else none else none

/-- All rounds write the weight of the first cell. -/
def feedWeight (weights : Int → Option R) (M N : Int) (c : Nat) (worker : SystolicArray R rows cols) :
    Option (SystolicArray R rows cols) :=
  (List.range N.toNat).foldlM (fun worker (i : Nat) => do
    let v ← weights (c * M + i)
    some (setWeight worker 0 0 v)) worker

def feedInput (activations : Int → Option R) (K : Int) (c : Nat) (worker : SystolicArray R rows cols) :
    Option (SystolicArray R rows cols) :=
  (List.range K.toNat).foldlM (fun worker (i : Nat) => do
    let v ← activations (c * K + i)
    writeInput worker i v) worker

/-- What is written before cycle `c`. -/
def systolicFeed (activations weights : Int → Option R) (M N K : Int) (worker : SystolicArray R rows cols) (c : Nat) :
    Option (SystolicArray R rows cols) := do
  let worker ← (if c < K then feedWeight weights M N c worker else some worker)
  if c < M then feedInput activations K c worker else some worker

/-- The body of the loop over `c` of `systolic_run`. -/
def systolicRunCycle (activations weights : Int → Option R) (M N K : Int) (worker : SystolicArray R rows cols)
    (c : Nat) : Option (SystolicArray R rows cols) := do
  let worker ← systolicFeed activations weights M N K worker c
  systolicCycle worker

/-- What is written to `result`; the array itself has only its size read. -/
def systolicRun {n : Nat} (foundInput foundWeight : Nat → R) (rows cols : Nat) (activations weights : Int → Option R)
    (M N K : Int) (result : Vector R n) : Option (Vector R n) :=
  match systolicArrayCreate foundInput foundWeight rows cols with
  | none => some result
  | some worker => do
    let worker ← systolicLoadWeights worker weights N M
    let worker ← (List.range (M + N + K - 2).toNat).foldlM (systolicRunCycle activations weights M N K) worker
    fill (List.range N.toNat) id (fun i => accumulatorAt worker i (cols - 1)) result

section OutputStationary
variable {M N K : Nat}

def feedSkewedInput (activations : Vector R (M * K)) (c : Nat) (worker : SystolicArray R rows cols) :
    Option (SystolicArray R rows cols) :=
  (List.range (min cols K)).foldlM (fun worker j =>
    if j ≤ c ∧ c - j < M then do
      let v ← activations[(c - j) * K + j]?
      writeInput worker j v
    else writeInput worker j 0) worker

def feedSkewedWeight (weights : Vector R (K * N)) (c : Nat) (worker : SystolicArray R rows cols) :
    Option (SystolicArray R rows cols) :=
  (List.range (min rows N)).foldlM (fun worker i =>
    if i ≤ c ∧ c - i < K then do
      let v ← weights[(c - i) * N + i]?
      some (setWeight worker i 0 v)
    else some worker) worker

/-- The body of the loop over `c` of `systolic_run_output_stationary`. -/
def outputStationaryCycle (activations : Vector R (M * K)) (weights : Vector R (K * N)) (worker : SystolicArray R rows cols)
    (c : Nat) : Option (SystolicArray R rows cols) := do
  let worker ← feedSkewedInput activations c worker
  let worker ← feedSkewedWeight weights c worker
  systolicCycle worker

def systolicRunOutputStationary (foundInput foundWeight : Nat → R) (rows cols : Nat) (activations : Vector R (M * K))
    (weights : Vector R (K * N)) (result : Vector R (N * M)) : Option (Vector R (N * M)) :=
  match systolicArrayCreate foundInput foundWeight rows cols with
  | none => some result
  | some worker => do
    let worker ← (List.range (M + N + K - 2)).foldlM (outputStationaryCycle activations weights) worker
    fill (List.range (min N rows) ×ˢ List.range (min M cols)) (fun p => p.1 * M + p.2)
      (fun p => accumulatorAt worker p.1 p.2) result

end OutputStationary

end Model

theorem shifted_apply {α : Type} {n : Nat} (f : Fin n → α) (j : Fin n) :
    shifted f j = if j.val = 0 then f j else f ⟨j.val - 1, Nat.lt_of_le_of_lt (Nat.sub_le j.val 1) j.isLt⟩ := by
  have from_place : ∀ left m, m + left = n → ∀ j : Fin n,
      ((List.finRange n).drop m).foldr
        (fun j f => Function.update f j (f ⟨j.val - 1, Nat.lt_of_le_of_lt (Nat.sub_le j.val 1) j.isLt⟩)) f j =
          if m ≤ j.val then f ⟨j.val - 1, Nat.lt_of_le_of_lt (Nat.sub_le j.val 1) j.isLt⟩ else f j := by
    intro left
    induction left with
    | zero =>
      intro m last j
      rw [List.drop_of_length_le (by rw [List.length_finRange]; omega), if_neg (by omega)]
      rfl
    | succ left ih =>
      intro m more j
      have lt : m < n := by omega
      rw [List.drop_eq_getElem_cons (by rw [List.length_finRange]; exact lt), List.getElem_finRange, Fin.cast_mk,
        List.foldr_cons]
      rcases eq_or_ne j ⟨m, lt⟩ with rfl | ne
      · rw [Function.update_self, ih (m + 1) (by omega), if_neg (by dsimp only; omega), if_pos (Nat.le_refl m)]
      · have other : j.val ≠ m := fun same => ne (Fin.ext same)
        rw [Function.update_of_ne ne, ih (m + 1) (by omega)]
        exact if_congr (by omega) rfl rfl
  rw [shifted, List.foldl_reverse, from_place (n - 1) 1 (by have := j.isLt; omega)]
  by_cases first : j.val = 0
  · rw [if_pos first, if_neg (by omega)]
  · rw [if_neg first, if_pos (by omega)]

/-! ## One cycle -/

section Cycle
variable {R : Type} [CommRing R] {rows cols : Nat}

/-- The cell before. -/
def before {n : Nat} (i : Fin n) : Fin n := ⟨i.val - 1, Nat.lt_of_le_of_lt (Nat.sub_le i.val 1) i.isLt⟩

/-- The queues after `t` cycles; nothing is ever written to that of the weights. -/
structure Queues (t : Nat) (sa : SystolicArray R rows cols) : Prop where
  inputs : sa.inputFifo.length = maxSystolicSize
  tops : ∀ k < rows, sa.weightFifo[k]? = some 0
  inputHead : sa.inputHead = t
  weightHead : sa.weightHead = t

/-- The array after a cycle that takes `input` from its queue. -/
def advanced (sa : SystolicArray R rows cols) (input : R) : SystolicArray R rows cols :=
  { sa with
    accumulator := fun i j => sa.accumulator i j + sa.activation i j * sa.weight i j
    activation := fun i j => if j.val = 0 then input else sa.activation i (before j)
    weight := fun i j => if i.val = 0 then 0 else sa.weight (before i) j
    inputHead := sa.inputHead + 1
    weightHead := sa.weightHead + 1 }

/-- A cycle that finds its input in the queue moves everything on by one cell. -/
theorem systolicCycle_eq {t : Nat} {sa : SystolicArray R rows cols} (q : Queues t sa) {input : R}
    (taken : sa.inputFifo[t]? = some input) : systolicCycle sa = some (advanced sa input) := by
  have top : (if sa.weightHead < rows then sa.weightFifo[sa.weightHead]? else some 0) = some 0 := by
    split
    · rename_i lt
      exact q.tops _ lt
    · rfl
  have right : (fun i j => if j.val = 0 then input else shifted (sa.activation i) j) =
      fun (i : Fin rows) (j : Fin cols) => if j.val = 0 then input else sa.activation i (before j) := by
    funext i j
    split
    · rfl
    · rename_i inner
      rw [shifted_apply, if_neg inner]
      rfl
  have down : (fun i j => if i.val = 0 then 0 else shifted (fun i => sa.weight i j) i) =
      fun (i : Fin rows) (j : Fin cols) => if i.val = 0 then 0 else sa.weight (before i) j := by
    funext i j
    split
    · rfl
    · rename_i inner
      rw [shifted_apply, if_neg inner]
      rfl
  rw [systolicCycle, top, q.inputHead, taken]
  simp only [Option.bind_eq_bind, Option.bind_some, right, down, advanced, q.inputHead]

/-- A cycle with a result took its input from the queue. -/
theorem systolicCycle_some {t : Nat} {sa sa' : SystolicArray R rows cols} (q : Queues t sa)
    (cycle : systolicCycle sa = some sa') : ∃ input, sa' = advanced sa input := by
  cases taken : sa.inputFifo[t]? with
  | none => simp [systolicCycle, q.inputHead, taken] at cycle
  | some input =>
    rw [systolicCycle_eq q taken] at cycle
    exact ⟨input, (Option.some.inj cycle).symm⟩

/-- The heads of the queues count the cycles. -/
theorem Queues.next {t : Nat} {sa : SystolicArray R rows cols} (q : Queues t sa) (input : R) :
    Queues (t + 1) (advanced sa input) :=
  ⟨q.inputs, q.tops, congrArg (· + 1) q.inputHead, congrArg (· + 1) q.weightHead⟩

/-- A new array has had no cycle. -/
theorem queues_create {foundInput foundWeight : Nat → R} {sa : SystolicArray R rows cols}
    (created : systolicArrayCreate foundInput foundWeight rows cols = some sa) : Queues 0 sa := by
  rw [systolicArrayCreate] at created
  split at created
  · exact nomatch created
  · rename_i size
    obtain rfl := Option.some.inj created
    refine ⟨by simp, fun k lt => ?_, rfl, rfl⟩
    rw [List.getElem?_map, List.getElem?_range (by omega)]
    exact congrArg some (if_pos lt)

end Cycle

/-! ## Weights in place -/

section Run
variable {R : Type} [CommRing R] {rows cols : Nat} {activations weights : Int → Option R} {M N K : Int}

omit [CommRing R] in
/-- Loading writes weights and nothing else. -/
theorem systolicLoadWeights_kept {sa sa' : SystolicArray R rows cols}
    (load : systolicLoadWeights sa weights N M = some sa') : ∃ w, sa' = { sa with weight := w } := by
  refine foldlM_some (fun s => ∃ w, s = { sa with weight := w }) ?_ ⟨sa.weight, rfl⟩ load
  rintro p - s s' ⟨w, rfl⟩ round
  obtain ⟨v, -, written⟩ := Option.bind_eq_some_iff.1 round
  exact ⟨_, (Option.some.inj written).symm⟩

omit [CommRing R] in
/-- The weights that are fed reach the first column only. -/
theorem feedWeight_kept {c : Nat} {sa sa' : SystolicArray R rows cols} (feed : feedWeight weights M N c sa = some sa') :
    ∃ w, sa' = { sa with weight := w } ∧ ∀ i j, 0 < j.val → w i j = sa.weight i j := by
  refine foldlM_some (fun s => ∃ w, s = { sa with weight := w } ∧ ∀ i j, 0 < j.val → w i j = sa.weight i j) ?_
    ⟨sa.weight, rfl, fun _ _ _ => rfl⟩ feed
  rintro i - s s' ⟨w, rfl, kept⟩ round
  obtain ⟨v, -, written⟩ := Option.bind_eq_some_iff.1 round
  refine ⟨_, (Option.some.inj written).symm, fun i' j pos => ?_⟩
  rw [if_neg (by omega)]
  exact kept i' j pos

omit [CommRing R] in
/-- Feeding activations changes the queue and nothing else. -/
theorem feedInput_kept {c : Nat} {sa sa' : SystolicArray R rows cols} (feed : feedInput activations K c sa = some sa') :
    ∃ l, sa' = { sa with inputFifo := l } ∧ l.length = sa.inputFifo.length := by
  refine foldlM_some (fun s : SystolicArray R rows cols => ∃ l, s = { sa with inputFifo := l } ∧
    l.length = sa.inputFifo.length) ?_ ⟨sa.inputFifo, rfl, rfl⟩ feed
  rintro i - s s' ⟨l, rfl, len⟩ round
  obtain ⟨v, -, written⟩ := Option.bind_eq_some_iff.1 round
  obtain ⟨l', set, eq⟩ := Option.bind_eq_some_iff.1 written
  exact ⟨l', (Option.some.inj eq).symm, (length_writeAt set).trans len⟩

omit [CommRing R] in
/-- Feeding leaves the columns behind the first as they are. -/
theorem systolicFeed_kept {c : Nat} {sa sa' : SystolicArray R rows cols}
    (feed : systolicFeed activations weights M N K sa c = some sa') :
    ∃ w l, sa' = { sa with weight := w, inputFifo := l } ∧ (∀ i j, 0 < j.val → w i j = sa.weight i j) ∧
      l.length = sa.inputFifo.length := by
  obtain ⟨mid, first, second⟩ := Option.bind_eq_some_iff.1 feed
  have fed : ∃ w, mid = { sa with weight := w } ∧ ∀ i j, 0 < j.val → w i j = sa.weight i j := by
    split at first
    · exact feedWeight_kept first
    · exact ⟨sa.weight, (Option.some.inj first).symm, fun _ _ _ => rfl⟩
  obtain ⟨w, rfl, kept⟩ := fed
  have queued : ∃ l, sa' = { sa with weight := w, inputFifo := l } ∧ l.length = sa.inputFifo.length := by
    split at second
    · exact feedInput_kept second
    · exact ⟨sa.inputFifo, (Option.some.inj second).symm, rfl⟩
  obtain ⟨l, rfl, len⟩ := queued
  exact ⟨w, l, rfl, kept, len⟩

/-- What the cells on and above the diagonal hold after `t` cycles, the first column apart. -/
structure Quiet (t : Nat) (sa : SystolicArray R rows cols) : Prop extends Queues t sa where
  activation : ∀ i j, t ≤ j.val → sa.activation i j = 0
  weight : ∀ i j, i.val < t → 0 < j.val → sa.weight i j = 0
  accumulator : ∀ i j, i.val ≤ j.val → 0 < j.val → sa.accumulator i j = 0

/-- A cycle later one more column may have activations, and one more row has no weights. -/
theorem Quiet.next {t : Nat} {sa : SystolicArray R rows cols} (h : Quiet t sa) (input : R) :
    Quiet (t + 1) (advanced sa input) := by
  refine ⟨h.toQueues.next input, fun i j le => ?_, fun i j lt pos => ?_, fun i j le pos => ?_⟩
  · have inner : j.val ≠ 0 := by omega
    exact (if_neg inner).trans (h.activation i (before j) (by show t ≤ j.val - 1; omega))
  · dsimp only [advanced]
    split
    · rfl
    · exact h.weight (before i) j (by show i.val - 1 < t; omega) pos
  · -- the activations have not come that far, or the weights have left
    have product : sa.activation i j * sa.weight i j = 0 := by
      rcases Nat.lt_or_ge j.val t with passed | ahead
      · rw [h.weight i j (by omega) pos, mul_zero]
      · rw [h.activation i j ahead, zero_mul]
    exact (congrArg₂ (· + ·) (h.accumulator i j le pos) product).trans (add_zero 0)

/-- Feeding writes the corner and the queue, of which `Quiet` says nothing. -/
theorem Quiet.feed {t c : Nat} {sa sa' : SystolicArray R rows cols} (h : Quiet t sa)
    (feed : systolicFeed activations weights M N K sa c = some sa') : Quiet t sa' := by
  obtain ⟨w, l, rfl, kept, len⟩ := systolicFeed_kept feed
  exact ⟨⟨len.trans h.inputs, h.tops, h.inputHead, h.weightHead⟩, h.activation,
    fun i j lt pos => (kept i j pos).trans (h.weight i j lt pos), h.accumulator⟩

/-- A cycle of the run, feeding included. -/
theorem Quiet.runCycle {t : Nat} {sa sa' : SystolicArray R rows cols} (h : Quiet t sa)
    (cycle : systolicRunCycle activations weights M N K sa t = some sa') : Quiet (t + 1) sa' := by
  obtain ⟨fed, feed, cycle⟩ := Option.bind_eq_some_iff.1 cycle
  obtain ⟨input, rfl⟩ := systolicCycle_some (h.feed feed).toQueues cycle
  exact (h.feed feed).next input

/-- No product of a cell behind the first column and on or above the diagonal is other than zero. -/
theorem Quiet.idle {t : Nat} {sa : SystolicArray R rows cols} (h : Quiet t sa) (i : Fin rows) (j : Fin cols)
    (le : i.val ≤ j.val) (pos : 0 < j.val) : sa.activation i j = 0 ∨ sa.weight i j = 0 := by
  rcases Nat.lt_or_ge j.val t with passed | ahead
  · exact .inr (h.weight i j (by omega) pos)
  · exact .inl (h.activation i j ahead)

/-- The worker of `systolic_run` before cycle `t`. -/
def systolicWorker (foundInput foundWeight : Nat → R) (rows cols : Nat) (activations weights : Int → Option R)
    (M N K : Int) (t : Nat) : Option (SystolicArray R rows cols) := do
  let worker ← systolicArrayCreate foundInput foundWeight rows cols
  let worker ← systolicLoadWeights worker weights N M
  (List.range t).foldlM (systolicRunCycle activations weights M N K) worker

/-- The array is quiet before every cycle of the run. -/
theorem systolicWorker_quiet {foundInput foundWeight : Nat → R} {t : Nat} {worker : SystolicArray R rows cols}
    (reached : systolicWorker foundInput foundWeight rows cols activations weights M N K t = some worker) :
    Quiet t worker := by
  obtain ⟨sa, created, reached⟩ := Option.bind_eq_some_iff.1 reached
  obtain ⟨loaded, load, loop⟩ := Option.bind_eq_some_iff.1 reached
  obtain ⟨w, rfl⟩ := systolicLoadWeights_kept load
  have start : Quiet 0 { sa with weight := w } := by
    have queues := queues_create created
    rw [systolicArrayCreate] at created
    split at created
    · exact nomatch created
    obtain rfl := Option.some.inj created
    exact ⟨⟨queues.inputs, queues.tops, rfl, rfl⟩, fun _ _ _ => rfl, fun _ _ lt => absurd lt (Nat.not_lt_zero _),
      fun _ _ _ _ => rfl⟩
  exact foldlM_range_some Quiet (fun i s s' _ quiet => quiet.runCycle) start loop

/-- The shapes and operands whose run stays inside the queues, the array, the operands and `n` results. -/
structure Inside (rows n : Nat) (activations weights : Int → Option R) (M N K : Int) : Prop where
  outputs : N ≤ rows
  room : N ≤ n
  depth : K ≤ maxSystolicSize
  cycles : M + N + K ≤ maxSystolicSize + 2
  loaded : ∀ i j : Nat, i < N → j < M → (weights (i * M + j)).isSome
  fedWeights : ∀ c i : Nat, c < K → i < N → (weights (c * M + i)).isSome
  fedInputs : ∀ c i : Nat, c < M → i < K → (activations (c * K + i)).isSome

/-- Feeding stays inside the operands and the queue. -/
theorem Inside.feed {n t : Nat} (h : Inside rows n activations weights M N K) {sa : SystolicArray R rows cols}
    (q : Queues t sa) : ∃ fed, systolicFeed activations weights M N K sa t = some fed := by
  have first : ∃ mid, (if t < K then feedWeight weights M N t sa else some sa) = some mid := by
    split
    · rename_i feeds
      rw [feedWeight]
      refine (foldlM_range (fun _ _ => True) (fun i s lt _ => ?_) trivial).imp fun _ loop => loop.1
      obtain ⟨v, read⟩ := Option.isSome_iff_exists.1 (h.fedWeights t i feeds (by omega))
      exact ⟨_, by rw [read]; rfl, trivial⟩
    · exact ⟨sa, rfl⟩
  obtain ⟨mid, fed⟩ := first
  have len : mid.inputFifo.length = maxSystolicSize := by
    split at fed
    · obtain ⟨w, rfl, -⟩ := feedWeight_kept fed
      exact q.inputs
    · exact Option.some.inj fed ▸ q.inputs
  rw [systolicFeed, fed, Option.bind_eq_bind, Option.bind_some]
  split
  · rename_i feeds
    rw [feedInput]
    refine (foldlM_range (fun _ (s : SystolicArray R rows cols) => s.inputFifo.length = maxSystolicSize)
      (fun i s lt len => ?_) len).imp fun _ loop => loop.1
    obtain ⟨v, read⟩ := Option.isSome_iff_exists.1 (h.fedInputs t i feeds (by omega))
    have depth := h.depth
    refine ⟨{ s with inputFifo := s.inputFifo.set i v }, ?_, by rw [List.length_set, len]⟩
    rw [read, Option.bind_eq_bind, Option.bind_some, writeInput, writeAt_eq (by omega)]
    rfl
  · exact ⟨mid, rfl⟩

/-- Such a run goes through all its cycles. -/
theorem Inside.worker {n : Nat} (h : Inside rows n activations weights M N K) (foundInput foundWeight : Nat → R)
    (size : 1 ≤ rows ∧ rows ≤ maxSystolicSize) (size' : 1 ≤ cols ∧ cols ≤ maxSystolicSize) :
    ∃ worker, systolicWorker foundInput foundWeight rows cols activations weights M N K (M + N + K - 2).toNat =
      some worker := by
  obtain ⟨sa, created⟩ : ∃ sa, systolicArrayCreate foundInput foundWeight rows cols = some sa :=
    ⟨_, if_neg (by omega)⟩
  obtain ⟨loaded, load, -⟩ : ∃ loaded, systolicLoadWeights sa weights N M = some loaded ∧ True := by
    refine foldlM_rounds (fun _ _ => True) ?_ trivial
    rintro done ⟨i, j⟩ rest s eq -
    have mem : (i, j) ∈ List.range (min N.toNat rows) ×ˢ List.range (min M.toNat cols) := by
      rw [eq]
      exact List.mem_append_right _ List.mem_cons_self
    obtain ⟨row, col⟩ := List.mem_product.1 mem
    rw [List.mem_range] at row col
    obtain ⟨v, read⟩ := Option.isSome_iff_exists.1 (h.loaded i j (by omega) (by omega))
    exact ⟨_, by rw [read]; rfl, trivial⟩
  have start : Queues 0 loaded := by
    obtain ⟨w, rfl⟩ := systolicLoadWeights_kept load
    have queues := queues_create created
    exact ⟨queues.inputs, queues.tops, queues.inputHead, queues.weightHead⟩
  rw [systolicWorker, created, Option.bind_eq_bind, Option.bind_some, load, Option.bind_some]
  refine (foldlM_range Queues (fun t s lt queues => ?_) start).imp fun _ loop => loop.1
  obtain ⟨fed, feed⟩ := h.feed queues
  have cycles := h.cycles
  have queues : Queues t fed := by
    obtain ⟨w, l, rfl, -, len⟩ := systolicFeed_kept feed
    exact ⟨len.trans queues.inputs, queues.tops, queues.inputHead, queues.weightHead⟩
  have bound : t < fed.inputFifo.length := by
    rw [queues.inputs]
    omega
  refine ⟨_, ?_, queues.next fed.inputFifo[t]⟩
  rw [systolicRunCycle, feed, Option.bind_eq_bind, Option.bind_some]
  exact systolicCycle_eq queues (List.getElem?_eq_getElem bound)

/-- The results of a run are sums of the last column. -/
theorem systolicRun_eq {n : Nat} (foundInput foundWeight : Nat → R) (size : 1 ≤ rows ∧ rows ≤ maxSystolicSize)
    (size' : 1 ≤ cols ∧ cols ≤ maxSystolicSize) (result : Vector R n) :
    systolicRun foundInput foundWeight rows cols activations weights M N K result =
      (systolicWorker foundInput foundWeight rows cols activations weights M N K (M + N + K - 2).toNat).bind
        fun worker => fill (List.range N.toNat) id (fun i => accumulatorAt worker i (cols - 1)) result := by
  obtain ⟨sa, created⟩ : ∃ sa, systolicArrayCreate foundInput foundWeight rows cols = some sa :=
    ⟨_, if_neg (by omega)⟩
  rw [systolicRun, systolicWorker, created]
  dsimp only
  exact (Option.bind_assoc _ _ _).symm

omit [CommRing R] in
/-- A loop that writes one value to the first `N` entries. -/
theorem get_fill_range {n N : Nat} {value : Nat → Option R} {x : R} (const : ∀ i v, value i = some v → v = x)
    {X Y : Vector R n} (filled : fill (List.range N) id value X = some Y) (i : Fin n) :
    Y.get i = if i.val < N then x else X.get i := by
  refine foldlM_range_some (fun k (Y : Vector R n) => ∀ i : Fin n, Y.get i = if i.val < k then x else X.get i) ?_
    (fun i => (if_neg (Nat.not_lt_zero _)).symm) filled i
  intro k Y Y' _ inv round i
  obtain ⟨v, read, written⟩ := Option.bind_eq_some_iff.1 round
  obtain rfl := const k v read
  rw [checkedSet] at written
  split at written
  · rename_i lt
    rw [← Option.some.inj written, get_set Y ⟨id k, lt⟩ i v, inv i]
    rcases Nat.lt_trichotomy i.val k with before | here | behind
    · rw [if_neg fun eq => Nat.ne_of_lt before (congrArg Fin.val eq), if_pos before, if_pos (by omega)]
    · rw [if_pos (Fin.ext here), if_pos (by omega)]
    · rw [if_neg fun eq => Nat.ne_of_gt behind (congrArg Fin.val eq), if_neg (by omega), if_neg (by omega)]
  · cases written

/-- **A wide array computes zeros.** Whatever the matrices and their shapes are, the cells of the last column
never hold an activation and a weight at once, and a run that stays inside its arrays writes zeros. -/
theorem systolicRun_zeros {n : Nat} (foundInput foundWeight : Nat → R) (some_rows : 1 ≤ rows) (wide : 2 ≤ cols)
    (square : rows ≤ cols) (max : cols ≤ maxSystolicSize) (activations weights : Int → Option R) (M N K : Int)
    (result : Vector R n) :
    (∀ t worker fed, systolicWorker foundInput foundWeight rows cols activations weights M N K t = some worker →
      systolicFeed activations weights M N K worker t = some fed →
        ∀ (i : Fin rows) (j : Fin cols), j.val + 1 = cols → fed.activation i j = 0 ∨ fed.weight i j = 0) ∧
    (∀ result', systolicRun foundInput foundWeight rows cols activations weights M N K result = some result' →
      ∀ i : Fin n, result'.get i = if i.val < N then 0 else result.get i) ∧
    (Inside rows n activations weights M N K →
      ∃ result', systolicRun foundInput foundWeight rows cols activations weights M N K result = some result') := by
  have size : 1 ≤ rows ∧ rows ≤ maxSystolicSize := ⟨some_rows, square.trans max⟩
  have size' : 1 ≤ cols ∧ cols ≤ maxSystolicSize := ⟨Nat.le_of_lt wide, max⟩
  have zero {worker : SystolicArray R rows cols} {t i : Nat} {v : R} (quiet : Quiet t worker)
      (read : accumulatorAt worker i (cols - 1) = some v) : v = 0 := by
    rw [accumulatorAt] at read
    split at read
    · rw [dif_pos (by omega)] at read
      rw [← Option.some.inj read]
      exact quiet.accumulator _ _ (by dsimp only; omega) (by dsimp only; omega)
    · exact nomatch read
  refine ⟨fun t worker fed reached feed i j last => ?_, fun result' written i => ?_, fun inside => ?_⟩
  · exact ((systolicWorker_quiet reached).feed feed).idle i j (by omega) (by omega)
  · rw [systolicRun_eq foundInput foundWeight size size'] at written
    obtain ⟨worker, reached, written⟩ := Option.bind_eq_some_iff.1 written
    rw [get_fill_range (fun i v read => zero (systolicWorker_quiet reached) read) written i]
    exact if_congr (by omega) rfl rfl
  · obtain ⟨worker, reached⟩ := inside.worker foundInput foundWeight size size'
    obtain ⟨result', filled, -⟩ := fill_eq (List.range N.toNat) id (fun i => accumulatorAt worker i (cols - 1))
      (fun _ => (0 : R)) result (fun i mem => by have := inside.room; have := List.mem_range.1 mem; exact (by omega : i < n))
      fun i mem => by
        have outputs := inside.outputs
        have lt := List.mem_range.1 mem
        have read : accumulatorAt worker i (cols - 1) = some (worker.accumulator ⟨i, by omega⟩ ⟨cols - 1, by omega⟩) := by
          rw [accumulatorAt, dif_pos (by omega), dif_pos (by omega)]
        rw [read, zero (systolicWorker_quiet reached) read]
    exact ⟨result', by rw [systolicRun_eq foundInput foundWeight size size', reached, Option.bind_some, filled]⟩

/-- The entries of an array. -/
def entries (l : List R) (k : Int) : Option R := if k < 0 then none else l[k.toNat]?

/-- A product of two rows and two columns. -/
theorem systolicRun_zeros_two :
    systolicRun (fun _ => (9 : Int)) (fun _ => 9) 2 2 (entries [1, 2, 3, 4]) (entries [5, 6, 7, 8]) 2 2 2 #v[9, 9] =
      some #v[0, 0] := by
  obtain ⟨-, zeros, some⟩ := systolicRun_zeros (fun _ => (9 : Int)) (fun _ => 9) (by decide : 1 ≤ 2)
    (by decide : 2 ≤ 2) (by decide) (by decide) (entries [1, 2, 3, 4]) (entries [5, 6, 7, 8]) 2 2 2 #v[9, 9]
  have small : ∀ i : Nat, (i : Int) < 2 → i = 0 ∨ i = 1 := by omega
  have inside : Inside 2 2 (entries ([1, 2, 3, 4] : List Int)) (entries [5, 6, 7, 8]) 2 2 2 := by
    refine ⟨by decide, by decide, by decide, by decide, ?_, ?_, ?_⟩
    · rintro i j row col
      rcases small i row with rfl | rfl <;> rcases small j col with rfl | rfl <;> decide
    · rintro i j row col
      rcases small i row with rfl | rfl <;> rcases small j col with rfl | rfl <;> decide
    · rintro i j row col
      rcases small i row with rfl | rfl <;> rcases small j col with rfl | rfl <;> decide
  obtain ⟨result', run⟩ := some inside
  rw [run]
  congr 1
  ext i lt
  have entry := zeros result' run ⟨i, lt⟩
  rw [if_pos (by dsimp only; omega)] at entry
  rcases small i (by omega) with rfl | rfl <;> exact entry

end Run

/-! ## Outputs in place -/

section OutputStationary
variable {R : Type} [CommRing R] {rows cols M N K : Nat}

/-- What the queue has for cycle `k`: the first row of the activations, and behind it what was there. -/
def rowInput (foundInput : Nat → R) (rows cols : Nat) (activations : Vector R (M * K)) (k : Nat) : R :=
  if k < min cols K then activations[k]?.getD 0 else if k < rows then 0 else foundInput k

/-- The weight that is in the first cell of row `i` in cycle `c`. -/
def columnWeight (weights : Vector R (K * N)) (i c : Nat) : R :=
  if i ≤ c ∧ c - i < K then weights[(c - i) * N + i]?.getD 0 else 0

/-- What is fed to place `j` of the queue in cycle `c`. -/
def skewedInput (activations : Vector R (M * K)) (c j : Nat) : R :=
  if j ≤ c ∧ c - j < M then activations[(c - j) * K + j]?.getD 0 else 0

/-- After feeding, entry `k` of the queue is the activation in row `c - k` and column `k`, or zero. -/
theorem feedSkewedInput_some (activations : Vector R (M * K)) (c : Nat) (fits : cols ≤ maxSystolicSize)
    {sa : SystolicArray R rows cols} (size : sa.inputFifo.length = maxSystolicSize) :
    ∃ l, feedSkewedInput activations c sa = some { sa with inputFifo := l } ∧ l.length = maxSystolicSize ∧
      ∀ k, l[k]? = if k < min cols K then some (skewedInput activations c k) else sa.inputFifo[k]? := by
  have rounds : ∃ sa', feedSkewedInput activations c sa = some sa' ∧
      ∃ l, sa' = { sa with inputFifo := l } ∧ l.length = maxSystolicSize ∧
        ∀ k, l[k]? = if k < min cols K then some (skewedInput activations c k) else sa.inputFifo[k]? := by
    refine foldlM_range (fun i s => ∃ l, s = { sa with inputFifo := l } ∧ l.length = maxSystolicSize ∧
      ∀ k, l[k]? = if k < i then some (skewedInput activations c k) else sa.inputFifo[k]?) ?_
      ⟨sa.inputFifo, rfl, size, fun k => (if_neg (Nat.not_lt_zero k)).symm⟩
    rintro j s lt ⟨l, rfl, len, entry⟩
    have write : ∀ v, writeInput { sa with inputFifo := l } j v = some { sa with inputFifo := l.set j v } := by
      intro v
      rw [writeInput, writeAt_eq (by rw [len]; omega)]
      rfl
    have value : (if j ≤ c ∧ c - j < M then do
        let v ← activations[(c - j) * K + j]?
        writeInput { sa with inputFifo := l } j v
      else writeInput { sa with inputFifo := l } j 0) =
        some { sa with inputFifo := l.set j (skewedInput activations c j) } := by
      rw [skewedInput]
      split
      · rename_i row
        have found := getElem?_cell activations ⟨c - j, row.2⟩ ⟨j, by omega⟩
        dsimp only at found
        rw [found, Option.bind_eq_bind, Option.bind_some, write, Option.getD_some]
      · exact write 0
    refine ⟨_, value, _, rfl, by rw [List.length_set, len], fun k => ?_⟩
    rw [List.getElem?_set, entry k]
    by_cases here : j = k
    · subst here
      rw [if_pos rfl, if_pos (by omega), if_pos (Nat.lt_succ_self j)]
    · rw [if_neg here]
      exact if_congr (by omega) rfl rfl
  obtain ⟨sa', loop, l, rfl, len, entry⟩ := rounds
  exact ⟨l, loop, len, entry⟩

/-- After feeding, the first column has in row `i` the weight in row `c - i` and column `i`, where there is one. -/
theorem feedSkewedWeight_some (weights : Vector R (K * N)) (c : Nat) (sa : SystolicArray R rows cols) :
    ∃ w, feedSkewedWeight weights c sa = some { sa with weight := w } ∧ ∀ i j, w i j =
      if (i.val < N ∧ j.val = 0) ∧ i.val ≤ c ∧ c - i.val < K then columnWeight weights i.val c
      else sa.weight i j := by
  have rounds : ∃ sa', feedSkewedWeight weights c sa = some sa' ∧
      ∃ w, sa' = { sa with weight := w } ∧ ∀ i j, w i j =
        if (i.val < min rows N ∧ j.val = 0) ∧ i.val ≤ c ∧ c - i.val < K then columnWeight weights i.val c
        else sa.weight i j := by
    refine foldlM_range (fun n s => ∃ w, s = { sa with weight := w } ∧ ∀ i j, w i j =
      if (i.val < n ∧ j.val = 0) ∧ i.val ≤ c ∧ c - i.val < K then columnWeight weights i.val c
      else sa.weight i j) ?_
      ⟨sa.weight, rfl, fun i j => (if_neg (by omega)).symm⟩
    rintro n s lt ⟨w, rfl, entry⟩
    split
    · rename_i row
      have found := getElem?_cell weights ⟨c - n, row.2⟩ ⟨n, by omega⟩
      dsimp only at found
      refine ⟨_, by rw [found]; rfl, _, rfl, fun i j => ?_⟩
      dsimp only [setWeight]
      split
      · rename_i here
        rw [if_pos ⟨⟨by omega, here.2⟩, by rw [here.1]; exact row⟩, here.1, columnWeight, if_pos row, found,
          Option.getD_some]
      · rename_i other
        rw [entry i j]
        exact if_congr (by omega) rfl rfl
    · rename_i none
      refine ⟨_, rfl, w, rfl, fun i j => ?_⟩
      rw [entry i j]
      refine if_congr ⟨fun h => ⟨⟨by omega, h.1.2⟩, h.2⟩, fun h => ⟨⟨?_, h.1.2⟩, h.2⟩⟩ rfl rfl
      rcases Nat.lt_succ_iff_lt_or_eq.1 h.1.1 with lt | eq
      · exact lt
      · rw [eq] at h
        exact absurd h.2 none
  obtain ⟨sa', loop, w, rfl, entry⟩ := rounds
  refine ⟨w, loop, fun i j => (entry i j).trans (if_congr ?_ rfl rfl)⟩
  have := i.isLt
  omega

/-- What is in the array before cycle `t`: one row of activations on its way, and weights in the first column. -/
structure Streaming (foundInput : Nat → R) (activations : Vector R (M * K)) (weights : Vector R (K * N)) (t : Nat)
    (sa : SystolicArray R rows cols) : Prop extends Queues t sa where
  unfed : ∀ k, min cols K ≤ k → k < maxSystolicSize →
    sa.inputFifo[k]? = some (if k < rows then 0 else foundInput k)
  activation : ∀ i j, j.val = 0 →
    sa.activation i j = if t = 0 then 0 else rowInput foundInput rows cols activations (t - 1)
  noWeight : ∀ i j, 0 < j.val → sa.weight i j = 0
  weight : ∀ i j, j.val = 0 → i.val < N → ¬ (i.val ≤ t ∧ t - i.val < K) → sa.weight i j = 0
  noSum : ∀ i j, 0 < j.val → sa.accumulator i j = 0
  sum : ∀ i j, j.val = 0 → i.val < N → sa.accumulator i j = ∑ c ∈ Finset.range t,
    (if c = 0 then 0 else rowInput foundInput rows cols activations (c - 1)) * columnWeight weights i c

variable {foundInput : Nat → R} {activations : Vector R (M * K)} {weights : Vector R (K * N)}

/-- One cycle of the run with outputs in place. -/
theorem Streaming.next {t : Nat} {sa : SystolicArray R rows cols} (h : Streaming foundInput activations weights t sa)
    (lt : t < maxSystolicSize) (fits : cols ≤ maxSystolicSize) (pos : 0 < M) :
    ∃ sa', outputStationaryCycle activations weights sa t = some sa' ∧
      Streaming foundInput activations weights (t + 1) sa' := by
  obtain ⟨l, fed, len, entry⟩ := feedSkewedInput_some activations t fits h.inputs
  obtain ⟨w, fed', cell⟩ := feedSkewedWeight_some weights t { sa with inputFifo := l }
  have taken : l[t]? = some (rowInput foundInput rows cols activations t) := by
    rw [entry t, rowInput]
    split
    · rw [skewedInput, if_pos ⟨Nat.le_refl t, by omega⟩, Nat.sub_self, Nat.zero_mul, Nat.zero_add]
    · rename_i outside
      exact h.unfed t (Nat.not_lt.1 outside) lt
  have column : ∀ i j, j.val = 0 → i.val < N → w i j = columnWeight weights i t := by
    intro i j first inside
    rw [cell i j]
    split
    · rfl
    · rename_i other
      have none : ¬ (i.val ≤ t ∧ t - i.val < K) := fun row => other ⟨⟨inside, first⟩, row⟩
      exact (h.weight i j first inside none).trans (if_neg none).symm
  have others : ∀ i j, 0 < j.val → w i j = 0 := by
    intro i j inner
    rw [cell i j, if_neg (by omega)]
    exact h.noWeight i j inner
  have queues : Queues t { sa with inputFifo := l, weight := w } := ⟨len, h.tops, h.inputHead, h.weightHead⟩
  refine ⟨_, ?_, queues.next (rowInput foundInput rows cols activations t), fun k le bound => ?_, fun i j first => ?_,
    fun i j inner => ?_, fun i j first inside none => ?_, fun i j inner => ?_, fun i j first inside => ?_⟩
  · rw [outputStationaryCycle, fed, Option.bind_eq_bind, Option.bind_some, fed', Option.bind_some]
    exact systolicCycle_eq queues taken
  · exact (entry k).trans ((if_neg (Nat.not_lt.2 le)).trans (h.unfed k le bound))
  · exact if_pos first
  · dsimp only [advanced]
    split
    · rfl
    · exact others (before i) j inner
  · dsimp only [advanced]
    split
    · rfl
    · rename_i lower
      rw [column (before i) j first (by show i.val - 1 < N; omega)]
      exact if_neg (by show ¬ (i.val - 1 ≤ t ∧ t - (i.val - 1) < K); omega)
  · dsimp only [advanced]
    rw [h.noSum i j inner, others i j inner, mul_zero, add_zero]
  · dsimp only [advanced]
    rw [h.sum i j first inside, column i j first inside, h.activation i j first, Finset.sum_range_succ]

/-- **The array sees one row of the activations,** a cycle later than its first weights; the other columns stay empty. -/
theorem systolicRunOutputStationary_eq (foundInput foundWeight : Nat → R) (size : 1 ≤ rows ∧ rows ≤ maxSystolicSize)
    (size' : 1 ≤ cols ∧ cols ≤ maxSystolicSize) (pos : 0 < M) (short : M + N + K ≤ 18)
    (activations : Vector R (M * K)) (weights : Vector R (K * N)) (result : Vector R (N * M)) :
    ∃ result', systolicRunOutputStationary foundInput foundWeight rows cols activations weights result = some result' ∧
      ∀ (i : Fin N) (j : Fin M), result'.get (cell i j) =
        if i.val < rows ∧ j.val < cols then
          if j.val = 0 then ∑ k ∈ Finset.range (M + N + K - 3),
            rowInput foundInput rows cols activations k * columnWeight weights i (k + 1) else 0
        else result.get (cell i j) := by
  obtain ⟨sa, created⟩ : ∃ sa, systolicArrayCreate foundInput foundWeight rows cols = some sa :=
    ⟨_, if_neg (by omega)⟩
  have start : Streaming foundInput activations weights 0 sa := by
    have queues := queues_create created
    rw [systolicArrayCreate, if_neg (by omega)] at created
    obtain rfl := Option.some.inj created
    refine ⟨queues, fun k _ lt => ?_, fun _ _ _ => rfl, fun _ _ _ => rfl, fun _ _ _ _ _ => rfl, fun _ _ _ => rfl,
      fun _ _ _ _ => rfl⟩
    rw [List.getElem?_map, List.getElem?_range lt]
    rfl
  obtain ⟨last, loop, stream⟩ := foldlM_range (n := M + N + K - 2) (Streaming foundInput activations weights)
    (fun t s lt h => h.next (by rw [maxSystolicSize]; omega) size'.2 pos) start
  let output (i : Fin N) (j : Fin M) : R := if j.val = 0 then ∑ k ∈ Finset.range (M + N + K - 3),
    rowInput foundInput rows cols activations k * columnWeight weights i (k + 1) else 0
  have read : ∀ (i : Fin (min N rows)) (j : Fin (min M cols)), accumulatorAt last i.val j.val =
      some (output ⟨0 + i.val, by omega⟩ ⟨0 + j.val, by omega⟩) := by
    intro i j
    rw [accumulatorAt, dif_pos (by omega), dif_pos (by omega)]
    congr 1
    by_cases first : j.val = 0
    · rw [stream.sum _ _ first (by dsimp only; omega)]
      dsimp only [output]
      rw [if_pos (by omega), Nat.zero_add]
      obtain ⟨T, eq⟩ : ∃ T, M + N + K - 2 = T := ⟨_, rfl⟩
      have less : M + N + K - 3 = T - 1 := by omega
      rw [eq, less]
      cases T with
      | zero => rfl
      | succ T => rw [Finset.sum_range_succ', if_pos rfl, zero_mul, add_zero]; rfl
    · rw [stream.noSum _ _ (by dsimp only; omega)]
      exact (if_neg (by dsimp only; omega)).symm
  obtain ⟨Y, filled, entry⟩ := fill_block (fun p => p.1 * M + p.2) (fun p => accumulatorAt last p.1 p.2)
    (r := 0) (c := 0) (a := min N rows) (b := min M cols) (by omega) (by omega)
    (fun p => by rw [Nat.zero_add, Nat.zero_add]) output read result
  refine ⟨Y, ?_, fun i j => (entry i j).trans (if_congr (by omega) rfl rfl)⟩
  rw [systolicRunOutputStationary, created]
  dsimp only
  rw [loop, Option.bind_eq_bind, Option.bind_some, filled]

theorem systolicRunOutputStationary_eq_two :
    ∃ result', systolicRunOutputStationary (M := 2) (N := 2) (K := 2) (fun _ => (9 : Int)) (fun _ => 9) 2 2
      ⟨#[1, 2, 3, 4], rfl⟩ ⟨#[5, 6, 7, 8], rfl⟩ ⟨#[0, 0, 0, 0], rfl⟩ = some result' ∧
      ∀ (i j : Fin 2), result'.get (cell i j) =
        if i.val < 2 ∧ j.val < 2 then
          if j.val = 0 then ∑ k ∈ Finset.range 3,
            rowInput (M := 2) (K := 2) (fun _ => (9 : Int)) 2 2 ⟨#[1, 2, 3, 4], rfl⟩ k *
              columnWeight (N := 2) (K := 2) ⟨#[5, 6, 7, 8], rfl⟩ i (k + 1) else 0
        else (⟨#[0, 0, 0, 0], rfl⟩ : Vector Int (2 * 2)).get (cell i j) :=
  systolicRunOutputStationary_eq _ _ (by decide) (by decide) (by decide) (by decide) _ _ _

end OutputStationary

end MiniHardware.Accel.Systolic
