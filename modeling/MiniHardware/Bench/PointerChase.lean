import Mathlib.Algebra.Order.Field.Rat
import MiniHardware.Lib.Index
import MiniHardware.Lib.OneCycle
import MiniHardware.Lib.Trace

/-!
# The pointer chase (`lake_test_mini/src/mem_bandwidth.c`)

`bw_run_pointer_chase` links the elements of an array in a ring and shuffles the links, so that a
chase through them jumps about in the array. A pointer is the index of the element it points to, and
the results of `xorshift64_next` are a sequence of words. The shuffle can break the ring up: it
stays one cycle exactly if no draw closes a loop over the cells that are already settled
(`pointer_chase_iff`).
-/

namespace MiniHardware.Bench
open Lib

inductive BwTestOperation where
  | copy | scale | add | triad | pointer | gather | scatter
deriving DecidableEq

structure BwDataPoint where
  operation : BwTestOperation
  arraySizeBytes : UInt64
  numIterations : UInt64
  bestBwMbps : ℚ
  avgBwMbps : ℚ
  minBwMbps : ℚ
  bwStddevMbps : ℚ
  effectiveClockMhz : ℚ
  latencyNs : ℚ
  bytesPerCycle : ℚ

/-- `array_size_bytes / sizeof(void *)`. -/
def numPtrs (arraySizeBytes : UInt64) : Nat := arraySizeBytes.toNat / 8

theorem numPtrs_pos {arraySizeBytes : UInt64} (large : ¬ arraySizeBytes < 256) : 0 < numPtrs arraySizeBytes := by
  rw [UInt64.lt_iff_toNat_lt] at large
  have limit : (256 : UInt64).toNat = 256 := rfl
  rw [numPtrs]
  omega

section Array
variable {n : Nat}

/-- Every element points to the next, the last to the first. -/
def linkNext (pos : 0 < n) : Vector (Fin n) n := Vector.ofFn fun i => ⟨(i.val + 1) % n, Nat.mod_lt _ pos⟩

/-- `xorshift64_next() % (i + 1)`. -/
def drawn (i : Fin n) (draw : UInt64) : Fin n :=
  ⟨draw.toNat % (i.val + 1), Nat.lt_of_lt_of_le (Nat.mod_lt _ (Nat.succ_pos _)) i.isLt⟩

/-- The body of the shuffle: cells `i` and `j` are swapped. -/
def shuffleStep (pointers : Vector (Fin n) n) (op : Fin n × UInt64) : Vector (Fin n) n :=
  pointers.swap op.1.val (drawn op.1 op.2).val op.1.isLt (drawn op.1 op.2).isLt

/-- The rounds of the shuffle from `i` down to 1, each with its draw; the round of cell `i` is call
number `n - 1 - i` of the generator. -/
def rounds (draws : Nat → UInt64) : (i : Nat) → i < n → List (Fin n × UInt64)
  | 0, _ => []
  | i + 1, h => (⟨i + 1, h⟩, draws (n - 1 - (i + 1))) :: rounds draws i (Nat.lt_of_succ_lt h)

/-- The pointer array that is chased. -/
def chasePointers (draws : Nat → UInt64) (pos : 0 < n) : Vector (Fin n) n :=
  run shuffleStep (linkNext pos) (rounds draws (n - 1) (Nat.sub_lt pos Nat.one_pos))

/-- The element `p` points to after `k` rounds of the chase; the next round reads it. -/
def chase (pointers : Vector (Fin n) n) (pos : 0 < n) : Nat → Fin n
  | 0 => pointers.get ⟨0, pos⟩
  | k + 1 => pointers.get (chase pointers pos k)

end Array

/-- The latency estimate for the cache level. -/
def chaseLatency (arraySizeBytes : UInt64) : ℚ :=
  let sizeKb := arraySizeBytes / 1024
  if sizeKb ≤ 32 then 1
  else if sizeKb ≤ 256 then 4
  else if sizeKb ≤ 60 * 1024 then 12
  else 80

/-- `bw_run_pointer_chase`, with the pointer it ends at; `NULL` is `none`. -/
def bwRunPointerChase (draws : Nat → UInt64) (arraySizeBytes numChases : UInt64) :
    Option (Fin (numPtrs arraySizeBytes) × BwDataPoint) :=
  if large : arraySizeBytes < 256 then none
  else
    let pointers := chasePointers draws (numPtrs_pos large)
    let p := chase pointers (numPtrs_pos large) numChases.toNat
    let latencyNs := chaseLatency arraySizeBytes
    let bestBwMbps : ℚ := arraySizeBytes.toNat / (latencyNs * (1 / 10 ^ 9)) / 10 ^ 6
    some (p,
      { operation := .pointer
        arraySizeBytes := arraySizeBytes
        numIterations := numChases
        bestBwMbps := bestBwMbps
        avgBwMbps := bestBwMbps
        minBwMbps := 0
        bwStddevMbps := 0
        effectiveClockMhz := 0
        latencyNs := latencyNs
        bytesPerCycle := 0 })

/-! ## What the rounds do -/

section Rounds
variable {n : Nat}

theorem get_shuffleStep (a : Vector (Fin n) n) (i : Fin n) (draw : UInt64) (k : Fin n) :
    (shuffleStep a (i, draw)).get k =
      if k = i then a.get (drawn i draw) else if k = drawn i draw then a.get i else a.get k := by
  show (Vector.swap _ _ _ _ _)[k.val] = _
  rw [Vector.getElem_swap]
  simp only [Fin.val_inj]
  rfl

theorem drawn_le (i : Fin n) (draw : UInt64) : drawn i draw ≤ i := Nat.le_of_lt_succ (Nat.mod_lt _ (Nat.succ_pos _))

/-- A round leaves the cells above it alone. -/
theorem get_shuffleStep_above {a : Vector (Fin n) n} {i k : Fin n} (draw : UInt64) (lt : i < k) :
    (shuffleStep a (i, draw)).get k = a.get k := by
  have le := drawn_le i draw
  rw [get_shuffleStep, if_neg (ne_of_gt lt), if_neg (ne_of_gt (lt_of_le_of_lt le lt))]

theorem shuffleStep_injective {a : Vector (Fin n) n} (inj : Function.Injective a.get) (op : Fin n × UInt64) :
    Function.Injective (shuffleStep a op).get := by
  have swap : (shuffleStep a op).get = a.get ∘ Equiv.swap op.1 (drawn op.1 op.2) := by
    funext k
    rw [get_shuffleStep, Function.comp_apply, Equiv.swap_apply_def]
    split
    · rfl
    · split <;> rfl
  rw [swap]
  exact inj.comp (Equiv.injective _)

/-- The rounds up to `i` settle the cells above `i` no more. -/
theorem get_rounds_above (draws : Nat → UInt64) {i : Nat} (h : i < n) (a : Vector (Fin n) n) {k : Fin n}
    (lt : i < k.val) : (run shuffleStep a (rounds draws i h)).get k = a.get k := by
  induction i generalizing a with
  | zero => rfl
  | succ i ih =>
    rw [rounds, run_cons, ih (Nat.lt_of_succ_lt h) _ (Nat.lt_of_succ_lt lt)]
    exact get_shuffleStep_above _ lt

theorem linkNext_injective (pos : 0 < n) : Function.Injective (linkNext pos).get := by
  intro i j eq
  have value (i : Fin n) : ((linkNext pos).get i).val = (i.val + 1) % n := by
    rw [linkNext, get_ofFn]
  have next := (succ_mod_eq i.isLt).1 (value i).symm
  rw [eq] at next
  have next' := (succ_mod_eq j.isLt).1 (value j).symm
  apply Fin.ext
  omega

theorem chasePointers_injective (draws : Nat → UInt64) (pos : 0 < n) :
    Function.Injective (chasePointers draws pos).get :=
  run_invariant (motive := fun a : Vector (Fin n) n => Function.Injective a.get)
    (fun _ op inj => shuffleStep_injective inj op) (linkNext_injective pos) _

/-! ## One cycle -/

/-- Draw `draw` for cell `i` closes a loop: the pointer it brings leads back to `i` through cells above
it, which are settled. -/
def ClosesLoop (a : Vector (Fin n) n) (op : Fin n × UInt64) : Prop :=
  LeadsTo a.get op.1 (a.get (drawn op.1 op.2))

/-- A round closes a loop exactly if one is there afterwards. -/
theorem leadsTo_shuffleStep (a : Vector (Fin n) n) (op : Fin n × UInt64) :
    LeadsTo (shuffleStep a op).get op.1 ((shuffleStep a op).get op.1) ↔ ClosesLoop a op := by
  have here : (shuffleStep a op).get op.1 = a.get (drawn op.1 op.2) := by
    rw [get_shuffleStep, if_pos rfl]
  rw [here, ClosesLoop]
  exact leadsTo_congr (fun k lt => get_shuffleStep_above op.2 lt) _

/-- The rounds leave no loop behind exactly if none of them closes one. -/
theorem no_loop_iff (draws : Nat → UInt64) {i : Nat} (h : i < n) (a : Vector (Fin n) n) :
    (∀ m : Fin n, 0 < m.val → m.val ≤ i → ¬ LeadsTo (run shuffleStep a (rounds draws i h)).get m
        ((run shuffleStep a (rounds draws i h)).get m)) ↔
      Guarded shuffleStep (fun a op => ¬ ClosesLoop a op) a (rounds draws i h) := by
  induction i generalizing a with
  | zero => exact ⟨fun _ => trivial, fun _ m pos le => absurd pos (Nat.not_lt.2 le)⟩
  | succ i ih =>
    have rest := ih (Nat.lt_of_succ_lt h) (shuffleStep a (⟨i + 1, h⟩, draws (n - 1 - (i + 1))))
    have settled (k : Fin n) (lt : i < k.val) := get_rounds_above draws (Nat.lt_of_succ_lt h)
      (shuffleStep a (⟨i + 1, h⟩, draws (n - 1 - (i + 1)))) lt
    have here := leadsTo_shuffleStep a (⟨i + 1, h⟩, draws (n - 1 - (i + 1)))
    rw [rounds, run_cons, Guarded, ← rest, ← here]
    generalize run shuffleStep _ (rounds draws i _) = final at settled ⊢
    have top : LeadsTo final.get ⟨i + 1, h⟩ (final.get ⟨i + 1, h⟩) ↔ _ :=
      leadsTo_congr (fun k lt => settled k (Nat.lt_of_succ_lt lt)) _
    rw [settled ⟨i + 1, h⟩ (Nat.lt_succ_self i)] at top
    rw [← top]
    constructor
    · intro none
      have last := none ⟨i + 1, h⟩ (Nat.succ_pos i) le_rfl
      rw [settled ⟨i + 1, h⟩ (Nat.lt_succ_self i)] at last
      exact ⟨last, fun m pos le => none m pos (Nat.le_succ_of_le le)⟩
    · rintro ⟨last, lower⟩ m pos le
      rcases Nat.lt_or_ge i m.val with lt | ge
      · obtain rfl : m = ⟨i + 1, h⟩ := Fin.ext (Nat.le_antisymm le lt)
        rw [settled _ lt]
        exact last
      · exact lower m pos ge

end Rounds

/-- One cycle through the array, which a chase of as many steps as there are elements goes round once. -/
structure WholeArray {n : Nat} (a : Vector (Fin n) n) (pos : 0 < n) : Prop where
  cycle : OneCycle a.get
  visits : ∀ i, ((List.range n).map (chase a pos)).count i = 1

theorem chase_eq {n : Nat} (a : Vector (Fin n) n) (pos : 0 < n) (k : Nat) : chase a pos k = a.get^[k + 1] ⟨0, pos⟩ := by
  induction k with
  | zero => rfl
  | succ k ih => rw [chase, ih, ← Function.iterate_succ_apply' a.get]

theorem wholeArray_iff {n : Nat} {a : Vector (Fin n) n} (inj : Function.Injective a.get) (pos : 0 < n) :
    WholeArray a pos ↔ OneCycle a.get := by
  refine ⟨fun whole => whole.cycle, fun one => ⟨one, fun i => ?_⟩⟩
  have once := one.count_visits inj ⟨0, pos⟩ i
  rw [Fintype.card_fin] at once
  rw [← once]
  congr 1
  exact List.map_congr_left fun k _ => chase_eq a pos k

/-- For every array of at least 256 bytes and all draws, the pointers form one cycle through the whole
array if and only if no draw closes a loop. -/
theorem pointer_chase_iff (arraySizeBytes : UInt64) (large : ¬ arraySizeBytes < 256) (draws : Nat → UInt64) :
    WholeArray (chasePointers draws (numPtrs_pos large)) (numPtrs_pos large) ↔
      Guarded shuffleStep (fun a op => ¬ ClosesLoop a op) (linkNext (numPtrs_pos large))
        (rounds draws (numPtrs arraySizeBytes - 1) (Nat.sub_lt (numPtrs_pos large) Nat.one_pos)) := by
  have pos := numPtrs_pos large
  have inj := chasePointers_injective draws pos
  have bottom (x : Fin (numPtrs arraySizeBytes)) : ⟨0, pos⟩ ≤ x := Nat.zero_le x.val
  rw [wholeArray_iff inj pos, one_cycle_iff bottom inj,
    ← no_loop_iff draws (Nat.sub_lt pos Nat.one_pos)]
  exact ⟨fun none m lt _ => none m lt, fun none m lt => none m lt (Nat.le_sub_one_of_lt m.isLt)⟩

theorem pointer_chase_iff_256 :
    WholeArray (chasePointers (fun _ => 0) (numPtrs_pos (show ¬ (256 : UInt64) < 256 by decide)))
        (numPtrs_pos (show ¬ (256 : UInt64) < 256 by decide)) ↔
      Guarded shuffleStep (fun a op => ¬ ClosesLoop a op) (linkNext (numPtrs_pos (show ¬ (256 : UInt64) < 256 by decide)))
        (rounds (fun _ => 0) (numPtrs 256 - 1) (Nat.sub_lt (numPtrs_pos (by decide)) Nat.one_pos)) :=
  pointer_chase_iff 256 (by decide) fun _ => 0

/-- Cell 31 draws cell 0 and every other cell draws itself: element 0 then points to itself. -/
theorem pointer_chase_stays :
    ¬ WholeArray
      (chasePointers (fun k => if k = 0 then 0 else UInt64.ofNat (31 - k)) (numPtrs_pos (show ¬ (256 : UInt64) < 256 by decide)))
      (numPtrs_pos (by decide)) := by
  intro whole
  obtain ⟨k, reach⟩ := whole.cycle (⟨0, by decide⟩ : Fin (numPtrs 256)) ⟨1, by decide⟩
  rw [Function.iterate_fixed (by decide +kernel)] at reach
  cases reach

end MiniHardware.Bench
