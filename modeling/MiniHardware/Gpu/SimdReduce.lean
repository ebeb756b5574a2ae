import Mathlib.Algebra.BigOperators.Ring.Finset
import Mathlib.Tactic.Ring
import MiniHardware.Gpu.Simd

/-!
# When reductions and scans are right (`mini-gpu-arch/src/simd.c`)

`simd_vreduce` gives the value of a tree over the kept lanes, in which an inactive lane counts as zero.
Each operation is compared with its fold over the active lanes from there.
-/

namespace MiniHardware.Gpu
open Lib

/-! ## The loops are a tree -/

section Loops
variable {op : ReduceOp} {active : Nat → Bool} {limit : Nat} {w : Nat → ℚ}

/-- A pass over the rest of the range brings every lane on the next level to its subtree. -/
theorem reduceRow_tree {k : Nat} (pos : 0 < 2 ^ k) {i : Nat} {works : Nat → ℚ} (aligned : 2 ^ (k + 1) ∣ i)
    (before : ∀ j, i ≤ j → j < limit → 2 ^ k ∣ j →
      works j = treeValue limit (fun dst src => active dst || active src) (reduceMerge op) w k j)
    {j : Nat} (multiple : 2 ^ (k + 1) ∣ j) (inside : j < limit) :
    reduceRow op active limit (2 ^ k) pos i works j =
      if i ≤ j then treeValue limit (fun dst src => active dst || active src) (reduceMerge op) w (k + 1) j
      else works j := by
  have pow : 2 ^ (k + 1) = 2 ^ k * 2 := Nat.pow_succ 2 k
  have half : 2 ^ k ∣ 2 ^ (k + 1) := Nat.pow_dvd_pow 2 (Nat.le_succ k)
  -- between `i` and the next multiple there is only `i`
  have apart {i : Nat} (aligned : 2 ^ (k + 1) ∣ i) (le : i ≤ j) : j = i ∨ i + 2 ^ k * 2 ≤ j := by
    obtain ⟨a, rfl⟩ := aligned
    obtain ⟨b, rfl⟩ := multiple
    rcases Nat.lt_or_ge a b with lt | ge
    · right
      calc 2 ^ (k + 1) * a + 2 ^ k * 2 = 2 ^ (k + 1) * a + 2 ^ (k + 1) := by rw [← pow]
        _ = 2 ^ (k + 1) * (a + 1) := rfl
        _ ≤ 2 ^ (k + 1) * b := Nat.mul_le_mul_left _ lt
    · left
      exact Nat.le_antisymm (Nat.mul_le_mul_left _ ge) le
  fun_induction reduceRow op active limit (2 ^ k) pos i works with
  | case1 i works lt last =>
    split
    · rename_i le
      rcases apart aligned le with rfl | far
      · rw [treeValue, if_neg (by omega)]
        exact before j le inside (half.trans multiple)
      · omega
    · rfl
  | case2 i works lt more off ih =>
    rw [ih (Nat.dvd_add aligned (by rw [pow])) (fun j le => before j (by omega))]
    split
    · rw [if_pos (by omega)]
    · split
      · rename_i le
        obtain rfl : j = i := (apart aligned le).resolve_right (by omega)
        rw [treeValue, if_neg (by simp only [Bool.or_eq_true]; simp at off; simp [off])]
        exact before j le inside (half.trans multiple)
      · rfl
  | case3 i works lt more on works' ih =>
    have outside : ∀ j, i + 2 ^ k * 2 ≤ j → j < limit → 2 ^ k ∣ j → works' j =
        treeValue limit (fun dst src => active dst || active src) (reduceMerge op) w k j := by
      intro j le below div
      rw [← before j (by omega) below div]
      exact Function.update_of_ne (by omega) _ _
    rw [ih (Nat.dvd_add aligned (by rw [pow])) outside]
    split
    · rw [if_pos (by omega)]
    · split
      · rename_i le
        obtain rfl : j = i := (apart aligned le).resolve_right (by omega)
        have joined : active j || active (j + 2 ^ k) := by
          simpa [Bool.or_eq_true, Classical.or_iff_not_imp_left] using on
        rw [treeValue, if_pos ⟨by omega, joined⟩, ← before j le inside (half.trans multiple),
          ← before (j + 2 ^ k) (by omega) (by omega) (Nat.dvd_add (half.trans multiple) (Nat.dvd_refl _))]
        exact Function.update_self _ _ _
      · exact Function.update_of_ne (by omega) _ _
  | case4 i works done => rw [if_neg (by omega)]

/-- The passes end with the root of a tree over all lanes in lane 0. -/
theorem reduceRows_tree {stride : Nat} (pos : 0 < stride) (some : 0 < limit) {works : Nat → ℚ} {k : Nat}
    (pow : stride = 2 ^ k) (before : ∀ j < limit, 2 ^ k ∣ j →
      works j = treeValue limit (fun dst src => active dst || active src) (reduceMerge op) w k j) :
    ∃ m, limit ≤ 2 ^ m ∧ reduceRows op active limit stride pos works 0 =
      treeValue limit (fun dst src => active dst || active src) (reduceMerge op) w m 0 := by
  fun_induction reduceRows op active limit stride pos works generalizing k with
  | case1 stride pos works more ih =>
    subst pow
    refine ih (k := k + 1) (Nat.pow_succ 2 k).symm fun j lt div => ?_
    rw [reduceRow_tree pos (Nat.dvd_zero _) (fun j _ => before j) div lt, if_pos (Nat.zero_le j)]
  | case2 stride pos works done =>
    exact ⟨k, by omega, before 0 some (Nat.dvd_zero _)⟩

end Loops

/-- What a lane is copied as. -/
def laneValue (u : SIMDUnit) (data : Nat → ℚ) (j : Nat) : ℚ := if u.laneActive j then data j else 0

/-- `works[i]` before round `k`. -/
def laneTree (u : SIMDUnit) (op : ReduceOp) (data : Nat → ℚ) (limit k i : Nat) : ℚ :=
  treeValue limit (fun dst src => u.laneActive dst || u.laneActive src) (reduceMerge op) (laneValue u data) k i

/-- The lanes that `works[0]` is merged from. -/
def keptLanes (u : SIMDUnit) (limit k : Nat) : List Nat :=
  treeLanes limit (fun dst src => u.laneActive dst || u.laneActive src) k 0

section Lanes
variable {u : SIMDUnit} {op : ReduceOp} {data : Nat → ℚ} {limit : Nat}

/-- A call for at least one lane works on at least one lane. -/
theorem limit_pos (u : SIMDUnit) {n : Int} (pos : 1 ≤ n) : 0 < u.limit n := by
  have lanes := u.lanes_pos
  unfold SIMDUnit.limit
  split <;> omega

/-- The result of a reduction is the tree over the lanes, of some height that covers them. -/
theorem simdVreduce_tree (u : SIMDUnit) (op : ReduceOp) (data : Nat → ℚ) {n : Int} (pos : 1 ≤ n) :
    ∃ k, u.limit n ≤ 2 ^ k ∧ (simdVreduce u op data n).2 = laneTree u op data (u.limit n) k 0 := by
  unfold simdVreduce
  rw [if_neg (by omega)]
  exact reduceRows_tree Nat.one_pos (limit_pos u pos) (k := 0) rfl fun j _ _ => rfl

theorem laneTree_succ (k i : Nat) : laneTree u op data limit (k + 1) i =
    if i + 2 ^ k < limit ∧ (u.laneActive i || u.laneActive (i + 2 ^ k)) = true then
      reduceMerge op (laneTree u op data limit k i) (laneTree u op data limit k (i + 2 ^ k))
    else laneTree u op data limit k i := rfl

/-- The lanes at the leaves are those below the limit that are kept. -/
theorem mem_keptLanes {k j : Nat} (some : 0 < limit) (cover : limit ≤ 2 ^ k) :
    j ∈ keptLanes u limit k ↔ j < limit ∧ Kept u j := mem_treeLanes_zero some cover

theorem laneValue_active {j : Nat} (on : u.laneActive j = true) : laneValue u data j = data j := if_pos on

theorem laneValue_inactive {j : Nat} (off : u.laneActive j = false) : laneValue u data j = 0 :=
  if_neg (Bool.eq_false_iff.1 off)

/-- Where all lanes are active, none is lost. -/
theorem AllActive.kept (all : AllActive u limit) {j : Nat} (lt : j < limit) : Kept u j := by
  intro b _ _
  have le : j / 2 ^ b * 2 ^ b ≤ j := Nat.div_mul_le_self j (2 ^ b)
  dsimp only
  rw [all (j / 2 ^ b * 2 ^ b) (le.trans_lt lt), Bool.or_true]

/-- Else the first lane that is off is kept: those it merges into are on. -/
theorem exists_kept_inactive (not : ¬ AllActive u limit) : ∃ m < limit, u.laneActive m = false ∧ Kept u m := by
  have off : ∃ m, m < limit ∧ u.laneActive m = false := by
    unfold AllActive at not
    push Not at not
    obtain ⟨m, lt, ne⟩ := not
    exact ⟨m, lt, Bool.eq_false_of_not_eq_true ne⟩
  obtain ⟨lt, first⟩ := Nat.find_spec off
  refine ⟨Nat.find off, lt, first, fun b below _ => ?_⟩
  have le : Nat.find off / 2 ^ b * 2 ^ b ≤ Nat.find off := Nat.div_mul_le_self _ (2 ^ b)
  have pos : 0 < 2 ^ b := Nat.two_pow_pos b
  have before : Nat.find off / 2 ^ b * 2 ^ b - 2 ^ b < Nat.find off := by omega
  have on : u.laneActive (Nat.find off / 2 ^ b * 2 ^ b - 2 ^ b) = true := by
    apply Bool.eq_true_of_not_eq_false
    intro off'
    exact Nat.find_min off before ⟨before.trans lt, off'⟩
  dsimp only
  rw [on, Bool.true_or]

/-- The data of the active lanes below the limit. -/
theorem mem_activeData {x : ℚ} : x ∈ activeData u limit data ↔ ∃ j < limit, u.laneActive j = true ∧ data j = x := by
  unfold activeData
  rw [List.mem_map]
  constructor
  · rintro ⟨j, mem, eq⟩
    obtain ⟨lt, on⟩ := List.mem_filter.1 mem
    exact ⟨j, List.mem_range.1 lt, on, eq⟩
  · rintro ⟨j, lt, on, eq⟩
    exact ⟨j, List.mem_filter.2 ⟨List.mem_range.2 lt, on⟩, eq⟩

/-! ## Sums and products -/

/-- A sum over the leaves is one over the lanes that are kept. -/
theorem sum_keptLanes {M : Type*} [AddCommMonoid M] (f : Nat → M) {k : Nat} (some : 0 < limit) (cover : limit ≤ 2 ^ k) :
    ((keptLanes u limit k).map f).sum = ∑ j ∈ (Finset.range limit).filter (Kept u), f j := by
  have nodup : (keptLanes u limit k).Nodup := treeLanes_nodup k 0
  rw [← List.sum_toFinset f nodup]
  apply Finset.sum_congr _ fun _ _ => rfl
  ext j
  rw [List.mem_toFinset, Finset.mem_filter, Finset.mem_range]
  exact mem_keptLanes some cover

/-- An inactive lane adds nothing to the sum. -/
theorem sum_activeData : (activeData u limit data).sum = ∑ j ∈ Finset.range limit, laneValue u data j := by
  unfold activeData laneValue
  rw [← List.sum_toFinset data (List.nodup_range.filter _), ← Finset.sum_filter]
  apply Finset.sum_congr _ fun _ _ => rfl
  ext j
  rw [List.mem_toFinset, List.mem_filter, Finset.mem_filter, List.mem_range, Finset.mem_range]

theorem toExt_inj {x y : ℚ} : toExt x = toExt y ↔ x = y := by
  unfold toExt
  rw [WithBot.coe_inj, WithTop.coe_inj]

/-- The sum is right exactly if the active lanes that are dropped add up to zero. -/
theorem vreduce_sum {k : Nat} (some : 0 < limit) (cover : limit ≤ 2 ^ k) :
    toExt (laneTree u .sum data limit k 0) = foldSpec .sum (activeData u limit data) ↔ ReduceFits u limit data .sum := by
  have tree : laneTree u .sum data limit k 0 = ∑ j ∈ (Finset.range limit).filter (Kept u), laneValue u data j := by
    unfold laneTree
    rw [treeValue_foldr (reduceMerge .sum) 0 (fun a b c => add_assoc a b c) (fun a => zero_add a)
      (fun a => add_zero a), ← sum_keptLanes _ some cover, List.sum_eq_foldr, List.foldr_map]
    rfl
  have parts := Finset.sum_filter_add_sum_filter_not (Finset.range limit) (Kept u) (laneValue u data)
  have lost : ∑ j ∈ (Finset.range limit).filter (fun j => ¬ Kept u j), laneValue u data j =
      ∑ j ∈ (Finset.range limit).filter (fun j => u.laneActive j = true ∧ ¬ Kept u j), data j := by
    rw [Finset.sum_filter, Finset.sum_filter]
    apply Finset.sum_congr rfl
    intro j _
    unfold laneValue
    by_cases kept : Kept u j <;> simp [kept]
  unfold foldSpec
  dsimp only
  rw [toExt_inj, ← List.sum_eq_foldl, sum_activeData, tree, ← parts, ReduceFits, ← lost]
  exact left_eq_add

/-- The product is right exactly when every lane is active or an active lane holds zero. -/
theorem vreduce_prod {k : Nat} (some : 0 < limit) (cover : limit ≤ 2 ^ k) :
    toExt (laneTree u .prod data limit k 0) = foldSpec .prod (activeData u limit data) ↔
      ReduceFits u limit data .prod := by
  unfold foldSpec ReduceFits
  dsimp only
  rw [toExt_inj, ← List.prod_eq_foldl]
  by_cases all : AllActive u limit
  · refine iff_of_true ?_ (.inl all)
    have perm : (keptLanes u limit k).Perm ((List.range limit).filter u.laneActive) := by
      apply (List.perm_ext_iff_of_nodup (treeLanes_nodup k 0) (List.nodup_range.filter _)).2
      intro j
      rw [List.mem_filter, List.mem_range]
      exact (mem_keptLanes some cover).trans ⟨fun ⟨lt, _⟩ => ⟨lt, all j lt⟩, fun ⟨lt, _⟩ => ⟨lt, all.kept lt⟩⟩
    have same : (keptLanes u limit k).map (laneValue u data) = (keptLanes u limit k).map data := by
      apply List.map_congr_left
      intro j mem
      exact laneValue_active (all j ((mem_keptLanes some cover).1 mem).1)
    unfold laneTree
    rw [treeValue_foldr (reduceMerge .prod) 1 (fun a b c => mul_assoc a b c) (fun a => one_mul a)
      (fun a => mul_one a)]
    calc (keptLanes u limit k).foldr (fun j acc => laneValue u data j * acc) 1
        = ((keptLanes u limit k).map (laneValue u data)).prod := by rw [List.prod_eq_foldr, List.foldr_map]
      _ = (activeData u limit data).prod := by
        rw [same]
        exact (perm.map data).prod_eq
  · -- a lane that is off puts a zero into the product
    obtain ⟨m, lt, off, kept⟩ := exists_kept_inactive all
    have zero : laneTree u .prod data limit k 0 = 0 := by
      by_contra ne
      exact treeValue_of (P := fun x => x ≠ 0) (fun a b => mul_ne_zero_iff.1) ne m
        ((mem_keptLanes some cover).2 ⟨lt, kept⟩) (laneValue_inactive off)
    rw [zero, eq_comm, List.prod_eq_zero_iff, mem_activeData]
    exact (or_iff_right all).symm

/-! ## Least and greatest -/

section Fold
variable {β : Type*} [LinearOrder β]

theorem foldl_min_mem (a : β) (l : List β) : l.foldl min a = a ∨ l.foldl min a ∈ l := by
  induction l generalizing a with
  | nil => exact .inl rfl
  | cons x l ih =>
    rw [List.foldl_cons, List.mem_cons]
    rcases ih (min a x) with eq | mem
    · rw [eq]
      exact (min_choice a x).imp id .inl
    · exact .inr (.inr mem)

theorem le_foldl_min_iff (a c : β) (l : List β) : c ≤ l.foldl min a ↔ c ≤ a ∧ ∀ x ∈ l, c ≤ x := by
  induction l generalizing a with
  | nil => simp
  | cons x l ih => rw [List.foldl_cons, ih, le_min_iff, List.forall_mem_cons, and_assoc]

/-- A fold of `min` below its start is the least element. -/
theorem foldl_min_eq_iff (top : β) {r : β} (above : r ≤ top) (proper : r ≠ top) (l : List β) :
    l.foldl min top = r ↔ r ∈ l ∧ ∀ x ∈ l, r ≤ x := by
  constructor
  · intro eq
    refine ⟨?_, ((le_foldl_min_iff top r l).1 eq.ge).2⟩
    rcases foldl_min_mem top l with top' | mem
    · exact absurd (eq.symm.trans top') proper
    · rwa [eq] at mem
  · rintro ⟨mem, least⟩
    exact le_antisymm (((le_foldl_min_iff top _ l).1 le_rfl).2 r mem) ((le_foldl_min_iff top r l).2 ⟨above, least⟩)

end Fold

/-- The least of the kept lanes, zeros included, against the least of the active ones. -/
theorem least_iff {β : Type*} [LinearOrder β] {z r : β} {x : Nat → β}
    (attained : ∃ j < limit, Kept u j ∧ r = if u.laneActive j then x j else z)
    (least : ∀ j < limit, Kept u j → r ≤ if u.laneActive j then x j else z) :
    ((∃ j < limit, u.laneActive j = true ∧ x j = r) ∧ ∀ j < limit, u.laneActive j = true → r ≤ x j) ↔
      AllActive u limit ∨ ∃ j < limit, u.laneActive j = true ∧
        (∀ i < limit, u.laneActive i = true → x j ≤ x i) ∧ (x j = z ∨ x j < z ∧ Kept u j) := by
  obtain ⟨j₀, lt₀, kept₀, eq₀⟩ := attained
  by_cases all : AllActive u limit
  · refine iff_of_true ⟨⟨j₀, lt₀, all j₀ lt₀, ?_⟩, fun j lt on => ?_⟩ (.inl all)
    · rw [eq₀, if_pos (all j₀ lt₀)]
    · have le := least j lt (all.kept lt)
      rwa [if_pos on] at le
  · rw [or_iff_right all]
    obtain ⟨m, ltm, off, keptm⟩ := exists_kept_inactive all
    have low : r ≤ z := by
      have le := least m ltm keptm
      rwa [if_neg (Bool.eq_false_iff.1 off)] at le
    constructor
    · rintro ⟨⟨j, lt, on, rfl⟩, below⟩
      rcases low.eq_or_lt with eq | less
      · exact ⟨j, lt, on, below, .inl eq⟩
      · have on₀ : u.laneActive j₀ = true := by
          by_contra off₀
          rw [if_neg off₀] at eq₀
          exact less.ne eq₀
        rw [if_pos on₀] at eq₀
        rw [eq₀] at less below
        exact ⟨j₀, lt₀, on₀, below, .inr ⟨less, kept₀⟩⟩
    · rintro ⟨j, lt, on, below, value⟩
      have le : r ≤ x j := by
        rcases value with eq | ⟨-, kept⟩
        · rw [eq]
          exact low
        · have le := least j lt kept
          rwa [if_pos on] at le
      have ge : x j ≤ r := by
        rw [eq₀]
        split
        · rename_i on₀
          exact below j₀ lt₀ on₀
        · exact value.elim (fun eq => eq.le) fun less => less.1.le
      obtain rfl := le_antisymm le ge
      exact ⟨⟨j, lt, on, rfl⟩, below⟩

/-- An operation that takes one of its sides attains its value at a kept lane. -/
theorem laneTree_attained (op : ReduceOp) (choice : ∀ a b, reduceMerge op a b = a ∨ reduceMerge op a b = b) {k : Nat} (some : 0 < limit)
    (cover : limit ≤ 2 ^ k) :
    ∃ j < limit, Kept u j ∧ laneTree u op data limit k 0 = if u.laneActive j then data j else 0 := by
  apply treeValue_mk (P := fun r => ∃ j < limit, Kept u j ∧ r = if u.laneActive j then data j else 0)
  · intro a b left right
    rcases choice a b with eq | eq <;> rw [eq] <;> assumption
  · intro j mem
    obtain ⟨lt, kept⟩ := (mem_keptLanes some cover).1 mem
    exact ⟨j, lt, kept, rfl⟩

/-- The minimum is right exactly if no lane is inactive, or a least active value is zero, or below it and kept. -/
theorem vreduce_min {k : Nat} (some : 0 < limit) (cover : limit ≤ 2 ^ k) :
    toExt (laneTree u .min data limit k 0) = foldSpec .min (activeData u limit data) ↔ ReduceFits u limit data .min := by
  have least : ∀ j < limit, Kept u j → laneTree u .min data limit k 0 ≤ if u.laneActive j then data j else 0 :=
    fun j lt kept => treeValue_of (P := fun r => laneTree u .min data limit k 0 ≤ r) (fun a b => le_min_iff.1)
      (le_refl (laneTree u .min data limit k 0)) j ((mem_keptLanes some cover).2 ⟨lt, kept⟩)
  have proper : toExt (laneTree u .min data limit k 0) ≠ ⊤ := fun eq => WithTop.coe_ne_top (WithBot.coe_inj.1 eq)
  unfold foldSpec ReduceFits
  dsimp only
  rw [← least_iff (laneTree_attained .min min_choice some cover) least, eq_comm,
    foldl_min_eq_iff ⊤ le_top proper, List.mem_map, List.forall_mem_map]
  constructor
  · rintro ⟨⟨x, mem, eq⟩, below⟩
    rw [toExt_inj] at eq
    subst eq
    refine ⟨mem_activeData.1 mem, fun j lt on => ?_⟩
    exact WithTop.coe_le_coe.1 (WithBot.coe_le_coe.1 (below (data j) (mem_activeData.2 ⟨j, lt, on, rfl⟩)))
  · rintro ⟨active, below⟩
    refine ⟨⟨_, mem_activeData.2 active, rfl⟩, fun x mem => ?_⟩
    obtain ⟨j, lt, on, rfl⟩ := mem_activeData.1 mem
    exact WithBot.coe_le_coe.2 (WithTop.coe_le_coe.2 (below j lt on))

/-- The maximum is right exactly under the condition of `ReduceFits`. -/
theorem vreduce_max {k : Nat} (some : 0 < limit) (cover : limit ≤ 2 ^ k) :
    toExt (laneTree u .max data limit k 0) = foldSpec .max (activeData u limit data) ↔ ReduceFits u limit data .max := by
  have greatest : ∀ j < limit, Kept u j → (if u.laneActive j then data j else 0) ≤ laneTree u .max data limit k 0 :=
    fun j lt kept => treeValue_of (P := fun r => r ≤ laneTree u .max data limit k 0) (fun a b => max_le_iff.1)
      (le_refl (laneTree u .max data limit k 0)) j ((mem_keptLanes some cover).2 ⟨lt, kept⟩)
  have above : (⊥ : ExtRat) ≤ toExt (laneTree u .max data limit k 0) := bot_le
  have proper : toExt (laneTree u .max data limit k 0) ≠ ⊥ := WithBot.coe_ne_bot
  -- the greatest is the least of the dual order
  have dual : ((∃ j < limit, u.laneActive j = true ∧ data j = laneTree u .max data limit k 0) ∧
      ∀ j < limit, u.laneActive j = true → data j ≤ laneTree u .max data limit k 0) ↔
        ReduceFits u limit data .max :=
    least_iff (β := ℚᵒᵈ) (laneTree_attained .max max_choice some cover) greatest
  have fold : ((activeData u limit data).map toExt).foldl Max.max ⊥ = toExt (laneTree u .max data limit k 0) ↔
      toExt (laneTree u .max data limit k 0) ∈ (activeData u limit data).map toExt ∧
        ∀ x ∈ (activeData u limit data).map toExt, x ≤ toExt (laneTree u .max data limit k 0) :=
    foldl_min_eq_iff (β := ExtRatᵒᵈ) (⊥ : ExtRat) (r := toExt (laneTree u .max data limit k 0)) above proper _
  unfold foldSpec
  dsimp only
  rw [← dual, eq_comm, fold, List.mem_map, List.forall_mem_map]
  constructor
  · rintro ⟨⟨x, mem, eq⟩, above⟩
    rw [toExt_inj] at eq
    subst eq
    refine ⟨mem_activeData.1 mem, fun j lt on => ?_⟩
    exact WithTop.coe_le_coe.1 (WithBot.coe_le_coe.1 (above (data j) (mem_activeData.2 ⟨j, lt, on, rfl⟩)))
  · rintro ⟨active, above⟩
    refine ⟨⟨_, mem_activeData.2 active, rfl⟩, fun x mem => ?_⟩
    obtain ⟨j, lt, on, rfl⟩ := mem_activeData.1 mem
    exact WithBot.coe_le_coe.2 (WithTop.coe_le_coe.2 (above j lt on))

/-! ## Bits -/

/-- Zero is the number without bits. -/
theorem int_eq_zero_iff (n : Int) : n = 0 ↔ ∀ k, n.testBit k = false := by
  constructor
  · rintro rfl k
    exact Nat.zero_testBit k
  · intro none
    cases n with
    | ofNat m => rw [Nat.zero_of_testBit_eq_false none]; rfl
    | negSucc m =>
      have top := none m
      rw [Int.testBit, Nat.testBit_lt_two_pow Nat.lt_two_pow_self] at top
      cases top

theorem lor_eq_zero (a b : Int) : Int.lor a b = 0 ↔ a = 0 ∧ b = 0 := by
  rw [int_eq_zero_iff, int_eq_zero_iff a, int_eq_zero_iff b, ← forall_and]
  apply forall_congr'
  intro k
  rw [Int.testBit_lor, Bool.or_eq_false_iff]

theorem zero_land (b : Int) : Int.land 0 b = 0 := by
  rw [int_eq_zero_iff]
  intro k
  rw [Int.testBit_land, (int_eq_zero_iff 0).1 rfl, Bool.false_and]

theorem land_zero (a : Int) : Int.land a 0 = 0 := by
  rw [int_eq_zero_iff]
  intro k
  rw [Int.testBit_land, (int_eq_zero_iff 0).1 rfl, Bool.and_false]

/-- Zero or one meets a number in its lowest bit. -/
theorem land_eq_zero {a : Int} (small : a = 0 ∨ a = 1) (b : Int) : Int.land a b = 0 ↔ a = 0 ∨ 2 ∣ b := by
  rcases small with rfl | rfl
  · exact iff_of_true (zero_land b) (.inl rfl)
  · have parts := Int.bodd_add_div2 b
    have low : Int.land 1 b = cond b.bodd 1 0 := by
      have split := Int.land_bit true 0 b.bodd b.div2
      rw [Int.bit_decomp, zero_land, Bool.true_and, Int.bit_val, Int.bit_val, mul_zero, zero_add, zero_add] at split
      exact split
    rw [low]
    cases odd : b.bodd with
    | false =>
      rw [odd, cond_false, zero_add] at parts
      exact iff_of_true rfl (.inr ⟨b.div2, parts.symm⟩)
    | true =>
      rw [odd, cond_true] at parts
      refine iff_of_false one_ne_zero ?_
      omega

theorem toInt_truth (c : Int) : toInt (truth c) = 0 ↔ c = 0 := by
  unfold truth
  split
  · rename_i ne
    exact iff_of_false (by decide) ne
  · rename_i eq
    exact iff_of_true (by decide) (not_not.1 eq)

theorem truth_eq (c : Int) : truth c = 0 ∨ truth c = 1 := by
  unfold truth
  split
  · exact .inr rfl
  · exact .inl rfl

/-- From the first merge on, place `i` holds 0 or 1; where it does not merge it holds 0 already. -/
theorem laneTree_bit (op : ReduceOp) (data : Nat → ℚ) (bit : ∀ a b, reduceMerge op a b = 0 ∨ reduceMerge op a b = 1) {i : Nat} (pair : i + 1 < limit)
    (k : Nat) (start : u.laneActive i = true ∨ laneValue u data i = 0) :
    laneTree u op data limit (k + 1) i = 0 ∨ laneTree u op data limit (k + 1) i = 1 := by
  induction k with
  | zero =>
    rw [laneTree_succ]
    split
    · exact bit _ _
    · rename_i apart
      left
      refine start.resolve_left fun on => apart ⟨pair, ?_⟩
      rw [on, Bool.true_or]
  | succ k ih =>
    rw [laneTree_succ]
    split
    · exact bit _ _
    · exact ih

/-- With two lanes or more, the result of `AND` and `OR` is 0 or 1. -/
theorem laneTree_zero_bit (op : ReduceOp) (bit : ∀ a b, reduceMerge op a b = 0 ∨ reduceMerge op a b = 1) (more : 1 < limit) {k : Nat}
    (cover : limit ≤ 2 ^ k) : laneTree u op data limit k 0 = 0 ∨ laneTree u op data limit k 0 = 1 := by
  cases k with
  | zero => exact absurd cover (by omega)
  | succ k =>
    apply laneTree_bit op data bit (by omega)
    cases on : u.laneActive 0 with
    | true => exact .inl rfl
    | false => exact .inr (laneValue_inactive on)

/-- A truth value is known by whether it is zero. -/
theorem eq_truth_iff {r : ℚ} (bit : r = 0 ∨ r = 1) (c : Int) : r = truth c ↔ (toInt r = 0 ↔ c = 0) := by
  unfold truth
  rcases bit with rfl | rfl
  · have zero : toInt 0 = 0 := by decide
    rw [iff_true_left zero]
    split <;> simp_all
  · have one : toInt 1 ≠ 0 := by decide
    rw [iff_false_left one]
    split <;> simp_all

/-- A number is the truth value of itself if it is 0 or 1. -/
theorem self_eq_truth_iff {x : ℚ} {c : Int} (same : toInt x = 0 ↔ c = 0) : x = truth c ↔ x = 0 ∨ x = 1 := by
  constructor
  · rintro rfl
    exact truth_eq c
  · exact fun bit => (eq_truth_iff bit c).2 same

/-- A fold of `or` is zero if all that goes in is. -/
theorem foldl_lor_eq_zero (a : Int) (l : List Int) : l.foldl Int.lor a = 0 ↔ a = 0 ∧ ∀ x ∈ l, x = 0 := by
  induction l generalizing a with
  | nil => simp
  | cons x l ih => rw [List.foldl_cons, ih, lor_eq_zero, List.forall_mem_cons, and_assoc]

/-- A bit stays in a fold of `and` if all that goes in have it. -/
theorem testBit_foldl_land (a : Int) (l : List Int) (k : Nat) :
    (l.foldl Int.land a).testBit k = true ↔ a.testBit k = true ∧ ∀ x ∈ l, x.testBit k = true := by
  induction l generalizing a with
  | nil => simp
  | cons x l ih => rw [List.foldl_cons, ih, Int.testBit_land, Bool.and_eq_true, List.forall_mem_cons, and_assoc]

/-- One lane is copied, not made a truth value. -/
theorem laneTree_single (single : limit = 1) (k : Nat) : laneTree u op data limit k 0 = laneValue u data 0 :=
  treeValue_last (by omega) k

/-- A disjunction is right exactly if with every active lane that is not zero one is kept. -/
theorem vreduce_or {k : Nat} (some : 0 < limit) (cover : limit ≤ 2 ^ k) :
    toExt (laneTree u .or data limit k 0) = foldSpec .or (activeData u limit data) ↔ ReduceFits u limit data .or := by
  have none : ((activeData u limit data).map toInt).foldl Int.lor 0 = 0 ↔
      ∀ j < limit, u.laneActive j = true → toInt (data j) = 0 := by
    rw [foldl_lor_eq_zero, List.forall_mem_map, and_iff_right rfl]
    constructor
    · exact fun all j lt on => all _ (mem_activeData.2 ⟨j, lt, on, rfl⟩)
    · intro all x mem
      obtain ⟨j, lt, on, rfl⟩ := mem_activeData.1 mem
      exact all j lt on
  unfold foldSpec ReduceFits
  dsimp only
  rw [toExt_inj]
  rcases Nat.eq_or_lt_of_le some with single | more
  · have single : limit = 1 := single.symm
    rw [laneTree_single single, and_iff_left (fun more => absurd more (by omega)), forall_prop_of_true single]
    cases on : u.laneActive 0 with
    | false =>
      rw [laneValue_inactive on]
      refine iff_of_true ((eq_truth_iff (.inl rfl) _).2 (iff_of_true (by decide) (none.2 fun j lt on' => ?_)))
        fun on => absurd on Bool.false_ne_true
      obtain rfl : j = 0 := by omega
      rw [on] at on'
      cases on'
    | true =>
      rw [laneValue_active on, forall_prop_of_true rfl]
      apply self_eq_truth_iff
      rw [none]
      constructor
      · intro zero j lt _
        obtain rfl : j = 0 := by omega
        exact zero
      · exact fun all => all 0 some on
  · rw [and_iff_right (fun single => absurd single (by omega)), forall_prop_of_true more,
      eq_truth_iff (laneTree_zero_bit .or (fun a b => truth_eq _) more cover), none]
    have zero : toInt (laneTree u .or data limit k 0) = 0 ↔
        ∀ j < limit, u.laneActive j = true → Kept u j → toInt (data j) = 0 := by
      have value {j : Nat} : toInt (laneValue u data j) = 0 ↔ (u.laneActive j = true → toInt (data j) = 0) := by
        unfold laneValue
        split
        · rename_i on
          rw [forall_prop_of_true on]
        · rename_i off
          exact iff_of_true (by decide) fun on => absurd on off
      constructor
      · intro zero j lt on kept
        refine value.1 (treeValue_of (P := fun x => toInt x = 0) (fun a b merged => ?_) zero j
          ((mem_keptLanes some cover).2 ⟨lt, kept⟩)) on
        exact (lor_eq_zero _ _).1 ((toInt_truth _).1 merged)
      · intro all
        refine treeValue_mk (P := fun x => toInt x = 0) (fun a b left right => ?_) fun j mem => ?_
        · exact (toInt_truth _).2 ((lor_eq_zero _ _).2 ⟨left, right⟩)
        · obtain ⟨lt, kept⟩ := (mem_keptLanes some cover).1 mem
          exact value.2 fun on => all j lt on kept
    rw [zero]
    constructor
    · intro same j lt on ne
      by_contra no
      push Not at no
      exact ne (same.1 (fun i lt on kept => no i lt on kept) j lt on)
    · intro kept
      refine ⟨fun zero j lt on => ?_, fun zero j lt on _ => zero j lt on⟩
      by_contra ne
      obtain ⟨i, lti, oni, kepti, nei⟩ := kept j lt on ne
      exact nei (zero i lti oni kepti)

/-! ## `AND` -/

/-- The bitwise conjunction of the active lanes is zero just if they share no bit. -/
theorem shareBit_iff : ((activeData u limit data).map toInt).foldl Int.land (-1) = 0 ↔ ¬ ShareBit u limit data := by
  have some : ((activeData u limit data).map toInt).foldl Int.land (-1) ≠ 0 ↔ ShareBit u limit data := by
    rw [Ne, int_eq_zero_iff]
    push Not
    apply exists_congr
    intro k
    have ones : (-1 : Int).testBit k = true := by
      change (!Nat.testBit 0 k) = true
      rw [Nat.zero_testBit, Bool.not_false]
    rw [Bool.ne_false_iff, testBit_foldl_land, and_iff_right ones, List.forall_mem_map]
    constructor
    · exact fun all j lt on => all _ (mem_activeData.2 ⟨j, lt, on, rfl⟩)
    · intro all x mem
      obtain ⟨j, lt, on, rfl⟩ := mem_activeData.1 mem
      exact all j lt on
  rw [← some, not_not]

/-- With a lane off, `AND` gives 0. -/
theorem laneTree_and_off (off : ¬ AllActive u limit) (some : 0 < limit) {k : Nat} (cover : limit ≤ 2 ^ k) :
    laneTree u .and data limit k 0 = 0 := by
  obtain ⟨m, lt, offm, kept⟩ := exists_kept_inactive off
  rcases Nat.eq_or_lt_of_le some with single | more
  · obtain rfl : m = 0 := by omega
    rw [laneTree_single single.symm, laneValue_inactive offm]
  · have zero : toInt (laneTree u .and data limit k 0) = 0 := by
      by_contra ne
      refine treeValue_of (P := fun x => toInt x ≠ 0) (fun a b merged => ?_) ne m ((mem_keptLanes some cover).2 ⟨lt, kept⟩)
        (by rw [laneValue_inactive offm]; decide)
      have met : Int.land (toInt a) (toInt b) ≠ 0 := fun zero => merged ((toInt_truth _).2 zero)
      refine ⟨fun zero => met ?_, fun zero => met ?_⟩
      · rw [zero, zero_land]
      · rw [zero, land_zero]
    refine (laneTree_zero_bit .and (fun a b => truth_eq _) more cover).resolve_right fun one => ?_
    rw [one] at zero
    cases zero

/-- The lanes of `PairsShare` from `lo` to before `hi`. -/
def PairsShareIn (limit : Nat) (data : Nat → ℚ) (lo hi : Nat) : Prop := ∀ j < limit, lo ≤ j → j < hi → 2 ∣ j →
  (j + 1 < limit → Int.land (toInt (data j)) (toInt (data (j + 1))) ≠ 0) ∧ (j + 1 = limit → ¬ 2 ∣ toInt (data j))

/-- A subtree of active lanes is not zero just if all its pairs share a bit. -/
theorem laneTree_and_on (all : AllActive u limit) {i : Nat} (even : 2 ∣ i) (pair : i + 1 < limit) (k : Nat) :
    toInt (laneTree u .and data limit (k + 1) i) ≠ 0 ↔ PairsShareIn limit data i (i + 2 ^ (k + 1)) := by
  have joined (dst src : Nat) (lt : dst < limit) : (u.laneActive dst || u.laneActive src) = true := by
    rw [all dst lt, Bool.true_or]
  have merged (a b : ℚ) : toInt (reduceMerge .and a b) ≠ 0 ↔ Int.land (toInt a) (toInt b) ≠ 0 :=
    not_congr (toInt_truth _)
  have leaf (i : Nat) (lt : i < limit) : laneTree u .and data limit 0 i = data i := laneValue_active (all i lt)
  induction k generalizing i with
  | zero =>
    rw [laneTree_succ, if_pos ⟨pair, joined _ _ (by omega)⟩, merged, leaf i (by omega), leaf (i + 2 ^ 0) pair]
    constructor
    · intro share j lt le before even'
      obtain rfl : j = i := by omega
      exact ⟨fun _ => share, fun last => absurd last (by omega)⟩
    · exact fun shares => (shares i (by omega) (Nat.le_refl i) (by omega) even).1 pair
  | succ k ih =>
    have bit {i : Nat} (pair : i + 1 < limit) : toInt (laneTree u .and data limit (k + 1) i) = 0 ∨
        toInt (laneTree u .and data limit (k + 1) i) = 1 := by
      rcases laneTree_bit .and data (fun a b => truth_eq _) pair k (.inl (all i (by omega))) with eq | eq
      · rw [eq]
        exact .inl rfl
      · rw [eq]
        exact .inr rfl
    have pow : 2 ^ (k + 1 + 1) = 2 ^ (k + 1) + 2 ^ (k + 1) := by rw [Nat.pow_succ, Nat.mul_two]
    have even' : 2 ∣ 2 ^ (k + 1) := Nat.dvd_mul_left 2 (2 ^ k)
    rw [laneTree_succ]
    split
    · rename_i inside
      have right : ¬ 2 ∣ toInt (laneTree u .and data limit (k + 1) (i + 2 ^ (k + 1))) ↔
          PairsShareIn limit data (i + 2 ^ (k + 1)) (i + 2 ^ (k + 1) + 2 ^ (k + 1)) := by
        rcases Nat.lt_or_ge (i + 2 ^ (k + 1) + 1) limit with pair' | last
        · refine Iff.trans ?_ (ih (Nat.dvd_add even even') pair')
          rcases bit pair' with eq | eq <;> rw [eq] <;> decide
        · -- the last lane is alone
          rw [laneTree, treeValue_last last, laneValue_active (all _ inside.1)]
          constructor
          · intro odd j lt le _ _
            obtain rfl : j = i + 2 ^ (k + 1) := by omega
            exact ⟨fun more => absurd more (by omega), fun _ => odd⟩
          · exact fun shares => (shares _ inside.1 (Nat.le_refl _) (by omega) (Nat.dvd_add even even')).2 (by omega)
      rw [merged, Ne, land_eq_zero (bit pair), not_or, right]
      refine (and_congr_left' (ih even pair)).trans ?_
      constructor
      · rintro ⟨left, right⟩ j lt le before
        rcases Nat.lt_or_ge j (i + 2 ^ (k + 1)) with first | second
        · exact left j lt le first
        · exact right j lt second (by omega)
      · exact fun shares => ⟨fun j lt le before => shares j lt le (by omega),
          fun j lt le before => shares j lt (by omega) (by omega)⟩
    · rename_i outside
      have beyond : limit ≤ i + 2 ^ (k + 1) := by
        by_contra lt
        exact outside ⟨by omega, joined _ _ (by omega)⟩
      refine (ih even pair).trans ?_
      constructor
      · exact fun shares j lt le _ => shares j lt le (by omega)
      · exact fun shares j lt le before => shares j lt le (by omega)

theorem shareBit_single (all : AllActive u 1) : ShareBit u 1 data ↔ toInt (data 0) ≠ 0 := by
  rw [Ne, int_eq_zero_iff]
  push Not
  apply exists_congr
  intro k
  rw [Bool.ne_false_iff]
  constructor
  · exact fun share => share 0 Nat.one_pos (all 0 Nat.one_pos)
  · intro bit j lt _
    obtain rfl : j = 0 := by omega
    exact bit

/-- A bit that all share is one that each pair shares. -/
theorem ShareBit.pairs (all : AllActive u limit) (share : ShareBit u limit data)
    (last : ¬ 2 ∣ limit → ¬ 2 ∣ toInt (data (limit - 1))) : PairsShare limit data := by
  obtain ⟨k, set⟩ := share
  intro j lt even
  constructor
  · intro next zero
    have bit := (int_eq_zero_iff _).1 zero k
    rw [Int.testBit_land, set j lt (all j lt), set (j + 1) next (all (j + 1) next)] at bit
    cases bit
  · rintro rfl
    exact last (by omega)

/-- The last of an odd number of lanes has no partner. -/
theorem PairsShare.last (pairs : PairsShare limit data) (odd : ¬ 2 ∣ limit) : ¬ 2 ∣ toInt (data (limit - 1)) :=
  (pairs (limit - 1) (by omega) (by omega)).2 (by omega)

/-- A conjunction is right under the condition on pairs of lanes and on the last one. -/
theorem vreduce_and {k : Nat} (some : 0 < limit) (cover : limit ≤ 2 ^ k) :
    toExt (laneTree u .and data limit k 0) = foldSpec .and (activeData u limit data) ↔ ReduceFits u limit data .and := by
  unfold foldSpec ReduceFits
  dsimp only
  rw [toExt_inj]
  by_cases all : AllActive u limit
  · rw [and_iff_right all, or_iff_left (fun off => off.1 all)]
    rcases Nat.eq_or_lt_of_le some with single | more
    · obtain rfl : limit = 1 := single.symm
      rw [laneTree_single rfl, and_iff_left (fun more => absurd more (by omega)), forall_prop_of_true rfl,
        laneValue_active (all 0 some)]
      apply self_eq_truth_iff
      rw [shareBit_iff, shareBit_single all, not_not]
    · rw [and_iff_right (fun single => absurd single (by omega)), forall_prop_of_true more,
        eq_truth_iff (laneTree_zero_bit .and (fun a b => truth_eq _) more cover), shareBit_iff]
      have pairs : toInt (laneTree u .and data limit k 0) ≠ 0 ↔ PairsShare limit data := by
        cases k with
        | zero => exact absurd cover (by omega)
        | succ k =>
          refine (laneTree_and_on all (Nat.dvd_zero 2) (by omega) k).trans ?_
          constructor
          · exact fun shares j lt even => shares j lt (Nat.zero_le j) (by omega) even
          · exact fun shares j lt _ _ even => shares j lt even
      rw [iff_not_comm, ← Ne, pairs]
      constructor
      · exact fun same => ⟨same.2, fun share => (same.1 share).last⟩
      · exact fun ⟨sound, last⟩ => ⟨fun share => share.pairs all (last share), sound⟩
  · rw [laneTree_and_off all some cover, or_iff_right (fun on => all on.1), and_iff_right all, ← shareBit_iff,
      eq_truth_iff (.inl rfl)]
    exact iff_true_left (by decide)

/-! ## The scan -/

/-- The up-sweep does not write behind the limit. -/
theorem upSweepRow_above {active : Nat → Bool} {offset : Nat} (pos : 0 < offset) (i : Nat) (out : Nat → ℚ) {j : Nat}
    (above : limit ≤ j) : upSweepRow active limit offset pos i out j = out j := by
  fun_induction upSweepRow active limit offset pos i out with
  | case1 i out lt top out' ih =>
    rw [ih]
    unfold out'
    split
    · exact Function.update_of_ne (by omega) _ _
    · rfl
  | case2 i out done => rfl

theorem upSweep_above {active : Nat → Bool} {offset : Nat} (pos : 0 < offset) (out : Nat → ℚ) {j : Nat}
    (above : limit ≤ j) : upSweep active limit offset pos out j = out j := by
  fun_induction upSweep active limit offset pos out with
  | case1 offset pos out more ih => rw [ih, upSweepRow_above pos 0 out above]
  | case2 offset pos out done => rfl

/-- The last loop of the scan adds up what stands before each place. -/
theorem foldl_running {start : Nat → ℚ} (zero : start 0 = 0) (m i : Nat) :
    (List.range' 1 m).foldl (fun out i => Function.update out i (out (i - 1) + data i)) start i =
      if i ≤ m then ∑ j ∈ Finset.range i, data (j + 1) else start i := by
  induction m generalizing i with
  | zero =>
    rw [List.range'_zero, List.foldl_nil]
    split
    · rename_i le
      obtain rfl := Nat.le_zero.1 le
      rw [zero, Finset.sum_range_zero]
    · rfl
  | succ m ih =>
    rw [List.range'_1_concat, List.foldl_concat, Nat.add_comm 1 m]
    rcases Nat.lt_trichotomy i (m + 1) with lt | rfl | gt
    · rw [Function.update_of_ne (by omega), ih, if_pos (by omega), if_pos (by omega)]
    · rw [Function.update_self, Nat.add_sub_cancel, ih, if_pos (Nat.le_refl m), if_pos (Nat.le_refl _),
        Finset.sum_range_succ]
    · rw [Function.update_of_ne (by omega), ih, if_neg (by omega), if_neg (by omega)]

/-- The scan adds up all data but that of lane 0. -/
theorem simdVprefixsum_eq (u : SIMDUnit) (data out : Nat → ℚ) {n : Int} (pos : 1 ≤ n) (i : Nat) :
    (simdVprefixsum u data out n).2 i =
      if i < u.limit n then ∑ j ∈ Finset.range i, data (j + 1) else out i := by
  have some := limit_pos u pos
  unfold simdVprefixsum
  rw [if_neg (by omega)]
  dsimp only
  rw [foldl_running (by rw [if_pos some, if_pos rfl])]
  split
  · rw [if_pos (by omega)]
  · have above : u.limit n ≤ i := by omega
    rw [if_neg (by omega), if_neg (by omega), upSweep_above _ _ above, if_neg (by omega)]

/-- The scan is what its comment says exactly if the lane data sum up so. -/
theorem prefixsum_iff (u : SIMDUnit) (data out : Nat → ℚ) {n : Int} (pos : 1 ≤ n) :
    (simdVprefixsum u data out n).2 = prefixSpec u (u.limit n) data out ↔ ScanFits u (u.limit n) data := by
  have some := limit_pos u pos
  have first : laneValue u data 0 = 0 ↔ (u.laneActive 0 = true → data 0 = 0) := by
    unfold laneValue
    split
    · rename_i on
      rw [forall_prop_of_true on]
    · rename_i off
      exact iff_of_true rfl fun on => absurd on off
  have other (j : Nat) : laneValue u data j = data j ↔ (u.laneActive j = false → data j = 0) := by
    unfold laneValue
    split
    · rename_i on
      exact iff_of_true rfl fun off => absurd (on.symm.trans off) (by decide)
    · rename_i off
      rw [forall_prop_of_true (Bool.eq_false_of_not_eq_true off)]
      exact eq_comm
  have spec (i : Nat) (lt : i < u.limit n) : prefixSpec u (u.limit n) data out i =
      ∑ j ∈ Finset.range i, laneValue u data (j + 1) + laneValue u data 0 := by
    unfold prefixSpec
    rw [if_pos lt, Finset.sum_range_succ']
    rfl
  unfold ScanFits
  rw [← first]
  constructor
  · intro eq
    have known (i : Nat) (lt : i < u.limit n) : ∑ j ∈ Finset.range i, data (j + 1) =
        ∑ j ∈ Finset.range i, laneValue u data (j + 1) + laneValue u data 0 := by
      rw [← spec i lt, ← eq, simdVprefixsum_eq u data out pos, if_pos lt]
    have zero : laneValue u data 0 = 0 := by simpa using (known 0 some).symm
    refine ⟨zero, fun j lt above => (other j).1 ?_⟩
    obtain ⟨i, rfl⟩ := Nat.exists_eq_succ_of_ne_zero above.ne'
    have here := known (i + 1) lt
    rw [Finset.sum_range_succ, Finset.sum_range_succ, known i (by omega), zero, add_zero, add_zero] at here
    exact (add_left_cancel here).symm
  · rintro ⟨zero, others⟩
    funext i
    rw [simdVprefixsum_eq u data out pos]
    split
    · rename_i lt
      rw [spec i lt, zero, add_zero]
      apply Finset.sum_congr rfl
      intro j mem
      have below := Finset.mem_range.1 mem
      exact ((other (j + 1)).2 (others (j + 1) (by omega) (Nat.succ_pos j))).symm
    · rename_i beyond
      rw [prefixSpec, if_neg beyond]

end Lanes

/-! ## Both -/

/-- Two lanes, the second one off. -/
def halfOn : SIMDUnit where
  numLanes := 2
  active := Vector.ofFn fun i => decide (i.val = 0)
  cycleCount := 0
  totalOps := 0
  lanes_pos := by decide
  lanes_le := by decide

/-- For every unit, length and data: the reduction is the fold of its operation if and only if
`ReduceFits`, and the scan gives the prefix sums if and only if `ScanFits`. -/
theorem simd_reduce_scan_iff (u : SIMDUnit) (data out : Nat → ℚ) {n : Int} (pos : 1 ≤ n) :
    (∀ op, toExt (simdVreduce u op data n).2 = foldSpec op (activeData u (u.limit n) data) ↔
      ReduceFits u (u.limit n) data op) ∧
    ((simdVprefixsum u data out n).2 = prefixSpec u (u.limit n) data out ↔ ScanFits u (u.limit n) data) := by
  refine ⟨fun op => ?_, prefixsum_iff u data out pos⟩
  obtain ⟨k, cover, tree⟩ := simdVreduce_tree u op data pos
  have some := limit_pos u pos
  rw [tree]
  cases op with
  | sum => exact vreduce_sum some cover
  | prod => exact vreduce_prod some cover
  | min => exact vreduce_min some cover
  | max => exact vreduce_max some cover
  | and => exact vreduce_and some cover
  | or => exact vreduce_or some cover

/-- Two data on two lanes, of which the second is off. -/
theorem simd_reduce_scan_half :
    (∀ op, toExt (simdVreduce halfOn op (fun _ => 5) 2).2 = foldSpec op (activeData halfOn (halfOn.limit 2) fun _ => 5) ↔
      ReduceFits halfOn (halfOn.limit 2) (fun _ => 5) op) ∧
    ((simdVprefixsum halfOn (fun _ => 5) (fun _ => 0) 2).2 =
        prefixSpec halfOn (halfOn.limit 2) (fun _ => 5) (fun _ => 0) ↔
      ScanFits halfOn (halfOn.limit 2) fun _ => 5) :=
  simd_reduce_scan_iff halfOn (fun _ => 5) (fun _ => 0) (by decide)

/-- The product of 5 is not 5 with a lane off, and the first prefix sum of 5 and 5 is not 5. -/
theorem simd_lane_off :
    (simdVreduce halfOn .prod (fun _ => 5) 2).2 = 0 ∧
      foldSpec .prod (activeData halfOn (halfOn.limit 2) fun _ => 5) = toExt 5 ∧
      (simdVprefixsum halfOn (fun _ => 5) (fun _ => 0) 2).2 0 = 0 ∧
      prefixSpec halfOn (halfOn.limit 2) (fun _ => 5) (fun _ => 0) 0 = 5 := by
  have limit : halfOn.limit 2 = 2 := by decide
  have first : halfOn.laneActive 0 = true := by decide
  have second : halfOn.laneActive 1 = false := by decide
  refine ⟨?_, ?_, ?_, ?_⟩
  · simp [simdVreduce, limit, reduceRows, reduceRow, first, second, reduceMerge]
  · simp [foldSpec, activeData, limit, List.range_succ, first, second]
  · rw [simdVprefixsum_eq _ _ _ (by decide), limit, if_pos (by decide), Finset.sum_range_zero]
  · simp [prefixSpec, limit, first]

end MiniHardware.Gpu
