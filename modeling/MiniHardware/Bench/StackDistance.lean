import Mathlib.Algebra.Order.Field.Rat
import MiniHardware.Bench.SimCache

/-!
# Stack distances (`lake_test_mini/src/cache_bench.c`)

`stack_dist_build` keeps the addresses in the order of recency and counts the
places where they are found; a first use is counted at the number of distinct
addresses. `stack_dist_predict_miss_rate` adds up what is counted from a number
of lines on. This is the miss rate of an LRU cache with so many lines, unless
there are more of them than distinct addresses (`stack_dist_miss_rate_iff`).
`ratio a b` stands for `(double)a / (double)b`.
-/

namespace MiniHardware.Bench
open Lib

variable {Double : Type}

structure StackDistEntry (Double : Type) where
  distance : UInt64
  count : UInt64
  cumulativeProb : Double

structure StackDistProfile (Double : Type) where
  entries : List (StackDistEntry Double)
  totalReferences : UInt64
  uniqueAddresses : UInt64

/-! ## The profile -/

/-- The addresses without repetitions; `n` is the room in the array. -/
def uniqueAddrs (n : Nat) (addresses : List UInt64) : List UInt64 :=
  addresses.foldl (fun unique a => if a ∉ unique ∧ unique.length < n then unique ++ [a] else unique) []

structure StackRun where
  histogram : Nat → UInt64
  /-- The stack up to `stack_top`, its top first. -/
  stack : List UInt64

def bump (histogram : Nat → UInt64) (i : Nat) : Nat → UInt64 := Function.update histogram i (histogram i + 1)

/-- An address that is found moves to the top, and the ones above it move down by one; else it is pushed, and
the bottom is lost if the stack is full. -/
def stackTouch (uniqueCount : Nat) (s : StackRun) (addr : UInt64) : StackRun :=
  match s.stack.findIdx? (· == addr) with
  | some stackPos => ⟨bump s.histogram stackPos, addr :: s.stack.eraseIdx stackPos⟩
  | none =>
    ⟨bump s.histogram uniqueCount,
      if s.stack.length < uniqueCount then addr :: s.stack else addr :: s.stack.dropLast⟩

variable (ratio : UInt64 → UInt64 → Double)

/-- The body of the last loop of `stack_dist_build`: the sum so far and the entries. -/
def addEntry (histogram : Nat → UInt64) (numAccesses : UInt64) (s : UInt64 × List (StackDistEntry Double)) (i : Nat) :
    UInt64 × List (StackDistEntry Double) :=
  if histogram i > 0 then
    let cumulative := s.1 + histogram i
    (cumulative, s.2 ++ [⟨UInt64.ofNat i, histogram i, ratio cumulative numAccesses⟩])
  else s

def stackDistBuild (addresses : List UInt64) : Option (StackDistProfile Double) :=
  if addresses.length = 0 then none
  else
    let uniqueCount := (uniqueAddrs addresses.length addresses).length
    let s := addresses.foldl (stackTouch uniqueCount) ⟨fun _ => 0, []⟩
    let numAccesses := UInt64.ofNat addresses.length
    some
      { entries := ((List.range (uniqueCount + 1)).foldl (addEntry ratio s.histogram numAccesses) (0, [])).2
        totalReferences := numAccesses
        uniqueAddresses := UInt64.ofNat uniqueCount }

def missesBeyond (cacheLines : UInt64) (entries : List (StackDistEntry Double)) : UInt64 :=
  entries.foldl (fun misses e => if e.distance ≥ cacheLines then misses + e.count else misses) 0

def stackDistPredictMissRate (profile : StackDistProfile Double) (cacheSize : UInt64) (lineSize : UInt32) : Double :=
  if lineSize = 0 then ratio 0 1
  else ratio (missesBeyond (cacheSize / lineSize.toUInt64) profile.entries) profile.totalReferences

/-- `mr` of `sim_cache_stats`. -/
def simCacheMissRate (cache : SimCache) : Double := ratio cache.totalMisses cache.totalAccesses

/-! ## Distinct addresses -/

theorem unique_addrs_spec {n : Nat} {addresses : List UInt64} (le : addresses.length ≤ n) :
    (uniqueAddrs n addresses).Nodup ∧ ∀ a, a ∈ uniqueAddrs n addresses ↔ a ∈ addresses := by
  induction addresses using List.reverseRecOn with
  | nil => exact ⟨List.nodup_nil, fun _ => Iff.rfl⟩
  | append_singleton addresses a ih =>
    rw [List.length_append, List.length_singleton] at le
    obtain ⟨nodup, mem⟩ := ih (Nat.le_of_succ_le le)
    rw [uniqueAddrs, List.foldl_append, List.foldl_cons, List.foldl_nil]
    generalize unique : addresses.foldl
      (fun unique a => if a ∉ unique ∧ unique.length < n then unique ++ [a] else unique) [] = known
    rw [uniqueAddrs, unique] at nodup mem
    have room : known.length < n := by
      have sub : known ⊆ addresses := fun x hx => (mem x).1 hx
      exact (nodup.subperm sub).length_le.trans_lt le
    split
    · rename_i new
      refine ⟨List.nodup_append.2 ⟨nodup, List.nodup_singleton a, ?_⟩, fun x => ?_⟩
      · intro x hx y hy eq
        rw [List.mem_singleton.1 hy] at eq
        exact new.1 (eq ▸ hx)
      · rw [List.mem_append, List.mem_append, mem]
    · rename_i old
      have here : a ∈ known := by
        by_contra new
        exact old ⟨new, room⟩
      refine ⟨nodup, fun x => ?_⟩
      rw [mem, List.mem_append, List.mem_singleton]
      constructor
      · exact .inl
      · rintro (there | rfl)
        · exact there
        · exact (mem x).1 here

theorem length_uniqueAddrs (addresses : List UInt64) :
    (uniqueAddrs addresses.length addresses).length = addresses.toFinset.card := by
  obtain ⟨nodup, mem⟩ := unique_addrs_spec (Nat.le_refl addresses.length)
  rw [← List.toFinset_card_of_nodup nodup]
  congr 1
  ext x
  rw [List.mem_toFinset, List.mem_toFinset, mem]

/-! ## The histogram -/

/-- What a histogram has counted at the places from `n` to `k - 1`. -/
def countFrom (histogram : Nat → UInt64) (n : Nat) : Nat → Nat
  | 0 => 0
  | k + 1 => countFrom histogram n k + if n ≤ k then (histogram k).toNat else 0

theorem countFrom_zero (n k : Nat) : countFrom (fun _ => 0) n k = 0 := by
  induction k with
  | zero => rfl
  | succ k ih =>
    rw [countFrom, ih, Nat.zero_add]
    exact ite_self 0

theorem countFrom_mono (histogram : Nat → UInt64) (n : Nat) {k m : Nat} (le : k ≤ m) :
    countFrom histogram n k ≤ countFrom histogram n m := by
  induction le with
  | refl => exact Nat.le_refl _
  | step _ ih => exact Nat.le_add_right_of_le ih

theorem countFrom_bump {histogram : Nat → UInt64} {i : Nat} (room : (histogram i).toNat + 1 < 2 ^ 64) (n k : Nat) :
    countFrom (bump histogram i) n k = countFrom histogram n k + if n ≤ i ∧ i < k then 1 else 0 := by
  induction k with
  | zero => rw [countFrom, countFrom, if_neg fun both => absurd both.2 (Nat.not_lt_zero i)]
  | succ k ih =>
    rw [countFrom, countFrom, ih, bump, Function.update_apply]
    rcases eq_or_ne k i with rfl | ne
    · rw [if_pos rfl, toNat_tick rfl room]
      split <;> split <;> split <;> omega
    · rw [if_neg ne]
      split <;> split <;> split <;> omega

/-- The state after the addresses of a history, the last one first. -/
structure Touched (uniqueCount : Nat) (past : List UInt64) (s : StackRun) : Prop where
  stack : s.stack = recency past
  small : ∀ i, (s.histogram i).toNat ≤ past.length
  counts : ∀ n, countFrom s.histogram n (uniqueCount + 1) = usesBeyond uniqueCount n past

section Touch

variable {uniqueCount : Nat} {past : List UInt64} {s : StackRun} {addr : UInt64}

/-- Every touch counts its distance, and puts the address on top. -/
theorem stack_touch_eq (h : Touched uniqueCount past s) (few : (addr :: past).toFinset.card ≤ uniqueCount) :
    stackTouch uniqueCount s addr =
      ⟨bump s.histogram (reuseDistance uniqueCount addr past), recency (addr :: past)⟩ := by
  rw [stackTouch, h.stack, reuseDistance, recency]
  split
  · rename_i pos found
    obtain ⟨lt, idx⟩ := List.findIdx?_eq_some_iff_findIdx_eq.1 found
    have place : (recency past).idxOf addr = pos := idx
    have mem : addr ∈ recency past := List.idxOf_lt_length_iff.1 (place ▸ lt)
    rw [if_pos ((mem_recency past).1 mem), ← place, List.eraseIdx_idxOf_eq_erase]
  · rename_i absent
    have new : addr ∉ recency past := by
      intro mem
      have differs := List.findIdx?_eq_none_iff.1 absent addr mem
      exact absurd differs (by simp)
    have unused : addr ∉ past := fun mem => new ((mem_recency past).2 mem)
    have room : (recency past).length < uniqueCount := by
      rw [List.toFinset_cons, Finset.card_insert_of_notMem (by rwa [List.mem_toFinset])] at few
      rw [length_recency]
      exact few
    rw [if_neg unused, if_pos room, List.erase_of_not_mem new]

theorem Touched.touch (h : Touched uniqueCount past s) (few : (addr :: past).toFinset.card ≤ uniqueCount)
    (short : past.length + 1 < 2 ^ 64) : Touched uniqueCount (addr :: past) (stackTouch uniqueCount s addr) := by
  have near := reuseDistance_le addr ((card_tail_le addr past).trans few)
  rw [stack_touch_eq h few]
  generalize dist : reuseDistance uniqueCount addr past = distance at near ⊢
  have room : (s.histogram distance).toNat + 1 < 2 ^ 64 := by
    have le := h.small distance
    omega
  refine ⟨rfl, fun i => ?_, fun n => ?_⟩
  · have le := h.small i
    show (bump s.histogram distance i).toNat ≤ (addr :: past).length
    rw [bump, Function.update_apply, List.length_cons]
    split
    · rw [toNat_tick rfl room]
      have le' := h.small distance
      omega
    · omega
  · rw [countFrom_bump room, h.counts, usesBeyond, dist]
    simp only [Nat.lt_succ_of_le near, and_true]

end Touch

theorem touched_run {uniqueCount : Nat} (addresses : List UInt64) (few : addresses.toFinset.card ≤ uniqueCount)
    (short : addresses.length < 2 ^ 64) :
    Touched uniqueCount addresses.reverse (addresses.foldl (stackTouch uniqueCount) ⟨fun _ => 0, []⟩) := by
  induction addresses using List.reverseRecOn with
  | nil => exact ⟨rfl, fun _ => Nat.le_refl 0, fun n => countFrom_zero n _⟩
  | append_singleton addresses a ih =>
    rw [List.length_append, List.length_singleton] at short
    have sub : (a :: addresses.reverse).toFinset = (addresses ++ [a]).toFinset := by
      ext x
      simp
    have few' : (a :: addresses.reverse).toFinset.card ≤ uniqueCount := by rwa [sub]
    have prefix_few : addresses.toFinset.card ≤ uniqueCount := by
      rw [← List.toFinset_reverse]
      exact (card_tail_le a _).trans few'
    rw [List.foldl_append, List.foldl_cons, List.foldl_nil, List.reverse_append, List.reverse_singleton,
      List.singleton_append]
    exact (ih prefix_few (Nat.lt_of_succ_lt short)).touch few' (by rwa [List.length_reverse])

/-! ## The entries -/

theorem misses_beyond_snoc (cacheLines : UInt64) (entries : List (StackDistEntry Double)) (e : StackDistEntry Double) :
    missesBeyond cacheLines (entries ++ [e]) =
      if e.distance ≥ cacheLines then missesBeyond cacheLines entries + e.count
      else missesBeyond cacheLines entries := by
  rw [missesBeyond, List.foldl_append, List.foldl_cons, List.foldl_nil]
  rfl

/-- The sum over the entries is the sum over the histogram. -/
theorem toNat_missesBeyond {histogram : Nat → UInt64} (numAccesses cacheLines : UInt64) {k : Nat}
    (small : countFrom histogram cacheLines.toNat k < 2 ^ 64) (le : k ≤ 2 ^ 64) :
    (missesBeyond cacheLines ((List.range k).foldl (addEntry ratio histogram numAccesses) (0, [])).2).toNat =
      countFrom histogram cacheLines.toNat k := by
  induction k with
  | zero => rfl
  | succ k ih =>
    have mono := countFrom_mono histogram cacheLines.toNat (Nat.le_add_right k 1)
    have known := ih (by omega) (by omega)
    have index : (UInt64.ofNat k).toNat = k := Nat.mod_eq_of_lt le
    have from_ : UInt64.ofNat k ≥ cacheLines ↔ cacheLines.toNat ≤ k := by
      rw [ge_iff_le, UInt64.le_iff_toNat_le, index]
    rw [List.range_succ, List.foldl_append, List.foldl_cons, List.foldl_nil, addEntry]
    rw [countFrom] at small ⊢
    split
    · rename_i used
      rw [misses_beyond_snoc]
      simp only [from_]
      split
      · rename_i beyond
        rw [if_pos beyond] at small
        rw [UInt64.toNat_add, known]
        exact Nat.mod_eq_of_lt small
      · exact known
    · rename_i unused
      have zero : (histogram k).toNat = 0 := by
        by_contra pos
        exact unused (UInt64.lt_iff_toNat_lt.2 (Nat.pos_of_ne_zero pos))
      rw [zero, ite_self, known, Nat.add_zero]

/-- The profile predicts, from the uses at a distance of so many lines. -/
theorem stack_dist_predict_eq {addresses : List UInt64} (nonempty : addresses ≠ []) (short : addresses.length < 2 ^ 64) :
    ∃ profile, stackDistBuild ratio addresses = some profile ∧
      ∀ (cacheLines : UInt64),
        (missesBeyond cacheLines profile.entries).toNat =
            usesBeyond addresses.toFinset.card cacheLines.toNat addresses.reverse ∧
          profile.totalReferences = UInt64.ofNat addresses.length := by
  have len : addresses.length ≠ 0 := fun zero => nonempty (List.length_eq_zero_iff.1 zero)
  have few : addresses.toFinset.card ≤ addresses.length := List.toFinset_card_le addresses
  rw [stackDistBuild, if_neg len, length_uniqueAddrs]
  refine ⟨_, rfl, fun cacheLines => ⟨?_, rfl⟩⟩
  have counted := (touched_run addresses (Nat.le_refl _) short).counts cacheLines.toNat
  have small := usesBeyond_le addresses.toFinset.card cacheLines.toNat addresses.reverse
  rw [List.length_reverse] at small
  rw [toNat_missesBeyond ratio _ cacheLines (by omega) (by omega), counted]

/-! ## Prediction and simulation -/

/-- Multiples of the line size are told apart by their tags. -/
theorem tag_inj {lineSize : UInt32} {a b : UInt64} (ha : a % lineSize.toUInt64 = 0) (hb : b % lineSize.toUInt64 = 0)
    (same : a / lineSize.toUInt64 = b / lineSize.toUInt64) : a = b := by
  have split (x : UInt64) (multiple : x % lineSize.toUInt64 = 0) :
      x.toNat = lineSize.toUInt64.toNat * (x / lineSize.toUInt64).toNat := by
    have rest : x.toNat % lineSize.toUInt64.toNat = 0 := by rw [← UInt64.toNat_mod, multiple, UInt64.toNat_zero]
    rw [UInt64.toNat_div]
    exact (Nat.mul_div_cancel' (Nat.dvd_of_mod_eq_zero rest)).symm
  apply UInt64.toNat_inj.1
  rw [split a ha, split b hb, same]

/-- So many lines fit into a cache of that many bytes. -/
theorem toNat_lines {lineSize : UInt32} (line : lineSize ≠ 0) (associativity : UInt32) :
    (associativity.toUInt64 * lineSize.toUInt64 / lineSize.toUInt64).toNat = associativity.toNat := by
  have pos : 0 < lineSize.toNat := Nat.pos_of_ne_zero fun zero => line (UInt32.toNat_inj.1 zero)
  have small : associativity.toNat * lineSize.toNat < 2 ^ 64 := by
    calc
      _ < 2 ^ 32 * 2 ^ 32 := Nat.mul_lt_mul'' associativity.toNat_lt lineSize.toNat_lt
      _ = 2 ^ 64 := rfl
  rw [UInt64.toNat_div, UInt64.toNat_mul, UInt32.toNat_toUInt64, UInt32.toNat_toUInt64, Nat.mod_eq_of_lt small]
  exact Nat.mul_div_cancel _ pos

/-- **The profile predicts the miss rate of a cache with one set if and only if the trace has at least as many
distinct lines as the cache.** A larger cache is predicted to miss nothing, not even the first uses. -/
theorem stack_dist_miss_rate_iff (zero : ∀ a n, n ≠ 0 → (ratio a n = ratio 0 n ↔ a = 0))
    {totalSize lineSize associativity : UInt32} {writeBack : Bool} {cache : SimCache}
    (init : simCacheInit totalSize lineSize associativity writeBack = some cache) (one : cache.numSets = 1)
    (accesses : List (UInt64 × CacheAccessType)) (nonempty : accesses ≠ [])
    (lines : ∀ a ∈ accesses, a.1 % lineSize.toUInt64 = 0) (short : accesses.length < 2 ^ 64) :
    ∃ profile cache', stackDistBuild ratio (accesses.map Prod.fst) = some profile ∧
      simCacheRun cache accesses = some cache' ∧
      (stackDistPredictMissRate ratio profile (associativity.toUInt64 * lineSize.toUInt64) lineSize =
          simCacheMissRate ratio cache' ↔
        associativity.toNat ≤ (accesses.map Prod.fst).toFinset.card) := by
  obtain ⟨start, line, pos⟩ := one_set_init init one
  obtain ⟨cache', ran, final⟩ := sim_cache_run_one_set start line pos accesses short
  have nonempty' : accesses.map Prod.fst ≠ [] := fun none => nonempty (List.map_eq_nil_iff.1 none)
  have length : (accesses.map Prod.fst).length = accesses.length := List.length_map _
  obtain ⟨profile, built, predicts⟩ := stack_dist_predict_eq ratio nonempty' (by rwa [length])
  refine ⟨profile, cache', built, ran, ?_⟩
  obtain ⟨counted, references⟩ := predicts (associativity.toUInt64 * lineSize.toUInt64 / lineSize.toUInt64)
  rw [toNat_lines line] at counted
  have tags : tagHistory lineSize accesses = (accesses.map Prod.fst).reverse.map fun a => a / lineSize.toUInt64 := by
    rw [tagHistory, ← List.map_reverse, List.map_map]
    rfl
  have missed : cache'.totalMisses.toNat = lruMisses associativity.toNat (accesses.map Prod.fst).reverse := by
    rw [final.misses, tags]
    apply lruMisses_map
    intro a ha b hb same
    rw [List.mem_reverse, List.mem_map] at ha hb
    obtain ⟨x, hx, rfl⟩ := ha
    obtain ⟨y, hy, rfl⟩ := hb
    exact tag_inj (lines x hx) (lines y hy) same
  have total : profile.totalReferences = cache'.totalAccesses := by
    apply UInt64.toNat_inj.1
    rw [references, final.accesses, length_tagHistory, length]
    exact Nat.mod_eq_of_lt short
  rw [stackDistPredictMissRate, if_neg line, simCacheMissRate, total]
  rcases Nat.lt_or_ge (accesses.map Prod.fst).toFinset.card associativity.toNat with less | ge
  · refine iff_of_false (fun same => ?_) (Nat.not_le.2 less)
    have few : (accesses.map Prod.fst).reverse.toFinset.card ≤ (accesses.map Prod.fst).toFinset.card := by
      rw [List.toFinset_reverse]
    have none : missesBeyond (associativity.toUInt64 * lineSize.toUInt64 / lineSize.toUInt64) profile.entries = 0 := by
      apply UInt64.toNat_inj.1
      rw [counted, usesBeyond_eq_zero less few]
      rfl
    have some_ := lruMisses_pos associativity.toNat (mt List.reverse_eq_nil_iff.1 nonempty')
    have accessed : cache'.totalAccesses ≠ 0 := by
      intro none
      have count := final.accesses
      rw [none, length_tagHistory] at count
      exact nonempty (List.length_eq_zero_iff.1 count.symm)
    rw [none] at same
    rw [(zero _ _ accessed).1 same.symm] at missed
    have missed' : 0 = lruMisses associativity.toNat (accesses.map Prod.fst).reverse := missed
    omega
  · refine iff_of_true ?_ ge
    have same : missesBeyond (associativity.toUInt64 * lineSize.toUInt64 / lineSize.toUInt64) profile.entries =
        cache'.totalMisses := by
      apply UInt64.toNat_inj.1
      rw [counted, missed, lruMisses_eq_usesBeyond ge]
    rw [same]

/-! ## Two short traces -/

/-- The quotient itself. -/
def exactRatio (a b : UInt64) : ℚ := (a.toNat : ℚ) / (b.toNat : ℚ)

theorem exactRatio_zero (a n : UInt64) (ne : n ≠ 0) : exactRatio a n = exactRatio 0 n ↔ a = 0 := by
  have pos : (n.toNat : ℚ) ≠ 0 := Nat.cast_ne_zero.2 fun zero => ne (UInt64.toNat_inj.1 zero)
  rw [exactRatio, exactRatio, UInt64.toNat_zero, Nat.cast_zero, zero_div, div_eq_zero_iff, or_iff_left pos,
    Nat.cast_eq_zero]
  exact ⟨fun zero => UInt64.toNat_inj.1 zero, fun zero => by rw [zero, UInt64.toNat_zero]⟩

/-- Two lines in a cache with two lines: the first uses are predicted to miss, the return to line 0 to hit. -/
theorem stack_dist_miss_rate_two_lines :
    ∃ cache profile cache', simCacheInit 128 64 2 true = some cache ∧
      stackDistBuild exactRatio [0, 64, 0] = some profile ∧
      simCacheRun cache [(0, .read), (64, .write), (0, .read)] = some cache' ∧
      stackDistPredictMissRate exactRatio profile 128 64 = simCacheMissRate exactRatio cache' := by
  obtain ⟨profile, cache', built, ran, same⟩ :=
    stack_dist_miss_rate_iff exactRatio exactRatio_zero (show simCacheInit 128 64 2 true = some _ from rfl) rfl
      [(0, .read), (64, .write), (0, .read)] (List.cons_ne_nil _ _) (by decide) (by decide)
  exact ⟨_, profile, cache', rfl, built, ran, same.2 (by decide)⟩

/-- The first use of the only line is predicted to hit there. -/
theorem stack_dist_cold_miss_lost :
    ∃ cache profile cache', simCacheInit 128 64 2 true = some cache ∧ cache.numSets = 1 ∧
      stackDistBuild exactRatio [0] = some profile ∧ simCacheRun cache [(0, .read)] = some cache' ∧
      stackDistPredictMissRate exactRatio profile 128 64 = 0 ∧ simCacheMissRate exactRatio cache' = 1 := by
  refine ⟨_, _, _, rfl, rfl, rfl, rfl, ?_, ?_⟩
  · exact zero_div _
  · exact div_one _

end MiniHardware.Bench
