import MiniHardware.Accel.MatrixLoops
import MiniHardware.Lib.Index
import MiniHardware.Lib.Prune
import Mathlib.Algebra.Field.Rat
import Mathlib.Algebra.Order.Field.Basic
import Mathlib.Algebra.Order.Ring.Rat

/-!
# Structured sparse multiplication (`mini-ai-accelerator/src/tensor_core.c`)

Of every four rows of `B` two are kept, and a bit of the group's pattern says
which. The loop counts the rows it has met; the count is the number of kept
positions before the current one, so it finds the rows of the dense matrix
again. Every access is checked. The weights are brought into this form by
`sparse_2of4_prune` of `sparse_accel.c`, which loses as little as can be in every
group of four (`sparse2of4Prune_best`).
-/

namespace MiniHardware.Accel
open Lib

section Model
variable {R : Type*} [Semiring R] {M N K : Nat}

/-- `(pattern >> g) & 1`. -/
def keptBit (pattern : Int32) (g : Nat) : Bool := ((pattern >>> Int32.ofNat g) &&& 1) ≠ 0

/-- `b_val`. -/
def sparseVal (Bsparse : Vector R (K / 2 * N)) (sparseIdx j : Nat) : Option R :=
  if sparseIdx < K / 2 then Bsparse[sparseIdx * N + j]? else some 0

/-- The body of the loop over `g`, with `sum` and `sparse_idx`. -/
def sparseRound (A : Vector R (M * K)) (Bsparse : Vector R (K / 2 * N)) (pattern : Int32) (i j k : Nat)
    (s : R × Nat) (g : Nat) : Option (R × Nat) :=
  if keptBit pattern g then do
    let bVal ← sparseVal Bsparse s.2 j
    let aVal ← A[i * K + (k + g)]?
    some (s.1 + aVal * bVal, s.2 + 1)
  else some s

/-- The body of the loop over `k`; round `q` is that of `k = 4 * q`. -/
def sparseGroup (A : Vector R (M * K)) (Bsparse : Vector R (K / 2 * N)) (indices : Vector Int32 (K / 4))
    (i j : Nat) (s : R × Nat) (q : Nat) : Option (R × Nat) :=
  indices[q]?.bind fun pattern => (List.range 4).foldlM (sparseRound A Bsparse pattern i j (4 * q)) s

/-- `C` may be null. -/
def tensorCoreMmaSparse (A : Vector R (M * K)) (Bsparse : Vector R (K / 2 * N))
    (indices : Vector Int32 (K / 4)) (C : Option (Vector R (M * N))) (D : Vector R (M * N)) :
    Option (Vector R (M * N)) :=
  fill (List.range M ×ˢ List.range N) (fun p => p.1 * N + p.2) (fun p => do
    let c ← C.elim (some 0) fun C => C[p.1 * N + p.2]?
    let s ← (List.range ((K + 3) / 4)).foldlM (sparseGroup A Bsparse indices p.1 p.2) (c, 0)
    some s.1) D

end Model

/-! ## The dense matrix -/

section Expand
variable {R : Type*} {N K : Nat}

/-- Position `k` of the inner dimension is kept. -/
def kept (indices : Vector Int32 (K / 4)) (k : Nat) : Bool :=
  if h : k / 4 < K / 4 then keptBit indices[k / 4] (k % 4) else false

/-- The number of kept positions before `k`. -/
def rank (indices : Vector Int32 (K / 4)) (k : Nat) : Nat := (List.range k).countP (kept indices)

/-- Kept positions get the compressed rows in order, the others zeros. -/
def expand [Zero R] (Bsparse : Vector R (K / 2 * N)) (indices : Vector Int32 (K / 4)) (k : Fin K) (j : Fin N) : R :=
  if h : kept indices k.val ∧ rank indices k.val < K / 2 then Bsparse.get (cell ⟨_, h.2⟩ j) else 0

/-- Two bits of every pattern are set. -/
def TwoOfFour (indices : Vector Int32 (K / 4)) : Prop :=
  ∀ q : Fin (K / 4), (List.range 4).countP (keptBit indices[q]) = 2

instance (indices : Vector Int32 (K / 4)) : Decidable (TwoOfFour indices) :=
  inferInstanceAs (Decidable (∀ q : Fin (K / 4), (List.range 4).countP (keptBit indices[q]) = 2))

variable {indices : Vector Int32 (K / 4)}

/-- The position is kept if its bit of the pattern is set. -/
theorem kept_eq {q g : Nat} (lt : g < 4) (h : q < K / 4) :
    kept indices (4 * q + g) = keptBit indices[q] g := by
  have div : (4 * q + g) / 4 = q := by omega
  have mod : (4 * q + g) % 4 = g := by omega
  simp only [kept, div, mod, dif_pos h]

/-- The next position has one kept position more before it, if it is kept. -/
theorem rank_succ (indices : Vector Int32 (K / 4)) (k : Nat) :
    rank indices (k + 1) = rank indices k + if kept indices k then 1 else 0 := by
  rw [rank, List.range_succ, List.countP_append, List.countP_singleton]
  rfl

/-- Later positions have no fewer before them. -/
theorem rank_mono (indices : Vector Int32 (K / 4)) {k l : Nat} (le : k ≤ l) : rank indices k ≤ rank indices l :=
  (List.range_sublist.2 le).countP_le

/-- Every group keeps two. -/
theorem rank_group (two : TwoOfFour indices) {q : Nat} (le : q ≤ K / 4) : rank indices (4 * q) = 2 * q := by
  induction q with
  | zero => rfl
  | succ q ih =>
    have group : ((List.range 4).map (4 * q + ·)).countP (kept indices) = 2 := by
      rw [List.countP_map, ← two ⟨q, le⟩]
      apply List.countP_congr
      intro g mem
      rw [Function.comp_apply, kept_eq (List.mem_range.1 mem) le]
      rfl
    rw [rank, Nat.mul_succ, List.range_add, List.countP_append, group]
    exact congrArg (· + 2) (ih (Nat.le_of_succ_le le))

/-- A kept position has a compressed row. -/
theorem rank_lt (two : TwoOfFour indices) {k : Nat} (keep : kept indices k = true) :
    rank indices k < K / 2 := by
  have group : k / 4 < K / 4 := by
    by_contra outside
    rw [kept, dif_neg outside] at keep
    exact Bool.false_ne_true keep
  have next := rank_succ indices k
  rw [if_pos keep] at next
  have all := rank_mono indices (by omega : k + 1 ≤ 4 * (k / 4 + 1))
  rw [rank_group two group] at all
  omega

end Expand

/-! ## The loops -/

section Loops
variable {R : Type*} [Semiring R] {M N K : Nat} {indices : Vector Int32 (K / 4)}

/-- The summand of position `k`. -/
def denseTerm (A : Vector R (M * K)) (Bsparse : Vector R (K / 2 * N)) (indices : Vector Int32 (K / 4))
    (i : Fin M) (j : Fin N) (k : Nat) : R :=
  if h : k < K then A.get (cell i ⟨k, h⟩) * expand Bsparse indices ⟨k, h⟩ j else 0

/-- A kept position reads the row that is expanded there. -/
theorem sparseVal_rank (Bsparse : Vector R (K / 2 * N)) (two : TwoOfFour indices) {k : Fin K} (j : Fin N)
    (keep : kept indices k.val = true) :
    sparseVal Bsparse (rank indices k.val) j.val = some (expand Bsparse indices k j) := by
  have row := rank_lt two keep
  rw [sparseVal, if_pos row, expand, dif_pos ⟨keep, row⟩]
  exact getElem?_cell Bsparse ⟨_, row⟩ j

variable (A : Vector R (M * K)) (Bsparse : Vector R (K / 2 * N)) (i : Fin M) (j : Fin N) (c : R)

/-- What the two variables of the loop are before position `k`. -/
def Before (indices : Vector Int32 (K / 4)) (A : Vector R (M * K)) (Bsparse : Vector R (K / 2 * N))
    (i : Fin M) (j : Fin N) (c : R) (k : Nat) (s : R × Nat) : Prop :=
  s = (c + ∑ l ∈ Finset.range k, denseTerm A Bsparse indices i j l, rank indices k)

/-- A kept position takes the next compressed row, the others take none. -/
theorem sparse_round (two : TwoOfFour indices) {q g : Nat} (lt : g < 4) (h : q < K / 4) {s : R × Nat}
    (before : Before indices A Bsparse i j c (4 * q + g) s) :
    ∃ s', sparseRound A Bsparse indices[q] i.val j.val (4 * q) s g = some s' ∧
      Before indices A Bsparse i j c (4 * q + g + 1) s' := by
  have inside : 4 * q + g < K := by omega
  have term : denseTerm A Bsparse indices i j (4 * q + g) =
      A.get (cell i ⟨_, inside⟩) * expand Bsparse indices ⟨_, inside⟩ j := dif_pos inside
  subst before
  rw [sparseRound, ← kept_eq lt h]
  split
  case isTrue keep =>
    have bVal := sparseVal_rank Bsparse two (k := ⟨_, inside⟩) j keep
    have aVal : A[i.val * K + (4 * q + g)]? = some (A.get (cell i ⟨_, inside⟩)) := getElem?_cell A i ⟨_, inside⟩
    refine ⟨_, by dsimp only at bVal ⊢; rw [bVal, aVal]; rfl, ?_⟩
    rw [Before, Finset.sum_range_succ, term, rank_succ, if_pos keep, add_assoc]
  case isFalse drop =>
    refine ⟨_, rfl, ?_⟩
    have zero : expand Bsparse indices ⟨_, inside⟩ j = 0 := dif_neg fun h => drop h.1
    rw [Before, Finset.sum_range_succ, term, zero, mul_zero, add_zero, rank_succ, if_neg drop, add_zero]

/-- A round of the loop over the groups, by its four positions. -/
theorem sparse_group (two : TwoOfFour indices) {q : Nat} (h : q < K / 4) {s : R × Nat}
    (before : Before indices A Bsparse i j c (4 * q) s) :
    ∃ s', sparseGroup A Bsparse indices i.val j.val s q = some s' ∧
      Before indices A Bsparse i j c (4 * (q + 1)) s' := by
  rw [sparseGroup, Vector.getElem?_eq_getElem h, Option.bind_some]
  exact foldlM_range (fun g s => Before indices A Bsparse i j c (4 * q + g) s)
    (fun g s lt before => sparse_round A Bsparse i j c two lt h before) before

/-- The loop adds up the products with the expanded rows. -/
theorem sparse_loop (div : 4 ∣ K) (two : TwoOfFour indices) :
    ∃ s, (List.range ((K + 3) / 4)).foldlM (sparseGroup A Bsparse indices i.val j.val) (c, 0) = some s ∧
      s.1 = c + ∑ k : Fin K, A.get (cell i k) * expand Bsparse indices k j := by
  have groups : (K + 3) / 4 = K / 4 := by omega
  have start : Before indices A Bsparse i j c (4 * 0) (c, 0) := by
    simp [Before, rank]
  obtain ⟨s, loop, last⟩ := foldlM_range (fun q s => Before indices A Bsparse i j c (4 * q) s)
    (fun q s lt before => sparse_group A Bsparse i j c two lt before) start
  refine ⟨s, by rw [groups]; exact loop, ?_⟩
  rw [last, Nat.mul_div_cancel' div, ← Fin.sum_univ_eq_sum_range]
  simp only [denseTerm, Fin.is_lt, dif_pos, Fin.eta]

end Loops

/-- **Skipping the zeros changes nothing.** The loop succeeds, so it reads and writes inside
its arrays, and computes the product with the dense matrix. -/
theorem tensor_core_mma_sparse_eq {R : Type*} [Semiring R] {M N K : Nat} (div : 4 ∣ K)
    (A : Vector R (M * K)) (Bsparse : Vector R (K / 2 * N)) {indices : Vector Int32 (K / 4)}
    (two : TwoOfFour indices) (C : Option (Vector R (M * N))) (D : Vector R (M * N)) :
    ∃ D', tensorCoreMmaSparse A Bsparse indices C D = some D' ∧ ∀ i j,
      D'.get (cell i j) = C.elim 0 (fun C => C.get (cell i j)) + ∑ k, A.get (cell i k) * expand Bsparse indices k j := by
  refine fill_cells _ _ (fun _ => rfl) (fun i j => ?_) D
  have start : (C.elim (some 0) fun C => C[i.val * N + j.val]?) = some (C.elim 0 fun C => C.get (cell i j)) := by
    cases C with
    | none => rfl
    | some C => exact getElem?_cell C i j
  obtain ⟨s, loop, sum⟩ := sparse_loop A Bsparse i j (C.elim 0 fun C => C.get (cell i j)) div two
  rw [start, Option.bind_eq_bind, Option.bind_some, loop]
  exact congrArg some sum

/-- A row, four compressed rows of one entry, and the patterns of two groups. -/
def sparseRow : Vector Int (1 * 8) := #v[1, 2, 3, 4, 5, 6, 7, 8]

def sparseRows : Vector Int (8 / 2 * 1) := #v[10, 20, 30, 40]

def sparsePatterns : Vector Int32 (8 / 4) := #v[5, 12]

theorem tensor_core_mma_sparse_eq_groups :
    ∃ D', tensorCoreMmaSparse sparseRow sparseRows sparsePatterns none (#v[0] : Vector Int (1 * 1)) = some D' ∧
      ∀ i j, D'.get (cell i j) = (none : Option (Vector Int (1 * 1))).elim 0 (fun C => C.get (cell i j)) +
        ∑ k, sparseRow.get (cell i k) * expand sparseRows sparsePatterns k j :=
  tensor_core_mma_sparse_eq (by decide) sparseRow sparseRows (by decide) none #v[0]

/-! ## Pruning to two of four -/

section Prune
variable {K : Type*} [LinearOrder K]

/-- The body of the loops over `a` and `b`. -/
def pruneSwap (group : Fin 4 → K × Fin 4) (p : Fin 4 × Fin 4) : Fin 4 → K × Fin 4 :=
  if (group p.1).1 < (group p.2).1 then Function.update (Function.update group p.1 (group p.2)) p.2 (group p.1)
  else group

/-- The loops that sort `group` and `indices`. -/
def pruneSort (group : Fin 4 → K × Fin 4) : Fin 4 → K × Fin 4 :=
  [(0, 1), (0, 2), (0, 3), (1, 2), (1, 3), (2, 3)].foldl pruneSwap group

/-- `keep_mask`. -/
def keepMask (group : Fin 4 → K × Fin 4) (k : Fin 4) : Bool := k == (group 0).2 || k == (group 1).2

section Order
variable {group : Fin 4 → K × Fin 4} {a b c k : Fin 4}

/-- Place `a` has no less than place `k`. -/
def Above (group : Fin 4 → K × Fin 4) (a k : Fin 4) : Prop := (group k).1 ≤ (group a).1

/-- A swap leaves the other places, and orders its two. -/
theorem pruneSwap_cases (group : Fin 4 → K × Fin 4) (ne : a ≠ b) :
    (∀ k, k ≠ a → k ≠ b → pruneSwap group (a, b) k = group k) ∧
      ((group b).1 ≤ (group a).1 ∧ pruneSwap group (a, b) a = group a ∧ pruneSwap group (a, b) b = group b ∨
        (group a).1 < (group b).1 ∧ pruneSwap group (a, b) a = group b ∧ pruneSwap group (a, b) b = group a) := by
  rw [pruneSwap]
  dsimp only
  split
  · rename_i lt
    refine ⟨fun k ka kb => by rw [Function.update_of_ne kb, Function.update_of_ne ka], .inr ⟨lt, ?_, ?_⟩⟩
    · rw [Function.update_of_ne ne, Function.update_self]
    · rw [Function.update_self]
  · rename_i le
    exact ⟨fun k _ _ => rfl, .inl ⟨not_lt.1 le, rfl, rfl⟩⟩

/-- After a swap its first place is above its second. -/
theorem above_here (group : Fin 4 → K × Fin 4) (ne : a ≠ b) : Above (pruneSwap group (a, b)) a b := by
  rw [Above]
  rcases (pruneSwap_cases group ne).2 with ⟨le, atA, atB⟩ | ⟨lt, atA, atB⟩
  · rwa [atA, atB]
  · rw [atA, atB]
    exact lt.le

/-- What was below the first place is below it still. -/
theorem above_from (ne : a ≠ b) (ka : k ≠ a) (kb : k ≠ b) (h : Above group a k) : Above (pruneSwap group (a, b)) a k := by
  obtain ⟨others, cases⟩ := pruneSwap_cases group ne
  rw [Above, others k ka kb]
  rcases cases with ⟨-, atA, -⟩ | ⟨lt, atA, -⟩
  · rwa [atA]
  · rw [atA]
    exact le_trans h lt.le

/-- A place above both is above both after the swap. -/
theorem above_both (ne : a ≠ b) (ca : c ≠ a) (cb : c ≠ b) (ha : Above group c a) (hb : Above group c b) :
    Above (pruneSwap group (a, b)) c a ∧ Above (pruneSwap group (a, b)) c b := by
  obtain ⟨others, cases⟩ := pruneSwap_cases group ne
  rw [Above, Above, others c ca cb]
  rcases cases with ⟨-, atA, atB⟩ | ⟨-, atA, atB⟩
  · rw [atA, atB]
    exact ⟨ha, hb⟩
  · rw [atA, atB]
    exact ⟨hb, ha⟩

/-- A swap of other places changes nothing between two. -/
theorem above_away (ne : a ≠ b) (ca : c ≠ a) (cb : c ≠ b) (ka : k ≠ a) (kb : k ≠ b) (h : Above group c k) :
    Above (pruneSwap group (a, b)) c k := by
  obtain ⟨others, -⟩ := pruneSwap_cases group ne
  rw [Above, others c ca cb, others k ka kb]
  exact h

/-- After all rounds the first two places have no less than the last two. -/
theorem pruneSort_above (group : Fin 4 → K × Fin 4) :
    (Above (pruneSort group) 0 2 ∧ Above (pruneSort group) 0 3) ∧
      Above (pruneSort group) 1 2 ∧ Above (pruneSort group) 1 3 := by
  rw [pruneSort, List.foldl_cons, List.foldl_cons, List.foldl_cons, List.foldl_cons, List.foldl_cons, List.foldl_cons,
    List.foldl_nil]
  -- place 0 becomes the greatest, round by round
  have h01 := above_here group (a := 0) (b := 1) (by decide)
  generalize pruneSwap group (0, 1) = g at h01 ⊢
  have k01 := above_from (a := 0) (b := 2) (by decide) (by decide) (by decide) h01
  have k02 := above_here g (a := 0) (b := 2) (by decide)
  generalize pruneSwap g (0, 2) = g at k01 k02 ⊢
  have l01 := above_from (a := 0) (b := 3) (by decide) (by decide) (by decide) k01
  have l02 := above_from (a := 0) (b := 3) (by decide) (by decide) (by decide) k02
  have l03 := above_here g (a := 0) (b := 3) (by decide)
  generalize pruneSwap g (0, 3) = g at l01 l02 l03 ⊢
  -- then place 1 the greatest of the others
  obtain ⟨-, m02⟩ := above_both (a := 1) (b := 2) (by decide) (by decide) (by decide) l01 l02
  have m03 := above_away (a := 1) (b := 2) (by decide) (by decide) (by decide) (by decide) (by decide) l03
  have m12 := above_here g (a := 1) (b := 2) (by decide)
  obtain ⟨m01, -⟩ := above_both (a := 1) (b := 2) (by decide) (by decide) (by decide) l01 l02
  generalize pruneSwap g (1, 2) = g at m01 m02 m03 m12 ⊢
  obtain ⟨-, n03⟩ := above_both (a := 1) (b := 3) (by decide) (by decide) (by decide) m01 m03
  have n02 := above_away (a := 1) (b := 3) (by decide) (by decide) (by decide) (by decide) (by decide) m02
  have n12 := above_from (a := 1) (b := 3) (by decide) (by decide) (by decide) m12
  have n13 := above_here g (a := 1) (b := 3) (by decide)
  generalize pruneSwap g (1, 3) = g at n02 n03 n12 n13 ⊢
  exact ⟨above_both (by decide) (by decide) (by decide) n02 n03,
    above_both (by decide) (by decide) (by decide) n12 n13⟩

/-- Sorting rearranges the group. -/
theorem pruneSort_perm (group : Fin 4 → K × Fin 4) :
    ∃ σ : Equiv.Perm (Fin 4), ∀ k, pruneSort group k = group (σ k) := by
  have rounds : ∀ l : List (Fin 4 × Fin 4), (∀ p ∈ l, p.1 ≠ p.2) →
      ∃ σ : Equiv.Perm (Fin 4), ∀ k, l.foldl pruneSwap group k = group (σ k) := by
    intro l distinct
    apply List.foldlRecOn (motive := fun g => ∃ σ : Equiv.Perm (Fin 4), ∀ k, g k = group (σ k)) l pruneSwap
    · exact ⟨Equiv.refl _, fun k => rfl⟩
    · rintro g ⟨σ, same⟩ ⟨a, b⟩ mem
      have ne := distinct _ mem
      obtain ⟨others, ⟨-, atA, atB⟩ | ⟨-, atA, atB⟩⟩ := pruneSwap_cases g ne
      · refine ⟨σ, fun k => ?_⟩
        rcases eq_or_ne k a with rfl | ka
        · rw [atA, same]
        · rcases eq_or_ne k b with rfl | kb
          · rw [atB, same]
          · rw [others k ka kb, same]
      · refine ⟨(Equiv.swap a b).trans σ, fun k => ?_⟩
        rw [Equiv.trans_apply]
        rcases eq_or_ne k a with rfl | ka
        · rw [atA, Equiv.swap_apply_left, same]
        · rcases eq_or_ne k b with rfl | kb
          · rw [atB, Equiv.swap_apply_right, same]
          · rw [others k ka kb, Equiv.swap_apply_of_ne_of_ne ka kb, same]
  exact rounds _ (by decide)

/-- Of places numbered as they stand two are kept, and none that is dropped has more than one of them. -/
theorem keepMask_sorted (size : Fin 4 → K) :
    let mask := keepMask (pruneSort fun k => (size k, k))
    (Finset.univ.filter fun k => mask k = true).card = 2 ∧ ∀ i j, mask i = false → mask j = true → size i ≤ size j := by
  intro mask
  obtain ⟨σ, sorted⟩ := pruneSort_perm fun k => (size k, k)
  have above := pruneSort_above fun k => (size k, k)
  simp only [Above, sorted] at above
  have kept (k : Fin 4) : mask k = true ↔ k = σ 0 ∨ k = σ 1 := by
    show keepMask _ k = true ↔ _
    rw [keepMask, sorted, sorted, Bool.or_eq_true, beq_iff_eq, beq_iff_eq]
  constructor
  · have two : (Finset.univ.filter fun k => mask k = true) = {σ 0, σ 1} := by
      ext k
      rw [Finset.mem_filter, kept, Finset.mem_insert, Finset.mem_singleton]
      exact and_iff_right (Finset.mem_univ k)
    rw [two, Finset.card_pair (σ.injective.ne (by decide))]
  · intro i j dropped keep
    have back : i = σ 2 ∨ i = σ 3 := by
      obtain ⟨k, rfl⟩ := σ.surjective i
      have gone : ¬ mask (σ k) = true := by
        rw [dropped]
        exact Bool.false_ne_true
      rw [kept, σ.apply_eq_iff_eq, σ.apply_eq_iff_eq] at gone
      rw [σ.apply_eq_iff_eq, σ.apply_eq_iff_eq]
      have places : ∀ k : Fin 4, ¬ (k = 0 ∨ k = 1) → k = 2 ∨ k = 3 := by decide
      exact places k gone
    rcases (kept j).1 keep with rfl | rfl <;> rcases back with rfl | rfl
    · exact above.1.1
    · exact above.1.2
    · exact above.2.1
    · exact above.2.2

end Order

variable [Field K] {n : Nat}

/-- `group` and `indices` before they are sorted; what lies behind the last weight is not initialized. -/
def pruneGroup (weights : Vector K n) (stale : Fin 4 → K) (i : Nat) (k : Fin 4) : K × Fin 4 :=
  (if h : i + k.val < n then |weights.get ⟨i + k.val, h⟩| else stale k, k)

/-- The body of the loop over `i`; round `q` is that of `i = 4 * q`. -/
def pruneRound (stale : Nat → Fin 4 → K) (weights : Vector K n) (q : Nat) : Vector K n :=
  let mask := keepMask (pruneSort (pruneGroup weights (stale q) (q * 4)))
  (List.finRange 4).foldl
    (fun weights k => if h : q * 4 + k.val < n then (if mask k then weights else weights.set (q * 4 + k.val) 0) else weights)
    weights

def sparse2of4Prune (stale : Nat → Fin 4 → K) (weights : Vector K n) : Vector K n :=
  (List.range ((n + 3) / 4)).foldl (pruneRound stale) weights

/-- The weights of a group; behind the last weight, zeros. -/
def groupOf (weights : Vector K n) (q : Nat) (k : Fin 4) : K :=
  if h : q * 4 + k.val < n then weights.get ⟨q * 4 + k.val, h⟩ else 0

/-- What a round sorts, by the weights of its group. -/
theorem pruneGroup_eq (weights : Vector K n) (stale : Fin 4 → K) (q : Nat) :
    pruneGroup weights stale (q * 4) =
      fun k => (if q * 4 + k.val < n then |groupOf weights q k| else stale k, k) := by
  funext k
  by_cases inside : q * 4 + k.val < n
  · rw [pruneGroup, dif_pos inside, if_pos inside, groupOf, dif_pos inside]
  · rw [pruneGroup, dif_neg inside, if_neg inside]

/-- What round `q` leaves of its own group. -/
def prunedGroup (n : Nat) (stale : Fin 4 → K) (q : Nat) (group : Fin 4 → K) (k : Fin 4) : K :=
  if keepMask (pruneSort fun k => (if q * 4 + k.val < n then |group k| else stale k, k)) k then group k else 0

omit [LinearOrder K] in
/-- Setting one weight to zero changes one entry of one group. -/
theorem groupOf_set (weights : Vector K n) (q q' : Nat) (k k' : Fin 4) (inside : q' * 4 + k'.val < n) :
    groupOf (weights.set (q' * 4 + k'.val) 0) q k = if q = q' ∧ k = k' then 0 else groupOf weights q k := by
  have same : q * 4 + k.val = q' * 4 + k'.val ↔ q = q' ∧ k = k' := by
    rw [Fin.ext_iff]
    omega
  by_cases here : q * 4 + k.val < n
  · rw [groupOf, groupOf, dif_pos here, dif_pos here, ← if_congr same rfl rfl]
    rw [get_set weights ⟨q' * 4 + k'.val, inside⟩ ⟨q * 4 + k.val, here⟩ 0]
    exact if_congr Fin.mk_eq_mk rfl rfl
  · rw [groupOf, groupOf, dif_neg here, dif_neg here, ite_self]

/-- A round prunes its own group and leaves the others as they are. -/
theorem groupOf_pruneRound (stale : Nat → Fin 4 → K) (weights : Vector K n) (q q' : Nat) :
    groupOf (pruneRound stale weights q') q =
      if q = q' then prunedGroup n (stale q) q (groupOf weights q) else groupOf weights q := by
  funext k
  rw [pruneRound, pruneGroup_eq]
  by_cases here : q = q'
  · subst here
    rw [if_pos rfl, prunedGroup]
    generalize keepMask (pruneSort fun k => (if q * 4 + k.val < n then |groupOf weights q k| else stale q k, k)) = mask
    refine foldl_owned (fun w => groupOf w q k) (fun x => if mask k then x else 0) (List.mem_finRange k)
      (List.nodup_finRange 4) (fun w => ?_) (fun w k' ne => ?_) weights
    · by_cases inside : q * 4 + k.val < n
      · rw [dif_pos inside]
        split
        · rfl
        · rw [groupOf_set, if_pos ⟨rfl, rfl⟩]
      · -- behind the last weight there is nothing to keep or to drop
        rw [dif_neg inside, groupOf, dif_neg inside, ite_self]
    · split
      · split
        · rfl
        · rw [groupOf_set, if_neg fun both => ne both.2.symm]
      · rfl
  · rw [if_neg here]
    refine foldl_kept (fun w => groupOf w q k) (fun w k' _ => ?_) weights
    split
    · split
      · rfl
      · rw [groupOf_set, if_neg fun both => here both.1]
    · rfl

/-- Every group is pruned by its own round. -/
theorem groupOf_prune (stale : Nat → Fin 4 → K) (weights : Vector K n) {q : Nat} (inside : q * 4 < n) :
    groupOf (sparse2of4Prune stale weights) q = prunedGroup n (stale q) q (groupOf weights q) := by
  have round : q ∈ List.range ((n + 3) / 4) := List.mem_range.2 (by omega)
  rw [sparse2of4Prune]
  refine foldl_owned (fun w => groupOf w q) (prunedGroup n (stale q) q) round List.nodup_range (fun w => ?_)
    (fun w q' ne => ?_) weights
  · rw [groupOf_pruneRound, if_pos rfl]
  · rw [groupOf_pruneRound, if_neg fun eq => ne eq.symm]

omit [LinearOrder K] in
/-- The weights are those of their groups. -/
theorem get_groupOf (weights : Vector K n) (i : Fin n) :
    weights.get i = groupOf weights (i.val / 4) ⟨i.val % 4, Nat.mod_lt _ (by decide)⟩ := by
  have place : i.val / 4 * 4 + i.val % 4 = i.val := Nat.div_add_mod' i.val 4
  rw [groupOf, dif_pos (place.trans_lt i.isLt)]
  exact congrArg weights.get (Fin.ext place.symm)

omit [LinearOrder K] in
/-- Of whole groups the squared error is the sum over the groups. -/
theorem sum_groups {m : Nat} (weights other : Vector K (m * 4)) :
    ∑ i, (weights.get i - other.get i) ^ 2 =
      ∑ q : Fin m, ∑ k, (groupOf weights q k - groupOf other q k) ^ 2 := by
  rw [← Fintype.sum_prod_type', ← Equiv.sum_comp finProdFinEquiv]
  refine Finset.sum_congr rfl fun p _ => ?_
  have at_cell (v : Vector K (m * 4)) : v.get (finProdFinEquiv p) = groupOf v p.1 p.2 := by
    have place : (finProdFinEquiv p).val = p.1.val * 4 + p.2.val := by
      rw [finProdFinEquiv_apply_val, Nat.add_comm, Nat.mul_comm]
    rw [groupOf, dif_pos (place.symm.trans_lt (finProdFinEquiv p).isLt)]
    exact congrArg v.get (Fin.ext place)
  rw [at_cell, at_cell]

variable [IsStrictOrderedRing K]

/-- Of a whole group no two other weights are a better choice. -/
theorem prunedGroup_best (stale : Fin 4 → K) {q : Nat} (whole : q * 4 + 4 ≤ n) (group other : Fin 4 → K)
    (sparse : (Finset.univ.filter fun k => other k ≠ 0).card ≤ 2) :
    ∑ k, (group k - prunedGroup n stale q group k) ^ 2 ≤ ∑ k, (group k - other k) ^ 2 := by
  have sizes : (fun k : Fin 4 => (if q * 4 + k.val < n then |group k| else stale k, k)) = fun k => (|group k|, k) := by
    funext k
    rw [if_pos (by omega)]
  obtain ⟨two, least⟩ := keepMask_sorted fun k => |group k|
  generalize masked : keepMask (pruneSort fun k => (|group k|, k)) = mask at two least
  have dropped : ∑ k, (group k - prunedGroup n stale q group k) ^ 2 = ∑ k with mask k = false, group k ^ 2 := by
    rw [Finset.sum_filter]
    apply Finset.sum_congr rfl
    intro k _
    rw [prunedGroup, sizes, masked]
    cases mask k
    · simp
    · simp
  have zeros : ∑ k with other k = 0, group k ^ 2 ≤ ∑ k, (group k - other k) ^ 2 := by
    rw [Finset.sum_filter]
    apply Finset.sum_le_sum
    intro k _
    split
    · rename_i zero
      rw [zero, sub_zero]
    · exact sq_nonneg _
  rw [dropped]
  have few : (Finset.univ.filter fun k => mask k = false).card ≤ (Finset.univ.filter fun k => other k = 0).card := by
    have masks := Finset.univ.card_filter_add_card_filter_not fun k => mask k = true
    have others := Finset.univ.card_filter_add_card_filter_not fun k => other k = 0
    simp only [Bool.not_eq_true] at masks
    change _ + (Finset.univ.filter fun k => other k ≠ 0).card = _ at others
    omega
  refine le_trans (sum_least_le few (fun i hi j hj => ?_) fun k => sq_nonneg (group k)) zeros
  obtain ⟨-, gone⟩ := Finset.mem_filter.1 hi
  have kept : mask j = true := by
    by_contra not
    exact hj (Finset.mem_filter.2 ⟨Finset.mem_univ j, Bool.eq_false_iff.2 not⟩)
  exact sq_le_sq.2 (least i j gone kept)

omit [IsStrictOrderedRing K] in
/-- Whatever the uninitialized entries are, no more than two weights of a group stay. -/
theorem prunedGroup_sparse (stale : Fin 4 → K) (q : Nat) (group : Fin 4 → K) :
    (Finset.univ.filter fun k => prunedGroup n stale q group k ≠ 0).card ≤ 2 := by
  obtain ⟨two, -⟩ := keepMask_sorted fun k : Fin 4 => if q * 4 + k.val < n then |group k| else stale k
  rw [← two]
  apply Finset.card_le_card
  intro k mem
  rw [Finset.mem_filter] at mem ⊢
  refine ⟨mem.1, ?_⟩
  by_contra dropped
  exact mem.2 (if_neg dropped)

/-- At most two weights of each group of four are not zero, nor of the last, which may be shorter. -/
def TwoKept (weights : Vector K n) : Prop :=
  ∀ q, (Finset.univ.filter fun k => groupOf weights q k ≠ 0).card ≤ 2

/-- Pruning keeps a weight or drops it and leaves two of every four. In a group of four no other choice
is nearer to the weights, and none at all where the groups are whole; which weights of a last, shorter
group stay depends on entries of `group` that were never written. -/
theorem sparse2of4Prune_best (stale : Nat → Fin 4 → K) (weights : Vector K n) :
    (∀ i, (sparse2of4Prune stale weights).get i = weights.get i ∨ (sparse2of4Prune stale weights).get i = 0) ∧
      TwoKept (sparse2of4Prune stale weights) ∧
      ∀ other : Vector K n, TwoKept other →
        (∀ q, q * 4 + 4 ≤ n →
          ∑ k, (groupOf weights q k - groupOf (sparse2of4Prune stale weights) q k) ^ 2 ≤
            ∑ k, (groupOf weights q k - groupOf other q k) ^ 2) ∧
        (4 ∣ n →
          ∑ i, (weights.get i - (sparse2of4Prune stale weights).get i) ^ 2 ≤
            ∑ i, (weights.get i - other.get i) ^ 2) := by
  generalize eq : sparse2of4Prune stale weights = pruned
  have group {q : Nat} (inside : q * 4 < n) : groupOf pruned q = prunedGroup n (stale q) q (groupOf weights q) :=
    eq ▸ groupOf_prune stale weights inside
  refine ⟨fun i => ?_, fun q => ?_, fun other sparse => ?_⟩
  · rw [get_groupOf pruned, group (by omega), get_groupOf weights i, prunedGroup]
    split
    · exact .inl rfl
    · exact .inr rfl
  · rcases Nat.lt_or_ge (q * 4) n with inside | behind
    · rw [group inside]
      exact prunedGroup_sparse _ _ _
    · have none : (Finset.univ.filter fun k => groupOf pruned q k ≠ 0) = ∅ :=
        Finset.filter_eq_empty_iff.2 fun k _ => not_not.2 (dif_neg (by omega))
      rw [none]
      exact Nat.zero_le 2
  · have best (q : Nat) (whole : q * 4 + 4 ≤ n) : ∑ k, (groupOf weights q k - groupOf pruned q k) ^ 2 ≤
        ∑ k, (groupOf weights q k - groupOf other q k) ^ 2 := by
      rw [group (by omega)]
      exact prunedGroup_best _ whole _ _ (sparse q)
    refine ⟨best, ?_⟩
    rintro ⟨m, size⟩
    obtain rfl : n = m * 4 := size.trans (Nat.mul_comm 4 m)
    rw [sum_groups, sum_groups]
    exact Finset.sum_le_sum fun q _ => best q (by omega)

/-- Here the first two weights of the group are no better choice. -/
theorem sparse2of4Prune_best_group :
    let weights : Vector Rat 4 := #v[1, -3, 2, 0]
    let other : Vector Rat 4 := #v[1, -3, 0, 0]
    let pruned := sparse2of4Prune (fun _ _ => 0) weights
    TwoKept pruned ∧ ∑ i, (weights.get i - pruned.get i) ^ 2 ≤ ∑ i, (weights.get i - other.get i) ^ 2 := by
  intro weights other pruned
  obtain ⟨-, sparse, best⟩ := sparse2of4Prune_best (fun _ _ => 0) weights
  have two : TwoKept other := by
    intro q
    rcases q with _ | q
    · decide +kernel
    · have none : (Finset.univ.filter fun k => groupOf other (q + 1) k ≠ 0) = ∅ :=
        Finset.filter_eq_empty_iff.2 fun k _ => not_not.2 (dif_neg (by omega))
      rw [none]
      exact Nat.zero_le 2
  exact ⟨sparse, (best other two).2 (by decide)⟩

end Prune

end MiniHardware.Accel
