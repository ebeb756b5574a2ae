import MiniHardware.Lib.XorSum

/-!
# Boolean masking (`mini-hardware-security/src/side_channel.c`)

A secret byte is kept as shares whose exclusive or it is. A random source is
the sequence of values its successive calls return; the default one, for
`NULL`, is such a sequence too.
-/

namespace MiniHardware.Security
open Lib

/-- The indices used of `shares[8]` are those below `share_count`. -/
structure MiniHwSecMaskedByte where
  shares : Nat → UInt8
  shareCount : Nat
  le : shareCount ≤ 8

/-- `shares[i] = x`. -/
def setShare (shares : Nat → UInt8) (i : Nat) (x : UInt8) : Nat → UInt8 :=
  fun k => if k = i then x else shares k

/-- The loop of `mask_init`; the state is the shares and `xor_sum`. -/
def initStep (rng : Nat → UInt8) (s : (Nat → UInt8) × UInt8) (i : Nat) : (Nat → UInt8) × UInt8 :=
  let shares := setShare s.1 i (rng i)
  (shares, s.2 ^^^ shares i)

def maskInit (mb : MiniHwSecMaskedByte) (value : UInt8) (shares : Int) (rng : Nat → UInt8) :
    MiniHwSecMaskedByte :=
  if h : shares < 2 ∨ shares > 8 then mb
  else
    let s := (List.range (shares.toNat - 1)).foldl (initStep rng) (mb.shares, 0)
    { shares := setShare s.1 (shares.toNat - 1) (value ^^^ s.2)
      shareCount := shares.toNat
      le := by omega }

def maskUnmask (mb : MiniHwSecMaskedByte) : UInt8 :=
  (List.range mb.shareCount).foldl (fun result i => result ^^^ mb.shares i) 0

section And

variable (a b : Nat → UInt8) (rng : Nat → UInt8)

/-- The body of the inner loop of `mask_and`; the state is the shares of the result and the number
of random values drawn. -/
def crossStep (i : Nat) (s : (Nat → UInt8) × Nat) (j : Nat) : (Nat → UInt8) × Nat :=
  let r := rng s.2
  let cross1 := a i &&& b j
  let cross2 := a j &&& b i
  let shares := setShare s.1 i (s.1 i ^^^ r)
  (setShare shares j (shares j ^^^ (cross1 ^^^ cross2 ^^^ r)), s.2 + 1)

/-- The body of the outer loop. -/
def rowStep (n : Nat) (s : (Nat → UInt8) × Nat) (i : Nat) : (Nat → UInt8) × Nat :=
  (List.range' (i + 1) (n - (i + 1))).foldl (crossStep a b rng i) (setShare s.1 i (a i &&& b i), s.2)

end And

def maskAnd (a b : MiniHwSecMaskedByte) (rng : Nat → UInt8) : MiniHwSecMaskedByte :=
  let n := a.shareCount
  let n := if b.shareCount < n then b.shareCount else n
  let n := if n > 8 then 8 else n
  { shares := ((List.range n).foldl (rowStep a.shares b.shares rng n) (fun _ => 0, 0)).1
    shareCount := n
    le := by
      dsimp only [n]
      split
      · exact Nat.le_refl 8
      · omega }

/-! ## Sharing -/

@[simp] theorem set_share_self (shares : Nat → UInt8) (i : Nat) (x : UInt8) :
    setShare shares i x i = x := if_pos rfl

theorem set_share_of_ne (shares : Nat → UInt8) (x : UInt8) {i k : Nat} (ne : k ≠ i) :
    setShare shares i x k = shares k := if_neg ne

theorem mask_unmask_eq (mb : MiniHwSecMaskedByte) : maskUnmask mb = xorSum mb.shares mb.shareCount :=
  rfl

/-- The shares that `mask_init` computes: the random values, and what is missing from them. -/
def shareOf (value : UInt8) (n : Nat) (rng : Nat → UInt8) (i : Nat) : UInt8 :=
  if i = n - 1 then value ^^^ xorSum rng (n - 1) else rng i

theorem xorSum_shareOf (value : UInt8) (rng : Nat → UInt8) {n : Nat} (pos : 0 < n) :
    xorSum (shareOf value n rng) n = value := by
  obtain ⟨m, rfl⟩ := Nat.exists_eq_succ_of_ne_zero (Nat.ne_of_gt pos)
  have drawn : xorSum (shareOf value (m + 1) rng) m = xorSum rng m := by
    apply xorSum_congr
    intro i lt
    exact if_neg (Nat.ne_of_lt lt)
  rw [xorSum_succ, drawn, shareOf, Nat.succ_sub_one, if_pos rfl, UInt8.xor_comm value,
    ← UInt8.xor_assoc, UInt8.xor_self, UInt8.zero_xor]

theorem init_loop (shares : Nat → UInt8) (rng : Nat → UInt8) (m : Nat) :
    let s := (List.range m).foldl (initStep rng) (shares, 0)
    (∀ i < m, s.1 i = rng i) ∧ s.2 = xorSum rng m := by
  induction m with
  | zero => exact ⟨fun i lt => absurd lt (Nat.not_lt_zero i), rfl⟩
  | succ m ih =>
    dsimp only at ih ⊢
    obtain ⟨set, sum⟩ := ih
    rw [List.range_succ, List.foldl_append]
    simp only [List.foldl_cons, List.foldl_nil, initStep, set_share_self, xorSum_succ, sum, and_true]
    intro i lt
    rcases Nat.lt_succ_iff_lt_or_eq.1 lt with lt | rfl
    · rw [set_share_of_ne _ _ (Nat.ne_of_lt lt)]
      exact set i lt
    · exact set_share_self _ _ _

theorem mask_init_spec (mb : MiniHwSecMaskedByte) (value : UInt8) (rng : Nat → UInt8) {n : Nat}
    (two : 2 ≤ n) (eight : n ≤ 8) :
    (maskInit mb value n rng).shareCount = n ∧
      ∀ i < n, (maskInit mb value n rng).shares i = shareOf value n rng i := by
  have valid : ¬((n : Int) < 2 ∨ (n : Int) > 8) := by omega
  unfold maskInit
  rw [dif_neg valid]
  obtain ⟨set, sum⟩ := init_loop mb.shares rng (n - 1)
  refine ⟨rfl, fun i lt => ?_⟩
  simp only [Int.toNat_natCast, sum, shareOf]
  split
  · rename_i last
    rw [last, set_share_self]
  · rename_i ne
    rw [set_share_of_ne _ _ ne]
    exact set i (by omega)

/-- The round trip of masking. -/
theorem mask_unmask_init (mb : MiniHwSecMaskedByte) (value : UInt8) (rng : Nat → UInt8) {n : Nat}
    (two : 2 ≤ n) (eight : n ≤ 8) : maskUnmask (maskInit mb value n rng) = value := by
  obtain ⟨count, shares⟩ := mask_init_spec mb value rng two eight
  rw [mask_unmask_eq, count, xorSum_congr shares]
  exact xorSum_shareOf value rng (by omega)

/-! ## What `mask_and` computes -/

section And

variable {a b rng : Nat → UInt8}

/-- A row draws one value for each later share, and adds them to the share of the row, from the
diagonal product on; earlier shares stay. What it adds to the later shares does not matter: their own
rows start with an assignment. -/
theorem row_loop (s : (Nat → UInt8) × Nat) (i m : Nat) :
    let t := (List.range' (i + 1) m).foldl (crossStep a b rng i) (setShare s.1 i (a i &&& b i), s.2)
    t.2 = s.2 + m ∧ t.1 i = (a i &&& b i) ^^^ xorSum (fun k => rng (s.2 + k)) m ∧
      ∀ k < i, t.1 k = s.1 k := by
  induction m with
  | zero =>
    refine ⟨rfl, ?_, fun k lt => ?_⟩
    · exact (set_share_self _ _ _).trans UInt8.xor_zero.symm
    · exact set_share_of_ne _ _ (Nat.ne_of_lt lt)
  | succ m ih =>
    dsimp only at ih ⊢
    obtain ⟨drawn, own, earlier⟩ := ih
    rw [List.range'_1_concat, List.foldl_append]
    generalize (List.range' (i + 1) m).foldl _ _ = t at drawn own earlier
    simp only [List.foldl_cons, List.foldl_nil, crossStep]
    refine ⟨congrArg (· + 1) drawn, ?_, fun k lt => ?_⟩
    · rw [set_share_of_ne _ _ (by omega), set_share_self, own, xorSum_succ, drawn, UInt8.xor_assoc]
    · rw [set_share_of_ne _ _ (by omega), set_share_of_ne _ _ (by omega)]
      exact earlier k lt

/-- After `m` of the rows. -/
theorem rows_loop {n : Nat} (m : Nat) (le : m ≤ n) :
    let t := (List.range m).foldl (rowStep a b rng n) (fun _ => 0, 0)
    2 * t.2 + m * (m + 1) = 2 * (m * n) ∧
      xorSum t.1 m = xorSum (fun i => a i &&& b i) m ^^^ xorSum rng t.2 := by
  induction m with
  | zero => exact ⟨by simp, UInt8.xor_zero.symm⟩
  | succ m ih =>
    dsimp only at ih ⊢
    obtain ⟨count, sum⟩ := ih (Nat.le_of_succ_le le)
    rw [List.range_succ, List.foldl_append]
    generalize (List.range m).foldl _ _ = s at count sum
    obtain ⟨drawn, own, earlier⟩ := @row_loop a b rng s m (n - (m + 1))
    simp only [List.foldl_cons, List.foldl_nil, rowStep]
    generalize (List.range' (m + 1) (n - (m + 1))).foldl _ _ = t at drawn own earlier
    constructor
    · obtain ⟨d, rfl⟩ := Nat.exists_eq_add_of_le le
      rw [Nat.add_sub_cancel_left] at drawn
      simp only [drawn, Nat.add_mul, Nat.mul_add] at count ⊢
      omega
    · rw [xorSum_succ, xorSum_succ, xorSum_congr earlier, sum, own, drawn, xorSum_append,
        xor_xor_xor_comm]

/-- Of the products only the diagonal is left, and the random values do not cancel. -/
theorem mask_unmask_and {a b : MiniHwSecMaskedByte} {n : Nat} (rng : Nat → UInt8)
    (countA : a.shareCount = n) (countB : b.shareCount = n) :
    maskUnmask (maskAnd a b rng) =
      xorSum (fun i => a.shares i &&& b.shares i) n ^^^ xorSum rng (n * (n - 1) / 2) := by
  have count : (maskAnd a b rng).shareCount = n := by
    have le := a.le
    rw [countA] at le
    simp only [maskAnd, countA, countB, Nat.lt_irrefl, if_false]
    exact if_neg (by omega)
  obtain ⟨drawn, sum⟩ := @rows_loop a.shares b.shares rng n n (Nat.le_refl n)
  have draws : ((List.range n).foldl (rowStep a.shares b.shares rng n) (fun _ => 0, 0)).2 =
      n * (n - 1) / 2 := by
    rw [Nat.mul_sub, Nat.mul_one]
    rw [Nat.mul_add, Nat.mul_one] at drawn
    omega
  rw [mask_unmask_eq, count]
  rw [draws] at sum
  have shares : (maskAnd a b rng).shares =
      ((List.range n).foldl (rowStep a.shares b.shares rng n) (fun _ => 0, 0)).1 := by
    rw [← count]
    rfl
  rw [shares, sum]

end And

/-- `mask_and` is right exactly when the random values it draws happen to add up to the cross
products of the two sharings. -/
theorem mask_and_correct_iff (x y : MiniHwSecMaskedByte) (a b : UInt8) (rngA rngB rng : Nat → UInt8)
    {n : Nat} (two : 2 ≤ n) (eight : n ≤ 8) :
    maskUnmask (maskAnd (maskInit x a n rngA) (maskInit y b n rngB) rng) = a &&& b ↔
      xorSum rng (n * (n - 1) / 2) = crossSum (shareOf a n rngA) (shareOf b n rngB) n := by
  obtain ⟨countA, sharesA⟩ := mask_init_spec x a rngA two eight
  obtain ⟨countB, sharesB⟩ := mask_init_spec y b rngB two eight
  have diagonal : xorSum (fun i => (maskInit x a n rngA).shares i &&& (maskInit y b n rngB).shares i) n =
      xorSum (fun i => shareOf a n rngA i &&& shareOf b n rngB i) n := by
    apply xorSum_congr
    intro i lt
    rw [sharesA i lt, sharesB i lt]
  have product := xorSum_and_xorSum (shareOf a n rngA) (shareOf b n rngB) n
  rw [xorSum_shareOf a rngA (by omega), xorSum_shareOf b rngB (by omega)] at product
  rw [mask_unmask_and rng countA countB, diagonal, product]
  exact UInt8.xor_right_inj _

/-- Three shares of `0xFF` and `0x0F`, all random values 0 but the first ones of each sharing. -/
theorem mask_and_correct_iff_three :
    maskUnmask (maskAnd (maskInit ⟨fun _ => 0, 2, by decide⟩ 0xFF 3 fun i => if i = 0 then 5 else 0)
        (maskInit ⟨fun _ => 0, 2, by decide⟩ 0x0F 3 fun i => if i = 0 then 3 else 0) fun _ => 0) =
      0xFF &&& 0x0F ↔
    xorSum (fun _ => 0) (3 * (3 - 1) / 2) =
      crossSum (shareOf 0xFF 3 fun i => if i = 0 then 5 else 0)
        (shareOf 0x0F 3 fun i => if i = 0 then 3 else 0) 3 :=
  mask_and_correct_iff _ _ 0xFF 0x0F _ _ _ (by decide) (by decide)

/-- The assignment at the start of row 1 discards the cross products added in row 0: with the
shares `1, 0` of 1 and `0, 1` of 1 the product is 0. -/
theorem mask_and_loses_cross_products :
    ¬ ∀ (x y : MiniHwSecMaskedByte) (a b : UInt8) (rngA rngB rng : Nat → UInt8) (n : Nat),
      2 ≤ n → n ≤ 8 →
        maskUnmask (maskAnd (maskInit x a n rngA) (maskInit y b n rngB) rng) = a &&& b := by
  intro always
  have one := always ⟨fun _ => 0, 2, by decide⟩ ⟨fun _ => 0, 2, by decide⟩ 1 1 (fun _ => 1) (fun _ => 0)
    (fun _ => 0) 2 (by decide) (by decide)
  revert one
  decide

end MiniHardware.Security
