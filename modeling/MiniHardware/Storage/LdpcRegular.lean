import Mathlib.Combinatorics.Enumerative.DoubleCounting
import MiniHardware.Storage.Ldpc

/-!
# What the construction promises (`mini-storage-hardware/src/ldpc.c`)

The comment over `ldpc_gallager_construct` promises a regular matrix without cycles of length 4. It
never is: where the counts come out, each of the first two groups of rows covers all columns in blocks of
`dc` neighbours, shifted by 7, so that two of the columns 0, 1 and 2 meet twice (`ldpc_never_regular`).
-/

namespace MiniHardware.Storage
open Lib

/-- `H[row][col]` is a one. -/
def LdpcOne (H : LdpcMatrix) (row col : Nat) : Prop := ldpcEntry H row col ≠ 0

instance ldpcOneDecidable (H : LdpcMatrix) (row col : Nat) : Decidable (LdpcOne H row col) :=
  inferInstanceAs (Decidable (_ ≠ _))

/-- The rows of the ones of a column. -/
def columnOnes (code : LdpcCode) (col : Nat) : Finset Nat := (Finset.range code.M).filter (LdpcOne code.H · col)

/-- The columns of the ones of a row. -/
def rowOnes (code : LdpcCode) (row : Nat) : Finset Nat := (Finset.range code.N).filter (LdpcOne code.H row)

/-- The comment's promise: a regular matrix, in which two columns meet once at most, and its ones listed. -/
structure LdpcPromise (code : LdpcCode) : Prop where
  rows : ∀ row < code.M, (rowOnes code row).card = code.dc
  columns : ∀ col < code.N, (columnOnes code col).card = code.dv
  girth : ∀ col < code.N, ∀ col' < code.N, col ≠ col' → (columnOnes code col ∩ columnOnes code col').card ≤ 1
  vn : ∀ col : Fin 96, col.val < code.N → ∀ row : Nat,
    (row : Int) ∈ (code.vnConnections.get col).toList ↔ row ∈ columnOnes code col.val
  cn : ∀ row : Fin 48, row.val < code.M → ∀ col : Nat,
    (col : Int) ∈ (code.cnConnections.get row).toList ↔ col ∈ rowOnes code row.val

/-- The parts of a code that its matrix is made from. -/
structure LdpcBuilt (code : LdpcCode) : Prop where
  least : 24 ≤ code.N
  two : 2 ≤ code.dv
  less : code.dv < code.dc
  M_eq : code.M = ldpcRows code.N code.dv code.dc
  H_eq : code.H = ldpcFill code.N code.M code.dv code.dc

theorem ldpcGallagerConstruct_built {N dv dc : Int} {code : LdpcCode}
    (built : ldpcGallagerConstruct N dv dc = some code) : LdpcBuilt code := by
  obtain ⟨least, two, less⟩ := ldpcParameters_spec N dv dc
  unfold ldpcGallagerConstruct at built
  dsimp only at built
  split at built
  · obtain rfl := Option.some.inj built
    exact ⟨least, two, less, rfl, rfl⟩
  · cases built

theorem ldpcGallagerConstruct_parameters {N dv dc : Int} {code : LdpcCode}
    (built : ldpcGallagerConstruct N dv dc = some code) : (code.N, code.dv, code.dc) = ldpcParameters N dv dc := by
  unfold ldpcGallagerConstruct at built
  dsimp only at built
  split at built
  · obtain rfl := Option.some.inj built
    rfl
  · cases built

section Counts
variable {code : LdpcCode}

/-- Rows and columns count the same ones. -/
theorem LdpcPromise.count (h : LdpcPromise code) : code.M * code.dc = code.N * code.dv := by
  have both := Finset.sum_card_bipartiteAbove_eq_sum_card_bipartiteBelow (s := Finset.range code.M)
    (t := Finset.range code.N) (LdpcOne code.H)
  calc code.M * code.dc
      = ∑ row ∈ Finset.range code.M, (rowOnes code row).card := by
        rw [Finset.sum_congr rfl fun row mem => h.rows row (Finset.mem_range.1 mem), Finset.sum_const,
          Finset.card_range, smul_eq_mul]
    _ = ∑ col ∈ Finset.range code.N, (columnOnes code col).card := both
    _ = code.N * code.dv := by
        rw [Finset.sum_congr rfl fun col mem => h.columns col (Finset.mem_range.1 mem), Finset.sum_const,
          Finset.card_range, smul_eq_mul]

/-- A row has as many ones as there are columns at most, and a column as there are rows. -/
theorem LdpcPromise.dc_le (h : LdpcPromise code) (some : 0 < code.M) : code.dc ≤ code.N := by
  rw [← h.rows 0 some]
  exact (Finset.card_filter_le _ _).trans_eq (Finset.card_range _)

theorem LdpcPromise.dv_le (h : LdpcPromise code) (some : 0 < code.N) : code.dv ≤ code.M := by
  rw [← h.columns 0 some]
  exact (Finset.card_filter_le _ _).trans_eq (Finset.card_range _)

end Counts

section Blocks
variable {code : LdpcCode}

/-- The ones of the matrix, where the number of rows of a group is `M / dv`. -/
theorem LdpcBuilt.one_iff (b : LdpcBuilt code) (fits : code.dv ≤ code.M) {row col : Nat} : LdpcOne code.H row col ↔
    ∃ r < code.dv, ∃ i < code.M / code.dv, ∃ k < code.dc,
      row = r * (code.M / code.dv) + i ∧ col = (i * code.dc + k + r * 7) % code.N ∧ row < code.M ∧ col < code.N := by
  have two := b.two
  have some : 1 ≤ code.M / code.dv := (Nat.one_le_div_iff (by omega)).2 fits
  unfold LdpcOne
  rw [b.H_eq, ldpcEntry_fill code.N_le code.M_le, if_neg (by omega)]
  simp only [List.mem_range]

theorem LdpcBuilt.one_inside (b : LdpcBuilt code) (fits : code.dv ≤ code.M) {row col : Nat}
    (one : LdpcOne code.H row col) : row < code.M := by
  obtain ⟨r, -, i, -, k, -, -, -, inside, -⟩ := (b.one_iff fits).1 one
  exact inside

/-- In a regular matrix the groups of rows are full, and each of them covers every column. -/
theorem LdpcPromise.groups (h : LdpcPromise code) (b : LdpcBuilt code) :
    code.M = code.M / code.dv * code.dv ∧ code.M / code.dv * code.dc = code.N := by
  have two := b.two
  have less := b.less
  have least := b.least
  have fits := h.dv_le (by omega)
  have some : 0 < code.M := by omega
  -- the last row has a one, so it belongs to a group
  have last : (rowOnes code (code.M - 1)).Nonempty := by
    rw [← Finset.card_pos, h.rows _ (by omega)]
    omega
  obtain ⟨col, mem⟩ := last
  obtain ⟨r, ltr, i, lti, k, -, row, -⟩ := (b.one_iff fits).1 (Finset.mem_filter.1 mem).2
  have inside : r * (code.M / code.dv) + i < code.M / code.dv * code.dv :=
    calc r * (code.M / code.dv) + i < r * (code.M / code.dv) + code.M / code.dv := by omega
      _ = (r + 1) * (code.M / code.dv) := by rw [Nat.add_mul, Nat.one_mul]
      _ ≤ code.dv * (code.M / code.dv) := Nat.mul_le_mul_right _ ltr
      _ = code.M / code.dv * code.dv := Nat.mul_comm _ _
  have full : code.M = code.M / code.dv * code.dv := by
    have le := Nat.div_mul_le_self code.M code.dv
    omega
  refine ⟨full, ?_⟩
  have count := h.count
  rw [full, Nat.mul_right_comm] at count
  exact Nat.eq_of_mul_eq_mul_right (by omega) count

/-- Row 0 has the first columns. -/
theorem LdpcBuilt.first_row (b : LdpcBuilt code) (fits : code.dv ≤ code.M) {col : Nat} (lt : col < code.dc)
    (inside : col < code.N) : LdpcOne code.H 0 col := by
  have two := b.two
  have some : 1 ≤ code.M / code.dv := (Nat.one_le_div_iff (by omega)).2 fits
  refine (b.one_iff fits).2 ⟨0, by omega, 0, some, col, lt, by omega, ?_, by omega, inside⟩
  rw [Nat.zero_mul, Nat.zero_mul, Nat.zero_add, Nat.add_zero, Nat.mod_eq_of_lt inside]

/-- In the second group, the first columns stand in the blocks of the last places. -/
theorem LdpcBuilt.second_group (b : LdpcBuilt code) (full : code.M = code.M / code.dv * code.dv)
    (covers : code.M / code.dv * code.dc = code.N) {col : Nat} (lt : col < 7) :
    LdpcOne code.H (code.M / code.dv + (code.N - 7 + col) / code.dc) col := by
  have two := b.two
  have less := b.less
  have least := b.least
  have fits : code.dv ≤ code.M := by
    by_contra small
    rw [Nat.div_eq_of_lt (Nat.lt_of_not_le small), Nat.zero_mul] at covers
    omega
  have block : (code.N - 7 + col) / code.dc < code.M / code.dv := by
    rw [Nat.div_lt_iff_lt_mul (by omega), covers]
    omega
  have double : code.M / code.dv * 2 ≤ code.M := by
    calc code.M / code.dv * 2 ≤ code.M / code.dv * code.dv := Nat.mul_le_mul_left _ two
      _ = code.M := full.symm
  refine (b.one_iff fits).2 ⟨1, by omega, _, block, (code.N - 7 + col) % code.dc, Nat.mod_lt _ (by omega),
    by rw [Nat.one_mul], ?_, by omega, by omega⟩
  rw [Nat.div_add_mod']
  have around : code.N - 7 + col + 1 * 7 = code.N + col := by omega
  rw [around, Nat.add_mod_left, Nat.mod_eq_of_lt (by omega)]

/-- Two of three neighbours stand in one block. -/
theorem exists_same_block (q : Nat) {dc : Nat} (wide : 2 ≤ dc) : q / dc = (q + 1) / dc ∨ (q + 1) / dc = (q + 1 + 1) / dc := by
  by_cases first : dc ∣ q + 1
  · right
    have second : ¬ dc ∣ q + 1 + 1 := by
      intro second
      have le := Nat.le_of_dvd Nat.one_pos ((Nat.dvd_add_right first).1 second)
      omega
    rw [Nat.succ_div (a := q + 1), if_neg second]
    rfl
  · left
    rw [Nat.succ_div, if_neg first, Nat.add_zero]

/-- For all parameters, no matrix is built that keeps the promise. -/
theorem ldpc_never_regular (N dv dc : Int) : ¬ ∃ code, ldpcGallagerConstruct N dv dc = some code ∧ LdpcPromise code := by
  rintro ⟨code, built, h⟩
  have b := ldpcGallagerConstruct_built built
  have two := b.two
  have less := b.less
  have least := b.least
  have fits := h.dv_le (by omega)
  have wide := h.dc_le (by omega)
  obtain ⟨full, covers⟩ := h.groups b
  have some : 1 ≤ code.M / code.dv := (Nat.one_le_div_iff (by omega)).2 fits
  -- neighbouring columns in one block of the second group meet there and in row 0
  have meet (col : Nat) (small : col < 2)
      (same : (code.N - 7 + col) / code.dc = (code.N - 7 + (col + 1)) / code.dc) : False := by
    have both {row : Nat} (left : LdpcOne code.H row col) (right : LdpcOne code.H row (col + 1)) :
        row ∈ columnOnes code col ∩ columnOnes code (col + 1) := by
      have inside := Finset.mem_range.2 (b.one_inside fits left)
      exact Finset.mem_inter.2 ⟨Finset.mem_filter.2 ⟨inside, left⟩, Finset.mem_filter.2 ⟨inside, right⟩⟩
    have second := b.second_group full covers (show col + 1 < 7 by omega)
    rw [← same] at second
    have pair : {0, code.M / code.dv + (code.N - 7 + col) / code.dc} ⊆
        columnOnes code col ∩ columnOnes code (col + 1) := by
      apply Finset.insert_subset
      · exact both (b.first_row fits (by omega) (by omega)) (b.first_row fits (by omega) (by omega))
      · rw [Finset.singleton_subset_iff]
        exact both (b.second_group full covers (by omega)) second
    have card := Finset.card_pair (a := 0) (b := code.M / code.dv + (code.N - 7 + col) / code.dc)
      (Nat.add_pos_left some _).ne
    have le := (Finset.card_le_card pair).trans (h.girth col (by omega) (col + 1) (by omega) (by omega))
    omega
  rcases exists_same_block (code.N - 7) (show 2 ≤ code.dc by omega) with same | same
  · exact meet 0 (by omega) same
  · exact meet 1 (by omega) same

end Blocks

/-- With the sizes of the arrays, columns 1 and 2 meet in rows 0 and 31. -/
theorem ldpc_columns_meet_twice : ∃ code, ldpcGallagerConstruct 96 3 6 = some code ∧
    {0, 31} ⊆ columnOnes code 1 ∩ columnOnes code 2 := by
  obtain ⟨code, built⟩ : ∃ code, ldpcGallagerConstruct 96 3 6 = some code := by
    unfold ldpcGallagerConstruct
    dsimp only
    rw [dif_pos (by decide)]
    exact ⟨_, rfl⟩
  have b := ldpcGallagerConstruct_built built
  have parameters := ldpcGallagerConstruct_parameters built
  have N : code.N = 96 := congrArg Prod.fst parameters
  have dv : code.dv = 3 := congrArg (fun p => p.2.1) parameters
  have dc : code.dc = 6 := congrArg (fun p => p.2.2) parameters
  have M : code.M = 48 := by rw [b.M_eq, N, dv, dc]; decide
  have one (row col : Nat) (lt : row < 48) (placed : ∃ r < 3, ∃ i < 16, ∃ k < 6,
      row = r * 16 + i ∧ col = (i * 6 + k + r * 7) % 96 ∧ row < 48 ∧ col < 96) : row ∈ columnOnes code col := by
    refine Finset.mem_filter.2 ⟨Finset.mem_range.2 (by omega), (b.one_iff (by omega)).2 ?_⟩
    rw [N, M, dv, dc]
    exact placed
  refine ⟨code, built, Finset.insert_subset ?_ (Finset.singleton_subset_iff.2 ?_)⟩
  · exact Finset.mem_inter.2 ⟨one 0 1 (by decide) ⟨0, by decide, 0, by decide, 1, by decide, by decide⟩,
      one 0 2 (by decide) ⟨0, by decide, 0, by decide, 2, by decide, by decide⟩⟩
  · exact Finset.mem_inter.2 ⟨one 31 1 (by decide) ⟨1, by decide, 15, by decide, 0, by decide, by decide⟩,
      one 31 2 (by decide) ⟨1, by decide, 15, by decide, 1, by decide, by decide⟩⟩

end MiniHardware.Storage
