import MiniHardware.Accel.Mma
import MiniHardware.Lib.Fill

/-!
# Loops over the entries of flat matrices
-/

namespace MiniHardware.Accel
open Lib

variable {α : Type*} {m n : Nat}

theorem getElem?_cell (X : Vector α (m * n)) (i : Fin m) (j : Fin n) :
    X[i.val * n + j.val]? = some (X.get (cell i j)) :=
  Vector.getElem?_eq_getElem (cell i j).isLt

/-- The row and the column of an offset. -/
theorem cell_divNat (i : Fin m) (j : Fin n) : (cell i j).divNat = i ∧ (cell i j).modNat = j := by
  have pos : 0 < n := Nat.zero_lt_of_lt j.isLt
  constructor
  · apply Fin.ext
    show (i.val * n + j.val) / n = i.val
    rw [Nat.add_comm, Nat.add_mul_div_right _ _ pos, Nat.div_eq_of_lt j.isLt, Nat.zero_add]
  · apply Fin.ext
    show (i.val * n + j.val) % n = j.val
    rw [Nat.mul_add_mod', Nat.mod_eq_of_lt j.isLt]

/-- A double loop that writes the block of `a` rows and `b` columns at `(r, c)`. -/
theorem fill_block (place : Nat × Nat → Nat) (value : Nat × Nat → Option α) {r c a b : Nat} (rows : r + a ≤ m)
    (cols : c + b ≤ n) (at_cell : ∀ p, place p = (r + p.1) * n + (c + p.2))
    (g : Fin m → Fin n → α)
    (known : ∀ (i : Fin a) (j : Fin b), value (i.val, j.val) =
      some (g ⟨r + i.val, by omega⟩ ⟨c + j.val, by omega⟩))
    (X : Vector α (m * n)) :
    ∃ Y, fill (List.range a ×ˢ List.range b) place value X = some Y ∧ ∀ (i : Fin m) (j : Fin n),
      Y.get (cell i j) = if (r ≤ i.val ∧ i.val < r + a) ∧ c ≤ j.val ∧ j.val < c + b then g i j
        else X.get (cell i j) := by
  have inside : ∀ p ∈ List.range a ×ˢ List.range b, p.1 < a ∧ p.2 < b := by
    intro p mem
    obtain ⟨row, col⟩ := List.mem_product.1 mem
    exact ⟨List.mem_range.1 row, List.mem_range.1 col⟩
  have is_cell : ∀ (i : Fin a) (j : Fin b), place (i.val, j.val) =
      cell (⟨r + i.val, by omega⟩ : Fin m) (⟨c + j.val, by omega⟩ : Fin n) := fun i j => at_cell _
  have bound : ∀ p ∈ List.range a ×ˢ List.range b, place p < m * n := by
    intro p mem
    rw [is_cell ⟨p.1, (inside p mem).1⟩ ⟨p.2, (inside p mem).2⟩]
    exact Fin.isLt _
  have written : ∀ p (mem : p ∈ List.range a ×ˢ List.range b), value p =
      some (g (⟨place p, bound p mem⟩ : Fin (m * n)).divNat (⟨place p, bound p mem⟩ : Fin (m * n)).modNat) := by
    intro p mem
    have eq : (⟨place p, bound p mem⟩ : Fin (m * n)) = _ :=
      Fin.ext (is_cell ⟨p.1, (inside p mem).1⟩ ⟨p.2, (inside p mem).2⟩)
    rw [eq, (cell_divNat _ _).1, (cell_divNat _ _).2]
    exact known ⟨p.1, (inside p mem).1⟩ ⟨p.2, (inside p mem).2⟩
  obtain ⟨Y, loop, entry⟩ := fill_eq _ place value (fun k : Fin (m * n) => g k.divNat k.modNat) X bound written
  refine ⟨Y, loop, fun i j => ?_⟩
  have here := entry (cell i j).val (cell i j).isLt
  rw [Fin.eta, (cell_divNat i j).1, (cell_divNat i j).2] at here
  refine here.trans (if_congr ?_ rfl rfl)
  constructor
  · intro mem
    obtain ⟨p, mem, eq⟩ := List.mem_map.1 mem
    have lt := inside p mem
    obtain ⟨row, col⟩ := cell_inj.1 (Fin.ext ((is_cell ⟨p.1, lt.1⟩ ⟨p.2, lt.2⟩).symm.trans eq))
    dsimp only at row col
    omega
  · rintro ⟨⟨le, lt⟩, le', lt'⟩
    refine List.mem_map.2 ⟨(i.val - r, j.val - c), ?_, ?_⟩
    · exact List.mem_product.2 ⟨List.mem_range.2 (by omega), List.mem_range.2 (by omega)⟩
    · rw [at_cell, Nat.add_sub_cancel' le, Nat.add_sub_cancel' le']
      rfl

/-- A double loop that changes the block of `a` rows and `b` columns at `(r, c)` in place. -/
theorem modify_block (place : Nat × Nat → Nat) (f : Nat × Nat → α → Option α) {r c a b : Nat} (rows : r + a ≤ m)
    (cols : c + b ≤ n) (at_cell : ∀ p, place p = (r + p.1) * n + (c + p.2)) (X : Vector α (m * n))
    (g : Fin m → Fin n → α)
    (known : ∀ (i : Fin a) (j : Fin b),
      f (i.val, j.val) (X.get (cell ⟨r + i.val, by omega⟩ ⟨c + j.val, by omega⟩)) =
        some (g ⟨r + i.val, by omega⟩ ⟨c + j.val, by omega⟩)) :
    ∃ Y, modifyEach (List.range a ×ˢ List.range b) place f X = some Y ∧ ∀ (i : Fin m) (j : Fin n),
      Y.get (cell i j) = if (r ≤ i.val ∧ i.val < r + a) ∧ c ≤ j.val ∧ j.val < c + b then g i j
        else X.get (cell i j) := by
  have nodup : ((List.range a ×ˢ List.range b).map place).Nodup := by
    refine List.Nodup.map_on ?_ (List.nodup_range.product List.nodup_range)
    intro p pMem q qMem same
    obtain ⟨pRow, pCol⟩ := List.mem_product.1 pMem
    obtain ⟨qRow, qCol⟩ := List.mem_product.1 qMem
    rw [List.mem_range] at pRow pCol qRow qCol
    rw [at_cell, at_cell] at same
    have eq : cell (⟨r + p.1, by omega⟩ : Fin m) (⟨c + p.2, by omega⟩ : Fin n) =
        cell ⟨r + q.1, by omega⟩ ⟨c + q.2, by omega⟩ := Fin.ext same
    obtain ⟨row, col⟩ := cell_inj.1 eq
    exact Prod.ext (Nat.add_left_cancel row) (Nat.add_left_cancel col)
  rw [modifyEach_eq_fill nodup]
  apply fill_block place _ rows cols at_cell g
  intro i j
  rw [at_cell]
  have here := getElem?_cell X (⟨r + i.val, by omega⟩ : Fin m) (⟨c + j.val, by omega⟩ : Fin n)
  dsimp only at here ⊢
  rw [here, Option.bind_some]
  exact known i j

/-- A double loop over all entries. -/
theorem fill_cells (place : Nat × Nat → Nat) (value : Nat × Nat → Option α)
    (at_cell : ∀ p, place p = p.1 * n + p.2) {g : Fin m → Fin n → α}
    (known : ∀ (i : Fin m) (j : Fin n), value (i.val, j.val) = some (g i j)) (X : Vector α (m * n)) :
    ∃ Y, fill (List.range m ×ˢ List.range n) place value X = some Y ∧
      ∀ (i : Fin m) (j : Fin n), Y.get (cell i j) = g i j := by
  obtain ⟨Y, loop, entry⟩ := fill_block place value (r := 0) (c := 0) (a := m) (b := n) (by omega) (by omega)
    (by simpa using at_cell) g (by simpa using known) X
  refine ⟨Y, loop, fun i j => (entry i j).trans (if_pos ?_)⟩
  omega

end MiniHardware.Accel
