import Mathlib.Algebra.BigOperators.Group.List.Basic
import Mathlib.Data.List.FinRange
import Mathlib.Algebra.Field.ZMod
import Mathlib.Tactic.Common
import MiniHardware.Lib.Index
import MiniHardware.Lib.Trace

/-!
# LDPC codes (`mini-storage-hardware/src/ldpc.c`)

`ldpc_gallager_construct` fills in the parity matrix, `ldpc_encode` writes the
xor of a row's information bits to the row's last parity column, and
`ldpc_check_codeword` tests every row. `int` arithmetic is exact: parameters
whose products overflow have no defined behaviour.
-/

namespace MiniHardware.Storage
open Lib

inductive LdpcType where
  | regular
  | irregular

abbrev LdpcMatrix := Vector (Vector UInt8 96) 48

/-- A code whose size fits the arrays. -/
structure LdpcCode where
  H : LdpcMatrix
  vnConnections : Vector (Vector Int 6) 96
  cnConnections : Vector (Vector Int 3) 48
  type : LdpcType
  N : Nat
  M : Nat
  K : Nat
  dv : Nat
  dc : Nat
  N_le : N ≤ 96
  M_le : M ≤ 48
  K_add : K + M = N

/-- `H[row][col]`. -/
def ldpcEntry (H : LdpcMatrix) (row col : Nat) : UInt8 :=
  if h : row < 48 ∧ col < 96 then H[row][col] else 0

/-- `H[row][col] = 1`. -/
def ldpcSetOne (H : LdpcMatrix) (row col : Nat) : LdpcMatrix :=
  if h : row < 48 ∧ col < 96 then H.set row (H[row].set col 1) else H

/-! ## Construction -/

/-- `N`, `dv` and `dc`, or the default values. -/
def ldpcParameters (N dv dc : Int) : Nat × Nat × Nat :=
  if N < 24 ∨ dv < 2 ∨ dc < 3 ∨ dv ≥ dc then (24, 2, 4) else (N.toNat, dv.toNat, dc.toNat)

/-- `M`. -/
def ldpcRows (N dv dc : Nat) : Nat := if N * dv / dc < 4 then 4 else N * dv / dc

/-- The loops over `r`, `i` and `k`. -/
def ldpcFill (N M dv dc : Nat) : LdpcMatrix :=
  let Msub := if M / dv < 1 then 1 else M / dv
  (List.range dv).foldl (fun H r => (List.range Msub).foldl (fun H i => (List.range dc).foldl (fun H k =>
    let col := (i * dc + k + r * 7) % N
    let row := r * Msub + i
    if row < M ∧ col < N then ldpcSetOne H row col else H) H) H)
    (Vector.replicate 48 (Vector.replicate 96 0))

/-- The first `width` places below `count` with an entry, and `-1` after them. -/
def ldpcConnections (width : Nat) (entry : Nat → UInt8) (count : Nat) : Vector Int width :=
  ((List.range count).foldl (fun (s : Nat × Vector Int width) j =>
    if h : s.1 < width then if entry j ≠ 0 then (s.1 + 1, s.2.set s.1 j) else s else s)
    (0, Vector.replicate width (-1))).2

theorem ldpcRows_le {N dv dc : Nat} (least : 24 ≤ N) (lt : dv < dc) : ldpcRows N dv dc ≤ N := by
  have le : N * dv / dc ≤ N := by
    apply Nat.div_le_of_le_mul
    rw [Nat.mul_comm dc]
    exact Nat.mul_le_mul_left N lt.le
  rw [ldpcRows]
  split <;> omega

theorem ldpcParameters_spec (N dv dc : Int) :
    24 ≤ (ldpcParameters N dv dc).1 ∧ 2 ≤ (ldpcParameters N dv dc).2.1 ∧
      (ldpcParameters N dv dc).2.1 < (ldpcParameters N dv dc).2.2 := by
  rw [ldpcParameters]
  split
  · decide
  · dsimp only
    omega

/-- `none` for a code that does not fit the arrays. -/
def ldpcGallagerConstruct (N dv dc : Int) : Option LdpcCode :=
  let p := ldpcParameters N dv dc
  let M := ldpcRows p.1 p.2.1 p.2.2
  if fits : p.1 ≤ 96 ∧ M ≤ 48 then
    let H := ldpcFill p.1 M p.2.1 p.2.2
    some {
      H := H
      vnConnections := Vector.ofFn fun i =>
        if i.val < p.1 then ldpcConnections 6 (fun j => ldpcEntry H j i.val) M else Vector.replicate 6 (-1)
      cnConnections := Vector.ofFn fun j =>
        if j.val < M then ldpcConnections 3 (fun i => ldpcEntry H j.val i) p.1 else Vector.replicate 3 (-1)
      type := .regular
      N := p.1
      M := M
      K := p.1 - M
      dv := p.2.1
      dc := p.2.2
      N_le := fits.1
      M_le := fits.2
      K_add := by
        have spec := ldpcParameters_spec N dv dc
        exact Nat.sub_add_cancel (ldpcRows_le spec.1 spec.2.2) }
  else none

/-! ## The matrix -/

theorem ldpcEntry_setOne (H : LdpcMatrix) {row col : Nat} (inside : row < 48 ∧ col < 96) (row' col' : Nat) :
    ldpcEntry (ldpcSetOne H row col) row' col' =
      if row' = row ∧ col' = col then 1 else ldpcEntry H row' col' := by
  rw [ldpcSetOne, dif_pos inside, ldpcEntry, ldpcEntry]
  by_cases here : row' < 48 ∧ col' < 96
  · rw [dif_pos here, dif_pos here, Vector.getElem_set]
    by_cases sameRow : row = row'
    · subst sameRow
      rw [if_pos rfl, Vector.getElem_set]
      by_cases sameCol : col = col'
      · rw [if_pos sameCol, if_pos ⟨rfl, sameCol.symm⟩]
      · rw [if_neg sameCol, if_neg fun h => sameCol h.2.symm]
    · rw [if_neg sameRow, if_neg fun h => sameRow h.1.symm]
  · rw [dif_neg here, dif_neg here, if_neg fun h => here (by rw [h.1, h.2]; exact inside)]

/-- The ones of the matrix. -/
theorem ldpcEntry_fill {N M dv dc row col : Nat} (leN : N ≤ 96) (leM : M ≤ 48) :
    ldpcEntry (ldpcFill N M dv dc) row col ≠ 0 ↔
      ∃ r ∈ List.range dv, ∃ i ∈ List.range (if M / dv < 1 then 1 else M / dv), ∃ k ∈ List.range dc,
        row = r * (if M / dv < 1 then 1 else M / dv) + i ∧ col = (i * dc + k + r * 7) % N ∧ row < M ∧ col < N := by
  have zero : ¬ ldpcEntry (Vector.replicate 48 (Vector.replicate 96 0)) row col ≠ 0 := by
    rw [not_not, ldpcEntry]
    split
    · rw [Vector.getElem_replicate, Vector.getElem_replicate]
    · rfl
  rw [ldpcFill]
  dsimp only
  generalize (if M / dv < 1 then 1 else M / dv) = Msub
  have round : ∀ r i (H : LdpcMatrix) k, ldpcEntry (if r * Msub + i < M ∧ (i * dc + k + r * 7) % N < N then
      ldpcSetOne H (r * Msub + i) ((i * dc + k + r * 7) % N) else H) row col ≠ 0 ↔
      ldpcEntry H row col ≠ 0 ∨
        (row = r * Msub + i ∧ col = (i * dc + k + r * 7) % N ∧ row < M ∧ col < N) := by
    intro r i H k
    by_cases write : r * Msub + i < M ∧ (i * dc + k + r * 7) % N < N
    · rw [if_pos write, ldpcEntry_setOne H ⟨by omega, by omega⟩]
      by_cases here : row = r * Msub + i ∧ col = (i * dc + k + r * 7) % N
      · rw [if_pos here]
        simp [here, write]
      · rw [if_neg here]
        exact (or_iff_left fun h => here ⟨h.1, h.2.1⟩).symm
    · rw [if_neg write]
      refine (or_iff_left ?_).symm
      rintro ⟨rfl, rfl, lt⟩
      exact write lt
  have columns := fun r i => @foldl_or LdpcMatrix Nat _ (fun H => ldpcEntry H row col ≠ 0) _ (round r i)
    (List.range dc)
  have rows := fun r => @foldl_or LdpcMatrix Nat _ (fun H => ldpcEntry H row col ≠ 0) _
    (fun H i => columns r i H) (List.range Msub)
  have all := @foldl_or LdpcMatrix Nat _ (fun H => ldpcEntry H row col ≠ 0) _ (fun H r => rows r H)
    (List.range dv)
  exact (all _).trans (or_iff_right zero)

/-! ## Encoding -/

section Encode

variable (code : LdpcCode)

/-- `sum` and `last_unknown` after the columns of row `i`. -/
def ldpcScanRow (codeword : Vector UInt8 code.N) (i : Nat) : UInt8 × Option (Fin code.N) :=
  (List.finRange code.N).foldl (fun s j =>
    if ldpcEntry code.H i j.val ≠ 0 then
      if j.val < code.K then (s.1 ^^^ codeword.get j, s.2) else (s.1, some j)
    else s) (0, none)

def ldpcEncodeRow (codeword : Vector UInt8 code.N) (i : Nat) : Vector UInt8 code.N :=
  let s := ldpcScanRow code codeword i
  match s.2 with
  | none => codeword
  | some lastUnknown => codeword.set lastUnknown s.1

def ldpcEncode (infoBits : Fin code.K → UInt8) : Vector UInt8 code.N :=
  (List.range code.M).foldl (ldpcEncodeRow code)
    (Vector.ofFn fun j => if h : j.val < code.K then infoBits ⟨j.val, h⟩ &&& 1 else 0)

/-- `sum` after the columns of row `i`; `& 1` of an `int` is its remainder. -/
def ldpcCheckRow (hardDecision : Vector Int code.N) (i : Nat) : Nat :=
  (List.finRange code.N).foldl (fun sum j =>
    if ldpcEntry code.H i j.val ≠ 0 then sum ^^^ (hardDecision.get j % 2).toNat else sum) 0

def ldpcCheckCodeword (hardDecision : Vector Int code.N) : Bool :=
  (List.range code.M).all fun i => ldpcCheckRow code hardDecision i = 0

end Encode

end MiniHardware.Storage
