import Mathlib.Logic.Function.Basic
import Mathlib.Tactic.Common

/-!
# Out-of-place stores

A store that never overwrites: a key is redirected to a cell, and an update
writes a cell no key uses and redirects the key to it. A cell that is not
readable (stale, erased) holds `none`; a key without a cell reads `blank`.
The keys stay independent of each other as long as no two of them share a
cell (`Separate`) and every write goes to an unused cell.
-/

namespace MiniHardware.Lib

/-- Keys `K` redirected to cells `C` holding data `D`. -/
structure Remap (K C D : Type*) where
  fwd : K → Option C
  cell : C → Option D

namespace Remap

variable {K C D : Type*}

/-- What a key reads: the blank value, the data of its cell, or nothing. -/
def read (blank : D) (m : Remap K C D) (k : K) : Option D :=
  match m.fwd k with
  | none => some blank
  | some c => m.cell c

/-- No two keys share a cell. -/
def Separate (m : Remap K C D) : Prop :=
  ∀ k k' c, m.fwd k = some c → m.fwd k' = some c → k = k'

/-- No key is redirected to the cell. -/
def Unused (m : Remap K C D) (c : C) : Prop := ∀ k, m.fwd k ≠ some c

theorem read_of_fwd_none {blank : D} {m : Remap K C D} {k : K} (h : m.fwd k = none) :
    m.read blank k = some blank := by
  simp [read, h]

theorem read_of_fwd {blank : D} {m : Remap K C D} {k : K} {c : C} (h : m.fwd k = some c) :
    m.read blank k = m.cell c := by
  simp [read, h]

/-- Two stores read the same at a key if they redirect it alike and agree on its cell. -/
theorem read_congr {blank : D} {m m' : Remap K C D} {k : K} (hf : m'.fwd k = m.fwd k)
    (hc : ∀ c, m.fwd k = some c → m'.cell c = m.cell c) : m'.read blank k = m.read blank k := by
  cases h : m.fwd k with
  | none => rw [read_of_fwd_none h, read_of_fwd_none (hf.trans h)]
  | some c => rw [read_of_fwd h, read_of_fwd (hf.trans h), hc c h]

/-- Write `d` to cell `c` and redirect `k` to it. -/
def write [DecidableEq K] [DecidableEq C] (m : Remap K C D) (k : K) (c : C) (d : D) : Remap K C D where
  fwd := Function.update m.fwd k (some c)
  cell := Function.update m.cell c (some d)

/-- Forget the redirection of `k`. -/
def drop [DecidableEq K] (m : Remap K C D) (k : K) : Remap K C D :=
  { m with fwd := Function.update m.fwd k none }

/-- Make cell `c` unreadable. -/
def hide [DecidableEq C] (m : Remap K C D) (c : C) : Remap K C D :=
  { m with cell := Function.update m.cell c none }

section Write

variable [DecidableEq K] [DecidableEq C]

theorem read_write_same (blank : D) (m : Remap K C D) (k : K) (c : C) (d : D) :
    (m.write k c d).read blank k = some d := by
  simp [read, write]

theorem read_write_other {blank : D} {m : Remap K C D} {k k' : K} {c : C} {d : D}
    (unused : m.fwd k' ≠ some c) (ne : k' ≠ k) : (m.write k c d).read blank k' = m.read blank k' := by
  apply read_congr
  · simp [write, ne]
  · intro c' h
    have : c' ≠ c := by rintro rfl; exact unused h
    simp [write, this]

/-- The cell may be the one `k` has already. -/
theorem Separate.write {m : Remap K C D} (sep : m.Separate) {k : K} {c : C} {d : D}
    (unused : ∀ k', k' ≠ k → m.fwd k' ≠ some c) : (m.write k c d).Separate := by
  intro k₁ k₂ c' h₁ h₂
  simp only [Remap.write, Function.update_apply] at h₁ h₂
  split at h₁ <;> split at h₂
  · simp_all
  · rename_i ne; cases h₁; exact absurd h₂ (unused k₂ ne)
  · rename_i ne _; cases h₂; exact absurd h₁ (unused k₁ ne)
  · exact sep k₁ k₂ c' h₁ h₂

end Write

section Drop

variable [DecidableEq K]

theorem read_drop_same (blank : D) (m : Remap K C D) (k : K) :
    (m.drop k).read blank k = some blank := by
  simp [read, drop]

theorem read_drop_other {blank : D} {m : Remap K C D} {k k' : K} (ne : k' ≠ k) :
    (m.drop k).read blank k' = m.read blank k' :=
  read_congr (by simp [drop, ne]) fun _ _ => rfl

theorem Separate.drop {m : Remap K C D} (sep : m.Separate) (k : K) : (m.drop k).Separate := by
  intro k₁ k₂ c h₁ h₂
  simp only [Remap.drop, Function.update_apply] at h₁ h₂
  split at h₁ <;> split at h₂ <;> try contradiction
  exact sep k₁ k₂ c h₁ h₂

end Drop

section Hide

variable [DecidableEq C]

/-- Hiding an unused cell changes no key. -/
theorem read_hide_unused {blank : D} {m : Remap K C D} {k : K} {c : C} (ne : m.fwd k ≠ some c) :
    (m.hide c).read blank k = m.read blank k := by
  refine read_congr (show (m.hide c).fwd k = m.fwd k from rfl) ?_
  intro c' h
  have : c' ≠ c := by rintro rfl; exact ne h
  simp [hide, this]

/-- Hiding the cell of one key changes no other key. -/
theorem read_hide_other {blank : D} {m : Remap K C D} (sep : m.Separate) {k k' : K} {c : C}
    (own : m.fwd k = some c) (ne : k' ≠ k) : (m.hide c).read blank k' = m.read blank k' :=
  read_hide_unused fun h => ne (sep _ _ _ h own)

end Hide

end Remap

end MiniHardware.Lib
