import Mathlib.Algebra.GroupWithZero.Nat

/-!
# Indices

Register files, blocks and buffers have the sizes below. An index literal such
as `(0 : Fin 16)` needs to know that the size is positive, and takes it from
here in every module.
-/

namespace MiniHardware.Lib

instance neZero4 : NeZero 4 := ⟨by decide⟩

instance neZero8 : NeZero 8 := ⟨by decide⟩

instance neZero16 : NeZero 16 := ⟨by decide⟩

instance neZero32 : NeZero 32 := ⟨by decide⟩

instance neZero64 : NeZero 64 := ⟨by decide⟩

instance neZero128 : NeZero 128 := ⟨by decide⟩

instance neZero256 : NeZero 256 := ⟨by decide⟩

variable {α : Type*} {n : Nat}

/-- An entry, by the number of its index. -/
theorem get_mk (v : Vector α n) {i : Nat} (h : i < n) : v.get ⟨i, h⟩ = v[i] := rfl

theorem get_eq (v : Vector α n) (i : Fin n) : v.get i = v[i.val] := rfl

theorem get_set (v : Vector α n) (i k : Fin n) (x : α) :
    (v.set i x).get k = if k = i then x else v.get k := by
  split
  · rename_i eq
    subst eq
    exact Vector.getElem_set_self k.isLt
  · rename_i ne
    exact Vector.getElem_set_ne i.isLt k.isLt fun eq => ne (Fin.ext eq.symm)

theorem get_replicate (x : α) (i : Fin n) : (Vector.replicate n x).get i = x :=
  Vector.getElem_replicate i.isLt

theorem get_ofFn (f : Fin n → α) (i : Fin n) : (Vector.ofFn f).get i = f i := Vector.getElem_ofFn i.isLt

/-- The index after `a`, round a ring of `n`. -/
theorem succ_mod_eq {a b : Nat} (lt : a < n) : (a + 1) % n = b ↔ (a + 1 = b ∧ b < n) ∨ (a + 1 = n ∧ b = 0) := by
  rcases Nat.lt_or_ge (a + 1) n with inner | last
  · rw [Nat.mod_eq_of_lt inner]
    omega
  · obtain rfl : n = a + 1 := by omega
    rw [Nat.mod_self]
    omega

/-! ## Copies

`copyOut` and `copyIn` copy a number of bytes out of an array and into one, from
an offset on. A copy that does not stay inside the array has no result. The
other side is a buffer of the caller, the bytes from a pointer on. -/

variable {off size : Nat}

/-- The buffer after a copy out of the array. -/
def copyOut (array : Vector α n) (off size : Nat) (buffer : Nat → α) : Option (Nat → α) :=
  if h : off + size ≤ n then some fun i => if lt : i < size then array.get ⟨off + i, by omega⟩ else buffer i
  else none

/-- The array after a copy into it. -/
def copyIn (array : Vector α n) (off size : Nat) (buffer : Nat → α) : Option (Vector α n) :=
  if off + size ≤ n then
    some (Vector.ofFn fun j => if off ≤ j.val ∧ j.val < off + size then buffer (j.val - off) else array.get j)
  else none

theorem copyOut_of_le (array : Vector α n) (le : off + size ≤ n) (buffer : Nat → α) :
    ∃ out, copyOut array off size buffer = some out ∧
      ∀ i (lt : i < size), out i = array.get ⟨off + i, Nat.lt_of_lt_of_le (Nat.add_lt_add_left lt off) le⟩ :=
  ⟨_, dif_pos le, fun _ lt => dif_pos lt⟩

theorem copyIn_of_le (array : Vector α n) (le : off + size ≤ n) (buffer : Nat → α) :
    ∃ array', copyIn array off size buffer = some array' ∧
      ∀ j, array'.get j = if off ≤ j.val ∧ j.val < off + size then buffer (j.val - off) else array.get j :=
  ⟨_, if_pos le, fun j => Vector.getElem_ofFn j.isLt⟩

end MiniHardware.Lib
