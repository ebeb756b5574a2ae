import Mathlib.Data.List.Basic
import Mathlib.Data.List.Nodup
import Mathlib.Logic.Relation

/-!
# Breadth-first search

The vertices found so far stand in the order in which they were found, and the
first `head` of them have been expanded. Expanding the next one appends the
successors that are new; when all are expanded, they are the vertices reached
from the start (`Search.mem_iff`).
-/

namespace MiniHardware.Lib

section Push

variable {V : Type*} [DecidableEq V]

/-- A vertex that is not in the list joins at its end. -/
def pushNew (found : List V) (v : V) : List V := if v ∈ found then found else found ++ [v]

theorem mem_pushNew {found : List V} {v w : V} : w ∈ pushNew found v ↔ w ∈ found ∨ w = v := by
  rw [pushNew]
  split
  · rename_i old
    constructor
    · exact .inl
    · rintro (mem | rfl)
      · exact mem
      · exact old
  · simp

theorem mem_foldl_pushNew {found l : List V} {w : V} : w ∈ l.foldl pushNew found ↔ w ∈ found ∨ w ∈ l := by
  induction l generalizing found with
  | nil => simp
  | cons v l ih => rw [List.foldl_cons, ih, mem_pushNew, List.mem_cons, or_assoc]

theorem pushNew_nodup {found : List V} {v : V} (nodup : found.Nodup) : (pushNew found v).Nodup := by
  rw [pushNew]
  split
  · exact nodup
  · rename_i new
    rw [← List.concat_eq_append]
    exact List.Nodup.concat new nodup

theorem pushNew_starts (found : List V) (v : V) : found <+: pushNew found v := by
  rw [pushNew]
  split
  · exact List.prefix_rfl
  · exact List.prefix_append _ _

theorem foldl_pushNew (found l : List V) (nodup : found.Nodup) :
    (l.foldl pushNew found).Nodup ∧ found <+: l.foldl pushNew found := by
  induction l generalizing found with
  | nil => exact ⟨nodup, List.prefix_rfl⟩
  | cons v l ih =>
    obtain ⟨nodup', starts⟩ := ih (pushNew found v) (pushNew_nodup nodup)
    exact ⟨nodup', (pushNew_starts found v).trans starts⟩

end Push

/-- What an extended list starts with. -/
theorem take_succ_of_starts {V : Type*} {found found' : List V} (grown : found <+: found') {k : Nat}
    (lt : k < found.length) : found'.take (k + 1) = found.take k ++ [found[k]] := by
  obtain ⟨rest, rfl⟩ := grown
  rw [List.take_append_of_le_length lt, List.take_succ_eq_append_getElem lt]

/-! ## The search -/

/-- A search from `start` that has expanded the first `head` vertices of `found`. -/
structure Search {V : Type*} (R : V → V → Prop) (start : V) (head : Nat) (found : List V) : Prop where
  nodup : found.Nodup
  first : found.head? = some start
  head_le : head ≤ found.length
  sound : ∀ v ∈ found, Relation.ReflTransGen R start v
  closed : ∀ v ∈ found.take head, ∀ w, R v w → w ∈ found

namespace Search

variable {V : Type*} {R : V → V → Prop} {start : V} {head : Nat} {found : List V}

theorem init (R : V → V → Prop) (start : V) : Search R start 0 [start] where
  nodup := List.nodup_singleton start
  first := rfl
  head_le := Nat.zero_le _
  sound v mem := by
    obtain rfl := List.mem_singleton.1 mem
    exact .refl
  closed v mem := by simp at mem

/-- The next vertex is expanded. -/
theorem expand [DecidableEq V] (search : Search R start head found) (more : head < found.length)
    {succ : List V} (all : ∀ w, w ∈ succ ↔ R found[head] w) :
    Search R start (head + 1) (succ.foldl pushNew found) := by
  obtain ⟨nodup, starts⟩ := foldl_pushNew found succ search.nodup
  have len := starts.length_le
  refine ⟨nodup, ?_, by omega, ?_, ?_⟩
  · obtain ⟨rest, eq⟩ := starts
    rw [← eq, List.head?_append, search.first, Option.some_or]
  · intro v mem
    rcases mem_foldl_pushNew.1 mem with old | new
    · exact search.sound v old
    · exact (search.sound _ (List.getElem_mem more)).tail ((all v).1 new)
  · intro v mem w step
    rw [mem_foldl_pushNew]
    rw [take_succ_of_starts starts more, List.mem_append, List.mem_singleton] at mem
    rcases mem with before | rfl
    · exact .inl (search.closed v before w step)
    · exact .inr ((all w).2 step)

/-- **A finished search has found what is reached.** -/
theorem mem_iff (search : Search R start found.length found) (v : V) :
    v ∈ found ↔ Relation.ReflTransGen R start v := by
  constructor
  · exact search.sound v
  · intro path
    induction path with
    | refl => exact List.mem_of_mem_head? search.first
    | tail _ step ih => exact search.closed _ (by rwa [List.take_length]) _ step

end Search

end MiniHardware.Lib
