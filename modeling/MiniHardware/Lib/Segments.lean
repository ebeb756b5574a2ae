import Mathlib.Algebra.BigOperators.Group.List.Basic
import Mathlib.Data.List.Range

/-!
# Rows laid end to end

Rows of different lengths stand behind each other in one array, and a second
array has the places where they begin. Row `i` is read between two of its
entries. An array that is filled from the front has what was written as a prefix.
-/

namespace MiniHardware.Lib

variable {α σ : Type*}

/-! ## Offsets -/

section Offsets
variable {rows : List (List α)}

/-- Where row `i` begins. -/
def offset (rows : List (List α)) (i : Nat) : Nat := (rows.take i).flatten.length

/-- The places where the rows begin, and the end of the last one. -/
def offsets (rows : List (List α)) : List Nat := (List.range (rows.length + 1)).map (offset rows)

/-- One row more. -/
theorem flatten_take_succ {i : Nat} (lt : i < rows.length) :
    (rows.take (i + 1)).flatten = (rows.take i).flatten ++ rows[i] := by
  rw [List.take_succ_eq_append_getElem lt, List.flatten_append, List.flatten_singleton]

/-- A row begins where the one before it ends. -/
theorem offset_succ {i : Nat} (lt : i < rows.length) : offset rows (i + 1) = offset rows i + rows[i].length := by
  rw [offset, flatten_take_succ lt, List.length_append]
  rfl

/-- Behind the rows all places are the end. -/
theorem offset_of_length_le {i : Nat} (le : rows.length ≤ i) : offset rows i = rows.flatten.length := by
  rw [offset, List.take_of_length_le le]

/-- The rows begin in order. -/
theorem offset_mono (rows : List (List α)) {i j : Nat} (le : i ≤ j) : offset rows i ≤ offset rows j := by
  obtain ⟨k, rfl⟩ := Nat.exists_eq_add_of_le le
  rw [offset, offset, List.take_add, List.flatten_append, List.length_append]
  exact Nat.le_add_right ..

/-- A row stands between its offset and the next. -/
theorem drop_take_flatten {i : Nat} (lt : i < rows.length) :
    (rows.flatten.take (offset rows (i + 1))).drop (offset rows i) = rows[i] := by
  have split : rows.flatten = (rows.take (i + 1)).flatten ++ (rows.drop (i + 1)).flatten := by
    rw [← List.flatten_append, List.take_append_drop]
  have stop : (rows.take (i + 1)).flatten.length = offset rows (i + 1) := rfl
  have start : (rows.take i).flatten.length = offset rows i := rfl
  rw [split, List.take_left' stop, flatten_take_succ lt, List.drop_left' start]

/-- Place `i` of the pointers is where row `i` begins. -/
theorem getElem?_offsets {i : Nat} (le : i ≤ rows.length) : (offsets rows)[i]? = some (offset rows i) := by
  rw [offsets, List.getElem?_map, List.getElem?_range (by omega)]
  rfl

/-- There is one pointer more than there are rows. -/
theorem length_offsets : (offsets rows).length = rows.length + 1 := by
  rw [offsets, List.length_map, List.length_range]

/-- The pointers do not fall. -/
theorem pairwise_offsets : (offsets rows).Pairwise (· ≤ ·) := by
  rw [offsets, List.pairwise_map]
  exact List.pairwise_lt_range.imp fun lt => offset_mono rows (Nat.le_of_lt lt)

/-- Without an entry all pointers are zero. -/
theorem offsets_of_nil (nil : rows.flatten = []) :
    offsets rows = List.replicate (rows.length + 1) 0 := by
  refine List.eq_replicate_of_mem ?_ |>.trans (by rw [length_offsets])
  intro p mem
  obtain ⟨i, -, rfl⟩ := List.mem_map.mp mem
  have le := offset_mono rows (Nat.le_max_left i rows.length)
  rw [offset_of_length_le (Nat.le_max_right i rows.length), nil] at le
  exact Nat.le_zero.mp le

end Offsets

/-! ## Reading a row -/

section Reading
variable {l : List α} {a b : Nat}

/-- What stands at the places of a row. -/
theorem map_places (le : b ≤ l.length) : (List.range' a (b - a)).map (l[·]?) = ((l.take b).drop a).map some := by
  apply List.ext_getElem
  · rw [List.length_map, List.length_range', List.length_map, List.length_drop, List.length_take, Nat.min_eq_left le]
  · intro k lt lt'
    rw [List.length_map, List.length_range'] at lt
    rw [List.getElem_map, List.getElem_range', List.getElem_map, List.getElem_drop, List.getElem_take,
      List.getElem?_eq_getElem (by omega)]
    simp only [Nat.one_mul]

/-- A sum over places is a sum over the entries there. -/
theorem sum_places {V : Type*} [AddMonoid V] (term : α → V) (le : b ≤ l.length) :
    ((List.range' a (b - a)).map fun j => l[j]?.elim 0 term).sum = (((l.take b).drop a).map term).sum := by
  have places := congrArg (List.map fun o : Option α => o.elim 0 term) (map_places (a := a) le)
  rw [List.map_map, List.map_map] at places
  exact congrArg List.sum places

/-- An entry at one of the places is among those cut out. -/
theorem mem_places {j : Nat} {x : α} (mem : j ∈ List.range' a (b - a)) (at_j : l[j]? = some x) :
    x ∈ (l.take b).drop a := by
  have := List.mem_range'_1.mp mem
  refine List.mem_iff_getElem?.mpr ⟨j - a, ?_⟩
  rw [List.getElem?_drop, List.getElem?_take_of_lt (by omega), ← at_j]
  congr 1
  omega

end Reading

/-! ## Columns -/

/-- Row `i` of an array, between two places. -/
def rowOf (ptr : List Nat) (l : List α) (i : Nat) : List α := (l.take (ptr.getD (i + 1) 0)).drop (ptr.getD i 0)

/-- The column numbers of `rows` rows, which rise in every row. -/
structure RowsIndexed (ptr columns : List Nat) (rows cols total : Nat) : Prop where
  ptrs : ptr.length = rows + 1
  first : ptr.head? = some 0
  last : ptr.getLast? = some total
  monotone : ptr.Pairwise (· ≤ ·)
  increasing : ∀ i < rows, (rowOf ptr columns i).Pairwise (· < ·)
  below : ∀ i < rows, ∀ j ∈ rowOf ptr columns i, j < cols

/-- The pointers of no entries are zeros. -/
theorem RowsIndexed.zeros {ptr columns : List Nat} {rows cols : Nat} (indexed : RowsIndexed ptr columns rows cols 0) :
    ∀ p ∈ ptr, p = 0 := by
  obtain ⟨init, rfl⟩ := List.getLast?_eq_some_iff.mp indexed.last
  intro p mem
  rcases List.mem_append.mp mem with before | last
  · exact Nat.le_zero.mp ((List.pairwise_append.mp indexed.monotone).2.2 p before 0 List.mem_cons_self)
  · exact List.mem_singleton.mp last

/-- The pointers cut an array of entries into its rows. -/
theorem rowOf_offsets {β : Type*} {rows : List (List α)} (f : α → β) {i : Nat} (lt : i < rows.length) :
    rowOf (offsets rows) (rows.flatten.map f) i = rows[i].map f := by
  rw [rowOf, List.getD_eq_getElem?_getD, List.getD_eq_getElem?_getD, getElem?_offsets lt, getElem?_offsets (Nat.le_of_lt lt),
    Option.getD_some, Option.getD_some, ← List.map_take, ← List.map_drop, drop_take_flatten lt]

/-- Rows with rising columns, one after the other, are indexed by their pointers. -/
theorem rowsIndexed_offsets {rows : List (List α)} (col : α → Nat) {cols : Nat}
    (increasing : ∀ i (lt : i < rows.length), (rows[i].map col).Pairwise (· < ·))
    (below : ∀ i (lt : i < rows.length), ∀ x ∈ rows[i], col x < cols) :
    RowsIndexed (offsets rows) (rows.flatten.map col) rows.length cols rows.flatten.length where
  ptrs := length_offsets
  first := by
    rw [List.head?_eq_getElem?]
    exact getElem?_offsets (Nat.zero_le _)
  last := by
    rw [List.getLast?_eq_getElem?, length_offsets, Nat.add_sub_cancel, getElem?_offsets (Nat.le_refl _),
      offset_of_length_le (Nat.le_refl _)]
  monotone := pairwise_offsets
  increasing i lt := by
    rw [rowOf_offsets col lt]
    exact increasing i lt
  below i lt j mem := by
    rw [rowOf_offsets col lt] at mem
    obtain ⟨x, inside, rfl⟩ := List.mem_map.mp mem
    exact below i lt x inside

/-! ## Writing behind what is there -/

/-- `l[k] = x`. -/
def writeAt (l : List α) (k : Nat) (x : α) : Option (List α) := if k < l.length then some (l.set k x) else none

/-- A write within the array. -/
theorem writeAt_eq {l : List α} {k : Nat} (lt : k < l.length) (x : α) : writeAt l k x = some (l.set k x) := if_pos lt

/-- A write beyond its end. -/
theorem writeAt_outside {l : List α} {k : Nat} (le : l.length ≤ k) (x : α) : writeAt l k x = none :=
  if_neg (Nat.not_lt.2 le)

/-- A write that stays inside leaves the length as it is. -/
theorem length_writeAt {l l' : List α} {k : Nat} {x : α} (written : writeAt l k x = some l') : l'.length = l.length := by
  rw [writeAt] at written
  split at written
  · rw [← Option.some.inj written, List.length_set]
  · exact nomatch written

/-- Writing behind what is filled fills one place more. -/
theorem prefix_set {p l : List α} (starts : p <+: l) (room : p.length < l.length) (x : α) :
    p ++ [x] <+: l.set p.length x := by
  obtain ⟨rest, rfl⟩ := starts
  rw [List.set_append_right _ _ (Nat.le_refl _), Nat.sub_self]
  cases rest with
  | nil => simp at room
  | cons y rest => exact ⟨rest, by simp⟩

/-- An array of which nothing is left to be written. -/
theorem eq_of_prefix_full {p l : List α} (starts : p <+: l) (full : p.length = l.length) : l = p :=
  (starts.eq_of_length full).symm

/-! ## Loops that add -/

/-- A loop each of whose rounds adds a term to a value the state stands for. -/
theorem foldlM_sum {V ε : Type*} [AddMonoid V] (repr : V → σ) (term : ε → V) {body : σ → ε → Option σ} {l : List ε}
    (adds : ∀ v, ∀ e ∈ l, body (repr v) e = some (repr (v + term e))) (v : V) :
    l.foldlM body (repr v) = some (repr (v + (l.map term).sum)) := by
  induction l generalizing v with
  | nil => simp
  | cons e l ih =>
    rw [List.foldlM_cons, adds v e List.mem_cons_self, List.map_cons, List.sum_cons, ← add_assoc]
    exact ih (fun v e mem => adds v e (List.mem_cons_of_mem _ mem)) (v + term e)

end MiniHardware.Lib
