import MiniHardware.Lib.Fifo

/-!
# Ring buffers

A ring of `cap` cells with a head, a tail and a count, and the queue it holds.
Entries are pushed at the tail, popped at the head, and may be rewritten or
exchanged in between. A ring that only knows its two ends, and is never quite
full, is one whose count is the distance between them (`ofEnds`).
-/

namespace MiniHardware.Lib

structure Ring (α : Type*) (cap : Nat) where
  cells : Fin cap → α
  head : Fin cap
  tail : Fin cap
  count : Nat

namespace Ring

variable {α : Type*} {cap : Nat}

/-- The cell `i` places behind `c`. -/
def behind (c : Fin cap) (i : Nat) : Fin cap := ⟨(c.val + i) % cap, Nat.mod_lt _ (Nat.zero_lt_of_lt c.isLt)⟩

/-- The cell of entry `i`. -/
def index (r : Ring α cap) (i : Nat) : Fin cap := behind r.head i

/-- The entries, from the head on. -/
def toList (r : Ring α cap) : List α := (List.range r.count).map fun i => r.cells (r.index i)

def push (r : Ring α cap) (x : α) : Ring α cap where
  cells := Function.update r.cells r.tail x
  head := r.head
  tail := behind r.tail 1
  count := r.count + 1

def pop (r : Ring α cap) : Ring α cap :=
  { r with head := behind r.head 1, count := r.count - 1 }

/-- Entry `i` is rewritten. -/
def set (r : Ring α cap) (i : Nat) (x : α) : Ring α cap :=
  { r with cells := Function.update r.cells (r.index i) x }

/-- Entries `i` and `j` change places. -/
def swap (r : Ring α cap) (i j : Nat) : Ring α cap :=
  (r.set i (r.cells (r.index j))).set j (r.cells (r.index i))

/-- The tail is where the queue ends. -/
structure Valid (r : Ring α cap) : Prop where
  count_le : r.count ≤ cap
  tail : r.tail = r.index r.count

variable {r : Ring α cap} {x : α}

/-- Places behind add up. -/
theorem behind_behind (c : Fin cap) (i j : Nat) : behind (behind c i) j = behind c (i + j) := by
  apply Fin.ext
  show ((c.val + i) % cap + j) % cap = (c.val + (i + j)) % cap
  rw [Nat.mod_add_mod, Nat.add_assoc]

/-- No place behind is the cell itself. -/
theorem behind_zero (c : Fin cap) : behind c 0 = c := Fin.ext (Nat.mod_eq_of_lt c.isLt)

/-- The list is as long as the ring says. -/
@[simp] theorem length_toList (r : Ring α cap) : r.toList.length = r.count := by
  simp [toList]

/-- An entry is in its cell. -/
theorem getElem_toList {i : Nat} (h : i < r.toList.length) : r.toList[i] = r.cells (r.index i) := by
  simp [toList]

/-- Different entries have different cells. -/
theorem index_ne (r : Ring α cap) {i j : Nat} (lt : i < j) (le : j < cap) : r.index i ≠ r.index j := by
  intro eq
  have same : (r.head.val + i) % cap = (r.head.val + j) % cap := Fin.ext_iff.1 eq
  exact ring_index_ne lt (Nat.lt_of_le_of_lt (Nat.sub_le j i) le) same

/-- Different entries are in different cells. -/
theorem index_inj (h : r.Valid) {i j : Nat} (hi : i < r.count) (hj : j < r.count) :
    r.index i = r.index j ↔ i = j := by
  have le := h.count_le
  constructor
  · intro eq
    rcases Nat.lt_trichotomy i j with lt | rfl | gt
    · exact absurd eq (index_ne r lt (by omega))
    · rfl
    · exact absurd eq.symm (index_ne r gt (by omega))
  · rintro rfl
    rfl

/-! ## Pushing and popping -/

/-- With room, a push keeps the tail where the queue ends. -/
theorem Valid.push (h : r.Valid) (room : r.count < cap) (x : α) : (r.push x).Valid := by
  refine ⟨room, ?_⟩
  show behind r.tail 1 = behind r.head (r.count + 1)
  rw [h.tail, index, behind_behind]

/-- A push appends. -/
theorem toList_push (h : r.Valid) (room : r.count < cap) (x : α) : (r.push x).toList = r.toList ++ [x] := by
  have old : ∀ i ∈ List.range r.count,
      Function.update r.cells r.tail x (r.index i) = r.cells (r.index i) := by
    intro i mem
    rw [Function.update_of_ne]
    rw [h.tail]
    exact index_ne r (List.mem_range.1 mem) room
  show (List.range (r.count + 1)).map (fun i => Function.update r.cells r.tail x (r.index i)) = _
  rw [List.range_succ, List.map_append, List.map_congr_left old, List.map_singleton, ← h.tail,
    Function.update_self]
  rfl

/-- A pop keeps the tail where the queue ends. -/
theorem Valid.pop (h : r.Valid) (pos : 0 < r.count) : r.pop.Valid := by
  refine ⟨(Nat.sub_le _ _).trans h.count_le, ?_⟩
  show r.tail = behind (behind r.head 1) (r.count - 1)
  rw [h.tail, behind_behind, Nat.add_sub_cancel' pos]
  rfl

/-- A pop takes the first entry. -/
theorem toList_pop (pos : 0 < r.count) : r.toList = r.cells r.head :: r.pop.toList := by
  obtain ⟨n, eq⟩ := Nat.exists_eq_succ_of_ne_zero (Nat.ne_of_gt pos)
  show (List.range r.count).map (fun i => r.cells (r.index i)) =
    r.cells r.head :: (List.range (r.count - 1)).map fun i => r.cells (behind (behind r.head 1) i)
  rw [eq, Nat.succ_sub_one, List.range_succ_eq_map, List.map_cons, List.map_map, index, behind_zero]
  simp only [behind_behind, Function.comp_def, index, Nat.succ_eq_add_one, Nat.add_comm 1]

/-! ## Rewriting -/

/-- Rewriting an entry keeps the ends. -/
theorem Valid.set (h : r.Valid) (i : Nat) (x : α) : (r.set i x).Valid := ⟨h.count_le, h.tail⟩

/-- Rewriting an entry rewrites it in the list and nothing else. -/
theorem toList_set (h : r.Valid) {i : Nat} (lt : i < r.count) (x : α) :
    (r.set i x).toList = r.toList.set i x := by
  apply List.ext_getElem
  · simp only [List.length_set, length_toList]
    rfl
  · intro k hk hk'
    rw [getElem_toList, List.getElem_set]
    have kLt : k < r.count := by
      rw [List.length_set, length_toList] at hk'
      exact hk'
    show Function.update r.cells (r.index i) x (r.index k) = _
    by_cases eq : i = k
    · subst eq
      rw [if_pos rfl, Function.update_self]
    · rw [if_neg eq, Function.update_of_ne (fun same => eq ((index_inj h kLt lt).1 same).symm), getElem_toList]

/-- Swapping entries keeps the ends. -/
theorem Valid.swap (h : r.Valid) (i j : Nat) : (r.swap i j).Valid := (h.set i _).set j _

/-- An exchange permutes the queue. -/
theorem toList_swap (h : r.Valid) {i j : Nat} (hi : i < r.count) (hj : j < r.count) :
    (r.swap i j).toList.Perm r.toList := by
  have hi' : i < r.toList.length := by rwa [length_toList]
  have hj' : j < r.toList.length := by rwa [length_toList]
  rw [swap, toList_set (h.set i _) hj, toList_set h hi, ← getElem_toList hi', ← getElem_toList hj']
  exact List.set_set_perm hi' hj'

/-- An entry that is rewritten and popped. -/
theorem toList_pop_set (h : r.Valid) (pos : 0 < r.count) (x : α) : (r.set 0 x).pop.toList = r.pop.toList := by
  have rewritten := toList_set h pos x
  rw [toList_pop (r := r.set 0 x) pos, toList_pop pos, List.set_cons_zero, List.cons.injEq] at rewritten
  exact rewritten.2

/-! ## Rings without a count -/

/-- The number of places from one cell on to another. -/
def between (head tail : Fin cap) : Nat := (tail.val + (cap - head.val)) % cap

/-- A cell is no place on from itself. -/
theorem between_self (c : Fin cap) : between c c = 0 := by
  rw [between, Nat.add_sub_cancel' c.isLt.le, Nat.mod_self]

/-- Going on by the places between two cells leads from the one to the other. -/
theorem behind_between (head tail : Fin cap) : behind head (between head tail) = tail := by
  apply Fin.ext
  show (head.val + (tail.val + (cap - head.val)) % cap) % cap = tail.val
  have around : head.val + (tail.val + (cap - head.val)) = tail.val + cap := by omega
  rw [Nat.add_mod_mod, around, Nat.add_mod_right, Nat.mod_eq_of_lt tail.isLt]

/-- The places between two cells are less than a turn. -/
theorem between_lt (head tail : Fin cap) : between head tail < cap :=
  Nat.mod_lt _ (Nat.zero_lt_of_lt head.isLt)

/-- The places between a cell and one that is `n` behind it are `n`, if that is less than a turn. -/
theorem between_behind (head : Fin cap) {n : Nat} (lt : n < cap) : between head (behind head n) = n := by
  have same := behind_between head (behind head n)
  by_contra ne
  have places : ∀ {i j : Nat}, i < j → j < cap → behind head i ≠ behind head j :=
    fun below inside => index_ne ⟨fun _ => (), head, head, 0⟩ below inside
  rcases Nat.lt_or_gt_of_ne ne with below | above
  · exact places below lt same
  · exact places above (between_lt _ _) same.symm

/-- Different cells are apart. -/
theorem between_pos {head tail : Fin cap} (ne : head ≠ tail) : 0 < between head tail := by
  apply Nat.pos_of_ne_zero
  intro zero
  have same := behind_between head tail
  rw [zero, behind_zero] at same
  exact ne same

/-- The ring between two ends. -/
def ofEnds (cells : Fin cap → α) (head tail : Fin cap) : Ring α cap := ⟨cells, head, tail, between head tail⟩

/-- A ring between two ends is valid. -/
theorem valid_ofEnds (cells : Fin cap → α) (head tail : Fin cap) : (ofEnds cells head tail).Valid :=
  ⟨(between_lt head tail).le, (behind_between head tail).symm⟩

/-- With the last free cell left free, the tail may move. -/
theorem ofEnds_push (cells : Fin cap → α) {head tail : Fin cap} (free : behind tail 1 ≠ head) (x : α) :
    between head tail < cap ∧
      ofEnds (Function.update cells tail x) head (behind tail 1) = (ofEnds cells head tail).push x := by
  have next : behind tail 1 = behind head (between head tail + 1) := by
    rw [← behind_behind, behind_between]
  have room : between head tail + 1 < cap := by
    refine Nat.lt_of_le_of_ne (between_lt head tail) fun full => free ?_
    rw [next, full]
    apply Fin.ext
    show (head.val + cap) % cap = head.val
    rw [Nat.add_mod_right, Nat.mod_eq_of_lt head.isLt]
  refine ⟨between_lt head tail, ?_⟩
  rw [ofEnds, next, between_behind head room, ← next]
  rfl

/-- A ring that is not full but for one cell has another free one behind its tail. -/
theorem behind_ne_of_room {head tail : Fin cap} (room : between head tail + 1 < cap) : behind tail 1 ≠ head := by
  have next : behind tail 1 = behind head (between head tail + 1) := by
    rw [← behind_behind, behind_between]
  rw [next]
  intro eq
  have places := between_behind head room
  rw [eq, between_self] at places
  omega

/-- Moving the head on by one pops. -/
theorem ofEnds_pop (cells : Fin cap → α) {head tail : Fin cap} (ne : head ≠ tail) :
    ofEnds cells (behind head 1) tail = (ofEnds cells head tail).pop := by
  have pos := between_pos ne
  have rest : between (behind head 1) tail = between head tail - 1 := by
    have split : behind (behind head 1) (between head tail - 1) = tail := by
      rw [behind_behind, Nat.add_sub_cancel' pos, behind_between]
    conv_lhs => rw [← split]
    exact between_behind _ (Nat.lt_of_le_of_lt (Nat.sub_le _ _) (between_lt head tail))
  rw [ofEnds, rest]
  rfl

end Ring

end MiniHardware.Lib
