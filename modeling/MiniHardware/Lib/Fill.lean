import Mathlib.Data.List.FinRange
import Mathlib.Data.List.ProdSigma

/-!
# Loops with checked accesses

A read or a write outside an array has no result, so a loop that has one stays
inside its arrays. `foldlM_rounds` is the loop rule, with the rounds already
done; `fill` is the loop that writes one entry in every round.
-/

namespace MiniHardware.Lib

variable {σ ι α : Type*} {n : Nat}

/-- A loop whose rounds keep an invariant has a result. -/
theorem foldlM_rounds {body : σ → ι → Option σ} (Inv : List ι → σ → Prop) {l : List ι}
    (keep : ∀ done x rest s, l = done ++ x :: rest → Inv done s →
      ∃ s', body s x = some s' ∧ Inv (done ++ [x]) s')
    {s : σ} (init : Inv [] s) : ∃ s', l.foldlM body s = some s' ∧ Inv l s' := by
  have later : ∀ (rest done : List ι) (s : σ), l = done ++ rest → Inv done s →
      ∃ s', rest.foldlM body s = some s' ∧ Inv l s' := by
    intro rest
    induction rest with
    | nil =>
      intro done s eq inv
      rw [List.append_nil] at eq
      exact ⟨s, rfl, eq ▸ inv⟩
    | cons x rest ih =>
      intro done s eq inv
      obtain ⟨mid, first, inv⟩ := keep done x rest s eq inv
      obtain ⟨s', others, inv⟩ := ih (done ++ [x]) mid (by rw [eq, List.append_assoc]; rfl) inv
      refine ⟨s', ?_, inv⟩
      rw [List.foldlM_cons, first]
      exact others
  exact later l [] s rfl init

/-- The rule for a counted loop. -/
theorem foldlM_range {body : σ → Nat → Option σ} (Inv : Nat → σ → Prop) {n : Nat}
    (keep : ∀ i s, i < n → Inv i s → ∃ s', body s i = some s' ∧ Inv (i + 1) s')
    {s : σ} (init : Inv 0 s) : ∃ s', (List.range n).foldlM body s = some s' ∧ Inv n s' := by
  induction n with
  | zero => exact ⟨s, rfl, init⟩
  | succ n ih =>
    obtain ⟨mid, first, inv⟩ := ih fun i s lt => keep i s (Nat.lt_succ_of_lt lt)
    obtain ⟨s', last, inv⟩ := keep n mid (Nat.lt_succ_self n) inv
    refine ⟨s', ?_, inv⟩
    rw [List.range_succ, List.foldlM_append, first]
    simp [last]

theorem foldlM_range_succ {body : σ → Nat → Option σ} {n : Nat} {s s' : σ}
    (loop : (List.range (n + 1)).foldlM body s = some s') :
    ∃ mid, (List.range n).foldlM body s = some mid ∧ body mid n = some s' := by
  rw [List.range_succ, List.foldlM_append] at loop
  obtain ⟨mid, first, rest⟩ := Option.bind_eq_some_iff.mp loop
  obtain ⟨last, step, done⟩ := Option.bind_eq_some_iff.mp rest
  obtain rfl := Option.some.inj done
  exact ⟨mid, first, step⟩

/-- What the rounds keep that have a result. -/
theorem foldlM_range_some {body : σ → Nat → Option σ} (Inv : Nat → σ → Prop) {n : Nat}
    (keep : ∀ i s s', i < n → Inv i s → body s i = some s' → Inv (i + 1) s')
    {s s' : σ} (init : Inv 0 s) (loop : (List.range n).foldlM body s = some s') : Inv n s' := by
  induction n generalizing s' with
  | zero =>
    obtain rfl := Option.some.inj loop
    exact init
  | succ n ih =>
    obtain ⟨mid, first, last⟩ := foldlM_range_succ loop
    exact keep n mid s' (Nat.lt_succ_self n) (ih (fun i s s' lt => keep i s s' (Nat.lt_succ_of_lt lt)) first) last

/-- The same where the invariant does not count the rounds. -/
theorem foldlM_some {body : σ → ι → Option σ} (Inv : σ → Prop) {l : List ι}
    (keep : ∀ x ∈ l, ∀ s s', Inv s → body s x = some s' → Inv s')
    {s s' : σ} (init : Inv s) (loop : l.foldlM body s = some s') : Inv s' := by
  induction l generalizing s with
  | nil =>
    obtain rfl := Option.some.inj loop
    exact init
  | cons x l ih =>
    obtain ⟨mid, first, rest⟩ := Option.bind_eq_some_iff.1 loop
    exact ih (fun y mem => keep y (List.mem_cons_of_mem x mem)) (keep x List.mem_cons_self s mid init first) rest

/-- The rule for a loop over the elements of `Fin n`. -/
theorem foldlM_finRange {body : σ → Fin n → Option σ} (Inv : Nat → σ → Prop)
    (keep : ∀ (i : Fin n) s, Inv i s → ∃ s', body s i = some s' ∧ Inv (i + 1) s')
    {s : σ} (init : Inv 0 s) : ∃ s', (List.finRange n).foldlM body s = some s' ∧ Inv n s' := by
  induction n with
  | zero => exact ⟨s, rfl, init⟩
  | succ n ih =>
    obtain ⟨mid, first, inv⟩ := ih fun i s => keep i.castSucc s
    obtain ⟨s', last, inv⟩ := keep (Fin.last n) mid inv
    refine ⟨s', ?_, inv⟩
    rw [List.finRange_succ_last, List.foldlM_append, List.foldlM_map, first]
    simp [last]

/-- A search that nothing changes after the first hit. -/
theorem foldlM_any (p : ι → Bool) {body : Bool → ι → Option Bool} {l : List ι}
    (tests : ∀ x ∈ l, body false x = some (p x)) (stays : ∀ x ∈ l, body true x = some true) :
    l.foldlM body false = some (l.any p) := by
  have found : ∀ l' : List ι, (∀ x ∈ l', x ∈ l) → l'.foldlM body true = some true := by
    intro l' sub
    induction l' with
    | nil => rfl
    | cons x l' ih =>
      rw [List.foldlM_cons, stays x (sub x List.mem_cons_self)]
      exact ih fun y mem => sub y (List.mem_cons_of_mem x mem)
  induction l with
  | nil => rfl
  | cons x l ih =>
    rw [List.foldlM_cons, tests x List.mem_cons_self, List.any_cons]
    cases p x with
    | true => exact found l fun y mem => List.mem_cons_of_mem x mem
    | false =>
      exact ih (fun y mem => tests y (List.mem_cons_of_mem x mem)) (fun y mem => stays y (List.mem_cons_of_mem x mem))
        fun l' sub => found l' fun y mem => List.mem_cons_of_mem x (sub y mem)

/-- `X[k] = x`. -/
def checkedSet (X : Vector α n) (k : Nat) (x : α) : Option (Vector α n) :=
  if h : k < n then some (X.set k x) else none

/-- One write for every element of `l`. -/
def fill (l : List ι) (place : ι → Nat) (value : ι → Option α) (X : Vector α n) : Option (Vector α n) :=
  l.foldlM (fun X p => do checkedSet X (place p) (← value p)) X

/-- Where all accesses are inside, the entries written hold what belongs there and
the others stay. -/
theorem fill_eq (l : List ι) (place : ι → Nat) (value : ι → Option α) (g : Fin n → α) (X : Vector α n)
    (inside : ∀ p ∈ l, place p < n)
    (known : ∀ p (mem : p ∈ l), value p = some (g ⟨place p, inside p mem⟩)) :
    ∃ Y, fill l place value X = some Y ∧
      ∀ k (h : k < n), Y[k] = if k ∈ l.map place then g ⟨k, h⟩ else X[k] := by
  refine foldlM_rounds (fun done (Y : Vector α n) => ∀ k (h : k < n),
    Y[k] = if k ∈ done.map place then g ⟨k, h⟩ else X[k]) ?_ ?_
  · intro done p rest Y eq inv
    have mem : p ∈ l := by rw [eq]; exact List.mem_append_right _ List.mem_cons_self
    refine ⟨Y.set (place p) (g ⟨place p, inside p mem⟩) (inside p mem), ?_, ?_⟩
    · rw [known p mem]
      exact dif_pos (inside p mem)
    · intro k h
      rw [List.map_append, List.map_singleton, Vector.getElem_set, inv k h]
      rcases eq_or_ne (place p) k with rfl | ne
      · simp
      · simp [ne, ne.symm]
  · intro k h
    simp

/-- Where no entry is written twice, each place has what was written to it. -/
theorem fill_injOn (l : List ι) (place : ι → Nat) (value : ι → Option α) (v : ι → α) (X : Vector α n)
    (inside : ∀ p ∈ l, place p < n) (apart : ∀ p ∈ l, ∀ q ∈ l, place p = place q → p = q)
    (known : ∀ p ∈ l, value p = some (v p)) :
    ∃ Y, fill l place value X = some Y ∧ ∀ p ∈ l, Y[place p]? = some (v p) := by
  classical
  have owner : ∀ p (mem : p ∈ l), ∀ h : ∃ q ∈ l, place q = place p, h.choose = p :=
    fun p mem h => apart _ h.choose_spec.1 _ mem h.choose_spec.2
  obtain ⟨Y, loop, entry⟩ := fill_eq l place value
    (fun k => if h : ∃ q ∈ l, place q = k.val then v h.choose else X.get k) X inside fun p mem => by
      have found : ∃ q ∈ l, place q = place p := ⟨p, mem, rfl⟩
      rw [known p mem, dif_pos found, owner p mem found]
  refine ⟨Y, loop, fun p mem => ?_⟩
  have found : ∃ q ∈ l, place q = place p := ⟨p, mem, rfl⟩
  rw [Vector.getElem?_eq_getElem (inside p mem), entry _ (inside p mem), if_pos (List.mem_map_of_mem mem), dif_pos found,
    owner p mem found]


/-- A write outside the array ends the loop. -/
theorem fill_outside {l : List ι} {place : ι → Nat} {value : ι → Option α} {p : ι} (mem : p ∈ l)
    (outside : n ≤ place p) (X : Vector α n) : fill l place value X = none := by
  induction l generalizing X with
  | nil => cases mem
  | cons x l ih =>
    rw [fill, List.foldlM_cons]
    rcases List.mem_cons.1 mem with rfl | later
    · cases value p with
      | none => rfl
      | some v => simp [checkedSet, Nat.not_lt.2 outside]
    · cases first : (do checkedSet X (place x) (← value x)) with
      | none => rfl
      | some Y => exact ih later Y

/-- `X[k] = f(X[k])`, once for every element of `l`. -/
def modifyEach (l : List ι) (place : ι → Nat) (f : ι → α → Option α) (X : Vector α n) : Option (Vector α n) :=
  l.foldlM (fun X p => do
    let x ← X[place p]?
    checkedSet X (place p) (← f p x)) X

/-- Where no entry is changed twice, the old entries decide. -/
theorem modifyEach_eq_fill {l : List ι} {place : ι → Nat} (nodup : (l.map place).Nodup) (f : ι → α → Option α)
    (X : Vector α n) : modifyEach l place f X = fill l place (fun p => X[place p]?.bind (f p)) X := by
  have later : ∀ (l : List ι) (Y : Vector α n), (l.map place).Nodup → (∀ p ∈ l, Y[place p]? = X[place p]?) →
      modifyEach l place f Y = fill l place (fun p => X[place p]?.bind (f p)) Y := by
    intro l
    induction l with
    | nil =>
      intro Y _ _
      rfl
    | cons p l ih =>
      intro Y nodup same
      rw [List.map_cons, List.nodup_cons] at nodup
      rw [modifyEach, fill, List.foldlM_cons, List.foldlM_cons, same p List.mem_cons_self]
      cases here : X[place p]? with
      | none => rfl
      | some x =>
        cases new : f p x with
        | none => simp [new]
        | some y =>
          simp only [Option.bind_eq_bind, Option.bind_some, new]
          cases set : checkedSet Y (place p) y with
          | none => rfl
          | some Z =>
            refine ih Z nodup.2 fun q mem => ?_
            rw [← same q (List.mem_cons_of_mem p mem)]
            have ne : place p ≠ place q := fun eq => nodup.1 (eq ▸ List.mem_map_of_mem mem)
            unfold checkedSet at set
            split at set
            · obtain rfl := Option.some.inj set
              exact Vector.getElem?_set_ne _ ne
            · contradiction
  exact later l X nodup fun _ _ => rfl

/-- A double loop that packs `a` rows of `b` columns at the start of an array. -/
theorem fill_packed {a b : Nat} (place : Nat × Nat → Nat) (value : Nat × Nat → Option α) (fits : a * b ≤ n)
    (packed : ∀ p, place p = p.1 * b + p.2) (v : Nat → Nat → α)
    (known : ∀ i < a, ∀ j < b, value (i, j) = some (v i j)) (X : Vector α n) :
    ∃ Y, fill (List.range a ×ˢ List.range b) place value X = some Y ∧
      ∀ i < a, ∀ j < b, Y[i * b + j]? = some (v i j) := by
  have inside : ∀ i < a, ∀ j < b, i * b + j < n := by
    intro i row j col
    calc i * b + j < i * b + b := Nat.add_lt_add_left col _
      _ = (i + 1) * b := (Nat.succ_mul i b).symm
      _ ≤ a * b := Nat.mul_le_mul_right b row
      _ ≤ n := fits
  have parts : ∀ i, ∀ j < b, (i * b + j) / b = i ∧ (i * b + j) % b = j := by
    intro i j col
    have pos : 0 < b := Nat.zero_lt_of_lt col
    refine ⟨?_, ?_⟩
    · rw [Nat.add_comm, Nat.add_mul_div_right _ _ pos, Nat.div_eq_of_lt col, Nat.zero_add]
    · rw [Nat.mul_add_mod', Nat.mod_eq_of_lt col]
  have mem : ∀ p ∈ List.range a ×ˢ List.range b, p.1 < a ∧ p.2 < b := by
    intro p mem
    obtain ⟨row, col⟩ := List.mem_product.1 mem
    exact ⟨List.mem_range.1 row, List.mem_range.1 col⟩
  obtain ⟨Y, loop, entry⟩ := fill_eq (List.range a ×ˢ List.range b) place value
    (fun k => v (k.val / b) (k.val % b)) X
    (fun p h => by
      rw [packed]
      exact inside p.1 (mem p h).1 p.2 (mem p h).2)
    (fun p h => by
      obtain ⟨div, mod⟩ := parts p.1 p.2 (mem p h).2
      simp only [packed, div, mod]
      exact known p.1 (mem p h).1 p.2 (mem p h).2)
  refine ⟨Y, loop, fun i row j col => ?_⟩
  have written : i * b + j ∈ (List.range a ×ˢ List.range b).map place :=
    List.mem_map.2 ⟨(i, j), List.mem_product.2 ⟨List.mem_range.2 row, List.mem_range.2 col⟩, packed _⟩
  obtain ⟨div, mod⟩ := parts i j col
  rw [Vector.getElem?_eq_getElem (inside i row j col), entry _ (inside i row j col), if_pos written, div, mod]

/-! ## Copies -/

/-- `count` entries from `src` to `offset`. -/
def memcpy (dst : Vector α n) (offset : Nat) (src : Nat → Option α) (count : Nat) : Option (Vector α n) :=
  fill (List.range count) (offset + ·) src dst

/-- What stands before the end of the copy. -/
theorem memcpy_eq {l : List α} {offset : Nat} {src : Nat → Option α} (dst : Vector α n)
    (inside : offset + l.length ≤ n) (known : ∀ k (h : k < l.length), src k = some l[k]) :
    ∃ Y, memcpy dst offset src l.length = some Y ∧
      Y.toList.take (offset + l.length) = dst.toList.take offset ++ l := by
  have bound : ∀ k ∈ List.range l.length, offset + k < n := by
    intro k mem
    have := List.mem_range.1 mem
    omega
  obtain ⟨Y, copy, entry⟩ := fill_eq (List.range l.length) (offset + ·) src
    (fun k => if h : offset ≤ k.val ∧ k.val - offset < l.length then l[k.val - offset] else dst[k]) dst bound
    (fun k mem => by
      have lt := List.mem_range.1 mem
      have here : offset ≤ offset + k ∧ offset + k - offset < l.length := by omega
      rw [known k lt, dif_pos here]
      simp only [Nat.add_sub_cancel_left])
  refine ⟨Y, copy, List.ext_getElem ?_ fun k lt lt' => ?_⟩
  · simp
    omega
  · have lt : k < offset + l.length := Nat.lt_of_lt_of_le lt (List.length_take_le _ _)
    have places : k ∈ (List.range l.length).map (offset + ·) ↔ offset ≤ k := by
      rw [List.mem_map]
      constructor
      · rintro ⟨j, -, rfl⟩
        exact Nat.le_add_right offset j
      · intro le
        exact ⟨k - offset, List.mem_range.2 (by omega), by omega⟩
    rw [List.getElem_take, Vector.getElem_toList, entry k (by omega), List.getElem_append]
    have short : (dst.toList.take offset).length = offset := by
      rw [List.length_take, Vector.length_toList]
      omega
    simp only [short, places]
    by_cases le : offset ≤ k
    · rw [if_pos le, dif_pos ⟨le, by omega⟩, dif_neg (Nat.not_lt.2 le)]
    · rw [if_neg le, dif_pos (Nat.not_le.1 le), List.getElem_take, Vector.getElem_toList]

/-- A copy behind what the array starts with. -/
theorem memcpy_behind {p l : List α} (src : Nat → Option α) {dst : Vector α n} (starts : p <+: dst.toList)
    (inside : p.length + l.length ≤ n) (known : ∀ k (h : k < l.length), src k = some l[k]) :
    ∃ Y, memcpy dst p.length src l.length = some Y ∧ p ++ l <+: Y.toList := by
  obtain ⟨Y, copy, front⟩ := memcpy_eq dst inside known
  refine ⟨Y, copy, ?_⟩
  rw [List.prefix_iff_eq_take, List.length_append, front, ← List.prefix_iff_eq_take.1 starts]

/-- A copy that runs out of the array. -/
theorem memcpy_outside {offset count : Nat} (src : Nat → Option α) (dst : Vector α n) (some : 0 < count)
    (outside : n < offset + count) : memcpy dst offset src count = none := by
  have last : count - 1 ∈ List.range count := List.mem_range.2 (Nat.sub_lt some Nat.one_pos)
  apply fill_outside last
  omega

/-- One entry behind what the array starts with. -/
theorem checkedSet_behind {p : List α} {X : Vector α n} (starts : p <+: X.toList) (room : p.length < n) (x : α) :
    ∃ Y, checkedSet X p.length x = some Y ∧ p ++ [x] <+: Y.toList := by
  refine ⟨X.set p.length x, dif_pos room, ?_⟩
  rw [List.prefix_iff_eq_take] at starts
  have before : (X.set p.length x).toList.take p.length = p := by
    rw [Vector.toList_set, List.take_set_of_le (Nat.le_refl _), ← starts]
  rw [List.prefix_iff_eq_take, List.length_append, List.length_singleton,
    List.take_succ_eq_append_getElem (by simpa using room), before]
  simp

/-- Moving to the front what stands behind `p`. -/
theorem memcpy_front {p l : List α} {X : Vector α n} (starts : p ++ l <+: X.toList) :
    ∃ Y, memcpy X 0 (fun k => X[p.length + k]?) l.length = some Y ∧ l <+: Y.toList := by
  have inside := starts.length_le
  rw [List.length_append, Vector.length_toList] at inside
  refine memcpy_behind (p := []) _ List.nil_prefix (by rw [List.length_nil]; omega) ?_
  intro k lt
  have here := starts.getElem (i := p.length + k) (by rw [List.length_append]; omega)
  rw [List.getElem_append_right (Nat.le_add_right _ _), Vector.getElem_toList] at here
  rw [Vector.getElem?_eq_getElem (by omega), ← here]
  simp only [Nat.add_sub_cancel_left]

/-- `count` entries from `offset`. -/
def readBlock (X : Vector α n) (offset count : Nat) : Option (List α) :=
  (List.range count).mapM fun k => X[offset + k]?

theorem readBlock_front {l : List α} {X : Vector α n} (starts : l <+: X.toList) :
    readBlock X 0 l.length = some l := by
  have inside := starts.length_le
  rw [Vector.length_toList] at inside
  have part : ∀ count ≤ l.length, readBlock X 0 count = some (l.take count) := by
    intro count
    induction count with
    | zero => intro _; rfl
    | succ count ih =>
      intro lt
      have here := starts.getElem lt
      rw [Vector.getElem_toList] at here
      have last : X[count]? = some l[count] := by rw [Vector.getElem?_eq_getElem (by omega), here]
      have before := ih (Nat.le_of_succ_le lt)
      rw [readBlock] at before ⊢
      rw [List.range_succ, List.mapM_append, before]
      simp [last]
  rw [part l.length (Nat.le_refl _), List.take_length]

end MiniHardware.Lib
