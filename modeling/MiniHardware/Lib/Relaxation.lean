import Mathlib.Algebra.Order.Monoid.Unbundled.Basic
import Mathlib.Algebra.Order.Monoid.Defs
import Mathlib.Algebra.BigOperators.Group.List.Basic
import Mathlib.Data.Fintype.Card
import Mathlib.Data.Fintype.List
import Mathlib.Order.Bounds.Basic
import Mathlib.Tactic.Common

/-!
# Longest paths by relaxation

A pass goes over the edges and raises the value at the end of an edge where the
value at its start and the length of the edge are more; passes are made until
one changes nothing. Started from values of walks, in a graph without cycles,
this ends with the greatest value a walk brings to each vertex (`relax_greatest`).
-/

namespace MiniHardware.Lib

section Walks

variable {V ε : Type*} (src dst : ε → V)

/-- The edges lead from one vertex to the other. -/
def Walk : V → List ε → V → Prop
  | u, [], v => u = v
  | u, e :: l, v => src e = u ∧ Walk (dst e) l v

/-- No walk over the edges returns to its start. -/
def Acyclic (edges : List ε) : Prop :=
  ∀ u l, l ⊆ edges → Walk src dst u l u → l = []

variable {src dst}

@[simp] theorem walk_nil {u v : V} : Walk src dst u [] v ↔ u = v := Iff.rfl

@[simp] theorem walk_cons {u v : V} {e : ε} {l : List ε} :
    Walk src dst u (e :: l) v ↔ src e = u ∧ Walk src dst (dst e) l v := Iff.rfl

theorem walk_append {u w : V} {l l' : List ε} :
    Walk src dst u (l ++ l') w ↔ ∃ v, Walk src dst u l v ∧ Walk src dst v l' w := by
  induction l generalizing u with
  | nil => simp
  | cons e l ih => simp [ih, and_assoc]

theorem walk_concat {u w : V} {l : List ε} {e : ε} :
    Walk src dst u (l ++ [e]) w ↔ Walk src dst u l (src e) ∧ dst e = w := by
  rw [walk_append]
  constructor
  · rintro ⟨v, walk, rfl, last⟩
    exact ⟨walk, last⟩
  · rintro ⟨walk, last⟩
    exact ⟨_, walk, rfl, last⟩

/-- Backwards over the reversed edges. -/
theorem walk_reverse {u v : V} {l : List ε} :
    Walk dst src u l.reverse v ↔ Walk src dst v l u := by
  induction l generalizing v with
  | nil => exact eq_comm
  | cons e l ih => rw [List.reverse_cons, walk_concat, ih, walk_cons, and_comm]

theorem Acyclic.reverse {edges : List ε} (acyclic : Acyclic src dst edges) : Acyclic dst src edges := by
  intro u l sub walk
  rw [← List.reverse_eq_nil_iff]
  refine acyclic u _ (fun e mem => sub (List.mem_reverse.1 mem)) ?_
  rwa [← walk_reverse, List.reverse_reverse]

theorem Acyclic.of_subset {edges edges' : List ε} (acyclic : Acyclic src dst edges') (sub : edges ⊆ edges') :
    Acyclic src dst edges :=
  fun u l subset => acyclic u l fun _ mem => sub (subset mem)

/-- Edges that all lead up close no walk. -/
theorem acyclic_of_rank {edges : List ε} (rank : V → Nat) (up : ∀ e ∈ edges, rank (src e) < rank (dst e)) :
    Acyclic src dst edges := by
  have climb : ∀ l u v, l ⊆ edges → Walk src dst u l v → rank u + l.length ≤ rank v := by
    intro l
    induction l with
    | nil =>
      rintro u v - rfl
      simp
    | cons e l ih =>
      intro u v sub walk
      rw [List.cons_subset] at sub
      have := ih (dst e) v sub.2 walk.2
      have := up e sub.1
      rw [walk.1] at this
      simp only [List.length_cons]
      omega
  intro u l sub walk
  have := climb l u u sub walk
  exact List.length_eq_zero_iff.1 (by omega)

/-- A walk over edges out of a set that ends in the set starts there. -/
theorem walk_start_mem {D : Set V} {edges l : List ε} (inside : ∀ e ∈ edges, src e ∈ D) {u v : V}
    (sub : l ⊆ edges) (walk : Walk src dst u l v) (mem : v ∈ D) : u ∈ D := by
  cases l with
  | nil =>
    obtain rfl : u = v := walk
    exact mem
  | cons e l =>
    rw [← walk.1]
    exact inside e (sub List.mem_cons_self)

/-- A walk does not return to a vertex. -/
theorem Acyclic.nodup {edges : List ε} (acyclic : Acyclic src dst edges) {u v : V} {l : List ε}
    (sub : l ⊆ edges) (walk : Walk src dst u l v) : (u :: l.map dst).Nodup := by
  induction l generalizing u with
  | nil => simp
  | cons e l ih =>
    refine List.nodup_cons.2 ⟨fun back => ?_, ih (fun x mem => sub (List.mem_cons_of_mem e mem)) walk.2⟩
    obtain ⟨x, mem, rfl⟩ := List.mem_map.1 back
    obtain ⟨before, after, split⟩ := List.append_of_mem mem
    rw [split, List.append_cons] at walk
    obtain ⟨w, loop, -⟩ := walk_append.1 walk
    have returns : Walk src dst (dst x) (before ++ [x]) (dst x) :=
      walk_concat.2 ⟨(walk_concat.1 loop).1, rfl⟩
    have sub' : before ++ [x] ⊆ edges := by
      intro y hy
      refine sub (split ▸ ?_)
      rw [List.append_cons]
      exact List.mem_append_left after hy
    simpa using acyclic _ _ sub' returns

theorem Acyclic.length_lt [Fintype V] {edges : List ε} (acyclic : Acyclic src dst edges) {u v : V}
    {l : List ε} (sub : l ⊆ edges) (walk : Walk src dst u l v) : l.length < Fintype.card V := by
  have le := (acyclic.nodup sub walk).length_le_card
  rw [List.length_cons, List.length_map] at le
  exact le

end Walks

/-! ## The loop -/

section Loop

variable {σ ε : Type*} (body : σ × Bool → ε → σ × Bool) (edges : List ε)

/-- Passes until nothing changes, `none` if there is no more fuel. -/
def relaxLoop : Nat → σ → Option σ
  | 0, _ => none
  | fuel + 1, s =>
    match edges.foldl body (s, false) with
    | (s', true) => relaxLoop fuel s'
    | (s', false) => some s'

variable {body edges}

/-- What the rounds keep. -/
theorem relaxLoop_kept {P : σ → Prop} (kept : ∀ r e, P r.1 → P (body r e).1) {fuel : Nat} {s s' : σ}
    (run : relaxLoop body edges fuel s = some s') (start : P s) : P s' := by
  have pass : ∀ (l : List ε) r, P r.1 → P (l.foldl body r).1 := by
    intro l
    induction l with
    | nil => exact fun _ h => h
    | cons e l ih => exact fun r h => ih _ (kept r e h)
  induction fuel generalizing s with
  | zero => cases run
  | succ fuel ih =>
    rw [relaxLoop] at run
    have first := pass edges (s, false) start
    split at run
    · rename_i s₁ eq
      rw [eq] at first
      exact ih run first
    · rename_i s₁ eq
      rw [eq] at first
      cases run
      exact first

end Loop

/-- A body that raises the value at the end of an edge. `val` reads the values in a state. -/
structure Relaxation (σ ε V α : Type*) [DecidableEq V] [Add α] [LT α] where
  val : σ → V → α
  src : ε → V
  dst : ε → V
  len : ε → α
  body : σ × Bool → ε → σ × Bool
  raise : ∀ s changed e, val s (dst e) < val s (src e) + len e → ∃ s', body (s, changed) e = (s', true) ∧
    val s' = Function.update (val s) (dst e) (val s (src e) + len e)
  keep : ∀ s changed e, ¬ val s (dst e) < val s (src e) + len e → body (s, changed) e = (s, changed)

namespace Relaxation

variable {σ ε V α : Type*} [DecidableEq V] [AddCommGroup α] [LinearOrder α] (R : Relaxation σ ε V α)
  {edges : List ε} {base : V → α}

/-- No edge raises a value. -/
def Settled (edges : List ε) (s : σ) : Prop :=
  ∀ e ∈ edges, R.val s (R.src e) + R.len e ≤ R.val s (R.dst e)

/-- What the walks bring to a vertex. -/
def walkValues (edges : List ε) (base : V → α) (v : V) : Set α :=
  {x | ∃ u l, l ⊆ edges ∧ Walk R.src R.dst u l v ∧ x = base u + (l.map R.len).sum}

/-- Every value is that of a walk to its vertex. -/
def Attained (edges : List ε) (base : V → α) (s : σ) : Prop :=
  ∀ v, R.val s v ∈ R.walkValues edges base v

/-- No walk of at most `k` edges brings more than the value. -/
def Above (edges : List ε) (base : V → α) (k : Nat) (s : σ) : Prop :=
  ∀ u l v, l ⊆ edges → Walk R.src R.dst u l v → l.length ≤ k → base u + (l.map R.len).sum ≤ R.val s v

variable {R}

/-- One round. -/
theorem body_spec (s : σ) (changed : Bool) (e : ε) :
    (∀ v, R.val s v ≤ R.val (R.body (s, changed) e).1 v) ∧
      R.val s (R.src e) + R.len e ≤ R.val (R.body (s, changed) e).1 (R.dst e) ∧
      ((R.body (s, changed) e).2 = true ∨
        R.body (s, changed) e = (s, changed) ∧ R.val s (R.src e) + R.len e ≤ R.val s (R.dst e)) := by
  by_cases less : R.val s (R.dst e) < R.val s (R.src e) + R.len e
  · obtain ⟨s', eq, val⟩ := R.raise s changed e less
    refine ⟨fun v => ?_, ?_, .inl ?_⟩
    · by_cases h : v = R.dst e
      · subst h
        simp [eq, val, less.le]
      · simp [eq, val, h]
    · simp [eq, val]
    · simp [eq]
  · have eq := R.keep s changed e less
    have le := le_of_not_gt less
    exact ⟨fun v => by rw [eq], by rwa [eq], .inr ⟨eq, le⟩⟩

theorem body_attained {s : σ} (changed : Bool) {e : ε} (mem : e ∈ edges) (att : R.Attained edges base s) :
    R.Attained edges base (R.body (s, changed) e).1 := by
  by_cases less : R.val s (R.dst e) < R.val s (R.src e) + R.len e
  · obtain ⟨s', eq, val⟩ := R.raise s changed e less
    intro v
    by_cases h : v = R.dst e
    · subst h
      obtain ⟨u, l, sub, walk, value⟩ := att (R.src e)
      refine ⟨u, l ++ [e], ?_, walk_concat.2 ⟨walk, rfl⟩, ?_⟩
      · simp [sub, mem]
      · simp [eq, val, value, add_assoc]
    · simpa [eq, val, h] using att v
  · rw [R.keep s changed e less]
    exact att

theorem pass_attained {l : List ε} (sub : l ⊆ edges) {s : σ} (changed : Bool)
    (att : R.Attained edges base s) : R.Attained edges base (l.foldl R.body (s, changed)).1 := by
  induction l generalizing s changed with
  | nil => exact att
  | cons e l ih =>
    rw [List.cons_subset] at sub
    exact ih sub.2 _ (body_attained changed sub.1 att)

/-- Over settled values a pass changes nothing. -/
theorem pass_settled {l : List ε} {s : σ} (changed : Bool) (settled : R.Settled l s) :
    l.foldl R.body (s, changed) = (s, changed) := by
  induction l with
  | nil => rfl
  | cons e l ih =>
    rw [List.foldl_cons, R.keep s changed e (settled e List.mem_cons_self).not_gt]
    exact ih fun x mem => settled x (List.mem_cons_of_mem e mem)

theorem above_zero {s : σ} (start : ∀ v, base v ≤ R.val s v) : R.Above edges base 0 s := by
  intro u l v sub walk length
  obtain rfl := List.length_eq_zero_iff.1 (Nat.le_zero.1 length)
  obtain rfl : u = v := walk
  simpa using start u

/-- When the values are above the walks of every length, no edge raises one. -/
theorem settled_of_above [Fintype V] (acyclic : Acyclic R.src R.dst edges) {k : Nat} {s : σ}
    (att : R.Attained edges base s) (above : R.Above edges base k s) (enough : Fintype.card V ≤ k) :
    R.Settled edges s := by
  intro e mem
  obtain ⟨u, l, sub, walk, value⟩ := att (R.src e)
  have sub' : l ++ [e] ⊆ edges := by simp [sub, mem]
  have walk' : Walk R.src R.dst u (l ++ [e]) (R.dst e) := walk_concat.2 ⟨walk, rfl⟩
  have le := above u _ _ sub' walk' ((acyclic.length_lt sub' walk').le.trans enough)
  simpa [value, add_assoc] using le

variable [IsOrderedAddMonoid α]

/-- A pass raises the values, carries every edge, and reports whether it found them settled. -/
theorem pass_spec (l : List ε) (s : σ) (changed : Bool) :
    (∀ v, R.val s v ≤ R.val (l.foldl R.body (s, changed)).1 v) ∧
      (∀ e ∈ l, R.val s (R.src e) + R.len e ≤ R.val (l.foldl R.body (s, changed)).1 (R.dst e)) ∧
      ((l.foldl R.body (s, changed)).2 = true ∨ l.foldl R.body (s, changed) = (s, changed) ∧ R.Settled l s) := by
  induction l generalizing s changed with
  | nil => exact ⟨fun v => le_rfl, by simp, .inr ⟨rfl, by simp [Settled]⟩⟩
  | cons e l ih =>
    obtain ⟨up, carry, report⟩ := body_spec (R := R) s changed e
    obtain ⟨up', carry', report'⟩ := ih (R.body (s, changed) e).1 (R.body (s, changed) e).2
    rw [List.foldl_cons]
    refine ⟨fun v => (up v).trans (up' v), ?_, ?_⟩
    · intro x mem
      rcases List.mem_cons.1 mem with rfl | mem
      · exact carry.trans (up' _)
      · exact (add_le_add_left (up _) _).trans (carry' x mem)
    · rcases report' with flag | ⟨eq, settled⟩
      · exact .inl flag
      · rcases report with flag | ⟨same, here⟩
        · exact .inl ((congrArg Prod.snd eq).trans flag)
        · rw [same] at eq settled ⊢
          exact .inr ⟨eq, List.forall_mem_cons.2 ⟨here, settled⟩⟩

/-- A pass reaches one edge further. -/
theorem pass_above {k : Nat} {s : σ} (above : R.Above edges base k s) :
    R.Above edges base (k + 1) (edges.foldl R.body (s, false)).1 := by
  obtain ⟨up, carry, -⟩ := pass_spec (R := R) edges s false
  intro u l v sub walk length
  rcases List.eq_nil_or_concat l with rfl | ⟨l, e, rfl⟩
  · exact (above u [] v sub walk (Nat.zero_le k)).trans (up v)
  · rw [List.concat_eq_append] at sub walk length ⊢
    obtain ⟨init, rfl⟩ := walk_concat.1 walk
    rw [List.append_subset] at sub
    have before := above u l _ sub.1 init (by simpa using length)
    calc
      base u + ((l ++ [e]).map R.len).sum = base u + (l.map R.len).sum + R.len e := by
        simp [add_assoc]
      _ ≤ R.val s (R.src e) + R.len e := add_le_add_left before _
      _ ≤ _ := carry e (by simpa using sub.2)

/-- Settled values are above every walk. -/
theorem above_of_settled {s : σ} (start : ∀ v, base v ≤ R.val s v) (settled : R.Settled edges s) (k : Nat) :
    R.Above edges base k s := by
  induction k with
  | zero => exact above_zero start
  | succ k ih =>
    have next := pass_above ih
    rwa [pass_settled false settled] at next

/-- Relaxation ends, with the greatest value of a walk at every vertex. -/
theorem relax_greatest [Fintype V] (acyclic : Acyclic R.src R.dst edges) {s : σ}
    (att : R.Attained edges base s) (start : ∀ v, base v ≤ R.val s v) {fuel : Nat}
    (enough : Fintype.card V < fuel) :
    ∃ s', relaxLoop R.body edges fuel s = some s' ∧
      ∀ v, IsGreatest (R.walkValues edges base v) (R.val s' v) := by
  -- after `k` passes the values are above the walks of at most `k` edges
  have rounds : ∀ fuel k s, Fintype.card V < fuel + k → k ≤ Fintype.card V → R.Attained edges base s →
      (∀ v, base v ≤ R.val s v) → R.Above edges base k s → ∃ s', relaxLoop R.body edges fuel s = some s' ∧
        R.Attained edges base s' ∧ (∀ v, base v ≤ R.val s' v) ∧ R.Settled edges s' := by
    intro fuel
    induction fuel with
    | zero => intro k s enough le; omega
    | succ fuel ih =>
      intro k s enough le att start above
      obtain ⟨up, -, report⟩ := pass_spec (R := R) edges s false
      have att' := pass_attained (List.Subset.refl edges) false att
      have above' := pass_above above
      rw [relaxLoop]
      split
      · rename_i s' eq
        rw [eq] at up att' above'
        refine ih (k + 1) s' (by omega) ?_ att' (fun v => (start v).trans (up v)) above'
        by_contra full
        have settled := settled_of_above acyclic att above (by omega)
        rw [pass_settled false settled] at eq
        cases eq
      · rename_i s' eq
        rw [eq] at report
        rcases report with flag | ⟨same, settled⟩
        · cases flag
        · cases same
          exact ⟨s, rfl, att, start, settled⟩
  obtain ⟨s', run, att', start', settled⟩ :=
    rounds fuel 0 s enough (Nat.zero_le _) att start (above_zero start)
  refine ⟨s', run, fun v => ⟨att' v, ?_⟩⟩
  rintro x ⟨u, l, sub, walk, rfl⟩
  exact above_of_settled start' settled l.length u l v sub walk le_rfl

variable (R base) in
/-- **Relaxation ends with the longest walks**, at the vertices of a set the edges start in; what
the others hold does not matter. -/
theorem relax_greatest_on [Fintype V] {D : Set V} [DecidablePred (· ∈ D)]
    (inside : ∀ e ∈ edges, R.src e ∈ D) (acyclic : Acyclic R.src R.dst edges) {s : σ}
    (att : ∀ v ∈ D, R.val s v ∈ R.walkValues edges base v)
    (start : ∀ v ∈ D, base v ≤ R.val s v) {fuel : Nat} (enough : Fintype.card V < fuel) :
    ∃ s', relaxLoop R.body edges fuel s = some s' ∧
      ∀ v ∈ D, IsGreatest (R.walkValues edges base v) (R.val s' v) := by
  let base' : V → α := fun v => if v ∈ D then base v else R.val s v
  have same : ∀ v ∈ D, base' v = base v := fun v mem => if_pos mem
  have att' : R.Attained edges base' s := by
    intro v
    by_cases mem : v ∈ D
    · obtain ⟨u, l, sub, walk, value⟩ := att v mem
      refine ⟨u, l, sub, walk, ?_⟩
      rw [value, same u (walk_start_mem inside sub walk mem)]
    · exact ⟨v, [], by simp, rfl, by simp [base', mem]⟩
  have start' : ∀ v, base' v ≤ R.val s v := by
    intro v
    by_cases mem : v ∈ D
    · simpa [base', mem] using start v mem
    · simp [base', mem]
  obtain ⟨s', run, greatest⟩ := relax_greatest acyclic att' start' enough
  refine ⟨s', run, fun v mem => ?_⟩
  convert greatest v using 1
  refine Set.ext fun x => exists_congr fun u => exists_congr fun l => ?_
  refine and_congr_right fun sub => and_congr_right fun walk => ?_
  rw [same u (walk_start_mem inside sub walk mem)]

end Relaxation

end MiniHardware.Lib
