import Mathlib.Data.Nat.Dist
import MiniHardware.Lib.Index
import MiniHardware.Lib.Routes

/-!
# Routing (`mini-computer-arch/src/interconnect.c`)

`intcn_route` writes the nodes of a route and returns its hops. A mesh route goes along the row and
then along the column, a ring route the shorter way round; both are shortest paths
(`intcn_route_shortest`). The entries of the path array that are written are a list here, and
`*path_len` is its length.
-/

namespace MiniHardware.Arch
open Lib

abbrev interconnectMaxNodes : Nat := 64

inductive Topology where
  | bus | crossbar | mesh | ring | tree
deriving DecidableEq

/-- The fields the routing reads. -/
structure Interconnect where
  topology : Topology
  nodeCount : UInt32
  meshWidth : UInt32

/-- The hops returned and the path written. -/
structure Route where
  hops : UInt32
  path : List UInt32
deriving DecidableEq

/-- `path[(*path_len)++] = node; hops++`. -/
def Route.push (r : Route) (node : UInt32) : Route := ⟨r.hops + 1, r.path ++ [node]⟩

/-- What the routes of a bus, a crossbar and a tree have in common. -/
def directRoute (src dst : UInt32) : Route := ⟨1, if src ≠ dst then [src, dst] else [src]⟩

def busRoute (src dst : UInt32) : Route := directRoute src dst

def crossbarRoute (src dst : UInt32) : Route := directRoute src dst

def treeRoute (src dst : UInt32) : Route := directRoute src dst

/-- `cx += (dx > cx) ? 1 : -1`. -/
def step (target c : UInt32) : UInt32 := c + if target > c then 1 else -1

theorem step_spec {target c : UInt32} (ne : c ≠ target) :
    (c.toNat < target.toNat ∧ (step target c).toNat = c.toNat + 1) ∨
      target.toNat < c.toNat ∧ (step target c).toNat + 1 = c.toNat := by
  have ne' : c.toNat ≠ target.toNat := fun eq => ne (UInt32.toNat_inj.1 eq)
  have bound := target.toNat_lt
  rw [step]
  split
  · rename_i up
    rw [gt_iff_lt, UInt32.lt_iff_toNat_lt] at up
    have one : (1 : UInt32).toNat = 1 := rfl
    rw [UInt32.toNat_add, one, Nat.mod_eq_of_lt (by omega)]
    exact .inl ⟨up, rfl⟩
  · rename_i down
    rw [gt_iff_lt, UInt32.lt_iff_toNat_lt] at down
    have minus : (-1 : UInt32).toNat = 2 ^ 32 - 1 := rfl
    have bound' := c.toNat_lt
    rw [UInt32.toNat_add, minus]
    omega

/-- The two loops of `mesh_route`: `node` is the entry written for a coordinate. -/
def stepTo (node : UInt32 → UInt32) (target c : UInt32) (r : Route) : Route :=
  if _h : c ≠ target then stepTo node target (step target c) (r.push (node (step target c)))
  else r
termination_by Nat.dist c.toNat target.toNat
decreasing_by
  have next := step_spec _h
  rw [Nat.dist, Nat.dist]
  omega

def meshRoute (icn : Interconnect) (src dst : UInt32) : Route :=
  let w := icn.meshWidth
  if src ≥ w * w ∨ dst ≥ w * w then ⟨1, [src]⟩
  else
    let sx := src % w
    let sy := src / w
    let dx := dst % w
    let dy := dst / w
    let r : Route := ⟨0, [sy * w + sx]⟩
    let r := stepTo (fun cx => sy * w + cx) dx sx r
    stepTo (fun cy => cy * w + dx) dy sy r

/-- The two loops of `ring_route`, with `i` from 1 to the distance. -/
def ringLoop (node : UInt32 → UInt32) (dist : UInt32) (r : Route) : Route :=
  (List.range dist.toNat).foldl (fun r i => r.push (node (UInt32.ofNat (i + 1)))) r

def ringRoute (icn : Interconnect) (src dst : UInt32) : Route :=
  let n := icn.nodeCount
  if n = 0 then ⟨0, []⟩
  else
    let forwardDist := if dst ≥ src then dst - src else n - src + dst
    let backwardDist := if src ≥ dst then src - dst else src + n - dst
    if forwardDist ≤ backwardDist then ringLoop (fun i => (src + i) % n) forwardDist ⟨0, [src]⟩
    else ringLoop (fun i => (src + n - i) % n) backwardDist ⟨0, [src]⟩

def intcnRoute (icn : Interconnect) (src dst : UInt32) : Route :=
  if src.toNat ≥ interconnectMaxNodes ∨ dst.toNat ≥ interconnectMaxNodes then ⟨0, []⟩
  else
    match icn.topology with
    | .bus => busRoute src dst
    | .crossbar => crossbarRoute src dst
    | .mesh => meshRoute icn src dst
    | .ring => ringRoute icn src dst
    | .tree => treeRoute src dst

/-! ## The networks -/

/-- Node `a` stands at column `a % w` of row `a / w`; links join nodes next to each other. -/
def meshGraph (w : ℕ) : SimpleGraph ℕ where
  Adj a b := a < w * w ∧ b < w * w ∧ Nat.dist (a % w) (b % w) + Nat.dist (a / w) (b / w) = 1
  symm := ⟨by
    intro a b adj
    rw [Nat.dist_comm (b % w), Nat.dist_comm (b / w)]
    exact ⟨adj.2.1, adj.1, adj.2.2⟩⟩
  loopless := ⟨by
    intro a adj
    have sum := adj.2.2
    rw [Nat.dist_self, Nat.dist_self] at sum
    cases sum⟩

/-- A node is linked to the next one, the last to the first. -/
def ringGraph (n : ℕ) : SimpleGraph ℕ where
  Adj a b := a < n ∧ b < n ∧ a ≠ b ∧ ((a + 1) % n = b ∨ (b + 1) % n = a)
  symm := ⟨fun _ _ adj => ⟨adj.2.1, adj.1, adj.2.2.1.symm, adj.2.2.2.symm⟩⟩
  loopless := ⟨fun _ adj => adj.2.2.1 rfl⟩

/-! ## A route under way -/

/-- The path written so far comes down to node `c`, and the hops count its steps. -/
structure Underway (G : SimpleGraph ℕ) (f : ℕ → ℕ) (s c : ℕ) (r : Route) : Prop where
  descends : Descends G f s c (r.path.map UInt32.toNat)
  counted : r.path.length = r.hops.toNat + 1

/-- What is promised of a route. -/
structure Routed (G : SimpleGraph ℕ) (src dst : UInt32) (r : Route) : Prop where
  route : ShortestRoute G src.toNat dst.toNat (r.path.map UInt32.toNat)
  hops : r.hops.toNat = G.dist src.toNat dst.toNat
  entries : r.path.length = r.hops.toNat + 1

section Routes
variable {G : SimpleGraph ℕ} {f : ℕ → ℕ} {s c : ℕ} {r : Route}

theorem Underway.start (G : SimpleGraph ℕ) (f : ℕ → ℕ) (node : UInt32) :
    Underway G f node.toNat node.toNat ⟨0, [node]⟩ :=
  ⟨Descends.start G f node.toNat, rfl⟩

theorem Underway.push (way : Underway G f s c r) (small : f s < 2 ^ 32) {node : UInt32}
    (adj : G.Adj c node.toNat) (falls : f c = f node.toNat + 1) : Underway G f s node.toNat (r.push node) := by
  constructor
  · rw [Route.push, List.map_append]
    exact way.descends.push adj falls
  · have spent := way.descends.spent
    have counted := way.counted
    have one : (1 : UInt32).toNat = 1 := rfl
    rw [List.length_map] at spent
    rw [Route.push, List.length_append, List.length_singleton, UInt32.toNat_add, one, Nat.mod_eq_of_lt (by omega),
      counted]

theorem Underway.routed {src dst : UInt32} (way : Underway G f src.toNat dst.toNat r) (zero : f dst.toNat = 0)
    (lipschitz : ∀ a b, G.Adj a b → f a ≤ f b + 1) : Routed G src dst r := by
  obtain ⟨route, dist⟩ := way.descends.shortest zero lipschitz
  refine ⟨route, ?_, way.counted⟩
  have spent := way.descends.spent
  have counted := way.counted
  rw [List.length_map] at spent
  omega

/-- A loop of `mesh_route`, when each of its steps is a link and comes closer. -/
theorem Underway.stepTo (node : UInt32 → UInt32) (target : UInt32) {c : UInt32} (inside : UInt32 → Prop)
    (small : f s < 2 ^ 32) (way : Underway G f s (node c).toNat r) (here : inside c)
    (link : ∀ c, inside c → c ≠ target → inside (step target c) ∧
      G.Adj (node c).toNat (node (step target c)).toNat ∧
      f (node c).toNat = f (node (step target c)).toNat + 1) :
    Underway G f s (node target).toNat (stepTo node target c r) := by
  fun_induction Arch.stepTo node target c r with
  | case1 c r ne ih =>
    obtain ⟨next, adj, falls⟩ := link c here ne
    exact ih (way.push small adj falls) next
  | case2 c r done =>
    rw [not_not.1 done] at way
    exact way

/-- A loop of `ring_route`. -/
theorem Underway.ringLoop (node : UInt32 → UInt32) (dist : UInt32) (small : f s < 2 ^ 32)
    (way : Underway G f s (node 0).toNat r)
    (link : ∀ i < dist.toNat, G.Adj (node (UInt32.ofNat i)).toNat (node (UInt32.ofNat (i + 1))).toNat ∧
      f (node (UInt32.ofNat i)).toNat = f (node (UInt32.ofNat (i + 1))).toNat + 1) :
    Underway G f s (node dist).toNat (ringLoop node dist r) := by
  have run (n : ℕ) (le : n ≤ dist.toNat) : Underway G f s (node (UInt32.ofNat n)).toNat
      ((List.range n).foldl (fun r i => r.push (node (UInt32.ofNat (i + 1)))) r) := by
    induction n with
    | zero => exact way
    | succ n ih =>
      obtain ⟨adj, falls⟩ := link n le
      rw [List.range_succ, List.foldl_append]
      exact (ih (Nat.le_of_succ_le le)).push small adj falls
  have last := run dist.toNat le_rfl
  rw [UInt32.ofNat_toNat] at last
  exact last

end Routes

/-! ## The mesh -/

/-- The steps between two nodes of a mesh. -/
def meshDistance (w d n : ℕ) : ℕ := Nat.dist (n % w) (d % w) + Nat.dist (n / w) (d / w)

theorem mesh_distance_lipschitz (w d : ℕ) (a b : ℕ) (adj : (meshGraph w).Adj a b) :
    meshDistance w d a ≤ meshDistance w d b + 1 := by
  have link := adj.2.2
  have columns := Nat.dist.triangle_inequality (a % w) (b % w) (d % w)
  have rows := Nat.dist.triangle_inequality (a / w) (b / w) (d / w)
  rw [meshDistance, meshDistance]
  omega

/-- The entry of the path for a row and a column. -/
theorem mesh_node {w y x : UInt32} (fits : w.toNat * w.toNat < 2 ^ 32) (hy : y.toNat < w.toNat)
    (hx : x.toNat < w.toNat) :
    (y * w + x).toNat < w.toNat * w.toNat ∧ (y * w + x).toNat % w.toNat = x.toNat ∧
      (y * w + x).toNat / w.toNat = y.toNat := by
  have inside : y.toNat * w.toNat + x.toNat < w.toNat * w.toNat :=
    calc y.toNat * w.toNat + x.toNat < (y.toNat + 1) * w.toNat := by rw [Nat.succ_mul]; omega
      _ ≤ w.toNat * w.toNat := Nat.mul_le_mul_right _ hy
  have value : (y * w + x).toNat = y.toNat * w.toNat + x.toNat := by
    rw [UInt32.toNat_add, UInt32.toNat_mul, Nat.mod_eq_of_lt (a := y.toNat * w.toNat) (by omega),
      Nat.mod_eq_of_lt (by omega)]
  have pos : 0 < w.toNat := by omega
  refine ⟨value ▸ inside, ?_, ?_⟩
  · rw [value, Nat.mul_add_mod', Nat.mod_eq_of_lt hx]
  · rw [value, Nat.mul_comm, Nat.mul_add_div pos, Nat.div_eq_of_lt hx, Nat.add_zero]

/-- A step of a loop is a link, and comes closer. -/
theorem mesh_link {w y x y' x' : UInt32} (fits : w.toNat * w.toNat < 2 ^ 32) (hy : y.toNat < w.toNat)
    (hx : x.toNat < w.toNat) (hy' : y'.toNat < w.toNat) (hx' : x'.toNat < w.toNat) (d : ℕ)
    (move : Nat.dist x.toNat x'.toNat + Nat.dist y.toNat y'.toNat = 1)
    (closer : Nat.dist x.toNat (d % w.toNat) + Nat.dist y.toNat (d / w.toNat) =
      Nat.dist x'.toNat (d % w.toNat) + Nat.dist y'.toNat (d / w.toNat) + 1) :
    (meshGraph w.toNat).Adj (y * w + x).toNat (y' * w + x').toNat ∧
      meshDistance w.toNat d (y * w + x).toNat = meshDistance w.toNat d (y' * w + x').toNat + 1 := by
  obtain ⟨lt, modulo, quotient⟩ := mesh_node fits hy hx
  obtain ⟨lt', modulo', quotient'⟩ := mesh_node fits hy' hx'
  refine ⟨⟨lt, lt', ?_⟩, ?_⟩
  · rw [modulo, modulo', quotient, quotient']
    exact move
  · rw [meshDistance, meshDistance, modulo, modulo', quotient, quotient']
    exact closer

theorem mesh_route_shortest {icn : Interconnect} {src dst : UInt32}
    (fits : icn.meshWidth.toNat * icn.meshWidth.toNat < 2 ^ 32)
    (hs : src.toNat < icn.meshWidth.toNat * icn.meshWidth.toNat)
    (hd : dst.toNat < icn.meshWidth.toNat * icn.meshWidth.toNat) :
    Routed (meshGraph icn.meshWidth.toNat) src dst (meshRoute icn src dst) := by
  generalize hw : icn.meshWidth = w at fits hs hd
  have square : (w * w).toNat = w.toNat * w.toNat := by rw [UInt32.toNat_mul, Nat.mod_eq_of_lt fits]
  have pos : 0 < w.toNat := by
    rcases Nat.eq_zero_or_pos w.toNat with zero | pos
    · rw [zero] at hs
      cases hs
    · exact pos
  have inside : ¬ (src ≥ w * w ∨ dst ≥ w * w) := by
    rw [ge_iff_le, ge_iff_le, UInt32.le_iff_toNat_le, UInt32.le_iff_toNat_le, square]
    omega
  have row {n : UInt32} (lt : n.toNat < w.toNat * w.toNat) : (n / w).toNat < w.toNat := by
    rw [UInt32.toNat_div]
    exact Nat.div_lt_of_lt_mul lt
  have col (n : UInt32) : (n % w).toNat < w.toNat := by
    rw [UInt32.toNat_mod]
    exact Nat.mod_lt _ pos
  have split {n : UInt32} (lt : n.toNat < w.toNat * w.toNat) : n / w * w + n % w = n := by
    obtain ⟨-, modulo, quotient⟩ := mesh_node fits (row lt) (col n)
    apply UInt32.toNat_inj.1
    rw [← Nat.div_add_mod (n / w * w + n % w).toNat w.toNat, modulo, quotient, UInt32.toNat_div, UInt32.toNat_mod,
      Nat.div_add_mod]
  have width : w.toNat < 2 ^ 16 := by
    by_contra wide
    have := Nat.mul_le_mul (Nat.not_lt.1 wide) (Nat.not_lt.1 wide)
    omega
  have near {a b : ℕ} (ha : a < w.toNat) (hb : b < w.toNat) : Nat.dist a b < 2 ^ 16 := by
    rw [Nat.dist]
    omega
  have small : meshDistance w.toNat dst.toNat src.toNat < 2 ^ 32 := by
    have columns := near (Nat.mod_lt src.toNat pos) (Nat.mod_lt dst.toNat pos)
    have rows := near (Nat.div_lt_of_lt_mul hs) (Nat.div_lt_of_lt_mul hd)
    exact Nat.lt_trans (Nat.add_lt_add columns rows) (by decide)
  have zero : meshDistance w.toNat dst.toNat dst.toNat = 0 := by
    rw [meshDistance, Nat.dist_self, Nat.dist_self]
  have dx : (dst % w).toNat = dst.toNat % w.toNat := UInt32.toNat_mod dst w
  have dy : (dst / w).toNat = dst.toNat / w.toNat := UInt32.toNat_div dst w
  have next {target c : UInt32} (ht : target.toNat < w.toNat) (hc : c.toNat < w.toNat) (ne : c ≠ target) :
      (step target c).toNat < w.toNat ∧ Nat.dist c.toNat (step target c).toNat = 1 ∧
        Nat.dist c.toNat target.toNat = Nat.dist (step target c).toNat target.toNat + 1 := by
    have moved := step_spec ne
    rw [Nat.dist, Nat.dist, Nat.dist]
    omega
  have start : Underway (meshGraph w.toNat) (meshDistance w.toNat dst.toNat) src.toNat
      (src / w * w + src % w).toNat ⟨0, [src / w * w + src % w]⟩ := by
    have first := Underway.start (meshGraph w.toNat) (meshDistance w.toNat dst.toNat) (src / w * w + src % w)
    rwa [congrArg UInt32.toNat (split hs)] at first ⊢
  -- along the row to the column of `dst`, then along that column
  have corner := Underway.stepTo (fun cx => src / w * w + cx) (dst % w)
    (fun c => c.toNat < w.toNat) small start (col src) (by
      intro c hc ne
      obtain ⟨lt, one, closer⟩ := next (col dst) hc ne
      refine ⟨lt, mesh_link fits (row hs) hc (row hs) lt _ ?_ ?_⟩
      · rw [Nat.dist_self, one]
      · rw [dx] at closer
        omega)
  have last := Underway.stepTo (fun cy => cy * w + dst % w) (dst / w)
    (fun c => c.toNat < w.toNat) small corner (row hs) (by
      intro c hc ne
      obtain ⟨lt, one, closer⟩ := next (row hd) hc ne
      refine ⟨lt, mesh_link fits hc (col dst) lt (col dst) _ ?_ ?_⟩
      · rw [Nat.dist_self, one]
      · rw [dy] at closer
        omega)
  rw [congrArg UInt32.toNat (split hd)] at last
  unfold meshRoute
  rw [hw, if_neg inside]
  exact last.routed zero (mesh_distance_lipschitz w.toNat dst.toNat)

/-! ## The ring -/

/-- The steps between two nodes of a ring, the shorter way. -/
def ringDistance (n d x : ℕ) : ℕ := min (Nat.dist x d) (n - Nat.dist x d)

/-- Half the ring is the furthest: a way of at most that many steps, either way round, is the shorter one. -/
theorem ring_distance_eq {n d x k : ℕ} (hx : x < n) (hd : d < n) (short : 2 * k ≤ n)
    (way : (x + k = d ∨ x + k = n + d) ∨ d + k = x ∨ d + k = n + x) : ringDistance n d x = k := by
  rw [ringDistance, Nat.dist]
  omega

theorem ringGraph_adj {n a b : ℕ} (ha : a < n) (hb : b < n) (ne : a ≠ b) :
    (ringGraph n).Adj a b ↔ a + 1 = b ∨ b + 1 = a ∨ (a + 1 = n ∧ b = 0) ∨ (b + 1 = n ∧ a = 0) := by
  show _ ∧ _ ∧ _ ∧ _ ↔ _
  rw [succ_mod_eq ha, succ_mod_eq hb]
  omega

theorem ring_distance_lipschitz (n d : ℕ) (hd : d < n) (a b : ℕ) (adj : (ringGraph n).Adj a b) :
    ringDistance n d a ≤ ringDistance n d b + 1 := by
  have link := (ringGraph_adj adj.1 adj.2.1 adj.2.2.1).1 adj
  have ha := adj.1
  have hb := adj.2.1
  rw [ringDistance, ringDistance, Nat.dist, Nat.dist]
  rcases link with rfl | rfl | ⟨last, rfl⟩ | ⟨last, rfl⟩
  · omega
  · omega
  · omega
  · omega

/-- The node `i` steps forward. -/
theorem forward_node {n src : UInt32} (few : n.toNat ≤ 64) (hs : src.toNat < n.toNat) {i : ℕ} (hi : i < n.toNat) :
    (src.toNat + i < n.toNat ∧ ((src + UInt32.ofNat i) % n).toNat = src.toNat + i) ∨
      n.toNat ≤ src.toNat + i ∧ ((src + UInt32.ofNat i) % n).toNat + n.toNat = src.toNat + i := by
  rw [UInt32.toNat_mod, UInt32.toNat_add, UInt32.toNat_ofNat_of_lt' (by show i < 2 ^ 32; omega),
    Nat.mod_eq_of_lt (a := src.toNat + i) (by omega)]
  rcases Nat.lt_or_ge (src.toNat + i) n.toNat with inner | wraps
  · exact .inl ⟨inner, Nat.mod_eq_of_lt inner⟩
  · rw [Nat.mod_eq_sub_mod wraps, Nat.mod_eq_of_lt (by omega)]
    omega

/-- The node `i` steps backward. -/
theorem backward_node {n src : UInt32} (few : n.toNat ≤ 64) (hs : src.toNat < n.toNat) {i : ℕ} (hi : i < n.toNat) :
    (i ≤ src.toNat ∧ ((src + n - UInt32.ofNat i) % n).toNat + i = src.toNat) ∨
      src.toNat < i ∧ ((src + n - UInt32.ofNat i) % n).toNat + i = src.toNat + n.toNat := by
  have index : (UInt32.ofNat i).toNat = i := UInt32.toNat_ofNat_of_lt' (by show i < 2 ^ 32; omega)
  have sum : (src + n).toNat = src.toNat + n.toNat := by
    rw [UInt32.toNat_add, Nat.mod_eq_of_lt (by omega)]
  have below : UInt32.ofNat i ≤ src + n := by
    rw [UInt32.le_iff_toNat_le, index, sum]
    omega
  rw [UInt32.toNat_mod, UInt32.toNat_sub_of_le _ _ below, index, sum]
  rcases Nat.lt_or_ge src.toNat i with wraps | inner
  · rw [Nat.mod_eq_of_lt (by omega)]
    omega
  · rw [Nat.mod_eq_sub_mod (by omega), Nat.mod_eq_of_lt (by omega)]
    omega

/-- A loop round the ring, along links, whose nodes are as many steps from `dst` as there are rounds left, at
most half the ring. -/
theorem ring_way {n src dst dist : UInt32} {node : UInt32 → UInt32} (few : n.toNat ≤ 64) (hs : src.toNat < n.toNat)
    (hd : dst.toNat < n.toNat) (short : 2 * dist.toNat ≤ n.toNat) (first : (node 0).toNat = src.toNat)
    (left : ∀ i ≤ dist.toNat, (node (UInt32.ofNat i)).toNat < n.toNat ∧
      (((node (UInt32.ofNat i)).toNat + (dist.toNat - i) = dst.toNat ∨
          (node (UInt32.ofNat i)).toNat + (dist.toNat - i) = n.toNat + dst.toNat) ∨
        dst.toNat + (dist.toNat - i) = (node (UInt32.ofNat i)).toNat ∨
          dst.toNat + (dist.toNat - i) = n.toNat + (node (UInt32.ofNat i)).toNat))
    (link : ∀ i < dist.toNat,
      (ringGraph n.toNat).Adj (node (UInt32.ofNat i)).toNat (node (UInt32.ofNat (i + 1))).toNat) :
    Routed (ringGraph n.toNat) src dst (ringLoop node dist ⟨0, [src]⟩) := by
  have small : ringDistance n.toNat dst.toNat src.toNat < 2 ^ 32 := by
    rw [ringDistance, Nat.dist]
    omega
  have zero : ringDistance n.toNat dst.toNat dst.toNat = 0 := by
    rw [ringDistance, Nat.dist_self, Nat.zero_min]
  have distance (i : ℕ) (le : i ≤ dist.toNat) :
      ringDistance n.toNat dst.toNat (node (UInt32.ofNat i)).toNat = dist.toNat - i := by
    obtain ⟨inside, way⟩ := left i le
    exact ring_distance_eq inside hd (by omega) way
  have last : (node dist).toNat = dst.toNat := by
    have last := left dist.toNat le_rfl
    rw [UInt32.ofNat_toNat] at last
    omega
  have start := Underway.start (ringGraph n.toNat) (ringDistance n.toNat dst.toNat) src
  have way := Underway.ringLoop node dist small (by rw [first]; exact start) fun i lt => by
    refine ⟨link i lt, ?_⟩
    rw [distance i lt.le, distance (i + 1) lt]
    omega
  rw [last] at way
  exact way.routed zero (ring_distance_lipschitz n.toNat dst.toNat hd)

theorem ring_route_shortest {icn : Interconnect} {src dst : UInt32}
    (few : icn.nodeCount.toNat ≤ interconnectMaxNodes) (hs : src.toNat < icn.nodeCount.toNat)
    (hd : dst.toNat < icn.nodeCount.toNat) :
    Routed (ringGraph icn.nodeCount.toNat) src dst (ringRoute icn src dst) := by
  generalize hn : icn.nodeCount = n at few hs hd
  have few : n.toNat ≤ 64 := few
  have nonzero : n ≠ 0 := by
    rintro rfl
    cases hs
  unfold ringRoute
  rw [hn, if_neg nonzero]
  dsimp only
  have forward : (src.toNat ≤ dst.toNat ∧ (if dst ≥ src then dst - src else n - src + dst).toNat + src.toNat = dst.toNat) ∨
      dst.toNat < src.toNat ∧
        (if dst ≥ src then dst - src else n - src + dst).toNat + src.toNat = n.toNat + dst.toNat := by
    split
    · rename_i le
      rw [UInt32.toNat_sub_of_le _ _ le]
      rw [ge_iff_le, UInt32.le_iff_toNat_le] at le
      omega
    · rename_i lt
      rw [ge_iff_le, UInt32.le_iff_toNat_le] at lt
      rw [UInt32.toNat_add, UInt32.toNat_sub_of_le _ _ (UInt32.le_iff_toNat_le.2 hs.le), Nat.mod_eq_of_lt (by omega)]
      omega
  have backward : (dst.toNat ≤ src.toNat ∧ (if src ≥ dst then src - dst else src + n - dst).toNat + dst.toNat = src.toNat) ∨
      src.toNat < dst.toNat ∧
        (if src ≥ dst then src - dst else src + n - dst).toNat + dst.toNat = src.toNat + n.toNat := by
    split
    · rename_i le
      rw [UInt32.toNat_sub_of_le _ _ le]
      rw [ge_iff_le, UInt32.le_iff_toNat_le] at le
      omega
    · rename_i lt
      have sum : (src + n).toNat = src.toNat + n.toNat := by
        rw [UInt32.toNat_add, Nat.mod_eq_of_lt (by omega)]
      rw [ge_iff_le, UInt32.le_iff_toNat_le] at lt
      rw [UInt32.toNat_sub_of_le _ _ (UInt32.le_iff_toNat_le.2 (by omega)), sum]
      omega
  generalize (if dst ≥ src then dst - src else n - src + dst) = forwardDist at forward ⊢
  generalize (if src ≥ dst then src - dst else src + n - dst) = backwardDist at backward ⊢
  split
  · rename_i le
    rw [UInt32.le_iff_toNat_le] at le
    have short : 2 * forwardDist.toNat ≤ n.toNat := by omega
    have node (i : ℕ) (hi : i < n.toNat) := forward_node few hs hi
    apply ring_way few hs hd short
    · have first := node 0 (by omega)
      rw [show UInt32.ofNat 0 = 0 from rfl] at first
      omega
    · intro i le
      have here := node i (by omega)
      omega
    · intro i lt
      have here := node i (by omega)
      have next := node (i + 1) (by omega)
      exact (ringGraph_adj (by omega) (by omega) (by omega)).2 (by omega)
  · rename_i lt
    rw [UInt32.le_iff_toNat_le] at lt
    have short : 2 * backwardDist.toNat ≤ n.toNat := by omega
    have node (i : ℕ) (hi : i < n.toNat) := backward_node few hs hi
    apply ring_way few hs hd short
    · have first := node 0 (by omega)
      rw [show UInt32.ofNat 0 = 0 from rfl] at first
      omega
    · intro i le
      have here := node i (by omega)
      omega
    · intro i lt
      have here := node i (by omega)
      have next := node (i + 1) (by omega)
      exact (ringGraph_adj (by omega) (by omega) (by omega)).2 (by omega)

/-- On a mesh and on a ring, a route is a shortest path and its hops are counted. -/
theorem intcn_route_shortest (icn : Interconnect) (src dst : UInt32) :
    (icn.topology = .mesh → icn.meshWidth.toNat * icn.meshWidth.toNat < 2 ^ 32 →
      src.toNat < icn.meshWidth.toNat * icn.meshWidth.toNat → dst.toNat < icn.meshWidth.toNat * icn.meshWidth.toNat →
      src.toNat < interconnectMaxNodes → dst.toNat < interconnectMaxNodes →
      Routed (meshGraph icn.meshWidth.toNat) src dst (intcnRoute icn src dst)) ∧
    (icn.topology = .ring → icn.nodeCount.toNat ≤ interconnectMaxNodes →
      src.toNat < icn.nodeCount.toNat → dst.toNat < icn.nodeCount.toNat →
      Routed (ringGraph icn.nodeCount.toNat) src dst (intcnRoute icn src dst)) := by
  constructor
  · intro mesh fits hs hd ms md
    rw [intcnRoute, if_neg (by omega), mesh]
    exact mesh_route_shortest fits hs hd
  · intro ring few hs hd
    rw [intcnRoute, if_neg (by omega), ring]
    exact ring_route_shortest few hs hd

theorem intcn_route_shortest_small :
    Routed (meshGraph 4) 1 14 (intcnRoute ⟨.mesh, 16, 4⟩ 1 14) ∧
      Routed (ringGraph 5) 1 4 (intcnRoute ⟨.ring, 5, 4⟩ 1 4) :=
  ⟨(intcn_route_shortest ⟨.mesh, 16, 4⟩ 1 14).1 rfl (by decide) (by decide) (by decide) (by decide) (by decide),
    (intcn_route_shortest ⟨.ring, 5, 4⟩ 1 4).2 rfl (by decide) (by decide) (by decide)⟩

end MiniHardware.Arch
