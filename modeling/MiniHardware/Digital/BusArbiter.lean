import Mathlib.Algebra.GroupWithZero.Nat
import MiniHardware.Lib.RoundRobin

/-!
# The bus arbiter (`mini-digital-circuit/src/bus_arbiter.c`)

Masters request the bus and release it; a call of `bus_arbiter_arbitrate` takes
all grants back and gives one to a master that requests. Round robin starts
behind the master that got the last one.
-/

namespace MiniHardware.Digital
open Lib

inductive ArbiterType where
  | fixedPriority | roundRobin | tdma
deriving DecidableEq

structure BusMaster where
  request : Bool
  grant : Bool
  lastGrantCycle : Int

/-- `num_masters` never changes. The counters are numbers without overflow; no current master
stands for -1. -/
structure BusArbiter (numMasters : Nat) where
  type : ArbiterType
  masters : Fin numMasters → BusMaster
  currentMaster : Option (Fin numMasters)
  tdmaSlot : Nat
  tdmaNumSlots : Nat
  cycle : Int
  starvationCount : Fin numMasters → Int

/-- `BUS_MAX_MASTERS`. -/
def busMaxMasters : Nat := 16

/-- The number of masters that the arbiter is created with. -/
def clampMasters (numMasters : Int) : Nat :=
  let clamped := if numMasters > busMaxMasters then (busMaxMasters : Int) else numMasters
  if clamped < 1 then 1 else clamped.toNat

theorem clampMasters_pos (numMasters : Int) : 0 < clampMasters numMasters := by
  unfold clampMasters
  dsimp only
  generalize (if numMasters > busMaxMasters then (busMaxMasters : Int) else numMasters) = clamped
  split
  · exact Nat.one_pos
  · omega

instance (numMasters : Int) : NeZero (clampMasters numMasters) := ⟨(clampMasters_pos numMasters).ne'⟩

def busArbiterCreate (type : ArbiterType) (numMasters : Int) : BusArbiter (clampMasters numMasters) where
  type := type
  masters := fun _ => ⟨false, false, -1⟩
  currentMaster := none
  tdmaSlot := 0
  tdmaNumSlots := clampMasters numMasters
  cycle := 0
  starvationCount := fun _ => 0

section Model
variable {n : Nat}

/-- The entry of a master, if the number is one. -/
def setMaster (arb : BusArbiter n) (masterId : Int) (change : BusMaster → BusMaster) : BusArbiter n :=
  if h : 0 ≤ masterId ∧ masterId < n then
    let m : Fin n := ⟨masterId.toNat, by omega⟩
    { arb with masters := Function.update arb.masters m (change (arb.masters m)) }
  else arb

def busArbiterRequest (arb : BusArbiter n) (masterId : Int) : BusArbiter n :=
  setMaster arb masterId fun master => { master with request := true }

def busArbiterRelease (arb : BusArbiter n) (masterId : Int) : BusArbiter n :=
  setMaster arb masterId fun master => { master with request := false, grant := false }

def clearGrants (arb : BusArbiter n) : BusArbiter n :=
  { arb with masters := fun m => { arb.masters m with grant := false } }

/-- What the three policies do for the master they choose. -/
def grantTo (arb : BusArbiter n) (m : Fin n) : BusArbiter n :=
  { arb with
    masters := Function.update arb.masters m { arb.masters m with grant := true, lastGrantCycle := arb.cycle }
    currentMaster := some m
    cycle := arb.cycle + 1 }

/-- The masters that still wait. -/
def countStarved (arb : BusArbiter n) (m : Fin n) : BusArbiter n :=
  { arb with starvationCount := fun j =>
      if j ≠ m ∧ (arb.masters j).request = true then arb.starvationCount j + 1 else arb.starvationCount j }

/-- `(current_master + 1) % num_masters`. -/
def startOf [NeZero n] (arb : BusArbiter n) : Fin n :=
  match arb.currentMaster with
  | some m => Ring.behind m 1
  | none => 0

/-- The master granted, `none` when -1 is returned. There are TDMA slots. -/
def busArbiterArbitrate [NeZero n] (arb : BusArbiter n) : Option (Fin n) × BusArbiter n :=
  let arb := clearGrants arb
  let requests m := (arb.masters m).request
  match arb.type with
  | .fixedPriority =>
    match (List.finRange n).find? requests with
    | some m => (some m, grantTo arb m)
    | none => (none, { arb with cycle := arb.cycle + 1 })
  | .roundRobin =>
    match firstFrom (startOf arb) requests with
    | some m => (some m, countStarved (grantTo arb m) m)
    | none => (none, { arb with cycle := arb.cycle + 1 })
  | .tdma =>
    let slot := arb.tdmaSlot % arb.tdmaNumSlots
    if h : slot < n then
      if requests ⟨slot, h⟩ then (some ⟨slot, h⟩, { grantTo arb ⟨slot, h⟩ with tdmaSlot := arb.tdmaSlot + 1 })
      else (none, { arb with tdmaSlot := arb.tdmaSlot + 1, cycle := arb.cycle + 2 })
    else (none, { arb with tdmaSlot := arb.tdmaSlot + 1, cycle := arb.cycle + 2 })

inductive BusOp where
  | request (masterId : Int)
  | release (masterId : Int)
  | arbitrate
deriving DecidableEq

def busStep [NeZero n] (arb : BusArbiter n) : BusOp → BusArbiter n
  | .request masterId => busArbiterRequest arb masterId
  | .release masterId => busArbiterRelease arb masterId
  | .arbitrate => (busArbiterArbitrate arb).2

end Model

/-! ## One call -/

section Call
variable {n : Nat} {arb : BusArbiter n}

theorem setMaster_eq (arb : BusArbiter n) (masterId : Int) (change : BusMaster → BusMaster) :
    ∃ masters, setMaster arb masterId change = { arb with masters := masters } ∧ ∀ m : Fin n,
      masters m = if (m.val : Int) = masterId then change (arb.masters m) else arb.masters m := by
  unfold setMaster
  split
  · rename_i inside
    refine ⟨_, rfl, fun m => ?_⟩
    rw [Function.update_apply]
    have same : m = ⟨masterId.toNat, by omega⟩ ↔ (m.val : Int) = masterId := by
      rw [Fin.ext_iff]
      show m.val = masterId.toNat ↔ _
      omega
    simp only [same]
    split
    · rename_i eq
      rw [← same.2 eq]
    · rfl
  · rename_i outside
    refine ⟨arb.masters, rfl, fun m => (if_neg ?_).symm⟩
    rintro rfl
    exact outside ⟨by omega, by exact_mod_cast m.isLt⟩

/-- A master holds the bus only if it requests it, and no other does then. -/
structure Exclusive (arb : BusArbiter n) : Prop where
  requested : ∀ m, (arb.masters m).grant = true → (arb.masters m).request = true
  single : ∀ i j, (arb.masters i).grant = true → (arb.masters j).grant = true → i = j

theorem Exclusive.setMaster (h : Exclusive arb) (masterId : Int) (change : BusMaster → BusMaster)
    (grants : ∀ master, (change master).grant = true → master.grant = true)
    (requests : ∀ master, (master.grant = true → master.request = true) →
      (change master).grant = true → (change master).request = true) :
    Exclusive (setMaster arb masterId change) := by
  obtain ⟨masters, eq, entry⟩ := setMaster_eq arb masterId change
  have granted : ∀ m, (masters m).grant = true → (arb.masters m).grant = true := by
    intro m grant
    rw [entry] at grant
    split at grant
    · exact grants _ grant
    · exact grant
  rw [eq]
  refine ⟨fun m grant => ?_, fun i j gi gj => h.single i j (granted i gi) (granted j gj)⟩
  dsimp only at grant ⊢
  rw [entry] at grant ⊢
  split
  · rename_i here
    rw [if_pos here] at grant
    exact requests _ (h.requested m) grant
  · rename_i other
    rw [if_neg other] at grant
    exact h.requested m grant

/-- Only the master chosen holds the bus, and requests are not touched. -/
theorem masters_grantTo (arb : BusArbiter n) (m i : Fin n) :
    ((grantTo (clearGrants arb) m).masters i).grant = decide (i = m) ∧
      ((grantTo (clearGrants arb) m).masters i).request = (arb.masters i).request := by
  unfold grantTo
  dsimp only
  rw [Function.update_apply]
  split
  · rename_i eq
    rw [eq]
    exact ⟨(decide_eq_true rfl).symm, rfl⟩
  · rename_i ne
    exact ⟨(decide_eq_false ne).symm, rfl⟩

/-- Who gets the bus gets it alone. -/
theorem exclusive_grantTo {m : Fin n} (requests : (arb.masters m).request = true) :
    Exclusive (grantTo (clearGrants arb) m) := by
  have granted : ∀ i, ((grantTo (clearGrants arb) m).masters i).grant = true → i = m := by
    intro i grant
    rw [(masters_grantTo arb m i).1] at grant
    exact of_decide_eq_true grant
  refine ⟨fun i grant => ?_, fun i j gi gj => (granted i gi).trans (granted j gj).symm⟩
  rw [granted i grant, (masters_grantTo arb m m).2]
  exact requests

theorem exclusive_clearGrants (cycle : Int) : Exclusive { clearGrants arb with cycle := cycle } :=
  ⟨fun _ grant => absurd grant Bool.false_ne_true, fun _ _ grant => absurd grant Bool.false_ne_true⟩

theorem request_setMaster {masterId : Int} {change : BusMaster → BusMaster} {m : Fin n}
    (keeps : (m.val : Int) = masterId → ∀ master, master.request = true → (change master).request = true)
    (requests : (arb.masters m).request = true) : ((setMaster arb masterId change).masters m).request = true := by
  obtain ⟨masters, eq, entry⟩ := setMaster_eq arb masterId change
  rw [eq]
  dsimp only
  rw [entry]
  split
  · rename_i here
    exact keeps here _ requests
  · exact requests

theorem currentMaster_setMaster (masterId : Int) (change : BusMaster → BusMaster) :
    (setMaster arb masterId change).currentMaster = arb.currentMaster := by
  obtain ⟨masters, eq, -⟩ := setMaster_eq arb masterId change
  rw [eq]

variable [NeZero n]

/-- What the round robin does. -/
theorem arbitrate_round_robin (type : arb.type = .roundRobin) :
    busArbiterArbitrate arb =
      match firstFrom (startOf arb) fun m => (arb.masters m).request with
      | some m => (some m, countStarved (grantTo (clearGrants arb) m) m)
      | none => (none, { clearGrants arb with cycle := arb.cycle + 1 }) := by
  rw [busArbiterArbitrate]
  show (match arb.type with | .fixedPriority => _ | .roundRobin => _ | .tdma => _) = _
  rw [type]
  rfl

/-- The state of a round robin arbiter in any run. -/
structure RoundRobinInv (arb : BusArbiter n) : Prop where
  type : arb.type = .roundRobin
  exclusive : Exclusive arb

theorem RoundRobinInv.step (h : RoundRobinInv arb) (op : BusOp) : RoundRobinInv (busStep arb op) := by
  cases op with
  | request masterId =>
    obtain ⟨masters, eq, -⟩ := setMaster_eq arb masterId fun master => { master with request := true }
    refine ⟨?_, h.exclusive.setMaster masterId (fun master => { master with request := true }) (fun _ grant => grant)
      fun _ _ _ => rfl⟩
    rw [busStep, busArbiterRequest, eq]
    exact h.type
  | release masterId =>
    obtain ⟨masters, eq, -⟩ := setMaster_eq arb masterId fun master => { master with request := false, grant := false }
    refine ⟨?_, h.exclusive.setMaster masterId (fun master => { master with request := false, grant := false })
      (fun _ grant => absurd grant Bool.false_ne_true) fun _ _ grant => absurd grant Bool.false_ne_true⟩
    rw [busStep, busArbiterRelease, eq]
    exact h.type
  | arbitrate =>
    rw [busStep, arbitrate_round_robin h.type]
    cases found : firstFrom (startOf arb) fun m => (arb.masters m).request with
    | none => exact ⟨h.type, exclusive_clearGrants (arb.cycle + 1)⟩
    | some m =>
      have exclusive := exclusive_grantTo (firstFrom_holds found)
      exact ⟨h.type, exclusive.requested, exclusive.single⟩

/-- The number of turns before that of `m`. -/
def turnsBefore (arb : BusArbiter n) (m : Fin n) : Nat := Ring.between (startOf arb) m

/-- An arbitration grants the master that waits, or brings its turn nearer. -/
theorem turn_arbitrate (h : RoundRobinInv arb) {m : Fin n} (requests : (arb.masters m).request = true) :
    (busArbiterArbitrate arb).1 = some m ∨
      ((busStep arb .arbitrate).masters m).request = true ∧ turnsBefore (busStep arb .arbitrate) m < turnsBefore arb m := by
  rw [busStep, arbitrate_round_robin h.type]
  cases found : firstFrom (startOf arb) fun m => (arb.masters m).request with
  | none =>
    rw [firstFrom_eq_none.1 found m] at requests
    cases requests
  | some w =>
    by_cases eq : m = w
    · exact Or.inl (by rw [eq])
    · right
      refine ⟨?_, between_turn found requests eq⟩
      exact ((masters_grantTo arb w m).2).trans requests

/-- The other calls do not: only a release by the master itself takes its request back. -/
theorem turn_other {m : Fin n} {op : BusOp} (other : op ≠ .arbitrate) (keeps : op ≠ .release m.val)
    (requests : (arb.masters m).request = true) :
    ((busStep arb op).masters m).request = true ∧ turnsBefore (busStep arb op) m = turnsBefore arb m := by
  cases op with
  | request masterId =>
    refine ⟨request_setMaster (fun _ _ _ => rfl) requests, ?_⟩
    rw [turnsBefore, startOf, busStep, busArbiterRequest, currentMaster_setMaster]
    rfl
  | release masterId =>
    refine ⟨request_setMaster (fun eq => absurd (congrArg BusOp.release eq.symm) keeps) requests, ?_⟩
    rw [turnsBefore, startOf, busStep, busArbiterRelease, currentMaster_setMaster]
    rfl
  | arbitrate => exact absurd rfl other

end Call

/-! ## Runs -/

section Runs
variable {n : Nat} [NeZero n]

/-- Within `n` arbitrations the master is granted, if it does not release the bus before. -/
def Served (arb : BusArbiter n) (m : Fin n) : Prop :=
  ∀ ops : List BusOp, .release m.val ∉ ops → n ≤ ops.count .arbitrate →
    ∃ before rest, ops = before ++ .arbitrate :: rest ∧ before.count .arbitrate < n ∧
      (busArbiterArbitrate (run busStep arb before)).1 = some m

/-- What the arbiter guarantees in a state. -/
structure Guarantees (arb : BusArbiter n) : Prop where
  exclusive : Exclusive arb
  requested : ∀ m, (busArbiterArbitrate arb).1 = some m → (arb.masters m).request = true
  busy : (busArbiterArbitrate arb).1 = none → ∀ m, (arb.masters m).request = false
  served : ∀ m, (arb.masters m).request = true → Served arb m

/-- The master requests the bus of a round robin arbiter. -/
def Waits (m : Fin n) (arb : BusArbiter n) : Prop := RoundRobinInv arb ∧ (arb.masters m).request = true

theorem Waits.served {arb : BusArbiter n} {m : Fin n} (h : Waits m arb) : Served arb m := by
  intro ops keeps ticks
  have turn : ∀ (s : BusArbiter n) (op : BusOp), Waits m s → op ≠ .release m.val → (op == .arbitrate) = true →
      (busArbiterArbitrate s).1 = some m ∨ Waits m (busStep s op) ∧ turnsBefore (busStep s op) m < turnsBefore s m := by
    intro s op waits _ isTick
    obtain rfl := beq_iff_eq.1 isTick
    refine (turn_arbitrate waits.1 waits.2).imp id fun still => ?_
    exact ⟨⟨waits.1.step .arbitrate, still.1⟩, still.2⟩
  have other : ∀ (s : BusArbiter n) (op : BusOp), Waits m s → op ≠ .release m.val → (op == .arbitrate) = false →
      Waits m (busStep s op) ∧ turnsBefore (busStep s op) m ≤ turnsBefore s m := by
    intro s op waits keeps isOther
    obtain ⟨still, same⟩ := turn_other (beq_eq_false_iff_ne.1 isOther) keeps waits.2
    exact ⟨⟨waits.1.step op, still⟩, same.le⟩
  have turns : turnsBefore arb m < n := Ring.between_lt (startOf arb) m
  obtain ⟨before, op, rest, eq, isTick, count, now⟩ := exists_served (· == BusOp.arbitrate)
    (fun s _ => (busArbiterArbitrate s).1 = some m) (Waits m) (· ≠ .release m.val) (fun s => turnsBefore s m)
    turn other h (fun op mem eq => keeps (eq ▸ mem)) (turns.trans_le ticks)
  obtain rfl := beq_iff_eq.1 isTick
  exact ⟨before, rest, eq, count.trans_lt turns, now⟩

/-- **One grant at a time, only for who requests, and nobody starves,** in every state of a run. -/
theorem bus_arbiter_round_robin (numMasters : Int) (ops : List BusOp) :
    Guarantees (run busStep (busArbiterCreate .roundRobin numMasters) ops) := by
  have start : RoundRobinInv (busArbiterCreate .roundRobin numMasters) :=
    ⟨rfl, fun _ grant => absurd grant Bool.false_ne_true, fun _ _ grant => absurd grant Bool.false_ne_true⟩
  have h := run_invariant (fun arb op (h : RoundRobinInv arb) => h.step op) start ops
  generalize run busStep (busArbiterCreate .roundRobin numMasters) ops = arb at h
  refine ⟨h.exclusive, fun m granted => ?_, fun none => ?_, fun m requests => Waits.served ⟨h, requests⟩⟩
  · rw [arbitrate_round_robin h.type] at granted
    cases found : firstFrom (startOf arb) fun m => (arb.masters m).request with
    | none =>
      rw [found] at granted
      cases granted
    | some w =>
      rw [found] at granted
      obtain rfl := Option.some.inj granted
      exact firstFrom_holds found
  · rw [arbitrate_round_robin h.type] at none
    cases found : firstFrom (startOf arb) fun m => (arb.masters m).request with
    | none => exact firstFrom_eq_none.1 found
    | some w =>
      rw [found] at none
      cases none

end Runs

end MiniHardware.Digital
