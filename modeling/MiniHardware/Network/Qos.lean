import Mathlib.Algebra.Order.Group.Unbundled.Abs
import Mathlib.Algebra.Order.Ring.Int
import Mathlib.Data.List.FinRange
import Mathlib.Logic.Function.Basic
import Mathlib.Tactic.Linarith
import Mathlib.Tactic.Ring

/-!
# Deficit round robin (`mini-network-hardware/src/qos.c`)

Every class that is visited gets its quantum, and the first one whose deficit
covers its packet transmits it. The next call starts at the first class again,
so that class is visited once more than the second for each of its packets. That
the deficits, of type `int`, overflow when a class keeps most of its quanta for
long is left out.
-/

namespace MiniHardware.Network

/-- What the scheduler reads and counts of a class. -/
structure QoSTrafficClass where
  quantum : Int
  bytesTx : UInt64
  packetsTx : UInt64

/-- The deficits are numbers without overflow. -/
structure QoSScheduler (numClasses : Nat) where
  classes : Fin numClasses → QoSTrafficClass
  deficitCounters : Fin numClasses → Int
  totalPacketsScheduled : UInt64

section Model
variable {n : Nat}

def drrInitCounters (sched : QoSScheduler n) : QoSScheduler n := { sched with deficitCounters := fun _ => 0 }

def addQuantum (sched : QoSScheduler n) (c : Fin n) : QoSScheduler n :=
  { sched with deficitCounters :=
      Function.update sched.deficitCounters c (sched.deficitCounters c + (sched.classes c).quantum) }

def transmit (sched : QoSScheduler n) (c : Fin n) (size : Int) : QoSScheduler n :=
  let cls := sched.classes c
  { classes := Function.update sched.classes c { cls with
      packetsTx := cls.packetsTx + 1
      bytesTx := cls.bytesTx + UInt64.ofInt size }
    deficitCounters := Function.update sched.deficitCounters c (sched.deficitCounters c - size)
    totalPacketsScheduled := sched.totalPacketsScheduled + 1 }

variable (queueLengths : Fin n → Int)

/-- The inner loop. -/
def drrScan : List (Fin n) → QoSScheduler n → Option (Fin n) × QoSScheduler n
  | [], sched => (none, sched)
  | c :: cs, sched =>
    if queueLengths c ≤ 0 then drrScan cs sched
    else
      let sched := addQuantum sched c
      if sched.deficitCounters c ≥ queueLengths c then (some c, transmit sched c (queueLengths c))
      else drrScan cs sched

/-- The outer loop. -/
def drrRounds : Nat → QoSScheduler n → Option (Fin n) × QoSScheduler n
  | 0, sched => (none, sched)
  | rounds + 1, sched =>
    match drrScan queueLengths (List.finRange n) sched with
    | (some c, sched) => (some c, sched)
    | (none, sched) => drrRounds rounds sched

/-- The class, `none` when -1 is returned. -/
def drrScheduleNext (sched : QoSScheduler n) : Option (Fin n) × QoSScheduler n := drrRounds queueLengths n sched

end Model

/-! ## Runs -/

section Runs
variable {n : Nat}

/-- The scheduler, and for each class the bytes and the packets transmitted. -/
structure DrrRun (n : Nat) where
  sched : QoSScheduler n
  bytes : Fin n → Int
  packets : Fin n → Nat

/-- One call. -/
def drrStep (r : DrrRun n) (queueLengths : Fin n → Int) : DrrRun n :=
  match drrScheduleNext queueLengths r.sched with
  | (some c, sched) =>
    ⟨sched, Function.update r.bytes c (r.bytes c + queueLengths c), Function.update r.packets c (r.packets c + 1)⟩
  | (none, sched) => { r with sched := sched }

/-- After `k` calls, where call `i` sees the packet sizes `sizes i`. -/
def drrRun (sched : QoSScheduler n) (sizes : Nat → Fin n → Int) : Nat → DrrRun n
  | 0 => ⟨drrInitCounters sched, fun _ => 0, fun _ => 0⟩
  | k + 1 => drrStep (drrRun sched sizes k) (sizes k)

/-- No two classes are further apart than two quanta and two packets. -/
def FairTo (q l : Int) (r : DrrRun n) : Prop := ∀ a b, |r.bytes a - r.bytes b| ≤ 2 * (q + l)

end Runs

/-! ## One call -/

section Call
variable {n : Nat} {queueLengths : Fin n → Int}

/-- A quantum changes the deficit only. -/
theorem quantum_addQuantum (sched : QoSScheduler n) (c : Fin n) : (addQuantum sched c).classes = sched.classes := rfl

/-- The deficit of the class grows by its quantum. -/
theorem deficit_addQuantum (sched : QoSScheduler n) (c : Fin n) :
    (addQuantum sched c).deficitCounters c = sched.deficitCounters c + (sched.classes c).quantum :=
  Function.update_self ..

/-- A quantum leaves the deficits of the other classes. -/
theorem deficit_addQuantum_of_ne (sched : QoSScheduler n) {c i : Fin n} (ne : i ≠ c) :
    (addQuantum sched c).deficitCounters i = sched.deficitCounters i :=
  Function.update_of_ne ne ..

/-- The deficit of the class shrinks by the packet. -/
theorem deficit_transmit (sched : QoSScheduler n) (c : Fin n) (size : Int) :
    (transmit sched c size).deficitCounters c = sched.deficitCounters c - size :=
  Function.update_self ..

/-- A packet sent leaves the deficits of the other classes. -/
theorem deficit_transmit_of_ne (sched : QoSScheduler n) {c i : Fin n} (size : Int) (ne : i ≠ c) :
    (transmit sched c size).deficitCounters i = sched.deficitCounters i :=
  Function.update_of_ne ne ..

/-- A packet sent leaves the quanta. -/
theorem quantum_transmit (sched : QoSScheduler n) (c i : Fin n) (size : Int) :
    ((transmit sched c size).classes i).quantum = (sched.classes i).quantum := by
  unfold transmit
  dsimp only
  rw [Function.update_apply]
  split
  · rename_i eq
    rw [eq]
  · rfl

/-- A class whose deficit covers its packet is served. -/
theorem drrScan_cons_served {sched : QoSScheduler n} {c : Fin n} {cs : List (Fin n)} (waiting : 0 < queueLengths c)
    (covered : queueLengths c ≤ sched.deficitCounters c + (sched.classes c).quantum) :
    drrScan queueLengths (c :: cs) sched = (some c, transmit (addQuantum sched c) c (queueLengths c)) := by
  rw [drrScan, if_neg (by omega)]
  dsimp only
  rw [deficit_addQuantum, if_pos covered]

/-- One whose deficit is short keeps its quantum and is passed over. -/
theorem drrScan_cons_skipped {sched : QoSScheduler n} {c : Fin n} {cs : List (Fin n)} (waiting : 0 < queueLengths c)
    (short : sched.deficitCounters c + (sched.classes c).quantum < queueLengths c) :
    drrScan queueLengths (c :: cs) sched = drrScan queueLengths cs (addQuantum sched c) := by
  rw [drrScan, if_neg (by omega)]
  dsimp only
  rw [deficit_addQuantum, if_neg (by omega)]

/-- A scan leaves the quanta, and the deficits of the classes it does not visit. -/
theorem drrScan_frame (queueLengths : Fin n → Int) (l : List (Fin n)) (sched : QoSScheduler n) :
    (∀ i, ((drrScan queueLengths l sched).2.classes i).quantum = (sched.classes i).quantum) ∧
      ∀ i, i ∉ l → (drrScan queueLengths l sched).2.deficitCounters i = sched.deficitCounters i ∧
        (drrScan queueLengths l sched).1 ≠ some i := by
  induction l generalizing sched with
  | nil => exact ⟨fun _ => rfl, fun _ _ => ⟨rfl, nofun⟩⟩
  | cons c cs ih =>
    rw [drrScan]
    split
    · exact ⟨(ih sched).1, fun i out => (ih sched).2 i fun mem => out (List.mem_cons_of_mem c mem)⟩
    dsimp only
    split
    · refine ⟨fun i => (quantum_transmit _ c i _).trans (by rw [quantum_addQuantum]), fun i out => ?_⟩
      have ne : i ≠ c := fun eq => out (eq ▸ List.mem_cons_self)
      refine ⟨?_, fun eq => ne (Option.some.inj eq).symm⟩
      rw [deficit_transmit_of_ne _ _ ne, deficit_addQuantum_of_ne _ ne]
    · refine ⟨fun i => ((ih _).1 i).trans (by rw [quantum_addQuantum]), fun i out => ?_⟩
      have ne : i ≠ c := fun eq => out (eq ▸ List.mem_cons_self)
      obtain ⟨kept, other⟩ := (ih (addQuantum sched c)).2 i fun mem => out (List.mem_cons_of_mem c mem)
      exact ⟨kept.trans (deficit_addQuantum_of_ne _ ne), other⟩

/-- No call changes the quanta. -/
theorem quantum_drrRounds (queueLengths : Fin n → Int) (rounds : Nat) (sched : QoSScheduler n) (i : Fin n) :
    ((drrRounds queueLengths rounds sched).2.classes i).quantum = (sched.classes i).quantum := by
  induction rounds generalizing sched with
  | zero => rfl
  | succ rounds ih =>
    have scan := (drrScan_frame queueLengths (List.finRange n) sched).1 i
    rw [drrRounds]
    split
    · rename_i c after eq
      rw [← scan, eq]
    · rename_i after eq
      rw [ih, ← scan, eq]

/-- The scheduler of the run is the one that the call leaves. -/
theorem sched_drrStep (r : DrrRun n) (queueLengths : Fin n → Int) :
    (drrStep r queueLengths).sched = (drrScheduleNext queueLengths r.sched).2 := by
  unfold drrStep
  split
  case h_1 c sched served => rw [served]
  case h_2 sched served => rw [served]

/-- Counting at one class. -/
theorem update_add {V : Type} [AddMonoid V] (total new : Fin n → V) (c i : Fin n) :
    Function.update total c (total c + new c) i = total i + if some c = some i then new i else 0 := by
  rcases eq_or_ne i c with rfl | ne
  · rw [Function.update_self, if_pos rfl]
  · rw [Function.update_of_ne ne, if_neg fun eq => ne (Option.some.inj eq).symm, add_zero]

/-- The class served counts its bytes. -/
theorem bytes_drrStep (r : DrrRun n) (queueLengths : Fin n → Int) (i : Fin n) :
    (drrStep r queueLengths).bytes i =
      r.bytes i + if (drrScheduleNext queueLengths r.sched).1 = some i then queueLengths i else 0 := by
  unfold drrStep
  split
  case h_1 c sched served =>
    rw [served]
    exact update_add r.bytes queueLengths c i
  case h_2 sched served =>
    rw [served, if_neg nofun, add_zero]

/-- The class served counts a packet. -/
theorem packets_drrStep (r : DrrRun n) (queueLengths : Fin n → Int) (i : Fin n) :
    (drrStep r queueLengths).packets i =
      r.packets i + if (drrScheduleNext queueLengths r.sched).1 = some i then 1 else 0 := by
  unfold drrStep
  split
  case h_1 c sched served =>
    rw [served]
    exact update_add r.packets (fun _ => 1) c i
  case h_2 sched served =>
    rw [served, if_neg nofun, add_zero]

end Call

/-! ## The first two classes -/

section FirstTwo
variable {m : Nat} {queueLengths : Fin (m + 2) → Int} {quantum bound : Int}

/-- Every class has a packet of size between 1 and the bound. -/
def Waiting {n : Nat} (bound : Int) (queueLengths : Fin n → Int) : Prop :=
  ∀ c, 1 ≤ queueLengths c ∧ queueLengths c ≤ bound

/-- What a call does to the first two classes: unless it serves the first one, that class
is left with a larger deficit, below the bound. -/
def FirstTwo (queueLengths : Fin (m + 2) → Int) (quantum bound : Int) (sched : QoSScheduler (m + 2))
    (o : Option (Fin (m + 2)) × QoSScheduler (m + 2)) : Prop :=
  let before := sched.deficitCounters
  let after := o.2.deficitCounters
  (0 ≤ after 0 ∧ 0 ≤ after 1) ∧
    ((o.1 = some 0 ∧ after 0 - after 1 = before 0 - before 1 + quantum - queueLengths 0) ∨
      (o.1 = some 1 ∧ after 0 - after 1 = before 0 - before 1 + queueLengths 1 ∧ before 0 < after 0 ∧
        after 0 < bound) ∨
      (o.1 ≠ some 0 ∧ o.1 ≠ some 1 ∧ after 0 - after 1 = before 0 - before 1 ∧ before 0 < after 0 ∧
        after 0 < bound))

/-- The scan begins with the first two classes, and does not come back to them. -/
theorem finRange_two : ∃ l, List.finRange (m + 2) = 0 :: 1 :: l ∧ (0 : Fin (m + 2)) ∉ l ∧ (1 : Fin (m + 2)) ∉ l := by
  have nodup := List.nodup_finRange (m + 2)
  have shape : List.finRange (m + 2) = 0 :: 1 :: ((List.finRange m).map Fin.succ).map Fin.succ := by
    rw [List.finRange_succ, List.finRange_succ, List.map_cons]
    rfl
  rw [shape] at nodup
  refine ⟨_, shape, fun mem => ?_, fun mem => ?_⟩
  · exact (List.nodup_cons.mp nodup).1 (List.mem_cons_of_mem 1 mem)
  · exact (List.nodup_cons.mp (List.nodup_cons.mp nodup).2).1 mem

/-- A scan does to the first two classes what `FirstTwo` says. -/
theorem firstTwo_scan {sched : QoSScheduler (m + 2)} (waiting : Waiting bound queueLengths) (pos : 0 < quantum)
    (equal : ∀ i, (sched.classes i).quantum = quantum) (nonneg : 0 ≤ sched.deficitCounters 0)
    (nonneg' : 0 ≤ sched.deficitCounters 1) :
    FirstTwo queueLengths quantum bound sched (drrScan queueLengths (List.finRange (m + 2)) sched) := by
  obtain ⟨l, shape, out, out'⟩ := finRange_two (m := m)
  have ne : (1 : Fin (m + 2)) ≠ 0 := Fin.zero_ne_one.symm
  have first := waiting 0
  have second := waiting 1
  rw [shape]
  by_cases covered : queueLengths 0 ≤ sched.deficitCounters 0 + quantum
  · rw [drrScan_cons_served (by omega) (by rw [equal]; exact covered)]
    have after := deficit_transmit (addQuantum sched 0) 0 (queueLengths 0)
    have after' := deficit_transmit_of_ne (addQuantum sched 0) (queueLengths 0) ne
    rw [deficit_addQuantum, equal] at after
    rw [deficit_addQuantum_of_ne _ ne] at after'
    exact ⟨by dsimp only; omega, .inl ⟨rfl, by dsimp only; omega⟩⟩
  rw [drrScan_cons_skipped (by omega) (by rw [equal]; omega)]
  have grows := deficit_addQuantum sched 0
  have keeps := deficit_addQuantum_of_ne sched ne
  rw [equal] at grows
  by_cases covered' : queueLengths 1 ≤ sched.deficitCounters 1 + quantum
  · rw [drrScan_cons_served (by omega) (by rw [keeps, quantum_addQuantum, equal]; exact covered')]
    have after := deficit_transmit_of_ne (addQuantum (addQuantum sched 0) 1) (queueLengths 1) ne.symm
    have after' := deficit_transmit (addQuantum (addQuantum sched 0) 1) 1 (queueLengths 1)
    rw [deficit_addQuantum_of_ne _ ne.symm, grows] at after
    rw [deficit_addQuantum, keeps, quantum_addQuantum, equal] at after'
    exact ⟨by dsimp only; omega, .inr (.inl ⟨rfl, by dsimp only; omega⟩)⟩
  · rw [drrScan_cons_skipped (by omega) (by rw [keeps, quantum_addQuantum, equal]; omega)]
    obtain ⟨-, frame⟩ := drrScan_frame queueLengths l (addQuantum (addQuantum sched 0) 1)
    obtain ⟨kept, other⟩ := frame 0 out
    obtain ⟨kept', other'⟩ := frame 1 out'
    rw [deficit_addQuantum_of_ne _ ne.symm, grows] at kept
    rw [deficit_addQuantum, keeps, quantum_addQuantum, equal] at kept'
    exact ⟨by omega, .inr (.inr ⟨other, other', by omega⟩)⟩

/-- Round after round the deficit of the first class goes up. -/
theorem firstTwo_rounds (waiting : Waiting bound queueLengths) (pos : 0 < quantum) (rounds : Nat)
    {sched : QoSScheduler (m + 2)} (equal : ∀ i, (sched.classes i).quantum = quantum)
    (nonneg : 0 ≤ sched.deficitCounters 0) (nonneg' : 0 ≤ sched.deficitCounters 1) :
    FirstTwo queueLengths quantum bound sched (drrRounds queueLengths (rounds + 1) sched) := by
  induction rounds generalizing sched with
  | zero =>
    have scan := firstTwo_scan waiting pos equal nonneg nonneg'
    rw [drrRounds]
    split
    · rename_i c after eq
      rw [eq] at scan
      exact scan
    · rename_i after eq
      rw [eq] at scan
      exact scan
  | succ rounds ih =>
    have scan := firstTwo_scan waiting pos equal nonneg nonneg'
    rw [drrRounds]
    split
    · rename_i c after eq
      rw [eq] at scan
      exact scan
    rename_i after eq
    rw [eq] at scan
    obtain ⟨⟨nonneg, nonneg'⟩, ⟨served, -⟩ | ⟨served, -⟩ | ⟨-, -, same, grows, below⟩⟩ := scan
    · exact nomatch served
    · exact nomatch served
    have equal' (i : Fin (m + 2)) : (after.classes i).quantum = quantum := by
      rw [← equal i, ← (drrScan_frame queueLengths (List.finRange (m + 2)) sched).1 i, eq]
    obtain ⟨signs, ⟨served, rest⟩ | ⟨served, rest⟩ | ⟨other, other', rest⟩⟩ := ih equal' nonneg nonneg'
    · exact ⟨signs, .inl ⟨served, by dsimp only at *; omega⟩⟩
    · exact ⟨signs, .inr (.inl ⟨served, by dsimp only at *; omega⟩)⟩
    · exact ⟨signs, .inr (.inr ⟨other, other', by dsimp only at *; omega⟩)⟩

/-- What every call keeps: the first class is one quantum ahead of the second for each of
its packets, and it has one in every `bound + 1` calls. -/
structure Ahead (quantum bound : Int) (k : Nat) (r : DrrRun (m + 2)) : Prop where
  equal : ∀ i, (r.sched.classes i).quantum = quantum
  nonneg : 0 ≤ r.sched.deficitCounters 0
  nonneg' : 0 ≤ r.sched.deficitCounters 1
  lead : r.bytes 0 + r.sched.deficitCounters 0 =
    r.bytes 1 + r.sched.deficitCounters 1 + quantum * r.packets 0
  often : k ≤ (bound + 1) * r.packets 0 + min (r.sched.deficitCounters 0) bound

/-- Once the deficit of the first class covers every packet, only that class is served. -/
theorem ahead_step {k : Nat} {r : DrrRun (m + 2)} (waiting : Waiting bound queueLengths) (pos : 0 < quantum)
    (h : Ahead quantum bound k r) :
    Ahead quantum bound (k + 1) (drrStep r queueLengths) ∧ r.packets 0 ≤ (drrStep r queueLengths).packets 0 ∧
      (bound ≤ r.sched.deficitCounters 0 →
        (drrStep r queueLengths).bytes 0 = r.bytes 0 + queueLengths 0 ∧ (drrStep r queueLengths).bytes 1 = r.bytes 1) := by
  have ne : (1 : Fin (m + 2)) ≠ 0 := Fin.zero_ne_one.symm
  have first := waiting 0
  have equal (i : Fin (m + 2)) : ((drrStep r queueLengths).sched.classes i).quantum = quantum := by
    rw [sched_drrStep]
    exact (quantum_drrRounds queueLengths (m + 2) r.sched i).trans (h.equal i)
  obtain ⟨⟨nonneg, nonneg'⟩, call⟩ : FirstTwo queueLengths quantum bound r.sched (drrScheduleNext queueLengths r.sched) :=
    firstTwo_rounds waiting pos (m + 1) h.equal h.nonneg h.nonneg'
  rw [← sched_drrStep] at nonneg nonneg' call
  have lead := h.lead
  have often := h.often
  have bytes := bytes_drrStep r queueLengths 0
  have bytes' := bytes_drrStep r queueLengths 1
  have packets := packets_drrStep r queueLengths 0
  rcases call with ⟨served, rest⟩ | ⟨served, rest⟩ | ⟨other, other', rest⟩
  · rw [served, if_pos rfl] at bytes packets
    rw [served, if_neg fun eq => ne (Option.some.inj eq).symm, add_zero] at bytes'
    refine ⟨⟨equal, nonneg, nonneg', ?_, ?_⟩, by omega, fun _ => ⟨bytes, bytes'⟩⟩
    · rw [bytes, bytes', packets]
      push_cast
      linarith
    · rw [packets]
      push_cast
      rw [mul_add]
      omega
  · rw [served, if_neg fun eq => ne (Option.some.inj eq), add_zero] at bytes packets
    rw [served, if_pos rfl] at bytes'
    refine ⟨⟨equal, nonneg, nonneg', ?_, ?_⟩, by omega, by omega⟩
    · rw [bytes, bytes', packets]
      linarith
    · rw [packets]
      push_cast
      omega
  · rw [if_neg other, add_zero] at bytes packets
    rw [if_neg other', add_zero] at bytes'
    refine ⟨⟨equal, nonneg, nonneg', ?_, ?_⟩, by omega, by omega⟩
    · rw [bytes, bytes', packets]
      linarith
    · rw [packets]
      push_cast
      omega

variable {sched : QoSScheduler (m + 2)} {sizes : Nat → Fin (m + 2) → Int}

/-- Every run keeps the first class ahead. -/
theorem ahead_run (waiting : ∀ k, Waiting bound (sizes k)) (pos : 0 < quantum)
    (equal : ∀ i, (sched.classes i).quantum = quantum) (k : Nat) : Ahead quantum bound k (drrRun sched sizes k) := by
  have positive : 1 ≤ bound := (waiting 0 0).1.trans (waiting 0 0).2
  induction k with
  | zero => exact ⟨equal, le_refl _, le_refl _, by simp [drrRun, drrInitCounters], by simp [drrRun, drrInitCounters]; omega⟩
  | succ k ih => exact (ahead_step (waiting k) pos ih).1

/-- No packet is taken back. -/
theorem packets_mono (waiting : ∀ k, Waiting bound (sizes k)) (pos : 0 < quantum)
    (equal : ∀ i, (sched.classes i).quantum = quantum) (k j : Nat) :
    (drrRun sched sizes k).packets 0 ≤ (drrRun sched sizes (k + j)).packets 0 := by
  induction j with
  | zero => exact le_refl _
  | succ j ih => exact ih.trans (ahead_step (waiting (k + j)) pos (ahead_run waiting pos equal (k + j))).2.1

/-- In a fair run the deficit of the first class would come to cover every packet, and from
then on the second class would get nothing. -/
theorem unfair_of_two (waiting : ∀ k, Waiting bound (sizes k)) (pos : 0 < quantum)
    (equal : ∀ i, (sched.classes i).quantum = quantum) :
    ∃ k, ¬FairTo quantum bound (drrRun sched sizes k) := by
  by_contra fair
  push Not at fair
  have positive : 1 ≤ bound := (waiting 0 0).1.trans (waiting 0 0).2
  have apart (k : Nat) := abs_le.mp (fair k 0 1)
  obtain ⟨slack, slackIs⟩ : ∃ slack : Nat, (slack : Int) = 2 * (quantum + bound) :=
    ⟨_, Int.toNat_of_nonneg (by omega)⟩
  obtain ⟨size, sizeIs⟩ : ∃ size : Nat, (size : Int) = bound := ⟨_, Int.toNat_of_nonneg (by omega)⟩
  obtain ⟨start, startIs⟩ : ∃ start, start = (size + 1) * (slack + size) + size := ⟨_, rfl⟩
  have packets : (slack : Int) + bound ≤ (drrRun sched sizes start).packets 0 := by
    have often := (ahead_run waiting pos equal start).often
    have most : (bound + 1) * (slack + bound) ≤ (bound + 1) * (drrRun sched sizes start).packets 0 := by
      have startIs : (start : Int) = (bound + 1) * (slack + bound) + bound := by
        rw [startIs, ← sizeIs]
        push_cast
        rfl
      omega
    exact Int.le_of_mul_le_mul_left most (by omega)
  have covers (j : Nat) : bound ≤ (drrRun sched sizes (start + j)).sched.deficitCounters 0 := by
    have lead := (ahead_run waiting pos equal (start + j)).lead
    have nonneg := (ahead_run waiting pos equal (start + j)).nonneg'
    have more := packets_mono waiting pos equal start j
    have many : (drrRun sched sizes (start + j)).packets 0 ≤ quantum * (drrRun sched sizes (start + j)).packets 0 :=
      le_mul_of_one_le_left (by omega) pos
    have := apart (start + j)
    omega
  have starves (j : Nat) : (drrRun sched sizes start).bytes 0 + j ≤ (drrRun sched sizes (start + j)).bytes 0 ∧
      (drrRun sched sizes (start + j)).bytes 1 = (drrRun sched sizes start).bytes 1 := by
    induction j with
    | zero => simp
    | succ j ih =>
      have step := (ahead_step (waiting (start + j)) pos (ahead_run waiting pos equal (start + j))).2.2 (covers j)
      have size := (waiting (start + j) 0).1
      rw [← Nat.add_assoc, drrRun, step.1, step.2]
      exact ⟨by push_cast; omega, ih.2⟩
  have before := apart start
  have after := apart (start + (2 * slack + 1))
  have := starves (2 * slack + 1)
  omega

end FirstTwo

/-- The schedule is fair only where there is no second class. -/
theorem drr_fair_iff {n : Nat} (sched : QoSScheduler n) (quantum bound : Int) (sizes : Nat → Fin n → Int)
    (pos : 0 < quantum) (equal : ∀ i, (sched.classes i).quantum = quantum)
    (waiting : ∀ k c, 1 ≤ sizes k c ∧ sizes k c ≤ bound) :
    (∀ k, FairTo quantum bound (drrRun sched sizes k)) ↔ n ≤ 1 := by
  constructor
  · intro fair
    by_contra two
    obtain ⟨m, rfl⟩ : ∃ m, n = m + 2 := ⟨n - 2, by omega⟩
    obtain ⟨k, unfair⟩ := unfair_of_two waiting pos equal
    exact unfair (fair k)
  · intro one k a b
    have positive := (waiting 0 a).1.trans (waiting 0 a).2
    rw [Fin.ext (by omega : a.val = b.val), sub_self, abs_zero]
    omega

/-- Two classes with the default quantum. -/
def twoClasses : QoSScheduler 2 := ⟨fun _ => ⟨1500, 0, 0⟩, fun _ => 0, 0⟩

/-- Two classes with packets of one quantum. -/
theorem drr_fair_two :
    (∀ k, FairTo 1500 1500 (drrRun twoClasses (fun _ _ => 1500) k)) ↔ 2 ≤ 1 :=
  drr_fair_iff twoClasses 1500 1500 (fun _ _ => 1500) (by decide) (fun _ => rfl) fun _ _ => by decide

/-- Every packet is of full size, and the second class never sends. -/
theorem drr_starves :
    ¬∀ (n : Nat) (sched : QoSScheduler n) (quantum bound : Int) (sizes : Nat → Fin n → Int), 0 < quantum →
      (∀ i, (sched.classes i).quantum = quantum) → (∀ k c, 1 ≤ sizes k c ∧ sizes k c ≤ bound) →
      ∀ k, FairTo quantum bound (drrRun sched sizes k) := by
  intro fair
  have five := fair 2 twoClasses 1500 1500 (fun _ _ => 1500) (by decide) (fun _ => rfl) (fun _ _ => by decide) 5 0 1
  revert five
  decide

end MiniHardware.Network
