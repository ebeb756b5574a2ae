import MiniHardware.Lib.Trace
import MiniHardware.Lib.Index
import Mathlib.Logic.Function.Basic

/-!
# Replay counters (`mini-hardware-security/src/memory_crypto.c`)

A line is to have a counter that only grows, so that what an attacker replays is
told by its old counter. The lines whose addresses agree modulo 1024 share one
counter here, though the table has 16384: a line is refused when another one
went ahead of it.
-/

namespace MiniHardware.Security
open Lib

/-- `MINI_HWSEC_MEM_MAX_REGIONS * 1024`. -/
abbrev memReplayCounters : Nat := 16384

structure MemReplayCounters where
  counters : Fin memReplayCounters → UInt64

theorem slot_lt (lineAddr : UInt64) : (lineAddr % 1024).toNat < memReplayCounters := by
  rw [UInt64.toNat_mod]
  exact Nat.lt_trans (Nat.mod_lt _ (by decide)) (by decide)

/-- The index of the counter of a line. -/
def replaySlot (lineAddr : UInt64) : Fin memReplayCounters := ⟨(lineAddr % 1024).toNat, slot_lt lineAddr⟩

def memReplayProtect (counters : MemReplayCounters) (lineAddr claimedCounter : UInt64) :
    Bool × MemReplayCounters :=
  let idx := replaySlot lineAddr
  let current := counters.counters idx
  if claimedCounter < current then (false, counters)
  else (true, ⟨Function.update counters.counters idx claimedCounter⟩)

def memCounterIncrement (counters : MemReplayCounters) (lineAddr : UInt64) : MemReplayCounters :=
  let idx := replaySlot lineAddr
  ⟨Function.update counters.counters idx (counters.counters idx + 1)⟩

/-! ## Runs -/

inductive ReplayOp where
  | protect (lineAddr claimedCounter : UInt64)
  | increment (lineAddr : UInt64)

/-- The table, the highest counter that each line has reached, and the counters that have gone from
`2^64 - 1` to 0. -/
structure ReplayRun where
  table : MemReplayCounters
  reached : UInt64 → Nat
  wrapped : Fin memReplayCounters → Bool

def replayStart : ReplayRun := ⟨⟨fun _ => 0⟩, fun _ => 0, fun _ => false⟩

/-- The counter that a line is compared with. -/
def ReplayRun.current (s : ReplayRun) (lineAddr : UInt64) : UInt64 := s.table.counters (replaySlot lineAddr)

def replayStep (s : ReplayRun) : ReplayOp → ReplayRun
  | .protect lineAddr claimed =>
    let (ok, table) := memReplayProtect s.table lineAddr claimed
    { s with
      table := table
      reached :=
        if ok then Function.update s.reached lineAddr (max (s.reached lineAddr) claimed.toNat) else s.reached }
  | .increment lineAddr =>
    { table := memCounterIncrement s.table lineAddr
      reached := Function.update s.reached lineAddr (s.reached lineAddr + 1)
      wrapped :=
        Function.update s.wrapped (replaySlot lineAddr)
          (s.wrapped (replaySlot lineAddr) || (s.current lineAddr).toNat + 1 == 2 ^ 64) }

/-- A claimed counter is accepted exactly when it is at least the highest one that the line has reached. -/
def TellsFresh (s : ReplayRun) : ReplayOp → Prop
  | .protect lineAddr claimed =>
    (memReplayProtect s.table lineAddr claimed).1 = true ↔ s.reached lineAddr ≤ claimed.toNat
  | .increment _ => True

/-- A counter that is fresh for the line is not behind the one in the table, which the lines with the
same index have moved on; and where that one has wrapped, a counter that is not behind it is fresh. -/
def NotBehind (s : ReplayRun) : ReplayOp → Prop
  | .protect lineAddr claimed =>
    (s.reached lineAddr ≤ claimed.toNat → s.current lineAddr ≤ claimed) ∧
      (s.wrapped (replaySlot lineAddr) = true → s.current lineAddr ≤ claimed → s.reached lineAddr ≤ claimed.toNat)
  | .increment _ => True

/-- A counter of the table that has not wrapped is at least what each of its lines has reached. -/
def Ahead (s : ReplayRun) : Prop :=
  ∀ lineAddr, s.wrapped (replaySlot lineAddr) = false → s.reached lineAddr ≤ (s.current lineAddr).toNat

theorem ahead_start : Ahead replayStart := fun _ _ => Nat.zero_le _

theorem replay_protect_iff (table : MemReplayCounters) (lineAddr claimed : UInt64) :
    (memReplayProtect table lineAddr claimed).1 = true ↔ table.counters (replaySlot lineAddr) ≤ claimed := by
  unfold memReplayProtect
  dsimp only
  split
  · rename_i stale
    constructor
    · rintro ⟨⟩
    · intro le
      exact absurd stale (UInt64.not_lt.2 le)
  · rename_i fresh
    constructor
    · exact fun _ => UInt64.not_lt.1 fresh
    · exact fun _ => rfl

/-- One counter of the table moves on, and one of its lines reaches something not above it. -/
theorem Ahead.move {s : ReplayRun} (ahead : Ahead s) {lineAddr value : UInt64} {reach : Nat}
    {wrapped : Fin memReplayCounters → Bool} (stays : ∀ i, wrapped i = false → s.wrapped i = false)
    (grows : wrapped (replaySlot lineAddr) = false → (s.current lineAddr).toNat ≤ value.toNat)
    (covers : wrapped (replaySlot lineAddr) = false → reach ≤ value.toNat) :
    Ahead ⟨⟨Function.update s.table.counters (replaySlot lineAddr) value⟩,
      Function.update s.reached lineAddr reach, wrapped⟩ := by
  intro k whole
  change wrapped (replaySlot k) = false at whole
  have old := ahead k (stays _ whole)
  show Function.update s.reached lineAddr reach k ≤
    (Function.update s.table.counters (replaySlot lineAddr) value (replaySlot k)).toNat
  by_cases same : replaySlot k = replaySlot lineAddr
  · rw [same] at whole
    rw [ReplayRun.current, same] at old
    rw [same, Function.update_self, Function.update_apply]
    split
    · exact covers whole
    · exact old.trans (grows whole)
  · have other : k ≠ lineAddr := fun eq => same (congrArg replaySlot eq)
    rw [Function.update_of_ne same, Function.update_of_ne other]
    exact old

theorem Ahead.protect {s : ReplayRun} (ahead : Ahead s) (lineAddr claimed : UInt64) :
    Ahead (replayStep s (.protect lineAddr claimed)) := by
  unfold replayStep memReplayProtect
  dsimp only
  split
  · exact ahead
  · rename_i fresh
    have grows : (s.current lineAddr).toNat ≤ claimed.toNat := UInt64.le_iff_toNat_le.1 (UInt64.not_lt.1 fresh)
    apply ahead.move (fun _ h => h) (fun _ => grows)
    intro whole
    exact max_le ((ahead lineAddr whole).trans grows) (Nat.le_refl _)

theorem Ahead.increment {s : ReplayRun} (ahead : Ahead s) (lineAddr : UInt64) :
    Ahead (replayStep s (.increment lineAddr)) := by
  have noWrap : (s.wrapped (replaySlot lineAddr) || (s.current lineAddr).toNat + 1 == 2 ^ 64) = false →
      s.wrapped (replaySlot lineAddr) = false ∧
        (s.current lineAddr + 1).toNat = (s.current lineAddr).toNat + 1 := by
    intro whole
    obtain ⟨before, now⟩ := Bool.or_eq_false_iff.1 whole
    have ne := beq_eq_false_iff_ne.1 now
    have lt := (s.current lineAddr).toNat_lt
    refine ⟨before, ?_⟩
    rw [UInt64.toNat_add, UInt64.toNat_one, Nat.mod_eq_of_lt (by omega)]
  apply ahead.move
  · intro i
    rw [Function.update_apply]
    split
    · rename_i same
      intro whole
      rw [same]
      exact (noWrap whole).1
    · exact id
  · rw [Function.update_self]
    intro whole
    rw [← ReplayRun.current, (noWrap whole).2]
    exact Nat.le_succ _
  · rw [Function.update_self]
    intro whole
    obtain ⟨before, next⟩ := noWrap whole
    rw [← ReplayRun.current, next]
    exact Nat.succ_le_succ (ahead lineAddr before)

theorem Ahead.step (s : ReplayRun) (op : ReplayOp) (ahead : Ahead s) : Ahead (replayStep s op) := by
  cases op with
  | protect lineAddr claimed => exact ahead.protect lineAddr claimed
  | increment lineAddr => exact ahead.increment lineAddr

theorem Ahead.tells_iff {s : ReplayRun} (ahead : Ahead s) (op : ReplayOp) : TellsFresh s op ↔ NotBehind s op := by
  cases op with
  | increment _ => exact Iff.rfl
  | protect lineAddr claimed =>
    show ((memReplayProtect s.table lineAddr claimed).1 = true ↔ _) ↔ _
    rw [replay_protect_iff]
    constructor
    · intro tells
      exact ⟨tells.2, fun _ => tells.1⟩
    · rintro ⟨fresh, stale⟩
      refine ⟨fun accepted => ?_, fresh⟩
      cases whole : s.wrapped (replaySlot lineAddr) with
      | true => exact stale whole accepted
      | false => exact (ahead lineAddr whole).trans (UInt64.le_iff_toNat_le.1 accepted)

/-- **Every claimed counter is judged rightly if and only if none that is fresh is behind the counter in
the table, which lines share, and none that is stale comes after that one has wrapped and is not behind
it.** -/
theorem replay_protect_tells_fresh_iff (ops : List ReplayOp) :
    Guarded replayStep TellsFresh replayStart ops ↔ Guarded replayStep NotBehind replayStart ops :=
  guarded_congr Ahead (fun _ op ahead => ahead.tells_iff op) (fun s op ahead _ => ahead.step s op) ahead_start

/-- Line 1024 has reached nothing and is refused for what line 0 has reached. -/
theorem replay_protect_refuses_fresh :
    ¬ Guarded replayStep TellsFresh replayStart [.protect 0 5, .protect 1024 3] := by
  rintro ⟨-, tells, -⟩
  exact absurd (tells.2 (by decide)) (by decide)

end MiniHardware.Security
