import Mathlib.Data.Nat.Find
import MiniHardware.Lib.Settle
import MiniHardware.Cpu.Isa

/-!
# Runs of the interpreter

A program ends by leaving the memory: from then on `isaFetch` only delivers
NOPs. `Finishes` is the end of a run, `trace` and `instAt` are its contexts and
instructions by index.
-/

namespace MiniHardware.Cpu
open Lib

/-- The address a load or a store accesses. -/
def accessAddr (s : IsaContext) (inst : Instruction) : UInt32 :=
  s.registers inst.rs1 + inst.immediate.toUInt32

/-! ## One step -/

theorem inMemory_iff (addr : UInt32) : inMemory addr = true ↔ (addr.toNat + 4) % 4294967296 ≤ 4096 := by
  simp [inMemory, UInt32.le_iff_toNat_le]

theorem loadWord_isSome_iff {memory : Memory} {addr : UInt32} :
    (∃ raw, loadWord memory addr = some raw) ↔ addr.toNat + 4 ≤ 4096 := by
  simp only [loadWord]
  split <;> simp_all

theorem isaFetch_of_inMemory {s : IsaContext} (running : s.halted = false)
    (inside : inMemory s.pc = true) : isaFetch s = (loadWord s.memory s.pc).map isaDecode := by
  simp [isaFetch, running, inside]

theorem isaFetch_of_outside {s : IsaContext} (outside : inMemory s.pc = false) :
    isaFetch s = some (nopInstruction 0) := by
  simp [isaFetch, outside]

/-- An instruction fetched from the memory has its four bytes there. -/
theorem le_of_isaFetch {s : IsaContext} {inst : Instruction} (running : s.halted = false)
    (inside : inMemory s.pc = true) (fetch : isaFetch s = some inst) : s.pc.toNat + 4 ≤ 4096 := by
  rw [isaFetch_of_inMemory running inside, Option.map_eq_some_iff] at fetch
  obtain ⟨raw, load, -⟩ := fetch
  exact loadWord_isSome_iff.1 ⟨raw, load⟩

theorem isaStep_eq_some {s t : IsaContext} (running : s.halted = false) :
    isaStep s = some t ↔ ∃ inst, isaFetch s = some inst ∧ isaExecute s inst = some t := by
  simp [isaStep, running, Option.bind_eq_some_iff]

theorem isaExecute_eq_some {s t : IsaContext} {inst : Instruction} (running : s.halted = false)
    (exec : isaExecute s inst = some t) :
    ∃ effect, isaEffect s inst = some effect ∧ t.memory = effect.memory ∧ t.pc = effect.nextPc ∧
      t.halted = false ∧ t.registers =
        if inst.rd ≠ 0 ∧ ¬ isaKeepsRegisters inst.opcode then
          Function.update s.registers inst.rd effect.rdVal
        else s.registers := by
  simp only [isaExecute, running, Bool.false_eq_true, if_false, Option.map_eq_some_iff] at exec
  obtain ⟨effect, he, rfl⟩ := exec
  exact ⟨effect, he, rfl, rfl, rfl, rfl⟩

/-- Only stores change the memory. -/
theorem isaEffect_memory {s : IsaContext} {inst : Instruction} {effect : Effect}
    (exec : isaEffect s inst = some effect) (noStore : inst.opcode ≠ .sw) :
    effect.memory = s.memory := by
  cases op : inst.opcode
  case sw => exact absurd op noStore
  case lw =>
    simp only [isaEffect, op] at exec
    split at exec <;> simp [Option.bind_eq_some_iff] at exec
    · obtain ⟨_, -, rfl⟩ := exec
      rfl
    · obtain rfl := exec
      rfl
  all_goals
    simp only [isaEffect, op, Option.some.injEq] at exec
    obtain rfl := exec
    rfl

theorem halted_of_isaStep {s t : IsaContext} (running : s.halted = false)
    (step : isaStep s = some t) : t.halted = false := by
  obtain ⟨inst, -, exec⟩ := (isaStep_eq_some running).1 step
  obtain ⟨-, -, -, -, h, -⟩ := isaExecute_eq_some running exec
  exact h

theorem isaStep_nop {s : IsaContext} {inst : Instruction} (running : s.halted = false)
    (fetch : isaFetch s = some inst) (nop : inst.opcode = .nop) :
    isaStep s = some { s with pc := s.pc + 4, cycles := s.cycles + 1 } := by
  simp [isaStep, running, fetch, isaExecute, isaEffect, nop, isaKeepsRegisters]

theorem halted_of_after {s t : IsaContext} {n : Nat} (running : s.halted = false)
    (run : after isaStep n s = some t) : t.halted = false := by
  induction n generalizing s with
  | zero => cases run; exact running
  | succ n ih =>
    rw [after, Option.bind_eq_some_iff] at run
    obtain ⟨u, step, rest⟩ := run
    exact ih (halted_of_isaStep running step) rest

/-! ## The end of a run -/

namespace IsaContext

/-- Both machines start at address 0, with any registers and any memory. -/
def start (registers : Reg → UInt32) (memory : Memory) : IsaContext :=
  { isaInit with registers := registers, memory := memory }

/-- From here on the interpreter fetches NOPs only. -/
def OnlyNops (s : IsaContext) : Prop :=
  (∃ inst, isaFetch s = some inst) ∧
    ∀ n t inst, after isaStep n s = some t → isaFetch t = some inst → inst.opcode = .nop

/-- Steps of the interpreter lead from `s` to `t`, where only NOPs are left. -/
def Finishes (s t : IsaContext) : Prop := (∃ n, after isaStep n s = some t) ∧ t.OnlyNops

/-- The program counter is behind the last instruction. -/
def Past (s : IsaContext) : Prop := 4092 < s.pc.toNat

theorem past_of_outside {s : IsaContext} (outside : inMemory s.pc = false) : s.Past := by
  have h : ¬ (s.pc.toNat + 4) % 4294967296 ≤ 4096 := by
    rw [← inMemory_iff, outside]
    simp
  unfold Past
  omega

/-- Behind the memory a defined fetch is a NOP, and after it the counter is still behind it. -/
theorem Past.step {s t : IsaContext} (past : s.Past) (running : s.halted = false)
    (step : isaStep s = some t) :
    isaFetch s = some (nopInstruction 0) ∧ t.Past ∧ t.registers = s.registers ∧
      t.memory = s.memory := by
  obtain ⟨inst, fetch, -⟩ := (isaStep_eq_some running).1 step
  have outside : inMemory s.pc = false := by
    cases inside : inMemory s.pc with
    | false => rfl
    | true =>
      have := le_of_isaFetch running inside fetch
      unfold Past at past
      omega
  have nop := isaFetch_of_outside outside
  rw [isaStep_nop running nop rfl] at step
  obtain rfl := Option.some.inj step
  have h : ¬ (s.pc.toNat + 4) % 4294967296 ≤ 4096 := by
    rw [← inMemory_iff, outside]
    simp
  refine ⟨nop, ?_, rfl, rfl⟩
  simp only [Past, UInt32.toNat_add, UInt32.reduceToNat]
  omega

theorem Past.run {s t : IsaContext} {n : Nat} (past : s.Past) (running : s.halted = false)
    (run : after isaStep n s = some t) :
    t.Past ∧ t.registers = s.registers ∧ t.memory = s.memory := by
  induction n generalizing s with
  | zero => cases run; exact ⟨past, rfl, rfl⟩
  | succ n ih =>
    rw [after, Option.bind_eq_some_iff] at run
    obtain ⟨u, step, rest⟩ := run
    obtain ⟨-, past', regs, mem⟩ := past.step running step
    have := ih past' (halted_of_isaStep running step) rest
    rwa [regs, mem] at this

/-- Outside the memory only NOPs are left. -/
theorem onlyNops_of_outside {s : IsaContext} (running : s.halted = false)
    (outside : inMemory s.pc = false) : s.OnlyNops := by
  refine ⟨⟨_, isaFetch_of_outside outside⟩, fun n t inst run fetch => ?_⟩
  have past := ((past_of_outside outside).run running run).1
  have halted := halted_of_after running run
  cases inside : inMemory t.pc with
  | true =>
    have := le_of_isaFetch halted inside fetch
    unfold Past at past
    omega
  | false =>
    rw [isaFetch_of_outside inside] at fetch
    cases fetch
    rfl

/-- NOPs lead out of the memory and change nothing on the way. -/
theorem OnlyNops.leaves {s : IsaContext} (nops : s.OnlyNops) (running : s.halted = false) :
    ∃ n t, after isaStep n s = some t ∧ inMemory t.pc = false ∧ t.registers = s.registers ∧
      t.memory = s.memory := by
  induction h : 4096 - s.pc.toNat using Nat.strongRecOn generalizing s with
  | ind d ih =>
    obtain ⟨⟨inst, fetch⟩, later⟩ := nops
    cases inside : inMemory s.pc with
    | false => exact ⟨0, s, rfl, inside, rfl, rfl⟩
    | true =>
      have le := le_of_isaFetch running inside fetch
      have step := isaStep_nop running fetch (later 0 s inst rfl fetch)
      set u : IsaContext := { s with pc := s.pc + 4, cycles := s.cycles + 1 } with hu
      have pc : u.pc.toNat = s.pc.toNat + 4 := by
        simp only [hu, UInt32.toNat_add, UInt32.reduceToNat]
        omega
      have next : ∃ inst, isaFetch u = some inst := by
        cases inside' : inMemory u.pc with
        | false => exact ⟨_, isaFetch_of_outside inside'⟩
        | true =>
          have : u.pc.toNat + 4 ≤ 4096 := by
            rw [inMemory_iff] at inside'
            omega
          obtain ⟨raw, load⟩ := loadWord_isSome_iff.2 this
          exact ⟨isaDecode raw, by rw [isaFetch_of_inMemory (s := u) running inside', load]; rfl⟩
      have nops' : u.OnlyNops :=
        ⟨next, fun n t i run => later (n + 1) t i (by rw [after_succ step, run])⟩
      obtain ⟨n, t, run, out, regs, mem⟩ := ih _ (by omega) nops' running rfl
      exact ⟨n + 1, t, by rw [after_succ step, run], out, regs, mem⟩

end IsaContext

/-! ## Contexts and instructions by index -/

/-- The context after `n` instructions. -/
def trace (s : IsaContext) (n : Nat) : IsaContext := (after isaStep n s).getD s

/-- The instruction executed in it. -/
def instAt (s : IsaContext) (n : Nat) : Instruction :=
  (isaFetch (trace s n)).getD (nopInstruction 0)

/-- The first `len` instructions lie in the memory and are defined; the next one is outside. -/
structure Program (s : IsaContext) (len : Nat) : Prop where
  inside : ∀ n < len, inMemory (trace s n).pc = true
  outside : inMemory (trace s len).pc = false
  fetch : ∀ n < len, isaFetch (trace s n) = some (instAt s n)
  exec : ∀ n < len, isaExecute (trace s n) (instAt s n) = some (trace s (n + 1))
  running : ∀ n ≤ len, (trace s n).halted = false

theorem trace_eq {s t : IsaContext} {n : Nat} (run : after isaStep n s = some t) :
    trace s n = t := by rw [trace, run]; rfl

theorem after_eq_trace {s : IsaContext} {n : Nat} (defined : (after isaStep n s).isSome = true) :
    after isaStep n s = some (trace s n) := by
  obtain ⟨t, run⟩ := Option.isSome_iff_exists.1 defined
  rw [trace_eq run, run]

/-- A run that finishes is that of a program, with the registers and the memory of its end. -/
theorem IsaContext.Finishes.program {s t : IsaContext} (finishes : s.Finishes t)
    (running : s.halted = false) :
    ∃ len, Program s len ∧ (trace s len).registers = t.registers ∧
      (trace s len).memory = t.memory := by
  obtain ⟨⟨k, run⟩, nops⟩ := finishes
  obtain ⟨j, u, run', out, regs, mem⟩ := nops.leaves (halted_of_after running run)
  have total : after isaStep (k + j) s = some u := by
    rw [after_add, run]
    exact run'
  have leaves : ∃ n, n ≤ k + j ∧ inMemory (trace s n).pc = false :=
    ⟨k + j, Nat.le_refl _, by rw [trace_eq total]; exact out⟩
  -- the program ends where the counter is first outside
  obtain ⟨le, outside⟩ := Nat.find_spec leaves
  set len := Nat.find leaves
  have at_trace : ∀ n ≤ k + j, after isaStep n s = some (trace s n) := by
    intro n le
    apply after_eq_trace
    exact Option.isSome_iff_exists.2 (after_isSome_of_le le total)
  have halted : ∀ n ≤ k + j, (trace s n).halted = false :=
    fun n le => halted_of_after running (at_trace n le)
  have step : ∀ n < len, isaStep (trace s n) = some (trace s (n + 1)) := by
    intro n lt
    have := at_trace (n + 1) (by omega)
    rw [after_snoc, at_trace n (by omega)] at this
    exact this
  have fetch : ∀ n < len, isaFetch (trace s n) = some (instAt s n) := by
    intro n lt
    obtain ⟨inst, h, -⟩ := (isaStep_eq_some (halted n (by omega))).1 (step n lt)
    rw [instAt, h]
    rfl
  refine ⟨len, ⟨fun n lt => ?_, outside, fetch, fun n lt => ?_, fun n h => halted n (by omega)⟩, ?_⟩
  · have := Nat.find_min leaves lt
    simp only [not_and, Bool.not_eq_false] at this
    exact this (by omega)
  · obtain ⟨inst, h, exec⟩ := (isaStep_eq_some (halted n (by omega))).1 (step n lt)
    rw [fetch n lt] at h
    obtain rfl := Option.some.inj h
    exact exec
  · -- nothing changes between the end of the program and `u`
    have rest : after isaStep (k + j - len) (trace s len) = some u := by
      have := total
      rw [show k + j = len + (k + j - len) by omega, after_add, at_trace len le] at this
      exact this
    obtain ⟨-, regs', mem'⟩ := (IsaContext.past_of_outside outside).run (halted len le) rest
    exact ⟨by rw [← regs', regs], by rw [← mem', mem]⟩

end MiniHardware.Cpu
