import Mathlib.Data.Set.BooleanAlgebra
import Mathlib.Order.CompletePartialOrder
import Mathlib.Order.Interval.Set.Disjoint
import Mathlib.Order.Nat
import MiniHardware.Accel.Tpu
import MiniHardware.Lib.Trace

/-!
# Regions of the unified buffer (`mini-ai-accelerator/src/tpu_isa.c`)

`tpuUbAlloc` moves a pointer up, and a loaded program lies at the start of the
same buffer. A history keeps what the allocations returned since the last free
and how many bytes of the buffer `tpuStep` fetches a program from.
-/

namespace MiniHardware.Accel
open Lib

/-! ## Histories -/

section Histories

structure UbRegion where
  addr : UInt32
  size : UInt32

def UbRegion.bytes (r : UbRegion) : Set Nat := Set.Ico r.addr.toNat (r.addr.toNat + r.size.toNat)

structure UbHistory where
  tpu : TPUCore
  regions : List UbRegion
  programBytes : Nat

inductive UbOp where
  | loadProgram (prog : List TPUInstruction)
  | ubAlloc (sizeBytes : UInt32)
  | ubFree

def UbHistory.init (ubSizeMb : UInt32) : UbHistory := ⟨tpuInit ubSizeMb, [], 0⟩

/-- A program that is too large is not fetched: `tpuStep` does nothing. -/
def UbHistory.step (h : UbHistory) (op : UbOp) : UbHistory :=
  match op with
  | .loadProgram prog =>
    let tpu := tpuLoadProgram h.tpu prog
    { h with tpu, programBytes := if tpu.running then 4 * instructionWords * prog.length else 0 }
  | .ubAlloc sizeBytes =>
    let (addr, tpu) := tpuUbAlloc h.tpu sizeBytes
    { h with tpu, regions := if addr = -1 then h.regions else ⟨addr, sizeBytes⟩ :: h.regions }
  | .ubFree => { h with tpu := tpuUbFree h.tpu, regions := [] }

/-- What a successful allocation promises. -/
structure UbRegion.Sound (r : UbRegion) (h : UbHistory) : Prop where
  aligned : r.addr.toNat % 64 = 0
  inside : r.addr.toNat + r.size.toNat ≤ h.tpu.ubSize.toNat
  fresh : ∀ old ∈ h.regions, Disjoint r.bytes old.bytes
  offProgram : Disjoint r.bytes (Set.Iio h.programBytes)

def AllocSound (h : UbHistory) : UbOp → Prop
  | .ubAlloc sizeBytes =>
    let addr := (tpuUbAlloc h.tpu sizeBytes).1
    addr ≠ -1 → UbRegion.Sound ⟨addr, sizeBytes⟩ h
  | _ => True

/-- Where the next region ends, counted without overflow. -/
def regionEnd (h : UbHistory) (sizeBytes : UInt32) : Nat :=
  h.tpu.ubAllocPtr.toNat + 64 * ((sizeBytes.toNat + 63) / 64)

/-- A region that fits does not begin inside the program, and one that is too large
does not seem to fit. -/
def AllocRoom (h : UbHistory) : UbOp → Prop
  | .ubAlloc sizeBytes =>
    (regionEnd h sizeBytes ≤ h.tpu.ubSize.toNat → sizeBytes = 0 ∨ h.programBytes ≤ h.tpu.ubAllocPtr.toNat) ∧
      (2 ^ 32 ≤ regionEnd h sizeBytes → h.tpu.ubSize.toNat < regionEnd h sizeBytes % 2 ^ 32)
  | _ => True

structure UbHistory.Ok (h : UbHistory) : Prop where
  aligned : h.tpu.ubAllocPtr.toNat % 64 = 0
  inside : h.tpu.ubAllocPtr.toNat ≤ h.tpu.ubSize.toNat
  small : h.tpu.ubSize.toNat ≤ 24 * 2 ^ 20
  below : ∀ r ∈ h.regions, r.addr.toNat + r.size.toNat ≤ h.tpu.ubAllocPtr.toNat

end Histories

/-! ## One allocation -/

section Alloc

theorem toNat_roundUp (sizeBytes : UInt32) :
    ((sizeBytes + 63) &&& ~~~63).toNat = 64 * ((sizeBytes.toNat + 63) / 64) % 2 ^ 32 := by
  have mask : (~~~63 : UInt32).toNat = 2 ^ 32 - 2 ^ 6 := rfl
  have sum : (sizeBytes + 63).toNat = (sizeBytes.toNat + 63) % 2 ^ 32 := UInt32.toNat_add ..
  rw [UInt32.toNat_and, mask, sum]
  have rest : ((sizeBytes.toNat + 63) % 2 ^ 32 &&& (2 ^ 32 - 2 ^ 6)) % 2 ^ 6 = 0 := by
    rw [Nat.and_mod_two_pow]
    exact Nat.and_zero _
  have quotient : ((sizeBytes.toNat + 63) % 2 ^ 32 &&& (2 ^ 32 - 2 ^ 6)) / 2 ^ 6 = (sizeBytes.toNat + 63) % 2 ^ 32 / 2 ^ 6 := by
    rw [Nat.and_div_two_pow]
    have ones : (2 ^ 32 - 2 ^ 6) / 2 ^ 6 = 2 ^ 26 - 1 := rfl
    rw [ones, Nat.and_two_pow_sub_one_eq_mod]
    omega
  have := sizeBytes.toNat_lt
  omega

variable {h : UbHistory}

theorem tpuUbAlloc_eq (h : UbHistory) (sizeBytes : UInt32) :
    tpuUbAlloc h.tpu sizeBytes =
      if h.tpu.ubSize.toNat < regionEnd h sizeBytes % 2 ^ 32 then (-1, h.tpu)
      else (h.tpu.ubAllocPtr, { h.tpu with ubAllocPtr := UInt32.ofNat (regionEnd h sizeBytes) }) := by
  have moved : h.tpu.ubAllocPtr + ((sizeBytes + 63) &&& ~~~63) = UInt32.ofNat (regionEnd h sizeBytes) := by
    rw [← UInt32.toNat_inj, UInt32.toNat_add, toNat_roundUp, UInt32.toNat_ofNat', Nat.add_mod_mod]
    rfl
  have limit : UInt32.ofNat (regionEnd h sizeBytes) > h.tpu.ubSize ↔
      h.tpu.ubSize.toNat < regionEnd h sizeBytes % 2 ^ 32 := by
    rw [gt_iff_lt, UInt32.lt_iff_toNat_lt, UInt32.toNat_ofNat']
  simp only [tpuUbAlloc, moved, limit]

variable {h : UbHistory}

/-- A region ends in the buffer, or it is one that only overflow makes fit. -/
theorem regionEnd_of_fits {sizeBytes : UInt32} (fits : ¬ h.tpu.ubSize.toNat < regionEnd h sizeBytes % 2 ^ 32) :
    regionEnd h sizeBytes ≤ h.tpu.ubSize.toNat ∨ 2 ^ 32 ≤ regionEnd h sizeBytes := by
  omega

theorem disjoint_program_iff {r : UbRegion} {n : Nat} :
    Disjoint r.bytes (Set.Iio n) ↔ r.size = 0 ∨ n ≤ r.addr.toNat := by
  have empty : r.size = 0 ↔ r.size.toNat = 0 := by rw [← UInt32.toNat_inj, UInt32.toNat_zero]
  have start : Set.Iio n = Set.Ico 0 n := (Set.Ico_bot (a := n)).symm
  rw [empty, start, UbRegion.bytes, Set.Ico_disjoint_Ico]
  omega

theorem allocSound_iff (ok : h.Ok) (op : UbOp) : AllocSound h op ↔ AllocRoom h op := by
  cases op with
  | loadProgram prog => exact Iff.rfl
  | ubFree => exact Iff.rfl
  | ubAlloc sizeBytes =>
    obtain ⟨aligned, inside, small, below⟩ := ok
    simp only [AllocSound, AllocRoom, tpuUbAlloc_eq]
    by_cases full : h.tpu.ubSize.toNat < regionEnd h sizeBytes % 2 ^ 32
    · rw [if_pos full]
      have large : ¬ regionEnd h sizeBytes ≤ h.tpu.ubSize.toNat := by omega
      exact ⟨fun _ => ⟨fun fits => absurd fits large, fun _ => full⟩, fun _ ne => absurd rfl ne⟩
    · rw [if_neg full]
      have returned : h.tpu.ubAllocPtr ≠ -1 := by
        intro eq
        rw [eq] at inside
        have top : (-1 : UInt32).toNat = 2 ^ 32 - 1 := rfl
        omega
      rcases regionEnd_of_fits full with fits | large
      · have sound : UbRegion.Sound ⟨h.tpu.ubAllocPtr, sizeBytes⟩ h ↔
            sizeBytes = 0 ∨ h.programBytes ≤ h.tpu.ubAllocPtr.toNat := by
          rw [← disjoint_program_iff (r := ⟨h.tpu.ubAllocPtr, sizeBytes⟩)]
          refine ⟨UbRegion.Sound.offProgram, fun offProgram => ⟨aligned, ?_, fun old mem => ?_, offProgram⟩⟩
          · unfold regionEnd at fits
            simp only
            omega
          · have := below old mem
            rw [UbRegion.bytes, UbRegion.bytes, Set.Ico_disjoint_Ico]
            simp only
            omega
        have no_overflow : ¬ 2 ^ 32 ≤ regionEnd h sizeBytes := by omega
        constructor
        · intro all
          exact ⟨fun _ => sound.1 (all returned), fun large => absurd large no_overflow⟩
        · intro room _
          exact sound.2 (room.1 fits)
      · have outside : ¬ UbRegion.Sound ⟨h.tpu.ubAllocPtr, sizeBytes⟩ h := by
          intro sound
          have := sound.inside
          unfold regionEnd at large
          simp only at this
          omega
        constructor
        · intro all
          exact absurd (all returned) outside
        · intro room
          exact absurd (room.2 large) full

end Alloc

/-! ## Stores -/

section Stores
variable {tpu tpu' : TPUCore} {inst : TPUInstruction} {status : Int}

/-- A store changes no word before its destination, and none at all where it has no length. -/
theorem tpuExecute_store (store : inst.opcode = .store) (done : tpuExecute tpu inst = some (status, tpu')) {w : Nat}
    (before : inst.sizeBytes = 0 ∨ w < (inst.dstAddr / 4).toNat) :
    tpu'.unifiedBuffer[w]? = tpu.unifiedBuffer[w]? := by
  simp only [tpuExecute, store] at done
  obtain ⟨unifiedBuffer, written, eq⟩ := Option.bind_eq_some_iff.1 done
  obtain rfl : { tpu with unifiedBuffer } = tpu' := congrArg Prod.snd (Option.some.inj eq)
  rcases before with empty | before
  · have none : accumulatorRange inst = [] := by
      rw [accumulatorRange, empty]
      rfl
    rw [none] at written
    exact congrArg (·[w]?) (Option.some.inj written).symm
  · refine foldlM_range_some (fun _ ub => ub[w]? = tpu.unifiedBuffer[w]?) ?_ rfl written
    intro i ub ub' _ same round
    obtain ⟨v, -, write⟩ := Option.bind_eq_some_iff.1 round
    rw [writeAt] at write
    split at write
    case isFalse => cases write
    case isTrue =>
      obtain rfl := Option.some.inj write
      rw [List.getElem?_set_ne (by omega)]
      exact same

/-- What is stored in an allocated region leaves the loaded program alone. -/
theorem programAt_store {h : UbHistory} {r : UbRegion} (sound : r.Sound h) (store : inst.opcode = .store)
    (dst : inst.dstAddr = r.addr) (size : inst.sizeBytes ≤ r.size)
    (done : tpuExecute h.tpu inst = some (status, tpu')) {pc : Nat}
    (loaded : 4 * instructionWords * (pc + 1) ≤ h.programBytes) : programAt tpu' pc = programAt h.tpu pc := by
  have place : inst.sizeBytes = 0 ∨ h.programBytes ≤ inst.dstAddr.toNat := by
    rw [dst]
    refine (disjoint_program_iff.1 sound.offProgram).imp_left fun empty => ?_
    rw [empty] at size
    exact UInt32.le_zero_iff.1 size
  have word : (inst.dstAddr / 4).toNat = inst.dstAddr.toNat / 4 := UInt32.toNat_div ..
  rw [programAt, programAt]
  congr 1
  refine List.ext_getElem? fun k => ?_
  rw [List.getElem?_take, List.getElem?_take]
  split
  case isFalse => rfl
  case isTrue lt =>
    rw [List.getElem?_drop, List.getElem?_drop]
    refine tpuExecute_store store done (place.imp_right fun le => ?_)
    unfold instructionWords at *
    omega

end Stores

/-! ## Whole histories -/

section Runs

@[simp] theorem tpuLoadProgram_ubSize (tpu : TPUCore) (prog : List TPUInstruction) :
    (tpuLoadProgram tpu prog).ubSize = tpu.ubSize := by
  unfold tpuLoadProgram
  simp only
  split <;> rfl

@[simp] theorem tpuLoadProgram_ubAllocPtr (tpu : TPUCore) (prog : List TPUInstruction) :
    (tpuLoadProgram tpu prog).ubAllocPtr = tpu.ubAllocPtr := by
  unfold tpuLoadProgram
  simp only
  split <;> rfl

theorem UbHistory.ok_init (ubSizeMb : UInt32) : (init ubSizeMb).Ok where
  aligned := rfl
  inside := Nat.zero_le _
  small := by
    have megabytes : (if ubSizeMb > tpuUbMaxMb then tpuUbMaxMb else ubSizeMb).toNat ≤ 24 := by
      split
      case isTrue => exact Nat.le_refl _
      case isFalse le => exact UInt32.le_iff_toNat_le.1 (UInt32.not_lt.1 le)
    have size : (init ubSizeMb).tpu.ubSize = (if ubSizeMb > tpuUbMaxMb then tpuUbMaxMb else ubSizeMb) * 1024 * 1024 := rfl
    rw [size, UInt32.toNat_mul, UInt32.toNat_mul]
    have kilo : (1024 : UInt32).toNat = 1024 := rfl
    rw [kilo]
    omega
  below r mem := by cases mem

theorem UbHistory.Ok.step {h : UbHistory} {op : UbOp} (ok : h.Ok) (room : AllocRoom h op) : (h.step op).Ok := by
  obtain ⟨aligned, inside, small, below⟩ := ok
  cases op with
  | loadProgram prog =>
    constructor
    · simpa [UbHistory.step] using aligned
    · simpa [UbHistory.step] using inside
    · simpa [UbHistory.step] using small
    · simpa [UbHistory.step] using below
  | ubFree =>
    exact ⟨rfl, Nat.zero_le _, small, fun r mem => by cases mem⟩
  | ubAlloc sizeBytes =>
    simp only [UbHistory.step, tpuUbAlloc_eq]
    by_cases full : h.tpu.ubSize.toNat < regionEnd h sizeBytes % 2 ^ 32
    · rw [if_pos full]
      exact ⟨aligned, inside, small, below⟩
    · rw [if_neg full]
      have fits := (regionEnd_of_fits full).resolve_right fun large => full (room.2 large)
      have moved : (UInt32.ofNat (regionEnd h sizeBytes)).toNat = regionEnd h sizeBytes := by
        rw [UInt32.toNat_ofNat', Nat.mod_eq_of_lt (by omega)]
      constructor
      · simp only [moved]
        unfold regionEnd
        omega
      · simp only [moved]
        exact fits
      · exact small
      · simp only [moved]
        unfold regionEnd
        intro r mem
        split at mem
        case isTrue =>
          have := below r mem
          omega
        case isFalse =>
          rcases List.mem_cons.1 mem with rfl | old
          · simp only
            omega
          · have := below r old
            omega

theorem tpu_ub_alloc_sound_iff (ubSizeMb : UInt32) (ops : List UbOp) :
    (∀ before op rest, ops = before ++ op :: rest →
      AllocSound (run UbHistory.step (.init ubSizeMb) before) op) ↔
        Guarded UbHistory.step AllocRoom (.init ubSizeMb) ops := by
  rw [← guarded_iff_splits]
  exact guarded_congr UbHistory.Ok (fun _ op ok => allocSound_iff ok op) (fun _ _ ok room => ok.step room)
    (UbHistory.ok_init ubSizeMb)

/-- A region that begins inside the program, and one of 4 GiB in a buffer of 1 MiB. -/
theorem tpu_ub_alloc_overlaps :
    ¬ AllocSound (run UbHistory.step (.init 1) [.loadProgram [⟨.sync, .relu, 0, 0, 0, 0, 0, 0⟩]]) (.ubAlloc 64) ∧
      ¬ AllocSound (.init 1) (.ubAlloc 0xFFFFFFFF) := by
  have start := UbHistory.ok_init 1
  have loaded : ((UbHistory.init 1).step (.loadProgram [⟨.sync, .relu, 0, 0, 0, 0, 0, 0⟩])).Ok := start.step trivial
  constructor
  · rw [run_cons, run_nil, allocSound_iff loaded]
    intro room
    exact absurd (room.1 (by decide)) (by decide)
  · rw [allocSound_iff start]
    intro room
    exact absurd (room.2 (by decide)) (by decide)

end Runs

end MiniHardware.Accel
