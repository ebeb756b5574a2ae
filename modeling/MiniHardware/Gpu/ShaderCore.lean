import Mathlib.Algebra.BigOperators.Fin
import Mathlib.Algebra.Order.BigOperators.Group.Finset
import MiniHardware.Lib.LongWords
import MiniHardware.Lib.Trace
import MiniHardware.Gpu.Warp

/-!
# Thread blocks of a streaming multiprocessor (`mini-gpu-arch/src/shader_core.c`)

`sm_allocate_block` takes the number of active warps for the first warp of the
new block. Blocks end in any order, so that this warp may belong to a block
which is still active. The block slots are searched, and given back, up to
`num_warps`, which is more than there are, and the resources are counted in
`int`s that nothing keeps positive. `sm_blocks_sound_iff` says which calls keep
the bookkeeping sound.
-/

namespace MiniHardware.Gpu
open Lib

/-- `SM_MAX_WARPS`. -/
abbrev smMaxWarps : Nat := 64

/-- `SM_MAX_THREAD_BLOCKS`. -/
abbrev smMaxThreadBlocks : Nat := 32

inductive SMComputeCap where
  | cc70 | cc75 | cc80 | cc90
deriving DecidableEq

structure SMBlock where
  blockId : Int
  blockDimX : Int32
  blockDimY : Int32
  blockDimZ : Int32
  numWarps : Int
  warpBase : Int
  sharedMemAlloc : Int32
  registersPerThread : Int32
  active : Bool

structure ShaderCore where
  computeCap : SMComputeCap
  numWarps : Int
  warps : Fin smMaxWarps → Warp
  numActiveWarps : Int
  numBlocks : Int
  blocks : Fin smMaxThreadBlocks → SMBlock
  totalRegisters : Int
  usedRegisters : Int
  totalSharedMem : Int
  usedSharedMem : Int

/-- The limits of warps, registers, shared memory and blocks. -/
def smLimits : SMComputeCap → Int × Int × Int × Int
  | .cc70 => (64, 65536, 49152, 32)
  | .cc75 => (64, 65536, 65536, 32)
  | .cc80 => (64, 65536, 102400, 32)
  | .cc90 => (64, 65536, 131072, 32)

/-- A block of zeros. -/
def SMBlock.zero : SMBlock where
  blockId := 0
  blockDimX := 0
  blockDimY := 0
  blockDimZ := 0
  numWarps := 0
  warpBase := 0
  sharedMemAlloc := 0
  registersPerThread := 0
  active := false

def smCreate (cc : SMComputeCap) : ShaderCore where
  computeCap := cc
  numWarps := (smLimits cc).1
  warps i := warpCreate i.val
  numActiveWarps := 0
  numBlocks := 0
  blocks _ := .zero
  totalRegisters := (smLimits cc).2.1
  usedRegisters := 0
  totalSharedMem := (smLimits cc).2.2.1
  usedSharedMem := 0

/-- The search for a free slot, which reads `blocks[i]` also past the array. -/
def findBlockSlot (sm : ShaderCore) : List Nat → Option (Option (Fin smMaxThreadBlocks))
  | [] => some none
  | i :: rest =>
    if h : i < smMaxThreadBlocks then
      if (sm.blocks ⟨i, h⟩).active then findBlockSlot sm rest else some (some ⟨i, h⟩)
    else none

/-- One round of the loop over the warps of a new block. -/
def initWarp (warpBase : Int) (sm : ShaderCore) (w : Nat) : Option ShaderCore :=
  let warpId := warpBase + w
  if h : 0 ≤ warpId ∧ warpId.toNat < smMaxWarps then
    let slot : Fin smMaxWarps := ⟨warpId.toNat, h.2⟩
    some { sm with
      warps := Function.update sm.warps slot { warpReset (sm.warps slot) with warpId := warpId.toNat } }
  else none

/-- The arguments of `sm_allocate_block`. -/
structure BlockArgs where
  blockDimX : Int32
  blockDimY : Int32
  blockDimZ : Int32
  shmemBytes : Int32
  regsPerThread : Int32

namespace BlockArgs

variable (a : BlockArgs)

def totalThreads : Int := a.blockDimX.toInt * a.blockDimY.toInt * a.blockDimZ.toInt

def warpsNeeded : Int := (a.totalThreads + warpSize - 1) / warpSize

def regsNeeded : Int := a.warpsNeeded * warpSize * a.regsPerThread.toInt

end BlockArgs

/-- What is written to a free slot. -/
def newBlock (sm : ShaderCore) (a : BlockArgs) (slot : Fin smMaxThreadBlocks) : SMBlock where
  blockId := slot.val
  blockDimX := a.blockDimX
  blockDimY := a.blockDimY
  blockDimZ := a.blockDimZ
  numWarps := a.warpsNeeded
  warpBase := sm.numActiveWarps
  sharedMemAlloc := a.shmemBytes
  registersPerThread := a.regsPerThread
  active := true

/-- The block in a free slot, with the sums that were compared to the totals. -/
def placeBlock (sm : ShaderCore) (a : BlockArgs) (slot : Fin smMaxThreadBlocks) (regs shared : Int) : ShaderCore :=
  { sm with
    blocks := Function.update sm.blocks slot (newBlock sm a slot)
    numActiveWarps := sm.numActiveWarps + a.warpsNeeded
    usedRegisters := regs
    usedSharedMem := shared
    numBlocks := sm.numBlocks + 1 }

def smAllocateBlock (sm : ShaderCore) (a : BlockArgs) : Option (Int × ShaderCore) :=
  (checked (a.blockDimX.toInt * a.blockDimY.toInt)).bind fun area =>
  (checked (area * a.blockDimZ.toInt)).bind fun totalThreads =>
  if totalThreads ≤ 0 ∨ 1024 < totalThreads then some (-1, sm) else
  let warpsNeeded := (totalThreads + warpSize - 1) / warpSize
  (checked (warpsNeeded * warpSize * a.regsPerThread.toInt)).bind fun regsNeeded =>
  (checked (sm.numWarps - sm.numActiveWarps)).bind fun freeWarps =>
  if freeWarps < warpsNeeded then some (-1, sm) else
  (checked (sm.usedRegisters + regsNeeded)).bind fun regs =>
  if sm.totalRegisters < regs then some (-1, sm) else
  (checked (sm.usedSharedMem + a.shmemBytes.toInt)).bind fun shared =>
  if sm.totalSharedMem < shared then some (-1, sm) else
  (findBlockSlot sm (List.range sm.numWarps.toNat)).bind fun
    | none => some (-1, sm)
    | some slot =>
      ((List.range warpsNeeded.toNat).foldlM (initWarp sm.numActiveWarps) (placeBlock sm a slot regs shared)).map
        fun sm => (slot.val, sm)

def smDeallocateBlock (sm : ShaderCore) (blockId : Int32) : Option ShaderCore :=
  if blockId.toInt < 0 ∨ sm.numWarps ≤ blockId.toInt then some sm else
  if h : blockId.toInt.toNat < smMaxThreadBlocks then
    let b := sm.blocks ⟨blockId.toInt.toNat, h⟩
    if !b.active then some sm else
    (checked (sm.numActiveWarps - b.numWarps)).bind fun numActiveWarps =>
    (checked (b.numWarps * warpSize * b.registersPerThread.toInt)).bind fun regs =>
    (checked (sm.usedRegisters - regs)).bind fun usedRegisters =>
    (checked (sm.usedSharedMem - b.sharedMemAlloc.toInt)).bind fun usedSharedMem =>
    some { sm with
      numActiveWarps := numActiveWarps
      usedRegisters := usedRegisters
      usedSharedMem := usedSharedMem
      numBlocks := sm.numBlocks - 1
      blocks := Function.update sm.blocks ⟨blockId.toInt.toNat, h⟩ { b with active := false } }
  else none

inductive SmCall where
  | allocateBlock (a : BlockArgs)
  | deallocateBlock (blockId : Int32)

/-- A call on an SM, undefined after an index past an array or an overflow. -/
def smStep (s : Option ShaderCore) (call : SmCall) : Option ShaderCore :=
  s.bind fun sm =>
    match call with
    | .allocateBlock a => (smAllocateBlock sm a).map Prod.snd
    | .deallocateBlock blockId => smDeallocateBlock sm blockId

/-! ## Sound bookkeeping -/

namespace SMBlock

/-- The registers of the warps of a block. -/
def registers (b : SMBlock) : Int := b.numWarps * warpSize * b.registersPerThread.toInt

/-- An active block with the warp in its range. -/
def Holds (b : SMBlock) (w : Int) : Prop := b.active = true ∧ b.warpBase ≤ w ∧ w < b.warpBase + b.numWarps

/-- What an active block takes of a resource. -/
def held (amount : SMBlock → Int) (b : SMBlock) : Int := if b.active then amount b else 0

end SMBlock

namespace ShaderCore

/-- The sum over the active blocks. -/
def total (sm : ShaderCore) (amount : SMBlock → Int) : Int := ∑ i, (sm.blocks i).held amount

/-- The ranges of the active blocks are disjoint and below the number of warps, and the three counters
are the sums over the active blocks and within the totals. -/
structure Sound (sm : ShaderCore) : Prop where
  disjoint : ∀ i j w, (sm.blocks i).Holds w → (sm.blocks j).Holds w → i = j
  below : ∀ i w, (sm.blocks i).Holds w → 0 ≤ w ∧ w < sm.numWarps
  warps : sm.numActiveWarps = sm.total SMBlock.numWarps
  registers : sm.usedRegisters = sm.total SMBlock.registers
  shared : sm.usedSharedMem = sm.total fun b => b.sharedMemAlloc.toInt
  warps_le : sm.numActiveWarps ≤ sm.numWarps
  registers_le : sm.usedRegisters ≤ sm.totalRegisters
  shared_le : sm.usedSharedMem ≤ sm.totalSharedMem

end ShaderCore

/-- The calls so far are defined and leave the bookkeeping sound. -/
def SmSound (s : Option ShaderCore) : Prop := ∃ sm, s = some sm ∧ sm.Sound

/-- The sums are `int`s, and if the resources suffice, a slot is free and no active block has one of
the warps from the number of active warps on. -/
def AllocateOk (sm : ShaderCore) (a : BlockArgs) : Prop :=
  FitsInt (a.blockDimX.toInt * a.blockDimY.toInt) ∧ FitsInt a.totalThreads ∧
  (¬ (a.totalThreads ≤ 0 ∨ 1024 < a.totalThreads) → FitsInt a.regsNeeded ∧
  (¬ sm.numWarps - sm.numActiveWarps < a.warpsNeeded → FitsInt (sm.usedRegisters + a.regsNeeded) ∧
  (¬ sm.totalRegisters < sm.usedRegisters + a.regsNeeded → FitsInt (sm.usedSharedMem + a.shmemBytes.toInt) ∧
  (¬ sm.totalSharedMem < sm.usedSharedMem + a.shmemBytes.toInt →
    (∃ i, (sm.blocks i).active = false) ∧
    ∀ i w, (sm.blocks i).Holds w → ¬ (sm.numActiveWarps ≤ w ∧ w < sm.numActiveWarps + a.warpsNeeded)))))

/-- The index is no slot number from 32 to 63, and without the block the sums are `int`s within the totals. -/
def DeallocateOk (sm : ShaderCore) (blockId : Int32) : Prop :=
  0 ≤ blockId.toInt → blockId.toInt < sm.numWarps → ∃ h : blockId.toInt.toNat < smMaxThreadBlocks,
    let b := sm.blocks ⟨blockId.toInt.toNat, h⟩
    b.active = true →
      FitsInt (sm.usedRegisters - b.registers) ∧ sm.usedRegisters - b.registers ≤ sm.totalRegisters ∧
      FitsInt (sm.usedSharedMem - b.sharedMemAlloc.toInt) ∧
      sm.usedSharedMem - b.sharedMemAlloc.toInt ≤ sm.totalSharedMem

/-- A call that keeps the bookkeeping sound. -/
def SmCallOk (s : Option ShaderCore) (call : SmCall) : Prop :=
  ∀ sm, s = some sm →
    match call with
    | .allocateBlock a => AllocateOk sm a
    | .deallocateBlock blockId => DeallocateOk sm blockId

/-! ## One call -/

variable {sm : ShaderCore} {a : BlockArgs} {amount : SMBlock → Int} {i : Fin smMaxThreadBlocks} {b : SMBlock}

theorem SMBlock.held_of_active (active : b.active = true) : b.held amount = amount b := if_pos active

theorem SMBlock.held_of_inactive (inactive : b.active = false) : b.held amount = 0 := by
  rw [SMBlock.held, inactive]
  exact if_neg Bool.false_ne_true

namespace ShaderCore

/-- The sum over the slots when one slot gets another block. -/
theorem total_update (blocks : Fin smMaxThreadBlocks → SMBlock) (slots : sm.blocks = Function.update blocks i b) :
    sm.total amount = ∑ j, (blocks j).held amount - (blocks i).held amount + b.held amount := by
  have others : ∑ j ∈ Finset.univ.erase i, (Function.update blocks i b j).held amount =
      ∑ j ∈ Finset.univ.erase i, (blocks j).held amount := by
    apply Finset.sum_congr rfl
    intro j mem
    rw [Function.update_of_ne (Finset.ne_of_mem_erase mem)]
  rw [total, slots, ← Finset.add_sum_erase _ _ (Finset.mem_univ i), others,
    ← Finset.add_sum_erase (a := i) _ (fun j => (blocks j).held amount) (Finset.mem_univ i), Function.update_self]
  omega

/-- What the calls keep: the number of warps, and of each active block a number of warps and of registers
that are computed without overflow. -/
structure Inv (sm : ShaderCore) : Prop where
  sound : sm.Sound
  numWarps : sm.numWarps = 64
  sized : ∀ i, (sm.blocks i).active = true → 0 < (sm.blocks i).numWarps ∧ (sm.blocks i).numWarps ≤ 64
  fits : ∀ i, (sm.blocks i).active = true → FitsInt (sm.blocks i).registers

theorem Inv.numActiveWarps_nonneg (inv : sm.Inv) : 0 ≤ sm.numActiveWarps := by
  rw [inv.sound.warps]
  apply Finset.sum_nonneg
  intro i _
  cases active : (sm.blocks i).active with
  | true =>
    rw [SMBlock.held_of_active active]
    exact (inv.sized i active).1.le
  | false => rw [SMBlock.held_of_inactive active]

end ShaderCore

/-- A call whose outcome keeps the invariant if the condition holds, and else breaks the bookkeeping. -/
structure Decides {α : Type} (view : α → ShaderCore) (outcome : Option α) (ok : Prop) : Prop where
  keeps : ok → ∃ r, outcome = some r ∧ (view r).Inv
  breaks : ¬ ok → ¬ SmSound (outcome.map view)

namespace Decides

variable {α : Type} {view : α → ShaderCore} {ok : Prop}

theorem bind_checked {x : Int} {f : Int → Option α} (next : FitsInt x → Decides view (f x) ok) :
    Decides view ((checked x).bind f) (FitsInt x ∧ ok) := by
  by_cases fits : FitsInt x
  · rw [checked_of_fits fits, Option.bind_some]
    refine ⟨fun h => (next fits).keeps h.2, fun no => (next fits).breaks fun h => no ⟨fits, h⟩⟩
  · rw [checked_of_not_fits fits, Option.bind_none]
    refine ⟨fun h => absurd h.1 fits, ?_⟩
    rintro - ⟨sm, eq, -⟩
    cases eq

theorem ite {p : Prop} [Decidable p] {r : α} {rest : Option α} (inv : (view r).Inv)
    (next : ¬ p → Decides view rest ok) : Decides view (if p then some r else rest) (¬ p → ok) := by
  by_cases h : p
  · rw [if_pos h]
    exact ⟨fun _ => ⟨r, rfl, inv⟩, fun no => absurd (fun not => absurd h not) no⟩
  · rw [if_neg h]
    exact ⟨fun implied => (next h).keeps (implied h), fun no => (next h).breaks fun holds => no fun _ => holds⟩

end Decides

/-- The search finds a slot that is free. -/
theorem findBlockSlot_free {l : List Nat} (found : findBlockSlot sm l = some (some i)) :
    (sm.blocks i).active = false := by
  induction l with
  | nil => cases found
  | cons j rest ih =>
    rw [findBlockSlot] at found
    split at found
    · split at found
      · exact ih found
      · rename_i free
        obtain rfl := Option.some.inj (Option.some.inj found)
        exact Bool.eq_false_of_not_eq_true free
    · cases found

/-- A search in order of the slots finds one before it leaves the array, if there is one. -/
theorem findBlockSlot_isSome {l : List Nat} (sorted : l.Pairwise (· < ·)) (mem : i.val ∈ l)
    (free : (sm.blocks i).active = false) : ∃ slot, findBlockSlot sm l = some (some slot) := by
  induction l with
  | nil => cases mem
  | cons j rest ih =>
    rw [List.pairwise_cons] at sorted
    have le : j ≤ i.val := by
      rcases List.mem_cons.1 mem with eq | later
      · exact eq.ge
      · exact (sorted.1 _ later).le
    have lt : j < smMaxThreadBlocks := Nat.lt_of_le_of_lt le i.isLt
    rw [findBlockSlot, dif_pos lt]
    split
    · rename_i active
      apply ih sorted.2
      rcases List.mem_cons.1 mem with eq | later
      · subst eq
        rw [free] at active
        cases active
      · exact later
    · exact ⟨_, rfl⟩

/-- A search past the array has no result when all the slots are taken. -/
theorem findBlockSlot_full {l : List Nat} (past : ∃ j ∈ l, smMaxThreadBlocks ≤ j)
    (full : ∀ i, (sm.blocks i).active = true) : findBlockSlot sm l = none := by
  induction l with
  | nil => simp at past
  | cons j rest ih =>
    rw [findBlockSlot]
    split
    · rename_i lt
      rw [if_pos (full _)]
      apply ih
      obtain ⟨k, mem, ge⟩ := past
      rcases List.mem_cons.1 mem with rfl | later
      · exact absurd lt (Nat.not_lt.2 ge)
      · exact ⟨k, later, ge⟩
    · rfl

/-- The loop over the warps of a block changes the warps only. -/
theorem initWarps_eq (sm : ShaderCore) {warpBase : Int} {count : Nat} (base : 0 ≤ warpBase)
    (le : warpBase + count ≤ 64) :
    ∃ warps, (List.range count).foldlM (initWarp warpBase) sm = some { sm with warps := warps } := by
  have keep : ∀ w ∈ List.range count, ∀ s : ShaderCore, (∃ warps, s = { sm with warps := warps }) →
      ∃ s', initWarp warpBase s w = some s' ∧ ∃ warps, s' = { sm with warps := warps } := by
    rintro w mem s ⟨warps, rfl⟩
    have lt : w < count := List.mem_range.1 mem
    have bounds : 0 ≤ warpBase + (w : Int) ∧ (warpBase + (w : Int)).toNat < smMaxWarps := by
      show _ ∧ _ < 64
      omega
    exact ⟨_, dif_pos bounds, _, rfl⟩
  obtain ⟨sm', run, warps, eq⟩ := foldlM_invariant keep ⟨sm.warps, rfl⟩
  exact ⟨warps, by rw [run, eq]⟩

namespace ShaderCore

variable {slot : Fin smMaxThreadBlocks} {regs shared : Int}

/-- A new block, of warps that no active block has, in a free slot. -/
theorem Inv.place (inv : sm.Inv) (free : (sm.blocks slot).active = false) (pos : 0 < a.warpsNeeded)
    (room : a.warpsNeeded ≤ sm.numWarps - sm.numActiveWarps) (fits : FitsInt a.regsNeeded)
    (regs_le : sm.usedRegisters + a.regsNeeded ≤ sm.totalRegisters)
    (shared_le : sm.usedSharedMem + a.shmemBytes.toInt ≤ sm.totalSharedMem)
    (clear : ∀ i w, (sm.blocks i).Holds w → ¬ (sm.numActiveWarps ≤ w ∧ w < sm.numActiveWarps + a.warpsNeeded)) :
    (placeBlock sm a slot (sm.usedRegisters + a.regsNeeded) (sm.usedSharedMem + a.shmemBytes.toInt)).Inv := by
  have nonneg := inv.numActiveWarps_nonneg
  have sixtyFour := inv.numWarps
  have sums (amount : SMBlock → Int) :
      (placeBlock sm a slot (sm.usedRegisters + a.regsNeeded) (sm.usedSharedMem + a.shmemBytes.toInt)).total amount =
        sm.total amount + amount (newBlock sm a slot) := by
    rw [total_update (b := newBlock sm a slot) sm.blocks rfl, SMBlock.held_of_inactive free,
      SMBlock.held_of_active rfl, Int.sub_zero]
    rfl
  have here : Function.update sm.blocks slot (newBlock sm a slot) slot = newBlock sm a slot :=
    Function.update_self _ _ _
  have there (j : Fin smMaxThreadBlocks) (ne : j ≠ slot) :
      Function.update sm.blocks slot (newBlock sm a slot) j = sm.blocks j := Function.update_of_ne ne _ _
  have holder (j : Fin smMaxThreadBlocks) (w : Int)
      (holds : (Function.update sm.blocks slot (newBlock sm a slot) j).Holds w) :
      (j = slot ∧ sm.numActiveWarps ≤ w ∧ w < sm.numActiveWarps + a.warpsNeeded) ∨ (sm.blocks j).Holds w := by
    rcases eq_or_ne j slot with rfl | ne
    · rw [here] at holds
      exact .inl ⟨rfl, holds.2⟩
    · rw [there j ne] at holds
      exact .inr holds
  refine ⟨⟨fun i j w hi hj => ?_, fun i w hi => ?_, ?_, ?_, ?_, ?_, regs_le, shared_le⟩, inv.numWarps,
    fun i active => ?_, fun i active => ?_⟩
  · rcases holder i w hi with ⟨eq, new⟩ | old <;> rcases holder j w hj with ⟨eq', new'⟩ | old'
    · rw [eq, eq']
    · exact absurd new (clear j w old')
    · exact absurd new' (clear i w old)
    · exact inv.sound.disjoint i j w old old'
  · show 0 ≤ w ∧ w < sm.numWarps
    rcases holder i w hi with ⟨-, ge, lt⟩ | old
    · omega
    · exact inv.sound.below i w old
  · rw [sums, ← inv.sound.warps]
    rfl
  · rw [sums, ← inv.sound.registers]
    rfl
  · rw [sums, ← inv.sound.shared]
    rfl
  · show sm.numActiveWarps + a.warpsNeeded ≤ sm.numWarps
    omega
  · change (Function.update sm.blocks slot (newBlock sm a slot) i).active = true at active
    show 0 < (Function.update sm.blocks slot (newBlock sm a slot) i).numWarps ∧
      (Function.update sm.blocks slot (newBlock sm a slot) i).numWarps ≤ 64
    rcases eq_or_ne i slot with rfl | ne
    · rw [here]
      show 0 < a.warpsNeeded ∧ a.warpsNeeded ≤ 64
      omega
    · rw [there i ne] at active ⊢
      exact inv.sized i active
  · change (Function.update sm.blocks slot (newBlock sm a slot) i).active = true at active
    show FitsInt (Function.update sm.blocks slot (newBlock sm a slot) i).registers
    rcases eq_or_ne i slot with rfl | ne
    · rw [here]
      exact fits
    · rw [there i ne] at active ⊢
      exact inv.fits i active

/-- A new block in a free slot with a warp that an active block has. -/
theorem place_not_sound {w : Int} (free : (sm.blocks slot).active = false) (holds : (sm.blocks i).Holds w)
    (ge : sm.numActiveWarps ≤ w) (lt : w < sm.numActiveWarps + a.warpsNeeded) :
    ¬ (placeBlock sm a slot regs shared).Sound := by
  intro sound
  have ne : i ≠ slot := by
    rintro rfl
    have active := holds.1
    rw [free] at active
    cases active
  have old : ((placeBlock sm a slot regs shared).blocks i).Holds w := by
    show (Function.update sm.blocks slot (newBlock sm a slot) i).Holds w
    rw [Function.update_of_ne ne]
    exact holds
  have new : ((placeBlock sm a slot regs shared).blocks slot).Holds w := by
    show (Function.update sm.blocks slot (newBlock sm a slot) slot).Holds w
    rw [Function.update_self]
    exact ⟨rfl, ge, lt⟩
  exact ne (sound.disjoint i slot w old new)

/-- The warps themselves do not matter. -/
theorem Inv.with_warps (inv : sm.Inv) (warps : Fin smMaxWarps → Warp) : { sm with warps := warps }.Inv where
  sound := ⟨inv.sound.disjoint, inv.sound.below, inv.sound.warps, inv.sound.registers, inv.sound.shared,
    inv.sound.warps_le, inv.sound.registers_le, inv.sound.shared_le⟩
  numWarps := inv.numWarps
  sized := inv.sized
  fits := inv.fits

theorem Sound.of_with_warps {warps : Fin smMaxWarps → Warp} (sound : { sm with warps := warps }.Sound) : sm.Sound :=
  ⟨sound.disjoint, sound.below, sound.warps, sound.registers, sound.shared, sound.warps_le, sound.registers_le,
    sound.shared_le⟩

end ShaderCore

/-- The last part of an allocation, when the resources suffice. -/
theorem allocate_decides (inv : sm.Inv) (pos : 0 < a.warpsNeeded)
    (room : a.warpsNeeded ≤ sm.numWarps - sm.numActiveWarps) (fits : FitsInt a.regsNeeded)
    (regs_le : sm.usedRegisters + a.regsNeeded ≤ sm.totalRegisters)
    (shared_le : sm.usedSharedMem + a.shmemBytes.toInt ≤ sm.totalSharedMem) :
    Decides Prod.snd
      ((findBlockSlot sm (List.range sm.numWarps.toNat)).bind fun
        | none => some (-1, sm)
        | some slot =>
          ((List.range a.warpsNeeded.toNat).foldlM (initWarp sm.numActiveWarps)
            (placeBlock sm a slot (sm.usedRegisters + a.regsNeeded) (sm.usedSharedMem + a.shmemBytes.toInt))).map
            fun sm => ((slot.val : Int), sm))
      ((∃ i, (sm.blocks i).active = false) ∧
        ∀ i w, (sm.blocks i).Holds w → ¬ (sm.numActiveWarps ≤ w ∧ w < sm.numActiveWarps + a.warpsNeeded)) := by
  have count : sm.numWarps.toNat = 64 := by rw [inv.numWarps]; rfl
  have nonneg := inv.numActiveWarps_nonneg
  have within : sm.numActiveWarps + (a.warpsNeeded.toNat : Int) ≤ 64 := by
    have := inv.numWarps
    omega
  rw [count]
  by_cases some_free : ∃ i, (sm.blocks i).active = false
  · obtain ⟨i, free⟩ := some_free
    have mem : i.val ∈ List.range 64 := List.mem_range.2 (Nat.lt_of_lt_of_le i.isLt (by decide))
    obtain ⟨slot, found⟩ := findBlockSlot_isSome List.pairwise_lt_range mem free
    have slot_free := findBlockSlot_free found
    obtain ⟨warps, run⟩ := initWarps_eq
      (placeBlock sm a slot (sm.usedRegisters + a.regsNeeded) (sm.usedSharedMem + a.shmemBytes.toInt)) nonneg within
    simp only [found, Option.bind_some, run, Option.map_some]
    constructor
    · rintro ⟨-, clear⟩
      exact ⟨_, rfl, (inv.place slot_free pos room fits regs_le shared_le clear).with_warps warps⟩
    · rintro bad ⟨sm', eq, sound⟩
      obtain rfl := Option.some.inj eq
      apply bad
      refine ⟨⟨i, free⟩, fun j w holds overlap => ?_⟩
      exact ShaderCore.place_not_sound slot_free holds overlap.1 overlap.2 sound.of_with_warps
  · have full (i : Fin smMaxThreadBlocks) : (sm.blocks i).active = true := by
      by_contra free
      exact some_free ⟨i, Bool.eq_false_of_not_eq_true free⟩
    have past : ∃ j ∈ List.range 64, smMaxThreadBlocks ≤ j := ⟨32, by decide, by decide⟩
    rw [findBlockSlot_full past full, Option.bind_none]
    constructor
    · rintro ⟨free, -⟩
      exact absurd free some_free
    · rintro - ⟨sm', eq, -⟩
      cases eq

theorem smAllocateBlock_decides (inv : sm.Inv) : Decides Prod.snd (smAllocateBlock sm a) (AllocateOk sm a) := by
  unfold smAllocateBlock AllocateOk
  apply Decides.bind_checked
  intro _
  apply Decides.bind_checked
  intro _
  apply Decides.ite inv
  intro threads
  have pos : 0 < a.warpsNeeded := by
    show 0 < (a.totalThreads + 32 - 1) / 32
    change ¬ (a.totalThreads ≤ 0 ∨ 1024 < a.totalThreads) at threads
    omega
  apply Decides.bind_checked
  intro fits
  have nonneg := inv.numActiveWarps_nonneg
  have le := inv.sound.warps_le
  have sixtyFour := inv.numWarps
  have free_fits : FitsInt (sm.numWarps - sm.numActiveWarps) := by
    constructor <;> omega
  rw [checked_of_fits free_fits, Option.bind_some]
  apply Decides.ite inv
  intro room
  apply Decides.bind_checked
  intro _
  apply Decides.ite inv
  intro regs_le
  apply Decides.bind_checked
  intro _
  apply Decides.ite inv
  intro shared_le
  exact allocate_decides inv pos (Int.not_lt.1 room) fits (Int.not_lt.1 regs_le) (Int.not_lt.1 shared_le)

/-- The SM without an active block. -/
def removeBlock (sm : ShaderCore) (i : Fin smMaxThreadBlocks) : ShaderCore :=
  { sm with
    numActiveWarps := sm.numActiveWarps - (sm.blocks i).numWarps
    usedRegisters := sm.usedRegisters - (sm.blocks i).registers
    usedSharedMem := sm.usedSharedMem - (sm.blocks i).sharedMemAlloc.toInt
    numBlocks := sm.numBlocks - 1
    blocks := Function.update sm.blocks i { sm.blocks i with active := false } }

theorem ShaderCore.Inv.remove (inv : sm.Inv) (active : (sm.blocks i).active = true)
    (regs_le : sm.usedRegisters - (sm.blocks i).registers ≤ sm.totalRegisters)
    (shared_le : sm.usedSharedMem - (sm.blocks i).sharedMemAlloc.toInt ≤ sm.totalSharedMem) :
    (removeBlock sm i).Inv := by
  have pos := (inv.sized i active).1
  have sums (amount : SMBlock → Int) : (removeBlock sm i).total amount = sm.total amount - amount (sm.blocks i) := by
    rw [ShaderCore.total_update sm.blocks rfl, SMBlock.held_of_active active, SMBlock.held_of_inactive rfl,
      Int.add_zero]
    rfl
  have kept (j : Fin smMaxThreadBlocks) (still : ((removeBlock sm i).blocks j).active = true) :
      (removeBlock sm i).blocks j = sm.blocks j := by
    change (Function.update sm.blocks i { sm.blocks i with active := false } j).active = true at still
    show Function.update sm.blocks i { sm.blocks i with active := false } j = sm.blocks j
    rcases eq_or_ne j i with rfl | ne
    · rw [Function.update_self] at still
      cases still
    · exact Function.update_of_ne ne _ _
  refine ⟨⟨fun j k w hj hk => ?_, fun j w hj => ?_, ?_, ?_, ?_, ?_, regs_le, shared_le⟩, inv.numWarps,
    fun j still => ?_, fun j still => ?_⟩
  · rw [kept j hj.1] at hj
    rw [kept k hk.1] at hk
    exact inv.sound.disjoint j k w hj hk
  · rw [kept j hj.1] at hj
    exact inv.sound.below j w hj
  · rw [sums, ← inv.sound.warps]
    rfl
  · rw [sums, ← inv.sound.registers]
    rfl
  · rw [sums, ← inv.sound.shared]
    rfl
  · have le := inv.sound.warps_le
    show sm.numActiveWarps - (sm.blocks i).numWarps ≤ sm.numWarps
    omega
  · have same := kept j still
    rw [same] at still ⊢
    exact inv.sized j still
  · have same := kept j still
    rw [same] at still ⊢
    exact inv.fits j still

theorem removal_decides (inv : sm.Inv) (active : (sm.blocks i).active = true) :
    Decides id
      ((checked (sm.numActiveWarps - (sm.blocks i).numWarps)).bind fun numActiveWarps =>
        (checked ((sm.blocks i).numWarps * warpSize * (sm.blocks i).registersPerThread.toInt)).bind fun regs =>
        (checked (sm.usedRegisters - regs)).bind fun usedRegisters =>
        (checked (sm.usedSharedMem - (sm.blocks i).sharedMemAlloc.toInt)).bind fun usedSharedMem =>
        some { sm with
          numActiveWarps := numActiveWarps
          usedRegisters := usedRegisters
          usedSharedMem := usedSharedMem
          numBlocks := sm.numBlocks - 1
          blocks := Function.update sm.blocks i { sm.blocks i with active := false } })
      (FitsInt (sm.usedRegisters - (sm.blocks i).registers) ∧
        FitsInt (sm.usedSharedMem - (sm.blocks i).sharedMemAlloc.toInt) ∧
        sm.usedRegisters - (sm.blocks i).registers ≤ sm.totalRegisters ∧
        sm.usedSharedMem - (sm.blocks i).sharedMemAlloc.toInt ≤ sm.totalSharedMem) := by
  have sized := inv.sized i active
  have nonneg := inv.numActiveWarps_nonneg
  have le := inv.sound.warps_le
  have sixtyFour := inv.numWarps
  have warps_fit : FitsInt (sm.numActiveWarps - (sm.blocks i).numWarps) := by
    constructor <;> omega
  have product := checked_of_fits (inv.fits i active)
  rw [checked_of_fits warps_fit, Option.bind_some]
  unfold SMBlock.registers at product ⊢
  rw [product, Option.bind_some]
  apply Decides.bind_checked
  intro _
  apply Decides.bind_checked
  intro _
  constructor
  · rintro ⟨regs_le, shared_le⟩
    exact ⟨_, rfl, inv.remove active regs_le shared_le⟩
  · rintro exceeds ⟨sm', eq, sound⟩
    obtain rfl := Option.some.inj eq
    exact exceeds ⟨sound.registers_le, sound.shared_le⟩

theorem smDeallocateBlock_decides (inv : sm.Inv) (blockId : Int32) :
    Decides id (smDeallocateBlock sm blockId) (DeallocateOk sm blockId) := by
  have unchanged {ok : Prop} (holds : ok) : Decides id (some sm) ok :=
    ⟨fun _ => ⟨sm, rfl, inv⟩, fun no => absurd holds no⟩
  unfold smDeallocateBlock
  by_cases out : blockId.toInt < 0 ∨ sm.numWarps ≤ blockId.toInt
  · rw [if_pos out]
    apply unchanged
    intro ge lt
    omega
  · rw [if_neg out]
    rw [not_or, Int.not_lt, Int.not_le] at out
    by_cases h : blockId.toInt.toNat < smMaxThreadBlocks
    · rw [dif_pos h]
      dsimp only
      cases active : (sm.blocks ⟨blockId.toInt.toNat, h⟩).active with
      | false =>
        rw [Bool.not_false, if_pos rfl]
        apply unchanged
        intro _ _
        exact ⟨h, fun yes => absurd (yes.symm.trans active) (by decide)⟩
      | true =>
        rw [if_neg (by decide)]
        obtain ⟨keeps, breaks⟩ := removal_decides inv active
        constructor
        · intro ok
          obtain ⟨_, all⟩ := ok out.1 out.2
          obtain ⟨regs_fit, regs_le, shared_fit, shared_le⟩ := all active
          exact keeps ⟨regs_fit, shared_fit, regs_le, shared_le⟩
        · intro no
          apply breaks
          rintro ⟨regs_fit, shared_fit, regs_le, shared_le⟩
          exact no fun _ _ => ⟨h, fun _ => ⟨regs_fit, regs_le, shared_fit, shared_le⟩⟩
    · rw [dif_neg h]
      constructor
      · intro ok
        exact absurd (ok out.1 out.2).1 h
      · rintro - ⟨sm', eq, -⟩
        cases eq

/-! ## Sequences of calls -/

/-- The calls so far are defined and keep the invariant. -/
def SmInv (s : Option ShaderCore) : Prop := ∃ sm, s = some sm ∧ sm.Inv

theorem SmInv.create (cc : SMComputeCap) : SmInv (some (smCreate cc)) := by
  have none_active (i : Fin smMaxThreadBlocks) : ((smCreate cc).blocks i).active ≠ true := Bool.false_ne_true
  have sum_zero (amount : SMBlock → Int) : (0 : Int) = (smCreate cc).total amount := by
    symm
    apply Finset.sum_eq_zero
    intro i _
    exact SMBlock.held_of_inactive rfl
  refine ⟨_, rfl, ⟨fun i j w hi => absurd hi.1 (none_active i), fun i w hi => absurd hi.1 (none_active i), ?_, ?_, ?_,
    ?_, ?_, ?_⟩, ?_, fun i active => absurd active (none_active i), fun i active => absurd active (none_active i)⟩
  · exact sum_zero _
  · exact sum_zero _
  · exact sum_zero _
  all_goals cases cc <;> decide

theorem smStep_decides (inv : sm.Inv) (call : SmCall) :
    (SmCallOk (some sm) call → SmInv (smStep (some sm) call)) ∧
      (¬ SmCallOk (some sm) call → ¬ SmSound (smStep (some sm) call)) := by
  cases call with
  | allocateBlock a =>
    obtain ⟨keeps, breaks⟩ := @smAllocateBlock_decides sm a inv
    constructor
    · intro ok
      obtain ⟨r, eq, inv'⟩ := keeps (ok sm rfl)
      refine ⟨r.2, ?_, inv'⟩
      show (smAllocateBlock sm a).map Prod.snd = some r.2
      rw [eq]
      rfl
    · intro no
      apply breaks
      intro ok
      apply no
      rintro sm' eq
      obtain rfl := Option.some.inj eq
      exact ok
  | deallocateBlock blockId =>
    obtain ⟨keeps, breaks⟩ := smDeallocateBlock_decides inv blockId
    rw [Option.map_id] at breaks
    constructor
    · intro ok
      exact keeps (ok sm rfl)
    · intro no
      apply breaks
      intro ok
      apply no
      rintro sm' eq
      obtain rfl := Option.some.inj eq
      exact ok

/-- On every SM, the bookkeeping is sound after each of the calls if and only if each meets its
condition. -/
theorem sm_blocks_sound_iff (cc : SMComputeCap) (calls : List SmCall) :
    (∀ before rest, calls = before ++ rest → SmSound (run smStep (some (smCreate cc)) before)) ↔
      Guarded smStep SmCallOk (some (smCreate cc)) calls := by
  apply guarded_iff_prefixes SmInv
  · rintro s ⟨sm, rfl, inv⟩
    exact ⟨sm, rfl, inv.sound⟩
  · rintro s call ⟨sm, rfl, inv⟩ ok
    exact (smStep_decides inv call).1 ok
  · rintro s call ⟨sm, rfl, inv⟩ no
    exact (smStep_decides inv call).2 no
  · exact SmInv.create cc

/-- Blocks of 32, 16 and 32 warps, the first of which ends before the third comes. -/
def overlapping : List SmCall :=
  [.allocateBlock ⟨1024, 1, 1, 0, 1⟩, .allocateBlock ⟨512, 1, 1, 0, 1⟩, .deallocateBlock 0,
    .allocateBlock ⟨1024, 1, 1, 0, 1⟩]

/-- The third block takes the warps 16 to 47 while the second has 32 to 47. -/
theorem sm_blocks_overlap : ¬ SmSound (run smStep (some (smCreate .cc70)) overlapping) := by
  rintro ⟨sm, eq, sound⟩
  have ranges : (run smStep (some (smCreate .cc70)) overlapping).map (fun sm =>
      ((sm.blocks 0).active, (sm.blocks 0).warpBase, (sm.blocks 0).numWarps,
        (sm.blocks 1).active, (sm.blocks 1).warpBase, (sm.blocks 1).numWarps)) =
      some (true, 16, 32, true, 32, 16) := by decide
  rw [eq, Option.map_some] at ranges
  simp only [Option.some.injEq, Prod.mk.injEq] at ranges
  obtain ⟨active, base, count, active', base', count'⟩ := ranges
  have first : (sm.blocks 0).Holds 32 := ⟨active, by omega, by omega⟩
  have second : (sm.blocks 1).Holds 32 := ⟨active', by omega, by omega⟩
  exact absurd (sound.disjoint 0 1 32 first second) (by decide)

end MiniHardware.Gpu
