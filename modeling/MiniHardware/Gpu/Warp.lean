import MiniHardware.Lib.Index
import MiniHardware.Lib.Nest

/-!
# Divergence of a warp (`mini-gpu-arch/src/warp.c`)

`warp_push_divergence` saves the active mask on a stack of eight and does
nothing when the stack is full; the pop that belongs to it then takes the entry
of an outer push. A nested sequence that the stack has room for restores every
mask, and one that it has no room for does not, for some masks
(`warp_nested_restores_iff`).
-/

namespace MiniHardware.Gpu
open Lib

/-- `WARP_SIZE`. -/
abbrev warpSize : Nat := 32

/-- The size of `div_stack`. -/
abbrev divStackSize : Nat := 8

inductive ThreadState where
  | ready | active | blocked | done
deriving DecidableEq

inductive WarpPrio where
  | normal | high | crit
deriving DecidableEq

/-- `div_depth` stays between 0 and the size of the stack. -/
structure Warp where
  warpId : Nat
  activeMask : UInt32
  threadState : Fin warpSize → ThreadState
  progCounter : Fin warpSize → UInt32
  unifiedPc : UInt32
  numActive : Nat
  priority : WarpPrio
  stallCycles : UInt64
  issueCount : UInt64
  atBarrier : Bool
  diverged : Bool
  divDepth : Fin (divStackSize + 1)
  divStack : Fin divStackSize → UInt32
  divPcStack : Fin divStackSize → Int32

def warpCreate (warpId : Nat) : Warp where
  warpId := warpId
  activeMask := 0xFFFFFFFF
  threadState _ := .ready
  progCounter _ := 0
  unifiedPc := 0
  numActive := 32
  priority := .normal
  stallCycles := 0
  issueCount := 0
  atBarrier := false
  diverged := false
  divDepth := 0
  divStack _ := 0
  divPcStack _ := 0

def warpReset (w : Warp) : Warp :=
  { w with
    activeMask := 0xFFFFFFFF
    numActive := 32
    unifiedPc := 0
    divDepth := 0
    diverged := false
    atBarrier := false
    stallCycles := 0
    issueCount := 0
    threadState := fun _ => .ready
    progCounter := fun _ => 0 }

/-- The loops that count the ones of a mask. -/
def countActive (mask : UInt32) : Nat :=
  (List.range warpSize).countP fun i => (mask >>> UInt32.ofNat i) &&& 1 ≠ 0

/-- A full mask counts 32. -/
theorem countActive_all : countActive 0xFFFFFFFF = 32 := by decide

def warpSetActiveMask (w : Warp) (mask : UInt32) : Warp :=
  { w with activeMask := mask, numActive := countActive mask }

def warpPushDivergence (w : Warp) (takenMask reconvergePc : UInt32) : Warp :=
  if h : w.divDepth.val < divStackSize then
    let w :=
      { w with
        divStack := Function.update w.divStack ⟨w.divDepth.val, h⟩ w.activeMask
        divPcStack := Function.update w.divPcStack ⟨w.divDepth.val, h⟩ reconvergePc.toInt32
        divDepth := ⟨w.divDepth.val + 1, Nat.succ_lt_succ h⟩
        diverged := true }
    warpSetActiveMask w takenMask
  else w

def warpPopDivergence (w : Warp) : Warp :=
  match h : w.divDepth.val with
  | 0 => w
  | depth + 1 =>
    let slot : Fin divStackSize := ⟨depth, by have := w.divDepth.isLt; omega⟩
    { w with
      divDepth := ⟨depth, by omega⟩
      activeMask := w.divStack slot
      numActive := countActive (w.divStack slot)
      diverged := if depth = 0 then false else w.diverged }

/-! ## Nested sequences -/

namespace Warp

/-- A push, with its taken mask and its reconvergence PC. -/
def push (w : Warp) (label : UInt32 × UInt32) : Warp := warpPushDivergence w label.1 label.2

/-- The same mask, count and flag. -/
def SameActive (w w' : Warp) : Prop :=
  w'.activeMask = w.activeMask ∧ w'.numActive = w.numActive ∧ w'.diverged = w.diverged

/-- The calls, and each push with its pop, restore the mask, its count and the flag. -/
def Restores (w : Warp) (n : Nest (UInt32 × UInt32)) : Prop :=
  w.SameActive (n.exec Warp.push warpPopDivergence w) ∧ n.Restores Warp.push warpPopDivergence SameActive w

/-- The count and the flag say what they should. -/
structure Consistent (w : Warp) : Prop where
  counted : w.numActive = countActive w.activeMask
  flag : w.diverged = decide (0 < w.divDepth.val)

/-- The same also below the top of the stack. -/
structure Keeps (w w' : Warp) : Prop where
  mask : w'.activeMask = w.activeMask
  counted : w'.numActive = w.numActive
  flag : w'.diverged = w.diverged
  depth : w'.divDepth = w.divDepth
  stack : ∀ i : Fin divStackSize, i.val < w.divDepth.val → w'.divStack i = w.divStack i

variable {w w' : Warp} {label : UInt32 × UInt32}

/-- A warp keeps itself. -/
theorem Keeps.refl (w : Warp) : w.Keeps w := ⟨rfl, rfl, rfl, rfl, fun _ _ => rfl⟩

/-- Keeping goes along a chain. -/
theorem Keeps.trans {u : Warp} (h : w.Keeps w') (h' : w'.Keeps u) : w.Keeps u where
  mask := h'.mask.trans h.mask
  counted := h'.counted.trans h.counted
  flag := h'.flag.trans h.flag
  depth := h'.depth.trans h.depth
  stack i lt := (h'.stack i (by rw [h.depth]; exact lt)).trans (h.stack i lt)

/-- What is kept stays consistent. -/
theorem Keeps.consistent (h : w.Keeps w') (ok : w.Consistent) : w'.Consistent where
  counted := by rw [h.counted, h.mask, ok.counted]
  flag := by rw [h.flag, h.depth, ok.flag]

/-- A new warp is consistent. -/
theorem Consistent.create (warpId : Nat) : (warpCreate warpId).Consistent := ⟨countActive_all.symm, rfl⟩

/-- A warp that was reset is consistent. -/
theorem Consistent.reset (w : Warp) : (warpReset w).Consistent := ⟨countActive_all.symm, rfl⟩

/-- A push with room saves the mask and the program counter, and takes the new mask. -/
theorem push_of_lt (lt : w.divDepth.val < divStackSize) : w.push label =
    warpSetActiveMask
      { w with
        divStack := Function.update w.divStack ⟨w.divDepth.val, lt⟩ w.activeMask
        divPcStack := Function.update w.divPcStack ⟨w.divDepth.val, lt⟩ label.2.toInt32
        divDepth := ⟨w.divDepth.val + 1, Nat.succ_lt_succ lt⟩
        diverged := true } label.1 := dif_pos lt

/-- A push on a full stack does nothing. -/
theorem push_of_full (full : ¬ w.divDepth.val < divStackSize) : w.push label = w := dif_neg full

/-- A pop takes back what was saved last. -/
theorem pop_of_pos {depth : Fin divStackSize} (eq : w.divDepth.val = depth.val + 1) : warpPopDivergence w =
    { w with
      divDepth := ⟨depth.val, Nat.lt_succ_of_lt depth.isLt⟩
      activeMask := w.divStack depth
      numActive := countActive (w.divStack depth)
      diverged := if depth.val = 0 then false else w.diverged } := by
  unfold warpPopDivergence
  split
  · omega
  · rename_i depth' eq'
    obtain rfl : depth' = depth.val := by omega
    rfl

/-- A push keeps consistency. -/
theorem Consistent.push (ok : w.Consistent) : (w.push label).Consistent := by
  by_cases lt : w.divDepth.val < divStackSize
  · rw [push_of_lt lt]
    exact ⟨rfl, (decide_eq_true (Nat.succ_pos _)).symm⟩
  · rw [push_of_full lt]
    exact ok

/-- A pop keeps consistency. -/
theorem Consistent.pop (ok : w.Consistent) : (warpPopDivergence w).Consistent := by
  unfold warpPopDivergence
  split
  · exact ok
  · rename_i depth eq
    refine ⟨rfl, ?_⟩
    show (if depth = 0 then false else w.diverged) = decide (0 < depth)
    rw [ok.flag, eq]
    split
    · rename_i zero
      rw [zero]
      rfl
    · rename_i pos
      rw [decide_eq_true (Nat.succ_pos depth), decide_eq_true (Nat.pos_of_ne_zero pos)]

/-- A pop undoes a push that the stack has room for. -/
theorem Keeps.pop (ok : w.Consistent) (lt : w.divDepth.val < divStackSize) (h : (w.push label).Keeps w') :
    w.Keeps (warpPopDivergence w') := by
  rw [push_of_lt lt] at h
  have depth : w'.divDepth.val = w.divDepth.val + 1 := congrArg Fin.val h.depth
  have saved : w'.divStack ⟨w.divDepth.val, lt⟩ = w.activeMask := by
    rw [h.stack ⟨w.divDepth.val, lt⟩ (Nat.lt_succ_self _)]
    exact Function.update_self _ _ _
  rw [@pop_of_pos w' ⟨w.divDepth.val, lt⟩ depth]
  refine ⟨saved, ?_, ?_, rfl, fun i below => ?_⟩
  · rw [ok.counted, ← saved]
  · show (if w.divDepth.val = 0 then false else w'.diverged) = w.diverged
    rw [h.flag, ok.flag]
    split
    · rename_i zero
      rw [zero]
      rfl
    · rename_i pos
      exact (decide_eq_true (Nat.pos_of_ne_zero pos)).symm
  · have ne : i ≠ ⟨w.divDepth.val, lt⟩ := Fin.ne_of_lt below
    refine (h.stack i (Nat.lt_succ_of_lt below)).trans ?_
    exact Function.update_of_ne ne _ _

/-- A sequence that the stack has room for keeps the warp. -/
theorem Consistent.keeps (ok : w.Consistent) {n : Nest (UInt32 × UInt32)}
    (room : w.divDepth.val + n.height ≤ divStackSize) :
    w.Keeps (n.exec Warp.push warpPopDivergence w) ∧ n.Restores Warp.push warpPopDivergence Keeps w := by
  have level (w : Warp) (label : UInt32 × UInt32) (lt : w.divDepth.val < divStackSize) :
      (w.push label).divDepth.val = w.divDepth.val + 1 := by
    rw [push_of_lt lt]
    rfl
  exact Nest.keeps Keeps.refl (fun _ _ _ => Keeps.trans) (fun _ _ h => congrArg Fin.val h.depth)
    (fun _ _ ok h => h.consistent ok) level (fun _ _ ok _ => ok.push) (fun _ _ _ ok lt h => h.pop ok lt) ok room

/-- Nested divergence that the stack has room for is restored. -/
theorem Consistent.restores (ok : w.Consistent) {n : Nest (UInt32 × UInt32)}
    (room : w.divDepth.val + n.height ≤ divStackSize) : w.Restores n := by
  have same (w w' : Warp) (h : w.Keeps w') : w.SameActive w' := ⟨h.mask, h.counted, h.flag⟩
  obtain ⟨keeps, restores⟩ := ok.keeps room
  exact ⟨same _ _ keeps, restores.mono same⟩

/-! ## Sequences that the stack has no room for -/

/-- The mask in force at each depth is the depth. -/
structure Layered (w : Warp) : Prop where
  mask : w.activeMask = UInt32.ofNat w.divDepth.val
  stack : ∀ i : Fin divStackSize, i.val < w.divDepth.val → w.divStack i = UInt32.ofNat i.val

/-- The pushes of a sequence take the depth for their mask. -/
def layers (depth : Nat) : Nest Unit → Nest (UInt32 × UInt32)
  | .nil => .nil
  | .wrap _ inner rest => .wrap (UInt32.ofNat (depth + 1), 0) (layers (depth + 1) inner) (layers depth rest)

/-- Labelling keeps the shape of a nest. -/
theorem layers_shape (depth : Nat) (n : Nest Unit) : (layers depth n).map (fun _ => ()) = n := by
  induction n generalizing depth with
  | nil => rfl
  | wrap _ inner rest ihInner ihRest => rw [layers, Nest.map, ihInner, ihRest]

/-- Labelling keeps the height of a nest. -/
theorem layers_height (depth : Nat) (n : Nest Unit) : (layers depth n).height = n.height := by
  induction n generalizing depth with
  | nil => rfl
  | wrap _ inner rest ihInner ihRest => rw [layers, Nest.height, Nest.height, ihInner, ihRest]

/-- A warp of the depth with these masks. -/
def layered (depth : Fin (divStackSize + 1)) : Warp :=
  { warpCreate 0 with
    activeMask := UInt32.ofNat depth.val
    numActive := countActive (UInt32.ofNat depth.val)
    diverged := decide (0 < depth.val)
    divDepth := depth
    divStack := fun i => UInt32.ofNat i.val }

/-- A push that takes the new depth for its mask keeps the layers. -/
theorem Layered.push (h : w.Layered) (lt : w.divDepth.val < divStackSize) (pc : UInt32) :
    (w.push (UInt32.ofNat (w.divDepth.val + 1), pc)).Layered := by
  rw [push_of_lt lt]
  refine ⟨rfl, fun i below => ?_⟩
  show Function.update w.divStack _ _ i = _
  rcases eq_or_ne i ⟨w.divDepth.val, lt⟩ with rfl | ne
  · rw [Function.update_self]
    exact h.mask
  · rw [Function.update_of_ne ne]
    apply h.stack
    have apart : i.val ≠ w.divDepth.val := fun eq => ne (Fin.ext eq)
    exact Nat.lt_of_le_of_ne (Nat.lt_succ_iff.1 below) apart

/-- What is kept stays layered. -/
theorem Layered.of_keeps (h : w.Layered) (keeps : w.Keeps w') : w'.Layered where
  mask := by rw [keeps.mask, keeps.depth, h.mask]
  stack i below := by
    rw [keeps.depth] at below
    rw [keeps.stack i below, h.stack i below]

/-- A push on a full stack is dropped, and the first pop after it takes the entry below. -/
theorem full_not_restores (full : w.divDepth.val = divStackSize)
    (differs : w.divStack ⟨7, by decide⟩ ≠ w.activeMask) {n : Nest (UInt32 × UInt32)} (some_push : n ≠ .nil) :
    ¬ n.Restores Warp.push warpPopDivergence SameActive w := by
  induction n with
  | nil => exact absurd rfl some_push
  | wrap label inner rest ihInner _ =>
    rintro ⟨restores, same, -⟩
    have dropped : w.push label = w := push_of_full (by omega)
    rw [dropped] at restores same
    cases inner with
    | nil =>
      apply differs
      have mask : (warpPopDivergence w).activeMask = w.activeMask := same.1
      rw [@pop_of_pos w ⟨7, by decide⟩ full] at mask
      exact mask
    | wrap => exact ihInner (by simp) restores

/-- A nest that is too deep for the stack is not restored. -/
theorem Layered.not_restores (h : w.Layered) (ok : w.Consistent) {depth : Nat} (at_depth : w.divDepth.val = depth)
    {n : Nest Unit} (deep : divStackSize < depth + n.height) :
    ¬ (layers depth n).Restores Warp.push warpPopDivergence SameActive w := by
  have le := w.divDepth.isLt
  induction n generalizing w depth with
  | nil =>
    rw [Nest.height] at deep
    omega
  | wrap _ inner rest ihInner ihRest =>
    subst at_depth
    by_cases lt : w.divDepth.val < divStackSize
    · have pushed : (w.push (UInt32.ofNat (w.divDepth.val + 1), 0)).divDepth.val = w.divDepth.val + 1 := by
        rw [push_of_lt lt]
        rfl
      rintro ⟨restores, -, restores'⟩
      by_cases deepInner : divStackSize < w.divDepth.val + 1 + inner.height
      · exact ihInner (h.push lt 0) ok.push pushed deepInner (Fin.isLt _) restores
      · -- the inner sequence has room, so that the rest starts as the whole does
        have room : (w.push (UInt32.ofNat (w.divDepth.val + 1), 0)).divDepth.val +
            (layers (w.divDepth.val + 1) inner).height ≤ divStackSize := by
          rw [pushed, layers_height]
          omega
        have keeps := (ok.push.keeps room).1.pop ok lt
        have deepRest : divStackSize < w.divDepth.val + rest.height := by
          rw [Nest.height] at deep
          omega
        exact ihRest (h.of_keeps keeps) (keeps.consistent ok) (congrArg Fin.val keeps.depth) deepRest
          (Fin.isLt _) restores'
    · have full : w.divDepth.val = divStackSize := by omega
      apply full_not_restores full
      · rw [h.mask, h.stack _ (by rw [full]; decide), full]
        decide
      · simp [layers]

end Warp

/-- Whatever the masks, a nested sequence on a warp of a depth restores the mask, the count and the
flag, after each pop and at the end, if and only if the stack has room for its pushes. -/
theorem warp_nested_restores_iff (depth : Fin (divStackSize + 1)) (shape : Nest Unit) :
    (∀ (w : Warp) (n : Nest (UInt32 × UInt32)), w.Consistent → w.divDepth = depth →
      n.map (fun _ => ()) = shape → w.Restores n) ↔ depth.val + shape.height ≤ divStackSize := by
  constructor
  · intro restores
    by_contra deep
    have ok : (Warp.layered depth).Consistent := ⟨rfl, rfl⟩
    have layered : (Warp.layered depth).Layered := ⟨rfl, fun _ _ => rfl⟩
    have all := restores (Warp.layered depth) (Warp.layers depth.val shape) ok rfl (Warp.layers_shape _ _)
    exact layered.not_restores ok rfl (Nat.not_le.1 deep) all.2
  · rintro room w n ok rfl rfl
    apply ok.restores
    rw [Nest.height_map] at room
    exact room

/-- Nine pushes, with the masks 1 to 9, and nine pops. -/
def nine : Nest (UInt32 × UInt32) :=
  [9, 8, 7, 6, 5, 4, 3, 2, 1].foldl (fun n mask => .wrap (mask, 0) n .nil) .nil

/-- The pop of the ninth push leaves the mask 7, where 8 was in force before the push. -/
theorem warp_nine_not_restored : ¬ (warpCreate 0).Restores nine := by
  intro restores
  have ninth := restores.2.1.1.1.1.1.1.1.1.2.1.1
  exact absurd ninth (by decide)

end MiniHardware.Gpu
