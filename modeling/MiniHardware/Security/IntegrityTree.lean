import MiniHardware.Security.MemoryCrypto
import MiniHardware.Security.Sha256Nat

/-!
# The integrity tree (`mini-hardware-security/src/memory_crypto.c`)

An update writes the hash of the line into the root and into no other node, and
a check compares the hash of the line with itself. What a check answers is
whether the line is one of those covered, whatever its data.
-/

namespace MiniHardware.Security
open Lib

/-- A line of data. -/
abbrev MemLine := Vector UInt8 memLineSize

structure MemMerkleNode where
  hash : Digest
  verified : Bool

/-- The nodes that `calloc` clears. -/
def zeroNode : MemMerkleNode := ⟨Vector.replicate 32 0, false⟩

/-- `tree` is `NULL` before the tree is made; the root is node 0. -/
structure MemIntegrityTree where
  tree : Option (Nat → MemMerkleNode)
  totalLines : UInt64
  rootTrusted : Bool

/-- The number of nodes, where the loop over the levels ends within so many rounds. -/
def treeNodes (totalLines : UInt64) : Nat → UInt64 → UInt64 → Option UInt64
  | 0, _, _ => none
  | rounds + 1, levelSize, nodes =>
    if levelSize < totalLines then treeNodes totalLines rounds (levelSize * 4) (nodes + levelSize * 4)
    else some nodes

/-- `calloc` is given the number of nodes and answers if it has the memory; `none` where the loop
over the levels is not over after so many rounds. -/
def memIntegrityInit (calloc : UInt64 → Bool) (rounds : Nat) (tree : MemIntegrityTree) (totalLines : UInt64) :
    Option (Bool × MemIntegrityTree) :=
  if totalLines = 0 then some (false, tree)
  else
    (treeNodes totalLines rounds 1 1).map fun nodes =>
      if calloc nodes then
        (true, ⟨some (Function.update (fun _ => zeroNode) 0 ⟨Vector.replicate 32 0, true⟩), totalLines, true⟩)
      else (false, { tree with tree := none })

/-- The hash of a line and its address. -/
def lineHash (physAddr : UInt64) (data : MemLine) : Digest :=
  digestAt (hashPieces [data.toList ++ addressBytes physAddr])

def memIntegrityVerify (tree : MemIntegrityTree) (physAddr : UInt64) (data : MemLine) : Bool :=
  match tree.tree with
  | none => false
  | some _ =>
    let hash := lineHash physAddr data
    let lineIdx := physAddr / 64
    if lineIdx ≥ tree.totalLines then false else constantTimeEq hash hash

def memIntegrityUpdate (tree : MemIntegrityTree) (physAddr : UInt64) (newData : MemLine) : MemIntegrityTree :=
  match tree.tree with
  | none => tree
  | some nodes =>
    { tree with
      tree := some (Function.update nodes 0 { nodes 0 with hash := lineHash physAddr newData }) }

/-! ## The loop over the levels -/

theorem level_size_eq (k : Nat) (levelSize : UInt64) (size : levelSize.toNat = 4 ^ k % 2 ^ 64) :
    (levelSize * 4).toNat = 4 ^ (k + 1) % 2 ^ 64 := by
  have four : (4 : UInt64).toNat = 4 := rfl
  rw [UInt64.toNat_mul, size, four, Nat.mod_mul_mod, ← Nat.pow_succ]

/-- More than `2 ^ 62` lines are never covered: the size of a level goes from `2 ^ 62` to 0. -/
theorem tree_nodes_none {totalLines : UInt64} (many : 2 ^ 62 < totalLines.toNat) (rounds : Nat) {k : Nat}
    {levelSize : UInt64} (size : levelSize.toNat = 4 ^ k % 2 ^ 64) (nodes : UInt64) :
    treeNodes totalLines rounds levelSize nodes = none := by
  induction rounds generalizing k levelSize nodes with
  | zero => rfl
  | succ rounds ih =>
    have small : levelSize < totalLines := by
      rw [UInt64.lt_iff_toNat_lt, size]
      refine Nat.lt_of_le_of_lt ?_ many
      rcases Nat.lt_or_ge k 32 with below | above
      · have le : 4 ^ k ≤ 4 ^ 31 := Nat.pow_le_pow_right (by decide) (by omega)
        exact (Nat.mod_le _ _).trans le
      · have whole : 4 ^ k = 2 ^ 64 * 4 ^ (k - 32) := by
          rw [show (2 : Nat) ^ 64 = 4 ^ 32 from rfl, ← Nat.pow_add]
          congr 1
          omega
        rw [whole, Nat.mul_mod_right]
        exact Nat.zero_le _
    rw [treeNodes, if_pos small]
    exact ih (level_size_eq k levelSize size) _

/-- At level `k` as many rounds are enough as levels are left to the 31st. -/
theorem tree_nodes_some {totalLines : UInt64} (few : totalLines.toNat ≤ 2 ^ 62) (left : Nat) {k : Nat}
    (level : k + left = 31) {levelSize : UInt64} (size : levelSize.toNat = 4 ^ k) (nodes : UInt64) :
    (treeNodes totalLines (left + 1) levelSize nodes).isSome = true := by
  induction left generalizing k levelSize nodes with
  | zero =>
    have large : ¬ levelSize < totalLines := by
      rw [UInt64.lt_iff_toNat_lt, size, show k = 31 by omega]
      exact Nat.not_lt.2 few
    rw [treeNodes, if_neg large]
    rfl
  | succ left ih =>
    rw [treeNodes]
    split
    · apply ih (k := k + 1) (by omega)
      have lt : 4 ^ (k + 1) < 2 ^ 64 :=
        Nat.lt_of_le_of_lt (Nat.pow_le_pow_right (by decide) (by omega : k + 1 ≤ 31)) (by decide)
      have whole : 4 ^ k < 2 ^ 64 := Nat.lt_of_le_of_lt (Nat.pow_le_pow_right (by decide) (Nat.le_succ k)) lt
      rw [level_size_eq k levelSize (by rw [size, Nat.mod_eq_of_lt whole]), Nat.mod_eq_of_lt lt]
    · rfl

/-- The loop of `integrity_init` ends exactly for up to `2 ^ 62` lines, within 32 rounds. -/
theorem tree_nodes_isSome_iff (totalLines : UInt64) :
    (treeNodes totalLines 32 1 1).isSome = true ↔ totalLines.toNat ≤ 2 ^ 62 := by
  constructor
  · intro ends
    by_contra many
    rw [tree_nodes_none (Nat.not_le.1 many) 32 (k := 0) rfl 1] at ends
    cases ends
  · exact fun few => tree_nodes_some few 31 (k := 0) rfl rfl 1

/-! ## Updates and checks -/

/-- The tree after the updates. -/
def integrityUpdates (tree : MemIntegrityTree) (updates : List (UInt64 × MemLine)) : MemIntegrityTree :=
  run (fun tree op => memIntegrityUpdate tree op.1 op.2) tree updates

/-- The data of the last update of a line. -/
def lastUpdate (updates : List (UInt64 × MemLine)) (line : UInt64) : Option MemLine :=
  (updates.reverse.find? fun op => op.1 / 64 = line).map Prod.snd

/-- There is a tree over so many lines. -/
structure Covers (totalLines : UInt64) (tree : MemIntegrityTree) : Prop where
  made : tree.tree.isSome = true
  lines : tree.totalLines = totalLines

theorem covers_init {calloc : UInt64 → Bool} {rounds : Nat} {tree tree' : MemIntegrityTree} {totalLines : UInt64}
    (ready : memIntegrityInit calloc rounds tree totalLines = some (true, tree')) : Covers totalLines tree' := by
  unfold memIntegrityInit at ready
  split at ready
  · cases ready
  obtain ⟨nodes, -, made⟩ := Option.map_eq_some_iff.1 ready
  split at made
  · cases made
    exact ⟨rfl, rfl⟩
  · cases made

theorem Covers.update {totalLines : UInt64} (tree : MemIntegrityTree) (op : UInt64 × MemLine)
    (h : Covers totalLines tree) : Covers totalLines (memIntegrityUpdate tree op.1 op.2) := by
  unfold memIntegrityUpdate
  split
  · exact h
  · exact ⟨rfl, h.lines⟩

theorem Covers.verify_iff {totalLines : UInt64} {tree : MemIntegrityTree} (h : Covers totalLines tree)
    (physAddr : UInt64) (data : MemLine) :
    memIntegrityVerify tree physAddr data = true ↔ physAddr / 64 < totalLines := by
  obtain ⟨nodes, made⟩ := Option.isSome_iff_exists.1 h.made
  rw [memIntegrityVerify, made]
  dsimp only
  rw [h.lines, constant_time_eq_self]
  split
  · rename_i outside
    constructor
    · rintro ⟨⟩
    · intro inside
      exact absurd inside (UInt64.not_lt.2 outside)
  · rename_i inside
    constructor
    · exact fun _ => UInt64.not_le.1 inside
    · exact fun _ => rfl

/-- **A check answers rightly if and only if the line is covered and the data is that of its last update,
or neither.** -/
theorem integrity_verify_iff (calloc : UInt64 → Bool) (rounds : Nat) (tree tree' : MemIntegrityTree)
    (totalLines : UInt64) (ready : memIntegrityInit calloc rounds tree totalLines = some (true, tree'))
    (updates : List (UInt64 × MemLine)) (physAddr : UInt64) (data : MemLine) :
    (memIntegrityVerify (integrityUpdates tree' updates) physAddr data = true ↔
      lastUpdate updates (physAddr / 64) = some data) ↔
    (physAddr / 64 < totalLines ↔ lastUpdate updates (physAddr / 64) = some data) := by
  have covers : Covers totalLines (integrityUpdates tree' updates) :=
    run_invariant Covers.update (covers_init ready) updates
  rw [covers.verify_iff]

/-- An engine without a tree. -/
def noTree : MemIntegrityTree := ⟨none, 0, false⟩

/-- A tree over 4 lines. -/
def smallTree : MemIntegrityTree :=
  ⟨some (Function.update (fun _ => zeroNode) 0 ⟨Vector.replicate 32 0, true⟩), 4, true⟩

def zeroLine : MemLine := Vector.replicate memLineSize 0

theorem integrity_verify_iff_small :
    (memIntegrityVerify (integrityUpdates smallTree [(64, zeroLine)]) 64 zeroLine = true ↔
      lastUpdate [(64, zeroLine)] (64 / 64) = some zeroLine) ↔
    (64 / 64 < (4 : UInt64) ↔ lastUpdate [(64, zeroLine)] (64 / 64) = some zeroLine) :=
  integrity_verify_iff (fun _ => true) 32 noTree smallTree 4 rfl [(64, zeroLine)] 64 zeroLine

def oneLine : MemLine := Vector.replicate memLineSize 1

theorem lineHash_differs : lineHash 0 zeroLine ≠ lineHash 0 oneLine := by
  intro same
  have digests := (digestAt_inj (length_hashPieces _) (length_hashPieces _)).1 same
  have bytes := congrArg (List.map UInt8.toNat) digests
  rw [Sha256Nat.toNat_hashPieces, Sha256Nat.toNat_hashPieces] at bytes
  exact absurd bytes (by decide +kernel)

/-- Data is accepted for a line that was never updated, and other data than that of the last update,
though the hashes differ. -/
theorem integrity_verify_accepts_any :
    (memIntegrityVerify smallTree 0 zeroLine = true ∧ lastUpdate [] 0 = none) ∧
      lineHash 0 zeroLine ≠ lineHash 0 oneLine ∧
      memIntegrityVerify (integrityUpdates smallTree [(0, zeroLine)]) 0 oneLine = true ∧
      lastUpdate [(0, zeroLine)] 0 ≠ some oneLine := by
  have covers : Covers 4 smallTree := ⟨rfl, rfl⟩
  refine ⟨⟨(covers.verify_iff 0 _).2 (by decide), rfl⟩, lineHash_differs, ?_, by decide⟩
  exact ((covers.update _ (0, zeroLine)).verify_iff 0 _).2 (by decide)

end MiniHardware.Security
