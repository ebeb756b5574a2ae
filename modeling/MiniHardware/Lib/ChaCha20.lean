import Mathlib.Data.Fin.VecNotation
import Mathlib.Logic.Function.Iterate
import Mathlib.Tactic.Common
import MiniHardware.Lib.Index

/-!
# The ChaCha20 block function

The state is a matrix of words. A double round is a quarter round of every
column and then of every diagonal; the diagonals are columns once row `i` is
turned by `i` places. A program that works on one array in place runs its
quarter rounds one after the other, which is the same as all at once when
their cells are disjoint.
-/

namespace MiniHardware.Lib.ChaCha20

/-- Rotation to the left. -/
def rotl (n : Nat) (x : UInt32) : UInt32 := ⟨x.toBitVec.rotateLeft n⟩

def quarter (v : Fin 4 → UInt32) : Fin 4 → UInt32 :=
  let a := v 0 + v 1
  let d := rotl 16 (v 3 ^^^ a)
  let c := v 2 + d
  let b := rotl 12 (v 1 ^^^ c)
  let a := a + b
  let d := rotl 8 (d ^^^ a)
  let c := c + d
  let b := rotl 7 (b ^^^ c)
  ![a, b, c, d]

abbrev State := Fin 4 → Fin 4 → UInt32

def columnRound (m : State) : State := fun i j => quarter (fun k => m k j) i

/-- Row `i` turned to the left by `i` places. -/
def turn (m : State) : State := fun i j => m i (j + i)

/-- Row `i` turned to the right by `i` places. -/
def turnBack (m : State) : State := fun i j => m i (j - i)

def diagonalRound (m : State) : State := turnBack (columnRound (turn m))

def doubleRound (m : State) : State := diagonalRound (columnRound m)

/-- The constants, the key, the counter and the nonce, row by row. -/
def initial (key : Fin 8 → UInt32) (counter : UInt32) (nonce : Fin 3 → UInt32) : State :=
  ![![0x61707865, 0x3320646e, 0x79622d32, 0x6b206574],
    ![key 0, key 1, key 2, key 3],
    ![key 4, key 5, key 6, key 7],
    ![counter, nonce 0, nonce 1, nonce 2]]

/-- Twenty rounds and the addition of the initial state. -/
def block (key : Fin 8 → UInt32) (counter : UInt32) (nonce : Fin 3 → UInt32) : State :=
  let start := initial key counter nonce
  fun i j => start i j + doubleRound^[10] start i j

/-- The words of a state one after the other, each with its low byte first. -/
def serialize (m : State) (p : Fin 64) : UInt8 :=
  (m ⟨p.val / 16, by omega⟩ ⟨p.val / 4 % 4, by omega⟩ >>> UInt32.ofNat (8 * (p.val % 4))).toUInt8

/-- Byte `i` of the keystream of blocks with the counters 0, 1, 2, and so on. -/
def keystream (key : Fin 8 → UInt32) (nonce : Fin 3 → UInt32) (i : Nat) : UInt8 :=
  serialize (block key (UInt32.ofNat (i / 64)) nonce) ⟨i % 64, by omega⟩

/-! ## Rounds in place -/

section Lanes
variable {σ α β ι κ : Type*} {read : σ → α → β} {cell : κ → ι → α} {step : σ → ι → σ} {f : (κ → β) → κ → β}
  (disjoint : ∀ k k' i i', cell k i = cell k' i' → i = i')
  (own : ∀ w i k, read (step w i) (cell k i) = f (fun k => read w (cell k i)) k)
  (frame : ∀ w i a, (∀ k, a ≠ cell k i) → read (step w i) a = read w a)
include disjoint frame

/-- The lanes that are not worked on stay as they are. -/
theorem foldl_lanes_frame {lanes : List ι} {i : ι} (out : i ∉ lanes) (w : σ) (k : κ) :
    read (lanes.foldl step w) (cell k i) = read w (cell k i) := by
  induction lanes generalizing w with
  | nil => rfl
  | cons l lanes ih =>
    rw [List.mem_cons, not_or] at out
    rw [List.foldl_cons, ih out.2]
    apply frame
    intro k' same
    exact out.1 (disjoint k k' i l same)

include own

/-- Every lane is transformed as if it were the only one. -/
theorem foldl_lanes {lanes : List ι} (nodup : lanes.Nodup) {i : ι} (mem : i ∈ lanes) (w : σ) (k : κ) :
    read (lanes.foldl step w) (cell k i) = f (fun k => read w (cell k i)) k := by
  induction lanes generalizing w with
  | nil => contradiction
  | cons l lanes ih =>
    rw [List.nodup_cons] at nodup
    rw [List.foldl_cons]
    rcases List.mem_cons.mp mem with rfl | later
    · rw [foldl_lanes_frame disjoint frame nodup.1, own]
    · rw [ih nodup.2 later]
      congr 1
      funext k
      apply frame
      intro k' same
      rw [disjoint k k' i l same] at later
      exact nodup.1 later

end Lanes

end MiniHardware.Lib.ChaCha20
