import MiniHardware.Lib.Index
import MiniHardware.Lib.LongWords

/-!
# Adders (`mini-digital-circuit/src/combinational.c`)

The wires of an adder are the values they carry; its width is a parameter. Both
adders are compared with the carries of binary addition (`BitVec.carry`): the
ripple adder computes them on the way, the lookahead adder before its sum.
-/

namespace MiniHardware.Digital
open Lib

/-- `ADDER_MAX_WIDTH`. -/
abbrev adderMaxWidth : Nat := 64

/-- The width the adders are created with. -/
def adderWidth (width : Int) : Nat :=
  let width := if width > adderMaxWidth then (adderMaxWidth : Int) else width
  (if width < 1 then 1 else width).toNat

theorem adderWidth_le (width : Int) : adderWidth width ≤ adderMaxWidth := by
  have eq : adderMaxWidth = 64 := rfl
  unfold adderWidth
  dsimp only
  split <;> split <;> omega

/-- Nothing drives the wires `sum`. -/
structure RippleAdder (width : Nat) where
  a : Vector Bool width
  b : Vector Bool width
  carryOut : Bool
  width_le : width ≤ adderMaxWidth

def rippleAdderCreate (width : Int) : RippleAdder (adderWidth width) where
  a := Vector.replicate _ false
  b := Vector.replicate _ false
  carryOut := false
  width_le := adderWidth_le width

/-- The wires of a number: `(x >> i) & 1`. -/
def wiresOf (width : Nat) (x : UInt64) : Vector Bool width := Vector.ofFn fun i => longBit x i.val

/-- Nothing reads the wire `carry_in`. -/
structure CarryLookaheadAdder (width : Nat) where
  a : Vector Bool width
  b : Vector Bool width
  sum : Vector Bool width
  carryOut : Bool
  p : Vector Bool width
  g : Vector Bool width
  c : Vector Bool (width + 1)
  width_le : width ≤ adderMaxWidth

def claCreate (width : Int) : CarryLookaheadAdder (adderWidth width) where
  a := Vector.replicate _ false
  b := Vector.replicate _ false
  sum := Vector.replicate _ false
  carryOut := false
  p := Vector.replicate _ false
  g := Vector.replicate _ false
  c := Vector.replicate _ false
  width_le := adderWidth_le width

section Model

variable {width : Nat}

def rippleAdderSetInputs (ra : RippleAdder width) (a b : UInt64) : RippleAdder width :=
  { ra with
    a := wiresOf width a
    b := wiresOf width b }

/-- The body of the loop, on `carry` and `sum`. -/
def rippleStep (ra : RippleAdder width) (s : Bool × UInt64) (i : Fin width) : Bool × UInt64 :=
  let a := ra.a.get i
  let b := ra.b.get i
  let sum := (a ^^ b) ^^ s.1
  let carry := (a && b) || (s.1 && (a ^^ b))
  (carry, s.2 ||| (sum.toUInt64 <<< UInt64.ofNat i.val))

def rippleAdderCompute (ra : RippleAdder width) : UInt64 × RippleAdder width :=
  let s := (List.finRange width).foldl (rippleStep ra) (false, 0)
  (s.2, { ra with carryOut := s.1 })

def claSetInputs (cla : CarryLookaheadAdder width) (a b : UInt64) (cin : Bool) : CarryLookaheadAdder width :=
  { cla with
    a := wiresOf width a
    b := wiresOf width b
    p := Vector.ofFn fun i => longBit a i.val ^^ longBit b i.val
    g := Vector.ofFn fun i => longBit a i.val && longBit b i.val
    c := cla.c.set 0 cin }

/-- The body of the loop over the carries. -/
def claCarry (cla : CarryLookaheadAdder width) (c : Vector Bool (width + 1)) (i : Fin width) :
    Vector Bool (width + 1) :=
  c.set (i.val + 1) (cla.g.get i || (cla.p.get i && c.get i.castSucc)) (Nat.succ_lt_succ i.isLt)

def claCompute (cla : CarryLookaheadAdder width) : UInt64 × CarryLookaheadAdder width :=
  let c := (List.finRange width).foldl (claCarry cla) cla.c
  let si := fun i : Fin width => cla.p.get i ^^ c.get i.castSucc
  let sum := (List.finRange width).foldl (fun sum i => sum ||| ((si i).toUInt64 <<< UInt64.ofNat i.val)) 0
  (sum, { cla with
    c := c
    sum := Vector.ofFn si
    carryOut := c.get (Fin.last width) })

def claGetCarryOut (cla : CarryLookaheadAdder width) : Bool := cla.carryOut

end Model

/-! ## Binary addition -/

section Addition

variable {w : Nat}

/-- The low bits of a number. -/
def lowBits (w : Nat) (x : UInt64) : BitVec w := x.toBitVec.setWidth w

theorem toNat_lowBits (x : UInt64) : (lowBits w x).toNat = x.toNat % 2 ^ w := BitVec.toNat_setWidth ..

theorem getLsbD_lowBits (x : UInt64) (i : Fin w) : (lowBits w x).getLsbD i.val = longBit x i.val := by
  rw [BitVec.getLsbD, toNat_lowBits, Nat.testBit_mod_two_pow, decide_eq_true i.isLt, Bool.true_and]
  rfl

/-- The carry into place `i`. -/
def carryInto (w : Nat) (a b : UInt64) (cin : Bool) (i : Nat) : Bool :=
  BitVec.carry i (lowBits w a) (lowBits w b) cin

theorem carryInto_succ (a b : UInt64) (cin : Bool) (i : Fin w) :
    carryInto w a b cin (i.val + 1) =
      ((longBit a i.val && longBit b i.val) || (carryInto w a b cin i.val && (longBit a i.val ^^ longBit b i.val))) := by
  rw [carryInto, BitVec.carry_succ, getLsbD_lowBits, getLsbD_lowBits]
  show Bool.atLeastTwo _ _ (carryInto w a b cin i.val) = _
  cases longBit a i.val <;> cases longBit b i.val <;> cases carryInto w a b cin i.val <;> rfl

/-- The exact sum of the low bits. -/
def lowSum (w : Nat) (a b : UInt64) (cin : Bool) : Nat := a.toNat % 2 ^ w + b.toNat % 2 ^ w + cin.toNat

theorem carryInto_last (a b : UInt64) (cin : Bool) : carryInto w a b cin w = (lowSum w a b cin).testBit w := by
  have la : a.toNat % 2 ^ w < 2 ^ w := Nat.mod_lt _ (Nat.two_pow_pos w)
  have lb : b.toNat % 2 ^ w < 2 ^ w := Nat.mod_lt _ (Nat.two_pow_pos w)
  have lc := Bool.toNat_le cin
  have lt : lowSum w a b cin < 2 ^ (w + 1) := by
    unfold lowSum
    omega
  rw [carryInto, BitVec.carry_width, toNat_lowBits, toNat_lowBits]
  show decide (lowSum w a b cin ≥ 2 ^ w) = _
  rcases Nat.lt_or_ge (lowSum w a b cin) (2 ^ w) with small | large
  · rw [Nat.testBit_lt_two_pow small, decide_eq_false (Nat.not_le.2 small)]
  · rw [Nat.testBit_of_two_pow_le_and_two_pow_add_one_gt large lt, decide_eq_true large]

/-- The bits of the sum. -/
theorem testBit_lowSum (a b : UInt64) (cin : Bool) (i : Fin w) :
    (lowSum w a b cin % 2 ^ w).testBit i.val =
      ((longBit a i.val ^^ longBit b i.val) ^^ carryInto w a b cin i.val) := by
  have bit := BitVec.getLsbD_add_add_bool i.isLt (lowBits w a) (lowBits w b) cin
  have sum : (lowBits w a + lowBits w b + (BitVec.ofBool cin).setWidth w).toNat = lowSum w a b cin % 2 ^ w := by
    rw [BitVec.toNat_add, BitVec.toNat_add, BitVec.toNat_setWidth, BitVec.toNat_ofBool, toNat_lowBits, toNat_lowBits,
      Nat.mod_add_mod, Nat.add_mod_mod, lowSum]
  rw [BitVec.getLsbD, sum, getLsbD_lowBits, getLsbD_lowBits, ← Bool.xor_assoc] at bit
  exact bit

/-- A word with these bits is the sum. -/
theorem eq_lowSum {sum : UInt64} {a b : UInt64} {cin : Bool}
    (bits : ∀ k, longBit sum k = if k < w then
      (longBit a k ^^ longBit b k) ^^ carryInto w a b cin k else false) :
    sum.toNat = lowSum w a b cin % 2 ^ w := by
  apply Nat.eq_of_testBit_eq
  intro k
  have here := bits k
  rw [longBit] at here
  rw [here]
  split
  · rename_i lt
    exact (testBit_lowSum a b cin ⟨k, lt⟩).symm
  · rename_i ge
    rw [Nat.testBit_mod_two_pow, decide_eq_false ge, Bool.false_and]

end Addition

/-! ## The adders -/

section Adders

variable {width : Nat}

@[simp] theorem wiresOf_get (x : UInt64) (i : Fin width) : (wiresOf width x).get i = longBit x i.val := by
  simp [wiresOf, get_eq]

theorem ripple_adder_adds (ra : RippleAdder width) (a b : UInt64) :
    (rippleAdderCompute (rippleAdderSetInputs ra a b)).1.toNat = lowSum width a b false % 2 ^ width ∧
      (rippleAdderCompute (rippleAdderSetInputs ra a b)).2.carryOut = (lowSum width a b false).testBit width := by
  have loop := finRange_foldl_invariant (f := rippleStep (rippleAdderSetInputs ra a b))
    (motive := fun m s => s.1 = carryInto width a b false m ∧ ∀ k, longBit s.2 k = if h : k < width then
      decide (k < m) && ((longBit a k ^^ longBit b k) ^^ carryInto width a b false k) else false)
    (s := (false, 0)) ⟨BitVec.carry_zero.symm, by simp⟩ ?_
  · refine ⟨eq_lowSum fun k => ?_, loop.1.trans (carryInto_last a b false)⟩
    rw [rippleAdderCompute]
    dsimp only
    rw [loop.2 k]
    split
    · rename_i lt
      rw [decide_eq_true lt, Bool.true_and]
    · rfl
  · rintro i ⟨carry, sum⟩ ⟨rfl, bits⟩
    have ai : (rippleAdderSetInputs ra a b).a.get i = longBit a i.val := wiresOf_get a i
    have bi : (rippleAdderSetInputs ra a b).b.get i = longBit b i.val := wiresOf_get b i
    unfold rippleStep
    dsimp only
    rw [ai, bi]
    refine ⟨(carryInto_succ a b false i).symm, fun k => ?_⟩
    rw [longBit_or, bits k, longBit_flag _ (Nat.lt_of_lt_of_le i.isLt ra.width_le)]
    by_cases here : i.val = k
    · subst here
      simp
    · have next : k < i.val + 1 ↔ k < i.val := by omega
      simp [here, next]

theorem cla_carries (cla : CarryLookaheadAdder width) (a b : UInt64) (cin : Bool) (k : Fin (width + 1)) :
    ((List.finRange width).foldl (claCarry (claSetInputs cla a b cin)) (claSetInputs cla a b cin).c).get k =
      carryInto width a b cin k.val := by
  have loop := finRange_foldl_invariant (f := claCarry (claSetInputs cla a b cin))
    (motive := fun m c => ∀ k : Fin (width + 1), k.val ≤ m → c.get k = carryInto width a b cin k.val)
    (s := (claSetInputs cla a b cin).c) ?_ ?_
  · exact loop k (Nat.le_of_lt_succ k.isLt)
  · intro k le
    obtain rfl : k = 0 := Fin.ext (Nat.le_zero.1 le)
    have first : (claSetInputs cla a b cin).c.get 0 = cin := Vector.getElem_set_self _
    rw [first]
    exact BitVec.carry_zero.symm
  · intro i c inv k le
    have gi : (claSetInputs cla a b cin).g.get i = (longBit a i.val && longBit b i.val) := by
      simp [claSetInputs, get_eq]
    have pi : (claSetInputs cla a b cin).p.get i = (longBit a i.val ^^ longBit b i.val) := by
      simp [claSetInputs, get_eq]
    rw [claCarry, gi, pi, inv i.castSucc (Nat.le_refl _)]
    rcases Nat.lt_or_eq_of_le le with lt | eq
    · rw [get_eq, Vector.getElem_set_ne _ _ (by omega)]
      exact inv k (Nat.le_of_lt_succ lt)
    · obtain rfl : k = i.succ := Fin.ext eq
      rw [get_eq]
      refine (Vector.getElem_set_self _).trans ?_
      rw [Fin.val_succ, carryInto_succ, Bool.and_comm (carryInto width a b cin i.val)]
      rfl

theorem cla_adds (cla : CarryLookaheadAdder width) (a b : UInt64) (cin : Bool) :
    (claCompute (claSetInputs cla a b cin)).1.toNat = lowSum width a b cin % 2 ^ width ∧
      claGetCarryOut (claCompute (claSetInputs cla a b cin)).2 = (lowSum width a b cin).testBit width := by
  refine ⟨eq_lowSum fun k => ?_, (cla_carries cla a b cin (Fin.last width)).trans (carryInto_last a b cin)⟩
  rw [claCompute]
  dsimp only
  rw [longBit_gather cla.width_le]
  split
  · rename_i lt
    have pi : (claSetInputs cla a b cin).p.get ⟨k, lt⟩ = (longBit a k ^^ longBit b k) := by
      simp [claSetInputs, get_eq]
    rw [pi, cla_carries]
    rfl
  · rfl

end Adders

/-- **Both adders add**: the lookahead adder with any carry-in, the ripple adder without one, so they
agree. -/
theorem adders_add {width : Nat} (cla : CarryLookaheadAdder width) (ra : RippleAdder width) (a b : UInt64)
    (cin : Bool) :
    let exact := fun cin : Bool => a.toNat % 2 ^ width + b.toNat % 2 ^ width + cin.toNat
    let lookahead := fun cin => claCompute (claSetInputs cla a b cin)
    let ripple := rippleAdderCompute (rippleAdderSetInputs ra a b)
    ((lookahead cin).1.toNat = exact cin % 2 ^ width ∧
        claGetCarryOut (lookahead cin).2 = (exact cin).testBit width) ∧
      (ripple.1.toNat = exact false % 2 ^ width ∧ ripple.2.carryOut = (exact false).testBit width) ∧
      ripple.1 = (lookahead false).1 ∧ ripple.2.carryOut = claGetCarryOut (lookahead false).2 := by
  have ripple := ripple_adder_adds ra a b
  have lookahead := cla_adds cla a b false
  exact ⟨cla_adds cla a b cin, ripple, UInt64.toNat_inj.1 (ripple.1.trans lookahead.1.symm),
    ripple.2.trans lookahead.2.symm⟩

end MiniHardware.Digital
