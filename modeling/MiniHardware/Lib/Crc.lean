import Mathlib.Data.List.Basic
import Mathlib.Data.Set.Basic
import Mathlib.Order.Interval.Set.Defs
import Mathlib.Tactic.Common

/-!
# Cyclic redundancy checks

The register of a reflected bit-serial CRC: a message bit is added at bit 0,
the register shifts down, and `poly` is added when a one falls out. The shift
is linear, and injective when the top bit of `poly` is set. A word of at most
`w` bits fed in is the word added at once and shifted out (`crcRun_word`);
therefore two messages of one length that differ within `w` consecutive bits
leave different registers (`crcRun_ne_of_window`), and so do two that differ
in one or two bits, as long as no shift by their distance restores a lone bit
(`crcRun_ne_of_pair`).
-/

namespace MiniHardware.Lib

variable {w : Nat}

/-- One shift of the register. -/
def crcShift (poly s : BitVec w) : BitVec w :=
  if s.getLsbD 0 then (s >>> 1) ^^^ poly else s >>> 1

/-- A bit as the lowest one of a register. -/
def lowBit (b : Bool) : BitVec w := if b then 1 else 0

/-- The register after one more message bit. -/
def crcFeed (poly s : BitVec w) (b : Bool) : BitVec w := crcShift poly (s ^^^ lowBit b)

/-- The register after a message. -/
def crcRun (poly s : BitVec w) (bits : List Bool) : BitVec w := bits.foldl (crcFeed poly) s

variable {poly : BitVec w}

/-! ## The shift -/

/-- An empty register stays empty. -/
@[simp] theorem crcShift_zero : crcShift poly 0 = 0 := by simp [crcShift]

/-- The shift is linear. -/
theorem crcShift_xor (s t : BitVec w) :
    crcShift poly (s ^^^ t) = crcShift poly s ^^^ crcShift poly t := by
  simp only [crcShift, BitVec.getLsbD_xor, BitVec.ushiftRight_xor_distrib]
  cases s.getLsbD 0 <;> cases t.getLsbD 0
  · simp
  · simp [BitVec.xor_assoc]
  · simp only [Bool.true_bne, Bool.not_false, if_true, Bool.false_eq_true, if_false]
    rw [BitVec.xor_assoc, BitVec.xor_comm (t >>> 1), ← BitVec.xor_assoc]
  · simp only [bne_self_eq_false, Bool.false_eq_true, if_false, if_true]
    rw [BitVec.xor_comm (t >>> 1), BitVec.xor_assoc, ← BitVec.xor_assoc poly, BitVec.xor_self,
      BitVec.zero_xor]

/-- A register with a clear low bit only moves down. -/
theorem crcShift_of_low {s : BitVec w} (low : s.getLsbD 0 = false) : crcShift poly s = s >>> 1 := by
  simp [crcShift, low]

/-- With the top bit of the polynomial set, no register but zero is shifted to zero. -/
theorem crcShift_eq_zero (top : poly.msb = true) {s : BitVec w} (h : crcShift poly s = 0) : s = 0 := by
  have pos : 0 < w := by
    rcases Nat.eq_zero_or_pos w with rfl | pos
    · simp [BitVec.msb_eq_getLsbD_last] at top
    · exact pos
  unfold crcShift at h
  split at h
  · -- the polynomial's top bit stays
    have bit := congrArg (fun x => x.getLsbD (w - 1)) h
    simp only [BitVec.getLsbD_xor, BitVec.getLsbD_ushiftRight] at bit
    rw [BitVec.getLsbD_of_ge s (1 + (w - 1)) (by omega), ← BitVec.msb_eq_getLsbD_last, top] at bit
    simp at bit
  · rename_i low
    apply BitVec.eq_of_getLsbD_eq
    intro i _
    cases i with
    | zero => simpa using low
    | succ i =>
      have bit := congrArg (fun x => x.getLsbD i) h
      simpa [BitVec.getLsbD_ushiftRight, Nat.add_comm 1 i] using bit

/-- No number of shifts fills an empty register. -/
theorem iterate_crcShift_zero (n : Nat) : (crcShift poly)^[n] 0 = 0 :=
  Function.iterate_fixed crcShift_zero n

/-- Repeated shifts are linear. -/
theorem iterate_crcShift_xor (n : Nat) (s t : BitVec w) :
    (crcShift poly)^[n] (s ^^^ t) = (crcShift poly)^[n] s ^^^ (crcShift poly)^[n] t := by
  induction n generalizing s t with
  | zero => rfl
  | succ n ih => rw [Function.iterate_succ_apply, crcShift_xor, ih]; rfl

/-- With a polynomial of full degree, only an empty register is shifted to an empty one. -/
theorem iterate_crcShift_eq_zero (top : poly.msb = true) (n : Nat) {s : BitVec w}
    (h : (crcShift poly)^[n] s = 0) : s = 0 := by
  induction n generalizing s with
  | zero => exact h
  | succ n ih => exact crcShift_eq_zero top (ih h)

/-- A register whose low bits are clear only moves down that far. -/
theorem iterate_crcShift_of_low {n : Nat} {s : BitVec w} (low : ∀ i < n, s.getLsbD i = false) :
    (crcShift poly)^[n] s = s >>> n := by
  induction n with
  | zero => simp
  | succ n ih =>
    rw [Function.iterate_succ_apply', ih fun i lt => low i (Nat.lt_succ_of_lt lt), crcShift_of_low,
      ← BitVec.shiftRight_add]
    simpa [BitVec.getLsbD_ushiftRight] using low n (Nat.lt_succ_self n)

/-- None of the next `n` shifts of `s` is a lone low bit. -/
def noReturn (poly : BitVec w) : Nat → BitVec w → Bool
  | 0, _ => true
  | n + 1, s => (crcShift poly s != 1) && noReturn poly n (crcShift poly s)

/-- What the search `noReturn` says of the first `n` shifts. -/
theorem iterate_ne_one_of_noReturn {n : Nat} {s : BitVec w} (h : noReturn poly n s = true) {d : Nat}
    (pos : 0 < d) (le : d ≤ n) : (crcShift poly)^[d] s ≠ 1 := by
  induction n generalizing s d with
  | zero => omega
  | succ n ih =>
    simp only [noReturn, Bool.and_eq_true, bne_iff_ne] at h
    obtain ⟨d, rfl⟩ := Nat.exists_eq_add_of_le' pos
    rw [Function.iterate_succ_apply]
    rcases Nat.eq_zero_or_pos d with rfl | pos
    · exact h.1
    · exact ih h.2 pos (by omega)

/-! ## Messages -/

@[simp] theorem lowBit_false : (lowBit false : BitVec w) = 0 := rfl

@[simp] theorem lowBit_true : (lowBit true : BitVec w) = 1 := rfl

theorem lowBit_xor (a b : Bool) : (lowBit (a ^^ b) : BitVec w) = lowBit a ^^^ lowBit b := by
  cases a <;> cases b <;> simp

@[simp] theorem crcRun_nil (s : BitVec w) : crcRun poly s [] = s := rfl

/-- The first bit goes in first. -/
@[simp] theorem crcRun_cons (s : BitVec w) (b : Bool) (bits : List Bool) :
    crcRun poly s (b :: bits) = crcRun poly (crcFeed poly s b) bits := rfl

/-- A message in two parts. -/
theorem crcRun_append (s : BitVec w) (xs ys : List Bool) :
    crcRun poly s (xs ++ ys) = crcRun poly (crcRun poly s xs) ys := List.foldl_append

/-- Feeding a bit is linear in the register and the bit. -/
theorem crcFeed_xor (s t : BitVec w) (a b : Bool) :
    crcFeed poly (s ^^^ t) (a ^^ b) = crcFeed poly s a ^^^ crcFeed poly t b := by
  rw [crcFeed, crcFeed, crcFeed, ← crcShift_xor, lowBit_xor]
  congr 1
  rw [BitVec.xor_assoc, BitVec.xor_assoc, ← BitVec.xor_assoc t, BitVec.xor_comm t,
    BitVec.xor_assoc]

/-- The register after two messages of one length, under exclusive or. -/
theorem crcRun_xor {xs ys : List Bool} (len : xs.length = ys.length) (s t : BitVec w) :
    crcRun poly (s ^^^ t) (List.zipWith xor xs ys) = crcRun poly s xs ^^^ crcRun poly t ys := by
  induction xs generalizing s t ys with
  | nil =>
    obtain rfl : ys = [] := List.length_eq_zero_iff.1 len.symm
    rfl
  | cons x xs ih =>
    cases ys with
    | nil => cases len
    | cons y ys =>
      rw [List.zipWith_cons_cons, crcRun_cons, crcFeed_xor, ih (Nat.succ.inj len)]
      rfl

/-- Zero bits only shift. -/
theorem crcRun_replicate (s : BitVec w) (n : Nat) :
    crcRun poly s (List.replicate n false) = (crcShift poly)^[n] s := by
  induction n generalizing s with
  | zero => rfl
  | succ n ih =>
    have feed : crcFeed poly s false = crcShift poly s := congrArg _ BitVec.xor_zero
    rw [List.replicate_succ, crcRun_cons, ih, feed]
    rfl

/-- A word of bits, the first one lowest. -/
def wordOf : List Bool → BitVec w
  | [] => 0
  | b :: bits => lowBit b ^^^ (wordOf bits <<< 1)

/-- The bits of a word of bits. -/
theorem getLsbD_wordOf (bits : List Bool) {i : Nat} (lt : i < w) :
    (wordOf bits : BitVec w).getLsbD i = bits.getD i false := by
  induction bits generalizing i with
  | nil => simp [wordOf]
  | cons b bits ih =>
    rw [wordOf, BitVec.getLsbD_xor, BitVec.getLsbD_shiftLeft]
    cases i with
    | zero => cases b <;> simp [lt]
    | succ i =>
      have low : (lowBit b : BitVec w).getLsbD (i + 1) = false := by
        cases b <;> simp [BitVec.getLsbD_one]
      rw [low, Nat.add_sub_cancel, ih (Nat.lt_of_succ_lt lt)]
      simp [lt]

/-- A word fed in bit by bit is added at once and shifted out. -/
theorem crcRun_word (s : BitVec w) {bits : List Bool} (le : bits.length ≤ w) :
    crcRun poly s bits = (crcShift poly)^[bits.length] (s ^^^ wordOf bits) := by
  induction bits generalizing s with
  | nil => simp [wordOf]
  | cons b bits ih =>
    rw [List.length_cons] at le
    have down : crcShift poly (wordOf bits <<< 1 : BitVec w) = wordOf bits := by
      rw [crcShift_of_low (by simp)]
      apply BitVec.eq_of_getLsbD_eq
      intro i lt
      rw [BitVec.getLsbD_ushiftRight, BitVec.getLsbD_shiftLeft]
      rcases Nat.lt_or_ge (1 + i) w with inside | outside
      · simp [inside]
      · -- the top bit of the word is clear
        rw [getLsbD_wordOf bits lt, List.getD_eq_getElem?_getD, List.getElem?_eq_none (by omega)]
        simp [Nat.not_lt.2 outside]
    rw [crcRun_cons, ih _ (by omega), List.length_cons, Function.iterate_succ_apply, wordOf,
      ← BitVec.xor_assoc, crcShift_xor, down]
    rfl

/-! ## Differing messages -/

section Detect

variable {xs ys : List Bool}

/-- A bit of the difference is set where the messages differ. -/
theorem getD_zipWith_xor (len : xs.length = ys.length) (k : Nat) :
    (List.zipWith xor xs ys).getD k false = true ↔ xs[k]? ≠ ys[k]? := by
  rw [List.getD_eq_getElem?_getD, List.getElem?_zipWith]
  rcases Nat.lt_or_ge k xs.length with lt | ge
  · rw [List.getElem?_eq_getElem lt, List.getElem?_eq_getElem (len ▸ lt)]
    simp
  · rw [List.getElem?_eq_none ge, List.getElem?_eq_none (len ▸ ge)]
    simp

/-- A bit before the cut. -/
theorem getD_take {bits : List Bool} {p k : Nat} (lt : k < p) :
    (bits.take p).getD k false = bits.getD k false := by
  rw [List.getD_eq_getElem?_getD, List.getElem?_take_of_lt lt, ← List.getD_eq_getElem?_getD]

/-- A bit behind the cut. -/
theorem getD_drop (bits : List Bool) (p k : Nat) :
    (bits.drop p).getD k false = bits.getD (p + k) false := by
  rw [List.getD_eq_getElem?_getD, List.getElem?_drop, ← List.getD_eq_getElem?_getD]

/-- Bits of which none is set are zeros. -/
theorem eq_replicate_of_getD {bits : List Bool} (h : ∀ k < bits.length, ¬ bits.getD k false = true) :
    bits = List.replicate bits.length false := by
  apply List.ext_getElem (by simp)
  intro k lt _
  have := h k lt
  rw [List.getD_eq_getElem?_getD, List.getElem?_eq_getElem lt] at this
  simpa using this

/-- Registers without a difference are the same. -/
theorem eq_of_xor_eq_zero {s t : BitVec w} (h : s ^^^ t = 0) : s = t := by
  rw [← BitVec.xor_zero (x := s), ← BitVec.xor_self (x := t), ← BitVec.xor_assoc, h]
  exact BitVec.zero_xor

/-- Bits that are zero outside a window of the register's width, and not all zero, leave a trace. -/
theorem crcRun_ne_zero_of_window (top : poly.msb = true) {bits : List Bool} {p : Nat}
    (inside : ∀ k, bits.getD k false = true → p ≤ k ∧ k < p + w) (some : ∃ k, bits.getD k false = true) :
    crcRun poly 0 bits ≠ 0 := by
  intro zero
  have before : bits.take p = List.replicate (bits.take p).length false := by
    apply eq_replicate_of_getD
    intro k lt hit
    rw [List.length_take] at lt
    rw [getD_take (by omega)] at hit
    have := inside k hit
    omega
  have behind : (bits.drop p).drop w = List.replicate ((bits.drop p).drop w).length false := by
    apply eq_replicate_of_getD
    intro k lt hit
    rw [List.drop_drop, getD_drop] at hit
    have := inside _ hit
    omega
  have short : ((bits.drop p).take w).length ≤ w := List.length_take_le _ _
  rw [← List.take_append_drop p bits, ← List.take_append_drop w (bits.drop p), crcRun_append,
    crcRun_append, before, behind, crcRun_replicate, crcRun_replicate, iterate_crcShift_zero] at zero
  have word := iterate_crcShift_eq_zero top _ zero
  rw [crcRun_word 0 short] at word
  have clear : wordOf ((bits.drop p).take w) = (0 : BitVec w) :=
    BitVec.zero_xor.symm.trans (iterate_crcShift_eq_zero top _ word)
  obtain ⟨k, hit⟩ := some
  obtain ⟨ge, lt⟩ := inside k hit
  have bit := getLsbD_wordOf ((bits.drop p).take w) (show k - p < w by omega)
  rw [clear, getD_take (by omega), getD_drop, Nat.add_sub_cancel' ge, hit] at bit
  simp at bit

/-- **Bursts are detected.** -/
theorem crcRun_ne_of_window (top : poly.msb = true) (len : xs.length = ys.length) {p : Nat}
    (inside : ∀ k : Nat, xs[k]? ≠ ys[k]? → p ≤ k ∧ k < p + w) (some : ∃ k : Nat, xs[k]? ≠ ys[k]?)
    (s : BitVec w) : crcRun poly s xs ≠ crcRun poly s ys := by
  intro same
  have run : crcRun poly (s ^^^ s) (List.zipWith xor xs ys) = crcRun poly s xs ^^^ crcRun poly s ys :=
    crcRun_xor len s s
  rw [same, BitVec.xor_self, BitVec.xor_self] at run
  refine crcRun_ne_zero_of_window top (p := p) ?_ ?_ run
  · intro k hit
    exact inside k ((getD_zipWith_xor len k).1 hit)
  · obtain ⟨k, differ⟩ := some
    exact ⟨k, (getD_zipWith_xor len k).2 differ⟩

/-- `n` bits, of which bit `i` is set. -/
def loneBit (n i : Nat) : List Bool := (List.range n).map (· == i)

/-- A lone bit is shifted by the bits behind it. -/
theorem crcRun_loneBit {n i : Nat} (lt : i < n) :
    crcRun poly 0 (loneBit n i) = (crcShift poly)^[n - i] 1 := by
  have split : loneBit n i =
      List.replicate i false ++ true :: List.replicate (n - (i + 1)) false := by
    apply List.ext_getElem (by simp [loneBit]; omega)
    intro k _ _
    rw [List.getElem_append]
    split
    · rename_i before
      simp only [List.length_replicate] at before
      simp [loneBit, Nat.ne_of_lt before]
    · rename_i behind
      simp only [List.length_replicate, Nat.not_lt] at behind
      rw [List.getElem_cons]
      split
      · rename_i here
        rw [List.length_replicate] at here
        simp only [loneBit, List.getElem_map, List.getElem_range, beq_iff_eq]
        omega
      · rename_i later
        rw [List.length_replicate] at later
        simp only [loneBit, List.getElem_map, List.getElem_range, List.getElem_replicate,
          beq_eq_false_iff_ne, ne_eq]
        omega
  have next : n - i = n - (i + 1) + 1 := by omega
  have feed : crcFeed poly 0 true = crcShift poly 1 := congrArg _ BitVec.zero_xor
  rw [split, crcRun_append, crcRun_replicate, iterate_crcShift_zero, crcRun_cons, crcRun_replicate, next,
    Function.iterate_succ_apply, feed]

/-- **One or two wrong bits are detected**, where a lone bit does not come back after fewer shifts
than the message has bits. -/
theorem crcRun_ne_of_pair (top : poly.msb = true) (len : xs.length = ys.length)
    (order : ∀ d, 0 < d → d < xs.length → (crcShift poly)^[d] 1 ≠ 1) {i j : Nat}
    (pair : ∀ k : Nat, xs[k]? ≠ ys[k]? ↔ k = i ∨ k = j) (s : BitVec w) :
    crcRun poly s xs ≠ crcRun poly s ys := by
  rcases eq_or_ne i j with rfl | ne
  · have pos : 0 < w := by
      rcases Nat.eq_zero_or_pos w with rfl | pos
      · simp [BitVec.msb_eq_getLsbD_last] at top
      · exact pos
    exact crcRun_ne_of_window top len (p := i) (fun k differ => by have := (pair k).1 differ; omega)
      ⟨i, (pair i).2 (Or.inl rfl)⟩ s
  wlog lt : i < j generalizing i j
  · exact this (fun k => (pair k).trans or_comm) ne.symm (by omega)
  intro same
  have inside : j < xs.length := by
    by_contra ge
    refine (pair j).2 (Or.inr rfl) ?_
    rw [List.getElem?_eq_none (Nat.not_lt.1 ge), List.getElem?_eq_none (len ▸ Nat.not_lt.1 ge)]
  have both : List.zipWith xor xs ys =
      List.zipWith xor (loneBit xs.length i) (loneBit xs.length j) := by
    apply List.ext_getElem (by simp [loneBit, len])
    intro k lt' _
    have hit := (getD_zipWith_xor len k).trans (pair k)
    rw [List.getD_eq_getElem?_getD, List.getElem?_eq_getElem lt', Option.getD_some] at hit
    rw [Bool.eq_iff_iff, hit, List.getElem_zipWith]
    simp only [loneBit, List.getElem_map, List.getElem_range]
    rcases eq_or_ne k i with rfl | hi
    · simp [ne]
    · simp [hi]
  have run : crcRun poly (s ^^^ s) (List.zipWith xor xs ys) = crcRun poly s xs ^^^ crcRun poly s ys :=
    crcRun_xor len s s
  have lone : crcRun poly (0 ^^^ 0) (List.zipWith xor (loneBit xs.length i) (loneBit xs.length j)) =
      crcRun poly 0 (loneBit xs.length i) ^^^ crcRun poly 0 (loneBit xs.length j) :=
    crcRun_xor (by simp [loneBit]) 0 0
  rw [same, BitVec.xor_self, BitVec.xor_self, both] at run
  rw [show (0 : BitVec w) ^^^ 0 = 0#w from BitVec.xor_self, run] at lone
  replace run := lone.symm
  rw [crcRun_loneBit (Nat.lt_trans lt inside), crcRun_loneBit inside,
    show xs.length - i = xs.length - j + (j - i) by omega, Function.iterate_add_apply,
    ← iterate_crcShift_xor] at run
  exact order (j - i) (by omega) (by omega) (eq_of_xor_eq_zero (iterate_crcShift_eq_zero top _ run))

end Detect

end MiniHardware.Lib
