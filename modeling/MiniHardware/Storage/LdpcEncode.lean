import Mathlib.Algebra.BigOperators.Fin
import Mathlib.Algebra.BigOperators.Ring.Finset
import Mathlib.Data.Nat.Bitwise
import MiniHardware.Storage.Ldpc

/-!
# Which words `ldpc_encode` completes to codewords

A row is solved for its last parity column alone, and a later row with the
same last column overwrites it. So a parity bit is the sum of the information
bits of the row that owns its column (`EncodedAt`), and the rows hold for the
information words that are orthogonal to the rows of `ldpcResidual`, a matrix
that depends on the code only.
-/

namespace MiniHardware.Storage
open Lib

/-- A bit of a code word as a number. -/
def ldpcBit (x : UInt8) : ZMod 2 := x.toNat

theorem cast_xor (m n : Nat) : ((m ^^^ n : Nat) : ZMod 2) = m + n := by
  rw [← Nat.cast_add]
  exact (ZMod.natCast_eq_natCast_iff' _ _ 2).2 Nat.xor_mod_two_eq

theorem ldpcBit_xor (x y : UInt8) : ldpcBit (x ^^^ y) = ldpcBit x + ldpcBit y := by
  rw [ldpcBit, ldpcBit, ldpcBit, UInt8.toNat_xor, cast_xor]

theorem ldpcBit_and_one (x : UInt8) : ldpcBit (x &&& 1) = ldpcBit x := by
  rw [ldpcBit, ldpcBit, UInt8.toNat_and]
  refine (ZMod.natCast_eq_natCast_iff' _ _ 2).2 ?_
  show (x.toNat &&& 1) % 2 = _
  rw [Nat.and_one_is_mod, Nat.mod_mod]

/-! ## The matrix -/

section Code

variable (code : LdpcCode)

/-- Entry `(i, j)` of the matrix. -/
def LdpcCode.one (i : Nat) (j : Fin code.N) : ZMod 2 := if ldpcEntry code.H i j.val ≠ 0 then 1 else 0

/-- Every parity check of the matrix holds. -/
def LdpcCode.Valid (codeword : Vector UInt8 code.N) : Prop :=
  ∀ i < code.M, ∑ j, code.one i j * ldpcBit (codeword.get j) = 0

/-- The last parity column of a row. -/
def LdpcCode.lastParity (i : Nat) : Option (Fin code.N) :=
  ((List.finRange code.N).filter fun j => ldpcEntry code.H i j.val ≠ 0 ∧ code.K ≤ j.val).getLast?

/-- The owners of the columns, after one more row. -/
def LdpcCode.ownerStep (owner : Fin code.N → Option Nat) (i : Nat) : Fin code.N → Option Nat :=
  match code.lastParity i with
  | none => owner
  | some c => Function.update owner c (some i)

/-- A parity column is owned by the last row in which it is the last one. -/
def LdpcCode.owner : Fin code.N → Option Nat := (List.range code.M).foldl code.ownerStep fun _ => none

/-- Row `i` and the owners of its parity columns, added up. -/
def LdpcCode.residual (i : Nat) (j : Fin code.N) : ZMod 2 :=
  code.one i j + ∑ c : Fin code.N, if code.K ≤ c.val then
    code.one i c * (code.owner c).elim 0 fun owner => code.one owner j else 0

/-- The information bits, and zeros in the parity columns. -/
def LdpcCode.word (infoBits : Fin code.K → UInt8) (j : Fin code.N) : ZMod 2 :=
  if h : j.val < code.K then ldpcBit (infoBits ⟨j.val, h⟩) else 0

/-- The information word is orthogonal to every row of the residual matrix. -/
def LdpcCode.Solvable (infoBits : Fin code.K → UInt8) : Prop :=
  ∀ i < code.M, ∑ j, code.residual i j * code.word infoBits j = 0

variable {code}

/-! ## A row -/

theorem scan_fold (codeword : Vector UInt8 code.N) (i : Nat) (l : List (Fin code.N))
    (s : UInt8 × Option (Fin code.N)) :
    ldpcBit (l.foldl (fun s j =>
      if ldpcEntry code.H i j.val ≠ 0 then
        if j.val < code.K then (s.1 ^^^ codeword.get j, s.2) else (s.1, some j)
      else s) s).1 = ldpcBit s.1 +
        (l.map fun j => if j.val < code.K then code.one i j * ldpcBit (codeword.get j) else 0).sum ∧
    (l.foldl (fun s j =>
      if ldpcEntry code.H i j.val ≠ 0 then
        if j.val < code.K then (s.1 ^^^ codeword.get j, s.2) else (s.1, some j)
      else s) s).2 =
        ((l.filter fun j => ldpcEntry code.H i j.val ≠ 0 ∧ code.K ≤ j.val).getLast?).or s.2 := by
  induction l generalizing s with
  | nil => simp
  | cons j l ih =>
    rw [List.foldl_cons, (ih _).1, (ih _).2, List.map_cons, List.sum_cons]
    by_cases entry : ldpcEntry code.H i j.val ≠ 0
    · by_cases info : j.val < code.K
      · have out : ¬ (ldpcEntry code.H i j.val ≠ 0 ∧ code.K ≤ j.val) := fun h => by omega
        rw [if_pos entry, if_pos info, if_pos info, List.filter_cons_of_neg (by simpa using out), ldpcBit_xor,
          LdpcCode.one, if_pos entry, one_mul, add_assoc]
        exact ⟨rfl, rfl⟩
      · have inside : ldpcEntry code.H i j.val ≠ 0 ∧ code.K ≤ j.val := ⟨entry, by omega⟩
        rw [if_pos entry, if_neg info, if_neg info, List.filter_cons_of_pos (by simpa using inside), zero_add]
        refine ⟨rfl, ?_⟩
        rw [List.getLast?_cons]
        cases List.getLast? (l.filter fun j => ldpcEntry code.H i j.val ≠ 0 ∧ code.K ≤ j.val) <;> rfl
    · have out : ¬ (ldpcEntry code.H i j.val ≠ 0 ∧ code.K ≤ j.val) := fun h => entry h.1
      rw [if_neg entry, List.filter_cons_of_neg (by simpa using out), LdpcCode.one, if_neg entry, zero_mul,
        ite_self, zero_add]
      exact ⟨rfl, rfl⟩

/-- The scan adds up the row's information bits and finds its last parity column. -/
theorem ldpcScanRow_spec (codeword : Vector UInt8 code.N) (i : Nat) :
    ldpcBit (ldpcScanRow code codeword i).1 =
        ∑ j, (if j.val < code.K then code.one i j * ldpcBit (codeword.get j) else 0) ∧
      (ldpcScanRow code codeword i).2 = code.lastParity i := by
  obtain ⟨sum, last⟩ := scan_fold codeword i (List.finRange code.N) (0, none)
  refine ⟨?_, ?_⟩
  · rw [ldpcScanRow, sum, Fin.sum_univ_def]
    exact zero_add _
  · rw [ldpcScanRow, last, Option.or_none]
    rfl

/-! ## The rows -/

/-- After some rows: a parity bit is the sum of the information bits of the row that owns it. -/
structure EncodedAt (infoBits : Fin code.K → UInt8) (owner : Fin code.N → Option Nat)
    (codeword : Vector UInt8 code.N) : Prop where
  info : ∀ j : Fin code.N, j.val < code.K → ldpcBit (codeword.get j) = code.word infoBits j
  parity : ∀ c : Fin code.N, code.K ≤ c.val → ldpcBit (codeword.get c) =
    (owner c).elim 0 fun i => ∑ j, code.one i j * code.word infoBits j

theorem word_of_le {infoBits : Fin code.K → UInt8} {j : Fin code.N} (le : code.K ≤ j.val) :
    code.word infoBits j = 0 := dif_neg (Nat.not_lt.2 le)

theorem le_of_lastParity {i : Nat} {c : Fin code.N} (last : code.lastParity i = some c) : code.K ≤ c.val := by
  have mem := List.mem_of_getLast? last
  rw [List.mem_filter, decide_eq_true_iff] at mem
  exact mem.2.2

theorem EncodedAt.row {infoBits : Fin code.K → UInt8} {owner : Fin code.N → Option Nat}
    {codeword : Vector UInt8 code.N} (h : EncodedAt infoBits owner codeword) (i : Nat) :
    EncodedAt infoBits (code.ownerStep owner i) (ldpcEncodeRow code codeword i) := by
  obtain ⟨sum, last⟩ := ldpcScanRow_spec codeword i
  have information : ldpcBit (ldpcScanRow code codeword i).1 = ∑ j, code.one i j * code.word infoBits j := by
    rw [sum]
    refine Finset.sum_congr rfl fun j _ => ?_
    by_cases inside : j.val < code.K
    · rw [if_pos inside, h.info j inside]
    · rw [if_neg inside, word_of_le (Nat.not_lt.1 inside), mul_zero]
  rw [ldpcEncodeRow, LdpcCode.ownerStep, last]
  cases column : code.lastParity i with
  | none => exact h
  | some c =>
    have le := le_of_lastParity column
    dsimp only
    constructor
    · intro j inside
      have ne : c.val ≠ j.val := by omega
      simp only [get_eq, Vector.getElem_set_ne _ _ ne]
      exact h.info j inside
    · intro c' outside
      by_cases same : c' = c
      · subst same
        simp only [get_eq, Vector.getElem_set_self, Function.update_self, Option.elim_some]
        exact information
      · have ne : c.val ≠ c'.val := fun e => same (Fin.ext e.symm)
        simp only [get_eq, Vector.getElem_set_ne _ _ ne, Function.update_of_ne same]
        exact h.parity c' outside

theorem encodedAt_encode (infoBits : Fin code.K → UInt8) :
    EncodedAt infoBits code.owner (ldpcEncode code infoBits) := by
  have run : ∀ (l : List Nat) owner codeword, EncodedAt infoBits owner codeword →
      EncodedAt infoBits (l.foldl code.ownerStep owner) (l.foldl (ldpcEncodeRow code) codeword) := by
    intro l
    induction l with
    | nil => exact fun _ _ h => h
    | cons i l ih => exact fun _ _ h => ih _ _ (h.row i)
  apply run
  constructor
  · intro j inside
    simp only [get_eq, Vector.getElem_ofFn, LdpcCode.word, dif_pos inside, ldpcBit_and_one]
  · intro c outside
    simp only [get_eq, Vector.getElem_ofFn, dif_neg (Nat.not_lt.2 outside), Option.elim_none]
    rfl

/-! ## The checks -/

/-- The sum over a row of an encoded word is the sum over the residual row of the information. -/
theorem sum_row_encode (infoBits : Fin code.K → UInt8) (i : Nat) :
    ∑ j, code.one i j * ldpcBit ((ldpcEncode code infoBits).get j) = ∑ j, code.residual i j * code.word infoBits j := by
  have h := encodedAt_encode infoBits
  have bits : ∀ j : Fin code.N, code.one i j * ldpcBit ((ldpcEncode code infoBits).get j) =
      code.one i j * code.word infoBits j + if code.K ≤ j.val then
        code.one i j * (code.owner j).elim 0 fun owner => ∑ k, code.one owner k * code.word infoBits k else 0 := by
    intro j
    by_cases inside : j.val < code.K
    · rw [if_neg (Nat.not_le.2 inside), h.info j inside, add_zero]
    · have le := Nat.not_lt.1 inside
      rw [if_pos le, h.parity j le, word_of_le le, mul_zero, zero_add]
  have parity : ∀ c : Fin code.N, (if code.K ≤ c.val then
        code.one i c * (code.owner c).elim 0 fun owner => ∑ k, code.one owner k * code.word infoBits k else 0) =
      ∑ k, (if code.K ≤ c.val then
        code.one i c * (code.owner c).elim 0 fun owner => code.one owner k else 0) * code.word infoBits k := by
    intro c
    by_cases le : code.K ≤ c.val
    · simp only [if_pos le]
      cases code.owner c with
      | none => simp
      | some owner => simp only [Option.elim_some, Finset.mul_sum, mul_assoc]
    · simp only [if_neg le, zero_mul, Finset.sum_const_zero]
  rw [Finset.sum_congr rfl fun j _ => bits j, Finset.sum_add_distrib, Finset.sum_congr rfl fun c _ => parity c,
    Finset.sum_comm, ← Finset.sum_add_distrib]
  refine Finset.sum_congr rfl fun j _ => ?_
  rw [LdpcCode.residual, add_mul, Finset.sum_mul]

theorem valid_encode_iff (infoBits : Fin code.K → UInt8) :
    code.Valid (ldpcEncode code infoBits) ↔ code.Solvable infoBits := by
  simp only [LdpcCode.Valid, LdpcCode.Solvable, sum_row_encode]

/-- `ldpc_check_codeword` tests the parity checks. -/
theorem ldpcCheckCodeword_iff (codeword : Vector UInt8 code.N) :
    ldpcCheckCodeword code (codeword.map fun x => (x.toNat : Int)) = true ↔ code.Valid codeword := by
  have row : ∀ i (l : List (Fin code.N)) (sum : Nat), sum < 2 →
      l.foldl (fun sum j => if ldpcEntry code.H i j.val ≠ 0 then
        sum ^^^ ((codeword.map fun x => (x.toNat : Int)).get j % 2).toNat else sum) sum < 2 ∧
      ((l.foldl (fun sum j => if ldpcEntry code.H i j.val ≠ 0 then
        sum ^^^ ((codeword.map fun x => (x.toNat : Int)).get j % 2).toNat else sum) sum : Nat) : ZMod 2) =
          sum + (l.map fun j => code.one i j * ldpcBit (codeword.get j)).sum := by
    intro i l
    induction l with
    | nil =>
      intro sum lt
      exact ⟨lt, by simp⟩
    | cons j l ih =>
      intro sum lt
      have value : ((codeword.map fun x => (x.toNat : Int)).get j % 2).toNat = (codeword.get j).toNat % 2 := by
        simp only [get_eq, Vector.getElem_map]
        omega
      rw [List.foldl_cons, List.map_cons, List.sum_cons, value, LdpcCode.one]
      by_cases entry : ldpcEntry code.H i j.val ≠ 0
      · rw [if_pos entry, if_pos entry, one_mul]
        have small : sum ^^^ (codeword.get j).toNat % 2 < 2 ^ 1 :=
          Nat.xor_lt_two_pow lt (Nat.mod_lt _ (by decide))
        obtain ⟨bound, total⟩ := ih _ small
        refine ⟨bound, ?_⟩
        rw [total, cast_xor, ZMod.natCast_mod, add_assoc]
        rfl
      · rw [if_neg entry, if_neg entry, zero_mul, zero_add]
        exact ih sum lt
  have zero : ∀ i, ldpcCheckRow code (codeword.map fun x => (x.toNat : Int)) i = 0 ↔
      ∑ j, code.one i j * ldpcBit (codeword.get j) = 0 := by
    intro i
    obtain ⟨small, total⟩ := row i (List.finRange code.N) 0 (by decide)
    rw [Nat.cast_zero, zero_add, ← Fin.sum_univ_def] at total
    rw [← total, ldpcCheckRow]
    generalize List.foldl _ 0 (List.finRange code.N) = sum at small ⊢
    constructor
    · rintro rfl
      exact Nat.cast_zero
    · intro cast
      have := (ZMod.natCast_eq_zero_iff sum 2).1 cast
      omega
  rw [ldpcCheckCodeword, List.all_eq_true]
  simp only [List.mem_range, decide_eq_true_eq, zero]
  rfl

end Code

/-! ## Owners -/

theorem owner_ne_none {code : LdpcCode} {c : Fin code.N} :
    code.owner c ≠ none ↔ ∃ i ∈ List.range code.M, code.lastParity i = some c := by
  have one : ∀ (owner : Fin code.N → Option Nat) i, code.ownerStep owner i c ≠ none ↔
      owner c ≠ none ∨ code.lastParity i = some c := by
    intro owner i
    rw [LdpcCode.ownerStep]
    cases code.lastParity i with
    | none => simp
    | some c' =>
      dsimp only
      by_cases same : c = c'
      · subst same
        simp
      · rw [Function.update_of_ne same, Option.some_inj]
        exact (or_iff_left (Ne.symm same)).symm
  have all := @foldl_or _ Nat _ (fun owner : Fin code.N → Option Nat => owner c ≠ none) _ one
    (List.range code.M) fun _ => none
  exact all.trans (or_iff_right (not_not.2 rfl))

theorem lastParity_owner {code : LdpcCode} {c : Fin code.N} {o : Nat} (owns : code.owner c = some o) :
    o < code.M ∧ code.lastParity o = some c := by
  have run : ∀ l : List Nat, (∀ i ∈ l, i < code.M) → ∀ owner : Fin code.N → Option Nat,
      (∀ c o, owner c = some o → o < code.M ∧ code.lastParity o = some c) →
        ∀ c o, l.foldl code.ownerStep owner c = some o → o < code.M ∧ code.lastParity o = some c := by
    intro l
    induction l with
    | nil => exact fun _ _ h => h
    | cons i l ih =>
      intro inside owner h
      refine ih (fun k hk => inside k (List.mem_cons_of_mem i hk)) _ ?_
      intro c o step
      rw [LdpcCode.ownerStep] at step
      cases last : code.lastParity i with
      | none => exact h c o (by simpa [last] using step)
      | some c' =>
        rw [last] at step
        dsimp only at step
        by_cases same : c = c'
        · subst same
          rw [Function.update_self, Option.some_inj] at step
          subst step
          exact ⟨inside i List.mem_cons_self, last⟩
        · rw [Function.update_of_ne same] at step
          exact h c o step
  exact run _ (fun i hi => List.mem_range.1 hi) _ (fun _ _ h => by cases h) c o owns

/-- The last place of all, if it passes, is the last one that does. -/
theorem getLast?_filter_finRange {n : Nat} {p : Fin n → Bool} {last : Fin n} (top : last.val + 1 = n)
    (pass : p last = true) : ((List.finRange n).filter p).getLast? = some last := by
  obtain ⟨m, rfl⟩ : ∃ m, n = m + 1 := ⟨last.val, top.symm⟩
  obtain rfl : last = Fin.last m := Fin.ext (by rw [Fin.val_last]; omega)
  rw [List.finRange_succ_last, List.filter_append, List.filter_cons_of_pos pass, List.filter_nil,
    List.getLast?_append_cons]
  rfl

/-! ## Codes of long and of short rows -/

section Built

variable {N dv dc : Int} {code : LdpcCode} (built : ldpcGallagerConstruct N dv dc = some code)

include built

theorem built_spec : code.H = ldpcFill code.N code.M code.dv code.dc ∧ 24 ≤ code.N ∧ 4 ≤ code.M ∧
    2 ≤ code.dv ∧ code.dv < code.dc := by
  have spec := ldpcParameters_spec N dv dc
  rw [ldpcGallagerConstruct] at built
  dsimp only at built
  split at built
  · obtain rfl := Option.some_inj.1 built
    refine ⟨rfl, spec.1, ?_, spec.2.1, spec.2.2⟩
    dsimp only
    rw [ldpcRows]
    split <;> omega
  · cases built

/-- A row as long as the code is full or empty. -/
theorem row_full_or_empty (long : code.N ≤ code.dc) (i : Nat) :
    (∀ j, code.one i j = 1) ∨ ∀ j, code.one i j = 0 := by
  obtain ⟨matrix, least, -, -, -⟩ := built_spec built
  have same : ∀ j j' : Fin code.N, ldpcEntry code.H i j.val ≠ 0 → ldpcEntry code.H i j'.val ≠ 0 := by
    intro j j' one
    rw [matrix, ldpcEntry_fill code.N_le code.M_le] at one ⊢
    obtain ⟨r, hr, k, hk, l, -, row, -, lt, -⟩ := one
    refine ⟨r, hr, k, hk, (j'.val + (code.N - (k * code.dc + r * 7) % code.N)) % code.N, ?_, row, ?_, lt, j'.isLt⟩
    · exact List.mem_range.2 (lt_of_lt_of_le (Nat.mod_lt _ (by omega)) long)
    · have shift := Nat.mod_lt (k * code.dc + r * 7) (by omega : code.N > 0)
      rw [Nat.add_right_comm, Nat.add_mod_mod, ← Nat.mod_add_mod,
        show (k * code.dc + r * 7) % code.N + (j'.val + (code.N - (k * code.dc + r * 7) % code.N)) =
          j'.val + code.N by omega, Nat.add_mod_right, Nat.mod_eq_of_lt j'.isLt]
  by_cases any : ∃ j : Fin code.N, ldpcEntry code.H i j.val ≠ 0
  · obtain ⟨j, one⟩ := any
    exact .inl fun j' => if_pos (same j j' one)
  · exact .inr fun j => if_neg fun one => any ⟨j, one⟩

/-- Full rows complete every information word. -/
theorem solvable_of_long_rows (long : code.N ≤ code.dc) (infoBits : Fin code.K → UInt8) :
    code.Solvable infoBits := by
  obtain ⟨-, least, rows, -, -⟩ := built_spec built
  have sum := code.K_add
  have lastFull : ∀ i, (∀ j, code.one i j = 1) → code.lastParity i = some ⟨code.N - 1, by omega⟩ := by
    intro i full
    apply getLast?_filter_finRange (by dsimp only; omega)
    have entry : ldpcEntry code.H i (code.N - 1) ≠ 0 := by
      intro zero
      have := full ⟨code.N - 1, by omega⟩
      rw [LdpcCode.one, if_neg (not_not.2 zero)] at this
      exact zero_ne_one this
    exact decide_eq_true ⟨entry, by dsimp only; omega⟩
  have lastEmpty : ∀ i, (∀ j, code.one i j = 0) → code.lastParity i = none := by
    intro i empty
    rw [LdpcCode.lastParity, List.getLast?_eq_none_iff, List.filter_eq_nil_iff]
    intro j _ entry
    have := empty j
    rw [LdpcCode.one, if_pos (of_decide_eq_true entry).1] at this
    exact one_ne_zero this
  have owns : ∀ c o, code.owner c = some o → c = ⟨code.N - 1, by omega⟩ ∧ ∀ j, code.one o j = 1 := by
    intro c o owner
    obtain ⟨-, last⟩ := lastParity_owner owner
    rcases row_full_or_empty built long o with full | empty
    · rw [lastFull o full, Option.some_inj] at last
      exact ⟨last.symm, full⟩
    · rw [lastEmpty o empty] at last
      cases last
  intro i lt
  refine Finset.sum_eq_zero fun j _ => ?_
  have zero : code.residual i j = 0 := by
    rw [LdpcCode.residual]
    rcases row_full_or_empty built long i with full | empty
    · -- the owner of the last column is full too
      rw [full, Finset.sum_eq_single ⟨code.N - 1, by omega⟩, if_pos (by dsimp only; omega), full, one_mul]
      · cases owner : code.owner ⟨code.N - 1, by omega⟩ with
        | none => exact absurd owner (owner_ne_none.2 ⟨i, List.mem_range.2 lt, lastFull i full⟩)
        | some o =>
          rw [Option.elim_some, (owns _ o owner).2]
          decide
      · intro c _ ne
        cases owner : code.owner c with
        | none => simp
        | some o => exact absurd (owns c o owner).1 ne
      · exact fun h => absurd (Finset.mem_univ _) h
    · simp [empty]
  rw [zero, zero_mul]

/-- If the first row has information bits only, their sum must be zero. -/
theorem not_solvable_of_short_rows (short : code.dc ≤ code.K) {infoBits : Fin code.K → UInt8}
    (odd : ∑ j : Fin code.N, (if j.val < code.dc then code.word infoBits j else 0) = 1) :
    ¬ code.Solvable infoBits := by
  obtain ⟨matrix, least, rows, two, lt⟩ := built_spec built
  have sum := code.K_add
  have first : ∀ j : Fin code.N, code.one 0 j = if j.val < code.dc then 1 else 0 := by
    intro j
    have entry : ldpcEntry code.H 0 j.val ≠ 0 ↔ j.val < code.dc := by
      rw [matrix, ldpcEntry_fill code.N_le code.M_le]
      constructor
      · rintro ⟨r, -, i, -, k, hk, row, col, -, -⟩
        have zero : r * (if code.M / code.dv < 1 then 1 else code.M / code.dv) = 0 ∧ i = 0 := by omega
        have none : r = 0 := (Nat.mul_eq_zero.1 zero.1).resolve_right (by split <;> omega)
        rw [none, zero.2, Nat.zero_mul, Nat.zero_add, Nat.zero_mul, Nat.add_zero] at col
        rw [col]
        exact lt_of_le_of_lt (Nat.mod_le _ _) (List.mem_range.1 hk)
      · intro inside
        refine ⟨0, List.mem_range.2 (by omega), 0, List.mem_range.2 (by split <;> omega), j.val,
          List.mem_range.2 inside, by omega, ?_, by omega, j.isLt⟩
        rw [Nat.zero_mul, Nat.zero_add, Nat.zero_mul, Nat.add_zero, Nat.mod_eq_of_lt j.isLt]
    simp only [LdpcCode.one, entry]
  intro solvable
  have zero := solvable 0 (by omega)
  have residual : ∀ j, code.residual 0 j = code.one 0 j := by
    intro j
    rw [LdpcCode.residual, Finset.sum_eq_zero, add_zero]
    intro c _
    by_cases le : code.K ≤ c.val
    · rw [if_pos le, first, if_neg (by omega), zero_mul]
    · rw [if_neg le]
  simp only [residual, first, ite_mul, one_mul, zero_mul] at zero
  rw [odd] at zero
  exact one_ne_zero zero

end Built

/-- **`ldpc_encode` yields a codeword exactly for the information words that are orthogonal to the
residual matrix**: for all of them in a code of full rows, and for none whose first `dc` bits have an
odd sum in a code with `dc ≤ K`. -/
theorem ldpc_encode_valid_iff {N dv dc : Int} {code : LdpcCode}
    (built : ldpcGallagerConstruct N dv dc = some code) (infoBits : Fin code.K → UInt8) :
    ((code.Valid (ldpcEncode code infoBits) ∧
        ldpcCheckCodeword code ((ldpcEncode code infoBits).map fun x => (x.toNat : Int)) = true) ↔
      code.Solvable infoBits) ∧
    (code.N ≤ code.dc → code.Solvable infoBits) ∧
    (code.dc ≤ code.K → ∑ j : Fin code.N, (if j.val < code.dc then code.word infoBits j else 0) = 1 →
      ¬ code.Solvable infoBits) := by
  refine ⟨?_, fun long => solvable_of_long_rows built long infoBits,
    fun short odd => not_solvable_of_short_rows built short odd⟩
  rw [ldpcCheckCodeword_iff, and_self, valid_encode_iff]

/-- The code with `N = 24`, `dv = 3` and `dc = 6`. -/
def ldpcCode24 : LdpcCode := (ldpcGallagerConstruct 24 3 6).get (by decide)

/-- Ones at the places 2 and 3 of the information. -/
def pairOfOnes (j : Fin ldpcCode24.K) : UInt8 := if j.val / 2 = 1 then 1 else 0

/-- They meet in every row of the residual matrix, and the word is completed. -/
theorem ldpc_encode_valid_iff_pair :
    ldpcGallagerConstruct 24 3 6 = some ldpcCode24 ∧ ldpcCode24.Solvable pairOfOnes ∧
      ldpcCheckCodeword ldpcCode24 ((ldpcEncode ldpcCode24 pairOfOnes).map fun x => (x.toNat : Int)) = true := by
  have built : ldpcGallagerConstruct 24 3 6 = some ldpcCode24 := (Option.some_get _).symm
  have accepted :
      ldpcCheckCodeword ldpcCode24 ((ldpcEncode ldpcCode24 pairOfOnes).map fun x => (x.toNat : Int)) = true := by
    decide +kernel
  have solvable := (ldpc_encode_valid_iff built pairOfOnes).1.1 ⟨(ldpcCheckCodeword_iff _).1 accepted, accepted⟩
  exact ⟨built, solvable, accepted⟩

/-- The bits `0, 1, 0, 1, …` are not completed: the first row has odd parity. -/
theorem ldpc_encode_alternating_fails :
    ldpcGallagerConstruct 24 3 6 = some ldpcCode24 ∧
      ldpcCheckCodeword ldpcCode24
        ((ldpcEncode ldpcCode24 fun j => UInt8.ofNat (j.val % 2)).map fun x => (x.toNat : Int)) = false := by
  refine ⟨(Option.some_get _).symm, ?_⟩
  decide +kernel

end MiniHardware.Storage
