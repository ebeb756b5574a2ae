import MiniHardware.Digital.Sop

/-!
# Quine-McCluskey (`mini-digital-circuit/src/boolean_algebra.c`)

`qmc_minimize` writes every minterm of the list as a prime implicant and
combines none of them. So its terms are prime if and only if no two minterms
are neighbours, and the writes stay in `primes` if there are at most
`BA_MAX_IMPLICANTS` of them (`qmc_minimize_iff`).
-/

namespace MiniHardware.Digital
open Lib

/-- `BA_MAX_IMPLICANTS`. -/
abbrev baMaxImplicants : Nat := 128

structure Implicant where
  mask : UInt8
  values : UInt8
  covered : List Int
  isPrime : Bool

/-- The arrays hold their first `prime_count` and `minterm_count` entries. -/
structure QMCResult where
  numVars : Nat
  primes : List Implicant
  mintermIndices : List Int
  mintermCount : Nat
  vars_le : numVars ≤ baMaxVars
  primes_le : primes.length ≤ baMaxImplicants

/-- The implicant that a minterm becomes. -/
def primeOf (numVars : Nat) (minterm : Int) : Implicant where
  mask := UInt8.ofNat ((1 <<< numVars) - 1)
  values := UInt8.ofInt minterm
  covered := [minterm]
  isPrime := true

/-- The body of the loop over the minterms; behind the end of `primes` there is no result. -/
def addPrime (res : QMCResult) (minterm : Int) : Option QMCResult :=
  if h : res.primes.length < baMaxImplicants then
    some { res with
      mintermIndices := res.mintermIndices ++ [minterm]
      primes := res.primes ++ [primeOf res.numVars minterm]
      primes_le := by rw [List.length_append]; exact h }
  else none

/-- The result with nothing in it. -/
def qmcEmpty (numVars : Int) : QMCResult where
  numVars := (sopVars numVars).toNat
  primes := []
  mintermIndices := []
  mintermCount := 0
  vars_le := sopVars_le numVars
  primes_le := Nat.zero_le _

def qmcMinimize (minterms : List Int) (numVars : Int) : Option QMCResult :=
  ((minterms.take baMaxTerms).foldlM addPrime (qmcEmpty numVars)).map fun res =>
    { res with mintermCount := minterms.length }

def qmcToSop (result : QMCResult) : SOP :=
  result.primes.foldl (fun s p => sopAddTerm s p.mask p.values) (sopCreate result.numVars)

/-! ## The loop -/

/-- Implicants that have room are all written. -/
theorem foldlM_addPrime (l : List Int) (res : QMCResult) (room : res.primes.length + l.length ≤ baMaxImplicants) :
    ∃ res', l.foldlM addPrime res = some res' ∧ res'.numVars = res.numVars ∧
      res'.primes = res.primes ++ l.map (primeOf res.numVars) := by
  induction l generalizing res with
  | nil => exact ⟨res, rfl, rfl, by simp⟩
  | cons m l ih =>
    rw [List.length_cons] at room
    have here : res.primes.length < baMaxImplicants := by omega
    obtain ⟨res', run, vars, primes⟩ := ih
      { res with
        mintermIndices := res.mintermIndices ++ [m]
        primes := res.primes ++ [primeOf res.numVars m]
        primes_le := by rw [List.length_append]; exact here }
      (by rw [List.length_append, List.length_singleton]; omega)
    refine ⟨res', ?_, vars, by rw [primes]; simp⟩
    rw [List.foldlM_cons, addPrime, dif_pos here]
    exact run

/-- The write behind the last place. -/
theorem foldlM_addPrime_outside (l : List Int) (res : QMCResult)
    (full : baMaxImplicants < res.primes.length + l.length) : l.foldlM addPrime res = none := by
  induction l generalizing res with
  | nil => exact absurd res.primes_le (Nat.not_le.2 full)
  | cons m l ih =>
    rw [List.foldlM_cons, addPrime]
    split
    · refine ih _ ?_
      rw [List.length_cons] at full
      rw [List.length_append, List.length_singleton]
      omega
    · rfl

/-- The term of a minterm. -/
def mintermTerm (n : Nat) (minterm : Int) : Minterm :=
  ⟨n, UInt8.ofNat ((1 <<< n) - 1), UInt8.ofInt minterm, false⟩

theorem qmc_minimize_outside {minterms : List Int} (n : Int) (many : baMaxImplicants < minterms.length) :
    qmcMinimize minterms n = none := by
  have front : baMaxImplicants < (minterms.take baMaxTerms).length := by
    have : baMaxImplicants < baMaxTerms := by decide
    rw [List.length_take]
    omega
  rw [qmcMinimize, foldlM_addPrime_outside _ _ (by simpa [qmcEmpty] using front)]
  rfl

theorem qmc_minimize_inside {n : Nat} (pos : 1 ≤ n) (le : n ≤ baMaxVars) {minterms : List Int}
    (few : minterms.length ≤ baMaxImplicants) :
    ∃ res, qmcMinimize minterms n = some res ∧ (qmcToSop res).numVars = n ∧
      (qmcToSop res).terms = minterms.map (mintermTerm n) := by
  have all : minterms.take baMaxTerms = minterms := List.take_of_length_le (Nat.le_trans few (by decide))
  have vars : (qmcEmpty n).numVars = n := sopVars_of_le pos le
  obtain ⟨res, run, kept, primes⟩ := foldlM_addPrime minterms (qmcEmpty n) (by simpa [qmcEmpty] using few)
  rw [vars] at kept primes
  refine ⟨{ res with mintermCount := minterms.length }, by rw [qmcMinimize, all, run]; rfl, ?_⟩
  have start : (sopCreate res.numVars).numVars = n := by rw [kept]; exact sopVars_of_le pos le
  have step : ∀ (s : SOP) (p : Implicant), s.numVars = n → sopAddTerm s p.mask p.values =
      (some (⟨n, p.mask, p.values, false⟩ : Minterm)).elim s s.push := by
    rintro s p rfl
    rfl
  have loop := foldl_push_terms step start res.primes
    (by simpa using Nat.le_trans res.primes_le (by decide : baMaxImplicants ≤ baMaxTerms))
  refine ⟨loop.1, loop.2.trans ?_⟩
  rw [primes]
  simp [qmcEmpty, Function.comp_def, primeOf, mintermTerm]

/-! ## The terms -/

section Terms

variable {n : Nat}

/-- A valuation of the variables is its bits. -/
theorem valuation_ext {r s : UInt8} (hr : r.toNat < 2 ^ n) (hs : s.toNat < 2 ^ n)
    (same : ∀ v < n, byteBit r v = byteBit s v) : r = s := by
  apply byte_ext
  intro v _
  rcases Nat.lt_or_ge v n with lt | ge
  · exact same v lt
  · have high := Nat.pow_le_pow_right (n := 2) (by decide) ge
    rw [byteBit, byteBit, Nat.testBit_lt_two_pow (Nat.lt_of_lt_of_le hr high),
      Nat.testBit_lt_two_pow (Nat.lt_of_lt_of_le hs high)]

theorem two_pow_vars_le (le : n ≤ baMaxVars) : 2 ^ n ≤ 256 :=
  Nat.pow_le_pow_right (by decide) le

theorem byteBit_mask (le : n ≤ baMaxVars) {v : Nat} (lt : v < n) :
    byteBit (UInt8.ofNat ((1 <<< n) - 1)) v = true := by
  have small : 2 ^ n - 1 < 256 := by
    have := two_pow_vars_le le
    have := Nat.two_pow_pos n
    omega
  rw [byteBit, Nat.one_shiftLeft, UInt8.toNat_ofNat', Nat.mod_eq_of_lt small, Nat.testBit_two_pow_sub_one]
  exact decide_eq_true lt

/-- A minterm is true at its own valuation only. -/
theorem mintermTerm_iff (le : n ≤ baMaxVars) {m : Int} {r : UInt8} :
    termTrue n (mintermTerm n m) r = true ↔ ∀ v < n, byteBit r v = byteBit (UInt8.ofInt m) v := by
  rw [termTrue_iff]
  refine forall₂_congr fun v lt => ?_
  exact ⟨fun h => h (byteBit_mask le lt), fun h _ => h⟩

theorem toNat_minterm (le : n ≤ baMaxVars) {m : Int} (bound : 0 ≤ m ∧ m < 2 ^ n) :
    (UInt8.ofInt m).toNat = m.toNat := by
  have high := two_pow_vars_le le
  have cast : ((2 ^ n : Nat) : Int) = 2 ^ n := by push_cast; rfl
  have same : (m % 2 ^ 8).toNat = m.toNat := by
    rw [Int.emod_eq_of_lt bound.1 (by omega)]
  rw [UInt8.ofInt, same, UInt8.toNat_ofNat', Nat.mod_eq_of_lt (by omega)]

theorem minterm_lt (le : n ≤ baMaxVars) {m : Int} (bound : 0 ≤ m ∧ m < 2 ^ n) :
    (UInt8.ofInt m).toNat < 2 ^ n := by
  rw [toNat_minterm le bound]
  exact (Int.toNat_lt bound.1).2 (by exact_mod_cast bound.2)

/-- Without the literal of variable `v` the other bits decide. -/
theorem mintermTerm_drop_iff (le : n ≤ baMaxVars) {m : Int} {v : Nat} (lt : v < 8) {r : UInt8} :
    termTrue n ((mintermTerm n m).drop v) r = true ↔
      ∀ w < n, w ≠ v → byteBit r w = byteBit (UInt8.ofInt m) w := by
  have fits : byteBit (mintermTerm n m).mask v = true →
      byteBit (mintermTerm n m).values v = byteBit (UInt8.ofInt m) v := fun _ => rfl
  rw [termTrue_drop lt fits, mintermTerm_iff le]
  refine forall₂_congr fun w _ => ?_
  rw [byteBit_withBit lt]
  by_cases eq : w = v
  · simp [eq]
  · simp [eq]

/-- The neighbour of a valuation in variable `v`. -/
theorem byteBit_flip (r : UInt8) {v : Nat} (lt : v < 8) (w : Nat) :
    byteBit (withBit r v (!byteBit r v)) w = (byteBit r w ^^ decide (w = v)) := by
  rw [byteBit_withBit lt]
  split
  · rename_i eq
    simp [eq]
  · rename_i ne
    simp [ne]

theorem toNat_flip (r : UInt8) {v : Nat} (lt : v < 8) :
    (withBit r v (!byteBit r v)).toNat = r.toNat ^^^ 2 ^ v := by
  apply Nat.eq_of_testBit_eq
  intro w
  rw [Nat.testBit_xor, Nat.testBit_two_pow]
  have bit := byteBit_flip r lt w
  rw [decide_eq_decide.2 eq_comm] at bit
  exact bit

/-- Valuations that agree but for variable `v` are equal or neighbours. -/
theorem eq_or_flip {r s : UInt8} (small : n ≤ 8) {v : Nat} (lt : v < n) (ltR : r.toNat < 2 ^ n)
    (ltS : s.toNat < 2 ^ n) (agree : ∀ w < n, w ≠ v → byteBit r w = byteBit s w) :
    r = s ∨ r = withBit s v (!byteBit s v) := by
  have lt8 : v < 8 := Nat.lt_of_lt_of_le lt small
  have flipLow : (withBit s v (!byteBit s v)).toNat < 2 ^ n := by
    rw [toNat_flip s lt8]
    exact Nat.xor_lt_two_pow ltS (Nat.pow_lt_pow_right (by decide) lt)
  by_cases same : byteBit r v = byteBit s v
  · left
    refine valuation_ext ltR ltS fun w ltW => ?_
    by_cases eq : w = v
    · rw [eq, same]
    · exact agree w ltW eq
  · right
    refine valuation_ext ltR flipLow fun w ltW => ?_
    rw [byteBit_flip s lt8]
    by_cases eq : w = v
    · subst eq
      simpa using Bool.eq_not_of_ne same
    · simp [eq, agree w ltW eq]

end Terms

/-- The terms of the sum are prime implicants of the listed minterms: the sum is true at these
only, and a term without one of its literals is true somewhere else. -/
structure Minimizes (n : Nat) (minterms : List Int) (sop : SOP) : Prop where
  eval : ∀ r : UInt8, r.toNat < 2 ^ n → (sopEval sop r = true ↔ (r.toNat : Int) ∈ minterms)
  prime : ∀ t ∈ sop.terms, ∀ v < n, byteBit t.mask v = true →
    ∃ r : UInt8, r.toNat < 2 ^ n ∧ (r.toNat : Int) ∉ minterms ∧ termTrue n (t.drop v) r = true

section Minimize

variable {n : Nat} {minterms : List Int}

/-- The sum of all minterms is true where it should be. -/
theorem eval_minterms (le : n ≤ baMaxVars) (bound : ∀ m ∈ minterms, 0 ≤ m ∧ m < 2 ^ n) {sop : SOP}
    (vars : sop.numVars = n) (terms : sop.terms = minterms.map (mintermTerm n)) {r : UInt8}
    (lt : r.toNat < 2 ^ n) : sopEval sop r = true ↔ (r.toNat : Int) ∈ minterms := by
  rw [sopEval_iff, vars, terms]
  simp only [List.mem_map]
  constructor
  · rintro ⟨_, ⟨m, mem, rfl⟩, holds⟩
    rw [valuation_ext lt (minterm_lt le (bound m mem)) ((mintermTerm_iff le).1 holds),
      toNat_minterm le (bound m mem), Int.toNat_of_nonneg (bound m mem).1]
    exact mem
  · intro mem
    refine ⟨_, ⟨_, mem, rfl⟩, (mintermTerm_iff le).2 fun v _ => ?_⟩
    have same : UInt8.ofInt (r.toNat : Int) = r :=
      UInt8.toNat_inj.1 ((toNat_minterm le (bound _ mem)).trans (Int.toNat_natCast _))
    rw [same]

/-- A minterm without variable `v` is true at its valuation and at the neighbour of that. -/
theorem prime_minterm_iff (le : n ≤ baMaxVars) (bound : ∀ m ∈ minterms, 0 ≤ m ∧ m < 2 ^ n) {m : Int}
    (mem : m ∈ minterms) {v : Nat} (lt : v < n) :
    (∃ r : UInt8, r.toNat < 2 ^ n ∧ (r.toNat : Int) ∉ minterms ∧ termTrue n ((mintermTerm n m).drop v) r = true) ↔
      ((m.toNat ^^^ 2 ^ v : Nat) : Int) ∉ minterms := by
  have small : v < 8 := Nat.lt_of_lt_of_le lt le
  have toNat := toNat_minterm le (bound m mem)
  have low := minterm_lt le (bound m mem)
  have flip : (withBit (UInt8.ofInt m) v (!byteBit (UInt8.ofInt m) v)).toNat = m.toNat ^^^ 2 ^ v := by
    rw [toNat_flip _ small, toNat]
  constructor
  · rintro ⟨r, ltR, fresh, holds⟩ listed
    rcases eq_or_flip le lt ltR low ((mintermTerm_drop_iff le small).1 holds) with rfl | rfl
    · rw [toNat, Int.toNat_of_nonneg (bound m mem).1] at fresh
      exact fresh mem
    · rw [flip] at fresh
      exact fresh listed
  · intro fresh
    refine ⟨_, ?_, by rwa [flip], (mintermTerm_drop_iff le small).2 fun w _ ne => ?_⟩
    · rw [flip, ← toNat]
      exact Nat.xor_lt_two_pow low (Nat.pow_lt_pow_right (by decide) lt)
    · rw [byteBit_flip _ small]
      simp [ne]

end Minimize

/-- **Minimization stays in its arrays and finds prime implicants if and only if** the list has room
in `primes` and no two of its minterms differ in one bit. -/
theorem qmc_minimize_iff (n : Nat) (pos : 1 ≤ n) (le : n ≤ baMaxVars) (minterms : List Int)
    (bound : ∀ m ∈ minterms, 0 ≤ m ∧ m < 2 ^ n) :
    (∃ res, qmcMinimize minterms n = some res ∧ Minimizes n minterms (qmcToSop res)) ↔
      minterms.length ≤ baMaxImplicants ∧
        ∀ m ∈ minterms, ∀ v < n, ((m.toNat ^^^ 2 ^ v : Nat) : Int) ∉ minterms := by
  by_cases few : minterms.length ≤ baMaxImplicants
  · obtain ⟨res, run, vars, terms⟩ := qmc_minimize_inside pos le few
    rw [and_iff_right few, run]
    simp only [Option.some.injEq, exists_eq_left']
    have prime : ∀ m ∈ minterms, ∀ v < n, _ := fun m mem v lt => prime_minterm_iff le bound mem lt
    constructor
    · intro minimizes m mem v lt
      rw [← prime m mem v lt]
      refine minimizes.prime _ ?_ v lt (byteBit_mask le lt)
      rw [terms]
      exact List.mem_map_of_mem mem
    · intro apart
      refine ⟨fun r lt => eval_minterms le bound vars terms lt, fun t mem v lt _ => ?_⟩
      rw [terms, List.mem_map] at mem
      obtain ⟨m, mem, rfl⟩ := mem
      exact (prime m mem v lt).2 (apart m mem v lt)
  · rw [qmc_minimize_outside n (Nat.not_le.1 few)]
    simp [few]

/-- The minterms 00 and 11 are not neighbours. -/
theorem qmc_minimize_iff_equal_bits :
    ∃ res, qmcMinimize [0, 3] 2 = some res ∧ Minimizes 2 [0, 3] (qmcToSop res) :=
  (qmc_minimize_iff 2 (by decide) (by decide) [0, 3] (by decide)).2 (by decide)

/-- All valuations of one variable: both terms could do without it. -/
theorem qmc_minimize_not_prime : ¬ ∃ res, qmcMinimize [0, 1] 1 = some res ∧ Minimizes 1 [0, 1] (qmcToSop res) := by
  rintro ⟨res, run, minimizes⟩
  obtain rfl := Option.some.inj run
  obtain ⟨r, lt, fresh, -⟩ := minimizes.prime _ List.mem_cons_self 0 (by decide) (by decide)
  refine fresh ?_
  have : r.toNat = 0 ∨ r.toNat = 1 := by omega
  rcases this with eq | eq <;> rw [eq] <;> decide

end MiniHardware.Digital
