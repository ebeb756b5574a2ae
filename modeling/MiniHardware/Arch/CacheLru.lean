import MiniHardware.Lib.Bytes
import MiniHardware.Lib.Lru
import MiniHardware.Arch.CacheAccess

/-!
# LRU inclusion

With LRU replacement each set is an LRU store, its counters being time stamps.
So an access hits if fewer lines of its set than there are ways were accessed
since its line was, and a set with more ways hits wherever one with fewer does.
-/

namespace MiniHardware.Arch
open Lib

/-! ## Runs -/

def accessRun (c : Cache) (as : List CacheAccess) : Option Cache := as.foldlM accessStep c

/-- The tags of the accesses to set `s`, the last one first. -/
def setHistory (lineSize numSets s : UInt32) (as : List CacheAccess) : List UInt32 :=
  (as.reverse.filter fun a =>
      (cacheDecomposeAddress lineSize numSets a.address).2.1 == s).map fun a =>
    (cacheDecomposeAddress lineSize numSets a.address).1

/-- One access more is the first of the history of its set. -/
theorem setHistory_snoc (lineSize numSets s : UInt32) (as : List CacheAccess) (a : CacheAccess) :
    setHistory lineSize numSets s (as ++ [a]) =
      if (cacheDecomposeAddress lineSize numSets a.address).2.1 = s then
        (cacheDecomposeAddress lineSize numSets a.address).1 :: setHistory lineSize numSets s as
      else setHistory lineSize numSets s as := by
  unfold setHistory
  rw [List.reverse_append, List.reverse_singleton, List.singleton_append, List.filter_cons]
  simp only [beq_iff_eq]
  split
  · rfl
  · rfl

/-- The line was accessed before, and since then fewer than `n` others of its set. -/
def Reused (n : Nat) (history : List UInt32) (tag : UInt32) : Prop :=
  tag ∈ history ∧ (history.takeWhile fun t => decide (t ≠ tag)).toFinset.card < n

instance reusedDecidable (n : Nat) (history : List UInt32) (tag : UInt32) :
    Decidable (Reused n history tag) := inferInstanceAs (Decidable (_ ∧ _))

/-- What is reused soon is reused within a larger number as well. -/
theorem Reused.mono {m n : Nat} {history : List UInt32} {tag : UInt32} (le : m ≤ n)
    (h : Reused m history tag) : Reused n history tag := ⟨h.1, h.2.trans_le le⟩

/-- What the access copies after `as` stays within the 64 bytes of the line; a read of a line that was not
reused copies nothing. -/
def CopyFits (lineSize numSets : UInt32) (n : Nat) (as : List CacheAccess) (a : CacheAccess) : Prop :=
  a.isWrite = true ∨ Reused n (setHistory lineSize numSets (cacheDecomposeAddress lineSize numSets a.address).2.1 as)
    (cacheDecomposeAddress lineSize numSets a.address).1 → a.InBounds lineSize

/-- So do the copies of all accesses. -/
def CopiesFit (lineSize numSets : UInt32) (n : Nat) (as : List CacheAccess) : Prop :=
  ∀ before a rest, as = before ++ a :: rest → CopyFits lineSize numSets n before a

section CopiesFit
variable {lineSize numSets : UInt32} {m n : Nat} {as : List CacheAccess} {a : CacheAccess}

/-- Copies that fit do so without the last access. -/
theorem CopiesFit.init (h : CopiesFit lineSize numSets n (as ++ [a])) : CopiesFit lineSize numSets n as := by
  rintro before x rest rfl
  exact h before x (rest ++ [a]) (by rw [List.append_assoc, List.cons_append])

/-- The last of copies that fit does so. -/
theorem CopiesFit.last (h : CopiesFit lineSize numSets n (as ++ [a])) : CopyFits lineSize numSets n as a :=
  h as a [] rfl

/-- With fewer ways less is copied. -/
theorem CopiesFit.mono (le : m ≤ n) (h : CopiesFit lineSize numSets n as) : CopiesFit lineSize numSets m as :=
  fun before x rest eq copies => h before x rest eq (copies.imp_right (Reused.mono le))

/-- Where no access of the run would leave its line, none does. -/
theorem copiesFit_of_inBounds (bounds : ∀ x ∈ as, x.InBounds lineSize) : CopiesFit lineSize numSets n as := by
  rintro before x rest rfl -
  exact bounds x (List.mem_append_right _ List.mem_cons_self)

end CopiesFit

/-! ## Indices -/

/-- The index bits of an address are below the number of sets, a power of two or not. -/
theorem index_lt {numSets : UInt32} (pos : numSets ≠ 0) (lineSize address : UInt32) :
    (cacheDecomposeAddress lineSize numSets address).2.1 < numSets := by
  have ne : numSets.toNat ≠ 0 := by
    intro zero
    exact pos (UInt32.toNat_inj.1 zero)
  have le : 2 ^ numSets.toNat.log2 ≤ numSets.toNat := Nat.log2_self_le ne
  have small : numSets.toNat.log2 < 32 := (Nat.log2_lt ne).2 numSets.toNat_lt
  have mask : ((1 <<< log2U32 numSets) - 1 : UInt32).toNat = 2 ^ numSets.toNat.log2 - 1 := by
    have bit : (1 <<< log2U32 numSets : UInt32).toNat = 2 ^ numSets.toNat.log2 := toNat_wordBit small
    rw [UInt32.toNat_sub_of_le, bit, UInt32.toNat_one]
    rw [UInt32.le_iff_toNat_le, bit]
    exact Nat.one_le_two_pow
  rw [UInt32.lt_iff_toNat_lt]
  unfold cacheDecomposeAddress
  dsimp only
  rw [UInt32.toNat_and, mask]
  apply Nat.lt_of_le_of_lt Nat.and_le_right
  have pos := Nat.two_pow_pos numSets.toNat.log2
  omega

/-! ## A set as an LRU store -/

/-- The tag held in way `i`. -/
def heldTag (c : Cache) (s i : Nat) : Option UInt32 :=
  if (c.lines s i).valid then some (c.lines s i).tag else none

def wayStamp (c : Cache) (s i : Nat) : Nat := (c.lines s i).lruCounter.toNat

/-- A way holds the tag of its line, if that is valid. -/
theorem heldTag_some {c : Cache} {s i : Nat} {tag : UInt32} :
    heldTag c s i = some tag ↔ (c.lines s i).valid = true ∧ (c.lines s i).tag = tag := by
  unfold heldTag
  exact Option.ite_some_none_eq_some

/-- A way holds no tag if its line is not valid. -/
theorem heldTag_none {c : Cache} {s i : Nat} : heldTag c s i = none ↔ (c.lines s i).valid = false := by
  simp [heldTag]

section Step

variable {c c' : Cache} {a : CacheAccess} {hit : Bool} {now : Nat} {q : List UInt32}

/-- A hit is an access to a line that the set holds. -/
theorem Effect.hit_iff (e : Effect c a hit c') (inside : a.index c < c.numSets)
    (h : Stamped c.associativity.toNat (heldTag c (a.index c).toNat) (wayStamp c (a.index c).toNat)
      now q) : hit = true ↔ a.tag c ∈ q := by
  rw [h.mem_iff]
  cases e with
  | outside out => exact absurd inside (UInt32.not_lt.2 out)
  | hit _ lt valid tag =>
    exact iff_of_true rfl ⟨_, lt, heldTag_some.2 ⟨valid, tag⟩⟩
  | miss _ absent =>
    apply iff_of_false
    · intro eq
      cases eq
    · rintro ⟨j, hj, held⟩
      exact absent j hj (heldTag_some.1 held)

/-- The set of the access: its line is the most recent one now. -/
theorem Effect.use (e : Effect c a hit c') (inside : a.index c < c.numSets)
    (lru : c.replacement = .lru) (time : c.globalCounter.toNat = now) (bound : now + 1 < 2 ^ 64)
    (h : Stamped c.associativity.toNat (heldTag c (a.index c).toNat) (wayStamp c (a.index c).toNat)
      now q) :
    Stamped c.associativity.toNat (heldTag c' (a.index c).toNat) (wayStamp c' (a.index c).toNat)
      (now + 1) (lruStep c.associativity.toNat q (a.tag c)) := by
  have next : (c.globalCounter + 1).toNat = now + 1 := toNat_tick time bound
  have put : ∀ {i : Nat} {line : CacheLine}, c'.lines = (setWay c (a.index c).toNat i line).lines →
      line.valid = true → line.tag = a.tag c → line.lruCounter = c.globalCounter + 1 →
      heldTag c' (a.index c).toNat i = some (a.tag c) ∧
        wayStamp c' (a.index c).toNat i = now + 1 ∧
        ∀ j < c.associativity.toNat, j ≠ i →
          heldTag c' (a.index c).toNat j = heldTag c (a.index c).toNat j ∧
            wayStamp c' (a.index c).toNat j = wayStamp c (a.index c).toNat j := by
    intro i line lines valid tag stamp
    have here : c'.lines (a.index c).toNat i = line := by
      rw [lines]
      exact setWay_get c _ i line
    refine ⟨heldTag_some.2 ?_, ?_, ?_⟩
    · rw [here]
      exact ⟨valid, tag⟩
    · unfold wayStamp
      rw [here, stamp, next]
    · intro j _ ne
      have there : c'.lines (a.index c).toNat j = c.lines (a.index c).toNat j := by
        rw [lines]
        exact if_neg fun both => ne both.2
      unfold heldTag wayStamp
      rw [there]
      exact ⟨rfl, rfl⟩
  cases e with
  | outside out => exact absurd inside (UInt32.not_lt.2 out)
  | hit _ lt valid tag lines valid' tag' _ stamp' =>
    obtain ⟨held', time', others⟩ := put lines valid' tag' stamp'
    exact h.use lt (Nat.lt_succ_self now) (Or.inl (heldTag_some.2 ⟨valid, tag⟩)) held' time' others
  | miss _ absent lt victim lines valid' tag' _ stamp' =>
    obtain ⟨held', time', others⟩ := put lines valid' tag' stamp'
    apply h.use lt (Nat.lt_succ_self now) (Or.inr ⟨?_, ?_⟩) held' time' others
    · intro j hj held
      exact absent j hj (heldTag_some.1 held)
    · rcases victim with free | ⟨full, least⟩
      · exact Or.inl (heldTag_none.2 free)
      · refine Or.inr ⟨fun j hj none => ?_, fun j hj => UInt64.le_iff_toNat_le.1 (least lru j hj)⟩
        rw [heldTag_none, full j hj] at none
        cases none

/-- The other sets are left alone. -/
theorem Effect.other (e : Effect c a hit c') {s : Nat} (ne : s ≠ (a.index c).toNat) (i : Nat) :
    c'.lines s i = c.lines s i := by
  cases e with
  | outside _ lines => rw [lines]
  | hit _ _ _ _ lines =>
    rw [lines]
    exact if_neg fun both => ne both.1
  | miss _ _ _ _ lines =>
    rw [lines]
    exact if_neg fun both => ne both.1

end Step

/-! ## Inclusion -/

/-- Every set holds the most recent lines of its history. -/
structure Recent (c₀ : Cache) (as : List CacheAccess) (c : Cache) : Prop where
  config : SameConfig c₀ c
  time : c.globalCounter.toNat = as.length
  sets : ∀ s < c₀.numSets,
    Stamped c₀.associativity.toNat (heldTag c s.toNat) (wayStamp c s.toNat) as.length
      ((recency (setHistory c₀.lineSize c₀.numSets s as)).take c₀.associativity.toNat)

/-- An empty LRU cache. -/
structure Fresh (c : Cache) : Prop where
  fit : WaysFit c
  lru : c.replacement = .lru
  sets : c.numSets ≠ 0
  start : c.globalCounter = 0
  invalid : ∀ s i, (c.lines s i).valid = false

/-- A new cache is fresh, with the configuration asked for. -/
theorem fresh_init {totalSize lineSize associativity : UInt32} {wp : WritePolicy} {c : Cache}
    (init : cacheInit totalSize lineSize associativity .lru wp = some c)
    (fit : associativity.toNat ≤ cacheMaxAssociativity) :
    Fresh c ∧ c.lineSize = lineSize ∧ c.associativity = associativity := by
  unfold cacheInit at init
  split at init
  · cases init
  · rename_i nonzero
    rw [not_or] at nonzero
    cases init
    refine ⟨⟨⟨?_, fit⟩, rfl, ?_, rfl, fun _ _ => rfl⟩, rfl, rfl⟩
    · apply Nat.pos_of_ne_zero
      intro zero
      exact nonzero.2 (UInt32.toNat_inj.1 zero)
    · dsimp only
      split
      · decide
      · split
        · decide
        · rename_i positive _
          intro zero
          rw [zero] at positive
          exact positive (by decide)

section Run

variable {c₀ c : Cache} {as : List CacheAccess} {a : CacheAccess}

/-- Nothing is recent in a fresh cache. -/
theorem recent_init (fresh : Fresh c₀) : Recent c₀ [] c₀ where
  config := SameConfig.refl c₀
  time := by
    rw [fresh.start]
    rfl
  sets s _ := by
    rw [show setHistory c₀.lineSize c₀.numSets s [] = [] from rfl, recency, List.take_nil]
    exact Stamped.empty fun i _ => heldTag_none.2 (fresh.invalid s.toNat i)

/-- The set of an access is one of the sets. -/
theorem Recent.index_lt (h : Recent c₀ as c) (sets : c₀.numSets ≠ 0) (a : CacheAccess) :
    a.index c < c.numSets := by
  apply Arch.index_lt
  rw [h.config.numSets]
  exact sets

/-- A set has the lines that were used recently. -/
theorem Recent.present_iff (fresh : Fresh c₀) (h : Recent c₀ as c) (a : CacheAccess) :
    a.Present c ↔ Reused c₀.associativity.toNat
      (setHistory c₀.lineSize c₀.numSets (cacheDecomposeAddress c₀.lineSize c₀.numSets a.address).2.1 as)
      (cacheDecomposeAddress c₀.lineSize c₀.numSets a.address).1 := by
  have config := h.config
  have set := h.sets (a.index c) (by rw [← config.numSets]; exact h.index_lt fresh.sets a)
  have held := set.mem_iff (x := a.tag c)
  simp only [heldTag_some] at held
  rw [CacheAccess.Present, config.associativity, ← held, mem_take_recency]
  unfold CacheAccess.index CacheAccess.tag
  rw [config.lineSize, config.numSets]
  rfl

/-- One access, after which the next one can be made. -/
theorem Recent.step (fresh : Fresh c₀) (h : Recent c₀ as c)
    (bounds : CopyFits c₀.lineSize c₀.numSets c₀.associativity.toNat as a) :
    ∃ hit c', cacheAccess c a = some (hit, c') ∧
      (hit = true ↔ Reused c₀.associativity.toNat
        (setHistory c₀.lineSize c₀.numSets
          (cacheDecomposeAddress c₀.lineSize c₀.numSets a.address).2.1 as)
        (cacheDecomposeAddress c₀.lineSize c₀.numSets a.address).1) ∧
      (as.length + 1 < 2 ^ 64 → Recent c₀ (as ++ [a]) c') := by
  have config := h.config
  have bounds' : a.CopiesInside c := by
    intro copies
    rw [config.lineSize]
    exact bounds (copies.imp_right (h.present_iff fresh a).1)
  obtain ⟨hit, c', step, config', counter, effect⟩ := cacheAccess_spec (config.waysFit fresh.fit) bounds'
  have inside := h.index_lt fresh.sets a
  have index : a.index c = (cacheDecomposeAddress c₀.lineSize c₀.numSets a.address).2.1 := by
    unfold CacheAccess.index
    rw [config.lineSize, config.numSets]
  have tag : a.tag c = (cacheDecomposeAddress c₀.lineSize c₀.numSets a.address).1 := by
    unfold CacheAccess.tag
    rw [config.lineSize, config.numSets]
  have set := h.sets (a.index c) (by rwa [← config.numSets])
  rw [← config.associativity] at set
  refine ⟨hit, c', step, ?_, ?_⟩
  · rw [effect.hit_iff inside set, mem_take_recency, index, tag, config.associativity]
    rfl
  · intro bound
    have lru : c.replacement = .lru := config.replacement.trans fresh.lru
    refine ⟨config.trans config', ?_, ?_⟩
    · rw [counter, List.length_append, List.length_singleton]
      exact toNat_tick h.time bound
    · intro s hs
      rw [List.length_append, List.length_singleton, setHistory_snoc, ← index, ← tag]
      split
      · rename_i eq
        rw [← eq, ← lruStep_recency]
        have used := effect.use inside lru h.time bound set
        rwa [config.associativity] at used
      · rename_i ne
        have away : s.toNat ≠ (a.index c).toNat := by
          intro eq
          exact ne (UInt32.toNat_inj.1 eq.symm)
        have same : heldTag c' s.toNat = heldTag c s.toNat ∧ wayStamp c' s.toNat = wayStamp c s.toNat := by
          constructor
          · funext i
            unfold heldTag
            rw [effect.other away]
          · funext i
            unfold wayStamp
            rw [effect.other away]
        rw [same.1, same.2]
        exact (h.sets s hs).later (Nat.le_succ _)

/-- Every sequence of less than `2 ^ 64` accesses that copies within the data of the lines has a run. -/
theorem recent_run (fresh : Fresh c₀) (as : List CacheAccess)
    (bounds : CopiesFit c₀.lineSize c₀.numSets c₀.associativity.toNat as) (short : as.length < 2 ^ 64) :
    ∃ c, accessRun c₀ as = some c ∧ Recent c₀ as c := by
  induction as using List.reverseRecOn with
  | nil => exact ⟨c₀, rfl, recent_init fresh⟩
  | append_singleton as a ih =>
    rw [List.length_append, List.length_singleton] at short
    obtain ⟨c, ran, h⟩ := ih bounds.init (by omega)
    obtain ⟨hit, c', step, -, next⟩ := h.step fresh bounds.last
    refine ⟨c', ?_, next short⟩
    have ran' : as.foldlM accessStep c₀ = some c := ran
    unfold accessRun
    rw [foldlM_snoc, ran', Option.bind_some, accessStep, step]
    rfl

end Run

/-- As long as no copy leaves the data of a line, and the 64-bit counter does not overflow, an
access hits if fewer lines of its set than there are ways were accessed since its own, so that it
hits with more ways if it does with fewer. -/
theorem lru_inclusion {totalA totalB lineSize waysA waysB : UInt32} {wpA wpB : WritePolicy}
    {cA cB : Cache} (initA : cacheInit totalA lineSize waysA .lru wpA = some cA)
    (initB : cacheInit totalB lineSize waysB .lru wpB = some cB) (sets : cA.numSets = cB.numSets)
    (le : waysA ≤ waysB) (fit : waysB.toNat ≤ cacheMaxAssociativity) (as : List CacheAccess)
    (a : CacheAccess) (bounds : CopiesFit lineSize cB.numSets waysB.toNat (as ++ [a])) (short : as.length < 2 ^ 64) :
    let (tag, index, _) := cacheDecomposeAddress lineSize cA.numSets a.address
    let history := setHistory lineSize cA.numSets index as
    ∃ sA sB hitA hitB sA' sB', accessRun cA as = some sA ∧ accessRun cB as = some sB ∧
      cacheAccess sA a = some (hitA, sA') ∧ cacheAccess sB a = some (hitB, sB') ∧
      (hitA = true → hitB = true) ∧ (hitA = true ↔ Reused waysA.toNat history tag) ∧
      (hitB = true ↔ Reused waysB.toNat history tag) := by
  have fitA : waysA.toNat ≤ cacheMaxAssociativity := (UInt32.le_iff_toNat_le.1 le).trans fit
  obtain ⟨freshA, lineA, assocA⟩ := fresh_init initA fitA
  obtain ⟨freshB, lineB, assocB⟩ := fresh_init initB fit
  have bounds' := bounds.mono (UInt32.le_iff_toNat_le.1 le)
  rw [← sets] at bounds'
  obtain ⟨sA, runA, recentA⟩ := recent_run freshA as (by rw [lineA, assocA]; exact bounds'.init) short
  obtain ⟨sB, runB, recentB⟩ := recent_run freshB as (by rw [lineB, assocB]; exact bounds.init) short
  obtain ⟨hitA, sA', stepA, iffA, -⟩ := recentA.step freshA (by rw [lineA, assocA]; exact bounds'.last)
  obtain ⟨hitB, sB', stepB, iffB, -⟩ := recentB.step freshB (by rw [lineB, assocB]; exact bounds.last)
  rw [lineA, assocA] at iffA
  rw [lineB, assocB, ← sets] at iffB
  refine ⟨sA, sB, hitA, hitB, sA', sB', runA, runB, stepA, stepB, ?_, iffA, iffB⟩
  intro hit
  exact iffB.2 ((iffA.1 hit).mono (UInt32.le_iff_toNat_le.1 le))

/-- Two lines of one set in turn: with two ways they are kept, with one they are not. -/
theorem lru_inclusion_two_lines :
    ∃ cA cB sA sB sA' sB', cacheInit 32 16 1 .lru .writeBack = some cA ∧
      cacheInit 64 16 2 .lru .writeBack = some cB ∧
      accessRun cA [.read 0 true 0, .write 64 (some fun _ => 7) 0] = some sA ∧
      accessRun cB [.read 0 true 0, .write 64 (some fun _ => 7) 0] = some sB ∧
      cacheAccess sA (.read 0 true 0) = some (false, sA') ∧
      cacheAccess sB (.read 0 true 0) = some (true, sB') := by
  let cA := (cacheInit 32 16 1 .lru .writeBack).get rfl
  let cB := (cacheInit 64 16 2 .lru .writeBack).get rfl
  have initA : cacheInit 32 16 1 .lru .writeBack = some cA := rfl
  have initB : cacheInit 64 16 2 .lru .writeBack = some cB := rfl
  obtain ⟨sA, sB, hitA, hitB, sA', sB', runA, runB, stepA, stepB, -, iffA, iffB⟩ :=
    lru_inclusion initA initB (by decide) (by decide) (by decide)
      [.read 0 true 0, .write 64 (some fun _ => 7) 0] (.read 0 true 0) (copiesFit_of_inBounds (by decide)) (by decide)
  have missA : hitA = false := by
    rw [Bool.eq_false_iff]
    exact fun hit => absurd (iffA.1 hit) (by decide)
  have hitB : hitB = true := iffB.2 (by decide)
  subst missA hitB
  exact ⟨cA, cB, sA, sB, sA', sB', initA, initB, runA, runB, stepA, stepB⟩

/-- A write at byte 64 of a line of 128 bytes goes beyond its data, over its LRU counter. -/
theorem lru_overruns_line :
    ∃ c, cacheInit 1024 128 2 .lru .writeBack = some c ∧ accessRun c [] = some c ∧
      cacheAccess c (.write 64 (some fun _ => 0) 0) = none :=
  ⟨_, rfl, rfl, by decide⟩

end MiniHardware.Arch
