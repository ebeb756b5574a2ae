import MiniHardware.Arch.CacheAccess
import Mathlib.Data.Finset.Prod

/-!
# Writebacks

A line of memory that becomes dirty in a write-back cache stays so until it is
written back: the number of times that lines became dirty is the number of
writebacks and of the lines that are dirty now. No set holds a line twice.
-/

namespace MiniHardware.Arch
open Lib

/-! ## Dirty lines -/

def isDirty (line : CacheLine) : Bool := line.valid && line.dirty

def ways (c : Cache) : Finset (Nat × Nat) :=
  Finset.range c.numSets.toNat ×ˢ Finset.range c.associativity.toNat

def dirtyWays (c : Cache) : Finset (Nat × Nat) :=
  (ways c).filter fun p => isDirty (c.lines p.1 p.2) = true

/-- The line with the tag is held dirty by the set. -/
def HeldDirty (c : Cache) (s : Nat) (tag : UInt32) : Prop :=
  ∃ i < c.associativity.toNat, isDirty (c.lines s i) = true ∧ (c.lines s i).tag = tag

instance heldDirtyDecidable (c : Cache) (s : Nat) (tag : UInt32) : Decidable (HeldDirty c s tag) :=
  inferInstanceAs (Decidable (∃ i < _, _))

/-- The number of lines that are dirty in `c'` and were not in `c`. -/
def becameDirty (c c' : Cache) : Nat :=
  ((dirtyWays c').filter fun p => ¬HeldDirty c p.1 (c'.lines p.1 p.2).tag).card

/-- No two valid ways of a set have the same tag. -/
def UniqueTags (c : Cache) : Prop :=
  ∀ s, ∀ i < c.associativity.toNat, ∀ j < c.associativity.toNat,
    (c.lines s i).valid = true → (c.lines s j).valid = true →
      (c.lines s i).tag = (c.lines s j).tag → i = j

/-- The dirty ways are those of the cache whose lines are valid and dirty. -/
theorem mem_dirtyWays {c : Cache} {p : Nat × Nat} :
    p ∈ dirtyWays c ↔ (p.1 < c.numSets.toNat ∧ p.2 < c.associativity.toNat) ∧
      isDirty (c.lines p.1 p.2) = true := by
  unfold dirtyWays ways
  rw [Finset.mem_filter, Finset.mem_product, Finset.mem_range, Finset.mem_range]

/-! ## One way changes -/

section Way

variable {c c' : Cache} {s i : Nat} {line : CacheLine}

/-- `c'` is `c` with another line in one of its ways. -/
structure OneWay (c c' : Cache) (s i : Nat) (line : CacheLine) : Prop where
  config : SameConfig c c'
  set_lt : s < c.numSets.toNat
  way_lt : i < c.associativity.toNat
  lines : c'.lines = (setWay c s i line).lines

/-- The way that was set has its new line. -/
theorem OneWay.here (h : OneWay c c' s i line) : c'.lines s i = line := by
  rw [h.lines]
  exact setWay_get c s i line

/-- The other ways have the lines they had. -/
theorem OneWay.there (h : OneWay c c' s i line) {s' i' : Nat} (ne : ¬(s' = s ∧ i' = i)) :
    c'.lines s' i' = c.lines s' i' := by
  rw [h.lines]
  exact if_neg ne

/-- Setting one way makes that way dirty or clean, and no other. -/
theorem OneWay.dirtyWays (h : OneWay c c' s i line) :
    dirtyWays c' =
      if isDirty line then insert (s, i) (dirtyWays c) else (dirtyWays c).erase (s, i) := by
  apply Finset.ext
  rintro ⟨s', i'⟩
  rw [mem_dirtyWays, h.config.numSets, h.config.associativity]
  by_cases eq : s' = s ∧ i' = i
  · obtain ⟨rfl, rfl⟩ := eq
    rw [h.here]
    split
    · rename_i dirty
      exact iff_of_true ⟨⟨h.set_lt, h.way_lt⟩, dirty⟩ (Finset.mem_insert_self _ _)
    · rename_i clean
      exact iff_of_false (fun both => clean both.2) (Finset.notMem_erase _ _)
  · have ne : (s', i') ≠ (s, i) := by
      intro eq'
      cases eq'
      exact eq ⟨rfl, rfl⟩
    rw [h.there eq, ← mem_dirtyWays (p := (s', i'))]
    split
    · rw [Finset.mem_insert, or_iff_right ne]
    · rw [Finset.mem_erase, and_iff_right ne]

/-- The number of dirty ways changes by what the way was and is. -/
theorem OneWay.card (h : OneWay c c' s i line) :
    (Arch.dirtyWays c').card + (isDirty (c.lines s i)).toNat =
      (Arch.dirtyWays c).card + (isDirty line).toNat := by
  have mem : (s, i) ∈ Arch.dirtyWays c ↔ isDirty (c.lines s i) = true := by
    rw [mem_dirtyWays]
    exact and_iff_right ⟨h.set_lt, h.way_lt⟩
  rw [h.dirtyWays]
  cases new : isDirty line with
  | true =>
    cases old : isDirty (c.lines s i) with
    | true => rw [if_pos rfl, Finset.insert_eq_of_mem (mem.2 old)]
    | false =>
      rw [if_pos rfl, Finset.card_insert_of_notMem (by rw [mem, old]; decide)]
      rfl
  | false =>
    cases old : isDirty (c.lines s i) with
    | true =>
      rw [if_neg (by decide)]
      exact Finset.card_erase_add_one (mem.2 old)
    | false => rw [if_neg (by decide), Finset.erase_eq_of_notMem (by rw [mem, old]; decide)]

/-- Only the line put in can have become dirty. -/
theorem OneWay.becameDirty (h : OneWay c c' s i line) :
    becameDirty c c' = if isDirty line = true ∧ ¬HeldDirty c s line.tag then 1 else 0 := by
  have stays : ∀ p ∈ Arch.dirtyWays c', p ≠ (s, i) → HeldDirty c p.1 (c'.lines p.1 p.2).tag := by
    rintro ⟨s', i'⟩ mem ne
    obtain ⟨⟨-, lt⟩, dirty⟩ := mem_dirtyWays.1 mem
    rw [h.config.associativity] at lt
    have same : c'.lines s' i' = c.lines s' i' := by
      apply h.there
      rintro ⟨rfl, rfl⟩
      exact ne rfl
    dsimp only at dirty ⊢
    rw [same] at dirty ⊢
    exact ⟨i', lt, dirty, rfl⟩
  unfold Arch.becameDirty
  split
  · rename_i new
    rw [Finset.card_eq_one]
    refine ⟨(s, i), Finset.eq_singleton_iff_unique_mem.2 ⟨?_, ?_⟩⟩
    · rw [Finset.mem_filter, mem_dirtyWays, h.config.numSets, h.config.associativity, h.here]
      exact ⟨⟨⟨h.set_lt, h.way_lt⟩, new.1⟩, new.2⟩
    · intro p mem
      rw [Finset.mem_filter] at mem
      by_contra ne
      exact mem.2 (stays p mem.1 ne)
  · rename_i old
    rw [Finset.card_eq_zero, Finset.filter_eq_empty_iff]
    intro p mem
    rw [not_not]
    by_cases eq : p = (s, i)
    · subst eq
      have dirty := (mem_dirtyWays.1 mem).2
      dsimp only at dirty ⊢
      rw [h.here] at dirty ⊢
      by_contra new
      exact old ⟨dirty, new⟩
    · exact stays p mem eq

/-- Tags stay unique if no other way holds the tag put in. -/
theorem OneWay.unique (h : OneWay c c' s i line) (u : UniqueTags c)
    (new : line.valid = true → ∀ j < c.associativity.toNat, j ≠ i →
      ¬((c.lines s j).valid = true ∧ (c.lines s j).tag = line.tag)) : UniqueTags c' := by
  intro s' j hj k hk valid valid' tags
  rw [h.config.associativity] at hj hk
  by_cases at_j : s' = s ∧ j = i
  · obtain ⟨rfl, rfl⟩ := at_j
    by_contra ne
    rw [h.there fun both => ne both.2.symm] at valid' tags
    rw [h.here] at valid tags
    exact new valid k hk (fun eq => ne eq.symm) ⟨valid', tags.symm⟩
  by_cases at_k : s' = s ∧ k = i
  · obtain ⟨rfl, rfl⟩ := at_k
    rw [h.there at_j] at valid tags
    rw [h.here] at valid' tags
    exact absurd ⟨valid, tags⟩ (new valid' j hj fun eq => at_j ⟨rfl, eq⟩)
  · rw [h.there at_j] at valid tags
    rw [h.there at_k] at valid' tags
    exact u s' j hj k hk valid valid' tags

end Way

/-! ## The balance -/

/-- `transitions` lines have become dirty so far. -/
structure Balanced (c : Cache) (transitions : Nat) : Prop where
  fit : WaysFit c
  writeBack : c.writePolicy = .writeBack
  unique : UniqueTags c
  balance : transitions = c.stats.writebacks.toNat + (dirtyWays c).card

section Balance

variable {c c' : Cache} {s i n : Nat} {line : CacheLine}

/-- Nothing is dropped if the count of writebacks makes up for the way that changes. -/
theorem Balanced.oneWay (h : Balanced c n) (one : OneWay c c' s i line) (unique : UniqueTags c')
    (count : c'.stats.writebacks.toNat + (isDirty line).toNat =
      c.stats.writebacks.toNat + (isDirty (c.lines s i)).toNat + becameDirty c c') :
    Balanced c' (n + becameDirty c c') where
  fit := one.config.waysFit h.fit
  writeBack := one.config.writePolicy.trans h.writeBack
  unique := unique
  balance := by
    have card := one.card
    have balance := h.balance
    omega

/-- The counter has room for the writeback of a dirty way. -/
theorem Balanced.writeback (h : Balanced c n) (bound : n < 2 ^ 64) (hs : s < c.numSets.toNat)
    (hi : i < c.associativity.toNat) {writebacks : UInt64}
    (count : writebacks =
      if (c.lines s i).valid ∧ (c.lines s i).dirty ∧ c.writePolicy = .writeBack then
        c.stats.writebacks + 1
      else c.stats.writebacks) :
    writebacks.toNat = c.stats.writebacks.toNat + (isDirty (c.lines s i)).toNat := by
  rw [count]
  cases dirty : isDirty (c.lines s i) with
  | true =>
    have both := dirty
    unfold isDirty at both
    rw [Bool.and_eq_true] at both
    have pos : 0 < (dirtyWays c).card := Finset.card_pos.2 ⟨(s, i), mem_dirtyWays.2 ⟨⟨hs, hi⟩, dirty⟩⟩
    have balance := h.balance
    rw [if_pos ⟨both.1, both.2, h.writeBack⟩, UInt64.toNat_add, UInt64.toNat_one]
    exact Nat.mod_eq_of_lt (by omega)
  | false =>
    rw [if_neg]
    · rfl
    · rintro ⟨valid, dirty', -⟩
      unfold isDirty at dirty
      rw [valid, dirty'] at dirty
      cases dirty

/-- The dirty ways depend on the lines alone. -/
theorem sameLines_dirtyWays (config : SameConfig c c') (lines : c'.lines = c.lines) :
    dirtyWays c' = dirtyWays c := by
  unfold dirtyWays ways
  rw [lines, config.numSets, config.associativity]

/-- What is dirty in `c'` was dirty in `c`. -/
def NoneDirtied (c c' : Cache) : Prop :=
  ∀ s i, isDirty (c'.lines s i) = true → c'.lines s i = c.lines s i

/-- Where no way became dirty, none is counted. -/
theorem NoneDirtied.becameDirty (none : NoneDirtied c c') (config : SameConfig c c') :
    becameDirty c c' = 0 := by
  unfold Arch.becameDirty
  rw [Finset.card_eq_zero, Finset.filter_eq_empty_iff]
  intro p mem
  rw [not_not]
  obtain ⟨⟨-, lt⟩, dirty⟩ := mem_dirtyWays.1 mem
  have same := none p.1 p.2 dirty
  rw [config.associativity] at lt
  rw [same] at dirty ⊢
  exact ⟨p.2, lt, dirty, rfl⟩

/-- An access keeps the balance, and only a write makes a way dirty. -/
theorem Balanced.access (h : Balanced c n) (bound : n < 2 ^ 64) {a : CacheAccess}
    (bounds : a.CopiesInside c) :
    ∃ c', accessStep c a = some c' ∧ SameConfig c c' ∧ Balanced c' (n + becameDirty c c') ∧
      becameDirty c c' ≤ a.isWrite.toNat := by
  obtain ⟨hit, c', step, config, -, effect⟩ := cacheAccess_spec h.fit bounds
  refine ⟨c', ?_, config, ?_⟩
  · unfold accessStep
    rw [step]
    rfl
  cases effect with
  | outside _ lines writebacks =>
    have clean : becameDirty c c' = 0 := NoneDirtied.becameDirty (fun s i _ => by rw [lines]) config
    rw [clean]
    refine ⟨⟨config.waysFit h.fit, config.writePolicy.trans h.writeBack, ?_, ?_⟩, Nat.zero_le _⟩
    · unfold UniqueTags
      rw [lines, config.associativity]
      exact h.unique
    · rw [writebacks, sameLines_dirtyWays config lines]
      exact h.balance
  | @hit _ i line inside lt valid tag lines valid' tag' dirty' _ writebacks =>
    have one : OneWay c c' (a.index c).toNat i line :=
      ⟨config, UInt32.lt_iff_toNat_lt.1 inside, lt, lines⟩
    have held : HeldDirty c (a.index c).toNat line.tag ↔
        isDirty (c.lines (a.index c).toNat i) = true := by
      constructor
      · rintro ⟨j, hj, dirty, sameTag⟩
        have dirty'' := dirty
        unfold isDirty at dirty''
        rw [Bool.and_eq_true] at dirty''
        rwa [h.unique _ i lt j hj valid dirty''.1 (tag.trans (tag'.symm.trans sameTag.symm))]
      · exact fun dirty => ⟨i, lt, dirty, tag.trans tag'.symm⟩
    have became := one.becameDirty
    have count : c'.stats.writebacks = c.stats.writebacks := by
      rw [writebacks, if_neg]
      rintro ⟨-, through⟩
      rw [h.writeBack] at through
      cases through
    have new : isDirty line = if a.isWrite then true else isDirty (c.lines (a.index c).toNat i) := by
      unfold isDirty
      rw [valid', dirty', valid, Bool.true_and, Bool.true_and]
    simp only [held, new] at became
    refine ⟨h.oneWay one ?_ ?_, ?_⟩
    · apply one.unique h.unique
      intro _ j hj ne both
      exact ne (h.unique _ j hj i lt both.1 valid (both.2.trans (tag'.trans tag.symm)))
    · rw [count, new, became]
      cases a.isWrite <;> cases isDirty (c.lines (a.index c).toNat i) <;> rfl
    · rw [became]
      cases a.isWrite <;> cases isDirty (c.lines (a.index c).toNat i) <;> decide
  | @miss _ i line inside absent lt _ lines valid' tag' dirty' _ writebacks =>
    have one : OneWay c c' (a.index c).toNat i line :=
      ⟨config, UInt32.lt_iff_toNat_lt.1 inside, lt, lines⟩
    have count := h.writeback bound one.set_lt lt writebacks
    have notHeld : ¬HeldDirty c (a.index c).toNat line.tag := by
      rintro ⟨j, hj, dirty, tag⟩
      unfold isDirty at dirty
      rw [Bool.and_eq_true] at dirty
      exact absent j hj ⟨dirty.1, tag.trans tag'⟩
    have new : isDirty line = a.isWrite := by
      unfold isDirty
      rw [valid', dirty', h.writeBack, Bool.true_and]
      exact Bool.and_true _
    have became : becameDirty c c' = a.isWrite.toNat := by
      rw [one.becameDirty, new]
      cases a.isWrite with
      | true => exact if_pos ⟨rfl, notHeld⟩
      | false => rfl
    refine ⟨h.oneWay one ?_ ?_, Nat.le_of_eq became⟩
    · apply one.unique h.unique
      intro _ j hj _ both
      exact absent j hj ⟨both.1, both.2.trans tag'⟩
    · rw [count, new, became]

/-! ## The flush -/

/-- What dirties none, one after the other. -/
theorem NoneDirtied.trans {a b d : Cache} (h : NoneDirtied a b) (k : NoneDirtied b d) :
    NoneDirtied a d := by
  intro s i dirty
  have same := k s i dirty
  rw [same] at dirty ⊢
  exact h s i dirty

/-- What a part of a flush of `c` has made of it. -/
structure Flushing (c : Cache) (n : Nat) (c' : Cache) : Prop where
  config : SameConfig c c'
  none : NoneDirtied c c'
  balanced : Balanced c' n

/-- One way of the flush: it is written back if it was dirty, and invalid after it. -/
theorem Flushing.way (h : Flushing c n c') (bound : n < 2 ^ 64) (hs : s < c.numSets.toNat)
    (hi : i < c.associativity.toNat) : ∃ c'', flushWay s c' i = some c'' ∧ Flushing c n c'' := by
  have room : i < cacheMaxAssociativity := by
    have fit := h.balanced.fit.2
    rw [h.config.associativity] at fit
    exact hi.trans_le fit
  have at_i : wayAt c' s i = some (c'.lines s i) := if_pos room
  unfold flushWay
  rw [at_i, Option.bind_eq_bind, Option.bind_some]
  generalize put : { c'.lines s i with
    valid := false
    dirty := false
    tag := 0
    lruCounter := 0
    accessCount := 0 } = line
  have clean : isDirty line = false := by
    rw [← put]
    rfl
  generalize made : (if (c'.lines s i).valid ∧ (c'.lines s i).dirty ∧ c'.writePolicy = .writeBack then
    countWriteback c' else c') = counted
  have same : counted = { c' with stats := counted.stats } := by
    rw [← made]
    split <;> rfl
  have count : counted.stats.writebacks =
      if (c'.lines s i).valid ∧ (c'.lines s i).dirty ∧ c'.writePolicy = .writeBack then
        c'.stats.writebacks + 1
      else c'.stats.writebacks := by
    rw [← made]
    split <;> rfl
  refine ⟨setWay counted s i line, rfl, ?_⟩
  have config : SameConfig c' (setWay counted s i line) := by
    rw [same]
    exact ⟨rfl, rfl, rfl, rfl, rfl⟩
  have one : OneWay c' (setWay counted s i line) s i line := by
    refine ⟨config, by rwa [h.config.numSets], by rwa [h.config.associativity], ?_⟩
    apply setWay_lines
    rw [same]
  have became : becameDirty c' (setWay counted s i line) = 0 := by
    rw [one.becameDirty, clean]
    rfl
  refine ⟨h.config.trans config, h.none.trans ?_, ?_⟩
  · intro s' i' dirty
    apply one.there
    rintro ⟨rfl, rfl⟩
    rw [one.here, clean] at dirty
    cases dirty
  · have unique : UniqueTags (setWay counted s i line) := by
      apply one.unique h.balanced.unique
      intro valid
      rw [← put] at valid
      cases valid
    have next := h.balanced.oneWay one unique
    rw [became, clean] at next
    exact next (h.balanced.writeback bound one.set_lt one.way_lt count)

/-- A flush of a balanced cache, by induction on its ways. -/
theorem Balanced.flush (h : Balanced c n) (bound : n < 2 ^ 64) :
    ∃ c', cacheFlush c = some c' ∧ Flushing c n c' := by
  unfold cacheFlush
  apply foldlM_invariant
  · intro s hs c' part
    rw [part.config.associativity]
    apply foldlM_invariant _ part
    intro i hi c'' part'
    exact part'.way bound (List.mem_range.1 hs) (List.mem_range.1 hi)
  · exact ⟨SameConfig.refl c, fun _ _ _ => rfl, h⟩

end Balance

/-! ## Runs -/

inductive CacheOp where
  | access (a : CacheAccess)
  | flush

def cacheStep (c : Cache) : CacheOp → Option Cache
  | .access a => accessStep c a
  | .flush => cacheFlush c

/-- What an access copies stays within the 64 bytes of the line. -/
def CacheOp.CopiesInside (c : Cache) : CacheOp → Prop
  | .access a => a.CopiesInside c
  | .flush => True

/-- The call comes with a data pointer. -/
def CacheOp.copies : CacheOp → Bool
  | .access a => a.copies
  | .flush => false

def CacheOp.isWrite : CacheOp → Bool
  | .access a => a.isWrite
  | .flush => false

/-- `transitions` is no part of the code: how often a line of memory has become dirty. -/
structure Tracked where
  cache : Cache
  transitions : Nat

def trackStep (t : Tracked) (op : CacheOp) : Option Tracked :=
  (cacheStep t.cache op).map fun c => ⟨c, t.transitions + becameDirty t.cache c⟩

def trackRun (c : Cache) (ops : List CacheOp) : Option Tracked := ops.foldlM trackStep ⟨c, 0⟩

/-- So do the copies of all accesses of a run, in the states they are made in. -/
def RunInside (c : Cache) (ops : List CacheOp) : Prop :=
  ∀ before op rest, ops = before ++ op :: rest → ∀ t, trackRun c before = some t → op.CopiesInside t.cache

/-- A run that stays inside does so without its last call. -/
theorem RunInside.init {c : Cache} {ops : List CacheOp} {op : CacheOp} (h : RunInside c (ops ++ [op])) :
    RunInside c ops := by
  rintro before x rest rfl
  exact h before x (rest ++ [op]) (by rw [List.append_assoc, List.cons_append])

/-- Calls that come without data copy nothing. -/
theorem runInside_of_plain {c : Cache} {ops : List CacheOp} (plain : ∀ op ∈ ops, op.copies = false) :
    RunInside c ops := by
  rintro before op rest rfl t -
  have none := plain op (List.mem_append_right _ List.mem_cons_self)
  cases op with
  | flush => trivial
  | access a =>
    intro _ copies
    exact nomatch copies.symm.trans none

/-- Every call keeps the balance. -/
theorem Balanced.step {t : Tracked} (h : Balanced t.cache t.transitions)
    (bound : t.transitions < 2 ^ 64) {op : CacheOp} (bounds : op.CopiesInside t.cache) :
    ∃ t', trackStep t op = some t' ∧ SameConfig t.cache t'.cache ∧
      Balanced t'.cache t'.transitions ∧ t'.transitions ≤ t.transitions + op.isWrite.toNat := by
  unfold trackStep
  cases op with
  | access a =>
    obtain ⟨c', step, config, balanced, le⟩ := h.access bound bounds
    rw [show cacheStep t.cache (.access a) = some c' from step]
    exact ⟨_, rfl, config, balanced, Nat.add_le_add_left le _⟩
  | flush =>
    obtain ⟨c', step, config, none, balanced⟩ := h.flush bound
    have clean : becameDirty t.cache c' = 0 := none.becameDirty config
    rw [show cacheStep t.cache .flush = some c' from step]
    refine ⟨_, rfl, config, ?_, ?_⟩
    · dsimp only
      rw [clean]
      exact balanced
    · dsimp only
      rw [clean]
      exact Nat.le_refl _

/-- A new cache is balanced. -/
theorem balanced_init {totalSize lineSize associativity : UInt32} {rp : ReplacementPolicy} {c : Cache}
    (init : cacheInit totalSize lineSize associativity rp .writeBack = some c)
    (fit : associativity.toNat ≤ cacheMaxAssociativity) :
    Balanced c 0 ∧ c.lineSize = lineSize ∧ c.associativity = associativity := by
  unfold cacheInit at init
  split at init
  · cases init
  · rename_i nonzero
    rw [not_or] at nonzero
    cases init
    refine ⟨⟨⟨?_, fit⟩, rfl, ?_, ?_⟩, rfl, rfl⟩
    · apply Nat.pos_of_ne_zero
      intro zero
      exact nonzero.2 (UInt32.toNat_inj.1 zero)
    · intro s i _ j _ valid
      cases valid
    · refine (Finset.card_eq_zero.2 ?_).symm.trans (Nat.zero_add _).symm
      apply Finset.eq_empty_of_forall_notMem
      intro p mem
      cases (mem_dirtyWays.1 mem).2

/-- The balance after any calls that stay inside. -/
theorem balanced_run {c : Cache} (start : Balanced c 0) (ops : List CacheOp)
    (bounds : RunInside c ops) (short : ops.countP CacheOp.isWrite < 2 ^ 64) :
    ∃ t, trackRun c ops = some t ∧ SameConfig c t.cache ∧ Balanced t.cache t.transitions ∧
      t.transitions ≤ ops.countP CacheOp.isWrite := by
  induction ops using List.reverseRecOn with
  | nil => exact ⟨_, rfl, SameConfig.refl c, start, Nat.le_refl 0⟩
  | append_singleton ops op ih =>
    rw [List.countP_append, List.countP_singleton] at short
    obtain ⟨t, ran, config, balanced, le⟩ :=
      ih bounds.init (by omega)
    obtain ⟨t', step, config', balanced', le'⟩ := balanced.step (by omega) (bounds ops op [] rfl t ran)
    refine ⟨t', ?_, config.trans config', balanced', ?_⟩
    · have ran' : ops.foldlM trackStep ⟨c, 0⟩ = some t := ran
      unfold trackRun
      rw [foldlM_snoc, ran', Option.bind_some, step]
    · rw [List.countP_append, List.countP_singleton]
      apply le'.trans
      cases op.isWrite with
      | true => exact Nat.add_le_add_right le 1
      | false => exact le

/-- As long as a set fits its `CacheSet`, no copy leaves the data of a line, and the 64-bit count
of writebacks does not overflow, no modified line is dropped: lines became dirty as often as they
were written back, or are dirty now. No set has a tag in two valid ways. -/
theorem cache_drops_nothing {totalSize lineSize associativity : UInt32} {rp : ReplacementPolicy}
    {c : Cache} (init : cacheInit totalSize lineSize associativity rp .writeBack = some c)
    (fit : associativity.toNat ≤ cacheMaxAssociativity) (ops : List CacheOp)
    (bounds : RunInside c ops) (short : ops.countP CacheOp.isWrite < 2 ^ 64) :
    ∃ t, trackRun c ops = some t ∧
      t.transitions = t.cache.stats.writebacks.toNat + (dirtyWays t.cache).card ∧
      UniqueTags t.cache := by
  obtain ⟨start, -⟩ := balanced_init init fit
  obtain ⟨t, ran, -, balanced, -⟩ := balanced_run start ops bounds short
  exact ⟨t, ran, balanced.balance, balanced.unique⟩

/-- Two lines of a one-way cache are written in turn, and the second one again after a flush. -/
theorem cache_drops_nothing_twice :
    ∃ c t, cacheInit 16 16 1 .fifo .writeBack = some c ∧
      trackRun c [.access (.write 0 none 0), .access (.write 16 none 0), .flush,
        .access (.write 16 none 0)] = some t ∧
      t.transitions = 3 ∧ t.cache.stats.writebacks.toNat = 2 ∧ (dirtyWays t.cache).card = 1 := by
  let c := (cacheInit 16 16 1 .fifo .writeBack).get rfl
  have init : cacheInit 16 16 1 .fifo .writeBack = some c := rfl
  obtain ⟨t, ran, balance, -⟩ := cache_drops_nothing init (by decide)
    [.access (.write 0 none 0), .access (.write 16 none 0), .flush, .access (.write 16 none 0)]
    (runInside_of_plain (by decide)) (by decide)
  have counts : (trackRun c [.access (.write 0 none 0), .access (.write 16 none 0), .flush,
      .access (.write 16 none 0)]).map (fun t => (t.transitions, t.cache.stats.writebacks.toNat)) =
      some (3, 2) := by decide
  rw [ran, Option.map_some, Option.some_inj, Prod.mk.injEq] at counts
  exact ⟨c, t, init, ran, counts.1, counts.2, by omega⟩

/-- A set of 33 ways is searched beyond its `CacheSet`. -/
theorem cache_leaves_set :
    ∃ c, cacheInit 2112 64 33 .lru .writeBack = some c ∧
      trackRun c [.access (.write 0 none 0)] = none :=
  ⟨_, rfl, by decide⟩

end MiniHardware.Arch
