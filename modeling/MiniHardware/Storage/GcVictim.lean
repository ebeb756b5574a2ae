import MiniHardware.Storage.GcSafety

/-!
# The choice of the victim (`mini-storage-hardware/src/gc.c`)

The greedy scan takes the first block with the fewest VALID pages. The scan for aged blocks starts from
block 0, whether that may be collected or not, and goes on to a block only if it was erased more often and
has fewer VALID pages than the last one. So it finds the block erased most often if that one stands in line
(`gc_victim_iff`).
-/

namespace MiniHardware.Storage
open Lib

section Victims
variable (f : FTL)

/-- Neither FREE nor BAD, and some page is INVALID. -/
def Collectable (b : BlockRef) : Prop :=
  (f.block b).state ≠ .bad ∧ (f.block b).state ≠ .free ∧ 0 < countInvalidPages (f.block b)

instance collectableDecidable (b : BlockRef) : Decidable (Collectable f b) :=
  inferInstanceAs (Decidable (_ ∧ _ ∧ _))

def blockZero : BlockRef := ⟨0, 0⟩

/-- Erased more often than block 0 and all blocks in line before, and with fewer VALID pages than these. -/
def InLine (b : BlockRef) : Prop :=
  Collectable f b ∧ (f.block blockZero).eraseCount < (f.block b).eraseCount ∧
    ∀ a : BlockRef, a.index < b.index → InLine a →
      (f.block a).eraseCount < (f.block b).eraseCount ∧ countValidPages (f.block b) < countValidPages (f.block a)
termination_by b.index

/-- Nothing to collect, or one of the blocks erased most often stands in line. -/
def AgedFits : Prop :=
  (∀ b, ¬ Collectable f b) ∨
    ∃ b, InLine f b ∧ ∀ a, Collectable f a → (f.block a).eraseCount ≤ (f.block b).eraseCount

/-- What `policy` chooses: nothing only if there is nothing to collect. -/
def VictimRight (policy : GCPolicy) : Option Nat → Prop
  | none => ∀ b, ¬ Collectable f b
  | some i => ∃ b : BlockRef, b.index = i ∧ Collectable f b ∧
      (policy = .greedy → ∀ a, Collectable f a → countValidPages (f.block b) ≤ countValidPages (f.block a)) ∧
      (policy = .agedBlocks → ∀ a, Collectable f a → (f.block a).eraseCount ≤ (f.block b).eraseCount)

end Victims

section Scan
variable {gc : GarbageCollector} {f : FTL}

theorem getBlock_of_lt {i : Nat} (lt : i < totalBlocks) : ∃ b : BlockRef, b.index = i ∧ getBlock i = some b := by
  have plane : i / ftlBlocksPerPlane < ftlPlanes := Nat.div_lt_of_lt_mul lt
  have blk : i % ftlBlocksPerPlane < ftlBlocksPerPlane := Nat.mod_lt i (by decide)
  refine ⟨⟨⟨_, plane⟩, ⟨_, blk⟩⟩, ?_, dif_pos ⟨plane, blk⟩⟩
  exact Nat.div_add_mod' i ftlBlocksPerPlane

theorem countValid_le (block : FlashBlock) : countValidPages block < ftlPagesPerBlock + 1 :=
  Nat.lt_succ_of_le (List.countP_le_length.trans_eq List.length_finRange)

theorem victimStep_eq {s : VictimScan} {best : BlockRef} (at_best : s.bestBlock = best.index) (b : BlockRef) :
    victimStep gc f s b.index =
      if Collectable f b ∧ countValidPages (f.block b) < s.fewestValid ∧
        (gc.policy = .agedBlocks → (f.block best).eraseCount < (f.block b).eraseCount) then
        ⟨b.index, countValidPages (f.block b), true⟩
      else s := by
  unfold victimStep
  rw [getBlock_index]
  dsimp only
  split
  · rename_i skip
    rw [if_neg]
    rintro ⟨⟨bad, free, -⟩, -⟩
    exact skip.elim bad free
  · rename_i used
    rw [not_or] at used
    split
    · rename_i fewer
      cases policy : gc.policy with
      | greedy => rw [if_pos ⟨⟨used.1, used.2, fewer.1⟩, fewer.2, fun h => by cases h⟩]
      | costBenefit => rw [if_pos ⟨⟨used.1, used.2, fewer.1⟩, fewer.2, fun h => by cases h⟩]
      | agedBlocks =>
        rw [at_best, getBlock_index]
        dsimp only
        split
        · rename_i older
          rw [if_pos ⟨⟨used.1, used.2, fewer.1⟩, fewer.2, fun _ => older⟩]
        · rename_i younger
          rw [if_neg fun h => younger (h.2.2 rfl)]
    · rename_i more
      rw [if_neg fun h => more ⟨h.1.2.2, h.2.1⟩]

/-! ## Greedy -/

/-- Before block `i`, the greedy scan. -/
structure GreedyScan (f : FTL) (i : Nat) (s : VictimScan) : Prop where
  best : ∃ b : BlockRef, s.bestBlock = b.index ∧ (s.found = true →
    Collectable f b ∧ s.fewestValid = countValidPages (f.block b) ∧
      ∀ a : BlockRef, a.index < i → Collectable f a → s.fewestValid ≤ countValidPages (f.block a))
  none : s.found = false → s.fewestValid = ftlPagesPerBlock + 1 ∧ ∀ a : BlockRef, a.index < i → ¬ Collectable f a

theorem GreedyScan.step (other : gc.policy ≠ .agedBlocks) {b : BlockRef} {s : VictimScan}
    (h : GreedyScan f b.index s) : GreedyScan f (b.index + 1) (victimStep gc f s b.index) := by
  obtain ⟨best, at_best, found⟩ := h.best
  have here {a : BlockRef} (lt : a.index < b.index + 1) : a.index < b.index ∨ a = b :=
    (Nat.lt_succ_iff_lt_or_eq.1 lt).imp id BlockRef.index_inj.1
  rw [victimStep_eq at_best]
  split
  · rename_i take
    refine ⟨⟨b, rfl, fun _ => ⟨take.1, rfl, fun a lt collectable => ?_⟩⟩, fun no => by cases no⟩
    rcases here lt with before | rfl
    · cases was : s.found with
      | true => exact take.2.1.le.trans ((found was).2.2 a before collectable)
      | false => exact absurd collectable ((h.none was).2 a before)
    · exact Nat.le_refl _
  · rename_i skip
    refine ⟨⟨best, at_best, fun was => ?_⟩, fun was => ⟨(h.none was).1, fun a lt collectable => ?_⟩⟩
    · obtain ⟨collectable, fewest, least⟩ := found was
      refine ⟨collectable, fewest, fun a lt collectable => ?_⟩
      rcases here lt with before | rfl
      · exact least a before collectable
      · by_contra less
        exact skip ⟨collectable, Nat.not_le.1 less, fun aged => absurd aged other⟩
    · rcases here lt with before | rfl
      · exact (h.none was).2 a before collectable
      · refine skip ⟨collectable, ?_, fun aged => absurd aged other⟩
        rw [(h.none was).1]
        exact countValid_le _

/-! ## Aged blocks -/

/-- Before block `i`, the scan for aged blocks: the last block in line. -/
structure AgedScan (f : FTL) (i : Nat) (s : VictimScan) : Prop where
  best : s.found = true → ∃ b : BlockRef, s.bestBlock = b.index ∧ b.index < i ∧ InLine f b ∧
    s.fewestValid = countValidPages (f.block b) ∧ ∀ a : BlockRef, a.index < i → InLine f a →
      (f.block a).eraseCount ≤ (f.block b).eraseCount ∧ countValidPages (f.block b) ≤ countValidPages (f.block a)
  none : s.found = false → s.bestBlock = blockZero.index ∧ s.fewestValid = ftlPagesPerBlock + 1 ∧
    ∀ a : BlockRef, a.index < i → ¬ InLine f a

/-- The scan goes on to a block if and only if that stands in line. -/
theorem AgedScan.step (aged : gc.policy = .agedBlocks) {b : BlockRef} {s : VictimScan}
    (h : AgedScan f b.index s) : AgedScan f (b.index + 1) (victimStep gc f s b.index) := by
  have here {a : BlockRef} (lt : a.index < b.index + 1) : a.index < b.index ∨ a = b :=
    (Nat.lt_succ_iff_lt_or_eq.1 lt).imp id BlockRef.index_inj.1
  cases was : s.found with
  | false =>
    obtain ⟨at_zero, fewest, none⟩ := h.none was
    have line : InLine f b ↔ Collectable f b ∧ countValidPages (f.block b) < s.fewestValid ∧
        (gc.policy = .agedBlocks → (f.block blockZero).eraseCount < (f.block b).eraseCount) := by
      rw [InLine, fewest]
      constructor
      · exact fun ⟨collectable, older, _⟩ => ⟨collectable, countValid_le _, fun _ => older⟩
      · exact fun ⟨collectable, _, older⟩ => ⟨collectable, older aged, fun a lt inLine => absurd inLine (none a lt)⟩
    rw [victimStep_eq at_zero]
    split
    · rename_i take
      refine ⟨fun _ => ⟨b, rfl, Nat.lt_succ_self _, line.2 take, rfl, fun a lt inLine => ?_⟩, fun no => by cases no⟩
      rcases here lt with before | rfl
      · exact absurd inLine (none a before)
      · exact ⟨UInt32.le_refl _, Nat.le_refl _⟩
    · rename_i skip
      refine ⟨fun found => absurd (was.symm.trans found) (by decide), fun _ => ⟨at_zero, fewest, fun a lt inLine => ?_⟩⟩
      rcases here lt with before | rfl
      · exact none a before inLine
      · exact skip (line.1 inLine)
  | true =>
    obtain ⟨best, at_best, before_b, inLine, fewest, last⟩ := h.best was
    have line : InLine f b ↔ Collectable f b ∧ countValidPages (f.block b) < s.fewestValid ∧
        (gc.policy = .agedBlocks → (f.block best).eraseCount < (f.block b).eraseCount) := by
      rw [InLine, fewest]
      constructor
      · intro ⟨collectable, _, passes⟩
        obtain ⟨older, fewer⟩ := passes best before_b inLine
        exact ⟨collectable, fewer, fun _ => older⟩
      · intro ⟨collectable, fewer, older⟩
        have start := inLine
        rw [InLine] at start
        refine ⟨collectable, UInt32.lt_trans start.2.1 (older aged), fun a lt inLine => ?_⟩
        obtain ⟨le, ge⟩ := last a lt inLine
        exact ⟨UInt32.lt_of_le_of_lt le (older aged), fewer.trans_le ge⟩
    rw [victimStep_eq at_best]
    split
    · rename_i take
      refine ⟨fun _ => ⟨b, rfl, Nat.lt_succ_self _, line.2 take, rfl, fun a lt inLine => ?_⟩, fun no => by cases no⟩
      rcases here lt with before | rfl
      · obtain ⟨le, ge⟩ := last a before inLine
        rw [fewest] at take
        exact ⟨UInt32.le_trans le (UInt32.le_of_lt (take.2.2 aged)), take.2.1.le.trans ge⟩
      · exact ⟨UInt32.le_refl _, Nat.le_refl _⟩
    · rename_i skip
      refine ⟨fun _ => ⟨best, at_best, Nat.lt_succ_of_lt before_b, inLine, fewest, fun a lt inLine => ?_⟩,
        fun no => absurd (was.symm.trans no) (by decide)⟩
      rcases here lt with before | rfl
      · exact last a before inLine
      · exact absurd (line.1 inLine) skip

/-! ## The whole scan -/

/-- What every block of the loop keeps. -/
theorem victim_scan_run (gc : GarbageCollector) (f : FTL) {motive : Nat → VictimScan → Prop}
    (init : motive 0 ⟨0, ftlPagesPerBlock + 1, false⟩)
    (keep : ∀ (b : BlockRef) s, motive b.index s → motive (b.index + 1) (victimStep gc f s b.index)) :
    motive totalBlocks ((List.range totalBlocks).foldl (victimStep gc f) ⟨0, ftlPagesPerBlock + 1, false⟩) := by
  have prefixes (i : Nat) (le : i ≤ totalBlocks) :
      motive i ((List.range i).foldl (victimStep gc f) ⟨0, ftlPagesPerBlock + 1, false⟩) := by
    induction i with
    | zero => exact init
    | succ i ih =>
      obtain ⟨b, rfl, -⟩ := getBlock_of_lt (Nat.lt_of_succ_le le)
      rw [List.range_succ, List.foldl_concat]
      exact keep b _ (ih (Nat.le_of_succ_le le))
  exact prefixes totalBlocks (Nat.le_refl _)

theorem gcSelectVictim_aged (aged : gc.policy = .agedBlocks) :
    gcSelectVictim gc f = none ∧ (∀ b, ¬ InLine f b) ∨
      ∃ b, gcSelectVictim gc f = some b.index ∧ InLine f b ∧
        ∀ a, InLine f a → (f.block a).eraseCount ≤ (f.block b).eraseCount := by
  have scan := victim_scan_run gc f (motive := AgedScan f)
    ⟨fun no => (by cases no), fun _ => ⟨rfl, rfl, fun a lt => absurd lt (Nat.not_lt_zero _)⟩⟩ fun b s h => h.step aged
  unfold gcSelectVictim
  dsimp only
  cases was : (List.foldl (victimStep gc f) ⟨0, ftlPagesPerBlock + 1, false⟩ (List.range totalBlocks)).found with
  | false => exact .inl ⟨rfl, fun b => (scan.none was).2.2 b b.index_lt⟩
  | true =>
    obtain ⟨best, at_best, -, inLine, -, last⟩ := scan.best was
    refine .inr ⟨best, ?_, inLine, fun a other => (last a a.index_lt other).1⟩
    rw [if_pos rfl, at_best]

theorem gcSelectVictim_greedy (other : gc.policy ≠ .agedBlocks) :
    gcSelectVictim gc f = none ∧ (∀ b, ¬ Collectable f b) ∨
      ∃ b, gcSelectVictim gc f = some b.index ∧ Collectable f b ∧
        ∀ a, Collectable f a → countValidPages (f.block b) ≤ countValidPages (f.block a) := by
  have scan := victim_scan_run gc f (motive := GreedyScan f)
    ⟨⟨blockZero, rfl, fun no => (by cases no)⟩, fun _ => ⟨rfl, fun a lt => absurd lt (Nat.not_lt_zero _)⟩⟩
    fun b s h => h.step other
  unfold gcSelectVictim
  dsimp only
  cases was : (List.foldl (victimStep gc f) ⟨0, ftlPagesPerBlock + 1, false⟩ (List.range totalBlocks)).found with
  | false => exact .inl ⟨rfl, fun b => (scan.none was).2 b b.index_lt⟩
  | true =>
    obtain ⟨best, at_best, found⟩ := scan.best
    obtain ⟨collectable, fewest, least⟩ := found was
    refine .inr ⟨best, ?_, collectable, fun a other => ?_⟩
    · rw [if_pos rfl, at_best]
    · rw [← fewest]
      exact least a a.index_lt other

/-- For every FTL and collector: the victim is the right one, except perhaps for aged blocks, and there it is
if and only if there is nothing to collect or a block erased most often stands in line. -/
theorem gc_victim_iff (gc : GarbageCollector) (f : FTL) :
    VictimRight f gc.policy (gcSelectVictim gc f) ↔ (gc.policy = .agedBlocks → AgedFits f) := by
  by_cases aged : gc.policy = .agedBlocks
  · rw [forall_prop_of_true aged]
    obtain ⟨nothing, none⟩ | ⟨best, victim, inLine, last⟩ := gcSelectVictim_aged (f := f) aged
    · rw [nothing]
      constructor
      · exact fun nothing => .inl nothing
      · rintro (nothing | ⟨b, inLine, -⟩)
        · exact nothing
        · exact absurd inLine (none b)
    · rw [victim]
      have start := inLine
      rw [InLine] at start
      constructor
      · rintro ⟨b, eq, -, -, oldest⟩
        obtain rfl := BlockRef.index_inj.1 eq
        exact .inr ⟨b, inLine, oldest aged⟩
      · rintro (nothing | ⟨b, inLine', oldest⟩)
        · exact absurd start.1 (nothing best)
        · refine ⟨best, rfl, start.1, fun greedy => ?_, fun _ a other => ?_⟩
          · rw [aged] at greedy
            cases greedy
          · exact UInt32.le_trans (oldest a other) (last b inLine')
  · refine iff_of_true ?_ fun h => absurd h aged
    obtain ⟨nothing, none⟩ | ⟨best, victim, collectable, least⟩ := gcSelectVictim_greedy (f := f) aged
    · rw [nothing]
      exact none
    · rw [victim]
      exact ⟨best, rfl, collectable, fun _ => least, fun h => absurd h aged⟩

/-- One page is written and trimmed: block 0 has an INVALID page, and the scan for aged blocks finds nothing. -/
theorem gc_aged_misses :
    gcSelectVictim (gcInit .agedBlocks 7 20) (storeRun .pageLevel (trimOps 0)) = none ∧
      Collectable (storeRun .pageLevel (trimOps 0)) blockZero := by
  have h := (trimmed_run .pageLevel 0 (by decide)).1
  obtain ⟨r, low, stale, -⟩ := h.valid
  have zero : r.block = blockZero := by
    apply BlockRef.index_inj.1
    have index := r.index_eq
    change r.block.index = 0
    omega
  have collectable : Collectable (storeRun .pageLevel (trimOps 0)) blockZero := by
    rw [← zero]
    refine ⟨?_, ?_, List.countP_pos_iff.2 ⟨r.pg, List.mem_finRange _, decide_eq_true stale⟩⟩
    · rw [h.active r low]
      decide
    · rw [h.active r low]
      decide
  refine ⟨?_, collectable⟩
  -- no other block has an INVALID page, and block 0 was not erased more often than itself
  obtain ⟨nothing, -⟩ | ⟨b, -, inLine, -⟩ := gcSelectVictim_aged (f := storeRun .pageLevel (trimOps 0))
    (show (gcInit .agedBlocks 7 20).policy = .agedBlocks from rfl)
  · exact nothing
  · rw [InLine] at inLine
    obtain ⟨⟨-, -, some⟩, older, -⟩ := inLine
    obtain ⟨i, -, invalid⟩ := List.countP_pos_iff.1 some
    have invalid : ((storeRun .pageLevel (trimOps 0)).page ⟨b, i⟩).state = .invalid := of_decide_eq_true invalid
    have first : (⟨b, i⟩ : PageRef).index ≤ 0 := by
      by_contra high
      rw [h.free ⟨b, i⟩ (Nat.not_le.1 high)] at invalid
      cases invalid
    have eq : b = blockZero := by
      apply BlockRef.index_inj.1
      have index := (⟨b, i⟩ : PageRef).index_eq
      change b.index = 0
      dsimp only at index
      omega
    rw [eq] at older
    exact absurd older (UInt32.lt_irrefl _)

end Scan

end MiniHardware.Storage
