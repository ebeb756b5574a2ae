import MiniHardware.Storage.GcRoom

/-!
# When garbage collection keeps the data

`gc_migrate` ignores a failing `ftl_write`, and retires a page before it copies
it, so a collection without room erases data. After any run in which every
write to a mapped LBA and every collection has room, a further collection
keeps what every LBA reads exactly if it has room (`gc_trigger_keeps_reads`).
-/

namespace MiniHardware.Storage
open Lib

/-! ## One page of the victim -/

@[simp] theorem markStale_mappingTable (f : FTL) (l : Lba) :
    (markStale f l).mappingTable = f.mappingTable := by
  unfold markStale
  split <;> (try split) <;> rfl

/-- The data of a stale page stays in it. -/
theorem markStale_data (f : FTL) (l : Lba) (r : PageRef) :
    ((markStale f l).page r).data = (f.page r).data := by
  unfold markStale
  split
  · split
    · dsimp only
      rw [FTL.page_setPage]
      split
      · rename_i e; rw [e]
      · rfl
    · rfl
  · rfl

/-- An FTL without room has none after a page is marked stale. -/
theorem stuck_markStale {f : FTL} (l : Lba) (stuck : Stuck f) : Stuck (markStale f l) := by
  unfold markStale
  split <;> (try split) <;> exact stuck

/-- The invariant does not speak of the statistics. -/
theorem GcInv.setStats {f : FTL} (inv : GcInv f) (stats : FTLStats) :
    GcInv { f with stats := stats } := ⟨inv.mapped, inv.owned, inv.suffix, inv.behind⟩

/-- The room for the copies does not depend on the statistics. -/
theorem fits_setStats (f : FTL) (stats : FTLStats) (victim : BlockRef) (n : Nat) :
    Fits { f with stats := stats } victim n ↔ Fits f victim n := by
  unfold Fits copies room roomBefore roomInside freeAhead
  exact Iff.rfl

theorem validFrom_setStats (f : FTL) (stats : FTLStats) (victim : BlockRef) (i : Nat) :
    validFrom { f with stats := stats } victim i = validFrom f victim i := by
  unfold validFrom; rfl

/-- What the loop body does to a VALID page: rewrite its data to its own LBA. -/
theorem GcInv.migrate_page {f : FTL} (inv : GcInv f) {victim : BlockRef}
    {i : Fin ftlPagesPerBlock} (valid : (f.page ⟨victim, i⟩).state = .valid) (m : GCMetrics) :
    ∃ l, f.mappingTable l = some (PageRef.phys ⟨victim, i⟩) ∧
      (migratePage victim (m, f) i).2 =
        if (ftlWrite f (UInt32.ofNat l.val) (f.page ⟨victim, i⟩).data).1 = 0 then
          { (ftlWrite f (UInt32.ofNat l.val) (f.page ⟨victim, i⟩).data).2 with
            stats :=
              { (ftlWrite f (UInt32.ofNat l.val) (f.page ⟨victim, i⟩).data).2.stats with
                gcMoves := (ftlWrite f (UInt32.ofNat l.val)
                  (f.page ⟨victim, i⟩).data).2.stats.gcMoves + 1
                hostWrites := (ftlWrite f (UInt32.ofNat l.val)
                  (f.page ⟨victim, i⟩).data).2.stats.hostWrites - 1 } }
        else (ftlWrite f (UInt32.ofNat l.val) (f.page ⟨victim, i⟩).data).2 := by
  obtain ⟨id, l, own⟩ := inv.owned _ valid
  refine ⟨l, own, ?_⟩
  unfold migratePage
  simp only [valid, id, (inv.state_of_mapped own).2, markStale_data, if_true]
  rw [write_mark_stale f l _ (lba_toNat l)]
  split <;> rfl

/-- The loop passes over a page that is not VALID. -/
theorem migrate_page_stale {f : FTL} {victim : BlockRef} {i : Fin ftlPagesPerBlock}
    (stale : (f.page ⟨victim, i⟩).state ≠ .valid) (m : GCMetrics) :
    migratePage victim (m, f) i = (m, f) := by
  unfold migratePage
  simp only [stale, if_false]

/-- On a stuck device the loop body moves nothing. -/
theorem migrate_page_of_stuck {f : FTL} (stuck : Stuck f) (victim : BlockRef)
    (i : Fin ftlPagesPerBlock) (m : GCMetrics) :
    Stuck (migratePage victim (m, f) i).2 ∧
      (migratePage victim (m, f) i).2.mappingTable = f.mappingTable := by
  unfold migratePage
  dsimp only
  split
  · split
    · rename_i l _
      obtain ⟨fails, stuck', map⟩ := write_of_stuck (stuck_markStale l stuck)
        (UInt32.ofNat l.val) ((markStale f l).page ⟨victim, i⟩).data
      rw [if_neg fails]
      exact ⟨stuck', by rw [map, markStale_mappingTable]⟩
    · exact ⟨stuck, rfl⟩
  · exact ⟨stuck, rfl⟩

/-! ## The whole victim -/

/-- The loop is at page `i` and has lost nothing. -/
structure Migrating (f₀ : FTL) (victim : BlockRef) (i : Nat) (f : FTL) : Prop where
  inv : GcInv f
  reads : ∀ k, f.remap.read zeroPage k = f₀.remap.read zeroPage k
  moved : ∀ j : Fin ftlPagesPerBlock, j.val < i → (f.page ⟨victim, j⟩).state ≠ .valid
  fits : Fits f victim (validFrom f victim i).card ↔ MigrationRoom f₀ victim

/-- A copy has failed: some LBA that had data still points into the victim, and no later
write can succeed. -/
structure Lost (f₀ : FTL) (victim : BlockRef) (f : FTL) : Prop where
  stuck : Stuck f
  noRoom : ¬ MigrationRoom f₀ victim
  orphan : ∃ l d i, f₀.remap.read zeroPage l = some d ∧
    f.mappingTable l = some (PageRef.phys ⟨victim, i⟩)

/-- Room for at least one page lets the next write succeed. -/
theorem writeFits_of_fits {f : FTL} {victim : BlockRef} {n : Nat} (fits : Fits f victim (n + 1)) :
    WriteFits f := by
  obtain ⟨h1, h2⟩ := fits
  constructor
  · intro zero
    rw [zero] at h2
    simp [copies] at h2
  · have : 0 < ((freeAhead f).filter (·.block ≠ victim)).card := Nat.lt_of_lt_of_le n.succ_pos h1
    obtain ⟨r, hr⟩ := Finset.card_pos.1 this
    exact ⟨r, (Finset.mem_filter.1 hr).1⟩

/-- One page of the loop: it is moved, or the loss has happened. -/
theorem Migrating.step {f₀ f : FTL} {victim : BlockRef} {i : Fin ftlPagesPerBlock}
    (h : Migrating f₀ victim i f) (m : GCMetrics) :
    Migrating f₀ victim (i + 1) (migratePage victim (m, f) i).2 ∨
      Lost f₀ victim (migratePage victim (m, f) i).2 := by
  by_cases valid : (f.page ⟨victim, i⟩).state = .valid
  · obtain ⟨l, own, moved⟩ := h.inv.migrate_page valid m
    have hl : (UInt32.ofNat l.val).toNat < ftlMaxLbas := (lba_toNat l).symm ▸ l.isLt
    have el : (⟨_, hl⟩ : Lba) = l := Fin.ext (lba_toNat l)
    by_cases fits : WriteFits f
    · left
      obtain ⟨r, lands, hw⟩ := h.inv.ftlInv.write_lba fits l (f.page ⟨victim, i⟩).data
      rw [moved, hw, if_pos rfl]
      refine ⟨(h.inv.written lands l _).setStats _, fun k => ?_, fun j lt => ?_, ?_⟩
      · exact (h.inv.ftlInv.read_written lands own valid k).trans (h.reads k)
      · show ((written f r l _).page ⟨victim, j⟩).state ≠ .valid
        rw [written, GcInv.state_programmed]
        have ne : (⟨victim, j⟩ : PageRef) ≠ r := by
          rintro rfl
          have free := h.inv.suffix ⟨victim, j⟩ ⟨victim, i⟩ rfl (show j.val ≤ i.val by omega) lands.free
          rw [valid] at free
          cases free
        rw [if_neg ne, own]
        by_cases hj : j = i
        · subst hj; simp
        · have : j.val ≠ i.val := fun e => hj (Fin.ext e)
          split
          · simp
          · exact h.moved j (by omega)
      · rw [fits_setStats, validFrom_setStats, h.inv.fits_written lands fits.1 _ own, h.fits]
    · right
      obtain ⟨fails, stuck, map⟩ := h.inv.write_fails fits _ hl (f.page ⟨victim, i⟩).data
      rw [moved, if_neg fails]
      refine ⟨stuck, fun room => fits ?_, l, (f.page ⟨victim, i⟩).data, i, ?_, map ▸ own⟩
      · have := h.fits.2 room
        rw [card_validFrom_valid valid] at this
        exact writeFits_of_fits this
      · rw [← h.reads, Remap.read_of_fwd (show f.remap.fwd l = _ from own), FTL.remap_cell,
          if_pos valid]
  · left
    rw [migrate_page_stale valid]
    refine ⟨h.inv, h.reads, fun j lt => ?_, by rw [← validFrom_not_valid valid]; exact h.fits⟩
    by_cases hj : j = i
    · exact hj ▸ valid
    · have : j.val ≠ i.val := fun e => hj (Fin.ext e)
      exact h.moved j (by omega)

/-- What is lost stays lost for the rest of the loop. -/
theorem Lost.step {f₀ f : FTL} {victim : BlockRef} (h : Lost f₀ victim f)
    (i : Fin ftlPagesPerBlock) (m : GCMetrics) :
    Lost f₀ victim (migratePage victim (m, f) i).2 := by
  obtain ⟨stuck, map⟩ := migrate_page_of_stuck h.stuck victim i m
  exact ⟨stuck, h.noRoom, map ▸ h.orphan⟩

/-- The FTL after the loop of `gc_migrate`. -/
def migrated (m : GCMetrics) (f : FTL) (victim : BlockRef) : FTL :=
  ((List.finRange ftlPagesPerBlock).foldl (migratePage victim) (m, f)).2

/-- The migration loop either moves every VALID page out and had the room for it, or
loses data and had not. -/
theorem migrated_spec {f : FTL} (inv : GcInv f) (m : GCMetrics) (victim : BlockRef) :
    Migrating f victim ftlPagesPerBlock (migrated m f victim) ∨
      Lost f victim (migrated m f victim) := by
  have init : Migrating f victim 0 f := by
    refine ⟨inv, fun _ => rfl, fun _ lt => absurd lt (Nat.not_lt_zero _), ?_⟩
    rw [card_validFrom_zero]; rfl
  refine finRange_foldl_invariant (s := (m, f))
    (motive := fun i s => Migrating f victim i s.2 ∨ Lost f victim s.2) (.inl init) ?_
  rintro i ⟨m, g⟩ (h | h)
  · exact h.step m
  · exact .inr (h.step i m)

/-- A loop that ends without a loss had the room. -/
theorem Migrating.hasRoom {f₀ f : FTL} {victim : BlockRef}
    (h : Migrating f₀ victim ftlPagesPerBlock f) : MigrationRoom f₀ victim := by
  refine h.fits.1 ?_
  have : validFrom f victim ftlPagesPerBlock = ∅ := by
    refine Finset.eq_empty_of_forall_notMem fun j hj => ?_
    exact absurd (mem_validFrom.1 hj).1 (Nat.not_le.2 j.isLt)
  rw [this, Finset.card_empty]
  exact ⟨Nat.zero_le _, by simp [copies]⟩

/-! ## Erasing the victim -/

/-- An erased block has FREE pages; the others stay. -/
theorem page_eraseBlock (f : FTL) (b : BlockRef) (r : PageRef) :
    (eraseBlock f b).page r =
      if r.block = b then { f.page r with state := .free } else f.page r := by
  show ((f.setBlock b _).block r.block).pages r.pg = _
  rw [FTL.block_setBlock]
  split
  · rename_i e; subst e; rfl
  · rfl

/-- Erasing a block without VALID pages keeps the invariant and what every LBA reads. -/
theorem GcInv.eraseBlock {f : FTL} (inv : GcInv f) {victim : BlockRef}
    (moved : ∀ i, (f.page ⟨victim, i⟩).state ≠ .valid) :
    GcInv (eraseBlock f victim) ∧
      ∀ k, (Storage.eraseBlock f victim).remap.read zeroPage k = f.remap.read zeroPage k := by
  have outside : ∀ {l : Lba} {r : PageRef}, f.mappingTable l = some r.phys → r.block ≠ victim := by
    rintro l ⟨b, i⟩ own rfl
    exact moved i (inv.state_of_mapped own).1
  constructor
  · constructor
    · intro l p h
      obtain ⟨r, rfl, valid, back⟩ := inv.mapped l p h
      exact ⟨r, rfl, by rw [page_eraseBlock, if_neg (outside h), valid], back⟩
    · intro r h
      rw [page_eraseBlock] at h ⊢
      split at h
      · cases h
      · rename_i ne
        rw [if_neg ne]
        exact inv.owned r h
    · intro r r' block le h
      rw [page_eraseBlock] at h ⊢
      split
      · rfl
      · rename_i ne
        rw [if_neg (block ▸ ne)] at h
        exact inv.suffix r r' block le h
    · intro r lt block
      have wp : (Storage.eraseBlock f victim).writePointer.val = victim.index * 128 := rfl
      have := r.index_eq
      rw [wp] at lt block
      omega
  · intro k
    refine Remap.read_congr rfl fun p hp => ?_
    obtain ⟨r, rfl, -, -⟩ := inv.mapped k p hp
    rw [FTL.remap_cell, FTL.remap_cell, page_eraseBlock, if_neg (outside hp)]

/-- A lost page is unreadable after the erase. -/
theorem Lost.read_eraseBlock {f₀ f : FTL} {victim : BlockRef} (h : Lost f₀ victim f) :
    ∃ k, (eraseBlock f victim).remap.read zeroPage k ≠ f₀.remap.read zeroPage k := by
  obtain ⟨l, d, i, had, own⟩ := h.orphan
  refine ⟨l, ?_⟩
  rw [had, Remap.read_of_fwd (show (eraseBlock f victim).remap.fwd l = _ from own), FTL.remap_cell,
    page_eraseBlock, if_pos rfl]
  simp

/-! ## The collector -/

/-- The block a `gc_trigger` call goes on to collect, if it gets that far. -/
def gcVictim (gc : GarbageCollector) (f : FTL) : Option BlockRef :=
  if (freeNeeded gc).toNat ≤ countFreeBlocks f then none
  else (gcSelectVictim gc f).bind getBlock

/-- `gc_trigger` returns 1 exactly if it collects a victim, and else changes nothing. -/
theorem gc_trigger_outcome (gc : GarbageCollector) (f : FTL) :
    (gcVictim gc f = none ∧ (gcTrigger gc f).1 ≠ 1 ∧ (gcTrigger gc f).2.2 = f) ∨
    ∃ victim m, gcVictim gc f = some victim ∧ (gcTrigger gc f).1 = 1 ∧
      (gcTrigger gc f).2.2 = eraseBlock (migrated m f victim) victim := by
  unfold gcVictim gcTrigger
  split
  · exact .inl ⟨rfl, by simp, rfl⟩
  · cases hs : gcSelectVictim gc f with
    | none => exact .inl ⟨rfl, by simp, rfl⟩
    | some v =>
      cases hb : getBlock v with
      | none => exact .inl ⟨hb, by simp [gcMigrate, hb], by simp [gcMigrate, hb]⟩
      | some b =>
        refine .inr ⟨b, { gc.metrics with totalBgs := gc.metrics.totalBgs + 1 }, hb, ?_, ?_⟩
        · simp [gcMigrate, gcEraseBlock, hb]
        · simp [gcMigrate, gcEraseBlock, hb, migrated]

/-- In a sound state a collection keeps what every LBA reads exactly if it has room, and
then leaves a sound state. -/
theorem GcInv.trigger {f : FTL} (inv : GcInv f) {gc : GarbageCollector} {victim : BlockRef}
    (hv : gcVictim gc f = some victim) :
    ((∀ k, (gcTrigger gc f).2.2.remap.read zeroPage k = f.remap.read zeroPage k) ↔
      MigrationRoom f victim) ∧
    (MigrationRoom f victim → GcInv (gcTrigger gc f).2.2) := by
  obtain ⟨none, -⟩ | ⟨v, m, hv', -, run⟩ := gc_trigger_outcome gc f
  · rw [none] at hv; cases hv
  · cases hv.symm.trans hv'
    rw [run]
    rcases migrated_spec inv m victim with h | h
    · obtain ⟨inv', reads⟩ := h.inv.eraseBlock fun i => h.moved i i.isLt
      exact ⟨⟨fun _ => h.hasRoom, fun _ k => (reads k).trans (h.reads k)⟩, fun _ => inv'⟩
    · obtain ⟨k, ne⟩ := h.read_eraseBlock
      exact ⟨⟨fun same => absurd (same k) ne, fun room => absurd room h.noRoom⟩,
        fun room => absurd room h.noRoom⟩

/-! ## Runs -/

/-- Host calls and collections, each with a collector of its own. -/
inductive StoreOp where
  | write (lba : UInt32) (data : PageData)
  | trim (lba : UInt32)
  | gcTrigger (gc : GarbageCollector)

def storeStep (f : FTL) : StoreOp → FTL
  | .write lba data => (ftlWrite f lba data).2
  | .trim lba => (ftlTrim f lba).2
  | .gcTrigger gc => (gcTrigger gc f).2.2

/-- The call does not run out of pages: a write to a mapped LBA finds one, and a
collection can move its victim's VALID pages out. -/
def StoreRoom (f : FTL) : StoreOp → Prop
  | .write lba _ => ∀ h : lba.toNat < ftlMaxLbas, f.mappingTable ⟨lba.toNat, h⟩ ≠ none → WriteFits f
  | .trim _ => True
  | .gcTrigger gc => ∀ victim, gcVictim gc f = some victim → MigrationRoom f victim

/-- A write with room keeps the invariant. -/
theorem GcInv.write {f : FTL} (inv : GcInv f) (lba : UInt32) (data : PageData)
    (hasRoom : StoreRoom f (.write lba data)) : GcInv (ftlWrite f lba data).2 := by
  by_cases h : lba.toNat < ftlMaxLbas
  · by_cases fits : WriteFits f
    · obtain ⟨r, lands, hw⟩ := inv.ftlInv.write_lands fits lba h data
      rw [hw]
      exact inv.written lands _ _
    · have fresh : f.mappingTable ⟨lba.toNat, h⟩ = none := by
        by_contra mapped
        exact fits (hasRoom h mapped)
      obtain ⟨-, wp, moved, same⟩ := write_unmapped fits fresh data
      rw [same]
      refine ⟨inv.mapped, inv.owned, inv.suffix, fun r lt block => ?_⟩
      rcases moved with gone | rfl
      · have := r.block.index_lt
        change r.block.index = wp.val / 128 at block
        omega
      · exact inv.behind r lt block
  · rw [ftlWrite, dif_neg h]
    exact inv

/-- A trim keeps the invariant. -/
theorem GcInv.trim {f : FTL} (inv : GcInv f) (lba : UInt32) : GcInv (ftlTrim f lba).2 := by
  unfold ftlTrim
  split
  · rename_i h
    split
    · rename_i p hp
      obtain ⟨r₀, rfl, -, -⟩ := inv.mapped _ p hp
      refine ⟨fun l q hq => ?_, fun r valid => ?_, fun r r' block le free => ?_,
        fun r lt block free => ?_⟩
      · simp only [FTL.retirePage_mappingTable, Function.update_apply] at hq
        split at hq
        · cases hq
        · rename_i ne
          obtain ⟨r, rfl, valid, back⟩ := inv.mapped l q hq
          have hr : r ≠ r₀ := by rintro rfl; exact ne (inv.mapped_inj hq hp)
          refine ⟨r, rfl, ?_, ?_⟩
          · show ((retirePage f r₀.phys).page r).state = _
            rw [FTL.page_retirePage, if_neg fun e => hr (PageRef.phys_inj.1 e), valid]
          · show (retirePage f r₀.phys).reverseMap _ = _
            rw [FTL.retirePage_reverseMap, Function.update_of_ne fun e => hr (PageRef.phys_inj.1 e),
              back]
      · change ((retirePage f r₀.phys).page r).state = _ at valid
        show ((retirePage f r₀.phys).page r).id = _ ∧ _
        rw [FTL.page_retirePage] at valid ⊢
        split at valid
        · cases valid
        · rename_i hr
          obtain ⟨id, l, own⟩ := inv.owned r valid
          rw [if_neg hr]
          refine ⟨id, l, ?_⟩
          have ne : l ≠ ⟨lba.toNat, h⟩ := by
            rintro rfl; rw [hp, Option.some.injEq] at own; exact hr own.symm
          simp [Function.update_of_ne ne, own]
      · change ((retirePage f r₀.phys).page r).state = _ at free
        show ((retirePage f r₀.phys).page r').state = _
        rw [FTL.page_retirePage] at free ⊢
        split at free
        · cases free
        · have free' := inv.suffix r r' block le free
          rw [if_neg, free']
          intro e
          rw [PageRef.phys_inj.1 e, (inv.state_of_mapped hp).1] at free'
          cases free'
      · change ((retirePage f r₀.phys).page r).state = _ at free
        rw [FTL.page_retirePage] at free
        simp only [FTL.retirePage_writePointer] at lt block
        split at free
        · cases free
        · exact inv.behind r lt block free
    · exact inv
  · exact inv

/-- Every call with room keeps the invariant. -/
theorem gc_inv_step (f : FTL) (op : StoreOp) (inv : GcInv f) (hasRoom : StoreRoom f op) :
    GcInv (storeStep f op) := by
  cases op with
  | write lba data => exact inv.write lba data hasRoom
  | trim lba => exact inv.trim lba
  | gcTrigger gc =>
    obtain ⟨-, -, same⟩ | ⟨v, -, hv, -, -⟩ := gc_trigger_outcome gc f
    · show GcInv (gcTrigger gc f).2.2
      rw [same]
      exact inv
    · exact (inv.trigger hv).2 (hasRoom v hv)

/-- `ftl_read` agrees everywhere exactly if the stores behind it do. -/
theorem reads_same_iff {f f' : FTL} : (∀ lba, (ftlRead f' lba).1 = (ftlRead f lba).1) ↔
    ∀ k, f'.remap.read zeroPage k = f.remap.read zeroPage k := by
  constructor
  · intro same k
    have := same (UInt32.ofNat k.val)
    have hk : (UInt32.ofNat k.val).toNat < ftlMaxLbas := (lba_toNat k).symm ▸ k.isLt
    rw [ftl_read_eq _ _ hk, ftl_read_eq _ _ hk] at this
    simpa only [lba_toNat] using this
  · intro same lba
    by_cases h : lba.toNat < ftlMaxLbas
    · rw [ftl_read_eq _ _ h, ftl_read_eq _ _ h, same]
    · rw [ftl_read_out_of_range _ _ (Nat.le_of_not_lt h),
        ftl_read_out_of_range _ _ (Nat.le_of_not_lt h)]

/-- The state after a run from `ftl_init`. -/
def storeRun (mode : FTLMappingMode) (ops : List StoreOp) : FTL := run storeStep (ftlInit mode) ops

/-- **A collection keeps the data exactly if its copies have room.** After any run whose
calls had room, a `gc_trigger` that returns 1 leaves `ftl_read` of every LBA
unchanged if and only if the victim's VALID pages fit elsewhere. -/
theorem gc_trigger_keeps_reads (mode : FTLMappingMode) (ops : List StoreOp)
    (hasRoom : Guarded storeStep StoreRoom (ftlInit mode) ops) (gc : GarbageCollector)
    (ret : (gcTrigger gc (storeRun mode ops)).1 = 1) :
    (∀ lba, (ftlRead (gcTrigger gc (storeRun mode ops)).2.2 lba).1 =
      (ftlRead (storeRun mode ops) lba).1) ↔ StoreRoom (storeRun mode ops) (.gcTrigger gc) := by
  have inv : GcInv (storeRun mode ops) :=
    guarded_invariant gc_inv_step (gc_inv_init mode) hasRoom
  generalize storeRun mode ops = f at inv ret ⊢
  obtain ⟨-, not1, -⟩ | ⟨v, m, hv, -, -⟩ := gc_trigger_outcome gc f
  · exact absurd ret not1
  · have room : StoreRoom f (.gcTrigger gc) ↔ MigrationRoom f v :=
      ⟨fun h => h v hv, fun h v' hv' => by cases hv.symm.trans hv'; exact h⟩
    rw [room, ← (inv.trigger hv).1, reads_same_iff]

/-! ## A device that is written from the start -/

theorem block_programPage_state {f : FTL} {r : PageRef} (l : Lba) (d : PageData) (b : BlockRef) :
    ((programPage { f with writePointer := r.phys } r l d).block b).state =
      if b = r.block ∧ (f.block b).state = .free then .active else (f.block b).state := by
  have hb : getPhysicalBlock r.phys = some r.block :=
    get_physical_block_of_page (get_physical_page_index r)
  have hs : ∀ b' v, (({ f with writePointer := r.phys }.setPage r v).block b').state =
      (f.block b').state := fun b' v => FTL.block_setPage_state _ r v b'
  unfold programPage
  simp only [hb]
  split
  · rename_i free
    change (({ f with writePointer := r.phys }.setPage r _).block r.block).state = _ at free
    change ((FTL.setBlock _ r.block _).block b).state = _
    rw [hs] at free
    rw [FTL.block_setBlock]
    by_cases e : b = r.block
    · simp [e, free]
    · simp only [e, false_and, if_false]
      exact hs b _
  · rename_i used
    change ¬ (({ f with writePointer := r.phys }.setPage r _).block r.block).state = _ at used
    change (({ f with writePointer := r.phys }.setPage r _).block b).state = _
    rw [hs] at used ⊢
    rw [if_neg]
    rintro ⟨rfl, free⟩
    exact used free

/-- The first `n` pages hold the LBAs `0 … n-1` and nothing else was done. -/
structure Filled (n : Nat) (f : FTL) : Prop where
  inv : GcInv f
  pointer : f.writePointer.val = n
  count : f.freePages.toNat = 65536 - n
  mapped : ∀ l : Lba, f.mappingTable l = none ↔ n ≤ l.val
  valid : ∀ r : PageRef, r.index < n → (f.page r).state = .valid
  free : ∀ r : PageRef, n ≤ r.index → (f.page r).state = .free
  active : ∀ r : PageRef, r.index < n → (f.block r.block).state = .active
  calm : ∀ b, (f.block b).state = .free ∨ (f.block b).state = .active

/-- No LBA is filled at first. -/
theorem filled_init (mode : FTLMappingMode) : Filled 0 (ftlInit mode) where
  inv := gc_inv_init mode
  pointer := rfl
  count := rfl
  mapped _ := ⟨fun _ => Nat.zero_le _, fun _ => rfl⟩
  valid _ h := absurd h (Nat.not_lt_zero _)
  free _ _ := rfl
  active _ h := absurd h (Nat.not_lt_zero _)
  calm _ := .inl rfl

/-- The next LBA goes to the next page. -/
theorem Filled.write {n : Nat} {f : FTL} (h : Filled n f) (lt : n < 8192) (data : PageData) :
    Filled (n + 1) (ftlWrite f (UInt32.ofNat n) data).2 := by
  obtain ⟨r, hr⟩ : ∃ r : PageRef, r.index = n := by
    cases hp : getPhysicalPage n with
    | none => exact absurd (get_physical_page_eq_none.1 hp) (Nat.not_le.2 lt)
    | some r => exact ⟨r, get_physical_page_eq_some.1 hp⟩
  have hn : (UInt32.ofNat n).toNat = n := UInt32.toNat_ofNat_of_lt' (Nat.lt_trans lt (by decide))
  have hl : (UInt32.ofNat n).toNat < ftlMaxLbas := hn.symm ▸ Nat.lt_trans lt (by decide)
  have fits : WriteFits f := by
    refine ⟨fun zero => ?_, r, mem_freeAhead.2 ⟨by rw [h.pointer, hr], h.free r (by omega)⟩⟩
    have := h.count
    rw [zero, UInt32.toNat_zero] at this
    omega
  obtain ⟨r', lands, hw⟩ := h.inv.ftlInv.write_lands fits _ hl data
  have hr' : r' = r := by
    have := lands.ahead
    rw [h.pointer] at this
    have notLater : ¬ r.index < r'.index := fun lt =>
      lands.first r (by rw [h.pointer]; omega) lt (h.free r (by omega))
    exact PageRef.index_inj.1 (by omega)
  subst hr'
  have fresh : f.mappingTable ⟨(UInt32.ofNat n).toNat, hl⟩ = none :=
    (h.mapped _).2 (Nat.le_of_eq hn.symm)
  have keep : retireOld f ⟨(UInt32.ofNat n).toNat, hl⟩ = f := by unfold retireOld; rw [fresh]
  rw [hw]
  refine ⟨h.inv.written lands _ _, ?_, ?_, fun l => ?_, fun q lt => ?_, fun q le => ?_,
    fun q lt => ?_, fun b => ?_⟩
  · show (r'.phys + 1).val = _
    rw [succ_val rfl]
    show r'.index + 1 = n + 1
    omega
  · have e : (written f r' ⟨(UInt32.ofNat n).toNat, hl⟩ data).freePages = f.freePages - 1 := by
      simp [written]
    have := h.count
    rw [e, UInt32.toNat_sub_of_le _ _ (by rw [UInt32.le_iff_toNat_le, UInt32.toNat_one]; omega),
      UInt32.toNat_one]
    omega
  · rw [written, FTL.programPage_mappingTable, Function.update_apply]
    split
    · rename_i e
      simp [e, hn]
    · rename_i ne
      have : l.val ≠ n := fun e => ne (Fin.ext (e.trans hn.symm))
      show (retireOld f _).mappingTable l = none ↔ _
      rw [FTL.retireOld_mappingTable, h.mapped]
      omega
  · rw [written, GcInv.state_programmed, fresh]
    split
    · rfl
    · rename_i ne
      have : q.index ≠ n := fun e => ne (PageRef.index_inj.1 (e.trans hr.symm))
      exact h.valid q (by omega)
  · rw [written, GcInv.state_programmed, fresh, if_neg]
    · exact h.free q (by omega)
    · rintro rfl
      omega
  · rw [written, keep, block_programPage_state]
    split
    · rfl
    · rename_i ne
      by_cases hq : q = r'
      · subst hq
        rcases h.calm q.block with free | active
        · exact absurd ⟨rfl, free⟩ ne
        · exact active
      · have : q.index ≠ n := fun e => hq (PageRef.index_inj.1 (e.trans hr.symm))
        exact h.active q (by omega)
  · rw [written, keep, block_programPage_state]
    split
    · exact .inr rfl
    · exact h.calm b

/-- Writes to the LBAs `0 … n-1`. -/
def fillOps (n : Nat) : List StoreOp :=
  (List.range n).map fun i => .write (UInt32.ofNat i) patternPage

/-- One more write fills one more page. -/
theorem fillOps_succ (n : Nat) :
    fillOps (n + 1) = fillOps n ++ [.write (UInt32.ofNat n) patternPage] := by
  simp [fillOps, List.range_succ]

/-- The writes fill the pages in order, all with room. -/
theorem filled_run (mode : FTLMappingMode) (n : Nat) (le : n ≤ 8192) :
    Filled n (storeRun mode (fillOps n)) ∧
      Guarded storeStep StoreRoom (ftlInit mode) (fillOps n) := by
  induction n with
  | zero => exact ⟨filled_init mode, trivial⟩
  | succ n ih =>
    obtain ⟨filled, guard⟩ := ih (by omega)
    rw [fillOps_succ]
    constructor
    · rw [storeRun, run_snoc]
      exact filled.write (by omega) patternPage
    · refine guarded_append.2 ⟨guard, fun h mapped => ?_, trivial⟩
      have hn : (UInt32.ofNat n).toNat = n :=
        UInt32.toNat_ofNat_of_lt' (Nat.lt_of_lt_of_le le (by decide))
      exact absurd ((filled.mapped _).2 (Nat.le_of_eq hn.symm)) mapped

/-- The scan only ever remembers a block of the device. -/
theorem victim_scan_block (gc : GarbageCollector) (f : FTL) (is : List Nat) (s : VictimScan)
    (h : getBlock s.bestBlock ≠ none) :
    getBlock (is.foldl (victimStep gc f) s).bestBlock ≠ none := by
  induction is generalizing s with
  | nil => exact h
  | cons i is ih =>
    refine ih _ ?_
    unfold victimStep
    split
    · exact h
    · rename_i b hb
      have hi : getBlock i ≠ none := by rw [hb]; simp
      dsimp only
      split
      · exact h
      · split
        · split
          · exact hi
          · split
            · split <;> assumption
            · exact h
          · exact hi
        · exact h

/-- The greedy scan misses no block with an INVALID page. -/
theorem victim_scan_greedy {gc : GarbageCollector} (greedy : gc.policy = .greedy) (f : FTL)
    (is : List Nat) (s : VictimScan) (fewest : s.found = false → s.fewestValid = 129)
    (miss : (is.foldl (victimStep gc f) s).found = false) :
    s.found = false ∧ ∀ i ∈ is, ∀ b, getBlock i = some b →
      (f.block b).state = .bad ∨ (f.block b).state = .free ∨
        countInvalidPages (f.block b) = 0 := by
  induction is generalizing s with
  | nil => exact ⟨miss, by simp⟩
  | cons i is ih =>
    have small : ∀ b, countValidPages (f.block b) < 129 := fun b =>
      Nat.lt_succ_of_le ((List.countP_le_length).trans_eq (List.length_finRange))
    have step : (victimStep gc f s i).found = false →
        victimStep gc f s i = s ∧ ∀ b, getBlock i = some b →
          (f.block b).state = .bad ∨ (f.block b).state = .free ∨
            countInvalidPages (f.block b) = 0 := by
      unfold victimStep
      split
      · rename_i hb
        exact fun _ => ⟨rfl, fun b h => by rw [hb] at h; cases h⟩
      · rename_i b hb
        dsimp only
        split
        · rename_i skip
          refine fun _ => ⟨rfl, fun b' h => ?_⟩
          cases hb.symm.trans h
          exact skip.elim .inl fun h => .inr (.inl h)
        · split
          · rw [greedy]
            simp
          · rename_i none
            intro hf
            refine ⟨rfl, fun b' h => .inr (.inr ?_)⟩
            cases hb.symm.trans h
            have := small b
            rw [fewest hf] at none
            omega
    have fewest' (h : (victimStep gc f s i).found = false) :
        (victimStep gc f s i).fewestValid = 129 := by
      have same := (step h).1
      rw [same] at h ⊢
      exact fewest h
    obtain ⟨h, rest⟩ := ih _ fewest' miss
    obtain ⟨same, here⟩ := step h
    refine ⟨same ▸ h, fun j hj => ?_⟩
    rcases List.mem_cons.1 hj with rfl | hj
    · exact here
    · exact rest j hj

/-- A block is found by its index. -/
theorem getBlock_index (b : BlockRef) : getBlock b.index = some b := by
  have hb : b.blk.val < 16 := b.blk.isLt
  have hp : b.plane.val < 4 := b.plane.isLt
  have e1 : b.index / ftlBlocksPerPlane = b.plane.val := by
    show b.index / 16 = _; rw [b.index_eq]; omega
  have e2 : b.index % ftlBlocksPerPlane = b.blk.val := by
    show b.index % 16 = _; rw [b.index_eq]; omega
  simp [getBlock, e1, e2]

/-- The LBAs `0 … n` are written and LBA `n` is trimmed again. -/
def trimOps (n : Nat) : List StoreOp := fillOps (n + 1) ++ [.trim (UInt32.ofNat n)]

/-- One page is INVALID, the other pages written are VALID. -/
structure Trimmed (n : Nat) (f : FTL) : Prop where
  inv : GcInv f
  pointer : f.writePointer.val = n + 1
  count : f.freePages.toNat = 65535 - n
  valid : ∃ r₀ : PageRef, r₀.index ≤ n ∧ (f.page r₀).state = .invalid ∧
    ∀ r : PageRef, r ≠ r₀ → r.index ≤ n → (f.page r).state = .valid
  free : ∀ r : PageRef, n < r.index → (f.page r).state = .free
  active : ∀ r : PageRef, r.index ≤ n → (f.block r.block).state = .active

/-- Trimming the last LBA leaves one INVALID page. -/
theorem Filled.trim {n : Nat} {f : FTL} (h : Filled (n + 1) f) (lt : n < 8192) :
    Trimmed n (ftlTrim f (UInt32.ofNat n)).2 := by
  have hn : (UInt32.ofNat n).toNat = n := UInt32.toNat_ofNat_of_lt' (Nat.lt_trans lt (by decide))
  have hl : (UInt32.ofNat n).toNat < ftlMaxLbas := hn.symm ▸ Nat.lt_trans lt (by decide)
  have inv := h.inv.trim (UInt32.ofNat n)
  have mapped : f.mappingTable ⟨(UInt32.ofNat n).toNat, hl⟩ ≠ none := fun none => by
    have : n + 1 ≤ (UInt32.ofNat n).toNat := (h.mapped _).1 none
    omega
  obtain ⟨p, hp⟩ := Option.ne_none_iff_exists'.1 mapped
  obtain ⟨r₀, rfl, valid, -⟩ := h.inv.mapped _ p hp
  have low : r₀.index ≤ n := by
    by_contra high
    rw [h.free r₀ (by omega)] at valid
    cases valid
  unfold ftlTrim at inv ⊢
  rw [dif_pos hl] at inv ⊢
  simp only [hp] at inv ⊢
  have page (r : PageRef) := FTL.page_retirePage f r₀.phys r
  simp only [PageRef.phys_inj] at page
  have block (b : BlockRef) : ((retirePage f r₀.phys).block b).state = (f.block b).state := by
    have hr : getPhysicalPage r₀.phys = some r₀ := get_physical_page_index r₀
    simp only [retirePage, hr]
    exact FTL.block_setPage_state f r₀ _ b
  refine ⟨inv, ?_, ?_, ⟨r₀, low, ?_, fun r ne le => ?_⟩, fun r lt => ?_, fun r le => ?_⟩
  · simpa using h.pointer
  · have := h.count
    simp only [FTL.retirePage_freePages]
    omega
  · exact (congrArg FlashPage.state (page r₀)).trans (by simp)
  · exact (congrArg FlashPage.state (page r)).trans (by rw [if_neg ne, h.valid r (by omega)])
  · have ne : r ≠ r₀ := by rintro rfl; omega
    exact (congrArg FlashPage.state (page r)).trans (by rw [if_neg ne, h.free r (by omega)])
  · exact (block r.block).trans (h.active r (by omega))

/-- The writes and the trim, all with room. -/
theorem trimmed_run (mode : FTLMappingMode) (n : Nat) (lt : n < 8192) :
    Trimmed n (storeRun mode (trimOps n)) ∧
      Guarded storeStep StoreRoom (ftlInit mode) (trimOps n) := by
  obtain ⟨filled, guard⟩ := filled_run mode (n + 1) lt
  constructor
  · rw [storeRun, trimOps, run_snoc]
    exact filled.trim lt
  · exact guarded_append.2 ⟨guard, trivial, trivial⟩

/-- A greedy collector that always wants every block free. -/
def eagerGc : GarbageCollector := gcInit .greedy 7 100

/-- It finds a victim, because one block has an INVALID page. -/
theorem Trimmed.victim {n : Nat} {f : FTL} (h : Trimmed n f) : gcVictim eagerGc f ≠ none := by
  obtain ⟨r₀, low, stale, -⟩ := h.valid
  have mem : r₀.block.index ∈ List.range totalBlocks := List.mem_range.2 r₀.block.index_lt
  have few : ¬ (freeNeeded eagerGc).toNat ≤ countFreeBlocks f := by
    have : countFreeBlocks f < (List.range totalBlocks).length := by
      refine List.countP_lt_length_iff.2 ⟨_, mem, ?_⟩
      simp [getBlock_index, h.active r₀ low]
    rw [show (freeNeeded eagerGc).toNat = 64 by decide]
    simpa using this
  have found : ((List.range totalBlocks).foldl (victimStep eagerGc f)
      ⟨0, ftlPagesPerBlock + 1, false⟩).found = true := by
    by_contra miss
    rcases (victim_scan_greedy rfl f _ _ (fun _ => rfl) (Bool.eq_false_iff.2 miss)).2 _ mem _
      (getBlock_index _) with bad | free | clean
    · rw [h.active r₀ low] at bad; cases bad
    · rw [h.active r₀ low] at free; cases free
    · exact List.countP_eq_zero.1 clean r₀.pg (List.mem_finRange _) (decide_eq_true stale)
  unfold gcVictim gcSelectVictim
  simp only [few, found, if_false, if_true, Option.bind_some]
  exact victim_scan_block eagerGc f _ _ (by simp [getBlock])

/-- A device whose 8192 pages are written has no page to copy to, but every victim has
VALID pages. -/
theorem Trimmed.no_room {f : FTL} (h : Trimmed 8191 f) (victim : BlockRef) :
    ¬ MigrationRoom f victim := by
  obtain ⟨r₀, -, -, valid⟩ := h.valid
  obtain ⟨i, ne⟩ : ∃ i, (⟨victim, i⟩ : PageRef) ≠ r₀ := by
    by_cases zero : (⟨victim, 0⟩ : PageRef) = r₀
    · refine ⟨1, fun one => ?_⟩
      cases zero.trans one.symm
    · exact ⟨0, zero⟩
  have some : 0 < countValidPages (f.block victim) := by
    refine List.countP_pos_iff.2 ⟨i, List.mem_finRange _, ?_⟩
    have := (⟨victim, i⟩ : PageRef).index_lt
    exact decide_eq_true (valid _ ne (by omega))
  have noRoom : room f victim = 0 := by
    rw [room, Finset.card_eq_zero, Finset.filter_eq_empty_iff]
    intro r hr
    have := (mem_freeAhead.1 hr).1
    have := r.index_lt
    have := h.pointer
    omega
  rintro ⟨fits, -⟩
  omega

/-- On a full device with one LBA trimmed, `gc_trigger` returns 1 and loses data. -/
theorem gc_trigger_full_device_loses :
    (gcTrigger eagerGc (storeRun .pageLevel (trimOps 8191))).1 = 1 ∧
    ¬ ∀ lba, (ftlRead (gcTrigger eagerGc (storeRun .pageLevel (trimOps 8191))).2.2 lba).1 =
      (ftlRead (storeRun .pageLevel (trimOps 8191)) lba).1 := by
  have full := (trimmed_run .pageLevel 8191 (by decide)).1
  generalize storeRun .pageLevel (trimOps 8191) = f at full ⊢
  obtain ⟨none, -⟩ | ⟨victim, m, hv, ret, -⟩ := gc_trigger_outcome eagerGc f
  · exact absurd none full.victim
  · refine ⟨ret, fun same => full.no_room victim ?_⟩
    exact (full.inv.trigger hv).1.1 (reads_same_iff.1 same)

/-- A nearly empty device has room: a whole block ahead is FREE. -/
theorem Trimmed.has_room {f : FTL} (h : Trimmed 1 f) (victim : BlockRef) :
    MigrationRoom f victim := by
  have hcount := h.count
  have few : countValidPages (f.block victim) ≤ 128 :=
    (List.countP_le_length).trans_eq List.length_finRange
  have all : roomInside f victim ≤ 8192 :=
    (Finset.card_le_univ _).trans_eq
      ((Fintype.ofEquiv_card _).trans
        ((Fintype.card_prod _ _).trans (by
          rw [Fintype.ofEquiv_card, Fintype.card_prod]; simp; rfl)))
  obtain ⟨b, hb, ne⟩ : ∃ b : BlockRef, 1 ≤ b.index ∧ b ≠ victim := by
    by_cases one : (⟨0, 1⟩ : BlockRef) = victim
    · exact ⟨⟨0, 2⟩, by decide, by rw [← one]; decide⟩
    · exact ⟨⟨0, 1⟩, by decide, one⟩
  have enough : 128 ≤ room f victim := by
    have card : (Finset.univ.image fun i : Fin ftlPagesPerBlock => (⟨b, i⟩ : PageRef)).card = 128 := by
      rw [Finset.card_image_of_injective _ fun i j e => by cases e; rfl]
      simp
    rw [← card]
    refine Finset.card_le_card fun r hr => ?_
    obtain ⟨i, -, rfl⟩ := Finset.mem_image.1 hr
    have hi := (⟨b, i⟩ : PageRef).index_eq
    refine Finset.mem_filter.2 ⟨mem_freeAhead.2 ⟨?_, h.free _ ?_⟩, ne⟩
    · rw [h.pointer]; dsimp only at hi; omega
    · dsimp only at hi; omega
  refine ⟨few.trans enough, ?_⟩
  unfold copies
  split <;> omega

/-- After two writes and a trim, an eager collection changes no LBA. -/
theorem gc_trigger_keeps_reads_two_lbas :
    (gcTrigger eagerGc (storeRun .pageLevel (trimOps 1))).1 = 1 ∧
    ∀ lba, (ftlRead (gcTrigger eagerGc (storeRun .pageLevel (trimOps 1))).2.2 lba).1 =
      (ftlRead (storeRun .pageLevel (trimOps 1)) lba).1 := by
  obtain ⟨small, guard⟩ := trimmed_run .pageLevel 1 (by decide)
  have ret : (gcTrigger eagerGc (storeRun .pageLevel (trimOps 1))).1 = 1 := by
    obtain ⟨none, -⟩ | ⟨victim, m, hv, ret, -⟩ :=
      gc_trigger_outcome eagerGc (storeRun .pageLevel (trimOps 1))
    · exact absurd none small.victim
    · exact ret
  refine ⟨ret, (gc_trigger_keeps_reads .pageLevel (trimOps 1) guard eagerGc ret).2 ?_⟩
  exact fun victim _ => small.has_room victim

end MiniHardware.Storage
