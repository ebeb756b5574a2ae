import Mathlib.Data.Fintype.Prod
import Mathlib.Data.Fintype.Card
import MiniHardware.Storage.FtlMap
import MiniHardware.Storage.Gc

/-!
# Room for a garbage collection

`gc_migrate` copies through `ftl_write`, which takes the first FREE page at or
after the write pointer. In a state in which every mapped page is VALID and
owned (`GcInv`) one copy uses exactly one page of the room it was counted for
(`GcInv.fits_written`); `MigrationRoom` is that count for a whole victim.
-/

namespace MiniHardware.Storage
open Lib

instance : Fintype BlockRef :=
  Fintype.ofEquiv (Fin ftlPlanes × Fin ftlBlocksPerPlane)
    ⟨fun p => ⟨p.1, p.2⟩, fun b => (b.plane, b.blk), fun _ => rfl, fun _ => rfl⟩

instance : Fintype PageRef :=
  Fintype.ofEquiv (BlockRef × Fin ftlPagesPerBlock)
    ⟨fun p => ⟨p.1, p.2⟩, fun r => (r.block, r.pg), fun _ => rfl, fun _ => rfl⟩

namespace FTL

/-- Retiring marks the page of the LBA and no other. -/
theorem page_retireOld (f : FTL) (l : Lba) (r : PageRef) :
    (retireOld f l).page r =
      if f.mappingTable l = some r.phys then { f.page r with state := .invalid } else f.page r := by
  unfold retireOld
  split
  · rename_i p hp
    rw [page_retirePage, hp]
    simp only [Option.some.injEq, eq_comm]
  · rename_i hp
    simp [hp]

/-- The reverse entry of the retired page goes. -/
theorem retireOld_reverseMap (f : FTL) (l : Lba) (p : PhysPage) :
    (retireOld f l).reverseMap p =
      if f.mappingTable l = some p then none else f.reverseMap p := by
  unfold retireOld
  split
  · rename_i q hq
    rw [retirePage_reverseMap, hq, Function.update_apply]
    simp only [Option.some.injEq, eq_comm]
  · rename_i hq
    simp [hq]

/-- The second setting of a page counts. -/
theorem setPage_setPage (f : FTL) (r : PageRef) (a b : FlashPage) :
    (f.setPage r a).setPage r b = f.setPage r b := by
  simp only [setPage, setBlock, block, Function.update_self, Function.update_idem]

end FTL

/-- Marking the page stale before `ftl_write` retires it again makes no difference. -/
theorem write_mark_stale (f : FTL) (l : Lba) (lba : UInt32) (h : lba.toNat = l.val) (d : PageData) :
    ftlWrite (markStale f l) lba d = ftlWrite f lba d := by
  have hl : lba.toNat < ftlMaxLbas := h ▸ l.isLt
  have el : (⟨lba.toNat, hl⟩ : Lba) = l := Fin.ext h
  have retire : retireOld (markStale f l) l = retireOld f l := by
    unfold markStale
    cases hm : f.mappingTable l with
    | none => rfl
    | some p =>
      dsimp only
      cases hb : getBlock (blockIndexFromPage p) with
      | none => rfl
      | some b =>
        have hr : getPhysicalPage p =
            some ⟨b, ⟨p.val % ftlPagesPerBlock, Nat.mod_lt _ (by decide)⟩⟩ := by
          unfold getBlock at hb
          split at hb <;> cases hb
          rename_i hb
          unfold getPhysicalPage
          rw [dif_pos ⟨hb.1, hb.2, Nat.mod_lt _ (by decide)⟩]
          rfl
        simp only [retireOld, FTL.setPage_mappingTable, hm, retirePage, hr]
        rw [FTL.setPage_setPage]
        simp [FTL.page_setPage]
  unfold ftlWrite
  rw [dif_pos hl, dif_pos hl, el, retire]

/-- Every mapped page is VALID and owned by its LBA, every VALID page knows its own
number and is mapped, the FREE pages of a block are its last ones, and none is
left behind the write pointer in the pointer's block. -/
structure GcInv (f : FTL) : Prop where
  mapped : ∀ l p, f.mappingTable l = some p →
    ∃ r : PageRef, r.phys = p ∧ (f.page r).state = .valid ∧ f.reverseMap p = some l
  owned : ∀ r, (f.page r).state = .valid →
    (f.page r).id = r.phys ∧ ∃ l, f.mappingTable l = some r.phys
  suffix : ∀ r r' : PageRef, r.block = r'.block → r.pg ≤ r'.pg →
    (f.page r).state = .free → (f.page r').state = .free
  behind : ∀ r : PageRef, r.index < f.writePointer.val →
    r.block.index = f.writePointer.val / 128 → (f.page r).state ≠ .free

/-- The invariant holds after `ftl_init`. -/
theorem gc_inv_init (mode : FTLMappingMode) : GcInv (ftlInit mode) := by
  constructor
  · intro l p h; cases h
  · intro r h; cases h
  · intro _ _ _ _ _; rfl
  · intro r h; exact absurd h (Nat.not_lt_zero _)

namespace GcInv

variable {f : FTL}

/-- The page of an LBA is VALID and entered under it. -/
theorem state_of_mapped (inv : GcInv f) {l : Lba} {r : PageRef}
    (h : f.mappingTable l = some r.phys) :
    (f.page r).state = .valid ∧ f.reverseMap r.phys = some l := by
  obtain ⟨r', e, valid, back⟩ := inv.mapped l _ h
  cases PageRef.phys_inj.1 e
  exact ⟨valid, back⟩

/-- No two LBAs share a page. -/
theorem mapped_inj (inv : GcInv f) {l k : Lba} {p : PhysPage} (hl : f.mappingTable l = some p)
    (hk : f.mappingTable k = some p) : l = k := by
  obtain ⟨r, rfl, -, back⟩ := inv.mapped l p hl
  exact Option.some.inj (back.symm.trans (inv.state_of_mapped hk).2)

/-- The invariant of the translation layer follows. -/
theorem ftlInv (inv : GcInv f) : FtlInv f where
  separate _ _ _ hl hk := inv.mapped_inj hl hk
  used l r h := by rw [(inv.state_of_mapped h).1]; decide

/-- In the block of the first FREE page at or after the pointer, the pages before it
are in use. -/
theorem used_before (inv : GcInv f) {r r' : PageRef} (from_ : f.writePointer.val ≤ r.index)
    (first : ∀ r' : PageRef, f.writePointer.val ≤ r'.index → r'.index < r.index →
      (f.page r').state ≠ .free)
    (block : r'.block = r.block) (lt : r'.index < r.index) : (f.page r').state ≠ .free := by
  rcases Nat.lt_or_ge r'.index f.writePointer.val with behind | ahead
  · refine inv.behind r' behind ?_
    have h1 := r.index_eq; have h2 := r'.index_eq
    have h3 : r.pg.val < 128 := r.pg.isLt
    rw [block] at h2 ⊢
    omega
  · exact first r' ahead lt

/-- Retiring makes no page FREE and takes none. -/
theorem free_retireOld (inv : GcInv f) (l : Lba) (r : PageRef) :
    ((Storage.retireOld f l).page r).state = .free ↔ (f.page r).state = .free :=
  inv.ftlInv.free_retireOld l r

/-- The state of a page after a write that returned 0. -/
theorem state_programmed (f : FTL) (r r' : PageRef) (l : Lba) (d : PageData) :
    ((programPage { Storage.retireOld f l with writePointer := r.phys } r l d).page r').state =
      if r' = r then .valid else if f.mappingTable l = some r'.phys then .invalid
        else (f.page r').state := by
  rw [FTL.page_programPage]
  split
  · rfl
  · show ((Storage.retireOld f l).page r').state = _
    rw [FTL.page_retireOld]
    split <;> rfl

/-- Programming the first FREE page from the pointer on keeps the invariant. -/
theorem programmed (inv : GcInv f) {r : PageRef} (l : Lba) (d : PageData)
    (free : (f.page r).state = .free) (from_ : f.writePointer.val ≤ r.index)
    (first : ∀ r' : PageRef, f.writePointer.val ≤ r'.index → r'.index < r.index →
      (f.page r').state ≠ .free) :
    GcInv (programPage { Storage.retireOld f l with writePointer := r.phys } r l d) := by
  have freeIff : ∀ r' : PageRef,
      ((programPage { Storage.retireOld f l with writePointer := r.phys } r l d).page r').state
        = .free → r' ≠ r ∧ (f.page r').state = .free := by
    intro r' h
    rw [state_programmed] at h
    split at h
    · cases h
    · split at h
      · cases h
      · exact ⟨‹_›, h⟩
  constructor
  · intro k p h
    rw [FTL.programPage_mappingTable, Function.update_apply] at h
    rw [FTL.programPage_reverseMap, Function.update_apply]
    split at h
    · rename_i e
      cases h
      exact ⟨r, rfl, by rw [state_programmed]; simp, by simp [e]⟩
    · rename_i ne
      rw [FTL.retireOld_mappingTable] at h
      obtain ⟨r', rfl, valid, back⟩ := inv.mapped k p h
      have hr : r' ≠ r := by rintro rfl; rw [free] at valid; cases valid
      have hl : f.mappingTable l ≠ some r'.phys := fun hl => ne (inv.mapped_inj h hl)
      refine ⟨r', rfl, ?_, ?_⟩
      · rw [state_programmed, if_neg hr, if_neg hl, valid]
      · rw [if_neg (fun e => hr (PageRef.phys_inj.1 e))]
        show (Storage.retireOld f l).reverseMap _ = _
        rw [FTL.retireOld_reverseMap, if_neg hl, back]
  · intro r' h
    rw [FTL.programPage_mappingTable, FTL.page_programPage]
    by_cases hr : r' = r
    · subst hr
      exact ⟨by simp, l, by simp⟩
    · rw [state_programmed, if_neg hr] at h
      split at h
      · cases h
      · rename_i hl
        obtain ⟨id, k, hk⟩ := inv.owned r' h
        rw [if_neg hr]
        refine ⟨?_, k, ?_⟩
        · show ((Storage.retireOld f l).page r').id = _
          rw [FTL.page_retireOld, if_neg hl, id]
        · have ne : k ≠ l := by rintro rfl; exact hl hk
          rw [Function.update_of_ne ne, FTL.retireOld_mappingTable, hk]
  · intro a b block le h
    obtain ⟨ha, hf⟩ := freeIff a h
    have hb := inv.suffix a b block le hf
    have hbr : b ≠ r := by
      rintro rfl
      refine inv.used_before from_ first block ?_ hf
      rw [a.index_eq, b.index_eq, block]
      have : a.pg ≠ b.pg := fun e => ha (PageRef.ext block e)
      have : a.pg.val ≠ b.pg.val := fun e => this (Fin.ext e)
      have : a.pg.val ≤ b.pg.val := le
      omega
    rw [state_programmed, if_neg hbr, if_neg, hb]
    intro hl
    rw [(inv.state_of_mapped hl).1] at hb
    cases hb
  · intro r' lt block h
    obtain ⟨ne, hf⟩ := freeIff r' h
    have wp : (r.phys + 1).val = r.index + 1 := succ_val rfl
    rw [FTL.programPage_writePointer] at lt block
    change r'.index < (r.phys + 1).val at lt
    change r'.block.index = (r.phys + 1).val / 128 at block
    rw [wp] at lt block
    have h1 := r.index_eq; have h2 := r'.index_eq
    have h3 : r.pg.val < 128 := r.pg.isLt
    have h4 : r'.pg.val < 128 := r'.pg.isLt
    have hb : r'.block = r.block := BlockRef.index_inj.1 (by omega)
    have hi : r'.index ≠ r.index := fun e => ne (PageRef.index_inj.1 e)
    exact inv.used_before from_ first hb (by omega) hf

end GcInv

/-! ## Where a write lands -/

/-- The FREE pages at or after the write pointer. -/
@[irreducible] def freeAhead (f : FTL) : Finset PageRef :=
  Finset.univ.filter fun r => f.writePointer.val ≤ r.index ∧ (f.page r).state = .free

theorem mem_freeAhead {f : FTL} {r : PageRef} :
    r ∈ freeAhead f ↔ f.writePointer.val ≤ r.index ∧ (f.page r).state = .free := by
  unfold freeAhead
  exact Finset.mem_filter_univ r

/-- `r` is the first FREE page at or after the write pointer. -/
structure Lands (f : FTL) (r : PageRef) : Prop where
  ahead : f.writePointer.val ≤ r.index
  free : (f.page r).state = .free
  first : ∀ r' : PageRef, f.writePointer.val ≤ r'.index → r'.index < r.index →
    (f.page r').state ≠ .free

/-- The state after a write to `l` landed on `r`. -/
def written (f : FTL) (r : PageRef) (l : Lba) (d : PageData) : FTL :=
  programPage { retireOld f l with writePointer := r.phys } r l d

/-- A write finds a page exactly if the counter is not zero and a FREE page lies ahead. -/
def WriteFits (f : FTL) : Prop := f.freePages ≠ 0 ∧ (freeAhead f).Nonempty

/-- A write that fits lands on the first FREE page ahead. -/
theorem FtlInv.write_lands {f : FTL} (inv : FtlInv f) (fits : WriteFits f) (lba : UInt32)
    (h : lba.toNat < ftlMaxLbas) (d : PageData) :
    ∃ r, Lands f r ∧ ftlWrite f lba d = (0, written f r ⟨lba.toNat, h⟩ d) := by
  have out := ftl_write_outcome f lba d
  generalize ftlWrite f lba d = w at out ⊢
  cases out with
  | outOfRange h' => exact absurd h (Nat.not_lt.2 h')
  | noCount _ zero => exact absurd zero fits.1
  | noPage _ wp _ full =>
    obtain ⟨r, hr⟩ := fits.2
    obtain ⟨ahead, free⟩ := mem_freeAhead.1 hr
    exact absurd ((inv.free_retireOld _ r).2 free) (full r ahead)
  | programmed _ r _ from_ free first =>
    exact ⟨r, ⟨from_, (inv.free_retireOld _ r).1 free, fun r' lo hi hf =>
      first r' lo hi ((inv.free_retireOld _ r').2 hf)⟩, rfl⟩

/-- A write that fits lands, for an LBA of the table. -/
theorem FtlInv.write_lba {f : FTL} (inv : FtlInv f) (fits : WriteFits f) (l : Lba) (d : PageData) :
    ∃ r, Lands f r ∧ ftlWrite f (UInt32.ofNat l.val) d = (0, written f r l d) := by
  have hl : (UInt32.ofNat l.val).toNat < ftlMaxLbas := (lba_toNat l).symm ▸ l.isLt
  have el : (⟨_, hl⟩ : Lba) = l := Fin.ext (lba_toNat l)
  have lands := inv.write_lands fits _ hl d
  rwa [el] at lands

/-- A landed write keeps the invariant of the translation layer. -/
theorem FtlInv.written {f : FTL} (inv : FtlInv f) {r : PageRef} (lands : Lands f r) (l : Lba)
    (d : PageData) : FtlInv (written f r l d) :=
  (inv.retireOld l).program ((inv.free_retireOld l r).2 lands.free) l d

/-- The LBA written is mapped to the page it landed on. -/
theorem written_mappingTable (f : FTL) (r : PageRef) (l : Lba) (d : PageData) :
    (written f r l d).mappingTable = Function.update f.mappingTable l (some r.phys) := by
  rw [written, FTL.programPage_mappingTable]
  exact congrArg (Function.update · l _) (FTL.retireOld_mappingTable f l)

/-- A landed write keeps the invariant. -/
theorem GcInv.written {f : FTL} (inv : GcInv f) {r : PageRef} (lands : Lands f r) (l : Lba)
    (d : PageData) : GcInv (written f r l d) :=
  inv.programmed l d lands.free lands.ahead lands.first

/-- No write can succeed any more: the counter is zero or the pointer has left the planes. -/
def Stuck (f : FTL) : Prop := f.freePages = 0 ∨ 8192 ≤ f.writePointer.val

/-- A write that does not fit fails and leaves the device stuck. -/
theorem GcInv.write_fails {f : FTL} (inv : GcInv f) (full : ¬ WriteFits f) (lba : UInt32)
    (h : lba.toNat < ftlMaxLbas) (d : PageData) :
    (ftlWrite f lba d).1 ≠ 0 ∧ Stuck (ftlWrite f lba d).2 ∧
      (ftlWrite f lba d).2.mappingTable = f.mappingTable := by
  have out := ftl_write_outcome f lba d
  generalize ftlWrite f lba d = w at out ⊢
  cases out with
  | outOfRange h' => exact absurd h (Nat.not_lt.2 h')
  | noCount _ zero => exact ⟨by simp, .inl (by simpa using zero), by simp⟩
  | noPage _ wp end_ _ => exact ⟨by simp, .inr end_, by simp⟩
  | programmed _ r count from_ free _ =>
    exact absurd ⟨count, r, mem_freeAhead.2 ⟨from_, (inv.free_retireOld _ r).1 free⟩⟩ full

/-- A write to an LBA without a page that does not fit only moves the pointer. -/
theorem write_unmapped {f : FTL} (full : ¬ WriteFits f) {lba : UInt32} {h : lba.toNat < ftlMaxLbas}
    (fresh : f.mappingTable ⟨lba.toNat, h⟩ = none) (d : PageData) :
    (ftlWrite f lba d).1 ≠ 0 ∧ ∃ wp : PhysPage, (8192 ≤ wp.val ∨ wp = f.writePointer) ∧
      (ftlWrite f lba d).2 = { f with writePointer := wp } := by
  have keep : retireOld f ⟨lba.toNat, h⟩ = f := by rw [retireOld, fresh]
  have out := ftl_write_outcome f lba d
  generalize ftlWrite f lba d = w at out ⊢
  cases out with
  | outOfRange h' => exact absurd h (Nat.not_lt.2 h')
  | noCount _ zero => exact ⟨by simp, f.writePointer, .inr rfl, keep⟩
  | noPage _ wp end_ _ => exact ⟨by simp, wp, .inl end_, by rw [keep]⟩
  | programmed _ r count from_ free _ =>
    rw [keep] at free
    exact absurd ⟨count, r, mem_freeAhead.2 ⟨from_, free⟩⟩ full

/-- A stuck device stays stuck and keeps its forward map. -/
theorem write_of_stuck {f : FTL} (stuck : Stuck f) (lba : UInt32) (d : PageData) :
    (ftlWrite f lba d).1 ≠ 0 ∧ Stuck (ftlWrite f lba d).2 ∧
      (ftlWrite f lba d).2.mappingTable = f.mappingTable := by
  have out := ftl_write_outcome f lba d
  generalize ftlWrite f lba d = w at out ⊢
  cases out with
  | outOfRange h' => exact ⟨by simp, stuck, rfl⟩
  | noCount _ zero => exact ⟨by simp, .inl (by simpa using zero), by simp⟩
  | noPage _ wp end_ _ => exact ⟨by simp, .inr end_, by simp⟩
  | programmed _ r count from_ _ _ =>
    rcases stuck with zero | gone
    · exact absurd zero count
    · have := r.index_lt; omega

/-! ## Room for a migration -/

/-- FREE pages ahead that lie outside the victim. -/
def room (f : FTL) (victim : BlockRef) : Nat :=
  ((freeAhead f).filter (·.block ≠ victim)).card

/-- FREE pages ahead that come before the victim. -/
def roomBefore (f : FTL) (victim : BlockRef) : Nat :=
  ((freeAhead f).filter (·.block.index < victim.index)).card

/-- FREE pages ahead inside the victim. -/
def roomInside (f : FTL) (victim : BlockRef) : Nat :=
  ((freeAhead f).filter (·.block = victim)).card

/-- How often `ftl_write` is called to move `n` pages out: once a copy has landed in the
victim it is moved on again, through all the FREE pages of the victim. -/
def copies (f : FTL) (victim : BlockRef) (n : Nat) : Nat :=
  n + if n ≤ roomBefore f victim then 0 else roomInside f victim

/-- `n` pages can be moved out of the victim. -/
def Fits (f : FTL) (victim : BlockRef) (n : Nat) : Prop :=
  n ≤ room f victim ∧ copies f victim n ≤ f.freePages.toNat

/-- The VALID pages of the victim can be moved out of it. -/
def MigrationRoom (f : FTL) (victim : BlockRef) : Prop :=
  Fits f victim (countValidPages (f.block victim))

/-- The pages of the victim still to be moved when the loop is at `i`. -/
@[irreducible] def validFrom (f : FTL) (victim : BlockRef) (i : Nat) : Finset (Fin ftlPagesPerBlock) :=
  Finset.univ.filter fun j => i ≤ j.val ∧ (f.page ⟨victim, j⟩).state = .valid

theorem mem_validFrom {f : FTL} {victim : BlockRef} {i : Nat} {j : Fin ftlPagesPerBlock} :
    j ∈ validFrom f victim i ↔ i ≤ j.val ∧ (f.page ⟨victim, j⟩).state = .valid := by
  simp [validFrom]

/-- At first all VALID pages are still to be moved. -/
theorem card_validFrom_zero (f : FTL) (victim : BlockRef) :
    (validFrom f victim 0).card = countValidPages (f.block victim) := by
  rw [validFrom, countValidPages, countPages, List.countP_eq_length_filter, Finset.card,
    Finset.filter, Fin.univ_def]
  simp [Multiset.filter_coe, FTL.page]

/-- The landing page is used up and nothing else is. -/
theorem FtlInv.freeAhead_written {f : FTL} (inv : FtlInv f) {r : PageRef} (lands : Lands f r)
    (l : Lba) (d : PageData) : freeAhead (Storage.written f r l d) = (freeAhead f).erase r := by
  ext r'
  have wp : (Storage.written f r l d).writePointer.val = r.index + 1 := succ_val (r := r) rfl
  rw [Finset.mem_erase, mem_freeAhead, mem_freeAhead, wp, Storage.written, GcInv.state_programmed]
  constructor
  · rintro ⟨lt, h⟩
    split at h
    · cases h
    · split at h
      · cases h
      · exact ⟨‹_›, by have := lands.ahead; omega, h⟩
  · rintro ⟨ne, lo, h⟩
    have hi : r'.index ≠ r.index := fun e => ne (PageRef.index_inj.1 e)
    have ge : ¬ r'.index < r.index := fun lt => lands.first r' lo lt h
    refine ⟨by omega, ?_⟩
    rw [if_neg ne, if_neg, h]
    exact fun hm => inv.used l r' hm h

/-- A landed write takes one from the counter, which was not zero. -/
theorem freePages_written {f : FTL} (count : f.freePages ≠ 0) (r : PageRef) (l : Lba) (d : PageData) :
    (written f r l d).freePages.toNat + 1 = f.freePages.toNat := by
  have minus : (written f r l d).freePages = f.freePages - 1 := by simp [written]
  have pos : f.freePages.toNat ≠ 0 := fun h => count (UInt32.toNat_inj.1 h)
  rw [minus, UInt32.toNat_sub_of_le _ _ (by rw [UInt32.le_iff_toNat_le]; simp; omega)]
  simp; omega

/-- A write is read back and changes no other LBA. -/
theorem FtlInv.read_write {f : FTL} (inv : FtlInv f) {r : PageRef} (lands : Lands f r) (l : Lba)
    (d : PageData) (k : Lba) :
    (Storage.written f r l d).remap.read zeroPage k = if k = l then some d else f.remap.read zeroPage k := by
  rw [Storage.written, FTL.remap_programPage]
  split
  case isTrue own => rw [own, Remap.read_write_same]
  case isFalse other =>
    have inv' := inv.retireOld l
    rw [Remap.read_write_other (inv'.unused ((inv.free_retireOld l r).2 lands.free) k) other,
      inv.read_retireOld other]

/-- Copying a page keeps what every LBA reads. -/
theorem FtlInv.read_written {f : FTL} (inv : FtlInv f) {r r' : PageRef} (lands : Lands f r) {l : Lba}
    (own : f.mappingTable l = some r'.phys) (valid : (f.page r').state = .valid) (k : Lba) :
    (Storage.written f r l (f.page r').data).remap.read zeroPage k = f.remap.read zeroPage k := by
  rw [inv.read_write lands]
  split
  case isTrue same =>
    rw [same, Remap.read_of_fwd (show f.remap.fwd l = some r'.phys from own), FTL.remap_cell, valid, if_pos rfl]
  case isFalse => rfl

/-- What is left to move after page `i` was copied: the copy itself if it landed in the
victim. -/
theorem GcInv.validFrom_written {f : FTL} (inv : GcInv f) {r : PageRef} (lands : Lands f r)
    {victim : BlockRef} {i : Fin ftlPagesPerBlock} {l : Lba} (d : PageData)
    (own : f.mappingTable l = some (PageRef.phys ⟨victim, i⟩)) :
    (validFrom (Storage.written f r l d) victim (i + 1)).card =
      (validFrom f victim (i + 1)).card + if r.block = victim then 1 else 0 := by
  have others : ∀ j : Fin ftlPagesPerBlock, i.val < j.val → (⟨victim, j⟩ : PageRef) ≠ r →
      ((Storage.written f r l d).page ⟨victim, j⟩).state = (f.page ⟨victim, j⟩).state := by
    intro j lt ne
    rw [Storage.written, state_programmed, if_neg ne, if_neg]
    rw [own, Option.some.injEq, PageRef.phys_inj, PageRef.mk.injEq]
    rintro ⟨-, e⟩
    exact absurd lt (by rw [e]; exact Nat.lt_irrefl _)
  split
  · rename_i hb
    have hi : i.val < r.pg.val := by
      rcases Nat.lt_or_ge i.val r.pg.val with lt | ge
      · exact lt
      · have := inv.suffix r ⟨victim, i⟩ hb ge lands.free
        rw [(inv.state_of_mapped own).1] at this
        cases this
    have er : (⟨victim, r.pg⟩ : PageRef) = r := PageRef.ext hb.symm rfl
    have notMem : r.pg ∉ validFrom f victim (i + 1) := by
      rw [mem_validFrom, er, lands.free]
      simp
    rw [← Finset.card_insert_of_notMem notMem]
    congr 1
    ext j
    rw [Finset.mem_insert, mem_validFrom, mem_validFrom]
    by_cases hj : j = r.pg
    · subst hj
      refine ⟨fun _ => .inl rfl, fun _ => ⟨hi, ?_⟩⟩
      rw [er, Storage.written, state_programmed, if_pos rfl]
    · simp only [hj, false_or]
      refine and_congr_right fun lt => ?_
      rw [others j lt fun e => hj (by rw [← e])]
  · rename_i hb
    rw [Nat.add_zero]
    refine congrArg Finset.card (Finset.ext fun j => ?_)
    rw [mem_validFrom, mem_validFrom]
    refine and_congr_right fun lt => ?_
    rw [others j lt fun e => hb (by rw [← e])]

/-- Past a VALID page there is one less to move. -/
theorem card_validFrom_valid {f : FTL} {victim : BlockRef} {i : Fin ftlPagesPerBlock}
    (valid : (f.page ⟨victim, i⟩).state = .valid) :
    (validFrom f victim i).card = (validFrom f victim (i + 1)).card + 1 := by
  have notMem : i ∉ validFrom f victim (i + 1) := by rw [mem_validFrom]; omega
  rw [← Finset.card_insert_of_notMem notMem]
  congr 1
  ext j
  rw [Finset.mem_insert, mem_validFrom, mem_validFrom]
  by_cases hj : j = i
  · subst hj; simp [valid]
  · have : j.val ≠ i.val := fun e => hj (Fin.ext e)
    simp only [hj, false_or]
    exact and_congr_left fun _ => by omega

/-- Past another page there are as many. -/
theorem validFrom_not_valid {f : FTL} {victim : BlockRef} {i : Fin ftlPagesPerBlock}
    (stale : (f.page ⟨victim, i⟩).state ≠ .valid) :
    validFrom f victim i = validFrom f victim (i + 1) := by
  ext j
  rw [mem_validFrom, mem_validFrom]
  refine and_congr_left fun hv => ?_
  have : j.val ≠ i.val := fun e => stale (by rw [← Fin.ext e]; exact hv)
  omega

/-- Copying one page out uses exactly the room it was counted for. -/
theorem GcInv.fits_written {f : FTL} (inv : GcInv f) {r : PageRef} (lands : Lands f r)
    (count : f.freePages ≠ 0) {victim : BlockRef} {i : Fin ftlPagesPerBlock} {l : Lba}
    (d : PageData) (own : f.mappingTable l = some (PageRef.phys ⟨victim, i⟩)) :
    Fits (Storage.written f r l d) victim (validFrom (Storage.written f r l d) victim (i + 1)).card ↔
      Fits f victim (validFrom f victim i).card := by
  have hr : r ∈ freeAhead f := mem_freeAhead.2 ⟨lands.ahead, lands.free⟩
  have hcount := freePages_written count r l d
  have erase (p : PageRef → Prop) [DecidablePred p] :
      ((freeAhead (Storage.written f r l d)).filter p).card + (if p r then 1 else 0) =
        ((freeAhead f).filter p).card := by
    rw [inv.ftlInv.freeAhead_written lands, Finset.filter_erase]
    split
    · rw [Finset.card_erase_add_one (Finset.mem_filter.2 ⟨hr, ‹_›⟩)]
    · rw [Finset.erase_eq_of_notMem fun h => absurd (Finset.mem_filter.1 h).2 ‹_›, Nat.add_zero]
  have h1 := erase (·.block ≠ victim)
  have h2 := erase (·.block.index < victim.index)
  have h3 := erase (·.block = victim)
  have h4 := inv.validFrom_written lands d own
  have h5 := card_validFrom_valid (inv.state_of_mapped own).1
  -- the first FREE page ahead is before the victim if any is
  have before : ¬ r.block.index < victim.index → roomBefore f victim = 0 := by
    intro h
    rw [roomBefore, Finset.card_eq_zero, Finset.filter_eq_empty_iff]
    intro r' hr' lt
    obtain ⟨ahead, free⟩ := mem_freeAhead.1 hr'
    refine lands.first r' ahead ?_ free
    have e1 := r.index_eq; have e2 := r'.index_eq
    have e3 : r'.pg.val < 128 := r'.pg.isLt
    omega
  have inside : ¬ r.block.index < victim.index → r.block ≠ victim → roomInside f victim = 0 := by
    intro h ne
    rw [roomInside, Finset.card_eq_zero, Finset.filter_eq_empty_iff]
    intro r' hr' e
    obtain ⟨ahead, free⟩ := mem_freeAhead.1 hr'
    refine lands.first r' ahead ?_ free
    have e1 := r.index_eq; have e2 := r'.index_eq
    have e3 : r'.pg.val < 128 := r'.pg.isLt
    have e4 : r.block.index ≠ victim.index := fun e => ne (BlockRef.index_inj.1 e)
    rw [e] at e2
    omega
  change roomBefore _ victim + _ = roomBefore f victim at h2
  change roomInside _ victim + _ = roomInside f victim at h3
  change room _ victim + _ = room f victim at h1
  simp only [Fits, copies]
  by_cases hb : r.block = victim
  · have : ¬ r.block.index < victim.index := by rw [hb]; exact Nat.lt_irrefl _
    have := before this
    simp only [hb, ne_eq, not_true_eq_false, if_false, if_true, Nat.lt_irrefl] at h1 h2 h3 h4
    split <;> split <;> omega
  · by_cases hlt : r.block.index < victim.index
    · simp only [hb, hlt, ne_eq, not_false_eq_true, if_false, if_true] at h1 h2 h3 h4
      split <;> split <;> omega
    · have := before hlt
      have := inside hlt hb
      simp only [hb, hlt, ne_eq, not_false_eq_true, if_false, if_true] at h1 h2 h3 h4
      split <;> split <;> omega

end MiniHardware.Storage
