import MiniHardware.Storage.GcSafety

/-!
# What a failing `ftl_write` leaves

`ftl_write` marks the old page INVALID before it looks for a new one, and the
forward entry stays at it when none is found. The data of the LBA is gone
then, and no other LBA is concerned: a failing write leaves what is read
exactly if the LBA held nothing (`ftl_write_failure_keeps_reads`).
-/

namespace MiniHardware.Storage
open Lib

/-- The LBA is mapped to a page that is VALID. -/
def HoldsData (f : FTL) (lba : UInt32) : Prop :=
  ∃ (h : lba.toNat < ftlMaxLbas) (r : PageRef),
    f.mappingTable ⟨lba.toNat, h⟩ = some r.phys ∧ (f.page r).state = .valid

/-- Retiring the old page of an LBA keeps what is read there if and only if there was no data. -/
theorem read_retireOld_same {f : FTL} {lba : UInt32} (h : lba.toNat < ftlMaxLbas) :
    (retireOld f ⟨lba.toNat, h⟩).remap.read zeroPage ⟨lba.toNat, h⟩ = f.remap.read zeroPage ⟨lba.toNat, h⟩ ↔
      ¬ HoldsData f lba := by
  unfold retireOld
  split
  · rename_i p hp
    have old : (retirePage f p).remap.read zeroPage ⟨lba.toNat, h⟩ = none := by
      rw [FTL.remap_retirePage, Remap.read_of_fwd (show (f.remap.hide p).fwd _ = _ from hp)]
      exact Function.update_self p none f.remap.cell
    rw [old, Remap.read_of_fwd (show f.remap.fwd _ = _ from hp)]
    constructor
    · rintro blank ⟨_, r, own, valid⟩
      cases hp.symm.trans own
      rw [FTL.remap_cell, if_pos valid] at blank
      cases blank
    · intro empty
      cases page : getPhysicalPage p with
      | none =>
        show none = (getPhysicalPage p).bind _
        rw [page]
        rfl
      | some r =>
        have own : r.phys = p := Fin.ext (get_physical_page_eq_some.1 page)
        rw [← own, FTL.remap_cell, if_neg]
        intro valid
        exact empty ⟨h, r, own ▸ hp, valid⟩
  · rename_i unmapped
    refine ⟨?_, fun _ => rfl⟩
    rintro - ⟨_, r, own, -⟩
    cases unmapped.symm.trans own

/-- A write that fails has only retired the old page and moved the pointer. -/
theorem FtlInv.write_failed {f : FTL} (inv : FtlInv f) {lba : UInt32} (h : lba.toNat < ftlMaxLbas)
    (data : PageData) :
    (ftlWrite f lba data).1 = 0 ∧ WriteFits f ∨
      (ftlWrite f lba data).1 ≠ 0 ∧ ¬ WriteFits f ∧
        ∃ wp, (ftlWrite f lba data).2 = { Storage.retireOld f ⟨lba.toNat, h⟩ with writePointer := wp } := by
  have out := ftl_write_outcome f lba data
  generalize ftlWrite f lba data = w at out ⊢
  cases out with
  | outOfRange h' => exact absurd h (Nat.not_lt.2 h')
  | noCount _ zero => exact .inr ⟨by simp, fun fits => fits.1 zero, _, rfl⟩
  | noPage _ wp _ full =>
    refine .inr ⟨by simp, fun fits => ?_, wp, rfl⟩
    obtain ⟨r, hr⟩ := fits.2
    obtain ⟨ahead, free⟩ := mem_freeAhead.1 hr
    exact full r ahead ((inv.free_retireOld _ r).2 free)
  | programmed _ r count from_ free _ =>
    exact .inl ⟨rfl, count, r, mem_freeAhead.2 ⟨from_, (inv.free_retireOld _ r).1 free⟩⟩

theorem FtlInv.failure_keeps_reads {f : FTL} (inv : FtlInv f) (lba : UInt32) (data : PageData) :
    ((ftlWrite f lba data).1 ≠ 0 → ∀ k, (ftlRead (ftlWrite f lba data).2 k).1 = (ftlRead f k).1) ↔
      WriteFits f ∨ ¬ HoldsData f lba := by
  by_cases h : lba.toNat < ftlMaxLbas
  · obtain ⟨ret, fits⟩ | ⟨ret, full, wp, after⟩ := inv.write_failed h data
    · exact ⟨fun _ => .inl fits, fun _ fails => absurd ret fails⟩
    · rw [or_iff_right full, after, ← read_retireOld_same h]
      constructor
      · intro same
        have own := same ret lba
        rwa [ftl_read_eq _ _ h, ftl_read_eq _ _ h] at own
      · intro own _ k
        by_cases hk : k.toNat < ftlMaxLbas
        · rw [ftl_read_eq _ _ hk, ftl_read_eq _ _ hk]
          by_cases same : k = lba
          · subst same
            exact own
          · exact inv.read_retireOld fun e => same (UInt32.toNat_inj.1 (Fin.mk.inj e))
        · rw [ftl_read_out_of_range _ _ (Nat.le_of_not_lt hk), ftl_read_out_of_range _ _ (Nat.le_of_not_lt hk)]
  · refine ⟨fun _ => .inr ?_, fun _ _ k => ?_⟩
    · rintro ⟨inside, -⟩
      exact h inside
    · rw [ftlWrite, dif_neg h]

/-- **A write that fails leaves all data as it was if and only if there was room for it or the LBA held
no data**, in every state that writes and trims reach. -/
theorem ftl_write_failure_keeps_reads (mode : FTLMappingMode) (ops : List FtlOp) (lba : UInt32)
    (data : PageData) :
    ((ftlWrite (hostRun mode ops).1 lba data).1 ≠ 0 →
      ∀ k, (ftlRead (ftlWrite (hostRun mode ops).1 lba data).2 k).1 = (ftlRead (hostRun mode ops).1 k).1) ↔
      WriteFits (hostRun mode ops).1 ∨ ¬ HoldsData (hostRun mode ops).1 lba :=
  (host_inv_run mode ops).ftl.failure_keeps_reads lba data

/-- Writes of the host to the LBAs `0 … n-1`. -/
def hostFill (n : Nat) : List FtlOp := (List.range n).map fun i => .write (UInt32.ofNat i) patternPage

theorem filled_hostFill (mode : FTLMappingMode) (n : Nat) (le : n ≤ 8192) :
    Filled n (hostRun mode (hostFill n)).1 := by
  induction n with
  | zero => exact filled_init mode
  | succ n ih =>
    have snoc : hostFill (n + 1) = hostFill n ++ [.write (UInt32.ofNat n) patternPage] := by
      simp [hostFill, List.range_succ]
    rw [snoc, hostRun, run_snoc]
    exact (ih (by omega)).write (by omega) patternPage

theorem Filled.not_writeFits {f : FTL} (full : Filled 8192 f) : ¬ WriteFits f := by
  rintro ⟨-, r, hr⟩
  have ahead := (mem_freeAhead.1 hr).1
  have := r.index_lt
  have := full.pointer
  omega

theorem Filled.holdsData {f : FTL} (full : Filled 8192 f) : HoldsData f 0 := by
  refine ⟨by decide, ?_⟩
  have mapped : f.mappingTable 0 ≠ none := fun none => absurd ((full.mapped 0).1 none) (by decide)
  obtain ⟨p, hp⟩ := Option.ne_none_iff_exists'.1 mapped
  obtain ⟨r, rfl, valid, -⟩ := full.inv.mapped _ p hp
  exact ⟨r, hp, valid⟩

/-- Overwriting LBA 0 of a full device fails and loses what it held. -/
theorem ftl_overwrite_full_device_loses :
    ¬ ((ftlWrite (hostRun .pageLevel (hostFill 8192)).1 0 zeroPage).1 ≠ 0 →
      ∀ k, (ftlRead (ftlWrite (hostRun .pageLevel (hostFill 8192)).1 0 zeroPage).2 k).1 =
        (ftlRead (hostRun .pageLevel (hostFill 8192)).1 k).1) := by
  have full := filled_hostFill .pageLevel 8192 (Nat.le_refl _)
  rw [full.inv.ftlInv.failure_keeps_reads]
  rintro (fits | empty)
  · exact full.not_writeFits fits
  · exact empty full.holdsData

end MiniHardware.Storage
