import MiniHardware.Storage.FtlAllocate
import MiniHardware.Storage.GcSafety
import MiniHardware.Storage.SlcBuffer

/-!
# The counter of FREE pages

`free_pages` starts at the number of physical page numbers, of which 57344 have
no page behind them, so the full-device test of `ftl_write` never fires and what
counts is that every FREE page lies at or after the write pointer. A collection
keeps this if it uses up the FREE pages up to the end of its victim; the SLC
buffer takes pages without asking whether they are FREE, and a collection that
leaves an LBA mapped to an erased page makes a later write retire a FREE page.
`ftl_free_pages_exact` is about the runs in which none of this happens.
-/

namespace MiniHardware.Storage
open Lib

/-! ## FREE pages -/

/-- The FREE pages. -/
@[irreducible] def freeSet (f : FTL) : Finset PageRef := Finset.univ.filter fun r => (f.page r).state = .free

def freeCount (f : FTL) : Nat := (freeSet f).card

/-- The LBA is not mapped to a FREE page. -/
def Settled (f : FTL) (l : Lba) : Prop :=
  ∀ r : PageRef, f.mappingTable l = some r.phys → (f.page r).state ≠ .free

/-- The counter counts the FREE pages and the page numbers without a page, and no FREE page lies
behind the write pointer. -/
structure Counted (f : FTL) : Prop where
  count : f.freePages.toNat = freeCount f + 57344
  ahead : ∀ r : PageRef, (f.page r).state = .free → f.writePointer.val ≤ r.index

section Free

variable {f f' : FTL} {r : PageRef} {l : Lba}

theorem mem_freeSet : r ∈ freeSet f ↔ (f.page r).state = .free := by
  unfold freeSet
  exact Finset.mem_filter_univ r

/-- The set of FREE pages is a matter of the states alone. -/
theorem freeSet_congr (same : ∀ r, (f'.page r).state = .free ↔ (f.page r).state = .free) :
    freeSet f' = freeSet f := by
  ext r
  rw [mem_freeSet, mem_freeSet, same]

/-- There are 8192 pages to be FREE. -/
theorem freeCount_le (f : FTL) : freeCount f ≤ 8192 := by
  have inj : Set.InjOn PageRef.index (freeSet f : Set PageRef) := fun a _ b _ eq => PageRef.index_inj.1 eq
  have into : Set.MapsTo PageRef.index (freeSet f : Set PageRef) (Finset.range 8192 : Set Nat) :=
    fun r _ => Finset.mem_coe.2 (Finset.mem_range.2 r.index_lt)
  have le := Finset.card_le_card_of_injOn PageRef.index into inj
  rw [Finset.card_range] at le
  exact le

/-- Retiring the page of a settled LBA takes no FREE page. -/
theorem Settled.free_retireOld (settled : Settled f l) (r : PageRef) :
    ((retireOld f l).page r).state = .free ↔ (f.page r).state = .free :=
  FTL.free_retireOld fun _ mapped eq => settled r (eq ▸ mapped)

/-- The counter is never 0, as not all page numbers have a page. -/
theorem Counted.freePages_ne (h : Counted f) : f.freePages ≠ 0 := by
  intro zero
  have count := h.count
  rw [zero] at count
  exact absurd count (by change 0 ≠ _; omega)

/-- The counter does not wrap, because it counts page numbers without a page as well. -/
theorem Counted.sub_one (h : Counted f) : (f.freePages - 1).toNat + 1 = f.freePages.toNat := by
  have before := h.count
  have one : (1 : UInt32).toNat = 1 := rfl
  have pos : 1 ≤ f.freePages := UInt32.le_iff_toNat_le.2 (by rw [one]; omega)
  rw [UInt32.toNat_sub_of_le _ _ pos, one]
  omega

/-- The counter moves with the set where both lose one page. -/
theorem Counted.erase (h : Counted f) (free : (f.page r).state = .free)
    (set : freeSet f' = (freeSet f).erase r) (count : f'.freePages = f.freePages - 1)
    (ahead : ∀ q : PageRef, (f'.page q).state = .free → f'.writePointer.val ≤ q.index) : Counted f' := by
  have card : freeCount f' + 1 = freeCount f := by
    unfold freeCount
    rw [set]
    exact Finset.card_erase_add_one (mem_freeSet.2 free)
  have before := h.count
  have after := h.sub_one
  refine ⟨?_, ahead⟩
  rw [count]
  omega

/-- `Counted` depends on the FREE pages, the counter and the write pointer. -/
theorem Counted.congr (h : Counted f) (set : freeSet f' = freeSet f) (count : f'.freePages = f.freePages)
    (ahead : ∀ q : PageRef, (f'.page q).state = .free → f'.writePointer.val ≤ q.index) : Counted f' := by
  refine ⟨?_, ahead⟩
  rw [count, h.count]
  unfold freeCount
  rw [set]

/-- There are 8192 pages. -/
theorem card_pageRef : Fintype.card PageRef = 8192 := by
  have blocks : Fintype.card BlockRef = 4 * 16 :=
    (Fintype.ofEquiv_card _).trans ((Fintype.card_prod _ _).trans (by simp only [Fintype.card_fin]))
  refine (Fintype.ofEquiv_card _).trans ((Fintype.card_prod _ _).trans ?_)
  rw [blocks, Fintype.card_fin]
  rfl

/-- The counter is right after `ftl_init`. -/
theorem Counted.init (mode : FTLMappingMode) : Counted (ftlInit mode) where
  count := by
    have state (r : PageRef) : ((ftlInit mode).page r).state = .free := by
      simp only [ftlInit, FTL.page, FTL.block, zeroFlashPage]
    have all : freeSet (ftlInit mode) = Finset.univ :=
      Finset.eq_univ_of_forall fun r => mem_freeSet.2 (state r)
    unfold freeCount
    rw [all, Finset.card_univ, card_pageRef]
    rfl
  ahead _ _ := Nat.zero_le _

/-! ## One write -/

/-- A write takes the page it lands on. -/
theorem freeSet_written (settled : Settled f l) (r : PageRef) (d : PageData) :
    freeSet (written f r l d) = (freeSet f).erase r := by
  ext q
  rw [Finset.mem_erase, mem_freeSet, mem_freeSet, written, GcInv.state_programmed]
  constructor
  · intro free
    split at free
    · cases free
    · rename_i ne
      split at free
      · cases free
      · exact ⟨ne, free⟩
  · rintro ⟨ne, free⟩
    rw [if_neg ne, if_neg fun mapped => settled q mapped free]
    exact free

/-- A write that lands keeps the counter right. -/
theorem Counted.written (h : Counted f) (settled : Settled f l) (lands : Lands f r) (d : PageData) :
    Counted (written f r l d) := by
  have set := freeSet_written settled r d
  apply h.erase lands.free set
  · simp [Storage.written]
  · intro q free
    have pointer : (Storage.written f r l d).writePointer.val = r.index + 1 := succ_val (r := r) rfl
    obtain ⟨ne, before⟩ := Finset.mem_erase.1 (set ▸ mem_freeSet.2 free)
    have other : q.index ≠ r.index := fun eq => ne (PageRef.index_inj.1 eq)
    have ahead := h.ahead q (mem_freeSet.1 before)
    have first : ¬ q.index < r.index := fun lt => lands.first q ahead lt (mem_freeSet.1 before)
    omega

/-- The write without a page to land on. -/
def missed (f : FTL) (l : Lba) (wp : PhysPage) : FTL := { retireOld f l with writePointer := wp }

/-- A write that does not land takes no page. -/
theorem freeSet_missed (settled : Settled f l) (wp : PhysPage) : freeSet (missed f l wp) = freeSet f :=
  freeSet_congr fun q => settled.free_retireOld q

/-- With no FREE page left, the counter stays right wherever the pointer ends. -/
theorem Counted.missed (h : Counted f) (settled : Settled f l) (none : freeSet f = ∅) (wp : PhysPage) :
    Counted (missed f l wp) := by
  have set := freeSet_missed settled wp
  apply h.congr set
  · exact FTL.retireOld_freePages f l
  · intro q free
    have mem := mem_freeSet.2 free
    rw [set, none] at mem
    exact absurd mem (Finset.notMem_empty q)

/-- A write takes the first FREE page, and fails only if there is none. -/
theorem Counted.write (h : Counted f) (settled : Settled f l) (d : PageData) :
    (∃ r, Lands f r ∧ ftlWrite f (UInt32.ofNat l.val) d = (0, Storage.written f r l d)) ∨
      freeSet f = ∅ ∧ ∃ wp, ftlWrite f (UInt32.ofNat l.val) d = (-1, Storage.missed f l wp) := by
  have hl : (UInt32.ofNat l.val).toNat < ftlMaxLbas := (lba_toNat l).symm ▸ l.isLt
  have el : (⟨_, hl⟩ : Lba) = l := Fin.ext (lba_toNat l)
  have out := ftl_write_outcome f (UInt32.ofNat l.val) d
  generalize ftlWrite f (UInt32.ofNat l.val) d = w at out ⊢
  cases out with
  | outOfRange above => exact absurd hl (Nat.not_lt.2 above)
  | noCount _ zero => exact absurd zero h.freePages_ne
  | noPage _ wp _ full =>
    rw [el] at full ⊢
    refine .inr ⟨Finset.eq_empty_of_forall_notMem fun q mem => ?_, wp, rfl⟩
    have free := mem_freeSet.1 mem
    exact full q (h.ahead q free) ((settled.free_retireOld q).2 free)
  | programmed _ r _ ahead free first =>
    rw [el] at free first ⊢
    refine .inl ⟨r, ⟨ahead, (settled.free_retireOld r).1 free, fun q low high free => ?_⟩, rfl⟩
    exact first q low high ((settled.free_retireOld q).2 free)

/-- A trim of a settled LBA keeps the counter right. -/
theorem Counted.trim (h : Counted f) {lba : UInt32} (settled : ∀ lt : lba.toNat < ftlMaxLbas, Settled f ⟨lba.toNat, lt⟩) :
    Counted (ftlTrim f lba).2 := by
  unfold ftlTrim
  split
  · rename_i lt
    split
    · rename_i p mapped
      have retire : retireOld f ⟨lba.toNat, lt⟩ = retirePage f p := by rw [retireOld, mapped]
      have same (q : PageRef) : ((retirePage f p).page q).state = .free ↔ (f.page q).state = .free :=
        retire ▸ (settled lt).free_retireOld q
      have kept : Counted (retirePage f p) := by
        apply h.congr (freeSet_congr same)
        · exact FTL.retirePage_freePages f p
        · intro q free
          rw [FTL.retirePage_writePointer]
          exact h.ahead q ((same q).1 free)
      exact kept.congr (freeSet_congr fun _ => Iff.rfl) rfl kept.ahead
    · exact h
  · exact h

/-! ## Pages taken in place -/

/-- A FREE page becomes VALID and the pointer stays. -/
theorem Counted.take (h : Counted f) (free : (f.page r).state = .free)
    (page : ∀ q : PageRef, (f'.page q).state = if q = r then .valid else (f.page q).state)
    (count : f'.freePages = f.freePages - 1) (pointer : f'.writePointer = f.writePointer) : Counted f' := by
  have still (q : PageRef) : (f'.page q).state = .free ↔ q ≠ r ∧ (f.page q).state = .free := by
    rw [page]
    split
    case isTrue eq => simp [eq]
    case isFalse ne => simp [ne]
  apply h.erase free
  · ext q
    rw [Finset.mem_erase, mem_freeSet, mem_freeSet, still]
  · exact count
  · intro q free
    rw [pointer]
    exact h.ahead q ((still q).1 free).2

/-- A write through the buffer onto a FREE page keeps the counter right. -/
theorem Counted.bufferPage (h : Counted f) (free : (f.page r).state = .free) (l : Lba) (d : PageData) :
    Counted (bufferPage f r l d) := by
  refine h.take (r := r) free (fun q => ?_) rfl rfl
  rw [page_bufferPage]
  split <;> rfl

/-- Round `i` of the mapping loop; the pages from it on are still FREE. -/
theorem Counted.allocate {startLba : UInt32} {phys n i : Nat} (h : Counted f) (lbas : startLba.toNat + n ≤ ftlMaxLbas)
    (backed : phys + n ≤ ftlBackedPages) (lt : i < n)
    (run : ∀ q : PageRef, phys + i ≤ q.index → q.index < phys + n → (f.page q).state = .free) :
    ∃ f', allocatePage startLba phys f i = some f' ∧ Counted f' ∧
      ∀ q : PageRef, phys + (i + 1) ≤ q.index → q.index < phys + n → (f'.page q).state = .free := by
  obtain ⟨r, l, index, -, round⟩ := allocatePage_eq f lbas backed lt
  refine ⟨_, round, ?_, fun q low high => ?_⟩
  · refine h.take (r := r) (run r (by omega) (by omega)) (fun q => ?_) rfl rfl
    refine (congrArg FlashPage.state (FTL.page_setPage f r q _)).trans ?_
    split <;> rfl
  · have ne : q ≠ r := by
      rintro rfl
      omega
    refine (congrArg FlashPage.state (FTL.page_setPage f r q _)).trans ?_
    rw [if_neg ne]
    exact run q (by omega) high

/-- Allocating a run of FREE pages keeps the counter right, by induction on its length. -/
theorem Counted.allocate_run {startLba : UInt32} {phys n : Nat} (h : Counted f)
    (lbas : startLba.toNat + n ≤ ftlMaxLbas) (backed : n = 0 ∨ phys + n ≤ ftlBackedPages)
    (run : ∀ q : PageRef, phys ≤ q.index → q.index < phys + n → (f.page q).state = .free) :
    ∃ f', (List.range n).foldlM (allocatePage startLba phys) f = some f' ∧ Counted f' := by
  have upTo : ∀ i, i ≤ n → ∃ f', (List.range i).foldlM (allocatePage startLba phys) f = some f' ∧ Counted f' ∧
      ∀ q : PageRef, phys + i ≤ q.index → q.index < phys + n → (f'.page q).state = .free := by
    intro i le
    induction i with
    | zero => exact ⟨f, rfl, h, run⟩
    | succ i ih =>
      obtain ⟨f₁, before, counted, rest⟩ := ih (by omega)
      obtain ⟨f₂, round, counted', rest'⟩ := counted.allocate lbas (backed.resolve_left (by omega)) le rest
      refine ⟨f₂, ?_, counted', rest'⟩
      rw [List.range_succ, foldlM_snoc, before]
      exact round
  obtain ⟨f', all, counted, -⟩ := upTo n le_rfl
  exact ⟨f', all, counted⟩

/-! ## The flush -/

/-- What a write may do: a page that is VALID or FREE was so before, no page becomes FREE, an LBA
whose page changes gets one that is not FREE, and so has an LBA that is newly entered for a page. -/
structure Rewrites (f f' : FTL) : Prop where
  live : ∀ q : PageRef, (f'.page q).state = .valid ∨ (f'.page q).state = .free →
    (f.page q).state = .valid ∨ (f.page q).state = .free
  used : ∀ q : PageRef, (f.page q).state ≠ .free → (f'.page q).state ≠ .free
  mapped : ∀ k (q : PageRef), f'.mappingTable k = some q.phys →
    f.mappingTable k = some q.phys ∨ (f'.page q).state ≠ .free
  entered : ∀ k (q : PageRef), (f'.page q).state = .valid → f'.reverseMap (f'.page q).id = some k →
    (f.page q).state = .valid ∧ f.reverseMap (f.page q).id = some k ∨ Settled f' k

/-- Doing nothing is a rewrite. -/
theorem Rewrites.refl (f : FTL) : Rewrites f f :=
  ⟨fun _ h => h, fun _ h => h, fun _ _ h => .inl h, fun _ _ valid entry => .inl ⟨valid, entry⟩⟩

/-- An LBA that was settled is so after rewrites. -/
theorem Rewrites.settled (rewrites : Rewrites f f') (settled : Settled f l) : Settled f' l := by
  intro q mapped
  rcases rewrites.mapped l q mapped with before | used
  · exact rewrites.used q (settled q before)
  · exact used

/-- Rewrites follow each other. -/
theorem Rewrites.trans {g : FTL} (first : Rewrites f f') (second : Rewrites f' g) : Rewrites f g where
  live q h := first.live q (second.live q h)
  used q h := second.used q (first.used q h)
  mapped k q h := by
    rcases second.mapped k q h with before | used
    · exact (first.mapped k q before).imp_right (second.used q)
    · exact .inr used
  entered k q valid entry := by
    rcases second.entered k q valid entry with ⟨valid', entry'⟩ | settled
    · exact (first.entered k q valid' entry').imp_right second.settled
    · exact .inr settled

/-- Retiring a page takes entries away. -/
theorem retireOld_entry {k : Lba} (valid : ((retireOld f l).page r).state = .valid)
    (entry : (retireOld f l).reverseMap ((retireOld f l).page r).id = some k) :
    (f.page r).state = .valid ∧ f.reverseMap (f.page r).id = some k := by
  rw [FTL.page_retireOld] at valid entry
  split at valid
  · cases valid
  · rename_i other
    rw [if_neg other, FTL.retireOld_reverseMap] at entry
    split at entry
    · cases entry
    · exact ⟨valid, entry⟩

/-- A write that lands is a rewrite. -/
theorem Rewrites.written (settled : Settled f l) (lands : Lands f r) (d : PageData) :
    Rewrites f (Storage.written f r l d) := by
  have state (q : PageRef) := GcInv.state_programmed f r q l d
  have used : ∀ q : PageRef, (f.page q).state ≠ .free → ((Storage.written f r l d).page q).state ≠ .free := by
    intro q used free
    have mem := mem_freeSet.2 free
    rw [freeSet_written settled, Finset.mem_erase, mem_freeSet] at mem
    exact used mem.2
  have own : Settled (Storage.written f r l d) l := by
    intro q mapped
    rw [written_mappingTable, Function.update_self] at mapped
    obtain rfl := PageRef.phys_inj.1 (Option.some.inj mapped)
    rw [Storage.written, state, if_pos rfl]
    decide
  refine ⟨fun q live => ?_, used, fun k q mapped => ?_, fun k q valid entry => ?_⟩
  · rw [Storage.written, state] at live
    by_cases eq : q = r
    · rw [eq]
      exact .inr lands.free
    · rw [if_neg eq] at live
      split at live
      · simp at live
      · exact live
  · by_cases eq : k = l
    · exact .inr (own q (eq ▸ mapped))
    · rw [written_mappingTable, Function.update_of_ne eq] at mapped
      exact .inl mapped
  · by_cases eq : k = l
    · exact .inr (eq ▸ own)
    left
    rw [Storage.written, FTL.programPage_reverseMap, Function.update_apply] at entry
    split at entry
    · exact absurd (Option.some.inj entry).symm eq
    have ne : q ≠ r := by
      rintro rfl
      rename_i other
      rw [FTL.page_programPage, if_pos rfl] at other
      exact other rfl
    rw [FTL.page_programPage, if_neg ne] at entry
    rw [Storage.written, FTL.page_programPage, if_neg ne] at valid
    exact retireOld_entry valid entry

/-- A write that does not land is a rewrite. -/
theorem Rewrites.missed (settled : Settled f l) (wp : PhysPage) : Rewrites f (Storage.missed f l wp) where
  live q live := by
    change ((retireOld f l).page q).state = .valid ∨ ((retireOld f l).page q).state = .free at live
    rw [FTL.page_retireOld] at live
    split at live
    · simp at live
    · exact live
  used q used free := used ((settled.free_retireOld q).1 free)
  mapped k _ mapped := .inl ((congrFun (FTL.retireOld_mappingTable f l) k).symm.trans mapped)
  entered _ _ valid entry := .inl (retireOld_entry valid entry)

/-- A page that is not FREE is given up. -/
theorem Rewrites.invalidate (f : FTL) (r : PageRef) :
    Rewrites f (f.setPage r { f.page r with state := .invalid }) := by
  have page (q : PageRef) := FTL.page_setPage f r q { f.page r with state := .invalid }
  refine ⟨fun q live => ?_, fun q used => ?_, fun k q mapped => .inl mapped, fun k q valid entry => ?_⟩
  · rw [page] at live
    split at live
    · simp at live
    · exact live
  · rw [page]
    split
    · simp
    · exact used
  · rw [page] at valid entry
    split at valid
    · cases valid
    · rename_i ne
      rw [if_neg ne] at entry
      exact .inl ⟨valid, entry⟩

/-- Marking a page that is not FREE as INVALID keeps the counter right. -/
theorem Counted.invalidate (h : Counted f) (used : (f.page r).state ≠ .free) :
    Counted (f.setPage r { f.page r with state := .invalid }) := by
  have still (q : PageRef) :
      ((f.setPage r { f.page r with state := .invalid }).page q).state = .free ↔ (f.page q).state = .free := by
    rw [FTL.page_setPage]
    split
    case isTrue eq => simp [eq, used]
    case isFalse => rfl
  exact h.congr (freeSet_congr still) rfl fun q free => h.ahead q ((still q).1 free)

/-- A write to a settled LBA keeps the counter right and is a rewrite, whether it lands or not. -/
theorem Counted.write_keeps (h : Counted f) (settled : Settled f l) (d : PageData) :
    Counted (ftlWrite f (UInt32.ofNat l.val) d).2 ∧ Rewrites f (ftlWrite f (UInt32.ofNat l.val) d).2 := by
  obtain ⟨r, lands, write⟩ | ⟨none, wp, write⟩ := h.write settled d
  · rw [write]
    exact ⟨h.written settled lands d, .written settled lands d⟩
  · rw [write]
    exact ⟨h.missed settled none wp, .missed settled wp⟩

/-- A write of the buffered entry leaves the FREE pages alone. -/
def Rewritable (f : FTL) (entry : Lba × Nat) : Prop :=
  ∀ r q : PageRef, getPhysicalPage entry.2 = some r → (f.page r).state = .valid ∨ (f.page r).state = .free →
    f.mappingTable entry.1 = some q.phys → q = r ∨ (f.page q).state ≠ .free

/-- A buffered entry that could be written can be after rewrites. -/
theorem Rewrites.rewritable (rewrites : Rewrites f f') {entry : Lba × Nat} (ok : Rewritable f entry) :
    Rewritable f' entry := by
  intro r q page live mapped
  rcases rewrites.mapped _ q mapped with before | used
  · exact (ok r q page (rewrites.live r live) before).imp_right (rewrites.used q)
  · exact .inr used

/-- One entry of the flush keeps the counter right and is a rewrite. -/
theorem Counted.flushPage (h : Counted f) {entry : Lba × Nat} (ok : Rewritable f entry) (n : Nat) :
    Counted (flushPage (n, f) entry).2 ∧ Rewrites f (flushPage (n, f) entry).2 := by
  have same : Counted f ∧ Rewrites f f := ⟨h, .refl f⟩
  unfold Storage.flushPage
  split
  · exact same
  rename_i r page
  dsimp only
  split
  · exact same
  rename_i valid
  have live : (f.page r).state = .valid := not_not.1 valid
  have settled : Settled f entry.1 := by
    intro q mapped
    rcases ok r q page (.inl live) mapped with rfl | used
    · rw [live]
      decide
    · exact used
  obtain ⟨counted, rewrites⟩ := h.write_keeps settled (f.page r).data
  have used : (f.page r).state ≠ .free := by
    rw [live]
    decide
  exact ⟨counted.invalidate (rewrites.used r used), rewrites.trans (.invalidate _ r)⟩

/-- The flush keeps the counter right, by induction on the entries. -/
theorem Counted.flush (h : Counted f) {ext : FTLExtended} (ok : ∀ entry ∈ ext.slcPages.zipIdx, Rewritable f entry) :
    Counted (ftlSlcBufferFlush f ext).2.1 := by
  have kept : Counted (ext.slcPages.zipIdx.foldl Storage.flushPage (0, f)).2 ∧
      ∀ entry ∈ ext.slcPages.zipIdx, Rewritable (ext.slcPages.zipIdx.foldl Storage.flushPage (0, f)).2 entry := by
    refine List.foldlRecOn (motive := fun s : Nat × FTL => Counted s.2 ∧ ∀ entry ∈ ext.slcPages.zipIdx, Rewritable s.2 entry)
      _ _ ⟨h, ok⟩ fun s ⟨counted, ok⟩ entry mem => ?_
    obtain ⟨counted', rewrites⟩ := counted.flushPage (ok entry mem) s.1
    exact ⟨counted', fun e mem => rewrites.rewritable (ok e mem)⟩
  exact kept.1

end Free

end MiniHardware.Storage
