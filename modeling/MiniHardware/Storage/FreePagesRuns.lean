import MiniHardware.Storage.FreePages

/-!
# The FREE pages over whole runs

A collection moves the write pointer back to its victim, so it keeps the FREE
pages ahead of the pointer only if its copies use up those up to the end of the
victim. Every page that knows its own number and its LBA takes one
(`CollectRoom.written`); a copy that lands in the victim ahead of the loop is
copied again, until none is left.
-/

namespace MiniHardware.Storage
open Lib

/-! ## Room for a collection -/

/-- The page knows its number, and the LBA it is entered for is mapped to it. -/
def Owned (f : FTL) (r : PageRef) : Prop :=
  (f.page r).state = .valid ∧ (f.page r).id = r.phys ∧ (f.reverseMap r.phys).bind f.mappingTable = some r.phys

instance decidableOwned (f : FTL) (r : PageRef) : Decidable (Owned f r) := inferInstanceAs (Decidable (_ ∧ _ ∧ _))

/-- The FREE pages before page `m`. -/
@[irreducible] def freeBelow (f : FTL) (m : Nat) : Finset PageRef := (freeSet f).filter (·.index < m)

/-- The owned pages from page `a` to page `m`. -/
@[irreducible] def ownedBetween (f : FTL) (a m : Nat) : Finset PageRef :=
  Finset.univ.filter fun r => a ≤ r.index ∧ r.index < m ∧ Owned f r

/-- The copies of the pages from `a` to `e` use up the FREE pages before `e`: there are enough of
them, or so many up to some page that one lands behind it. -/
def CollectRoom (f : FTL) (a e : Nat) : Prop :=
  (freeBelow f e).card ≤ (ownedBetween f a e).card ∨
    ∃ m, m ≤ e ∧ (freeBelow f m).card < (ownedBetween f a m).card

section Collect

variable {f : FTL} {r g p : PageRef} {l : Lba} {a e m : Nat}

theorem mem_freeBelow : r ∈ freeBelow f m ↔ (f.page r).state = .free ∧ r.index < m := by
  unfold freeBelow
  rw [Finset.mem_filter, mem_freeSet]

theorem mem_ownedBetween : r ∈ ownedBetween f a m ↔ a ≤ r.index ∧ r.index < m ∧ Owned f r := by
  unfold ownedBetween
  exact Finset.mem_filter_univ r

theorem CollectRoom.of_no_free (none : ∀ r : PageRef, (f.page r).state = .free → e ≤ r.index) : CollectRoom f a e := by
  left
  have empty : freeBelow f e = ∅ := by
    apply Finset.eq_empty_of_forall_notMem
    intro r mem
    obtain ⟨free, lt⟩ := mem_freeBelow.1 mem
    exact absurd (none r free) (Nat.not_le.2 lt)
  rw [empty, Finset.card_empty]
  exact Nat.zero_le _

/-- A page that is not copied takes none. -/
theorem CollectRoom.skip (h : CollectRoom f a e) (here : p.index = a) (other : ¬ Owned f p) :
    CollectRoom f (a + 1) e := by
  have same (m : Nat) : ownedBetween f (a + 1) m = ownedBetween f a m := by
    ext r
    rw [mem_ownedBetween, mem_ownedBetween]
    constructor
    · rintro ⟨low, rest⟩
      exact ⟨by omega, rest⟩
    · rintro ⟨low, high, owned⟩
      have ne : r.index ≠ a := by
        intro eq
        obtain rfl : r = p := PageRef.index_inj.1 (eq.trans here.symm)
        exact other owned
      exact ⟨by omega, high, owned⟩
  unfold CollectRoom
  simp only [same]
  exact h

/-- At the end of the victim no FREE page is left before it. -/
theorem CollectRoom.done (h : CollectRoom f e e) : ∀ r : PageRef, (f.page r).state = .free → e ≤ r.index := by
  have behind (m : Nat) (le : m ≤ e) : (ownedBetween f e m).card = 0 := by
    rw [Finset.card_eq_zero]
    apply Finset.eq_empty_of_forall_notMem
    intro r mem
    have := (mem_ownedBetween.1 mem).1
    have := (mem_ownedBetween.1 mem).2.1
    omega
  intro r free
  rcases h with enough | ⟨m, le, more⟩
  · rw [behind e le_rfl, Nat.le_zero, Finset.card_eq_zero] at enough
    by_contra lt
    have mem : r ∈ freeBelow f e := mem_freeBelow.2 ⟨free, Nat.not_le.1 lt⟩
    rw [enough] at mem
    exact Finset.notMem_empty r mem
  · rw [behind m le] at more
    exact absurd more (Nat.not_lt_zero _)

theorem freeBelow_written (settled : Settled f l) (g : PageRef) (d : PageData) (m : Nat) :
    freeBelow (written f g l d) m = (freeBelow f m).erase g := by
  unfold freeBelow
  rw [freeSet_written settled, Finset.filter_erase]

theorem owned_written_self (f : FTL) (g : PageRef) (l : Lba) (d : PageData) : Owned (written f g l d) g := by
  have page := FTL.page_programPage (f := { retireOld f l with writePointer := g.phys }) (r := g) l d g
  rw [if_pos rfl] at page
  refine ⟨?_, ?_, ?_⟩
  · rw [written, page]
  · rw [written, page]
  · rw [written_mappingTable, written, FTL.programPage_reverseMap, Function.update_self, Option.bind_some,
      Function.update_self]

/-- The page that was the LBA's is the only one that a write takes from its owner. -/
theorem Owned.written (owned : Owned f r) (ne : r ≠ g) (other : f.mappingTable l ≠ some r.phys) (d : PageData) :
    Owned (Storage.written f g l d) r := by
  obtain ⟨valid, id, back⟩ := owned
  have page : (Storage.written f g l d).page r = f.page r := by
    rw [Storage.written, FTL.page_programPage, if_neg ne]
    exact (FTL.page_retireOld f l r).trans (if_neg other)
  have entry : (Storage.written f g l d).reverseMap r.phys = f.reverseMap r.phys := by
    rw [Storage.written, FTL.programPage_reverseMap, Function.update_of_ne fun eq => ne (PageRef.phys_inj.1 eq)]
    exact (FTL.retireOld_reverseMap f l r.phys).trans (if_neg other)
  refine ⟨by rw [page]; exact valid, by rw [page]; exact id, ?_⟩
  rw [entry, written_mappingTable]
  obtain ⟨k, hk, mapped⟩ := Option.bind_eq_some_iff.1 back
  have apart : k ≠ l := by
    rintro rfl
    exact other mapped
  rw [hk, Option.bind_some, Function.update_of_ne apart, mapped]

/-- One round takes at most one owned page off the count. -/
theorem card_ownedBetween_written (free : (f.page g).state = .free) (here : p.index = a)
    (entry : f.reverseMap (f.page p).id = some l) (d : PageData) (m : Nat) :
    (ownedBetween f a m).card ≤ (ownedBetween (written f g l d) (a + 1) m).card + 1 := by
  obtain ⟨q, only⟩ : ∃ q : PageRef, ∀ r : PageRef, f.mappingTable l = some r.phys → r = q := by
    by_cases backed : ∃ q : PageRef, f.mappingTable l = some q.phys
    · obtain ⟨q, own⟩ := backed
      exact ⟨q, fun r mapped => PageRef.phys_inj.1 (Option.some.inj (mapped.symm.trans own))⟩
    · exact ⟨p, fun r mapped => absurd ⟨r, mapped⟩ backed⟩
  have sub : ownedBetween f a m ⊆ insert q (ownedBetween (written f g l d) (a + 1) m) := by
    intro r mem
    obtain ⟨low, high, owned⟩ := mem_ownedBetween.1 mem
    rw [Finset.mem_insert, mem_ownedBetween]
    by_cases eq : r = q
    · exact .inl eq
    have other : f.mappingTable l ≠ some r.phys := fun mapped => eq (only r mapped)
    have ne : r ≠ g := by
      rintro rfl
      have valid := owned.1
      rw [free] at valid
      cases valid
    have past : r.index ≠ a := by
      intro at_
      obtain rfl : r = p := PageRef.index_inj.1 (at_.trans here.symm)
      have back := owned.2.2
      rw [← owned.2.1, entry, Option.bind_some, owned.2.1] at back
      exact other back
    exact .inr ⟨by omega, high, owned.written ne other d⟩
  exact (Finset.card_le_card sub).trans (Finset.card_insert_le _ _)

/-- A copy takes the first FREE page. -/
theorem CollectRoom.written (h : CollectRoom f a e) (settled : Settled f l) (free : (f.page g).state = .free)
    (least : ∀ q : PageRef, (f.page q).state = .free → g.index ≤ q.index) (here : p.index = a)
    (valid : (f.page p).state = .valid) (entry : f.reverseMap (f.page p).id = some l) (d : PageData) :
    CollectRoom (Storage.written f g l d) (a + 1) e := by
  have below (m : Nat) := freeBelow_written settled g d m
  have owned (m : Nat) := card_ownedBetween_written free here entry d m
  have ne : g.index ≠ a := by
    intro eq
    obtain rfl : g = p := PageRef.index_inj.1 (eq.trans here.symm)
    rw [free] at valid
    cases valid
  have taken {m : Nat} (lt : g.index < m) :
      (freeBelow (Storage.written f g l d) m).card + 1 = (freeBelow f m).card := by
    rw [below]
    exact Finset.card_erase_add_one (mem_freeBelow.2 ⟨free, lt⟩)
  rcases Nat.lt_or_ge g.index e with inside | outside
  · rcases Nat.lt_or_gt_of_ne ne with behind | ahead
    · rcases h with enough | ⟨m, le, more⟩
      · left
        have := taken inside
        have := owned e
        omega
      · have reached : a < m := by
          by_contra before
          obtain ⟨r, mem⟩ := Finset.card_pos.1 (Nat.lt_of_le_of_lt (Nat.zero_le _) more)
          have := (mem_ownedBetween.1 mem).1
          have := (mem_ownedBetween.1 mem).2.1
          omega
        refine .inr ⟨m, le, ?_⟩
        have := taken (m := m) (by omega)
        have := owned m
        omega
    · -- the copy lies ahead of the loop, and no FREE page before it
      refine .inr ⟨g.index + 1, inside, ?_⟩
      have none : freeBelow (Storage.written f g l d) (g.index + 1) = ∅ := by
        apply Finset.eq_empty_of_forall_notMem
        intro q mem
        rw [below, Finset.mem_erase, mem_freeBelow] at mem
        obtain ⟨other, still, lt⟩ := mem
        have := least q still
        exact other (PageRef.index_inj.1 (by omega))
      rw [none, Finset.card_empty]
      apply Finset.card_pos.2
      exact ⟨g, mem_ownedBetween.2 ⟨ahead, Nat.lt_succ_self _, owned_written_self f g l d⟩⟩
  · apply CollectRoom.of_no_free
    intro q still
    have mem := mem_freeSet.2 still
    rw [freeSet_written settled, Finset.mem_erase, mem_freeSet] at mem
    exact outside.trans (least q mem.2)

/-! ## The collection -/

theorem CollectRoom.setStats (h : CollectRoom f a e) (stats : FTLStats) : CollectRoom { f with stats := stats } a e := by
  have below : freeBelow { f with stats := stats } = freeBelow f := by
    unfold freeBelow freeSet
    rfl
  have owned : ownedBetween { f with stats := stats } = ownedBetween f := by
    unfold ownedBetween
    rfl
  unfold CollectRoom
  rw [below, owned]
  exact h

theorem Counted.setStats (h : Counted f) (stats : FTLStats) : Counted { f with stats := stats } :=
  h.congr (freeSet_congr fun _ => Iff.rfl) rfl h.ahead

theorem Rewrites.setStats {f' : FTL} (rewrites : Rewrites f f') (stats : FTLStats) :
    Rewrites f { f' with stats := stats } := ⟨rewrites.live, rewrites.used, rewrites.mapped, rewrites.entered⟩

/-- The LBAs that the pages of the victim are entered for are not mapped to a FREE page. -/
def CollectSettled (f : FTL) (victim : BlockRef) : Prop :=
  ∀ r : PageRef, r.block = victim → (f.page r).state = .valid → ∀ l, f.reverseMap (f.page r).id = some l → Settled f l

/-- The migration loop is at page `i` of the victim. -/
structure Collecting (victim : BlockRef) (i : Nat) (f : FTL) : Prop where
  counted : Counted f
  settled : CollectSettled f victim
  room : CollectRoom f (victim.index * 128 + i) (victim.index * 128 + 128)

/-- The loop body does nothing, or rewrites the data of a VALID page to the LBA it is entered for. -/
theorem migrate_page_outcome (victim : BlockRef) (m : GCMetrics) (f : FTL) (i : Fin ftlPagesPerBlock) :
    ((migratePage victim (m, f) i).2 = f ∧ ¬ Owned f ⟨victim, i⟩) ∨
      ∃ l stats, (f.page ⟨victim, i⟩).state = .valid ∧ f.reverseMap (f.page ⟨victim, i⟩).id = some l ∧
        (migratePage victim (m, f) i).2 =
          { (ftlWrite f (UInt32.ofNat l.val) (f.page ⟨victim, i⟩).data).2 with stats := stats } := by
  unfold migratePage
  dsimp only
  split
  · rename_i valid
    split
    · rename_i l entry
      right
      rw [markStale_data, write_mark_stale f l _ (lba_toNat l)]
      split
      · exact ⟨l, _, valid, entry, rfl⟩
      · exact ⟨l, _, valid, entry, rfl⟩
    · rename_i none
      refine .inl ⟨rfl, fun owned => ?_⟩
      have back := owned.2.2
      rw [← owned.2.1, none] at back
      cases back
  · rename_i stale
    exact .inl ⟨rfl, fun owned => stale owned.1⟩

theorem Collecting.step {victim : BlockRef} {i : Fin ftlPagesPerBlock} (h : Collecting victim i f) (m : GCMetrics) :
    Collecting victim (i + 1) (migratePage victim (m, f) i).2 := by
  have here : (⟨victim, i⟩ : PageRef).index = victim.index * 128 + i := rfl
  obtain ⟨same, other⟩ | ⟨l, stats, valid, entry, moved⟩ := migrate_page_outcome victim m f i
  · rw [same]
    exact ⟨h.counted, h.settled, h.room.skip here other⟩
  have settled := h.settled _ rfl valid l entry
  obtain ⟨counted, rewrites⟩ := h.counted.write_keeps settled (f.page ⟨victim, i⟩).data
  have room : CollectRoom (ftlWrite f (UInt32.ofNat l.val) (f.page ⟨victim, i⟩).data).2 (victim.index * 128 + (i + 1))
      (victim.index * 128 + 128) := by
    obtain ⟨r, lands, write⟩ | ⟨none, wp, write⟩ := h.counted.write settled (f.page ⟨victim, i⟩).data
    · rw [write]
      apply h.room.written settled lands.free _ here valid entry
      intro q free
      by_contra lt
      exact lands.first q (h.counted.ahead q free) (Nat.not_le.1 lt) free
    · rw [write]
      apply CollectRoom.of_no_free
      intro q free
      have mem := mem_freeSet.2 free
      rw [freeSet_missed settled wp, none] at mem
      exact absurd mem (Finset.notMem_empty q)
  rw [moved]
  refine ⟨counted.setStats stats, fun q block valid' k entry' => ?_, room.setStats stats⟩
  have rewrites := rewrites.setStats stats
  rcases rewrites.entered k q valid' entry' with ⟨before, entry⟩ | settled'
  · exact rewrites.settled (h.settled q block before k entry)
  · exact settled'

theorem Collecting.run {victim : BlockRef} (h : Collecting victim 0 f) (m : GCMetrics) :
    Collecting victim ftlPagesPerBlock (migrated m f victim) :=
  finRange_foldl_invariant (s := (m, f)) (motive := fun i s => Collecting victim i s.2) h
    fun _ s h => h.step s.1

/-- Erasing a block before which, and in which, no page is FREE. -/
theorem Counted.eraseBlock (h : Counted f) {victim : BlockRef}
    (past : ∀ r : PageRef, (f.page r).state = .free → victim.index * 128 + 128 ≤ r.index) :
    Counted (eraseBlock f victim) := by
  have pages : (Finset.univ.image fun i : Fin ftlPagesPerBlock => (⟨victim, i⟩ : PageRef)).card = 128 := by
    rw [Finset.card_image_of_injective _ fun i j eq => (PageRef.mk.inj eq).2, Finset.card_fin]
  have state (r : PageRef) :
      ((Storage.eraseBlock f victim).page r).state = .free ↔ (f.page r).state = .free ∨ r.block = victim := by
    rw [page_eraseBlock]
    split
    case isTrue inside => simp [inside]
    case isFalse outside => simp [outside]
  have set : freeSet (Storage.eraseBlock f victim) =
      freeSet f ∪ Finset.univ.image fun i : Fin ftlPagesPerBlock => (⟨victim, i⟩ : PageRef) := by
    ext r
    rw [mem_freeSet, state, Finset.mem_union, mem_freeSet]
    apply or_congr_right
    rw [Finset.mem_image]
    constructor
    · rintro rfl
      exact ⟨r.pg, Finset.mem_univ _, rfl⟩
    · rintro ⟨i, -, rfl⟩
      rfl
  have apart : Disjoint (freeSet f) (Finset.univ.image fun i : Fin ftlPagesPerBlock => (⟨victim, i⟩ : PageRef)) := by
    rw [Finset.disjoint_left]
    intro r mem image
    obtain ⟨i, -, rfl⟩ := Finset.mem_image.1 image
    have := past _ (mem_freeSet.1 mem)
    have index := (⟨victim, i⟩ : PageRef).index_eq
    have lt : i.val < 128 := i.isLt
    dsimp only at index
    omega
  have card : freeCount (Storage.eraseBlock f victim) = freeCount f + 128 := by
    unfold freeCount
    rw [set, Finset.card_union_of_disjoint apart, pages]
  have most := freeCount_le f
  have before := h.count
  have block : (128 : UInt32).toNat = 128 := rfl
  constructor
  · change (f.freePages + 128).toNat = _
    rw [UInt32.toNat_add, block, card]
    omega
  · intro r free
    change victim.index * 128 + 0 ≤ r.index
    rcases (state r).1 free with before | rfl
    · have := past r before
      omega
    · have := r.index_eq
      omega

/-- The FREE pages before the end of the victim are used up, by writes that leave the others alone. -/
def CollectReady (f : FTL) (gc : GarbageCollector) : Prop :=
  ∀ victim, gcVictim gc f = some victim →
    CollectSettled f victim ∧ CollectRoom f (victim.index * 128) (victim.index * 128 + 128)

theorem Counted.trigger (h : Counted f) {gc : GarbageCollector} (ready : CollectReady f gc) :
    Counted (gcTrigger gc f).2.2 := by
  obtain ⟨-, -, same⟩ | ⟨victim, m, collects, -, run⟩ := gc_trigger_outcome gc f
  · rw [same]
    exact h
  · obtain ⟨settled, room⟩ := ready victim collects
    have last := Collecting.run ⟨h, settled, room⟩ m
    rw [run]
    exact last.counted.eraseBlock last.room.done

end Collect

/-! ## The search loop -/

/-- From every page the loop ends, with `nextFree`. -/
theorem search_ends (f : FTL) (wp : PhysPage) {n : Nat} (enough : ftlBackedPages - wp.val < n) :
    searchFor f n wp = some (nextFree f wp) := by
  induction n generalizing wp with
  | zero => exact absurd enough (Nat.not_lt_zero _)
  | succ n ih =>
    rw [nextFree, searchFor, inUse]
    cases page : getPhysicalPage wp with
    | none => rfl
    | some r =>
      by_cases free : (f.page r).state = .free
      · simp [free]
      · have index : r.index = wp.val := get_physical_page_eq_some.1 page
        have bound := r.index_lt
        have next := succ_val index
        simp only [Option.any_some, free, if_false, ne_eq, not_false_eq_true, decide_true, if_true]
        apply ih
        change 8192 - _ < _ at enough ⊢
        omega

/-! ## Runs -/

inductive PageCall where
  | write (lba : UInt32) (data : PageData)
  | trim (lba : UInt32)
  | allocateBlock (startLba numPages : UInt32)
  | bufferWrite (lba : UInt32) (data : PageData)
  | bufferFlush
  | gcTrigger (gc : GarbageCollector)

/-- `ftl_slc_buffer_write` goes to `ftl_write`. -/
abbrev FTLExtended.Direct (ext : FTLExtended) : Prop := ext.slcEnabled = false ∨ ext.slcCount ≥ ftlSlcBufferPages

/-- The device and the buffer after a call; `none` is a write outside `mapping_table`. -/
def pageCall (s : FTL × FTLExtended) : PageCall → Option (FTL × FTLExtended)
  | .write lba data => some ((ftlWrite s.1 lba data).2, s.2)
  | .trim lba => some ((ftlTrim s.1 lba).2, s.2)
  | .allocateBlock startLba numPages => (ftlAllocateBlock s.1 startLba numPages).map fun r => (r.2, s.2)
  | .bufferWrite lba data =>
    if h : lba.toNat < ftlMaxLbas then some (ftlSlcBufferWrite s.1 s.2 ⟨lba.toNat, h⟩ data).2
    else if s.2.Direct then some ((ftlWrite s.1 lba data).2, s.2)
    else none
  | .bufferFlush => some (ftlSlcBufferFlush s.1 s.2).2
  | .gcTrigger gc => some ((gcTrigger gc s.1).2.2, s.2)

def pageStep (s : Option (FTL × FTLExtended)) (call : PageCall) : Option (FTL × FTLExtended) :=
  s.bind (pageCall · call)

def pageInit (mode : FTLMappingMode) (enabled : Bool) : Option (FTL × FTLExtended) :=
  some (ftlInit mode, if enabled then ftlSlcBufferInit else ftlSlcBufferOff)

/-- What a call needs. -/
def PageReady (s : FTL × FTLExtended) : PageCall → Prop
  | .write lba _ => ∀ h : lba.toNat < ftlMaxLbas, Settled s.1 ⟨lba.toNat, h⟩
  | .trim lba => ∀ h : lba.toNat < ftlMaxLbas, Settled s.1 ⟨lba.toNat, h⟩
  | .allocateBlock startLba numPages =>
    startLba + numPages ≤ UInt32.ofNat ftlMaxLbas → numPages ≤ s.1.freePages →
      startLba.toNat + numPages.toNat < 2 ^ 32
  | .bufferWrite lba _ =>
    if s.2.Direct then ∀ h : lba.toNat < ftlMaxLbas, Settled s.1 ⟨lba.toNat, h⟩
    else lba.toNat < ftlMaxLbas ∧ ∀ r, getPhysicalPage s.2.slcCount = some r → (s.1.page r).state = .free
  | .bufferFlush => ∀ entry ∈ s.2.slcPages.zipIdx, Rewritable s.1 entry
  | .gcTrigger gc => CollectReady s.1 gc

/-- An `ftl_write` of an LBA succeeds if a page is FREE. -/
def WriteSucceeds (f : FTL) : PageCall → Prop
  | .write lba data => lba.toNat < ftlMaxLbas → freeCount f ≠ 0 → (ftlWrite f lba data).1 = 0
  | _ => True

/-- The call stays in the tables, and the counter changes as the number of FREE pages does. -/
def FreeExact (s : Option (FTL × FTLExtended)) (call : PageCall) : Prop :=
  ∃ x x', s = some x ∧ pageCall x call = some x' ∧
    (x'.1.freePages.toNat : Int) - x.1.freePages.toNat = (freeCount x'.1 : Int) - freeCount x.1 ∧
    WriteSucceeds x.1 call

theorem Counted.write_lba {f : FTL} (h : Counted f) {lba : UInt32}
    (settled : ∀ lt : lba.toNat < ftlMaxLbas, Settled f ⟨lba.toNat, lt⟩) (d : PageData) :
    Counted (ftlWrite f lba d).2 ∧ (lba.toNat < ftlMaxLbas → freeCount f ≠ 0 → (ftlWrite f lba d).1 = 0) := by
  by_cases lt : lba.toNat < ftlMaxLbas
  · have same : UInt32.ofNat (⟨lba.toNat, lt⟩ : Lba).val = lba := UInt32.ofNat_toNat
    have kept := (h.write_keeps (settled lt) d).1
    have ends := h.write (settled lt) d
    rw [same] at kept ends
    refine ⟨kept, fun _ some => ?_⟩
    obtain ⟨r, -, write⟩ | ⟨none, -⟩ := ends
    · rw [write]
    · exact absurd (Finset.card_eq_zero.2 none) some
  · rw [ftlWrite, dif_neg lt]
    exact ⟨h, fun inside => absurd inside lt⟩

/-- The step lemma. -/
theorem Counted.pageCall {s : FTL × FTLExtended} (h : Counted s.1) {call : PageCall} (ready : PageReady s call) :
    ∃ s', Storage.pageCall s call = some s' ∧ Counted s'.1 := by
  cases call with
  | write lba data => exact ⟨_, rfl, (h.write_lba ready data).1⟩
  | trim lba => exact ⟨_, rfl, h.trim ready⟩
  | allocateBlock startLba numPages =>
    obtain ⟨ret, same⟩ | ⟨phys, lbas, backed, free, run⟩ := ftl_allocate_outcome s.1 ready
    · refine ⟨(s.1, s.2), ?_, h⟩
      rw [Storage.pageCall, same]
      rfl
    · obtain ⟨f', all, counted⟩ := h.allocate_run lbas backed free
      refine ⟨(f', s.2), ?_, counted⟩
      rw [Storage.pageCall, run, all]
      rfl
  | bufferWrite lba data =>
    rw [PageReady] at ready
    by_cases direct : s.2.Direct
    · rw [if_pos direct] at ready
      have counted := (h.write_lba ready data).1
      by_cases lt : lba.toNat < ftlMaxLbas
      · have same : UInt32.ofNat (⟨lba.toNat, lt⟩ : Lba).val = lba := UInt32.ofNat_toNat
        refine ⟨_, dif_pos lt, ?_⟩
        rw [ftlSlcBufferWrite, if_pos direct, same]
        exact counted
      · exact ⟨_, (dif_neg lt).trans (if_pos direct), counted⟩
    · rw [if_neg direct] at ready
      refine ⟨_, dif_pos ready.1, ?_⟩
      rw [ftlSlcBufferWrite, if_neg direct]
      split
      · exact h
      · rename_i r page
        exact h.bufferPage (ready.2 r page) _ data
  | bufferFlush => exact ⟨_, rfl, h.flush ready⟩
  | gcTrigger gc => exact ⟨_, rfl, h.trigger ready⟩

/-- **`free_pages` counts the FREE pages as long as every call finds them in order.** The search loop
ends in every state, and in every run whose calls meet `PageReady` every call changes `free_pages` as
it changes the number of FREE pages, and a write succeeds if there is one. -/
theorem ftl_free_pages_exact (mode : FTLMappingMode) (enabled : Bool) (calls : List PageCall)
    (ready : Guarded pageStep (fun s call => ∀ x, s = some x → PageReady x call) (pageInit mode enabled) calls) :
    (∀ f wp, ∃ n, searchFor f n wp = some (nextFree f wp)) ∧
      Guarded pageStep FreeExact (pageInit mode enabled) calls := by
  constructor
  · intro f wp
    exact ⟨_, search_ends f wp (Nat.lt_succ_self _)⟩
  · refine guarded_mono (fun s => ∃ x, s = some x ∧ Counted x.1) ?_ ⟨_, rfl, Counted.init mode⟩ ready
    rintro _ call ⟨x, rfl, counted⟩ ready
    have ready := ready x rfl
    obtain ⟨x', result, counted'⟩ := counted.pageCall ready
    refine ⟨⟨x, x', rfl, result, ?_, ?_⟩, x', result, counted'⟩
    · have := counted.count
      have := counted'.count
      omega
    · cases call with
      | write lba data => exact (counted.write_lba ready data).2
      | _ => trivial

/-- A buffered write, a write, a flush, an allocation and a collection of a new device. -/
theorem ftl_free_pages_exact_flush :
    (∀ f wp, ∃ n, searchFor f n wp = some (nextFree f wp)) ∧
      Guarded pageStep FreeExact (pageInit .pageLevel true)
        [.bufferWrite 0 zeroPage, .write 1 zeroPage, .bufferFlush, .allocateBlock 5 3, .gcTrigger (gcInit .greedy 7 0)] := by
  have counted : Counted (bufferPage (ftlInit .pageLevel) firstPage 0 zeroPage) :=
    (Counted.init .pageLevel).bufferPage rfl 0 zeroPage
  have settled : Settled (bufferPage (ftlInit .pageLevel) firstPage 0 zeroPage) 1 := by
    intro q mapped
    change Function.update (ftlInit .pageLevel).mappingTable 0 (some firstPage.phys) 1 = _ at mapped
    rw [Function.update_of_ne (by decide)] at mapped
    cases mapped
  have entry : Rewritable (bufferPage (ftlInit .pageLevel) firstPage 0 zeroPage) (0, 0) := by
    intro r q page _ mapped
    obtain rfl : r = firstPage := PageRef.index_inj.1 (get_physical_page_eq_some.1 page)
    change Function.update (ftlInit .pageLevel).mappingTable 0 (some firstPage.phys) 0 = _ at mapped
    rw [Function.update_self] at mapped
    exact .inl (PageRef.phys_inj.1 (Option.some.inj mapped)).symm
  refine ftl_free_pages_exact .pageLevel true _ ⟨?_, ?_, ?_, ?_, ?_, trivial⟩
  · rintro x eq
    obtain rfl := Option.some.inj eq
    refine ⟨by decide, fun r _ => rfl⟩
  · rintro x eq
    obtain rfl := Option.some.inj eq
    exact fun _ => settled
  · rintro x eq
    obtain rfl := Option.some.inj eq
    intro e mem
    obtain rfl := List.mem_singleton.1 mem
    exact (counted.write_keeps settled zeroPage).2.rewritable entry
  · rintro x eq _ _
    decide
  · rintro x eq victim collects
    have needs : (freeNeeded (gcInit .greedy 7 0)).toNat = 0 := by decide
    rw [gcVictim, needs, if_pos (Nat.zero_le _)] at collects
    cases collects

/-- The buffer takes page 0 again, and the counter goes down. -/
theorem ftl_free_pages_drifts :
    ¬ ∀ mode enabled calls, Guarded pageStep FreeExact (pageInit mode enabled) calls := by
  intro all
  obtain ⟨-, ⟨x, x', before, result, counts, -⟩, -⟩ := all .pageLevel true [.write 0 zeroPage, .bufferWrite 1 zeroPage]
  have unmapped : Settled (ftlInit .pageLevel) 0 := by
    intro q mapped
    cases mapped
  obtain ⟨r, lands, write⟩ | ⟨none, -⟩ := (Counted.init .pageLevel).write unmapped zeroPage
  · obtain rfl : r = firstPage := by
      by_contra ne
      refine lands.first firstPage (Nat.zero_le _) (Nat.pos_of_ne_zero fun zero => ne ?_) rfl
      exact PageRef.index_inj.1 zero
    have counted := (Counted.init .pageLevel).written unmapped lands zeroPage
    have taken : x = (written (ftlInit .pageLevel) firstPage 0 zeroPage, ftlSlcBufferInit) := by
      have state := Option.some.inj before
      rw [← state]
      exact congrArg (fun w : Int × FTL => (w.2, ftlSlcBufferInit)) write
    obtain rfl : x' = (bufferPage (written (ftlInit .pageLevel) firstPage 0 zeroPage) firstPage 1 zeroPage, ⟨[1], true⟩) := by
      rw [taken] at result
      exact (Option.some.inj result).symm
    have same : freeCount (bufferPage (written (ftlInit .pageLevel) firstPage 0 zeroPage) firstPage 1 zeroPage) =
        freeCount (written (ftlInit .pageLevel) firstPage 0 zeroPage) := by
      unfold freeCount
      rw [freeSet_congr]
      intro q
      rw [page_bufferPage]
      split
      case isTrue eq =>
        rw [eq, written, GcInv.state_programmed, if_pos rfl]
      case isFalse => exact Iff.rfl
    have less := counted.sub_one
    rw [taken, same, Int.sub_self] at counts
    change ((written (ftlInit .pageLevel) firstPage 0 zeroPage).freePages - 1).toNat -
      ((written (ftlInit .pageLevel) firstPage 0 zeroPage).freePages.toNat : Int) = 0 at counts
    omega
  · have mem := mem_freeSet.2 (show ((ftlInit .pageLevel).page firstPage).state = .free from rfl)
    rw [none] at mem
    exact Finset.notMem_empty _ mem

end MiniHardware.Storage
