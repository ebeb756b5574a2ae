import MiniHardware.Storage.GcRoom

/-!
# The SLC write buffer (`mini-storage-hardware/src/ftl.c`)

`ftl_slc_buffer_write` puts data into the page whose number is the count of
buffered writes, maps the LBA to it, and notes the LBA. The pages are those
`ftl_write` programs, too, and the page an LBA had before stays VALID. A flush
sends every VALID buffered page through `ftl_write`, for the LBA noted, and
makes it INVALID whether the write succeeded or not.
-/

namespace MiniHardware.Storage
open Lib

/-- `FTL_SLC_BUFFER_PAGES`. -/
abbrev ftlSlcBufferPages : Nat := 1024

/-- `slc_pages` up to `slc_count`; what is behind it is never read. -/
structure FTLExtended where
  slcPages : List Lba
  slcEnabled : Bool

def FTLExtended.slcCount (ext : FTLExtended) : Nat := ext.slcPages.length

def ftlSlcBufferInit : FTLExtended := ⟨[], true⟩

/-- The static variable before `ftl_slc_buffer_init`. -/
def ftlSlcBufferOff : FTLExtended := ⟨[], false⟩

/-- `setPage` with the tail of `ftl_slc_buffer_write`; the reverse map and the pointer stay. -/
def bufferPage (f : FTL) (r : PageRef) (lba : Lba) (data : PageData) : FTL :=
  let f := f.setPage r { f.page r with data := data, state := .valid, type := .lower }
  { f with
    mappingTable := Function.update f.mappingTable lba (some r.phys)
    freePages := f.freePages - 1
    stats := { f.stats with writes := f.stats.writes + 1, hostWrites := f.stats.hostWrites + 1 } }

/-- The LBA is not checked, so it has to be one. -/
def ftlSlcBufferWrite (f : FTL) (ext : FTLExtended) (lba : Lba) (data : PageData) : Int × FTL × FTLExtended :=
  if ext.slcEnabled = false ∨ ext.slcCount ≥ ftlSlcBufferPages then
    let (ret, f) := ftlWrite f (UInt32.ofNat lba.val) data
    (ret, f, ext)
  else
    match getPhysicalPage ext.slcCount with
    | none => (-1, f, ext)
    | some r => (0, bufferPage f r lba data, { ext with slcPages := ext.slcPages ++ [lba] })

/-- The loop body of `ftl_slc_buffer_flush`: the count so far, the FTL, and the next entry with its index. -/
def flushPage (s : Nat × FTL) (entry : Lba × Nat) : Nat × FTL :=
  match getPhysicalPage entry.2 with
  | none => s
  | some r =>
    let slcPage := s.2.page r
    if slcPage.state ≠ .valid then s
    else
      let f := (ftlWrite s.2 (UInt32.ofNat entry.1.val) slcPage.data).2
      (s.1 + 1, f.setPage r { f.page r with state := .invalid })

def ftlSlcBufferFlush (f : FTL) (ext : FTLExtended) : Int × FTL × FTLExtended :=
  let (flushed, f) := ext.slcPages.zipIdx.foldl flushPage (0, f)
  (flushed, f, { ext with slcPages := [] })

/-! ## Runs -/

inductive SlcOp where
  | write (lba : Lba) (data : PageData)
  | bufferWrite (lba : Lba) (data : PageData)
  | flush
  | read (lba : Lba)

/-- The FTL, the buffer, and the last successful write to each LBA. -/
structure SlcState where
  ftl : FTL
  ext : FTLExtended
  last : Lba → PageData

/-- A write counts if it returned 0. -/
def lastWrite (last : Lba → PageData) (lba : Lba) (data : PageData) (ret : Int) : Lba → PageData :=
  if ret = 0 then Function.update last lba data else last

def slcStep (s : SlcState) : SlcOp → SlcState
  | .write lba data =>
    let (ret, f) := ftlWrite s.ftl (UInt32.ofNat lba.val) data
    ⟨f, s.ext, lastWrite s.last lba data ret⟩
  | .bufferWrite lba data =>
    let (ret, f, ext) := ftlSlcBufferWrite s.ftl s.ext lba data
    ⟨f, ext, lastWrite s.last lba data ret⟩
  | .flush =>
    let (_, f, ext) := ftlSlcBufferFlush s.ftl s.ext
    ⟨f, ext, s.last⟩
  | .read lba => { s with ftl := (ftlRead s.ftl (UInt32.ofNat lba.val)).2 }

/-- A new device reads zeros; `ftl_slc_buffer_init` may or may not have been called. -/
def slcInit (mode : FTLMappingMode) (enabled : Bool) : SlcState :=
  ⟨ftlInit mode, if enabled then ftlSlcBufferInit else ftlSlcBufferOff, fun _ => zeroPage⟩

/-! ## What a call needs -/

/-- The page of the entry is VALID, so a flush writes it. -/
def pending (f : FTL) (entry : Lba × Nat) : Bool :=
  (getPhysicalPage entry.2).elim false fun r => (f.page r).state = .valid

/-- A write to an LBA that has a page finds another. -/
def WriteKeeps (f : FTL) (lba : Lba) : Prop := f.mappingTable lba ≠ none → WriteFits f

/-- No entry that will be written is superseded, and there is room for all of them. -/
structure FlushKeeps (f : FTL) (entries : List (Lba × Nat)) : Prop where
  current : ∀ entry ∈ entries, ∀ r, getPhysicalPage entry.2 = some r → (f.page r).state = .valid →
    f.mappingTable entry.1 = some r.phys
  count : entries.countP (pending f) ≤ f.freePages.toNat
  room : entries.countP (pending f) ≤ (freeAhead f).card

def SlcKeeps (s : SlcState) : SlcOp → Prop
  | .write lba _ => WriteKeeps s.ftl lba
  | .bufferWrite lba _ =>
    if s.ext.slcEnabled = false ∨ s.ext.slcCount ≥ ftlSlcBufferPages then WriteKeeps s.ftl lba
    else ∀ k r, k ≠ lba → getPhysicalPage s.ext.slcCount = some r → s.ftl.mappingTable k ≠ some r.phys
  | .flush => FlushKeeps s.ftl s.ext.slcPages.zipIdx
  | .read _ => True

/-! ## The flush -/

theorem pending_iff {f : FTL} {entry : Lba × Nat} :
    pending f entry ↔ ∃ r, getPhysicalPage entry.2 = some r ∧ (f.page r).state = .valid := by
  rw [pending]
  cases getPhysicalPage entry.2 with
  | none => simp
  | some r => simp

theorem FTL.setPage_page (f : FTL) (r : PageRef) : f.setPage r (f.page r) = f := by
  simp only [setPage, setBlock, page, block, Function.update_eq_self]

/-- The loop is before these entries and has changed no read. -/
structure Flushing (f : FTL) (entries : List (Lba × Nat)) : Prop where
  inv : FtlInv f
  used : ∀ entry ∈ entries, ∀ r, getPhysicalPage entry.2 = some r → (f.page r).state ≠ .free
  nodup : (entries.map Prod.snd).Nodup
  keeps : FlushKeeps f entries

/-- An entry that is not pending is skipped. -/
theorem flushPage_skip {f : FTL} {entry : Lba × Nat} (skip : ¬ pending f entry) (n : Nat) :
    flushPage (n, f) entry = (n, f) := by
  rw [flushPage]
  split
  · rfl
  · rename_i r page
    exact if_pos fun valid => skip (pending_iff.2 ⟨r, page, valid⟩)

/-- An entry that is pending and current moves to where the write lands. -/
theorem flushPage_moves {f : FTL} (inv : FtlInv f) (fits : WriteFits f) {entry : Lba × Nat} {r : PageRef}
    (page : getPhysicalPage entry.2 = some r) (valid : (f.page r).state = .valid)
    (current : f.mappingTable entry.1 = some r.phys) (n : Nat) :
    ∃ r', Lands f r' ∧ flushPage (n, f) entry = (n + 1, written f r' entry.1 (f.page r).data) := by
  obtain ⟨r', lands, write⟩ := inv.write_lba fits entry.1 (f.page r).data
  refine ⟨r', lands, ?_⟩
  have ne : r ≠ r' := by
    rintro rfl
    rw [lands.free] at valid
    cases valid
  have stale : ((written f r' entry.1 (f.page r).data).page r).state = .invalid := by
    rw [written, GcInv.state_programmed, if_neg ne, if_pos current]
  have same : { (written f r' entry.1 (f.page r).data).page r with state := .invalid } =
      (written f r' entry.1 (f.page r).data).page r := by
    rw [← stale]
  simp only [flushPage, page, valid, write, same, FTL.setPage_page]
  rfl

/-- The state of a page after a write: VALID where it landed, and no page is FREE that was not. -/
theorem state_written {f : FTL} {r r' : PageRef} {l : Lba} {d : PageData} (lands : Lands f r')
    (used : (f.page r).state ≠ .free) :
    ((written f r' l d).page r).state ≠ .free ∧
      (((written f r' l d).page r).state = .valid → (f.page r).state = .valid ∧ f.mappingTable l ≠ some r.phys) := by
  have ne : r ≠ r' := by
    rintro rfl
    exact used lands.free
  rw [written, GcInv.state_programmed, if_neg ne]
  split
  · exact ⟨by decide, fun h => by cases h⟩
  · exact ⟨used, fun h => ⟨h, ‹_›⟩⟩

theorem Flushing.tail {f : FTL} {entry : Lba × Nat} {rest : List (Lba × Nat)}
    (h : Flushing f (entry :: rest)) : Flushing f rest where
  inv := h.inv
  used e mem := h.used e (List.mem_cons_of_mem _ mem)
  nodup := (List.nodup_cons.1 h.nodup).2
  keeps :=
    { current := fun e mem => h.keeps.current e (List.mem_cons_of_mem _ mem)
      count := ((List.sublist_cons_self entry rest).countP_le).trans h.keeps.count
      room := ((List.sublist_cons_self entry rest).countP_le).trans h.keeps.room }

/-- After a move the other entries are as they were. -/
theorem Flushing.moved {f : FTL} {entry : Lba × Nat} {rest : List (Lba × Nat)} (h : Flushing f (entry :: rest))
    (hit : pending f entry) {r r' : PageRef} (page : getPhysicalPage entry.2 = some r)
    (own : f.mappingTable entry.1 = some r.phys) (fits : WriteFits f) (lands : Lands f r') (d : PageData) :
    Flushing (written f r' entry.1 d) rest := by
  have used := h.tail.used
  have before : ∀ e ∈ rest, ∀ q, getPhysicalPage e.2 = some q → ((written f r' entry.1 d).page q).state = .valid →
      (f.page q).state = .valid := by
    intro e mem q hq valid
    exact ((state_written lands (used e mem q hq)).2 valid).1
  have fewer : rest.countP (pending (written f r' entry.1 d)) ≤ rest.countP (pending f) := by
    refine List.countP_mono_left fun e mem hit => ?_
    obtain ⟨q, hq, valid⟩ := pending_iff.1 hit
    exact pending_iff.2 ⟨q, hq, before e mem q hq valid⟩
  have count := h.keeps.count
  have room := h.keeps.room
  rw [List.countP_cons_of_pos hit] at count room
  refine ⟨h.inv.written lands _ d, ?_, h.tail.nodup, ?_, ?_, ?_⟩
  · intro e mem q hq
    exact (state_written lands (used e mem q hq)).1
  · intro e mem q hq valid
    have mapped := h.tail.keeps.current e mem q hq (before e mem q hq valid)
    have ne : e.1 ≠ entry.1 := by
      intro same
      rw [same, own, Option.some.injEq, PageRef.phys_inj] at mapped
      have index : e.2 = entry.2 := by
        rw [← get_physical_page_eq_some.1 hq, ← get_physical_page_eq_some.1 page, mapped]
      exact (List.nodup_cons.1 h.nodup).1 (index ▸ List.mem_map_of_mem mem)
    rw [written_mappingTable, Function.update_of_ne ne, mapped]
  · have := freePages_written fits.1 r' entry.1 d
    omega
  · rw [h.inv.freeAhead_written lands, Finset.card_erase_of_mem (mem_freeAhead.2 ⟨lands.ahead, lands.free⟩)]
    omega

/-- One round. -/
theorem Flushing.step {f : FTL} {entry : Lba × Nat} {rest : List (Lba × Nat)} (h : Flushing f (entry :: rest))
    (n : Nat) :
    Flushing (flushPage (n, f) entry).2 rest ∧
      ∀ k, (flushPage (n, f) entry).2.remap.read zeroPage k = f.remap.read zeroPage k := by
  by_cases hit : pending f entry
  · obtain ⟨r, page, valid⟩ := pending_iff.1 hit
    have own := h.keeps.current entry List.mem_cons_self r page valid
    have fits : WriteFits f := by
      have count := h.keeps.count
      have room := h.keeps.room
      rw [List.countP_cons_of_pos hit] at count room
      constructor
      · intro zero
        rw [zero] at count
        exact absurd count (Nat.not_succ_le_zero _)
      · exact Finset.card_pos.1 (Nat.lt_of_lt_of_le (Nat.succ_pos _) room)
    obtain ⟨r', lands, moves⟩ := flushPage_moves h.inv fits page valid own n
    rw [moves]
    exact ⟨h.moved hit page own fits lands _, h.inv.read_written lands own valid⟩
  · rw [flushPage_skip hit]
    exact ⟨h.tail, fun k => rfl⟩

/-- All rounds. -/
theorem Flushing.run {f : FTL} {entries : List (Lba × Nat)} (h : Flushing f entries) (n : Nat) :
    FtlInv (entries.foldl flushPage (n, f)).2 ∧
      ∀ k, (entries.foldl flushPage (n, f)).2.remap.read zeroPage k = f.remap.read zeroPage k := by
  induction entries generalizing f n with
  | nil => exact ⟨h.inv, fun _ => rfl⟩
  | cons entry rest ih =>
    obtain ⟨next, same⟩ := h.step n
    obtain ⟨inv, all⟩ := ih next (flushPage (n, f) entry).1
    exact ⟨inv, fun k => (all k).trans (same k)⟩

/-! ## Every call -/

/-- Every LBA reads its last write, from a page of its own, and the buffered pages are in use. -/
structure SlcInv (s : SlcState) : Prop where
  ftl : FtlInv s.ftl
  reads : ∀ l, s.ftl.remap.read zeroPage l = some (s.last l)
  buffered : ∀ r : PageRef, r.index < s.ext.slcCount → (s.ftl.page r).state ≠ .free

theorem slc_inv_init (mode : FTLMappingMode) (enabled : Bool) : SlcInv (slcInit mode enabled) where
  ftl := ftl_inv_init mode
  reads _ := rfl
  buffered r lt := by
    cases enabled with
    | true => exact absurd lt (Nat.not_lt_zero _)
    | false => exact absurd lt (Nat.not_lt_zero _)

theorem lastWrite_ok (last : Lba → PageData) (lba : Lba) (data : PageData) (l : Lba) :
    some (lastWrite last lba data 0 l) = if l = lba then some data else some (last l) := by
  rw [lastWrite, if_pos rfl, Function.update_apply, apply_ite some]

/-- A write that does not lose the page it replaces. -/
theorem SlcInv.write {s : SlcState} (inv : SlcInv s) {lba : Lba} (keeps : WriteKeeps s.ftl lba) (data : PageData) :
    SlcInv ⟨(ftlWrite s.ftl (UInt32.ofNat lba.val) data).2, s.ext,
      lastWrite s.last lba data (ftlWrite s.ftl (UInt32.ofNat lba.val) data).1⟩ := by
  by_cases fits : WriteFits s.ftl
  · obtain ⟨r, lands, write⟩ := inv.ftl.write_lba fits lba data
    rw [write]
    refine ⟨inv.ftl.written lands lba data, fun l => ?_, fun q lt => (state_written lands (inv.buffered q lt)).1⟩
    rw [lastWrite_ok, inv.ftl.read_write lands, inv.reads]
  · have fresh : s.ftl.mappingTable lba = none := by
      by_contra mapped
      exact fits (keeps mapped)
    have hl : (UInt32.ofNat lba.val).toNat < ftlMaxLbas := (lba_toNat lba).symm ▸ lba.isLt
    have el : (⟨_, hl⟩ : Lba) = lba := Fin.ext (lba_toNat lba)
    rw [← el] at fresh
    obtain ⟨fails, wp, -, same⟩ := write_unmapped fits fresh data
    rw [same, lastWrite, if_neg fails]
    exact ⟨inv.ftl.setWritePointer wp, inv.reads, inv.buffered⟩

theorem page_bufferPage (f : FTL) (r : PageRef) (lba : Lba) (data : PageData) (q : PageRef) :
    (bufferPage f r lba data).page q =
      if q = r then { f.page r with data := data, state := .valid, type := .lower } else f.page q :=
  FTL.page_setPage _ _ _ _

theorem remap_bufferPage (f : FTL) (r : PageRef) (lba : Lba) (data : PageData) :
    (bufferPage f r lba data).remap = f.remap.write lba r.phys data :=
  FTL.remap_write _ rfl rfl (page_bufferPage f r lba data)

/-- Buffering a write maps the LBA to a page no other LBA has. -/
theorem SlcInv.bufferPage {s : SlcState} (inv : SlcInv s) {lba : Lba} {r : PageRef}
    (next : r.index = s.ext.slcCount) (apart : ∀ k, k ≠ lba → s.ftl.mappingTable k ≠ some r.phys) (data : PageData) :
    SlcInv ⟨bufferPage s.ftl r lba data, { s.ext with slcPages := s.ext.slcPages ++ [lba] },
      lastWrite s.last lba data 0⟩ := by
  refine ⟨⟨?_, fun l q mapped => ?_⟩, fun l => ?_, fun q lt => ?_⟩
  · rw [remap_bufferPage]
    exact inv.ftl.separate.write apart
  · rw [page_bufferPage]
    split
    · exact fun h => by cases h
    · rename_i ne
      have elsewhere : l ≠ lba := by
        rintro rfl
        rw [show (Storage.bufferPage s.ftl r l data).mappingTable l = some r.phys from Function.update_self ..,
          Option.some.injEq, PageRef.phys_inj] at mapped
        exact ne mapped.symm
      exact inv.ftl.used l q ((Function.update_of_ne elsewhere ..).symm.trans mapped)
  · rw [lastWrite_ok, remap_bufferPage]
    split
    case isTrue own => rw [own, Remap.read_write_same]
    case isFalse other => rw [Remap.read_write_other (apart l other) other, inv.reads]
  · rw [page_bufferPage]
    split
    · exact fun h => by cases h
    · rename_i ne
      have other : q.index ≠ r.index := fun same => ne (PageRef.index_inj.1 same)
      rw [FTLExtended.slcCount, List.length_append, List.length_singleton] at lt
      apply inv.buffered
      rw [FTLExtended.slcCount] at next ⊢
      omega

theorem slc_inv_step (s : SlcState) (op : SlcOp) (inv : SlcInv s) (keeps : SlcKeeps s op) :
    SlcInv (slcStep s op) := by
  cases op with
  | write lba data => exact inv.write keeps data
  | bufferWrite lba data =>
    simp only [slcStep, ftlSlcBufferWrite]
    by_cases direct : s.ext.slcEnabled = false ∨ s.ext.slcCount ≥ ftlSlcBufferPages
    · simp only [SlcKeeps, if_pos direct] at keeps
      rw [if_pos direct]
      exact inv.write keeps data
    · simp only [SlcKeeps, if_neg direct] at keeps
      rw [if_neg direct]
      split
      · exact inv
      · rename_i r page
        exact inv.bufferPage (get_physical_page_eq_some.1 page) (fun k ne => keeps k r ne page) data
  | flush =>
    have loop : Flushing s.ftl s.ext.slcPages.zipIdx := by
      refine ⟨inv.ftl, fun entry mem r page => ?_, ?_, keeps⟩
      · apply inv.buffered
        rw [get_physical_page_eq_some.1 page]
        exact List.snd_lt_of_mem_zipIdx mem
      · rw [List.zipIdx_map_snd]
        exact List.nodup_range'
    obtain ⟨ftl, same⟩ := loop.run 0
    refine ⟨ftl, fun l => (same l).trans (inv.reads l), fun r lt => ?_⟩
    exact absurd lt (Nat.not_lt_zero _)
  | read lba =>
    obtain ⟨stats, read⟩ := ftl_read_state s.ftl (UInt32.ofNat lba.val)
    simp only [slcStep, read]
    exact ⟨⟨inv.ftl.separate, inv.ftl.used⟩, inv.reads, inv.buffered⟩

/-- `ftl_read` of every LBA returns the data of the last successful write to it. -/
def ReadsLast (s : SlcState) : Prop :=
  ∀ lba : Lba, (ftlRead s.ftl (UInt32.ofNat lba.val)).1 = some (s.last lba)

theorem readsLast_iff {s : SlcState} :
    ReadsLast s ↔ ∀ l, s.ftl.remap.read zeroPage l = some (s.last l) := by
  refine forall_congr' fun lba => ?_
  have hl : (UInt32.ofNat lba.val).toNat < ftlMaxLbas := (lba_toNat lba).symm ▸ lba.isLt
  have el : (⟨_, hl⟩ : Lba) = lba := Fin.ext (lba_toNat lba)
  rw [ftl_read_eq _ _ hl, el]

/-- **Both write paths keep the data, as long as no call reuses, reverts or drops a page.** In every
state of a run whose calls meet `SlcKeeps`, every LBA reads its last successful write. -/
theorem slc_buffer_reads_last_write (mode : FTLMappingMode) (enabled : Bool) (ops : List SlcOp)
    (keeps : Guarded slcStep SlcKeeps (slcInit mode enabled) ops) (before rest : List SlcOp)
    (reached : ops = before ++ rest) : ReadsLast (run slcStep (slcInit mode enabled) before) := by
  rw [reached, guarded_append] at keeps
  exact readsLast_iff.2 (guarded_invariant slc_inv_step (slc_inv_init mode enabled) keeps.1).reads

/-- A page of a new device. -/
theorem mem_freeAhead_init (mode : FTLMappingMode) (r : PageRef) : r ∈ freeAhead (ftlInit mode) :=
  mem_freeAhead.2 ⟨Nat.zero_le _, rfl⟩

/-- Pages 0 and 1. -/
def firstPage : PageRef := ⟨⟨0, 0⟩, 0⟩

def secondPage : PageRef := ⟨⟨0, 0⟩, 1⟩

/-- One buffered write may be flushed. -/
theorem flush_keeps_first (mode : FTLMappingMode) (lba : Lba) (data : PageData) :
    FlushKeeps (bufferPage (ftlInit mode) firstPage lba data) [(lba, 0)] := by
  have one := List.countP_le_length (p := pending (bufferPage (ftlInit mode) firstPage lba data)) (l := [(lba, 0)])
  refine ⟨fun entry mem r page _ => ?_, ?_, ?_⟩
  · obtain rfl := List.mem_singleton.1 mem
    obtain rfl : r = firstPage := PageRef.index_inj.1 (get_physical_page_eq_some.1 page)
    exact Function.update_self ..
  · have left : 1 ≤ (UInt32.ofNat ftlMaxPhysicalPages - 1).toNat := by decide
    exact one.trans left
  · refine one.trans (Finset.card_pos.2 ⟨secondPage, mem_freeAhead.2 ⟨Nat.zero_le _, ?_⟩⟩)
    rw [page_bufferPage, if_neg (by decide)]
    rfl

/-- On a new device no other LBA has the page. -/
theorem buffer_keeps_init (mode : FTLMappingMode) (lba : Lba) (data : PageData) :
    SlcKeeps (slcInit mode true) (.bufferWrite lba data) := by
  have buffers : ¬((slcInit mode true).ext.slcEnabled = false ∨ (slcInit mode true).ext.slcCount ≥ ftlSlcBufferPages) :=
    show ¬(true = false ∨ 0 ≥ ftlSlcBufferPages) by decide
  rw [SlcKeeps, if_neg buffers]
  intro k r _ _ mapped
  cases mapped

theorem slc_buffer_reads_last_write_flush :
    ReadsLast (run slcStep (slcInit .pageLevel true) [.bufferWrite 0 patternPage, .flush]) :=
  slc_buffer_reads_last_write .pageLevel true [.bufferWrite 0 patternPage, .flush]
    ⟨buffer_keeps_init .pageLevel 0 patternPage, flush_keeps_first .pageLevel 0 patternPage, trivial⟩ _ [] rfl

/-- A write goes to page 0, and so does the first buffered one. -/
theorem slc_buffer_overwrites :
    ¬ ∀ mode enabled (ops : List SlcOp), ReadsLast (run slcStep (slcInit mode enabled) ops) := by
  intro all
  have read := readsLast_iff.1 (all .pageLevel true [.write 0 patternPage, .bufferWrite 1 zeroPage]) 0
  obtain ⟨r, lands, write⟩ := (ftl_inv_init .pageLevel).write_lba
    ⟨by decide, firstPage, mem_freeAhead_init .pageLevel firstPage⟩ 0 patternPage
  obtain rfl : r = firstPage := by
    by_contra ne
    refine lands.first firstPage (Nat.zero_le _) (Nat.pos_of_ne_zero fun zero => ne ?_) rfl
    exact PageRef.index_inj.1 zero
  have state : run slcStep (slcInit .pageLevel true) [.write 0 patternPage, .bufferWrite 1 zeroPage] =
      ⟨bufferPage (written (ftlInit .pageLevel) firstPage 0 patternPage) firstPage 1 zeroPage, ⟨[1], true⟩,
        lastWrite (lastWrite (fun _ => zeroPage) 0 patternPage 0) 1 zeroPage 0⟩ := by
    simp only [run_cons, run_nil, slcStep, slcInit]
    rw [write]
    rfl
  have mapped : ((written (ftlInit .pageLevel) firstPage 0 patternPage).remap.write 1 firstPage.phys zeroPage).fwd 0 =
      some firstPage.phys := by
    show Function.update (written (ftlInit .pageLevel) firstPage 0 patternPage).mappingTable 1 (some firstPage.phys) 0 = _
    rw [Function.update_of_ne (by decide), written_mappingTable, Function.update_self]
  have stored : ((written (ftlInit .pageLevel) firstPage 0 patternPage).remap.write 1 firstPage.phys zeroPage).cell
      firstPage.phys = some zeroPage := by simp only [Remap.write, Function.update_self]
  rw [state, remap_bufferPage, Remap.read_of_fwd mapped, stored] at read
  have same : zeroPage = patternPage := Option.some.inj read
  have byte := congrArg (fun page : PageData => page[0]) same
  rw [zeroPage, patternPage, Vector.getElem_replicate, Vector.getElem_replicate] at byte
  cases byte

end MiniHardware.Storage
