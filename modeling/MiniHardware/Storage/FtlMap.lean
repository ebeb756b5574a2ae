import MiniHardware.Lib.Remap
import MiniHardware.Lib.Trace
import MiniHardware.Storage.Ftl

/-!
# The translation layer as an out-of-place store

`FTL.remap` forgets everything of the FTL but the forward map and the readable
pages. On it `ftl_write` hides the old page and redirects the LBA to an unused
one, so over any run of writes, trims and reads an LBA reads what was written
to it last (`ftl_read_last_write`), whatever happened to the others.
-/

namespace MiniHardware.Storage
open Lib

/-! ## What the operations do to a page and to the tables -/

namespace FTL

/-- Retiring a page marks its cell and leaves the others. -/
theorem page_retirePage (f : FTL) (p : PhysPage) (r : PageRef) :
    (retirePage f p).page r =
      if r.phys = p then { f.page r with state := .invalid } else f.page r := by
  unfold retirePage
  cases h : getPhysicalPage p with
  | none =>
    have : r.phys ≠ p := by
      rintro rfl
      rw [show (r.phys.val) = r.index from rfl, get_physical_page_index] at h
      cases h
    simp [this]; rfl
  | some r' =>
    have hp : r'.phys = p := Fin.ext (get_physical_page_eq_some.1 h)
    show (f.setPage r' _).page r = _
    subst hp
    rw [page_setPage]
    simp only [PageRef.phys_inj]
    split <;> simp_all

/-- The mapping of an LBA is not what retires. -/
@[simp] theorem retirePage_mappingTable (f : FTL) (p : PhysPage) :
    (retirePage f p).mappingTable = f.mappingTable := by
  unfold retirePage; split <;> rfl
@[simp] theorem retirePage_writePointer (f : FTL) (p : PhysPage) :
    (retirePage f p).writePointer = f.writePointer := by
  unfold retirePage; split <;> rfl
@[simp] theorem retirePage_freePages (f : FTL) (p : PhysPage) :
    (retirePage f p).freePages = f.freePages := by
  unfold retirePage; split <;> rfl
/-- The reverse entry of a retired page goes. -/
theorem retirePage_reverseMap (f : FTL) (p : PhysPage) :
    (retirePage f p).reverseMap = Function.update f.reverseMap p none := by
  unfold retirePage; split <;> rfl

/-- A write retires before it maps. -/
@[simp] theorem retireOld_mappingTable (f : FTL) (l : Lba) :
    (retireOld f l).mappingTable = f.mappingTable := by
  unfold retireOld; split <;> simp
@[simp] theorem retireOld_writePointer (f : FTL) (l : Lba) :
    (retireOld f l).writePointer = f.writePointer := by
  unfold retireOld; split <;> simp
@[simp] theorem retireOld_freePages (f : FTL) (l : Lba) :
    (retireOld f l).freePages = f.freePages := by
  unfold retireOld; split <;> simp

/-- Retiring pages creates and destroys no FREE page. -/
theorem free_retireOld {f : FTL} {l : Lba} {r : PageRef}
    (mapped : ∀ p, f.mappingTable l = some p → r.phys = p → (f.page r).state ≠ .free) :
    ((retireOld f l).page r).state = .free ↔ (f.page r).state = .free := by
  unfold retireOld
  split
  · rename_i p hp
    rw [page_retirePage]
    split
    · rename_i e
      simp [mapped p hp e]
    · rfl
  · rfl

/-- Changing the state of a block leaves its pages alone. -/
theorem page_setBlock_state (f : FTL) (b : BlockRef) (st : BlockState) (r : PageRef) :
    (f.setBlock b { f.block b with state := st }).page r = f.page r := by
  simp only [page, block_setBlock]
  split
  · rename_i e; rw [e]
  · rfl

/-- The programmed page holds the data and is valid; the others stay. -/
theorem page_programPage {f : FTL} {r : PageRef} (l : Lba) (d : PageData) (r' : PageRef) :
    (programPage f r l d).page r' =
      if r' = r then ⟨f.writePointer, .lower, .valid, d⟩ else f.page r' := by
  rw [← page_setPage]
  unfold programPage
  dsimp only
  split
  · split
    · exact page_setBlock_state _ _ _ _
    · rfl
  · rfl

/-- The LBA is mapped to the page that the pointer was at. -/
theorem programPage_mappingTable (f : FTL) (r : PageRef) (l : Lba) (d : PageData) :
    (programPage f r l d).mappingTable =
      Function.update f.mappingTable l (some f.writePointer) := by
  unfold programPage
  dsimp only
  split <;> try split
  all_goals rfl

/-- That page is entered under the LBA. -/
theorem programPage_reverseMap (f : FTL) (r : PageRef) (l : Lba) (d : PageData) :
    (programPage f r l d).reverseMap =
      Function.update f.reverseMap f.writePointer (some l) := by
  unfold programPage
  dsimp only
  split <;> try split
  all_goals rfl

/-- The pointer goes on by one page. -/
@[simp] theorem programPage_writePointer (f : FTL) (r : PageRef) (l : Lba) (d : PageData) :
    (programPage f r l d).writePointer = f.writePointer + 1 := rfl

/-- Programming takes a page from the count. -/
@[simp] theorem programPage_freePages (f : FTL) (r : PageRef) (l : Lba) (d : PageData) :
    (programPage f r l d).freePages = f.freePages - 1 := by
  unfold programPage
  dsimp only
  split <;> try split
  all_goals rfl

end FTL

/-- The pointer loop stops at the first FREE page from where it starts, or past the
last page when there is none. -/
theorem next_free_spec (f : FTL) (wp : PhysPage) :
    wp.val ≤ (nextFree f wp).val ∧
    (∀ r : PageRef, wp.val ≤ r.index → r.index < (nextFree f wp).val → (f.page r).state ≠ .free) ∧
    ∀ r, getPhysicalPage (nextFree f wp) = some r → (f.page r).state = .free := by
  fun_induction nextFree f wp with
  | case1 wp h =>
    exact ⟨Nat.le_refl _, fun r _ _ => by omega, fun r hr => by rw [h] at hr; cases hr⟩
  | case2 wp r h hfree =>
    refine ⟨Nat.le_refl _, fun r _ _ => by omega, fun r' hr' => ?_⟩
    rw [h] at hr'; cases hr'; exact hfree
  | case3 wp r h hfree ih =>
    have hr : r.index = wp.val := get_physical_page_eq_some.1 h
    have hs := succ_val hr
    obtain ⟨h1, h2, h3⟩ := ih
    refine ⟨by omega, fun r' lo hi => ?_, h3⟩
    rcases Nat.lt_or_ge wp.val r'.index with lt | ge
    · exact h2 r' (by omega) hi
    · have : r' = r := PageRef.index_inj.1 (by omega)
      rw [this]; exact hfree

/-- Everything `ftl_write` can do. -/
inductive WriteOutcome (f : FTL) (lba : UInt32) (data : PageData) : Int × FTL → Prop where
  | outOfRange (h : ftlMaxLbas ≤ lba.toNat) : WriteOutcome f lba data (-1, f)
  | noCount (h : lba.toNat < ftlMaxLbas) (zero : f.freePages = 0) :
      WriteOutcome f lba data (-2, retireOld f ⟨lba.toNat, h⟩)
  | noPage (h : lba.toNat < ftlMaxLbas) (wp : PhysPage) (end_ : 8192 ≤ wp.val)
      (full : ∀ r : PageRef, f.writePointer.val ≤ r.index →
        ((retireOld f ⟨lba.toNat, h⟩).page r).state ≠ .free) :
      WriteOutcome f lba data (-1, { retireOld f ⟨lba.toNat, h⟩ with writePointer := wp })
  | programmed (h : lba.toNat < ftlMaxLbas) (r : PageRef) (count : f.freePages ≠ 0)
      (from_ : f.writePointer.val ≤ r.index)
      (free : ((retireOld f ⟨lba.toNat, h⟩).page r).state = .free)
      (first : ∀ r' : PageRef, f.writePointer.val ≤ r'.index → r'.index < r.index →
        ((retireOld f ⟨lba.toNat, h⟩).page r').state ≠ .free) :
      WriteOutcome f lba data
        (0, programPage { retireOld f ⟨lba.toNat, h⟩ with writePointer := r.phys } r
          ⟨lba.toNat, h⟩ data)

/-- All that a write can do, in the cases of `WriteOutcome`. -/
theorem ftl_write_outcome (f : FTL) (lba : UInt32) (data : PageData) :
    WriteOutcome f lba data (ftlWrite f lba data) := by
  unfold ftlWrite
  by_cases h : lba.toNat < ftlMaxLbas
  · rw [dif_pos h]
    dsimp only
    by_cases hz : (retireOld f ⟨lba.toNat, h⟩).freePages = 0
    · rw [if_pos hz]
      exact .noCount h (by simpa using hz)
    · rw [if_neg hz]
      obtain ⟨h1, h2, h3⟩ := next_free_spec (retireOld f ⟨lba.toNat, h⟩)
        (retireOld f ⟨lba.toNat, h⟩).writePointer
      generalize nextFree _ _ = wp at h1 h2 h3 ⊢
      rw [FTL.retireOld_writePointer] at h1 h2
      split
      · rename_i hn
        have hn := get_physical_page_eq_none.1 hn
        exact .noPage h wp hn fun r lo => h2 r lo (Nat.lt_of_lt_of_le r.index_lt hn)
      · rename_i r hr
        have hi : r.index = wp.val := get_physical_page_eq_some.1 hr
        have hp : wp = r.phys := Fin.ext hi.symm
        subst hp
        exact .programmed h r (by simpa using hz) h1 (h3 r hr) h2
  · rw [dif_neg h]
    exact .outOfRange (Nat.le_of_not_lt h)

/-! ## The abstraction -/

/-- The forward map and the readable pages. -/
def FTL.remap (f : FTL) : Remap Lba PhysPage PageData where
  fwd := f.mappingTable
  cell p := (getPhysicalPage p).bind fun r =>
    if (f.page r).state = .valid then some (f.page r).data else none

/-- A cell of the abstract store is the data of a valid page. -/
theorem FTL.remap_cell (f : FTL) (r : PageRef) :
    f.remap.cell r.phys = if (f.page r).state = .valid then some (f.page r).data else none := by
  show (getPhysicalPage r.index).bind _ = _
  rw [get_physical_page_index]; rfl

/-- `ftl_read` reads the abstract store. -/
theorem ftl_read_eq (f : FTL) (lba : UInt32) (h : lba.toNat < ftlMaxLbas) :
    (ftlRead f lba).1 = f.remap.read zeroPage ⟨lba.toNat, h⟩ := by
  unfold ftlRead
  rw [dif_pos h]
  split
  · rename_i hm
    rw [Remap.read_of_fwd_none hm]
  · rename_i p hm
    rw [Remap.read_of_fwd hm]
    show _ = (getPhysicalPage p).bind _
    split
    · rename_i hp; rw [hp]; rfl
    · rename_i r hp
      rw [hp]
      show _ = if _ then _ else _
      split <;> rfl

/-- A read beyond the last LBA fails and changes nothing. -/
theorem ftl_read_out_of_range (f : FTL) (lba : UInt32) (h : ftlMaxLbas ≤ lba.toNat) :
    ftlRead f lba = (none, f) := by
  rw [ftlRead, dif_neg (Nat.not_lt.2 h)]

/-- `ftl_read` only counts. -/
theorem ftl_read_state (f : FTL) (lba : UInt32) :
    ∃ stats, (ftlRead f lba).2 = { f with stats := stats } := by
  unfold ftlRead
  split
  · split
    · exact ⟨_, rfl⟩
    · split
      · exact ⟨_, rfl⟩
      · split <;> exact ⟨_, rfl⟩
  · exact ⟨_, rfl⟩

/-- Retiring a page hides its cell from the abstract store. -/
theorem FTL.remap_retirePage (f : FTL) (p : PhysPage) :
    (retirePage f p).remap = f.remap.hide p := by
  unfold FTL.remap Remap.hide
  congr 1
  · simp
  · funext q
    rw [Function.update_apply]
    cases hq : getPhysicalPage q with
    | none => simp [hq]
    | some r =>
      have e : r.phys = q := Fin.ext (get_physical_page_eq_some.1 hq)
      simp only [hq, Option.bind_some, FTL.page_retirePage, e]
      split <;> simp

/-- A page that is made VALID and mapped is a write to its cell. -/
theorem FTL.remap_write {f f' : FTL} {r : PageRef} {l : Lba} (pg : FlashPage) (valid : pg.state = .valid)
    (map : f'.mappingTable = Function.update f.mappingTable l (some r.phys))
    (page : ∀ r', f'.page r' = if r' = r then pg else f.page r') :
    f'.remap = f.remap.write l r.phys pg.data := by
  unfold FTL.remap Remap.write
  congr 1
  funext q
  rw [Function.update_apply]
  cases hq : getPhysicalPage q with
  | none =>
    have : q ≠ r.phys := by
      rintro rfl
      rw [show r.phys.val = r.index from rfl, get_physical_page_index] at hq
      cases hq
    simp [this, hq]
  | some r' =>
    have e : r'.phys = q := Fin.ext (get_physical_page_eq_some.1 hq)
    subst e
    simp only [hq, Option.bind_some, page, PageRef.phys_inj]
    by_cases same : r' = r
    · simp only [if_pos same, valid]
      rfl
    · simp only [if_neg same]

/-- Programming a page is an out-of-place write. -/
theorem FTL.remap_programPage (f : FTL) (r : PageRef) (l : Lba) (d : PageData) :
    (programPage { f with writePointer := r.phys } r l d).remap = f.remap.write l r.phys d :=
  FTL.remap_write ⟨r.phys, .lower, .valid, d⟩ rfl (FTL.programPage_mappingTable ..)
    (FTL.page_programPage l d)

/-! ## Runs -/

/-- The host's calls. -/
inductive FtlOp where
  | write (lba : UInt32) (data : PageData)
  | trim (lba : UInt32)
  | read (lba : UInt32)

def FtlOp.lba : FtlOp → UInt32
  | .write lba _ => lba
  | .trim lba => lba
  | .read lba => lba

/-- Return code and new state of a call. -/
def ftlCall (f : FTL) : FtlOp → Int × FTL
  | .write lba data => ftlWrite f lba data
  | .trim lba => ftlTrim f lba
  | .read lba => (if (ftlRead f lba).1.isSome then 0 else -1, (ftlRead f lba).2)

/-- What the return codes so far promise about each LBA: the data of the last write
that returned 0, zeros when never written or trimmed since, and nothing once a
write to it has failed. -/
abbrev HostView := Nat → Option PageData

def HostView.fresh : HostView := fun _ => some zeroPage

def HostView.after (v : HostView) (op : FtlOp) (ret : Int) : HostView :=
  match op with
  | .write lba data => Function.update v lba.toNat (if ret = 0 then some data else none)
  | .trim lba => Function.update v lba.toNat (some zeroPage)
  | .read _ => v

/-- The FTL and the promises made to the host. -/
def hostStep (s : FTL × HostView) (op : FtlOp) : FTL × HostView :=
  ((ftlCall s.1 op).2, s.2.after op (ftlCall s.1 op).1)

def hostRun (mode : FTLMappingMode) (ops : List FtlOp) : FTL × HostView :=
  run hostStep (ftlInit mode, HostView.fresh) ops

/-- No two LBAs share a page and a mapped page is in use. -/
structure FtlInv (f : FTL) : Prop where
  separate : f.remap.Separate
  used : ∀ l (r : PageRef), f.mappingTable l = some r.phys → (f.page r).state ≠ .free

/-- The invariant holds after `ftl_init`, in either mode. -/
theorem ftl_inv_init (mode : FTLMappingMode) : FtlInv (ftlInit mode) := by
  constructor
  · intro k k' c h; cases h
  · intro l r h; cases h

/-- A FREE page holds no LBA. -/
theorem FtlInv.unused {f : FTL} (inv : FtlInv f) {r : PageRef} (free : (f.page r).state = .free) :
    f.remap.Unused r.phys := fun l h => inv.used l r h free

/-- Retiring makes no page free and takes none. -/
theorem FtlInv.free_retireOld {f : FTL} (inv : FtlInv f) (l : Lba) (r : PageRef) :
    ((retireOld f l).page r).state = .free ↔ (f.page r).state = .free :=
  FTL.free_retireOld fun _ hp e => inv.used l r (e ▸ hp)

/-- The invariant is kept when the old page of an LBA is retired. -/
theorem FtlInv.retireOld {f : FTL} (inv : FtlInv f) (l : Lba) : FtlInv (retireOld f l) := by
  constructor
  · intro k k' c h h'
    rw [show (Storage.retireOld f l).remap.fwd = f.mappingTable from FTL.retireOld_mappingTable f l]
      at h h'
    exact inv.separate k k' c h h'
  · intro k r h free
    rw [FTL.retireOld_mappingTable] at h
    exact inv.used k r h ((inv.free_retireOld l r).1 free)

/-- Retiring the old page of `l` changes what no other LBA reads. -/
theorem FtlInv.read_retireOld {f : FTL} (inv : FtlInv f) {l k : Lba} (ne : k ≠ l) :
    (Storage.retireOld f l).remap.read zeroPage k = f.remap.read zeroPage k := by
  unfold Storage.retireOld
  split
  · rename_i p hp
    rw [FTL.remap_retirePage]
    exact Remap.read_hide_other inv.separate hp ne
  · rfl

/-- The invariant does not speak of the write pointer. -/
theorem FtlInv.setWritePointer {f : FTL} (inv : FtlInv f) (wp : PhysPage) :
    FtlInv { f with writePointer := wp } := ⟨inv.separate, inv.used⟩

/-- The invariant is kept when a free page is programmed. -/
theorem FtlInv.program {f : FTL} (inv : FtlInv f) {r : PageRef} (free : (f.page r).state = .free)
    (l : Lba) (d : PageData) : FtlInv (programPage { f with writePointer := r.phys } r l d) := by
  constructor
  · rw [FTL.remap_programPage]
    exact inv.separate.write fun k _ => inv.unused free k
  · intro k r' h
    rw [FTL.programPage_mappingTable] at h
    rw [FTL.page_programPage]
    split
    · simp
    · rename_i ne
      rw [Function.update_apply] at h
      split at h
      · cases PageRef.phys_inj.1 (Option.some.inj h); exact absurd rfl ne
      · exact inv.used k r' h

/-- `ftl_write` keeps the invariant, changes no other LBA, and makes its own read the
data if it returns 0. -/
theorem ftl_write_spec {f : FTL} (inv : FtlInv f) (lba : UInt32) (data : PageData) :
    FtlInv (ftlWrite f lba data).2 ∧
    (∀ k : Lba, k.val ≠ lba.toNat →
      (ftlWrite f lba data).2.remap.read zeroPage k = f.remap.read zeroPage k) ∧
    ((ftlWrite f lba data).1 = 0 → ∀ h : lba.toNat < ftlMaxLbas,
      (ftlWrite f lba data).2.remap.read zeroPage ⟨lba.toNat, h⟩ = some data) := by
  have out := ftl_write_outcome f lba data
  generalize ftlWrite f lba data = w at out ⊢
  cases out with
  | outOfRange h => exact ⟨inv, fun _ _ => rfl, by simp⟩
  | noCount h zero =>
    refine ⟨inv.retireOld _, fun k ne => ?_, by simp⟩
    exact inv.read_retireOld fun e => ne (congrArg Fin.val e)
  | noPage h wp end_ full =>
    refine ⟨(inv.retireOld _).setWritePointer wp, fun k ne => ?_, by simp⟩
    exact inv.read_retireOld fun e => ne (congrArg Fin.val e)
  | programmed h r count from_ free first =>
    have inv' := inv.retireOld ⟨lba.toNat, h⟩
    refine ⟨inv'.program free _ _, fun k ne => ?_, fun _ _ => ?_⟩
    · have ne : k ≠ ⟨lba.toNat, h⟩ := fun e => ne (congrArg Fin.val e)
      rw [FTL.remap_programPage, Remap.read_write_other (inv'.unused free k) ne, inv.read_retireOld ne]
    · rw [FTL.remap_programPage, Remap.read_write_same]

/-- A trim keeps the invariant and what other LBAs read; its own LBA reads as zeros. -/
theorem ftl_trim_spec {f : FTL} (inv : FtlInv f) (lba : UInt32) :
    FtlInv (ftlTrim f lba).2 ∧
    (∀ k : Lba, k.val ≠ lba.toNat →
      (ftlTrim f lba).2.remap.read zeroPage k = f.remap.read zeroPage k) ∧
    ∀ h : lba.toNat < ftlMaxLbas,
      (ftlTrim f lba).2.remap.read zeroPage ⟨lba.toNat, h⟩ = some zeroPage := by
  unfold ftlTrim
  split
  · rename_i h
    split
    · rename_i p hp
      have old : Storage.retireOld f ⟨lba.toNat, h⟩ = retirePage f p := by
        unfold retireOld; rw [hp]
      have hr : ({ retirePage f p with
          mappingTable := Function.update (retirePage f p).mappingTable ⟨lba.toNat, h⟩ none } :
          FTL).remap = (retirePage f p).remap.drop ⟨lba.toNat, h⟩ := rfl
      have inv' : FtlInv (retirePage f p) := old ▸ inv.retireOld _
      refine ⟨⟨?_, ?_⟩, fun k ne => ?_, fun _ => ?_⟩
      · rw [hr]; exact inv'.separate.drop _
      · intro k r hk
        simp only [Function.update_apply] at hk
        split at hk
        · cases hk
        · exact inv'.used k r hk
      · have ne : k ≠ ⟨lba.toNat, h⟩ := fun e => ne (congrArg Fin.val e)
        rw [hr, Remap.read_drop_other ne, ← old, inv.read_retireOld ne]
      · rw [hr, Remap.read_drop_same]
    · rename_i hp
      exact ⟨inv, fun _ _ => rfl, fun _ => Remap.read_of_fwd_none hp⟩
  · exact ⟨inv, fun _ _ => rfl, fun h => absurd h ‹_›⟩

/-- One call keeps the invariant and what the other LBAs read. -/
theorem ftl_call_frame {f : FTL} (inv : FtlInv f) (op : FtlOp) :
    FtlInv (ftlCall f op).2 ∧ ∀ k : Lba, k.val ≠ op.lba.toNat →
      (ftlCall f op).2.remap.read zeroPage k = f.remap.read zeroPage k := by
  cases op with
  | write lba data => exact ⟨(ftl_write_spec inv lba data).1, (ftl_write_spec inv lba data).2.1⟩
  | trim lba => exact ⟨(ftl_trim_spec inv lba).1, (ftl_trim_spec inv lba).2.1⟩
  | read lba =>
    obtain ⟨stats, h⟩ := ftl_read_state f lba
    simp only [ftlCall, h]
    exact ⟨⟨inv.separate, inv.used⟩, fun _ _ => rfl⟩

/-- The promises hold of the abstract store. -/
structure HostInv (s : FTL × HostView) : Prop where
  ftl : FtlInv s.1
  kept : ∀ (l : Lba) d, s.2 l = some d → s.1.remap.read zeroPage l = some d

/-- Every call keeps what the host was promised. -/
theorem host_inv_step (s : FTL × HostView) (op : FtlOp) (inv : HostInv s) :
    HostInv (hostStep s op) := by
  obtain ⟨keep, frame⟩ := ftl_call_frame inv.ftl op
  refine ⟨keep, fun l d h => ?_⟩
  by_cases own : l.val = op.lba.toNat
  · cases op with
    | write lba data =>
      have hl : l = ⟨lba.toNat, own ▸ l.isLt⟩ := Fin.ext own
      simp only [hostStep, HostView.after, FtlOp.lba] at own h
      rw [own, Function.update_self] at h
      split at h
      · rename_i ret
        simp only [ftlCall] at ret
        cases h
        rw [hl]
        exact (ftl_write_spec inv.ftl lba d).2.2 ret _
      · cases h
    | trim lba =>
      have hl : l = ⟨lba.toNat, own ▸ l.isLt⟩ := Fin.ext own
      simp only [hostStep, HostView.after, FtlOp.lba] at own h
      rw [own, Function.update_self] at h
      cases h
      rw [hl]
      exact (ftl_trim_spec inv.ftl lba).2.2 _
    | read lba =>
      obtain ⟨stats, e⟩ := ftl_read_state s.1 lba
      simp only [hostStep, ftlCall, e]
      exact inv.kept l d h
  · refine (frame l own).trans (inv.kept l d ?_)
    cases op <;> simp only [hostStep, HostView.after, FtlOp.lba] at own h <;>
      first
      | exact h
      | rwa [Function.update_of_ne own] at h

/-- After any calls the promises hold. -/
theorem host_inv_run (mode : FTLMappingMode) (ops : List FtlOp) : HostInv (hostRun mode ops) :=
  run_invariant host_inv_step
    ⟨ftl_inv_init mode, fun _ _ h => h⟩ ops

/-- **An LBA reads what was written to it last.** After any calls, a promised LBA is
read back (`ftl_read` returns 0 with the promised data), and a further call on
another LBA, failing or not, does not change what it reads. -/
theorem ftl_read_last_write (mode : FTLMappingMode) (ops : List FtlOp) (lba : UInt32)
    (h : lba.toNat < ftlMaxLbas) :
    (∀ d, (hostRun mode ops).2 lba.toNat = some d →
      (ftlRead (hostRun mode ops).1 lba).1 = some d) ∧
    ∀ op : FtlOp, op.lba ≠ lba →
      (ftlRead (ftlCall (hostRun mode ops).1 op).2 lba).1 = (ftlRead (hostRun mode ops).1 lba).1 := by
  have inv := host_inv_run mode ops
  constructor
  · intro d hd
    rw [ftl_read_eq _ _ h]
    exact inv.kept ⟨lba.toNat, h⟩ d hd
  · intro op ne
    rw [ftl_read_eq _ _ h, ftl_read_eq _ _ h]
    exact (ftl_call_frame inv.ftl op).2 _ fun e => ne (UInt32.toNat_inj.1 e.symm)

/-- The first write to a fresh device returns 0. -/
theorem first_write (mode : FTLMappingMode) (lba : UInt32) (data : PageData)
    (h : lba.toNat < ftlMaxLbas) : (ftlWrite (ftlInit mode) lba data).1 = 0 := by
  have out := ftl_write_outcome (ftlInit mode) lba data
  generalize ftlWrite (ftlInit mode) lba data = w at out ⊢
  cases out with
  | outOfRange h' => exact absurd h (Nat.not_lt.2 h')
  | noCount h' zero =>
    change UInt32.ofNat ftlMaxPhysicalPages = 0 at zero
    exact absurd zero (by decide)
  | noPage h' wp end_ full => exact absurd rfl (full ⟨⟨0, 0⟩, 0⟩ (Nat.zero_le _))
  | programmed => rfl

/-- The pattern of the integration test. -/
def patternPage : PageData := Vector.replicate ftlPageDataSize 0xAB

/-- A page written to LBA 0 is read back after trims elsewhere. -/
theorem ftl_read_last_write_lba0 :
    (ftlRead (hostRun .pageLevel [.write 0 patternPage, .trim 1]).1 0).1 = some patternPage ∧
    (ftlRead (ftlCall (hostRun .pageLevel [.write 0 patternPage, .trim 1]).1 (.trim 7)).2 0).1 =
      (ftlRead (hostRun .pageLevel [.write 0 patternPage, .trim 1]).1 0).1 := by
  have reads := ftl_read_last_write .pageLevel [.write 0 patternPage, .trim 1] 0 (by decide)
  have ret := first_write .pageLevel 0 patternPage (by decide)
  refine ⟨reads.1 patternPage ?_, reads.2 (.trim 7) (by decide)⟩
  simp [hostRun, hostStep, HostView.after, ftlCall, ret]

end MiniHardware.Storage
