import Mathlib.Logic.Function.Basic
import Mathlib.Tactic.Common
import MiniHardware.Lib.Index

/-!
# The flash translation layer (`mini-storage-hardware/src/ftl.c`)

`mapping_table` sends a logical block to the physical page that holds it and
`reverse_map` sends the page back; both use `-1` for "no entry", here `none`.
Physical page numbers run to `FTL_MAX_PHYSICAL_PAGES`, but only the first
`4 * 16 * 128` of them are backed by a page of the planes: `get_physical_page`
returns `NULL` for the others.
-/

namespace MiniHardware.Storage

abbrev ftlMaxLbas : Nat := 16384
abbrev ftlMaxPhysicalPages : Nat := 65536
abbrev ftlPagesPerBlock : Nat := 128
abbrev ftlBlocksPerPlane : Nat := 16
abbrev ftlPlanes : Nat := 4
abbrev ftlPageDataSize : Nat := 4096

/-- The pages of the planes: `FTL_PLANES * FTL_BLOCKS_PER_PLANE * FTL_PAGES_PER_BLOCK`. -/
abbrev ftlBackedPages : Nat := 8192

inductive PageType where
  | lower | middle | upper
deriving DecidableEq

inductive PageState where
  | free | valid | invalid | bad
deriving DecidableEq

inductive BlockState where
  | free | active | full | bad
deriving DecidableEq

inductive FTLMappingMode where
  | pageLevel | blockLevel | hybrid
deriving DecidableEq

/-- The 4096 bytes of a page. -/
abbrev PageData := Vector UInt8 ftlPageDataSize

/-- What `memset(…, 0, 4096)` leaves. -/
def zeroPage : PageData := Vector.replicate ftlPageDataSize 0

abbrev Lba := Fin ftlMaxLbas
abbrev PhysPage := Fin ftlMaxPhysicalPages

theorem lba_toNat (l : Lba) : (UInt32.ofNat l.val).toNat = l.val :=
  UInt32.toNat_ofNat_of_lt' (Nat.lt_trans l.isLt (by decide))

structure FlashPage where
  id : PhysPage
  type : PageType
  state : PageState
  data : PageData

structure FlashBlock where
  pages : Fin ftlPagesPerBlock → FlashPage
  eraseCount : UInt32
  state : BlockState

structure FlashPlane where
  blocks : Fin ftlBlocksPerPlane → FlashBlock

structure FTLStats where
  reads : UInt64
  writes : UInt64
  erases : UInt64
  gcMoves : UInt64
  hostWrites : UInt64

structure FTL where
  planes : Fin ftlPlanes → FlashPlane
  mappingTable : Lba → Option PhysPage
  reverseMap : PhysPage → Option Lba
  writePointer : PhysPage
  freePages : UInt32
  mappingMode : FTLMappingMode
  stats : FTLStats

/-! ## Addressing -/

/-- A `FlashBlock *`: the block `planes[plane].blocks[blk]`. -/
@[ext] structure BlockRef where
  plane : Fin ftlPlanes
  blk : Fin ftlBlocksPerPlane
deriving DecidableEq

/-- A `FlashPage *`: page `pg` of a block. -/
@[ext] structure PageRef where
  block : BlockRef
  pg : Fin ftlPagesPerBlock
deriving DecidableEq

def blockIndexFromPage (physicalPage : Nat) : Nat := physicalPage / ftlPagesPerBlock

def planeIndexFromPage (physicalPage : Nat) : Nat :=
  blockIndexFromPage physicalPage / ftlBlocksPerPlane

def blockInPlane (physicalPage : Nat) : Nat :=
  blockIndexFromPage physicalPage % ftlBlocksPerPlane

def pageInBlock (physicalPage : Nat) : Nat := physicalPage % ftlPagesPerBlock

/-- `NULL` is `none`. -/
def getPhysicalPage (physicalPage : Nat) : Option PageRef :=
  if h : planeIndexFromPage physicalPage < ftlPlanes ∧
      blockInPlane physicalPage < ftlBlocksPerPlane ∧ pageInBlock physicalPage < ftlPagesPerBlock then
    some ⟨⟨⟨_, h.1⟩, ⟨_, h.2.1⟩⟩, ⟨_, h.2.2⟩⟩
  else none

def getPhysicalBlock (physicalPage : Nat) : Option BlockRef :=
  if h : planeIndexFromPage physicalPage < ftlPlanes ∧
      blockInPlane physicalPage < ftlBlocksPerPlane then
    some ⟨⟨_, h.1⟩, ⟨_, h.2⟩⟩
  else none

/-- The block number `gc.c` counts with. -/
def BlockRef.index (b : BlockRef) : Nat := b.plane * ftlBlocksPerPlane + b.blk

/-- The physical page number of a backed page. -/
def PageRef.index (r : PageRef) : Nat := r.block.index * ftlPagesPerBlock + r.pg

theorem BlockRef.index_eq (b : BlockRef) : b.index = b.plane.val * 16 + b.blk.val := rfl

theorem PageRef.index_eq (r : PageRef) : r.index = r.block.index * 128 + r.pg.val := rfl

/-- There are 64 blocks. -/
theorem BlockRef.index_lt (b : BlockRef) : b.index < 64 := by
  have hp : b.plane.val < 4 := b.plane.isLt
  have hb : b.blk.val < 16 := b.blk.isLt
  rw [BlockRef.index_eq]; omega

/-- There are 8192 pages. -/
theorem PageRef.index_lt (r : PageRef) : r.index < 8192 := by
  have hb := r.block.index_lt
  have hg : r.pg.val < 128 := r.pg.isLt
  rw [PageRef.index_eq]; omega

/-- A block is known by its index. -/
theorem BlockRef.index_inj {a b : BlockRef} : a.index = b.index ↔ a = b := by
  refine ⟨fun h => ?_, fun h => h ▸ rfl⟩
  have ha : a.blk.val < 16 := a.blk.isLt
  have hb : b.blk.val < 16 := b.blk.isLt
  rw [BlockRef.index_eq, BlockRef.index_eq] at h
  ext <;> omega

/-- A page is known by its index. -/
theorem PageRef.index_inj {a b : PageRef} : a.index = b.index ↔ a = b := by
  refine ⟨fun h => ?_, fun h => h ▸ rfl⟩
  have ha : a.pg.val < 128 := a.pg.isLt
  have hb : b.pg.val < 128 := b.pg.isLt
  rw [PageRef.index_eq, PageRef.index_eq] at h
  exact PageRef.ext (BlockRef.index_inj.1 (by omega)) (Fin.ext (by omega))

/-- `get_physical_page` inverts the page number. -/
theorem get_physical_page_eq_some {p : Nat} {r : PageRef} :
    getPhysicalPage p = some r ↔ r.index = p := by
  have hp : r.block.plane.val < 4 := r.block.plane.isLt
  have hb : r.block.blk.val < 16 := r.block.blk.isLt
  have hg : r.pg.val < 128 := r.pg.isLt
  constructor
  · intro h
    unfold getPhysicalPage at h
    split at h <;> cases h
    show (p / 128 / 16 * 16 + p / 128 % 16) * 128 + p % 128 = p
    omega
  · intro h
    rw [PageRef.index_eq, BlockRef.index_eq] at h
    have e1 : planeIndexFromPage p = r.block.plane.val := by
      show p / 128 / 16 = _; omega
    have e2 : blockInPlane p = r.block.blk.val := by
      show p / 128 % 16 = _; omega
    have e3 : pageInBlock p = r.pg.val := by
      show p % 128 = _; omega
    simp [getPhysicalPage, e1, e2, e3]

/-- `get_physical_page` is `NULL` exactly beyond the planes. -/
theorem get_physical_page_eq_none {p : Nat} : getPhysicalPage p = none ↔ 8192 ≤ p := by
  unfold getPhysicalPage
  have e1 : planeIndexFromPage p = p / 128 / 16 := rfl
  have e2 : blockInPlane p < 16 := Nat.mod_lt _ (by decide)
  have e3 : pageInBlock p < 128 := Nat.mod_lt _ (by decide)
  split
  · rename_i h
    have h1 : planeIndexFromPage p < 4 := h.1
    simp; omega
  · rename_i h
    have h1 : ¬ planeIndexFromPage p < 4 := fun h1 => h ⟨h1, e2, e3⟩
    simp; omega

/-- The page of a page's index is that page. -/
theorem get_physical_page_index (r : PageRef) : getPhysicalPage r.index = some r :=
  get_physical_page_eq_some.2 rfl

/-- The block of a page number is that of its page. -/
theorem get_physical_block_of_page {p : Nat} {r : PageRef} (h : getPhysicalPage p = some r) :
    getPhysicalBlock p = some r.block := by
  unfold getPhysicalPage at h
  split at h <;> cases h
  rename_i h
  simp only [getPhysicalBlock, h.1, h.2.1, and_self, dite_true]

/-- The page number of a backed page as a table index. -/
def PageRef.phys (r : PageRef) : PhysPage := ⟨r.index, Nat.lt_trans r.index_lt (by decide)⟩

/-- A page is known by its number. -/
theorem PageRef.phys_inj {a b : PageRef} : a.phys = b.phys ↔ a = b := by
  rw [← PageRef.index_inj, Fin.ext_iff]; rfl

/-- Below the last page the pointer steps without wrapping. -/
theorem succ_val {wp : PhysPage} {r : PageRef} (h : r.index = wp.val) :
    (wp + 1).val = wp.val + 1 := by
  have := r.index_lt
  rw [Fin.val_add]
  exact Nat.mod_eq_of_lt (by show wp.val + 1 < 65536; omega)

/-! ## Reading and writing through the references -/

namespace FTL

def block (f : FTL) (b : BlockRef) : FlashBlock := (f.planes b.plane).blocks b.blk

def page (f : FTL) (r : PageRef) : FlashPage := (f.block r.block).pages r.pg

def setBlock (f : FTL) (b : BlockRef) (v : FlashBlock) : FTL :=
  { f with
    planes := Function.update f.planes b.plane
      ⟨Function.update (f.planes b.plane).blocks b.blk v⟩ }

def setPage (f : FTL) (r : PageRef) (v : FlashPage) : FTL :=
  f.setBlock r.block
    { f.block r.block with pages := Function.update (f.block r.block).pages r.pg v }

/-- Setting a block changes no other. -/
theorem block_setBlock (f : FTL) (b b' : BlockRef) (v : FlashBlock) :
    (f.setBlock b v).block b' = if b' = b then v else f.block b' := by
  simp only [block, setBlock, Function.update_apply, BlockRef.ext_iff]
  by_cases hp : b'.plane = b.plane <;> by_cases hb : b'.blk = b.blk <;> simp [hp, hb]

/-- Setting a page changes no other. -/
theorem page_setPage (f : FTL) (r r' : PageRef) (v : FlashPage) :
    (f.setPage r v).page r' = if r' = r then v else f.page r' := by
  simp only [page, setPage, block_setBlock, PageRef.ext_iff]
  by_cases hb : r'.block = r.block <;> by_cases hp : r'.pg = r.pg <;>
    simp [hb, hp]

/-- Setting a page leaves the states of the blocks. -/
theorem block_setPage_state (f : FTL) (r : PageRef) (v : FlashPage) (b : BlockRef) :
    ((f.setPage r v).block b).state = (f.block b).state := by
  simp only [setPage, block_setBlock]
  split <;> simp_all

@[simp] theorem setPage_mappingTable (f : FTL) (r : PageRef) (v : FlashPage) :
    (f.setPage r v).mappingTable = f.mappingTable := rfl
@[simp] theorem setPage_reverseMap (f : FTL) (r : PageRef) (v : FlashPage) :
    (f.setPage r v).reverseMap = f.reverseMap := rfl
@[simp] theorem setPage_writePointer (f : FTL) (r : PageRef) (v : FlashPage) :
    (f.setPage r v).writePointer = f.writePointer := rfl
@[simp] theorem setPage_freePages (f : FTL) (r : PageRef) (v : FlashPage) :
    (f.setPage r v).freePages = f.freePages := rfl
@[simp] theorem setBlock_mappingTable (f : FTL) (b : BlockRef) (v : FlashBlock) :
    (f.setBlock b v).mappingTable = f.mappingTable := rfl
@[simp] theorem setBlock_reverseMap (f : FTL) (b : BlockRef) (v : FlashBlock) :
    (f.setBlock b v).reverseMap = f.reverseMap := rfl

end FTL

/-! ## The operations -/

/-- A page after `memset(ftl, 0, sizeof(FTL))`. -/
def zeroFlashPage : FlashPage := ⟨0, .lower, .free, zeroPage⟩

def ftlInit (mode : FTLMappingMode) : FTL where
  planes _ := { blocks := fun _ => { pages := fun _ => zeroFlashPage, eraseCount := 0, state := .free } }
  mappingTable _ := none
  reverseMap _ := none
  writePointer := 0
  freePages := UInt32.ofNat ftlMaxPhysicalPages
  mappingMode := mode
  stats := ⟨0, 0, 0, 0, 0⟩

/-- `ftl_read`: what `out_data` receives when 0 is returned, `none` when -1 is. -/
def ftlRead (f : FTL) (lba : UInt32) : Option PageData × FTL :=
  if h : lba.toNat < ftlMaxLbas then
    match f.mappingTable ⟨lba.toNat, h⟩ with
    | none => (some zeroPage, f)
    | some phys =>
      match getPhysicalPage phys with
      | none => (none, f)
      | some r =>
        if (f.page r).state = .valid then
          (some (f.page r).data, { f with stats := { f.stats with reads := f.stats.reads + 1 } })
        else (none, f)
  else (none, f)

/-- The page an LBA was mapped to is stale: state INVALID and no reverse entry. -/
def retirePage (f : FTL) (phys : PhysPage) : FTL :=
  let f := match getPhysicalPage phys with
    | some r => f.setPage r { f.page r with state := .invalid }
    | none => f
  { f with reverseMap := Function.update f.reverseMap phys none }

/-- The `while` loop of `ftl_write`: step to the next FREE page, or to the first
number with no page behind it. -/
def nextFree (f : FTL) (writePointer : PhysPage) : PhysPage :=
  match _h : getPhysicalPage writePointer with
  | none => writePointer
  | some r =>
    if (f.page r).state = .free then writePointer else nextFree f (writePointer + 1)
termination_by ftlBackedPages - writePointer.val
decreasing_by
  have hr : r.index = writePointer.val := get_physical_page_eq_some.1 _h
  have hlt := r.index_lt
  have hs := succ_val hr
  show 8192 - _ < 8192 - _
  omega

/-- The condition of the `while` loop of `ftl_write`: there is a page, and it is not FREE. -/
def inUse (f : FTL) (writePointer : PhysPage) : Bool :=
  (getPhysicalPage writePointer).any fun r => (f.page r).state ≠ .free

/-- The `while` loop of `ftl_write`, where it ends within so many rounds. -/
def searchFor (f : FTL) : Nat → PhysPage → Option PhysPage
  | 0, _ => none
  | n + 1, writePointer => if inUse f writePointer then searchFor f n (writePointer + 1) else some writePointer

/-- The tail of `ftl_write` from `page->id = …`: program the page the pointer is
at, enter it in both tables and advance the pointer. -/
def programPage (f : FTL) (r : PageRef) (lba : Lba) (data : PageData) : FTL :=
  let wp := f.writePointer
  let f := f.setPage r ⟨wp, .lower, .valid, data⟩
  let f : FTL := { f with
    mappingTable := Function.update f.mappingTable lba (some wp)
    reverseMap := Function.update f.reverseMap wp (some lba) }
  let f : FTL := match getPhysicalBlock wp with
    | some b =>
      if (f.block b).state = .free then f.setBlock b { f.block b with state := .active } else f
    | none => f
  { f with
    freePages := f.freePages - 1
    writePointer := wp + 1
    stats := { f.stats with writes := f.stats.writes + 1, hostWrites := f.stats.hostWrites + 1 } }

/-- The old page of an LBA is retired before anything else, also when the write then fails. -/
def retireOld (f : FTL) (lba : Lba) : FTL :=
  match f.mappingTable lba with
  | some oldPhys => retirePage f oldPhys
  | none => f

def ftlWrite (f : FTL) (lba : UInt32) (data : PageData) : Int × FTL :=
  if h : lba.toNat < ftlMaxLbas then
    let f := retireOld f ⟨lba.toNat, h⟩
    if f.freePages = 0 then (-2, f)
    else
      let f := { f with writePointer := nextFree f f.writePointer }
      match getPhysicalPage f.writePointer with
      | none => (-1, f)
      | some r => (0, programPage f r ⟨lba.toNat, h⟩ data)
  else (-1, f)

def ftlTrim (f : FTL) (lba : UInt32) : Int × FTL :=
  if h : lba.toNat < ftlMaxLbas then
    match f.mappingTable ⟨lba.toNat, h⟩ with
    | some phys =>
      let f := retirePage f phys
      (0, { f with mappingTable := Function.update f.mappingTable ⟨lba.toNat, h⟩ none })
    | none => (0, f)
  else (-1, f)

end MiniHardware.Storage
