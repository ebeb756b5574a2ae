import MiniHardware.Storage.FtlMap

/-!
# Allocation of consecutive pages (`mini-storage-hardware/src/ftl.c`)

`ftl_allocate_block` looks for as many FREE pages in a row as it was asked for,
from the write pointer on. A page in use makes it start again one block
further, so the search leaves the planes at the latest after the last block.
The run found is mapped to consecutive LBAs, whose sum with the length was
checked in 32 bits.
-/

namespace MiniHardware.Storage

/-- The search loop of `ftl_allocate_block`; `none` is the return of -3. -/
def allocateSearch (f : FTL) (numPages blockStart contiguous : Nat) : Option Nat :=
  if contiguous < numPages then
    match _h : getPhysicalPage blockStart with
    | none => none
    | some r =>
      if (f.page r).state ≠ .free then
        allocateSearch f numPages ((blockStart + ftlPagesPerBlock) % ftlMaxPhysicalPages) 0
      else allocateSearch f numPages ((blockStart + 1) % ftlMaxPhysicalPages) (contiguous + 1)
  else some blockStart
termination_by ftlMaxPhysicalPages - blockStart
decreasing_by
  · have hr : r.index = blockStart := get_physical_page_eq_some.1 _h
    have hlt := r.index_lt
    show 65536 - (blockStart + 128) % 65536 < 65536 - blockStart
    omega
  · have hr : r.index = blockStart := get_physical_page_eq_some.1 _h
    have hlt := r.index_lt
    show 65536 - (blockStart + 1) % 65536 < 65536 - blockStart
    omega

/-- The body of the mapping loop; `none` is a write outside `mapping_table`. -/
def allocatePage (startLba : UInt32) (phys : Nat) (f : FTL) (i : Nat) : Option FTL :=
  let pp : PhysPage := ⟨(phys + i) % ftlMaxPhysicalPages, Nat.mod_lt _ (by decide)⟩
  match getPhysicalPage pp with
  | none => some f
  | some r =>
    let lba := startLba + UInt32.ofNat i
    if h : lba.toNat < ftlMaxLbas then
      let f := f.setPage r { f.page r with state := .valid, type := .lower }
      some
        { f with
          mappingTable := Function.update f.mappingTable ⟨lba.toNat, h⟩ (some pp)
          reverseMap := Function.update f.reverseMap pp (some ⟨lba.toNat, h⟩)
          freePages := f.freePages - 1 }
    else none

def ftlAllocateBlock (f : FTL) (startLba numPages : UInt32) : Option (Int × FTL) :=
  if startLba + numPages > UInt32.ofNat ftlMaxLbas then some (-1, f)
  else if f.freePages < numPages then some (-2, f)
  else
    match allocateSearch f numPages.toNat f.writePointer.val 0 with
    | none => some (-3, f)
    | some blockStart =>
      let phys :=
        (UInt32.ofNat blockStart - numPages + UInt32.ofNat ftlMaxPhysicalPages) % UInt32.ofNat ftlMaxPhysicalPages
      ((List.range numPages.toNat).foldlM (allocatePage startLba phys.toNat) f).map fun f => (0, f)

/-! ## The search -/

/-- The search ends behind a run of FREE pages, as long as asked for. -/
theorem allocate_search_spec {f : FTL} {n blockStart contiguous b : Nat}
    (h : allocateSearch f n blockStart contiguous = some b) (room : contiguous ≤ blockStart)
    (small : blockStart < ftlMaxPhysicalPages)
    (run : ∀ r : PageRef, blockStart - contiguous ≤ r.index → r.index < blockStart → (f.page r).state = .free)
    (backed : contiguous = 0 ∨ blockStart ≤ ftlBackedPages) (enough : contiguous ≤ n) :
    n ≤ b ∧ b < ftlMaxPhysicalPages ∧ (n = 0 ∨ b ≤ ftlBackedPages) ∧
      ∀ r : PageRef, b - n ≤ r.index → r.index < b → (f.page r).state = .free := by
  fun_induction allocateSearch f n blockStart contiguous with
  | case1 blockStart contiguous lt none => cases h
  | case2 blockStart contiguous lt r page used ih =>
    have index : r.index = blockStart := get_physical_page_eq_some.1 page
    have bound := r.index_lt
    apply ih h (Nat.zero_le _) (Nat.mod_lt _ (by decide)) _ (.inl rfl) (Nat.zero_le _)
    intro r' low high
    omega
  | case3 blockStart contiguous lt r page free ih =>
    have index : r.index = blockStart := get_physical_page_eq_some.1 page
    have bound := r.index_lt
    have size : ftlMaxPhysicalPages = 65536 := rfl
    have next : (blockStart + 1) % ftlMaxPhysicalPages = blockStart + 1 := Nat.mod_eq_of_lt (by omega)
    rw [next] at ih h
    have backed' : blockStart + 1 ≤ ftlBackedPages := by
      rw [← index]
      exact bound
    apply ih h (by omega) (by omega) _ (.inr backed') lt
    intro r' low high
    by_cases here : r'.index = blockStart
    · obtain rfl : r' = r := PageRef.index_inj.1 (here.trans index.symm)
      exact not_not.1 free
    · exact run r' (by omega) (by omega)
  | case4 blockStart contiguous done =>
    obtain rfl := Option.some.inj h
    obtain rfl : contiguous = n := by omega
    exact ⟨room, small, backed, run⟩

/-! ## The mapping loop -/

/-- A round inside the tables and the planes enters the next page for the next LBA. -/
theorem allocatePage_eq (f : FTL) {startLba : UInt32} {phys n i : Nat} (lbas : startLba.toNat + n ≤ ftlMaxLbas)
    (backed : phys + n ≤ ftlBackedPages) (lt : i < n) :
    ∃ (r : PageRef) (l : Lba), r.index = phys + i ∧ l.val = startLba.toNat + i ∧
      allocatePage startLba phys f i = some
        { f.setPage r { f.page r with state := .valid, type := .lower } with
          mappingTable := Function.update f.mappingTable l (some r.phys)
          reverseMap := Function.update f.reverseMap r.phys (some l)
          freePages := f.freePages - 1 } := by
  have bound : phys + n ≤ 8192 := backed
  have most : startLba.toNat + n ≤ 16384 := lbas
  have value : (startLba + UInt32.ofNat i).toNat = startLba.toNat + i := by
    rw [UInt32.toNat_add, UInt32.toNat_ofNat_of_lt' (by change i < 4294967296; omega)]
    omega
  have inside : (startLba + UInt32.ofNat i).toNat < ftlMaxLbas := by
    rw [value]
    change _ < 16384
    omega
  have wrap : (phys + i) % ftlMaxPhysicalPages = phys + i := Nat.mod_eq_of_lt (by change _ < 65536; omega)
  obtain ⟨r, page⟩ : ∃ r, getPhysicalPage (phys + i) = some r := by
    apply Option.ne_none_iff_exists'.1
    intro none
    have := get_physical_page_eq_none.1 none
    omega
  have index : r.index = phys + i := get_physical_page_eq_some.1 page
  refine ⟨r, ⟨_, inside⟩, index, value, ?_⟩
  rw [← index] at wrap page
  unfold allocatePage
  simp only [← index, wrap, page, inside, dite_true]
  rfl

/-! ## The call -/

theorem allocate_phys {n : UInt32} {b : Nat} (le : n.toNat ≤ b) (lt : b < ftlMaxPhysicalPages) :
    ((UInt32.ofNat b - n + UInt32.ofNat ftlMaxPhysicalPages) % UInt32.ofNat ftlMaxPhysicalPages).toNat =
      b - n.toNat := by
  have small : b < 65536 := lt
  have pages : (UInt32.ofNat ftlMaxPhysicalPages).toNat = 65536 := rfl
  have start : (UInt32.ofNat b).toNat = b := by
    rw [UInt32.toNat_ofNat']
    exact Nat.mod_eq_of_lt (by omega)
  have below : n ≤ UInt32.ofNat b := by
    rw [UInt32.le_iff_toNat_le, start]
    exact le
  rw [UInt32.toNat_mod, UInt32.toNat_add, pages, UInt32.toNat_sub_of_le _ _ below, start]
  omega

/-- A call changes nothing, or passes the two checks and maps the pages before the one the search ends at. -/
theorem ftl_allocate_cases (f : FTL) (startLba numPages : UInt32) :
    (∃ ret, ret ≠ 0 ∧ ftlAllocateBlock f startLba numPages = some (ret, f) ∧
      (startLba + numPages ≤ UInt32.ofNat ftlMaxLbas → numPages ≤ f.freePages →
        allocateSearch f numPages.toNat f.writePointer.val 0 = none)) ∨
      ∃ b, startLba + numPages ≤ UInt32.ofNat ftlMaxLbas ∧ numPages ≤ f.freePages ∧
        allocateSearch f numPages.toNat f.writePointer.val 0 = some b ∧
        ftlAllocateBlock f startLba numPages =
          ((List.range numPages.toNat).foldlM (allocatePage startLba (b - numPages.toNat)) f).map fun f => (0, f) := by
  unfold ftlAllocateBlock
  split
  · rename_i beyond
    exact .inl ⟨-1, by decide, rfl, fun inside => absurd beyond (UInt32.not_lt.2 inside)⟩
  rename_i inside
  split
  · rename_i few
    exact .inl ⟨-2, by decide, rfl, fun _ enough => absurd few (UInt32.not_lt.2 enough)⟩
  rename_i enough
  split
  · rename_i missing
    exact .inl ⟨-3, by decide, rfl, fun _ _ => missing⟩
  rename_i b found
  obtain ⟨le, lt, -⟩ := allocate_search_spec found (Nat.zero_le _) f.writePointer.isLt
    (fun r low high => by omega) (.inl rfl) (Nat.zero_le _)
  refine .inr ⟨b, UInt32.not_lt.1 inside, UInt32.not_lt.1 enough, found, ?_⟩
  dsimp only
  rw [allocate_phys le lt]

/-- The LBAs of a call that passes the check without a wrap are in the table. -/
theorem lbas_inside {startLba numPages : UInt32} (inside : startLba + numPages ≤ UInt32.ofNat ftlMaxLbas)
    (small : startLba.toNat + numPages.toNat < 2 ^ 32) : startLba.toNat + numPages.toNat ≤ ftlMaxLbas := by
  rw [UInt32.le_iff_toNat_le, UInt32.toNat_add, Nat.mod_eq_of_lt small] at inside
  exact inside

/-- A call that passes the two checks only without a wrap, changes nothing or maps a run of FREE pages. -/
theorem ftl_allocate_outcome (f : FTL) {startLba numPages : UInt32}
    (fits : startLba + numPages ≤ UInt32.ofNat ftlMaxLbas → numPages ≤ f.freePages →
      startLba.toNat + numPages.toNat < 2 ^ 32) :
    (∃ ret, ftlAllocateBlock f startLba numPages = some (ret, f)) ∨
      ∃ phys, startLba.toNat + numPages.toNat ≤ ftlMaxLbas ∧
        (numPages.toNat = 0 ∨ phys + numPages.toNat ≤ ftlBackedPages) ∧
        (∀ r : PageRef, phys ≤ r.index → r.index < phys + numPages.toNat → (f.page r).state = .free) ∧
        ftlAllocateBlock f startLba numPages =
          ((List.range numPages.toNat).foldlM (allocatePage startLba phys) f).map fun f => (0, f) := by
  obtain ⟨ret, -, same, -⟩ | ⟨b, inside, enough, found, call⟩ := ftl_allocate_cases f startLba numPages
  · exact .inl ⟨ret, same⟩
  obtain ⟨le, -, backed, run⟩ := allocate_search_spec found (Nat.zero_le _) f.writePointer.isLt
    (fun r low high => by omega) (.inl rfl) (Nat.zero_le _)
  refine .inr ⟨b - numPages.toNat, lbas_inside inside (fits inside enough), ?_, fun r low high => run r low (by omega), call⟩
  rw [Nat.sub_add_cancel le]
  exact backed

end MiniHardware.Storage
