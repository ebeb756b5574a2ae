import MiniHardware.Storage.FreePagesRuns

/-!
# The tables after an allocation (`mini-storage-hardware/src/ftl.c`)

`ftl_allocate_block` enters the pages it found into both tables and leaves the pages that the LBAs had
before: such a page stays VALID, and `reverse_map` still sends it to its old LBA, which is what a
collection goes by. The sum of `start_lba` and `num_pages` may wrap, and the first entry is then far
outside `mapping_table`. `ftl_allocate_keeps_map` says exactly when neither happens.
-/

namespace MiniHardware.Storage
open Lib

/-! ## What an allocation is for -/

/-- The mapping invariant: on VALID pages the tables are inverse, so an LBA has one VALID page at most. -/
structure MapInv (f : FTL) : Prop where
  inverse : ∀ (r : PageRef) (l : Lba), (f.page r).state = .valid →
    (f.reverseMap r.phys = some l ↔ f.mappingTable l = some r.phys)
  once : ∀ (r r' : PageRef) (l : Lba), (f.page r).state = .valid → (f.page r').state = .valid →
    f.reverseMap r.phys = some l → f.reverseMap r'.phys = some l → r = r'

theorem MapInv.of_inverse {f : FTL} (inverse : ∀ (r : PageRef) (l : Lba), (f.page r).state = .valid →
    (f.reverseMap r.phys = some l ↔ f.mappingTable l = some r.phys)) : MapInv f := by
  refine ⟨inverse, fun r r' l valid valid' entry entry' => PageRef.phys_inj.1 (Option.some.inj ?_)⟩
  rw [← (inverse r l valid).1 entry, ← (inverse r' l valid').1 entry']

/-- The LBAs from `startLba` on are mapped to FREE pages that follow one another. -/
def MapsRun (f f' : FTL) (startLba numPages : Nat) : Prop :=
  ∃ phys, ∀ i < numPages, ∃ (r : PageRef) (l : Lba), r.index = phys + i ∧ l.val = startLba + i ∧
    (f.page r).state = .free ∧ (f'.page r).state = .valid ∧ f'.mappingTable l = some r.phys

/-- Nothing outside the tables is written, a failure changes nothing, and a success maps the range and
keeps the mapping invariant. -/
def AllocateRight (f : FTL) (startLba numPages : UInt32) : Prop :=
  ∃ ret f', ftlAllocateBlock f startLba numPages = some (ret, f') ∧ (ret ≠ 0 → f' = f) ∧
    (ret = 0 → MapsRun f f' startLba.toNat numPages.toNat) ∧ (MapInv f → MapInv f')

/-! ## The run of pages -/

def FreeAt (f : FTL) (p : Nat) : Prop := ∃ r : PageRef, r.index = p ∧ (f.page r).state = .free

def UsedAt (f : FTL) (p : Nat) : Prop := ∃ r : PageRef, r.index = p ∧ (f.page r).state ≠ .free

/-- From page `p` on, the first run of `n` FREE pages starts at `t`, if after a page in use one looks
again from 128 pages further on. -/
inductive RunAt (f : FTL) (n : Nat) : Nat → Nat → Prop where
  | here {p : Nat} (free : ∀ i < n, FreeAt f (p + i)) : RunAt f n p p
  | jump {p i t : Nat} (lt : i < n) (free : ∀ j < i, FreeAt f (p + j)) (used : UsedAt f (p + i))
      (further : RunAt f n (p + i + ftlPagesPerBlock) t) : RunAt f n p t

/-- No LBA of the range has a VALID page. -/
def Unmapped (f : FTL) (startLba numPages : Nat) : Prop :=
  ∀ (l : Lba) (r : PageRef), startLba ≤ l.val → l.val < startLba + numPages →
    f.mappingTable l = some r.phys → (f.page r).state ≠ .valid

/-- No LBA outside the range is mapped to one of the pages. -/
def Untaken (f : FTL) (startLba numPages phys : Nat) : Prop :=
  ∀ (l : Lba) (r : PageRef), ¬ (startLba ≤ l.val ∧ l.val < startLba + numPages) →
    phys ≤ r.index → r.index < phys + numPages → f.mappingTable l ≠ some r.phys

/-- What an allocation needs, if it passes the two checks and there is a run for it: the sum does not wrap, no
LBA of the range has a VALID page, and no other one is mapped to the run. -/
def AllocateReady (f : FTL) (startLba numPages : UInt32) : Prop :=
  startLba + numPages ≤ UInt32.ofNat ftlMaxLbas → numPages ≤ f.freePages →
    ∀ phys, RunAt f numPages.toNat f.writePointer.val phys →
      startLba.toNat + numPages.toNat < 2 ^ 32 ∧
        (MapInv f → Unmapped f startLba.toNat numPages.toNat ∧ Untaken f startLba.toNat numPages.toNat phys)

section Search
variable {f : FTL} {n p t t' : Nat}

theorem UsedAt.not_free (used : UsedAt f p) : ¬ FreeAt f p := by
  rintro ⟨r, rfl, free⟩
  obtain ⟨r', eq, used⟩ := used
  obtain rfl := PageRef.index_inj.1 eq
  exact used free

theorem FreeAt.lt (free : FreeAt f p) : p < ftlBackedPages := by
  obtain ⟨r, rfl, -⟩ := free
  exact r.index_lt

theorem RunAt.free (run : RunAt f n p t) : ∀ i < n, FreeAt f (t + i) := by
  induction run with
  | here free => exact free
  | jump _ _ _ _ ih => exact ih

theorem RunAt.backed (run : RunAt f n p t) : n = 0 ∨ t + n ≤ ftlBackedPages := by
  rcases Nat.eq_zero_or_pos n with zero | pos
  · exact .inl zero
  · have last := (run.free (n - 1) (by omega)).lt
    exact .inr (by omega)

theorem RunAt.unique (run : RunAt f n p t) (run' : RunAt f n p t') : t = t' := by
  induction run generalizing t' with
  | here free =>
    cases run' with
    | here => rfl
    | jump lt _ used _ => exact absurd (free _ lt) used.not_free
  | @jump p i t lt free used further ih =>
    cases run' with
    | here free' => exact absurd (free' i lt) used.not_free
    | @jump _ i' _ lt' free' used' further' =>
      obtain rfl : i = i' := by
        rcases Nat.lt_trichotomy i i' with less | eq | more
        · exact absurd (free' i less) used.not_free
        · exact eq
        · exact absurd (free i' more) used'.not_free
      exact ih further'

/-- The search from `blockStart`, with the `contiguous` pages before it FREE, finds the run from there. -/
theorem allocateSearch_run {blockStart contiguous : Nat} (le : contiguous ≤ blockStart) (enough : contiguous ≤ n)
    (free : ∀ j < contiguous, FreeAt f (blockStart - contiguous + j)) :
    (∀ b, allocateSearch f n blockStart contiguous = some b → n ≤ b ∧ RunAt f n (blockStart - contiguous) (b - n)) ∧
      (allocateSearch f n blockStart contiguous = none → ∀ t, ¬ RunAt f n (blockStart - contiguous) t) := by
  fun_induction allocateSearch f n blockStart contiguous with
  | case1 blockStart contiguous lt none =>
    refine ⟨fun b found => (by cases found), fun _ t run => ?_⟩
    have beyond := get_physical_page_eq_none.1 none
    have here : blockStart - contiguous + contiguous = blockStart := by omega
    cases run with
    | here free' =>
      have inside := (free' contiguous lt).lt
      rw [here] at inside
      exact absurd inside (Nat.not_lt.2 beyond)
    | @jump _ i _ lt' free' used further =>
      rcases Nat.lt_or_ge contiguous i with less | ge
      · have inside := (free' contiguous less).lt
        rw [here] at inside
        exact absurd inside (Nat.not_lt.2 beyond)
      · rcases Nat.lt_or_eq_of_le ge with less | rfl
        · exact used.not_free (free i less)
        · obtain ⟨r, eq, -⟩ := used
          have := r.index_lt
          omega
  | case2 blockStart contiguous lt r page used ih =>
    have index : r.index = blockStart := get_physical_page_eq_some.1 page
    have bound := r.index_lt
    have next : (blockStart + ftlPagesPerBlock) % ftlMaxPhysicalPages = blockStart + ftlPagesPerBlock :=
      Nat.mod_eq_of_lt (by change blockStart + 128 < 65536; omega)
    rw [next] at ih
    obtain ⟨found, missing⟩ := ih (Nat.zero_le _) (Nat.zero_le _) fun j lt => absurd lt (Nat.not_lt_zero _)
    rw [Nat.sub_zero] at found missing
    have here : blockStart - contiguous + contiguous = blockStart := by omega
    have stop : UsedAt f (blockStart - contiguous + contiguous) := ⟨r, by omega, used⟩
    rw [next]
    refine ⟨fun b eq => ?_, fun eq t run => ?_⟩
    · obtain ⟨le, run⟩ := found b eq
      refine ⟨le, .jump lt free stop ?_⟩
      rw [here]
      exact run
    · cases run with
      | here free' => exact stop.not_free (free' contiguous lt)
      | @jump _ i _ lt' free' used' further =>
        obtain rfl : i = contiguous := by
          rcases Nat.lt_trichotomy i contiguous with less | eq | more
          · exact absurd (free i less) used'.not_free
          · exact eq
          · exact absurd (free' contiguous more) stop.not_free
        rw [here] at further
        exact missing eq t further
  | case3 blockStart contiguous lt r page isFree ih =>
    have index : r.index = blockStart := get_physical_page_eq_some.1 page
    have bound := r.index_lt
    have next : (blockStart + 1) % ftlMaxPhysicalPages = blockStart + 1 :=
      Nat.mod_eq_of_lt (by change blockStart + 1 < 65536; omega)
    rw [next] at ih
    have same : blockStart + 1 - (contiguous + 1) = blockStart - contiguous := by omega
    rw [same] at ih
    rw [next]
    refine ih (by omega) lt fun j lt' => ?_
    rcases Nat.lt_succ_iff_lt_or_eq.1 lt' with less | rfl
    · exact free j less
    · exact ⟨r, by omega, not_not.1 isFree⟩
  | case4 blockStart contiguous done =>
    obtain rfl : contiguous = n := by omega
    refine ⟨fun b found => ?_, fun none => (by cases none)⟩
    obtain rfl := Option.some.inj found
    exact ⟨le, .here free⟩

end Search

/-! ## The entries -/

/-- The FTL after `i` rounds of the mapping loop. -/
structure Entered (f : FTL) (startLba phys i : Nat) (f' : FTL) : Prop where
  state : ∀ r : PageRef, (f'.page r).state =
    if phys ≤ r.index ∧ r.index < phys + i then .valid else (f.page r).state
  mapped : ∀ (r : PageRef) (l : Lba), startLba ≤ l.val → l.val < startLba + i →
    (f'.mappingTable l = some r.phys ↔ r.index = phys + (l.val - startLba))
  unmapped : ∀ l : Lba, ¬ (startLba ≤ l.val ∧ l.val < startLba + i) → f'.mappingTable l = f.mappingTable l
  entry : ∀ (r : PageRef) (l : Lba), phys ≤ r.index → r.index < phys + i →
    (f'.reverseMap r.phys = some l ↔ l.val = startLba + (r.index - phys))
  other : ∀ r : PageRef, ¬ (phys ≤ r.index ∧ r.index < phys + i) → f'.reverseMap r.phys = f.reverseMap r.phys

section Loop
variable {f f' : FTL} {startLba : UInt32} {phys n i : Nat}

theorem Entered.step (h : Entered f startLba.toNat phys i f') (lbas : startLba.toNat + n ≤ ftlMaxLbas)
    (backed : phys + n ≤ ftlBackedPages) (lt : i < n) :
    ∃ f'', allocatePage startLba phys f' i = some f'' ∧ Entered f startLba.toNat phys (i + 1) f'' := by
  obtain ⟨r, l, index, value, round⟩ := allocatePage_eq f' lbas backed lt
  refine ⟨_, round, fun q => ?_, fun q k low high => ?_, fun k out => ?_, fun q k low high => ?_, fun q out => ?_⟩
  · refine (congrArg FlashPage.state (FTL.page_setPage f' r q _)).trans ?_
    split
    · rename_i eq
      rw [eq, if_pos (by omega)]
    · rename_i ne
      have other : q.index ≠ r.index := fun eq => ne (PageRef.index_inj.1 eq)
      rw [h.state q]
      apply if_congr _ rfl rfl
      omega
  · dsimp only
    rw [Function.update_apply]
    split
    · rename_i eq
      rw [eq, Option.some.injEq, PageRef.phys_inj, ← PageRef.index_inj, index, value]
      omega
    · rename_i ne
      have other : k.val ≠ l.val := fun eq => ne (Fin.ext eq)
      exact h.mapped q k low (by omega)
  · have ne : k ≠ l := fun eq => out (by rw [eq]; omega)
    dsimp only
    rw [Function.update_of_ne ne]
    exact h.unmapped k fun inside => out (by omega)
  · dsimp only
    rw [Function.update_apply]
    split
    · rename_i eq
      have same := PageRef.phys_inj.1 eq
      rw [same, Option.some.injEq, Fin.ext_iff, index, value]
      omega
    · rename_i ne
      have other : q.index ≠ r.index := fun eq => ne (PageRef.phys_inj.2 (PageRef.index_inj.1 eq))
      exact h.entry q k low (by omega)
  · have ne : q.phys ≠ r.phys := fun eq => out (by rw [PageRef.phys_inj.1 eq]; omega)
    dsimp only
    rw [Function.update_of_ne ne]
    exact h.other q fun inside => out (by omega)

/-- Inside the tables and the planes, the loop enters the whole range. -/
theorem allocate_entered (f : FTL) (lbas : startLba.toNat + n ≤ ftlMaxLbas) (backed : n = 0 ∨ phys + n ≤ ftlBackedPages) :
    ∃ f', (List.range n).foldlM (allocatePage startLba phys) f = some f' ∧ Entered f startLba.toNat phys n f' := by
  have upTo : ∀ i, i ≤ n → ∃ f', (List.range i).foldlM (allocatePage startLba phys) f = some f' ∧
      Entered f startLba.toNat phys i f' := by
    intro i le
    induction i with
    | zero =>
      refine ⟨f, rfl, fun r => (if_neg (by omega)).symm, fun r l low high => ?_, fun l _ => rfl, fun r l low high => ?_,
        fun r _ => rfl⟩
      · omega
      · omega
    | succ i ih =>
      obtain ⟨f₁, before, entered⟩ := ih (by omega)
      obtain ⟨f₂, round, entered'⟩ := entered.step lbas (backed.resolve_left (by omega)) le
      refine ⟨f₂, ?_, entered'⟩
      rw [List.range_succ, foldlM_snoc, before]
      exact round
  exact upTo n (Nat.le_refl n)

/-- Entering a run of FREE pages keeps the mapping invariant if and only if no LBA of the range has a VALID
page before, and no other LBA is mapped to a page of the run. -/
theorem Entered.mapInv_iff (h : Entered f startLba.toNat phys n f') (inv : MapInv f)
    (free : ∀ i < n, FreeAt f (phys + i)) :
    MapInv f' ↔ Unmapped f startLba.toNat n ∧ Untaken f startLba.toNat n phys := by
  -- a page of the run was FREE
  have fresh (r : PageRef) (low : phys ≤ r.index) (high : r.index < phys + n) : (f.page r).state = .free := by
    obtain ⟨q, eq, state⟩ := free (r.index - phys) (by omega)
    obtain rfl : q = r := PageRef.index_inj.1 (by omega)
    exact state
  constructor
  · intro inv'
    constructor
    · intro l r low high mapped valid
      have out : ¬ (phys ≤ r.index ∧ r.index < phys + n) := by
        rintro ⟨low', high'⟩
        rw [fresh r low' high'] at valid
        cases valid
      have valid' : (f'.page r).state = .valid := by rw [h.state r, if_neg out, valid]
      have entry := (inv.inverse r l valid).2 mapped
      rw [← h.other r out, inv'.inverse r l valid', h.mapped r l low high] at entry
      omega
    · intro l r outside low high mapped
      have valid' : (f'.page r).state = .valid := by rw [h.state r, if_pos ⟨low, high⟩]
      rw [← h.unmapped l outside, ← inv'.inverse r l valid', h.entry r l low high] at mapped
      omega
  · rintro ⟨stale, alone⟩
    refine MapInv.of_inverse fun r l valid' => ?_
    by_cases run : phys ≤ r.index ∧ r.index < phys + n
    · rw [h.entry r l run.1 run.2]
      by_cases inside : startLba.toNat ≤ l.val ∧ l.val < startLba.toNat + n
      · rw [h.mapped r l inside.1 inside.2]
        omega
      · rw [h.unmapped l inside]
        exact iff_of_false (by omega) (alone l r inside run.1 run.2)
    · rw [h.state r, if_neg run] at valid'
      rw [h.other r run, inv.inverse r l valid']
      by_cases inside : startLba.toNat ≤ l.val ∧ l.val < startLba.toNat + n
      · rw [h.mapped r l inside.1 inside.2]
        exact iff_of_false (fun mapped => stale l r inside.1 inside.2 mapped valid') (by omega)
      · rw [h.unmapped l inside]

/-- Where the sum wraps, the first round is outside `mapping_table`. -/
theorem allocate_wraps (f : FTL) {n : Nat} (wraps : 2 ^ 32 ≤ startLba.toNat + n) (free : ∀ i < n, FreeAt f (phys + i)) :
    (List.range n).foldlM (allocatePage startLba phys) f = none := by
  have small := startLba.toNat_lt
  obtain ⟨m, rfl⟩ : ∃ m, n = m + 1 := Nat.exists_eq_succ_of_ne_zero (by omega)
  have last : phys + m < 8192 := (free m (Nat.lt_succ_self m)).lt
  obtain ⟨r, index, -⟩ := free 0 (Nat.succ_pos m)
  have page : getPhysicalPage (phys % ftlMaxPhysicalPages) = some r := by
    rw [Nat.mod_eq_of_lt (by change phys < 65536; omega)]
    exact get_physical_page_eq_some.2 index
  have outside : ¬ startLba.toNat < ftlMaxLbas := by
    change ¬ _ < 16384
    omega
  have lba : startLba + UInt32.ofNat 0 = startLba := (congrArg (startLba + ·) (rfl : UInt32.ofNat 0 = 0)).trans (UInt32.add_zero _)
  have first : allocatePage startLba phys f 0 = none := by
    unfold allocatePage
    simp only [Nat.add_zero, page, lba, outside, dite_false]
  rw [List.range_succ_eq_map, List.foldlM_cons, first]
  rfl

end Loop

/-! ## The call -/

/-- The call changes nothing and needs nothing, or it enters the run. -/
theorem ftl_allocate_run (f : FTL) (startLba numPages : UInt32) :
    (∃ ret, ret ≠ 0 ∧ ftlAllocateBlock f startLba numPages = some (ret, f) ∧ AllocateReady f startLba numPages) ∨
      ∃ phys, RunAt f numPages.toNat f.writePointer.val phys ∧
        ftlAllocateBlock f startLba numPages =
          ((List.range numPages.toNat).foldlM (allocatePage startLba phys) f).map (fun f => (0, f)) ∧
        (startLba.toNat + numPages.toNat < 2 ^ 32 → startLba.toNat + numPages.toNat ≤ ftlMaxLbas) ∧
        (AllocateReady f startLba numPages ↔ startLba.toNat + numPages.toNat < 2 ^ 32 ∧
          (MapInv f → Unmapped f startLba.toNat numPages.toNat ∧ Untaken f startLba.toNat numPages.toNat phys)) := by
  obtain ⟨search, missing⟩ := allocateSearch_run (f := f) (n := numPages.toNat) (Nat.zero_le f.writePointer.val)
    (Nat.zero_le _) fun j lt => absurd lt (Nat.not_lt_zero _)
  rw [Nat.sub_zero] at search missing
  obtain ⟨ret, ne, same, none⟩ | ⟨b, inside, enough, found, call⟩ := ftl_allocate_cases f startLba numPages
  · exact .inl ⟨ret, ne, same, fun inside enough phys run => absurd run (missing (none inside enough) phys)⟩
  obtain ⟨-, run⟩ := search b found
  refine .inr ⟨b - numPages.toNat, run, call, lbas_inside inside, ?_, ?_⟩
  · exact fun ready => ready inside enough _ run
  · rintro holds - - phys run'
    rw [← run.unique run']
    exact holds

/-- In every state, an allocation is right if and only if it is ready. -/
theorem allocate_right_iff (f : FTL) (startLba numPages : UInt32) :
    AllocateRight f startLba numPages ↔ AllocateReady f startLba numPages := by
  obtain ⟨ret, ne, call, ready⟩ | ⟨phys, run, call, inside, ready⟩ := ftl_allocate_run f startLba numPages
  · refine iff_of_true ⟨ret, f, call, fun _ => rfl, fun zero => absurd zero ne, fun inv => inv⟩ ready
  rw [ready]
  by_cases small : startLba.toNat + numPages.toNat < 2 ^ 32
  · obtain ⟨f', loop, entered⟩ := allocate_entered f (inside small) run.backed
    rw [and_iff_right small]
    constructor
    · rintro ⟨ret, f'', result, -, -, keeps⟩ inv
      rw [call, loop] at result
      obtain rfl := (Prod.mk.inj (Option.some.inj result)).2
      exact (entered.mapInv_iff inv run.free).1 (keeps inv)
    · intro holds
      refine ⟨0, f', by rw [call, loop]; rfl, fun ne => absurd rfl ne, fun _ => ⟨phys, fun i lt => ?_⟩,
        fun inv => (entered.mapInv_iff inv run.free).2 (holds inv)⟩
      obtain ⟨r, index, free⟩ := run.free i lt
      have below := inside small
      refine ⟨r, ⟨startLba.toNat + i, by omega⟩, index, rfl, free, ?_, ?_⟩
      · rw [entered.state r, if_pos (by omega)]
      · refine (entered.mapped r _ (Nat.le_add_right _ _) (Nat.add_lt_add_left lt _)).2 ?_
        dsimp only
        omega
  · refine iff_of_false ?_ fun h => small h.1
    rintro ⟨ret, f', result, -⟩
    rw [call, allocate_wraps f (Nat.le_of_not_lt small) run.free] at result
    cases result

/-! ## Runs -/

/-- The mapping invariant, where no LBA is mapped to a FREE page either. -/
structure MapUsed (f : FTL) : Prop extends MapInv f where
  used : ∀ (l : Lba) (r : PageRef), f.mappingTable l = some r.phys → (f.page r).state ≠ .free

/-- The copies leave no LBA behind in the victim. -/
def Emptied (f : FTL) (victim : BlockRef) : Prop :=
  ∀ (m : GCMetrics) (l : Lba) (r : PageRef), r.block = victim → (migrated m f victim).mappingTable l ≠ some r.phys

/-- What a call needs to keep the mapping invariant: a write into the buffer itself does not enter the
page in `reverse_map`, and a flush retires pages without the tables. -/
def MapReady (s : FTL × FTLExtended) : PageCall → Prop
  | .allocateBlock startLba numPages => AllocateReady s.1 startLba numPages
  | .bufferWrite _ _ => s.2.Direct
  | .bufferFlush => s.2.slcPages = []
  | .gcTrigger gc => ∀ victim, gcVictim gc s.1 = some victim → Emptied s.1 victim
  | _ => True

namespace MapUsed
variable {f f' : FTL} {r : PageRef} {l : Lba}

theorem init (mode : FTLMappingMode) : MapUsed (ftlInit mode) := by
  refine ⟨MapInv.of_inverse fun r l valid => ?_, fun l r mapped => ?_⟩
  · cases valid
  · cases mapped

theorem congr (h : MapUsed f) (page : f'.page = f.page) (map : f'.mappingTable = f.mappingTable)
    (back : f'.reverseMap = f.reverseMap) : MapUsed f' := by
  refine ⟨MapInv.of_inverse fun r l valid => ?_, fun l r mapped => ?_⟩
  · rw [page] at valid
    rw [map, back]
    exact h.inverse r l valid
  · rw [map] at mapped
    rw [page]
    exact h.used l r mapped

/-- Retiring the old page of an LBA takes it out of `reverse_map`. -/
theorem retireOld (h : MapUsed f) (l : Lba) : MapUsed (retireOld f l) := by
  refine ⟨MapInv.of_inverse fun r k valid => ?_, fun k r mapped => ?_⟩
  · rw [FTL.page_retireOld] at valid
    split at valid
    · cases valid
    · rename_i other
      rw [FTL.retireOld_mappingTable, FTL.retireOld_reverseMap, if_neg other]
      exact h.inverse r k valid
  · rw [FTL.retireOld_mappingTable] at mapped
    rw [FTL.page_retireOld]
    split
    · exact fun free => by cases free
    · exact h.used k r mapped

theorem retired (f : FTL) {l : Lba} {r : PageRef} (mapped : (Storage.retireOld f l).mappingTable l = some r.phys) :
    ((Storage.retireOld f l).page r).state ≠ .valid := by
  rw [FTL.retireOld_mappingTable] at mapped
  rw [FTL.page_retireOld, if_pos mapped]
  exact fun valid => by cases valid

/-- Programming a FREE page for an LBA without a VALID one. -/
theorem program (h : MapUsed f) (free : (f.page r).state = .free)
    (stale : ∀ q : PageRef, f.mappingTable l = some q.phys → (f.page q).state ≠ .valid) (d : PageData) :
    MapUsed (programPage { f with writePointer := r.phys } r l d) := by
  refine ⟨MapInv.of_inverse fun q k valid => ?_, fun k q mapped => ?_⟩
  · rw [FTL.programPage_mappingTable, FTL.programPage_reverseMap]
    dsimp only
    by_cases same : q = r
    · rw [same, Function.update_self, Option.some.injEq]
      constructor
      · rintro rfl
        exact Function.update_self ..
      · intro mapped
        by_contra ne
        rw [Function.update_of_ne (Ne.symm ne)] at mapped
        exact h.used k r mapped free
    · rw [FTL.page_programPage, if_neg same] at valid
      rw [Function.update_of_ne fun eq => same (PageRef.phys_inj.1 eq), h.inverse q k valid]
      by_cases own : k = l
      · rw [own, Function.update_self]
        refine iff_of_false (fun mapped => stale q mapped valid) fun eq => ?_
        exact same (PageRef.phys_inj.1 (Option.some.inj eq)).symm
      · rw [Function.update_of_ne own]
  · rw [FTL.page_programPage]
    split
    · exact fun state => by cases state
    · rename_i ne
      rw [FTL.programPage_mappingTable] at mapped
      by_cases own : k = l
      · rw [own, Function.update_self] at mapped
        exact absurd (PageRef.phys_inj.1 (Option.some.inj mapped)).symm ne
      · rw [Function.update_of_ne own] at mapped
        exact h.used k q mapped

theorem write (h : MapUsed f) (lba : UInt32) (data : PageData) : MapUsed (ftlWrite f lba data).2 := by
  have out := ftl_write_outcome f lba data
  generalize ftlWrite f lba data = w at out ⊢
  cases out with
  | outOfRange beyond => exact h
  | noCount lt zero => exact h.retireOld _
  | noPage lt wp end_ full => exact (h.retireOld _).congr rfl rfl rfl
  | programmed lt r count ahead free first => exact (h.retireOld _).program free (fun q => retired f) data

theorem trim (h : MapUsed f) (lba : UInt32) : MapUsed (ftlTrim f lba).2 := by
  unfold ftlTrim
  split
  · rename_i lt
    split
    · rename_i p mapped
      have old : Storage.retireOld f ⟨lba.toNat, lt⟩ = retirePage f p := by
        unfold Storage.retireOld
        rw [mapped]
      have kept := h.retireOld ⟨lba.toNat, lt⟩
      have gone (q : PageRef) := retired f (l := ⟨lba.toNat, lt⟩) (r := q)
      rw [old] at kept gone
      refine ⟨MapInv.of_inverse fun q k valid => ?_, fun k q mapped => ?_⟩
      · dsimp only
        rw [kept.inverse q k valid]
        by_cases own : k = ⟨lba.toNat, lt⟩
        · rw [own, Function.update_self]
          exact iff_of_false (fun mapped => gone q mapped valid) fun none => by cases none
        · rw [Function.update_of_ne own]
      · dsimp only at mapped
        by_cases own : k = ⟨lba.toNat, lt⟩
        · rw [own, Function.update_self] at mapped
          cases mapped
        · rw [Function.update_of_ne own] at mapped
          exact kept.used k q mapped
    · exact h
  · exact h

theorem allocate (h : MapUsed f) {startLba numPages : UInt32} (ready : AllocateReady f startLba numPages) :
    ∃ ret f', ftlAllocateBlock f startLba numPages = some (ret, f') ∧ MapUsed f' := by
  obtain ⟨ret, -, call, -⟩ | ⟨phys, run, call, inside, need⟩ := ftl_allocate_run f startLba numPages
  · exact ⟨ret, f, call, h⟩
  obtain ⟨small, holds⟩ := need.1 ready
  obtain ⟨f', loop, entered⟩ := allocate_entered f (inside small) run.backed
  refine ⟨0, f', by rw [call, loop]; rfl, (entered.mapInv_iff h.toMapInv run.free).2 (holds h.toMapInv), fun l r mapped => ?_⟩
  rw [entered.state r]
  split
  · exact fun free => by cases free
  · rename_i out
    have other : ¬ (startLba.toNat ≤ l.val ∧ l.val < startLba.toNat + numPages.toNat) := by
      rintro ⟨low, high⟩
      rw [entered.mapped r l low high] at mapped
      omega
    rw [entered.unmapped l other] at mapped
    exact h.used l r mapped

theorem migrate (h : MapUsed f) (m : GCMetrics) (victim : BlockRef) : MapUsed (migrated m f victim) := by
  refine finRange_foldl_invariant (s := (m, f)) (motive := fun _ s => MapUsed s.2) h fun i s kept => ?_
  obtain ⟨same, -⟩ | ⟨l, stats, -, -, moved⟩ := migrate_page_outcome victim s.1 s.2 i
  · rw [same]
    exact kept
  · rw [moved]
    exact (kept.write _ _).congr rfl rfl rfl

theorem eraseBlock (h : MapUsed f) {victim : BlockRef}
    (moved : ∀ (l : Lba) (r : PageRef), r.block = victim → f.mappingTable l ≠ some r.phys) :
    MapUsed (eraseBlock f victim) := by
  refine ⟨MapInv.of_inverse fun r l valid => ?_, fun l r mapped => ?_⟩
  · rw [page_eraseBlock] at valid
    split at valid
    · cases valid
    · exact h.inverse r l valid
  · rw [page_eraseBlock, if_neg fun block => moved l r block mapped]
    exact h.used l r mapped

/-- The step lemma. -/
theorem pageCall {s : FTL × FTLExtended} (h : MapUsed s.1) {call : PageCall} (ready : MapReady s call) :
    ∃ s', Storage.pageCall s call = some s' ∧ MapUsed s'.1 := by
  cases call with
  | write lba data => exact ⟨_, rfl, h.write lba data⟩
  | trim lba => exact ⟨_, rfl, h.trim lba⟩
  | allocateBlock startLba numPages =>
    obtain ⟨ret, f', call, kept⟩ := h.allocate ready
    refine ⟨(f', s.2), ?_, kept⟩
    rw [Storage.pageCall, call]
    rfl
  | bufferWrite lba data =>
    have direct : s.2.Direct := ready
    by_cases lt : lba.toNat < ftlMaxLbas
    · refine ⟨_, dif_pos lt, ?_⟩
      rw [ftlSlcBufferWrite, if_pos direct]
      exact h.write _ data
    · exact ⟨_, (dif_neg lt).trans (if_pos direct), h.write lba data⟩
  | bufferFlush =>
    have empty : s.2.slcPages = [] := ready
    refine ⟨_, rfl, ?_⟩
    rw [ftlSlcBufferFlush, empty]
    exact h
  | gcTrigger gc =>
    refine ⟨_, rfl, ?_⟩
    obtain ⟨-, -, same⟩ | ⟨victim, m, collects, -, result⟩ := gc_trigger_outcome gc s.1
    · dsimp only
      rw [same]
      exact h
    · dsimp only
      rw [result]
      exact (h.migrate m victim).eraseBlock (ready victim collects m)

end MapUsed

/-- **`ftl_allocate_block` keeps the tables if and only if no page of the range is left behind.** In every
state, a call stays in the tables, changes nothing when it fails, maps the range to FREE pages in a row and
keeps the mapping invariant if and only if it meets `AllocateReady`. In every run of a new device whose calls
meet `MapReady`, the invariant holds in every state. -/
theorem ftl_allocate_keeps_map (mode : FTLMappingMode) (enabled : Bool) (calls : List PageCall) :
    (∀ f startLba numPages, AllocateRight f startLba numPages ↔ AllocateReady f startLba numPages) ∧
      (Guarded pageStep (fun s call => ∀ x, s = some x → MapReady x call) (pageInit mode enabled) calls →
        ∀ before rest, calls = before ++ rest →
          ∃ x, run pageStep (pageInit mode enabled) before = some x ∧ MapInv x.1) := by
  refine ⟨allocate_right_iff, fun guard before rest eq => ?_⟩
  rw [eq] at guard
  obtain ⟨x, state, kept⟩ := guarded_invariant (motive := fun s => ∃ x, s = some x ∧ MapUsed x.1)
    (by
      rintro _ call ⟨x, rfl, kept⟩ ready
      exact kept.pageCall (ready x rfl))
    ⟨_, rfl, MapUsed.init mode⟩ (guarded_append.1 guard).1
  exact ⟨x, state, kept.toMapInv⟩

/-- The last LBA of the 32 bits passes the check, and LBA 0 keeps its first page as well. -/
theorem ftl_allocate_leaves_page :
    ¬ AllocateRight (ftlInit .pageLevel) 4294967295 1 ∧ ¬ AllocateRight (storeRun .pageLevel (fillOps 1)) 0 1 := by
  constructor
  · rw [allocate_right_iff]
    intro ready
    have run : RunAt (ftlInit .pageLevel) 1 0 0 := by
      refine .here fun i lt => ⟨firstPage, ?_, rfl⟩
      rw [Nat.lt_one_iff.1 lt]
      rfl
    exact absurd (ready (by decide) (by decide) 0 run).1 (by decide)
  · obtain ⟨filled, -⟩ := filled_run .pageLevel 1 (by decide)
    have inv : MapInv (storeRun .pageLevel (fillOps 1)) := ((MapUsed.init .pageLevel).write 0 patternPage).toMapInv
    rw [allocate_right_iff]
    intro ready
    obtain ⟨q, page⟩ : ∃ q, getPhysicalPage 1 = some q := ⟨_, rfl⟩
    have index : q.index = 1 := get_physical_page_eq_some.1 page
    have run : RunAt (storeRun .pageLevel (fillOps 1)) 1 (storeRun .pageLevel (fillOps 1)).writePointer.val 1 := by
      rw [filled.pointer]
      refine .here fun i lt => ⟨q, ?_, filled.free q (Nat.le_of_eq index.symm)⟩
      rw [Nat.lt_one_iff.1 lt]
      exact index
    have enough : (1 : UInt32) ≤ (storeRun .pageLevel (fillOps 1)).freePages := by
      rw [UInt32.le_iff_toNat_le, filled.count]
      decide
    obtain ⟨stale, -⟩ := (ready (by decide) enough 1 run).2 inv
    cases mapped : (storeRun .pageLevel (fillOps 1)).mappingTable 0 with
    | none =>
      have := (filled.mapped 0).1 mapped
      exact absurd this (by decide)
    | some p =>
      obtain ⟨r, rfl, valid, -⟩ := filled.inv.mapped 0 p mapped
      exact stale 0 r (by decide) (by decide) mapped valid

end MiniHardware.Storage
