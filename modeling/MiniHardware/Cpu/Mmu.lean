import MiniHardware.Lib.Index
import MiniHardware.Lib.Trace

/-!
# The MMU (`mini-cpu-arch/src/memory_system.c`)

A page table, and a TLB of 64 entries in front of it. `mmu_translate` asks the
TLB first and enters what it had to look up in the table. Nothing but a flush
takes an entry out, so a changed mapping is seen only after one.
-/

namespace MiniHardware.Cpu
open Lib

structure PageTableEntry where
  valid : Bool
  readable : Bool
  writable : Bool
  executable : Bool
  userAccessible : Bool
  accessed : Bool
  dirty : Bool
  pfn : UInt32

/-- The bytes of an entry set to zero. -/
def zeroEntry : PageTableEntry := ⟨false, false, false, false, false, false, false, 0⟩

/-- `MAX_PAGE_TABLE_LEVELS`. -/
abbrev maxPageTableLevels : UInt32 := 4

/-- The entries in use are those below `num_entries`. -/
structure PageTable where
  entries : Nat → PageTableEntry
  numEntries : UInt32
  levels : UInt32

inductive TLBReplacePolicy where
  | lru | fifo | random
deriving DecidableEq

structure TLBEntry where
  valid : Bool
  vpn : UInt32
  pfn : UInt32
  asid : UInt32
  globalPage : Bool
  accessOrder : UInt32
  accessCount : UInt32

/-- `TLB_ENTRIES`. -/
abbrev tlbEntries : Nat := 64

structure TLB where
  entries : Vector TLBEntry tlbEntries
  policy : TLBReplacePolicy
  clock : UInt32
  hits : UInt32
  misses : UInt32
  accesses : UInt32
  evictions : UInt32

/-! ## Addresses and the page table -/

def vaVpn (addr : UInt32) : UInt32 := addr >>> 12

def vaOffset (addr : UInt32) : UInt32 := addr &&& (4096 - 1)

def pagetableInit (numEntries levels : UInt32) : PageTable :=
  { entries := fun _ => zeroEntry
    numEntries := numEntries
    levels := if levels > 0 ∧ levels ≤ maxPageTableLevels then levels else 2 }

def setEntry (pt : PageTable) (vpn : UInt32) (pte : PageTableEntry) : PageTable :=
  { pt with entries := fun k => if k = vpn.toNat then pte else pt.entries k }

def pagetableMap (pt : PageTable) (vpn pfn : UInt32) (writable executable user : Bool) :
    PageTable :=
  if vpn ≥ pt.numEntries then pt
  else
    setEntry pt vpn
      { valid := true
        readable := true
        writable := writable
        executable := executable
        userAccessible := user
        accessed := false
        dirty := false
        pfn := pfn }

def pagetableUnmap (pt : PageTable) (vpn : UInt32) : PageTable :=
  if vpn ≥ pt.numEntries then pt else setEntry pt vpn zeroEntry

/-- `NULL` is `none`. -/
def pagetableLookup (pt : PageTable) (vpn : UInt32) : Option PageTableEntry :=
  if vpn ≥ pt.numEntries then none
  else if (pt.entries vpn.toNat).valid then some (pt.entries vpn.toNat) else none

/-! ## The TLB -/

def tlbInit (policy : TLBReplacePolicy) : TLB :=
  { entries := Vector.replicate tlbEntries ⟨false, 0, 0, 0, false, 0, 0⟩
    policy := policy
    clock := 0
    hits := 0
    misses := 0
    accesses := 0
    evictions := 0 }

def tlbMatches (e : TLBEntry) (vpn asid : UInt32) : Bool :=
  e.valid && (e.vpn == vpn && (e.globalPage || e.asid == asid))

/-- The first entry with the translation. -/
def tlbFind (tlb : TLB) (vpn asid : UInt32) : Option (Fin tlbEntries) :=
  (List.finRange tlbEntries).find? fun i => tlbMatches (tlb.entries.get i) vpn asid

/-- Entry `i` is used: it gets the next time of the clock. -/
def touch (tlb : TLB) (i : Fin tlbEntries) (e : TLBEntry) : TLB :=
  { tlb with
    entries := tlb.entries.set i
      { e with accessOrder := tlb.clock, accessCount := e.accessCount + 1 }
    clock := tlb.clock + 1 }

/-- The frame found, and the TLB after the access. -/
def tlbLookup (tlb : TLB) (vpn asid : UInt32) : Option UInt32 × TLB :=
  let tlb := { tlb with accesses := tlb.accesses + 1 }
  match tlbFind tlb vpn asid with
  | some i =>
    (some (tlb.entries.get i).pfn, touch { tlb with hits := tlb.hits + 1 } i (tlb.entries.get i))
  | none => (none, { tlb with misses := tlb.misses + 1 })

/-- The loop of FIFO and LRU: the least `access_order` so far, and its entry. -/
def oldestStep (tlb : TLB) (s : UInt32 × Option (Fin tlbEntries)) (i : Fin tlbEntries) :
    UInt32 × Option (Fin tlbEntries) :=
  let e := tlb.entries.get i
  if ¬e.globalPage ∧ e.accessOrder < s.1 then (e.accessOrder, some i) else s

/-- The slot that is evicted; `rand` is what the random generator would return. -/
def tlbVictim (tlb : TLB) (rand : Nat) : Fin tlbEntries :=
  match tlb.policy with
  | .fifo | .lru =>
    ((List.finRange tlbEntries).foldl (oldestStep tlb) (0xFFFFFFFF, none)).2.getD ⟨0, by decide⟩
  | .random => ⟨rand % tlbEntries, Nat.mod_lt _ (by decide)⟩

def tlbInsert (tlb : TLB) (vpn pfn asid : UInt32) (global : Bool) (rand : Nat) : TLB :=
  match tlbFind tlb vpn asid with
  | some i => touch tlb i { tlb.entries.get i with pfn := pfn }
  | none =>
    let empty := (List.finRange tlbEntries).find? fun i => !(tlb.entries.get i).valid
    let slot := empty.getD (tlbVictim tlb rand)
    { tlb with
      entries := tlb.entries.set slot ⟨true, vpn, pfn, asid, global, tlb.clock, 1⟩
      clock := tlb.clock + 1
      evictions := if empty.isNone then tlb.evictions + 1 else tlb.evictions }

def tlbFlush (tlb : TLB) : TLB :=
  { tlb with
    entries := tlb.entries.map fun e => if ¬e.globalPage then { e with valid := false } else e }

/-! ## Translation -/

/-- The physical address, or `none` for a fault, and the TLB. -/
def mmuTranslate (tlb : TLB) (pt : PageTable) (vaddr : UInt32) (rand : Nat) :
    Option UInt32 × TLB :=
  match tlbLookup tlb (vaVpn vaddr) 0 with
  | (some pfn, tlb) => (some ((pfn <<< 12) ||| vaOffset vaddr), tlb)
  | (none, tlb) =>
    match pagetableLookup pt (vaVpn vaddr) with
    | none => (none, tlb)
    | some pte =>
      (some ((pte.pfn <<< 12) ||| vaOffset vaddr), tlbInsert tlb (vaVpn vaddr) pte.pfn 0 false rand)

/-- A direct walk of the page table. -/
def walk (pt : PageTable) (vaddr : UInt32) : Option UInt32 :=
  (pagetableLookup pt (vaVpn vaddr)).map fun (pte : PageTableEntry) =>
    (pte.pfn <<< 12) ||| vaOffset vaddr

/-! ## Runs -/

/-- `stale` is no part of the code: a virtual page that was mapped has been
mapped again or unmapped since the last flush. -/
structure Mmu where
  tlb : TLB
  pt : PageTable
  stale : Bool

inductive MmuOp where
  | translate (vaddr : UInt32) (rand : Nat)
  | map (vpn pfn : UInt32) (writable executable user : Bool)
  | unmap (vpn : UInt32)
  | flush

def mmuInit (policy : TLBReplacePolicy) (numEntries levels : UInt32) : Mmu :=
  ⟨tlbInit policy, pagetableInit numEntries levels, false⟩

def mmuStep (s : Mmu) : MmuOp → Mmu
  | .translate vaddr rand => { s with tlb := (mmuTranslate s.tlb s.pt vaddr rand).2 }
  | .map vpn pfn writable executable user =>
    { s with
      pt := pagetableMap s.pt vpn pfn writable executable user
      stale := s.stale || (pagetableLookup s.pt vpn).isSome }
  | .unmap vpn =>
    { s with
      pt := pagetableUnmap s.pt vpn
      stale := s.stale || (pagetableLookup s.pt vpn).isSome }
  | .flush => { s with tlb := tlbFlush s.tlb, stale := false }

/-- No translation between a change of a mapped page and the flush. -/
def FlushedBefore (s : Mmu) : MmuOp → Prop
  | .translate _ _ => s.stale = false
  | _ => True

instance flushedBeforeDecidable (s : Mmu) : ∀ op, Decidable (FlushedBefore s op)
  | .translate _ _ => inferInstanceAs (Decidable (s.stale = false))
  | .map _ _ _ _ _ => inferInstanceAs (Decidable True)
  | .unmap _ => inferInstanceAs (Decidable True)
  | .flush => inferInstanceAs (Decidable True)

/-! ## The entries of the TLB -/

/-- `P` holds of every entry in use. -/
def Live (P : TLBEntry → Prop) (tlb : TLB) : Prop :=
  ∀ i, (tlb.entries.get i).valid = true → P (tlb.entries.get i)

section Live

variable {P : TLBEntry → Prop} {tlb : TLB}

theorem tlb_find_matches {vpn asid : UInt32} {i : Fin tlbEntries}
    (h : tlbFind tlb vpn asid = some i) :
    (tlb.entries.get i).valid = true ∧ (tlb.entries.get i).vpn = vpn := by
  have m : tlbMatches (tlb.entries.get i) vpn asid = true := by
    simpa only using List.find?_some h
  simp only [tlbMatches, Bool.and_eq_true, beq_iff_eq] at m
  exact ⟨m.1, m.2.1⟩

theorem Live.touch (live : Live P tlb) {i : Fin tlbEntries} {e : TLBEntry}
    (h : P { e with accessOrder := tlb.clock, accessCount := e.accessCount + 1 }) :
    Live P (touch tlb i e) := by
  intro k valid
  unfold Cpu.touch at valid ⊢
  dsimp only at valid ⊢
  rw [get_set] at valid ⊢
  split at valid
  · rw [if_pos ‹_›]
    exact h
  · rw [if_neg ‹_›]
    exact live k valid

/-- A lookup changes nothing but the recency of the entry it finds. -/
theorem Live.lookup (live : Live P tlb)
    (used : ∀ e order count, P e → P { e with accessOrder := order, accessCount := count })
    (vpn asid : UInt32) : Live P (tlbLookup tlb vpn asid).2 := by
  unfold tlbLookup
  dsimp only
  split
  · rename_i i found
    have live' : Live P { tlb with accesses := tlb.accesses + 1, hits := tlb.hits + 1 } := live
    apply live'.touch
    exact used _ _ _ (live i (tlb_find_matches found).1)
  · exact live

theorem Live.insert (live : Live P tlb)
    (used : ∀ e order count, P e → P { e with accessOrder := order, accessCount := count })
    {vpn pfn asid : UInt32} {global : Bool}
    (update : ∀ e, e.vpn = vpn → P e → P { e with pfn := pfn })
    (fresh : ∀ order, P ⟨true, vpn, pfn, asid, global, order, 1⟩) (rand : Nat) :
    Live P (tlbInsert tlb vpn pfn asid global rand) := by
  unfold tlbInsert
  split
  · rename_i i found
    have hit := tlb_find_matches found
    apply live.touch
    apply used { tlb.entries.get i with pfn := pfn }
    exact update _ hit.2 (live i hit.1)
  · intro k valid
    dsimp only at valid ⊢
    rw [get_set] at valid ⊢
    split at valid
    · rw [if_pos ‹_›]
      exact fresh _
    · rw [if_neg ‹_›]
      exact live k valid

/-- With no global entry in use, nothing outlives a flush. -/
theorem Live.flush (live : Live (fun e => e.globalPage = false) tlb) : Live P (tlbFlush tlb) := by
  intro i valid
  have entry : (tlbFlush tlb).entries.get i =
      if ¬(tlb.entries.get i).globalPage then { tlb.entries.get i with valid := false }
      else tlb.entries.get i := Vector.getElem_map _ i.isLt
  rw [entry] at valid
  split at valid
  · cases valid
  · rename_i global
    exact absurd (live i valid) (by simpa using global)

end Live

/-! ## The invariant -/

/-- The entry says what the table says. -/
def Agrees (pt : PageTable) (e : TLBEntry) : Prop :=
  (pagetableLookup pt e.vpn).map PageTableEntry.pfn = some e.pfn

structure Coherent (s : Mmu) : Prop where
  notGlobal : Live (fun e => e.globalPage = false) s.tlb
  agrees : s.stale = false → Live (Agrees s.pt) s.tlb

theorem coherent_init (policy : TLBReplacePolicy) (numEntries levels : UInt32) :
    Coherent (mmuInit policy numEntries levels) := by
  have none_live : ∀ P : TLBEntry → Prop, Live P (tlbInit policy) := by
    intro P i valid
    have invalid : ((tlbInit policy).entries.get i).valid = false :=
      congrArg TLBEntry.valid (get_replicate _ i)
    rw [invalid] at valid
    cases valid
  exact ⟨none_live _, fun _ => none_live _⟩

/-- A change of one entry of the table is not seen at the other page numbers. -/
theorem lookup_setEntry {pt : PageTable} {vpn v : UInt32} {pte : PageTableEntry} (ne : v ≠ vpn) :
    pagetableLookup (setEntry pt vpn pte) v = pagetableLookup pt v := by
  have key : v.toNat ≠ vpn.toNat := fun eq => ne (UInt32.toNat_inj.1 eq)
  have same : (setEntry pt vpn pte).entries v.toNat = pt.entries v.toNat := if_neg key
  unfold pagetableLookup
  rw [same]
  rfl

/-- A page that was not mapped is not in the TLB, so that its entry may change. -/
theorem Live.setEntry {tlb : TLB} {pt : PageTable} {vpn : UInt32} (live : Live (Agrees pt) tlb)
    (unmapped : pagetableLookup pt vpn = none) (pte : PageTableEntry) :
    Live (Agrees (setEntry pt vpn pte)) tlb := by
  intro i valid
  have old : Agrees pt (tlb.entries.get i) := live i valid
  have ne : (tlb.entries.get i).vpn ≠ vpn := by
    intro eq
    rw [Agrees, eq, unmapped] at old
    cases old
  rw [Agrees, lookup_setEntry ne]
  exact old

theorem coherent_map {s : Mmu} (c : Coherent s) (vpn pfn : UInt32)
    (writable executable user : Bool) :
    Coherent (mmuStep s (.map vpn pfn writable executable user)) where
  notGlobal := c.notGlobal
  agrees fresh := by
    simp only [mmuStep, Bool.or_eq_false_iff, Option.isSome_eq_false_iff,
      Option.isNone_iff_eq_none] at fresh ⊢
    unfold pagetableMap
    split
    · exact c.agrees fresh.1
    · exact (c.agrees fresh.1).setEntry fresh.2 _

theorem coherent_unmap {s : Mmu} (c : Coherent s) (vpn : UInt32) :
    Coherent (mmuStep s (.unmap vpn)) where
  notGlobal := c.notGlobal
  agrees fresh := by
    simp only [mmuStep, Bool.or_eq_false_iff, Option.isSome_eq_false_iff,
      Option.isNone_iff_eq_none] at fresh ⊢
    unfold pagetableUnmap
    split
    · exact c.agrees fresh.1
    · exact (c.agrees fresh.1).setEntry fresh.2 _

theorem coherent_flush {s : Mmu} (c : Coherent s) : Coherent (mmuStep s .flush) where
  notGlobal := c.notGlobal.flush
  agrees _ := c.notGlobal.flush

/-- What a translation does to the TLB: it uses an entry, or enters what the table says. -/
theorem Live.translate {P : TLBEntry → Prop} {tlb : TLB} {pt : PageTable} (live : Live P tlb)
    (used : ∀ e order count, P e → P { e with accessOrder := order, accessCount := count })
    (vaddr : UInt32)
    (update : ∀ pte, pagetableLookup pt (vaVpn vaddr) = some pte →
      ∀ e, e.vpn = vaVpn vaddr → P e → P { e with pfn := pte.pfn })
    (enter : ∀ pte, pagetableLookup pt (vaVpn vaddr) = some pte →
      ∀ order, P ⟨true, vaVpn vaddr, pte.pfn, 0, false, order, 1⟩) (rand : Nat) :
    Live P (mmuTranslate tlb pt vaddr rand).2 := by
  have looked := live.lookup used (vaVpn vaddr) 0
  unfold mmuTranslate
  split
  · rename_i eq
    rw [eq] at looked
    exact looked
  · rename_i eq
    rw [eq] at looked
    split
    · exact looked
    · rename_i pte found
      exact looked.insert used (update pte found) (enter pte found) rand

theorem coherent_translate {s : Mmu} (c : Coherent s) (vaddr : UInt32) (rand : Nat) :
    Coherent (mmuStep s (.translate vaddr rand)) where
  notGlobal := by
    apply c.notGlobal.translate
    · exact fun _ _ _ h => h
    · exact fun _ _ _ _ h => h
    · exact fun _ _ _ => rfl
  agrees fresh := by
    apply (c.agrees fresh).translate
    · exact fun _ _ _ h => h
    · intro pte found e at_vpn _
      rw [Agrees, at_vpn, found]
      rfl
    · intro pte found order
      rw [Agrees, found]
      rfl

theorem coherent_step (s : Mmu) (op : MmuOp) (c : Coherent s) : Coherent (mmuStep s op) := by
  cases op with
  | translate vaddr rand => exact coherent_translate c vaddr rand
  | map vpn pfn writable executable user => exact coherent_map c vpn pfn writable executable user
  | unmap vpn => exact coherent_unmap c vpn
  | flush => exact coherent_flush c

/-- With entries that agree with the table, it does not matter where a translation comes from. -/
theorem translate_eq_walk {tlb : TLB} {pt : PageTable} (live : Live (Agrees pt) tlb)
    (vaddr : UInt32) (rand : Nat) : (mmuTranslate tlb pt vaddr rand).1 = walk pt vaddr := by
  unfold mmuTranslate walk tlbLookup
  dsimp only
  cases found : tlbFind { tlb with accesses := tlb.accesses + 1 } (vaVpn vaddr) 0 with
  | some i =>
    have hit := tlb_find_matches found
    have agrees : Agrees pt (tlb.entries.get i) := live i hit.1
    rw [Agrees, hit.2, Option.map_eq_some_iff] at agrees
    obtain ⟨pte, lookup, pfn⟩ := agrees
    rw [lookup, Option.map_some, pfn]
  | none =>
    cases pagetableLookup pt (vaVpn vaddr) with
    | none => rfl
    | some pte => rfl

/-- As long as every change of a mapped page is followed by a flush before the next
translation, the TLB is not to be noticed: a translation gives what the page table gives. -/
theorem mmu_translate_walk (policy : TLBReplacePolicy) (numEntries levels : UInt32)
    (ops : List MmuOp)
    (guard : Guarded mmuStep FlushedBefore (mmuInit policy numEntries levels) ops)
    (fresh : (run mmuStep (mmuInit policy numEntries levels) ops).stale = false)
    (vaddr : UInt32) (rand : Nat) :
    let s := run mmuStep (mmuInit policy numEntries levels) ops
    (mmuTranslate s.tlb s.pt vaddr rand).1 = walk s.pt vaddr := by
  have coherent : Coherent (run mmuStep (mmuInit policy numEntries levels) ops) :=
    guarded_invariant (fun s op c _ => coherent_step s op c)
      (coherent_init policy numEntries levels) guard
  exact translate_eq_walk (coherent.agrees fresh) vaddr rand

/-- Page 1 moves from frame 7 to frame 9. -/
theorem mmu_translate_walk_moved :
    let s := run mmuStep (mmuInit .lru 4 2)
      [.map 1 7 true false true, .translate 0x1004 0, .unmap 1, .map 1 9 true false true, .flush]
    (mmuTranslate s.tlb s.pt 0x1008 0).1 = walk s.pt 0x1008 ∧ walk s.pt 0x1008 = some 0x9008 :=
  ⟨mmu_translate_walk .lru 4 2
      [.map 1 7 true false true, .translate 0x1004 0, .unmap 1, .map 1 9 true false true, .flush]
      (by decide) (by decide) 0x1008 0,
    by decide⟩

end MiniHardware.Cpu
