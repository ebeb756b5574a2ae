import MiniHardware.Cpu.Mmu

/-!
# Sharing of the TLB between address spaces (`mini-cpu-arch/src/memory_system.c`)

A lookup takes an entry of its own ASID or a global one. An insertion that finds
such an entry writes the frame only, so that a private translation can end up in
a global entry, and a global one in a private entry next to those of other
ASIDs. Where a page is never entered both ways, a lookup gives the latest
insertion that it may see (`tlb_latest_visible`).
-/

namespace MiniHardware.Cpu
open Lib

/-- The arguments of a `tlb_insert`. -/
structure Insertion where
  vpn : UInt32
  pfn : UInt32
  asid : UInt32
  global : Bool

/-- Made for the ASID, or global. -/
def Insertion.visible (ins : Insertion) (vpn asid : UInt32) : Bool :=
  ins.vpn == vpn && (ins.global || ins.asid == asid)

/-- `log` is no part of the code: the insertions, the latest first. -/
structure SharedTlb where
  tlb : TLB
  log : List Insertion

inductive TlbOp where
  | lookup (vpn asid : UInt32)
  | insert (ins : Insertion) (rand : Nat)
  | flush

def sharedInit (policy : TLBReplacePolicy) : SharedTlb := ⟨tlbInit policy, []⟩

def sharedStep (s : SharedTlb) : TlbOp → SharedTlb
  | .lookup vpn asid => { s with tlb := (tlbLookup s.tlb vpn asid).2 }
  | .insert ins rand => ⟨tlbInsert s.tlb ins.vpn ins.pfn ins.asid ins.global rand, ins :: s.log⟩
  | .flush => { s with tlb := tlbFlush s.tlb }

/-- The latest insertion for the page that the ASID may see. -/
def latestVisible (log : List Insertion) (vpn asid : UInt32) : Option Insertion :=
  log.find? fun ins => ins.visible vpn asid

/-- A lookup that succeeds gives the frame of the latest insertion that its ASID may see. -/
def ShowsLatest (s : SharedTlb) : Prop :=
  ∀ vpn asid pfn, (tlbLookup s.tlb vpn asid).1 = some pfn →
    ∃ ins, latestVisible s.log vpn asid = some ins ∧ ins.pfn = pfn

/-- An entry for the page with another frame that is seen together with the insertion is the one that it writes,
and is not seen by those who do not see the insertion. -/
def Compatible (s : SharedTlb) : TlbOp → Prop
  | .insert ins _ => ∀ i, (s.tlb.entries.get i).valid = true → (s.tlb.entries.get i).vpn = ins.vpn →
      (ins.global = true ∨ (s.tlb.entries.get i).globalPage = true ∨ (s.tlb.entries.get i).asid = ins.asid) →
      (s.tlb.entries.get i).pfn ≠ ins.pfn →
        tlbFind s.tlb ins.vpn ins.asid = some i ∧ ((s.tlb.entries.get i).globalPage = true → ins.global = true)
  | _ => True

instance compatibleDecidable (s : SharedTlb) : ∀ op, Decidable (Compatible s op)
  | .insert _ _ => inferInstanceAs (Decidable (∀ _, _ → _ → _ → _ → _ ∧ (_ → _)))
  | .lookup _ _ => inferInstanceAs (Decidable True)
  | .flush => inferInstanceAs (Decidable True)

/-! ## The entries after a call -/

section Entries

variable {tlb : TLB} {vpn pfn asid : UInt32} {global : Bool} {i : Fin tlbEntries}

/-- An entry matches a valid page of its address space, or of all. -/
theorem tlbMatches_iff {e : TLBEntry} : tlbMatches e vpn asid = true ↔
    e.valid = true ∧ e.vpn = vpn ∧ (e.globalPage = true ∨ e.asid = asid) := by
  simp [tlbMatches]

/-- The entry found matches. -/
theorem tlbFind_matches (found : tlbFind tlb vpn asid = some i) :
    tlbMatches (tlb.entries.get i) vpn asid = true := by
  simpa only using List.find?_some found

/-- The translation of an entry, without its use. -/
def TLBEntry.Same (e e' : TLBEntry) : Prop :=
  e'.valid = e.valid ∧ e'.vpn = e.vpn ∧ e'.pfn = e.pfn ∧ e'.asid = e.asid ∧ e'.globalPage = e.globalPage

/-- An entry is the same as itself. -/
theorem TLBEntry.Same.refl (e : TLBEntry) : e.Same e := ⟨rfl, rfl, rfl, rfl, rfl⟩

/-- A lookup leaves all the translations. -/
theorem tlbLookup_same (tlb : TLB) (vpn asid : UInt32) (i : Fin tlbEntries) :
    (tlb.entries.get i).Same ((tlbLookup tlb vpn asid).2.entries.get i) := by
  unfold tlbLookup
  dsimp only
  split
  · rename_i j _
    unfold touch
    dsimp only
    rw [get_set]
    split
    · rename_i eq
      rw [eq]
      exact ⟨rfl, rfl, rfl, rfl, rfl⟩
    · exact .refl _
  · exact .refl _

/-- A lookup gives the frame of the first entry that matches. -/
theorem tlbLookup_fst : (tlbLookup tlb vpn asid).1 =
    (tlbFind tlb vpn asid).map fun i => (tlb.entries.get i).pfn := by
  have same : tlbFind { tlb with accesses := tlb.accesses + 1 } vpn asid = tlbFind tlb vpn asid := rfl
  unfold tlbLookup
  dsimp only
  rw [same]
  cases tlbFind tlb vpn asid with
  | none => rfl
  | some i => rfl

/-- An insertion writes the frame of an entry that matches, or a whole entry where none does. -/
theorem tlbInsert_entries (rand : Nat) :
    ∃ slot e, (∀ i, (tlbInsert tlb vpn pfn asid global rand).entries.get i =
        if i = slot then e else tlb.entries.get i) ∧
      (tlbFind tlb vpn asid = some slot ∧ TLBEntry.Same { tlb.entries.get slot with pfn := pfn } e ∨
        tlbFind tlb vpn asid = none ∧ e = ⟨true, vpn, pfn, asid, global, tlb.clock, 1⟩) := by
  unfold tlbInsert
  split
  · rename_i slot found
    let e : TLBEntry :=
      { tlb.entries.get slot with
        pfn := pfn
        accessOrder := tlb.clock
        accessCount := (tlb.entries.get slot).accessCount + 1 }
    refine ⟨slot, e, fun i => ?_, .inl ⟨found, ⟨rfl, rfl, rfl, rfl, rfl⟩⟩⟩
    unfold touch
    dsimp only
    rw [get_set]
  · rename_i missing
    let empty := (List.finRange tlbEntries).find? fun i => !(tlb.entries.get i).valid
    let slot := empty.getD (tlbVictim tlb rand)
    refine ⟨slot, _, fun i => ?_, .inr ⟨missing, rfl⟩⟩
    exact get_set _ _ _ _

/-- A flush leaves global pages. -/
theorem tlbFlush_get (tlb : TLB) (i : Fin tlbEntries) : (tlbFlush tlb).entries.get i =
    if ¬(tlb.entries.get i).globalPage then { tlb.entries.get i with valid := false } else tlb.entries.get i :=
  Vector.getElem_map _ i.isLt

end Entries

/-! ## The invariant -/

/-- The entry has the frame of the latest insertion, for each ASID that may see it. -/
def Latest (log : List Insertion) (e : TLBEntry) : Prop :=
  ∀ asid, (e.globalPage = true ∨ e.asid = asid) → ∃ ins, latestVisible log e.vpn asid = some ins ∧ ins.pfn = e.pfn

/-- All valid entries do. -/
def TlbInv (s : SharedTlb) : Prop := Live (Latest s.log) s.tlb

/-- What is latest of an entry is so of one that is the same. -/
theorem TLBEntry.Same.latest {e e' : TLBEntry} {log : List Insertion} (same : e.Same e') (h : Latest log e) :
    Latest log e' := by
  obtain ⟨-, vpn, pfn, asid, global⟩ := same
  rw [Latest, vpn, pfn, asid, global]
  exact h

/-- An insertion is visible in its address space, or in all. -/
theorem Insertion.visible_iff {ins : Insertion} {vpn asid : UInt32} :
    ins.visible vpn asid = true ↔ ins.vpn = vpn ∧ (ins.global = true ∨ ins.asid = asid) := by
  simp [Insertion.visible]

/-- One more insertion, which has the entry's frame for all who see both. -/
theorem Latest.cons {log : List Insertion} {e : TLBEntry} {ins : Insertion} (h : Latest log e)
    (agrees : ∀ asid, (e.globalPage = true ∨ e.asid = asid) → ins.visible e.vpn asid = true → ins.pfn = e.pfn) :
    Latest (ins :: log) e := by
  intro asid sees
  rw [latestVisible, List.find?_cons]
  cases visible : ins.visible e.vpn asid with
  | true => exact ⟨ins, rfl, agrees asid sees visible⟩
  | false => exact h asid sees

/-- There are no entries at first. -/
theorem TlbInv.init (policy : TLBReplacePolicy) : TlbInv (sharedInit policy) := by
  intro i valid
  have invalid : ((tlbInit policy).entries.get i).valid = false := congrArg TLBEntry.valid (get_replicate _ i)
  exact nomatch invalid.symm.trans valid

variable {s : SharedTlb}

/-- Entries with the same translations. -/
theorem TlbInv.of_same (inv : TlbInv s) {tlb : TLB}
    (same : ∀ i, (s.tlb.entries.get i).Same (tlb.entries.get i)) : TlbInv { s with tlb := tlb } := by
  intro i valid
  change (tlb.entries.get i).valid = true at valid
  rw [(same i).1] at valid
  exact (same i).latest (inv i valid)

/-- A flush keeps the invariant. -/
theorem TlbInv.flush (inv : TlbInv s) : TlbInv (sharedStep s .flush) := by
  intro i valid
  have kept : (sharedStep s .flush).tlb.entries.get i = s.tlb.entries.get i := by
    change ((tlbFlush s.tlb).entries.get i).valid = true at valid
    show (tlbFlush s.tlb).entries.get i = _
    rw [tlbFlush_get] at valid ⊢
    split at valid
    · cases valid
    · rename_i global
      exact if_neg global
  rw [kept] at valid ⊢
  exact inv i valid

/-- A compatible insertion keeps it. -/
theorem TlbInv.insert (inv : TlbInv s) {ins : Insertion} {rand : Nat} (ok : Compatible s (.insert ins rand)) :
    TlbInv (sharedStep s (.insert ins rand)) := by
  obtain ⟨slot, e, entries, written⟩ :=
    @tlbInsert_entries s.tlb ins.vpn ins.pfn ins.asid ins.global rand
  intro i valid
  change ((tlbInsert s.tlb ins.vpn ins.pfn ins.asid ins.global rand).entries.get i).valid = true at valid
  show Latest (ins :: s.log) ((tlbInsert s.tlb ins.vpn ins.pfn ins.asid ins.global rand).entries.get i)
  rw [entries] at valid ⊢
  by_cases here : i = slot
  · rw [if_pos here]
    rcases written with ⟨found, same⟩ | ⟨-, rfl⟩
    · -- who sees the written entry sees the insertion, or the frame is the old one
      obtain ⟨valid', vpn, sees'⟩ := tlbMatches_iff.1 (tlbFind_matches found)
      apply same.latest
      by_cases frame : (s.tlb.entries.get slot).pfn = ins.pfn
      · rw [← frame]
        exact (inv slot valid').cons fun _ _ _ => frame.symm
      · obtain ⟨-, only⟩ := ok slot valid' vpn (.inr sees') frame
        intro asid sees
        have visible : ins.visible (s.tlb.entries.get slot).vpn asid = true := by
          refine Insertion.visible_iff.2 ⟨vpn.symm, ?_⟩
          rcases sees with global | own
          · exact .inl (only global)
          · rcases sees' with global | own'
            · exact .inl (only global)
            · exact .inr (own'.symm.trans own)
        refine ⟨ins, ?_, rfl⟩
        rw [latestVisible, List.find?_cons, visible]
    · intro asid sees
      refine ⟨ins, ?_, rfl⟩
      rw [latestVisible, List.find?_cons, Insertion.visible_iff.2 ⟨rfl, sees⟩]
  · -- another entry with another frame is not seen together with the insertion
    rw [if_neg here] at valid ⊢
    refine (inv i valid).cons fun asid sees visible => ?_
    obtain ⟨vpn, shows⟩ := Insertion.visible_iff.1 visible
    have both : ins.global = true ∨ (s.tlb.entries.get i).globalPage = true ∨ (s.tlb.entries.get i).asid = ins.asid := by
      rcases shows with global | own
      · exact .inl global
      · exact .inr (sees.imp_right fun eq => eq.trans own.symm)
    by_contra frame
    obtain ⟨found, -⟩ := ok i valid vpn.symm both (Ne.symm frame)
    rcases written with ⟨found', -⟩ | ⟨missing, -⟩
    · exact here (Option.some.inj (found.symm.trans found'))
    · exact nomatch found.symm.trans missing

/-- Every compatible call keeps it. -/
theorem TlbInv.step (s : SharedTlb) (op : TlbOp) (inv : TlbInv s) (ok : Compatible s op) : TlbInv (sharedStep s op) := by
  cases op with
  | lookup vpn asid => exact inv.of_same (tlbLookup_same s.tlb vpn asid)
  | insert ins rand => exact inv.insert ok
  | flush => exact inv.flush

/-- The invariant shows the latest insertions. -/
theorem TlbInv.showsLatest (inv : TlbInv s) : ShowsLatest s := by
  intro vpn asid pfn hit
  rw [tlbLookup_fst, Option.map_eq_some_iff] at hit
  obtain ⟨i, found, rfl⟩ := hit
  obtain ⟨valid, rfl, sees⟩ := tlbMatches_iff.1 (tlbFind_matches found)
  exact inv i valid asid sees

/-- In every sequence of calls in which each insertion agrees with the entries for its page, a lookup gives the
frame of the latest insertion, for its ASID or global. -/
theorem tlb_latest_visible (policy : TLBReplacePolicy) (ops : List TlbOp)
    (guard : Guarded sharedStep Compatible (sharedInit policy) ops) :
    ShowsLatest (run sharedStep (sharedInit policy) ops) := by
  have inv : TlbInv (run sharedStep (sharedInit policy) ops) :=
    guarded_invariant TlbInv.step (TlbInv.init policy) guard
  exact inv.showsLatest

/-- Page 5 is private to two address spaces, page 6 is global, and ASID 2 enters it once more as it is. -/
theorem tlb_latest_visible_two :
    let ops : List TlbOp := [.insert ⟨5, 7, 1, false⟩ 0, .insert ⟨6, 8, 1, true⟩ 0, .insert ⟨5, 9, 2, false⟩ 0,
      .insert ⟨6, 8, 2, false⟩ 0]
    Guarded sharedStep Compatible (sharedInit .lru) ops ∧ ShowsLatest (run sharedStep (sharedInit .lru) ops) := by
  have guard : Guarded sharedStep Compatible (sharedInit .lru)
      [.insert ⟨5, 7, 1, false⟩ 0, .insert ⟨6, 8, 1, true⟩ 0, .insert ⟨5, 9, 2, false⟩ 0, .insert ⟨6, 8, 2, false⟩ 0] := by
    decide +kernel
  exact ⟨guard, tlb_latest_visible .lru _ guard⟩

/-- The translation that ASID 2 enters for itself goes to the global entry, where ASID 1 finds it. -/
theorem tlb_private_in_global :
    ¬ ShowsLatest (run sharedStep (sharedInit .lru) [.insert ⟨5, 7, 1, true⟩ 0, .insert ⟨5, 9, 2, false⟩ 0]) := by
  intro shows
  obtain ⟨ins, latest, pfn⟩ := shows 5 1 9 (by decide +kernel)
  have visible : latestVisible [⟨5, 9, 2, false⟩, ⟨5, 7, 1, true⟩] 5 1 = some ⟨5, 7, 1, true⟩ := rfl
  obtain rfl := Option.some.inj (visible.symm.trans latest)
  exact absurd pfn (by decide)

end MiniHardware.Cpu
