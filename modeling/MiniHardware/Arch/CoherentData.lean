import MiniHardware.Arch.SingleWriter

/-!
# Which data the copies hold

A read miss copies the line from a Modified copy, but fills the line with zeros
when the other copies are only Exclusive or Shared. So the copies of a line
stay identical, and reads deliver the last write, exactly in the runs in which
no such fill happens next to data that is not zero (`coherence_read_last_write`).
-/

namespace MiniHardware.Arch.Coherence
open Lib CoherenceController

/-- `coherence_read`, or `coherence_write` with a line. -/
inductive DataOp where
  | read (cacheId address : UInt32)
  | write (cacheId address : UInt32) (dataIn : LineData)

def DataOp.call : DataOp → CoherenceOp
  | .read cacheId address => .read cacheId address
  | .write cacheId address dataIn => .write cacheId address (some dataIn)

/-- Some cache holds a valid copy of the line. -/
def AnyCopy (ctrl : CoherenceController) (tag : UInt32) : Prop :=
  ∃ c, (ctrl.line c (lineIndex tag)).Hit tag

instance (ctrl : CoherenceController) (tag : UInt32) : Decidable (AnyCopy ctrl tag) :=
  inferInstanceAs (Decidable (∃ _, _))

/-- The controller, and for each line the data of its most recent write if some cache has
held a valid copy ever since. -/
structure Observed where
  ctrl : CoherenceController
  lastWrite : UInt32 → Option LineData

def observedInit (protocol : CoherenceProtocol) (numCaches : UInt32) : Observed :=
  ⟨coherenceInit protocol numCaches, fun _ => none⟩

def observedStep (s : Observed) (op : DataOp) : Observed where
  ctrl := coherenceStep s.ctrl op.call
  lastWrite tag :=
    if AnyCopy (coherenceStep s.ctrl op.call) tag then
      match op with
      | .write cacheId address dataIn =>
        if s.ctrl.InRange cacheId ∧ tag = address / 64 then some dataIn else s.lastWrite tag
      | .read _ _ => s.lastWrite tag
    else none

/-- All valid copies of a line hold identical data. -/
def Identical (ctrl : CoherenceController) : Prop :=
  ∀ tag c d, (ctrl.line c (lineIndex tag)).Hit tag → (ctrl.line d (lineIndex tag)).Hit tag →
    (ctrl.line c (lineIndex tag)).data = (ctrl.line d (lineIndex tag)).data

/-- The call delivers the last write, if it is a read, and leaves identical copies. -/
def Coherent (s : Observed) (op : DataOp) : Prop :=
  (∀ cacheId address d, op = .read cacheId address → s.ctrl.InRange cacheId →
    s.lastWrite (address / 64) = some d → (coherenceRead s.ctrl cacheId address).dataOut = some d) ∧
  Identical (observedStep s op).ctrl

/-- If the call is a read that misses, some copy is Modified or all copies are zero. -/
def FillsRight (s : Observed) : DataOp → Prop
  | .read cacheId address => ∀ c : CacheId, c.val = cacheId.toNat → s.ctrl.InRange cacheId →
      ¬ (s.ctrl.line c (lineIndex (address / 64))).Hit (address / 64) →
      (∃ i, Modified s.ctrl i (address / 64)) ∨
        ∀ i, (s.ctrl.line i (lineIndex (address / 64))).Hit (address / 64) →
          (s.ctrl.line i (lineIndex (address / 64))).data = zeroLine
  | .write _ _ _ => True

/-- What is remembered is what every copy holds, and is forgotten with the last copy. -/
structure DataInv (s : Observed) : Prop where
  inv : CoherenceInv s.ctrl
  agree : ∀ tag, (copies s.ctrl tag).Agree ((s.lastWrite tag).getD zeroLine)
  lost : ∀ tag, ¬ AnyCopy s.ctrl tag → s.lastWrite tag = none

theorem data_inv_init (protocol : CoherenceProtocol) (numCaches : UInt32) :
    DataInv (observedInit protocol numCaches) where
  inv := coherence_inv_init protocol numCaches
  agree _ _ _ _ h := by cases h
  lost _ _ := rfl

section Copies

variable {ctrl : CoherenceController}

theorem CoherenceInv.copy_of_hit (inv : CoherenceInv ctrl) {c : CacheId} {tag : UInt32}
    (hit : (ctrl.line c (lineIndex tag)).Hit tag) :
    ∃ right, copies ctrl tag c = some (right, (ctrl.line c (lineIndex tag)).data) := by
  have live := inv.live _ _ hit.1
  obtain ⟨right, hr⟩ : ∃ right, rightOf (ctrl.line c (lineIndex tag)).state = some right := by
    cases e : (ctrl.line c (lineIndex tag)).state <;> simp_all [rightOf]
  exact ⟨right, (Coherence.copy_of_hit hit).trans (by rw [hr]; rfl)⟩

theorem hit_of_copy {c : CacheId} {tag : UInt32} {right : Right} {d : LineData}
    (copy : copies ctrl tag c = some (right, d)) :
    (ctrl.line c (lineIndex tag)).Hit tag ∧ (ctrl.line c (lineIndex tag)).data = d := by
  change (ctrl.line c (lineIndex tag)).copy tag = _ at copy
  by_cases hit : (ctrl.line c (lineIndex tag)).Hit tag
  · rw [Coherence.copy_of_hit hit, Option.map_eq_some_iff] at copy
    obtain ⟨r, -, e⟩ := copy
    exact ⟨hit, (Prod.mk.inj e).2⟩
  · rw [copy_of_miss hit] at copy
    cases copy

theorem CoherenceInv.held_iff (inv : CoherenceInv ctrl) (tag : UInt32) :
    (copies ctrl tag).Held ↔ AnyCopy ctrl tag := by
  constructor
  · rintro ⟨c, some⟩
    obtain ⟨⟨r, d⟩, copy⟩ := Option.ne_none_iff_exists'.1 some
    exact ⟨c, (hit_of_copy copy).1⟩
  · rintro ⟨c, hit⟩
    obtain ⟨r, copy⟩ := inv.copy_of_hit hit
    exact ⟨c, by rw [copy]; simp⟩

/-- Agreeing copies are identical lines. -/
theorem CoherenceInv.identical (inv : CoherenceInv ctrl) {v : UInt32 → LineData}
    (agree : ∀ tag, (copies ctrl tag).Agree (v tag)) : Identical ctrl := by
  intro tag c d hc hd
  obtain ⟨_, copy⟩ := inv.copy_of_hit hc
  obtain ⟨_, copy'⟩ := inv.copy_of_hit hd
  exact (agree tag _ _ _ copy).trans (agree tag _ _ _ copy').symm

end Copies

/-! ## One call -/

/-- Forgetting the lines without a copy keeps the rest of the invariant. -/
theorem data_inv_of {s : Observed} (inv : CoherenceInv s.ctrl) {last : UInt32 → Option LineData}
    (agree : ∀ tag, (copies s.ctrl tag).Agree ((last tag).getD zeroLine))
    (kept : ∀ tag, AnyCopy s.ctrl tag → s.lastWrite tag = last tag)
    (lost : ∀ tag, ¬ AnyCopy s.ctrl tag → s.lastWrite tag = none) : DataInv s := by
  refine ⟨inv, fun tag => ?_, lost⟩
  intro c r x copy
  rw [kept tag ((inv.held_iff tag).1 ⟨c, by rw [copy]; simp⟩)]
  exact agree tag c r x copy

namespace DataInv

variable {s : Observed}

/-- The copies of the other lines after an install. -/
theorem agree_other (h : DataInv s) {c : CacheId} {tag t : UInt32} {ctrl' : CoherenceController}
    (installs : Installs c tag s.ctrl ctrl') (ne : t ≠ tag) :
    (copies ctrl' t).Agree ((s.lastWrite t).getD zeroLine) := by
  rw [installs.copies_other ne]
  split
  · exact (h.agree t).evict c
  · exact h.agree t

/-- A read that fills right delivers what is remembered and leaves agreeing copies. -/
theorem read (h : DataInv s) {cacheId address : UInt32}
    (fills : FillsRight s (.read cacheId address)) :
    (∀ d, s.ctrl.InRange cacheId → s.lastWrite (address / 64) = some d →
      (coherenceRead s.ctrl cacheId address).dataOut = some d) ∧
    ∀ t, (copies (coherenceRead s.ctrl cacheId address).ctrl t).Agree
      ((s.lastWrite t).getD zeroLine) := by
  have out := coherence_read_outcome h.inv cacheId address
  simp only [FillsRight] at fills
  generalize address / 64 = tag at out fills ⊢
  generalize coherenceRead s.ctrl cacheId address = r at out ⊢
  cases out with
  | outOfRange no => exact ⟨fun d yes => absurd yes no, h.agree⟩
  | hit c id copy =>
    refine ⟨fun d _ last => ?_, fun t => ?_⟩
    · have := h.agree tag _ _ _ copy
      rw [last] at this
      exact congrArg some this
    · rw [copies_touch]; exact h.agree t
  | @miss c id ctrl' ret d none installs granted source =>
    have miss := h.inv.miss_of_copy_none none
    have right : d = (s.lastWrite tag).getD zeroLine := by
      rcases source with ⟨i, own, e⟩ | ⟨zero, clean⟩
      · obtain ⟨r, copy⟩ := h.inv.copy_of_hit own.1
        exact e.trans (h.agree tag _ _ _ copy)
      · cases last : s.lastWrite tag with
        | none => exact zero
        | some x =>
          have some : AnyCopy s.ctrl tag := by
            by_contra no
            rw [h.lost tag no] at last
            cases last
          obtain ⟨i, hit⟩ := some
          obtain ⟨r, copy⟩ := h.inv.copy_of_hit hit
          have range : s.ctrl.InRange cacheId := by
            have := mem_ids.1 installs.inside
            exact ⟨id ▸ this, id ▸ c.isLt⟩
          have zero' : (s.ctrl.line i (lineIndex tag)).data = zeroLine := by
            rcases fills c id range miss with ⟨j, own⟩ | zeros
            · exact absurd own (clean j)
            · exact zeros i hit
          have := h.agree tag _ _ _ copy
          rw [zero', last] at this
          exact zero.trans this
    refine ⟨fun x _ last => ?_, fun t => ?_⟩
    · rw [right, last]; rfl
    · by_cases ht : t = tag
      · subst ht
        rcases granted with share | ⟨-, own⟩
        · rw [share, right]; exact (h.agree t).share c
        · rw [own, right]; exact Copies.agree_own c _
      · exact h.agree_other installs ht

/-- After a write the copies of its line hold its data. -/
theorem write (h : DataInv s) (cacheId address : UInt32) (dataIn : LineData) (t : UInt32) :
    (copies (coherenceWrite s.ctrl cacheId address (some dataIn)).1 t).Agree
      ((if s.ctrl.InRange cacheId ∧ t = address / 64 then some dataIn
        else s.lastWrite t).getD zeroLine) := by
  have out := coherence_write_outcome h.inv cacheId address (some dataIn)
  generalize address / 64 = tag at out ⊢
  generalize coherenceWrite s.ctrl cacheId address (some dataIn) = r at out ⊢
  cases out with
  | outOfRange no =>
    rw [if_neg fun e => no e.1]
    exact h.agree t
  | grant c id installs granted data =>
    have range : s.ctrl.InRange cacheId := by
      have := mem_ids.1 installs.inside
      exact ⟨id ▸ this, id ▸ c.isLt⟩
    by_cases ht : t = tag
    · subst ht
      rw [if_pos ⟨range, rfl⟩, granted, data dataIn rfl]
      exact Copies.agree_own c _
    · rw [if_neg fun e => ht e.2]
      exact h.agree_other installs ht

theorem step (h : DataInv s) (op : DataOp) (fills : FillsRight s op) :
    DataInv (observedStep s op) := by
  have keep := coherence_inv_step s.ctrl op.call h.inv
  cases op with
  | read cacheId address =>
    exact data_inv_of keep (h.read fills).2 (fun _ some => if_pos some) fun _ none => if_neg none
  | write cacheId address dataIn =>
    exact data_inv_of keep (h.write cacheId address dataIn) (fun _ some => if_pos some)
      fun _ none => if_neg none

/-- A call is coherent exactly if it fills right. -/
theorem coherent_iff (h : DataInv s) (op : DataOp) : Coherent s op ↔ FillsRight s op := by
  constructor
  · rintro ⟨-, same⟩
    cases op with
    | write => trivial
    | read cacheId address =>
      intro c id range miss
      by_contra bad
      rw [not_or] at bad
      obtain ⟨clean, data⟩ := bad
      obtain ⟨i, bad⟩ := not_forall.1 data
      obtain ⟨hit, nonzero⟩ := Classical.not_imp.1 bad
      -- the reader's copy is zero, the one at `i` keeps its data
      have keep := coherence_inv_step s.ctrl (.read cacheId address) h.inv
      have out := coherence_read_outcome h.inv cacheId address
      simp only [observedStep, DataOp.call, coherenceStep] at same keep
      generalize address / 64 = tag at *
      generalize coherenceRead s.ctrl cacheId address = r at *
      cases out with
      | outOfRange no => exact no range
      | hit c' id' copy =>
        cases Fin.ext (id'.trans id.symm)
        exact miss (hit_of_copy copy).1
      | miss c' id' none installs granted source =>
        cases Fin.ext (id'.trans id.symm)
        have ne : i ≠ c := by rintro rfl; exact miss hit
        obtain ⟨r, copy⟩ := h.inv.copy_of_hit hit
        rcases granted with share | ⟨none, -⟩
        · rcases source with own | ⟨rfl, -⟩
          · exact clean ⟨_, own.choose_spec.1⟩
          · have mine := congrFun share c
            have theirs := congrFun share i
            rw [Copies.share, Function.update_self] at mine
            rw [Copies.share, Function.update_of_ne ne,
              Copies.demote_eq_some.2 ⟨rfl, r, copy⟩] at theirs
            obtain ⟨hc, dc⟩ := hit_of_copy mine
            obtain ⟨hi, di⟩ := hit_of_copy theirs
            exact nonzero (di.symm.trans ((same tag i c hi hc).trans dc))
        · rw [none i] at copy
          cases copy
  · intro fills
    have inv' := h.step op fills
    refine ⟨?_, inv'.inv.identical inv'.agree⟩
    rintro cacheId address d rfl range last
    exact (h.read fills).1 d range last

end DataInv

/-! ## Runs -/

/-- **When reads deliver the last write.** In a run, every read delivers the last write to
its line and all copies of a line stay identical if and only if no read miss fills a line
with zeros while another copy of it is not zero. -/
theorem coherence_read_last_write (protocol : CoherenceProtocol) (numCaches : UInt32)
    (ops : List DataOp) :
    Guarded observedStep Coherent (observedInit protocol numCaches) ops ↔
      Guarded observedStep FillsRight (observedInit protocol numCaches) ops :=
  guarded_congr DataInv (fun _ op h => h.coherent_iff op) (fun _ op h => h.step op)
    (data_inv_init protocol numCaches)

def onesLine : LineData := Vector.replicate 64 1

/-- A third cache reads a line that the first wrote and the second shares. -/
theorem coherence_third_reader_gets_zeros :
    ¬ Guarded observedStep Coherent (observedInit .mesi 3)
      [.write 0 0 onesLine, .read 1 0, .read 2 0] := by
  rintro ⟨-, -, ⟨delivers, -⟩, -⟩
  have zeros := delivers 2 0 onesLine rfl (by decide) (by decide)
  revert zeros
  decide

end MiniHardware.Arch.Coherence
