import Mathlib.Algebra.GroupWithZero.Nat
import MiniHardware.Arch.CoherentData

/-!
# The directory of the coherence simulator

A directory entry has the owner that `dir_update` was called with last, and the
sharer bits since the line was exclusive last. A miss on a line that another
cache has Modified takes the line without `dir_update`, and one on a line that
another cache has Exclusive makes the new holder the owner and the only sharer.
`directory_conservative_iff` says that only these leave a holder unrecorded.
-/

namespace MiniHardware.Arch.Coherence
open Lib CoherenceController

/-- The bit of every cache is in the array. -/
theorem sharerByte_lt (c : CacheId) : c.val / 8 < coherenceMaxCaches / 8 :=
  Nat.div_lt_div_of_lt_of_dvd ⟨coherenceMaxCaches / 8, rfl⟩ c.isLt

/-- The byte of the sharer bits that has the bit of the cache. -/
def sharerByte (c : CacheId) : Fin (coherenceMaxCaches / 8) := ⟨c.val / 8, sharerByte_lt c⟩

/-- The bit of the cache is set. -/
def DirectoryEntry.Shares (entry : DirectoryEntry) (c : CacheId) : Prop :=
  (entry.sharerBits (sharerByte c)).toNat.testBit (c.val % 8) = true

instance (entry : DirectoryEntry) (c : CacheId) : Decidable (entry.Shares c) :=
  inferInstanceAs (Decidable (_ = true))

/-- A holder's line has its entry, which records the holder; the entry is Modified or Exclusive
only if there is no other holder. -/
structure Conservative (ctrl : CoherenceController) : Prop where
  listed : ∀ c tag, Holds ctrl c tag → ∃ d, dirLookup ctrl tag = some d ∧
    ((ctrl.directory d).ownerId = UInt32.ofNat c.val ∨ (ctrl.directory d).Shares c)
  exclusive : ∀ c tag d, Holds ctrl c tag → dirLookup ctrl tag = some d →
    ((ctrl.directory d).state = .m ∨ (ctrl.directory d).state = .e) → ∀ k, Holds ctrl k tag → k = c

def CoherenceOp.tag : CoherenceOp → UInt32
  | .read _ address | .write _ address _ | .snoop _ address _ => address / 64

/-- No two lines of the calls share a directory slot. -/
def OwnSlots (ops : List CoherenceOp) : Prop :=
  ∀ a ∈ ops, ∀ b ∈ ops, dirIndex a.tag = dirIndex b.tag → a.tag = b.tag

/-- A read that misses finds no Modified or Exclusive copy. -/
def Unowned (ctrl : CoherenceController) : CoherenceOp → Prop
  | .read cacheId address => ∀ c : CacheId, c.val = cacheId.toNat → ctrl.InRange cacheId →
      ¬ Holds ctrl c (address / 64) → ∀ i, ¬ HoldsSole ctrl i (address / 64)
  | .write _ _ _ | .snoop _ _ _ => True

/-! ## Entries -/

def dirEntry (ctrl : CoherenceController) (tag : UInt32) : DirectoryEntry := ctrl.directory (dirIndex tag)

/-- What an entry has of a holder with this right. -/
def DirectoryEntry.Records (entry : DirectoryEntry) (tag : UInt32) (c : CacheId) : Right → Prop
  | .shared => entry.tag = tag ∧ entry.state = .s ∧ entry.Shares c
  | .sole => entry.tag = tag ∧ entry.ownerId = UInt32.ofNat c.val ∧ entry.sharerBits = fun _ => 0

section Entries

variable {ctrl : CoherenceController} {tag : UInt32} {state : CoherenceState} {c k : CacheId}

/-- The entry after an update of its own line. -/
theorem dirEntry_dirUpdate (ctrl : CoherenceController) (tag : UInt32) (state : CoherenceState) (c : CacheId) :
    dirEntry (dirUpdate ctrl tag state c) tag =
      { tag := tag
        state := state
        ownerId := UInt32.ofNat c.val
        sharerBits :=
          if state = .s then
            Function.update (dirEntry ctrl tag).sharerBits (sharerByte c)
              ((dirEntry ctrl tag).sharerBits (sharerByte c) ||| (1 <<< UInt8.ofNat (c.val % 8)))
          else fun _ => 0 } :=
  Function.update_self _ _ _

/-- The lookup finds the line whose tag is in its slot. -/
theorem dirLookup_of_tag (eq : (dirEntry ctrl tag).tag = tag) : dirLookup ctrl tag = some (dirIndex tag) :=
  if_pos eq

/-- The lookup looks nowhere but in the slot of the line. -/
theorem dirLookup_some {d : Fin coherenceDirEntries} (h : dirLookup ctrl tag = some d) : d = dirIndex tag := by
  unfold dirLookup at h
  split at h
  · exact (Option.some.inj h).symm
  · cases h

/-- The mask has the bit of the cache. -/
theorem sharerMask (c : CacheId) : ((1 : UInt8) <<< UInt8.ofNat (c.val % 8)).toNat = 2 ^ (c.val % 8) := by
  revert c
  decide

/-- `dir_update` to Shared adds the cache to the sharers. -/
theorem shares_dirUpdate : (dirEntry (dirUpdate ctrl tag .s c) tag).Shares k ↔ k = c ∨ (dirEntry ctrl tag).Shares k := by
  rw [dirEntry_dirUpdate]
  unfold DirectoryEntry.Shares
  dsimp only
  rw [if_pos rfl, Function.update_apply]
  split
  · rename_i byte
    have byte : k.val / 8 = c.val / 8 := congrArg Fin.val byte
    rw [UInt8.toNat_or, Nat.testBit_or, sharerMask, Nat.testBit_two_pow, Bool.or_eq_true, decide_eq_true_eq,
      or_comm]
    apply or_congr
    · constructor
      · intro bit
        apply Fin.ext
        omega
      · rintro rfl
        rfl
    · rw [show sharerByte c = sharerByte k from Fin.ext byte.symm]
  · rename_i byte
    constructor
    · exact .inr
    · rintro (rfl | shares)
      · exact absurd rfl byte
      · exact shares

end Entries

/-! ## What the calls do to the directory -/

section Calls

variable {ctrl ctrl' : CoherenceController} {c : CacheId} {tag : UInt32} {cacheId address : UInt32}

/-- The loop of a read leaves the directory. -/
theorem read_loop_directory {dirIdx : Option (Fin coherenceDirEntries)} {is : List CacheId}
    {shared shared' : Bool} (h : readLoop c tag dirIdx is ctrl shared = .done ctrl' shared') :
    ctrl'.directory = ctrl.directory := by
  induction is generalizing ctrl shared with
  | nil =>
    cases h
    rfl
  | cons k is ih =>
    unfold readLoop at h
    dsimp only at h
    split at h
    · exact ih h
    split at h
    · split at h
      · cases h
      · exact (ih h).trans rfl
      · exact ih h
      · exact ih h
    · exact ih h

/-- A read that misses takes the line from a Modified copy, or ends with `dir_update`. -/
theorem CoherenceInv.read_directory (inv : CoherenceInv ctrl) (c : CacheId) (address : UInt32)
    (h : ctrl.InRange cacheId) (id : c.val = cacheId.toNat) (notHit : ¬ (ctrl.line c (lineIndex (address / 64))).Hit (address / 64)) :
    (∃ i, i ≠ c ∧ Modified ctrl i (address / 64) ∧
        (coherenceRead ctrl cacheId address).ctrl.directory =
          (takeFromOwner ctrl c i (address / 64) (dirLookup ctrl (address / 64))).directory) ∨
      ∃ state, (∀ i, ¬ Modified ctrl i (address / 64)) ∧
        (coherenceRead ctrl cacheId address).ctrl.directory = (dirUpdate ctrl (address / 64) state c).directory ∧
        ((coherenceRead ctrl cacheId address).ctrl.line c (lineIndex (address / 64))).state = state := by
  unfold coherenceRead
  rw [dif_pos h]
  generalize hc : (⟨cacheId.toNat, h.2⟩ : CacheId) = c'
  obtain rfl : c = c' := by
    rw [← hc]
    exact Fin.ext id
  generalize address / 64 = tag at notHit ⊢
  simp only [line_touch, if_neg notHit]
  have solo := inv.solo_miss c tag
  split
  · rename_i ctrl' owner
    obtain ⟨i, -, ne, hit, m, rfl⟩ := read_loop_owner solo owner
    simp only [line_miss, line_touch] at hit m
    exact .inl ⟨i, ne, ⟨hit, m⟩, rfl⟩
  · rename_i loop shared h
    have done := read_loop_done h
    have directory : loop.directory = (ctrl.touch c).miss.directory := read_loop_directory h
    generalize (if shared = true ∧ hasExclusiveMode loop.protocol = true then CoherenceState.s
      else if hasExclusiveMode loop.protocol = true then .e else .s) = state
    refine .inr ⟨state, fun i own => ?_, ?_, ?_⟩
    · have ne : i ≠ c := by
        rintro rfl
        exact notHit own.1
      have clean := done.clean i (inv.inside _ _ own.1.1) ne
      simp only [line_miss, line_touch] at clean
      exact clean own.1 own.2
    · show Function.update loop.directory _ _ = Function.update ctrl.directory _ _
      dsimp only [setLine]
      rw [directory]
      rfl
    · rw [line_dirUpdate, line_setLine, if_pos ⟨rfl, rfl⟩]

/-- The loop of a write leaves the directory as it is. -/
theorem invalidate_directory (c : CacheId) (tag : UInt32) (is : List CacheId) (ctrl : CoherenceController) :
    (is.foldl (invalidateStep c tag) ctrl).directory = ctrl.directory := by
  induction is generalizing ctrl with
  | nil => rfl
  | cons k is ih =>
    rw [List.foldl_cons, ih]
    unfold invalidateStep
    dsimp only
    split
    · rfl
    split
    · split <;> rfl
    · rfl

/-- A write to the cache's own exclusive copy leaves the directory; another one ends with
`dir_update`. -/
theorem write_directory (address : UInt32) (h : ctrl.InRange cacheId) (id : c.val = cacheId.toNat)
    (dataIn : Option LineData) :
    ((coherenceWrite ctrl cacheId address dataIn).1.directory = ctrl.directory ∧
        (ctrl.line c (lineIndex (address / 64))).Hit (address / 64) ∧
        rightOf (ctrl.line c (lineIndex (address / 64))).state = some .sole) ∨
      (coherenceWrite ctrl cacheId address dataIn).1.directory = (dirUpdate ctrl (address / 64) .m c).directory := by
  unfold coherenceWrite
  rw [dif_pos h]
  generalize hc : (⟨cacheId.toNat, h.2⟩ : CacheId) = c'
  obtain rfl : c = c' := by
    rw [← hc]
    exact Fin.ext id
  generalize address / 64 = tag
  simp only [line_touch]
  split
  · rename_i hit
    refine .inl ⟨rfl, hit.1, ?_⟩
    obtain m | e := hit.2
    · rw [m]
      rfl
    · rw [e]
      rfl
  · right
    show Function.update ((ctrl.touch c).miss.ids.foldl (invalidateStep c tag) (ctrl.touch c).miss).directory _ _ =
      Function.update ctrl.directory _ _
    dsimp only [setLine]
    rw [invalidate_directory]
    rfl

/-- A snoop leaves the directory as it is. -/
theorem snoop_directory (ctrl : CoherenceController) (cacheId address : UInt32) (isWrite : Bool) :
    (coherenceSnoop ctrl cacheId address isWrite).directory = ctrl.directory := by
  unfold coherenceSnoop
  split
  · dsimp only
    split
    · split <;> rfl
    · rfl
  · rfl

end Calls

/-! ## The invariant -/

/-- Every copy is of one of the lines, and recorded in the line's entry as its right demands. -/
structure DirectoryInv (lines : UInt32 → Prop) (ctrl : CoherenceController) : Prop where
  inv : CoherenceInv ctrl
  within : ∀ tag c x, copies ctrl tag c = some x → lines tag
  recorded : ∀ tag c r d, copies ctrl tag c = some (r, d) → (dirEntry ctrl tag).Records tag c r

section Invariant

variable {ctrl ctrl' : CoherenceController} {c k : CacheId} {tag : UInt32} {lines : UInt32 → Prop}

/-- A cache holds a line where it has a copy. -/
theorem CoherenceInv.holds_iff (inv : CoherenceInv ctrl) : Holds ctrl c tag ↔ ∃ x, copies ctrl tag c = some x := by
  constructor
  · rintro ⟨j, hit⟩
    obtain rfl : lineIndex tag = j := hit.2 ▸ inv.placed c j hit.1
    obtain ⟨r, copy⟩ := inv.copy_of_hit hit
    exact ⟨_, copy⟩
  · rintro ⟨⟨r, d⟩, copy⟩
    exact ⟨_, (hit_of_copy copy).1⟩

/-- The right of a copy is that of the line's state. -/
theorem right_of_copy {x : Right × LineData} (copy : copies ctrl tag c = some x) :
    rightOf (ctrl.line c (lineIndex tag)).state = some x.1 := by
  obtain ⟨right, d⟩ := x
  have hit := (hit_of_copy copy).1
  have copy : (ctrl.line c (lineIndex tag)).copy tag = some (right, d) := copy
  rw [copy_of_hit hit, Option.map_eq_some_iff] at copy
  obtain ⟨r, state, same⟩ := copy
  rw [state, (Prod.mk.inj same).1]

/-- A cache holds a line alone where its copy is a sole one. -/
theorem CoherenceInv.holdsSole_iff (inv : CoherenceInv ctrl) :
    HoldsSole ctrl c tag ↔ ∃ d, copies ctrl tag c = some (.sole, d) := by
  constructor
  · rintro ⟨j, hit, state⟩
    obtain rfl : lineIndex tag = j := hit.2 ▸ inv.placed c j hit.1
    obtain ⟨r, copy⟩ := inv.copy_of_hit hit
    have right := right_of_copy copy
    obtain m | e := state
    · rw [m] at right
      obtain rfl := Option.some.inj right
      exact ⟨_, copy⟩
    · rw [e] at right
      obtain rfl := Option.some.inj right
      exact ⟨_, copy⟩
  · rintro ⟨d, copy⟩
    have right := right_of_copy copy
    refine ⟨_, (hit_of_copy copy).1, ?_⟩
    cases state : (ctrl.line c (lineIndex tag)).state with
    | m => exact .inl rfl
    | e => exact .inr rfl
    | s => rw [state] at right; cases right
    | i => rw [state] at right; cases right

/-- The invariant makes the directory conservative. -/
theorem DirectoryInv.conservative (h : DirectoryInv lines ctrl) : Conservative ctrl := by
  refine ⟨fun c tag held => ?_, fun c tag d held look state k other => ?_⟩
  · obtain ⟨⟨r, x⟩, copy⟩ := h.inv.holds_iff.1 held
    have recorded := h.recorded tag c r x copy
    cases r with
    | shared => exact ⟨_, dirLookup_of_tag recorded.1, .inr recorded.2.2⟩
    | sole => exact ⟨_, dirLookup_of_tag recorded.1, .inl recorded.2.1⟩
  · obtain ⟨⟨r, x⟩, copy⟩ := h.inv.holds_iff.1 held
    obtain rfl := dirLookup_some look
    have recorded := h.recorded tag c r x copy
    cases r with
    | shared =>
      have shared : (ctrl.directory (dirIndex tag)).state = .s := recorded.2.1
      rw [shared] at state
      obtain m | e := state
      · cases m
      · cases e
    | sole =>
      obtain ⟨y, copy'⟩ := h.inv.holds_iff.1 other
      by_contra ne
      rw [h.inv.single tag c k x copy ne] at copy'
      cases copy'

/-- There is nothing to record at first. -/
theorem DirectoryInv.init (protocol : CoherenceProtocol) (numCaches : UInt32) :
    DirectoryInv lines (coherenceInit protocol numCaches) where
  inv := coherence_inv_init protocol numCaches
  within _ _ _ copy := by cases copy
  recorded _ _ _ _ copy := by cases copy

/-- An install that records its own line keeps the invariant, as no other line has the entry. -/
theorem DirectoryInv.install (h : DirectoryInv lines ctrl)
    (slots : ∀ a b, lines a → lines b → dirIndex a = dirIndex b → a = b) (line : lines tag)
    (installs : Installs c tag ctrl ctrl') (inv' : CoherenceInv ctrl')
    (frame : ∀ d, d ≠ dirIndex tag → ctrl'.directory d = ctrl.directory d)
    (own : ∀ k r d, copies ctrl' tag k = some (r, d) → (dirEntry ctrl' tag).Records tag k r) :
    DirectoryInv lines ctrl' := by
  have before {t : UInt32} (ne : t ≠ tag) {k : CacheId} {x : Right × LineData}
      (copy : copies ctrl' t k = some x) : copies ctrl t k = some x := by
    rw [installs.copies_other ne] at copy
    split at copy
    · exact (Copies.evict_eq_some.1 copy).2
    · exact copy
  refine ⟨inv', fun t k x copy => ?_, fun t k r d copy => ?_⟩
  · by_cases eq : t = tag
    · rw [eq]
      exact line
    · exact h.within t k x (before eq copy)
  · by_cases eq : t = tag
    · subst eq
      exact own k r d copy
    · have copy := before eq copy
      have apart : dirIndex t ≠ dirIndex tag := fun same => eq (slots t tag (h.within t k _ copy) line same)
      unfold dirEntry
      rw [frame _ apart]
      exact h.recorded t k r d copy

/-! ## One call -/

/-- A read by a cache that is not there does nothing. -/
theorem coherenceRead_outOfRange {cacheId address : UInt32} (no : ¬ ctrl.InRange cacheId) :
    coherenceRead ctrl cacheId address = ⟨ctrl, false, none⟩ := dif_neg no

/-- A write by a cache that is not there does nothing. -/
theorem coherenceWrite_outOfRange {cacheId address : UInt32} (no : ¬ ctrl.InRange cacheId)
    (dataIn : Option LineData) : coherenceWrite ctrl cacheId address dataIn = (ctrl, false) := dif_neg no

/-- The state `dir_update` is called with follows from the copy that is granted. -/
theorem state_of_right {c : CacheId} {x : Right × LineData} (copy : copies ctrl tag c = some x) :
    (x.1 = .shared → (ctrl.line c (lineIndex tag)).state = .s) ∧
      (x.1 = .sole → (ctrl.line c (lineIndex tag)).state ≠ .s) := by
  have right := right_of_copy copy
  constructor
  · intro shared
    rw [shared] at right
    cases state : (ctrl.line c (lineIndex tag)).state with
    | s => rfl
    | m => rw [state] at right; cases right
    | e => rw [state] at right; cases right
    | i => rw [state] at right; cases right
  · intro sole state
    rw [sole, state] at right
    cases right

/-- An update leaves the other slots. -/
theorem dirUpdate_frame {state : CoherenceState} {d : Fin coherenceDirEntries} (ne : d ≠ dirIndex tag) :
    (dirUpdate ctrl tag state c).directory d = ctrl.directory d := Function.update_of_ne ne _ _

/-- A read that finds no exclusive copy records what it installs. -/
theorem DirectoryInv.read (h : DirectoryInv lines ctrl)
    (slots : ∀ a b, lines a → lines b → dirIndex a = dirIndex b → a = b) {cacheId address : UInt32}
    (line : lines (address / 64)) (unowned : Unowned ctrl (.read cacheId address)) :
    DirectoryInv lines (coherenceRead ctrl cacheId address).ctrl := by
  by_cases range : ctrl.InRange cacheId
  swap
  · rw [coherenceRead_outOfRange range]
    exact h
  have inv' := coherence_inv_step ctrl (.read cacheId address) h.inv
  have out := coherence_read_outcome h.inv cacheId address
  have dirs := fun c : CacheId => h.inv.read_directory c address range
  unfold coherenceStep at inv'
  dsimp only at inv'
  generalize coherenceRead ctrl cacheId address = res at inv' out dirs ⊢
  cases out with
  | outOfRange no => exact absurd range no
  | hit c id copy =>
    refine ⟨inv', fun t k x copy => ?_, fun t k r d copy => ?_⟩
    · rw [copies_touch] at copy
      exact h.within t k x copy
    · rw [copies_touch] at copy
      exact h.recorded t k r d copy
  | miss c id none installs granted source =>
    have notHit := h.inv.miss_of_copy_none none
    have lonely (i : CacheId) : ¬ HoldsSole ctrl i (address / 64) := by
      refine unowned c id range (fun held => ?_) i
      obtain ⟨x, copy⟩ := h.inv.holds_iff.1 held
      rw [none] at copy
      cases copy
    obtain ⟨i, -, own, -⟩ | ⟨state, -, directory, given⟩ := dirs c id notHit
    · exact absurd ⟨_, own.1, .inl own.2⟩ (lonely i)
    refine h.install slots line installs inv' (fun d ne => ?_) fun k r d copy => ?_
    · rw [directory, dirUpdate_frame ne]
    · unfold dirEntry
      rw [directory]
      obtain share | ⟨-, own⟩ := granted
      · have new := (congrFun share c).trans (Copies.share_self _ _ _)
        obtain rfl : state = .s := given.symm.trans ((state_of_right new).1 rfl)
        obtain ⟨rfl, here⟩ := Copies.share_eq_some ((congrFun share k).symm.trans copy)
        refine ⟨congrArg DirectoryEntry.tag (dirEntry_dirUpdate _ _ _ _),
          congrArg DirectoryEntry.state (dirEntry_dirUpdate _ _ _ _), shares_dirUpdate.2 ?_⟩
        obtain eq | ⟨r', old⟩ := here
        · exact .inl eq
        · cases r' with
          | shared => exact .inr (h.recorded _ k _ _ old).2.2
          | sole => exact absurd (h.inv.holdsSole_iff.2 ⟨_, old⟩) (lonely k)
      · have new := (congrFun own c).trans (Copies.own_self _ _)
        have notShared : state ≠ .s := fun eq => (state_of_right new).2 rfl (given.trans eq)
        obtain ⟨rfl, eq⟩ := Copies.own_eq_some.1 ((congrFun own k).symm.trans copy)
        obtain rfl : r = .sole := congrArg Prod.fst eq
        refine ⟨congrArg DirectoryEntry.tag (dirEntry_dirUpdate _ _ _ _),
          congrArg DirectoryEntry.ownerId (dirEntry_dirUpdate _ _ _ _),
          (congrArg DirectoryEntry.sharerBits (dirEntry_dirUpdate _ _ _ _)).trans (if_neg notShared)⟩

/-- A write keeps the invariant, because no other line shares its slot. -/
theorem DirectoryInv.write (h : DirectoryInv lines ctrl)
    (slots : ∀ a b, lines a → lines b → dirIndex a = dirIndex b → a = b) {cacheId address : UInt32}
    (line : lines (address / 64)) (dataIn : Option LineData) :
    DirectoryInv lines (coherenceWrite ctrl cacheId address dataIn).1 := by
  by_cases range : ctrl.InRange cacheId
  swap
  · rw [coherenceWrite_outOfRange range]
    exact h
  have inv' := coherence_inv_step ctrl (.write cacheId address dataIn) h.inv
  have out := coherence_write_outcome h.inv cacheId address dataIn
  have dirs := fun (c : CacheId) (id : c.val = cacheId.toNat) =>
    write_directory address range id dataIn
  unfold coherenceStep at inv'
  dsimp only at inv'
  generalize coherenceWrite ctrl cacheId address dataIn = res at inv' out dirs ⊢
  cases out with
  | outOfRange no => exact absurd range no
  | grant c id installs granted data =>
    refine h.install slots line installs inv' (fun d ne => ?_) fun k r d copy => ?_
    · obtain ⟨same, -⟩ | directory := dirs c id
      · rw [same]
      · rw [directory, dirUpdate_frame ne]
    · rw [granted] at copy
      obtain ⟨rfl, eq⟩ := Copies.own_eq_some.1 copy
      obtain rfl : r = .sole := congrArg Prod.fst eq
      unfold dirEntry
      obtain ⟨same, hit, right⟩ | directory := dirs k id
      · rw [same]
        have old : copies ctrl (address / 64) k = some (.sole, _) :=
          (copy_of_hit hit).trans (by rw [right]; rfl)
        exact h.recorded _ k _ _ old
      · rw [directory]
        exact ⟨congrArg DirectoryEntry.tag (dirEntry_dirUpdate _ _ _ _),
          congrArg DirectoryEntry.ownerId (dirEntry_dirUpdate _ _ _ _),
          congrArg DirectoryEntry.sharerBits (dirEntry_dirUpdate _ _ _ _)⟩

/-- A snoop keeps the invariant. -/
theorem DirectoryInv.snoop (h : DirectoryInv lines ctrl) (cacheId address : UInt32) (isWrite : Bool) :
    DirectoryInv lines (coherenceSnoop ctrl cacheId address isWrite) := by
  have before {t : UInt32} {k : CacheId} {x : Right × LineData}
      (copy : copies (coherenceSnoop ctrl cacheId address isWrite) t k = some x) : copies ctrl t k = some x := by
    obtain none | same := snoop_copies ctrl cacheId address isWrite t k
    · rw [none] at copy
      cases copy
    · rw [← same]
      exact copy
  refine ⟨h.inv.snoop cacheId address isWrite, fun t k x copy => h.within t k x (before copy),
    fun t k r d copy => ?_⟩
  unfold dirEntry
  rw [snoop_directory]
  exact h.recorded t k r d (before copy)

/-- Every call keeps it, given that a read that misses finds no sole copy. -/
theorem DirectoryInv.step (h : DirectoryInv lines ctrl)
    (slots : ∀ a b, lines a → lines b → dirIndex a = dirIndex b → a = b) {op : CoherenceOp}
    (line : lines op.tag) (unowned : Unowned ctrl op) : DirectoryInv lines (coherenceStep ctrl op) := by
  cases op with
  | read cacheId address => exact h.read slots line unowned
  | write cacheId address dataIn => exact h.write slots line dataIn
  | snoop cacheId address isWrite => exact h.snoop cacheId address isWrite

/-- Caches are known by their numbers. -/
theorem ofNat_cacheId (c k : CacheId) : UInt32.ofNat c.val = UInt32.ofNat k.val ↔ c = k := by
  revert c k
  decide

/-- With no bits set no cache is a sharer. -/
theorem not_shares_of_zero {entry : DirectoryEntry} (zero : entry.sharerBits = fun _ => 0) (c : CacheId) :
    ¬ entry.Shares c := by
  unfold DirectoryEntry.Shares
  rw [zero]
  simp

/-- A read that misses next to an exclusive copy leaves a holder unrecorded: itself next to a
Modified copy, and the old holder next to an Exclusive one. -/
theorem DirectoryInv.breaks (h : DirectoryInv lines ctrl) {op : CoherenceOp} (owned : ¬ Unowned ctrl op) :
    ¬ Conservative (coherenceStep ctrl op) := by
  cases op with
  | write cacheId address dataIn => exact absurd trivial owned
  | snoop cacheId address isWrite => exact absurd trivial owned
  | read cacheId address =>
    unfold Unowned at owned
    push Not at owned
    obtain ⟨c, id, range, notHeld, i, sole⟩ := owned
    obtain ⟨x, own⟩ := h.inv.holdsSole_iff.1 sole
    have recorded := h.recorded _ i _ x own
    have ne : i ≠ c := by
      rintro rfl
      exact notHeld (h.inv.holds_iff.2 ⟨_, own⟩)
    have inv' := coherence_inv_step ctrl (.read cacheId address) h.inv
    have out := coherence_read_outcome h.inv cacheId address
    have dirs := fun c : CacheId => h.inv.read_directory c address range
    unfold coherenceStep at inv' ⊢
    dsimp only at inv' ⊢
    generalize coherenceRead ctrl cacheId address = res at inv' out dirs ⊢
    intro conservative
    cases out with
    | outOfRange no => exact absurd range no
    | hit k id' copy =>
      obtain rfl : k = c := Fin.ext (id'.trans id.symm)
      exact notHeld (h.inv.holds_iff.2 ⟨_, copy⟩)
    | miss k id' none installs granted source =>
      obtain rfl : k = c := Fin.ext (id'.trans id.symm)
      obtain share | ⟨nobody, -⟩ := granted
      swap
      · rw [nobody i] at own
        cases own
      have new := (congrFun share k).trans (Copies.share_self _ _ _)
      obtain ⟨j, -, -, directory⟩ | ⟨state, -, directory, given⟩ :=
        dirs k id (h.inv.miss_of_copy_none none)
      · -- the entry still has the Modified copy as its owner
        obtain ⟨d, look, listed⟩ := conservative.listed k _ (inv'.holds_iff.2 ⟨_, new⟩)
        obtain rfl := dirLookup_some look
        rw [directory, dirLookup_of_tag recorded.1] at listed
        have entry : (takeFromOwner ctrl k j (address / 64) (some (dirIndex (address / 64)))).directory
            (dirIndex (address / 64)) = { dirEntry ctrl (address / 64) with state := .s } :=
          Function.update_self _ _ _
        rw [entry] at listed
        obtain owner | shares := listed
        · exact ne ((ofNat_cacheId i k).1 (recorded.2.1.symm.trans owner))
        · exact not_shares_of_zero recorded.2.2 k shares
      · -- the entry has the new holder alone
        obtain rfl : state = .s := given.symm.trans ((state_of_right new).1 rfl)
        have old := (congrFun share i).trans (Copies.share_of_ne ne own)
        obtain ⟨d, look, listed⟩ := conservative.listed i _ (inv'.holds_iff.2 ⟨_, old⟩)
        obtain rfl := dirLookup_some look
        rw [directory] at listed
        obtain owner | shares := listed
        · have owner := (congrArg DirectoryEntry.ownerId (dirEntry_dirUpdate ctrl (address / 64) .s k)).symm.trans owner
          exact ne ((ofNat_cacheId k i).1 owner).symm
        · obtain eq | before := shares_dirUpdate.1 shares
          · exact ne eq
          · exact not_shares_of_zero recorded.2.2 i before

end Invariant

/-! ## Runs -/

/-- The directory is conservative in every state of a run whose lines have their own slots, if and
only if no read misses on a line that another cache has Modified or Exclusive. -/
theorem directory_conservative_iff (protocol : CoherenceProtocol) (numCaches : UInt32) (ops : List CoherenceOp)
    (slots : OwnSlots ops) :
    (∀ before rest, ops = before ++ rest → Conservative (coherenceRun protocol numCaches before)) ↔
      Guarded coherenceStep Unowned (coherenceInit protocol numCaches) ops := by
  let lines : UInt32 → Prop := fun tag => ∃ op ∈ ops, op.tag = tag
  have apart : ∀ a b, lines a → lines b → dirIndex a = dirIndex b → a = b := by
    rintro _ _ ⟨a, ma, rfl⟩ ⟨b, mb, rfl⟩ same
    exact slots a ma b mb same
  unfold coherenceRun
  apply guarded_iff_prefixes_on (DirectoryInv lines) (fun op => lines op.tag)
  · exact fun _ h => h.conservative
  · exact fun _ _ line h unowned => h.step apart line unowned
  · exact fun _ _ _ h owned => h.breaks owned
  · exact DirectoryInv.init protocol numCaches
  · exact fun op mem => ⟨op, mem, rfl⟩

/-- The first read finds no copy anywhere, the second its own. -/
theorem directory_conservative_reads :
    Conservative (coherenceRun .mesi 2 [.read 0 64, .write 1 64 none, .read 1 64, .write 0 128 none]) := by
  have first : Unowned (coherenceInit .mesi 2) (.read 0 64) := by
    rintro c - - - i ⟨j, ⟨valid, -⟩, -⟩
    exact nomatch valid
  have own : Unowned (coherenceRun .mesi 2 [.read 0 64, .write 1 64 none]) (.read 1 64) := by
    intro c id _ missed
    obtain rfl : c = 1 := Fin.ext id
    exact absurd ⟨1, by decide⟩ missed
  exact (directory_conservative_iff .mesi 2 [.read 0 64, .write 1 64 none, .read 1 64, .write 0 128 none]
    (by unfold OwnSlots; decide)).2 ⟨first, trivial, own, trivial, trivial⟩ _ [] rfl

/-- A read takes the line of another cache's write, and is not recorded. A second reader of an
Exclusive line is, but the first no more. -/
theorem directory_unrecorded :
    ¬ Conservative (coherenceRun .msi 2 [.write 0 64 none, .read 1 64]) ∧
      ¬ Conservative (coherenceRun .mesi 2 [.read 0 64, .read 1 64]) := by
  constructor
  · intro conservative
    obtain ⟨d, look, listed⟩ := conservative.listed 1 1 ⟨1, by decide⟩
    obtain rfl := dirLookup_some look
    revert listed
    decide
  · intro conservative
    obtain ⟨d, look, listed⟩ := conservative.listed 0 1 ⟨1, by decide⟩
    obtain rfl := dirLookup_some look
    revert listed
    decide

end MiniHardware.Arch.Coherence
