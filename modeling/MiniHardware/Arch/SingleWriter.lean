import MiniHardware.Lib.Copies
import MiniHardware.Arch.Coherence

/-!
# The single-writer invariant

`copies ctrl tag` are the copies of one line in the caches. A call of the
simulator grants a shared or the sole copy of its own line, evicts at most one
copy of any other line, and drops copies when it snoops; so a Modified or
Exclusive copy stays the only one (`coherence_single_writer`).
-/

namespace MiniHardware.Arch.Coherence
open Lib CoherenceController

/-- Modified and Exclusive copies are sole, Shared ones shared. -/
def rightOf : CoherenceState → Option Right
  | .m | .e => some .sole
  | .s => some .shared
  | .i => none

/-- The copy a cache line is of `tag`. -/
def CoherenceCacheLine.copy (line : CoherenceCacheLine) (tag : UInt32) : Option (Right × LineData) :=
  if line.Hit tag then (rightOf line.state).map (·, line.data) else none

/-- The copies of the line `tag`. -/
def copies (ctrl : CoherenceController) (tag : UInt32) : Copies CacheId LineData :=
  fun c => (ctrl.line c (lineIndex tag)).copy tag

/-- A line of another tag is no copy. -/
theorem copy_of_tag_ne {line : CoherenceCacheLine} {tag : UInt32} (ne : line.tag ≠ tag) :
    line.copy tag = none := if_neg fun h => ne h.2

/-- A line that hits is a copy with the right of its state. -/
theorem copy_of_hit {line : CoherenceCacheLine} {tag : UInt32} (hit : line.Hit tag) :
    line.copy tag = (rightOf line.state).map (·, line.data) := if_pos hit

/-- A line that misses is no copy. -/
theorem copy_of_miss {line : CoherenceCacheLine} {tag : UInt32} (miss : ¬ line.Hit tag) :
    line.copy tag = none := if_neg miss

/-- Valid lines sit at their index, in an existing cache, and are not Invalid; a sole copy is
the only one. -/
structure CoherenceInv (ctrl : CoherenceController) : Prop where
  placed : ∀ c j, (ctrl.line c j).valid = true → lineIndex (ctrl.line c j).tag = j
  inside : ∀ c j, (ctrl.line c j).valid = true → c ∈ ctrl.ids
  live : ∀ c j, (ctrl.line c j).valid = true → (ctrl.line c j).state ≠ .i
  single : ∀ tag, (copies ctrl tag).SingleWriter

/-- Nothing is valid after `coherence_init`. -/
theorem coherence_inv_init (protocol : CoherenceProtocol) (numCaches : UInt32) :
    CoherenceInv (coherenceInit protocol numCaches) where
  placed _ _ h := by cases h
  inside _ _ h := by cases h
  live _ _ h := by cases h
  single _ _ _ _ h := by cases h

namespace CoherenceInv

variable {ctrl : CoherenceController}

/-- Without a copy a cache does not hit. -/
theorem miss_of_copy_none (inv : CoherenceInv ctrl) {c : CacheId} {tag : UInt32}
    (none : copies ctrl tag c = none) : ¬ (ctrl.line c (lineIndex tag)).Hit tag := by
  intro hit
  have live := inv.live _ _ hit.1
  change (ctrl.line c (lineIndex tag)).copy tag = _ at none
  rw [copy_of_hit hit] at none
  cases e : (ctrl.line c (lineIndex tag)).state <;> simp_all [rightOf]

/-- Next to a Modified or Exclusive copy no other cache hits. -/
theorem alone (inv : CoherenceInv ctrl) {c d : CacheId} {tag : UInt32}
    (hit : (ctrl.line c (lineIndex tag)).Hit tag)
    (sole : rightOf (ctrl.line c (lineIndex tag)).state = some .sole) (ne : d ≠ c) :
    ¬ (ctrl.line d (lineIndex tag)).Hit tag := by
  refine inv.miss_of_copy_none (inv.single tag c d (ctrl.line c (lineIndex tag)).data ?_ ne)
  show (ctrl.line c (lineIndex tag)).copy tag = _
  rw [copy_of_hit hit, sole]
  rfl

end CoherenceInv

/-! ## Installing a line -/

/-- `ctrl'` differs from `ctrl` in the slot of `tag` in cache `c`, and elsewhere only in copies
of `tag`. -/
structure Installs (c : CacheId) (tag : UInt32) (ctrl ctrl' : CoherenceController) : Prop where
  own : (ctrl'.line c (lineIndex tag)).tag = tag ∧
    (ctrl'.line c (lineIndex tag)).state ≠ .i
  inside : c ∈ ctrl.ids
  ids : ctrl'.ids = ctrl.ids
  other : ∀ k j, ¬ (k = c ∧ j = lineIndex tag) → ctrl'.line k j = ctrl.line k j ∨
    (j = lineIndex tag ∧ (ctrl.line k j).Hit tag ∧ (ctrl'.line k j).tag = tag ∧
      ((ctrl'.line k j).valid = true → (ctrl'.line k j).state ≠ .i))

namespace Installs

variable {c : CacheId} {tag : UInt32} {ctrl ctrl' : CoherenceController}

/-- The copies of another line: the one in the same slot of `c` is evicted. -/
theorem copies_other (h : Installs c tag ctrl ctrl') {t : UInt32} (ne : t ≠ tag) :
    copies ctrl' t =
      if lineIndex t = lineIndex tag then (copies ctrl t).evict c else copies ctrl t := by
  have keep (k : CacheId) (here : ¬ (k = c ∧ lineIndex t = lineIndex tag)) :
      copies ctrl' t k = copies ctrl t k := by
    unfold copies
    rcases h.other k (lineIndex t) here with same | ⟨-, hit, tag', -⟩
    · rw [same]
    · rw [copy_of_tag_ne (hit.2.trans_ne ne.symm), copy_of_tag_ne (tag'.trans_ne ne.symm)]
  funext k
  split
  · rename_i slot
    by_cases hk : k = c
    · subst hk
      simp only [Copies.evict, Function.update_self, copies, slot]
      exact copy_of_tag_ne (h.own.1.trans_ne ne.symm)
    · rw [keep k fun e => hk e.1, Copies.evict, Function.update_of_ne hk]
  · rename_i slot
    exact keep k fun e => slot e.2

/-- An install that leaves the copies of its line single-writer keeps the invariant. -/
theorem keeps (h : Installs c tag ctrl ctrl') (inv : CoherenceInv ctrl)
    (single : (copies ctrl' tag).SingleWriter) : CoherenceInv ctrl' := by
  refine ⟨fun k j valid => ?_, fun k j valid => ?_, fun k j valid => ?_, fun t => ?_⟩
  · by_cases here : k = c ∧ j = lineIndex tag
    · obtain ⟨rfl, rfl⟩ := here
      rw [h.own.1]
    · rcases h.other k j here with same | ⟨slot, -, tag', -⟩
      · rw [same] at valid ⊢
        exact inv.placed k j valid
      · rw [tag', slot]
  · rw [h.ids]
    by_cases here : k = c ∧ j = lineIndex tag
    · exact here.1 ▸ h.inside
    · rcases h.other k j here with same | ⟨-, hit, -⟩
      · exact inv.inside k j (same ▸ valid)
      · exact inv.inside k j hit.1
  · by_cases here : k = c ∧ j = lineIndex tag
    · obtain ⟨rfl, rfl⟩ := here
      exact h.own.2
    · rcases h.other k j here with same | ⟨-, -, -, live⟩
      · rw [same] at valid ⊢
        exact inv.live k j valid
      · exact live valid
  · by_cases ht : t = tag
    · exact ht ▸ single
    · rw [h.copies_other ht]
      split
      · exact (inv.single t).evict c
      · exact inv.single t

end Installs

/-! ## The loop of `coherence_read` -/

/-- The `MESI_E` branch: cache `k` keeps its copy as Shared. -/
def demoteLine (ctrl : CoherenceController) (k : CacheId) (j : LineIndex) : CoherenceController :=
  ctrl.setLine k j { ctrl.line k j with state := .s }

/-- Demoting touches one line, and its state only. -/
theorem line_demoteLine (ctrl : CoherenceController) (k i : CacheId) (j l : LineIndex) :
    (demoteLine ctrl k j).line i l =
      if i = k ∧ l = j then { ctrl.line i l with state := .s } else ctrl.line i l := by
  rw [demoteLine, line_setLine]
  split
  · rename_i e; obtain ⟨rfl, rfl⟩ := e; rfl
  · rfl

/-- A demoted line still hits. -/
theorem hit_demoteLine {ctrl : CoherenceController} {k i : CacheId} {j l : LineIndex}
    {tag : UInt32} : ((demoteLine ctrl k j).line i l).Hit tag ↔ (ctrl.line i l).Hit tag := by
  rw [line_demoteLine]
  split <;> exact Iff.rfl

/-- A line that is not Shared after a demotion was not demoted. -/
theorem state_demoteLine {ctrl : CoherenceController} {k i : CacheId} {j l : LineIndex}
    {st : CoherenceState} (ne : st ≠ .s) (h : ((demoteLine ctrl k j).line i l).state = st) :
    ¬ (i = k ∧ l = j) ∧ (ctrl.line i l).state = st := by
  rw [line_demoteLine] at h
  split at h
  · exact absurd h.symm ne
  · exact ⟨‹_›, h⟩

section Loop

variable {c : CacheId} {tag : UInt32} {dirIdx : Option (Fin coherenceDirEntries)}
  {is : List CacheId} {ctrl ctrl' : CoherenceController} {shared shared' : Bool}

/-- A Modified copy outside `c` is the only one the loop can find. -/
def Solo (c : CacheId) (tag : UInt32) (ctrl : CoherenceController) : Prop :=
  ∀ i k, i ≠ c → (ctrl.line i (lineIndex tag)).Hit tag →
    (ctrl.line i (lineIndex tag)).state = .m → k ≠ i → ¬ (ctrl.line k (lineIndex tag)).Hit tag

/-- Demoting makes no Modified copy. -/
theorem Solo.demoteLine (solo : Solo c tag ctrl) (k : CacheId) :
    Solo c tag (demoteLine ctrl k (lineIndex tag)) := by
  intro i l ne hit m nl
  rw [hit_demoteLine] at hit ⊢
  exact solo i l ne hit (state_demoteLine (by decide) m).2 nl

/-- With a Modified copy the loop ends there, having changed nothing on the way. -/
theorem read_loop_owner (solo : Solo c tag ctrl)
    (h : readLoop c tag dirIdx is ctrl shared = .owner ctrl') :
    ∃ i ∈ is, i ≠ c ∧ (ctrl.line i (lineIndex tag)).Hit tag ∧
      (ctrl.line i (lineIndex tag)).state = .m ∧ ctrl' = takeFromOwner ctrl c i tag dirIdx := by
  induction is generalizing ctrl shared with
  | nil => cases h
  | cons k is ih =>
    have later {shared : Bool} (h : readLoop c tag dirIdx is ctrl shared = .owner ctrl') :
        ∃ i ∈ k :: is, i ≠ c ∧ (ctrl.line i (lineIndex tag)).Hit tag ∧
          (ctrl.line i (lineIndex tag)).state = .m ∧
            ctrl' = takeFromOwner ctrl c i tag dirIdx := by
      obtain ⟨i, mem, found⟩ := ih solo h
      exact ⟨i, List.mem_cons_of_mem _ mem, found⟩
    unfold readLoop at h
    dsimp only at h
    split at h
    · exact later h
    · rename_i ne
      split at h
      · rename_i hit
        split at h
        · rename_i m
          cases h
          exact ⟨k, List.mem_cons_self, ne, hit, m, rfl⟩
        · obtain ⟨i, mem, ne, hit', m, -⟩ := ih (solo.demoteLine k) h
          obtain ⟨nk, m⟩ := state_demoteLine (by decide) m
          exact absurd hit (solo i k ne (hit_demoteLine.1 hit') m fun e => nk ⟨e.symm, rfl⟩)
        · exact later h
        · exact later h
      · exact later h

/-- Without one it demotes the Exclusive copies and reports whether there is any copy. -/
structure LoopDone (c : CacheId) (tag : UInt32) (is : List CacheId) (ctrl : CoherenceController)
    (shared : Bool) (ctrl' : CoherenceController) (shared' : Bool) : Prop where
  clean : ∀ k ∈ is, k ≠ c → (ctrl.line k (lineIndex tag)).Hit tag →
    (ctrl.line k (lineIndex tag)).state ≠ .m
  line : ∀ k j, ctrl'.line k j =
    if k ∈ is ∧ k ≠ c ∧ j = lineIndex tag ∧ (ctrl.line k j).Hit tag ∧ (ctrl.line k j).state = .e then
      { ctrl.line k j with state := .s } else ctrl.line k j
  found : shared' = true ↔ shared = true ∨ ∃ k ∈ is, k ≠ c ∧
    (ctrl.line k (lineIndex tag)).Hit tag ∧ (ctrl.line k (lineIndex tag)).state ≠ .i
  ids : ctrl'.ids = ctrl.ids

/-- A cache the loop passes over: itself, one without a copy, or an Invalid copy. -/
theorem LoopDone.skip {k : CacheId} (h : LoopDone c tag is ctrl shared ctrl' shared')
    (pass : k = c ∨ ¬ (ctrl.line k (lineIndex tag)).Hit tag ∨
      (ctrl.line k (lineIndex tag)).state = .i) :
    LoopDone c tag (k :: is) ctrl shared ctrl' shared' := by
  refine ⟨fun l mem ne hit => ?_, fun l j => ?_, ?_, h.ids⟩
  · rcases List.mem_cons.1 mem with rfl | mem
    · rcases pass with e | miss | inv
      · exact absurd e ne
      · exact absurd hit miss
      · rw [inv]; decide
    · exact h.clean l mem ne hit
  · rw [h.line]
    refine if_congr ?_ rfl rfl
    refine ⟨fun h => ⟨List.mem_cons_of_mem _ h.1, h.2⟩, ?_⟩
    rintro ⟨mem, ne, rfl, hit, e⟩
    rcases List.mem_cons.1 mem with rfl | mem
    · rcases pass with e' | miss | inv
      · exact absurd e' ne
      · exact absurd hit miss
      · rw [inv] at e; cases e
    · exact ⟨mem, ne, rfl, hit, e⟩
  · rw [h.found]
    refine or_congr_right ⟨fun ⟨l, mem, h⟩ => ⟨l, List.mem_cons_of_mem _ mem, h⟩, ?_⟩
    rintro ⟨l, mem, ne, hit, live⟩
    rcases List.mem_cons.1 mem with rfl | mem
    · rcases pass with e | miss | inv
      · exact absurd e ne
      · exact absurd hit miss
      · exact absurd inv live
    · exact ⟨l, mem, ne, hit, live⟩

/-- A loop that finds no Modified copy, by induction on the caches it visits. -/
theorem read_loop_done (h : readLoop c tag dirIdx is ctrl shared = .done ctrl' shared') :
    LoopDone c tag is ctrl shared ctrl' shared' := by
  induction is generalizing ctrl shared with
  | nil => cases h; exact ⟨by simp, by simp, by simp, rfl⟩
  | cons k is ih =>
    unfold readLoop at h
    dsimp only at h
    split at h
    · exact (ih h).skip (.inl ‹_›)
    · rename_i ne
      split at h
      · rename_i hit
        split at h
        · cases h
        · rename_i e
          have rest : LoopDone c tag is (demoteLine ctrl k (lineIndex tag)) true ctrl' shared' := ih h
          refine ⟨fun l mem nl hl => ?_, fun l j => ?_, ?_, rest.ids⟩
          · by_cases hk : l = k
            · rw [hk, e]; decide
            · have := rest.clean l ((List.mem_cons.1 mem).resolve_left hk) nl (hit_demoteLine.2 hl)
              rw [line_demoteLine, if_neg fun h => hk h.1] at this
              exact this
          · rw [rest.line]
            by_cases here : l = k ∧ j = lineIndex tag
            · obtain ⟨rfl, rfl⟩ := here
              simp [line_demoteLine, ne, hit, e]
            · rw [show (demoteLine ctrl k (lineIndex tag)).line l j = ctrl.line l j by
                rw [line_demoteLine, if_neg here]]
              refine if_congr ⟨fun h => ⟨List.mem_cons_of_mem _ h.1, h.2⟩, ?_⟩ rfl rfl
              rintro ⟨mem, nl, slot, hl⟩
              exact ⟨(List.mem_cons.1 mem).resolve_left fun hk => here ⟨hk, slot⟩, nl, slot, hl⟩
          · rw [rest.found]
            refine ⟨fun _ => .inr ⟨k, List.mem_cons_self, ne, hit, by rw [e]; decide⟩, fun _ => .inl rfl⟩
        · rename_i s
          have rest := ih h
          refine ⟨fun l mem nl hl => ?_, fun l j => ?_, ?_, rest.ids⟩
          · rcases List.mem_cons.1 mem with rfl | mem
            · rw [s]; decide
            · exact rest.clean l mem nl hl
          · rw [rest.line]
            refine if_congr ⟨fun h => ⟨List.mem_cons_of_mem _ h.1, h.2⟩, ?_⟩ rfl rfl
            rintro ⟨mem, nl, rfl, hl, he⟩
            rcases List.mem_cons.1 mem with rfl | mem
            · rw [s] at he; cases he
            · exact ⟨mem, nl, rfl, hl, he⟩
          · rw [rest.found]
            refine ⟨fun _ => .inr ⟨k, List.mem_cons_self, ne, hit, by rw [s]; decide⟩, fun _ => .inl rfl⟩
        · exact (ih h).skip (.inr (.inr ‹_›))
      · exact (ih h).skip (.inr (.inl ‹_›))

end Loop

/-! ## What the calls do to the copies -/

/-- Cache `c` has the line in Modified state. -/
def Modified (ctrl : CoherenceController) (c : CacheId) (tag : UInt32) : Prop :=
  (ctrl.line c (lineIndex tag)).Hit tag ∧ (ctrl.line c (lineIndex tag)).state = .m

/-- What `coherence_read` can do: nothing, deliver the cache's own copy, or install a copy with
the data of a Modified one, and with zeros if there is none. -/
inductive ReadOutcome (ctrl : CoherenceController) (cacheId tag : UInt32) : ReadResult → Prop where
  | outOfRange (no : ¬ ctrl.InRange cacheId) : ReadOutcome ctrl cacheId tag ⟨ctrl, false, none⟩
  | hit (c : CacheId) (id : c.val = cacheId.toNat) {right : Right} {d : LineData}
      (copy : copies ctrl tag c = some (right, d)) :
      ReadOutcome ctrl cacheId tag ⟨ctrl.touch c, true, some d⟩
  | miss (c : CacheId) (id : c.val = cacheId.toNat) {ctrl' : CoherenceController} {ret : Bool}
      {d : LineData} (none : copies ctrl tag c = none) (installs : Installs c tag ctrl ctrl')
      (granted : copies ctrl' tag = (copies ctrl tag).share c d ∨
        (∀ k, copies ctrl tag k = Option.none) ∧ copies ctrl' tag = Copies.own c d)
      (source : (∃ i, Modified ctrl i tag ∧ d = (ctrl.line i (lineIndex tag)).data) ∨
        d = zeroLine ∧ ∀ i, ¬ Modified ctrl i tag) :
      ReadOutcome ctrl cacheId tag ⟨ctrl', ret, some d⟩

/-- Touching a cache leaves the copies. -/
@[simp] theorem copies_touch (ctrl : CoherenceController) (c : CacheId) (tag : UInt32) :
    copies (ctrl.touch c) tag = copies ctrl tag := by
  funext k; simp [copies]

/-- Taking a Modified line installs its data as Shared and demotes the owner. -/
theorem line_takeFromOwner (ctrl : CoherenceController) (c i k : CacheId) (tag : UInt32)
    (dirIdx : Option (Fin coherenceDirEntries)) (j : LineIndex) :
    (takeFromOwner ctrl c i tag dirIdx).line k j =
      if k = c ∧ j = lineIndex tag then ⟨tag, .s, true, (ctrl.line i (lineIndex tag)).data⟩
      else (demoteLine ctrl i (lineIndex tag)).line k j :=
  line_setLine _ _ _ _ _ _

/-- A demoted line is a demoted copy. -/
theorem copy_demoted (line : CoherenceCacheLine) (tag : UInt32) (live : line.state ≠ .i) :
    CoherenceCacheLine.copy { line with state := .s } tag =
      (line.copy tag).map fun x => (.shared, x.2) := by
  by_cases hit : line.Hit tag
  · rw [@copy_of_hit { line with state := .s } tag hit, copy_of_hit hit]
    cases e : line.state <;> simp_all [rightOf]
  · rw [@copy_of_miss { line with state := .s } tag hit, copy_of_miss hit]
    rfl

section Read

variable {ctrl : CoherenceController} {c : CacheId} {tag : UInt32}

/-- A cache that gets its copy from the Modified one at `i`. -/
theorem CoherenceInv.read_owner (inv : CoherenceInv ctrl) (inside : c ∈ ctrl.ids) {i : CacheId}
    (own : Modified ctrl i tag) (ctrl' : CoherenceController) (ids : ctrl'.ids = ctrl.ids)
    (line : ∀ k j, ctrl'.line k j =
      if k = c ∧ j = lineIndex tag then ⟨tag, .s, true, (ctrl.line i (lineIndex tag)).data⟩
      else (demoteLine ctrl i (lineIndex tag)).line k j) :
    Installs c tag ctrl ctrl' ∧
      copies ctrl' tag = (copies ctrl tag).share c (ctrl.line i (lineIndex tag)).data := by
  obtain ⟨hit, m⟩ := own
  simp only [line_demoteLine] at line
  refine ⟨⟨?_, inside, ids, fun k j here => ?_⟩, ?_⟩
  · rw [line, if_pos ⟨rfl, rfl⟩]
    exact ⟨rfl, nofun⟩
  · rw [line, if_neg here]
    split
    · rename_i slot
      obtain ⟨rfl, rfl⟩ := slot
      exact .inr ⟨rfl, hit, hit.2, fun _ => nofun⟩
    · exact .inl rfl
  · funext k
    by_cases hk : k = c
    · subst hk
      simp only [Copies.share, Function.update_self, copies, line, and_self, if_true]
      exact copy_of_hit ⟨rfl, rfl⟩
    · rw [Copies.share, Function.update_of_ne hk]
      simp only [copies, line, and_true, if_neg hk, Copies.demote]
      split
      · rename_i e
        subst e
        exact copy_demoted _ _ (by rw [m]; decide)
      · rename_i e
        rw [copy_of_miss (inv.alone hit (by rw [m]; rfl) e)]
        rfl

/-- A cache that finds no Modified copy and installs a line of zeros. -/
theorem CoherenceInv.read_done (inv : CoherenceInv ctrl) (inside : c ∈ ctrl.ids)
    (notHit : ¬ (ctrl.line c (lineIndex tag)).Hit tag) {loop : CoherenceController}
    {shared exclusive : Bool} (done : LoopDone c tag ctrl.ids ctrl false loop shared)
    {state : CoherenceState}
    (hs : state = if shared ∧ exclusive then .s else if exclusive then .e else .s)
    (ctrl' : CoherenceController) (ids : ctrl'.ids = ctrl.ids)
    (line : ∀ k j, ctrl'.line k j =
      if k = c ∧ j = lineIndex tag then ⟨tag, state, true, zeroLine⟩ else loop.line k j) :
    Installs c tag ctrl ctrl' ∧ (∀ i, ¬ Modified ctrl i tag) ∧
      (copies ctrl' tag = (copies ctrl tag).share c zeroLine ∨
        (∀ k, copies ctrl tag k = none) ∧ copies ctrl' tag = Copies.own c zeroLine) := by
  have others (k : CacheId) (hk : k ≠ c) :
      (ctrl'.line k (lineIndex tag)).copy tag = (copies ctrl tag).demote k := by
    rw [line, if_neg fun e => hk e.1, done.line]
    by_cases hit : (ctrl.line k (lineIndex tag)).Hit tag
    · have mem := inv.inside _ _ hit.1
      have live := inv.live _ _ hit.1
      split
      · exact copy_demoted _ _ live
      · rename_i notE
        have notM := done.clean k mem hk hit
        have s : (ctrl.line k (lineIndex tag)).state = .s := by
          cases e : (ctrl.line k (lineIndex tag)).state with
          | m => exact absurd e notM
          | e => exact absurd ⟨mem, hk, rfl, hit, e⟩ notE
          | s => rfl
          | i => exact absurd e live
        simp only [Copies.demote, copies, copy_of_hit hit, s, rightOf, Option.map_some]
    · rw [if_neg fun e => hit e.2.2.2.1]
      simp [Copies.demote, copies, copy_of_miss hit]
  have here : (ctrl'.line c (lineIndex tag)).copy tag = (rightOf state).map (·, zeroLine) := by
    rw [line, if_pos ⟨rfl, rfl⟩]
    exact copy_of_hit ⟨rfl, rfl⟩
  refine ⟨⟨?_, inside, ids, fun k j away => ?_⟩, fun i own => ?_, ?_⟩
  · rw [line, if_pos ⟨rfl, rfl⟩]
    refine ⟨rfl, ?_⟩
    dsimp only
    rw [hs]
    split
    · decide
    · split <;> decide
  · rw [line, if_neg away, done.line]
    split
    · rename_i e
      obtain ⟨-, -, slot, hit, -⟩ := e
      exact .inr ⟨slot, hit, hit.2, fun _ => CoherenceState.noConfusion⟩
    · exact .inl rfl
  · have hi : i ≠ c := by rintro rfl; exact notHit own.1
    exact done.clean i (inv.inside _ _ own.1.1) hi own.1 own.2
  · by_cases sole : shared = false ∧ exclusive = true
    · obtain ⟨rfl, rfl⟩ := sole
      have none (k : CacheId) : copies ctrl tag k = none := by
        refine copy_of_miss fun hit => ?_
        have hk : k ≠ c := by rintro rfl; exact notHit hit
        exact Bool.noConfusion
          (done.found.2 (.inr ⟨k, inv.inside _ _ hit.1, hk, hit, inv.live _ _ hit.1⟩))
      refine .inr ⟨none, funext fun k => ?_⟩
      by_cases hk : k = c
      · subst hk
        rw [copies, here, hs, Copies.own, Function.update_self]
        rfl
      · rw [copies, others k hk, Copies.own, Function.update_of_ne hk, Copies.demote, none k]
        rfl
    · have hs : state = .s := by
        rw [hs]
        cases shared <;> cases exclusive <;> simp_all
      refine .inl (funext fun k => ?_)
      by_cases hk : k = c
      · subst hk
        rw [copies, here, hs, Copies.share, Function.update_self]
        rfl
      · rw [copies, others k hk, Copies.share, Function.update_of_ne hk]

/-- After a miss is counted the owner of a block is still alone. -/
theorem CoherenceInv.solo_miss (inv : CoherenceInv ctrl) (c : CacheId) (tag : UInt32) :
    Solo c tag (ctrl.touch c).miss := by
  intro i k _ hit m ne
  simp only [line_miss, line_touch] at hit m ⊢
  exact inv.alone hit (by rw [m]; rfl) ne

/-- A read has one of the outcomes of `ReadOutcome`. -/
theorem coherence_read_outcome (inv : CoherenceInv ctrl) (cacheId address : UInt32) :
    ReadOutcome ctrl cacheId (address / 64) (coherenceRead ctrl cacheId address) := by
  unfold coherenceRead
  split
  · rename_i h
    generalize hc : (⟨cacheId.toNat, h.2⟩ : CacheId) = c
    have id : c.val = cacheId.toNat := by rw [← hc]
    have inside : c ∈ ctrl.ids := mem_ids.2 (id ▸ h.1)
    dsimp only
    generalize address / 64 = tag
    simp only [line_touch]
    split
    · rename_i hit
      obtain ⟨right, hr⟩ : ∃ right, rightOf (ctrl.line c (lineIndex tag)).state = some right := by
        have live := inv.live _ _ hit.1
        cases e : (ctrl.line c (lineIndex tag)).state <;> simp_all [rightOf]
      have copy : copies ctrl tag c = some (right, (ctrl.line c (lineIndex tag)).data) :=
        (copy_of_hit hit).trans (by rw [hr]; rfl)
      exact .hit c id copy
    · rename_i notHit
      have none : copies ctrl tag c = none := copy_of_miss notHit
      have solo := inv.solo_miss c tag
      split
      · rename_i ctrl' owner
        obtain ⟨i, -, ne, hit, m, rfl⟩ := read_loop_owner solo owner
        simp only [line_miss, line_touch] at hit m
        have line := fun k => line_takeFromOwner (ctrl.touch c).miss c i k tag
          (dirLookup (ctrl.touch c).miss tag)
        simp only [line_demoteLine, line_miss, line_touch] at line
        obtain ⟨installs, granted⟩ := inv.read_owner inside ⟨hit, m⟩
          (takeFromOwner (ctrl.touch c).miss c i tag (dirLookup (ctrl.touch c).miss tag)) rfl
          (by simp only [line_demoteLine]; exact line)
        have data := congrArg CoherenceCacheLine.data (line c (lineIndex tag))
        simp only [and_self, if_true] at data
        rw [data]
        exact .miss c id none installs (.inl granted) (.inl ⟨i, ⟨hit, m⟩, rfl⟩)
      · rename_i loop shared h
        have done : LoopDone c tag ctrl.ids ctrl false loop shared := by
          obtain ⟨clean, line, found, ids⟩ := read_loop_done h
          simp only [line_miss, line_touch] at clean line found
          exact ⟨clean, line, found, ids⟩
        generalize hs : (if shared = true ∧ hasExclusiveMode loop.protocol = true then
          CoherenceState.s else if hasExclusiveMode loop.protocol = true then .e else .s) = state
        have line := line_setLine loop c (j := lineIndex tag) (v := ⟨tag, state, true, zeroLine⟩)
        obtain ⟨installs, clean, granted⟩ := inv.read_done inside notHit done hs.symm
          (dirUpdate (loop.setLine c (lineIndex tag) ⟨tag, state, true, zeroLine⟩) tag state c)
          done.ids line
        rw [line, if_pos ⟨rfl, rfl⟩]
        exact .miss c id none installs granted (.inr ⟨rfl, clean⟩)
  · exact .outOfRange ‹_›

end Read

section Write

variable {ctrl : CoherenceController} {c : CacheId} {tag : UInt32}

/-- The loop of `coherence_write` invalidates the copies of the caches it visits. -/
structure Invalidated (c : CacheId) (tag : UInt32) (is : List CacheId)
    (ctrl ctrl' : CoherenceController) : Prop where
  line : ∀ k j, ¬ (k = c ∧ j = lineIndex tag) → ctrl'.line k j =
    if k ∈ is ∧ k ≠ c ∧ j = lineIndex tag ∧ (ctrl.line k j).Hit tag then
      { ctrl.line k j with state := .i, valid := false } else ctrl.line k j
  ids : ctrl'.ids = ctrl.ids

/-- One cache of the loop. -/
theorem invalidate_step (c k : CacheId) (tag : UInt32) (ctrl : CoherenceController) :
    Invalidated c tag [k] ctrl (invalidateStep c tag ctrl k) := by
  unfold invalidateStep
  dsimp only
  split
  · rename_i e
    exact ⟨fun l j _ => by rw [if_neg fun h => h.2.1 ((List.mem_singleton.1 h.1).trans e)], rfl⟩
  · rename_i ne
    split
    · rename_i hit
      refine ⟨fun l j away => ?_, by split <;> rfl⟩
      have taken : ∀ {ctrl₁ : CoherenceController}, ctrl₁.line l j = ctrl.line l j →
          (ctrl₁.setLine k (lineIndex tag)
            { ctrl.line k (lineIndex tag) with state := .i, valid := false }).line l j =
          if l ∈ [k] ∧ l ≠ c ∧ j = lineIndex tag ∧ (ctrl.line l j).Hit tag then
            { ctrl.line l j with state := .i, valid := false } else ctrl.line l j := by
        intro ctrl₁ same
        rw [line_setLine, same]
        by_cases here : l = k ∧ j = lineIndex tag
        · obtain ⟨rfl, rfl⟩ := here
          simp [ne, hit]
        · rw [if_neg here, if_neg fun h => here ⟨List.mem_singleton.1 h.1, h.2.2.1⟩]
      split
      · refine taken ?_
        show ((ctrl.setLine c (lineIndex tag) _).line l j) = _
        rw [line_setLine, if_neg away]
      · exact taken rfl
    · rename_i miss
      refine ⟨fun l j _ => ?_, rfl⟩
      rw [if_neg]
      rintro ⟨mem, -, rfl, hit⟩
      exact miss (List.mem_singleton.1 mem ▸ hit)

/-- The loop, by induction on the caches it visits. -/
theorem invalidate_loop (c : CacheId) (tag : UInt32) (is : List CacheId)
    (ctrl : CoherenceController) :
    Invalidated c tag is ctrl (is.foldl (invalidateStep c tag) ctrl) := by
  induction is generalizing ctrl with
  | nil => exact ⟨fun _ _ _ => by simp, rfl⟩
  | cons k is ih =>
    have head := invalidate_step c k tag ctrl
    have tail := ih (invalidateStep c tag ctrl k)
    refine ⟨fun l j away => ?_, tail.ids.trans head.ids⟩
    rw [List.foldl_cons, tail.line l j away, head.line l j away]
    by_cases here : l = k ∧ l ≠ c ∧ j = lineIndex tag ∧ (ctrl.line l j).Hit tag
    · have now : l ∈ [k] ∧ l ≠ c ∧ j = lineIndex tag ∧ (ctrl.line l j).Hit tag :=
        ⟨List.mem_singleton.2 here.1, here.2⟩
      rw [if_pos now, if_neg fun e => absurd e.2.2.2.1 Bool.false_ne_true,
        if_pos ⟨List.mem_cons.2 (.inl here.1), here.2⟩]
    · have notHere : ¬ (l ∈ [k] ∧ l ≠ c ∧ j = lineIndex tag ∧ (ctrl.line l j).Hit tag) := by
        rwa [List.mem_singleton]
      rw [if_neg notHere]
      refine if_congr ⟨fun h => ⟨List.mem_cons_of_mem _ h.1, h.2⟩, fun h => ⟨?_, h.2⟩⟩ rfl rfl
      exact (List.mem_cons.1 h.1).resolve_left fun e => here ⟨e, h.2⟩

/-- What `coherence_write` can do: nothing, or grant the cache the sole copy with the new data. -/
inductive WriteOutcome (ctrl : CoherenceController) (cacheId tag : UInt32)
    (dataIn : Option LineData) : CoherenceController × Bool → Prop where
  | outOfRange (no : ¬ ctrl.InRange cacheId) : WriteOutcome ctrl cacheId tag dataIn (ctrl, false)
  | grant (c : CacheId) (id : c.val = cacheId.toNat) {ctrl' : CoherenceController} {ret : Bool}
      {d : LineData} (installs : Installs c tag ctrl ctrl')
      (granted : copies ctrl' tag = Copies.own c d) (data : ∀ x, dataIn = some x → d = x) :
      WriteOutcome ctrl cacheId tag dataIn (ctrl', ret)

/-- A write has one of the outcomes of `WriteOutcome`. -/
theorem coherence_write_outcome (inv : CoherenceInv ctrl) (cacheId address : UInt32)
    (dataIn : Option LineData) :
    WriteOutcome ctrl cacheId (address / 64) dataIn (coherenceWrite ctrl cacheId address dataIn) := by
  unfold coherenceWrite
  split
  · rename_i h
    generalize hc : (⟨cacheId.toNat, h.2⟩ : CacheId) = c
    have id : c.val = cacheId.toNat := by rw [← hc]
    have inside : c ∈ ctrl.ids := mem_ids.2 (id ▸ h.1)
    dsimp only
    generalize address / 64 = tag
    simp only [line_touch]
    split
    · rename_i hit
      obtain ⟨hit, own⟩ := hit
      have line := line_setLine (ctrl.touch c) c (j := lineIndex tag)
        (v := { ctrl.line c (lineIndex tag) with
          state := .m, data := dataIn.getD (ctrl.line c (lineIndex tag)).data })
      simp only [line_touch] at line
      refine .grant c id (d := dataIn.getD (ctrl.line c (lineIndex tag)).data)
        ⟨?_, inside, rfl, fun k j away => .inl ?_⟩ (funext fun k => ?_) (by rintro x rfl; rfl)
      · rw [line, if_pos ⟨rfl, rfl⟩]
        exact ⟨hit.2, CoherenceState.noConfusion⟩
      · rw [line, if_neg away]
      · by_cases hk : k = c
        · subst hk
          rw [Copies.own, Function.update_self, copies, line, if_pos ⟨rfl, rfl⟩]
          exact @copy_of_hit { ctrl.line k (lineIndex tag) with state := .m, data := _ } tag hit
        · rw [Copies.own, Function.update_of_ne hk, copies, line, if_neg fun e => hk e.1]
          exact copy_of_miss (inv.alone hit (by rcases own with m | e <;> simp [*, rightOf]) hk)
    · have loop := invalidate_loop c tag (ctrl.touch c).miss.ids (ctrl.touch c).miss
      simp only [ids_miss, ids_touch] at loop ⊢
      generalize ctrl.ids.foldl (invalidateStep c tag) (ctrl.touch c).miss = swept at loop ⊢
      have swept_line := loop.line
      simp only [line_miss, line_touch] at swept_line
      have line := line_setLine swept c (j := lineIndex tag)
        (v := ⟨tag, .m, true, dataIn.getD (swept.line c (lineIndex tag)).data⟩)
      refine .grant c id (d := dataIn.getD (swept.line c (lineIndex tag)).data)
        ⟨?_, inside, loop.ids, fun k j away => ?_⟩ (funext fun k => ?_) (by rintro x rfl; rfl)
      · rw [line_dirUpdate, line, if_pos ⟨rfl, rfl⟩]
        exact ⟨rfl, CoherenceState.noConfusion⟩
      · rw [line_dirUpdate, line, if_neg away, swept_line k j away]
        split
        · rename_i e
          obtain ⟨-, -, slot, hit⟩ := e
          exact .inr ⟨slot, hit, hit.2, fun h => Bool.noConfusion h⟩
        · exact .inl rfl
      · rw [copies, line_dirUpdate, line]
        by_cases hk : k = c
        · subst hk
          rw [if_pos ⟨rfl, rfl⟩, Copies.own, Function.update_self]
          exact copy_of_hit ⟨rfl, rfl⟩
        · have away : ¬ (k = c ∧ lineIndex tag = lineIndex tag) := fun e => hk e.1
          rw [if_neg away, swept_line k _ away, Copies.own, Function.update_of_ne hk]
          by_cases hit : (ctrl.line k (lineIndex tag)).Hit tag
          · rw [if_pos ⟨inv.inside _ _ hit.1, hk, rfl, hit⟩]
            exact copy_of_miss fun h => Bool.noConfusion h.1
          · rw [if_neg fun e => hit e.2.2.2]
            exact copy_of_miss hit
  · exact .outOfRange ‹_›

end Write

/-! ## Runs -/

/-- A snoop invalidates a line or does nothing. -/
theorem snoop_line (ctrl : CoherenceController) (cacheId address : UInt32) (isWrite : Bool) (k : CacheId)
    (l : LineIndex) :
    (coherenceSnoop ctrl cacheId address isWrite).line k l = ctrl.line k l ∨
      ((coherenceSnoop ctrl cacheId address isWrite).line k l).valid = false := by
  have dropped (c : CacheId) (j : LineIndex) :
      (ctrl.setLine c j { ctrl.line c j with state := .i, valid := false }).line k l = ctrl.line k l ∨
        ((ctrl.setLine c j { ctrl.line c j with state := .i, valid := false }).line k l).valid = false := by
    rw [line_setLine]
    split
    · exact .inr rfl
    · exact .inl rfl
  unfold coherenceSnoop
  split
  · dsimp only
    split
    · split
      · exact dropped _ _
      · exact dropped _ _
      · exact dropped _ _
      · exact .inl rfl
    · exact .inl rfl
  · exact .inl rfl

/-- A snoop leaves the caches there are. -/
theorem snoop_ids (ctrl : CoherenceController) (cacheId address : UInt32) (isWrite : Bool) :
    (coherenceSnoop ctrl cacheId address isWrite).ids = ctrl.ids := by
  unfold coherenceSnoop
  split
  · dsimp only
    split
    · split <;> rfl
    · rfl
  · rfl

/-- A snoop takes copies or leaves them. -/
theorem snoop_copies (ctrl : CoherenceController) (cacheId address : UInt32) (isWrite : Bool)
    (tag : UInt32) (k : CacheId) :
    copies (coherenceSnoop ctrl cacheId address isWrite) tag k = none ∨
      copies (coherenceSnoop ctrl cacheId address isWrite) tag k = copies ctrl tag k := by
  unfold copies
  obtain same | dropped := snoop_line ctrl cacheId address isWrite k (lineIndex tag)
  · rw [same]
    exact .inr rfl
  · refine .inl (copy_of_miss fun hit => ?_)
    exact Bool.false_ne_true (dropped.symm.trans hit.1)

/-- A snoop drops a copy or does nothing. -/
theorem CoherenceInv.snoop {ctrl : CoherenceController} (inv : CoherenceInv ctrl)
    (cacheId address : UInt32) (isWrite : Bool) :
    CoherenceInv (coherenceSnoop ctrl cacheId address isWrite) := by
  have valid {k : CacheId} {l : LineIndex}
      (h : ((coherenceSnoop ctrl cacheId address isWrite).line k l).valid = true) :
      (coherenceSnoop ctrl cacheId address isWrite).line k l = ctrl.line k l := by
    obtain same | dropped := snoop_line ctrl cacheId address isWrite k l
    · exact same
    · exact absurd (dropped.symm.trans h) Bool.false_ne_true
  refine ⟨fun k l h => ?_, fun k l h => ?_, fun k l h => ?_, fun tag k k' v e ne => ?_⟩
  · have same := valid h
    rw [same] at h ⊢
    exact inv.placed k l h
  · rw [snoop_ids]
    exact inv.inside k l (valid h ▸ h)
  · have same := valid h
    rw [same] at h ⊢
    exact inv.live k l h
  · obtain none | same := snoop_copies ctrl cacheId address isWrite tag k
    · rw [none] at e
      cases e
    · obtain none | same' := snoop_copies ctrl cacheId address isWrite tag k'
      · exact none
      · rw [same']
        exact inv.single tag k k' v (same ▸ e) ne

inductive CoherenceOp where
  | read (cacheId address : UInt32)
  | write (cacheId address : UInt32) (dataIn : Option LineData)
  | snoop (cacheId address : UInt32) (isWrite : Bool)

def coherenceStep (ctrl : CoherenceController) : CoherenceOp → CoherenceController
  | .read cacheId address => (coherenceRead ctrl cacheId address).ctrl
  | .write cacheId address dataIn => (coherenceWrite ctrl cacheId address dataIn).1
  | .snoop cacheId address isWrite => coherenceSnoop ctrl cacheId address isWrite

/-- The invariant does not speak of what a touch changes. -/
theorem CoherenceInv.touch {ctrl : CoherenceController} (inv : CoherenceInv ctrl) (c : CacheId) :
    CoherenceInv (ctrl.touch c) := by
  refine ⟨fun k j => ?_, fun k j => ?_, fun k j => ?_, fun tag => ?_⟩
  · rw [line_touch]; exact inv.placed k j
  · rw [line_touch]; exact inv.inside k j
  · rw [line_touch]; exact inv.live k j
  · rw [copies_touch]; exact inv.single tag

/-- Every call keeps the invariant. -/
theorem coherence_inv_step (ctrl : CoherenceController) (op : CoherenceOp)
    (inv : CoherenceInv ctrl) : CoherenceInv (coherenceStep ctrl op) := by
  cases op with
  | read cacheId address =>
    have out := coherence_read_outcome inv cacheId address
    simp only [coherenceStep]
    generalize coherenceRead ctrl cacheId address = r at out ⊢
    cases out with
    | outOfRange => exact inv
    | hit c id copy => exact inv.touch c
    | miss c id none installs granted source =>
      refine installs.keeps inv ?_
      rcases granted with share | ⟨-, own⟩
      · rw [share]; exact Copies.single_writer_share _ _ _
      · rw [own]; exact Copies.single_writer_own _ _
  | write cacheId address dataIn =>
    have out := coherence_write_outcome inv cacheId address dataIn
    simp only [coherenceStep]
    generalize coherenceWrite ctrl cacheId address dataIn = r at out ⊢
    cases out with
    | outOfRange => exact inv
    | grant c id installs granted data =>
      refine installs.keeps inv ?_
      rw [granted]
      exact Copies.single_writer_own _ _
  | snoop cacheId address isWrite => exact inv.snoop cacheId address isWrite

/-- The state after calls from `coherence_init`. -/
def coherenceRun (protocol : CoherenceProtocol) (numCaches : UInt32) (ops : List CoherenceOp) :
    CoherenceController := run coherenceStep (coherenceInit protocol numCaches) ops

/-- The invariant holds after any calls. -/
theorem coherence_inv_run (protocol : CoherenceProtocol) (numCaches : UInt32)
    (ops : List CoherenceOp) : CoherenceInv (coherenceRun protocol numCaches ops) :=
  run_invariant coherence_inv_step (coherence_inv_init protocol numCaches) ops

/-- Some slot of the cache holds a valid copy of the line. -/
def Holds (ctrl : CoherenceController) (c : CacheId) (tag : UInt32) : Prop :=
  ∃ j, (ctrl.line c j).Hit tag

/-- Some slot of the cache holds the line in Modified or Exclusive state. -/
def HoldsSole (ctrl : CoherenceController) (c : CacheId) (tag : UInt32) : Prop :=
  ∃ j, (ctrl.line c j).Hit tag ∧ ((ctrl.line c j).state = .m ∨ (ctrl.line c j).state = .e)

/-- At most one cache holds the line in Modified or Exclusive state, and then no other holds
it at all. -/
structure SingleWriterLine (ctrl : CoherenceController) (tag : UInt32) : Prop where
  one : ∀ c d, HoldsSole ctrl c tag → HoldsSole ctrl d tag → c = d
  alone : ∀ c d, HoldsSole ctrl c tag → Holds ctrl d tag → c = d

/-- **Single writer.** Under every protocol and after any reads, writes and snoops of any
caches, a Modified or Exclusive copy of a line is its only valid copy. -/
theorem coherence_single_writer (protocol : CoherenceProtocol) (numCaches : UInt32)
    (ops : List CoherenceOp) (tag : UInt32) :
    SingleWriterLine (coherenceRun protocol numCaches ops) tag := by
  have inv := coherence_inv_run protocol numCaches ops
  generalize coherenceRun protocol numCaches ops = ctrl at inv
  have alone : ∀ c d, HoldsSole ctrl c tag → Holds ctrl d tag → c = d := by
    rintro c d ⟨j, hit, sole⟩ ⟨l, hit'⟩
    have hj : lineIndex tag = j := hit.2 ▸ inv.placed c j hit.1
    have hl : lineIndex tag = l := hit'.2 ▸ inv.placed d l hit'.1
    subst hj hl
    by_contra ne
    exact inv.alone hit (by rcases sole with m | e <;> simp [*, rightOf]) (Ne.symm ne) hit'
  exact ⟨fun c d hc ⟨j, hit, _⟩ => alone c d hc ⟨j, hit⟩, alone⟩

end MiniHardware.Arch.Coherence
