import MiniHardware.Lib.Trace

/-!
# The coherence simulator (`mini-computer-arch/src/coherence.c`)

Sixteen direct-mapped caches snoop each other under MSI, MESI or MOESI. A line
is `address / 64`; `num_lines` of a cache is 256 from `coherence_init` on, so
the index is a function of the line alone. `coherence_read` and
`coherence_write` return whether they hit.
-/

namespace MiniHardware.Arch.Coherence

abbrev coherenceMaxCaches : Nat := 16
abbrev coherenceDirEntries : Nat := 4096
abbrev coherenceCacheLines : Nat := 256

inductive CoherenceState where
  | m | e | s | i
deriving DecidableEq

inductive CoherenceProtocol where
  | msi | mesi | moesi
deriving DecidableEq

/-- The 64 bytes of a line. -/
abbrev LineData := Vector UInt8 64

def zeroLine : LineData := Vector.replicate 64 0

abbrev CacheId := Fin coherenceMaxCaches
abbrev LineIndex := Fin coherenceCacheLines

structure CoherenceCacheLine where
  tag : UInt32
  state : CoherenceState
  valid : Bool
  data : LineData

structure DirectoryEntry where
  tag : UInt32
  state : CoherenceState
  sharerBits : Fin (coherenceMaxCaches / 8) → UInt8
  ownerId : UInt32

structure CoherenceCache where
  lines : LineIndex → CoherenceCacheLine
  id : UInt32
  accessCount : UInt64
  pendingMessages : UInt64

structure CoherenceController where
  protocol : CoherenceProtocol
  caches : CacheId → CoherenceCache
  numCaches : Nat
  directory : Fin coherenceDirEntries → DirectoryEntry
  busTransactions : UInt64
  coherenceMisses : UInt64
  invalidations : UInt64
  writebacks : UInt64

def coherenceInit (protocol : CoherenceProtocol) (numCaches : UInt32) : CoherenceController where
  protocol := protocol
  -- `memset` leaves tag 0, state `MESI_M` and `valid` false
  caches i :=
    { lines := fun _ => ⟨0, .m, false, zeroLine⟩
      id := if i.val < numCaches.toNat then UInt32.ofNat i.val else 0
      accessCount := 0
      pendingMessages := 0 }
  numCaches := min numCaches.toNat coherenceMaxCaches
  directory _ := ⟨0, .m, fun _ => 0, 0⟩
  busTransactions := 0
  coherenceMisses := 0
  invalidations := 0
  writebacks := 0

/-- `cache_line_index`, of the line `address / 64`. -/
def lineIndex (tag : UInt32) : LineIndex :=
  ⟨tag.toNat % coherenceCacheLines, Nat.mod_lt _ (by decide)⟩

def hasExclusiveMode (protocol : CoherenceProtocol) : Bool :=
  protocol = .mesi ∨ protocol = .moesi

/-- `line->valid && line->tag == tag`. -/
def CoherenceCacheLine.Hit (line : CoherenceCacheLine) (tag : UInt32) : Prop :=
  line.valid = true ∧ line.tag = tag

instance (line : CoherenceCacheLine) (tag : UInt32) : Decidable (line.Hit tag) :=
  inferInstanceAs (Decidable (_ ∧ _))

namespace CoherenceController

def line (ctrl : CoherenceController) (c : CacheId) (j : LineIndex) : CoherenceCacheLine :=
  (ctrl.caches c).lines j

def setLine (ctrl : CoherenceController) (c : CacheId) (j : LineIndex) (v : CoherenceCacheLine) :
    CoherenceController :=
  { ctrl with
    caches := Function.update ctrl.caches c
      { ctrl.caches c with lines := Function.update (ctrl.caches c).lines j v } }

/-- Not rejected by `cache_id >= ctrl->num_caches`; `num_caches` is at most 16. -/
def InRange (ctrl : CoherenceController) (cacheId : UInt32) : Prop :=
  cacheId.toNat < ctrl.numCaches ∧ cacheId.toNat < coherenceMaxCaches

instance (ctrl : CoherenceController) (cacheId : UInt32) : Decidable (ctrl.InRange cacheId) :=
  inferInstanceAs (Decidable (_ ∧ _))

/-- `cache->access_count++`. -/
def touch (ctrl : CoherenceController) (c : CacheId) : CoherenceController :=
  { ctrl with
    caches := Function.update ctrl.caches c
      { ctrl.caches c with accessCount := (ctrl.caches c).accessCount + 1 } }

/-- `coherence_misses++` and `bus_transactions++`. -/
def miss (ctrl : CoherenceController) : CoherenceController :=
  { ctrl with
    coherenceMisses := ctrl.coherenceMisses + 1, busTransactions := ctrl.busTransactions + 1 }

/-- The cache numbers the loops run over. -/
def ids (ctrl : CoherenceController) : List CacheId :=
  (List.finRange coherenceMaxCaches).filter (·.val < ctrl.numCaches)

/-- Setting a line changes no other. -/
theorem line_setLine (ctrl : CoherenceController) (c k : CacheId) (j l : LineIndex)
    (v : CoherenceCacheLine) :
    (ctrl.setLine c j v).line k l = if k = c ∧ l = j then v else ctrl.line k l := by
  simp only [line, setLine, Function.update_apply]
  by_cases hk : k = c <;> by_cases hl : l = j <;> simp [hk, hl]

/-- Touching a cache changes no line. -/
@[simp] theorem line_touch (ctrl : CoherenceController) (c k : CacheId) (l : LineIndex) :
    (ctrl.touch c).line k l = ctrl.line k l := by
  simp only [line, touch, Function.update_apply]
  split <;> simp_all

/-- Counting a miss changes no line. -/
@[simp] theorem line_miss (ctrl : CoherenceController) (k : CacheId) (l : LineIndex) :
    ctrl.miss.line k l = ctrl.line k l := rfl
@[simp] theorem ids_touch (ctrl : CoherenceController) (c : CacheId) :
    (ctrl.touch c).ids = ctrl.ids := rfl
@[simp] theorem ids_miss (ctrl : CoherenceController) : ctrl.miss.ids = ctrl.ids := rfl

/-- The caches there are. -/
theorem mem_ids {ctrl : CoherenceController} {c : CacheId} :
    c ∈ ctrl.ids ↔ c.val < ctrl.numCaches := by
  simp [ids]

end CoherenceController

open CoherenceController

/-! ## The directory -/

def dirIndex (tag : UInt32) : Fin coherenceDirEntries :=
  ⟨tag.toNat % coherenceDirEntries, Nat.mod_lt _ (by decide)⟩

/-- `dir_lookup`; `-1` is `none`. -/
def dirLookup (ctrl : CoherenceController) (tag : UInt32) : Option (Fin coherenceDirEntries) :=
  if (ctrl.directory (dirIndex tag)).tag = tag then some (dirIndex tag) else none

def dirUpdate (ctrl : CoherenceController) (tag : UInt32) (state : CoherenceState)
    (cacheId : CacheId) : CoherenceController :=
  let entry := ctrl.directory (dirIndex tag)
  let byteIdx : Fin (coherenceMaxCaches / 8) :=
    ⟨cacheId.val / 8, Nat.div_lt_div_of_lt_of_dvd (by decide) cacheId.isLt⟩
  let bitIdx := UInt8.ofNat (cacheId.val % 8)
  { ctrl with
    directory := Function.update ctrl.directory (dirIndex tag)
      { tag := tag
        state := state
        ownerId := UInt32.ofNat cacheId.val
        sharerBits :=
          if state = .s then
            Function.update entry.sharerBits byteIdx (entry.sharerBits byteIdx ||| (1 <<< bitIdx))
          else fun _ => 0 } }

/-- The directory is apart from the lines. -/
@[simp] theorem line_dirUpdate (ctrl : CoherenceController) (tag : UInt32) (state : CoherenceState)
    (c k : CacheId) (l : LineIndex) :
    (dirUpdate ctrl tag state c).line k l = ctrl.line k l := rfl

/-! ## `coherence_read` -/

/-- How the loop over the other caches ends: with the early return after a Modified
copy was found, or at its end. -/
inductive ReadLoop where
  | owner (ctrl : CoherenceController)
  | done (ctrl : CoherenceController) (sharedExists : Bool)

/-- The branch of a Modified copy at cache `i`: take its data, both become Shared. -/
def takeFromOwner (ctrl : CoherenceController) (cacheId i : CacheId) (tag : UInt32)
    (dirIdx : Option (Fin coherenceDirEntries)) : CoherenceController :=
  let idx := lineIndex tag
  let other := ctrl.line i idx
  let ctrl := ctrl.setLine i idx { other with state := .s }
  let ctrl := ctrl.setLine cacheId idx ⟨tag, .s, true, other.data⟩
  { ctrl with
    writebacks := ctrl.writebacks + 1
    directory := match dirIdx with
      | some d => Function.update ctrl.directory d { ctrl.directory d with state := .s }
      | none => ctrl.directory }

def readLoop (cacheId : CacheId) (tag : UInt32) (dirIdx : Option (Fin coherenceDirEntries)) :
    List CacheId → CoherenceController → Bool → ReadLoop
  | [], ctrl, sharedExists => .done ctrl sharedExists
  | i :: is, ctrl, sharedExists =>
    let other := ctrl.line i (lineIndex tag)
    if i = cacheId then readLoop cacheId tag dirIdx is ctrl sharedExists
    else if other.Hit tag then
      match other.state with
      | .m => .owner (takeFromOwner ctrl cacheId i tag dirIdx)
      | .e =>
        readLoop cacheId tag dirIdx is (ctrl.setLine i (lineIndex tag) { other with state := .s }) true
      | .s => readLoop cacheId tag dirIdx is ctrl true
      | .i => readLoop cacheId tag dirIdx is ctrl sharedExists
    else readLoop cacheId tag dirIdx is ctrl sharedExists

/-- The result of `coherence_read`: the return value and what `data_out` received. -/
structure ReadResult where
  ctrl : CoherenceController
  hit : Bool
  dataOut : Option LineData

def coherenceRead (ctrl : CoherenceController) (cacheId address : UInt32) : ReadResult :=
  if h : ctrl.InRange cacheId then
    let c : CacheId := ⟨cacheId.toNat, h.2⟩
    let tag := address / 64
    let idx := lineIndex tag
    let ctrl := ctrl.touch c
    if (ctrl.line c idx).Hit tag then ⟨ctrl, true, some (ctrl.line c idx).data⟩
    else
      let ctrl := ctrl.miss
      match readLoop c tag (dirLookup ctrl tag) ctrl.ids ctrl false with
      | .owner ctrl => ⟨ctrl, true, some (ctrl.line c idx).data⟩
      | .done ctrl sharedExists =>
        let state : CoherenceState :=
          if sharedExists ∧ hasExclusiveMode ctrl.protocol then .s
          else if hasExclusiveMode ctrl.protocol then .e
          else .s
        let ctrl := ctrl.setLine c idx ⟨tag, state, true, zeroLine⟩
        ⟨dirUpdate ctrl tag state c, false, some (ctrl.line c idx).data⟩
  else ⟨ctrl, false, none⟩

/-! ## `coherence_write` -/

/-- The loop body: invalidate the copy of cache `i`, after taking over Modified data. -/
def invalidateStep (cacheId : CacheId) (tag : UInt32) (ctrl : CoherenceController) (i : CacheId) :
    CoherenceController :=
  let idx := lineIndex tag
  let other := ctrl.line i idx
  if i = cacheId then ctrl
  else if other.Hit tag then
    let ctrl :=
      if other.state = .m then
        { ctrl.setLine cacheId idx { ctrl.line cacheId idx with data := other.data } with
          writebacks := ctrl.writebacks + 1 }
      else ctrl
    { ctrl.setLine i idx { other with state := .i, valid := false } with
      invalidations := ctrl.invalidations + 1 }
  else ctrl

/-- `data_in` is `NULL` for `none`. -/
def coherenceWrite (ctrl : CoherenceController) (cacheId address : UInt32)
    (dataIn : Option LineData) : CoherenceController × Bool :=
  if h : ctrl.InRange cacheId then
    let c : CacheId := ⟨cacheId.toNat, h.2⟩
    let tag := address / 64
    let idx := lineIndex tag
    let ctrl := ctrl.touch c
    let line := ctrl.line c idx
    if line.Hit tag ∧ (line.state = .m ∨ line.state = .e) then
      (ctrl.setLine c idx { line with state := .m, data := dataIn.getD line.data }, true)
    else
      let ctrl := ctrl.ids.foldl (invalidateStep c tag) ctrl.miss
      let ctrl := ctrl.setLine c idx ⟨tag, .m, true, dataIn.getD (ctrl.line c idx).data⟩
      (dirUpdate ctrl tag .m c, false)
  else (ctrl, false)

/-! ## `coherence_snoop` -/

def coherenceSnoop (ctrl : CoherenceController) (cacheId address : UInt32) (isWrite : Bool) :
    CoherenceController :=
  if h : ctrl.InRange cacheId then
    let c : CacheId := ⟨cacheId.toNat, h.2⟩
    let tag := address / 64
    let idx := lineIndex tag
    let line := ctrl.line c idx
    if line.Hit tag ∧ isWrite then
      match line.state with
      | .m | .e =>
        { ctrl.setLine c idx { line with state := .i, valid := false } with
          invalidations := ctrl.invalidations + 1 }
      | .s => ctrl.setLine c idx { line with state := .i, valid := false }
      | .i => ctrl
    else ctrl
  else ctrl

end MiniHardware.Arch.Coherence
