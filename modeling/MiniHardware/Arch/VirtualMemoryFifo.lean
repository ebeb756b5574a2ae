import MiniHardware.Lib.Bytes
import MiniHardware.Arch.VirtualMemory
import Mathlib.Data.List.Perm.Subperm

/-!
# Frames and resident pages

The present pages, in the order in which they were loaded, are a FIFO list of
which the page table is one representation: the ring holds their frames in this
order, the bitmap the same frames as a set.
-/

namespace MiniHardware.Arch
open Lib

/-! ## The bitmap -/

/-- The bitmap has a bit for each frame. -/
theorem frameUsed_eq (pt : PageTable) (i : Nat) :
    frameUsed pt i = (pt.frameBitmap (i / 32)).toNat.testBit (i % 32) := by
  have lt : i % 32 < 32 := Nat.mod_lt _ (by decide)
  have mask : (pt.frameBitmap (i / 32) &&& (1 <<< UInt32.ofNat (i % 32))).toNat =
      ((pt.frameBitmap (i / 32)).toNat.testBit (i % 32)).toNat * 2 ^ (i % 32) := by
    rw [UInt32.toNat_and, toNat_wordBit lt, Nat.and_two_pow]
  unfold frameUsed
  cases bit : (pt.frameBitmap (i / 32)).toNat.testBit (i % 32) with
  | false =>
    rw [bit, Bool.toNat_false, Nat.zero_mul] at mask
    rw [bne_eq_false_iff_eq]
    exact UInt32.toNat_inj.1 mask
  | true =>
    rw [bit, Bool.toNat_true, Nat.one_mul] at mask
    rw [bne_iff_ne]
    intro zero
    rw [zero] at mask
    exact absurd mask.symm (Nat.pos_iff_ne_zero.1 (Nat.two_pow_pos _))

/-- Taking a frame sets its bit and no other. -/
theorem frameUsed_takeFrame (pt : PageTable) (i k : Nat) :
    frameUsed (takeFrame pt i) k = (decide (k = i) || frameUsed pt k) := by
  have lt : i % 32 < 32 := Nat.mod_lt _ (by decide)
  rw [frameUsed_eq, frameUsed_eq]
  unfold takeFrame
  dsimp only
  split
  · rename_i word
    rw [UInt32.toNat_or, Nat.testBit_or, toNat_wordBit lt, Nat.testBit_two_pow, Bool.or_comm]
    congr 1
    rw [decide_eq_decide]
    omega
  · rename_i word
    have ne : k ≠ i := by
      rintro rfl
      exact word rfl
    rw [decide_eq_false ne, Bool.false_or]

/-! ## The ring -/

/-- The ring holds the frames `q`. -/
structure Queue (pt : PageTable) (q : List UInt32) : Prop where
  head_lt : pt.fifoHead.toNat < physicalMemoryPages.toNat
  count : pt.fifoCount.toNat = q.length
  le : q.length ≤ physicalMemoryPages.toNat
  cells : RingHolds pt.fifoQueue pt.fifoHead.toNat physicalMemoryPages.toNat q

/-- There are 16384 frames. -/
theorem toNat_frames : physicalMemoryPages.toNat = 16384 := rfl

/-- With room, a push appends a frame and leaves the rest of the page table. -/
theorem Queue.push {pt : PageTable} {q : List UInt32} (h : Queue pt q)
    (room : q.length < physicalMemoryPages.toNat) (frame : UInt32) :
    Queue (fifoPush pt frame) (q ++ [frame]) ∧
      (fifoPush pt frame).entries = pt.entries ∧ (fifoPush pt frame).numPages = pt.numPages ∧
      (fifoPush pt frame).pageSize = pt.pageSize ∧ (fifoPush pt frame).frameBitmap = pt.frameBitmap ∧
      (fifoPush pt frame).freeFrames = pt.freeFrames := by
  have head_lt := h.head_lt
  have count := h.count
  rw [toNat_frames] at head_lt room
  have less : pt.fifoCount < physicalMemoryPages := by
    rw [UInt32.lt_iff_toNat_lt, toNat_frames]
    omega
  have tail : ((pt.fifoHead + pt.fifoCount) % physicalMemoryPages).toNat =
      (pt.fifoHead.toNat + q.length) % physicalMemoryPages.toNat := by
    have small : pt.fifoHead.toNat + q.length < 2 ^ 32 := by omega
    rw [UInt32.toNat_mod, UInt32.toNat_add, count, Nat.mod_eq_of_lt small]
  unfold fifoPush
  rw [if_pos less]
  refine ⟨⟨h.head_lt, ?_, ?_, ?_⟩, rfl, rfl, rfl, rfl, rfl⟩
  · dsimp only
    rw [UInt32.toNat_add, count, List.length_append, List.length_singleton, UInt32.toNat_one]
    exact Nat.mod_eq_of_lt (by omega)
  · rw [List.length_append, List.length_singleton, toNat_frames]
    omega
  · dsimp only
    rw [tail]
    exact h.cells.push (by rwa [toNat_frames])

/-- A full ring is left alone. -/
theorem Queue.push_full {pt : PageTable} {q : List UInt32} (h : Queue pt q)
    (full : q.length = physicalMemoryPages.toNat) (frame : UInt32) : fifoPush pt frame = pt := by
  apply if_neg
  rw [UInt32.lt_iff_toNat_lt, h.count, full]
  exact Nat.lt_irrefl _

/-- A pop takes the first frame. -/
theorem Queue.pop {pt : PageTable} {q : List UInt32} {f : UInt32} (h : Queue pt (f :: q)) :
    Queue { pt with
      fifoHead := (pt.fifoHead + 1) % physicalMemoryPages
      fifoCount := pt.fifoCount - 1 } q := by
  have head_lt := h.head_lt
  have count := h.count
  have le := h.le
  rw [List.length_cons] at count le
  rw [toNat_frames] at head_lt le
  have next : ((pt.fifoHead + 1) % physicalMemoryPages).toNat =
      (pt.fifoHead.toNat + 1) % physicalMemoryPages.toNat := by
    have small : pt.fifoHead.toNat + 1 < 2 ^ 32 := by omega
    rw [UInt32.toNat_mod, UInt32.toNat_add, UInt32.toNat_one, Nat.mod_eq_of_lt small]
  refine ⟨?_, ?_, ?_, ?_⟩
  · dsimp only
    rw [next, toNat_frames]
    exact Nat.mod_lt _ (by decide)
  · dsimp only
    rw [UInt32.toNat_sub_of_le _ _ (by rw [UInt32.le_iff_toNat_le, UInt32.toNat_one]; omega), count,
      UInt32.toNat_one, Nat.add_sub_cancel]
  · rw [toNat_frames]
    omega
  · dsimp only
    rw [next]
    exact h.cells.pop

/-! ## The resident pages -/

/-- The frames of the pages `res`. -/
def frames (pt : PageTable) (res : List Nat) : List UInt32 := res.map fun v => (pt.entries v).frameNumber

@[simp] theorem frames_nil (pt : PageTable) : frames pt [] = [] := rfl

@[simp] theorem frames_cons (pt : PageTable) (v : Nat) (res : List Nat) :
    frames pt (v :: res) = (pt.entries v).frameNumber :: frames pt res := rfl

/-- Each resident page has its frame. -/
theorem length_frames (pt : PageTable) (res : List Nat) : (frames pt res).length = res.length :=
  List.length_map _

/-- The frames depend on the entries of the resident pages alone. -/
theorem frames_congr {pt pt' : PageTable} {res : List Nat}
    (same : ∀ v ∈ res, (pt'.entries v).frameNumber = (pt.entries v).frameNumber) :
    frames pt' res = frames pt res := List.map_congr_left same

/-- `res` are the present pages, in the order in which they got their frames. -/
structure Resident (pt : PageTable) (res : List Nat) : Prop where
  present_iff : ∀ v, v ∈ res ↔ v < pt.numPages.toNat ∧ (pt.entries v).present = true
  queue : Queue pt (frames pt res)
  distinct : (frames pt res).Nodup
  bound : ∀ f ∈ frames pt res, f.toNat < physicalMemoryPages.toNat
  free : pt.freeFrames.toNat + res.length = physicalMemoryPages.toNat
  used : ∀ k < physicalMemoryPages.toNat,
    frameUsed pt k = true ↔ UInt32.ofNat k ∈ frames pt res

/-- No page is resident twice. -/
theorem Resident.nodup {pt : PageTable} {res : List Nat} (h : Resident pt res) : res.Nodup :=
  List.Nodup.of_map _ h.distinct

/-- The table says the same of its pages but for the marks `accessed`, `dirty` and `valid`. -/
theorem Resident.congr {pt pt' : PageTable} {res : List Nat} (h : Resident pt res)
    (present : ∀ v, (pt'.entries v).present = (pt.entries v).present)
    (frame : ∀ v, (pt'.entries v).frameNumber = (pt.entries v).frameNumber)
    (rest : pt' = { pt with entries := pt'.entries }) : Resident pt' res := by
  have same : frames pt' res = frames pt res := frames_congr fun v _ => frame v
  rw [rest]
  refine ⟨?_, ?_, ?_, ?_, h.free, ?_⟩
  · intro v
    dsimp only
    rw [present v]
    exact h.present_iff v
  · have q := h.queue
    rw [← same] at q
    exact ⟨q.head_lt, q.count, q.le, q.cells⟩
  · have d := h.distinct
    rwa [← same] at d
  · have b := h.bound
    rwa [← same] at b
  · have u := h.used
    rwa [← same] at u

/-- No page is resident at first. -/
theorem resident_init (numPages pageSize : UInt32) : Resident (vmInit numPages pageSize) [] := by
  refine ⟨?_, ⟨?_, rfl, Nat.zero_le _, ringHolds_nil⟩, List.nodup_nil, ?_, rfl, ?_⟩
  · intro v
    constructor
    · intro mem
      cases mem
    · rintro ⟨-, present⟩
      cases present
  · have start : (0 : UInt32).toNat < physicalMemoryPages.toNat := by decide
    exact start
  · intro f mem
    cases mem
  · intro k _
    rw [frameUsed_eq]
    unfold vmInit
    dsimp only
    rw [UInt32.toNat_zero, Nat.zero_testBit]
    constructor
    · intro h
      cases h
    · intro mem
      cases mem

/-- Where the resident pages do not fill the memory, a free frame is found. -/
theorem Resident.scan {pt : PageTable} {res : List Nat} (h : Resident pt res)
    (room : res.length < physicalMemoryPages.toNat) :
    ∃ i < physicalMemoryPages.toNat, frameUsed pt i = false ∧
      scanFrames pt = (UInt32.ofNat i, takeFrame pt i) := by
  have exists_free : ∃ i ∈ List.range physicalMemoryPages.toNat, frameUsed pt i = false := by
    by_contra none
    have sub : (List.range physicalMemoryPages.toNat).map UInt32.ofNat ⊆ frames pt res := by
      intro f mem
      obtain ⟨k, hk, rfl⟩ := List.mem_map.1 mem
      have used : frameUsed pt k = true := by
        by_contra free
        exact none ⟨k, hk, by simpa using free⟩
      exact (h.used k (List.mem_range.1 hk)).1 used
    have nodup : ((List.range physicalMemoryPages.toNat).map UInt32.ofNat).Nodup := by
      apply List.Nodup.map_on _ List.nodup_range
      intro a ha b hb eq
      rw [List.mem_range, toNat_frames] at ha hb
      have nat := congrArg UInt32.toNat eq
      rw [UInt32.toNat_ofNat', UInt32.toNat_ofNat'] at nat
      omega
    have le := (nodup.subperm sub).length_le
    rw [List.length_map, List.length_range, length_frames] at le
    omega
  unfold scanFrames
  cases found : (List.range physicalMemoryPages.toNat).find? fun i => !frameUsed pt i with
  | none =>
    obtain ⟨i, mem, free⟩ := exists_free
    have used := List.find?_eq_none.1 found i mem
    rw [free] at used
    exact absurd rfl used
  | some i =>
    have free := List.find?_some found
    rw [Bool.not_eq_true'] at free
    exact ⟨i, List.mem_range.1 (List.mem_of_find?_eq_some found), free, rfl⟩

/-- The entry of a page that has just got frame `f`. -/
def loaded (f : UInt32) : PageTableEntry :=
  { valid := true
    frameNumber := f
    present := true
    dirty := false
    accessed := true }

/-- What the page tables of a run have in common. -/
def SameSize (pt pt' : PageTable) : Prop := pt'.numPages = pt.numPages ∧ pt'.pageSize = pt.pageSize

/-- Loading a page, when the allocation gave a frame. -/
theorem loadPage_of_lt {pt pt' : PageTable} {f : UInt32} (alloc : vmAllocateFrame pt = (f, pt'))
    (lt : f.toNat < physicalMemoryPages.toNat) (v : Nat) :
    loadPage pt v = fifoPush (setEntry pt' v (loaded f)) f := by
  have less : ¬f ≥ physicalMemoryPages := by
    rw [ge_iff_le, UInt32.le_iff_toNat_le]
    exact Nat.not_le.2 lt
  unfold loadPage
  rw [alloc]
  dsimp only
  rw [if_neg less]
  rfl

section Load

variable {pt pt' : PageTable} {res rest : List Nat} {v w : Nat} {f : UInt32}

/-- The frame of a page just loaded comes last. -/
theorem frames_loaded (at_v : pt'.entries v = loaded f)
    (other : ∀ k ∈ res, (pt'.entries k).frameNumber = (pt.entries k).frameNumber) :
    frames pt' (res ++ [v]) = frames pt res ++ [f] := by
  unfold frames
  rw [List.map_append, List.map_singleton, at_v]
  congr 1
  exact frames_congr other

/-- With a frame free, a loaded page is appended. -/
theorem Resident.load_free (h : Resident pt res) (lt : v < pt.numPages.toNat) (new : v ∉ res)
    (room : res.length < physicalMemoryPages.toNat) :
    Resident (loadPage pt v) (res ++ [v]) ∧ SameSize pt (loadPage pt v) := by
  obtain ⟨i, hi, unused, scan⟩ := h.scan room
  have free := h.free
  have alloc : vmAllocateFrame pt = (UInt32.ofNat i, takeFrame pt i) := by
    unfold vmAllocateFrame
    rw [if_neg, scan]
    intro zero
    rw [zero, UInt32.toNat_zero] at free
    omega
  have number : ∀ {k}, k < physicalMemoryPages.toNat → (UInt32.ofNat k).toNat = k := by
    intro k hk
    rw [toNat_frames] at hk
    rw [UInt32.toNat_ofNat', Nat.mod_eq_of_lt (by omega)]
  have notMem : UInt32.ofNat i ∉ frames pt res := by
    intro mem
    rw [(h.used i hi).2 mem] at unused
    cases unused
  have base : Queue (setEntry (takeFrame pt i) v (loaded (UInt32.ofNat i))) (frames pt res) :=
    ⟨h.queue.head_lt, h.queue.count, h.queue.le, h.queue.cells⟩
  obtain ⟨queue, entries, pages, size, bitmap, frees⟩ :=
    base.push (by rwa [length_frames]) (UInt32.ofNat i)
  rw [loadPage_of_lt alloc (by rwa [number hi])]
  generalize fifoPush (setEntry (takeFrame pt i) v (loaded (UInt32.ofNat i))) (UInt32.ofNat i) = pt' at *
  have at_v : pt'.entries v = loaded (UInt32.ofNat i) := by
    rw [entries]
    exact if_pos rfl
  have other : ∀ k, k ≠ v → pt'.entries k = pt.entries k := by
    intro k ne
    rw [entries]
    exact if_neg ne
  have same : frames pt' (res ++ [v]) = frames pt res ++ [UInt32.ofNat i] :=
    frames_loaded at_v fun k mem => by rw [other k fun eq => new (eq ▸ mem)]
  have pages : pt'.numPages = pt.numPages := pages
  refine ⟨⟨?_, by rwa [same], ?_, ?_, ?_, ?_⟩, pages, size⟩
  · intro k
    rw [List.mem_append, List.mem_singleton, pages]
    rcases eq_or_ne k v with rfl | ne
    · rw [at_v]
      exact iff_of_true (Or.inr rfl) ⟨lt, rfl⟩
    · rw [other k ne, ← h.present_iff k]
      exact or_iff_left ne
  · rw [same]
    apply List.nodup_append.2
    refine ⟨h.distinct, List.nodup_singleton _, ?_⟩
    rintro a ha b hb rfl
    exact notMem (List.mem_singleton.1 hb ▸ ha)
  · rw [same]
    intro f mem
    rcases List.mem_append.1 mem with old | eq
    · exact h.bound f old
    · rw [List.mem_singleton.1 eq, number hi]
      exact hi
  · have one : (1 : UInt32) ≤ pt.freeFrames := by
      rw [UInt32.le_iff_toNat_le, UInt32.toNat_one]
      omega
    have count : pt'.freeFrames.toNat = pt.freeFrames.toNat - 1 := by
      rw [frees]
      exact UInt32.toNat_sub_of_le _ _ one
    rw [List.length_append, List.length_singleton]
    omega
  · intro k hk
    have bit : frameUsed pt' k = frameUsed (takeFrame pt i) k := by
      unfold frameUsed
      rw [bitmap]
      rfl
    have key : UInt32.ofNat k = UInt32.ofNat i ↔ k = i := by
      rw [← UInt32.toNat_inj, number hk, number hi]
    rw [same, bit, frameUsed_takeFrame, Bool.or_eq_true, decide_eq_true_eq, h.used k hk, List.mem_append,
      List.mem_singleton, key, or_comm]

/-- With no frame free, the page at the head of the ring loses its frame, and the frame goes
to the end of the ring. -/
theorem Resident.evict (h : Resident pt (w :: rest))
    (full : (w :: rest).length = physicalMemoryPages.toNat) :
    ∃ pt', evictFrame pt = ((pt.entries w).frameNumber, pt') ∧
      Queue pt' (frames pt rest ++ [(pt.entries w).frameNumber]) ∧
      pt' = { pt with
        entries := fun k =>
          if k = w then { pt.entries w with present := false, valid := false } else pt.entries k
        fifoQueue := pt'.fifoQueue
        fifoHead := pt'.fifoHead
        fifoCount := pt'.fifoCount } := by
  have victim : pt.fifoQueue pt.fifoHead.toNat = (pt.entries w).frameNumber :=
    h.queue.cells.first h.queue.head_lt
  have here : w < pt.numPages.toNat ∧ (pt.entries w).present = true :=
    (h.present_iff w).1 List.mem_cons_self
  have page : pageOf pt (pt.entries w).frameNumber = some w := by
    unfold pageOf
    rw [List.find?_range_eq_some]
    refine ⟨by simp [here.2], List.mem_range.2 here.1, ?_⟩
    intro k lt
    rw [Bool.not_eq_true', Bool.and_eq_false_iff, beq_eq_false_iff_ne]
    by_cases present : (pt.entries k).present = true
    · right
      have mem : k ∈ rest := by
        have mem := (h.present_iff k).2 ⟨lt.trans here.1, present⟩
        exact (List.mem_cons.1 mem).resolve_left (Nat.ne_of_lt lt)
      have distinct := h.distinct
      rw [frames_cons, List.nodup_cons] at distinct
      exact fun eq => distinct.1 (List.mem_map.2 ⟨k, mem, eq⟩)
    · left
      simpa using present
  let popped := { pt with
    entries := fun k =>
      if k = w then { pt.entries w with present := false, valid := false } else pt.entries k
    fifoHead := (pt.fifoHead + 1) % physicalMemoryPages
    fifoCount := pt.fifoCount - 1 }
  have base : Queue popped (frames pt rest) := by
    have pop := h.queue.pop
    exact ⟨pop.head_lt, pop.count, pop.le, pop.cells⟩
  have room : (frames pt rest).length < physicalMemoryPages.toNat := by
    rw [length_frames, ← full, List.length_cons]
    exact Nat.lt_succ_self _
  obtain ⟨queue, entries, pages, size, bitmap, frees⟩ := base.push room (pt.entries w).frameNumber
  refine ⟨fifoPush popped (pt.entries w).frameNumber, ?_, queue, ?_⟩
  · unfold evictFrame
    rw [victim]
    have same : pageOf { pt with
        fifoHead := (pt.fifoHead + 1) % physicalMemoryPages
        fifoCount := pt.fifoCount - 1 } (pt.entries w).frameNumber = some w := page
    dsimp only
    rw [same]
    rfl
  · generalize fifoPush popped (pt.entries w).frameNumber = pt' at *
    cases pt'
    cases entries
    cases pages
    cases size
    cases bitmap
    cases frees
    rfl

/-- With none free, the page resident longest makes way. -/
theorem Resident.load_full (h : Resident pt (w :: rest)) (lt : v < pt.numPages.toNat)
    (new : v ∉ w :: rest) (full : (w :: rest).length = physicalMemoryPages.toNat) :
    Resident (loadPage pt v) (rest ++ [v]) ∧ SameSize pt (loadPage pt v) := by
  have free := h.free
  have nodup := h.nodup
  rw [List.nodup_cons] at nodup
  rw [List.mem_cons, not_or] at new
  obtain ⟨mid, evict, queue, eq⟩ := h.evict full
  have alloc : vmAllocateFrame pt = ((pt.entries w).frameNumber, mid) := by
    unfold vmAllocateFrame
    rw [if_pos, evict]
    apply UInt32.toNat_inj.1
    rw [UInt32.toNat_zero]
    omega
  have bound : (pt.entries w).frameNumber.toNat < physicalMemoryPages.toNat :=
    h.bound _ List.mem_cons_self
  have base : Queue (setEntry mid v (loaded (pt.entries w).frameNumber))
      (frames pt rest ++ [(pt.entries w).frameNumber]) :=
    ⟨queue.head_lt, queue.count, queue.le, queue.cells⟩
  have length : (frames pt rest ++ [(pt.entries w).frameNumber]).length = physicalMemoryPages.toNat := by
    rw [List.length_append, List.length_singleton, length_frames, ← full, List.length_cons]
  rw [loadPage_of_lt alloc bound, base.push_full length]
  have entries : ∀ k, (setEntry mid v (loaded (pt.entries w).frameNumber)).entries k =
      if k = v then loaded (pt.entries w).frameNumber
      else if k = w then { pt.entries w with present := false, valid := false } else pt.entries k := by
    intro k
    unfold setEntry
    rw [eq]
  have pages : (setEntry mid v (loaded (pt.entries w).frameNumber)).numPages = pt.numPages := by
    unfold setEntry
    rw [eq]
  have same : frames (setEntry mid v (loaded (pt.entries w).frameNumber)) (rest ++ [v]) =
      frames pt rest ++ [(pt.entries w).frameNumber] := by
    apply frames_loaded
    · rw [entries, if_pos rfl]
    · intro k mem
      have ne_v : k ≠ v := by
        rintro rfl
        exact new.2 mem
      have ne_w : k ≠ w := by
        rintro rfl
        exact nodup.1 mem
      rw [entries, if_neg ne_v, if_neg ne_w]
  have perm : (frames pt rest ++ [(pt.entries w).frameNumber]).Perm (frames pt (w :: rest)) :=
    List.perm_append_singleton _ _
  refine ⟨⟨?_, by rwa [same], ?_, ?_, ?_, ?_⟩, pages, ?_⟩
  · intro k
    rw [List.mem_append, List.mem_singleton, pages, entries]
    have old := h.present_iff k
    rw [List.mem_cons] at old
    split
    · rename_i here
      exact iff_of_true (Or.inr here) ⟨here ▸ lt, rfl⟩
    split
    · rename_i ne out
      apply iff_of_false
      · rintro (mem | eq)
        · exact nodup.1 (out ▸ mem)
        · exact ne eq
      · rintro ⟨-, present⟩
        cases present
    · rename_i ne stay
      rw [← old, or_iff_left ne, or_iff_right stay]
  · rw [same]
    exact perm.nodup_iff.2 h.distinct
  · rw [same]
    intro f mem
    exact h.bound f (perm.mem_iff.1 mem)
  · have frees : (setEntry mid v (loaded (pt.entries w).frameNumber)).freeFrames = pt.freeFrames := by
      unfold setEntry
      rw [eq]
    rw [frees, List.length_append, List.length_singleton]
    exact free
  · intro k hk
    have bit : frameUsed (setEntry mid v (loaded (pt.entries w).frameNumber)) k = frameUsed pt k := by
      unfold frameUsed setEntry
      rw [eq]
    rw [same, bit, perm.mem_iff]
    exact h.used k hk
  · unfold setEntry
    rw [eq]

end Load

/-! ## One translation -/

/-- The resident pages after an access to page `v` of `n`. -/
def accessPage (n : Nat) (res : List Nat) (v : Nat) : List Nat :=
  if v < n then fifoStep physicalMemoryPages.toNat res v else res

variable {pt : PageTable} {res : List Nat} {w : Nat}

/-- Loading a page is a step of the abstract store. -/
theorem Resident.load (h : Resident pt res) {v : Nat} (lt : v < pt.numPages.toNat) (new : v ∉ res) :
    Resident (loadPage pt v) (fifoStep physicalMemoryPages.toNat res v) ∧
      SameSize pt (loadPage pt v) := by
  have free := h.free
  unfold fifoStep
  rw [if_neg new]
  split
  · exact h.load_free lt new ‹_›
  · cases res with
    | nil =>
      rename_i full
      exact absurd (by decide) full
    | cons w rest => exact h.load_full lt new (by omega)

/-- A translation is an access of the abstract store, and its result is in the frame of its page. -/
theorem Resident.translate (h : Resident pt res) (va : UInt32) :
    Resident (vmStep pt va)
        (accessPage pt.numPages.toNat res (vmGetVpn va pt.pageSize).toNat) ∧
      SameSize pt (vmStep pt va) ∧
      (vmGetVpn va pt.pageSize < pt.numPages →
        (vmTranslate pt va).1 =
          ((vmStep pt va).entries (vmGetVpn va pt.pageSize).toNat).frameNumber * pt.pageSize +
            vmGetOffset va pt.pageSize) := by
  generalize vpn : vmGetVpn va pt.pageSize = v
  unfold vmStep vmTranslate accessPage
  dsimp only
  rw [vpn]
  rcases Nat.lt_or_ge v.toNat pt.numPages.toNat with lt | ge
  · have inside : ¬v ≥ pt.numPages := by
      rw [ge_iff_le, UInt32.le_iff_toNat_le]
      exact Nat.not_le.2 lt
    rw [if_neg inside, if_pos lt]
    have loaded : Resident (if !(pt.entries v.toNat).present then loadPage pt v.toNat else pt)
          (fifoStep physicalMemoryPages.toNat res v.toNat) ∧
        SameSize pt (if !(pt.entries v.toNat).present then loadPage pt v.toNat else pt) := by
      cases present : (pt.entries v.toNat).present with
      | true =>
        have mem : v.toNat ∈ res := (h.present_iff _).2 ⟨lt, present⟩
        unfold fifoStep
        rw [if_pos mem]
        exact ⟨h, rfl, rfl⟩
      | false =>
        have new : v.toNat ∉ res := by
          intro mem
          rw [((h.present_iff _).1 mem).2] at present
          cases present
        exact h.load lt new
    generalize (if !(pt.entries v.toNat).present then loadPage pt v.toNat else pt) = mid at *
    obtain ⟨r, pages, size⟩ := loaded
    refine ⟨?_, ⟨pages, size⟩, ?_⟩
    · apply r.congr
      · intro k
        unfold setEntry
        dsimp only
        split
        · rename_i eq
          rw [eq]
        · rfl
      · intro k
        unfold setEntry
        dsimp only
        split
        · rename_i eq
          rw [eq]
        · rfl
      · rfl
    · intro _
      dsimp only
      rw [← size]
      rfl
  · have outside : v ≥ pt.numPages := by
      rw [ge_iff_le, UInt32.le_iff_toNat_le]
      exact ge
    rw [if_pos outside, if_neg (Nat.not_lt.2 ge)]
    exact ⟨h, ⟨rfl, rfl⟩, fun lt => absurd lt (by rwa [UInt32.not_lt])⟩

/-! ## Runs -/

/-- `v` is below `num_pages`, and its entry is present. -/
def Present (pt : PageTable) (v : Nat) : Prop :=
  v < pt.numPages.toNat ∧ (pt.entries v).present = true

instance presentDecidable (pt : PageTable) (v : Nat) : Decidable (Present pt v) :=
  inferInstanceAs (Decidable (_ ∧ _))

/-- The present pages, by their numbers. -/
def presentPages (pt : PageTable) : List Nat :=
  (List.range pt.numPages.toNat).filter fun v => decide (Present pt v)

/-- How long the page has been resident: in how many of the last states of the run it is present. -/
def residence (numPages pageSize : UInt32) (vas : List UInt32) (v : Nat) : Nat :=
  age vmStep (fun pt => decide (Present pt v)) (vmInit numPages pageSize) vas

/-- The resident pages are those whose entries are present. -/
theorem Resident.present (h : Resident pt res) (v : Nat) : v ∈ res ↔ Present pt v := h.present_iff v

/-- There are as many present pages as resident ones. -/
theorem Resident.length (h : Resident pt res) : (presentPages pt).length = res.length := by
  have nodup : (presentPages pt).Nodup := List.nodup_range.filter _
  apply List.Perm.length_eq
  rw [List.perm_ext_iff_of_nodup nodup h.nodup]
  intro v
  unfold presentPages
  rw [List.mem_filter, List.mem_range, decide_eq_true_eq, h.present v]
  exact and_iff_right_of_imp And.left

/-- The resident pages of a run are in the order of age. -/
theorem resident_run (numPages pageSize : UInt32) (vas : List UInt32) :
    ∃ res, Resident (run vmStep (vmInit numPages pageSize) vas) res ∧
      SameSize (vmInit numPages pageSize) (run vmStep (vmInit numPages pageSize) vas) ∧
      res.Pairwise fun a b =>
        residence numPages pageSize vas b < residence numPages pageSize vas a := by
  induction vas using List.reverseRecOn with
  | nil => exact ⟨[], resident_init numPages pageSize, ⟨rfl, rfl⟩, List.Pairwise.nil⟩
  | append_singleton vas va ih =>
    obtain ⟨res, h, same, sorted⟩ := ih
    obtain ⟨next, same', -⟩ := h.translate va
    rw [← run_snoc vmStep _ vas va] at next same'
    refine ⟨_, next, ⟨same'.1.trans same.1, same'.2.trans same.2⟩, ?_⟩
    have older : ∀ v, v ∈ accessPage (run vmStep (vmInit numPages pageSize) vas).numPages.toNat res
          (vmGetVpn va (run vmStep (vmInit numPages pageSize) vas).pageSize).toNat →
        residence numPages pageSize (vas ++ [va]) v = residence numPages pageSize vas v + 1 := by
      intro v mem
      unfold residence
      rw [age_snoc, if_pos]
      rw [decide_eq_true_eq, ← next.present v]
      exact mem
    unfold accessPage at older ⊢
    split at older
    · rw [if_pos ‹_›]
      apply fifoStep_pairwise sorted
      · intro v mem
        apply age_pos
        rw [decide_eq_true_eq, ← h.present v]
        exact mem
      · intro v _ mem
        exact older v mem
      · intro new
        have absent : residence numPages pageSize vas
            (vmGetVpn va (run vmStep (vmInit numPages pageSize) vas).pageSize).toNat = 0 := by
          apply age_zero
          rw [decide_eq_false_iff_not, ← h.present]
          exact new
        rw [older _ mem_fifoStep_self, absent]
    · rw [if_neg ‹_›]
      apply List.Pairwise.imp_of_mem _ sorted
      intro a b ha hb lt
      rw [older a ha, older b hb]
      exact Nat.succ_lt_succ lt

/-- A page fault with no frame free takes the page out that is first in the order. -/
theorem Resident.fault (h : Resident pt (w :: res)) (full : pt.freeFrames = 0) (va : UInt32)
    (inside : vmGetVpn va pt.pageSize < pt.numPages)
    (fault : ¬Present pt (vmGetVpn va pt.pageSize).toNat) (p : Nat) :
    Present (vmStep pt va) p ↔ (Present pt p ∧ p ≠ w) ∨ p = (vmGetVpn va pt.pageSize).toNat := by
  obtain ⟨next, -, -⟩ := h.translate va
  have nodup := h.nodup
  have free := h.free
  rw [List.nodup_cons] at nodup
  rw [full, UInt32.toNat_zero, Nat.zero_add] at free
  rw [← h.present] at fault
  unfold accessPage fifoStep at next
  rw [if_pos (UInt32.lt_iff_toNat_lt.1 inside), if_neg fault, if_neg (by omega), List.tail_cons] at next
  rw [← next.present, ← h.present, List.mem_append, List.mem_singleton, List.mem_cons]
  constructor
  · rintro (mem | eq)
    · exact Or.inl ⟨Or.inr mem, fun eq => nodup.1 (eq ▸ mem)⟩
    · exact Or.inr eq
  · rintro (⟨here | mem, ne⟩ | eq)
    · exact absurd here ne
    · exact Or.inl mem
    · exact Or.inr eq

/-- What holds of the page table that the translations `vas` have left. `num_pages` is what
`vm_init` made of the number of pages. -/
structure FifoPaging (numPages pageSize : UInt32) (vas : List UInt32) (pt : PageTable) : Prop where
  distinct : ∀ p q, Present pt p → Present pt q →
    (pt.entries p).frameNumber = (pt.entries q).frameNumber → p = q
  constant : pt.freeFrames.toNat + (presentPages pt).length = physicalMemoryPages.toNat
  /-- A fault with no frame free takes out the page that has been resident longest. -/
  evicts : ∀ va, vmGetVpn va pageSize < pt.numPages → ¬Present pt (vmGetVpn va pageSize).toNat →
    pt.freeFrames = 0 →
      ∃ w, Present pt w ∧
        (∀ p, Present pt p → p ≠ w →
          residence numPages pageSize vas p < residence numPages pageSize vas w) ∧
        ∀ p, Present (vmStep pt va) p ↔
          (Present pt p ∧ p ≠ w) ∨ p = (vmGetVpn va pageSize).toNat
  /-- The address returned is in the frame that the page then holds. -/
  translates : ∀ va, vmGetVpn va pageSize < pt.numPages →
    Present (vmStep pt va) (vmGetVpn va pageSize).toNat ∧
      (vmTranslate pt va).1 =
        ((vmStep pt va).entries (vmGetVpn va pageSize).toNat).frameNumber * pageSize +
          vmGetOffset va pageSize

theorem vm_translate_fifo (numPages pageSize : UInt32) (vas : List UInt32) :
    FifoPaging numPages pageSize vas (run vmStep (vmInit numPages pageSize) vas) := by
  obtain ⟨res, h, ⟨-, same⟩, sorted⟩ := resident_run numPages pageSize vas
  generalize run vmStep (vmInit numPages pageSize) vas = pt at h same
  have size : pt.pageSize = pageSize := same
  have free := h.free
  constructor
  case distinct =>
    intro p q hp hq eq
    rw [← h.present] at hp hq
    exact List.inj_on_of_nodup_map h.distinct hp hq eq
  case constant =>
    rw [h.length]
    exact free
  case evicts =>
    intro va inside fault full
    cases res with
    | nil =>
      rw [full] at free
      exact absurd free (by decide)
    | cons w rest =>
      refine ⟨w, (h.present w).1 List.mem_cons_self, ?_, ?_⟩
      · intro p hp ne
        rw [← h.present, List.mem_cons] at hp
        exact (List.pairwise_cons.1 sorted).1 p (hp.resolve_left ne)
      · intro p
        have step := h.fault full va
        rw [size] at step
        exact step inside fault p
  case translates =>
    intro va inside
    obtain ⟨next, -, value⟩ := h.translate va
    rw [size] at next value
    refine ⟨?_, value inside⟩
    rw [← next.present]
    unfold accessPage
    rw [if_pos (UInt32.lt_iff_toNat_lt.1 inside)]
    exact mem_fifoStep_self

end MiniHardware.Arch
