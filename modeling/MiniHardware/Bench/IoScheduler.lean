import Mathlib.Algebra.GroupWithZero.Nat
import Mathlib.Algebra.Ring.Int.Defs
import Mathlib.Data.List.Induction
import Mathlib.Data.List.ReduceOption
import Mathlib.Order.OrderDual
import Mathlib.Order.WithBot
import MiniHardware.Lib.FirstReady
import MiniHardware.Lib.Trace

/-!
# The I/O scheduler (`lake_test_mini/src/io_profile.c`)

Requests are submitted and dispatched in any order. Under every type the scheduler
is a queue by a key in which equal keys keep their order (`ioScheduler_serves`):
the key of a read under `IO_SCHED_DEADLINE` is its age, the greatest first, and all
else has one key, after every read. So no deadline is kept for a write, and the
other three types do not differ. Ages are compared as they are computed, so reads
whose ages are rounded alike have one key. The totals have 64 bits and wrap.
-/

namespace MiniHardware.Bench
open Lib

inductive IoOpType where
  | read | write | flush | trim
deriving DecidableEq

inductive IoSchedulerType where
  | noop | deadline | cfq | mqDeadline
deriving DecidableEq

inductive LakeFileFormat where
  | parquet | orc | avro | iceberg | delta | hudi
deriving DecidableEq

/-- Times are of a type with an order and operations that need not be exact: the numbers among the `double`s, with
their rounding, are one. -/
structure IoRequest (K : Type) where
  fileId : UInt64
  offset : UInt64
  length : UInt64
  opType : IoOpType
  timestampMs : K
  priority : UInt32
  format : LakeFileFormat

structure IoScheduler (K : Type) where
  type : IoSchedulerType
  pending : List (IoRequest K)
  pendingCapacity : Nat
  totalIoCompleted : UInt64
  totalBytesRead : UInt64
  totalBytesWritten : UInt64
  totalBusyTimeUs : K

variable {K : Type}

/-- The bytes of the requests of one type. -/
def bytesOf (type : IoOpType) (reqs : List (IoRequest K)) : Nat :=
  ((reqs.filter fun r => r.opType = type).map fun r => r.length.toNat).sum

/-- One more request adds its length, modulo `2 ^ 64`, if it is of the type. -/
theorem ofNat_bytesOf_snoc (type : IoOpType) (reqs : List (IoRequest K)) (r : IoRequest K) :
    UInt64.ofNat (bytesOf type (reqs ++ [r])) =
      UInt64.ofNat (bytesOf type reqs) + if r.opType = type then r.length else 0 := by
  rw [bytesOf, bytesOf, List.filter_append, List.map_append, List.sum_append, UInt64.ofNat_add]
  by_cases eq : r.opType = type <;> simp [eq]

section Scheduler
variable [Zero K] [OfNat K 1000] [Sub K] [Mul K] [LinearOrder K]

def ioSchedulerInit (type : IoSchedulerType) : IoScheduler K := ⟨type, [], 256, 0, 0, 0, 0⟩

def ioSchedulerSubmit (sched : IoScheduler K) (req : IoRequest K) : IoScheduler K :=
  { sched with
    pendingCapacity :=
      if sched.pendingCapacity ≤ sched.pending.length then sched.pendingCapacity * 2 else sched.pendingCapacity
    pending := sched.pending ++ [req] }

/-- `total_busy_time_us - timestamp_ms * 1000.0`. -/
def ioAge (totalBusyTimeUs : K) (req : IoRequest K) : K := totalBusyTimeUs - req.timestampMs * 1000

/-- A round of the loop over the pending requests: `oldest_read_age` and `oldest_read_idx`. -/
def oldestReadStep (sched : IoScheduler K) (oldest : K × Nat) (entry : IoRequest K × Nat) : K × Nat :=
  if entry.1.opType = .read then
    let age := ioAge sched.totalBusyTimeUs entry.1
    if oldest.2 = sched.pending.length ∨ oldest.1 < age then (age, entry.2) else oldest
  else oldest

/-- The switch of `io_scheduler_dispatch`: `best_idx`. -/
def ioBestIdx (sched : IoScheduler K) : Nat :=
  match sched.type with
  | .noop => 0
  | .deadline =>
    let oldest := sched.pending.zipIdx.foldl (oldestReadStep sched) (0, sched.pending.length)
    if oldest.2 < sched.pending.length then oldest.2 else 0
  | .cfq => 0
  | .mqDeadline => 0

def ioSchedulerDispatch (sched : IoScheduler K) : Option (IoRequest K) × IoScheduler K :=
  match sched.pending[ioBestIdx sched]? with
  -- there is a request at the index unless none is pending
  | none => (none, sched)
  | some dispatched =>
    (some dispatched,
      { sched with
        pending := sched.pending.eraseIdx (ioBestIdx sched)
        totalIoCompleted := sched.totalIoCompleted + 1
        totalBytesRead := sched.totalBytesRead + if dispatched.opType = .read then dispatched.length else 0
        totalBytesWritten := sched.totalBytesWritten + if dispatched.opType = .write then dispatched.length else 0 })

/-- A submission, or a dispatch; with what was dispatched so far. -/
def ioStep (s : List (IoRequest K) × IoScheduler K) : Option (IoRequest K) → List (IoRequest K) × IoScheduler K
  | some req => (s.1, ioSchedulerSubmit s.2 req)
  | none => (s.1 ++ (ioSchedulerDispatch s.2).1.toList, (ioSchedulerDispatch s.2).2)

/-! ## The index that is dispatched -/

/-- The age of a request, the greatest first. No function adds to `total_busy_time_us`. -/
def ioReadKey (req : IoRequest K) : Kᵒᵈ := OrderDual.toDual (ioAge 0 req)

/-- The order of service: under `IO_SCHED_DEADLINE` the reads by their ages, and then all else. -/
def ioKey (type : IoSchedulerType) (req : IoRequest K) : WithTop Kᵒᵈ :=
  if type = .deadline ∧ req.opType = .read then ((ioReadKey req : Kᵒᵈ) : WithTop Kᵒᵈ) else ⊤

/-- At the loop's head: no read seen, or the first of the oldest ones. -/
def OldestRead (sched : IoScheduler K) (seen : List (IoRequest K)) (oldest : K × Nat) : Prop :=
  (oldest.2 = sched.pending.length ∧ ∀ r ∈ seen, r.opType ≠ .read) ∨
    ∃ a x b, seen = a ++ x :: b ∧ a.length = oldest.2 ∧ x.opType = .read ∧
      oldest.1 = ioAge sched.totalBusyTimeUs x ∧
      (∀ y ∈ a, y.opType = .read → ioAge sched.totalBusyTimeUs y < ioAge sched.totalBusyTimeUs x) ∧
      ∀ y ∈ b, y.opType = .read → ioAge sched.totalBusyTimeUs y ≤ ioAge sched.totalBusyTimeUs x

omit [Zero K] in
/-- One request more of the scan for the oldest read. -/
theorem OldestRead.step {sched : IoScheduler K} {seen : List (IoRequest K)} {oldest : K × Nat}
    (h : OldestRead sched seen oldest) (req : IoRequest K) (room : seen.length < sched.pending.length) :
    OldestRead sched (seen ++ [req]) (oldestReadStep sched oldest (req, seen.length)) := by
  rw [oldestReadStep]
  by_cases read : req.opType = .read
  · rw [if_pos read]
    dsimp only
    rcases h with ⟨start, none⟩ | ⟨a, x, b, split, len, isRead, age, before, behind⟩
    · rw [if_pos (Or.inl start)]
      exact .inr ⟨seen, req, [], rfl, rfl, read, rfl, fun y mem isRead => absurd isRead (none y mem),
        fun y mem => absurd mem List.not_mem_nil⟩
    · have inside : oldest.2 ≠ sched.pending.length := by
        rw [split, List.length_append] at room
        omega
      by_cases older : oldest.1 < ioAge sched.totalBusyTimeUs req
      · rw [if_pos (Or.inr older)]
        rw [age] at older
        refine .inr ⟨seen, req, [], rfl, rfl, read, rfl, fun y mem yRead => ?_, fun y mem => absurd mem List.not_mem_nil⟩
        rw [split, List.mem_append, List.mem_cons] at mem
        rcases mem with front | rfl | back
        · exact (before y front yRead).trans older
        · exact older
        · exact (behind y back yRead).trans_lt older
      · rw [if_neg (not_or.2 ⟨inside, older⟩)]
        rw [age, not_lt] at older
        refine .inr ⟨a, x, b ++ [req], by rw [split, List.append_assoc, List.cons_append], len, isRead, age, before,
          fun y mem yRead => ?_⟩
        rcases List.mem_append.1 mem with back | here
        · exact behind y back yRead
        · rw [List.mem_singleton.1 here]
          exact older
  · rw [if_neg read]
    rcases h with ⟨start, none⟩ | ⟨a, x, b, split, len, isRead, age, before, behind⟩
    · refine .inl ⟨start, fun y mem => ?_⟩
      rcases List.mem_append.1 mem with old | new
      · exact none y old
      · rw [List.mem_singleton.1 new]
        exact read
    · refine .inr ⟨a, x, b ++ [req], by rw [split, List.append_assoc, List.cons_append], len, isRead, age, before,
        fun y mem yRead => ?_⟩
      rcases List.mem_append.1 mem with back | here
      · exact behind y back yRead
      · rw [List.mem_singleton.1 here] at yRead
        exact absurd yRead read

/-- The scan over the requests from the first on. -/
theorem oldestRead_run (sched : IoScheduler K) {seen : List (IoRequest K)}
    (le : seen.length ≤ sched.pending.length) :
    OldestRead sched seen (seen.zipIdx.foldl (oldestReadStep sched) (0, sched.pending.length)) := by
  induction seen using List.reverseRecOn with
  | nil => exact .inl ⟨rfl, fun r mem => absurd mem List.not_mem_nil⟩
  | append_singleton seen req ih =>
    rw [List.length_append, List.length_singleton] at le
    rw [List.zipIdx_append, List.foldl_append, Nat.zero_add]
    exact (ih (Nat.le_of_succ_le le)).step req le

/-- Every type picks the first of the pending requests with the least key. -/
theorem ioBestIdx_least (sched : IoScheduler K) (idle : sched.totalBusyTimeUs = 0) (some : sched.pending ≠ []) :
    FirstLeast (ioKey sched.type) sched.pending (ioBestIdx sched) := by
  have head (top : ∀ r ∈ sched.pending, ioKey sched.type r = ⊤) : FirstLeast (ioKey sched.type) sched.pending 0 := by
    obtain ⟨x, b, split⟩ := List.exists_cons_of_ne_nil some
    refine ⟨[], x, b, split, rfl, fun y mem => absurd mem List.not_mem_nil, fun y mem => ?_⟩
    rw [top y (by rw [split]; exact List.mem_cons_of_mem x mem)]
    exact le_top
  by_cases deadline : sched.type = .deadline
  · rw [ioBestIdx, deadline]
    dsimp only
    have key (r : IoRequest K) : ioKey .deadline r =
        if r.opType = .read then ((ioReadKey r : Kᵒᵈ) : WithTop Kᵒᵈ) else ⊤ := by
      simp only [ioKey, true_and]
    generalize found : sched.pending.zipIdx.foldl (oldestReadStep sched) (0, sched.pending.length) = oldest
    have scanned := oldestRead_run sched (Nat.le_refl _)
    rw [found, OldestRead, idle] at scanned
    rcases scanned with ⟨sentinel, noRead⟩ | ⟨a, x, b, split, len, isRead, -, before, behind⟩
    · rw [if_neg (by omega)]
      rw [deadline] at head
      exact head fun r mem => by rw [key, if_neg (noRead r mem)]
    · have inside : oldest.2 < sched.pending.length := by
        rw [split, List.length_append, List.length_cons]
        omega
      rw [if_pos inside]
      refine ⟨a, x, b, split, len, fun y mem => ?_, fun y mem => ?_⟩
      · rw [key, key, if_pos isRead]
        split
        · exact WithTop.coe_lt_coe.2 (OrderDual.toDual_lt_toDual.2 (before y mem (by assumption)))
        · exact WithTop.coe_lt_top _
      · rw [key, key, if_pos isRead]
        split
        · exact WithTop.coe_le_coe.2 (OrderDual.toDual_le_toDual.2 (behind y mem (by assumption)))
        · exact le_top
  · have zero : ioBestIdx sched = 0 := by
      rw [ioBestIdx]
      cases type : sched.type with
      | deadline => exact absurd type deadline
      | noop => rfl
      | cfq => rfl
      | mqDeadline => rfl
    rw [zero]
    exact head fun r _ => if_neg fun both => deadline both.1

/-! ## Runs -/

/-- What holds after every run. -/
structure IoServed (type : IoSchedulerType) (submitted : List (IoRequest K))
    (s : List (IoRequest K) × IoScheduler K) : Prop where
  type_eq : s.2.type = type
  idle : s.2.totalBusyTimeUs = 0
  served : Served (ioKey type) submitted (s.1, s.2.pending)
  completed : s.2.totalIoCompleted = UInt64.ofNat s.1.length
  bytesRead : s.2.totalBytesRead = UInt64.ofNat (bytesOf .read s.1)
  bytesWritten : s.2.totalBytesWritten = UInt64.ofNat (bytesOf .write s.1)

/-- A dispatch serves the queue by the key. -/
theorem IoServed.dispatch {type : IoSchedulerType} {submitted : List (IoRequest K)}
    {s : List (IoRequest K) × IoScheduler K} (h : IoServed type submitted s) :
    IoServed type submitted (ioStep s none) := by
  rw [ioStep, ioSchedulerDispatch]
  cases found : s.2.pending[ioBestIdx s.2]? with
  | none =>
    rw [Option.toList_none, List.append_nil]
    exact h
  | some dispatched =>
    have some : s.2.pending ≠ [] := by
      intro empty
      rw [empty] at found
      cases found
    have least := ioBestIdx_least s.2 h.idle some
    rw [h.type_eq] at least
    have taken := h.served.take (fun _ => ioBestIdx s.2) least
    rw [serve, found] at taken
    refine ⟨h.type_eq, h.idle, taken, ?_, ?_, ?_⟩
    · rw [Option.toList_some, List.length_append, UInt64.ofNat_add, ← h.completed]
      rfl
    · rw [Option.toList_some, ofNat_bytesOf_snoc, ← h.bytesRead]
    · rw [Option.toList_some, ofNat_bytesOf_snoc, ← h.bytesWritten]

/-- After every run the requests have been served as `IoServed` says. -/
theorem ioServed_run (type : IoSchedulerType) (ops : List (Option (IoRequest K))) :
    IoServed type ops.reduceOption (run ioStep ([], ioSchedulerInit type) ops) := by
  induction ops using List.reverseRecOn with
  | nil => exact ⟨rfl, rfl, ⟨.refl _, fun _ => rfl⟩, rfl, rfl, rfl⟩
  | append_singleton ops op ih =>
    rw [run_snoc, List.reduceOption_append]
    cases op with
    | some req =>
      exact ⟨ih.type_eq, ih.idle, ih.served.put (fun _ => 0) req, ih.completed, ih.bytesRead, ih.bytesWritten⟩
    | none =>
      rw [List.reduceOption_singleton, Option.toList_none, List.append_nil]
      exact ih.dispatch

/-- A dispatch finds nothing only where nothing is pending. -/
theorem ioSchedulerDispatch_eq_none (sched : IoScheduler K) (idle : sched.totalBusyTimeUs = 0) :
    (ioSchedulerDispatch sched).1 = none ↔ sched.pending = [] := by
  constructor
  · intro nothing
    by_contra some
    obtain ⟨a, x, b, split, len, -⟩ := ioBestIdx_least sched idle some
    have there : sched.pending[ioBestIdx sched]? = Option.some x := by
      rw [← len, split, List.getElem?_append_right (Nat.le_refl _), Nat.sub_self]
      rfl
    rw [ioSchedulerDispatch, there] at nothing
    cases nothing
  · intro empty
    rw [ioSchedulerDispatch, empty]
    rfl

/-- After every run of submissions and dispatches: what was submitted is dispatched or pending, once; requests of
one key leave in the order of their submission; a dispatch serves a least key, and none only where none is pending;
and the totals count what was dispatched, modulo `2 ^ 64`. -/
theorem ioScheduler_serves (type : IoSchedulerType) (ops : List (Option (IoRequest K))) :
    let s := run ioStep ([], ioSchedulerInit type) ops
    (s.1 ++ s.2.pending).Perm ops.reduceOption ∧
      (∀ k, (s.1 ++ s.2.pending).filter (fun r => decide (ioKey type r = k)) =
        ops.reduceOption.filter fun r => decide (ioKey type r = k)) ∧
      (∀ r, (ioSchedulerDispatch s.2).1 = some r → ∀ q ∈ s.2.pending, ioKey type r ≤ ioKey type q) ∧
      ((ioSchedulerDispatch s.2).1 = none ↔ s.2.pending = []) ∧
      s.2.totalIoCompleted = UInt64.ofNat s.1.length ∧
      s.2.totalBytesRead = UInt64.ofNat (bytesOf .read s.1) ∧
      s.2.totalBytesWritten = UInt64.ofNat (bytesOf .write s.1) := by
  intro s
  have h := ioServed_run type ops
  refine ⟨h.served.perm, h.served.stable, ?_, ioSchedulerDispatch_eq_none s.2 h.idle, h.completed, h.bytesRead,
    h.bytesWritten⟩
  intro r dispatched q mem
  have least := ioBestIdx_least s.2 h.idle (List.ne_nil_of_mem mem)
  rw [h.type_eq] at least
  obtain ⟨a, x, b, split, len, before, behind⟩ := least
  have at_best : s.2.pending[ioBestIdx s.2]? = some x := by
    rw [← len, split, List.getElem?_append_right (Nat.le_refl _), Nat.sub_self]
    rfl
  rw [ioSchedulerDispatch, at_best] at dispatched
  obtain rfl := Option.some.inj dispatched
  rw [split, List.mem_append, List.mem_cons] at mem
  rcases mem with front | rfl | back
  · exact (before q front).le
  · exact le_refl _
  · exact behind q back

end Scheduler

/-- A write, then two reads of which the second is older, and a dispatch. -/
def mixedOps : List (Option (IoRequest Int)) :=
  [some ⟨0, 0, 512, .write, 0, 0, .parquet⟩, some ⟨1, 0, 64, .read, 2, 0, .parquet⟩,
    some ⟨2, 0, 64, .read, 1, 0, .parquet⟩, none]

theorem ioScheduler_serves_mixed :
    ((run ioStep ([], ioSchedulerInit .deadline) mixedOps).1 ++
      (run ioStep ([], ioSchedulerInit .deadline) mixedOps).2.pending).Perm mixedOps.reduceOption :=
  (ioScheduler_serves .deadline mixedOps).1

end MiniHardware.Bench
