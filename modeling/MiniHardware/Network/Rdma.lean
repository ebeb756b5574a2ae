import MiniHardware.Lib.Index
import MiniHardware.Lib.Ring
import MiniHardware.Lib.Tiles

/-!
# RDMA completions (`mini-network-hardware/src/rdma.c`)

A send and a remote write are carried out at once, and each leaves its result
in the completion queue, from where it is polled. A send is refused when the
queue is full; a remote write is carried out and its completion is dropped.
-/

namespace MiniHardware.Network
open Lib

/-- `RDMA_CQ_DEPTH`. -/
abbrev rdmaCqDepth : Nat := 256

inductive RDMAQPState where
  | reset | init | rtr | rts | error
deriving DecidableEq

inductive RDMAOpcode where
  | send | write | read | atomic
deriving DecidableEq

structure RDMAQP where
  qpn : UInt32
  sendCq : UInt32
  recvCq : UInt32
  state : RDMAQPState

/-- What `rdma_post_send` reads of a work request. -/
structure RDMAWQE where
  opcode : RDMAOpcode
  length : UInt32

abbrev RDMACompletionQueue := Ring UInt32 rdmaCqDepth

/-- The queue pairs are those created; there are never more than `RDMA_MAX_QP`. -/
structure RDMAContext where
  queuePairs : List RDMAQP
  cq : RDMACompletionQueue

/-- The bytes of the memory, by their addresses. -/
abbrev Memory := UInt64 → UInt8

def rdmaInit : RDMAContext := ⟨[], ⟨fun _ => 0, 0, 0, 0⟩⟩

/-- `RDMA_MAX_QP`. -/
def rdmaMaxQp : Nat := 64

def rdmaCreateQp (ctx : RDMAContext) (initialState : RDMAQPState) : Int × RDMAContext :=
  if ctx.queuePairs.length ≥ rdmaMaxQp then (-1, ctx)
  else
    let idx := ctx.queuePairs.length
    (idx, { ctx with queuePairs := ctx.queuePairs ++ [⟨UInt32.ofNat idx, 0, 0, initialState⟩] })

/-- The queue pair, if its number is one and it is in the state to send. -/
def readyToSend (ctx : RDMAContext) (qpn : Int) : Bool :=
  if qpn < 0 ∨ qpn ≥ ctx.queuePairs.length then false
  else match ctx.queuePairs[qpn.toNat]? with
    | some qp => qp.state = .rts
    | none => false

/-- The result that a work request leaves in the queue. -/
def sendResult (wqe : RDMAWQE) : UInt32 := if wqe.opcode = .write then wqe.length else 1

/-- The work request may be null. -/
def rdmaPostSend (ctx : RDMAContext) (qpn : Int) (wqe : Option RDMAWQE) : Int × RDMAContext :=
  match wqe with
  | none => (-1, ctx)
  | some wqe =>
    if readyToSend ctx qpn = false then (-1, ctx)
    else if ctx.cq.count ≥ rdmaCqDepth then (-1, ctx)
    else (0, { ctx with cq := ctx.cq.push (sendResult wqe) })

/-- The result polled when 0 is returned, `none` when -1 is. -/
def rdmaPollCq (ctx : RDMAContext) : Option UInt32 × RDMAContext :=
  if ctx.cq.count = 0 then (none, ctx) else (some (ctx.cq.cells ctx.cq.head), { ctx with cq := ctx.cq.pop })

/-- `len` bytes from `src` to `dst`; the two do not overlap. -/
def copyBytes (mem : Memory) (dst src : UInt64) (len : Nat) : Memory :=
  fun a => if (a - dst).toNat < len then mem (src + (a - dst)) else mem a

/-- A null pointer is the address 0. -/
def rdmaRemoteWrite (ctx : RDMAContext) (mem : Memory) (qpn : Int) (remoteAddr localData : UInt64) (len : Int) :
    Int × RDMAContext × Memory :=
  if remoteAddr = 0 ∨ localData = 0 ∨ len ≤ 0 then (-1, ctx, mem)
  else if readyToSend ctx qpn = false then (-1, ctx, mem)
  else
    let mem := copyBytes mem remoteAddr localData len.toNat
    if ctx.cq.count < rdmaCqDepth then
      (len, { ctx with cq := ctx.cq.push (UInt32.ofNat len.toNat) }, mem)
    else (len, ctx, mem)

/-! ## Runs -/

inductive RdmaOp where
  | postSend (qpn : Int) (wqe : Option RDMAWQE)
  | remoteWrite (qpn : Int) (remoteAddr localData : UInt64) (len : Int)
  | pollCq

/-- The context, the memory, the results of the requests that were reported to have succeeded and
the results polled. -/
structure RdmaRun where
  ctx : RDMAContext
  mem : Memory
  succeeded : List UInt32
  polled : List UInt32

def rdmaStep (s : RdmaRun) : RdmaOp → RdmaRun
  | .postSend qpn wqe =>
    let (rc, ctx) := rdmaPostSend s.ctx qpn wqe
    { s with
      ctx := ctx
      succeeded := s.succeeded ++ if rc = 0 then (wqe.map sendResult).toList else [] }
  | .remoteWrite qpn remoteAddr localData len =>
    let (rc, ctx, mem) := rdmaRemoteWrite s.ctx s.mem qpn remoteAddr localData len
    { s with
      ctx := ctx
      mem := mem
      succeeded := s.succeeded ++ if 0 < rc then [UInt32.ofNat rc.toNat] else [] }
  | .pollCq =>
    let (result, ctx) := rdmaPollCq s.ctx
    { s with ctx := ctx, polled := s.polled ++ result.toList }

/-- Queue pairs in the state to send, and no completion yet. -/
def rdmaStart (numQp : Nat) (mem : Memory) : RdmaRun where
  ctx := (List.range numQp).foldl (fun ctx _ => (rdmaCreateQp ctx .rts).2) rdmaInit
  mem := mem
  succeeded := []
  polled := []

/-- Every request that succeeded has one completion, in order: polled, or in the queue. -/
def Completes (s : RdmaRun) : Prop := s.polled ++ s.ctx.cq.toList = s.succeeded

/-- The request is carried out. -/
def writes (s : RdmaRun) (qpn : Int) (remoteAddr localData : UInt64) (len : Int) : Prop :=
  ¬(remoteAddr = 0 ∨ localData = 0 ∨ len ≤ 0) ∧ readyToSend s.ctx qpn = true

/-- A remote write that is carried out finds room in the completion queue. -/
def CqRoom (s : RdmaRun) : RdmaOp → Prop
  | .remoteWrite qpn remoteAddr localData len =>
    writes s qpn remoteAddr localData len → s.ctx.cq.count < rdmaCqDepth
  | _ => True

structure RdmaInv (s : RdmaRun) : Prop where
  valid : s.ctx.cq.Valid
  completes : Completes s

variable {s : RdmaRun}

/-- A completion is pushed for a request that succeeds. -/
theorem RdmaInv.push (h : RdmaInv s) (room : s.ctx.cq.count < rdmaCqDepth) (result : UInt32) (mem : Memory) :
    RdmaInv { s with
      ctx := { s.ctx with cq := s.ctx.cq.push result }
      mem := mem
      succeeded := s.succeeded ++ [result] } := by
  refine ⟨h.valid.push room result, ?_⟩
  show s.polled ++ (s.ctx.cq.push result).toList = s.succeeded ++ [result]
  rw [Ring.toList_push h.valid room, ← List.append_assoc, h.completes]

theorem RdmaInv.postSend (h : RdmaInv s) (qpn : Int) (wqe : Option RDMAWQE) :
    RdmaInv (rdmaStep s (.postSend qpn wqe)) := by
  have refused : RdmaInv { s with succeeded := s.succeeded ++ [] } := by
    rw [List.append_nil]
    exact h
  unfold rdmaStep rdmaPostSend
  cases wqe with
  | none => exact refused
  | some wqe =>
    dsimp only
    split
    · exact refused
    split
    · exact refused
    · rename_i room
      exact h.push (Nat.not_le.1 room) (sendResult wqe) s.mem

theorem RdmaInv.pollCq (h : RdmaInv s) : RdmaInv (rdmaStep s .pollCq) := by
  unfold rdmaStep rdmaPollCq
  dsimp only
  split
  · refine ⟨h.valid, ?_⟩
    show (s.polled ++ []) ++ s.ctx.cq.toList = s.succeeded
    rw [List.append_nil]
    exact h.completes
  · rename_i more
    have pos := Nat.pos_of_ne_zero more
    refine ⟨h.valid.pop pos, ?_⟩
    show (s.polled ++ [s.ctx.cq.cells s.ctx.cq.head]) ++ s.ctx.cq.pop.toList = s.succeeded
    rw [List.append_assoc, List.singleton_append, ← Ring.toList_pop pos]
    exact h.completes

/-- What a remote write does that is carried out. -/
theorem remote_write_eq {qpn : Int} {remoteAddr localData : UInt64} {len : Int}
    (carried : writes s qpn remoteAddr localData len) :
    rdmaStep s (.remoteWrite qpn remoteAddr localData len) =
      { s with
        ctx := if s.ctx.cq.count < rdmaCqDepth then { s.ctx with cq := s.ctx.cq.push (UInt32.ofNat len.toNat) }
          else s.ctx
        mem := copyBytes s.mem remoteAddr localData len.toNat
        succeeded := s.succeeded ++ [UInt32.ofNat len.toNat] } := by
  have pos : 0 < len := by
    have := carried.1
    omega
  have ready : readyToSend s.ctx qpn ≠ false := by
    rw [carried.2]
    decide
  rw [rdmaStep, rdmaRemoteWrite, if_neg carried.1, if_neg ready]
  by_cases room : s.ctx.cq.count < rdmaCqDepth
  · simp only [if_pos room, if_pos pos]
  · simp only [if_neg room, if_pos pos]

/-- One that is not is refused. -/
theorem remote_write_refused {qpn : Int} {remoteAddr localData : UInt64} {len : Int}
    (refused : ¬ writes s qpn remoteAddr localData len) :
    rdmaStep s (.remoteWrite qpn remoteAddr localData len) = s := by
  have still : rdmaRemoteWrite s.ctx s.mem qpn remoteAddr localData len = (-1, s.ctx, s.mem) := by
    unfold rdmaRemoteWrite
    split
    · rfl
    · rename_i valid
      rw [if_pos (by simpa using fun ready => refused ⟨valid, ready⟩)]
  rw [rdmaStep, still]
  dsimp only
  rw [if_neg (by decide), List.append_nil]

theorem RdmaInv.remoteWrite (h : RdmaInv s) {qpn : Int} {remoteAddr localData : UInt64} {len : Int}
    (room : CqRoom s (.remoteWrite qpn remoteAddr localData len)) :
    RdmaInv (rdmaStep s (.remoteWrite qpn remoteAddr localData len)) := by
  by_cases carried : writes s qpn remoteAddr localData len
  · rw [remote_write_eq carried, if_pos (room carried)]
    exact h.push (room carried) _ _
  · rw [remote_write_refused carried]
    exact h

/-- Without room a request has succeeded that has no completion. -/
theorem RdmaInv.full (h : RdmaInv s) {qpn : Int} {remoteAddr localData : UInt64} {len : Int}
    (full : ¬ CqRoom s (.remoteWrite qpn remoteAddr localData len)) :
    ¬ Completes (rdmaStep s (.remoteWrite qpn remoteAddr localData len)) := by
  obtain ⟨carried, noRoom⟩ := Classical.not_imp.1 full
  rw [remote_write_eq carried, if_neg noRoom]
  intro completes
  have more : s.polled ++ s.ctx.cq.toList = s.succeeded ++ [UInt32.ofNat len.toNat] := completes
  have same : s.succeeded.length = (s.succeeded ++ [UInt32.ofNat len.toNat]).length := by rw [← more, h.completes]
  rw [List.length_append, List.length_singleton] at same
  omega

theorem cq_createQp (numQp : Nat) (ctx : RDMAContext) :
    ((List.range numQp).foldl (fun ctx _ => (rdmaCreateQp ctx .rts).2) ctx).cq = ctx.cq := by
  refine foldl_kept RDMAContext.cq (fun ctx _ _ => ?_) ctx
  unfold rdmaCreateQp
  split
  · rfl
  · rfl

theorem rdmaInv_start (numQp : Nat) (mem : Memory) : RdmaInv (rdmaStart numQp mem) := by
  have cq : (rdmaStart numQp mem).ctx.cq = rdmaInit.cq := cq_createQp numQp rdmaInit
  refine ⟨?_, ?_⟩
  · rw [cq]
    exact ⟨Nat.zero_le _, rfl⟩
  · show [] ++ (rdmaStart numQp mem).ctx.cq.toList = []
    rw [cq]
    rfl

/-- **Every request that succeeds is completed once, in order,** throughout a run exactly when the
completion queue has room at every remote write that is carried out. -/
theorem rdma_completes_iff (numQp : Nat) (mem : Memory) (ops : List RdmaOp) :
    (∀ before rest, ops = before ++ rest → Completes (run rdmaStep (rdmaStart numQp mem) before)) ↔
      Guarded rdmaStep CqRoom (rdmaStart numQp mem) ops := by
  refine guarded_iff_prefixes RdmaInv (fun s h => h.completes) ?_ ?_ (rdmaInv_start numQp mem)
  · intro s op h room
    cases op with
    | postSend qpn wqe => exact h.postSend qpn wqe
    | remoteWrite => exact h.remoteWrite room
    | pollCq => exact h.pollCq
  · intro s op h full
    cases op with
    | remoteWrite => exact h.full full
    | postSend => exact absurd trivial full
    | pollCq => exact absurd trivial full

/-- As many sends as the queue has room for, and one remote write. -/
def droppedCompletion : List RdmaOp :=
  List.replicate 256 (.postSend 0 (some ⟨.send, 1⟩)) ++ [.remoteWrite 0 4096 8192 64]

theorem rdma_drops_completion : ¬ Completes (run rdmaStep (rdmaStart 1 fun _ => 0) droppedCompletion) := by
  intro completes
  have total := congrArg List.length completes
  rw [List.length_append, Ring.length_toList] at total
  revert total
  decide +kernel

end MiniHardware.Network
