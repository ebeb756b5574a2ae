import MiniHardware.Lib.Index
import MiniHardware.Lib.Ring

/-!
# Descriptor rings of a network card (`mini-network-hardware/src/nic_arch.c`)

Descriptors are accepted into a transmit and a receive ring, which are drained
while the DMA engine is active. The receive interrupt is raised when the
receive ring is not empty, and that is asked after it has been drained.
-/

namespace MiniHardware.Network
open Lib

/-- `NIC_MAX_DESCRIPTORS`. -/
abbrev nicMaxDescriptors : Nat := 256

structure NICDescriptor where
  bufferAddr : UInt64
  length : UInt32
  flags : UInt16
  status : UInt16

inductive NICInterrupt where
  | txComplete | rxReady | linkChange | error
deriving DecidableEq

/-- The transmit ring's `len` is `NIC_MAX_DESCRIPTORS` from `nic_init` on. -/
structure NICRing where
  descriptors : Fin nicMaxDescriptors → NICDescriptor
  head : Fin nicMaxDescriptors
  tail : Fin nicMaxDescriptors

structure NIC where
  txRing : NICRing
  rxRing : NICRing
  interrupts : NICInterrupt → Bool
  dmaEngineActive : Bool
  dmaTotalBytes : UInt64

def emptyRing : NICRing := ⟨fun _ => ⟨0, 0, 0, 0⟩, 0, 0⟩

def nicInit : NIC := ⟨emptyRing, emptyRing, fun _ => false, false, 0⟩

/-- `NIC_FLAG_SOP | NIC_FLAG_EOP`. -/
def wholePacket : UInt16 := 0x02 ||| 0x01

/-- The descriptor of `len` bytes at `data`. -/
def describe (data : UInt64) (len : Int) : NICDescriptor := ⟨data, UInt32.ofNat len.toNat, wholePacket, 0⟩

/-- What both enqueues do with their ring; a null pointer is the address 0. -/
def ringEnqueue (ring : NICRing) (data : UInt64) (len : Int) : Int × NICRing :=
  if len ≤ 0 ∨ data = 0 then (-1, ring)
  else
    let nextTail := Ring.behind ring.tail 1
    if nextTail = ring.head then (-1, ring)
    else (0, { ring with
      descriptors := Function.update ring.descriptors ring.tail (describe data len)
      tail := nextTail })

def nicTxEnqueue (nic : NIC) (data : UInt64) (len : Int) : Int × NIC :=
  let (rc, ring) := ringEnqueue nic.txRing data len
  (rc, { nic with txRing := ring })

def nicRxEnqueue (nic : NIC) (data : UInt64) (len : Int) : Int × NIC :=
  let (rc, ring) := ringEnqueue nic.rxRing data len
  (rc, { nic with rxRing := ring })

/-- A descriptor that the card is done with. -/
def NICDescriptor.complete (desc : NICDescriptor) : NICDescriptor := { desc with status := 0x01 }

/-- A round of the loops of `nic_process`. -/
def completeHead (ring : NICRing) : NICRing :=
  { ring with
    descriptors := Function.update ring.descriptors ring.head (ring.descriptors ring.head).complete
    head := Ring.behind ring.head 1 }

theorem between_completeHead {ring : NICRing} (more : ring.head ≠ ring.tail) :
    Ring.between (completeHead ring).head (completeHead ring).tail < Ring.between ring.head ring.tail := by
  have count : Ring.between (Ring.behind ring.head 1) ring.tail = Ring.between ring.head ring.tail - 1 :=
    congrArg Ring.count (Ring.ofEnds_pop ring.descriptors more)
  have pos := Ring.between_pos more
  show Ring.between (Ring.behind ring.head 1) ring.tail < _
  omega

/-- The descriptors completed, the ring and the sum of bytes after the loop. -/
def drain (ring : NICRing) (bytes : UInt64) : List NICDescriptor × NICRing × UInt64 :=
  if _h : ring.head ≠ ring.tail then
    let desc := ring.descriptors ring.head
    let (completed, rest) := drain (completeHead ring) (bytes + desc.length.toUInt64)
    (desc.complete :: completed, rest)
  else ([], ring, bytes)
termination_by Ring.between ring.head ring.tail
decreasing_by exact between_completeHead _h

def setInterrupt (interrupts : NICInterrupt → Bool) (irq : NICInterrupt) (pending : Bool) : NICInterrupt → Bool :=
  Function.update interrupts irq pending

/-- The descriptors completed in the transmit and the receive ring, and the card. -/
def nicProcess (nic : NIC) : List NICDescriptor × List NICDescriptor × NIC :=
  if nic.dmaEngineActive = false then ([], [], nic)
  else
    let (tx, txRing, bytes) := drain nic.txRing nic.dmaTotalBytes
    let (rx, rxRing, bytes) := drain nic.rxRing bytes
    let interrupts := nic.interrupts
    let interrupts := if txRing.head = txRing.tail then setInterrupt interrupts .txComplete true else interrupts
    let interrupts := if rxRing.head ≠ rxRing.tail then setInterrupt interrupts .rxReady true else interrupts
    (tx, rx, { nic with txRing := txRing, rxRing := rxRing, interrupts := interrupts, dmaTotalBytes := bytes })

def nicInterruptHandler (nic : NIC) (irq : Int) : NIC :=
  match irq with
  | 0 => { nic with interrupts := setInterrupt nic.interrupts .txComplete false, dmaEngineActive := false }
  | 1 => { nic with interrupts := setInterrupt nic.interrupts .rxReady false }
  | 2 => { nic with interrupts := setInterrupt nic.interrupts .linkChange false }
  | 3 => { nic with interrupts := setInterrupt nic.interrupts .error false }
  | _ => nic

/-! ## Draining -/

/-- The descriptors in a ring, in the order of their acceptance. -/
def NICRing.queue (ring : NICRing) : List NICDescriptor :=
  (Ring.ofEnds ring.descriptors ring.head ring.tail).toList

def bytesOf (descs : List NICDescriptor) : Nat := (descs.map fun desc => desc.length.toNat).sum

theorem queue_of_empty {ring : NICRing} (empty : ring.head = ring.tail) : ring.queue = [] := by
  rw [NICRing.queue, Ring.toList, Ring.ofEnds, empty, Ring.between_self]
  rfl

theorem queue_of_more {ring : NICRing} (more : ring.head ≠ ring.tail) :
    ring.queue = ring.descriptors ring.head :: (completeHead ring).queue := by
  have valid := Ring.valid_ofEnds ring.descriptors ring.head ring.tail
  have pos : 0 < (Ring.ofEnds ring.descriptors ring.head ring.tail).count := Ring.between_pos more
  have rest : (completeHead ring).queue = (Ring.ofEnds ring.descriptors ring.head ring.tail).pop.toList := by
    rw [← Ring.toList_pop_set valid pos (ring.descriptors ring.head).complete, NICRing.queue, completeHead]
    rw [Ring.ofEnds_pop _ more]
    show Ring.toList _ = Ring.toList _
    rw [Ring.set, Ring.index, Ring.behind_zero]
    rfl
  rw [rest]
  exact Ring.toList_pop pos

theorem drain_eq (ring : NICRing) (bytes : UInt64) :
    (drain ring bytes).1 = ring.queue.map NICDescriptor.complete ∧
      (drain ring bytes).2.1.head = (drain ring bytes).2.1.tail ∧
      (drain ring bytes).2.2 = bytes + UInt64.ofNat (bytesOf ring.queue) := by
  fun_induction drain ring bytes with
  | case1 ring bytes more desc completed rest eq ih =>
    rw [eq] at ih
    rw [queue_of_more more]
    refine ⟨?_, ih.2.1, ?_⟩
    · rw [List.map_cons, ← ih.1]
    · rw [ih.2.2, bytesOf, bytesOf, List.map_cons, List.sum_cons, UInt64.ofNat_add, UInt64.add_assoc,
        UInt64.ofNat_uInt32ToNat]
  | case2 ring bytes empty =>
    have same : ring.head = ring.tail := not_not.1 empty
    rw [queue_of_empty same]
    exact ⟨rfl, same, (UInt64.add_zero bytes).symm⟩

/-- A descriptor that is accepted goes to the end of the queue. -/
theorem ring_enqueue_queue (ring : NICRing) (data : UInt64) (len : Int) :
    (ringEnqueue ring data len).2.queue =
      ring.queue ++ if (ringEnqueue ring data len).1 = 0 then [describe data len] else [] := by
  have refused : ring.queue = ring.queue ++ if (-1 : Int) = 0 then [describe data len] else [] := by
    rw [if_neg (by decide), List.append_nil]
  unfold ringEnqueue
  split
  · exact refused
  dsimp only
  split
  · exact refused
  · rename_i free
    obtain ⟨room, push⟩ := Ring.ofEnds_push ring.descriptors free (describe data len)
    rw [if_pos rfl, NICRing.queue, push]
    exact Ring.toList_push (Ring.valid_ofEnds ..) room _

/-! ## Runs -/

/-- The driver sets `dma_engine_active` itself, which no function of the card does. -/
inductive NicOp where
  | txEnqueue (data : UInt64) (len : Int)
  | rxEnqueue (data : UInt64) (len : Int)
  | process
  | interrupt (irq : Int)
  | setDma (active : Bool)

/-- The card, and for each ring the descriptors accepted and those completed. -/
structure NicRun where
  nic : NIC
  acceptedTx : List NICDescriptor
  acceptedRx : List NICDescriptor
  completedTx : List NICDescriptor
  completedRx : List NICDescriptor

def nicStart : NicRun := ⟨nicInit, [], [], [], []⟩

def nicStep (s : NicRun) : NicOp → NicRun
  | .txEnqueue data len =>
    let (rc, nic) := nicTxEnqueue s.nic data len
    { s with nic := nic, acceptedTx := s.acceptedTx ++ if rc = 0 then [describe data len] else [] }
  | .rxEnqueue data len =>
    let (rc, nic) := nicRxEnqueue s.nic data len
    { s with nic := nic, acceptedRx := s.acceptedRx ++ if rc = 0 then [describe data len] else [] }
  | .process =>
    let (tx, rx, nic) := nicProcess s.nic
    { s with nic := nic, completedTx := s.completedTx ++ tx, completedRx := s.completedRx ++ rx }
  | .interrupt irq => { s with nic := nicInterruptHandler s.nic irq }
  | .setDma active => { s with nic := { s.nic with dmaEngineActive := active } }

/-- The descriptors accepted are completed, or wait, in order. -/
def InOrder (accepted completed : List NICDescriptor) (ring : NICRing) : Prop :=
  ∃ done, accepted = done ++ ring.queue ∧ completed = done.map NICDescriptor.complete

/-- What the card promises of a call. -/
structure Serves (s : NicRun) (op : NicOp) : Prop where
  tx : InOrder (nicStep s op).acceptedTx (nicStep s op).completedTx (nicStep s op).nic.txRing
  rx : InOrder (nicStep s op).acceptedRx (nicStep s op).completedRx (nicStep s op).nic.rxRing
  bytes : (nicStep s op).nic.dmaTotalBytes =
    UInt64.ofNat (bytesOf (nicStep s op).completedTx + bytesOf (nicStep s op).completedRx)
  /-- While DMA is active, all that was accepted is completed. -/
  drained : op = .process → s.nic.dmaEngineActive = true →
    (nicStep s op).nic.txRing.queue = [] ∧ (nicStep s op).nic.rxRing.queue = []
  /-- The receive interrupt is pending after a descriptor was completed in the receive ring. -/
  raised : (nicStep s op).completedRx.length ≠ s.completedRx.length → (nicStep s op).nic.interrupts .rxReady = true

/-- No descriptor is received. -/
def NoReceive (s : NicRun) : NicOp → Prop
  | .process => s.nic.dmaEngineActive = true → s.nic.rxRing.head = s.nic.rxRing.tail
  | _ => True

structure NicInv (s : NicRun) : Prop where
  tx : InOrder s.acceptedTx s.completedTx s.nic.txRing
  rx : InOrder s.acceptedRx s.completedRx s.nic.rxRing
  bytes : s.nic.dmaTotalBytes = UInt64.ofNat (bytesOf s.completedTx + bytesOf s.completedRx)
  /-- The receive interrupt is never raised. -/
  quiet : s.nic.interrupts .rxReady = false

variable {s : NicRun}

theorem nicInv_start : NicInv nicStart :=
  ⟨⟨[], rfl, rfl⟩, ⟨[], rfl, rfl⟩, rfl, rfl⟩

theorem InOrder.enqueue {accepted completed : List NICDescriptor} {ring : NICRing}
    (h : InOrder accepted completed ring) (data : UInt64) (len : Int) :
    InOrder (accepted ++ if (ringEnqueue ring data len).1 = 0 then [describe data len] else []) completed
      (ringEnqueue ring data len).2 := by
  obtain ⟨done, accepted, completed⟩ := h
  refine ⟨done, ?_, completed⟩
  rw [ring_enqueue_queue, accepted, List.append_assoc]

theorem InOrder.drain {accepted completed : List NICDescriptor} {ring : NICRing}
    (h : InOrder accepted completed ring) (bytes : UInt64) :
    InOrder accepted (completed ++ (drain ring bytes).1) (drain ring bytes).2.1 := by
  obtain ⟨done, eq, rfl⟩ := h
  obtain ⟨out, empty, -⟩ := drain_eq ring bytes
  refine ⟨accepted, ?_, ?_⟩
  · rw [queue_of_empty empty, List.append_nil]
  · rw [out, eq, List.map_append]

theorem bytesOf_append (xs ys : List NICDescriptor) : bytesOf (xs ++ ys) = bytesOf xs + bytesOf ys := by
  rw [bytesOf, List.map_append, List.sum_append]
  rfl

theorem bytesOf_complete (descs : List NICDescriptor) :
    bytesOf (descs.map NICDescriptor.complete) = bytesOf descs := by
  rw [bytesOf, List.map_map]
  rfl

theorem setInterrupt_rxReady (interrupts : NICInterrupt → Bool) (irq : NICInterrupt) (pending : Bool)
    (other : .rxReady ≠ irq) : setInterrupt interrupts irq pending .rxReady = interrupts .rxReady := by
  rw [setInterrupt, Function.update_of_ne other]

/-- What `nic_process` does while DMA is active. -/
theorem NicInv.process_active (h : NicInv s) (active : s.nic.dmaEngineActive = true) :
    let s' := nicStep s .process
    NicInv s' ∧ s'.nic.txRing.queue = [] ∧ s'.nic.rxRing.queue = [] ∧
      s'.completedRx.length = s.completedRx.length + s.nic.rxRing.queue.length := by
  obtain ⟨outTx, emptyTx, bytesTx⟩ := drain_eq s.nic.txRing s.nic.dmaTotalBytes
  obtain ⟨outRx, emptyRx, bytesRx⟩ := drain_eq s.nic.rxRing (drain s.nic.txRing s.nic.dmaTotalBytes).2.2
  have on : s.nic.dmaEngineActive ≠ false := by
    rw [active]
    decide
  simp only [nicStep, nicProcess, if_neg on]
  refine ⟨⟨h.tx.drain _, h.rx.drain _, ?_, ?_⟩, queue_of_empty emptyTx, queue_of_empty emptyRx, ?_⟩
  · rw [bytesOf_append, bytesOf_append, outRx, outTx, bytesOf_complete, bytesOf_complete]
    dsimp only
    rw [bytesRx, bytesTx, h.bytes, ← UInt64.ofNat_add, ← UInt64.ofNat_add]
    congr 1
    omega
  · rw [if_neg (not_not.2 emptyRx), if_pos emptyTx]
    exact (setInterrupt_rxReady s.nic.interrupts .txComplete true (by decide)).trans h.quiet
  · rw [List.length_append, outRx, List.length_map]

theorem process_idle (idle : s.nic.dmaEngineActive = false) : nicStep s .process = s := by
  simp only [nicStep, nicProcess, if_pos idle, List.append_nil]

/-- The handler only clears. -/
theorem nic_interrupt_handler_eq (nic : NIC) (irq : Int) :
    ∃ interrupts active, nicInterruptHandler nic irq =
      { nic with interrupts := interrupts, dmaEngineActive := active } ∧
        (nic.interrupts .rxReady = false → interrupts .rxReady = false) := by
  unfold nicInterruptHandler
  split
  · exact ⟨_, _, rfl, (setInterrupt_rxReady _ .txComplete false (by decide)).trans⟩
  · exact ⟨_, _, rfl, fun _ => Function.update_self ..⟩
  · exact ⟨_, _, rfl, (setInterrupt_rxReady _ .linkChange false (by decide)).trans⟩
  · exact ⟨_, _, rfl, (setInterrupt_rxReady _ .error false (by decide)).trans⟩
  · exact ⟨_, _, rfl, id⟩

theorem NicInv.interrupt (h : NicInv s) (irq : Int) : NicInv (nicStep s (.interrupt irq)) := by
  obtain ⟨interrupts, active, eq, quiet⟩ := nic_interrupt_handler_eq s.nic irq
  rw [nicStep, eq]
  exact ⟨h.tx, h.rx, h.bytes, quiet h.quiet⟩

theorem NicInv.step (h : NicInv s) (op : NicOp) : NicInv (nicStep s op) := by
  cases op with
  | txEnqueue data len => exact ⟨h.tx.enqueue data len, h.rx, h.bytes, h.quiet⟩
  | rxEnqueue data len => exact ⟨h.tx, h.rx.enqueue data len, h.bytes, h.quiet⟩
  | process =>
    cases active : s.nic.dmaEngineActive with
    | false =>
      rw [process_idle active]
      exact h
    | true => exact (h.process_active active).1
  | interrupt irq => exact h.interrupt irq
  | setDma active => exact ⟨h.tx, h.rx, h.bytes, h.quiet⟩

/-- The card keeps its promises but for the interrupt, which is missing whenever it is due. -/
theorem serves_iff (h : NicInv s) (op : NicOp) : Serves s op ↔ NoReceive s op := by
  have next := h.step op
  have other : op ≠ .process → Serves s op := by
    intro ne
    refine ⟨next.tx, next.rx, next.bytes, fun eq => absurd eq ne, fun more => absurd ?_ more⟩
    cases op with
    | process => exact absurd rfl ne
    | txEnqueue | rxEnqueue | interrupt | setDma => rfl
  cases op with
  | process =>
    cases active : s.nic.dmaEngineActive with
    | false =>
      have still := process_idle active
      constructor
      · intro _ on
        rw [active] at on
        cases on
      · intro _
        refine ⟨next.tx, next.rx, next.bytes, fun _ on => ?_, fun more => absurd (by rw [still]) more⟩
        rw [active] at on
        cases on
    | true =>
      obtain ⟨-, emptyTx, emptyRx, count⟩ := h.process_active active
      constructor
      · intro serves _
        by_contra more
        have raised := serves.raised (by rw [count, queue_of_more more]; simp)
        rw [next.quiet] at raised
        cases raised
      · intro none
        refine ⟨next.tx, next.rx, next.bytes, fun _ _ => ⟨emptyTx, emptyRx⟩, fun more => absurd ?_ more⟩
        rw [count, queue_of_empty (none active)]
        rfl
  | txEnqueue | rxEnqueue | interrupt | setDma => exact ⟨fun _ => trivial, fun _ => other (by simp)⟩

/-- **The card serves its rings in order and announces what it receives,** throughout a run, exactly
when it receives nothing. -/
theorem nic_serves_iff (ops : List NicOp) :
    (∀ before op rest, ops = before ++ op :: rest → Serves (run nicStep nicStart before) op) ↔
      Guarded nicStep NoReceive nicStart ops := by
  rw [← guarded_iff_splits]
  exact guarded_congr NicInv (fun s op h => serves_iff h op) (fun s op h _ => h.step op) nicInv_start

/-- One packet of 64 bytes is received. -/
theorem nic_receives_silently :
    ¬ Serves (run nicStep nicStart [.setDma true, .rxEnqueue 4096 64]) .process := by
  intro serves
  have raised := serves.raised (by decide +kernel)
  revert raised
  decide +kernel

end MiniHardware.Network
