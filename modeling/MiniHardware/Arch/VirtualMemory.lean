import MiniHardware.Lib.Fifo

/-!
# Virtual memory (`mini-computer-arch/src/virtual_memory.c`)

A page table over 16384 physical frames. A bitmap says which frames are in use,
and a ring names them in the order in which they were given to a page; when none
is free, the page that holds the head of the ring loses its frame.
-/

namespace MiniHardware.Arch
open Lib

/-- `VM_MAX_PAGES`. -/
abbrev vmMaxPages : UInt32 := 65536

/-- `PHYSICAL_MEMORY_PAGES`. -/
abbrev physicalMemoryPages : UInt32 := 16384

structure PageTableEntry where
  valid : Bool
  frameNumber : UInt32
  present : Bool
  dirty : Bool
  accessed : Bool

/-- The arrays are functions of the index. -/
structure PageTable where
  entries : Nat → PageTableEntry
  numPages : UInt32
  pageSize : UInt32
  frameBitmap : Nat → UInt32
  freeFrames : UInt32
  fifoQueue : Nat → UInt32
  fifoHead : UInt32
  fifoCount : UInt32

def vmInit (numPages pageSize : UInt32) : PageTable :=
  { numPages := if numPages > vmMaxPages then vmMaxPages else numPages
    pageSize := pageSize
    freeFrames := physicalMemoryPages
    fifoHead := 0
    fifoCount := 0
    entries := fun _ => ⟨false, 0, false, false, false⟩
    frameBitmap := fun _ => 0
    fifoQueue := fun _ => 0 }

def vmGetVpn (virtualAddress pageSize : UInt32) : UInt32 := virtualAddress / pageSize

def vmGetOffset (virtualAddress pageSize : UInt32) : UInt32 := virtualAddress % pageSize

/-! ## Frames -/

/-- Bit `i % 32` of word `i / 32`. -/
def frameUsed (pt : PageTable) (i : Nat) : Bool :=
  pt.frameBitmap (i / 32) &&& (1 <<< UInt32.ofNat (i % 32)) != 0

def takeFrame (pt : PageTable) (i : Nat) : PageTable :=
  { pt with
    frameBitmap := fun w =>
      if w = i / 32 then pt.frameBitmap w ||| (1 <<< UInt32.ofNat (i % 32)) else pt.frameBitmap w
    freeFrames := pt.freeFrames - 1 }

/-- The first free frame, or 0. -/
def scanFrames (pt : PageTable) : UInt32 × PageTable :=
  match (List.range physicalMemoryPages.toNat).find? fun i => !frameUsed pt i with
  | some i => (UInt32.ofNat i, takeFrame pt i)
  | none => (0, pt)

def setEntry (pt : PageTable) (k : Nat) (e : PageTableEntry) : PageTable :=
  { pt with entries := fun i => if i = k then e else pt.entries i }

def fifoPush (pt : PageTable) (frame : UInt32) : PageTable :=
  if pt.fifoCount < physicalMemoryPages then
    { pt with
      fifoQueue := fun k =>
        if k = ((pt.fifoHead + pt.fifoCount) % physicalMemoryPages).toNat then frame else pt.fifoQueue k
      fifoCount := pt.fifoCount + 1 }
  else pt

/-- The first page that is present in the frame. -/
def pageOf (pt : PageTable) (frame : UInt32) : Option Nat :=
  (List.range pt.numPages.toNat).find? fun i =>
    (pt.entries i).present && (pt.entries i).frameNumber == frame

/-- `vm_handle_page_fault` with no frame free. -/
def evictFrame (pt : PageTable) : UInt32 × PageTable :=
  let victim := pt.fifoQueue pt.fifoHead.toNat
  let pt := { pt with
    fifoHead := (pt.fifoHead + 1) % physicalMemoryPages
    fifoCount := pt.fifoCount - 1 }
  let pt :=
    match pageOf pt victim with
    | some i => setEntry pt i { pt.entries i with present := false, valid := false }
    | none => pt
  (victim, fifoPush pt victim)

/-- The page fault that it raises with no frame free takes the second branch of
`vm_handle_page_fault`. -/
def vmAllocateFrame (pt : PageTable) : UInt32 × PageTable :=
  if pt.freeFrames = 0 then evictFrame pt else scanFrames pt

def vmHandlePageFault (pt : PageTable) : UInt32 × PageTable :=
  if pt.freeFrames > 0 then vmAllocateFrame pt else evictFrame pt

/-! ## Translation -/

/-- The page gets a frame. -/
def loadPage (pt : PageTable) (vpn : Nat) : PageTable :=
  let (frame, pt) := vmAllocateFrame pt
  let (frame, pt) := if frame ≥ physicalMemoryPages then vmHandlePageFault pt else (frame, pt)
  fifoPush
    (setEntry pt vpn
      { valid := true
        frameNumber := frame
        present := true
        dirty := false
        accessed := true }) frame

def vmTranslate (pt : PageTable) (virtualAddress : UInt32) : UInt32 × PageTable :=
  let vpn := vmGetVpn virtualAddress pt.pageSize
  let offset := vmGetOffset virtualAddress pt.pageSize
  if vpn ≥ pt.numPages then (0xFFFFFFFF, pt)
  else
    let pt := if !(pt.entries vpn.toNat).present then loadPage pt vpn.toNat else pt
    let pt := setEntry pt vpn.toNat { pt.entries vpn.toNat with accessed := true }
    ((pt.entries vpn.toNat).frameNumber * pt.pageSize + offset, pt)

def vmStep (pt : PageTable) (virtualAddress : UInt32) : PageTable := (vmTranslate pt virtualAddress).2

end MiniHardware.Arch
