import Mathlib.Order.WellFounded
import MiniHardware.Lib.Index
import MiniHardware.Lib.Trace
import MiniHardware.Network.Mac

/-!
# Learning and forwarding (`mini-network-hardware/src/switch_fabric.c`)

Every port has a table of the addresses learned on it. An address is looked up
in the tables one after the other, from port 0 on, so of the ports it was
learned on the lowest one is found, whenever it was learned there.
-/

namespace MiniHardware.Network
open Lib

/-- `SWITCH_MAX_PORTS`. -/
abbrev switchMaxPorts : Nat := 32

/-- `SWITCH_MAC_TABLE_SIZE`. -/
def switchMacTableSize : Nat := 4096

abbrev MacAddr := Vector UInt8 macAddrLen

inductive SwitchPortState where
  | down | up
deriving DecidableEq

structure SwitchMacEntry where
  mac : MacAddr
  portId : Fin switchMaxPorts
  valid : Bool

/-- Of the table, the first `mac_table_size` entries. -/
structure SwitchPort where
  state : SwitchPortState
  macTable : List SwitchMacEntry
  framesTx : UInt64
  bytesTx : UInt64

structure SwitchFabric where
  numPorts : Nat
  numPorts_le : numPorts ≤ switchMaxPorts
  ports : Fin switchMaxPorts → SwitchPort

def switchInit (numPorts : Int) : Option SwitchFabric :=
  if h : numPorts < 1 ∨ numPorts > switchMaxPorts then none
  else some ⟨numPorts.toNat, by omega, fun _ => ⟨.down, [], 0, 0⟩⟩

def switchAddPort (sw : SwitchFabric) (portId : Int) : Int × SwitchFabric :=
  if h : portId < 0 ∨ portId ≥ switchMaxPorts then (-1, sw)
  else
    let p : Fin switchMaxPorts := ⟨portId.toNat, by omega⟩
    if (sw.ports p).state = .up then (-1, sw)
    else (0, { sw with ports := Function.update sw.ports p ⟨.up, [], 0, 0⟩ })

/-- The test of both loops over a table. -/
def SwitchMacEntry.matches (e : SwitchMacEntry) (mac : MacAddr) : Bool := e.valid && e.mac == mac

/-- What `switch_learn_mac` does with the table of a port. -/
def learnIn (table : List SwitchMacEntry) (mac : MacAddr) (port : Fin switchMaxPorts) : List SwitchMacEntry :=
  match table.findIdx? fun e => e.matches mac with
  | some i => table.modify i fun e => { e with portId := port }
  | none => if table.length < switchMacTableSize then table ++ [⟨mac, port, true⟩] else table

def switchLearnMac (sw : SwitchFabric) (mac : MacAddr) (port : Int) : SwitchFabric :=
  if h : port < 0 ∨ port ≥ sw.numPorts then sw
  else
    let p : Fin switchMaxPorts := ⟨port.toNat, by have := sw.numPorts_le; omega⟩
    if (sw.ports p).state ≠ .up then sw
    else { sw with
      ports := Function.update sw.ports p { sw.ports p with macTable := learnIn (sw.ports p).macTable mac p } }

/-- The port that the table of port `p` has for an address. -/
def lookupIn (sw : SwitchFabric) (dstMac : MacAddr) (p : Fin switchMaxPorts) : Option (Fin switchMaxPorts) :=
  if (sw.ports p).state ≠ .up then none
  else ((sw.ports p).macTable.find? fun e => e.matches dstMac).map SwitchMacEntry.portId

/-- `frame` is not null. -/
def switchForward (sw : SwitchFabric) (dstMac : MacAddr) (frameLen : Int) : Int × SwitchFabric :=
  match Fin.findSome? fun p : Fin sw.numPorts => lookupIn sw dstMac (p.castLE sw.numPorts_le) with
  | some dstPort =>
    let port := sw.ports dstPort
    (dstPort.val, { sw with
      ports := Function.update sw.ports dstPort { port with
        framesTx := port.framesTx + 1
        bytesTx := port.bytesTx + UInt64.ofInt frameLen } })
  | none => (-1, sw)

/-! ## What the tables know -/

/-- The entries in the table of a port are for that port. -/
def Own (sw : SwitchFabric) : Prop := ∀ p, ∀ e ∈ (sw.ports p).macTable, e.portId = p

/-- The address is in the table of port `p`. -/
def Knows (sw : SwitchFabric) (p : Fin switchMaxPorts) (mac : MacAddr) : Prop :=
  ∃ e ∈ (sw.ports p).macTable, e.matches mac = true

theorem matches_iff {e : SwitchMacEntry} {mac : MacAddr} : e.matches mac = true ↔ e.valid = true ∧ e.mac = mac := by
  rw [SwitchMacEntry.matches, Bool.and_eq_true, beq_iff_eq]

/-- An address in the table is there for the port already. -/
theorem learnIn_eq {table : List SwitchMacEntry} {port : Fin switchMaxPorts} (own : ∀ e ∈ table, e.portId = port)
    (room : table.length < switchMacTableSize) (mac : MacAddr) :
    learnIn table mac port = if ∃ e ∈ table, e.matches mac = true then table else table ++ [⟨mac, port, true⟩] := by
  unfold learnIn
  cases found : table.findIdx? fun e => e.matches mac with
  | none =>
    have unknown := List.findIdx?_eq_none_iff.1 found
    have absent : ¬ ∃ e ∈ table, e.matches mac = true := by
      rintro ⟨e, mem, known⟩
      rw [unknown e mem] at known
      cases known
    simp only [if_pos room, if_neg absent]
  | some i =>
    obtain ⟨lt, known, -⟩ := List.findIdx?_eq_some_iff_getElem.1 found
    have present : ∃ e ∈ table, e.matches mac = true := ⟨_, List.getElem_mem lt, known⟩
    rw [if_pos present]
    apply List.ext_getElem (List.length_modify ..)
    intro k hk hk'
    have already : { table[k] with portId := port } = table[k] := by
      rw [← own _ (List.getElem_mem hk')]
    rw [List.getElem_modify]
    split
    · exact already
    · rfl

/-- After learning, the table knows the address as well. -/
theorem known_learnIn {table : List SwitchMacEntry} {port : Fin switchMaxPorts} (own : ∀ e ∈ table, e.portId = port)
    (room : table.length < switchMacTableSize) (mac other : MacAddr) :
    (∃ e ∈ learnIn table mac port, e.matches other = true) ↔ (∃ e ∈ table, e.matches other = true) ∨ other = mac := by
  rw [learnIn_eq own room]
  split
  · rename_i known
    constructor
    · exact Or.inl
    · rintro (known' | rfl)
      · exact known'
      · exact known
  · simp only [List.mem_append, List.mem_singleton, or_and_right, exists_or, exists_eq_left, matches_iff, true_and]
    exact or_congr Iff.rfl eq_comm

theorem own_learnIn {table : List SwitchMacEntry} {port : Fin switchMaxPorts} (own : ∀ e ∈ table, e.portId = port)
    (room : table.length < switchMacTableSize) (mac : MacAddr) : ∀ e ∈ learnIn table mac port, e.portId = port := by
  rw [learnIn_eq own room]
  split
  · exact own
  · intro e mem
    rcases List.mem_append.1 mem with mem | mem
    · exact own e mem
    · rw [List.mem_singleton.1 mem]

variable {sw : SwitchFabric} {dstMac : MacAddr} {p : Fin switchMaxPorts}

theorem lookupIn_eq_some (own : Own sw) (up : (sw.ports p).state = .up) (known : Knows sw p dstMac) :
    lookupIn sw dstMac p = some p := by
  rw [lookupIn, if_neg (not_not.2 up)]
  cases found : (sw.ports p).macTable.find? fun e => e.matches dstMac with
  | none =>
    obtain ⟨e, mem, known⟩ := known
    exact absurd known (List.find?_eq_none.1 found e mem)
  | some e => rw [Option.map_some, own p e (List.mem_of_find?_eq_some found)]

theorem lookupIn_eq_none (unknown : ¬ Knows sw p dstMac) : lookupIn sw dstMac p = none := by
  rw [lookupIn]
  split
  · rfl
  · rw [List.find?_eq_none.2 fun e mem known => unknown ⟨e, mem, known⟩]
    rfl

/-- The lowest port that knows the address. -/
theorem switch_forward_eq (own : Own sw) (inside : p.val < sw.numPorts) (up : ∀ q, Knows sw q dstMac → (sw.ports q).state = .up)
    (known : Knows sw p dstMac) (lowest : ∀ q, Knows sw q dstMac → p ≤ q) (frameLen : Int) :
    (switchForward sw dstMac frameLen).1 = p.val := by
  have search : (Fin.findSome? fun q : Fin sw.numPorts => lookupIn sw dstMac (q.castLE sw.numPorts_le)) = some p := by
    refine Fin.findSome?_eq_some_iff.2 ⟨⟨p.val, inside⟩, lookupIn_eq_some own (up p known) known, fun q lt => ?_⟩
    apply lookupIn_eq_none
    intro earlier
    exact absurd (lowest _ earlier) (Nat.not_le.2 lt)
  rw [switchForward, search]

/-! ## Histories -/

structure LearnCall where
  mac : MacAddr
  port : Fin switchMaxPorts

def learnStep (sw : SwitchFabric) (call : LearnCall) : SwitchFabric := switchLearnMac sw call.mac call.port.val

/-- The port is one of the switch, it is up and its table is not full. -/
def Learnable (sw : SwitchFabric) (call : LearnCall) : Prop :=
  call.port.val < sw.numPorts ∧ (sw.ports call.port).state = .up ∧
    (sw.ports call.port).macTable.length < switchMacTableSize

instance (sw : SwitchFabric) (call : LearnCall) : Decidable (Learnable sw call) :=
  inferInstanceAs (Decidable (_ ∧ _ ∧ _))

def addPorts (sw : SwitchFabric) (ports : List Int) : SwitchFabric :=
  run (fun sw portId => (switchAddPort sw portId).2) sw ports

/-- The tables know the addresses of the history, each where it was learned. -/
structure Learned (history : List LearnCall) (sw : SwitchFabric) : Prop where
  own : Own sw
  knows : ∀ p mac, Knows sw p mac ↔ ⟨mac, p⟩ ∈ history
  usable : ∀ call ∈ history, call.port.val < sw.numPorts ∧ (sw.ports call.port).state = .up

theorem learned_created {numPorts : Int} (created : switchInit numPorts = some sw) (ports : List Int) :
    Learned [] (addPorts sw ports) := by
  have start : ∀ p, (sw.ports p).macTable = [] := by
    unfold switchInit at created
    split at created
    · cases created
    · rw [← Option.some.inj created]
      exact fun _ => rfl
  have empty : ∀ p, ((addPorts sw ports).ports p).macTable = [] := by
    refine run_invariant (motive := fun sw : SwitchFabric => ∀ p, (sw.ports p).macTable = []) ?_ start ports
    intro sw portId none p
    unfold switchAddPort
    split
    · exact none p
    dsimp only
    split
    · exact none p
    · dsimp only
      rw [Function.update_apply]
      split
      · rfl
      · exact none p
  refine ⟨fun p e mem => ?_, fun p mac => ?_, fun call mem => absurd mem List.not_mem_nil⟩
  · rw [empty] at mem
    cases mem
  · rw [Knows, empty]
    simp

theorem learnStep_eq {call : LearnCall} (ok : Learnable sw call) :
    (learnStep sw call).numPorts = sw.numPorts ∧ ∀ p,
      ((learnStep sw call).ports p).state = (sw.ports p).state ∧
      ((learnStep sw call).ports p).macTable =
        if p = call.port then learnIn (sw.ports p).macTable call.mac p else (sw.ports p).macTable := by
  obtain ⟨inside, up, -⟩ := ok
  have valid : ¬((call.port.val : Int) < 0 ∨ (call.port.val : Int) ≥ sw.numPorts) := by omega
  have same : ∀ h, (⟨(call.port.val : Int).toNat, h⟩ : Fin switchMaxPorts) = call.port := fun _ => rfl
  rw [learnStep, switchLearnMac, dif_neg valid]
  dsimp only
  rw [same, if_neg (not_not.2 up)]
  refine ⟨rfl, fun p => ?_⟩
  dsimp only
  rw [Function.update_apply]
  split
  · rename_i eq
    rw [eq]
    exact ⟨rfl, rfl⟩
  · exact ⟨rfl, rfl⟩

theorem Learned.step {history : List LearnCall} (h : Learned history sw) {call : LearnCall} (ok : Learnable sw call) :
    Learned (history ++ [call]) (learnStep sw call) := by
  obtain ⟨numPorts, port⟩ := learnStep_eq ok
  obtain ⟨inside, up, room⟩ := ok
  refine ⟨fun p e mem => ?_, fun p mac => ?_, fun c mem => ?_⟩
  · rw [(port p).2] at mem
    split at mem
    · rename_i eq
      subst eq
      exact own_learnIn (h.own call.port) room call.mac e mem
    · exact h.own p e mem
  · rw [List.mem_append, List.mem_singleton, ← h.knows, Knows, (port p).2]
    split
    · rename_i eq
      subst eq
      rw [known_learnIn (h.own call.port) room]
      refine or_congr Iff.rfl ⟨?_, fun eq => congrArg LearnCall.mac eq⟩
      rintro rfl
      rfl
    · rename_i ne
      exact ⟨Or.inl, fun known => known.resolve_right fun eq => ne (congrArg LearnCall.port eq)⟩
  · rw [numPorts, (port c.port).1]
    rcases List.mem_append.1 mem with mem | mem
    · exact h.usable c mem
    · rw [List.mem_singleton.1 mem]
      exact ⟨inside, up⟩

theorem Learned.run {history : List LearnCall} (h : Learned history sw) {calls : List LearnCall}
    (ok : Guarded learnStep Learnable sw calls) : Learned (history ++ calls) (run learnStep sw calls) := by
  induction calls generalizing sw history with
  | nil =>
    rw [List.append_nil]
    exact h
  | cons call calls ih =>
    have next := ih (h.step ok.1) ok.2
    rw [List.append_assoc] at next
    exact next

/-- **A frame goes to the port its address was learned on last,** exactly when that is the lowest of
the ports it was learned on. -/
theorem switch_forward_follows_iff {numPorts : Int} (created : switchInit numPorts = some sw) (ports : List Int)
    (before after : List LearnCall) (call : LearnCall)
    (ok : Guarded learnStep Learnable (addPorts sw ports) (before ++ call :: after))
    (last : ∀ c ∈ after, c.mac ≠ call.mac) (frameLen : Int) :
    (switchForward (run learnStep (addPorts sw ports) (before ++ call :: after)) call.mac frameLen).1 = call.port.val ↔
      ∀ c ∈ before, c.mac = call.mac → call.port ≤ c.port := by
  have h := (learned_created created ports).run ok
  rw [List.nil_append] at h
  generalize run learnStep (addPorts sw ports) (before ++ call :: after) = sw' at h
  have known : ∀ q, Knows sw' q call.mac ↔ q = call.port ∨ ⟨call.mac, q⟩ ∈ before := by
    intro q
    rw [h.knows, List.mem_append, List.mem_cons]
    constructor
    · rintro (mem | eq | mem)
      · exact Or.inr mem
      · exact Or.inl (congrArg LearnCall.port eq)
      · exact absurd rfl (last ⟨call.mac, q⟩ mem)
    · rintro (rfl | mem)
      · exact Or.inr (Or.inl rfl)
      · exact Or.inl mem
  have up : ∀ q, Knows sw' q call.mac → (sw'.ports q).state = .up :=
    fun q learned => (h.usable _ ((h.knows q call.mac).1 learned)).2
  have forward : ∀ p, Knows sw' p call.mac → (∀ q, Knows sw' q call.mac → p ≤ q) →
      (switchForward sw' call.mac frameLen).1 = p.val :=
    fun p learned lowest =>
      switch_forward_eq h.own (h.usable _ ((h.knows p call.mac).1 learned)).1 up learned lowest frameLen
  constructor
  · intro here c mem eq
    obtain ⟨p, learned, lowest⟩ := wellFounded_lt.has_min {q | Knows sw' q call.mac} ⟨_, (known call.port).2 (Or.inl rfl)⟩
    have there := forward p learned fun q knows => not_lt.1 (lowest q knows)
    rw [here] at there
    have same : call.port = p := Fin.ext (Int.ofNat.inj there)
    rw [same]
    exact not_lt.1 (lowest c.port ((known c.port).2 (Or.inr (eq ▸ mem))))
  · intro lowest
    refine forward call.port ((known call.port).2 (Or.inl rfl)) fun q knows => ?_
    rcases (known q).1 knows with rfl | mem
    · exact le_refl _
    · exact lowest _ mem rfl

/-- A station, and a switch with two ports. -/
def station : MacAddr := #v[0x02, 0, 0, 0, 0, 0x01]

def twoPorts : SwitchFabric := ⟨2, by decide, fun _ => ⟨.down, [], 0, 0⟩⟩

theorem twoPorts_created : switchInit 2 = some twoPorts := rfl

/-- It moves from port 1 to port 0. -/
theorem switch_forward_follows_down :
    (switchForward (run learnStep (addPorts twoPorts [0, 1]) [⟨station, 1⟩, ⟨station, 0⟩]) station 64).1 = 0 ↔
      ∀ c ∈ [LearnCall.mk station 1], c.mac = station → (0 : Fin switchMaxPorts) ≤ c.port :=
  switch_forward_follows_iff twoPorts_created [0, 1] [⟨station, 1⟩] [] ⟨station, 0⟩ (by decide)
    (fun _ mem => absurd mem List.not_mem_nil) 64

/-- It moves from port 0 to port 1, and frames still go to port 0. -/
theorem switch_forward_stale :
    Guarded learnStep Learnable (addPorts twoPorts [0, 1]) [⟨station, 0⟩, ⟨station, 1⟩] ∧
      (switchForward (run learnStep (addPorts twoPorts [0, 1]) [⟨station, 0⟩, ⟨station, 1⟩]) station 64).1 ≠ 1 := by
  decide

end MiniHardware.Network
