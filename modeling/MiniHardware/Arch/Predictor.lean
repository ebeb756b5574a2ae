import MiniHardware.Lib.Mistakes
import MiniHardware.Lib.Index
import MiniHardware.Lib.Nest

/-!
# Branch prediction (`mini-computer-arch/src/predictor.c`)

The bimodal, the two-level and the gshare predictor are tables of two-bit
counters that differ in the entry they ask; the tournament asks a third table
which of two of them to follow. All four are bounded through the library's tables
of counters. `bp_update` predicts again before it learns, so a caller that
predicted first is counted twice (`bpCompare_accuracy`). The 64-bit counts of
predictions are numbers, as in runs that do not wrap them.
-/

namespace MiniHardware.Arch
open Lib Lib.Counters

/-- `PRED_BHT_SIZE`. -/
abbrev predBhtSize : Nat := 1024

/-- `PRED_PHT_SIZE`. -/
abbrev predPhtSize : Nat := 4096

/-! ## Bimodal -/

/-- Strongly and weakly not taken, weakly and strongly taken. -/
inductive TwoBitState where
  | snt | wnt | wt | st
deriving DecidableEq

structure BimodalPredictor where
  counters : Vector TwoBitState predBhtSize
  predictions : Nat
  correct : Nat

def bimodalInit : BimodalPredictor := ⟨Vector.replicate predBhtSize .wt, 0, 0⟩

/-- A masked index is inside its table. -/
theorem and_mask_lt (x mask : UInt32) {n : Nat} (lt : mask.toNat < n) : (x &&& mask).toNat < n := by
  rw [UInt32.toNat_and]
  exact Nat.lt_of_le_of_lt Nat.and_le_right lt

def bimodalIndex (pc : UInt32) : Fin predBhtSize := ⟨((pc >>> 2) &&& 1023).toNat, and_mask_lt _ _ (by decide)⟩

/-- Whether the state is `WT` or `ST`. -/
def TwoBitState.taken (state : TwoBitState) : Bool := state == .wt || state == .st

/-- The switch of `bimodal_update`. -/
def TwoBitState.next : TwoBitState → Bool → TwoBitState
  | .snt, taken => if taken then .wnt else .snt
  | .wnt, taken => if taken then .wt else .snt
  | .wt, taken => if taken then .st else .wnt
  | .st, taken => if taken then .st else .wt

def bimodalPredict (b : BimodalPredictor) (pc : UInt32) : Bool := (b.counters.get (bimodalIndex pc)).taken

def bimodalUpdate (b : BimodalPredictor) (pc : UInt32) (taken : Bool) : BimodalPredictor :=
  let idx := bimodalIndex pc
  { counters := b.counters.set idx ((b.counters.get idx).next taken)
    predictions := b.predictions + 1
    correct := b.correct + (bimodalPredict b pc == taken).toNat }

/-! ## Two-level and gshare -/

/-- `TwoLevelPredictor` and `GsharePredictor`: the history is the `bhr` of the one and the `ghr` of the
other. -/
structure HistoryPredictor where
  history : UInt16
  pht : Vector UInt8 predPhtSize
  predictions : Nat
  correct : Nat

/-- Where `twolevel_init` and `gshare_init` set every counter to `start`. -/
def historyInit (start : UInt8) : HistoryPredictor := ⟨0, Vector.replicate predPhtSize start, 0, 0⟩

/-- `twolevel_predict` and `gshare_predict`, from the entry on. -/
def phtPredict (p : HistoryPredictor) (idx : Fin predPhtSize) : Bool := decide (2 ≤ p.pht.get idx)

/-- `twolevel_update` and `gshare_update`, from the entry on. -/
def phtUpdate (p : HistoryPredictor) (idx : Fin predPhtSize) (taken : Bool) : HistoryPredictor :=
  let ctr := p.pht.get idx
  { pht :=
      if taken && decide (ctr < 3) then p.pht.set idx (ctr + 1)
      else if !taken && decide (0 < ctr) then p.pht.set idx (ctr - 1)
      else p.pht
    history := ((p.history <<< 1) ||| (if taken then 1 else 0)) &&& 0xFFF
    predictions := p.predictions + 1
    correct := p.correct + (phtPredict p idx == taken).toNat }

def twolevelInit : HistoryPredictor := historyInit 1

def twolevelIndex (tl : HistoryPredictor) (pc : UInt32) : Fin predPhtSize :=
  ⟨(((pc >>> 2) ^^^ (tl.history.toUInt32 <<< 4)) &&& 4095).toNat, and_mask_lt _ _ (by decide)⟩

def twolevelPredict (tl : HistoryPredictor) (pc : UInt32) : Bool := phtPredict tl (twolevelIndex tl pc)

def twolevelUpdate (tl : HistoryPredictor) (pc : UInt32) (taken : Bool) : HistoryPredictor :=
  phtUpdate tl (twolevelIndex tl pc) taken

def gshareInit : HistoryPredictor := historyInit 2

def gshareIndex (g : HistoryPredictor) (pc : UInt32) : Fin predPhtSize :=
  ⟨(((pc >>> 2) ^^^ g.history.toUInt32) &&& 4095).toNat, and_mask_lt _ _ (by decide)⟩

def gsharePredict (g : HistoryPredictor) (pc : UInt32) : Bool := phtPredict g (gshareIndex g pc)

def gshareUpdate (g : HistoryPredictor) (pc : UInt32) (taken : Bool) : HistoryPredictor :=
  phtUpdate g (gshareIndex g pc) taken

/-! ## Tournament -/

structure TournamentPredictor where
  localPart : BimodalPredictor
  globalPart : HistoryPredictor
  choiceTable : Vector TwoBitState predBhtSize
  predictions : Nat
  correct : Nat

def tournamentInit : TournamentPredictor := ⟨bimodalInit, gshareInit, Vector.replicate predBhtSize .wt, 0, 0⟩

def tournamentPredict (t : TournamentPredictor) (pc : UInt32) : Bool :=
  if (t.choiceTable.get (bimodalIndex pc)).taken then gsharePredict t.globalPart pc
  else bimodalPredict t.localPart pc

/-- `choice--` above `SNT`. -/
def TwoBitState.dec : TwoBitState → TwoBitState
  | .snt => .snt
  | .wnt => .snt
  | .wt => .wnt
  | .st => .wt

/-- `choice++` below `ST`. -/
def TwoBitState.inc : TwoBitState → TwoBitState
  | .snt => .wnt
  | .wnt => .wt
  | .wt => .st
  | .st => .st

def tournamentUpdate (t : TournamentPredictor) (pc : UInt32) (taken : Bool) : TournamentPredictor :=
  let idx := bimodalIndex pc
  let localPred := bimodalPredict t.localPart pc
  let globalPred := gsharePredict t.globalPart pc
  { localPart := bimodalUpdate t.localPart pc taken
    globalPart := gshareUpdate t.globalPart pc taken
    choiceTable :=
      if localPred == taken && globalPred != taken then t.choiceTable.set idx (t.choiceTable.get idx).dec
      else if globalPred == taken && localPred != taken then t.choiceTable.set idx (t.choiceTable.get idx).inc
      else t.choiceTable
    predictions := t.predictions + 1
    correct := t.correct + (tournamentPredict t pc == taken).toNat }

/-! ## The unified predictor -/

inductive PredictorType where
  | simple | bimodal | twoLevel | gshare | tournament | tage | perceptron
deriving DecidableEq

/-- `PRED_BTB_SIZE`. -/
abbrev predBtbSize : Nat := 512

structure BTBEntry where
  tag : UInt32
  target : UInt32
  valid : Bool
  type : UInt8

structure BranchTargetBuffer where
  entries : Vector BTBEntry predBtbSize
  accesses : Nat
  hits : Nat
  misses : Nat

def btbInit : BranchTargetBuffer := ⟨Vector.replicate predBtbSize ⟨0, 0, false, 0⟩, 0, 0, 0⟩

def btbHash (pc : UInt32) : Fin predBtbSize := ⟨((pc >>> 2) &&& 511).toNat, and_mask_lt _ _ (by decide)⟩

/-- The target and the type found, and the buffer afterwards. -/
def btbLookup (btb : BranchTargetBuffer) (pc : UInt32) : Option (UInt32 × UInt8) × BranchTargetBuffer :=
  let e := btb.entries.get (btbHash pc)
  if e.valid && e.tag == pc >>> 2 then
    (some (e.target, e.type), { btb with accesses := btb.accesses + 1, hits := btb.hits + 1 })
  else (none, { btb with accesses := btb.accesses + 1, misses := btb.misses + 1 })

def btbUpdate (btb : BranchTargetBuffer) (pc target : UInt32) (type : UInt8) : BranchTargetBuffer :=
  { btb with entries := btb.entries.set (btbHash pc) ⟨pc >>> 2, target, true, type⟩ }

structure BranchPredictor where
  type : PredictorType
  bimodal : BimodalPredictor
  twolevel : HistoryPredictor
  gshare : HistoryPredictor
  tournament : TournamentPredictor
  btb : BranchTargetBuffer
  totalBranches : Nat
  totalCorrect : Nat
  cyclesSaved : Nat

/-- `bp_init`; a predictor of another type is left zero, and is never asked. -/
def bpInit (type : PredictorType) : BranchPredictor :=
  let zeroBimodal : BimodalPredictor := ⟨Vector.replicate predBhtSize .snt, 0, 0⟩
  let zeroTournament : TournamentPredictor := ⟨zeroBimodal, historyInit 0, Vector.replicate predBhtSize .snt, 0, 0⟩
  { type := type
    bimodal := if type = .bimodal then bimodalInit else zeroBimodal
    twolevel := if type = .twoLevel then twolevelInit else historyInit 0
    gshare := if type = .gshare then gshareInit else historyInit 0
    tournament := if type = .tournament then tournamentInit else zeroTournament
    btb := btbInit
    totalBranches := 0
    totalCorrect := 0
    cyclesSaved := 0 }

/-- The switch of `bp_predict`. -/
def bpPrediction (bp : BranchPredictor) (pc : UInt32) : Bool :=
  match bp.type with
  | .simple => true
  | .bimodal => bimodalPredict bp.bimodal pc
  | .twoLevel => twolevelPredict bp.twolevel pc
  | .gshare => gsharePredict bp.gshare pc
  | .tournament => tournamentPredict bp.tournament pc
  | .tage => false
  | .perceptron => false

def bpPredict (bp : BranchPredictor) (pc : UInt32) : Bool × BranchPredictor :=
  (bpPrediction bp pc, { bp with totalBranches := bp.totalBranches + 1 })

/-- The switch of `bp_update`. -/
def bpLearn (bp : BranchPredictor) (pc : UInt32) (taken : Bool) : BranchPredictor :=
  match bp.type with
  | .bimodal => { bp with bimodal := bimodalUpdate bp.bimodal pc taken }
  | .twoLevel => { bp with twolevel := twolevelUpdate bp.twolevel pc taken }
  | .gshare => { bp with gshare := gshareUpdate bp.gshare pc taken }
  | .tournament => { bp with tournament := tournamentUpdate bp.tournament pc taken }
  | _ => bp

def bpUpdate (bp : BranchPredictor) (pc : UInt32) (taken : Bool) (target : UInt32) : BranchPredictor :=
  let (prediction, bp) := bpPredict bp pc
  let bp := { bp with totalCorrect := bp.totalCorrect + (prediction == taken).toNat }
  let bp := bpLearn bp pc taken
  if taken then { bp with btb := btbUpdate bp.btb pc target 3, cyclesSaved := bp.cyclesSaved + 2 } else bp

structure Branch where
  pc : UInt32
  taken : Bool
  target : UInt32

/-- A round of `bp_compare_predictors`, for one of its predictors. -/
def bpRound (bp : BranchPredictor) (b : Branch) : BranchPredictor :=
  bpUpdate (bpPredict bp b.pc).2 b.pc b.taken b.target

/-- The predictor after the loop of `bp_compare_predictors`. -/
def bpCompare (type : PredictorType) (trace : List Branch) : BranchPredictor := run bpRound (bpInit type) trace

/-! ## The counters as a table -/

def TwoBitState.level : TwoBitState → Nat
  | .snt => 0
  | .wnt => 1
  | .wt => 2
  | .st => 3

/-- A two-bit state moves like a counter that is trained. -/
theorem level_next (state : TwoBitState) (taken : Bool) :
    (state.next taken).level = train 2 state.level taken := by
  cases state <;> cases taken <;> rfl

/-- The two-bit state predicts like a saturating counter. -/
theorem taken_eq_guess (state : TwoBitState) : state.taken = guess 2 state.level := by
  cases state <;> rfl

theorem level_inc (state : TwoBitState) : state.inc.level = train 2 state.level true := by
  cases state <;> rfl

theorem level_dec (state : TwoBitState) : state.dec.level = train 2 state.level false := by
  cases state <;> rfl

/-- The counters by the numbers of their entries, and `start` elsewhere. -/
def levels {α : Type} {n : Nat} (level : α → Nat) (start : Nat) (counters : Vector α n) (i : Nat) : Nat :=
  if h : i < n then level (counters.get ⟨i, h⟩) else start

section Levels
variable {α : Type} {n : Nat} (level : α → Nat) (start : Nat) (counters : Vector α n)

theorem levels_val (i : Fin n) : levels level start counters i.val = level (counters.get i) := dif_pos i.isLt

/-- Writing one entry changes one level. -/
theorem levels_set (i : Fin n) (x : α) :
    levels level start (counters.set i x i.isLt) = Function.update (levels level start counters) i.val (level x) := by
  funext k
  rw [Function.update_apply]
  unfold levels
  by_cases lt : k < n
  · rw [dif_pos lt, dif_pos lt, get_set]
    by_cases here : k = i.val
    · rw [if_pos (Fin.ext here), if_pos here]
    · rw [if_neg fun eq => here (congrArg Fin.val eq), if_neg here]
  · rw [dif_neg lt, dif_neg lt, if_neg]
    intro eq
    exact lt (eq ▸ i.isLt)

theorem levels_replicate (x : α) : levels level (level x) (Vector.replicate n x) = fun _ => level x := by
  funext k
  unfold levels
  split
  · rw [get_replicate]
  · rfl

end Levels

def bimodalLevels (b : BimodalPredictor) : Nat → Nat := levels TwoBitState.level 2 b.counters

/-- An update trains the counter that the branch asks. -/
theorem bimodal_learns (b : BimodalPredictor) (pc : UInt32) (taken : Bool) :
    bimodalLevels (bimodalUpdate b pc taken) = learn 2 (bimodalLevels b) (some ((bimodalIndex pc).val, taken)) := by
  rw [bimodalLevels, bimodalUpdate, levels_set, level_next, ← levels_val TwoBitState.level 2 b.counters]
  rfl

/-- The prediction is the guess of that counter. -/
theorem bimodal_guesses (b : BimodalPredictor) (pc : UInt32) :
    bimodalPredict b pc = guess 2 (bimodalLevels b (bimodalIndex pc).val) := by
  rw [bimodalLevels, levels_val]
  exact taken_eq_guess _

def phtLevels (start : Nat) (p : HistoryPredictor) : Nat → Nat := levels UInt8.toNat start p.pht

/-- An update of the pattern table trains the counter asked. -/
theorem pht_learns (start : Nat) (p : HistoryPredictor) (idx : Fin predPhtSize) (taken : Bool) :
    phtLevels start (phtUpdate p idx taken) = learn 2 (phtLevels start p) (some (idx.val, taken)) := by
  have value : phtLevels start p idx.val = (p.pht.get idx).toNat := levels_val _ _ _ _
  rw [learn, value]
  -- a counter that stays is written back
  have same : Function.update (phtLevels start p) idx.val (p.pht.get idx).toNat = phtLevels start p := by
    rw [← value, Function.update_eq_self]
  have moved (x : UInt8) : levels UInt8.toNat start (p.pht.set idx x) =
      Function.update (phtLevels start p) idx.val x.toNat := levels_set _ _ _ _ _
  rw [phtLevels, phtUpdate]
  cases taken with
  | true =>
    rcases Nat.lt_or_ge (p.pht.get idx).toNat 3 with below | top
    · have lt : p.pht.get idx < 3 := UInt8.lt_iff_toNat_lt.2 below
      have next : (p.pht.get idx + 1).toNat = (p.pht.get idx).toNat + 1 := by
        rw [UInt8.toNat_add]
        exact Nat.mod_eq_of_lt (Nat.lt_trans (Nat.succ_lt_succ below) (by decide))
      simp only [lt, decide_true, Bool.and_self, if_true, moved, next, train]
      rw [if_pos below]
    · have le : ¬ p.pht.get idx < 3 := fun lt => Nat.not_lt.2 top (UInt8.lt_iff_toNat_lt.1 lt)
      simp only [le, decide_false, Bool.and_false, Bool.not_true, Bool.false_and, Bool.false_eq_true, if_false,
        if_true, train]
      rw [if_neg (Nat.not_lt.2 top), same]
      rfl
  | false =>
    rcases Nat.eq_zero_or_pos (p.pht.get idx).toNat with zero | pos
    · have stuck : ¬ 0 < p.pht.get idx := fun lt => Nat.ne_of_gt (UInt8.lt_iff_toNat_lt.1 lt) zero
      simp only [stuck, decide_false, Bool.and_false, Bool.false_and, Bool.false_eq_true, if_false, train]
      have stays : (p.pht.get idx).toNat - 1 = (p.pht.get idx).toNat := by omega
      rw [stays, same]
      rfl
    · have lt : 0 < p.pht.get idx := UInt8.lt_iff_toNat_lt.2 pos
      have next : (p.pht.get idx - 1).toNat = (p.pht.get idx).toNat - 1 :=
        UInt8.toNat_sub_of_le _ _ (UInt8.le_iff_toNat_le.2 pos)
      simp only [lt, decide_true, Bool.not_false, Bool.and_self, Bool.false_and, Bool.false_eq_true, if_false,
        if_true, moved, next, train]

/-- The prediction of the pattern table is that counter's guess. -/
theorem pht_guesses (start : Nat) (p : HistoryPredictor) (idx : Fin predPhtSize) :
    phtPredict p idx = guess 2 (phtLevels start p idx.val) := by
  rw [phtLevels, levels_val]
  exact decide_eq_decide.2 UInt8.le_iff_toNat_le

def choiceLevels (t : TournamentPredictor) : Nat → Nat := levels TwoBitState.level 2 t.choiceTable

/-- The choice's outcome is whether the global part was the right one, where the parts differ. -/
def tournamentAsks (t : TournamentPredictor) (pc : UInt32) (taken : Bool) : Option (Nat × Bool) :=
  let globalPred := gsharePredict t.globalPart pc
  if bimodalPredict t.localPart pc = globalPred then none else some ((bimodalIndex pc).val, globalPred == taken)

/-- The chooser is trained where its two parts disagree. -/
theorem choice_learns (t : TournamentPredictor) (pc : UInt32) (taken : Bool) :
    choiceLevels (tournamentUpdate t pc taken) = learn 2 (choiceLevels t) (tournamentAsks t pc taken) := by
  have value : choiceLevels t (bimodalIndex pc).val = (t.choiceTable.get (bimodalIndex pc)).level :=
    levels_val _ _ _ _
  rw [choiceLevels, tournamentUpdate, tournamentAsks]
  generalize bimodalPredict t.localPart pc = localPred
  generalize gsharePredict t.globalPart pc = globalPred
  have right : learn 2 (choiceLevels t) (some ((bimodalIndex pc).val, true)) =
      levels TwoBitState.level 2 (t.choiceTable.set (bimodalIndex pc) (t.choiceTable.get (bimodalIndex pc)).inc) := by
    rw [learn, value, levels_set, level_inc, choiceLevels]
  have wrong : learn 2 (choiceLevels t) (some ((bimodalIndex pc).val, false)) =
      levels TwoBitState.level 2 (t.choiceTable.set (bimodalIndex pc) (t.choiceTable.get (bimodalIndex pc)).dec) := by
    rw [learn, value, levels_set, level_dec, choiceLevels]
  cases localPred <;> cases globalPred <;> cases taken <;> first | rfl | exact right.symm | exact wrong.symm

/-! ## What is asked -/

/-- The entry that a branch asks: of the type's table, or of the choice table. -/
def bpEntry (bp : BranchPredictor) (b : Branch) : Nat :=
  match bp.type with
  | .bimodal | .tournament => (bimodalIndex b.pc).val
  | .twoLevel => (twolevelIndex bp.twolevel b.pc).val
  | .gshare => (gshareIndex bp.gshare b.pc).val
  | _ => 0

/-- The question that a branch puts to the table that its type has. -/
def bpAsks (bp : BranchPredictor) (b : Branch) : Option (Nat × Bool) :=
  match bp.type with
  | .bimodal | .twoLevel | .gshare => some (bpEntry bp b, b.taken)
  | .tournament => tournamentAsks bp.tournament b.pc b.taken
  | _ => none

def bpLevels (bp : BranchPredictor) : Nat → Nat :=
  match bp.type with
  | .bimodal => bimodalLevels bp.bimodal
  | .twoLevel => phtLevels 1 bp.twolevel
  | .gshare => phtLevels 2 bp.gshare
  | .tournament => choiceLevels bp.tournament
  | _ => fun _ => 0

/-- A round, but for the counts and the buffer, is the type's own update. -/
theorem bpRound_eq (bp : BranchPredictor) (b : Branch) :
    bpRound bp b =
      { bpLearn bp b.pc b.taken with
        totalBranches := bp.totalBranches + 2
        totalCorrect := bp.totalCorrect + (bpPrediction bp b.pc == b.taken).toNat
        btb := if b.taken then btbUpdate bp.btb b.pc b.target 3 else bp.btb
        cyclesSaved := bp.cyclesSaved + if b.taken then 2 else 0 } := by
  obtain ⟨type, bimodal, twolevel, gshare, tournament, btb, totalBranches, totalCorrect, cyclesSaved⟩ := bp
  obtain ⟨pc, taken, target⟩ := b
  cases type <;> cases taken <;> rfl

theorem bpRound_type (bp : BranchPredictor) (b : Branch) : (bpRound bp b).type = bp.type := by
  rw [bpRound_eq]
  unfold bpLearn
  cases type : bp.type <;> simp only [type]

/-- A round trains the counter that the predictor's type asks. -/
theorem bpRound_learns (bp : BranchPredictor) (b : Branch) :
    bpLevels (bpRound bp b) = learn 2 (bpLevels bp) (bpAsks bp b) := by
  have type := bpRound_type bp b
  rw [bpLevels, type, bpLevels, bpAsks, bpEntry, bpRound_eq]
  unfold bpLearn
  cases bp.type with
  | bimodal => exact bimodal_learns bp.bimodal b.pc b.taken
  | twoLevel => exact pht_learns 1 bp.twolevel _ b.taken
  | gshare => exact pht_learns 2 bp.gshare _ b.taken
  | tournament => exact choice_learns bp.tournament b.pc b.taken
  | simple => rfl
  | tage => rfl
  | perceptron => rfl

/-- What the counters start at, for the types that have a table of their own. -/
def startLevel : PredictorType → Nat
  | .bimodal | .gshare | .tournament => 2
  | .twoLevel => 1
  | _ => 0

theorem bpLevels_init (type : PredictorType) : bpLevels (bpInit type) = fun _ => startLevel type := by
  cases type with
  | bimodal => exact levels_replicate TwoBitState.level .wt
  | twoLevel => exact levels_replicate UInt8.toNat 1
  | gshare => exact levels_replicate UInt8.toNat 2
  | tournament => exact levels_replicate TwoBitState.level .wt
  | simple => rfl
  | tage => rfl
  | perceptron => rfl

/-! ## Mistakes -/

/-- Whether the prediction for the branch is wrong. -/
def missed (bp : BranchPredictor) (b : Branch) : Bool := bpPrediction bp b.pc != b.taken

/-- Both counts of the loop. -/
theorem bpCompare_totals (type : PredictorType) (trace : List Branch) :
    (bpCompare type trace).totalBranches = 2 * trace.length ∧
      (bpCompare type trace).totalCorrect +
        tally bpRound (fun bp b => (missed bp b).toNat) (bpInit type) trace = trace.length := by
  constructor
  · have total : (run bpRound (bpInit type) trace).totalBranches =
        0 + tally bpRound (fun _ _ => 2) (bpInit type) trace :=
      counter_run (fun bp b => by rw [bpRound_eq]) (bpInit type) trace
    rw [tally_const, Nat.zero_add, Nat.mul_comm] at total
    exact total
  · have right : (run bpRound (bpInit type) trace).totalCorrect =
        0 + tally bpRound (fun bp b => (bpPrediction bp b.pc == b.taken).toNat) (bpInit type) trace :=
      counter_run (fun bp b => by rw [bpRound_eq]) (bpInit type) trace
    have split : tally bpRound (fun bp b => (bpPrediction bp b.pc == b.taken).toNat) (bpInit type) trace +
        tally bpRound (fun bp b => (missed bp b).toNat) (bpInit type) trace =
        tally bpRound (fun _ _ => 1) (bpInit type) trace :=
      tally_add (fun bp b => by rw [missed]; cases bpPrediction bp b.pc <;> cases b.taken <;> rfl) _ _
    rw [tally_const, Nat.mul_one] at split
    rw [Nat.zero_add] at right
    rw [bpCompare, right]
    exact split

/-- How many branches of the trace the comparison counts as not predicted right. -/
def misses (type : PredictorType) (trace : List Branch) : Nat :=
  trace.length - (bpCompare type trace).totalCorrect

/-- The mispredictions of a run, added up branch by branch. -/
theorem misses_eq (type : PredictorType) (trace : List Branch) :
    misses type trace = tally bpRound (fun bp b => (missed bp b).toNat) (bpInit type) trace := by
  have totals := (bpCompare_totals type trace).2
  rw [misses]
  omega

/-- Whether the branch goes another way than `side` says for its entry. -/
def strays (side : Nat → Bool) (bp : BranchPredictor) (b : Branch) : Bool := b.taken != side (bpEntry bp b)

/-- The entries of the type's table that the trace asks. -/
def entriesAsked (type : PredictorType) (trace : List Branch) : Finset Nat :=
  asked bpRound bpAsks (bpInit type) trace

/-- The mistakes of the counters are bounded by what strays from a fixed side of each. -/
theorem tally_asked_le (type : PredictorType) (side : Nat → Bool) (trace : List Branch) :
    tally bpRound (fun bp b => (mistake 2 (bpLevels bp) (bpAsks bp b)).toNat) (bpInit type) trace ≤
      2 * tally bpRound (fun bp b => (excepted side (bpAsks bp b)).toNat) (bpInit type) trace +
        ∑ i ∈ entriesAsked type trace, debt 2 (startLevel type) (side i) := by
  have two : 0 < 2 := by decide
  have bound := tally_mistakes_le two side bpRound_learns (bpInit type) trace
  rw [bpLevels_init] at bound
  exact bound

/-- For the three tables a misprediction is a mistake of the counter asked. -/
theorem missed_eq_mistake {bp : BranchPredictor} (b : Branch)
    (counters : bp.type = .bimodal ∨ bp.type = .twoLevel ∨ bp.type = .gshare) :
    missed bp b = mistake 2 (bpLevels bp) (bpAsks bp b) := by
  rw [missed, bpPrediction, bpAsks, bpLevels, bpEntry]
  rcases counters with type | type | type
  · rw [type]
    exact congrArg (· != b.taken) (bimodal_guesses _ _)
  · rw [type]
    exact congrArg (· != b.taken) (pht_guesses 1 _ _)
  · rw [type]
    exact congrArg (· != b.taken) (pht_guesses 2 _ _)

/-- A branch strays if its outcome is not its counter's fixed side. -/
theorem strays_eq_excepted {bp : BranchPredictor} (side : Nat → Bool) (b : Branch)
    (counters : bp.type = .bimodal ∨ bp.type = .twoLevel ∨ bp.type = .gshare) :
    strays side bp b = excepted side (bpAsks bp b) := by
  rw [strays, bpAsks]
  rcases counters with type | type | type <;> rw [type] <;> rfl

/-- A predictor with one table of counters, against any direction fixed for each entry in hindsight. -/
theorem bpCompare_static {type : PredictorType} (counters : type = .bimodal ∨ type = .twoLevel ∨ type = .gshare)
    (side : Nat → Bool) (trace : List Branch) :
    misses type trace ≤ 2 * tally bpRound (fun bp b => (strays side bp b).toNat) (bpInit type) trace +
      ((entriesAsked type trace).filter fun i => side i = !guess 2 (startLevel type)).card := by
  have bound := tally_asked_le type side trace
  have stay (bp : BranchPredictor) (b : Branch) (eq : bp.type = type) : (bpRound bp b).type = type :=
    (bpRound_type bp b).trans eq
  rw [← tally_congr (fun bp => bp.type = type) stay
      (fun bp b eq => congrArg Bool.toNat (missed_eq_mistake b (eq ▸ counters))) rfl trace,
    ← tally_congr (fun bp => bp.type = type) stay
      (fun bp b eq => congrArg Bool.toNat (strays_eq_excepted side b (eq ▸ counters))) rfl trace] at bound
  have owed : ∑ i ∈ entriesAsked type trace, debt 2 (startLevel type) (side i) =
      ((entriesAsked type trace).filter fun i => side i = !guess 2 (startLevel type)).card := by
    apply sum_debt_const (guess 2 (startLevel type))
    · rcases counters with rfl | rfl | rfl <;> rfl
    · rcases counters with rfl | rfl | rfl <;> rfl
  rw [owed] at bound
  rw [misses_eq]
  exact bound

/-- A loop branch, taken three times and then left. -/
def loopBranch : List Branch := [⟨64, true, 32⟩, ⟨64, true, 32⟩, ⟨64, true, 32⟩, ⟨64, false, 68⟩]

theorem bpCompare_static_loopBranch : misses .bimodal loopBranch ≤
    2 * tally bpRound (fun bp b => (strays (fun _ => true) bp b).toNat) (bpInit .bimodal) loopBranch +
      ((entriesAsked .bimodal loopBranch).filter fun _ => true = !guess 2 (startLevel .bimodal)).card :=
  bpCompare_static (.inl rfl) (fun _ => true) loopBranch

/-- Whether the part that `side` follows at the branch's entry is wrong: the global one, or the local one. -/
def expertMissed (side : Nat → Bool) (bp : BranchPredictor) (b : Branch) : Bool :=
  (if side (bimodalIndex b.pc).val then gsharePredict bp.tournament.globalPart b.pc
    else bimodalPredict bp.tournament.localPart b.pc) != b.taken

/-- Where the parts agree, the choice does not matter. -/
def bothMissed (bp : BranchPredictor) (b : Branch) : Bool :=
  bimodalPredict bp.tournament.localPart b.pc == gsharePredict bp.tournament.globalPart b.pc &&
    bimodalPredict bp.tournament.localPart b.pc != b.taken

/-- The tournament misses where its chooser errs, and where both parts do. -/
theorem tournament_missed {bp : BranchPredictor} (type : bp.type = .tournament) (b : Branch) :
    (mistake 2 (bpLevels bp) (bpAsks bp b)).toNat + (bothMissed bp b).toNat = (missed bp b).toNat := by
  have choice : (bp.tournament.choiceTable.get (bimodalIndex b.pc)).taken =
      guess 2 (choiceLevels bp.tournament (bimodalIndex b.pc).val) := by
    rw [choiceLevels, levels_val]
    exact taken_eq_guess _
  rw [bpLevels, bpAsks, missed, bpPrediction, type, bothMissed]
  dsimp only
  rw [tournamentPredict, tournamentAsks, choice]
  generalize guessed : guess 2 (choiceLevels bp.tournament (bimodalIndex b.pc).val) = global
  have errs (outcome : Bool) : mistake 2 (choiceLevels bp.tournament) (some ((bimodalIndex b.pc).val, outcome)) =
      (global != outcome) := congrArg (· != outcome) guessed
  cases bimodalPredict bp.tournament.localPart b.pc <;> cases gsharePredict bp.tournament.globalPart b.pc <;>
    simp only [errs, if_true, if_false, reduceCtorEq] <;> cases global <;> cases b.taken <;> rfl

/-- A fixed choice of the parts misses where both do, and where what the selector is taught goes against it. -/
theorem tournament_expertMissed {bp : BranchPredictor} (type : bp.type = .tournament) (side : Nat → Bool)
    (b : Branch) :
    (excepted side (bpAsks bp b)).toNat + (bothMissed bp b).toNat = (expertMissed side bp b).toNat := by
  rw [bpAsks, type, bothMissed, expertMissed]
  dsimp only
  rw [tournamentAsks]
  generalize followed : side (bimodalIndex b.pc).val = global
  have excepts (outcome : Bool) : excepted side (some ((bimodalIndex b.pc).val, outcome)) = (outcome != global) :=
    congrArg (outcome != ·) followed
  cases bimodalPredict bp.tournament.localPart b.pc <;> cases gsharePredict bp.tournament.globalPart b.pc <;>
    simp only [excepts, if_true, if_false, reduceCtorEq] <;> cases global <;> cases b.taken <;> rfl

/-- The tournament, against any part fixed for each entry. -/
theorem tournament_regret (side : Nat → Bool) (trace : List Branch) :
    misses .tournament trace ≤
      2 * tally bpRound (fun bp b => (expertMissed side bp b).toNat) (bpInit .tournament) trace +
        ((entriesAsked .tournament trace).filter fun i => side i = false).card := by
  have bound := tally_asked_le .tournament side trace
  have owed : ∑ i ∈ entriesAsked .tournament trace, debt 2 (startLevel .tournament) (side i) =
      ((entriesAsked .tournament trace).filter fun i => side i = false).card :=
    sum_debt_const true side rfl rfl _
  rw [owed] at bound
  have stay (bp : BranchPredictor) (b : Branch) (eq : bp.type = .tournament) : (bpRound bp b).type = .tournament :=
    (bpRound_type bp b).trans eq
  have init : (bpInit .tournament).type = .tournament := rfl
  have all := tally_congr _ stay (fun _ b type => tournament_missed type b) init trace
  have fixed := tally_congr _ stay (fun _ b type => tournament_expertMissed type side b) init trace
  rw [← tally_add fun _ _ => rfl] at all fixed
  rw [misses_eq]
  omega

/-- The tournament's global part is a gshare predictor of its own. -/
theorem globalPart_misses (trace : List Branch) :
    tally bpRound (fun bp b => (expertMissed (fun _ => true) bp b).toNat) (bpInit .tournament) trace =
      misses .gshare trace := by
  rw [misses_eq]
  apply tally_sim fun t g => t.type = .tournament ∧ g.type = .gshare ∧ t.tournament.globalPart = g.gshare
  · rintro t g b ⟨typeT, typeG, same⟩
    refine ⟨(bpRound_type t b).trans typeT, (bpRound_type g b).trans typeG, ?_⟩
    rw [bpRound_eq, bpRound_eq]
    unfold bpLearn
    rw [typeT, typeG]
    exact congrArg (gshareUpdate · b.pc b.taken) same
  · rintro t g b ⟨_, typeG, same⟩
    rw [expertMissed, missed, bpPrediction, typeG, same]
    rfl
  · exact ⟨rfl, rfl, rfl⟩

/-- Its local part is a bimodal one. -/
theorem localPart_misses (trace : List Branch) :
    tally bpRound (fun bp b => (expertMissed (fun _ => false) bp b).toNat) (bpInit .tournament) trace =
      misses .bimodal trace := by
  rw [misses_eq]
  apply tally_sim fun t b => t.type = .tournament ∧ b.type = .bimodal ∧ t.tournament.localPart = b.bimodal
  · rintro t p b ⟨typeT, typeB, same⟩
    refine ⟨(bpRound_type t b).trans typeT, (bpRound_type p b).trans typeB, ?_⟩
    rw [bpRound_eq, bpRound_eq]
    unfold bpLearn
    rw [typeT, typeB]
    exact congrArg (bimodalUpdate · b.pc b.taken) same
  · rintro t p b ⟨_, typeB, same⟩
    rw [expertMissed, missed, bpPrediction, typeB, same]
    rfl
  · exact ⟨rfl, rfl, rfl⟩

/-- The tournament errs at most twice as often as a choice of its parts that is fixed for each entry in
hindsight, and so as gshare alone, or bimodal alone but for the entries that begin with gshare. -/
theorem bpCompare_tournament (trace : List Branch) :
    (∀ side : Nat → Bool, misses .tournament trace ≤
      2 * tally bpRound (fun bp b => (expertMissed side bp b).toNat) (bpInit .tournament) trace +
        ((entriesAsked .tournament trace).filter fun i => side i = false).card) ∧
    misses .tournament trace ≤ 2 * misses .gshare trace ∧
    misses .tournament trace ≤ 2 * misses .bimodal trace + (entriesAsked .tournament trace).card := by
  refine ⟨fun side => tournament_regret side trace, ?_, ?_⟩
  · have bound := tournament_regret (fun _ => true) trace
    rw [globalPart_misses, Finset.filter_false_of_mem fun _ _ => Bool.true_eq_false_eq_False] at bound
    exact bound
  · have bound := tournament_regret (fun _ => false) trace
    rw [localPart_misses, Finset.filter_true_of_mem fun _ _ => rfl] at bound
    exact bound

/-- The count of right predictions that the type's own predictor keeps. -/
def ownCorrect (bp : BranchPredictor) : Nat :=
  match bp.type with
  | .bimodal => bp.bimodal.correct
  | .twoLevel => bp.twolevel.correct
  | .gshare => bp.gshare.correct
  | .tournament => bp.tournament.correct
  | _ => bp.totalCorrect

/-- A comparison counts each branch twice and each right prediction once, so it reports half the accuracy of
the predictor, and never more than one half. -/
theorem bpCompare_accuracy (type : PredictorType) (trace : List Branch) :
    (bpCompare type trace).totalBranches = 2 * trace.length ∧
      (bpCompare type trace).totalCorrect = ownCorrect (bpCompare type trace) ∧
      2 * (bpCompare type trace).totalCorrect ≤ (bpCompare type trace).totalBranches := by
  obtain ⟨total, right⟩ := bpCompare_totals type trace
  refine ⟨total, ?_, by omega⟩
  apply run_invariant (motive := fun bp => bp.totalCorrect = ownCorrect bp)
  · intro bp b same
    have kept := bpRound_type bp b
    rw [ownCorrect, kept, bpRound_eq]
    rw [ownCorrect] at same
    unfold bpLearn bpPrediction
    cases type : bp.type <;> rw [type] at same <;> dsimp only <;> first | rfl | rw [same]; rfl
  · cases type <;> rfl

/-! ## The targets of taken branches -/

/-- The branches of the trace that enter a target where `pc` looks for its own. -/
def enters (pc : UInt32) (b : Branch) : Bool := b.taken && btbHash b.pc == btbHash pc

/-- A round enters taken branches into the buffer. -/
theorem bpRound_btb (bp : BranchPredictor) (b : Branch) :
    (bpRound bp b).btb = if b.taken then btbUpdate bp.btb b.pc b.target 3 else bp.btb := by
  rw [bpRound_eq]

/-- The buffer has the target of the last branch entered there, if that is a branch of the same word. -/
theorem bpCompare_target (type : PredictorType) (trace : List Branch) (pc : UInt32) :
    (btbLookup (bpCompare type trace).btb pc).1 =
      match (trace.filter (enters pc)).getLast? with
      | none => none
      | some b => if b.pc >>> 2 = pc >>> 2 then some (b.target, 3) else none := by
  have entry : (bpCompare type trace).btb.entries.get (btbHash pc) =
      match (trace.filter (enters pc)).getLast? with
      | none => ⟨0, 0, false, 0⟩
      | some b => ⟨b.pc >>> 2, b.target, true, 3⟩ := by
    induction trace using List.reverseRecOn with
    | nil => exact get_replicate _ _
    | append_singleton trace b ih =>
      rw [bpCompare, run_snoc, bpRound_btb, List.filter_append]
      by_cases enter : enters pc b = true
      · obtain ⟨taken, here⟩ := Bool.and_eq_true_iff.1 enter
        rw [if_pos taken, btbUpdate, get_set, if_pos (beq_iff_eq.1 here).symm, List.filter_singleton, enter]
        simp
      · rw [List.filter_singleton, Bool.eq_false_of_not_eq_true enter, cond_false, List.append_nil, ← ih, bpCompare]
        split
        · rename_i taken
          rw [btbUpdate, get_set, if_neg]
          intro here
          exact enter (Bool.and_eq_true_iff.2 ⟨taken, beq_iff_eq.2 here.symm⟩)
        · rfl
  rw [btbLookup, entry]
  cases (trace.filter (enters pc)).getLast? with
  | none => rfl
  | some b => by_cases same : b.pc >>> 2 = pc >>> 2 <;> simp [same]

/-! ## The return address stack -/

/-- `PRED_RAS_SIZE`. -/
abbrev predRasSize : Nat := 32

structure ReturnAddressStack where
  stack : Vector UInt32 predRasSize
  tos : Int
  pushes : UInt64
  pops : UInt64
  mispredictions : UInt64
  tos_ge : -1 ≤ tos
  tos_lt : tos < predRasSize

def rasInit : ReturnAddressStack := ⟨Vector.replicate predRasSize 0, -1, 0, 0, 0, by decide, by decide⟩

def rasPush (ras : ReturnAddressStack) (retAddr : UInt32) : ReturnAddressStack :=
  if room : ras.tos < predRasSize - 1 then
    { ras with
      tos := ras.tos + 1
      stack := ras.stack.set (ras.tos + 1).toNat retAddr (by have := ras.tos_ge; omega)
      pushes := ras.pushes + 1
      tos_ge := by have := ras.tos_ge; omega
      tos_lt := by omega }
  else ras

def rasPop (ras : ReturnAddressStack) : UInt32 × ReturnAddressStack :=
  if found : (0 : Int) ≤ ras.tos then
    (ras.stack.get ⟨ras.tos.toNat, by have := ras.tos_lt; omega⟩,
      { ras with
        pops := ras.pops + 1
        tos := ras.tos - 1
        tos_ge := by omega
        tos_lt := by have := ras.tos_lt; omega })
  else (0, { ras with pops := ras.pops + 1, mispredictions := ras.mispredictions + 1 })

/-- What the returns of a sequence are predicted to go to; a call comes with its return address. -/
def rasPredictions : ReturnAddressStack → List (Option UInt32) → List UInt32
  | _, [] => []
  | ras, some retAddr :: ops => rasPredictions (rasPush ras retAddr) ops
  | ras, none :: ops => (rasPop ras).1 :: rasPredictions (rasPop ras).2 ops

/-- The addresses on the stack, the top one first. -/
def addresses (ras : ReturnAddressStack) : List UInt32 := (ras.stack.toList.take (ras.tos + 1).toNat).reverse

theorem addresses_length (ras : ReturnAddressStack) : (addresses ras).length = (ras.tos + 1).toNat := by
  have low := ras.tos_ge
  have high := ras.tos_lt
  rw [addresses, List.length_reverse, List.length_take, Vector.length_toList]
  omega

/-- A push on a full stack is dropped. -/
theorem addresses_push (ras : ReturnAddressStack) (retAddr : UInt32) :
    addresses (rasPush ras retAddr) = Nest.dropPush predRasSize (addresses ras) retAddr := by
  have low := ras.tos_ge
  rw [rasPush, Nest.dropPush, addresses_length]
  by_cases room : ras.tos < predRasSize - 1
  · rw [dif_pos room, if_pos (by omega), addresses, addresses]
    have next : (ras.tos + 1 + 1).toNat = (ras.tos + 1).toNat + 1 := by omega
    dsimp only
    rw [next, Vector.toList_set, List.take_succ_eq_append_getElem, List.reverse_append, List.getElem_set_self,
      List.take_set_of_le (Nat.le_refl _)]
    · rfl
    · rw [List.length_set, Vector.length_toList]
      omega
  · rw [dif_neg room, if_neg (by omega)]

/-- A pop takes the top address, or answers zero. -/
theorem addresses_pop (ras : ReturnAddressStack) :
    (rasPop ras).1 = (addresses ras).head?.getD 0 ∧ addresses (rasPop ras).2 = (addresses ras).tail := by
  have low := ras.tos_ge
  have high := ras.tos_lt
  rw [rasPop]
  by_cases found : (0 : Int) ≤ ras.tos
  · have depth : (ras.tos + 1).toNat = ras.tos.toNat + 1 := by omega
    have top : addresses ras = ras.stack.get ⟨ras.tos.toNat, by omega⟩ ::
        (ras.stack.toList.take ras.tos.toNat).reverse := by
      rw [addresses, depth, List.take_succ_eq_append_getElem (by rw [Vector.length_toList]; omega),
        List.reverse_append, Vector.getElem_toList]
      rfl
    rw [dif_pos found, top]
    refine ⟨rfl, ?_⟩
    have back : (ras.tos - 1 + 1).toNat = ras.tos.toNat := by omega
    rw [addresses]
    dsimp only
    rw [back]
    rfl
  · have empty : (ras.tos + 1).toNat = 0 := by omega
    have none : addresses ras = [] := by rw [addresses, empty]; rfl
    rw [dif_neg found, none]
    exact ⟨rfl, none⟩

/-- The predictions are what pops find on a stack of bounded height. -/
theorem rasPredictions_eq (ras : ReturnAddressStack) (ops : List (Option UInt32)) :
    rasPredictions ras ops = (Nest.popped predRasSize (addresses ras) ops).map fun found => found.getD 0 := by
  induction ops generalizing ras with
  | nil => rfl
  | cons op ops ih =>
    cases op with
    | some retAddr => rw [rasPredictions, Nest.popped, ih, addresses_push]
    | none => rw [rasPredictions, Nest.popped, ih, List.map_cons, (addresses_pop ras).1, (addresses_pop ras).2]

/-- The stack predicts all returns of a properly nested run of calls if never more than its 32 are open,
and only then, but for calls that return to the zero which a return on the empty stack is predicted to go to. -/
theorem ras_predicts_iff (calls : Nest UInt32) :
    (calls.height ≤ predRasSize → rasPredictions rasInit calls.calls = calls.labels) ∧
      ((∀ retAddr ∈ calls.labels, retAddr ≠ 0) →
        rasPredictions rasInit calls.calls = calls.labels → calls.height ≤ predRasSize) := by
  have empty : addresses rasInit = [] := rfl
  rw [rasPredictions_eq, empty, ← Nest.popped_iff_fits (n := calls)]
  constructor
  · intro finds
    rw [finds, List.map_map]
    exact List.map_id _
  · intro real right
    have found : ∀ top ∈ Nest.popped predRasSize [] calls.calls, top ≠ none := by
      rintro top mem rfl
      have zero : (0 : UInt32) ∈ calls.labels := by
        rw [← right]
        exact List.mem_map.2 ⟨none, mem, rfl⟩
      exact real 0 zero rfl
    rw [← right, List.map_map]
    symm
    rw [List.map_congr_left (g := id), List.map_id]
    intro top mem
    cases top with
    | none => exact absurd rfl (found none mem)
    | some a => rfl

/-- Two calls, one inside the other. -/
theorem ras_predicts_two :
    rasPredictions rasInit (Nest.wrap 8 (.wrap 24 .nil .nil) .nil).calls = [24, 8] ∧
      (Nest.wrap (8 : UInt32) (.wrap 24 .nil .nil) .nil).height ≤ predRasSize := by
  obtain ⟨finds, fits⟩ := ras_predicts_iff (Nest.wrap 8 (.wrap 24 .nil .nil) .nil)
  have right := finds (by decide)
  have real : ∀ retAddr ∈ [24, 8], retAddr ≠ (0 : UInt32) := by simp
  exact ⟨right, fits real right⟩

end MiniHardware.Arch
