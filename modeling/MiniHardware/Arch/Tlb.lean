import MiniHardware.Lib.Index
import MiniHardware.Lib.Trace

/-!
# The TLB (`mini-computer-arch/src/virtual_memory.c`)

`tlb_insert` takes a free slot, or the one that the policy replaces, and never
looks for the page among the entries. A page that is entered again keeps its old
entry, which a lookup may take, unless that entry is the one replaced
(`tlb_unique_iff`).
-/

namespace MiniHardware.Arch
open Lib

/-- `TLB_MAX_ENTRIES`. -/
abbrev tlbMaxEntries : Nat := 64

inductive TLBReplacementPolicy where
  | lru | fifo | random
deriving DecidableEq

structure TLBEntry where
  valid : Bool
  vpn : UInt32
  pfn : UInt32
  lruCounter : UInt64

/-- The entries in use are those below `size`. -/
structure TLB where
  entries : Vector TLBEntry tlbMaxEntries
  size : UInt32
  policy : TLBReplacementPolicy
  globalCounter : UInt64
  hits : UInt64
  misses : UInt64
  size_le : size.toNat ≤ tlbMaxEntries

/-- The bytes of an entry set to zero. -/
def zeroTLBEntry : TLBEntry := ⟨false, 0, 0, 0⟩

def tlbInit (size : UInt32) (policy : TLBReplacementPolicy) : TLB :=
  { entries := Vector.replicate tlbMaxEntries zeroTLBEntry
    size := if size > 64 then 64 else size
    policy := policy
    globalCounter := 0
    hits := 0
    misses := 0
    size_le := by
      split
      · exact Nat.le_refl 64
      · rename_i small
        exact UInt32.le_iff_toNat_le.1 (UInt32.not_lt.1 small) }

/-- `for (i = 0; i < size; i++)`. -/
def slots (t : TLB) : List (Fin tlbMaxEntries) := (List.finRange tlbMaxEntries).take t.size.toNat

/-- The TLB afterwards, and the frame found. -/
def tlbLookup (t : TLB) (vpn : UInt32) : TLB × Option UInt32 :=
  let t := { t with globalCounter := t.globalCounter + 1 }
  match (slots t).find? fun i => (t.entries.get i).valid && (t.entries.get i).vpn == vpn with
  | some i =>
    let e := t.entries.get i
    ({ t with entries := t.entries.set i { e with lruCounter := t.globalCounter }, hits := t.hits + 1 }, some e.pfn)
  | none => ({ t with misses := t.misses + 1 }, none)

/-- The inner loop of `TLB_LRU`: `min_lru` and `min_idx`. -/
def minLruStep (t : TLB) (min : UInt64 × Fin tlbMaxEntries) (j : Fin tlbMaxEntries) : UInt64 × Fin tlbMaxEntries :=
  if (t.entries.get j).lruCounter < min.1 then ((t.entries.get j).lruCounter, j) else min

/-- The switch on the policy; `rand` is what `rand()` returns. -/
def policyVictim (t : TLB) (rand : UInt32) : Fin tlbMaxEntries :=
  match t.policy with
  | .lru => (((slots t).drop 1).foldl (minLruStep t) ((t.entries.get 0).lruCounter, 0)).2
  | .fifo => Fin.ofNat tlbMaxEntries (t.globalCounter.toNat % t.size.toNat)
  | .random => Fin.ofNat tlbMaxEntries (rand.toNat % t.size.toNat)

/-- The loop of `tlb_insert` from round `k` on: a free slot ends it, and else every round asks the policy
again. -/
def victimLoop (t : TLB) (rand : Nat → UInt32) (k : Nat) (victim : Fin tlbMaxEntries) :
    List (Fin tlbMaxEntries) → Fin tlbMaxEntries
  | [] => victim
  | i :: rest => if !(t.entries.get i).valid then i else victimLoop t rand (k + 1) (policyVictim t (rand k)) rest

/-- `rand k` is what `rand()` returns in round `k`. -/
def tlbInsert (t : TLB) (vpn pfn : UInt32) (rand : Nat → UInt32) : TLB :=
  { t with entries := t.entries.set (victimLoop t rand 0 0 (slots t)) ⟨true, vpn, pfn, t.globalCounter⟩ }

def tlbFlush (t : TLB) : TLB :=
  { t with
    entries := Vector.ofFn fun i => if i.val < t.size.toNat then zeroTLBEntry else t.entries.get i
    hits := 0
    misses := 0 }

inductive TLBOp where
  | insert (vpn pfn : UInt32) (rand : Nat → UInt32)
  | lookup (vpn : UInt32)
  | flush

def tlbStep (t : TLB) : TLBOp → TLB
  | .insert vpn pfn rand => tlbInsert t vpn pfn rand
  | .lookup vpn => (tlbLookup t vpn).1
  | .flush => tlbFlush t

/-! ## What a TLB is for -/

/-- Slot `i` caches the page. -/
def Caches (t : TLB) (vpn : UInt32) (i : Fin tlbMaxEntries) : Prop :=
  (t.entries.get i).valid = true ∧ (t.entries.get i).vpn = vpn

instance cachesDecidable (t : TLB) (vpn : UInt32) (i : Fin tlbMaxEntries) : Decidable (Caches t vpn i) :=
  inferInstanceAs (Decidable (_ ∧ _))

/-- A page has one valid entry at most. -/
def UniqueEntries (t : TLB) : Prop := ∀ vpn i j, Caches t vpn i → Caches t vpn j → i = j

/-- A lookup right after the insertion gives its frame. -/
def SeenNext (t : TLB) : TLBOp → Prop
  | .insert vpn pfn rand => (tlbLookup (tlbInsert t vpn pfn rand) vpn).2 = some pfn
  | _ => True

/-- The policy replaces slot `i`, where `rand` is what `rand()` returns last. -/
def Replaced (t : TLB) (rand : UInt32) (i : Fin tlbMaxEntries) : Prop :=
  match t.policy with
  | .lru => i ∈ slots t ∧ ∀ j ∈ slots t, (t.entries.get i).lruCounter ≤ (t.entries.get j).lruCounter ∧
      (j < i → (t.entries.get i).lruCounter < (t.entries.get j).lruCounter)
  | .fifo => t.globalCounter.toNat % t.size.toNat = i.val
  | .random => rand.toNat % t.size.toNat = i.val

/-- There are slots, and an entry that caches the page already is the one that is replaced. -/
def Renews (t : TLB) : TLBOp → Prop
  | .insert vpn _ rand => 0 < t.size.toNat ∧ ∀ i, Caches t vpn i →
      (∀ j ∈ slots t, (t.entries.get j).valid = true) ∧ Replaced t (rand (t.size.toNat - 1)) i
  | _ => True

/-! ## The slot that is written -/

section Victim
variable {t : TLB} {rand : Nat → UInt32}

/-- The slots in use are those below the size. -/
theorem mem_slots {i : Fin tlbMaxEntries} : i ∈ slots t ↔ i.val < t.size.toNat := by
  unfold slots
  rw [List.mem_take_iff_getElem]
  constructor
  · rintro ⟨k, lt, rfl⟩
    rw [List.getElem_finRange]
    rw [List.length_finRange] at lt
    exact (Nat.lt_min.1 lt).1
  · intro lt
    refine ⟨i.val, Nat.lt_min.2 ⟨lt, ?_⟩, ?_⟩
    · rw [List.length_finRange]
      exact i.isLt
    · rw [List.getElem_finRange]
      rfl

theorem length_slots (t : TLB) : (slots t).length = t.size.toNat := by
  unfold slots
  rw [List.length_take, List.length_finRange]
  exact Nat.min_eq_left t.size_le

/-- A free slot is the victim, if there is one. -/
theorem victimLoop_free (victim : Fin tlbMaxEntries) {l : List (Fin tlbMaxEntries)} (k : Nat)
    (free : ∃ j ∈ l, (t.entries.get j).valid = false) :
    victimLoop t rand k victim l ∈ l ∧ (t.entries.get (victimLoop t rand k victim l)).valid = false := by
  induction l generalizing k victim with
  | nil =>
    obtain ⟨j, mem, -⟩ := free
    exact absurd mem List.not_mem_nil
  | cons i rest ih =>
    unfold victimLoop
    cases valid : (t.entries.get i).valid with
    | false => exact ⟨List.mem_cons_self, valid⟩
    | true =>
      obtain ⟨j, mem, free⟩ := free
      have later : j ∈ rest := (List.mem_cons.1 mem).resolve_left fun eq => by
        rw [eq, valid] at free
        cases free
      obtain ⟨mem, free⟩ := ih (policyVictim t (rand k)) (k + 1) ⟨j, later, free⟩
      exact ⟨List.mem_cons_of_mem i mem, free⟩

/-- Without a free slot the victim is what the policy says in the last round. -/
theorem victimLoop_full (victim : Fin tlbMaxEntries) {l : List (Fin tlbMaxEntries)} (k : Nat) (some : l ≠ [])
    (full : ∀ j ∈ l, (t.entries.get j).valid = true) :
    victimLoop t rand k victim l = policyVictim t (rand (k + l.length - 1)) := by
  induction l generalizing k victim with
  | nil => exact absurd rfl some
  | cons i rest ih =>
    unfold victimLoop
    rw [full i List.mem_cons_self, Bool.not_true, if_neg Bool.false_ne_true]
    cases rest with
    | nil => rfl
    | cons j rest =>
      rw [ih _ (k + 1) (List.cons_ne_nil j rest) fun j mem => full j (List.mem_cons_of_mem i mem)]
      congr 2
      simp only [List.length_cons]
      omega

/-- The scan ends at the first of the least counters. -/
theorem foldl_minLruStep {l : List (Fin tlbMaxEntries)} {b : Fin tlbMaxEntries} (sorted : (b :: l).Pairwise (· < ·)) :
    ∃ i ∈ b :: l, (l.foldl (minLruStep t) ((t.entries.get b).lruCounter, b)) = ((t.entries.get i).lruCounter, i) ∧
      ∀ j ∈ b :: l, (t.entries.get i).lruCounter ≤ (t.entries.get j).lruCounter ∧
        (j < i → (t.entries.get i).lruCounter < (t.entries.get j).lruCounter) := by
  induction l generalizing b with
  | nil =>
    refine ⟨b, List.mem_singleton_self b, rfl, fun j mem => ?_⟩
    obtain rfl := List.mem_singleton.1 mem
    exact ⟨UInt64.le_refl _, fun lt => absurd lt (lt_irrefl j)⟩
  | cons c l ih =>
    obtain ⟨first, rest⟩ := List.pairwise_cons.1 sorted
    rw [List.foldl_cons]
    unfold minLruStep
    dsimp only
    split
    · rename_i less
      obtain ⟨i, mem, eq, least⟩ := ih rest
      refine ⟨i, List.mem_cons_of_mem b mem, eq, fun j mem => ?_⟩
      rcases List.mem_cons.1 mem with rfl | mem
      · have lt := UInt64.lt_of_le_of_lt (least c List.mem_cons_self).1 less
        exact ⟨UInt64.le_of_lt lt, fun _ => lt⟩
      · exact least j mem
    · rename_i notLess
      obtain ⟨i, mem, eq, least⟩ := ih (b := b) (List.pairwise_cons.2
        ⟨fun j mem => first j (List.mem_cons_of_mem c mem), (List.pairwise_cons.1 rest).2⟩)
      refine ⟨i, ?_, eq, fun j mem' => ?_⟩
      · exact (List.mem_cons.1 mem).elim (fun eq => eq ▸ List.mem_cons_self)
          fun mem => List.mem_cons_of_mem b (List.mem_cons_of_mem c mem)
      · rcases List.mem_cons.1 mem' with rfl | mem'
        · exact least j List.mem_cons_self
        · rcases List.mem_cons.1 mem' with rfl | mem'
          · have le := (least b List.mem_cons_self).1
            have bound := UInt64.le_trans le (UInt64.not_lt.1 notLess)
            refine ⟨bound, fun lt => ?_⟩
            rcases List.mem_cons.1 mem with rfl | mem
            · exact absurd (first j List.mem_cons_self) (lt_asymm lt)
            · exact UInt64.lt_of_lt_of_le ((least b List.mem_cons_self).2 (first i (List.mem_cons_of_mem j mem)))
                (UInt64.not_lt.1 notLess)
          · exact least j (List.mem_cons_of_mem b mem')

/-- A TLB that is not empty has slot 0. -/
theorem slots_eq_cons (some : 0 < t.size.toNat) : slots t = 0 :: (slots t).drop 1 := by
  obtain ⟨n, eq⟩ := Nat.exists_eq_succ_of_ne_zero (Nat.pos_iff_ne_zero.1 some)
  unfold slots
  rw [eq, List.finRange_succ]
  rfl

/-- The slots are visited in order. -/
theorem slots_sorted (t : TLB) : (slots t).Pairwise (· < ·) :=
  (List.pairwise_lt_finRange tlbMaxEntries).sublist (List.take_sublist _ _)

/-- The victim of each policy. -/
theorem policyVictim_eq_iff (some : 0 < t.size.toNat) (r : UInt32) (i : Fin tlbMaxEntries) :
    policyVictim t r = i ↔ Replaced t r i := by
  have below (x : Nat) : Fin.ofNat tlbMaxEntries (x % t.size.toNat) = i ↔ x % t.size.toNat = i.val := by
    have lt : x % t.size.toNat < tlbMaxEntries := (Nat.mod_lt x some).trans_le t.size_le
    rw [Fin.ext_iff, Fin.val_ofNat, Nat.mod_eq_of_lt lt]
  unfold policyVictim Replaced
  cases t.policy with
  | lru =>
    have sorted := slots_sorted t
    rw [slots_eq_cons some] at sorted
    obtain ⟨m, mem, eq, least⟩ := foldl_minLruStep (t := t) sorted
    rw [← slots_eq_cons some] at mem least
    dsimp only
    rw [eq]
    constructor
    · rintro rfl
      exact ⟨mem, least⟩
    · rintro ⟨mem', least'⟩
      rcases lt_trichotomy m i with lt | eq | gt
      · exact absurd (UInt64.lt_of_lt_of_le ((least' m mem).2 lt) (least i mem').1) (UInt64.lt_irrefl _)
      · exact eq
      · exact absurd (UInt64.lt_of_lt_of_le ((least i mem').2 gt) (least' m mem).1) (UInt64.lt_irrefl _)
  | fifo => exact below _
  | random => exact below _

/-- The victim is a slot in use. -/
theorem victim_mem_slots (some : 0 < t.size.toNat) : victimLoop t rand 0 0 (slots t) ∈ slots t := by
  by_cases full : ∀ j ∈ slots t, (t.entries.get j).valid = true
  · have ne : slots t ≠ [] := by
      rw [slots_eq_cons some]
      exact List.cons_ne_nil _ _
    have chosen := (policyVictim_eq_iff some (rand (0 + (slots t).length - 1)) _).1 rfl
    rw [victimLoop_full 0 0 ne full]
    rw [mem_slots]
    revert chosen
    unfold Replaced
    cases t.policy with
    | lru => exact fun chosen => mem_slots.1 chosen.1
    | fifo => exact fun chosen => chosen ▸ Nat.mod_lt _ some
    | random => exact fun chosen => chosen ▸ Nat.mod_lt _ some
  · push Not at full
    obtain ⟨j, mem, free⟩ := full
    exact (victimLoop_free 0 0 ⟨j, mem, Bool.eq_false_of_not_eq_true free⟩).1

/-- The slot written held a valid entry only if all of them did, and then the policy chose it. -/
theorem victim_valid_iff (some : 0 < t.size.toNat) (i : Fin tlbMaxEntries) :
    (victimLoop t rand 0 0 (slots t) = i ∧ (t.entries.get i).valid = true) ↔
      (∀ j ∈ slots t, (t.entries.get j).valid = true) ∧ Replaced t (rand (t.size.toNat - 1)) i := by
  have ne : slots t ≠ [] := by
    rw [slots_eq_cons some]
    exact List.cons_ne_nil _ _
  constructor
  · rintro ⟨rfl, valid⟩
    have full : ∀ j ∈ slots t, (t.entries.get j).valid = true := by
      by_contra no
      push Not at no
      obtain ⟨j, mem, free⟩ := no
      rw [(victimLoop_free 0 0 ⟨j, mem, Bool.eq_false_of_not_eq_true free⟩).2] at valid
      cases valid
    refine ⟨full, (policyVictim_eq_iff some _ _).1 ?_⟩
    rw [victimLoop_full 0 0 ne full, length_slots, Nat.zero_add]
  · rintro ⟨full, chosen⟩
    have eq : victimLoop t rand 0 0 (slots t) = i := by
      rw [victimLoop_full 0 0 ne full, length_slots, Nat.zero_add]
      exact (policyVictim_eq_iff some _ i).2 chosen
    refine ⟨eq, full i ?_⟩
    rw [← eq]
    exact victim_mem_slots some

end Victim

/-! ## The calls -/

section Calls
variable {t : TLB} {vpn pfn : UInt32} {rand : Nat → UInt32}

/-- A lookup gives the frame of the first entry of the page. -/
theorem tlbLookup_snd (t : TLB) (vpn : UInt32) : (tlbLookup t vpn).2 =
    ((slots t).find? fun i => (t.entries.get i).valid && (t.entries.get i).vpn == vpn).map
      fun i => (t.entries.get i).pfn := by
  have same : slots { t with globalCounter := t.globalCounter + 1 } = slots t := rfl
  unfold tlbLookup
  dsimp only
  rw [same]
  split
  · rename_i found
    rw [found, Option.map_some]
  · rename_i missing
    rw [missing, Option.map_none]

/-- With no entry twice, a lookup finds the entry that caches the page. -/
theorem tlbLookup_cached (unique : UniqueEntries t) {i : Fin tlbMaxEntries} (mem : i ∈ slots t)
    (cached : Caches t vpn i) : (tlbLookup t vpn).2 = some (t.entries.get i).pfn := by
  rw [tlbLookup_snd]
  cases found : (slots t).find? fun i => (t.entries.get i).valid && (t.entries.get i).vpn == vpn with
  | none =>
    refine absurd ?_ (List.find?_eq_none.1 found i mem)
    rw [cached.1, cached.2, beq_self_eq_true, Bool.and_self]
  | some j =>
    have hit := List.find?_some found
    rw [Bool.and_eq_true, beq_iff_eq] at hit
    rw [unique vpn j i hit cached, Option.map_some]

/-- A TLB of no slots finds nothing. -/
theorem tlbLookup_empty (zero : t.size.toNat = 0) : (tlbLookup t vpn).2 = none := by
  rw [tlbLookup_snd, List.eq_nil_of_length_eq_zero ((length_slots t).trans zero), List.find?_nil, Option.map_none]

/-- A lookup leaves what the slots cache. -/
theorem tlbLookup_caches {v : UInt32} {i : Fin tlbMaxEntries} : Caches (tlbLookup t vpn).1 v i ↔ Caches t v i := by
  unfold tlbLookup
  dsimp only
  split
  · unfold Caches
    dsimp only
    rw [get_set]
    split
    · rename_i eq
      rw [eq]
    · exact Iff.rfl
  · exact Iff.rfl

/-- A flush caches nothing new. -/
theorem tlbFlush_caches {v : UInt32} {i : Fin tlbMaxEntries} (cached : Caches (tlbFlush t) v i) : Caches t v i := by
  unfold Caches tlbFlush at cached
  dsimp only at cached
  rw [get_ofFn] at cached
  split at cached
  · exact absurd cached.1 Bool.false_ne_true
  · exact cached

/-- An insertion changes what the victim caches, and no other slot. -/
theorem tlbInsert_caches {v : UInt32} {i : Fin tlbMaxEntries} : Caches (tlbInsert t vpn pfn rand) v i ↔
    if i = victimLoop t rand 0 0 (slots t) then vpn = v else Caches t v i := by
  unfold Caches tlbInsert
  dsimp only
  rw [get_set]
  split
  · exact and_iff_right rfl
  · exact Iff.rfl

/-- A new TLB caches nothing. -/
theorem tlbInit_caches (size : UInt32) (policy : TLBReplacementPolicy) (v : UInt32) (i : Fin tlbMaxEntries) :
    ¬ Caches (tlbInit size policy) v i := by
  rintro ⟨valid, -⟩
  unfold tlbInit at valid
  rw [get_replicate] at valid
  cases valid

/-- Without an entry twice before the insertion, there is none after it if the entry that cached the
page is written over. -/
theorem tlbInsert_unique_iff (unique : UniqueEntries t) : UniqueEntries (tlbInsert t vpn pfn rand) ↔
    ∀ i, Caches t vpn i → victimLoop t rand 0 0 (slots t) = i := by
  constructor
  · intro after i cached
    by_contra ne
    exact ne (after vpn _ i (tlbInsert_caches.2 (by rw [if_pos rfl]))
      (tlbInsert_caches.2 (by rw [if_neg fun eq => ne eq.symm]; exact cached)))
  · intro renewed v i j first second
    rw [tlbInsert_caches] at first second
    split at first
    · rename_i eq
      split at second
      · rename_i eq'
        rw [eq, eq']
      · subst first
        rw [eq]
        exact renewed j second
    · split at second
      · rename_i eq'
        subst second
        rw [eq']
        exact (renewed i first).symm
      · exact unique v i j first second

/-- A call keeps the entries single and its frame is seen, if and only if it renews. -/
theorem tlbStep_iff (unique : UniqueEntries t) (op : TLBOp) :
    UniqueEntries (tlbStep t op) ∧ SeenNext t op ↔ Renews t op := by
  cases op with
  | lookup vpn =>
    refine iff_of_true ⟨fun v i j first second => ?_, trivial⟩ trivial
    exact unique v i j (tlbLookup_caches.1 first) (tlbLookup_caches.1 second)
  | flush =>
    refine iff_of_true ⟨fun v i j first second => ?_, trivial⟩ trivial
    exact unique v i j (tlbFlush_caches first) (tlbFlush_caches second)
  | insert vpn pfn rand =>
    unfold tlbStep SeenNext Renews
    dsimp only
    rw [tlbInsert_unique_iff unique]
    constructor
    · rintro ⟨renewed, seen⟩
      have some : 0 < t.size.toNat := by
        by_contra zero
        have missed : (tlbLookup (tlbInsert t vpn pfn rand) vpn).2 = none :=
          tlbLookup_empty (Nat.eq_zero_of_not_pos zero)
        rw [seen] at missed
        cases missed
      exact ⟨some, fun i cached => (victim_valid_iff some i).1 ⟨renewed i cached, cached.1⟩⟩
    · rintro ⟨some, renews⟩
      have renewed : ∀ i, Caches t vpn i → victimLoop t rand 0 0 (slots t) = i :=
        fun i cached => ((victim_valid_iff some i).2 (renews i cached)).1
      have unique' : UniqueEntries (tlbInsert t vpn pfn rand) := (tlbInsert_unique_iff unique).2 renewed
      refine ⟨renewed, ?_⟩
      have mem : victimLoop t rand 0 0 (slots t) ∈ slots (tlbInsert t vpn pfn rand) := victim_mem_slots some
      rw [tlbLookup_cached unique' mem (tlbInsert_caches.2 (by rw [if_pos rfl]))]
      unfold tlbInsert
      dsimp only
      rw [get_set, if_pos rfl]

end Calls

/-! ## Every run -/

/-- A new TLB has no page twice. -/
theorem tlbInit_unique (size : UInt32) (policy : TLBReplacementPolicy) : UniqueEntries (tlbInit size policy) :=
  fun v i _ cached => absurd cached (tlbInit_caches size policy v i)

/-- From any `tlb_init` on, all states have one entry a page at most and every insertion is seen by a
lookup right after it, if and only if every insertion renews. -/
theorem tlb_unique_iff (size : UInt32) (policy : TLBReplacementPolicy) (ops : List TLBOp) :
    ((∀ before rest, ops = before ++ rest → UniqueEntries (run tlbStep (tlbInit size policy) before)) ∧
      ∀ before op rest, ops = before ++ op :: rest → SeenNext (run tlbStep (tlbInit size policy) before) op) ↔
    Guarded tlbStep Renews (tlbInit size policy) ops := by
  have first := tlbInit_unique size policy
  have step : Guarded tlbStep (fun t op => UniqueEntries (tlbStep t op) ∧ SeenNext t op) (tlbInit size policy) ops ↔
      Guarded tlbStep Renews (tlbInit size policy) ops :=
    guarded_congr UniqueEntries (fun t op unique => tlbStep_iff unique op)
      (fun t op unique renews => ((tlbStep_iff unique op).2 renews).1) first
  rw [← step, guarded_iff_splits]
  constructor
  · rintro ⟨unique, seen⟩ before op rest eq
    refine ⟨?_, seen before op rest eq⟩
    have next := run_snoc tlbStep (tlbInit size policy) before op
    rw [← next]
    exact unique (before ++ [op]) rest (by rw [eq, List.append_assoc, List.singleton_append])
  · intro right
    refine ⟨fun before rest eq => ?_, fun before op rest eq => (right before op rest eq).2⟩
    rcases List.eq_nil_or_concat before with rfl | ⟨before, op, rfl⟩
    · exact first
    · rw [List.concat_eq_append, run_snoc]
      exact (right before op rest (by rw [eq, List.concat_eq_append, List.append_assoc, List.singleton_append])).1

/-- With two slots, a page entered twice has two entries, and the lookup takes the old one. -/
theorem tlb_stale_entry :
    (tlbLookup (run tlbStep (tlbInit 2 .lru) [.insert 5 1 fun _ => 0, .insert 5 2 fun _ => 0]) 5).2 = some 1 ∧
      ¬ UniqueEntries (run tlbStep (tlbInit 2 .lru) [.insert 5 1 fun _ => 0, .insert 5 2 fun _ => 0]) := by
  constructor
  · decide
  · intro unique
    exact absurd (unique 5 0 1 (by decide) (by decide)) (by decide)

end MiniHardware.Arch
