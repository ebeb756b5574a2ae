import MiniHardware.Lib.Fill

/-!
# The KV cache (`mini-ai-accelerator/src/attention_accel.c`)

Keys and values of the tokens, in two arrays with room for `MAX_KV_CACHE_LEN`
tokens. An append first makes room by dropping the oldest tokens, but never
more than there are: a batch longer than the whole cache is still written
behind what is left. A copy that leaves an array has no result.
-/

namespace MiniHardware.Accel
open Lib

/-- `MAX_KV_CACHE_LEN`. -/
def maxKvCacheLen : Nat := 2048

/-- The cache of a `MultiHeadAttention`; the number of heads and the size of a head never change.
Sizes are numbers without overflow. -/
structure MultiHeadAttention (α : Type*) (numHeads headDim : Nat) where
  kvCacheK : Vector α (maxKvCacheLen * numHeads * headDim)
  kvCacheV : Vector α (maxKvCacheLen * numHeads * headDim)
  kvCacheLen : Nat

section Model
variable {α : Type*} {numHeads headDim : Nat}

/-- The arrays are zeroed. -/
def mhaCreate (zero : α) (numHeads headDim : Nat) : MultiHeadAttention α numHeads headDim :=
  ⟨Vector.replicate _ zero, Vector.replicate _ zero, 0⟩

def kvCacheEvictLru (mha : MultiHeadAttention α numHeads headDim) (numToEvict : Nat) :
    Option (Nat × MultiHeadAttention α numHeads headDim) :=
  if numToEvict = 0 then some (0, mha)
  else do
    let numToEvict := if numToEvict > mha.kvCacheLen then mha.kvCacheLen else numToEvict
    let keepLen := mha.kvCacheLen - numToEvict
    let perTokenSize := numHeads * headDim
    let K ← memcpy mha.kvCacheK 0 (fun k => mha.kvCacheK[numToEvict * perTokenSize + k]?) (keepLen * perTokenSize)
    let V ← memcpy mha.kvCacheV 0 (fun k => mha.kvCacheV[numToEvict * perTokenSize + k]?) (keepLen * perTokenSize)
    some (numToEvict, { mha with kvCacheK := K, kvCacheV := V, kvCacheLen := keepLen })

/-- The branch "Evict if needed" of `kv_cache_append`. -/
def makeRoom (mha : MultiHeadAttention α numHeads headDim) (newLen : Nat) :
    Option (MultiHeadAttention α numHeads headDim) :=
  let total := mha.kvCacheLen + newLen
  if total > maxKvCacheLen then (kvCacheEvictLru mha (total - maxKvCacheLen)).map Prod.snd else some mha

def kvCacheAppend (mha : MultiHeadAttention α numHeads headDim) (newK newV : List α) (newLen : Nat) :
    Option (MultiHeadAttention α numHeads headDim) :=
  if newLen = 0 then some mha
  else do
    let mha ← makeRoom mha newLen
    let oldLen := mha.kvCacheLen
    let perTokenSize := numHeads * headDim
    let K ← memcpy mha.kvCacheK (oldLen * perTokenSize) (newK[·]?) (newLen * perTokenSize)
    let V ← memcpy mha.kvCacheV (oldLen * perTokenSize) (newV[·]?) (newLen * perTokenSize)
    some { mha with kvCacheK := K, kvCacheV := V, kvCacheLen := oldLen + newLen }

/-- What is copied to `K_out` and `V_out`. -/
def kvCacheLookup (mha : MultiHeadAttention α numHeads headDim) (start len : Int) :
    Option (List α × List α) :=
  if start < 0 ∨ len ≤ 0 then some ([], [])
  else
    let len := if start + len > mha.kvCacheLen then mha.kvCacheLen - start else len
    if len ≤ 0 then some ([], [])
    else do
      let perTokenSize := numHeads * headDim
      let offset := start.toNat * perTokenSize
      let K ← readBlock mha.kvCacheK offset (len.toNat * perTokenSize)
      let V ← readBlock mha.kvCacheV offset (len.toNat * perTokenSize)
      some (K, V)

end Model

/-! ## Histories -/

/-- The keys and the values of a token. -/
structure Token (α : Type*) (numHeads headDim : Nat) where
  k : Vector α (numHeads * headDim)
  v : Vector α (numHeads * headDim)

inductive CacheOp (α : Type*) (numHeads headDim : Nat) where
  | append (tokens : List (Token α numHeads headDim))
  | evict (numToEvict : Nat)

section History
variable {α : Type*} {numHeads headDim : Nat}

def keys (tokens : List (Token α numHeads headDim)) : List α := tokens.flatMap fun t => t.k.toList

def values (tokens : List (Token α numHeads headDim)) : List α := tokens.flatMap fun t => t.v.toList

def CacheOp.apply (mha : MultiHeadAttention α numHeads headDim) :
    CacheOp α numHeads headDim → Option (MultiHeadAttention α numHeads headDim)
  | append tokens => kvCacheAppend mha (keys tokens) (values tokens) tokens.length
  | evict numToEvict => (kvCacheEvictLru mha numToEvict).map Prod.snd

/-- The tokens appended, in order. -/
def appended : List (CacheOp α numHeads headDim) → List (Token α numHeads headDim)
  | [] => []
  | .append tokens :: ops => tokens ++ appended ops
  | .evict _ :: ops => appended ops

/-- The cache holds the last `kvCacheLen` of these tokens. -/
structure HoldsRecent (tokens : List (Token α numHeads headDim)) (mha : MultiHeadAttention α numHeads headDim) :
    Prop where
  len_le : mha.kvCacheLen ≤ maxKvCacheLen
  known : mha.kvCacheLen ≤ tokens.length
  lookup : kvCacheLookup mha 0 mha.kvCacheLen =
    some (keys (tokens.drop (tokens.length - mha.kvCacheLen)),
      values (tokens.drop (tokens.length - mha.kvCacheLen)))

/-! ## One call -/

theorem length_keys (tokens : List (Token α numHeads headDim)) :
    (keys tokens).length = tokens.length * (numHeads * headDim) := by
  rw [keys, List.length_flatMap]
  simp [List.map_const']

theorem length_values (tokens : List (Token α numHeads headDim)) :
    (values tokens).length = tokens.length * (numHeads * headDim) := by
  rw [values, List.length_flatMap]
  simp [List.map_const']

theorem keys_append (xs ys : List (Token α numHeads headDim)) : keys (xs ++ ys) = keys xs ++ keys ys :=
  List.flatMap_append

theorem values_append (xs ys : List (Token α numHeads headDim)) : values (xs ++ ys) = values xs ++ values ys :=
  List.flatMap_append

/-- The arrays start with the keys and the values of the most recent tokens. -/
structure Recent (tokens recent : List (Token α numHeads headDim)) (mha : MultiHeadAttention α numHeads headDim) :
    Prop where
  suffix : recent <:+ tokens
  len : mha.kvCacheLen = recent.length
  le : recent.length ≤ maxKvCacheLen
  K : keys recent <+: mha.kvCacheK.toList
  V : values recent <+: mha.kvCacheV.toList

variable {tokens recent : List (Token α numHeads headDim)} {mha : MultiHeadAttention α numHeads headDim}

theorem recent_create (zero : α) : Recent [] [] (mhaCreate zero numHeads headDim) :=
  ⟨List.suffix_refl _, rfl, Nat.zero_le _, List.nil_prefix, List.nil_prefix⟩

theorem Recent.evict (h : Recent tokens recent mha) (numToEvict : Nat) :
    ∃ evicted mha', kvCacheEvictLru mha numToEvict = some (evicted, mha') ∧
      Recent tokens (recent.drop numToEvict) mha' := by
  rcases Nat.eq_zero_or_pos numToEvict with rfl | pos
  · exact ⟨0, mha, if_pos rfl, h⟩
  obtain ⟨c, amount, cLe, dropped⟩ :
      ∃ c, (if numToEvict > mha.kvCacheLen then mha.kvCacheLen else numToEvict) = c ∧
        c ≤ recent.length ∧ recent.drop numToEvict = recent.drop c := by
    split
    case isTrue all =>
      refine ⟨_, rfl, Nat.le_of_eq h.len, ?_⟩
      rw [h.len] at all ⊢
      rw [List.drop_eq_nil_of_le (Nat.le_of_lt all), List.drop_length]
    case isFalse some => exact ⟨_, rfl, by rw [← h.len]; exact Nat.not_lt.1 some, rfl⟩
  have parts : recent = recent.take c ++ recent.drop c := (List.take_append_drop c recent).symm
  have K := h.K
  have V := h.V
  rw [parts, keys_append] at K
  rw [parts, values_append] at V
  obtain ⟨K', moveK, startK⟩ := memcpy_front K
  obtain ⟨V', moveV, startV⟩ := memcpy_front V
  have front : (recent.take c).length = c := List.length_take_of_le cLe
  have rest : (recent.drop c).length = mha.kvCacheLen - c := by rw [List.length_drop, h.len]
  rw [length_keys, length_keys, front, rest] at moveK
  rw [length_values, length_values, front, rest] at moveV
  refine ⟨c, { mha with kvCacheK := K', kvCacheV := V', kvCacheLen := mha.kvCacheLen - c }, ?_, ?_⟩
  · rw [kvCacheEvictLru, if_neg (Nat.ne_of_gt pos)]
    simp only [amount, moveK, moveV, Option.bind_eq_bind, Option.bind_some]
  · rw [dropped]
    exact ⟨(List.drop_suffix c recent).trans h.suffix, rest.symm,
      Nat.le_trans (List.drop_sublist c recent).length_le h.le, startK, startV⟩

theorem Recent.append (h : Recent tokens recent mha) {new : List (Token α numHeads headDim)}
    (fits : new.length ≤ maxKvCacheLen) :
    ∃ mha' recent', kvCacheAppend mha (keys new) (values new) new.length = some mha' ∧
      Recent (tokens ++ new) recent' mha' := by
  rcases Nat.eq_zero_or_pos new.length with zero | pos
  · refine ⟨mha, recent, if_pos zero, ?_⟩
    rw [List.length_eq_zero_iff.1 zero, List.append_nil]
    exact h
  -- After the eviction, if any, the batch fits behind the tokens that are left.
  obtain ⟨mid, left, made, room, h⟩ : ∃ mid left, makeRoom mha new.length = some mid ∧
      left.length + new.length ≤ maxKvCacheLen ∧ Recent tokens left mid := by
    unfold makeRoom
    dsimp only
    split
    case isTrue full =>
      obtain ⟨evicted, mid, evict, h'⟩ := h.evict (mha.kvCacheLen + new.length - maxKvCacheLen)
      refine ⟨mid, _, by rw [evict]; rfl, ?_, h'⟩
      rw [List.length_drop, h.len]
      omega
    case isFalse fits => exact ⟨mha, recent, rfl, by rw [← h.len]; exact Nat.not_lt.1 fits, h⟩
  have inside : left.length * (numHeads * headDim) + new.length * (numHeads * headDim) ≤
      maxKvCacheLen * numHeads * headDim := by
    rw [← Nat.add_mul, Nat.mul_assoc]
    exact Nat.mul_le_mul_right _ room
  obtain ⟨K', copyK, startK⟩ := memcpy_behind (l := keys new) (fun k => (keys new)[k]?) h.K
    (by rw [length_keys, length_keys]; exact inside) (fun k lt => List.getElem?_eq_getElem lt)
  obtain ⟨V', copyV, startV⟩ := memcpy_behind (l := values new) (fun k => (values new)[k]?) h.V
    (by rw [length_values, length_values]; exact inside) (fun k lt => List.getElem?_eq_getElem lt)
  rw [length_keys, length_keys, ← h.len] at copyK
  rw [length_values, length_values, ← h.len] at copyV
  refine ⟨{ mid with kvCacheK := K', kvCacheV := V', kvCacheLen := mid.kvCacheLen + new.length }, left ++ new, ?_, ?_⟩
  · rw [kvCacheAppend, if_neg (Nat.ne_of_gt pos)]
    simp only [made, copyK, copyV, Option.bind_eq_bind, Option.bind_some]
  · refine ⟨?_, ?_, ?_, ?_, ?_⟩
    · obtain ⟨older, eq⟩ := h.suffix
      exact ⟨older, by rw [← List.append_assoc, eq]⟩
    · rw [List.length_append, ← h.len]
    · rw [List.length_append]
      exact room
    · rw [keys_append]
      exact startK
    · rw [values_append]
      exact startV

/-- A batch that is longer than the cache leaves a length beyond it, if anything. -/
theorem append_long {newK newV : List α} {newLen : Nat} (long : maxKvCacheLen < newLen)
    {mha' : MultiHeadAttention α numHeads headDim} (done : kvCacheAppend mha newK newV newLen = some mha') :
    maxKvCacheLen < mha'.kvCacheLen := by
  rw [kvCacheAppend, if_neg (Nat.ne_of_gt (Nat.zero_lt_of_lt long))] at done
  simp only [Option.bind_eq_bind, Option.bind_eq_some_iff] at done
  obtain ⟨mid, -, K, -, V, -, eq⟩ := done
  rw [← Option.some.inj eq]
  exact Nat.lt_of_lt_of_le long (Nat.le_add_left _ _)

/-- With entries in the arrays, it is written behind their end. -/
theorem append_outside (size : 0 < numHeads * headDim) {newK newV : List α} {newLen : Nat}
    (long : maxKvCacheLen < newLen) (mha : MultiHeadAttention α numHeads headDim) :
    kvCacheAppend mha newK newV newLen = none := by
  rw [kvCacheAppend, if_neg (Nat.ne_of_gt (Nat.zero_lt_of_lt long))]
  cases makeRoom mha newLen with
  | none => rfl
  | some mid =>
    have behind : memcpy mid.kvCacheK (mid.kvCacheLen * (numHeads * headDim)) (newK[·]?)
        (newLen * (numHeads * headDim)) = none := by
      refine fill_outside (p := maxKvCacheLen * (numHeads * headDim))
        (List.mem_range.2 (Nat.mul_lt_mul_of_pos_right long size)) ?_ _
      rw [Nat.mul_assoc]
      exact Nat.le_add_left _ _
    simp only [Option.bind_eq_bind, Option.bind_some, behind, Option.bind_none]

theorem Recent.holds (h : Recent tokens recent mha) : HoldsRecent tokens mha := by
  have len := h.len
  have eq : tokens.drop (tokens.length - mha.kvCacheLen) = recent := by
    rw [len]
    exact (List.suffix_iff_eq_drop.1 h.suffix).symm
  refine ⟨by rw [len]; exact h.le, by rw [len]; exact h.suffix.length_le, ?_⟩
  rw [eq, kvCacheLookup]
  rcases Nat.eq_zero_or_pos mha.kvCacheLen with zero | pos
  · rw [if_pos (Or.inr (by omega)), List.length_eq_zero_iff.1 (len.symm.trans zero)]
    rfl
  · have K := readBlock_front h.K
    have V := readBlock_front h.V
    rw [length_keys, ← len] at K
    rw [length_values, ← len] at V
    rw [if_neg (by omega), if_neg (by omega)]
    dsimp only
    rw [if_neg (by omega)]
    simp only [Int.toNat_zero, Nat.zero_mul, Int.toNat_natCast, K, V, Option.bind_eq_bind, Option.bind_some]

/-! ## Runs -/

/-- No batch is longer than the cache. -/
def ShortBatches (ops : List (CacheOp α numHeads headDim)) : Prop :=
  ∀ tokens, .append tokens ∈ ops → tokens.length ≤ maxKvCacheLen

theorem Recent.run (h : Recent tokens recent mha) {ops : List (CacheOp α numHeads headDim)}
    (short : ShortBatches ops) :
    ∃ mha' recent', ops.foldlM CacheOp.apply mha = some mha' ∧ Recent (tokens ++ appended ops) recent' mha' := by
  induction ops generalizing tokens recent mha with
  | nil => exact ⟨mha, recent, rfl, by rw [appended, List.append_nil]; exact h⟩
  | cons op ops ih =>
    have later : ShortBatches ops := fun tokens mem => short tokens (List.mem_cons_of_mem _ mem)
    cases op with
    | append new =>
      obtain ⟨mid, left, step, h⟩ := h.append (short new List.mem_cons_self)
      obtain ⟨mha', recent', run, h⟩ := ih h later
      refine ⟨mha', recent', ?_, by rw [appended, ← List.append_assoc]; exact h⟩
      rw [List.foldlM_cons, CacheOp.apply, step]
      exact run
    | evict numToEvict =>
      obtain ⟨evicted, mid, step, h⟩ := h.evict numToEvict
      obtain ⟨mha', recent', run, h⟩ := ih h later
      refine ⟨mha', recent', ?_, h⟩
      rw [List.foldlM_cons, CacheOp.apply, step]
      exact run

/-- **The cache holds the most recent tokens** throughout a history, exactly when no batch of the
history is longer than the cache. -/
theorem kv_cache_holds_recent (zero : α) (ops : List (CacheOp α numHeads headDim)) :
    (∀ before rest, ops = before ++ rest → ∃ mha,
      before.foldlM CacheOp.apply (mhaCreate zero numHeads headDim) = some mha ∧
        HoldsRecent (appended before) mha) ↔ ShortBatches ops := by
  constructor
  · intro holds tokens mem
    obtain ⟨before, rest, rfl⟩ := List.append_of_mem mem
    obtain ⟨mha, run, -⟩ := holds before _ rfl
    obtain ⟨mha', run', holds'⟩ := holds (before ++ [.append tokens]) rest (by rw [List.append_assoc]; rfl)
    rw [List.foldlM_append, run] at run'
    by_contra long
    have step : kvCacheAppend mha (keys tokens) (values tokens) tokens.length = some mha' := by
      simpa [CacheOp.apply] using run'
    exact Nat.not_lt.2 holds'.len_le (append_long (Nat.not_le.1 long) step)
  · rintro short before rest rfl
    have first : ShortBatches before := fun tokens mem => short tokens (List.mem_append_left _ mem)
    obtain ⟨mha, recent, run, h⟩ := (recent_create zero).run first
    exact ⟨mha, run, h.holds⟩

end History

/-- A batch of one more token than the cache has room for. -/
def longBatch : List (Token Nat 1 1) := List.replicate 2049 ⟨#v[1], #v[2]⟩

/-- It is written behind the end of the empty cache. -/
theorem kv_cache_append_outside :
    [CacheOp.append longBatch].foldlM CacheOp.apply (mhaCreate 0 1 1) = none := by
  rw [List.foldlM_cons, CacheOp.apply, append_outside (by decide)]
  · rfl
  · rw [longBatch, List.length_replicate]
    decide

end MiniHardware.Accel
