import Mathlib.Algebra.Order.Floor.Defs
import Mathlib.Algebra.Order.Field.Basic
import Mathlib.Data.Rat.Floor
import Mathlib.Tactic.Linarith
import Mathlib.Tactic.Positivity
import Mathlib.Tactic.Ring
import MiniHardware.Lib.Potential

/-!
# The token bucket (`mini-network-hardware/src/flow.c`)

Tokens come at a rate, up to the size of the bucket, and a packet passes when
there are as many as it has bytes. The numbers are those of an ordered field,
where the source has `double`; the time stamps are the source's.
-/

namespace MiniHardware.Network
open Lib

structure TokenBucket (F : Type*) where
  rate : F
  maxBucket : F
  currentTokens : F
  lastUpdateNs : UInt64
  packetsPassed : UInt64
  packetsDropped : UInt64
  bytesPassed : UInt64
  bytesDropped : UInt64

section Model
variable {F : Type*} [Field F] [LinearOrder F]

def tokenBucketInit (rate maxBucket : F) : TokenBucket F :=
  ⟨rate, maxBucket, maxBucket, 0, 0, 0, 0, 0⟩

/-- Seconds between two time stamps. -/
def elapsedSeconds (start stop : UInt64) : F := ((stop - start).toNat : F) * (1 / 10 ^ 9)

/-- A time stamp before the last one changes nothing. -/
def tokenBucketUpdate (tb : TokenBucket F) (nowNs : UInt64) : TokenBucket F :=
  if nowNs < tb.lastUpdateNs then tb
  else
    let tokens := tb.currentTokens + elapsedSeconds tb.lastUpdateNs nowNs * tb.rate
    { tb with
      currentTokens := if tokens > tb.maxBucket then tb.maxBucket else tokens
      lastUpdateNs := nowNs }

variable [FloorSemiring F]

def tokenBucketConsume (tb : TokenBucket F) (bytes : F) (nowNs : UInt64) : Bool × TokenBucket F :=
  if bytes ≤ 0 then (false, tb)
  else
    let tb := tokenBucketUpdate tb nowNs
    if tb.currentTokens ≥ bytes then
      (true, { tb with
        currentTokens := tb.currentTokens - bytes
        packetsPassed := tb.packetsPassed + 1
        bytesPassed := tb.bytesPassed + UInt64.ofNat ⌊bytes⌋₊ })
    else
      (false, { tb with
        packetsDropped := tb.packetsDropped + 1
        bytesDropped := tb.bytesDropped + UInt64.ofNat ⌊bytes⌋₊ })

/-- A call with its size and its time. -/
def consumeStep (tb : TokenBucket F) (call : F × UInt64) : TokenBucket F :=
  (tokenBucketConsume tb call.1 call.2).2

/-- The bytes a call gets through. -/
def acceptedBytes (tb : TokenBucket F) (call : F × UInt64) : F :=
  if (tokenBucketConsume tb call.1 call.2).1 then call.1 else 0

end Model

section Bounds
variable {F : Type*} [Field F] [LinearOrder F] {r b : F} {tb : TokenBucket F}

/-- The bucket holds what it may hold. -/
structure Filled (r b : F) (tb : TokenBucket F) : Prop where
  rate : tb.rate = r
  maxBucket : tb.maxBucket = b
  nonneg : 0 ≤ tb.currentTokens
  le : tb.currentTokens ≤ b

theorem filled_init (hb : 0 ≤ b) : Filled r b (tokenBucketInit r b) := ⟨rfl, rfl, hb, le_refl b⟩

/-- The tokens that have come in up to the last time stamp. -/
def supplied (r : F) (tb : TokenBucket F) : F := r * (tb.lastUpdateNs.toNat : F) * (1 / 10 ^ 9)

variable [IsStrictOrderedRing F]

theorem supplied_update {nowNs : UInt64} (h : ¬ nowNs < tb.lastUpdateNs) :
    elapsedSeconds tb.lastUpdateNs nowNs * r = r * (nowNs.toNat : F) * (1 / 10 ^ 9) - supplied r tb := by
  have le : tb.lastUpdateNs ≤ nowNs := UInt64.not_lt.1 h
  rw [elapsedSeconds, UInt64.toNat_sub_of_le _ _ le, Nat.cast_sub (UInt64.le_iff_toNat_le.1 le), supplied]
  ring

/-- An update adds at most what came in. -/
theorem Filled.update (hr : 0 ≤ r) (h : Filled r b tb) (nowNs : UInt64) :
    Filled r b (tokenBucketUpdate tb nowNs) ∧
      (tokenBucketUpdate tb nowNs).currentTokens ≤
        tb.currentTokens + (supplied r (tokenBucketUpdate tb nowNs) - supplied r tb) := by
  unfold tokenBucketUpdate
  split
  · exact ⟨h, by rw [sub_self, add_zero]⟩
  case isFalse later =>
    have came := supplied_update (r := r) later
    have nonneg : 0 ≤ elapsedSeconds tb.lastUpdateNs nowNs * r :=
      mul_nonneg (mul_nonneg (Nat.cast_nonneg _) (by positivity)) hr
    obtain ⟨rfl, rfl, low, high⟩ := h
    dsimp only
    split
    case isTrue full =>
      refine ⟨⟨rfl, rfl, low.trans high, le_refl _⟩, ?_⟩
      rw [came] at full
      exact full.le
    case isFalse room =>
      exact ⟨⟨rfl, rfl, add_nonneg low nonneg, not_lt.1 room⟩, by rw [came]; exact le_refl _⟩

variable [FloorSemiring F]

/-- A call keeps the bucket, and pays with tokens for the bytes it lets through. -/
theorem Filled.consume (hr : 0 ≤ r) (h : Filled r b tb) (call : F × UInt64) :
    Filled r b (consumeStep tb call) ∧
      acceptedBytes tb call + (consumeStep tb call).currentTokens ≤
        tb.currentTokens + (supplied r (consumeStep tb call) - supplied r tb) := by
  obtain ⟨updated, came⟩ := h.update hr call.2
  unfold acceptedBytes consumeStep tokenBucketConsume
  split
  · refine ⟨h, ?_⟩
    simp
  case isFalse some =>
    dsimp only
    split
    case isTrue enough =>
      refine ⟨⟨updated.rate, updated.maxBucket, sub_nonneg.2 enough, ?_⟩, ?_⟩
      · exact (sub_le_self _ (not_le.1 some).le).trans updated.le
      · rw [if_pos rfl, add_sub_cancel]
        exact came
    case isFalse =>
      refine ⟨⟨updated.rate, updated.maxBucket, updated.nonneg, updated.le⟩, ?_⟩
      rw [if_neg Bool.false_ne_true, zero_add]
      exact came

/-- After any calls, further calls let through no more than a full bucket and
what comes in meanwhile. -/
theorem token_bucket_bounds (hr : 0 ≤ r) (hb : 0 ≤ b) (before part : List (F × UInt64)) :
    let start := run consumeStep (tokenBucketInit r b) before
    let stop := run consumeStep start part
    (0 ≤ stop.currentTokens ∧ stop.currentTokens ≤ b) ∧
      cost consumeStep acceptedBytes start part ≤
        b + r * ((stop.lastUpdateNs.toNat : F) - start.lastUpdateNs.toNat) * (1 / 10 ^ 9) := by
  intro start stop
  have keep : ∀ s (call : F × UInt64), Filled r b s → Filled r b (consumeStep s call) :=
    fun s call h => (h.consume hr call).1
  have filled : Filled r b start := run_invariant keep (filled_init hb) before
  have last : Filled r b stop := run_invariant keep filled part
  have paid := cost_le_potential (Filled r b) TokenBucket.currentTokens (supplied r) keep
    (fun s call h => (h.consume hr call).2) filled part
  refine ⟨⟨last.nonneg, last.le⟩, ?_⟩
  have came : supplied r stop - supplied r start =
      r * ((stop.lastUpdateNs.toNat : F) - start.lastUpdateNs.toNat) * (1 / 10 ^ 9) := by
    rw [supplied, supplied]
    ring
  rw [← came]
  linarith [filled.le, last.nonneg]

end Bounds

theorem token_bucket_bounds_kilobyte :
    let start := run consumeStep (tokenBucketInit (1000 : ℚ) 5000) [(100, 1000000000)]
    let stop := run consumeStep start [(10000, 1000000000), (40, 7)]
    (0 ≤ stop.currentTokens ∧ stop.currentTokens ≤ 5000) ∧
      cost consumeStep acceptedBytes start [(10000, 1000000000), (40, 7)] ≤
        5000 + 1000 * ((stop.lastUpdateNs.toNat : ℚ) - start.lastUpdateNs.toNat) * (1 / 10 ^ 9) :=
  token_bucket_bounds (by decide) (by decide) [(100, 1000000000)] [(10000, 1000000000), (40, 7)]

end MiniHardware.Network
