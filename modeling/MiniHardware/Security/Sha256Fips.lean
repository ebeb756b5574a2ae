import MiniHardware.Lib.Bytes
import MiniHardware.Lib.Trace
import MiniHardware.Security.Fips180
import MiniHardware.Security.Sha256Stream

/-!
# The transform and FIPS 180-4

`SIG3` rotates by 22 where the standard's `sigma1` rotates by 19. Everything
else is the standard's: with `SIG3` for `sigma1` the two functions are the same
(`sha256Spec_eq`).
-/

namespace MiniHardware.Security
open Lib

/-! ## Words and bytes -/

/-- The rotation of the code is that of the standard. -/
theorem ror32_ofNat (x : UInt32) {n : Nat} (pos : 0 < n) (lt : n < 32) :
    ror32 x (UInt32.ofNat n) = Fips180.rotr n x := by
  have down : (UInt32.ofNat n).toNat % 32 = n := by
    rw [UInt32.toNat_ofNat', Nat.mod_eq_of_lt (by omega : n < 2 ^ 32), Nat.mod_eq_of_lt lt]
  have up : (32 - UInt32.ofNat n).toNat % 32 = 32 - n := by
    rw [UInt32.toNat_sub, UInt32.toNat_ofNat', Nat.mod_eq_of_lt (by omega : n < 2 ^ 32)]
    simp
    omega
  apply UInt32.toNat_inj.1
  rw [ror32, UInt32.toNat_or, UInt32.toNat_shiftRight, UInt32.toNat_shiftLeft, down, up]
  rw [Fips180.rotr]
  show _ = (x.toBitVec.rotateRight n).toNat
  rw [BitVec.toNat_rotateRight, Nat.mod_eq_of_lt lt]
  rfl

/-- `SIG0` is the first large function. -/
theorem sig0_eq (x : UInt32) : sig0 x = Fips180.bigSigma0 x :=
  congrArg₂ (· ^^^ ·) (congrArg₂ (· ^^^ ·) (ror32_ofNat x (by decide) (by decide))
    (ror32_ofNat x (by decide) (by decide))) (ror32_ofNat x (by decide) (by decide))

/-- `SIG1` is the second. -/
theorem sig1_eq (x : UInt32) : sig1 x = Fips180.bigSigma1 x :=
  congrArg₂ (· ^^^ ·) (congrArg₂ (· ^^^ ·) (ror32_ofNat x (by decide) (by decide))
    (ror32_ofNat x (by decide) (by decide))) (ror32_ofNat x (by decide) (by decide))

/-- `SIG2` is the first small function. -/
theorem sig2_eq (x : UInt32) : sig2 x = Fips180.smallSigma0 x :=
  congrArg₂ (· ^^^ ·) (congrArg₂ (· ^^^ ·) (ror32_ofNat x (by decide) (by decide))
    (ror32_ofNat x (by decide) (by decide))) rfl

/-- The length in eight bytes. -/
theorem bigEndian64_ofNat (n : Nat) : bigEndian64 (UInt64.ofNat n) = Fips180.bigEndian 8 n := by
  have byte : ∀ s : Nat, s + 8 ≤ 64 →
      ((UInt64.ofNat n) >>> UInt64.ofNat s).toUInt8 = UInt8.ofNat (n / 2 ^ s) := by
    intro s le
    apply UInt8.toNat_inj.1
    rw [UInt64.toNat_toUInt8, UInt64.toNat_shiftRight, UInt64.toNat_ofNat', UInt64.toNat_ofNat', UInt8.toNat_ofNat',
      Nat.shiftRight_eq_div_pow, Nat.mod_eq_of_lt (by omega : s < 2 ^ 64), Nat.mod_eq_of_lt (by omega : s < 64)]
    apply Nat.eq_of_testBit_eq
    intro i
    simp only [Nat.testBit_mod_two_pow, Nat.testBit_div_two_pow]
    by_cases lt : i < 8
    · simp [lt, show i + s < 64 by omega]
    · simp [lt]
  have bytes : Fips180.bigEndian 8 n = [56, 48, 40, 32, 24, 16, 8, 0].map fun s => UInt8.ofNat (n / 2 ^ s) := rfl
  rw [bytes, ← List.map_congr_left fun s mem => byte s (by revert s; decide)]
  rfl

/-- The digest is the words in order, most significant bytes first. -/
theorem digestOf_eq (h : Vector UInt32 8) : digestOf h = h.toList.flatMap fun w => Fips180.bigEndian 4 w.toNat := by
  refine congrArg (fun f => h.toList.flatMap f) (funext fun w : UInt32 => ?_)
  have byte : ∀ s : Nat, s < 32 → (w >>> UInt32.ofNat s).toUInt8 = UInt8.ofNat (w.toNat / 2 ^ s) := by
    intro s lt
    apply UInt8.toNat_inj.1
    rw [UInt32.toNat_toUInt8, UInt32.toNat_shiftRight, UInt32.toNat_ofNat', UInt8.toNat_ofNat',
      Nat.shiftRight_eq_div_pow, Nat.mod_eq_of_lt (by omega : s < 2 ^ 32), Nat.mod_eq_of_lt lt]
  have bytes : Fips180.bigEndian 4 w.toNat = [24, 16, 8, 0].map fun s => UInt8.ofNat (w.toNat / 2 ^ s) := rfl
  rw [bytes, ← List.map_congr_left fun s mem => byte s (by revert s; decide)]
  rfl

/-- The words of a block. -/
theorem blockWord_blockAt {block : List UInt8} (t : Fin 16) (len : block.length = 64) :
    blockWord (blockAt block) t = Fips180.word block t.val := by
  have four : (block.drop (4 * t.val)).take 4 = (List.range 4).map fun i => block.getD (4 * t.val + i) 0 := by
    apply List.ext_getElem
    · simp only [List.length_take, List.length_drop, List.length_map, List.length_range]
      omega
    · intro i h h'
      rw [List.length_map, List.length_range] at h'
      rw [List.getElem_map, List.getElem_range, List.getElem_take, List.getElem_drop,
        List.getD_eq_getElem _ _ (by omega)]
  rw [Fips180.word, four]
  have here := or_bytes (block.getD (4 * t.val) 0) (block.getD (4 * t.val + 1) 0) (block.getD (4 * t.val + 2) 0)
    (block.getD (4 * t.val + 3) 0)
  simp only [blockWord, blockAt, Vector.getElem_ofFn, Nat.mul_comm t.val 4]
  exact here

/-- The constants are those of the standard. -/
theorem sha256K_eq : ∀ t : Fin 64, sha256K.get t = Fips180.constantK t := by decide +kernel

/-- The first hash value is that of the standard. -/
theorem initialHash_eq : initialHash = Fips180.initialHash := by decide +kernel

/-! ## The transform, with `sigma` for `SIG3` -/

section Transform

variable (sigma : UInt32 → UInt32)

/-- The loop fills in the schedule of the standard. -/
theorem scheduleWith_eq {block : List UInt8} (len : block.length = 64) (t : Fin 64) :
    (scheduleWith sigma (blockAt block)).get t = Fips180.schedule sigma (Fips180.word block) t.val := by
  have filled := @drop_finRange_foldl_invariant (Vector UInt32 64) 16 64 (scheduleStepWith sigma)
    (fun k w => ∀ t (lt : t < 64), t < k → w[t] = Fips180.schedule sigma (Fips180.word block) t)
    (Vector.ofFn fun t => if h : t.val < 16 then blockWord (blockAt block) ⟨t.val, h⟩ else 0)
    (by decide) ?_ ?_
  · exact filled t.val t.isLt t.isLt
  · intro t _ lt
    rw [Vector.getElem_ofFn, dif_pos lt, blockWord_blockAt _ len, Fips180.schedule_of_lt lt]
  · intro i w le known t lt upto
    rw [scheduleStepWith, Vector.getElem_set]
    by_cases here : i.val = t
    · subst here
      rw [if_pos rfl, known _ _ (by omega), known _ _ (by omega), known _ _ (by omega), known _ _ (by omega),
        sig2_eq, Fips180.schedule_of_le le]
    · rw [if_neg here]
      exact known t lt (by omega)

/-- The working variables as a vector. -/
def Working.vector (s : Working) : Vector UInt32 8 := #v[s.a, s.b, s.c, s.d, s.e, s.f, s.g, s.hi]

/-- A round of the code is a round of the standard. -/
theorem roundStep_vector {w : Vector UInt32 64} {w' : Nat → UInt32} (same : ∀ t : Fin 64, w.get t = w' t.val)
    (s : Working) (t : Fin 64) : (roundStep w s t).vector = Fips180.round w' s.vector t := by
  have constant : sha256K[t] = Fips180.constantK t := sha256K_eq t
  have word : w[t] = w' t.val := same t
  have t1 : s.hi + sig1 s.e + ch s.e s.f s.g + sha256K[t] + w[t] =
      s.hi + Fips180.bigSigma1 s.e + Fips180.chooseBits s.e s.f s.g + Fips180.constantK t + w' t.val := by
    rw [sig1_eq, constant, word]
    rfl
  have t2 : sig0 s.a + maj s.a s.b s.c = Fips180.bigSigma0 s.a + Fips180.majority s.a s.b s.c := by
    rw [sig0_eq]
    rfl
  rw [roundStep, t1, t2]
  rfl

/-- **The transform compresses a block as the standard does.** -/
theorem transformWith_eq (h : Vector UInt32 8) {block : List UInt8} (len : block.length = 64) :
    transformWith sigma h (blockAt block) = Fips180.compress sigma h block := by
  have start : Working.vector ⟨h[0], h[1], h[2], h[3], h[4], h[5], h[6], h[7]⟩ = h := by
    refine Vector.ext fun i lt => ?_
    match i, lt with
    | 0, _ | 1, _ | 2, _ | 3, _ | 4, _ | 5, _ | 6, _ | 7, _ => rfl
  have rounds : ∀ s, ((List.finRange 64).foldl (roundStep (scheduleWith sigma (blockAt block))) s).vector =
      (List.finRange 64).foldl (Fips180.round (Fips180.schedule sigma (Fips180.word block))) s.vector :=
    fun _ => (List.foldl_hom Working.vector fun s t =>
      (roundStep_vector (scheduleWith_eq sigma len) s t).symm).symm
  have here := rounds ⟨h[0], h[1], h[2], h[3], h[4], h[5], h[6], h[7]⟩
  rw [start] at here
  rw [Fips180.compress, ← here]
  refine Vector.ext fun i lt => ?_
  rw [Vector.getElem_zipWith]
  match i, lt with
  | 0, _ | 1, _ | 2, _ | 3, _ | 4, _ | 5, _ | 6, _ | 7, _ => exact UInt32.add_comm _ _

end Transform

/-! ## The message -/

/-- The zero bytes of the padding, over remainders. -/
theorem zeroBytes_eq (length : Nat) : Fips180.zeroBytes length = (119 - length % 64) % 64 := by
  have found : (List.range 64).find? (fun z => (length + 1 + z) % 64 = 56) = some ((119 - length % 64) % 64) := by
    rw [List.find?_range_eq_some]
    simp only [List.mem_range, decide_eq_true_eq, Bool.not_eq_true', decide_eq_false_iff_not]
    refine ⟨by omega, by omega, ?_⟩
    intro z lt
    omega
  rw [Fips180.zeroBytes, found, Option.getD_some]

/-- The padding is what the code appends. -/
theorem padded_eq (msg : List UInt8) : Fips180.padded msg = msg ++ sha256Padding msg.length := by
  rw [Fips180.padded, sha256Padding, zeroBytes_eq, ← bigEndian64_ofNat, List.append_assoc]

/-- A padded message is cut into whole blocks. -/
theorem length_of_mem_blocks {msg block : List UInt8} (mem : block ∈ Fips180.blocks msg) : block.length = 64 := by
  obtain ⟨i, hi, rfl⟩ := List.mem_map.1 mem
  rw [List.mem_range] at hi
  have := Nat.div_mul_le_self (Fips180.padded msg).length 64
  rw [List.length_take, List.length_drop]
  omega

/-- The standard's function, by the transform of the code. -/
theorem sha256With_eq (sigma : UInt32 → UInt32) (msg : List UInt8) :
    Fips180.sha256With sigma msg =
      digestOf ((Fips180.blocks msg).foldl (fun h block => transformWith sigma h (blockAt block)) initialHash) := by
  rw [digestOf_eq, Fips180.sha256With, initialHash_eq]
  rw [List.foldl_ext _ _ _ fun h block mem => transformWith_eq sigma h (length_of_mem_blocks mem)]

/-- **With `SIG3` for `sigma1` the function of the standard is the one of the code.** -/
theorem sha256Spec_eq (msg : List UInt8) : sha256Spec msg = Fips180.sha256With sig3 msg := by
  rw [sha256With_eq, sha256Spec, foldBlocks_eq_foldl, ← padded_eq]
  rfl

end MiniHardware.Security
