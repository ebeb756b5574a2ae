import MiniHardware.Security.Sha256Fips

/-!
# The schedule is not the one of FIPS 180-4

`SIG3` and the standard's `sigma1` agree on the words 0 and `0xffffffff` only.
The last block of a padded message ends with its length in bits; where the two
functions agree on that, the block is the marker and zeros, and they differ
two words later.
-/

namespace MiniHardware.Security
open Lib

/-! ## The two functions -/

/-- A word that is the same rotated by three has the same bit everywhere. -/
theorem eq_of_rotr_eq {x : UInt32} (rotated : Fips180.rotr 22 x = Fips180.rotr 19 x) :
    x = 0 ∨ x = 0xffffffff := by
  have turn : ∀ r < 32, ∀ i < 32, (Fips180.rotr r x).toBitVec.getLsbD i = x.toBitVec.getLsbD ((i + r) % 32) := by
    intro r hr i hi
    show (x.toBitVec.rotateRight r).getLsbD i = _
    rw [BitVec.getLsbD_rotateRight, Nat.mod_eq_of_lt hr]
    rcases Nat.lt_or_ge i (32 - r) with lt | ge
    · rw [decide_eq_true lt, cond_true, Nat.mod_eq_of_lt (by omega), Nat.add_comm]
    · rw [decide_eq_false (by omega), cond_false, decide_eq_true hi, Bool.true_and]
      rw [show (i + r) % 32 = i - (32 - r) by omega]
  have three : ∀ k, x.toBitVec.getLsbD ((k + 3) % 32) = x.toBitVec.getLsbD (k % 32) := by
    intro k
    have here := congrArg (fun y : UInt32 => y.toBitVec.getLsbD ((k + 13) % 32)) rotated
    rw [turn 22 (by decide) _ (by omega), turn 19 (by decide) _ (by omega)] at here
    rwa [show ((k + 13) % 32 + 22) % 32 = (k + 3) % 32 by omega,
      show ((k + 13) % 32 + 19) % 32 = k % 32 by omega] at here
  -- eleven turns by three are one by one
  have threes : ∀ n k, x.toBitVec.getLsbD ((k + 3 * n) % 32) = x.toBitVec.getLsbD (k % 32) := by
    intro n k
    induction n with
    | zero => rfl
    | succ n ih => rw [Nat.mul_succ, ← Nat.add_assoc, three, ih]
  have all : ∀ i < 32, x.toBitVec.getLsbD i = x.toBitVec.getLsbD 0 := by
    intro i lt
    induction i with
    | zero => rfl
    | succ i ih =>
      rw [← ih (by omega)]
      have := threes 11 i
      rwa [show (i + 3 * 11) % 32 = i + 1 by omega, Nat.mod_eq_of_lt (by omega)] at this
  cases bit : x.toBitVec.getLsbD 0 with
  | false =>
    left
    apply UInt32.toBitVec_inj.1
    apply BitVec.eq_of_getLsbD_eq
    intro i lt
    rw [all i lt, bit]
    exact BitVec.getLsbD_zero.symm
  | true =>
    right
    apply UInt32.toBitVec_inj.1
    apply BitVec.eq_of_getLsbD_eq
    intro i lt
    rw [all i lt, bit]
    have ones : (0xffffffff : UInt32).toBitVec = BitVec.allOnes 32 := rfl
    rw [ones, BitVec.getLsbD_allOnes, decide_eq_true lt]

/-- They agree on two words only. -/
theorem eq_of_sig3_eq {x : UInt32} (same : sig3 x = Fips180.smallSigma1 x) : x = 0 ∨ x = 0xffffffff := by
  apply eq_of_rotr_eq
  have first := ror32_ofNat x (n := 17) (by decide) (by decide)
  have second := ror32_ofNat x (n := 22) (by decide) (by decide)
  have expanded : Fips180.rotr 17 x ^^^ Fips180.rotr 22 x ^^^ Fips180.shr 10 x =
      Fips180.rotr 17 x ^^^ Fips180.rotr 19 x ^^^ Fips180.shr 10 x := by
    rw [← second, ← first]
    exact same
  exact (UInt32.xor_right_inj _).1 ((UInt32.xor_left_inj _).1 expanded)

/-! ## The schedules of a block -/

section Block

variable {block : List UInt8} (len : block.length = 64)
  (agree : ∀ t : Fin 64, (schedule (blockAt block)).get t =
    Fips180.schedule Fips180.smallSigma1 (Fips180.word block) t.val)

include len agree

/-- Where the schedules agree, the functions agree on every word that they take. -/
theorem word_of_agree (t : Nat) (ge : 14 ≤ t) (lt : t < 62) :
    Fips180.schedule Fips180.smallSigma1 (Fips180.word block) t = 0 ∨
      Fips180.schedule Fips180.smallSigma1 (Fips180.word block) t = 0xffffffff := by
  have same : ∀ k < 64, Fips180.schedule sig3 (Fips180.word block) k =
      Fips180.schedule Fips180.smallSigma1 (Fips180.word block) k := by
    intro k hk
    rw [← agree ⟨k, hk⟩]
    exact (scheduleWith_eq sig3 len ⟨k, hk⟩).symm
  have next := same (t + 2) (by omega)
  rw [@Fips180.schedule_of_le sig3 _ (t + 2) (by omega),
    @Fips180.schedule_of_le Fips180.smallSigma1 _ (t + 2) (by omega), same _ (by omega), same _ (by omega),
    same _ (by omega), same _ (by omega), UInt32.add_left_inj, UInt32.add_left_inj, UInt32.add_left_inj,
    Nat.add_sub_cancel] at next
  exact eq_of_sig3_eq next

end Block

/-! ## The last block -/

/-- The last word of a block that ends with a length. -/
theorem word_append_bigEndian {front : List UInt8} (len : front.length = 56) (n : Nat) :
    Fips180.word (front ++ Fips180.bigEndian 8 n) 15 = UInt32.ofNat n := by
  have bytes : ((front ++ Fips180.bigEndian 8 n).drop (4 * 15)).take 4 =
      [UInt8.ofNat (n / 256 ^ 3), UInt8.ofNat (n / 256 ^ 2), UInt8.ofNat (n / 256 ^ 1), UInt8.ofNat (n / 256 ^ 0)] := by
    rw [List.drop_append, List.drop_of_length_le (by omega), len, List.nil_append]
    rfl
  apply UInt32.toNat_inj.1
  rw [Fips180.word, bytes]
  simp only [List.foldl_cons, List.foldl_nil, UInt8.toNat_ofNat', UInt32.toNat_ofNat']
  omega

/-- The last block of a padded message. -/
theorem last_block (msg : List UInt8) :
    ∃ front : List UInt8, front.length = 56 ∧
      front ++ Fips180.bigEndian 8 (8 * msg.length) ∈ Fips180.blocks msg ∧
      (msg.length % 64 = 0 → front = 0x80 :: List.replicate 55 0) := by
  obtain ⟨front, whole, lenFront⟩ : ∃ front : List UInt8,
      Fips180.padded msg = front ++ Fips180.bigEndian 8 (8 * msg.length) ∧
        front = msg ++ 0x80 :: List.replicate ((119 - msg.length % 64) % 64) 0 :=
    ⟨_, by rw [Fips180.padded, zeroBytes_eq], rfl⟩
  have len : front.length = msg.length + 1 + (119 - msg.length % 64) % 64 := by
    rw [lenFront, List.length_append, List.length_cons, List.length_replicate]
    omega
  have lenBytes : (Fips180.bigEndian 8 (8 * msg.length)).length = 8 := rfl
  have lenLast : (front.drop (64 * (front.length / 64))).length = 56 := by
    rw [List.length_drop]
    omega
  refine ⟨front.drop (64 * (front.length / 64)), lenLast, ?_, ?_⟩
  · refine List.mem_map.2 ⟨front.length / 64, ?_, ?_⟩
    · rw [List.mem_range, whole, List.length_append, lenBytes]
      omega
    · rw [whole, List.drop_append_of_le_length (Nat.mul_div_le _ _), List.take_of_length_le]
      rw [List.length_append, lenLast, lenBytes]
  · intro aligned
    rw [show 64 * (front.length / 64) = msg.length by omega, lenFront, List.drop_left, aligned]

/-- The block of the marker, zeros and a length: two words after the length the functions differ. -/
theorem marker_block_differs {n : Nat}
    (words : ∀ t, 14 ≤ t → t < 62 →
      Fips180.schedule Fips180.smallSigma1
          (Fips180.word (0x80 :: List.replicate 55 0 ++ Fips180.bigEndian 8 n)) t = 0 ∨
        Fips180.schedule Fips180.smallSigma1
          (Fips180.word (0x80 :: List.replicate 55 0 ++ Fips180.bigEndian 8 n)) t = 0xffffffff) : False := by
  have w0 : Fips180.word (0x80 :: List.replicate 55 0 ++ Fips180.bigEndian 8 n) 0 = 0x80000000 := rfl
  have w1 : Fips180.word (0x80 :: List.replicate 55 0 ++ Fips180.bigEndian 8 n) 1 = 0 := rfl
  have w9 : Fips180.word (0x80 :: List.replicate 55 0 ++ Fips180.bigEndian 8 n) 9 = 0 := rfl
  have length := words 14 (by decide) (by decide)
  have next := words 16 (by decide) (by decide)
  rw [Fips180.schedule_of_le (by decide)] at next
  simp only [Nat.reduceSub] at next
  rw [@Fips180.schedule_of_lt _ _ 9 (by decide), @Fips180.schedule_of_lt _ _ 1 (by decide),
    @Fips180.schedule_of_lt _ _ 0 (by decide), w0, w1, w9] at next
  rcases length with zero | ones
  · rw [zero] at next
    revert next
    decide
  · rw [ones] at next
    revert next
    decide

/-- **The function of the code has everything but `sigma1` from the standard**, and on no message the
standard's schedule. -/
theorem sha256_never_fips (ctx : MiniHwSecSha256Ctx) (msg : List UInt8) :
    sha256 ctx msg = Fips180.sha256With sig3 msg ∧
      ¬ (sha256 ctx msg = Fips180.sha256 msg ∧ ∀ block ∈ Fips180.blocks msg, ∀ t : Fin 64,
        (schedule (blockAt block)).get t = Fips180.schedule Fips180.smallSigma1 (Fips180.word block) t.val) := by
  have once := (absorbed_run ctx [msg]).final
  rw [List.flatten_cons, List.flatten_nil, List.append_nil] at once
  refine ⟨once.trans (sha256Spec_eq msg), ?_⟩
  rintro ⟨-, agree⟩
  obtain ⟨front, lenFront, mem, start⟩ := last_block msg
  have words := word_of_agree (length_of_mem_blocks mem) (agree _ mem)
  have aligned : msg.length % 64 = 0 := by
    have last := words 15 (by decide) (by decide)
    rw [Fips180.schedule_of_lt (by decide), word_append_bigEndian lenFront] at last
    rcases last with zero | ones
    · have := congrArg UInt32.toNat zero
      rw [UInt32.toNat_ofNat'] at this
      have : 8 * msg.length % 2 ^ 32 = 0 := this
      omega
    · have := congrArg UInt32.toNat ones
      rw [UInt32.toNat_ofNat'] at this
      have : 8 * msg.length % 2 ^ 32 = 0xffffffff := this
      omega
  obtain rfl := start aligned
  exact marker_block_differs words

/-! ## A message -/

/-- A context of zeros. -/
def zeroContext : MiniHwSecSha256Ctx := ⟨Vector.replicate 8 0, Vector.replicate 64 0, 0, 0⟩

theorem sha256With_abc (sigma : UInt32 → UInt32) :
    Fips180.sha256With sigma [0x61, 0x62, 0x63] =
      digestOf (transformWith sigma initialHash (blockAt (0x61 :: 0x62 :: 0x63 :: 0x80 ::
        List.replicate 59 0 ++ [0x18]))) := by
  have one : Fips180.blocks [0x61, 0x62, 0x63] =
      [0x61 :: 0x62 :: 0x63 :: 0x80 :: List.replicate 59 0 ++ [0x18]] := by decide
  rw [sha256With_eq, one, List.foldl_cons, List.foldl_nil]

/-- The digests of `abc`; the one of the standard starts with `ba7816bf`. -/
theorem sha256_abc_differs :
    sha256 zeroContext [0x61, 0x62, 0x63] ≠ Fips180.sha256 [0x61, 0x62, 0x63] ∧
      (Fips180.sha256 [0x61, 0x62, 0x63]).take 4 = [0xba, 0x78, 0x16, 0xbf] := by
  have once := (absorbed_run zeroContext [[0x61, 0x62, 0x63]]).final
  have code : sha256 zeroContext [0x61, 0x62, 0x63] = Fips180.sha256With sig3 [0x61, 0x62, 0x63] :=
    once.trans (sha256Spec_eq _)
  rw [code, Fips180.sha256, sha256With_abc, sha256With_abc]
  decide +kernel

end MiniHardware.Security
