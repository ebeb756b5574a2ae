import Mathlib.Tactic.IntervalCases
import MiniHardware.Security.Hmac
import MiniHardware.Security.Sha256Fips

/-!
# Hashes over natural numbers

The hash, HMAC and HKDF with words and bytes as natural numbers and lists for
the arrays, so that the hash of a given message is computed where a proof asks
for it. `toNat_hashPieces` and `toNat_hkdfSha256` take them back to the code.
-/

namespace MiniHardware.Security.Sha256Nat
open Lib

/-! ## Words -/

def add (x y : Nat) : Nat := (x + y) % 4294967296

def ror32 (x n : Nat) : Nat := x >>> n ||| (x <<< (32 - n)) % 4294967296

def ch (x y z : Nat) : Nat := (x &&& y) ^^^ ((4294967295 - x) &&& z)

def maj (x y z : Nat) : Nat := (x &&& y) ^^^ (x &&& z) ^^^ (y &&& z)

def sig0 (x : Nat) : Nat := ror32 x 2 ^^^ ror32 x 13 ^^^ ror32 x 22

def sig1 (x : Nat) : Nat := ror32 x 6 ^^^ ror32 x 11 ^^^ ror32 x 25

def sig2 (x : Nat) : Nat := ror32 x 7 ^^^ ror32 x 18 ^^^ x >>> 3

def sig3 (x : Nat) : Nat := ror32 x 17 ^^^ ror32 x 22 ^^^ x >>> 10

/-- Addition of words wraps at 32 bits. -/
theorem toNat_add (x y : UInt32) : (x + y).toNat = add x.toNat y.toNat := UInt32.toNat_add x y

/-- The rotations that the code asks for, by 1 to 31 bits, over numbers. -/
theorem toNat_ror32 (x : UInt32) {n : Nat} (pos : 0 < n) (lt : n < 32) :
    (Security.ror32 x (UInt32.ofNat n)).toNat = ror32 x.toNat n := by
  have small : (UInt32.ofNat n).toNat = n := UInt32.toNat_ofNat_of_lt' (Nat.lt_trans lt (by decide))
  have le : UInt32.ofNat n ≤ 32 := by
    rw [UInt32.le_iff_toNat_le, small]
    exact lt.le
  have up : (32 - UInt32.ofNat n).toNat = 32 - n := by
    rw [UInt32.toNat_sub_of_le _ _ le, small]
    rfl
  rw [Security.ror32, UInt32.toNat_or, UInt32.toNat_shiftRight, UInt32.toNat_shiftLeft, small, up,
    Nat.mod_eq_of_lt lt, Nat.mod_eq_of_lt (by omega : 32 - n < 32)]
  rfl

/-- `Ch` over numbers. -/
theorem toNat_ch (x y z : UInt32) : (Security.ch x y z).toNat = ch x.toNat y.toNat z.toNat := by
  rw [Security.ch, UInt32.toNat_xor, UInt32.toNat_and, UInt32.toNat_and, UInt32.toNat_not]
  rfl

/-- `Maj` over numbers. -/
theorem toNat_maj (x y z : UInt32) : (Security.maj x y z).toNat = maj x.toNat y.toNat z.toNat := by
  rw [Security.maj, UInt32.toNat_xor, UInt32.toNat_xor, UInt32.toNat_and, UInt32.toNat_and, UInt32.toNat_and]
  rfl

/-- `SIG0` over numbers. -/
theorem toNat_sig0 (x : UInt32) : (Security.sig0 x).toNat = sig0 x.toNat := by
  rw [Security.sig0, UInt32.toNat_xor, UInt32.toNat_xor]
  exact congrArg₂ (· ^^^ ·) (congrArg₂ (· ^^^ ·) (toNat_ror32 x (by decide) (by decide))
    (toNat_ror32 x (by decide) (by decide))) (toNat_ror32 x (by decide) (by decide))

/-- `SIG1` over numbers. -/
theorem toNat_sig1 (x : UInt32) : (Security.sig1 x).toNat = sig1 x.toNat := by
  rw [Security.sig1, UInt32.toNat_xor, UInt32.toNat_xor]
  exact congrArg₂ (· ^^^ ·) (congrArg₂ (· ^^^ ·) (toNat_ror32 x (by decide) (by decide))
    (toNat_ror32 x (by decide) (by decide))) (toNat_ror32 x (by decide) (by decide))

/-- `SIG2` over numbers. -/
theorem toNat_sig2 (x : UInt32) : (Security.sig2 x).toNat = sig2 x.toNat := by
  rw [Security.sig2, UInt32.toNat_xor, UInt32.toNat_xor, UInt32.toNat_shiftRight]
  exact congrArg₂ (· ^^^ ·) (congrArg₂ (· ^^^ ·) (toNat_ror32 x (by decide) (by decide))
    (toNat_ror32 x (by decide) (by decide))) rfl

/-- `SIG3` over numbers, with the amounts that the code rotates by. -/
theorem toNat_sig3 (x : UInt32) : (Security.sig3 x).toNat = sig3 x.toNat := by
  rw [Security.sig3, UInt32.toNat_xor, UInt32.toNat_xor, UInt32.toNat_shiftRight]
  exact congrArg₂ (· ^^^ ·) (congrArg₂ (· ^^^ ·) (toNat_ror32 x (by decide) (by decide))
    (toNat_ror32 x (by decide) (by decide))) rfl

/-! ## A block -/

/-- The eight words of a state. -/
structure State where
  a : Nat
  b : Nat
  c : Nat
  d : Nat
  e : Nat
  f : Nat
  g : Nat
  hi : Nat

def ofWorking (s : Working) : State :=
  ⟨s.a.toNat, s.b.toNat, s.c.toNat, s.d.toNat, s.e.toNat, s.f.toNat, s.g.toNat, s.hi.toNat⟩

def ofHash (h : Vector UInt32 8) : State :=
  ofWorking ⟨h.get 0, h.get 1, h.get 2, h.get 3, h.get 4, h.get 5, h.get 6, h.get 7⟩

/-- A round with its constant and its word. -/
def round (s : State) (kw : Nat × Nat) : State :=
  let t1 := add (add (add (add s.hi (sig1 s.e)) (ch s.e s.f s.g)) kw.1) kw.2
  let t2 := add (sig0 s.a) (maj s.a s.b s.c)
  { a := add t1 t2, b := s.a, c := s.b, d := s.c, e := add s.d t1, f := s.e, g := s.f, hi := s.g }

/-- The words of a string of bytes. -/
def words : List Nat → List Nat
  | b0 :: b1 :: b2 :: b3 :: rest => (((b0 * 256 + b1) * 256 + b2) * 256 + b3) :: words rest
  | _ => []

/-- Sixteen words of the schedule in a row. -/
structure Window where
  w0 : Nat
  w1 : Nat
  w2 : Nat
  w3 : Nat
  w4 : Nat
  w5 : Nat
  w6 : Nat
  w7 : Nat
  w8 : Nat
  w9 : Nat
  w10 : Nat
  w11 : Nat
  w12 : Nat
  w13 : Nat
  w14 : Nat
  w15 : Nat

/-- The words from place `t` on. -/
def Window.at (f : Nat → Nat) (t : Nat) : Window :=
  ⟨f t, f (t + 1), f (t + 2), f (t + 3), f (t + 4), f (t + 5), f (t + 6), f (t + 7), f (t + 8), f (t + 9),
    f (t + 10), f (t + 11), f (t + 12), f (t + 13), f (t + 14), f (t + 15)⟩

/-- The window moved by one word. -/
def Window.next (w : Window) : Window :=
  ⟨w.w1, w.w2, w.w3, w.w4, w.w5, w.w6, w.w7, w.w8, w.w9, w.w10, w.w11, w.w12, w.w13, w.w14, w.w15,
    add (add (add (sig3 w.w14) w.w9) (sig2 w.w1)) w.w0⟩

/-- So many words from the window's first one on. -/
def Window.words : Nat → Window → List Nat
  | 0, _ => []
  | n + 1, w => w.w0 :: Window.words n w.next

def schedule (block : List Nat) : List Nat := (Window.at (fun t => (words block).getD t 0) 0).words 64

def constants : List Nat := sha256K.toList.map UInt32.toNat

def compress (h : State) (block : List Nat) : State :=
  let s := (constants.zip (schedule block)).foldl round h
  { a := add h.a s.a, b := add h.b s.b, c := add h.c s.c, d := add h.d s.d, e := add h.e s.e, f := add h.f s.f,
    g := add h.g s.g, hi := add h.hi s.hi }

/-- The bytes of a first word. -/
theorem exists_four_bytes {block : List UInt8} (inside : 4 ≤ block.length) :
    ∃ b0 b1 b2 b3 rest, block = b0 :: b1 :: b2 :: b3 :: rest := by
  rcases block with _ | ⟨b0, _ | ⟨b1, _ | ⟨b2, _ | ⟨b3, rest⟩⟩⟩⟩
  · exact absurd inside (by decide)
  · exact absurd inside (by simp)
  · exact absurd inside (by simp)
  · exact absurd inside (by simp)
  · exact ⟨b0, b1, b2, b3, rest, rfl⟩

/-- The words of a block are those of the standard. -/
theorem getD_words {block : List UInt8} {t : Nat} (inside : 4 * t + 4 ≤ block.length) :
    (words (block.map UInt8.toNat)).getD t 0 = (Fips180.word block t).toNat := by
  induction t generalizing block with
  | zero =>
    obtain ⟨b0, b1, b2, b3, rest, rfl⟩ := exists_four_bytes (by omega : 4 ≤ block.length)
    have h0 := b0.toNat_lt
    have h1 := b1.toNat_lt
    have h2 := b2.toNat_lt
    have h3 := b3.toNat_lt
    rw [Fips180.word, UInt32.toNat_ofNat', Nat.mod_eq_of_lt]
    · simp only [List.map_cons, words, List.getD_cons_zero, Nat.mul_zero, List.drop_zero, List.take_succ_cons,
        List.take_zero, List.foldl_cons, List.foldl_nil]
      omega
    · simp only [Nat.mul_zero, List.drop_zero, List.take_succ_cons, List.take_zero, List.foldl_cons, List.foldl_nil]
      omega
  | succ t ih =>
    obtain ⟨b0, b1, b2, b3, rest, rfl⟩ := exists_four_bytes (by omega : 4 ≤ block.length)
    have later : (b0 :: b1 :: b2 :: b3 :: rest).drop (4 * (t + 1)) = rest.drop (4 * t) := rfl
    simp only [List.length_cons] at inside
    rw [List.map_cons, List.map_cons, List.map_cons, List.map_cons, words, List.getD_cons_succ, ih (by omega),
      Fips180.word, Fips180.word, later]

/-- The next word of the schedule. -/
theorem toNat_schedule_succ (m : Nat → UInt32) (t : Nat) :
    (Fips180.schedule Security.sig3 m (t + 16)).toNat =
      add (add (add (sig3 (Fips180.schedule Security.sig3 m (t + 14)).toNat)
        (Fips180.schedule Security.sig3 m (t + 9)).toNat)
        (sig2 (Fips180.schedule Security.sig3 m (t + 1)).toNat))
        (Fips180.schedule Security.sig3 m t).toNat := by
  rw [Fips180.schedule_of_le (Nat.le_add_left 16 t), toNat_add, toNat_add, toNat_add, toNat_sig3, ← sig2_eq, toNat_sig2]
  rfl

/-- A window over the schedule runs through it. -/
theorem words_at (m : Nat → UInt32) (n t : Nat) :
    (Window.at (fun t => (Fips180.schedule Security.sig3 m t).toNat) t).words n =
      (List.range n).map fun i => (Fips180.schedule Security.sig3 m (t + i)).toNat := by
  induction n generalizing t with
  | zero => rfl
  | succ n ih =>
    have moved : (Window.at (fun t => (Fips180.schedule Security.sig3 m t).toNat) t).next =
        Window.at (fun t => (Fips180.schedule Security.sig3 m t).toNat) (t + 1) := by
      simp only [Window.at, Window.next, Nat.add_assoc, Nat.reduceAdd, ← toNat_schedule_succ]
    rw [Window.words, moved, ih, List.range_succ_eq_map, List.map_cons, List.map_map]
    congr 1
    refine List.map_congr_left fun i _ => ?_
    rw [Function.comp_apply, Nat.succ_eq_add_one, Nat.add_assoc, Nat.add_comm 1 i]

/-- The schedule of the code, in order. -/
theorem schedule_eq {block : List UInt8} (len : block.length = 64) :
    (List.finRange 64).map (fun t => ((Security.schedule (blockAt block)).get t).toNat) =
      schedule (block.map UInt8.toNat) := by
  have code : ∀ t : Fin 64, (Security.schedule (blockAt block)).get t =
      Fips180.schedule Security.sig3 (Fips180.word block) t.val := scheduleWith_eq Security.sig3 len
  have first : ∀ t < 16, (words (block.map UInt8.toNat)).getD t 0 =
      (Fips180.schedule Security.sig3 (Fips180.word block) t).toNat := by
    intro t lt
    rw [Fips180.schedule_of_lt lt, getD_words (by omega)]
  have window : Window.at (fun t => (words (block.map UInt8.toNat)).getD t 0) 0 =
      Window.at (fun t => (Fips180.schedule Security.sig3 (Fips180.word block) t).toNat) 0 := by
    simp only [Window.at, first, Nat.reduceAdd, Nat.reduceLT]
  rw [schedule, window, words_at]
  simp only [code, Nat.zero_add]
  exact (List.map_map (g := fun t => (Fips180.schedule Security.sig3 (Fips180.word block) t).toNat)
    (f := Fin.val) (l := List.finRange 64)).symm.trans (congrArg _ List.map_coe_finRange_eq_range)

/-- A round on the working words is the round on their numbers. -/
theorem ofWorking_roundStep (w : Vector UInt32 64) (s : Working) (t : Fin 64) :
    ofWorking (roundStep w s t) = round (ofWorking s) ((sha256K.get t).toNat, (w.get t).toNat) := by
  have constant : sha256K[t] = sha256K.get t := rfl
  have word : w[t] = w.get t := rfl
  simp only [ofWorking, roundStep, round, constant, word, toNat_add, toNat_sig0, toNat_sig1, toNat_ch, toNat_maj]

/-- The constants over numbers are those of the code's table. -/
theorem constants_eq : constants = (List.finRange 64).map fun t => (sha256K.get t).toNat := by decide

/-- Compressing a block of 64 bytes commutes with reading the numbers. -/
theorem ofHash_compress (h : Vector UInt32 8) {block : List UInt8} (len : block.length = 64) :
    ofHash (Security.compress h block) = compress (ofHash h) (block.map UInt8.toNat) := by
  have rounds : ∀ s, ofWorking ((List.finRange 64).foldl (roundStep (Security.schedule (blockAt block))) s) =
      (constants.zip (schedule (block.map UInt8.toNat))).foldl round (ofWorking s) := by
    intro s
    rw [constants_eq, ← schedule_eq len, List.zip_map', List.foldl_map]
    exact (List.foldl_hom ofWorking fun s t => (ofWorking_roundStep _ s t).symm).symm
  have here : (constants.zip (schedule (block.map UInt8.toNat))).foldl round (ofHash h) = ofWorking _ :=
    (rounds ⟨h[0], h[1], h[2], h[3], h[4], h[5], h[6], h[7]⟩).symm
  rw [compress, here]
  simp only [ofHash, ofWorking, ← toNat_add]
  rfl

/-! ## A message -/

/-- The bytes of a word. -/
def wordBytes (w : Nat) : List Nat := [w >>> 24 % 256, w >>> 16 % 256, w >>> 8 % 256, w % 256]

def digest (h : State) : List Nat := [h.a, h.b, h.c, h.d, h.e, h.f, h.g, h.hi].flatMap wordBytes

/-- The blocks of a padded message. -/
def blocks (msg : List Nat) : List (List Nat) :=
  let padded := msg ++ (sha256Padding msg.length).map UInt8.toNat
  (List.range (padded.length / 64)).map fun i => (padded.drop (64 * i)).take 64

def sha256 (msg : List Nat) : List Nat := digest ((blocks msg).foldl compress (ofHash initialHash))

def hmac (key data : List Nat) : List Nat :=
  let key := (if key.length > 64 then sha256 key ++ List.replicate 32 0 else key ++ List.replicate (64 - key.length) 0)
  sha256 (key.map (· ^^^ 0x5C) ++ sha256 (key.map (· ^^^ 0x36) ++ data))

/-- The first 32 bytes. -/
def hkdf (salt ikm info : List Nat) : List Nat := hmac (hmac salt ikm) (info ++ [1])

/-- The digest of the code's eight words is the digest of their numbers. -/
theorem map_digestOf (h : Vector UInt32 8) : (digestOf h).map UInt8.toNat = digest (ofHash h) := by
  have whole : h = #v[h[0], h[1], h[2], h[3], h[4], h[5], h[6], h[7]] := by
    refine Vector.ext fun i lt => ?_
    interval_cases i <;> rfl
  have bytes : ∀ w : UInt32, [(w >>> 24).toUInt8, (w >>> 16).toUInt8, (w >>> 8).toUInt8, w.toUInt8].map UInt8.toNat =
      wordBytes w.toNat := by
    intro w
    simp only [List.map_cons, List.map_nil, UInt32.toNat_toUInt8, UInt32.toNat_shiftRight]
    rfl
  rw [digestOf, List.map_flatMap]
  simp only [bytes]
  conv_lhs => rw [whole]
  rfl

/-- Padding and cutting into blocks commute with reading the numbers. -/
theorem map_blocks (msg : List UInt8) :
    blocks (msg.map UInt8.toNat) = (Fips180.blocks msg).map fun block => block.map UInt8.toNat := by
  rw [blocks, Fips180.blocks, padded_eq, List.map_map, List.length_map, ← List.map_append]
  simp only [List.length_map, ← List.map_drop, ← List.map_take]
  rfl

/-- The one-shot hash over numbers is that over bytes. -/
theorem toNat_sha256Spec (msg : List UInt8) : (sha256Spec msg).map UInt8.toNat = sha256 (msg.map UInt8.toNat) := by
  have fold : ofHash ((Fips180.blocks msg).foldl Security.compress initialHash) =
      (blocks (msg.map UInt8.toNat)).foldl compress (ofHash initialHash) := by
    rw [map_blocks, List.foldl_map]
    generalize initialHash = h
    have long : ∀ block ∈ Fips180.blocks msg, block.length = 64 := fun _ mem => length_of_mem_blocks mem
    generalize Fips180.blocks msg = blocks at long
    induction blocks generalizing h with
    | nil => rfl
    | cons block blocks ih =>
      rw [List.foldl_cons, List.foldl_cons, ← ofHash_compress h (long block List.mem_cons_self)]
      exact ih _ fun other mem => long other (List.mem_cons_of_mem _ mem)
  rw [sha256, ← fold, ← map_digestOf, sha256Spec_eq, sha256With_eq]
  rfl

/-- What the code's updates hash, in whatever pieces, is the hash over numbers of the whole. -/
theorem toNat_hashPieces (pieces : List (List UInt8)) :
    (hashPieces pieces).map UInt8.toNat = sha256 (pieces.flatten.map UInt8.toNat) := by
  rw [hashPieces_eq, toNat_sha256Spec]

/-- The pads of HMAC are the key under exclusive or, over numbers as well. -/
theorem toNat_xor (key : List UInt8) (b : UInt8) :
    (key.map (· ^^^ b)).map UInt8.toNat = (key.map UInt8.toNat).map (· ^^^ b.toNat) := by
  rw [List.map_map, List.map_map]
  exact List.map_congr_left fun x _ => UInt8.toNat_xor x b

/-- HMAC over numbers is that of the code. -/
theorem toNat_hmacSha256 (key data : List UInt8) :
    (hmacSha256 key data).map UInt8.toNat = hmac (key.map UInt8.toNat) (data.map UInt8.toNat) := by
  have block : (keyBlock key).map UInt8.toNat =
      if (key.map UInt8.toNat).length > 64 then sha256 (key.map UInt8.toNat) ++ List.replicate 32 0
      else key.map UInt8.toNat ++ List.replicate (64 - (key.map UInt8.toNat).length) 0 := by
    rw [keyBlock, List.length_map]
    split
    · rw [List.map_append, toNat_hashPieces, List.flatten_singleton, List.map_replicate]
      rfl
    · rw [List.map_append, List.map_replicate]
      rfl
  rw [hmacSha256, hmac, toNat_hashPieces, ← block]
  simp only [List.flatten_cons, List.flatten_nil, List.append_nil, List.map_append, toNat_hashPieces, toNat_xor]
  rfl

/-- Thirty-two bytes of HKDF are one block of its expansion. -/
theorem hkdfSha256_eq (salt ikm info : List UInt8) (pos : salt.length ≠ 0) :
    hkdfSha256 salt ikm info 32 = hmacSha256 (hmacSha256 salt ikm) (info ++ [1]) := by
  have one : ∀ prk, hkdfExpand prk info [] 1 32 = hmacSha256 prk (info ++ [1]) := by
    intro prk
    rw [hkdfExpand, if_neg (by decide)]
    dsimp only
    rw [hkdfExpand, if_pos (by decide), List.append_nil, List.nil_append]
    exact List.take_of_length_le (length_hmacSha256 _ _).le
  rw [hkdfSha256, if_neg pos]
  exact one _

/-- HKDF to thirty-two bytes, over numbers, is that of the code. -/
theorem toNat_hkdfSha256 (salt ikm info : List UInt8) (pos : salt.length ≠ 0) :
    (hkdfSha256 salt ikm info 32).map UInt8.toNat =
      hkdf (salt.map UInt8.toNat) (ikm.map UInt8.toNat) (info.map UInt8.toNat) := by
  rw [hkdfSha256_eq salt ikm info pos, toNat_hmacSha256, toNat_hmacSha256, List.map_append]
  rfl

end MiniHardware.Security.Sha256Nat
