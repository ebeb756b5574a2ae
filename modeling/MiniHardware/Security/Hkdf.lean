import MiniHardware.Lib.Fill
import MiniHardware.Security.Hmac

/-!
# HKDF and its buffers (`mini-hardware-security/src/hw_crypto.c`)

`mini_hwsec_hkdf_sha256` puts `T(i-1)`, `info` and the counter together in an array of 1024 bytes
before it hashes them. With an `info` that fits, what it writes is the output of RFC 5869; a longer one
runs over the array (`hkdf_sha256_iff`). The key derivations of the boot, enclave and memory code have
short infos, and `hkdfSha256` is what those write.
-/

namespace MiniHardware.Security
open Lib

/-! ## The code -/

/-- `uint8_t concat[1024]`. -/
abbrev concatSize : Nat := 1024

/-- The locals of the loop, and the output. -/
structure HkdfState (okmLen : Nat) where
  tPrev : Digest
  tPrevLen : Nat
  outputOffset : Nat
  counter : UInt8
  okm : Vector UInt8 okmLen

/-- `if (count > 0) memcpy(concat + clen, src, count)`. -/
def appendTo (concat : Vector UInt8 concatSize) (clen : Nat) (src : Nat → Option UInt8) (count : Nat) :
    Option (Vector UInt8 concatSize) :=
  if count > 0 then memcpy concat clen src count else some concat

/-- `concat` and `clen`; `none` is a write outside the array. -/
def buildConcat (tPrev : Digest) (tPrevLen : Nat) (info : List UInt8) (counter : UInt8) :
    Option (Vector UInt8 concatSize × Nat) := do
  let concat ← appendTo (Vector.replicate concatSize 0) 0 (tPrev[·]?) tPrevLen
  let clen := tPrevLen
  let concat ← appendTo concat clen (info[·]?) info.length
  let clen := clen + info.length
  let concat ← checkedSet concat clen counter
  some (concat, clen + 1)

/-- The body of the loop. -/
def hkdfRound (prk info : List UInt8) {okmLen : Nat} (s : HkdfState okmLen) : Option (HkdfState okmLen) := do
  let (concat, clen) ← buildConcat s.tPrev s.tPrevLen info s.counter
  let tPrev := digestAt (hmacSha256 prk (concat.toList.take clen))
  let toCopy := if okmLen - s.outputOffset < 32 then okmLen - s.outputOffset else 32
  let okm ← memcpy s.okm s.outputOffset (tPrev[·]?) toCopy
  some ⟨tPrev, 32, s.outputOffset + toCopy, s.counter + 1, okm⟩

theorem hkdfRound_offset {prk info : List UInt8} {okmLen : Nat} {s s' : HkdfState okmLen}
    (round : hkdfRound prk info s = some s') : s'.outputOffset = s.outputOffset + min (okmLen - s.outputOffset) 32 := by
  simp only [hkdfRound, Option.bind_eq_bind, Option.bind_eq_some_iff] at round
  obtain ⟨built, -, okm, -, last⟩ := round
  obtain rfl := Option.some.inj last
  dsimp only
  split <;> omega

def hkdfLoop (prk info : List UInt8) {okmLen : Nat} (s : HkdfState okmLen) : Option (HkdfState okmLen) :=
  if s.outputOffset < okmLen then
    match _h : hkdfRound prk info s with
    | none => none
    | some s' => hkdfLoop prk info s'
  else some s
termination_by okmLen - s.outputOffset
decreasing_by
  have offset := hkdfRound_offset _h
  omega

/-- `mini_hwsec_hkdf_sha256`: `okm` afterwards. A `salt` of `NULL` is `none`. -/
def hkdfSha256Into (salt : Option (List UInt8)) (ikm info : List UInt8) {okmLen : Nat} (okm : Vector UInt8 okmLen) :
    Option (Vector UInt8 okmLen) :=
  let prk :=
    match salt with
    | none => hmacSha256 (List.replicate 32 0) ikm
    | some salt => if salt.length = 0 then hmacSha256 (List.replicate 32 0) ikm else hmacSha256 salt ikm
  (hkdfLoop prk info ⟨Vector.replicate 32 0, 0, 0, 1, okm⟩).map HkdfState.okm

/-! ## RFC 2104 and RFC 5869 -/

/-- `K0`: a long key is hashed, a short one filled up with zeros. -/
def hmacK0 (key : List UInt8) : List UInt8 :=
  let key := if key.length > 64 then sha256Spec key else key
  key ++ List.replicate (64 - key.length) 0

/-- `H((K0 ^ opad) || H((K0 ^ ipad) || text))`. -/
def rfc2104 (key text : List UInt8) : List UInt8 :=
  sha256Spec ((hmacK0 key).map (· ^^^ 0x5C) ++ sha256Spec ((hmacK0 key).map (· ^^^ 0x36) ++ text))

/-- `T(i)`, with the counter in one byte. -/
def expandBlock (prk info : List UInt8) : Nat → List UInt8
  | 0 => []
  | i + 1 => rfc2104 prk (expandBlock prk info i ++ info ++ [UInt8.ofNat (i + 1)])

/-- The first `l` bytes of `T(1) || T(2) || …`; a salt that is not provided is 32 zeros. -/
def rfc5869 (salt : Option (List UInt8)) (ikm info : List UInt8) (l : Nat) : List UInt8 :=
  let prk := rfc2104 (salt.getD (List.replicate 32 0)) ikm
  ((List.range ((l + 31) / 32)).flatMap fun i => expandBlock prk info (i + 1)).take l

theorem length_sha256Spec (msg : List UInt8) : (sha256Spec msg).length = 32 := length_digestOf _

theorem hmacSha256_eq (key data : List UInt8) : hmacSha256 key data = rfc2104 key data := by
  have block : keyBlock key = hmacK0 key := by
    unfold keyBlock hmacK0
    dsimp only
    split
    · rw [hashPieces_eq, List.flatten_singleton, length_sha256Spec]
    · rfl
  rw [hmacSha256, rfc2104, hashPieces_eq, hashPieces_eq, block]
  simp only [List.flatten_cons, List.flatten_nil, List.append_nil]

/-- An empty key is 32 zeros, after filling up. -/
theorem rfc2104_nil (text : List UInt8) : rfc2104 [] text = rfc2104 (List.replicate 32 0) text := by
  have same : hmacK0 [] = hmacK0 (List.replicate 32 0) := by decide
  rw [rfc2104, same, rfc2104]

/-! ## One round -/

section Rounds
variable {prk info : List UInt8} {okmLen : Nat}

theorem appendTo_behind {p l : List UInt8} (src : Nat → Option UInt8) (concat : Vector UInt8 concatSize)
    (starts : p <+: concat.toList) (inside : p.length + l.length ≤ concatSize)
    (known : ∀ k (h : k < l.length), src k = some l[k]) :
    ∃ concat', appendTo concat p.length src l.length = some concat' ∧ p ++ l <+: concat'.toList := by
  unfold appendTo
  split
  · exact memcpy_behind src starts inside known
  · rename_i zero
    rw [List.eq_nil_of_length_eq_zero (Nat.eq_zero_of_not_pos zero), List.append_nil]
    exact ⟨concat, rfl, starts⟩

theorem buildConcat_fits (tPrev : Digest) {tPrevLen : Nat} (counter : UInt8) (held : tPrevLen ≤ 32)
    (room : tPrevLen + info.length < concatSize) :
    ∃ concat, buildConcat tPrev tPrevLen info counter = some (concat, tPrevLen + info.length + 1) ∧
      tPrev.toList.take tPrevLen ++ info ++ [counter] <+: concat.toList := by
  have length : (tPrev.toList.take tPrevLen).length = tPrevLen := by
    rw [List.length_take, Vector.length_toList, Nat.min_eq_left held]
  obtain ⟨first, copy, starts⟩ := appendTo_behind (p := []) (l := tPrev.toList.take tPrevLen) (tPrev[·]?)
    (Vector.replicate concatSize 0) List.nil_prefix (by rw [List.length_nil, length]; omega) (by
      intro k lt
      rw [length] at lt
      rw [List.getElem_take, Vector.getElem_toList, Vector.getElem?_eq_getElem])
  obtain ⟨second, copy', starts'⟩ := appendTo_behind (l := info) (info[·]?) first starts
    (by rw [List.nil_append, length]; omega) (fun k lt => List.getElem?_eq_getElem lt)
  obtain ⟨third, set, starts''⟩ := checkedSet_behind starts'
    (by rw [List.nil_append, List.length_append, length]; exact room) counter
  rw [List.length_nil, length] at copy
  rw [List.nil_append, length] at copy'
  rw [List.nil_append, List.length_append, length] at set
  refine ⟨third, ?_, starts''⟩
  simp only [buildConcat, copy, copy', set, Option.bind_eq_bind, Option.bind_some]

theorem buildConcat_overflows {tPrev : Digest} {tPrevLen : Nat} (counter : UInt8) (held : tPrevLen ≤ 32)
    (full : concatSize ≤ tPrevLen + info.length) : buildConcat tPrev tPrevLen info counter = none := by
  have long : info.length > 0 := by
    have : concatSize = 1024 := rfl
    omega
  apply Option.bind_eq_none_iff.2
  intro first _
  rcases Nat.eq_or_lt_of_le full with exact | beyond
  · apply Option.bind_eq_none_iff.2
    intro second _
    have outside : checkedSet second (tPrevLen + info.length) counter = none := dif_neg (by omega)
    simp only [outside, Option.bind_eq_bind, Option.bind_none]
  · have outside : appendTo first tPrevLen (info[·]?) info.length = none :=
      (if_pos long).trans (memcpy_outside _ _ long beyond)
    simp only [outside, Option.bind_eq_bind, Option.bind_none]

/-- Where the input fits, a round writes the next bytes. -/
theorem hkdfRound_fits (prk : List UInt8) {s : HkdfState okmLen} (held : s.tPrevLen ≤ 32) (more : s.outputOffset < okmLen)
    (room : s.tPrevLen + info.length < concatSize) {written : List UInt8} (starts : written <+: s.okm.toList)
    (length : written.length = s.outputOffset) :
    ∃ s', hkdfRound prk info s = some s' ∧
      s'.tPrev.toList = hmacSha256 prk (s.tPrev.toList.take s.tPrevLen ++ info ++ [s.counter]) ∧ s'.tPrevLen = 32 ∧
      s'.outputOffset = s.outputOffset + min (okmLen - s.outputOffset) 32 ∧ s'.counter = s.counter + 1 ∧
      written ++ s'.tPrev.toList.take (min (okmLen - s.outputOffset) 32) <+: s'.okm.toList := by
  obtain ⟨concat, built, starts'⟩ := buildConcat_fits s.tPrev s.counter held room
  have read : concat.toList.take (s.tPrevLen + info.length + 1) =
      s.tPrev.toList.take s.tPrevLen ++ info ++ [s.counter] := by
    rw [List.prefix_iff_eq_take.1 starts']
    congr 1
    simp only [List.length_append, List.length_take, Vector.length_toList, List.length_singleton]
    omega
  have count : (if okmLen - s.outputOffset < 32 then okmLen - s.outputOffset else 32) =
      min (okmLen - s.outputOffset) 32 := by
    split <;> omega
  let t := digestAt (hmacSha256 prk (s.tPrev.toList.take s.tPrevLen ++ info ++ [s.counter]))
  have bytes : (t.toList.take (min (okmLen - s.outputOffset) 32)).length = min (okmLen - s.outputOffset) 32 := by
    rw [List.length_take, Vector.length_toList]
    omega
  obtain ⟨okm, copy, more⟩ := memcpy_behind (l := t.toList.take (min (okmLen - s.outputOffset) 32)) (t[·]?) starts
    (by rw [length, bytes]; omega) (by
      intro k lt
      rw [bytes] at lt
      rw [List.getElem_take, Vector.getElem_toList, Vector.getElem?_eq_getElem])
  rw [length, bytes] at copy
  refine ⟨⟨t, 32, s.outputOffset + min (okmLen - s.outputOffset) 32, s.counter + 1, okm⟩, ?_,
    toList_digestAt (length_hmacSha256 _ _), rfl, rfl, rfl, more⟩
  simp only [hkdfRound, built, read, count, copy, t, Option.bind_eq_bind, Option.bind_some]

theorem hkdfRound_overflows {s : HkdfState okmLen} (held : s.tPrevLen ≤ 32)
    (full : concatSize ≤ s.tPrevLen + info.length) : hkdfRound prk info s = none := by
  simp only [hkdfRound, buildConcat_overflows s.counter held full, Option.bind_eq_bind, Option.bind_none]

/-! ## The loop -/

/-- The concatenations of the rounds that are left all fit: the first one has `tPrevLen` bytes before
`info`, the others have 32. -/
def InfoFits (tPrevLen infoLen left : Nat) : Prop :=
  left = 0 ∨ (tPrevLen + infoLen < concatSize ∧ (left ≤ 32 ∨ 32 + infoLen < concatSize))

/-- Where all inputs fit, the loop writes what `hkdfExpand` does, and else it runs over. -/
theorem hkdfLoop_eq (prk info : List UInt8) {s : HkdfState okmLen} (held : s.tPrevLen ≤ 32) (inside : s.outputOffset ≤ okmLen)
    {written : List UInt8} (starts : written <+: s.okm.toList) (length : written.length = s.outputOffset) :
    (InfoFits s.tPrevLen info.length (okmLen - s.outputOffset) → ∃ s', hkdfLoop prk info s = some s' ∧
      s'.okm.toList =
        written ++ hkdfExpand prk info (s.tPrev.toList.take s.tPrevLen) s.counter (okmLen - s.outputOffset)) ∧
    (¬ InfoFits s.tPrevLen info.length (okmLen - s.outputOffset) → hkdfLoop prk info s = none) := by
  fun_induction hkdfLoop prk info s generalizing written with
  | case1 s more round =>
    refine ⟨fun fits => ?_, fun _ => rfl⟩
    have room : s.tPrevLen + info.length < concatSize := by
      rcases fits with zero | ⟨room, -⟩
      · omega
      · exact room
    obtain ⟨s', some, -⟩ := hkdfRound_fits prk held more room starts length
    rw [round] at some
    cases some
  | case2 s more s' round ih =>
    have room : s.tPrevLen + info.length < concatSize := by
      by_contra full
      rw [hkdfRound_overflows held (Nat.not_lt.1 full)] at round
      cases round
    obtain ⟨s'', some, block, len, offset, counter, starts'⟩ := hkdfRound_fits prk held more room starts length
    obtain rfl : s' = s'' := Option.some.inj (round.symm.trans some)
    have left : okmLen - s'.outputOffset = okmLen - s.outputOffset - min (okmLen - s.outputOffset) 32 := by omega
    have fits : InfoFits s.tPrevLen info.length (okmLen - s.outputOffset) ↔
        InfoFits s'.tPrevLen info.length (okmLen - s'.outputOffset) := by
      unfold InfoFits
      rw [len, left]
      omega
    have whole : s'.tPrev.toList.take s'.tPrevLen = s'.tPrev.toList := by
      rw [len, List.take_of_length_le (by rw [Vector.length_toList])]
    obtain ⟨writes, overflows⟩ := ih (by omega) (by omega) starts' (by
      rw [List.length_append, length, List.length_take, Vector.length_toList]
      omega)
    rw [fits]
    refine ⟨fun h => ?_, overflows⟩
    obtain ⟨last, loop, bytes⟩ := writes h
    refine ⟨last, loop, ?_⟩
    rw [bytes, hkdfExpand.eq_def prk info _ s.counter, if_neg (by omega), left, whole, block, counter,
      List.append_assoc]
  | case3 s done =>
    have zero : okmLen - s.outputOffset = 0 := by omega
    refine ⟨fun _ => ⟨s, rfl, ?_⟩, fun no => absurd (.inl zero) no⟩
    rw [zero, hkdfExpand, if_pos rfl, List.append_nil]
    apply (starts.eq_of_length _).symm
    rw [length, Vector.length_toList]
    omega

end Rounds

/-! ## The output -/

theorem length_expandBlock (prk info : List UInt8) (i : Nat) : (expandBlock prk info (i + 1)).length = 32 :=
  length_sha256Spec _

/-- From block `k` on, the expansion goes through the blocks of the RFC. -/
theorem hkdfExpand_eq (prk info : List UInt8) (k left : Nat) :
    hkdfExpand prk info (expandBlock prk info k) (UInt8.ofNat (k + 1)) left =
      ((List.range ((left + 31) / 32)).flatMap fun i => expandBlock prk info (k + i + 1)).take left := by
  induction left using Nat.strongRecOn generalizing k with
  | ind left ih =>
    rw [hkdfExpand]
    split
    · rename_i zero
      rw [zero, List.take_zero]
    · rename_i some
      have next : UInt8.ofNat (k + 1) + 1 = UInt8.ofNat (k + 1 + 1) := (UInt8.ofNat_add (k + 1) 1).symm
      have block : hmacSha256 prk (expandBlock prk info k ++ info ++ [UInt8.ofNat (k + 1)]) =
          expandBlock prk info (k + 1) := hmacSha256_eq _ _
      have blocks : (left + 31) / 32 = (left - min left 32 + 31) / 32 + 1 := by omega
      dsimp only
      rw [block, next, ih _ (by omega) (k + 1), blocks, List.range_succ_eq_map, List.flatMap_cons, List.flatMap_map,
        List.take_append, length_expandBlock, Nat.add_zero]
      congr 1
      · rw [List.take_eq_take_iff, length_expandBlock]
        omega
      · have rest : left - min left 32 = left - 32 := by omega
        have index (i : Nat) : k + 1 + i + 1 = k + (i + 1) + 1 := by omega
        simp only [rest, index, Nat.succ_eq_add_one]

theorem extract_eq (salt : Option (List UInt8)) (ikm : List UInt8) :
    (match salt with
      | none => hmacSha256 (List.replicate 32 0) ikm
      | some salt => if salt.length = 0 then hmacSha256 (List.replicate 32 0) ikm else hmacSha256 salt ikm) =
      rfc2104 (salt.getD (List.replicate 32 0)) ikm := by
  cases salt with
  | none => exact hmacSha256_eq _ _
  | some salt =>
    dsimp only [Option.getD_some]
    split
    · rename_i zero
      rw [List.eq_nil_of_length_eq_zero zero, rfc2104_nil, hmacSha256_eq]
    · exact hmacSha256_eq _ _

theorem hkdf_sha256_writes (salt : Option (List UInt8)) (ikm info : List UInt8) {okmLen : Nat}
    (okm : Vector UInt8 okmLen) :
    (InfoFits 0 info.length okmLen → ∃ out, hkdfSha256Into salt ikm info okm = some out ∧
      out.toList = hkdfExpand (rfc2104 (salt.getD (List.replicate 32 0)) ikm) info [] 1 okmLen) ∧
    (¬ InfoFits 0 info.length okmLen → hkdfSha256Into salt ikm info okm = none) := by
  obtain ⟨writes, overflows⟩ := hkdfLoop_eq (rfc2104 (salt.getD (List.replicate 32 0)) ikm) info
    (s := ⟨Vector.replicate 32 0, 0, 0, 1, okm⟩) (Nat.zero_le 32) (Nat.zero_le okmLen) List.nil_prefix rfl
  unfold hkdfSha256Into
  dsimp only at writes overflows ⊢
  rw [extract_eq]
  constructor
  · intro fits
    obtain ⟨s, loop, bytes⟩ := writes fits
    exact ⟨s.okm, by rw [loop, Option.map_some], bytes⟩
  · intro no
    rw [overflows no, Option.map_none]

/-- The key derivations elsewhere, whose infos fit, write `hkdfSha256`. -/
theorem hkdf_sha256_into {salt ikm info : List UInt8} {okmLen : Nat} (okm : Vector UInt8 okmLen)
    (fits : InfoFits 0 info.length okmLen) :
    ∃ out, hkdfSha256Into (some salt) ikm info okm = some out ∧ out.toList = hkdfSha256 salt ikm info okmLen := by
  obtain ⟨out, some, bytes⟩ := (hkdf_sha256_writes (.some salt) ikm info okm).1 fits
  refine ⟨out, some, bytes.trans ?_⟩
  rw [hkdfSha256, ← extract_eq]

/-- For every salt, key material, info and output length, the output is that of RFC 5869 and no array is
run over, if and only if the concatenations fit. -/
theorem hkdf_sha256_iff (salt : Option (List UInt8)) (ikm info : List UInt8) {okmLen : Nat} (okm : Vector UInt8 okmLen) :
    (∃ out, hkdfSha256Into salt ikm info okm = some out ∧ out.toList = rfc5869 salt ikm info okmLen) ↔
      InfoFits 0 info.length okmLen := by
  obtain ⟨writes, overflows⟩ := hkdf_sha256_writes salt ikm info okm
  constructor
  · rintro ⟨out, some, -⟩
    by_contra no
    rw [overflows no] at some
    cases some
  · intro fits
    obtain ⟨out, some, bytes⟩ := writes fits
    refine ⟨out, some, bytes.trans ?_⟩
    have blocks := hkdfExpand_eq (rfc2104 (salt.getD (List.replicate 32 0)) ikm) info 0 okmLen
    simp only [Nat.zero_add] at blocks
    exact blocks

/-- An info of 992 bytes overflows in the second round, and one of 1024 bytes in the first. -/
theorem hkdf_sha256_runs_over :
    hkdfSha256Into none [] (List.replicate 992 0) (Vector.replicate 33 0) = none ∧
      hkdfSha256Into none [] (List.replicate 1024 0) (Vector.replicate 32 0) = none := by
  refine ⟨(hkdf_sha256_writes _ _ _ _).2 ?_, (hkdf_sha256_writes _ _ _ _).2 ?_⟩
  · rw [List.length_replicate, InfoFits, concatSize]
    omega
  · rw [List.length_replicate, InfoFits, concatSize]
    omega

end MiniHardware.Security
