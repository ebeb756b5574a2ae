import MiniHardware.Security.AesNat

/-!
# Memory encryption (`mini-hardware-security/src/memory_crypto.c`)

A line of 64 bytes is encrypted with AES-GCM under the key of its region, with
its address in the nonce and as the additional data, and keeps its tag. The bulk
functions keep the ciphertexts only and decrypt with a tag of zeros, which is
right for hardly any line (`mem_bulk_round_trip_iff`).
-/

namespace MiniHardware.Security
open Lib

/-- `MINI_HWSEC_MEM_LINE_SIZE`. -/
abbrev memLineSize : Nat := 64

/-- `MINI_HWSEC_MEM_MAX_REGIONS`. -/
abbrev memMaxRegions : Nat := 16

structure MemRegion where
  baseAddress : UInt64
  size : UInt64
  encryptionKey : AesKey
  encryptionEnabled : Bool
  integrityEnabled : Bool
  regionId : UInt32

/-- The ciphertext has 64 bytes, with the 16 of the tag behind. -/
structure MemEncryptedLine where
  lineAddress : UInt64
  ciphertext : List UInt8
  isEncrypted : Bool

structure MemEngine where
  regions : Fin memMaxRegions → MemRegion
  /-- There are at most 16. -/
  regionCount : Fin (memMaxRegions + 1)
  encryptedLines : UInt64
  integrityFailures : UInt64

/-- A region of zeros. -/
def zeroRegion : MemRegion := ⟨0, 0, Vector.replicate 32 0, false, false, 0⟩

/-- The contexts that the master key is expanded to are used by none of the functions here. -/
def memEngineInit : MemEngine := ⟨fun _ => zeroRegion, 0, 0, 0⟩

/-- The bytes of an address in memory. -/
def addressBytes (addr : UInt64) : List UInt8 :=
  (List.range 8).map fun i => (addr >>> UInt64.ofNat (8 * i)).toUInt8

/-- The label `MEM-REGION-%d`. -/
def regionLabel (id : Nat) : List UInt8 :=
  (("MEM-REGION-" ++ toString id).toList).map fun c => UInt8.ofNat c.toNat

/-- The identifier of the new region, or `-1`. -/
def memRegionAdd (engine : MemEngine) (baseAddr size : UInt64) : Int × MemEngine :=
  if h : engine.regionCount.val < memMaxRegions then
    if size % 64 ≠ 0 then (-1, engine)
    else
      let id := engine.regionCount.val
      let region : MemRegion :=
        { baseAddress := baseAddr
          size := size
          encryptionKey := digestAt (hkdfSha256 [] (regionLabel id) (addressBytes baseAddr) 32)
          encryptionEnabled := true
          integrityEnabled := false
          regionId := UInt32.ofNat id }
      (id, { engine with
        regions := Function.update engine.regions ⟨id, h⟩ region
        regionCount := ⟨id + 1, Nat.succ_lt_succ h⟩ })
  else (-1, engine)

/-- The region with an identifier. -/
def memRegion (engine : MemEngine) (regionId : Int32) : Option MemRegion :=
  if h : 0 ≤ regionId.toInt ∧ regionId.toInt < engine.regionCount.val then
    some (engine.regions ⟨regionId.toInt.toNat, by have := engine.regionCount.isLt; omega⟩)
  else none

/-- The nonce: the address and two bytes of the identifier. -/
def lineIv (regionId : Int32) (addr : UInt64) : Vector UInt8 12 := Vector.ofFn fun i =>
  if i.val < 8 then (addr >>> UInt64.ofNat (8 * i.val)).toUInt8
  else if i.val = 8 then (regionId &&& 0xFF).toUInt32.toUInt8
  else if i.val = 9 then ((regionId >>> 8) &&& 0xFF).toUInt32.toUInt8
  else 0

/-- `line` is what `*auth_line` held before. -/
def memEncryptLine (engine : MemEngine) (regionId : Int32) (addr : UInt64) (plaintext : List UInt8)
    (line : MemEncryptedLine) : MemEncryptedLine × MemEngine :=
  match memRegion engine regionId with
  | none => (line, engine)
  | some region =>
    let (cipher, tag) := gcmEncrypt (aesInit region.encryptionKey) (lineIv regionId addr)
      (plaintext.take memLineSize) (addressBytes addr)
    ({ lineAddress := addr, ciphertext := cipher ++ tag.toList, isEncrypted := true },
      { engine with encryptedLines := engine.encryptedLines + 1 })

/-- The result and the output buffer; `plaintext` is what the buffer held before. -/
def memDecryptLine (engine : MemEngine) (regionId : Int32) (addr : UInt64) (line : MemEncryptedLine)
    (plaintext : List UInt8) : Bool × List UInt8 × MemEngine :=
  match memRegion engine regionId with
  | none => (false, plaintext, engine)
  | some region =>
    if line.isEncrypted then
      let (verified, out) := gcmDecrypt (aesInit region.encryptionKey) (lineIv regionId addr)
        (line.ciphertext.take memLineSize) plaintext (addressBytes addr) (padBlock (line.ciphertext.drop memLineSize))
      if verified then (true, out, engine)
      else
        (false, writeFront (List.replicate memLineSize 0) plaintext,
          { engine with integrityFailures := engine.integrityFailures + 1 })
    else (true, writeFront (line.ciphertext.take memLineSize) plaintext, engine)

/-- A line on the stack. -/
def stackLine : MemEncryptedLine := ⟨0, List.replicate 80 0, false⟩

/-- The loop of the bulk encryption, with `n` lines to go. -/
def bulkEncryptLines (regionId : Int32) : MemEngine → UInt64 → List UInt8 → Nat → List UInt8 × MemEngine
  | engine, _, _, 0 => ([], engine)
  | engine, addr, plain, n + 1 =>
    let (line, engine) := memEncryptLine engine regionId addr (plain.take memLineSize) stackLine
    let (rest, engine) := bulkEncryptLines regionId engine (addr + 64) (plain.drop memLineSize) n
    (line.ciphertext.take memLineSize ++ rest, engine)

/-- `cipher` is what the output buffer held before. -/
def memBulkEncrypt (engine : MemEngine) (regionId : Int32) (start : UInt64) (plain cipher : List UInt8) :
    Bool × List UInt8 × MemEngine :=
  match memRegion engine regionId with
  | none => (false, cipher, engine)
  | some _ =>
    if plain.length % memLineSize ≠ 0 then (false, cipher, engine)
    else (true, bulkEncryptLines regionId engine start plain (plain.length / memLineSize))

/-- The loop of the bulk decryption, with `n` lines to go and the rest of the output buffer. -/
def bulkDecryptLines (regionId : Int32) :
    MemEngine → UInt64 → List UInt8 → List UInt8 → Nat → Bool × List UInt8 × MemEngine
  | engine, _, _, plain, 0 => (true, plain, engine)
  | engine, addr, cipher, plain, n + 1 =>
    let line : MemEncryptedLine :=
      { lineAddress := addr
        ciphertext := cipher.take memLineSize ++ List.replicate 16 0
        isEncrypted := true }
    let (verified, out, engine) := memDecryptLine engine regionId addr line (plain.take memLineSize)
    if verified then
      let (verified, rest, engine) :=
        bulkDecryptLines regionId engine (addr + 64) (cipher.drop memLineSize) (plain.drop memLineSize) n
      (verified, out ++ rest, engine)
    else (false, out ++ plain.drop memLineSize, engine)

/-- `plain` is what the output buffer held before. -/
def memBulkDecrypt (engine : MemEngine) (regionId : Int32) (start : UInt64) (cipher plain : List UInt8) :
    Bool × List UInt8 × MemEngine :=
  match memRegion engine regionId with
  | none => (false, plain, engine)
  | some _ =>
    if cipher.length % memLineSize ≠ 0 then (false, plain, engine)
    else bulkDecryptLines regionId engine start cipher plain (cipher.length / memLineSize)

/-! ## Round trips -/

/-- The tag of a line, under the key and the identifier of its region. -/
def lineTag (key : AesKey) (regionId : Int32) (addr : UInt64) (plaintext : List UInt8) : AesBlock :=
  (gcmEncrypt (aesInit key) (lineIv regionId addr) plaintext (addressBytes addr)).2

/-- A line comes back from its encryption, whatever the output buffer and the `*auth_line` held before. -/
def LineRoundTrip (engine : MemEngine) (regionId : Int32) (addr : UInt64) : Prop :=
  ∀ (plaintext buffer : Vector UInt8 memLineSize) (old : MemEncryptedLine),
    let (line, engine) := memEncryptLine engine regionId addr plaintext.toList old
    let (verified, out, _) := memDecryptLine engine regionId addr line buffer.toList
    verified = true ∧ out = plaintext.toList

/-- A buffer of `n` lines comes back from its bulk encryption. -/
def BulkRoundTrip (engine : MemEngine) (regionId : Int32) (start : UInt64) {n : Nat}
    (plain cipherBuffer plainBuffer : Vector UInt8 (memLineSize * n)) : Prop :=
  let (encrypted, cipher, engine) := memBulkEncrypt engine regionId start plain.toList cipherBuffer.toList
  let (verified, out, _) := memBulkDecrypt engine regionId start cipher plainBuffer.toList
  encrypted = true ∧ verified = true ∧ out = plain.toList

/-- The bytes of line `k` of a buffer. -/
def lineOf (bytes : List UInt8) (k : Nat) : List UInt8 := (bytes.drop (memLineSize * k)).take memLineSize

variable {engine : MemEngine} {regionId : Int32} {region : MemRegion} {addr : UInt64} {plaintext buffer : List UInt8}

theorem memEncryptLine_eq (found : memRegion engine regionId = some region)
    (len : plaintext.length = memLineSize) (old : MemEncryptedLine) :
    memEncryptLine engine regionId addr plaintext old =
      (⟨addr, ctrXor (aesInit region.encryptionKey) (incrementCounter (initialCounter (lineIv regionId addr))) plaintext ++
          (lineTag region.encryptionKey regionId addr plaintext).toList, true⟩,
        { engine with encryptedLines := engine.encryptedLines + 1 }) := by
  unfold memEncryptLine lineTag gcmEncrypt
  rw [found]
  dsimp only
  rw [List.take_of_length_le len.le]

theorem padBlock_toList (block : AesBlock) : padBlock block.toList = block := by
  apply Vector.ext
  intro i _
  simp [padBlock, List.getD_eq_getElem?_getD]

/-- A line of ciphertext is decrypted if the tag behind it is the one of the line. -/
theorem memDecryptLine_eq (found : memRegion engine regionId = some region) (len : plaintext.length = memLineSize)
    (size : buffer.length = memLineSize) (tag : AesBlock) :
    memDecryptLine engine regionId addr
      ⟨addr, ctrXor (aesInit region.encryptionKey) (incrementCounter (initialCounter (lineIv regionId addr))) plaintext ++
        tag.toList, true⟩ buffer =
      if lineTag region.encryptionKey regionId addr plaintext = tag then (true, plaintext, engine)
      else (false, List.replicate memLineSize 0,
        { engine with integrityFailures := engine.integrityFailures + 1 }) := by
  have cipher_len : (ctrXor (aesInit region.encryptionKey) (incrementCounter (initialCounter (lineIv regionId addr)))
      plaintext).length = memLineSize := by rw [length_ctrXor, len]
  have write {bytes : List UInt8} (h : bytes.length = memLineSize) : writeFront bytes buffer = bytes := by
    rw [writeFront, List.drop_eq_nil_of_le (by rw [h, size]), List.append_nil]
  unfold memDecryptLine
  rw [found]
  dsimp only
  rw [if_pos rfl, List.take_left' cipher_len, List.drop_left' cipher_len, padBlock_toList, gcm_decrypt_accepts,
    ctrXor_ctrXor, write len]
  unfold lineTag gcmEncrypt
  dsimp only
  split
  · rfl
  · rw [if_neg Bool.false_ne_true, write List.length_replicate]

theorem length_bulkEncryptLines (found : memRegion engine regionId = some region) (addr : UInt64) {plain : List UInt8}
    {n : Nat} (len : plain.length = memLineSize * n) :
    (bulkEncryptLines regionId engine addr plain n).1.length = memLineSize * n ∧
      memRegion (bulkEncryptLines regionId engine addr plain n).2 regionId = some region := by
  induction n generalizing engine addr plain with
  | zero => exact ⟨rfl, found⟩
  | succ n ih =>
    have first : (plain.take memLineSize).length = memLineSize := by
      rw [List.length_take, len]
      exact Nat.min_eq_left (Nat.le_mul_of_pos_right _ (Nat.succ_pos n))
    have rest : (plain.drop memLineSize).length = memLineSize * n := by
      rw [List.length_drop, len, Nat.mul_succ, Nat.add_sub_cancel]
    rw [bulkEncryptLines, memEncryptLine_eq found first]
    have kept : memRegion { engine with encryptedLines := engine.encryptedLines + 1 } regionId = some region := found
    obtain ⟨ih_len, ih_found⟩ := ih kept (addr + 64) rest
    refine ⟨?_, ih_found⟩
    dsimp only
    rw [List.length_append, ih_len, List.take_left' (by rw [length_ctrXor, first]), length_ctrXor, first, Nat.mul_succ,
      Nat.add_comm]

/-- The bulk decryption of bulk encrypted lines goes through if their tags are zero. -/
theorem bulk_lines {engine' : MemEngine} (found : memRegion engine regionId = some region)
    (found' : memRegion engine' regionId = some region) (addr : UInt64) {plain : List UInt8} {n : Nat}
    (len : plain.length = memLineSize * n) (size : buffer.length = memLineSize * n) :
    let r := bulkDecryptLines regionId engine' addr (bulkEncryptLines regionId engine addr plain n).1 buffer n
    (r.1 = true ↔ ∀ k < n, lineTag region.encryptionKey regionId (addr + UInt64.ofNat (memLineSize * k))
      (lineOf plain k) = zeroBlock) ∧ (r.1 = true → r.2.1 = plain) := by
  induction n generalizing engine engine' addr plain buffer with
  | zero =>
    have empty : plain = [] := List.eq_nil_of_length_eq_zero len
    have empty' : buffer = [] := List.eq_nil_of_length_eq_zero size
    rw [empty, empty']
    exact ⟨⟨fun _ _ lt => absurd lt (Nat.not_lt_zero _), fun _ => rfl⟩, fun _ => rfl⟩
  | succ n ih =>
    have take {bytes : List UInt8} (h : bytes.length = memLineSize * (n + 1)) :
        (bytes.take memLineSize).length = memLineSize := by
      rw [List.length_take, h]
      exact Nat.min_eq_left (Nat.le_mul_of_pos_right _ (Nat.succ_pos n))
    have drop {bytes : List UInt8} (h : bytes.length = memLineSize * (n + 1)) :
        (bytes.drop memLineSize).length = memLineSize * n := by
      rw [List.length_drop, h, Nat.mul_succ, Nat.add_sub_cancel]
    have zeros : List.replicate 16 (0 : UInt8) = zeroBlock.toList := rfl
    have shift (k : Nat) : addr + UInt64.ofNat (memLineSize * (k + 1)) = addr + 64 + UInt64.ofNat (memLineSize * k) := by
      rw [Nat.mul_succ, Nat.add_comm, UInt64.ofNat_add, ← UInt64.add_assoc]
      rfl
    have next (k : Nat) : lineOf plain (k + 1) = lineOf (plain.drop memLineSize) k := by
      rw [lineOf, lineOf, List.drop_drop, Nat.mul_succ, Nat.add_comm]
    have first : lineOf plain 0 = plain.take memLineSize := rfl
    have start : addr + UInt64.ofNat (memLineSize * 0) = addr := UInt64.add_zero addr
    have tags : (∀ k < n + 1, lineTag region.encryptionKey regionId (addr + UInt64.ofNat (memLineSize * k))
          (lineOf plain k) = zeroBlock) ↔
        lineTag region.encryptionKey regionId addr (plain.take memLineSize) = zeroBlock ∧
          ∀ k < n, lineTag region.encryptionKey regionId (addr + 64 + UInt64.ofNat (memLineSize * k))
            (lineOf (plain.drop memLineSize) k) = zeroBlock := by
      rw [Nat.forall_lt_succ_left, start, first]
      simp only [shift, next]
    rw [tags, bulkEncryptLines, memEncryptLine_eq found (take len)]
    dsimp only
    rw [List.take_left' (by rw [length_ctrXor, take len]), bulkDecryptLines]
    dsimp only
    rw [List.take_left' (by rw [length_ctrXor, take len]), List.drop_left' (by rw [length_ctrXor, take len]), zeros,
      memDecryptLine_eq found' (take len) (take size)]
    by_cases zero : lineTag region.encryptionKey regionId addr (plain.take memLineSize) = zeroBlock
    · rw [if_pos zero]
      have kept : memRegion { engine with encryptedLines := engine.encryptedLines + 1 } regionId = some region := found
      obtain ⟨iff, out⟩ := ih kept found' (addr + 64) (drop len) (drop size)
      dsimp only at iff out ⊢
      rw [if_pos rfl]
      refine ⟨⟨fun ok => ⟨zero, iff.1 ok⟩, fun h => iff.2 h.2⟩, fun ok => ?_⟩
      dsimp only
      rw [out ok]
      exact List.take_append_drop _ _
    · rw [if_neg zero]
      constructor
      · constructor
        · intro ok
          cases ok
        · intro h
          exact absurd h.1 zero
      · intro ok
        cases ok

/-- One of the regions of an engine. -/
def regionOf (engine : MemEngine) (region : Fin engine.regionCount.val) : MemRegion :=
  engine.regions ⟨region.val, by have := engine.regionCount.isLt; omega⟩

theorem memRegion_of_lt (engine : MemEngine) (region : Fin engine.regionCount.val) :
    memRegion engine (Int32.ofNat region.val) = some (regionOf engine region) := by
  have lt : region.val < 2 ^ 31 := by
    have : engine.regionCount.val < 17 := engine.regionCount.isLt
    omega
  have id : (Int32.ofNat region.val).toInt = region.val := Int32.toInt_ofNat_of_lt lt
  have valid : 0 ≤ (Int32.ofNat region.val).toInt ∧ (Int32.ofNat region.val).toInt < engine.regionCount.val := by
    omega
  unfold memRegion regionOf
  rw [dif_pos valid]
  simp only [id, Int.toNat_natCast]

/-- The line pair gives back every line. -/
theorem line_round_trip (found : memRegion engine regionId = some region) (addr : UInt64) :
    LineRoundTrip engine regionId addr := by
  intro plaintext buffer old
  have kept : memRegion { engine with encryptedLines := engine.encryptedLines + 1 } regionId = some region := found
  rw [memEncryptLine_eq found (by simp)]
  dsimp only
  rw [memDecryptLine_eq kept (by simp) (by simp), if_pos rfl]
  exact ⟨rfl, rfl⟩

/-- A buffer comes back in bulk if and only if the tag of each of its lines is zero. -/
theorem bulk_round_trip_tags (found : memRegion engine regionId = some region) (start : UInt64) {n : Nat}
    (plain cipherBuffer plainBuffer : Vector UInt8 (memLineSize * n)) :
    BulkRoundTrip engine regionId start plain cipherBuffer plainBuffer ↔
      ∀ k < n, lineTag region.encryptionKey regionId (start + UInt64.ofNat (memLineSize * k))
        (lineOf plain.toList k) = zeroBlock := by
  have len : plain.toList.length = memLineSize * n := by simp
  have size : plainBuffer.toList.length = memLineSize * n := by simp
  have whole {bytes : List UInt8} (h : bytes.length = memLineSize * n) :
      ¬ bytes.length % memLineSize ≠ 0 ∧ bytes.length / memLineSize = n := by
    rw [h, Nat.mul_mod_right, Nat.mul_div_cancel_left _ (by decide)]
    exact ⟨not_not.2 rfl, rfl⟩
  obtain ⟨cipher_len, kept⟩ := length_bulkEncryptLines found start len
  obtain ⟨iff, out⟩ := bulk_lines found kept start len size
  have bulk : BulkRoundTrip engine regionId start plain cipherBuffer plainBuffer ↔
      (bulkDecryptLines regionId (bulkEncryptLines regionId engine start plain.toList n).2 start
        (bulkEncryptLines regionId engine start plain.toList n).1 plainBuffer.toList n).1 = true := by
    unfold BulkRoundTrip memBulkEncrypt
    rw [found]
    dsimp only
    rw [if_neg (whole len).1, (whole len).2]
    unfold memBulkDecrypt
    dsimp only
    rw [kept]
    dsimp only
    rw [if_neg (whole cipher_len).1, (whole cipher_len).2]
    exact ⟨fun h => h.2.1, fun ok => ⟨rfl, ok, out ok⟩⟩
  rw [← iff, ← bulk]

/-- Lines come back one by one, and a buffer in bulk. -/
structure MemRoundTrips (engine : MemEngine) (regionId : Int32) (start : UInt64) {n : Nat}
    (plain cipherBuffer plainBuffer : Vector UInt8 (memLineSize * n)) : Prop where
  line : ∀ addr, LineRoundTrip engine regionId addr
  bulk : BulkRoundTrip engine regionId start plain cipherBuffer plainBuffer

/-- For every engine, region, start address and buffer of whole lines, the round trips hold if and only
if the tag of each line is zero. -/
theorem mem_bulk_round_trip_iff (engine : MemEngine) (region : Fin engine.regionCount.val) (start : UInt64) {n : Nat}
    (plain cipherBuffer plainBuffer : Vector UInt8 (memLineSize * n)) :
    MemRoundTrips engine (Int32.ofNat region.val) start plain cipherBuffer plainBuffer ↔
      ∀ k < n, lineTag (regionOf engine region).encryptionKey (Int32.ofNat region.val)
        (start + UInt64.ofNat (memLineSize * k)) (lineOf plain.toList k) = zeroBlock := by
  have found := memRegion_of_lt engine region
  rw [← bulk_round_trip_tags found start plain cipherBuffer plainBuffer]
  exact ⟨fun h => h.bulk, fun h => ⟨fun addr => line_round_trip found addr, h⟩⟩

/-! ## A line that does not come back -/

theorem gcmMult_zeroBlock (y : AesBlock) : gcmMult zeroBlock y = zeroBlock := by
  have keep (l : List (Fin 128)) (s : AesBlock × AesBlock) (zero : s.1 = zeroBlock) :
      (l.foldl (gcmMultStep zeroBlock) s).1 = zeroBlock := by
    induction l generalizing s with
    | nil => exact zero
    | cons i l ih =>
      apply ih
      have byte : zeroBlock.get (byteIdx i) = 0 := get_replicate 0 _
      rw [gcmMultStep, byte, UInt8.zero_and]
      exact zero
  exact keep _ _ rfl

/-- Blocks of zeros leave the hash at zero. -/
theorem ghashBlocks_zero (hashSubkey : AesBlock) {bytes : List UInt8} (zero : ∀ b ∈ bytes, b = 0) :
    ghashBlocks hashSubkey zeroBlock bytes = zeroBlock := by
  have pad (bytes : List UInt8) (zero : ∀ b ∈ bytes, b = 0) : xorBlock zeroBlock (padBlock bytes) = zeroBlock := by
    apply Vector.ext
    intro i h
    have byte : bytes.getD i 0 = 0 := by
      rw [List.getD_eq_getElem?_getD]
      cases eq : bytes[i]? with
      | none => rfl
      | some b => exact zero b (List.mem_of_getElem? eq)
    simp only [xorBlock, padBlock, zeroBlock, Vector.getElem_zipWith, Vector.getElem_ofFn, Vector.getElem_replicate,
      byte, UInt8.xor_self]
  have step (y : AesBlock) (bytes : List UInt8) (eq : y = zeroBlock) (zero : ∀ b ∈ bytes, b = 0) :
      ghashBlocks hashSubkey y bytes = zeroBlock := by
    induction y, bytes using ghashBlocks.induct hashSubkey with
    | case1 y => rw [ghashBlocks, eq]
    | case2 y b bs ih =>
      rw [ghashBlocks]
      apply ih
      · rw [eq, pad _ fun b mem => zero b (List.mem_of_mem_take mem), gcmMult_zeroBlock]
      · exact fun b mem => zero b (List.mem_of_mem_drop mem)
  exact step zeroBlock bytes rfl zero

/-- An engine with one region, whose key is zero. -/
def zeroEngine : MemEngine := ⟨fun _ => zeroRegion, 1, 0, 0⟩

/-- The keystream of the line at address 0, so that the ciphertext is zero. -/
def keystreamLine : List UInt8 :=
  ctrXor (aesInit (Vector.replicate 32 0)) (incrementCounter (initialCounter (lineIv 0 0))) (List.replicate 64 0)

theorem aesEncrypt_zero_key (block stream : AesBlock)
    (computed : AesNat.encrypt (List.replicate 32 0) (AesNat.bytes block) = AesNat.bytes stream) :
    aesEncrypt (aesInit (Vector.replicate 32 0)) block = stream := by
  have key : AesNat.bytes (Vector.replicate 32 (0 : UInt8)) = List.replicate 32 0 := by decide
  rw [← AesNat.bytes_inj, AesNat.bytes_aesEncrypt, key, computed]

theorem lineTag_keystreamLine : lineTag (Vector.replicate 32 0) 0 0 keystreamLine ≠ zeroBlock := by
  have cipher : lineTag (Vector.replicate 32 0) 0 0 keystreamLine =
      gcmTag (aesInit (Vector.replicate 32 0)) (lineIv 0 0) (addressBytes 0) (List.replicate 64 0) := by
    rw [lineTag, gcmEncrypt, keystreamLine, ctrXor_ctrXor]
  have zeros (n : Nat) (b : UInt8) (mem : b ∈ List.replicate n (0 : UInt8)) : b = 0 := List.eq_of_mem_replicate mem
  have address : addressBytes 0 = List.replicate 8 0 := by decide
  have subkey : aesEncrypt (aesInit (Vector.replicate 32 0)) zeroBlock =
      #v[220, 149, 192, 120, 162, 64, 137, 137, 173, 72, 162, 20, 146, 132, 32, 135] :=
    aesEncrypt_zero_key _ _ (by decide +kernel)
  have first : aesEncrypt (aesInit (Vector.replicate 32 0)) (initialCounter (lineIv 0 0)) =
      #v[83, 15, 138, 251, 199, 69, 54, 185, 169, 99, 180, 241, 196, 203, 115, 139] :=
    aesEncrypt_zero_key _ _ (by decide +kernel)
  rw [cipher, gcmTag, address, ghash, ghashBlocks_zero _ (zeros 8), ghashBlocks_zero _ (zeros 64), subkey, first]
  decide +kernel

/-- The line is encrypted, and its decryption fails. -/
theorem mem_bulk_keystream_lost :
    ¬ MemRoundTrips zeroEngine 0 0 (n := 1) ⟨keystreamLine.toArray, by rw [List.size_toArray, keystreamLine, length_ctrXor]; rfl⟩
      (Vector.replicate 64 0) (Vector.replicate 64 0) := by
  intro trips
  have found := memRegion_of_lt zeroEngine ⟨0, Nat.one_pos⟩
  have tags := (bulk_round_trip_tags found 0 _ _ _).1 trips.bulk 0 Nat.one_pos
  apply lineTag_keystreamLine
  have line : lineOf keystreamLine 0 = keystreamLine := by
    rw [lineOf, Nat.mul_zero, List.drop_zero, List.take_of_length_le]
    rw [keystreamLine, length_ctrXor]
    rfl
  rw [← line]
  exact tags

end MiniHardware.Security
