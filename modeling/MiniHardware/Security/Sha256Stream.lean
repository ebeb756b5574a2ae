import Mathlib.Data.List.GetD
import MiniHardware.Security.Sha256

/-!
# Streaming computes the hash of the whole message

A context that has been fed a message holds the fold of its complete blocks
and the bytes left over (`Absorbed`). `update` carries this to the longer
message and `final` closes it with the padding, in one block or two.
-/

namespace MiniHardware.Security
open Lib

/-! ## The padded message -/

/-- One bit, zeros up to 8 bytes before a block boundary, and the length in bits. -/
def sha256Padding (len : Nat) : List UInt8 :=
  0x80 :: List.replicate ((119 - len % 64) % 64) 0 ++ bigEndian64 (UInt64.ofNat (8 * len))

/-- The transform of 64 bytes of a list. -/
def compress (h : Vector UInt32 8) (block : List UInt8) : Vector UInt32 8 :=
  sha256Transform h (blockAt block)

/-- The fold of the transform over the padded message. -/
def sha256Spec (msg : List UInt8) : List UInt8 :=
  digestOf (foldBlocks 64 compress initialHash (msg ++ sha256Padding msg.length)).1

/-! ## The buffer -/

theorem take_copyInto (buffer : Vector UInt8 64) (off : Nat) (data : List UInt8)
    (le : off + data.length ≤ 64) :
    (copyInto buffer off data).toList.take (off + data.length) = buffer.toList.take off ++ data := by
  have lenL : ((copyInto buffer off data).toList.take (off + data.length)).length =
      off + data.length := by simp; omega
  have lenR : (buffer.toList.take off ++ data).length = off + data.length := by simp; omega
  refine List.ext_getElem (lenL.trans lenR.symm) fun i h h' => ?_
  have hi : i < off + data.length := lenL ▸ h
  simp only [copyInto, List.getElem_take, Vector.getElem_toList, Vector.getElem_ofFn, Fin.getElem_fin]
  by_cases lo : i < off
  · rw [if_neg (by omega), List.getElem_append_left (by simp; omega)]
    simp
  · have hr : (buffer.toList.take off).length = off := by simp; omega
    rw [if_pos ⟨by omega, hi⟩, List.getElem_append_right (by omega)]
    simp only [hr]
    rw [List.getD_eq_getElem _ _ (by omega)]

/-- A buffer whose bytes are known is the block of these bytes. -/
theorem eq_blockAt {buffer : Vector UInt8 64} {l : List UInt8} (h : buffer.toList.take 64 = l) :
    buffer = blockAt l := by
  refine Vector.ext fun i hi => ?_
  rw [List.take_of_length_le (by simp)] at h
  subst h
  simp [blockAt, List.getD]

/-! ## Update -/

/-- The context has been fed `msg`, starting from the state `h`. -/
structure Absorbed (h : Vector UInt32 8) (msg : List UInt8) (ctx : MiniHwSecSha256Ctx) : Prop where
  state : ctx.h = (foldBlocks 64 compress h msg).1
  held : ctx.buffer.toList.take ctx.bufferLen = (foldBlocks 64 compress h msg).2
  len : ctx.bufferLen = msg.length % 64
  total : ctx.totalBytes = UInt64.ofNat msg.length

/-- An empty buffer is refilled with what the complete blocks leave over. -/
theorem update_blocks_spec (ctx : MiniHwSecSha256Ctx) (data : List UInt8) (empty : ctx.bufferLen = 0) :
    (updateBlocks ctx data).h = (foldBlocks 64 compress ctx.h data).1 ∧
    (updateBlocks ctx data).buffer.toList.take (updateBlocks ctx data).bufferLen =
      (foldBlocks 64 compress ctx.h data).2 ∧
    (updateBlocks ctx data).bufferLen = (foldBlocks 64 compress ctx.h data).2.length ∧
    (updateBlocks ctx data).totalBytes = ctx.totalBytes := by
  have small : (foldBlocks 64 compress ctx.h data).2.length < 64 := by
    rw [length_leftover]
    exact Nat.mod_lt _ (by decide)
  have loop : transformBlocks ctx.h data = foldBlocks 64 compress ctx.h data := rfl
  unfold updateBlocks
  rw [loop]
  generalize foldBlocks 64 compress ctx.h data = r at small ⊢
  obtain ⟨h, rest⟩ := r
  dsimp only at small ⊢
  split
  · have := take_copyInto ctx.buffer 0 rest (by omega)
    simp only [Nat.zero_add, List.take_zero, List.nil_append] at this
    exact ⟨rfl, this, rfl, rfl⟩
  · have nil : rest = [] := List.length_eq_zero_iff.1 (by omega)
    subst nil
    exact ⟨rfl, by simp [empty], empty, rfl⟩

/-- Once the buffer is empty, the complete blocks of the rest are all that is missing. -/
theorem absorbed_updateBlocks {h : Vector UInt32 8} {msg rest : List UInt8} {ctx : MiniHwSecSha256Ctx}
    (next : foldBlocks 64 compress h msg = foldBlocks 64 compress ctx.h rest)
    (empty : ctx.bufferLen = 0) (total : ctx.totalBytes = UInt64.ofNat msg.length) :
    Absorbed h msg (updateBlocks ctx rest) := by
  obtain ⟨state, held, len, same⟩ := update_blocks_spec ctx rest empty
  rw [← next] at state held len
  exact ⟨state, held, len.trans (length_leftover compress h msg), same.trans total⟩

theorem Absorbed.update {h : Vector UInt32 8} {msg : List UInt8} {ctx : MiniHwSecSha256Ctx}
    (fed : Absorbed h msg ctx) (data : List UInt8) :
    Absorbed h (msg ++ data) (sha256Update ctx data) := by
  have total : ctx.totalBytes + UInt64.ofNat data.length = UInt64.ofNat (msg ++ data).length := by
    rw [fed.total, List.length_append, UInt64.ofNat_add]
  have lenHeld : (ctx.buffer.toList.take ctx.bufferLen).length = ctx.bufferLen := by
    rw [fed.held, length_leftover, fed.len]
  have small : ctx.bufferLen < 64 := fed.len ▸ Nat.mod_lt _ (by decide)
  have next := foldBlocks_append (n := 64) compress h msg data
  rw [← fed.state, ← fed.held] at next
  unfold sha256Update
  dsimp only
  split
  · split
    · rename_i lt
      -- the piece does not fill the buffer
      have held := take_copyInto ctx.buffer ctx.bufferLen data (by omega)
      have lenNew : (ctx.buffer.toList.take ctx.bufferLen ++ data).length =
          ctx.bufferLen + data.length := by rw [List.length_append, lenHeld]
      have done := next.trans (foldBlocks_of_lt (by omega))
      have leftover := length_leftover (n := 64) compress h (msg ++ data)
      rw [done, lenNew] at leftover
      exact ⟨(congrArg Prod.fst done).symm, held.trans (congrArg Prod.snd done).symm, leftover, total⟩
    · rename_i ge
      -- the buffer is completed and transformed
      have fill : (data.take (64 - ctx.bufferLen)).length = 64 - ctx.bufferLen := by
        rw [List.length_take]; omega
      have held := take_copyInto ctx.buffer ctx.bufferLen (data.take (64 - ctx.bufferLen)) (by omega)
      rw [show ctx.bufferLen + (data.take (64 - ctx.bufferLen)).length = 64 by omega] at held
      have block : (ctx.buffer.toList.take ctx.bufferLen ++ data.take (64 - ctx.bufferLen)).length =
          64 := by rw [List.length_append, lenHeld]; omega
      refine absorbed_updateBlocks ?_ rfl total
      dsimp only
      rw [next]
      nth_rewrite 1 [← List.take_append_drop (64 - ctx.bufferLen) data]
      rw [← List.append_assoc, foldBlocks_block_append block, compress, ← eq_blockAt held]
  · have empty : ctx.bufferLen = 0 := by omega
    refine absorbed_updateBlocks ?_ empty total
    rw [next, empty, List.take_zero, List.nil_append]

theorem absorbed_init (ctx : MiniHwSecSha256Ctx) : Absorbed initialHash [] (sha256Init ctx) where
  state := by rw [foldBlocks_of_lt (by decide)]; rfl
  held := by rw [foldBlocks_of_lt (by decide)]; rfl
  len := rfl
  total := rfl

/-- After any pieces the context has been fed their concatenation. -/
theorem absorbed_run (ctx : MiniHwSecSha256Ctx) (pieces : List (List UInt8)) :
    Absorbed initialHash pieces.flatten (pieces.foldl sha256Update (sha256Init ctx)) := by
  have from_ {msg : List UInt8} {ctx : MiniHwSecSha256Ctx} (fed : Absorbed initialHash msg ctx) :
      Absorbed initialHash (msg ++ pieces.flatten) (pieces.foldl sha256Update ctx) := by
    induction pieces generalizing msg ctx with
    | nil => simpa using fed
    | cons piece pieces ih =>
      rw [List.flatten_cons, ← List.append_assoc]
      exact ih (fed.update piece)
  exact from_ (absorbed_init ctx)

/-! ## Final -/

/-- The last block: what is held, zeros up to byte 56, and the length. -/
theorem closing_block (buffer : Vector UInt8 64) (off : Nat) {l length : List UInt8}
    (held : buffer.toList.take off = l) (le : off ≤ 56) (len : length.length = 8) :
    copyInto (copyInto buffer off (List.replicate (56 - off) 0)) 56 length =
      blockAt (l ++ List.replicate (56 - off) 0 ++ length) := by
  refine eq_blockAt ?_
  have zeros := take_copyInto buffer off (List.replicate (56 - off) 0)
    (by rw [List.length_replicate]; omega)
  rw [List.length_replicate, show off + (56 - off) = 56 by omega, held] at zeros
  have last := take_copyInto (copyInto buffer off (List.replicate (56 - off) 0)) 56 length (by omega)
  rw [len, zeros] at last
  exact last

theorem Absorbed.final {msg : List UInt8} {ctx : MiniHwSecSha256Ctx}
    (fed : Absorbed initialHash msg ctx) : (sha256Final ctx).2 = sha256Spec msg := by
  have lenHeld : (ctx.buffer.toList.take ctx.bufferLen).length = ctx.bufferLen := by
    rw [fed.held, length_leftover, fed.len]
  have small : ctx.bufferLen < 64 := fed.len ▸ Nat.mod_lt _ (by decide)
  have bits : ctx.totalBytes * 8 = UInt64.ofNat (8 * msg.length) := by
    rw [fed.total, Nat.mul_comm, UInt64.ofNat_mul]; rfl
  have lenBits : (bigEndian64 (UInt64.ofNat (8 * msg.length))).length = 8 := rfl
  -- the marker goes right after the bytes held
  have marker := take_copyInto ctx.buffer ctx.bufferLen [0x80]
    (by simp; omega)
  simp only [List.length_singleton] at marker
  unfold sha256Spec
  rw [foldBlocks_append, ← fed.state, ← fed.held, sha256Padding]
  unfold sha256Final
  dsimp only
  rw [bits, ← fed.len]
  generalize copyInto ctx.buffer ctx.bufferLen [0x80] = buffer at marker ⊢
  generalize ctx.buffer.toList.take ctx.bufferLen = held at lenHeld marker ⊢
  generalize bigEndian64 (UInt64.ofNat (8 * msg.length)) = length at lenBits ⊢
  refine congrArg digestOf ?_
  by_cases two : 56 < ctx.bufferLen + 1
  · -- the marker block is filled up with zeros, the length goes into a block of its own
    have fill := take_copyInto buffer (ctx.bufferLen + 1)
      (List.replicate (64 - (ctx.bufferLen + 1)) 0) (by rw [List.length_replicate]; omega)
    rw [List.length_replicate, show ctx.bufferLen + 1 + (64 - (ctx.bufferLen + 1)) = 64 by omega,
      marker] at fill
    have first : (held ++ [0x80] ++ List.replicate (64 - (ctx.bufferLen + 1)) (0 : UInt8)).length = 64 := by
      simp only [List.length_append, List.length_singleton, List.length_replicate]; omega
    have second : (List.replicate 56 (0 : UInt8) ++ length).length = 64 := by
      simp only [List.length_append, List.length_replicate]; omega
    have split : held ++ (0x80 :: List.replicate ((119 - ctx.bufferLen) % 64) 0 ++ length) =
        (held ++ [0x80] ++ List.replicate (64 - (ctx.bufferLen + 1)) 0) ++
          (List.replicate 56 0 ++ length) := by
      have zeros : List.replicate ((119 - ctx.bufferLen) % 64) (0 : UInt8) =
          List.replicate (64 - (ctx.bufferLen + 1)) 0 ++ List.replicate 56 0 := by
        have count : (119 - ctx.bufferLen) % 64 = 64 - (ctx.bufferLen + 1) + 56 := by omega
        rw [List.replicate_append_replicate, count]
      rw [zeros]
      simp only [List.cons_append, List.append_assoc, List.nil_append]
    have close := closing_block (copyInto buffer (ctx.bufferLen + 1)
      (List.replicate (64 - (ctx.bufferLen + 1)) 0)) 0 (l := []) rfl (by decide) lenBits
    rw [if_pos two, split, foldBlocks_block_append first, foldBlocks_block second]
    simp only [close, compress, List.nil_append, Nat.sub_zero]
    rw [eq_blockAt fill]
  · -- marker, zeros and length fit into the block of the bytes held
    have block : (held ++ (0x80 :: List.replicate ((119 - ctx.bufferLen) % 64) (0 : UInt8) ++
        length)).length = 64 := by
      simp only [List.length_append, List.length_cons, List.length_replicate]; omega
    rw [if_neg two, foldBlocks_block block]
    dsimp only
    rw [closing_block _ _ marker (by omega) lenBits, show (119 - ctx.bufferLen) % 64 =
      56 - (ctx.bufferLen + 1) by omega, compress]
    simp only [List.cons_append, List.append_assoc, List.nil_append]

/-- **Streaming is hashing.** However a message is cut into pieces, the buffer holds fewer than
64 bytes after them, and `final` returns the fold of the transform over the padded message,
as the one-shot function does. -/
theorem sha256_streaming (ctx ctx' : MiniHwSecSha256Ctx) (pieces : List (List UInt8)) :
    (pieces.foldl sha256Update (sha256Init ctx)).bufferLen < 64 ∧
    (sha256Final (pieces.foldl sha256Update (sha256Init ctx))).2 = sha256Spec pieces.flatten ∧
    sha256 ctx' pieces.flatten = sha256Spec pieces.flatten := by
  have fed := absorbed_run ctx pieces
  refine ⟨fed.len ▸ Nat.mod_lt _ (by decide), fed.final, ?_⟩
  have once := (absorbed_run ctx' [pieces.flatten]).final
  rwa [List.flatten_cons, List.flatten_nil, List.append_nil] at once

end MiniHardware.Security
