/-! # Messages in blocks of 512 bits

The digests used here extend a message by a one bit, zeros and its length in bits, and fold a
compression function over the blocks. -/

namespace RunLog.Digest

/-- The byte at a position, zero beyond the end. -/
@[inline] def byteAt (bs : ByteArray) (i : Nat) : UInt8 :=
  if h : i < bs.size then bs[i] else 0

/-- The big-endian word at a position. -/
@[inline] def wordAt (bs : ByteArray) (i : Nat) : UInt32 :=
  (byteAt bs i).toUInt32 <<< 24 ||| (byteAt bs (i + 1)).toUInt32 <<< 16 |||
    (byteAt bs (i + 2)).toUInt32 <<< 8 ||| (byteAt bs (i + 3)).toUInt32

/-- The bytes of a word, the highest first. -/
def bytesOfWord (w : UInt32) : List UInt8 :=
  [(w >>> 24).toUInt8, (w >>> 16).toUInt8, (w >>> 8).toUInt8, w.toUInt8]

/-- The message with its padding; the size is a multiple of 64. -/
def pad (message : ByteArray) : ByteArray :=
  let bits := message.size * 8
  let zeros := (119 - message.size % 64) % 64
  let padded := (message.push 0x80).append ⟨Array.replicate zeros 0⟩
  (List.range 8).foldl (fun bs i => bs.push (UInt8.ofNat (bits >>> (8 * (7 - i))))) padded

@[inline] def rotateLeft (w : UInt32) (n : UInt32) : UInt32 := w <<< n ||| w >>> (32 - n)

@[inline] def rotateRight (w : UInt32) (n : UInt32) : UInt32 := w >>> n ||| w <<< (32 - n)

/-- Folds a compression function over the blocks of a message; it gets the padded message and the
position of its block. -/
def foldBlocks {σ : Type} (compress : ByteArray → Nat → σ → σ) (start : σ)
    (message : ByteArray) : σ :=
  let padded := pad message
  Nat.fold (padded.size / 64) (fun i _ s => compress padded (64 * i) s) start

end RunLog.Digest
