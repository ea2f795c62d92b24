import RunLog.Xz.Decoder

/-! # Encoder of compressed streams

Each piece of content becomes a block of its own, of stored chunks, so that all of it can be decoded
as soon as the block is written. The encoder keeps a block back until more is written or the stream
is finished. -/

namespace RunLog.Xz

structure Encoder where
  started : Bool := false
  /-- The sizes of the blocks so far. -/
  blocks : List BlockSizes := []
  /-- Bytes not written yet. -/
  kept : Bytes := []
deriving DecidableEq

namespace Encoder

/-- The kind of check that is written. -/
def kind : Check := .crc64

/-- The largest stored chunk. -/
def chunkSize : Nat := 65536

/-- A block header with the one filter and a history of 8 MiB. -/
def blockHeader : Bytes :=
  let fields : Bytes := [2, 0, 0x21, 1, 0x16, 0, 0, 0]
  fields ++ fieldCheck fields

/-- A stored chunk; the first of a block starts the history. -/
def chunk (first : Bool) (content : Bytes) : Bytes :=
  let size := content.length - 1
  (if first then 1 else 2) :: .ofNat (size / 256) :: .ofNat size :: content

/-- All chunks of a block, and the end of them. -/
def chunks (fuel : Nat) (first : Bool) (content : Bytes) : Bytes :=
  match fuel with
  | 0 => [0]
  | fuel + 1 =>
    if content.isEmpty then [0]
    else
      chunk first (content.take chunkSize) ++ chunks fuel false (content.drop chunkSize)

/-- A block without its header. -/
def blockBody (content : Bytes) : Bytes × BlockSizes :=
  let packed := chunks (content.length + 1) true content
  let check := lowFirst 8 (Digest.crc64 content).toNat
  (packed ++ List.replicate (Index.padding packed.length) 0 ++ check,
    ⟨blockHeader.length + packed.length + check.length, content.length⟩)

/-- What is to be written before a block. -/
def opening (e : Encoder) : Bytes :=
  if e.started then blockHeader else Decoder.streamHeader kind ++ blockHeader

/-- Takes in a piece of content; gives what is to be written, in order. -/
def append (e : Encoder) (content : Bytes) : List Bytes × Encoder :=
  let (body, sizes) := blockBody content
  ([e.kept, e.opening].filter fun bs => !bs.isEmpty, ⟨true, e.blocks ++ [sizes], body⟩)

/-- The end of the stream; gives what is to be written, in order. -/
def finish (e : Encoder) : List Bytes :=
  let header := if e.started then [] else Decoder.streamHeader kind
  [e.kept, header ++ Index.encode e.blocks ++ Decoder.streamFooter kind e.blocks].filter
    fun bs => !bs.isEmpty

end Encoder

end RunLog.Xz
