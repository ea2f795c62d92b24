import RunLog.Xz.Check
import RunLog.Xz.Chunk
import RunLog.Xz.Index

/-! # Blocks

A block is a header, chunks of compressed or stored data, padding and a check of the content. It
takes one byte at a time; only within a compressed chunk does it give out bytes on its own. -/

namespace RunLog.Xz

structure BlockHeader where
  /-- The size of the header. -/
  size : Nat
  /-- The sizes of the chunks and of the content, if the header says them. -/
  packedSize : Option Nat
  contentSize : Option Nat
  /-- How far back copies may reach. -/
  capacity : Nat
deriving DecidableEq, Repr

namespace BlockHeader

/-- The size of a header by its first byte. -/
def sizeOf (b : UInt8) : Nat := 4 * (b.toNat + 1)

/-- The capacity of a history, which is coded with a mantissa of two bits. -/
def capacity? (b : UInt8) : Option Nat :=
  let n := b.toNat
  if n < 40 then some ((2 + n % 2) <<< (n / 2 + 11))
  else if n = 40 then some (UInt32.size - 1)
  else none

/-- The one filter that is understood, with its properties, and padding. -/
def filter? : Bytes → Option Nat
  | 0x21 :: 1 :: b :: padding => if padding.all (· = 0) then capacity? b else none
  | _ => none

/-- Reads a size if the header has it. -/
def size? (present : Bool) (bs : Bytes) : Option (Option Nat × Bytes) :=
  if present then (Integer.read? {} bs).map fun (n, rest) => (some n, rest) else some (none, bs)

/-- Whether a block of a size can be listed in the index. -/
def isListable (kind : Check) (headerSize packedSize : Nat) : Bool :=
  packedSize ≠ 0 && headerSize + packedSize + kind.size ≤ BlockSizes.maxListed

/-- Reads a header; its first byte told its size. -/
def ofBytes? (kind : Check) (bs : Bytes) : Option BlockHeader := do
  let fields := bs.take (bs.length - 4)
  if fieldCheck fields ≠ bs.drop (bs.length - 4) then none
  match fields with
  | _ :: flags :: rest =>
    if flags &&& 0x3F ≠ 0 then none
    let (packedSize, rest) ← size? (flags &&& 0x40 ≠ 0) rest
    if packedSize.any fun n => !isListable kind bs.length n then none
    let (contentSize, rest) ← size? (flags &&& 0x80 ≠ 0) rest
    return ⟨bs.length, packedSize, contentSize, ← filter? rest⟩
  | _ => none

end BlockHeader

/-- Where in a block the next byte belongs. -/
inductive BlockPart where
  /-- The first byte of a chunk, or the end of the chunks. -/
  | control
  /-- The header of a chunk after its control byte. -/
  | chunkHeader (control : UInt8) (missing : Nat) (held : Bytes)
  /-- The start of the code of a compressed chunk. -/
  | opening (model : Model) (left : Nat) (unread : Int) (missing : Nat) (code : UInt32)
  | compressed (chunk : Chunk)
  | stored (left : Nat)
  | padding (missing : Nat)
  | check (missing : Nat) (held : Bytes)

structure Block where
  header : BlockHeader
  kind : Check
  part : BlockPart := .control
  /-- The content; a chunk has it while it is decoded. -/
  history : History
  /-- Whether the history was started. -/
  started : Bool := false
  /-- The model for compressed chunks, once there were properties. -/
  model : Option Model := none
  /-- The bytes of chunks taken in. -/
  packed : Nat := 0

/-- What becomes of a byte. -/
inductive Taken (σ : Type) where
  | next (state : σ)
  /-- The byte is content. -/
  | stored (state : σ)
  | finished (state : σ)
  /-- The byte, taken in or not, does not belong here. -/
  | rejected (taken : Bool)

namespace Block

def start (header : BlockHeader) (kind : Check) : Block :=
  { header, kind, history := { capacity := header.capacity } }

def content (b : Block) : ByteArray :=
  match b.part with
  | .compressed chunk => chunk.history.content
  | _ => b.history.content

/-- The size that the index lists. -/
def listedSize (b : Block) : Nat := b.header.size + b.packed + b.kind.size

/-- Whether more was met than the header says. -/
def isOverrun (b : Block) : Bool :=
  b.header.packedSize.any (· < b.packed) || b.header.contentSize.any (· < b.content.size) ||
    match b.part with
    | .opening _ _ unread _ _ => unread < 0
    | .compressed chunk => chunk.isOverrun
    | _ => false

/-- Goes on beyond a seam of the history. -/
def pass (b : Block) : Block :=
  match b.part with
  | .compressed chunk => { b with part := .compressed chunk.pass }
  | _ => { b with history := b.history.pass }

/-- A bound on the bytes that can be given out before another is taken in. -/
def backlog (b : Block) : Nat :=
  match b.part with
  | .compressed chunk => chunk.left
  | _ => 0

/-- The first byte of a chunk that starts the history anew. -/
def isStart (control : UInt8) : Bool := control = 1 || 0xE0 ≤ control

/-- Decodes as long as there are bytes and room. Where the history starts anew, as in stored data,
there must be room to go on. -/
def run (b : Block) (room : Nat) : Halt × Block × Bytes :=
  match b.part with
  | .compressed chunk =>
    match chunk.run [] room with
    | (.complete, chunk, output) =>
      (.starved, { b with part := .control, history := chunk.history, model := chunk.model },
        output)
    | (halt, chunk, output) => (halt, { b with part := .compressed chunk }, output)
  | .stored _ => (if room = 0 then .full else .starved, b, [])
  | .chunkHeader control _ [] => (if room = 0 && isStart control then .full else .starved, b, [])
  | _ => (.starved, b, [])

/-- The check follows the padding, if there is one. -/
def afterPadding (b : Block) : Taken Block :=
  if b.kind.size = 0 then .finished b else .next { b with part := .check b.kind.size [] }

/-- The end of the chunks. -/
def endChunks (b : Block) : Taken Block :=
  if b.header.packedSize.all (· = b.packed) && b.header.contentSize.all (· = b.history.content.size)
  then
    if b.packed % 4 = 0 then b.afterPadding
    else .next { b with part := .padding (4 - b.packed % 4) }
  else .rejected true

/-- The first byte of a chunk. -/
def takeControl (b : Block) (control : UInt8) : Taken Block :=
  if control = 0 then b.endChunks
  else
    let b := if isStart control then
      { b with history := b.history.reset, started := true, model := none } else b
    if !b.started then .rejected true
    else if control < 0x80 then
      if 2 < control then .rejected true
      else .next { b with part := .chunkHeader control 2 [] }
    else if 0xC0 ≤ control then .next { b with part := .chunkHeader control 5 [] }
    else
      match b.model with
      | none => .rejected true
      | some model =>
        let model := if 0xA0 ≤ control then .fresh model.properties else model
        .next { b with part := .chunkHeader control 4 [], model := some model }

/-- The start of a compressed chunk, whose model is put aside with it. -/
def openChunk (b : Block) (model : Model) (left size : Nat) : Block :=
  { b with part := .opening model left size 5 0, model := none }

/-- The header of a chunk, complete. -/
def endChunkHeader (b : Block) (control : UInt8) (fields : Bytes) : Taken Block :=
  let sizeOf := fun (high low : UInt8) => high.toNat * 256 + low.toNat + 1
  let left := fun (high low : UInt8) => control.toNat % 32 * 65536 + sizeOf high low
  match fields with
  | [high, low] => .next { b with part := .stored (sizeOf high low) }
  | [high, low, high', low'] =>
    match b.model with
    | some model => .next (b.openChunk model (left high low) (sizeOf high' low'))
    | none => .rejected true
  | [high, low, high', low', properties] =>
    match Properties.ofByte? properties with
    | some properties => .next (b.openChunk (.fresh properties) (left high low) (sizeOf high' low'))
    | none => .rejected true
  | _ => .rejected true

/-- A compressed chunk has the history while it is decoded. -/
def startChunk (b : Block) (model : Model) (left : Nat) (unread : Int) (code : UInt32) : Block :=
  let history := b.history
  let b := { b with history := { capacity := b.header.capacity } }
  let coder : Coder := { range := 0xFFFFFFFF, code, rest := [] }
  { b with part := .compressed { model, history, coder, left, unread } }

/-- Takes in a byte. -/
def take (b : Block) (x : UInt8) : Taken Block :=
  match b.part with
  | .control => { b with packed := b.packed + 1 }.takeControl x
  | .chunkHeader control missing held =>
    let b := { b with packed := b.packed + 1 }
    if missing ≤ 1 then b.endChunkHeader control (x :: held).reverse
    else .next { b with part := .chunkHeader control (missing - 1) (x :: held) }
  | .opening model left unread missing code =>
    if missing = 5 ∧ x ≠ 0 then .rejected false
    else
      let code := code <<< 8 ||| x.toUInt32
      let b := { b with packed := b.packed + 1 }
      if missing ≤ 1 then .next (b.startChunk model left (unread - 1) code)
      else .next { b with part := .opening model left (unread - 1) (missing - 1) code }
  | .compressed chunk =>
    .next { b with part := .compressed (chunk.take x), packed := b.packed + 1 }
  | .stored left =>
    .stored { b with
      part := if left ≤ 1 then .control else .stored (left - 1)
      history := b.history.push x
      packed := b.packed + 1 }
  | .padding missing =>
    if x ≠ 0 then .rejected true
    else if missing ≤ 1 then b.afterPadding
    else .next { b with part := .padding (missing - 1) }
  | .check missing held =>
    if missing ≤ 1 then
      if b.kind.admits b.history.content (x :: held).reverse then .finished b else .rejected true
    else .next { b with part := .check (missing - 1) (x :: held) }

end Block

end RunLog.Xz
