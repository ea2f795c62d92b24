import RunLog.Reader.Decoder
import RunLog.Xz.Block

/-! # Decoder of compressed streams

A stream is a header, blocks, an index of the blocks and a footer. The decoder takes a byte when it
can give out nothing more. What it gives out of a sound stream does not depend on how the stream was
cut; damage may be noticed earlier when it is fed in smaller pieces. -/

namespace RunLog.Xz

/-- Where in a stream the next byte belongs. -/
inductive Decoder where
  | header (held : Bytes)
  /-- A block or the index follows. -/
  | between (kind : Check) (blocks : List BlockSizes)
  | blockHeader (kind : Check) (blocks : List BlockSizes) (missing : Nat) (held : Bytes)
  | block (kind : Check) (blocks : List BlockSizes) (b : Block)
  | index (kind : Check) (blocks : List BlockSizes) (i : PartialIndex)
  | footer (kind : Check) (blocks : List BlockSizes) (held : Bytes)

namespace Decoder

/-- The size of stream headers and footers. -/
def edgeSize : Nat := 12

def magic : Bytes := [0xFD, 0x37, 0x7A, 0x58, 0x5A, 0]

def footerMagic : Bytes := [0x59, 0x5A]

def streamHeader (kind : Check) : Bytes := magic ++ kind.flags ++ fieldCheck kind.flags

/-- The footer repeats the flags and gives the size of the index. -/
def streamFooter (kind : Check) (blocks : List BlockSizes) : Bytes :=
  let fields := lowFirst 4 ((Index.encode blocks).length / 4 - 1) ++ kind.flags
  fieldCheck fields ++ fields ++ footerMagic

def ofHeader? (bs : Bytes) : Option Check := do
  let kind ← Check.ofFlags? ((bs.drop 6).take 2)
  if bs = streamHeader kind then some kind else none

/-- Takes in a byte. -/
def take (d : Decoder) (x : UInt8) : Taken Decoder :=
  match d with
  | header held =>
    let held := x :: held
    if held.length < edgeSize then .next (header held)
    else
      match ofHeader? held.reverse with
      | some kind => .next (between kind [])
      | none => .rejected true
  | between kind blocks =>
    if x = 0 then .next (index kind blocks {})
    else .next (blockHeader kind blocks (BlockHeader.sizeOf x - 1) [x])
  | blockHeader kind blocks missing held =>
    let held := x :: held
    if missing ≤ 1 then
      match BlockHeader.ofBytes? kind held.reverse with
      | some h => .next (block kind blocks (.start h kind))
      | none => .rejected true
    else .next (blockHeader kind blocks (missing - 1) held)
  | block kind blocks b =>
    match b.take x with
    | .next b => .next (block kind blocks b)
    | .stored b => .stored (block kind blocks b)
    | .finished b =>
      .next (between kind (blocks ++ [⟨b.listedSize, b.history.content.size⟩]))
    | .rejected taken => .rejected taken
  | index kind blocks i =>
    match i.take blocks x with
    | .next i => .next (index kind blocks i)
    | .finished => .next (footer kind blocks [])
    | .rejected taken => .rejected taken
  | footer kind blocks held =>
    let held := x :: held
    if held.length < edgeSize then .next (footer kind blocks held)
    else if held.reverse = streamFooter kind blocks then .finished (footer kind blocks held)
    else .rejected true

/-- Gives out what can be given out without another byte. -/
def run (d : Decoder) (room : Nat) : Halt × Decoder × Bytes :=
  match d with
  | block kind blocks b =>
    let (halt, b, output) := b.run room
    (halt, block kind blocks b, output)
  | d => (.starved, d, [])

/-- Whether more was met than a header says. -/
def isOverrun : Decoder → Bool
  | block _ _ b => b.isOverrun
  | _ => false

def backlog : Decoder → Nat
  | block _ _ b => b.backlog
  | _ => 0

/-- Goes on beyond a seam of the history. -/
def pass : Decoder → Decoder
  | block kind blocks b => block kind blocks b.pass
  | d => d

/-- Sizes are compared with those in the headers when a call ends. The next one goes on from a
seam. -/
def pause (d : Decoder) (taken : Nat) (output : Bytes) : Fed Decoder :=
  ⟨d.pass, taken, output.reverse, if d.isOverrun then .rejected else .more⟩

/-- Feeds the decoder after `taken` bytes; `output` was given out before, latest first. A decoder that
took in what does not belong there starts again. -/
def feedFrom (d : Decoder) (taken : Nat) (output : Bytes) (room : Nat) (input : Bytes) :
    Fed Decoder :=
  match d.run room with
  | (.damaged, d, more) => ⟨d, taken, (more ++ output).reverse, .rejected⟩
  | (.full, d, more) => d.pause taken (more ++ output)
  | (_, d, more) =>
    match input with
    | [] => d.pause taken (more ++ output)
    | x :: input =>
      match d.take x with
      | .next d => feedFrom d (taken + 1) (more ++ output) (room - more.length) input
      | .stored d =>
        feedFrom d (taken + 1) (x :: (more ++ output)) (room - more.length - 1) input
      | .finished d => ⟨d, taken + 1, (more ++ output).reverse, .finished⟩
      | .rejected tookIt =>
        ⟨header [], if tookIt then taken + 1 else taken, (more ++ output).reverse, .rejected⟩

end Decoder

end RunLog.Xz
