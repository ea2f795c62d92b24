import RunLog.Feed
import RunLog.Reader.Decoder
import RunLog.Reader.Marker
import RunLog.Reader.Window

/-! # Readers of damaged and growing logs

A reader turns the bytes of a feed into the bytes of a log. The log may be plain, or a sequence of
compressed streams; where compressed data is damaged, the reader goes back to just after the start
of the failed stream and picks the log up at the earliest marker. It never waits: when a growing log
has nothing new, it says so. -/

namespace RunLog

structure ReaderConfig where
  /-- Wait for more at the end of the feed. -/
  tail : Bool := false
  /-- Bytes asked for by one read, and room for output of one decoder call. -/
  chunkSize : Nat := 64 * 1024
  maxLineBytes : Nat := 16 * 1024 * 1024
deriving DecidableEq, Repr

/-- What a reader knows about its position in the log. -/
inductive Mode (δ : Type) where
  /-- Nothing is known yet. -/
  | start
  | inflating (decoder : δ)
  /-- A compressed stream ended; padding or another stream may follow. -/
  | between
  | raw
  /-- Looking for a marker, after damage at a position, or after trailing bytes. -/
  | resync (failedAt : Nat) (fatal : Bool)

structure Reader (δ : Type) where
  config : ReaderConfig := {}
  mode : Mode δ := .start
  /-- Bytes read and not decoded; the first is at `offset` in the feed. -/
  input : Bytes := []
  offset : Nat := 0
  /-- Bytes taken by the decoder of the present stream. -/
  window : Window := .empty
  /-- Bytes decoded and not given out. -/
  pending : Bytes := []
  /-- The last decoder call filled its room, so the decoder may hold more. -/
  full : Bool := false

namespace Reader

variable {δ : Type} [Decoder δ]

/-- Bytes asked for by one read: enough for any marker. -/
def room (r : Reader δ) : Nat := max r.config.chunkSize Marker.maxLength

def isRaw (r : Reader δ) : Bool :=
  match r.mode with
  | .raw => true
  | _ => false

def startStream (r : Reader δ) : Reader δ :=
  { r with mode := .inflating Decoder.start, window := .empty, full := false }

/-- Looks for the earliest marker among the bytes that the failed stream took and those that
follow, its own first byte left out if `skipFirst`. Without a marker it keeps what may be the
beginning of one. -/
def resync (r : Reader δ) (failedAt : Nat) (fatal skipFirst : Bool) : Reader δ :=
  let seen := r.window.toList ++ r.input
  let base := r.offset - r.window.toList.length
  let skipped := if skipFirst then 1 else 0
  match Marker.find? skipped (seen.drop skipped) with
  | some (before, .compressed, found) =>
    { r with offset := base + before, input := found }.startStream
  | some (before, .plain, found) =>
    { r with mode := .raw, offset := base + before, input := found, window := .empty }
  | none =>
    let candidates := seen.drop skipped
    let kept := candidates.drop (candidates.length - (Marker.maxLength - 1))
    { r with
      mode := .resync failedAt fatal
      offset := base + (seen.length - kept.length)
      input := kept
      window := .empty }

/-- Feeds the decoder once, if that takes or gives anything. -/
def inflate? (r : Reader δ) (d : δ) : Option (Reader δ) :=
  let fed := Decoder.feed d r.input r.room
  let used := r.input.take fed.taken
  let fedReader : Reader δ :=
    { r with
      mode := .inflating fed.state
      input := r.input.drop fed.taken
      offset := r.offset + used.length
      window := r.window.push used
      pending := r.pending ++ fed.output
      full := fed.output.length = r.room }
  match fed.verdict with
  | .more => if used.isEmpty && fed.output.isEmpty then none else some fedReader
  | .finished => some { fedReader with mode := .between }
  | .rejected =>
    some (fedReader.resync fedReader.offset true
      (fedReader.window.isComplete || fedReader.window.toList.isEmpty))

/-- Begins a stream if the input has its magic; with only a part of it, more must be seen. -/
def classify? (r : Reader δ) (otherwise : Reader δ) : Option (Reader δ) :=
  if r.input.isEmpty then none
  else if Marker.magic.isPrefixOf r.input then some r.startStream
  else if r.input.isPrefixOf Marker.magic then none
  else some otherwise

/-- One step over the bytes read so far, if any can be made. -/
def step? (r : Reader δ) : Option (Reader δ) :=
  match r.mode with
  | .start => r.classify? { r with mode := .raw }
  | .raw =>
    if r.input.isEmpty then none
    else
      some { r with
        offset := r.offset + r.input.length
        pending := r.pending ++ r.input
        input := [] }
  | .inflating d => if r.input.isEmpty && !r.full then none else r.inflate? d
  | .between =>
    let padding := r.input.takeWhile (· = 0)
    if padding.isEmpty then
      r.classify? ({ r with window := .empty }.resync r.offset false false)
    else
      some { r with
        offset := r.offset + padding.length
        input := r.input.drop padding.length }
  | .resync failedAt fatal =>
    if r.input.isEmpty then none
    else
      let next := { r with window := .empty }.resync failedAt fatal false
      match next.mode with
      | .resync _ _ => if next.input.length = r.input.length then none else some next
      | _ => some next

/-- The rank of a mode: how much can still happen on the same input. -/
def modeRank (r : Reader δ) : Nat :=
  match r.mode with
  | .start => 3
  | .between => 3
  | .resync _ _ => if r.input.isEmpty then 0 else 2
  | .inflating _ => 1
  | .raw => 0

def backlog (r : Reader δ) : Nat :=
  match r.mode with
  | .inflating d => Decoder.backlog d
  | _ => 0

/-- Every step lowers this: the bytes that could be decoded, whether the start
of the stream is out of sight, the bytes waiting, the mode, and what the decoder holds. -/
def stepRank (r : Reader δ) : Nat × Nat × Nat × Nat × Nat :=
  (r.window.toList.length + r.input.length, r.window.hidden, r.input.length, r.modeRank,
    r.backlog)

end Reader

end RunLog
