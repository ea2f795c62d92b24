import RunLog.Line.Chain
import RunLog.Numeric.Dyadic
import RunLog.Record.StreamName
import RunLog.Writer.LogFile

/-! # Writers of nodes

Each node writes its records through a writer of its own, which numbers them and links them in a
hash chain. The writers of a run share one log file. A record that cannot be encoded or appended
leaves the number and the link for the next one. -/

namespace RunLog

/-- What the head of every record of a node says. -/
structure NodeInfo where
  kind : NodeKind
  role : Option Role
  id : NodeId
  flags : Flags
  cflags : Flags
deriving DecidableEq

structure NodeWriter where
  node : NodeInfo
  rule : ChainRule := {}
  /-- Decimal places kept of times. -/
  places : Nat := 6
  /-- The link of the last record. -/
  prior : List Char := []
  sequence : UInt64 := 0
deriving DecidableEq

namespace Record

/-- Every number of a record must be finite; the time is looked at first. -/
def checkFinite (r : Record) : Except LogError Unit :=
  if !Numeric.isFinite r.head.time then .error (.notFinite "relative_time" r.head.time)
  else
    match r.body.metrics.find? fun m => !Numeric.isFinite m.value with
    | some m => .error (.notFinite "metric value" m.value)
    | none => .ok ()

end Record

namespace Test

/-- The records that declare a test: the test, and one for each thing attached to it. -/
def declaration (t : Test) : List Body :=
  .test t :: t.attributes.map .property ++ t.requirements.map .requirement
    ++ t.arguments.map .argument ++ t.tags.map .tag
    ++ ((t.examples.map Table.tableRows).getD []).map .tableRow

end Test

/-- A line that a writer is about to append, and the link that it makes. -/
structure Draft where
  line : String
  link : List Char
deriving DecidableEq

/-- The answer to an attempt to write, with the writer and the log after it. -/
structure Written (α ω : Type) where
  answer : α
  writer : ω
  log : LogFile

namespace NodeWriter

/-- The version of the line format. -/
def protocolVersion : String := "TFSPv2.1"

/-- The record that comes next, but for its link. -/
def record (w : NodeWriter) (body : Body) (time : Float) (stream : Option StreamName) : Record :=
  { head := {
      hash := ""
      sequence := w.sequence
      kind := w.node.kind
      role := w.node.role
      id := w.node.id
      flags := w.node.flags
      cflags := w.node.cflags
      stream := stream.map StreamName.raw
      time := Numeric.roundToPlaces w.places time }
    body }

/-- The line of the next record. -/
def draft (w : NodeWriter) (body : Body) (time : Float) (stream : Option StreamName) :
    Except LogError Draft :=
  let r := w.record body time stream
  match r.checkFinite with
  | .error e => .error e
  | .ok () =>
    let link := w.rule.link w.prior r.keyword r.restChars
    .ok ⟨String.ofList (joinLine r.keyword link r.restChars), link⟩

/-- The writer after a record with a link. -/
def advance (w : NodeWriter) (link : List Char) : NodeWriter :=
  { w with prior := link, sequence := w.sequence + 1 }

/-- Appends a record to the log; gives its line. -/
def encode (w : NodeWriter) (log : LogFile) (body : Body) (time : Float)
    (stream : Option StreamName) : Written (Except LogError String) NodeWriter :=
  match w.draft body time stream with
  | .error e => ⟨.error e, w, log⟩
  | .ok draft =>
    match log.append draft.line with
    | (.ok (), log) => ⟨.ok draft.line, w.advance draft.link, log⟩
    | (.error e, log) => ⟨.error e, w, log⟩

/-- Appends a record at a time since the start of the node. -/
def emit (w : NodeWriter) (log : LogFile) (elapsed : Float) (body : Body) :
    Written (Except LogError String) NodeWriter :=
  w.encode log body elapsed none

/-- Appends records up to the first that fails. -/
def emitAll (w : NodeWriter) (log : LogFile) (elapsed : Float) :
    List Body → Written (Except LogError Unit) NodeWriter
  | [] => ⟨.ok (), w, log⟩
  | body :: rest =>
    match w.emit log elapsed body with
    | ⟨.ok _, w, log⟩ => w.emitAll log elapsed rest
    | ⟨.error e, w, log⟩ => ⟨.error e, w, log⟩

end NodeWriter

end RunLog
