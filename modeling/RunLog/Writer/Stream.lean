import RunLog.Writer.LineBuffer
import RunLog.Writer.Node

/-! # Captured streams

Output captured from a node, such as its `stdout`, is written as one record per line, with the name
of the stream in the head. -/

namespace RunLog

structure StreamWriter where
  name : StreamName
  buffer : LineBuffer := {}

/-- A stream writer writes through the writer of its node. -/
structure StreamState where
  node : NodeWriter
  stream : StreamWriter

namespace StreamWriter

/-- Opens a stream by name. -/
def ofName (raw : String) : Except LogError StreamWriter :=
  match StreamName.ofString? raw with
  | some name => .ok { name }
  | none => .error (.invalidStreamName raw)

end StreamWriter

namespace StreamState

/-- Appends lines up to the first that fails. -/
def emitLines (s : StreamState) (log : LogFile) (elapsed : Float) :
    List String → Written (Except Fault Unit) StreamState
  | [] => ⟨.ok (), s, log⟩
  | line :: rest =>
    match s.node.encode log (.text .none line) elapsed (some s.stream.name) with
    | ⟨.ok _, node, log⟩ => { s with node }.emitLines log elapsed rest
    | ⟨.error e, node, log⟩ => ⟨.error e.toFault, { s with node }, log⟩

/-- Takes in output and appends the lines that it completes; gives the number of bytes taken. Once
an append fails, the other lines are lost. -/
def write (s : StreamState) (log : LogFile) (elapsed : Float) (bytes : Bytes) :
    Written (Except Fault Nat) StreamState :=
  let (lines, buffer) := s.stream.buffer.push bytes
  match { s with stream := { s.stream with buffer } }.emitLines log elapsed lines with
  | ⟨.ok (), s, log⟩ => ⟨.ok bytes.length, s, log⟩
  | ⟨.error fault, s, log⟩ => ⟨.error fault, s, log⟩

/-- Appends what there is of the line under way. -/
def flush (s : StreamState) (log : LogFile) (elapsed : Float) :
    Written (Except Fault Unit) StreamState :=
  let (line, buffer) := s.stream.buffer.takePartial
  { s with stream := { s.stream with buffer } }.emitLines log elapsed line.toList

end StreamState

end RunLog
