import RunLog.Error
import RunLog.Text.Utf8

/-! # Sinks -/

namespace RunLog

/-- Where bytes are written. A write is taken as a whole or refused. -/
structure Sink where
  /-- The writes taken, latest first. -/
  writes : List Bytes := []
  /-- The writes that will still be taken, if there is a limit. -/
  room : Option Nat := none
deriving DecidableEq

namespace Sink

/-- The fault of a sink without room. -/
def fullFault : Fault := .plain .other "sink full"

def write (s : Sink) (bytes : Bytes) : Except Fault Sink :=
  match s.room with
  | some 0 => .error fullFault
  | room => .ok { writes := bytes :: s.writes, room := room.map (· - 1) }

/-- Writes in turn, up to the first refusal. -/
def writeAll (s : Sink) : List Bytes → Except Fault Unit × Sink
  | [] => (.ok (), s)
  | bytes :: rest =>
    match s.write bytes with
    | .ok s => s.writeAll rest
    | .error fault => (.error fault, s)

/-- All that was written. -/
def contents (s : Sink) : Bytes := s.writes.reverse.flatten

end Sink

end RunLog
