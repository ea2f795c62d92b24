import RunLog.Sink
import RunLog.Xz.Encoder

/-! # Log files

A log file takes whole lines and passes each on to its sink, as it is or compressed. Once finished
it takes no more. -/

namespace RunLog

inductive LogFormat where
  | plain
  | compressed (encoder : Xz.Encoder)
  | finished
deriving DecidableEq

structure LogFile where
  format : LogFormat := .plain
  sink : Sink := {}
deriving DecidableEq

namespace LogFile

/-- The highest level of compression. -/
def maxLevel : Nat := 9

/-- A compressed log. All levels give the same content; the highest bit asks for more effort. -/
def compressed (sink : Sink) (level : Nat) : Except LogError LogFile :=
  if level % 0x80000000 ≤ maxLevel then .ok ⟨.compressed {}, sink⟩ else .error (.badLevel level)

def finishedFault : Fault := .plain .brokenPipe "event log already finished"

/-- A line with its terminator. -/
def terminated (line : String) : Bytes := Text.toBytes line ++ [0x0A]

/-- Appends a line and its terminator. A line that is refused leaves the format as it was. -/
def append (l : LogFile) (line : String) : Except LogError Unit × LogFile :=
  match l.format with
  | .plain =>
    match l.sink.write (terminated line) with
    | .ok sink => (.ok (), { l with sink })
    | .error fault => (.error (.io fault), l)
  | .compressed encoder =>
    let (writes, next) := encoder.append (terminated line)
    match l.sink.writeAll writes with
    | (.ok (), sink) => (.ok (), ⟨.compressed next, sink⟩)
    | (.error fault, sink) => (.error (.io fault), { l with sink })
  | .finished => (.error (.io finishedFault), l)

/-- Ends the log. A compressed one is completed. -/
def finish (l : LogFile) : Except LogError Unit × LogFile :=
  match l.format with
  | .plain | .finished => (.ok (), { l with format := .finished })
  | .compressed encoder =>
    match l.sink.writeAll encoder.finish with
    | (.ok (), sink) => (.ok (), ⟨.finished, sink⟩)
    | (.error fault, sink) => (.error (.io fault), ⟨.finished, sink⟩)

end LogFile

end RunLog
