import RunLog.Numeric.Text

/-! # Errors that end a run

The causes for which a read, a write or a pipeline gives up, and their wording. -/

namespace RunLog

/-- The kinds of input and output fault that are told apart. -/
inductive FaultKind where
  | notFound
  | brokenPipe
  | invalidData
  | other
deriving DecidableEq, Repr

/-- A fault of a source or a sink: one of its own, or corruption found by what it reads from. -/
inductive Fault where
  | plain (kind : FaultKind) (text : String)
  | corrupt (offset : Nat)
deriving DecidableEq, Repr

inductive LogError where
  | io (fault : Fault)
  /-- No marker follows the point up to which compressed data could be decoded. -/
  | corrupt (offset : Nat)
  | badLevel (level : Nat)
  /-- A number that JSON has no numeral for. -/
  | notFinite (field : String) (value : Float)
  | stage (stage message : String)
  | invalidPattern
  | invalidStreamName (name : String)
  /-- A table column wider than can be laid out. -/
  | columnTooWide (width : Nat)
deriving DecidableEq

namespace Fault

def corruptText (offset : Nat) : String :=
  "event log is corrupt near byte " ++ toString offset
    ++ ": no compressed or raw record marker found"

def kind : Fault → FaultKind
  | plain kind _ => kind
  | corrupt _ => .invalidData

def text : Fault → String
  | plain _ text => text
  | corrupt offset => corruptText offset

/-- A missing file or directory. -/
def missing : Fault := plain .notFound "No such file or directory (os error 2)"

end Fault

namespace LogError

def message : LogError → String
  | io fault => "I/O error on event log: " ++ fault.text
  | corrupt offset => Fault.corruptText offset
  | badLevel level =>
    "failed to initialise xz encoder at level " ++ toString level ++ ": invalid options"
  | notFinite field value =>
    "cannot encode " ++ field ++ ": " ++ String.ofList (Numeric.chars value)
      ++ " is not a finite number"
  | stage name message => "stage `" ++ name ++ "` failed: " ++ message
  | invalidPattern => "invalid line pattern"
  | invalidStreamName name => "invalid stream name `" ++ name ++ "`"
  | columnTooWide width => "a column of width " ++ toString width ++ " cannot be laid out"

/-- The error as a fault of the stream that a reader offers. -/
def toFault : LogError → Fault
  | io fault => fault
  | corrupt offset => .corrupt offset
  | e => .plain .invalidData e.message

/-- Recovers an error that travelled as a fault. -/
def ofFault : Fault → LogError
  | .corrupt offset => corrupt offset
  | fault => io fault

end LogError

end RunLog
