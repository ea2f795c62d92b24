import RunLog.Json.Printer

/-! # Why a line is not a record -/

namespace RunLog

/-- The reason for which a line was refused. -/
inductive Malformed where
  | noSeparator
  | unknownKeyword (raw : String)
  | invalidJson
  | tooFewFields (found : Nat)
  | hashNotString
  | sequenceNotInteger
  | kindNotString
  | unknownKind (raw : String)
  | roleNotString (found : Json)
  | unknownRole (raw : String)
  | idNotString
  | invalidId (raw : String)
  | flagsNotInteger
  | cflagsNotInteger
  | streamNotString (found : Json)
  | timeNotNumber
  | missing (what : String)
  | unknownOutcome (raw : String)
  | notList (found : Json)
  | notArray (found : Json)
  | metricNotNumber (found : Json)
  | rowNotIndex (found : Json)
  | notRows (found : Json)

/-- Fields between the keyword and the payload. -/
def headFields : Nat := 9

namespace Malformed

def message : Malformed → String
  | noSeparator => "missing field separator"
  | unknownKeyword raw => "unknown keyword `" ++ raw ++ "`"
  | invalidJson => "invalid JSON"
  | tooFewFields found =>
    "expected " ++ toString headFields ++ " prefix fields, found " ++ toString found
  | hashNotString => "hash is not a string"
  | sequenceNotInteger => "sequence is not an integer"
  | kindNotString => "test type is not a string"
  | unknownKind raw => "unknown test type `" ++ raw ++ "`"
  | roleNotString found => "test subtype is not a string: " ++ found.render
  | unknownRole raw => "unknown test subtype `" ++ raw ++ "`"
  | idNotString => "test id is not a string"
  | invalidId raw => "invalid test id `" ++ raw ++ "`"
  | flagsNotInteger => "flags are not an integer"
  | cflagsNotInteger => "cflags are not an integer"
  | streamNotString found => "stream is not a string: " ++ found.render
  | timeNotNumber => "relative time is not a number"
  | missing what => "missing " ++ what
  | unknownOutcome raw => "unknown result type `" ++ raw ++ "`"
  | notList found => "expected list, found " ++ found.render
  | notArray found => "expected positional array, found " ++ found.render
  | metricNotNumber found => "metric value is not a number: " ++ found.render
  | rowNotIndex found => "example row is not an index: " ++ found.render
  | notRows found => "expected example rows, found " ++ found.render

end Malformed

/-- A refused line, without the terminators at its end, and the reason. -/
structure ParseError where
  line : String
  reason : Malformed

namespace ParseError

def message (e : ParseError) : String :=
  "malformed record (" ++ e.reason.message ++ "): " ++ e.line

end ParseError

end RunLog
