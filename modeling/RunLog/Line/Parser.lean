import RunLog.Json.Parser
import RunLog.Line.Fields

/-! # Reading lines as records -/

namespace RunLog

namespace Head

def readRole : Json → Except Malformed (Option Role)
  | .null => .ok none
  | .string raw => match Role.ofName? raw with
    | some role => .ok (some role)
    | none => .error (.unknownRole raw)
  | v => .error (.roleNotString v)

def readStream : Json → Except Malformed (Option String)
  | .null => .ok none
  | .string name => .ok (some name)
  | v => .error (.streamNotString v)

/-- Reads the head from its fields; the first fault in the order of the fields is reported. -/
def ofFields (fields : List Json) : Except Malformed Head := do
  let some hash := (fieldAt fields 0).string? | throw .hashNotString
  let some sequence := (fieldAt fields 1).natural? | throw .sequenceNotInteger
  let some rawKind := (fieldAt fields 2).string? | throw .kindNotString
  let some kind := NodeKind.ofName? rawKind | throw (.unknownKind rawKind)
  let role ← readRole (fieldAt fields 3)
  let some rawId := (fieldAt fields 4).string? | throw .idNotString
  let some id := NodeId.ofString? rawId | throw (.invalidId rawId)
  let some flags := (fieldAt fields 5).natural? | throw .flagsNotInteger
  let some cflags := (fieldAt fields 6).natural? | throw .cflagsNotInteger
  let stream ← readStream (fieldAt fields 7)
  let some time := (fieldAt fields 8).real? | throw .timeNotNumber
  return ⟨hash, sequence, kind, role, id, ⟨flags⟩, ⟨cflags⟩, stream, time⟩

end Head

/-- Drops line feeds and carriage returns at the end. -/
def trimTerminators (cs : List Char) : List Char :=
  (cs.reverse.dropWhile fun c => c = '\n' || c = '\r').reverse

namespace Record

/-- Reads the characters of a line that has no terminator. -/
def readChars (line : List Char) : Except Malformed Record := do
  let some (rawKeyword, rest) := Text.cutOnce? ',' line | throw .noSeparator
  let some keyword := Keyword.ofName? (String.ofList rawKeyword)
    | throw (.unknownKeyword (String.ofList rawKeyword))
  let some fields := Json.readItemsOf? rest | throw .invalidJson
  if fields.length < headFields then throw (.tooFewFields fields.length)
  let head ← Head.ofFields (fields.take headFields)
  let body ← Body.ofFields keyword (fields.drop headFields)
  return ⟨head, body⟩

/-- Reads a line, with or without a terminator. Fields missing at the end take their defaults. -/
def parse (line : String) : Except ParseError Record :=
  let cs := trimTerminators line.toList
  match readChars cs with
  | .ok r => .ok r
  | .error reason => .error ⟨String.ofList cs, reason⟩

end Record

end RunLog
