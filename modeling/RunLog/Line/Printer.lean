import RunLog.Line.Fields

/-! # Writing records as lines

A line is the keyword, the quoted hash, and all other fields as JSON values, with commas between
them. The fields after the hash are what the hash chain covers. -/

namespace RunLog

namespace Head

/-- The fields after the hash, up to the time. -/
def toFields (h : Head) : List Json :=
  [.number (.natural h.sequence), .string h.kind.name, .ofString? (h.role.map Role.name),
   .string h.id.render, .number (.natural h.flags.bits), .number (.natural h.cflags.bits),
   .ofString? h.stream, .ofFloat h.time]

end Head

/-- The whole line, from the text after the hash. -/
def joinLine (keyword : Keyword) (hash rest : List Char) : List Char :=
  keyword.name.toList ++ ',' :: Json.quote hash ++ ',' :: rest

namespace Record

/-- The text of everything after the hash. -/
def restChars (r : Record) : List Char :=
  Json.charsOfItems (r.head.toFields ++ trimNulls r.body.toFields)

/-- The line of a record whose hash is known, without a terminator. -/
def chars (r : Record) : List Char := joinLine r.keyword r.head.hash.toList r.restChars

def render (r : Record) : String := String.ofList r.chars

end Record

end RunLog
