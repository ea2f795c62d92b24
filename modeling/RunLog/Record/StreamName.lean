/-! # Names of sub-streams -/

namespace RunLog

namespace StreamName

/-- The longest name. -/
def maxLength : Nat := 64

/-- ASCII letters and digits, and a few marks for paths. -/
def isNameChar (c : Char) : Bool := c.isAlphanum || c = '.' || c = '_' || c = '/' || c = '-'

/-- At most `maxLength` name characters, of which the first is a letter or a digit. -/
def isValid (cs : List Char) : Bool :=
  match cs with
  | [] => false
  | c :: rest => cs.length ≤ maxLength && c.isAlphanum && rest.all isNameChar

end StreamName

/-- The name of a captured stream of a node, such as `stdout`. -/
structure StreamName where
  raw : String
  valid : StreamName.isValid raw.toList = true
deriving DecidableEq

namespace StreamName

def ofString? (raw : String) : Option StreamName :=
  if h : isValid raw.toList = true then some ⟨raw, h⟩ else none

end StreamName

end RunLog
