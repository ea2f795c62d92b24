import RunLog.Json.Basic
import RunLog.Numeric.Text
import RunLog.Text.Hex

/-! # Compact JSON text -/

namespace RunLog

open RunLog.Numeric (digits)

namespace Json

/-- The spelling of a character within quotes. Only the quote, the backslash and the controls
below the space are escaped. -/
def escape (c : Char) : List Char :=
  if c = '"' then ['\\', '"']
  else if c = '\\' then ['\\', '\\']
  else if c = '\x08' then ['\\', 'b']
  else if c = '\t' then ['\\', 't']
  else if c = '\n' then ['\\', 'n']
  else if c = '\x0c' then ['\\', 'f']
  else if c = '\r' then ['\\', 'r']
  else if c.toNat < 32 then
    ['\\', 'u', '0', '0', Text.hexDigit (c.toNat / 16), Text.hexDigit c.toNat]
  else [c]

def quote (s : List Char) : List Char := '"' :: s.flatMap escape ++ ['"']

end Json

/-- The spelling of a number. A double that is not finite has none and reads as `null`. -/
def Number.chars : Number → List Char
  | natural n => digits n.toNat
  | negative n => '-' :: digits n.toNat
  | real x => (Numeric.finiteChars? x).getD ['n', 'u', 'l', 'l']

namespace Json

mutual

/-- The text of a value, without any blank. -/
def chars : Json → List Char
  | null => ['n', 'u', 'l', 'l']
  | bool true => ['t', 'r', 'u', 'e']
  | bool false => ['f', 'a', 'l', 's', 'e']
  | number n => n.chars
  | string s => quote s.toList
  | array items => '[' :: charsOfItems items ++ [']']
  | object members => '{' :: charsOfMembers members ++ ['}']

/-- The texts of several values with commas between them. -/
def charsOfItems : List Json → List Char
  | [] => []
  | [item] => item.chars
  | item :: rest => item.chars ++ ',' :: charsOfItems rest

/-- The texts of several members with commas between them. -/
def charsOfMembers : List (String × Json) → List Char
  | [] => []
  | [(name, value)] => quote name.toList ++ ':' :: value.chars
  | (name, value) :: rest => quote name.toList ++ ':' :: value.chars ++ ',' :: charsOfMembers rest

end

def render (v : Json) : String := String.ofList v.chars

end Json

end RunLog
