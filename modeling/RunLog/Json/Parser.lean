import RunLog.Json.Basic
import RunLog.Numeric.Reading
import RunLog.Text.Hex

/-! # Reading JSON

A strict reader: no trailing commas, no leading zeros, no raw control characters in strings, no
lone surrogates, and at most `maxDepth` arrays and objects around a value. Each function returns the
characters that it did not use. -/

namespace RunLog

namespace Number

def isDigit (c : Char) : Bool := '0' ≤ c && c ≤ '9'

def digitValue (c : Char) : Nat := c.toNat - '0'.toNat

/-- Splits off the leading digits. -/
def splitDigits (cs : List Char) : List Nat × List Char :=
  ((cs.takeWhile isDigit).map digitValue, cs.dropWhile isDigit)

def ofDigits (ds : List Nat) : Nat := ds.foldl (fun n d => n * 10 + d) 0

/-- A numeral without fraction and exponent. Minus zero and integers beyond a machine word are
doubles. -/
def ofInteger? (minus : Bool) (whole : List Nat) : Option Number :=
  let n := ofDigits whole
  if !minus && n < UInt64.size then some (.natural (.ofNat n))
  else if minus && 0 < n && n ≤ UInt64.size / 2 then some (.negative (.ofNat n))
  else (Numeric.readDecimal? whole [] 0).map fun x => .real (if minus then -x else x)

/-- A numeral with a fraction or an exponent. -/
def ofDecimal? (minus : Bool) (whole fraction : List Nat) (exponent : Int) : Option Number :=
  (Numeric.readDecimal? whole fraction exponent).map fun x =>
    .real (if minus then -x else x)

/-- The sign and digits after the letter of an exponent. -/
def readExponent? : List Char → Option (Int × List Char)
  | '+' :: cs => digitsAfter 1 cs
  | '-' :: cs => digitsAfter (-1) cs
  | cs => digitsAfter 1 cs
where
  digitsAfter (sign : Int) (cs : List Char) : Option (Int × List Char) :=
    match splitDigits cs with
    | ([], _) => none
    | (ds, rest) => some (sign * ofDigits ds, rest)

/-- The part of a numeral after its integer digits. -/
def readTail? (minus : Bool) (whole : List Nat) : List Char → Option (Number × List Char)
  | '.' :: cs =>
    match splitDigits cs with
    | ([], _) => none
    | (fraction, rest) => withExponent fraction rest
  | 'e' :: cs => withExponent [] ('e' :: cs)
  | 'E' :: cs => withExponent [] ('E' :: cs)
  | cs => (ofInteger? minus whole).map (·, cs)
where
  withExponent (fraction : List Nat) : List Char → Option (Number × List Char)
    | 'e' :: cs => do
      let (exponent, rest) ← readExponent? cs
      return (← ofDecimal? minus whole fraction exponent, rest)
    | 'E' :: cs => do
      let (exponent, rest) ← readExponent? cs
      return (← ofDecimal? minus whole fraction exponent, rest)
    | cs => (ofDecimal? minus whole fraction 0).map (·, cs)

/-- A numeral: an optional minus, integer digits without a leading zero, and the rest. -/
def read? (cs : List Char) : Option (Number × List Char) :=
  let (minus, cs) := match cs with
    | '-' :: rest => (true, rest)
    | _ => (false, cs)
  match splitDigits cs with
  | ([], _) => none
  | (0 :: _ :: _, _) => none
  | (whole, rest) => readTail? minus whole rest

end Number

namespace Json

/-- Nesting allowed around a value, that of the outermost array included. -/
def maxDepth : Nat := 127

def isBlank (c : Char) : Bool := c = ' ' || c = '\n' || c = '\t' || c = '\r'

def skipBlank (cs : List Char) : List Char := cs.dropWhile isBlank

/-- Where a string reader stands: between characters, after a backslash, within the four digits
of a code unit, or between the two halves of a surrogate pair. -/
inductive StringState where
  | plain
  | escaped
  | unit (high : Option Nat) (left value : Nat)
  | paired (high : Nat)
  | pairedEscape (high : Nat)

namespace StringState

/-- The character named by a letter after a backslash. -/
def escapeLetter? (c : Char) : Option Char :=
  if c = '"' || c = '\\' || c = '/' then some c
  else if c = 'b' then some '\x08'
  else if c = 'f' then some '\x0c'
  else if c = 'n' then some '\n'
  else if c = 'r' then some '\r'
  else if c = 't' then some '\t'
  else none

/-- A finished code unit: a character, or a half of a surrogate pair. -/
def ofUnit (acc : List Char) : Option Nat → Nat → Option (List Char × StringState)
  | none, n =>
    if 0xD800 ≤ n ∧ n ≤ 0xDBFF then some (acc, .paired n)
    else if 0xDC00 ≤ n ∧ n ≤ 0xDFFF then none
    else some (Char.ofNat n :: acc, .plain)
  | some high, n =>
    if 0xDC00 ≤ n ∧ n ≤ 0xDFFF then
      some (Char.ofNat (0x10000 + (high - 0xD800) * 0x400 + (n - 0xDC00)) :: acc, .plain)
    else none

/-- One character that is not the closing quote. -/
def step (acc : List Char) (c : Char) : StringState → Option (List Char × StringState)
  | plain =>
    if c = '\\' then some (acc, .escaped)
    else if c.toNat < 32 then none
    else some (c :: acc, .plain)
  | escaped =>
    if c = 'u' then some (acc, .unit none 4 0)
    else (escapeLetter? c).map (· :: acc, .plain)
  | unit high left value => do
    let digit ← Text.hexValue? c
    let value := value * 16 + digit
    if left ≤ 1 then ofUnit acc high value else return (acc, .unit high (left - 1) value)
  | paired high => if c = '\\' then some (acc, .pairedEscape high) else none
  | pairedEscape high => if c = 'u' then some (acc, .unit (some high) 4 0) else none

end StringState

/-- The rest of a string after its opening quote; the characters read are in `acc`, latest
first. -/
def readString? (acc : List Char) : StringState → List Char → Option (String × List Char)
  | _, [] => none
  | .plain, '"' :: cs => some (String.ofList acc.reverse, cs)
  | state, c :: cs =>
    match state.step acc c with
    | some (acc, state) => readString? acc state cs
    | none => none

mutual

/-- Reads a value with at most `depth` arrays and objects nested in it. -/
def readValue? : (fuel depth : Nat) → List Char → Option (Json × List Char)
  | 0, _, _ => none
  | fuel + 1, depth, cs =>
    match skipBlank cs with
    | 'n' :: 'u' :: 'l' :: 'l' :: rest => some (null, rest)
    | 't' :: 'r' :: 'u' :: 'e' :: rest => some (bool true, rest)
    | 'f' :: 'a' :: 'l' :: 's' :: 'e' :: rest => some (bool false, rest)
    | '"' :: rest => (readString? [] .plain rest).map fun (s, rest) => (string s, rest)
    | '[' :: rest =>
      match depth with
      | 0 => none
      | depth + 1 =>
        match skipBlank rest with
        | ']' :: rest => some (array [], rest)
        | rest => readItems? fuel depth [] rest
    | '{' :: rest =>
      match depth with
      | 0 => none
      | depth + 1 =>
        match skipBlank rest with
        | '}' :: rest => some (object [], rest)
        | rest => readMembers? fuel depth [] rest
    | rest => (Number.read? rest).map fun (n, rest) => (number n, rest)

/-- Reads the items of an array after those in `acc`, latest first, and its closing bracket. -/
def readItems? : (fuel depth : Nat) → List Json → List Char → Option (Json × List Char)
  | 0, _, _, _ => none
  | fuel + 1, depth, acc, cs =>
    match readValue? fuel depth cs with
    | none => none
    | some (item, rest) =>
      match skipBlank rest with
      | ',' :: rest => readItems? fuel depth (item :: acc) rest
      | ']' :: rest => some (array (item :: acc).reverse, rest)
      | _ => none

/-- Reads the members of an object after those in `acc`, and its closing brace. A later member
replaces an earlier one of the same name. -/
def readMembers? : (fuel depth : Nat) → List (String × Json) → List Char →
    Option (Json × List Char)
  | 0, _, _, _ => none
  | fuel + 1, depth, acc, cs =>
    match skipBlank cs with
    | '"' :: rest =>
      match readString? [] .plain rest with
      | none => none
      | some (name, rest) =>
        match skipBlank rest with
        | ':' :: rest =>
          match readValue? fuel depth rest with
          | none => none
          | some (value, rest) =>
            match skipBlank rest with
            | ',' :: rest => readMembers? fuel depth (insertMember name value acc) rest
            | '}' :: rest => some (object (insertMember name value acc), rest)
            | _ => none
        | _ => none
    | _ => none

end

/-- Every call uses up a character or is followed by one that does, so twice the length is
enough fuel. -/
def read? (cs : List Char) : Option Json :=
  match readValue? (2 * cs.length + 2) maxDepth cs with
  | some (v, rest) => if (skipBlank rest).isEmpty then some v else none
  | none => none

/-- Reads comma-separated values that stand without brackets, as if they were an array. -/
def readItemsOf? (cs : List Char) : Option (List Json) :=
  match read? ('[' :: cs ++ [']']) with
  | some (array items) => some items
  | _ => none

end Json

end RunLog
