import RunLog.Numeric.Text
import RunLog.Pattern.Regex

/-! # Notation of regular expressions

Characters stand for themselves but for `\.+*?()|[]^$`. Repetition is written with an asterisk, a
plus, a question mark or counts in braces, choice with a bar, grouping with parentheses, sets of
characters in brackets, with ranges and a leading caret for all others. -/

namespace RunLog.Regex

/-- A backslash takes the meaning from punctuation. -/
def escaped? (c : Char) : Option Char :=
  if c.isAlphanum || c.toNat ≥ 0x80 || c.toNat ≤ 0x20 then none else some c

/-- A member of a set, or the end of a range. -/
def member? : List Char → Option (Char × List Char)
  | [] | '[' :: _ => none
  | '\\' :: c :: rest => (escaped? c).map (·, rest)
  | '\\' :: [] => none
  | c :: rest => some (c, rest)

/-- The members of a set up to the closing bracket. -/
def members? (fuel : Nat) (found : List (Char × Char)) (cs : List Char) :
    Option (List (Char × Char) × List Char) :=
  match fuel, cs with
  | 0, _ => none
  | _ + 1, ']' :: rest => some (found.reverse, rest)
  | fuel + 1, cs => do
    let (low, rest) ← member? cs
    match rest with
    | '-' :: ']' :: rest => some ((('-', '-') :: (low, low) :: found).reverse, rest)
    | '-' :: rest =>
      let (high, rest) ← member? rest
      if low ≤ high then members? fuel ((low, high) :: found) rest else none
    | rest => members? fuel ((low, low) :: found) rest

/-- A set after its opening bracket. A closing bracket that comes first is a member. -/
def set? (cs : List Char) : Option (CharSet × List Char) := do
  let (negated, cs) := match cs with
    | '^' :: rest => (true, rest)
    | cs => (false, cs)
  let (found, cs) := match cs with
    | ']' :: rest => ([(']', ']')], rest)
    | cs => ([], cs)
  let (ranges, rest) ← members? (cs.length + 1) found cs
  some (⟨ranges, negated⟩, rest)

/-- The number that a text begins with. -/
def number? (cs : List Char) : Option (Nat × List Char) :=
  let digits := cs.takeWhile Char.isDigit
  if digits.isEmpty then none
  else some (digits.foldl (fun n c => 10 * n + (c.toNat - 48)) 0, cs.dropWhile Char.isDigit)

/-- Counts after an opening brace: the least number, and how many more there may be. -/
def counts? (cs : List Char) : Option ((Nat × Option Nat) × List Char) := do
  let (least, rest) ← number? cs
  match rest with
  | '\x7d' :: rest => some ((least, some 0), rest)
  | ',' :: '\x7d' :: rest => some ((least, none), rest)
  | ',' :: rest =>
    let (most, rest) ← number? rest
    match rest with
    | '\x7d' :: rest => if least ≤ most then some ((least, some (most - least)), rest) else none
    | _ => none
  | _ => none

/-- What a group begins with, if it is not to be remembered. -/
def groupStart? : List Char → Option (List Char)
  | '?' :: ':' :: rest => some rest
  | '?' :: _ => none
  | rest => some rest

/-- Repeats the latest item. A question mark after it asks for a short match, which makes no
difference to a search. -/
def repeatLatest? (f : Regex → Regex) (items : List Regex) (cs : List Char) :
    Option (List Regex × List Char) :=
  match items with
  | [] => none
  | item :: items =>
    some (f item :: items, match cs with
      | '?' :: rest => rest
      | cs => cs)

/-- Reads up to a closing parenthesis or the end. `branches` and `items` were read before, latest
first. -/
def branches? (fuel : Nat) (branches items : List Regex) (cs : List Char) :
    Option (Regex × List Char) :=
  let branch := concat items.reverse
  match fuel with
  | 0 => none
  | fuel + 1 =>
    match cs with
    | [] | ')' :: _ => some (choice (branch :: branches).reverse, cs)
    | '|' :: rest => branches? fuel (branch :: branches) [] rest
    | '(' :: rest => do
      let (group, rest) ← branches? fuel [] [] (← groupStart? rest)
      match rest with
      | ')' :: rest => branches? fuel branches (group :: items) rest
      | _ => none
    | '[' :: rest => do
      let (set, rest) ← set? rest
      branches? fuel branches (one set :: items) rest
    | '*' :: rest => do
      let (items, rest) ← repeatLatest? star items rest
      branches? fuel branches items rest
    | '+' :: rest => do
      let (items, rest) ← repeatLatest? plus items rest
      branches? fuel branches items rest
    | '?' :: rest => do
      let (items, rest) ← repeatLatest? optional items rest
      branches? fuel branches items rest
    | '\x7b' :: rest => do
      let ((least, more), rest) ← counts? rest
      let (items, rest) ← repeatLatest? (·.times least more) items rest
      branches? fuel branches items rest
    | '.' :: rest => branches? fuel branches (one .anyInLine :: items) rest
    | '^' :: rest => branches? fuel branches (lineStart :: items) rest
    | '$' :: rest => branches? fuel branches (lineEnd :: items) rest
    | '\\' :: c :: rest => do
      let c ← escaped? c
      branches? fuel branches (char c :: items) rest
    | '\\' :: [] => none
    | c :: rest => branches? fuel branches (char c :: items) rest

/-- Reads an expression. -/
def ofString? (s : String) : Option Regex :=
  match branches? (s.length + 1) [] [] s.toList with
  | some (r, []) => some r
  | _ => none

end RunLog.Regex
