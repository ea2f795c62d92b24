import RunLog.Text.Utf8

/-! # Regular expressions

Expressions over the characters of a line, searched for anywhere in it. A byte that is no part of a
character is matched by nothing. A search follows all the expressions that can be left to match after
each character. -/

namespace RunLog

/-- A set of characters: those in the ranges, or all others. -/
structure CharSet where
  ranges : List (Char × Char)
  negated : Bool := false
deriving DecidableEq, Repr

namespace CharSet

def mem (s : CharSet) (c : Char) : Bool :=
  s.ranges.any (fun (low, high) => low ≤ c && c ≤ high) != s.negated

def single (c : Char) : CharSet := ⟨[(c, c)], false⟩

/-- Every character but a line feed. -/
def anyInLine : CharSet := ⟨[('\n', '\n')], true⟩

end CharSet

inductive Regex where
  | empty
  | one (set : CharSet)
  /-- The start of the line. -/
  | lineStart
  /-- The end of the line. -/
  | lineEnd
  | seq (first second : Regex)
  | alt (left right : Regex)
  | star (body : Regex)
deriving DecidableEq, Repr

namespace Regex

def char (c : Char) : Regex := one (.single c)

/-- One after the other. -/
def concat : List Regex → Regex
  | [] => empty
  | [r] => r
  | r :: rs => seq r (concat rs)

/-- One of several; the empty text if there are none. -/
def choice : List Regex → Regex
  | [] => empty
  | [r] => r
  | r :: rs => alt r (choice rs)

def text (s : String) : Regex := concat (s.toList.map char)

def plus (r : Regex) : Regex := seq r (star r)

def optional (r : Regex) : Regex := alt r empty

/-- At least `least` times, and at most `more` times more if a bound is given. -/
def times (r : Regex) (least : Nat) (more : Option Nat) : Regex :=
  let required := List.replicate least r
  match more with
  | none => concat (required ++ [star r])
  | some more => concat (required ++ [Nat.rec empty (fun _ rest => optional (seq r rest)) more])

/-- Whether the empty text is matched, at the start or at the end of the line. -/
def nullable (atStart atEnd : Bool) : Regex → Bool
  | empty => true
  | one _ => false
  | lineStart => atStart
  | lineEnd => atEnd
  | seq r s => r.nullable atStart atEnd && s.nullable atStart atEnd
  | alt r s => r.nullable atStart atEnd || s.nullable atStart atEnd
  | star _ => true

/-- Puts an expression behind another, which falls away when it is empty. -/
def before (s : Regex) : Regex → Regex
  | empty => s
  | r => seq r s

/-- What can be left to match after a character. -/
def after (atStart : Bool) (c : Char) : Regex → List Regex
  | empty | lineStart | lineEnd => []
  | one set => if set.mem c then [empty] else []
  | seq r s =>
    (r.after atStart c).map (before s)
      ++ if r.nullable atStart false then s.after atStart c else []
  | alt r s => r.after atStart c ++ s.after atStart c
  | star r => (r.after atStart c).map (before (star r))

/-- Searches the rest of a line for what is left of matches under way, or for a new one. -/
def searchFrom (r : Regex) (atStart : Bool) (open' : List Regex) : List (Option Char) → Bool
  | [] => (r :: open').any (nullable atStart true)
  | c :: rest =>
    (r :: open').any (nullable atStart false) ||
      searchFrom r false
        (match c with
          | some c => ((r :: open').flatMap (after atStart c)).eraseDups
          | none => [])
        rest

/-- Whether some part of the line is matched. -/
def search (r : Regex) (line : Bytes) : Bool := searchFrom r true [] (Text.charsOf line)

end Regex

end RunLog
