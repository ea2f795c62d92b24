import RunLog.Digest.Sha1
import RunLog.Digest.Sha256
import RunLog.Line.Printer
import RunLog.Text.Cut

/-! # The hash chain

Each line of a writer carries a digest of the line before it and of its own fields, so a change to
one line shows in every later one. -/

namespace RunLog

/-- The digest that links are made with. -/
inductive Algorithm where
  | sha1
  | sha256
deriving DecidableEq, Repr

namespace Algorithm

def digest : Algorithm → ByteArray → List UInt8
  | sha1 => Digest.sha1
  | sha256 => Digest.sha256

end Algorithm

/-- How links are computed. -/
structure ChainRule where
  algorithm : Algorithm := .sha1
  /-- Hexadecimal digits kept of each digest. -/
  length : Nat := 8
deriving DecidableEq, Repr

namespace ChainRule

/-- The text that a link is a digest of. -/
def message (prior : List Char) (keyword : Keyword) (rest : List Char) : List Char :=
  prior ++ ',' :: keyword.name.toList ++ ',' :: rest

/-- The link after `prior`. -/
def link (rule : ChainRule) (prior : List Char) (keyword : Keyword) (rest : List Char) :
    List Char :=
  let text := String.ofList (message prior keyword rest)
  (Text.hex (rule.algorithm.digest text.toUTF8)).take rule.length

end ChainRule

namespace Chain

/-- The stretch before the first closing quote and comma, and what follows them. -/
def cutQuote? (cs : List Char) : Option (List Char × List Char) := go [] cs
where
  go (before : List Char) : List Char → Option (List Char × List Char)
    | '"' :: ',' :: rest => some (before.reverse, rest)
    | c :: rest => go (c :: before) rest
    | [] => none

/-- The keyword, the stored link and the fields after it. -/
def splitHead? (line : List Char) : Option (List Char × List Char × List Char) :=
  match Text.cutOnce? ',' line with
  | some (keyword, '"' :: tail) =>
    (cutQuote? tail).map fun (hash, rest) => (keyword, hash, rest)
  | _ => none

/-- The link that a line should carry after `prior`, if it does carry it. -/
def follow? (rule : ChainRule) (prior line : List Char) : Option (List Char) := do
  let (rawKeyword, hash, rest) ← splitHead? line
  let keyword ← Keyword.ofName? (String.ofList rawKeyword)
  let expected := rule.link prior keyword rest
  if expected = hash then some expected else none

/-- The position of the first line that does not follow from those before it. -/
def firstBad? (rule : ChainRule) (lines : List (List Char)) : Option Nat := go [] 0 lines
where
  go (prior : List Char) (index : Nat) : List (List Char) → Option Nat
    | [] => none
    | line :: rest =>
      match follow? rule prior line with
      | some link => go link (index + 1) rest
      | none => some index

end Chain

end RunLog
