import RunLog.Error
import RunLog.Pattern.Parser
import RunLog.Record.Keyword
import RunLog.Record.Node

/-! # Line patterns

Patterns select lines before they are read as records: by some of their bytes, by a regular
expression, by keyword, or by the node they belong to. -/

namespace RunLog

inductive LinePattern where
  | any
  | substring (needle : Bytes)
  | regex (r : Regex)

namespace LinePattern

/-- Whether the needle is somewhere in the bytes. -/
def occurs (needle : Bytes) : Bytes → Bool
  | [] => needle.isEmpty
  | b :: rest => needle.isPrefixOf (b :: rest) || occurs needle rest

def isMatch (p : LinePattern) (line : Bytes) : Bool :=
  match p with
  | any => true
  | substring needle => occurs needle line
  | regex r => r.search line

def ofRegex (s : String) : Except LogError LinePattern :=
  match Regex.ofString? s with
  | some r => .ok (regex r)
  | none => .error .invalidPattern

/-- Lines that begin with one of the keywords and a comma. -/
def keywords (ks : List Keyword) : LinePattern :=
  regex (.concat [.lineStart, .choice (ks.map fun k => .text k.name), .char ','])

/-- The fields of a line before the path: keyword, link of the chain, sequence number, kind and
role. -/
def beforePath : Regex :=
  let capital := Regex.one ⟨[('A', 'Z')], false⟩
  let letter := Regex.one ⟨[('A', 'Z'), ('a', 'z')], false⟩
  let digit := Regex.one ⟨[('0', '9')], false⟩
  let quote := Regex.char '"'
  let quoted := fun r => Regex.concat [quote, r, quote]
  .concat [.lineStart, capital.plus, .char ',', quoted (.star (.one ⟨[('"', '"')], true⟩)), .char ',',
    digit.plus, .char ',', quoted letter.plus, .char ',',
    .alt (.text "null") (quoted letter.plus), .char ',']

/-- Lines of a node and of its descendants. -/
def node (id : NodeId) : LinePattern :=
  let digit := Regex.one ⟨[('0', '9')], false⟩
  let path := if id.isRoot then .star (.one ⟨[('0', '9'), ('/', '/')], false⟩)
    else .seq (.text id.render) (.star (.seq (.char '/') digit.plus))
  regex (.concat [beforePath, .char '"', path, .text "\","])

end LinePattern

/-- Recognises the line that ends a log: a stop record, of a given node or of any. -/
structure StopMarker where
  node : Option NodeId := none

namespace StopMarker

/-- The start of stop records. -/
def start : Bytes := Text.toBytes "STOP,"

def isStop (m : StopMarker) (line : Bytes) : Bool :=
  start.isPrefixOf line &&
    match m.node with
    | none => true
    | some id => (Regex.concat [LinePattern.beforePath, .char '"', .text id.render,
        .text "\","]).search line

end StopMarker

end RunLog
