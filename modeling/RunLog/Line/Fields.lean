import RunLog.Line.Malformed
import RunLog.Record.Basic

/-! # Positional fields

An object travels as the array of its fields in a fixed order, without the nulls at the end. Reading
takes a field that is not there for null, and null for the default of the field. -/

namespace RunLog

/-- Drops the nulls at the end. -/
def trimNulls (fields : List Json) : List Json :=
  fields.reverse.dropWhile Json.isNull |>.reverse

/-- A field by position. -/
def fieldAt (fields : List Json) (i : Nat) : Json := fields[i]?.getD .null

namespace Json

/-- A scalar as text: a string stands for itself, another value for its JSON text. -/
def text? : Json → Option String
  | null => none
  | string s => some s
  | v => some v.render

def textOrEmpty (v : Json) : String := v.text?.getD ""

/-- An empty list travels as null. -/
def ofList (items : List Json) : Json := if items.isEmpty then null else array items

def ofStrings (ss : List String) : Json := ofList (ss.map string)

def ofFields (fields : List Json) : Json := array (trimNulls fields)

/-- A list whose items are read by `read`. -/
def listOf {α : Type} (read : Json → Except Malformed α) : Json → Except Malformed (List α)
  | null => .ok []
  | array items => items.mapM read
  | v => .error (.notList v)

def strings : Json → Except Malformed (List String) := listOf fun v => .ok v.textOrEmpty

/-- An object read from the array of its fields. -/
def nested {α : Type} (read : List Json → Except Malformed α) : Json → Except Malformed α
  | array fields => read fields
  | v => .error (.notArray v)

/-- A list of objects. -/
def objects {α : Type} (read : List Json → Except Malformed α) :
    Json → Except Malformed (List α) :=
  listOf (nested read)

/-- An object that may be absent. -/
def nested? {α : Type} (read : List Json → Except Malformed α) :
    Json → Except Malformed (Option α)
  | null => .ok none
  | v => some <$> nested read v

end Json

/-- A text field that must not be null; `what` names it. -/
def required (fields : List Json) (i : Nat) (what : String) : Except Malformed String :=
  match (fieldAt fields i).text? with
  | some s => .ok s
  | none => .error (.missing what)

def optional (fields : List Json) (i : Nat) : Option String := (fieldAt fields i).text?

namespace NamedValue

def toFields (v : NamedValue) : List Json :=
  [.string v.name, .string v.value, .ofString? v.kind, .ofString? v.group, .ofString? v.uid]

def ofFields (what : String) (fields : List Json) : Except Malformed NamedValue := do
  let name ← required fields 0 what
  return ⟨name, (fieldAt fields 1).textOrEmpty, optional fields 2, optional fields 3,
    optional fields 4⟩

end NamedValue

namespace NamedLink

def toFields (l : NamedLink) : List Json :=
  [.string l.name, .ofString? l.link, .ofString? l.kind, .ofString? l.group, .ofString? l.uid]

def ofFields (what : String) (fields : List Json) : Except Malformed NamedLink := do
  let name ← required fields 0 what
  return ⟨name, optional fields 1, optional fields 2, optional fields 3, optional fields 4⟩

end NamedLink

namespace Requirement

def toFields (r : Requirement) : List Json :=
  [.string r.name, .ofString? r.version, .ofString? r.description, .ofString? r.link,
   .ofString? r.priority, .ofString? r.kind, .ofString? r.group, .ofString? r.uid]

def ofFields (fields : List Json) : Except Malformed Requirement := do
  let name ← required fields 0 "requirement name"
  return ⟨name, optional fields 1, optional fields 2, optional fields 3, optional fields 4,
    optional fields 5, optional fields 6, optional fields 7⟩

end Requirement

namespace Specification

def toFields (s : Specification) : List Json :=
  [.string s.name, .ofString? s.version, .ofString? s.description, .ofString? s.link,
   .ofString? s.kind, .ofString? s.group, .ofString? s.uid]

def ofFields (fields : List Json) : Except Malformed Specification := do
  let name ← required fields 0 "specification name"
  return ⟨name, optional fields 1, optional fields 2, optional fields 3, optional fields 4,
    optional fields 5, optional fields 6⟩

end Specification

namespace Metric

def toFields (m : Metric) : List Json :=
  [.string m.name, .ofFloat m.value, .string m.units, .ofString? m.kind, .ofString? m.group,
   .ofString? m.uid]

def ofFields (fields : List Json) : Except Malformed Metric := do
  let value ← match fieldAt fields 1 with
    | .null => pure 0
    | v => match v.real? with
      | some x => pure x
      | none => throw (.metricNotNumber v)
  let name ← required fields 0 "metric name"
  return ⟨name, value, (fieldAt fields 2).textOrEmpty, optional fields 3, optional fields 4,
    optional fields 5⟩

end Metric

/-- A tag is an object of one field. -/
def readTag (fields : List Json) : Except Malformed String := required fields 0 "tag value"

namespace TableRow

def toFields (r : TableRow) : List Json :=
  [.number (.natural (.ofNat r.row.toNat)), .ofStrings r.columns, .ofStrings r.values,
   .ofString? r.format]

def readIndex : Json → Except Malformed UInt32
  | .null => .ok 0
  | v => match v.natural? with
    | some n => if n.toNat < UInt32.size then .ok (.ofNat n.toNat) else .error (.rowNotIndex v)
    | none => .error (.rowNotIndex v)

def ofFields (fields : List Json) : Except Malformed TableRow := do
  let row ← readIndex (fieldAt fields 0)
  let columns ← (fieldAt fields 1).strings
  let values ← (fieldAt fields 2).strings
  return ⟨row, columns, values, optional fields 3⟩

end TableRow

namespace Table

def toFields (t : Table) : List Json :=
  [.ofStrings t.columns, .ofList (t.rows.map .ofStrings), .ofString? t.format]

def readRows : Json → Except Malformed (List (List String))
  | .null => .ok []
  | .array rows => rows.mapM Json.strings
  | v => .error (.notRows v)

def ofFields (fields : List Json) : Except Malformed Table := do
  let rows ← readRows (fieldAt fields 1)
  let columns ← (fieldAt fields 0).strings
  return ⟨columns, rows, optional fields 2⟩

end Table

namespace GraphNode

def toFields (n : GraphNode) : List Json :=
  [.string n.name, .ofString? n.module, .ofString? n.uid, .ofStrings n.nexts, .ofStrings n.ins,
   .ofStrings n.outs]

def ofFields (fields : List Json) : Except Malformed GraphNode := do
  let name ← required fields 0 "node name"
  let nexts ← (fieldAt fields 3).strings
  let ins ← (fieldAt fields 4).strings
  let outs ← (fieldAt fields 5).strings
  return ⟨name, optional fields 1, optional fields 2, nexts, ins, outs⟩

end GraphNode

/-- Objects of one kind as a list of arrays. -/
def objectsOf {α : Type} (toFields : α → List Json) (items : List α) : Json :=
  .ofList (items.map fun item => .ofFields (toFields item))

/-- An object that may be absent. -/
def objectOf? {α : Type} (toFields : α → List Json) : Option α → Json
  | some item => .ofFields (toFields item)
  | none => .null

namespace Test

def toFields (t : Test) : List Json :=
  [.string t.name, .ofString? t.uid, .ofString? t.description,
   objectsOf NamedValue.toFields t.attributes, objectsOf Requirement.toFields t.requirements,
   objectsOf NamedValue.toFields t.arguments, objectsOf (fun tag => [.string tag]) t.tags,
   objectsOf NamedLink.toFields t.users, objectsOf NamedLink.toFields t.tickets,
   objectOf? Table.toFields t.examples, objectOf? GraphNode.toFields t.node,
   objectsOf GraphNode.toFields t.map]

def ofFields (fields : List Json) : Except Malformed Test := do
  let name ← required fields 0 "test name"
  let attributes ← (fieldAt fields 3).objects (NamedValue.ofFields "attribute name")
  let requirements ← (fieldAt fields 4).objects Requirement.ofFields
  let arguments ← (fieldAt fields 5).objects (NamedValue.ofFields "argument name")
  let tags ← (fieldAt fields 6).objects readTag
  let users ← (fieldAt fields 7).objects (NamedLink.ofFields "user name")
  let tickets ← (fieldAt fields 8).objects (NamedLink.ofFields "ticket name")
  let examples ← (fieldAt fields 9).nested? Table.ofFields
  let node ← (fieldAt fields 10).nested? GraphNode.ofFields
  let map ← (fieldAt fields 11).objects GraphNode.ofFields
  return ⟨name, optional fields 1, optional fields 2, attributes, requirements, arguments, tags,
    users, tickets, examples, node, map⟩

end Test

namespace Result

def toFields (r : Result) : List Json :=
  [.string r.outcome.name, .ofString? r.message, .ofString? r.reason, .string r.test,
   objectsOf Metric.toFields r.metrics, objectsOf NamedLink.toFields r.tickets,
   objectsOf NamedValue.toFields r.values]

def readOutcome (fields : List Json) : Except Malformed Outcome := do
  let raw ← required fields 0 "result type"
  match Outcome.ofName? raw with
  | some outcome => return outcome
  | none => throw (.unknownOutcome raw)

def ofFields (fields : List Json) : Except Malformed Result := do
  let outcome ← readOutcome fields
  let metrics ← (fieldAt fields 4).objects Metric.ofFields
  let tickets ← (fieldAt fields 5).objects (NamedLink.ofFields "ticket name")
  let values ← (fieldAt fields 6).objects (NamedValue.ofFields "value name")
  return ⟨outcome, optional fields 1, optional fields 2, (fieldAt fields 3).textOrEmpty, metrics,
    tickets, values⟩

end Result

namespace Body

def toFields : Body → List Json
  | text _ content => [.string content]
  | test t => t.toFields
  | result r => r.toFields
  | value v => v.toFields
  | metric m => m.toFields
  | ticket l => l.toFields
  | argument v => v.toFields
  | tag s => [.string s]
  | property v => v.toFields
  | requirement r => r.toFields
  | specification s => s.toFields
  | tableRow r => r.toFields
  | stop => []

def ofFields (keyword : Keyword) (fields : List Json) : Except Malformed Body :=
  match keyword with
  | .text kind => .ok (.text kind (fieldAt fields 0).textOrEmpty)
  | .test => .test <$> Test.ofFields fields
  | .result => .result <$> Result.ofFields fields
  | .value => .value <$> NamedValue.ofFields "value name" fields
  | .metric => .metric <$> Metric.ofFields fields
  | .ticket => .ticket <$> NamedLink.ofFields "ticket name" fields
  | .argument => .argument <$> NamedValue.ofFields "argument name" fields
  | .tag => .tag <$> readTag fields
  | .property => .property <$> NamedValue.ofFields "attribute name" fields
  | .requirement => .requirement <$> Requirement.ofFields fields
  | .specification => .specification <$> Specification.ofFields fields
  | .tableRow => .tableRow <$> TableRow.ofFields fields
  | .stop => .ok .stop

end Body

end RunLog
