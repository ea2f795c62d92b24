import RunLog.Record.Basic
import RunLog.Report.Row
import RunLog.Report.Style
import RunLog.Text.Block
import Std.Data.HashMap

/-! # The tree of a run

Shows each record as it comes: a header line per test, a line per result, and sections of metadata
under their test. The text of a record depends on the tests shown before it and on the kind of the
last record shown, which `Tree` keeps. -/

namespace RunLog

/-- What earlier records leave for the text of later ones. -/
structure Tree where
  /-- The latest role that each node was declared with. -/
  roles : Std.HashMap NodeId (Option Role) := {}
  /-- The tests declared under each node, latest first. -/
  children : Std.HashMap NodeId (List NodeId) := {}
  /-- The kind of the last record shown. -/
  last : Option Keyword := none

namespace Tree

/-- Two spaces per level. -/
def indentation (levels : Nat) : List Char := List.replicate (2 * levels) ' '

/-- The indentation of a node's header. -/
def level (id : NodeId) : List Char := indentation (id.depth - 1)

/-- The last segment of a name with slashes. -/
def baseName (name : String) : List Char :=
  (name.toList.reverse.takeWhile (· ≠ '/')).reverse

/-- The node that a test is declared under; the root is its own. -/
def parent (id : NodeId) : NodeId := id.parent?.getD .root

/-- Takes note of a test that is shown. -/
def declare (t : Tree) (id : NodeId) (role : Option Role) : Tree :=
  { t with
    roles := t.roles.insert id role
    children := t.children.insert (parent id) (id :: t.children.getD (parent id) []) }

def roleOf (t : Tree) (id : NodeId) : Option Role := t.roles.getD id none

/-- Whether a step that was just declared continues the one before it: its sibling before it has
the same role and no children, or it is the first under a step of the same role. -/
def continues (t : Tree) (parent : NodeId) (role : Role) : Bool :=
  match t.children.getD parent [] with
  | _ :: previous :: _ =>
    t.roleOf previous = some role && !t.children.contains previous
  | [_] => t.roleOf parent = some role
  | [] => false

/-- The roles whose repetition reads as `And`. -/
def repeatable : Role → Bool
  | .givenStep | .whenStep | .thenStep | .byStep | .butStep | .finallyStep | .background => true
  | _ => false

/-- The word that a test's header begins with. -/
def headerWord (t : Tree) (h : Head) : String :=
  if h.role = some .sample then "Example"
  else match h.kind, h.role with
    | .module, _ => "Module"
    | .suite, some .feature => "Feature"
    | .suite, _ => "Suite"
    | .iteration, _ => "Iteration"
    | .outline, _ => "Outline"
    | .step, some .andStep => "And"
    | .step, some role =>
      if repeatable role then
        if t.continues (parent h.id) role then "And" else role.name
      else "Step"
    | .step, none => "Step"
    | _, some .scenario => "Scenario"
    | _, _ => "Test"

section Text

variable (options : RenderOptions)

def paint (s : Style) (text : List Char) : List Char := s.paint options.colors text

/-- The header of a test that was just declared, and its description. -/
def testText (t : Tree) (h : Head) (test : Test) : List Char :=
  let level := level h.id
  let header := level ++ paint options .strong (t.headerWord h).toList ++ ' ' ::
    paint options .plain (baseName test.name) ++ ['\n']
  let description := test.description.getD ""
  if description.isEmpty then header
  else header ++ paint options .dim (Text.block level description.toList) ++ ['\n']

/-- What a result line says after the name, if anything. -/
def resultDetail (level : List Char) (r : Result) : List Char :=
  if r.outcome.isFailing then
    Text.trimStart (Text.block level (r.message.getD "").toList)
  else (r.reason.getD "").toList

/-- A passing result is its outcome alone; others name the test and give the detail. -/
def resultText (h : Head) (r : Result) : List Char :=
  let level := level h.id
  let style := Style.ofOutcome r.outcome
  let lead := level ++ paint options style r.outcome.name.toList
  if r.outcome.isPassing then lead ++ ['\n']
  else
    let named := lead ++ ' ' :: paint options .plain (baseName r.test)
    let detail := resultDetail level r
    if detail.isEmpty then named ++ ['\n']
    else named ++ paint options .plain [','] ++ ' ' :: paint options style detail ++ ['\n']

/-- The heading of a section, printed when the last record shown was of another kind. The first
record shown has none. -/
def heading (t : Tree) (h : Head) (keyword : Keyword) (title : String) : List (List Char) :=
  if t.last = none ∨ t.last = some keyword then []
  else [level h.id ++ [' ', ' '] ++ paint options .secondary title.toList]

/-- An entry of a section, set `extra` spaces further in. -/
def entry (h : Head) (extra : Nat) (text : List Char) : List Char :=
  paint options .dim (Text.indent (level h.id ++ List.replicate extra ' ') text)

/-- The lines of a section, each with its terminator. -/
def sectionText (ls : List (List Char)) : List Char := Text.unlines ls ++ ['\n']

def namedText (t : Tree) (h : Head) (keyword : Keyword) (title : String) (v : NamedValue) :
    List Char :=
  sectionText (heading options t h keyword title ++
    [entry options h 4 v.name.toList, entry options h 6 v.value.toList])

def requirementText (t : Tree) (h : Head) (r : Requirement) : List Char :=
  let version := match r.version with
    | some v => [entry options h 6 ("version " ++ v).toList]
    | none => []
  sectionText (heading options t h .requirement "Requirements" ++
    entry options h 4 r.name.toList :: version)

def tagText (t : Tree) (h : Head) (tag : String) : List Char :=
  sectionText (heading options t h .tag "Tags" ++ [entry options h 4 tag.toList])

/-- A row of examples. The first of a section comes after the column names and a rule. -/
def rowText (t : Tree) (h : Head) (r : TableRow) : Except LogError (List Char) := do
  let rowFormat := match r.format with
    | some format => format.toList
    | none => Row.defaultFormat r.columns r.values
  let heading := heading options t h .tableRow "Examples"
  let header ← if heading.isEmpty then pure [] else do
    let names ← Row.format rowFormat r.columns
    let rule ← Row.format rowFormat
      (r.columns.map fun c => String.ofList (List.replicate c.utf8ByteSize '-'))
    pure [entry options h 4 (names ++ '\n' :: rule)]
  let row ← Row.format rowFormat r.values
  return sectionText (heading ++ header ++ [entry options h 4 row])

def inputText (h : Head) (message : String) : List Char :=
  indentation h.id.depth ++ paint options .input ('\u270b' :: ' ' :: message.toList) ++ ['\n']

/-- The text of a record that is shown. -/
def text (t : Tree) (r : Record) : Except LogError (List Char) :=
  match r.body with
  | .text _ message => .ok (inputText options r.head message)
  | .test test => .ok (testText options t r.head test)
  | .result result => .ok (resultText options r.head result)
  | .property v => .ok (namedText options t r.head .property "Attributes" v)
  | .argument v => .ok (namedText options t r.head .argument "Arguments" v)
  | .requirement req => .ok (requirementText options t r.head req)
  | .tag tag => .ok (tagText options t r.head tag)
  | .tableRow row => rowText options t r.head row
  | _ => .ok []

end Text

/-- The kinds of record that the tree shows. -/
def isShownKind : Keyword → Bool
  | .text .input | .test | .result | .property | .argument | .requirement | .tag | .tableRow => true
  | _ => false

/-- Records of other kinds and, unless asked for, records of skipped nodes are left out. -/
def isVisible (options : RenderOptions) (r : Record) : Bool :=
  isShownKind r.keyword && (options.showSkipped || !r.isSkipped)

/-- What a record that is shown leaves behind before its text is made. -/
def note (t : Tree) (r : Record) : Tree :=
  match r.body with
  | .test _ => t.declare r.head.id r.head.role
  | _ => t

/-- Shows a record: its text, if it is shown, and the tree after it. -/
def render (options : RenderOptions) (t : Tree) (r : Record) :
    Except LogError (Option (List Char) × Tree) :=
  if isVisible options r then do
    let noted := t.note r
    let text ← noted.text options r
    return (some text, { noted with last := some r.keyword })
  else .ok (none, t)

end Tree

end RunLog
