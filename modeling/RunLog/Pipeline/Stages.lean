import RunLog.Line.Parser
import RunLog.Pipeline.Stage
import RunLog.Report.Aggregator
import RunLog.Report.Tree

/-! # The stages of a log pipeline

Lines are read as records, records are shown one by one or gathered for a report, and texts are
written. -/

namespace RunLog.Stage

/-- Reads lines as records. Lines that are no records go no further and are counted. -/
def parse : Stage where
  name := "parse"
  State := Nat
  start := 0
  step dropped sh
    | .line line =>
      match Record.parse line.line with
      | .ok r => ⟨.ok (some (.record r)), dropped, sh⟩
      | .error _ => ⟨.ok none, dropped + 1, sh⟩
    | item => ⟨.error (unexpected "parse" item), dropped, sh⟩
  dropped := id

/-- Passes lines on as text. -/
def raw : Stage :=
  ofFunction "raw" fun
    | .line line => .ok (some (.text (line.line ++ "\n")))
    | item => .error (unexpected "raw" item)

/-- Shows records in the tree of their nodes. -/
def render (options : RenderOptions) : Stage where
  name := "render"
  State := Tree
  start := {}
  step tree sh
    | .record r =>
      match tree.render options r with
      | .ok (text, tree) => ⟨.ok (text.map (.text ∘ String.ofList)), tree, sh⟩
      | .error e => ⟨.error e, {}, sh⟩
    | item => ⟨.error (unexpected "render" item), tree, sh⟩

/-- The text of a report, unless it is empty. -/
def reportText? (report : List Char) : Option Item :=
  if report.isEmpty then none else some (.text (String.ofList report))

/-- Gathers every record. The report is given with the first record after the run was asked to
stop, and only then. -/
def aggregate (a : Aggregator) : Stage where
  name := "aggregate"
  State := a.State × Bool
  start := (a.start, false)
  step
    | (state, reported), sh, .record r =>
      let state := a.add state r
      if reported || !sh.stopped then ⟨.ok none, (state, reported), sh⟩
      else ⟨.ok (reportText? (a.report state)), (state, true), sh⟩
    | σ, sh, item => ⟨.error (unexpected "aggregate" item), σ, sh⟩

/-- The writes for an item that can be written. A line gets a terminator. -/
def writes? : Item → Option (List Bytes)
  | .text text => some [Text.toBytes text]
  | .line line => some [Text.toBytes line.line, [0x0A]]
  | .record _ | .outputs _ => none

/-- Writes texts and lines to the sink and passes them on. Nothing is written for no bytes. -/
def write : Stage where
  name := "write"
  State := Unit
  start := ()
  step _ sh item :=
    match writes? item with
    | none => ⟨.error (unexpected "write" item), (), sh⟩
    | some writes =>
      match sh.sink.writeAll (writes.filter (!·.isEmpty)) with
      | (.ok (), sink) => ⟨.ok (some item), (), { sh with sink }⟩
      | (.error fault, sink) => ⟨.error (.io fault), (), { sh with sink }⟩

/-- Notes every item and passes it on. -/
def note : Stage where
  name := "note"
  State := Unit
  start := ()
  step _ sh item := ⟨.ok (some item), (), { sh with noted := item :: sh.noted }⟩

end RunLog.Stage
