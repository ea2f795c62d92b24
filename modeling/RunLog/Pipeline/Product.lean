import RunLog.Pipeline.Basic
import RunLog.Pipeline.Stages
import RunLog.Reader.Stream
import RunLog.Report.Failing
import RunLog.Report.Passing
import RunLog.Report.Totals
import RunLog.Report.Version

/-! # What is made of a log

The pipelines from the bytes of a log to a text. Those that report on a finished run write once the
stop record arrives; they look only at the records that they need. -/

namespace RunLog

inductive Product where
  /-- The tree of nodes and results, with all reports at its end. -/
  | short
  /-- The lines as they are. -/
  | raw
  | totals
  | passing
  | failing
  | version
deriving DecidableEq, Repr

structure ProductOptions where
  reader : ReaderConfig := {}
  render : RenderOptions := {}
  /-- The node whose stop record ends the run. Without one, any stop record does. -/
  stopAt : Option NodeId := none
deriving DecidableEq, Repr

namespace Product

/-- The lines that are looked at. -/
def pattern : Product → LinePattern
  | short | raw => .any
  | totals => .keywords [.test, .result, .stop]
  | passing | failing => .keywords [.result, .stop]
  | version => .keywords [.text .version, .stop]

/-- A report that is all that is written. -/
def report (aggregator : ReportOptions → Aggregator) (render : RenderOptions) : List Stage :=
  [.parse, .aggregate (aggregator { render, divider := "" }), .write]

/-- The parts of the short form, in the order in which they are written. -/
def shortParts (render : RenderOptions) : List Stage :=
  [.render render, .aggregate (Passing.aggregator { render }),
    .aggregate (Failing.aggregator { render }), .aggregate (Totals.aggregator { render }),
    .aggregate (Version.aggregator { render })]

def stages (render : RenderOptions) : Product → List Stage
  | short => [.parse, .fanout (shortParts render), .join, .write]
  | raw => [.raw, .write]
  | totals => report Totals.aggregator render
  | passing => report Passing.aggregator render
  | failing => report Failing.aggregator render
  | version => report Version.aggregator render

variable {δ : Type} [Decoder δ]

/-- The lines of a log that match. -/
def lines (pattern : LinePattern) (options : ProductOptions) : Filter (Blocking δ) where
  lines := .start ⟨{ config := options.reader }⟩ options.reader.maxLineBytes
  pattern
  marker := ⟨options.stopAt⟩

def pipeline (product : Product) (options : ProductOptions) (feed : Feed) (sink : Sink := {}) :
    Pipeline (Filter (Blocking δ)) where
  source := lines product.pattern options
  feed
  stages := product.stages options.render
  shared := { sink }

end Product

end RunLog
