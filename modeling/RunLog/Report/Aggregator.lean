import RunLog.Record.Basic
import RunLog.Report.Style

/-! # Reports at the end of a run

An aggregator takes in every record and gives its report when asked. -/

namespace RunLog

/-- A report that is gathered record by record. -/
structure Aggregator where
  State : Type
  start : State
  add : State → Record → State
  report : State → List Char

/-- How a report is shown, and the text before it. -/
structure ReportOptions where
  render : RenderOptions := {}
  divider : String := "\n"
deriving DecidableEq, Repr

namespace ReportOptions

def paint (o : ReportOptions) (s : Style) (text : List Char) : List Char :=
  s.paint o.render.colors text

/-- Records of skipped nodes are left out unless asked for. -/
def shows (o : ReportOptions) (r : Record) : Bool := o.render.showSkipped || !r.isSkipped

end ReportOptions

end RunLog
