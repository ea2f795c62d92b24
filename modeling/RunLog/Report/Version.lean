import RunLog.Report.Aggregator

/-! # The version of the framework

Reports the version that the log announced last. -/

namespace RunLog.Version

def add (v : Option String) (r : Record) : Option String :=
  match r.body with
  | .text .version content => some content
  | _ => v

def report (o : ReportOptions) (v : Option String) : List Char :=
  let version := v.getD ""
  if version.isEmpty then []
  else o.paint .dim (o.divider ++ "Framework v" ++ version).toList ++ ['\n']

def aggregator (o : ReportOptions) : Aggregator := ⟨Option String, none, add, report o⟩

end RunLog.Version
