import RunLog.Report.Passing
import RunLog.Text.Block

/-! # Failing results

Lists the nodes whose latest kept result failed: first the failures that were expected, then the
others. -/

namespace RunLog.Failing

abbrev State := Roster Result

/-- Results that did not pass are kept, below iterations only expected ones. Failed attempts under
a retry are summed up by the retry itself. -/
def keeps (o : ReportOptions) (r : Record) (result : Result) : Bool :=
  !result.outcome.isPassing && (r.head.kind.isReported || result.outcome.isExpected) && o.shows r
    && !(result.outcome.isFailing && r.head.cflags.contains .nestedRetry)

def add (o : ReportOptions) (s : State) (r : Record) : State :=
  match r.body with
  | .result result => if keeps o r result then s.put r.head.id result else s
  | _ => s

/-- The first line of a message that is not blank. -/
def firstLine? (message : List Char) : Option (List Char) :=
  ((Text.lines message).map Text.trim).find? fun l => !l.isEmpty

def messageText (o : ReportOptions) (r : Result) : List Char :=
  match firstLine? (r.message.getD "").toList with
  | some l => ',' :: ' ' :: o.paint .dim l
  | none => []

def entryText (o : ReportOptions) (r : Result) : List Char :=
  Report.entryHead o '\u2718' r ++
    (if r.outcome.isExpected then Report.reasonText o r else messageText o r) ++ ['\n']

/-- A heading and its entries, nothing if there are none. -/
def listText (o : ReportOptions) (heading : String) (results : List Result) : List Char :=
  if results.isEmpty then []
  else o.paint .strong heading.toList ++ (results.map (entryText o)).flatten

def report (o : ReportOptions) (s : State) : List Char :=
  let (known, failing) := s.toList.partition fun r => r.outcome.isExpected
  listText o "\nKnown\n\n" known ++ listText o (o.divider ++ "Failing\n\n") failing

def aggregator (o : ReportOptions) : Aggregator := ⟨State, {}, add o, report o⟩

end RunLog.Failing
