import RunLog.Report.Aggregator
import RunLog.Report.Duration
import RunLog.Report.Roster

/-! # Passing results

Lists the nodes whose latest kept result passed or was skipped. -/

namespace RunLog

namespace Report

/-- A reason after the mark for one, nothing if there is none. -/
def reasonText (o : ReportOptions) (r : Result) : List Char :=
  let reason := r.reason.getD ""
  if reason.isEmpty then []
  else o.paint .dim (' ' :: '\u1405' :: ' ' :: reason.toList)

/-- The mark, outcome and name that an entry begins with. -/
def entryHead (o : ReportOptions) (mark : Char) (r : Result) : List Char :=
  let style := Style.ofOutcome r.outcome
  o.paint style [mark] ++ [' ', '[', ' '] ++ o.paint style r.outcome.name.toList
    ++ [' ', ']', ' '] ++ r.test.toList

end Report

namespace Passing

/-- The result of each node with its time. -/
abbrev State := Roster (Result × Float)

/-- Passing results of iterations and larger nodes are kept. -/
def keeps (o : ReportOptions) (r : Record) (result : Result) : Bool :=
  result.outcome.isPassing && r.head.kind.isReported && o.shows r

def add (o : ReportOptions) (s : State) (r : Record) : State :=
  match r.body with
  | .result result => if keeps o r result then s.put r.head.id (result, r.head.time) else s
  | _ => s

def entryText (o : ReportOptions) (result : Result) (time : Float) : List Char :=
  Report.entryHead o '\u2714' result ++ Report.reasonText o result ++ ' ' ::
    o.paint .dim ('(' :: (Duration.render time).toList ++ [')']) ++ ['\n']

def report (o : ReportOptions) (s : State) : List Char :=
  let texts := s.toList.map fun (result, time) => entryText o result time
  if texts.isEmpty then []
  else o.paint .strong (o.divider ++ "Passing\n\n").toList ++ texts.flatten

def aggregator (o : ReportOptions) : Aggregator := ⟨State, {}, add o, report o⟩

end Passing

end RunLog
