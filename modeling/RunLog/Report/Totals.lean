import RunLog.Report.Aggregator
import RunLog.Report.CountedUnit
import RunLog.Report.Duration

/-! # Totals

Counts the nodes declared and their results, by unit. A failing result under a retry counts as
retried and not as an outcome. -/

namespace RunLog

/-- A column of the totals. -/
inductive Tally where
  | outcome (o : Outcome)
  | retried
deriving DecidableEq, Repr

namespace Tally

/-- Every column, in the order of the report. -/
def all : List Tally :=
  [.outcome .ok, .outcome .fail, .outcome .skip, .outcome .error, .outcome .null, .outcome .xok,
   .outcome .xfail, .outcome .xerror, .outcome .xnull, .retried]

def label : Tally → String
  | outcome o => o.name
  | retried => "Retried"

/-- The column of a result. -/
def ofResult (underRetry : Bool) (o : Outcome) : Tally :=
  if underRetry && o.isFailing then retried else outcome o

def style : Tally → Style
  | outcome .skip => .dim
  | outcome o => .ofOutcome o
  | retried => .retried

theorem mem_all (t : Tally) : t ∈ all := by
  cases t with
  | outcome o => cases o <;> simp [all]
  | retried => simp [all]

/-- The position in the report. -/
def index (t : Tally) : Fin all.length :=
  ⟨all.idxOf t, List.idxOf_lt_length_of_mem (mem_all t)⟩

end Tally

namespace CountedUnit

/-- The position in the report. -/
def index (u : CountedUnit) : Fin all.length :=
  ⟨all.idxOf u, List.idxOf_lt_length_of_mem (mem_all u)⟩

end CountedUnit

/-- The counts of one unit. -/
structure Counts where
  units : Nat
  tallies : Vector Nat Tally.all.length
deriving DecidableEq

namespace Counts

def zero : Counts := ⟨0, .replicate _ 0⟩

def tally (c : Counts) (t : Tally) : Nat := c.tallies.get t.index

def isEmpty (c : Counts) : Bool := c.units = 0 && c.tallies.all (· = 0)

def addUnit (c : Counts) : Counts := { c with units := c.units + 1 }

def addTally (c : Counts) (t : Tally) : Counts :=
  { c with tallies := c.tallies.set t.index (c.tally t + 1) }

end Counts

/-- The counts of every unit and the time of the last record. -/
structure Totals where
  counts : Vector Counts CountedUnit.all.length
  lastTime : Float

namespace Totals

def start : Totals := ⟨.replicate _ .zero, 0⟩

def of (t : Totals) (u : CountedUnit) : Counts := t.counts.get u.index

def modify (t : Totals) (u : CountedUnit) (f : Counts → Counts) : Totals :=
  { t with counts := t.counts.set u.index (f (t.of u)) }

/-- What a record that is shown adds to the counts of its unit. -/
def count (r : Record) (c : Counts) : Counts :=
  match r.body with
  | .test _ => c.addUnit
  | .result result =>
    c.addTally (.ofResult (r.head.cflags.contains .nestedRetry) result.outcome)
  | _ => c

/-- Every record sets the time, also one that is not shown. -/
def add (o : ReportOptions) (t : Totals) (r : Record) : Totals :=
  let timed := { t with lastTime := r.head.time }
  if o.shows r then timed.modify (.classify r.head.kind r.head.role) (count r) else timed

/-- The outcomes of a unit that occurred, with their counts. -/
def tallyTexts (o : ReportOptions) (c : Counts) : List (List Char) :=
  (Tally.all.filter fun t => 0 < c.tally t).map fun t =>
    o.paint t.style (Numeric.digits (c.tally t) ++ ' ' :: t.label.toList)

def unitText (o : ReportOptions) (u : CountedUnit) (c : Counts) : List Char :=
  let name := if c.units = 1 then u.singular else u.plural
  let head := o.paint .strong (Numeric.digits c.units ++ ' ' :: name.toList)
  let texts := tallyTexts o c
  let tail :=
    if texts.isEmpty then []
    else o.paint .strong [' ', '('] ++ List.intercalate (o.paint .strong [',', ' ']) texts
      ++ o.paint .strong [')']
  head ++ tail ++ ['\n']

def report (o : ReportOptions) (t : Totals) : List Char :=
  let texts := (CountedUnit.all.filter fun u => !(t.of u).isEmpty).map fun u =>
    unitText o u (t.of u)
  o.divider.toList ++ texts.flatten ++
    o.paint .dim ('\n' :: ("Total time " ++ Duration.render t.lastTime).toList ++ ['\n'])

def aggregator (o : ReportOptions) : Aggregator := ⟨Totals, start, add o, report o⟩

end Totals

end RunLog
