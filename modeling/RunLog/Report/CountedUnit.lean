import RunLog.Record.Node

/-! # What a node counts as

Totals are kept per unit: the kind of a node, refined by its role. -/

namespace RunLog

/-- A kind of node as totals count it, in the order of the report. -/
inductive CountedUnit where
  | module
  | book
  | suite
  | feature
  | chapter
  | test
  | scenario
  | check
  | critical
  | major
  | minor
  | recipe
  | document
  | page
  | docSection
  | sample
  | outline
  | iteration
  | retry
  | paragraph
  | step
deriving DecidableEq, Repr

namespace CountedUnit

/-- Every unit, in the order of the report. -/
def all : List CountedUnit :=
  [module, book, suite, feature, chapter, test, scenario, check, critical, major, minor, recipe,
   document, page, docSection, sample, outline, iteration, retry, paragraph, step]

theorem mem_all (u : CountedUnit) : u ∈ all := by cases u <;> simp [all]

/-- The unit of a node. An example row counts as one whatever its kind. -/
def classify (kind : NodeKind) (role : Option Role) : CountedUnit :=
  if role = some .sample then sample
  else match kind, role with
    | .module, some .book => book
    | .module, _ => module
    | .suite, some .feature => feature
    | .suite, some .chapter => chapter
    | .suite, _ => suite
    | .outline, _ => outline
    | .iteration, _ => iteration
    | .retryIteration, _ => retry
    | .step, some .paragraph => paragraph
    | .step, _ => step
    | .test, some .scenario => scenario
    | .test, some .check => check
    | .test, some .critical => critical
    | .test, some .major => major
    | .test, some .minor => minor
    | .test, some .recipe => recipe
    | .test, some .document => document
    | .test, some .page => page
    | .test, some .docSection => docSection
    | .test, _ => test

/-- The name for one. -/
def singular : CountedUnit → String
  | module => "module"
  | book => "book"
  | suite => "suite"
  | feature => "feature"
  | chapter => "chapter"
  | test => "test"
  | scenario => "scenario"
  | check => "check"
  | critical => "critical"
  | major => "major"
  | minor => "minor"
  | recipe => "recipe"
  | document => "document"
  | page => "page"
  | docSection => "section"
  | sample => "example"
  | outline => "outline"
  | iteration => "iteration"
  | retry => "retry"
  | paragraph => "paragraph"
  | step => "step"

/-- The name for any other number. -/
def plural : CountedUnit → String
  | critical => "critical"
  | major => "major"
  | minor => "minor"
  | retry => "retries"
  | u => u.singular ++ "s"

end CountedUnit

end RunLog
