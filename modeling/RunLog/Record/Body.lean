import RunLog.Record.Keyword
import RunLog.Record.Outcome

/-! # Payloads of records -/

namespace RunLog

/-- A name with a value: a property, an argument or a recorded value. -/
structure NamedValue where
  name : String
  value : String
  kind : Option String
  group : Option String
  uid : Option String
deriving DecidableEq

/-- A name with a link: a ticket or a user. -/
structure NamedLink where
  name : String
  link : Option String
  kind : Option String
  group : Option String
  uid : Option String
deriving DecidableEq

structure Requirement where
  name : String
  version : Option String
  description : Option String
  link : Option String
  priority : Option String
  kind : Option String
  group : Option String
  uid : Option String
deriving DecidableEq

structure Specification where
  name : String
  version : Option String
  description : Option String
  link : Option String
  kind : Option String
  group : Option String
  uid : Option String
deriving DecidableEq

structure Metric where
  name : String
  value : Float
  units : String
  kind : Option String
  group : Option String
  uid : Option String
deriving DecidableEq

/-- One row of a table of examples, with the columns of its table. -/
structure TableRow where
  row : UInt32
  columns : List String
  values : List String
  format : Option String
deriving DecidableEq

/-- A table of examples that a test is run with. -/
structure Table where
  columns : List String
  rows : List (List String)
  format : Option String
deriving DecidableEq

namespace Table

/-- The rows as records of their own, numbered from zero. -/
def tableRows (t : Table) : List TableRow :=
  t.rows.mapIdx fun i values => ⟨.ofNat (min i (UInt32.size - 1)), t.columns, values, t.format⟩

end Table

/-- A test as a node of a graph of tests. -/
structure GraphNode where
  name : String
  module : Option String
  uid : Option String
  nexts : List String
  ins : List String
  outs : List String
deriving DecidableEq

/-- The declaration of a test. -/
structure Test where
  name : String
  uid : Option String
  description : Option String
  attributes : List NamedValue
  requirements : List Requirement
  arguments : List NamedValue
  tags : List String
  users : List NamedLink
  tickets : List NamedLink
  examples : Option Table
  node : Option GraphNode
  map : List GraphNode
deriving DecidableEq

/-- The outcome of the test with the given full name. -/
structure Result where
  outcome : Outcome
  message : Option String
  reason : Option String
  test : String
  metrics : List Metric
  tickets : List NamedLink
  values : List NamedValue
deriving DecidableEq

/-- The payload of a record, by kind. -/
inductive Body where
  | text (kind : TextKind) (content : String)
  | test (test : Test)
  | result (result : Result)
  | value (value : NamedValue)
  | metric (metric : Metric)
  | ticket (ticket : NamedLink)
  | argument (argument : NamedValue)
  | tag (tag : String)
  | property (property : NamedValue)
  | requirement (requirement : Requirement)
  | specification (specification : Specification)
  | tableRow (row : TableRow)
  | stop
deriving DecidableEq

namespace Body

def keyword : Body → Keyword
  | text kind _ => .text kind
  | test _ => .test
  | result _ => .result
  | value _ => .value
  | metric _ => .metric
  | ticket _ => .ticket
  | argument _ => .argument
  | tag _ => .tag
  | property _ => .property
  | requirement _ => .requirement
  | specification _ => .specification
  | tableRow _ => .tableRow
  | stop => .stop

/-- The message of a record that is one. -/
def message? : Body → Option String
  | text kind content => if kind.isMessage then some content else none
  | _ => none

/-- The metrics carried, on their own or with a result. -/
def metrics : Body → List Metric
  | metric m => [m]
  | result r => r.metrics
  | _ => []

end Body

end RunLog
