import RunLog.Pipeline.Product
import RunLog.Xz.Progress

/-! # Commands

What the program can be asked for, and what it makes of a log. -/

namespace RunLog

/-- Where a command reads or writes. -/
inductive Place where
  /-- Standard input or output. -/
  | standard
  | file (path : String)
deriving DecidableEq, Repr

namespace Place

/-- A dash stands for standard input or output. A path is not empty. -/
def ofString? (s : String) : Option Place :=
  if s.isEmpty then none else if s = "-" then some standard else some (file s)

def text : Place → String
  | standard => "-"
  | file path => path

end Place

structure Command where
  product : Product
  log : Place := .standard
  output : Place := .standard
  tail : Bool := false
  showSkipped : Bool := false
  noColors : Bool := false
  stopAt : Option NodeId := none
deriving DecidableEq, Repr

/-- What came of a log: the text and how the run ended. -/
structure Made where
  outcome : Except LogError RunSummary
  output : Bytes
  stopped : Bool

namespace Command

/-- Colors are used on a terminal only. -/
def options (c : Command) (terminal : Bool) : ProductOptions where
  reader := { tail := c.tail }
  render :=
    { showSkipped := c.showSkipped
      colors := terminal && c.output = .standard && !c.noColors }
  stopAt := c.stopAt

/-- Makes what was asked for of the bytes of a log. -/
def make (c : Command) (terminal : Bool) (log : Bytes) : Made :=
  let p : Pipeline (Filter (Blocking Xz.Decoder)) :=
    c.product.pipeline (c.options terminal) { events := [.data log] }
  let (outcome, p) := p.run
  ⟨outcome, p.shared.sink.contents, p.feed.stopped⟩

end Command

end RunLog
