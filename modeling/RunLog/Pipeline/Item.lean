import RunLog.Filter
import RunLog.Record.Basic

/-! # Items of a pipeline -/

namespace RunLog

/-- What passes between the stages of a pipeline. -/
inductive Item where
  | line (line : FilteredLine)
  | record (record : Record)
  | text (text : String)
  /-- What several stages made of one item, in their order. -/
  | outputs (items : List Item)

namespace Item

/-- The word for an item in errors. -/
def kind : Item → String
  | line _ => "line"
  | record _ => "record"
  | text _ => "text"
  | outputs _ => "outputs"

end Item

end RunLog
