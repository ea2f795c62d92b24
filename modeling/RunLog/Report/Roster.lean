import RunLog.Record.Node
import Std.Data.HashMap

/-! # Rosters

A roster keeps one entry per node, in the order in which the nodes were first entered, with the
entry that was made last. -/

namespace RunLog

structure Roster (α : Type) where
  /-- The nodes entered, latest first. -/
  order : List NodeId := []
  entries : Std.HashMap NodeId α := {}

namespace Roster

variable {α : Type}

/-- Enters a node or replaces its entry. -/
def put (r : Roster α) (id : NodeId) (a : α) : Roster α where
  order := if r.entries.contains id then r.order else id :: r.order
  entries := r.entries.insert id a

/-- The entries in the order of first entry. -/
def toList (r : Roster α) : List α := r.order.reverse.filterMap r.entries.get?

end Roster

end RunLog
