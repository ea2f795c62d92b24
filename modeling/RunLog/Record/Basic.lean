import RunLog.Record.Body
import RunLog.Record.Node

/-! # Records

A record is a head, the same for every kind, and a payload. The keyword is that of the payload, so
the two never disagree. -/

namespace RunLog

/-- The fields common to all records. -/
structure Head where
  /-- The link of the hash chain that the line of this record makes. -/
  hash : String
  /-- Position among the records of the node's writer. -/
  sequence : UInt64
  kind : NodeKind
  role : Option Role
  id : NodeId
  flags : Flags
  /-- Flags that concern the nodes below. -/
  cflags : Flags
  /-- The sub-stream that a text was captured from. -/
  stream : Option String
  /-- Seconds since the node started. -/
  time : Float
deriving DecidableEq

structure Record where
  head : Head
  body : Body
deriving DecidableEq

namespace Record

def keyword (r : Record) : Keyword := r.body.keyword

def isSkipped (r : Record) : Bool := r.head.flags.contains .skip

def isStop (r : Record) : Bool := r.keyword = .stop

end Record

end RunLog
