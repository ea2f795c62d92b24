/-! # Keywords

The bare first field of a line names the kind of its record. -/

namespace RunLog

/-- The kinds of record that carry one text and nothing else. -/
inductive TextKind where
  | none
  | exception
  | note
  | debug
  | trace
  | version
  | protocol
  | input
  | prompt
deriving DecidableEq, Repr

namespace TextKind

def name : TextKind → String
  | none => "NONE"
  | exception => "EXCEPTION"
  | note => "NOTE"
  | debug => "DEBUG"
  | trace => "TRACE"
  | version => "VERSION"
  | protocol => "PROTOCOL"
  | input => "INPUT"
  | prompt => "PROMPT"

/-- The version and the protocol name are identifiers; the other texts are messages. -/
def isMessage : TextKind → Bool
  | version | protocol => false
  | _ => true

end TextKind

/-- The kind of a record. -/
inductive Keyword where
  | text (kind : TextKind)
  | test
  | result
  | value
  | metric
  | ticket
  | argument
  | tag
  | property
  | requirement
  | specification
  | tableRow
  | stop
deriving DecidableEq, Repr

namespace Keyword

def name : Keyword → String
  | text kind => kind.name
  | test => "TEST"
  | result => "RESULT"
  | value => "VALUE"
  | metric => "METRIC"
  | ticket => "TICKET"
  | argument => "ARGUMENT"
  | tag => "TAG"
  | property => "ATTRIBUTE"
  | requirement => "REQUIREMENT"
  | specification => "SPECIFICATION"
  | tableRow => "EXAMPLE"
  | stop => "STOP"

/-- Every keyword, in the order in which they are listed. -/
def all : List Keyword :=
  [text .none, test, result, text .exception, text .note, text .debug, text .trace,
   text .version, text .protocol, text .input, text .prompt, value, metric, ticket, argument,
   tag, property, requirement, specification, tableRow, stop]

theorem mem_all (k : Keyword) : k ∈ all := by
  cases k with
  | text kind => cases kind <;> simp [all]
  | _ => simp [all]

def ofName? (raw : String) : Option Keyword := all.find? (·.name = raw)

end Keyword

end RunLog
