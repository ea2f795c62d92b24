import RunLog.Command.Arguments
import RunLog.Directory

/-! # Running a command

A command needs a system that holds files. Here this is a directory held as a value, with standard
input and what was printed. -/

namespace RunLog

/-- Why a command fails. -/
inductive CommandError where
  | cannotOpen (place : Place) (fault : Fault)
  | cannotCreate (place : Place) (fault : Fault)
  | log (error : LogError)
deriving DecidableEq

namespace CommandError

def message : CommandError → String
  | cannotOpen place fault => "failed to open " ++ place.text ++ ": " ++ fault.text
  | cannotCreate place fault => "failed to create " ++ place.text ++ ": " ++ fault.text
  | log e => e.message

/-- The code with which the program ends. A table that cannot be laid out is no ordinary failure. -/
def exitCode : CommandError → UInt32
  | log (.columnTooWide _) => 101
  | _ => 1

end CommandError

/-- What a command needs of the system that it runs on. -/
class Host (m : Type → Type) where
  openLog : Place → m (Except Fault Unit)
  /-- Makes an empty file, also of one that was there. -/
  createOutput : Place → m (Except Fault Unit)
  /-- Reads a log that was opened. One that grows is read until it is enough. -/
  readLog : Place → (isEnough : Bytes → Bool) → m (Except Fault Bytes)
  write : Place → Bytes → m (Except Fault Unit)
  isTerminal : m Bool
  complain : String → m Unit

namespace Command

variable {m : Type → Type} [Monad m] [Host m]

/-- Runs a command up to its failure, if it fails. -/
def attempt (c : Command) : ExceptT CommandError m Unit := do
  let orFail := fun {α : Type} (wrap : Fault → CommandError) (act : m (Except Fault α)) =>
    (ExceptT.mk ((·.mapError wrap) <$> act) : ExceptT CommandError m α)
  orFail (.cannotOpen c.log) (Host.openLog c.log)
  orFail (.cannotCreate c.output) (Host.createOutput c.output)
  let terminal ← ExceptT.lift Host.isTerminal
  let isEnough := fun log => !c.tail || (c.make terminal log).stopped
  let log ← orFail (.log ∘ .io) (Host.readLog c.log isEnough)
  let made := c.make terminal log
  orFail (.log ∘ .io) (Host.write c.output made.output)
  match made.outcome with
  | .ok _ => return
  | .error e => throw (.log e)

/-- Runs a command and gives the code with which the program ends. -/
def run (c : Command) : m UInt32 := do
  match ← (c.attempt : ExceptT CommandError m Unit).run with
  | .ok () => return 0
  | .error e =>
    Host.complain ("error: " ++ e.message ++ "\n")
    return e.exitCode

/-- The code for arguments that no command has. -/
def usageCode : UInt32 := 2

end Command

/-- A directory with standard input and what was printed. -/
structure Session where
  directory : Directory := {}
  input : Bytes := []
  printed : Bytes := []
  complaints : String := ""
deriving DecidableEq

namespace Session

def read (s : Session) : Place → Except Fault Bytes
  | .standard => .ok s.input
  | .file path => s.directory.read path

def put (s : Session) (bytes : Bytes) : Place → Except Fault Session
  | .standard => .ok { s with printed := s.printed ++ bytes }
  | .file path => (s.directory.write path bytes).map fun directory => { s with directory }

/-- The session after writing, and whether that went well. -/
def write (place : Place) (bytes : Bytes) : StateM Session (Except Fault Unit) := fun s =>
  match s.put bytes place with
  | .ok s => (.ok (), s)
  | .error fault => (.error fault, s)

instance : Host (StateM Session) where
  openLog place := do return ((← get).read place).map fun _ => ()
  createOutput place := write place []
  readLog place _ := do return (← get).read place
  write
  isTerminal := return false
  complain text := modify fun s => { s with complaints := s.complaints ++ text }

end Session

end RunLog
