import RunLog.Command.Host

/-! # The program

Runs commands on the files of the system. -/

namespace RunLog.Program

def ofError : IO.Error → Fault
  | .noFileOrDirectory _ _ _ => .missing
  | e => .plain .other (toString e)

def attempt {α : Type} (act : IO α) : IO (Except Fault α) :=
  try return .ok (← act) catch e => return .error (ofError e)

/-- Milliseconds between two looks at a log that grows. -/
def pause : UInt32 := 150

partial def readAll (stream : IO.FS.Stream) (found : ByteArray) : IO ByteArray := do
  let bytes ← stream.read 65536
  if bytes.isEmpty then return found else readAll stream (found.append bytes)

partial def readUntil (path : String) (isEnough : Bytes → Bool) : IO Bytes := do
  let bytes := (← IO.FS.readBinFile path).toList
  if isEnough bytes then return bytes
  IO.sleep pause
  readUntil path isEnough

instance : Host IO where
  openLog
    | .standard => return .ok ()
    | .file path => attempt (do let _ ← IO.FS.Handle.mk path .read)
  createOutput
    | .standard => return .ok ()
    | .file path => attempt (IO.FS.writeBinFile path .empty)
  readLog place isEnough := attempt (match place with
    | .standard => do return (← readAll (← IO.getStdin) .empty).toList
    | .file path => readUntil path isEnough)
  write place bytes := attempt (match place with
    | .standard => do (← IO.getStdout).write ⟨bytes.toArray⟩
    | .file path => IO.FS.writeBinFile path ⟨bytes.toArray⟩)
  isTerminal := do (← IO.getStdout).isTty
  complain text := IO.eprint text

def usage : String :=
  "usage: evlog transform (short|raw) [LOG] [-o FILE] [--tail] [--stop-id ID]\n"
    ++ "       evlog report (totals|passing|fails|version) [LOG] [-o FILE] [--no-colors]\n"

def run (args : List String) : IO UInt32 := do
  let showSkipped ← IO.getEnv Command.showSkippedSetting
  match Command.ofArguments? showSkipped args with
  | some command => command.run
  | none =>
    IO.eprint usage
    return Command.usageCode

end RunLog.Program

def main (args : List String) : IO UInt32 := RunLog.Program.run args
