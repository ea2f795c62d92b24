import RunLog.Error
import RunLog.Text.Utf8

/-! # Directories

Files by name, without directories below. -/

namespace RunLog

structure Directory where
  files : List (String × Bytes) := []
deriving DecidableEq

namespace Directory

/-- A path with this directory spelled out at its start names the same file. -/
def nameOf (path : String) : List Char :=
  match path.toList with
  | '.' :: '/' :: rest => rest
  | cs => cs

/-- Whether a file of this path can be there. -/
def admits (path : String) : Bool := !(nameOf path).isEmpty && !(nameOf path).contains '/'

def read (d : Directory) (path : String) : Except Fault Bytes :=
  match d.files.find? fun (name, _) => nameOf name = nameOf path with
  | some (_, bytes) => .ok bytes
  | none => .error .missing

/-- Puts a file in place of what was there before. -/
def write (d : Directory) (path : String) (bytes : Bytes) : Except Fault Directory :=
  if admits path then
    .ok ⟨(path, bytes) :: d.files.filter fun (name, _) => nameOf name ≠ nameOf path⟩
  else .error .missing

end Directory

end RunLog
