import RunLog.Text.Utf8

/-! # Markers

Where a damaged log can be picked up again: the first bytes of a compressed stream, or the start of
a record that may open a plain log. -/

namespace RunLog

inductive Marker where
  | compressed
  | plain
deriving DecidableEq, Repr

namespace Marker

/-- The first bytes of a compressed stream. -/
def magic : Bytes := [0xFD, 0x37, 0x7A, 0x58, 0x5A]

/-- The starts of plain records: `PROTOCOL,"` and `TEST,"`. -/
def plainStarts : List Bytes :=
  [[0x50, 0x52, 0x4F, 0x54, 0x4F, 0x43, 0x4F, 0x4C, 0x2C, 0x22],
   [0x54, 0x45, 0x53, 0x54, 0x2C, 0x22]]

/-- The length of the longest marker. -/
def maxLength : Nat := 10

/-- The marker that a byte string begins with. -/
def at? (bs : Bytes) : Option Marker :=
  if magic.isPrefixOf bs then some .compressed
  else if plainStarts.any (·.isPrefixOf bs) then some .plain
  else none

/-- The earliest marker: how many bytes come before it, and the bytes from it on. -/
def find? (skipped : Nat) : Bytes → Option (Nat × Marker × Bytes)
  | [] => none
  | b :: rest =>
    match at? (b :: rest) with
    | some m => some (skipped, m, b :: rest)
    | none => find? (skipped + 1) rest

end Marker

end RunLog
