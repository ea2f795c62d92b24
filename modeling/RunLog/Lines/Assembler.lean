import RunLog.Error
import RunLog.Text.Utf8

/-! # Bounded lines

Splits a byte stream at line feeds. A line longer than the limit is not kept; only its length is
counted. The assembler takes one byte at a time, so that it does not matter how the stream was
read. -/

namespace RunLog

/-- A line of a stream, with the position of its first byte. -/
inductive BoundedLine where
  | line (offset : Nat) (bytes : Bytes)
  | tooLong (offset observed limit : Nat)
  | readError (offset : Nat) (error : LogError)
deriving DecidableEq

structure Assembler where
  limit : Nat
  /-- The position of the line under way. -/
  offset : Nat := 0
  /-- The length of the line under way. -/
  observed : Nat := 0
  /-- The bytes of the line under way, latest first; none once it is too long. -/
  held : Bytes := []

namespace Assembler

def lineFeed : UInt8 := 0x0A

/-- The position up to which the stream was taken in. -/
def position (a : Assembler) : Nat := a.offset + a.observed

/-- The line under way as it would be given out. -/
def current (a : Assembler) : BoundedLine :=
  if a.observed ≤ a.limit then .line a.offset a.held.reverse
  else .tooLong a.offset a.observed a.limit

/-- Takes in a byte; a line feed completes the line. -/
def push (a : Assembler) (b : UInt8) : Assembler × Option BoundedLine :=
  if b = lineFeed then
    ({ a with offset := a.position + 1, observed := 0, held := [] }, some a.current)
  else
    ({ a with
        observed := a.observed + 1
        held := if a.observed < a.limit then b :: a.held else [] }, none)

/-- Takes in a chunk; the lines completed are added to `done`, latest first. -/
def feed (a : Assembler) (done : List BoundedLine) : Bytes → Assembler × List BoundedLine
  | [] => (a, done)
  | b :: rest =>
    match a.push b with
    | (a, some line) => feed a (line :: done) rest
    | (a, none) => feed a done rest

/-- The line under way at the end of the stream, if it has any bytes. -/
def finish? (a : Assembler) : Option BoundedLine :=
  if 0 < a.observed then some a.current else none

end Assembler

end RunLog
