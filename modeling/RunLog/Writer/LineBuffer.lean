import RunLog.Lines.Assembler

/-! # Line buffers

Collects output that arrives in pieces and releases it line by line. Bytes are held as they are until
their line is complete, so a character may be cut between pieces. -/

namespace RunLog

structure LineBuffer where
  /-- The bytes of the line under way, latest first. -/
  held : Bytes := []
deriving DecidableEq, Repr

namespace LineBuffer

def isEmpty (b : LineBuffer) : Bool := b.held.isEmpty

/-- The bytes held, as text. -/
def text (b : LineBuffer) : String := Text.ofBytesLossy b.held.reverse

/-- Takes in bytes; gives the lines that they complete, without terminators. -/
def push (b : LineBuffer) : Bytes → List String × LineBuffer
  | [] => ([], b)
  | x :: rest =>
    if x = Assembler.lineFeed then
      let (lines, after) := push {} rest
      (b.text :: lines, after)
    else push ⟨x :: b.held⟩ rest

/-- Takes out the line under way, if it has any bytes. -/
def takePartial (b : LineBuffer) : Option String × LineBuffer :=
  (if b.isEmpty then none else some b.text, {})

end LineBuffer

end RunLog
