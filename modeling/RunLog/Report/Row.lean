import RunLog.Error

/-! # Rows of example tables

A row format is text with columns: `%s`, `%8s` for eight characters aligned to the right, `%-8s`
aligned to the left, and `%%` for a percent sign. Other text is copied. -/

namespace RunLog.Row

/-- The widest column. -/
def maxWidth : Nat := 65535

/-- A width beyond a machine word counts as none. -/
def readWidth (ds : List Char) : Nat :=
  let n := ds.foldl (fun n c => n * 10 + (c.toNat - '0'.toNat)) 0
  if n < UInt64.size then n else 0

/-- A piece of a row format. -/
inductive Piece where
  | literal (c : Char)
  | column (left : Bool) (width : Nat)
deriving DecidableEq, Repr

/-- Splits a format after a percent sign: the dash, the digits and the rest. -/
def splitSpec (cs : List Char) : Bool × List Char × List Char :=
  match cs with
  | '-' :: rest => (true, rest.takeWhile Char.isDigit, rest.dropWhile Char.isDigit)
  | _ => (false, cs.takeWhile Char.isDigit, cs.dropWhile Char.isDigit)

/-- Reads a row format. A percent sign that begins no column stands for itself. -/
def pieces : (fuel : Nat) → List Char → List Piece
  | 0, _ | _, [] => []
  | fuel + 1, '%' :: '%' :: rest => .literal '%' :: pieces fuel rest
  | fuel + 1, '%' :: rest =>
    match splitSpec rest with
    | (left, ds, 's' :: after) => .column left (readWidth ds) :: pieces fuel after
    | (left, ds, after) =>
      .literal '%' :: (if left then ['-'] else []).map .literal ++ ds.map .literal
        ++ pieces fuel after
  | fuel + 1, c :: rest => .literal c :: pieces fuel rest

/-- Fills a text with spaces up to a width in characters. -/
def pad (left : Bool) (width : Nat) (text : List Char) : List Char :=
  let fill := List.replicate (width - text.length) ' '
  if left then text ++ fill else fill ++ text

/-- Sets the values into the columns, in order. Values that are missing are empty, surplus ones
are not shown. -/
def fill : List Piece → List (List Char) → Except LogError (List Char)
  | [], _ => .ok []
  | .literal c :: rest, values => (c :: ·) <$> fill rest values
  | .column left width :: rest, values =>
    if width ≤ maxWidth then
      (pad left width (values.headD []) ++ ·) <$> fill rest values.tail
    else .error (.columnTooWide width)

def format (rowFormat : List Char) (values : List String) : Except LogError (List Char) :=
  fill (pieces rowFormat.length rowFormat) (values.map String.toList)

/-- Bytes in all cells together. -/
def totalSize (cells : List String) : Nat := cells.foldl (fun n cell => n + cell.utf8ByteSize) 0

/-- The cells that decide the widths: the longer of header and row. -/
def sample (columns row : List String) : List String :=
  if !row.isEmpty && totalSize columns < totalSize row then row else columns

/-- One column per sample cell, aligned to the left, at least three wide, with bars between. -/
def defaultFormat (columns row : List String) : List Char :=
  List.intercalate [' ', '|', ' ']
    ((sample columns row).map fun cell =>
      '%' :: '-' :: Numeric.digits (max cell.utf8ByteSize 3) ++ ['s'])

end RunLog.Row
