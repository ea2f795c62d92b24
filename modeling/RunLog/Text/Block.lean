import RunLog.Text.Blank
import RunLog.Text.Cut

/-! # Blocks of text under a header

A text of several lines is set under its header by removing the white space that its lines share
and indenting them all. -/

namespace RunLog.Text

/-- A line without the carriage return of its terminator. -/
def dropReturn (line : List Char) : List Char :=
  match line.getLast? with
  | some '\r' => line.dropLast
  | _ => line

/-- The lines of a text; what follows the last terminator is a line unless it is empty. -/
def lines (cs : List Char) : List (List Char) :=
  let pieces := cut '\n' cs
  let last := pieces.getLast?.getD []
  pieces.dropLast.map dropReturn ++ if last.isEmpty then [] else [last]

/-- Lines joined by line feeds. -/
def unlines (ls : List (List Char)) : List Char := List.intercalate ['\n'] ls

/-- The longest common start. -/
def commonStart : List Char → List Char → List Char
  | a :: as, b :: bs => if a = b then a :: commonStart as bs else []
  | _, _ => []

/-- The white space that all lines begin with, blank lines aside. -/
def commonMargin (ls : List (List Char)) : List Char :=
  match (ls.filter fun l => !allBlank l).map margin with
  | [] => []
  | m :: ms => ms.foldl commonStart m

/-- Removes the common margin. Blank lines become empty. -/
def dedent (cs : List Char) : List Char :=
  let ls := lines cs
  let shared := commonMargin ls
  unlines (ls.map fun l => if allBlank l then [] else (after? shared l).getD l)

/-- Sets a start before every line that is not blank. -/
def indent (start cs : List Char) : List Char :=
  unlines ((cut '\n' cs).map fun l => if allBlank l then l else start ++ l)

/-- A text as a block: the first line stripped, the others dedented, all set two spaces further in
than `start`. -/
def block (start cs : List Char) : List Char :=
  let (first, rest) := (cutOnce? '\n' (trimEnd cs)).getD (trimEnd cs, [])
  let first := trim first
  let head := if first.isEmpty then [] else first ++ ['\n']
  indent (start ++ [' ', ' ']) (trimEnd (head ++ dedent (trimEnd rest)))

end RunLog.Text
