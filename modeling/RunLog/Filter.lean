import RunLog.Lines.Basic
import RunLog.Pattern.Basic
import RunLog.Text.Blank

/-! # Filtered lines

A filter passes on the lines that match a pattern, up to the stop marker. It works on bytes; a line
that is passed on is UTF-8. Once the marker has passed, the run is asked to stop, and nothing more is
read. -/

namespace RunLog

structure FilteredLine where
  line : String
  /-- The position of the first byte of the line. -/
  offset : Nat
deriving DecidableEq, Repr

structure FilterStats where
  emitted : Nat := 0
  tooLong : Nat := 0
  invalidUtf8 : Nat := 0
deriving DecidableEq, Repr

/-- What becomes of a line. -/
inductive Sifted where
  | passed (line : FilteredLine) (isStop : Bool)
  /-- Blank, or not matched. -/
  | ignored
  | tooLong
  | invalidUtf8
  | failed (error : LogError)

/-- Without the carriage return of a terminator of two bytes. -/
def stripReturn (line : Bytes) : Bytes := if line.getLast? = some 0x0D then line.dropLast else line

namespace Sifted

def ofLine (pattern : LinePattern) (marker : StopMarker) : BoundedLine → Sifted
  | .readError _ error => failed error
  | .tooLong _ _ _ => tooLong
  | .line offset bytes =>
    let bytes := stripReturn bytes
    if bytes.all Text.isAsciiBlank || !pattern.isMatch bytes then ignored
    else
      match Text.ofBytes? bytes with
      | some line => passed ⟨line, offset⟩ (marker.isStop bytes)
      | none => invalidUtf8

end Sifted

namespace FilterStats

def add (s : FilterStats) : Sifted → FilterStats
  | .passed _ _ => { s with emitted := s.emitted + 1 }
  | .tooLong => { s with tooLong := s.tooLong + 1 }
  | .invalidUtf8 => { s with invalidUtf8 := s.invalidUtf8 + 1 }
  | .ignored | .failed _ => s

end FilterStats

structure Filter (ρ : Type) where
  lines : Lines ρ
  pattern : LinePattern
  marker : StopMarker
  stats : FilterStats := {}

namespace Filter

variable {ρ : Type} [Chunked ρ]

/-- The next line that passes, or none at the end and once the run is asked to stop. -/
def next (φ : Filter ρ) (f : Feed) :
    Next (Option (Except LogError FilteredLine)) (Filter ρ) :=
  if f.stopped then ⟨none, φ, f⟩
  else
    match _next : φ.lines.next f with
    | ⟨none, lines, f⟩ => ⟨none, { φ with lines }, f⟩
    | ⟨some line, lines, f⟩ =>
      let sifted := Sifted.ofLine φ.pattern φ.marker line
      let φ' : Filter ρ := { φ with lines, stats := φ.stats.add sifted }
      match sifted with
      | .passed line isStop => ⟨some (.ok line), φ', f.stopIf isStop⟩
      | .failed error => ⟨some (.error error), φ', f⟩
      | _ => next φ' f
termination_by Ranked.rank φ.lines f
decreasing_by exact Lines.below_of_next _next

instance : Ranked (Filter ρ) where
  Rank := Ranked.Rank (Lines ρ)
  order := inferInstance
  rank φ f := Ranked.rank φ.lines f

end Filter

end RunLog
