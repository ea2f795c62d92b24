import RunLog.Numeric.Dyadic
import RunLog.Numeric.Text

/-! # Durations for people -/

namespace RunLog.Duration

/-- The largest count of milliseconds. -/
def maxMillis : Nat := UInt64.size - 1

/-- Whole milliseconds, zero for durations that are not positive or not finite. -/
def millis (seconds : Float) : Nat :=
  if Numeric.isFinite seconds && 0 < seconds then
    match Numeric.Magnitude.ofFloat (Numeric.roundToInteger (seconds * 1000)) with
    | .finite ⟨_, mantissa, .ofNat e⟩ => min (mantissa <<< e) maxMillis
    | .finite ⟨_, mantissa, .negSucc e⟩ => mantissa >>> (e + 1)
    | _ => maxMillis
  else 0

/-- The two largest units: `250ms`, `3s 20ms`, `4m 2s`, `1h 5m`. -/
def render (seconds : Float) : String :=
  let total := millis seconds
  let secs := total / 1000
  if secs = 0 then toString total ++ "ms"
  else if secs < 60 then toString secs ++ "s " ++ toString (total % 1000) ++ "ms"
  else if secs < 3600 then toString (secs / 60) ++ "m " ++ toString (secs % 60) ++ "s"
  else toString (secs / 3600) ++ "h " ++ toString (secs % 3600 / 60) ++ "m"

end RunLog.Duration
