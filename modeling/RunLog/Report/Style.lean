import RunLog.Numeric.Text
import RunLog.Record.Outcome

/-! # Styled text

Text is styled by terminal escapes when colors are on and left alone when they are off. -/

namespace RunLog

/-- What is shown and how. -/
structure RenderOptions where
  showSkipped : Bool := false
  colors : Bool := false
deriving DecidableEq, Repr

inductive Color where
  | red
  | green
  | yellow
  | blue
  | magenta
  | cyan
  | white
deriving DecidableEq, Repr

namespace Color

/-- The foreground code of a terminal. -/
def code : Color → Nat
  | red => 31
  | green => 32
  | yellow => 33
  | blue => 34
  | magenta => 35
  | cyan => 36
  | white => 37

end Color

structure Style where
  color : Color
  bold : Bool := false
  dimmed : Bool := false
deriving DecidableEq, Repr

namespace Style

/-- The character that starts a terminal escape. -/
def escape : Char := '\x1b'

/-- The escape that turns a style on. -/
def opening (s : Style) : List Char :=
  escape :: '[' :: Numeric.digits s.color.code
    ++ (if s.bold then [';', '1'] else []) ++ (if s.dimmed then [';', '2'] else []) ++ ['m']

/-- The escape that turns all styles off. -/
def closing : List Char := [escape, '[', '0', 'm']

/-- Styles a text, an empty one too. -/
def paint (s : Style) (colors : Bool) (text : List Char) : List Char :=
  if colors then s.opening ++ text ++ closing else text

def strong : Style := ⟨.white, true, false⟩

def secondary : Style := ⟨.white, true, true⟩

def dim : Style := ⟨.white, false, true⟩

def plain : Style := ⟨.white, false, false⟩

def input : Style := ⟨.yellow, true, false⟩

def retried : Style := ⟨.cyan, true, false⟩

def ofOutcome : Outcome → Style
  | .ok => ⟨.green, true, false⟩
  | .skip => ⟨.cyan, true, false⟩
  | .error => ⟨.yellow, true, false⟩
  | .fail => ⟨.red, true, false⟩
  | .null => ⟨.magenta, true, false⟩
  | .xok | .xfail | .xerror | .xnull => ⟨.blue, true, false⟩

end Style

end RunLog
