import RunLog.Command.Basic

/-! # Arguments

A command is a group and a product, then options and the log in any order: `--name`,
`--name value`, `--name=value`, and `-o` for the output, with its value behind it or as the next
argument. After a double dash nothing is an option. No option is given twice. -/

namespace RunLog

/-- Options without a value. -/
inductive Switch where
  | tail
  | showSkipped
  | noColors
deriving DecidableEq, Repr

/-- Options with a value. -/
inductive Setting where
  | output
  | stopAt
deriving DecidableEq, Repr

namespace Switch

def ofName? : String → Option Switch
  | "tail" => some tail
  | "show-skipped" => some showSkipped
  | "no-colors" => some noColors
  | _ => none

def accepts : Product → Switch → Bool
  | .short, _ => true
  | .raw, s => s = tail
  | _, s => s = noColors

end Switch

namespace Setting

def ofName? : String → Option Setting
  | "output" => some output
  | "stop-id" => some stopAt
  | _ => none

def accepts : Product → Setting → Bool
  | _, output => true
  | .short, stopAt | .raw, stopAt => true
  | _, stopAt => false

end Setting

/-- The arguments after the product, as far as they are read. -/
structure Arguments where
  log : Option Place := none
  output : Option Place := none
  stopAt : Option NodeId := none
  switches : List Switch := []
deriving DecidableEq, Repr

namespace Arguments

def setLog (a : Arguments) (value : String) : Option Arguments := do
  let place ← Place.ofString? value
  if a.log.isSome then none else some { a with log := some place }

def setOutput (a : Arguments) (value : String) : Option Arguments := do
  let place ← Place.ofString? value
  if a.output.isSome then none else some { a with output := some place }

def setStop (a : Arguments) (value : String) : Option Arguments := do
  let id ← NodeId.ofString? value
  if a.stopAt.isSome then none else some { a with stopAt := some id }

def set (a : Arguments) : Setting → String → Option Arguments
  | .output => a.setOutput
  | .stopAt => a.setStop

def turnOn (a : Arguments) (s : Switch) : Option Arguments :=
  if s ∈ a.switches then none else some { a with switches := s :: a.switches }

/-- Whether an argument can be the value of an option before it. -/
def isValue (arg : String) : Bool :=
  match arg.toList with
  | ['-'] => true
  | '-' :: _ => false
  | _ => true

/-- An argument by its form. -/
inductive Form where
  /-- A double dash and nothing else. -/
  | onlyValues
  | switch (s : Switch)
  | setting (s : Setting) (value : Option String)
  /-- No option. -/
  | plain
deriving DecidableEq, Repr

namespace Form

def ofLong? (product : Product) (cs : List Char) : Option Form :=
  match Text.cutOnce? '=' cs with
  | some (name, value) =>
    ((Setting.ofName? (String.ofList name)).filter (Setting.accepts product)).map
      (setting · (some (String.ofList value)))
  | none =>
    ((Switch.ofName? (String.ofList cs)).filter (Switch.accepts product)).map switch <|>
      ((Setting.ofName? (String.ofList cs)).filter (Setting.accepts product)).map (setting · none)

/-- The form of an argument, if it is one that the product takes. -/
def of? (product : Product) (arg : String) : Option Form :=
  match arg.toList with
  | ['-'] => some plain
  | ['-', '-'] => some onlyValues
  | '-' :: '-' :: cs => ofLong? product cs
  | ['-', 'o'] => some (setting .output none)
  | '-' :: 'o' :: '=' :: cs | '-' :: 'o' :: cs =>
    some (setting .output (some (String.ofList cs)))
  | '-' :: _ => none
  | _ => some plain

end Form

/-- Reads on. None if the program cannot be used in this way. -/
def read? (product : Product) : Arguments → List String → Option Arguments
  | a, [] => some a
  | a, arg :: rest =>
    match Form.of? product arg with
    | none => none
    | some .onlyValues => rest.foldlM setLog a
    | some (.switch s) => (a.turnOn s).bind (read? product · rest)
    | some (.setting s (some value)) => (a.set s value).bind (read? product · rest)
    | some (.setting s none) =>
      match rest with
      | value :: rest => if isValue value then (a.set s value).bind (read? product · rest) else none
      | [] => none
    | some .plain => (a.setLog arg).bind (read? product · rest)

end Arguments

namespace Product

def ofWords? : String → String → Option Product
  | "transform", "short" => some short
  | "transform", "raw" => some raw
  | "report", "totals" => some totals
  | "report", "passing" => some passing
  | "report", "fails" => some failing
  | "report", "version" => some version
  | _, _ => none

end Product

namespace Command

/-- Words that switch a setting of the environment off. -/
def falseWords : List String := ["", "n", "no", "f", "false", "off", "0"]

/-- Any other word switches it on. -/
def isOn (word : String) : Bool := !falseWords.contains word.toLower

/-- The name of the setting by which skipped nodes are shown without being asked for. -/
def showSkippedSetting : String := "EVLOG_SHOW_SKIPPED"

/-- Reads arguments, given what the environment says about skipped nodes. -/
def ofArguments? (showSkipped : Option String) : List String → Option Command
  | group :: word :: rest => do
    let product ← Product.ofWords? group word
    let a ← Arguments.read? product {} rest
    return {
      product
      log := a.log.getD .standard
      output := a.output.getD .standard
      tail := a.switches.contains .tail
      showSkipped := a.switches.contains .showSkipped ||
        (product = .short && (showSkipped.map isOn).getD false)
      noColors := a.switches.contains .noColors
      stopAt := a.stopAt }
  | _ => none

end Command

end RunLog
