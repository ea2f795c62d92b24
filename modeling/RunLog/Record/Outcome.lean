/-! # Outcomes of a node -/

namespace RunLog

/-- The outcome of a node. The ones with an `x` were expected. -/
inductive Outcome where
  | ok
  | fail
  | error
  | null
  | skip
  | xok
  | xfail
  | xerror
  | xnull
deriving DecidableEq, Repr

namespace Outcome

def name : Outcome → String
  | ok => "OK"
  | fail => "Fail"
  | error => "Error"
  | null => "Null"
  | skip => "Skip"
  | xok => "XOK"
  | xfail => "XFail"
  | xerror => "XError"
  | xnull => "XNull"

def all : List Outcome := [ok, fail, error, null, skip, xok, xfail, xerror, xnull]

def ofName? (raw : String) : Option Outcome := all.find? (·.name = raw)

def isExpected : Outcome → Bool
  | xok | xfail | xerror | xnull => true
  | _ => false

def isFailing : Outcome → Bool
  | fail | error | null => true
  | _ => false

/-- Neither failing nor expected: passed or skipped. -/
def isPassing : Outcome → Bool
  | ok | skip => true
  | _ => false

end Outcome

end RunLog
