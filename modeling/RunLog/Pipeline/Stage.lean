import RunLog.Pipeline.Item
import RunLog.Sink

/-! # Stages

A stage answers each item with another or with nothing, and may change its own state and what the
stages share. Stages are put together in two ways: in a row, where each takes what the one before
it answered, and side by side, where all take the same item. -/

namespace RunLog

/-- What the stages of a pipeline share. -/
structure Shared where
  /-- The flag that asks the run to stop. -/
  stopped : Bool := false
  /-- Where output is written. -/
  sink : Sink := {}
  /-- The items noted on their way, latest first. -/
  noted : List Item := []

/-- The answer to an item, with the state of the stage and what is shared after it. -/
structure Stepped (α σ : Type) where
  answer : Except LogError α
  state : σ
  shared : Shared

structure Stage where
  name : String
  State : Type
  start : State
  /-- Takes an item. No answer means that this item goes no further. -/
  step : State → Shared → Item → Stepped (Option Item) State
  /-- The items discarded as malformed so far. -/
  dropped : State → Nat := fun _ => 0

/-- The states of several stages. -/
def States : List Stage → Type
  | [] => Unit
  | s :: rest => s.State × States rest

namespace States

def start : (stages : List Stage) → States stages
  | [] => ()
  | s :: rest => (s.start, start rest)

/-- The items that the stages discarded, together. -/
def dropped : (stages : List Stage) → States stages → Nat
  | [], _ => 0
  | s :: rest, (σ, τ) => s.dropped σ + dropped rest τ

/-- Stages in a row: each takes what the one before it answered, up to one that answers nothing or
fails. -/
def stepRow : (stages : List Stage) → States stages → Shared → Item →
    Stepped (Option Item) (States stages)
  | [], σ, sh, item => ⟨.ok (some item), σ, sh⟩
  | s :: rest, (σ, τ), sh, item =>
    match s.step σ sh item with
    | ⟨.ok (some item), σ, sh⟩ =>
      let ⟨answer, τ, sh⟩ := stepRow rest τ sh item
      ⟨answer, (σ, τ), sh⟩
    | ⟨.ok none, σ, sh⟩ => ⟨.ok none, (σ, τ), sh⟩
    | ⟨.error e, σ, sh⟩ => ⟨.error e, (σ, τ), sh⟩

/-- Stages side by side: each takes the same item, up to one that fails. What they answer is kept in
their order. -/
def stepAll : (stages : List Stage) → States stages → Shared → Item →
    Stepped (List Item) (States stages)
  | [], σ, sh, _ => ⟨.ok [], σ, sh⟩
  | s :: rest, (σ, τ), sh, item =>
    match s.step σ sh item with
    | ⟨.ok answer, σ, sh⟩ =>
      let ⟨answers, τ, sh⟩ := stepAll rest τ sh item
      ⟨answers.map (answer.toList ++ ·), (σ, τ), sh⟩
    | ⟨.error e, σ, sh⟩ => ⟨.error e, (σ, τ), sh⟩

end States

namespace Stage

def unexpected (name : String) (item : Item) : LogError :=
  .stage name ("unexpected " ++ item.kind ++ " item")

/-- A stage without state that leaves what is shared alone. -/
def ofFunction (name : String) (f : Item → Except LogError (Option Item)) : Stage where
  name
  State := Unit
  start := ()
  step _ sh item := ⟨f item, (), sh⟩

/-- Passes each item to several stages. -/
def fanout (stages : List Stage) : Stage where
  name := "fanout"
  State := States stages
  start := .start stages
  step σ sh item :=
    let ⟨answers, σ, sh⟩ := States.stepAll stages σ sh item
    ⟨answers.map fun items => if items.isEmpty then none else some (.outputs items), σ, sh⟩
  dropped := States.dropped stages

/-- Combines what several stages answered. An item that is no such answer counts as the only one. -/
def fanin (combine : List Item → Except LogError Item) : Stage :=
  ofFunction "fanin" fun item =>
    some <$> combine (match item with
      | .outputs items => items
      | item => [item])

/-- Puts texts together. -/
def joinTexts : List Item → Except LogError String
  | [] => .ok ""
  | .text text :: rest => (text ++ ·) <$> joinTexts rest
  | item :: _ => .error (unexpected "fanin" item)

def join : Stage := fanin fun items => .text <$> joinTexts items

end Stage

end RunLog
