import RunLog.Error
import RunLog.Text.Utf8

/-! # Feeds

A feed is a byte source that may still be growing: what each read of it meets, in order. It carries
the flag by which a run is asked to stop, which everything that reads from it shares. -/

namespace RunLog

/-- What a read of a source meets next. -/
inductive Event where
  | data (bytes : Bytes)
  /-- A read finds nothing. -/
  | idle
  /-- A read is interrupted and may be tried again. -/
  | interrupt
  | fault (fault : Fault)
  /-- Someone asks the run to stop before the read goes on. -/
  | stop
deriving DecidableEq

/-- The answer to one read. No data means that nothing is there, for now or for good. -/
inductive Answer where
  | data (bytes : Bytes)
  | none
  | interrupted
  | fault (fault : Fault)
deriving DecidableEq

structure Feed where
  events : List Event
  /-- Whether a read beyond the last event asks the run to stop. -/
  stopAtEnd : Bool := false
  /-- The flag that asks the run to stop. -/
  stopped : Bool := false
deriving DecidableEq

namespace Event

/-- An event counts for one, its data for their length. -/
def weight : Event → Nat
  | data bytes => bytes.length + 1
  | _ => 1

def weights : List Event → Nat
  | [] => 0
  | e :: rest => e.weight + weights rest

@[simp] theorem weights_nil : weights [] = 0 := rfl

@[simp] theorem weights_cons (e : Event) (rest : List Event) :
    weights (e :: rest) = e.weight + weights rest := rfl

end Event

namespace Feed

/-- The reads that can still find something, at most. -/
def weight (f : Feed) : Nat := Event.weights f.events

def stop (f : Feed) : Feed := { f with stopped := true }

def stopIf (f : Feed) (condition : Bool) : Feed := if condition then f.stop else f

def append (f : Feed) (events : List Event) : Feed := { f with events := f.events ++ events }

/-- One read of at most `room` bytes. Empty data is passed over. -/
def readFrom (room : Nat) (stopAtEnd : Bool) : List Event → Bool → Answer × Feed
  | [], stopped => (.none, ⟨[], stopAtEnd, stopped || stopAtEnd⟩)
  | .data bytes :: rest, stopped =>
    match bytes.take room, bytes.drop room with
    | [], [] => readFrom room stopAtEnd rest stopped
    | now, [] => (.data now, ⟨rest, stopAtEnd, stopped⟩)
    | now, later => (.data now, ⟨.data later :: rest, stopAtEnd, stopped⟩)
  | .idle :: rest, stopped => (.none, ⟨rest, stopAtEnd, stopped⟩)
  | .interrupt :: rest, stopped => (.interrupted, ⟨rest, stopAtEnd, stopped⟩)
  | .fault fault :: rest, stopped => (.fault fault, ⟨rest, stopAtEnd, stopped⟩)
  | .stop :: rest, _ => readFrom room stopAtEnd rest true

def read (f : Feed) (room : Nat) : Answer × Feed :=
  readFrom room f.stopAtEnd f.events f.stopped

theorem weight_readFrom_le (room : Nat) (stopAtEnd : Bool) (events : List Event)
    (stopped : Bool) :
    (readFrom room stopAtEnd events stopped).2.weight ≤ Event.weights events := by
  induction events generalizing stopped with
  | nil => simp [readFrom, weight]
  | cons e rest ih =>
    cases e with
    | data bytes =>
      simp only [readFrom, Event.weights_cons, Event.weight]
      split
      · exact Nat.le_trans (ih stopped) (by omega)
      · simp [weight]
      · have : (bytes.drop room).length ≤ bytes.length := by simp
        simp [weight, Event.weight]
    | idle => simp [readFrom, weight]
    | interrupt => simp [readFrom, weight]
    | fault fault => simp [readFrom, weight]
    | stop => exact Nat.le_trans (ih true) (by simp)

/-- A read that finds data or is interrupted uses up a part of the feed. -/
theorem weight_readFrom_lt {room : Nat} (hroom : 0 < room) (stopAtEnd : Bool)
    (events : List Event) (stopped : Bool)
    (h : (readFrom room stopAtEnd events stopped).1 ≠ .none) :
    (readFrom room stopAtEnd events stopped).2.weight < Event.weights events := by
  induction events generalizing stopped with
  | nil => simp [readFrom] at h
  | cons e rest ih =>
    cases e with
    | data bytes =>
      simp only [readFrom, Event.weights_cons, Event.weight] at h ⊢
      split at h
      · have := ih stopped h
        simp_all
        omega
      · rename_i now later hnow hlater
        simp_all [weight]
      · rename_i x y hx
        cases bytes with
        | nil => simp_all
        | cons b bs =>
          simp_all [weight, Event.weight]
          omega
    | idle => simp [readFrom] at h
    | interrupt => simp [readFrom, weight, Event.weight]
    | fault fault => simp [readFrom, weight, Event.weight]
    | stop =>
      simp only [readFrom] at h ⊢
      exact Nat.lt_of_lt_of_le (ih true h) (by simp)

theorem weight_read_le {f f' : Feed} {room : Nat} {a : Answer} (h : f.read room = (a, f')) :
    f'.weight ≤ f.weight := by
  have := weight_readFrom_le room f.stopAtEnd f.events f.stopped
  rwa [show readFrom room f.stopAtEnd f.events f.stopped = (a, f') from h] at this

theorem weight_read_lt {f f' : Feed} {room : Nat} {a : Answer} (hroom : 0 < room)
    (h : f.read room = (a, f')) (hne : a ≠ .none) : f'.weight < f.weight := by
  have := weight_readFrom_lt hroom f.stopAtEnd f.events f.stopped
  rw [show readFrom room f.stopAtEnd f.events f.stopped = (a, f') from h] at this
  exact this hne

end Feed

end RunLog
