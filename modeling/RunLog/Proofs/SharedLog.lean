import Mathlib.Logic.Function.Basic
import RunLog.Writer.Node

/-! # A log shared by callers

Any number of callers have the writers of a run encode records, or finish the log. An encode takes
the chain lock of its writer, builds the line, appends it under the lock of the file and advances
the chain; the callers take these steps in any order. The sink may refuse at any moment. -/

namespace RunLog

/-- What a caller has a writer encode. -/
structure Call (ι : Type) where
  writer : ι
  body : Body
  time : Float
  stream : Option StreamName

/-- How far a caller is. An encode remembers what its writer was when the chain lock was taken. -/
inductive Phase (ι : Type) where
  | idle
  /-- Has the chain lock. -/
  | chained (call : Call ι) (before : NodeWriter)
  /-- Has built the line. -/
  | drafted (call : Call ι) (before : NodeWriter) (draft : Draft)
  /-- Has the lock of the file, too. -/
  | filing (call : Call ι) (before : NodeWriter) (draft : Draft)
  /-- The append was answered. -/
  | filed (call : Call ι) (before : NodeWriter) (draft : Draft) (answer : Except LogError Unit)
  /-- Has given the lock of the file back. -/
  | unfiled (call : Call ι) (before : NodeWriter) (draft : Draft) (answer : Except LogError Unit)
  /-- Has the lock of the file, to finish the log. -/
  | closing
  /-- The log is finished. -/
  | closed

/-- What an encode answered, with its writer when the chain lock was taken and given back. -/
structure Returned (ι : Type) where
  call : Call ι
  before : NodeWriter
  after : NodeWriter
  answer : Except LogError String

/-- The log, its writers and their callers. -/
structure SharedLog (ι κ : Type) where
  log : LogFile
  writers : ι → NodeWriter
  phase : κ → Phase ι
  /-- The callers that have the chain locks. -/
  chainLock : ι → Option κ
  /-- The caller that has the lock of the file. -/
  fileLock : Option κ
  /-- The lines whose append succeeded, with their writers. -/
  journal : List (ι × String) := []
  /-- What the encodes have answered. -/
  returned : List (Returned ι) := []

/-- What happens next. -/
inductive Turn (ι κ : Type) where
  /-- A caller begins to encode. -/
  | encode (caller : κ) (call : Call ι)
  /-- A caller begins to finish the log. -/
  | finish (caller : κ)
  /-- A caller takes its next step. -/
  | advance (caller : κ)
  /-- The sink has room for so many more writes. -/
  | room (room : Option Nat)

namespace SharedLog

variable {ι κ : Type}

/-- A plain log without lines, and new writers. -/
def start (nodes : ι → NodeInfo) (rules : ι → ChainRule) (places : ι → Nat) : SharedLog ι κ where
  log := {}
  writers i := { node := nodes i, rule := rules i, places := places i }
  phase _ := .idle
  chainLock _ := none
  fileLock := none

variable [DecidableEq ι]

/-- The lines of one writer. -/
def linesOf (s : SharedLog ι κ) (writer : ι) : List String :=
  (s.journal.filter fun entry => entry.1 = writer).map Prod.snd

/-- The lines that encodes with one writer have answered. -/
def answered (s : SharedLog ι κ) (writer : ι) : List String :=
  s.returned.filterMap fun r => if r.call.writer = writer then r.answer.toOption else none

variable [DecidableEq κ]

def setPhase (s : SharedLog ι κ) (caller : κ) (phase : Phase ι) : SharedLog ι κ :=
  { s with phase := Function.update s.phase caller phase }

omit [DecidableEq ι] in
@[simp] theorem phase_setPhase_self (s : SharedLog ι κ) (caller : κ) (phase : Phase ι) :
    (s.setPhase caller phase).phase caller = phase := Function.update_self ..

omit [DecidableEq ι] in
theorem phase_setPhase_of_ne (s : SharedLog ι κ) {caller other : κ} (h : other ≠ caller)
    (phase : Phase ι) : (s.setPhase caller phase).phase other = s.phase other :=
  Function.update_of_ne h ..

omit [DecidableEq ι] in
@[simp] theorem writers_setPhase (s : SharedLog ι κ) (caller : κ) (phase : Phase ι) :
    (s.setPhase caller phase).writers = s.writers := rfl

def setFileLock (s : SharedLog ι κ) (holder : Option κ) : SharedLog ι κ :=
  { s with fileLock := holder }

def setLog (s : SharedLog ι κ) (log : LogFile) : SharedLog ι κ := { s with log }

/-- Takes the chain lock of a writer. -/
def take (s : SharedLog ι κ) (caller : κ) (call : Call ι) : SharedLog ι κ :=
  { s.setPhase caller (.chained call (s.writers call.writer)) with
    chainLock := Function.update s.chainLock call.writer (some caller) }

/-- The log has taken a line. -/
def noteLine (s : SharedLog ι κ) (caller : κ) (call : Call ι) (before : NodeWriter) (draft : Draft)
    (log : LogFile) : SharedLog ι κ :=
  { s.setPhase caller (.filed call before draft (.ok ())) with
    log, journal := s.journal ++ [(call.writer, draft.line)] }

/-- Appends a line under the lock of the file. -/
def file (s : SharedLog ι κ) (caller : κ) (call : Call ι) (before : NodeWriter) (draft : Draft) :
    SharedLog ι κ :=
  match s.log.append draft.line with
  | (.ok (), log) => s.noteLine caller call before draft log
  | (.error e, log) => (s.setLog log).setPhase caller (.filed call before draft (.error e))

/-- Gives the chain lock back and answers. -/
def leave (s : SharedLog ι κ) (caller : κ) (call : Call ι) (before : NodeWriter)
    (answer : Except LogError String) : SharedLog ι κ :=
  { s.setPhase caller .idle with
    chainLock := Function.update s.chainLock call.writer none
    returned := s.returned ++ [⟨call, before, s.writers call.writer, answer⟩] }

/-- Advances the chain of a writer. -/
def advanceChain (s : SharedLog ι κ) (writer : ι) (link : List Char) : SharedLog ι κ :=
  { s with writers := Function.update s.writers writer ((s.writers writer).advance link) }

/-- The next step of a caller. A caller that waits for the lock of the file stays where it is. -/
def advance (s : SharedLog ι κ) (caller : κ) : SharedLog ι κ :=
  match s.phase caller with
  | .idle => s
  | .chained call before =>
    match (s.writers call.writer).draft call.body call.time call.stream with
    | .error e => s.leave caller call before (.error e)
    | .ok draft => s.setPhase caller (.drafted call before draft)
  | .drafted call before draft =>
    match s.fileLock with
    | none => (s.setFileLock (some caller)).setPhase caller (.filing call before draft)
    | some _ => s
  | .filing call before draft => s.file caller call before draft
  | .filed call before draft answer =>
    (s.setFileLock none).setPhase caller (.unfiled call before draft answer)
  | .unfiled call before draft (.ok ()) =>
    (s.advanceChain call.writer draft.link).leave caller call before (.ok draft.line)
  | .unfiled call before _ (.error e) => s.leave caller call before (.error e)
  | .closing => (s.setLog s.log.finish.2).setPhase caller .closed
  | .closed => (s.setFileLock none).setPhase caller .idle

/-- One step. A turn that cannot be taken yet changes nothing. -/
def step (s : SharedLog ι κ) : Turn ι κ → SharedLog ι κ
  | .encode caller call =>
    match s.phase caller, s.chainLock call.writer with
    | .idle, none => s.take caller call
    | _, _ => s
  | .finish caller =>
    match s.phase caller, s.fileLock with
    | .idle, none => (s.setFileLock (some caller)).setPhase caller .closing
    | _, _ => s
  | .advance caller => s.advance caller
  | .room room => s.setLog { s.log with sink := { s.log.sink with room } }

def run (s : SharedLog ι κ) (turns : List (Turn ι κ)) : SharedLog ι κ := turns.foldl step s

theorem run_idle {s : SharedLog ι κ} {caller : κ} (hidle : s.phase caller = .idle) (n : Nat) :
    s.run (List.replicate n (.advance caller)) = s := by
  induction n with
  | zero => rfl
  | succ n ih =>
    have hstep : s.step (.advance caller) = s := by simp only [step, advance, hidle]
    rw [List.replicate_succ, run, List.foldl_cons, hstep]
    exact ih

/-- An encode that nobody comes between is the encode of the writer. -/
theorem run_encode (s : SharedLog ι κ) {caller : κ} {call : Call ι}
    (hidle : s.phase caller = .idle) (hchain : s.chainLock call.writer = none)
    (hfile : s.fileLock = none) :
    let written := (s.writers call.writer).encode s.log call.body call.time call.stream
    s.run (.encode caller call :: List.replicate 5 (.advance caller)) =
      { s with
        log := written.log
        writers := Function.update s.writers call.writer written.writer
        journal := s.journal ++ (written.answer.toOption.map (call.writer, ·)).toList
        returned := s.returned ++
          [⟨call, s.writers call.writer, written.writer, written.answer⟩] } := by
  have hphase : Function.update s.phase caller .idle = s.phase := by
    rw [← hidle, Function.update_eq_self]
  have hlock : Function.update s.chainLock call.writer none = s.chainLock := by
    rw [← hchain, Function.update_eq_self]
  have htake : s.step (.encode caller call) = s.take caller call := by
    simp only [step, hidle, hchain]
  rw [run, List.foldl_cons, htake, NodeWriter.encode]
  cases hdraft : (s.writers call.writer).draft call.body call.time call.stream with
  | error e =>
    have hleave : (s.take caller call).step (.advance caller) =
        (s.take caller call).leave caller call (s.writers call.writer) (.error e) := by
      simp [step, advance, take, hdraft]
    have hleft : ((s.take caller call).leave caller call (s.writers call.writer)
        (.error e)).phase caller = .idle := by simp [leave]
    have hrest := run_idle hleft 4
    rw [run] at hrest
    rw [List.replicate_succ, List.foldl_cons, hleave, hrest]
    simp [take, setPhase, leave, hphase, hlock, Except.toOption]
  | ok draft =>
    rcases happend : s.log.append draft.line with ⟨_ | ⟨⟩, log⟩ <;>
      simp [List.replicate, step, advance, take, setPhase, setFileLock, setLog, file, noteLine,
        advanceChain, leave, hdraft, happend, hfile, hphase, hlock, Except.toOption]

end SharedLog

end RunLog
