import Mathlib.Logic.Function.Basic
import RunLog.Proofs.WriterChain
import RunLog.Writer.Stream

/-! # What a recording leaves in a plain log

In a recording, writers of nodes and writers of streams write into one log, in any order. What is
left in a plain log are the lines of the records whose encode succeeded, in the order of the
appends. -/

namespace RunLog

/-- The bytes of a log with the lines of these records. -/
def logBytes (records : List Record) : Bytes :=
  (records.map fun r => LogFile.terminated r.render).flatten

@[simp] theorem logBytes_nil : logBytes [] = [] := rfl

@[simp] theorem logBytes_cons (r : Record) (records : List Record) :
    logBytes (r :: records) = LogFile.terminated r.render ++ logBytes records := rfl

@[simp] theorem logBytes_append (records more : List Record) :
    logBytes (records ++ more) = logBytes records ++ logBytes more := by
  simp [logBytes]

/-- A plain log has taken the lines of some records, all of which have finite numbers. -/
structure LogFile.Took (log : LogFile) (records : List Record) (after : LogFile) : Prop where
  isPlain : after.IsPlain
  contents_eq : after.sink.contents = log.sink.contents ++ logBytes records
  finite : ∀ r ∈ records, r.checkFinite = .ok ()

namespace LogFile.Took

variable {log after last : LogFile} {records more : List Record}

theorem refl (h : log.IsPlain) : log.Took [] log := ⟨h, by simp, by simp⟩

theorem trans (h : log.Took records after) (h' : after.Took more last) :
    log.Took (records ++ more) last where
  isPlain := h'.isPlain
  contents_eq := by rw [h'.contents_eq, h.contents_eq, logBytes_append, List.append_assoc]
  finite r hr := by
    rcases List.mem_append.mp hr with hr | hr
    · exact h.finite r hr
    · exact h'.finite r hr

end LogFile.Took

/-! ## Writers -/

namespace NodeWriter

/-- The record that an encode puts into the log, if it succeeds. -/
def encoded (w : NodeWriter) (log : LogFile) (body : Body) (time : Float)
    (stream : Option StreamName) : List Record :=
  match (w.encode log body time stream).answer with
  | .ok _ => [w.linked body time stream]
  | .error _ => []

theorem took_encode (w : NodeWriter) {log : LogFile} (h : log.IsPlain) (body : Body) (time : Float)
    (stream : Option StreamName) :
    log.Took (w.encoded log body time stream) (w.encode log body time stream).log := by
  unfold encoded encode
  cases hdraft : w.draft body time stream with
  | error e => exact .refl h
  | ok draft =>
    obtain ⟨hcheck, rfl⟩ := of_draft_eq_ok hdraft
    rcases happend : log.append (w.linked body time stream).render with ⟨_ | ⟨⟩, after⟩ <;>
      simp only [happend]
    · rw [LogFile.of_append_error h happend]
      exact .refl h
    · obtain ⟨hplain, hcontents⟩ := LogFile.of_append_ok h happend
      exact ⟨hplain, by simpa using hcontents, by simpa using hcheck⟩

end NodeWriter

namespace StreamState

/-- The records that a stream puts into the log for lines, up to the first that fails. -/
def emitted (s : StreamState) (log : LogFile) (elapsed : Float) : List String → List Record
  | [] => []
  | line :: rest =>
    match s.node.encode log (.text .none line) elapsed (some s.stream.name) with
    | ⟨.ok _, node, after⟩ =>
      s.node.linked (.text .none line) elapsed (some s.stream.name) ::
        { s with node }.emitted after elapsed rest
    | ⟨.error _, _, _⟩ => []

theorem took_emitLines (s : StreamState) {log : LogFile} (h : log.IsPlain) (elapsed : Float)
    (lines : List String) :
    log.Took (s.emitted log elapsed lines) (s.emitLines log elapsed lines).log := by
  induction lines generalizing s log with
  | nil => exact .refl h
  | cons line rest ih =>
    have htook := s.node.took_encode h (.text .none line) elapsed (some s.stream.name)
    unfold NodeWriter.encoded at htook
    rw [emitted, emitLines]
    rcases hencode : s.node.encode log (.text .none line) elapsed (some s.stream.name) with
      ⟨_ | text, node, after⟩ <;> rw [hencode] at htook
    · exact htook
    · exact htook.trans (ih { s with node } htook.isPlain)

/-- The records that output makes. -/
def written (s : StreamState) (log : LogFile) (elapsed : Float) (bytes : Bytes) : List Record :=
  let (lines, buffer) := s.stream.buffer.push bytes
  { s with stream := { s.stream with buffer } }.emitted log elapsed lines

theorem took_write (s : StreamState) {log : LogFile} (h : log.IsPlain) (elapsed : Float)
    (bytes : Bytes) : log.Took (s.written log elapsed bytes) (s.write log elapsed bytes).log := by
  rw [written, write]
  rcases s.stream.buffer.push bytes with ⟨lines, buffer⟩
  have htook := { s with stream := { s.stream with buffer } }.took_emitLines h elapsed lines
  dsimp only
  split <;> rename_i hemit <;> rwa [hemit] at htook

/-- The record that the line under way makes. -/
def flushed (s : StreamState) (log : LogFile) (elapsed : Float) : List Record :=
  let (line, buffer) := s.stream.buffer.takePartial
  { s with stream := { s.stream with buffer } }.emitted log elapsed line.toList

theorem took_flush (s : StreamState) {log : LogFile} (h : log.IsPlain) (elapsed : Float) :
    log.Took (s.flushed log elapsed) (s.flush log elapsed).log :=
  took_emitLines _ h elapsed _

end StreamState

/-! ## Recordings -/

/-- The writers of a recording, their log, and the records whose encode succeeded, in order. -/
structure Recording (ι σ : Type) where
  log : LogFile
  nodes : ι → NodeWriter
  /-- Each stream writes through the writer of a node. -/
  streams : σ → ι × StreamWriter
  submitted : List Record := []

/-- What can happen in a recording. -/
inductive Deed (ι σ : Type) where
  | encode (node : ι) (body : Body) (time : Float) (stream : Option StreamName)
  | write (stream : σ) (elapsed : Float) (bytes : Bytes)
  | flush (stream : σ) (elapsed : Float)
  | finish
  /-- The sink has room for so many more writes. -/
  | room (room : Option Nat)

namespace Recording

variable {ι σ : Type} [DecidableEq ι] [DecidableEq σ]

/-- A plain log without lines, and any writers. -/
def start (nodes : ι → NodeWriter) (streams : σ → ι × StreamWriter) : Recording ι σ :=
  { log := {}, nodes, streams }

/-- What a stream and its node look like to the stream. -/
def streamState (s : Recording ι σ) (stream : σ) : StreamState :=
  ⟨s.nodes (s.streams stream).1, (s.streams stream).2⟩

/-- Takes over what a stream and its node have become. -/
def setStream (s : Recording ι σ) (stream : σ) (state : StreamState) : Recording ι σ :=
  { s with
    nodes := Function.update s.nodes (s.streams stream).1 state.node
    streams := Function.update s.streams stream ((s.streams stream).1, state.stream) }

def step (s : Recording ι σ) : Deed ι σ → Recording ι σ
  | .encode node body time stream =>
    let written := (s.nodes node).encode s.log body time stream
    { s with
      log := written.log
      nodes := Function.update s.nodes node written.writer
      submitted := s.submitted ++ (s.nodes node).encoded s.log body time stream }
  | .write stream elapsed bytes =>
    let written := (s.streamState stream).write s.log elapsed bytes
    { s.setStream stream written.writer with
      log := written.log
      submitted := s.submitted ++ (s.streamState stream).written s.log elapsed bytes }
  | .flush stream elapsed =>
    let written := (s.streamState stream).flush s.log elapsed
    { s.setStream stream written.writer with
      log := written.log
      submitted := s.submitted ++ (s.streamState stream).flushed s.log elapsed }
  | .finish => { s with log := s.log.finish.2 }
  | .room room => { s with log := { s.log with sink := { s.log.sink with room } } }

def run (s : Recording ι σ) (deeds : List (Deed ι σ)) : Recording ι σ := deeds.foldl step s

variable {s : Recording ι σ} {log : LogFile}

theorem took_step (h : log.Took s.submitted s.log) (deed : Deed ι σ) :
    log.Took (s.step deed).submitted (s.step deed).log := by
  cases deed with
  | encode node body time stream =>
    exact h.trans ((s.nodes node).took_encode h.isPlain body time stream)
  | write stream elapsed bytes =>
    exact h.trans ((s.streamState stream).took_write h.isPlain elapsed bytes)
  | flush stream elapsed =>
    exact h.trans ((s.streamState stream).took_flush h.isPlain elapsed)
  | finish =>
    rw [step, LogFile.finish_of_isPlain h.isPlain]
    exact ⟨.inr rfl, h.contents_eq, h.finite⟩
  | room room => exact ⟨h.isPlain, h.contents_eq, h.finite⟩

theorem took_run (h : log.Took s.submitted s.log) (deeds : List (Deed ι σ)) :
    log.Took (s.run deeds).submitted (s.run deeds).log := by
  induction deeds generalizing s with
  | nil => exact h
  | cons deed deeds ih => exact ih (took_step h deed)

/-- After a recording the log has the lines of the submitted records, and nothing else. -/
theorem contents_run_start (nodes : ι → NodeWriter) (streams : σ → ι × StreamWriter)
    (deeds : List (Deed ι σ)) :
    ((start nodes streams).run deeds).log.sink.contents =
      logBytes ((start nodes streams).run deeds).submitted := by
  have htook := took_run (s := start nodes streams) (.refl (.inl rfl)) deeds
  rw [htook.contents_eq]
  rfl

end Recording

end RunLog
