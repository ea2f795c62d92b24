import RunLog.Proofs.Recording
import RunLog.Proofs.Segments

/-! # Output of streams

A write appends the segments that are complete with what was unfinished before, a flush appends
what is unfinished. If an append fails, the segments before it have been appended and the others
have not; either way the line buffer holds what the bytes leave unfinished. -/

namespace RunLog

open Assembler (lineFeed)

/-! ## Line buffers -/

namespace LineBuffer

/-- The bytes of the line under way, in the order in which they came. -/
def pending (b : LineBuffer) : Bytes := b.held.reverse

/-- Holds bytes that came in this order. -/
def holding (bytes : Bytes) : LineBuffer := ⟨bytes.reverse⟩

@[simp] theorem pending_holding (bytes : Bytes) : (holding bytes).pending = bytes :=
  bytes.reverse_reverse

@[simp] theorem holding_pending (b : LineBuffer) : holding b.pending = b := by
  rw [holding, pending, List.reverse_reverse]

variable {b : LineBuffer}

/-- A buffer gives the segments that are complete with the new bytes, and holds the rest. -/
theorem push_eq (h : lineFeed ∉ b.pending) (bytes : Bytes) :
    b.push bytes = ((completed (b.pending ++ bytes)).map Text.ofBytesLossy,
      holding (unfinished (b.pending ++ bytes))) := by
  induction bytes generalizing b with
  | nil =>
    rw [List.append_nil, completed_unterminated h, unfinished_unterminated h, holding_pending]
    rfl
  | cons x rest ih =>
    rw [push]
    split
    · rename_i hx
      have hrest : push {} rest = _ := ih (b := {}) List.not_mem_nil
      rw [hx, completed_terminated h, unfinished_terminated, hrest]
      rfl
    · rename_i hx
      have hpending : (LineBuffer.mk (x :: b.held)).pending = b.pending ++ [x] :=
        List.reverse_cons
      have hnext : lineFeed ∉ (LineBuffer.mk (x :: b.held)).pending := by
        simp [hpending, h, Ne.symm hx]
      rw [ih hnext, hpending, List.append_assoc, List.singleton_append]

/-- What a buffer holds is unfinished. -/
theorem eq_holding (h : lineFeed ∉ b.pending) : b = holding (unfinished b.pending) := by
  rw [unfinished_unterminated h, holding_pending]

/-- A buffer that holds what is unfinished goes on with it. -/
theorem push_holding (before bytes : Bytes) :
    (holding (unfinished before)).push bytes =
      ((completed (unfinished before ++ bytes)).map Text.ofBytesLossy,
        holding (unfinished (before ++ bytes))) := by
  have hopen : lineFeed ∉ (holding (unfinished before)).pending := by
    rw [pending_holding]
    exact lineFeed_not_mem_unfinished before
  rw [push_eq hopen, pending_holding, ← unfinished_append]

/-- What is unfinished is the last segment, unless it is empty. -/
theorem takePartial_holding (before : Bytes) :
    (holding (unfinished before)).takePartial.1.toList =
      (segments (unfinished before)).map Text.ofBytesLossy := by
  rw [segments_unterminated (lineFeed_not_mem_unfinished before), takePartial, isEmpty, text,
    holding, List.reverse_reverse, List.isEmpty_reverse]
  cases unfinished before <;> rfl

end LineBuffer

/-! ## Streams -/

/-- What a record says: its body, and the name of the stream that it was captured from. -/
def Record.speech (r : Record) : Body × Option String := (r.body, r.head.stream)

/-- What the record of a segment says that was captured from a stream. -/
def StreamName.speech (name : StreamName) (segment : Bytes) : Body × Option String :=
  (.text .none (Text.ofBytesLossy segment), some name.raw)

@[simp] theorem NodeWriter.places_encode (w : NodeWriter) (log : LogFile) (body : Body)
    (time : Float) (stream : Option StreamName) :
    (w.encode log body time stream).writer.places = w.places := by
  unfold encode
  split
  · rfl
  · split <;> rfl

namespace StreamState

section Emission

variable (s : StreamState) (log : LogFile) (elapsed : Float)

@[simp] theorem stream_emitLines (lines : List String) :
    (s.emitLines log elapsed lines).writer.stream = s.stream := by
  induction lines generalizing s log with
  | nil => rfl
  | cons line rest ih =>
    rw [emitLines]
    split
    · exact ih _ _
    · rfl

/-- What the encode of a line keeps is kept by lines. -/
theorem emitLines_invariant {P : NodeWriter → LogFile → Prop}
    (hencode : ∀ (w : NodeWriter) (log : LogFile) (line : String) (stream : Option StreamName),
      P w log → P (w.encode log (.text .none line) elapsed stream).writer
        (w.encode log (.text .none line) elapsed stream).log)
    (h : P s.node log) (lines : List String) :
    P (s.emitLines log elapsed lines).writer.node (s.emitLines log elapsed lines).log := by
  induction lines generalizing s log with
  | nil => exact h
  | cons line rest ih =>
    have hline := hencode s.node log line (some s.stream.name) h
    rw [emitLines]
    split <;> rename_i heq <;> rw [heq] at hline
    · exact ih _ _ hline
    · exact hline

@[simp] theorem places_emitLines (lines : List String) :
    (s.emitLines log elapsed lines).writer.node.places = s.node.places :=
  s.emitLines_invariant (P := fun w _ => w.places = s.node.places) log elapsed
    (fun w log _ _ h => (w.places_encode log _ elapsed _).trans h) rfl lines

/-- Segments are appended in turn, up to the first that is refused. -/
theorem emitLines_cases (segs : List Bytes) :
    ∃ appended lost, segs = appended ++ lost ∧
      (s.emitted log elapsed (segs.map Text.ofBytesLossy)).map Record.speech =
        appended.map s.stream.name.speech ∧
      ((s.emitLines log elapsed (segs.map Text.ofBytesLossy)).answer = .ok () ↔ lost = []) := by
  induction segs generalizing s log with
  | nil => exact ⟨[], [], rfl, rfl, by simp [emitLines]⟩
  | cons segment rest ih =>
    rw [List.map_cons, emitted, emitLines]
    rcases s.node.encode log (.text .none (Text.ofBytesLossy segment)) elapsed
      (some s.stream.name) with ⟨_ | text, node, after⟩
    · exact ⟨[], segment :: rest, rfl, rfl, by simp⟩
    · obtain ⟨appended, lost, hrest, hspeech, hanswer⟩ := ih { s with node } after
      refine ⟨segment :: appended, lost, ?_, ?_, hanswer⟩
      · rw [hrest, List.cons_append]
      · rw [List.map_cons, hspeech, List.map_cons]
        rfl

end Emission

/-! ## Writes and flushes -/

/-- A stream with another buffer. -/
def withBuffer (s : StreamState) (buffer : LineBuffer) : StreamState :=
  { s with stream := { s.stream with buffer } }

variable (s : StreamState) (log : LogFile) (elapsed : Float)

theorem write_eq (bytes : Bytes) :
    s.write log elapsed bytes =
      let emission := (s.withBuffer (s.stream.buffer.push bytes).2).emitLines log elapsed
        (s.stream.buffer.push bytes).1
      ⟨emission.answer.map fun _ => bytes.length, emission.writer, emission.log⟩ := by
  rw [write, withBuffer]
  rcases s.stream.buffer.push bytes with ⟨lines, buffer⟩
  dsimp only
  split <;> rename_i hemit <;> rw [hemit] <;> rfl

@[simp] theorem places_write (bytes : Bytes) :
    (s.write log elapsed bytes).writer.node.places = s.node.places := by
  rw [write_eq]
  exact places_emitLines ..

@[simp] theorem places_flush : (s.flush log elapsed).writer.node.places = s.node.places :=
  places_emitLines ..

theorem stream_flush :
    (s.flush log elapsed).writer.stream = ⟨s.stream.name, .holding (unfinished [])⟩ :=
  stream_emitLines ..

variable {s} {before : Bytes}

theorem stream_write (hbuffer : s.stream.buffer = .holding (unfinished before)) (bytes : Bytes) :
    (s.write log elapsed bytes).writer.stream =
      ⟨s.stream.name, .holding (unfinished (before ++ bytes))⟩ := by
  rw [write_eq, hbuffer, LineBuffer.push_holding]
  exact stream_emitLines ..

/-- Of the segments that a write completes those before a refused one are appended. -/
theorem write_cases (hbuffer : s.stream.buffer = .holding (unfinished before)) (bytes : Bytes) :
    ∃ appended lost, completed (unfinished before ++ bytes) = appended ++ lost ∧
      (s.written log elapsed bytes).map Record.speech = appended.map s.stream.name.speech ∧
      ((s.write log elapsed bytes).answer = .ok bytes.length ↔ lost = []) := by
  let after := s.withBuffer (.holding (unfinished (before ++ bytes)))
  obtain ⟨appended, lost, hsegments, hspeech, hanswer⟩ :=
    after.emitLines_cases log elapsed (completed (unfinished before ++ bytes))
  refine ⟨appended, lost, hsegments, ?_, ?_⟩
  · rw [written, hbuffer, LineBuffer.push_holding]
    exact hspeech
  · rw [write_eq, hbuffer, LineBuffer.push_holding, ← hanswer]
    change Except.map _ (after.emitLines log elapsed _).answer = _ ↔ _
    rcases (after.emitLines log elapsed _).answer with _ | ⟨⟩ <;> simp [Except.map]

/-- At a flush what is unfinished is appended, unless it is refused. -/
theorem flush_cases (hbuffer : s.stream.buffer = .holding (unfinished before)) :
    ∃ appended lost, segments (unfinished before) = appended ++ lost ∧
      (s.flushed log elapsed).map Record.speech = appended.map s.stream.name.speech ∧
      ((s.flush log elapsed).answer = .ok () ↔ lost = []) := by
  obtain ⟨appended, lost, hsegments, hspeech, hanswer⟩ :=
    (s.withBuffer {}).emitLines_cases log elapsed (segments (unfinished before))
  rw [← LineBuffer.takePartial_holding, ← hbuffer] at hspeech hanswer
  exact ⟨appended, lost, hsegments, hspeech, hanswer⟩

end StreamState

end RunLog
