import RunLog.Proofs.StreamOutput

/-! # Captured text

Of the output of a stream, a log that takes every line has one text record for each segment. How the
output was cut into writes does not matter: the bytes from one flush to the next are one byte
string, even if a character was cut. The induction is on what happens in a recording; its invariant
is that a stream holds what is unfinished of the bytes since its last flush. -/

namespace RunLog

/-! ## Logs that take every line -/

/-- A log that is not finished, with a sink that takes every write. -/
structure LogFile.Accepts (log : LogFile) : Prop where
  unfinished : log.format ≠ .finished
  unlimited : log.sink.room = none

namespace Sink

theorem write_of_unlimited {s : Sink} (h : s.room = none) (bytes : Bytes) :
    s.write bytes = .ok { s with writes := bytes :: s.writes } := by
  rcases s with ⟨writes, room⟩
  subst h
  rfl

theorem writeAll_of_unlimited {s : Sink} (h : s.room = none) (writes : List Bytes) :
    ∃ after : Sink, s.writeAll writes = (.ok (), after) ∧ after.room = none := by
  induction writes generalizing s with
  | nil => exact ⟨s, rfl, h⟩
  | cons bytes rest ih =>
    rw [writeAll, write_of_unlimited h]
    exact ih h

end Sink

namespace LogFile.Accepts

variable {log : LogFile}

theorem append (h : log.Accepts) (line : String) :
    ∃ after : LogFile, log.append line = (.ok (), after) ∧ after.Accepts := by
  obtain ⟨hformat, hroom⟩ := h
  unfold LogFile.append
  split
  · rename_i hplain
    rw [Sink.write_of_unlimited hroom]
    exact ⟨_, rfl, hformat, hroom⟩
  · rename_i encoder hcompressed
    obtain ⟨sink, hwrite, hsink⟩ :=
      Sink.writeAll_of_unlimited hroom (encoder.append (terminated line)).1
    simp only [hwrite]
    exact ⟨_, rfl, nofun, hsink⟩
  · contradiction

end LogFile.Accepts

namespace NodeWriter

variable (w : NodeWriter) {log : LogFile} (body : Body) (time : Float)
  (stream : Option StreamName)

theorem accepts_encode (h : log.Accepts) : (w.encode log body time stream).log.Accepts := by
  unfold encode
  split
  · exact h
  · rename_i draft _
    obtain ⟨after, happend, hafter⟩ := h.append draft.line
    rw [happend]
    exact hafter

/-- A text is appended to a log that takes every line. -/
theorem encode_text {w : NodeWriter} (h : log.Accepts)
    (htime : Numeric.isFinite (Numeric.roundToPlaces w.places time) = true) (kind : TextKind)
    (text : String) : ∃ line, (w.encode log (.text kind text) time stream).answer = .ok line := by
  have hcheck : (w.linked (.text kind text) time stream).checkFinite = .ok () := by
    simp [Record.checkFinite, linked, record, htime, Body.metrics]
  obtain ⟨after, happend, -⟩ := h.append (w.linked (.text kind text) time stream).render
  refine ⟨(w.linked (.text kind text) time stream).render, ?_⟩
  rw [encode, draft_eq, hcheck]
  simp only [happend]

end NodeWriter

namespace StreamState

variable {s : StreamState} {log : LogFile} {elapsed : Float}

theorem accepts_emitLines (h : log.Accepts) (lines : List String) :
    (s.emitLines log elapsed lines).log.Accepts :=
  s.emitLines_invariant (P := fun _ log => log.Accepts) log elapsed
    (fun w _ _ _ h => w.accepts_encode _ elapsed _ h) h lines

theorem accepts_write (h : log.Accepts) (bytes : Bytes) :
    (s.write log elapsed bytes).log.Accepts := by
  rw [write_eq]
  exact accepts_emitLines h _

theorem accepts_flush (h : log.Accepts) : (s.flush log elapsed).log.Accepts :=
  accepts_emitLines h _

/-- Lines are all appended to a log that takes every line. -/
theorem emitLines_of_accepts (h : log.Accepts)
    (htime : Numeric.isFinite (Numeric.roundToPlaces s.node.places elapsed) = true)
    (lines : List String) : (s.emitLines log elapsed lines).answer = .ok () := by
  induction lines generalizing s log with
  | nil => rfl
  | cons line rest ih =>
    have hplaces := s.node.places_encode log (.text .none line) elapsed (some s.stream.name)
    have haccepts := s.node.accepts_encode (.text .none line) elapsed (some s.stream.name) h
    obtain ⟨text, hanswer⟩ :=
      NodeWriter.encode_text elapsed (some s.stream.name) h htime .none line
    rw [emitLines]
    split <;> rename_i hencode <;> rw [hencode] at hplaces haccepts hanswer
    · exact ih haccepts (by rwa [hplaces])
    · cases hanswer

theorem write_of_accepts (h : log.Accepts)
    (htime : Numeric.isFinite (Numeric.roundToPlaces s.node.places elapsed) = true)
    (bytes : Bytes) : (s.write log elapsed bytes).answer = .ok bytes.length := by
  rw [write_eq]
  exact congrArg (Except.map _)
    (emitLines_of_accepts (s := s.withBuffer (s.stream.buffer.push bytes).2) h htime _)

theorem flush_of_accepts (h : log.Accepts)
    (htime : Numeric.isFinite (Numeric.roundToPlaces s.node.places elapsed) = true) :
    (s.flush log elapsed).answer = .ok () :=
  emitLines_of_accepts (s := s.withBuffer {}) h htime _

end StreamState

/-! ## Recordings -/

namespace Deed

variable {ι σ : Type} [DecidableEq σ]

/-- The bytes that a stream has written since its last flush, after a deed. -/
def since (stream : σ) (before : Bytes) : Deed ι σ → Bytes
  | .write other _ bytes => if other = stream then before ++ bytes else before
  | .flush other _ => if other = stream then [] else before
  | .encode .. | .finish | .room _ => before

/-- A flush of a stream makes what was written since the last one a stretch. -/
def closes (stream : σ) (before : Bytes) : Deed ι σ → List Bytes
  | .flush other _ => if other = stream then [before] else []
  | .write .. | .encode .. | .finish | .room _ => []

/-- What a stream has written from one flush to the next, in the course of a recording. -/
def stretches (stream : σ) (before : Bytes) : List (Deed ι σ) → List Bytes
  | [] => []
  | deed :: deeds => deed.closes stream before ++ stretches stream (deed.since stream before) deeds

/-- What a deed must be like for a stream to go on: the log is not ended, and the times of the
stream stay finite when they are rounded to so many places. -/
def Sound (stream : σ) (places : Nat) : Deed ι σ → Prop
  | .encode .. => True
  | .write other elapsed _ | .flush other elapsed =>
    other = stream → Numeric.isFinite (Numeric.roundToPlaces places elapsed) = true
  | .finish | .room _ => False

instance (stream : σ) (places : Nat) (deed : Deed ι σ) : Decidable (deed.Sound stream places) :=
  match deed with
  | .encode .. => inferInstanceAs (Decidable True)
  | .write other elapsed _ | .flush other elapsed =>
    inferInstanceAs (Decidable
      (other = stream → Numeric.isFinite (Numeric.roundToPlaces places elapsed) = true))
  | .finish | .room _ => inferInstanceAs (Decidable False)

end Deed

namespace Recording

variable {ι σ : Type} [DecidableEq ι] [DecidableEq σ]

/-- The records that a deed makes of the output of a stream. -/
def spokenBy (s : Recording ι σ) (stream : σ) : Deed ι σ → List Record
  | .write other elapsed bytes =>
    if other = stream then (s.streamState stream).written s.log elapsed bytes else []
  | .flush other elapsed =>
    if other = stream then (s.streamState stream).flushed s.log elapsed else []
  | _ => []

/-- The records that are made of the output of a stream in the course of a recording. -/
def spoken (s : Recording ι σ) (stream : σ) : List (Deed ι σ) → List Record
  | [] => []
  | deed :: deeds => s.spokenBy stream deed ++ (s.step deed).spoken stream deeds

theorem spokenBy_sublist (s : Recording ι σ) (stream : σ) (deed : Deed ι σ) :
    (s.submitted ++ s.spokenBy stream deed).Sublist (s.step deed).submitted := by
  cases deed with
  | encode node body time stream => simp [spokenBy, step]
  | write other elapsed bytes =>
    by_cases heq : other = stream
    · simp [spokenBy, step, heq]
    · simp [spokenBy, step, heq]
  | flush other elapsed =>
    by_cases heq : other = stream
    · simp [spokenBy, step, heq]
    · simp [spokenBy, step, heq]
  | finish => simp [spokenBy, step]
  | room room => simp [spokenBy, step]

/-- What is made of the output of a stream is submitted, in this order. -/
theorem spoken_sublist (s : Recording ι σ) (stream : σ) (deeds : List (Deed ι σ)) :
    (s.submitted ++ s.spoken stream deeds).Sublist (s.run deeds).submitted := by
  induction deeds generalizing s with
  | nil => simp [spoken, run]
  | cons deed deeds ih =>
    rw [spoken, ← List.append_assoc]
    exact ((s.spokenBy_sublist stream deed).append_right _).trans (ih (s.step deed))

/-! ### One deed -/

variable {s : Recording ι σ} {stream other : σ} {name : StreamName} {before : Bytes}

theorem streamState_setStream (state : StreamState) :
    (s.setStream stream state).streamState stream = state := by
  simp [streamState, setStream]

theorem streams_setStream_of_ne (h : other ≠ stream) (state : StreamState) :
    (s.setStream other state).streams stream = s.streams stream :=
  Function.update_of_ne h.symm _ _

omit [DecidableEq σ] in
theorem places_update {w : NodeWriter} {node : ι} (h : w.places = (s.nodes node).places)
    (n : ι) : (Function.update s.nodes node w n).places = (s.nodes n).places := by
  by_cases hn : n = node
  · subst hn
    rw [Function.update_self, h]
  · rw [Function.update_of_ne hn]

theorem places_setStream {state : StreamState}
    (h : state.node.places = (s.streamState other).node.places) :
    ((s.setStream other state).streamState stream).node.places =
      (s.streamState stream).node.places := by
  by_cases hne : other = stream
  · subst hne
    rw [streamState_setStream, h]
  · rw [streamState, streams_setStream_of_ne hne]
    exact places_update h _

/-- No deed changes how many places of times are kept. -/
theorem places_step (deed : Deed ι σ) (stream : σ) :
    ((s.step deed).streamState stream).node.places = (s.streamState stream).node.places := by
  cases deed with
  | encode node body time stream => exact places_update (NodeWriter.places_encode ..) _
  | write other elapsed bytes => exact places_setStream (StreamState.places_write ..)
  | flush other elapsed => exact places_setStream (StreamState.places_flush ..)
  | finish => rfl
  | room room => rfl

theorem accepts_step {deed : Deed ι σ} {places : Nat} (h : s.log.Accepts)
    (hsound : deed.Sound stream places) : (s.step deed).log.Accepts := by
  cases deed with
  | encode node body time stream => exact NodeWriter.accepts_encode _ _ _ _ h
  | write stream elapsed bytes => exact StreamState.accepts_write h bytes
  | flush stream elapsed => exact StreamState.accepts_flush h
  | finish => exact hsound.elim
  | room room => exact hsound.elim

/-- A stream with this name holds what is unfinished of some bytes. -/
structure Holds (s : Recording ι σ) (stream : σ) (name : StreamName) (bytes : Bytes) : Prop where
  name_eq : (s.streamState stream).stream.name = name
  buffer_eq : (s.streamState stream).stream.buffer = .holding (unfinished bytes)

namespace Holds

omit [DecidableEq ι] [DecidableEq σ] in
theorem of_streams_eq {s' : Recording ι σ} (h : s.Holds stream name before)
    (hstreams : s'.streams stream = s.streams stream) : s'.Holds stream name before where
  name_eq := by
    rw [streamState, hstreams]
    exact h.name_eq
  buffer_eq := by
    rw [streamState, hstreams]
    exact h.buffer_eq

theorem step (h : s.Holds stream name before) (deed : Deed ι σ) :
    (s.step deed).Holds stream name (deed.since stream before) := by
  cases deed with
  | encode node body time stream => exact h.of_streams_eq rfl
  | write other elapsed bytes =>
    by_cases heq : other = stream
    · subst heq
      have hstate : (s.step (.write other elapsed bytes)).streamState other =
          ((s.streamState other).write s.log elapsed bytes).writer :=
        streamState_setStream _
      have hstream := StreamState.stream_write s.log elapsed h.buffer_eq bytes
      rw [Deed.since, if_pos rfl]
      constructor
      · rw [hstate, hstream, h.name_eq]
      · rw [hstate, hstream]
    · rw [Deed.since, if_neg heq]
      exact h.of_streams_eq (streams_setStream_of_ne heq _)
  | flush other elapsed =>
    by_cases heq : other = stream
    · subst heq
      have hstate : (s.step (.flush other elapsed)).streamState other =
          ((s.streamState other).flush s.log elapsed).writer :=
        streamState_setStream _
      have hstream := (s.streamState other).stream_flush s.log elapsed
      rw [Deed.since, if_pos rfl]
      constructor
      · rw [hstate, hstream, h.name_eq]
      · rw [hstate, hstream]
    · rw [Deed.since, if_neg heq]
      exact h.of_streams_eq (streams_setStream_of_ne heq _)
  | finish => exact h.of_streams_eq rfl
  | room room => exact h.of_streams_eq rfl

end Holds

omit [DecidableEq ι] in
/-- Of the segments that a deed makes complete, the records are made that come before a refused
append. -/
theorem spokenBy_cases (h : s.Holds stream name before) (deed : Deed ι σ) :
    ∃ appended lost,
      (deed.closes stream before).flatMap segments ++ completed (deed.since stream before) =
        completed before ++ (appended ++ lost) ∧
      (s.spokenBy stream deed).map Record.speech = appended.map name.speech ∧
      (s.log.Accepts → deed.Sound stream (s.streamState stream).node.places → lost = []) := by
  cases deed with
  | encode node body time stream => exact ⟨[], [], (List.append_nil _).symm, rfl, fun _ _ => rfl⟩
  | write other elapsed bytes =>
    by_cases heq : other = stream
    · obtain ⟨appended, lost, hsegments, hspeech, hanswer⟩ :=
        StreamState.write_cases s.log elapsed h.buffer_eq bytes
      refine ⟨appended, lost, ?_, ?_, ?_⟩
      · rw [Deed.since, if_pos heq, completed_append, hsegments]
        rfl
      · rw [spokenBy, if_pos heq, hspeech, h.name_eq]
      · intro hlog hsound
        exact hanswer.mp (StreamState.write_of_accepts hlog (hsound heq) bytes)
    · refine ⟨[], [], ?_, ?_, fun _ _ => rfl⟩
      · simp [Deed.closes, Deed.since, heq]
      · simp [spokenBy, heq]
  | flush other elapsed =>
    by_cases heq : other = stream
    · obtain ⟨appended, lost, hsegments, hspeech, hanswer⟩ :=
        StreamState.flush_cases s.log elapsed h.buffer_eq
      refine ⟨appended, lost, ?_, ?_, ?_⟩
      · rw [Deed.closes, Deed.since, if_pos heq, if_pos heq, ← hsegments, ← segments_eq]
        simp [completed_unterminated]
      · rw [spokenBy, if_pos heq, hspeech, h.name_eq]
      · intro hlog hsound
        exact hanswer.mp (StreamState.flush_of_accepts hlog (hsound heq))
    · refine ⟨[], [], ?_, ?_, fun _ _ => rfl⟩
      · simp [Deed.closes, Deed.since, heq]
      · simp [spokenBy, heq]
  | finish => exact ⟨[], [], (List.append_nil _).symm, rfl, fun _ _ => rfl⟩
  | room room => exact ⟨[], [], (List.append_nil _).symm, rfl, fun _ _ => rfl⟩

/-! ### Whole recordings -/

/-- Of the bytes since the last flush the complete segments have been appended, before the deeds and
after them. -/
theorem speech_spoken (h : s.Holds stream name before) (hlog : s.log.Accepts)
    {deeds : List (Deed ι σ)}
    (hsound : ∀ deed ∈ deeds, deed.Sound stream (s.streamState stream).node.places) :
    (completed before).map name.speech ++ (s.spoken stream deeds).map Record.speech =
      ((Deed.stretches stream before deeds).flatMap segments ++
        completed (deeds.foldl (fun bytes deed => deed.since stream bytes) before)).map
          name.speech := by
  induction deeds generalizing s before with
  | nil => simp [spoken, Deed.stretches]
  | cons deed deeds ih =>
    obtain ⟨hfirst, hrest⟩ := List.forall_mem_cons.mp hsound
    obtain ⟨appended, lost, hsegments, hspeech, hlost⟩ := spokenBy_cases h deed
    rw [hlost hlog hfirst, List.append_nil] at hsegments
    have hdeeds := ih (h.step deed) (accepts_step hlog hfirst) (by rwa [places_step])
    rw [spoken, Deed.stretches, List.map_append, hspeech, List.flatMap_append, List.append_assoc,
      List.map_append, List.foldl_cons, ← hdeeds, ← List.append_assoc, ← List.append_assoc,
      ← List.map_append, ← List.map_append, hsegments]

/-- Of the output of a stream, whatever else is recorded in between, the log gets a text record for
each segment of what was written from one flush to the next, with the name of the stream. The last
flush may be that of a stream that is dropped. -/
theorem captured_text {log : LogFile} (hlog : log.Accepts) (nodes : ι → NodeWriter)
    (streams : σ → ι × StreamWriter) (stream : σ) (hnew : (streams stream).2.buffer = {})
    (deeds : List (Deed ι σ)) (elapsed : Float)
    (hsound : ∀ deed ∈ deeds ++ [.flush stream elapsed],
      deed.Sound stream (nodes (streams stream).1).places) :
    let s : Recording ι σ := { log, nodes, streams }
    let course := deeds ++ [.flush stream elapsed]
    let records := s.spoken stream course
    records.map (fun r => (r.body, r.head.stream)) =
        ((Deed.stretches stream [] course).flatMap segments).map (fun segment =>
          (.text .none (Text.ofBytesLossy segment), some (streams stream).2.name.raw)) ∧
      records.Sublist (s.run course).submitted ∧
      (log.IsPlain → (s.run course).log.sink.contents =
        log.sink.contents ++ logBytes (s.run course).submitted) := by
  intro s course records
  have hholds : s.Holds stream (streams stream).2.name [] := by
    refine ⟨rfl, ?_⟩
    rw [unfinished_unterminated List.not_mem_nil]
    exact hnew
  have hlast : course.foldl (fun bytes deed => deed.since stream bytes) [] = [] := by
    simp [course, List.foldl_append, Deed.since]
  refine ⟨?_, s.spoken_sublist stream course, ?_⟩
  · have hspeech := speech_spoken hholds hlog hsound
    rw [hlast, completed_unterminated List.not_mem_nil, List.map_nil, List.nil_append,
      List.append_nil] at hspeech
    exact hspeech
  · intro hplain
    exact (took_run (s := s) (.refl hplain) course).contents_eq

/-- The writer of a node whose links have no digits. -/
def oneNode (_ : Unit) : NodeWriter :=
  { node := ⟨.test, none, ⟨[0]⟩, .none, .none⟩, rule := { length := 0 } }

/-- Two streams of the node. -/
def twoStreams (second : Bool) : Unit × StreamWriter :=
  ((), { name := if second then ⟨"err", by decide⟩ else ⟨"out", by decide⟩ })

/-- A stream has line feeds at either end, in a row or alone, and a character that is cut; the node
and its other stream write in between. -/
def cutOutput : List (Deed Unit Bool) :=
  [.write false 0.25 [0x61, 0xC3], .write true 0.25 [0x78, 0x0A, 0x79],
    .encode () (.text .note "") (0 / 0) none, .write false 0.5 [0xA9, 0x0A, 0x0A, 0x62],
    .encode () (.text .note "n") 1 none, .write false 0.5 [], .flush false 0.5,
    .write false 0.75 [0x0A, 0x63, 0x0A], .flush false 1, .flush true 1, .write false 2 [0x64],
    .write false 2 [0xFF]]

theorem captured_text_cutOutput :
    let s : Recording Unit Bool := { log := {}, nodes := oneNode, streams := twoStreams }
    (s.spoken false (cutOutput ++ [.flush false 2])).map (fun r => (r.body, r.head.stream)) =
      ["aé", "", "b", "", "c", "d\uFFFD"].map fun line => (.text .none line, some "out") := by
  intro s
  have hlog : ({} : LogFile).Accepts := ⟨by decide, rfl⟩
  have hcaptured := captured_text hlog oneNode twoStreams false rfl cutOutput 2 (by decide +kernel)
  rw [hcaptured.1]
  decide +kernel

end Recording

end RunLog
