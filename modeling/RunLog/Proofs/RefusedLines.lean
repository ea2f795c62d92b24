import RunLog.Proofs.CapturedText

/-! # Refused lines

A write takes all segments that it completes out of the line buffer before the first of them is
appended, and a flush takes out what is unfinished. So a segment whose append is refused is lost,
and so are the complete ones behind it: they are neither in the log nor in the buffer, and no later
flush brings them back. What a write leaves unfinished is kept. Whatever is refused in a recording,
the log gets some of the segments of a stream, in order. -/

namespace RunLog

open Assembler (lineFeed)

namespace StreamState

variable {s : StreamState} {log : LogFile} {elapsed : Float} {before : Bytes} {fault : Fault}

/-- If a write fails, the segments before a refused one are appended, and no others. -/
theorem of_write_eq_error (hbuffer : s.stream.buffer = .holding (unfinished before))
    {bytes : Bytes} (h : (s.write log elapsed bytes).answer = .error fault) :
    ∃ appended refused lost,
      completed (unfinished before ++ bytes) = appended ++ refused :: lost ∧
        (s.written log elapsed bytes).map Record.speech = appended.map s.stream.name.speech := by
  obtain ⟨appended, lost, hsegments, hspeech, hanswer⟩ := write_cases log elapsed hbuffer bytes
  cases lost with
  | nil =>
    have hok := hanswer.mpr rfl
    rw [h] at hok
    cases hok
  | cons refused lost => exact ⟨appended, refused, lost, hsegments, hspeech⟩

/-- If a flush fails, the line under way is not appended. -/
theorem of_flush_eq_error (hbuffer : s.stream.buffer = .holding (unfinished before))
    (h : (s.flush log elapsed).answer = .error fault) :
    unfinished before ≠ [] ∧ s.flushed log elapsed = [] := by
  obtain ⟨appended, lost, hsegments, hspeech, hanswer⟩ := flush_cases log elapsed hbuffer
  have hlost : lost ≠ [] := by
    intro hnil
    have hok := hanswer.mpr hnil
    rw [h] at hok
    cases hok
  rw [segments_unterminated (lineFeed_not_mem_unfinished before)] at hsegments
  split at hsegments
  · exact absurd (List.append_eq_nil_iff.mp hsegments.symm).2 hlost
  · rename_i hne
    obtain ⟨rfl, -⟩ | ⟨-, hnil⟩ := List.append_eq_singleton_iff.mp hsegments.symm
    · exact ⟨hne, List.map_eq_nil_iff.mp hspeech⟩
    · exact absurd hnil hlost

/-- A flush that the log takes appends what is unfinished. -/
theorem speech_flushed_of_accepts (hbuffer : s.stream.buffer = .holding (unfinished before))
    (hlog : log.Accepts)
    (htime : Numeric.isFinite (Numeric.roundToPlaces s.node.places elapsed) = true) :
    (s.flushed log elapsed).map Record.speech =
      (segments (unfinished before)).map s.stream.name.speech := by
  obtain ⟨appended, lost, hsegments, hspeech, hanswer⟩ := flush_cases log elapsed hbuffer
  rw [hanswer.mp (flush_of_accepts hlog htime), List.append_nil] at hsegments
  rw [hspeech, hsegments]

/-- What becomes of output if an append fails. At a write, the segments before the refused one are
appended, it and those behind are lost, and a later flush appends what was left unfinished, alone.
At a flush, the line under way is lost. -/
theorem refused_output (s : StreamState) (log : LogFile) (elapsed : Float) (bytes : Bytes)
    (hopen : lineFeed ∉ s.stream.buffer.pending) :
    let name := s.stream.name
    let received := s.stream.buffer.pending ++ bytes
    let write := s.write log elapsed bytes
    let flush := s.flush log elapsed
    (∀ fault, write.answer = .error fault →
      ∃ appended refused lost, completed received = appended ++ refused :: lost ∧
        (s.written log elapsed bytes).map Record.speech = appended.map name.speech ∧
        (log.IsPlain → write.log.sink.contents =
          log.sink.contents ++ logBytes (s.written log elapsed bytes)) ∧
        write.writer.stream = ⟨name, .holding (unfinished received)⟩ ∧
        ∀ later : LogFile, later.Accepts → ∀ time,
          Numeric.isFinite (Numeric.roundToPlaces s.node.places time) = true →
            (write.writer.flushed later time).map Record.speech =
              (segments (unfinished received)).map name.speech) ∧
    ∀ fault, flush.answer = .error fault →
      s.stream.buffer.pending ≠ [] ∧ s.flushed log elapsed = [] ∧
        flush.writer.stream = ⟨name, {}⟩ := by
  intro name received write flush
  have hbuffer := LineBuffer.eq_holding hopen
  have hpending := unfinished_unterminated hopen
  have hstream : write.writer.stream = ⟨name, .holding (unfinished received)⟩ :=
    stream_write log elapsed hbuffer bytes
  constructor
  · intro fault hfault
    obtain ⟨appended, refused, lost, hsegments, hspeech⟩ := of_write_eq_error hbuffer hfault
    rw [hpending] at hsegments
    refine ⟨appended, refused, lost, hsegments, hspeech, ?_, hstream, ?_⟩
    · intro hplain
      exact (s.took_write hplain elapsed bytes).contents_eq
    · intro later hlater time htime
      have hheld : write.writer.stream.buffer = .holding (unfinished received) :=
        congrArg StreamWriter.buffer hstream
      have hname : write.writer.stream.name = name := by rw [hstream]
      have hplaces : write.writer.node.places = s.node.places := places_write s log elapsed bytes
      rw [speech_flushed_of_accepts hheld hlater (by rwa [hplaces]), hname]
  · intro fault hfault
    obtain ⟨hne, hflushed⟩ := of_flush_eq_error hbuffer hfault
    rw [hpending] at hne
    exact ⟨hne, hflushed, stream_flush s log elapsed⟩

/-- A writer of a stream that holds an `x`. -/
def heldStream : StreamState :=
  ⟨Recording.oneNode (), ⟨(Recording.twoStreams false).2.name, .holding [0x78]⟩⟩

/-- A log whose sink takes so many more writes. -/
def limitedLog (room : Nat) : LogFile := { sink := { room := some room } }

theorem refused_output_limitedLog :
    let bytes : Bytes := [0x61, 0x0A, 0x62, 0x0A, 0x0A, 0x63]
    ∃ appended refused lost, [[0x78, 0x61], [0x62], []] = appended ++ refused :: lost ∧
      (heldStream.written (limitedLog 1) 0.5 bytes).map Record.speech =
        appended.map heldStream.stream.name.speech := by
  intro bytes
  have hrefused := refused_output heldStream (limitedLog 1) 0.5 bytes (by decide +kernel)
  obtain ⟨appended, refused, lost, hsegments, hspeech, -⟩ :=
    hrefused.1 Sink.fullFault (by decide +kernel)
  have hcompleted : completed (heldStream.stream.buffer.pending ++ bytes) =
      [[0x78, 0x61], [0x62], []] := by
    decide +kernel
  exact ⟨appended, refused, lost, hcompleted.symm.trans hsegments, hspeech⟩

/-- A write completes the line `xa`, which is refused. It is not in the log and not in the buffer,
and the flush of a later log appends only what comes behind. -/
theorem refused_line_lost :
    let bytes : Bytes := [0x61, 0x0A, 0x62]
    let write := heldStream.write (limitedLog 0) 0.5 bytes
    write.answer = .error Sink.fullFault ∧
      completed (heldStream.stream.buffer.pending ++ bytes) = [[0x78, 0x61]] ∧
      write.log.sink.contents = [] ∧ write.writer.stream.buffer.pending = [0x62] ∧
      (write.writer.flushed {} 1).map Record.speech = [heldStream.stream.name.speech [0x62]] := by
  decide +kernel

end StreamState

namespace Recording

variable {ι σ : Type} [DecidableEq ι] [DecidableEq σ] {s : Recording ι σ} {stream : σ}
  {name : StreamName} {before : Bytes}

/-- Whatever is refused, the records of a stream are those of some of its segments, in order. -/
theorem speech_spoken_sublist (h : s.Holds stream name before) (deeds : List (Deed ι σ)) :
    ((completed before).map name.speech ++ (s.spoken stream deeds).map Record.speech).Sublist
      (((Deed.stretches stream before deeds).flatMap segments ++
        completed (deeds.foldl (fun bytes deed => deed.since stream bytes) before)).map
          name.speech) := by
  induction deeds generalizing s before with
  | nil => simp [spoken, Deed.stretches]
  | cons deed deeds ih =>
    obtain ⟨appended, lost, hsegments, hspeech, -⟩ := spokenBy_cases h deed
    let closed := ((deed.closes stream before).flatMap segments).map name.speech
    let opened := (completed (deed.since stream before)).map name.speech
    let later := ((s.step deed).spoken stream deeds).map Record.speech
    have hfirst : ((completed before).map name.speech ++ appended.map name.speech).Sublist
        (closed ++ opened) := by
      rw [← List.map_append, ← List.map_append, hsegments, ← List.append_assoc]
      exact (List.sublist_append_left _ lost).map _
    have hrest := (ih (h.step deed)).append_left closed
    rw [← List.append_assoc] at hrest
    have hall := (hfirst.append_right later).trans hrest
    simpa [spoken, Deed.stretches, hspeech, closed, later] using hall

end Recording

end RunLog
