import RunLog.Proofs.ReaderPassage
import RunLog.Xz.Progress

/-! # Resuming a damaged log

When the decoder of a stream rejects it, the log is picked up at the earliest marker behind the
beginning of the stream, as far back as the window can see. Until such a marker was received whole,
nothing is decoded; with compressed data a fresh decoder starts at the marker, and a plain record
and all that follows it is passed on as it is. -/

namespace RunLog

open Marker Decoder

variable {δ : Type} [Decoder δ]

/-- Where the present stream of a reader began. -/
def Reader.streamStart (r : Reader δ) : Nat := r.offset - r.window.total

namespace Snapshot

variable {x y z z' : Snapshot δ} {φ : LogPhase} {out decoded : Bytes} {low failedAt : Nat} {d : δ}

/-- The next step calls the decoder, and this rejects its stream. -/
structure Rejects (x : Snapshot δ) (d : δ) : Prop where
  pending_eq : x.reader.pending = []
  mode_eq : x.reader.mode = .inflating d
  called : x.reader.input ≠ [] ∨ x.reader.full = true
  verdict_eq : (feed d x.reader.input x.reader.room).verdict = .rejected

/-- A fresh decoder is about to be fed the log from here on. -/
structure Begins (x : Snapshot δ) (o : Nat) : Prop where
  mode_eq : x.reader.mode = .inflating Decoder.start
  offset_eq : x.reader.offset = o
  input_eq : x.reader.input = x.received.drop o
  window_eq : x.reader.window = .empty

/-- The log is passed on as it is from here on, after what was decoded before. -/
structure Passes (x : Snapshot δ) (o : Nat) (decoded : Bytes) : Prop where
  mode_eq : x.reader.mode = .raw
  emitted_eq : x.emitted ++ x.reader.input = decoded ++ x.received.drop o

/-- What has become of a reader that began to look for a marker from `low` on when this was decoded:
it still looks, and has not received a marker; or it resumed at the earliest marker of the log. -/
inductive Resumed (y : Snapshot δ) (low failedAt : Nat) (decoded : Bytes) (z : Snapshot δ) :
    Prop where
  | waits (hmode : z.reader.mode = .resync failedAt true) (hemitted : z.emitted = decoded)
      (habsent : z.Rests → Absent z.received low)
  | compressed {o : Nat} {w : Snapshot δ}
      (hearliest : ∀ log, z.received <+: log → Earliest log low .compressed o)
      (hbefore : Moves y w) (hbegins : w.Begins o) (hemitted : w.emitted = decoded)
      (hafter : Moves w z)
  | plain {o : Nat} (hearliest : ∀ log, z.received <+: log → Earliest log low .plain o)
      (hafter : ∀ z', Moves z z' → z'.Passes o decoded)

/-- The same, with the place of the reader in its log, so that it can be followed. -/
inductive Resumes (y : Snapshot δ) (low failedAt : Nat) (decoded : Bytes) (z : Snapshot δ) :
    Prop where
  | waits (hat : z.At (.resync low failedAt true) decoded)
  | compressed {o : Nat} {w : Snapshot δ} (hearliest : Earliest z.received low .compressed o)
      (hbefore : Moves y w) (hbegins : w.Begins o) (hemitted : w.emitted = decoded)
      (hafter : Moves w z)
  | plain {o : Nat} (hearliest : Earliest z.received low .plain o) (hat : z.At (.raw o) decoded)

/-- A scan ends the search at the earliest marker, or goes on. -/
theorem resumes_of_scanned {r r' : Reader δ}
    (h : Reader.Scanned x.received r failedAt true low r')
    (hemitted : x.given ++ r.pending = decoded)
    (hmoves : Moves y (x.withReader r')) : Resumes y low failedAt decoded (x.withReader r') := by
  cases h with
  | compressed h => exact .compressed h hmoves ⟨rfl, rfl, rfl, rfl⟩ hemitted .refl
  | plain h => exact .plain h (.resumeRaw h hemitted)
  | absent h hlow ho hpassed => exact .waits (.search h hlow ho hpassed hemitted)

/-- A plain log stays plain. -/
theorem At.move_raw {o : Nat} (h : x.At (.raw o) decoded) (hmove : Move x z) :
    z.At (.raw o) decoded := by
  cases hmove with
  | step hpending hstep => exact (h.step hstep).at_raw
  | receive hrests hbytes => exact h.receive _
  | give room => exact h.give room

theorem At.moves_raw {o : Nat} (h : x.At (.raw o) decoded) (hmoves : Moves x z) :
    z.At (.raw o) decoded := by
  induction hmoves with
  | refl => exact h
  | tail _ hmove ih => exact ih.move_raw hmove

theorem Resumes.move (h : Resumes y low failedAt decoded z) (hz : Moves y z) (hmove : Move z z') :
    Resumes y low failedAt decoded z' := by
  have hreceived : z.received <+: z'.received := Moves.received_prefix (.single hmove)
  obtain ⟨more, hmore⟩ := hreceived
  cases h with
  | waits hat =>
    cases hmove with
    | step hpending hstep =>
      exact resumes_of_scanned (hat.scanned_step hstep) hat.emitted_of_resync
        (hz.tail (.step hpending hstep))
    | receive hrests hbytes => exact .waits (hat.receive _)
    | give room => exact .waits (hat.give room)
  | compressed hearliest hbefore hbegins hemitted hafter =>
    refine .compressed ?_ hbefore hbegins hemitted (hafter.tail hmove)
    rw [← hmore]
    exact hearliest.append more
  | plain hearliest hat =>
    exact .plain (hmore ▸ hearliest.append more) (hat.move_raw hmove)

theorem Resumes.moves (h : Resumes y low failedAt decoded y) (hmoves : Moves y z) :
    Resumes y low failedAt decoded z := by
  induction hmoves with
  | refl => exact h
  | tail hz hmove ih => exact ih.move hz hmove

theorem Resumes.resumed (h : Resumes y low failedAt decoded z) :
    Resumed y low failedAt decoded z := by
  have hlater : ∀ {m o}, Earliest z.received low m o →
      ∀ log, z.received <+: log → Earliest log low m o := by
    rintro m o hearliest _ ⟨more, rfl⟩
    exact hearliest.append more
  cases h with
  | waits hat =>
    refine .waits ?_ hat.emitted_of_resync fun hrests => (hat.settled hrests).absent
    cases hat with
    | resync hmode => exact hmode
  | compressed hearliest hbefore hbegins hemitted hafter =>
    exact .compressed (hlater hearliest) hbefore hbegins hemitted hafter
  | plain hearliest hat =>
    refine .plain (hlater hearliest) fun z' hmoves => ?_
    have hat' := hat.moves_raw hmoves
    refine ⟨?_, hat'.emitted_append_input⟩
    cases hat' with
    | raw hmode => exact hmode

/-! ## Ends of logs -/

section Ends

variable (h : Resumes y low failedAt decoded z) (hrests : z.Rests)

include h hrests

/-- If there is no marker, nothing more is decoded, and the log is corrupt. -/
theorem Resumes.conclusion_of_absent (habsent : Absent z.received low) :
    z.conclusion = ⟨decoded, .error (.corrupt failedAt), false⟩ := by
  cases h with
  | waits hat =>
    have hsettled := hat.settled hrests
    generalize z.conclusion = reading at *
    cases hsettled
    rfl
  | compressed hearliest => exact absurd habsent hearliest.not_absent
  | plain hearliest => exact absurd habsent hearliest.not_absent

theorem Resumes.conclusion_of_plain {o : Nat} (hearliest : Earliest z.received low .plain o) :
    z.conclusion = ⟨decoded ++ z.received.drop o, .ok (), true⟩ := by
  cases h with
  | waits hat => exact absurd (hat.settled hrests).absent hearliest.not_absent
  | compressed hearliest' => cases (hearliest.unique hearliest').2
  | plain hearliest' hat =>
    obtain ⟨rfl, -⟩ := hearliest.unique hearliest'
    have hsettled := hat.settled hrests
    generalize z.conclusion = reading at *
    cases hsettled
    rfl

theorem Resumes.begins_of_compressed {o : Nat}
    (hearliest : Earliest z.received low .compressed o) :
    ∃ w, Moves y w ∧ w.Begins o ∧ w.emitted = decoded ∧ Moves w z := by
  cases h with
  | waits hat => exact absurd (hat.settled hrests).absent hearliest.not_absent
  | compressed hearliest' hbefore hbegins hemitted hafter =>
    obtain ⟨rfl, -⟩ := hearliest.unique hearliest'
    exact ⟨_, hbefore, hbegins, hemitted, hafter⟩
  | plain hearliest' => cases (hearliest.unique hearliest').2

end Ends

/-- After a rejection the reader resumes, or looks for a place to resume. -/
theorem At.resumes (h : x.At φ out) (hrejects : x.Rejects d) :
    ∃ r', x.reader.step? = some r' ∧
      magic <+: x.received.drop x.reader.streamStart ∧
      (∃ output, Driven (x.received.drop x.reader.streamStart)
        (x.reader.offset - x.reader.streamStart) output d) ∧
      Resumes (x.withReader r')
        (resumeBound x.reader.streamStart (x.reader.offset + (x.reader.used d).length))
        (x.reader.offset + (x.reader.used d).length)
        (x.emitted ++ (feed d x.reader.input x.reader.room).output) (x.withReader r') := by
  cases h with
  | start hmode => cases hmode.symm.trans hrejects.mode_eq
  | @inflating begins taken out output d' hmode hmagic hdriven hoffset hinput hwindow =>
    cases hmode.symm.trans hrejects.mode_eq
    have hstart : x.reader.streamStart = begins := by
      rw [Reader.streamStart, hwindow.total_eq, List.length_take_of_le hdriven.taken_le, hoffset,
        Nat.add_sub_cancel]
    have htaken : x.reader.offset - begins = taken := by
      rw [hoffset, Nat.add_sub_cancel_left]
    have hcalled : ¬ (x.reader.input.isEmpty && !x.reader.full) = true := by
      rcases hrejects.called with hne | hfull
      · simp [hne]
      · simp [hfull]
    obtain ⟨r', hstep, hscanned⟩ := Reader.scanned_of_rejected hoffset hdriven.taken_le
      (lt_length_of_at? (at?_eq_compressed_iff.mpr hmagic)) hinput hwindow hrejects.verdict_eq
    rw [hstart, htaken]
    refine ⟨r', ?_, hmagic, ⟨output, hdriven⟩, ?_⟩
    · rw [Reader.step?_of_inflating hmode, if_neg hcalled, hstep]
    · refine resumes_of_scanned hscanned ?_ .refl
      exact (List.append_assoc _ _ _).symm
  | between hmode => cases hmode.symm.trans hrejects.mode_eq
  | raw hmode => cases hmode.symm.trans hrejects.mode_eq
  | resync hmode => cases hmode.symm.trans hrejects.mode_eq

/-- A rejected stream is left for the earliest marker behind its beginning. The stream of the
decoder `d` began at `streamStart` and was taken up to `failedAt`; whatever happens then, the
reader looks for a marker from `low` on or resumed at the earliest, and at the end of the log the
outcome is told by whether there is one, and which. -/
theorem resumption {config : ReaderConfig} (hx : Moves ⟨{ config }, [], []⟩ x)
    (hrejects : x.Rejects d) :
    let failedAt := x.reader.offset + (x.reader.used d).length
    let low := resumeBound x.reader.streamStart failedAt
    let decoded := x.emitted ++ (feed d x.reader.input x.reader.room).output
    magic <+: x.received.drop x.reader.streamStart ∧
      (∃ output, Driven (x.received.drop x.reader.streamStart)
        (x.reader.offset - x.reader.streamStart) output d) ∧
      ∃ y, Move x y ∧ x.reader.step? = some y.reader ∧ y.received = x.received ∧
        (∀ z, Moves y z → Resumed y low failedAt decoded z) ∧
        ∀ (f : Feed) (rest : Bytes) (rooms : Nat → ℕ+), config.tail = false → f.Holds rest →
          let log := x.received ++ rest
          let reading := (y.reader.readAll f rooms).after y.given
          (Absent log low → reading = ⟨decoded, .error (.corrupt failedAt), false⟩) ∧
            (∀ o, Earliest log low .plain o →
              reading = ⟨decoded ++ log.drop o, .ok (), true⟩) ∧
            ∀ o, Earliest log low .compressed o → ∃ w z, Moves y w ∧ w.Begins o ∧
              w.emitted = decoded ∧ Moves w z ∧ z.received = log ∧ reading = z.conclusion := by
  intro failedAt low decoded
  obtain ⟨φ, out, hfollows⟩ := (Follows.fresh config).moves hx
  obtain ⟨r', hstep, hmagic, hdriven, hresumes⟩ := hfollows.2.resumes hrejects
  refine ⟨hmagic, hdriven, x.withReader r', .step hrejects.pending_eq hstep, hstep, rfl,
    fun z hz => (hresumes.moves hz).resumed, ?_⟩
  intro f rest rooms htail hf log reading
  have hconfig : r'.config.tail = false := by
    rw [Reader.config_step? hstep, hx.config_eq, htail]
  obtain ⟨z, hz, hrests, hreceived, hreading⟩ :=
    moves_readAll (x := x.withReader r') hconfig (hf.supplies false) rooms
  have hz' := hresumes.moves hz
  have hlog : z.received = log := hreceived
  have hconclusion : reading = z.conclusion := hreading
  rw [hconclusion, ← hlog]
  refine ⟨hz'.conclusion_of_absent hrests, fun o => hz'.conclusion_of_plain hrests, ?_⟩
  intro o hearliest
  obtain ⟨w, hbefore, hbegins, hemitted, hafter⟩ := hz'.begins_of_compressed hrests hearliest
  exact ⟨w, z, hbefore, hbegins, hemitted, hafter, rfl, rfl⟩

/-- A stream with a damaged header is left for the record behind it. -/
theorem resumption_damagedLog :
    ∃ (x y : Snapshot Xz.Decoder), Moves ⟨{}, [], []⟩ x ∧ x.Rejects Decoder.start ∧
      x.received = damagedLog ∧ x.reader.step? = some y.reader ∧
        ∀ rooms, (y.reader.readAll ⟨[], false, false⟩ rooms).after y.given =
          ⟨damagedLog.drop 14, .ok (), true⟩ := by
  let begun : Snapshot Xz.Decoder := Snapshot.receive ⟨{}, [], []⟩ damagedLog
  let x : Snapshot Xz.Decoder := begun.withReader begun.reader.startStream
  have hbegun : Move ⟨{}, [], []⟩ begun := .receive ⟨rfl, rfl⟩ nofun
  have hx : Moves ⟨{}, [], []⟩ x := .tail (.single hbegun) (.step (x := begun) rfl rfl)
  have hrejects : x.Rejects Decoder.start := ⟨rfl, rfl, .inl nofun, rfl⟩
  have hearliest : Earliest damagedLog 1 .plain 14 := ⟨by decide, rfl, by decide⟩
  obtain ⟨-, -, y, -, hstep, -, -, hends⟩ := resumption hx hrejects
  refine ⟨x, y, hx, hrejects, rfl, hstep, fun rooms => ?_⟩
  exact (hends ⟨[], false, false⟩ [] rooms rfl ⟨.nil, rfl, rfl⟩).2.1 14 hearliest

end Snapshot

end RunLog
