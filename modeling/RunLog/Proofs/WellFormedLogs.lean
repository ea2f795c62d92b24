import RunLog.Proofs.ReadBoundaries
import RunLog.Proofs.StoredStreams
import RunLog.Xz.Encoder

/-! # Well-formed logs

A log that does not begin like compressed data is given out as it is. A log of compressed streams
with zeros behind them, and perhaps a plain part at its end, is given out as what was compressed and
the plain part. Of the decoder it is asked that it decodes the streams of this log and takes nothing
that follows them. -/

namespace RunLog

open Marker

variable {δ : Type} [Decoder δ]

/-- A compressed stream of a log, and the zeros behind it. -/
structure PaddedStream (δ : Type) [Decoder δ] where
  stream : Bytes
  content : Bytes
  padding : Nat
  decodes : Decoder.Decodes δ stream content

namespace PaddedStream

def bytes (s : PaddedStream δ) : Bytes := s.stream ++ List.replicate s.padding 0

/-- A log of such streams, and the plain part behind them. -/
def log (streams : List (PaddedStream δ)) (text : Bytes) : Bytes :=
  streams.flatMap bytes ++ text

@[simp] theorem log_nil (text : Bytes) : log ([] : List (PaddedStream δ)) text = text := rfl

theorem log_cons (s : PaddedStream δ) (streams : List (PaddedStream δ)) (text : Bytes) :
    log (s :: streams) text = s.stream ++ (List.replicate s.padding 0 ++ log streams text) := by
  simp [log, bytes]

theorem magic_isPrefix_log (s : PaddedStream δ) (streams : List (PaddedStream δ)) (text : Bytes) :
    magic <+: log (s :: streams) text := by
  rw [log_cons]
  exact s.decodes.magic_prefix.trans (List.prefix_append _ _)

end PaddedStream

namespace Marker

variable {bs : Bytes}

/-- What begins like a plain record does not begin with a zero. -/
theorem head?_ne_zero_of_at? {m : Marker} (h : at? bs = some m) : bs.head? ≠ some 0 := by
  obtain ⟨w, hw, rest, rfl⟩ := at?_ne_none_iff.mp (show at? bs ≠ none by simp [h])
  have hwords : ∀ w ∈ words, w ≠ [] ∧ w.head? ≠ some 0 := by decide
  obtain ⟨hne, hhead⟩ := hwords w hw
  rwa [List.head?_append_of_ne_nil w hne]

/-- Neither of the markers begins like the other. -/
theorem plainStarts_foreign : ∀ w ∈ plainStarts, ¬ w <+: magic ∧ ¬ magic <+: w := by
  decide

theorem at?_eq_none_of_short (h : Short bs) : at? bs = none := by
  refine at?_eq_none_iff.mpr fun w hw hbegins => ?_
  rcases List.mem_cons.mp hw with rfl | hw
  · exact h.2 hbegins
  · exact (plainStarts_foreign w hw).1 (hbegins.trans h.1)

theorem at?_eq_plain {w : Bytes} (hw : w ∈ plainStarts) (h : w <+: bs) : at? bs = some .plain := by
  have hsome : at? bs ≠ none := at?_ne_none_iff.mpr ⟨w, List.mem_cons_of_mem _ hw, h⟩
  rcases hat : at? bs with _ | m
  · exact absurd hat hsome
  · cases m with
    | plain => rfl
    | compressed =>
      rcases List.prefix_or_prefix_of_prefix h (at?_eq_compressed_iff.mp hat) with hw' | hw'
      · exact absurd hw' (plainStarts_foreign w hw).1
      · exact absurd hw' (plainStarts_foreign w hw).2

end Marker

/-- Whatever a log leads to from here, it is read as this. -/
def Comes (δ : Type) [Decoder δ] (log : Bytes) (c : LogPhase × Bytes) (reading : Reading) : Prop :=
  ∀ c' reading', Relation.ReflTransGen (Leads δ log) c c' → Settled δ log c' reading' →
    reading' = reading

namespace Comes

variable {log rest text : Bytes} {c : LogPhase × Bytes} {reading : Reading} {q : Nat} {out : Bytes}

theorem intro (hsettled : ∀ reading', Settled δ log c reading' → reading' = reading)
    (hleads : ∀ c', Leads δ log c c' → Comes δ log c' reading) : Comes δ log c reading := by
  intro c' reading' hpassage h
  rcases hpassage.cases_head with rfl | ⟨c'', hstep, hrest⟩
  · exact hsettled reading' h
  · exact hleads c'' hstep c' reading' hrest h

/-- A plain part is given out to its end. -/
theorem raw : Comes δ log (.raw q, out) ⟨out ++ log.drop q, .ok (), true⟩ := by
  refine intro ?_ ?_
  · intro reading' h
    cases h
    rfl
  · intro c' h
    cases h

/-- What begins like compressed data comes to what the stream behind it comes to. -/
theorem start_of_magic (h : magic <+: log) (hlater : Comes δ log (.inflating 0, []) reading) :
    Comes δ log (.start, []) reading := by
  refine intro ?_ ?_
  · intro reading' hsettled
    exact absurd h hsettled.short.2
  · intro c' hleads
    cases hleads with
    | magic => exact hlater
    | plain hforeign => exact absurd h hforeign.1

theorem start_of_not_magic (h : ¬ magic <+: log) :
    Comes δ log (.start, []) ⟨log, .ok (), !log.isEmpty⟩ := by
  refine intro ?_ ?_
  · intro reading' hsettled
    cases hsettled
    rfl
  · intro c' hleads
    cases hleads with
    | magic hmagic => exact absurd hmagic h
    | plain hforeign =>
      have hlog : log.isEmpty = false := by simpa using hforeign.ne_nil
      rw [hlog]
      exact raw

/-- A stream that can be decoded is given out and left behind. -/
theorem inflating {stream content : Bytes} (hdecodes : Decoder.Decodes δ stream content)
    (hlog : log.drop q = stream ++ rest)
    (hlater : Comes δ log (.between (q + stream.length), out ++ content) reading) :
    Comes δ log (.inflating q, out) reading := by
  refine intro ?_ ?_
  · intro reading' hsettled
    cases hsettled with
    | inflating h =>
      rw [hlog] at h
      cases (hdecodes.judged h).2.2
  · intro c' hleads
    cases hleads with
    | finished hb h =>
      rw [hlog] at h
      obtain ⟨rfl, rfl, -⟩ := hdecodes.judged h
      exact hlater
    | rejected hb h =>
      rw [hlog] at h
      cases (hdecodes.judged h).2.2

/-- Another stream follows. -/
theorem between_of_magic (h : magic <+: log.drop q)
    (hlater : Comes δ log (.inflating q, out) reading) :
    Comes δ log (.between q, out) reading := by
  refine intro ?_ ?_
  · intro reading' hsettled
    cases hsettled with
    | between hshort => exact absurd h hshort.2
  · intro c' hleads
    cases hleads with
    | padding hzero => cases hzero.symm.trans (head?_of_magic_isPrefix h)
    | follows => exact hlater
    | trailing hforeign => exact absurd h hforeign.1

theorem between_of_zero (h : log.drop q = 0 :: rest)
    (hlater : Comes δ log (.between (q + 1), out) reading) :
    Comes δ log (.between q, out) reading := by
  refine intro ?_ ?_
  · intro reading' hsettled
    cases hsettled with
    | between hshort =>
      have hprefix := hshort.1
      rw [h, magic, List.cons_prefix_cons] at hprefix
      exact absurd hprefix.1 (by decide)
  · intro c' hleads
    cases hleads with
    | padding => exact hlater
    | follows hmagic =>
      have hhead := head?_of_magic_isPrefix hmagic
      rw [h] at hhead
      cases hhead
    | trailing _ hnonzero => exact absurd (by rw [h]; rfl) hnonzero

/-- Zeros are passed over. -/
theorem between_of_zeros (n : Nat) (h : log.drop q = List.replicate n 0 ++ rest)
    (hlater : Comes δ log (.between (q + n), out) reading) :
    Comes δ log (.between q, out) reading := by
  induction n generalizing q with
  | zero => exact hlater
  | succ n ih =>
    have hnext : log.drop (q + 1) = List.replicate n 0 ++ rest := by
      rw [← List.drop_drop, h]
      rfl
    refine between_of_zero h (ih hnext ?_)
    rwa [Nat.add_assoc, Nat.add_comm 1 n]

/-- Nothing follows. -/
theorem between_of_end (h : log.drop q = []) :
    Comes δ log (.between q, out) ⟨out, .ok (), false⟩ := by
  refine intro ?_ ?_
  · intro reading' hsettled
    cases hsettled
    rfl
  · intro c' hleads
    cases hleads with
    | padding hzero =>
      rw [h] at hzero
      cases hzero
    | follows hmagic =>
      have hhead := head?_of_magic_isPrefix hmagic
      rw [h] at hhead
      cases hhead
    | trailing hforeign => exact absurd h hforeign.ne_nil

/-- The search for a marker ends at once where a plain part begins. -/
theorem resync_of_plain {failedAt : Nat} {fatal : Bool} (h : at? (log.drop q) = some .plain) :
    Comes δ log (.resync q failedAt fatal, out) ⟨out ++ log.drop q, .ok (), true⟩ := by
  have hearliest : Earliest log q .plain q :=
    ⟨Nat.le_refl q, h, fun k hlow hk => absurd hk (Nat.not_lt_of_le hlow)⟩
  refine intro ?_ ?_
  · intro reading' hsettled
    exact absurd hsettled.absent hearliest.not_absent
  · intro c' hleads
    cases hleads with
    | resumes h' => cases (hearliest.unique h').2
    | resumesPlain h' =>
      obtain ⟨rfl, -⟩ := hearliest.unique h'
      exact raw

/-- A plain part follows. -/
theorem between_of_plain (h : at? (log.drop q) = some .plain) :
    Comes δ log (.between q, out) ⟨out ++ log.drop q, .ok (), true⟩ := by
  have hmagic : ¬ magic <+: log.drop q := not_isPrefix_magic_of_head? (head?_of_at?_eq_plain h)
  refine intro ?_ ?_
  · intro reading' hsettled
    cases hsettled with
    | between hshort => exact absurd (at?_eq_none_of_short hshort) (by simp [h])
  · intro c' hleads
    cases hleads with
    | padding hzero => exact absurd hzero (head?_ne_zero_of_at? h)
    | follows h' => exact absurd h' hmagic
    | trailing => exact resync_of_plain h

variable {streams : List (PaddedStream δ)}

/-- A stream is given out, and the zeros behind it are passed over. -/
theorem inflating_padded (s : PaddedStream δ)
    (h : log.drop q = PaddedStream.log (s :: streams) text)
    (hlater : ∀ q', log.drop q' = PaddedStream.log streams text →
      Comes δ log (.between q', out ++ s.content) reading) :
    Comes δ log (.inflating q, out) reading := by
  rw [PaddedStream.log_cons] at h
  have hpadding : log.drop (q + s.stream.length) =
      List.replicate s.padding 0 ++ PaddedStream.log streams text := by
    rw [← List.drop_drop, h, List.drop_left]
  refine inflating s.decodes h (between_of_zeros s.padding hpadding (hlater _ ?_))
  rw [← List.drop_drop, hpadding]
  simp

/-- Streams, the zeros behind them and the plain part come one after the other. -/
theorem between_of_log (htext : text = [] ∨ at? text = some .plain)
    (h : log.drop q = PaddedStream.log streams text) :
    Comes δ log (.between q, out)
      ⟨out ++ streams.flatMap PaddedStream.content ++ text, .ok (), !text.isEmpty⟩ := by
  induction streams generalizing q out with
  | nil =>
    rw [PaddedStream.log_nil] at h
    rcases htext with rfl | hplain
    · simpa using between_of_end h
    · have hempty : text.isEmpty = false := by
        cases text with
        | nil => cases hplain
        | cons => rfl
      have hcomes : Comes δ log (.between q, out) ⟨out ++ log.drop q, .ok (), true⟩ :=
        between_of_plain (h ▸ hplain)
      rw [h] at hcomes
      simpa [hempty] using hcomes
  | cons s streams ih =>
    refine between_of_magic (h ▸ s.magic_isPrefix_log streams text) (inflating_padded s h ?_)
    intro q' hrest
    rw [List.flatMap_cons, ← List.append_assoc]
    exact ih hrest

theorem start_of_log (hstreams : streams ≠ []) (htext : text = [] ∨ at? text = some .plain) :
    Comes δ (PaddedStream.log streams text) (.start, [])
      ⟨streams.flatMap PaddedStream.content ++ text, .ok (), !text.isEmpty⟩ := by
  obtain ⟨s, streams, rfl⟩ := List.exists_cons_of_ne_nil hstreams
  refine start_of_magic (s.magic_isPrefix_log streams text) (inflating_padded s rfl ?_)
  intro q' hrest
  exact between_of_log htext hrest

end Comes

/-- However it is read, a log that does not begin with the bytes of compressed data is given out as
it is; and a log of streams, with any number of zeros behind each, and a plain part, which may be
missing, is given out as the contents of the streams and the plain part. Neither is an error. -/
theorem reading_wellFormed :
    (∀ (log : Bytes) (c : Delivery log), ¬ magic <+: log →
      c.reading δ = ⟨log, .ok (), !log.isEmpty⟩) ∧
    ∀ (streams : List (PaddedStream δ)) (text : Bytes), streams ≠ [] →
      (text = [] ∨ ∃ w ∈ plainStarts, w <+: text) →
        ∀ c : Delivery (PaddedStream.log streams text),
          c.reading δ =
            ⟨streams.flatMap PaddedStream.content ++ text, .ok (), !text.isEmpty⟩ := by
  refine ⟨?_, ?_⟩
  · intro log c hmagic
    obtain ⟨c', hpassage, hsettled⟩ := c.settles (δ := δ)
    exact Comes.start_of_not_magic hmagic c' _ hpassage hsettled
  · intro streams text hstreams htext c
    obtain ⟨c', hpassage, hsettled⟩ := c.settles (δ := δ)
    have hplain : text = [] ∨ at? text = some .plain :=
      htext.imp_right fun ⟨w, hw, hprefix⟩ => at?_eq_plain hw hprefix
    exact Comes.start_of_log hstreams hplain c' _ hpassage hsettled

/-- A record in a stream of its own, as it is written. -/
def recordStream : Bytes :=
  let (opening, e) := ({} : Xz.Encoder).append (Text.toBytes "TEST,\"a\"\n")
  opening.flatten ++ e.finish.flatten

theorem decodes_recordStream :
    Decoder.Decodes Xz.Decoder recordStream (Text.toBytes "TEST,\"a\"\n") :=
  Xz.Decoder.decodes_of_recited? (by decide +kernel) (by decide +kernel)

/-- The stream with so many zeros behind it. -/
def paddedRecord (padding : Nat) : PaddedStream Xz.Decoder :=
  ⟨recordStream, Text.toBytes "TEST,\"a\"\n", padding, decodes_recordStream⟩

/-- A log that is read whole, byte by byte. -/
def Delivery.whole (log : Bytes) : Delivery log where
  config := {}
  feed := ⟨[.data log], false, false⟩
  rooms _ := 1
  tail_eq := rfl
  holds := ⟨by simpa using Event.Carry.data log .nil, rfl, rfl⟩

/-- The beginning of a magic number, and two streams with three zeros between them and a plain
record behind them. -/
theorem reading_wellFormed_twoStreams :
    (Delivery.whole (magic.take 4)).reading Xz.Decoder = ⟨magic.take 4, .ok (), true⟩ ∧
    (Delivery.whole (PaddedStream.log [paddedRecord 3, paddedRecord 0]
      (Text.toBytes "TEST,\"b\"\n"))).reading Xz.Decoder =
      ⟨Text.toBytes "TEST,\"a\"\nTEST,\"a\"\nTEST,\"b\"\n", .ok (), true⟩ := by
  have hread := reading_wellFormed (δ := Xz.Decoder)
  refine ⟨hread.1 _ _ (by decide), ?_⟩
  have hstreams := hread.2 [paddedRecord 3, paddedRecord 0] (Text.toBytes "TEST,\"b\"\n")
    (by simp) (.inr (by decide +kernel)) (.whole _)
  rw [hstreams, Reading.mk.injEq]
  exact ⟨by decide +kernel, rfl, by decide +kernel⟩

end RunLog
