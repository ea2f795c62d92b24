import RunLog.Proofs.PollPasses
import RunLog.Proofs.ReaderPassage

/-! # What a reader holds of its log

Of the bytes that were read, a reader holds those from its offset on as input and, while it decodes
a stream, those before its offset in its window. Steps move the offset in both directions; each
keeps the two aligned with it. Main statement: so it is in every state that polls and reads lead to,
and in every pass of a poll, so that going back never leads before the beginning of the log and no
error is placed behind what was read. -/

namespace RunLog

open Marker Decoder

/-! ## Bytes of a feed -/

/-- The bytes that an event brings. -/
def Event.bytes : Event → Bytes
  | data bytes => bytes
  | _ => []

/-- The bytes that a read finds. -/
def Answer.bytes : Answer → Bytes
  | data bytes => bytes
  | _ => []

namespace Feed

/-- The bytes that were not read yet. -/
def content (f : Feed) : Bytes := f.events.flatMap Event.bytes

theorem content_append (f : Feed) (events : List Event) :
    (f.append events).content = f.content ++ events.flatMap Event.bytes := List.flatMap_append

/-- A read takes what it finds, and leaves the rest in its order. -/
theorem bytes_readFrom (room : Nat) (stopAtEnd : Bool) (events : List Event) (stopped : Bool) :
    (readFrom room stopAtEnd events stopped).1.bytes ++
      (readFrom room stopAtEnd events stopped).2.content = events.flatMap Event.bytes := by
  induction events generalizing stopped with
  | nil => rfl
  | cons e rest ih =>
    cases e with
    | data bytes =>
      have hcut := List.take_append_drop room bytes
      rw [List.flatMap_cons, readFrom]
      split
      · rename_i htake hdrop
        rw [htake, hdrop] at hcut
        rw [ih, ← hcut]
        rfl
      · rename_i hdrop hne
        rw [hdrop, List.append_nil] at hcut
        show bytes.take room ++ _ = bytes ++ _
        rw [hcut]
        rfl
      · show bytes.take room ++ (bytes.drop room ++ _) = bytes ++ _
        rw [← List.append_assoc, hcut]
        rfl
    | idle => rfl
    | interrupt => rfl
    | fault fault => rfl
    | stop => exact ih true

theorem bytes_read {f f' : Feed} {room : Nat} {a : Answer} (h : f.read room = (a, f')) :
    a.bytes ++ f'.content = f.content := by
  have hbytes := bytes_readFrom room f.stopAtEnd f.events f.stopped
  rwa [show readFrom room f.stopAtEnd f.events f.stopped = (a, f') from h] at hbytes

end Feed

namespace Reader

variable {δ : Type} [Decoder δ] {r r' : Reader δ} {log source : Bytes} {f f' : Feed}

/-! ## Alignment -/

/-- The decoder took the stream that begins here up to the offset, and the window shows the end of
what it took. -/
structure Within (r : Reader δ) (log : Bytes) (d : δ) (begins : Nat) : Prop where
  magic_prefix : magic <+: log.drop begins
  begins_le : begins ≤ r.offset
  driven : ∃ output, Driven (log.drop begins) (r.offset - begins) output d
  shows : r.window.Shows ((log.drop begins).take (r.offset - begins))

/-- The input is what was read from the offset on. -/
structure Aligned (r : Reader δ) (log : Bytes) : Prop where
  offset_le : r.offset ≤ log.length
  input_eq : r.input = log.drop r.offset
  within : ∀ d, r.mode = .inflating d → ∃ begins, r.Within log d begins
  /-- A search went back already, and does not go back behind what was read. -/
  resync : ∀ failedAt fatal, r.mode = .resync failedAt fatal →
    r.window = .empty ∧ failedAt ≤ log.length

namespace Aligned

theorem fresh (config : ReaderConfig) : ({ config } : Reader δ).Aligned [] :=
  ⟨Nat.le_refl 0, rfl, nofun, nofun⟩

theorem receive (h : r.Aligned log) (bytes : Bytes) :
    { r with input := r.input ++ bytes }.Aligned (log ++ bytes) where
  offset_le := Nat.le_trans h.offset_le (by simp)
  input_eq := by rw [h.input_eq, List.drop_append_of_le_length h.offset_le]
  within d hmode := by
    obtain ⟨begins, hmagic, hle, ⟨output, hdriven⟩, hshows⟩ := h.within d hmode
    have hdrop : (log ++ bytes).drop begins = log.drop begins ++ bytes :=
      List.drop_append_of_le_length (Nat.le_trans hle h.offset_le)
    refine ⟨begins, ?_, hle, ⟨output, ?_⟩, ?_⟩
    · rw [hdrop]
      exact hmagic.trans (List.prefix_append _ bytes)
    · rw [hdrop]
      exact hdriven.offer bytes
    · rw [hdrop, List.take_append_of_le_length hdriven.taken_le]
      exact hshows
  resync failedAt fatal hmode := by
    obtain ⟨hwindow, hle⟩ := h.resync failedAt fatal hmode
    exact ⟨hwindow, Nat.le_trans hle (by simp)⟩

theorem take (h : r.Aligned log) (room : Nat) : (r.takePending room).2.Aligned log :=
  ⟨h.offset_le, h.input_eq, fun d hmode => by
    obtain ⟨begins, hwithin⟩ := h.within d hmode
    exact ⟨begins, hwithin.magic_prefix, hwithin.begins_le, hwithin.driven, hwithin.shows⟩,
    h.resync⟩

/-- A stream begins at the offset. -/
theorem startStream (hle : r.offset ≤ log.length) (hinput : r.input = log.drop r.offset)
    (hmagic : magic <+: r.input) : r.startStream.Aligned log where
  offset_le := hle
  input_eq := hinput
  within d hmode := by
    cases hmode
    refine ⟨r.offset, hinput ▸ hmagic, Nat.le_refl _, ⟨[], ?_⟩, ?_⟩
    · show Driven _ (r.offset - r.offset) [] _
      rw [Nat.sub_self]
      exact .start _
    · show Window.empty.Shows ((log.drop r.offset).take (r.offset - r.offset))
      rw [Nat.sub_self]
      exact Window.shows_empty
  resync := nofun

/-- Where nothing is decoded or searched, the place is all there is to align. -/
theorem of_place (hle : r.offset ≤ log.length) (hinput : r.input = log.drop r.offset)
    (hmode : r.mode = .start ∨ r.mode = .between ∨ r.mode = .raw) : r.Aligned log := by
  refine ⟨hle, hinput, fun d hd => ?_, fun failedAt fatal hr => ?_⟩
  · simp [hd] at hmode
  · simp [hr] at hmode

/-- After a scan of what was read, the reader stands at a marker of it, or close to its end. -/
theorem of_scanned {low failedAt : Nat} {fatal : Bool} (h : Scanned log r failedAt fatal low r')
    (hle : failedAt ≤ log.length) : r'.Aligned log := by
  cases h with
  | compressed hearliest =>
    exact startStream (Nat.le_of_lt hearliest.lt_length) rfl
      (at?_eq_compressed_iff.mp hearliest.at?_eq)
  | plain hearliest => exact .of_place (Nat.le_of_lt hearliest.lt_length) rfl (.inr (.inr rfl))
  | absent habsent hlow ho hpassed =>
    refine ⟨ho, rfl, nofun, fun _ _ hmode => ?_⟩
    cases hmode
    exact ⟨rfl, hle⟩

variable (h : r.Aligned log)

include h

theorem fed_offset_le (d : δ) : (r.fed d).offset ≤ log.length :=
  add_length_used_le h.input_eq h.offset_le

theorem input_fed (d : δ) : (r.fed d).input = log.drop (r.fed d).offset :=
  Reader.input_fed h.input_eq

theorem input_within {begins : Nat} (hle : begins ≤ r.offset) :
    r.input = (log.drop begins).drop (r.offset - begins) := by
  rw [h.input_eq, List.drop_drop, Nat.add_sub_cancel' hle]

/-- A search that goes back over nothing is a search of what was read. -/
theorem scanned (failedAt : Nat) (fatal : Bool) :
    Scanned log { r with window := .empty } failedAt fatal r.offset
      ({ r with window := .empty }.resync failedAt fatal false) :=
  Snapshot.scanned_of_resync rfl h.offset_le h.input_eq

theorem classify? {other : Reader δ} (hother : other.Aligned log)
    (hsome : r.classify? other = some r') : r'.Aligned log := by
  rcases r.classify?_cases other with ⟨hmagic, heq⟩ | ⟨-, heq⟩ | ⟨-, hnone⟩
  · rw [← Option.some.inj (heq.symm.trans hsome)]
    exact startStream h.offset_le h.input_eq hmagic
  · rwa [← Option.some.inj (heq.symm.trans hsome)]
  · cases hnone.symm.trans hsome

theorem inflate? {d : δ} (hmode : r.mode = .inflating d) (hsome : r.inflate? d = some r') :
    r'.Aligned log := by
  obtain ⟨begins, hmagic, hle, ⟨output, hdriven⟩, hshows⟩ := h.within d hmode
  have hinput := h.input_within hle
  have hoffset : r.offset = begins + (r.offset - begins) := (Nat.add_sub_cancel' hle).symm
  rcases hverdict : (feed d r.input r.room).verdict with _ | _ | _
  · rw [inflate?_eq, hverdict] at hsome
    dsimp only at hsome
    split at hsome
    · cases hsome
    · rw [← Option.some.inj hsome]
      refine ⟨h.fed_offset_le d, h.input_fed d, fun d' hmode' => ?_, nofun⟩
      cases hmode'
      have htaken : (r.fed d).offset - begins = r.offset - begins + (r.used d).length := by
        rw [offset_fed hoffset, Nat.add_sub_cancel_left]
      refine ⟨begins, hmagic, Nat.le_trans hle (Nat.le_add_right _ _),
        ⟨output ++ (feed d r.input r.room).output, ?_⟩, ?_⟩
      · rw [htaken]
        exact driven_fed hinput hdriven hverdict
      · rw [htaken]
        exact shows_fed hinput hshows
  · rw [inflate?_eq, hverdict] at hsome
    rw [← Option.some.inj hsome]
    exact .of_place (h.fed_offset_le d) (h.input_fed d) (.inr (.inl rfl))
  · obtain ⟨next, hnext, hscanned⟩ := scanned_of_rejected hoffset hdriven.taken_le
      (lt_length_of_at? (at?_eq_compressed_iff.mpr hmagic)) hinput hshows hverdict
    obtain rfl := Option.some.inj (hnext.symm.trans hsome)
    exact .of_scanned hscanned (h.fed_offset_le d)

/-- What is read without a decoder is passed over. -/
theorem advance {taken pending : Bytes} {mode : Mode δ} (hmode : mode = .between ∨ mode = .raw)
    (htaken : taken <+: r.input) :
    { r with
      mode
      offset := r.offset + taken.length
      input := r.input.drop taken.length
      pending }.Aligned log := by
  refine .of_place ?_ ?_ (.inr hmode)
  · have hle := htaken.length_le
    rw [h.input_eq, List.length_drop] at hle
    have := h.offset_le
    show r.offset + taken.length ≤ log.length
    omega
  · show r.input.drop taken.length = log.drop (r.offset + taken.length)
    rw [← List.drop_drop, ← h.input_eq]

/-- Every step keeps the reader aligned. -/
theorem step (hstep : r.step? = some r') : r'.Aligned log := by
  cases hmode : r.mode with
  | start =>
    rw [step?_of_start hmode] at hstep
    refine h.classify? ?_ hstep
    exact .of_place h.offset_le h.input_eq (.inr (.inr rfl))
  | inflating d =>
    rw [step?_of_inflating hmode] at hstep
    split at hstep
    · cases hstep
    · exact h.inflate? hmode hstep
  | between =>
    rw [step?_of_between hmode] at hstep
    split at hstep
    · exact h.classify? (.of_scanned (h.scanned _ _) h.offset_le) hstep
    · rw [← Option.some.inj hstep]
      exact h.advance (.inl hmode) (List.takeWhile_prefix _)
  | raw =>
    have hne : r.input ≠ [] := by
      intro hnil
      rw [step?_of_input_eq_nil hnil (.inl hmode)] at hstep
      cases hstep
    rw [step?_raw hmode hne] at hstep
    rw [← Option.some.inj hstep, ← List.drop_length (l := r.input)]
    exact h.advance (.inr hmode) (List.prefix_refl r.input)
  | resync failedAt fatal =>
    rw [eq_resync_of_step? hmode hstep]
    exact .of_scanned (h.scanned failedAt fatal) (h.resync failedAt fatal hmode).2

end Aligned

/-! ## Passes, polls and reads -/

/-- Of a source, the reader read what the feed does not hold any more, and is aligned with it. -/
def Placed (source : Bytes) (x : Reader δ × Feed) : Prop :=
  ∃ log, source = log ++ x.2.content ∧ x.1.Aligned log

variable {x y : Reader δ × Feed} {polled : Polled δ}

theorem Pass.placed (h : Pass x y) (hx : Placed source x) : Placed source y := by
  obtain ⟨log, hsource, haligned⟩ := hx
  cases h with
  | step hpending hstep => exact ⟨log, hsource, haligned.step hstep⟩
  | @receive r f f' bytes hpending hstep hread =>
    refine ⟨log ++ bytes, ?_, haligned.receive bytes⟩
    rw [hsource, ← Feed.bytes_read hread, List.append_assoc]
    rfl
  | interrupted hpending hstep hread =>
    exact ⟨log, by rw [hsource, ← Feed.bytes_read hread]; rfl, haligned⟩

theorem Placed.of_passes (h : Passes x y) (hx : Placed source x) : Placed source y := by
  induction h with
  | refl => exact hx
  | tail _ hpass ih => exact hpass.placed ih

theorem Aligned.finishInput (h : r.Aligned log) (f : Feed) :
    (r.finishInput f).reader.Aligned log := by
  unfold Reader.finishInput
  split
  · split
    · exact h
    · rw [← List.drop_length (l := r.input)]
      exact h.advance (.inr rfl) (List.prefix_refl r.input)
  · split <;> exact h
  · exact h

theorem Answers.placed (h : Answers x polled) (hx : Placed source x) :
    Placed source (polled.reader, polled.feed) := by
  obtain ⟨log, hsource, haligned⟩ := hx
  cases h with
  | ready hpending => exact ⟨log, hsource, haligned⟩
  | failed hpending hstep hread =>
    exact ⟨log, by rw [hsource, ← Feed.bytes_read hread]; rfl, haligned⟩
  | idle hpending hstep hread htail hstopped =>
    exact ⟨log, by rw [hsource, ← Feed.bytes_read hread]; rfl, haligned⟩
  | finish hpending hstep hread hover =>
    refine ⟨log, ?_, haligned.finishInput _⟩
    rw [feed_finishInput, hsource, ← Feed.bytes_read hread]
    rfl

theorem Placed.poll (h : Placed source (r, f)) :
    Placed source ((r.poll f).reader, (r.poll f).feed) := by
  obtain ⟨last, hpasses, hanswers⟩ := passes_poll r f
  exact hanswers.placed (h.of_passes hpasses)

theorem Placed.await (h : Placed source (r, f)) :
    Placed source ((r.await f).reader, (r.await f).feed) := by
  fun_induction Reader.await r f with
  | case1 r f polled hidle hlt ih => exact ih h.poll
  | case2 r f polled hidle hge => exact h.poll
  | case3 r f polled hfound => exact h.poll

theorem Placed.take (h : Placed source (r, f)) (room : Nat) :
    Placed source ((r.takePending room).2, f) := by
  obtain ⟨log, hsource, haligned⟩ := h
  exact ⟨log, hsource, haligned.take room⟩

theorem Placed.read (h : Placed source (r, f)) (room : Nat) :
    Placed source (r.read f room).2 := by
  unfold Reader.read
  dsimp only
  split
  · exact h.take room
  · split
    · exact h
    · split
      · exact h.await.take room
      · exact h.await
      · exact h.await

/-! ## The window -/

/-- The window shows what was read before the offset, as far back as it can, and no further than to
the beginning of the stream. -/
structure SeesBack (r : Reader δ) (log : Bytes) (begins : Nat) : Prop where
  toList_eq : r.window.toList = (log.take r.offset).drop (r.offset - r.window.toList.length)
  length_le : r.window.toList.length ≤ Window.limit
  begins_le : begins + r.window.toList.length ≤ r.offset
  isComplete_iff : r.window.isComplete = true ↔ begins + r.window.toList.length = r.offset

theorem Within.seesBack {d : δ} {begins : Nat} (h : r.Within log d begins) :
    r.SeesBack log begins := by
  obtain ⟨-, hle, ⟨output, hdriven⟩, hshows⟩ := h
  have htaken : ((log.drop begins).take (r.offset - begins)).length = r.offset - begins :=
    List.length_take_of_le hdriven.taken_le
  have hlength : r.window.toList.length = min Window.limit (r.offset - begins) := by
    rw [Window.length_toList, hshows.total_eq, htaken]
  refine ⟨?_, by omega, by omega, ?_⟩
  · have hback : r.offset - r.window.toList.length =
        begins + (r.offset - begins - Window.limit) := by omega
    rw [hback, ← List.drop_drop, List.drop_take, hshows.toList_eq, htaken]
  · rw [hshows.isComplete_eq, htaken, decide_eq_true_iff]
    omega

/-- The second reader is about to go back over its window, in search of a marker. -/
inductive Scans : Reader δ → Reader δ → Prop where
  | rejected {r : Reader δ} {d : δ} (hmode : r.mode = .inflating d)
      (hverdict : (feed d r.input r.room).verdict = .rejected) : Scans r (r.fed d)
  | trailing {r : Reader δ} (hmode : r.mode = .between) : Scans r { r with window := .empty }
  | searching {r : Reader δ} {failedAt : Nat} {fatal : Bool}
      (hmode : r.mode = .resync failedAt fatal) : Scans r r

/-- Going back over the window does not lead before the beginning of the log. -/
theorem Aligned.length_window_le {r₀ : Reader δ} (h : r.Aligned log) (hscans : r.Scans r₀) :
    r₀.window.toList.length ≤ r₀.offset := by
  cases hscans with
  | @rejected d hmode hverdict =>
    obtain ⟨begins, -, hle, ⟨output, hdriven⟩, hshows⟩ := h.within d hmode
    have hshows' := shows_fed (d := d) (h.input_within hle) hshows
    have htaken := add_length_used_le (d := d) (h.input_within hle) hdriven.taken_le
    have hoffset : (r.fed d).offset = r.offset + (r.used d).length := rfl
    rw [Window.length_toList, hshows'.total_eq, List.length_take_of_le htaken, hoffset]
    omega
  | trailing hmode => exact Nat.zero_le _
  | searching hmode =>
    rw [(h.resync _ _ hmode).1]
    exact Nat.zero_le _

/-- An error is placed in what was read. -/
theorem Aligned.failedAt_le (h : r.Aligned log) (hanswers : Answers (r, f) polled) {failedAt : Nat}
    (hcorrupt : polled.outcome = .error (.corrupt failedAt)) : failedAt ≤ log.length := by
  cases hanswers with
  | ready hpending => cases hcorrupt
  | failed hpending hstep hread => cases hcorrupt
  | idle hpending hstep hread htail hstopped => cases hcorrupt
  | finish hpending hstep hread hover =>
    unfold Reader.finishInput at hcorrupt
    split at hcorrupt
    · split at hcorrupt <;> cases hcorrupt
    · rename_i hmode
      split at hcorrupt
      · cases hcorrupt
      · cases hcorrupt
        exact (h.resync _ _ hmode).2
    · cases hcorrupt

/-- A reader that was polled and read from, and whose pending bytes were taken, in any order and
from a source that may grow meanwhile. `source` is all that the source brought so far. -/
inductive Reached (config : ReaderConfig) : Reader δ → Feed → Bytes → Prop where
  | fresh (f : Feed) : Reached config { config } f f.content
  | poll {r : Reader δ} {f : Feed} {source : Bytes} (h : Reached config r f source) :
      Reached config (r.poll f).reader (r.poll f).feed source
  | read {r : Reader δ} {f : Feed} {source : Bytes} (h : Reached config r f source) (room : Nat) :
      Reached config (r.read f room).2.1 (r.read f room).2.2 source
  | take {r : Reader δ} {f : Feed} {source : Bytes} (h : Reached config r f source) (room : Nat) :
      Reached config (r.takePending room).2 f source
  | grow {r : Reader δ} {f : Feed} {source : Bytes} (h : Reached config r f source)
      (events : List Event) :
      Reached config r (f.append events) (source ++ events.flatMap Event.bytes)
  | stop {r : Reader δ} {f : Feed} {source : Bytes} (h : Reached config r f source) :
      Reached config r f.stop source

theorem Reached.placed {config : ReaderConfig} (h : Reached config r f source) :
    Placed source (r, f) := by
  induction h with
  | fresh f => exact ⟨[], rfl, .fresh config⟩
  | poll _ ih => exact ih.poll
  | read _ room ih => exact ih.read room
  | take _ room ih => exact ih.take room
  | grow _ events ih =>
    obtain ⟨log, rfl, haligned⟩ := ih
    exact ⟨log, by rw [Feed.content_append, List.append_assoc], haligned⟩
  | stop _ ih => exact ih

/-- In every state, and in every pass of the next poll, the reader holds what it has to of the bytes
that were read: as input those from the offset on, in the window of a stream those before it. -/
theorem Reached.aligned_of_passes {config : ReaderConfig} (h : Reached config r f source)
    (hpasses : Passes (r, f) (r', f')) :
    ∃ log, source = log ++ f'.content ∧ r'.offset ≤ log.length ∧ r'.input = log.drop r'.offset ∧
      (∀ d, r'.mode = .inflating d → ∃ begins output, magic <+: log.drop begins ∧
        Driven (log.drop begins) (r'.offset - begins) output d ∧ r'.SeesBack log begins) ∧
      (∀ r₀, r'.Scans r₀ → r₀.window.toList.length ≤ r₀.offset) ∧
      ∀ polled failedAt, Answers (r', f') polled →
        polled.outcome = .error (.corrupt failedAt) → failedAt ≤ log.length := by
  obtain ⟨log, hsource, haligned⟩ := h.placed.of_passes hpasses
  refine ⟨log, hsource, haligned.offset_le, haligned.input_eq, ?_, ?_, ?_⟩
  · intro d hmode
    obtain ⟨begins, hwithin⟩ := haligned.within d hmode
    obtain ⟨output, hdriven⟩ := hwithin.driven
    exact ⟨begins, output, hwithin.magic_prefix, hdriven, hwithin.seesBack⟩
  · exact fun r₀ hscans => haligned.length_window_le hscans
  · exact fun polled failedAt hanswers => haligned.failedAt_le hanswers

/-- The header of a damaged stream is about to be gone back over. -/
theorem Reached.aligned_of_passes_damagedLog :
    let fresh : Reader HeaderOnly := {}
    let f : Feed := ⟨[.data damagedLog], false, false⟩
    ∃ r f' r₀, Reached {} fresh f damagedLog ∧ Passes (fresh, f) (r, f') ∧ r.Scans r₀ ∧
      r₀.offset = 12 ∧ r₀.window.toList.length ≤ r₀.offset := by
  intro fresh f
  let received : Reader HeaderOnly := { input := damagedLog }
  let r : Reader HeaderOnly := received.startStream
  have hpasses : Passes (fresh, f) (r, ⟨[], false, false⟩) :=
    .tail (.single (.receive rfl rfl rfl)) (.step (r := received) rfl rfl)
  have hscans : r.Scans (r.fed Decoder.start) := .rejected rfl rfl
  have hreached : Reached {} fresh f damagedLog := .fresh f
  obtain ⟨log, -, -, -, -, hback, -⟩ := hreached.aligned_of_passes hpasses
  exact ⟨r, _, _, hreached, hpasses, hscans, rfl, hback _ hscans⟩

end Reader

end RunLog
