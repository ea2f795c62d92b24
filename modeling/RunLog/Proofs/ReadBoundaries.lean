import RunLog.Proofs.ReaderPassage

/-! # Read boundaries do not matter

With a steady decoder, what a reader makes of a log is told by the bytes alone: however they are cut
into reads, whatever is asked for at a time, the output, the outcome and whether the log is plain
are the same. A reader that waits gives what it would give of the bytes that it received, had these
been all, and never takes anything of this back. -/

namespace RunLog

open Marker Decoder

variable {δ : Type} [Decoder δ]

/-- A way in which a whole log may reach a reader that does not wait, and be asked for. -/
structure Delivery (log : Bytes) where
  config : ReaderConfig
  feed : Feed
  /-- The sizes of the buffers. -/
  rooms : Nat → ℕ+
  tail_eq : config.tail = false
  holds : feed.Holds log

/-- What a fresh reader makes of a log that reaches it so. -/
def Delivery.reading (δ : Type) [Decoder δ] {log : Bytes} (c : Delivery log) : Reading :=
  ({ config := c.config } : Reader δ).readAll c.feed c.rooms

namespace Snapshot

variable {x z : Snapshot δ} {φ : LogPhase} {out : Bytes}

/-- What is read on from some place settles the log. -/
theorem Follows.readAll (h : x.Follows φ out) (htail : x.reader.config.tail = false) {f : Feed}
    {rest : Bytes} (hf : f.Supplies false rest) (rooms : Nat → ℕ+) :
    ∃ c, Relation.ReflTransGen (Leads δ (x.received ++ rest)) (.start, []) c ∧
      Settled δ (x.received ++ rest) c ((x.reader.readAll f rooms).after x.given) := by
  obtain ⟨z, hmoves, hrests, hreceived, hreading⟩ := moves_readAll htail hf rooms
  obtain ⟨φ', out', hpassage, hat⟩ := h.moves hmoves
  rw [← hreceived, hreading]
  exact ⟨(φ', out'), hpassage, hat.settled hrests⟩

/-- A reader that rests gave out all that comes of the bytes it received, unless these are too few
to tell what they are. -/
theorem Follows.given_eq (h : x.Follows φ out) (hrests : x.Rests) :
    x.given = if x.received ≠ [] ∧ Short x.received then [] else x.conclusion.output := by
  obtain ⟨hpassage, hat⟩ := h
  have hgiven : x.emitted = x.given := by
    rw [emitted, hrests.pending_eq, List.append_nil]
  have hsettled := hat.settled hrests
  split
  · rename_i hshort
    rcases hpassage.cases_head with heq | ⟨_, hleads, _⟩
    · cases heq
      cases hat with
      | start hmode hoffset hinput hemitted => rw [← hgiven, hemitted]
    · exact absurd hleads (Leads.not_of_short hshort.2)
  · rename_i hlong
    cases hat with
    | start hmode hoffset hinput hemitted =>
      have hnil : x.received = [] := by
        by_contra hne
        exact hlong ⟨hne, hsettled.short⟩
      simp [conclusion, hmode, hinput, hnil]
    | inflating hmode => simp [conclusion, hmode]
    | between hmode => simp [conclusion, hmode]
    | raw hmode => simp [conclusion, hmode]
    | @resync _ _ _ fatal _ hmode => cases fatal <;> simp [conclusion, hmode]

end Snapshot

namespace Delivery

variable {log : Bytes}

theorem settles (c : Delivery log) :
    ∃ c', Relation.ReflTransGen (Leads δ log) (.start, []) c' ∧
      Settled δ log c' (c.reading δ) :=
  (Snapshot.Follows.fresh c.config).readAll c.tail_eq (c.holds.supplies false) c.rooms

/-- What comes of the bytes comes of every reading of them. -/
theorem reading_eq (hδ : Steady δ) (c : Delivery log) {c' : LogPhase × Bytes} {reading : Reading}
    (hpassage : Relation.ReflTransGen (Leads δ log) (.start, []) c')
    (hsettled : Settled δ log c' reading) : c.reading δ = reading := by
  obtain ⟨c'', hpassage', hsettled'⟩ := c.settles (δ := δ)
  exact Settled.unique hδ hpassage' hsettled' hpassage hsettled

end Delivery

/-! ## Waiting for a growing log -/

/-- A reader that waits for a growing log: what was appended to it, and what the reader gave out. -/
structure TailingSession (δ : Type) where
  reader : Reader δ
  feed : Feed := ⟨[], false, false⟩
  appended : Bytes := []
  given : Bytes := []

namespace TailingSession

def append (s : TailingSession δ) (events : List Event) (bytes : Bytes) : TailingSession δ :=
  { s with feed := s.feed.append events, appended := s.appended ++ bytes }

def poll (s : TailingSession δ) : TailingSession δ :=
  { s with reader := (s.reader.poll s.feed).reader, feed := (s.reader.poll s.feed).feed }

def take (s : TailingSession δ) (room : Nat) : TailingSession δ :=
  { s with
    reader := (s.reader.takePending room).2
    given := s.given ++ (s.reader.takePending room).1 }

inductive Act : TailingSession δ → TailingSession δ → Prop where
  /-- The log grows by these bytes; reads may be interrupted and may find nothing in between. -/
  | append (s : TailingSession δ) {events : List Event} {bytes : Bytes}
      (h : Event.Supply true events bytes) : Act s (s.append events bytes)
  | poll (s : TailingSession δ) : Act s s.poll
  | take (s : TailingSession δ) (room : Nat) : Act s (s.take room)

/-- What can become of a fresh reader and an empty log. -/
def Reaches (config : ReaderConfig) (s : TailingSession δ) : Prop :=
  Relation.ReflTransGen Act { reader := { config } } s

/-- The reader of the session made moves from a fresh one on, and received all but what is left of
the feed. -/
structure Tracks (config : ReaderConfig) (s : TailingSession δ) (z : Snapshot δ) (later : Bytes) :
    Prop where
  moves : Snapshot.Moves ⟨{ config }, [], []⟩ z
  reader_eq : s.reader = z.reader
  given_eq : s.given = z.given
  appended_eq : s.appended = z.received ++ later
  supplies : s.feed.Supplies true later

/-- The reader received this, with so much of the log still to come, gave out what comes of it, and
will not have to take anything back. What is too short to be told apart it keeps to itself. -/
structure CaughtUp (s : TailingSession δ) (received later : Bytes) : Prop where
  appended_eq : s.appended = received ++ later
  supplies : s.feed.Supplies true later
  pending_eq : s.reader.pending = []
  given_eq : ∀ c : Delivery received,
    s.given = if received ≠ [] ∧ Short received then [] else (c.reading δ).output
  given_prefix : ∀ log, received <+: log → ∀ c : Delivery log, s.given <+: (c.reading δ).output

variable {config : ReaderConfig} {s s' : TailingSession δ} {z : Snapshot δ} {later : Bytes}

theorem Tracks.poll (htail : config.tail = true) (h : Tracks config s z later) :
    ∃ z' later', Tracks config s.poll z' later' ∧
      ((s.reader.poll s.feed).outcome = .ok .idle → z'.Rests) := by
  have hconfig : z.reader.config.tail = true := by rw [h.moves.config_eq, htail]
  obtain ⟨z', later', hmoves, hgiven, hreceived, hends⟩ := Snapshot.moves_poll hconfig h.supplies
  rw [← h.reader_eq] at hends
  have happended : s.poll.appended = z'.received ++ later' := h.appended_eq.trans hreceived.symm
  have hgiven' : s.poll.given = z'.given := h.given_eq.trans hgiven.symm
  refine ⟨z', later', ?_⟩
  unfold TailingSession.poll at *
  generalize s.reader.poll s.feed = polled at *
  cases hends with
  | ready hpending hf =>
    exact ⟨⟨h.moves.trans hmoves, rfl, hgiven', happended, hf⟩, nofun⟩
  | idle _ hrests hf =>
    exact ⟨⟨h.moves.trans hmoves, rfl, hgiven', happended, hf⟩, fun _ => hrests⟩
  | atEnd hfalse => cases hfalse

theorem Tracks.act (htail : config.tail = true) (h : Tracks config s z later) (hact : Act s s') :
    ∃ z' later', Tracks config s' z' later' := by
  cases hact with
  | append hevents =>
    refine ⟨z, later ++ _, h.moves, h.reader_eq, h.given_eq, ?_, h.supplies.append hevents⟩
    rw [← List.append_assoc, ← h.appended_eq]
    rfl
  | poll =>
    obtain ⟨z', later', htracks, -⟩ := h.poll htail
    exact ⟨z', later', htracks⟩
  | take room =>
    refine ⟨z.give room, later, h.moves.tail (.give z room), ?_, ?_, h.appended_eq, h.supplies⟩
    · simp only [take, Snapshot.give, h.reader_eq]
    · simp only [take, Snapshot.give, h.reader_eq, h.given_eq]

theorem Reaches.tracks (htail : config.tail = true) (h : Reaches config s) :
    ∃ z later, Tracks config s z later := by
  induction h with
  | refl => exact ⟨_, [], .refl, rfl, rfl, rfl, .nil, rfl, rfl⟩
  | tail _ hact ih =>
    obtain ⟨z, later, htracks⟩ := ih
    exact htracks.act htail hact

theorem Reaches.caughtUp (hδ : Steady δ) (htail : config.tail = true) (h : Reaches config s)
    (hidle : (s.reader.poll s.feed).outcome = .ok .idle) :
    ∃ received later, s.poll.CaughtUp received later := by
  obtain ⟨z, later, htracks⟩ := h.tracks htail
  obtain ⟨z', later', htracks', hrests⟩ := htracks.poll htail
  have hrests := hrests hidle
  obtain ⟨φ, out, hfollows⟩ := (Snapshot.Follows.fresh config).moves htracks'.moves
  refine ⟨z'.received, later', htracks'.appended_eq, htracks'.supplies, ?_, ?_, ?_⟩
  · rw [htracks'.reader_eq, hrests.pending_eq]
  · intro c
    rw [htracks'.given_eq, hfollows.given_eq hrests,
      c.reading_eq hδ hfollows.1 (hfollows.2.settled hrests)]
  · rintro _ ⟨rest, rfl⟩ c
    have hon : Snapshot.Follows (z'.withReader { z'.reader with config := {} }) φ out :=
      ⟨hfollows.1, hfollows.2.withConfig {}⟩
    have hf : Feed.Supplies false ⟨[.data rest], false, false⟩ rest := by
      refine ⟨?_, rfl, rfl⟩
      have hsupply : Event.Supply false _ (rest ++ []) := .data rest .nil
      rwa [List.append_nil] at hsupply
    obtain ⟨c', hpassage, hsettled⟩ := hon.readAll rfl hf (fun _ => 1)
    rw [c.reading_eq hδ hpassage hsettled, htracks'.given_eq]
    exact List.prefix_append _ _

end TailingSession

/-- Read boundaries do not matter, and waiting comes to the same: with a steady decoder any two
readings of a log agree in output, outcome and plainness, and a reader that waits, when it finds
nothing, gave out what comes of the bytes that it received. -/
theorem reading_boundaries (hδ : Steady δ) :
    (∀ (log : Bytes) (c c' : Delivery log), c.reading δ = c'.reading δ ∧
      ((c.reading δ).outcome = .ok () ∨
        ∃ failedAt, (c.reading δ).outcome = .error (.corrupt failedAt))) ∧
      ∀ (config : ReaderConfig) (s : TailingSession δ), config.tail = true → s.Reaches config →
        (s.reader.poll s.feed).outcome = .ok .idle →
          ∃ received later, s.poll.CaughtUp received later := by
  refine ⟨?_, fun config s htail hreaches hidle => hreaches.caughtUp hδ htail hidle⟩
  intro log c c'
  obtain ⟨c'', hpassage, hsettled⟩ := c'.settles (δ := δ)
  rw [c.reading_eq hδ hpassage hsettled]
  exact ⟨rfl, hsettled.outcome_eq⟩

theorem HeaderOnly.poll_damagedLog :
    ({ config := { tail := true } } : Reader HeaderOnly).poll ⟨[.data damagedLog], false, false⟩ =
      ⟨.ok .ready,
        { config := { tail := true }, mode := .raw, offset := 21, pending := damagedLog.drop 14 },
        ⟨[], false, false⟩⟩ := by
  rw [Reader.poll, Reader.settle_of_step?_eq_none rfl]
  show Reader.poll _ ⟨[], false, false⟩ = _
  -- A stream begins, it is rejected and the search finds the record, and this becomes pending.
  rw [Reader.poll, Reader.settle_of_step?_eq_some rfl rfl, Reader.settle_of_step?_eq_some rfl rfl,
    Reader.settle_of_step?_eq_some rfl rfl, Reader.settle_of_pending (by decide)]
  rfl

/-- A damaged log read whole, byte by byte or in two parts, and waited for. -/
theorem reading_boundaries_damagedLog :
    (∃ c c' : Delivery damagedLog,
      c.rooms ≠ c'.rooms ∧ c.feed.events ≠ c'.feed.events ∧
        c.reading HeaderOnly = c'.reading HeaderOnly) ∧
      ∃ s : TailingSession HeaderOnly, s.Reaches { tail := true } ∧
        s.given = damagedLog.drop 14 ∧
          ∃ received later, s.poll.CaughtUp received later := by
  have hsteady := reading_boundaries HeaderOnly.steady
  refine ⟨?_, ?_⟩
  · have hwhole : Event.Carry [.data damagedLog] damagedLog := .data _ .nil
    have hparts : Event.Carry
        [.data (damagedLog.take 3), .interrupt, .data (damagedLog.drop 3)]
        damagedLog := .data _ (.interrupt (.data _ .nil))
    refine ⟨⟨{}, ⟨_, false, false⟩, fun _ => 1, rfl, hwhole, rfl, rfl⟩,
      ⟨{ chunkSize := 1 }, ⟨_, false, false⟩, fun _ => 100, rfl, hparts, rfl, rfl⟩, ?_, by simp,
      (hsteady.1 _ _ _).1⟩
    intro heq
    exact absurd (congrFun heq 0) (show ¬ (1 : ℕ+) = 100 by decide)
  · have happend : Event.Supply true [.data damagedLog] damagedLog :=
      .data _ .nil
    let fresh : TailingSession HeaderOnly := { reader := { config := { tail := true } } }
    let polled : TailingSession HeaderOnly :=
      (fresh.append [.data damagedLog] damagedLog).poll
    have hpolled : polled =
        { reader := { config := { tail := true }, mode := .raw, offset := 21,
                      pending := damagedLog.drop 14 }
          appended := damagedLog } := by
      simp only [polled, TailingSession.poll]
      rw [show (fresh.append _ _).reader.poll (fresh.append _ _).feed = _
        from HeaderOnly.poll_damagedLog]
      rfl
    have hreaches : (polled.take 100).Reaches { tail := true } :=
      .tail (.tail (.tail .refl (.append fresh happend)) (.poll _)) (.take polled 100)
    refine ⟨polled.take 100, hreaches, ?_, hsteady.2 _ _ rfl hreaches ?_⟩
    · rw [hpolled]
      rfl
    · rw [hpolled, Reader.poll, Reader.settle_of_step?_eq_none rfl]
      rfl

end RunLog
