import RunLog.Reader.Progress

/-! # Reading from a reader

A poll decodes as much as the input at hand allows and reads on until something is decoded, nothing
is there, or the log is over. A read waits for that. Both end, since each step lowers the rank of
the reader and each read of the feed uses up a part of it. -/

namespace RunLog

/-- What a poll that does not fail finds. -/
inductive Fill where
  /-- Decoded bytes are pending. -/
  | ready
  /-- Nothing is there yet; only while tailing. -/
  | idle
  | ended
deriving DecidableEq, Repr

structure Polled (δ : Type) where
  outcome : Except LogError Fill
  reader : Reader δ
  feed : Feed

namespace Reader

variable {δ : Type} [Decoder δ]

omit [Decoder δ] in
theorem room_pos (r : Reader δ) : 0 < r.room :=
  Nat.lt_of_lt_of_le (by decide) (Nat.le_max_right _ Marker.maxLength)

/-- Steps until something is decoded or more input is needed. -/
def settle (r : Reader δ) : Reader δ :=
  if r.pending.isEmpty then
    match _step : r.step? with
    | some next => settle next
    | none => r
  else r
termination_by r.stepRank
decreasing_by exact step_lt _step

/-- The end of the feed, when no more is waited for. -/
def finishInput (r : Reader δ) (f : Feed) : Polled δ :=
  match r.mode with
  | .start =>
    if r.input.isEmpty then ⟨.ok .ended, r, f⟩
    else
      ⟨.ok .ready,
        { r with
          mode := .raw
          offset := r.offset + r.input.length
          pending := r.pending ++ r.input
          input := [] }, f⟩
  | .resync failedAt true =>
    if f.stopped then ⟨.ok .ended, r, f⟩ else ⟨.error (.corrupt failedAt), r, f⟩
  | _ => ⟨.ok .ended, r, f⟩

/-- Decodes and reads, without waiting, until something is decoded. -/
def poll (r : Reader δ) (f : Feed) : Polled δ :=
  let r := r.settle
  if r.pending.isEmpty then
    match _read : f.read r.room with
    | (.data bytes, f) => poll { r with input := r.input ++ bytes } f
    | (.interrupted, f) => poll r f
    | (.fault fault, f) => ⟨.error (.io fault), r, f⟩
    | (.none, f) =>
      if r.config.tail && !f.stopped then ⟨.ok .idle, r, f⟩ else r.finishInput f
  else ⟨.ok .ready, r, f⟩
termination_by f.weight
decreasing_by
  all_goals exact Feed.weight_read_lt (room_pos _) _read (by simp)

omit [Decoder δ] in
@[simp] theorem feed_finishInput (r : Reader δ) (f : Feed) : (r.finishInput f).feed = f := by
  unfold finishInput
  split
  · split <;> rfl
  · split <;> rfl
  · rfl

theorem weight_poll_le (r : Reader δ) (f : Feed) : (r.poll f).feed.weight ≤ f.weight := by
  fun_induction poll r f with
  | case1 r f settled hpending bytes f' hread ih =>
    exact Nat.le_trans ih (Feed.weight_read_le hread)
  | case2 r f settled hpending f' hread ih => exact Nat.le_trans ih (Feed.weight_read_le hread)
  | case3 r f settled hpending fault f' hread => exact Feed.weight_read_le hread
  | case4 r f settled hpending f' hread hidle => exact Feed.weight_read_le hread
  | case5 r f settled hpending f' hread hidle =>
    rw [feed_finishInput]
    exact Feed.weight_read_le hread
  | case6 r f settled hpending => exact Nat.le_refl _

/-- Polls until something is found. While tailing, a wait lasts until there is more or someone asks
the run to stop. With the feed used up and the flag down neither ever happens; such a wait is cut
short here, and the answer is that nothing is there yet. -/
def await (r : Reader δ) (f : Feed) : Polled δ :=
  let polled := r.poll f
  match polled.outcome with
  | .ok .idle => if polled.feed.weight < f.weight then polled.reader.await polled.feed else polled
  | _ => polled
termination_by f.weight

theorem weight_await_le (r : Reader δ) (f : Feed) : (r.await f).feed.weight ≤ f.weight := by
  fun_induction await r f with
  | case1 r f polled hidle hlt ih => exact Nat.le_trans ih (Nat.le_of_lt hlt)
  | case2 r f polled hidle hge => exact weight_poll_le r f
  | case3 r f polled hfound => exact weight_poll_le r f

/-- Takes the first pending bytes. -/
def takePending (r : Reader δ) (room : Nat) : Bytes × Reader δ :=
  (r.pending.take room, { r with pending := r.pending.drop room })

/-- Reads at most `room` bytes; none at the end, or once the run is asked to stop. While tailing, a
feed that is used up with the flag down is answered as the end, too, where a read would wait on
without end. -/
def read (r : Reader δ) (f : Feed) (room : Nat) : Except LogError Bytes × Reader δ × Feed :=
  let taken := fun (r : Reader δ) f =>
    let (bytes, r) := r.takePending room
    (.ok bytes, r, f)
  if !r.pending.isEmpty then taken r f
  else if f.stopped then (.ok [], r, f)
  else
    let polled := r.await f
    match polled.outcome with
    | .ok .ready => taken polled.reader polled.feed
    | .ok _ => (.ok [], polled.reader, polled.feed)
    | .error e => (.error e, polled.reader, polled.feed)

end Reader

end RunLog
