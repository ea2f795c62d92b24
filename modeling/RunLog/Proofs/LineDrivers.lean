import RunLog.Proofs.AllLines
import RunLog.Xz.Progress

/-! # Reading and polling agree

The lines of a log can be pulled by reads, which wait and give out a piece at a time, or poll by
poll, all that is pending at once. Both give the same lines over the same feed, with the same
failure behind them. -/

namespace RunLog

namespace Feed

/-- Every fault is one of the source itself, not corruption that another reader found. -/
def OwnFaults (f : Feed) : Prop := ∀ offset, .fault (.corrupt offset) ∉ f.events

theorem OwnFaults.of_leaves {f f' : Feed} (hf : f.OwnFaults) (h : f.Leaves f') : f'.OwnFaults :=
  fun offset hmem => hf offset (h.mem_of_mem hmem (by simp))

/-- A read that fails meets a fault of the feed. -/
theorem mem_of_read_fault {f f' : Feed} {room : Nat} {fault : Fault}
    (h : f.read room = (.fault fault, f')) : .fault fault ∈ f.events := by
  obtain ⟨events, stopAtEnd, stopped⟩ := f
  unfold read at h
  dsimp only at h ⊢
  induction events generalizing stopped with
  | nil => cases h
  | cons e rest ih =>
    cases e with
    | data bytes =>
      rw [readFrom] at h
      split at h
      · exact List.mem_cons_of_mem _ (ih stopped h)
      · cases h
      · cases h
    | idle => cases h
    | interrupt => cases h
    | fault fault' =>
      simp only [readFrom, Prod.mk.injEq, Answer.fault.injEq] at h
      rw [h.1]
      exact List.mem_cons_self
    | stop => exact List.mem_cons_of_mem _ (ih true h)

end Feed

namespace Reader

variable {δ : Type} [Decoder δ] {r : Reader δ} {f : Feed}

/-! ## What a poll finds -/

omit [Decoder δ] in
theorem finishInput_ne_idle (r : Reader δ) (f : Feed) : (r.finishInput f).outcome ≠ .ok .idle := by
  unfold finishInput
  split
  · split <;> simp
  · split <;> simp
  · simp

theorem pending_of_ready (h : (r.poll f).outcome = .ok .ready) :
    (r.poll f).reader.pending ≠ [] := by
  fun_induction poll r f with
  | case1 r f settled hpending bytes f' hread ih => exact ih h
  | case2 r f settled hpending f' hread ih => exact ih h
  | case3 r f settled hpending fault f' hread => cases h
  | case4 r f settled hpending f' hread hidle => cases h
  | case5 r f settled hpending f' hread hidle =>
    revert h
    unfold finishInput
    split
    · split
      · simp
      · simp_all
    · split <;> simp
    · simp
  | case6 r f settled hpending => simpa using hpending

theorem pending_of_not_ready (h : (r.poll f).outcome ≠ .ok .ready) : r.pending = [] := by
  by_cases hpending : r.pending = []
  · exact hpending
  · rw [poll_of_pending hpending] at h
    exact absurd rfl h

/-- A poll is idle only when nothing is pending, and only until the run is asked to stop. -/
theorem poll_idle (h : (r.poll f).outcome = .ok .idle) :
    (r.poll f).reader.pending = [] ∧ (r.poll f).feed.stopped = false := by
  fun_induction poll r f with
  | case1 r f settled hpending bytes f' hread ih => exact ih h
  | case2 r f settled hpending f' hread ih => exact ih h
  | case3 r f settled hpending fault f' hread => cases h
  | case4 r f settled hpending f' hread hidle =>
    exact ⟨List.isEmpty_iff.mp hpending, by simpa using (Bool.and_eq_true_iff.mp hidle).2⟩
  | case5 r f settled hpending f' hread hidle => exact absurd h (finishInput_ne_idle _ _)
  | case6 r f settled hpending => cases h

/-- A poll fails because the log is corrupt, or with a fault of the feed. -/
theorem poll_error {e : LogError} (h : (r.poll f).outcome = .error e) :
    (∃ offset, e = .corrupt offset) ∨ ∃ fault, e = .io fault ∧ .fault fault ∈ f.events := by
  fun_induction poll r f with
  | case1 r f settled hpending bytes f' hread ih =>
    rcases ih h with hcorrupt | ⟨fault, he, hmem⟩
    · exact .inl hcorrupt
    · exact .inr ⟨fault, he, (Feed.leaves_read hread).mem_of_mem hmem (by simp)⟩
  | case2 r f settled hpending f' hread ih =>
    rcases ih h with hcorrupt | ⟨fault, he, hmem⟩
    · exact .inl hcorrupt
    · exact .inr ⟨fault, he, (Feed.leaves_read hread).mem_of_mem hmem (by simp)⟩
  | case3 r f settled hpending fault f' hread =>
    cases h
    exact .inr ⟨fault, rfl, Feed.mem_of_read_fault hread⟩
  | case4 r f settled hpending f' hread hidle => cases h
  | case5 r f settled hpending f' hread hidle =>
    left
    revert h
    unfold finishInput
    split
    · split <;> simp
    · split
      · simp
      · rintro ⟨⟩
        exact ⟨_, rfl⟩
    · simp
  | case6 r f settled hpending => cases h

/-! ## What a read finds -/

theorem read_of_pending (h : r.pending ≠ []) (room : Nat) :
    r.read f room = (.ok (r.pending.take room), { r with pending := r.pending.drop room }, f) := by
  unfold read
  dsimp only
  rw [if_pos (by simpa using h)]
  rfl

theorem read_of_stopped (h : r.pending = []) (hf : f.stopped = true) (room : Nat) :
    r.read f room = (.ok [], r, f) := by
  unfold read
  dsimp only
  rw [if_neg (by simp [h]), if_pos hf]

/-- With nothing pending, a read waits. -/
theorem read_of_await (h : r.pending = []) (hf : f.stopped = false) (room : Nat) :
    r.read f room =
      match (r.await f).outcome with
      | .ok .ready =>
        (.ok ((r.await f).reader.pending.take room),
          { (r.await f).reader with pending := (r.await f).reader.pending.drop room },
          (r.await f).feed)
      | .ok _ => (.ok [], (r.await f).reader, (r.await f).feed)
      | .error e => (.error e, (r.await f).reader, (r.await f).feed) := by
  unfold read
  dsimp only
  rw [if_neg (by simp [h]), if_neg (by simp [hf])]
  rfl

theorem await_of_not_idle (h : (r.poll f).outcome ≠ .ok .idle) : r.await f = r.poll f := by
  rw [await]
  split <;> simp_all

theorem await_of_idle (h : (r.poll f).outcome = .ok .idle) :
    r.await f = if (r.poll f).feed.weight < f.weight then
      (r.poll f).reader.await (r.poll f).feed else r.poll f := by
  rw [await]
  simp only [h]

end Reader

namespace Blocking

variable {δ : Type} [Decoder δ] {r : Reader δ} {f : Feed}

theorem pull_def (r : Reader δ) (f : Feed) : Chunked.pull (Blocking.mk r) f =
    match r.read f Direct.chunkSize with
    | (.ok [], r, f) => .ended ⟨r⟩ f
    | (.ok (b :: bytes), r, f) => .data (b :: bytes) ⟨r⟩ f
    | (.error e, r, f) => .failed (.ofFault e.toFault) ⟨r⟩ f := rfl

/-- What is pending comes first, in pieces. -/
theorem drained_eq_after (r : Reader δ) (f : Feed) :
    drained (Blocking.mk r) f =
      (drained (Blocking.mk { r with pending := [] }) f).after r.pending := by
  induction hlength : r.pending.length using Nat.strongRecOn generalizing r with
  | ind n ih =>
    cases hpending : r.pending with
    | nil =>
      have hr : { r with pending := [] } = r := by rw [← hpending]
      rw [hr]
      rfl
    | cons b rest =>
      have hne : r.pending ≠ [] := by simp [hpending]
      have hpull : Chunked.pull (Blocking.mk r) f = .data (r.pending.take Direct.chunkSize)
          ⟨{ r with pending := r.pending.drop Direct.chunkSize }⟩ f := by
        rw [pull_def, Reader.read_of_pending hne, hpending]
        rfl
      have hlt : (r.pending.drop Direct.chunkSize).length < n := by
        rw [← hlength, List.length_drop, hpending, List.length_cons, Direct.chunkSize]
        omega
      have hrest := ih _ hlt { r with pending := r.pending.drop Direct.chunkSize } rfl
      rw [drained_eq, hpull, ← hpending]
      simp only [hrest, Drained.after_after, List.take_append_drop]

/-- After a poll that finds something, a pull gives what it would have given before. -/
theorem pull_of_ready (h : (r.poll f).outcome = .ok .ready)
    (hopen : r.pending = [] → f.stopped = false) :
    Chunked.pull (Blocking.mk r) f =
      Chunked.pull (Blocking.mk (r.poll f).reader) (r.poll f).feed := by
  by_cases hpending : r.pending = []
  · have hawait : r.await f = r.poll f := Reader.await_of_not_idle (by simp [h])
    rw [pull_def, pull_def, Reader.read_of_await hpending (hopen hpending), hawait, h,
      Reader.read_of_pending (Reader.pending_of_ready h)]
  · rw [Reader.poll_of_pending hpending]

/-- A pull goes on waiting after a poll that finds nothing yet. -/
theorem pull_of_idle (h : (r.poll f).outcome = .ok .idle) (hpending : r.pending = [])
    (hf : f.stopped = false) (hlt : (r.poll f).feed.weight < f.weight) :
    Chunked.pull (Blocking.mk r) f =
      Chunked.pull (Blocking.mk (r.poll f).reader) (r.poll f).feed := by
  have hidle := Reader.poll_idle h
  rw [pull_def, pull_def, Reader.read_of_await hpending hf,
    Reader.read_of_await hidle.1 hidle.2, Reader.await_of_idle h, if_pos hlt]

/-- Where a poll is all there is to wait for and finds nothing, the log ends. -/
theorem drained_of_await (hpending : r.pending = []) (hf : f.stopped = false)
    (hawait : r.await f = r.poll f) (hready : (r.poll f).outcome ≠ .ok .ready) :
    drained (Blocking.mk r) f =
      match (r.poll f).outcome with
      | .ok _ => {}
      | .error e => { failure := some (.ofFault e.toFault) } := by
  rw [drained_eq, pull_def, Reader.read_of_await hpending hf, hawait]
  rcases houtcome : (r.poll f).outcome with e | fill
  · rfl
  · cases fill with
    | ready => exact absurd houtcome hready
    | idle => rfl
    | ended => rfl

end Blocking

namespace Polling

variable {δ : Type} [Decoder δ] {p : Polling δ} {f : Feed}

theorem pull_of_stopped (h : p.reader.pending = []) (hf : f.stopped = true) :
    Chunked.pull p f = .ended p f := by
  simp [Chunked.pull, pull, h, hf]

/-- A pull that is not kept from it polls. -/
theorem pull_eq (h : ¬(p.reader.pending = [] ∧ f.stopped = true)) :
    Chunked.pull p f =
      match (p.reader.poll f).outcome with
      | .ok .ready =>
        .data (p.reader.poll f).reader.pending
          ⟨{ (p.reader.poll f).reader with pending := [] }⟩ (p.reader.poll f).feed
      | .ok .idle =>
        if (p.reader.poll f).feed.weight < f.weight then
          .again ⟨(p.reader.poll f).reader⟩ (p.reader.poll f).feed
        else .ended ⟨(p.reader.poll f).reader⟩ (p.reader.poll f).feed
      | .ok .ended => .ended ⟨(p.reader.poll f).reader⟩ (p.reader.poll f).feed
      | .error e => .failed e ⟨(p.reader.poll f).reader⟩ (p.reader.poll f).feed := by
  simp only [Chunked.pull, pull]
  exact (if_neg (by simpa [and_comm] using h)).trans rfl

/-- Polled or read, a reader gives the same bytes and fails with the same error. -/
theorem drained_eq_blocking (p : Polling δ) (f : Feed) (hf : f.OwnFaults) :
    drained p f = drained (Blocking.mk p.reader) f := by
  by_cases hclosed : p.reader.pending = [] ∧ f.stopped = true
  · rw [drained_eq, pull_of_stopped hclosed.1 hclosed.2, drained_eq, Blocking.pull_def,
      Reader.read_of_stopped hclosed.1 hclosed.2]
  have hopen : p.reader.pending = [] → f.stopped = false := by simpa using hclosed
  have hpull := pull_eq hclosed
  have hf' := hf.of_leaves (p.reader.leaves_poll f)
  have hend (hready : (p.reader.poll f).outcome ≠ .ok .ready)
      (hawait : p.reader.await f = p.reader.poll f) :=
    have hpending := Reader.pending_of_not_ready hready
    Blocking.drained_of_await hpending (hopen hpending) hawait hready
  cases houtcome : (p.reader.poll f).outcome with
  | error e =>
    have he : LogError.ofFault e.toFault = e := by
      rcases Reader.poll_error houtcome with ⟨offset, rfl⟩ | ⟨fault, rfl, hmem⟩
      · rfl
      · cases fault with
        | plain kind text => rfl
        | corrupt offset => exact absurd hmem (hf offset)
    rw [houtcome] at hpull
    have hawait : p.reader.await f = p.reader.poll f :=
      Reader.await_of_not_idle (by simp [houtcome])
    rw [drained_eq, hpull, hend (by simp [houtcome]) hawait, houtcome]
    simp only [he]
  | ok fill =>
    rw [houtcome] at hpull
    cases fill with
    | ready =>
      have ih := drained_eq_blocking ⟨{ (p.reader.poll f).reader with pending := [] }⟩
        (p.reader.poll f).feed hf'
      have hsame : drained (Blocking.mk p.reader) f =
          drained (Blocking.mk (p.reader.poll f).reader) (p.reader.poll f).feed := by
        rw [drained_eq, Blocking.pull_of_ready houtcome hopen, ← drained_eq]
      rw [drained_eq, hpull, hsame, Blocking.drained_eq_after]
      simp only [ih]
    | idle =>
      have hpending := Reader.pending_of_not_ready (r := p.reader) (f := f) (by simp [houtcome])
      by_cases hlt : (p.reader.poll f).feed.weight < f.weight
      · have hagain := hpull.trans (if_pos hlt)
        have ih := drained_eq_blocking ⟨(p.reader.poll f).reader⟩ (p.reader.poll f).feed hf'
        have hsame : drained (Blocking.mk p.reader) f =
            drained (Blocking.mk (p.reader.poll f).reader) (p.reader.poll f).feed := by
          rw [drained_eq, Blocking.pull_of_idle houtcome hpending (hopen hpending) hlt,
            ← drained_eq]
        rw [drained_eq, hagain, hsame]
        exact ih
      · have hawait := (Reader.await_of_idle houtcome).trans (if_neg hlt)
        rw [drained_eq, hpull.trans (if_neg hlt), hend (by simp [houtcome]) hawait, houtcome]
    | ended =>
      have hawait : p.reader.await f = p.reader.poll f :=
        Reader.await_of_not_idle (by simp [houtcome])
      rw [drained_eq, hpull, hend (by simp [houtcome]) hawait, houtcome]
termination_by Ranked.rank p f
decreasing_by
  · exact Chunked.below_of_data hpull
  · exact Chunked.below_of_again hagain

/-- Called again and again for the next line, both give the same lines, with the same positions and
failures, and none ever after. -/
theorem answers_agree_with_blocking (config : ReaderConfig) (f : Feed) (hf : f.OwnFaults) :
    ∃ lines : List BoundedLine, ∀ n,
      (Lines.start (⟨{ config }⟩ : Polling δ) config.maxLineBytes).answers f n =
        (lines.map some ++ List.replicate n none).take n ∧
      (Lines.start (⟨{ config }⟩ : Blocking δ) config.maxLineBytes).answers f n =
        (lines.map some ++ List.replicate n none).take n := by
  have hall : (Lines.start (⟨{ config }⟩ : Polling δ) config.maxLineBytes).all f =
      (Lines.start (⟨{ config }⟩ : Blocking δ) config.maxLineBytes).all f := by
    rw [Lines.start, Lines.start, Lines.all_eq_drained, Lines.all_eq_drained,
      drained_eq_blocking _ f hf]
  refine ⟨(Lines.start (⟨{ config }⟩ : Blocking δ) config.maxLineBytes).all f, fun n => ⟨?_, ?_⟩⟩
  · rw [Lines.answers_eq, hall]
  · rw [Lines.answers_eq]

/-- A growing log with nothing there for a while, stopped in the middle of a line, and failing
later. -/
def interruptedFeed : Feed where
  events :=
    [.data (Text.toBytes "TEST,\"a\"\nSTOP"), .idle, .interrupt, .data [], .stop,
      .data (Text.toBytes ",\"b\""), .fault (.plain .other "device not ready")]

theorem answers_agree_with_blocking_interrupted :
    interruptedFeed.OwnFaults ∧
    ∃ lines : List BoundedLine, ∀ n,
      (Lines.start (⟨{ config := { tail := true } }⟩ : Polling Xz.Decoder)
        (16 * 1024 * 1024)).answers interruptedFeed n =
        (lines.map some ++ List.replicate n none).take n ∧
      (Lines.start (⟨{ config := { tail := true } }⟩ : Blocking Xz.Decoder)
        (16 * 1024 * 1024)).answers interruptedFeed n =
        (lines.map some ++ List.replicate n none).take n := by
  have hfaults : interruptedFeed.OwnFaults := by simp [Feed.OwnFaults, interruptedFeed]
  exact ⟨hfaults, answers_agree_with_blocking { tail := true } interruptedFeed hfaults⟩

end Polling

end RunLog
