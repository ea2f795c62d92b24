import RunLog.Proofs.LineDrivers
import RunLog.Proofs.ReaderPassage

/-! # Readers on their way through a feed

A reader proceeds move by move, and each receipt reads its feed. On its way, what it has given out
and what it still gives until it ends stay the same together, so a run can be told from any point it
comes to. -/

namespace RunLog

/-- A read that finds nothing and uses nothing up leaves the feed as it is. -/
theorem Feed.eq_of_read_none {f f' : Feed} {room : Nat} (h : f.read room = (.none, f'))
    (hweight : f.weight ≤ f'.weight) (hstopped : f'.stopped = false) : f' = f := by
  obtain ⟨events, stopAtEnd, stopped⟩ := f
  cases events with
  | nil =>
    have hf' : f' = ⟨[], stopAtEnd, stopped || stopAtEnd⟩ := (congrArg Prod.snd h).symm
    obtain ⟨rfl, rfl⟩ : stopped = false ∧ stopAtEnd = false := by simpa [hf'] using hstopped
    exact hf'
  | cons e rest =>
    -- The first event is used up.
    have hrest : ∀ stopped, readFrom room stopAtEnd rest stopped = (.none, f') → False := by
      intro stopped hread
      have hle := weight_readFrom_le room stopAtEnd rest stopped
      rw [hread] at hle
      have hpos : 0 < e.weight := by cases e <;> simp [Event.weight]
      simp only [weight, Event.weights_cons] at hweight hle
      omega
    cases e with
    | data bytes =>
      simp only [read, readFrom] at h
      split at h
      · exact (hrest stopped h).elim
      · cases h
      · cases h
    | idle =>
      cases h
      simp only [weight, Event.weights_cons, Event.weight] at hweight
      omega
    | interrupt => cases h
    | fault fault => cases h
    | stop => exact (hrest true h).elim

namespace Reader

variable {δ : Type} [Decoder δ] {r r' : Reader δ} {f : Feed}

/-! ## Polls that come to the same -/

theorem poll_of_step (hpending : r.pending = []) (hstep : r.step? = some r') :
    r.poll f = r'.poll f := by
  rw [poll, poll, settle_of_step?_eq_some hpending hstep]

/-- With no step left, a poll goes by what a read finds. -/
theorem poll_of_step?_eq_none (hpending : r.pending = []) (hstep : r.step? = none) :
    r.poll f =
      match f.read r.room with
      | (.data bytes, f) => { r with input := r.input ++ bytes }.poll f
      | (.interrupted, f) => r.poll f
      | (.fault fault, f) => ⟨.error (.io fault), r, f⟩
      | (.none, f) =>
        if r.config.tail && !f.stopped then ⟨.ok .idle, r, f⟩ else r.finishInput f := by
  rw [poll, settle_of_step?_eq_none hstep, if_pos (by simp [hpending])]
  split <;> rename_i hread <;> rw [hread]

/-- A poll that is idle and used nothing up is idle again, over the same feed. -/
theorem poll_of_stuck (h : (r.poll f).outcome = .ok .idle)
    (hweight : f.weight ≤ (r.poll f).feed.weight) :
    (r.poll f).feed = f ∧ (r.poll f).reader.poll f = r.poll f := by
  fun_induction poll r f with
  | case1 r f settled hpending bytes f' hread ih =>
    have hlt := Feed.weight_read_lt settled.room_pos hread (by simp)
    have hle := weight_poll_le { settled with input := settled.input ++ bytes } f'
    omega
  | case2 r f settled hpending f' hread ih =>
    have hlt := Feed.weight_read_lt settled.room_pos hread (by simp)
    have hle := weight_poll_le settled f'
    omega
  | case3 r f settled hpending fault f' hread => cases h
  | case4 r f settled hpending f' hread hidle =>
    have hpending : settled.pending = [] := List.isEmpty_iff.mp hpending
    have hstopped : f'.stopped = false := by simpa using (Bool.and_eq_true_iff.mp hidle).2
    obtain rfl := Feed.eq_of_read_none hread hweight hstopped
    have hstep : settled.step? = none :=
      (Snapshot.rests_settle (x := ⟨r, [], []⟩) hpending).step?_eq
    refine ⟨rfl, ?_⟩
    rw [poll_of_step?_eq_none hpending hstep, hread]
    simp only [hidle, if_true]
  | case5 r f settled hpending f' hread hidle => exact absurd h (finishInput_ne_idle _ _)
  | case6 r f settled hpending => cases h

/-! ## What steps do not take back -/

/-- The second reader may have more pending, and is past the start. -/
structure Onward (r r' : Reader δ) : Prop where
  pending_isPrefix : r.pending <+: r'.pending
  mode_ne_start : r'.mode ≠ .start

theorem Onward.resync (h : r.pending <+: r'.pending) (failedAt : Nat) (fatal skipFirst : Bool) :
    Onward r (r'.resync failedAt fatal skipFirst) := by
  unfold Reader.resync
  simp only
  split <;> exact ⟨h, nofun⟩

theorem onward_classify? {other : Reader δ} (h : r.classify? other = some r')
    (hother : Onward r other) : Onward r r' := by
  rcases r.classify?_cases other with ⟨-, hsome⟩ | ⟨-, hsome⟩ | ⟨-, hnone⟩
  · rw [← Option.some.inj (hsome.symm.trans h)]
    exact ⟨List.prefix_refl _, nofun⟩
  · rwa [← Option.some.inj (hsome.symm.trans h)]
  · cases hnone.symm.trans h

theorem onward_inflate? {d : δ} (h : r.inflate? d = some r') : Onward r r' := by
  rw [inflate?_eq] at h
  split at h
  · split at h
    · cases h
    · rw [← Option.some.inj h]
      exact ⟨List.prefix_append _ _, nofun⟩
  · rw [← Option.some.inj h]
    exact ⟨List.prefix_append _ _, nofun⟩
  · rw [← Option.some.inj h]
    exact .resync (List.prefix_append _ _) _ _ _

theorem onward_step? (h : r.step? = some r') : Onward r r' := by
  have hpending : r.pending <+: ({ r with window := .empty } : Reader δ).pending :=
    List.prefix_refl _
  cases hmode : r.mode with
  | start =>
    rw [step?_of_start hmode] at h
    exact onward_classify? h ⟨List.prefix_refl _, nofun⟩
  | inflating d =>
    rw [step?_of_inflating hmode] at h
    split at h
    · cases h
    · exact onward_inflate? h
  | between =>
    rw [step?_of_between hmode] at h
    split at h
    · exact onward_classify? h (.resync hpending ..)
    · rw [← Option.some.inj h]
      exact ⟨List.prefix_refl _, by simp [hmode]⟩
  | raw =>
    by_cases hinput : r.input = []
    · cases (step?_of_input_eq_nil hinput (.inl hmode)).symm.trans h
    · rw [step?_raw hmode hinput] at h
      rw [← Option.some.inj h]
      exact ⟨List.prefix_append _ _, by simp [hmode]⟩
  | resync failedAt fatal =>
    rw [eq_resync_of_step? hmode h]
    exact .resync hpending failedAt fatal false

end Reader

namespace Blocking

variable {δ : Type} [Decoder δ] {r r' : Reader δ} {f f' : Feed}

/-- After a poll that finds nothing yet, a stream gives what it would have given before. -/
theorem drained_of_idle (h : (r.poll f).outcome = .ok .idle) (hf : f.stopped = false) :
    drained (Blocking.mk r) f = drained (Blocking.mk (r.poll f).reader) (r.poll f).feed := by
  have hpending := Reader.pending_of_not_ready (r := r) (f := f) (by simp [h])
  by_cases hlt : (r.poll f).feed.weight < f.weight
  · rw [drained_eq, pull_of_idle h hpending hf hlt, ← drained_eq]
  · have hidle := (Reader.poll_idle h).1
    obtain ⟨hfeed, hagain⟩ := Reader.poll_of_stuck h (Nat.le_of_not_lt hlt)
    have hawait : r.await f = r.poll f := (Reader.await_of_idle h).trans (if_neg hlt)
    have hawait' : (r.poll f).reader.await f = (r.poll f).reader.poll f := by
      refine (Reader.await_of_idle (by rw [hagain, h])).trans (if_neg ?_)
      rwa [hagain]
    rw [hfeed, drained_of_await hpending hf hawait (by simp [h]),
      drained_of_await hidle hf hawait' (by simp [hagain, h]), hagain]

/-- What a stream gives depends on what its first poll comes to. -/
theorem drained_of_poll_eq (h : r.poll f = r'.poll f') (hf : f.stopped = false)
    (hf' : f'.stopped = false) : drained (Blocking.mk r) f = drained (Blocking.mk r') f' := by
  have hend (hready : (r.poll f).outcome ≠ .ok .ready) (hidle : (r.poll f).outcome ≠ .ok .idle) :
      drained (Blocking.mk r) f = drained (Blocking.mk r') f' := by
    have hpending := Reader.pending_of_not_ready hready
    have hpending' := Reader.pending_of_not_ready (h ▸ hready)
    rw [drained_of_await hpending hf (Reader.await_of_not_idle hidle) hready,
      drained_of_await hpending' hf' (Reader.await_of_not_idle (h ▸ hidle)) (h ▸ hready), h]
  rcases houtcome : (r.poll f).outcome with e | fill
  · exact hend (by simp [houtcome]) (by simp [houtcome])
  · cases fill with
    | ready =>
      rw [drained_eq, pull_of_ready houtcome fun _ => hf, h,
        ← pull_of_ready (h ▸ houtcome) fun _ => hf', ← drained_eq]
    | idle => rw [drained_of_idle houtcome hf, drained_of_idle (h ▸ houtcome) hf', h]
    | ended => exact hend (by simp [houtcome]) (by simp [houtcome])

end Blocking

namespace Snapshot

variable {δ : Type} [Decoder δ] {x z : Snapshot δ} {f f' : Feed} {r : Reader δ} {room : Nat}

/-- What a reader has given out, and what it still gives of this feed. -/
def drains (x : Snapshot δ) (f : Feed) : Drained := (drained (Blocking.mk x.reader) f).after x.given

/-- A reader goes on with its feed, move by move. -/
inductive Proceeds : Snapshot δ → Feed → Snapshot δ → Feed → Prop where
  | done {x : Snapshot δ} {f : Feed} : Proceeds x f x f
  | step {x z : Snapshot δ} {f f' : Feed} {r : Reader δ} (hpending : x.reader.pending = [])
      (hstep : x.reader.step? = some r) (h : Proceeds (x.withReader r) f z f') : Proceeds x f z f'
  | receive {x z : Snapshot δ} {f f₁ f' : Feed} {bytes : Bytes} (hrests : x.Rests)
      (hread : f.read x.reader.room = (.data bytes, f₁)) (h : Proceeds (x.receive bytes) f₁ z f') :
      Proceeds x f z f'
  | interrupted {x z : Snapshot δ} {f f₁ f' : Feed} (hrests : x.Rests)
      (hread : f.read x.reader.room = (.interrupted, f₁)) (h : Proceeds x f₁ z f') :
      Proceeds x f z f'
  /-- Nothing is there yet. -/
  | idle {x z : Snapshot δ} {f f₁ f' : Feed} (hrests : x.Rests)
      (htail : x.reader.config.tail = true) (hread : f.read x.reader.room = (.none, f₁))
      (h : Proceeds x f₁ z f') : Proceeds x f z f'
  | give {x z : Snapshot δ} {f f' : Feed} (room : Nat) (h : Proceeds (x.give room) f z f') :
      Proceeds x f z f'

theorem Proceeds.trans {y : Snapshot δ} {f₁ : Feed} (h : Proceeds x f y f₁)
    (h' : Proceeds y f₁ z f') : Proceeds x f z f' := by
  induction h with
  | done => exact h'
  | step hpending hstep _ ih => exact .step hpending hstep (ih h')
  | receive hrests hread _ ih => exact .receive hrests hread (ih h')
  | interrupted hrests hread _ ih => exact .interrupted hrests hread (ih h')
  | idle hrests htail hread _ ih => exact .idle hrests htail hread (ih h')
  | give room _ ih => exact .give room (ih h')

/-! ## What a reader keeps on its way -/

theorem drains_of_poll_eq {y : Snapshot δ} (hgiven : x.given = y.given)
    (hpoll : x.reader.poll f = y.reader.poll f') (hf : f.stopped = false)
    (hf' : f'.stopped = false) : x.drains f = y.drains f' := by
  rw [drains, drains, Blocking.drained_of_poll_eq hpoll hf hf', hgiven]

theorem drains_step (hpending : x.reader.pending = []) (hstep : x.reader.step? = some r)
    (hf : f.stopped = false) : x.drains f = (x.withReader r).drains f :=
  drains_of_poll_eq rfl (Reader.poll_of_step hpending hstep) hf hf

theorem drains_receive (hrests : x.Rests) {bytes : Bytes}
    (hread : f.read x.reader.room = (.data bytes, f')) (hf : f.stopped = false)
    (hf' : f'.stopped = false) : x.drains f = (x.receive bytes).drains f' := by
  refine drains_of_poll_eq rfl ?_ hf hf'
  rw [Reader.poll_of_step?_eq_none hrests.pending_eq hrests.step?_eq, hread]
  rfl

theorem drains_interrupted (hrests : x.Rests)
    (hread : f.read x.reader.room = (.interrupted, f')) (hf : f.stopped = false)
    (hf' : f'.stopped = false) : x.drains f = x.drains f' := by
  refine drains_of_poll_eq rfl ?_ hf hf'
  rw [Reader.poll_of_step?_eq_none hrests.pending_eq hrests.step?_eq, hread]

theorem drains_idle (hrests : x.Rests) (htail : x.reader.config.tail = true)
    (hread : f.read x.reader.room = (.none, f')) (hf : f.stopped = false)
    (hf' : f'.stopped = false) : x.drains f = x.drains f' := by
  have hpoll := Reader.poll_of_step?_eq_none (f := f) hrests.pending_eq hrests.step?_eq
  simp only [hread, htail, hf', Bool.not_false, Bool.and_true, if_true] at hpoll
  rw [drains, Blocking.drained_of_idle (by rw [hpoll]) hf, hpoll]
  rfl

theorem drains_give (x : Snapshot δ) (room : Nat) (f : Feed) :
    x.drains f = (x.give room).drains f := by
  rw [drains, drains, Blocking.drained_eq_after, Blocking.drained_eq_after (x.give room).reader]
  simp [give, Reader.takePending]

/-- On its way a reader makes moves, receives what its feed is then short of, and gives the same in
all. -/
theorem Proceeds.keeps (h : Proceeds x f z f') {rest : Bytes}
    (hf : f.Supplies x.reader.config.tail rest) :
    ∃ later, f'.Supplies x.reader.config.tail later ∧ z.received ++ later = x.received ++ rest ∧
      Moves x z ∧ x.drains f = z.drains f' := by
  induction h generalizing rest with
  | done => exact ⟨rest, hf, rfl, .refl, rfl⟩
  | @step x z f f' r hpending hstep _ ih =>
    have hconfig : r.config = x.reader.config := Reader.config_step? hstep
    obtain ⟨later, hlater, hreceived, hmoves, hdrains⟩ := ih (hconfig ▸ hf)
    exact ⟨later, hconfig ▸ hlater, hreceived, .head (.step hpending hstep) hmoves,
      (drains_step hpending hstep hf.stopped_eq).trans hdrains⟩
  | @receive x z f f₁ f' bytes hrests hread _ ih =>
    have hbrings := hf.brings x.reader.room_pos
    rw [hread] at hbrings
    obtain ⟨hne, later, rfl, hf₁⟩ := hbrings
    obtain ⟨left, hleft, hreceived, hmoves, hdrains⟩ := ih hf₁
    refine ⟨left, hleft, ?_, .head (.receive hrests hne) hmoves,
      (drains_receive hrests hread hf.stopped_eq hf₁.stopped_eq).trans hdrains⟩
    rw [hreceived, Snapshot.receive, List.append_assoc]
  | @interrupted x z f f₁ f' hrests hread _ ih =>
    have hf₁ := hf.brings x.reader.room_pos
    rw [hread] at hf₁
    obtain ⟨later, hlater, hreceived, hmoves, hdrains⟩ := ih hf₁
    exact ⟨later, hlater, hreceived, hmoves,
      (drains_interrupted hrests hread hf.stopped_eq hf₁.stopped_eq).trans hdrains⟩
  | @idle x z f f₁ f' hrests htail hread _ ih =>
    have hbrings := hf.brings x.reader.room_pos
    rw [hread] at hbrings
    have hf₁ := hbrings.1
    obtain ⟨later, hlater, hreceived, hmoves, hdrains⟩ := ih hf₁
    exact ⟨later, hlater, hreceived, hmoves,
      (drains_idle hrests htail hread hf.stopped_eq hf₁.stopped_eq).trans hdrains⟩
  | @give x z f f' room _ ih =>
    obtain ⟨later, hlater, hreceived, hmoves, hdrains⟩ := ih hf
    exact ⟨later, hlater, hreceived, .head (.give x room) hmoves,
      (drains_give x room f).trans hdrains⟩

/-- What was decoded is not taken back. -/
theorem Moves.emitted_prefix (h : Moves x z) : x.emitted <+: z.emitted := by
  induction h with
  | refl => exact List.prefix_refl _
  | tail _ hmove ih =>
    cases hmove with
    | step hpending hstep =>
      have hpending := (Reader.onward_step? hstep).pending_isPrefix
      exact ih.trans ((List.prefix_append_right_inj _).mpr hpending)
    | receive => exact ih
    | give room => rwa [emitted_give]

/-- What kind of log it is, is told once. -/
theorem Moves.mode_ne_start (h : Moves x z) (hx : x.reader.mode ≠ .start) :
    z.reader.mode ≠ .start := by
  induction h with
  | refl => exact hx
  | tail _ hmove ih =>
    cases hmove with
    | step hpending hstep => exact (Reader.onward_step? hstep).mode_ne_start
    | receive => exact ih
    | give => exact ih

/-! ## Ends -/

/-- The error a log ends with when no marker was found in it, unless more of it may come. -/
def failure (x : Snapshot δ) : Option LogError :=
  match x.reader.mode with
  | .resync failedAt true => if x.reader.config.tail then none else some (.corrupt failedAt)
  | _ => none

omit [Decoder δ] in
theorem failure_of_tail (h : x.reader.config.tail = true) : x.failure = none := by
  rw [failure, h]
  split <;> rfl

/-- Where a poll is all there is to wait for and finds nothing, nothing more is given. -/
theorem drains_of_await (hpending : x.reader.pending = []) (hf : f.stopped = false)
    (hawait : x.reader.await f = x.reader.poll f)
    (hready : (x.reader.poll f).outcome ≠ .ok .ready) :
    x.drains f = ⟨x.given,
      match (x.reader.poll f).outcome with
      | .ok _ => none
      | .error e => some (.ofFault e.toFault)⟩ := by
  rw [drains, Blocking.drained_of_await hpending hf hawait hready]
  cases (x.reader.poll f).outcome <;> simp [Drained.after]

/-- A reader that rests where nothing is left of its feed has given what it decoded, unless it could
not yet tell what kind of log it reads. -/
theorem drains_of_rests (hrests : x.Rests) (hstart : x.reader.mode ≠ .start)
    (hf : f.Supplies x.reader.config.tail []) (hread : f.read x.reader.room = (.none, f'))
    (hexhausted : x.reader.config.tail = true → f.weight ≤ f'.weight) :
    x.drains f = ⟨x.given, x.failure⟩ := by
  have hf' := hf.brings x.reader.room_pos
  rw [hread] at hf'
  have hpoll := Reader.poll_of_step?_eq_none (f := f) hrests.pending_eq hrests.step?_eq
  simp only [hread, hf'.1.stopped_eq, Bool.not_false, Bool.and_true] at hpoll
  cases htail : x.reader.config.tail with
  | true =>
    rw [htail, if_pos rfl] at hpoll
    have hawait : x.reader.await f = x.reader.poll f := by
      refine (Reader.await_of_idle (by rw [hpoll])).trans (if_neg ?_)
      rw [hpoll]
      exact Nat.not_lt.mpr (hexhausted htail)
    rw [drains_of_await hrests.pending_eq hf.stopped_eq hawait (by simp [hpoll]), hpoll,
      failure_of_tail htail]
  | false =>
    rw [htail, if_neg Bool.false_ne_true] at hpoll
    have hawait : x.reader.await f = x.reader.poll f := by
      refine Reader.await_of_not_idle ?_
      rw [hpoll]
      exact x.reader.finishInput_ne_idle f'
    -- Only a search that found no marker ends in an error.
    have hended (hfinish : x.reader.finishInput f' = ⟨.ok .ended, x.reader, f'⟩) :
        x.drains f = ⟨x.given, none⟩ := by
      rw [hfinish] at hpoll
      rw [drains_of_await hrests.pending_eq hf.stopped_eq hawait (by simp [hpoll]), hpoll]
    cases hmode : x.reader.mode with
    | start => exact absurd hmode hstart
    | resync failedAt fatal =>
      cases fatal with
      | true =>
        have hfinish : x.reader.finishInput f' = ⟨.error (.corrupt failedAt), x.reader, f'⟩ := by
          simp [Reader.finishInput, hmode, hf'.1.stopped_eq]
        rw [hfinish] at hpoll
        rw [drains_of_await hrests.pending_eq hf.stopped_eq hawait (by simp [hpoll]), hpoll,
          failure, hmode, htail]
        rfl
      | false => rw [hended (by simp [Reader.finishInput, hmode]), failure, hmode]
    | _ => rw [hended (by simp [Reader.finishInput, hmode]), failure, hmode]

/-- A reader is at the end of its feed, or proceeds. -/
theorem ends_or_proceeds {rest : Bytes} (hf : f.Supplies x.reader.config.tail rest) :
    (x.Rests ∧ rest = [] ∧ (x.reader.mode ≠ .start → x.drains f = ⟨x.given, x.failure⟩)) ∨
      ∃ y f', Proceeds x f y f' ∧ Reader.Nearer y.reader f' x.reader f := by
  by_cases hpending : x.reader.pending = []
  · cases hstep : x.reader.step? with
    | some r =>
      refine .inr ⟨x.withReader r, f, .step hpending hstep .done, ?_⟩
      exact .of_step (Nat.le_refl f.weight) (Reader.step_lt hstep)
    | none =>
      have hrests : x.Rests := ⟨hpending, hstep⟩
      have hbrings := hf.brings x.reader.room_pos
      have hlt {answer : Answer} {f' : Feed} (hread : f.read x.reader.room = (answer, f'))
          (hne : answer ≠ .none) : f'.weight < f.weight :=
        Feed.weight_read_lt x.reader.room_pos hread hne
      rcases hread : f.read x.reader.room with ⟨bytes | _ | _ | _, f'⟩ <;> rw [hread] at hbrings
      · exact .inr ⟨x.receive bytes, f', .receive hrests hread .done,
          Reader.nearer_iff.mpr (.inl (hlt hread (by simp)))⟩
      · by_cases hwaits : x.reader.config.tail = true ∧ f'.weight < f.weight
        · exact .inr ⟨x, f', .idle hrests hwaits.1 hread .done,
            Reader.nearer_iff.mpr (.inl hwaits.2)⟩
        · have hexhausted : x.reader.config.tail = true → f.weight ≤ f'.weight :=
            fun htail => Nat.le_of_not_lt fun hlt => hwaits ⟨htail, hlt⟩
          have hrest : rest = [] := by
            cases htail : x.reader.config.tail with
            | false => exact hbrings.2 htail
            | true => exact (hf.eq_nil_or_lt hread).resolve_right (hexhausted htail).not_gt
          subst hrest
          exact .inl ⟨hrests, rfl, fun hstart => drains_of_rests hrests hstart hf hread hexhausted⟩
      · exact .inr ⟨x, f', .interrupted hrests hread .done,
          Reader.nearer_iff.mpr (.inl (hlt hread (by simp)))⟩
      · exact hbrings.elim
  · refine .inr ⟨x.give x.reader.pending.length, f, .give _ .done, Reader.nearer_with_pending ?_⟩
    rw [List.drop_length]
    exact List.length_pos_iff.mpr hpending

/-- A reader comes to the end of its feed, where it rests on all of its log. -/
theorem proceeds_to_end {rest : Bytes} (hf : f.Supplies x.reader.config.tail rest) :
    ∃ z f', Proceeds x f z f' ∧ z.Rests ∧ z.received = x.received ++ rest ∧
      (z.reader.mode ≠ .start → z.drains f' = ⟨z.given, z.failure⟩) := by
  induction hrank : x.reader.rank f using Reader.rankOrder.wf.induction generalizing x f rest with
  | h n ih =>
    subst hrank
    rcases ends_or_proceeds hf with ⟨hrests, rfl, hdrains⟩ | ⟨y, f₁, hy, hnearer⟩
    · exact ⟨x, f, .done, hrests, (List.append_nil _).symm, hdrains⟩
    · obtain ⟨later, hlater, hreceived, hmoves, -⟩ := hy.keeps hf
      obtain ⟨z, f', hz, hrests, hreceived', hdrains⟩ :=
        ih _ hnearer (hmoves.config_eq ▸ hlater) rfl
      exact ⟨z, f', hy.trans hz, hrests, hreceived'.trans hreceived, hdrains⟩

end Snapshot

end RunLog
