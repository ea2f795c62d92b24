import Mathlib.Data.PNat.Defs
import Mathlib.Data.Prod.Basic
import Mathlib.Order.WellFounded
import RunLog.Proofs.DecoderFeeding
import RunLog.Proofs.PollPasses

/-! # Polling comes to an end

Going back over bytes that were taken before makes the input longer, but each pass of a poll brings
the end of the log nearer by the rank of the reader, and so does each poll that finds data. Main
statement: a poll answers after finitely many passes, and of the polls of a reader that does not
wait all but finitely many find the end of the log or an error. -/

namespace RunLog.Reader

variable {δ : Type} [Decoder δ] {r r' r'' : Reader δ} {f f' f'' : Feed}
  {x y z : Reader δ × Feed} {polled : Polled δ}

theorem Nearer.trans (h : Nearer r'' f'' r' f') (h' : Nearer r' f' r f) : Nearer r'' f'' r f :=
  Prod.Lex.trans (r := (· < ·)) (s := Prod.Lex StepLt (· < ·)) h h'

/-! ## Passes -/

theorem Pass.nearer (h : Pass x y) : Nearer y.1 y.2 x.1 x.2 := by
  cases h with
  | step hpending hstep => exact .of_step (Nat.le_refl _) (step_lt hstep)
  | receive hpending hstep hread =>
    exact nearer_iff.mpr (.inl (Feed.weight_read_lt (room_pos _) hread (by simp)))
  | interrupted hpending hstep hread =>
    exact nearer_iff.mpr (.inl (Feed.weight_read_lt (room_pos _) hread (by simp)))

theorem Pass.config_eq (h : Pass x y) : y.1.config = x.1.config := by
  cases h with
  | step hpending hstep => exact config_step? hstep
  | receive => rfl
  | interrupted => rfl

/-- Passes do not go on forever. -/
theorem not_forall_pass (run : Nat → Reader δ × Feed) : ¬ ∀ n, Pass (run n) (run (n + 1)) := by
  intro hrun
  have hchain := wellFounded_iff_isEmpty_descending_chain.mp rankOrder.wf
  exact hchain.false ⟨fun n => (run n).1.rank (run n).2, fun n => (hrun n).nearer⟩

/-! ## Polls -/

/-- No more of the log is left. -/
def NoFarther (y x : Reader δ × Feed) : Prop :=
  Nearer y.1 y.2 x.1 x.2 ∨ y.1.rank y.2 = x.1.rank x.2

namespace NoFarther

theorem refl (x : Reader δ × Feed) : NoFarther x x := .inr rfl

theorem trans (h : NoFarther z y) (h' : NoFarther y x) : NoFarther z x := by
  rcases h with hnearer | hrank
  · rcases h' with hnearer' | hrank'
    · exact .inl (hnearer.trans hnearer')
    · refine .inl ?_
      rwa [Nearer, ← hrank']
  · rwa [NoFarther, Nearer, hrank]

theorem of_weight_le (h : f'.weight ≤ f.weight) : NoFarther (r, f') (r, f) := by
  rcases Nat.lt_or_eq_of_le h with hlt | heq
  · exact .inl (nearer_iff.mpr (.inl hlt))
  · refine .inr ?_
    rw [rank, rank, heq]

/-- What comes nearer and no farther comes nearer. -/
theorem nearer_of_nearer (h : NoFarther y x) (hnearer : Nearer r f y.1 y.2) :
    Nearer r f x.1 x.2 := by
  rcases h with h | hrank
  · exact hnearer.trans h
  · rwa [Nearer, ← hrank]

end NoFarther

theorem noFarther_of_passes (h : Passes x y) : NoFarther y x := by
  induction h with
  | refl => exact .refl x
  | tail _ hpass ih => exact .trans (.inl hpass.nearer) ih

theorem config_of_passes (h : Passes x y) : y.1.config = x.1.config := by
  induction h with
  | refl => rfl
  | tail _ hpass ih => exact hpass.config_eq.trans ih

omit [Decoder δ] in
theorem finishInput_ready_or (r : Reader δ) (f : Feed) :
    (r.finishInput f).outcome = .ok .ready ∨ (r.finishInput f).reader = r := by
  unfold finishInput
  split
  · split
    · exact .inr rfl
    · exact .inl rfl
  · split <;> exact .inr rfl
  · exact .inr rfl

theorem Answers.noFarther (h : Answers x polled) : NoFarther (polled.reader, polled.feed) x := by
  cases h with
  | ready hpending => exact .refl _
  | failed hpending hstep hread => exact .of_weight_le (Feed.weight_read_le hread)
  | idle hpending hstep hread htail hstopped => exact .of_weight_le (Feed.weight_read_le hread)
  | @finish r f f' hpending hstep hread hover =>
    rw [feed_finishInput]
    rcases r.finishInput_ready_or f' with hready | hreader
    · exact .inl (.of_step (Feed.weight_read_le hread) (finishInput_lt hready))
    · rw [hreader]
      exact .of_weight_le (Feed.weight_read_le hread)

theorem Answers.config_eq (h : Answers x polled) : polled.reader.config = x.1.config := by
  cases h with
  | ready hpending => rfl
  | failed hpending hstep hread => rfl
  | idle hpending hstep hread htail hstopped => rfl
  | finish hpending hstep hread hover =>
    unfold finishInput
    split
    · split <;> rfl
    · split <;> rfl
    · rfl

theorem noFarther_poll (r : Reader δ) (f : Feed) :
    NoFarther ((r.poll f).reader, (r.poll f).feed) (r, f) := by
  obtain ⟨last, hpasses, hanswers⟩ := passes_poll r f
  exact hanswers.noFarther.trans (noFarther_of_passes hpasses)

theorem config_poll (r : Reader δ) (f : Feed) : (r.poll f).reader.config = r.config := by
  obtain ⟨last, hpasses, hanswers⟩ := passes_poll r f
  exact hanswers.config_eq.trans (config_of_passes hpasses)

/-- A reader that does not wait is never idle. -/
theorem poll_ne_idle (htail : r.config.tail = false) : (r.poll f).outcome ≠ .ok .idle := by
  obtain ⟨last, hpasses, hanswers⟩ := passes_poll r f
  have hconfig := config_of_passes hpasses
  generalize r.poll f = polled at hanswers
  cases hanswers with
  | ready hpending => exact nofun
  | failed hpending hstep hread => exact nofun
  | idle hpending hstep hread htail' hstopped =>
    rw [← hconfig, htail'] at htail
    cases htail
  | finish hpending hstep hread hover => exact finishInput_ne_idle _ _

/-! ## Polls in a row -/

/-- After a poll, some of what is pending is taken. -/
def pollAndTake (x : Reader δ × Feed) (room : ℕ+) : Reader δ × Feed :=
  (((x.1.poll x.2).reader.takePending room).2, (x.1.poll x.2).feed)

/-- A reader and its feed after so many polls. -/
def afterPolls (x : Reader δ × Feed) (rooms : Nat → ℕ+) : Nat → Reader δ × Feed
  | 0 => x
  | n + 1 => pollAndTake (afterPolls x rooms n) (rooms n)

/-- The poll that is made after so many others. -/
def pollAfter (x : Reader δ × Feed) (rooms : Nat → ℕ+) (n : Nat) : Polled δ :=
  (afterPolls x rooms n).1.poll (afterPolls x rooms n).2

theorem noFarther_take (r : Reader δ) (f : Feed) (room : Nat) :
    NoFarther ((r.takePending room).2, f) (r, f) := by
  have hle : (r.pending.drop room).length ≤ r.pending.length := by simp
  rcases Nat.lt_or_eq_of_le hle with hlt | heq
  · exact .inl (nearer_with_pending hlt)
  · exact .inr (congrArg (fun n => (f.weight, r.stepRank, n)) heq)

theorem noFarther_pollAndTake (x : Reader δ × Feed) (room : ℕ+) :
    NoFarther (pollAndTake x room) x :=
  (noFarther_take _ _ _).trans (noFarther_poll x.1 x.2)

/-- A poll that finds data brings the end nearer, once some of it is taken. -/
theorem pollAndTake_nearer {room : ℕ+} (h : (x.1.poll x.2).outcome = .ok .ready) :
    Nearer (pollAndTake x room).1 (pollAndTake x room).2 x.1 x.2 := by
  refine (noFarther_poll x.1 x.2).nearer_of_nearer (nearer_with_pending ?_)
  have := List.length_pos_iff.mpr (pending_of_ready h)
  have := room.pos
  rw [List.length_drop]
  omega

theorem noFarther_afterPolls (x : Reader δ × Feed) (rooms : Nat → ℕ+) {m n : Nat} (h : m ≤ n) :
    NoFarther (afterPolls x rooms n) (afterPolls x rooms m) := by
  induction n, h using Nat.le_induction with
  | base => exact .refl _
  | succ n hle ih => exact (noFarther_pollAndTake _ _).trans ih

theorem config_afterPolls (x : Reader δ × Feed) (rooms : Nat → ℕ+) (n : Nat) :
    (afterPolls x rooms n).1.config = x.1.config := by
  induction n with
  | zero => rfl
  | succ n ih => exact (config_poll _ _).trans ih

/-- Only finitely many polls in a row find data: the rank is somewhere at its lowest. -/
theorem exists_forall_not_ready (x : Reader δ × Feed) (rooms : Nat → ℕ+) :
    ∃ N, ∀ n, N ≤ n → (pollAfter x rooms n).outcome ≠ .ok .ready := by
  obtain ⟨_, ⟨N, rfl⟩, hleast⟩ := rankOrder.wf.has_min
    (Set.range fun n => (afterPolls x rooms n).1.rank (afterPolls x rooms n).2)
    (Set.range_nonempty _)
  refine ⟨N, fun n hn hready => ?_⟩
  exact hleast _ ⟨n + 1, rfl⟩
    ((noFarther_afterPolls x rooms hn).nearer_of_nearer (pollAndTake_nearer hready))

/-- From any reader on, whatever its log is, a poll is a run of passes that comes to an answer, and
no run of passes is endless. If the reader does not wait, then of polls in a row, between which any
of what is pending is taken, all from some point on find the end of the log or an error. -/
theorem polling_ends (r : Reader δ) (f : Feed) (rooms : Nat → ℕ+)
    (htail : r.config.tail = false) :
    (∀ run : Nat → Reader δ × Feed, ¬ ∀ n, Pass (run n) (run (n + 1))) ∧
      (∀ n, ∃ last, Passes (afterPolls (r, f) rooms n) last ∧
        Answers last (pollAfter (r, f) rooms n)) ∧
      ∃ N, ∀ n, N ≤ n → (pollAfter (r, f) rooms n).outcome = .ok .ended ∨
        ∃ e, (pollAfter (r, f) rooms n).outcome = .error e := by
  refine ⟨not_forall_pass, fun n => passes_poll _ _, ?_⟩
  obtain ⟨N, hN⟩ := exists_forall_not_ready (r, f) rooms
  refine ⟨N, fun n hn => ?_⟩
  have hready := hN n hn
  have hidle : (pollAfter (r, f) rooms n).outcome ≠ .ok .idle :=
    poll_ne_idle ((congrArg ReaderConfig.tail (config_afterPolls (r, f) rooms n)).trans htail)
  generalize (pollAfter (r, f) rooms n).outcome = outcome at *
  rcases outcome with e | _ | _ | _
  · exact .inr ⟨e, rfl⟩
  · exact absurd rfl hready
  · exact absurd rfl hidle
  · exact .inl rfl

/-- A log whose first stream is damaged is read to its end. -/
theorem polling_ends_damagedLog :
    ({} : Reader HeaderOnly).config.tail = false ∧
      ∃ N, ∀ n, N ≤ n →
        let polled : Polled HeaderOnly :=
          pollAfter ({}, ⟨[.data damagedLog], false, false⟩) (fun _ => 1) n
        polled.outcome = .ok .ended ∨ ∃ e, polled.outcome = .error e :=
  ⟨rfl, (polling_ends {} ⟨[.data damagedLog], false, false⟩ (fun _ => 1) rfl).2.2⟩

end RunLog.Reader
