import RunLog.Lines.Basic
import RunLog.Reader.Poll

/-! # Readers as streams

The lines of a log are pulled from a reader either by reads, which wait, or poll by poll. Both
streams come nearer to their end with each pull: the feed is used up, or the reader made a step, or
pending bytes were given out. -/

namespace RunLog

namespace Reader

variable {δ : Type} [Decoder δ] {r r' : Reader δ} {f f' : Feed}

/-- What of the log is left to read, to decode and to give out. -/
def rank (r : Reader δ) (f : Feed) : Nat × (Nat × Nat × Nat × Nat × Nat) × Nat :=
  (f.weight, r.stepRank, r.pending.length)

/-- Lexicographic order of ranks. -/
@[reducible] def rankOrder : WellFoundedRelation (Nat × (Nat × Nat × Nat × Nat × Nat) × Nat) :=
  Prod.lex Nat.lt_wfRel (Prod.lex (Prod.lex Nat.lt_wfRel (Prod.lex Nat.lt_wfRel
    (Prod.lex Nat.lt_wfRel (Prod.lex Nat.lt_wfRel Nat.lt_wfRel)))) Nat.lt_wfRel)

/-- Less of the log is left. -/
def Nearer (r' : Reader δ) (f' : Feed) (r : Reader δ) (f : Feed) : Prop :=
  rankOrder.rel (r'.rank f') (r.rank f)

theorem nearer_iff : Nearer r' f' r f ↔ f'.weight < f.weight ∨
    f'.weight = f.weight ∧ (StepLt r'.stepRank r.stepRank ∨
      r'.stepRank = r.stepRank ∧ r'.pending.length < r.pending.length) := by
  unfold Nearer rank StepLt
  exact Prod.lex_def.trans (or_congr_right (and_congr_right fun _ => Prod.lex_def))

theorem Nearer.of_step (h : f'.weight ≤ f.weight) (hstep : StepLt r'.stepRank r.stepRank) :
    Nearer r' f' r f := by
  rw [nearer_iff]
  cases Nat.lt_or_eq_of_le h with
  | inl hlt => exact .inl hlt
  | inr heq => exact .inr ⟨heq, .inl hstep⟩

/-- Giving out what became pending keeps the end as near. -/
theorem Nearer.with_pending {pending : Bytes} (h : Nearer r' f' r f)
    (hle : pending.length ≤ r'.pending.length) : Nearer { r' with pending } f' r f := by
  rw [nearer_iff] at h ⊢
  exact h.imp_right (And.imp_right (Or.imp_right (And.imp_right (Nat.lt_of_le_of_lt hle))))

/-- Giving out pending bytes brings the end nearer. -/
theorem nearer_with_pending {pending : Bytes} (h : pending.length < r.pending.length) :
    Nearer { r with pending } f r f :=
  nearer_iff.mpr (.inr ⟨rfl, .inr ⟨rfl, h⟩⟩)

theorem settle_eq_or_lt (r : Reader δ) : r.settle = r ∨ StepLt r.settle.stepRank r.stepRank := by
  fun_induction settle r with
  | case1 r hpending next hstep ih =>
    refine .inr ?_
    cases ih with
    | inl h => rw [h]; exact step_lt hstep
    | inr h => exact h.trans (step_lt hstep)
  | case2 r hpending hstep => exact .inl rfl
  | case3 r hpending => exact .inl rfl

theorem finishInput_lt (h : (r.finishInput f).outcome = .ok .ready) :
    StepLt (r.finishInput f).reader.stepRank r.stepRank := by
  revert h
  unfold finishInput
  split
  · split
    · simp
    · rename_i hinput
      refine fun _ => .of_total ?_
      have := List.length_pos_iff.mpr (fun h => hinput (by simp [h]) : r.input ≠ [])
      simpa using this
  · split <;> simp
  · simp

/-- A poll that decodes something brings the end nearer. -/
theorem poll_nearer (hpending : r.pending = []) (h : (r.poll f).outcome = .ok .ready) :
    Nearer (r.poll f).reader (r.poll f).feed r f := by
  have hsettle := settle_eq_or_lt r
  fun_induction poll r f with
  | case1 r f settled hnone bytes f' hread ih =>
    exact nearer_iff.mpr (.inl (Nat.lt_of_le_of_lt (weight_poll_le _ _)
      (Feed.weight_read_lt (room_pos _) hread (by simp))))
  | case2 r f settled hnone f' hread ih =>
    exact nearer_iff.mpr (.inl (Nat.lt_of_le_of_lt (weight_poll_le _ _)
      (Feed.weight_read_lt (room_pos _) hread (by simp))))
  | case3 r f settled hnone fault f' hread => simp at h
  | case4 r f settled hnone f' hread hidle => simp at h
  | case5 r f settled hnone f' hread hidle =>
    have hlt := finishInput_lt h
    rw [feed_finishInput]
    refine .of_step (Feed.weight_read_le hread) ?_
    cases hsettle with
    | inl h => rwa [← h]
    | inr h => exact hlt.trans h
  | case6 r f settled hsome =>
    refine .of_step (Nat.le_refl _) ?_
    cases hsettle with
    | inl h => exact absurd (by simp [settled, h, hpending]) hsome
    | inr h => exact h

theorem poll_of_pending (h : r.pending ≠ []) : r.poll f = ⟨.ok .ready, r, f⟩ := by
  have hsettle : r.settle = r := by
    rw [settle]
    simp [h]
  rw [poll]
  simp [hsettle, h]

/-- Waiting until something is decoded brings the end nearer. -/
theorem await_nearer (hpending : r.pending = []) (h : (r.await f).outcome = .ok .ready) :
    Nearer (r.await f).reader (r.await f).feed r f := by
  fun_induction await r f with
  | case1 r f polled hidle hlt ih =>
    exact nearer_iff.mpr (.inl (Nat.lt_of_le_of_lt (weight_await_le _ _) hlt))
  | case2 r f polled hidle hge =>
    rw [hidle] at h
    simp at h
  | case3 r f polled hfound => exact poll_nearer hpending h

/-- A read that finds something brings the end nearer. -/
theorem read_nearer {room : Nat} (hroom : 0 < room) {b : UInt8} {bytes : Bytes}
    (h : r.read f room = (.ok (b :: bytes), r', f')) : Nearer r' f' r f := by
  revert h
  unfold read
  simp only
  split
  · rename_i hpending
    simp only [Prod.mk.injEq]
    rintro ⟨-, rfl, rfl⟩
    refine nearer_with_pending ?_
    have := List.length_pos_iff.mpr (by simpa using hpending : r.pending ≠ [])
    simp only [List.length_drop]
    omega
  · rename_i hpending
    split
    · simp
    · split
      · rename_i houtcome
        simp only [Prod.mk.injEq]
        rintro ⟨-, rfl, rfl⟩
        exact (await_nearer (by simpa using hpending) houtcome).with_pending (by simp)
      · simp
      · simp

end Reader

/-- A reader whose bytes are read, and waited for. -/
structure Blocking (δ : Type) where
  reader : Reader δ

namespace Blocking

variable {δ : Type} [Decoder δ]

def pull (b : Blocking δ) (f : Feed) : Pulled (Blocking δ) :=
  match b.reader.read f Direct.chunkSize with
  | (.ok [], r, f) => .ended ⟨r⟩ f
  | (.ok (b :: bytes), r, f) => .data (b :: bytes) ⟨r⟩ f
  | (.error e, r, f) => .failed (.ofFault e.toFault) ⟨r⟩ f

instance : Ranked (Blocking δ) where
  Rank := _
  order := Reader.rankOrder
  rank b := b.reader.rank

instance : Chunked (Blocking δ) where
  pull := pull
  below_of_data {b f bytes b' f'} h := by
    unfold pull at h
    split at h <;> simp only [Pulled.data.injEq, reduceCtorEq] at h
    rename_i hread
    obtain ⟨-, rfl, rfl⟩ := h
    exact .of_rel (Reader.read_nearer (by decide) hread)
  below_of_again {b f b' f'} h := by
    unfold pull at h
    split at h <;> simp at h

end Blocking

/-- A reader that is polled; all that is pending is taken at once. -/
structure Polling (δ : Type) where
  reader : Reader δ

namespace Polling

variable {δ : Type} [Decoder δ]

/-- One poll. If nothing is there, another follows as long as the feed is being used up. While
tailing, a feed that is used up with the flag down is answered as the end of the stream, where polls
would go on without end. -/
def pull (p : Polling δ) (f : Feed) : Pulled (Polling δ) :=
  if f.stopped && p.reader.pending.isEmpty then .ended p f
  else
    let polled := p.reader.poll f
    match polled.outcome with
    | .ok .ready => .data polled.reader.pending ⟨{ polled.reader with pending := [] }⟩ polled.feed
    | .ok .idle =>
      if polled.feed.weight < f.weight then .again ⟨polled.reader⟩ polled.feed
      else .ended ⟨polled.reader⟩ polled.feed
    | .ok .ended => .ended ⟨polled.reader⟩ polled.feed
    | .error e => .failed e ⟨polled.reader⟩ polled.feed

instance : Ranked (Polling δ) where
  Rank := _
  order := Reader.rankOrder
  rank p := p.reader.rank

instance : Chunked (Polling δ) where
  pull := pull
  below_of_data {p f bytes p' f'} h := by
    revert h
    unfold pull
    simp only
    split
    · simp
    · split
      · rename_i houtcome
        simp only [Pulled.data.injEq]
        rintro ⟨-, rfl, rfl⟩
        refine .of_rel ?_
        by_cases hpending : p.reader.pending = []
        · exact (Reader.poll_nearer hpending houtcome).with_pending (by simp)
        · rw [Reader.poll_of_pending hpending]
          exact Reader.nearer_with_pending (List.length_pos_iff.mpr hpending)
      · split <;> simp
      · simp
      · simp
  below_of_again {p f p' f'} h := by
    revert h
    unfold pull
    simp only
    split
    · simp
    · split
      · simp
      · split
        · rename_i hlt
          simp only [Pulled.again.injEq]
          rintro ⟨rfl, rfl⟩
          exact .of_rel (Reader.nearer_iff.mpr (.inl hlt))
        · simp
      · simp
      · simp

end Polling

end RunLog
