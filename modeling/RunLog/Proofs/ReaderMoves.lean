import Mathlib.Data.PNat.Defs
import Mathlib.Logic.Relation
import RunLog.Proofs.FeedSupply
import RunLog.Proofs.RawReading

/-! # Readers at work

Whatever is asked of a reader, it makes single moves: a step over the bytes at hand, a receipt of
more bytes when no step is left, a gift of pending bytes. A poll is a run of such moves, and so is
the reading of a whole log. -/

namespace RunLog

/-- What comes of reading a log to its end. -/
structure Reading where
  output : Bytes
  outcome : Except LogError Unit
  isRaw : Bool

/-- What comes of a reading after these bytes were already given out. -/
def Reading.after (given : Bytes) (reading : Reading) : Reading :=
  { reading with output := given ++ reading.output }

namespace Reader

variable {δ : Type} [Decoder δ]

/-- Reads to the end, with buffers of these sizes. -/
def readAll (r : Reader δ) (f : Feed) (rooms : Nat → ℕ+) : Reading :=
  match _read : r.read f (rooms 0) with
  | (.ok [], r, _) => ⟨[], .ok (), r.isRaw⟩
  | (.ok (b :: bytes), r, f) => (readAll r f fun i => rooms (i + 1)).after (b :: bytes)
  | (.error e, r, _) => ⟨[], .error e, r.isRaw⟩
termination_by r.rank f
decreasing_by exact read_nearer (rooms 0).pos _read

variable {r r' : Reader δ} {f f' : Feed}

/-! ## What steps leave alone -/

theorem config_resync (r : Reader δ) (failedAt : Nat) (fatal skipFirst : Bool) :
    (r.resync failedAt fatal skipFirst).config = r.config := by
  unfold resync
  simp only
  split <;> rfl

theorem config_step? (h : r.step? = some r') : r'.config = r.config := by
  have hclassify : ∀ {other : Reader δ}, other.config = r.config →
      r.classify? other = some r' → r'.config = r.config := by
    intro other hother hsome
    unfold classify? at hsome
    split at hsome
    · cases hsome
    · split at hsome
      · rw [← Option.some.inj hsome]
        rfl
      · split at hsome
        · cases hsome
        · rwa [← Option.some.inj hsome]
  unfold step? at h
  split at h
  · exact hclassify (by rfl) h
  · split at h
    · cases h
    · rw [← Option.some.inj h]
  · split at h
    · cases h
    · unfold inflate? at h
      simp only at h
      split at h
      · split at h
        · cases h
        · rw [← Option.some.inj h]
      · rw [← Option.some.inj h]
      · rw [← Option.some.inj h, config_resync]
  · simp only at h
    split at h
    · exact hclassify (config_resync { r with window := .empty } _ _ _) h
    · rw [← Option.some.inj h]
  · split at h
    · cases h
    · simp only at h
      split at h
      · split at h
        · cases h
        · rw [← Option.some.inj h, config_resync]
      · rw [← Option.some.inj h, config_resync]

/-- A reader that settled with nothing pending has no step left. -/
theorem step?_settle (h : r.settle.pending = []) : r.settle.step? = none := by
  fun_induction settle r with
  | case1 r hpending next hstep ih => exact ih h
  | case2 r hpending hstep => exact hstep
  | case3 r hpending => exact absurd (List.isEmpty_iff.mpr h) hpending

end Reader

/-- A reader at work: what it received of its log, and what it gave out. -/
structure Snapshot (δ : Type) where
  reader : Reader δ
  received : Bytes := []
  given : Bytes := []

namespace Snapshot

variable {δ : Type} [Decoder δ] {x y z : Snapshot δ}

/-- What was decoded so far. -/
def emitted (x : Snapshot δ) : Bytes := x.given ++ x.reader.pending

/-- Nothing is pending, and no step is left without more input. -/
structure Rests (x : Snapshot δ) : Prop where
  pending_eq : x.reader.pending = []
  step?_eq : x.reader.step? = none

def withReader (x : Snapshot δ) (r : Reader δ) : Snapshot δ := { x with reader := r }

def receive (x : Snapshot δ) (bytes : Bytes) : Snapshot δ :=
  { x with
    reader := { x.reader with input := x.reader.input ++ bytes }
    received := x.received ++ bytes }

def give (x : Snapshot δ) (room : Nat) : Snapshot δ :=
  { x with
    reader := (x.reader.takePending room).2
    given := x.given ++ (x.reader.takePending room).1 }

inductive Move : Snapshot δ → Snapshot δ → Prop where
  | step {x : Snapshot δ} {r : Reader δ} (hpending : x.reader.pending = [])
      (hstep : x.reader.step? = some r) : Move x (x.withReader r)
  | receive {x : Snapshot δ} (hrests : x.Rests) {bytes : Bytes} (hbytes : bytes ≠ []) :
      Move x (x.receive bytes)
  | give (x : Snapshot δ) (room : Nat) : Move x (x.give room)

abbrev Moves : Snapshot δ → Snapshot δ → Prop := Relation.ReflTransGen Move

omit [Decoder δ] in
@[simp] theorem emitted_give (x : Snapshot δ) (room : Nat) : (x.give room).emitted = x.emitted := by
  simp [emitted, give, Reader.takePending]

theorem Moves.config_eq (h : Moves x z) : z.reader.config = x.reader.config := by
  induction h with
  | refl => rfl
  | tail _ hmove ih =>
    rw [← ih]
    cases hmove with
    | step hpending hstep => exact Reader.config_step? hstep
    | receive => rfl
    | give => rfl

/-- What was received and what was decoded is not taken back. -/
theorem Moves.received_prefix (h : Moves x z) : x.received <+: z.received := by
  induction h with
  | refl => exact List.prefix_refl _
  | tail _ hmove ih =>
    cases hmove with
    | step => exact ih
    | receive => exact ih.trans (List.prefix_append _ _)
    | give => exact ih

/-! ## Polls -/

theorem moves_settle (x : Snapshot δ) : Moves x (x.withReader x.reader.settle) := by
  obtain ⟨r, received, given⟩ := x
  show Moves ⟨r, received, given⟩ ⟨r.settle, received, given⟩
  fun_induction Reader.settle r with
  | case1 r hpending next hstep ih =>
    exact .head (.step (x := ⟨r, received, given⟩) (by simpa using hpending) hstep) ih
  | case2 r hpending hstep => exact .refl
  | case3 r hpending => exact .refl

theorem rests_settle (h : x.reader.settle.pending = []) : (x.withReader x.reader.settle).Rests :=
  ⟨h, Reader.step?_settle h⟩

/-- How a poll ends that came as far as this, with so much of the feed left. -/
inductive PollEnds (tail : Bool) (z : Snapshot δ) : Bytes → Polled δ → Prop where
  | ready {later : Bytes} {f : Feed} (hpending : z.reader.pending ≠ [])
      (hf : f.Supplies tail later) : PollEnds tail z later ⟨.ok .ready, z.reader, f⟩
  | idle {later : Bytes} {f : Feed} (htail : tail = true) (hrests : z.Rests)
      (hf : f.Supplies tail later) : PollEnds tail z later ⟨.ok .idle, z.reader, f⟩
  | atEnd {f : Feed} (htail : tail = false) (hrests : z.Rests) (hf : f.Supplies tail []) :
      PollEnds tail z [] (z.reader.finishInput f)

/-- A poll is a run of moves. -/
theorem moves_poll {tail : Bool} {f : Feed} {rest : Bytes} (htail : x.reader.config.tail = tail)
    (hf : f.Supplies tail rest) :
    ∃ z later, Moves x z ∧ z.given = x.given ∧ z.received ++ later = x.received ++ rest ∧
      PollEnds tail z later (x.reader.poll f) := by
  obtain ⟨r, received, given⟩ := x
  induction hweight : f.weight using Nat.strongRecOn generalizing r f received rest with
  | ind n ih =>
    have hmoves := moves_settle ⟨r, received, given⟩
    have hconfig : r.settle.config.tail = tail := htail ▸ congrArg _ hmoves.config_eq
    have hbrings := hf.brings r.settle.room_pos
    simp only
    rw [Reader.poll]
    by_cases hpending : r.settle.pending = []
    · have hrests := rests_settle (x := ⟨r, received, given⟩) hpending
      rw [if_pos (by simp [hpending])]
      rcases hread : f.read r.settle.room with ⟨now | _ | _ | _, f'⟩ <;> rw [hread] at hbrings
      · obtain ⟨hne, later, rfl, hlater⟩ := hbrings
        have hlt : f'.weight < n := hweight ▸ Feed.weight_read_lt r.settle.room_pos hread (by simp)
        obtain ⟨z, left, hz, hgiven, hreceived, hends⟩ :=
          ih _ hlt hlater { r.settle with input := r.settle.input ++ now } (received ++ now)
            hconfig rfl
        refine ⟨z, left, ?_, hgiven, ?_, hends⟩
        · exact (hmoves.tail (.receive hrests hne)).trans hz
        · rw [hreceived, List.append_assoc]
      · obtain ⟨hlater, hnil⟩ := hbrings
        refine ⟨⟨r.settle, received, given⟩, rest, hmoves, rfl, rfl, ?_⟩
        simp only [hconfig, hlater.stopped_eq, Bool.not_false, Bool.and_true]
        cases tail with
        | true => exact .idle rfl hrests hlater
        | false =>
          obtain rfl := hnil rfl
          exact .atEnd rfl hrests hlater
      · have hlt : f'.weight < n := hweight ▸ Feed.weight_read_lt r.settle.room_pos hread (by simp)
        obtain ⟨z, later, hz, hgiven, hreceived, hends⟩ :=
          ih _ hlt hbrings r.settle received hconfig rfl
        exact ⟨z, later, hmoves.trans hz, hgiven, hreceived, hends⟩
      · exact hbrings.elim
    · rw [if_neg (by simpa using hpending)]
      exact ⟨⟨r.settle, received, given⟩, rest, hmoves, rfl, rfl, .ready hpending hf⟩

/-! ## Reading it all -/

end Snapshot

namespace Reader

variable {δ : Type} [Decoder δ] {r r' : Reader δ} {f f' : Feed} {rooms : Nat → ℕ+}

theorem readAll_of_end (h : r.read f (rooms 0) = (.ok [], r', f')) :
    readAll r f rooms = ⟨[], .ok (), r'.isRaw⟩ := by
  rw [readAll]
  split <;> rename_i heq <;> rw [h] at heq <;> cases heq
  rfl

theorem readAll_of_error {e : LogError} (h : r.read f (rooms 0) = (.error e, r', f')) :
    readAll r f rooms = ⟨[], .error e, r'.isRaw⟩ := by
  rw [readAll]
  split <;> rename_i heq <;> rw [h] at heq <;> cases heq
  rfl

theorem readAll_of_data {bytes : Bytes} (h : r.read f (rooms 0) = (.ok bytes, r', f'))
    (hne : bytes ≠ []) :
    readAll r f rooms = (readAll r' f' fun i => rooms (i + 1)).after bytes := by
  rw [readAll]
  split <;> rename_i heq <;> rw [h] at heq <;> cases heq
  · exact absurd rfl hne
  · rfl

/-- A reading depends on what its first read comes to. -/
theorem readAll_congr (h : r.read f (rooms 0) = r'.read f' (rooms 0)) :
    readAll r f rooms = readAll r' f' rooms := by
  rcases hread : r'.read f' (rooms 0) with ⟨_ | bytes, r'', f''⟩
  · rw [readAll_of_error hread, readAll_of_error (h.trans hread)]
  · by_cases hne : bytes = []
    · subst hne
      rw [readAll_of_end hread, readAll_of_end (h.trans hread)]
    · rw [readAll_of_data hread hne, readAll_of_data (h.trans hread) hne]

/-- What is pending is given out first. -/
theorem readAll_of_pending (h : r.pending ≠ []) :
    readAll r f rooms = (readAll (r.takePending (rooms 0)).2 f fun i => rooms (i + 1)).after
      (r.takePending (rooms 0)).1 := by
  refine readAll_of_data ?_ ?_
  · rw [read, if_pos (by simpa using h)]
  · simp [takePending, h]

theorem await_eq_poll (h : (r.poll f).outcome ≠ .ok .idle) : r.await f = r.poll f := by
  rw [await]
  split
  · rename_i hidle
    exact absurd hidle h
  · rfl

section Poll

variable (hpending : r.pending = []) (hstopped : f.stopped = false)

include hpending hstopped

/-- A poll that decodes something is the beginning of the next read. -/
theorem readAll_of_ready (hpoll : r.poll f = ⟨.ok .ready, r', f'⟩) (hready : r'.pending ≠ []) :
    readAll r f rooms = readAll r' f' rooms := by
  refine readAll_congr ?_
  rw [read, if_neg (by simp [hpending]), if_neg (by simp [hstopped]), read,
    if_pos (by simpa using hready)]
  simp only [await_eq_poll (f := f) (r := r) (by simp [hpoll]), hpoll]

theorem readAll_of_ended (hpoll : r.poll f = ⟨.ok .ended, r', f'⟩) :
    readAll r f rooms = ⟨[], .ok (), r'.isRaw⟩ := by
  have hread : r.read f (rooms 0) = (.ok [], r', f') := by
    rw [read, if_neg (by simp [hpending]), if_neg (by simp [hstopped])]
    simp only [await_eq_poll (f := f) (r := r) (by simp [hpoll]), hpoll]
  exact readAll_of_end hread

theorem readAll_of_failed {e : LogError} (hpoll : r.poll f = ⟨.error e, r', f'⟩) :
    readAll r f rooms = ⟨[], .error e, r'.isRaw⟩ := by
  have hread : r.read f (rooms 0) = (.error e, r', f') := by
    rw [read, if_neg (by simp [hpending]), if_neg (by simp [hstopped])]
    simp only [await_eq_poll (f := f) (r := r) (by simp [hpoll]), hpoll]
  exact readAll_of_error hread

end Poll

/-- At the end of its log, a poll of a reader that rests closes the log. -/
theorem poll_of_rests (hpending : r.pending = []) (hstep : r.step? = none)
    (htail : r.config.tail = false) (hf : f.Supplies false []) :
    ∃ f', r.poll f = r.finishInput f' ∧ f'.Supplies false [] := by
  induction hweight : f.weight using Nat.strongRecOn generalizing f with
  | ind n ih =>
    have hbrings := hf.brings r.room_pos
    rw [Reader.poll, settle_of_step?_eq_none hstep, if_pos (by simp [hpending])]
    rcases hread : f.read r.room with ⟨now | _ | _ | _, f'⟩ <;> rw [hread] at hbrings
    · obtain ⟨hne, later, heq, -⟩ := hbrings
      exact absurd (List.append_eq_nil_iff.mp heq.symm).1 hne
    · refine ⟨f', ?_, hbrings.1⟩
      simp [htail]
    · exact ih _ (hweight ▸ Feed.weight_read_lt r.room_pos hread (by simp)) hbrings rfl
    · exact hbrings.elim

/-- Bytes left over from a log too short to be told are given out as they are. -/
theorem readAll_of_raw (hmode : r.mode = .raw) (hinput : r.input = [])
    (htail : r.config.tail = false) (hf : f.Supplies false []) :
    readAll r f rooms = ⟨r.pending, .ok (), true⟩ := by
  induction hlength : r.pending.length using Nat.strongRecOn generalizing r rooms with
  | ind n ih =>
    by_cases hpending : r.pending = []
    · obtain ⟨f', hpoll, -⟩ :=
        poll_of_rests hpending (step?_of_input_eq_nil hinput (.inl hmode)) htail hf
      have hended : r.finishInput f' = ⟨.ok .ended, r, f'⟩ := by
        simp [finishInput, hmode]
      rw [readAll_of_ended hpending hf.stopped_eq (hpoll.trans hended), hpending, isRaw, hmode]
    · have hshorter : (r.takePending (rooms 0)).2.pending.length < n := by
        have := List.length_pos_iff.mpr hpending
        have := (rooms 0).pos
        simp only [takePending, List.length_drop]
        omega
      rw [readAll_of_pending hpending,
        ih _ hshorter (r := (r.takePending (rooms 0)).2) hmode hinput htail rfl]
      simp [Reading.after, takePending]

end Reader

namespace Snapshot

variable {δ : Type} [Decoder δ] {x y z : Snapshot δ}

/-- What comes of a log that is over when a reader rests. What is too short to be told apart is
given out as it is. -/
def conclusion (x : Snapshot δ) : Reading :=
  match x.reader.mode with
  | .start => ⟨x.given ++ x.reader.input, .ok (), !x.reader.input.isEmpty⟩
  | .raw => ⟨x.given, .ok (), true⟩
  | .resync failedAt true => ⟨x.given, .error (.corrupt failedAt), false⟩
  | _ => ⟨x.given, .ok (), false⟩

/-- A poll that comes to a rest at the end of the log closes the reading. -/
theorem after_readAll_of_atEnd {r : Reader δ} {f f' : Feed} {rooms : Nat → ℕ+}
    (hpending : r.pending = []) (hstopped : f.stopped = false)
    (hpoll : r.poll f = z.reader.finishInput f') (hrests : z.Rests)
    (htail : z.reader.config.tail = false) (hf : f'.Supplies false []) :
    (r.readAll f rooms).after z.given = z.conclusion := by
  unfold Reader.finishInput at hpoll
  unfold conclusion
  split at hpoll
  · rename_i hmode
    split at hpoll
    · rename_i hinput
      rw [Reader.readAll_of_ended hpending hstopped hpoll, hmode]
      simp [Reading.after, Reader.isRaw, hmode, List.isEmpty_iff.mp hinput]
    · rename_i hinput
      have hready : z.reader.pending ++ z.reader.input ≠ [] := by
        simpa [hrests.pending_eq] using hinput
      have hreading : r.readAll f rooms = _ :=
        Reader.readAll_of_ready hpending hstopped hpoll hready
      refine (congrArg (Reading.after z.given)
        (hreading.trans (Reader.readAll_of_raw rfl rfl ?_ hf))).trans ?_
      · exact htail
      · simp [Reading.after, hmode, hrests.pending_eq, hinput]
  · rename_i failedAt hmode
    rw [if_neg (by simp [hf.stopped_eq])] at hpoll
    rw [Reader.readAll_of_failed hpending hstopped hpoll, hmode]
    simp [Reading.after, Reader.isRaw, hmode]
  · rename_i hstart hfatal
    rw [Reader.readAll_of_ended hpending hstopped hpoll]
    unfold Reader.isRaw
    rcases hmode : z.reader.mode with _ | d | _ | _ | ⟨failedAt, _ | _⟩
    · exact absurd hmode hstart
    · simp [Reading.after]
    · simp [Reading.after]
    · simp [Reading.after]
    · simp [Reading.after]
    · exact absurd hmode (hfatal failedAt)

/-- The reading of a log is a run of moves to a rest at its end. -/
theorem moves_readAll {f : Feed} {rest : Bytes} (htail : x.reader.config.tail = false)
    (hf : f.Supplies false rest) (rooms : Nat → ℕ+) :
    ∃ z, Moves x z ∧ z.Rests ∧ z.received = x.received ++ rest ∧
      (x.reader.readAll f rooms).after x.given = z.conclusion := by
  induction hrank : x.reader.rank f using Reader.rankOrder.wf.induction
    generalizing x f rest rooms with
  | h n ih =>
    subst hrank
    by_cases hpending : x.reader.pending = []
    · obtain ⟨z, later, hmoves, hgiven, hreceived, hends⟩ := moves_poll htail hf
      have hconfig : z.reader.config.tail = false := by rw [hmoves.config_eq, htail]
      generalize hpoll : x.reader.poll f = polled at hends
      cases hends with
      | @ready _ f' hready hf' =>
        have hnearer := Reader.poll_nearer hpending (by rw [hpoll])
        rw [hpoll] at hnearer
        obtain ⟨w, hw, hrests, hreceived', hreading⟩ := ih _ hnearer hconfig hf' rooms rfl
        refine ⟨w, hmoves.trans hw, hrests, hreceived'.trans hreceived, ?_⟩
        rw [← hreading, hgiven, Reader.readAll_of_ready hpending hf.stopped_eq hpoll hready]
      | idle htail' => cases htail'
      | atEnd _ hrests hf' =>
        refine ⟨z, hmoves, hrests, by simpa using hreceived, ?_⟩
        rw [← hgiven]
        exact after_readAll_of_atEnd hpending hf.stopped_eq hpoll hrests hconfig hf'
    · have hshorter : (x.reader.pending.drop (rooms 0)).length < x.reader.pending.length := by
        have := List.length_pos_iff.mpr hpending
        have := (rooms 0).pos
        rw [List.length_drop]
        omega
      obtain ⟨z, hmoves, hrests, hreceived, hreading⟩ :=
        ih _ (Reader.nearer_with_pending hshorter) (x := x.give (rooms 0)) htail hf
          (fun i => rooms (i + 1)) rfl
      refine ⟨z, .head (.give x (rooms 0)) hmoves, hrests, hreceived, ?_⟩
      rw [← hreading, Reader.readAll_of_pending hpending]
      simp [Reading.after, give]

end Snapshot

end RunLog
