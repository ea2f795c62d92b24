import RunLog.Proofs.FeedSupply
import RunLog.Reader.Stream

/-! # Reading a plain log

A feed brings the bytes of a log cut in any way. A reader gives exactly these bytes, in pieces, if
they do not begin like compressed data. -/

namespace RunLog

/-- Events that meet some bytes, cut in any way, with interrupts anywhere between them. -/
inductive Event.Carry : List Event → Bytes → Prop where
  | nil : Carry [] []
  | data (chunk : Bytes) {events : List Event} {bytes : Bytes} (h : Carry events bytes) :
      Carry (.data chunk :: events) (chunk ++ bytes)
  | interrupt {events : List Event} {bytes : Bytes} (h : Carry events bytes) :
      Carry (.interrupt :: events) bytes

theorem Event.Carry.supply {events : List Event} {bytes : Bytes} (h : Event.Carry events bytes)
    (tail : Bool) : Event.Supply tail events bytes := by
  induction h with
  | nil => exact .nil
  | data chunk h ih => exact .data chunk ih
  | interrupt h ih => exact .interrupt ih

namespace Feed

/-- A feed of which just these bytes are left. Nobody asks the run to stop. -/
structure Holds (f : Feed) (bytes : Bytes) : Prop where
  carry : Event.Carry f.events bytes
  stopAtEnd_eq : f.stopAtEnd = false
  stopped_eq : f.stopped = false

theorem Holds.supplies {f : Feed} {bytes : Bytes} (h : f.Holds bytes) (tail : Bool) :
    f.Supplies tail bytes :=
  ⟨h.carry.supply tail, h.stopAtEnd_eq, h.stopped_eq⟩

end Feed

namespace Reader

variable {δ : Type} [Decoder δ] {r : Reader δ} {f : Feed} {tail : Bool}
  {now later bytes : Bytes}

/-! ## Settling -/

theorem settle_of_pending (h : r.pending ≠ []) : r.settle = r := by
  rw [settle, if_neg (by simpa using h)]

theorem settle_of_step?_eq_none (hstep : r.step? = none) : r.settle = r := by
  rw [settle, hstep]
  split <;> rfl

theorem settle_of_step?_eq_some {next : Reader δ} (hpending : r.pending = [])
    (hstep : r.step? = some next) : r.settle = next.settle := by
  rw [settle, hpending, hstep]
  rfl

theorem step?_of_input_eq_nil (hinput : r.input = []) (hmode : r.mode = .raw ∨ r.mode = .start) :
    r.step? = none := by
  rcases hmode with hmode | hmode <;> simp [step?, hmode, hinput, classify?]

/-- Input that does not begin like compressed data makes the log a plain one. -/
theorem step?_start (hmode : r.mode = .start) (hinput : r.input ≠ [])
    (hhead : r.input.head? ≠ some 0xFD) : r.step? = some { r with mode := .raw } := by
  rcases hbytes : r.input with _ | ⟨b, rest⟩
  · exact absurd hbytes hinput
  · have hb : b ≠ 0xFD := by
      rintro rfl
      simp [hbytes] at hhead
    simp [step?, hmode, classify?, hbytes, Marker.magic, List.isPrefixOf, hb, Ne.symm hb]

theorem step?_raw (hmode : r.mode = .raw) (hinput : r.input ≠ []) :
    r.step? = some { r with
      offset := r.offset + r.input.length
      pending := r.pending ++ r.input
      input := [] } := by
  simp [step?, hmode, hinput]

/-- What a reader holds between the reads of a plain log: nothing waits to be decoded, and the mode
is that of a plain log, or still open and what comes does not begin like compressed data. -/
structure Plain (r : Reader δ) (tail : Bool) (later : Bytes) : Prop where
  tail_eq : r.config.tail = tail
  input_eq : r.input = []
  mode_eq : r.mode = .raw ∨ r.mode = .start ∧ r.pending = [] ∧ later.head? ≠ some 0xFD

namespace Plain

theorem settle_eq (h : r.Plain tail later) : r.settle = r :=
  settle_of_step?_eq_none
    (step?_of_input_eq_nil h.input_eq (h.mode_eq.imp id And.left))

/-- Bytes that were read become pending as they are. -/
theorem settle_input (h : r.Plain tail (now ++ later)) (hpending : r.pending = [])
    (hnow : now ≠ []) :
    ({ r with input := now }.settle).Plain tail later ∧
      { r with input := now }.settle.pending = now := by
  have hraw : ∀ r : Reader δ, r.config.tail = tail → r.pending = [] → r.mode = .raw →
      r.input = now → r.settle.Plain tail later ∧ r.settle.pending = now := by
    intro r htail hpending hmode hinput
    rw [settle_of_step?_eq_some hpending (step?_raw hmode (hinput ▸ hnow)),
      settle_of_pending (by simpa [hinput] using fun _ => hnow)]
    exact ⟨⟨htail, rfl, .inl hmode⟩, by simp [hpending, hinput]⟩
  rcases h.mode_eq with hmode | ⟨hmode, _, hhead⟩
  · exact hraw _ h.tail_eq hpending hmode rfl
  · have hhead : now.head? ≠ some 0xFD := by
      obtain ⟨b, rest, rfl⟩ := List.exists_cons_of_ne_nil hnow
      exact hhead
    rw [settle_of_step?_eq_some (r := { r with input := now }) hpending
      (step?_start hmode hnow hhead)]
    exact hraw _ h.tail_eq hpending rfl rfl

end Plain

/-! ## Polls and reads -/

theorem poll_of_settle (h : r.settle.pending ≠ []) : r.poll f = ⟨.ok .ready, r.settle, f⟩ := by
  rw [poll, if_neg (by simpa using h)]

/-- What a reader of a plain log finds when `bytes` are left. Where it finds nothing yet, a part of
the feed was used up, unless nothing is left. -/
inductive Finds (r : Reader δ) (f : Feed) (tail : Bool) (bytes : Bytes) : Polled δ → Prop where
  | ready {r' : Reader δ} {f' : Feed} {later : Bytes} (hpending : r'.pending ≠ [])
      (heq : bytes = r'.pending ++ later) (hplain : r'.Plain tail later)
      (hf : f'.Supplies tail later) : Finds r f tail bytes ⟨.ok .ready, r', f'⟩
  | ended {r' : Reader δ} {f' : Feed} (hnil : bytes = []) (hstopped : f'.stopped = false) :
      Finds r f tail bytes ⟨.ok .ended, r', f'⟩
  | idle {f' : Feed} (hf : f'.Supplies tail bytes) (hleft : bytes = [] ∨ f'.weight < f.weight) :
      Finds r f tail bytes ⟨.ok .idle, r, f'⟩

omit [Decoder δ] in
/-- Where more of a feed was left, what is found is the same. -/
theorem Finds.of_lt {f' : Feed} {polled : Polled δ} (h : Finds r f' tail bytes polled)
    (hlt : f'.weight < f.weight) : Finds r f tail bytes polled := by
  cases h with
  | ready hpending heq hplain hf => exact .ready hpending heq hplain hf
  | ended hnil hstopped => exact .ended hnil hstopped
  | idle hf hleft => exact .idle hf (hleft.imp_right fun h => Nat.lt_trans h hlt)

/-- The induction is on what is left of the feed: an interrupted read is tried again. -/
theorem Plain.poll (h : r.Plain tail bytes) (hpending : r.pending = [])
    (hf : f.Supplies tail bytes) : Finds r f tail bytes (r.poll f) := by
  induction hweight : f.weight using Nat.strongRecOn generalizing f with
  | ind n ih =>
    have hbrings := hf.brings r.room_pos
    rw [Reader.poll, h.settle_eq, if_pos (by simp [hpending])]
    rcases hread : f.read r.room with ⟨now | _ | _ | _, f'⟩ <;> rw [hread] at hbrings
    · obtain ⟨hnow, later, rfl, hlater⟩ := hbrings
      obtain ⟨hplain, hsettled⟩ := h.settle_input hpending hnow
      have hinput : r.input ++ now = now := by rw [h.input_eq, List.nil_append]
      simp only [hinput]
      rw [poll_of_settle (by rwa [hsettled])]
      exact .ready (by rwa [hsettled]) (by rw [hsettled]) hplain hlater
    · obtain ⟨hlater, hnil⟩ := hbrings
      simp only [h.tail_eq, hlater.stopped_eq, Bool.not_false, Bool.and_true]
      cases tail with
      | true => exact .idle hlater (hf.eq_nil_or_lt hread)
      | false =>
        have hended : r.finishInput f' = ⟨.ok .ended, r, f'⟩ := by
          rcases h.mode_eq with hmode | ⟨hmode, _, _⟩ <;> simp [finishInput, hmode, h.input_eq]
        rw [if_neg Bool.false_ne_true, hended]
        exact .ended (hnil rfl) hlater.stopped_eq
    · have hlt : f'.weight < n := hweight ▸ Feed.weight_read_lt r.room_pos hread (by simp)
      exact (ih _ hlt hbrings rfl).of_lt (hweight ▸ hlt)
    · exact hbrings.elim

/-- A reader waits until it finds something or nothing is left. -/
theorem Plain.await (h : r.Plain tail bytes) (hpending : r.pending = [])
    (hf : f.Supplies tail bytes) :
    Finds r f tail bytes (r.await f) ∧ ((r.await f).outcome = .ok .idle → bytes = []) := by
  induction hweight : f.weight using Nat.strongRecOn generalizing f with
  | ind n ih =>
    have hfinds := h.poll hpending hf
    rw [Reader.await]
    generalize r.poll f = polled at hfinds
    cases hfinds with
    | ready hpending heq hplain hf => exact ⟨.ready hpending heq hplain hf, fun h => by cases h⟩
    | ended hnil hstopped => exact ⟨.ended hnil hstopped, fun _ => hnil⟩
    | @idle f' hf' hleft =>
      dsimp only
      split
      · rename_i hlt
        obtain ⟨hfinds, hidle⟩ := ih _ (hweight ▸ hlt) hf' rfl
        exact ⟨hfinds.of_lt hlt, hidle⟩
      · rename_i hge
        exact ⟨.idle hf' hleft, fun _ => hleft.resolve_right hge⟩

/-- What the reads of a plain log still give. -/
def Delivers (r : Reader δ) (f : Feed) (tail : Bool) (bytes : Bytes) : Prop :=
  ∃ later, bytes = r.pending ++ later ∧ r.Plain tail later ∧ f.Supplies tail later

omit [Decoder δ] in
/-- Pending bytes are given out as far as there is room. -/
theorem Delivers.takePending {room : Nat} (hroom : 0 < room) (hpending : r.pending ≠ [])
    (h : r.Delivers f tail bytes) :
    ∃ now later, now ≠ [] ∧ bytes = now ++ later ∧ (r.takePending room).1 = now ∧
      (r.takePending room).2.Delivers f tail later := by
  obtain ⟨later, rfl, hplain, hf⟩ := h
  have hmode : r.mode = .raw := by
    rcases hplain.mode_eq with hmode | ⟨_, hnil, _⟩
    · exact hmode
    · exact absurd hnil hpending
  refine ⟨r.pending.take room, r.pending.drop room ++ later, ?_, ?_, rfl, later, rfl, ?_, hf⟩
  · simp [List.take_eq_nil_iff, hpending, Nat.ne_of_gt hroom]
  · rw [← List.append_assoc, List.take_append_drop]
  · exact ⟨hplain.tail_eq, hplain.input_eq, .inl hmode⟩

/-- A read gives some of what is left, or nothing at the end. -/
theorem Delivers.read {room : Nat} (hroom : 0 < room) (h : r.Delivers f tail bytes) :
    ∃ now later r' f', r.read f room = (.ok now, r', f') ∧ bytes = now ++ later ∧
      f'.stopped = false ∧ (now = [] → later = []) ∧ (now ≠ [] → r'.Delivers f' tail later) := by
  obtain ⟨left, rfl, hplain, hf⟩ := h
  by_cases hpending : r.pending = []
  · rw [hpending, List.nil_append, Reader.read, if_neg (by simp [hpending]),
      if_neg (by simp [hf.stopped_eq])]
    obtain ⟨hfinds, hidle⟩ := hplain.await hpending hf
    generalize r.await f = polled at hfinds hidle
    cases hfinds with
    | ready hne heq hplain' hf' =>
      obtain ⟨now, rest, hnow, heq, htake, hdelivers⟩ :=
        Delivers.takePending hroom hne ⟨_, heq, hplain', hf'⟩
      exact ⟨now, rest, _, _, by rw [← htake], heq, hf'.stopped_eq, fun hnil => absurd hnil hnow,
        fun _ => hdelivers⟩
    | ended hnil hstopped =>
      exact ⟨[], [], _, _, rfl, hnil, hstopped, fun _ => rfl, fun hne => absurd rfl hne⟩
    | idle hf' hleft =>
      exact ⟨[], [], _, _, rfl, hidle rfl, hf'.stopped_eq, fun _ => rfl, fun hne => absurd rfl hne⟩
  · obtain ⟨now, rest, hnow, heq, htake, hdelivers⟩ :=
      Delivers.takePending hroom hpending ⟨left, rfl, hplain, hf⟩
    rw [Reader.read, if_pos (by simpa using hpending)]
    exact ⟨now, rest, _, _, by rw [← htake], heq, hf.stopped_eq, fun hnil => absurd hnil hnow,
      fun _ => hdelivers⟩

end Reader

/-! ## Chunked streams -/

/-- A stream that gives these bytes, cut in some way, and ends. -/
inductive Drains {ρ : Type} [Chunked ρ] : ρ → Feed → Bytes → Prop where
  | ended {r r' : ρ} {f f' : Feed} (hpull : Chunked.pull r f = .ended r' f')
      (hstopped : f'.stopped = false) : Drains r f []
  | again {r r' : ρ} {f f' : Feed} {bytes : Bytes} (hpull : Chunked.pull r f = .again r' f')
      (hstopped : f'.stopped = false) (h : Drains r' f' bytes) : Drains r f bytes
  | data {r r' : ρ} {f f' : Feed} {now later : Bytes} (hpull : Chunked.pull r f = .data now r' f')
      (hstopped : f'.stopped = false) (h : Drains r' f' later) : Drains r f (now ++ later)

namespace Blocking

variable {δ : Type} [Decoder δ]

theorem drains_of_delivers {r : Reader δ} {f : Feed} {tail : Bool} {bytes : Bytes}
    (h : r.Delivers f tail bytes) : Drains (⟨r⟩ : Blocking δ) f bytes := by
  induction hlength : bytes.length using Nat.strongRecOn generalizing r f bytes with
  | ind n ih =>
    obtain ⟨now, later, r', f', hread, rfl, hstopped, hnil, hdelivers⟩ :=
      h.read (show 0 < Direct.chunkSize by decide)
    cases now with
    | nil =>
      have hpull : Chunked.pull (⟨r⟩ : Blocking δ) f = .ended ⟨r'⟩ f' := by
        simp only [Chunked.pull, pull, hread]
      obtain rfl := hnil rfl
      exact .ended hpull hstopped
    | cons b now =>
      have hpull : Chunked.pull (⟨r⟩ : Blocking δ) f = .data (b :: now) ⟨r'⟩ f' := by
        simp only [Chunked.pull, pull, hread]
      refine .data hpull hstopped (ih later.length ?_ (hdelivers (List.cons_ne_nil b now)) rfl)
      simp only [← hlength, List.length_append, List.length_cons]
      omega

/-- However the bytes of a plain log are cut, a reader gives them as they are. -/
theorem drains_of_supplies {config : ReaderConfig} {f : Feed} {bytes : Bytes}
    (hf : f.Supplies config.tail bytes) (hhead : bytes.head? ≠ some 0xFD) :
    Drains (⟨{ config }⟩ : Blocking δ) f bytes :=
  drains_of_delivers ⟨bytes, rfl, ⟨rfl, rfl, .inr ⟨rfl, rfl, hhead⟩⟩, hf⟩

theorem drains {config : ReaderConfig} (htail : config.tail = false) {f : Feed} {bytes : Bytes}
    (hf : f.Holds bytes) (hhead : bytes.head? ≠ some 0xFD) :
    Drains (⟨{ config }⟩ : Blocking δ) f bytes :=
  drains_of_supplies (htail ▸ hf.supplies false) hhead

end Blocking

end RunLog
