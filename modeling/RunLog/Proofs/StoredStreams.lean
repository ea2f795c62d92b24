import Mathlib.Data.List.Infix
import RunLog.Proofs.DecoderFeeding
import RunLog.Xz.Progress

/-! # Streams of stored data

As long as nothing is compressed, the decoder waits for a byte and either gives it out or not. What
it gives out of such a stream can be told byte by byte, and it is the same however the stream is
fed. Of damaged streams this cannot be said: sizes are compared when a call ends. -/

namespace RunLog.Xz

/-! ## Waiting for a byte -/

namespace Block

variable {b b' : Block}

/-- All there is to do is to take the next byte. -/
def idles (b : Block) : Bool :=
  !b.isOverrun && !b.history.atSeam &&
    match b.part with
    | .compressed _ => false
    | _ => true

theorem pass_of_idles (h : b.idles) : b.pass = b := by
  obtain ⟨header, kind, part, ⟨content, since, capacity, atSeam⟩, started, model, packed⟩ := b
  simp only [idles, Bool.and_eq_true, Bool.not_eq_true'] at h
  obtain ⟨⟨-, rfl⟩, hpart⟩ := h
  cases part with
  | compressed chunk => cases hpart
  | _ => rfl

theorem run_of_idles (h : b.idles) (room : Nat) :
    b.run room = (.starved, b, []) ∨ room = 0 ∧ b.run room = (.full, b, []) := by
  obtain ⟨header, kind, part, history, started, model, packed⟩ := b
  simp only [idles, Bool.and_eq_true] at h
  cases part with
  | compressed chunk => cases h.2
  | stored left =>
    by_cases hroom : room = 0
    · exact .inr ⟨hroom, by simp [run, hroom]⟩
    · exact .inl (by simp [run, hroom])
  | chunkHeader control missing held =>
    cases held with
    | cons x held => exact .inl rfl
    | nil =>
      by_cases hroom : room = 0 ∧ isStart control
      · exact .inr ⟨hroom.1, by simp [run, hroom]⟩
      · exact .inl (by simp [run, hroom])
  | _ => exact .inl rfl

theorem afterPadding_ne_stored (b : Block) : b.afterPadding ≠ .stored b' := by
  unfold afterPadding
  split <;> simp

theorem takeControl_ne_stored (b : Block) (control : UInt8) :
    b.takeControl control ≠ .stored b' := by
  have hend : b.endChunks ≠ .stored b' := by
    unfold endChunks
    have hpadding : b.afterPadding ≠ .stored b' := afterPadding_ne_stored b
    repeat' split
    all_goals simp_all
  grind [takeControl]

theorem endChunkHeader_ne_stored (b : Block) (control : UInt8) (fields : Bytes) :
    b.endChunkHeader control fields ≠ .stored b' := by
  unfold endChunkHeader
  repeat' split
  all_goals simp

/-- Only stored data is given out as it is taken. -/
theorem part_of_stored {x : UInt8} (h : b.take x = .stored b') : ∃ left, b.part = .stored left := by
  revert h
  unfold take
  split
  · exact fun h => absurd h (takeControl_ne_stored _ _)
  · split
    · exact fun h => absurd h (endChunkHeader_ne_stored _ _ _)
    · nofun
  · repeat' split
    all_goals nofun
  · nofun
  · exact fun _ => ⟨_, ‹_›⟩
  · repeat' split
    · nofun
    · exact fun h => absurd h (afterPadding_ne_stored _)
    · nofun
  · repeat' split
    all_goals nofun

/-- Stored data is not taken without room for it. -/
theorem run_zero_of_stored {x : UInt8} (h : b.take x = .stored b') : b.run 0 = (.full, b, []) := by
  obtain ⟨left, hpart⟩ := part_of_stored h
  rw [run, hpart]
  rfl

end Block

namespace Decoder

variable {d d' : Decoder}

def idles : Decoder → Bool
  | block _ _ b => b.idles
  | _ => true

/-- The content of a stream of stored data, told byte by byte. None, if the bytes are anything
else. -/
def recited? (d : Decoder) : Bytes → Option Bytes
  | [] => none
  | x :: input =>
    if d.idles then
      match d.take x with
      | .next d => d.recited? input
      | .stored d => (d.recited? input).map (x :: ·)
      | .finished _ => if input.isEmpty then some [] else none
      | .rejected _ => none
    else none

theorem pause_of_idles (h : d.idles) (taken : Nat) (output : Bytes) :
    d.pause taken output = ⟨d, taken, output.reverse, .more⟩ := by
  cases d with
  | block kind blocks b =>
    have hoverrun : b.isOverrun = false := by
      simp only [idles, Block.idles, Bool.and_eq_true, Bool.not_eq_true'] at h
      exact h.1.1
    simp only [pause, pass, isOverrun, b.pass_of_idles h, hoverrun]
    rfl
  | _ => rfl

theorem run_of_idles (h : d.idles) (room : Nat) :
    d.run room = (.starved, d, []) ∨ room = 0 ∧ d.run room = (.full, d, []) := by
  cases d with
  | block kind blocks b =>
    rcases b.run_of_idles h room with hrun | ⟨hroom, hrun⟩
    · exact .inl (by rw [run, hrun])
    · exact .inr ⟨hroom, by rw [run, hrun]⟩
  | _ => exact .inl rfl

theorem run_zero_of_stored {x : UInt8} (h : d.take x = .stored d') : d.run 0 = (.full, d, []) := by
  cases d with
  | block kind blocks b =>
    rw [take] at h
    split at h
    case h_2 b' htake => rw [run, Block.run_zero_of_stored htake]
    all_goals cases h
  | _ => grind [take]

/-! ## Feeding -/

/-- What feeding has come to on a stream that is known byte by byte: the stream is complete, or so
many bytes were taken and the rest is still to be told, with no room left if all was offered. -/
inductive Recites (input content : Bytes) (available taken : Nat) (output : Bytes) (room : Nat) :
    Fed Decoder → Prop where
  | finished (d : Decoder) (hall : input.length ≤ available) :
      Recites input content available taken output room
        ⟨d, taken + input.length, output.reverse ++ content, .finished⟩
  | more {d : Decoder} {used : Nat} {now rest : Bytes} (hused : used ≤ available)
      (hcontent : content = now ++ rest) (hrest : d.recited? (input.drop used) = some rest)
      (hroom : input.length ≤ available → now.length = room) :
      Recites input content available taken output room
        ⟨d, taken + used, output.reverse ++ now, .more⟩

variable {input available later content : Bytes}

theorem Recites.next {fed : Fed Decoder} {available taken room : Nat} {output : Bytes} {x : UInt8}
    (h : Recites input content available (taken + 1) output room fed) :
    Recites (x :: input) content (available + 1) taken output room fed := by
  cases h with
  | finished d hall =>
    rw [Nat.add_assoc, Nat.add_comm 1]
    exact .finished d (Nat.succ_le_succ hall)
  | more hused hcontent hrest hroom =>
    rw [Nat.add_assoc, Nat.add_comm 1]
    exact .more (Nat.succ_le_succ hused) hcontent hrest fun hle =>
      hroom (Nat.le_of_succ_le_succ hle)

theorem Recites.stored {fed : Fed Decoder} {available taken room : Nat} {output : Bytes} {x : UInt8}
    (h : Recites input content available (taken + 1) (x :: output) room fed) :
    Recites (x :: input) (x :: content) (available + 1) taken output (room + 1) fed := by
  cases h with
  | finished d hall =>
    rw [Nat.add_assoc, Nat.add_comm 1, List.reverse_cons, List.append_assoc]
    exact .finished d (Nat.succ_le_succ hall)
  | @more d used now rest hused hcontent hrest hroom =>
    rw [Nat.add_assoc, Nat.add_comm 1, List.reverse_cons, List.append_assoc]
    refine .more (Nat.succ_le_succ hused) ?_ hrest ?_
    · rw [hcontent]
      rfl
    · intro hle
      exact congrArg Nat.succ (hroom (Nat.le_of_succ_le_succ hle))

theorem feedFrom_cons_of_starved {room : Nat} (hrun : d.run room = (.starved, d, [])) (taken : Nat)
    (output : Bytes) (x : UInt8) (input : Bytes) :
    d.feedFrom taken output room (x :: input) =
      match d.take x with
      | .next d => d.feedFrom (taken + 1) output room input
      | .stored d => d.feedFrom (taken + 1) (x :: output) (room - 1) input
      | .finished d => ⟨d, taken + 1, output.reverse, .finished⟩
      | .rejected tookIt =>
        ⟨header [], if tookIt then taken + 1 else taken, output.reverse, .rejected⟩ := by
  rw [feedFrom, hrun]
  rfl

/-- One call, on whatever is at hand of a stream. -/
theorem recites_feedFrom (h : d.recited? input = some content)
    (havailable : available <+: input ++ later) (taken : Nat) (output : Bytes) (room : Nat) :
    Recites input content available.length taken output room
      (d.feedFrom taken output room available) := by
  induction input generalizing d content available taken output room with
  | nil => cases h
  | cons x input ih =>
    have hidles : d.idles := by
      rw [recited?] at h
      split at h
      · assumption
      · cases h
    have hpaused (hroom : input.length + 1 ≤ available.length → 0 = room) :
        Recites (x :: input) content available.length taken output room
          (d.pause taken output) := by
      rw [pause_of_idles hidles]
      have hmore : Recites (x :: input) content available.length taken output room
          ⟨d, taken + 0, output.reverse ++ [], .more⟩ := .more (Nat.zero_le _) rfl h hroom
      simpa using hmore
    rcases run_of_idles hidles room with hrun | ⟨rfl, hrun⟩
    · cases available with
      | nil =>
        rw [feedFrom, hrun]
        exact hpaused nofun
      | cons y available =>
        rw [List.cons_append, List.cons_prefix_cons] at havailable
        obtain ⟨rfl, havailable⟩ := havailable
        rw [recited?, if_pos hidles] at h
        rw [feedFrom_cons_of_starved hrun]
        cases hd : d.take y with
        | next d' =>
          rw [hd] at h
          exact (ih h havailable _ _ _).next
        | stored d' =>
          rw [hd] at h
          obtain ⟨content, hcontent, rfl⟩ := Option.map_eq_some_iff.mp h
          cases room with
          | zero => cases hrun.symm.trans (run_zero_of_stored hd)
          | succ room => exact (ih hcontent havailable _ _ _).stored
        | finished d' =>
          rw [hd] at h
          have hend : input = [] ∧ content = [] := by
            cases input with
            | nil => exact ⟨rfl, (Option.some.inj h).symm⟩
            | cons => cases h
          obtain ⟨rfl, rfl⟩ := hend
          have hfinished : Recites [y] [] (y :: available).length taken output room
              ⟨d', taken + 1, output.reverse ++ [], .finished⟩ :=
            .finished d' (Nat.succ_le_succ (Nat.zero_le _))
          rwa [List.append_nil] at hfinished
        | rejected tookIt =>
          rw [hd] at h
          cases h
    · rw [feedFrom, hrun]
      exact hpaused fun _ => rfl

/-! ## A whole stream -/

variable {stream offered output rest : Bytes} {taken : Nat}

theorem lt_length_of_recited? (h : d.recited? (stream.drop taken) = some rest) :
    taken < stream.length := by
  refine Nat.lt_of_not_le fun hle => ?_
  rw [List.drop_eq_nil_of_le hle] at h
  cases h

/-- One call in the course of a stream. -/
theorem recites_feed (h : d.recited? (stream.drop taken) = some rest)
    (hoffered : offered <+: stream ++ later) (room : Nat) :
    Recites (stream.drop taken) rest (offered.drop taken).length 0 [] room
      (RunLog.Decoder.feed d (offered.drop taken) room) := by
  have havailable := List.IsPrefix.drop hoffered taken
  rw [List.drop_append_of_le_length (Nat.le_of_lt (lt_length_of_recited? h))] at havailable
  exact recites_feedFrom h havailable 0 [] room

/-- As long as a stream is fed and not complete, what was put out and what is still to be told are
its content. -/
theorem recited?_of_driven (h : (header []).recited? stream = some content)
    (hdriven : RunLog.Decoder.Driven offered taken output d)
    (hoffered : offered <+: stream ++ later) :
    ∃ rest, content = output ++ rest ∧ d.recited? (stream.drop taken) = some rest := by
  induction hdriven with
  | start offered => exact ⟨content, rfl, h⟩
  | offer more hdriven ih => exact ih ((List.prefix_append _ more).trans hoffered)
  | @call offered taken output d room hpos hdriven hverdict ih =>
    obtain ⟨rest, hcontent, hrest⟩ := ih hoffered
    have hfed := recites_feed hrest hoffered room
    generalize RunLog.Decoder.feed d (offered.drop taken) room = fed at hfed hverdict
    cases hfed with
    | finished => cases hverdict
    | @more d used now rest' hused hrest' hrecited hroom =>
      refine ⟨rest', ?_, ?_⟩
      · rw [hcontent, hrest']
        simp
      · rw [List.length_take, Nat.zero_add, Nat.min_eq_left hused, ← List.drop_drop]
        exact hrecited

/-- A stream of stored data is decoded. -/
theorem decodes_of_recited? (hmagic : Marker.magic <+: stream)
    (h : (header []).recited? stream = some content) :
    RunLog.Decoder.Decodes Decoder stream content := by
  refine ⟨hmagic, ?_⟩
  intro later taken output verdict hjudged
  generalize hall : stream ++ later = all at hjudged
  cases hjudged with
  | @more offered taken output d room hpos hdriven hverdict hfull =>
    subst hall
    obtain ⟨rest, hcontent, hrest⟩ := recited?_of_driven h hdriven (List.prefix_refl _)
    have hfed := recites_feed hrest (List.prefix_refl (stream ++ later)) room
    generalize RunLog.Decoder.feed d ((stream ++ later).drop taken) room = fed
      at hfed hverdict hfull
    cases hfed with
    | finished => cases hverdict
    | more hused hrest' hrecited hroom =>
      refine absurd (hroom ?_) hfull
      simp only [List.length_drop, List.length_append]
      omega
  | @ended offered taken output d room hpos hdriven verdict hverdict hended more =>
    have hoffered : offered <+: stream ++ later := hall ▸ List.prefix_append offered more
    obtain ⟨rest, hcontent, hrest⟩ := recited?_of_driven h hdriven hoffered
    have hfed := recites_feed hrest hoffered room
    generalize RunLog.Decoder.feed d (offered.drop taken) room = fed at hfed hverdict
    have htaken := lt_length_of_recited? hrest
    cases hfed with
    | finished d hlength =>
      refine ⟨?_, hcontent.symm, hverdict.symm⟩
      rw [List.length_take, Nat.zero_add, Nat.min_eq_left hlength, List.length_drop]
      omega
    | more => exact absurd hverdict.symm hended

/-! ## Damage -/

/-- A stream with a block of which the header says that it is smaller. -/
def oversized : Bytes :=
  [0xFD, 0x37, 0x7A, 0x58, 0x5A, 0, 0, 0, 0xFF, 0x12, 0xD9, 0x41,
    2, 0x40, 1, 0x21, 1, 0, 0, 0, 0x19, 0x1F, 0x4D, 0xEC,
    1, 0, 0, 0x61, 0]

/-- At one go the stream is rejected on its last byte. Cut two bytes into the block, it is rejected
there. -/
theorem not_steady : ¬ RunLog.Decoder.Steady Decoder := by
  intro hsteady
  have hwhole := RunLog.Decoder.Judged.ended (δ := Decoder) Nat.one_pos (.start oversized)
    (show _ = Verdict.rejected by decide +kernel) nofun []
  have hcut := RunLog.Decoder.Judged.ended (δ := Decoder) Nat.one_pos
    (.start (oversized.take 26)) (show _ = Verdict.rejected by decide +kernel) nofun
    (oversized.drop 26)
  rw [List.append_nil] at hwhole
  rw [List.take_append_drop] at hcut
  have htaken := (hsteady hwhole hcut).1
  exact absurd htaken (by decide +kernel)

end Decoder

end RunLog.Xz
