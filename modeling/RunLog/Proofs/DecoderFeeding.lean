import RunLog.Reader.Decoder
import RunLog.Reader.Marker

/-! # Feeding decoders

A decoder is offered a stream bit by bit and takes from it as it likes. What it comes to in the end
should depend on the stream alone, not on how it was cut or on how much room there was. -/

namespace RunLog.Decoder

variable {δ : Type} [Decoder δ]

/-- A decoder that was offered these bytes of a stream, took so many of them, put out this, and
wants more. Each call offers all that was not taken. -/
inductive Driven : (offered : Bytes) → (taken : Nat) → (output : Bytes) → δ → Prop where
  | start (offered : Bytes) : Driven offered 0 [] start
  | offer {offered : Bytes} {taken : Nat} {output : Bytes} {d : δ} (more : Bytes)
      (h : Driven offered taken output d) : Driven (offered ++ more) taken output d
  | call {offered : Bytes} {taken : Nat} {output : Bytes} {d : δ} {room : Nat} (hroom : 0 < room)
      (h : Driven offered taken output d)
      (hverdict : (feed d (offered.drop taken) room).verdict = .more) :
      Driven offered
        (taken + ((offered.drop taken).take (feed d (offered.drop taken) room).taken).length)
        (output ++ (feed d (offered.drop taken) room).output)
        (feed d (offered.drop taken) room).state

/-- What a decoder comes to on these bytes of a stream: it has put out all that can be decoded and
wants more, or the stream is complete or damaged, whatever follows. -/
inductive Judged (δ : Type) [Decoder δ] :
    (offered : Bytes) → (taken : Nat) → (output : Bytes) → Verdict → Prop where
  | more {offered : Bytes} {taken : Nat} {output : Bytes} {d : δ} {room : Nat} (hroom : 0 < room)
      (h : Driven offered taken output d)
      (hverdict : (feed d (offered.drop taken) room).verdict = .more)
      (hfull : (feed d (offered.drop taken) room).output.length ≠ room) :
      Judged δ offered
        (taken + ((offered.drop taken).take (feed d (offered.drop taken) room).taken).length)
        (output ++ (feed d (offered.drop taken) room).output) .more
  | ended {offered : Bytes} {taken : Nat} {output : Bytes} {d : δ} {room : Nat} (hroom : 0 < room)
      (h : Driven offered taken output d) {verdict : Verdict}
      (hverdict : (feed d (offered.drop taken) room).verdict = verdict) (hended : verdict ≠ .more)
      (later : Bytes) :
      Judged δ (offered ++ later)
        (taken + ((offered.drop taken).take (feed d (offered.drop taken) room).taken).length)
        (output ++ (feed d (offered.drop taken) room).output) verdict

/-- Output, bytes taken and verdict depend on the bytes of the stream alone. The decoder of
compressed streams is not steady where a stream is damaged: it compares sizes when a call ends, and
so notices some damage earlier when it is fed in smaller pieces (`Xz.Decoder.not_steady`). -/
def Steady (δ : Type) [Decoder δ] : Prop :=
  ∀ ⦃offered : Bytes⦄ ⦃taken taken' : Nat⦄ ⦃output output' : Bytes⦄ ⦃verdict verdict' : Verdict⦄,
    Judged δ offered taken output verdict → Judged δ offered taken' output' verdict' →
      taken = taken' ∧ output = output' ∧ verdict = verdict'

/-- On these bytes, whatever follows them and however they are fed, the decoder puts out the content
and says that the stream is complete, having taken the last of them and no more. -/
structure Decodes (δ : Type) [Decoder δ] (stream content : Bytes) : Prop where
  magic_prefix : Marker.magic <+: stream
  judged : ∀ {later : Bytes} {taken : Nat} {output : Bytes} {verdict : Verdict},
    Judged δ (stream ++ later) taken output verdict →
      taken = stream.length ∧ output = content ∧ verdict = .finished

variable {offered output : Bytes} {taken : Nat} {d : δ} {verdict : Verdict}

theorem Driven.taken_le (h : Driven offered taken output d) : taken ≤ offered.length := by
  induction h with
  | start => exact Nat.zero_le _
  | offer more h ih =>
    rw [List.length_append]
    omega
  | call hroom h hverdict ih =>
    rw [List.length_take, List.length_drop]
    omega

/-- A stream that ended is not changed by what follows. -/
theorem Judged.append (h : Judged δ offered taken output verdict) (hended : verdict ≠ .more)
    (more : Bytes) : Judged δ (offered ++ more) taken output verdict := by
  cases h with
  | more hroom hdriven hverdict hfull => exact absurd rfl hended
  | ended hroom hdriven hverdict hended later =>
    rw [List.append_assoc]
    exact .ended hroom hdriven hverdict hended (later ++ more)

end RunLog.Decoder

namespace RunLog

/-! ## A steady decoder -/

/-- A decoder for which every stream is damaged: it takes the 12 bytes of a header and rejects
them. It knows how many it took. -/
structure HeaderOnly where
  taken : Nat

namespace HeaderOnly

instance : Decoder HeaderOnly where
  start := ⟨0⟩
  feed d input _ :=
    { state := ⟨d.taken + input.length⟩
      taken := 12 - d.taken
      output := []
      verdict := if 12 ≤ d.taken + input.length then .rejected else .more }
  backlog _ := 0
  backlog_lt _ h := absurd rfl h
  take_ne_nil h := by
    dsimp only at h
    split at h <;> cases h

theorem verdict_feed (d : HeaderOnly) (input : Bytes) (room : Nat) :
    (Decoder.feed d input room).verdict =
      if 12 ≤ d.taken + input.length then .rejected else .more := rfl

theorem length_take_feed (d : HeaderOnly) (input : Bytes) (room : Nat) :
    (input.take (Decoder.feed d input room).taken).length = min (12 - d.taken) input.length :=
  List.length_take

theorem driven {offered output : Bytes} {taken : Nat} {d : HeaderOnly}
    (h : Decoder.Driven offered taken output d) : taken = d.taken ∧ output = [] ∧ d.taken < 12 := by
  induction h with
  | start offered => exact ⟨rfl, rfl, by decide⟩
  | offer more h ih => exact ih
  | @call offered taken output d room hroom h hverdict ih =>
    obtain ⟨rfl, rfl, hlt⟩ := ih
    rw [verdict_feed] at hverdict
    split at hverdict
    · cases hverdict
    · rename_i hshort
      refine ⟨?_, rfl, Nat.lt_of_not_le hshort⟩
      rw [length_take_feed]
      show d.taken + _ = d.taken + (offered.drop d.taken).length
      omega

theorem judged {offered output : Bytes} {taken : Nat} {verdict : Verdict}
    (h : Decoder.Judged HeaderOnly offered taken output verdict) :
    taken = min 12 offered.length ∧ output = [] ∧
      verdict = if 12 ≤ offered.length then .rejected else .more := by
  cases h with
  | @more offered taken output d room hroom h hverdict hfull =>
    have hle := h.taken_le
    obtain ⟨rfl, rfl, hlt⟩ := driven h
    rw [verdict_feed, List.length_drop, Nat.add_sub_cancel' hle] at hverdict
    split at hverdict
    · cases hverdict
    · rename_i hshort
      refine ⟨?_, rfl, (if_neg hshort).symm⟩
      rw [length_take_feed, List.length_drop]
      omega
  | @ended offered taken output d room hroom h verdict hverdict hended later =>
    have hle := h.taken_le
    obtain ⟨rfl, rfl, hlt⟩ := driven h
    rw [verdict_feed, List.length_drop, Nat.add_sub_cancel' hle] at hverdict
    split at hverdict
    · rename_i hlong
      rw [length_take_feed, List.length_drop, List.length_append]
      refine ⟨by omega, rfl, ?_⟩
      rw [if_pos (by omega), hverdict]
    · exact absurd hverdict.symm hended

theorem steady : Decoder.Steady HeaderOnly := by
  intro offered taken taken' output output' verdict verdict' h h'
  obtain ⟨rfl, rfl, rfl⟩ := judged h
  obtain ⟨rfl, rfl, rfl⟩ := judged h'
  exact ⟨rfl, rfl, rfl⟩

end HeaderOnly

/-- A damaged stream, and the beginning of a plain record behind it. -/
def damagedLog : Bytes :=
  [0xFD, 0x37, 0x7A, 0x58, 0x5A, 0, 1, 2, 3, 4, 5, 6, 7, 8,
    0x54, 0x45, 0x53, 0x54, 0x2C, 0x22, 0x61]

end RunLog
