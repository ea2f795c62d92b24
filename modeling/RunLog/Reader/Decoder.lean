import RunLog.Text.Utf8

/-! # Stream decoders

What a reader needs of a decompressor: it is fed input with a bound on the output, and says how much
input it took, what it put out, and whether the stream is complete or damaged. -/

namespace RunLog

inductive Verdict where
  /-- More input or more room is needed. -/
  | more
  /-- The stream is complete. -/
  | finished
  /-- The input is not a stream. -/
  | rejected
deriving DecidableEq, Repr

structure Fed (δ : Type) where
  state : δ
  /-- The input that was taken. -/
  taken : Nat
  output : Bytes
  verdict : Verdict

class Decoder (δ : Type) where
  start : δ
  feed : δ → (input : Bytes) → (room : Nat) → Fed δ
  /-- A bound on what can still be put out without taking input. -/
  backlog : δ → Nat
  backlog_lt : ∀ {d input room}, input.take (feed d input room).taken = [] →
    (feed d input room).output ≠ [] → backlog (feed d input room).state < backlog d
  /-- A stream is complete only on its last byte. -/
  take_ne_nil : ∀ {d input room}, (feed d input room).verdict = .finished →
    input.take (feed d input room).taken ≠ []

end RunLog
