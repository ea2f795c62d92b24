import RunLog.Lines.Basic
import RunLog.Proofs.RawReading

/-! # The lines of a stream, however it is cut

The assembler is in the same state after a stream whichever way its bytes came, so the lines of a
stream depend on its bytes alone. -/

namespace RunLog

namespace Assembler

variable {a : Assembler}

/-- The lines of a whole stream, from an assembler on. -/
def split (a : Assembler) (bytes : Bytes) : List BoundedLine :=
  let (after, done) := a.feed [] bytes
  done.reverse ++ after.finish?.toList

theorem feed_done (a : Assembler) (done : List BoundedLine) (bytes : Bytes) :
    a.feed done bytes = ((a.feed [] bytes).1, (a.feed [] bytes).2 ++ done) := by
  induction bytes generalizing a done with
  | nil => rfl
  | cons b rest ih =>
    simp only [feed]
    rcases a.push b with ⟨after, _ | line⟩
    · exact ih after done
    · simp only [ih after [line], ih after (line :: done)]
      simp

theorem feed_append (a : Assembler) (done : List BoundedLine) (now later : Bytes) :
    a.feed done (now ++ later) = (a.feed done now).1.feed (a.feed done now).2 later := by
  induction now generalizing a done with
  | nil => rfl
  | cons b rest ih =>
    simp only [List.cons_append, feed]
    rcases a.push b with ⟨after, _ | line⟩ <;> exact ih _ _

/-- What came first gives its lines first. -/
theorem split_append (a : Assembler) (now later : Bytes) :
    a.split (now ++ later) = (a.feed [] now).2.reverse ++ (a.feed [] now).1.split later := by
  rw [split, feed_append, feed_done, split]
  simp

/-- Bytes without a line feed are held while there is room. -/
theorem feed_of_lineFeed_not_mem {bytes : Bytes} (h : lineFeed ∉ bytes)
    (hlimit : a.observed + bytes.length ≤ a.limit) :
    a.feed [] bytes = ({ a with
      observed := a.observed + bytes.length, held := bytes.reverse ++ a.held }, []) := by
  induction bytes generalizing a with
  | nil => rfl
  | cons b rest ih =>
    rw [List.mem_cons, not_or] at h
    rw [List.length_cons] at hlimit
    have hpush : a.push b = ({ a with observed := a.observed + 1, held := b :: a.held }, none) := by
      rw [push, if_neg (Ne.symm h.1), if_pos (by omega)]
    simp only [feed, hpush]
    rw [ih h.2 (by simp only; omega)]
    simp [Nat.add_assoc, Nat.add_comm rest.length]

/-- A whole line is given with its position, and the next one begins right after it. -/
theorem feed_line {bytes : Bytes} (h : lineFeed ∉ bytes) (hlimit : bytes.length ≤ a.limit)
    (hobserved : a.observed = 0) (hheld : a.held = []) :
    a.feed [] (bytes ++ [lineFeed]) =
      ({ a with offset := a.offset + (bytes ++ [lineFeed]).length }, [.line a.offset bytes]) := by
  rw [feed_append, feed_of_lineFeed_not_mem h (by omega)]
  simp [feed, push, current, position, hobserved, hheld, hlimit, Nat.add_assoc]

end Assembler

namespace Lines

variable {ρ : Type} [Chunked ρ]

/-- Lines that give these items, one after the other, and then none. -/
inductive Gives : Lines ρ → Feed → List BoundedLine → Prop where
  | none {l l' : Lines ρ} {f f' : Feed} (hnext : l.next f = ⟨none, l', f'⟩)
      (hstopped : f'.stopped = false) : Gives l f []
  | some {l l' : Lines ρ} {f f' : Feed} {line : BoundedLine} {lines : List BoundedLine}
      (hnext : l.next f = ⟨some line, l', f'⟩) (hstopped : f'.stopped = false)
      (h : Gives l' f' lines) : Gives l f (line :: lines)

theorem Gives.of_next_eq {l l' : Lines ρ} {f f' : Feed} {lines : List BoundedLine}
    (h : Gives l' f' lines) (hnext : l.next f = l'.next f') : Gives l f lines := by
  cases h with
  | none hnone hstopped => exact .none (hnext.trans hnone) hstopped
  | some hsome hstopped h => exact .some (hnext.trans hsome) hstopped h

/-- Lines that are complete are given before anything is pulled. -/
theorem Gives.ready {l : Lines ρ} {f : Feed} (hstopped : f.stopped = false)
    {lines : List BoundedLine} (h : Gives { l with ready := [] } f lines)
    (ready : List BoundedLine) : Gives { l with ready } f (ready ++ lines) := by
  induction ready with
  | nil => exact h
  | cons line ready ih =>
    have hnext : { l with ready := line :: ready }.next f = ⟨line, { l with ready }, f⟩ := by
      rw [next]
    exact .some hnext hstopped ih

/-! ## One pull -/

theorem next_of_ended (l : Lines ρ) (hready : l.ready = []) (hended : l.ended = true) (f : Feed) :
    l.next f = ⟨none, l, f⟩ := by
  rw [next]
  split
  · simp_all
  · rw [if_pos hended]

/-- With no line ready, the next one depends on what is pulled. -/
theorem next_eq (l : Lines ρ) (hready : l.ready = []) (hended : l.ended = false) (f : Feed) :
    l.next f =
      match Chunked.pull l.stream f with
      | .data now stream f =>
        { l with
          stream
          assembler := (l.assembler.feed [] now).1
          ready := (l.assembler.feed [] now).2.reverse }.next f
      | .again stream f => { l with stream }.next f
      | .ended stream f => ⟨l.assembler.finish?, { l with stream, ended := true }, f⟩
      | .failed error stream f =>
        ⟨some (.readError l.assembler.position error), { l with stream, ended := true }, f⟩ := by
  rw [next]
  split
  · simp_all
  · rw [if_neg (by simp [hended])]
    split <;> rename_i hpull <;> rw [hpull]

/-- The lines of a stream are those of its bytes. -/
theorem gives_of_drains {r : ρ} {f : Feed} {bytes : Bytes} (h : Drains r f bytes) (a : Assembler) :
    Gives { stream := r, assembler := a } f (a.split bytes) := by
  induction h generalizing a with
  | @ended r r' f f' hpull hstopped =>
    have hnext : { stream := r, assembler := a : Lines ρ }.next f =
        ⟨a.finish?, { stream := r', assembler := a, ended := true }, f'⟩ := by
      rw [next_eq _ rfl rfl, hpull]
    have hafter : Gives { stream := r', assembler := a, ended := true } f' [] :=
      .none (next_of_ended _ rfl rfl f') hstopped
    have hsplit : a.split [] = a.finish?.toList := rfl
    rw [hsplit]
    cases hfinish : a.finish? with
    | none => exact .none (hfinish ▸ hnext) hstopped
    | some line => exact .some (hfinish ▸ hnext) hstopped hafter
  | again hpull _ _ ih =>
    refine (ih a).of_next_eq ?_
    rw [next_eq _ rfl rfl, hpull]
  | @data r r' f f' now later hpull hstopped _ ih =>
    rw [Assembler.split_append]
    have hlater := Gives.ready (l := { stream := r', assembler := (a.feed [] now).1 }) hstopped
      (ih _) (a.feed [] now).2.reverse
    refine hlater.of_next_eq ?_
    rw [next_eq _ rfl rfl, hpull]

end Lines

end RunLog
