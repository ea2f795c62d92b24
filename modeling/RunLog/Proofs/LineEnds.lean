import RunLog.Proofs.WholeLines

/-! # Lines up to their ends

A line feed ends the line under way, however long that line is: a stream that was cut after a line
feed gives that line, and then what a stream gives that begins there. -/

namespace RunLog

/-- A line of these bytes, or the report that it is too long. -/
def BoundedLine.ofBytes (limit offset : Nat) (bytes : Bytes) : BoundedLine :=
  if bytes.length ≤ limit then line offset bytes else tooLong offset bytes.length limit

namespace Assembler

variable {limit offset : Nat} {bytes : Bytes}

/-- Bytes without a line feed are counted, and held while there is room. -/
theorem feed_counted (a : Assembler) (h : lineFeed ∉ bytes) :
    ∃ held, a.feed [] bytes = ({ a with observed := a.observed + bytes.length, held }, []) := by
  induction bytes generalizing a with
  | nil => exact ⟨a.held, rfl⟩
  | cons b rest ih =>
    rw [List.mem_cons, not_or] at h
    obtain ⟨held, hheld⟩ := ih (a.push b).1 h.2
    refine ⟨held, ?_⟩
    have hpush : a.push b = ({ a with
        observed := a.observed + 1
        held := if a.observed < a.limit then b :: a.held else [] }, none) := by
      rw [push, if_neg (Ne.symm h.1)]
    rw [hpush] at hheld
    simp only [feed, hpush, hheld]
    rw [List.length_cons, Nat.add_assoc, Nat.add_comm 1]

/-- A line that has no end yet. -/
theorem feed_unterminated (limit offset : Nat) (h : lineFeed ∉ bytes) :
    ∃ a : Assembler, ({ limit, offset } : Assembler).feed [] bytes = (a, []) ∧
      a.limit = limit ∧ a.position = offset + bytes.length ∧ a.observed = bytes.length ∧
      a.current = .ofBytes limit offset bytes := by
  obtain ⟨held, hheld⟩ := ({ limit, offset } : Assembler).feed_counted h
  have hobserved : 0 + bytes.length = bytes.length := Nat.zero_add _
  refine ⟨_, hheld, rfl, congrArg (offset + ·) hobserved, hobserved, ?_⟩
  by_cases hlimit : bytes.length ≤ limit
  · have hfed := feed_of_lineFeed_not_mem (a := { limit, offset }) h (by simpa using hlimit)
    rw [hheld] at hfed
    have hbytes : held = bytes.reverse := by simpa using hfed
    simp [current, BoundedLine.ofBytes, hlimit, hbytes]
  · simp [current, BoundedLine.ofBytes, hlimit]

/-- A line and its end. -/
theorem feed_terminated (limit offset : Nat) (h : lineFeed ∉ bytes) :
    ({ limit, offset } : Assembler).feed [] (bytes ++ [lineFeed]) =
      ({ limit, offset := offset + bytes.length + 1 }, [.ofBytes limit offset bytes]) := by
  obtain ⟨a, hfeed, rfl, hposition, -, hcurrent⟩ := feed_unterminated limit offset h
  rw [feed_append, hfeed, ← hcurrent]
  simp [feed, push, hposition]

/-- A line and its end, and what follows. -/
theorem split_terminated (limit offset : Nat) (h : lineFeed ∉ bytes) (rest : Bytes) :
    ({ limit, offset } : Assembler).split (bytes ++ lineFeed :: rest) =
      .ofBytes limit offset bytes ::
        ({ limit, offset := offset + bytes.length + 1 } : Assembler).split rest := by
  rw [List.append_cons, split_append, feed_terminated limit offset h]
  rfl

/-- A last line without an end. -/
theorem split_unterminated (limit offset : Nat) (h : lineFeed ∉ bytes) :
    ({ limit, offset } : Assembler).split bytes =
      if bytes = [] then [] else [.ofBytes limit offset bytes] := by
  obtain ⟨a, hfeed, -, -, hobserved, hcurrent⟩ := feed_unterminated limit offset h
  have hlength : 0 < a.observed ↔ bytes ≠ [] := by rw [hobserved, List.length_pos_iff]
  simp only [split, hfeed, finish?, hlength, hcurrent, List.reverse_nil, List.nil_append]
  by_cases hbytes : bytes = [] <;> simp [hbytes]

end Assembler

end RunLog
