import Mathlib.Data.List.DropRight
import RunLog.Proofs.Cutting
import RunLog.Proofs.LineEnds

/-! # Segments of a byte string

A byte string is cut at its line feeds. A segment that a line feed ends is complete; the bytes
behind the last line feed are unfinished. Main statement: the lines of a stream are the segments of
its bytes, each with the position of its first byte, or the report that it is too long. -/

namespace RunLog

open Assembler (lineFeed)

/-- The bytes behind the last line feed. -/
def unfinished (bytes : Bytes) : Bytes := bytes.rtakeWhile (· ≠ lineFeed)

theorem unfinished_append_lineFeed (bytes : Bytes) : unfinished (bytes ++ [lineFeed]) = [] :=
  List.rtakeWhile_concat_neg _ _ _ (by simp)

theorem unfinished_append_of_ne {b : UInt8} (h : b ≠ lineFeed) (bytes : Bytes) :
    unfinished (bytes ++ [b]) = unfinished bytes ++ [b] :=
  List.rtakeWhile_concat_pos _ _ _ (by simpa using h)

theorem lineFeed_not_mem_unfinished (bytes : Bytes) : lineFeed ∉ unfinished bytes :=
  fun h => by simpa using List.mem_rtakeWhile_imp h

theorem length_unfinished_le (bytes : Bytes) : (unfinished bytes).length ≤ bytes.length :=
  (List.rtakeWhile_suffix _ _).length_le

/-- The segments that a line feed ends. -/
def completed (bytes : Bytes) : List Bytes := (Text.cut lineFeed bytes).dropLast

/-- The segments that a line feed ends, and what is unfinished if it has any bytes. -/
def segments (bytes : Bytes) : List Bytes :=
  completed bytes ++ if unfinished bytes = [] then [] else [unfinished bytes]

/-- Segments, each with the position of its first byte. -/
def positioned (offset : Nat) : List Bytes → List (Nat × Bytes)
  | [] => []
  | segment :: rest => (offset, segment) :: positioned (offset + segment.length + 1) rest

variable {segment bytes : Bytes}

/-- A byte string has no line feed, or it is a complete segment and what follows. -/
@[elab_as_elim]
theorem segment_induction {motive : Bytes → Prop}
    (unterminated : ∀ bytes, lineFeed ∉ bytes → motive bytes)
    (terminated : ∀ segment rest, lineFeed ∉ segment → motive rest →
      motive (segment ++ lineFeed :: rest)) (bytes : Bytes) : motive bytes :=
  Text.cut_induction lineFeed unterminated terminated bytes

/-! ## One segment -/

theorem completed_unterminated (h : lineFeed ∉ bytes) : completed bytes = [] := by
  rw [completed, Text.cut_of_not_mem h]
  rfl

theorem completed_terminated (h : lineFeed ∉ segment) (rest : Bytes) :
    completed (segment ++ lineFeed :: rest) = segment :: completed rest := by
  rw [completed, Text.cut_append h, List.dropLast_cons_of_ne_nil (Text.cut_ne_nil _ _), completed]

theorem unfinished_unterminated (h : lineFeed ∉ bytes) : unfinished bytes = bytes := by
  rw [unfinished, List.rtakeWhile_eq_self_iff]
  intro b hb
  simpa using ne_of_mem_of_not_mem hb h

theorem unfinished_terminated (segment rest : Bytes) :
    unfinished (segment ++ lineFeed :: rest) = unfinished rest := by
  induction rest using List.reverseRecOn with
  | nil => exact unfinished_append_lineFeed segment
  | append_singleton rest b ih =>
    rw [← List.cons_append, ← List.append_assoc]
    by_cases hb : b = lineFeed
    · rw [hb, unfinished_append_lineFeed, unfinished_append_lineFeed]
    · rw [unfinished_append_of_ne hb, unfinished_append_of_ne hb, ih]

theorem segments_unterminated (h : lineFeed ∉ bytes) :
    segments bytes = if bytes = [] then [] else [bytes] := by
  rw [segments, completed_unterminated h, unfinished_unterminated h, List.nil_append]

theorem segments_terminated (h : lineFeed ∉ segment) (rest : Bytes) :
    segments (segment ++ lineFeed :: rest) = segment :: segments rest := by
  rw [segments, completed_terminated h, unfinished_terminated, segments, List.cons_append]

/-- What is unfinished is the only segment that is not complete. -/
theorem segments_eq (bytes : Bytes) :
    segments bytes = completed bytes ++ segments (unfinished bytes) := by
  rw [segments_unterminated (lineFeed_not_mem_unfinished bytes), segments]

/-! ## Bytes that come in pieces -/

/-- What is unfinished goes on in what comes next. -/
theorem completed_append (now later : Bytes) :
    completed (now ++ later) = completed now ++ completed (unfinished now ++ later) := by
  induction now using segment_induction with
  | unterminated now h => rw [completed_unterminated h, unfinished_unterminated h, List.nil_append]
  | terminated segment rest h ih =>
    rw [List.append_assoc, List.cons_append, completed_terminated h, completed_terminated h,
      unfinished_terminated, ih, List.cons_append]

theorem unfinished_append (now later : Bytes) :
    unfinished (now ++ later) = unfinished (unfinished now ++ later) := by
  induction now using segment_induction with
  | unterminated now h => rw [unfinished_unterminated h]
  | terminated segment rest h ih =>
    rw [List.append_assoc, List.cons_append, unfinished_terminated, unfinished_terminated, ih]

/-! ## Segments and lines -/

/-- A segment stands at its position, and a line feed is behind it unless the bytes end. -/
theorem stands_of_mem_positioned {offset : Nat} {p : Nat × Bytes}
    (h : p ∈ positioned offset (segments bytes)) :
    offset ≤ p.1 ∧ (p.2 ++ [lineFeed] <+: bytes.drop (p.1 - offset) ∨
      p.2 = bytes.drop (p.1 - offset)) := by
  induction bytes using segment_induction generalizing offset with
  | unterminated bytes hbytes =>
    rw [segments_unterminated hbytes] at h
    split at h
    · cases h
    · obtain rfl := List.mem_singleton.mp h
      simp
  | terminated segment rest hsegment ih =>
    rw [segments_terminated hsegment, positioned] at h
    rcases List.mem_cons.mp h with rfl | h
    · simp
    · obtain ⟨hle, hstands⟩ := ih h
      refine ⟨by omega, ?_⟩
      have hdrop : (segment ++ lineFeed :: rest).drop (p.1 - offset) =
          rest.drop (p.1 - (offset + segment.length + 1)) := by
        rw [List.append_cons, List.drop_append, List.drop_of_length_le (by simp; omega),
          List.nil_append, List.length_append, List.length_singleton, Nat.sub_sub, Nat.add_assoc]
      rwa [hdrop]

/-- The lines of a stream are its segments. -/
theorem Assembler.split_eq_positioned (limit offset : Nat) (bytes : Bytes) :
    ({ limit, offset } : Assembler).split bytes =
      (positioned offset (segments bytes)).map fun p => .ofBytes limit p.1 p.2 := by
  induction bytes using segment_induction generalizing offset with
  | unterminated bytes h =>
    rw [split_unterminated limit offset h, segments_unterminated h]
    split <;> rfl
  | terminated segment rest h ih =>
    rw [split_terminated limit offset h, segments_terminated h, positioned, List.map_cons, ih]

end RunLog
