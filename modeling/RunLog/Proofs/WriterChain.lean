import RunLog.Proofs.LineRoundTrip
import RunLog.Proofs.TamperEvidence
import RunLog.Proofs.TextBytes

/-! # What a writer has written

The lines of a writer are those of the records that it numbered and linked, one after the other
since it was new. They carry the numbers from zero on, and each follows the one before it. -/

namespace RunLog

namespace NodeWriter

/-- A writer that has not written yet. -/
def fresh (node : NodeInfo) (rule : ChainRule) (places : Nat) : NodeWriter := { node, rule, places }

variable (w : NodeWriter) (body : Body) (time : Float) (stream : Option StreamName)

/-- The link of the record that comes next. -/
def nextLink : List Char :=
  w.rule.link w.prior (w.record body time stream).keyword (w.record body time stream).restChars

/-- The record that comes next. -/
def linked : Record :=
  let r := w.record body time stream
  { r with head := { r.head with hash := String.ofList (w.nextLink body time stream) } }

theorem chars_linked :
    (w.linked body time stream).chars = joinLine (w.record body time stream).keyword
      (w.nextLink body time stream) (w.record body time stream).restChars := by
  have hhash : (w.linked body time stream).head.hash.toList = w.nextLink body time stream :=
    String.toList_ofList
  rw [Record.chars, hhash]
  rfl

/-- A draft is made of records whose numbers are finite. -/
theorem draft_eq :
    w.draft body time stream =
      match (w.linked body time stream).checkFinite with
      | .error e => .error e
      | .ok () => .ok ⟨(w.linked body time stream).render, w.nextLink body time stream⟩ := by
  have hcheck : (w.linked body time stream).checkFinite = (w.record body time stream).checkFinite :=
    rfl
  rw [draft, Record.render, chars_linked, hcheck]
  rfl

variable {w body time stream}

theorem of_draft_eq_ok {d : Draft} (h : w.draft body time stream = .ok d) :
    (w.linked body time stream).checkFinite = .ok () ∧
      d = ⟨(w.linked body time stream).render, w.nextLink body time stream⟩ := by
  rw [draft_eq] at h
  split at h
  · cases h
  · rename_i hcheck
    exact ⟨hcheck, (Except.ok.inj h).symm⟩

end NodeWriter

/-- A writer with a rule, and all that it has written. -/
inductive Wrote (rule : ChainRule) : NodeWriter → List Record → Prop where
  | fresh (node : NodeInfo) (places : Nat) : Wrote rule (.fresh node rule places) []
  | next {w : NodeWriter} {records : List Record} {body : Body} {time : Float}
      {stream : Option StreamName} (h : Wrote rule w records)
      (hcheck : (w.linked body time stream).checkFinite = .ok ()) :
      Wrote rule (w.advance (w.nextLink body time stream)) (records ++ [w.linked body time stream])

namespace Wrote

variable {rule : ChainRule} {w : NodeWriter} {records : List Record}

theorem of_draft {body : Body} {time : Float} {stream : Option StreamName} {d : Draft}
    (h : Wrote rule w records) (hd : w.draft body time stream = .ok d) :
    ∃ r : Record, d.line = r.render ∧ Wrote rule (w.advance d.link) (records ++ [r]) := by
  obtain ⟨hcheck, rfl⟩ := NodeWriter.of_draft_eq_ok hd
  refine ⟨w.linked body time stream, rfl, ?_⟩
  exact h.next hcheck

theorem rule_eq (h : Wrote rule w records) : w.rule = rule := by
  induction h with
  | fresh node places => rfl
  | next _ _ ih => exact ih

theorem sequence_eq (h : Wrote rule w records) : w.sequence = UInt64.ofNat records.length := by
  induction h with
  | fresh node places => rfl
  | next _ _ ih =>
    rw [NodeWriter.advance, ih, List.length_append, UInt64.ofNat_add]
    rfl

/-- The records of a writer are numbered from zero, without a gap. -/
theorem sequence_getElem (h : Wrote rule w records) {n : Nat} {r : Record}
    (hr : records[n]? = some r) : r.head.sequence = UInt64.ofNat n := by
  induction h with
  | fresh node places => simp at hr
  | @next w records body time stream hw _ ih =>
    rcases Nat.lt_trichotomy n records.length with hlt | rfl | hgt
    · rw [List.getElem?_append_left hlt] at hr
      exact ih hr
    · rw [List.getElem?_concat_length] at hr
      obtain rfl := Option.some.inj hr
      exact hw.sequence_eq
    · have hlength : (records ++ [w.linked body time stream]).length ≤ n := by
        rw [List.length_append]
        exact hgt
      rw [List.getElem?_eq_none hlength] at hr
      simp at hr

/-- The lines of a writer follow each other and lead to its link. -/
theorem foldlM_follow? (h : Wrote rule w records) :
    (records.map Record.chars).foldlM (Chain.follow? rule) [] = some w.prior := by
  induction h with
  | fresh node places => rfl
  | @next w records body time stream hw _ ih =>
    rw [List.map_append, List.map_singleton, Chain.foldlM_follow?_concat]
    refine ⟨w.prior, ih, ?_⟩
    rw [NodeWriter.chars_linked, NodeWriter.nextLink, hw.rule_eq]
    exact Chain.follow?_joinLine rule w.prior _ _

theorem firstBad?_eq_none (h : Wrote rule w records) :
    Chain.firstBad? rule (records.map Record.chars) = none := by
  rw [Chain.firstBad?_eq_none_iff]
  exact ⟨w.prior, h.foldlM_follow?⟩

end Wrote

/-! ## Plain logs -/

namespace Sink

theorem contents_write {s s' : Sink} {bytes : Bytes} (h : s.write bytes = .ok s') :
    s'.contents = s.contents ++ bytes := by
  unfold write at h
  split at h
  · cases h
  · obtain rfl := Except.ok.inj h
    simp [contents]

end Sink

namespace LogFile

/-- A log that was plain when it was opened. -/
def IsPlain (l : LogFile) : Prop := l.format = .plain ∨ l.format = .finished

variable {l l' : LogFile} {line : String}

/-- A line that is taken is added as a whole. -/
theorem of_append_ok (hplain : l.IsPlain) (h : l.append line = (.ok (), l')) :
    l'.IsPlain ∧ l'.sink.contents = l.sink.contents ++ terminated line := by
  unfold append at h
  rcases hplain with hformat | hformat
  · simp only [hformat] at h
    split at h
    · rename_i sink hwrite
      obtain ⟨-, rfl⟩ := Prod.mk.inj h
      exact ⟨.inl rfl, Sink.contents_write hwrite⟩
    · simp at h
  · simp [hformat] at h

/-- A line that is refused leaves a plain log as it was. -/
theorem of_append_error (hplain : l.IsPlain) {e : LogError} (h : l.append line = (.error e, l')) :
    l' = l := by
  unfold append at h
  rcases hplain with hformat | hformat
  · simp only [hformat] at h
    split at h
    · simp at h
    · exact (Prod.mk.inj h).2.symm
  · simp only [hformat] at h
    exact (Prod.mk.inj h).2.symm

theorem finish_of_isPlain (hplain : l.IsPlain) :
    l.finish = (.ok (), { l with format := .finished }) := by
  unfold finish
  rcases hplain with hformat | hformat <;> simp only [hformat]

end LogFile

/-- The line of a record has no line feed. -/
theorem Record.lineFeed_not_mem (r : Record) : (0x0A : UInt8) ∉ Text.toBytes r.render := by
  intro h
  exact absurd (Text.le_of_mem_toBytes r.printable_chars h) (by decide)

end RunLog
