import RunLog.Line.Parser
import RunLog.Line.Printer
import RunLog.Proofs.PositionalFields
import RunLog.Writer.Node

/-! # Lines read back

Main statement: a record whose finite numbers have numerals that read back survives being written
as a line and read again exactly if the writer's check lets it pass. A time that is not finite makes
the line unreadable, a metric that is not finite comes back as zero. -/

namespace RunLog

/-! ## The text of a line -/

theorem Keyword.printable_name (k : Keyword) : Text.Printable k.name.toList := by
  intro c hc
  have hlow := (k.bounds_of_mem_name hc).1
  omega

theorem printable_joinLine (k : Keyword) (hash : List Char) {rest : List Char}
    (h : Text.Printable rest) : Text.Printable (joinLine k hash rest) := by
  simp only [joinLine, Text.Printable.append_iff, Text.Printable.cons_iff]
  exact ⟨⟨k.printable_name, by decide, Json.printable_quote hash⟩, by decide, h⟩

theorem trimTerminators_of_printable {cs : List Char} (h : Text.Printable cs) :
    trimTerminators cs = cs := by
  unfold trimTerminators
  rcases hr : cs.reverse with _ | ⟨c, tail⟩
  · simpa using hr.symm
  · have hc : 32 ≤ c.toNat := h c (List.mem_reverse.mp (hr ▸ List.mem_cons_self))
    have hfeed : c ≠ '\n' := by
      rintro rfl
      simp at hc
    have hreturn : c ≠ '\r' := by
      rintro rfl
      simp at hc
    rw [List.dropWhile_cons_of_neg (by simp [hfeed, hreturn]), ← hr, List.reverse_reverse]

namespace Head

variable {P : Number → Prop} {depth : Nat}

theorem composed {h : Head} (hnatural : ∀ n, P (.natural n))
    (ht : Numeric.isFinite h.time = true → P (.real h.time)) :
    ∀ v ∈ h.toFields, Json.Composed P depth v := by
  simp [toFields, hnatural, Json.Composed.ofFloat ht]

/-- The fields between the hash and the time. -/
def frontFields (h : Head) : List Json := h.toFields.dropLast

theorem toFields_eq (h : Head) : h.toFields = h.frontFields ++ [.ofFloat h.time] := rfl

/-- A head is read with the time that stands at the end of its fields. -/
theorem ofFields_frontFields (h : Head) (w : Json) :
    ofFields (.string h.hash :: (h.frontFields ++ [w])) =
      match w.real? with
      | some time => .ok { h with time }
      | none => .error .timeNotNumber := by
  obtain ⟨hash, sequence, kind, role, id, flags, cflags, stream, time⟩ := h
  have hrole : readRole (.ofString? (role.map Role.name)) = .ok role := by
    cases role with
    | none => rfl
    | some role => simp [readRole, Json.ofString?, Role.ofName?_name]
  have hstream : readStream (.ofString? stream) = .ok stream := by
    cases stream <;> rfl
  cases htime : w.real? with
  | some time =>
    simp [ofFields, frontFields, toFields, Json.string?, Json.natural?, NodeKind.ofName?_name,
      hrole, NodeId.ofString?_render, hstream, htime]
  | none =>
    simp [ofFields, frontFields, toFields, Json.string?, Json.natural?, NodeKind.ofName?_name,
      hrole, NodeId.ofString?_render, hstream, htime]
    rfl

/-- A head reads back from its fields unless its time has no numeral. -/
theorem ofFields_toFields (h : Head) :
    ofFields (.string h.hash :: h.toFields) =
      if Numeric.isFinite h.time then .ok h else .error .timeNotNumber := by
  rw [toFields_eq, ofFields_frontFields, Json.ofFloat, ← Numeric.isFinite_eq]
  cases Numeric.isFinite h.time <;> rfl

end Head

namespace Record

variable {r : Record}

/-- The numbers of a record that may fail to be finite. -/
def numbers (r : Record) : List Float := r.head.time :: r.body.metrics.map Metric.value

/-- Every finite number of a record reads back from its numeral. -/
def Readable (r : Record) : Prop :=
  ∀ x ∈ r.numbers, Numeric.isFinite x = true → Numeric.ReadsBack x

instance (r : Record) : Decidable r.Readable :=
  inferInstanceAs (Decidable (∀ x ∈ r.numbers, Numeric.isFinite x = true → Numeric.ReadsBack x))

theorem checkFinite_eq_ok_iff (r : Record) :
    r.checkFinite = .ok () ↔ ∀ x ∈ r.numbers, Numeric.isFinite x = true := by
  have hmetrics : (r.body.metrics.find? fun m => !Numeric.isFinite m.value) = none ↔
      ∀ m ∈ r.body.metrics, Numeric.isFinite m.value = true := by
    simp [List.find?_eq_none]
  simp only [checkFinite, numbers, List.mem_cons, List.mem_map, forall_eq_or_imp,
    forall_exists_index, and_imp, forall_apply_eq_imp_iff₂]
  cases Numeric.isFinite r.head.time with
  | false => simp
  | true =>
    cases h : r.body.metrics.find? fun m => !Numeric.isFinite m.value with
    | none => simpa using hmetrics.mp h
    | some m => simpa [h] using mt hmetrics.mpr

theorem printable_restChars (r : Record) : Text.Printable r.restChars :=
  Json.printable_charsOfItems _

theorem printable_chars (r : Record) : Text.Printable r.chars :=
  printable_joinLine _ _ r.printable_restChars

/-- Everything in a line after the keyword. -/
def fields (r : Record) : List Json :=
  .string r.head.hash :: (r.head.toFields ++ trimNulls r.body.toFields)

/-- The numbers of a line are natural, or the finite ones that the record names. -/
theorem composed_fields {P : Number → Prop} (hnatural : ∀ n, P (.natural n))
    (h : ∀ x ∈ r.numbers, Numeric.isFinite x = true → P (.real x)) {depth : Nat} :
    ∀ v ∈ r.fields, Json.Composed P (depth + 3) v := by
  have hhead : ∀ v ∈ r.head.toFields, Json.Composed P (depth + 3) v :=
    Head.composed hnatural (h r.head.time List.mem_cons_self)
  have hbody : ∀ v ∈ r.body.toFields, Json.Composed P (depth + 3) v := by
    apply Body.composed hnatural
    intro m hm
    exact h m.value (List.mem_cons_of_mem _ (List.mem_map_of_mem hm))
  intro v hv
  rcases List.mem_cons.mp hv with rfl | hv
  · exact .string _
  · rcases List.mem_append.mp hv with hv | hv
    · exact hhead v hv
    · exact hbody v (mem_of_mem_trimNulls hv)

/-- Every number in a line is a numeral. -/
theorem spelled_fields (r : Record) {depth : Nat} :
    ∀ v ∈ r.fields, Json.Composed Number.Spelled (depth + 3) v :=
  composed_fields Number.spelled_natural fun _ _ => Number.spelled_real

/-- The fields of a line are those that were written. -/
theorem readItemsOf?_chars (h : r.Readable) :
    Json.readItemsOf? (Json.quote r.head.hash.toList ++ ',' :: r.restChars) =
      some (.string r.head.hash :: (r.head.toFields ++ trimNulls r.body.toFields)) := by
  have hreads : ∀ v ∈ r.fields, Json.Composed Number.ReadsBack 126 v :=
    composed_fields (P := Number.ReadsBack) Number.read?_digits h
  have hspelled : ∀ v ∈ r.fields, Json.Composed Number.Spelled (Json.maxDepth - 1) v :=
    r.spelled_fields
  exact (Json.readItemsOf?_chars hspelled).trans
    (Json.rereadItems?_eq_self fun v hv => (hreads v hv).reread?_eq_self)

/-- The line of a record reads as the record with every metric that is not finite put to zero,
unless its time is not finite. -/
theorem readChars_chars (h : r.Readable) :
    readChars r.chars =
      if Numeric.isFinite r.head.time then .ok ⟨r.head, r.body.asRead⟩
      else .error .timeNotNumber := by
  have hcut : Text.cutOnce? ',' r.chars =
      some (r.keyword.name.toList, Json.quote r.head.hash.toList ++ ',' :: r.restChars) := by
    rw [chars, joinLine, List.append_assoc, List.cons_append]
    exact Text.cutOnce?_append (r.keyword.comma_not_mem_name) _
  have hhead := r.head.ofFields_toFields
  have hbody := r.body.ofFields_toFields
  have htake : (Json.string r.head.hash :: (r.head.toFields ++ trimNulls r.body.toFields)).take
      headFields = .string r.head.hash :: r.head.toFields := rfl
  have hdrop : (Json.string r.head.hash :: (r.head.toFields ++ trimNulls r.body.toFields)).drop
      headFields = trimNulls r.body.toFields := rfl
  simp only [readChars, hcut, String.ofList_toList, Keyword.ofName?_name, readItemsOf?_chars h,
    htake, hdrop, hhead]
  rw [if_neg (by simp [headFields, Head.toFields])]
  have hkeyword : r.keyword = r.body.keyword := rfl
  rw [hkeyword, hbody]
  cases Numeric.isFinite r.head.time <;> rfl

/-- A printed line has no terminator to trim. -/
theorem parse_ofList {cs : List Char} (h : Text.Printable cs) :
    parse (String.ofList cs) =
      (readChars cs).mapError fun reason => ⟨String.ofList cs, reason⟩ := by
  rw [parse, String.toList_ofList, trimTerminators_of_printable h]
  cases readChars cs <;> rfl

theorem parse_render (h : r.Readable) (hfinite : ∀ x ∈ r.numbers, Numeric.isFinite x = true) :
    parse r.render = .ok r := by
  obtain ⟨head, body⟩ := r
  have htime : Numeric.isFinite head.time = true := hfinite head.time List.mem_cons_self
  have hbody : body.asRead = body := by
    rw [body.asRead_eq_iff]
    intro m hm
    apply hfinite
    exact List.mem_cons_of_mem _ (List.mem_map_of_mem hm)
  rw [render, parse_ofList (printable_chars _), readChars_chars h, if_pos htime, hbody]
  rfl

/-- A record that reads back as itself has finite numbers only. -/
theorem isFinite_of_parse_render (h : r.Readable) (hparse : parse r.render = .ok r) :
    ∀ x ∈ r.numbers, Numeric.isFinite x = true := by
  obtain ⟨head, body⟩ := r
  rw [render, parse_ofList (printable_chars _), readChars_chars h] at hparse
  have htime : Numeric.isFinite head.time = true := by
    by_contra hnot
    rw [if_neg hnot] at hparse
    cases hparse
  rw [if_pos htime] at hparse
  have hbody : body.asRead = body := (Record.mk.inj (Except.ok.inj hparse)).2
  rintro x (_ | ⟨_, hx⟩)
  · exact htime
  · obtain ⟨m, hm, rfl⟩ := List.mem_map.mp hx
    exact body.asRead_eq_iff.mp hbody m hm

/-- What passes the writer's check reads back as it was written, and nothing else does. -/
theorem checkFinite_iff_parse_render (r : Record) (h : r.Readable) :
    r.checkFinite = .ok () ↔ parse r.render = .ok r := by
  rw [checkFinite_eq_ok_iff]
  constructor
  · exact parse_render h
  · exact isFinite_of_parse_render h

/-- A result with metrics, absent fields, and texts that need escapes. -/
def measured : Record where
  head := ⟨"0a\"1b", 7, .test, some .scenario, ⟨[0, 12]⟩, .skip, .none, some "stdout", 0.25⟩
  body := .result ⟨.xfail, some "", none, "/suite/\u0001\n\\é",
    [⟨"load", -0.0, "", none, none, some "u"⟩], [⟨"T-1", none, some "", none, none⟩], []⟩

theorem checkFinite_iff_parse_render_measured :
    measured.Readable ∧ (measured.checkFinite = .ok () ↔ parse measured.render = .ok measured) := by
  have h : measured.Readable := by
    rintro x (_ | ⟨_, _ | ⟨_, ⟨⟩⟩⟩) _
    · unfold Numeric.ReadsBack
      decide +kernel
    · unfold Numeric.ReadsBack
      decide +kernel
  exact ⟨h, checkFinite_iff_parse_render measured h⟩

end Record

end RunLog
