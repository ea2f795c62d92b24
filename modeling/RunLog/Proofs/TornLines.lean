import RunLog.Proofs.LineRoundTrip
import RunLog.Proofs.TornText

/-! # Lines that are cut off

Main statement: what is left of a line that was cut off, as by a crash, reads as a record exactly if
the cut is behind the time or behind a field of the payload, or within a number of these that leaves
a numeral. The record has the keyword and the head that were written, with what is left of the time,
and its payload is read from the fields before the cut: those behind it count as absent. -/

namespace RunLog

namespace Json

variable {vs rest ws : List Json} {text : List Char}

/-- The texts of several values, with a comma behind each. -/
def charsOfLeading (vs : List Json) : List Char := vs.flatMap fun v => v.chars ++ [',']

theorem charsOfLeading_cons (v : Json) (vs : List Json) (text : List Char) :
    charsOfLeading (v :: vs) ++ text = v.chars ++ ',' :: (charsOfLeading vs ++ text) := by
  simp [charsOfLeading]

theorem charsOfItems_append (vs : List Json) (v : Json) (rest : List Json) :
    charsOfItems (vs ++ v :: rest) = charsOfLeading vs ++ charsOfItems (v :: rest) := by
  induction vs with
  | nil => rfl
  | cons u vs ih =>
    rw [charsOfLeading_cons, ← ih]
    cases vs with
    | nil => exact charsOfItems_cons_cons u v rest
    | cons next vs => exact charsOfItems_cons_cons u next (vs ++ v :: rest)

theorem Torn.ne_nil (h : Torn rest text ws) : ws ≠ [] := by
  cases h <;> simp

/-- Values in front of torn text are read as what they are. -/
theorem Torn.append (hvs : ∀ v ∈ vs, v.reread? = some v) (h : Torn rest text ws) :
    Torn (vs ++ rest) (charsOfLeading vs ++ text) (vs ++ ws) := by
  induction vs with
  | nil => exact h
  | cons v vs ih =>
    rw [charsOfLeading_cons]
    exact .next (hvs v List.mem_cons_self) (ih fun u hu => hvs u (List.mem_cons_of_mem v hu))

/-- Where more values are read than stand in front, the cut is behind those. -/
theorem Torn.of_append (hvs : ∀ v ∈ vs, v.reread? = some v) (h : Torn (vs ++ rest) text ws)
    (hlength : vs.length < ws.length) :
    ∃ text' ws', text = charsOfLeading vs ++ text' ∧ ws = vs ++ ws' ∧ Torn rest text' ws' := by
  induction vs generalizing text ws with
  | nil => exact ⟨text, ws, rfl, rfl, h⟩
  | cons v vs ih =>
    cases h with
    | whole h => simp at hlength
    | numeral hq h => simp at hlength
    | next hw h =>
      obtain ⟨text', ws', rfl, rfl, htorn⟩ := ih (fun u hu => hvs u (List.mem_cons_of_mem v hu)) h
        (by simpa using hlength)
      obtain rfl := Option.some.inj ((hvs v List.mem_cons_self).symm.trans hw)
      exact ⟨text', ws', (charsOfLeading_cons v vs text').symm, rfl, htorn⟩

end Json

/-- The hash and the fields up to the stream have no numbers but natural ones. -/
theorem Head.reread?_leading (h : Head) :
    ∀ v ∈ Json.string h.hash :: h.frontFields, v.reread? = some v := by
  have hcomposed : ∀ v ∈ Json.string h.hash :: h.frontFields,
      Json.Composed Number.ReadsBack 0 v := by
    have hnatural : ∀ n, (Number.natural n).ReadsBack := Number.read?_digits
    simp [frontFields, toFields, hnatural]
  exact fun v hv => (hcomposed v hv).reread?_eq_self

namespace Record

variable {r r' : Record} {p : String}

/-- The text of a line up to the time. -/
def upToTime (r : Record) : List Char :=
  r.keyword.name.toList ++ ',' :: Json.charsOfLeading (.string r.head.hash :: r.head.frontFields)

/-- The time and the fields of the payload. -/
def timedFields (r : Record) : List Json := .ofFloat r.head.time :: trimNulls r.body.toFields

theorem fields_eq (r : Record) :
    r.fields = (.string r.head.hash :: r.head.frontFields) ++ r.timedFields := by
  simp [fields, timedFields, Head.toFields_eq]

theorem chars_eq (r : Record) :
    r.chars = r.keyword.name.toList ++ ',' :: Json.charsOfItems r.fields := by
  rw [chars, joinLine, List.append_assoc, List.cons_append]
  rfl

/-- A line goes on from the time. -/
theorem chars_eq_upToTime (r : Record) :
    r.chars = r.upToTime ++ Json.charsOfItems r.timedFields := by
  rw [chars_eq, fields_eq, timedFields, Json.charsOfItems_append, upToTime, List.append_assoc,
    List.cons_append]

/-- What is left of a line has the keyword of the line if it has one at all. -/
theorem eq_of_cut {k : Keyword} {rest : List Char} (hp : k.name.toList ++ ',' :: rest <+: r.chars) :
    k = r.keyword ∧ rest <+: Json.charsOfItems r.fields := by
  obtain ⟨more, hmore⟩ := hp
  rw [chars_eq, List.append_assoc, List.cons_append] at hmore
  obtain ⟨hname, hrest⟩ :=
    Text.append_cons_inj k.comma_not_mem_name r.keyword.comma_not_mem_name hmore
  have hread := k.ofName?_name
  rw [String.toList_inj.mp hname, r.keyword.ofName?_name] at hread
  exact ⟨(Option.some.inj hread).symm, more, hrest⟩

/-- The head of a cut line is read with what is left of the time. -/
theorem head_of_cut (r : Record) (time : Json) (more : List Json) :
    Head.ofFields
        ((Json.string r.head.hash :: r.head.frontFields ++ time :: more).take headFields) =
      match time.real? with
      | some time => .ok { r.head with time }
      | none => .error .timeNotNumber :=
  r.head.ofFields_frontFields time

/-- Enough fields for a head are left exactly if something of the time is. -/
theorem readItemsOf?_cut_iff {rest : List Char} {fields : List Json}
    (hrest : rest <+: Json.charsOfItems r.fields) :
    Json.readItemsOf? rest = some fields ∧ headFields ≤ fields.length ↔
      ∃ text time more,
        rest = Json.charsOfLeading (.string r.head.hash :: r.head.frontFields) ++ text ∧
        fields = .string r.head.hash :: r.head.frontFields ++ time :: more ∧
        Json.Torn r.timedFields text (time :: more) := by
  constructor
  · rintro ⟨hfields, hlength⟩
    have hne : rest ≠ [] := by
      rintro rfl
      obtain rfl : [] = fields := Option.some.inj hfields
      exact absurd hlength (by decide)
    have hread := (Json.readItemsOf?_eq_some_iff r.spelled_fields hrest hne).mp hfields
    rw [fields_eq] at hread
    obtain ⟨text, ws, rfl, rfl, htorn⟩ := hread.of_append r.head.reread?_leading hlength
    obtain ⟨time, more, rfl⟩ := List.exists_cons_of_ne_nil htorn.ne_nil
    exact ⟨text, time, more, rfl, rfl, htorn⟩
  · rintro ⟨text, time, more, rfl, rfl, htorn⟩
    have hread := htorn.append r.head.reread?_leading
    rw [← fields_eq] at hread
    refine ⟨(Json.readItemsOf?_eq_some_iff r.spelled_fields hrest ?_).mpr hread, ?_⟩
    · rw [Json.charsOfLeading_cons]
      exact List.cons_ne_nil _ _
    · simp [headFields, Head.frontFields, Head.toFields]

/-- Exactly the cuts behind the time leave a record: behind a field, or within a number. -/
theorem parse_cut_iff (hp : p.toList <+: r.render.toList) :
    parse p = .ok r' ↔ ∃ text time fields t,
      p.toList = r.upToTime ++ text ∧ Json.Torn r.timedFields text (time :: fields) ∧
        time.real? = some t ∧ r'.head = { r.head with time := t } ∧
        Body.ofFields r.keyword fields = .ok r'.body := by
  rw [render, String.toList_ofList] at hp
  have hprintable : Text.Printable p.toList := fun c hc => r.printable_chars c (hp.mem hc)
  rw [parse_eq_ok_iff, trimTerminators_of_printable hprintable, readChars_eq_ok_iff]
  constructor
  · rintro ⟨rest, fields, hline, hfields, hlength, hhead, hbody⟩
    rw [hline] at hp
    obtain ⟨hkeyword, hrest⟩ := eq_of_cut hp
    obtain ⟨text, time, more, rfl, rfl, htorn⟩ :=
      (readItemsOf?_cut_iff hrest).mp ⟨hfields, hlength⟩
    rw [head_of_cut] at hhead
    cases ht : time.real? with
    | none =>
      rw [ht] at hhead
      cases hhead
    | some t =>
      rw [ht] at hhead
      refine ⟨text, time, more, t, ?_, htorn, ht, (Except.ok.inj hhead).symm, ?_⟩
      · rw [hline, hkeyword, upToTime, List.append_assoc, List.cons_append]
      · rw [← hkeyword]
        exact hbody
  · rintro ⟨text, time, more, t, hline, htorn, ht, hhead, hbody⟩
    rw [hline, upToTime, List.append_assoc, List.cons_append] at hp ⊢
    have hkeyword : r'.keyword = r.keyword := Body.keyword_of_ofFields hbody
    obtain ⟨hfields, hlength⟩ :=
      (readItemsOf?_cut_iff (eq_of_cut hp).2).mpr ⟨text, time, more, rfl, rfl, htorn⟩
    refine ⟨_, _, by rw [hkeyword], hfields, hlength, ?_, ?_⟩
    · rw [head_of_cut, ht, hhead]
    · rw [hkeyword]
      exact hbody

/-! ### A note whose text is lost -/

/-- A note taken after a quarter of a second. -/
def note : Record where
  head := ⟨"h", 0, .test, none, ⟨[0]⟩, .none, .none, none, 0.25⟩
  body := .text .note "hi"

/-- Its line, up to the end of the time. -/
def noteToTime : String := "NOTE,\"h\",0,\"Test\",null,\"0\",0,0,null,0.25"

/-- Its line, up to the decimal point of the time. -/
def noteToPoint : String := "NOTE,\"h\",0,\"Test\",null,\"0\",0,0,null,0"

/-- Behind the time the text of the note is absent, which reads as an empty one. -/
theorem parse_cut_iff_note :
    noteToTime.toList <+: note.render.toList ∧
      parse noteToTime = .ok { note with body := .text .note "" } := by
  have hp : noteToTime.toList <+: note.render.toList := by decide +kernel
  have htime : (Number.real note.head.time).ReadsBack := by
    unfold Number.ReadsBack
    decide +kernel
  have hreread : (Json.ofFloat note.head.time).reread? = some (.number (.real 0.25)) :=
    (show Json.Composed Number.ReadsBack 0 _ from .number htime).reread?_eq_self
  have htext : noteToTime.toList = note.upToTime ++ (Json.ofFloat note.head.time).chars := by
    decide +kernel
  exact ⟨hp, (parse_cut_iff hp).mpr ⟨_, _, [], 0.25, htext, .whole hreread, rfl, rfl, rfl⟩⟩

/-- A line that is cut off may be taken for a record, with the payload lost and the time altered. -/
theorem torn_note_is_read :
    (∀ x ∈ note.numbers, Numeric.isFinite x = true) ∧
      (noteToTime.toList <+: note.render.toList ∧ noteToTime ≠ note.render ∧
        (parse noteToTime).toOption = some { note with body := .text .note "" }) ∧
      noteToPoint.toList <+: note.render.toList ∧ noteToPoint ≠ note.render ∧
        (parse noteToPoint).toOption =
          some ⟨{ note.head with time := 0 }, .text .note ""⟩ := by
  decide +kernel

end Record

end RunLog
