import RunLog.Line.Parser
import RunLog.Proofs.JsonText
import RunLog.Proofs.LinePath
import RunLog.Proofs.Naming

/-! # The path among the fields

Where the expression for the fields before the path is right about a line, and the line reads as
JSON, the fifth field is what stands in the place of the path. The one field on which the two can
disagree is the hash, which ends at the first quote for the expression: if that quote is escaped,
the string goes on to the quote before the kind, and a letter after a string is no JSON. -/

namespace RunLog

namespace Json

variable {fuel depth : Nat} {acc : List Json} {cs rest : List Char} {r : Json × List Char}

/-! ## One item after the other -/

/-- A value of the given kind and then a comma, unless there is no JSON. -/
def Leads (depth : Nat) (P : Json → Prop) (cs rest : List Char) : Prop :=
  ∀ fuel item left, readValue? fuel depth cs = some (item, left) → left = ',' :: rest ∧ P item

theorem Leads.next {P : Json → Prop} (hcs : Leads depth P cs rest)
    (h : readItems? fuel depth acc cs = some r) :
    ∃ fuel item, P item ∧ readItems? fuel depth (item :: acc) rest = some r := by
  cases fuel with
  | zero => cases h
  | succ fuel =>
    unfold readItems? at h
    split at h
    · cases h
    · rename_i item left hread
      obtain ⟨rfl, hitem⟩ := hcs fuel item left hread
      rw [skipBlank_of_ne (by decide)] at h
      exact ⟨fuel, item, hitem, h⟩

/-- The items already read stay in front. -/
theorem readItems?_acc (h : readItems? fuel depth acc cs = some r) :
    ∃ more, r.1 = array (acc.reverse ++ more) := by
  induction fuel generalizing acc cs with
  | zero => cases h
  | succ fuel ih =>
    unfold readItems? at h
    split at h
    · cases h
    · rename_i item left _
      split at h
      · obtain ⟨more, hmore⟩ := ih h
        exact ⟨item :: more, by simpa using hmore⟩
      · obtain rfl := Option.some.inj h
        exact ⟨[item], by simp⟩
      · cases h

/-! ## Strings -/

/-- Nothing that is escaped between quotes. -/
def Plain (cs : List Char) : Prop := ∀ c ∈ cs, c ≠ '"' ∧ c ≠ '\\' ∧ 32 ≤ c.toNat

theorem plain_digit {c : Char} (h : Number.isDigit c = true) :
    c ≠ '"' ∧ c ≠ '\\' ∧ 32 ≤ c.toNat := by
  have hbounds := Number.toNat_of_isDigit h
  refine ⟨?_, ?_, by omega⟩
  · rintro rfl
    exact absurd h (by decide)
  · rintro rfl
    exact absurd h (by decide)

theorem escape_of_plain {c : Char} (h : c ≠ '"' ∧ c ≠ '\\' ∧ 32 ≤ c.toNat) : escape c = [c] := by
  have hcontrol : ∀ d : Char, d.toNat < 32 → c ≠ d := by
    rintro d hd rfl
    exact Nat.not_lt.mpr h.2.2 hd
  rw [escape, if_neg h.1, if_neg h.2.1, if_neg (hcontrol _ (by decide)),
    if_neg (hcontrol _ (by decide)), if_neg (hcontrol _ (by decide)),
    if_neg (hcontrol _ (by decide)), if_neg (hcontrol _ (by decide)), if_neg (Nat.not_lt.mpr h.2.2)]

theorem Plain.flatMap_escape (h : Plain cs) : cs.flatMap escape = cs := by
  induction cs with
  | nil => rfl
  | cons c cs ih =>
    obtain ⟨hc, hcs⟩ := List.forall_mem_cons.mp h
    rw [List.flatMap_cons, escape_of_plain hc, ih hcs, List.singleton_append]

theorem Plain.readString? (h : Plain cs) (before : List Char) :
    readString? before .plain (cs ++ '"' :: rest) =
      some (String.ofList (before.reverse ++ cs), rest) := by
  have hread := readString?_quoted before cs rest
  rwa [h.flatMap_escape] at hread

theorem readValue?_quote (fuel depth : Nat) (cs : List Char) :
    readValue? (fuel + 1) depth ('"' :: cs) =
      (Json.readString? [] .plain cs).map fun p => (string p.1, p.2) := rfl

theorem Plain.leads (h : Plain cs) : Leads depth (· = string (String.ofList cs))
    ('"' :: (cs ++ '"' :: ',' :: rest)) rest := by
  intro fuel item left hread
  cases fuel with
  | zero => cases hread
  | succ fuel =>
    rw [readValue?_quote, h.readString?] at hread
    obtain ⟨rfl, rfl⟩ := Prod.mk.inj (Option.some.inj hread)
    exact ⟨rfl, rfl⟩

/-- At the next quote a string ends, unless a backslash stands before the quote. -/
theorem readString?_quote (state : StringState) (before rest : List Char) (hcs : '"' ∉ cs) :
    Json.readString? before state (cs ++ '"' :: rest) = none ∨
      (∃ s, Json.readString? before state (cs ++ '"' :: rest) = some (s, rest)) ∨
      ∃ read, Json.readString? before state (cs ++ '"' :: rest) =
        Json.readString? read .plain rest := by
  induction cs generalizing state before with
  | nil =>
    cases state with
    | plain => exact .inr (.inl ⟨_, rfl⟩)
    | escaped => exact .inr (.inr ⟨'"' :: before, rfl⟩)
    | unit high left value => exact .inl rfl
    | paired high => exact .inl rfl
    | pairedEscape high => exact .inl rfl
  | cons c cs ih =>
    rw [List.mem_cons, not_or] at hcs
    have hstep := Json.readString?.eq_3 before state c (cs ++ '"' :: rest) fun _ hc => hcs.1 hc.symm
    rw [List.cons_append, hstep]
    cases state.step before c with
    | none => exact .inl rfl
    | some p => exact ih p.2 p.1 hcs.2

/-! ## Numbers and null -/

/-- A numeral of nothing but digits is read to its end. -/
theorem read?_word (w : Word .digit) {p : Number × List Char} (h : Number.read? w.chars = some p) :
    p.2 = [] := by
  have hdigit : ∀ c ∈ w.chars, Number.isDigit c = true :=
    fun c hc => CharSet.mem_digit.mp (w.mem c hc)
  have hsplit : (Number.splitDigits w.chars).2 = [] := by
    have hdrop : (w.chars ++ []).dropWhile Number.isDigit = [] :=
      List.dropWhile_append_of_pos hdigit
    rwa [List.append_nil] at hdrop
  obtain ⟨c, cs, hchars⟩ := List.exists_cons_of_ne_nil w.ne_nil
  have hminus : c ≠ '-' := by
    rintro rfl
    exact absurd (hdigit '-' (hchars ▸ List.mem_cons_self)) (by decide)
  rw [hchars, Number.read?_of_ne_minus hminus, ← hchars, Number.readUnsigned?] at h
  split at h
  · cases h
  · cases h
  · rename_i whole rest _ _ heq
    obtain rfl : rest = [] := by rw [← hsplit, heq]
    obtain ⟨n, -, rfl⟩ := Option.map_eq_some_iff.mp h
    rfl

theorem leads_word (w : Word .digit) :
    Leads depth (fun _ => True) (w.chars ++ ',' :: rest) rest := by
  intro fuel item left hread
  cases fuel with
  | zero => cases hread
  | succ fuel =>
    obtain ⟨c, cs, hchars⟩ := List.exists_cons_of_ne_nil w.ne_nil
    have hc : c = '-' ∨ Number.isDigit c = true :=
      .inr (CharSet.mem_digit.mp (w.mem c (hchars ▸ List.mem_cons_self)))
    rw [hchars, List.cons_append, readValue?_numeral fuel depth hc, ← List.cons_append, ← hchars,
      Number.read?_append (.comma rest)] at hread
    obtain ⟨p, hp, heq⟩ := Option.map_eq_some_iff.mp hread
    obtain ⟨q, hq, rfl⟩ := Option.map_eq_some_iff.mp hp
    obtain ⟨-, rfl⟩ := Prod.mk.inj heq
    exact ⟨by rw [read?_word w hq, List.nil_append], trivial⟩

theorem leads_null :
    Leads depth (fun _ => True) ('n' :: 'u' :: 'l' :: 'l' :: ',' :: rest) rest := by
  intro fuel item left hread
  cases fuel with
  | zero => cases hread
  | succ fuel =>
    obtain ⟨-, rfl⟩ := Prod.mk.inj (Option.some.inj hread)
    exact ⟨rfl, trivial⟩

/-! ## Up to the path -/

theorem ne_of_letter {c d : Char} (hc : CharSet.letter.mem c = true)
    (hd : CharSet.letter.mem d = false) : c ≠ d := by
  rintro rfl
  simp [hd] at hc

theorem plain_word (w : Word .letter) : Plain w.chars := by
  intro c hc
  have hmem := w.mem c hc
  refine ⟨ne_of_letter hmem rfl, ne_of_letter hmem rfl, ?_⟩
  simp [CharSet.mem, CharSet.letter, Char.le_def, UInt32.le_iff_toNat_le] at hmem
  omega

theorem leads_roleChars (role : Option (Word .letter)) :
    Leads depth (fun _ => True) (Prelude.roleChars role ++ ',' :: rest) rest := by
  cases role with
  | none => exact leads_null
  | some role =>
    intro fuel item left hread
    have hleads : Leads depth _ _ rest := (plain_word role).leads
    refine ⟨(hleads fuel item left ?_).1, trivial⟩
    simpa [Prelude.roleChars] using hread

variable {p : Prelude} {more : List Char}

/-- The other quote at which the hash may end. -/
theorem readString?_afterHash (before : List Char) :
    Json.readString? before .plain (',' :: p.afterHash more) =
      some (String.ofList (before.reverse ++ ',' :: (p.sequence.chars ++ [','])),
        p.kind.chars ++ '"' :: ',' :: (Prelude.roleChars p.role ++ ',' :: more)) := by
  have hplain : Plain (',' :: (p.sequence.chars ++ [','])) := by
    have hsequence : Plain p.sequence.chars := by
      intro c hc
      exact plain_digit (CharSet.mem_digit.mp (p.sequence.mem c hc))
    have hcomma : Plain [','] := by simp [Plain]
    simpa [Plain, or_imp, forall_and] using And.intro hcomma hsequence
  have hread : Json.readString? before .plain (_ ++ '"' :: (p.kind.chars ++ '"' :: ',' ::
      (Prelude.roleChars p.role ++ ',' :: more))) = _ := hplain.readString? before
  simpa [Prelude.afterHash] using hread

/-- Past the hash, the reader stands where the expression does. -/
theorem readItems?_hash (h : readItems? fuel depth acc (p.fields more) = some r) :
    ∃ fuel hash, readItems? fuel depth (hash :: acc) (p.afterHash more) = some r := by
  rcases fuel with _ | _ | fuel
  · cases h
  · cases h
  · unfold readItems? at h
    rw [Prelude.fields, readValue?_quote] at h
    rcases readString?_quote .plain [] (',' :: p.afterHash more) p.quote_not_mem with
      hread | ⟨hash, hread⟩ | ⟨read, hread⟩
    · rw [hread] at h
      cases h
    · rw [hread] at h
      exact ⟨fuel + 1, string hash, h⟩
    · rw [hread, readString?_afterHash] at h
      obtain ⟨c, cs, hchars⟩ := List.exists_cons_of_ne_nil p.kind.ne_nil
      have hletter : CharSet.letter.mem c = true := p.kind.mem c (hchars ▸ List.mem_cons_self)
      have hblank : isBlank c = false := by
        have hne : ∀ d, CharSet.letter.mem d = false → c ≠ d := fun d => ne_of_letter hletter
        simp [isBlank, hne ' ' rfl, hne '\n' rfl, hne '\t' rfl, hne '\r' rfl]
      rw [hchars, List.cons_append, Option.map_some] at h
      dsimp only at h
      rw [skipBlank_of_ne hblank] at h
      split at h
      · rename_i heq
        exact absurd (List.cons.inj heq).1 (ne_of_letter hletter rfl)
      · rename_i heq
        exact absurd (List.cons.inj heq).1 (ne_of_letter hletter rfl)
      · cases h

/-- Values without brackets are read as the items of a list, with nothing left of the bracket that
closes it. -/
theorem readItemsOf?_cons_iff {c : Char} {fields : List Json} (hblank : isBlank c = false)
    (hbracket : c ≠ ']') : readItemsOf? (c :: cs) = some fields ↔
      ∃ left, readItems? (2 * cs.length + 7) (maxDepth - 1) [] (c :: (cs ++ [']'])) =
        some (array fields, left) ∧ skipBlank left = [] := by
  have hlength : 2 * ('[' :: (c :: cs) ++ [']']).length + 2 = 2 * cs.length + 7 + 1 := by
    simp only [List.length_append, List.length_cons, List.length_nil]
    omega
  have hread := readValue?_bracket (2 * cs.length + 7) (maxDepth - 1) hblank hbracket (cs ++ [']'])
  have hvalue : readValue? (2 * ('[' :: (c :: cs) ++ [']']).length + 2) maxDepth
      ('[' :: (c :: cs) ++ [']']) =
        readItems? (2 * cs.length + 7) (maxDepth - 1) [] (c :: (cs ++ [']'])) := by
    rw [hlength]
    exact hread
  unfold readItemsOf? read?
  rw [hvalue]
  constructor
  · intro h
    split at h
    · rename_i items hitems
      obtain rfl := Option.some.inj h
      split at hitems
      · rename_i v left hvalue
        split at hitems
        · rename_i hleft
          obtain rfl := Option.some.inj hitems
          exact ⟨left, hvalue, List.isEmpty_iff.mp hleft⟩
        · cases hitems
      · cases hitems
    · cases h
  · rintro ⟨left, hread, hleft⟩
    rw [hread]
    dsimp only
    rw [hleft]
    rfl

/-- The fifth field is the text in the place of the path. -/
theorem fieldAt_of_readItemsOf? {path : List Char} {fields : List Json} (hpath : Plain path)
    (h : readItemsOf? (p.fields ('"' :: (path ++ '"' :: ',' :: more))) = some fields) :
    fieldAt fields 4 = string (String.ofList path) := by
  obtain ⟨left, h, -⟩ := (readItemsOf?_cons_iff (by decide) (by decide)).mp h
  have happend : '"' :: (p.hash ++ '"' :: ',' ::
      p.afterHash ('"' :: (path ++ '"' :: ',' :: more)) ++ [']']) =
        p.fields ('"' :: (path ++ '"' :: ',' :: (more ++ [']']))) := by
    simp [Prelude.fields, Prelude.afterHash]
  rw [happend] at h
  obtain ⟨fuel, hash, h⟩ := readItems?_hash h
  obtain ⟨fuel, sequence, -, h⟩ := (leads_word p.sequence).next h
  obtain ⟨fuel, kind, -, h⟩ := (plain_word p.kind).leads.next h
  obtain ⟨fuel, role, -, h⟩ := (leads_roleChars p.role).next h
  obtain ⟨fuel, _, rfl, h⟩ := hpath.leads.next h
  obtain ⟨items, hitems⟩ := readItems?_acc h
  rw [Json.array.inj hitems]
  rfl

end Json

/-! ## Records that were read -/

theorem Malformed.bind_eq_ok {α β : Type} {x : Except Malformed α} {f : α → Except Malformed β}
    {b : β} (h : (x >>= f) = .ok b) : ∃ a, x = .ok a ∧ f a = .ok b := by
  cases x with
  | error e => cases h
  | ok a => exact ⟨a, rfl, h⟩

theorem Malformed.map_eq_ok {α β : Type} {f : α → β} {x : Except Malformed α} {b : β}
    (h : f <$> x = .ok b) : ∃ a, x = .ok a ∧ f a = b := by
  cases x with
  | error e => cases h
  | ok a => exact ⟨a, rfl, Except.ok.inj h⟩

/-- A head has the path and the time that stand in its fields. -/
theorem Head.of_ofFields {fields : List Json} {head : Head} (h : ofFields fields = .ok head) :
    (∃ raw, (fieldAt fields 4).string? = some raw ∧ NodeId.ofString? raw = some head.id) ∧
      (fieldAt fields 8).real? = some head.time := by
  unfold ofFields at h
  iterate 4
    split at h
    case h_2 => cases h
  obtain ⟨role, -, h⟩ := Malformed.bind_eq_ok h
  split at h
  case h_2 => cases h
  rename_i raw hraw
  split at h
  case h_2 => cases h
  rename_i id hid
  iterate 2
    split at h
    case h_2 => cases h
  obtain ⟨stream, -, h⟩ := Malformed.bind_eq_ok h
  split at h
  case h_2 => cases h
  rename_i time htime
  obtain rfl := Except.ok.inj h
  exact ⟨⟨raw, hraw, hid⟩, htime⟩

theorem Body.keyword_of_ofFields {keyword : Keyword} {fields : List Json} {body : Body}
    (h : ofFields keyword fields = .ok body) : body.keyword = keyword := by
  cases keyword with
  | text kind =>
    obtain rfl := Except.ok.inj h
    rfl
  | stop =>
    obtain rfl := Except.ok.inj h
    rfl
  | _ =>
    obtain ⟨a, -, rfl⟩ := Malformed.map_eq_ok h
    rfl

namespace Record

variable {line : String} {r : Record}

/-- A record is read from its keyword and its fields. -/
theorem readChars_eq_ok_iff {cs : List Char} : readChars cs = .ok r ↔
    ∃ rest fields, cs = r.keyword.name.toList ++ ',' :: rest ∧
      Json.readItemsOf? rest = some fields ∧ headFields ≤ fields.length ∧
      Head.ofFields (fields.take headFields) = .ok r.head ∧
      Body.ofFields r.keyword (fields.drop headFields) = .ok r.body := by
  constructor
  · intro h
    unfold readChars at h
    split at h
    case h_2 => cases h
    rename_i rawKeyword rest hcut
    split at h
    case h_2 => cases h
    rename_i keyword hkeyword
    split at h
    case h_2 => cases h
    rename_i fields hfields
    split at h
    case isTrue => cases h
    rename_i hlength
    obtain ⟨head, hhead, h⟩ := Malformed.bind_eq_ok h
    obtain ⟨body, hbody, h⟩ := Malformed.bind_eq_ok h
    obtain rfl := Except.ok.inj h
    obtain rfl : keyword = body.keyword := (Body.keyword_of_ofFields hbody).symm
    refine ⟨rest, fields, ?_, hfields, Nat.le_of_not_lt hlength, hhead, hbody⟩
    have hname : body.keyword.name = String.ofList rawKeyword := Keyword.name_of_ofName? hkeyword
    show cs = body.keyword.name.toList ++ _
    rw [hname, String.toList_ofList]
    exact (Text.eq_of_cutOnce? hcut).1
  · rintro ⟨rest, fields, rfl, hfields, hlength, hhead, hbody⟩
    have hcut := Text.cutOnce?_append r.keyword.comma_not_mem_name rest
    simp only [readChars, hcut, String.ofList_toList, Keyword.ofName?_name, hfields, hhead, hbody]
    rw [if_neg (Nat.not_lt.mpr hlength)]
    rfl

theorem parse_eq_ok_iff : parse line = .ok r ↔ readChars (trimTerminators line.toList) = .ok r := by
  rw [parse]
  cases readChars (trimTerminators line.toList) <;> simp

theorem of_parse (h : parse line = .ok r) :
    ∃ rest fields, trimTerminators line.toList = r.keyword.name.toList ++ ',' :: rest ∧
      Json.readItemsOf? rest = some fields ∧
      Head.ofFields (fields.take headFields) = .ok r.head := by
  obtain ⟨rest, fields, hline, hfields, -, hhead, -⟩ :=
    readChars_eq_ok_iff.mp (parse_eq_ok_iff.mp h)
  exact ⟨rest, fields, hline, hfields, hhead⟩

/-- Trimming leaves everything up to a character that is no terminator. -/
theorem trimTerminators_append {c : Char} (hfeed : c ≠ '\n') (hreturn : c ≠ '\r')
    (cs ds : List Char) : trimTerminators (cs ++ c :: ds) = cs ++ c :: trimTerminators ds := by
  have hdrop : ∀ ends : List Char,
      (ends ++ c :: cs.reverse).dropWhile (fun c => c = '\n' || c = '\r') =
        ends.dropWhile (fun c => c = '\n' || c = '\r') ++ c :: cs.reverse := by
    intro ends
    rw [List.dropWhile_append, List.dropWhile_cons_of_neg (by simp [hfeed, hreturn])]
    split
    · rename_i hempty
      rw [List.isEmpty_iff.mp hempty, List.nil_append]
    · rfl
  simp [trimTerminators, hdrop]

theorem trimTerminators_append_ends (cs : List Char) : ∃ ends, cs = trimTerminators cs ++ ends := by
  refine ⟨(cs.reverse.takeWhile fun c => c = '\n' || c = '\r').reverse, ?_⟩
  rw [trimTerminators, ← List.reverse_append, List.takeWhile_append_dropWhile, List.reverse_reverse]

/-- A line begins with the keyword of its record. -/
theorem keyword_of_parse (h : parse line = .ok r) :
    ∃ rest, line.toList = r.keyword.name.toList ++ ',' :: rest := by
  obtain ⟨rest, fields, hline, -, -⟩ := of_parse h
  obtain ⟨ends, hends⟩ := trimTerminators_append_ends line.toList
  exact ⟨rest ++ ends, by rw [hends, hline, List.append_assoc, List.cons_append]⟩

/-- What stands in the place of the path is read as the path. -/
theorem id_of_pathAt {path : List Char} (h : parse line = .ok r) (hplain : Json.Plain path)
    (hpath : PathAt line.toList path) : NodeId.read? path = some r.head.id := by
  obtain ⟨rest, fields, hline, hfields, hhead⟩ := of_parse h
  obtain ⟨p, more, hmore⟩ := hpath
  have htrim : trimTerminators (p.before ('"' :: (path ++ '"' :: ',' :: more))) =
      p.before ('"' :: (path ++ '"' :: ',' :: trimTerminators more)) := by
    have hsplit := trimTerminators_append (c := ',') (by decide) (by decide)
      (p.before ('"' :: (path ++ ['"']))) more
    simpa [Prelude.before_append] using hsplit
  rw [hmore, htrim] at hline
  obtain ⟨-, rfl⟩ := Text.append_cons_inj (p.keyword.not_mem rfl) r.keyword.comma_not_mem_name hline
  have hpath := Json.fieldAt_of_readItemsOf? hplain hfields
  obtain ⟨⟨raw, hraw, hid⟩, -⟩ := Head.of_ofFields hhead
  have hfield : fieldAt (fields.take headFields) 4 = fieldAt fields 4 := by
    rw [fieldAt, List.getElem?_take_of_lt (by decide), fieldAt]
  rw [hfield, hpath] at hraw
  obtain rfl := Option.some.inj hraw
  rwa [NodeId.ofString?, String.toList_ofList] at hid

end Record

end RunLog
