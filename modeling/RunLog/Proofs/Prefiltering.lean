import RunLog.Filter
import RunLog.Proofs.LineRoundTrip
import RunLog.Proofs.NodePaths

/-! # Prefilters and the reader of lines

Main statement: on every line that reads as a record, what the filters find in the bytes is true of
the record, and on a line that was printed from a record with a hash without quotes, they find all
that is true of it. -/

namespace RunLog

/-! ## Printed lines -/

theorem Json.Plain.chars_string {s : String} (h : Plain s.toList) :
    (string s).chars = '"' :: (s.toList ++ ['"']) := by
  rw [chars, quote, h.flatMap_escape, List.cons_append]

theorem Json.quote_not_mem_escape {c : Char} (h : c ≠ '"') : '"' ∉ escape c := by
  have hhex : ∀ n, '"' ≠ Text.hexDigit n := by
    intro n
    have hall : ∀ d < 16, '"' ≠ Nat.digitChar d := by decide
    exact hall (n % 16) (Nat.mod_lt n (by decide))
  unfold escape
  split
  · contradiction
  iterate 6
    split
    · decide
  split
  · simp [hhex]
  · simpa using h.symm

def Keyword.word (k : Keyword) : Word .capital where
  chars := k.name.toList
  ne_nil := by
    cases k with
    | text kind => cases kind <;> decide
    | _ => decide
  mem := List.all_eq_true.mp <| by
    cases k with
    | text kind => cases kind <;> rfl
    | _ => rfl

def NodeKind.word (k : NodeKind) : Word .letter where
  chars := k.name.toList
  ne_nil := by cases k <;> decide
  mem := List.all_eq_true.mp (by cases k <;> rfl)

def Role.word (r : Role) : Word .letter where
  chars := r.name.toList
  ne_nil := by cases r <;> decide
  mem := List.all_eq_true.mp (by cases r <;> rfl)

namespace Record

variable {r : Record}

/-- The fields of a printed line before the path. -/
def prelude (r : Record) (h : '"' ∉ r.head.hash.toList) : Prelude where
  keyword := r.keyword.word
  hash := r.head.hash.toList.flatMap Json.escape
  quote_not_mem := by
    intro hquote
    obtain ⟨c, hc, hescape⟩ := List.mem_flatMap.mp hquote
    apply Json.quote_not_mem_escape _ hescape
    rintro rfl
    exact h hc
  sequence := .ofNat r.head.sequence.toNat
  kind := r.head.kind.word
  role := r.head.role.map Role.word

theorem chars_role (role : Option Role) :
    (Json.ofString? (role.map Role.name)).chars = Prelude.roleChars (role.map Role.word) := by
  cases role with
  | none => rfl
  | some role => exact (Json.plain_word role.word).chars_string

/-- A printed line has the written path in its place. -/
theorem pathAt_render (h : '"' ∉ r.head.hash.toList) : PathAt r.render.toList r.head.id.chars := by
  have hkind : (Json.string r.head.kind.name).chars = '"' :: (r.head.kind.word.chars ++ ['"']) :=
    (Json.plain_word r.head.kind.word).chars_string
  have hid : (Json.string r.head.id.render).chars = '"' :: (r.head.id.chars ++ ['"']) := by
    have hrender : r.head.id.render.toList = r.head.id.chars := String.toList_ofList
    have hplain : Json.Plain r.head.id.render.toList := by
      rw [hrender]
      exact NodeId.plain_of_mem r.head.id.mem_chars
    rw [hplain.chars_string, hrender]
  have hrest : r.restChars = Numeric.digits r.head.sequence.toNat ++ ',' ::
      ('"' :: (r.head.kind.word.chars ++ ['"']) ++ ',' ::
        (Prelude.roleChars (r.head.role.map Role.word) ++ ',' ::
          ('"' :: (r.head.id.chars ++ ['"']) ++ ',' ::
            Json.charsOfItems (r.head.toFields.drop 4 ++ trimNulls r.body.toFields)))) := by
    rw [← hkind, ← hid, ← chars_role]
    rfl
  refine ⟨r.prelude h, Json.charsOfItems (r.head.toFields.drop 4 ++ trimNulls r.body.toFields), ?_⟩
  rw [render, String.toList_ofList, chars, joinLine, hrest]
  simp [Prelude.before, Prelude.fields, Prelude.afterHash, prelude, Json.quote, Keyword.word,
    Word.ofNat, Numeric.digits]

end Record

/-! ## What is found by the keyword -/

/-- The line begins with the keyword and a comma. -/
def StartsWith (line : String) (k : Keyword) : Prop :=
  ∃ rest, line.toList = k.name.toList ++ ',' :: rest

namespace StartsWith

variable {line : String} {k k' : Keyword}

theorem unique (h : StartsWith line k) (h' : StartsWith line k') : k = k' := by
  obtain ⟨rest, hrest⟩ := h
  obtain ⟨rest', hrest'⟩ := h'
  rw [hrest] at hrest'
  have hname := (Text.append_cons_inj k.comma_not_mem_name k'.comma_not_mem_name hrest').1
  have hread := k.ofName?_name
  rw [String.toList_inj.mp hname, k'.ofName?_name] at hread
  exact (Option.some.inj hread).symm

theorem render (r : Record) : StartsWith r.render r.keyword := by
  refine ⟨Json.quote r.head.hash.toList ++ ',' :: r.restChars, ?_⟩
  rw [Record.render, String.toList_ofList, Record.chars, joinLine, List.append_assoc,
    List.cons_append]

theorem isPrefixOf_start (h : StartsWith line k) :
    StopMarker.start.isPrefixOf (Text.toBytes line) = true ↔ k = .stop := by
  rw [StopMarker.start, Text.isPrefixOf_toBytes]
  constructor
  · rintro ⟨rest, hrest⟩
    exact h.unique ⟨rest, hrest⟩
  · rintro rfl
    exact h

theorem isStop_iff (h : StartsWith line k) (id : NodeId) :
    (StopMarker.mk (some id)).isStop (Text.toBytes line) = true ↔ k = .stop ∧
      (LinePattern.aroundPath (.text id.render)).search (Text.toBytes line) = true := by
  rw [StopMarker.isStop, Bool.and_eq_true, h.isPrefixOf_start]
  rfl

open Regex in
/-- The expression for keywords, for a line that begins with one. -/
theorem isMatch_keywords (h : StartsWith line k) (ks : List Keyword) :
    (LinePattern.keywords ks).isMatch (Text.toBytes line) = true ↔ k ∈ ks := by
  have hanchored : ∀ s e w, Matches s e (concat [.lineStart, .choice (ks.map fun k => .text k.name),
      .char ',']) w → s = true := fun s e w hw => (matches_lineStart_concat.mp hw).1
  have hmatches : ∀ s e w, Matches s e (choice (ks.map fun k => .text k.name)) w ↔
      ks = [] ∧ w = [] ∨ ∃ k ∈ ks, w = k.name.toList := by
    intro s e w
    simp [matches_choice]
  rw [LinePattern.keywords, LinePattern.isMatch, search_anchored hanchored]
  simp only [matches_lineStart_concat, matches_concat_cons (r := choice _), hmatches, true_and]
  constructor
  · rintro ⟨w, rest, hline, u, v, rfl, hu, hv⟩
    obtain rfl := matches_char.mp hv
    rcases hu with ⟨-, rfl⟩ | ⟨k', hk', rfl⟩
    · obtain ⟨rest', hrest'⟩ := h
      rw [hrest'] at hline
      have hname := (Text.append_cons_inj k.comma_not_mem_name List.not_mem_nil hline).1
      exact absurd hname k.word.ne_nil
    · have hk : StartsWith line k' := ⟨rest, by simpa using hline⟩
      rwa [h.unique hk]
  · intro hk
    obtain ⟨rest, hrest⟩ := h
    exact ⟨k.name.toList ++ [','], rest, by simpa using hrest, k.name.toList, [','], rfl,
      .inr ⟨k, hk, rfl⟩, matches_char.mpr rfl⟩

end StartsWith

/-! ## What is found by the path -/

namespace LinePattern.Recognises

variable {path : Regex} {nodes : NodeId → Prop} {r : Record}

/-- A filter for certain nodes passes no record of another node. -/
theorem of_parse (hpath : Recognises path nodes) {line : String} (h : Record.parse line = .ok r)
    (hsearch : (aroundPath path).search (Text.toBytes line) = true) : nodes r.head.id := by
  obtain ⟨u, hu, hmatches⟩ := search_aroundPath.mp hsearch
  exact hpath.sound u _ hmatches (Record.id_of_pathAt h (hpath.plain u hmatches) hu)

/-- Of printed lines, it passes all those of the nodes. -/
theorem search_render (hpath : Recognises path nodes) (h : '"' ∉ r.head.hash.toList) :
    (aroundPath path).search (Text.toBytes r.render) = true ↔ nodes r.head.id := by
  rw [search_aroundPath]
  constructor
  · rintro ⟨u, hu, hmatches⟩
    have hquote : ∀ cs, Json.Plain cs → '"' ∉ cs := fun cs hcs hmem => (hcs _ hmem).1 rfl
    obtain rfl := hu.unique (Record.pathAt_render h) (hquote u (hpath.plain u hmatches))
      (hquote _ (NodeId.plain_of_mem r.head.id.mem_chars))
    exact hpath.sound _ _ hmatches (NodeId.read?_chars _)
  · intro hid
    exact ⟨_, Record.pathAt_render h, hpath.complete _ hid⟩

end LinePattern.Recognises

/-! ## The filters -/

/-- The filters for a stop record, for a node and for keywords agree with the reader of lines. -/
theorem prefilters_agree :
    (∀ line r, Record.parse line = .ok r →
      (∀ id, (StopMarker.mk (some id)).isStop (Text.toBytes line) = true →
        r.keyword = .stop ∧ r.head.id = id) ∧
      (∀ id, (LinePattern.node id).isMatch (Text.toBytes line) = true →
        id = r.head.id ∨ id.isAncestorOf r.head.id = true) ∧
      ∀ ks, (LinePattern.keywords ks).isMatch (Text.toBytes line) = true ↔ r.keyword ∈ ks) ∧
    ∀ r : Record, '"' ∉ r.head.hash.toList → ∀ id,
      ((StopMarker.mk (some id)).isStop (Text.toBytes r.render) = true ↔
        r.keyword = .stop ∧ r.head.id = id) ∧
      ((LinePattern.node id).isMatch (Text.toBytes r.render) = true ↔
        id = r.head.id ∨ id.isAncestorOf r.head.id = true) := by
  constructor
  · intro line r h
    have hstart : StartsWith line r.keyword := Record.keyword_of_parse h
    refine ⟨?_, ?_, hstart.isMatch_keywords⟩
    · intro id hstop
      obtain ⟨hkeyword, hsearch⟩ := (hstart.isStop_iff id).mp hstop
      exact ⟨hkeyword, (LinePattern.recognises_text id).of_parse h hsearch⟩
    · intro id hnode
      exact NodeId.spans_iff.mp ((LinePattern.recognises_subtree id).of_parse h hnode)
  · intro r h id
    constructor
    · rw [(StartsWith.render r).isStop_iff, (LinePattern.recognises_text id).search_render h]
    · rw [LinePattern.isMatch_node, (LinePattern.recognises_subtree id).search_render h,
        NodeId.spans_iff]

/-- The stop record of a node whose path begins like that of another. -/
def finished : Record where
  head := ⟨"0a1b", 12, .suite, some .feature, ⟨[0, 11]⟩, .none, .none, none, 0.5⟩
  body := .stop

theorem prefilters_agree_finished :
    Record.parse finished.render = .ok finished ∧ '"' ∉ finished.head.hash.toList ∧
      (StopMarker.mk (some ⟨[0, 11]⟩)).isStop (Text.toBytes finished.render) = true ∧
      (StopMarker.mk (some ⟨[0, 1]⟩)).isStop (Text.toBytes finished.render) = false ∧
      (LinePattern.node ⟨[0]⟩).isMatch (Text.toBytes finished.render) = true ∧
      (LinePattern.node ⟨[0, 1]⟩).isMatch (Text.toBytes finished.render) = false ∧
      (LinePattern.keywords [.result, .stop]).isMatch (Text.toBytes finished.render) = true := by
  have hparse : Record.parse finished.render = .ok finished := by
    have hread : Numeric.ReadsBack 0.5 := by
      unfold Numeric.ReadsBack
      decide +kernel
    apply Record.parse_render
    · rintro x (_ | ⟨_, ⟨⟩⟩) -
      exact hread
    · rintro x (_ | ⟨_, ⟨⟩⟩)
      exact hread.isFinite
  have hhash : '"' ∉ finished.head.hash.toList := by decide
  obtain ⟨hstop, hnode, hkeywords⟩ := prefilters_agree.1 finished.render finished hparse
  have hprinted := prefilters_agree.2 finished hhash
  refine ⟨hparse, hhash, (hprinted _).1.mpr (by decide), ?_, (hprinted _).2.mpr (by decide), ?_,
    (hkeywords _).mpr (by decide)⟩
  · rw [Bool.eq_false_iff]
    intro h
    exact absurd (hstop _ h).2 (by decide)
  · rw [Bool.eq_false_iff]
    intro h
    exact absurd (hnode _ h) (by decide)

end RunLog
