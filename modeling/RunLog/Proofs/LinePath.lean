import RunLog.Json.Parser
import RunLog.Pattern.Basic
import RunLog.Proofs.Cutting
import RunLog.Proofs.RegexMatching
import RunLog.Proofs.TextDecoding

/-! # The path in a line

The fields before the path, as the expression for them spells them. A line has them in one way only,
so what stands in the place of the path is the same for everything that looks there. -/

namespace RunLog

/-- Some characters of a set, at least one. -/
structure Word (set : CharSet) where
  chars : List Char
  ne_nil : chars ≠ []
  mem : ∀ c ∈ chars, set.mem c = true

theorem Word.not_mem {set : CharSet} (w : Word set) {c : Char} (h : set.mem c = false) :
    c ∉ w.chars := by
  intro hc
  simp [w.mem c hc] at h

namespace CharSet

def capital : CharSet := ⟨[('A', 'Z')], false⟩

def letter : CharSet := ⟨[('A', 'Z'), ('a', 'z')], false⟩

def digit : CharSet := ⟨[('0', '9')], false⟩

theorem mem_digit {c : Char} : digit.mem c = true ↔ Number.isDigit c = true := by
  simp [mem, digit, Number.isDigit]

/-- Every character but the quote. -/
def unquoted : CharSet := ⟨[('"', '"')], true⟩

theorem mem_unquoted {c : Char} : unquoted.mem c = true ↔ c ≠ '"' := by
  have hmem : unquoted.mem c = !(single '"').mem c := by simp [mem, unquoted, single]
  rw [hmem, Bool.not_eq_true', ← Bool.not_eq_true, mem_single]

end CharSet

namespace Regex

variable {s e : Bool} {r : Regex} {rs : List Regex} {w : List Char}

/-- An expression between quotes. -/
def quoted (r : Regex) : Regex := concat [char '"', r, char '"']

theorem matches_quoted : Matches s e (quoted r) w ↔
    ∃ u, w = '"' :: (u ++ ['"']) ∧ Matches false false r u := by
  rw [quoted, matches_char_concat]
  simp only [matches_concat_cons (r := r)]
  constructor
  · rintro ⟨_, rfl, u, v, rfl, hu, hv⟩
    obtain rfl := matches_char.mp hv
    exact ⟨u, rfl, by simpa using hu⟩
  · rintro ⟨u, rfl, hu⟩
    exact ⟨_, rfl, u, ['"'], rfl, by simpa using hu, matches_char.mpr rfl⟩

theorem matches_lineStart_concat :
    Matches s e (concat (lineStart :: rs)) w ↔ s = true ∧ Matches s e (concat rs) w := by
  rw [matches_concat_cons]
  constructor
  · rintro ⟨u, v, rfl, hu, hv⟩
    obtain ⟨rfl, rfl⟩ := matches_lineStart.mp hu
    exact ⟨rfl, by simpa using hv⟩
  · rintro ⟨rfl, hw⟩
    exact ⟨[], w, rfl, .lineStart, by simpa using hw⟩

theorem matches_word_concat {set : CharSet} : Matches s e (concat (plus (one set) :: rs)) w ↔
    ∃ (u : Word set) (v : List Char), w = u.chars ++ v ∧ Matches false e (concat rs) v := by
  rw [matches_concat_cons]
  constructor
  · rintro ⟨u, v, rfl, hu, hv⟩
    obtain ⟨hne, hmem⟩ := matches_plus_one.mp hu
    exact ⟨⟨u, hne, hmem⟩, v, rfl, by simpa [List.isEmpty_eq_false_iff.mpr hne] using hv⟩
  · rintro ⟨u, v, rfl, hv⟩
    exact ⟨u.chars, v, rfl, matches_plus_one.mpr ⟨u.ne_nil, u.mem⟩,
      by simpa [List.isEmpty_eq_false_iff.mpr u.ne_nil] using hv⟩

/-- A search for what only matches at the start of the line. -/
theorem search_anchored (h : ∀ s e w, Matches s e r w → s = true) (line : String) :
    r.search (Text.toBytes line) = true ↔
      ∃ w rest, line.toList = w ++ rest ∧ Matches true rest.isEmpty r w := by
  rw [search_iff, Text.charsOf_toBytes]
  constructor
  · rintro ⟨before, w, rest, hline, hw⟩
    obtain rfl : before = [] := by simpa using h _ _ _ hw
    rw [List.nil_append] at hline
    obtain ⟨u, v, huv, hu, rfl⟩ := List.map_eq_append_iff.mp hline
    obtain rfl := (List.map_inj_right fun _ _ => Option.some.inj).mp hu
    exact ⟨u, v, huv, by simpa using hw⟩
  · rintro ⟨w, rest, hline, hw⟩
    exact ⟨[], w, rest.map some, by rw [hline, List.map_append, List.nil_append], by simpa using hw⟩

end Regex

/-- The fields of a line before the path, as they are spelled. -/
structure Prelude where
  keyword : Word .capital
  hash : List Char
  quote_not_mem : '"' ∉ hash
  sequence : Word .digit
  kind : Word .letter
  role : Option (Word .letter)

namespace Prelude

variable {s e : Bool} {w : List Char} {p q : Prelude} {x y : List Char}

def roleChars : Option (Word .letter) → List Char
  | none => ['n', 'u', 'l', 'l']
  | some role => '"' :: (role.chars ++ ['"'])

/-- The fields after the hash, and more. -/
def afterHash (p : Prelude) (more : List Char) : List Char :=
  p.sequence.chars ++ ',' :: '"' ::
    (p.kind.chars ++ '"' :: ',' :: (roleChars p.role ++ ',' :: more))

/-- The fields after the keyword, and more. -/
def fields (p : Prelude) (more : List Char) : List Char :=
  '"' :: (p.hash ++ '"' :: ',' :: p.afterHash more)

def before (p : Prelude) (more : List Char) : List Char :=
  p.keyword.chars ++ ',' :: p.fields more

theorem before_append : p.before x ++ y = p.before (x ++ y) := by
  simp [before, fields, afterHash]

theorem roleChars_inj {r r' : Option (Word .letter)}
    (h : roleChars r ++ ',' :: x = roleChars r' ++ ',' :: y) : x = y := by
  have hquoted : ∀ role : Option (Word .letter), ',' ∉ roleChars role := by
    rintro (_ | role)
    · decide
    · have hcomma : ',' ∉ role.chars := role.not_mem rfl
      simpa [roleChars] using hcomma
  exact (Text.append_cons_inj (hquoted r) (hquoted r') h).2

/-- A line has the fields before the path in one way only. -/
theorem before_inj (h : p.before x = q.before y) : x = y := by
  have hfields := (Text.append_cons_inj (p.keyword.not_mem rfl) (q.keyword.not_mem rfl) h).2
  have hhash := Text.append_cons_inj p.quote_not_mem q.quote_not_mem (List.cons.inj hfields).2
  have hsequence := Text.append_cons_inj (p.sequence.not_mem rfl) (q.sequence.not_mem rfl)
    (List.cons.inj hhash.2).2
  have hkind := Text.append_cons_inj (p.kind.not_mem rfl) (q.kind.not_mem rfl)
    (List.cons.inj hsequence.2).2
  exact roleChars_inj (List.cons.inj hkind.2).2

/-! ## What the expression spells -/

open Regex

theorem matches_roleChars :
    Matches s e (alt (text "null") (quoted (plus (one .letter)))) w ↔
      ∃ role, w = roleChars role := by
  rw [matches_alt, matches_text, matches_quoted]
  constructor
  · rintro (rfl | ⟨u, rfl, hu⟩)
    · exact ⟨none, rfl⟩
    · obtain ⟨hne, hmem⟩ := matches_plus_one.mp hu
      exact ⟨some ⟨u, hne, hmem⟩, rfl⟩
  · rintro ⟨_ | role, rfl⟩
    · exact .inl rfl
    · exact .inr ⟨role.chars, rfl, matches_plus_one.mpr ⟨role.ne_nil, role.mem⟩⟩

theorem matches_beforePath :
    Matches s e LinePattern.beforePath w ↔ s = true ∧ ∃ p : Prelude, w = p.before [] := by
  show Matches s e (concat [lineStart, plus (one .capital), char ',', quoted (star (one .unquoted)),
    char ',', plus (one .digit), char ',', quoted (plus (one .letter)), char ',',
    alt (text "null") (quoted (plus (one .letter))), char ',']) w ↔ _
  rw [matches_lineStart_concat, matches_word_concat]
  simp only [matches_char_concat, matches_word_concat, matches_concat_cons (r := quoted _),
    matches_concat_cons (r := alt _ _), matches_quoted, matches_roleChars, matches_concat_nil,
    matches_star_one, matches_plus_one]
  refine and_congr_right fun _ => ?_
  constructor
  · rintro ⟨keyword, _, rfl, _, rfl, _, _, rfl, ⟨hash, rfl, hhash⟩, _, rfl, sequence, _, rfl, _,
      rfl, _, _, rfl, ⟨kind, rfl, hne, hkind⟩, _, rfl, _, _, rfl, ⟨role, rfl⟩, _, rfl, rfl⟩
    refine ⟨⟨keyword, hash, ?_, sequence, ⟨kind, hne, hkind⟩, role⟩, ?_⟩
    · intro hquote
      exact CharSet.mem_unquoted.mp (hhash _ hquote) rfl
    · simp [before, fields, afterHash]
  · rintro ⟨p, rfl⟩
    refine ⟨p.keyword, _, rfl, _, rfl, '"' :: (p.hash ++ ['"']), ',' :: p.afterHash [],
      by simp [fields], ⟨p.hash, rfl, ?_⟩, _, rfl, p.sequence, _, rfl, _, rfl,
      '"' :: (p.kind.chars ++ ['"']), ',' :: (roleChars p.role ++ [',']), by simp,
      ⟨p.kind.chars, rfl, p.kind.ne_nil, p.kind.mem⟩, _, rfl, roleChars p.role, [','], rfl,
      ⟨p.role, rfl⟩, [], rfl, rfl⟩
    intro c hc
    rw [CharSet.mem_unquoted]
    rintro rfl
    exact p.quote_not_mem hc

end Prelude

/-- What stands in the place of the path. -/
def PathAt (line path : List Char) : Prop :=
  ∃ (p : Prelude) (more : List Char), line = p.before ('"' :: (path ++ '"' :: ',' :: more))

theorem PathAt.append {line path : List Char} (h : PathAt line path) (tail : List Char) :
    PathAt (line ++ tail) path := by
  obtain ⟨p, more, rfl⟩ := h
  refine ⟨p, more ++ tail, ?_⟩
  rw [Prelude.before_append, List.cons_append, List.append_assoc, List.cons_append,
    List.cons_append]

theorem PathAt.unique {line u v : List Char} (h : PathAt line u) (h' : PathAt line v)
    (hu : '"' ∉ u) (hv : '"' ∉ v) : u = v := by
  obtain ⟨p, x, rfl⟩ := h
  obtain ⟨q, y, hline⟩ := h'
  have hpath := (List.cons.inj (Prelude.before_inj hline)).2
  exact (Text.append_cons_inj hu hv hpath).1

namespace LinePattern

open Regex

/-- Lines with a path that an expression matches. -/
def aroundPath (path : Regex) : Regex := concat [beforePath, char '"', path, text "\","]

theorem matches_aroundPath {s e : Bool} {path : Regex} {w : List Char} :
    Matches s e (aroundPath path) w ↔ s = true ∧ ∃ (p : Prelude) (u : List Char),
      w = p.before ('"' :: (u ++ ['"', ','])) ∧ Matches false false path u := by
  rw [aroundPath]
  simp only [matches_concat_cons (r := beforePath), matches_char_concat,
    matches_concat_cons (r := path), Prelude.matches_beforePath]
  constructor
  · rintro ⟨_, _, rfl, ⟨hs, p, rfl⟩, _, rfl, u, v, rfl, hu, hv⟩
    obtain rfl := matches_text.mp hv
    exact ⟨hs, p, u, p.before_append, by simpa using hu⟩
  · rintro ⟨hs, p, u, rfl, hu⟩
    exact ⟨p.before [], _, (p.before_append (x := [])).symm, ⟨hs, p, rfl⟩, _, rfl, u, ['"', ','],
      rfl, by simpa using hu, matches_text.mpr rfl⟩

theorem search_aroundPath {path : Regex} {line : String} :
    (aroundPath path).search (Text.toBytes line) = true ↔
      ∃ u, PathAt line.toList u ∧ Matches false false path u := by
  rw [search_anchored fun _ _ _ h => (matches_aroundPath.mp h).1]
  constructor
  · rintro ⟨w, rest, hline, hw⟩
    obtain ⟨-, p, u, rfl, hu⟩ := matches_aroundPath.mp hw
    exact ⟨u, ⟨p, rest, by simpa [p.before_append] using hline⟩, hu⟩
  · rintro ⟨u, ⟨p, more, hline⟩, hu⟩
    refine ⟨_, more, ?_, matches_aroundPath.mpr ⟨rfl, p, u, rfl, hu⟩⟩
    simpa [p.before_append] using hline

end LinePattern

/-- What makes a line the stop marker is at its start. -/
theorem StopMarker.isStop_append {m : StopMarker} {line longer : String} {tail : List Char}
    (hlonger : longer.toList = line.toList ++ tail) (h : m.isStop (Text.toBytes line) = true) :
    m.isStop (Text.toBytes longer) = true := by
  obtain ⟨hstart, hnode⟩ := Bool.and_eq_true_iff.mp h
  have hbegins : start.isPrefixOf (Text.toBytes longer) = true := by
    obtain ⟨rest, hrest⟩ := Text.isPrefixOf_toBytes.mp hstart
    refine Text.isPrefixOf_toBytes.mpr ⟨rest ++ tail, ?_⟩
    rw [hlonger, hrest, List.append_assoc]
  refine Bool.and_eq_true_iff.mpr ⟨hbegins, ?_⟩
  obtain ⟨_ | id⟩ := m
  · rfl
  · obtain ⟨u, hu, hmatches⟩ := LinePattern.search_aroundPath.mp hnode
    exact LinePattern.search_aroundPath.mpr ⟨u, hlonger ▸ hu.append tail, hmatches⟩

end RunLog
