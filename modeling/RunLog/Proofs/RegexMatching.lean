import RunLog.Pattern.Regex

/-! # What regular expressions match

The language of an expression, told by its constructors, and the search for it. An expression after
a character is what can follow that character in its language. -/

namespace RunLog

theorem CharSet.mem_single {c d : Char} : (single c).mem d = true ↔ d = c := by
  simp only [mem, single, List.any_cons, List.any_nil, Bool.or_false, Bool.bne_false,
    Bool.and_eq_true, decide_eq_true_eq]
  constructor
  · rintro ⟨hlow, hhigh⟩
    exact Char.le_antisymm hhigh hlow
  · rintro rfl
    exact ⟨Char.le_refl d, Char.le_refl d⟩

namespace Regex

/-- The expression matches these characters of a line, which begin at its start or end at its end
as the flags say. A repetition makes no empty rounds. -/
inductive Matches : (atStart atEnd : Bool) → Regex → List Char → Prop where
  | empty {s e : Bool} : Matches s e .empty []
  | one {s e : Bool} {set : CharSet} {c : Char} (h : set.mem c = true) : Matches s e (.one set) [c]
  | lineStart {e : Bool} : Matches true e .lineStart []
  | lineEnd {s : Bool} : Matches s true .lineEnd []
  | seq {s e : Bool} {r k : Regex} {u v : List Char} (h : Matches s (e && v.isEmpty) r u)
      (h' : Matches (s && u.isEmpty) e k v) : Matches s e (.seq r k) (u ++ v)
  | left {s e : Bool} {r k : Regex} {w : List Char} (h : Matches s e r w) :
      Matches s e (.alt r k) w
  | right {s e : Bool} {r k : Regex} {w : List Char} (h : Matches s e k w) :
      Matches s e (.alt r k) w
  | done {s e : Bool} {r : Regex} : Matches s e (.star r) []
  | again {s e : Bool} {r : Regex} {u v : List Char} (hne : u ≠ [])
      (h : Matches s (e && v.isEmpty) r u) (h' : Matches false e (.star r) v) :
      Matches s e (.star r) (u ++ v)

variable {s e : Bool} {r k : Regex} {w : List Char}

/-! ## The language of each constructor -/

@[simp] theorem matches_empty : Matches s e .empty w ↔ w = [] := by
  constructor
  · rintro ⟨⟩
    rfl
  · rintro rfl
    exact .empty

@[simp] theorem matches_one {set : CharSet} :
    Matches s e (.one set) w ↔ ∃ c, set.mem c = true ∧ w = [c] := by
  constructor
  · rintro ⟨⟩
    exact ⟨_, ‹_›, rfl⟩
  · rintro ⟨c, h, rfl⟩
    exact .one h

@[simp] theorem matches_lineStart : Matches s e .lineStart w ↔ s = true ∧ w = [] := by
  constructor
  · rintro ⟨⟩
    exact ⟨rfl, rfl⟩
  · rintro ⟨rfl, rfl⟩
    exact .lineStart

@[simp] theorem matches_lineEnd : Matches s e .lineEnd w ↔ e = true ∧ w = [] := by
  constructor
  · rintro ⟨⟩
    exact ⟨rfl, rfl⟩
  · rintro ⟨rfl, rfl⟩
    exact .lineEnd

theorem matches_seq : Matches s e (.seq r k) w ↔
    ∃ u v, w = u ++ v ∧ Matches s (e && v.isEmpty) r u ∧ Matches (s && u.isEmpty) e k v := by
  constructor
  · intro h
    cases h with
    | seq h h' => exact ⟨_, _, rfl, h, h'⟩
  · rintro ⟨u, v, rfl, h, h'⟩
    exact .seq h h'

@[simp] theorem matches_alt : Matches s e (.alt r k) w ↔ Matches s e r w ∨ Matches s e k w := by
  constructor
  · intro h
    cases h with
    | left h => exact .inl h
    | right h => exact .inr h
  · rintro (h | h)
    · exact .left h
    · exact .right h

theorem matches_star : Matches s e (.star r) w ↔ w = [] ∨ ∃ u v, w = u ++ v ∧ u ≠ [] ∧
    Matches s (e && v.isEmpty) r u ∧ Matches false e (.star r) v := by
  constructor
  · intro h
    cases h with
    | done => exact .inl rfl
    | again hne h h' => exact .inr ⟨_, _, rfl, hne, h, h'⟩
  · rintro (rfl | ⟨u, v, rfl, hne, h, h'⟩)
    · exact .done
    · exact .again hne h h'

/-! ## Texts, sequences, alternatives and repetitions -/

@[simp] theorem matches_char {c : Char} : Matches s e (char c) w ↔ w = [c] := by
  simp [char, CharSet.mem_single]

@[simp] theorem matches_concat_nil : Matches s e (concat []) w ↔ w = [] := matches_empty

theorem matches_concat_cons {rs : List Regex} : Matches s e (concat (r :: rs)) w ↔
    ∃ u v, w = u ++ v ∧ Matches s (e && v.isEmpty) r u ∧
      Matches (s && u.isEmpty) e (concat rs) v := by
  cases rs with
  | cons k rs => exact matches_seq
  | nil =>
    show Matches s e r w ↔ _
    constructor
    · intro h
      exact ⟨w, [], (List.append_nil w).symm, by simpa using h, .empty⟩
    · rintro ⟨u, v, rfl, h, hv⟩
      obtain rfl := matches_empty.mp hv
      simpa using h

/-- A character, and what matches after it. -/
theorem matches_char_concat {c : Char} {rs : List Regex} :
    Matches s e (concat (char c :: rs)) w ↔ ∃ v, w = c :: v ∧ Matches false e (concat rs) v := by
  rw [matches_concat_cons]
  constructor
  · rintro ⟨u, v, rfl, hu, hv⟩
    obtain rfl := matches_char.mp hu
    exact ⟨v, rfl, by simpa using hv⟩
  · rintro ⟨v, rfl, hv⟩
    exact ⟨[c], v, rfl, matches_char.mpr rfl, by simpa using hv⟩

@[simp] theorem matches_text {t : String} : Matches s e (text t) w ↔ w = t.toList := by
  rw [text]
  induction t.toList generalizing s w with
  | nil => exact matches_concat_nil
  | cons c cs ih => simp only [List.map_cons, matches_char_concat, ih, exists_eq_right]

theorem matches_choice {rs : List Regex} :
    Matches s e (choice rs) w ↔ rs = [] ∧ w = [] ∨ ∃ r ∈ rs, Matches s e r w := by
  induction rs with
  | nil => simp [choice]
  | cons r rs ih =>
    cases rs with
    | nil => simp [choice]
    | cons k rs =>
      rw [show choice (r :: k :: rs) = alt r (choice (k :: rs)) from rfl, matches_alt, ih]
      simp

/-- Repetitions of an expression that does not look at where it stands. -/
theorem matches_star_iff {L : List Char → Prop} (h : ∀ s e u, Matches s e r u ↔ L u) :
    Matches s e (star r) w ↔ ∃ us : List (List Char), w = us.flatten ∧ ∀ u ∈ us, L u := by
  constructor
  · intro hw
    generalize hk : star r = k at hw
    induction hw with
    | done => exact ⟨[], rfl, by simp⟩
    | @again s e r' u v hne hu _ _ ih =>
      obtain rfl := Regex.star.inj hk
      obtain ⟨us, rfl, hus⟩ := ih rfl
      exact ⟨u :: us, rfl, List.forall_mem_cons.mpr ⟨(h _ _ u).mp hu, hus⟩⟩
    | _ => cases hk
  · rintro ⟨us, rfl, hus⟩
    induction us generalizing s with
    | nil => exact .done
    | cons u us ih =>
      obtain ⟨hu, htail⟩ := List.forall_mem_cons.mp hus
      by_cases hne : u = []
      · subst hne
        exact ih htail
      · exact .again hne ((h _ _ u).mpr hu) (ih htail)

/-- Repetitions of an expression for pieces of one shape. -/
theorem matches_star_flatMap {α : Type} {f : α → List Char}
    (h : ∀ s e u, Matches s e r u ↔ ∃ a, u = f a) :
    Matches s e (star r) w ↔ ∃ pieces : List α, w = pieces.flatMap f := by
  rw [matches_star_iff h]
  constructor
  · rintro ⟨us, rfl, hus⟩
    induction us with
    | nil => exact ⟨[], rfl⟩
    | cons u us ih =>
      obtain ⟨⟨a, rfl⟩, htail⟩ := List.forall_mem_cons.mp hus
      obtain ⟨pieces, hpieces⟩ := ih htail
      exact ⟨a :: pieces, by rw [List.flatten_cons, hpieces, List.flatMap_cons]⟩
  · rintro ⟨pieces, rfl⟩
    refine ⟨pieces.map f, List.flatMap_def, ?_⟩
    intro u hu
    obtain ⟨a, -, rfl⟩ := List.mem_map.mp hu
    exact ⟨a, rfl⟩

@[simp] theorem matches_star_one {set : CharSet} :
    Matches s e (star (one set)) w ↔ ∀ c ∈ w, set.mem c = true := by
  rw [matches_star_iff fun _ _ _ => matches_one]
  constructor
  · rintro ⟨us, rfl, hus⟩ c hc
    obtain ⟨u, hu, hcu⟩ := List.mem_flatten.mp hc
    obtain ⟨d, hd, rfl⟩ := hus u hu
    obtain rfl := List.mem_singleton.mp hcu
    exact hd
  · intro h
    refine ⟨w.map fun c => [c], ?_, ?_⟩
    · rw [← List.flatMap_def, List.flatMap_singleton']
    · intro u hu
      obtain ⟨c, hc, rfl⟩ := List.mem_map.mp hu
      exact ⟨c, h c hc, rfl⟩

@[simp] theorem matches_plus_one {set : CharSet} :
    Matches s e (plus (one set)) w ↔ w ≠ [] ∧ ∀ c ∈ w, set.mem c = true := by
  rw [plus, matches_seq]
  constructor
  · rintro ⟨u, v, rfl, hu, hv⟩
    obtain ⟨c, hc, rfl⟩ := matches_one.mp hu
    exact ⟨List.cons_ne_nil c v, List.forall_mem_cons.mpr ⟨hc, matches_star_one.mp hv⟩⟩
  · rintro ⟨hne, hall⟩
    obtain ⟨c, v, rfl⟩ := List.exists_cons_of_ne_nil hne
    obtain ⟨hc, hv⟩ := List.forall_mem_cons.mp hall
    exact ⟨[c], v, rfl, .one hc, matches_star_one.mpr hv⟩

/-! ## Derivatives -/

theorem nullable_iff : r.nullable s e = true ↔ Matches s e r [] := by
  induction r generalizing s e with
  | empty => simp [nullable]
  | one set => simp [nullable]
  | lineStart => simp [nullable]
  | lineEnd => simp [nullable]
  | seq r k ihr ihk =>
    rw [nullable, Bool.and_eq_true, ihr, ihk, matches_seq]
    constructor
    · rintro ⟨hr, hk⟩
      exact ⟨[], [], rfl, by simpa using hr, by simpa using hk⟩
    · rintro ⟨u, v, huv, hr, hk⟩
      obtain ⟨rfl, rfl⟩ := List.append_eq_nil_iff.mp huv.symm
      exact ⟨by simpa using hr, by simpa using hk⟩
  | alt r k ihr ihk => rw [nullable, Bool.or_eq_true, ihr, ihk, matches_alt]
  | star r ih => exact ⟨fun _ => .done, fun _ => rfl⟩

theorem matches_before : Matches s e (before k r) w ↔ Matches s e (.seq r k) w := by
  cases r with
  | empty =>
    rw [before, matches_seq]
    constructor
    · intro h
      exact ⟨[], w, rfl, .empty, by simpa using h⟩
    · rintro ⟨u, v, rfl, hu, h⟩
      obtain rfl := matches_empty.mp hu
      simpa using h
  | _ => rfl

/-- What matches after a character is what can follow it in a match. -/
theorem matches_cons {c : Char} :
    Matches s e r (c :: w) ↔ ∃ k ∈ r.after s c, Matches false e k w := by
  induction r generalizing s e w with
  | empty => simp [after]
  | lineStart => simp [after]
  | lineEnd => simp [after]
  | one set =>
    rw [matches_one, after]
    constructor
    · rintro ⟨d, hmem, hd⟩
      obtain ⟨rfl, rfl⟩ := List.cons.inj hd
      exact ⟨.empty, by simp [hmem], .empty⟩
    · rintro ⟨k, hk, h⟩
      split at hk
      · rename_i hmem
        obtain rfl := List.mem_singleton.mp hk
        exact ⟨c, hmem, by rw [matches_empty.mp h]⟩
      · cases hk
  | seq r k ihr ihk =>
    simp only [matches_seq, after, List.mem_append, List.mem_map]
    constructor
    · rintro ⟨u, v, huv, hr, hk⟩
      cases u with
      | nil =>
        obtain rfl : c :: w = v := huv
        obtain ⟨k', hmem, h⟩ := ihk.mp (by simpa using hk)
        have hnull : r.nullable s false = true := nullable_iff.mpr (by simpa using hr)
        exact ⟨k', .inr (by rwa [if_pos hnull]), h⟩
      | cons d u =>
        obtain ⟨rfl, rfl⟩ := List.cons.inj huv
        obtain ⟨r', hmem, h⟩ := ihr.mp hr
        refine ⟨before k r', .inl ⟨r', hmem, rfl⟩, matches_before.mpr (.seq h ?_)⟩
        simpa using hk
    · rintro ⟨k', ⟨r', hmem, rfl⟩ | hmem, h⟩
      · obtain ⟨u, v, rfl, hr, hk⟩ := matches_seq.mp (matches_before.mp h)
        exact ⟨c :: u, v, rfl, ihr.mpr ⟨r', hmem, hr⟩, by simpa using hk⟩
      · split at hmem
        · rename_i hnull
          have hk := ihk.mpr ⟨k', hmem, h⟩
          exact ⟨[], c :: w, rfl, by simpa using nullable_iff.mp hnull, by simpa using hk⟩
        · cases hmem
  | alt r k ihr ihk =>
    simp only [matches_alt, after, List.mem_append, ihr, ihk, or_and_right, exists_or]
  | star r ih =>
    simp only [matches_star (w := c :: w), after, List.mem_map]
    constructor
    · rintro (hnil | ⟨u, v, huv, hne, hr, hstar⟩)
      · cases hnil
      · obtain ⟨d, u, rfl⟩ := List.exists_cons_of_ne_nil hne
        obtain ⟨rfl, rfl⟩ := List.cons.inj huv
        obtain ⟨r', hmem, h⟩ := ih.mp hr
        exact ⟨before (.star r) r', ⟨r', hmem, rfl⟩,
          matches_before.mpr (.seq h (by simpa using hstar))⟩
    · rintro ⟨k, ⟨r', hmem, rfl⟩, h⟩
      obtain ⟨u, v, rfl, hr, hstar⟩ := matches_seq.mp (matches_before.mp h)
      exact .inr ⟨c :: u, v, rfl, List.cons_ne_nil c u, ih.mpr ⟨r', hmem, hr⟩, by simpa using hstar⟩

/-! ## Searching -/

/-- A match of one of the expressions at the beginning of the rest of a line. -/
def Begins (ks : List Regex) (s : Bool) (line : List (Option Char)) : Prop :=
  ∃ k ∈ ks, ∃ w rest, line = w.map some ++ rest ∧ Matches s rest.isEmpty k w

/-- A match anywhere in the rest of a line. -/
def Occurs (r : Regex) (s : Bool) (line : List (Option Char)) : Prop :=
  ∃ before w rest, line = before ++ w.map some ++ rest ∧
    Matches (s && before.isEmpty) rest.isEmpty r w

section Search

variable {ks : List Regex} {c : Option Char} {line : List (Option Char)}

theorem begins_nil : Begins ks s [] ↔ ks.any (nullable s true) = true := by
  rw [List.any_eq_true]
  constructor
  · rintro ⟨k, hk, w, rest, hline, h⟩
    obtain ⟨hw, rfl⟩ := List.append_eq_nil_iff.mp hline.symm
    obtain rfl := List.map_eq_nil_iff.mp hw
    exact ⟨k, hk, nullable_iff.mpr h⟩
  · rintro ⟨k, hk, hnull⟩
    exact ⟨k, hk, [], [], rfl, nullable_iff.mp hnull⟩

theorem begins_cons : Begins ks s (c :: line) ↔
    ks.any (nullable s false) = true ∨
      ∃ d, c = some d ∧ Begins (ks.flatMap (after s d)) false line := by
  rw [List.any_eq_true]
  constructor
  · rintro ⟨k, hk, w, rest, hline, h⟩
    cases w with
    | nil =>
      obtain rfl : c :: line = rest := hline
      exact .inl ⟨k, hk, nullable_iff.mpr h⟩
    | cons d w =>
      obtain ⟨rfl, rfl⟩ := List.cons.inj hline
      obtain ⟨k', hk', h'⟩ := matches_cons.mp h
      exact .inr ⟨d, rfl, k', List.mem_flatMap.mpr ⟨k, hk, hk'⟩, w, rest, rfl, h'⟩
  · rintro (⟨k, hk, hnull⟩ | ⟨d, rfl, k', hk', w, rest, rfl, h⟩)
    · exact ⟨k, hk, [], c :: line, rfl, nullable_iff.mp hnull⟩
    · obtain ⟨k, hk, hafter⟩ := List.mem_flatMap.mp hk'
      exact ⟨k, hk, d :: w, rest, rfl, matches_cons.mpr ⟨k', hafter, h⟩⟩

theorem begins_or : Begins (r :: ks) s line ↔ Begins ks s line ∨ Begins [r] s line := by
  simp only [Begins, List.mem_cons, List.not_mem_nil, or_false, or_and_right, exists_or]
  exact or_comm

theorem occurs_nil : Occurs r s [] ↔ Begins [r] s [] := by
  constructor
  · rintro ⟨before, w, rest, hline, h⟩
    obtain ⟨hbefore, rfl⟩ := List.append_eq_nil_iff.mp hline.symm
    obtain ⟨rfl, hw⟩ := List.append_eq_nil_iff.mp hbefore
    obtain rfl := List.map_eq_nil_iff.mp hw
    exact ⟨r, List.mem_singleton.mpr rfl, [], [], rfl, by simpa using h⟩
  · rintro ⟨k, hk, w, rest, hline, h⟩
    obtain rfl := List.mem_singleton.mp hk
    exact ⟨[], w, rest, hline, by simpa using h⟩

theorem occurs_cons :
    Occurs r s (c :: line) ↔ Begins [r] s (c :: line) ∨ Occurs r false line := by
  constructor
  · rintro ⟨before, w, rest, hline, h⟩
    cases before with
    | nil => exact .inl ⟨r, List.mem_singleton.mpr rfl, w, rest, hline, by simpa using h⟩
    | cons d before =>
      obtain ⟨rfl, rfl⟩ := List.cons.inj hline
      exact .inr ⟨before, w, rest, rfl, by simpa using h⟩
  · rintro (⟨k, hk, w, rest, hline, h⟩ | ⟨before, w, rest, rfl, h⟩)
    · obtain rfl := List.mem_singleton.mp hk
      exact ⟨[], w, rest, hline, by simpa using h⟩
    · exact ⟨c :: before, w, rest, rfl, by simpa using h⟩

/-- A search finds what is under way and what is still to begin. -/
theorem searchFrom_iff : searchFrom r s ks line = true ↔ Begins ks s line ∨ Occurs r s line := by
  induction line generalizing s ks with
  | nil => rw [searchFrom, ← begins_nil, occurs_nil, begins_or]
  | cons c line ih =>
    show ((r :: ks).any (nullable s false) || searchFrom r false _ line) = true ↔ _
    rw [Bool.or_eq_true, ih, occurs_cons, ← or_assoc, ← or_assoc, ← begins_or, begins_cons]
    refine or_congr_left (or_congr_right ?_)
    cases c with
    | none =>
      constructor
      · rintro ⟨k, hk, -⟩
        cases hk
      · rintro ⟨d, hd, -⟩
        cases hd
    | some d =>
      constructor
      · rintro ⟨k, hk, h⟩
        exact ⟨d, rfl, k, List.mem_eraseDups.mp hk, h⟩
      · rintro ⟨d', hd, k, hk, h⟩
        obtain rfl := Option.some.inj hd
        exact ⟨k, List.mem_eraseDups.mpr hk, h⟩

end Search

/-- A search finds a match anywhere in the line. -/
theorem search_iff {line : Bytes} : r.search line = true ↔ Occurs r true (Text.charsOf line) := by
  rw [search, searchFrom_iff, or_iff_right]
  rintro ⟨k, hk, -⟩
  cases hk

end Regex

end RunLog
