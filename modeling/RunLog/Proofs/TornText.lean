import Mathlib.Tactic.IntervalCases
import RunLog.Proofs.FieldReading
import RunLog.Proofs.PositionalFields

/-! # Text that is cut off

The values of a line are read as if brackets stood around them. Where their text is cut off, the
closing bracket comes too early. Within a string it stands for itself, within a list it closes that
list, and either way nothing is left to close the outermost list. So what is left of the text reads
as a list exactly if the cut is behind a value, or within a numeral of which a numeral is left. -/

namespace RunLog.Json

variable {fuel depth : Nat} {acc items ws : List Json} {v w : Json} {q left : List Char}

/-- What is left of the text of several values that is cut off, and the values that it is read
as. -/
inductive Torn : List Json → List Char → List Json → Prop where
  /-- The cut is behind a value. -/
  | whole {v w : Json} {rest : List Json} (h : v.reread? = some w) : Torn (v :: rest) v.chars [w]
  /-- The cut leaves a numeral, and perhaps not the one that was written. -/
  | numeral {n m : Number} {q : List Char} {rest : List Json} (hq : q <+: n.chars)
      (h : Number.read? q = some (m, [])) : Torn (number n :: rest) q [number m]
  | next {v w : Json} {text : List Char} {rest ws : List Json} (h : v.reread? = some w)
      (ht : Torn rest text ws) : Torn (v :: rest) (v.chars ++ ',' :: text) (w :: ws)

/-! ## A bracket that comes too early -/

theorem readString?_bracket (acc : List Char) (state : StringState) :
    readString? acc state [']'] = none := by
  rw [readString?.eq_3 acc state ']' [] fun _ hc => absurd hc (by decide)]
  split <;> rfl

/-- A string has no end before its closing quote. -/
theorem readString?_cut {acc cs : List Char} {state : StringState} {s : String}
    (h : readString? acc state cs = some (s, [])) (hq : q <+: cs) (hne : q ≠ cs) :
    readString? acc state (q ++ [']']) = none := by
  induction q generalizing acc state cs with
  | nil => exact readString?_bracket acc state
  | cons c q ih =>
    obtain ⟨rest, rfl⟩ := hq
    rw [List.cons_append] at h hne ⊢
    by_cases hquote : state = .plain ∧ c = '"'
    · obtain ⟨rfl, rfl⟩ := hquote
      rw [readString?] at h
      have hrest : q ++ rest = [] := (Prod.mk.inj (Option.some.inj h)).2
      rw [hrest, (List.append_eq_nil_iff.mp hrest).1] at hne
      exact absurd rfl hne
    · have hplain : state = .plain → c = '"' → False := fun hstate hc => hquote ⟨hstate, hc⟩
      rw [readString?.eq_3 acc state c _ hplain] at h ⊢
      cases hstate : state.step acc c with
      | none => rfl
      | some p =>
        rw [hstate] at h
        exact ih h (List.prefix_append q rest) fun heq => hne (by rw [← heq])

/-- What is left of the text of a value takes the bracket behind it for its own, unless it is a
numeral. -/
def Cuts (depth : Nat) (v : Json) : Prop :=
  ∀ q, q <+: v.chars → q ≠ v.chars → ∀ fuel w left, 2 * q.length + 1 ≤ fuel →
    readValue? fuel depth (q ++ [']']) = some (w, left) →
      left = [] ∨ ∃ n m, v = number n ∧ Number.read? q = some (m, []) ∧ w = number m ∧ left = [']']

/-! ## One item -/

theorem readItems?_of_bracket (h : readValue? fuel depth q = some (w, [']'])) :
    readItems? (fuel + 1) depth acc q = some (array (acc.reverse ++ [w]), []) := by
  rw [readItems?, h]
  dsimp only
  rw [skipBlank_of_ne (by decide)]
  simp

theorem readItems?_of_comma (h : readValue? fuel depth q = some (w, ',' :: left)) :
    readItems? (fuel + 1) depth acc q = readItems? fuel depth (w :: acc) left := by
  rw [readItems?, h]
  dsimp only
  rw [skipBlank_of_ne (by decide)]
  rfl

theorem readItems?_of_nil (h : readValue? fuel depth q = some (w, [])) :
    readItems? (fuel + 1) depth acc q = none := by
  rw [readItems?, h]
  rfl

/-- Several values are cut off within the first of them, or behind it. -/
theorem charsOfItems_cut {rest : List Json} (h : q <+: charsOfItems (v :: rest)) :
    q <+: v.chars ∨ ∃ text, q = v.chars ++ ',' :: text ∧ text <+: charsOfItems rest := by
  cases rest with
  | nil => exact .inl h
  | cons next rest =>
    rw [charsOfItems_cons_cons] at h
    rcases Number.isPrefix_append_cases h with hq | ⟨more, rfl, hmore⟩
    · exact .inl hq
    · rcases List.prefix_cons_iff.mp hmore with rfl | ⟨text, rfl, htext⟩
      · exact .inl (by simp)
      · exact .inr ⟨text, rfl, htext⟩

/-! ## Several values -/

/-- What is left of several values is torn if it is read at all. -/
theorem torn_of_readItems? (hitems : ∀ v ∈ items, Composed Number.Spelled depth v)
    (hcuts : ∀ v ∈ items, Cuts depth v) (hq : q <+: charsOfItems items)
    (hfuel : 2 * q.length + 2 ≤ fuel)
    (h : readItems? fuel depth acc (q ++ [']']) = some (v, left)) :
    left = [] ∧ ∃ ws, v = array (acc.reverse ++ ws) ∧ Torn items q ws := by
  induction items generalizing q acc fuel with
  | nil =>
    obtain rfl := List.prefix_nil.mp hq
    obtain ⟨fuel, rfl⟩ : ∃ f, fuel = f + 2 := ⟨fuel - 2, by omega⟩
    cases h
  | cons item items ih =>
    obtain ⟨fuel, rfl⟩ : ∃ f, fuel = f + 1 := ⟨fuel - 1, by omega⟩
    have hitem := hitems item List.mem_cons_self
    rcases charsOfItems_cut hq with hq | ⟨text, rfl, htext⟩
    · by_cases hwhole : q = item.chars
      · subst hwhole
        have hread := readValue?_chars hitem (by omega : _ ≤ fuel) (.bracket [])
        cases hw : item.reread? with
        | none =>
          rw [hw, Option.map_none] at hread
          rw [readItems?, hread] at h
          cases h
        | some w =>
          rw [hw, Option.map_some] at hread
          rw [readItems?_of_bracket hread] at h
          obtain ⟨rfl, rfl⟩ := Prod.mk.inj (Option.some.inj h)
          exact ⟨rfl, [w], rfl, .whole hw⟩
      · cases hread : readValue? fuel depth (q ++ [']']) with
        | none =>
          rw [readItems?, hread] at h
          cases h
        | some p =>
          obtain ⟨w, rest⟩ := p
          rcases hcuts item List.mem_cons_self q hq hwhole fuel w rest (by omega) hread with
            rfl | ⟨n, m, rfl, hm, rfl, rfl⟩
          · rw [readItems?_of_nil hread] at h
            cases h
          · rw [readItems?_of_bracket hread] at h
            obtain ⟨rfl, rfl⟩ := Prod.mk.inj (Option.some.inj h)
            exact ⟨rfl, [number m], rfl, .numeral hq hm⟩
    · simp only [List.length_append, List.length_cons] at hfuel
      have hread := readValue?_chars hitem (by omega : _ ≤ fuel) (.comma (text ++ [']']))
      rw [List.append_assoc, List.cons_append] at h
      cases hw : item.reread? with
      | none =>
        rw [hw, Option.map_none] at hread
        rw [readItems?, hread] at h
        cases h
      | some w =>
        rw [hw, Option.map_some] at hread
        rw [readItems?_of_comma hread] at h
        obtain ⟨rfl, ws, rfl, hws⟩ :=
          ih (fun v hv => hitems v (List.mem_cons_of_mem item hv))
            (fun v hv => hcuts v (List.mem_cons_of_mem item hv)) htext (by omega) h
        exact ⟨rfl, w :: ws, by simp, .next hw hws⟩

/-- Torn text is read. -/
theorem Torn.readItems?_eq (h : Torn items q ws)
    (hitems : ∀ v ∈ items, Composed Number.Spelled depth v) (hfuel : 2 * q.length + 2 ≤ fuel)
    (acc : List Json) :
    readItems? fuel depth acc (q ++ [']']) = some (array (acc.reverse ++ ws), []) := by
  induction h generalizing fuel acc with
  | @whole v w rest hw =>
    obtain ⟨fuel, rfl⟩ : ∃ f, fuel = f + 1 := ⟨fuel - 1, by omega⟩
    have hread := readValue?_chars (hitems v List.mem_cons_self) (by omega : _ ≤ fuel)
      (.bracket [])
    rw [hw, Option.map_some] at hread
    exact readItems?_of_bracket hread
  | @numeral n m q rest hq hm =>
    obtain ⟨fuel, rfl⟩ : ∃ f, fuel = f + 2 := ⟨fuel - 2, by omega⟩
    have hread := Number.read?_append (.bracket []) q
    obtain _ | ⟨c, q⟩ := q
    · cases hm
    · have hspelled : n.Spelled := (Composed.number_iff n).mp (hitems _ List.mem_cons_self)
      obtain ⟨d, tail, hchars, hd⟩ := hspelled.head_chars
      rw [hchars] at hq
      obtain ⟨rfl, -⟩ := List.cons_prefix_cons.mp hq
      rw [hm] at hread
      have hvalue := readValue?_numeral fuel depth hd (q ++ [']'])
      rw [← List.cons_append, hread] at hvalue
      exact readItems?_of_bracket hvalue
  | @next v w text rest ws hw _ ih =>
    obtain ⟨fuel, rfl⟩ : ∃ f, fuel = f + 1 := ⟨fuel - 1, by omega⟩
    simp only [List.length_append, List.length_cons] at hfuel
    have hread := readValue?_chars (hitems v List.mem_cons_self) (by omega : _ ≤ fuel)
      (.comma (text ++ [']']))
    rw [hw, Option.map_some] at hread
    have hrest := ih (fun u hu => hitems u (List.mem_cons_of_mem v hu)) (by omega : _ ≤ fuel)
      (w :: acc)
    rw [List.append_assoc, List.cons_append, readItems?_of_comma hread, hrest]
    simp

/-! ## One value -/

/-- A word is read as a whole. -/
theorem readValue?_word {word : List Char} (hword : word = null.chars ∨ ∃ b, word = (bool b).chars)
    (hq : q <+: word) (hne : q ≠ word) (fuel depth : Nat) :
    readValue? fuel depth (q ++ [']']) = none := by
  cases fuel with
  | zero => rfl
  | succ fuel =>
    have hlength : q.length < word.length :=
      lt_of_le_of_ne hq.length_le fun heq => hne (hq.eq_of_length heq)
    rw [List.prefix_iff_eq_take.mp hq]
    generalize q.length = n at hlength
    rcases hword with rfl | ⟨_ | _, rfl⟩ <;>
      simp only [chars, List.length_cons, List.length_nil] at hlength <;>
      interval_cases n <;> rfl

theorem cuts_of_composed (h : Composed Number.Spelled depth v) : Cuts depth v := by
  induction h with
  | null =>
    intro q hq hne fuel w left _ hread
    rw [readValue?_word (.inl rfl) hq hne] at hread
    cases hread
  | bool b =>
    intro q hq hne fuel w left _ hread
    rw [readValue?_word (.inr ⟨b, rfl⟩) hq hne] at hread
    cases hread
  | @string depth s =>
    intro q hq hne fuel w left hfuel hread
    obtain ⟨fuel, rfl⟩ : ∃ f, fuel = f + 1 := ⟨fuel - 1, by omega⟩
    rcases List.prefix_cons_iff.mp hq with rfl | ⟨q, rfl, hrest⟩
    · cases hread
    · have hstring := readString?_quoted [] s.toList []
      have hnone := readString?_cut hstring hrest fun heq => hne (by rw [heq]; rfl)
      rw [List.cons_append, readValue?_quote, hnone] at hread
      cases hread
  | @number depth n h =>
    intro q hq _ fuel w left hfuel hread
    obtain ⟨fuel, rfl⟩ : ∃ f, fuel = f + 1 := ⟨fuel - 1, by omega⟩
    obtain ⟨d, tail, hchars, hd⟩ := h.head_chars
    have hpart := h.1.of_isPrefix hq
    rw [chars, hchars] at hq
    rcases List.prefix_cons_iff.mp hq with rfl | ⟨q, rfl, -⟩
    · cases hread
    · rw [List.cons_append, readValue?_numeral fuel depth hd, ← List.cons_append,
        Number.read?_append (.bracket [])] at hread
      cases hm : Number.read? (d :: q) with
      | none =>
        rw [hm] at hread
        cases hread
      | some p =>
        obtain ⟨m, rest⟩ := p
        obtain rfl := hpart.read?_eq hm
        rw [hm] at hread
        obtain ⟨rfl, rfl⟩ := Prod.mk.inj (Option.some.inj hread)
        exact .inr ⟨n, m, rfl, rfl, rfl, rfl⟩
  | @array depth items hitems ih =>
    intro q hq hne fuel w left hfuel hread
    obtain ⟨fuel, rfl⟩ : ∃ f, fuel = f + 1 := ⟨fuel - 1, by omega⟩
    rcases List.prefix_cons_iff.mp hq with rfl | ⟨q, rfl, hrest⟩
    · cases hread
    · have hcut : q <+: charsOfItems items :=
        (List.prefix_concat_iff.mp hrest).resolve_left fun heq => hne (by rw [heq]; rfl)
      left
      obtain _ | ⟨c, q⟩ := q
      · obtain ⟨-, rfl⟩ := Prod.mk.inj (Option.some.inj hread)
        rfl
      · have hnil : items ≠ [] := by
          rintro rfl
          simp [charsOfItems] at hcut
        obtain ⟨d, tail, hchars, hblank, hbracket⟩ := Composed.head_charsOfItems hnil hitems
        have hhead := hcut
        rw [hchars] at hhead
        obtain ⟨rfl, -⟩ := List.cons_prefix_cons.mp hhead
        rw [List.cons_append, List.cons_append, readValue?_bracket fuel depth hblank hbracket,
          ← List.cons_append] at hread
        simp only [List.length_cons] at hfuel
        exact (torn_of_readItems? hitems ih hcut (by simp only [List.length_cons]; omega) hread).1

/-- Text that is cut off is read as a list exactly if it is torn. -/
theorem readItemsOf?_eq_some_iff (hitems : ∀ v ∈ items, Composed Number.Spelled (maxDepth - 1) v)
    (hq : q <+: charsOfItems items) (hne : q ≠ []) :
    readItemsOf? q = some ws ↔ Torn items q ws := by
  have hnil : items ≠ [] := by
    rintro rfl
    exact hne (List.prefix_nil.mp hq)
  obtain ⟨c, tail, hchars, hblank, hbracket⟩ := Composed.head_charsOfItems hnil hitems
  obtain ⟨d, q, rfl⟩ := List.exists_cons_of_ne_nil hne
  have hhead := hq
  rw [hchars] at hhead
  obtain ⟨rfl, -⟩ := List.cons_prefix_cons.mp hhead
  have hfuel : 2 * (d :: q).length + 2 ≤ 2 * q.length + 7 := by
    simp only [List.length_cons]
    omega
  rw [readItemsOf?_cons_iff hblank hbracket]
  constructor
  · rintro ⟨left, hread, -⟩
    obtain ⟨-, ws', hws, htorn⟩ := torn_of_readItems? hitems
      (fun v hv => cuts_of_composed (hitems v hv)) hq hfuel hread
    obtain rfl := array.inj hws
    exact htorn
  · intro h
    exact ⟨[], h.readItems?_eq hitems hfuel [], rfl⟩

end RunLog.Json
