import RunLog.Proofs.NumeralParts

/-! # JSON text reads back

The text of a value is free of control characters, and reading it gives the value back, up to what
its numerals stand for, with whatever follows it untouched. The values covered are those that
records are made of: null, texts, truth values, numbers, and lists of such values. -/

namespace RunLog.Json

/-! ## Quoted text -/

theorem hexValue?_hexDigit (n : Nat) : Text.hexValue? (Text.hexDigit n) = some (n % 16) := by
  have h : ∀ d < 16, Text.hexValue? (Nat.digitChar d) = some d := by decide
  exact h (n % 16) (Nat.mod_lt n (by decide))

theorem printable_hexDigit (n : Nat) : 32 ≤ (Text.hexDigit n).toNat := by
  have h : ∀ d < 16, 32 ≤ (Nat.digitChar d).toNat := by decide
  exact h (n % 16) (Nat.mod_lt n (by decide))

theorem printable_escape (c : Char) : Text.Printable (escape c) := by
  unfold escape
  split
  · simp
  split
  · simp
  split
  · simp
  split
  · simp
  split
  · simp
  split
  · simp
  split
  · simp
  split
  · simp [printable_hexDigit]
  · simp
    omega

theorem printable_quote (s : List Char) : Text.Printable (quote s) := by
  simp only [quote, List.cons_append, Text.Printable.cons_iff, Text.Printable.append_iff]
  refine ⟨by decide, ?_, by decide, Text.Printable.nil⟩
  intro c hc
  obtain ⟨d, _, hcd⟩ := List.mem_flatMap.mp hc
  exact printable_escape d c hcd

/-- A control character travels as its code point. -/
theorem readString?_codePoint (acc : List Char) {c : Char} (h : c.toNat < 32) (tail : List Char) :
    readString? acc .plain
      ('\\' :: 'u' :: '0' :: '0' :: Text.hexDigit (c.toNat / 16) :: Text.hexDigit c.toNat :: tail) =
    readString? (c :: acc) .plain tail := by
  have hzero : Text.hexValue? '0' = some 0 := by decide
  have hvalue : (c.toNat / 16 % 16) * 16 + c.toNat % 16 = c.toNat := by omega
  have hunit : StringState.ofUnit acc none c.toNat = some (c :: acc, .plain) := by
    simp only [StringState.ofUnit]
    rw [if_neg (by omega), if_neg (by omega), Char.ofNat_toNat]
  simp [readString?, StringState.step, hzero, hexValue?_hexDigit, hvalue, hunit]

/-- Reading undoes the spelling of one character. -/
theorem readString?_escape (acc : List Char) (c : Char) (tail : List Char) :
    readString? acc .plain (escape c ++ tail) = readString? (c :: acc) .plain tail := by
  unfold escape
  split
  · subst c
    rfl
  split
  · subst c
    rfl
  split
  · subst c
    rfl
  split
  · subst c
    rfl
  split
  · subst c
    rfl
  split
  · subst c
    rfl
  split
  · subst c
    rfl
  split
  · rename_i hcontrol
    exact readString?_codePoint acc hcontrol tail
  · rename_i hquote hslash _ _ _ _ _ hcontrol
    simp [readString?, StringState.step, hquote, hslash, hcontrol]

theorem readString?_quoted (acc s rest : List Char) :
    readString? acc .plain (s.flatMap escape ++ '"' :: rest) =
      some (String.ofList (acc.reverse ++ s), rest) := by
  induction s generalizing acc with
  | nil => simp [readString?]
  | cons c s ih =>
    rw [List.flatMap_cons, List.append_assoc, readString?_escape, ih]
    simp

/-! ## Values -/

mutual

theorem printable_chars : (v : Json) → Text.Printable v.chars
  | .null => by simp [chars]
  | .bool true => by simp [chars]
  | .bool false => by simp [chars]
  | .number n => n.printable_chars
  | .string s => printable_quote s.toList
  | .array items => by
    have := printable_charsOfItems items
    simpa [chars]
  | .object members => by
    have := printable_charsOfMembers members
    simpa [chars]

theorem printable_charsOfItems : (items : List Json) → Text.Printable (charsOfItems items)
  | [] => Text.Printable.nil
  | [item] => printable_chars item
  | item :: next :: rest => by
    have hitem := printable_chars item
    have hrest := printable_charsOfItems (next :: rest)
    simpa [charsOfItems] using ⟨hitem, hrest⟩

theorem printable_charsOfMembers :
    (members : List (String × Json)) → Text.Printable (charsOfMembers members)
  | [] => Text.Printable.nil
  | [(name, value)] => by
    have hname := printable_quote name.toList
    have hvalue := printable_chars value
    simpa [charsOfMembers] using ⟨hname, hvalue⟩
  | (name, value) :: next :: rest => by
    have hname := printable_quote name.toList
    have hvalue := printable_chars value
    have hrest := printable_charsOfMembers (next :: rest)
    simpa [charsOfMembers] using ⟨hname, hvalue, hrest⟩

end

theorem skipBlank_of_ne {c : Char} (h : isBlank c = false) (cs : List Char) :
    skipBlank (c :: cs) = c :: cs := by
  simp [skipBlank, h]

theorem readValue?_null (fuel depth : Nat) (rest : List Char) :
    readValue? (fuel + 1) depth (null.chars ++ rest) = some (null, rest) := rfl

theorem readValue?_bool (fuel depth : Nat) (b : Bool) (rest : List Char) :
    readValue? (fuel + 1) depth ((bool b).chars ++ rest) = some (bool b, rest) := by
  cases b <;> rfl

theorem readValue?_string (fuel depth : Nat) (s : String) (rest : List Char) :
    readValue? (fuel + 1) depth ((string s).chars ++ rest) = some (string s, rest) := by
  have hread : readValue? (fuel + 1) depth ((string s).chars ++ rest) =
      (readString? [] .plain (s.toList.flatMap escape ++ ['"'] ++ rest)).map
        fun p => (string p.1, p.2) := rfl
  rw [hread, List.append_assoc, List.singleton_append, readString?_quoted]
  simp

theorem ne_of_numeral {c d : Char} (h : c = '-' ∨ Number.isDigit c = true) (hminus : d ≠ '-')
    (hdigit : Number.isDigit d = false) : c ≠ d := by
  rintro rfl
  simp [hminus, hdigit] at h

theorem not_isBlank_of_numeral {c : Char} (h : c = '-' ∨ Number.isDigit c = true) :
    isBlank c = false := by
  have hspace := ne_of_numeral h (d := ' ') (by decide) (by decide)
  have hfeed := ne_of_numeral h (d := '\n') (by decide) (by decide)
  have htab := ne_of_numeral h (d := '\t') (by decide) (by decide)
  have hreturn := ne_of_numeral h (d := '\r') (by decide) (by decide)
  simp [isBlank, hspace, hfeed, htab, hreturn]

theorem readValue?_numeral (fuel depth : Nat) {c : Char} (h : c = '-' ∨ Number.isDigit c = true)
    (cs : List Char) :
    readValue? (fuel + 1) depth (c :: cs) =
      (Number.read? (c :: cs)).map fun (n, rest) => (number n, rest) := by
  unfold readValue?
  rw [skipBlank_of_ne (not_isBlank_of_numeral h)]
  split <;> rename_i heq
  case h_7 => rfl
  all_goals exact absurd (List.cons.inj heq).1 (ne_of_numeral h (by decide) (by decide))

theorem readValue?_bracket (fuel depth : Nat) {c : Char} (hblank : isBlank c = false)
    (hbracket : c ≠ ']') (cs : List Char) :
    readValue? (fuel + 1) (depth + 1) ('[' :: c :: cs) = readItems? fuel depth [] (c :: cs) := by
  unfold readValue?
  rw [skipBlank_of_ne (show isBlank '[' = false by decide)]
  split
  case h_5 rest heq =>
    obtain rfl := (List.cons.inj heq).2
    rw [skipBlank_of_ne hblank]
    split
    case h_1 hzero => exact absurd hzero (Nat.succ_ne_zero depth)
    case h_2 depth' hsucc =>
      obtain rfl := Nat.succ.inj hsucc
      split
      case h_1 rest' hclose => exact absurd (List.cons.inj hclose).1 hbracket
      case h_2 => rfl
  case h_7 hne _ => exact absurd rfl (hne (c :: cs))
  all_goals
    rename_i heq
    exact absurd (List.cons.inj heq).1 (by decide)

/-- Values that records are made of, with at most so many lists nested in them and numbers of one
sort. -/
inductive Composed (P : Number → Prop) : Nat → Json → Prop where
  | null {depth : Nat} : Composed P depth null
  | bool {depth : Nat} (b : Bool) : Composed P depth (bool b)
  | string {depth : Nat} (s : String) : Composed P depth (string s)
  | number {depth : Nat} {n : Number} (h : P n) : Composed P depth (number n)
  | array {depth : Nat} {items : List Json} (h : ∀ v ∈ items, Composed P depth v) :
      Composed P (depth + 1) (array items)

mutual

/-- What the text of a value reads as: each number is what its numeral stands for. Objects, of which
records have none, are not looked into. -/
def reread? : Json → Option Json
  | number n => (Number.read? n.chars).map fun p => number p.1
  | array items => (rereadItems? items).map array
  | v => some v

def rereadItems? : List Json → Option (List Json)
  | [] => some []
  | v :: rest => (reread? v).bind fun w => (rereadItems? rest).map (w :: ·)

end

theorem rereadItems?_cons {v w : Json} (h : v.reread? = some w) (rest : List Json) :
    rereadItems? (v :: rest) = (rereadItems? rest).map (w :: ·) := by
  rw [rereadItems?, h, Option.bind_some]

theorem rereadItems?_eq_self {items : List Json} (h : ∀ v ∈ items, v.reread? = some v) :
    rereadItems? items = some items := by
  induction items with
  | nil => rfl
  | cons v items ih =>
    rw [rereadItems?_cons (h v List.mem_cons_self),
      ih fun w hw => h w (List.mem_cons_of_mem v hw), Option.map_some]

namespace Composed

variable {P : Number → Prop} {depth : Nat} {v : Json}

/-- A value whose numerals read back is read as itself. -/
theorem reread?_eq_self (h : Composed Number.ReadsBack depth v) : v.reread? = some v := by
  induction h with
  | null => rfl
  | bool b => rfl
  | string s => rfl
  | number h => rw [reread?, h, Option.map_some]
  | array _ ih => rw [reread?, rereadItems?_eq_self ih, Option.map_some]

/-- A value begins with a character that is neither blank nor the end of a list. -/
theorem head_chars (h : Composed Number.Spelled depth v) :
    ∃ c tail, v.chars = c :: tail ∧ isBlank c = false ∧ c ≠ ']' := by
  cases h with
  | null => exact ⟨'n', ['u', 'l', 'l'], rfl, by decide, by decide⟩
  | bool b =>
    cases b with
    | true => exact ⟨'t', ['r', 'u', 'e'], rfl, by decide, by decide⟩
    | false => exact ⟨'f', ['a', 'l', 's', 'e'], rfl, by decide, by decide⟩
  | string s => exact ⟨'"', s.toList.flatMap escape ++ ['"'], rfl, by decide, by decide⟩
  | number h =>
    obtain ⟨c, tail, hchars, hc⟩ := h.head_chars
    exact ⟨c, tail, hchars, not_isBlank_of_numeral hc, ne_of_numeral hc (by decide) (by decide)⟩
  | array _ => exact ⟨'[', _, rfl, by decide, by decide⟩

/-- Reading a value takes fuel. -/
theorem exists_fuel (h : Composed Number.Spelled depth v) {fuel : Nat}
    (hfuel : v.chars.length ≤ fuel) : ∃ left, fuel = left + 1 := by
  obtain ⟨c, tail, hchars, _, _⟩ := h.head_chars
  rw [hchars, List.length_cons] at hfuel
  exact ⟨fuel - 1, by omega⟩

/-- So does the text of several values. -/
theorem head_charsOfItems {items : List Json} (hne : items ≠ [])
    (h : ∀ v ∈ items, Composed Number.Spelled depth v) :
    ∃ c tail, charsOfItems items = c :: tail ∧ isBlank c = false ∧ c ≠ ']' := by
  obtain ⟨item, items, rfl⟩ := List.exists_cons_of_ne_nil hne
  obtain ⟨c, tail, hchars, hblank, hbracket⟩ := (h item List.mem_cons_self).head_chars
  cases items with
  | nil => exact ⟨c, tail, hchars, hblank, hbracket⟩
  | cons next items => exact ⟨c, _, by rw [charsOfItems, hchars]; rfl; simp, hblank, hbracket⟩

end Composed

theorem charsOfItems_cons_cons (v next : Json) (rest : List Json) :
    charsOfItems (v :: next :: rest) = v.chars ++ ',' :: charsOfItems (next :: rest) := by
  rw [charsOfItems]
  simp

/-- The items of a list are read once each of them is. -/
theorem readItems?_chars {depth : Nat} {items : List Json} (hne : items ≠ [])
    (hitems : ∀ v ∈ items, ∀ fuel rest, v.chars.length ≤ fuel → Ends rest →
      readValue? fuel depth (v.chars ++ rest) = v.reread?.map fun w => (w, rest))
    {fuel : Nat} (hfuel : (charsOfItems items).length + 1 ≤ fuel) (acc : List Json)
    (rest : List Char) :
    readItems? fuel depth acc (charsOfItems items ++ ']' :: rest) =
      (rereadItems? items).map fun ws => (array (acc.reverse ++ ws), rest) := by
  induction items generalizing fuel acc with
  | nil => exact absurd rfl hne
  | cons item items ih =>
    obtain ⟨fuel, rfl⟩ : ∃ f, fuel = f + 1 := ⟨fuel - 1, by omega⟩
    have hitem := hitems item List.mem_cons_self
    cases items with
    | nil =>
      have hread := hitem fuel (']' :: rest) (by simpa [charsOfItems] using hfuel) (.bracket rest)
      rw [readItems?, charsOfItems, hread]
      cases hw : item.reread? with
      | none => simp [rereadItems?, hw]
      | some w => simp [rereadItems?, hw, skipBlank, isBlank]
    | cons next items =>
      rw [charsOfItems_cons_cons] at hfuel ⊢
      simp only [List.length_append, List.length_cons] at hfuel
      have hread := hitem fuel (',' :: (charsOfItems (next :: items) ++ ']' :: rest)) (by omega)
        (.comma _)
      have htail := ih (List.cons_ne_nil next items)
        (fun v hv => hitems v (List.mem_cons_of_mem item hv)) (by omega : _ ≤ fuel)
      rw [List.append_assoc, List.cons_append, readItems?, hread]
      cases hw : item.reread? with
      | none => simp [rereadItems?, hw]
      | some w =>
        simp only [Option.map_some, skipBlank_of_ne (show isBlank ',' = false by decide)]
        rw [htail, rereadItems?_cons hw, Option.map_map]
        simp [Function.comp_def]

/-- A value is read from its text, whatever follows. -/
theorem readValue?_chars {depth : Nat} {v : Json} (h : Composed Number.Spelled depth v)
    {fuel : Nat} (hfuel : v.chars.length ≤ fuel) {rest : List Char} (hrest : Ends rest) :
    readValue? fuel depth (v.chars ++ rest) = v.reread?.map fun w => (w, rest) := by
  obtain ⟨fuel, rfl⟩ := h.exists_fuel hfuel
  induction h generalizing fuel rest with
  | null => exact readValue?_null fuel _ rest
  | bool b =>
    rw [readValue?_bool]
    rfl
  | string s =>
    rw [readValue?_string]
    rfl
  | @number depth n h =>
    obtain ⟨c, tail, hchars, hc⟩ := h.head_chars
    have hread := h.read?_append hrest
    rw [chars, reread?]
    rw [hchars, List.cons_append] at hread ⊢
    rw [readValue?_numeral fuel depth hc, hread, Option.map_map, Option.map_map]
    rfl
  | @array depth items hitems ih =>
    cases items with
    | nil => rfl
    | cons item items =>
      obtain ⟨c, tail, hhead, hblank, hbracket⟩ :=
        Composed.head_charsOfItems (List.cons_ne_nil item items) hitems
      have hreads : ∀ v ∈ item :: items, ∀ fuel rest, v.chars.length ≤ fuel → Ends rest →
          readValue? fuel depth (v.chars ++ rest) = v.reread?.map fun w => (w, rest) := by
        intro v hv more rest hlength hends
        obtain ⟨more, rfl⟩ := (hitems v hv).exists_fuel hlength
        exact ih v hv hends more hlength
      have hread := readItems?_chars (List.cons_ne_nil item items) hreads
        (by simpa [chars, Nat.add_assoc] using hfuel) [] rest
      rw [hhead] at hread
      rw [chars, hhead, List.cons_append, List.cons_append, List.append_assoc,
        List.singleton_append, List.cons_append, readValue?_bracket fuel depth hblank hbracket]
      rw [reread?, Option.map_map]
      exact hread

/-- Values between commas are read as a list. -/
theorem readItemsOf?_chars {items : List Json}
    (h : ∀ v ∈ items, Composed Number.Spelled (maxDepth - 1) v) :
    readItemsOf? (charsOfItems items) = rereadItems? items := by
  have hfuel :
      (array items).chars.length ≤ 2 * ('[' :: charsOfItems items ++ [']']).length + 2 := by
    simp only [chars]
    omega
  have hread := readValue?_chars (Composed.array h) hfuel .nil
  rw [List.append_nil] at hread
  rw [readItemsOf?, read?]
  rw [show (array items).chars = '[' :: charsOfItems items ++ [']'] from rfl] at hread
  rw [show maxDepth - 1 + 1 = maxDepth from rfl] at hread
  rw [hread, reread?]
  cases rereadItems? items <;> rfl

end RunLog.Json
