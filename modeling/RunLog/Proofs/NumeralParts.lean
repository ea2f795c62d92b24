import RunLog.Proofs.Numeral

/-! # The parts of a numeral

A numeral is a sign, integer digits, a fraction and an exponent, in this order. Whatever number is
printed, a beginning of its numeral is read to its end or not at all. -/

namespace RunLog.Number

/-- Nothing but digits. -/
def AllDigits (cs : List Char) : Prop := ∀ c ∈ cs, isDigit c = true

/-- The beginning of an exponent. -/
inductive ExponentPart : List Char → Prop where
  | nil : ExponentPart []
  | unsigned {ds : List Char} (h : AllDigits ds) : ExponentPart ('e' :: ds)
  | signed {sign : Char} {ds : List Char} (hsign : sign = '+' ∨ sign = '-') (h : AllDigits ds) :
      ExponentPart ('e' :: sign :: ds)

/-- The beginning of what follows the integer digits. -/
inductive TailPart : List Char → Prop where
  | integer {cs : List Char} (h : ExponentPart cs) : TailPart cs
  | fraction {ds cs : List Char} (hds : AllDigits ds) (h : ExponentPart cs) :
      TailPart ('.' :: (ds ++ cs))

/-- The beginning of a numeral. -/
inductive Part : List Char → Prop where
  | natural {ds cs : List Char} (hds : AllDigits ds) (h : TailPart cs) : Part (ds ++ cs)
  | minus {ds cs : List Char} (hds : AllDigits ds) (h : TailPart cs) : Part ('-' :: (ds ++ cs))

namespace AllDigits

variable {cs ds : List Char}

theorem nil : AllDigits [] := by simp [AllDigits]

theorem cons {c : Char} (hc : isDigit c = true) (h : AllDigits cs) : AllDigits (c :: cs) :=
  List.forall_mem_cons.mpr ⟨hc, h⟩

theorem zero : AllDigits ['0'] := .cons (by decide) .nil

theorem append (hcs : AllDigits cs) (hds : AllDigits ds) : AllDigits (cs ++ ds) :=
  List.forall_mem_append.mpr ⟨hcs, hds⟩

theorem of_subset (h : AllDigits ds) (hsub : ∀ c ∈ cs, c ∈ ds) : AllDigits cs :=
  fun c hc => h c (hsub c hc)

theorem zeros (n : Nat) : AllDigits (List.replicate n '0') := by
  intro c hc
  rw [List.eq_of_mem_replicate hc]
  decide

theorem digits (n : Nat) : AllDigits (Numeric.digits n) := fun _ hc => isDigit_of_mem_digits hc

/-- Digits are split off up to a character that is none. -/
theorem splitDigits_eq (h : AllDigits ds) (hcs : ∀ c ∈ cs.head?, isDigit c = false) :
    splitDigits (ds ++ cs) = (ds.map digitValue, cs) := by
  have hstop : splitDigits cs = ([], cs) := by
    cases cs with
    | nil => rfl
    | cons c cs => exact splitDigits_cons_of_not_isDigit (hcs c rfl) cs
  induction ds with
  | nil => exact hstop
  | cons d ds ih =>
    rw [List.cons_append, splitDigits_cons_of_isDigit (h d List.mem_cons_self),
      ih fun c hc => h c (List.mem_cons_of_mem d hc)]
    rfl

end AllDigits

/-- A fraction without an exponent. -/
theorem TailPart.point {ds : List Char} (h : AllDigits ds) : TailPart ('.' :: ds) := by
  have hfraction := TailPart.fraction h .nil
  rwa [List.append_nil] at hfraction

/-! ## A beginning of a beginning -/

section Beginnings

variable {q cs ds : List Char}

/-- A beginning of two texts in a row ends in the first or in the second. -/
theorem isPrefix_append_cases {α : Type} {q xs ys : List α} (h : q <+: xs ++ ys) :
    q <+: xs ∨ ∃ rest, q = xs ++ rest ∧ rest <+: ys := by
  rcases List.prefix_or_prefix_of_prefix h (List.prefix_append xs ys) with hq | ⟨rest, rfl⟩
  · exact .inl hq
  · exact .inr ⟨rest, rfl, (List.prefix_append_right_inj xs).mp h⟩

theorem AllDigits.of_isPrefix (h : AllDigits ds) (hq : q <+: ds) : AllDigits q :=
  h.of_subset fun _ hc => hq.mem hc

theorem ExponentPart.of_isPrefix (h : ExponentPart cs) (hq : q <+: cs) : ExponentPart q := by
  cases h with
  | nil => exact List.prefix_nil.mp hq ▸ .nil
  | unsigned h =>
    rcases List.prefix_cons_iff.mp hq with rfl | ⟨q', rfl, hq'⟩
    · exact .nil
    · exact .unsigned (h.of_isPrefix hq')
  | signed hsign h =>
    rcases List.prefix_cons_iff.mp hq with rfl | ⟨q', rfl, hq'⟩
    · exact .nil
    · rcases List.prefix_cons_iff.mp hq' with rfl | ⟨q'', rfl, hq''⟩
      · exact .unsigned .nil
      · exact .signed hsign (h.of_isPrefix hq'')

theorem TailPart.of_isPrefix (h : TailPart cs) (hq : q <+: cs) : TailPart q := by
  cases h with
  | integer h => exact .integer (h.of_isPrefix hq)
  | @fraction ds cs hds h =>
    rcases List.prefix_cons_iff.mp hq with rfl | ⟨q', rfl, hq'⟩
    · exact .integer .nil
    · rcases isPrefix_append_cases hq' with hq' | ⟨rest, rfl, hrest⟩
      · exact .point (hds.of_isPrefix hq')
      · exact .fraction hds (h.of_isPrefix hrest)

/-- Digits and a tail, cut off. -/
theorem exists_parts_of_isPrefix (hds : AllDigits ds) (h : TailPart cs) (hq : q <+: ds ++ cs) :
    ∃ ds' cs', AllDigits ds' ∧ TailPart cs' ∧ q = ds' ++ cs' := by
  rcases isPrefix_append_cases hq with hq | ⟨rest, rfl, hrest⟩
  · exact ⟨q, [], hds.of_isPrefix hq, .integer .nil, (List.append_nil q).symm⟩
  · exact ⟨ds, rest, hds, h.of_isPrefix hrest, rfl⟩

theorem Part.of_isPrefix (h : Part cs) (hq : q <+: cs) : Part q := by
  cases h with
  | natural hds h =>
    obtain ⟨ds, cs, hds, hcs, rfl⟩ := exists_parts_of_isPrefix hds h hq
    exact .natural hds hcs
  | minus hds h =>
    rcases List.prefix_cons_iff.mp hq with rfl | ⟨q', rfl, hq'⟩
    · exact @Part.natural [] [] .nil (.integer .nil)
    · obtain ⟨ds, cs, hds, hcs, rfl⟩ := exists_parts_of_isPrefix hds h hq'
      exact .minus hds hcs

end Beginnings

/-! ## Reading to the end -/

section Reading

variable {cs ds left : List Char} {minus : Bool} {whole fraction : List Nat} {n : Number}

theorem ExponentPart.head_not_isDigit (h : ExponentPart cs) :
    ∀ c ∈ cs.head?, isDigit c = false := by
  cases h <;> simp <;> decide

theorem TailPart.head_not_isDigit (h : TailPart cs) : ∀ c ∈ cs.head?, isDigit c = false := by
  cases h with
  | integer h => exact h.head_not_isDigit
  | fraction hds h =>
    rintro c ⟨⟩
    decide

theorem AllDigits.digitsAfter_eq (h : AllDigits ds) {sign e : Int}
    (hread : readExponent?.digitsAfter sign ds = some (e, left)) : left = [] := by
  have hsplit : splitDigits (ds ++ []) = (ds.map digitValue, []) := h.splitDigits_eq (by simp)
  rw [List.append_nil] at hsplit
  rw [readExponent?.digitsAfter, hsplit] at hread
  split at hread
  · cases hread
  · rename_i heq
    obtain ⟨-, rfl⟩ := Prod.mk.inj heq
    exact (Prod.mk.inj (Option.some.inj hread)).2.symm

theorem ExponentPart.withExponent_eq (h : ExponentPart cs)
    (hread : readTail?.withExponent minus whole fraction cs = some (n, left)) : left = [] := by
  have hexponent : ∀ {cs : List Char}, (∀ {e left}, readExponent? cs = some (e, left) → left = []) →
      readTail?.withExponent minus whole fraction ('e' :: cs) = some (n, left) → left = [] := by
    intro cs hcs hread
    obtain ⟨⟨e, rest⟩, he, hread⟩ := Option.bind_eq_some_iff.mp hread
    obtain ⟨x, -, hread⟩ := Option.bind_eq_some_iff.mp hread
    obtain ⟨-, rfl⟩ := Prod.mk.inj (Option.some.inj hread)
    exact hcs he
  cases h with
  | nil =>
    obtain ⟨x, -, hx⟩ := Option.map_eq_some_iff.mp hread
    exact (Prod.mk.inj hx).2.symm
  | @unsigned ds h =>
    refine hexponent (fun {e left} he => ?_) hread
    have hunsigned : readExponent? ds = readExponent?.digitsAfter 1 ds := by
      cases ds with
      | nil => rfl
      | cons d ds =>
        have hd : isDigit d = true := h d List.mem_cons_self
        have hplus : d ≠ '+' := by
          rintro rfl
          exact absurd hd (by decide)
        have hminus : d ≠ '-' := by
          rintro rfl
          exact absurd hd (by decide)
        simp [readExponent?, hplus, hminus]
    rw [hunsigned] at he
    exact h.digitsAfter_eq he
  | signed hsign h =>
    refine hexponent (fun {e left} he => ?_) hread
    rcases hsign with rfl | rfl
    · exact h.digitsAfter_eq he
    · exact h.digitsAfter_eq he

theorem TailPart.readTail?_eq (h : TailPart cs)
    (hread : readTail? minus whole cs = some (n, left)) : left = [] := by
  cases h with
  | integer h =>
    cases h with
    | nil =>
      obtain ⟨x, -, hx⟩ := Option.map_eq_some_iff.mp hread
      exact (Prod.mk.inj hx).2.symm
    | unsigned h => exact (ExponentPart.unsigned h).withExponent_eq hread
    | signed hsign h => exact (ExponentPart.signed hsign h).withExponent_eq hread
  | fraction hds h =>
    rw [readTail?, hds.splitDigits_eq h.head_not_isDigit] at hread
    split at hread
    · cases hread
    · rename_i heq
      obtain ⟨rfl, rfl⟩ := Prod.mk.inj heq
      exact h.withExponent_eq hread

theorem readUnsigned?_parts (hds : AllDigits ds) (h : TailPart cs)
    (hread : readUnsigned? minus (ds ++ cs) = some (n, left)) : left = [] := by
  rw [readUnsigned?, hds.splitDigits_eq h.head_not_isDigit] at hread
  split at hread
  · cases hread
  · cases hread
  · rename_i heq
    obtain ⟨rfl, rfl⟩ := Prod.mk.inj heq
    exact h.readTail?_eq hread

/-- What begins like a numeral is read to its end or not at all. -/
theorem Part.read?_eq (h : Part cs) (hread : read? cs = some (n, left)) : left = [] := by
  cases h with
  | minus hds h => exact readUnsigned?_parts hds h hread
  | @natural ds cs hds h =>
    rcases hall : ds ++ cs with _ | ⟨c, rest⟩
    · rw [hall] at hread
      cases hread
    · have hc : c ≠ '-' := by
        rintro rfl
        cases ds with
        | nil =>
          rw [List.nil_append] at hall
          subst hall
          obtain _ | _ := h
          rename_i h
          cases h
        | cons d ds =>
          obtain ⟨rfl, -⟩ := List.cons.inj hall
          exact absurd (hds '-' List.mem_cons_self) (by decide)
      rw [hall, read?_of_ne_minus hc, ← hall] at hread
      exact readUnsigned?_parts hds h hread

end Reading

/-! ## Numbers that are printed -/

/-- The text of the number is a numeral. -/
def Spelled (n : Number) : Prop :=
  Part n.chars ∧ ∃ c cs, n.chars = c :: cs ∧ (c = '-' ∨ isDigit c = true)

/-- The numeral of the number reads back. -/
def ReadsBack (n : Number) : Prop := read? n.chars = some (n, [])

namespace Spelled

variable {n : Number} (h : n.Spelled)
include h

theorem head_chars : ∃ c cs, n.chars = c :: cs ∧ (c = '-' ∨ isDigit c = true) := h.2

/-- A numeral is read up to its end. -/
theorem read?_append {rest : List Char} (hrest : Json.Ends rest) :
    read? (n.chars ++ rest) = (read? n.chars).map fun p => (p.1, rest) := by
  rw [Number.read?_append hrest]
  cases hread : read? n.chars with
  | none => rfl
  | some p =>
    obtain ⟨m, left⟩ := p
    obtain rfl := h.1.read?_eq hread
    rfl

end Spelled

/-- Integer digits, at least one, and what follows them. -/
inductive UnsignedText : List Char → Prop where
  | intro {ds cs : List Char} (hne : ds ≠ []) (hds : AllDigits ds) (h : TailPart cs) :
      UnsignedText (ds ++ cs)

theorem UnsignedText.spelled {n : Number} {cs : List Char} (h : UnsignedText cs)
    (hn : n.chars = cs ∨ n.chars = '-' :: cs) : n.Spelled := by
  obtain ⟨hne, hds, h⟩ := h
  rename_i ds cs
  rcases hn with hn | hn
  · obtain ⟨d, ds, rfl⟩ := List.exists_cons_of_ne_nil hne
    rw [Spelled, hn]
    exact ⟨.natural hds h, d, ds ++ cs, rfl, .inr (hds d List.mem_cons_self)⟩
  · rw [Spelled, hn]
    exact ⟨.minus hds h, '-', ds ++ cs, rfl, .inl rfl⟩

theorem unsignedText_digits (n : Nat) : UnsignedText (Numeric.digits n) := by
  have h := UnsignedText.intro Nat.toDigits_ne_nil (.digits n) (.integer .nil)
  rwa [List.append_nil] at h

theorem spelled_natural (n : UInt64) : (natural n).Spelled :=
  (unsignedText_digits n.toNat).spelled (.inl rfl)

/-- A sign and digits after the letter of an exponent. -/
theorem exponentPart_power (power : Int) : ExponentPart
    ('e' :: (if power < 0 then '-' else '+') :: Numeric.digits power.natAbs) := by
  refine .signed ?_ (.digits _)
  split
  · exact .inr rfl
  · exact .inl rfl

theorem unsignedText_decimal (d : Numeric.Decimal) : UnsignedText d.chars := by
  have hne : Numeric.digits d.significand ≠ [] := Nat.toDigits_ne_nil
  have hdigits := AllDigits.digits d.significand
  unfold Numeric.Decimal.chars
  dsimp only
  split
  · split
    · exact @UnsignedText.intro ['0'] _ (by simp) .zero
        (.point ((AllDigits.zeros _).append hdigits))
    · split
      · rename_i hpos _
        refine .intro ?_ (hdigits.of_subset fun _ hc => List.mem_of_mem_take hc)
          (.point (hdigits.of_subset fun _ hc => List.mem_of_mem_drop hc))
        simp only [ne_eq, List.take_eq_nil_iff, hne, or_false]
        omega
      · exact .intro (by simp [hne]) (hdigits.append (.zeros _))
          (.point .zero)
  · have hpower := exponentPart_power ((Numeric.digits d.significand).length + d.exponent - 1)
    split
    · rename_i c hc
      rw [hc] at hdigits
      exact @UnsignedText.intro [c] _ (by simp) hdigits (.integer hpower)
    · rename_i c rest _ hc
      rw [hc] at hdigits
      exact @UnsignedText.intro [c] _ (by simp) (hdigits.of_subset (by simp))
        (.fraction (hdigits.of_subset fun _ h => List.mem_cons_of_mem c h) hpower)
    · rename_i hnil
      exact absurd hnil hne

/-- Every finite double is printed as a numeral. -/
theorem spelled_real {x : Float} (h : Numeric.isFinite x = true) : (real x).Spelled := by
  unfold Numeric.isFinite at h
  split at h
  · rename_i d hd
    have hbody : UnsignedText
        (if d.mantissa = 0 then ['0', '.', '0'] else (Numeric.Decimal.shortest d).chars) := by
      split
      · exact .intro (by simp) .zero (.point .zero)
      · exact unsignedText_decimal _
    apply hbody.spelled
    simp only [chars, Numeric.finiteChars?, hd, Option.getD_some]
    split
    · exact .inr rfl
    · exact .inl rfl
  · cases h

end RunLog.Number
