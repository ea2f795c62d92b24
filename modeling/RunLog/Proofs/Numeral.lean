import RunLog.Json.Parser
import RunLog.Json.Printer

/-! # Numerals

What a number is printed as, and that a numeral reads the same whatever follows it in a line. A
natural number always reads back. Whether a double does depends on its digits, since doubles are
read by a single scaling. -/

namespace RunLog

/-- What can follow a value inside a line: nothing, the next value, or the end of a list. -/
inductive Json.Ends : List Char → Prop where
  | nil : Ends []
  | comma (rest : List Char) : Ends (',' :: rest)
  | bracket (rest : List Char) : Ends (']' :: rest)

/-- No character is a control character. -/
def Text.Printable (cs : List Char) : Prop := ∀ c ∈ cs, 0x20 ≤ c.toNat

/-- The spelling of a double reads as that double. -/
def Numeric.ReadsBack (x : Float) : Prop :=
  Number.read? (Number.real x).chars = some (.real x, [])

instance (x : Float) : Decidable (Numeric.ReadsBack x) :=
  inferInstanceAs (Decidable (Number.read? (Number.real x).chars = some (.real x, [])))

namespace Text.Printable

@[simp] theorem nil : Printable [] := by simp [Printable]

@[simp] theorem cons_iff {c : Char} {cs : List Char} :
    Printable (c :: cs) ↔ 0x20 ≤ c.toNat ∧ Printable cs := by
  simp [Printable]

@[simp] theorem append_iff {cs ds : List Char} :
    Printable (cs ++ ds) ↔ Printable cs ∧ Printable ds := by
  simp [Printable, or_imp, forall_and]

end Text.Printable

namespace Number

theorem isDigit_eq (c : Char) : isDigit c = c.isDigit := rfl

theorem isDigit_of_mem_digits {n : Nat} {c : Char} (h : c ∈ Numeric.digits n) :
    isDigit c = true := by
  rw [isDigit_eq]
  exact Nat.isDigit_of_mem_toDigits (by decide) (by decide) h

theorem toNat_of_isDigit {c : Char} (h : isDigit c = true) : 48 ≤ c.toNat ∧ c.toNat ≤ 57 := by
  simpa [isDigit, Char.le_def, UInt32.le_iff_toNat_le] using h

/-! ## Reading in context -/

theorem splitDigits_cons_of_isDigit {c : Char} (h : isDigit c = true) (cs : List Char) :
    splitDigits (c :: cs) = (digitValue c :: (splitDigits cs).1, (splitDigits cs).2) := by
  simp [splitDigits, h]

theorem splitDigits_cons_of_not_isDigit {c : Char} (h : isDigit c = false) (cs : List Char) :
    splitDigits (c :: cs) = ([], c :: cs) := by
  simp [splitDigits, h]

/-- A numeral after its sign. -/
def readUnsigned? (minus : Bool) (cs : List Char) : Option (Number × List Char) :=
  match splitDigits cs with
  | ([], _) => none
  | (0 :: _ :: _, _) => none
  | (whole, rest) => readTail? minus whole rest

theorem read?_minus (cs : List Char) : read? ('-' :: cs) = readUnsigned? true cs := rfl

theorem read?_of_ne_minus {c : Char} (h : c ≠ '-') (cs : List Char) :
    read? (c :: cs) = readUnsigned? false (c :: cs) := by
  unfold read?
  split
  rename_i hsign
  split at hsign
  · rename_i hcons
    exact absurd (List.cons.inj hcons).1 h
  · obtain ⟨rfl, rfl⟩ := Prod.mk.inj hsign
    rfl

section Append

variable {rest : List Char} (hrest : Json.Ends rest)
include hrest

theorem splitDigits_of_ends : splitDigits rest = ([], rest) := by
  cases hrest with
  | nil => rfl
  | comma rest => exact splitDigits_cons_of_not_isDigit (by decide) rest
  | bracket rest => exact splitDigits_cons_of_not_isDigit (by decide) rest

theorem splitDigits_append (cs : List Char) :
    splitDigits (cs ++ rest) = ((splitDigits cs).1, (splitDigits cs).2 ++ rest) := by
  induction cs with
  | nil => exact splitDigits_of_ends hrest
  | cons c cs ih =>
    by_cases h : isDigit c = true
    · rw [List.cons_append, splitDigits_cons_of_isDigit h, splitDigits_cons_of_isDigit h, ih]
    · rw [List.cons_append, splitDigits_cons_of_not_isDigit (by simpa using h),
        splitDigits_cons_of_not_isDigit (by simpa using h), List.cons_append]

theorem digitsAfter_append (sign : Int) (cs : List Char) :
    readExponent?.digitsAfter sign (cs ++ rest) =
      (readExponent?.digitsAfter sign cs).map fun p => (p.1, p.2 ++ rest) := by
  unfold readExponent?.digitsAfter
  rw [splitDigits_append hrest]
  rcases splitDigits cs with ⟨_ | ⟨d, ds⟩, tail⟩ <;> rfl

theorem readExponent?_append (cs : List Char) :
    readExponent? (cs ++ rest) = (readExponent? cs).map fun p => (p.1, p.2 ++ rest) := by
  rcases cs with _ | ⟨c, cs⟩
  · cases hrest <;> rfl
  · by_cases hplus : c = '+'
    · subst hplus
      exact digitsAfter_append hrest 1 cs
    · by_cases hminus : c = '-'
      · subst hminus
        exact digitsAfter_append hrest (-1) cs
      · have h : ∀ tail, readExponent? (c :: tail) = readExponent?.digitsAfter 1 (c :: tail) := by
          intro tail
          simp [readExponent?, hplus, hminus]
        rw [List.cons_append, h, h, ← List.cons_append]
        exact digitsAfter_append hrest 1 (c :: cs)

theorem withExponent_append (minus : Bool) (whole fraction : List Nat) (cs : List Char) :
    readTail?.withExponent minus whole fraction (cs ++ rest) =
      (readTail?.withExponent minus whole fraction cs).map fun p => (p.1, p.2 ++ rest) := by
  rcases cs with _ | ⟨c, cs⟩
  · cases hrest <;> simp [readTail?.withExponent, Function.comp_def]
  · by_cases he : c = 'e' ∨ c = 'E'
    · rcases he with rfl | rfl <;>
        simp only [List.cons_append, readTail?.withExponent, readExponent?_append hrest] <;>
        cases readExponent? cs with
        | none => rfl
        | some p => cases h : ofDecimal? minus whole fraction p.1 <;> simp [h]
    · simp only [not_or] at he
      simp [readTail?.withExponent, he.1, he.2, Function.comp_def]

theorem readTail?_append (minus : Bool) (whole : List Nat) (cs : List Char) :
    readTail? minus whole (cs ++ rest) =
      (readTail? minus whole cs).map fun p => (p.1, p.2 ++ rest) := by
  rcases cs with _ | ⟨c, cs⟩
  · cases hrest <;> simp [readTail?, Function.comp_def]
  · by_cases hpoint : c = '.'
    · subst hpoint
      simp only [List.cons_append, readTail?, splitDigits_append hrest]
      rcases splitDigits cs with ⟨_ | ⟨d, ds⟩, tail⟩
      · rfl
      · exact withExponent_append hrest minus whole (d :: ds) tail
    · by_cases he : c = 'e' ∨ c = 'E'
      · rcases he with rfl | rfl
        · exact withExponent_append hrest minus whole [] ('e' :: cs)
        · exact withExponent_append hrest minus whole [] ('E' :: cs)
      · simp only [not_or] at he
        simp [readTail?, hpoint, he.1, he.2, Function.comp_def]

theorem readUnsigned?_append (minus : Bool) (cs : List Char) :
    readUnsigned? minus (cs ++ rest) =
      (readUnsigned? minus cs).map fun p => (p.1, p.2 ++ rest) := by
  unfold readUnsigned?
  rw [splitDigits_append hrest]
  obtain ⟨whole, tail⟩ := splitDigits cs
  match whole with
  | [] => rfl
  | [0] => exact readTail?_append hrest minus [0] tail
  | 0 :: _ :: _ => rfl
  | [d + 1] => exact readTail?_append hrest minus [d + 1] tail
  | (d + 1) :: d' :: ds => exact readTail?_append hrest minus ((d + 1) :: d' :: ds) tail

/-- A numeral reads the same in a line as on its own. -/
theorem read?_append (cs : List Char) :
    read? (cs ++ rest) = (read? cs).map fun p => (p.1, p.2 ++ rest) := by
  rcases cs with _ | ⟨c, cs⟩
  · cases hrest <;> rfl
  · by_cases hminus : c = '-'
    · subst hminus
      rw [List.cons_append, read?_minus, read?_minus]
      exact readUnsigned?_append hrest true cs
    · rw [List.cons_append, read?_of_ne_minus hminus, read?_of_ne_minus hminus, ← List.cons_append]
      exact readUnsigned?_append hrest false (c :: cs)

end Append

/-! ## Natural numbers -/

theorem splitDigits_digits (n : Nat) :
    splitDigits (Numeric.digits n) = ((Numeric.digits n).map digitValue, []) := by
  have h : ∀ c ∈ Numeric.digits n, isDigit c = true := by
    intro c hc
    exact isDigit_of_mem_digits hc
  have htake : (Numeric.digits n ++ []).takeWhile isDigit = Numeric.digits n ++ [] :=
    List.takeWhile_append_of_pos h
  have hdrop : (Numeric.digits n ++ []).dropWhile isDigit = [] := List.dropWhile_append_of_pos h
  rw [List.append_nil] at htake hdrop
  rw [splitDigits, htake, hdrop]

theorem foldl_digits (n : Nat) :
    (Numeric.digits n).foldl (fun m c => m * 10 + (c.toNat - '0'.toNat)) 0 = n := by
  simp only [Nat.mul_comm _ 10]
  exact Nat.ofDigitChars_ten_toDigits

theorem ofDigits_digits (n : Nat) : ofDigits ((Numeric.digits n).map digitValue) = n := by
  rw [ofDigits, List.foldl_map]
  exact foldl_digits n

/-- No number is written with a zero in front. -/
theorem digits_ne_zero_cons (n : Nat) (c : Char) (cs : List Char) :
    Numeric.digits n ≠ '0' :: c :: cs := by
  induction n using Nat.strongRecOn generalizing c cs with
  | ind n ih =>
    intro h
    rw [Numeric.digits, Nat.toDigits_eq_if (by decide)] at h
    split at h
    · simp at h
    · rename_i hn
      have hpos : 0 < n / 10 := by omega
      rcases hd : Numeric.digits (n / 10) with _ | ⟨d, _ | ⟨d', ds⟩⟩
      · exact Nat.toDigits_ne_nil hd
      · rw [Numeric.digits] at hd
        rw [hd] at h
        have hzero := ofDigits_digits (n / 10)
        rw [Numeric.digits, hd] at hzero
        obtain ⟨rfl, -⟩ := List.cons.inj h
        simp [ofDigits, digitValue] at hzero
        omega
      · rw [Numeric.digits] at hd
        rw [hd] at h
        obtain ⟨rfl, -⟩ := List.cons.inj h
        exact ih (n / 10) (by omega) d' ds hd

theorem readUnsigned?_digits (n : UInt64) :
    readUnsigned? false (Numeric.digits n.toNat) = some (.natural n, []) := by
  have hread : readTail? false ((Numeric.digits n.toNat).map digitValue) [] =
      some (.natural n, []) := by
    have hlt : n.toNat < UInt64.size := n.toNat_lt_size
    rw [readTail?, ofInteger?, ofDigits_digits]
    · rw [if_pos (by simpa using hlt), UInt64.ofNat_toNat]
      rfl
    all_goals simp
  rw [readUnsigned?, splitDigits_digits]
  rcases h : Numeric.digits n.toNat with _ | ⟨c, _ | ⟨c', cs⟩⟩
  · exact absurd h Nat.toDigits_ne_nil
  · rw [h] at hread
    simpa using hread
  · rw [h] at hread
    have hc : digitValue c ≠ 0 := by
      intro hzero
      have hdigit := toNat_of_isDigit (isDigit_of_mem_digits (n := n.toNat) (c := c) (by simp [h]))
      have : c = '0' := by
        apply Char.toNat_inj.mp
        simp [digitValue] at hzero
        have : ('0' : Char).toNat = 48 := rfl
        omega
      exact digits_ne_zero_cons n.toNat c' cs (this ▸ h)
    simpa [hc] using hread

/-- Natural numbers of a machine word read back. -/
theorem read?_digits (n : UInt64) :
    read? (Numeric.digits n.toNat) = some (.natural n, []) := by
  rcases h : Numeric.digits n.toNat with _ | ⟨c, cs⟩
  · exact absurd h Nat.toDigits_ne_nil
  · have hc : c ≠ '-' := by
      rintro rfl
      have := toNat_of_isDigit (isDigit_of_mem_digits (n := n.toNat) (c := '-') (by simp [h]))
      simp at this
    rw [read?_of_ne_minus hc, ← h]
    exact readUnsigned?_digits n

/-- A numeral begins with a digit or a minus. -/
theorem head_of_read? {cs : List Char} {p : Number × List Char} (h : read? cs = some p) :
    ∃ c tail, cs = c :: tail ∧ (c = '-' ∨ isDigit c = true) := by
  rcases cs with _ | ⟨c, tail⟩
  · cases (show read? [] = none from rfl).symm.trans h
  · refine ⟨c, tail, rfl, ?_⟩
    by_cases hc : c = '-'
    · exact .inl hc
    · right
      rw [read?_of_ne_minus hc, readUnsigned?] at h
      cases hdigit : isDigit c with
      | true => rfl
      | false =>
        rw [splitDigits_cons_of_not_isDigit hdigit] at h
        simp at h

end Number

/-! ## Doubles -/

namespace Numeric

open Float.Model in
/-- The two tests for finite doubles agree. -/
theorem isFinite_eq (x : Float) : Numeric.isFinite x = x.isFinite := by
  let exponent : BitVec 11 :=
    @UnpackedFloat.unpackExponent Format.binary64 x.toBits.toBitVec
  have hbiased : x.toBits.toNat / Magnitude.hiddenBit % 2048 = exponent.toNat := by
    simp [exponent, UnpackedFloat.unpackExponent, Magnitude.hiddenBit, Nat.shiftRight_eq_div_pow]
  have hmodel : x.isFinite = decide (exponent.toNat ≠ 2047) := by
    have hones : exponent = -1#11 ↔ exponent.toNat = 2047 := by
      rw [← BitVec.toNat_inj]
      rfl
    change (UnpackedFloat.unpack Format.binary64 x.toBits.toBitVec).isFinite = _
    unfold UnpackedFloat.unpack
    change UnpackedFloat.isFinite (if exponent = -1#11 then _ else _) = _
    by_cases h : exponent = -1#11
    · rw [if_pos h, hones.mp h]
      split <;> rfl
    · rw [if_neg h, decide_eq_true (mt hones.mpr h)]
      refine iteInduction (motive := fun f => UnpackedFloat.isFinite f = true) ?_ fun _ => rfl
      intro hsubnormal
      by_cases hzero : @UnpackedFloat.unpackMantissa Format.binary64 x.toBits.toBitVec = 0#_
      · rw [dif_pos hzero]
        rfl
      · rw [dif_neg hzero]
        rfl
  rw [hmodel, ← hbiased, Numeric.isFinite, Magnitude.ofFloat]
  by_cases h : x.toBits.toNat / Magnitude.hiddenBit % 2048 = 2047
  · by_cases hfraction : x.toBits.toNat % Magnitude.hiddenBit = 0 <;> simp [h, hfraction]
  · by_cases hzero : x.toBits.toNat / Magnitude.hiddenBit % 2048 = 0 <;> simp [h, hzero]

theorem printable_digits (n : Nat) : Text.Printable (digits n) := by
  intro c hc
  have := Number.toNat_of_isDigit (Number.isDigit_of_mem_digits hc)
  omega

theorem printable_decimal (d : Decimal) : Text.Printable d.chars := by
  have hdigits := printable_digits d.significand
  have hzeros (n : Nat) : Text.Printable (List.replicate n '0') := by
    intro c hc
    rw [List.eq_of_mem_replicate hc]
    decide
  unfold Decimal.chars
  dsimp only
  split
  · split
    · simp [hzeros, hdigits]
    · split
      · simp only [Text.Printable.append_iff, Text.Printable.cons_iff]
        exact ⟨fun c hc => hdigits c (List.mem_of_mem_take hc), by decide,
          fun c hc => hdigits c (List.mem_of_mem_drop hc)⟩
      · simp [hzeros, hdigits]
  · have hpower := printable_digits ((digits d.significand).length + d.exponent - 1 : Int).natAbs
    have hsign (p : Prop) [Decidable p] : 32 ≤ (if p then '-' else '+').toNat := by
      split <;> decide
    simp only [Text.Printable.append_iff, Text.Printable.cons_iff]
    refine ⟨?_, by decide, hsign _, hpower⟩
    split <;> simp_all

theorem printable_finiteChars {x : Float} {cs : List Char} (h : finiteChars? x = some cs) :
    Text.Printable cs := by
  unfold finiteChars? at h
  split at h
  · rename_i d _
    have hbody : Text.Printable
        (if d.mantissa = 0 then ['0', '.', '0'] else (Decimal.shortest d).chars) := by
      split
      · simp
      · exact printable_decimal _
    rw [← Option.some.inj h]
    split
    · exact Text.Printable.cons_iff.mpr ⟨by decide, hbody⟩
    · exact hbody
  · simp at h

/-- Only finite doubles have a numeral that could read back. -/
theorem ReadsBack.isFinite {x : Float} (h : ReadsBack x) : isFinite x = true := by
  unfold ReadsBack at h
  unfold Numeric.isFinite
  split
  · rfl
  · rename_i hnot
    have hnone : finiteChars? x = none := by
      unfold finiteChars?
      split
      · rename_i d hd
        exact absurd hd (hnot d)
      · rfl
    rw [Number.chars, hnone] at h
    obtain ⟨c, tail, hnull, hc⟩ := Number.head_of_read? h
    obtain rfl : 'n' = c := (List.cons.inj hnull).1
    exact absurd hc (by decide)

end Numeric

theorem Number.printable_chars (n : Number) : Text.Printable n.chars := by
  cases n with
  | natural n => exact Numeric.printable_digits n.toNat
  | negative n =>
    exact Text.Printable.cons_iff.mpr ⟨by decide, Numeric.printable_digits n.toNat⟩
  | real x =>
    rw [chars]
    cases h : Numeric.finiteChars? x with
    | none => simp
    | some cs => exact Numeric.printable_finiteChars h

end RunLog
