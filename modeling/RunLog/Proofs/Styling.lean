import Mathlib.Data.List.Forall2
import RunLog.Proofs.Cutting
import RunLog.Proofs.Numeral
import RunLog.Report.Style

/-! # Text under its styles

Terminal escapes can be deleted from a text. A painted text is one that its plain text is left of
when they are, wherever it stands; painted texts are put together like plain ones. -/

namespace RunLog

/-! ## Text without escapes -/

/-- No terminal escape begins in this text. -/
def Bare (cs : List Char) : Prop := Style.escape ∉ cs

namespace Bare

variable {cs ds : List Char} {c : Char}

instance : Decidable (Bare cs) := inferInstanceAs (Decidable (Style.escape ∉ cs))

@[simp] theorem nil : Bare [] := List.not_mem_nil

@[simp] theorem cons_iff : Bare (c :: cs) ↔ c ≠ Style.escape ∧ Bare cs := by
  simp [Bare, eq_comm]

@[simp] theorem append_iff : Bare (cs ++ ds) ↔ Bare cs ∧ Bare ds := by simp [Bare]

theorem of_subset (h : Bare cs) (hsubset : ds ⊆ cs) : Bare ds := fun hmem => h (hsubset hmem)

theorem of_forall (h : ∀ c ∈ cs, c ≠ Style.escape) : Bare cs := fun hmem => h _ hmem rfl

theorem ne_of_mem (h : Bare cs) (hc : c ∈ cs) : c ≠ Style.escape := by
  rintro rfl
  exact h hc

theorem replicate {n : Nat} (h : c ≠ Style.escape) : Bare (List.replicate n c) :=
  .of_forall fun d hd => by rwa [List.eq_of_mem_replicate hd]

theorem flatten {pieces : List (List Char)} (h : ∀ piece ∈ pieces, Bare piece) :
    Bare pieces.flatten := by
  intro hmem
  obtain ⟨piece, hpiece, hescape⟩ := List.mem_flatten.mp hmem
  exact h piece hpiece hescape

theorem intercalate {glue : List Char} {pieces : List (List Char)} (hglue : Bare glue)
    (h : ∀ piece ∈ pieces, Bare piece) : Bare (List.intercalate glue pieces) := by
  cases pieces with
  | nil => exact nil
  | cons first rest =>
    obtain ⟨hfirst, hrest⟩ := List.forall_mem_cons.mp h
    rw [Text.intercalate_cons_eq, append_iff, List.flatMap_def]
    refine ⟨hfirst, flatten fun piece hpiece => ?_⟩
    obtain ⟨piece, hmem, rfl⟩ := List.mem_map.mp hpiece
    exact append_iff.mpr ⟨hglue, hrest piece hmem⟩

theorem digits (n : Nat) : Bare (Numeric.digits n) := by
  refine .of_forall fun c hc => ?_
  rintro rfl
  have hdigit := Number.isDigit_of_mem_digits hc
  exact absurd hdigit (by decide)

end Bare

namespace Style

/-! ## Deleting escapes -/

/-- Deletes escapes, in the midst of one or not. An escape goes from its bracket to an `m`. -/
def unstyleFrom : Bool → List Char → List Char
  | _, [] => []
  | true, c :: cs => unstyleFrom (c ≠ 'm') cs
  | false, c :: cs =>
    if c = escape ∧ cs.head? = some '[' ∧ 'm' ∈ cs then unstyleFrom true cs
    else c :: unstyleFrom false cs

/-- The text without its escapes. -/
def unstyle (cs : List Char) : List Char := unstyleFrom false cs

@[simp] theorem unstyle_nil : unstyle [] = [] := rfl

theorem unstyle_cons {c : Char} (h : c ≠ escape) (cs : List Char) :
    unstyle (c :: cs) = c :: unstyle cs := by
  rw [unstyle, unstyleFrom, if_neg fun hescape => h hescape.1]
  rfl

theorem unstyleFrom_true {cs : List Char} (h : 'm' ∉ cs) (rest : List Char) :
    unstyleFrom true (cs ++ 'm' :: rest) = unstyle rest := by
  induction cs with
  | nil => rfl
  | cons c cs ih =>
    rw [List.mem_cons, not_or] at h
    have hc : decide (c ≠ 'm') = true := decide_eq_true (Ne.symm h.1)
    rw [List.cons_append, unstyleFrom, hc]
    exact ih h.2

/-- An escape is deleted up to its end. -/
theorem unstyle_escape {code : List Char} (h : 'm' ∉ code) (rest : List Char) :
    unstyle (escape :: '[' :: (code ++ 'm' :: rest)) = unstyle rest := by
  have hcode : 'm' ∉ '[' :: code := by simp [h]
  rw [unstyle, unstyleFrom, if_pos ⟨rfl, rfl, by simp⟩]
  exact unstyleFrom_true hcode rest

/-- The codes of a style. -/
theorem exists_opening (s : Style) : ∃ code, 'm' ∉ code ∧
    s.opening = escape :: '[' :: (code ++ ['m']) := by
  obtain ⟨color, bold, dimmed⟩ := s
  refine ⟨Numeric.digits color.code ++ (if bold then [';', '1'] else []) ++
    (if dimmed then [';', '2'] else []), ?_, by simp [opening]⟩
  cases color <;> cases bold <;> cases dimmed <;> decide

theorem unstyle_opening (s : Style) (rest : List Char) :
    unstyle (s.opening ++ rest) = unstyle rest := by
  obtain ⟨code, hcode, hopening⟩ := s.exists_opening
  rw [hopening]
  simpa using unstyle_escape hcode rest

theorem unstyle_closing (rest : List Char) : unstyle (closing ++ rest) = unstyle rest :=
  unstyle_escape (by decide : 'm' ∉ ['0']) rest

end Style

/-! ## Painted texts -/

/-- The plain text is what the other leaves without its escapes, whatever follows. -/
def Painted (plain painted : List Char) : Prop :=
  ∀ rest, Style.unstyle (painted ++ rest) = plain ++ Style.unstyle rest

namespace Painted

variable {plain painted plain' painted' : List Char}

theorem unstyle_eq (h : Painted plain painted) : Style.unstyle painted = plain := by
  simpa using h []

theorem nil : Painted [] [] := fun _ => rfl

/-- A text without escapes is left as it is. -/
theorem of_bare {cs : List Char} (h : Bare cs) : Painted cs cs := by
  intro rest
  induction cs with
  | nil => rfl
  | cons c cs ih =>
    obtain ⟨hc, hcs⟩ := Bare.cons_iff.mp h
    rw [List.cons_append, Style.unstyle_cons hc, ih hcs]
    rfl

theorem append (h : Painted plain painted) (h' : Painted plain' painted') :
    Painted (plain ++ plain') (painted ++ painted') := by
  intro rest
  rw [List.append_assoc, h, h', List.append_assoc]

theorem cons {c : Char} (hc : c ≠ Style.escape) (h : Painted plain painted) :
    Painted (c :: plain) (c :: painted) :=
  append (of_bare (by simp [hc] : Bare [c])) h

/-- A text that is styled or not. -/
theorem paint (h : Painted plain painted) (s : Style) (colors : Bool) :
    Painted plain (s.paint colors painted) := by
  cases colors with
  | false => exact h
  | true =>
    intro rest
    have hopened := s.unstyle_opening (painted ++ (Style.closing ++ rest))
    rw [h, Style.unstyle_closing] at hopened
    simpa [Style.paint] using hopened

theorem flatten {plains painteds : List (List Char)} (h : List.Forall₂ Painted plains painteds) :
    Painted plains.flatten painteds.flatten := by
  induction h with
  | nil => exact nil
  | cons hfirst _ ih => exact hfirst.append ih

theorem intercalate {glue glue' : List Char} (hglue : Painted glue glue')
    {plains painteds : List (List Char)} (h : List.Forall₂ Painted plains painteds) :
    Painted (List.intercalate glue plains) (List.intercalate glue' painteds) := by
  cases h with
  | nil => exact nil
  | cons hfirst hrest =>
    rw [Text.intercalate_cons_eq, Text.intercalate_cons_eq]
    refine hfirst.append ?_
    induction hrest with
    | nil => exact nil
    | cons hnext _ ih => exact (hglue.append hnext).append ih

end Painted

/-- A painted text that is there just if the plain one is: it is not nothing but escapes. -/
structure Repainted (plain painted : List Char) : Prop where
  unstyled : Painted plain painted
  isEmpty_eq : painted.isEmpty = plain.isEmpty

namespace Repainted

variable {plain painted plain' painted' : List Char}

theorem nil : Repainted [] [] := ⟨.nil, rfl⟩

theorem of_ne_nil (h : Painted plain painted) (hne : plain ≠ []) : Repainted plain painted := by
  refine ⟨h, ?_⟩
  have hpainted : painted ≠ [] := by
    rintro rfl
    exact hne h.unstyle_eq.symm
  rw [Bool.eq_iff_iff, List.isEmpty_iff, List.isEmpty_iff]
  exact ⟨fun h => absurd h hpainted, fun h => absurd h hne⟩

theorem append (h : Repainted plain painted) (h' : Repainted plain' painted') :
    Repainted (plain ++ plain') (painted ++ painted') := by
  refine ⟨h.unstyled.append h'.unstyled, ?_⟩
  have hempty (xs ys : List Char) : (xs ++ ys).isEmpty = (xs.isEmpty && ys.isEmpty) := by
    cases xs <;> rfl
  rw [hempty, hempty, h.isEmpty_eq, h'.isEmpty_eq]

end Repainted

/-- Both fail the same, or both succeed with what is related. -/
inductive Except.Rel {ε α β : Type} (R : α → β → Prop) : Except ε α → Except ε β → Prop where
  | ok {a : α} {b : β} (h : R a b) : Rel R (.ok a) (.ok b)
  | error (e : ε) : Rel R (.error e) (.error e)

theorem Except.Rel.bind {ε α α' β β' : Type} {R : α → α' → Prop} {S : β → β' → Prop}
    {x : Except ε α} {x' : Except ε α'} (h : Except.Rel R x x') {f : α → Except ε β}
    {g : α' → Except ε β'} (hnext : ∀ a a', R a a' → Except.Rel S (f a) (g a')) :
    Except.Rel S (x >>= f) (x' >>= g) := by
  cases h with
  | ok h => exact hnext _ _ h
  | error e => exact .error e

end RunLog
