import RunLog.Proofs.Cutting
import RunLog.Proofs.Numeral
import RunLog.Record.Basic

/-! # Names and paths read back

Every keyword, kind, role and outcome is found again by its name, and every path by its written
form. -/

namespace RunLog

theorem Keyword.ofName?_name (k : Keyword) : ofName? k.name = some k := by
  cases k with
  | text kind => cases kind <;> decide
  | _ => decide

theorem Keyword.name_of_ofName? {raw : String} {k : Keyword} (h : ofName? raw = some k) :
    k.name = raw := by
  simpa using List.find?_some h

/-- Keywords are written in capitals. -/
theorem Keyword.bounds_of_mem_name (k : Keyword) {c : Char} (h : c ∈ k.name.toList) :
    0x41 ≤ c.toNat ∧ c.toNat ≤ 0x5A := by
  have hall : (k.name.toList.all fun c => decide (0x41 ≤ c.toNat ∧ c.toNat ≤ 0x5A)) = true := by
    cases k with
    | text kind => cases kind <;> rfl
    | _ => rfl
  exact of_decide_eq_true (List.all_eq_true.mp hall c h)

theorem Keyword.comma_not_mem_name (k : Keyword) : ',' ∉ k.name.toList := by
  intro hcomma
  have hlow := (k.bounds_of_mem_name hcomma).1
  exact absurd hlow (by decide)

theorem NodeKind.ofName?_name (k : NodeKind) : ofName? k.name = some k := by
  cases k <;> decide

theorem Role.ofName?_name (r : Role) : ofName? r.name = some r := by
  cases r <;> decide

theorem Outcome.ofName?_name (o : Outcome) : ofName? o.name = some o := by
  cases o <;> decide

namespace NodeId

theorem readPosition?_digits (n : UInt32) :
    readPosition? (Nat.toDigits 10 n.toNat) = some n := by
  have hdigit : ∀ c ∈ Nat.toDigits 10 n.toNat, c.isDigit = true := by
    intro c hc
    exact Nat.isDigit_of_mem_toDigits (by decide) (by decide) hc
  have hplus : '+' ∉ Nat.toDigits 10 n.toNat := by
    intro h
    simpa using hdigit '+' h
  have hvalue : (Nat.toDigits 10 n.toNat).foldl (fun m c => m * 10 + (c.toNat - '0'.toNat)) 0 =
      n.toNat := Number.foldl_digits n.toNat
  have hlt : n.toNat < UInt32.size := n.toNat_lt_size
  unfold readPosition?
  split
  · rename_i heq
    exact absurd (by simp [heq]) hplus
  · dsimp only
    rw [if_pos ⟨Nat.toDigits_ne_nil, by simpa using hdigit⟩, hvalue, if_pos hlt,
      UInt32.ofNat_toNat]

theorem mapM_readPosition?_digits (path : List UInt32) :
    (path.map fun n => Nat.toDigits 10 n.toNat).mapM readPosition? = some path := by
  induction path with
  | nil => rfl
  | cons n path ih => simp [readPosition?_digits, ih]

theorem slash_not_mem_digits (n : Nat) : '/' ∉ Nat.toDigits 10 n := by
  intro h
  have hdigit := Nat.isDigit_of_mem_toDigits (by decide) (by decide) h
  simp at hdigit

/-- A path is read position by position. -/
theorem read?_intercalate {pieces : List (List Char)} (hne : pieces ≠ [])
    (h : ∀ piece ∈ pieces, piece ≠ [] ∧ '/' ∉ piece) :
    read? (List.intercalate ['/'] pieces) = (pieces.mapM readPosition?).map mk := by
  have hcut := Text.cut_intercalate hne fun piece hpiece => (h piece hpiece).2
  obtain ⟨piece, more, rfl⟩ := List.exists_cons_of_ne_nil hne
  obtain ⟨hpiece, hslash⟩ := h piece List.mem_cons_self
  obtain ⟨c, cs, rfl⟩ := List.exists_cons_of_ne_nil hpiece
  have hc : c ≠ '/' := by
    rintro rfl
    exact hslash List.mem_cons_self
  rw [Text.intercalate_cons_eq, List.cons_append] at hcut ⊢
  rw [← hcut]
  simp [read?, hc]

theorem digits_of_mem_map {path : List UInt32} :
    ∀ piece ∈ path.map fun n => Nat.toDigits 10 n.toNat, piece ≠ [] ∧ '/' ∉ piece := by
  intro piece hpiece
  obtain ⟨n, -, rfl⟩ := List.mem_map.mp hpiece
  exact ⟨Nat.toDigits_ne_nil, slash_not_mem_digits n.toNat⟩

theorem read?_chars (id : NodeId) : read? id.chars = some id := by
  obtain ⟨path⟩ := id
  by_cases hne : path = []
  · subst hne
    rfl
  · rw [chars, read?_intercalate (by simpa using hne) digits_of_mem_map, mapM_readPosition?_digits]
    rfl

theorem ofString?_render (id : NodeId) : ofString? id.render = some id := by
  simpa [ofString?, render] using read?_chars id

end NodeId

end RunLog
