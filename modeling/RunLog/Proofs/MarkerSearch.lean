import Mathlib.Data.List.Infix
import RunLog.Reader.Marker

/-! # The earliest marker

A search gives the earliest marker, and bytes that come later never bring an earlier one: no marker
stands within the start of another. A position with room for the longest marker is settled at
once. -/

namespace RunLog.Marker

variable {bs : Bytes} {low o o' : Nat} {m m' : Marker}

/-- The byte strings that mark a place. -/
def words : List Bytes := magic :: plainStarts

theorem at?_eq_none_iff : at? bs = none ↔ ∀ w ∈ words, ¬ w <+: bs := by
  simp only [at?, words, List.forall_mem_cons, ← List.isPrefixOf_iff_prefix]
  constructor
  · intro h
    split at h
    · cases h
    · split at h
      · cases h
      · rename_i hmagic hplain
        exact ⟨hmagic, fun w hw hprefix => hplain (List.any_eq_true.mpr ⟨w, hw, hprefix⟩)⟩
  · rintro ⟨hmagic, hplain⟩
    rw [if_neg hmagic, if_neg]
    rw [List.any_eq_true]
    rintro ⟨w, hw, hprefix⟩
    exact hplain w hw hprefix

theorem at?_ne_none_iff : at? bs ≠ none ↔ ∃ w ∈ words, w <+: bs := by
  rw [ne_eq, at?_eq_none_iff]
  push Not
  rfl

@[simp] theorem at?_nil : at? [] = none := rfl

theorem at?_eq_compressed_iff : at? bs = some .compressed ↔ magic <+: bs := by
  rw [← List.isPrefixOf_iff_prefix, at?]
  split
  · simp_all
  · split <;> simp_all

/-- Plain records do not begin like compressed data. -/
theorem head?_of_at?_eq_plain (h : at? bs = some .plain) : bs.head? ≠ some 0xFD := by
  rw [at?] at h
  split at h
  · cases h
  · split at h
    · rename_i hplain
      obtain ⟨w, hw, hprefix⟩ := List.any_eq_true.mp hplain
      obtain ⟨rest, rfl⟩ := List.isPrefixOf_iff_prefix.mp hprefix
      simp only [plainStarts, List.mem_cons, List.not_mem_nil, or_false] at hw
      rcases hw with rfl | rfl <;> simp
    · cases h

theorem not_isPrefix_magic_of_head? (h : bs.head? ≠ some 0xFD) : ¬ magic <+: bs := by
  rintro ⟨rest, rfl⟩
  exact h rfl

/-- What follows a marker does not change it. -/
theorem at?_append (h : at? bs = some m) (more : Bytes) : at? (bs ++ more) = some m := by
  cases m with
  | compressed =>
    rw [at?_eq_compressed_iff] at h ⊢
    exact h.trans (List.prefix_append bs more)
  | plain =>
    have hword : at? (bs ++ more) ≠ none := by
      obtain ⟨w, hw, hprefix⟩ := at?_ne_none_iff.mp (show at? bs ≠ none by simp [h])
      exact at?_ne_none_iff.mpr ⟨w, hw, hprefix.trans (List.prefix_append bs more)⟩
    have hhead : (bs ++ more).head? ≠ some 0xFD := by
      have hbs := head?_of_at?_eq_plain h
      cases bs with
      | nil => cases h
      | cons b rest => exact hbs
    have hmagic := mt at?_eq_compressed_iff.mp (not_isPrefix_magic_of_head? hhead)
    rcases hat : at? (bs ++ more) with _ | m
    · exact absurd hat hword
    · cases m with
      | compressed => exact absurd hat hmagic
      | plain => rfl

/-! ## Markers cut short -/

/-- No marker stands within another. -/
theorem not_isPrefix_drop :
    ∀ w ∈ words, ∀ w' ∈ words, ∀ j < maxLength, ¬ w <+: w'.drop (j + 1) := by
  decide

theorem length_le_of_mem_words : ∀ w ∈ words, w.length ≤ maxLength := by
  decide

/-- A marker that is cut short by the end of the bytes hides no later one. -/
theorem at?_append_eq_none {j : Nat} (hj : 0 < j) (hnone : at? bs = none)
    (hsome : at? (bs.drop j) = some m) (more : Bytes) : at? (bs ++ more) = none := by
  rw [at?_eq_none_iff] at hnone ⊢
  intro w' hw' hprefix'
  obtain ⟨w, hw, hprefix⟩ := at?_ne_none_iff.mp (show at? (bs.drop j) ≠ none by simp [hsome])
  have hcut : bs <+: w' := by
    rcases List.prefix_or_prefix_of_prefix hprefix' (List.prefix_append bs more) with h | h
    · exact absurd h (hnone w' hw')
    · exact h
  have hinside : w <+: w'.drop j := hprefix.trans (List.IsPrefix.drop hcut j)
  have hlength : j < maxLength := by
    by_contra hge
    have hempty : w'.drop j = [] :=
      List.drop_eq_nil_of_le (Nat.le_trans (length_le_of_mem_words w' hw') (Nat.le_of_not_lt hge))
    rw [hempty, List.prefix_nil] at hinside
    rw [hinside] at hw
    revert hw
    decide
  obtain ⟨k, rfl⟩ := Nat.exists_eq_add_one_of_ne_zero (Nat.ne_of_gt hj)
  exact not_isPrefix_drop w hw w' hw' k (by omega) hinside

/-- With room for the longest marker there is no doubt. -/
theorem at?_append_of_le (h : maxLength ≤ bs.length) (more : Bytes) :
    at? (bs ++ more) = at? bs := by
  rcases hat : at? bs with _ | m
  · rw [at?_eq_none_iff] at hat ⊢
    intro w hw hprefix
    rcases List.prefix_or_prefix_of_prefix hprefix (List.prefix_append bs more) with hle | hle
    · exact hat w hw hle
    · have hlength := Nat.le_trans (length_le_of_mem_words w hw) h
      rw [hle.eq_of_length_le hlength] at hat
      exact hat w hw (List.prefix_refl w)
  · exact at?_append hat more

/-! ## Searching -/

/-- The earliest position from `low` on at which a marker stands. -/
structure Earliest (bs : Bytes) (low : Nat) (m : Marker) (o : Nat) : Prop where
  low_le : low ≤ o
  at?_eq : at? (bs.drop o) = some m
  none_before : ∀ k, low ≤ k → k < o → at? (bs.drop k) = none

/-- No marker stands at any position from `low` on. -/
def Absent (bs : Bytes) (low : Nat) : Prop := ∀ k, low ≤ k → at? (bs.drop k) = none

theorem lt_length_of_at? (h : at? (bs.drop o) = some m) : o < bs.length := by
  by_contra hge
  rw [List.drop_eq_nil_of_le (Nat.le_of_not_lt hge)] at h
  cases h

namespace Earliest

theorem unique (h : Earliest bs low m o) (h' : Earliest bs low m' o') : o = o' ∧ m = m' := by
  have hle : ∀ {o o' m m'}, Earliest bs low m o → Earliest bs low m' o' → o ≤ o' := by
    intro o o' m m' h h'
    by_contra hlt
    have hnone := h.none_before o' h'.low_le (Nat.lt_of_not_le hlt)
    rw [h'.at?_eq] at hnone
    cases hnone
  obtain rfl := Nat.le_antisymm (hle h h') (hle h' h)
  exact ⟨rfl, Option.some.inj (h.at?_eq.symm.trans h'.at?_eq)⟩

theorem not_absent (h : Earliest bs low m o) : ¬ Absent bs low := by
  intro habsent
  have hnone := habsent o h.low_le
  rw [h.at?_eq] at hnone
  cases hnone

theorem lt_length (h : Earliest bs low m o) : o < bs.length := lt_length_of_at? h.at?_eq

/-- The earliest marker stays the earliest whatever comes after the bytes. -/
theorem append (h : Earliest bs low m o) (more : Bytes) : Earliest (bs ++ more) low m o := by
  have hlength := h.lt_length
  refine ⟨h.low_le, ?_, ?_⟩
  · rw [List.drop_append_of_le_length (by omega)]
    exact at?_append h.at?_eq more
  · intro k hlow hk
    rw [List.drop_append_of_le_length (by omega)]
    refine at?_append_eq_none (Nat.sub_pos_of_lt hk) (h.none_before k hlow hk) (m := m) ?_ more
    rw [List.drop_drop, Nat.add_sub_cancel' (Nat.le_of_lt hk)]
    exact h.at?_eq

/-- The search may begin later, if there is nothing in between. -/
theorem of_later {low' : Nat} (h : Earliest bs low' m o) (hle : low ≤ low')
    (hnone : ∀ k, low ≤ k → k < low' → at? (bs.drop k) = none) : Earliest bs low m o := by
  refine ⟨Nat.le_trans hle h.low_le, h.at?_eq, ?_⟩
  intro k hlow hk
  by_cases hlt : k < low'
  · exact hnone k hlow hlt
  · exact h.none_before k (Nat.le_of_not_lt hlt) hk

end Earliest

theorem Absent.of_later {low' : Nat} (h : Absent bs low')
    (hnone : ∀ k, low ≤ k → k < low' → at? (bs.drop k) = none) : Absent bs low := by
  intro k hlow
  by_cases hlt : k < low'
  · exact hnone k hlow hlt
  · exact h k (Nat.le_of_not_lt hlt)

/-- Positions are counted from where the count begins. -/
theorem find?_add (base skipped : Nat) (bs : Bytes) :
    find? (base + skipped) bs =
      (find? skipped bs).map fun (before, m, found) => (base + before, m, found) := by
  induction bs generalizing skipped with
  | nil => rfl
  | cons b rest ih =>
    simp only [find?]
    split
    · rfl
    · exact ih (skipped + 1)

/-- A search finds the earliest marker, or there is none. -/
theorem find?_drop (bs : Bytes) (low : Nat) :
    (∃ m o, find? low (bs.drop low) = some (o, m, bs.drop o) ∧ Earliest bs low m o) ∨
      find? low (bs.drop low) = none ∧ Absent bs low := by
  induction hrest : bs.drop low generalizing low with
  | nil =>
    refine .inr ⟨rfl, ?_⟩
    intro k hk
    rw [List.drop_eq_nil_of_le (Nat.le_trans (List.drop_eq_nil_iff.mp hrest) hk)]
    rfl
  | cons b rest ih =>
    have hnext : bs.drop (low + 1) = rest := by
      rw [← List.drop_drop, hrest]
      rfl
    rcases hat : at? (b :: rest) with _ | m
    · have hfind : find? low (b :: rest) = find? (low + 1) rest := by
        rw [find?, hat]
      have hnone : ∀ k, low ≤ k → k < low + 1 → at? (bs.drop k) = none := by
        intro k hlow hk
        rw [show k = low by omega, hrest]
        exact hat
      rcases ih (low + 1) hnext with ⟨m, o, hsome, hearliest⟩ | ⟨hfound, habsent⟩
      · exact .inl ⟨m, o, hfind.trans hsome, hearliest.of_later (Nat.le_succ low) hnone⟩
      · exact .inr ⟨hfind.trans hfound, habsent.of_later hnone⟩
    · refine .inl ⟨m, low, ?_, Nat.le_refl low, by rw [hrest]; exact hat, ?_⟩
      · rw [find?, hat, hrest]
      · intro k hlow hk
        omega

end RunLog.Marker
