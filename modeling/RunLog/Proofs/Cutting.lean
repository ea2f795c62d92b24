import RunLog.Text.Cut

/-! # Cutting and joining

Cutting undoes joining when the separator is in none of the pieces. -/

namespace RunLog.Text

variable {α : Type} [DecidableEq α] {sep : α}

theorem cut_cons_sep (xs : List α) : cut sep (sep :: xs) = [] :: cut sep xs := by
  simp [cut]

theorem cut_cons_of_ne {x : α} (h : x ≠ sep) {xs piece : List α} {rest : List (List α)}
    (hcut : cut sep xs = piece :: rest) : cut sep (x :: xs) = (x :: piece) :: rest := by
  rw [cut] at hcut ⊢
  rw [List.foldr_cons, if_neg h, hcut]

theorem cut_of_not_mem {xs : List α} (h : sep ∉ xs) : cut sep xs = [xs] := by
  induction xs with
  | nil => rfl
  | cons x xs ih =>
    rw [List.mem_cons, not_or] at h
    exact cut_cons_of_ne (Ne.symm h.1) (ih h.2)

/-- The first piece ends at the first separator. -/
theorem cut_append {piece : List α} (h : sep ∉ piece) (xs : List α) :
    cut sep (piece ++ sep :: xs) = piece :: cut sep xs := by
  induction piece with
  | nil => exact cut_cons_sep xs
  | cons x piece ih =>
    rw [List.mem_cons, not_or] at h
    exact cut_cons_of_ne (Ne.symm h.1) (ih h.2)

/-- A list has no separator, or it is a piece and what follows its separator. -/
@[elab_as_elim]
theorem cut_induction (sep : α) {motive : List α → Prop} (whole : ∀ xs, sep ∉ xs → motive xs)
    (parted : ∀ piece rest, sep ∉ piece → motive rest → motive (piece ++ sep :: rest))
    (xs : List α) : motive xs := by
  induction hlength : xs.length using Nat.strongRecOn generalizing xs with
  | ind n ih =>
    by_cases hmem : sep ∈ xs
    · obtain ⟨piece, rest, rfl, hpiece⟩ := List.eq_append_cons_of_mem hmem
      refine parted piece rest hpiece (ih rest.length ?_ rest rfl)
      rw [← hlength, List.length_append, List.length_cons]
      omega
    · exact whole xs hmem

/-- A separator parts the pieces before it from those behind it. -/
theorem cut_append_cons (xs ys : List α) :
    cut sep (xs ++ sep :: ys) = cut sep xs ++ cut sep ys := by
  induction xs using cut_induction sep with
  | whole xs h => rw [cut_append h, cut_of_not_mem h, List.singleton_append]
  | parted piece rest h ih =>
    rw [List.append_assoc, List.cons_append, cut_append h, ih, cut_append h, List.cons_append]

theorem not_mem_of_mem_cut {xs piece : List α} (h : piece ∈ cut sep xs) : sep ∉ piece := by
  induction xs using cut_induction sep with
  | whole xs hxs =>
    rw [cut_of_not_mem hxs, List.mem_singleton] at h
    rwa [h]
  | parted first rest hfirst ih =>
    rw [cut_append hfirst, List.mem_cons] at h
    rcases h with rfl | h
    · exact hfirst
    · exact ih h

theorem subset_of_mem_cut {xs piece : List α} (h : piece ∈ cut sep xs) : piece ⊆ xs := by
  induction xs using cut_induction sep with
  | whole xs hxs =>
    rw [cut_of_not_mem hxs, List.mem_singleton] at h
    exact h ▸ List.Subset.refl _
  | parted first rest hfirst ih =>
    rw [cut_append hfirst, List.mem_cons] at h
    rcases h with rfl | h
    · exact List.subset_append_left _ _
    · exact fun x hx => List.mem_append_right _ (List.mem_cons_of_mem _ (ih h hx))

theorem cut_intercalate {pieces : List (List α)} (hne : pieces ≠ [])
    (h : ∀ piece ∈ pieces, sep ∉ piece) : cut sep (List.intercalate [sep] pieces) = pieces := by
  induction pieces with
  | nil => exact absurd rfl hne
  | cons piece pieces ih =>
    have hpiece := h piece List.mem_cons_self
    cases pieces with
    | nil => simpa using cut_of_not_mem hpiece
    | cons next pieces =>
      have hrest := ih (List.cons_ne_nil next pieces)
        fun p hp => h p (List.mem_cons_of_mem piece hp)
      simpa [List.intercalate_cons_cons, hrest] using
        cut_append hpiece (List.intercalate [sep] (next :: pieces))

omit [DecidableEq α] in
theorem intercalate_cons_eq (glue piece : List α) (pieces : List (List α)) :
    List.intercalate glue (piece :: pieces) = piece ++ pieces.flatMap (glue ++ ·) := by
  induction pieces generalizing piece with
  | nil => simp
  | cons next pieces ih => simp [List.intercalate_cons_cons, ih]

omit [DecidableEq α] in
/-- Joined pieces, and more of them. -/
theorem intercalate_append (glue : List α) {pieces : List (List α)} (hne : pieces ≠ [])
    (more : List (List α)) : List.intercalate glue (pieces ++ more) =
      List.intercalate glue pieces ++ more.flatMap (glue ++ ·) := by
  obtain ⟨piece, rest, rfl⟩ := List.exists_cons_of_ne_nil hne
  rw [List.cons_append, intercalate_cons_eq, intercalate_cons_eq, List.flatMap_append,
    List.append_assoc]

theorem decide_ne_of_not_mem {xs : List α} (h : sep ∉ xs) : ∀ x ∈ xs, decide (x ≠ sep) = true := by
  intro x hx
  simp only [decide_eq_true_eq]
  rintro rfl
  exact h hx

theorem cutOnce?_append {before : List α} (h : sep ∉ before) (after : List α) :
    cutOnce? sep (before ++ sep :: after) = some (before, after) := by
  have hall := decide_ne_of_not_mem h
  rw [cutOnce?, List.dropWhile_append_of_pos hall, List.takeWhile_append_of_pos hall]
  simp

theorem cutOnce?_of_not_mem {xs : List α} (h : sep ∉ xs) : cutOnce? sep xs = none := by
  have hdrop : (xs ++ []).dropWhile (· ≠ sep) = [] :=
    List.dropWhile_append_of_pos (decide_ne_of_not_mem h)
  rw [List.append_nil] at hdrop
  rw [cutOnce?, hdrop]

/-- What was cut apart goes together again. -/
theorem eq_of_cutOnce? {xs before after : List α} (h : cutOnce? sep xs = some (before, after)) :
    xs = before ++ sep :: after ∧ sep ∉ before := by
  have happend := List.takeWhile_append_dropWhile (p := (· ≠ sep)) (l := xs)
  unfold cutOnce? at h
  split at h
  · simp at h
  · rename_i x rest hdrop
    obtain ⟨rfl, rfl⟩ := Prod.mk.inj (Option.some.inj h)
    have hx : x = sep := by
      have := List.head?_dropWhile_not (· ≠ sep) xs
      rw [hdrop] at this
      simpa using this
    subst hx
    refine ⟨by rw [← hdrop, happend], fun hmem => ?_⟩
    have hall : (xs.takeWhile (· ≠ x)).all (· ≠ x) = true := List.all_takeWhile
    simpa using List.all_eq_true.mp hall x hmem

/-- What stands before a separator and after it, if it is the first. -/
theorem append_cons_inj {before after before' after' : List α} (h : sep ∉ before)
    (h' : sep ∉ before') (heq : before ++ sep :: after = before' ++ sep :: after') :
    before = before' ∧ after = after' := by
  have hcut := cutOnce?_append h after
  rw [heq, cutOnce?_append h' after'] at hcut
  obtain ⟨hbefore, hafter⟩ := Prod.mk.inj (Option.some.inj hcut)
  exact ⟨hbefore.symm, hafter.symm⟩

end RunLog.Text
