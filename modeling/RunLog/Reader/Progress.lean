import RunLog.Reader.Basic

/-! # Readers make progress

Every step of a reader lowers its rank, whatever the bytes are. Going back over
bytes that a failed stream took is paid for by leaving out that stream's first byte, or, once that is
out of sight, by the window starting afresh. -/

namespace RunLog

theorem Marker.length_of_find? {skipped : Nat} {bs : Bytes} {before : Nat} {m : Marker}
    {found : Bytes} (h : find? skipped bs = some (before, m, found)) :
    found.length ≤ bs.length := by
  induction bs generalizing skipped with
  | nil => simp [find?] at h
  | cons b rest ih =>
    simp only [find?] at h
    split at h
    · simp only [Option.some.injEq, Prod.mk.injEq] at h
      simp [← h.2.2]
    · have := ih h
      simp
      omega

namespace Reader

variable {δ : Type} [Decoder δ] {r : Reader δ}

/-- Lexicographic order of step ranks. -/
abbrev StepLt : Nat × Nat × Nat × Nat × Nat → Nat × Nat × Nat × Nat × Nat → Prop :=
  Prod.Lex (· < ·) (Prod.Lex (· < ·) (Prod.Lex (· < ·) (Prod.Lex (· < ·) (· < ·))))

theorem stepLt_iff {a b c d e a' b' c' d' e' : Nat} :
    StepLt (a', b', c', d', e') (a, b, c, d, e) ↔
      a' < a ∨ a' = a ∧ (b' < b ∨ b' = b ∧ (c' < c ∨ c' = c ∧ (d' < d ∨ d' = d ∧ e' < e))) := by
  simp [StepLt, Prod.lex_def]

namespace StepLt

variable {a b c d e a' b' c' d' e' : Nat}

theorem of_total (h : a' < a) : StepLt (a', b', c', d', e') (a, b, c, d, e) :=
  stepLt_iff.mpr (.inl h)

theorem of_hidden (ha : a' ≤ a) (h : b' < b) : StepLt (a', b', c', d', e') (a, b, c, d, e) := by
  rw [stepLt_iff]
  omega

/-- Bytes may go out of sight, but then fewer are left. -/
theorem of_input (ha : a' ≤ a) (hb : b < b' → a' < a) (h : c' < c) :
    StepLt (a', b', c', d', e') (a, b, c, d, e) := by
  rw [stepLt_iff]
  omega

theorem of_mode (ha : a' ≤ a) (hb : b' ≤ b) (hc : c' ≤ c) (h : d' < d) :
    StepLt (a', b', c', d', e') (a, b, c, d, e) := by
  rw [stepLt_iff]
  omega

theorem of_backlog (ha : a' ≤ a) (hb : b' ≤ b) (hc : c' ≤ c) (hd : d' ≤ d) (h : e' < e) :
    StepLt (a', b', c', d', e') (a, b, c, d, e) := by
  rw [stepLt_iff]
  omega

theorem trans {x y z : Nat × Nat × Nat × Nat × Nat} (h : StepLt x y) (h' : StepLt y z) :
    StepLt x z := by
  obtain ⟨a, b, c, d, e⟩ := x
  obtain ⟨a', b', c', d', e'⟩ := y
  obtain ⟨a'', b'', c'', d'', e''⟩ := z
  rw [stepLt_iff] at h h' ⊢
  omega

end StepLt

section Resync

variable (r : Reader δ) (failedAt : Nat) (fatal skipFirst : Bool)

@[simp] theorem window_resync : (r.resync failedAt fatal skipFirst).window = .empty := by
  unfold resync
  simp only
  split <;> rfl

/-- What is scanned is what was seen and what follows, less the byte skipped. -/
theorem length_input_resync :
    (r.resync failedAt fatal skipFirst).input.length ≤
      r.window.toList.length + r.input.length - (if skipFirst then 1 else 0) := by
  unfold resync
  simp only
  split
  · have := Marker.length_of_find? ‹_›
    simpa [startStream] using this
  · have := Marker.length_of_find? ‹_›
    simpa using this
  · simp
    omega

/-- Looking for a marker leaves the mode to which no other step leads back. -/
theorem modeRank_resync :
    (r.resync failedAt fatal skipFirst).modeRank ≤ 2 := by
  unfold resync
  simp only
  split
  · simp [startStream, modeRank]
  · simp [modeRank]
  · simp only [modeRank]
    generalize List.isEmpty _ = b
    cases b <;> decide

theorem modeRank_resync_nil (h : r.window.toList = []) (h' : r.input = []) :
    (r.resync failedAt fatal skipFirst).modeRank = 0 := by
  simp [resync, h, h', Marker.find?, modeRank]

/-- Unless it goes on looking, looking for a marker ends in a mode that looks for nothing. -/
theorem modeRank_resync_le_one
    (h : ∀ at' fatal', (r.resync failedAt fatal skipFirst).mode ≠ .resync at' fatal') :
    (r.resync failedAt fatal skipFirst).modeRank ≤ 1 := by
  unfold resync at h ⊢
  simp only at h ⊢
  split
  · simp [startStream, modeRank]
  · simp [modeRank]
  · rename_i hfind
    rw [hfind] at h
    exact absurd rfl (h failedAt fatal)

end Resync

theorem startStream_lt (h : r.modeRank = 3) : StepLt r.startStream.stepRank r.stepRank := by
  refine .of_mode ?_ ?_ (Nat.le_refl _) ?_
  · exact Nat.add_le_add_right (Nat.zero_le _) _
  · exact Nat.zero_le _
  · rw [h]
    show 1 < 3
    decide

/-- What feeding a decoder leaves of the bytes that could be decoded. -/
theorem length_push_drop (w : Window) (input : Bytes) (taken : Nat) :
    (w.push (input.take taken)).toList.length + (input.drop taken).length
      ≤ w.toList.length + input.length := by
  simp only [Window.length_toList, Window.total_push, List.length_take, List.length_drop]
  omega

/-- When the start of a stream goes out of sight, fewer bytes are left. -/
theorem length_push_drop_lt {w : Window} {input : Bytes} {taken : Nat}
    (h : w.hidden < (w.push (input.take taken)).hidden) :
    (w.push (input.take taken)).toList.length + (input.drop taken).length
      < w.toList.length + input.length := by
  unfold Window.hidden Window.isComplete at h
  simp only [decide_eq_true_eq, Window.total_push, List.length_take] at h
  simp only [Window.length_toList, Window.total_push, List.length_take, List.length_drop]
  split at h <;> split at h <;> omega

/-- Between streams nothing of the last one is gone back over. -/
theorem resync_lt (failedAt : Nat) (fatal : Bool)
    (h : ({ r with window := .empty }.resync failedAt fatal false).input.length < r.input.length ∨
      ({ r with window := .empty }.resync failedAt fatal false).modeRank < r.modeRank) :
    StepLt ({ r with window := .empty }.resync failedAt fatal false).stepRank r.stepRank := by
  have hlength := length_input_resync { r with window := .empty } failedAt fatal false
  have hwindow := window_resync { r with window := .empty } failedAt fatal false
  simp only [Window.toList_empty, List.length_nil, Bool.false_eq_true, if_false, Nat.zero_add,
    Nat.sub_zero] at hlength
  have htotal : ({ r with window := .empty }.resync failedAt fatal false).window.toList.length +
      ({ r with window := .empty }.resync failedAt fatal false).input.length
        ≤ r.window.toList.length + r.input.length := by
    rw [hwindow]
    simp only [Window.toList_empty, List.length_nil]
    omega
  have hhidden : ({ r with window := .empty }.resync failedAt fatal false).window.hidden
      ≤ r.window.hidden := by
    rw [hwindow]
    simp
  cases h with
  | inl h => exact .of_input htotal (fun h' => absurd h' (Nat.not_lt.mpr hhidden)) h
  | inr h => exact .of_mode htotal hhidden hlength h

/-- After damage, the bytes that the failed stream took are fewer by its first, or the start of the
stream was out of sight. -/
theorem rejected_lt {fed : Reader δ} {failedAt : Nat} {fatal : Bool} (hrank : 1 ≤ r.modeRank)
    (htotal : fed.window.toList.length + fed.input.length
      ≤ r.window.toList.length + r.input.length)
    (hhidden : r.window.hidden < fed.window.hidden →
      fed.window.toList.length + fed.input.length
        < r.window.toList.length + r.input.length) :
    StepLt (fed.resync failedAt fatal
      (fed.window.isComplete || fed.window.toList.isEmpty)).stepRank r.stepRank := by
  have hlength := length_input_resync fed failedAt fatal
    (fed.window.isComplete || fed.window.toList.isEmpty)
  cases hskip : fed.window.isComplete || fed.window.toList.isEmpty with
  | true =>
    rw [hskip] at hlength
    simp only [if_true] at hlength
    by_cases hpos : 0 < fed.window.toList.length + fed.input.length
    · refine .of_total ?_
      simp only [window_resync, Window.toList_empty, List.length_nil]
      omega
    · have hw : fed.window.toList = [] := List.length_eq_zero_iff.mp (by omega)
      have hi : fed.input = [] := List.length_eq_zero_iff.mp (by omega)
      refine .of_mode ?_ ?_ (by omega) ?_
      · simp only [window_resync, Window.toList_empty, List.length_nil]
        omega
      · simp
      · rw [modeRank_resync_nil _ _ _ _ hw hi]
        omega
  | false =>
    rw [hskip] at hlength
    simp only [Bool.false_eq_true, if_false] at hlength
    simp only [Bool.or_eq_false_iff] at hskip
    have hhid := Window.hidden_of_not_isComplete hskip.1
    by_cases hold : r.window.hidden < fed.window.hidden
    · refine .of_total ?_
      have := hhidden hold
      simp only [window_resync, Window.toList_empty, List.length_nil]
      omega
    · refine .of_hidden ?_ ?_
      · simp only [window_resync, Window.toList_empty, List.length_nil]
        omega
      · simp only [window_resync, Window.hidden_empty]
        omega

theorem inflate_lt {d : δ} {r' : Reader δ} (hmode : r.mode = .inflating d)
    (h : r.inflate? d = some r') : StepLt r'.stepRank r.stepRank := by
  have hrank : r.modeRank = 1 := by simp [modeRank, hmode]
  have hbacklog : r.backlog = Decoder.backlog d := by simp [backlog, hmode]
  have htotal := length_push_drop r.window r.input (Decoder.feed d r.input r.room).taken
  have hhidden := @length_push_drop_lt r.window r.input (Decoder.feed d r.input r.room).taken
  have htaken : r.input.take (Decoder.feed d r.input r.room).taken ≠ [] →
      (r.input.drop (Decoder.feed d r.input r.room).taken).length < r.input.length := by
    intro hne
    have := List.length_pos_iff.mpr hne
    simp only [List.length_take, List.length_drop] at this ⊢
    omega
  unfold inflate? at h
  simp only at h
  split at h
  · rename_i hverdict
    split at h
    · simp at h
    · rename_i hprogress
      rw [← Option.some.inj h]
      by_cases hused : r.input.take (Decoder.feed d r.input r.room).taken = []
      · have houtput : (Decoder.feed d r.input r.room).output ≠ [] := by
          intro hnil
          simp [hused, hnil] at hprogress
        have hbacklog' := Decoder.backlog_lt hused houtput
        refine .of_backlog htotal ?_ ?_ ?_ ?_
        · simp [hused, Window.hidden, Window.isComplete]
        · simp
        · rw [hrank]
          exact Nat.le_refl 1
        · rw [hbacklog]
          exact hbacklog'
      · exact .of_input htotal hhidden (htaken hused)
  · rename_i hverdict
    rw [← Option.some.inj h]
    exact .of_input htotal hhidden (htaken (Decoder.take_ne_nil hverdict))
  · rw [← Option.some.inj h]
    exact rejected_lt (by omega) htotal hhidden

theorem classify_lt {r' other : Reader δ} (hrank : r.modeRank = 3)
    (hother : StepLt other.stepRank r.stepRank) (h : r.classify? other = some r') :
    StepLt r'.stepRank r.stepRank := by
  unfold classify? at h
  split at h
  · simp at h
  · split at h
    · rw [← Option.some.inj h]
      exact startStream_lt hrank
    · split at h
      · simp at h
      · rwa [← Option.some.inj h]

/-- Every step lowers the rank. -/
theorem step_lt {r' : Reader δ} (h : r.step? = some r') : StepLt r'.stepRank r.stepRank := by
  unfold step? at h
  split at h <;> rename_i hmode
  · have hrank : r.modeRank = 3 := by simp [modeRank, hmode]
    refine classify_lt hrank ?_ h
    refine .of_mode (Nat.le_refl _) (Nat.le_refl _) (Nat.le_refl _) ?_
    rw [hrank]
    exact Nat.zero_lt_succ 2
  · split at h
    · simp at h
    · rename_i hinput
      rw [← Option.some.inj h]
      refine .of_total ?_
      have := List.length_pos_iff.mpr (fun h => hinput (by simp [h]) : r.input ≠ [])
      simpa using this
  · split at h
    · simp at h
    · exact inflate_lt hmode h
  · have hrank : r.modeRank = 3 := by simp [modeRank, hmode]
    simp only at h
    split at h
    · refine classify_lt hrank (resync_lt _ _ (.inr ?_)) h
      have := modeRank_resync { r with window := .empty } r.offset false false
      omega
    · rename_i hpadding
      rw [← Option.some.inj h]
      have hle := (List.takeWhile_sublist (· = 0) (l := r.input)).length_le
      have hpos := List.length_pos_iff.mpr
        (fun h => hpadding (by rw [h]; rfl) : r.input.takeWhile (· = 0) ≠ [])
      refine .of_total ?_
      simp only [List.length_drop]
      omega
  · rename_i failedAt fatal
    split at h
    · simp at h
    · rename_i hinput
      have hrank : r.modeRank = 2 := by simp [modeRank, hmode, hinput]
      have hlength := length_input_resync { r with window := .empty } failedAt fatal false
      simp only [Window.toList_empty, List.length_nil, Bool.false_eq_true, if_false, Nat.zero_add,
        Nat.sub_zero] at hlength
      simp only at h
      split at h
      · split at h
        · simp at h
        · rename_i hne
          rw [← Option.some.inj h]
          exact resync_lt _ _ (.inl (Nat.lt_of_le_of_ne hlength hne))
      · rename_i hnext
        rw [← Option.some.inj h]
        refine resync_lt _ _ (.inr ?_)
        have := modeRank_resync_le_one { r with window := .empty } failedAt fatal false
          (fun a b h => hnext a b h)
        omega

end Reader

end RunLog
