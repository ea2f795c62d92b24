import RunLog.Xz.Decoder

/-! # The decoder makes progress

What is given out without taking a byte was held back before, and a stream is complete only on its
last byte. -/

namespace RunLog.Xz

namespace Chunk

theorem left_settle {c d : Chunk} {room : Nat} (h : c.settle? room = some d) : d.left = c.left := by
  unfold settle? at h
  split at h
  · obtain ⟨coder, _, rfl⟩ := Option.map_eq_some_iff.mp h
    rfl
  · cases h
    rfl

@[simp] theorem left_next (c : Chunk) : c.next.2.left = c.left := by
  unfold next
  split
  · unfold decode
    split
    · rfl
    · split <;> rfl
  · rfl

/-- Every byte given out is one less to come. -/
theorem length_run (output : Bytes) (room : Nat) (c : Chunk) :
    (run output room c).2.1.left + (run output room c).2.2.length = c.left + output.length := by
  induction room generalizing c output with
  | zero =>
    unfold run
    split
    · rfl
    · rename_i d hd
      rw [← left_settle hd]
      split <;> rfl
  | succ room ih =>
    unfold run
    split
    · rfl
    · rename_i d hd
      rw [← left_settle hd]
      split
      · rfl
      · rename_i hpos
        dsimp only
        split
        · rfl
        · have hnext := left_next d.pass
          split <;> rename_i hd <;> rw [hd] at hnext <;> change _ = d.left at hnext
          · simpa using hnext
          · simp only at hnext
            rw [ih]
            simp only [give, List.length_cons]
            omega

end Chunk

namespace Block

theorem backlog_run (b : Block) (room : Nat) :
    (b.run room).2.1.backlog + (b.run room).2.2.length ≤ b.backlog := by
  unfold run
  split
  · rename_i chunk hpart
    have := chunk.length_run [] room
    split
    · rename_i hrun
      simp_all [backlog]
      omega
    · rename_i hrun
      simp_all [backlog]
  all_goals simp

@[simp] theorem backlog_pass (b : Block) : b.pass.backlog = b.backlog := by
  unfold pass
  split <;> simp [backlog, Chunk.pass, *]

end Block

namespace Decoder

theorem backlog_run (d : Decoder) (room : Nat) :
    (d.run room).2.1.backlog + (d.run room).2.2.length ≤ d.backlog := by
  unfold run
  split
  · exact Block.backlog_run _ _
  · simp

@[simp] theorem backlog_pass (d : Decoder) : d.pass.backlog = d.backlog := by
  unfold pass
  split
  · exact Block.backlog_pass _
  · rfl

theorem le_taken_feedFrom (d : Decoder) (taken : Nat) (output : Bytes) (room : Nat)
    (input : Bytes) : taken ≤ (feedFrom d taken output room input).taken := by
  induction input generalizing d taken output room with
  | nil =>
    unfold feedFrom
    split <;> exact Nat.le_refl _
  | cons x input ih =>
    unfold feedFrom
    split
    · exact Nat.le_refl _
    · exact Nat.le_refl _
    · simp only
      split
      · exact Nat.le_trans (Nat.le_succ _) (ih _ _ _ _)
      · exact Nat.le_trans (Nat.le_succ _) (ih _ _ _ _)
      · exact Nat.le_succ _
      · split
        · exact Nat.le_succ _
        · exact Nat.le_refl _

/-- Without a byte taken, what is given out was held back before. -/
theorem backlog_feedFrom {d : Decoder} {taken : Nat} {output : Bytes} {room : Nat} {input : Bytes}
    (h : (feedFrom d taken output room input).taken = taken) :
    (feedFrom d taken output room input).state.backlog
      + (feedFrom d taken output room input).output.length ≤ d.backlog + output.length := by
  have hrun := backlog_run d room
  revert h
  unfold feedFrom
  split <;> rename_i hd <;> rw [hd] at hrun <;> simp only at hrun
  · simp
    omega
  · simp [pause]
    omega
  · rename_i d₁ more _ _
    cases input with
    | nil =>
      simp [pause]
      omega
    | cons x input =>
      simp only
      split
      · rename_i d₂ _
        intro h
        have := le_taken_feedFrom d₂ (taken + 1) (more ++ output) (room - more.length) input
        omega
      · rename_i d₂ _
        intro h
        have := le_taken_feedFrom d₂ (taken + 1) (x :: (more ++ output)) (room - more.length - 1)
          input
        omega
      · simp
      · intro _
        simp only [show (header []).backlog = 0 from rfl, List.length_reverse, List.length_append]
        omega

theorem taken_ne_of_finished {d : Decoder} {taken : Nat} {output : Bytes} {room : Nat}
    {input : Bytes} (h : (feedFrom d taken output room input).verdict = .finished) :
    input ≠ [] ∧ (feedFrom d taken output room input).taken ≠ taken := by
  have hpause : ∀ (d : Decoder) taken output, (d.pause taken output).verdict ≠ .finished := by
    intro d taken output
    unfold pause
    cases d.isOverrun <;> simp
  revert h
  unfold feedFrom
  split
  · simp
  · exact fun h => absurd h (hpause _ _ _)
  · rename_i d₁ more _ _ _
    cases input with
    | nil => exact fun h => absurd h (hpause _ _ _)
    | cons x input =>
      simp only
      split
      · rename_i d₂ _
        have := le_taken_feedFrom d₂ (taken + 1) (more ++ output) (room - more.length) input
        exact fun _ => ⟨by simp, by omega⟩
      · rename_i d₂ _
        have := le_taken_feedFrom d₂ (taken + 1) (x :: (more ++ output)) (room - more.length - 1)
          input
        exact fun _ => ⟨by simp, by omega⟩
      · simp
      · simp

instance : RunLog.Decoder Decoder where
  start := header []
  feed d input room := feedFrom d 0 [] room input
  backlog := backlog
  backlog_lt {d input room} hnone houtput := by
    have hpos := List.length_pos_iff.mpr houtput
    cases input with
    | nil =>
      have := @backlog_feedFrom d 0 [] room [] (by
        unfold feedFrom
        split <;> rfl)
      simp only [List.length_nil] at this
      omega
    | cons x input =>
      have htaken : (feedFrom d 0 [] room (x :: input)).taken = 0 := by
        cases h : (feedFrom d 0 [] room (x :: input)).taken with
        | zero => rfl
        | succ n => simp [h] at hnone
      have := backlog_feedFrom htaken
      simp only [List.length_nil] at this
      omega
  take_ne_nil {d input room} h := by
    obtain ⟨hinput, htaken⟩ := taken_ne_of_finished h
    intro hnil
    cases List.take_eq_nil_iff.mp hnil with
    | inl h => exact htaken h
    | inr h => exact hinput h

end Decoder

end RunLog.Xz
