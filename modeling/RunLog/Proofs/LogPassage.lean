import RunLog.Proofs.DecoderFeeding
import RunLog.Proofs.ReaderMoves
import RunLog.Proofs.ReaderPosition

/-! # The passage of a log

What a log comes to is told by its bytes: it passes from phase to phase, and with a steady decoder
each phase leads to one other at most, whatever comes later. -/

namespace RunLog

open Marker

/-- What is known of the bytes of a log from some position on. -/
inductive LogPhase where
  | start
  /-- A compressed stream begins here. -/
  | inflating (begins : Nat)
  /-- Padding or another stream may follow here. -/
  | between (next : Nat)
  /-- From here on the log is plain. -/
  | raw (begins : Nat)
  /-- A marker is looked for from here on. -/
  | resync (low failedAt : Nat) (fatal : Bool)

namespace Marker

/-- Neither compressed data nor, as far as can be seen, the beginning of it. -/
def Foreign (bs : Bytes) : Prop := ¬ magic <+: bs ∧ ¬ bs <+: magic

/-- Too short to tell whether it is compressed data. -/
def Short (bs : Bytes) : Prop := bs <+: magic ∧ ¬ magic <+: bs

instance (bs : Bytes) : Decidable (Short bs) := inferInstanceAs (Decidable (_ ∧ _))

theorem Foreign.append {bs : Bytes} (h : Foreign bs) (more : Bytes) : Foreign (bs ++ more) := by
  refine ⟨?_, ?_⟩
  · intro hprefix
    rcases List.prefix_or_prefix_of_prefix hprefix (List.prefix_append bs more) with h' | h'
    · exact h.1 h'
    · exact h.2 h'
  · exact fun hprefix => h.2 ((List.prefix_append bs more).trans hprefix)

theorem Foreign.ne_nil {bs : Bytes} (h : Foreign bs) : bs ≠ [] := by
  rintro rfl
  exact h.2 List.nil_prefix

theorem head?_of_magic_isPrefix {bs : Bytes} (h : magic <+: bs) : bs.head? = some 0xFD := by
  obtain ⟨rest, rfl⟩ := h
  rfl

end Marker

/-- How a log passes from one phase to the next; with each phase goes what was decoded before. -/
inductive Leads (δ : Type) [Decoder δ] (log : Bytes) :
    LogPhase × Bytes → LogPhase × Bytes → Prop where
  | magic {out : Bytes} (h : magic <+: log) : Leads δ log (.start, out) (.inflating 0, out)
  | plain {out : Bytes} (h : Foreign log) : Leads δ log (.start, out) (.raw 0, out)
  | finished {b n : Nat} {out output : Bytes} (hb : b ≤ log.length)
      (h : Decoder.Judged δ (log.drop b) n output .finished) :
      Leads δ log (.inflating b, out) (.between (b + n), out ++ output)
  | rejected {b n : Nat} {out output : Bytes} (hb : b ≤ log.length)
      (h : Decoder.Judged δ (log.drop b) n output .rejected) :
      Leads δ log (.inflating b, out)
        (.resync (resumeBound b (b + n)) (b + n) true, out ++ output)
  | padding {q : Nat} {out : Bytes} (h : (log.drop q).head? = some 0) :
      Leads δ log (.between q, out) (.between (q + 1), out)
  | follows {q : Nat} {out : Bytes} (h : magic <+: log.drop q) :
      Leads δ log (.between q, out) (.inflating q, out)
  | trailing {q : Nat} {out : Bytes} (h : Foreign (log.drop q))
      (hpadding : (log.drop q).head? ≠ some 0) :
      Leads δ log (.between q, out) (.resync q q false, out)
  | resumes {low failedAt o : Nat} {fatal : Bool} {out : Bytes}
      (h : Earliest log low .compressed o) :
      Leads δ log (.resync low failedAt fatal, out) (.inflating o, out)
  | resumesPlain {low failedAt o : Nat} {fatal : Bool} {out : Bytes}
      (h : Earliest log low .plain o) :
      Leads δ log (.resync low failedAt fatal, out) (.raw o, out)

namespace Leads

variable {δ : Type} [Decoder δ] {log : Bytes} {c c' c'' : LogPhase × Bytes}

/-- Nothing is known of a log that is too short. -/
theorem not_of_short {out : Bytes} (hshort : Short log) : ¬ Leads δ log (.start, out) c := by
  intro h
  cases h with
  | magic h => exact hshort.2 h
  | plain h => exact h.2 hshort.1

/-- Later bytes do not change the passage. -/
theorem append (h : Leads δ log c c') (more : Bytes) : Leads δ (log ++ more) c c' := by
  have hdrop : ∀ {q}, log.drop q ≠ [] → (log ++ more).drop q = log.drop q ++ more := by
    intro q hq
    exact List.drop_append_of_le_length
      (Nat.le_of_not_le fun hle => hq (List.drop_eq_nil_of_le hle))
  have hhead : ∀ {bs : Bytes}, bs ≠ [] → (bs ++ more).head? = bs.head? := by
    intro bs hbs
    obtain ⟨b, rest, rfl⟩ := List.exists_cons_of_ne_nil hbs
    rfl
  cases h with
  | magic h => exact .magic (h.trans (List.prefix_append log more))
  | plain h => exact .plain (h.append more)
  | finished hb h =>
    refine .finished (by rw [List.length_append]; omega) ?_
    rw [List.drop_append_of_le_length hb]
    exact h.append nofun more
  | rejected hb h =>
    refine .rejected (by rw [List.length_append]; omega) ?_
    rw [List.drop_append_of_le_length hb]
    exact h.append nofun more
  | @padding q _ h =>
    have hne : log.drop q ≠ [] := by
      intro hnil
      simp [hnil] at h
    refine .padding ?_
    rw [hdrop hne, hhead hne, h]
  | @follows q _ h =>
    have hne : log.drop q ≠ [] := by
      intro hnil
      rw [hnil, List.prefix_nil] at h
      cases h
    refine .follows ?_
    rw [hdrop hne]
    exact h.trans (List.prefix_append _ more)
  | trailing h hpadding =>
    refine .trailing ?_ ?_
    · rw [hdrop h.ne_nil]
      exact h.append more
    · rwa [hdrop h.ne_nil, hhead h.ne_nil]
  | resumes h => exact .resumes (h.append more)
  | resumesPlain h => exact .resumesPlain (h.append more)

/-- With a steady decoder there is one passage. -/
theorem right_unique (hδ : Decoder.Steady δ) (h : Leads δ log c c') (h' : Leads δ log c c'') :
    c' = c'' := by
  cases h with
  | magic h =>
    cases h' with
    | magic => rfl
    | plain h' => exact absurd h h'.1
  | plain h =>
    cases h' with
    | magic h' => exact absurd h' h.1
    | plain => rfl
  | finished hb h =>
    cases h' with
    | finished _ h' =>
      obtain ⟨rfl, rfl, -⟩ := hδ h h'
      rfl
    | rejected _ h' => cases (hδ h h').2.2
  | rejected hb h =>
    cases h' with
    | finished _ h' => cases (hδ h h').2.2
    | rejected _ h' =>
      obtain ⟨rfl, rfl, -⟩ := hδ h h'
      rfl
  | padding h =>
    cases h' with
    | padding => rfl
    | follows h' => cases h.symm.trans (head?_of_magic_isPrefix h')
    | trailing _ h' => exact absurd h h'
  | follows h =>
    cases h' with
    | padding h' => cases h'.symm.trans (head?_of_magic_isPrefix h)
    | follows => rfl
    | trailing h' => exact absurd h h'.1
  | trailing h hpadding =>
    cases h' with
    | padding h' => exact absurd h' hpadding
    | follows h' => exact absurd h' h.1
    | trailing => rfl
  | resumes h =>
    cases h' with
    | resumes h' =>
      obtain ⟨rfl, -⟩ := h.unique h'
      rfl
    | resumesPlain h' => cases (h.unique h').2
  | resumesPlain h =>
    cases h' with
    | resumes h' => cases (h.unique h').2
    | resumesPlain h' =>
      obtain ⟨rfl, -⟩ := h.unique h'
      rfl

end Leads

/-- What comes of a log that is over in this phase, from which its bytes lead no further. What is
too short to be told apart is given out as it is. -/
inductive Settled (δ : Type) [Decoder δ] (log : Bytes) : LogPhase × Bytes → Reading → Prop where
  | start (h : Short log) : Settled δ log (.start, []) ⟨log, .ok (), !log.isEmpty⟩
  | inflating {b n : Nat} {out output : Bytes}
      (h : Decoder.Judged δ (log.drop b) n output .more) :
      Settled δ log (.inflating b, out) ⟨out ++ output, .ok (), false⟩
  | between {q : Nat} {out : Bytes} (h : Short (log.drop q)) :
      Settled δ log (.between q, out) ⟨out, .ok (), false⟩
  | raw {o : Nat} {out : Bytes} :
      Settled δ log (.raw o, out) ⟨out ++ log.drop o, .ok (), true⟩
  | resync {low failedAt : Nat} {fatal : Bool} {out : Bytes} (h : Absent log low) :
      Settled δ log (.resync low failedAt fatal, out)
        ⟨out, if fatal then .error (.corrupt failedAt) else .ok (), false⟩

namespace Settled

variable {δ : Type} [Decoder δ] {log : Bytes} {c c' : LogPhase × Bytes} {reading reading' : Reading}

theorem short {out : Bytes} (h : Settled δ log (.start, out) reading) : Short log := by
  cases h with
  | start h => exact h

theorem absent {low failedAt : Nat} {fatal : Bool} {out : Bytes}
    (h : Settled δ log (.resync low failedAt fatal, out) reading) : Absent log low := by
  cases h with
  | resync h => exact h

/-- Only damage that no marker follows is an error. -/
theorem outcome_eq (h : Settled δ log c reading) :
    reading.outcome = .ok () ∨ ∃ failedAt, reading.outcome = .error (.corrupt failedAt) := by
  cases h with
  | start => exact .inl rfl
  | inflating => exact .inl rfl
  | between => exact .inl rfl
  | raw => exact .inl rfl
  | @resync low failedAt fatal =>
    cases fatal with
    | false => exact .inl rfl
    | true => exact .inr ⟨failedAt, rfl⟩

theorem not_leads (hδ : Decoder.Steady δ) (h : Settled δ log c reading) : ¬ Leads δ log c c' := by
  intro hleads
  cases h with
  | start h => exact Leads.not_of_short h hleads
  | inflating h =>
    cases hleads with
    | finished _ h' => cases (hδ h h').2.2
    | rejected _ h' => cases (hδ h h').2.2
  | between h =>
    cases hleads with
    | padding h' =>
      obtain ⟨rest, hrest⟩ := List.head?_eq_some_iff.mp h'
      have hprefix := h.1
      rw [hrest, magic, List.cons_prefix_cons] at hprefix
      exact absurd hprefix.1 (by decide)
    | follows h' => exact h.2 h'
    | trailing h' => exact h'.2 h.1
  | raw => cases hleads
  | resync h =>
    cases hleads with
    | resumes h' => exact h'.not_absent h
    | resumesPlain h' => exact h'.not_absent h

theorem reading_unique (hδ : Decoder.Steady δ) (h : Settled δ log c reading)
    (h' : Settled δ log c reading') : reading = reading' := by
  cases h with
  | start => cases h'; rfl
  | inflating h =>
    cases h' with
    | inflating h' =>
      obtain ⟨-, rfl, -⟩ := hδ h h'
      rfl
  | between => cases h'; rfl
  | raw => cases h'; rfl
  | resync => cases h'; rfl

/-- A log comes to one reading. -/
theorem unique (hδ : Decoder.Steady δ) {c₀ : LogPhase × Bytes}
    (hc : Relation.ReflTransGen (Leads δ log) c₀ c) (h : Settled δ log c reading)
    (hc' : Relation.ReflTransGen (Leads δ log) c₀ c') (h' : Settled δ log c' reading') :
    reading = reading' := by
  have hends : ∀ {c c' reading}, Settled δ log c reading →
      Relation.ReflTransGen (Leads δ log) c c' → c = c' := by
    intro c c' reading h hc
    rcases hc.cases_head with heq | ⟨_, hleads, _⟩
    · exact heq
    · exact absurd hleads (h.not_leads hδ)
  have heq : c = c' := by
    have hunique : Relator.RightUnique (Leads δ log) := fun _ _ _ h h' => h.right_unique hδ h'
    rcases hc.total_of_right_unique hunique hc' with hcc' | hcc'
    · exact hends h hcc'
    · exact (hends h' hcc').symm
  subst heq
  exact h.reading_unique hδ h'

end Settled

end RunLog
