import RunLog.Proofs.SharedLog
import RunLog.Proofs.WriterChain

/-! # Every interleaving keeps the lines and the chains

Whatever turns the callers of a shared log take, the log consists of the whole lines whose append
succeeded, and the lines of each writer are numbered and chained as if it wrote alone. The invariant
relates the journal to the writers as they will be once the encodes under way have advanced their
chains; because of the chain locks there is at most one such encode for each writer. -/

namespace RunLog

variable {ι κ : Type}

namespace Phase

/-- The encode under way, and what its writer was when the chain lock was taken. -/
def encode? : Phase ι → Option (Call ι × NodeWriter)
  | .chained call before | .drafted call before _ | .filing call before _
  | .filed call before _ _ | .unfiled call before _ _ => some (call, before)
  | .idle | .closing | .closed => none

def draft? : Phase ι → Option Draft
  | .drafted _ _ draft | .filing _ _ draft | .filed _ _ draft _ | .unfiled _ _ draft _ => some draft
  | .idle | .chained _ _ | .closing | .closed => none

variable [DecidableEq ι]

/-- The draft of a writer that was appended and that the chain is still to be advanced by. -/
def appended? (phase : Phase ι) (writer : ι) : Option Draft :=
  match phase with
  | .filed call _ draft (.ok ()) | .unfiled call _ draft (.ok ()) =>
    if call.writer = writer then some draft else none
  | _ => none

theorem appended?_of_ne {phase : Phase ι} {writer : ι}
    (h : ∀ call before, phase.encode? = some (call, before) → call.writer ≠ writer) :
    phase.appended? writer = none := by
  unfold appended?
  split
  · exact if_neg (h _ _ rfl)
  · exact if_neg (h _ _ rfl)
  · rfl

end Phase

namespace SharedLog

section Invariant

variable {s s' : SharedLog ι κ} {caller other : κ} {call call' : Call ι}
  {before before' : NodeWriter} {phase : Phase ι}

/-- A phase fits the state: an encode under way has the chain lock, nobody else has changed its
writer, and its line is one of that writer. -/
structure Fits (s : SharedLog ι κ) (caller : κ) (phase : Phase ι) : Prop where
  locked : ∀ {call before}, phase.encode? = some (call, before) →
    s.chainLock call.writer = some caller ∧ s.writers call.writer = before
  drafted : ∀ {call before draft}, phase.encode? = some (call, before) →
    phase.draft? = some draft → before.draft call.body call.time call.stream = .ok draft

namespace Fits

theorem of_encode?_eq_none (h : phase.encode? = none) : s.Fits caller phase where
  locked hencode := by simp [h] at hencode
  drafted hencode := by simp [h] at hencode

/-- A change to other writers and their locks does not matter. -/
theorem frame (h : s.Fits caller phase)
    (hframe : ∀ call before, phase.encode? = some (call, before) →
      s'.chainLock call.writer = s.chainLock call.writer ∧
        s'.writers call.writer = s.writers call.writer) :
    s'.Fits caller phase where
  locked hencode := by
    obtain ⟨hlock, hwriter⟩ := hframe _ _ hencode
    rw [hlock, hwriter]
    exact h.locked hencode
  drafted := h.drafted

end Fits

variable [DecidableEq ι]

/-- The draft of a writer that is in the log before the chain is advanced. -/
def pending (s : SharedLog ι κ) (writer : ι) : Option Draft :=
  match s.chainLock writer with
  | none => none
  | some caller => (s.phase caller).appended? writer

/-- A writer as it will be when the encode under way is done. -/
def settled (s : SharedLog ι κ) (writer : ι) : NodeWriter :=
  match s.pending writer with
  | none => s.writers writer
  | some draft => (s.writers writer).advance draft.link

theorem pending_of_locked (h : s.chainLock call.writer = some caller) :
    s.pending call.writer = (s.phase caller).appended? call.writer := by
  rw [pending, h]

theorem pending_congr {writer : ι} (hlock : s'.chainLock writer = s.chainLock writer)
    (hphase : ∀ caller, (s'.phase caller).appended? writer = (s.phase caller).appended? writer) :
    s'.pending writer = s.pending writer := by
  rw [pending, pending, hlock]
  cases s.chainLock writer with
  | none => rfl
  | some caller => exact hphase caller

/-- What holds of a shared log at any moment. -/
structure Coherent (rules : ι → ChainRule) (s : SharedLog ι κ) : Prop where
  /-- The log consists of the lines whose append succeeded. -/
  contents_eq : s.log.sink.contents =
    (s.journal.map fun entry => LogFile.terminated entry.2).flatten
  isPlain : s.log.IsPlain
  fits : ∀ caller, s.Fits caller (s.phase caller)
  /-- The lines of a writer are all that it has written. -/
  wrote : ∀ writer, ∃ records, Wrote (rules writer) (s.settled writer) records ∧
    s.linesOf writer = records.map Record.render
  /-- The lines of a writer are those that were answered, and one more while its chain is still to
  be advanced. -/
  linesOf_eq : ∀ writer,
    s.linesOf writer = s.answered writer ++ ((s.pending writer).map Draft.line).toList
  /-- A failed encode has left its writer as it was. -/
  unchanged : ∀ r ∈ s.returned, ∀ e, r.answer = .error e → r.after = r.before

variable {rules : ι → ChainRule}

theorem coherent_start (nodes : ι → NodeInfo) (rules : ι → ChainRule) (places : ι → Nat) :
    Coherent rules (start nodes rules places : SharedLog ι κ) where
  contents_eq := rfl
  isPlain := .inl rfl
  fits _ := .of_encode?_eq_none rfl
  wrote writer := ⟨[], .fresh (nodes writer) (places writer), rfl⟩
  linesOf_eq _ := rfl
  unchanged := by simp [start]

namespace Coherent

/-- What the invariant needs of the steps that touch neither the journal nor the answers. -/
theorem of_pending (h : s.Coherent rules) (hlog : s'.log.sink.contents = s.log.sink.contents)
    (hplain : s'.log.IsPlain) (hfits : ∀ caller, s'.Fits caller (s'.phase caller))
    (hpending : ∀ writer, s'.pending writer = s.pending writer) (hwriters : s'.writers = s.writers)
    (hjournal : s'.journal = s.journal) (hreturned : s'.returned = s.returned) :
    s'.Coherent rules where
  contents_eq := by rw [hlog, hjournal, h.contents_eq]
  isPlain := hplain
  fits := hfits
  wrote writer := by
    rw [settled, hpending, hwriters, linesOf, hjournal]
    exact h.wrote writer
  linesOf_eq writer := by
    rw [linesOf, answered, hpending, hjournal, hreturned]
    exact h.linesOf_eq writer
  unchanged := by
    rw [hreturned]
    exact h.unchanged

theorem setFileLock (h : s.Coherent rules) (holder : Option κ) :
    (s.setFileLock holder).Coherent rules :=
  h.of_pending rfl h.isPlain (fun caller => (h.fits caller).frame fun _ _ _ => ⟨rfl, rfl⟩)
    (fun _ => rfl) rfl rfl rfl

theorem setLog (h : s.Coherent rules) {log : LogFile}
    (hcontents : log.sink.contents = s.log.sink.contents) (hplain : log.IsPlain) :
    (s.setLog log).Coherent rules :=
  h.of_pending hcontents hplain (fun caller => (h.fits caller).frame fun _ _ _ => ⟨rfl, rfl⟩)
    (fun _ => rfl) rfl rfl rfl

/-- Two callers never encode with one writer. -/
theorem writer_ne (h : s.Coherent rules) (hne : other ≠ caller)
    (hcaller : (s.phase caller).encode? = some (call, before))
    (hother : (s.phase other).encode? = some (call', before')) : call'.writer ≠ call.writer := by
  intro hwriter
  have hlock' := ((h.fits other).locked hother).1
  rw [hwriter, ((h.fits caller).locked hcaller).1] at hlock'
  exact hne (Option.some.inj hlock').symm

/-- Each line in the log is one line. -/
theorem lineFeed_not_mem (h : s.Coherent rules) {entry : ι × String} (hentry : entry ∈ s.journal) :
    (0x0A : UInt8) ∉ Text.toBytes entry.2 := by
  obtain ⟨records, -, hlines⟩ := h.wrote entry.1
  have hline : entry.2 ∈ s.linesOf entry.1 := by
    apply List.mem_map_of_mem
    rw [List.mem_filter]
    exact ⟨hentry, by simp⟩
  rw [hlines] at hline
  obtain ⟨r, -, hr⟩ := List.mem_map.mp hline
  rw [← hr]
  exact r.lineFeed_not_mem

theorem firstBad?_linesOf (h : s.Coherent rules) (writer : ι) :
    Chain.firstBad? (rules writer) ((s.linesOf writer).map String.toList) = none := by
  obtain ⟨records, hwrote, hlines⟩ := h.wrote writer
  have hchars : (s.linesOf writer).map String.toList = records.map Record.chars := by
    rw [hlines, List.map_map]
    apply List.map_congr_left
    intro r _
    exact String.toList_ofList
  rw [hchars]
  exact hwrote.firstBad?_eq_none

theorem sequence_linesOf (h : s.Coherent rules) (writer : ι) {n : Nat} {line : String}
    (hline : (s.linesOf writer)[n]? = some line) :
    ∃ r : Record, line = r.render ∧ r.head.sequence = UInt64.ofNat n := by
  obtain ⟨records, hwrote, hlines⟩ := h.wrote writer
  rw [hlines, List.getElem?_map] at hline
  obtain ⟨r, hr, rfl⟩ := Option.map_eq_some_iff.mp hline
  exact ⟨r, rfl, hwrote.sequence_getElem hr⟩

end Coherent

end Invariant

/-! ## What one step keeps -/

variable [DecidableEq ι] [DecidableEq κ] {rules : ι → ChainRule} {s s' : SharedLog ι κ}
  {caller : κ} {call : Call ι} {before : NodeWriter} {draft : Draft} {phase : Phase ι}

omit [DecidableEq ι] in
theorem forall_phase_setPhase {p : κ → Phase ι → Prop} (hself : p caller phase)
    (hother : ∀ other, other ≠ caller → p other (s.phase other)) (other : κ) :
    p other ((s.setPhase caller phase).phase other) := by
  by_cases heq : other = caller
  · subst heq
    rwa [phase_setPhase_self]
  · rw [phase_setPhase_of_ne s heq]
    exact hother other heq

theorem appended?_setPhase {writer : ι}
    (h : phase.appended? writer = (s.phase caller).appended? writer) (other : κ) :
    ((s.setPhase caller phase).phase other).appended? writer = (s.phase other).appended? writer :=
  forall_phase_setPhase
    (p := fun other phase => phase.appended? writer = (s.phase other).appended? writer) h
    (fun _ _ => rfl) other

theorem linesOf_noteLine (log : LogFile) (writer : ι) :
    (s.noteLine caller call before draft log).linesOf writer =
      s.linesOf writer ++ if call.writer = writer then [draft.line] else [] := by
  by_cases hwriter : call.writer = writer <;> simp [noteLine, linesOf, hwriter]

theorem pending_noteLine_self (hlock : s.chainLock call.writer = some caller) (log : LogFile) :
    (s.noteLine caller call before draft log).pending call.writer = some draft := by
  rw [pending_of_locked (s := s.noteLine caller call before draft log) hlock]
  simp [noteLine, Phase.appended?]

theorem pending_noteLine_of_ne (hphase : s.phase caller = .filing call before draft)
    (log : LogFile) {writer : ι} (hwriter : call.writer ≠ writer) :
    (s.noteLine caller call before draft log).pending writer = s.pending writer := by
  refine pending_congr rfl (appended?_setPhase ?_)
  rw [hphase]
  exact if_neg hwriter

theorem answered_leave (answer : Except LogError String) (writer : ι) :
    (s.leave caller call before answer).answered writer =
      s.answered writer ++ if call.writer = writer then answer.toOption.toList else [] := by
  by_cases hwriter : call.writer = writer <;>
    cases answer <;> simp [answered, leave, hwriter, Except.toOption]

/-- A log in which one writer is as it will be when the encode under way is done. -/
def settleWriter (s : SharedLog ι κ) (writer : ι) : SharedLog ι κ :=
  { s with writers := Function.update s.writers writer (s.settled writer) }

omit [DecidableEq κ] in
theorem settleWriter_of_pending_eq_none {writer : ι} (h : s.pending writer = none) :
    s.settleWriter writer = s := by
  have hsame : s.settled writer = s.writers writer := by rw [settled, h]
  rw [settleWriter, hsame, Function.update_eq_self]

omit [DecidableEq κ] in
theorem settleWriter_of_pending_eq_some {writer : ι} (h : s.pending writer = some draft) :
    s.settleWriter writer = s.advanceChain writer draft.link := by
  rw [settleWriter, settled, h]
  rfl

section Leave

variable (hencode : (s.phase caller).encode? = some (call, before))
  (answer : Except LogError String)

theorem pending_leave_self (s : SharedLog ι κ) :
    (s.leave caller call before answer).pending call.writer = none := by
  simp [pending, leave]

include hencode

theorem pending_leave_of_ne {writer : ι} (hwriter : writer ≠ call.writer) :
    (s.leave caller call before answer).pending writer = s.pending writer := by
  refine pending_congr (Function.update_of_ne hwriter ..) (appended?_setPhase (Eq.symm ?_))
  apply Phase.appended?_of_ne
  intro call' before' hcall'
  obtain ⟨rfl, rfl⟩ := Prod.mk.inj (Option.some.inj (hencode.symm.trans hcall'))
  exact Ne.symm hwriter

/-- What was still to come for a writer has come when its encode is done. -/
theorem settled_leave (writer : ι) :
    ((s.settleWriter call.writer).leave caller call before answer).settled writer =
      s.settled writer := by
  by_cases hwriter : writer = call.writer
  · subst hwriter
    rw [settled, pending_leave_self]
    exact Function.update_self ..
  · have hpending : ((s.settleWriter call.writer).leave caller call before answer).pending writer =
        s.pending writer :=
      pending_leave_of_ne (s := s.settleWriter call.writer) hencode answer hwriter
    have hsame : (s.settleWriter call.writer).writers writer = s.writers writer :=
      Function.update_of_ne hwriter ..
    rw [settled, settled, hpending, ← hsame]
    rfl

end Leave

namespace Coherent

/-- A caller moves on within the same encode. -/
theorem setPhase (h : s.Coherent rules) (hfits : s.Fits caller phase)
    (happended : ∀ writer, phase.appended? writer = (s.phase caller).appended? writer) :
    (s.setPhase caller phase).Coherent rules := by
  refine h.of_pending rfl h.isPlain ?_ ?_ rfl rfl rfl
  · apply forall_phase_setPhase
    · exact hfits.frame fun _ _ _ => ⟨rfl, rfl⟩
    · intro other _
      exact (h.fits other).frame fun _ _ _ => ⟨rfl, rfl⟩
  · intro writer
    exact pending_congr rfl (appended?_setPhase (happended writer))

/-- A caller takes a chain lock that nobody has. -/
theorem take (h : s.Coherent rules) (hidle : s.phase caller = .idle)
    (hfree : s.chainLock call.writer = none) : (s.take caller call).Coherent rules := by
  refine h.of_pending rfl h.isPlain ?_ ?_ rfl rfl rfl
  · apply forall_phase_setPhase
    · constructor
      · rintro _ _ ⟨⟩
        exact ⟨Function.update_self .., rfl⟩
      · rintro _ _ _ _ ⟨⟩
    · intro other hne
      apply (h.fits other).frame
      intro call' before' hother
      have hwriter : call'.writer ≠ call.writer := by
        intro hwriter
        have hlock := ((h.fits other).locked hother).1
        rw [hwriter, hfree] at hlock
        simp at hlock
      exact ⟨Function.update_of_ne hwriter .., rfl⟩
  · intro writer
    by_cases hwriter : writer = call.writer
    · subst hwriter
      simp [pending, SharedLog.take, hfree, Phase.appended?]
    · refine pending_congr (Function.update_of_ne hwriter ..) (appended?_setPhase ?_)
      rw [hidle]
      rfl

/-- A line that was appended is noted in the journal, and the chain is to be advanced by it. -/
theorem noteLine (h : s.Coherent rules) (hphase : s.phase caller = .filing call before draft)
    {log : LogFile} (happend : s.log.append draft.line = (.ok (), log)) :
    (s.noteLine caller call before draft log).Coherent rules := by
  have hfits := h.fits caller
  rw [hphase] at hfits
  obtain ⟨hlock, hbefore⟩ := hfits.locked rfl
  obtain ⟨hplain, hcontents⟩ := LogFile.of_append_ok h.isPlain happend
  have hnone : s.pending call.writer = none := by
    rw [pending_of_locked hlock, hphase]
    rfl
  refine ⟨?_, hplain, ?_, ?_, ?_, h.unchanged⟩
  · simp [SharedLog.noteLine, hcontents, h.contents_eq]
  · apply forall_phase_setPhase
    · exact ⟨hfits.locked, hfits.drafted⟩
    · intro other _
      exact (h.fits other).frame fun _ _ _ => ⟨rfl, rfl⟩
  · intro writer
    obtain ⟨records, hwrote, hrecords⟩ := h.wrote writer
    rw [linesOf_noteLine, hrecords]
    by_cases hwriter : call.writer = writer
    · subst hwriter
      rw [settled, hnone, hbefore] at hwrote
      obtain ⟨r, hline, hnext⟩ := hwrote.of_draft (hfits.drafted rfl rfl)
      rw [← hbefore] at hnext
      refine ⟨records ++ [r], ?_, ?_⟩
      · rw [settled, pending_noteLine_self hlock]
        exact hnext
      · rw [if_pos rfl, List.map_append, List.map_singleton, hline]
    · refine ⟨records, ?_, ?_⟩
      · rw [settled, pending_noteLine_of_ne hphase log hwriter]
        exact hwrote
      · rw [if_neg hwriter, List.append_nil]
  · intro writer
    have hanswered :
        (s.noteLine caller call before draft log).answered writer = s.answered writer := rfl
    rw [linesOf_noteLine, hanswered, h.linesOf_eq]
    by_cases hwriter : call.writer = writer
    · subst hwriter
      simp [hnone, pending_noteLine_self hlock]
    · simp [hwriter, pending_noteLine_of_ne hphase log hwriter]

theorem file (h : s.Coherent rules) (hphase : s.phase caller = .filing call before draft) :
    (s.file caller call before draft).Coherent rules := by
  have hfits := h.fits caller
  rw [hphase] at hfits
  rw [SharedLog.file]
  split
  · rename_i happend
    exact h.noteLine hphase happend
  · rename_i e log happend
    rw [LogFile.of_append_error h.isPlain happend]
    refine (h.setLog rfl h.isPlain).setPhase ⟨hfits.locked, hfits.drafted⟩ fun writer => ?_
    rw [SharedLog.setLog, hphase]
    rfl

/-- An encode that is done gives the chain lock back and answers. -/
theorem leave (h : s.Coherent rules) (hencode : (s.phase caller).encode? = some (call, before))
    {answer : Except LogError String}
    (hanswer : (s.pending call.writer).map Draft.line = answer.toOption) :
    ((s.settleWriter call.writer).leave caller call before answer).Coherent rules where
  contents_eq := h.contents_eq
  isPlain := h.isPlain
  fits := by
    apply forall_phase_setPhase
    · exact .of_encode?_eq_none rfl
    · intro other hne
      apply (h.fits other).frame
      intro call' before' hcall'
      have hwriter := h.writer_ne hne hencode hcall'
      exact ⟨Function.update_of_ne hwriter .., Function.update_of_ne hwriter ..⟩
  wrote writer := by
    rw [settled_leave hencode]
    exact h.wrote writer
  linesOf_eq writer := by
    have hlines : ((s.settleWriter call.writer).leave caller call before answer).linesOf writer =
        s.linesOf writer := rfl
    have hanswered : (s.settleWriter call.writer).answered writer = s.answered writer := rfl
    rw [hlines, answered_leave, hanswered, h.linesOf_eq]
    by_cases hwriter : call.writer = writer
    · subst hwriter
      simp [pending_leave_self, hanswer]
    · rw [pending_leave_of_ne (s := s.settleWriter call.writer) hencode answer (Ne.symm hwriter),
        if_neg hwriter, List.append_nil]
      rfl
  unchanged := by
    intro r hr e he
    rcases List.mem_append.mp hr with hr | hr
    · exact h.unchanged r hr e he
    · rw [List.mem_singleton] at hr
      subst hr
      obtain rfl : answer = .error e := he
      have hnone : s.pending call.writer = none := by simpa [Except.toOption] using hanswer
      rw [settleWriter_of_pending_eq_none hnone]
      exact ((h.fits caller).locked hencode).2

/-- A failed encode gives the chain lock back. -/
theorem leave_error (h : s.Coherent rules)
    (hencode : (s.phase caller).encode? = some (call, before))
    (happended : (s.phase caller).appended? call.writer = none) (e : LogError) :
    (s.leave caller call before (.error e)).Coherent rules := by
  have hnone : s.pending call.writer = none := by
    rw [pending_of_locked ((h.fits caller).locked hencode).1, happended]
  have hanswer : (s.pending call.writer).map Draft.line =
      (.error e : Except LogError String).toOption := by
    rw [hnone]
    rfl
  have hleave := h.leave hencode hanswer
  rwa [settleWriter_of_pending_eq_none hnone] at hleave

/-- An encode whose line is in the log advances the chain and gives its lock back. -/
theorem leave_ok (h : s.Coherent rules)
    (hphase : s.phase caller = .unfiled call before draft (.ok ())) :
    ((s.advanceChain call.writer draft.link).leave caller call before
      (.ok draft.line)).Coherent rules := by
  have hencode : (s.phase caller).encode? = some (call, before) := by
    rw [hphase]
    rfl
  have hsome : s.pending call.writer = some draft := by
    rw [pending_of_locked ((h.fits caller).locked hencode).1, hphase]
    exact if_pos rfl
  have hanswer : (s.pending call.writer).map Draft.line =
      (.ok draft.line : Except LogError String).toOption := by
    rw [hsome]
    rfl
  have hleave := h.leave hencode hanswer
  rwa [settleWriter_of_pending_eq_some hsome] at hleave

theorem advance (h : s.Coherent rules) (caller : κ) : (s.advance caller).Coherent rules := by
  have hfits := h.fits caller
  unfold SharedLog.advance
  split <;> rename_i hphase <;> rw [hphase] at hfits
  · exact h
  · rename_i call before
    split
    · exact h.leave_error (by rw [hphase]; rfl) (by rw [hphase]; rfl) _
    · rename_i draft hdraft
      rw [(hfits.locked rfl).2] at hdraft
      refine h.setPhase ⟨hfits.locked, ?_⟩ fun writer => by rw [hphase]; rfl
      rintro _ _ _ ⟨⟩ ⟨⟩
      exact hdraft
  · split
    · refine (h.setFileLock _).setPhase ⟨hfits.locked, hfits.drafted⟩ fun writer => ?_
      rw [SharedLog.setFileLock, hphase]
      rfl
    · exact h
  · exact h.file hphase
  · rename_i answer
    refine (h.setFileLock _).setPhase ⟨hfits.locked, hfits.drafted⟩ fun writer => ?_
    rw [SharedLog.setFileLock, hphase]
    rcases answer with _ | ⟨⟩ <;> rfl
  · exact h.leave_ok hphase
  · exact h.leave_error (by rw [hphase]; rfl) (by rw [hphase]; rfl) _
  · rw [LogFile.finish_of_isPlain h.isPlain]
    refine (h.setLog (by rfl) (.inr rfl)).setPhase (.of_encode?_eq_none rfl) fun writer => ?_
    rw [SharedLog.setLog, hphase]
    rfl
  · refine (h.setFileLock _).setPhase (.of_encode?_eq_none rfl) fun writer => ?_
    rw [SharedLog.setFileLock, hphase]
    rfl

/-- One step keeps the invariant. -/
theorem step (h : s.Coherent rules) (turn : Turn ι κ) : (s.step turn).Coherent rules := by
  cases turn with
  | encode caller call =>
    rw [SharedLog.step]
    split
    · rename_i hidle hfree
      exact h.take hidle hfree
    · exact h
  | finish caller =>
    rw [SharedLog.step]
    split
    · rename_i hidle _
      refine (h.setFileLock _).setPhase (.of_encode?_eq_none rfl) fun writer => ?_
      rw [SharedLog.setFileLock, hidle]
      rfl
    · exact h
  | advance caller => exact h.advance caller
  | room room => exact h.setLog rfl h.isPlain

/-- A run keeps the invariant. -/
theorem run (h : s.Coherent rules) (turns : List (Turn ι κ)) : (s.run turns).Coherent rules := by
  induction turns generalizing s with
  | nil => exact h
  | cons turn turns ih => exact ih (h.step turn)

end Coherent

/-- Whatever turns are taken: the log is the lines whose append succeeded, each whole and
terminated; the lines of each writer are numbered from zero (in 64 bits) without a gap and form an
unbroken chain; they are the lines that its encodes have answered, and one more at most while an
encode is still to advance the chain; and a failed encode has left its writer as it was. -/
theorem run_start (nodes : ι → NodeInfo) (rules : ι → ChainRule) (places : ι → Nat)
    (turns : List (Turn ι κ)) :
    let s := (start nodes rules places : SharedLog ι κ).run turns
    s.log.sink.contents = (s.journal.map fun entry => LogFile.terminated entry.2).flatten ∧
      (∀ entry ∈ s.journal, 0x0A ∉ Text.toBytes entry.2) ∧
      (∀ writer, Chain.firstBad? (rules writer) ((s.linesOf writer).map String.toList) = none ∧
        (∀ n line, (s.linesOf writer)[n]? = some line →
          ∃ r : Record, line = r.render ∧ r.head.sequence = UInt64.ofNat n) ∧
        s.linesOf writer = s.answered writer ++ ((s.pending writer).map Draft.line).toList) ∧
      ∀ r ∈ s.returned, ∀ e, r.answer = .error e → r.after = r.before := by
  intro s
  have h : s.Coherent rules := (coherent_start nodes rules places).run turns
  refine ⟨h.contents_eq, ?_, ?_, h.unchanged⟩
  · intro entry hentry
    exact h.lineFeed_not_mem hentry
  · intro writer
    refine ⟨h.firstBad?_linesOf writer, ?_, h.linesOf_eq writer⟩
    intro n line hline
    exact h.sequence_linesOf writer hline

end SharedLog

end RunLog
