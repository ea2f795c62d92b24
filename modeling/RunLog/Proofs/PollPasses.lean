import RunLog.Proofs.LineDrivers
import RunLog.Proofs.ReaderMoves

/-! # Passes of a poll

A poll is a loop. Each pass makes a step over the bytes at hand or, when none is left, reads on;
the last one answers. Every pass that goes on brings the end of the log nearer, so that from no
reader, whatever its bytes are, a poll goes on forever. -/

namespace RunLog.Reader

variable {δ : Type} [Decoder δ]

/-- A pass that goes on. -/
inductive Pass : Reader δ × Feed → Reader δ × Feed → Prop where
  | step {r r' : Reader δ} {f : Feed} (hpending : r.pending = []) (hstep : r.step? = some r') :
      Pass (r, f) (r', f)
  | receive {r : Reader δ} {f f' : Feed} {bytes : Bytes} (hpending : r.pending = [])
      (hstep : r.step? = none) (hread : f.read r.room = (.data bytes, f')) :
      Pass (r, f) ({ r with input := r.input ++ bytes }, f')
  | interrupted {r : Reader δ} {f f' : Feed} (hpending : r.pending = [])
      (hstep : r.step? = none) (hread : f.read r.room = (.interrupted, f')) : Pass (r, f) (r, f')

/-- Passes, one after the other. -/
abbrev Passes : Reader δ × Feed → Reader δ × Feed → Prop := Relation.ReflTransGen Pass

/-- A pass that answers. -/
inductive Answers : Reader δ × Feed → Polled δ → Prop where
  | ready {r : Reader δ} {f : Feed} (hpending : r.pending ≠ []) :
      Answers (r, f) ⟨.ok .ready, r, f⟩
  | failed {r : Reader δ} {f f' : Feed} {fault : Fault} (hpending : r.pending = [])
      (hstep : r.step? = none) (hread : f.read r.room = (.fault fault, f')) :
      Answers (r, f) ⟨.error (.io fault), r, f'⟩
  | idle {r : Reader δ} {f f' : Feed} (hpending : r.pending = []) (hstep : r.step? = none)
      (hread : f.read r.room = (.none, f')) (htail : r.config.tail = true)
      (hstopped : f'.stopped = false) : Answers (r, f) ⟨.ok .idle, r, f'⟩
  | finish {r : Reader δ} {f f' : Feed} (hpending : r.pending = []) (hstep : r.step? = none)
      (hread : f.read r.room = (.none, f')) (hover : r.config.tail = true → f'.stopped = true) :
      Answers (r, f) (r.finishInput f')

theorem passes_settle (r : Reader δ) (f : Feed) : Passes (r, f) (r.settle, f) := by
  fun_induction settle r with
  | case1 r hpending next hstep ih =>
    exact .head (.step (List.isEmpty_iff.mp hpending) hstep) ih
  | case2 r hpending hstep => exact .refl
  | case3 r hpending => exact .refl

/-- A poll is a run of passes that ends with an answer. -/
theorem passes_poll (r : Reader δ) (f : Feed) :
    ∃ last, Passes (r, f) last ∧ Answers last (r.poll f) := by
  fun_induction poll r f with
  | case1 r f settled hpending bytes f' hread ih =>
    obtain ⟨last, hpasses, hanswers⟩ := ih
    have hpending : settled.pending = [] := List.isEmpty_iff.mp hpending
    have hreceive : Pass (settled, f) _ := .receive hpending (step?_settle hpending) hread
    exact ⟨last, (passes_settle r f).trans (.head hreceive hpasses), hanswers⟩
  | case2 r f settled hpending f' hread ih =>
    obtain ⟨last, hpasses, hanswers⟩ := ih
    have hpending : settled.pending = [] := List.isEmpty_iff.mp hpending
    have hagain : Pass (settled, f) _ := .interrupted hpending (step?_settle hpending) hread
    exact ⟨last, (passes_settle r f).trans (.head hagain hpasses), hanswers⟩
  | case3 r f settled hpending fault f' hread =>
    have hpending : settled.pending = [] := List.isEmpty_iff.mp hpending
    exact ⟨_, passes_settle r f, .failed hpending (step?_settle hpending) hread⟩
  | case4 r f settled hpending f' hread hidle =>
    have hpending : settled.pending = [] := List.isEmpty_iff.mp hpending
    obtain ⟨htail, hstopped⟩ := Bool.and_eq_true_iff.mp hidle
    exact ⟨_, passes_settle r f,
      .idle hpending (step?_settle hpending) hread htail (by simpa using hstopped)⟩
  | case5 r f settled hpending f' hread hover =>
    have hpending : settled.pending = [] := List.isEmpty_iff.mp hpending
    refine ⟨_, passes_settle r f, .finish hpending (step?_settle hpending) hread ?_⟩
    simpa using hover
  | case6 r f settled hpending =>
    exact ⟨_, passes_settle r f, .ready (by simpa using hpending)⟩

end RunLog.Reader
