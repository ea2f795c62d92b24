import RunLog.Proofs.FeedRemainder
import RunLog.Proofs.WholeLines

/-! # All lines of a stream

A stream pulled to its end gives some bytes and may fail, and its lines are those of these bytes,
with the failure behind them. -/

namespace RunLog

/-- What a stream gives until it ends. -/
structure Drained where
  bytes : Bytes := []
  /-- What it fails with, if it does. -/
  failure : Option LogError := none

namespace Drained

/-- The same after more bytes. -/
def after (now : Bytes) (d : Drained) : Drained := { d with bytes := now ++ d.bytes }

@[simp] theorem after_after (first second : Bytes) (d : Drained) :
    (d.after second).after first = d.after (first ++ second) := by
  simp [after]

/-- The lines of what a stream gives, from an assembler on. -/
def lines (d : Drained) (a : Assembler) : List BoundedLine :=
  match d.failure with
  | none => a.split d.bytes
  | some e => (a.feed [] d.bytes).2.reverse ++ [.readError (a.feed [] d.bytes).1.position e]

theorem lines_after (now : Bytes) (d : Drained) (a : Assembler) :
    (d.after now).lines a = (a.feed [] now).2.reverse ++ d.lines (a.feed [] now).1 := by
  obtain ⟨later, _ | e⟩ := d
  · exact a.split_append now later
  · have hfeed : a.feed [] (now ++ later) =
        (((a.feed [] now).1.feed [] later).1,
          ((a.feed [] now).1.feed [] later).2 ++ (a.feed [] now).2) := by
      rw [Assembler.feed_append, Assembler.feed_done]
    simp only [lines, after, hfeed, List.reverse_append, List.append_assoc]

end Drained

section Drained

variable {ρ : Type} [Chunked ρ]

/-- Pulls a stream to its end. -/
def drained (r : ρ) (f : Feed) : Drained :=
  match _pulled : Chunked.pull r f with
  | .data now r f => (drained r f).after now
  | .again r f => drained r f
  | .ended _ _ => {}
  | .failed e _ _ => { failure := e }
termination_by Ranked.rank r f
decreasing_by
  · exact Chunked.below_of_data _pulled
  · exact Chunked.below_of_again _pulled

theorem drained_eq (r : ρ) (f : Feed) :
    drained r f =
      match Chunked.pull r f with
      | .data now r f => (drained r f).after now
      | .again r f => drained r f
      | .ended _ _ => {}
      | .failed e _ _ => { failure := e } := by
  rw [drained]
  split <;> rename_i heq <;> rw [heq]

end Drained

namespace Lines

variable {ρ : Type} [Chunked ρ] {l l' : Lines ρ} {f f' : Feed}

/-- All lines that are still to come. -/
def all (l : Lines ρ) (f : Feed) : List BoundedLine :=
  match _next : l.next f with
  | ⟨none, _, _⟩ => []
  | ⟨some line, l, f⟩ => line :: all l f
termination_by Ranked.rank l f
decreasing_by exact below_of_next _next

theorem all_of_none (h : l.next f = ⟨none, l', f'⟩) : l.all f = [] := by
  rw [all]
  split
  · rfl
  · rename_i heq
    cases h.symm.trans heq

theorem all_of_some {line : BoundedLine} (h : l.next f = ⟨some line, l', f'⟩) :
    l.all f = line :: l'.all f' := by
  rw [all]
  split
  · rename_i heq
    cases h.symm.trans heq
  · rename_i heq
    cases h.symm.trans heq
    rfl

theorem all_congr (h : l.next f = l'.next f') : l.all f = l'.all f' := by
  rcases hnext : l'.next f' with ⟨_ | line, l'', f''⟩
  · rw [all_of_none hnext, all_of_none (h.trans hnext)]
  · rw [all_of_some hnext, all_of_some (h.trans hnext)]

theorem all_ready (l : Lines ρ) (f : Feed) (ready : List BoundedLine) :
    { l with ready }.all f = ready ++ { l with ready := [] }.all f := by
  induction ready with
  | nil => rfl
  | cons line ready ih =>
    have hnext : { l with ready := line :: ready }.next f = ⟨line, { l with ready }, f⟩ := by
      rw [next]
    rw [all_of_some hnext, ih, List.cons_append]

theorem all_of_ended (l : Lines ρ) (hready : l.ready = []) (hended : l.ended = true) (f : Feed) :
    l.all f = [] :=
  all_of_none (l.next_of_ended hready hended f)

/-- The lines of a stream are those of what it gives. -/
theorem all_eq_drained (r : ρ) (f : Feed) (a : Assembler) :
    { stream := r, assembler := a : Lines ρ }.all f = (drained r f).lines a := by
  fun_induction drained r f generalizing a with
  | case1 r f now r' f' hpull ih =>
    have hnext := next_eq { stream := r, assembler := a : Lines ρ } rfl rfl f
    rw [hpull] at hnext
    rw [all_congr hnext, Drained.lines_after, ← ih]
    exact all_ready { stream := r', assembler := (a.feed [] now).1 } f' _
  | case2 r f r' f' hpull ih =>
    have hnext := next_eq { stream := r, assembler := a : Lines ρ } rfl rfl f
    rw [hpull] at hnext
    rw [all_congr hnext]
    exact ih a
  | case3 r f r' f' hpull =>
    have hnext := next_eq { stream := r, assembler := a : Lines ρ } rfl rfl f
    simp only [hpull] at hnext
    have hlines : Drained.lines {} a = a.finish?.toList := rfl
    rw [hlines]
    cases hfinish : a.finish? with
    | none => exact all_of_none (hfinish ▸ hnext)
    | some line =>
      rw [all_of_some (hfinish ▸ hnext), all_of_ended _ rfl rfl]
      rfl
  | case4 r f e r' f' hpull =>
    have hnext := next_eq { stream := r, assembler := a : Lines ρ } rfl rfl f
    simp only [hpull] at hnext
    rw [all_of_some hnext, all_of_ended _ rfl rfl]
    rfl

/-- Over a feed in which nobody asks the run to stop, the lines come one after the other. -/
theorem gives_all [ReadsOnly ρ] (hf : f.Quiet) : l.Gives f (l.all f) := by
  fun_induction all l f with
  | case1 l f l' f' hnext => exact .none hnext (hf.of_next hnext).stopped_eq
  | case2 l f line l' f' hnext ih =>
    have hf' := hf.of_next hnext
    exact .some hnext hf'.stopped_eq (ih hf')

/-- After the last line there is none. -/
theorem next_of_none (h : l.next f = ⟨none, l', f'⟩) (f'' : Feed) :
    l'.next f'' = ⟨none, l', f''⟩ := by
  fun_induction next l f with
  | case1 => cases h
  | case2 l f hready hended =>
    simp only [Next.mk.injEq, true_and] at h
    rw [← h.1]
    exact l.next_of_ended hready hended f''
  | case3 l f hready hended bytes stream f₁ hpull assembler done hfeed ih => exact ih h
  | case4 l f hready hended stream f₁ hpull ih => exact ih h
  | case5 l f hready hended stream f₁ hpull =>
    simp only [Next.mk.injEq] at h
    rw [← h.2.1]
    exact next_of_ended { l with stream, ended := true } hready rfl f''
  | case6 => cases h

/-- What is filled up is not taken. -/
theorem take_append_replicate_succ {α : Type} (xs : List α) (fill : α) (n : Nat) :
    (xs ++ List.replicate (n + 1) fill).take n = (xs ++ List.replicate n fill).take n := by
  simp only [List.take_append, List.take_replicate]
  congr 2
  omega

/-- What so many calls for the next line give. -/
def answers (l : Lines ρ) (f : Feed) : Nat → List (Option BoundedLine)
  | 0 => []
  | n + 1 => (l.next f).item :: (l.next f).state.answers (l.next f).feed n

theorem answers_of_none (h : ∀ f, l.next f = ⟨none, l, f⟩) (f : Feed) (n : Nat) :
    l.answers f n = List.replicate n none := by
  induction n with
  | zero => rfl
  | succ n ih => rw [answers, h f, ih, List.replicate_succ]

/-- The calls give all lines, and none ever after. -/
theorem answers_eq (l : Lines ρ) (f : Feed) (n : Nat) :
    l.answers f n = ((l.all f).map some ++ List.replicate n none).take n := by
  induction n generalizing l f with
  | zero => rfl
  | succ n ih =>
    rcases hnext : l.next f with ⟨_ | line, l', f'⟩
    · rw [answers, hnext, answers_of_none (next_of_none hnext), all_of_none hnext]
      simp [List.replicate_succ]
    · rw [answers, hnext, ih, all_of_some hnext, List.map_cons, List.cons_append,
        List.take_succ_cons, take_append_replicate_succ]

end Lines

end RunLog
