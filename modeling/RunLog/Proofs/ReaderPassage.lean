import RunLog.Proofs.LogPassage
import RunLog.Proofs.ReaderMoves

/-! # Readers follow the passage of their log

A reader at work is at some phase of the bytes that it received. Its steps lead it on as the bytes
say; more bytes and gifts leave it where it is; and when it rests it has come as far as the bytes
lead. -/

namespace RunLog

open Marker Decoder

variable {δ : Type} [Decoder δ]

namespace Reader

variable {r other r' : Reader δ}

/-- The bytes that the next call of the decoder takes. -/
def used (r : Reader δ) (d : δ) : Bytes := r.input.take (feed d r.input r.room).taken

/-- The reader after one call of its decoder. -/
def fed (r : Reader δ) (d : δ) : Reader δ :=
  { r with
    mode := .inflating (feed d r.input r.room).state
    input := r.input.drop (feed d r.input r.room).taken
    offset := r.offset + (r.used d).length
    window := r.window.push (r.used d)
    pending := r.pending ++ (feed d r.input r.room).output
    full := (feed d r.input r.room).output.length = r.room }

theorem inflate?_eq (r : Reader δ) (d : δ) :
    r.inflate? d =
      match (feed d r.input r.room).verdict with
      | .more =>
        if (r.used d).isEmpty && (feed d r.input r.room).output.isEmpty then none
        else some (r.fed d)
      | .finished => some { r.fed d with mode := .between }
      | .rejected =>
        some ((r.fed d).resync (r.fed d).offset true
          ((r.fed d).window.isComplete || (r.fed d).window.toList.isEmpty)) := rfl

theorem step?_of_start (h : r.mode = .start) : r.step? = r.classify? { r with mode := .raw } := by
  obtain ⟨config, mode, input, offset, window, pending, full⟩ := r
  cases h
  rfl

theorem step?_of_inflating {d : δ} (h : r.mode = .inflating d) :
    r.step? = if r.input.isEmpty && !r.full then none else r.inflate? d := by
  rw [step?, h]

theorem step?_of_between (h : r.mode = .between) :
    r.step? =
      if (r.input.takeWhile (· = 0)).isEmpty then
        r.classify? ({ r with window := .empty }.resync r.offset false false)
      else
        some { r with
          offset := r.offset + (r.input.takeWhile (· = 0)).length
          input := r.input.drop (r.input.takeWhile (· = 0)).length } := by
  obtain ⟨config, mode, input, offset, window, pending, full⟩ := r
  cases h
  rfl

theorem step?_of_resync {failedAt : Nat} {fatal : Bool} (h : r.mode = .resync failedAt fatal) :
    r.step? =
      if r.input.isEmpty then none
      else
        match ({ r with window := .empty }.resync failedAt fatal false).mode with
        | .resync _ _ =>
          if ({ r with window := .empty }.resync failedAt fatal false).input.length =
              r.input.length then none
          else some ({ r with window := .empty }.resync failedAt fatal false)
        | _ => some ({ r with window := .empty }.resync failedAt fatal false) := by
  obtain ⟨config, mode, input, offset, window, pending, full⟩ := r
  cases h
  rfl

/-- A step of a search is a search again. -/
theorem eq_resync_of_step? {failedAt : Nat} {fatal : Bool} (hmode : r.mode = .resync failedAt fatal)
    (h : r.step? = some r') : r' = { r with window := .empty }.resync failedAt fatal false := by
  rw [step?_of_resync hmode] at h
  split at h
  · cases h
  · split at h
    · split at h
      · cases h
      · exact (Option.some.inj h).symm
    · exact (Option.some.inj h).symm

/-- What the beginning of the input tells. -/
theorem classify?_cases (r other : Reader δ) :
    (magic <+: r.input ∧ r.classify? other = some r.startStream) ∨
      (Foreign r.input ∧ r.classify? other = some other) ∨
        (Short r.input ∧ r.classify? other = none) := by
  unfold classify? Foreign Short
  simp only [← List.isPrefixOf_iff_prefix]
  by_cases hempty : r.input = []
  · simp [hempty, magic]
  · rw [if_neg (by simpa using hempty)]
    split
    · simp_all
    · split <;> simp_all

/-! ## Calls of the decoder -/

section Fed

variable {offered output : Bytes} {taken : Nat} {d : δ} (hinput : r.input = offered.drop taken)

include hinput

theorem input_fed : (r.fed d).input = offered.drop (taken + (r.used d).length) := by
  have hused : r.input.drop (r.used d).length = r.input.drop (feed d r.input r.room).taken := by
    rw [used, List.length_take]
    rcases Nat.le_total (feed d r.input r.room).taken r.input.length with hle | hle
    · rw [Nat.min_eq_left hle]
    · rw [Nat.min_eq_right hle, List.drop_length, List.drop_eq_nil_of_le hle]
  rw [← List.drop_drop, ← hinput, hused]
  rfl

theorem shows_fed (hwindow : r.window.Shows (offered.take taken)) :
    (r.fed d).window.Shows (offered.take (taken + (r.used d).length)) := by
  have hused : r.input.take (r.used d).length = r.used d :=
    (List.prefix_iff_eq_take.mp (List.take_prefix _ _)).symm
  rw [List.take_add, ← hinput, hused]
  exact hwindow.push (r.used d)

theorem add_length_used_le (hle : taken ≤ offered.length) :
    taken + (r.used d).length ≤ offered.length := by
  have := congrArg List.length hinput
  rw [used, List.length_take]
  rw [List.length_drop] at this
  omega

variable (hdriven : Driven offered taken output d)

include hdriven

theorem driven_fed (hverdict : (feed d r.input r.room).verdict = .more) :
    Driven offered (taken + (r.used d).length) (output ++ (feed d r.input r.room).output)
      (feed d r.input r.room).state := by
  rw [used, hinput] at *
  exact .call r.room_pos hdriven hverdict

theorem judged_fed (hverdict : (feed d r.input r.room).verdict = .more)
    (hfull : (feed d r.input r.room).output.length ≠ r.room) :
    Judged δ offered (taken + (r.used d).length) (output ++ (feed d r.input r.room).output)
      .more := by
  rw [used, hinput] at *
  exact .more r.room_pos hdriven hverdict hfull

theorem judged_fed_ended (hended : (feed d r.input r.room).verdict ≠ .more) :
    Judged δ offered (taken + (r.used d).length) (output ++ (feed d r.input r.room).output)
      (feed d r.input r.room).verdict := by
  rw [used, hinput] at *
  have hjudged := Judged.ended r.room_pos hdriven rfl hended []
  rwa [List.append_nil] at hjudged

end Fed

theorem offset_fed {begins taken : Nat} {d : δ} (hoffset : r.offset = begins + taken) :
    (r.fed d).offset = begins + (taken + (r.used d).length) := by
  rw [← Nat.add_assoc, ← hoffset]
  rfl

/-- After a rejection the log is searched from behind the beginning of the stream. -/
theorem scanned_rejected {log : Bytes} {begins taken : Nat} (hoffset : r.offset = begins + taken)
    (hle : taken ≤ (log.drop begins).length) (hlt : begins < log.length)
    (hinput : r.input = (log.drop begins).drop taken)
    (hwindow : r.window.Shows ((log.drop begins).take taken)) :
    Scanned log r r.offset true (resumeBound begins r.offset)
      (r.resync r.offset true (r.window.isComplete || r.window.toList.isEmpty)) := by
  have hlength : ((log.drop begins).take taken).length = taken := List.length_take_of_le hle
  have hlist : r.window.toList.length = min Window.limit taken := by
    rw [Window.length_toList, hwindow.total_eq, hlength]
  have hskip : (r.window.isComplete || r.window.toList.isEmpty) =
      decide (taken ≤ Window.limit) := by
    rw [hwindow.isComplete_eq, hlength]
    by_cases hcomplete : taken ≤ Window.limit
    · simp [hcomplete]
    · have hne : r.window.toList ≠ [] := by
        rw [← List.length_pos_iff, hlist, Nat.lt_min]
        have hlimit : 0 < Window.limit := Nat.mul_pos (by decide) (by decide)
        exact ⟨hlimit, Nat.lt_trans hlimit (Nat.lt_of_not_le hcomplete)⟩
      simp [hcomplete, hne]
  have hseen : r.window.toList ++ r.input = log.drop (begins + (taken - Window.limit)) := by
    rw [hwindow.toList_eq, hlength, hinput, ← List.drop_drop,
      ← List.drop_append_of_le_length (by omega), List.take_append_drop]
  rw [List.length_drop] at hle
  refine scanned_resync ?_ hseen ?_ ?_
  · rw [hlist, hoffset]
    omega
  · rw [hskip, hoffset, resumeBound, Nat.add_sub_cancel_left]
    by_cases hcomplete : taken ≤ Window.limit
    · rw [decide_eq_true hcomplete, if_pos rfl, if_pos hcomplete, Nat.sub_eq_zero_of_le hcomplete,
        Nat.add_zero]
    · rw [decide_eq_false hcomplete, if_neg Bool.false_ne_true, if_neg hcomplete, Nat.add_zero,
        Nat.add_sub_assoc (Nat.le_of_not_le hcomplete)]
  · rw [hoffset, resumeBound]
    split <;> omega

theorem scanned_of_rejected {log : Bytes} {begins taken : Nat} {d : δ}
    (hoffset : r.offset = begins + taken) (hle : taken ≤ (log.drop begins).length)
    (hlt : begins < log.length) (hinput : r.input = (log.drop begins).drop taken)
    (hwindow : r.window.Shows ((log.drop begins).take taken))
    (hverdict : (feed d r.input r.room).verdict = .rejected) :
    ∃ r', r.inflate? d = some r' ∧
      Scanned log (r.fed d) (r.fed d).offset true (resumeBound begins (r.fed d).offset) r' := by
  rw [inflate?_eq, hverdict]
  exact ⟨_, rfl, scanned_rejected (offset_fed hoffset) (add_length_used_le hinput hle) hlt
    (input_fed hinput) (shows_fed hinput hwindow)⟩

end Reader

namespace Snapshot

/-- The reader is at this phase of what it received, and decoded this before it. -/
inductive At (x : Snapshot δ) : LogPhase → Bytes → Prop where
  | start (hmode : x.reader.mode = .start) (hoffset : x.reader.offset = 0)
      (hinput : x.reader.input = x.received) (hemitted : x.emitted = []) : At x .start []
  | inflating {begins taken : Nat} {out output : Bytes} {d : δ}
      (hmode : x.reader.mode = .inflating d) (hmagic : magic <+: x.received.drop begins)
      (hdriven : Driven (x.received.drop begins) taken output d)
      (hoffset : x.reader.offset = begins + taken)
      (hinput : x.reader.input = (x.received.drop begins).drop taken)
      (hwindow : x.reader.window.Shows ((x.received.drop begins).take taken))
      (hjudged : x.reader.input = [] → x.reader.full = false →
        Judged δ (x.received.drop begins) taken output .more)
      (hemitted : x.emitted = out ++ output) : At x (.inflating begins) out
  | between {q : Nat} {out : Bytes} (hmode : x.reader.mode = .between)
      (hoffset : x.reader.offset = q) (hle : q ≤ x.received.length)
      (hinput : x.reader.input = x.received.drop q) (hemitted : x.emitted = out) :
      At x (.between q) out
  | raw {begins o : Nat} {out : Bytes} (hmode : x.reader.mode = .raw)
      (hoffset : x.reader.offset = o) (hle : o ≤ x.received.length) (hbegins : begins ≤ o)
      (hinput : x.reader.input = x.received.drop o)
      (hemitted : x.emitted = out ++ (x.received.drop begins).take (o - begins)) :
      At x (.raw begins) out
  /-- Where the search has passed, no marker can turn up any more. -/
  | resync {low failedAt o : Nat} {fatal : Bool} {out : Bytes}
      (hmode : x.reader.mode = .resync failedAt fatal)
      (hoffset : x.reader.offset = o) (hle : o ≤ x.received.length) (hlow : low ≤ o)
      (hinput : x.reader.input = x.received.drop o)
      (hpassed : ∀ k, low ≤ k → k < o →
        k + maxLength ≤ x.received.length ∧ at? (x.received.drop k) = none)
      (hemitted : x.emitted = out) : At x (.resync low failedAt fatal) out

variable {x z : Snapshot δ} {φ : LogPhase} {out : Bytes} {r r' : Reader δ}

/-- The reader went on as the bytes lead. -/
def Goes (x : Snapshot δ) (φ : LogPhase) (out : Bytes) (z : Snapshot δ) : Prop :=
  ∃ φ' out', Relation.ReflTransGen (Leads δ x.received) (φ, out) (φ', out') ∧ z.At φ' out'

theorem At.fresh (config : ReaderConfig) : At (⟨{ config }, [], []⟩ : Snapshot δ) .start [] :=
  .start rfl rfl rfl rfl

/-! ## Steps -/

theorem At.startStream {o : Nat} (hinput : r.input = x.received.drop o) (hoffset : r.offset = o)
    (hmagic : magic <+: x.received.drop o) (hemitted : x.given ++ r.pending = out) :
    (x.withReader r.startStream).At (.inflating o) out := by
  refine .inflating rfl hmagic (.start _) hoffset hinput Window.shows_empty ?_ ?_
  · intro hnil
    rw [show r.input = [] from hnil] at hinput
    rw [← hinput, List.prefix_nil] at hmagic
    cases hmagic
  · rw [List.append_nil]
    exact hemitted

theorem At.resumeRaw {low o : Nat} (h : Earliest x.received low .plain o)
    (hemitted : x.given ++ r.pending = out) :
    (x.withReader { r with
      mode := .raw, input := x.received.drop o, offset := o, window := .empty }).At
        (.raw o) out := by
  refine .raw (o := o) rfl rfl (Nat.le_of_lt h.lt_length) (Nat.le_refl o) rfl ?_
  rw [Nat.sub_self, List.take_zero, List.append_nil]
  exact hemitted

theorem At.search {low o failedAt : Nat} {fatal : Bool} (h : Absent x.received low)
    (hlow : low ≤ o) (ho : o ≤ x.received.length)
    (hpassed : ∀ k, low ≤ k → k < o → k + maxLength ≤ x.received.length)
    (hemitted : x.given ++ r.pending = out) :
    (x.withReader { r with
      mode := .resync failedAt fatal
      input := x.received.drop o, offset := o, window := .empty }).At
        (.resync low failedAt fatal) out :=
  .resync rfl rfl ho hlow rfl (fun k hk hlt => ⟨hpassed k hk hlt, h k hk⟩) hemitted

/-- After a scan the reader is where the search of the log leads. -/
theorem goes_of_scanned {low failedAt : Nat} {fatal : Bool}
    (h : Reader.Scanned x.received r failedAt fatal low r')
    (hemitted : x.given ++ r.pending = out) :
    x.Goes (.resync low failedAt fatal) out (x.withReader r') := by
  cases h with
  | compressed h =>
    exact ⟨_, _, .single (.resumes h),
      .startStream rfl rfl (at?_eq_compressed_iff.mp h.at?_eq) hemitted⟩
  | plain h => exact ⟨_, _, .single (.resumesPlain h), .resumeRaw h hemitted⟩
  | absent h hlow ho hpassed => exact ⟨_, _, .refl, .search h hlow ho hpassed hemitted⟩

theorem goes_inflating {begins taken : Nat} {output : Bytes} {d : δ}
    (hmagic : magic <+: x.received.drop begins)
    (hdriven : Driven (x.received.drop begins) taken output d)
    (hoffset : x.reader.offset = begins + taken)
    (hinput : x.reader.input = (x.received.drop begins).drop taken)
    (hwindow : x.reader.window.Shows ((x.received.drop begins).take taken))
    (hemitted : x.emitted = out ++ output) (hstep : x.reader.inflate? d = some r') :
    x.Goes (.inflating begins) out (x.withReader r') := by
  have hbegins := lt_length_of_at? (at?_eq_compressed_iff.mpr hmagic)
  have hoffset' := Reader.offset_fed (d := d) hoffset
  have hinput' := Reader.input_fed (d := d) hinput
  have hemitted' : x.given ++ (x.reader.fed d).pending =
      out ++ (output ++ (feed d x.reader.input x.reader.room).output) := by
    rw [← List.append_assoc, ← hemitted, emitted, List.append_assoc]
    rfl
  rcases hverdict : (feed d x.reader.input x.reader.room).verdict with _ | _ | _
  · rw [Reader.inflate?_eq, hverdict] at hstep
    dsimp only at hstep
    split at hstep
    · cases hstep
    · rw [← Option.some.inj hstep]
      refine ⟨.inflating begins, out, .refl, ?_⟩
      refine .inflating rfl hmagic (Reader.driven_fed hinput hdriven hverdict) hoffset' hinput'
        (Reader.shows_fed hinput hwindow) ?_ hemitted'
      intro _ hfull
      exact Reader.judged_fed hinput hdriven hverdict (of_decide_eq_false hfull)
  · rw [Reader.inflate?_eq, hverdict] at hstep
    rw [← Option.some.inj hstep]
    have hjudged := Reader.judged_fed_ended hinput hdriven (by simp [hverdict])
    rw [hverdict] at hjudged
    refine ⟨_, _, .single (.finished (Nat.le_of_lt hbegins) hjudged), ?_⟩
    refine .between rfl hoffset' ?_ ?_ hemitted'
    · have hle := Reader.add_length_used_le (d := d) hinput hdriven.taken_le
      rw [List.length_drop] at hle
      show begins + (taken + (x.reader.used d).length) ≤ x.received.length
      omega
    · rw [← List.drop_drop]
      exact hinput'
  · obtain ⟨next, hnext, hscanned⟩ := Reader.scanned_of_rejected hoffset hdriven.taken_le hbegins
      hinput hwindow hverdict
    obtain rfl := Option.some.inj (hnext.symm.trans hstep)
    have hjudged := Reader.judged_fed_ended hinput hdriven (by simp [hverdict])
    rw [hverdict] at hjudged
    obtain ⟨φ', out', hpassage, hat⟩ := goes_of_scanned hscanned hemitted'
    refine ⟨φ', out', .head ?_ hpassage, hat⟩
    rw [hoffset']
    exact .rejected (Nat.le_of_lt hbegins) hjudged

theorem leads_padding {log : Bytes} {q : Nat} :
    ∀ k ≤ ((log.drop q).takeWhile (· = 0)).length,
      Relation.ReflTransGen (Leads δ log) (.between q, out) (.between (q + k), out) := by
  intro k hk
  induction k with
  | zero => exact .refl
  | succ k ih =>
    refine (ih (Nat.le_of_succ_le hk)).tail (.padding ?_)
    have hzero := List.all_eq_true.mp List.all_takeWhile _ (List.getElem_mem hk)
    rw [(List.takeWhile_prefix _).getElem hk] at hzero
    rw [List.head?_drop, ← List.getElem?_drop, List.getElem?_eq_getElem, of_decide_eq_true hzero]
    exact Nat.lt_of_lt_of_le hk (List.takeWhile_prefix _).length_le

theorem goes_between {q : Nat} (hmode : x.reader.mode = .between) (hoffset : x.reader.offset = q)
    (hle : q ≤ x.received.length) (hinput : x.reader.input = x.received.drop q)
    (hemitted : x.emitted = out) (hstep : x.reader.step? = some r') :
    x.Goes (.between q) out (x.withReader r') := by
  rw [Reader.step?_of_between hmode] at hstep
  split at hstep
  · rename_i hpadding
    rcases Reader.classify?_cases x.reader
      ({ x.reader with window := .empty }.resync x.reader.offset false false) with
      ⟨hmagic, hsome⟩ | ⟨hforeign, hsome⟩ | ⟨_, hnone⟩
    · rw [hsome] at hstep
      rw [← Option.some.inj hstep]
      rw [hinput] at hmagic
      exact ⟨_, _, .single (.follows hmagic), .startStream hinput hoffset hmagic hemitted⟩
    · rw [hsome] at hstep
      rw [← Option.some.inj hstep]
      rw [hinput] at hforeign hpadding
      have hscanned : Reader.Scanned x.received { x.reader with window := .empty } x.reader.offset
          false q ({ x.reader with window := .empty }.resync x.reader.offset false false) :=
        Reader.scanned_resync (by simpa using hoffset) (by simpa using hinput) rfl hle
      obtain ⟨φ', out', hpassage, hat⟩ := goes_of_scanned hscanned hemitted
      refine ⟨φ', out', .head ?_ hpassage, hat⟩
      rw [hoffset]
      refine .trailing hforeign ?_
      intro hhead
      obtain ⟨rest, hrest⟩ := List.head?_eq_some_iff.mp hhead
      simp [hrest] at hpadding
    · rw [hnone] at hstep
      cases hstep
  · rw [← Option.some.inj hstep]
    have hlength : (x.reader.input.takeWhile (· = 0)).length ≤ (x.received.drop q).length := by
      rw [hinput]
      exact (List.takeWhile_prefix _).length_le
    refine ⟨_, _, leads_padding _ (Nat.le_of_eq rfl), .between ?_ ?_ ?_ ?_ hemitted⟩
    · exact hmode
    · rw [← hinput, ← hoffset]
      rfl
    · rw [List.length_drop] at hlength
      show _ ≤ x.received.length
      rw [← hinput]
      omega
    · rw [← List.drop_drop]
      show x.reader.input.drop _ = (x.received.drop q).drop _
      rw [hinput]

theorem scanned_of_resync {o failedAt : Nat} {fatal : Bool} (hoffset : r.offset = o)
    {log : Bytes} (hle : o ≤ log.length) (hinput : r.input = log.drop o) :
    Reader.Scanned log { r with window := .empty } failedAt fatal o
      ({ r with window := .empty }.resync failedAt fatal false) :=
  Reader.scanned_resync (by simpa using hoffset) (by simpa using hinput) rfl hle

/-- A step of a search is a scan of the log. -/
theorem At.scanned_step {low failedAt : Nat} {fatal : Bool}
    (h : x.At (.resync low failedAt fatal) out) (hstep : x.reader.step? = some r') :
    Reader.Scanned x.received { x.reader with window := .empty } failedAt fatal low r' := by
  cases h with
  | resync hmode hoffset hle hlow hinput hpassed hemitted =>
    rw [Reader.eq_resync_of_step? hmode hstep]
    exact (scanned_of_resync hoffset hle hinput).of_later hlow hpassed

/-- A plain log is passed on as it is. -/
theorem At.emitted_append_input {begins : Nat} (h : x.At (.raw begins) out) :
    x.emitted ++ x.reader.input = out ++ x.received.drop begins := by
  cases h with
  | @raw begins o out hmode hoffset hle hbegins hinput hemitted =>
    have hrest : x.reader.input = (x.received.drop begins).drop (o - begins) := by
      rw [hinput, List.drop_drop, Nat.add_sub_cancel' hbegins]
    rw [hemitted, List.append_assoc, hrest, List.take_append_drop]

/-- A plain log stays plain. -/
theorem Goes.at_raw {o : Nat} (h : x.Goes (.raw o) out z) : z.At (.raw o) out := by
  obtain ⟨φ', out', hpassage, hat⟩ := h
  rcases hpassage.cases_head with heq | ⟨_, hleads, _⟩
  · cases heq
    exact hat
  · cases hleads

theorem At.emitted_of_resync {low failedAt : Nat} {fatal : Bool}
    (h : x.At (.resync low failedAt fatal) out) : x.emitted = out := by
  cases h with
  | resync hmode hoffset hle hlow hinput hpassed hemitted => exact hemitted

/-- A reader takes a step as the bytes lead. -/
theorem At.step (h : x.At φ out) (hstep : x.reader.step? = some r') :
    x.Goes φ out (x.withReader r') := by
  cases hat : h with
  | start hmode hoffset hinput hemitted =>
    rw [Reader.step?_of_start hmode] at hstep
    rcases x.reader.classify?_cases { x.reader with mode := .raw } with
      ⟨hmagic, hsome⟩ | ⟨hforeign, hsome⟩ | ⟨_, hnone⟩
    · rw [hsome] at hstep
      rw [← Option.some.inj hstep]
      rw [hinput] at hmagic
      exact ⟨_, _, .single (.magic hmagic), .startStream hinput hoffset hmagic hemitted⟩
    · rw [hsome] at hstep
      rw [← Option.some.inj hstep]
      rw [hinput] at hforeign
      exact ⟨_, _, .single (.plain hforeign),
        .raw (o := 0) rfl hoffset (Nat.zero_le _) (Nat.le_refl 0) hinput hemitted⟩
    · rw [hnone] at hstep
      cases hstep
  | inflating hmode hmagic hdriven hoffset hinput hwindow hjudged hemitted =>
    rw [Reader.step?_of_inflating hmode] at hstep
    split at hstep
    · cases hstep
    · exact goes_inflating hmagic hdriven hoffset hinput hwindow hemitted hstep
  | between hmode hoffset hle hinput hemitted =>
    exact goes_between hmode hoffset hle hinput hemitted hstep
  | @raw begins o out hmode hoffset hle hbegins hinput hemitted =>
    have hne : x.reader.input ≠ [] := by
      intro hnil
      rw [Reader.step?_of_input_eq_nil hnil (.inl hmode)] at hstep
      cases hstep
    rw [Reader.step?_raw hmode hne] at hstep
    rw [← Option.some.inj hstep]
    have hend : x.reader.offset + x.reader.input.length = x.received.length := by
      rw [hoffset, hinput, List.length_drop]
      omega
    refine ⟨_, _, .refl, .raw hmode hend (Nat.le_refl _) (Nat.le_trans hbegins hle) ?_ ?_⟩
    · exact (List.drop_length (l := x.received)).symm
    · calc x.given ++ (x.reader.pending ++ x.reader.input)
          = x.emitted ++ x.reader.input := (List.append_assoc _ _ _).symm
        _ = out ++ x.received.drop begins := h.emitted_append_input
        _ = out ++ (x.received.drop begins).take (x.received.length - begins) := by
          rw [← List.length_drop, List.take_length]
  | resync =>
    exact goes_of_scanned (h.scanned_step hstep) h.emitted_of_resync

/-- More bytes leave a reader where it is. -/
theorem At.receive (h : x.At φ out) (bytes : Bytes) : (x.receive bytes).At φ out := by
  have hdrop : ∀ {q}, q ≤ x.received.length →
      x.reader.input = x.received.drop q →
        x.reader.input ++ bytes = (x.received ++ bytes).drop q := by
    intro q hq hinput
    rw [hinput, List.drop_append_of_le_length hq]
  have hlength : x.received.length ≤ (x.received ++ bytes).length := by
    rw [List.length_append]
    omega
  cases h with
  | start hmode hoffset hinput hemitted =>
    exact .start hmode hoffset (congrArg (· ++ bytes) hinput) hemitted
  | @inflating begins taken out output d hmode hmagic hdriven hoffset hinput hwindow hjudged
      hemitted =>
    have hbegins := lt_length_of_at? (at?_eq_compressed_iff.mpr hmagic)
    have hstream : (x.received ++ bytes).drop begins = x.received.drop begins ++ bytes :=
      List.drop_append_of_le_length (Nat.le_of_lt hbegins)
    have hle := hdriven.taken_le
    refine .inflating (d := d) hmode ?_ ?_ hoffset ?_ ?_ ?_
      hemitted <;> simp only [receive, hstream]
    · exact hmagic.trans (List.prefix_append _ bytes)
    · exact hdriven.offer bytes
    · rw [hinput, List.drop_append_of_le_length hle]
    · rwa [List.take_append_of_le_length hle]
    · intro hnil hfull
      obtain ⟨hinput, rfl⟩ := List.append_eq_nil_iff.mp hnil
      rw [List.append_nil]
      exact hjudged hinput hfull
  | between hmode hoffset hle hinput hemitted =>
    exact .between hmode hoffset (Nat.le_trans hle hlength) (hdrop hle hinput) hemitted
  | raw hmode hoffset hle hbegins hinput hemitted =>
    refine .raw hmode hoffset (Nat.le_trans hle hlength) hbegins (hdrop hle hinput)
      (hemitted.trans ?_)
    simp only [receive]
    rw [List.drop_append_of_le_length (Nat.le_trans hbegins hle), List.take_append_of_le_length]
    rw [List.length_drop]
    omega
  | resync hmode hoffset hle hlow hinput hpassed hemitted =>
    refine .resync hmode hoffset (Nat.le_trans hle hlength) hlow (hdrop hle hinput) ?_ hemitted
    intro k hk hlt
    obtain ⟨hroom, hnone⟩ := hpassed k hk hlt
    refine ⟨Nat.le_trans hroom hlength, ?_⟩
    show at? ((x.received ++ bytes).drop k) = none
    rw [List.drop_append_of_le_length (by omega), at?_append_of_le _ bytes, hnone]
    rw [List.length_drop]
    omega

/-- What is given out was decoded before. -/
theorem At.give (h : x.At φ out) (room : Nat) : (x.give room).At φ out := by
  have hgive := emitted_give x room
  cases h with
  | start hmode hoffset hinput hemitted =>
    exact .start hmode hoffset hinput (hgive.trans hemitted)
  | inflating hmode hmagic hdriven hoffset hinput hwindow hjudged hemitted =>
    exact .inflating hmode hmagic hdriven hoffset hinput hwindow hjudged (hgive.trans hemitted)
  | between hmode hoffset hle hinput hemitted =>
    exact .between hmode hoffset hle hinput (hgive.trans hemitted)
  | raw hmode hoffset hle hbegins hinput hemitted =>
    exact .raw hmode hoffset hle hbegins hinput (hgive.trans hemitted)
  | resync hmode hoffset hle hlow hinput hpassed hemitted =>
    exact .resync hmode hoffset hle hlow hinput hpassed (hgive.trans hemitted)

/-- Whether a reader waits does not matter for where it is. -/
theorem At.withConfig (h : x.At φ out) (config : ReaderConfig) :
    (x.withReader { x.reader with config }).At φ out := by
  cases h with
  | start hmode hoffset hinput hemitted => exact .start hmode hoffset hinput hemitted
  | inflating hmode hmagic hdriven hoffset hinput hwindow hjudged hemitted =>
    exact .inflating hmode hmagic hdriven hoffset hinput hwindow hjudged hemitted
  | between hmode hoffset hle hinput hemitted =>
    exact .between hmode hoffset hle hinput hemitted
  | raw hmode hoffset hle hbegins hinput hemitted =>
    exact .raw hmode hoffset hle hbegins hinput hemitted
  | resync hmode hoffset hle hlow hinput hpassed hemitted =>
    exact .resync hmode hoffset hle hlow hinput hpassed hemitted

/-! ## Rests -/

/-- A decoder of a reader that rests asks for more. -/
theorem judged_of_rests {begins taken : Nat} {output : Bytes} {d : δ}
    (hmode : x.reader.mode = .inflating d)
    (hdriven : Driven (x.received.drop begins) taken output d)
    (hinput : x.reader.input = (x.received.drop begins).drop taken)
    (hjudged : x.reader.input = [] → x.reader.full = false →
      Judged δ (x.received.drop begins) taken output .more)
    (hstep : x.reader.step? = none) : Judged δ (x.received.drop begins) taken output .more := by
  rw [Reader.step?_of_inflating hmode] at hstep
  split at hstep
  · rename_i hexhausted
    rw [Bool.and_eq_true, List.isEmpty_iff, Bool.not_eq_true'] at hexhausted
    exact hjudged hexhausted.1 hexhausted.2
  · rw [Reader.inflate?_eq] at hstep
    split at hstep
    · rename_i hverdict
      split at hstep
      · rename_i hstuck
        rw [Bool.and_eq_true, List.isEmpty_iff, List.isEmpty_iff] at hstuck
        have hroom : ([] : Bytes).length ≠ x.reader.room := x.reader.room_pos.ne
        have hfed := Reader.judged_fed hinput hdriven hverdict (by rwa [hstuck.2])
        rwa [hstuck.1, hstuck.2, List.append_nil] at hfed
      · cases hstep
    · cases hstep
    · cases hstep

/-- A reader that rests in a search found no marker in all it received. -/
theorem absent_of_rests {low failedAt o : Nat} {fatal : Bool}
    (hmode : x.reader.mode = .resync failedAt fatal) (hoffset : x.reader.offset = o)
    (hle : o ≤ x.received.length) (hlow : low ≤ o) (hinput : x.reader.input = x.received.drop o)
    (hpassed : ∀ k, low ≤ k → k < o →
      k + maxLength ≤ x.received.length ∧ at? (x.received.drop k) = none)
    (hstep : x.reader.step? = none) : Absent x.received low := by
  have hscanned : Reader.Scanned x.received _ failedAt fatal low _ :=
    (scanned_of_resync hoffset hle hinput).of_later hlow hpassed
  rw [Reader.step?_of_resync hmode] at hstep
  split at hstep
  · rename_i hnil
    rw [List.isEmpty_iff, hinput, List.drop_eq_nil_iff] at hnil
    intro k hk
    by_cases hlt : k < o
    · exact (hpassed k hk hlt).2
    · rw [List.drop_eq_nil_of_le (Nat.le_trans hnil (Nat.le_of_not_lt hlt)), at?_nil]
  · generalize { x.reader with window := .empty }.resync failedAt fatal false = next at *
    cases hscanned with
    | compressed h => cases hstep
    | plain h => cases hstep
    | absent h => exact h

/-- A reader that rests has come as far as the bytes lead. -/
theorem At.settled (h : x.At φ out) (hrests : x.Rests) :
    Settled δ x.received (φ, out) x.conclusion := by
  have hgiven : x.emitted = x.given := by
    rw [emitted, hrests.pending_eq, List.append_nil]
  have hstep := hrests.step?_eq
  cases h with
  | start hmode hoffset hinput hemitted =>
    rw [Reader.step?_of_start hmode] at hstep
    rcases x.reader.classify?_cases { x.reader with mode := .raw } with
      ⟨_, hsome⟩ | ⟨_, hsome⟩ | ⟨hshort, _⟩
    · cases hsome.symm.trans hstep
    · cases hsome.symm.trans hstep
    · have hconclusion : x.conclusion = ⟨x.received, .ok (), !x.received.isEmpty⟩ := by
        simp [conclusion, hmode, hinput, ← hgiven, hemitted]
      rw [hinput] at hshort
      rw [hconclusion]
      exact .start hshort
  | @inflating begins taken out output d hmode hmagic hdriven hoffset hinput hwindow hjudged
      hemitted =>
    have hconclusion : x.conclusion = ⟨out ++ output, .ok (), false⟩ := by
      simp [conclusion, hmode, ← hgiven, hemitted]
    rw [hconclusion]
    exact .inflating (judged_of_rests hmode hdriven hinput hjudged hstep)
  | @between q out hmode hoffset hle hinput hemitted =>
    have hconclusion : x.conclusion = ⟨out, .ok (), false⟩ := by
      simp [conclusion, hmode, ← hgiven, hemitted]
    rw [hconclusion]
    refine .between ?_
    rw [Reader.step?_of_between hmode] at hstep
    split at hstep
    · rcases x.reader.classify?_cases
        ({ x.reader with window := .empty }.resync x.reader.offset false false) with
        ⟨_, hsome⟩ | ⟨_, hsome⟩ | ⟨hshort, _⟩
      · cases hsome.symm.trans hstep
      · cases hsome.symm.trans hstep
      · rwa [hinput] at hshort
    · cases hstep
  | @raw begins o out hmode hoffset hle hbegins hinput hemitted =>
    have hnil : x.reader.input = [] := by
      by_contra hne
      rw [Reader.step?_raw hmode hne] at hstep
      cases hstep
    have hend : o = x.received.length := by
      rw [hinput, List.drop_eq_nil_iff] at hnil
      exact Nat.le_antisymm hle hnil
    have hconclusion : x.conclusion = ⟨out ++ x.received.drop begins, .ok (), true⟩ := by
      simp [conclusion, hmode, ← hgiven, hemitted, hend]
    rw [hconclusion]
    exact .raw
  | @resync low failedAt o fatal out hmode hoffset hle hlow hinput hpassed hemitted =>
    have hconclusion : x.conclusion =
        ⟨out, if fatal then .error (.corrupt failedAt) else .ok (), false⟩ := by
      cases fatal <;> simp [conclusion, hmode, ← hgiven, hemitted]
    rw [hconclusion]
    exact .resync (absent_of_rests hmode hoffset hle hlow hinput hpassed hstep)

/-- The reader came to a phase that its log leads to. -/
def Follows (x : Snapshot δ) (φ : LogPhase) (out : Bytes) : Prop :=
  Relation.ReflTransGen (Leads δ x.received) (.start, []) (φ, out) ∧ x.At φ out

theorem Follows.fresh (config : ReaderConfig) :
    Follows (⟨{ config }, [], []⟩ : Snapshot δ) .start [] :=
  ⟨.refl, .fresh config⟩

theorem Follows.move (h : x.Follows φ out) (hmove : Move x z) : ∃ φ' out', z.Follows φ' out' := by
  obtain ⟨hpassage, hat⟩ := h
  cases hmove with
  | step hpending hstep =>
    obtain ⟨φ', out', hgoes, hat'⟩ := hat.step hstep
    exact ⟨φ', out', hpassage.trans hgoes, hat'⟩
  | receive hrests hbytes =>
    exact ⟨φ, out, hpassage.lift id fun _ _ hleads => hleads.append _, hat.receive _⟩
  | give room => exact ⟨φ, out, hpassage, hat.give room⟩

theorem Follows.moves (h : x.Follows φ out) (hmoves : Moves x z) :
    ∃ φ' out', z.Follows φ' out' := by
  induction hmoves with
  | refl => exact ⟨φ, out, h⟩
  | tail _ hmove ih =>
    obtain ⟨φ', out', hfollows⟩ := ih
    exact hfollows.move hmove

end Snapshot

end RunLog
