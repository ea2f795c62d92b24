import RunLog.Proofs.FiniteNumbers
import RunLog.Proofs.LineRoundTrip

/-! # One line for each record

Main statement: the reader takes many lines for one record, with blanks, other escapes, other
numerals, fields that are left out or too many. Among them is one that is written, since a record
that was read has finite numbers. Reading that line gives the record again, and a line is written as
it was read exactly if it is one that is written. -/

namespace RunLog

namespace Json.IsFinite

variable {α : Type} {read : List Json → Except Malformed α} {P : α → Prop}

theorem fieldAt {fields : List Json} (h : ∀ v ∈ fields, v.IsFinite) (i : Nat) :
    (fieldAt fields i).IsFinite := by
  unfold RunLog.fieldAt
  cases hv : fields[i]? with
  | none => exact .null
  | some v => exact h v (List.mem_of_getElem? hv)

/-- What holds of every object read from finite numbers holds of a list of them. -/
theorem objects {v : Json} (hv : v.IsFinite)
    (hread : ∀ fields a, (∀ v ∈ fields, v.IsFinite) → read fields = .ok a → P a) {items : List α}
    (h : v.objects read = .ok items) : ∀ a ∈ items, P a := by
  have hnested : ∀ (v : Json) a, v.IsFinite → v.nested read = .ok a → P a := by
    intro v a hv h
    cases hv with
    | array hfields => exact hread _ a hfields h
    | _ => cases h
  cases hv with
  | null =>
    obtain rfl := Except.ok.inj h
    simp
  | @array values hvalues =>
    change values.mapM (nested read) = .ok items at h
    induction values generalizing items with
    | nil =>
      obtain rfl := Except.ok.inj h
      simp
    | cons v values ih =>
      rw [List.mapM_cons] at h
      obtain ⟨a, ha, h⟩ := Malformed.bind_eq_ok h
      obtain ⟨rest, hrest, h⟩ := Malformed.bind_eq_ok h
      obtain rfl := Except.ok.inj h
      exact List.forall_mem_cons.mpr ⟨hnested v a (hvalues v List.mem_cons_self) ha,
        ih (fun w hw => hvalues w (List.mem_cons_of_mem v hw)) hrest⟩
  | _ => cases h

end Json.IsFinite

/-! ## Records that were read -/

theorem Metric.isFinite_of_ofFields {fields : List Json} {m : Metric}
    (hfields : ∀ v ∈ fields, v.IsFinite) (h : ofFields fields = .ok m) :
    Numeric.isFinite m.value = true := by
  have hfield := Json.IsFinite.fieldAt hfields 1
  unfold ofFields at h
  split at h
  · obtain ⟨value, hvalue, h⟩ := Malformed.bind_eq_ok h
    obtain ⟨name, -, h⟩ := Malformed.bind_eq_ok h
    obtain rfl := Except.ok.inj hvalue
    obtain rfl := Except.ok.inj h
    exact Numeric.isFinite_ofNat (n := 0) (by decide)
  · split at h
    · rename_i x hx
      obtain ⟨value, hvalue, h⟩ := Malformed.bind_eq_ok h
      obtain ⟨name, -, h⟩ := Malformed.bind_eq_ok h
      obtain rfl := Except.ok.inj hvalue
      obtain rfl := Except.ok.inj h
      exact hfield.real? hx
    · cases h

theorem Result.isFinite_of_ofFields {fields : List Json} {r : Result}
    (hfields : ∀ v ∈ fields, v.IsFinite) (h : ofFields fields = .ok r) :
    ∀ m ∈ r.metrics, Numeric.isFinite m.value = true := by
  obtain ⟨outcome, -, h⟩ := Malformed.bind_eq_ok h
  obtain ⟨metrics, hmetrics, h⟩ := Malformed.bind_eq_ok h
  obtain ⟨tickets, -, h⟩ := Malformed.bind_eq_ok h
  obtain ⟨values, -, h⟩ := Malformed.bind_eq_ok h
  obtain rfl := Except.ok.inj h
  exact (Json.IsFinite.fieldAt hfields 4).objects
    (fun _ _ hfields hread => Metric.isFinite_of_ofFields hfields hread) hmetrics

theorem Body.isFinite_of_ofFields {keyword : Keyword} {fields : List Json} {body : Body}
    (hfields : ∀ v ∈ fields, v.IsFinite) (h : ofFields keyword fields = .ok body) :
    ∀ m ∈ body.metrics, Numeric.isFinite m.value = true := by
  have hkeyword := keyword_of_ofFields h
  cases body with
  | metric m =>
    obtain rfl := hkeyword
    obtain ⟨m', hm, h⟩ := Malformed.map_eq_ok h
    obtain rfl := metric.inj h
    simpa [metrics] using Metric.isFinite_of_ofFields hfields hm
  | result r =>
    obtain rfl := hkeyword
    obtain ⟨r', hr, h⟩ := Malformed.map_eq_ok h
    obtain rfl := result.inj h
    exact Result.isFinite_of_ofFields hfields hr
  | _ => simp [metrics]

namespace Record

variable {l : String} {r : Record}

/-- A record that was read has finite numbers only. -/
theorem isFinite_of_parse (h : parse l = .ok r) : ∀ x ∈ r.numbers, Numeric.isFinite x = true := by
  obtain ⟨rest, fields, -, hfields, -, hhead, hbody⟩ :=
    readChars_eq_ok_iff.mp (parse_eq_ok_iff.mp h)
  have hfinite := Json.isFinite_of_readItemsOf? hfields
  have htime := (Head.of_ofFields hhead).2
  rintro x (_ | ⟨_, hx⟩)
  · exact (Json.IsFinite.fieldAt (fun v hv => hfinite v (List.mem_of_mem_take hv)) 8).real? htime
  · obtain ⟨m, hm, rfl⟩ := List.mem_map.mp hx
    exact Body.isFinite_of_ofFields (fun v hv => hfinite v (List.mem_of_mem_drop hv)) hbody m hm

/-- A line that is written, of a record whose numbers are finite and read back. -/
def Written (l : String) : Prop :=
  ∃ r : Record, r.Readable ∧ (∀ x ∈ r.numbers, Numeric.isFinite x = true) ∧ r.render = l

/-- Writing a record that was read gives the one line of the record that is written. -/
theorem render_of_parse (l : String) :
    (∀ r, parse l = .ok r → r.Readable →
      (∀ x ∈ r.numbers, Numeric.isFinite x = true) ∧ parse r.render = .ok r ∧
        (r.render = l ↔ Written l)) ∧
      (Written l → ∃ r, parse l = .ok r ∧ r.Readable ∧ r.render = l) := by
  constructor
  · intro r h hread
    have hfinite := isFinite_of_parse h
    refine ⟨hfinite, parse_render hread hfinite, fun hrender => ⟨r, hread, hfinite, hrender⟩, ?_⟩
    rintro ⟨r', hread', hfinite', rfl⟩
    obtain rfl := Except.ok.inj ((parse_render hread' hfinite').symm.trans h)
    rfl
  · rintro ⟨r, hread, hfinite, rfl⟩
    exact ⟨r, parse_render hread hfinite, hread, rfl⟩

/-- A value, reported after two seconds. -/
def reported : Record where
  head := ⟨"h", 1, .test, none, ⟨[0, 1]⟩, .none, .none, none, 2⟩
  body := .value ⟨"a", "7", none, none, none⟩

/-- Blanks, an integer for the time, a slash in front of the path and a padded position in it, an
escape that is not needed, a number for a text, and a field too many. -/
def lenient : String :=
  "VALUE, \"h\" ,1,\"Test\",null,\"/0/+01\",0,0,null,2,\"\\u0061\",7,null,null,null,true"

/-- What is written for it. -/
def strict : String := "VALUE,\"h\",1,\"Test\",null,\"0/1\",0,0,null,2.0,\"a\",\"7\""

theorem render_of_parse_lenient :
    parse lenient = .ok reported ∧ parse strict = .ok reported ∧ reported.render = strict ∧
      ¬ Written lenient := by
  have hparse : parse lenient = .ok reported := by
    have hsome : (parse lenient).toOption = some reported := by decide +kernel
    cases h : parse lenient <;> rw [h] at hsome <;> cases hsome
    rfl
  have hread : reported.Readable := by decide +kernel
  have hrender : reported.render = strict := by decide +kernel
  obtain ⟨-, hback, hwritten⟩ := (render_of_parse lenient).1 reported hparse hread
  refine ⟨hparse, ?_, hrender, fun h => ?_⟩
  · rw [← hrender]
    exact hback
  · have hequal := hwritten.mpr h
    rw [hrender] at hequal
    exact absurd hequal (by decide +kernel)

end Record

end RunLog
