import Mathlib.Data.List.Induction
import RunLog.Line.Fields
import RunLog.Proofs.JsonText
import RunLog.Proofs.Naming

/-! # Positional fields read back

Trimming the nulls at the end of an array changes no field, so every object reads back from its
trimmed fields. The one exception is a metric whose value is not finite: it travels as null, which
reads as zero. -/

namespace RunLog

/-! ## Trimming -/

theorem trimNulls_append_null (fields : List Json) :
    trimNulls (fields ++ [.null]) = trimNulls fields := by
  simp only [trimNulls, List.reverse_append, List.reverse_singleton, List.singleton_append]
  rw [List.dropWhile_cons_of_pos rfl]

theorem trimNulls_append_of_not_null (fields : List Json) {v : Json} (h : v.isNull = false) :
    trimNulls (fields ++ [v]) = fields ++ [v] := by
  simp [trimNulls, h]

theorem fieldAt_append_null (fields : List Json) (i : Nat) :
    fieldAt (fields ++ [.null]) i = fieldAt fields i := by
  unfold fieldAt
  rw [List.getElem?_append]
  split
  · rfl
  · rename_i h
    rw [List.getElem?_eq_none (by omega : fields.length ≤ i)]
    cases i - fields.length <;> rfl

/-- Trimming changes no field. -/
@[simp] theorem fieldAt_trimNulls (fields : List Json) (i : Nat) :
    fieldAt (trimNulls fields) i = fieldAt fields i := by
  induction fields using List.reverseRecOn with
  | nil => rfl
  | append_singleton fields v ih =>
    cases h : v.isNull with
    | true =>
      cases v <;> simp only [Json.isNull, reduceCtorEq] at h
      rw [trimNulls_append_null, fieldAt_append_null, ih]
    | false => rw [trimNulls_append_of_not_null fields h]

theorem mem_of_mem_trimNulls {fields : List Json} {v : Json} (h : v ∈ trimNulls fields) :
    v ∈ fields := by
  rw [trimNulls, List.mem_reverse] at h
  exact List.mem_reverse.mp ((List.dropWhile_sublist _).mem h)

@[simp] theorem fieldAt_cons_zero (v : Json) (fields : List Json) :
    fieldAt (v :: fields) 0 = v := rfl

@[simp] theorem fieldAt_cons_succ (v : Json) (fields : List Json) (i : Nat) :
    fieldAt (v :: fields) (i + 1) = fieldAt fields i := rfl

namespace Json

/-! ## Texts, lists and objects -/

@[simp] theorem text?_string (s : String) : (string s).text? = some s := rfl

@[simp] theorem text?_ofString? (s : Option String) : (ofString? s).text? = s := by
  cases s <;> rfl

@[simp] theorem textOrEmpty_string (s : String) : (string s).textOrEmpty = s := rfl

theorem mapM_ok {α β : Type} (read : Json → Except Malformed β) (write : α → Json) (f : α → β)
    (items : List α) (h : ∀ a ∈ items, read (write a) = .ok (f a)) :
    (items.map write).mapM read = .ok (items.map f) := by
  induction items with
  | nil => rfl
  | cons a items ih =>
    rw [List.map_cons, List.mapM_cons, h a List.mem_cons_self,
      ih fun b hb => h b (List.mem_cons_of_mem a hb)]
    rfl

/-- A list reads back item by item; the empty one travels as null. -/
theorem listOf_ofList {α β : Type} (read : Json → Except Malformed β) (write : α → Json)
    (f : α → β) (items : List α) (h : ∀ a ∈ items, read (write a) = .ok (f a)) :
    listOf read (ofList (items.map write)) = .ok (items.map f) := by
  cases items with
  | nil => rfl
  | cons a items => exact mapM_ok read write f (a :: items) h

@[simp] theorem strings_ofStrings (ss : List String) : (ofStrings ss).strings = .ok ss := by
  have h := listOf_ofList (fun v => .ok v.textOrEmpty) string id ss fun s _ => rfl
  rwa [List.map_id] at h

theorem nested_ofFields {α β : Type} {read : List Json → Except Malformed β}
    {toFields : α → List Json} {a : α} {b : β} (h : read (trimNulls (toFields a)) = .ok b) :
    nested read (ofFields (toFields a)) = .ok b := h

theorem objects_objectsOf {α β : Type} {read : List Json → Except Malformed β}
    {toFields : α → List Json} {f : α → β} (h : ∀ a, read (trimNulls (toFields a)) = .ok (f a))
    (items : List α) : (objectsOf toFields items).objects read = .ok (items.map f) :=
  listOf_ofList _ _ f items fun a _ => nested_ofFields (h a)

theorem objects_objectsOf_self {α : Type} {read : List Json → Except Malformed α}
    {toFields : α → List Json} (h : ∀ a, read (trimNulls (toFields a)) = .ok a)
    (items : List α) : (objectsOf toFields items).objects read = .ok items := by
  rw [objects_objectsOf h, List.map_id']

theorem nested?_objectOf? {α : Type} {read : List Json → Except Malformed α}
    {toFields : α → List Json} (h : ∀ a, read (trimNulls (toFields a)) = .ok a)
    (item : Option α) : (objectOf? toFields item).nested? read = .ok item := by
  cases item with
  | none => rfl
  | some a =>
    change some <$> nested read (ofFields (toFields a)) = _
    rw [nested_ofFields (h a)]
    rfl

end Json

@[simp] theorem Malformed.ok_bind {α β : Type} (a : α) (f : α → Except Malformed β) :
    (Except.ok a >>= f) = f a := rfl

/-! ## Objects without numbers that may not be finite -/

theorem NamedValue.ofFields_toFields (what : String) (v : NamedValue) :
    ofFields what (trimNulls v.toFields) = .ok v := by
  simp [ofFields, required, optional, toFields]

theorem NamedLink.ofFields_toFields (what : String) (l : NamedLink) :
    ofFields what (trimNulls l.toFields) = .ok l := by
  simp [ofFields, required, optional, toFields]

theorem Requirement.ofFields_toFields (r : Requirement) :
    ofFields (trimNulls r.toFields) = .ok r := by
  simp [ofFields, required, optional, toFields]

theorem Specification.ofFields_toFields (s : Specification) :
    ofFields (trimNulls s.toFields) = .ok s := by
  simp [ofFields, required, optional, toFields]

theorem readTag_string (tag : String) : readTag (trimNulls [.string tag]) = .ok tag := by
  simp [readTag, required]

@[simp] theorem TableRow.readIndex_natural (row : UInt32) :
    readIndex (.number (.natural row.toUInt64)) = .ok row := by
  have hlt : row.toNat < UInt32.size := row.toNat_lt_size
  simp [readIndex, Json.natural?, hlt]

theorem TableRow.ofFields_toFields (r : TableRow) : ofFields (trimNulls r.toFields) = .ok r := by
  simp [ofFields, optional, toFields]

@[simp] theorem Table.readRows_ofList (rows : List (List String)) :
    readRows (.ofList (rows.map .ofStrings)) = .ok rows := by
  have h := Json.listOf_ofList Json.strings Json.ofStrings id rows fun row _ =>
    Json.strings_ofStrings row
  rw [List.map_id] at h
  cases rows with
  | nil => rfl
  | cons row rows => exact h

theorem Table.ofFields_toFields (t : Table) : ofFields (trimNulls t.toFields) = .ok t := by
  simp [ofFields, optional, toFields]

theorem GraphNode.ofFields_toFields (n : GraphNode) : ofFields (trimNulls n.toFields) = .ok n := by
  simp [ofFields, required, optional, toFields]

theorem Test.ofFields_toFields (t : Test) : ofFields (trimNulls t.toFields) = .ok t := by
  have hattributes := Json.objects_objectsOf_self
    (NamedValue.ofFields_toFields "attribute name") t.attributes
  have hrequirements := Json.objects_objectsOf_self Requirement.ofFields_toFields t.requirements
  have harguments := Json.objects_objectsOf_self
    (NamedValue.ofFields_toFields "argument name") t.arguments
  have htags := Json.objects_objectsOf_self readTag_string t.tags
  have husers := Json.objects_objectsOf_self (NamedLink.ofFields_toFields "user name") t.users
  have htickets := Json.objects_objectsOf_self
    (NamedLink.ofFields_toFields "ticket name") t.tickets
  have hexamples := Json.nested?_objectOf? Table.ofFields_toFields t.examples
  have hnode := Json.nested?_objectOf? GraphNode.ofFields_toFields t.node
  have hmap := Json.objects_objectsOf_self GraphNode.ofFields_toFields t.map
  simp [ofFields, required, optional, toFields, hattributes, hrequirements, harguments, htags,
    husers, htickets, hexamples, hnode, hmap]

/-! ## Metrics and what carries them -/

/-- A metric as it reads back: null stands for a value that is not finite and reads as zero. -/
def Metric.asRead (m : Metric) : Metric :=
  { m with value := if Numeric.isFinite m.value then m.value else 0 }

theorem Metric.ofFields_toFields (m : Metric) : ofFields (trimNulls m.toFields) = .ok m.asRead := by
  cases h : Numeric.isFinite m.value <;>
    simp [ofFields, required, optional, toFields, asRead, Json.ofFloat, ← Numeric.isFinite_eq, h,
      Json.real?, pure, Except.pure]

/-- The values that are kept are the finite ones, since zero is finite. -/
theorem Metric.asRead_eq_iff (m : Metric) : m.asRead = m ↔ Numeric.isFinite m.value = true := by
  have hzero : Numeric.isFinite 0 = true := by decide
  obtain ⟨name, value, units, kind, group, uid⟩ := m
  simp only [asRead, mk.injEq, and_true, true_and]
  constructor
  · intro h
    split at h
    · assumption
    · rwa [← h]
  · intro h
    exact if_pos h

theorem Result.readOutcome_trimNulls (r : Result) :
    readOutcome (trimNulls r.toFields) = .ok r.outcome := by
  simp [readOutcome, required, toFields, Outcome.ofName?_name]
  rfl

theorem Result.ofFields_toFields (r : Result) :
    ofFields (trimNulls r.toFields) = .ok { r with metrics := r.metrics.map Metric.asRead } := by
  have houtcome := r.readOutcome_trimNulls
  have hmetrics := Json.objects_objectsOf Metric.ofFields_toFields r.metrics
  have htickets := Json.objects_objectsOf_self
    (NamedLink.ofFields_toFields "ticket name") r.tickets
  have hvalues := Json.objects_objectsOf_self (NamedValue.ofFields_toFields "value name") r.values
  rw [ofFields, houtcome]
  simp [optional, toFields, hmetrics, htickets, hvalues]

/-! ## Payloads -/

namespace Body

/-- A payload as it reads back. -/
def asRead : Body → Body
  | metric m => metric m.asRead
  | result r => result { r with metrics := r.metrics.map Metric.asRead }
  | b => b

theorem ofFields_toFields (b : Body) :
    ofFields b.keyword (trimNulls b.toFields) = .ok b.asRead := by
  cases b with
  | text kind content => simp [ofFields, keyword, toFields, asRead]
  | test t => simp [ofFields, keyword, toFields, asRead, t.ofFields_toFields]
  | result r => simp [ofFields, keyword, toFields, asRead, r.ofFields_toFields]
  | value v => simp [ofFields, keyword, toFields, asRead, NamedValue.ofFields_toFields]
  | metric m => simp [ofFields, keyword, toFields, asRead, m.ofFields_toFields]
  | ticket l => simp [ofFields, keyword, toFields, asRead, NamedLink.ofFields_toFields]
  | argument v => simp [ofFields, keyword, toFields, asRead, NamedValue.ofFields_toFields]
  | tag s => simp [ofFields, keyword, toFields, asRead, readTag_string]
  | property v => simp [ofFields, keyword, toFields, asRead, NamedValue.ofFields_toFields]
  | requirement r => simp [ofFields, keyword, toFields, asRead, r.ofFields_toFields]
  | specification s => simp [ofFields, keyword, toFields, asRead, s.ofFields_toFields]
  | tableRow r => simp [ofFields, keyword, toFields, asRead, r.ofFields_toFields]
  | stop => rfl

/-- A payload is kept as it is exactly if its metrics are finite. -/
theorem asRead_eq_iff (b : Body) :
    b.asRead = b ↔ ∀ m ∈ b.metrics, Numeric.isFinite m.value = true := by
  cases b with
  | metric m => simp [asRead, metrics, m.asRead_eq_iff]
  | result r =>
    obtain ⟨outcome, message, reason, test, metrics, tickets, values⟩ := r
    simp only [asRead, Body.metrics, result.injEq, Result.mk.injEq, true_and, and_true]
    have hmap : metrics.map Metric.asRead = metrics.map id ↔ ∀ m ∈ metrics, m.asRead = m :=
      List.map_eq_map_iff
    rw [List.map_id] at hmap
    simp [hmap, Metric.asRead_eq_iff]
  | _ => simp [asRead, metrics]

end Body

/-! ## Fields as JSON text -/

namespace Json.Composed

variable {P : Number → Prop} {depth : Nat}

@[simp] theorem string_iff (s : String) : Composed P depth (Json.string s) ↔ True :=
  iff_true_intro (.string s)

@[simp] theorem ofString? (s : Option String) : Composed P depth (ofString? s) := by
  cases s with
  | none => exact .null
  | some s => exact .string s

@[simp] theorem number_iff (n : Number) : Composed P depth (Json.number n) ↔ P n := by
  constructor
  · rintro ⟨⟩
    assumption
  · exact .number

theorem ofFloat {x : Float} (h : Numeric.isFinite x = true → P (.real x)) :
    Composed P depth (ofFloat x) := by
  rw [Json.ofFloat, ← Numeric.isFinite_eq]
  split
  · exact .number (h ‹_›)
  · exact .null

theorem ofList {items : List Json} (h : ∀ v ∈ items, Composed P depth v) :
    Composed P (depth + 1) (ofList items) := by
  unfold Json.ofList
  split
  · exact .null
  · exact .array h

@[simp] theorem ofStrings (ss : List String) : Composed P (depth + 1) (ofStrings ss) :=
  ofList (by simp)

theorem ofFields {fields : List Json} (h : ∀ v ∈ fields, Composed P depth v) :
    Composed P (depth + 1) (ofFields fields) := by
  apply Composed.array
  intro v hv
  exact h v (mem_of_mem_trimNulls hv)

theorem objectsOf {α : Type} {toFields : α → List Json} {items : List α}
    (h : ∀ a ∈ items, ∀ v ∈ toFields a, Composed P depth v) :
    Composed P (depth + 2) (objectsOf toFields items) := by
  apply ofList
  intro v hv
  obtain ⟨a, ha, rfl⟩ := List.mem_map.mp hv
  exact ofFields (h a ha)

theorem objectOf? {α : Type} {toFields : α → List Json} {item : Option α}
    (h : ∀ a, ∀ v ∈ toFields a, Composed P depth v) :
    Composed P (depth + 1) (objectOf? toFields item) := by
  cases item with
  | none => exact .null
  | some a => exact ofFields (h a)

end Json.Composed

section Composed

open Json (Composed)

variable {P : Number → Prop} {depth : Nat}

theorem NamedValue.composed (a : NamedValue) : ∀ v ∈ a.toFields, Composed P depth v := by
  simp [toFields]

theorem NamedLink.composed (l : NamedLink) : ∀ v ∈ l.toFields, Composed P depth v := by
  simp [toFields]

theorem Requirement.composed (r : Requirement) : ∀ v ∈ r.toFields, Composed P depth v := by
  simp [toFields]

theorem Specification.composed (s : Specification) : ∀ v ∈ s.toFields, Composed P depth v := by
  simp [toFields]

theorem TableRow.composed (h : ∀ n, P (.natural n)) (r : TableRow) :
    ∀ v ∈ r.toFields, Composed P (depth + 1) v := by
  simp [toFields, h]

theorem Table.composed (t : Table) : ∀ v ∈ t.toFields, Composed P (depth + 2) v := by
  have hrows : Composed P (depth + 2) (.ofList (t.rows.map .ofStrings)) := .ofList (by simp)
  simp [toFields, hrows]

theorem GraphNode.composed (n : GraphNode) : ∀ v ∈ n.toFields, Composed P (depth + 1) v := by
  simp [toFields]

theorem Metric.composed {m : Metric} (h : Numeric.isFinite m.value = true → P (.real m.value)) :
    ∀ v ∈ m.toFields, Composed P depth v := by
  simp [toFields, Composed.ofFloat h]

theorem Test.composed (t : Test) : ∀ v ∈ t.toFields, Composed P (depth + 3) v := by
  have hattributes : Composed P (depth + 3) (objectsOf NamedValue.toFields t.attributes) :=
    .objectsOf fun a _ => a.composed
  have hrequirements : Composed P (depth + 3) (objectsOf Requirement.toFields t.requirements) :=
    .objectsOf fun r _ => r.composed
  have harguments : Composed P (depth + 3) (objectsOf NamedValue.toFields t.arguments) :=
    .objectsOf fun a _ => a.composed
  have htags : Composed P (depth + 3) (objectsOf (fun tag => [.string tag]) t.tags) :=
    .objectsOf fun tag _ => by simp
  have husers : Composed P (depth + 3) (objectsOf NamedLink.toFields t.users) :=
    .objectsOf fun l _ => l.composed
  have htickets : Composed P (depth + 3) (objectsOf NamedLink.toFields t.tickets) :=
    .objectsOf fun l _ => l.composed
  have hexamples : Composed P (depth + 3) (objectOf? Table.toFields t.examples) :=
    .objectOf? Table.composed
  have hnode : Composed P (depth + 3) (objectOf? GraphNode.toFields t.node) :=
    .objectOf? GraphNode.composed
  have hmap : Composed P (depth + 3) (objectsOf GraphNode.toFields t.map) :=
    .objectsOf fun n _ => n.composed
  simp [toFields, hattributes, hrequirements, harguments, htags, husers, htickets, hexamples,
    hnode, hmap]

theorem Result.composed {r : Result}
    (h : ∀ m ∈ r.metrics, Numeric.isFinite m.value = true → P (.real m.value)) :
    ∀ v ∈ r.toFields, Composed P (depth + 2) v := by
  have hmetrics : Composed P (depth + 2) (objectsOf Metric.toFields r.metrics) :=
    .objectsOf fun m hm => Metric.composed (h m hm)
  have htickets : Composed P (depth + 2) (objectsOf NamedLink.toFields r.tickets) :=
    .objectsOf fun l _ => l.composed
  have hvalues : Composed P (depth + 2) (objectsOf NamedValue.toFields r.values) :=
    .objectsOf fun a _ => a.composed
  simp [toFields, hmetrics, htickets, hvalues]

/-- The numbers of a payload are natural, or the finite ones of its metrics. -/
theorem Body.composed {b : Body} (hnatural : ∀ n, P (.natural n))
    (h : ∀ m ∈ b.metrics, Numeric.isFinite m.value = true → P (.real m.value)) :
    ∀ v ∈ b.toFields, Composed P (depth + 3) v := by
  cases b with
  | text kind content => simp [toFields]
  | test t => exact t.composed
  | result r => exact Result.composed h
  | value a => exact a.composed
  | metric m => exact Metric.composed (h m (by simp [metrics]))
  | ticket l => exact l.composed
  | argument a => exact a.composed
  | tag s => simp [toFields]
  | property a => exact a.composed
  | requirement r => exact r.composed
  | specification s => exact s.composed
  | tableRow r => exact r.composed hnatural
  | stop => simp [toFields]

end Composed

end RunLog
