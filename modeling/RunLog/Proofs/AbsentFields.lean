import Mathlib.Data.List.Forall2
import Mathlib.Logic.Relation
import RunLog.Proofs.PositionalFields

/-! # Fields that are not there

A field that is missing at the end of an array and a field that is null are the same to every
reader, in the array of a payload and in the arrays of the objects within it. What a reader gives,
a value or an error, depends only on the fields up to the last one that it knows.

Main statement: nulls at the end of any of these arrays, and fields that no reader knows, change
nothing. -/

namespace RunLog

/-! ## What a reader looks at -/

theorem fieldAt_append_of_lt {xs : List Json} {i : Nat} (h : i < xs.length) (more : List Json) :
    fieldAt (xs ++ more) i = fieldAt xs i := by
  rw [fieldAt, List.getElem?_append_left h, fieldAt]

/-- The same fields at the first positions, a missing one being null. -/
def AgreeBelow (arity : Nat) (xs ys : List Json) : Prop :=
  ∀ i < arity, fieldAt xs i = fieldAt ys i

namespace AgreeBelow

variable {arity : Nat} {xs : List Json} {v : Json}

theorem append (h : v = .null ∨ arity ≤ xs.length) : AgreeBelow arity xs (xs ++ [v]) := by
  intro i hi
  rcases h with rfl | h
  · exact (fieldAt_append_null xs i).symm
  · exact (fieldAt_append_of_lt (Nat.lt_of_lt_of_le hi h) [v]).symm

end AgreeBelow

/-- A reader of objects that looks at no field from the given position on. -/
def ReadsBelow {α : Type} (arity : Nat) (read : List Json → Except Malformed α) : Prop :=
  ∀ ⦃xs ys⦄, AgreeBelow arity xs ys → read xs = read ys

theorem NamedValue.readsBelow (what : String) : ReadsBelow 5 (ofFields what) := by
  intro xs ys h
  have hfield : ∀ i < 5, fieldAt xs i = fieldAt ys i := h
  simp (disch := decide) only [ofFields, required, optional, hfield]

theorem NamedLink.readsBelow (what : String) : ReadsBelow 5 (ofFields what) := by
  intro xs ys h
  have hfield : ∀ i < 5, fieldAt xs i = fieldAt ys i := h
  simp (disch := decide) only [ofFields, required, optional, hfield]

theorem Requirement.readsBelow : ReadsBelow 8 ofFields := by
  intro xs ys h
  have hfield : ∀ i < 8, fieldAt xs i = fieldAt ys i := h
  simp (disch := decide) only [ofFields, required, optional, hfield]

theorem Specification.readsBelow : ReadsBelow 7 ofFields := by
  intro xs ys h
  have hfield : ∀ i < 7, fieldAt xs i = fieldAt ys i := h
  simp (disch := decide) only [ofFields, required, optional, hfield]

theorem Metric.readsBelow : ReadsBelow 6 ofFields := by
  intro xs ys h
  have hfield : ∀ i < 6, fieldAt xs i = fieldAt ys i := h
  simp (disch := decide) only [ofFields, required, optional, hfield]

theorem readsBelow_readTag : ReadsBelow 1 readTag := by
  intro xs ys h
  have hfield : ∀ i < 1, fieldAt xs i = fieldAt ys i := h
  simp (disch := decide) only [readTag, required, hfield]

theorem TableRow.readsBelow : ReadsBelow 4 ofFields := by
  intro xs ys h
  have hfield : ∀ i < 4, fieldAt xs i = fieldAt ys i := h
  simp (disch := decide) only [ofFields, optional, hfield]

theorem Table.readsBelow : ReadsBelow 3 ofFields := by
  intro xs ys h
  have hfield : ∀ i < 3, fieldAt xs i = fieldAt ys i := h
  simp (disch := decide) only [ofFields, optional, hfield]

theorem GraphNode.readsBelow : ReadsBelow 6 ofFields := by
  intro xs ys h
  have hfield : ∀ i < 6, fieldAt xs i = fieldAt ys i := h
  simp (disch := decide) only [ofFields, required, optional, hfield]

/-! ## Objects within objects -/

/-- What stands at a position among the fields of a payload. -/
inductive FieldShape where
  /-- A scalar, or a list of texts. -/
  | plain
  /-- An object with so many fields. -/
  | object (arity : Nat)
  /-- A list of objects with so many fields each. -/
  | objects (arity : Nat)
deriving DecidableEq

namespace Json

/-- The same value, or two arrays that are the same object to a reader. -/
inductive SameObject (arity : Nat) : Json → Json → Prop where
  | refl (v : Json) : SameObject arity v v
  | fields {xs ys : List Json} (h : AgreeBelow arity xs ys) :
      SameObject arity (array xs) (array ys)

/-- The same value, or two lists of the same objects. -/
inductive SameObjects (arity : Nat) : Json → Json → Prop where
  | refl (v : Json) : SameObjects arity v v
  | items {vs ws : List Json} (h : List.Forall₂ (SameObject arity) vs ws) :
      SameObjects arity (array vs) (array ws)

variable {α : Type} {arity : Nat} {read : List Json → Except Malformed α} {v w : Json}

theorem SameObject.nested_eq (hread : ReadsBelow arity read) (h : SameObject arity v w) :
    v.nested read = w.nested read := by
  cases h with
  | refl => rfl
  | fields h => exact hread h

theorem SameObject.nested?_eq (hread : ReadsBelow arity read) (h : SameObject arity v w) :
    v.nested? read = w.nested? read := by
  cases h with
  | refl => rfl
  | fields h => exact congrArg (some <$> ·) (hread h)

theorem SameObjects.objects_eq (hread : ReadsBelow arity read) (h : SameObjects arity v w) :
    v.objects read = w.objects read := by
  cases h with
  | refl => rfl
  | items h =>
    simp only [objects, listOf]
    induction h with
    | nil => rfl
    | cons hv _ ih => rw [List.mapM_cons, List.mapM_cons, hv.nested_eq hread, ih]

end Json

/-- Two values that a reader cannot tell apart at a position of the given shape. -/
def FieldShape.Same : FieldShape → Json → Json → Prop
  | plain => Eq
  | object arity => Json.SameObject arity
  | objects arity => Json.SameObjects arity

theorem FieldShape.Same.refl (shape : FieldShape) (v : Json) : shape.Same v v := by
  cases shape with
  | plain => rfl
  | object arity => exact Json.SameObject.refl v
  | objects arity => exact Json.SameObjects.refl v

/-! ## Payloads -/

namespace Keyword

/-- The fields of a payload, in their order. -/
def shapes : Keyword → List FieldShape
  | text _ => [.plain]
  | test =>
    [.plain, .plain, .plain, .objects 5, .objects 8, .objects 5, .objects 1, .objects 5, .objects 5,
     .object 3, .object 6, .objects 6]
  | result => [.plain, .plain, .plain, .plain, .objects 6, .objects 5, .objects 5]
  | value | argument | property | ticket => List.replicate 5 .plain
  | metric => List.replicate 6 .plain
  | tag => [.plain]
  | requirement => List.replicate 8 .plain
  | specification => List.replicate 7 .plain
  | tableRow => List.replicate 4 .plain
  | stop => []

/-- The number of fields that a payload has. -/
def arity (k : Keyword) : Nat := k.shapes.length

/-- One null more at the end of an array that is read by position, or a field more than there are
positions. -/
inductive Pads (k : Keyword) : List Json → List Json → Prop where
  | payload {xs : List Json} {v : Json} (hv : v = .null ∨ k.arity ≤ xs.length) :
      Pads k xs (xs ++ [v])
  | object (before after : List Json) {xs : List Json} {v : Json} {n : Nat}
      (h : k.shapes[before.length]? = some (.object n)) (hv : v = .null ∨ n ≤ xs.length) :
      Pads k (before ++ .array xs :: after) (before ++ .array (xs ++ [v]) :: after)
  | item (before after vs ws : List Json) {xs : List Json} {v : Json} {n : Nat}
      (h : k.shapes[before.length]? = some (.objects n)) (hv : v = .null ∨ n ≤ xs.length) :
      Pads k (before ++ .array (vs ++ .array xs :: ws) :: after)
        (before ++ .array (vs ++ .array (xs ++ [v]) :: ws) :: after)

/-- Fields that a reader of the payload cannot tell apart. -/
def Same (k : Keyword) (xs ys : List Json) : Prop :=
  ∀ (i : Nat) (shape : FieldShape), k.shapes[i]? = some shape →
    shape.Same (fieldAt xs i) (fieldAt ys i)

variable {k : Keyword} {xs ys : List Json}

theorem Same.agreeBelow (h : k.Same xs ys) {arity : Nat}
    (hshapes : k.shapes = List.replicate arity .plain) : AgreeBelow arity xs ys := by
  intro i hi
  exact h i .plain (by simp [hshapes, hi])

theorem same_of_fieldAt_eq (h : AgreeBelow k.arity xs ys) : k.Same xs ys := by
  intro i shape hshape
  obtain ⟨hi, -⟩ := List.getElem?_eq_some_iff.mp hshape
  rw [h i hi]
  exact .refl shape _

/-- Where one field is put in the place of another, a position is the same or it is that field's. -/
theorem same_of_field {before after : List Json} {v w : Json} {shape : FieldShape}
    (hshape : k.shapes[before.length]? = some shape) (h : shape.Same v w) :
    k.Same (before ++ v :: after) (before ++ w :: after) := by
  intro i shape' hshape'
  by_cases hi : i = before.length
  · subst hi
    obtain rfl := Option.some.inj (hshape.symm.trans hshape')
    simpa [fieldAt] using h
  · have hfield : fieldAt (before ++ v :: after) i = fieldAt (before ++ w :: after) i := by
      unfold fieldAt
      rcases Nat.lt_or_gt_of_ne hi with hlt | hgt
      · rw [List.getElem?_append_left hlt, List.getElem?_append_left hlt]
      · have hle := Nat.le_of_lt hgt
        rw [List.getElem?_append_right hle, List.getElem?_append_right hle]
        obtain ⟨j, hj⟩ : ∃ j, i - before.length = j + 1 := ⟨i - before.length - 1, by omega⟩
        rw [hj, List.getElem?_cons_succ, List.getElem?_cons_succ]
    rw [hfield]
    exact .refl shape' _

/-- What is padded stays the same to a reader. -/
theorem Pads.same (h : k.Pads xs ys) : k.Same xs ys := by
  cases h with
  | payload hv => exact same_of_fieldAt_eq (.append hv)
  | object before after hshape hv => exact same_of_field hshape (.fields (.append hv))
  | @item before after vs ws xs v n hshape hv =>
    refine same_of_field hshape (.items ?_)
    have hrefl : ∀ us, List.Forall₂ (Json.SameObject n) us us :=
      fun us => List.forall₂_same.mpr fun v _ => .refl v
    exact List.rel_append (hrefl _) (.cons (.fields (.append hv)) (hrefl _))

end Keyword

/-- A reader looks at nothing but the fields of a test. -/
theorem Test.ofFields_eq_of_same {xs ys : List Json} (h : Keyword.test.Same xs ys) :
    ofFields xs = ofFields ys := by
  have hname : fieldAt xs 0 = fieldAt ys 0 := h 0 .plain rfl
  have huid : fieldAt xs 1 = fieldAt ys 1 := h 1 .plain rfl
  have hdescription : fieldAt xs 2 = fieldAt ys 2 := h 2 .plain rfl
  have hattributes := (h 3 (.objects 5) rfl).objects_eq (NamedValue.readsBelow "attribute name")
  have hrequirements := (h 4 (.objects 8) rfl).objects_eq Requirement.readsBelow
  have harguments := (h 5 (.objects 5) rfl).objects_eq (NamedValue.readsBelow "argument name")
  have htags := (h 6 (.objects 1) rfl).objects_eq readsBelow_readTag
  have husers := (h 7 (.objects 5) rfl).objects_eq (NamedLink.readsBelow "user name")
  have htickets := (h 8 (.objects 5) rfl).objects_eq (NamedLink.readsBelow "ticket name")
  have hexamples := (h 9 (.object 3) rfl).nested?_eq Table.readsBelow
  have hnode := (h 10 (.object 6) rfl).nested?_eq GraphNode.readsBelow
  have hmap := (h 11 (.objects 6) rfl).objects_eq GraphNode.readsBelow
  simp only [ofFields, required, optional, hname, huid, hdescription, hattributes, hrequirements,
    harguments, htags, husers, htickets, hexamples, hnode, hmap]

/-- A reader looks at nothing but the fields of a result. -/
theorem Result.ofFields_eq_of_same {xs ys : List Json} (h : Keyword.result.Same xs ys) :
    ofFields xs = ofFields ys := by
  have houtcome : fieldAt xs 0 = fieldAt ys 0 := h 0 .plain rfl
  have hmessage : fieldAt xs 1 = fieldAt ys 1 := h 1 .plain rfl
  have hreason : fieldAt xs 2 = fieldAt ys 2 := h 2 .plain rfl
  have htest : fieldAt xs 3 = fieldAt ys 3 := h 3 .plain rfl
  have hmetrics := (h 4 (.objects 6) rfl).objects_eq Metric.readsBelow
  have htickets := (h 5 (.objects 5) rfl).objects_eq (NamedLink.readsBelow "ticket name")
  have hvalues := (h 6 (.objects 5) rfl).objects_eq (NamedValue.readsBelow "value name")
  simp only [ofFields, readOutcome, required, optional, houtcome, hmessage, hreason, htest,
    hmetrics, htickets, hvalues]

namespace Body

variable {k : Keyword} {xs ys : List Json}

/-- As many fields are written as are read. -/
theorem length_toFields (b : Body) : b.toFields.length = b.keyword.arity := by
  cases b <;> rfl

theorem ofFields_eq_of_same (h : k.Same xs ys) : ofFields k xs = ofFields k ys := by
  cases k with
  | text kind =>
    have hcontent : fieldAt xs 0 = fieldAt ys 0 := h 0 .plain rfl
    simp only [ofFields, hcontent]
  | test => exact congrArg (test <$> ·) (Test.ofFields_eq_of_same h)
  | result => exact congrArg (result <$> ·) (Result.ofFields_eq_of_same h)
  | value => exact congrArg (value <$> ·) (NamedValue.readsBelow _ (h.agreeBelow rfl))
  | metric => exact congrArg (metric <$> ·) (Metric.readsBelow (h.agreeBelow rfl))
  | ticket => exact congrArg (ticket <$> ·) (NamedLink.readsBelow _ (h.agreeBelow rfl))
  | argument => exact congrArg (argument <$> ·) (NamedValue.readsBelow _ (h.agreeBelow rfl))
  | tag => exact congrArg (tag <$> ·) (readsBelow_readTag (h.agreeBelow rfl))
  | property => exact congrArg (property <$> ·) (NamedValue.readsBelow _ (h.agreeBelow rfl))
  | requirement => exact congrArg (requirement <$> ·) (Requirement.readsBelow (h.agreeBelow rfl))
  | specification =>
    exact congrArg (specification <$> ·) (Specification.readsBelow (h.agreeBelow rfl))
  | tableRow => exact congrArg (tableRow <$> ·) (TableRow.readsBelow (h.agreeBelow rfl))
  | stop => rfl

/-- Every payload reads the same without the nulls at its end, with more of them, with fields beyond
its last, and after any number of such changes to it and to the objects within it. -/
theorem absent_is_null (k : Keyword) (fields : List Json) :
    ofFields k (trimNulls fields) = ofFields k fields ∧
    (∀ n, ofFields k (fields ++ List.replicate n .null) = ofFields k fields) ∧
    (∀ more, k.arity ≤ fields.length → ofFields k (fields ++ more) = ofFields k fields) ∧
    ∀ others, Relation.EqvGen k.Pads fields others → ofFields k others = ofFields k fields := by
  have hpads : ∀ {xs ys}, Relation.EqvGen k.Pads xs ys → ofFields k xs = ofFields k ys := by
    intro xs ys h
    induction h with
    | rel xs ys h => exact ofFields_eq_of_same h.same
    | refl xs => rfl
    | symm xs ys _ ih => exact ih.symm
    | trans xs ys zs _ _ ihx ihy => exact ihx.trans ihy
  refine ⟨?_, ?_, ?_, fun others h => (hpads h).symm⟩
  · exact ofFields_eq_of_same (Keyword.same_of_fieldAt_eq fun i _ => fieldAt_trimNulls fields i)
  · intro n
    induction n with
    | zero => rw [List.replicate_zero, List.append_nil]
    | succ n ih =>
      rw [List.replicate_succ', ← List.append_assoc, ← ih]
      exact (ofFields_eq_of_same (Keyword.Pads.payload (.inl rfl)).same).symm
  · intro more hmore
    apply ofFields_eq_of_same
    exact Keyword.same_of_fieldAt_eq fun i hi =>
      fieldAt_append_of_lt (Nat.lt_of_lt_of_le hi hmore) more

/-- Nulls after a field of an attribute, and after the attributes. -/
theorem absent_is_null_attribute :
    let fields : List Json := [.string "/t", .null, .null, .array [.array [.string "owner"]]]
    let others : List Json :=
      [.string "/t", .null, .null, .array [.array [.string "owner", .null]], .null]
    Relation.EqvGen Keyword.test.Pads fields others ∧
      ofFields .test others = ofFields .test fields ∧
      ofFields .test fields = .ok (.test ⟨"/t", none, none, [⟨"owner", "", none, none, none⟩], [],
        [], [], [], [], none, none, []⟩) := by
  intro fields others
  have hobject : Keyword.test.Pads fields
      [.string "/t", .null, .null, .array [.array [.string "owner", .null]]] :=
    .item [.string "/t", .null, .null] [] [] [] rfl (.inl rfl)
  have hend : Keyword.test.Pads
      [.string "/t", .null, .null, .array [.array [.string "owner", .null]]] others :=
    .payload (.inl rfl)
  have hpads : Relation.EqvGen Keyword.test.Pads fields others :=
    .trans _ _ _ (.rel _ _ hobject) (.rel _ _ hend)
  exact ⟨hpads, (absent_is_null .test fields).2.2.2 others hpads, rfl⟩

end Body

end RunLog
