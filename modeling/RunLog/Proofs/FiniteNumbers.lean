import RunLog.Proofs.FieldReading
import RunLog.Proofs.FloatBounds

/-! # Numbers that are read are finite

No numeral reads as an infinite or undefined double: a numeral too large for a double is refused,
and scaling down by a power of ten cannot leave the finite doubles. So every number of a record that
was read is finite. -/

namespace RunLog

namespace Numeric

/-! ## Powers of ten -/

/-- The first powers are stored, and the last one is close to the largest double. -/
theorem atLeastTwo_powerOfTen {k : Nat} (hlow : 0 < k) (hhigh : k ≤ 308) :
    AtLeastTwo (powerOfTen k) = true := by
  have hstored : ∀ k < 23, 0 < k → AtLeastTwo (powerOfTen k) = true := by decide +kernel
  have hlast : AtLeastTwo (powerOfTen 308) = true := by decide +kernel
  by_cases hsmall : k < 23
  · exact hstored k hsmall hlow
  · by_cases hlarge : k = 308
    · rw [hlarge]
      exact hlast
    · exact atLeastTwo_ofScientific (by omega) (by omega)

theorem isFinite_powerOfTen {k : Nat} (hk : k ≤ 308) : isFinite (powerOfTen k) = true := by
  cases k with
  | zero => exact isFinite_ofNat (n := 1) (by decide)
  | succ k => exact isFinite_of_atLeastTwo (atLeastTwo_powerOfTen (Nat.succ_pos k) hk)

theorem isFinite_scaleDown {x : Float} {k : Nat} (hk : 0 < k) (hx : isFinite x = true) :
    isFinite (scaleDown x k) = true := by
  fun_induction scaleDown x k with
  | case1 x k hle => exact isFinite_div hx (atLeastTwo_powerOfTen hk hle)
  | case2 x k _ _ => exact hx
  | case3 x k hlt _ ih =>
    exact ih (by omega) (isFinite_div hx (atLeastTwo_powerOfTen (by decide) le_rfl))

/-! ## Numerals -/

theorem isFinite_of_scale? {significand : Nat} {e : Int} {x : Float}
    (hs : significand < 2 ^ 64) (h : scale? significand e = some x) : isFinite x = true := by
  have hfinite := isFinite_ofNat hs
  cases e with
  | ofNat k =>
    rw [scale?] at h
    dsimp only at h
    split at h
    · rename_i hk
      split at h
      · cases h
      · rename_i hinf
        obtain rfl := Option.some.inj h
        exact (isFinite_or_isInf_mul hfinite (isFinite_powerOfTen hk)).resolve_right hinf
    · split at h
      · obtain rfl := Option.some.inj h
        exact hfinite
      · cases h
  | negSucc k =>
    obtain rfl := Option.some.inj h
    exact isFinite_scaleDown (by omega) hfinite

theorem collect_lt {s : Nat} (hs : s < significandLimit) (ds : List Nat) :
    (collect s ds).1 < significandLimit := by
  fun_induction collect s ds with
  | case1 s => exact hs
  | case2 s d ds next hnext ih => exact ih hnext
  | case3 s d ds next hnext => exact hs

theorem isFinite_of_readDecimal? {whole fraction : List Nat} {e : Int} {x : Float}
    (h : readDecimal? whole fraction e = some x) : isFinite x = true :=
  isFinite_of_scale? (collect_lt (collect_lt (by decide) whole) fraction) h

end Numeric

namespace Number

/-- The number is finite if it is a double. -/
def IsFinite : Number → Prop
  | real x => Numeric.isFinite x = true
  | _ => True

variable {minus : Bool} {whole fraction : List Nat} {cs left : List Char} {n : Number}

theorem isFinite_signed {x : Float} (h : Numeric.isFinite x = true) :
    (real (if minus then -x else x)).IsFinite := by
  cases minus with
  | true => exact Numeric.isFinite_neg h
  | false => exact h

theorem isFinite_of_ofInteger? (h : ofInteger? minus whole = some n) : n.IsFinite := by
  unfold ofInteger? at h
  dsimp only at h
  split at h
  · obtain rfl := Option.some.inj h
    trivial
  split at h
  · obtain rfl := Option.some.inj h
    trivial
  · obtain ⟨x, hx, rfl⟩ := Option.map_eq_some_iff.mp h
    exact isFinite_signed (Numeric.isFinite_of_readDecimal? hx)

theorem isFinite_of_ofDecimal? {e : Int} (h : ofDecimal? minus whole fraction e = some n) :
    n.IsFinite := by
  obtain ⟨x, hx, rfl⟩ := Option.map_eq_some_iff.mp h
  exact isFinite_signed (Numeric.isFinite_of_readDecimal? hx)

theorem isFinite_of_withExponent
    (h : readTail?.withExponent minus whole fraction cs = some (n, left)) : n.IsFinite := by
  unfold readTail?.withExponent at h
  split at h
  · obtain ⟨p, -, h⟩ := Option.bind_eq_some_iff.mp h
    obtain ⟨m, hm, h⟩ := Option.bind_eq_some_iff.mp h
    obtain ⟨rfl, -⟩ := Prod.mk.inj (Option.some.inj h)
    exact isFinite_of_ofDecimal? hm
  · obtain ⟨p, -, h⟩ := Option.bind_eq_some_iff.mp h
    obtain ⟨m, hm, h⟩ := Option.bind_eq_some_iff.mp h
    obtain ⟨rfl, -⟩ := Prod.mk.inj (Option.some.inj h)
    exact isFinite_of_ofDecimal? hm
  · obtain ⟨m, hm, h⟩ := Option.map_eq_some_iff.mp h
    obtain ⟨rfl, -⟩ := Prod.mk.inj h
    exact isFinite_of_ofDecimal? hm

theorem isFinite_of_readTail? (h : readTail? minus whole cs = some (n, left)) : n.IsFinite := by
  unfold readTail? at h
  split at h
  · split at h
    · cases h
    · exact isFinite_of_withExponent h
  · exact isFinite_of_withExponent h
  · exact isFinite_of_withExponent h
  · obtain ⟨m, hm, h⟩ := Option.map_eq_some_iff.mp h
    obtain ⟨rfl, -⟩ := Prod.mk.inj h
    exact isFinite_of_ofInteger? hm

theorem isFinite_of_read? (h : read? cs = some (n, left)) : n.IsFinite := by
  unfold read? at h
  dsimp only at h
  split at h
  · cases h
  · cases h
  · exact isFinite_of_readTail? h

end Number

namespace Json

/-! ## Values -/

/-- The numbers in the lists of the value are finite. -/
inductive IsFinite : Json → Prop where
  | null : IsFinite null
  | bool (b : Bool) : IsFinite (bool b)
  | string (s : String) : IsFinite (string s)
  | number {n : Number} (h : n.IsFinite) : IsFinite (number n)
  | array {items : List Json} (h : ∀ v ∈ items, IsFinite v) : IsFinite (array items)
  | object (members : List (String × Json)) : IsFinite (object members)

theorem IsFinite.real? {v : Json} (h : v.IsFinite) {x : Float} (hx : v.real? = some x) :
    Numeric.isFinite x = true := by
  cases h with
  | @number n hn =>
    cases n with
    | natural n =>
      obtain rfl := Option.some.inj hx
      exact Numeric.isFinite_ofNat n.toNat_lt_size
    | negative n =>
      obtain rfl := Option.some.inj hx
      exact Numeric.isFinite_neg (Numeric.isFinite_ofNat n.toNat_lt_size)
    | real y =>
      obtain rfl := Option.some.inj hx
      exact hn
  | _ => cases hx

theorem exists_object_of_readMembers? {fuel depth : Nat} {acc : List (String × Json)}
    {cs left : List Char} {v : Json} (h : readMembers? fuel depth acc cs = some (v, left)) :
    ∃ members, v = object members := by
  induction fuel generalizing acc cs with
  | zero => cases h
  | succ fuel ih =>
    unfold readMembers? at h
    split at h
    case h_2 => cases h
    split at h
    · cases h
    split at h
    case h_2 => cases h
    split at h
    · cases h
    split at h
    · exact ih h
    · exact ⟨_, (Prod.mk.inj (Option.some.inj h)).1.symm⟩
    · cases h

/-- One more item keeps the items read so far finite. -/
theorem isFinite_of_readItems? {fuel depth : Nat}
    (hvalue : ∀ {fuel' cs v left}, fuel' < fuel → readValue? fuel' depth cs = some (v, left) →
      v.IsFinite) {acc : List Json} (hacc : ∀ v ∈ acc, v.IsFinite) {cs left : List Char} {v : Json}
    (h : readItems? fuel depth acc cs = some (v, left)) : v.IsFinite := by
  induction fuel generalizing acc cs with
  | zero => cases h
  | succ fuel ih =>
    unfold readItems? at h
    split at h
    · cases h
    · rename_i item rest hitem
      have hnext : ∀ v ∈ item :: acc, v.IsFinite :=
        List.forall_mem_cons.mpr ⟨hvalue (Nat.lt_succ_self fuel) hitem, hacc⟩
      split at h
      · exact ih (fun hlt => hvalue (Nat.lt_succ_of_lt hlt)) hnext h
      · obtain ⟨rfl, -⟩ := Prod.mk.inj (Option.some.inj h)
        exact .array fun v hv => hnext v (List.mem_reverse.mp hv)
      · cases h

theorem isFinite_of_readValue? {fuel depth : Nat} {cs left : List Char} {v : Json}
    (h : readValue? fuel depth cs = some (v, left)) : v.IsFinite := by
  induction fuel using Nat.strong_induction_on generalizing depth cs left v with
  | _ fuel ih =>
    cases fuel with
    | zero => cases h
    | succ fuel =>
      unfold readValue? at h
      split at h
      · obtain ⟨rfl, -⟩ := Prod.mk.inj (Option.some.inj h)
        exact .null
      · obtain ⟨rfl, -⟩ := Prod.mk.inj (Option.some.inj h)
        exact .bool true
      · obtain ⟨rfl, -⟩ := Prod.mk.inj (Option.some.inj h)
        exact .bool false
      · obtain ⟨p, -, h⟩ := Option.map_eq_some_iff.mp h
        obtain ⟨rfl, -⟩ := Prod.mk.inj h
        exact .string p.1
      · split at h
        · cases h
        split at h
        · obtain ⟨rfl, -⟩ := Prod.mk.inj (Option.some.inj h)
          exact .array (by simp)
        · exact isFinite_of_readItems? (fun hlt hread => ih _ (Nat.lt_succ_of_lt hlt) hread)
            (by simp) h
      · split at h
        · cases h
        split at h
        · obtain ⟨rfl, -⟩ := Prod.mk.inj (Option.some.inj h)
          exact .object []
        · obtain ⟨members, rfl⟩ := exists_object_of_readMembers? h
          exact .object members
      · obtain ⟨p, hp, h⟩ := Option.map_eq_some_iff.mp h
        obtain ⟨rfl, -⟩ := Prod.mk.inj h
        exact .number (Number.isFinite_of_read? hp)

/-- The fields of a line have finite numbers only. -/
theorem isFinite_of_readItemsOf? {cs : List Char} {fields : List Json}
    (h : readItemsOf? cs = some fields) : ∀ v ∈ fields, v.IsFinite := by
  unfold readItemsOf? read? at h
  split at h
  · rename_i items hitems
    obtain rfl := Option.some.inj h
    split at hitems
    · rename_i v left hvalue
      split at hitems
      · obtain rfl := Option.some.inj hitems
        cases isFinite_of_readValue? hvalue with
        | array hitems => exact hitems
      · cases hitems
    · cases hitems
  · cases h

end Json

end RunLog
