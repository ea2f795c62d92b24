import Mathlib
import RunLog.Proofs.Numeral

/-! # How large a double can get

An operation on doubles unpacks its operands into mantissas and exponents, computes with these,
rounds, and packs the outcome. The lemmas here follow how far the leading digit moves on the way, so
that what is small enough to begin with stays finite. -/

namespace RunLog.Numeric

open Float.Model Float.Model.UnpackedFloat

/-- Zero, or a number below `2 ^ t`. -/
inductive Below (t : Int) : UnpackedFloat → Prop where
  | zero (s : Sign) : Below t (.zero s)
  | finite {s : Sign} {m : Nat} {e : Int} {hm : 0 < m} (h : totalExponent m e ≤ t) :
      Below t (.finite s m e hm)

/-- Zero, or a number whose last digit stands for at most `2 ^ b`. -/
inductive UlpAtMost (b : Int) : UnpackedFloat → Prop where
  | zero (s : Sign) : UlpAtMost b (.zero s)
  | finite {s : Sign} {m : Nat} {e : Int} {hm : 0 < m} (h : e ≤ b) :
      UlpAtMost b (.finite s m e hm)

namespace UlpAtMost

variable {b c : Int} {f : UnpackedFloat}

theorem isFinite (h : UlpAtMost b f) : f.isFinite = true := by
  cases h <;> rfl

theorem mono (h : UlpAtMost b f) (hbc : b ≤ c) : UlpAtMost c f := by
  cases h with
  | zero s => exact .zero s
  | finite h => exact .finite (h.trans hbc)

theorem neg (h : UlpAtMost b f) : UlpAtMost b f.neg := by
  cases h with
  | zero s => exact .zero (-s)
  | finite h => exact .finite h

end UlpAtMost

/-! ## Rounding -/

theorem log2_le {n k : Nat} (h : n < 2 ^ k) : n.log2 ≤ k - 1 := by
  by_cases hn : n = 0
  · simp [hn]
  · exact Nat.le_sub_one_of_lt ((Nat.log2_lt hn).mpr h)

theorem div_lt_two_pow {m n k j : Nat} (hm : m < 2 ^ k) (hn : 2 ^ j ≤ n) : m / n < 2 ^ (k - j) := by
  rw [Nat.div_lt_iff_lt_mul (lt_of_lt_of_le (Nat.two_pow_pos j) hn)]
  calc m < 2 ^ k := hm
    _ ≤ 2 ^ (k - j + j) := Nat.pow_le_pow_right (by decide) (by omega)
    _ = 2 ^ (k - j) * 2 ^ j := Nat.pow_add 2 (k - j) j
    _ ≤ 2 ^ (k - j) * n := Nat.mul_le_mul_left _ hn

theorem shiftLeft_lt {m k : Nat} (hm : m < 2 ^ k) (j : Nat) : m <<< j < 2 ^ (k + j) := by
  rw [Nat.shiftLeft_eq, Nat.pow_add]
  exact Nat.mul_lt_mul_of_pos_right hm (Nat.two_pow_pos j)

theorem mantissa_shiftRight (em : ExtendedMantissa) (k : Nat) :
    (em >>> k).mantissa = em.mantissa / 2 ^ k := by
  induction k with
  | zero => exact (Nat.div_one _).symm
  | succ k ih =>
    change (em >>> k).mantissa / 2 = _
    rw [ih, Nat.div_div_eq_div_mul, Nat.pow_succ]

theorem roundedMantissa_le (em : ExtendedMantissa) : em.roundedMantissa ≤ em.mantissa + 1 := by
  obtain ⟨m, r, s⟩ := em
  cases r <;> cases s <;> simp [ExtendedMantissa.roundedMantissa, ExtendedMantissa.accuracy,
    Accuracy.roundToNearestEven]
  omega

theorem mantissa_ofMantissaAndAccuracy (m : Nat) (a : Accuracy) :
    (ExtendedMantissa.ofMantissaAndAccuracy m a).mantissa = m := by
  cases a with
  | exact => rfl
  | inexact o => cases o <;> rfl

theorem targetExponent_eq (t : Int) :
    Format.binary64.targetExponent t = max (t - 53) (-1074) := rfl

/-- Shifting a mantissa to the right and rounding it makes it at most one digit longer than what
the shift leaves. -/
theorem log2_rounded_le (m k : Nat) (a : Accuracy) :
    (ExtendedMantissa.ofMantissaAndAccuracy m a >>> k).roundedMantissa.log2 ≤ m.log2 - k + 1 := by
  have hshift : m / 2 ^ k < 2 ^ (m.log2 + 1 - k) := div_lt_two_pow Nat.lt_log2_self le_rfl
  have hround := roundedMantissa_le (ExtendedMantissa.ofMantissaAndAccuracy m a >>> k)
  rw [mantissa_shiftRight, mantissa_ofMantissaAndAccuracy] at hround
  refine log2_le (k := m.log2 - k + 2) ?_
  calc _ ≤ m / 2 ^ k + 1 := hround
    _ ≤ 2 ^ (m.log2 + 1 - k) := hshift
    _ < 2 ^ (m.log2 - k + 2) := Nat.pow_lt_pow_right (by decide) (by omega)

/-- Rounding moves the leading digit by at most one place. -/
theorem ulpAtMost_roundWithAccuracy {b e : Int} {m : Nat} (hb : -1074 ≤ b) (he : e ≤ b)
    (ht : totalExponent m e < b + 53) (s : Sign) (a : Accuracy) :
    UlpAtMost b (roundWithAccuracy Format.binary64 s m e a) := by
  have hrounded := log2_rounded_le m
    (Format.binary64.targetExponent (totalExponent m e) - e).toNat a
  unfold roundWithAccuracy
  dsimp only [shiftToTargetExponent, shiftToExponent]
  split
  · exact .zero s
  · refine .finite ?_
    simp only [targetExponent_eq, totalExponent] at ht hrounded ⊢
    omega

theorem le_div_two_pow {m k j : Nat} (hm : 2 ^ (k + j) ≤ m) : 2 ^ k ≤ m / 2 ^ j := by
  rw [Nat.le_div_iff_mul_le (Nat.two_pow_pos j), ← Nat.pow_add]
  exact hm

theorem le_roundedMantissa (em : ExtendedMantissa) : em.mantissa ≤ em.roundedMantissa := by
  obtain ⟨m, r, s⟩ := em
  cases r <;> cases s <;> simp [ExtendedMantissa.roundedMantissa, ExtendedMantissa.accuracy,
    Accuracy.roundToNearestEven]

/-- A mantissa that has enough digits keeps its leading one. -/
theorem exists_roundWithAccuracy {m : Nat} {e : Int} (hm : 2 ^ 52 ≤ m) (he : -1074 ≤ e) (s : Sign)
    (a : Accuracy) : ∃ m' e' h, roundWithAccuracy Format.binary64 s m e a = .finite s m' e' h ∧
      m'.log2 = 52 ∧ totalExponent m e ≤ e' + 53 := by
  have hne : m ≠ 0 := by omega
  have hlog : 52 ≤ m.log2 := (Nat.le_log2 hne).mpr hm
  have hshift : (Format.binary64.targetExponent (totalExponent m e) - e).toNat = m.log2 - 52 := by
    rw [targetExponent_eq, totalExponent]
    omega
  unfold roundWithAccuracy
  dsimp only [shiftToTargetExponent, shiftToExponent]
  rw [hshift]
  generalize hr : (ExtendedMantissa.ofMantissaAndAccuracy m a >>> (m.log2 - 52)).roundedMantissa = r
  have hlow : 2 ^ 52 ≤ r := by
    have hround := le_roundedMantissa (ExtendedMantissa.ofMantissaAndAccuracy m a >>> (m.log2 - 52))
    rw [hr, mantissa_shiftRight, mantissa_ofMantissaAndAccuracy] at hround
    refine le_trans (le_div_two_pow ?_) hround
    rw [show 52 + (m.log2 - 52) = m.log2 by omega]
    exact Nat.log2_self_le hne
  have hrlog : 52 ≤ r.log2 := (Nat.le_log2 (by omega)).mpr hlow
  have hagain : (Format.binary64.targetExponent (totalExponent r (e + (m.log2 - 52 : Nat))) -
      (e + (m.log2 - 52 : Nat))).toNat = r.log2 - 52 := by
    rw [targetExponent_eq, totalExponent]
    omega
  rw [hagain, mantissa_shiftRight, mantissa_ofMantissaAndAccuracy]
  have hge : 2 ^ 52 ≤ r / 2 ^ (r.log2 - 52) := by
    apply le_div_two_pow
    rw [show 52 + (r.log2 - 52) = r.log2 by omega]
    exact Nat.log2_self_le (by omega)
  have hlt : r / 2 ^ (r.log2 - 52) < 2 ^ 53 := by
    have hdiv := div_lt_two_pow (Nat.lt_log2_self (n := r)) (le_refl (2 ^ (r.log2 - 52)))
    rwa [show r.log2 + 1 - (r.log2 - 52) = 53 by omega] at hdiv
  rw [dif_neg (by omega)]
  refine ⟨_, _, _, rfl, (Nat.log2_eq_iff (by omega)).mpr ⟨hge, hlt⟩, ?_⟩
  rw [totalExponent]
  omega

/-! ## Packing -/

theorem pack_finite (s : Sign) (m : Nat) (e : Int) (hm : 0 < m) :
    UnpackedFloat.pack Format.binary64 (.finite s m e hm) =
      if 2048 ≤ (e + 1075).toNat + 1 then packedInfinity Format.binary64 s
      else if m.log2 + 1 = 53 then
        packComponents Format.binary64 s (BitVec.ofNat 11 (e + 1075).toNat) (BitVec.ofNat 52 m)
      else packComponents Format.binary64 s 0#11 (BitVec.ofNat 52 m) := by
  have hbias : e + (Format.exponentBias Format.binary64 : Nat) +
      (Format.binary64.mantissaBitsWithoutImplicit : Nat) = e + 1075 := by
    rw [Int.add_assoc]
    rfl
  unfold UnpackedFloat.pack
  dsimp only
  rw [hbias]
  rfl

/-- Bits that do not stand for infinity or an undefined value stand for a number of the size that
their exponent gives. -/
theorem ulpAtMost_unpack {bits : BitVec 64} (h : @unpackExponent Format.binary64 bits ≠ -1#11) :
    UlpAtMost (max ((@unpackExponent Format.binary64 bits).toNat - 1075) (-1074))
      (UnpackedFloat.unpack Format.binary64 bits) := by
  have hbias : (Format.exponentBias Format.binary64 : Int) = 1023 := rfl
  unfold UnpackedFloat.unpack
  dsimp only
  rw [if_neg h]
  split
  · rename_i hzero
    split
    · exact .zero _
    · have hnat : (0#11).toNat = 0 := rfl
      rw [hbias, hzero]
      exact .finite (by omega)
  · rw [hbias]
    exact .finite (by omega)

/-- The bits hold 53 digits of a number, the first of which may be implicit. -/
theorem below_of_ulpAtMost {b : Int} {bits : BitVec 64}
    (h : UlpAtMost b (UnpackedFloat.unpack Format.binary64 bits)) :
    Below (b + 53) (UnpackedFloat.unpack Format.binary64 bits) := by
  unfold UnpackedFloat.unpack at h ⊢
  dsimp only at h ⊢
  split at h
  · split at h <;> cases h
  rename_i hones
  rw [if_neg hones]
  split at h
  · rename_i hzero
    rw [if_pos hzero]
    split at h
    · rename_i hmantissa
      rw [dif_pos hmantissa]
      exact .zero _
    · rename_i hmantissa
      have hlog := log2_le (k := 52) (@unpackMantissa Format.binary64 bits).isLt
      rw [dif_neg hmantissa]
      cases h with
      | finite h => exact .finite (by rw [totalExponent]; omega)
  · rename_i hzero
    have hlog := log2_le (k := 53) (1#1 ++ @unpackMantissa Format.binary64 bits).isLt
    rw [if_neg hzero]
    cases h with
    | finite h => exact .finite (by rw [totalExponent]; omega)

/-- A number that is not too large for its format is packed as it is, or as a smaller one. -/
theorem ulpAtMost_unpack_pack {b : Int} {f : UnpackedFloat} (h : UlpAtMost b f) (hb : -1074 ≤ b)
    (hmax : b ≤ 971) :
    UlpAtMost b (UnpackedFloat.unpack Format.binary64 (UnpackedFloat.pack Format.binary64 f)) := by
  have hcomponents : ∀ s (exponent : BitVec 11) (mantissa : BitVec 52), exponent ≠ -1#11 →
      (exponent.toNat : Int) ≤ max (b + 1075) 0 →
      UlpAtMost b (UnpackedFloat.unpack Format.binary64
        (packComponents Format.binary64 s exponent mantissa)) := by
    intro s exponent mantissa hne hexponent
    have hunpack : unpackExponent (packComponents Format.binary64 s exponent mantissa) = exponent :=
      unpackExponent_packComponents ..
    have hulp := ulpAtMost_unpack (hunpack ▸ hne)
    rw [hunpack] at hulp
    exact hulp.mono (by omega)
  cases h with
  | zero s => exact hcomponents s 0 0 (by decide) (by simp)
  | @finite s m e hm he =>
    have hbiased : ((e + 1075).toNat : Int) ≤ max (b + 1075) 0 := by omega
    have hlt : (e + 1075).toNat < 2047 := by omega
    rw [pack_finite, if_neg (by omega)]
    split
    · have hnat : (BitVec.ofNat 11 (e + 1075).toNat).toNat = (e + 1075).toNat :=
        Nat.mod_eq_of_lt (by omega)
      apply hcomponents
      · intro hones
        rw [hones] at hnat
        exact absurd hnat.symm (Nat.ne_of_lt hlt)
      · rw [hnat]
        exact hbiased
    · exact hcomponents s 0 _ (by decide) (by simp)

/-- Whatever is packed is finite or infinite, unless it is undefined. -/
theorem isFinite_or_isInf_unpack_pack {f : UnpackedFloat} (h : f ≠ .notANumber) :
    let repacked := UnpackedFloat.unpack Format.binary64 (UnpackedFloat.pack Format.binary64 f)
    repacked.isFinite = true ∨ repacked.isInf = true := by
  have hinfinity : ∀ s, (UnpackedFloat.unpack Format.binary64
      (packedInfinity Format.binary64 s)).isInf = true := by
    rintro (_ | _) <;> rfl
  cases f with
  | zero s =>
    exact .inl (ulpAtMost_unpack_pack (b := 0) (.zero s) (by decide) (by decide)).isFinite
  | infinity s => exact .inr (hinfinity s)
  | notANumber => exact absurd rfl h
  | finite s m e hm =>
    by_cases he : e ≤ 971
    · exact .inl (ulpAtMost_unpack_pack (.finite he) (by decide) (by decide)).isFinite
    · rw [pack_finite, if_pos (by omega)]
      exact .inr (hinfinity s)

/-! ## Doubles -/

/-- The double is finite, and its last digit stands for at most `2 ^ b`. -/
def FloatUlp (b : Int) (x : Float) : Prop := UlpAtMost b x.toModel.unpack

theorem FloatUlp.isFinite {b : Int} {x : Float} (h : FloatUlp b x) :
    Numeric.isFinite x = true := by
  rw [isFinite_eq]
  exact UlpAtMost.isFinite h

/-- The last digit of a finite double stands for at most `2 ^ 971`. -/
theorem floatUlp_of_isFinite {x : Float} (h : Numeric.isFinite x = true) : FloatUlp 971 x := by
  rw [isFinite_eq] at h
  have hones : @unpackExponent Format.binary64 x.toModel.toBits.toBitVec ≠ -1#11 := by
    intro hones
    change (UnpackedFloat.unpack Format.binary64 x.toModel.toBits.toBitVec).isFinite = true at h
    unfold UnpackedFloat.unpack at h
    dsimp only at h
    rw [if_pos hones] at h
    split at h <;> cases h
  have hlt : (@unpackExponent Format.binary64 x.toModel.toBits.toBitVec).toNat < 2048 :=
    (@unpackExponent Format.binary64 x.toModel.toBits.toBitVec).isLt
  have hne : (@unpackExponent Format.binary64 x.toModel.toBits.toBitVec).toNat ≠ 2047 :=
    fun heq => hones (BitVec.eq_of_toNat_eq heq)
  exact (ulpAtMost_unpack hones).mono (by omega)

theorem isFinite_neg {x : Float} (h : Numeric.isFinite x = true) :
    Numeric.isFinite (-x) = true := by
  have hulp : FloatUlp 971 (-x) :=
    ulpAtMost_unpack_pack (floatUlp_of_isFinite h).neg (by decide) (by decide)
  exact hulp.isFinite

/-- A product is undefined only if a factor is infinite or undefined. -/
theorem isFinite_or_isInf_mul {x y : Float} (hx : Numeric.isFinite x = true)
    (hy : Numeric.isFinite y = true) :
    Numeric.isFinite (x * y) = true ∨ (x * y).isInf = true := by
  have hulpx : UlpAtMost 971 x.toModel.unpack := floatUlp_of_isFinite hx
  have hulpy : UlpAtMost 971 y.toModel.unpack := floatUlp_of_isFinite hy
  rw [isFinite_eq]
  refine isFinite_or_isInf_unpack_pack
    (f := UnpackedFloat.mul Format.binary64 x.toModel.unpack y.toModel.unpack) ?_
  generalize x.toModel.unpack = f at hulpx
  generalize y.toModel.unpack = g at hulpy
  intro hmul
  cases hulpx <;> cases hulpy <;> unfold UnpackedFloat.mul at hmul
  · cases hmul
  · cases hmul
  · cases hmul
  · unfold roundWithAccuracy at hmul
    dsimp only at hmul
    split at hmul <;> cases hmul

theorem totalExponent_mul_le (m n : Nat) (e f : Int) :
    totalExponent (m * n) (e + f) ≤ totalExponent m e + totalExponent n f := by
  have hlt : m * n < 2 ^ (m.log2 + 1 + (n.log2 + 1)) := by
    rw [Nat.pow_add]
    exact Nat.mul_lt_mul'' Nat.lt_log2_self Nat.lt_log2_self
  have hlog := log2_le hlt
  simp only [totalExponent]
  omega

/-- The digits of a product are those of the factors together. -/
theorem floatUlp_mul {b c : Int} {x y : Float} (hx : FloatUlp b x) (hy : FloatUlp c y)
    (hlow : -1074 ≤ b + c + 54) (hhigh : b + c + 54 ≤ 971) : FloatUlp (b + c + 54) (x * y) := by
  have hbx : Below (b + 53) x.toModel.unpack := below_of_ulpAtMost hx
  have hby : Below (c + 53) y.toModel.unpack := below_of_ulpAtMost hy
  refine ulpAtMost_unpack_pack
    (f := UnpackedFloat.mul Format.binary64 x.toModel.unpack y.toModel.unpack) ?_ hlow hhigh
  unfold FloatUlp at hx hy
  generalize x.toModel.unpack = f at hx hbx
  generalize y.toModel.unpack = g at hy hby
  cases hx with
  | zero s => cases hy <;> exact .zero _
  | @finite s m e _ he =>
    cases hy with
    | zero t => exact .zero _
    | @finite t n d _ hd =>
      obtain _ | hbx := hbx
      obtain _ | hby := hby
      have htotal := totalExponent_mul_le m n e d
      exact ulpAtMost_roundWithAccuracy hlow (by omega) (by omega) _ _

/-- The double is finite, and its magnitude at least two. -/
def AtLeastTwo (x : Float) : Bool :=
  match x.toModel.unpack with
  | .finite _ m e _ => decide (2 ≤ totalExponent m e)
  | _ => false

theorem isFinite_of_atLeastTwo {x : Float} (h : AtLeastTwo x = true) :
    Numeric.isFinite x = true := by
  rw [isFinite_eq]
  change x.toModel.unpack.isFinite = true
  unfold AtLeastTwo at h
  split at h
  · rename_i hx
    rw [hx]
    rfl
  · cases h

/-- The quotient of two mantissas, and where its digits are. -/
theorem ulpAtMost_div {s t : Sign} {m n : Nat} {e d : Int} {hm : 0 < m} {hn : 0 < n}
    (hx : totalExponent m e ≤ 1024) (hy : 2 ≤ totalExponent n d) :
    UlpAtMost 971 (UnpackedFloat.div Format.binary64 (.finite s m e hm) (.finite t n d hn)) := by
  unfold UnpackedFloat.div divCore
  dsimp only
  rw [targetExponent_eq]
  generalize hscale : min (e - d) (max (totalExponent m e - totalExponent n d - 53) (-1074)) = scale
  have hlog := log2_le (div_lt_two_pow
    (shiftLeft_lt (Nat.lt_log2_self (n := m)) (e - d - scale).toNat)
    (Nat.log2_self_le (Nat.ne_of_gt hn)))
  apply ulpAtMost_roundWithAccuracy (by decide)
  · omega
  · simp only [totalExponent] at hx hy hscale ⊢
    omega

theorem isFinite_div {x y : Float} (hx : Numeric.isFinite x = true) (hy : AtLeastTwo y = true) :
    Numeric.isFinite (x / y) = true := by
  have hulp : UlpAtMost 971 x.toModel.unpack := floatUlp_of_isFinite hx
  have hbelow : Below 1024 x.toModel.unpack := below_of_ulpAtMost hulp
  have hdiv : UlpAtMost 971
      (UnpackedFloat.div Format.binary64 x.toModel.unpack y.toModel.unpack) := by
    unfold AtLeastTwo at hy
    split at hy
    · rename_i t n d hn hunpack
      rw [hunpack]
      generalize x.toModel.unpack = f at hbelow
      cases hbelow with
      | zero s => exact .zero _
      | finite h => exact ulpAtMost_div h (of_decide_eq_true hy)
    · cases hy
  have hquotient : FloatUlp 971 (x / y) := ulpAtMost_unpack_pack hdiv (by decide) (by decide)
  exact hquotient.isFinite

/-! ## Natural numbers -/

theorem ulpAtMost_round {n : Nat} (hn : n < 2 ^ 64) (s : Sign) :
    UlpAtMost 12 (UnpackedFloat.round Format.binary64 s n 0) := by
  unfold UnpackedFloat.round decreaseExponent
  dsimp only
  generalize (0 - Format.binary64.targetExponent (totalExponent n 0)).toNat = shift
  have hlog := log2_le (shiftLeft_lt hn shift)
  apply ulpAtMost_roundWithAccuracy (by decide)
  · omega
  · rw [totalExponent]
    omega

theorem floatUlp_toFloat (n : UInt64) : FloatUlp 12 n.toFloat := by
  have hn : n.toNat < 2 ^ 64 := n.toNat_lt_size
  refine ulpAtMost_unpack_pack (f := UnpackedFloat.ofUInt64 Format.binary64 n) ?_ (by decide)
    (by decide)
  unfold UnpackedFloat.ofUInt64 UnpackedFloat.ofNat UnpackedFloat.ofInt UnpackedFloat.normalize
  split
  · exact ulpAtMost_round (by omega) _
  · exact .zero _
  · exact ulpAtMost_round (by omega) _

theorem ulpAtMost_ofScientific {n : Nat} (hn : n < 2 ^ 64) :
    UlpAtMost 12 (UnpackedFloat.ofScientific Format.binary64 n (.ofNat 0)) := by
  unfold UnpackedFloat.ofScientific
  split
  · exact .zero _
  split
  · rename_i hlarge
    exact absurd hlarge (by decide)
  split
  · exact .zero _
  rw [if_pos (by decide)]
  have hbits : Format.binary64.mantissaBits = 53 := rfl
  have hpower : 10 ^ (Int.ofNat 0).toNat = 1 := rfl
  have hlog := log2_le (shiftLeft_lt hn 53)
  dsimp only [UnpackedFloat.mul]
  rw [hbits, hpower, Nat.mul_one]
  apply ulpAtMost_roundWithAccuracy (by decide)
  · decide
  · rw [totalExponent]
    omega

/-- Natural numbers of a machine word are finite as doubles. Those below `2 ^ 53` are converted and
multiplied by one, the others are rounded by themselves. -/
theorem isFinite_ofNat {n : Nat} (hn : n < 2 ^ 64) : Numeric.isFinite (Float.ofNat n) = true := by
  change Numeric.isFinite (Float.ofScientific n false 0) = true
  unfold Float.ofScientific
  split
  · have hone : FloatUlp (-52) (Float.exactlyRepresentablePowersOfTen[0]) :=
      (ulpAtMost_unpack (by decide +kernel)).mono (by decide +kernel)
    exact (floatUlp_mul (floatUlp_toFloat n.toUInt64) hone (by decide) (by decide)).isFinite
  · have hulp : FloatUlp 12 (Float.ofModel (.ofScientific n (.ofNat 0))) :=
      ulpAtMost_unpack_pack (ulpAtMost_ofScientific hn) (by decide) (by decide)
    exact hulp.isFinite

/-! ## Powers of ten -/

theorem atLeastTwo_pack {s : Sign} {m : Nat} {e : Int} {hm : 0 < m} (hlog : m.log2 = 52)
    (hlow : 1 ≤ e) (hhigh : e ≤ 971) :
    AtLeastTwo (Float.ofModel (Float.Model.pack (.finite s m e hm))) = true := by
  have hexponent : (BitVec.ofNat 11 (e + 1075).toNat).toNat = (e + 1075).toNat :=
    Nat.mod_eq_of_lt (by omega)
  have hones : BitVec.ofNat 11 (e + 1075).toNat ≠ -1#11 := by
    intro hones
    rw [hones] at hexponent
    exact absurd hexponent (by change 2047 ≠ _; omega)
  have hzero : BitVec.ofNat 11 (e + 1075).toNat ≠ 0#11 := by
    intro hzero
    rw [hzero] at hexponent
    exact absurd hexponent (by change 0 ≠ _; omega)
  have hunpack : (Float.Model.pack (.finite s m e hm)).unpack =
      UnpackedFloat.unpack Format.binary64 (packComponents Format.binary64 s
        (BitVec.ofNat 11 (e + 1075).toNat) (BitVec.ofNat 52 m)) := by
    change UnpackedFloat.unpack Format.binary64 (UnpackedFloat.pack Format.binary64 _) = _
    rw [pack_finite, if_neg (by omega), if_pos (by omega)]
  unfold AtLeastTwo
  dsimp only
  rw [hunpack]
  unfold UnpackedFloat.unpack
  dsimp only
  rw [if_neg (by rwa [unpackExponent_packComponents]),
    if_neg (by rwa [unpackExponent_packComponents])]
  have hbias : (Format.exponentBias Format.binary64 : Int) = 1023 := rfl
  apply decide_eq_true
  rw [totalExponent, unpackExponent_packComponents, hexponent, hbias]
  omega

theorem ofScientific_power {k : Nat} (hhigh : k ≤ 308) :
    UnpackedFloat.ofScientific Format.binary64 1 (Int.ofNat k) =
      roundWithAccuracy Format.binary64 .positive (1 <<< 53 * 10 ^ k) (-53 + 0) .exact := by
  have hrange : (2 : Int) ^ Format.binary64.exponentBits = 2048 := rfl
  have hlog : (Nat.log2 1 : Int) = 0 := rfl
  have hk : Int.ofNat k = (k : Int) := rfl
  unfold UnpackedFloat.ofScientific
  rw [dif_neg (by decide), hrange, hlog, if_neg (by omega), if_neg (by omega), if_pos (by omega)]
  rfl

/-- A power of ten beyond those that are stored is rounded from its digits. -/
theorem ofScientific_eq {k : Nat} (hlow : 23 ≤ k) (hhigh : k ≤ 308) :
    Float.ofScientific 1 false k = Float.ofModel (Float.Model.pack
      (roundWithAccuracy Format.binary64 .positive (1 <<< 53 * 10 ^ k) (-53 + 0) .exact)) := by
  have hnot : ¬ (1 < 2 ^ 53 ∧ k ≤ 22) := by omega
  rw [← ofScientific_power hhigh]
  unfold Float.ofScientific
  split
  · rename_i h
    exact absurd h hnot
  · rfl

/-- Powers of ten from the 23rd have their last digit before the point. -/
theorem atLeastTwo_ofScientific {k : Nat} (hlow : 23 ≤ k) (hhigh : k ≤ 307) :
    AtLeastTwo (Float.ofScientific 1 false k) = true := by
  have hmin : 2 ^ 76 ≤ 10 ^ k :=
    calc 2 ^ 76 ≤ 10 ^ 23 := by decide
      _ ≤ 10 ^ k := Nat.pow_le_pow_right (by decide) hlow
  have hmax : 10 ^ k < 2 ^ 1020 :=
    calc 10 ^ k ≤ 10 ^ 307 := Nat.pow_le_pow_right (by decide) hhigh
      _ < 2 ^ 1020 := by decide +kernel
  have hloghigh := log2_le (shiftLeft_lt hmax 53)
  clear hmax
  rw [ofScientific_eq hlow (by omega), Nat.one_shiftLeft, Nat.mul_comm, ← Nat.shiftLeft_eq]
  generalize 10 ^ k = n at hmin hloghigh
  have hlarge : 2 ^ 129 ≤ n <<< 53 := by
    rw [Nat.shiftLeft_eq]
    omega
  have hloglow : 129 ≤ (n <<< 53).log2 := (Nat.le_log2 (by omega)).mpr hlarge
  obtain ⟨m, e, hm, hround, hmlog, htotal⟩ := exists_roundWithAccuracy (m := n <<< 53)
    (e := -53 + 0) (by omega) (by decide) .positive .exact
  have hulp : UlpAtMost 971
      (roundWithAccuracy Format.binary64 .positive (n <<< 53) (-53 + 0) .exact) := by
    apply ulpAtMost_roundWithAccuracy (by decide) (by decide)
    rw [totalExponent]
    omega
  rw [hround] at hulp ⊢
  rw [totalExponent] at htotal
  cases hulp with
  | finite he => exact atLeastTwo_pack hmlog (by omega) he

end RunLog.Numeric
