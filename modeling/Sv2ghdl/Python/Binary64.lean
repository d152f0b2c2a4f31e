import Mathlib

/-!
# Exact binary64 arithmetic

The core library computes `Float` operations on a mantissa and an exponent and rounds the result.
This file has the cases where nothing is rounded: a number that binary64 holds comes back as it is,
however its mantissa and exponent were scaled on the way.
-/

namespace Python.Binary64

open Float.Model Float.Model.UnpackedFloat

/-- The mantissa and exponent of a finite nonzero binary64 number. -/
structure Canonical (m : Nat) (e : Int) : Prop where
  pos : 0 < m
  lt : m < 2 ^ 53
  low : -1074 ≤ e
  high : e ≤ 971
  normal : 2 ^ 52 ≤ m ∨ e = -1074

theorem mantissaBits_eq : Format.binary64.mantissaBits = 53 := rfl

theorem targetExponent_eq (t : Int) : Format.binary64.targetExponent t = max (t - 53) (-1074) := rfl

theorem toNat_implicit_bit (v : BitVec 52) : (1#1 ++ v).toNat = 2 ^ 52 + v.toNat := by
  rw [BitVec.toNat_append]
  have := Nat.two_pow_add_eq_or_of_lt v.isLt 1
  simp at this ⊢
  exact this.symm

/-- What a float unpacks to is canonical. -/
theorem canonical_of_unpack {x : Float} {s : Sign} {m : Nat} {e : Int} {h : 0 < m}
    (hx : x.toModel.unpack = .finite s m e h) : Canonical m e := by
  unfold Float.Model.unpack UnpackedFloat.unpack at hx
  extract_lets mvec evec exponent svec sign at hx
  have hm := mvec.isLt
  have he := evec.isLt
  have hbias : Format.binary64.exponentBias = 1023 := rfl
  split_ifs at hx with hall hinf hzero hsub
  · -- subnormal
    obtain ⟨rfl, hm', he'⟩ : sign = s ∧ mvec.toNat = m ∧ exponent + 1 = e := by simpa using hx
    have hz : evec.toNat = 0 := by rw [hzero]; rfl
    simp only [exponent, hz, hbias] at he'
    refine ⟨h, ?_, ?_, ?_, ?_⟩ <;> simp at hm ⊢ <;> omega
  · -- normal
    obtain ⟨rfl, hm', he'⟩ : sign = s ∧ (1#1 ++ mvec).toNat = m ∧ exponent = e := by simpa using hx
    have hnz : evec.toNat ≠ 0 := fun h0 => hzero (BitVec.eq_of_toNat_eq h0)
    have hna : evec.toNat ≠ 2047 := fun h0 => hall (BitVec.eq_of_toNat_eq h0)
    have hcat : (1#1 ++ mvec).toNat = 2 ^ 52 + mvec.toNat := toNat_implicit_bit mvec
    simp only [exponent, hbias] at he'
    rw [hcat] at hm'
    simp at hm he he'
    refine ⟨h, ?_, ?_, ?_, ?_⟩ <;> omega

theorem log2_of_canonical {m : Nat} {e : Int} (h : Canonical m e) :
    Format.binary64.targetExponent (totalExponent m e) = e := by
  have hlog : m.log2 < 53 := (Nat.log2_lt (by have := h.pos; omega)).mpr h.lt
  rw [targetExponent_eq, totalExponent]
  rcases h.normal with hn | rfl
  · have hlow : 52 ≤ m.log2 := (Nat.le_log2 (by have := h.pos; omega)).mpr hn
    have := h.low
    omega
  · omega

theorem log2_mul_two_pow {m : Nat} (hm : 0 < m) (j : Nat) : (m * 2 ^ j).log2 = m.log2 + j := by
  rw [Nat.log2_eq_iff (by positivity)]
  have hlow := Nat.log2_self_le (show m ≠ 0 by omega)
  have hhigh := Nat.lt_log2_self (n := m)
  constructor
  · rw [Nat.pow_add]
    exact Nat.mul_le_mul_right _ hlow
  · rw [show m.log2 + j + 1 = m.log2 + 1 + j by omega, Nat.pow_add]
    exact Nat.mul_lt_mul_of_pos_right hhigh (by positivity)

theorem log2_mul_le {a b : Nat} (ha : 0 < a) (hb : 0 < b) :
    (a * b).log2 ≤ a.log2 + b.log2 + 1 := by
  have hlt : a * b < 2 ^ (a.log2 + b.log2 + 2) := by
    calc a * b < 2 ^ (a.log2 + 1) * 2 ^ (b.log2 + 1) :=
          Nat.mul_lt_mul'' Nat.lt_log2_self Nat.lt_log2_self
      _ = 2 ^ (a.log2 + b.log2 + 2) := by rw [← Nat.pow_add]; congr 1; omega
  have := (Nat.log2_lt (by positivity)).mpr hlt
  omega

theorem totalExponent_mul {m : Nat} (hm : 0 < m) (e : Int) (j : Nat) :
    totalExponent (m * 2 ^ j) (e - j) = totalExponent m e := by
  rw [totalExponent, totalExponent, log2_mul_two_pow hm]
  push_cast
  omega

theorem repeat_shiftRightOne (m j : Nat) :
    j.repeat ExtendedMantissa.shiftRightOne ⟨m * 2 ^ j, false, false⟩ = ⟨m, false, false⟩ := by
  induction j generalizing m with
  | zero => simp [Nat.repeat]
  | succ j ih =>
    rw [Nat.repeat]
    have := ih (2 * m)
    rw [show m * 2 ^ (j + 1) = 2 * m * 2 ^ j by ring, this]
    simp [ExtendedMantissa.shiftRightOne]

/-- A canonical number scaled up to a longer mantissa rounds to itself. -/
theorem roundWithAccuracy_exact {m : Nat} {e : Int} (h : Canonical m e) (s : Sign) (j : Nat) :
    roundWithAccuracy Format.binary64 s (m * 2 ^ j) (e - j) .exact = .finite s m e h.pos := by
  have htarget := log2_of_canonical h
  have hshift : (e - (e - (j : Int))).toNat = j := by omega
  have hfirst : shiftToTargetExponent Format.binary64 (m * 2 ^ j) (e - j) .exact =
      (⟨m, false, false⟩, e) := by
    unfold shiftToTargetExponent shiftToExponent
    simp only [totalExponent_mul h.pos, htarget, hshift]
    refine Prod.ext (repeat_shiftRightOne m j) ?_
    simp
  have hsecond : shiftToTargetExponent Format.binary64 m e .exact = (⟨m, false, false⟩, e) := by
    unfold shiftToTargetExponent shiftToExponent
    simp only [htarget, sub_self, Int.toNat_zero]
    refine Prod.ext rfl ?_
    simp
  unfold roundWithAccuracy
  rw [hfirst]
  have hround : ExtendedMantissa.roundedMantissa ⟨m, false, false⟩ = m := rfl
  dsimp only
  rw [hround, hsecond, dif_neg (show ¬ m = 0 by have := h.pos; omega)]

/-- A quotient that is canonical is computed without a remainder. -/
theorem divCore_exact {m : Nat} {e : Int} (h : Canonical m e) {a b : Nat} (hb : 0 < b)
    (he : e ≤ 0) (hab : a * 2 ^ (-e).toNat = m * b) :
    ∃ j : Nat, divCore Format.binary64 a 0 b 0 = (m * 2 ^ j, e - j, .exact) := by
  have hpos := h.pos
  have ha : 0 < a := by
    rcases Nat.eq_zero_or_pos a with rfl | ha
    · have : 0 < m * b := by positivity
      omega
    · exact ha
  -- the scale division starts from is no larger than the quotient's
  have hlogs : a.log2 + (-e).toNat ≤ m.log2 + b.log2 + 1 := by
    rw [← log2_mul_two_pow ha, hab]
    exact log2_mul_le hpos hb
  have htarget := log2_of_canonical h
  rw [targetExponent_eq, totalExponent] at htarget
  let t := min ((0 : Int) - 0)
    (Format.binary64.targetExponent (totalExponent a 0 - totalExponent b 0))
  have ht : t ≤ e := by
    simp only [t, targetExponent_eq, totalExponent]
    have := h.low
    omega
  obtain ⟨j, hj⟩ : ∃ j : Nat, t = e - j := ⟨(e - t).toNat, by omega⟩
  have hamount : ((0 : Int) - 0 - t).toNat = (-e).toNat + j := by omega
  have hshift : a <<< ((-e).toNat + j) = b * (m * 2 ^ j) := by
    rw [Nat.shiftLeft_eq, Nat.pow_add, ← Nat.mul_assoc, hab]
    ring
  refine ⟨j, ?_⟩
  show (a <<< ((0 : Int) - 0 - t).toNat / b, t, accuracyOfFraction
    (a <<< ((0 : Int) - 0 - t).toNat % b) b) = _
  rw [hamount, hshift, Nat.mul_div_cancel_left _ hb, Nat.mul_mod_right, hj]
  rfl

theorem lt_of_pow_ten_le {k n bits : Nat} (h : 10 ^ k ≤ n) (hn : n < 2 ^ bits) : k < bits := by
  have h2 : 2 ^ k ≤ 10 ^ k := Nat.pow_le_pow_left (by omega) k
  exact (Nat.pow_lt_pow_iff_right (by omega)).mp (lt_of_le_of_lt h2 (lt_of_le_of_lt h hn))

/-- A canonical integer reads exactly from its decimal digits. -/
theorem ofScientific_exact_nonneg {m : Nat} {e : Int} (h : Canonical m e)
    {sig k : Nat} (hsig : sig * 10 ^ k * 2 ^ (-e).toNat = m * 2 ^ e.toNat) :
    UnpackedFloat.ofScientific Format.binary64 sig k = .finite .positive m e h.pos := by
  have hpos := h.pos
  have hlt := h.lt
  have hsigPos : sig ≠ 0 := by
    rintro rfl
    have : 0 < m * 2 ^ e.toNat := by positivity
    omega
  have hintPos : 0 < sig * 10 ^ k := by positivity
  have hk : k < 1024 := by
    have hle : 10 ^ k ≤ m * 2 ^ e.toNat := by
      calc 10 ^ k ≤ sig * 10 ^ k := Nat.le_mul_of_pos_left _ (by omega)
        _ ≤ sig * 10 ^ k * 2 ^ (-e).toNat := Nat.le_mul_of_pos_right _ (by positivity)
        _ = m * 2 ^ e.toNat := hsig
    have hlt : m * 2 ^ e.toNat < 2 ^ (53 + e.toNat) := by
      rw [Nat.pow_add]
      exact Nat.mul_lt_mul_of_pos_right h.lt (by positivity)
    have := lt_of_pow_ten_le hle hlt
    have := h.high
    omega
  -- the number is at least one, so its exponent is above `-53`
  have hexpLow : -53 < e := by
    by_contra hlow
    have he : e.toNat = 0 := by omega
    rw [he, Nat.pow_zero, Nat.mul_one] at hsig
    have hpow : 2 ^ 53 ≤ 2 ^ (-e).toNat := Nat.pow_le_pow_right (by omega) (by omega)
    have : 2 ^ (-e).toNat ≤ sig * 10 ^ k * 2 ^ (-e).toNat := Nat.le_mul_of_pos_left _ hintPos
    omega
  have hmant : sig <<< Format.binary64.mantissaBits * 10 ^ k = m * 2 ^ (e + 53).toNat := by
    rw [mantissaBits_eq, Nat.shiftLeft_eq]
    rcases le_total 0 e with he | he
    · have hz : (-e).toNat = 0 := by omega
      rw [hz, Nat.pow_zero, Nat.mul_one] at hsig
      rw [show (e + 53).toNat = e.toNat + 53 by omega, Nat.pow_add, ← Nat.mul_assoc, ← hsig]
      ring
    · have hz : e.toNat = 0 := by omega
      rw [hz, Nat.pow_zero, Nat.mul_one] at hsig
      rw [← hsig, Nat.mul_assoc _ (2 ^ (-e).toNat), ← Nat.pow_add,
        show (-e).toNat + (e + 53).toNat = 53 by omega]
      ring
  have hexp : -(Format.binary64.mantissaBits : Int) + 0 = e - (((e + 53).toNat : Nat) : Int) := by
    rw [mantissaBits_eq]
    omega
  unfold UnpackedFloat.ofScientific
  rw [dif_neg hsigPos, if_neg (by norm_num; omega), if_neg (by norm_num; omega),
    if_pos (by omega)]
  show roundWithAccuracy Format.binary64 .positive
    (sig <<< Format.binary64.mantissaBits * 10 ^ (k : Int).toNat)
    (-(Format.binary64.mantissaBits : Int) + 0) .exact = _
  rw [Int.toNat_natCast, hmant, hexp]
  exact roundWithAccuracy_exact h .positive _

/-- A canonical fraction reads exactly from its decimal digits. -/
theorem ofScientific_exact_neg {m : Nat} {e : Int} (h : Canonical m e) (he : e ≤ 0)
    {sig k : Nat} (hkPos : 0 < k) (hk : k ≤ 1074) (hsig : sig * 2 ^ (-e).toNat = m * 10 ^ k) :
    UnpackedFloat.ofScientific Format.binary64 sig (-k) = .finite .positive m e h.pos := by
  have hpos := h.pos
  have hsigPos : sig ≠ 0 := by
    rintro rfl
    have : 0 < m * 10 ^ k := by positivity
    omega
  obtain ⟨j, hj⟩ := divCore_exact h (Nat.pow_pos (show 0 < 10 by omega)) he hsig
  unfold UnpackedFloat.ofScientific
  rw [dif_neg hsigPos, if_neg (by norm_num), if_neg (by norm_num; omega), if_neg (by omega)]
  have hk' : (-(-(k : Int))).toNat = k := by omega
  simp only [UnpackedFloat.div, hk', hj]
  exact roundWithAccuracy_exact h .positive j

/-! ## Packing -/

theorem ofModel_pack_unpack (x : Float) : Float.ofModel (Float.Model.pack x.toModel.unpack) = x := by
  refine Float.toBits_inj.mp (UInt64.toBitVec_inj.mp ?_)
  exact pack_unpack_of_valid x.toModel.valid

/-- A canonical number survives packing. -/
theorem unpack_pack {m : Nat} {e : Int} (h : Canonical m e) (s : Sign) :
    (Float.Model.pack (.finite s m e h.pos)).unpack = .finite s m e h.pos := by
  have hpos := h.pos
  have hlt := h.lt
  have hlow := h.low
  have hhigh := h.high
  have hbias : Format.binary64.exponentBias = 1023 := rfl
  show UnpackedFloat.unpack Format.binary64
    (UnpackedFloat.pack Format.binary64 (.finite s m e h.pos)) = _
  unfold UnpackedFloat.pack
  simp only [hbias]
  rw [if_neg (by norm_num; omega)]
  by_cases hnormal : 2 ^ 52 ≤ m
  · have hlog : m.log2 + 1 = Format.binary64.mantissaBits := by
      have h1 := (Nat.le_log2 (by omega)).mpr hnormal
      have h2 := (Nat.log2_lt (by omega)).mpr hlt
      rw [mantissaBits_eq]
      omega
    rw [if_pos hlog]
    have hexp : (e + ((1023 : Nat) : Int) + ((52 : Nat) : Int)).toNat % 2 ^ 11 =
        (e + 1075).toNat := by
      rw [Nat.mod_eq_of_lt (by omega)]
      omega
    have hmant : m % 2 ^ 52 = m - 2 ^ 52 := by omega
    have hcat : (1#1 ++ BitVec.ofNat 52 m).toNat = m := by
      rw [toNat_implicit_bit, BitVec.toNat_ofNat, hmant]
      omega
    unfold UnpackedFloat.unpack
    simp only [unpackExponent_packComponents, unpackMantissa_packComponents,
      unpackSign_packComponents, Sign.ofBitVec_toBitVec, ← BitVec.toNat_inj, BitVec.toNat_ofNat,
      hbias, hexp, hcat]
    have hones : (-1#11).toNat = 2047 := by decide
    rw [if_neg (by omega), if_neg (by omega)]
    have hback : (((e + 1075).toNat : Nat) : Int) -
        (((1023 : Nat) : Int) + ((52 : Nat) : Int)) = e := by omega
    simp only [hback]
  · have hlog : ¬ m.log2 + 1 = Format.binary64.mantissaBits := by
      have h2 := (Nat.log2_lt (show m ≠ 0 by omega)).mpr (Nat.lt_of_not_le hnormal)
      rw [mantissaBits_eq]
      omega
    rw [if_neg hlog]
    obtain rfl : e = -1074 := h.normal.resolve_left hnormal
    unfold UnpackedFloat.unpack
    simp only [unpackExponent_packComponents, unpackMantissa_packComponents,
      unpackSign_packComponents, Sign.ofBitVec_toBitVec, ← BitVec.toNat_inj, BitVec.toNat_ofNat,
      hbias]
    have hones : (-1#11).toNat = 2047 := by decide
    have hmant : m % 2 ^ 52 = m := Nat.mod_eq_of_lt (by omega)
    rw [if_neg (by omega), if_pos trivial, dif_neg (by omega)]
    simp only [hmant]
    rfl

end Python.Binary64
