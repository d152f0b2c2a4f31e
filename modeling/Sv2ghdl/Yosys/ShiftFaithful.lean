import Sv2ghdl.Yosys.ScalarFaithful

/-!
# Which narrow shifts are faithful

The six shift cells of at most 64 bits: a count from 64 on gives 0, a signed count is corrected by
hand, and `$sshr` always extends the sign of `A`.
-/

open Clang Yosys.WideRt

namespace Yosys.Rtlil

/-! ## Shifted numbers -/

section Shifts

variable {x b n w : Nat}

theorem mod_shiftLeft (x b n : Nat) : ((x % 2 ^ n) <<< b) % 2 ^ n = (x <<< b) % 2 ^ n := by
  rw [Nat.shiftLeft_eq, Nat.shiftLeft_eq]
  exact (Nat.mod_modEq x (2 ^ n)).mul_right (2 ^ b)

theorem shiftLeft_mod_zero (hb : n ≤ b) : (x <<< b) % 2 ^ n = 0 := by
  rw [Nat.shiftLeft_eq]
  exact Nat.mod_eq_zero_of_dvd ((Nat.pow_dvd_pow 2 hb).mul_left x)

theorem shiftRight_zero (hx : x < 2 ^ w) (hb : w ≤ b) : x >>> b = 0 := by
  rw [Nat.shiftRight_eq_div_pow]
  exact Nat.div_eq_of_lt (Nat.lt_of_lt_of_le hx (Nat.pow_le_pow_right (by decide) hb))

/-- A count from the carrier's width on gives 0 by itself. -/
theorem belowCarrier_shl (hn : n ≤ 64) :
    (if 64 ≤ b then 0 else (x <<< b) % 2 ^ n) = (x <<< b) % 2 ^ n := by
  split_ifs with h
  · exact (shiftLeft_mod_zero (by omega)).symm
  · rfl

theorem belowCarrier_shr (hx : x < 2 ^ w) (hw : w ≤ 64) : (if 64 ≤ b then 0 else x >>> b) = x >>> b := by
  split_ifs with h
  · exact (shiftRight_zero hx (by omega)).symm
  · rfl

/-- An operand extended to at least its own width. -/
theorem extend_max (isSigned : Bool) {v : Nat} (h : Unextended isSigned w n) (hv : v < 2 ^ w) :
    extend isSigned w (max w n) v = v := by
  have hmax : Unextended isSigned w (max w n) := by
    rcases h with h | h | h
    · exact .inl h
    · exact .inr (.inl h)
    · exact .inr (.inr (by omega))
  rw [extend_of_unextended hmax hv, Nat.mod_eq_of_lt]
  exact Nat.lt_of_lt_of_le hv (Nat.pow_le_pow_right (by decide) (le_max_left _ _))

theorem extend_max_ones (isSigned : Bool) (h : ¬ Unextended isSigned w n) :
    extend isSigned w (max w n) (2 ^ w - 1) = 2 ^ n - 1 := by
  have hlt := not_unextended h
  rw [show max w n = n by omega, extend_ones h]

end Shifts

variable {p : Shape}

/-! ## Left and right -/

theorem agrees_shl (hyw : p.yw ≤ 64)
    (hemitted : ∀ a b s, p.emitted a b s = some (if 64 ≤ b then 0 else (a <<< b) % 2 ^ p.yw))
    (hvalue : ∀ a b s, p.value a b s = (extend p.aSigned p.aw p.yw a <<< b) % 2 ^ p.yw) :
    p.Agrees ↔ Unextended p.aSigned p.aw p.yw := by
  constructor
  · intro h
    by_contra hA
    obtain ⟨v, hv, hkept⟩ := h.left (ones_lt p.aw)
    rw [hemitted, belowCarrier_shl hyw] at hv
    cases hv
    rw [kept_mod, hvalue, extend_ones hA, Nat.shiftLeft_zero, Nat.shiftLeft_zero,
      Nat.mod_eq_of_lt (ones_lt p.yw)] at hkept
    exact ones_ne hA hkept
  · intro hA a b s ha _ _
    refine ⟨_, hemitted a b s, ?_⟩
    rw [belowCarrier_shl hyw, kept_mod, hvalue, extend_of_unextended hA ha, mod_shiftLeft]

theorem agrees_shr (hp : p.Legal) (haw : p.aw ≤ 64) (ht : p.type = .shr) :
    p.Agrees ↔ Unextended p.aSigned p.aw p.yw ∧ p.Fits p.aw := by
  have hemitted : ∀ a b s, p.emitted a b s = some (if 64 ≤ b then 0 else a >>> b) := by
    intro a b s
    simp only [Shape.emitted, ht]
  have hvalue : ∀ a b s, p.value a b s =
      (extend p.aSigned p.aw (max p.aw p.yw) a >>> b) % 2 ^ p.yw := by
    intro a b s
    simp only [Shape.value, CellType.value, ht]
  constructor
  · intro h
    constructor
    · by_contra hA
      obtain ⟨v, hv, hkept⟩ := h.left (ones_lt p.aw)
      rw [hemitted, belowCarrier_shr (ones_lt p.aw) haw] at hv
      cases hv
      rw [hvalue, extend_max_ones _ hA, Nat.shiftRight_zero, Nat.shiftRight_zero,
        Nat.mod_eq_of_lt (ones_lt p.yw)] at hkept
      exact kept_ones_ne hA hkept
    · by_contra hfits
      have hlt := two_pow_lt (not_fits hfits)
      exact hfits (h.fits hp hlt (Nat.two_pow_pos _) (v := 2 ^ p.yw)
        (by rw [hemitted, belowCarrier_shr hlt haw, Nat.shiftRight_zero]) (le_refl _))
  · rintro ⟨hA, hfits⟩ a b s ha - -
    refine ⟨_, hemitted a b s, ?_⟩
    rw [belowCarrier_shr ha haw, hvalue, extend_max _ hA ha,
      hfits.kept (Nat.lt_of_le_of_lt (Nat.shiftRight_le a b) ha)]

/-! ## The arithmetic shift -/

/-- The quotient of a small negative number. -/
theorem ediv_minus_one {x m : Int} (hx : x < 0) (hm : -m ≤ x) : x / m = -1 :=
  ((Int.ediv_emod_unique (by omega)).mpr ⟨by ring, by omega, by omega⟩ :
    x / m = -1 ∧ x % m = x + m).1

/-- From 63 on, the count of `$sshr` makes no difference. -/
theorem ediv_min {x : Int} (hlow : -(2 ^ 63) ≤ x) (hhigh : x < 2 ^ 63) (b : Nat) :
    x / 2 ^ min b 63 = x / 2 ^ b := by
  by_cases hb : b ≤ 63
  · rw [min_eq_left hb]
  · have hpow : (2 : Int) ^ 63 ≤ 2 ^ b := pow_le_pow_right₀ (by decide) (by omega)
    rw [min_eq_right (by omega)]
    by_cases hx : 0 ≤ x
    · rw [Int.ediv_eq_zero_of_lt hx hhigh, Int.ediv_eq_zero_of_lt hx (by omega)]
    · rw [ediv_minus_one (by omega) hlow, ediv_minus_one (by omega) (by omega)]

/-- Bits that were taken for a sign are shifted out of the output. -/
theorem signedOf_ediv {w n a b : Nat} (hb : n + b ≤ w) :
    signedOf w a / 2 ^ b ≡ ((a >>> b : Nat) : Int) [ZMOD 2 ^ n] := by
  have hshift : ((a >>> b : Nat) : Int) = (a : Int) / 2 ^ b := by
    rw [Nat.shiftRight_eq_div_pow]
    push_cast
    rfl
  rw [signedOf, hshift]
  split_ifs
  · exact Int.ModEq.refl _
  · have hsplit : (a : Int) - 2 ^ w = a + -(2 ^ (w - b)) * 2 ^ b := by
      rw [neg_mul, ← pow_add, show w - b + b = w by omega]
      ring
    have hpos : (2 : Int) ^ b ≠ 0 := by positivity
    have hdvd : (2 ^ n : Int) ∣ 2 ^ (w - b) := pow_dvd_pow 2 (by omega)
    rw [hsplit, Int.add_mul_ediv_right _ _ hpos]
    refine (Int.modEq_iff_dvd.mpr ?_)
    rw [show (a : Int) / 2 ^ b - (a / 2 ^ b + -2 ^ (w - b)) = 2 ^ (w - b) by ring]
    exact hdvd

/-- `$sshr` needs an operand, and a sign or so wide an operand that its top bit stays above the
    output. -/
def Shape.ArithmeticShift (p : Shape) : Prop :=
  0 < p.aw ∧ (p.aSigned = true ∨ p.yw + 2 ^ p.bw ≤ p.aw + 1)

instance (p : Shape) : Decidable p.ArithmeticShift := inferInstanceAs (Decidable (_ ∧ _))

theorem agrees_sshr (hp : p.Legal) (haw : p.aw ≤ 64) (ht : p.type = .sshr) :
    p.Agrees ↔ p.ArithmeticShift := by
  have hyw := hp.1
  have hemitted : ∀ a b s, 0 < p.aw → a < 2 ^ p.aw →
      p.emitted a b s = some (wrap p.yw (signedOf p.aw a / 2 ^ b)) := by
    intro a b s hpos ha
    have hholds := (int64_holds_signedOf hpos haw ha).2.2
    simp only [Shape.emitted, ht]
    rw [if_neg (by omega), ediv_min hholds.1 hholds.2]
  have hsigned : ∀ a b s, p.aSigned = true →
      p.value a b s = wrap p.yw (signedOf p.aw a / 2 ^ b) := by
    intro a b s hs
    simp only [Shape.value, CellType.value, ht, if_pos hs]
  have hunsigned : ∀ a b s, p.aSigned = false → a < 2 ^ p.aw →
      p.value a b s = (a >>> b) % 2 ^ p.yw := by
    intro a b s hs ha
    simp only [Shape.value, CellType.value, ht]
    rw [if_neg (by rw [hs]; exact Bool.false_ne_true), extend_max _ (.inl hs) ha]
  constructor
  · intro h
    have hpos : 0 < p.aw := by
      by_contra h0
      obtain ⟨v, hv, -⟩ := h.left (Nat.two_pow_pos p.aw)
      simp only [Shape.emitted, ht] at hv
      rw [if_pos (by omega)] at hv
      cases hv
    refine ⟨hpos, ?_⟩
    by_contra hno
    rw [not_or, Bool.not_eq_true, not_le] at hno
    obtain ⟨hs, hlt⟩ := hno
    -- the ones, shifted until the output reaches above them
    obtain ⟨b, hb⟩ : ∃ b, b = p.aw + 1 - p.yw := ⟨_, rfl⟩
    have hcount := Nat.two_pow_pos p.bw
    obtain ⟨v, hv, hkept⟩ := h (2 ^ p.aw - 1) b 0 (ones_lt _) (by omega) (Nat.two_pow_pos _)
    have hones : signedOf p.aw (2 ^ p.aw - 1) = -1 := by
      have hpow := two_pow_pred hpos
      have hone := Nat.two_pow_pos (p.aw - 1)
      rw [signedOf, if_neg (by omega), ← natCast_two_pow]
      omega
    have hpowb : (0 : Int) < 2 ^ b := by positivity
    rw [hemitted _ _ _ hpos (ones_lt _), hones, ediv_minus_one (by decide) (by omega)] at hv
    cases hv
    rw [kept_of_lt (wrap_lt _ _), hunsigned _ _ _ hs (ones_lt _)] at hkept
    have hminus : wrap p.yw (-1) = 2 ^ p.yw - 1 := by
      have hone := Nat.two_pow_pos p.yw
      rw [wrap, ← natCast_two_pow, ← Int.add_emod_right,
        Int.emod_eq_of_lt (by omega) (by omega)]
      omega
    have hdiv : (2 ^ p.aw - 1) >>> b < 2 ^ (p.yw - 1) := by
      rw [Nat.shiftRight_eq_div_pow, Nat.div_lt_iff_lt_mul (Nat.two_pow_pos b), ← pow_add]
      exact Nat.lt_of_lt_of_le (ones_lt p.aw) (Nat.pow_le_pow_right (by decide) (by omega))
    have hpow := two_pow_pred hyw
    rw [hminus, Nat.mod_eq_of_lt (by omega)] at hkept
    omega
  · rintro ⟨hpos, hcond⟩ a b s ha hb -
    refine ⟨_, hemitted a b s hpos ha, ?_⟩
    rw [kept_of_lt (wrap_lt _ _)]
    by_cases hs : p.aSigned = true
    · exact (hsigned a b s hs).symm
    · have hle := hcond.resolve_left hs
      rw [hunsigned a b s (by simpa using hs) ha, ← wrap_natCast, wrap_eq_iff]
      exact signedOf_ediv (by omega)

/-! ## Part selects -/

theorem shiftBy_natCast (x b : Nat) : shiftBy x (b : Int) = x >>> b := by
  rw [shiftBy, if_pos (Int.natCast_nonneg b), Int.toNat_natCast]

/-- A count out of the carrier's range gives 0 by itself. -/
theorem beyondCarrier {x w n : Nat} {o : Int} (hx : x < 2 ^ w) (hw : w ≤ 64) (hn : n ≤ 64) :
    (if o ≤ -64 ∨ 64 ≤ o then 0 else shiftBy x o % 2 ^ n) = shiftBy x o % 2 ^ n := by
  split_ifs with h
  · rw [shiftBy]
    split_ifs with hpos
    · rw [shiftRight_zero hx (by omega), Nat.zero_mod]
    · exact (shiftLeft_mod_zero (by omega)).symm
  · rfl

/-- A signed count of `$shift` is read right: it has bits, its correction does not overflow, and one
    of the carrier's width, which is read as unsigned, cannot show in the output. -/
def Shape.CountOk (p : Shape) : Prop :=
  p.bSigned = false ∨ p.bw ≠ 0 ∧ p.bw ≠ 63 ∧ (p.bw ≠ 64 ∨ p.yw = 1 ∨ p.aw = 0)

instance (p : Shape) : Decidable p.CountOk := inferInstanceAs (Decidable (_ ∨ _))

section PartSelect

variable (hp : p.Legal) (hyw : p.yw ≤ 64) (haw : p.aw ≤ 64) (hbw : p.bw ≤ 64)
  (hemitted : ∀ a b s, p.emitted a b s =
    if p.bSigned ∧ p.bw < 64 then
      if p.bw = 0 ∨ p.bw = 63 ∧ 2 ^ 62 ≤ b then none
      else some (if signedOf p.bw b ≤ -64 ∨ 64 ≤ signedOf p.bw b then 0
        else shiftBy a (signedOf p.bw b) % 2 ^ p.yw)
    else some (if 64 ≤ b then 0 else (a >>> b) % 2 ^ p.yw))
  (hvalue : ∀ a b s, a < 2 ^ p.aw → p.value a b s =
    shiftBy (extend p.aSigned p.aw (max p.aw p.yw) a)
      (if p.bSigned then signedOf p.bw b else b) % 2 ^ p.yw)
include hemitted hvalue

theorem partSelect_extended (h : p.Agrees) : Unextended p.aSigned p.aw p.yw := by
  by_contra hA
  obtain ⟨v, hv, hkept⟩ := h.left (ones_lt p.aw)
  have hzero : (if p.bSigned = true then signedOf p.bw 0 else ((0 : Nat) : Int)) = 0 := by
    rw [signedOf_zero]
    exact ite_self _
  have hshift : ∀ x, shiftBy x 0 = x := fun x => rfl
  rw [hvalue _ _ _ (ones_lt _), hzero, extend_max_ones _ hA, hshift,
    Nat.mod_eq_of_lt (ones_lt p.yw)] at hkept
  have hemit : v = (2 ^ p.aw - 1) % 2 ^ p.yw := by
    rw [hemitted, signedOf_zero, hshift, Nat.shiftRight_zero] at hv
    split_ifs at hv
    · omega
    · exact (Option.some.inj hv).symm
    · omega
    · exact (Option.some.inj hv).symm
  rw [hemit, kept_mod] at hkept
  exact ones_ne hA hkept

include hp in
theorem partSelect_count (h : p.Agrees) : p.CountOk := by
  have hA := partSelect_extended hemitted hvalue h
  by_contra hno
  rw [Shape.CountOk, not_or, Bool.not_eq_false] at hno
  obtain ⟨hs, hno⟩ := hno
  by_cases h0 : p.bw = 0
  · obtain ⟨v, hv, -⟩ := h.left (Nat.two_pow_pos p.aw)
    rw [hemitted, if_pos ⟨hs, by omega⟩, if_pos (.inl h0)] at hv
    cases hv
  by_cases h63 : p.bw = 63
  · obtain ⟨v, hv, -⟩ := h.right (b := 2 ^ 62) (by rw [h63]; decide)
    rw [hemitted, if_pos ⟨hs, by omega⟩, if_pos (.inr ⟨h63, le_refl _⟩)] at hv
    cases hv
  -- a count of 64 bits: 1 shifted by -1
  obtain ⟨h64, hone, hbits⟩ : p.bw = 64 ∧ p.yw ≠ 1 ∧ p.aw ≠ 0 := by
    by_contra hcontra
    exact hno ⟨h0, h63, by tauto⟩
  have hpos := hp.1
  have ha : 1 < 2 ^ p.aw := Nat.one_lt_two_pow hbits
  have htwo : 2 < 2 ^ p.yw := by
    calc 2 < 2 ^ 2 := by decide
      _ ≤ 2 ^ p.yw := Nat.pow_le_pow_right (by decide) (by omega)
  have hcount : signedOf 64 (2 ^ 64 - 1) = -1 := by decide
  obtain ⟨v, hv, hkept⟩ := h 1 (2 ^ 64 - 1) 0 ha (by rw [h64]; decide) (Nat.two_pow_pos _)
  rw [hemitted, if_neg (by omega), if_pos (by decide)] at hv
  cases hv
  rw [kept_of_lt (by omega), hvalue _ _ _ ha, extend_max _ hA ha, if_pos hs, h64, hcount,
    show shiftBy 1 (-1) = 2 from rfl, Nat.mod_eq_of_lt htwo] at hkept
  omega

include hp hyw haw hbw in
theorem agrees_partSelect : p.Agrees ↔ Unextended p.aSigned p.aw p.yw ∧ p.CountOk := by
  constructor
  · intro h
    exact ⟨partSelect_extended hemitted hvalue h, partSelect_count hp hemitted hvalue h⟩
  · rintro ⟨hA, hcount⟩ a b s ha hb -
    rw [hvalue a b s ha, extend_max _ hA ha, hemitted]
    by_cases hs : p.bSigned = true
    · obtain ⟨h0, h63, h64⟩ := hcount.resolve_left (by rw [hs]; exact Bool.false_ne_true.symm)
      rw [if_pos hs]
      by_cases hlt : p.bw < 64
      · refine ⟨_, ?_, kept_mod _⟩
        rw [if_pos ⟨hs, hlt⟩, if_neg (by omega), beyondCarrier ha haw hyw]
      · have hbw64 : p.bw = 64 := by omega
        rw [hbw64] at hb ⊢
        refine ⟨_, if_neg (by omega), ?_⟩
        rw [signedOf]
        split_ifs with hbig hneg hneg
        · rw [shiftBy_natCast, shiftRight_zero ha (by omega), Nat.zero_mod, kept_of_lt]
          exact Nat.two_pow_pos _
        · -- a negative count is taken for a large one
          rw [kept_of_lt (Nat.two_pow_pos _), shiftBy, if_neg (by omega)]
          rcases h64 with h64 | hone | hzero
          · exact absurd hbw64 h64
          · rw [hone]
            exact (shiftLeft_mod_zero (by omega)).symm
          · rw [hzero] at ha
            obtain rfl : a = 0 := by omega
            rw [Nat.zero_shiftLeft, Nat.zero_mod]
        · rw [shiftBy_natCast, kept_mod]
        · omega
    · rw [if_neg hs, shiftBy_natCast]
      refine ⟨_, if_neg (by tauto), ?_⟩
      split_ifs with hbig
      · rw [shiftRight_zero ha (by omega), Nat.zero_mod, kept_of_lt (Nat.two_pow_pos _)]
      · exact kept_mod _

end PartSelect

/-! ## The narrow shifts -/

/-- The cells that shift. -/
def CellType.Shift : CellType → Prop
  | .shl | .shr | .sshl | .sshr | .shift | .shiftx => True
  | _ => False

/-- When the statement of a narrow shift is faithful. -/
def Shape.NarrowShiftOk (p : Shape) : Prop :=
  match p.type with
  | .shl | .sshl => Unextended p.aSigned p.aw p.yw
  | .shr => Unextended p.aSigned p.aw p.yw ∧ p.Fits p.aw
  | .sshr => p.ArithmeticShift
  | .shift | .shiftx => Unextended p.aSigned p.aw p.yw ∧ p.CountOk
  | _ => True

theorem agrees_shift (hp : p.Legal) (hwide : p.wide = false) (ht : p.type.Shift) :
    p.Agrees ↔ p.NarrowShiftOk := by
  simp only [Shape.wide, isWide, Bool.or_eq_false_iff, decide_eq_false_iff_not] at hwide
  have hlegal := hp.2.2
  rw [Shape.NarrowShiftOk]
  cases htype : p.type <;> rw [htype] at ht hlegal <;> simp only [CellType.Shift] at ht hlegal ⊢
  case shl =>
    exact agrees_shl (by omega) (fun a b s => by simp only [Shape.emitted, htype])
      (fun a b s => by simp only [Shape.value, CellType.value, htype])
  case sshl =>
    exact agrees_shl (by omega) (fun a b s => by simp only [Shape.emitted, htype])
      (fun a b s => by simp only [Shape.value, CellType.value, htype])
  case shr => exact agrees_shr hp (by omega) htype
  case sshr => exact agrees_sshr hp (by omega) htype
  case shift =>
    exact agrees_partSelect hp (by omega) (by omega) (by omega)
      (fun a b s => by simp only [Shape.emitted, htype])
      (fun a b s _ => by simp only [Shape.value, CellType.value, htype])
  case shiftx =>
    exact agrees_partSelect hp (by omega) (by omega) (by omega)
      (fun a b s => by simp only [Shape.emitted, htype])
      (fun a b s ha => by
        rw [extend_max _ (.inl hlegal) ha]
        simp only [Shape.value, CellType.value, htype])

end Yosys.Rtlil
