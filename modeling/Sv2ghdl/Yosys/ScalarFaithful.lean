import Sv2ghdl.Yosys.ScalarCells

/-!
# Which narrow cells are faithful

The emitted expressions zero-extend their operands (the order comparisons apart) and mask some
results: for each type, the shapes for which this is what the library means.
-/

open Clang Yosys.WideRt

namespace Yosys.Rtlil

/-! ## Extension -/

/-- Zero extension to `n` bits is the extension of an operand of `w` bits: it is unsigned, has no
    bits, or is not longer than `n`. -/
def Unextended (isSigned : Bool) (w n : Nat) : Prop := isSigned = false ∨ w = 0 ∨ n ≤ w

instance (isSigned : Bool) (w n : Nat) : Decidable (Unextended isSigned w n) :=
  inferInstanceAs (Decidable (_ ∨ _))

section Extension

variable {isSigned : Bool} {w n v : Nat}

theorem natCast_two_pow (n : Nat) : ((2 ^ n : Nat) : Int) = 2 ^ n := by
  push_cast
  rfl

theorem signedOf_zero (w : Nat) : signedOf w 0 = 0 := by
  rw [signedOf, if_pos (Nat.two_pow_pos _)]
  rfl

theorem extend_zero (isSigned : Bool) (w n : Nat) : extend isSigned w n 0 = 0 := by
  rw [extend, signedOf_zero, Int.zero_emod, Nat.zero_mod]
  exact ite_self 0

theorem extend_of_unextended (h : Unextended isSigned w n) (hv : v < 2 ^ w) :
    extend isSigned w n v = v % 2 ^ n := by
  rw [extend]
  by_cases hsigned : isSigned = true
  · rw [if_pos hsigned]
    rcases h with h | rfl | hn
    · exact absurd hsigned (by rw [h]; exact Bool.false_ne_true)
    · obtain rfl : v = 0 := by omega
      rw [signedOf_zero, Int.zero_emod, Nat.zero_mod]
      rfl
    · have hdvd : (2 ^ n : Int) ∣ 2 ^ w := pow_dvd_pow 2 hn
      rw [← Int.emod_emod_of_dvd _ hdvd, signedOf_emod hv, ← natCast_two_pow, ← Int.natCast_emod,
        Int.toNat_natCast]
  · rw [if_neg hsigned]

/-- All ones are -1, whose extension is all ones. -/
theorem extend_ones (h : ¬ Unextended isSigned w n) :
    extend isSigned w n (2 ^ w - 1) = 2 ^ n - 1 := by
  simp only [Unextended, not_or, Bool.not_eq_false, not_le] at h
  obtain ⟨hsigned, hw, hn⟩ := h
  have hpow := two_pow_pred (Nat.pos_of_ne_zero hw)
  have hpos := Nat.two_pow_pos (w - 1)
  have hone : signedOf w (2 ^ w - 1) = -1 := by
    rw [signedOf, if_neg (by omega), ← natCast_two_pow]
    omega
  have hmod : (-1 : Int) % 2 ^ n = 2 ^ n - 1 := by
    have hpos : (0 : Int) < 2 ^ n := by positivity
    rw [← Int.add_emod_right]
    exact Int.emod_eq_of_lt (by omega) (by omega)
  rw [extend, if_pos hsigned, hone, hmod, ← natCast_two_pow]
  omega

/-- All ones are -1, with or without an extension. -/
theorem extend_all_ones (hsigned : isSigned = true) (hw : w ≠ 0) :
    extend isSigned w n (2 ^ w - 1) = 2 ^ n - 1 := by
  by_cases h : Unextended isSigned w n
  · have hle : n ≤ w := by
      rcases h with h | h | h
      · exact absurd hsigned (by rw [h]; exact Bool.false_ne_true)
      · exact absurd h hw
      · exact h
    have hdvd : 2 ^ n ∣ 2 ^ w := Nat.pow_dvd_pow 2 hle
    have hpos := Nat.two_pow_pos w
    have hpos' := Nat.two_pow_pos n
    rw [extend_of_unextended h (by omega)]
    obtain ⟨k, hk⟩ := hdvd
    have hk' : 0 < k := Nat.pos_of_ne_zero fun h0 => by rw [hk, h0] at hpos; omega
    obtain ⟨m, rfl⟩ : ∃ m, k = m + 1 := ⟨k - 1, by omega⟩
    rw [hk, Nat.mul_succ, Nat.add_sub_assoc hpos', Nat.mul_add_mod, Nat.mod_eq_of_lt (by omega)]
  · exact extend_ones h

theorem extend_one {isSigned : Bool} {w n : Nat} (hw : 1 < w) : extend isSigned w n 1 = 1 % 2 ^ n := by
  have hlt : 1 < 2 ^ (w - 1) := Nat.one_lt_two_pow (by omega)
  have hone : signedOf w 1 = ((1 : Nat) : Int) := by rw [signedOf, if_pos hlt]
  rw [extend]
  split_ifs
  · rw [hone, ← natCast_two_pow, ← Int.natCast_emod, Int.toNat_natCast]
  · rfl

/-- The square of -1. -/
theorem ones_sq (n : Nat) : (2 ^ n - 1) * (2 ^ n - 1) % 2 ^ n = 1 % 2 ^ n := by
  have hpos := Nat.two_pow_pos n
  obtain ⟨m, hm⟩ : ∃ m, 2 ^ n = m + 1 := ⟨2 ^ n - 1, by omega⟩
  rw [hm, Nat.add_sub_cancel]
  cases m with
  | zero => rfl
  | succ k => rw [show (k + 1) * (k + 1) = (k + 1 + 1) * k + 1 by ring, Nat.mul_add_mod]

theorem not_unextended (h : ¬ Unextended isSigned w n) : isSigned = true ∧ 0 < w ∧ w < n := by
  simp only [Unextended, not_or, Bool.not_eq_false, not_le] at h
  exact ⟨h.1, Nat.pos_of_ne_zero h.2.1, h.2.2⟩

theorem eq_zero_of_width {w v : Nat} (hw : w = 0) (hv : v < 2 ^ w) : v = 0 := by
  rw [hw] at hv
  omega

theorem two_pow_lt {m n : Nat} (h : m < n) : 2 ^ m < 2 ^ n := Nat.pow_lt_pow_right (by decide) h

/-- The ones of a narrower operand are not those of the result. -/
theorem ones_ne (h : ¬ Unextended isSigned w n) : (2 ^ w - 1) % 2 ^ n ≠ 2 ^ n - 1 := by
  have hlt := two_pow_lt (not_unextended h).2.2
  have hpos := Nat.two_pow_pos w
  rw [Nat.mod_eq_of_lt (by omega)]
  omega

-- Derives the equations that the lemmas on the cell types below unfold side by side.
attribute [local simp] Shape.emitted CellType.value

end Extension

variable {p : Shape}

/-! ## Agreement -/

/-- The emitted statement and the library agree on all operands. -/
def Shape.Agrees (p : Shape) : Prop :=
  ∀ a b s, a < 2 ^ p.aw → b < 2 ^ p.bw → s < 2 ^ p.sw →
    ∃ v, p.emitted a b s = some v ∧ p.kept v = p.value a b s

theorem kept_of_lt {v : Nat} (hv : v < 2 ^ p.yw) : p.kept v = v := by
  rw [Shape.kept]
  split_ifs
  · exact Nat.mod_eq_of_lt hv
  · rfl

theorem kept_mod (v : Nat) : p.kept (v % 2 ^ p.yw) = v % 2 ^ p.yw :=
  kept_of_lt (Nat.mod_lt v (Nat.two_pow_pos _))

/-- Two operands of which one is zero. -/
theorem Shape.Agrees.left (h : p.Agrees) {a : Nat} (ha : a < 2 ^ p.aw) :
    ∃ v, p.emitted a 0 0 = some v ∧ p.kept v = p.value a 0 0 :=
  h a 0 0 ha (Nat.two_pow_pos _) (Nat.two_pow_pos _)

theorem Shape.Agrees.right (h : p.Agrees) {b : Nat} (hb : b < 2 ^ p.bw) :
    ∃ v, p.emitted 0 b 0 = some v ∧ p.kept v = p.value 0 b 0 :=
  h 0 b 0 (Nat.two_pow_pos _) hb (Nat.two_pow_pos _)

theorem wrap_natCast (n x : Nat) : wrap n x = x % 2 ^ n := by
  rw [wrap, ← natCast_two_pow, ← Int.natCast_emod, Int.toNat_natCast]

theorem wrap_eq_iff {n : Nat} {x y : Int} : wrap n x = wrap n y ↔ x ≡ y [ZMOD 2 ^ n] := by
  have hx := Int.emod_nonneg x (show (2 : Int) ^ n ≠ 0 by positivity)
  have hy := Int.emod_nonneg y (show (2 : Int) ^ n ≠ 0 by positivity)
  rw [wrap, wrap, Int.ModEq]
  omega

theorem ones_lt (w : Nat) : 2 ^ w - 1 < 2 ^ w := by
  have := Nat.two_pow_pos w
  omega

/-- A result that the statement does not mask. -/
theorem kept_le_iff {v : Nat} : p.kept v < 2 ^ p.yw ↔ p.scattered = true ∨ v < 2 ^ p.yw := by
  rw [Shape.kept]
  by_cases h : p.scattered = true
  · rw [if_pos h]
    exact ⟨fun _ => .inl h, fun _ => Nat.mod_lt _ (Nat.two_pow_pos _)⟩
  · rw [if_neg h]
    exact ⟨.inr, fun h' => h'.resolve_left h⟩

theorem kept_eq_mod {v : Nat} (h : p.scattered = true ∨ v < 2 ^ p.yw) :
    p.kept v = v % 2 ^ p.yw := by
  rw [Shape.kept]
  by_cases hs : p.scattered = true
  · rw [if_pos hs]
  · rw [if_neg hs, Nat.mod_eq_of_lt (h.resolve_left hs)]

/-- The bits of an operand of `w` bits fit in the output, or the store cuts the result. -/
def Shape.Fits (p : Shape) (w : Nat) : Prop := p.scattered = true ∨ w ≤ p.yw

instance (p : Shape) (w : Nat) : Decidable (p.Fits w) := inferInstanceAs (Decidable (_ ∨ _))

theorem Shape.Fits.kept {w v : Nat} (h : p.Fits w) (hv : v < 2 ^ w) : p.kept v = v % 2 ^ p.yw := by
  refine kept_eq_mod (h.imp_right fun hw => ?_)
  exact Nat.lt_of_lt_of_le hv (Nat.pow_le_pow_right (by decide) hw)

theorem Shape.Agrees.fits (h : p.Agrees) (hp : p.Legal) {a b v : Nat} (ha : a < 2 ^ p.aw)
    (hb : b < 2 ^ p.bw) (hemitted : p.emitted a b 0 = some v) {w : Nat} (hv : 2 ^ p.yw ≤ v) :
    p.Fits w := by
  obtain ⟨v', hv', hkept⟩ := h a b 0 ha hb (Nat.two_pow_pos _)
  rw [hemitted] at hv'
  cases hv'
  have hlt := value_lt_two_pow (s := 0) hp ha hb
  rw [← hkept, kept_le_iff] at hlt
  exact .inl (hlt.resolve_right (by omega))

theorem kept_le (v : Nat) : p.kept v ≤ v := by
  rw [Shape.kept]
  split_ifs
  · exact Nat.mod_le _ _
  · exact le_refl v

/-- The ones of an operand that is narrower than the result, kept whole. -/
theorem kept_ones_ne {isSigned : Bool} {w : Nat} (h : ¬ Unextended isSigned w p.yw) :
    p.kept (2 ^ w - 1) ≠ 2 ^ p.yw - 1 := by
  have hlt := two_pow_lt (not_unextended h).2.2
  have hle := kept_le (p := p) (2 ^ w - 1)
  have hpos := Nat.two_pow_pos w
  omega

theorem not_fits {w : Nat} (h : ¬ p.Fits w) : p.yw < w := by
  rw [Shape.Fits, not_or, not_le] at h
  exact h.2

/-- A result of two operands that both fit. -/
theorem fits_lt_or {v a b : Nat} (h : p.Fits p.aw ∧ p.Fits p.bw) (ha : a < 2 ^ p.aw)
    (hb : b < 2 ^ p.bw) (hv : a < 2 ^ p.yw → b < 2 ^ p.yw → v < 2 ^ p.yw) :
    p.scattered = true ∨ v < 2 ^ p.yw := by
  have hmono : ∀ w, w ≤ p.yw → 2 ^ w ≤ 2 ^ p.yw := fun w hw => Nat.pow_le_pow_right (by decide) hw
  rcases h.1 with hs | hA
  · exact .inl hs
  · rcases h.2 with hs | hB
    · exact .inl hs
    · exact .inr (hv (Nat.lt_of_lt_of_le ha (hmono _ hA)) (Nat.lt_of_lt_of_le hb (hmono _ hB)))

section Arithmetic

variable {f g : Nat → Nat → Nat}

/-- An operation of which either operand alone shows the ones of its extension. -/
theorem agrees_binary {mask : Prop} (hemitted : ∀ a b s, p.emitted a b s = some (g a b))
    (hvalue : ∀ a b s, p.value a b s =
      f (extend p.aSigned p.aw p.yw a) (extend p.aSigned p.bw p.yw b))
    (hleft : ¬ Unextended p.aSigned p.aw p.yw → p.kept (g (2 ^ p.aw - 1) 0) ≠ f (2 ^ p.yw - 1) 0)
    (hright : ¬ Unextended p.aSigned p.bw p.yw → p.kept (g 0 (2 ^ p.bw - 1)) ≠ f 0 (2 ^ p.yw - 1))
    (hmask : p.Agrees → mask)
    (hagree : mask → ∀ a b, a < 2 ^ p.aw → b < 2 ^ p.bw →
      p.kept (g a b) = f (a % 2 ^ p.yw) (b % 2 ^ p.yw)) :
    p.Agrees ↔
      (Unextended p.aSigned p.aw p.yw ∧ Unextended p.aSigned p.bw p.yw) ∧ mask := by
  constructor
  · intro h
    refine ⟨⟨?_, ?_⟩, hmask h⟩
    · by_contra hA
      obtain ⟨v, hv, hkept⟩ := h.left (ones_lt p.aw)
      rw [hemitted] at hv
      cases hv
      rw [hvalue, extend_ones hA, extend_zero] at hkept
      exact hleft hA hkept
    · by_contra hB
      obtain ⟨v, hv, hkept⟩ := h.right (ones_lt p.bw)
      rw [hemitted] at hv
      cases hv
      rw [hvalue, extend_ones hB, extend_zero] at hkept
      exact hright hB hkept
  · rintro ⟨⟨hA, hB⟩, hm⟩ a b s ha hb -
    refine ⟨_, hemitted a b s, ?_⟩
    rw [hvalue, extend_of_unextended hA ha, extend_of_unextended hB hb, hagree hm a b ha hb]

variable (hsigns : p.aSigned = p.bSigned)
include hsigns

theorem agrees_add (ht : p.type = .add) : p.Agrees ↔
    Unextended p.aSigned p.aw p.yw ∧ Unextended p.aSigned p.bw p.yw := by
  have h := agrees_binary (p := p) (g := fun a b => (a + b) % 2 ^ p.yw)
    (f := fun a b => (a + b) % 2 ^ p.yw)
    (fun a b s => by simp only [Shape.emitted, ht])
    (fun a b s => by simp only [Shape.value, CellType.value, ht, ← hsigns, Bool.and_self])
    (fun hA => by
      simp only [Nat.add_zero]
      rw [kept_mod, Nat.mod_eq_of_lt (ones_lt p.yw)]
      exact ones_ne hA)
    (fun hB => by
      simp only [Nat.zero_add]
      rw [kept_mod, Nat.mod_eq_of_lt (ones_lt p.yw)]
      exact ones_ne hB)
    (fun _ => trivial)
    (fun _ a b _ _ => by rw [kept_mod, ← Nat.add_mod])
  rwa [and_true] at h

theorem agrees_sub (ht : p.type = .sub) : p.Agrees ↔
    Unextended p.aSigned p.aw p.yw ∧ Unextended p.aSigned p.bw p.yw := by
  have h := agrees_binary (p := p) (g := fun a b => wrap p.yw (a - b))
    (f := fun a b => wrap p.yw (a - b))
    (fun a b s => by simp only [Shape.emitted, ht])
    (fun a b s => by simp only [Shape.value, CellType.value, ht, ← hsigns, Bool.and_self])
    (fun hA => by
      simp only [Nat.cast_zero, Int.sub_zero]
      rw [kept_of_lt (wrap_lt _ _), wrap_natCast, wrap_natCast, Nat.mod_eq_of_lt (ones_lt p.yw)]
      exact ones_ne hA)
    (fun hB heq => by
      rw [kept_of_lt (wrap_lt _ _), wrap_eq_iff, Nat.cast_zero, Int.zero_sub, Int.zero_sub] at heq
      have hones := wrap_eq_iff.mpr (Int.neg_modEq_neg.mp heq)
      rw [wrap_natCast, wrap_natCast, Nat.mod_eq_of_lt (ones_lt p.yw)] at hones
      exact ones_ne hB hones)
    (fun _ => trivial)
    (fun _ a b _ _ => by
      rw [kept_of_lt (wrap_lt _ _), wrap_eq_iff, Int.natCast_emod, Int.natCast_emod,
        natCast_two_pow]
      exact (Int.mod_modEq _ _).symm.sub (Int.mod_modEq _ _).symm)
  rwa [and_true] at h

theorem agrees_or (hp : p.Legal) (ht : p.type = .or) : p.Agrees ↔
    (Unextended p.aSigned p.aw p.yw ∧ Unextended p.aSigned p.bw p.yw) ∧
      p.Fits p.aw ∧ p.Fits p.bw := by
  refine agrees_binary (g := fun a b => a ||| b) (f := fun a b => a ||| b)
    (fun a b s => by simp only [Shape.emitted, ht])
    (fun a b s => by simp only [Shape.value, CellType.value, ht, ← hsigns, Bool.and_self])
    (fun hA => ?_) (fun hB => ?_) (fun h => ⟨?_, ?_⟩) (fun hfits a b ha hb => ?_)
  · rw [Nat.or_zero, Nat.or_zero]
    exact kept_ones_ne hA
  · rw [Nat.zero_or, Nat.zero_or]
    exact kept_ones_ne hB
  · by_contra hfits
    exact hfits (h.fits hp (two_pow_lt (not_fits hfits)) (Nat.two_pow_pos _)
      (v := 2 ^ p.yw) (by simp only [Shape.emitted, ht, Nat.or_zero]) (le_refl _))
  · by_contra hfits
    exact hfits (h.fits hp (Nat.two_pow_pos _) (two_pow_lt (not_fits hfits))
      (v := 2 ^ p.yw) (by simp only [Shape.emitted, ht, Nat.zero_or]) (le_refl _))
  · rw [← Nat.or_mod_two_pow]
    exact kept_eq_mod (fits_lt_or hfits ha hb fun ha' hb' => Nat.or_lt_two_pow ha' hb')

theorem agrees_xor (hp : p.Legal) (ht : p.type = .xor) : p.Agrees ↔
    (Unextended p.aSigned p.aw p.yw ∧ Unextended p.aSigned p.bw p.yw) ∧
      p.Fits p.aw ∧ p.Fits p.bw := by
  refine agrees_binary (g := fun a b => a ^^^ b) (f := fun a b => a ^^^ b)
    (fun a b s => by simp only [Shape.emitted, ht])
    (fun a b s => by simp only [Shape.value, CellType.value, ht, ← hsigns, Bool.and_self])
    (fun hA => ?_) (fun hB => ?_) (fun h => ⟨?_, ?_⟩) (fun hfits a b ha hb => ?_)
  · rw [Nat.xor_zero, Nat.xor_zero]
    exact kept_ones_ne hA
  · rw [Nat.zero_xor, Nat.zero_xor]
    exact kept_ones_ne hB
  · by_contra hfits
    exact hfits (h.fits hp (two_pow_lt (not_fits hfits)) (Nat.two_pow_pos _)
      (v := 2 ^ p.yw) (by simp only [Shape.emitted, ht, Nat.xor_zero]) (le_refl _))
  · by_contra hfits
    exact hfits (h.fits hp (Nat.two_pow_pos _) (two_pow_lt (not_fits hfits))
      (v := 2 ^ p.yw) (by simp only [Shape.emitted, ht, Nat.zero_xor]) (le_refl _))
  · rw [← Nat.xor_mod_two_pow]
    exact kept_eq_mod (fits_lt_or hfits ha hb fun ha' hb' => Nat.xor_lt_two_pow ha' hb')

theorem agrees_and (hp : p.Legal) (ht : p.type = .and) : p.Agrees ↔
    ((Unextended p.aSigned p.aw p.yw ∧ Unextended p.aSigned p.bw p.yw) ∨ p.aw = 0 ∨ p.bw = 0) ∧
      (p.Fits p.aw ∨ p.Fits p.bw) := by
  have hvalue : ∀ a b s, p.value a b s =
      extend p.aSigned p.aw p.yw a &&& extend p.aSigned p.bw p.yw b := by
    intro a b s
    simp only [Shape.value, CellType.value, ht, ← hsigns, Bool.and_self]
  have hemitted : ∀ a b s, p.emitted a b s = some (a &&& b) := by
    intro a b s
    simp only [Shape.emitted, ht]
  constructor
  · intro h
    constructor
    · -- all ones on both sides: all ones, but for a narrower operand
      by_contra hno
      obtain ⟨hext, haw, hbw⟩ : ¬ (Unextended p.aSigned p.aw p.yw ∧
        Unextended p.aSigned p.bw p.yw) ∧ p.aw ≠ 0 ∧ p.bw ≠ 0 := by tauto
      obtain ⟨v, hv, hkept⟩ := h _ _ 0 (ones_lt p.aw) (ones_lt p.bw) (Nat.two_pow_pos _)
      rw [hemitted] at hv
      cases hv
      have hle := kept_le (p := p) ((2 ^ p.aw - 1) &&& (2 ^ p.bw - 1))
      have hleft : (2 ^ p.aw - 1) &&& (2 ^ p.bw - 1) ≤ 2 ^ p.aw - 1 := Nat.and_le_left
      have hright : (2 ^ p.aw - 1) &&& (2 ^ p.bw - 1) ≤ 2 ^ p.bw - 1 := Nat.and_le_right
      have hpos := Nat.two_pow_pos p.aw
      have hpos' := Nat.two_pow_pos p.bw
      rcases not_and_or.mp hext with hA | hB
      · obtain ⟨hsigned, -, hlt⟩ := not_unextended hA
        have hpow := two_pow_lt hlt
        rw [hvalue, extend_all_ones hsigned haw, extend_all_ones hsigned hbw, Nat.and_self] at hkept
        omega
      · obtain ⟨hsigned, -, hlt⟩ := not_unextended hB
        have hpow := two_pow_lt hlt
        rw [hvalue, extend_all_ones hsigned haw, extend_all_ones hsigned hbw, Nat.and_self] at hkept
        omega
    · by_contra hfits
      rw [not_or] at hfits
      exact hfits.1 (h.fits hp (two_pow_lt (not_fits hfits.1)) (two_pow_lt (not_fits hfits.2))
        (v := 2 ^ p.yw) (by rw [hemitted, Nat.and_self]) (le_refl _))
  · rintro ⟨hext, hfits⟩ a b s ha hb -
    refine ⟨_, hemitted a b s, ?_⟩
    have hkept : p.kept (a &&& b) = (a &&& b) % 2 ^ p.yw := by
      rcases hfits with hfits | hfits
      · exact hfits.kept (Nat.lt_of_le_of_lt Nat.and_le_left ha)
      · exact hfits.kept (Nat.lt_of_le_of_lt Nat.and_le_right hb)
    rw [hkept, hvalue]
    rcases hext with ⟨hA, hB⟩ | hzero | hzero
    · rw [extend_of_unextended hA ha, extend_of_unextended hB hb, Nat.and_mod_two_pow]
    · rw [hzero] at ha
      obtain rfl : a = 0 := by omega
      rw [extend_zero, Nat.zero_and, Nat.zero_and, Nat.zero_mod]
    · rw [hzero] at hb
      obtain rfl : b = 0 := by omega
      rw [extend_zero, Nat.and_zero, Nat.and_zero, Nat.zero_mod]

theorem agrees_mul (ht : p.type = .mul) : p.Agrees ↔
    (Unextended p.aSigned p.aw p.yw ∧ Unextended p.aSigned p.bw p.yw) ∨ p.aw = 0 ∨ p.bw = 0 ∨
      (p.aw = 1 ∧ p.bw = 1) := by
  have hvalue : ∀ a b s, p.value a b s =
      extend p.aSigned p.aw p.yw a * extend p.aSigned p.bw p.yw b % 2 ^ p.yw := by
    intro a b s
    simp only [Shape.value, CellType.value, ht, ← hsigns, Bool.and_self]
  have hemitted : ∀ a b s, p.emitted a b s = some (a * b % 2 ^ p.yw) := by
    intro a b s
    simp only [Shape.emitted, ht]
  -- -1 times 1 on the side of the operand that is not extended
  have hleft : p.Agrees → 1 < p.bw → p.aw ≠ 0 → Unextended p.aSigned p.aw p.yw := by
    intro h hbw haw
    by_contra hA
    have hlt := not_unextended hA
    have hone : 1 < 2 ^ p.yw := Nat.one_lt_two_pow (by omega)
    obtain ⟨v, hv, hkept⟩ := h _ 1 0 (ones_lt p.aw) (Nat.one_lt_two_pow (by omega))
      (Nat.two_pow_pos _)
    rw [hemitted] at hv
    cases hv
    rw [hvalue, extend_ones hA, extend_one hbw, Nat.mod_eq_of_lt hone, Nat.mul_one, Nat.mul_one,
      Nat.mod_eq_of_lt (ones_lt p.yw), kept_mod] at hkept
    exact ones_ne hA hkept
  have hright : p.Agrees → 1 < p.aw → p.bw ≠ 0 → Unextended p.aSigned p.bw p.yw := by
    intro h haw hbw
    by_contra hB
    have hlt := not_unextended hB
    have hone : 1 < 2 ^ p.yw := Nat.one_lt_two_pow (by omega)
    obtain ⟨v, hv, hkept⟩ := h 1 _ 0 (Nat.one_lt_two_pow (by omega)) (ones_lt p.bw)
      (Nat.two_pow_pos _)
    rw [hemitted] at hv
    cases hv
    rw [hvalue, extend_ones hB, extend_one haw, Nat.mod_eq_of_lt hone, Nat.one_mul, Nat.one_mul,
      Nat.mod_eq_of_lt (ones_lt p.yw), kept_mod] at hkept
    exact ones_ne hB hkept
  constructor
  · intro h
    by_cases haw : p.aw = 0
    · exact .inr (.inl haw)
    by_cases hbw : p.bw = 0
    · exact .inr (.inr (.inl hbw))
    by_cases hone : p.aw = 1 ∧ p.bw = 1
    · exact .inr (.inr (.inr hone))
    left
    by_cases hA : 1 < p.aw
    · have hB := hright h hA hbw
      by_cases hbw1 : 1 < p.bw
      · exact ⟨hleft h hbw1 haw, hB⟩
      · -- then `B` has one bit, so the output has one bit or the cell is unsigned
        refine ⟨?_, hB⟩
        rcases hB with hs | h0 | hle
        · exact .inl hs
        · exact absurd h0 hbw
        · exact .inr (.inr (by omega))
    · have hA := hleft h (by omega) haw
      refine ⟨hA, ?_⟩
      rcases hA with hs | h0 | hle
      · exact .inl hs
      · exact absurd h0 haw
      · exact .inr (.inr (by omega))
  · intro hcond a b s ha hb _
    refine ⟨_, hemitted a b s, ?_⟩
    rw [kept_mod, hvalue]
    rcases hcond with ⟨hA, hB⟩ | hzero | hzero | ⟨haw, hbw⟩
    · rw [extend_of_unextended hA ha, extend_of_unextended hB hb, ← Nat.mul_mod]
    · rw [hzero] at ha
      obtain rfl : a = 0 := by omega
      rw [extend_zero, Nat.zero_mul, Nat.zero_mul]
    · rw [hzero] at hb
      obtain rfl : b = 0 := by omega
      rw [extend_zero, Nat.mul_zero, Nat.mul_zero]
    · rw [haw] at ha ⊢
      rw [hbw] at hb ⊢
      by_cases ha0 : a = 0
      · rw [ha0, extend_zero, Nat.zero_mul, Nat.zero_mul]
      by_cases hb0 : b = 0
      · rw [hb0, extend_zero, Nat.mul_zero, Nat.mul_zero]
      obtain rfl : a = 2 ^ 1 - 1 := by omega
      obtain rfl : b = 2 ^ 1 - 1 := by omega
      by_cases hsigned : p.aSigned = true
      · rw [extend_all_ones hsigned one_ne_zero, ones_sq]
        rfl
      · have hunsigned : Unextended p.aSigned 1 p.yw := .inl (by simpa using hsigned)
        rw [extend_of_unextended hunsigned (by decide), ← Nat.mul_mod]

omit hsigns in
theorem agrees_not (hyw : p.yw ≤ 64) (haw : p.aw ≤ 64) (ht : p.type = .not) :
    p.Agrees ↔ Unextended p.aSigned p.aw p.yw := by
  have hvalue : ∀ a b s, p.value a b s = 2 ^ p.yw - 1 - extend p.aSigned p.aw p.yw a := by
    intro a b s
    simp only [Shape.value, CellType.value, ht]
  have hemitted : ∀ a b s, a < 2 ^ 64 →
      p.emitted a b s = some (2 ^ p.yw - 1 - a % 2 ^ p.yw) := by
    intro a b s ha
    have hmod : a % 2 ^ p.yw < 2 ^ p.yw := Nat.mod_lt _ (Nat.two_pow_pos _)
    have hbits : (2 ^ 64 - 1 - a) % 2 ^ p.yw = 2 ^ p.yw - 1 - a % 2 ^ p.yw := by
      have hpos := Nat.two_pow_pos p.yw
      refine testBit_ext (Nat.mod_lt _ hpos) (by omega) fun k hk => ?_
      rw [Nat.testBit_mod_two_pow, show 2 ^ 64 - 1 - a = 2 ^ 64 - (a + 1) by omega,
        Nat.testBit_two_pow_sub_succ ha, decide_eq_true hk, Bool.true_and,
        show 2 ^ p.yw - 1 - a % 2 ^ p.yw = 2 ^ p.yw - (a % 2 ^ p.yw + 1) by omega,
        Nat.testBit_two_pow_sub_succ hmod, decide_eq_true hk, Nat.testBit_mod_two_pow,
        decide_eq_true hk, decide_eq_true (show k < 64 by omega)]
      simp only [Bool.true_and]
    simp only [Shape.emitted, ht]
    rw [hbits]
  have hlt64 : ∀ a, a < 2 ^ p.aw → a < 2 ^ 64 := fun a ha =>
    Nat.lt_of_lt_of_le ha (Nat.pow_le_pow_right (by decide) haw)
  have hkept : ∀ a, p.kept (2 ^ p.yw - 1 - a % 2 ^ p.yw) = 2 ^ p.yw - 1 - a % 2 ^ p.yw := by
    intro a
    have hpos := Nat.two_pow_pos p.yw
    exact kept_of_lt (by omega)
  constructor
  · intro h
    by_contra hA
    have hlt := two_pow_lt (not_unextended hA).2.2
    have hpos := Nat.two_pow_pos p.aw
    obtain ⟨v, hv, hkeep⟩ := h.left (ones_lt p.aw)
    rw [hemitted _ _ _ (hlt64 _ (ones_lt _))] at hv
    cases hv
    rw [hkept, hvalue, extend_ones hA, Nat.mod_eq_of_lt (by omega)] at hkeep
    omega
  · intro hA a b s ha _ _
    refine ⟨_, hemitted a b s (hlt64 a ha), ?_⟩
    rw [hkept, hvalue, extend_of_unextended hA ha]

end Arithmetic

theorem bit_eq (hp : p.Legal) (b : Bool) : b.toNat % 2 ^ p.yw = b.toNat := by
  have hone : 1 < 2 ^ p.yw := Nat.one_lt_two_pow (by have := hp.1; omega)
  have hle := Bool.toNat_le b
  exact Nat.mod_eq_of_lt (by omega)

theorem kept_bit (hp : p.Legal) (b : Bool) : p.kept b.toNat = b.toNat := by
  rw [← bit_eq hp b, kept_mod]

theorem toNat_inj : ∀ x y : Bool, x.toNat = y.toNat → x = y := by decide

/-- The operands of `$eq` are extended to the longer of the two. -/
def Shape.EqualWidths (p : Shape) : Prop :=
  Unextended p.aSigned p.aw (max p.aw p.bw) ∧ Unextended p.aSigned p.bw (max p.aw p.bw)

instance (p : Shape) : Decidable p.EqualWidths := inferInstanceAs (Decidable (_ ∧ _))

theorem agrees_equal (test : Bool → Bool) (htest : test true ≠ test false) (hp : p.Legal)
    (hemitted : ∀ a b s, p.emitted a b s = some (test (decide (a = b))).toNat)
    (hvalue : ∀ a b s, p.value a b s = (test (extend p.aSigned p.aw (max p.aw p.bw) a ==
      extend p.aSigned p.bw (max p.aw p.bw) b)).toNat % 2 ^ p.yw) :
    p.Agrees ↔ p.EqualWidths := by
  constructor
  · intro h
    -- all ones on both sides are equal, but not as numbers of different widths
    have hcontra : p.aSigned = true → p.aw ≠ 0 → p.bw ≠ 0 → p.aw = p.bw := by
      intro hsigned haw hbw
      by_contra hne
      obtain ⟨v, hv, hkept⟩ := h _ _ 0 (ones_lt p.aw) (ones_lt p.bw) (Nat.two_pow_pos _)
      rw [hemitted] at hv
      cases hv
      have hpos := Nat.two_pow_pos p.aw
      have hpos' := Nat.two_pow_pos p.bw
      have hones : 2 ^ p.aw - 1 ≠ 2 ^ p.bw - 1 := by
        intro heq
        exact hne (Nat.pow_right_injective (le_refl 2) (by simp only; omega))
      rw [kept_bit hp, hvalue, bit_eq hp, extend_all_ones hsigned haw, extend_all_ones hsigned hbw,
        beq_self_eq_true, decide_eq_false hones] at hkept
      exact htest (toNat_inj _ _ hkept).symm
    constructor
    · by_contra hA
      obtain ⟨hsigned, hpos, hlt⟩ := not_unextended hA
      have := hcontra hsigned (by omega) (by omega)
      omega
    · by_contra hB
      obtain ⟨hsigned, hpos, hlt⟩ := not_unextended hB
      have := hcontra hsigned (by omega) (by omega)
      omega
  · rintro ⟨hA, hB⟩ a b s ha hb -
    refine ⟨_, hemitted a b s, ?_⟩
    have ha' : a < 2 ^ max p.aw p.bw :=
      Nat.lt_of_lt_of_le ha (Nat.pow_le_pow_right (by decide) (le_max_left _ _))
    have hb' : b < 2 ^ max p.aw p.bw :=
      Nat.lt_of_lt_of_le hb (Nat.pow_le_pow_right (by decide) (le_max_right _ _))
    rw [kept_bit hp, hvalue, bit_eq hp, extend_of_unextended hA ha, extend_of_unextended hB hb,
      Nat.mod_eq_of_lt ha', Nat.mod_eq_of_lt hb']
    rfl

/-- An order comparison of signed operands needs bits on both sides. -/
def Shape.Ordered (p : Shape) : Prop := p.aSigned = false ∨ 0 < p.aw ∧ 0 < p.bw

instance (p : Shape) : Decidable p.Ordered := inferInstanceAs (Decidable (_ ∨ _))

theorem agrees_order (test : Int → Int → Bool) (hp : p.Legal)
    (hemitted : ∀ a b s, p.emitted a b s =
      if p.aSigned then
        if p.aw = 0 ∨ p.bw = 0 then none
        else some (test (signedOf p.aw a) (signedOf p.bw b)).toNat
      else some (test a b).toNat)
    (hvalue : ∀ a b s, p.value a b s =
      (if p.aSigned then test (signedOf p.aw a) (signedOf p.bw b) else test a b).toNat % 2 ^ p.yw) :
    p.Agrees ↔ p.Ordered := by
  constructor
  · intro h
    by_contra hno
    obtain ⟨hsigned, hzero⟩ : p.aSigned = true ∧ (p.aw = 0 ∨ p.bw = 0) := by
      rw [Shape.Ordered, not_or, Bool.not_eq_false] at hno
      exact ⟨hno.1, by omega⟩
    obtain ⟨v, hv, -⟩ := h.left (Nat.two_pow_pos p.aw)
    rw [hemitted, if_pos hsigned, if_pos hzero] at hv
    cases hv
  · intro hcond a b s _ _ _
    by_cases hsigned : p.aSigned = true
    · have hpos := hcond.resolve_left (by rw [hsigned]; exact Bool.false_ne_true.symm)
      refine ⟨(test (signedOf p.aw a) (signedOf p.bw b)).toNat, ?_, ?_⟩
      · rw [hemitted, if_pos hsigned, if_neg (by omega)]
      · rw [kept_bit hp, hvalue, if_pos hsigned, bit_eq hp]
    · refine ⟨(test a b).toNat, ?_, ?_⟩
      · rw [hemitted, if_neg hsigned]
      · rw [kept_bit hp, hvalue, if_neg hsigned, bit_eq hp]

theorem agrees_mux (hp : p.Legal) (ht : p.type = .mux) : p.Agrees := by
  have hlegal := hp.2.2
  rw [ht] at hlegal
  intro a b s ha hb hs
  refine ⟨if s ≠ 0 then b else a, by simp only [Shape.emitted, ht], ?_⟩
  rw [hlegal.1] at ha
  rw [hlegal.2.1] at hb
  rw [hlegal.2.2] at hs
  have hvalue : p.value a b s = if s.testBit 0 then b else a := by
    simp only [Shape.value, CellType.value, ht]
  rw [hvalue]
  by_cases h0 : s = 0
  · rw [if_neg (by simpa using h0), kept_of_lt ha, h0, if_neg (by decide)]
  · obtain rfl : s = 1 := by omega
    rw [if_pos h0, kept_of_lt hb, if_pos (by decide)]

/-- The tests of `A` against 0. -/
theorem agrees_zero (test : Nat → Bool) (hp : p.Legal)
    (hemitted : ∀ a b s, p.emitted a b s = some (test a).toNat)
    (hvalue : ∀ a b s, p.value a b s = (test a).toNat % 2 ^ p.yw) : p.Agrees := by
  intro a b s _ _ _
  refine ⟨_, hemitted a b s, ?_⟩
  rw [kept_bit hp, hvalue, bit_eq hp]

/-! ## The arithmetic cells -/

/-- The cells that compute with numbers and bits of the same place. -/
def CellType.Arithmetic : CellType → Prop
  | .add | .sub | .and | .or | .xor | .not | .mul | .eq | .ne | .lt | .le | .gt | .ge | .mux
  | .reduceOr | .logicNot => True
  | _ => False

/-- When the statement of a narrow cell is faithful: the operands need no sign extension, and an
    unmasked result has no bit above the output. -/
def Shape.ScalarOk (p : Shape) : Prop :=
  let extended := Unextended p.aSigned p.aw p.yw ∧ Unextended p.aSigned p.bw p.yw
  match p.type with
  | .add | .sub => extended
  | .mul => extended ∨ p.aw = 0 ∨ p.bw = 0 ∨ p.aw = 1 ∧ p.bw = 1
  | .and => (extended ∨ p.aw = 0 ∨ p.bw = 0) ∧ (p.Fits p.aw ∨ p.Fits p.bw)
  | .or | .xor => extended ∧ p.Fits p.aw ∧ p.Fits p.bw
  | .not => Unextended p.aSigned p.aw p.yw
  | .eq | .ne => p.EqualWidths
  | .lt | .le | .gt | .ge => p.Ordered
  | _ => True

theorem agrees_iff (hp : p.Legal) (hwide : p.wide = false) (ht : p.type.Arithmetic) :
    p.Agrees ↔ p.ScalarOk := by
  simp only [Shape.wide, isWide, Bool.or_eq_false_iff, decide_eq_false_iff_not] at hwide
  have hlegal := hp.2.2
  rw [Shape.ScalarOk]
  cases htype : p.type <;> rw [htype] at ht hlegal <;>
    simp only [CellType.Arithmetic] at ht hlegal ⊢
  case add => exact agrees_add hlegal htype
  case sub => exact agrees_sub hlegal htype
  case mul => exact agrees_mul hlegal htype
  case and => exact agrees_and hlegal hp htype
  case or => exact agrees_or hlegal hp htype
  case xor => exact agrees_xor hlegal hp htype
  case not => exact agrees_not (by omega) (by omega) htype
  case eq =>
    exact agrees_equal id Bool.false_ne_true.symm hp
      (fun a b s => by simp only [Shape.emitted, htype, id])
      (fun a b s => by simp only [Shape.value, CellType.value, htype, ← hlegal, Bool.and_self, id])
  case ne =>
    exact agrees_equal not Bool.false_ne_true hp
      (fun a b s => by simp only [Shape.emitted, htype, ne_eq, decide_not])
      (fun a b s => by simp only [Shape.value, CellType.value, htype, ← hlegal, Bool.and_self])
  case lt =>
    exact agrees_order (fun x y => x < y) hp
      (fun a b s => by simp only [Shape.emitted, htype])
      (fun a b s => by
        simp only [Shape.value, CellType.value, htype, ← hlegal, Bool.and_self, if_true, Int.ofNat_lt])
  case le =>
    exact agrees_order (fun x y => x ≤ y) hp
      (fun a b s => by simp only [Shape.emitted, htype])
      (fun a b s => by
        simp only [Shape.value, CellType.value, htype, ← hlegal, Bool.and_self, Bool.false_eq_true,
          if_false, Int.ofNat_le])
  case gt =>
    exact agrees_order (fun x y => y < x) hp
      (fun a b s => by simp only [Shape.emitted, htype])
      (fun a b s => by
        simp only [Shape.value, CellType.value, htype, ← hlegal, Bool.and_self, if_true, Int.ofNat_lt])
  case ge =>
    exact agrees_order (fun x y => y ≤ x) hp
      (fun a b s => by simp only [Shape.emitted, htype])
      (fun a b s => by
        simp only [Shape.value, CellType.value, htype, ← hlegal, Bool.and_self, Bool.false_eq_true,
          if_false, Int.ofNat_le])
  case mux => exact iff_of_true (agrees_mux hp htype) trivial
  case reduceOr =>
    exact iff_of_true (agrees_zero (fun a => a ≠ 0) hp
      (fun a b s => by simp only [Shape.emitted, htype])
      (fun a b s => by simp only [Shape.value, CellType.value, htype]; cases a <;> rfl)) trivial
  case logicNot =>
    exact iff_of_true (agrees_zero (fun a => a = 0) hp
      (fun a b s => by simp only [Shape.emitted, htype])
      (fun a b s => by simp only [Shape.value, CellType.value, htype]; cases a <;> rfl)) trivial

theorem CellType.Arithmetic.described {t : CellType} (h : t.Arithmetic) : t.Described := by
  cases t <;> first | exact trivial | exact h.elim

/-- The statement of a narrow arithmetic cell is faithful for exactly these shapes. -/
theorem scalar_faithful_iff (size : LimbSize) (p : Shape) (hp : p.Legal) (hwide : p.wide = false)
    (ht : p.type.Arithmetic) : Faithful size p ↔ p.ScalarOk :=
  (faithful_narrow hp hwide ht.described).trans (agrees_iff hp hwide ht)

/-- A signed cell whose output is wider than its operands. -/
def signedCell (type : CellType) (w yw : Nat) : Shape where
  type := type
  aw := w
  bw := w
  sw := 0
  yw := yw
  aSigned := true
  bSigned := true
  wideTarget := false
  scattered := false
  aliased := false

/-- `8'sd` sums of 8 bits are right. -/
theorem scalar_faithful_iff_sum : Faithful .w64 (signedCell .add 8 8) :=
  (scalar_faithful_iff .w64 (signedCell .add 8 8) ⟨by decide, by decide, rfl⟩ rfl trivial).mpr
    ⟨by decide, by decide⟩

/-- `-1 + 0` of 4 bits in 8 bits is 255, and the statement stores 15. -/
theorem not_scalar_faithful_sum : ¬ Faithful .w64 (signedCell .add 4 8) := by
  intro h
  obtain ⟨v, hv, hkept⟩ := (faithful_narrow (p := signedCell .add 4 8)
    ⟨by decide, by decide, rfl⟩ rfl trivial).mp h 15 0 0 (by decide) (by decide) (by decide)
  have hvalue : v = 15 := by simpa [Shape.emitted, signedCell] using hv.symm
  rw [hvalue] at hkept
  revert hkept
  decide

end Yosys.Rtlil
