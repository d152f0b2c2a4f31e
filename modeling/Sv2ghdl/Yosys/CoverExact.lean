import Sv2ghdl.Yosys.CoverSound
import Sv2ghdl.Yosys.ShiftFaithful

/-!
# Exact constraints

The cells whose encoding in `yosys/cover_solve.cpp` is the output that the library defines.  An operand
is only cut or extended with zeros, and a count is cut to the width of the output: for each type, the
widths and signs for which this changes nothing.
-/

open Clang

namespace Yosys.Rtlil

/-! ## What is encoded -/

/-- The cells that `build_cycle` encodes. -/
def CellType.Encoded : CellType → Prop
  | .add | .sub | .mul | .and | .or | .xor | .not | .shl | .shr | .eq | .ne | .lt | .mux | .pmux
  | .logicNot | .reduceOr | .reduceBool | .reduceAnd => True
  | _ => False

/-- The widths of a multiplexer. -/
def Shape.Selects (p : Shape) : Prop :=
  match p.type with
  | .mux => p.aw = p.yw ∧ p.bw = p.yw ∧ p.sw = 1
  | .pmux => p.aw = p.yw ∧ p.bw = p.sw * p.yw
  | _ => True

/-- The widths at which a comparison is made: an operand without bits is a zero of one bit. -/
def Shape.common (p : Shape) : Nat := max (max 1 p.aw) (max 1 p.bw)

/-- The number that the output is equated with. -/
def Shape.encoded (p : Shape) (a b s : Nat) : Nat :=
  let cut (v : Nat) := v % 2 ^ p.yw
  match p.type with
  | .add => cut (a + b)
  | .sub => wrap p.yw (a - b)
  | .mul => cut (a * b)
  | .and => cut a &&& cut b
  | .or => cut a ||| cut b
  | .xor => cut a ^^^ cut b
  | .not => 2 ^ p.yw - 1 - cut a
  | .shl => cut (cut a <<< cut b)
  | .shr => cut a >>> cut b
  | .eq => (decide (a = b)).toNat
  | .ne => (decide (a ≠ b)).toNat
  | .lt =>
    (if p.aSigned then decide (signedOf p.common a < signedOf p.common b) else decide (a < b)).toNat
  -- `all_ones` has 64 bits
  | .reduceAnd => (decide (a = 2 ^ min 64 (max 1 p.aw) - 1)).toNat
  | .logicNot => (decide (a = 0)).toNat
  | .reduceOr | .reduceBool => (decide (a ≠ 0)).toNat
  | .mux => if s = 1 then b else a
  | .pmux =>
    match ((List.range p.sw).filter s.testBit).getLast? with
    | some i => b / 2 ^ (i * p.yw) % 2 ^ p.yw
    | none => a
  | _ => 0

/-- The encoding and the library agree on all operands. -/
def Shape.Exact (p : Shape) : Prop :=
  ∀ a b s, a < 2 ^ p.aw → b < 2 ^ p.bw → s < 2 ^ p.sw → p.encoded a b s = p.value a b s

/-- Both operands are signed, so that the library extends their signs. -/
def Shape.signs (p : Shape) : Bool := p.aSigned && p.bSigned

/-- The widths and signs for which an encoding is exact. -/
def Shape.Encodable (p : Shape) : Prop :=
  let extended := Unextended p.signs p.aw p.yw ∧ Unextended p.signs p.bw p.yw
  match p.type with
  | .add | .sub | .or | .xor => extended
  | .and => extended ∨ p.aw = 0 ∨ p.bw = 0
  | .mul => extended ∨ p.aw = 0 ∨ p.bw = 0 ∨ p.aw = 1 ∧ p.bw = 1
  | .not => Unextended p.aSigned p.aw p.yw
  | .shl => Unextended p.aSigned p.aw p.yw ∧ (p.bw ≤ p.yw ∨ p.aw = 0)
  | .shr => Unextended p.aSigned p.aw p.yw ∧ (p.aw ≤ p.yw ∨ p.bw = 0) ∧ (p.bw ≤ p.yw ∨ p.aw = 0)
  | .eq | .ne => Unextended p.signs p.aw (max p.aw p.bw) ∧ Unextended p.signs p.bw (max p.aw p.bw)
  | .lt =>
    p.aSigned = false ∨ p.aw = 0 ∧ p.bw = 0 ∨ p.bSigned = true ∧ (p.aw = p.bw ∨ p.aw = 0 ∨ p.bw = 0)
  | .reduceAnd => 0 < p.aw ∧ p.aw ≤ 64
  | _ => True

instance (p : Shape) : Decidable p.Encodable := by
  unfold Shape.Encodable
  cases p.type <;> infer_instance

/-! ## Exact cells -/

variable {p : Shape}

/-- The shape with the signs that the library extends, and an output that is cut. -/
def Shape.cut (p : Shape) : Shape :=
  { p with aSigned := p.signs, bSigned := p.signs, scattered := true }

theorem cut_legal (hyw : 0 < p.yw) (ht : p.type = .or ∨ p.type = .xor ∨ p.type = .and ∨ p.type = .eq ∨
    p.type = .ne) : p.cut.Legal := by
  have hscattered : p.cut.scattered = true := rfl
  have htype : p.cut.type = p.type := rfl
  refine ⟨hyw, fun h => absurd (hscattered.symm.trans h) (by decide), ?_⟩
  rw [htype]
  rcases ht with ht | ht | ht | ht | ht <;> rw [ht] <;> rfl

/-- What is known of the scalar statement of `yosys/gen_statemachine.cpp` that computes the same. -/
theorem exact_of_agrees (h : ∀ a b s, a < 2 ^ p.aw → b < 2 ^ p.bw →
      ∃ v, p.cut.emitted a b s = some v ∧ p.cut.kept v = p.encoded a b s)
    (hvalue : ∀ a b s, p.cut.value a b s = p.value a b s) : p.cut.Agrees ↔ p.Exact := by
  constructor
  · intro hagrees a b s ha hb hs
    obtain ⟨v, hv, hkept⟩ := h a b s ha hb
    obtain ⟨v', hv', hkept'⟩ := hagrees a b s ha hb hs
    cases hv.symm.trans hv'
    rw [← hkept, hkept', hvalue]
  · intro hexact a b s ha hb hs
    obtain ⟨v, hv, hkept⟩ := h a b s ha hb
    exact ⟨v, hv, by rw [hkept, hvalue]; exact hexact a b s ha hb hs⟩

theorem cut_kept (v : Nat) : p.cut.kept v = v % 2 ^ p.yw := if_pos rfl

theorem exact_add (ht : p.type = .add) : p.Exact ↔ p.Encodable := by
  have hsame := exact_of_agrees (p := p)
    (fun a b s _ _ => ⟨(a + b) % 2 ^ p.yw, by simp [Shape.emitted, Shape.cut, ht], by
      simp [cut_kept, Shape.encoded, ht]⟩)
    (fun a b s => by simp [Shape.value, CellType.value, Shape.cut, ht, Shape.signs])
  rw [← hsame, agrees_add (p := p.cut) rfl ht]
  simp only [Shape.Encodable, ht, Shape.cut]

theorem exact_sub (ht : p.type = .sub) : p.Exact ↔ p.Encodable := by
  have hsame := exact_of_agrees (p := p)
    (fun a b s _ _ => ⟨wrap p.yw (a - b), by simp [Shape.emitted, Shape.cut, ht], by
      simp [cut_kept, Shape.encoded, ht, Nat.mod_eq_of_lt (wrap_lt _ _)]⟩)
    (fun a b s => by simp [Shape.value, CellType.value, Shape.cut, ht, Shape.signs])
  rw [← hsame, agrees_sub (p := p.cut) rfl ht]
  simp only [Shape.Encodable, ht, Shape.cut]

theorem exact_mul (ht : p.type = .mul) : p.Exact ↔ p.Encodable := by
  have hsame := exact_of_agrees (p := p)
    (fun a b s _ _ => ⟨a * b % 2 ^ p.yw, by simp [Shape.emitted, Shape.cut, ht], by
      simp [cut_kept, Shape.encoded, ht]⟩)
    (fun a b s => by simp [Shape.value, CellType.value, Shape.cut, ht, Shape.signs])
  rw [← hsame, agrees_mul (p := p.cut) rfl ht]
  simp only [Shape.Encodable, ht, Shape.cut]

theorem exact_or (hyw : 0 < p.yw) (ht : p.type = .or) : p.Exact ↔ p.Encodable := by
  have hsame := exact_of_agrees (p := p)
    (fun a b s _ _ => ⟨a ||| b, by simp [Shape.emitted, Shape.cut, ht], by
      simp [cut_kept, Shape.encoded, ht, Nat.or_mod_two_pow]⟩)
    (fun a b s => by simp [Shape.value, CellType.value, Shape.cut, ht, Shape.signs])
  rw [← hsame, agrees_or rfl (cut_legal hyw (by tauto)) ht]
  simp [Shape.Encodable, ht, Shape.cut, Shape.Fits]

theorem exact_xor (hyw : 0 < p.yw) (ht : p.type = .xor) : p.Exact ↔ p.Encodable := by
  have hsame := exact_of_agrees (p := p)
    (fun a b s _ _ => ⟨a ^^^ b, by simp [Shape.emitted, Shape.cut, ht], by
      simp [cut_kept, Shape.encoded, ht, Nat.xor_mod_two_pow]⟩)
    (fun a b s => by simp [Shape.value, CellType.value, Shape.cut, ht, Shape.signs])
  rw [← hsame, agrees_xor rfl (cut_legal hyw (by tauto)) ht]
  simp [Shape.Encodable, ht, Shape.cut, Shape.Fits]

theorem exact_and (hyw : 0 < p.yw) (ht : p.type = .and) : p.Exact ↔ p.Encodable := by
  have hsame := exact_of_agrees (p := p)
    (fun a b s _ _ => ⟨a &&& b, by simp [Shape.emitted, Shape.cut, ht], by
      simp [cut_kept, Shape.encoded, ht, Nat.and_mod_two_pow]⟩)
    (fun a b s => by simp [Shape.value, CellType.value, Shape.cut, ht, Shape.signs])
  rw [← hsame, agrees_and rfl (cut_legal hyw (by tauto)) ht]
  simp [Shape.Encodable, ht, Shape.cut, Shape.Fits]

/-- `$eq` and `$ne` -/
theorem exact_equal (hyw : 0 < p.yw) (test : Bool → Bool) (htest : test true ≠ test false)
    (ht : p.type = .eq ∨ p.type = .ne)
    (hencoded : ∀ a b s, p.encoded a b s = (test (decide (a = b))).toNat)
    (hemitted : ∀ a b s, p.cut.emitted a b s = some (test (decide (a = b))).toNat)
    (hvalue : ∀ a b s, p.value a b s = (test (extend p.signs p.aw (max p.aw p.bw) a ==
      extend p.signs p.bw (max p.aw p.bw) b)).toNat % 2 ^ p.yw)
    (hcut : ∀ a b s, p.cut.value a b s = p.value a b s) : p.Exact ↔ p.Encodable := by
  have hlegal := cut_legal hyw (by tauto)
  have hsame := exact_of_agrees (p := p)
    (fun a b s _ _ => ⟨_, hemitted a b s, by rw [kept_bit hlegal, hencoded]⟩) hcut
  rw [← hsame, agrees_equal test htest hlegal hemitted fun a b s => (hcut a b s).trans (hvalue a b s)]
  rcases ht with ht | ht <;> simp only [Shape.Encodable, ht, Shape.EqualWidths, Shape.cut]

theorem exact_complement (ht : p.type = .not) : p.Exact ↔ p.Encodable := by
  have hencoded : ∀ a b s, p.encoded a b s = 2 ^ p.yw - 1 - a % 2 ^ p.yw := by
    intro a b s
    simp only [Shape.encoded, ht]
  have hvalue : ∀ a b s, p.value a b s = 2 ^ p.yw - 1 - extend p.aSigned p.aw p.yw a := by
    intro a b s
    simp only [Shape.value, CellType.value, ht]
  simp only [Shape.Encodable, ht]
  constructor
  · intro h
    by_contra hA
    have hne := ones_ne hA
    have hlt := Nat.mod_lt (2 ^ p.aw - 1) (Nat.two_pow_pos p.yw)
    have heq := h _ 0 0 (ones_lt p.aw) (Nat.two_pow_pos _) (Nat.two_pow_pos _)
    rw [hencoded, hvalue, extend_ones hA] at heq
    omega
  · intro hA a b s ha _ _
    rw [hencoded, hvalue, extend_of_unextended hA ha]

theorem exact_shl (hyw : 0 < p.yw) (ht : p.type = .shl) : p.Exact ↔ p.Encodable := by
  have hencoded : ∀ a b s, p.encoded a b s = (a <<< (b % 2 ^ p.yw)) % 2 ^ p.yw := by
    intro a b s
    simp only [Shape.encoded, ht, mod_shiftLeft]
  have hvalue : ∀ a b s, p.value a b s = (extend p.aSigned p.aw p.yw a <<< b) % 2 ^ p.yw := by
    intro a b s
    simp only [Shape.value, CellType.value, ht]
  simp only [Shape.Encodable, ht]
  constructor
  · intro h
    constructor
    · by_contra hA
      have heq := h _ 0 0 (ones_lt p.aw) (Nat.two_pow_pos _) (Nat.two_pow_pos _)
      rw [hencoded, hvalue, extend_ones hA, Nat.zero_mod, Nat.shiftLeft_zero, Nat.shiftLeft_zero,
        Nat.mod_eq_of_lt (ones_lt p.yw)] at heq
      exact ones_ne hA heq
    · -- a count of `2 ^ yw` is cut to 0
      by_contra hno
      obtain ⟨hbw, haw⟩ := not_or.mp hno
      have hone : 1 < 2 ^ p.yw := Nat.one_lt_two_pow (by omega)
      have heq := h 1 (2 ^ p.yw) 0 (Nat.one_lt_two_pow haw) (two_pow_lt (by omega)) (Nat.two_pow_pos _)
      rw [hencoded, hvalue, Nat.mod_self, Nat.shiftLeft_zero, Nat.mod_eq_of_lt hone,
        shiftLeft_mod_zero Nat.lt_two_pow_self.le] at heq
      exact absurd heq one_ne_zero
  · rintro ⟨hA, hcount⟩ a b s ha hb -
    rw [hencoded, hvalue, extend_of_unextended hA ha, mod_shiftLeft]
    rcases hcount with hbw | haw
    · rw [Nat.mod_eq_of_lt (hb.trans_le (Nat.pow_le_pow_right (by decide) hbw))]
    · rw [eq_zero_of_width haw ha, Nat.zero_shiftLeft, Nat.zero_shiftLeft]

theorem exact_shr (hyw : 0 < p.yw) (ht : p.type = .shr) : p.Exact ↔ p.Encodable := by
  have hencoded : ∀ a b s, p.encoded a b s = (a % 2 ^ p.yw) >>> (b % 2 ^ p.yw) := by
    intro a b s
    simp only [Shape.encoded, ht]
  have hvalue : ∀ a b s,
      p.value a b s = (extend p.aSigned p.aw (max p.aw p.yw) a >>> b) % 2 ^ p.yw := by
    intro a b s
    simp only [Shape.value, CellType.value, ht]
  have hone : 1 < 2 ^ p.yw := Nat.one_lt_two_pow (by omega)
  simp only [Shape.Encodable, ht]
  constructor
  · intro h
    have hA : Unextended p.aSigned p.aw p.yw := by
      by_contra hA
      have heq := h _ 0 0 (ones_lt p.aw) (Nat.two_pow_pos _) (Nat.two_pow_pos _)
      rw [hencoded, hvalue, extend_max_ones p.aSigned hA, Nat.zero_mod, Nat.shiftRight_zero,
        Nat.shiftRight_zero, Nat.mod_eq_of_lt (ones_lt p.yw)] at heq
      exact ones_ne hA heq
    have hfits : p.aw ≤ p.yw ∨ p.bw = 0 := by
      -- the bit above the output is cut before it is shifted in
      by_contra hno
      obtain ⟨haw, hbw⟩ := not_or.mp hno
      have hlt : 2 ^ p.yw < 2 ^ p.aw := two_pow_lt (by omega)
      have hhalf : 2 ^ p.yw / 2 ^ 1 = 2 ^ (p.yw - 1) := Nat.pow_div hyw (by decide)
      have heq := h (2 ^ p.yw) 1 0 hlt (Nat.one_lt_two_pow hbw) (Nat.two_pow_pos _)
      rw [hencoded, hvalue, extend_max p.aSigned hA hlt, Nat.mod_self, Nat.zero_shiftRight,
        Nat.shiftRight_eq_div_pow, hhalf, Nat.mod_eq_of_lt (two_pow_lt (by omega))] at heq
      exact absurd heq.symm (Nat.two_pow_pos _).ne'
    refine ⟨hA, hfits, ?_⟩
    by_contra hno
    obtain ⟨hbw, haw⟩ := not_or.mp hno
    have hlt : 1 < 2 ^ p.aw := Nat.one_lt_two_pow haw
    have heq := h 1 (2 ^ p.yw) 0 hlt (two_pow_lt (by omega)) (Nat.two_pow_pos _)
    rw [hencoded, hvalue, extend_max p.aSigned hA hlt, Nat.mod_self, Nat.shiftRight_zero,
      Nat.mod_eq_of_lt hone, shiftRight_zero hone Nat.lt_two_pow_self.le, Nat.zero_mod] at heq
    exact absurd heq one_ne_zero
  · rintro ⟨hA, hfits, hcount⟩ a b s ha hb -
    rw [hencoded, hvalue, extend_max p.aSigned hA ha]
    rcases hcount with hbw | haw
    · rw [Nat.mod_eq_of_lt (hb.trans_le (Nat.pow_le_pow_right (by decide) hbw))]
      rcases hfits with haw | hbw
      · have ha' : a < 2 ^ p.yw := ha.trans_le (Nat.pow_le_pow_right (by decide) haw)
        have hle : a >>> b ≤ a := Nat.shiftRight_le a b
        rw [Nat.mod_eq_of_lt ha', Nat.mod_eq_of_lt (by omega)]
      · rw [eq_zero_of_width hbw hb, Nat.shiftRight_zero, Nat.shiftRight_zero]
    · rw [eq_zero_of_width haw ha, Nat.zero_mod, Nat.zero_shiftRight, Nat.zero_shiftRight, Nat.zero_mod]

/-! ## Comparisons and tests -/

theorem toNat_mod (hyw : 0 < p.yw) (x : Bool) : x.toNat % 2 ^ p.yw = x.toNat := by
  have hone : 1 < 2 ^ p.yw := Nat.one_lt_two_pow (by omega)
  have hle := Bool.toNat_le x
  exact Nat.mod_eq_of_lt (by omega)

theorem signedOf_top {w : Nat} (hw : 0 < w) : signedOf w (2 ^ (w - 1)) < 0 := by
  have hpow := two_pow_pred hw
  have hpos := Nat.two_pow_pos (w - 1)
  rw [signedOf, if_neg (lt_irrefl _), ← natCast_two_pow]
  omega

theorem signedOf_low {w n : Nat} (hpos : 0 < w) (hw : w < n) : 0 < signedOf n (2 ^ (w - 1)) := by
  have hlt := Nat.two_pow_pos (w - 1)
  rw [signedOf, if_pos (two_pow_lt (by omega))]
  omega

/-- The sign is at the same place in both widths. -/
theorem signedOf_common {w v : Nat} (hw : p.common = w ∨ w = 0) (hv : v < 2 ^ w) :
    signedOf p.common v = signedOf w v := by
  rcases hw with hw | hw
  · rw [hw]
  · rw [eq_zero_of_width hw hv, signedOf_zero, signedOf_zero]

theorem exact_lt (hyw : 0 < p.yw) (ht : p.type = .lt) : p.Exact ↔ p.Encodable := by
  have hencoded : ∀ a b s, p.encoded a b s = (if p.aSigned then
      decide (signedOf p.common a < signedOf p.common b) else decide (a < b)).toNat := by
    intro a b s
    simp only [Shape.encoded, ht]
  have hvalue : ∀ a b s, p.value a b s = (if p.aSigned && p.bSigned then
      decide (signedOf p.aw a < signedOf p.bw b) else decide (a < b)).toNat := by
    intro a b s
    simp only [Shape.value, CellType.value, ht, if_true]
    exact toNat_mod hyw _
  have hzero : ∀ w, 0 < 2 ^ w := Nat.two_pow_pos
  simp only [Shape.Encodable, ht]
  constructor
  · intro h
    by_cases hA : p.aSigned = true
    · by_cases hnone : p.aw = 0 ∧ p.bw = 0
      · exact .inr (.inl hnone)
      have hagree : ∀ a b, a < 2 ^ p.aw → b < 2 ^ p.bw →
          decide (signedOf p.common a < signedOf p.common b) = if p.aSigned && p.bSigned then
            decide (signedOf p.aw a < signedOf p.bw b) else decide (a < b) := by
        intro a b ha hb
        have heq := h a b 0 ha hb (hzero _)
        rw [hencoded, hvalue, if_pos hA] at heq
        exact toNat_inj _ _ heq
      -- the operand whose top bit is compared as a sign
      have htop : ∀ w, 0 < w → 2 ^ (w - 1) < 2 ^ w := fun w hw => two_pow_lt (by omega)
      by_cases hB : p.bSigned = true
      · refine .inr (.inr ⟨hB, ?_⟩)
        by_contra hno
        rw [hA, hB] at hagree
        rcases lt_or_gt_of_ne (show p.aw ≠ p.bw by omega) with hlt | hlt
        · have hcommon : p.common = p.bw := by
            unfold Shape.common
            omega
          have heq := hagree _ 0 (htop p.aw (by omega)) (hzero _)
          rw [hcommon, signedOf_zero, Bool.and_self, if_pos rfl,
            decide_eq_true (signedOf_top (by omega)), decide_eq_true_iff] at heq
          have hlow := signedOf_low (show 0 < p.aw by omega) hlt
          omega
        · have hcommon : p.common = p.aw := by
            unfold Shape.common
            omega
          have heq := hagree 0 _ (hzero _) (htop p.bw (by omega))
          have hneg := signedOf_top (show 0 < p.bw by omega)
          rw [hcommon, signedOf_zero, Bool.and_self, if_pos rfl,
            decide_eq_true (signedOf_low (by omega) hlt), eq_comm, decide_eq_true_iff] at heq
          omega
      · rw [hA, Bool.eq_false_of_not_eq_true hB] at hagree
        exfalso
        rcases le_or_gt p.bw p.aw with hle | hlt
        · have hcommon : p.common = p.aw := by
            unfold Shape.common
            omega
          have heq := hagree _ 0 (htop p.aw (by omega)) (hzero _)
          rw [hcommon, signedOf_zero, decide_eq_true (signedOf_top (by omega))] at heq
          exact absurd heq (by simp)
        · have hcommon : p.common = p.bw := by
            unfold Shape.common
            omega
          have heq := hagree 0 _ (hzero _) (htop p.bw (by omega))
          have hneg := signedOf_top (show 0 < p.bw by omega)
          rw [hcommon, signedOf_zero, decide_eq_false (by omega)] at heq
          exact absurd heq.symm (by simp)
    · exact .inl (Bool.eq_false_of_not_eq_true hA)
  · intro hcond a b s ha hb _
    rw [hencoded, hvalue]
    rcases hcond with hA | ⟨haw, hbw⟩ | ⟨hB, hwidths⟩
    · rw [hA]
      rfl
    · rw [eq_zero_of_width haw ha, eq_zero_of_width hbw hb]
      simp [signedOf_zero]
    · have hcommon : (p.common = p.aw ∨ p.aw = 0) ∧ (p.common = p.bw ∨ p.bw = 0) := by
        unfold Shape.common
        omega
      rw [signedOf_common hcommon.1 ha, signedOf_common hcommon.2 hb, hB, Bool.and_true]

theorem exact_reduceAnd (hyw : 0 < p.yw) (ht : p.type = .reduceAnd) : p.Exact ↔ p.Encodable := by
  have hencoded : ∀ a b s, p.encoded a b s = (decide (a = 2 ^ min 64 (max 1 p.aw) - 1)).toNat := by
    intro a b s
    simp only [Shape.encoded, ht]
  have hvalue : ∀ a b s, p.value a b s = (decide (a = 2 ^ p.aw - 1)).toNat := by
    intro a b s
    simp only [Shape.value, CellType.value, ht]
    exact toNat_mod hyw _
  simp only [Shape.Encodable, ht]
  constructor
  · intro h
    -- all ones of the operand
    have heq := h _ 0 0 (ones_lt p.aw) (Nat.two_pow_pos _) (Nat.two_pow_pos _)
    rw [hencoded, hvalue] at heq
    have hones : 2 ^ p.aw - 1 = 2 ^ min 64 (max 1 p.aw) - 1 := by
      simpa using toNat_inj _ _ heq
    have hpos := Nat.two_pow_pos p.aw
    have hpos' := Nat.two_pow_pos (min 64 (max 1 p.aw))
    have hwidth : p.aw = min 64 (max 1 p.aw) := Nat.pow_right_injective (le_refl 2) (by simp only; omega)
    omega
  · intro hcond a b s _ _ _
    rw [hencoded, hvalue, show min 64 (max 1 p.aw) = p.aw by omega]

/-- The cells that are exact whatever the widths are. -/
theorem exact_select (hyw : 0 < p.yw) (hp : p.Selects) (ht : p.type = .logicNot ∨ p.type = .reduceOr ∨
    p.type = .reduceBool ∨ p.type = .mux ∨ p.type = .pmux) : p.Exact := by
  intro a b s ha hb hs
  rcases ht with ht | ht | ht | ht | ht
  · simp only [Shape.encoded, Shape.value, CellType.value, ht]
    exact (toNat_mod hyw _).symm
  · simp only [Shape.encoded, Shape.value, CellType.value, ht]
    rw [toNat_mod hyw]
    simp only [ne_eq, decide_not]
    rfl
  · simp only [Shape.encoded, Shape.value, CellType.value, ht]
    rw [toNat_mod hyw]
    simp only [ne_eq, decide_not]
    rfl
  · rw [Shape.Selects, ht] at hp
    rw [hp.2.2] at hs
    simp only [Shape.encoded, Shape.value, CellType.value, ht]
    interval_cases s <;> simp
  · rw [Shape.Selects, ht] at hp
    simp only [Shape.encoded, Shape.value, CellType.value, ht]
    rw [hp.2, Nat.mul_div_cancel _ hyw]
    cases ((List.range p.sw).filter s.testBit).getLast? with
    | none => rfl
    | some i => simp only [Nat.shiftRight_eq_div_pow]

/-- The encoding agrees with the library on all operands for these widths and signs, and no others. -/
theorem exact_iff_encodable (hyw : 0 < p.yw) (hp : p.Selects) (ht : p.type.Encoded) : p.Exact ↔ p.Encodable := by
  cases htype : p.type with
  | add => exact exact_add htype
  | sub => exact exact_sub htype
  | mul => exact exact_mul htype
  | and => exact exact_and hyw htype
  | or => exact exact_or hyw htype
  | xor => exact exact_xor hyw htype
  | not => exact exact_complement htype
  | shl => exact exact_shl hyw htype
  | shr => exact exact_shr hyw htype
  | lt => exact exact_lt hyw htype
  | reduceAnd => exact exact_reduceAnd hyw htype
  | eq =>
    apply exact_equal hyw id (by decide) (.inl htype)
    all_goals
      intro a b s
      simp [Shape.encoded, Shape.emitted, Shape.value, CellType.value, Shape.cut, Shape.signs, htype]
  | ne =>
    apply exact_equal hyw Bool.not (by decide) (.inr htype)
    all_goals
      intro a b s
      simp [Shape.encoded, Shape.emitted, Shape.value, CellType.value, Shape.cut, Shape.signs, htype]
  | logicNot | reduceOr | reduceBool | mux | pmux =>
    simp only [Shape.Encodable, htype, iff_true]
    exact exact_select hyw hp (by tauto)
  | _ =>
    rw [htype] at ht
    exact ht.elim

/-- Without bits in the output there is nothing to encode. -/
theorem value_empty (hyw : p.yw = 0) (hp : p.Selects) (ht : p.type.Encoded) {a b s : Nat}
    (ha : a < 2 ^ p.aw) (hb : b < 2 ^ p.bw) : p.value a b s = 0 := by
  have hone : 2 ^ p.yw = 1 := by
    rw [hyw, pow_zero]
  have hmod : ∀ x, x % 2 ^ p.yw = 0 := by
    intro x
    rw [hone, Nat.mod_one]
  have hextend : ∀ isSigned w v, extend isSigned w p.yw v = 0 := by
    intro isSigned w v
    have hlt := extend_lt isSigned w p.yw v
    omega
  have hwrap : ∀ x, wrap p.yw x = 0 := by
    intro x
    have hlt := wrap_lt p.yw x
    omega
  rw [Shape.value, CellType.value.eq_def]
  cases htype : p.type <;> rw [htype] at ht <;> simp only
  case add | mul | shl | shr | eq | ne | lt | reduceAnd | reduceOr | reduceBool | logicNot => exact hmod _
  case sub => exact hwrap _
  case and | or | xor => rw [hextend, hextend]; rfl
  case not => rw [hextend, hyw]; rfl
  case mux =>
    rw [Shape.Selects, htype] at hp
    rw [eq_zero_of_width (hp.1.trans hyw) ha, eq_zero_of_width (hp.2.1.trans hyw) hb, ite_self]
  case pmux =>
    rw [Shape.Selects, htype] at hp
    split
    · exact hmod _
    · exact eq_zero_of_width (hp.1.trans hyw) ha
  all_goals exact ht.elim

/-- The multiplexers apart, the encoding has no bit above the output. -/
theorem encoded_lt (hyw : 0 < p.yw) (hmux : p.type ≠ .mux ∧ p.type ≠ .pmux) (a b s : Nat) :
    p.encoded a b s < 2 ^ p.yw := by
  have hpos := Nat.two_pow_pos p.yw
  have hmod : ∀ x, x % 2 ^ p.yw < 2 ^ p.yw := fun x => Nat.mod_lt x hpos
  have hbit : ∀ x : Bool, x.toNat < 2 ^ p.yw := by
    intro x
    rw [← toNat_mod hyw x]
    exact hmod _
  rw [Shape.encoded.eq_def]
  cases htype : p.type <;> simp only
  case add | mul | shl => exact hmod _
  case eq | ne | lt | reduceAnd | reduceOr | reduceBool | logicNot => exact hbit _
  case sub => exact wrap_lt _ _
  case and => exact Nat.and_lt_two_pow _ (hmod b)
  case or => exact Nat.or_lt_two_pow (hmod a) (hmod b)
  case xor => exact Nat.xor_lt_two_pow (hmod a) (hmod b)
  case not => omega
  case shr => exact (Nat.shiftRight_le _ _).trans_lt (hmod a)
  case mux => exact absurd htype hmux.1
  case pmux => exact absurd htype hmux.2
  all_goals exact hpos

end Yosys.Rtlil
