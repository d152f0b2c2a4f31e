import Sv2ghdl.Yosys.CoverExact
import Sv2ghdl.Yosys.WideCells

/-!
# Constraints of cells

What `build_cycle` asserts for a cell: the variable of its output is the number that `Shape.encoded`
gives for the operands.  So the constraint holds exactly when the output is that of the library, for the
shapes whose encoding is exact and no others.
-/

open Smt

namespace Yosys.Cover

open Rtlil

/-! ## Terms of operands -/

/-- A term that spells a number of `w` bits; one without bits is a zero of one bit. -/
structure Reads (t : Term Var) (w : Nat) (v : (Var → Nat) → Nat) : Prop where
  width : t.width = max 1 w
  eval : ∀ ρ, t.eval ρ = v ρ
  lt : ∀ ρ, v ρ < 2 ^ w

variable {t a b : Term Var} {w aw bw n : Nat} {v va vb : (Var → Nat) → Nat}

theorem ofNat_mod (n x : Nat) : BitVec.ofNat n (x % 2 ^ n) = BitVec.ofNat n x := by
  apply BitVec.eq_of_toNat_eq
  rw [BitVec.toNat_ofNat, BitVec.toNat_ofNat, Nat.mod_mod]

/-- `norm1`, to a width that is not zero -/
theorem Reads.norm (h : Reads t w v) (hn : 0 < n) :
    ∃ t', norm t n = some t' ∧ t'.width = n ∧ ∀ ρ, t'.eval ρ = v ρ % 2 ^ n := by
  have hwidth := h.width
  have hlt : ∀ ρ, w ≤ n → v ρ % 2 ^ n = v ρ := fun ρ hle =>
    Nat.mod_eq_of_lt ((h.lt ρ).trans_le (Nat.pow_le_pow_right (by decide) hle))
  unfold Cover.norm
  split_ifs with hshort hlong
  · refine ⟨_, rfl, ?_, fun ρ => ?_⟩
    · rw [Term.width]
      omega
    · rw [Term.eval, h.eval, hlt ρ (by omega)]
  · have hsize : n - 1 - 0 + 1 = n := by omega
    refine ⟨_, if_pos ⟨Nat.zero_le _, by omega⟩, hsize, fun ρ => ?_⟩
    rw [Term.eval, h.eval, pow_zero, Nat.div_one, hsize]
  · refine ⟨t, rfl, by omega, fun ρ => ?_⟩
    rw [h.eval, hlt ρ (by omega)]

/-- A binary operation on operands that are brought to the width of the output. -/
theorem op_encoded (ha : Reads a aw va) (hb : Reads b bw vb) (hn : 0 < n) (op : BinOp) :
    ∃ t, (do (← norm a n).mkBin op (← norm b n)) = some t ∧ t.width = n ∧ ∀ ρ, t.eval ρ =
      (op.eval (BitVec.ofNat n (va ρ % 2 ^ n)) (BitVec.ofNat n (vb ρ % 2 ^ n))).toNat := by
  obtain ⟨a', hnorm, hwidth, heval⟩ := ha.norm hn
  obtain ⟨b', hnorm', hwidth', heval'⟩ := hb.norm hn
  refine ⟨.bin op a' b', ?_, hwidth, fun ρ => ?_⟩
  · rw [hnorm, hnorm']
    exact if_pos (hwidth.trans hwidth'.symm)
  · rw [Term.eval, heval, heval']
    subst hwidth
    rfl

/-- A flag in the bits of the output. -/
theorem flag_encoded (hn : 0 < n) (r : Rel) (x y : Term Var) (hsize : x.width = y.width) :
    ∃ t, bit n r x y = some t ∧ t.width = n ∧ ∀ ρ, t.eval ρ =
      (r.eval (BitVec.ofNat x.width (x.eval ρ)) (BitVec.ofNat x.width (y.eval ρ))).toNat := by
  have hone : 1 < 2 ^ n := Nat.one_lt_two_pow (by omega)
  refine ⟨_, if_pos ⟨hsize, rfl⟩, rfl, fun ρ => ?_⟩
  rw [Term.eval, Term.eval, Term.eval, Nat.mod_eq_of_lt hone, Nat.zero_mod]
  cases r.eval _ _ with
  | true => rfl
  | false => rfl

/-- A comparison of operands that are brought to the wider of the two. -/
theorem compare_encoded (ha : Reads a aw va) (hb : Reads b bw vb) (hn : 0 < n) {m : Nat}
    (hm : m = max (max 1 aw) (max 1 bw)) (r : Rel) :
    ∃ t, (do bit n r (← norm a (max a.width b.width)) (← norm b (max a.width b.width))) = some t ∧
      t.width = n ∧
      ∀ ρ, t.eval ρ = (r.eval (BitVec.ofNat m (va ρ)) (BitVec.ofNat m (vb ρ))).toNat := by
  rw [ha.width, hb.width, ← hm]
  obtain ⟨a', hnorm, hwidth, heval⟩ := ha.norm (n := m) (by omega)
  obtain ⟨b', hnorm', hwidth', heval'⟩ := hb.norm (n := m) (by omega)
  obtain ⟨t, hbit, hsize, hflag⟩ := flag_encoded hn r a' b' (hwidth.trans hwidth'.symm)
  refine ⟨t, ?_, hsize, fun ρ => ?_⟩
  · rw [hnorm, hnorm']
    exact hbit
  · rw [hflag, heval, heval', hwidth, ofNat_mod, ofNat_mod]

/-! ## Operations as numbers -/

theorem eval_sub (n x y : Nat) :
    (BinOp.eval (BitVec.ofNat n (x % 2 ^ n)) (BitVec.ofNat n (y % 2 ^ n)) .sub).toNat =
      wrap n (x - y) := by
  have hy := Nat.mod_lt y (Nat.two_pow_pos n)
  rw [BinOp.eval, ofNat_mod, ofNat_mod, BitVec.toNat_sub, BitVec.toNat_ofNat, BitVec.toNat_ofNat,
    ← wrap_natCast, wrap_eq_iff, Nat.cast_add, Nat.cast_sub hy.le, natCast_two_pow, Int.natCast_mod,
    Int.natCast_mod, natCast_two_pow, Int.modEq_iff_dvd]
  have hx := Int.emod_add_mul_ediv x (2 ^ n)
  have hy := Int.emod_add_mul_ediv y (2 ^ n)
  exact ⟨x / 2 ^ n - y / 2 ^ n - 1, by linear_combination hy - hx⟩

theorem toNat_small {n x : Nat} (hx : x < 2 ^ n) : (BitVec.ofNat n x).toNat = x := by
  rw [BitVec.toNat_ofNat, Nat.mod_eq_of_lt hx]

theorem toInt_small {n x : Nat} (hn : 0 < n) (hx : x < 2 ^ n) :
    (BitVec.ofNat n x).toInt = Clang.signedOf n x := by
  have hpow := Clang.two_pow_pred hn
  rw [BitVec.toInt_eq_toNat_cond, toNat_small hx, Clang.signedOf]
  by_cases h : x < 2 ^ (n - 1)
  · rw [if_pos h, if_pos (by omega)]
  · rw [if_neg h, if_neg (by omega), natCast_two_pow]

theorem eval_eq {n x y : Nat} (hx : x < 2 ^ n) (hy : y < 2 ^ n) :
    Rel.eval (BitVec.ofNat n x) (BitVec.ofNat n y) .eq = decide (x = y) := by
  rw [Rel.eval, Bool.eq_iff_iff, beq_iff_eq, decide_eq_true_iff, ← BitVec.toNat_inj, toNat_small hx,
    toNat_small hy]

theorem eval_ne {n x y : Nat} (hx : x < 2 ^ n) (hy : y < 2 ^ n) :
    Rel.eval (BitVec.ofNat n x) (BitVec.ofNat n y) .ne = decide (x ≠ y) := by
  rw [Rel.eval, Bool.eq_iff_iff, bne_iff_ne, decide_eq_true_iff, ne_eq, ← BitVec.toNat_inj,
    toNat_small hx, toNat_small hy]

theorem eval_ult {n x y : Nat} (hx : x < 2 ^ n) (hy : y < 2 ^ n) :
    Rel.eval (BitVec.ofNat n x) (BitVec.ofNat n y) .ult = decide (x < y) := by
  rw [Rel.eval, BitVec.ult_eq_decide, toNat_small hx, toNat_small hy]

theorem eval_slt {n x y : Nat} (hn : 0 < n) (hx : x < 2 ^ n) (hy : y < 2 ^ n) :
    Rel.eval (BitVec.ofNat n x) (BitVec.ofNat n y) .slt =
      decide (Clang.signedOf n x < Clang.signedOf n y) := by
  rw [Rel.eval, BitVec.slt_eq_decide, toInt_small hn hx, toInt_small hn hy]

/-! ## The encoding -/

/-- The cell has the type, the widths and the signs of the shape. -/
structure OfShape (c : Cell) (p : Shape) : Prop where
  type : c.type = p.type
  aw : c.A.length = p.aw
  bw : c.B.length = p.bw
  sw : c.S.length = p.sw
  yw : c.Y.length = p.yw
  aSigned : c.aSigned = p.aSigned
  bSigned : c.bSigned = p.bSigned

variable {p : Shape} {c : Cell}

theorem binary_encoded (ha : Reads a p.aw va) (hb : Reads b p.bw vb) (hyw : 0 < p.yw)
    (ht : p.type = .add ∨ p.type = .sub ∨ p.type = .mul ∨ p.type = .and ∨ p.type = .or ∨ p.type = .xor ∨
      p.type = .shl ∨ p.type = .shr ∨ p.type = .eq ∨ p.type = .ne ∨ p.type = .lt)
    (vs : (Var → Nat) → Nat) :
    ∃ t, binary p.type p.aSigned p.yw a b = some t ∧ t.width = p.yw ∧
      ∀ ρ, t.eval ρ = p.encoded (va ρ) (vb ρ) (vs ρ) := by
  have hop := op_encoded ha hb hyw
  have hcompare := compare_encoded ha hb hyw (m := p.common) rfl
  have hcut : ∀ x, (BitVec.ofNat p.yw (x % 2 ^ p.yw)).toNat = x % 2 ^ p.yw := fun x =>
    toNat_small (Nat.mod_lt x (Nat.two_pow_pos p.yw))
  have hlt : ∀ ρ, va ρ < 2 ^ p.common ∧ vb ρ < 2 ^ p.common := fun ρ =>
    ⟨(ha.lt ρ).trans_le (Nat.pow_le_pow_right (by decide) (by unfold Shape.common; omega)),
      (hb.lt ρ).trans_le (Nat.pow_le_pow_right (by decide) (by unfold Shape.common; omega))⟩
  have hcommon : 0 < p.common := by
    unfold Shape.common
    omega
  rcases ht with ht | ht | ht | ht | ht | ht | ht | ht | ht | ht | ht
  · obtain ⟨t, hterm, hwidth, heval⟩ := hop .add
    refine ⟨t, by rw [ht]; exact hterm, hwidth, fun ρ => ?_⟩
    rw [heval, BinOp.eval, BitVec.toNat_add, hcut, hcut, ← Nat.add_mod]
    simp only [Shape.encoded, ht]
  · obtain ⟨t, hterm, hwidth, heval⟩ := hop .sub
    refine ⟨t, by rw [ht]; exact hterm, hwidth, fun ρ => ?_⟩
    rw [heval, eval_sub]
    simp only [Shape.encoded, ht]
  · obtain ⟨t, hterm, hwidth, heval⟩ := hop .mul
    refine ⟨t, by rw [ht]; exact hterm, hwidth, fun ρ => ?_⟩
    rw [heval, BinOp.eval, BitVec.toNat_mul, hcut, hcut, ← Nat.mul_mod]
    simp only [Shape.encoded, ht]
  · obtain ⟨t, hterm, hwidth, heval⟩ := hop .and
    refine ⟨t, by rw [ht]; exact hterm, hwidth, fun ρ => ?_⟩
    rw [heval, BinOp.eval, BitVec.toNat_and, hcut, hcut]
    simp only [Shape.encoded, ht]
  · obtain ⟨t, hterm, hwidth, heval⟩ := hop .or
    refine ⟨t, by rw [ht]; exact hterm, hwidth, fun ρ => ?_⟩
    rw [heval, BinOp.eval, BitVec.toNat_or, hcut, hcut]
    simp only [Shape.encoded, ht]
  · obtain ⟨t, hterm, hwidth, heval⟩ := hop .xor
    refine ⟨t, by rw [ht]; exact hterm, hwidth, fun ρ => ?_⟩
    rw [heval, BinOp.eval, BitVec.toNat_xor, hcut, hcut]
    simp only [Shape.encoded, ht]
  · obtain ⟨t, hterm, hwidth, heval⟩ := hop .shl
    refine ⟨t, by rw [ht]; exact hterm, hwidth, fun ρ => ?_⟩
    rw [heval, BinOp.eval, BitVec.shiftLeft_eq', BitVec.toNat_shiftLeft, hcut, hcut]
    simp only [Shape.encoded, ht]
  · obtain ⟨t, hterm, hwidth, heval⟩ := hop .lshr
    refine ⟨t, by rw [ht]; exact hterm, hwidth, fun ρ => ?_⟩
    rw [heval, BinOp.eval, BitVec.ushiftRight_eq', BitVec.toNat_ushiftRight, hcut, hcut]
    simp only [Shape.encoded, ht]
  · obtain ⟨t, hterm, hwidth, heval⟩ := hcompare .eq
    refine ⟨t, by rw [ht]; exact hterm, hwidth, fun ρ => ?_⟩
    rw [heval, eval_eq (hlt ρ).1 (hlt ρ).2]
    simp only [Shape.encoded, ht]
  · obtain ⟨t, hterm, hwidth, heval⟩ := hcompare .ne
    refine ⟨t, by rw [ht]; exact hterm, hwidth, fun ρ => ?_⟩
    rw [heval, eval_ne (hlt ρ).1 (hlt ρ).2]
    simp only [Shape.encoded, ht]
  · cases hsigned : p.aSigned with
    | true =>
      obtain ⟨t, hterm, hwidth, heval⟩ := hcompare .slt
      refine ⟨t, by rw [ht]; exact hterm, hwidth, fun ρ => ?_⟩
      rw [heval, eval_slt hcommon (hlt ρ).1 (hlt ρ).2]
      simp only [Shape.encoded, ht, hsigned, if_true]
    | false =>
      obtain ⟨t, hterm, hwidth, heval⟩ := hcompare .ult
      refine ⟨t, by rw [ht]; exact hterm, hwidth, fun ρ => ?_⟩
      rw [heval, eval_ult (hlt ρ).1 (hlt ρ).2]
      simp only [Shape.encoded, ht, hsigned]
      rfl

/-- The terms of signals. -/
abbrev ReadsAll (σ : (Var → Nat) → Valuation) (sigs : List SigSpec) (ts : List (Term Var)) : Prop :=
  List.Forall₂ (fun sig t => Reads t sig.length fun ρ => value (σ ρ) sig) sigs ts

variable {σ : (Var → Nat) → Valuation}

/-- The last select bit that is set takes the result. -/
theorem pmux_encoded (hn : 0 < n) {is : List Nat} {sel slice : Nat → SigSpec}
    (hsel : ∀ i ∈ is, (sel i).length = 1) (hslice : ∀ i ∈ is, (slice i).length = n) {ts : List (Term Var)}
    (hts : ReadsAll σ (is.flatMap fun i => [sel i, slice i]) ts) {r : Term Var} (hr : r.width = n)
    {v : (Var → Nat) → Nat} (hv : ∀ ρ, r.eval ρ = v ρ) :
    ∃ t, pmuxTerm r ts = some t ∧ t.width = n ∧ ∀ ρ, t.eval ρ =
      match (is.filter fun i => decide (value (σ ρ) (sel i) = 1)).getLast? with
      | some i => value (σ ρ) (slice i)
      | none => v ρ := by
  induction is generalizing r v ts with
  | nil =>
    cases hts
    exact ⟨r, rfl, hr, hv⟩
  | cons i is ih =>
    rw [List.flatMap_cons] at hts
    cases hts with
    | @cons _ s _ _ hs hrest =>
    cases hrest with
    | @cons _ b _ ts hb hts =>
    have hone := hsel i List.mem_cons_self
    have hwidth : s.width = 1 := by
      rw [hs.width, hone, Nat.max_self]
    have hsize : b.width = n := by
      rw [hb.width, hslice i List.mem_cons_self]
      omega
    have hite : Term.mkIte .eq s (.val 1 1) b r = some (.ite .eq s (.val 1 1) b r) :=
      if_pos ⟨hwidth, hsize.trans hr.symm⟩
    have heval : ∀ ρ, (Term.ite .eq s (.val 1 1) b r).eval ρ =
        if value (σ ρ) (sel i) = 1 then value (σ ρ) (slice i) else v ρ := by
      intro ρ
      have hlt := hs.lt ρ
      rw [hone] at hlt
      rw [Term.eval, hwidth, hs.eval, Term.eval, eval_eq hlt (by decide), hb.eval, hv]
      simp only [decide_eq_true_eq]
      rfl
    obtain ⟨t, hterm, hsize, hlast⟩ := ih (fun j hj => hsel j (List.mem_cons_of_mem i hj))
      (fun j hj => hslice j (List.mem_cons_of_mem i hj)) hts (r := .ite .eq s (.val 1 1) b r) hsize heval
    refine ⟨t, ?_, hsize, fun ρ => ?_⟩
    · show (do pmuxTerm (← Term.mkIte .eq s (.val 1 1) b r) ts) = _
      rw [hite]
      exact hterm
    · rw [hlast, List.filter_cons]
      by_cases h : value (σ ρ) (sel i) = 1
      · rw [if_pos h, decide_eq_true h, if_pos rfl, List.getLast?_cons]
        cases (is.filter fun i => decide (value (σ ρ) (sel i) = 1)).getLast? with
        | none => rfl
        | some j => rfl
      · rw [if_neg h, decide_eq_false h]
        rfl

/-- The cells with one operand. -/
theorem readsAll_one {type : CellType} (htype : c.type = type) (ht : type = .not ∨ type = .logicNot ∨
    type = .reduceOr ∨ type = .reduceBool ∨ type = .reduceAnd) {ts : List (Term Var)}
    (hts : ReadsAll σ (operands c) ts) :
    ∃ a, ts = [a] ∧ Reads a c.A.length fun ρ => value (σ ρ) c.A := by
  have hone : operands c = [c.A] := by
    unfold operands
    rw [htype]
    rcases ht with rfl | rfl | rfl | rfl | rfl <;> rfl
  rw [hone] at hts
  cases hts with
  | @cons _ a _ _ ha hrest =>
    cases hrest
    exact ⟨a, rfl, ha⟩

theorem Reads.lt_width (h : Reads t w v) (ρ : Var → Nat) : v ρ < 2 ^ t.width :=
  (h.lt ρ).trans_le (Nat.pow_le_pow_right (by decide) (by rw [h.width]; exact le_max_right _ _))

/-- A test against zero. -/
theorem zero_encoded (ha : Reads a aw va) (hn : 0 < n) (r : Rel) :
    ∃ t, bit n r a (.val 0 a.width) = some t ∧ t.width = n ∧ ∀ ρ, t.eval ρ =
      (r.eval (BitVec.ofNat a.width (va ρ)) (BitVec.ofNat a.width 0)).toNat := by
  obtain ⟨t, hterm, hwidth, heval⟩ := flag_encoded hn r a (.val 0 a.width) rfl
  refine ⟨t, hterm, hwidth, fun ρ => ?_⟩
  rw [heval, ha.eval, Term.eval, Nat.zero_mod]

/-- What the output of a cell is equated with, for operands of any width. -/
theorem combine_encoded (hc : OfShape c p) (hyw : 0 < p.yw) (hp : p.Selects) (ht : p.type.Encoded)
    {ts : List (Term Var)} (hts : ReadsAll σ (operands c) ts) :
    ∃ t, combine c ts = some t ∧ t.width = c.Y.length ∧ ∀ ρ, t.eval ρ =
      p.encoded (value (σ ρ) c.A) (value (σ ρ) c.B) (value (σ ρ) c.S) := by
  have htype := hc.type
  rw [hc.yw]
  cases hkind : p.type with
  | add | sub | mul | and | or | xor | shl | shr | eq | ne | lt =>
    rw [hkind] at htype
    unfold operands at hts
    rw [htype] at hts
    cases hts with
    | cons ha hrest =>
    cases hrest with
    | cons hb hrest =>
    cases hrest
    rw [hc.aw] at ha
    rw [hc.bw] at hb
    unfold combine
    rw [htype, hc.yw, hc.aSigned, ← hkind]
    obtain ⟨t, hterm, hwidth, heval⟩ := binary_encoded ha hb hyw (by simp [hkind])
      fun ρ => value (σ ρ) c.S
    rw [hkind] at hterm ⊢
    exact ⟨t, hterm, hwidth, heval⟩
  | not =>
    rw [hkind] at htype
    obtain ⟨a, rfl, ha⟩ := readsAll_one htype (.inl rfl) hts
    rw [hc.aw] at ha
    obtain ⟨t, hnorm, hwidth, heval⟩ := ha.norm hyw
    refine ⟨.not t, ?_, hwidth, fun ρ => ?_⟩
    · unfold combine
      rw [htype, hc.yw]
      show (do some (Term.not (← norm a p.yw))) = _
      rw [hnorm]
      rfl
    · rw [Term.eval, hwidth, heval]
      simp only [Shape.encoded, hkind]
  | logicNot =>
    rw [hkind] at htype
    obtain ⟨a, rfl, ha⟩ := readsAll_one htype (by simp) hts
    rw [hc.aw] at ha
    obtain ⟨t, hterm, hwidth, heval⟩ := zero_encoded ha hyw .eq
    refine ⟨t, ?_, hwidth, fun ρ => ?_⟩
    · unfold combine
      rw [htype, hc.yw]
      exact hterm
    · rw [heval, eval_eq (ha.lt_width ρ) (Nat.two_pow_pos _)]
      simp only [Shape.encoded, hkind]
  | reduceOr | reduceBool =>
    rw [hkind] at htype
    obtain ⟨a, rfl, ha⟩ := readsAll_one htype (by simp) hts
    rw [hc.aw] at ha
    obtain ⟨t, hterm, hwidth, heval⟩ := zero_encoded ha hyw .ne
    refine ⟨t, ?_, hwidth, fun ρ => ?_⟩
    · unfold combine
      rw [htype, hc.yw]
      exact hterm
    · rw [heval, eval_ne (ha.lt_width ρ) (Nat.two_pow_pos _)]
      simp only [Shape.encoded, hkind]
  | reduceAnd =>
    rw [hkind] at htype
    obtain ⟨a, rfl, ha⟩ := readsAll_one htype (by simp) hts
    rw [hc.aw] at ha
    have hones : (if a.width ≥ 64 then 2 ^ 64 - 1 else 2 ^ a.width - 1) =
        2 ^ min 64 (max 1 p.aw) - 1 := by
      rw [ha.width]
      split_ifs with hwide
      · rw [min_eq_left hwide]
      · rw [min_eq_right (by omega)]
    have hsmall : 2 ^ min 64 (max 1 p.aw) - 1 < 2 ^ a.width := by
      have hle : 2 ^ min 64 (max 1 p.aw) ≤ 2 ^ a.width :=
        Nat.pow_le_pow_right (by decide) (by rw [ha.width]; exact min_le_right _ _)
      have hpos := Nat.two_pow_pos (min 64 (max 1 p.aw))
      omega
    obtain ⟨t, hterm, hwidth, heval⟩ := flag_encoded hyw .eq a
      (.val (2 ^ min 64 (max 1 p.aw) - 1) a.width) rfl
    refine ⟨t, ?_, hwidth, fun ρ => ?_⟩
    · unfold combine
      rw [htype, hc.yw, ← hterm, ← hones]
    · rw [heval, ha.eval, Term.eval, Nat.mod_eq_of_lt hsmall, eval_eq (ha.lt_width ρ) hsmall]
      simp only [Shape.encoded, hkind]
  | mux =>
    rw [Shape.Selects, hkind] at hp
    rw [hkind] at htype
    unfold operands at hts
    rw [htype] at hts
    cases hts with
    | @cons _ s _ _ hs hrest =>
    cases hrest with
    | @cons _ a _ _ ha hrest =>
    cases hrest with
    | @cons _ b _ _ hb hrest =>
    cases hrest
    rw [hc.sw, hp.2.2] at hs
    rw [hc.aw] at ha
    rw [hc.bw] at hb
    obtain ⟨a', hnorm, hwidth, heval⟩ := ha.norm hyw
    obtain ⟨b', hnorm', hwidth', heval'⟩ := hb.norm hyw
    have hone : s.width = 1 := hs.width
    refine ⟨.ite .eq s (.val 1 s.width) b' a', ?_, hwidth', fun ρ => ?_⟩
    · unfold combine
      rw [htype, hc.yw]
      show (do Term.mkIte .eq s (.val 1 s.width) (← norm b p.yw) (← norm a p.yw)) = _
      rw [hnorm, hnorm']
      exact if_pos ⟨rfl, hwidth'.trans hwidth.symm⟩
    · have hlt := ha.lt ρ
      have hlt' := hb.lt ρ
      rw [hp.1] at hlt
      rw [hp.2.1] at hlt'
      rw [Term.eval, hone, hs.eval, Term.eval, eval_eq (hs.lt ρ) (by decide), heval, heval',
        Nat.mod_eq_of_lt hlt, Nat.mod_eq_of_lt hlt']
      simp only [Shape.encoded, hkind, decide_eq_true_eq]
      rfl
  | pmux =>
    rw [Shape.Selects, hkind] at hp
    rw [hkind] at htype
    unfold operands at hts
    rw [htype] at hts
    cases hts with
    | @cons _ a _ ts ha hts =>
    rw [hc.aw] at ha
    have hsel : ∀ i ∈ List.range c.S.length, ((c.S.drop i).take 1).length = 1 := by
      intro i hi
      have hlt := List.mem_range.mp hi
      rw [List.length_take, List.length_drop]
      omega
    have hslice : ∀ i ∈ List.range c.S.length, ((c.B.drop (i * c.Y.length)).take c.Y.length).length =
        p.yw := by
      intro i hi
      have hlt := List.mem_range.mp hi
      have hmul : (i + 1) * p.yw ≤ p.sw * p.yw := Nat.mul_le_mul_right _ (by rw [← hc.sw]; exact hlt)
      rw [List.length_take, List.length_drop, hc.bw, hc.yw, hp.2]
      rw [Nat.add_mul] at hmul
      omega
    have hwidth : a.width = p.yw := by
      rw [ha.width, hp.1]
      omega
    obtain ⟨t, hterm, hsize, heval⟩ := pmux_encoded hyw hsel hslice hts hwidth ha.eval
    refine ⟨t, ?_, hsize, fun ρ => ?_⟩
    · unfold combine
      rw [htype]
      exact hterm
    · -- a slice of a signal is a slice of its value
      have hbit : ∀ i, decide (value (σ ρ) ((c.S.drop i).take 1) = 1) = (value (σ ρ) c.S).testBit i := by
        intro i
        have hextract := value_extract (σ ρ) c.S i 1
        rw [extract] at hextract
        rw [hextract, pow_one, Nat.testBit_eq_decide_div_mod_eq, Nat.shiftRight_eq_div_pow]
      have hval : ∀ i, value (σ ρ) ((c.B.drop (i * c.Y.length)).take c.Y.length) =
          value (σ ρ) c.B / 2 ^ (i * p.yw) % 2 ^ p.yw := by
        intro i
        have hextract := value_extract (σ ρ) c.B (i * c.Y.length) c.Y.length
        rw [extract, hc.yw, Nat.shiftRight_eq_div_pow] at hextract
        rw [hc.yw]
        exact hextract
      have hfilter : ((List.range c.S.length).filter fun i =>
          decide (value (σ ρ) ((c.S.drop i).take 1) = 1)) =
          (List.range p.sw).filter (value (σ ρ) c.S).testBit := by
        rw [hc.sw]
        exact List.filter_congr fun i _ => hbit i
      rw [heval, hfilter]
      simp only [Shape.encoded, hkind]
      cases ((List.range p.sw).filter (value (σ ρ) c.S).testBit).getLast? with
      | none => rfl
      | some i => exact hval i
  | _ =>
    rw [hkind] at ht
    exact ht.elim

/-! ## What is asserted -/

variable {zeroSort : Bool} {D : Design}

/-- A cell that drives one whole wire, in a module whose wires have names of their own. -/
structure Written (zeroSort : Bool) (D : Design) (c : Cell) (p : Shape) : Prop where
  shape : OfShape c p
  names : D.Named
  sigmap_const : ∀ s, D.sigmap (.const s) = .const s
  output : ∃ w ∈ D.wires, c.Y = w.all
  operands : ∀ sig ∈ Cover.operands c, Spelled zeroSort D sig

/-- From variables that have the sizes of their wires, `buildCell` adds a constraint that the values of
    the variables satisfy if and only if the bits of `Y` are the output that the library defines. -/
def ConstraintExact (zeroSort : Bool) (D : Design) (cycle : Nat) (c : Cell) : Prop :=
  Build.Adds (Sized D) (buildCell zeroSort D cycle c) (fun _ => True) fun ρ =>
    value (nets ρ cycle) c.Y = out (view D ρ cycle) c

theorem operandTerms_adds (hw : Written zeroSort D c p) (cycle : Nat) {sigs : List SigSpec}
    (h : ∀ sig ∈ sigs, Spelled zeroSort D sig) :
    Build.Adds (Sized D) (operandTerms zeroSort D cycle sigs)
      (ReadsAll (fun ρ => view D ρ cycle) sigs) fun _ => True := by
  induction sigs with
  | nil => exact Build.Adds.pure .nil
  | cons sig sigs ih =>
    have hsig : Build.Adds (Sized D) (sigToZ3 zeroSort D sig cycle)
        (fun t => Reads t sig.length fun ρ => value (view D ρ cycle) sig) fun _ => True := by
      by_cases hne : sig = []
      · subst hne
        refine (Build.Adds.bvVal 0 (.inr one_pos)).mono ?_ fun _ => Iff.rfl
        intro t ht
        subst ht
        exact ⟨rfl, fun _ => rfl, fun _ => one_pos⟩
      · refine (sigToZ3_adds hw.names (h sig List.mem_cons_self) hne cycle).mono ?_ fun _ => Iff.rfl
        intro t ht
        have hpos := List.length_pos_iff.mpr hne
        constructor
        · rw [ht.width, List.length_map]
          omega
        · intro ρ
          rw [ht.eval, view_value hw.sigmap_const]
        · intro ρ
          exact value_lt _ _
    apply hsig.then
    intro t ht
    apply (ih fun sig' hsig' => h sig' (List.mem_cons_of_mem sig hsig')).then
    intro ts hts
    exact Build.Adds.pure (.cons ht hts)

/-- The variable of the output is equated with the encoding of the operands. -/
theorem buildCell_adds (hw : Written zeroSort D c p) (hyw : 0 < p.yw) (hp : p.Selects)
    (ht : p.type.Encoded) (cycle : Nat) :
    Build.Adds (Sized D) (buildCell zeroSort D cycle c) (fun _ => True) fun ρ =>
      value (nets ρ cycle) c.Y = p.encoded (value (view D ρ cycle) c.A) (value (view D ρ cycle) c.B)
        (value (view D ρ cycle) c.S) := by
  obtain ⟨w, hmem, hY⟩ := hw.output
  have hwidth : w.width = p.yw := by
    rw [← length_all w, ← hY, hw.shape.yw]
  have hpos : 0 < w.width := by omega
  unfold buildCell
  rw [hY, chunks_all hpos]
  dsimp only
  rw [length_all]
  apply (getVar_adds hw.names hmem hpos cycle).then
  intro y hy
  subst hy
  apply Build.Adds.attempt (Q := fun _ => True)
  apply (operandTerms_adds hw cycle hw.operands).then
  intro ts hts
  obtain ⟨t, hcombine, hsize, heval⟩ := combine_encoded hw.shape hyw hp ht hts
  apply (Build.Adds.lift (Q := (· = t)) hcombine rfl).then
  intro t' ht'
  subst ht'
  have hsame : (Term.var (cycle, zname w.name) w.width).width = t'.width := by
    rw [hsize, hY, length_all]
    rfl
  refine (Build.Adds.assertEq hsame).mono (fun _ h => h) fun ρ => ?_
  rw [var_eval, heval]

theorem written_lt (hw : Written zeroSort D c p) (ρ : Var → Nat) (cycle : Nat) :
    value (view D ρ cycle) c.A < 2 ^ p.aw ∧ value (view D ρ cycle) c.B < 2 ^ p.bw ∧
      value (view D ρ cycle) c.S < 2 ^ p.sw := by
  rw [← hw.shape.aw, ← hw.shape.bw, ← hw.shape.sw]
  exact ⟨value_lt _ _, value_lt _ _, value_lt _ _⟩

theorem out_eq (hc : OfShape c p) (σ : Valuation) :
    out σ c = p.value (value σ c.A) (value σ c.B) (value σ c.S) := by
  unfold out Shape.value
  rw [hc.type, hc.aw, hc.bw, hc.yw, hc.aSigned, hc.bSigned]

/-! ## Inexact cells -/

/-- A module with one cell, whose operands are whole wires. -/
def oneCell (p : Shape) : Design where
  wires := [⟨"a", p.aw⟩, ⟨"b", p.bw⟩, ⟨"s", p.sw⟩, ⟨"y", p.yw⟩]
  input w := w.name ≠ "y"
  sigmap := id
  cells := [{ p with scattered := false }.cell]
  flops := []

theorem spelled_all {w : Wire} (hw : w ∈ (oneCell p).wires) : Spelled zeroSort (oneCell p) w.all := by
  have hmap : w.all.map (oneCell p).sigmap = w.all := List.map_id _
  have hone : (chunks w.all).length ≤ 1 ∧ ∀ data, .const data ∉ chunks w.all := by
    by_cases hpos : 0 < w.width
    · rw [chunks_all hpos]
      exact ⟨le_rfl, fun data h => nomatch List.mem_singleton.mp h⟩
    · have hnil : w.all = [] := List.eq_nil_of_length_eq_zero (by rw [length_all]; omega)
      rw [hnil]
      exact ⟨Nat.zero_le _, fun data h => nomatch h⟩
  constructor
  · intro b hb v i hnet
    obtain ⟨j, hj, rfl⟩ := List.mem_map.mp hb
    cases hnet
    have hlt := (List.mem_range'_1.mp hj).2
    exact ⟨hw, by omega⟩
  · intro data hdata
    rw [hmap] at hdata
    exact absurd hdata (hone.2 data)
  · rw [hmap]
    exact .inr hone.1

theorem mem_operands (hpmux : c.type ≠ .pmux) {sig : SigSpec} (h : sig ∈ operands c) :
    sig = c.A ∨ sig = c.B ∨ sig = c.S := by
  unfold operands at h
  cases htype : c.type <;> rw [htype] at h <;> simp only [List.mem_cons, List.not_mem_nil] at h
  case pmux => exact absurd htype hpmux
  all_goals tauto

theorem oneCell_written (hpmux : p.type ≠ .pmux) :
    Written zeroSort (oneCell p) { p with scattered := false }.cell p where
  shape := ⟨rfl, length_all _, length_all _, length_all _, length_all _, rfl, rfl⟩
  names := by
    have hdistinct : (["a", "b", "s", "y"].map zname).Nodup := by decide
    have hmap : ((oneCell p).wires.map fun w => zname w.name).Nodup := hdistinct
    intro v hv w hw hname
    exact List.inj_on_of_nodup_map hmap hv hw hname
  sigmap_const _ := rfl
  output := ⟨⟨"y", p.yw⟩, by simp [oneCell], rfl⟩
  operands sig hsig := by
    rcases mem_operands hpmux hsig with rfl | rfl | rfl
    · exact spelled_all (w := ⟨"a", p.aw⟩) (by simp [oneCell])
    · exact spelled_all (w := ⟨"b", p.bw⟩) (by simp [oneCell])
    · exact spelled_all (w := ⟨"s", p.sw⟩) (by simp [oneCell])

/-- Values of the operands and of the output. -/
def assigned (a b s y : Nat) (x : Var) : Nat :=
  if x.2 = "a" then a else if x.2 = "b" then b else if x.2 = "s" then s else y

theorem value_assigned {a b s y x width : Nat} {name : String} (hname : zname name = name)
    (hx : assigned a b s y (0, name) = x) (hlt : x < 2 ^ width) :
    value (nets (assigned a b s y) 0) (Wire.all ⟨name, width⟩) = x := by
  rw [← var_eval, Term.eval, hname, hx, Nat.mod_eq_of_lt hlt]

/-- A shape whose encoding is not exact has a cell whose constraint is not. -/
theorem exact_of_constraints (hyw : 0 < p.yw) (hp : p.Selects) (ht : p.type.Encoded)
    (hmux : p.type ≠ .mux ∧ p.type ≠ .pmux)
    (h : ConstraintExact zeroSort (oneCell p) 0 { p with scattered := false }.cell) : p.Exact := by
  intro a b s ha hb hs
  have hw : Written zeroSort (oneCell p) { p with scattered := false }.cell p := oneCell_written hmux.2
  let ρ := assigned a b s (p.encoded a b s)
  have hA : value (view (oneCell p) ρ 0) (Wire.all ⟨"a", p.aw⟩) = a := value_assigned (by decide) rfl ha
  have hB : value (view (oneCell p) ρ 0) (Wire.all ⟨"b", p.bw⟩) = b := value_assigned (by decide) rfl hb
  have hS : value (view (oneCell p) ρ 0) (Wire.all ⟨"s", p.sw⟩) = s := value_assigned (by decide) rfl hs
  have hY : value (nets ρ 0) (Wire.all ⟨"y", p.yw⟩) = p.encoded a b s :=
    value_assigned (by decide) rfl (encoded_lt hyw hmux a b s)
  have hiff : value (nets ρ 0) (Wire.all ⟨"y", p.yw⟩) = p.encoded (value (view (oneCell p) ρ 0)
      (Wire.all ⟨"a", p.aw⟩)) (value (view (oneCell p) ρ 0) (Wire.all ⟨"b", p.bw⟩)) (value
      (view (oneCell p) ρ 0) (Wire.all ⟨"s", p.sw⟩)) ↔ value (nets ρ 0) (Wire.all ⟨"y", p.yw⟩) =
      out (view (oneCell p) ρ 0) { p with scattered := false }.cell :=
    (buildCell_adds hw hyw hp ht 0).unique h (fun _ _ _ _ hn => nomatch hn) ρ
  have hout : out (view (oneCell p) ρ 0) { p with scattered := false }.cell = p.value a b s := by
    rw [out_eq hw.shape, ← hA, ← hB, ← hS]
    rfl
  -- the assignment satisfies what is asserted, so the output is that of the library
  rw [hA, hB, hS, hY, hout] at hiff
  exact hiff.mp rfl

/-- For each type, widths and signs: every cell of them is encoded exactly, whatever its operands are, if
    and only if the widths and signs are `Encodable`. -/
theorem constraint_exact_iff (zeroSort : Bool) {p : Shape} (ht : p.type.Encoded) (hp : p.Selects) :
    (∀ D cycle c, Written zeroSort D c p → ConstraintExact zeroSort D cycle c) ↔
      p.yw = 0 ∨ p.Encodable := by
  constructor
  · intro h
    by_cases hyw : p.yw = 0
    · exact .inl hyw
    right
    have hpos : 0 < p.yw := by omega
    by_cases hmux : p.type ≠ .mux ∧ p.type ≠ .pmux
    · exact (exact_iff_encodable hpos hp ht).mp (exact_of_constraints hpos hp ht hmux
        (h _ 0 _ (oneCell_written hmux.2)))
    · have hselect : p.type = .mux ∨ p.type = .pmux := by tauto
      rcases hselect with hselect | hselect <;> simp only [Shape.Encodable, hselect]
  · intro hcond D cycle c hw
    have hlt := fun ρ => written_lt hw ρ cycle
    by_cases hyw : p.yw = 0
    · -- nothing is asserted of no bits
      have hnil : c.Y = [] := List.eq_nil_of_length_eq_zero (hw.shape.yw.trans hyw)
      have hskip : buildCell zeroSort D cycle c = pure () := by
        unfold buildCell
        rw [hnil]
        rfl
      unfold ConstraintExact
      rw [hskip]
      refine (Build.Adds.pure trivial).mono (fun _ h => h) fun ρ => (iff_true_intro ?_).symm
      rw [hnil, out_eq hw.shape, value_empty hyw hp ht (hlt ρ).1 (hlt ρ).2.1]
      rfl
    · have hpos : 0 < p.yw := by omega
      have hexact := (exact_iff_encodable hpos hp ht).mpr (hcond.resolve_left hyw)
      refine (buildCell_adds hw hpos hp ht cycle).mono (fun _ h => h) fun ρ => ?_
      rw [out_eq hw.shape, hexact _ _ _ (hlt ρ).1 (hlt ρ).2.1 (hlt ρ).2.2]

/-- A signed sum of two bits, of which `A` has only one. -/
def signedAdd : Shape where
  type := .add
  aw := 1
  bw := 2
  sw := 0
  yw := 2
  aSigned := true
  bSigned := true
  wideTarget := false
  scattered := false
  aliased := false

theorem constraint_signedAdd :
    (∀ D cycle c, Written false D c signedAdd → ConstraintExact false D cycle c) ↔
      signedAdd.yw = 0 ∨ signedAdd.Encodable :=
  constraint_exact_iff false trivial trivial

/-- The library adds -1 where the constraint adds 1. -/
theorem signedAdd_inexact : Written false (oneCell signedAdd) signedAdd.cell signedAdd ∧
    ¬ ConstraintExact false (oneCell signedAdd) 0 signedAdd.cell := by
  refine ⟨oneCell_written (by decide), fun h => ?_⟩
  have hexact := exact_of_constraints (p := signedAdd) (by decide) trivial trivial (by decide) h
  exact absurd (hexact 1 0 0 (by decide) (by decide) (by decide)) (by decide)

end Yosys.Cover
