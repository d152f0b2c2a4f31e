import Sv2ghdl.Yosys.WideWords

/-!
# Which wide cells are faithful

A wide cell reads the words of its operands as they stand: zero-extended, and not redirected.  For
each type with a result in words, the shapes for which this is what the library means.
-/

open Clang Yosys.WideRt

namespace Yosys.Rtlil

variable {size : LimbSize} {p : Shape}

/-- The cells that leave their result in `_wy`, shifts apart. -/
def CellType.Words : CellType → Prop
  | .add | .sub | .mul | .and | .or | .xor | .xnor | .not | .neg | .mux | .pmux => True
  | _ => False

/-- The product of the words fits in the scratch array of `wmul`. -/
def Shape.Fitting (size : LimbSize) (p : Shape) : Prop :=
  nlimbs size (max p.yw (max p.aw p.bw)) ≤ size.scratch

instance instDecidableFitting (size : LimbSize) (p : Shape) : Decidable (p.Fitting size) :=
  inferInstanceAs (Decidable (_ ≤ _))

/-- What the statements of a cell compute from the words of `A` and `B` and from `S`. -/
def Shape.words (size : LimbSize) (p : Shape) (a b s : Nat) : Option Nat :=
  match p.type with
  | .add => some (a + b)
  | .sub => some (wrap p.yw (a - b))
  | .mul => if p.Fitting size then some (a * b) else none
  | .and => some (a &&& b)
  | .or => some (a ||| b)
  | .xor => some (a ^^^ b)
  | .xnor => some (complement p.yw ((a ^^^ b) % 2 ^ p.yw))
  | .not => some (complement p.yw (a % 2 ^ p.yw))
  | .neg => some (wrap p.yw (-a))
  | .mux => some (if s ≠ 0 then b else a)
  | .pmux => some ((List.range p.sw).foldl
      (fun v i => if s.testBit i then (b >>> (i * p.yw)) % 2 ^ p.yw else v) a)
  | _ => none

theorem wrap_mod_self (n : Nat) (x : Int) : wrap n x % 2 ^ n = wrap n x :=
  Nat.mod_eq_of_lt (wrap_lt n x)

theorem complement_mod_self (n x : Nat) :
    complement n (x % 2 ^ n) % 2 ^ n = complement n (x % 2 ^ n) :=
  Nat.mod_eq_of_lt (complement_lt _)

theorem words_delivers (hp : p.Legal) (ht : p.type.Words) (nets : Nets) (c : Cell) (env : CEnv)
    (hc : c.Has nets p) (henv : WellFormed size env) (w : Wire) (offset width : Nat)
    (rest : List Chunk) (hchunks : chunks c.Y = .wire w offset width :: rest) :
    ∃ s, emitWide size nets c w offset = some s ∧ Delivers size env s c.Y
      (p.words size (rawOperand size nets env c.A) (rawOperand size nets env c.B)
        (operand size nets env c.S)) := by
  have hwords : p.type.wordsOfB = true := by
    cases htype : p.type <;> rw [htype] at ht <;> first | rfl | exact ht.elim
  have hy : c.Y.length ≤ size.bits * nlimbs size (max c.Y.length 1) :=
    (le_max_left _ _).trans (le_nlimbs size _)
  obtain ⟨n, hn⟩ : ∃ n, n = nlimbs size (max p.yw (max p.aw p.bw)) := ⟨_, rfl⟩
  have hboth : p.yw ≤ size.bits * n := hn ▸ (le_max_left _ _).trans (le_nlimbs size _)
  obtain ⟨m, hm⟩ : ∃ m, m = nlimbs size (max p.yw p.aw) := ⟨_, rfl⟩
  have hone : p.yw ≤ size.bits * m := hm ▸ (le_max_left _ _).trans (le_nlimbs size _)
  have hlegal := hp.2.2
  rw [emitWide, Shape.words, hc.type]
  cases htype : p.type <;> rw [htype] at ht hlegal <;> simp only [CellType.Words] at ht hlegal ⊢
  case add =>
    exact ⟨_, rfl, emitWords_delivers henv hc hwords hchunks fun _ _ _ _ ha hb hy =>
      (wadd_leaves ha hb hy).single⟩
  case sub =>
    refine ⟨_, rfl, (emitWords_delivers henv hc hwords hchunks
      (r := some (wrap (size.bits * n)
        (rawOperand size nets env c.A - rawOperand size nets env c.B)))
      fun _ k _ hk ha hb hy => ?_).congr_mod ?_⟩
    · obtain rfl : k = n := hk.trans hn.symm
      exact (wsub_leaves ha hb hy).single
    · rw [hc.yw, wrap_mod_two_pow hboth, wrap_mod_self]
  case mul =>
    refine ⟨_, rfl, emitWords_delivers henv hc hwords hchunks fun _ k _ hk ha hb hy => ?_⟩
    have hfits : p.Fitting size ↔ k ≤ size.scratch := by rw [hk]; exact Iff.rfl
    simp only [hfits]
    exact (wmul_leaves ha hb hy).single
  case and =>
    exact ⟨_, rfl, emitWords_delivers henv hc hwords hchunks fun _ _ _ _ ha hb hy =>
      (wand_leaves ha hb hy).single⟩
  case or =>
    exact ⟨_, rfl, emitWords_delivers henv hc hwords hchunks fun _ _ _ _ ha hb hy =>
      (wor_leaves ha hb hy).single⟩
  case xor =>
    exact ⟨_, rfl, emitWords_delivers henv hc hwords hchunks fun _ _ _ _ ha hb hy =>
      (wxor_leaves ha hb hy).single⟩
  case xnor =>
    refine ⟨_, rfl, (emitWords_delivers henv hc hwords hchunks
      (r := some (complement (size.bits * n)
        ((rawOperand size nets env c.A ^^^ rawOperand size nets env c.B) % 2 ^ (size.bits * n))))
      fun _ k _ hk ha hb hy => ?_).congr_mod ?_⟩
    · obtain rfl : k = n := hk.trans hn.symm
      exact (wxor_leaves ha hb hy).andThen fun _ hy' => wnot_leaves hy' hy'
    · rw [hc.yw, complement_mod hboth, complement_mod_self]
  case not =>
    refine ⟨_, rfl, (emitWord_delivers henv hc hwords hchunks
      (r := some (complement (size.bits * m) (rawOperand size nets env c.A)))
      fun _ k _ hk ha hy => ?_).congr_mod ?_⟩
    · obtain rfl : k = m := hk.trans hm.symm
      exact (wnot_leaves ha hy).single
    · have hraw := (cell_in_range hc size env).1
      have hle : 2 ^ p.aw ≤ 2 ^ (size.bits * m) :=
        Nat.pow_le_pow_right (by decide) (hm ▸ (le_max_right _ _).trans (le_nlimbs size _))
      have hmod := complement_mod hone (rawOperand size nets env c.A)
      rw [Nat.mod_eq_of_lt (show _ < 2 ^ (size.bits * m) by omega)] at hmod
      rw [hc.yw, hmod, complement_mod_self]
  case neg =>
    refine ⟨_, rfl, (emitWord_delivers henv hc hwords hchunks
      (r := some (wrap (size.bits * m) (-rawOperand size nets env c.A)))
      fun _ k _ hk ha hy => ?_).congr_mod ?_⟩
    · obtain rfl : k = m := hk.trans hm.symm
      exact (wneg_leaves ha hy).single
    · rw [hc.yw, wrap_mod_two_pow hone, wrap_mod_self]
  case mux => exact ⟨_, rfl, emitMux_delivers henv hc hwords hlegal hchunks hy⟩
  case pmux =>
    refine ⟨_, rfl, ?_⟩
    rw [← hc.sw, ← hc.yw]
    exact emitPmux_delivers henv hc hwords hlegal.1 hchunks hy

/-! ## Redirected operands -/

/-- The value does not depend on the operands that are read word by word. -/
def Shape.Unread (p : Shape) : Prop :=
  match p.type with
  | .mul | .and => p.aw = 0 ∨ p.bw = 0
  | .not | .neg => p.aw = 0
  | _ => p.aw = 0 ∧ p.bw = 0

theorem extend_ones_odd {isSigned : Bool} {w n : Nat} (hw : 0 < w) (hn : 0 < n) :
    extend isSigned w n (2 ^ w - 1) % 2 = 1 := by
  have hodd : ∀ m, 0 < m → (2 ^ m - 1) % 2 = 1 := by
    intro m hm
    have hpow := Nat.pow_succ 2 (m - 1)
    have hpos := Nat.two_pow_pos (m - 1)
    rw [Nat.succ_eq_add_one, Nat.sub_add_cancel hm] at hpow
    omega
  cases isSigned with
  | true => rw [extend_all_ones rfl (by omega), hodd n hn]
  | false =>
    rw [extend_of_unextended (.inl rfl) (ones_lt w), Nat.mod_mod_of_dvd _ (dvd_pow_self 2 (by omega)),
      hodd w hw]

/-- Two values of the operands that are read word by word give the same. -/
def Shape.Constant (p : Shape) : Prop :=
  ∀ a b a' b' s, a < 2 ^ p.aw → b < 2 ^ p.bw → a' < 2 ^ p.aw → b' < 2 ^ p.bw → s < 2 ^ p.sw →
    p.value a b s = p.value a' b' s

section Unread

variable {f : Nat → Nat → Nat} (hyw : 0 < p.yw)
  (hvalue : ∀ a b s, p.value a b s =
    f (extend p.aSigned p.aw p.yw a) (extend p.aSigned p.bw p.yw b))

include hyw in
theorem ones_ne_zero {w : Nat} (hw : w ≠ 0) (isSigned : Bool) :
    extend isSigned w p.yw (2 ^ w - 1) ≠ 0 := by
  have hodd : extend isSigned w p.yw (2 ^ w - 1) % 2 = 1 :=
    extend_ones_odd (Nat.pos_of_ne_zero hw) hyw
  omega

include hyw hvalue

/-- An operation of which either operand alone shows. -/
theorem constant_binary (hleft : ∀ x < 2 ^ p.yw, f x 0 = f 0 0 → x = 0)
    (hright : ∀ x < 2 ^ p.yw, f 0 x = f 0 0 → x = 0) : p.Constant ↔ p.aw = 0 ∧ p.bw = 0 := by
  have hpos := Nat.two_pow_pos
  constructor
  · intro h
    constructor
    · by_contra haw
      have heq := h _ 0 0 0 0 (ones_lt p.aw) (hpos _) (hpos _) (hpos _) (hpos _)
      rw [hvalue, hvalue, extend_zero, extend_zero] at heq
      exact ones_ne_zero hyw haw _ (hleft _ (extend_lt _ _ _ _) heq)
    · by_contra hbw
      have heq := h 0 _ 0 0 0 (hpos _) (ones_lt p.bw) (hpos _) (hpos _) (hpos _)
      rw [hvalue, hvalue, extend_zero, extend_zero] at heq
      exact ones_ne_zero hyw hbw _ (hright _ (extend_lt _ _ _ _) heq)
  · rintro ⟨haw, hbw⟩ a b a' b' s ha hb ha' hb' -
    rw [eq_zero_of_width haw ha, eq_zero_of_width haw ha', eq_zero_of_width hbw hb,
      eq_zero_of_width hbw hb']

/-- An operation that needs both operands to show either. -/
theorem constant_product (hodd : ∀ x y, x % 2 = 1 → y % 2 = 1 → f x y ≠ f 0 0)
    (hzero : ∀ x, f 0 x = f 0 0 ∧ f x 0 = f 0 0) : p.Constant ↔ p.aw = 0 ∨ p.bw = 0 := by
  have hpos := Nat.two_pow_pos
  constructor
  · intro h
    by_contra hno
    rw [not_or] at hno
    have heq := h _ _ 0 0 0 (ones_lt p.aw) (ones_lt p.bw) (hpos _) (hpos _) (hpos _)
    rw [hvalue, hvalue, extend_zero, extend_zero] at heq
    exact hodd _ _ (extend_ones_odd (Nat.pos_of_ne_zero hno.1) hyw)
      (extend_ones_odd (Nat.pos_of_ne_zero hno.2) hyw) heq
  · rintro (haw | hbw) a b a' b' s ha hb ha' hb' -
    · rw [eq_zero_of_width haw ha, eq_zero_of_width haw ha', hvalue, hvalue, extend_zero]
      exact (hzero _).1.trans (hzero _).1.symm
    · rw [eq_zero_of_width hbw hb, eq_zero_of_width hbw hb', hvalue, hvalue, extend_zero]
      exact (hzero _).2.trans (hzero _).2.symm

end Unread

/-- An operation on one operand. -/
theorem constant_unary {f : Nat → Nat} (hyw : 0 < p.yw)
    (hvalue : ∀ a b s, p.value a b s = f (extend p.aSigned p.aw p.yw a))
    (hinj : ∀ x < 2 ^ p.yw, f x = f 0 → x = 0) : p.Constant ↔ p.aw = 0 := by
  have hpos := Nat.two_pow_pos
  constructor
  · intro h
    by_contra haw
    have heq := h _ 0 0 0 0 (ones_lt p.aw) (hpos _) (hpos _) (hpos _) (hpos _)
    rw [hvalue, hvalue, extend_zero] at heq
    exact ones_ne_zero hyw haw _ (hinj _ (extend_lt _ _ _ _) heq)
  · rintro haw a b a' b' s ha _ ha' _ -
    rw [eq_zero_of_width haw ha, eq_zero_of_width haw ha', hvalue, hvalue]

/-- A choice, which gives `A` where no bit of `S` is set. -/
theorem not_constant (hyw : 0 < p.yw) (haw : p.aw = p.yw) (hvalue : ∀ a b, p.value a b 0 = a) :
    ¬ p.Constant := by
  intro h
  have hpos := Nat.two_pow_pos
  have heq := h _ 0 0 0 0 (ones_lt p.aw) (hpos _) (hpos _) (hpos _) (hpos _)
  have hone : 1 < 2 ^ p.aw := Nat.one_lt_two_pow (by omega)
  rw [hvalue, hvalue] at heq
  omega

theorem eq_zero_of_complement {n x : Nat} (hx : x < 2 ^ n) (h : 2 ^ n - 1 - x = 2 ^ n - 1 - 0) :
    x = 0 := by
  omega

theorem eq_zero_of_wrap_neg {n x : Nat} (hx : x < 2 ^ n) (h : wrap n (-x) = wrap n (-(0 : Nat))) :
    x = 0 := by
  rw [wrap_eq_iff] at h
  have hmod := wrap_eq_iff.mpr (Int.neg_modEq_neg.mp h)
  rwa [wrap_natCast, wrap_natCast, Nat.mod_eq_of_lt hx, Nat.zero_mod] at hmod

theorem constant_iff (hp : p.Legal) (ht : p.type.Words) : p.Constant ↔ p.Unread := by
  have hyw := hp.1
  have hlegal := hp.2.2
  have hmod : ∀ x < 2 ^ p.yw, x % 2 ^ p.yw = 0 % 2 ^ p.yw → x = 0 := by
    intro x hx h
    rwa [Nat.mod_eq_of_lt hx, Nat.zero_mod] at h
  rw [Shape.Unread]
  cases htype : p.type <;> rw [htype] at ht hlegal <;> simp only [CellType.Words] at ht hlegal ⊢
  case add =>
    refine constant_binary (f := fun x y => (x + y) % 2 ^ p.yw) hyw
      (fun a b s => by simp only [Shape.value, CellType.value, htype, ← hlegal, Bool.and_self])
      (fun x hx h => hmod x hx (by simpa using h)) (fun x hx h => hmod x hx (by simpa using h))
  case sub =>
    refine constant_binary (f := fun x y => wrap p.yw (x - y)) hyw
      (fun a b s => by simp only [Shape.value, CellType.value, htype, ← hlegal, Bool.and_self])
      (fun x hx h => ?_) (fun x hx h => eq_zero_of_wrap_neg hx (by simpa using h))
    simp only [Nat.cast_zero, Int.sub_zero] at h
    rw [wrap_natCast, Nat.mod_eq_of_lt hx] at h
    exact h.trans (wrap_natCast _ 0 |>.trans (Nat.zero_mod _))
  case mul =>
    refine constant_product (f := fun x y => x * y % 2 ^ p.yw) hyw
      (fun a b s => by simp only [Shape.value, CellType.value, htype, ← hlegal, Bool.and_self])
      (fun x y hx hy h => ?_) (fun x => ⟨by simp, by simp⟩)
    -- a product of odd numbers is odd, and the output has its lowest bit
    have hdvd : 2 ∣ 2 ^ p.yw := dvd_pow_self 2 (Nat.ne_of_gt hyw)
    have hparity : x * y % 2 ^ p.yw % 2 = 0 * 0 % 2 ^ p.yw % 2 := congrArg (· % 2) h
    rw [Nat.mod_mod_of_dvd _ hdvd, Nat.mod_mod_of_dvd _ hdvd, Nat.mul_mod, hx, hy] at hparity
    exact absurd hparity (by decide)
  case and =>
    refine constant_product (f := fun x y => x &&& y) hyw
      (fun a b s => by simp only [Shape.value, CellType.value, htype, ← hlegal, Bool.and_self])
      (fun x y hx hy h => ?_) (fun x => ⟨by simp, by simp⟩)
    have hparity := congrArg (Nat.testBit · 0) h
    simp [Nat.testBit_zero, hx, hy] at hparity
  case or =>
    refine constant_binary (f := fun x y => x ||| y) hyw
      (fun a b s => by simp only [Shape.value, CellType.value, htype, ← hlegal, Bool.and_self])
      (fun x _ h => by simpa using h) (fun x _ h => by simpa using h)
  case xor =>
    refine constant_binary (f := fun x y => x ^^^ y) hyw
      (fun a b s => by simp only [Shape.value, CellType.value, htype, ← hlegal, Bool.and_self])
      (fun x _ h => by simpa using h) (fun x _ h => by simpa using h)
  case xnor =>
    refine constant_binary (f := fun x y => 2 ^ p.yw - 1 - (x ^^^ y)) hyw
      (fun a b s => by simp only [Shape.value, CellType.value, htype, ← hlegal, Bool.and_self])
      (fun x hx h => eq_zero_of_complement hx (by simpa using h))
      (fun x hx h => eq_zero_of_complement hx (by simpa using h))
  case not =>
    refine constant_unary (f := fun x => 2 ^ p.yw - 1 - x) hyw
      (fun a b s => by simp only [Shape.value, CellType.value, htype]) fun x hx h =>
        eq_zero_of_complement hx h
  case neg =>
    refine constant_unary (f := fun x => wrap p.yw (-x)) hyw
      (fun a b s => by simp only [Shape.value, CellType.value, htype]) fun x hx h =>
        eq_zero_of_wrap_neg hx h
  case mux =>
    refine iff_of_false (not_constant hyw hlegal.1 fun a b => ?_) (by omega)
    simp only [Shape.value, CellType.value, htype, Nat.zero_testBit, Bool.false_eq_true, if_false]
  case pmux =>
    refine iff_of_false (not_constant hyw hlegal.1 fun a b => ?_) (by omega)
    have hnone : (List.range (p.bw / p.yw)).filter (0 : Nat).testBit = [] :=
      List.filter_eq_nil_iff.mpr fun i _ => by rw [Nat.zero_testBit]; exact Bool.false_ne_true
    simp only [Shape.value, CellType.value, htype, hnone, List.getLast?_nil]

/-! ## Extension -/

/-- The words give what the library says where they are read as they are meant. -/
def Shape.WordsAgree (size : LimbSize) (p : Shape) : Prop :=
  ∀ a b s, a < 2 ^ p.aw → b < 2 ^ p.bw → s < 2 ^ p.sw →
    ∃ v, p.words size a b s = some v ∧ v % 2 ^ p.yw = p.value a b s

/-- The shapes whose operands need no sign extension, and a product that fits. -/
def Shape.WordsOk (size : LimbSize) (p : Shape) : Prop :=
  let extended := Unextended p.aSigned p.aw p.yw ∧ Unextended p.aSigned p.bw p.yw
  match p.type with
  | .mul => (extended ∨ p.aw = 0 ∨ p.bw = 0 ∨ p.aw = 1 ∧ p.bw = 1) ∧ p.Fitting size
  | .and => extended ∨ p.aw = 0 ∨ p.bw = 0
  | .not | .neg => Unextended p.aSigned p.aw p.yw
  | .mux | .pmux => True
  | _ => extended

/-- The shape of the cells whose store keeps the bits of the output only. -/
def Shape.masked (p : Shape) : Shape := { p with scattered := true }

/-- Nothing of the words is kept above the output. -/
theorem wordsAgree_masked {g : Nat → Nat → Nat → Nat}
    (hwords : ∀ a b s, p.words size a b s = some (g a b s))
    (hemitted : ∀ a b s, ∃ v, p.masked.emitted a b s = some v ∧
      v % 2 ^ p.yw = g a b s % 2 ^ p.yw) :
    p.WordsAgree size ↔ p.masked.Agrees := by
  have hkept : ∀ v, p.masked.kept v = v % 2 ^ p.yw := fun v => if_pos rfl
  constructor
  · intro h a b s ha hb hs
    obtain ⟨v, hv, hmod⟩ := hemitted a b s
    obtain ⟨u, hu, hvalue⟩ := h a b s ha hb hs
    rw [hwords] at hu
    cases hu
    exact ⟨v, hv, (hkept v).trans (hmod.trans hvalue)⟩
  · intro h a b s ha hb hs
    obtain ⟨v, hv, hmod⟩ := hemitted a b s
    obtain ⟨u, hu, hvalue⟩ := h a b s ha hb hs
    rw [hv] at hu
    cases hu
    exact ⟨_, hwords a b s, hmod.symm.trans ((hkept v).symm.trans hvalue)⟩

/-- Zero extension is the extension of all numbers. -/
theorem unextended_iff {isSigned : Bool} {w n : Nat} :
    (∀ a < 2 ^ w, a % 2 ^ n = extend isSigned w n a) ↔ Unextended isSigned w n := by
  constructor
  · intro h
    by_contra hno
    have hones := h _ (ones_lt w)
    rw [extend_ones hno] at hones
    exact ones_ne hno hones
  · exact fun h a ha => (extend_of_unextended h ha).symm

theorem wordsAgree_xor (hp : p.Legal) (htype : p.type = .xor) : p.WordsAgree size ↔
    Unextended p.aSigned p.aw p.yw ∧ Unextended p.aSigned p.bw p.yw := by
  have hlegal := hp.2.2
  rw [htype] at hlegal
  have hq : p.masked.Legal := ⟨hp.1, fun h => (by cases h), hp.2.2⟩
  have hmasked : p.WordsAgree size ↔ p.masked.Agrees :=
    wordsAgree_masked (g := fun a b _ => a ^^^ b)
      (fun a b s => by simp only [Shape.words, htype])
      (fun a b s => ⟨a ^^^ b, by simp only [Shape.emitted, Shape.masked, htype], rfl⟩)
  rw [hmasked, agrees_xor (p := p.masked) hlegal hq htype]
  exact and_iff_left ⟨.inl rfl, .inl rfl⟩

/-- The complement of the words is right where the words are. -/
theorem wordsAgree_xnor (hp : p.Legal) (htype : p.type = .xnor) : p.WordsAgree size ↔
    Unextended p.aSigned p.aw p.yw ∧ Unextended p.aSigned p.bw p.yw := by
  have hlegal := hp.2.2
  rw [htype] at hlegal
  have hxor : ({ p with type := .xor } : Shape).WordsAgree size ↔
      Unextended p.aSigned p.aw p.yw ∧ Unextended p.aSigned p.bw p.yw :=
    wordsAgree_xor ⟨hp.1, hp.2.1, hlegal⟩ rfl
  rw [← hxor]
  -- both complements are taken of numbers of `p.yw` bits, so they are equal when these are
  have hpos := Nat.two_pow_pos p.yw
  have hiff : ∀ a b s, ((∃ v, p.words size a b s = some v ∧ v % 2 ^ p.yw = p.value a b s) ↔
      ∃ v, ({ p with type := .xor } : Shape).words size a b s = some v ∧
        v % 2 ^ p.yw = ({ p with type := .xor } : Shape).value a b s) := by
    intro a b s
    have hlt := Nat.mod_lt (a ^^^ b) hpos
    have hvalue : extend p.aSigned p.aw p.yw a ^^^ extend p.aSigned p.bw p.yw b < 2 ^ p.yw :=
      Nat.xor_lt_two_pow (extend_lt _ _ _ _) (extend_lt _ _ _ _)
    simp only [Shape.words, Shape.value, CellType.value, htype, ← hlegal, Bool.and_self,
      Option.some.injEq, exists_eq_left']
    rw [complement_mod_self, complement]
    omega
  exact forall_congr' fun a => forall_congr' fun b => forall_congr' fun s =>
    imp_congr_right fun _ => imp_congr_right fun _ => imp_congr_right fun _ => hiff a b s

/-- A cell of which only `A` counts, in the bits that the output has. -/
theorem wordsAgree_unary {f : Nat → Nat}
    (hwords : ∀ a b s, p.words size a b s = some (f (a % 2 ^ p.yw)))
    (hvalue : ∀ a b s, p.value a b s = f (extend p.aSigned p.aw p.yw a))
    (hf : ∀ x < 2 ^ p.yw, ∀ y < 2 ^ p.yw, f x % 2 ^ p.yw = f y ↔ x = y) :
    p.WordsAgree size ↔ Unextended p.aSigned p.aw p.yw := by
  have hpos := Nat.two_pow_pos
  rw [← unextended_iff]
  constructor
  · intro h a ha
    obtain ⟨v, hv, heq⟩ := h a 0 0 ha (hpos _) (hpos _)
    rw [hwords] at hv
    cases hv
    rw [hvalue] at heq
    exact (hf _ (Nat.mod_lt _ (hpos _)) _ (extend_lt _ _ _ _)).mp heq
  · intro h a b s ha _ _
    refine ⟨_, hwords a b s, ?_⟩
    rw [hvalue]
    exact (hf _ (Nat.mod_lt _ (hpos _)) _ (extend_lt _ _ _ _)).mpr (h a ha)

theorem wordsAgree_iff (hp : p.Legal) (ht : p.type.Words) :
    p.WordsAgree size ↔ p.WordsOk size := by
  have hyw := hp.1
  have hlegal := hp.2.2
  have hq : p.masked.Legal := ⟨hp.1, fun h => (by cases h), hp.2.2⟩
  rw [Shape.WordsOk]
  cases htype : p.type <;> rw [htype] at ht hlegal <;> simp only [CellType.Words] at ht hlegal ⊢
  case add =>
    exact (wordsAgree_masked (g := fun a b _ => a + b)
      (fun a b s => by simp only [Shape.words, htype])
      (fun a b s => ⟨(a + b) % 2 ^ p.yw, by simp only [Shape.emitted, Shape.masked, htype], Nat.mod_mod _ _⟩)).trans
      (agrees_add (p := p.masked) hlegal htype)
  case sub =>
    exact (wordsAgree_masked (g := fun a b _ => wrap p.yw (a - b))
      (fun a b s => by simp only [Shape.words, htype])
      (fun a b s => ⟨wrap p.yw (a - b), by simp only [Shape.emitted, Shape.masked, htype], rfl⟩)).trans
      (agrees_sub (p := p.masked) hlegal htype)
  case mul =>
    by_cases hfit : p.Fitting size
    · exact ((wordsAgree_masked (g := fun a b _ => a * b)
        (fun a b s => by simp only [Shape.words, htype, if_pos hfit])
        (fun a b s => ⟨a * b % 2 ^ p.yw, by simp only [Shape.emitted, Shape.masked, htype], Nat.mod_mod _ _⟩)).trans
        (agrees_mul (p := p.masked) hlegal htype)).trans (and_iff_left hfit).symm
    · refine iff_of_false (fun h => ?_) fun h => hfit h.2
      obtain ⟨v, hv, -⟩ := h 0 0 0 (Nat.two_pow_pos _) (Nat.two_pow_pos _) (Nat.two_pow_pos _)
      simp only [Shape.words, htype, if_neg hfit] at hv
      cases hv
  case and =>
    exact ((wordsAgree_masked (g := fun a b _ => a &&& b)
      (fun a b s => by simp only [Shape.words, htype])
      (fun a b s => ⟨a &&& b, by simp only [Shape.emitted, Shape.masked, htype], rfl⟩)).trans
      (agrees_and (p := p.masked) hlegal hq htype)).trans (and_iff_left (.inl (.inl rfl)))
  case or =>
    exact ((wordsAgree_masked (g := fun a b _ => a ||| b)
      (fun a b s => by simp only [Shape.words, htype])
      (fun a b s => ⟨a ||| b, by simp only [Shape.emitted, Shape.masked, htype], rfl⟩)).trans
      (agrees_or (p := p.masked) hlegal hq htype)).trans (and_iff_left ⟨.inl rfl, .inl rfl⟩)
  case xor => exact wordsAgree_xor hp htype
  case xnor => exact wordsAgree_xnor hp htype
  case not =>
    refine wordsAgree_unary (f := complement p.yw) (fun a b s => by simp only [Shape.words, htype])
      (fun a b s => by simp only [Shape.value, CellType.value, htype, complement])
      fun x hx y hy => ?_
    rw [Nat.mod_eq_of_lt (complement_lt _), complement, complement]
    omega
  case neg =>
    refine wordsAgree_unary (f := fun x => wrap p.yw (-x)) (fun a b s => ?_)
      (fun a b s => by simp only [Shape.value, CellType.value, htype]) fun x hx y hy => ?_
    · have hneg : wrap p.yw (-((a % 2 ^ p.yw : Nat) : Int)) = wrap p.yw (-a) := by
        rw [wrap_eq_iff, Int.natCast_emod, natCast_two_pow]
        exact (Int.mod_modEq _ _).neg
      simp only [Shape.words, htype, hneg]
    · simp only [wrap_mod_self, wrap_eq_iff, Int.neg_modEq_neg]
      rw [← wrap_eq_iff, wrap_natCast, wrap_natCast, Nat.mod_eq_of_lt hx, Nat.mod_eq_of_lt hy]
  case mux =>
    refine iff_of_true ((wordsAgree_masked (g := fun a b s => if s ≠ 0 then b else a)
      (fun a b s => by simp only [Shape.words, htype])
      (fun a b s => ⟨if s ≠ 0 then b else a, by simp only [Shape.emitted, Shape.masked, htype], rfl⟩)).mpr
      (agrees_mux (p := p.masked) hq htype)) trivial
  case pmux =>
    -- the cases are run in order, so the last one whose bit is set is what stays
    refine iff_of_true (fun a b s ha hb hs => ?_) trivial
    have hcount : p.bw / p.yw = p.sw := by rw [hlegal.2, Nat.mul_div_cancel _ hyw]
    have hwords : p.words size a b s = some ((List.range p.sw).foldl
        (fun v i => if s.testBit i then (b >>> (i * p.yw)) % 2 ^ p.yw else v) a) := by
      simp only [Shape.words, htype]
    refine ⟨_, hwords, ?_⟩
    simp only [Shape.value, CellType.value, htype, hcount]
    rw [foldl_select]
    cases ((List.range p.sw).filter s.testBit).getLast? with
    | some i => exact Nat.mod_mod _ _
    | none =>
      rw [hlegal.1] at ha
      exact Nat.mod_eq_of_lt ha

/-! ## The cells on words -/

/-- A cell that computes on words is faithful exactly if no operand needs a sign extension, a product
    fits in the scratch array, and no operand that counts is redirected. -/
theorem words_faithful_iff (size : LimbSize) (p : Shape) (hp : p.Legal) (hwide : p.wide = true)
    (ht : p.type.Words) :
    Faithful size p ↔ p.WordsOk size ∧ (p.aliased = false ∨ p.Unread) := by
  have hwords : p.type.wordsOfB = true := by
    cases htype : p.type <;> rw [htype] at ht <;> first | rfl | exact ht.elim
  rw [faithful_wide size hp hwide (fun a b _ _ s => p.words size a b s)
    fun nets c env hc henv w offset width rest hchunks _ =>
      words_delivers hp ht nets c env hc henv w offset width rest hchunks,
    ← wordsAgree_iff hp ht, ← constant_iff hp ht]
  constructor
  · intro h
    have hagree : p.WordsAgree size := fun a b s ha hb hs =>
      h a b a b s ha hb ha hb hs fun _ => ⟨rfl, fun _ => rfl⟩
    refine ⟨hagree, ?_⟩
    by_cases haliased : p.aliased = false
    · exact .inl haliased
    · -- the words stay as they are when the wires that are meant change
      refine .inr fun a b a' b' s ha hb ha' hb' hs => ?_
      obtain ⟨v, hv, hvalue⟩ := h a b a' b' s ha hb ha' hb' hs fun h => absurd h haliased
      obtain ⟨u, hu, hvalue'⟩ := hagree a b s ha hb hs
      rw [hv] at hu
      cases hu
      exact hvalue'.symm.trans hvalue
  · rintro ⟨hagree, hread⟩ a b a' b' s ha hb ha' hb' hs hreads
    obtain ⟨v, hv, hvalue⟩ := hagree a b s ha hb hs
    refine ⟨v, hv, hvalue.trans ?_⟩
    rcases hread with haliased | hconstant
    · obtain ⟨rfl, hB⟩ := hreads haliased
      rw [hB hwords]
    · exact hconstant a b a' b' s ha hb ha' hb' hs

/-- A cell from whole wires to a whole wire. -/
def wordCell (type : CellType) (isSigned : Bool) (w yw : Nat) : Shape where
  type := type
  aw := w
  bw := w
  sw := 0
  yw := yw
  aSigned := isSigned
  bSigned := isSigned
  wideTarget := isWide yw
  scattered := false
  aliased := false

/-- The product of two unsigned numbers of 100 bits. -/
theorem words_faithful_iff_product : Faithful .w64 (wordCell .mul false 100 200) :=
  (words_faithful_iff .w64 (wordCell .mul false 100 200) ⟨by decide, fun _ => rfl, rfl⟩ (by decide)
    trivial).mpr ⟨⟨.inl ⟨.inl rfl, .inl rfl⟩, by decide⟩, .inl rfl⟩

end Yosys.Rtlil
