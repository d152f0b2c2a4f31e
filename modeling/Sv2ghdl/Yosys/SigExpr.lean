import Sv2ghdl.Yosys.Program

/-!
# Signals as C expressions

`sig_expr` and `signed_expr` of `yosys/gen_statemachine.cpp`, with `GSM_U32` off.
-/

open Clang Yosys.WideRt

namespace Yosys.Rtlil

/-! ## Emission -/

/-- The representative of a bit, and the stored bit that a read of a representative goes to. -/
structure Nets where
  sigmap : SigBit → SigBit
  redirect : SigBit → SigBit

/-- The bits that `sig_expr` reads. -/
def Nets.resolve (nets : Nets) (sig : SigSpec) : SigSpec :=
  sig.map fun b => nets.redirect (nets.sigmap b)

/-- `UINT64_C(0x..)` -/
def u64Lit (v : Nat) : CExpr := .lit ⟨uint64, v⟩

def intLit (v : Nat) : CExpr := .lit ⟨int, v⟩

/-- `mask_lit`, for a width of at most 64 -/
def maskLit (w : Nat) : CExpr := u64Lit (2 ^ w - 1)

/-- The value of constant bits; an undefined bit counts as 0. -/
def constValue (data : List State) : Nat := ofBits (data.map fun s => decide (s = .s1))

def isConst : SigBit → Bool
  | .const _ => true
  | .wire _ _ => false

/-- `((wn >> offset) & mask)` -/
def sliceExpr (w : Wire) (offset width : Nat) : CExpr :=
  .bin .and (.bin .shr (.var (.wire w)) (intLit offset)) (maskLit width)

variable (size : LimbSize)

/-- The expression of a chunk in a concatenation. -/
def chunkExpr : Chunk → CExpr
  | .wire w offset width =>
    if isWide w.width then .call (.wslice64 (.wire w) offset width (nlimbs size w.width))
    else if offset = 0 ∧ width = w.width then .var (.wire w)
    else sliceExpr w offset width
  | .const data => u64Lit (constValue data)

/-- The expression of a signal that is one chunk: a single bit is masked with `1`. -/
def singleExpr (w : Wire) (offset width : Nat) : CExpr :=
  if ¬ isWide w.width ∧ ¬ (offset = 0 ∧ width = w.width) ∧ width = 1 then
    .bin .and (.bin .shr (.var (.wire w)) (intLit offset)) (intLit 1)
  else chunkExpr size (.wire w offset width)

/-- The loop over the chunks of a concatenation, `pos` bits of which are in `expr`. -/
def concatExpr (pos : Nat) (expr : CExpr) : List Chunk → CExpr
  | [] => expr
  | c :: cs =>
    let part := chunkExpr size c
    let expr := if pos = 0 then part else .bin .or (.bin .shl part (intLit pos)) expr
    concatExpr (pos + c.width) expr cs

/-- `sig_expr` after `sigmap` and the redirection. -/
def bitsExpr (bits : SigSpec) : CExpr :=
  if bits.all isConst then u64Lit (ofBits (bits.map fun b => decide (b = .const .s1)))
  else
    match chunks bits with
    | [.wire w offset width] => singleExpr size w offset width
    | cs => concatExpr size 0 (intLit 0) cs

def sigExpr (nets : Nets) (sig : SigSpec) : CExpr := bitsExpr size (nets.resolve sig)

/-- `signed_expr`, for a width of at most 64 -/
def signedExpr (e : CExpr) (width : Nat) : CExpr :=
  if width ≥ 64 then .cast int64 e
  else .bin .shr (.cast int64 (.bin .shl e (intLit (64 - width)))) (intLit (64 - width))

/-! ## Chunks -/

/-- A bit that lies within its wire. -/
def SigBit.Valid : SigBit → Prop
  | .wire w i => i < w.width
  | .const _ => True

def Chunk.Valid (c : Chunk) : Prop := 0 < c.width ∧ ∀ b ∈ c.bits, b.Valid

theorem width_pos_pushBit {b : SigBit} {cs : List Chunk} (h : ∀ c ∈ cs, 0 < c.width) :
    ∀ c ∈ pushBit b cs, 0 < c.width := by
  intro c hc
  fun_cases pushBit b cs with
  | case1 w i v offset width cs heq =>
    rw [pushBit, if_pos heq] at hc
    rcases List.mem_cons.mp hc with rfl | hc
    · exact Nat.succ_pos _
    · exact h c (List.mem_cons_of_mem _ hc)
  | case2 w i v offset width cs heq =>
    rw [pushBit, if_neg heq] at hc
    rcases List.mem_cons.mp hc with rfl | hc
    · exact Nat.one_pos
    · exact h c hc
  | case3 w i cs hne =>
    have hpush : pushBit (.wire w i) cs = .wire w i 1 :: cs := by
      cases cs with
      | nil => rfl
      | cons d cs =>
        cases d with
        | wire v offset width => exact absurd rfl (hne v offset width cs)
        | const data => rfl
    rw [hpush] at hc
    rcases List.mem_cons.mp hc with rfl | hc
    · exact Nat.one_pos
    · exact h c hc
  | case4 s data cs =>
    rw [pushBit] at hc
    rcases List.mem_cons.mp hc with rfl | hc
    · exact Nat.succ_pos _
    · exact h c (List.mem_cons_of_mem _ hc)
  | case5 s cs hne =>
    have hpush : pushBit (.const s) cs = .const [s] :: cs := by
      cases cs with
      | nil => rfl
      | cons d cs =>
        cases d with
        | wire v offset width => rfl
        | const data => exact absurd rfl (hne data cs)
    rw [hpush] at hc
    rcases List.mem_cons.mp hc with rfl | hc
    · exact Nat.one_pos
    · exact h c hc

theorem width_pos {sig : SigSpec} : ∀ c ∈ chunks sig, 0 < c.width := by
  induction sig with
  | nil => simp [chunks]
  | cons b sig ih => exact width_pos_pushBit ih

theorem chunks_valid {sig : SigSpec} (h : ∀ b ∈ sig, b.Valid) : ∀ c ∈ chunks sig, c.Valid := by
  intro c hc
  refine ⟨width_pos c hc, fun b hb => h b ?_⟩
  rw [← bits_chunks sig]
  exact List.mem_flatMap.mpr ⟨c, hc, hb⟩

/-- A valid chunk of a wire lies within the wire. -/
theorem Chunk.Valid.le {w : Wire} {offset width : Nat} (h : (Chunk.wire w offset width).Valid) :
    0 < width ∧ offset + width ≤ w.width := by
  obtain ⟨hpos, hbits⟩ := h
  rw [Chunk.width] at hpos
  have hlast : SigBit.Valid (.wire w (offset + (width - 1))) := by
    refine hbits _ (List.mem_map.mpr ⟨_, List.mem_range'_1.mpr ⟨?_, ?_⟩, rfl⟩) <;> omega
  rw [SigBit.Valid] at hlast
  omega

/-! ## The value of an expression -/

section Value

variable {size : LimbSize} {env : CEnv}

theorem var_has (henv : WellFormed size env) (w : Wire) :
    (Expr.var (.wire w) : CExpr).Has (Func.eval size) env uint64 (env.scalar (.wire w)).pattern := by
  have htype := henv.type w
  rw [Expr.Has, Expr.eval, ← htype]

theorem lit_has (v : Value) : (Expr.lit v : CExpr).Has (Func.eval size) env v.type v.pattern := rfl

/-- The bits of a number below `2 ^ n` that a signal spells. -/
theorem eq_value {σ : Valuation} {sig : SigSpec} {x : Nat} (hx : x < 2 ^ sig.length)
    (h : ∀ i b, sig[i]? = some b → x.testBit i = b.value σ) : x = value σ sig := by
  refine testBit_ext hx (value_lt σ sig) fun i hi => ?_
  rw [testBit_value, List.getElem?_eq_getElem hi, Option.map_some, Option.getD_some]
  exact h i _ (List.getElem?_eq_getElem hi)

theorem getElem?_bits {w : Wire} {offset width i : Nat} {b : SigBit}
    (h : (Chunk.wire w offset width).bits[i]? = some b) : i < width ∧ b = .wire w (offset + i) := by
  obtain ⟨hi, rfl⟩ := List.getElem?_eq_some_iff.mp h
  refine ⟨by simpa [Chunk.bits] using hi, ?_⟩
  simp [Chunk.bits]

/-- `(wn >> offset) & mask` is the slice of the wire. -/
theorem slice_value {w : Wire} (hw : isWide w.width = false) (offset width : Nat) :
    (env.scalar (.wire w)).pattern >>> offset &&& (2 ^ width - 1) =
      value (wireBits size env) (Chunk.wire w offset width).bits := by
  rw [Nat.and_two_pow_sub_one_eq_mod]
  refine eq_value ?_ fun i b hb => ?_
  · rw [length_bits]
    exact Nat.mod_lt _ (Nat.two_pow_pos width)
  · obtain ⟨hi, rfl⟩ := getElem?_bits hb
    rw [Nat.testBit_mod_two_pow, decide_eq_true hi, Bool.true_and, Nat.testBit_shiftRight]
    simp only [SigBit.value, wireBits, hw, Bool.false_eq_true, if_false]

theorem whole_value (henv : WellFormed size env) {w : Wire} (hw : isWide w.width = false) :
    (env.scalar (.wire w)).pattern =
      value (wireBits size env) (Chunk.wire w 0 w.width).bits := by
  rw [← slice_value hw, Nat.shiftRight_zero, Nat.and_two_pow_sub_one_eq_mod,
    Nat.mod_eq_of_lt (henv.lt w hw)]

theorem const_value (σ : Valuation) (data : List State) :
    constValue data = value σ (Chunk.const data).bits := by
  rw [constValue, value, Chunk.bits, List.map_map]
  rfl

theorem slice_has (henv : WellFormed size env) {w : Wire} (hw : isWide w.width = false)
    {offset width : Nat} (hoff : offset < 64) (hwidth : width ≤ 64) :
    (sliceExpr w offset width).Has (Func.eval size) env uint64
      (value (wireBits size env) (Chunk.wire w offset width).bits) := by
  have hlt : (env.scalar (.wire w)).pattern < 2 ^ 64 :=
    Nat.lt_of_lt_of_le (henv.lt w hw) (Nat.pow_le_pow_right (by decide) (by simpa [isWide] using hw))
  have hmask : 2 ^ width - 1 < 2 ^ 64 := by
    have hle : 2 ^ width ≤ 2 ^ 64 := Nat.pow_le_pow_right (by decide) hwidth
    have hpos := Nat.two_pow_pos width
    omega
  rw [← slice_value hw]
  exact ((var_has henv w).shr hlt hoff (by omega)).and (lit_has _)
    (Nat.lt_of_le_of_lt (Nat.shiftRight_le _ _) hlt) hmask

theorem chunk_has (henv : WellFormed size env) {c : Chunk}
    (hc : c.Valid) (hwidth : c.width ≤ 64) :
    (chunkExpr size c).Has (Func.eval size) env uint64 (value (wireBits size env) c.bits) := by
  cases c with
  | const data =>
    rw [chunkExpr, ← const_value]
    exact lit_has _
  | wire w offset width =>
    obtain ⟨hpos, hle⟩ := hc.le
    rw [Chunk.width] at hwidth
    rw [chunkExpr]
    by_cases hw : isWide w.width = true
    · rw [if_pos hw]
      have hlimbs := le_nlimbs size w.width
      obtain ⟨v, hv, hlt, hbits⟩ := wslice64_spec size (henv.limbs w hw) hpos hwidth
        offset (by omega)
      have hvalue : v = value (wireBits size env) (Chunk.wire w offset width).bits := by
        refine eq_value (by rwa [length_bits]) fun i b hb => ?_
        obtain ⟨hi, rfl⟩ := getElem?_bits hb
        rw [hbits, decide_eq_true hi, Bool.true_and]
        simp only [SigBit.value, wireBits, hw, if_true]
      rw [Expr.Has, Expr.eval, Func.eval, hv, Option.map_some, hvalue]
    · have hnarrow : isWide w.width = false := by simpa using hw
      have hw64 : w.width ≤ 64 := by simpa [isWide] using hnarrow
      rw [if_neg hw]
      by_cases hwhole : offset = 0 ∧ width = w.width
      · obtain ⟨rfl, rfl⟩ := hwhole
        rw [if_pos ⟨rfl, rfl⟩, ← whole_value henv hnarrow]
        exact var_has henv w
      · rw [if_neg hwhole]
        exact slice_has henv hnarrow (by omega) hwidth

theorem single_has (henv : WellFormed size env) {w : Wire}
    {offset width : Nat} (hc : (Chunk.wire w offset width).Valid) (hwidth : width ≤ 64) :
    (singleExpr size w offset width).Has (Func.eval size) env uint64
      (value (wireBits size env) (Chunk.wire w offset width).bits) := by
  rw [singleExpr]
  split_ifs with hbit
  · -- the mask of one bit is the literal `1`, an `int` that `&` converts
    obtain ⟨hw, hwhole, rfl⟩ := hbit
    have hnarrow : isWide w.width = false := by simpa using hw
    have hw64 : w.width ≤ 64 := by simpa [isWide] using hnarrow
    have hlt : (env.scalar (.wire w)).pattern < 2 ^ 64 :=
      Nat.lt_of_lt_of_le (henv.lt w hnarrow) (Nat.pow_le_pow_right (by decide) hw64)
    have hshift : (Expr.bin .shr (.var (.wire w)) (intLit offset) : CExpr).Has (Func.eval size) env
        uint64 ((env.scalar (.wire w)).pattern >>> offset) :=
      (var_has henv w).shr hlt (by have := hc.le; omega) (by have := hc.le; omega)
    have hlt' := Nat.lt_of_le_of_lt (Nat.shiftRight_le _ offset) hlt
    rw [← slice_value hnarrow, Expr.Has, Expr.eval, hshift]
    simp only [intLit, Expr.eval, Option.bind_some, BinOp.eval]
    have hcommon : common uint64 int = uint64 := rfl
    have hone : (⟨int, 1⟩ : Value).convert uint64 = ⟨uint64, 1⟩ := rfl
    rw [hcommon, convert_self hlt', hone]
    rfl
  · exact chunk_has henv hc hwidth

theorem concat_has (henv : WellFormed size env)
    {cs : List Chunk} (hcs : ∀ c ∈ cs, c.Valid) {done : SigSpec} {e : CExpr}
    (he : done ≠ [] → e.Has (Func.eval size) env uint64 (value (wireBits size env) done))
    (hne : done ≠ [] ∨ cs ≠ []) (hlen : (done ++ cs.flatMap Chunk.bits).length ≤ 64) :
    (concatExpr size done.length e cs).Has (Func.eval size) env uint64
      (value (wireBits size env) (done ++ cs.flatMap Chunk.bits)) := by
  induction cs generalizing done e with
  | nil =>
    rw [List.flatMap_nil, List.append_nil]
    exact he (hne.resolve_right fun h => h rfl)
  | cons c cs ih =>
    have hc := hcs c (by simp)
    rw [List.flatMap_cons, ← List.append_assoc] at hlen ⊢
    rw [List.length_append, List.length_append, length_bits] at hlen
    have hpart := chunk_has henv hc (by omega)
    rw [concatExpr, ← length_bits c, ← List.length_append]
    have hne' : done ++ c.bits ≠ [] := by
      intro h
      have hbits := congrArg List.length h
      rw [List.length_append, length_bits, List.length_nil] at hbits
      have := hc.1
      omega
    refine ih (fun d hd => hcs d (by simp [hd])) (fun _ => ?_) (.inl hne') (by
      rw [List.length_append, List.length_append, length_bits]
      omega)
    by_cases hdone : done = []
    · subst hdone
      exact hpart
    · have hpos : done.length ≠ 0 := fun h => hdone (List.length_eq_zero_iff.mp h)
      have hlow := value_lt (wireBits size env) done
      have hhigh := value_lt (wireBits size env) c.bits
      rw [length_bits] at hhigh
      have hlt : value (wireBits size env) (done ++ c.bits) < 2 ^ 64 := by
        refine Nat.lt_of_lt_of_le (value_lt _ _) (Nat.pow_le_pow_right (by decide) ?_)
        rw [List.length_append, length_bits]
        omega
      have hshift : value (wireBits size env) c.bits <<< done.length < 2 ^ 64 := by
        rw [value_append] at hlt
        rw [Nat.shiftLeft_eq, Nat.mul_comm]
        omega
      have hor : value (wireBits size env) (done ++ c.bits) =
          (value (wireBits size env) c.bits <<< done.length) % 2 ^ 64 |||
            value (wireBits size env) done := by
        rw [Nat.mod_eq_of_lt hshift, ← Nat.shiftLeft_add_eq_or_of_lt hlow, Nat.shiftLeft_eq,
          value_append, Nat.mul_comm, Nat.add_comm]
      rw [if_neg hpos, hor]
      have := hc.1
      exact (hpart.shl (by omega) (by omega)).or (he hdone)
        (Nat.mod_lt _ (Nat.two_pow_pos 64))
        (Nat.lt_of_lt_of_le hlow (Nat.pow_le_pow_right (by decide) (by omega)))

theorem bits_has (henv : WellFormed size env) {bits : SigSpec}
    (hbits : ∀ b ∈ bits, b.Valid) (hlen : bits.length ≤ 64) :
    (bitsExpr size bits).Has (Func.eval size) env uint64 (value (wireBits size env) bits) := by
  rw [bitsExpr]
  by_cases hconst : bits.all isConst = true
  · rw [if_pos hconst]
    have hmap : bits.map (SigBit.value (wireBits size env)) =
        bits.map fun b => decide (b = .const .s1) := by
      refine List.map_congr_left fun b hb => ?_
      cases b with
      | wire w i => simpa [isConst] using List.all_eq_true.mp hconst _ hb
      | const s => simp [SigBit.value]
    rw [← hmap]
    exact lit_has _
  · rw [if_neg hconst]
    have hvalid := chunks_valid hbits
    have hflat := bits_chunks bits
    have hne : chunks bits ≠ [] := by
      intro h
      rw [h] at hflat
      exact hconst (by rw [← hflat]; rfl)
    have hconcat : (concatExpr size 0 (intLit 0) (chunks bits)).Has (Func.eval size) env uint64
        (value (wireBits size env) bits) := by
      have hrun := concat_has (e := intLit 0) henv hvalid
        (fun h => absurd rfl h) (.inr hne) (by rw [List.nil_append, hflat]; exact hlen)
      rwa [List.nil_append, hflat] at hrun
    split
    · rename_i w offset width heq
      rw [heq, List.flatMap_cons, List.flatMap_nil, List.append_nil] at hflat
      rw [← hflat]
      refine single_has henv (hvalid _ (by rw [heq]; simp)) ?_
      rw [← hflat, length_bits] at hlen
      exact hlen
    · exact hconcat

theorem length_resolve (nets : Nets) (sig : SigSpec) : (nets.resolve sig).length = sig.length :=
  List.length_map _

/-- `sig_expr` has the value of the bits that the signal resolves to. -/
theorem sigExpr_has (henv : WellFormed size env) (nets : Nets)
    {sig : SigSpec} (hsig : ∀ b ∈ nets.resolve sig, b.Valid) (hlen : sig.length ≤ 64) :
    (sigExpr size nets sig).Has (Func.eval size) env uint64
      (value (wireBits size env) (nets.resolve sig)) :=
  bits_has henv hsig (by rwa [length_resolve])

/-! ## Sign extension -/

theorem signedExpr_eval {fn : Func → CEnv → Option Value} {e : CExpr} {n width : Nat}
    (he : e.Has fn env uint64 n) (hn : n < 2 ^ width) (hpos : 0 < width) (hwidth : width ≤ 64) :
    (signedExpr e width).eval fn env = some (int64.ofInt (signedOf width n)) := by
  rw [signedExpr]
  by_cases h64 : 64 ≤ width
  · obtain rfl : width = 64 := by omega
    rw [if_pos h64, Expr.eval, he, Option.map_some, convert_unsigned, IntType.ofInt,
      signedOf_emod hn, Int.toNat_natCast, Nat.mod_eq_of_lt hn]
  · rw [if_neg h64]
    have hsum : 64 = width + (64 - width) := by omega
    have hshift : n <<< (64 - width) % 2 ^ 64 = n * 2 ^ (64 - width) := by
      rw [Nat.shiftLeft_eq, Nat.mod_eq_of_lt]
      calc n * 2 ^ (64 - width) < 2 ^ width * 2 ^ (64 - width) :=
            Nat.mul_lt_mul_of_pos_right hn (Nat.two_pow_pos _)
        _ = 2 ^ 64 := by rw [← pow_add, ← hsum]
    have hleft := he.shl (k := 64 - width) (by omega) (by omega)
    have htop : (⟨int64, n * 2 ^ (64 - width)⟩ : Value).toInt =
        signedOf width n * 2 ^ (64 - width) := by
      rw [← signedOf_mul hpos, ← hsum]
      rfl
    have hcount : (⟨int, 64 - width⟩ : Value).toInt = ((64 - width : Nat) : Int) :=
      toInt_signed (by simp only; omega)
    have hcast : (Expr.cast int64 (.bin .shl e (intLit (64 - width)))).eval fn env =
        some ⟨int64, n * 2 ^ (64 - width)⟩ := by
      rw [intLit, Expr.eval, hleft, Option.map_some, convert_unsigned, hshift]
      simp only
      rw [← hshift, Nat.mod_mod]
    rw [Expr.eval, hcast]
    simp only [intLit, Expr.eval, Option.bind_some, BinOp.eval, shift, htop, hcount]
    rw [if_pos ⟨Int.natCast_nonneg _, by omega⟩, if_neg Bool.false_ne_true, Int.toNat_natCast,
      Int.mul_ediv_cancel _ (by positivity)]

/-- No type is wide enough for a signal without bits: the shift by 64 is undefined. -/
theorem signedExpr_zero {fn : Func → CEnv → Option Value} {e : CExpr} {n : Nat}
    (he : e.Has fn env uint64 n) : (signedExpr e 0).eval fn env = none := by
  have hshift : (Expr.bin .shl e (intLit 64)).eval fn env = none := by
    rw [Expr.eval, he]
    rfl
  rw [signedExpr, if_neg (by decide), Expr.eval, Expr.eval, hshift]
  rfl

end Value

end Yosys.Rtlil
