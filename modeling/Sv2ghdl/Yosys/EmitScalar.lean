import Sv2ghdl.Yosys.SigExpr

/-!
# Narrow cells

The part of `emit_cell` of `yosys/gen_statemachine.cpp` for a cell whose ports and target have at
most 64 bits: one assignment of a masked `uint64_t` expression, or an assignment to a temporary
that is scattered over the chunks of `Y`.
-/

open Clang Yosys.WideRt

namespace Yosys.Rtlil

/-! ## Emission -/

def intLitOf (x : Int) : CExpr := .lit (int.ofInt x)

def local_ (name : String) : CExpr := .var (.loc name)

/-- `e ? 1 : 0` -/
def asBit (e : CExpr) : CExpr := .cond int e (intLit 1) (intLit 0)

/-- `(_s>=64 ? 0 : e)` -/
def belowCarrier (e : CExpr) : CExpr :=
  .cond uint64 (.bin .ge (local_ "_s") (intLit 64)) (intLit 0) e

/-- `sig.extract(i, n)` -/
def extract (sig : SigSpec) (i n : Nat) : SigSpec := (sig.drop i).take n

section Emit

variable (size : LimbSize) (nets : Nets) (c : Cell) (y : Var)

/-- `y = (a op b) & mask;` -/
def emitMasked (op : BinOp) : CStmt :=
  .set y uint64 (.bin .and (.bin op (sigExpr size nets c.A) (sigExpr size nets c.B))
    (maskLit c.Y.length))

/-- `y = a op b;` -/
def emitUnmasked (op : BinOp) : CStmt :=
  .set y uint64 (.bin op (sigExpr size nets c.A) (sigExpr size nets c.B))

/-- `y = (a op b) ? 1 : 0;` -/
def emitTest (op : BinOp) (a b : CExpr) : CStmt := .set y uint64 (asBit (.bin op a b))

/-- The operands of `$lt` and the like, sign-extended when `A_SIGNED` is set. -/
def emitOrder (op : BinOp) : CStmt :=
  if c.aSigned then
    emitTest y op (signedExpr (sigExpr size nets c.A) c.A.length)
      (signedExpr (sigExpr size nets c.B) c.B.length)
  else emitTest y op (sigExpr size nets c.A) (sigExpr size nets c.B)

/-- `uint64_t _s=(uint64_t)(b);` -/
def emitCount : CStmt := .set (.loc "_s") uint64 (.cast uint64 (sigExpr size nets c.B))

/-- `$shift` and `$shiftx` with a signed count of less than 64 bits -/
def emitSignedShift : CStmt :=
  let o := local_ "_o"
  let a := Expr.cast uint64 (sigExpr size nets c.A)
  let bw : Int := c.B.length
  .block [
    .set (.loc "_o") int64 (.cast int64 (.cast uint64 (sigExpr size nets c.B))),
    .ite (.bin .and o (.bin .shl (.lit ⟨int64, 1⟩) (intLitOf (bw - 1))))
      (.set (.loc "_o") int64 (.bin .sub o (.bin .shl (.lit ⟨int64, 1⟩) (intLitOf bw)))) .skip,
    .set y uint64 (.bin .and
      (.cond uint64 (.lor (.bin .le o (.neg (intLit 64))) (.bin .ge o (intLit 64))) (intLit 0)
        (.cond uint64 (.bin .ge o (intLit 0)) (.bin .shr a o) (.bin .shl a (.neg o))))
      (maskLit c.Y.length))]

/-- `$shift` and `$shiftx` with another count -/
def emitUnsignedShift : CStmt :=
  let o := local_ "_o"
  .block [
    .set (.loc "_o") uint64 (.cast uint64 (sigExpr size nets c.B)),
    .set y uint64 (.bin .and
      (.cond uint64 (.bin .ge o (intLit 64)) (intLit 0)
        (.bin .shr (.cast uint64 (sigExpr size nets c.A)) o))
      (maskLit c.Y.length))]

/-- `$div` and `$mod` -/
def emitDivision (op : BinOp) : CStmt :=
  let a := sigExpr size nets c.A
  let b := sigExpr size nets c.B
  let d := local_ "_dv"
  if c.aSigned then
    .block [
      .set (.loc "_dv") int64 (signedExpr b c.B.length),
      .set y uint64 (.cond uint64 (.bin .eq d (intLit 0)) (intLit 0)
        (.bin .and (.cast uint64 (.bin op (signedExpr a c.A.length) d)) (maskLit c.Y.length)))]
  else
    .block [
      .set (.loc "_dv") uint64 b,
      .set y uint64 (.cond uint64 (.bin .eq d (intLit 0)) (intLit 0)
        (.bin .and (.bin op a d) (maskLit c.Y.length)))]

/-- `_t ^= _t >> k;` -/
def foldStep (k : Nat) : CStmt :=
  .set (.loc "_t") uint64 (.bin .xor (local_ "_t") (.bin .shr (local_ "_t") (intLit k)))

/-- The statements that compute a narrow cell into the variable `y`. -/
def emitOp : CStmt :=
  let a := sigExpr size nets c.A
  let b := sigExpr size nets c.B
  let masks := maskLit c.Y.length
  match c.type with
  | .add => emitMasked size nets c y .add
  | .sub => emitMasked size nets c y .sub
  | .mul => emitMasked size nets c y .mul
  | .and =>
    if c.icgClk then
      .set y uint64 (.bin .and (.bin .and (local_ "sm_icg_clkval") (intLit 1)) b)
    else emitUnmasked size nets c y .and
  | .or => emitUnmasked size nets c y .or
  | .xor => emitUnmasked size nets c y .xor
  | .not => .set y uint64 (.bin .and (.not a) masks)
  | .shl =>
    .seq (emitCount size nets c)
      (.set y uint64 (.bin .and (belowCarrier (.bin .shl a (local_ "_s"))) masks))
  | .shr =>
    .seq (emitCount size nets c) (.set y uint64 (belowCarrier (.bin .shr a (local_ "_s"))))
  | .sshr =>
    .block [
      emitCount size nets c,
      .ite (.bin .gt (local_ "_s") (intLit 63)) (.set (.loc "_s") uint64 (intLit 63)) .skip,
      .set y uint64 (.bin .and
        (.cast uint64 (.bin .shr (signedExpr a c.A.length) (local_ "_s"))) masks)]
  | .sshl =>
    .seq (emitCount size nets c)
      (.set y uint64 (belowCarrier (.bin .and (.bin .shl a (local_ "_s")) masks)))
  | .shift | .shiftx =>
    if c.bSigned ∧ c.B.length < 64 then emitSignedShift size nets c y
    else emitUnsignedShift size nets c y
  | .eq | .eqx => emitTest y .eq a b
  | .logicNot => emitTest y .eq a (intLit 0)
  | .reduceOr | .reduceBool => emitTest y .ne a (intLit 0)
  | .pmux =>
    .seq (.set y uint64 a) (.block ((List.range c.S.length).map fun i =>
      .ite (sigExpr size nets (extract c.S i 1))
        (.set y uint64 (sigExpr size nets (extract c.B (i * c.Y.length) c.Y.length))) .skip))
  | .mux => .set y uint64 (.cond uint64 (sigExpr size nets c.S) b a)
  | .ne | .nex => emitTest y .ne a b
  | .lt => emitOrder size nets c y .lt
  | .le => emitOrder size nets c y .le
  | .gt => emitOrder size nets c y .gt
  | .ge => emitOrder size nets c y .ge
  | .div => emitDivision size nets c y .div
  | .mod => emitDivision size nets c y .mod
  | .neg => .set y uint64 (.bin .and (.neg a) masks)
  | .reduceAnd =>
    emitTest y .eq (.bin .and a (maskLit c.A.length)) (maskLit c.A.length)
  | .reduceXor =>
    .block ([.set (.loc "_t") uint64 a] ++ [32, 16, 8, 4, 2, 1].map foldStep ++
      [.set y uint64 (.bin .and (local_ "_t") (intLit 1))])
  | .logicAnd =>
    .set y uint64 (asBit (.land (.bin .ne a (intLit 0)) (.bin .ne b (intLit 0))))
  | .logicOr =>
    .set y uint64 (asBit (.lor (.bin .ne a (intLit 0)) (.bin .ne b (intLit 0))))
  | .xnor => .set y uint64 (.bin .and (.not (.bin .xor a b)) masks)

end Emit

/-- The number of wires among the chunks. -/
def wireCount (cs : List Chunk) : Nat :=
  (cs.filter fun | .wire _ _ _ => true | .const _ => false).length

/-- A chunk that is a part of its wire. -/
def isPartial : Chunk → Bool
  | .wire w offset width => offset ≠ 0 ∨ width ≠ w.width
  | .const _ => false

/-- `y_multi`: `Y` is not one whole wire. -/
def yMulti (Y : SigSpec) : Bool := wireCount (chunks Y) > 1 || (chunks Y).any isPartial

/-- The store of the `pos`-th bits of `_yspl` into a chunk. -/
def scatterChunk (pos : Nat) : Chunk → CStmt
  | .const _ => .skip
  | .wire w offset width =>
    let part := Expr.bin .shr (local_ "_yspl") (intLit pos)
    if isWide w.width then .call (.wplacewS (.wire w) offset (.loc "_yspl") pos width)
    else if offset = 0 ∧ width = w.width then
      .set (.wire w) uint64 (.bin .and part (maskLit width))
    else
      .set (.wire w) uint64 (.bin .or
        (.bin .and (.var (.wire w)) (.not (.bin .shl (maskLit width) (intLit offset))))
        (.bin .shl (.bin .and part (maskLit width)) (intLit offset)))

def scatter (pos : Nat) : List Chunk → CStmt
  | [] => .skip
  | c :: cs => .seq (scatterChunk pos c) (scatter (pos + c.width) cs)

/-- `emit_cell` for a narrow cell; `w` is the wire of the first chunk of `Y`. -/
def emitScalar (size : LimbSize) (nets : Nets) (c : Cell) (w : Wire) : CStmt :=
  if yMulti c.Y then
    .block [
      .set (.loc "_yspl") uint64 (intLit 0),
      emitOp size nets c (.loc "_yspl"),
      scatter 0 (chunks c.Y)]
  else emitOp size nets c (.wire w)

/-! ## What the statements compute -/

section Values

variable {size : LimbSize} {nets : Nets} {env : CEnv}

/-- The value of a signal where it is stored. -/
def operand (size : LimbSize) (nets : Nets) (env : CEnv) (sig : SigSpec) : Nat :=
  value (wireBits size env) (nets.resolve sig)

/-- A signal of at most 64 bits, each stored in a bit of its wire. -/
structure Readable (nets : Nets) (sig : SigSpec) : Prop where
  valid : ∀ b ∈ nets.resolve sig, b.Valid
  narrow : sig.length ≤ 64

theorem operand_lt (size : LimbSize) (nets : Nets) (env : CEnv) (sig : SigSpec) :
    operand size nets env sig < 2 ^ sig.length := by
  have hlt := value_lt (wireBits size env) (nets.resolve sig)
  rwa [length_resolve] at hlt

theorem Readable.lt {sig : SigSpec} (h : Readable nets sig) (size : LimbSize) (env : CEnv) :
    operand size nets env sig < 2 ^ 64 :=
  Nat.lt_of_lt_of_le (operand_lt size nets env sig) (Nat.pow_le_pow_right (by decide) h.narrow)

theorem Readable.has {sig : SigSpec} (h : Readable nets sig) (henv : WellFormed size env) :
    (sigExpr size nets sig).Has (Func.eval size) env uint64 (operand size nets env sig) :=
  sigExpr_has henv nets h.valid h.narrow

theorem operand_set_loc (size : LimbSize) (nets : Nets) (env : CEnv) (x : String) (v : Value)
    (sig : SigSpec) :
    operand size nets (env.set (.loc x) v) sig = operand size nets env sig := by
  rw [operand, wireBits_set_loc, operand]

/-- `e & mask` -/
theorem has_mask {e : CExpr} {m w : Nat} (he : e.Has (Func.eval size) env uint64 m)
    (hm : m < 2 ^ 64) (hw : w ≤ 64) :
    (Expr.bin .and e (maskLit w)).Has (Func.eval size) env uint64 (m % 2 ^ w) := by
  have hmask : 2 ^ w - 1 < 2 ^ 64 := by
    have hle : 2 ^ w ≤ 2 ^ 64 := Nat.pow_le_pow_right (by decide) hw
    have hpos := Nat.two_pow_pos w
    omega
  rw [← Nat.and_two_pow_sub_one_eq_mod]
  exact he.and (lit_has _) hm hmask

theorem mod_mod_two_pow {w : Nat} (hw : w ≤ 64) (x : Nat) : x % 2 ^ 64 % 2 ^ w = x % 2 ^ w :=
  Nat.mod_mod_of_dvd x (Nat.pow_dvd_pow 2 hw)

theorem ite_zero_mod (p : Prop) [Decidable p] (x m : Nat) :
    (if p then 0 else x) % m = if p then 0 else x % m := by
  split_ifs
  · exact Nat.zero_mod m
  · rfl

theorem convert_u64 {m : Nat} (hm : m < 2 ^ 64) :
    (⟨uint64, m⟩ : Value).convert uint64 = ⟨uint64, m⟩ := convert_self hm

theorem convert_bit (b : Bool) : (⟨int, b.toNat⟩ : Value).convert uint64 = ⟨uint64, b.toNat⟩ := by
  cases b <;> rfl

/-- `e ? 1 : 0` of a test -/
theorem has_asBit {e : CExpr} {b : Bool} (he : e.Has (Func.eval size) env int b.toNat) :
    (asBit e).Has (Func.eval size) env int b.toNat := by
  rw [asBit, Expr.Has, Expr.eval, he]
  cases b <;> rfl

theorem computes_test {a b : CExpr} {op : BinOp} {r : Bool} (y : Var)
    (h : (Expr.bin op a b).Has (Func.eval size) env int r.toNat) :
    Computes size env (emitTest y op a b) y r.toNat :=
  computes_set y (has_asBit h) (convert_bit r)

theorem computes_masked {e : CExpr} {m w : Nat} (y : Var)
    (he : e.Has (Func.eval size) env uint64 m) (hm : m < 2 ^ 64) (hw : w ≤ 64) :
    Computes size env (.set y uint64 (.bin .and e (maskLit w))) y (m % 2 ^ w) :=
  computes_set y (has_mask he hm hw)
    (convert_u64 (Nat.lt_of_le_of_lt (Nat.mod_le _ _) hm))

theorem wrap_mod {w : Nat} (hw : w ≤ 64) (x : Int) : (x % 2 ^ 64).toNat % 2 ^ w = wrap w x := by
  have hpos : (0 : Int) < 2 ^ w := by positivity
  have hdvd : (2 ^ w : Int) ∣ 2 ^ 64 := pow_dvd_pow 2 hw
  rw [wrap, ← Int.emod_emod_of_dvd x hdvd]
  have hnonneg : 0 ≤ x % 2 ^ 64 := Int.emod_nonneg x (by decide)
  have hcast : ((x % 2 ^ 64).toNat : Int) = x % 2 ^ 64 := Int.toNat_of_nonneg hnonneg
  rw [← hcast, show (2 ^ w : Int) = ((2 ^ w : Nat) : Int) by push_cast; rfl, ← Int.natCast_emod,
    Int.toNat_natCast, Int.toNat_natCast]

variable {c : Cell} (hA : Readable nets c.A) (hB : Readable nets c.B)
  (henv : WellFormed size env) (y : Var)
include hA hB henv

theorem emitMasked_add (hY : c.Y.length ≤ 64) :
    Computes size env (emitMasked size nets c y .add) y
      ((operand size nets env c.A + operand size nets env c.B) % 2 ^ c.Y.length) := by
  rw [← mod_mod_two_pow hY]
  exact computes_masked y ((hA.has henv).add (hB.has henv) (hA.lt size env) (hB.lt size env))
    (Nat.mod_lt _ (Nat.two_pow_pos 64)) hY

theorem emitMasked_mul (hY : c.Y.length ≤ 64) :
    Computes size env (emitMasked size nets c y .mul) y
      (operand size nets env c.A * operand size nets env c.B % 2 ^ c.Y.length) := by
  rw [← mod_mod_two_pow hY]
  exact computes_masked y ((hA.has henv).mul (hB.has henv) (hA.lt size env) (hB.lt size env))
    (Nat.mod_lt _ (Nat.two_pow_pos 64)) hY

theorem emitMasked_sub (hY : c.Y.length ≤ 64) :
    Computes size env (emitMasked size nets c y .sub) y
      (wrap c.Y.length (operand size nets env c.A - operand size nets env c.B)) := by
  rw [← wrap_mod hY]
  refine computes_masked y ((hA.has henv).sub (hB.has henv) (hA.lt size env) (hB.lt size env)) ?_ hY
  omega

theorem emitUnmasked_and : Computes size env (emitUnmasked size nets c y .and) y
    (operand size nets env c.A &&& operand size nets env c.B) :=
  computes_set y ((hA.has henv).and (hB.has henv) (hA.lt size env) (hB.lt size env))
    (convert_u64 (Nat.and_lt_two_pow _ (hB.lt size env)))

theorem emitUnmasked_or : Computes size env (emitUnmasked size nets c y .or) y
    (operand size nets env c.A ||| operand size nets env c.B) :=
  computes_set y ((hA.has henv).or (hB.has henv) (hA.lt size env) (hB.lt size env))
    (convert_u64 (Nat.or_lt_two_pow (hA.lt size env) (hB.lt size env)))

theorem emitUnmasked_xor : Computes size env (emitUnmasked size nets c y .xor) y
    (operand size nets env c.A ^^^ operand size nets env c.B) :=
  computes_set y ((hA.has henv).xor (hB.has henv) (hA.lt size env) (hB.lt size env))
    (convert_u64 (Nat.xor_lt_two_pow (hA.lt size env) (hB.lt size env)))

theorem emitTest_operands {op : BinOp} {r : Bool}
    (h : op.test (operand size nets env c.A) (operand size nets env c.B) = some r) :
    Computes size env (emitTest y op (sigExpr size nets c.A) (sigExpr size nets c.B)) y r.toNat :=
  computes_test y ((hA.has henv).test (hB.has henv) (hA.lt size env) (hB.lt size env) h)

/-- A signed comparison, of operands that have bits. -/
theorem emitOrder_signed {op : BinOp} {r : Bool} (hsigned : c.aSigned = true)
    (hA' : 0 < c.A.length) (hB' : 0 < c.B.length)
    (h : op.test (signedOf c.A.length (operand size nets env c.A))
      (signedOf c.B.length (operand size nets env c.B)) = some r) :
    Computes size env (emitOrder size nets c y op) y r.toNat := by
  have ha := operand_lt size nets env c.A
  have hb := operand_lt size nets env c.B
  have hholds := int64_holds_signedOf hA' hA.narrow ha
  have hholds' := int64_holds_signedOf hB' hB.narrow hb
  rw [emitOrder, if_pos hsigned]
  refine computes_test y ?_
  rw [Expr.Has, Expr.eval, signedExpr_eval (hA.has henv) ha hA' hA.narrow,
    signedExpr_eval (hB.has henv) hb hB' hB.narrow]
  exact BinOp.eval_test (common_self int64) (by rw [hholds.convert_self, hholds.toInt_ofInt])
    (by rw [hholds'.convert_self, hholds'.toInt_ofInt]) h

/-- A signed comparison with an operand without bits is undefined. -/
theorem emitOrder_none {op : BinOp} (hsigned : c.aSigned = true)
    (hzero : c.A.length = 0 ∨ c.B.length = 0) :
    run size (emitOrder size nets c y op) env = none := by
  rw [emitOrder, if_pos hsigned]
  refine run_set_none ?_ y uint64
  have hnone : (Expr.bin op (signedExpr (sigExpr size nets c.A) c.A.length)
      (signedExpr (sigExpr size nets c.B) c.B.length)).eval (Func.eval size) env = none := by
    rw [Expr.eval]
    rcases hzero with h | h
    · rw [h, signedExpr_zero (hA.has henv)]
      rfl
    · rw [h, signedExpr_zero (hB.has henv)]
      cases (signedExpr (sigExpr size nets c.A) c.A.length).eval (Func.eval size) env <;> rfl
  rw [asBit, Expr.eval, hnone]
  rfl

omit hB in
theorem emitTest_zero {op : BinOp} {r : Bool}
    (h : op.test (operand size nets env c.A) (0 : Nat) = some r) :
    Computes size env (emitTest y op (sigExpr size nets c.A) (intLit 0)) y r.toNat :=
  computes_test y ((hA.has henv).testLit (hA.lt size env) (by decide) h)

omit hB in
theorem emitNot (hY : c.Y.length ≤ 64) :
    Computes size env
      (.set y uint64 (.bin .and (.not (sigExpr size nets c.A)) (maskLit c.Y.length))) y
      ((2 ^ 64 - 1 - operand size nets env c.A) % 2 ^ c.Y.length) := by
  have hlt := hA.lt size env
  exact computes_masked y (hA.has henv).not (by omega) hY

theorem emitMux (hS : Readable nets c.S) :
    Computes size env
      (.set y uint64
        (.cond uint64 (sigExpr size nets c.S) (sigExpr size nets c.B) (sigExpr size nets c.A))) y
      (if operand size nets env c.S ≠ 0 then operand size nets env c.B
        else operand size nets env c.A) := by
  refine computes_set (t := uint64) y ?_ (convert_u64 ?_)
  · rw [Expr.Has, Expr.eval, hS.has henv, hA.has henv, hB.has henv, Option.bind_some]
    split_ifs
    · rw [Option.map_some, convert_u64 (hB.lt size env)]
    · rw [Option.map_some, convert_u64 (hA.lt size env)]
  · split_ifs
    · exact hB.lt size env
    · exact hA.lt size env

/-! ### Shifts -/

omit hA in
theorem emitCount_run : run size (emitCount size nets c) env =
    some (env.set (.loc "_s") ⟨uint64, operand size nets env c.B⟩) := by
  have hb := hB.lt size env
  have hcast : (Expr.cast uint64 (sigExpr size nets c.B)).eval (Func.eval size) env =
      some ⟨uint64, operand size nets env c.B⟩ := by
    rw [Expr.eval, hB.has henv, Option.map_some, convert_u64 hb]
  rw [emitCount, run_set hcast, convert_u64 hb]

omit hA hB henv in
theorem local_eval (size : LimbSize) (env : CEnv) (x : String) (v : Value) :
    (local_ x).eval (Func.eval size) (env.set (.loc x) v) = some v := by
  rw [local_, Expr.eval, env.scalar_set_self]

omit hA hB henv in
/-- `(s>=64 ? 0 : e)`, where `e` need only be defined below 64. -/
theorem carrier_has {e : CExpr} {x : String} {n v : Nat}
    (hs : (local_ x).Has (Func.eval size) env uint64 n) (hn : n < 2 ^ 64)
    (he : n < 64 → e.Has (Func.eval size) env uint64 v) (hv : v < 2 ^ 64) :
    (Expr.cond uint64 (.bin .ge (local_ x) (intLit 64)) (intLit 0) e).Has (Func.eval size) env uint64
      (if 64 ≤ n then 0 else v) := by
  have htest : (Expr.bin .ge (local_ x) (intLit 64)).Has (Func.eval size) env int
      (decide (64 ≤ n)).toNat := hs.testLit hn (by decide) (by simp [BinOp.test])
  rw [Expr.Has, Expr.eval, htest, Option.bind_some]
  by_cases h : 64 ≤ n
  · rw [if_pos h, decide_eq_true h, if_pos (by decide)]
    rfl
  · rw [if_neg h, decide_eq_false h, if_neg (by decide), he (by omega), Option.map_some,
      convert_u64 hv]

/-- The operands after a local has been set. -/
theorem shift_operands (x : String) (v : Value) :
    (sigExpr size nets c.A).Has (Func.eval size) (env.set (.loc x) v) uint64
      (operand size nets env c.A) ∧
    (sigExpr size nets c.B).Has (Func.eval size) (env.set (.loc x) v) uint64
      (operand size nets env c.B) := by
  rw [← operand_set_loc size nets env x v c.A, ← operand_set_loc size nets env x v c.B]
  exact ⟨hA.has (henv.set_loc x v), hB.has (henv.set_loc x v)⟩

theorem emitShl (hY : c.Y.length ≤ 64) :
    Computes size env
      (.seq (emitCount size nets c) (.set y uint64 (.bin .and
        (belowCarrier (.bin .shl (sigExpr size nets c.A) (local_ "_s"))) (maskLit c.Y.length)))) y
      (if 64 ≤ operand size nets env c.B then 0
        else (operand size nets env c.A <<< operand size nets env c.B) % 2 ^ c.Y.length) := by
  have hs := local_eval size env "_s" ⟨uint64, operand size nets env c.B⟩
  have hvalue : (belowCarrier (.bin .shl (sigExpr size nets c.A) (local_ "_s"))).Has (Func.eval size)
      (env.set (.loc "_s") ⟨uint64, operand size nets env c.B⟩) uint64
      (if 64 ≤ operand size nets env c.B then 0
        else (operand size nets env c.A <<< operand size nets env c.B) % 2 ^ 64) :=
    carrier_has hs (hB.lt size env)
      (fun h => (shift_operands hA hB henv _ _).1.shlBy hs (toInt_unsigned _ _) h)
      (Nat.mod_lt _ (Nat.two_pow_pos 64))
  refine Computes.after_loc (emitCount_run hB henv) ?_
  have hcomputes := computes_masked y hvalue (w := c.Y.length) (by split_ifs <;> omega) hY
  rw [ite_zero_mod, mod_mod_two_pow hY] at hcomputes
  exact hcomputes

theorem emitShr :
    Computes size env
      (.seq (emitCount size nets c) (.set y uint64
        (belowCarrier (.bin .shr (sigExpr size nets c.A) (local_ "_s"))))) y
      (if 64 ≤ operand size nets env c.B then 0
        else operand size nets env c.A >>> operand size nets env c.B) := by
  have hs := local_eval size env "_s" ⟨uint64, operand size nets env c.B⟩
  have ha := hA.lt size env
  have hlt : operand size nets env c.A >>> operand size nets env c.B < 2 ^ 64 :=
    Nat.lt_of_le_of_lt (Nat.shiftRight_le _ _) ha
  refine Computes.after_loc (emitCount_run hB henv) (computes_set y ?_ (convert_u64 ?_))
  · exact carrier_has hs (hB.lt size env)
      (fun h => (shift_operands hA hB henv _ _).1.shrBy ha hs (toInt_unsigned _ _) h) hlt
  · split_ifs <;> omega

theorem emitSshl (hY : c.Y.length ≤ 64) :
    Computes size env
      (.seq (emitCount size nets c) (.set y uint64
        (belowCarrier (.bin .and (.bin .shl (sigExpr size nets c.A) (local_ "_s"))
          (maskLit c.Y.length))))) y
      (if 64 ≤ operand size nets env c.B then 0
        else (operand size nets env c.A <<< operand size nets env c.B) % 2 ^ c.Y.length) := by
  have hs := local_eval size env "_s" ⟨uint64, operand size nets env c.B⟩
  have hlt : (operand size nets env c.A <<< operand size nets env c.B) % 2 ^ c.Y.length < 2 ^ 64 :=
    Nat.lt_of_lt_of_le (Nat.mod_lt _ (Nat.two_pow_pos _)) (Nat.pow_le_pow_right (by decide) hY)
  refine Computes.after_loc (emitCount_run hB henv) (computes_set y ?_ (convert_u64 ?_))
  · refine carrier_has hs (hB.lt size env) (fun h => ?_) hlt
    rw [← mod_mod_two_pow hY]
    exact has_mask ((shift_operands hA hB henv _ _).1.shlBy hs (toInt_unsigned _ _) h)
      (Nat.mod_lt _ (Nat.two_pow_pos 64)) hY
  · split_ifs <;> omega

omit hA hB henv in
/-- `if (_s>63) _s=63;` -/
theorem clampCount_run {n : Nat} (hs : env.scalar (.loc "_s") = ⟨uint64, n⟩) (hn : n < 2 ^ 64) :
    run size (.ite (.bin .gt (local_ "_s") (intLit 63))
      (.set (.loc "_s") uint64 (intLit 63)) .skip) env =
    some (env.set (.loc "_s") ⟨uint64, min n 63⟩) := by
  have hlocal : (local_ "_s").Has (Func.eval size) env uint64 n := by
    rw [local_, Expr.Has, Expr.eval, hs]
  have htest : (Expr.bin .gt (local_ "_s") (intLit 63)).Has (Func.eval size) env int
      (decide (63 < n)).toNat := hlocal.testLit hn (by decide) (by simp [BinOp.test])
  rw [run, Stmt.run, htest, Option.bind_some]
  by_cases h : 63 < n
  · rw [decide_eq_true h, if_pos (by decide), show min n 63 = 63 by omega]
    rfl
  · rw [decide_eq_false h, if_neg (by decide), show min n 63 = n by omega, ← hs, env.set_scalar]
    rfl

theorem emitSshr (hY : c.Y.length ≤ 64) (hA' : 0 < c.A.length) :
    Computes size env
      (.block [
        emitCount size nets c,
        .ite (.bin .gt (local_ "_s") (intLit 63)) (.set (.loc "_s") uint64 (intLit 63)) .skip,
        .set y uint64 (.bin .and
          (.cast uint64 (.bin .shr (signedExpr (sigExpr size nets c.A) c.A.length) (local_ "_s")))
          (maskLit c.Y.length))]) y
      (wrap c.Y.length (signedOf c.A.length (operand size nets env c.A) /
        2 ^ min (operand size nets env c.B) 63)) := by
  have hb := hB.lt size env
  have ha := operand_lt size nets env c.A
  have hholds := int64_holds_signedOf hA' hA.narrow ha
  have hs := local_eval size env "_s"
    ⟨uint64, min (operand size nets env c.B) 63⟩
  have hsigned := signedExpr_eval (shift_operands hA hB henv "_s"
    ⟨uint64, min (operand size nets env c.B) 63⟩).1 ha hA' hA.narrow
  have hshift := eval_shr_signed hholds hsigned hs (toInt_unsigned _ _) (by simp only; omega)
  -- the two statements on the count leave `min b 63` in `_s`
  refine Computes.after_loc (emitCount_run hB henv) (Computes.after_loc
    (clampCount_run (env.scalar_set_self _ _) hb) (Computes.before_skip ?_))
  rw [env.set_set]
  rw [← wrap_mod hY]
  have hcast : (Expr.cast uint64 (.bin .shr (signedExpr (sigExpr size nets c.A) c.A.length)
      (local_ "_s"))).Has (Func.eval size)
      (env.set (.loc "_s") ⟨uint64, min (operand size nets env c.B) 63⟩) uint64
      ((signedOf c.A.length (operand size nets env c.A) /
        2 ^ min (operand size nets env c.B) 63) % 2 ^ 64).toNat := by
    rw [Expr.Has, Expr.eval, hshift, Option.map_some, (hholds.ediv _).convert_unsigned]
  exact computes_masked y hcast (by omega) hY

/-- `$sshr` of an operand without bits is undefined. -/
theorem emitSshr_none (hA' : c.A.length = 0) :
    run size (.block [
        emitCount size nets c,
        .ite (.bin .gt (local_ "_s") (intLit 63)) (.set (.loc "_s") uint64 (intLit 63)) .skip,
        .set y uint64 (.bin .and
          (.cast uint64 (.bin .shr (signedExpr (sigExpr size nets c.A) c.A.length) (local_ "_s")))
          (maskLit c.Y.length))]) env = none := by
  have hb := hB.lt size env
  have hnone := signedExpr_zero (shift_operands hA hB henv "_s"
    ⟨uint64, min (operand size nets env c.B) 63⟩).1
  rw [Stmt.block, run_seq, emitCount_run hB henv, Option.bind_some, Stmt.block, run_seq,
    clampCount_run (env.scalar_set_self _ _) hb, Option.bind_some, env.set_set, Stmt.block, run_seq,
    run_set_none, Option.bind_none]
  rw [hA', Expr.eval, Expr.eval, Expr.eval, hnone]
  rfl

/-! ### Part selects -/

/-- `$shift` and `$shiftx` with a count that is not corrected for a sign. -/
theorem emitUnsignedShift_computes (hY : c.Y.length ≤ 64) :
    Computes size env (emitUnsignedShift size nets c y) y
      (if 64 ≤ operand size nets env c.B then 0
        else (operand size nets env c.A >>> operand size nets env c.B) % 2 ^ c.Y.length) := by
  have ha := hA.lt size env
  have hb := hB.lt size env
  have ho := local_eval size env "_o" ⟨uint64, operand size nets env c.B⟩
  have hcount : run size (.set (.loc "_o") uint64 (.cast uint64 (sigExpr size nets c.B))) env =
      some (env.set (.loc "_o") ⟨uint64, operand size nets env c.B⟩) := by
    rw [run_set (v := ⟨uint64, operand size nets env c.B⟩), convert_u64 hb]
    rw [Expr.eval, hB.has henv, Option.map_some, convert_u64 hb]
  have hcast : (Expr.cast uint64 (sigExpr size nets c.A)).Has (Func.eval size)
      (env.set (.loc "_o") ⟨uint64, operand size nets env c.B⟩) uint64 (operand size nets env c.A) := by
    rw [Expr.Has, Expr.eval, (shift_operands hA hB henv _ _).1, Option.map_some, convert_u64 ha]
  have hlt : operand size nets env c.A >>> operand size nets env c.B < 2 ^ 64 :=
    Nat.lt_of_le_of_lt (Nat.shiftRight_le _ _) ha
  rw [emitUnsignedShift]
  refine Computes.after_loc hcount (Computes.before_skip ?_)
  rw [← ite_zero_mod]
  refine computes_masked y ?_ (by split_ifs <;> omega) hY
  exact carrier_has ho hb (fun h => hcast.shrBy ha ho (toInt_unsigned _ _) h) hlt

omit hA hB henv in
theorem shlOne_eval {k : Nat} (hk : k < 64) :
    (Expr.bin .shl (.lit ⟨int64, 1⟩) (intLitOf k)).eval (Func.eval size) env =
      if k < 63 then some (int64.ofInt (2 ^ k)) else none := by
  have hholds : int.Holds (k : Int) := ⟨rfl, by decide, by simp only; omega, by simp only; omega⟩
  have hone : (⟨int64, 1⟩ : Value).toInt = 1 := by decide
  rw [Expr.eval, Expr.eval, intLitOf, Expr.eval]
  simp only [Option.bind_some, BinOp.eval, shift, hholds.toInt_ofInt, hone, Int.toNat_natCast,
    one_mul]
  rw [if_pos ⟨Int.natCast_nonneg k, by omega⟩, if_pos trivial, if_pos trivial,
    if_neg (by decide)]
  by_cases h : k < 63
  · have hlt : (2 : Int) ^ k < 2 ^ 63 := pow_lt_pow_right₀ (by decide) h
    have hpos : (0 : Int) < 2 ^ k := by positivity
    rw [if_pos h, IntType.result, if_neg]
    simp only [true_and, not_not]
    omega
  · obtain rfl : k = 63 := by omega
    rfl

omit hA hB henv in
/-- The top bit of a number is set from the half of its range on. -/
theorem testBit_top {w n : Nat} (hw : 0 < w) (hn : n < 2 ^ w) :
    n.testBit (w - 1) = decide (2 ^ (w - 1) ≤ n) := by
  have hpow := two_pow_pred hw
  have hpos := Nat.two_pow_pos (w - 1)
  rw [Nat.testBit_eq_decide_div_mod_eq]
  by_cases h : 2 ^ (w - 1) ≤ n
  · rw [decide_eq_true h, Nat.div_eq_of_lt_le (k := 1) (by omega) (by omega)]
    rfl
  · rw [decide_eq_false h, Nat.div_eq_of_lt (by omega)]
    rfl

omit hA hB henv in
/-- The correction of a signed count of `bw` bits. -/
theorem signCount_run (size : LimbSize) (x : String) {bw b : Nat}
    (ho : env.scalar (.loc x) = ⟨int64, b⟩) (hpos : 0 < bw) (hbw : bw < 64) (hb : b < 2 ^ bw) :
    run size (.ite (.bin .and (local_ x) (.bin .shl (.lit ⟨int64, 1⟩) (intLitOf ((bw : Int) - 1))))
      (.set (.loc x) int64 (.bin .sub (local_ x) (.bin .shl (.lit ⟨int64, 1⟩) (intLitOf bw))))
      .skip) env =
    if bw = 63 ∧ 2 ^ 62 ≤ b then none
    else some (env.set (.loc x) (int64.ofInt (signedOf bw b))) := by
  have hlocal : (local_ x).eval (Func.eval size) env = some ⟨int64, b⟩ := by
    rw [local_, Expr.eval, ho]
  have hle : 2 ^ bw ≤ 2 ^ 63 := Nat.pow_le_pow_right (by decide) (by omega)
  have hpow := two_pow_pred hpos
  have hself : int64.ofInt b = ⟨int64, b⟩ := IntType.ofInt_small (by simp only; omega)
  have htop : int64.ofInt (2 ^ (bw - 1) : Nat) = ⟨int64, 2 ^ (bw - 1)⟩ :=
    IntType.ofInt_small (by simp only; omega)
  have hholds : int64.Holds (b : Int) := IntType.holds_natCast rfl (by decide) (by simp only; omega)
  have htopHolds : int64.Holds (2 ^ (bw - 1) : Nat) :=
    IntType.holds_natCast rfl (by decide) (by simp only; omega)
  have htest : (Expr.bin .and (local_ x)
      (.bin .shl (.lit ⟨int64, 1⟩) (intLitOf ((bw : Int) - 1)))).eval (Func.eval size) env =
      some ⟨int64, (b.testBit (bw - 1)).toNat * 2 ^ (bw - 1)⟩ := by
    rw [Expr.eval, hlocal, show (bw : Int) - 1 = ((bw - 1 : Nat) : Int) by omega,
      shlOne_eval (by omega), if_pos (by omega), Option.bind_some, Option.bind_some, ← hself,
      show (2 ^ (bw - 1) : Int) = ((2 ^ (bw - 1) : Nat) : Int) by push_cast; rfl,
      BinOp.eval_and_signed hholds htopHolds, hself, htop, ← Nat.and_two_pow]
  rw [run, Stmt.run, htest, Option.bind_some, testBit_top hpos hb]
  by_cases h : 2 ^ (bw - 1) ≤ b
  · have hset : (Expr.bin .sub (local_ x) (.bin .shl (.lit ⟨int64, 1⟩) (intLitOf bw))).eval
        (Func.eval size) env =
        if bw = 63 ∧ 2 ^ 62 ≤ b then none else some (int64.ofInt (signedOf bw b)) := by
      rw [Expr.eval, hlocal, shlOne_eval hbw, Option.bind_some]
      by_cases h63 : bw < 63
      · have hlt : 2 ^ bw < 2 ^ 63 := Nat.pow_lt_pow_right (by decide) h63
        have hsub : signedOf bw b = (b : Int) - (2 ^ bw : Nat) := by
          rw [signedOf, if_neg (by omega)]
          push_cast
          rfl
        have hpowHolds : int64.Holds (2 ^ bw : Nat) :=
          IntType.holds_natCast rfl (by decide) (by simp only; omega)
        rw [if_pos h63, Option.bind_some, if_neg (by omega), ← hself,
          show (2 ^ bw : Int) = ((2 ^ bw : Nat) : Int) by push_cast; rfl,
          BinOp.eval_sub_signed hholds hpowHolds, ← hsub]
        exact (int64_holds_signedOf hpos (by omega) hb).result
      · obtain rfl : bw = 63 := by omega
        rw [if_neg (by decide), Option.bind_none, if_pos ⟨rfl, h⟩]
    rw [decide_eq_true h, if_pos (by simp), Stmt.run, hset]
    split_ifs
    · rfl
    · rw [Option.map_some, (int64_holds_signedOf hpos (by omega) hb).convert_self]
  · have hsigned : signedOf bw b = b := if_pos (by omega)
    rw [decide_eq_false h, if_neg (by simp), if_neg, hsigned, hself, ← ho, env.set_scalar]
    · rfl
    · rintro ⟨rfl, hb'⟩
      exact h hb'

omit hA hB henv in
/-- The comparison of the signed count with a literal. -/
theorem signTest_eval (size : LimbSize) (y : String) (op : BinOp) {o x : Int} {e : CExpr}
    {r : Bool} {v : Value}
    (ho : env.scalar (.loc y) = int64.ofInt o) (hholds : int64.Holds o)
    (he : e.eval (Func.eval size) env = some v) (ht : v.type = int)
    (hv : (v.convert int64).toInt = x) (h : op.test o x = some r) :
    (Expr.bin op (local_ y) e).eval (Func.eval size) env = some (ofBool r) := by
  have hlocal : (local_ y).eval (Func.eval size) env = some (int64.ofInt o) := by
    rw [local_, Expr.eval, ho]
  rw [Expr.eval, hlocal, he, Option.bind_some, Option.bind_some]
  refine BinOp.eval_test (t := int64) ?_ ?_ hv h
  · rw [ht]
    rfl
  · rw [hholds.convert_self, hholds.toInt_ofInt]

omit hA hB henv in
/-- The shift of `a` by the signed count, which is 0 from the carrier's width on. -/
theorem signShift_has {o : Int} {a : CExpr} {n : Nat} (ho : env.scalar (.loc "_o") = int64.ofInt o)
    (hholds : int64.Holds o) (ha : a.Has (Func.eval size) env uint64 n) (hn : n < 2 ^ 64) :
    (Expr.cond uint64
      (.lor (.bin .le (local_ "_o") (.neg (intLit 64))) (.bin .ge (local_ "_o") (intLit 64)))
      (intLit 0)
      (.cond uint64 (.bin .ge (local_ "_o") (intLit 0)) (.bin .shr a (local_ "_o"))
        (.bin .shl a (.neg (local_ "_o"))))).Has (Func.eval size) env uint64
      (if o ≤ -64 ∨ 64 ≤ o then 0 else shiftBy n o % 2 ^ 64) := by
  have hlocal : (local_ "_o").eval (Func.eval size) env = some (int64.ofInt o) := by
    rw [local_, Expr.eval, ho]
  have hlow := signTest_eval size "_o" .le (e := .neg (intLit 64)) (x := -64)
    (r := decide (o ≤ -64)) (v := int.ofInt (-64)) ho hholds rfl rfl (by decide) rfl
  have hhigh := signTest_eval size "_o" .ge (e := intLit 64) (x := 64)
    (r := decide (64 ≤ o)) (v := ⟨int, 64⟩) ho hholds rfl rfl (by decide) rfl
  have hsign := signTest_eval size "_o" .ge (e := intLit 0) (x := 0)
    (r := decide (0 ≤ o)) (v := ⟨int, 0⟩) ho hholds rfl rfl (by decide) rfl
  have hguard : (Expr.lor (.bin .le (local_ "_o") (.neg (intLit 64)))
      (.bin .ge (local_ "_o") (intLit 64))).eval (Func.eval size) env =
      some (ofBool (decide (o ≤ -64 ∨ 64 ≤ o))) := by
    rw [Expr.eval, hlow, Option.bind_some]
    by_cases h : o ≤ -64
    · rw [decide_eq_true h, decide_eq_true (.inl h)]
      rfl
    · rw [decide_eq_false h, hhigh]
      by_cases h' : 64 ≤ o
      · rw [decide_eq_true h', decide_eq_true (.inr h')]
        rfl
      · rw [decide_eq_false h', decide_eq_false (by omega)]
        rfl
  rw [Expr.Has, Expr.eval, hguard, Option.bind_some]
  by_cases hout : o ≤ -64 ∨ 64 ≤ o
  · rw [decide_eq_true hout, if_pos hout]
    rfl
  · rw [decide_eq_false hout, if_neg (by decide), if_neg hout, Expr.eval, hsign, Option.bind_some,
      shiftBy]
    have hlt := Nat.mod_lt (shiftBy n o) (Nat.two_pow_pos 64)
    by_cases hpos : 0 ≤ o
    · have hsmall : n >>> o.toNat < 2 ^ 64 := Nat.lt_of_le_of_lt (Nat.shiftRight_le _ _) hn
      have hshr := ha.shrBy hn hlocal (k := o.toNat) (by rw [hholds.toInt_ofInt]; omega) (by omega)
      rw [decide_eq_true hpos, if_pos (by decide), if_pos hpos, hshr, Option.map_some,
        convert_u64 hsmall, Option.map_some, convert_u64 hsmall, Nat.mod_eq_of_lt hsmall]
    · have hneg : int64.Holds (-o) := ⟨rfl, by decide, by simp only; omega, by simp only; omega⟩
      have hcount : (Expr.neg (local_ "_o")).eval (Func.eval size) env = some (int64.ofInt (-o)) := by
        rw [Expr.eval, hlocal, Option.bind_some, hholds.toInt_ofInt]
        exact hneg.result
      have hshl := ha.shlBy hcount (k := (-o).toNat) (by rw [hneg.toInt_ofInt]; omega) (by omega)
      have hsmall := Nat.mod_lt (n <<< (-o).toNat) (Nat.two_pow_pos 64)
      rw [decide_eq_false hpos, if_neg (by decide), if_neg hpos, hshl, Option.map_some,
        convert_u64 hsmall, Option.map_some, convert_u64 hsmall]

omit hA in
/-- `_o` before its sign is taken into account. -/
theorem rawCount_run (hb : operand size nets env c.B < 2 ^ 63) :
    run size (.set (.loc "_o") int64 (.cast int64 (.cast uint64 (sigExpr size nets c.B)))) env =
      some (env.set (.loc "_o") ⟨int64, operand size nets env c.B⟩) := by
  have hb' := hB.lt size env
  have hholds : int64.Holds (operand size nets env c.B : Int) :=
    IntType.holds_natCast rfl (by decide) hb
  have hcast : (Expr.cast int64 (.cast uint64 (sigExpr size nets c.B))).eval (Func.eval size) env =
      some (int64.ofInt (operand size nets env c.B)) := by
    rw [Expr.eval, Expr.eval, hB.has henv, Option.map_some, convert_u64 hb', Option.map_some]
    rfl
  rw [run_set hcast, hholds.convert_self, IntType.ofInt_small hb']

/-- `$shift` and `$shiftx` with a signed count; the correction of a negative one of 63 bits
    overflows. -/
theorem emitSignedShift_run (hY : c.Y.length ≤ 64) (hpos : 0 < c.B.length) (hbw : c.B.length < 64) :
    if c.B.length = 63 ∧ 2 ^ 62 ≤ operand size nets env c.B then
      run size (emitSignedShift size nets c y) env = none
    else Computes size env (emitSignedShift size nets c y) y
      (if signedOf c.B.length (operand size nets env c.B) ≤ -64 ∨
          64 ≤ signedOf c.B.length (operand size nets env c.B) then 0
        else shiftBy (operand size nets env c.A)
          (signedOf c.B.length (operand size nets env c.B)) % 2 ^ c.Y.length) := by
  have ha := hA.lt size env
  have hb := operand_lt size nets env c.B
  have hb63 : operand size nets env c.B < 2 ^ 63 :=
    Nat.lt_of_lt_of_le hb (Nat.pow_le_pow_right (by decide) (by omega))
  have hraw := rawCount_run hB henv hb63
  have hsign := signCount_run size "_o" (env.scalar_set_self _ _) hpos hbw hb
  by_cases hsafe : c.B.length = 63 ∧ 2 ^ 62 ≤ operand size nets env c.B
  · rw [if_pos hsafe] at hsign ⊢
    rw [emitSignedShift, Stmt.block, run_seq, hraw, Option.bind_some, Stmt.block, run_seq, hsign,
      Option.bind_none]
  · rw [if_neg hsafe] at hsign
    rw [if_neg hsafe, emitSignedShift]
    have hholds := int64_holds_signedOf hpos (by omega : c.B.length ≤ 64) hb
    refine Computes.after_loc hraw (Computes.after_loc hsign (Computes.before_skip ?_))
    rw [env.set_set, ← mod_mod_two_pow hY, ← ite_zero_mod]
    have hcast : (Expr.cast uint64 (sigExpr size nets c.A)).Has (Func.eval size)
        (env.set (.loc "_o") (int64.ofInt (signedOf c.B.length (operand size nets env c.B)))) uint64
        (operand size nets env c.A) := by
      rw [Expr.Has, Expr.eval, (shift_operands hA hB henv _ _).1, Option.map_some, convert_u64 ha]
    exact computes_masked y (signShift_has (env.scalar_set_self _ _) hholds hcast ha)
      (by split_ifs <;> omega) hY

omit hA in
/-- A signed count without bits is undefined. -/
theorem emitSignedShift_none (hzero : c.B.length = 0) :
    run size (emitSignedShift size nets c y) env = none := by
  have hb := operand_lt size nets env c.B
  rw [hzero] at hb
  rw [emitSignedShift, Stmt.block, run_seq, rawCount_run hB henv (by omega), Option.bind_some,
    Stmt.block, run_seq, hzero]
  have hshift : (Expr.bin .and (local_ "_o")
      (.bin .shl (.lit ⟨int64, 1⟩) (intLitOf ((0 : Nat) - 1 : Int)))).eval (Func.eval size)
      (env.set (.loc "_o") ⟨int64, operand size nets env c.B⟩) = none := by
    rw [Expr.eval, local_eval]
    rfl
  rw [run, Stmt.run, hshift]
  rfl

end Values

end Yosys.Rtlil
