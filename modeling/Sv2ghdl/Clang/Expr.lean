import Mathlib.Data.Nat.Bitwise
import Mathlib.Tactic

/-!
# Integer expressions of C

Expressions and statements over scalar variables and arrays of unsigned words.  What the standard
leaves undefined (a shift count out of range, a signed overflow, an access outside an array) makes
an evaluation fail; what it leaves to the implementation is as in every compiler for
two's-complement machines: a conversion to a signed type wraps, `>>` of a negative number keeps its
sign.
-/

namespace Clang

/-! ## Values -/

structure IntType where
  bits : Nat
  signed : Bool
  deriving DecidableEq, Repr

abbrev unsigned (bits : Nat) : IntType := ⟨bits, false⟩
abbrev int : IntType := ⟨32, true⟩
abbrev int64 : IntType := ⟨64, true⟩
abbrev uint64 : IntType := unsigned 64

/-- The number whose two's complement in `bits` bits is `p`. -/
def signedOf (bits p : Nat) : Int := if p < 2 ^ (bits - 1) then p else (p : Int) - 2 ^ bits

/-- A value of an integer type, by its bits. -/
structure Value where
  type : IntType
  pattern : Nat
  deriving DecidableEq, Repr

def Value.toInt (v : Value) : Int :=
  if v.type.signed then signedOf v.type.bits v.pattern else v.pattern

/-- The value of type `t` that is congruent to `x`. -/
def IntType.ofInt (t : IntType) (x : Int) : Value := ⟨t, (x % 2 ^ t.bits).toNat⟩

def Value.convert (v : Value) (t : IntType) : Value := t.ofInt v.toInt

/-- The result `x` of an operation in the type `t`: a signed one must be in range. -/
def IntType.result (t : IntType) (x : Int) : Option Value :=
  if t.signed ∧ ¬ (-(2 ^ (t.bits - 1)) ≤ x ∧ x < 2 ^ (t.bits - 1)) then none else some (t.ofInt x)

/-- The usual arithmetic conversions, for types at least as wide as `int`. -/
def common (s t : IntType) : IntType :=
  if s.bits = t.bits then ⟨s.bits, s.signed && t.signed⟩ else if s.bits < t.bits then t else s

def ofBool (b : Bool) : Value := ⟨int, b.toNat⟩

inductive BinOp where
  | add | sub | mul | div | mod | and | or | xor | shl | shr | eq | ne | lt | le | gt | ge
  deriving DecidableEq, Repr

/-- `a << n` or `a >> n`, where `n` must be a count below the width of `a`. -/
def shift (left : Bool) (a n : Value) : Option Value :=
  let count := n.toInt
  if 0 ≤ count ∧ count < a.type.bits then
    if left then
      if a.type.signed then
        if a.toInt < 0 then none else a.type.result (a.toInt * 2 ^ count.toNat)
      else some ⟨a.type, (a.pattern <<< count.toNat) % 2 ^ a.type.bits⟩
    else some (a.type.ofInt (a.toInt / 2 ^ count.toNat))
  else none

def BinOp.eval (op : BinOp) (a b : Value) : Option Value :=
  let t := common a.type b.type
  let x := a.convert t
  let y := b.convert t
  match op with
  | .add => t.result (x.toInt + y.toInt)
  | .sub => t.result (x.toInt - y.toInt)
  | .mul => t.result (x.toInt * y.toInt)
  | .div => if y.toInt = 0 then none else t.result (x.toInt.tdiv y.toInt)
  -- `x % y` is defined where `x / y` is
  | .mod =>
    if y.toInt = 0 then none
    else (t.result (x.toInt.tdiv y.toInt)).map fun _ => t.ofInt (x.toInt.tmod y.toInt)
  | .and => some ⟨t, x.pattern &&& y.pattern⟩
  | .or => some ⟨t, x.pattern ||| y.pattern⟩
  | .xor => some ⟨t, x.pattern ^^^ y.pattern⟩
  | .shl => shift true a b
  | .shr => shift false a b
  | .eq => some (ofBool (x.toInt = y.toInt))
  | .ne => some (ofBool (x.toInt ≠ y.toInt))
  | .lt => some (ofBool (x.toInt < y.toInt))
  | .le => some (ofBool (x.toInt ≤ y.toInt))
  | .gt => some (ofBool (y.toInt < x.toInt))
  | .ge => some (ofBool (y.toInt ≤ x.toInt))

/-! ## Expressions -/

/-- Expressions over the variables `ν`, with calls `κ` of functions that change nothing.  The type
    of a conditional, common to its branches, is written with it. -/
inductive Expr (ν κ : Type) where
  | lit (v : Value)
  | var (x : ν)
  | item (t : IntType) (a : ν) (i : Nat)
  | cast (t : IntType) (e : Expr ν κ)
  | not (e : Expr ν κ)
  | neg (e : Expr ν κ)
  | bin (op : BinOp) (a b : Expr ν κ)
  | land (a b : Expr ν κ)
  | lor (a b : Expr ν κ)
  | cond (t : IntType) (c a b : Expr ν κ)
  | call (f : κ)

/-- The values of the scalars, the words of the arrays, and the words an array declared without an
    initializer is found with. -/
structure Env (ν : Type) where
  scalar : ν → Value
  array : ν → List Nat
  garbage : Nat → Nat

section Eval

variable {ν κ π : Type}

section Expressions

-- what the functions that are called return
variable (fn : κ → Env ν → Option Value)

def Expr.eval (env : Env ν) : Expr ν κ → Option Value
  | .lit v => some v
  | .var x => some (env.scalar x)
  | .item t a i => (env.array a)[i]?.map fun x => ⟨t, x⟩
  | .cast t e => (e.eval env).map fun v => v.convert t
  | .not e => (e.eval env).map fun v => ⟨v.type, 2 ^ v.type.bits - 1 - v.pattern⟩
  | .neg e => (e.eval env).bind fun v => v.type.result (-v.toInt)
  | .bin op a b => (a.eval env).bind fun x => (b.eval env).bind fun y => op.eval x y
  | .land a b =>
    (a.eval env).bind fun x =>
      if x.pattern = 0 then some (ofBool false)
      else (b.eval env).map fun y => ofBool (y.pattern ≠ 0)
  | .lor a b =>
    (a.eval env).bind fun x =>
      if x.pattern ≠ 0 then some (ofBool true)
      else (b.eval env).map fun y => ofBool (y.pattern ≠ 0)
  | .cond t c a b =>
    (c.eval env).bind fun x =>
      (if x.pattern ≠ 0 then a.eval env else b.eval env).map fun v => v.convert t
  | .call f => fn f env

end Expressions

/-! ## Statements -/

/-- `set x t e` assigns to a scalar of type `t`, with or without its declaration. -/
inductive Stmt (ν κ π : Type) where
  | skip
  | seq (s t : Stmt ν κ π)
  | set (x : ν) (t : IntType) (e : Expr ν κ)
  | setItem (t : IntType) (a : ν) (i : Nat) (e : Expr ν κ)
  | declare (t : IntType) (a : ν) (n : Nat)
  | ite (c : Expr ν κ) (s t : Stmt ν κ π)
  | call (p : π)

section Statements

variable [DecidableEq ν] (fn : κ → Env ν → Option Value) (pr : π → Env ν → Option (Env ν))

def Stmt.block : List (Stmt ν κ π) → Stmt ν κ π
  | [] => .skip
  | s :: ss => .seq s (block ss)

def Env.set (env : Env ν) (x : ν) (v : Value) : Env ν :=
  { env with scalar := fun y => if y = x then v else env.scalar y }

def Env.setArray (env : Env ν) (a : ν) (xs : List Nat) : Env ν :=
  { env with array := fun b => if b = a then xs else env.array b }

@[simp] theorem Env.scalar_set_self (env : Env ν) (x : ν) (v : Value) :
    (env.set x v).scalar x = v := if_pos rfl

theorem Env.scalar_set_ne (env : Env ν) {x y : ν} (h : y ≠ x) (v : Value) :
    (env.set x v).scalar y = env.scalar y := if_neg h

theorem Env.set_set (env : Env ν) (x : ν) (u v : Value) : (env.set x u).set x v = env.set x v := by
  rw [set, set, set]
  congr 1
  funext y
  by_cases hy : y = x
  · simp only [if_pos hy]
  · simp only [if_neg hy]

theorem Env.set_scalar (env : Env ν) (x : ν) : env.set x (env.scalar x) = env := by
  rw [set]
  congr 1
  funext y
  by_cases hy : y = x
  · rw [if_pos hy, hy]
  · rw [if_neg hy]

@[simp] theorem Env.array_setArray_self (env : Env ν) (a : ν) (xs : List Nat) :
    (env.setArray a xs).array a = xs := if_pos rfl

theorem Env.array_setArray_ne (env : Env ν) {a b : ν} (h : b ≠ a) (xs : List Nat) :
    (env.setArray a xs).array b = env.array b := if_neg h

def Stmt.run (env : Env ν) : Stmt ν κ π → Option (Env ν)
  | .skip => some env
  | .seq s t => (s.run env).bind fun env => t.run env
  | .set x t e => (e.eval fn env).map fun v => env.set x (v.convert t)
  | .setItem t a i e =>
    (e.eval fn env).bind fun v =>
      if i < (env.array a).length then
        some (env.setArray a ((env.array a).set i (v.convert t).pattern))
      else none
  | .declare t a n =>
    some (env.setArray a ((List.range n).map fun i => env.garbage i % 2 ^ t.bits))
  | .ite c s t => (c.eval fn env).bind fun x => if x.pattern ≠ 0 then s.run env else t.run env
  | .call p => pr p env

end Statements

-- The lemmas below are checked side by side and all unfold these two, whose equations are derived
-- once here.
attribute [local simp] BinOp.eval Expr.eval

end Eval

/-! ## Unsigned operands -/

section Unsigned

variable {ν κ : Type} {fn : κ → Env ν → Option Value} {env : Env ν} {bits : Nat} {e f : Expr ν κ} {m n : Nat}

theorem toInt_unsigned (bits n : Nat) : (⟨unsigned bits, n⟩ : Value).toInt = n := rfl

theorem ofInt_natCast (t : IntType) (n : Nat) : t.ofInt n = ⟨t, n % 2 ^ t.bits⟩ := by
  have hcast : ((n : Int) % 2 ^ t.bits).toNat = n % 2 ^ t.bits := by
    rw [show (2 ^ t.bits : Int) = ((2 ^ t.bits : Nat) : Int) by push_cast; rfl,
      ← Int.natCast_emod, Int.toNat_natCast]
  rw [IntType.ofInt, hcast]

theorem convert_unsigned (bits : Nat) (t : IntType) (n : Nat) :
    (⟨unsigned bits, n⟩ : Value).convert t = ⟨t, n % 2 ^ t.bits⟩ := by
  rw [Value.convert, toInt_unsigned, ofInt_natCast]

theorem convert_self (h : n < 2 ^ bits) :
    (⟨unsigned bits, n⟩ : Value).convert (unsigned bits) = ⟨unsigned bits, n⟩ := by
  rw [convert_unsigned, Nat.mod_eq_of_lt h]

theorem toInt_signed {t : IntType} (h : n < 2 ^ (t.bits - 1)) : (⟨t, n⟩ : Value).toInt = n := by
  rw [Value.toInt]
  split_ifs
  · exact if_pos h
  · rfl

/-- A small literal of a signed type. -/
theorem convert_small {t : IntType} (h : n < 2 ^ (t.bits - 1)) (s : IntType) :
    (⟨t, n⟩ : Value).convert s = ⟨s, n % 2 ^ s.bits⟩ := by
  rw [Value.convert, toInt_signed h, ofInt_natCast]

@[simp] theorem common_self (t : IntType) : common t t = t := by
  obtain ⟨bits, isSigned⟩ := t
  simp [common]

theorem result_unsigned (bits : Nat) (x : Int) :
    (unsigned bits).result x = some ((unsigned bits).ofInt x) := by
  rw [IntType.result, if_neg (by simp)]

/-- `e` has the value `n` of the type `t`. -/
def Expr.Has (fn : κ → Env ν → Option Value) (env : Env ν) (e : Expr ν κ) (t : IntType) (n : Nat) : Prop :=
  e.eval fn env = some ⟨t, n⟩

theorem Expr.Has.and (he : e.Has fn env (unsigned bits) m) (hf : f.Has fn env (unsigned bits) n)
    (hm : m < 2 ^ bits) (hn : n < 2 ^ bits) :
    (Expr.bin .and e f).Has fn env (unsigned bits) (m &&& n) := by
  rw [Has, eval, he, hf]
  simp only [Option.bind_some, BinOp.eval, common_self, convert_self hm, convert_self hn]

theorem Expr.Has.or (he : e.Has fn env (unsigned bits) m) (hf : f.Has fn env (unsigned bits) n)
    (hm : m < 2 ^ bits) (hn : n < 2 ^ bits) :
    (Expr.bin .or e f).Has fn env (unsigned bits) (m ||| n) := by
  rw [Has, eval, he, hf]
  simp only [Option.bind_some, BinOp.eval, common_self, convert_self hm, convert_self hn]

theorem Expr.Has.xor (he : e.Has fn env (unsigned bits) m) (hf : f.Has fn env (unsigned bits) n)
    (hm : m < 2 ^ bits) (hn : n < 2 ^ bits) :
    (Expr.bin .xor e f).Has fn env (unsigned bits) (m ^^^ n) := by
  rw [Has, eval, he, hf]
  simp only [Option.bind_some, BinOp.eval, common_self, convert_self hm, convert_self hn]

theorem Expr.Has.add (he : e.Has fn env (unsigned bits) m) (hf : f.Has fn env (unsigned bits) n)
    (hm : m < 2 ^ bits) (hn : n < 2 ^ bits) :
    (Expr.bin .add e f).Has fn env (unsigned bits) ((m + n) % 2 ^ bits) := by
  rw [Has, eval, he, hf]
  simp only [Option.bind_some, BinOp.eval, common_self, convert_self hm, convert_self hn,
    toInt_unsigned, result_unsigned]
  rw [← Nat.cast_add, ofInt_natCast]

theorem Expr.Has.mul (he : e.Has fn env (unsigned bits) m) (hf : f.Has fn env (unsigned bits) n)
    (hm : m < 2 ^ bits) (hn : n < 2 ^ bits) :
    (Expr.bin .mul e f).Has fn env (unsigned bits) (m * n % 2 ^ bits) := by
  rw [Has, eval, he, hf]
  simp only [Option.bind_some, BinOp.eval, common_self, convert_self hm, convert_self hn,
    toInt_unsigned, result_unsigned]
  rw [← Nat.cast_mul, ofInt_natCast]

theorem Expr.Has.sub (he : e.Has fn env (unsigned bits) m) (hf : f.Has fn env (unsigned bits) n)
    (hm : m < 2 ^ bits) (hn : n < 2 ^ bits) :
    (Expr.bin .sub e f).Has fn env (unsigned bits) (((m : Int) - n) % 2 ^ bits).toNat := by
  rw [Has, eval, he, hf]
  simp only [Option.bind_some, BinOp.eval, common_self, convert_self hm, convert_self hn,
    toInt_unsigned, result_unsigned]
  rfl

theorem Expr.Has.not (he : e.Has fn env (unsigned bits) m) :
    (Expr.not e).Has fn env (unsigned bits) (2 ^ bits - 1 - m) := by
  rw [Has, eval, he, Option.map_some]

/-- The comparisons, as relations of numbers. -/
def BinOp.test : BinOp → Int → Int → Option Bool
  | .eq, x, y => some (x = y)
  | .ne, x, y => some (x ≠ y)
  | .lt, x, y => some (x < y)
  | .le, x, y => some (x ≤ y)
  | .gt, x, y => some (y < x)
  | .ge, x, y => some (y ≤ x)
  | _, _, _ => none

theorem BinOp.eval_test {op : BinOp} {v u : Value} {t : IntType} {x y : Int} {r : Bool}
    (ht : common v.type u.type = t) (hv : (v.convert t).toInt = x) (hu : (u.convert t).toInt = y)
    (h : op.test x y = some r) : op.eval v u = some (ofBool r) := by
  cases op <;> simp only [test, Option.some.injEq, reduceCtorEq] at h
  all_goals rw [BinOp.eval, ht, hv, hu, ← h]

/-- A comparison of two unsigned operands. -/
theorem Expr.Has.test {op : BinOp} {r : Bool} (he : e.Has fn env (unsigned bits) m)
    (hf : f.Has fn env (unsigned bits) n) (hm : m < 2 ^ bits) (hn : n < 2 ^ bits)
    (h : op.test m n = some r) : (Expr.bin op e f).Has fn env int r.toNat := by
  rw [Has, eval, he, hf]
  exact BinOp.eval_test (common_self _) (by rw [convert_self hm, toInt_unsigned])
    (by rw [convert_self hn, toInt_unsigned]) h

/-- A comparison of a `uint64_t` operand with a literal. -/
theorem Expr.Has.testLit {op : BinOp} {r : Bool} (he : e.Has fn env uint64 m) (hm : m < 2 ^ 64)
    (hn : n < 2 ^ 31) (h : op.test m n = some r) :
    (Expr.bin op e (.lit ⟨int, n⟩)).Has fn env int r.toNat := by
  have hlt : n < 2 ^ 64 := by omega
  rw [Has, eval, he]
  refine BinOp.eval_test (t := uint64) rfl (by rw [convert_self hm, toInt_unsigned]) ?_ h
  rw [convert_small hn, Nat.mod_eq_of_lt hlt, toInt_unsigned]

/-- `e << f`, where the count is in range. -/
theorem Expr.Has.shlBy (he : e.Has fn env (unsigned bits) m) {v : Value} {k : Nat}
    (hf : f.eval fn env = some v) (hv : v.toInt = k) (hk : k < bits) :
    (Expr.bin .shl e f).Has fn env (unsigned bits) ((m <<< k) % 2 ^ bits) := by
  rw [Has, eval, he, hf]
  simp only [Option.bind_some, BinOp.eval, shift, hv]
  rw [if_pos ⟨Int.natCast_nonneg k, Int.ofNat_lt.mpr hk⟩, Int.toNat_natCast]
  rfl

/-- `e >> f`, where the count is in range. -/
theorem Expr.Has.shrBy (he : e.Has fn env (unsigned bits) m) (hm : m < 2 ^ bits) {v : Value} {k : Nat}
    (hf : f.eval fn env = some v) (hv : v.toInt = k) (hk : k < bits) :
    (Expr.bin .shr e f).Has fn env (unsigned bits) (m >>> k) := by
  have hlt : m >>> k < 2 ^ bits := Nat.lt_of_le_of_lt (Nat.shiftRight_le _ _) hm
  have hdiv : (m : Int) / 2 ^ k = ((m >>> k : Nat) : Int) := by
    rw [Nat.shiftRight_eq_div_pow]
    push_cast
    rfl
  rw [Has, eval, he, hf]
  simp only [Option.bind_some, BinOp.eval, shift, hv, toInt_unsigned]
  rw [if_pos ⟨Int.natCast_nonneg k, Int.ofNat_lt.mpr hk⟩, Int.toNat_natCast, hdiv, ofInt_natCast,
    if_neg Bool.false_ne_true, Nat.mod_eq_of_lt hlt]

/-- `e << k` with a literal count. -/
theorem Expr.Has.shl (he : e.Has fn env (unsigned bits) m) {k : Nat} (hk : k < bits)
    (hk31 : k < 2 ^ 31) :
    (Expr.bin .shl e (.lit ⟨int, k⟩)).Has fn env (unsigned bits) ((m <<< k) % 2 ^ bits) :=
  he.shlBy rfl (toInt_signed hk31) hk

/-- `e >> k` with a literal count. -/
theorem Expr.Has.shr (he : e.Has fn env (unsigned bits) m) (hm : m < 2 ^ bits) {k : Nat}
    (hk : k < bits) (hk31 : k < 2 ^ 31) :
    (Expr.bin .shr e (.lit ⟨int, k⟩)).Has fn env (unsigned bits) (m >>> k) :=
  he.shrBy hm rfl (toInt_signed hk31) hk

end Unsigned

/-! ## Signed numbers -/

section Signed

variable {w p : Nat} {x : Int}

theorem two_pow_pred (hw : 0 < w) : 2 ^ w = 2 * 2 ^ (w - 1) := by
  rw [← pow_succ', Nat.sub_add_cancel hw]

theorem signedOf_bounds (hw : 0 < w) (hp : p < 2 ^ w) :
    -(2 ^ (w - 1) : Int) ≤ signedOf w p ∧ signedOf w p < 2 ^ (w - 1) := by
  have hpow := two_pow_pred hw
  have hcast : ((2 ^ w : Nat) : Int) = 2 ^ w := by push_cast; rfl
  have hcast' : ((2 ^ (w - 1) : Nat) : Int) = 2 ^ (w - 1) := by push_cast; rfl
  rw [signedOf, ← hcast, ← hcast']
  split_ifs <;> omega

theorem signedOf_emod (hp : p < 2 ^ w) : signedOf w p % 2 ^ w = p := by
  have hcast : ((2 ^ w : Nat) : Int) = 2 ^ w := by push_cast; rfl
  rw [signedOf, ← hcast]
  split_ifs
  · exact Int.emod_eq_of_lt (Int.natCast_nonneg p) (Int.ofNat_lt.mpr hp)
  · rw [Int.sub_emod_right]
    exact Int.emod_eq_of_lt (Int.natCast_nonneg p) (Int.ofNat_lt.mpr hp)

/-- `p << k`, in `w + k` bits, is `2 ^ k` times the number. -/
theorem signedOf_mul (hw : 0 < w) (k : Nat) : signedOf (w + k) (p * 2 ^ k) = signedOf w p * 2 ^ k := by
  have hlt : p * 2 ^ k < 2 ^ (w + k - 1) ↔ p < 2 ^ (w - 1) := by
    rw [show w + k - 1 = w - 1 + k by omega, pow_add]
    exact Nat.mul_lt_mul_right (Nat.two_pow_pos k)
  rw [signedOf, signedOf]
  by_cases h : p < 2 ^ (w - 1)
  · rw [if_pos h, if_pos (hlt.mpr h)]
    push_cast
    rfl
  · rw [if_neg h, if_neg fun h' => h (hlt.mp h')]
    push_cast
    ring

theorem signedOf_toNat (hw : 0 < w) (hlow : -(2 ^ (w - 1) : Int) ≤ x) (hhigh : x < 2 ^ (w - 1)) :
    signedOf w (x % 2 ^ w).toNat = x := by
  have hpow := two_pow_pred hw
  have hcast : ((2 ^ w : Nat) : Int) = 2 ^ w := by push_cast; rfl
  have hcast' : ((2 ^ (w - 1) : Nat) : Int) = 2 ^ (w - 1) := by push_cast; rfl
  rw [← hcast'] at hlow hhigh
  rw [signedOf, ← hcast]
  by_cases hx : 0 ≤ x
  · have hmod : x % ((2 ^ w : Nat) : Int) = x := Int.emod_eq_of_lt hx (by omega)
    rw [hmod, if_pos (by omega)]
    omega
  · have hmod : x % ((2 ^ w : Nat) : Int) = x + (2 ^ w : Nat) := by
      rw [← Int.add_emod_right]
      exact Int.emod_eq_of_lt (by omega) (by omega)
    rw [hmod, if_neg (by omega)]
    omega

/-- A number that a signed type holds. -/
def IntType.Holds (t : IntType) (x : Int) : Prop :=
  t.signed = true ∧ 0 < t.bits ∧ -(2 ^ (t.bits - 1) : Int) ≤ x ∧ x < 2 ^ (t.bits - 1)

theorem IntType.Holds.toInt_ofInt {t : IntType} (h : t.Holds x) : (t.ofInt x).toInt = x := by
  obtain ⟨hsigned, hbits, hlow, hhigh⟩ := h
  rw [Value.toInt, ofInt, hsigned, if_pos rfl]
  exact signedOf_toNat hbits hlow hhigh

theorem IntType.Holds.convert_self {t : IntType} (h : t.Holds x) :
    (t.ofInt x).convert t = t.ofInt x := by
  rw [Value.convert, h.toInt_ofInt]

theorem IntType.Holds.result {t : IntType} (h : t.Holds x) : t.result x = some (t.ofInt x) := by
  rw [IntType.result, if_neg fun hout => hout.2 ⟨h.2.2.1, h.2.2.2⟩]

/-- A signed number read as an unsigned one. -/
theorem IntType.Holds.convert_unsigned {t : IntType} (h : t.Holds x) (bits : Nat) :
    (t.ofInt x).convert (unsigned bits) = ⟨unsigned bits, (x % 2 ^ bits).toNat⟩ := by
  rw [Value.convert, h.toInt_ofInt, ofInt]

theorem BinOp.eval_and_signed {t : IntType} {y : Int} (hx : t.Holds x) (hy : t.Holds y) :
    BinOp.and.eval (t.ofInt x) (t.ofInt y) =
      some ⟨t, (t.ofInt x).pattern &&& (t.ofInt y).pattern⟩ := by
  have htype : ∀ z, (t.ofInt z).type = t := fun _ => rfl
  simp only [eval, htype, common_self]
  rw [hx.convert_self, hy.convert_self]

theorem BinOp.eval_sub_signed {t : IntType} {y : Int} (hx : t.Holds x) (hy : t.Holds y) :
    BinOp.sub.eval (t.ofInt x) (t.ofInt y) = t.result (x - y) := by
  have htype : ∀ z, (t.ofInt z).type = t := fun _ => rfl
  simp only [eval, htype, common_self]
  rw [hx.convert_self, hy.convert_self, hx.toInt_ofInt, hy.toInt_ofInt]

/-- A number below half the range of a signed type. -/
theorem IntType.holds_natCast {t : IntType} (ht : t.signed = true) (hbits : 0 < t.bits) {n : Nat}
    (hn : n < 2 ^ (t.bits - 1)) : t.Holds n := by
  have hcast : (2 ^ (t.bits - 1) : Int) = ((2 ^ (t.bits - 1) : Nat) : Int) := by push_cast; rfl
  refine ⟨ht, hbits, ?_, ?_⟩ <;> omega

theorem IntType.ofInt_small {t : IntType} {n : Nat} (hn : n < 2 ^ t.bits) :
    t.ofInt n = ⟨t, n⟩ := by
  rw [ofInt_natCast, Nat.mod_eq_of_lt hn]

theorem IntType.Holds.ediv {t : IntType} (h : t.Holds x) (k : Nat) : t.Holds (x / 2 ^ k) := by
  obtain ⟨hsigned, hbits, hlow, hhigh⟩ := h
  have hpos : (0 : Int) < 2 ^ k := by positivity
  have hge : (1 : Int) ≤ 2 ^ k := hpos
  have hbound : (0 : Int) < 2 ^ (t.bits - 1) := by positivity
  refine ⟨hsigned, hbits, Int.le_ediv_of_mul_le hpos ?_, Int.ediv_lt_of_lt_mul hpos ?_⟩
  · calc -(2 ^ (t.bits - 1)) * 2 ^ k ≤ -(2 ^ (t.bits - 1) : Int) := by nlinarith
      _ ≤ x := hlow
  · calc x < 2 ^ (t.bits - 1) := hhigh
      _ ≤ 2 ^ (t.bits - 1) * 2 ^ k := by nlinarith

/-- `e >> f` of a signed number, where the count is in range. -/
theorem eval_shr_signed {ν κ : Type} {fn : κ → Env ν → Option Value} {env : Env ν} {e f : Expr ν κ}
    {t : IntType} (h : t.Holds x) (he : e.eval fn env = some (t.ofInt x)) {v : Value} {k : Nat}
    (hf : f.eval fn env = some v) (hv : v.toInt = k) (hk : k < t.bits) :
    (Expr.bin .shr e f).eval fn env = some (t.ofInt (x / 2 ^ k)) := by
  have htype : (t.ofInt x).type = t := rfl
  rw [Expr.eval, he, hf]
  simp only [Option.bind_some, BinOp.eval, shift, hv, h.toInt_ofInt, htype]
  rw [if_pos ⟨Int.natCast_nonneg k, Int.ofNat_lt.mpr hk⟩, Int.toNat_natCast,
    if_neg Bool.false_ne_true]

theorem int64_holds_signedOf (hw : 0 < w) (hw64 : w ≤ 64) (hp : p < 2 ^ w) :
    int64.Holds (signedOf w p) := by
  obtain ⟨hlow, hhigh⟩ := signedOf_bounds hw hp
  have hpow : (2 : Int) ^ (w - 1) ≤ 2 ^ 63 := pow_le_pow_right₀ (by decide) (by omega)
  exact ⟨rfl, by decide, by simp only; omega, by simp only; omega⟩

end Signed

end Clang
