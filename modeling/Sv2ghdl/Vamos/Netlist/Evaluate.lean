import Sv2ghdl.Python.FloatArith
import Sv2ghdl.Vamos.Netlist.ExprText
import Sv2ghdl.Vamos.Netlist.ExprTree

/-!
# Evaluation

`evaluate` of `vamos/netlist/expr.py`: HSPICE's value of a constant expression, with Spectre's domain
rules in its dialects.  The depth limit of the interpreter's stack is not modelled.
-/

open Python

namespace Vamos.Netlist.Expression

/-! ## Built-in functions -/

/-- The names of `FUNCS` and, the last three, of `EXTRA_FUNCS`. -/
inductive Builtin where
  | sin | cos | tan | asin | acos | atan | sinh | cosh | tanh | asinh | acosh | atanh
  | exp | abs | sqrt | log | ln | log10 | db | int | trunc | nint | floor | ceil | sgn | sign
  | pow | pwr | atan2 | min | max | dmin | dmax | cond | limit | agauss | gauss | aunif | unif
  | cpow | hypot | fmod
  deriving DecidableEq, Repr

def builtins : List (Str × Builtin) :=
  [(str "sin", .sin), (str "cos", .cos), (str "tan", .tan), (str "asin", .asin),
    (str "acos", .acos), (str "atan", .atan), (str "sinh", .sinh), (str "cosh", .cosh),
    (str "tanh", .tanh), (str "asinh", .asinh), (str "acosh", .acosh), (str "atanh", .atanh),
    (str "exp", .exp), (str "abs", .abs), (str "sqrt", .sqrt), (str "log", .log), (str "ln", .ln),
    (str "log10", .log10), (str "db", .db), (str "int", .int), (str "trunc", .trunc),
    (str "nint", .nint), (str "floor", .floor), (str "ceil", .ceil), (str "sgn", .sgn),
    (str "sign", .sign), (str "pow", .pow), (str "pwr", .pwr), (str "atan2", .atan2),
    (str "min", .min), (str "max", .max), (str "dmin", .dmin), (str "dmax", .dmax),
    (str "if", .cond), (str "limit", .limit), (str "agauss", .agauss), (str "gauss", .gauss),
    (str "aunif", .aunif), (str "unif", .unif), (str "cpow", .cpow), (str "hypot", .hypot),
    (str "fmod", .fmod)]

def Builtin.ofName (func : Str) : Option Builtin := builtins.lookup func

/-- The least and the greatest number of arguments. -/
def Builtin.arity : Builtin → Nat × Option Nat
  | .sign => (1, some 2)
  | .pow | .pwr | .atan2 | .cpow | .hypot | .fmod => (2, some 2)
  | .min | .max | .dmin | .dmax => (2, none)
  | .cond => (3, some 3)
  | .limit | .aunif | .unif => (2, some 3)
  | .agauss | .gauss => (3, some 4)
  | _ => (1, some 1)

def Builtin.takes (f : Builtin) (n : Nat) : Bool :=
  f.arity.1 ≤ n && (f.arity.2.map fun most => decide (n ≤ most)).getD true

variable (U : UnicodeData) (M : Libm)

/-! ## Errors -/

/-- The `EvalError`s, each with the text its message quotes. -/
inductive EvalError where
  | notFinite (text : Str)
  | notAConstant (name : Str)
  | unknownParameter (name : Str)
  | notANumber (text : Str)
  | notHspice (op text : Str)
  | divisionByZero (text : Str)
  | zeroToANegativePower (text : Str)
  | nonIntegerExponent (text : Str)
  | fmodByZero (text : Str)
  | noWidth (text : Str)
  | nonInteger (text : Str)
  | shiftTooLarge (text : Str)
  | needsSolution (text : Str)
  | unknownFunction (func : Str)
  | arity (func : Str) (bounds : Nat × Option Nat) (got : Nat) (text : Str)
  | domain (func text : Str)
  | logarithmOfZero (text : Str)
  | math (text : Str) (exc : MathError)
  deriving DecidableEq, Repr

/-- What evaluation raises: its `EvalError`, or the `KeyError` of building the message. -/
inductive Raised where
  | evalError (e : EvalError)
  | keyError
  deriving DecidableEq, Repr

abbrev Result := Except Raised Float

/-- `raise EvalError(...)` with a message that quotes `to_text(e)`. -/
def quote (e : Expr) (message : Str → EvalError) : Raised :=
  match toText e .hspice with
  | some text => .evalError (message text)
  | none => .keyError

/-- The value of a primitive, or the message to raise with the text of the expression. -/
abbrev Value := Except (Str → EvalError) Float

/-- A primitive called for the expression `e`. -/
def quoted (e : Expr) : Value → Result
  | .ok x => .ok x
  | .error message => .error (quote e message)

/-- A call into `math` inside a `try` that turns its exceptions into an `EvalError`. -/
def guarded : Except MathError Float → Value
  | .ok x => .ok x
  | .error exc => .error (.math · exc)

/-! ## The primitives -/

def truth (b : Bool) : Float := if b then 1 else 0

/-- `_sgn` -/
def sgn (x : Float) : Float := if 0 < x then 1 else if x < 0 then -1 else 0

/-- `_trunc` -/
def trunc (x : Float) : Float := floatOfInt (truncInt x)

/-- `_nint` -/
def nint (x : Float) : Float :=
  if 0 ≤ x then floatOfInt (floorInt (x + 0.5)) else -floatOfInt (floorInt (-x + 0.5))

def hspicePower (x y : Float) : Except MathError Float :=
  if 0 < x then M.pow x y
  else if x < 0 then M.pow x (trunc y)
  else .ok 0

/-- `_TWO53` -/
def two53 : Float := 9007199254740992

/-- `v == math.floor(v) and 0 <= v < _TWO53` -/
def isBits (v : Float) : Bool := v == floatOfInt (floorInt v) && 0 ≤ v && v < two53

/-- `_bitwise` -/
def bitwise (op : BinaryOp) (x y : Float) : Value :=
  if op = .xnor then .error .noWidth
  else if !(isBits x && isBits y) then .error .nonInteger
  else
    let xi := (floorInt x).toNat
    let yi := (floorInt y).toNat
    match op with
    | .bitAnd => .ok (floatOfInt (xi &&& yi : Nat))
    | .bitOr => .ok (floatOfInt (xi ||| yi : Nat))
    | .shiftRight => .ok (if yi < 64 then floatOfInt (xi >>> yi : Nat) else 0)
    | _ =>
      if yi ≥ 64 ∨ xi <<< yi ≥ 2 ^ 53 then .error .shiftTooLarge
      else .ok (floatOfInt (xi <<< yi : Nat))

/-- Whether a function is one of `EXTRA_FUNCS`. -/
def Builtin.isExtra : Builtin → Bool
  | .cpow | .hypot | .fmod => true
  | _ => false

/-- `_apply_extra` -/
def applyExtra (f : Builtin) (a : List Float) : Value :=
  match f, a with
  | .cpow, [x, y] =>
    if x == 0 && y < 0 then .error .zeroToANegativePower
    else
      match M.pow x y with
      | .error .domain => .error .nonIntegerExponent
      | r => guarded r
  | .hypot, [x, y] => guarded (M.hypot x y)
  | .fmod, [x, y] => if y == 0 then .error .fmodByZero else guarded (M.fmod x y)
  | _, _ => .error fun _ => .unknownFunction [] -- refused by `check_arity` before

/-- `_signed_log` -/
def signedLog (f : Float → Except MathError Float) (x : Float) : Value :=
  if x == 0 then .error .logarithmOfZero
  else guarded ((f x.abs).map (sgn x * ·))

/-- `min(a)` -/
def minOf : List Float → Float
  | [] => 0
  | x :: xs => xs.foldl (fun m y => if y < m then y else m) x

/-- `max(a)` -/
def maxOf : List Float → Float
  | [] => 0
  | x :: xs => xs.foldl (fun m y => if m < y then y else m) x

/-- `_apply` -/
def apply (f : Builtin) (a : List Float) : Value :=
  match f, a with
  | .sin, [x] => guarded (M.sin x)
  | .cos, [x] => guarded (M.cos x)
  | .tan, [x] => guarded (M.tan x)
  | .asin, [x] => guarded (M.asin x)
  | .acos, [x] => guarded (M.acos x)
  | .atan, [x] => guarded (M.atan x)
  | .sinh, [x] => guarded (M.sinh x)
  | .cosh, [x] => guarded (M.cosh x)
  | .tanh, [x] => guarded (M.tanh x)
  | .asinh, [x] => guarded (M.asinh x)
  | .acosh, [x] => guarded (M.acosh x)
  | .atanh, [x] => guarded (M.atanh x)
  | .exp, [x] => guarded (M.exp x)
  | .abs, [x] => .ok x.abs
  | .floor, [x] => .ok (floatOfInt (floorInt x))
  | .ceil, [x] => .ok (floatOfInt (ceilInt x))
  | .int, [x] => .ok (trunc x)
  | .trunc, [x] => .ok (trunc x)
  | .nint, [x] => .ok (nint x)
  | .sgn, [x] => .ok (sgn x)
  | .sqrt, [x] => guarded ((M.sqrt x.abs).map (sgn x * ·))
  | .log, [x] => signedLog M.log x
  | .ln, [x] => signedLog M.log x
  | .log10, [x] => signedLog M.log10 x
  | .db, [x] => signedLog (fun v => (M.log10 v).map (20 * ·)) x
  | .pow, [x, y] =>
    if x == 0 && trunc y < 0 then .error .zeroToANegativePower
    else guarded (M.pow x (trunc y))
  | .pwr, [x, y] =>
    if x == 0 then .ok 0 else guarded ((M.pow x.abs y).map (sgn x * ·))
  | .atan2, [x, y] => guarded (M.atan2 x y)
  | .min, a => .ok (minOf a)
  | .dmin, a => .ok (minOf a)
  | .max, a => .ok (maxOf a)
  | .dmax, a => .ok (maxOf a)
  | .sign, [x] => .ok (sgn x)
  | .sign, [x, y] => .ok (x.abs * sgn y)
  | .limit, [nominal, _] => .ok nominal
  | .limit, [x, lo, hi] => .ok (minOf [maxOf [x, lo], hi])
  | .agauss, nominal :: _ => .ok nominal
  | .gauss, nominal :: _ => .ok nominal
  | .aunif, nominal :: _ => .ok nominal
  | .unif, nominal :: _ => .ok nominal
  | _, _ => .error fun _ => .unknownFunction [] -- refused by `check_arity` before

/-- `_Eval.domain`: the first argument against Spectre's domain of the function. -/
def outsideDomain (f : Builtin) (x : Float) : Bool :=
  match f with
  | .log | .ln | .log10 => x ≤ 0
  | .sqrt => x < 0
  | .exp => 80 ≤ x
  | _ => false

/-! ## The evaluator -/

/-- `_Eval.ev` of a node whose `raw` value is `r`. -/
def finite (e : Expr) (r : Result) : Result :=
  match r with
  | .ok x => if x.isFinite then .ok x else .error (quote e .notFinite)
  | .error err => .error err

def unaryValue (op : UnaryOp) (x : Float) : Value :=
  match op with
  | .minus => .ok (-x)
  | .plus => .ok x
  | .bang => .ok (truth (x == 0))
  | .tilde => .error (.notHspice op.text)

/-- The operators that evaluate both operands. -/
def binaryValue (op : BinaryOp) (x y : Float) : Value :=
  match op with
  | .bitAnd | .bitOr | .xnor | .shiftLeft | .shiftRight => bitwise op x y
  | .add => .ok (x + y)
  | .sub => .ok (x - y)
  | .mul => .ok (x * y)
  | .div => if y == 0 then .error .divisionByZero else .ok (x / y)
  | .power | .caret => guarded (hspicePower M x y)
  | .eq => .ok (truth (x == y))
  | .ne => .ok (truth (x != y))
  | .lt => .ok (truth (x < y))
  | .le => .ok (truth (x ≤ y))
  | .gt => .ok (truth (y < x))
  | .ge => .ok (truth (y ≤ x))
  | .and => .ok (truth (x != 0 && y != 0))
  | .or => .ok (truth (x != 0 || y != 0))

/-- `_Eval.binary` on the results of its operands, in the order the source evaluates them. -/
def evBinary (spectre : Bool) (op : BinaryOp) (e : Expr) (x y : Result) : Result :=
  if (op = .and ∨ op = .or) ∧ !spectre then do
    let x ← x
    -- the left operand decides, and the right one is not evaluated
    if (x != 0) = decide (op = .or) then .ok (truth (op = .or))
    else
      let y ← y
      .ok (truth (y != 0))
  else do
    let x ← x
    let y ← y
    quoted e (binaryValue M op x y)

/-- The results in order, up to the first error. -/
def collect : List Result → Except Raised (List Float)
  | [] => .ok []
  | r :: rs => do
    let x ← r
    let xs ← collect rs
    pure (x :: xs)

/-- `if()`, lazy as `?:` is. -/
def evIf : List Result → Result
  | [c, a, b] => do
    let c ← c
    if c != 0 then a else b
  | _ => .error (.evalError (.unknownFunction (str "if"))) -- refused by `check_arity` before

/-- `_Eval.call` of a function that is not a node access, on the results of its arguments. -/
def evCall (spectre : Bool) (func : Str) (e : Expr) (args : List Result) : Result :=
  match Builtin.ofName func with
  | none => .error (.evalError (.unknownFunction func))
  | some f =>
    if !f.takes args.length then .error (quote e (.arity func f.arity args.length))
    else if f = .cond then evIf args
    else do
      let xs ← collect args
      if f.isExtra then quoted e (applyExtra M f xs)
      else if spectre && outsideDomain f (xs.headD 0) then .error (quote e (.domain func))
      else quoted e (apply M f xs)

mutual

/-- `_Eval.raw` -/
def raw (spectre : Bool) (scope : Str → Option Float) : Expr → Result
  | .num value => .ok value
  | .name name =>
    if name ∈ reserved then .error (.evalError (.notAConstant name))
    else
      match scope name with
      | none => .error (.evalError (.unknownParameter name))
      | some x => .ok x
  | .str s => .error (quote (.str s) .notANumber)
  | .unary op arg => do
    let x ← finite arg (raw spectre scope arg)
    quoted (.unary op arg) (unaryValue op x)
  | .ternary cond a b => do
    let c ← finite cond (raw spectre scope cond)
    if c != 0 then finite a (raw spectre scope a) else finite b (raw spectre scope b)
  | .binary op left right =>
    evBinary M spectre op (.binary op left right) (finite left (raw spectre scope left))
      (finite right (raw spectre scope right))
  | .call func args =>
    if isNodeFunc U func then .error (quote (.call func args) .needsSolution)
    else evCall M spectre func (.call func args) (evArgs spectre scope args)

def evArgs (spectre : Bool) (scope : Str → Option Float) : List Expr → List Result
  | [] => []
  | arg :: args => finite arg (raw spectre scope arg) :: evArgs spectre scope args

end

/-- `_Eval.ev` -/
def ev (spectre : Bool) (scope : Str → Option Float) (e : Expr) : Result :=
  finite e (raw U M spectre scope e)

/-- `evaluate` -/
def evaluate (e : Expr) (scope : Str → Option Float) (dialect : Dialect) : Result :=
  ev U M dialect.isSpectre scope e

end Vamos.Netlist.Expression
