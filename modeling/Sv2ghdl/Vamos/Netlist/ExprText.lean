import Sv2ghdl.Python.FloatRepr
import Sv2ghdl.Vamos.Netlist.ExprAst

/-!
# HSPICE spelling

`to_text` of `vamos/netlist/expr.py`: an expression as messages and the emitters quote it, with the
parentheses the levels of a dialect need.
-/

open Python

namespace Vamos.Netlist.Expression

/-- `DIALECTS` -/
inductive Dialect where
  | hspice
  | spectre
  | spectreSpice
  deriving DecidableEq, Repr

def Dialect.isSpectre : Dialect → Bool
  | .hspice => false
  | .spectre => true
  | .spectreSpice => true

/-- The levels `_text` puts parentheses by; an operator without a level is a `KeyError`. -/
structure Levels where
  ternary : Nat
  binary : BinaryOp → Option Nat
  unary : Nat
  /-- Whether `cpow` is spelled `**`, with a right operand at its own level. -/
  spectre : Bool

/-- `_TPREC` and `_TUNARY` -/
def hspiceLevels : Levels where
  ternary := 10
  binary
    | .or => some 20
    | .and => some 30
    | .bitOr => some 34
    | .xnor => some 35
    | .bitAnd => some 36
    | .eq | .ne => some 40
    | .lt | .le | .gt | .ge => some 50
    | .shiftLeft | .shiftRight => some 55
    | .add | .sub => some 60
    | .mul | .div => some 70
    | .power => some 100
    | .caret => none
  unary := 80
  spectre := false

/-- `_SPECTRE_LBP` and `_SPECTRE_UNARY_RBP` -/
def spectreLevels : Levels where
  ternary := 10
  binary
    | .or => some 20
    | .and => some 30
    | .bitOr => some 40
    | .xnor => some 50
    | .bitAnd => some 60
    | .eq | .ne => some 70
    | .lt | .le | .gt | .ge => some 80
    | .shiftLeft | .shiftRight => some 90
    | .add | .sub => some 100
    | .mul | .div => some 110
    | .power => some 120
    | .caret => none
  unary := 130
  spectre := true

def Dialect.levels : Dialect → Levels
  | .hspice => hspiceLevels
  | .spectre => spectreLevels
  | .spectreSpice => spectreLevels

/-- `"(%s)" % s if level < need else s` -/
def wrap (level need : Nat) (s : Str) : Str :=
  if level < need then ('(' : CodePoint) :: s ++ [(')' : CodePoint)] else s

/-- `", ".join(args)` -/
def commaJoin : List Str → Str
  | [] => []
  | [arg] => arg
  | arg :: args => arg ++ (',' : CodePoint) :: (' ' : CodePoint) :: commaJoin args

def numText (value : Float) (need : Nat) : Str :=
  let s := reprFloat value
  if s.head? = some ('-' : CodePoint) ∧ 0 < need then
    ('(' : CodePoint) :: s ++ [(')' : CodePoint)]
  else s

mutual

/-- `_text`; `none` is the `KeyError` of an operator without a level. -/
def text (L : Levels) : Expr → Nat → Option Str
  | .num value, need => some (numText value need)
  | .name name, _ => some name
  | .str s, _ => some (('"' : CodePoint) :: s ++ [('"' : CodePoint)])
  | .call func args, need =>
    if L.spectre ∧ func = str "cpow" then
      match args with
      | [a, b] => do
        let p ← L.binary .power
        let left ← text L a (p + 1)
        let right ← text L b p
        pure (wrap p need (left ++ str "**" ++ right))
      | args => do
        let args ← texts L args
        pure (func ++ ('(' : CodePoint) :: commaJoin args ++ [(')' : CodePoint)])
    else do
      let args ← texts L args
      pure (func ++ ('(' : CodePoint) :: commaJoin args ++ [(')' : CodePoint)])
  | .unary op arg, need => do
    let arg ← text L arg (L.unary + 1)
    pure (wrap L.unary need (op.text ++ arg))
  | .binary op left right, need => do
    let p ← L.binary op
    if op = .power then
      let left ← text L left (p + 1)
      let right ← text L right (if L.spectre then p else L.unary)
      pure (wrap p need (left ++ str "**" ++ right))
    else
      let left ← text L left p
      let right ← text L right (p + 1)
      pure (wrap p need
        (left ++ (' ' : CodePoint) :: op.text ++ (' ' : CodePoint) :: right))
  | .ternary cond a b, need => do
    let p := L.ternary
    let cond ← text L cond (p + 1)
    let a ← text L a 0
    let b ← text L b p
    pure (wrap p need (cond ++ str " ? " ++ a ++ str " : " ++ b))

def texts (L : Levels) : List Expr → Option (List Str)
  | [] => some []
  | e :: es => do
    let s ← text L e 0
    let ss ← texts L es
    pure (s :: ss)

end

/-- `to_text` -/
def toText (e : Expr) (dialect : Dialect) : Option Str := text dialect.levels e 0

end Vamos.Netlist.Expression
