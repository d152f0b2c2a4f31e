import Sv2ghdl.Syntax.Pratt
import Sv2ghdl.Vamos.Netlist.ExprLexer
import Sv2ghdl.Vamos.Netlist.Inline

/-!
# Parsing expressions

`_Parser` of `vamos/netlist/expr.py`: the grammars of the HSPICE and the Spectre dialects.
-/

open Python

namespace Vamos.Netlist.Expression

variable (U : UnicodeData) (M : Libm)

/-! ## Names -/

/-- `CASES` -/
inductive Case where
  | lower
  | upper
  | sensitive
  deriving DecidableEq, Repr

/-- `fold_name` -/
def foldName (case : Case) (name : Str) : Str :=
  match case with
  | .lower => U.lower name
  | .upper => U.upper name
  | .sensitive => name

/-- `ident` in HSPICE's dialect. -/
def identHspice (case : Case) (name : Str) : Str :=
  let low := U.lower name
  if low ∈ reserved ∨ case = .lower then low
  else if case = .upper then U.upper name
  else name

/-- `ident_spectre` -/
def identSpectre (case : Case) (dialect : Dialect) (name : Str) : Except Message Str :=
  let folded := foldName U case name
  if folded = str "temp" then .ok (str "temper")
  else if folded = str "tnom" then .ok (str "$tnom")
  else if folded = str "time" ∨ folded = str "hertz" then .error (.behavioral name)
  else if folded = str "temper" then
    if dialect = .spectre then .error .temperature else .ok (str "temper")
  else .ok folded

/-- `ident` -/
def ident (case : Case) (dialect : Dialect) (name : Str) : Except Message Str :=
  if dialect.isSpectre then identSpectre U case dialect name else .ok (identHspice U case name)

/-! ## Tables -/

/-- `math.e` and `math.pi` -/
def eulerNumber : Float := 2.718281828459045
def pi : Float := 3.141592653589793

/-- `math.log(x)` and `math.sqrt(x)` of an `x` that has one. -/
def logOf (x : Float) : Float := (M.log x).toOption.getD 0
def sqrtOf (x : Float) : Float := (M.sqrt x).toOption.getD 0

/-- `SPECTRE_CONSTANTS` -/
def spectreConstants : List (Str × Float) :=
  [(str "M_E", eulerNumber), (str "M_LOG2E", 1 / logOf M 2), (str "M_LOG10E", 1 / logOf M 10),
    (str "M_LN2", logOf M 2), (str "M_LN10", logOf M 10), (str "M_PI", pi), (str "M_TWO_PI", 2 * pi),
    (str "M_PI_2", pi / 2), (str "M_PI_4", pi / 4), (str "M_1_PI", 1 / pi), (str "M_2_PI", 2 / pi),
    (str "M_2_SQRTPI", 2 / sqrtOf M pi), (str "M_SQRT2", sqrtOf M 2), (str "M_SQRT1_2", 1 / sqrtOf M 2),
    (str "M_DEGPERRAD", 180 / pi), (str "P_Q", 1.6021918e-19), (str "P_C", 2.997924562e8),
    (str "P_K", 1.3806226e-23), (str "P_H", 6.6260755e-34), (str "P_EPS0", 8.85418792394420013968e-12),
    (str "P_U0", 4.0e-7 * pi), (str "P_CELSIUS0", 273.15)]

/-- `constant` -/
def constant (dialect : Dialect) (name : Str) : Option Float :=
  if dialect = .spectre then (spectreConstants M).lookup name
  else ((spectreConstants M).map fun c => (U.lower c.1, c.2)).lookup (U.lower name)

/-- `EXTRA_FUNCS` -/
def extraFuncs : List Str := [str "cpow", str "hypot", str "fmod"]

/-- `SPECTRE_FUNCS`, each with its number of arguments. -/
def spectreFuncs : List (Str × Nat) :=
  ([str "log", str "ln", str "log10", str "exp", str "sqrt", str "abs", str "int", str "floor", str "ceil",
    str "sgn", str "sin", str "cos", str "tan", str "asin", str "acos", str "atan", str "sinh", str "cosh",
    str "tanh", str "asinh", str "acosh", str "atanh"].map (·, 1)) ++
  [str "min", str "max", str "pow", str "fmod", str "hypot", str "atan2", str "sign"].map (·, 2)

/-- `_LBP` -/
def hspiceLbp : BinaryOp → Option Nat
  | .or => some 2
  | .and => some 3
  | .eq | .ne => some 4
  | .lt | .le | .gt | .ge => some 5
  | .add | .sub => some 6
  | .mul | .div => some 7
  | .power => some 10
  | _ => none

/-! ## The grammar -/

/-- `fail` -/
def Token.fail (t : Token) (message : Message) : ParseError := .exprError message t.pos

/-- `call_spectre` -/
def callSpectre (funcs : Funcs) (func : Str) (t : Token) (args : List Expr) : Except ParseError Expr :=
  match funcs.lookup func with
  | some fn =>
    if fn.params.length ≠ args.length then
      .error (t.fail (.arguments func fn.params.length args.length))
    else .ok (substitute U (bound fn.params args) fn.body)
  | none =>
    if isNodeFunc U (U.lower func) then .error (t.fail (.behavioral func))
    else match spectreFuncs.lookup func with
      | none => .error (t.fail (.unknownFunction func))
      | some n =>
        if args.length ≠ n then .error (t.fail (.arguments func n args.length))
        else .ok (.call (if func = str "pow" then str "cpow" else func) args)

/-- `call`, at a name in front of a parenthesis. -/
def callNud (case : Case) (dialect : Dialect) (funcs : Funcs) (t : Token) (word : Str) :
    Pratt.Nud Token Expr ParseError :=
  if dialect.isSpectre then
    let func := foldName U case word
    .call (fun close =>
        match funcs.lookup func with
        | some fn =>
          if fn.params = [] then callSpectre U funcs func t []
          else .error (close.fail (.needsArguments func))
        | none => .error (close.fail (.needsArguments func)))
      (callSpectre U funcs func t)
  else
    let func := U.lower word
    if func ∈ extraFuncs then .fail (.hspiceExtraFunction func t.pos)
    else .call (fun close => .error (close.fail (.needsArguments func))) (fun args => .ok (.call func args))

/-- A name that is no call: in the Spectre dialects a constant first. -/
def nameNud (case : Case) (dialect : Dialect) (t : Token) (word : Str) : Pratt.Nud Token Expr ParseError :=
  match (if dialect.isSpectre then constant U M dialect word else none) with
  | some value => .leaf (.num value)
  | none =>
    match ident U case dialect word with
    | .ok name => .leaf (.name name)
    | .error message => .fail (t.fail message)

/-- A sign in front of a literal is part of the literal. -/
def negate : Expr → Expr
  | .num value => .num (-value)
  | e => .unary .minus e

/-- `nud` -/
def nud (case : Case) (dialect : Dialect) (funcs : Funcs) (t : Token) (next : Option Token) :
    Pratt.Nud Token Expr ParseError :=
  let unaryRbp := if dialect.isSpectre then spectreLevels.unary else 8
  match t.value with
  | .num value => .leaf (.num value)
  | .str s => .leaf (.str s)
  | .node func args =>
    match args.mapM (ident U case dialect) with
    | .ok names => .leaf (.call func (names.map .name))
    | .error message => .fail (.exprError message (-1))
  | .name word =>
    match next with
    | none => .fail .indexError
    | some n =>
      if n.value = .opening '(' then callNud U case dialect funcs t word else nameNud U M case dialect t word
  | .opening _ => .group fun close => close.fail .emptyParentheses
  | .op (.binary .sub) => .unary unaryRbp negate
  | .op (.binary .add) => .unary unaryRbp id
  | .op .bang => .unary unaryRbp (.unary .bang)
  | _ => .fail (t.fail (.expectedOperand t.value))

/-- `led` with the level of its operator. -/
def led (dialect : Dialect) (t : Token) : Option (Nat × Pratt.Led Expr) :=
  match t.value with
  | .op .question =>
    if dialect.isSpectre then some (spectreLevels.ternary, .ternary (spectreLevels.ternary - 1) .ternary)
    else some (1, .ternary 0 .ternary)
  | .op (.binary op) =>
    (if dialect.isSpectre then spectreLevels.binary op else hspiceLbp op).map fun lbp =>
      if op = .power then
        (lbp, .binary (lbp - 1) fun left right =>
          if dialect.isSpectre then .call (str "cpow") [left, right] else .binary .power left right)
      else (lbp, .binary lbp (.binary op))
  | _ => none

def TokenValue.isClosing : TokenValue → Bool
  | .closing _ => true
  | _ => false

/-- The grammar of a dialect. -/
def grammar (case : Case) (dialect : Dialect) (funcs : Funcs) : Pratt.Grammar Token Expr ParseError where
  nud := nud U M case dialect funcs
  led := led dialect
  isClose t := t.value.isClosing
  isComma t := t.value = .op .comma
  isColon t := t.value = .op .colon
  notClose t := t.fail (.expectedClose t.value)
  notColon t := t.fail (.expectedColon t.value)

/-- What a failure of the parser is in the source. -/
def raised : Pratt.Failure ParseError → ParseError
  | .error e => e
  | .exhausted => .indexError
  | .fuel => .outOfFuel

/-- `_Parser(text, case, dialect, funcs).parse()` -/
def parse (text : Str) (case : Case) (dialect : Dialect) (funcs : Funcs) : Except ParseError Expr := do
  let toks ← lex U dialect text
  match toks.head? with
  | none => .error .indexError
  | some t =>
    if t.value = .eof then .error (t.fail .emptyExpression)
    else match (grammar U M case dialect funcs).expr (Pratt.Grammar.fuelFor toks) 0 toks with
      | .error failure => .error (raised failure)
      | .ok (_, []) => .error .indexError
      | .ok (e, t :: _) => if t.value = .eof then .ok e else .error (t.fail (.unexpected t.value))

end Vamos.Netlist.Expression
