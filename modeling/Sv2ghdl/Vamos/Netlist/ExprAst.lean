import Sv2ghdl.Python.Str

/-!
# Expression AST

`vamos/netlist/expr_ast.py`: the nodes `parse` builds and the evaluator and the printers consume.
-/

open Python

namespace Vamos.Netlist

/-! The instances that the literals 2, 10 and 180 of a number type look for, each under a name. -/

instance atLeastTwo_two : Nat.AtLeastTwo 2 := inferInstance

instance atLeastTwo_ten : Nat.AtLeastTwo 10 := inferInstance

instance atLeastTwo_halfTurn : Nat.AtLeastTwo 180 := inferInstance

/-- The `op` of a `Unary`: `-`, `+`, `!`, `~`. -/
inductive UnaryOp where
  | minus
  | plus
  | bang
  | tilde
  deriving DecidableEq, Repr

/-- The `op` of a `Binary`: `+ - * / ^ ** == != < <= > >= && || & | << >> ~^`. -/
inductive BinaryOp where
  | add
  | sub
  | mul
  | div
  | caret
  | power
  | eq
  | ne
  | lt
  | le
  | gt
  | ge
  | and
  | or
  | bitAnd
  | bitOr
  | shiftLeft
  | shiftRight
  | xnor
  deriving DecidableEq, Repr

inductive Expr where
  | num (value : Float)
  | name (name : Str)
  | str (text : Str)
  | call (func : Str) (args : List Expr)
  | unary (op : UnaryOp) (arg : Expr)
  | binary (op : BinaryOp) (left right : Expr)
  | ternary (cond a b : Expr)

def UnaryOp.text : UnaryOp → Str
  | .minus => ['-']
  | .plus => ['+']
  | .bang => ['!']
  | .tilde => ['~']

def BinaryOp.text : BinaryOp → Str
  | .add => ['+']
  | .sub => ['-']
  | .mul => ['*']
  | .div => ['/']
  | .caret => ['^']
  | .power => ['*', '*']
  | .eq => ['=', '=']
  | .ne => ['!', '=']
  | .lt => ['<']
  | .le => ['<', '=']
  | .gt => ['>']
  | .ge => ['>', '=']
  | .and => ['&', '&']
  | .or => ['|', '|']
  | .bitAnd => ['&']
  | .bitOr => ['|']
  | .shiftLeft => ['<', '<']
  | .shiftRight => ['>', '>']
  | .xnor => ['~', '^']

end Vamos.Netlist
