import Sv2ghdl.Vamos.Netlist.ExprTree
import Mathlib.Algebra.Order.Floor.Ring

/-!
# Expressions in exact arithmetic

The nodes, `evaluate` and `fold` of `vamos/netlist/expr.py` over an ordered field instead of the numbers of the
machine.  Nothing overflows here, and Spectre's domain rules are left out.
-/

open Python Vamos.Netlist.Expression
open Vamos.Netlist (UnaryOp BinaryOp)

namespace Vamos.Waves

variable {K : Type}

inductive Expr (K : Type) where
  | num (value : K)
  | name (name : Str)
  | str (text : Str)
  | call (func : Str) (args : List (Expr K))
  | unary (op : UnaryOp) (arg : Expr K)
  | binary (op : BinaryOp) (left right : Expr K)
  | ternary (cond a b : Expr K)

/-- The functions of `math` that are used, and the text of a number.  `binary` has the powers and the operators on bits,
    and `call` the other functions of `_apply`, which may have no value. -/
structure Arith (K : Type) [Zero K] where
  pi : K
  sin : K → K
  sin_zero : sin 0 = 0
  exp : K → K
  binary : BinaryOp → K → K → Option K
  call : Str → List K → Option K
  repr : K → Str

variable [Field K] [LinearOrder K] [FloorRing K] (U : UnicodeData) (A : Arith K)

def truth (p : Prop) [Decidable p] : K := if p then 1 else 0

omit [FloorRing K] in
def unaryValue (op : UnaryOp) (x : K) : Option K :=
  match op with
  | .minus => some (-x)
  | .plus => some x
  | .bang => some (truth (x = 0))
  | .tilde => none

/-- The operators that evaluate both operands. -/
def binaryValue (op : BinaryOp) (x y : K) : Option K :=
  match op with
  | .add => some (x + y)
  | .sub => some (x - y)
  | .mul => some (x * y)
  | .div => if y = 0 then none else some (x / y)
  | .eq => some (truth (x = y))
  | .ne => some (truth (x ≠ y))
  | .lt => some (truth (x < y))
  | .le => some (truth (x ≤ y))
  | .gt => some (truth (y < x))
  | .ge => some (truth (y ≤ x))
  | op => A.binary op x y

/-- `_Eval.binary` on the values of its operands; `&&` and `||` look at the right one only if they must. -/
def evBinary (op : BinaryOp) (x y : Option K) : Option K :=
  if op = .and ∨ op = .or then
    x.bind fun x => if (x ≠ 0 ↔ op = .or) then some (truth (op = .or)) else y.map fun y => truth (y ≠ 0)
  else x.bind fun x => y.bind fun y => binaryValue A op x y

def callValue (func : Str) (xs : List K) : Option K :=
  match xs with
  | [x] =>
    if func = str "floor" then some (⌊x⌋ : K)
    else if func = str "sin" then some (A.sin x)
    else if func = str "exp" then some (A.exp x)
    else A.call func [x]
  | xs => A.call func xs

/-- The values, if all are there. -/
def collect : List (Option K) → Option (List K)
  | [] => some []
  | x :: xs => x.bind fun x => (collect xs).map (x :: ·)

/-- `_Eval.call` on the values of its arguments; `if` is lazy as `?:` is. -/
def evCall (func : Str) (args : List (Option K)) : Option K :=
  if func = str "if" then
    match args with
    | [c, a, b] => c.bind fun c => if c ≠ 0 then a else b
    | _ => none
  else (collect args).bind (callValue A func)

mutual

/-- `evaluate` -/
def eval (scope : Str → Option K) : Expr K → Option K
  | .num value => some value
  | .name name => if name ∈ reserved then none else scope name
  | .str _ => none
  | .unary op arg => (eval scope arg).bind (unaryValue op)
  | .binary op left right => evBinary A op (eval scope left) (eval scope right)
  | .ternary cond a b => (eval scope cond).bind fun c => if c ≠ 0 then eval scope a else eval scope b
  | .call func args => if isNodeFunc U func then none else evCall A func (evalArgs scope args)

def evalArgs (scope : Str → Option K) : List (Expr K) → List (Option K)
  | [] => []
  | arg :: args => eval scope arg :: evalArgs scope args

end

section

-- The equations that many lemmas unfold side by side are derived once here.
attribute [local simp] unaryValue binaryValue evBinary callValue collect evCall eval evalArgs

end

/-! ## `fold` -/

/-- `known` -/
def Expr.number : Expr K → Option K
  | .num value => some value
  | _ => none

def Expr.known (e : Expr K) : Bool := e.number.isSome

/-- `foldable` -/
def foldable : Expr K → Bool
  | .call func args => !isNodeFunc U func && args.all Expr.known
  | .unary _ arg => arg.known
  | .binary _ left right => left.known && right.known
  | .ternary cond a b => cond.known && a.known && b.known
  | _ => false

/-- A constant node becomes its value, unless it has none. -/
def foldConstant (e : Expr K) : Expr K :=
  if foldable U e then
    match eval U A (fun _ => none) e with
    | some value => .num value
    | none => e
  else e

/-- `f` of `fold`, on a node whose children are folded. -/
def foldNode (e : Expr K) : Expr K :=
  match e with
  | .ternary (.num c) a b => if c ≠ 0 then a else b
  | .binary op (.num x) right =>
    if op = .and ∨ op = .or then
      if (x ≠ 0 ↔ op = .or) then .num (truth (op = .or))
      else
        match right with
        | .num y => .num (truth (y ≠ 0))
        | right => .binary op (.num x) right
    else foldConstant U A (.binary op (.num x) right)
  | .call func [.num c, a, b] =>
    if func = str "if" then if c ≠ 0 then a else b
    else foldConstant U A (.call func [.num c, a, b])
  | e => foldConstant U A e

mutual

/-- `fold` without a scope: `transform` with `foldNode`. -/
def fold : Expr K → Expr K
  | .num value => foldNode U A (.num value)
  | .name name => foldNode U A (.name name)
  | .str text => foldNode U A (.str text)
  | .call func args => foldNode U A (.call func (if isNodeFunc U func then args else foldArgs args))
  | .unary op arg => foldNode U A (.unary op (fold arg))
  | .binary op left right => foldNode U A (.binary op (fold left) (fold right))
  | .ternary cond a b => foldNode U A (.ternary (fold cond) (fold a) (fold b))

def foldArgs : List (Expr K) → List (Expr K)
  | [] => []
  | arg :: args => fold arg :: foldArgs args

end

/-! ## Folding keeps the value -/

variable {U A} {scope : Str → Option K}

omit [Field K] [LinearOrder K] [FloorRing K] in
theorem eq_num_of_known {e : Expr K} (h : e.known = true) : ∃ value, e = .num value := by
  cases e with
  | num value => exact ⟨value, rfl⟩
  | _ => cases h

theorem evalArgs_of_known {args : List (Expr K)} (h : args.all Expr.known = true) :
    evalArgs U A scope args = evalArgs U A (fun _ => none) args := by
  induction args with
  | nil => rfl
  | cons arg args ih =>
    rw [List.all_cons, Bool.and_eq_true] at h
    obtain ⟨value, rfl⟩ := eq_num_of_known h.1
    rw [evalArgs, evalArgs, ih h.2, eval, eval]

/-- A constant node has the same value in every scope. -/
theorem eval_of_foldable {e : Expr K} (h : foldable U e = true) : eval U A scope e = eval U A (fun _ => none) e := by
  cases e with
  | num | name | str => cases h
  | unary op arg =>
    obtain ⟨value, rfl⟩ := eq_num_of_known h
    simp only [eval]
  | binary op left right =>
    rw [foldable, Bool.and_eq_true] at h
    obtain ⟨x, rfl⟩ := eq_num_of_known h.1
    obtain ⟨y, rfl⟩ := eq_num_of_known h.2
    simp only [eval]
  | ternary cond a b =>
    rw [foldable, Bool.and_eq_true, Bool.and_eq_true] at h
    obtain ⟨c, rfl⟩ := eq_num_of_known h.1.1
    obtain ⟨x, rfl⟩ := eq_num_of_known h.1.2
    obtain ⟨y, rfl⟩ := eq_num_of_known h.2
    simp only [eval]
  | call func args =>
    rw [foldable, Bool.and_eq_true] at h
    rw [eval, eval, evalArgs_of_known h.2]

theorem eval_foldConstant (e : Expr K) : eval U A scope (foldConstant U A e) = eval U A scope e := by
  rw [foldConstant]
  split_ifs with h
  · split
    · rename_i value hvalue
      rw [eval_of_foldable h, hvalue, eval]
    · rfl
  · rfl

/-- What `f` makes of a node has the node's value. -/
theorem eval_foldNode (e : Expr K) : eval U A scope (foldNode U A e) = eval U A scope e := by
  unfold foldNode
  split
  · rename_i c a b
    rw [eval, eval, Option.bind_some]
    split_ifs <;> rfl
  · rename_i op x right
    split_ifs with hop hdecides
    · rw [eval, eval, evBinary, if_pos hop, eval, Option.bind_some, if_pos hdecides]
    · split
      · rename_i y
        rw [eval, eval, evBinary, if_pos hop, eval, Option.bind_some, if_neg hdecides, eval, Option.map_some]
      · rfl
    · exact eval_foldConstant _
  · rename_i func c a b
    split_ifs with hfunc hc
    · subst hfunc
      have hnode : isNodeFunc U (str "if") = false := by simp [isNodeFunc, matchesNodeFunc, str]
      simp [eval, evalArgs, evCall, hnode, hc]
    · subst hfunc
      have hnode : isNodeFunc U (str "if") = false := by simp [isNodeFunc, matchesNodeFunc, str]
      simp [eval, evalArgs, evCall, hnode, hc]
    · exact eval_foldConstant _
  · exact eval_foldConstant _

mutual

/-- `fold` keeps the value of every expression, and gives none a value. -/
theorem eval_fold (e : Expr K) : eval U A scope (fold U A e) = eval U A scope e := by
  cases e with
  | num | name | str =>
    rw [fold]
    exact eval_foldNode _
  | unary op arg => rw [fold, eval_foldNode, eval, eval, eval_fold arg]
  | binary op left right => rw [fold, eval_foldNode, eval, eval, eval_fold left, eval_fold right]
  | ternary cond a b => rw [fold, eval_foldNode, eval, eval, eval_fold cond, eval_fold a, eval_fold b]
  | call func args =>
    rw [fold, eval_foldNode, eval, eval]
    split_ifs with hnode
    · rfl
    · rw [evalArgs_foldArgs args]

theorem evalArgs_foldArgs (args : List (Expr K)) :
    evalArgs U A scope (foldArgs U A args) = evalArgs U A scope args := by
  cases args with
  | nil => rfl
  | cons arg args => rw [foldArgs, evalArgs, evalArgs, eval_fold arg, evalArgs_foldArgs args]

end

end Vamos.Waves
