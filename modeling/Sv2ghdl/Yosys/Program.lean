import Sv2ghdl.Yosys.Rtlil
import Sv2ghdl.Yosys.WideLogic

/-!
# The generated program

The part of C that `yosys/gen_statemachine.cpp` prints for cells: a wire of at most 64 bits is a
`uint64_t` variable, a wider one an array of limbs, and calls go to the runtime.  The variables are
named by the wires themselves: `cname` is left out.
-/

open Clang Yosys.WideRt

namespace Yosys.Rtlil

/-! ## Syntax -/

/-- The variables: one for each wire, and the locals of a statement. -/
inductive Var where
  | wire (w : Wire)
  | loc (name : String)
  deriving DecidableEq, Repr

/-- The calls of the runtime in an expression. -/
inductive Func where
  | wslice64 (a : Var) (off w n : Nat)
  | weq (a b : Var) (n : Nat)
  | wult (a b : Var) (n : Nat)
  | wslt (a b : Var) (n : Nat)
  | wredOr (a : Var) (n : Nat)
  | wredAnd (a : Var) (width n : Nat)
  | wredXor (a : Var) (n : Nat)
  deriving DecidableEq, Repr

abbrev CExpr := Expr Var Func

abbrev CEnv := Env Var

/-- The calls of the runtime that write an array. -/
inductive Proc where
  /-- `for(int _wi=0;_wi<n;_wi++) d[_wi]=0;` -/
  | clear (d : Var) (n : Nat)
  | wplacew (d : Var) (doff : Nat) (s : Var) (soff w : Nat)
  | wplacewS (d : Var) (doff : Nat) (s : Var) (soff w : Nat)
  | wplace (d : Var) (doff : Nat) (s : Var) (w : Nat)
  | wplaceb (d : Var) (off : Nat) (e : CExpr)
  | worbits (d : Var) (doff : Nat) (s : Var) (soff w : Nat)
  | worbitsS (d : Var) (doff : Nat) (s : Var) (soff w : Nat)
  | wcopy (d a : Var) (n : Nat)
  | wnot (d a : Var) (n : Nat)
  | wneg (d a : Var) (n : Nat)
  | wand (d a b : Var) (n : Nat)
  | wor (d a b : Var) (n : Nat)
  | wxor (d a b : Var) (n : Nat)
  | wadd (d a b : Var) (n : Nat)
  | wsub (d a b : Var) (n : Nat)
  | wmul (d a b : Var) (n : Nat)
  | wshl (d a : Var) (s : CExpr) (n : Nat)
  | wshr (d a : Var) (s : CExpr) (n : Nat)

abbrev CStmt := Stmt Var Func Proc

/-! ## Meaning -/

def isWide (w : Nat) : Bool := w > 64

/-- `nlimbs` -/
def nlimbs (size : LimbSize) (w : Nat) : Nat := (w + size.bits - 1) / size.bits

/-- The wire bits an environment holds. -/
def wireBits (size : LimbSize) (env : CEnv) : Valuation := fun w i =>
  if isWide w.width then bitAt size.bits (env.array (.wire w)) i
  else (env.scalar (.wire w)).pattern.testBit i

/-- Every variable of a wire has its type, and a scalar no bit above the width of its wire. -/
structure WellFormed (size : LimbSize) (env : CEnv) : Prop where
  type : ∀ w : Wire, (env.scalar (.wire w)).type = uint64
  lt : ∀ w : Wire, isWide w.width = false → (env.scalar (.wire w)).pattern < 2 ^ w.width
  limbs : ∀ w : Wire, isWide w.width = true →
    Holds size.bits (nlimbs size w.width) (env.array (.wire w))

/-- What the functions of the runtime return. -/
def Func.eval (size : LimbSize) (f : Func) (env : CEnv) : Option Value :=
  match f with
  | .wslice64 a off w n => (WideRt.wslice64 size (env.array a) off w n).map fun v => ⟨uint64, v⟩
  | .weq a b n => (WideRt.weq (env.array a) (env.array b) n).map ofBool
  | .wult a b n => (WideRt.wult (env.array a) (env.array b) n).map ofBool
  | .wslt a b n => (WideRt.wslt size.bits (env.array a) (env.array b) n).map ofBool
  | .wredOr a n => (WideRt.wredOr (env.array a) n).map ofBool
  | .wredAnd a width n => (WideRt.wredAnd size.bits (env.array a) width n).map ofBool
  | .wredXor a n => (WideRt.wredXor size (env.array a) n).map ofBool

/-- `(uint32_t)e` or `(uint64_t)e` -/
def word (size : LimbSize) (e : CExpr) (env : CEnv) : Option Nat :=
  (e.eval (Func.eval size) env).map fun v => (v.convert (unsigned size.bits)).pattern

/-- An argument of type `int`. -/
def intArgument (size : LimbSize) (e : CExpr) (env : CEnv) : Option Int :=
  (e.eval (Func.eval size) env).map fun v => (v.convert int).toInt

def Proc.run (size : LimbSize) (p : Proc) (env : CEnv) : Option CEnv :=
  let W := size.bits
  let words := env.array
  match p with
  | .clear d n => (forUp (fun i a => store a i 0) n (words d)).map (env.setArray d)
  | .wplacew d doff s soff w =>
    (WideRt.wplacew W (words d) doff (words s) soff w).map (env.setArray d)
  | .wplacewS d doff s soff w =>
    (WideRt.wplacewS W (words d) doff (env.scalar s).pattern soff w).map (env.setArray d)
  | .wplace d doff s w => (WideRt.wplace W (words d) doff (words s) w).map (env.setArray d)
  | .wplaceb d off e =>
    (word size e env).bind fun b => (WideRt.wplaceb W (words d) off b).map (env.setArray d)
  | .worbits d doff s soff w =>
    (WideRt.worbits W (words d) doff (words s) soff w).map (env.setArray d)
  | .worbitsS d doff s soff w =>
    (WideRt.worbitsS W (words d) doff (env.scalar s).pattern soff w).map (env.setArray d)
  | .wcopy d a n => (WideRt.wcopy (words d) (words a) n).map (env.setArray d)
  -- `wnot(_wy,_wy,n)` reads each word before it writes it
  | .wnot d a n => (WideRt.wnot W (words d) (words a) n).map (env.setArray d)
  | .wneg d a n => (WideRt.wneg W (words d) (words a) n).map (env.setArray d)
  | .wand d a b n => (WideRt.wand (words d) (words a) (words b) n).map (env.setArray d)
  | .wor d a b n => (WideRt.wor (words d) (words a) (words b) n).map (env.setArray d)
  | .wxor d a b n => (WideRt.wxor (words d) (words a) (words b) n).map (env.setArray d)
  | .wadd d a b n => (WideRt.wadd W (words d) (words a) (words b) n).map (env.setArray d)
  | .wsub d a b n => (WideRt.wsub W (words d) (words a) (words b) n).map (env.setArray d)
  | .wmul d a b n =>
    let t := (List.range size.scratch).map fun i => env.garbage i % 2 ^ W
    (WideRt.wmul W t (words d) (words a) (words b) n).map (env.setArray d)
  | .wshl d a s n =>
    (intArgument size s env).bind fun s =>
      (WideRt.wshlInt W (words d) (words a) s n).map (env.setArray d)
  | .wshr d a s n =>
    (intArgument size s env).bind fun s =>
      (WideRt.wshrInt W (words d) (words a) s n).map (env.setArray d)

/-- A run of statements of the generated program. -/
def run (size : LimbSize) (s : CStmt) (env : CEnv) : Option CEnv :=
  s.run (Func.eval size) (Proc.run size) env

theorem size_pos (size : LimbSize) : 0 < size.bits := by
  cases size <;> decide

theorem le_nlimbs (size : LimbSize) (w : Nat) : w ≤ size.bits * nlimbs size w := by
  have hceil := ceilDiv_mul (size_pos size) w
  have hw := Nat.div_add_mod w size.bits
  have hmod := Nat.mod_lt w (size_pos size)
  rw [nlimbs]
  by_cases hzero : w % size.bits = 0
  · rw [hceil.2 hzero]
    omega
  · rw [hceil.1 hzero, Nat.mul_succ]
    omega

/-! ## Assignments -/

theorem wire_ne_loc (w : Wire) (x : String) : Var.wire w ≠ .loc x := nofun

theorem WellFormed.set_loc {size : LimbSize} {env : CEnv} (h : WellFormed size env) (x : String)
    (v : Value) : WellFormed size (env.set (.loc x) v) := by
  have hscalar : ∀ w : Wire, (env.set (.loc x) v).scalar (.wire w) = env.scalar (.wire w) :=
    fun w => env.scalar_set_ne (wire_ne_loc w x) v
  constructor
  · intro w
    rw [hscalar]
    exact h.type w
  · intro w
    rw [hscalar]
    exact h.lt w
  · exact h.limbs

theorem wireBits_set_loc (size : LimbSize) (env : CEnv) (x : String) (v : Value) :
    wireBits size (env.set (.loc x) v) = wireBits size env := by
  have hscalar : ∀ w : Wire, (env.set (.loc x) v).scalar (.wire w) = env.scalar (.wire w) :=
    fun w => env.scalar_set_ne (wire_ne_loc w x) v
  funext w i
  rw [wireBits, wireBits, hscalar]
  rfl

/-- A statement that sets the scalar `y` to `v` and changes no other variable of a wire. -/
def Computes (size : LimbSize) (env : CEnv) (s : CStmt) (y : Var) (v : Nat) : Prop :=
  v < 2 ^ 64 ∧ ∃ env', run size s env = some env' ∧ env'.scalar y = ⟨uint64, v⟩ ∧
    env'.array = env.array ∧ ∀ w, Var.wire w ≠ y → env'.scalar (.wire w) = env.scalar (.wire w)

theorem computes_set {size : LimbSize} {env : CEnv} {e : CExpr} {t : IntType} {v : Nat} (y : Var)
    (he : e.Has (Func.eval size) env t v) (hv : (⟨t, v⟩ : Value).convert uint64 = ⟨uint64, v⟩) :
    Computes size env (.set y uint64 e) y v := by
  refine ⟨?_, env.set y ⟨uint64, v⟩, ?_, if_pos rfl, rfl, fun w hw => if_neg hw⟩
  · rw [Value.convert, IntType.ofInt] at hv
    have hpattern := congrArg Value.pattern hv
    simp only at hpattern
    omega
  · rw [run, Stmt.run, he, Option.map_some, hv]

theorem run_seq (size : LimbSize) (s t : CStmt) (env : CEnv) :
    run size (.seq s t) env = (run size s env).bind (run size t) := rfl

theorem run_skip (size : LimbSize) (env : CEnv) : run size .skip env = some env := rfl

theorem run_set {size : LimbSize} {env : CEnv} {e : CExpr} {v : Value}
    (he : e.eval (Func.eval size) env = some v) (x : Var) (t : IntType) :
    run size (.set x t e) env = some (env.set x (v.convert t)) := by
  rw [run, Stmt.run, he, Option.map_some]

theorem run_set_none {size : LimbSize} {env : CEnv} {e : CExpr}
    (he : e.eval (Func.eval size) env = none) (x : Var) (t : IntType) :
    run size (.set x t e) env = none := by
  rw [run, Stmt.run, he, Option.map_none]

/-- Statements for `0`, `1`, ... that each keep an invariant. -/
theorem run_block_range' (size : LimbSize) (inv : Nat → CEnv → Prop) (body : Nat → CStmt)
    {m i : Nat}
    (hstep : ∀ j env, i ≤ j → j < i + m → inv j env →
      ∃ env', run size (body j) env = some env' ∧ inv (j + 1) env')
    {env : CEnv} (henv : inv i env) :
    ∃ env', run size (.block ((List.range' i m).map body)) env = some env' ∧ inv (i + m) env' := by
  induction m generalizing i env with
  | zero => exact ⟨env, rfl, henv⟩
  | succ m ih =>
    obtain ⟨env₁, hrun₁, henv₁⟩ := hstep i env (le_refl i) (by omega) henv
    obtain ⟨env₂, hrun₂, henv₂⟩ := ih (i := i + 1)
      (fun j env hle hlt => hstep j env (by omega) (by omega)) henv₁
    refine ⟨env₂, ?_, by rwa [show i + (m + 1) = i + 1 + m by omega]⟩
    rw [List.range'_succ, List.map_cons, Stmt.block, run_seq, hrun₁, Option.bind_some, hrun₂]

theorem run_block_range (size : LimbSize) (inv : Nat → CEnv → Prop) (body : Nat → CStmt) {m : Nat}
    {env : CEnv} (henv : inv 0 env)
    (hstep : ∀ j env, j < m → inv j env → ∃ env', run size (body j) env = some env' ∧
      inv (j + 1) env') :
    ∃ env', run size (.block ((List.range m).map body)) env = some env' ∧ inv m env' := by
  obtain ⟨env', hrun, henv'⟩ := run_block_range' size inv body (i := 0) (m := m)
    (fun j env _ hj => hstep j env (by omega)) henv
  rw [← List.range_eq_range'] at hrun
  rw [Nat.zero_add] at henv'
  exact ⟨env', hrun, henv'⟩

/-- A statement after an assignment to a local. -/
theorem Computes.after_loc {size : LimbSize} {env : CEnv} {s t : CStmt} {x : String} {u : Value}
    {y : Var} {v : Nat} (hs : run size s env = some (env.set (.loc x) u))
    (ht : Computes size (env.set (.loc x) u) t y v) : Computes size env (.seq s t) y v := by
  obtain ⟨hv, env', hrun, hy, harray, hwires⟩ := ht
  refine ⟨hv, env', ?_, hy, harray, fun w hw => ?_⟩
  · rw [run_seq, hs, Option.bind_some, hrun]
  · rw [hwires w hw]
    exact env.scalar_set_ne (wire_ne_loc w x) u

theorem Computes.before_skip {size : LimbSize} {env : CEnv} {s : CStmt} {y : Var} {v : Nat}
    (hs : Computes size env s y v) : Computes size env (.seq s .skip) y v := by
  obtain ⟨hv, env', hrun, hrest⟩ := hs
  exact ⟨hv, env', by rw [run_seq, hrun]; rfl, hrest⟩

end Yosys.Rtlil
