import Sv2ghdl.Smt.Solver
import Sv2ghdl.Yosys.Shape

/-!
# Coverage closure

`yosys/cover_solve.cpp`: the transition relation of a module is unrolled from the reset state, and a
solver is asked for inputs with which a signal takes a value.
-/

open Smt

namespace Yosys.Cover

open Rtlil

/-! ## The module -/

/-- The single bit of an enable or a reset, and the level at which it is active. -/
structure Control where
  bit : SigBit
  polarity : Bool
  deriving DecidableEq

def Control.active (σ : Valuation) (c : Control) : Bool := c.bit.value σ == c.polarity

/-- `$dff`, `$dffe`, `$adff`, `$adffe`, `$sdff` and `$sdffe`.  Each reset has its value.  `init` is
    what a register without a reset holds at first. -/
structure Flop where
  name : String
  q : SigSpec
  d : SigSpec
  en : Option Control
  arst : Option (Control × List State)
  srst : Option (Control × List State)
  init : Nat
  d_size : d.length = q.length

structure Design where
  /-- `mod->wires_`, in the order of the iteration -/
  wires : List Wire
  input : Wire → Bool
  sigmap : SigBit → SigBit
  /-- The combinational cells, each once, in the order of `sorted`. -/
  cells : List Cell
  flops : List Flop

/-! ## The meaning of a module -/

def Flop.load (σ : Valuation) (f : Flop) : Nat :=
  if f.en.all (Control.active σ) then value σ f.d else value σ f.q

def resetValue (data : List State) : Nat := ofBits (data.map (· = .s1))

/-- What a register holds in the next cycle: an async reset acts at once, and a sync reset at the edge,
    before the enable. -/
def Flop.next (σ σ' : Valuation) (f : Flop) : Nat :=
  match f.arst.filter fun r => r.1.active σ || r.1.active σ' with
  | some r => resetValue r.2
  | none =>
    match f.srst.filter fun r => r.1.active σ with
    | some r => resetValue r.2
    | none => f.load σ

/-- The reset state. -/
def Flop.resetState (f : Flop) : Nat :=
  match f.arst.or f.srst with
  | some r => resetValue r.2
  | none => f.init

/-- The output of a cell, as its library defines it. -/
def out (σ : Valuation) (c : Cell) : Nat :=
  c.type.value c.aSigned c.bSigned c.A.length c.B.length c.Y.length (value σ c.A) (value σ c.B)
    (value σ c.S)

/-- The values of the wires in each cycle of a simulation from the reset state. -/
structure Simulates (D : Design) (run : Nat → Valuation) : Prop where
  joined : ∀ n b, (D.sigmap b).value (run n) = b.value (run n)
  cells : ∀ n, ∀ c ∈ D.cells, value (run n) c.Y = out (run n) c
  start : ∀ f ∈ D.flops, value (run 0) f.q = f.resetState
  step : ∀ n, ∀ f ∈ D.flops, value (run (n + 1)) f.q = f.next (run n) (run (n + 1))

/-! ## Names and registers -/

def znameChar (c : Char) : List Char :=
  if c = '\\' ∨ c = '$' ∨ c = '.' ∨ c = '/' then ['_']
  else if c = '[' then ['_']
  else if c = ']' then []
  else [c]

def zname (s : String) : String :=
  let r := s.toList.flatMap znameChar
  match r with
  | c :: _ => if '0' ≤ c ∧ c ≤ '9' then String.ofList ("w_".toList ++ r) else String.ofList r
  | [] => ""

/-- A number that is shifted together in 64 bits. -/
def bits64 (data : List State) : Nat := resetValue data % 2 ^ 64

structure RegInfo where
  name : String
  width : Nat
  arstVal : Nat
  d : SigSpec
  en : Option Control

/-- The name of a register is that of the first wire of its output, or of the cell when an earlier
    register has taken that. -/
def regInfos : List String → List Flop → List RegInfo
  | _, [] => []
  | used, f :: fs =>
    let first := match chunks f.q with
      | .wire w _ _ :: _ => zname w.name
      | _ => zname f.name
    let name := if first ∈ used then zname f.name else first
    { name := name
      width := f.q.length
      arstVal := (f.arst.map fun r => bits64 r.2).getD 0
      d := f.d
      en := f.en } :: regInfos (name :: used) fs

/-! ## The query -/

/-- `c<cycle>_<name>`; the number ends at the first underscore. -/
abbrev Var := Nat × String

section Encoding

variable (zeroSort : Bool) (D : Design)

def Design.regs : List RegInfo := regInfos [] D.flops

def chunkTerm (cycle : Nat) : Chunk → Build Var (Term Var)
  | .wire w offset width => do
    let base ← Build.getVar zeroSort (cycle, zname w.name) w.width
    if offset = 0 ∧ width = w.width then pure base
    else Build.lift (base.mkExtract (offset + width - 1) offset)
  | .const data => Build.bvVal zeroSort (bits64 data) data.length

def concatTerm (cycle : Nat) (result : Term Var) : List Chunk → Build Var (Term Var)
  | [] => pure result
  | c :: cs => do
    let part ← chunkTerm zeroSort cycle c
    concatTerm cycle (.concat part result) cs

/-- `sig_to_z3` -/
def sigToZ3 (sig : SigSpec) (cycle : Nat) : Build Var (Term Var) :=
  let mapped := sig.map D.sigmap
  match chunks mapped with
  | [] => Build.bvVal zeroSort 0 1
  | [c] => chunkTerm zeroSort cycle c
  | c :: cs => do
    -- `result` starts as a constant without bits
    let _ ← Build.bvVal zeroSort 0 0
    let part ← chunkTerm zeroSort cycle c
    concatTerm zeroSort cycle part cs

/-- The operands that the encoding of a cell reads, in order. -/
def operands (c : Cell) : List SigSpec :=
  let yw := c.Y.length
  match c.type with
  | .add | .sub | .and | .or | .xor | .mul | .eq | .ne | .lt | .shl | .shr => [c.A, c.B]
  | .not | .logicNot | .reduceOr | .reduceBool | .reduceAnd => [c.A]
  | .mux => [c.S, c.A, c.B]
  | .pmux => c.A :: (List.range c.S.length).flatMap fun i =>
      [(c.S.drop i).take 1, (c.B.drop (i * yw)).take yw]
  | _ => []

/-- `norm1`: an operand is cut, or extended with zeros whether it is signed or not. -/
def norm (t : Term Var) (w : Nat) : Option (Term Var) :=
  if t.width < w then some (.zext (w - t.width) t)
  else if w < t.width then t.mkExtract (w - 1) 0
  else some t

def bit (yw : Nat) (r : Rel) (a b : Term Var) : Option (Term Var) :=
  Term.mkIte r a b (.val 1 yw) (.val 0 yw)

def pmuxTerm (result : Term Var) : List (Term Var) → Option (Term Var)
  | s :: b :: ts => do
    let result ← Term.mkIte .eq s (.val 1 1) b result
    pmuxTerm result ts
  | _ => some result

def binary (type : CellType) (isSigned : Bool) (yw : Nat) (a b : Term Var) : Option (Term Var) := do
  let op (op : BinOp) : Option (Term Var) := do (← norm a yw).mkBin op (← norm b yw)
  let compare (r : Rel) : Option (Term Var) := do
    let w := max a.width b.width
    bit yw r (← norm a w) (← norm b w)
  match type with
  | .add => op .add
  | .sub => op .sub
  | .and => op .and
  | .or => op .or
  | .xor => op .xor
  | .mul => op .mul
  | .shl => op .shl
  | .shr => op .lshr
  | .eq => compare .eq
  | .ne => compare .ne
  | .lt => compare (if isSigned then .slt else .ult)
  | _ => none

/-- What the output is asserted to be; `none` for a cell that is left out. -/
def combine (c : Cell) (ts : List (Term Var)) : Option (Term Var) :=
  let yw := c.Y.length
  match c.type, ts with
  | .not, [a] => do some (.not (← norm a yw))
  | .logicNot, [a] => bit yw .eq a (.val 0 a.width)
  | .reduceOr, [a] | .reduceBool, [a] => bit yw .ne a (.val 0 a.width)
  | .reduceAnd, [a] => bit yw .eq a (.val (if a.width ≥ 64 then 2 ^ 64 - 1 else 2 ^ a.width - 1) a.width)
  | .mux, [s, a, b] => do Term.mkIte .eq s (.val 1 s.width) (← norm b yw) (← norm a yw)
  | .pmux, a :: ts => pmuxTerm a ts
  | type, [a, b] => binary type c.aSigned yw a b
  | _, _ => none

def operandTerms (cycle : Nat) : List SigSpec → Build Var (List (Term Var))
  | [] => pure []
  | sig :: sigs => do
    let t ← sigToZ3 zeroSort D sig cycle
    let ts ← operandTerms cycle sigs
    pure (t :: ts)

/-- The body of the `try` for a cell. -/
def constrain (y : Term Var) (c : Cell) (cycle : Nat) : Build Var Unit := do
  let ts ← operandTerms zeroSort D cycle (operands c)
  let t ← Build.lift (combine c ts)
  Build.assertEq y t

/-- `build_cycle`, for a cell -/
def buildCell (cycle : Nat) (c : Cell) : Build Var Unit :=
  match chunks c.Y with
  | .wire w _ _ :: _ => do
    let y ← Build.getVar zeroSort (cycle, zname w.name) c.Y.length
    Build.attempt (constrain zeroSort D y c cycle)
  | _ => pure ()

/-- "Set initial state" -/
def initReg (r : RegInfo) : Build Var Unit := do
  let r0 ← Build.getVar zeroSort (0, r.name) r.width
  let v ← Build.bvVal zeroSort r.arstVal r.width
  Build.assertEq r0 v

/-- "Register updates": `reg[c+1] = D[c]`, with the enable, and whatever the resets are. -/
def updateReg (cycle : Nat) (r : RegInfo) : Build Var Unit := do
  let next ← Build.getVar zeroSort (cycle + 1, r.name) r.width
  let d ← sigToZ3 zeroSort D r.d cycle
  let curr ← Build.getVar zeroSort (cycle, r.name) r.width
  let d ← Build.lift (norm d r.width)
  match r.en with
  | none => Build.assertEq next d
  | some en =>
    let e ← sigToZ3 zeroSort D [en.bit] cycle
    let t ← Build.lift (if en.polarity then Term.mkIte .eq e (.val 1 e.width) d curr
      else Term.mkIte .eq e (.val 1 e.width) curr d)
    Build.assertEq next t

def contains (sub s : String) : Bool := (List.range (s.length + 1)).any fun i =>
  sub.toList.isPrefixOf (s.toList.drop i)

/-- The first input that has "rst" in its name. -/
def Design.resetWire : Option Wire :=
  D.wires.find? fun w => contains "rst" (zname w.name) && D.input w

def assertInput (w : Wire) (v cycle : Nat) : Build Var Unit := do
  let x ← Build.getVar zeroSort (cycle, zname w.name) w.width
  let v ← Build.bvVal zeroSort v w.width
  Build.assertEq x v

/-- The reset input is 0 in cycle 0 and 1 from then on. -/
def assertReset (depth : Nat) : Build Var Unit :=
  match D.resetWire with
  | none => pure ()
  | some w => do
    assertInput zeroSort w 0 0
    (List.range' 1 depth).forM (assertInput zeroSort w 1)

def buildCycle (cycle : Nat) : Build Var Unit := do
  D.cells.forM (buildCell zeroSort D cycle)
  D.regs.forM (updateReg zeroSort D cycle)

def unroll (depth : Nat) : Build Var Unit := do
  D.regs.forM (initReg zeroSort)
  assertReset zeroSort D depth
  (List.range depth).forM (buildCycle zeroSort D)

/-- The width of a target, 0 when there is none of the name. -/
def Design.targetWidth (sig : String) : Nat :=
  match D.regs.find? (·.name = sig) with
  | some r => r.width
  | none => ((D.wires.reverse.find? fun w => zname w.name = sig).map Wire.width).getD 0

/-- "Try to reach this value at any cycle" -/
def reachAny (sig : String) (width val : Nat) : List Nat → Build Var (List (Term Var × Term Var))
  | [] => pure []
  | cycle :: cycles => do
    let v ← Build.getVar zeroSort (cycle, sig) width
    let b ← Build.bvVal zeroSort val width
    let rest ← reachAny sig width val cycles
    pure ((v, b) :: rest)

/-- The query for a target; `none` when the target is not found, or after an exception. -/
def query (depth : Nat) (sig : String) (val : Nat) :
    Option (Solver Var × List (Term Var × Term Var)) :=
  let width := D.targetWidth sig
  if width = 0 then none
  else
    let run := do
      unroll zeroSort D depth
      reachAny zeroSort sig width val (List.range' 1 depth)
    match run (Solver.empty Var) with
    | (some goal, s) => some (s, goal)
    | (none, _) => none

end Encoding

/-! ## The answer -/

/-- What is printed for a target that is reached: the cycle, and the inputs. -/
structure Reachable where
  cycle : Nat
  inputs : List (Nat × String × Nat)
  deriving DecidableEq

/-- `get_numeral_uint64`, with 0 for what the model leaves open; `none` is the exception. -/
def got (m : Var → Option Nat) (x : Var) : Option Nat :=
  match m x with
  | some v => if v < 2 ^ 64 then some v else none
  | none => some 0

/-- The first cycle in which the model gives the target its value. -/
def hit (m : Var → Option Nat) (sig : String) (val : Nat) : List Nat → Option Nat
  | [] => none
  | c :: cs => do
    let v ← got m (c, sig)
    if v = val then some c else hit m sig val cs

/-- An input that is in the printed sequence. -/
def Design.printed (D : Design) (w : Wire) : Bool :=
  D.input w && !contains "clk" (zname w.name) && !contains "rst" (zname w.name)

def printInputs (D : Design) (m : Var → Option Nat) (c : Nat) : List (Nat × String × Nat) :=
  (D.wires.filter D.printed).flatMap fun w => (List.range (c + 1)).filterMap fun ic =>
    (m (ic, zname w.name)).map fun v => (ic, zname w.name, v)

/-- `none` also when a number that is printed does not fit, which ends the program. -/
def report (D : Design) (depth : Nat) (sig : String) (val : Nat) (m : Var → Option Nat) :
    Option Reachable := do
  let c ← hit m sig val (List.range' 1 depth)
  let inputs := printInputs D m c
  if inputs.all fun p => p.2.2 < 2 ^ 64 then some ⟨c, inputs⟩ else none

end Yosys.Cover
