import Sv2ghdl.Graph.PostOrder
import Sv2ghdl.Graph.Worklist
import Sv2ghdl.Lists.OrderedDict
import Sv2ghdl.Lists.StableSort
import Sv2ghdl.Yosys.Bench

/-!
# Cones of bench netlists

`yosys/cone_slice.py`: the combinational cone of one net of a full-scan `.bench` file is written as a bench
file of its own, with the constants folded and the buffers removed.
-/

open Python

namespace Yosys.ConeSlice

open Bench (Interpreter Line)

structure Gate where
  op : Str
  args : List Str
  deriving DecidableEq

/-- `inputs` and `gate_of` -/
structure Netlist where
  inputs : List Str
  gateOf : OrderedDict Str Gate

/-! ## Reading the file -/

section Read

variable (P : Interpreter)

/-- `\\w` -/
def isWord (c : CodePoint) : Bool := P.isAlnum c || c = '_'

/-- `re.match(r'INPUT\\((\\w+)\\)', s)` -/
def matchInput (s : Str) : Option Str :=
  let rest := s.drop 6
  let name := rest.takeWhile (isWord P)
  if (str "INPUT(").isPrefixOf s ∧ name ≠ [] ∧ (rest.drop name.length).head? = some ')' then some name else none

/-- `re.match(r'(\\w+)\\s*=\\s*(\\w+)\\((.*)\\)', s)`, in a line without line breaks, with the arguments split. -/
def matchGate (s : Str) : Option (Str × Gate) :=
  let net := s.takeWhile (isWord P)
  let rest := (s.drop net.length).dropWhile CodePoint.isSpace
  let value := (rest.drop 1).dropWhile CodePoint.isSpace
  let op := value.takeWhile (isWord P)
  let call := value.drop op.length
  if net ≠ [] ∧ rest.head? = some '=' ∧ op ≠ [] ∧ call.head? = some '(' ∧ (')' : CodePoint) ∈ call then
    let inside := ((call.drop 1).reverse.dropWhile (· ≠ (')' : CodePoint))).drop 1
    some (net, ⟨op, (inside.reverse.splitOn (',' : CodePoint)).map Str.strip⟩)
  else none

def Netlist.readLine (N : Netlist) (line : Str) : Netlist :=
  let s := Str.strip line
  match matchInput P s with
  | some name => { N with inputs := name :: N.inputs }
  | none =>
    match matchGate P s with
    | some (net, gate) => { N with gateOf := N.gateOf.set net gate }
    | none => N

def Netlist.read (lines : List Str) : Netlist := lines.foldl (Netlist.readLine P) ⟨[], .empty⟩

end Read

/-! ## The cone -/

namespace Netlist

variable (N : Netlist)

def args (net : Str) : List Str := (N.gateOf.lookup net).elim [] Gate.args

/-- `cone` and `support` -/
structure Reached where
  cone : List Str
  support : List Str

/-- One turn of the loop, for a net that is in neither set: the last argument is looked at first. -/
def look (net : Str) (r : Reached) : Reached × List Str :=
  if net ∈ N.inputs ∨ (N.gateOf.lookup net).isNone then ({ r with support := net :: r.support }, [])
  else ({ r with cone := net :: r.cone }, (N.args net).reverse)

/-- The backward reachability from the target. -/
def reached (target : Str) : Option Reached :=
  let pushes := (N.gateOf.keys.map fun net => (N.args net).length).sum
  Worklist.walk N.look (1 + pushes) [] [target] ⟨[], []⟩

/-- The nets that `visit` goes on to. -/
def coneArgs (r : Reached) (net : Str) : List Str := (N.args net).filter (· ∈ r.cone)

/-- `topo` -/
def topo (r : Reached) (target : Str) : Option (List Str) :=
  if target ∈ r.support then some []
  else (PostOrder.visit (N.coneArgs r) r.cone.length ⟨[], []⟩ target).map PostOrder.State.sorted

end Netlist

/-! ## Folding -/

/-- What an argument stands for: a constant, or a net. -/
inductive Ref where
  | const (b : Bool)
  | net (n : Str)
  deriving DecidableEq

def Ref.net? : Ref → Option Str
  | .const _ => none
  | .net n => some n

def Ref.const? : Ref → Option Bool
  | .const b => some b
  | .net _ => none

def constName (b : Bool) : Str := if b then str "__const1" else str "__const0"

def Ref.name : Ref → Str
  | .const b => constName b
  | .net n => n

/-- `val`, `alias` and `newg` -/
structure Folds where
  val : OrderedDict Str Bool
  aliases : OrderedDict Str Str
  newg : OrderedDict Str Gate

namespace Folds

def setVal (net : Str) (b : Bool) (f : Folds) : Folds := { f with val := f.val.set net b }

def setAlias (net n : Str) (f : Folds) : Folds := { f with aliases := f.aliases.set net n }

def setGate (net : Str) (op : String) (args : List Str) (f : Folds) : Folds :=
  { f with newg := f.newg.set net ⟨str op, args⟩ }

/-- A net and what it stands for. -/
def setRef (net : Str) (f : Folds) : Ref → Folds
  | .const b => f.setVal net b
  | .net n => f.setAlias net n

/-- The loop of `R`, which stops at a name that it has seen. -/
def follow (aliases : OrderedDict Str Str) : Nat → List Str → Str → Str
  | 0, _, a => a
  | fuel + 1, seen, a =>
    match aliases.lookup a with
    | some b => if a ∈ seen then a else follow aliases fuel (a :: seen) b
    | none => a

/-- `R` -/
def resolve (f : Folds) (a : Str) : Ref :=
  let n := follow f.aliases (f.aliases.keys.length + 1) [] a
  match f.val.lookup n with
  | some b => .const b
  | none => .net n

/-- AND and NAND, where 0 decides, and OR and NOR, where 1 does. -/
def foldDecided (op : String) (decides inverts : Bool) (net : Str) (r : List Ref) (f : Folds) : Folds :=
  if .const decides ∈ r then f.setVal net (decides ^^ inverts)
  else
    match inverts, r.filterMap Ref.net? with
    | _, [] => f.setVal net (!decides ^^ inverts)
    | false, [n] => f.setAlias net n
    | _, nets => f.setGate net op nets

/-- The nets that occur an odd number of times. -/
def oddNets (nets : List Str) : List Str := (StableSort.firsts id nets).filter fun n => nets.count n % 2 = 1

def foldXor (net : Str) (r : List Ref) (f : Folds) : Folds :=
  let parity := (r.filterMap Ref.const?).foldl (· ^^ ·) false
  match parity, oddNets (r.filterMap Ref.net?) with
  | _, [] => f.setVal net parity
  | false, [n] => f.setAlias net n
  | true, [n] => f.setGate net "NOT" [n]
  | false, nets => f.setGate net "XOR" nets
  | true, nets => (f.setGate (net ++ str "__x") "XOR" nets).setGate net "NOT" [net ++ str "__x"]

/-- One turn of the folding loop; a gate always has an argument. -/
def foldGate (net : Str) (g : Gate) (f : Folds) : Option Folds :=
  let r := g.args.map f.resolve
  if g.op = str "BUFF" ∨ g.op = str "BUF" then r.head?.map (f.setRef net)
  else if g.op = str "NOT" then
    r.head?.map fun
      | .const b => f.setVal net !b
      | .net n => f.setGate net "NOT" [n]
  else if g.op = str "AND" then some (f.foldDecided "AND" false false net r)
  else if g.op = str "NAND" then some (f.foldDecided "NAND" false true net r)
  else if g.op = str "OR" then some (f.foldDecided "OR" true false net r)
  else if g.op = str "NOR" then some (f.foldDecided "NOR" true true net r)
  else if g.op = str "XOR" then some (f.foldXor net r)
  else some { f with newg := f.newg.set net ⟨g.op, r.map Ref.name⟩ }

end Folds

namespace Netlist

variable (N : Netlist)

def fold (topo : List Str) : Option Folds :=
  topo.foldlM (fun f net => (N.gateOf.lookup net).bind fun g => f.foldGate net g) ⟨.empty, .empty, .empty⟩

end Netlist

/-! ## The output -/

namespace Folds

/-- The driver of the target, and the constant that it needs. -/
def drive (target : Str) (f : Folds) : Folds × Option Bool :=
  match f.resolve target with
  | .const b => (f.setGate target "BUFF" [constName b], some b)
  | .net n => (if n ≠ target then f.setGate target "BUFF" [n] else f, none)

/-- The sources of the constants, from any input; there may be none to take. -/
def addConst (P : Interpreter) (N : Netlist) (r : Netlist.Reached) (need : Option Bool) (f : Folds) : Option Folds :=
  match need with
  | none => some f
  | some b =>
    (if r.support = [] then (P.setOrder N.inputs).head? else (StableSort.sortBy id r.support).head?).map fun pi0 =>
      let f := f.setGate (constName false) "XOR" [pi0, pi0]
      if b then f.setGate (constName true) "NOT" [constName false] else f

def args (f : Folds) (net : Str) : List Str := (f.newg.lookup net).elim [] Gate.args

/-- The nets that `mark` can come to. -/
def nets (f : Folds) (target : Str) : List Str := target :: f.newg.keys ++ f.newg.keys.flatMap f.args

/-- The nets that `mark` comes to. -/
def marked (f : Folds) (target : Str) : Option (List Str) :=
  (PostOrder.visit f.args (f.nets target).length ⟨[], []⟩ target).map PostOrder.State.visited

/-- `emit_order` -/
def emitOrder (f : Folds) (usedg : List Str) (target : Str) : Option (List Str) :=
  if target ∈ usedg then
    (PostOrder.visit (fun net => (f.args net).filter (· ∈ usedg)) usedg.length ⟨[], []⟩ target).map
      PostOrder.State.sorted
  else some []

end Folds

/-- The file that is written, but for its first line, which names the full file. -/
structure Cone where
  inputs : List Str
  target : Str
  lines : List Line

def Cone.text (c : Cone) : List Str :=
  c.inputs.map (fun i => str "INPUT(" ++ i ++ str ")") ++ [str "OUTPUT(" ++ c.target ++ str ")", []] ++
    c.lines.map Line.text

namespace Netlist

variable (P : Interpreter) (N : Netlist)

/-- The lines of the gates in the order in which they are emitted, and the inputs they need. -/
def emit (r : Reached) (f : Folds) (target : Str) : Option Cone := do
  let marked ← f.marked target
  let usedg := marked.filter fun net => (f.newg.lookup net).isSome
  let usedpi := marked.filter fun net =>
    (f.newg.lookup net).isNone && (decide (net ∈ N.inputs) || decide (net ∈ r.support))
  let order ← f.emitOrder usedg target
  return {
    inputs := StableSort.sortBy id usedpi
    target
    lines := order.filterMap fun net => (f.newg.lookup net).map fun g => ⟨net, g.op, g.args⟩ }

/-- The script after the file is read; `none` where it ends with an error. -/
def slice (target : Str) : Option Cone :=
  if (N.gateOf.lookup target).isNone ∧ target ∉ N.inputs then none
  else do
    let r ← N.reached target
    let topo ← N.topo r target
    let f ← N.fold topo
    let (f, need) := f.drive target
    let f ← f.addConst P N r need
    N.emit r f target

end Netlist

end Yosys.ConeSlice
