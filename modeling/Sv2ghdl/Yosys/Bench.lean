import Sv2ghdl.Vamos.Netlist.Number

/-!
# Bench netlists

`yosys/json2bench.py`: a netlist of primitive cells, read from JSON, is written in the `.bench` format
for test generation, every register as an input and an output.
-/

open Python Vamos.Netlist.Expression

namespace Yosys.Bench

/-! ## The module -/

/-- A bit of a signal: a net, or one of `"0"`, `"1"`, `"x"` and `"z"`. -/
inductive Bit where
  | net (id : Nat)
  | const (s : Str)
  deriving DecidableEq, Repr

structure Port where
  name : Str
  direction : Str
  bits : List Bit

structure Cell where
  name : Str
  type : Str
  connections : List (Str × List Bit)

/-- A module of the JSON netlist, with the lines of the register manifest. -/
structure Module where
  ports : List Port
  netnames : List (Str × List Bit)
  cells : List Cell
  regnames : List Str

/-- What the interpreter knows of characters, and the order in which it goes through a set. -/
structure Interpreter where
  isAlnum : CodePoint → Bool
  isDigit : CodePoint → Bool
  setOrder : List Str → List Str
  isAlnum_ascii : ∀ c, c.val < 128 → isAlnum c = c.isAsciiAlnum
  isAlnum_space : ∀ c, isAlnum c = true → c.isSpace = false
  setOrder_perm : ∀ l, (setOrder l).Perm l.dedup

/-! ## Names -/

section Names

variable (P : Interpreter)

def sanitize (nm : Str) : Str :=
  let s := nm.map fun ch => if P.isAlnum ch || ch = '_' then ch else ('_' : CodePoint)
  let s := if s.head?.any P.isDigit then str "w_" ++ s else s
  if s = [] then str "n" else s

/-- The name of the bit `i` of `len`. -/
def suffixed (nm : Str) (len i : Nat) : Str :=
  if len = 1 then nm else nm ++ ('_' : CodePoint) :: natText i

/-- `names` -/
abbrev Names := List (Nat × Str)

/-- Names for the bits that have none. -/
def claimBits (nm : Str) (bits : List Bit) (names : Names) : Names :=
  bits.zipIdx.foldl (fun names p =>
    match p.1 with
    | .net b =>
      if (names.lookup b).isNone then (b, suffixed nm bits.length p.2) :: names else names
    | .const _ => names) names

namespace Module

variable (M : Module)

def claim (names : Names) (wname : Str) : Names :=
  match M.netnames.lookup wname with
  | some bits => claimBits (sanitize P wname) bits names
  | none => names

def priority : List Str := (M.regnames.map Str.strip).filter (· ≠ [])

/-- The names after the wires of the manifest, the ports and the other wires. -/
def claimed : Names :=
  let names := M.priority.foldl (M.claim P) []
  let names := M.ports.foldl (fun names p => claimBits p.name p.bits names) names
  ((M.netnames.map Prod.fst).filter fun wname => !(str "$").isPrefixOf wname).foldl (M.claim P) names

/-- `CLOCKS` -/
def clocks : List Str := [str "clk", str "_clk"]

def portBits (ports : List Port) : List (Str × Bit) :=
  ports.flatMap fun p => p.bits.zipIdx.map fun b => (suffixed p.name p.bits.length b.2, b.1)

def inPorts : List (Str × Bit) :=
  portBits (M.ports.filter fun p => p.direction = str "input" && p.name ∉ clocks)

/-- `out_ports` -/
def outPorts : List (Str × Bit) := portBits (M.ports.filter fun p => p.direction = str "output")

end Module

end Names

/-! ## Lines -/

/-- A line `target = op(args)`. -/
structure Line where
  target : Str
  op : Str
  args : List Str
  deriving DecidableEq

def Line.text (l : Line) : Str :=
  l.target ++ str " = " ++ l.op ++ str "(" ++ (str ", ").intercalate l.args ++ str ")"

/-- What `re.findall(r'\\((.*)\\)', l)` finds first, in a line without line breaks. -/
def inParens (s : Str) : Str :=
  let rest := (s.dropWhile (· ≠ ('(' : CodePoint))).drop 1
  ((rest.reverse.dropWhile (· ≠ (')' : CodePoint))).drop 1).reverse

/-- `parse_line` -/
def parseLine (s : Str) : Str × List Str :=
  (Str.strip (s.takeWhile (· ≠ ('=' : CodePoint))),
    ((inParens s).splitOn (',' : CodePoint)).map Str.strip)

/-! ## The writer -/

/-- The stems that `fresh` is called with. -/
inductive Stem where
  | n | const0 | c0b | const1
  deriving DecidableEq, Repr

def Stem.text : Stem → Str
  | .n => str "n"
  | .const0 => str "const0_"
  | .c0b => str "c0b_"
  | .const1 => str "const1_"

/-- The variables of the script; `synth` are the nets that it made for no bit. -/
structure State where
  names : Names
  uid : Nat
  synth : List Str
  lines : List Line
  inputs : List Str
  outputs : List Str
  dffs : List (Str × Str)
  ppiNames : List Str
  c0root : Option Str
  c0pool : List Str
  c0use : Nat

namespace State

def fresh (stem : Stem) (s : State) : Str × State :=
  (stem.text ++ natText (s.uid + 1), { s with uid := s.uid + 1 })

/-- A fresh net for no bit. -/
def newNet (stem : Stem) (s : State) : Str × State :=
  let (n, s) := s.fresh stem
  (n, { s with synth := n :: s.synth })

def bitName (b : Bit) (s : State) : Str × State :=
  match b with
  | .const c => (if c = str "0" ∨ c = str "x" ∨ c = str "z" then str "#0" else str "#1", s)
  | .net id =>
    match s.names.lookup id with
    | some n => (n, s)
    | none =>
      let (n, s) := s.fresh .n
      (n, { s with names := (id, n) :: s.names })

def bitNames : List Bit → State → List Str × State
  | [], s => ([], s)
  | b :: bs, s =>
    let (n, s) := s.bitName b
    let (ns, s) := bitNames bs s
    (n :: ns, s)

def addLine (target op : Str) (args : List Str) (s : State) : State :=
  { s with lines := s.lines ++ [⟨target, op, args⟩] }

/-- The root of the constant nets, made at the first use. -/
def constRoot (s : State) : Str × State :=
  match s.c0root with
  | some root => (root, s)
  | none =>
    let s0 := s.inputs.head?.getD (str "G0")
    let (root, s) := s.newNet .const0
    (root, { s with c0root := some root }.addLine root (str "XOR") [s0, s0])

/-- Every 300 uses have a buffer of their own. -/
def constBuffer (root : Str) (s : State) : State :=
  if s.c0use % 300 = 0 then
    let (b, s) := s.newNet .c0b
    let s := s.addLine b (str "BUFF") [root]
    { s with c0pool := s.c0pool ++ [b] }
  else s

def const0 (s : State) : Option (Str × State) :=
  let (root, s) := s.constRoot
  let s := s.constBuffer root
  let s := { s with c0use := s.c0use + 1 }
  (s.c0pool[(s.c0use - 1) / 300]?).map fun n => (n, s)

def const1 (s : State) : Option (Str × State) := do
  let (c1, s) := s.newNet .const1
  let (c0, s) ← s.const0
  return (c1, s.addLine c1 (str "NOT") [c0])

def substOne (i : Str) (s : State) : Option (Str × State) :=
  if i = str "#0" then s.const0 else if i = str "#1" then s.const1 else some (i, s)

def subst : List Str → State → Option (List Str × State)
  | [], s => some ([], s)
  | i :: is, s => do
    let (a, s) ← s.substOne i
    let (as, s) ← subst is s
    return (a :: as, s)

def gate (op : String) (y : Str) (ins : List Str) (s : State) : Option State := do
  let (args, s) ← s.subst ins
  return s.addLine y (str op) args

/-! ## Ports and cells -/

def addOutput (o : Str) (s : State) : State := { s with outputs := s.outputs ++ [o] }

def addDff (q dc : Str) (s : State) : State :=
  { s with dffs := s.dffs ++ [(q, dc)], ppiNames := s.ppiNames ++ [q] }

def outPort (s : State) (p : Str × Bit) : Option State := do
  let (drv, s) := s.bitName p.2
  if drv = p.1 then return s.addOutput p.1
  else
    let s ← s.gate "BUFF" p.1 [drv]
    return s.addOutput p.1

end State

/-- `SIMPLE` -/
def simpleOp (t : Str) : Option String :=
  [("$_AND_", "AND"), ("$_OR_", "OR"), ("$_NAND_", "NAND"), ("$_NOR_", "NOR"), ("$_XOR_", "XOR"),
    ("$_XNOR_", "XNOR"), ("$_NOT_", "NOT"), ("$_BUF_", "BUFF")].findSome? fun e =>
    if str e.1 = t then some e.2 else none

namespace Cell

variable (c : Cell)

def bit (port : String) : Option Bit := (c.connections.lookup (str port)).bind fun bits => bits[0]?

def has (port : String) : Bool := (c.connections.lookup (str port)).isSome

def isDff : Bool := (str "$_DFF").isPrefixOf c.type || (str "$_SDFF").isPrefixOf c.type

/-- `t.split('_')[i]` -/
def typePart (i : Nat) : Option Str := (c.type.splitOn ('_' : CodePoint))[i]?

end Cell

namespace State

/-- The synchronous reset of a `$_SDFF*` cell, folded into the data. -/
def foldReset (c : Cell) (dcone : Str) (s : State) : Option (Str × State) := do
  let (r, s) := s.bitName (← c.bit "R")
  let pol ← c.typePart 2
  let rpol ← pol[1]?
  let rval ← pol[2]?
  let (ract, s) ←
    (if rpol = ('P' : CodePoint) then some (r, s)
    else
      let (nr, s) := s.newNet .n
      (s.gate "NOT" nr [r]).map fun s => (nr, s))
  let (nd, s) := s.newNet .n
  if rval = ('0' : CodePoint) then do
    let (na, s) := s.newNet .n
    let s ← s.gate "NOT" na [ract]
    return (nd, ← s.gate "AND" nd [dcone, na])
  else return (nd, ← s.gate "OR" nd [dcone, ract])

/-- The enable, folded into the data. -/
def foldEnable (c : Cell) (q dcone : Str) (s : State) : Option (Str × State) := do
  let (e, s) := s.bitName (← c.bit "E")
  let (ne, s) := s.newNet .n
  let (t1, s) := s.newNet .n
  let (t2, s) := s.newNet .n
  let (nd, s) := s.newNet .n
  let s ← s.gate "NOT" ne [e]
  let s ← s.gate "AND" t1 [dcone, e]
  let s ← s.gate "AND" t2 [q, ne]
  return (nd, ← s.gate "OR" nd [t1, t2])

def simple (c : Cell) (op : String) (s : State) : Option State := do
  let (y, s) := s.bitName (← c.bit "Y")
  let ins ← (["A", "B"].filter c.has).mapM c.bit
  let (ins, s) := s.bitNames ins
  s.gate op y ins

def mux (c : Cell) (s : State) : Option State := do
  let (a, s) := s.bitName (← c.bit "A")
  let (b, s) := s.bitName (← c.bit "B")
  let (sel, s) := s.bitName (← c.bit "S")
  let (y, s) := s.bitName (← c.bit "Y")
  let (ns, s) := s.newNet .n
  let (t1, s) := s.newNet .n
  let (t2, s) := s.newNet .n
  let s ← s.gate "NOT" ns [sel]
  let s ← s.gate "AND" t1 [a, ns]
  let s ← s.gate "AND" t2 [b, sel]
  s.gate "OR" y [t1, t2]

def dff (c : Cell) (s : State) : Option State := do
  let (q, s) := s.bitName (← c.bit "Q")
  let (dcone, s) := s.bitName (← c.bit "D")
  let (dcone, s) ← (if (str "$_SDFF").isPrefixOf c.type then s.foldReset c dcone else some (dcone, s))
  let part ← c.typePart 1
  let (dcone, s) ← (if ('E' : CodePoint) ∈ part then s.foldEnable c q dcone else some (dcone, s))
  return s.addDff q dcone

/-- A cell of another type ends the script. -/
def cell (s : State) (c : Cell) : Option State :=
  match simpleOp c.type with
  | some op => s.simple c op
  | none =>
    if c.type = str "$_MUX_" then s.mux c
    else if c.isDff then s.dff c
    else if c.type = str "$scopeinfo" then some s
    else none

/-! ## Floating nets and unused inputs -/

def drivenNames (s : State) : List Str :=
  s.inputs ++ s.ppiNames ++ s.lines.map fun l => (parseLine l.text).1

def referenced (s : State) : List Str :=
  s.outputs ++ s.dffs.map Prod.snd ++ s.lines.flatMap fun l => (parseLine l.text).2

def floating (P : Interpreter) (s : State) : List Str :=
  (P.setOrder s.referenced).filter fun n => n ∉ s.drivenNames && !(str "const").isPrefixOf n

def tie (s : State) (n : Str) : Option State := do
  let (c0, s) ← s.const0
  return s.addLine n (str "BUFF") [c0]

/-- The loop that ties floating nets and drops unused inputs, for at most `fuel` passes. -/
def sweep (P : Interpreter) : Nat → State → Option State
  | 0, _ => none
  | fuel + 1, s =>
    if s.floating P ≠ [] then do
      let s ← (s.floating P).foldlM tie s
      sweep P fuel s
    else
      let newIn := s.inputs.filter (· ∈ s.referenced)
      let newPpi := s.ppiNames.filter (· ∈ s.referenced)
      if newIn.length = s.inputs.length ∧ newPpi.length = s.ppiNames.length then some s
      else sweep P fuel { s with inputs := newIn, ppiNames := newPpi }

/-- The data of the registers as they are written, with the constants made. -/
def nextData : List (Str × Str) → State → Option State
  | [], s => some s
  | d :: ds, s => do
    let (_, s) ← s.subst [d.2]
    nextData ds s

end State

/-! ## The file -/

def next (q : Str) : Str := str "next_" ++ q

/-- What is written; `names` and `synth` tell which nets the names stand for. -/
structure Output where
  names : Names
  synth : List Str
  inputs : List Str
  registers : List Str
  outputs : List Str
  lines : List Line

namespace Module

variable (P : Interpreter) (M : Module)

def start : State where
  names := M.claimed P
  uid := 0
  synth := []
  lines := []
  inputs := M.inPorts.map Prod.fst
  outputs := []
  dffs := []
  ppiNames := []
  c0root := none
  c0pool := []
  c0use := 0

/-- The script, where its loop ends within `fuel` passes. -/
def bench (fuel : Nat) : Option Output := do
  let s ← M.outPorts.foldlM State.outPort (M.start P)
  let s ← M.cells.foldlM State.cell s
  let s ← s.sweep P fuel
  let dffs := s.dffs.filter fun d => d.1 ∈ s.ppiNames
  let s ← s.nextData dffs
  return ⟨s.names, s.synth, s.inputs, dffs.map Prod.fst, s.outputs, s.lines⟩

end Module

end Yosys.Bench
