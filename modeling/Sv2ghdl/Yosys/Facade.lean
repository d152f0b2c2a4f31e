import Sv2ghdl.Syntax.Nesting
import Sv2ghdl.Yosys.Sigspec

/-!
# The direct builder

The calls `gsm_rtlil_*` of `yosys/gen_statemachine.cpp`, by which a host builds a design, and the session that they
share. Pointers into the design are places in its lists, which only grow.
-/

open Yosys.Rtlil Pieces

namespace Yosys.Facade

/-! ## The design -/

abbrev SigSig := SigSpec × SigSpec

structure WireDecl where
  wire : Wire
  portInput : Bool
  portOutput : Bool
  init : Option (List State)

structure Memory where
  name : Id
  width : Int
  size : Int

/-- `STp`, `STn`, `ST1`, `ST0`, `STa` and `STi` -/
inductive SyncType where
  | posedge
  | negedge
  | level1
  | level0
  | always
  | init
  deriving DecidableEq

structure MemWrite where
  memid : Id
  address : SigSpec
  data : SigSpec
  enable : SigSpec

structure MemWriteAction extends MemWrite where
  priorityMask : List State

structure SyncRule (ω : Type) where
  type : SyncType
  signal : SigSpec
  actions : List SigSig
  memWriteActions : List ω

/-- A cell, as what the call hands to yosys. -/
inductive Cell where
  | bin (type : String) (name : Id) (a b y : SigSpec) (isSigned : Bool)
  | un (type : String) (name : Id) (a y : SigSpec) (isSigned : Bool)
  | inst (type name : Id) (ports : List (Id × SigSpec))
  | mux (name : Id) (a b s y : SigSpec)
  | memrd (name memid : Id) (addr data : SigSpec)

def Cell.name : Cell → Id
  | .bin _ name _ _ _ _ => name
  | .un _ name _ _ _ => name
  | .inst _ name _ => name
  | .mux name _ _ _ _ => name
  | .memrd name _ _ _ => name

def setPort (ports : List (Id × SigSpec)) (port : Id × SigSpec) : List (Id × SigSpec) :=
  ports.filter (·.1 ≠ port.1) ++ [port]

def Cell.setPort (port : Id × SigSpec) : Cell → Cell
  | .inst type name ports => .inst type name (Facade.setPort ports port)
  | c => c

/-- A process whose decision tree is kept as a `τ`. -/
structure Process (τ ω : Type) where
  name : Id
  tree : τ
  syncs : List (SyncRule ω)

structure Module (τ ω : Type) where
  name : Id
  wires : List WireDecl
  memories : List Memory
  /-- What `Module::connect` was handed. -/
  connections : List SigSig
  cells : List Cell
  processes : List (Process τ ω)

section Module

variable {τ ω : Type}

def Module.empty (name : Id) : Module τ ω := ⟨name, [], [], [], [], []⟩

def Module.wire? (m : Module τ ω) : Wires := fun id => (m.wires.map WireDecl.wire).find? (·.name = id)

def Module.memory? (m : Module τ ω) (id : Id) : Option Memory := m.memories.find? (·.name = id)

/-- The names that `count_id` counts. -/
def Module.ids (m : Module τ ω) : List Id :=
  m.wires.map (·.wire.name) ++ m.memories.map (·.name) ++ m.cells.map (·.name) ++ m.processes.map (·.name)

def Module.addWire (w : WireDecl) (m : Module τ ω) : Module τ ω := { m with wires := m.wires ++ [w] }

def Module.setMemory (memory : Memory) (m : Module τ ω) : Module τ ω :=
  { m with memories := m.memories.filter (·.name ≠ memory.name) ++ [memory] }

def Module.addConnection (a : SigSig) (m : Module τ ω) : Module τ ω := { m with connections := m.connections ++ [a] }

def Module.addCell (c : Cell) (m : Module τ ω) : Module τ ω := { m with cells := m.cells ++ [c] }

def Module.modifyCell (k : Nat) (f : Cell → Cell) (m : Module τ ω) : Module τ ω := { m with cells := m.cells.modify k f }

def Module.addProcess (p : Process τ ω) (m : Module τ ω) : Module τ ω := { m with processes := m.processes ++ [p] }

def Module.modifyProcess (k : Nat) (f : Process τ ω → Process τ ω) (m : Module τ ω) : Module τ ω :=
  { m with processes := m.processes.modify k f }

def Process.addSync (r : SyncRule ω) (p : Process τ ω) : Process τ ω := { p with syncs := p.syncs ++ [r] }

def Process.modifySync (k : Nat) (f : SyncRule ω → SyncRule ω) (p : Process τ ω) : Process τ ω :=
  { p with syncs := p.syncs.modify k f }

def SyncRule.addAction (a : SigSig) (r : SyncRule ω) : SyncRule ω := { r with actions := r.actions ++ [a] }

def SyncRule.addWrite (w : ω) (r : SyncRule ω) : SyncRule ω :=
  { r with memWriteActions := r.memWriteActions ++ [w] }

end Module

/-! ## The design in the making -/

/-- The design with the current module, process and sync rule. -/
structure Store (τ ω : Type) where
  design : List (Module τ ω)
  mod : Option Nat
  proc : Option (Nat × Nat)
  sync : Option (Nat × Nat × Nat)

section Store

variable {τ ω : Type}

def Store.empty : Store τ ω := ⟨[], none, none, none⟩

def Store.current (s : Store τ ω) : Option (Module τ ω) := s.mod.bind (s.design[·]?)

def Store.addModule (name : Id) (s : Store τ ω) : Store τ ω :=
  ⟨s.design ++ [.empty name], some s.design.length, none, none⟩

/-- A change of the current module. -/
def Store.inModule (f : Module τ ω → Module τ ω) (s : Store τ ω) : Store τ ω :=
  match s.mod with
  | none => s
  | some m => { s with design := s.design.modify m f }

def Store.addProcess (p : Process τ ω) (s : Store τ ω) : Store τ ω :=
  match s.mod, s.current with
  | some m, some mod => { s.inModule (·.addProcess p) with proc := some (m, mod.processes.length), sync := none }
  | _, _ => s

/-- A change of a process. -/
def Store.inProcess (m k : Nat) (f : Process τ ω → Process τ ω) (s : Store τ ω) : Store τ ω :=
  { s with design := s.design.modify m (·.modifyProcess k f) }

def Store.process? (m k : Nat) (s : Store τ ω) : Option (Process τ ω) := (s.design[m]?).bind (·.processes[k]?)

/-- A new sync rule of the current process, which becomes the current one. -/
def Store.addSync (r : SyncRule ω) (s : Store τ ω) : Store τ ω :=
  match s.proc with
  | none => s
  | some (m, k) =>
    { s.inProcess m k (·.addSync r) with sync := some (m, k, (s.process? m k).elim 0 (·.syncs.length)) }

/-- A change of the current sync rule. -/
def Store.inSync (f : SyncRule ω → SyncRule ω) (s : Store τ ω) : Store τ ω :=
  match s.sync with
  | none => s
  | some (m, k, i) => s.inProcess m k (·.modifySync i f)

def Store.currentSync (s : Store τ ω) : Option (SyncRule ω) :=
  s.sync.bind fun (m, k, i) => (s.process? m k).bind (·.syncs[i]?)

end Store

abbrev CaseRule := Nesting.Case (List SigSpec) SigSig SigSpec

/-- A `CaseRule *`: a process, and the way to the case from its root. -/
structure CaseRef where
  module : Nat
  process : Nat
  path : Nesting.Path
  deriving DecidableEq

/-- A `SwitchRule *` -/
structure SwitchRef where
  case : CaseRef
  index : Nat
  deriving DecidableEq

/-- The facade's variables; the stacks have their tops in front. -/
structure Builder extends Store CaseRule MemWriteAction where
  session : Bool
  poisoned : Bool
  cases : List CaseRef
  switches : List SwitchRef
  hash : UInt64
  /-- How often the mutex was taken, and released. -/
  locks : Nat
  unlocks : Nat

/-! ## The content hash -/

def rtlilHashStr (h : UInt64) (s : Text) : UInt64 :=
  ((s.foldl (fun h c => (h ^^^ .ofNat c.toNat) * 1099511628211) h) ^^^ 0x1f) * 1099511628211

def rtlilHashInt (h : UInt64) (v : Int) : UInt64 := (h ^^^ .ofNat (v % 2 ^ 64).toNat) * 1099511628211

inductive Hashed where
  | str (s : Text)
  | int (v : Int)

def Builder.hashed (b : Builder) (args : List Hashed) : Builder :=
  { b with
    hash := args.foldl (fun h arg => match arg with
      | .str s => rtlilHashStr h s
      | .int v => rtlilHashInt h v) b.hash }

/-! ## The calls -/

inductive Call where
  | module (name : Text)
  | wire (name : Text) (width dir : Int) (initBits : Option Text)
  | connect (lhs rhs : Text)
  | cellBin (op name a b y : Text) (isSigned : Int)
  | cellUn (op name a y : Text) (isSigned : Int)
  | cellInst (type name conns : Text)
  | cellMux (name a b s y : Text)
  | proc (name : Text)
  | caseAssign (lhs rhs : Text)
  | switchBegin (sig : Text)
  | caseBegin (compare : Text)
  | caseAssignRoot (lhs rhs : Text)
  | memory (name : Text) (width size : Int)
  | memrd (name memid addr data : Text)
  | syncMemwr (memid addr data en : Text)
  | caseEnd
  | switchEnd
  | sync (edge sig : Text)
  | syncAssign (lhs rhs : Text)

def binOps : List (String × String) :=
  [("add", "$add"), ("sub", "$sub"), ("mul", "$mul"), ("div", "$div"), ("mod", "$mod"), ("and", "$and"),
    ("or", "$or"), ("xor", "$xor"), ("xnor", "$xnor"), ("shl", "$shl"), ("shr", "$shr"), ("sshl", "$sshl"),
    ("sshr", "$sshr"), ("eq", "$eq"), ("ne", "$ne"), ("lt", "$lt"), ("le", "$le"), ("gt", "$gt"), ("ge", "$ge"),
    ("logic_and", "$logic_and"), ("logic_or", "$logic_or")]

def unOps : List (String × String) :=
  [("not", "$not"), ("neg", "$neg"), ("pos", "$pos"), ("reduce_and", "$reduce_and"), ("reduce_or", "$reduce_or"),
    ("reduce_xor", "$reduce_xor"), ("reduce_bool", "$reduce_bool"), ("logic_not", "$logic_not")]

def opType (ops : List (String × String)) (op : Text) : Option String :=
  (ops.find? (·.1.toList = op)).map (·.2)

def syncTypes : List (String × SyncType) :=
  [("posedge", .posedge), ("negedge", .negedge), ("level1", .level1), ("level0", .level0), ("always", .always),
    ("init", .init)]

def syncType (edge : Text) : Option SyncType := (syncTypes.find? (·.1.toList = edge)).map (·.2)

/-- The rules of these types have a signal. -/
def SyncType.hasSignal : SyncType → Bool
  | .posedge | .negedge | .level1 | .level0 => true
  | .always | .init => false

/-- The items of the connections of an instance; nothing follows a comma at the end. -/
def connItems (conns : Text) : List Text :=
  let items := (rtlilItems (strip conns)).1
  if items.getLast? = some [] then items.dropLast else items

/-- The body of a call ends well, or early with what it has done so far. -/
abbrev Body (α : Type) := Except (Fault × Builder) α

section Bodies

variable (lib : Library) (b : Builder)

def Builder.fail {α : Type} : Body α := .error (.bail, b)

def Builder.require (p : Prop) [Decidable p] : Body Unit := if p then .ok () else b.fail

def Builder.orFail {α : Type} : Option α → Body α
  | some a => .ok a
  | none => b.fail

/-- The current module, through its pointer. -/
def Builder.theModule : Body (Module CaseRule MemWriteAction) :=
  match b.current with
  | some m => .ok m
  | none => .error (.crash, b)

def Builder.escape (name : Text) : Body Id := b.orFail (lib.escapeId name)

def Builder.parse (txt : Text) : Body SigSpec :=
  match rtlilParseSigspec lib (b.current.map Module.wire?) txt with
  | .ok sig => .ok sig
  | .error e => .error (e, b)

/-- `rtlil_fit` -/
def Builder.fit (lhs rhs : Text) : Body SigSig := do
  let l ← b.parse lib lhs
  let r ← b.parse lib rhs
  if r.length ≠ l.length then
    if r.length < l.length then return (l, r ++ List.replicate (l.length - r.length) (.const .s0))
    else return (l, r.take l.length)
  else return (l, r)

/-- A new object of the current module, if its name is free. -/
def Builder.addNamed (id : Id) (f : Module CaseRule MemWriteAction → Module CaseRule MemWriteAction) :
    Body Builder := do
  let m ← b.theModule
  b.require (lib.adds m.ids id)
  return { b with toStore := b.toStore.inModule f }

def Builder.onCase (r : CaseRef) (f : CaseRule → CaseRule) : Builder :=
  { b with toStore := b.toStore.inProcess r.module r.process fun p => { p with tree := p.tree.modify f r.path } }

def Builder.tree? (r : CaseRef) : Option CaseRule := (b.process? r.module r.process).map (·.tree)

/-- `compare` of `gsm_rtlil_case_begin` -/
def Builder.compare (compare : Text) : Body (List SigSpec) :=
  if compare = [] then .ok [] else (compare.splitOn ';').mapM (b.parse lib)

/-- One connection of an instance, the last cell of the current module. -/
def Builder.connectPort (item : Text) : Body Builder := do
  let (port, spec) ← b.orFail (cut '=' item)
  b.require (port ≠ [])
  let id ← b.escape lib port
  let sig ← b.parse lib spec
  return { b with toStore := b.toStore.inModule fun m => m.modifyCell (m.cells.length - 1) (·.setPort (id, sig)) }

/-- The signal of a sync rule. -/
def Builder.signal (type : SyncType) (sig : Text) : Body SigSpec :=
  if type.hasSignal then b.parse lib sig else .ok []

/-- The enable of a memory write of a width. -/
def Builder.enable (w : Int) (e : SigSpec) : Body SigSpec :=
  match e with
  | [bit] => .ok (List.replicate w.toNat bit)
  | e => if e.length = w then .ok e else b.fail

/-- The priority over the earlier actions on one memory. -/
def priorityMask (mid : Id) (earlier : List MemWriteAction) : List State :=
  List.zipWith (fun (a : MemWriteAction) s => if a.memid = mid then .s1 else s) earlier
    (lib.constInt 0 earlier.length)

end Bodies

/-- What a call does under its guard. -/
def Call.perform (lib : Library) (b : Builder) : Call → Body Builder
  | .module name => do
    let id ← b.escape lib name
    b.require (lib.addsModule (b.design.map (·.name)) id)
    return { b with toStore := b.toStore.addModule id }.hashed [.str "m".toList, .str name]
  | .wire name width dir initBits => do
    let id ← b.escape lib name
    let init := initBits.map lib.constFromString
    let b ← b.addNamed lib id (·.addWire ⟨⟨id, width.toNat⟩, dir = 1, dir = 2, init⟩)
    return b.hashed [.str "w".toList, .str name, .int width, .int dir, .str (initBits.getD [])]
  | .connect lhs rhs => do
    let a ← b.fit lib lhs rhs
    let _ ← b.theModule
    b.require (lib.connects a.1 a.2)
    return { b with toStore := b.toStore.inModule (·.addConnection a) }.hashed [.str "c".toList, .str lhs, .str rhs]
  | .cellBin op name a b' y isSigned => do
    let id ← b.escape lib name
    let A ← b.parse lib a
    let B ← b.parse lib b'
    let Y ← b.parse lib y
    let type ← b.orFail (opType binOps op)
    let b ← b.addNamed lib id (·.addCell (.bin type id A B Y (isSigned ≠ 0)))
    return b.hashed [.str "b".toList, .str op, .str name, .str a, .str b', .str y, .int isSigned]
  | .cellUn op name a y isSigned => do
    let id ← b.escape lib name
    let A ← b.parse lib a
    let Y ← b.parse lib y
    let type ← b.orFail (opType unOps op)
    let b ← b.addNamed lib id (·.addCell (.un type id A Y (isSigned ≠ 0)))
    return b.hashed [.str "u".toList, .str op, .str name, .str a, .str y, .int isSigned]
  | .cellInst type name conns => do
    let id ← b.escape lib name
    let typeId ← b.escape lib type
    -- the cell stays when a connection fails
    let b ← b.addNamed lib id (·.addCell (.inst typeId id []))
    let b ← (connItems conns).foldlM (fun b item => b.connectPort lib item) b
    return b.hashed [.str "i".toList, .str type, .str name, .str conns]
  | .cellMux name a b' s y => do
    let id ← b.escape lib name
    let A ← b.parse lib a
    let B ← b.parse lib b'
    let S ← b.parse lib s
    let Y ← b.parse lib y
    let b ← b.addNamed lib id (·.addCell (.mux id A B S Y))
    return b.hashed [.str "x".toList, .str name, .str a, .str b', .str s, .str y]
  | .proc name => do
    let id ← b.escape lib name
    let m ← b.theModule
    b.require (lib.adds m.ids id)
    let root : CaseRef := ⟨b.mod.getD 0, m.processes.length, []⟩
    return { b with
      toStore := b.toStore.addProcess ⟨id, .mk [] [] [], []⟩
      cases := [root]
      switches := [] }.hashed [.str "p".toList, .str name]
  | .caseAssign lhs rhs => do
    let r ← b.orFail b.cases.head?
    let a ← b.fit lib lhs rhs
    return (b.onCase r (.addAction a)).hashed [.str "ca".toList, .str lhs, .str rhs]
  | .switchBegin sig => do
    let r ← b.orFail b.cases.head?
    let signal ← b.parse lib sig
    let i := (b.tree? r).elim 0 (·.switchCount r.path)
    return { b.onCase r (.addSwitch signal) with switches := ⟨r, i⟩ :: b.switches }.hashed [.str "sw".toList, .str sig]
  | .caseBegin compare => do
    let sw ← b.orFail b.switches.head?
    let sigs ← b.compare lib compare
    let j := (b.tree? sw.case).elim 0 (·.caseCount sw.case.path sw.index)
    let r : CaseRef := ⟨sw.case.module, sw.case.process, sw.case.path ++ [(sw.index, j)]⟩
    return { b.onCase sw.case (.addCase sw.index sigs) with cases := r :: b.cases }.hashed
      [.str "cb".toList, .str compare]
  | .caseAssignRoot lhs rhs => do
    let r ← b.orFail b.cases.getLast?
    let a ← b.fit lib lhs rhs
    return (b.onCase r (.addAction a)).hashed [.str "cr".toList, .str lhs, .str rhs]
  | .memory name width size => do
    b.require (0 < width ∧ 0 < size)
    let id ← b.escape lib name
    let _ ← b.theModule
    return { b with toStore := b.toStore.inModule (·.setMemory ⟨id, width, size⟩) }.hashed
      [.str "M".toList, .str name, .int width, .int size]
  | .memrd name memid addr data => do
    let mid ← b.escape lib memid
    let m ← b.theModule
    b.require (m.memory? mid).isSome
    let A ← b.parse lib addr
    let D ← b.parse lib data
    let id ← b.escape lib name
    let b ← b.addNamed lib id (·.addCell (.memrd id mid A D))
    return b.hashed [.str "mr".toList, .str name, .str memid, .str addr, .str data]
  | .syncMemwr memid addr data en => do
    b.require b.sync.isSome
    let mid ← b.escape lib memid
    let m ← b.theModule
    let memory ← b.orFail (m.memory? mid)
    let A ← b.parse lib addr
    let D ← b.parse lib data
    b.require (D.length = memory.width)
    let e ← b.parse lib en
    let enable ← b.enable memory.width e
    let earlier := b.currentSync.elim [] (·.memWriteActions)
    let action : MemWriteAction := ⟨⟨mid, A, D, enable⟩, priorityMask lib mid earlier⟩
    return { b with toStore := b.toStore.inSync (·.addWrite action) }.hashed
      [.str "mw".toList, .str memid, .str addr, .str data, .str en]
  | .caseEnd => do
    b.require (1 < b.cases.length)
    return { b with cases := b.cases.tail }.hashed [.str "ce".toList]
  | .switchEnd => do
    b.require (b.switches ≠ [])
    return { b with switches := b.switches.tail }.hashed [.str "se".toList]
  | .sync edge sig => do
    b.require b.proc.isSome
    let type ← b.orFail (syncType edge)
    let signal ← b.signal lib type sig
    return { b with toStore := b.toStore.addSync ⟨type, signal, [], []⟩ }.hashed
      [.str "s".toList, .str edge, .str sig]
  | .syncAssign lhs rhs => do
    b.require b.sync.isSome
    let a ← b.fit lib lhs rhs
    return { b with toStore := b.toStore.inSync (·.addAction a) }.hashed [.str "a".toList, .str lhs, .str rhs]

/-- `rtlil_call`: a call with its return value, or nothing where the program crashes. -/
def rtlilCall (lib : Library) (c : Call) (b : Builder) : Option (Builder × Int) :=
  if !b.session || b.poisoned then some (b, 2)
  else
    match c.perform lib b with
    | .ok b => some (b, 0)
    | .error (.bail, b) => some ({ b with poisoned := true }, 2)
    | .error (.crash, _) => none

/-- Calls one after another. -/
def runCalls (lib : Library) : List Call → Builder → Option (Builder × List Int)
  | [], b => some (b, [])
  | c :: cs, b => do
    let (b, r) ← rtlilCall lib c b
    let (b, rs) ← runCalls lib cs b
    return (b, r :: rs)

/-! ## The session -/

/-- `gsm_rtlil_begin`, when it has the mutex, and `design -reset` goes through or not. -/
def gsmRtlilBegin (resets : Bool) (b : Builder) : Builder × Int :=
  let opened : Builder :=
    { design := b.design, mod := none, proc := none, sync := none, session := true, poisoned := false, cases := []
      switches := [], hash := 1469598103934665603, locks := b.locks + 1, unlocks := b.unlocks }
  if resets then ({ opened with design := [] }, 0)
  else ({ opened with poisoned := true, session := false, unlocks := opened.unlocks + 1 }, 2)

/-- The end of a session. -/
def Builder.close (b : Builder) : Builder :=
  { b with mod := none, proc := none, sync := none, session := false, cases := [], switches := []
           unlocks := b.unlocks + 1 }

/-- The design that is handed on to synthesis, if `fixup_ports` goes through. -/
def Builder.synthesized (fixes : Bool) (b : Builder) : Option (List (Module CaseRule MemWriteAction)) :=
  if b.session && !b.poisoned && b.switches.isEmpty && b.cases.length ≤ 1 && fixes then some b.design else none

/-- `gsm_rtlil_synth`, with what `gsm_run` returns. -/
def gsmRtlilSynth (fixes : Bool) (ran : Int) (b : Builder) : Builder × Int :=
  if !b.session then (b, 2)
  else (b.close, if (b.synthesized fixes).isSome then ran else 2)

/-- `gsm_rtlil_abort`, when `design -reset` goes through or not. -/
def gsmRtlilAbort (resets : Bool) (b : Builder) : Builder :=
  if !b.session then b else { b.close with design := if resets then [] else b.design }

end Yosys.Facade
