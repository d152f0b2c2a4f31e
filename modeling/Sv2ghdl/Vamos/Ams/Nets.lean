import Mathlib.Data.List.Sort
import Sv2ghdl.Graph.Classes

/-!
# The mixed-signal nets

The search for the nets of the cut-port bits, over the bits of the signals of the elaborated scopes: what the port
maps, aliases, shadows and port temporaries connect is one net at once; sv_tran and sv_alias instances and port
buffer copies are crossed by the search and joined, or not, when it is over.
-/

open Classes

namespace Vamos.Ams.Nets

/-- A signal (lower case) and a bit offset. -/
abbrev Bit := String × Nat

structure Seg where
  scope : Nat
  bit : Bit
deriving DecidableEq

inductive What | drv | rd | zdrv | force | release
deriving DecidableEq

inductive Strength | strong | weak | pullUp | pullDown | supply1 | supply0
deriving DecidableEq

/-- A statement's contact with some bits of a signal.  An initial value is no statement's. -/
structure Touch where
  stmt : Option Nat
  what : What
  strength : Strength
  name : String
  offs : Option (List Nat)

/-- The touches of a signal that are about the bit. -/
def Touch.on (t : Touch) (b : Bit) : Bool :=
  t.name = b.1 && match t.offs with
    | none => true
    | some offs => b.2 ∈ offs

def Touch.supply (t : Touch) : Bool :=
  t.what = .drv && (t.strength = .supply1 || t.strength = .supply0)

/-- What a bit of a formal is associated with: a bit of the parent, or an expression, with the literal of this bit
of a constant. -/
inductive Actual
  | bit (b : Bit)
  | expr (zOnly : Bool) (lit : Option String)

def Actual.bit? : Actual → Option Bit
  | .bit b => some b
  | .expr _ _ => none

structure PortMap where
  stmt : Nat
  formal : Bit
  actual : Actual

/-- A port buffer's plain copy, one bit of it. -/
structure Buffer where
  stmt : Nat
  pb : Bit
  src : Bit

/-- The entities of the switches that join. -/
inductive Ent | svTran | svAlias
deriving DecidableEq

structure Switch where
  stmt : Nat
  ent : Ent
  a : Bit
  b : Bit

/-- Until it is joined, a switch is a strong driver and a reader of each end. -/
def Switch.touches (sw : Switch) : List Touch :=
  [sw.a, sw.b].flatMap fun b =>
    [⟨some sw.stmt, .drv, .strong, b.1, some [b.2]⟩, ⟨some sw.stmt, .rd, .strong, b.1, some [b.2]⟩]

/-- What one architecture does with each bit.  `touches` are those of the other statements than the switches: the
supply drivers among them are pull instances. -/
structure Index where
  ports : List String
  maps : List PortMap
  joins : List (Bit × Bit)
  buffers : List Buffer
  switches : List Switch
  touches : List Touch
  maps_nodup : (maps.map fun m => (m.stmt, m.formal)).Nodup
  switches_nodup : (switches.map (·.stmt)).Nodup
  touches_stmt : ∀ t ∈ touches, ∀ sw ∈ switches, t.stmt ≠ some sw.stmt
  buffers_stmt : ∀ buf ∈ buffers, ∀ sw ∈ switches, buf.stmt ≠ sw.stmt
  supply_stmt : ∀ t ∈ touches, t.supply → ∀ buf ∈ buffers, t.stmt ≠ some buf.stmt

namespace Index

def empty : Index := ⟨[], [], [], [], [], [], .nil, .nil, nofun, nofun, nofun⟩

/-- What the instance of a statement has on a bit of a formal. -/
def formal (idx : Index) (stmt : Nat) (b : Bit) : Option Actual :=
  (idx.maps.find? fun m => m.stmt = stmt && m.formal = b).map PortMap.actual

def touching (idx : Index) (b : Bit) : List Touch :=
  (idx.touches ++ idx.switches.flatMap Switch.touches).filter fun t => t.on b

end Index

/-- One elaborated instance of an architecture: the parent scope and the statement of the instance there. -/
structure Scope where
  parent : Option (Nat × Nat)
  index : Index

inductive Dir | input | output | inout
deriving DecidableEq

/-- A port of a cut cell.  A bit without a SPICE port, or with one that is ground or connected elsewhere, is
passive. -/
structure CutPort where
  index : Nat
  vname : String
  width : Nat
  real : Bool
  shellDir : Dir
  passive : Nat → Bool

structure CutInstance where
  scope : Nat
  ports : List CutPort
  index_nodup : (ports.map CutPort.index).Nodup
  vname_nodup : (ports.map CutPort.vname).Nodup

/-- The translated design as the cut sees it: the elaborated scopes and the cut instances in walk order. -/
structure Design where
  scopes : List Scope
  cuts : List CutInstance
  parent_nodup : (scopes.filterMap Scope.parent).Nodup
  parent_lt : ∀ sc ∈ scopes, ∀ p ∈ sc.parent, p.1 < scopes.length
  cuts_lt : ∀ ci ∈ cuts, ci.scope < scopes.length
  cuts_nodup : (cuts.map CutInstance.scope).Nodup
  formal_port : ∀ sc ∈ scopes, ∀ p ∈ sc.parent, ∀ psc ∈ scopes[p.1]?, ∀ m ∈ psc.index.maps, m.stmt = p.2 →
    m.formal.1 ∈ sc.index.ports

/-- A cut-port bit: the number of the instance, the index of the port and the bit. -/
structure PortRef where
  inst : Nat
  port : Nat
  bit : Nat
deriving DecidableEq

structure PortBit where
  seg : Seg
  ref : PortRef
  port : CutPort

namespace CutInstance

/-- The bits of instance number `i`, port by port. -/
def bits (ci : CutInstance) (i : Nat) : List PortBit :=
  (ci.ports.insertionSort fun p p' => p.index ≤ p'.index).flatMap fun cp =>
    (List.range cp.width).map fun off => ⟨⟨ci.scope, cp.vname, off⟩, ⟨i, cp.index, off⟩, cp⟩

end CutInstance

/-- A bit that is next to another one, and how. -/
inductive Edge
  | wire (other : Seg)
  | buffer (stmt : Nat) (other : Seg) (otherIsPb : Bool)
  | switch (stmt : Nat) (other : Seg) (ent : Ent)
deriving DecidableEq

def Edge.other : Edge → Seg
  | .wire o => o
  | .buffer _ o _ => o
  | .switch _ o _ => o

/-- The bits across a pair from a bit, and whether it is the first of the pair. -/
def across (x y b : Bit) : List (Bit × Bool) :=
  (if x = b then [(y, false)] else []) ++ if y = b then [(x, true)] else []

namespace Design

def portBits (d : Design) : List PortBit :=
  d.cuts.zipIdx.flatMap fun p => p.1.bits p.2

def index (d : Design) (sid : Nat) : Index :=
  match d.scopes[sid]? with
  | some sc => sc.index
  | none => .empty

/-- The scope of the instance of a statement. -/
def child (d : Design) (sid stmt : Nat) : Option Nat :=
  d.scopes.findIdx? fun sc => sc.parent = some (sid, stmt)

/-- What the parent's port map has on a bit of a port. -/
def up (d : Design) (s : Seg) : Option (Nat × Actual) :=
  match d.scopes[s.scope]? with
  | some ⟨some (p, stmt), idx⟩ =>
    if s.bit.1 ∈ idx.ports then ((d.index p).formal stmt s.bit).map fun a => (p, a) else none
  | _ => none

/-- Up through the port map of the parent. -/
def upEdges (d : Design) (s : Seg) : List Edge :=
  match d.up s with
  | some (p, .bit b) => [.wire ⟨p, b⟩]
  | _ => []

/-- Down into the child of one entry of a port map. -/
def downEdges (d : Design) (s : Seg) (m : PortMap) : List Edge :=
  match m.actual, d.child s.scope m.stmt with
  | .bit b, some c => if b = s.bit then [.wire ⟨c, m.formal⟩] else []
  | _, _ => []

/-- The bits next to a bit, in the order in which the search meets them. -/
def edges (d : Design) (s : Seg) : List Edge :=
  let idx := d.index s.scope
  d.upEdges s ++
  (idx.joins.flatMap fun j => (across j.1 j.2 s.bit).map fun o => .wire ⟨s.scope, o.1⟩) ++
  (idx.maps.flatMap fun m => d.downEdges s m) ++
  (idx.buffers.flatMap fun buf => (across buf.pb buf.src s.bit).map fun o => .buffer buf.stmt ⟨s.scope, o.1⟩ o.2) ++
  (idx.switches.flatMap fun sw => (across sw.a sw.b s.bit).map fun o => .switch sw.stmt ⟨s.scope, o.1⟩ sw.ent)

def touching (d : Design) (s : Seg) : List Touch := (d.index s.scope).touching s.bit

/-- The bits that one scope's index names. -/
def named (d : Design) (sid : Nat) : List Seg :=
  let idx := d.index sid
  (idx.maps.flatMap fun m => ((d.child sid m.stmt).map fun c => (⟨c, m.formal⟩ : Seg)).toList) ++
  ((idx.maps.filterMap fun m => m.actual.bit?) ++ (idx.joins.flatMap fun j => [j.1, j.2]) ++
    (idx.buffers.flatMap fun buf => [buf.pb, buf.src]) ++
    (idx.switches.flatMap fun sw => [sw.a, sw.b])).map fun b => ⟨sid, b⟩

/-- All bits that the search can meet. -/
def places (d : Design) : List Seg :=
  d.portBits.map PortBit.seg ++ (List.range d.scopes.length).flatMap d.named

end Design

/-! ## The search -/

/-- A statement of a scope. -/
abbrev Key := Nat × Nat

/-- A switch that was crossed: the end from which it was met, the other end. -/
structure Crossed where
  key : Key
  a : Seg
  b : Seg
  ent : Ent

/-- The bits met are those of the table, in the order in which they were met. -/
structure Search where
  queue : List Seg
  table : Table Seg
  sws : List Crossed
  pbs : List (Key × List (Seg × Seg))

/-- Where the queue takes a bit in.  The code's is a first-in, first-out queue. -/
structure Queueing where
  put : List Seg → Seg → List Seg
  perm : ∀ queue s, (put queue s).Perm (queue ++ [s])

def fifo : Queueing := ⟨fun queue s => queue ++ [s], fun _ _ => .refl _⟩

def addPair : List (Key × List (Seg × Seg)) → Key → Seg × Seg → List (Key × List (Seg × Seg))
  | [], k, pair => [(k, [pair])]
  | (k', pairs) :: rest, k, pair =>
    if k' = k then (k', if pair ∈ pairs then pairs else pairs ++ [pair]) :: rest
    else (k', pairs) :: addPair rest k pair

def setDefault (sws : List Crossed) (c : Crossed) : List Crossed :=
  if c.key ∈ sws.map Crossed.key then sws else sws ++ [c]

namespace Search

def add (q : Queueing) (st : Search) (s : Seg) : Search :=
  if Known st.table s then st
  else { st with table := Classes.add st.table s, queue := q.put st.queue s }

/-- One bit next to the bit that is looked at. -/
def meet (q : Queueing) (s : Seg) (st : Search) (e : Edge) : Search :=
  let st := st.add q e.other
  match e with
  | .wire o => { st with table := union st.table s o }
  | .buffer stmt o otherIsPb =>
    { st with pbs := addPair st.pbs (s.scope, stmt) (if otherIsPb then (o, s) else (s, o)) }
  | .switch stmt o ent => { st with sws := setDefault st.sws ⟨(s.scope, stmt), s, o, ent⟩ }

def visit (d : Design) (q : Queueing) (st : Search) (s : Seg) : Search := (d.edges s).foldl (meet q s) st

def run (d : Design) (q : Queueing) : Nat → Search → Search
  | 0, st => st
  | n + 1, st =>
    match st.queue with
    | [] => st
    | s :: rest => run d q n (visit d q { st with queue := rest } s)

def start (d : Design) (q : Queueing) : Search :=
  (d.portBits.map PortBit.seg).foldl (add q) ⟨[], [], [], []⟩

/-- The search until the queue is empty: every bit is taken out of it once. -/
def found (d : Design) (q : Queueing) : Search := run d q d.places.length (start d q)

def order (st : Search) : List Seg := st.table.map Prod.fst

/-- The copies that were crossed, one bit of them each. -/
def pairs (st : Search) : List (Key × Seg × Seg) := st.pbs.flatMap fun p => p.2.map fun pair => (p.1, pair)

end Search

/-! ## Switches -/

def suppliedAt (d : Design) (s : Seg) : Bool := (d.touching s).any Touch.supply

/-- Whether a class holds a supply driver.  The source keeps the answer beside the members of each class. -/
def hasSupply (d : Design) (order : List Seg) (t : Table Seg) (root : Seg) : Bool :=
  order.any fun s => find t s = root && suppliedAt d s

structure Joining where
  table : Table Seg
  skip : List (Key × Seg)

/-- A tran is not joined when a supply drives either side. -/
def switchStep (d : Design) (order : List Seg) (j : Joining) (c : Crossed) : Joining :=
  let ra := find j.table c.a
  let rb := find j.table c.b
  let joined := j.skip ++ [(c.key, c.a), (c.key, c.b)]
  if ra = rb then ⟨j.table, joined⟩
  else if c.ent = .svTran && (hasSupply d order j.table ra || hasSupply d order j.table rb) then j
  else ⟨union j.table c.a c.b, joined⟩

def switchJoins (d : Design) (st : Search) (sws : List Crossed) : Joining :=
  sws.foldl (switchStep d st.order) ⟨st.table, []⟩

/-! ## Port buffers -/

/-- The touches of a bit without those of the joined switches. -/
def kept (d : Design) (skip : List (Key × Seg)) (s : Seg) : List Touch :=
  (d.touching s).filter fun t => match t.stmt with
    | some stmt => ((s.scope, stmt), s) ∉ skip
    | none => true

def Touch.copy (t : Touch) (s : Seg) (k : Key) : Bool := s.scope = k.1 && t.stmt = some k.2

/-- A constant actual that is not Z. -/
def tied (d : Design) (s : Seg) : Bool :=
  match d.up s with
  | some (_, .expr zOnly lit) => !(zOnly || lit = some "l3d_z")
  | _ => false

/-- Whether anything but the copy drives the bits, and whether anything but the copy reads them. -/
def pbSide (d : Design) (skip : List (Key × Seg)) (k : Key) (segs : List Seg) : Bool × Bool :=
  (segs.any fun s => tied d s || (kept d skip s).any fun t =>
      !t.copy s k && (t.what = .drv || t.what = .force || t.what = .release),
    segs.any fun s => (kept d skip s).any fun t => !t.copy s k && t.what = .rd)

namespace PortBit

def passive (pb : PortBit) : Bool := pb.port.passive pb.ref.bit

def drivable (pb : PortBit) : Bool :=
  !pb.passive && !pb.port.real && (pb.port.shellDir = .output || pb.port.shellDir = .inout)

end PortBit

/-- Whether one bit of a port buffer copy joins. -/
def pbJoin (d : Design) (order : List Seg) (j : Joining) (p : Key × Seg × Seg) : Bool :=
  let w := find j.table p.2.1
  if w = find j.table p.2.2 then false
  else
    let side := pbSide d j.skip p.1 (order.filter fun s => find j.table s = w)
    if side.1 then false
    else
      let drivable := (d.portBits.filter fun pb => find j.table pb.seg = w).filter PortBit.drivable
      let outs := drivable.filter fun pb => pb.port.shellDir = .output
      (outs ++ if side.2 then drivable else []).isEmpty

/-! ## Nets -/

structure Net where
  segs : List Seg
  ports : List PortRef
  passive : List PortRef

section Run

variable (d : Design) (q : Queueing)

def switched : Joining := switchJoins d (Search.found d q) (Search.found d q).sws

/-- The copies that join, each decided before any is joined. -/
def joinedBuffers : List (Key × Seg × Seg) :=
  (Search.found d q).pairs.filter (pbJoin d (Search.found d q).order (switched d q))

def classes : Table Seg := (joinedBuffers d q).foldl (fun t p => union t p.2.1 p.2.2) (switched d q).table

/-- The partition of the bits that were met. -/
def groups : List (List Seg) :=
  let order := (Search.found d q).order
  let t := classes d q
  (order.map (find t)).eraseDups.map fun r => order.filter fun s => find t s = r

def PortRef.le (p p' : PortRef) : Bool :=
  p.inst < p'.inst || p.inst = p'.inst && (p.port < p'.port || p.port = p'.port && p.bit ≤ p'.bit)

/-- The net of a class: its bits, its cut ports in walk order and those that are passive. -/
def netOf (r : Seg) : Net :=
  let t := classes d q
  let prs := (d.portBits.filter fun pb => find t pb.seg = r).insertionSort fun pb pb' => pb.ref.le pb'.ref
  ⟨(Search.found d q).order.filter fun s => find t s = r,
    (prs.filter fun pb => !pb.passive).map PortBit.ref, (prs.filter PortBit.passive).map PortBit.ref⟩

/-- One net for each class with a cut port, numbered by the first cut ports. -/
def nets : List Net :=
  ((d.portBits.insertionSort fun pb pb' => pb.ref.le pb'.ref).map fun pb => find (classes d q) pb.seg).eraseDups.map
    (netOf d q)

end Run

end Vamos.Ams.Nets
