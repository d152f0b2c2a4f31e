import Sv2ghdl.Lists.PaddedSearch
import Sv2ghdl.Lists.Traverse
import Sv2ghdl.Python.FloatRepr
import Sv2ghdl.Python.Unicode

/-!
# The tables of the cut

The role of each net's analog node, with the cut-port bit that hosts it, and the tables that are generated from the
nodes: for each variant the paths of its instances, and for each instance and slot a role and a set of levels.
-/

open Python Traverse

namespace Vamos.Ams.Cut

/-! ## The analysis -/

inductive Dir | input | output | inout | auto
deriving DecidableEq

inductive Mode | inMode | outMode | inoutMode
deriving DecidableEq

/-- `MODE_OF_DIR` -/
def modeOfDir : Dir → Mode
  | .input => .inMode
  | .output => .outMode
  | _ => .inoutMode

/-- `in` or `inout` -/
def Mode.reads (m : Mode) : Bool := m ≠ .outMode

/-- `out` or `inout` -/
def Mode.drives (m : Mode) : Bool := m ≠ .inMode

/-- The direction of the shell is the declared one unless that is to be found out. -/
structure CutPort where
  index : Nat
  real : Bool
  declared : Dir
  shellDir : Dir
  shellDir_ne : shellDir ≠ .auto
  shellDir_eq : declared ≠ .auto → shellDir = declared

/-- A variant of a cut cell: the ports of the cell and what its entity has at the same places, which was checked. -/
structure Variant where
  ports : List CutPort
  ranges : List (Option (Int × Int))
  modes : List Mode
  index_eq : ∀ (k : Nat) cp, ports[k]? = some cp → cp.index = k
  modes_eq : modes = ports.map fun cp => modeOfDir cp.shellDir

structure PortRef where
  inst : Nat
  port : Nat
  bit : Nat
deriving DecidableEq

namespace Variant

def width (v : Variant) (cp : CutPort) : Nat :=
  match v.ranges[cp.index]?.join with
  | none => 1
  | some (left, right) => if cp.real then 1 else (left - right).natAbs + 1

/-- The bits of the ports, one after another. -/
def slots (v : Variant) : List (Nat × Nat) :=
  (v.ports.insertionSort fun p p' => p.index ≤ p'.index).flatMap fun cp =>
    (List.range (v.width cp)).map fun b => (cp.index, b)

end Variant

/-- The variant is its number among those of the analysis. -/
structure CutInstance where
  labels : List Str
  variant : Nat

inductive Strength | strong | weak | pullUp | pullDown | supply1 | supply0 | unknown
deriving DecidableEq

structure Net where
  ports : List PortRef
  drivers : List Strength
  readers : Nat

/-- `':'.join` -/
def joinColons (parts : List Str) : Str := [(':' : CodePoint)].intercalate parts

/-- `names.path_name` -/
def pathName (U : UnicodeData) (top : Str) (labels : List Str) : Str :=
  (':' : CodePoint) :: (U.lower (joinColons (top :: labels)) ++ [(':' : CodePoint)])

/-- The cut instances and the nets.  No two instances have one path, since the labels of an architecture are distinct
without regard to case, and a path is printable.  A bit is on one net at most. -/
structure Analysis (U : UnicodeData) where
  top : Str
  variants : List Variant
  instances : List CutInstance
  nets : List Net
  oneWay : PortRef → Bool
  variant_lt : ∀ ci ∈ instances, ci.variant < variants.length
  paths_nodup : (instances.map fun ci => pathName U top ci.labels).Nodup
  paths_printable : ∀ ci ∈ instances, ∀ c ∈ pathName U top ci.labels, (' ' : CodePoint) ≤ c
  ports_nodup : (nets.flatMap Net.ports).Nodup
  ports_bit : ∀ net ∈ nets, ∀ p ∈ net.ports, ∃ ci v, instances[p.inst]? = some ci ∧
    variants[ci.variant]? = some v ∧ (p.port, p.bit) ∈ v.slots

namespace Analysis

variable {U : UnicodeData} (A : Analysis U)

/-- `_port_of` -/
def port (p : PortRef) : Option CutPort :=
  A.instances[p.inst]?.bind fun ci => A.variants[ci.variant]?.bind fun v => v.ports[p.port]?

def has (test : CutPort → Bool) (p : PortRef) : Bool := (A.port p).any test

end Analysis

/-! ## Roles -/

inductive Role | through | d2a | a2d | bidir | rd2a | ra2d | powernet | removed | disabled | none
deriving DecidableEq

/-- `ROLE_PASSIVE` -/
def rolePassive : Nat := 0

/-- `ROLE_CODE` -/
def roleCode : Role → Option Nat
  | .d2a => some 1
  | .a2d => some 2
  | .bidir => some 3
  | .rd2a => some 4
  | .ra2d => some 5
  | _ => .none

inductive Pull | up | down
deriving DecidableEq

structure Assigned where
  role : Role
  host : Option PortRef
  pull : Option Pull

/-- What the control file and the waves say about a net. -/
structure Choices where
  disabled : Net → Bool
  removal : Net → Bool
  dumped : Net → Bool

/-- The role of a net with cut ports; none is an error. -/
def role {U : UnicodeData} (A : Analysis U) (c : Choices) (net : Net) : Option Assigned :=
  let ports := net.ports
  let reals := ports.filter (A.has CutPort.real)
  let logics := ports.filter fun p => !A.has CutPort.real p
  let strongWeak := net.drivers.filter fun s => s = .strong || s = .weak || s = .unknown
  let pulls := net.drivers.filter fun s => s = .pullUp || s = .pullDown
  let supplies := net.drivers.filter fun s => s = .supply1 || s = .supply0
  let driven := !(strongWeak ++ pulls).isEmpty
  let read := 0 < net.readers
  let drivable := ports.filter fun p =>
    A.has (fun cp => cp.shellDir = .output || cp.shellDir = .inout) p && !A.oneWay p
  let outputs := ports.filter fun p => A.has (fun cp => cp.shellDir = .output) p && !A.oneWay p
  let bidirPorts := ports.filter fun p => !A.oneWay p &&
    A.has (fun cp => cp.declared = .inout || cp.declared = .auto && cp.shellDir = .inout && read) p
  let realOuts := reals.filter (A.has fun cp => cp.shellDir = .output)
  let ins := ports.filter (A.has fun cp => (modeOfDir cp.shellDir).reads)
  let wave := !drivable.isEmpty && !read && c.dumped net
  if c.disabled net then some ⟨.disabled, none, none⟩
  else if !reals.isEmpty then
    if !logics.isEmpty then none
    else if driven then if !realOuts.isEmpty then none else some ⟨.rd2a, reals.head?, none⟩
    else if !realOuts.isEmpty && read then some ⟨.ra2d, realOuts.head?, none⟩
    else some ⟨.through, none, none⟩
  else if !supplies.isEmpty then
    if supplies.dedup.length > 1 then none else some ⟨.powernet, none, none⟩
  else if !strongWeak.isEmpty && !outputs.isEmpty then none
  else if driven && !bidirPorts.isEmpty then
    if strongWeak.contains .weak || pulls.dedup.length > 1 then none
    else some ⟨.bidir, bidirPorts.head?,
      if pulls.isEmpty then none else some (if pulls.contains .pullUp then .up else .down)⟩
  else if driven then if ins.isEmpty then none else some ⟨.d2a, ins.head?, none⟩
  else if !drivable.isEmpty && (read || wave) then some ⟨.a2d, drivable.head?, none⟩
  else if !drivable.isEmpty then some ⟨.through, none, none⟩
  else some ⟨.none, none, none⟩

/-- `remove_d2a` after the table -/
def remove (c : Choices) (net : Net) (a : Assigned) : Option Assigned :=
  if !c.removal net then some a
  else match a.role with
    | .d2a => some { a with role := .removed, host := none }
    | .bidir => none
    | _ => some a

/-- The nodes of the nets with a cut port that is not passive. -/
def assignRoles {U : UnicodeData} (A : Analysis U) (c : Choices) : Option (List Assigned) :=
  (A.nets.filter fun net => !net.ports.isEmpty).mapM fun net => (role A c net).bind (remove c net)

/-! ## Levels -/

structure D2A where
  hiv : Float
  lov : Float
  delayRise : Float
  delayFall : Float
  x2v : Nat
  weakFrac : Float

structure A2D where
  loth : Float
  hith : Float
  xband : Option Float
  midvTime : Option Float
  midvLogic : Str

structure AnalogNode where
  assigned : Assigned
  d2a : Option D2A
  a2d : Option A2D

/-- The nodes with their roles, to which the deck has added the levels. -/
structure Plan (U : UnicodeData) where
  analysis : Analysis U
  choices : Choices
  nodes : List AnalogNode
  assigned : assignRoles analysis choices = some (nodes.map AnalogNode.assigned)

/-- `_MIDV_CODE` -/
def midvCode (U : UnicodeData) (logic : Str) : Nat :=
  let l := U.upper logic
  if l = str "0" then 0 else if l = str "1" then 1 else if l = str "Z" then 3 else 2

/-- `_levels`, in the order of the keys HIV LOV X2V HITH LOTH XBAND MIDV_T MIDV_L DR DF WF PULL_V PULL_E -/
def levels (U : UnicodeData) (n : AnalogNode) : Option (List Float) := do
  let role := n.assigned.role
  let zero : Float := .ofNat 0
  let drive ← (if role = .d2a || role = .bidir then n.d2a.map some else some none)
  let sense ← (if role = .a2d || role = .bidir then n.a2d.map some else some none)
  let pulled := if role = .bidir then n.assigned.pull else none
  let fromDrive (f : D2A → Float) : Float := (drive.map f).getD zero
  let fromSense (f : A2D → Float) : Float := (sense.map f).getD zero
  return [
    fromDrive D2A.hiv,
    fromDrive D2A.lov,
    fromDrive fun d => .ofNat d.x2v,
    fromSense A2D.hith,
    fromSense A2D.loth,
    fromSense fun a => match a.xband with
      | some x => if x == zero then zero else x
      | none => zero,
    fromSense fun a => a.midvTime.getD (Float.neg (.ofNat 1)),
    fromSense fun a => .ofNat (midvCode U a.midvLogic),
    fromDrive D2A.delayRise,
    fromDrive D2A.delayFall,
    fromDrive D2A.weakFrac,
    match pulled with
      | some .up => fromDrive D2A.hiv
      | some .down => fromDrive D2A.lov
      | none => zero,
    match pulled with
      | some _ => fromDrive D2A.weakFrac
      | none => zero]

/-- `_vreal`: a VHDL real literal has a point. -/
def vreal (x : Float) : Option Str :=
  if x.isFinite then
    let s := reprFloat x
    let e : CodePoint := 'e'
    let point (mant : Str) : Str := if ('.' : CodePoint) ∈ mant then mant else mant ++ str ".0"
    if e ∈ s then some (point (s.takeWhile (· ≠ e)) ++ e :: (s.dropWhile (· ≠ e)).tail)
    else some (point s)
  else none

/-! ## The package -/

/-- Tuples of numbers are equal when the numbers are. -/
def tupleEq (a b : List Float) : Bool := a.length = b.length && (a.zip b).all fun p => p.1 == p.2

def intern (sets : List (List Float)) (set : List Float) : List (List Float) × Nat :=
  match sets.findIdx? fun s => tupleEq s set with
  | some j => (sets, j)
  | none => (sets ++ [set], sets.length)

/-- The constants of one variant. -/
structure Table where
  n : Nat
  len : Nat
  paths : List Str
  roles : List (List Nat)
  lidx : List (List Nat)
  lvls : List (List Str)

namespace Plan

variable {U : UnicodeData} (p : Plan U)

def path (i : Nat) : Str :=
  match p.analysis.instances[i]? with
  | some ci => pathName U p.analysis.top ci.labels
  | none => []

/-- The node on a bit: the last one with the bit as its host. -/
def host (at_ : PortRef) : Option AnalogNode :=
  p.nodes.reverse.find? fun n => n.assigned.host = some at_ && (roleCode n.assigned.role).isSome

/-- The instances of a variant. -/
def insts (w : Nat) : List Nat :=
  (List.range p.analysis.instances.length).filter fun i => p.analysis.instances[i]?.any fun ci => ci.variant = w

/-- The rows of a variant: sorted by the names of the paths, as they are without blanks. -/
def rows (w : Nat) : List (Str × Nat) :=
  ((p.insts w).map fun i => (p.path i, i)).insertionSort fun a b => a.1 < b.1 ∨ a.1 = b.1 ∧ a.2 ≤ b.2

def slotCell (i : Nat) (sets : List (List Float)) (slot : Nat × Nat) : Option (List (List Float) × Nat × Nat) :=
  match p.host ⟨i, slot.1, slot.2⟩ with
  | none => some (sets, rolePassive, 0)
  | some n => do
    let set ← levels U n
    let code ← roleCode n.assigned.role
    let (sets, j) := intern sets set
    return (sets, code, j)

/-- A cell without a port has one column. -/
def row (v : Variant) (sets : List (List Float)) (r : Str × Nat) : Option (List (List Float) × List (Nat × Nat)) := do
  let (sets, cells) ← mapAccum (p.slotCell r.2) sets v.slots
  return (sets, if v.slots.isEmpty then [(rolePassive, 0)] else cells)

/-- `K_NAMES` -/
def keys : Nat := 13

def table (w : Nat) : Option Table := do
  let v ← p.analysis.variants[w]?
  let rows := p.rows w
  let width := (rows.map fun r => r.1.length).foldl max 0
  let (sets, cells) ← mapAccum (p.row v) [List.replicate keys (Float.ofNat 0)] rows
  let lvls ← sets.mapM fun set => set.mapM vreal
  return {
    n := rows.length
    len := width
    paths := rows.map fun r => PaddedSearch.ljust (' ' : CodePoint) width r.1
    roles := cells.map fun row => row.map Prod.fst
    lidx := cells.map fun row => row.map Prod.snd
    lvls := lvls }

/-- The package: a table for each variant that has an instance, in the order of the first instances. -/
def package : Option (List (Nat × Table)) :=
  (p.analysis.instances.map CutInstance.variant).eraseDups.mapM fun w => (p.table w).map fun t => (w, t)

end Plan

namespace Table

variable (t : Table)

/-- `vams_index`: none is the failure. -/
def vamsIndex (path : Str) : Option Nat :=
  if path.length ≤ t.len then
    PaddedSearch.search t.paths (PaddedSearch.ljust (' ' : CodePoint) t.len path) t.n 0 (t.n - 1)
  else none

/-- `vams_role` -/
def vamsRole (i slot : Nat) : Option Nat := t.roles[i]?.bind fun row => row[slot]?

/-- `vams_lvl` -/
def vamsLvl (i slot key : Nat) : Option Float := do
  let row ← t.lidx[i]?
  let j ← row[slot]?
  let set ← t.lvls[j]?
  let literal ← set[key]?
  asciiFloat literal

end Table

/-! ## The clones -/

/-- The processes that a slot may have. -/
inductive Block | d | a | z | rd | ra
deriving DecidableEq

/-- The generate statements of a slot whose condition holds. -/
def blocks (real : Bool) (mode : Mode) (r : Nat) : List Block :=
  let is (role : Role) : Bool := roleCode role = some r
  if real then
    (if mode.reads && is .rd2a then [.rd] else []) ++ if mode.drives && is .ra2d then [.ra] else []
  else
    (if mode.reads && (is .d2a || is .bidir) then [.d] else []) ++
    (if mode.drives && (is .a2d || is .bidir) then [.a] else []) ++
    if mode.drives && !is .a2d && !is .bidir then [.z] else []

/-- The processes of a role. -/
def needed : Role → List Block
  | .d2a => [.d]
  | .a2d => [.a]
  | .bidir => [.d, .a]
  | .rd2a => [.rd]
  | .ra2d => [.ra]
  | _ => []

namespace Plan

variable {U : UnicodeData} (p : Plan U)

/-- A slot of the clone of an instance, elaborated: its path gives the row, the row and the slot give the role. -/
def elaborated (t : Table) (v : Variant) (i slot : Nat) : Option (List Block) := do
  let row ← t.vamsIndex (p.path i)
  let r ← t.vamsRole row slot
  let (k, _) ← v.slots[slot]?
  let cp ← v.ports[k]?
  let mode ← v.modes[k]?
  return blocks cp.real mode r

end Plan

end Vamos.Ams.Cut
