import Sv2ghdl.Graph.Stages
import Sv2ghdl.Python.Str

/-!
# Supply traces

`vamos/ams/supply.py`: the search for the supply of a node in the deck graph.  Values are those of an ordered group; the
nodes of an instance are resolved, and the evaluator of a scope's expressions is given with the scope.
-/

open Python

namespace Vamos.Supply

variable {ε K : Type}

/-! ## The deck graph -/

/-- A scope, which is a tuple of instance names, and a name. -/
abbrev Node := List Str × Str

/-- `(TOP, GROUND)` -/
def ground : Node := ([], str "0")

/-- `_fmt_node` -/
def fmtNode (n : Node) : Str := List.intercalate (str ".") (n.1 ++ [n.2])

inductive LevelKind where
  | const | dynamic | unevaluable
  deriving DecidableEq, Repr

structure Level (K : Type) where
  kind : LevelKind
  value : Option K
  source : Str
  origin : Str
  why : Str
  deriving DecidableEq

inductive Wave where
  | none | pulse | sin | exp | pwl
  | other (name : Str)
  deriving DecidableEq, Repr

structure Source (ε : Type) where
  codeUri : Bool
  wave : Wave
  dc : Option ε
  args : Str → Option ε
  points : List (ε × ε)

inductive Kind where
  | r | l | m | j | v | other
  deriving DecidableEq, Repr

structure Instance (ε : Type) where
  name : Str
  kind : Kind
  nodes : List Node
  value : Option ε
  source : Option (Source ε)
  origin : Str

structure Scope (ε K : Type) where
  path : List Str
  instances : List (Instance ε)
  evaluate : ε → Except Str K

structure Reference (K : Type) where
  value : Option K
  name : Str
  index : Int
  deriving DecidableEq

/-- The graph, with its indexes.  `touching` lists the scopes with an instance on a node, the outer ones first; among
    scopes of one depth their order is any. -/
structure Deck (ε K : Type) where
  scopes : List (Scope ε K)
  touching : Node → List (Scope ε K)
  powernets : Str → Option K
  dynamicPowernets : Str → Option K
  labels : Str → Option Str
  skip : Node → Bool
  refs : Node → Option (Reference K)
  mem_touching : ∀ n s, s ∈ touching n ↔ s ∈ scopes ∧ ∃ inst ∈ s.instances, n ∈ inst.nodes
  sorted : ∀ n, (touching n).Pairwise fun s t => s.path.length ≤ t.path.length
  powernet_or_dynamic : ∀ name, (powernets name).isSome → dynamicPowernets name = none

/-! ## Elements -/

/-- The ends of a resistor, an inductor or a channel. -/
def Instance.channel (inst : Instance ε) : Option (Node × Node) :=
  match inst.kind, inst.nodes with
  | .r, a :: b :: _ | .l, a :: b :: _ => some (a, b)
  | .m, d :: _ :: s :: _ | .j, d :: _ :: s :: _ => some (d, s)
  | _, _ => none

/-- A MOS as its gate and the ends of its channel. -/
def Instance.gate (inst : Instance ε) : Option (Node × Node × Node) :=
  match inst.kind, inst.nodes with
  | .m, d :: g :: s :: _ => some (g, d, s)
  | _, _ => none

/-- The node of a V source to ground that is not ground, and whether it is the negative terminal. -/
def Instance.toGround (inst : Instance ε) : Option (Node × Bool) :=
  match inst.kind, inst.nodes with
  | .v, p :: n :: _ =>
    if n = ground ∧ p ≠ ground then some (p, false)
    else if p = ground ∧ n ≠ ground then some (n, true)
    else none
  | _, _ => none

def Deck.instances (D : Deck ε K) : List (Instance ε) := D.scopes.flatMap Scope.instances

/-- `_adj_all` -/
def Deck.adj (D : Deck ε K) (n : Node) : List Node :=
  (D.instances.filterMap Instance.channel).flatMap fun e =>
    (if e.1 = n then [e.2] else []) ++ if e.2 = n then [e.1] else []

/-- `_gates_all`, with the drains and sources in one list. -/
def Deck.gates (D : Deck ε K) (n : Node) : List Node :=
  (D.instances.filterMap Instance.gate).flatMap fun e => if e.1 = n then [e.2.1, e.2.2] else []

section Levels

variable [AddCommGroup K] [LinearOrder K]

/-- `ev` -/
def Scope.ev (s : Scope ε K) : Option ε → Except Str K
  | none => .ok 0
  | some e => s.evaluate e

/-- The levels of a wave. -/
def Scope.levels (s : Scope ε K) (src : Source ε) : Except Str (List K) :=
  match src.wave with
  | .none => do return [← s.ev src.dc]
  | .pulse | .exp => do return [← s.ev (src.args (str "v1")), ← s.ev (src.args (str "v2"))]
  | .sin => do
    let vo ← s.ev (src.args (str "vo"))
    let va ← s.ev (src.args (str "va"))
    return [vo - |va|, vo + |va|]
  | .pwl => do
    let levels ← src.points.mapM fun p => s.ev (some p.2)
    if levels = [] then return [← s.ev src.dc] else return levels
  | .other name => .error (str "a " ++ name ++ str " wave")

/-- `level` -/
def Scope.level (s : Scope ε K) (inst : Instance ε) : Level K :=
  let path := fmtNode (s.path, inst.name)
  let src := inst.source.getD ⟨false, .none, inst.value, fun _ => none, []⟩
  if src.codeUri then ⟨.unevaluable, none, path, inst.origin, str "a co-simulation source"⟩
  else match s.levels src with
    | .error why => ⟨.unevaluable, none, path, inst.origin, why⟩
    | .ok levels =>
      if levels.max? = levels.min? then ⟨.const, levels.head?, path, inst.origin, []⟩
      else ⟨.dynamic, levels.max?, path, inst.origin, []⟩

/-- The level at the terminal of a source that is not ground, when ground is its positive terminal. -/
def Level.neg (lv : Level K) : Level K := { lv with value := lv.value.map fun v => -v }

/-- The node that a V source to ground holds, with the level that `_hits` notes for it. -/
def Scope.held (s : Scope ε K) (inst : Instance ε) : Option (Node × Level K) :=
  inst.toGround.map fun t => (t.1, if t.2 then (s.level inst).neg else s.level inst)

/-- What one of the two tables of `_hits` has for a node: the last source on the node replaces the ones before. -/
def Scope.noted (s : Scope ε K) (unevaluable : Bool) (n : Node) : Option (Level K) :=
  ((s.instances.filterMap s.held).filter fun h =>
    h.1 = n ∧ decide (h.2.kind = .unevaluable) = unevaluable).getLast?.map Prod.snd

/-- `_hits(scope).get(n)` -/
def Scope.hits (s : Scope ε K) (n : Node) : Option (Level K) := s.noted false n

/-- `_uneval(scope).get(n)` -/
def Scope.uneval (s : Scope ε K) (n : Node) : Option (Level K) := s.noted true n

variable (D : Deck ε K)

def Deck.label (name : Str) : Str := (D.labels name).getD (str "powernet " ++ name)

/-- The level of a POWERNET node. -/
def Deck.powernet (n : Node) : Option (Level K) :=
  if n.1 = [] then
    match D.powernets n.2, D.dynamicPowernets n.2 with
    | some v, _ => some ⟨.const, some v, D.label n.2, [], []⟩
    | none, some v => some ⟨.dynamic, some v, D.label n.2, [], []⟩
    | none, none => none
  else none

def Deck.hitAt (n : Node) : Option (Level K) :=
  match D.powernet n with
  | some lv => some lv
  | none => (D.touching n).findSome? fun s => s.hits n

def Deck.unevaluableAt (n : Node) : Option (Level K) := (D.touching n).findSome? fun s => s.uneval n

/-! ## The trace -/

/-- What the trace from a start makes of a node. -/
inductive Class (K : Type) where
  | blocked
  | reference (ref : Reference K)
  | hit (value : K) (lv : Level K)
  | unevaluable (lv : Level K)
  | pass

/-- `self.refs.get(n)`, without the start's own reference of unknown value. -/
def Deck.ref (start n : Node) : Option (Reference K) :=
  (D.refs n).filter fun ref => !(n = start && ref.value.isNone)

def Deck.classify (start n : Node) : Class K :=
  if n = ground ∨ D.skip n then .blocked
  else match D.ref start n with
    | some ref => .reference ref
    | none =>
      match (D.hitAt n).bind fun lv => lv.value.map (·, lv) with
      | some (v, lv) => .hit v lv
      | none =>
        match D.unevaluableAt n with
        | some lv => .unevaluable lv
        | none => .pass

def Class.passes : Class K → Bool
  | .pass => true
  | _ => false

def Class.hits : Class K → Bool
  | .blocked | .pass => false
  | _ => true

/-- `max(l, key=key)`: the first of the greatest. -/
def maxBy {β : Type} (key : β → K) : List β → Option β
  | [] => none
  | b :: bs => some (bs.foldl (fun best c => if key best < key c then c else best) b)

structure TraceResult (K : Type) where
  vdd : K
  source : Str
  path : List Str
  dynamic : Bool
  visited : List Node
  refName : Option Str
  refIndex : Int
  refDynamic : Bool
  unevaluable : List (Level K)

/-- `path_to` -/
def pathTo (s : Stages.Search Node) (n : Node) : List Str :=
  ((Stages.climb s.parent s.visited.length n).getD []).map fmtNode

/-- What the nodes of a stage add to `refs`, `hits` and `uneval`. -/
def Class.ref? (n : Node) : Class K → Option (Node × Reference K)
  | .reference ref => some (n, ref)
  | _ => none

def Class.hit? (n : Node) : Class K → Option (K × Level K × Node)
  | .hit v lv => some (v, lv, n)
  | _ => none

def Class.unevaluable? : Class K → Option (Level K)
  | .unevaluable lv => some lv
  | _ => none

/-- What `trace` returns for a stage with a hit. -/
def Deck.decide (start : Node) (s : Stages.Search Node) (order : List Node) : Option (TraceResult K) :=
  let refs := order.filterMap fun n => (D.classify start n).ref? n
  let hits := order.filterMap fun n => (D.classify start n).hit? n
  let uneval := order.filterMap fun n => (D.classify start n).unevaluable?
  match (refs.find? fun r => r.2.value.isNone).or (maxBy (fun r => r.2.value.getD 0) refs) with
  | some (n, ref) =>
    some ⟨ref.value.getD 0, str "ie_reference_voltage " ++ ref.name, pathTo s n, false, s.visited, some ref.name,
      ref.index, ref.value.isNone, []⟩
  | none =>
    match maxBy Prod.fst hits with
    | some (v, lv, n) =>
      some ⟨v, lv.source, pathTo s n, lv.kind = .dynamic, s.visited, none, -1, false, uneval⟩
    | none =>
      uneval.head?.map fun lv => ⟨0, lv.source, [], false, s.visited, none, -1, false, uneval⟩

/-- The nodes that a trace can reach. -/
def Deck.nodes (start : Node) : List Node := start :: D.instances.flatMap Instance.nodes

def Deck.trace (start : Node) : Option (Option (TraceResult K)) :=
  (Stages.search (fun n => (D.classify start n).passes) D.adj D.gates (fun n => (D.classify start n).hits)
    (D.nodes start).length start).map fun r => r.bind fun w => D.decide start w.1 w.2

end Levels

end Vamos.Supply
