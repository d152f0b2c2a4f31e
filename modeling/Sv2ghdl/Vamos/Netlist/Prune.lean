import Sv2ghdl.Graph.Marks
import Sv2ghdl.Graph.BackEdges
import Sv2ghdl.Vamos.Netlist.SpiceFile

/-!
# Subckts that are left out

`prune` of `vamos/netlist/spice.py`: a subckt with an element that vamos cannot simulate is left out, with the subckts
inside it and the subckts that instantiate it.  A subckt that is kept and instantiates itself is an error.
-/

open Python Vamos.Netlist.Spice

namespace Vamos.Prune

/-! ## The deck -/

structure Instance where
  name : Str
  origin : Str
  deriving DecidableEq, Repr

/-- An element statement, with what `element` makes of it: the text of a problem, or the element.  `η` is what a
    definition line says: the ports, and the parameters. -/
inductive Element (η : Type) where
  /-- An element other than X, by its name; a statement may define no element. -/
  | plain (origin : Str) (read : Except Str (Option Str))
  /-- An X element, which is checked against the definition line of its subckt, or has another master if there is
      no subckt of that name. -/
  | call (origin name master : Str) (read : Option η → Except Str Unit)

/-- The scope of a `.subckt`, one of `n`. -/
structure Definition (n : Nat) (η : Type) where
  name : Str
  origin : Str
  /-- The scope around it, `none` for the top level. -/
  parent : Option (Fin n)
  header : η
  /-- What `declare` defers. -/
  problems : List Note
  elements : List (Element η)

/-- A deck; the scopes are counted in the order of their `.subckt` statements. -/
structure Deck (η : Type) where
  top : List (Element η)
  count : Nat
  definition : Fin count → Definition count η
  parent_lt : ∀ i p, (definition i).parent = some p → p < i

variable {η : Type}

namespace Deck

variable (D : Deck η)

/-- A scope, `none` for the top level. -/
abbrev Scope : Type := Option (Fin D.count)

def name (i : Fin D.count) : Str := (D.definition i).name

def parent (i : Fin D.count) : D.Scope := (D.definition i).parent

def elements : D.Scope → List (Element η)
  | none => D.top
  | some i => (D.definition i).elements

/-- `scope.subckts`: the first definition of a name counts. -/
def subckt (s : D.Scope) (name : Str) : Option (Fin D.count) :=
  (List.finRange D.count).find? fun i => D.parent i = s ∧ D.name i = name

/-- The scopes in `scope.out`: a second definition of a name is dropped. -/
def out (s : D.Scope) : List (Fin D.count) :=
  (List.finRange D.count).filter fun i => D.parent i = s ∧ D.subckt s (D.name i) = some i

theorem parent_lt_of_eq {i p : Fin D.count} (h : D.parent i = some p) : p < i := D.parent_lt i p h

/-- `chain` -/
def chain : D.Scope → List D.Scope
  | none => [none]
  | some i => some i :: chain (D.parent i)
termination_by s => s.elim 0 fun i => i.val + 1
decreasing_by
  cases h : D.parent i with
  | none => exact Nat.succ_pos _
  | some p => exact Nat.succ_lt_succ (D.parent_lt_of_eq h)

/-- `find_subckt` -/
def findSubckt (s : D.Scope) (name : Str) : Option (Fin D.count) :=
  (D.chain s).findSome? fun s => D.subckt s name

/-! ## Elements -/

/-- What `elements` has read of a scope. -/
structure Read (n : Nat) where
  insts : OrderedDict Str Str
  xrefs : List (Instance × Fin n)
  deferred : List Note

variable {D}

/-- `fail` -/
def Read.fail {n : Nat} (r : Read n) (origin message : Str) : Read n :=
  { r with deferred := r.deferred ++ [⟨.error, origin, message⟩] }

def Read.add {n : Nat} (r : Read n) (origin name : Str) : Read n :=
  match r.insts.lookup name with
  | some first =>
    r.fail origin (str "element " ++ name ++ str " is defined twice: " ++ first ++ str " and " ++ origin)
  | none => { r with insts := r.insts.set name origin }

variable (D)

def readElement (s : D.Scope) (r : Read D.count) : Element η → Read D.count
  | .plain origin (.error message) => r.fail origin message
  | .plain _ (.ok none) => r
  | .plain origin (.ok (some name)) => r.add origin name
  | .call origin name master read =>
    let target := D.findSubckt s master
    match read (target.map fun j => (D.definition j).header) with
    | .error message => r.fail origin message
    | .ok () =>
      match target with
      | some j => Read.add { r with xrefs := r.xrefs ++ [(⟨name, origin⟩, j)] } origin name
      | none => r.add origin name

def problems : D.Scope → List Note
  | none => []
  | some i => (D.definition i).problems

/-- `elements`; at the top level the problems are errors at once. -/
def read (s : D.Scope) : Read D.count :=
  (D.elements s).foldl (D.readElement s) ⟨.empty, [], D.problems s⟩

def xrefs (s : D.Scope) : List (Instance × Fin D.count) := (D.read s).xrefs

def deferred (i : Fin D.count) : List Note := (D.read (some i)).deferred

/-! ## Pruning -/

/-- The scopes inside a scope, those that are walked into each before what is inside it, nested no deeper than the
    fuel. -/
def below (walked : Fin D.count → Bool) : Nat → D.Scope → List (Fin D.count)
  | 0, _ => []
  | fuel + 1, s => ((D.out s).filter walked).flatMap fun i => i :: below walked fuel (some i)

/-- `collect` -/
def scopes : List (Fin D.count) := D.below (fun _ => true) D.count none

/-- Why a scope is left out, given those that are. -/
def why (bad : OrderedDict (Fin D.count) Note) (i : Fin D.count) : Option Note :=
  match D.deferred i with
  | d :: _ => some ⟨.error, d.origin, d.message⟩
  | [] =>
    match (D.parent i).bind bad.lookup with
    | some note => some note
    | none => (D.xrefs (some i)).findSome? fun x =>
        if x.2 ∈ bad.keys then
          some ⟨.error, x.1.origin, x.1.name ++ str " instantiates subckt " ++ D.name x.2 ++
            str ", which is left out"⟩
        else none

def kept (bad : OrderedDict (Fin D.count) Note) : List (Fin D.count) := D.scopes.filter (· ∉ bad.keys)

/-- The instances of a scope whose subckts are kept. -/
def keptXrefs (bad : OrderedDict (Fin D.count) Note) (i : Fin D.count) : List (Instance × Fin D.count) :=
  (D.xrefs (some i)).filter (·.2 ∉ bad.keys)

def cycles (bad : OrderedDict (Fin D.count) Note) : Option (List (Instance × List (Fin D.count))) :=
  (BackEdges.search (D.keptXrefs bad) (D.kept bad).length (D.kept bad)).map BackEdges.State.found

/-- The error for an instance that closes a cycle; the cycle ends with the subckt it begins with. -/
def cycleNote (c : Instance × List (Fin D.count)) : Note :=
  ⟨.error, c.1.origin, str "subckt " ++ (c.2.getLast?.map D.name).getD [] ++ str " instantiates itself: " ++
    List.intercalate (str " -> ") (c.2.map D.name)⟩

def topError (bad : OrderedDict (Fin D.count) Note) (x : Instance × Fin D.count) : Option Note :=
  (bad.lookup x.2).map fun why =>
    ⟨.error, x.1.origin, x.1.name ++ str ": subckt " ++ D.name x.2 ++ str " cannot be simulated by vamos: " ++
      why.message ++ str " (" ++ why.origin ++ str ")"⟩

/-- The note for a scope that is left out, unless the scope around it is. -/
def leftNote (bad : OrderedDict (Fin D.count) Note) (i : Fin D.count) : Option Note :=
  if ((D.parent i).bind bad.lookup).isSome then none
  else (bad.lookup i).map fun why =>
    ⟨.note, (D.definition i).origin, str "subckt " ++ D.name i ++ str " is left out: " ++ why.message ++ str " (" ++
      why.origin ++ str "); instantiating it is an error"⟩

/-- What `prune` leaves; `notes` are those of the whole reading from the elements on. -/
structure Pruned where
  bad : OrderedDict (Fin D.count) Note
  cycles : List (Instance × List (Fin D.count))
  notes : List Note
  left : OrderedDict Str Note

def pruned (bad : OrderedDict (Fin D.count) Note) (cycles : List (Instance × List (Fin D.count))) : D.Pruned where
  bad := bad
  cycles := cycles
  notes := (D.read none).deferred ++ cycles.map D.cycleNote ++ (D.xrefs none).filterMap (D.topError bad) ++
    D.scopes.filterMap (D.leftNote bad)
  left := D.scopes.foldl (fun left i =>
    match D.leftNote bad i with
    | some note => if D.parent i = none then left.set (D.name i) note else left
    | none => left) .empty

def prune : Option D.Pruned := do
  let bad ← Marks.passes D.why D.scopes (D.scopes.length + 1) .empty
  let cycles ← D.cycles bad
  return D.pruned bad cycles

/-- `kept_scopes` -/
def keptScopes (bad : OrderedDict (Fin D.count) Note) : List D.Scope :=
  none :: (D.below (fun i => i ∉ bad.keys) D.count none).map some

end Deck

end Vamos.Prune
