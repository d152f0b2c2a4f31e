import Sv2ghdl.Python.Str
import Sv2ghdl.Lists.OrderedDict

/-!
# The components of a path

A path of the netlist joins names with dots, and a name may hold dots itself.  `path_parts` of
`vamos/netlist/tables.py` finds the names again: it tries the cuts of the path, and each cut leads into the subckt of
an instance.
-/

open Python

namespace Vamos.PathParts

/-! ## Bodies

`B` tells the subckt definitions apart, as Python's `is` does. -/

variable {B : Type}

structure Instance where
  name : Str
  kind : Str
  nodes : List Str
  master : Option Str
  name_ne_nil : name ≠ []

inductive Item (B : Type) where
  | instance (it : Instance)
  | subckt (name : Str) (sub : B)
  | cond (branches : List (List (Item B))) (default : List (Item B))
  /-- A model, a parameter or a paramtest. -/
  | other

structure Subckt (B : Type) where
  ports : List Str
  body : List (Item B)

structure Netlist (B : Type) where
  body : List (Item B)
  subckt : B → Subckt B

mutual

def flatItem : Item B → List (Item B)
  | .instance it => [.instance it]
  | .subckt name sub => [.subckt name sub]
  | .cond branches default => .cond branches default :: (flatBranches branches ++ flatItems default)
  | .other => [.other]

/-- `flat_items` -/
def flatItems : List (Item B) → List (Item B)
  | [] => []
  | item :: items => flatItem item ++ flatItems items

def flatBranches : List (List (Item B)) → List (Item B)
  | [] => []
  | branch :: branches => flatItems branch ++ flatBranches branches

end

def instances (items : List (Item B)) : List Instance :=
  (flatItems items).filterMap fun
    | .instance it => some it
    | _ => none

/-- `Scope.subckts`: the last definition of a name counts. -/
def subckts (items : List (Item B)) : OrderedDict Str B :=
  (flatItems items).foldl (fun defs item =>
    match item with
    | .subckt name sub => defs.set name sub
    | _ => defs) .empty

/-! ## Scopes -/

/-- A body, the top level or a subckt, and the bodies around it. -/
inductive Scope (B : Type) where
  | top
  | child (sub : B) (parent : Scope B)

/-- The body, without what is around it. -/
def Scope.body : Scope B → Option B
  | .top => none
  | .child sub _ => some sub

variable (N : Netlist B)

def Netlist.items : Option B → List (Item B)
  | none => N.body
  | some sub => (N.subckt sub).body

def Netlist.ports : Option B → List Str
  | none => []
  | some sub => (N.subckt sub).ports

/-- `where` -/
def Netlist.where (name : Str) : Scope B → Option (B × Scope B)
  | .top => ((subckts N.body).lookup name).map (·, .top)
  | .child sub parent =>
    match (subckts (N.subckt sub).body).lookup name with
    | some found => some (found, .child sub parent)
    | none => Netlist.where name parent

/-- `find_subckt` -/
def Netlist.findSubckt (sc : Scope B) (name : Str) : Option B := (N.where name sc).map Prod.fst

/-- What the master of an instance is in a scope. -/
def Netlist.master (sc : Scope B) (it : Instance) : Option B :=
  if it.kind = str "x" then N.findSubckt sc (it.master.getD []) else none

/-- The names that a path may end in. -/
def Netlist.names (b : Option B) : List Str :=
  N.ports b ++ (instances (N.items b)).flatMap fun it => it.name :: it.nodes

/-! ## `path_parts` -/

variable [DecidableEq B]

/-- What `body` returns: the subckt instances by name, each with its subckts, and the names. -/
structure Entry (B : Type) where
  xs : OrderedDict Str (List B)
  names : List Str

/-- `xs.get(name, ())` -/
def Entry.subs (e : Entry B) (name : Str) : List B := (e.xs.lookup name).getD []

/-- One instance in the loop of `body`. -/
def addInstance (sc : Scope B) (xs : OrderedDict Str (List B)) (it : Instance) : OrderedDict Str (List B) :=
  match N.master sc it with
  | none => xs
  | some sub =>
    let subs := (xs.lookup it.name).getD []
    if sub ∈ subs then xs else xs.set it.name (subs ++ [sub])

def Netlist.entry (sc : Scope B) : Entry B :=
  ⟨(instances (N.items sc.body)).foldl (addInstance N sc) .empty, N.names sc.body⟩

/-- `index`: a body is looked into once, by whatever scope it is reached first. -/
abbrev Index (B : Type) := OrderedDict (Option B) (Entry B)

/-- `body` -/
def Netlist.look (ix : Index B) (sc : Scope B) : Index B × Entry B :=
  match ix.lookup sc.body with
  | some e => (ix, e)
  | none => (ix.set sc.body (N.entry sc), N.entry sc)

/-- The texts before and after each dot. -/
def cuts : Str → List (Str × Str)
  | [] => []
  | c :: s =>
    let later := (cuts s).map fun e => (c :: e.1, e.2)
    if c = '.' then ([], s) :: later else later

/-- The cuts after the name of a subckt instance, with the subckts of that name. -/
def Entry.tries (e : Entry B) (rest : Str) : List (Str × Str × B) :=
  (cuts rest).flatMap fun c => if c.1 = [] then [] else (e.subs c.1).map fun sub => (c.1, c.2, sub)

/-- The loops over the cuts and the subckts, up to the first that returns. -/
def tryEach (enter : Index B → Str → B → Index B × Option (List Str)) :
    List (Str × Str × B) → Index B → Index B × Option (List Str)
  | [], ix => (ix, none)
  | (head, tail, sub) :: tries, ix =>
    match enter ix tail sub with
    | (ix, some parts) => (ix, some (head :: parts))
    | (ix, none) => tryEach enter tries ix

/-- `exact`; the first argument is how much deeper the search may go. -/
def Netlist.exact : Nat → Index B → Str → Scope B → Index B × Option (List Str)
  | 0, ix, rest, sc =>
    let (ix, e) := N.look ix sc
    (ix, if rest ∈ e.names then some [rest] else none)
  | left + 1, ix, rest, sc =>
    let (ix, e) := N.look ix sc
    match tryEach (fun ix tail sub => Netlist.exact left ix tail (.child sub sc)) (e.tries rest) ix with
    | (ix, some parts) => (ix, some parts)
    | (ix, none) => (ix, if rest ∈ e.names then some [rest] else none)

/-- The shortest cut at each level, for a path that names nothing. -/
def Netlist.shortest : Nat → Index B → Str → Scope B → List Str
  | 0, _, rest, _ => [rest]
  | left + 1, ix, rest, sc =>
    let (ix, e) := N.look ix sc
    match e.tries rest with
    | [] => [rest]
    | (head, tail, sub) :: _ => head :: Netlist.shortest left ix tail (.child sub sc)

/-- How deep the search goes. -/
def maxDepth : Nat := 64

/-- `path_parts` -/
def Netlist.pathParts (path : Str) (scope : Option (Scope B)) : List Str :=
  if CodePoint.ofChar '.' ∈ path then
    let sc := scope.getD .top
    match N.exact maxDepth .empty path sc with
    | (_, some found) => found
    | (ix, none) => N.shortest maxDepth ix path sc
  else [path]

/-! ## What a path means

An instance's master is looked up where the body that holds the instance is defined, as `path_envs` does. -/

/-- The bodies that an instance name leads into. -/
def Netlist.entered (sc : Scope B) (name : Str) : List (Scope B) :=
  (instances (N.items sc.body)).filterMap fun it =>
    if it.kind = str "x" ∧ it.name = name then
      (N.where (it.master.getD []) sc).map fun found => .child found.1 found.2
    else none

/-- Each component but the last names a subckt instance of the body reached so far, and the last one names an instance,
    a node or a port there. -/
def Netlist.Decomposes : Scope B → List Str → Prop
  | _, [] => False
  | sc, [name] => name ∈ N.names sc.body
  | sc, name :: next :: parts => ∃ sc' ∈ N.entered sc name, Netlist.Decomposes sc' (next :: parts)

def joined (parts : List Str) : Str := (str ".").intercalate parts

instance Netlist.decidableDecomposes : ∀ (sc : Scope B) (parts : List Str), Decidable (N.Decomposes sc parts)
  | _, [] => inferInstanceAs (Decidable False)
  | sc, [name] => inferInstanceAs (Decidable (name ∈ N.names sc.body))
  | sc, name :: next :: parts =>
    have := fun sc' => Netlist.decidableDecomposes sc' (next :: parts)
    inferInstanceAs (Decidable (∃ sc' ∈ N.entered sc name, N.Decomposes sc' (next :: parts)))

end Vamos.PathParts
