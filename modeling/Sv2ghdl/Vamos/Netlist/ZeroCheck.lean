import Sv2ghdl.Python.Str
import Sv2ghdl.Lists.OrderedDict
import Sv2ghdl.Lists.StableSort
import Mathlib.Data.Finmap
import Mathlib.Data.Prod.Lex
import Mathlib.Data.List.Lex

/-!
# The resistances that a step makes zero

`vamos/netlist/plan.py` checks the states that an analysis step runs in.  A state is walked once for everything but
the resistances that sweeps and alters set, and a resistance that is zero in a state is an error at the first point
where it is.  `_check_r_levels` finds these errors without a visit to every point of the sweep levels.
-/

open Python

namespace Vamos.Netlist.Zero

variable {V : Type}

/-! ## States -/

/-- What a walk of the instance paths reads; `inst` has the path with each value. -/
structure Walked (V : Type) where
  top : Finmap fun _ : Str => V
  temp : V
  tnom : V
  inst : Finmap fun _ : Nat × Str => V × Str
  model : Finmap fun _ : Nat × Str => V
  deriving DecidableEq

/-- `_State`: `rset` has the resistances that sweeps and alters set. -/
structure State (V : Type) where
  walked : Walked V
  rset : OrderedDict Str V

/-- `walk_key` -/
def State.walkKey (st : State V) : Walked V := st.walked

/-- An instance on one path; `short` and `infinite` are `is_short` and `is_infinite_resistor` of it. -/
structure Inst where
  path : Str
  id : Nat
  name : Str
  kind : Str
  origin : Str
  envPath : Str
  short : Bool
  infinite : Bool

inductive TargetKind where
  | variable
  | option
  | device
  | model
  deriving DecidableEq, Repr

/-- `_Resolved`: a target, its instance or its model cards; `subckt` says that it is a parameter of a subckt. -/
structure Resolved where
  kind : TargetKind
  name : Str
  inst : Option Inst
  cards : List Nat
  sourceField : Bool
  subckt : Bool

/-- `_sets_r`: the target is a resistor's `r`; the resistor. -/
def setsR (r : Resolved) (param : Str) : Option Inst :=
  match r.inst with
  | some it =>
    if r.kind = .device ∧ !r.subckt ∧ !r.sourceField ∧ it.kind = str "r" ∧ param = str "r" then some it else none
  | none => none

/-- `_apply` of a target that is not a resistor's `r`. -/
def Walked.apply (w : Walked V) (r : Resolved) (param : Str) (value : V) : Walked V :=
  match r.kind with
  | .variable => { w with top := w.top.insert r.name value }
  | .option => if r.name = str "temp" then { w with temp := value } else { w with tnom := value }
  | .model => { w with model := r.cards.foldl (fun m c => m.insert (c, param) value) w.model }
  | .device =>
    match r.inst with
    | some it => if r.sourceField then w else { w with inst := w.inst.insert (it.id, param) (value, it.path) }
    | none => w

/-- `_apply` -/
def apply (st : State V) (r : Resolved) (param : Str) (value : V) : State V :=
  match setsR r param with
  | some it => { st with rset := st.rset.set it.path value }
  | none => { st with walked := st.walked.apply r param value }

/-! ## Findings -/

/-- A resistance that is zero: the resistor's path, its origin and what is wrong. -/
structure Finding where
  path : Str
  origin : Str
  text : Str
  deriving DecidableEq

def zeroText (name path reason : Str) : Str :=
  str "resistor " ++ name ++ str " on path " ++ path ++ str ": " ++ reason ++ str (", and vamos prints a short only " ++
    "for the constant r=0: a non-constant r that evaluates to 0 is an error in v1 (§3.8, §4.5 item 10; VACASK's " ++
    "resistor fails with NaN at r=0, and Xyce's swept to 0 becomes an open circuit)")

/-- The netlist as the checks see it: its instances by path, and what a walk finds to be zero. -/
structure Deck (V : Type) where
  insts : OrderedDict Str Inst
  walk : Walked V → List Finding

variable [DecidableEq V] [Zero V]

/-- `walk_order.get(path, len(walk_order))` -/
def Deck.order (N : Deck V) (path : Str) : Nat := N.insts.keys.idxOf path

/-- `_zero_set` -/
def Deck.zeroSet (N : Deck V) (path : Str) : Option Finding :=
  match N.insts.lookup path with
  | none => none
  | some it =>
    if it.kind ≠ str "r" ∨ it.short ∨ it.infinite then none
    else some ⟨path, it.origin, zeroText it.name (if it.envPath = [] then str "top level" else it.envPath)
      (str "its r, set by a sweep or alter, is 0")⟩

/-- The part of `_Ctx` that the checks of zero resistances read and change.  `checked` has the walks made, each with
    where it was made, and `calls` has the calls of `err`. -/
structure Ctx (V : Type) where
  base : State V
  history : List (State V × Str)
  checked : List (Walked V × Str)
  reported : List Str
  calls : List (Str × Str)

namespace Ctx

variable (N : Deck V) (ctx : Ctx V)

/-- `ctx.zeros.get(key, [])` -/
def zeros (key : Walked V) : List Finding := if key ∈ ctx.checked.map Prod.fst then N.walk key else []

/-- `_zeros_of` -/
def zerosOf (st : State V) : List Finding :=
  let walk := ctx.zeros N st.walkKey
  if st.rset.items = [] then walk
  else StableSort.sortBy (fun z => N.order z.path)
    (walk.filter (fun z => z.path ∉ st.rset.keys) ++
      st.rset.items.filterMap fun e => if e.2 = 0 then N.zeroSet e.1 else none)

/-- `_walk_state` -/
def walkState (st : State V) (place : Str) : Ctx V :=
  if st.walkKey ∈ ctx.checked.map Prod.fst then ctx
  else { ctx with checked := ctx.checked ++ [(st.walkKey, place)] }

/-- The loop of `_zero_cause` over the states, newest first. -/
def causeFrom (path : Str) : List (State V × Str) → Str → Str
  | [], cause => cause
  | (st, place) :: rest, cause =>
    if (ctx.zerosOf N st).any fun z => z.path = path then causeFrom path rest place else cause

/-- `_zero_cause` -/
def zeroCause (path : Str) : Str := ctx.causeFrom N path ctx.history.reverse []

/-- `ctx.err` -/
def err (origin message : Str) : Ctx V := { ctx with calls := ctx.calls ++ [(origin, message)] }

/-- `_add` keeps an error once. -/
def notes : List (Str × Str) := StableSort.firsts id ctx.calls

/-- One turn of `_report_zeros`. -/
def reportZero (place sweeps : Str) (z : Finding) : Ctx V :=
  if z.path ∈ ctx.reported then ctx
  else
    let cause := ctx.zeroCause N z.path
    let parts := (if sweeps = [] then [] else [sweeps]) ++ if cause = [] then [] else [str "after " ++ cause]
    let told := if parts = [] then [] else str " (" ++ (str "; ").intercalate parts ++ str ")"
    { ctx with reported := z.path :: ctx.reported }.err z.origin (place ++ told ++ str ": " ++ z.text)

/-- `_report_zeros` -/
def reportZeros (zs : List Finding) (place sweeps : Str) : Ctx V :=
  zs.foldl (fun ctx z => ctx.reportZero N place sweeps z) ctx

/-- `_check_state` of a state that runs. -/
def checkState (st : State V) (place sweeps : Str) : Ctx V :=
  let ctx := ctx.walkState st place
  ctx.reportZeros N (ctx.zerosOf N st) place sweeps

end Ctx

/-! ## Levels -/

/-- A sweep level that changes what the checks see, with the values of its grid. -/
structure Axis (V : Type) where
  r : Resolved
  param : Str
  desc : Str
  values : List V
  nonempty : values ≠ []

/-- One value of a level. -/
structure Item (V : Type) where
  r : Resolved
  param : Str
  desc : Str
  value : V

namespace Axis

/-- The resistor whose `r` the level sets. -/
def sets (ax : Axis V) : Option Inst := setsR ax.r ax.param

/-- The level is walked. -/
def walked (ax : Axis V) : Bool := ax.sets.isNone

def items (ax : Axis V) : List (Item V) := ax.values.map fun v => ⟨ax.r, ax.param, ax.desc, v⟩

/-- `axes[i][j]` -/
def item (ax : Axis V) (j : Nat) : Item V := ⟨ax.r, ax.param, ax.desc, ax.values[j]?.getD (ax.values.head ax.nonempty)⟩

/-- The first place where the level is 0. -/
def firstZero (ax : Axis V) : Option Nat := if (0 : V) ∈ ax.values then some (ax.values.idxOf 0) else none

end Axis

/-- `itertools.product(*ls)` -/
def product {α : Type} : List (List α) → List (List α)
  | [] => [[]]
  | l :: ls => l.flatMap fun a => (product ls).map (a :: ·)

/-- `"%s at %s" % (what, ", ".join("%s=%s" % (desc, _fmt(v))))` -/
def place (fmt : V → Str) (what : Str) (items : List (Item V)) : Str :=
  what ++ str " at " ++ (str ", ").intercalate (items.map fun it => it.desc ++ str "=" ++ fmt it.value)

def applyAll (st : State V) (items : List (Item V)) : State V :=
  items.foldl (fun st it => apply st it.r it.param it.value) st

variable (N : Deck V) (fmt : V → Str)

/-- The loop of `_check_step_states` over every point of the levels. -/
def checkProduct (ctx : Ctx V) (axes : List (Axis V)) (what sweeps : Str) : Ctx V :=
  (product (axes.map Axis.items)).foldl
    (fun c combo => c.checkState N (applyAll ctx.base combo) (place fmt what combo) sweeps) ctx

/-! ## `_check_r_levels` -/

/-- `last`: the last level that sets each resistor. -/
def lastLevels (axes : List (Axis V)) : OrderedDict Str Nat :=
  axes.zipIdx.foldl (fun last e => (e.1.sets.map fun it => last.set it.path e.2).getD last) .empty

/-- `idx`: the positions of the walked levels, and 0 at the others. -/
def spread : List (Axis V) → List Nat → List Nat
  | [], _ => []
  | ax :: axes, js =>
    if ax.walked then js.headD 0 :: spread axes js.tail else 0 :: spread axes js

/-- The items of a point. -/
def pick (axes : List (Axis V)) (idx : List Nat) : List (Item V) := List.zipWith Axis.item axes idx

/-- The items of a point at the walked levels. -/
def pickWalked (axes : List (Axis V)) (idx : List Nat) : List (Item V) :=
  (axes.zip idx).filterMap fun e => if e.1.walked then some (e.1.item e.2) else none

/-- What `keep` holds of a finding: its point and its place in a walk decide. -/
structure Cand where
  idx : List Nat
  order : Nat
  finding : Finding
  deriving DecidableEq

/-- `cand[:2]` -/
def Cand.key (c : Cand) : List Nat ×ₗ Nat := toLex (c.idx, c.order)

def Cand.path (c : Cand) : Str := c.finding.path

/-- `keep` -/
def keep (first : OrderedDict Str Cand) (idx : List Nat) (z : Finding) : OrderedDict Str Cand :=
  let cand : Cand := ⟨idx, N.order z.path, z⟩
  match first.lookup z.path with
  | none => first.set z.path cand
  | some old => if cand.key < old.key then first.set z.path cand else first

/-- The first values of the levels in `last`. -/
def leadItems (axes : List (Axis V)) : List (Item V) :=
  (lastLevels axes).items.filterMap fun e => axes[e.2]?.map fun ax => ax.item 0

/-- One turn of the loop over the combinations of the walked levels. -/
def levelTurn (base : State V) (axes : List (Axis V)) (what : Str) (s : Ctx V × OrderedDict Str Cand)
    (widx : List Nat) : Ctx V × OrderedDict Str Cand :=
  let idx := spread axes widx
  let st := applyAll base (pickWalked axes idx)
  let lead := applyAll st (leadItems axes)
  let ctx := s.1.walkState lead (place fmt what (pick axes idx))
  let first := (ctx.zerosOf N st).foldl
    (fun first z => if z.path ∈ (lastLevels axes).keys then first else keep N first idx z) s.2
  let first := (lastLevels axes).items.foldl
    (fun first e =>
      match axes[e.2]?.bind Axis.firstZero, N.zeroSet e.1 with
      | some j, some z => keep N first (idx.set e.2 j) z
      | _, _ => first) first
  (ctx, first)

/-- `_check_r_levels` -/
def checkRLevels (ctx : Ctx V) (axes : List (Axis V)) (what sweeps : Str) : Ctx V :=
  let ranges := (axes.filter Axis.walked).map fun ax => List.range ax.values.length
  let (ctx', first) := (product ranges).foldl (levelTurn N fmt ctx.base axes what) (ctx, .empty)
  (StableSort.sortBy Cand.key (first.items.map Prod.snd)).foldl
    (fun c cand => c.reportZeros N [cand.finding] (place fmt what (pick axes cand.idx)) sweeps) ctx'

end Vamos.Netlist.Zero
