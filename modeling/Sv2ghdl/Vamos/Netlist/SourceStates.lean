import Sv2ghdl.Vamos.Netlist.Sources
import Sv2ghdl.Vamos.Spectre.Results

/-!
# Source states

The analyses and alters of a run as far as they change independent sources: the states that `plan.build` keeps
of them (`vamos/netlist/plan.py`), the statements about them in VACASK's control block (`vamos/netlist/vacask.py`),
and what the instances hold when the statements run.
-/

open Python

namespace Vamos.Netlist.Sources

open Vamos.Spectre (Kind)

/-! ## The statements of a netlist -/

/-- The value an alter sets. -/
inductive Setting where
  | number (x : Float)
  | vector (xs : List Float)
  | word (w : Str)

def Setting.value : Setting → Value
  | number x => .one (.num x)
  | vector xs => .vector (xs.map .num)
  | word w => .one (.str w)

/-- A level of a sweep, with the source whose field it sweeps, if it sweeps one. -/
structure Level where
  source : Option Str
  param : Str

inductive Statement where
  | alter (path param : Str) (value : Setting)
  | analysis (kind : Kind) (levels : List Level)

/-- The sources of a netlist, or of a state of a run, by their paths in order. -/
abbrev SourceStates := List (Str × Source)

def setState (path : Str) (src : Source) (states : SourceStates) : SourceStates :=
  states.map fun s => if s.1 = path then (path, src) else s

/-! ## The plan -/

inductive SourceType where
  | dc | pulse | sine | exp | pwl
  deriving DecidableEq, Repr

def SourceType.text : SourceType → Str
  | dc => str "dc"
  | pulse => str "pulse"
  | sine => str "sine"
  | exp => str "exp"
  | pwl => str "pwl"

def Waveform.type : Waveform → SourceType
  | pulse .. => .pulse
  | sin .. => .sine
  | exp .. => .exp
  | pwl .. => .pwl

/-- `source_type`: the waveform of a source whose dc is not given. -/
def Source.type (src : Source) : SourceType :=
  match src.wave, src.dc with
  | some w, none => w.type
  | _, _ => .dc

inductive PlanError where
  | notANumber (param w : Str)
  | noSource (path : Str)
  | typeNotAWord
  | source (e : SourceError)
  /-- A field that VACASK's control block can neither print nor leave out. -/
  | control (path : Str) (key : Key)

/-- The plan's actions.  An analysis comes with the source states it runs in. -/
inductive Action where
  | alter (path param : Str) (src : Source)
  | source (path : Str) (type : SourceType) (src : Source)
  | analysis (kind : Kind) (levels : List Level) (states : SourceStates)

/-- A switch around an analysis: the type before it and the type after it. -/
structure Switch where
  path : Str
  src : Source
  before : SourceType
  after : SourceType

/-- The switches of `_step`: to the waveform around a tran, and to dc around a sweep of a dc that is not given. -/
def switches (states : SourceStates) (kind : Kind) (levels : List Level) : List Switch :=
  if kind = .tran then
    states.filterMap fun s =>
      match s.2.wave, s.2.dc with
      | some w, some _ => some ⟨s.1, s.2, w.type, .dc⟩
      | _, _ => none
  else
    levels.filterMap fun level =>
      match level.source with
      | none => none
      | some path =>
        if level.param = str "dc" then
          match states.lookup path with
          | none => none
          | some src =>
            match src.wave, src.dc with
            | some w, none => some ⟨path, src, .dc, w.type⟩
            | _, _ => none
        else none

section Plan

variable (U : UnicodeData) (M : Libm)
  -- whether an expression has another one, the same object, as a node; and the replacement of such nodes
  (holds : Expr → Expr → Bool) (swap : List (Expr × Expr) → Expr → Expr)

def Item.map (f : Expr → Expr) : Item → Item
  | expr e => .expr (f e)
  | points ps => .points (ps.map fun p => (f p.1, f p.2))

def Item.same : Item → Item → Bool
  | expr e, expr e' => sameExpr e e'
  | points ps, points ps' => sameExprs (ps.flatMap fun p => [p.1, p.2]) (ps'.flatMap fun p => [p.1, p.2])
  | _, _ => false

/-- Whether an instance that is left with the binding `was` has the value of `item`. -/
def keepsBinding (src base : Source) (hooked : Str → Bool) (was : Option Item) (item : Item) : Bool :=
  let altered (p : Str × Value) : Bool :=
    match base.spectre.lookup p.1 with
    | none => true
    | some v => !p.2.same v
  let deps := src.spectre.filter fun p => p.2.objects.any fun o => item.exprs.any fun x => holds x o
  let moved := deps.filter altered
  match was with
  | none => false
  | some was =>
    !deps.isEmpty && moved.all (fun p => hooked p.1 && (base.spectre.lookup p.1).isSome) &&
      (was.map (swap (moved.flatMap fun p =>
        match base.spectre.lookup p.1 with
        | none => []
        | some old => old.objects.zip p.2.objects))).same item

/-- `control_source_problems` -/
def controlSourceProblems (src base : Source) (hooked : Str → Bool) : List Key :=
  let was := base.printedItems.getD []
  ((src.printedItems.getD []).filter fun i =>
    i.2.reads U && !keepsBinding holds swap src base hooked (was.lookup i.1) i.2).map Prod.fst

/-- `_control_source_check` -/
def controlSourceCheck (netlist : SourceStates) (hooked : Str → Str → Bool) (path : Str) (src : Source) :
    Except PlanError Unit :=
  match netlist.lookup path with
  | none => .ok ()
  | some base =>
    match controlSourceProblems U holds swap src base (hooked path) with
    | [] => .ok ()
    | key :: _ => .error (.control path key)

variable (tranStops : List Float) (netlist : SourceStates) (hooked : Str → Str → Bool)

/-- A word is the value of a type only. -/
def checkWord (param : Str) : Setting → Except PlanError Unit
  | .word w => if param ≠ str "type" ∧ param ≠ str "file" then .error (.notANumber param w) else .ok ()
  | _ => .ok ()

/-- The type that the altered fields resolve with: the altered one, the one that is written, or that of the
    waveform. -/
def typeText (cur : Source) (params : Params) (param : Str) (value : Setting) : Except PlanError Str :=
  if param = str "type" then
    match value with
    | .word w => .ok w
    | _ => .error .typeNotAWord
  else
    match (params.lookup (str "type")).bind Value.text? with
    | some (c :: cs) => .ok (c :: cs)
    | _ => .ok ((cur.wave.map Waveform.type).getD .dc).text

def resolveAltered (params : Params) (type : Str) : Except PlanError Source :=
  match resolvedSource U M params type tranStops false with
  | .ok new => .ok new
  | .error e => .error (.source e)

/-- The part of `_alter` about a source's field: the source with the new value. -/
def alterSource (cur : Source) (param : Str) (value : Setting) : Except PlanError Source := do
  checkWord param value
  let params := setParam param value.value cur.spectre
  let type ← typeText cur params param value
  resolveAltered U M tranStops params type

/-- One statement of a netlist: the states after it and its actions. -/
def planStatement (states : SourceStates) : Statement → Except PlanError (SourceStates × List Action)
  | .alter path param value =>
    match states.lookup path with
    | none => .error (.noSource path)
    | some cur => do
      let new ← alterSource U M tranStops cur param value
      controlSourceCheck U holds swap netlist hooked path new
      return (setState path new states, [.alter path param new])
  | .analysis kind levels => do
    let sw := switches states kind levels
    for s in sw do
      controlSourceCheck U holds swap netlist hooked s.path s.src
    return (states, sw.map (fun s => .source s.path s.before s.src) ++ .analysis kind levels states ::
      sw.map fun s => .source s.path s.after s.src)

def planFrom (states : SourceStates) : List Statement → Except PlanError (List Action)
  | [] => .ok []
  | st :: sts => do
    let (states, actions) ← planStatement U M holds swap tranStops netlist hooked states st
    return actions ++ (← planFrom states sts)

/-- `build`, as far as it concerns sources. -/
def plan (statements : List Statement) : Except PlanError (List Action) :=
  planFrom U M holds swap tranStops netlist hooked netlist statements

end Plan

/-! ## The deck -/

/-- The parameters that a statement about a source prints. -/
structure Printed where
  type : SourceType
  fields : List (Key × Item)

inductive DeckError where
  | table (e : TableError)
  | noInstance (path : Str)
  | control (path : Str) (key : Key)

/-- A line of the control block about a source, or an analysis. -/
inductive Line where
  | alter (path : Str) (printed : Printed)
  | analysis (kind : Kind) (levels : List Level) (states : SourceStates)

/-- The fields of a source, with those that may be left out. -/
def Source.fields (src : Source) : Except TableError (List (Key × Item)) := do
  let items ← src.waveItems
  let dc := if src.dc.isNone && src.wave.isNone then [(.dc, .expr (.num 0))] else []
  return items ++ dc ++ src.dcItems

def Action.isAnalysis : Action → Bool
  | analysis .. => true
  | _ => false

section Deck

variable (U : UnicodeData) (holds : Expr → Expr → Bool) (swap : List (Expr × Expr) → Expr → Expr)

/-- `source_fields` of an instance line. -/
def instanceLine (src : Source) : Except DeckError Printed :=
  match src.fields with
  | .ok fields => .ok ⟨src.type, fields⟩
  | .error e => .error (.table e)

/-- `source_fields` with `ctl`: a field that reads something is left out. -/
def controlFields (path : Str) (src base : Source) (state : SourceType) (hooked : Str → Bool) :
    Except DeckError Printed :=
  match src.fields with
  | .error e => .error (.table e)
  | .ok fields =>
    let kept := fields.filter fun i => !i.2.reads U
    if fields.any fun i => i.2.reads U then
      match controlSourceProblems U holds swap src base hooked with
      | [] => .ok ⟨state, kept⟩
      | key :: _ => .error (.control path key)
    else .ok ⟨state, kept⟩

variable (netlist : SourceStates) (hooked : Str → Str → Bool)

/-- The type that an alter of a field prints; `last` is the type printed last for the source. -/
def alterType (last : Option SourceType) (param : Str) (src : Source) : SourceType :=
  match src.wave, src.dc with
  | some w, none => w.type
  | none, _ => .dc
  | some _, some _ => if param = str "dc" then .dc else last.getD src.type

/-- `plan_control`, with the types printed so far.  An alter after the last analysis is not printed. -/
def control (last : Str → Option SourceType) : List Action → Except DeckError (List Line)
  | [] => .ok []
  | .alter path param src :: rest =>
    if rest.any Action.isAnalysis then
      match netlist.lookup path with
      | none => .error (.noInstance path)
      | some base => do
        let state := alterType (last path) param src
        let printed ← controlFields U holds swap path src base state (hooked path)
        return .alter path printed :: (← control (Function.update last path (some state)) rest)
    else control last rest
  | .source path type src :: rest =>
    match netlist.lookup path with
    | none => .error (.noInstance path)
    | some base => do
      let printed ← controlFields U holds swap path src base type (hooked path)
      return .alter path printed :: (← control (Function.update last path (some type)) rest)
  | .analysis kind levels states :: rest => do
    return .analysis kind levels states :: (← control last rest)

/-- The instance lines of the sources and the control block. -/
def render (actions : List Action) : Except DeckError (List (Str × Printed) × List Line) := do
  let instances ← netlist.mapM fun s => do
    return (s.1, ← instanceLine s.2)
  return (instances, ← control U holds swap netlist hooked (fun _ => none) actions)

end Deck

/-! ## Replay -/

/-- What a parameter of an instance is: not set, bound on the instance line, or set by an alter. -/
inductive Binding where
  | unset
  | line (item : Item)
  | set (item : Item)

structure Live where
  type : SourceType
  param : Key → Binding

def Live.ofLine (p : Printed) : Live where
  type := p.type
  param key := match p.fields.lookup key with
    | none => .unset
    | some item => .line item

/-- `alter instance`: the parameters that are not named stay. -/
def Live.alter (live : Live) (p : Printed) : Live where
  type := p.type
  param key := match p.fields.lookup key with
    | none => live.param key
    | some item => .set item

/-- An analysis of a run: the source states of the plan and the instances. -/
structure Point where
  kind : Kind
  levels : List Level
  states : SourceStates
  lives : Str → Option Live

def replayFrom (lives : Str → Option Live) : List Line → List Point
  | [] => []
  | .alter path p :: rest => replayFrom (Function.update lives path ((lives path).map (·.alter p))) rest
  | .analysis kind levels states :: rest => ⟨kind, levels, states, lives⟩ :: replayFrom lives rest

def replay (deck : List (Str × Printed) × List Line) : List Point :=
  replayFrom (fun path => (deck.1.lookup path).map Live.ofLine) deck.2

end Vamos.Netlist.Sources
