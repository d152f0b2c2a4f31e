import Sv2ghdl.Python.Str

/-!
# Results of a run

`vamos/spectre/results.py`: the output that an engine left for each analysis of a plan is split into the
points of the sweeps around the analysis, and collected point by point.
-/

namespace Vamos.Spectre

/-! ## Plans -/

inductive Engine where
  | vacask | xyce
  deriving DecidableEq, Repr

inductive Kind where
  | op | dc | ac | noise | xf | tran
  deriving DecidableEq, Repr

inductive Axis where
  | time | freq | param
  deriving DecidableEq, Repr

/-- A sweep around an analysis, with the points of its grid. -/
structure SweepLevel (K : Type) where
  name : Python.Str
  values : List K
  deriving DecidableEq

/-- The analysis's own sweep: of the frequency or of a parameter. -/
structure OwnSweep (K : Type) where
  freq : Bool
  values : List K
  deriving DecidableEq

/-- The arguments of an analysis that its results read. -/
structure Args (K : Type) where
  start : Option K
  stop : Option K
  outputstart : Option K
  skipcount : Option Int
  skipstart : Option K
  skipstop : Option K
  timeWindow : List (K × K)
  deriving DecidableEq

structure AnalysisStep (K : Type) where
  id : String
  name : Python.Str
  kind : Kind
  /-- The sweeps around it, the outermost first. -/
  context : List (SweepLevel K)
  own : Option (OwnSweep K)
  args : Args K
  deriving DecidableEq

namespace AnalysisStep

variable {K : Type} (s : AnalysisStep K)

def counts : List Nat := s.context.map fun l => l.values.length

def ownValues : List K := (s.own.map OwnSweep.values).getD []

def axis : Option Axis :=
  if s.kind = .tran then some .time
  else match s.own with
    | some own => some (if own.freq then .freq else .param)
    | none => none

/-- Xyce runs a parameter sweep at a fixed frequency as a .STEP. -/
def ownStepped (engine : Engine) : Bool :=
  engine = .xyce && s.axis = some .param && (s.kind = .ac || s.kind = .noise || s.kind = .xf)

def planned : Nat := s.counts.prod

end AnalysisStep

/-! ## The output of an engine -/

inductive Status where
  | ok | failed | interrupted
  deriving DecidableEq, Repr

/-- What an engine left for an analysis. -/
structure Output (K R V : Type) where
  status : Status
  /-- The first sweep point that failed, counted from 1. -/
  failedPoint : Option Nat
  /-- The rows of each plot; `none` when there is no output that can be read. -/
  plots : Option (List (List R))
  /-- Whether the plot has the column of the x axis. -/
  hasX : Bool
  x : R → K
  /-- The values of the traces, from the columns of a row. -/
  make : R → V

/-- The rows from `first` up to `last`, or all rows of the plot. -/
structure Group where
  plot : Nat
  first : Nat
  last : Option Nat
  deriving DecidableEq, Repr

/-- A step with its output. -/
structure Loaded (K R V : Type) where
  engine : Engine
  step : AnalysisStep K
  out : Output K R V
  status : Status
  plots : List (List R)
  groups : List Group

section Groups

variable {K R V : Type} [LinearOrder K] (engine : Engine) (s : AnalysisStep K) (o : Output K R V)

/-- Where the time axis starts and restarts. -/
def bounds (x : R → K) : Option K → Nat → List R → List Nat
  | _, _, [] => []
  | prev, i, r :: rs =>
    if prev.all fun p => x r ≤ p then i :: bounds x (some (x r)) (i + 1) rs
    else bounds x (some (x r)) (i + 1) rs

/-- The groups of the one plot of VACASK. -/
def plotGroups (status : Status) (rows : List R) : List Group :=
  let total := rows.length
  if s.axis = some .time ∧ o.hasX then
    let bounds := bounds o.x none 0 rows ++ [total]
    (bounds.zip bounds.tail).map fun p => ⟨0, p.1, some p.2⟩
  else
    let size := max (if s.axis = some .param ∨ s.axis = some .freq then s.ownValues.length else 1) 1
    let full := total / size
    (List.range full).map (fun g => ⟨0, g * size, some ((g + 1) * size)⟩) ++
      if total % size ≠ 0 ∧ status = .interrupted then [⟨0, full * size, some total⟩] else []

/-- `_groups`.  Groups that were not planned are ignored. -/
def groups (status : Status) (plots : List (List R)) : List Group :=
  match engine with
  | .xyce =>
    let per := if s.ownStepped engine then s.ownValues.length else 1
    (List.range (if per ≠ 0 then plots.length / per else 0)).map fun g => ⟨g, 0, none⟩
  | .vacask =>
    if s.context = [] then [⟨0, 0, none⟩]
    else (plotGroups s o status (plots.headD [])).take s.planned

def load : Loaded K R V :=
  let failed : Loaded K R V := ⟨engine, s, o, .failed, [], []⟩
  if o.status = .failed ∧ o.failedPoint = none then failed
  else match o.plots with
    | none | some [] => failed
    | some plots =>
      let status := if engine = .vacask ∧ s.axis.isSome ∧ !o.hasX then .failed else o.status
      ⟨engine, s, o, status, plots, groups engine s o status plots⟩

end Groups

/-! ## Rows -/

namespace Loaded

variable {K R V : Type} (l : Loaded K R V)

/-- The rows of group `g`, as the engine wrote them. -/
def rowSource (g : Nat) : List R :=
  match l.groups[g]? with
  | none => []
  | some group =>
    if l.step.ownStepped l.engine then
      let per := l.step.ownValues.length
      (List.range per).flatMap fun j => (l.plots.getD (group.plot * per + j) []).take 1
    else match group.last with
      | none => l.plots.getD group.plot []
      | some last => ((l.plots.getD group.plot []).drop group.first).take (last - group.first)

/-- Missing groups and the points from the first failed one on have failed; the last group that is
    present of an interrupted run is interrupted. -/
def groupStatus (g : Nat) : Status :=
  if l.out.failedPoint.any fun k => k ≤ g + 1 then .failed
  else if l.groups.length ≤ g then .failed
  else if l.status = .interrupted ∧ g + 1 = l.groups.length then .interrupted
  else if l.status = .failed then
    if l.out.failedPoint = none then .failed else .ok
  else .ok

/-- The place of a point in the order of the points. -/
def groupIndex (idx : List Nat) : Nat :=
  (idx.zip l.step.counts).foldl (fun g p => g * p.2 + p.1) 0

variable [LinearOrder K] [Zero K] [Sub K] [Neg K] [Mul K]

/-- The filters of a tran's output.  The number of points between `skipstart` and `skipstop` that were
    looked at is carried along. -/
def tranKeep (a : Args K) (seen : Nat) (t : K) : Bool × Nat :=
  let start := a.start.getD 0
  if t < a.outputstart.getD start then (false, seen)
  else if a.timeWindow ≠ [] ∧ !a.timeWindow.any (fun w => w.1 ≤ t ∧ t ≤ w.2) then (false, seen)
  else if 1 < a.skipcount.getD 1 ∧ a.skipstart.getD start ≤ t ∧
      (a.skipstop.or a.stop).all (fun stop => t ≤ stop) then
    ((seen : Int) % a.skipcount.getD 1 = 0, seen + 1)
  else (true, seen)

def tranFilter (a : Args K) : Nat → List (K × V) → List (K × V)
  | _, [] => []
  | seen, row :: rows =>
    let keep := tranKeep a seen row.1
    if keep.1 then row :: tranFilter a keep.2 rows else tranFilter a keep.2 rows

variable (endRel : K)

/-- The planned last x, and how near to it the engine's last x is written as it. -/
def endPoint : Option (K × K) :=
  let abs (v : K) := max v (-v)
  let span := if l.step.kind = .tran then l.step.args.stop.map fun stop => (l.step.args.start.getD 0, stop)
    else match l.step.ownValues.head?, l.step.ownValues.getLast? with
      | some first, some stop => some (first, stop)
      | _, _ => none
  span.map fun p => (p.2, endRel * max (abs p.2) (abs (p.2 - p.1)))

/-- The last x, when it is near the planned one. -/
def pinLast (end_ : Option (K × K)) : List (K × V) → List (K × V)
  | [] => []
  | [row] =>
    match end_ with
    | some e => if max (row.1 - e.1) (-(row.1 - e.1)) ≤ e.2 then [(e.1, row.2)] else [row]
    | none => [row]
  | row :: rows => row :: pinLast end_ rows

/-- The rows that the results write, of the rows that the engine wrote for a point. -/
def written (src : List R) : List (K × V) :=
  if l.step.ownStepped l.engine then (l.step.ownValues.zip src).map fun p => (p.1, l.out.make p.2)
  else
    -- a point that the grid has as 0 is written 0
    let rows := src.zipIdx.map fun p =>
      (if l.step.axis = some .param ∧ l.step.ownValues[p.2]? = some 0 then 0 else l.out.x p.1,
        l.out.make p.1)
    let kept := if l.step.kind = .tran then tranFilter l.step.args 0 rows else rows
    pinLast (l.endPoint endRel) kept

def xyRows (g : Nat) : List (K × V) := l.written endRel (l.rowSource g)

end Loaded

/-! ## The collector -/

/-- A result that is collected: of an analysis without a sweep, the parent of a sweep around an analysis
    at the indices of the sweeps outside it, or the leaf of a point. -/
inductive Entry (K : Type) where
  | unswept (s : AnalysisStep K)
  | parent (s : AnalysisStep K) (depth : Nat) (idx : List Nat)
  | leaf (s : AnalysisStep K) (idx : List Nat)
  deriving DecidableEq

section Collector

variable {K : Type}

/-- The steps at a depth: those without a further sweep one by one, and the others in blocks under a
    sweep of one name. -/
def blocks (depth : Nat) : List (AnalysisStep K) → List (AnalysisStep K ⊕ List (AnalysisStep K))
  | [] => []
  | s :: rest =>
    match s.context[depth]? with
    | none => .inl s :: blocks depth rest
    | some level =>
      match blocks depth rest with
      | .inr (t :: ts) :: more =>
        if (t.context[depth]?.map SweepLevel.name) = some level.name then .inr (s :: t :: ts) :: more
        else .inr [s] :: .inr (t :: ts) :: more
      | more => .inr [s] :: more

/-- The number of points of the sweep at a depth, which is that of the first step. -/
def pointCount (block : List (AnalysisStep K)) (depth : Nat) : Nat :=
  (block.head?.bind fun s => s.counts[depth]?).getD 0

/-- `points`: per point of the sweep at `depth` the leaf of each step, or the parents of a nested sweep
    and its points.  The fuel is the number of sweeps that may still be nested. -/
def points (legacy : Bool) : Nat → List (AnalysisStep K) → Nat → List Nat → List (Entry K)
  | 0, _, _, _ => []
  | fuel + 1, block, depth, idx =>
    (List.range (pointCount block depth)).flatMap fun i =>
      (blocks (depth + 1) block).flatMap fun
        | .inl s => [.leaf s (idx ++ [i])]
        | .inr sub =>
          (if legacy then [] else sub.map fun t => .parent t (depth + 1) (idx ++ [i])) ++
            points legacy fuel sub (depth + 1) (idx ++ [i])

/-- `run`: an analysis without a sweep, or the parents of a block and its points. -/
def run (legacy : Bool) (steps : List (AnalysisStep K)) : List (Entry K) :=
  let fuel := (steps.map fun s => s.context.length).foldl max 0
  (blocks 0 steps).flatMap fun
    | .inl s => [.unswept s]
    | .inr block =>
      (if legacy then [] else block.map fun s => .parent s 0 []) ++ points legacy fuel block 0 []

end Collector

/-! ## What is collected -/

/-- The data of a result: the traces of an operating point, or rows. -/
inductive Data (K V : Type) where
  | none
  | values (v : V)
  | rows (rows : List (K × V))
  deriving DecidableEq

section Fill

variable {K R V : Type} [LinearOrder K] [Zero K] [Sub K] [Neg K] [Mul K] (endRel : K)
  (l : Loaded K R V)

/-- `fill`: an operating point whose row is missing has failed. -/
def fill (g : Nat) (status : Status) : Status × Data K V :=
  if status = .failed then (.failed, .none)
  else if l.step.axis = none then
    match l.rowSource g with
    | [] => (.failed, .none)
    | row :: _ => (status, .values (l.out.make row))
  else (status, .rows (l.xyRows endRel g))

def unswept : Status × Data K V :=
  fill endRel l 0 (if l.groups = [] then .failed else l.groupStatus 0)

def leaf (idx : List Nat) : Status × Data K V :=
  fill endRel l (l.groupIndex idx) (l.groupStatus (l.groupIndex idx))

/-- The values that a parent lists: of an innermost sweep those before the first failed point. -/
def parentValues (depth : Nat) (idx : List Nat) : List K :=
  let values := (l.step.context[depth]?.map SweepLevel.values).getD []
  if depth + 1 = l.step.context.length then
    values.take (((List.range values.length).takeWhile fun i =>
      l.groupStatus (l.groupIndex (idx ++ [i])) ≠ .failed).length)
  else values

end Fill

end Vamos.Spectre
