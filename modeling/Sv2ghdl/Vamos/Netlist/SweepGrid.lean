import Sv2ghdl.Vamos.Netlist.ExprAst
import Mathlib.Algebra.Order.Round
import Mathlib.Data.Rat.Floor

/-!
# The grids of a sweep

`vamos/netlist/plan.py` turns a written sweep into one that an engine runs (`grid`) and lists its points
(`grid_points`).  `vamos/spectre/results.py` lists them again to label the results, and
`vamos/netlist/vacask.py` once more to see whether VACASK runs them by itself.  The arithmetic is exact here.
-/

open Python

namespace Vamos.Netlist.Sweep

/-! ## Sweeps -/

/-- The `mode` of a `SweepSpec`; `unset` is `""`. -/
inductive Mode where
  | lin
  | dec
  | log
  | step
  | values
  | unset
  | other (name : Str)
  deriving DecidableEq, Repr

def Mode.text : Mode → Str
  | .lin => str "lin"
  | .dec => str "dec"
  | .log => str "log"
  | .step => str "step"
  | .values => str "values"
  | .unset => []
  | .other name => name

/-- `ir.SweepSpec` as it is written. -/
structure SweepSpec where
  target : Str
  name : Str
  param : Str
  mode : Mode
  start : Option Expr
  stop : Option Expr
  step : Option Expr
  count : Option Int
  values : List Expr
  origin : Str

/-- A `SweepSpec` that `grid` returns: every expression is a number. -/
structure Grid (K : Type) where
  target : Str
  name : Str
  param : Str
  mode : Mode
  start : Option K
  stop : Option K
  step : Option K
  count : Option Int
  values : List K
  origin : Str
  deriving DecidableEq

/-- The functions of `math` that the grids call; `pow x y` is `x ** y`. -/
structure Arith (K : Type) where
  pow : K → K → K
  log10 : K → K

def defaultGridCount : Int := 50

mutual

/-- `==` of two nodes. -/
def equal : Expr → Expr → Bool
  | .num x, .num y => x == y
  | .name x, .name y => x == y
  | .str x, .str y => x == y
  | .call f as, .call g bs => f == g && equalArgs as bs
  | .unary o a, .unary p b => o == p && equal a b
  | .binary o a b, .binary p c d => o == p && equal a c && equal b d
  | .ternary a b c, .ternary d e f => equal a d && equal b e && equal c f
  | _, _ => false

def equalArgs : List Expr → List Expr → Bool
  | [], [] => true
  | a :: as, b :: bs => equal a b && equalArgs as bs
  | _, _ => false

end

/-- `center_span`: the bounds are `c - s/2` and `c + s/2`. -/
def centerSpan (spec : SweepSpec) : Bool :=
  match spec.start, spec.stop with
  | some (.binary .sub c (.binary .div s two)), some (.binary .add c' half) =>
    equal c c' && equal (.binary .div s two) half && equal two (.num 2.0)
  | _, _ => false

/-- What `grid` reports, next to what the evaluation of an expression does. -/
inductive Fault (K : Type) where
  | reading (message : Str)
  | emptyValues
  | needsStop
  | stepMissing
  | neverReaches (step stop start : K)
  | linCount
  | logBounds (start stop : K)
  | logCount (mode : Mode)
  | centerSpan (ratio : K)
  | unknownMode (mode : Mode)

/-- The message, given `_fmt` and `repr`. -/
def Fault.text {K : Type} (fmt : K → Str) (repr : Str → Str) (what : Str) : Fault K → Str
  | .reading message => message
  | .emptyValues => what ++ str ": values=[] is empty"
  | .needsStop => what ++ str " needs stop (or values)"
  | .stepMissing => what ++ str ": step is missing"
  | .neverReaches step stop start => what ++ str ": step=" ++ fmt step ++ str " never reaches stop=" ++ fmt stop ++
      str " from start=" ++ fmt start
  | .linCount => what ++ str ": lin needs a positive step count"
  | .logBounds start stop => what ++ str ": a logarithmic sweep needs start > 0 and stop > 0 (start=" ++ fmt start ++
      str " stop=" ++ fmt stop ++ str ")"
  | .logCount mode => what ++ str ": " ++ mode.text ++ str " needs a positive count"
  | .centerSpan ratio => what ++ str ": center/span without a step parameter: stop/start = " ++ fmt ratio ++
      str " selects a logarithmic grid, which center/span cannot describe (§5.2, §14 q.11); give step= or lin="
  | .unknownMode mode => what ++ str ": unknown sweep mode " ++ repr mode.text

variable {K : Type}

/-! ## `plan.grid` -/

/-- `_num` of a bound that may be absent, with what it reports. -/
def readBound (num : Expr → Str → Except Str K) (e : Option Expr) (what : Str) : List (Fault K) × Option K :=
  match e with
  | none => ([], none)
  | some e =>
    match num e what with
    | .ok x => ([], some x)
    | .error message => ([.reading message], none)

/-- The values up to the first that does not evaluate. -/
def readValues (num : Expr → Str → Except Str K) (what : Str) : List Expr → Except (Fault K) (List K)
  | [] => .ok []
  | e :: es =>
    match num e what with
    | .ok x => (readValues num what es).map (x :: ·)
    | .error message => .error (.reading message)

def SweepSpec.out (spec : SweepSpec) (start stop step : Option K) (mode : Mode) (values : List K)
    (count : Option Int) : Grid K where
  target := spec.target
  name := spec.name
  param := spec.param
  mode := mode
  start := start
  stop := stop
  step := step
  count := count
  values := values
  origin := spec.origin

/-- `not count or count < 1` fails. -/
def positiveCount (count : Option Int) : Option Int := count.filter (1 ≤ ·)

section Arithmetic

variable [Field K] [LinearOrder K] [FloorRing K]

/-- `1e-9`: `DEC_TOLERANCE`, and the tolerance of a step grid relative to its step. -/
def tolerance : K := 1 / 10 ^ 9

/-- `round`: ties go to the even integer. -/
def roundHalfEven (x : K) : Int :=
  if x - ⌊x⌋ < 1 / 2 then ⌊x⌋
  else if 1 / 2 < x - ⌊x⌋ then ⌊x⌋ + 1
  else if ⌊x⌋ % 2 = 0 then ⌊x⌋ else ⌊x⌋ + 1

/-- `[start * (stop / start) ** (k / n) for k in range(n)] + [stop]` -/
def logPoints (A : Arith K) (start stop : K) (n : Int) : List K :=
  (List.range n.toNat).map (fun k : Nat => start * A.pow (stop / start) (k / n)) ++ [stop]

/-- `[start * 10.0 ** (sign * k / count) for k in range(n)] + [stop]`, with the sign of `span`. -/
def decPoints (A : Arith K) (start stop span : K) (count n : Int) : List K :=
  (List.range n.toNat).map (fun k : Nat => start * A.pow 10 ((if 0 ≤ span then 1 else -1) * k / count)) ++ [stop]

/-- The number of intervals of a `dec` sweep. -/
def decSpan (A : Arith K) (start stop : K) (count : Int) : K := count * A.log10 (stop / start)

/-- The sweep for a mode other than `values`, with the bounds evaluated. -/
def rangeGrid (A : Arith K) (spec : SweepSpec) (start stop : K) (step : Option K) :
    Except (List (Fault K)) (Grid K) :=
  let out := spec.out (some start) (some stop) step
  match spec.mode with
  | .step =>
    match step with
    | none => .error (if spec.step.isNone then [.stepMissing] else [])
    | some h =>
      if h = 0 ∨ (stop - start) * h < 0 then .error [.neverReaches h stop start] else .ok (out .step [] none)
  | .lin =>
    match positiveCount spec.count with
    | none => .error [.linCount]
    | some n => .ok (out .lin [] (some n))
  | .dec | .log =>
    if start ≤ 0 ∨ stop ≤ 0 then .error [.logBounds start stop]
    else
      match positiveCount spec.count with
      | none => .error [.logCount spec.mode]
      | some n =>
        if spec.mode = .log then .ok (out .log (logPoints A start stop n) none)
        else
          let span := decSpan A start stop n
          if |span - roundHalfEven span| ≤ tolerance * max 1 |span| then .ok (out .dec [] (some n))
          else .ok (out .log (decPoints A start stop span n ⌊|span| + tolerance⌋) none)
  | .unset =>
    if start ≤ 0 ∨ stop ≤ 0 ∨ stop / start < 10 then .ok (out .lin [] (some defaultGridCount))
    else if centerSpan spec then .error [.centerSpan (stop / start)]
    else .ok (out .log (logPoints A start stop defaultGridCount) none)
  | .values | .other _ => .error [.unknownMode spec.mode]

/-- The sweep with its expressions evaluated. -/
def evaluatedGrid (A : Arith K) (spec : SweepSpec) (start stop step : Option K) (values : List K) :
    Except (List (Fault K)) (Grid K) :=
  if spec.mode = .values ∨ spec.mode = .unset ∧ values ≠ [] then
    if values = [] then .error [.emptyValues] else .ok (spec.out start stop step .values values none)
  else
    match (if spec.start.isNone then some 0 else start), stop with
    | some a, some b => rangeGrid A spec a b step
    | _, _ => .error (if spec.stop.isNone then [.needsStop] else [])

/-- `grid`: what it reports and what it returns.  `num` is `_num` in the environment of the sweep. -/
def grid (A : Arith K) (num : Expr → Str → Except Str K) (spec : SweepSpec) (what : Str) :
    List (Fault K) × Option (Grid K) :=
  let start := readBound num spec.start (what ++ str " start")
  let stop := readBound num spec.stop (what ++ str " stop")
  let step := readBound num spec.step (what ++ str " step")
  let faults := start.1 ++ stop.1 ++ step.1
  match readValues num (what ++ str " values") spec.values with
  | .error fault => (faults ++ [fault], none)
  | .ok values =>
    match evaluatedGrid A spec start.2 stop.2 step.2 values with
    | .error more => (faults ++ more, none)
    | .ok g => (faults, some g)

/-! ## The points -/

/-- What a list of points ends with instead. -/
inductive PointsFault where
  | assertion
  | valueError
  | tableError
  deriving DecidableEq, Repr

/-- A point is past `stop`. -/
def passes (stop step x : K) : Bool :=
  decide (0 < step ∧ stop + tolerance * |step| < x) || decide (step < 0 ∧ x < stop - tolerance * |step|)

/-- The loop over a step grid, from the point `k` on; `none` when the fuel runs out. -/
def stepLoop (start stop step : K) : Nat → Nat → Option (List K)
  | 0, _ => none
  | fuel + 1, k =>
    if passes stop step (start + k * step) then some []
    else (stepLoop start stop step fuel (k + 1)).map ((start + k * step) :: ·)

/-- `spec.count or 1` -/
def countOr (count : Option Int) (n : Int) : Int := (count.filter (· ≠ 0)).getD n

def linPoints (start stop : K) (n : Int) : List K :=
  (List.range n.toNat).map (fun k : Nat => start + k * (stop - start) / n) ++ [stop]

/-- `plan.grid_points`; `none` when the loop takes more than `fuel` turns. -/
def gridPoints (A : Arith K) (fuel : Nat) (g : Grid K) : Option (Except PointsFault (List K)) :=
  if g.mode = .values ∨ g.mode = .log then some (.ok g.values)
  else
    match g.start, g.stop with
    | some start, some stop =>
      match g.mode with
      | .lin => some (.ok (linPoints start stop (countOr g.count 1)))
      | .step =>
        match g.step with
        | none => some (.error .assertion)
        | some step => (stepLoop start stop step fuel 0).map .ok
      | .dec =>
        let n := countOr g.count 1
        let span := decSpan A start stop n
        some (.ok (decPoints A start stop span n (roundHalfEven |span|)))
      | _ => some (.error .valueError)
    | _, _ => some (.error .assertion)

/-- `[start + k * step for k in range(floor((stop - start) / step + 1e-9) + 1)]` -/
def stepList (start stop step : K) : List K :=
  (List.range (⌊(stop - start) / step + tolerance⌋ + 1).toNat).map fun k : Nat => start + k * step

/-- `[start + (stop - start) * k / n for k in range(n)] + [stop]` -/
def lineValues (start stop : K) (n : Int) : List K :=
  (List.range n.toNat).map (fun k : Nat => start + (stop - start) * k / n) ++ [stop]

/-- `results.grid_values` -/
def gridValues (A : Arith K) (g : Grid K) : Except PointsFault (List K) :=
  if g.mode = .values ∨ g.values ≠ [] then .ok g.values
  else
    match g.start, g.stop with
    | some start, some stop =>
      let n := countOr g.count 0
      match g.mode with
      | .lin =>
        .ok (if n < 1 then [start] else lineValues start stop n)
      | .step =>
        match g.step with
        | none => .error .valueError
        | some step => .ok (if step = 0 ∨ (stop - start) * step < 0 then [start] else stepList start stop step)
      | .dec =>
        let span := decSpan A start stop n
        .ok (if n < 1 ∨ start ≤ 0 ∨ stop ≤ 0 then [start, stop]
          else decPoints A start stop span n (roundHalfEven |span|))
      | .log =>
        .ok (if n < 1 ∨ start ≤ 0 ∨ stop ≤ 0 then [start, stop] else logPoints A start stop n)
      | _ => .error .valueError
    | _, _ => .error .valueError

/-- `vacask.vacask_step_count` -/
def vacaskStepCount (start stop step : K) : Option Int :=
  if step = 0 ∨ (stop - start) * step < 0 then none
  else
    let n := max ⌈(stop - start) / step⌉ 1
    let last := start + n * step
    some (if (if 0 < step then last ≤ stop else stop ≤ last) then n + 1 else n)

/-- `vacask.plan_step_points` -/
def planStepPoints (start stop step : K) : List K :=
  if step = 0 ∨ (stop - start) * step < 0 then [start] else stepList start stop step

/-- `vacask.step_values` -/
def stepValues (g : Grid K) : Except PointsFault (Option (List K)) :=
  if g.mode ≠ .step then .ok none
  else
    match g.start, g.stop, g.step with
    | some start, some stop, some step =>
      let pts := planStepPoints start stop step
      match vacaskStepCount start stop step with
      | none => .ok none
      | some n => .ok (if n = pts.length then none else some pts)
    | _, _, _ => .error .tableError

/-- What VACASK runs for `from`, `to` and `step`: the intervals that reach `stop`, and the end point when it does
    not pass it. -/
def vacaskRuns (start stop step : K) : Int :=
  let n := ⌈(stop - start) / step⌉
  if (if 0 < step then start + n * step ≤ stop else stop ≤ start + n * step) then n + 1 else n

end Arithmetic

end Vamos.Netlist.Sweep
