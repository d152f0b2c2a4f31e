import Sv2ghdl.Vamos.Netlist.ExactExpr

/-!
# Waveform sources

The waveforms of voltage and current sources in `vamos/netlist/tables.py`: `wave`, the checks of their fields, and
`wave_t0`, the expression of a waveform's value at time 0.
-/

open Python

namespace Vamos.Waves

variable {K : Type}

/-! ## Sources -/

inductive Wave where
  | pulse
  | sin
  | exp
  | pwl
  deriving DecidableEq, Repr

/-- What waveforms read of a `Source`. -/
structure Source (K : Type) where
  wave : Option Wave
  args : Str → Option (Expr K)
  points : List (Expr K × Expr K)

/-- `WAVE_FIELDS` -/
def Wave.fields : Wave → List Str
  | .pulse => [str "v1", str "v2", str "td", str "tr", str "tf", str "pw"]
  | .sin => [str "vo", str "va", str "freq", str "td", str "theta", str "phase"]
  | .exp => [str "v1", str "v2", str "td1", str "tau1", str "td2", str "tau2"]
  | .pwl => []

/-- `_OPTIONAL_FIELDS` -/
def Wave.optionalFields : Wave → List Str
  | .pulse => [str "per"]
  | .pwl => [str "td"]
  | _ => []

/-- `w.upper()` -/
def Wave.upper : Wave → Str
  | .pulse => str "PULSE"
  | .sin => str "SIN"
  | .exp => str "EXP"
  | .pwl => str "PWL"

namespace Source

variable [Field K] [LinearOrder K] (A : Arith K) (src : Source K) (name : Str)

/-- `_numv` of a field. -/
def numv (k : Str) : Option K := (src.args k).bind Expr.number

omit [Field K] [LinearOrder K] in
/-- The fields that must be there. -/
def required (w : Wave) : List Str → Except Str (List (Str × Expr K))
  | [] => .ok []
  | k :: ks =>
    match src.args k with
    | none => .error (name ++ str ": " ++ w.upper ++ str " field " ++ k ++
        str " is unresolved (spice.parse resolves every source field, §4.3.8)")
    | some e => (required w ks).map ((k, e) :: ·)

def checkEdge (k : Str) : Except Str Unit :=
  match src.numv k with
  | some v =>
    if v ≤ 0 then .error (name ++ str ": PULSE " ++ k ++ str "=" ++ A.repr v ++
      str " (an explicit or omitted zero edge becomes TSTEP in spice.parse; never rise=0/fall=0)")
    else .ok ()
  | none => .ok ()

def checkPulse : Except Str Unit := do
  src.checkEdge A name (str "tr")
  src.checkEdge A name (str "tf")
  match src.numv (str "per"), src.numv (str "tr"), src.numv (str "tf"), src.numv (str "pw") with
  | some per, some tr, some tf, some pw =>
    if per ≤ tr + tf + pw then
      .error (name ++ str ": PULSE period " ++ A.repr per ++ str " is not longer than tr+tf+pw")
    else .ok ()
  | _, _, _, _ => .ok ()

def checkExp : Except Str Unit :=
  match src.numv (str "td1"), src.numv (str "td2") with
  | some a, some b =>
    if b ≤ a then .error (name ++ str ": EXP td2=" ++ A.repr b ++ str " must be after td1=" ++ A.repr a)
    else .ok ()
  | _, _ => .ok ()

def checkSin : Except Str Unit :=
  match src.numv (str "freq") with
  | some f => if f ≤ 0 then .error (name ++ str ": SIN frequency " ++ A.repr f ++ str " must be > 0") else .ok ()
  | none => .ok ()

/-- The loop over the time points; `prev` is the time before, if it is a number. -/
def checkTimes : Option K → List (Expr K × Expr K) → Except Str Unit
  | _, [] => .ok ()
  | prev, (t, _) :: points =>
    match t.number with
    | some v =>
      if v < 0 ∨ ∃ p, prev = some p ∧ v ≤ p then
        .error (name ++ str ": PWL times must be >= 0 and strictly increasing (at " ++ A.repr v ++ str ")")
      else checkTimes (some v) points
    | none => checkTimes none points

def checkPwl : Except Str Unit :=
  if src.points.length < 2 then .error (name ++ str ": a PWL source needs at least two points")
  else checkTimes A name none src.points

def check : Wave → Except Str Unit
  | .pulse => src.checkPulse A name
  | .exp => src.checkExp A name
  | .sin => src.checkSin A name
  | .pwl => src.checkPwl A name

end Source

/-- `wave` -/
def wave [Field K] [LinearOrder K] (A : Arith K) (src : Source K) (name : Str) : Except Str (List (Str × Expr K)) :=
  match src.wave with
  | none => .error (name ++ str ": unknown source waveform None")
  | some w => do
    let fields ← src.required name w w.fields
    src.check A name w
    pure (fields ++ w.optionalFields.filterMap fun k => (src.args k).map (k, ·))

/-! ## `wave_t0` -/

namespace Expr

def add (a b : Expr K) : Expr K := .binary .add a b
def sub (a b : Expr K) : Expr K := .binary .sub a b
def mul (a b : Expr K) : Expr K := .binary .mul a b
def div (a b : Expr K) : Expr K := .binary .div a b
def neg (a : Expr K) : Expr K := .unary .minus a
def lt (a b : Expr K) : Expr K := .binary .lt a b
def le (a b : Expr K) : Expr K := .binary .le a b
def ge (a b : Expr K) : Expr K := .binary .ge a b

end Expr

open Vamos.Waves.Expr

variable [Field K] [LinearOrder K] [FloorRing K] (U : UnicodeData) (A : Arith K)

/-- `_is_zero` -/
def isZero (e : Expr K) : Bool := e.number = some 0

/-- `_before` -/
def before (td first : Option (Expr K)) (inside : Expr K → Option (Expr K)) : Option (Expr K) :=
  match first, td with
  | none, _ => none
  | some first, none => some first
  | some first, some td =>
    match td.number with
    | some v =>
      if 0 ≤ v then some first
      else
        match inside (fold U A (neg td)) with
        | none => some first
        | some got => some (fold U A got)
    | none =>
      match inside (fold U A (neg td)) with
      | none => some first
      | some got => some (fold U A (.ternary (ge td (.num 0)) first got))

/-- The waveform of a pulse `x` after its start. -/
def pulseInside (v1 v2 tr tf pw : Expr K) (per : Option (Expr K)) (x : Expr K) : Expr K :=
  let x :=
    match per with
    | none => x
    | some per => sub x (mul per (.call (str "floor") [div x per]))
  let top := add tr pw
  let last := add (add tr pw) tf
  let rising := add v1 (mul (sub v2 v1) (div x tr))
  let falling := add v2 (mul (sub v1 v2) (div (sub x top) tf))
  .ternary (lt x tr) rising (.ternary (lt x top) v2 (.ternary (lt x last) falling v1))

/-- `_pulse_t0` -/
def pulseT0 (a : Str → Option (Expr K)) : Option (Expr K) :=
  match a (str "v1"), a (str "v2"), a (str "tr"), a (str "tf"), a (str "pw") with
  | none, _, _, _, _ => none
  | some v1, some v2, some tr, some tf, some pw =>
    before U A (a (str "td")) (some v1) fun x => some (pulseInside v1 v2 tr tf pw (a (str "per")) x)
  | some v1, _, _, _, _ => some v1

/-- `_sine_at` -/
def sineAt (a : Str → Option (Expr K)) (x : Expr K) : Option (Expr K) :=
  match a (str "vo"), a (str "va"), a (str "freq"), a (str "theta"), a (str "phase") with
  | some vo, some va, some freq, some theta, some phase =>
    let arg := add (mul (mul (.num (2 * A.pi)) freq) x) (mul phase (.num (A.pi / 180)))
    some (add vo (mul (mul va (.call (str "exp") [neg (mul theta x)])) (.call (str "sin") [arg])))
  | _, _, _, _, _ => none

/-- The first value of a sine. -/
def sineFirst (vo : Expr K) (va phase : Option (Expr K)) : Expr K :=
  match va, phase with
  | some va, some phase =>
    if isZero phase then vo
    else fold U A (add vo (mul va (.call (str "sin") [mul phase (.num (A.pi / 180))])))
  | _, _ => vo

/-- The waveform of an exp `x` after the start of its rise. -/
def expInside (v1 v2 tau1 td2 tau2 : Expr K) (x : Expr K) : Expr K :=
  -- a time constant of 0 is its limit, a step
  let up := if isZero tau1 then .num 1 else sub (.num 1) (.call (str "exp") [neg (div x tau1)])
  let down := if isZero tau2 then .num 1 else sub (.num 1) (.call (str "exp") [div td2 tau2])
  let rise := add v1 (mul (sub v2 v1) up)
  .ternary (lt td2 (.num 0)) (add rise (mul (sub v1 v2) down)) rise

/-- `_exp_t0` -/
def expT0 (a : Str → Option (Expr K)) : Option (Expr K) :=
  match a (str "v1"), a (str "v2"), a (str "td1"), a (str "tau1"), a (str "td2"), a (str "tau2") with
  | none, _, _, _, _, _ => none
  | some v1, some v2, some td1, some tau1, some td2, some tau2 =>
    before U A (some td1) (some v1) fun x => some (expInside v1 v2 tau1 td2 tau2 x)
  | some v1, _, _, _, _, _ => some v1

/-- The loop over the points whose times are not all numbers, nested from the last segment. -/
def nestedFrom : Expr K × Expr K → List (Expr K × Expr K) → Expr K
  | (_, y), [] => y
  | (t0, y0), (t1, y1) :: points =>
    .ternary (le (.num 0) t1) (add y0 (mul (sub y1 y0) (div (neg t0) (sub t1 t0)))) (nestedFrom (t1, y1) points)

/-- The loop over the points whose times are numbers. -/
def constantFrom : K × Expr K → List (K × Expr K) → Expr K
  | (_, y), [] => y
  | (t0, y0), (t1, y1) :: points =>
    if 0 ≤ t1 then
      fold U A (add y0 (mul (sub y1 y0) (.num (if t1 ≠ t0 then (0 - t0) / (t1 - t0) else 1))))
    else constantFrom (t1, y1) points

/-- A time point with the delay. -/
def delayed (td : Option (Expr K)) (t : Expr K) : Expr K :=
  match td with
  | none => t
  | some td => if isZero td then t else fold U A (add t td)

/-- `_pwl_t0` -/
def pwlT0 (points : List (Expr K × Expr K)) (td : Option (Expr K)) : Option (Expr K) :=
  match points.map fun p => (delayed U A td p.1, p.2) with
  | [] => none
  | p :: ps =>
    if ∃ v, p.1.number = some v ∧ 0 ≤ v then some p.2
    else
      match (p :: ps).mapM fun p => p.1.number.map (·, p.2) with
      | some (q :: qs) => some (constantFrom U A q qs)
      | _ => some (fold U A (.ternary (ge p.1 (.num 0)) p.2 (nestedFrom p ps)))

/-- `wave_t0` -/
def waveT0 (src : Source K) : Option (Expr K) :=
  match src.wave with
  | some .pulse => pulseT0 U A src.args
  | some .exp => expT0 U A src.args
  | some .sin =>
    match src.args (str "vo") with
    | none => none
    | some vo =>
      before U A (src.args (str "td")) (some (sineFirst U A vo (src.args (str "va")) (src.args (str "phase"))))
        fun x => sineAt A src.args x
  | some .pwl => pwlT0 U A src.points (src.args (str "td"))
  | none => none

end Vamos.Waves
