import Sv2ghdl.Vamos.Netlist.TopValues

/-!
# Independent sources

A vsource or isource of a Spectre netlist: `resolve_source` of `vamos/netlist/spectre.py`, which gives every
field of its waveform a value, the form of a sine of frequency 0 (`vamos/netlist/tables.py`), and the fields that
VACASK's deck prints for it (`vamos/netlist/vacask.py`).
-/

open Python

namespace Vamos.Netlist.Sources

open Expression

/-! ## Fields as they are written -/

/-- The value of a field: an expression, a word (a `Str`), or a vector. -/
inductive Value where
  | one (e : Expr)
  | vector (es : List Expr)

/-- The fields in Spectre's names, in their order. -/
abbrev Params := List (Str × Value)

/-- `params[key] = value` of a dictionary. -/
def setParam (key : Str) (value : Value) : Params → Params
  | [] => [(key, value)]
  | p :: ps => if p.1 = key then (key, value) :: ps else p :: setParam key value ps

def Value.objects : Value → List Expr
  | one e => [e]
  | vector es => es

/-- `_one` -/
def Value.first : Value → Expr
  | one e => e
  | vector [] => .num 0
  | vector (e :: _) => e

/-- `_first`: an empty vector has none. -/
def Value.first? : Value → Option Expr
  | one e => some e
  | vector es => es.head?

/-- `_text_of` -/
def Value.text? : Value → Option Str
  | one (.str t) => some t
  | _ => none

def isZero : Expr → Bool
  | .num x => x == 0
  | _ => false

mutual

/-- `==` of two expressions. -/
def sameExpr : Expr → Expr → Bool
  | .num x, .num y => x == y
  | .name a, .name b => a == b
  | .str a, .str b => a == b
  | .call f args, .call g args' => f == g && sameExprs args args'
  | .unary op arg, .unary op' arg' => op == op' && sameExpr arg arg'
  | .binary op l r, .binary op' l' r' => op == op' && sameExpr l l' && sameExpr r r'
  | .ternary c a b, .ternary c' a' b' => sameExpr c c' && sameExpr a a' && sameExpr b b'
  | _, _ => false

def sameExprs : List Expr → List Expr → Bool
  | [], [] => true
  | e :: es, e' :: es' => sameExpr e e' && sameExprs es es'
  | _, _ => false

end

def Value.same : Value → Value → Bool
  | one e, one e' => sameExpr e e'
  | vector es, vector es' => sameExprs es es'
  | _, _ => false

/-! ## Resolved sources -/

/-- A waveform with every field resolved. -/
inductive Waveform where
  | pulse (v1 v2 td tr tf pw : Expr) (per : Option Expr)
  | sin (vo va freq td theta phase : Expr)
  | exp (v1 v2 td1 tau1 td2 tau2 : Expr)
  | pwl (points : List (Expr × Expr)) (td : Expr)

structure Source where
  dc : Option Expr
  ac : Option (Expr × Expr)
  wave : Option Waveform
  /-- Every parameter as it is written. -/
  spectre : Params

inductive SourceError where
  | notAParameter (key : Str)
  | periodicPwl (key : Str)
  | notSupported (key : Str)
  | tempCoefficient (key : Str)
  | file
  | constantSineDamp
  | expNeeds (key : Str)
  | pwlNeedsPairs
  | period
  | pwlTimes
  | noType (type : Str)
  /-- An exception of `fold`. -/
  | raised (exc : Raised)

/-- `_SOURCE_PARAMS` -/
def sourceParams : List Str :=
  ["dc", "type", "fundname", "delay", "val0", "val1", "period", "rise", "fall", "width", "file", "wave", "offset",
    "scale", "stretch", "allbrkpts", "pwlperiod", "twidth", "sinedc", "ampl", "freq", "sinephase", "ampl2", "freq2",
    "sinephase2", "fundname2", "fmmodindex", "fmmodfreq", "ammodindex", "ammodfreq", "ammodphase", "damp", "td1",
    "tau1", "td2", "tau2", "noisefile", "noisevec", "mag", "phase", "xfmag", "pacmag", "pacphase", "tc1", "tc2",
    "tnom", "dbm", "dbm2"].map str

def unsupportedParams : List Str :=
  ["ampl2", "freq2", "sinephase2", "fmmodindex", "fmmodfreq", "ammodindex", "ammodfreq", "ammodphase", "dbm",
    "dbm2"].map str

section Resolve

variable (U : UnicodeData) (M : Libm)

def foldSource (e : Expr) : Except SourceError Expr :=
  match fold U M e noScope with
  | .ok e => .ok e
  | .error exc => .error (.raised exc)

/-- `_plus` -/
def plus (a b : Expr) : Except SourceError Expr :=
  if isZero a then .ok b
  else if isZero b then .ok a
  else foldSource U M (.binary .add a b)

/-- The parameters that are refused whatever the type. -/
def checkParams (p : Params) : Except SourceError Unit := do
  for (key, _) in p do
    if key ∉ sourceParams then throw (.notAParameter key)
  for key in [str "pwlperiod", str "twidth"] do
    if (p.lookup key).isSome then throw (.periodicPwl key)
  for key in unsupportedParams do
    if (p.lookup key).isSome then throw (.notSupported key)
  for key in [str "tc1", str "tc2"] do
    match p.lookup key with
    | none => pure ()
    | some (.one e) => if !isZero e then throw (.tempCoefficient key)
    | some (.vector _) => throw (.tempCoefficient key)
  if (p.lookup (str "file")).isSome then throw .file

/-- A field, or the default. -/
def field (p : Params) (key : String) (default : Expr) : Expr :=
  ((p.lookup (str key)).map Value.first).getD default

/-- `_TRANSRES` times the shortest stop time of the trans. -/
def transres (tranStops : List Float) : Float :=
  match tranStops with
  | [] => 1e-9
  | stop :: stops => 1e-9 * stops.foldl (fun a b => if b < a then b else a) stop

/-- A rise or fall time: an edge that is absent or 0 takes the default one. -/
def edge (p : Params) (transres : Expr) (key : String) : Expr :=
  match p.lookup (str key) with
  | none => transres
  | some v =>
    match v.first with
    | .num x => if x == 0 then transres else .num x
    | e => .ternary (.binary .eq e (.num 0)) transres e

def resolvePulse (p : Params) (tranStops : List Float) (constraints : Bool) : Except SourceError Waveform := do
  let transres : Expr := .num (transres tranStops)
  let tr := edge p transres "rise"
  let tf := edge p transres "fall"
  let pw := field p "width" (.num 1e30)
  let per := (p.lookup (str "period")).map Value.first
  match constraints, per, tr, tf, pw with
  | true, some (.num per), .num tr, .num tf, .num pw =>
    if per ≤ (tr + tf + pw) * (1 + 1e-12) then throw .period
  | _, _, _, _, _ => pure ()
  return .pulse (field p "val0" (.num 0)) (field p "val1" (.num 1)) (field p "delay" (.num 0)) tr tf pw per

/-- A sine, or its constant value when its frequency is 0. -/
def resolveSine (p : Params) (dc : Option Expr) : Except SourceError (Expr ⊕ Waveform) := do
  let vo := field p "sinedc" (dc.getD (.num 0))
  let va := field p "ampl" (.num 1)
  let freq := field p "freq" (.num 0)
  let damp := field p "damp" (.num 0)
  let phase := field p "sinephase" (.num 0)
  if isZero freq then
    if !isZero damp then throw .constantSineDamp
    let radians : Expr := .binary .mul phase (.num (3.141592653589793 / 180))
    return .inl (← foldSource U M (.binary .add vo (.binary .mul va (.call (str "sin") [radians]))))
  return .inr (.sin vo va freq (field p "delay" (.num 0)) damp phase)

def resolveExp (p : Params) : Except SourceError Waveform := do
  let delay := field p "delay" (.num 0)
  for key in [str "tau1", str "tau2", str "td2"] do
    if (p.lookup key).isNone then throw (.expNeeds key)
  let td1 ← plus U M delay (field p "td1" (.num 0))
  let td2 ← plus U M delay (field p "td2" (.num 0))
  return .exp (field p "val0" (.num 0)) (field p "val1" (.num 1)) td1 (field p "tau1" (.num 0)) td2
    (field p "tau2" (.num 0))

/-- One value of a pwl, scaled or moved unless the factor or the offset is the neutral number. -/
def adjust (op : BinaryOp) (neutral : Float) (by_ e : Expr) : Except SourceError Expr :=
  match by_ with
  | .num x => if x == neutral then .ok e else foldSource U M (.binary op e (.num x))
  | by_ => foldSource U M (.binary op e by_)

def pwlPoints (stretch scale offset : Expr) : List Expr → Except SourceError (List (Expr × Expr))
  | t :: v :: rest => do
    let t ← adjust U M .mul 1 stretch t
    let v ← adjust U M .mul 1 scale v
    let v ← adjust U M .add 0 offset v
    return (t, v) :: (← pwlPoints stretch scale offset rest)
  | _ => .ok []

/-- Whether the constant times increase from one point to the next. -/
def timesIncrease : List (Expr × Expr) → Bool
  | p :: q :: rest =>
    (match p.1, q.1 with
      | .num x, .num y => !(decide (y ≤ x))
      | _, _ => true) && timesIncrease (q :: rest)
  | _ => true

def resolvePwl (p : Params) (constraints : Bool) : Except SourceError Waveform := do
  let wave := ((p.lookup (str "wave")).map Value.objects).getD []
  if wave.isEmpty || wave.length % 2 ≠ 0 then throw .pwlNeedsPairs
  let points ← pwlPoints U M (field p "stretch" (.num 1)) (field p "scale" (.num 1)) (field p "offset" (.num 0)) wave
  if constraints && !timesIncrease points then throw .pwlTimes
  return .pwl points (field p "delay" (.num 0))

/-- The rows of the table, by the type. -/
def resolveType (src : Source) (type : Str) (tranStops : List Float) (constraints : Bool) :
    Except SourceError Source := do
  let p := src.spectre
  let t := U.lower (if type = [] then str "dc" else type)
  if t = str "dc" then return src
  else if t = str "pulse" then return { src with wave := some (← resolvePulse p tranStops constraints) }
  else if t = str "sine" then
    match ← resolveSine U M p src.dc with
    | .inl const => return { src with dc := some const }
    | .inr wave => return { src with wave := some wave }
  else if t = str "exp" then return { src with wave := some (← resolveExp U M p) }
  else if t = str "pwl" then return { src with wave := some (← resolvePwl U M p constraints) }
  else throw (.noType type)

/-- `resolve_source`, up to its first error. -/
def resolveSource (p : Params) (type : Str) (tranStops : List Float) (constraints : Bool) :
    Except SourceError Source := do
  checkParams p
  let ac := if (p.lookup (str "mag")).isSome || (p.lookup (str "phase")).isSome
    then some (field p "mag" (.num 0), field p "phase" (.num 0)) else none
  resolveType U M ⟨(p.lookup (str "dc")).map Value.first, ac, none, p⟩ type tranStops constraints

/-! ## A sine of frequency 0 -/

/-- `is_constant_sine_spectre` -/
def isConstantSine (p : Params) : Bool :=
  let zero (key : String) : Bool :=
    match p.lookup (str key) with
    | none => true
    | some v => v.first?.any isZero
  (match p.lookup (str "type") with
    | some (.one (.str t)) => U.lower t == str "sine"
    | _ => false) && zero "freq" && zero "damp"

/-- `constant_sine`: the given dc, and the sine itself at a frequency of nearly 0. -/
def constantSine (src : Source) : Option Source :=
  let p := src.spectre
  if src.wave.isSome || src.dc.isNone || !isConstantSine U p then none
  else
    let given := (p.lookup (str "dc")).bind Value.first?
    let field (key : String) (default : Expr) : Expr := ((p.lookup (str key)).bind Value.first?).getD default
    let vo := field "sinedc" (given.getD (.num 0))
    some ⟨given, src.ac, some (.sin vo (field "ampl" (.num 1)) (.num 1e-30) (field "delay" (.num 0))
      (field "damp" (.num 0)) (field "sinephase" (.num 0))), p⟩

/-- `_resolved_source` of `vamos/netlist/plan.py`. -/
def resolvedSource (p : Params) (type : Str) (tranStops : List Float) (constraints : Bool) :
    Except SourceError Source := do
  let src ← resolveSource U M p type tranStops constraints
  return (constantSine U src).getD src

end Resolve

/-! ## What the deck prints -/

/-- VACASK's parameters of a vsource or isource. -/
inductive Key where
  | val0 | val1 | delay | rise | fall | width | period
  | sinedc | ampl | freq | theta | tdphase
  | tau1 | td2 | tau2 | wave
  | dc | mag | phase
  deriving DecidableEq, Repr

/-- What is printed for a parameter: an expression, or the points of a pwl. -/
inductive Item where
  | expr (e : Expr)
  | points (ps : List (Expr × Expr))

/-- `_item_exprs` -/
def Item.exprs : Item → List Expr
  | expr e => [e]
  | points ps => ps.flatMap fun p => [p.1, p.2]

/-- `_source_items`.  VACASK's `td2` of an exp counts from its delay. -/
def Waveform.items : Waveform → List (Key × Item)
  | pulse v1 v2 td tr tf pw per =>
    [(.val0, .expr v1), (.val1, .expr v2), (.delay, .expr td), (.rise, .expr tr), (.fall, .expr tf),
      (.width, .expr pw)] ++ (per.map fun per => (.period, .expr per)).toList
  | sin vo va freq td theta phase =>
    [(.sinedc, .expr vo), (.ampl, .expr va), (.freq, .expr freq), (.delay, .expr td), (.theta, .expr theta),
      (.tdphase, .expr phase)]
  | exp v1 v2 td1 tau1 td2 tau2 =>
    let rel : Expr := match td1, td2 with
      | .num x, .num y => .num (y - x)
      | td1, td2 => .binary .sub td2 td1
    [(.val0, .expr v1), (.val1, .expr v2), (.delay, .expr td1), (.tau1, .expr tau1), (.td2, .expr rel),
      (.tau2, .expr tau2)]
  | pwl points td => [(.wave, .points points), (.delay, .expr td)]

inductive TableError where
  | edge | period | expOrder | sinFrequency | pwlCount | pwlTimes
  deriving DecidableEq, Repr

/-- Whether constant times are neither negative nor before the time in front of them. -/
def timesRise : Option Float → List (Expr × Expr) → Bool
  | _, [] => true
  | prev, (.num v, _) :: rest => !(decide (v < 0)) && !(prev.any fun p => decide (v ≤ p)) && timesRise (some v) rest
  | _, _ :: rest => timesRise none rest

/-- The checks of `tables.wave`, on the constants. -/
def Waveform.check : Waveform → Except TableError Unit
  | pulse _ _ _ tr tf pw per => do
    for e in [tr, tf] do
      if (number? e).any fun v => decide (v ≤ 0) then throw .edge
    match per, tr, tf, pw with
    | some (.num per), .num tr, .num tf, .num pw => if per ≤ tr + tf + pw then throw .period
    | _, _, _, _ => pure ()
  | sin _ _ freq _ _ _ => if (number? freq).any fun f => decide (f ≤ 0) then throw .sinFrequency else pure ()
  | exp _ _ td1 _ td2 _ =>
    match td1, td2 with
    | .num a, .num b => if b ≤ a then throw .expOrder else pure ()
    | _, _ => pure ()
  | pwl points _ => do
    if points.length < 2 then throw .pwlCount
    if !timesRise none points then throw .pwlTimes

/-- The waveform's fields, when they pass the checks. -/
def Source.waveItems (src : Source) : Except TableError (List (Key × Item)) :=
  match src.wave with
  | none => .ok []
  | some w => do
    w.check
    return w.items

/-- What follows the waveform. -/
def Source.dcItems (src : Source) : List (Key × Item) :=
  (src.dc.map fun dc => (.dc, .expr dc)).toList ++
    match src.ac with
    | some ac => [(.mag, .expr ac.1), (.phase, .expr ac.2)]
    | none => []

/-- `printed_items`: none when the waveform does not resolve. -/
def Source.printedItems (src : Source) : Option (List (Key × Item)) :=
  match src.waveItems with
  | .ok items => some (items ++ src.dcItems)
  | .error _ => none

section Reads

variable (U : UnicodeData)

/-- `reads_something`: a parameter, temp or tnom. -/
def readsSomething (e : Expr) : Bool := !(names U e).isEmpty || readsTemp U e

def Item.reads (item : Item) : Bool := item.exprs.any (readsSomething U)

theorem Item.reads_num (x : Float) : (Item.expr (.num x)).reads U = false := rfl

end Reads

end Vamos.Netlist.Sources
