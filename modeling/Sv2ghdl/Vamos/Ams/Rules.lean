import Sv2ghdl.Vamos.Netlist.Number

/-!
# Interface-element rules

`resolve_detail` of `vamos/ams/rules.py`: the levels that the control file's `a2d`, `d2a` and `map_by_node` rules give
an analog node.  Every rule whose selector matches the node applies, in file order, and overrides the ones before it
key by key; the supplies that percentages refer to are merged on their own.
-/

open Python
open Vamos.Netlist.Expression (NumberError matchNumber findScale hspiceScales scaledFloat milFactor intOf)

namespace Vamos.Ams.Rules

/-! ## The control file -/

inductive RuleKind where
  | a2d
  | d2a
  | mapByNode
  deriving DecidableEq, Repr

/-- The kind of interface element a rule acts on. -/
inductive IeKind where
  | a2d
  | d2a
  deriving DecidableEq, Repr

/-- One rule; `params` is a `dict`. -/
structure IeRule where
  kind : RuleKind
  params : List (Str × Str)
  node : Option Str := none
  cell : Option Str := none
  inst : Option Str := none
  port : Option Str := none
  origin : Str := []
  nodup : (params.map Prod.fst).Nodup

/-- `rule.params.get(key)` -/
def IeRule.param (rule : IeRule) (key : Str) : Option Str := rule.params.lookup key

/-- What `resolve_detail` reads of the `AmsConfig`. -/
structure AmsConfig where
  rules : List IeRule
  /-- `cfg.xa.get("case")` -/
  xaCase : Option Str := none

/-- A cut port on the node. -/
structure Port5 where
  cell : Str
  inst : Str
  spicePort : Str
  bit : Str
  port : Str

inductive Role where
  | a2d
  | d2a
  | bidir
  | powernet
  | disabled
  | removed
  /-- `THROUGH`, `NONE`, `RD2A` or `RA2D`, which have no interface element. -/
  | other
  deriving DecidableEq, Repr

/-- What `dc_of` says of a supply name. -/
inductive Supply where
  | const (volts : Float)
  | dynamic
  | missing
  | unevaluable (holder : Option Str)

/-- The two supplies of a rule. -/
inductive Which where
  | vdd
  | vss
  deriving DecidableEq, Repr

def Which.key : Which → Str
  | .vdd => str "vdd"
  | .vss => str "vss"

/-! ## What is recorded -/

/-- The keys of `RuleHits` that `resolve_detail` marks. -/
inductive HitKey where
  | seen (name : Str)
  | seenCell (cell : Str)
  | rule (i : Nat)
  | supply (which : Which) (i : Nat)
  | mapByNodeIdeal (i : Nat)
  deriving DecidableEq, Repr

/-- `RuleHits`: one entry for every mark. -/
abbrev RuleHits := List HitKey

inductive Severity where
  | error
  | warning
  deriving DecidableEq, Repr

/-- What a note of `resolve_detail` says. -/
inductive Message where
  | ambiguousPort (kind : RuleKind) (which : Which) (port inst : Str) (hits : List Str)
  | unevaluableSupply (kind : RuleKind) (which : Which) (name : Str) (holder : Option Str)
  | notConstant (kind : RuleKind) (which : Which) (name : Str)
  | lothAboveHith (canonical : Str) (loth hith : Float)
  | idealSource (r canonical : Str) (supplyNet : Bool)
  /-- The caller's note on its reference voltage. -/
  | reference (text : Str)

structure Note where
  severity : Severity
  origin : Str
  message : Message

/-- `(vss, vdd, note)` of the caller. -/
structure VRef where
  vss : Float
  vdd : Float
  note : Option Note := none

/-! ## Interface elements -/

structure D2A_IE where
  hiv : Float
  lov : Float
  rise : Float := 1e-11
  fall : Float := 1e-11
  delayRise : Float := 0.0
  delayFall : Float := 0.0
  x2v : Int := 0
  powernet : Bool := false
  rSeries : Float := 500.7
  weakFrac : Float := 500.7 / 3500.2

structure A2D_IE where
  loth : Float
  hith : Float
  xband : Option Float := none
  midvTime : Option Float := none
  midvLogic : Str := str "X"

/-- `MIN_RAMP` -/
def minRamp : Float := 1e-15

/-! ## Values -/

section Values

variable (U : UnicodeData)

/-- `parse_number`; `_NUM` is the pattern that Spectre's SPICE numbers have, the scales are HSPICE's. -/
def parseNumber (s : Str) : Option Float :=
  match matchNumber U .spectreSpice s with
  | none => none
  | some p =>
    let exp := (p.exp.map (intOf U)).getD 0
    match findScale hspiceScales (U.lower p.tail) with
    | none => (scaledFloat U p.mant exp).toOption
    | some .mil => (scaledFloat U p.mant exp).toOption.map (· * milFactor)
    | some (.power k) => (scaledFloat U p.mant (exp + k)).toOption

/-- A number that is finite. -/
def finite (v : Float) : Option Float := if v.isFinite then some v else none

/-- `parse_level`: the value, and whether it is a fraction of the reference span. -/
def parseLevel (raw : Str) : Option (Float × Bool) :=
  let s := Str.strip raw
  if s.getLast? = some (CodePoint.ofChar '%') then
    ((parseNumber U s.dropLast).bind fun v => finite (v / 100.0)).map (·, true)
  else ((parseNumber U s).bind finite).map (·, false)

/-- `parse_time` -/
def parseTime (raw : Str) : Option Float :=
  let s := Str.strip raw
  if s.getLast? = some (CodePoint.ofChar '%') then none else (parseNumber U s).bind finite

end Values

/-! ## Selectors -/

section Selectors

variable (U : UnicodeData) (sameLetter : CodePoint → CodePoint → Bool)

def hasWildcard (pattern : Str) : Bool := CodePoint.ofChar '*' ∈ pattern

/-- The regular expression of `compile_glob` on a whole name; `same` compares two characters, and the `.` of a `.*`
    is any character but a line feed. -/
def globMatches (same : CodePoint → CodePoint → Bool) : Str → Str → Bool
  | [], [] => true
  | [], _ :: _ => false
  | p :: ps, [] => p = '*' && globMatches same ps []
  | p :: ps, c :: cs =>
    if p = '*' then globMatches same ps (c :: cs) || (c ≠ '\n' && globMatches same (p :: ps) cs)
    else same p c && globMatches same ps cs

/-- `globs.match`; `sameLetter` is how `re.IGNORECASE` compares two characters. -/
def globMatch (pattern name : Str) (cs : Bool) : Bool :=
  if hasWildcard pattern then globMatches (if cs then fun a b => a = b else sameLetter) pattern name
  else if cs then pattern = name
  else U.lower pattern = U.lower name

def caseSensitive (cfg : AmsConfig) : Bool := U.lower (cfg.xaCase.getD []) = str "sensitive"

/-- A pattern with `*` matches the canonical name, the first of `names`, only. -/
def nodeMatches (pattern : Str) (names : List Str) (cs : Bool) : Bool :=
  match names with
  | [] => false
  | canonical :: _ =>
    if hasWildcard pattern then globMatch U sameLetter pattern canonical cs
    else names.any fun n => n ≠ [] && globMatch U sameLetter pattern n cs

def portMatch (pattern : Str) (p : Port5) (cs : Bool) : Bool :=
  [p.spicePort, p.bit, p.port].any fun x => x ≠ [] && globMatch U sameLetter pattern x cs

/-- Whether an optional pattern, if it is given, matches. -/
def optionMatch (pattern : Option Str) (name : Str) (cs : Bool) : Bool :=
  pattern.all fun p => globMatch U sameLetter p name cs

/-- `_select`: the matching cut ports of a rule, none for `node=`. -/
def select (rule : IeRule) (names : List Str) (ports : List Port5) (cs : Bool) : Option (List Port5) :=
  match rule.node, rule.port with
  | some node, _ => if nodeMatches U sameLetter node names cs then some [] else none
  | none, none => none
  | none, some port =>
    if rule.cell = none ∧ rule.inst = none then none
    else
      let exc := rule.param (str "except_port")
      let out := ports.filter fun p =>
        optionMatch U sameLetter rule.cell p.cell cs && optionMatch U sameLetter rule.inst p.inst cs &&
          portMatch U sameLetter port p cs &&
          !(exc.any fun e => e ≠ [] && portMatch U sameLetter e p cs)
      if out = [] then none else some out

/-- The net that a rule's `vdd=`, `vss=`, `vdd_port=` or `vss_port=` names. -/
inductive SupplyName where
  /-- The rule names no such supply. -/
  | absent
  /-- The net, empty when it cannot be formed. -/
  | named (name : Str)
  /-- A wildcard port that matches several ports of the instance. -/
  | ambiguous (port inst : Str) (hits : List Str)

/-- `_supply_name` -/
def supplyName (subcktPorts : Option (Str → List Str)) (rule : IeRule) (which : Which) (sel : List Port5)
    (cs : Bool) : SupplyName :=
  match rule.param which.key, rule.param (which.key ++ str "_port") with
  | some name, _ => .named name
  | none, none => .absent
  | none, some port =>
    match sel with
    | [] => .named []
    | p :: _ =>
      if (str "../").isPrefixOf port then
        if CodePoint.ofChar '.' ∈ p.inst then
          .named ((p.inst.rdropWhile (· ≠ CodePoint.ofChar '.')) ++ port.drop 3)
        else .named []
      else if hasWildcard port then
        match ((subcktPorts.map fun f => f p.inst).getD []).filter fun q => globMatch U sameLetter port q cs with
        | [] => .named []
        | [hit] => .named (p.inst ++ str "." ++ hit)
        | hits => .ambiguous port p.inst hits
      else .named (p.inst ++ str "." ++ port)

end Selectors

/-! ## Merging -/

/-- The interface element a rule acts on; `map_by_node` sets the series resistance of a `d2a`. -/
def direction (rule : IeRule) : IeKind :=
  match rule.kind with
  | .a2d => .a2d
  | .d2a => .d2a
  | .mapByNode => .d2a

/-- `_ROLE_KINDS`, and both kinds without a role. -/
def roleKinds : Option Role → List IeKind
  | none => [.a2d, .d2a]
  | some .d2a => [.d2a]
  | some .powernet => [.d2a]
  | some .a2d => [.a2d]
  | some .bidir => [.a2d, .d2a]
  | some _ => []

/-- The kinds whose rules are marked: a node whose element is removed or disabled has none that applies. -/
def roleMarks : Option Role → List IeKind
  | some .disabled => [.a2d, .d2a]
  | some .removed => [.a2d, .d2a]
  | role => roleKinds role

/-- `_NOT_LEVELS` -/
def notLevels : List Str :=
  [str "vdd", str "vss", str "vdd_port", str "vss_port", str "except_port", str "hiz_on", str "hiz_off",
    str "strength", str "ceff", str "queue", str "minv", str "minv_logic", str "minv_analog", str "vdd_filter"]

/-- A raw value for each key, with the rule it comes from. -/
abbrev Merged := Str → Option (Str × Nat)

/-- The voltage of each supply, with the rule it comes from. -/
abbrev Supplies := Which → Option (Float × Nat)

/-- One parameter of rule `i` overrides what it sets. -/
def mergeParam (i : Nat) (m : Merged) (param : Str × Str) : Merged :=
  let (k, v) := param
  if k ∈ notLevels then m
  else if k = str "rf_time" then
    Function.update (Function.update m (str "rise_time") (some (v, i))) (str "fall_time") (some (v, i))
  else if k = str "delay" then
    Function.update (Function.update m (str "rise_delay") (some (v, i))) (str "fall_delay") (some (v, i))
  else Function.update m k (some (v, i))

/-- The state of the loop over the rules. -/
structure Merge where
  hits : RuleHits
  notes : List Note := []
  applied : List Nat := []
  aliases : List Str := []
  merged : IeKind → Merged := fun _ _ => none
  supply : IeKind → Supplies := fun _ _ => none

/-- The state of the loop over a rule's two supplies. -/
structure SupplyState where
  ok : Bool := true
  sup : Which → Option Float := fun _ => none
  hits : RuleHits
  notes : List Note

section Resolve

variable (U : UnicodeData) (sameLetter : CodePoint → CodePoint → Bool)
variable (subcktPorts : Option (Str → List Str)) (dcOf : Str → Supply)

/-- A note that is given the first time a supply's key is marked. -/
def noteOnce (s : SupplyState) (key : HitKey) (note : Note) : List Note :=
  if key ∈ s.hits then s.notes else s.notes ++ [note]

/-- One supply of rule `i`. -/
def supplyStep (rule : IeRule) (i : Nat) (sel : List Port5) (cs apply : Bool) (s : SupplyState) (which : Which) :
    SupplyState :=
  let key := HitKey.supply which i
  match supplyName U sameLetter subcktPorts rule which sel cs with
  | .absent => s
  | .ambiguous port inst hits =>
    { s with notes := noteOnce s key ⟨.error, rule.origin, .ambiguousPort rule.kind which port inst hits⟩,
             hits := s.hits ++ [key], ok := false }
  | .named [] => { s with ok := false }
  | .named (c :: name) =>
    match dcOf (c :: name) with
    | .missing => { s with ok := false }
    | .const volts =>
      if apply then { s with hits := s.hits ++ [key], sup := Function.update s.sup which (some volts) }
      else { s with hits := s.hits ++ [key] }
    | .unevaluable holder =>
      if apply then
        { s with
          notes := noteOnce s key ⟨.error, rule.origin, .unevaluableSupply rule.kind which (c :: name) holder⟩
          hits := s.hits ++ [key], ok := false }
      else { s with hits := s.hits ++ [key] }
    | .dynamic =>
      if apply then
        { s with notes := noteOnce s key ⟨.error, rule.origin, .notConstant rule.kind which (c :: name)⟩,
                 hits := s.hits ++ [key], ok := false }
      else { s with hits := s.hits ++ [key] }

/-- Whether an applied rule's `node=` is one more name of the node. -/
def isNewAlias (rule : IeRule) (aliases : List Str) (canonical : Str) (cs : Bool) : Bool :=
  rule.node.any fun node =>
    !hasWildcard node && node ∉ aliases && !globMatch U sameLetter node canonical cs

/-- What the loop does with rule `i`, whose selector has matched; `apply` is whether the role has its kind. -/
def matchedRule (rule : IeRule) (i : Nat) (sel : List Port5) (canonical : Str) (cs apply : Bool) (s : Merge) :
    Merge :=
  let rk := direction rule
  let aliases :=
    if apply && isNewAlias U sameLetter rule s.aliases canonical cs then s.aliases ++ rule.node.toList else s.aliases
  let t := [Which.vdd, Which.vss].foldl (supplyStep U sameLetter subcktPorts dcOf rule i sel cs apply)
    { hits := s.hits ++ [.rule i], notes := s.notes }
  if !t.ok || !apply then { s with hits := t.hits, notes := t.notes, aliases := aliases }
  else
    { hits := t.hits
      notes := t.notes
      aliases := aliases
      applied := s.applied ++ [i]
      merged := Function.update s.merged rk (rule.params.foldl (mergeParam i) (s.merged rk))
      supply := Function.update s.supply rk fun which => ((t.sup which).map (·, i)).or (s.supply rk which) }

/-- One rule of the loop, whose number is `i`. -/
def ruleStep (names : List Str) (ports : List Port5) (cs : Bool) (role : Option Role) (s : Merge)
    (indexed : IeRule × Nat) : Merge :=
  let (rule, i) := indexed
  if direction rule ∉ roleMarks role then s
  else
    match select U sameLetter rule names ports cs with
    | none => s
    | some sel =>
      matchedRule U sameLetter subcktPorts dcOf rule i sel (names.headD []) cs (direction rule ∈ roleKinds role) s

/-- The canonical name and the cells of the cut ports are recorded before the rules are gone through. -/
def recordSeen (hits : RuleHits) (names : List Str) (ports : List Port5) : RuleHits :=
  let hits := if names.headD [] = [] then hits else hits ++ [.seen (names.headD [])]
  ports.foldl (fun hits p =>
    if p.cell ≠ [] ∧ HitKey.seenCell p.cell ∉ hits then hits ++ [.seenCell p.cell] else hits) hits

def mergeRules (cfg : AmsConfig) (names : List Str) (ports : List Port5) (hits : RuleHits) (role : Option Role) :
    Merge :=
  cfg.rules.zipIdx.foldl (ruleStep U sameLetter subcktPorts dcOf names ports (caseSensitive U cfg) role)
    { hits := recordSeen hits names ports }

end Resolve

/-! ## Levels -/

/-- The reference span of one kind, and whether its `vdd` is the caller's. -/
structure Reference where
  vss : Float
  vdd : Float
  fromVref : Bool

/-- `_reference` -/
def reference (sup : Supplies) (vref : VRef) : Reference where
  vss := ((sup .vss).map Prod.fst).getD vref.vss
  vdd := ((sup .vdd).map Prod.fst).getD vref.vdd
  fromVref := (sup .vdd).isNone

section Levels

variable (U : UnicodeData)

/-- A level as it is written; a percentage is taken on the reference span. -/
def levelValue (ref : Reference) (raw : Str) : Option Float :=
  (parseLevel U raw).map fun (v, pct) => if pct then ref.vss + v * (ref.vdd - ref.vss) else v

/-- `level` of `_d2a_levels` and `_a2d_levels`. -/
def level (ref : Reference) (default : Float) (m : Merged) (key : Str) : Option Float :=
  match m key with
  | none => some default
  | some (raw, _) => levelValue U ref raw

/-- Whether a level makes use of the caller's `vdd`. -/
def levelUsesVref (ref : Reference) (defaultUsesVdd : Bool) (m : Merged) (key : Str) : Bool :=
  match m key with
  | none => defaultUsesVdd && ref.fromVref
  | some (raw, _) => (parseLevel U raw).any Prod.snd && ref.fromVref

/-- `max(t, MIN_RAMP)` -/
def clampRamp (t : Float) : Float := if t < minRamp then minRamp else t

/-- `time` of `_d2a_levels`. -/
def time (default : Float) (ramp : Bool) (m : Merged) (key : Str) : Option Float :=
  match m key with
  | none => some default
  | some (raw, _) => (parseTime U raw).map fun t => if ramp then clampRamp t else t

/-- A value that is only read where the key is given. -/
def given {α : Type} (default : α) (read : Str → Option α) (m : Merged) (key : Str) : Option α :=
  match m key with
  | none => some default
  | some (raw, _) => read raw

/-- The levels that `_d2a_levels` sets; `none` for the `ValueError` of a value that does not parse. -/
def d2aLevels (m : Merged) (sup : Supplies) (vref : VRef) : Option D2A_IE := do
  let ref := reference sup vref
  let ie : D2A_IE := { hiv := 0.0, lov := 0.0 }
  let hiv ← level U ref ref.vdd m (str "hiv")
  let lov ← level U ref ref.vss m (str "lov")
  let rise ← time U ie.rise true m (str "rise_time")
  let fall ← time U ie.fall true m (str "fall_time")
  let delayRise ← time U 0.0 false m (str "rise_delay")
  let delayFall ← time U 0.0 false m (str "fall_delay")
  let x2v ← given ie.x2v (fun raw => U.int (Str.strip raw)) m (str "x2v")
  let rSeries ← given ie.rSeries (parseNumber U) m (str "r")
  return { hiv, lov, rise, fall, delayRise, delayFall, x2v, rSeries
           powernet := (m (str "powernet")).isSome
           weakFrac := if (m (str "r")).isSome then 1.0 else ie.weakFrac }

/-- The levels that `_a2d_levels` sets. -/
def a2dLevels (m : Merged) (sup : Supplies) (vref : VRef) : Option A2D_IE := do
  let ref := reference sup vref
  let mid := ref.vss + 0.5 * (ref.vdd - ref.vss)
  let ie : A2D_IE := { loth := 0.0, hith := 0.0 }
  let loth ← level U ref mid m (str "loth")
  let hith ← level U ref mid m (str "hith")
  let xband ← given none (fun raw => (parseNumber U raw).map some) m (str "xband")
  let midvTime ← given none (fun raw => (parseTime U raw).map some) m (str "midv_time")
  let midvLogic ← given ie.midvLogic (fun raw => some (U.upper (Str.strip raw))) m (str "midv_logic")
  return { loth, hith, xband, midvTime, midvLogic }

/-- Whether a level of the `d2a` element used the caller's `vdd`. -/
def d2aUsed (m : Merged) (sup : Supplies) (vref : VRef) : Bool :=
  let ref := reference sup vref
  levelUsesVref U ref true m (str "hiv") || levelUsesVref U ref false m (str "lov")

def a2dUsed (m : Merged) (sup : Supplies) (vref : VRef) : Bool :=
  let ref := reference sup vref
  levelUsesVref U ref true m (str "loth") || levelUsesVref U ref true m (str "hith")

end Levels

/-! ## The resolution -/

structure Resolution where
  d2a : D2A_IE
  a2d : A2D_IE
  notes : List Note
  rules : List Nat
  origins : List (Str × Str)
  aliases : List Str
  usedRef : Bool

def originOf (cfg : AmsConfig) (i : Nat) : Str := (cfg.rules[i]?.map IeRule.origin).getD []

/-- The origins of one kind's supplies and of its keys, in the order they are read. -/
def kindOrigins (cfg : AmsConfig) (pre : Str) (keys : List Str) (m : Merged) (sup : Supplies) : List (Str × Str) :=
  ([Which.vdd, Which.vss].filterMap fun which => (sup which).map fun (_, i) => (pre ++ which.key, originOf cfg i)) ++
    keys.filterMap fun key => (m key).map fun (_, i) => (pre ++ key, originOf cfg i)

def d2aKeys : List Str :=
  [str "hiv", str "lov", str "rise_time", str "fall_time", str "rise_delay", str "fall_delay", str "x2v",
    str "powernet"]

def a2dKeys : List Str := [str "loth", str "hith", str "xband", str "midv_time", str "midv_logic"]

/-- The rule of a `map_by_node`'s `r=`, for its entry of the origins. -/
def mapByNodeOrigin (cfg : AmsConfig) (m : Merged) : List (Str × Str) :=
  ((m (str "r")).map fun (_, i) => (str "map_by_node.r", originOf cfg i)).toList

/-- The error of a `loth` above its `hith`, at the last rule that gave one of them. -/
def thresholdNotes (ie : A2D_IE) (origins : List (Str × Str)) (canonical : Str) : List Note :=
  if ie.hith < ie.loth then
    let place := [str "a2d.loth", str "a2d.hith"].filterMap fun key => List.lookup key origins
    [⟨.error, place.getLast?.getD canonical, .lothAboveHith canonical ie.loth ie.hith⟩]
  else []

/-- The warning, once a command, of a series resistance that an ideal source has no use for. -/
def idealSourceNotes (cfg : AmsConfig) (hits : RuleHits) (canonical : Str) (role : Option Role) (powernet : Bool)
    (r : Option (Str × Nat)) : RuleHits × List Note :=
  let ideal : Bool := role = some .powernet || (powernet && (role = some .d2a || role = none))
  match r with
  | none => (hits, [])
  | some (raw, i) =>
    let key := HitKey.mapByNodeIdeal i
    if IeKind.d2a ∈ roleKinds role ∧ ideal ∧ key ∉ hits then
      (hits ++ [key], [⟨.warning, originOf cfg i, .idealSource raw canonical (role = some .powernet)⟩])
    else (hits, [])

section Detail

variable (U : UnicodeData) (sameLetter : CodePoint → CodePoint → Bool)

/-- `resolve_detail`, with the hits it leaves; `none` for the `ValueError` of a value that does not parse, which
    `check_rule` has excluded. -/
def resolveDetail (cfg : AmsConfig) (names : List Str) (ports : List Port5) (vref : VRef) (dcOf : Str → Supply)
    (hits : RuleHits) (role : Option Role) (subcktPorts : Option (Str → List Str)) :
    Option (Resolution × RuleHits) := do
  let canonical := names.headD []
  let s := mergeRules U sameLetter subcktPorts dcOf cfg names ports hits role
  let d2a ← d2aLevels U (s.merged .d2a) (s.supply .d2a) vref
  let a2d ← a2dLevels U (s.merged .a2d) (s.supply .a2d) vref
  let origins := kindOrigins cfg (str "d2a.") d2aKeys (s.merged .d2a) (s.supply .d2a) ++
    mapByNodeOrigin cfg (s.merged .d2a) ++ kindOrigins cfg (str "a2d.") a2dKeys (s.merged .a2d) (s.supply .a2d)
  let used : Bool := (d2aUsed U (s.merged .d2a) (s.supply .d2a) vref && decide (IeKind.d2a ∈ roleKinds role)) ||
    (a2dUsed U (s.merged .a2d) (s.supply .a2d) vref && decide (IeKind.a2d ∈ roleKinds role))
  let (hits, ideal) := idealSourceNotes cfg s.hits canonical role d2a.powernet (s.merged .d2a (str "r"))
  let notes := s.notes ++ thresholdNotes a2d origins canonical ++ (if used then vref.note.toList else []) ++ ideal
  return ({ d2a, a2d, notes, rules := s.applied, origins, aliases := s.aliases, usedRef := used }, hits)

/-! ## What the rules say of a node -/

/-- What a rule's `vdd=` or `vss=` comes to. -/
inductive Outcome where
  | absent
  | refused
  | volts (v : Float)

/-- A supply that is missing, not constant or cannot be named is refused. -/
def supplyOutcome (dcOf : Str → Supply) : SupplyName → Outcome
  | .absent => .absent
  | .ambiguous _ _ _ => .refused
  | .named [] => .refused
  | .named (c :: name) =>
    match dcOf (c :: name) with
    | .const v => .volts v
    | _ => .refused

def Outcome.isRefused : Outcome → Bool
  | .refused => true
  | _ => false

def Outcome.volts? : Outcome → Option Float
  | .volts v => some v
  | _ => none

variable (cfg : AmsConfig) (names : List Str) (ports : List Port5) (dcOf : Str → Supply) (role : Option Role)
  (subcktPorts : Option (Str → List Str))

/-- What one supply of a rule comes to on this node. -/
def ruleSupply (rule : IeRule) (which : Which) : Outcome :=
  match select U sameLetter rule names ports (caseSensitive U cfg) with
  | none => .refused
  | some sel => supplyOutcome dcOf (supplyName U sameLetter subcktPorts rule which sel (caseSensitive U cfg))

/-- The rule applies to the node: its kind is one that the role has, its selector matches, and each supply it names is
    a constant. -/
def applies (kind : IeKind) (rule : IeRule) : Bool :=
  direction rule = kind && decide (kind ∈ roleKinds role) &&
    (select U sameLetter rule names ports (caseSensitive U cfg)).isSome &&
    [Which.vdd, Which.vss].all fun which =>
      !(ruleSupply U sameLetter cfg names ports dcOf subcktPorts rule which).isRefused

/-- The keys that a parameter sets: both ramps for `rf_time`, both delays for `delay`. -/
def targets (k : Str) : List Str :=
  if k ∈ notLevels then []
  else if k = str "rf_time" then [str "rise_time", str "fall_time"]
  else if k = str "delay" then [str "rise_delay", str "fall_delay"]
  else [k]

/-- The value that a rule gives a key, the last of its parameters that sets it. -/
def givenBy (key : Str) (rule : IeRule) : Option Str :=
  (rule.params.reverse.find? fun param => key ∈ targets param.1).map Prod.snd

/-- The value that the last of the rules which gives the key gives it. -/
def lastGiven (rules : List IeRule) (key : Str) : Option Str := rules.reverse.findSome? (givenBy key)

/-- The voltage of a supply in the last of the rules which names it. -/
def lastVolts (rules : List IeRule) (which : Which) : Option Float :=
  rules.reverse.findSome? fun rule => (ruleSupply U sameLetter cfg names ports dcOf subcktPorts rule which).volts?

end Detail

end Vamos.Ams.Rules
