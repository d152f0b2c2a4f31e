import Sv2ghdl.Lists.Lookup
import Sv2ghdl.Vamos.Netlist.SourceStates

/-!
# The control block replays the source states

At every analysis an independent source has the type and the constants that the plan prescribes.  A field that is
left out of the statements is still bound as on the instance line exactly when no earlier statement printed a
constant for it: an exp whose `td1` reads a parameter prints its `delay` while it is a pulse.
-/

open Python Lookup

namespace Vamos.Netlist.Sources

open Vamos.Spectre (Kind)

/-! ## Parsed sources -/

section Parse

variable (U : UnicodeData) (M : Libm)

/-- `source_instance`, in the form of the instance line. -/
def sourceInstance (tranStops : List Float) (p : Params) : Except SourceError Source :=
  let type := match p.lookup (str "type") with
    | some (.one (.str t)) => t
    | some (.one (.name n)) => n
    | _ => str "dc"
  if type ∈ [str "dc", str "pulse", str "sine", str "exp", str "pwl"] then
    resolvedSource U M p type tranStops true
  else .error (.noType type)

def parseSources (tranStops : List Float) (lines : List (Str × Params)) : Except SourceError SourceStates :=
  lines.mapM fun line => do
    return (line.1, ← sourceInstance U M tranStops line.2)

variable {U M}

theorem resolveType_spec {src new : Source} {type : Str} {tranStops : List Float} {constraints : Bool}
    (hsrc : src.wave = none) (h : resolveType U M src type tranStops constraints = .ok new) :
    new.spectre = src.spectre ∧ (new.wave.isSome → new.dc = src.dc) := by
  unfold resolveType at h
  generalize U.lower (if type = [] then str "dc" else type) = t at h
  dsimp only at h
  split_ifs at h with hdc hpulse hsine hexp hpwl
  · cases h
    exact ⟨rfl, fun _ => rfl⟩
  · obtain ⟨w, _, h⟩ := bind_eq_ok.mp h
    cases h
    exact ⟨rfl, fun _ => rfl⟩
  · obtain ⟨r, _, h⟩ := bind_eq_ok.mp h
    cases r with
    | inl const =>
      cases h
      refine ⟨rfl, fun hwave => ?_⟩
      rw [hsrc] at hwave
      cases hwave
    | inr w =>
      cases h
      exact ⟨rfl, fun _ => rfl⟩
  · obtain ⟨w, _, h⟩ := bind_eq_ok.mp h
    cases h
    exact ⟨rfl, fun _ => rfl⟩
  · obtain ⟨w, _, h⟩ := bind_eq_ok.mp h
    cases h
    exact ⟨rfl, fun _ => rfl⟩

/-- A source keeps what is written; with a waveform its dc is the one that is written. -/
theorem resolveSource_spec {p : Params} {type : Str} {tranStops : List Float} {constraints : Bool} {src : Source}
    (h : resolveSource U M p type tranStops constraints = .ok src) :
    src.spectre = p ∧ (src.wave.isSome → src.dc = (p.lookup (str "dc")).map Value.first) := by
  obtain ⟨_, _, h⟩ := bind_eq_ok.mp h
  exact resolveType_spec rfl h

theorem constantSine_spec {src new : Source} (h : constantSine U src = some new) :
    new.spectre = src.spectre ∧ new.dc = (src.spectre.lookup (str "dc")).bind Value.first? := by
  unfold constantSine at h
  dsimp only at h
  split at h
  · cases h
  · cases h
    exact ⟨rfl, rfl⟩

theorem resolvedSource_spec {p : Params} {type : Str} {tranStops : List Float} {constraints : Bool} {src : Source}
    (h : resolvedSource U M p type tranStops constraints = .ok src)
    (hdc : p.lookup (str "dc") ≠ some (.vector [])) :
    src.spectre = p ∧ (src.wave.isSome → src.dc.isSome = (p.lookup (str "dc")).isSome) := by
  obtain ⟨src', hsrc', h⟩ := bind_eq_ok.mp h
  obtain ⟨hspectre, hwave⟩ := resolveSource_spec hsrc'
  cases h
  cases hconst : constantSine U src' with
  | none =>
    refine ⟨hspectre, fun h => ?_⟩
    show src'.dc.isSome = _
    rw [hwave h, Option.isSome_map]
  | some new =>
    obtain ⟨hnew, hgiven⟩ := constantSine_spec hconst
    refine ⟨hnew.trans hspectre, fun _ => ?_⟩
    show new.dc.isSome = _
    rw [hgiven, hspectre]
    cases hlookup : p.lookup (str "dc") with
    | none => rfl
    | some v =>
      cases v with
      | one e => rfl
      | vector es =>
        cases es with
        | nil => exact absurd hlookup hdc
        | cons e es => rfl

theorem lookup_setParam (key : Str) (value : Value) (p : Params) (k : Str) :
    (setParam key value p).lookup k = if k = key then some value else p.lookup k := by
  induction p with
  | nil =>
    unfold setParam
    rw [List.lookup_cons]
    by_cases hk : k = key
    · rw [if_pos hk, hk, beq_self_eq_true]
    · rw [if_neg hk, beq_false_of_ne hk]
  | cons q p ih =>
    unfold setParam
    by_cases hq : q.1 = key
    · rw [if_pos hq, List.lookup_cons]
      by_cases hk : k = key
      · rw [if_pos hk, hk, beq_self_eq_true]
      · rw [if_neg hk, beq_false_of_ne hk, List.lookup_cons, beq_false_of_ne (hq ▸ hk)]
    · rw [if_neg hq, List.lookup_cons, ih, List.lookup_cons]
      by_cases hk : k = key
      · simp [hk, beq_false_of_ne (Ne.symm hq)]
      · rw [if_neg hk, if_neg hk]

/-- The dc is not an empty vector, and with a waveform it is given when it is written. -/
structure WellFormed (src : Source) : Prop where
  notEmpty : src.spectre.lookup (str "dc") ≠ some (.vector [])
  given : src.wave.isSome → src.dc.isSome = (src.spectre.lookup (str "dc")).isSome

theorem WellFormed.of_resolved {p : Params} {type : Str} {tranStops : List Float} {constraints : Bool}
    {src : Source}
    (h : resolvedSource U M p type tranStops constraints = .ok src)
    (hdc : p.lookup (str "dc") ≠ some (.vector [])) : WellFormed src := by
  obtain ⟨hspectre, hgiven⟩ := resolvedSource_spec h hdc
  exact ⟨hspectre ▸ hdc, fun hwave => by rw [hspectre]; exact hgiven hwave⟩

theorem sourceInstance_wellFormed {tranStops : List Float} {p : Params} {src : Source}
    (h : sourceInstance U M tranStops p = .ok src) (hdc : p.lookup (str "dc") ≠ some (.vector [])) :
    WellFormed src := by
  unfold sourceInstance at h
  rcases ite_eq_iff.mp h with ⟨_, h⟩ | ⟨_, h⟩
  · exact .of_resolved h hdc
  · cases h

/-- The source has a waveform whose dc is not given. -/
def Source.derived (src : Source) : Bool := src.wave.isSome && src.dc.isNone

theorem Waveform.type_ne_dc (w : Waveform) : w.type ≠ .dc := by
  cases w <;> exact SourceType.noConfusion

theorem Source.type_eq_dc_iff {src : Source} : src.type = .dc ↔ src.derived = false := by
  unfold Source.type Source.derived
  cases src.wave with
  | none => exact ⟨fun _ => rfl, fun _ => rfl⟩
  | some w =>
    cases src.dc with
    | none => exact ⟨fun h => absurd h w.type_ne_dc, fun h => nomatch h⟩
    | some dc => exact ⟨fun _ => rfl, fun _ => rfl⟩

/-- A statement does not set a dc to an empty vector. -/
def Statement.SetsDc : Statement → Prop
  | .alter _ param value => param = str "dc" → value.value ≠ .vector []
  | .analysis .. => True

theorem alterSource_spec {tranStops : List Float} {cur new : Source} {param : Str} {value : Setting}
    (h : alterSource U M tranStops cur param value = .ok new) :
    ∃ type, resolvedSource U M (setParam param value.value cur.spectre) type tranStops false = .ok new := by
  obtain ⟨_, _, h⟩ := bind_eq_ok.mp h
  obtain ⟨type, _, h⟩ := bind_eq_ok.mp h
  refine ⟨type, ?_⟩
  unfold resolveAltered at h
  cases hnew : resolvedSource U M (setParam param value.value cur.spectre) type tranStops false with
  | error e =>
    rw [hnew] at h
    cases h
  | ok src =>
    rw [hnew] at h
    cases h
    rfl

theorem alterSource_wellFormed {tranStops : List Float} {cur new : Source} {param : Str} {value : Setting}
    (h : alterSource U M tranStops cur param value = .ok new) (hcur : WellFormed cur)
    (hdc : param = str "dc" → value.value ≠ .vector []) : WellFormed new := by
  obtain ⟨type, hnew⟩ := alterSource_spec h
  apply WellFormed.of_resolved hnew
  rw [lookup_setParam]
  split_ifs with hparam
  · intro heq
    exact hdc hparam.symm (Option.some.inj heq)
  · exact hcur.notEmpty

/-- An alter of another field gives no dc to a source with a waveform. -/
theorem alterSource_derived {tranStops : List Float} {cur new : Source} {param : Str} {value : Setting}
    (h : alterSource U M tranStops cur param value = .ok new) (hcur : WellFormed cur) (hparam : param ≠ str "dc")
    (hwave : new.wave.isSome) (hgiven : new.dc.isSome) : cur.derived = false := by
  obtain ⟨type, hresolved⟩ := alterSource_spec h
  have hlookup : (setParam param value.value cur.spectre).lookup (str "dc") = cur.spectre.lookup (str "dc") := by
    rw [lookup_setParam, if_neg (Ne.symm hparam)]
  obtain ⟨-, hnew⟩ := resolvedSource_spec hresolved (by rw [hlookup]; exact hcur.notEmpty)
  have hwritten : (cur.spectre.lookup (str "dc")).isSome := by
    rw [← hlookup, ← hnew hwave]
    exact hgiven
  unfold Source.derived
  rw [Bool.and_eq_false_iff]
  by_cases hcurWave : cur.wave.isSome
  · right
    rw [← Option.not_isSome, hcur.given hcurWave, hwritten]
    rfl
  · exact .inl (Bool.eq_false_of_not_eq_true hcurWave)

end Parse

/-! ## What is printed -/

section Printed

/-- The keys of the fields are different. -/
theorem fields_nodup {src : Source} {fields : List (Key × Item)} (h : src.fields = .ok fields) :
    (fields.map Prod.fst).Nodup := by
  obtain ⟨items, hitems, h⟩ := bind_eq_ok.mp h
  cases h
  unfold Source.waveItems at hitems
  unfold Source.dcItems
  cases hwave : src.wave with
  | none =>
    rw [hwave] at hitems
    cases hitems
    cases src.dc <;> cases src.ac <;> simp
  | some w =>
    rw [hwave] at hitems
    obtain ⟨_, _, hitems⟩ := bind_eq_ok.mp hitems
    cases hitems
    cases w with
    | pulse v1 v2 td tr tf pw per =>
      cases per <;> cases src.dc <;> cases src.ac <;> simp [Waveform.items]
    | sin vo va freq td theta phase => cases src.dc <;> cases src.ac <;> simp [Waveform.items]
    | exp v1 v2 td1 tau1 td2 tau2 => cases src.dc <;> cases src.ac <;> simp [Waveform.items]
    | pwl points td => cases src.dc <;> cases src.ac <;> simp [Waveform.items]

/-- The source prints the item for the parameter. -/
def Source.Prints (src : Source) (key : Key) (item : Item) : Prop :=
  ∃ fields, src.fields = .ok fields ∧ fields.lookup key = some item

end Printed

/-! ## The parameters of an instance -/

section Params

variable (U : UnicodeData)

/-- The fields that a statement about a source prints. -/
def Source.kept (src : Source) : List (Key × Item) :=
  (src.fields.toOption.getD []).filter fun i => !i.2.reads U

/-- The parameters as the instance line binds them. -/
def Source.lineParam (base : Source) (key : Key) : Binding :=
  match (base.fields.toOption.getD []).lookup key with
  | none => .unset
  | some item => .line item

def setBy (param : Key → Binding) (src : Source) (key : Key) : Binding :=
  match (src.kept U).lookup key with
  | none => param key
  | some item => .set item

/-- The parameters after statements that printed these sources. -/
def paramAfter (base : Source) (printed : List Source) : Key → Binding := printed.foldl (setBy U) base.lineParam

variable {U}

theorem prints_iff {src : Source} {key : Key} {item : Item} :
    src.Prints key item ↔ (src.fields.toOption.getD []).lookup key = some item := by
  unfold Source.Prints
  cases hfields : src.fields with
  | error e =>
    constructor
    · rintro ⟨fields, h, _⟩
      cases h
    · intro h
      cases h
  | ok fields =>
    constructor
    · rintro ⟨fields', heq, h⟩
      cases heq
      exact h
    · exact fun h => ⟨fields, rfl, h⟩

theorem kept_lookup {src : Source} {key : Key} {item : Item} :
    (src.kept U).lookup key = some item ↔ src.Prints key item ∧ item.reads U = false := by
  rw [prints_iff]
  unfold Source.kept
  have hnodup : ((src.fields.toOption.getD []).map Prod.fst).Nodup := by
    cases hfields : src.fields with
    | error e => exact List.nodup_nil
    | ok fields => exact fields_nodup hfields
  rw [lookup_filter hnodup (fun item => !item.reads U), Option.filter_eq_some_iff, Bool.not_eq_true']

theorem lineParam_eq {base : Source} {key : Key} {item : Item} :
    base.lineParam key = .line item ↔ base.Prints key item := by
  rw [prints_iff]
  unfold Source.lineParam
  cases (base.fields.toOption.getD []).lookup key with
  | none =>
    constructor
    · intro h
      cases h
    · intro h
      cases h
  | some item' =>
    constructor
    · exact fun h => congrArg some (Binding.line.inj h)
    · exact fun h => congrArg Binding.line (Option.some.inj h)

/-- A parameter stays bound as long as no statement prints a constant for it. -/
theorem foldl_setBy_line {param : Key → Binding} {printed : List Source} {key : Key} {item : Item} :
    printed.foldl (setBy U) param key = .line item ↔
      param key = .line item ∧ ∀ src ∈ printed, ∀ item', src.Prints key item' → item'.reads U = true := by
  induction printed generalizing param with
  | nil => simp
  | cons src printed ih =>
    rw [List.foldl_cons, ih, List.forall_mem_cons]
    unfold setBy
    cases hkept : (src.kept U).lookup key with
    | none =>
      have hreads : ∀ item', src.Prints key item' → item'.reads U = true := by
        intro item' hprints
        by_contra hreads
        rw [kept_lookup.mpr ⟨hprints, Bool.eq_false_of_not_eq_true hreads⟩] at hkept
        cases hkept
      exact ⟨fun h => ⟨h.1, hreads, h.2⟩, fun h => ⟨h.1, h.2.2⟩⟩
    | some const =>
      obtain ⟨hprints, hreads⟩ := kept_lookup.mp hkept
      constructor
      · exact fun h => nomatch h.1
      · intro h
        rw [h.2.1 const hprints] at hreads
        cases hreads

theorem paramAfter_concat (base : Source) (printed : List Source) (src : Source) :
    paramAfter U base (printed ++ [src]) = setBy U (paramAfter U base printed) src := by
  unfold paramAfter
  rw [List.foldl_append]
  rfl

/-- The constants of the source that was printed last. -/
theorem paramAfter_set {base src : Source} {printed : List Source} (hlast : printed.getLast? = some src) {key : Key}
    {item : Item} (hprints : src.Prints key item) (hreads : item.reads U = false) :
    paramAfter U base printed key = .set item := by
  obtain ⟨printed, rfl⟩ := List.getLast?_eq_some_iff.mp hlast
  rw [paramAfter_concat]
  unfold setBy
  rw [kept_lookup.mpr ⟨hprints, hreads⟩]

end Params

/-! ## The statements of the control block -/

section Track

variable (U : UnicodeData)

/-- What an action does to the instance at a path, beside the type that was printed last for it. -/
def track (path : Str) (s : Option SourceType × Live) : Action → Option SourceType × Live
  | .alter p param src =>
    if p = path then (some (alterType s.1 param src), s.2.alter ⟨alterType s.1 param src, src.kept U⟩) else s
  | .source p type src => if p = path then (some type, s.2.alter ⟨type, src.kept U⟩) else s
  | .analysis .. => s

variable {U} {holds : Expr → Expr → Bool} {swap : List (Expr × Expr) → Expr → Expr} {netlist : SourceStates}
  {hooked : Str → Str → Bool}

theorem controlFields_eq {path : Str} {src base : Source} {state : SourceType} {hooked : Str → Bool}
    {printed : Printed} (h : controlFields U holds swap path src base state hooked = .ok printed) :
    printed = ⟨state, src.kept U⟩ := by
  unfold controlFields at h
  unfold Source.kept
  cases hfields : src.fields with
  | error e =>
    rw [hfields] at h
    cases h
  | ok fields =>
    rw [hfields] at h
    dsimp only at h
    split at h
    · split at h
      · cases h
        rfl
      · cases h
    · cases h
      rfl

theorem cons_eq_split {act : Action} {rest pre : List Action} {kind : Kind} {levels : List Level}
    {states : SourceStates} {post : List Action} (hact : act.isAnalysis = false) :
    act :: rest = pre ++ .analysis kind levels states :: post ↔
      ∃ pre', pre = act :: pre' ∧ rest = pre' ++ .analysis kind levels states :: post := by
  constructor
  · intro h
    cases pre with
    | nil =>
      cases h
      cases hact
    | cons a pre =>
      obtain ⟨rfl, hrest⟩ := List.cons.inj h
      exact ⟨pre, rfl, hrest⟩
  · rintro ⟨pre', rfl, rfl⟩
    rfl

/-- A statement about one instance, and the lines of the rest. -/
theorem mem_replayFrom_alter {last : Str → Option SourceType} {lives : Str → Option Live} {pt : Point}
    {act : Action} {rest : List Action} {lines : List Line} {path : Str} {printed : Printed}
    {state : SourceType} (hact : act.isAnalysis = false)
    (htrack : ∀ q live, track U q (last q, live) act =
      if path = q then (some state, live.alter printed) else (last q, live))
    (ih : pt ∈ replayFrom (Function.update lives path ((lives path).map (·.alter printed))) lines ↔
      ∃ pre post, rest = pre ++ .analysis pt.kind pt.levels pt.states :: post ∧ pt.lives = fun q =>
        (Function.update lives path ((lives path).map (·.alter printed)) q).map fun live =>
          (pre.foldl (track U q) (Function.update last path (some state) q, live)).2) :
    pt ∈ replayFrom lives (.alter path printed :: lines) ↔
      ∃ pre post, act :: rest = pre ++ .analysis pt.kind pt.levels pt.states :: post ∧ pt.lives = fun q =>
        (lives q).map fun live => (pre.foldl (track U q) (last q, live)).2 := by
  have hlives (pre : List Action) : (fun q =>
      (Function.update lives path ((lives path).map (·.alter printed)) q).map fun live =>
        (pre.foldl (track U q) (Function.update last path (some state) q, live)).2) =
      fun q => (lives q).map fun live => ((act :: pre).foldl (track U q) (last q, live)).2 := by
    funext q
    simp only [List.foldl_cons, htrack]
    by_cases hq : path = q
    · subst hq
      simp only [Function.update_self, Option.map_map, if_true]
      rfl
    · simp only [Function.update_of_ne (Ne.symm hq), if_neg hq]
  show pt ∈ replayFrom _ lines ↔ _
  rw [ih]
  constructor
  · rintro ⟨pre, post, hrest, hpt⟩
    exact ⟨act :: pre, post, (cons_eq_split hact).mpr ⟨pre, rfl, hrest⟩, hpt.trans (hlives pre)⟩
  · rintro ⟨pre, post, heq, hpt⟩
    obtain ⟨pre, rfl, hrest⟩ := (cons_eq_split hact).mp heq
    exact ⟨pre, post, hrest, hpt.trans (hlives pre).symm⟩

/-- The analyses of a replay, each with the instances as the actions before it left them. -/
theorem mem_replayFrom_iff {last : Str → Option SourceType} {actions : List Action} {lines : List Line}
    (h : control U holds swap netlist hooked last actions = .ok lines) (lives : Str → Option Live) {pt : Point} :
    pt ∈ replayFrom lives lines ↔
      ∃ pre post, actions = pre ++ .analysis pt.kind pt.levels pt.states :: post ∧
        pt.lives = fun path => (lives path).map fun live => (pre.foldl (track U path) (last path, live)).2 := by
  induction actions generalizing last lives lines with
  | nil =>
    cases h
    constructor
    · intro hpt
      cases hpt
    · rintro ⟨pre, post, heq, _⟩
      cases pre <;> cases heq
  | cons act rest ih =>
    cases act with
    | alter path param src =>
      unfold control at h
      split at h
      · cases hbase : netlist.lookup path with
        | none =>
          rw [hbase] at h
          cases h
        | some base =>
          rw [hbase] at h
          obtain ⟨printed, hprinted, h⟩ := bind_eq_ok.mp h
          obtain ⟨lines', hlines, h⟩ := bind_eq_ok.mp h
          cases h
          cases controlFields_eq hprinted
          refine mem_replayFrom_alter rfl (fun q live => ?_) (ih hlines _)
          by_cases hq : path = q
          · subst hq
            rfl
          · simp only [track, if_neg hq]
      · -- no analysis comes after the alter
        rename_i hany
        have hrest {pre post : List Action} (heq : rest = pre ++ .analysis pt.kind pt.levels pt.states :: post) :
            False := by
          apply hany
          rw [heq, List.any_append, List.any_cons]
          simp [Action.isAnalysis]
        constructor
        · intro hpt
          obtain ⟨pre, post, heq, _⟩ := (ih h lives).mp hpt
          exact (hrest heq).elim
        · rintro ⟨pre, post, heq, _⟩
          obtain ⟨pre, _, heq⟩ := (cons_eq_split rfl).mp heq
          exact (hrest heq).elim
    | source path type src =>
      unfold control at h
      cases hbase : netlist.lookup path with
      | none =>
        rw [hbase] at h
        cases h
      | some base =>
        rw [hbase] at h
        obtain ⟨printed, hprinted, h⟩ := bind_eq_ok.mp h
        obtain ⟨lines', hlines, h⟩ := bind_eq_ok.mp h
        cases h
        cases controlFields_eq hprinted
        exact mem_replayFrom_alter rfl (fun q live => rfl) (ih hlines _)
    | analysis kind levels states =>
      obtain ⟨lines', hlines, h⟩ := bind_eq_ok.mp h
      cases h
      rw [replayFrom, List.mem_cons, ih hlines]
      constructor
      · rintro (rfl | ⟨pre, post, hrest, hpt⟩)
        · exact ⟨[], rest, rfl, by simp⟩
        · exact ⟨.analysis kind levels states :: pre, post, by rw [hrest]; rfl, hpt⟩
      · rintro ⟨pre, post, heq, hpt⟩
        cases pre with
        | nil =>
          left
          cases pt
          cases heq
          cases hpt
          simp
        | cons a pre =>
          obtain ⟨rfl, hrest⟩ := List.cons.inj heq
          exact .inr ⟨pre, post, hrest, hpt⟩

end Track

/-! ## The plan's states and the instances -/

section Tracks

variable (U : UnicodeData)

/-- The source that an action prints for a path. -/
def Action.source? (path : Str) : Action → Option Source
  | alter p _ src => if p = path then some src else none
  | source p _ src => if p = path then some src else none
  | analysis .. => none

/-- The source printed last for a path, and whether it got a dc by alters of other fields since it was printed with
    the type of its waveform. -/
def gainDc (path : Str) (r : Option Source × Bool) : Action → Option Source × Bool
  | .alter p param src =>
    if p = path then
      (some src, src.wave.isSome && src.dc.isSome && param ≠ str "dc" && (r.2 || r.1.any Source.derived))
    else r
  | .source p _ src => if p = path then (some src, false) else r
  | .analysis .. => r

/-- An instance that has the fields of a source of the plan, after statements that printed sources; it has the type
    as well unless the source got a dc by an alter of another field. -/
structure Tracks (base src : Source) (printed : List Source) (current : SourceType)
    (s : Option SourceType × Live) (r : Option Source × Bool) : Prop where
  source : printed = [] ∧ src = base ∧ s.1 = none ∧ r.1 = none ∨
    printed.getLast? = some src ∧ s.1 = some s.2.type ∧ r.1 = some src
  /-- A field that is left out has a binding. -/
  bound : ∀ key item, src.Prints key item → item.reads U = true → ∃ item', base.Prints key item'
  param : s.2.param = paramAfter U base printed
  type : r.2 = false → s.2.type = current
  gained : r.2 = true → s.2.type ≠ .dc ∧ current = .dc ∧ r.1.isSome

variable {U} {M : Libm} {holds : Expr → Expr → Bool} {swap : List (Expr × Expr) → Expr → Expr}
  {tranStops : List Float} {netlist : SourceStates} {hooked : Str → Str → Bool}

theorem Live.alter_param (live : Live) (type : SourceType) (src : Source) :
    (live.alter ⟨type, src.kept U⟩).param = setBy U live.param src := rfl

theorem track_source (path : Str) (s : Option SourceType × Live) (type : SourceType) (src : Source) :
    track U path s (.source path type src) = (some type, s.2.alter ⟨type, src.kept U⟩) := if_pos rfl

theorem track_alter (path : Str) (s : Option SourceType × Live) (param : Str) (src : Source) :
    track U path s (.alter path param src) =
      (some (alterType s.1 param src), s.2.alter ⟨alterType s.1 param src, src.kept U⟩) := if_pos rfl

theorem gainDc_source (path : Str) (r : Option Source × Bool) (type : SourceType) (src : Source) :
    gainDc path r (.source path type src) = (some src, false) := if_pos rfl

theorem gainDc_alter (path : Str) (r : Option Source × Bool) (param : Str) (src : Source) :
    gainDc path r (.alter path param src) =
      (some src, src.wave.isSome && src.dc.isSome && param ≠ str "dc" && (r.2 || r.1.any Source.derived)) :=
  if_pos rfl

theorem Tracks.switch {base src : Source} {printed : List Source} {t : SourceType}
    {s : Option SourceType × Live} {r : Option Source × Bool} (h : Tracks U base src printed t s r) (path : Str)
    (type : SourceType) :
    Tracks U base src (printed ++ [src]) type (track U path s (.source path type src))
      (gainDc path r (.source path type src)) := by
  rw [track_source, gainDc_source]
  refine ⟨.inr ⟨List.getLast?_concat, rfl, rfl⟩, h.bound, ?_, fun _ => rfl, fun hgained => nomatch hgained⟩
  rw [Live.alter_param, h.param, paramAfter_concat]

/-- Switches around an analysis; those of the path print its source and one type. -/
theorem Tracks.switches {base src : Source} {path : Str} {sw : List Switch} {f : Switch → SourceType}
    {type : SourceType} (hsw : ∀ x ∈ sw, x.path = path → x.src = src ∧ f x = type) {printed : List Source}
    {t : SourceType} {s : Option SourceType × Live} {r : Option Source × Bool}
    (h : Tracks U base src printed t s r) :
    Tracks U base src
      (printed ++ (sw.map fun x => Action.source x.path (f x) x.src).filterMap (Action.source? path))
      (if ∃ x ∈ sw, x.path = path then type else t)
      ((sw.map fun x => Action.source x.path (f x) x.src).foldl (track U path) s)
      ((sw.map fun x => Action.source x.path (f x) x.src).foldl (gainDc path) r) := by
  induction sw generalizing printed t s r with
  | nil => simpa using h
  | cons x sw ih =>
    have hsw' := fun y hy => hsw y (List.mem_cons_of_mem x hy)
    by_cases hx : x.path = path
    · obtain ⟨hsrc, htype⟩ := hsw x List.mem_cons_self hx
      have hnext := ih hsw' (h.switch path type)
      rw [if_pos ⟨x, List.mem_cons_self, hx⟩, List.map_cons, List.foldl_cons, List.foldl_cons, hx, hsrc, htype]
      rw [List.append_assoc, ite_self] at hnext
      have hsource : Action.source? path (.source path type src) = some src := if_pos rfl
      rwa [List.filterMap_cons_some hsource]
    · have hnext := ih hsw' h
      have hiff : (∃ y ∈ x :: sw, y.path = path) ↔ ∃ y ∈ sw, y.path = path := by simp [hx]
      have hsource : Action.source? path (.source x.path (f x) x.src) = none := if_neg hx
      rw [List.map_cons, List.foldl_cons, List.foldl_cons, List.filterMap_cons_none hsource]
      simp only [hiff]
      rwa [show track U path s (.source x.path (f x) x.src) = s from if_neg hx,
        show gainDc path r (.source x.path (f x) x.src) = r from if_neg hx]

/-! ### Alters -/

/-- A field that reads something is one of `printed_items`. -/
theorem mem_printedItems {src : Source} {key : Key} {item : Item} (hprints : src.Prints key item)
    (hreads : item.reads U = true) : (key, item) ∈ src.printedItems.getD [] := by
  obtain ⟨fields, hfields, hlookup⟩ := hprints
  obtain ⟨items, hitems, hfields⟩ := bind_eq_ok.mp hfields
  cases hfields
  have hmem := mem_of_lookup hlookup
  unfold Source.printedItems
  rw [hitems]
  rcases List.mem_append.mp hmem with hmem | hmem
  · rcases List.mem_append.mp hmem with hmem | hmem
    · exact List.mem_append_left _ hmem
    · -- the dc that is printed as 0
      split_ifs at hmem
      · cases List.mem_singleton.mp hmem
        exact absurd hreads (by rw [Item.reads_num]; exact Bool.false_ne_true)
      · cases hmem
  · exact List.mem_append_right _ hmem

theorem prints_of_printedItems {src : Source} {key : Key} {item : Item}
    (h : (src.printedItems.getD []).lookup key = some item) : ∃ item', src.Prints key item' := by
  unfold Source.printedItems at h
  cases hitems : src.waveItems with
  | error e =>
    rw [hitems] at h
    cases h
  | ok items =>
    rw [hitems] at h
    have hmem := mem_of_lookup h
    have hfields : src.fields = .ok (items ++
        (if src.dc.isNone && src.wave.isNone then [(.dc, .expr (.num 0))] else []) ++ src.dcItems) :=
      bind_eq_ok.mpr ⟨items, hitems, rfl⟩
    obtain ⟨item', hitem'⟩ := @lookup_isSome_of_mem _ _ _ _ (items ++
      (if src.dc.isNone && src.wave.isNone then [(.dc, .expr (.num 0))] else []) ++ src.dcItems) (key, item) (by
        rcases List.mem_append.mp hmem with hmem | hmem
        · exact List.mem_append_left _ (List.mem_append_left _ hmem)
        · exact List.mem_append_right _ hmem)
    exact ⟨item', _, hfields, hitem'⟩

/-- Where a statement is accepted, the instance line binds what the statement leaves out. -/
theorem controlSourceProblems_bound {src base : Source} {hooked : Str → Bool}
    (h : controlSourceProblems U holds swap src base hooked = []) {key : Key} {item : Item}
    (hprints : src.Prints key item) (hreads : item.reads U = true) : ∃ item', base.Prints key item' := by
  have hnone := List.filter_eq_nil_iff.mp (List.map_eq_nil_iff.mp h) _ (mem_printedItems hprints hreads)
  rw [Bool.and_eq_true, not_and, Bool.not_eq_true', Bool.not_eq_false] at hnone
  have hkeeps := hnone hreads
  unfold keepsBinding at hkeeps
  dsimp only at hkeeps
  split at hkeeps
  · cases hkeeps
  · rename_i was hwas
    exact prints_of_printedItems hwas

/-- The type that an alter prints is that of the new source, or the source gets its dc by another field. -/
theorem Tracks.alterType {base cur : Source} {printed : List Source} {s : Option SourceType × Live}
    {r : Option Source × Bool} (h : Tracks U base cur printed cur.type s r) (path param : Str) (new : Source) :
    if (gainDc path r (.alter path param new)).2 then Sources.alterType s.1 param new ≠ .dc ∧ new.type = .dc
    else Sources.alterType s.1 param new = new.type := by
  rw [gainDc_alter]
  unfold Sources.alterType Source.type
  cases hwave : new.wave with
  | none => rfl
  | some w =>
    cases hgiven : new.dc with
    | none => rfl
    | some dc =>
      by_cases hparam : param = str "dc"
      · simp [hparam]
      · rcases h.source with ⟨-, -, hs, hr⟩ | ⟨-, hs, hr⟩
        · -- nothing was printed before
          have hgained : r.2 = false := by
            by_contra hgained
            have hsome := (h.gained (Bool.eq_true_of_not_eq_false hgained)).2.2
            rw [hr] at hsome
            cases hsome
          simp [hs, hr, hgained, hparam]
        · -- the type that was printed last stays
          cases hgained : r.2 with
          | true => simp [hs, hparam, (h.gained hgained).1]
          | false =>
            have htype := h.type hgained
            cases hderived : cur.derived with
            | true =>
              have hne : s.2.type ≠ .dc := by
                rw [htype, Ne, Source.type_eq_dc_iff, hderived]
                exact Bool.noConfusion
              simp [hs, hr, hparam, hderived, hne]
            | false => simp [hs, hr, hparam, hderived, htype, Source.type_eq_dc_iff.mpr hderived]

theorem Tracks.alter {path : Str} {base cur new : Source} {param : Str} {printed : List Source}
    {s : Option SourceType × Live} {r : Option Source × Bool} (h : Tracks U base cur printed cur.type s r)
    (hproblems : controlSourceProblems U holds swap new base (hooked path) = []) :
    Tracks U base new (printed ++ [new]) new.type (track U path s (.alter path param new))
      (gainDc path r (.alter path param new)) := by
  have htype := h.alterType path param new
  rw [gainDc_alter] at htype ⊢
  rw [track_alter]
  refine ⟨.inr ⟨List.getLast?_concat, rfl, rfl⟩, fun key item => controlSourceProblems_bound hproblems, ?_, ?_, ?_⟩
  · rw [Live.alter_param, h.param, paramAfter_concat]
  · intro hgained
    rwa [hgained, if_neg Bool.false_ne_true] at htype
  · intro hgained
    rw [hgained, if_pos rfl] at htype
    exact ⟨htype.1, htype.2, rfl⟩

/-! ### The switches of an analysis -/

/-- Whether a level sweeps the dc of the source. -/
def sweepsDc (levels : List Level) (path : Str) : Bool :=
  levels.any fun level => level.source = some path && level.param = str "dc"

/-- The type in an analysis: the waveform in a tran; else dc when the dc is given or swept. -/
def prescribedType (src : Source) (kind : Kind) (swept : Bool) : SourceType :=
  match src.wave with
  | none => .dc
  | some w => if kind = .tran then w.type else if src.dc.isSome || swept then .dc else w.type

/-- A switch goes to the type in the analysis and back to the type between the analyses. -/
theorem switch_spec {states : SourceStates} (hnodup : (states.map Prod.fst).Nodup) {kind : Kind}
    {levels : List Level} {x : Switch} (hx : x ∈ switches states kind levels) :
    states.lookup x.path = some x.src ∧ x.before = prescribedType x.src kind (sweepsDc levels x.path) ∧
      x.after = x.src.type := by
  unfold Sources.switches at hx
  split_ifs at hx with hkind
  · obtain ⟨p, hp, hx⟩ := List.mem_filterMap.mp hx
    split at hx
    · rename_i w dc hwave hdc
      cases hx
      refine ⟨lookup_of_mem hnodup hp, ?_, ?_⟩
      · unfold prescribedType
        rw [hwave]
        exact (if_pos hkind).symm
      · unfold Source.type
        rw [hwave, hdc]
    · cases hx
  · obtain ⟨level, hlevel, hx⟩ := List.mem_filterMap.mp hx
    split at hx
    · cases hx
    · rename_i path hpath
      split_ifs at hx with hparam
      · split at hx
        · cases hx
        · rename_i src hsrc
          split at hx
          · rename_i w hwave hdc
            cases hx
            have hswept : sweepsDc levels path = true :=
              List.any_eq_true.mpr ⟨level, hlevel, by simp [hpath, hparam]⟩
            refine ⟨hsrc, ?_, ?_⟩
            · unfold prescribedType
              rw [hwave]
              dsimp only
              rw [if_neg hkind, hswept, Bool.or_true, if_pos rfl]
            · unfold Source.type
              rw [hwave, hdc]
          · cases hx

/-- A source without a switch has the type in the analysis already. -/
theorem prescribedType_of_no_switch {states : SourceStates} {path : Str} {src : Source}
    (hlookup : states.lookup path = some src) {kind : Kind} {levels : List Level}
    (hnone : ¬∃ x ∈ switches states kind levels, x.path = path) :
    prescribedType src kind (sweepsDc levels path) = src.type := by
  unfold prescribedType Source.type
  cases hwave : src.wave with
  | none => rfl
  | some w =>
    dsimp only
    split_ifs with hkind hdc
    · cases hgiven : src.dc with
      | none => rfl
      | some dc =>
        -- a tran of a source with a given dc
        refine absurd ⟨⟨path, src, w.type, .dc⟩, ?_, rfl⟩ hnone
        unfold Sources.switches
        rw [if_pos hkind]
        exact List.mem_filterMap.mpr ⟨(path, src), mem_of_lookup hlookup, by simp [hwave, hgiven]⟩
    · cases hgiven : src.dc with
      | some dc => rfl
      | none =>
        -- a sweep of a dc that is not given
        rw [hgiven] at hdc
        have hswept : sweepsDc levels path = true := by simpa using hdc
        obtain ⟨level, hlevel, hsweeps⟩ := List.any_eq_true.mp hswept
        simp only [Bool.and_eq_true, decide_eq_true_eq] at hsweeps
        refine absurd ⟨⟨path, src, .dc, w.type⟩, ?_, rfl⟩ hnone
        unfold Sources.switches
        rw [if_neg hkind]
        exact List.mem_filterMap.mpr ⟨level, hlevel, by simp [hsweeps, hlookup, hwave, hgiven]⟩
    · cases hgiven : src.dc with
      | none => rfl
      | some dc =>
        rw [hgiven] at hdc
        exact absurd rfl hdc

end Tracks

/-! ## Runs -/

section Runs

variable {U : UnicodeData} {M : Libm} {holds : Expr → Expr → Bool} {swap : List (Expr × Expr) → Expr → Expr}
  {tranStops : List Float} {netlist : SourceStates} {hooked : Str → Str → Bool}

/-- A list that is followed by others holds no analysis: the analysis is in the rest. -/
theorem append_eq_split {acts rest pre : List Action} {kind : Kind} {levels : List Level} {states : SourceStates}
    {post : List Action} (hacts : ∀ a ∈ acts, a.isAnalysis = false)
    (h : acts ++ rest = pre ++ .analysis kind levels states :: post) :
    ∃ pre', pre = acts ++ pre' ∧ rest = pre' ++ .analysis kind levels states :: post := by
  induction acts generalizing pre with
  | nil => exact ⟨pre, rfl, h⟩
  | cons a acts ih =>
    obtain ⟨pre, rfl, htail⟩ := (cons_eq_split (hacts a List.mem_cons_self)).mp h
    obtain ⟨pre', rfl, hrest⟩ := ih (fun b hb => hacts b (List.mem_cons_of_mem a hb)) htail
    exact ⟨pre', rfl, hrest⟩

theorem keys_setState (path : Str) (src : Source) (states : SourceStates) :
    (setState path src states).map Prod.fst = states.map Prod.fst := by
  unfold setState
  rw [List.map_map]
  apply List.map_congr_left
  intro s _
  show (if s.1 = path then (path, src) else s).1 = s.1
  split_ifs with h
  · exact h.symm
  · rfl

theorem lookup_setState (path : Str) (src : Source) (states : SourceStates) (q : Str) :
    (setState path src states).lookup q =
      if q = path then (states.lookup path).map fun _ => src else states.lookup q := by
  unfold setState
  induction states with
  | nil =>
    split_ifs
    · rfl
    · rfl
  | cons s states ih =>
    rw [List.map_cons, List.lookup_cons, List.lookup_cons, List.lookup_cons, ih]
    by_cases hs : s.1 = path
    · rw [if_pos hs]
      by_cases hq : q = path
      · simp [hq, hs]
      · simp [hq, hs, beq_false_of_ne hq]
    · rw [if_neg hs]
      by_cases hq : q = path
      · simp [hq, beq_false_of_ne (Ne.symm hs)]
      · simp [hq]

/-- The actions of a statement and of those behind it. -/
theorem planFrom_cons {states : SourceStates} {st : Statement} {sts : List Statement} {actions : List Action}
    (h : planFrom U M holds swap tranStops netlist hooked states (st :: sts) = .ok actions) :
    ∃ states' acts rest, planStatement U M holds swap tranStops netlist hooked states st = .ok (states', acts) ∧
      planFrom U M holds swap tranStops netlist hooked states' sts = .ok rest ∧ actions = acts ++ rest := by
  obtain ⟨⟨states', acts⟩, hst, h⟩ := bind_eq_ok.mp h
  obtain ⟨rest, hrest, h⟩ := bind_eq_ok.mp h
  cases h
  exact ⟨states', acts, rest, hst, hrest, rfl⟩

theorem controlSourceCheck_ok {path : Str} {src base : Source} (hbase : netlist.lookup path = some base)
    (h : controlSourceCheck U holds swap netlist hooked path src = .ok ()) :
    controlSourceProblems U holds swap src base (hooked path) = [] := by
  unfold controlSourceCheck at h
  rw [hbase] at h
  dsimp only at h
  cases hproblems : controlSourceProblems U holds swap src base (hooked path) with
  | nil => rfl
  | cons key keys =>
    rw [hproblems] at h
    cases h

/-- At each analysis of a plan an instance has the source of the plan, switched to the type for the analysis. -/
theorem plan_tracks {states : SourceStates} {sts : List Statement} {actions : List Action}
    (h : planFrom U M holds swap tranStops netlist hooked states sts = .ok actions)
    (hnodup : (states.map Prod.fst).Nodup) {path : Str} {base src : Source}
    (hbase : netlist.lookup path = some base) (hsrc : states.lookup path = some src) {printed : List Source}
    {s : Option SourceType × Live} {r : Option Source × Bool} (hs : Tracks U base src printed src.type s r)
    {pre post : List Action} {kind : Kind} {levels : List Level} {states' : SourceStates}
    (hactions : actions = pre ++ .analysis kind levels states' :: post) :
    ∃ src', states'.lookup path = some src' ∧
      Tracks U base src' (printed ++ pre.filterMap (Action.source? path))
        (prescribedType src' kind (sweepsDc levels path)) (pre.foldl (track U path) s)
        (pre.foldl (gainDc path) r) := by
  induction sts generalizing states src printed s r pre actions with
  | nil =>
    cases h
    cases pre <;> cases hactions
  | cons st sts ih =>
    obtain ⟨next, acts, rest, hst, hrest, rfl⟩ := planFrom_cons h
    cases st with
    | alter path' param value =>
      cases hcur : states.lookup path' with
      | none =>
        rw [planStatement, hcur] at hst
        cases hst
      | some cur =>
        rw [planStatement, hcur] at hst
        obtain ⟨new, hnew, hst⟩ := bind_eq_ok.mp hst
        obtain ⟨_, hcheck, hst⟩ := bind_eq_ok.mp hst
        cases hst
        obtain ⟨pre, rfl, hrest'⟩ := append_eq_split (by simp [Action.isAnalysis]) hactions
        have hnodup' : ((setState path' new states).map Prod.fst).Nodup := by
          rw [keys_setState]
          exact hnodup
        rw [List.foldl_append, List.foldl_append, List.filterMap_append, ← List.append_assoc]
        by_cases hpath : path' = path
        · subst hpath
          cases hcur.symm.trans hsrc
          have hlookup : (setState path' new states).lookup path' = some new := by
            rw [lookup_setState, if_pos rfl, hcur]
            rfl
          have hsource : Action.source? path' (.alter path' param new) = some new := if_pos rfl
          rw [List.filterMap_cons_some hsource]
          exact ih hrest hnodup' hlookup
            (hs.alter (controlSourceCheck_ok hbase hcheck)) hrest'
        · have hlookup : (setState path' new states).lookup path = some src := by
            rw [lookup_setState, if_neg (Ne.symm hpath), hsrc]
          have hsource : Action.source? path (.alter path' param new) = none := if_neg hpath
          rw [List.filterMap_cons_none hsource, List.filterMap_nil, List.append_nil]
          rw [List.foldl_cons, List.foldl_cons, show track U path s (.alter path' param new) = s from if_neg hpath,
            show gainDc path r (.alter path' param new) = r from if_neg hpath]
          exact ih hrest hnodup' hlookup hs hrest'
    | analysis kind' levels' =>
      obtain ⟨_, _, hst⟩ := bind_eq_ok.mp hst
      cases hst
      have hsw (x : Switch) (hx : x ∈ switches states kind' levels') (hpath : x.path = path) :
          x.src = src ∧ x.before = prescribedType src kind' (sweepsDc levels' path) ∧ x.after = src.type := by
        obtain ⟨hlookup, hbefore, hafter⟩ := switch_spec hnodup hx
        rw [hpath, hsrc] at hlookup
        cases hlookup
        exact ⟨rfl, hpath ▸ hbefore, hafter⟩
      have hnot (f : Switch → SourceType) (a : Action)
          (ha : a ∈ (switches states kind' levels').map fun x => Action.source x.path (f x) x.src) :
          a.isAnalysis = false := by
        obtain ⟨x, _, rfl⟩ := List.mem_map.mp ha
        rfl
      have hbefore := hs.switches fun x hx hpath => ⟨(hsw x hx hpath).1, (hsw x hx hpath).2.1⟩
      have htype : (if ∃ x ∈ switches states kind' levels', x.path = path then
          prescribedType src kind' (sweepsDc levels' path) else src.type) =
            prescribedType src kind' (sweepsDc levels' path) := by
        split_ifs with hex
        · rfl
        · exact (prescribedType_of_no_switch hsrc hex).symm
      rw [htype] at hbefore
      rw [List.append_assoc] at hactions
      obtain ⟨pre, rfl, hmid⟩ := append_eq_split (hnot Switch.before) hactions
      rw [List.foldl_append, List.foldl_append, List.filterMap_append, ← List.append_assoc]
      cases pre with
      | nil =>
        -- this analysis
        cases hmid
        rw [List.filterMap_nil, List.append_nil]
        exact ⟨src, hsrc, hbefore⟩
      | cons a pre =>
        obtain ⟨rfl, htail⟩ := List.cons.inj hmid
        obtain ⟨pre, rfl, hrest'⟩ := append_eq_split (hnot Switch.after) htail
        have hafter := hbefore.switches fun x hx hpath => ⟨(hsw x hx hpath).1, (hsw x hx hpath).2.2⟩
        have htype' : (if ∃ x ∈ switches states kind' levels', x.path = path then src.type else
            prescribedType src kind' (sweepsDc levels' path)) = src.type := by
          split_ifs with hex
          · rfl
          · exact prescribedType_of_no_switch hsrc hex
        rw [htype'] at hafter
        have hfinal := ih hrest hnodup hsrc hafter hrest'
        rw [List.foldl_cons, List.foldl_append, List.foldl_cons, List.foldl_append]
        rw [List.filterMap_cons_none (rfl : Action.source? path (.analysis kind' levels' states) = none),
          List.filterMap_append, ← List.append_assoc]
        exact hfinal

/-- The paths of the source states never change. -/
theorem plan_paths {states : SourceStates} {sts : List Statement} {actions : List Action}
    (h : planFrom U M holds swap tranStops netlist hooked states sts = .ok actions) {kind : Kind}
    {levels : List Level} {states' : SourceStates} (hmem : .analysis kind levels states' ∈ actions) :
    states'.map Prod.fst = states.map Prod.fst := by
  induction sts generalizing states actions with
  | nil =>
    cases h
    cases hmem
  | cons st sts ih =>
    obtain ⟨next, acts, rest, hst, hrest, rfl⟩ := planFrom_cons h
    cases st with
    | alter path param value =>
      cases hcur : states.lookup path with
      | none =>
        rw [planStatement, hcur] at hst
        cases hst
      | some cur =>
        rw [planStatement, hcur] at hst
        obtain ⟨new, _, hst⟩ := bind_eq_ok.mp hst
        obtain ⟨_, _, hst⟩ := bind_eq_ok.mp hst
        cases hst
        have hrest' : .analysis kind levels states' ∈ rest := by simpa using hmem
        rw [ih hrest hrest', keys_setState]
    | analysis kind' levels' =>
      obtain ⟨_, _, hst⟩ := bind_eq_ok.mp hst
      cases hst
      have hmem' : (kind = kind' ∧ levels = levels' ∧ states' = states) ∨ .analysis kind levels states' ∈ rest := by
        simpa using hmem
      rcases hmem' with ⟨-, -, rfl⟩ | hrest'
      · rfl
      · exact ih hrest hrest'

end Runs

/-! ## The replay of the control block -/

section Replay

variable (U : UnicodeData)

/-- An instance has the type, the constants and the bindings that the plan's state of its source prescribes. -/
structure Prescribed (kind : Kind) (levels : List Level) (path : Str) (base src : Source) (live : Live) : Prop where
  type : live.type = prescribedType src kind (sweepsDc levels path)
  constants : ∀ key item, src.Prints key item → item.reads U = false →
    live.param key = .set item ∨ live.param key = .line item
  bindings : ∀ key item, src.Prints key item → item.reads U = true →
    ∃ item', base.Prints key item' ∧ live.param key = .line item'

/-- In no analysis a field reads something that an earlier statement about the source printed as a constant. -/
def Stays (actions : List Action) : Prop :=
  ∀ pre post kind levels states, actions = pre ++ .analysis kind levels states :: post →
    ∀ path src, states.lookup path = some src → ∀ earlier ∈ pre.filterMap (Action.source? path),
      ∀ key item const, src.Prints key item → item.reads U = true → earlier.Prints key const →
        const.reads U = true

/-- In no analysis a source has a dc that it got by alters of other fields since its waveform's type was printed. -/
def KeepsDc (actions : List Action) : Prop :=
  ∀ pre post kind levels states, actions = pre ++ .analysis kind levels states :: post →
    ∀ path src, states.lookup path = some src → (pre.foldl (gainDc path) (none, false)).2 = false

variable {U} {M : Libm} {holds : Expr → Expr → Bool} {swap : List (Expr × Expr) → Expr → Expr}
  {tranStops : List Float} {hooked : Str → Str → Bool}

theorem Tracks.prescribed_iff {base src : Source} {printed : List Source} {kind : Kind} {levels : List Level}
    {path : Str} {s : Option SourceType × Live} {r : Option Source × Bool}
    (h : Tracks U base src printed (prescribedType src kind (sweepsDc levels path)) s r) :
    Prescribed U kind levels path base src s.2 ↔ (∀ earlier ∈ printed, ∀ key item const, src.Prints key item →
      item.reads U = true → earlier.Prints key const → const.reads U = true) ∧ r.2 = false := by
  constructor
  · intro hp
    refine ⟨?_, ?_⟩
    · intro earlier hearlier key item const hprints hreads hconst
      obtain ⟨item', _, hline⟩ := hp.bindings key item hprints hreads
      rw [h.param] at hline
      exact (foldl_setBy_line.mp hline).2 earlier hearlier const hconst
    · by_contra hgained
      obtain ⟨hne, hdc, -⟩ := h.gained (Bool.eq_true_of_not_eq_false hgained)
      exact hne (hp.type.trans hdc)
  · rintro ⟨hstays, hgained⟩
    refine ⟨h.type hgained, ?_, ?_⟩
    · intro key item hprints hreads
      rw [h.param]
      rcases h.source with ⟨rfl, rfl, -⟩ | ⟨hlast, -⟩
      · exact .inr (lineParam_eq.mpr hprints)
      · exact .inl (paramAfter_set hlast hprints hreads)
    · intro key item hprints hreads
      obtain ⟨item', hbase⟩ := h.bound key item hprints hreads
      refine ⟨item', hbase, ?_⟩
      rw [h.param]
      exact foldl_setBy_line.mpr ⟨lineParam_eq.mpr hbase, fun earlier hearlier const hconst =>
        hstays earlier hearlier key item const hprints hreads hconst⟩

/-! ### A dc that other fields bring -/

/-- The last source that was printed for a path is that of the states, and no dc was gained. -/
def Kept (states : SourceStates) (path : Str) (r : Option Source × Bool) : Prop :=
  r.2 = false ∧ ∀ src ∈ r.1, states.lookup path = some src

theorem Kept.switches {states : SourceStates} {path : Str} {sw : List Switch}
    (hsw : ∀ x ∈ sw, states.lookup x.path = some x.src) (f : Switch → SourceType) {r : Option Source × Bool}
    (h : Kept states path r) :
    Kept states path ((sw.map fun x => Action.source x.path (f x) x.src).foldl (gainDc path) r) := by
  induction sw generalizing r with
  | nil => exact h
  | cons x sw ih =>
    rw [List.map_cons, List.foldl_cons]
    apply ih fun y hy => hsw y (List.mem_cons_of_mem x hy)
    by_cases hx : x.path = path
    · subst hx
      rw [gainDc_source]
      refine ⟨rfl, fun src hsrc => ?_⟩
      cases hsrc
      exact hsw x List.mem_cons_self
    · rwa [show gainDc path r (.source x.path (f x) x.src) = r from if_neg hx]

theorem Kept.alter {states : SourceStates} {path path' param : Str} {value : Setting} {cur new : Source}
    {r : Option Source × Bool} (h : Kept states path r) (hcur : states.lookup path' = some cur)
    (hwf : WellFormed cur) (hnew : alterSource U M tranStops cur param value = .ok new) :
    Kept (setState path' new states) path (gainDc path r (.alter path' param new)) := by
  unfold Kept
  rw [lookup_setState]
  by_cases hpath : path' = path
  · subst hpath
    rw [gainDc_alter, if_pos rfl, hcur, h.1, Bool.false_or]
    refine ⟨?_, fun src hsrc => hsrc⟩
    by_contra hgained
    have hgained := Bool.eq_true_of_not_eq_false hgained
    simp only [Bool.and_eq_true, decide_eq_true_eq] at hgained
    obtain ⟨⟨⟨hwave, hgiven⟩, hparam⟩, hany⟩ := hgained
    -- the source printed last is the one that the alter finds
    obtain ⟨last, hlast, hderived⟩ := (Option.any_eq_true _ _).mp hany
    cases hcur.symm.trans (h.2 last hlast)
    rw [alterSource_derived hnew hwf hparam hwave hgiven] at hderived
    cases hderived
  · rw [show gainDc path r (.alter path' param new) = r from if_neg hpath, if_neg (Ne.symm hpath)]
    exact h

theorem planFrom_keepsDc {netlist states : SourceStates} (hnodup : (states.map Prod.fst).Nodup)
    (hwf : ∀ path src, states.lookup path = some src → WellFormed src) {statements : List Statement}
    (hsts : ∀ st ∈ statements, st.SetsDc) {actions : List Action}
    (h : planFrom U M holds swap tranStops netlist hooked states statements = .ok actions) {path : Str}
    {r : Option Source × Bool} (hkept : Kept states path r) {pre post : List Action} {kind : Kind}
    {levels : List Level} {states' : SourceStates}
    (hactions : actions = pre ++ .analysis kind levels states' :: post) :
    (pre.foldl (gainDc path) r).2 = false := by
  induction statements generalizing states r pre actions with
  | nil =>
    cases h
    cases pre <;> cases hactions
  | cons st statements ih =>
    obtain ⟨next, acts, rest, hst, hrest, rfl⟩ := planFrom_cons h
    have hsts' := fun st' hst' => hsts st' (List.mem_cons_of_mem st hst')
    cases st with
    | alter path' param value =>
      cases hcur : states.lookup path' with
      | none =>
        rw [planStatement, hcur] at hst
        cases hst
      | some cur =>
        rw [planStatement, hcur] at hst
        obtain ⟨new, hnew, hst⟩ := bind_eq_ok.mp hst
        obtain ⟨_, _, hst⟩ := bind_eq_ok.mp hst
        cases hst
        obtain ⟨pre, rfl, hrest'⟩ := append_eq_split (by simp [Action.isAnalysis]) hactions
        rw [List.foldl_append]
        refine ih ?_ ?_ hsts' hrest (hkept.alter hcur (hwf path' cur hcur) hnew) hrest'
        · rw [keys_setState]
          exact hnodup
        · intro q src hsrc
          rw [lookup_setState, hcur] at hsrc
          split_ifs at hsrc with hq
          · cases hsrc
            exact alterSource_wellFormed hnew (hwf path' cur hcur) (hsts _ List.mem_cons_self)
          · exact hwf q src hsrc
    | analysis kind' levels' =>
      obtain ⟨_, _, hst⟩ := bind_eq_ok.mp hst
      cases hst
      have hsw (x : Switch) (hx : x ∈ switches states kind' levels') : states.lookup x.path = some x.src :=
        (switch_spec hnodup hx).1
      have hnot (f : Switch → SourceType) (a : Action)
          (ha : a ∈ (switches states kind' levels').map fun x => Action.source x.path (f x) x.src) :
          a.isAnalysis = false := by
        obtain ⟨x, _, rfl⟩ := List.mem_map.mp ha
        rfl
      have hbefore := hkept.switches hsw Switch.before
      rw [List.append_assoc] at hactions
      obtain ⟨pre, rfl, hmid⟩ := append_eq_split (hnot Switch.before) hactions
      rw [List.foldl_append]
      cases pre with
      | nil => exact hbefore.1
      | cons a pre =>
        obtain ⟨rfl, htail⟩ := List.cons.inj hmid
        obtain ⟨pre, rfl, hrest'⟩ := append_eq_split (hnot Switch.after) htail
        rw [List.foldl_cons, List.foldl_append]
        exact ih hnodup hwf hsts' hrest (hbefore.switches hsw Switch.after) hrest'

/-- A dc is gained in a run only when an empty vector is written or set for one. -/
theorem keepsDc_of_setsDc {lines : List (Str × Params)} {netlist : SourceStates}
    (hparse : parseSources U M tranStops lines = .ok netlist) (hpaths : (lines.map Prod.fst).Nodup)
    (hdc : ∀ line ∈ lines, line.2.lookup (str "dc") ≠ some (.vector [])) {statements : List Statement}
    (hsts : ∀ st ∈ statements, st.SetsDc) {actions : List Action}
    (hplan : plan U M holds swap tranStops netlist hooked statements = .ok actions) : KeepsDc actions := by
  obtain ⟨hkeys, hlookup⟩ := mapM_pairs hparse
  have hwf (path : Str) (src : Source) (hsrc : netlist.lookup path = some src) : WellFormed src := by
    have hpath : path ∈ lines.map Prod.fst := hkeys ▸ List.mem_map_of_mem (mem_of_lookup hsrc)
    obtain ⟨line, hline, rfl⟩ := List.mem_map.mp hpath
    obtain ⟨src', hsrc', hlookup'⟩ := hlookup line.1 line.2 (lookup_of_mem hpaths hline)
    cases hsrc.symm.trans hlookup'
    exact sourceInstance_wellFormed hsrc' (hdc line hline)
  intro pre post kind levels states hactions path src _
  exact planFrom_keepsDc (hkeys ▸ hpaths) hwf hsts hplan ⟨rfl, fun _ hlast => by cases hlast⟩ hactions

/-! ### The replay of a run -/

theorem instanceLine_eq {base : Source} {p : Printed} (h : instanceLine base = .ok p) :
    (Live.ofLine p).type = base.type ∧ (Live.ofLine p).param = base.lineParam := by
  unfold instanceLine at h
  cases hfields : base.fields with
  | error e =>
    rw [hfields] at h
    cases h
  | ok fields =>
    rw [hfields] at h
    cases h
    refine ⟨rfl, ?_⟩
    funext key
    unfold Source.lineParam
    rw [hfields]
    rfl

theorem Tracks.initial {base : Source} {p : Printed} (h : instanceLine base = .ok p) :
    Tracks U base base [] base.type (none, Live.ofLine p) (none, false) := by
  obtain ⟨htype, hparam⟩ := instanceLine_eq h
  exact ⟨.inl ⟨rfl, rfl, rfl, rfl⟩, fun key item hprints _ => ⟨item, hprints⟩, hparam, fun _ => htype,
    fun hgained => nomatch hgained⟩

/-- The control block replays the source states when no constant stays where a field reads something and no source
    gets a dc by another field, and only then. -/
theorem control_replays_iff {netlist : SourceStates} (hpaths : (netlist.map Prod.fst).Nodup)
    {hooked' : Str → Str → Bool} {statements : List Statement} {actions : List Action}
    (hplan : plan U M holds swap tranStops netlist hooked statements = .ok actions)
    {deck : List (Str × Printed) × List Line}
    (hrender : render U holds swap netlist hooked' actions = .ok deck) :
    (∀ pt ∈ replay deck, ∀ path base, netlist.lookup path = some base → ∃ src live,
      pt.states.lookup path = some src ∧ pt.lives path = some live ∧
        Prescribed U pt.kind pt.levels path base src live) ↔ Stays U actions ∧ KeepsDc actions := by
  obtain ⟨instances, hinstances, hrender⟩ := bind_eq_ok.mp hrender
  obtain ⟨lines, hlines, hrender⟩ := bind_eq_ok.mp hrender
  cases hrender
  obtain ⟨-, hinstance⟩ := mapM_pairs hinstances
  -- an instance at an analysis of the plan
  have hanalysis {pre post : List Action} {kind : Kind} {levels : List Level} {states : SourceStates}
      (hactions : actions = pre ++ .analysis kind levels states :: post) {path : Str} {base : Source}
      (hbase : netlist.lookup path = some base) : ∃ src p, states.lookup path = some src ∧
        instances.lookup path = some p ∧
        Tracks U base src (pre.filterMap (Action.source? path)) (prescribedType src kind (sweepsDc levels path))
          (pre.foldl (track U path) (none, Live.ofLine p)) (pre.foldl (gainDc path) (none, false)) := by
    obtain ⟨p, hp, hlookup⟩ := hinstance path base hbase
    obtain ⟨src, hsrc, htracks⟩ := plan_tracks hplan hpaths hbase hbase (Tracks.initial hp) hactions
    exact ⟨src, p, hsrc, hlookup, htracks⟩
  constructor
  · intro hpoints
    have hprescribed {pre post : List Action} {kind : Kind} {levels : List Level} {states : SourceStates}
        (hactions : actions = pre ++ .analysis kind levels states :: post) {path : Str} {src : Source}
        (hsrc : states.lookup path = some src) : (∀ earlier ∈ pre.filterMap (Action.source? path),
          ∀ key item const, src.Prints key item → item.reads U = true → earlier.Prints key const →
            const.reads U = true) ∧ (pre.foldl (gainDc path) (none, false)).2 = false := by
      have hpath : path ∈ netlist.map Prod.fst := by
        rw [← plan_paths hplan (hactions ▸ List.mem_append_right pre List.mem_cons_self)]
        exact List.mem_map_of_mem (mem_of_lookup hsrc)
      obtain ⟨⟨_, base⟩, hmem, rfl⟩ := List.mem_map.mp hpath
      have hbase := lookup_of_mem hpaths hmem
      obtain ⟨src', p, hsrc', hlookup, htracks⟩ := hanalysis hactions hbase
      cases hsrc.symm.trans hsrc'
      have hpt : (⟨kind, levels, states, _⟩ : Point) ∈ replay (instances, lines) :=
        (mem_replayFrom_iff hlines _).mpr ⟨pre, post, hactions, rfl⟩
      obtain ⟨src', live, hsrc', hlive, hp⟩ := hpoints _ hpt _ _ hbase
      cases hsrc.symm.trans hsrc'
      dsimp only at hlive hp
      rw [hlookup] at hlive
      cases hlive
      exact htracks.prescribed_iff.mp hp
    exact ⟨fun pre post kind levels states hactions path src hsrc => (hprescribed hactions hsrc).1,
      fun pre post kind levels states hactions path src hsrc => (hprescribed hactions hsrc).2⟩
  · rintro ⟨hstays, hkeeps⟩ pt hpt path base hbase
    obtain ⟨pre, post, hactions, hlives⟩ := (mem_replayFrom_iff hlines _).mp hpt
    obtain ⟨src, p, hsrc, hlookup, htracks⟩ := hanalysis hactions hbase
    refine ⟨src, (pre.foldl (track U path) (none, Live.ofLine p)).2, hsrc, ?_, ?_⟩
    · rw [hlives]
      dsimp only
      rw [hlookup]
      rfl
    · exact htracks.prescribed_iff.mpr ⟨hstays pre post _ _ _ hactions path src hsrc,
        hkeeps pre post _ _ _ hactions path src hsrc⟩

/-! ### Runs of one source -/

/-- The expression is the other one or has it under its operator. -/
def underOperator (e o : Expr) : Bool :=
  sameExpr e o ||
    match e with
    | .binary _ l r => sameExpr l o || sameExpr r o
    | _ => false

/-- The netlist of one source, the actions of a run and the deck. -/
def runOf (params : Params) (statements : List Statement) :
    Option (SourceStates × List Action × List (Str × Printed) × List Line) := do
  let netlist ← (parseSources .small .small [1e-6] [(str "V1", params)]).toOption
  let actions ← (plan .small .small underOperator (fun _ e => e) [1e-6] netlist (fun _ _ => false)
    statements).toOption
  let deck ← (render .small underOperator (fun _ e => e) netlist (fun _ _ => false) actions).toOption
  return (netlist, actions, deck)

theorem toOption_eq_some {ε α : Type} {x : Except ε α} {a : α} : x.toOption = some a ↔ x = .ok a := by
  cases x with
  | error e => exact ⟨(nomatch ·), (nomatch ·)⟩
  | ok b => exact ⟨fun h => congrArg Except.ok (Option.some.inj h), fun h => congrArg some (Except.ok.inj h)⟩

theorem runOf_eq_some {params : Params} {statements : List Statement} {netlist : SourceStates}
    {actions : List Action} {deck : List (Str × Printed) × List Line}
    (h : runOf params statements = some (netlist, actions, deck)) :
    parseSources .small .small [1e-6] [(str "V1", params)] = .ok netlist ∧
      plan .small .small underOperator (fun _ e => e) [1e-6] netlist (fun _ _ => false) statements = .ok actions ∧
      render .small underOperator (fun _ e => e) netlist (fun _ _ => false) actions = .ok deck := by
  unfold runOf at h
  simp only [Option.bind_eq_bind, Option.bind_eq_some_iff] at h
  obtain ⟨_, hparse, _, hplan, _, hrender, h⟩ := h
  cases h
  exact ⟨toOption_eq_some.mp hparse, toOption_eq_some.mp hplan, toOption_eq_some.mp hrender⟩

/-- `V1 vsource type=sine dc=1 ampl=1 freq=1k` -/
def sineParams : Params :=
  [(str "type", .one (.str (str "sine"))), (str "dc", .one (.num 1)), (str "ampl", .one (.num 1)),
    (str "freq", .one (.num 1000))]

/-- A tran, another dc and an op. -/
def tranAndOp : List Statement :=
  [.analysis .tran [], .alter (str "V1") (str "dc") (.number 2), .analysis .op []]

/-- Whether no field of a source in an analysis reads anything. -/
def readsNothing : Action → Bool
  | .analysis _ _ states => states.all fun s =>
    match s.2.fields with
    | .ok fields => fields.all fun i => !i.2.reads .small
    | .error _ => true
  | _ => true

theorem stays_of_readsNothing {actions : List Action} (h : actions.all readsNothing = true) :
    Stays .small actions := by
  intro pre post kind levels states hactions path src hsrc earlier _ key item const hprints hreads _
  obtain ⟨fields, hfields, hlookup⟩ := hprints
  have hstates := List.all_eq_true.mp h (.analysis kind levels states)
    (hactions ▸ List.mem_append_right pre List.mem_cons_self)
  have hnot := List.all_eq_true.mp hstates _ (mem_of_lookup hsrc)
  rw [hfields] at hnot
  have hitem := List.all_eq_true.mp hnot _ (mem_of_lookup hlookup)
  rw [hreads] at hitem
  cases hitem

/-- The sine with a dc in a tran and in an op. -/
theorem sine_replays :
    ∃ netlist actions deck,
      parseSources .small .small [1e-6] [(str "V1", sineParams)] = .ok netlist ∧
      plan .small .small underOperator (fun _ e => e) [1e-6] netlist (fun _ _ => false) tranAndOp = .ok actions ∧
      render .small underOperator (fun _ e => e) netlist (fun _ _ => false) actions = .ok deck ∧
      (replay deck).length = 2 ∧
      ∀ pt ∈ replay deck, ∀ path base, netlist.lookup path = some base → ∃ src live,
        pt.states.lookup path = some src ∧ pt.lives path = some live ∧
          Prescribed .small pt.kind pt.levels path base src live := by
  have hrun : ((runOf sineParams tranAndOp).any fun run =>
      run.1.map Prod.fst == [str "V1"] && (replay run.2.2).length == 2 && run.2.1.all readsNothing) = true := by
    decide +kernel
  obtain ⟨⟨netlist, actions, deck⟩, hsome, hcheck⟩ := (Option.any_eq_true _ _).mp hrun
  obtain ⟨hparse, hplan, hrender⟩ := runOf_eq_some hsome
  simp only [Bool.and_eq_true, beq_iff_eq] at hcheck
  obtain ⟨⟨hpaths, hlength⟩, hreads⟩ := hcheck
  have hnodup : (netlist.map Prod.fst).Nodup := hpaths ▸ List.nodup_singleton _
  have hsts : ∀ st ∈ tranAndOp, st.SetsDc := by
    simp [tranAndOp, Statement.SetsDc, Setting.value]
  have hkeeps := keepsDc_of_setsDc hparse (List.nodup_singleton _)
    (List.forall_mem_singleton.mpr fun h => by cases Option.some.inj h)
    hsts hplan
  exact ⟨netlist, actions, deck, hparse, hplan, hrender, hlength,
    (control_replays_iff hnodup hplan hrender).mpr ⟨stays_of_readsNothing hreads, hkeeps⟩⟩

/-- `V1 vsource type=exp val0=0 val1=1 td1=tt tau1=1n td2=5n tau2=1n` -/
def expParams : Params :=
  [(str "type", .one (.str (str "exp"))), (str "val0", .one (.num 0)), (str "val1", .one (.num 1)),
    (str "td1", .one (.name (str "tt"))), (str "tau1", .one (.num 1e-9)), (str "td2", .one (.num 5e-9)),
    (str "tau2", .one (.num 1e-9))]

/-- V1 becomes a pulse and an exp again; then comes a tran. -/
def pulseAndBack : List Statement :=
  [.alter (str "V1") (str "type") (.word (str "pulse")), .alter (str "V1") (str "type") (.word (str "exp")),
    .analysis .tran []]

/-- Whether the instance at an analysis holds a constant where its source reads something. -/
def delaySet (pt : Point) : Bool :=
  match pt.states.lookup (str "V1"), pt.lives (str "V1") with
  | some src, some live =>
    (match src.fields with
      | .ok fields => (fields.lookup .delay).any (Item.reads .small)
      | .error _ => false) &&
    match live.param .delay with
    | .set _ => true
    | _ => false
  | _, _ => false

/-- The tran runs with the pulse's delay of 0 in place of `td1`. -/
theorem exp_loses_delay :
    ∃ netlist actions deck,
      parseSources .small .small [1e-6] [(str "V1", expParams)] = .ok netlist ∧
      plan .small .small underOperator (fun _ e => e) [1e-6] netlist (fun _ _ => false) pulseAndBack = .ok actions ∧
      render .small underOperator (fun _ e => e) netlist (fun _ _ => false) actions = .ok deck ∧
      ¬∀ pt ∈ replay deck, ∀ path base, netlist.lookup path = some base → ∃ src live,
        pt.states.lookup path = some src ∧ pt.lives path = some live ∧
          Prescribed .small pt.kind pt.levels path base src live := by
  have hrun : ((runOf expParams pulseAndBack).any fun run =>
      (run.1.lookup (str "V1")).isSome && (replay run.2.2).any delaySet) = true := by decide +kernel
  obtain ⟨⟨netlist, actions, deck⟩, hsome, hcheck⟩ := (Option.any_eq_true _ _).mp hrun
  obtain ⟨hparse, hplan, hrender⟩ := runOf_eq_some hsome
  refine ⟨netlist, actions, deck, hparse, hplan, hrender, fun hpoints => ?_⟩
  obtain ⟨hbase, hany⟩ := Bool.and_eq_true_iff.mp hcheck
  obtain ⟨base, hbase⟩ := Option.isSome_iff_exists.mp hbase
  obtain ⟨pt, hpt, hset⟩ := List.any_eq_true.mp hany
  obtain ⟨src, live, hsrc, hlive, hp⟩ := hpoints pt hpt (str "V1") base hbase
  unfold delaySet at hset
  rw [hsrc, hlive] at hset
  obtain ⟨hreads, hset⟩ := Bool.and_eq_true_iff.mp hset
  cases hfields : src.fields with
  | error e =>
    rw [hfields] at hreads
    cases hreads
  | ok fields =>
    rw [hfields] at hreads
    obtain ⟨item, hitem, hreads⟩ := (Option.any_eq_true _ _).mp hreads
    obtain ⟨item', -, hline⟩ := hp.bindings .delay item ⟨fields, hfields, hitem⟩ hreads
    rw [hline] at hset
    cases hset

end Replay


end Vamos.Netlist.Sources
