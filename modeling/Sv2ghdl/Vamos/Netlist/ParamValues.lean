import Sv2ghdl.Vamos.Netlist.FoldErrors
import Sv2ghdl.Vamos.Netlist.ParamOrder

/-!
# Parameters of both languages

`evaluate_top` of `vamos/netlist/spice.py` beside the `parameters_pass` of `vamos/netlist/spectre.py`, and when the list
and the values of the parameters are right.
-/

open Python Equations Loops Relation

namespace Vamos.Netlist.Expression

variable (U : UnicodeData) (M : Libm)

/-! ## Expressions that are parsed -/

mutual

/-- Every operator has a level: the lexers of both languages read `^` as `**`. -/
def Spelled : Expr → Prop
  | .num _ | .name _ | .str _ => True
  | .call _ args => SpelledArgs args
  | .unary _ arg => Spelled arg
  | .binary op left right => op ≠ .caret ∧ Spelled left ∧ Spelled right
  | .ternary cond a b => Spelled cond ∧ Spelled a ∧ Spelled b

def SpelledArgs : List Expr → Prop
  | [] => True
  | arg :: args => Spelled arg ∧ SpelledArgs args

end

mutual

theorem text_of_spelled {e : Expr} (h : Spelled e) (need : Nat) : ∃ s, text hspiceLevels e need = some s := by
  cases e with
  | num x => exact ⟨_, rfl⟩
  | name n => exact ⟨_, rfl⟩
  | str s => exact ⟨_, rfl⟩
  | call func args =>
    rw [Spelled] at h
    obtain ⟨ss, hss⟩ := texts_of_spelled h
    have hspectre : ¬ (hspiceLevels.spectre = true ∧ func = str "cpow") := fun hs => Bool.false_ne_true hs.1
    refine ⟨func ++ ('(' : CodePoint) :: commaJoin ss ++ [(')' : CodePoint)], ?_⟩
    rw [text.eq_def]
    simp only [if_neg hspectre, hss]
    rfl
  | unary op arg =>
    rw [Spelled] at h
    obtain ⟨s, hs⟩ := text_of_spelled h (hspiceLevels.unary + 1)
    exact ⟨_, by rw [text, hs]; rfl⟩
  | binary op left right =>
    rw [Spelled] at h
    obtain ⟨p, hp⟩ := hspiceLevels_binary h.1
    by_cases hpow : op = .power
    · obtain ⟨sl, hl⟩ := text_of_spelled h.2.1 (p + 1)
      obtain ⟨sr, hr⟩ := text_of_spelled h.2.2 hspiceLevels.unary
      have hspectre : ¬ hspiceLevels.spectre = true := Bool.false_ne_true
      refine ⟨wrap p need (sl ++ str "**" ++ sr), ?_⟩
      rw [text, hp]
      simp only [if_pos hpow, if_neg hspectre, Option.bind_eq_bind, Option.bind_some, hl, hr]
      rfl
    · obtain ⟨sl, hl⟩ := text_of_spelled h.2.1 p
      obtain ⟨sr, hr⟩ := text_of_spelled h.2.2 (p + 1)
      refine ⟨wrap p need (sl ++ (' ' : CodePoint) :: op.text ++ (' ' : CodePoint) :: sr), ?_⟩
      rw [text, hp]
      simp only [if_neg hpow, Option.bind_eq_bind, Option.bind_some, hl, hr]
      rfl
  | ternary cond a b =>
    rw [Spelled] at h
    obtain ⟨sc, hc⟩ := text_of_spelled h.1 (hspiceLevels.ternary + 1)
    obtain ⟨sa, ha⟩ := text_of_spelled h.2.1 0
    obtain ⟨sb, hb⟩ := text_of_spelled h.2.2 hspiceLevels.ternary
    exact ⟨_, by rw [text, hc, Option.bind_eq_bind, Option.bind_some, ha, Option.bind_some, hb]; rfl⟩

theorem texts_of_spelled {args : List Expr} (h : SpelledArgs args) : ∃ ss, texts hspiceLevels args = some ss := by
  cases args with
  | nil => exact ⟨[], rfl⟩
  | cons arg args =>
    rw [SpelledArgs] at h
    obtain ⟨s, hs⟩ := text_of_spelled h.1 0
    obtain ⟨ss, hss⟩ := texts_of_spelled h.2
    exact ⟨s :: ss, by rw [texts, hs, hss]; rfl⟩

end

variable {U} {M}

mutual

/-- Each error of an expression that is parsed has its message. -/
theorem ev_spelled {e : Expr} (h : Spelled e) (spectre : Bool) (scope : Str → Option Float) :
    NoKeyError (ev U M spectre scope e) := by
  obtain ⟨s, hs⟩ := text_of_spelled h 0
  refine NoKeyError.finite hs ?_
  cases e with
  | num x => exact .ok x
  | name n =>
    rw [raw]
    split
    · exact fun hkey => by cases hkey
    · split
      · exact fun hkey => by cases hkey
      · exact .ok _
  | str t => exact NoKeyError.quoted hs (.error .notANumber)
  | call func args =>
    rw [Spelled] at h
    rw [raw]
    split
    · exact NoKeyError.quoted hs (.error .needsSolution)
    · exact NoKeyError.evCall M hs (evArgs_spelled h spectre scope)
  | unary op arg =>
    rw [Spelled] at h
    exact NoKeyError.bind (ev_spelled h spectre scope) fun x => NoKeyError.quoted hs _
  | binary op left right =>
    rw [Spelled] at h
    exact NoKeyError.evBinary M hs (ev_spelled h.2.1 spectre scope) (ev_spelled h.2.2 spectre scope)
  | ternary cond a b =>
    rw [Spelled] at h
    refine NoKeyError.bind (ev_spelled h.1 spectre scope) fun x => ?_
    split_ifs
    · exact ev_spelled h.2.1 spectre scope
    · exact ev_spelled h.2.2 spectre scope

theorem evArgs_spelled {args : List Expr} (h : SpelledArgs args) (spectre : Bool) (scope : Str → Option Float) :
    ∀ r ∈ evArgs U M spectre scope args, NoKeyError r := by
  cases args with
  | nil => exact fun r hr => absurd hr List.not_mem_nil
  | cons arg args =>
    rw [SpelledArgs] at h
    rw [evArgs]
    exact List.forall_mem_cons.mpr ⟨ev_spelled h.1 spectre scope, evArgs_spelled h.2 spectre scope⟩

end

/-! ## The pass of each language -/

variable (U M)

/-- One parameter of `evaluate_top`; `top` are the names of all. -/
def topStep (top : List Str) (s : ParamPass) (p : Param) : Except Raised ParamPass :=
  let used := names U p.expr
  if used.any (· ∉ top) then
    .ok { s with
      errors := s.errors ++ [.undefined p.name (used.filter (· ∉ top))]
      symbolic := p.name :: s.symbolic }
  else if used.any (· ∈ s.symbolic) || (nameNodes U p.expr).any (· = temper) then
    .ok { s with symbolic := p.name :: s.symbolic }
  else if isStr p.expr then
    .ok { s with symbolic := p.name :: s.symbolic }
  else
    match evaluate U M p.expr s.values .hspice with
    | .ok x => .ok { s with values := Function.update s.values p.name (some x) }
    | .error (.evalError exc) =>
      .ok { s with
        errors := s.errors ++ [.noValue p.name exc]
        symbolic := p.name :: s.symbolic }
    | .error .keyError => .error .keyError

/-- `evaluate_top`, over the sorted parameters -/
def evaluateTop (sorted : List Param) (errors : List ParamError) : Except Raised ParamPass :=
  sorted.foldlM (topStep U M (sorted.map Param.name)) ⟨fun _ => none, [], errors⟩

/-- The two netlist languages. -/
inductive Language where
  | spectre | spice
  deriving DecidableEq, Repr

def Language.dialect : Language → Dialect
  | .spectre => .spectre
  | .spice => .hspice

/-- The names of the temperatures. -/
def Language.temperatures : Language → List Str
  | .spectre => [temper, tnomName]
  | .spice => [temper]

def Language.sort : Language → List Param → List Param × List ParamError
  | .spectre, decls => sortParams U decls
  | .spice, decls => dedupSort U decls

def Language.pass : Language → List Param → Except Raised ParamPass
  | .spectre, decls => parametersPass U M (sortParams U decls).1 (sortParams U decls).2
  | .spice, decls => evaluateTop U M (dedupSort U decls).1 (dedupSort U decls).2

/-- What the parser builds: Spectre's refuses `time` and `hertz`. -/
def Language.Parsed (L : Language) (e : Expr) : Prop :=
  Spelled e ∧ (L = .spectre → str "time" ∉ nameNodes U e ∧ str "hertz" ∉ nameNodes U e)

def Language.step : Language → List Str → ParamPass → Param → Except Raised ParamPass
  | .spectre => parameterStep U M
  | .spice => topStep U M

variable {U M}

theorem Language.pass_eq (L : Language) (decls : List Param) : L.pass U M decls =
    (L.sort U decls).1.foldlM (L.step U M ((L.sort U decls).1.map Param.name))
      ⟨fun _ => none, [], (L.sort U decls).2⟩ := by
  cases L <;> rfl

variable (U) in
/-- A step evaluates the parameter. -/
def Language.Open (L : Language) (top : List Str) (s : ParamPass) (p : Param) : Prop :=
  (∀ n ∈ names U p.expr, n ∈ top ∧ n ∉ s.symbolic) ∧ isStr p.expr = false ∧
    ∀ n ∈ nameNodes U p.expr, n ∉ L.temperatures

variable (U M) in
/-- A step gives a parameter this value. -/
def Language.Binds (L : Language) (top : List Str) (s : ParamPass) (p : Param) (x : Float) : Prop :=
  L.Open U top s p ∧ evaluate U M p.expr s.values L.dialect = .ok x

theorem Language.Parsed.reserved_iff {e : Expr} (h : Language.spectre.Parsed U e) :
    (nameNodes U e).any (· ∈ reserved) = false ↔ ∀ n ∈ nameNodes U e, n ∉ Language.spectre.temperatures := by
  rw [List.any_eq_false]
  refine forall₂_congr fun n hn => ?_
  have htime : n ≠ str "time" := fun heq => (h.2 rfl).1 (heq ▸ hn)
  have hhertz : n ≠ str "hertz" := fun heq => (h.2 rfl).2 (heq ▸ hn)
  simp [reserved, Language.temperatures, temper, tnomName, htime, hhertz]

theorem readsTemper_iff {e : Expr} :
    (nameNodes U e).any (· = temper) = false ↔ ∀ n ∈ nameNodes U e, n ∉ Language.spice.temperatures := by
  simp [Language.temperatures]

theorem Language.step_closed {L : Language} {p : Param} (hp : L.Parsed U p.expr) {top : List Str} {s : ParamPass}
    (h : ¬ L.Open U top s p) : ∃ s', L.step U M top s p = .ok s' ∧ s'.values = s.values ∧
      s'.symbolic = p.name :: s.symbolic := by
  by_cases hundefined : (names U p.expr).any (· ∉ top) = true
  · refine ⟨{ s with
      errors := s.errors ++ [.undefined p.name ((names U p.expr).filter (· ∉ top))]
      symbolic := p.name :: s.symbolic }, ?_, rfl, rfl⟩
    cases L with
    | spectre => exact if_pos hundefined
    | spice => exact if_pos hundefined
  · have htop : ∀ n ∈ names U p.expr, n ∈ top := by simpa using hundefined
    have hwhy : (names U p.expr).any (· ∈ s.symbolic) = true ∨ isStr p.expr = true ∨
        ¬ ∀ n ∈ nameNodes U p.expr, n ∉ L.temperatures := by
      by_contra hno
      push Not at hno
      refine h ⟨fun n hn => ⟨htop n hn, fun hmem => hno.1 ?_⟩, by simpa using hno.2.1, hno.2.2⟩
      exact List.any_eq_true.mpr ⟨n, hn, decide_eq_true hmem⟩
    cases L with
    | spectre =>
      refine ⟨{ s with symbolic := p.name :: s.symbolic }, ?_, rfl, rfl⟩
      rw [Language.step, parameterStep]
      rw [if_neg hundefined, if_pos]
      rw [← hp.reserved_iff] at hwhy
      simpa [or_assoc] using hwhy
    | spice =>
      refine ⟨{ s with symbolic := p.name :: s.symbolic }, ?_, rfl, rfl⟩
      rw [Language.step, topStep]
      rw [if_neg hundefined]
      rw [← readsTemper_iff, Bool.not_eq_false] at hwhy
      by_cases hsym : ((names U p.expr).any (· ∈ s.symbolic) || (nameNodes U p.expr).any (· = temper)) = true
      · rw [if_pos hsym]
      · rw [if_neg hsym, if_pos]
        rw [Bool.or_eq_true, not_or] at hsym
        exact (hwhy.resolve_left hsym.1).resolve_right hsym.2

theorem Language.step_open {L : Language} {p : Param} (hp : L.Parsed U p.expr) {top : List Str} {s : ParamPass}
    (h : L.Open U top s p) : L.step U M top s p =
      match evaluate U M p.expr s.values L.dialect with
      | .ok x => .ok { s with values := Function.update s.values p.name (some x) }
      | .error (.evalError exc) =>
        .ok { s with
          errors := s.errors ++ [.noValue p.name exc]
          symbolic := p.name :: s.symbolic }
      | .error .keyError => .error .keyError := by
  obtain ⟨hnames, hstr, htemp⟩ := h
  have hundefined : ¬ (names U p.expr).any (· ∉ top) = true := by
    simpa using fun n hn => (hnames n hn).1
  have hsym : (names U p.expr).any (· ∈ s.symbolic) = false := by
    simpa using fun n hn => (hnames n hn).2
  cases L with
  | spectre =>
    rw [Language.step, parameterStep]
    rw [if_neg hundefined, if_neg]
    · rfl
    · rw [hsym, hstr, hp.reserved_iff.mpr htemp]
      exact Bool.false_ne_true
  | spice =>
    rw [Language.step, topStep]
    rw [if_neg hundefined, if_neg, if_neg]
    · rfl
    · rw [hstr]
      exact Bool.false_ne_true
    · rw [hsym, readsTemper_iff.mpr htemp]
      exact Bool.false_ne_true

/-- What a step can do: it gives a value, or it notes that there is none. -/
theorem Language.step_cases {L : Language} {p : Param} (hp : L.Parsed U p.expr) (top : List Str) (s : ParamPass) :
    ∃ s', L.step U M top s p = .ok s' ∧
      ((∃ x, L.Binds U M top s p x ∧ s'.values = Function.update s.values p.name (some x) ∧
          s'.symbolic = s.symbolic) ∨
        ((∀ x, ¬ L.Binds U M top s p x) ∧ s'.values = s.values ∧ s'.symbolic = p.name :: s.symbolic)) := by
  by_cases hopen : L.Open U top s p
  · rw [Language.step_open hp hopen]
    cases heval : evaluate U M p.expr s.values L.dialect with
    | ok x => exact ⟨_, rfl, .inl ⟨x, ⟨hopen, heval⟩, rfl, rfl⟩⟩
    | error exc =>
      cases exc with
      | evalError e =>
        refine ⟨_, rfl, .inr ⟨fun x hx => ?_, rfl, rfl⟩⟩
        have hval := hx.2
        rw [heval] at hval
        cases hval
      | keyError => exact absurd heval (ev_spelled hp.1 L.dialect.isSpectre s.values)
  · obtain ⟨s', hs', hvalues, hsymbolic⟩ := Language.step_closed (M := M) hp hopen
    exact ⟨s', hs', .inr ⟨fun x hx => hopen hx.1, hvalues, hsymbolic⟩⟩

/-! ## What is to hold -/

variable (U M)

/-- The value of a name: its last definition and all it reads have one, and read no temperature. -/
inductive Valued (L : Language) (decls : List Param) : Str → Float → Prop where
  | intro {p : Param} {x : Float} (val : Str → Float) : LastDef decls p → isStr p.expr = false →
      (∀ n ∈ nameNodes U p.expr, n ∉ L.temperatures) → (∀ n ∈ names U p.expr, Valued L decls n (val n)) →
      evaluate U M p.expr (fun n => some (val n)) L.dialect = .ok x → Valued L decls p.name x

/-- The table has the names with a value, and it is the one solution of their equations. -/
structure Table (L : Language) (decls : List Param) (values : Env Str Float) : Prop where
  binds : ∀ n x, values n = some x ↔ Valued U M L decls n x
  solves : ∀ p x, LastDef decls p → values p.name = some x → evaluate U M p.expr values L.dialect = .ok x
  unique : ∀ env : Env Str Float, (∀ p x, LastDef decls p → values p.name = some x →
    ∃ y, evaluate U M p.expr env L.dialect = .ok y ∧ env p.name = some y) → ∀ n x, values n = some x → env n = some x

/-- The sort and the pass do what they are for. -/
structure Exact (L : Language) (decls : List Param) : Prop where
  once : ((L.sort U decls).1.map Param.name).Nodup
  last : ∀ p, p ∈ (L.sort U decls).1 ↔ LastDef decls p
  reported : (∃ c, .cycle c ∈ (L.sort U decls).2) ↔ ∃ c, Cycle U decls c
  named : ∀ c, .cycle c ∈ (L.sort U decls).2 → Cycle U decls c
  ordered : (¬ ∃ c, Cycle U decls c) → ∀ l₁ p l₂, (L.sort U decls).1 = l₁ ++ p :: l₂ →
    Available U decls l₁ p ∧ ∀ q, DefinedBefore decls q p → q ∉ l₁ → ¬ Available U decls l₁ q
  table : ∃ s, L.pass U M decls = .ok s ∧ Table U M L decls s.values

/-- The definition evaluates without a value of those that lead into a cycle, and reads none of those in a list. -/
def EvaluatesAlone (L : Language) (decls before : List Param) (p : Param) : Prop :=
  isStr p.expr = false ∧ (∀ n ∈ nameNodes U p.expr, n ∉ L.temperatures) ∧
    (∀ n ∈ names U p.expr, n ∈ decls.map Param.name ∧ n ∉ before.map Param.name) ∧
    ∃ (env : Env Str Float) (x : Float), (∀ n ∈ names U p.expr, (LeadsIntoCycle U decls n → env n = none) ∧
      (¬ LeadsIntoCycle U decls n → ∃ v, env n = some v ∧ Valued U M L decls n v)) ∧
      evaluate U M p.expr env L.dialect = .ok x

/-- Spectre's definitions that lead into a cycle are, in their order, just a cycle; and none evaluates without a value
    of the others, unless it reads one that comes before it. -/
def Settled (L : Language) (decls : List Param) : Prop :=
  (L = .spectre → entangled U decls = [] ∨ Cycle U decls ((entangled U decls).map Param.name)) ∧
    ∀ l₁ p l₂, entangled U decls = l₁ ++ p :: l₂ → ¬ EvaluatesAlone U M L decls l₁ p

/-! ## Values -/

variable {U M} {L : Language} {decls : List Param}

theorem Valued.lastDef {n : Str} {x : Float} (h : Valued U M L decls n x) : ∃ p, LastDef decls p ∧ p.name = n := by
  cases h with
  | intro val hp => exact ⟨_, hp, rfl⟩

/-- What a value says of the last definition of its name. -/
theorem Valued.of_lastDef {p : Param} {x : Float} (hp : LastDef decls p) (h : Valued U M L decls p.name x) :
    isStr p.expr = false ∧ (∀ n ∈ nameNodes U p.expr, n ∉ L.temperatures) ∧
      ∃ val : Str → Float, (∀ n ∈ names U p.expr, Valued U M L decls n (val n)) ∧
        evaluate U M p.expr (fun n => some (val n)) L.dialect = .ok x := by
  generalize hname : p.name = a at h
  cases h with
  | intro val hq hstr htemp hreads heval =>
    obtain rfl := hp.unique hq hname
    exact ⟨hstr, htemp, val, hreads, heval⟩

theorem Valued.unique {n : Str} {x y : Float} (hx : Valued U M L decls n x) (hy : Valued U M L decls n y) : x = y := by
  induction hx generalizing y with
  | @intro p x val hp hstr htemp hreads heval ih =>
    obtain ⟨-, -, val', hreads', heval'⟩ := Valued.of_lastDef hp hy
    have hsame : evaluate U M p.expr (fun n => some (val n)) L.dialect =
        evaluate U M p.expr (fun n => some (val' n)) L.dialect :=
      evaluate_congr U M L.dialect fun n hn => congrArg some (ih n hn (hreads' n hn))
    rw [heval, heval'] at hsame
    exact Except.ok.inj hsame

/-- A name of a cycle, or one that leads into it, reads another one. -/
theorem LeadsIntoCycle.reads {a : Str} (h : LeadsIntoCycle U decls a) :
    ∃ b, Reads U decls a b ∧ LeadsIntoCycle U decls b := by
  obtain ⟨c, hc, b, hb, hreach⟩ := h
  cases hreach using ReflTransGen.head_induction_on with
  | refl =>
    obtain ⟨d, hd, hread⟩ := hc.next hb
    exact ⟨d, hread, c, hc, d, hd, .refl⟩
  | head hread hrest => exact ⟨_, hread, c, hc, b, hb, hrest⟩

theorem Valued.not_leads {n : Str} {x : Float} (h : Valued U M L decls n x) : ¬ LeadsIntoCycle U decls n := by
  induction h with
  | intro val hp _ _ _ _ ih =>
    intro hleads
    obtain ⟨b, ⟨q, r, hq, -, hname, rfl, hread⟩, hb⟩ := hleads.reads
    obtain rfl := hq.unique hp hname
    exact ih r.name hread hb

/-- A table of the names with a value is the one solution. -/
theorem table_of_binds {values : Env Str Float} (h : ∀ n x, values n = some x ↔ Valued U M L decls n x) :
    Table U M L decls values := by
  have hreads : ∀ {p : Param} {val : Str → Float}, (∀ n ∈ names U p.expr, Valued U M L decls n (val n)) →
      ∀ n ∈ names U p.expr, values n = some (val n) := fun hval n hn => (h n _).mpr (hval n hn)
  refine ⟨h, ?_, ?_⟩
  · intro p x hp hx
    obtain ⟨-, -, val, hval, heval⟩ := Valued.of_lastDef hp ((h _ x).mp hx)
    rw [evaluate_congr U M L.dialect (hreads hval)]
    exact heval
  · intro env henv n x hx
    have hvalued := (h n x).mp hx
    clear hx
    induction hvalued with
    | @intro p x val hp hstr htemp hval heval ih =>
      have hx : values p.name = some x := (h _ x).mpr (.intro val hp hstr htemp hval heval)
      obtain ⟨y, hy, hname⟩ := henv p x hp hx
      -- the right-hand side reads the same values
      rw [evaluate_congr U M L.dialect ih, heval] at hy
      rw [hname, ← Except.ok.inj hy]

/-- The pass ends. -/
theorem run_ok {ps : List Param} (hparsed : ∀ p ∈ ps, L.Parsed U p.expr) (top : List Str) (s : ParamPass) :
    ∃ s', ps.foldlM (L.step U M top) s = .ok s' := by
  induction ps generalizing s with
  | nil => exact ⟨s, rfl⟩
  | cons p ps ih =>
    obtain ⟨t, ht, -⟩ := Language.step_cases (M := M) (hparsed p List.mem_cons_self) top s
    obtain ⟨s', hs'⟩ := ih (fun q hq => hparsed q (List.mem_cons_of_mem p hq)) t
    exact ⟨s', by rw [List.foldlM_cons, ht]; exact hs'⟩

/-! ## The run over the order -/

/-- What the pass has computed after the definitions of a list. -/
structure Done (U : UnicodeData) (M : Libm) (L : Language) (decls : List Param) (s : ParamPass)
    (done : List Param) : Prop where
  outside : ∀ n, n ∉ done.map Param.name → s.values n = none ∧ n ∉ s.symbolic
  values : ∀ p ∈ done, ∀ x, s.values p.name = some x ↔ Valued U M L decls p.name x
  symbolic : ∀ p ∈ done, p.name ∈ s.symbolic ↔ s.values p.name = none

section Run

variable {sorted left : List Param} (h : Parts U (keepLast decls) sorted left)

include h

theorem Parts.mem_top {n : Str} : n ∈ (sorted ++ left).map Param.name ↔ ∃ p, LastDef decls p ∧ p.name = n := by
  simp only [List.mem_map, h.lastDef, List.mem_append]

/-- A step gives the value of a definition whose reads are done. -/
theorem Done.binds_iff {s : ParamPass} {done rest : List Param} {p : Param} (hdone : Done U M L decls s done)
    (hsplit : sorted = done ++ p :: rest) {x : Float} :
    L.Binds U M ((sorted ++ left).map Param.name) s p x ↔ Valued U M L decls p.name x := by
  have hp : LastDef decls p := h.lastDef.mpr (.inl (by rw [hsplit]; simp))
  have hbefore : ∀ n ∈ names U p.expr, n ∈ (sorted ++ left).map Param.name → ∃ q ∈ done, q.name = n := by
    intro n hn htop
    obtain ⟨q, hq, rfl⟩ := h.mem_top.mp htop
    exact ⟨q, h.before done p rest hsplit q (mem_keepLast.mpr hq) hn, rfl⟩
  constructor
  · rintro ⟨⟨hnames, hstr, htemp⟩, heval⟩
    have hval : ∀ n ∈ names U p.expr, ∃ v, s.values n = some v ∧ Valued U M L decls n v := by
      intro n hn
      obtain ⟨q, hq, rfl⟩ := hbefore n hn (hnames n hn).1
      obtain ⟨v, hv⟩ := Option.ne_none_iff_exists'.mp
        (fun hnone => (hnames _ hn).2 ((hdone.symbolic q hq).mpr hnone))
      exact ⟨v, hv, (hdone.values q hq v).mp hv⟩
    refine .intro (fun n => (s.values n).getD 0) hp hstr htemp (fun n hn => ?_) ?_
    · obtain ⟨v, hv, hvalued⟩ := hval n hn
      rw [hv]
      exact hvalued
    · rw [← heval]
      refine evaluate_congr U M L.dialect fun n hn => ?_
      obtain ⟨v, hv, -⟩ := hval n hn
      rw [hv]
      rfl
  · intro hvalued
    obtain ⟨hstr, htemp, val, hval, heval⟩ := Valued.of_lastDef hp hvalued
    have hknown : ∀ n ∈ names U p.expr, n ∈ (sorted ++ left).map Param.name ∧ n ∉ s.symbolic ∧
        s.values n = some (val n) := by
      intro n hn
      have htop := h.mem_top.mpr (hval n hn).lastDef
      obtain ⟨q, hq, rfl⟩ := hbefore n hn htop
      have hv := (hdone.values q hq _).mpr (hval _ hn)
      refine ⟨htop, fun hsym => ?_, hv⟩
      rw [(hdone.symbolic q hq).mp hsym] at hv
      cases hv
    refine ⟨⟨fun n hn => ⟨(hknown n hn).1, (hknown n hn).2.1⟩, hstr, htemp⟩, ?_⟩
    rw [← heval]
    exact evaluate_congr U M L.dialect fun n hn => (hknown n hn).2.2

theorem Done.step {s : ParamPass} {done rest : List Param} {p : Param} (hdone : Done U M L decls s done)
    (hsplit : sorted = done ++ p :: rest) (hparsed : L.Parsed U p.expr) :
    ∃ s', L.step U M ((sorted ++ left).map Param.name) s p = .ok s' ∧ Done U M L decls s' (done ++ [p]) := by
  have hnew : p.name ∉ done.map Param.name := by
    have hnodup := h.nodup
    rw [hsplit, List.map_append, List.map_append] at hnodup
    have hd := (List.nodup_append.mp (List.nodup_append.mp hnodup).1).2.2
    exact fun hmem => hd _ hmem p.name List.mem_cons_self rfl
  have hother : ∀ q ∈ done, q.name ≠ p.name := fun q hq heq => hnew (heq ▸ List.mem_map_of_mem hq)
  obtain ⟨s', hs', hcase⟩ := Language.step_cases (M := M) hparsed ((sorted ++ left).map Param.name) s
  refine ⟨s', hs', ?_⟩
  rcases hcase with ⟨x, hbinds, hvalues, hsymbolic⟩ | ⟨hnot, hvalues, hsymbolic⟩
  · have hvalued := (hdone.binds_iff h hsplit).mp hbinds
    constructor
    · intro n hn
      rw [List.map_append, List.mem_append, not_or] at hn
      have hne : n ≠ p.name := fun heq => hn.2 (heq ▸ List.mem_cons_self)
      rw [hvalues, hsymbolic, Function.update_of_ne hne]
      exact hdone.outside n hn.1
    · intro q hq y
      rcases List.mem_append.mp hq with hq | hq
      · rw [hvalues, Function.update_of_ne (hother q hq)]
        exact hdone.values q hq y
      · rw [List.mem_singleton.mp hq, hvalues, Function.update_self, Option.some.injEq]
        exact ⟨fun heq => heq ▸ hvalued, fun hy => hvalued.unique hy⟩
    · intro q hq
      rcases List.mem_append.mp hq with hq | hq
      · rw [hvalues, hsymbolic, Function.update_of_ne (hother q hq)]
        exact hdone.symbolic q hq
      · rw [List.mem_singleton.mp hq, hvalues, hsymbolic, Function.update_self]
        exact iff_of_false (hdone.outside _ hnew).2 (Option.some_ne_none x)
  · constructor
    · intro n hn
      rw [List.map_append, List.mem_append, not_or] at hn
      have hne : n ≠ p.name := fun heq => hn.2 (heq ▸ List.mem_cons_self)
      rw [hvalues, hsymbolic, List.mem_cons, not_or]
      exact ⟨(hdone.outside n hn.1).1, hne, (hdone.outside n hn.1).2⟩
    · intro q hq y
      rw [hvalues]
      rcases List.mem_append.mp hq with hq | hq
      · exact hdone.values q hq y
      · rw [List.mem_singleton.mp hq, (hdone.outside _ hnew).1]
        exact iff_of_false (fun hnone => by cases hnone) fun hy => hnot y ((hdone.binds_iff h hsplit).mpr hy)
    · intro q hq
      rw [hvalues, hsymbolic, List.mem_cons]
      rcases List.mem_append.mp hq with hq | hq
      · rw [or_iff_right (hother q hq)]
        exact hdone.symbolic q hq
      · rw [List.mem_singleton.mp hq]
        exact iff_of_true (.inl rfl) (hdone.outside _ hnew).1

theorem Done.run {s : ParamPass} {done rest : List Param} (hdone : Done U M L decls s done)
    (hsplit : sorted = done ++ rest) (hparsed : ∀ p ∈ sorted, L.Parsed U p.expr) :
    ∃ s', rest.foldlM (L.step U M ((sorted ++ left).map Param.name)) s = .ok s' ∧ Done U M L decls s' sorted := by
  induction rest generalizing s done with
  | nil =>
    rw [List.append_nil] at hsplit
    exact ⟨s, rfl, hsplit ▸ hdone⟩
  | cons p rest ih =>
    obtain ⟨t, ht, hdone'⟩ := hdone.step h hsplit (hparsed p (by rw [hsplit]; simp))
    obtain ⟨s', hs', hall⟩ := ih hdone' (by rw [hsplit]; simp)
    refine ⟨s', ?_, hall⟩
    rw [List.foldlM_cons, ht]
    exact hs'

/-! ## The run over what is left -/

/-- What the pass has computed when none of the definitions left over, up to here, got a value. -/
structure Waiting (s₀ s : ParamPass) (before : List Param) : Prop where
  values : s.values = s₀.values
  symbolic : ∀ n, n ∈ s.symbolic ↔ n ∈ s₀.symbolic ∨ n ∈ before.map Param.name

theorem Waiting.binds_iff {s₀ s : ParamPass} {before : List Param} {p : Param}
    (hdone : Done U M L decls s₀ sorted) (hw : Waiting s₀ s before) :
    (∃ x, L.Binds U M ((sorted ++ left).map Param.name) s p x) ↔ EvaluatesAlone U M L decls before p := by
  -- what is known of a name that the definition reads
  have hname : ∀ n, n ∈ (sorted ++ left).map Param.name → n ∉ s.symbolic →
      (LeadsIntoCycle U decls n → s.values n = none) ∧
        (¬ LeadsIntoCycle U decls n → ∃ v, s.values n = some v ∧ Valued U M L decls n v) := by
    intro n htop hsym
    obtain ⟨q, hq, rfl⟩ := h.mem_top.mp htop
    rw [hw.symbolic, not_or] at hsym
    rw [hw.values]
    rcases h.lastDef.mp hq with hsorted | hleft
    · have hnot : ¬ LeadsIntoCycle U decls q.name := by
        intro hleads
        have hmem := h.mem_left.mpr ⟨hq, hleads⟩
        exact List.disjoint_of_nodup_append h.nodup.of_map hsorted hmem
      refine ⟨fun hleads => absurd hleads hnot, fun _ => ?_⟩
      obtain ⟨v, hv⟩ := Option.ne_none_iff_exists'.mp
        (fun hnone => hsym.1 ((hdone.symbolic q hsorted).mpr hnone))
      exact ⟨v, hv, (hdone.values q hsorted v).mp hv⟩
    · have hout : q.name ∉ sorted.map Param.name := by
        have hd := h.nodup
        rw [List.map_append] at hd
        exact fun hmem => List.disjoint_of_nodup_append hd hmem (List.mem_map_of_mem hleft)
      exact ⟨fun _ => (hdone.outside _ hout).1, fun hnot => absurd (h.mem_left.mp hleft).2 hnot⟩
  have htop : ∀ n, n ∈ (sorted ++ left).map Param.name ↔ n ∈ decls.map Param.name := by
    intro n
    rw [h.mem_top]
    constructor
    · rintro ⟨q, ⟨l₁, l₂, rfl, -⟩, rfl⟩
      simp
    · exact exists_lastDef
  constructor
  · rintro ⟨x, ⟨hnames, hstr, htemp⟩, heval⟩
    refine ⟨hstr, htemp, fun n hn => ⟨(htop n).mp (hnames n hn).1, fun hmem => ?_⟩, s.values, x, ?_, heval⟩
    · exact (hnames n hn).2 ((hw.symbolic n).mpr (.inr hmem))
    · exact fun n hn => hname n (hnames n hn).1 (hnames n hn).2
  · rintro ⟨hstr, htemp, hnames, env, x, henv, heval⟩
    have hsym : ∀ n ∈ names U p.expr, n ∉ s.symbolic := by
      intro n hn hmem
      rcases (hw.symbolic n).mp hmem with hsym | hbefore
      · -- a definition of the order without a value
        obtain ⟨q, hq, rfl⟩ : ∃ q ∈ sorted, q.name = n := by
          by_contra hno
          exact (hdone.outside n fun hin => hno (List.mem_map.mp hin)).2 hsym
        have hnot : ¬ LeadsIntoCycle U decls q.name := by
          intro hleads
          have hmem := h.mem_left.mpr ⟨h.lastDef.mpr (.inl hq), hleads⟩
          exact List.disjoint_of_nodup_append h.nodup.of_map hq hmem
        obtain ⟨v, -, hvalued⟩ := (henv _ hn).2 hnot
        have hv := (hdone.values q hq v).mpr hvalued
        rw [(hdone.symbolic q hq).mp hsym] at hv
        cases hv
      · exact (hnames n hn).2 hbefore
    have hsame : ∀ n ∈ names U p.expr, s.values n = env n := by
      intro n hn
      obtain ⟨hleads, hother⟩ := hname n ((htop n).mpr (hnames n hn).1) (hsym n hn)
      by_cases hcycle : LeadsIntoCycle U decls n
      · rw [hleads hcycle, (henv n hn).1 hcycle]
      · obtain ⟨v, hv, hvalued⟩ := hother hcycle
        obtain ⟨w, hw', hvalued'⟩ := (henv n hn).2 hcycle
        rw [hv, hw', hvalued.unique hvalued']
    refine ⟨x, ⟨fun n hn => ⟨(htop n).mpr (hnames n hn).1, hsym n hn⟩, hstr, htemp⟩, ?_⟩
    rw [evaluate_congr U M L.dialect hsame]
    exact heval

omit h in
/-- A name with a value keeps one. -/
theorem run_keeps {top : List Str} {ps : List Param} {s s' : ParamPass} (hparsed : ∀ p ∈ ps, L.Parsed U p.expr)
    (hrun : ps.foldlM (L.step U M top) s = .ok s') {n : Str} (hn : s.values n ≠ none) : s'.values n ≠ none := by
  induction ps generalizing s with
  | nil =>
    cases hrun
    exact hn
  | cons p ps ih =>
    obtain ⟨t, ht, hcase⟩ := Language.step_cases (M := M) (hparsed p List.mem_cons_self) top s
    rw [List.foldlM_cons, ht] at hrun
    refine ih (fun q hq => hparsed q (List.mem_cons_of_mem p hq)) hrun ?_
    rcases hcase with ⟨x, -, hvalues, -⟩ | ⟨-, hvalues, -⟩
    · rw [hvalues]
      by_cases heq : n = p.name
      · rw [heq, Function.update_self]
        exact Option.some_ne_none x
      · rwa [Function.update_of_ne heq]
    · rwa [hvalues]

/-- The definitions left over stay without a value if none evaluates alone; if one does, one of them has a value. -/
theorem Waiting.run {s₀ s : ParamPass} {before after : List Param} (hdone : Done U M L decls s₀ sorted)
    (hw : Waiting s₀ s before) (hsplit : left = before ++ after) (hparsed : ∀ p ∈ left, L.Parsed U p.expr) :
    ∃ s', after.foldlM (L.step U M ((sorted ++ left).map Param.name)) s = .ok s' ∧
      ((∀ m₁ p m₂, after = m₁ ++ p :: m₂ → ¬ EvaluatesAlone U M L decls (before ++ m₁) p) → s'.values = s₀.values) ∧
      ((∃ m₁ p m₂, after = m₁ ++ p :: m₂ ∧ EvaluatesAlone U M L decls (before ++ m₁) p) →
        ∃ p ∈ after, s'.values p.name ≠ none) := by
  induction after generalizing s before with
  | nil =>
    refine ⟨s, rfl, fun _ => hw.values, ?_⟩
    rintro ⟨m₁, p, m₂, hnil, -⟩
    exact absurd hnil.symm (List.append_ne_nil_of_right_ne_nil m₁ (List.cons_ne_nil p m₂))
  | cons p after ih =>
    have hrest : ∀ q ∈ after, L.Parsed U q.expr := fun q hq => hparsed q (by rw [hsplit]; simp [hq])
    obtain ⟨t, ht, hcase⟩ :=
      Language.step_cases (M := M) (hparsed p (by rw [hsplit]; simp)) ((sorted ++ left).map Param.name) s
    rw [List.foldlM_cons, ht]
    rcases hcase with ⟨x, hbinds, hvalues, -⟩ | ⟨hnot, hvalues, hsymbolic⟩
    · -- it has a value from here on
      have halone := (hw.binds_iff h hdone).mp ⟨x, hbinds⟩
      obtain ⟨s', hs'⟩ := run_ok (M := M) hrest ((sorted ++ left).map Param.name) t
      refine ⟨s', hs', fun hno => ?_, fun _ => ⟨p, List.mem_cons_self, run_keeps hrest hs' ?_⟩⟩
      · rw [← List.append_nil before] at halone
        exact absurd halone (hno [] p after rfl)
      · rw [hvalues, Function.update_self]
        exact Option.some_ne_none x
    · have halone : ¬ EvaluatesAlone U M L decls before p := fun hp => by
        obtain ⟨x, hx⟩ := (hw.binds_iff h hdone).mpr hp
        exact hnot x hx
      have hw' : Waiting s₀ t (before ++ [p]) := by
        refine ⟨hvalues.trans hw.values, fun n => ?_⟩
        rw [hsymbolic, List.mem_cons, hw.symbolic, List.map_append, List.mem_append, List.map_singleton,
          List.mem_singleton]
        tauto
      obtain ⟨s', hs', hnone, hsome⟩ := ih hw' (by rw [hsplit]; simp)
      refine ⟨s', hs', fun hno => hnone fun m₁ q m₂ hm => ?_, ?_⟩
      · rw [List.append_assoc]
        exact hno (p :: m₁) q m₂ (by rw [hm]; rfl)
      · rintro ⟨m₁, q, m₂, hm, hq⟩
        cases m₁ with
        | nil =>
          obtain ⟨rfl, -⟩ := List.cons.inj hm
          rw [List.append_nil] at hq
          exact absurd hq halone
        | cons r m₁ =>
          obtain ⟨rfl, rfl⟩ := List.cons.inj hm
          obtain ⟨z, hz, hval⟩ := hsome ⟨m₁, q, m₂, rfl, by rw [List.append_assoc]; exact hq⟩
          exact ⟨z, List.mem_cons_of_mem p hz, hval⟩

/-- After the pass the table is right if and only if no definition that leads into a cycle evaluates alone. -/
theorem Parts.table_iff (hparsed : ∀ p, LastDef decls p → L.Parsed U p.expr) (errors : List ParamError) :
    (∃ s, (sorted ++ left).foldlM (L.step U M ((sorted ++ left).map Param.name)) ⟨fun _ => none, [], errors⟩ = .ok s ∧
      Table U M L decls s.values) ↔
      ∀ l₁ p l₂, left = l₁ ++ p :: l₂ → ¬ EvaluatesAlone U M L decls l₁ p := by
  have hsorted : ∀ p ∈ sorted, L.Parsed U p.expr := fun p hp => hparsed p (h.lastDef.mpr (.inl hp))
  have hleft : ∀ p ∈ left, L.Parsed U p.expr := fun p hp => hparsed p (h.lastDef.mpr (.inr hp))
  have hstart : Done U M L decls ⟨fun _ => none, [], errors⟩ [] :=
    ⟨fun n _ => ⟨rfl, List.not_mem_nil⟩, fun p hp => absurd hp List.not_mem_nil,
      fun p hp => absurd hp List.not_mem_nil⟩
  obtain ⟨s₀, hs₀, hdone⟩ := hstart.run h rfl hsorted
  have hwaiting : Waiting s₀ s₀ [] := ⟨rfl, fun n => by simp⟩
  obtain ⟨s, hs, hnone, hsome⟩ := hwaiting.run h hdone rfl hleft
  have hrun : (sorted ++ left).foldlM (L.step U M ((sorted ++ left).map Param.name)) ⟨fun _ => none, [], errors⟩ =
      .ok s := by
    rw [List.foldlM_append, hs₀]
    exact hs
  constructor
  · rintro ⟨s', hs', htable⟩ l₁ p l₂ hsplit halone
    rw [hrun] at hs'
    obtain rfl := Except.ok.inj hs'
    obtain ⟨q, hq, hval⟩ := hsome ⟨l₁, p, l₂, hsplit, halone⟩
    obtain ⟨x, hx⟩ := Option.ne_none_iff_exists'.mp hval
    exact ((htable.binds _ x).mp hx).not_leads (h.mem_left.mp hq).2
  · intro hno
    refine ⟨s, hrun, table_of_binds fun n x => ?_⟩
    rw [hnone hno]
    by_cases hn : n ∈ sorted.map Param.name
    · obtain ⟨p, hp, rfl⟩ := List.mem_map.mp hn
      exact hdone.values p hp x
    · rw [(hdone.outside n hn).1]
      refine iff_of_false (fun hx => by cases hx) fun hvalued => hvalued.not_leads ?_
      obtain ⟨p, hp, rfl⟩ := hvalued.lastDef
      rcases h.lastDef.mp hp with hsorted | hleft
      · exact absurd (List.mem_map_of_mem hsorted) hn
      · exact (h.mem_left.mp hleft).2

end Run

/-- In both languages the parameters are sorted and evaluated exactly, if and only if what leads into a cycle is settled;
    and both sort them alike. -/
theorem sorted_and_evaluated_iff (U : UnicodeData) (M : Libm) (L : Language) (decls : List Param)
    (hparsed : ∀ p ∈ decls, L.Parsed U p.expr) :
    (Exact U M L decls ∧ ∀ L' : Language, (L'.sort U decls).1 = (L.sort U decls).1) ↔ Settled U M L decls := by
  obtain ⟨sorted, left, h, hspectre, hspice⟩ := sorts_eq U decls
  have hsort : ∀ L : Language, (L.sort U decls).1 = sorted ++ left := by
    intro L
    cases L with
    | spectre => exact congrArg Prod.fst hspectre
    | spice => exact congrArg Prod.fst hspice
  have hlast : ∀ p, LastDef decls p → L.Parsed U p.expr := by
    rintro p ⟨l₁, l₂, rfl, -⟩
    exact hparsed p (by simp)
  -- the names that the report lists
  have hreport : ∃ c, (L.sort U decls).2 = (if left.isEmpty then [] else [.cycle c]) ∧
      (left ≠ [] → (Cycle U decls c ↔ (L = .spectre → Cycle U decls (left.map Param.name)))) := by
    cases L with
    | spectre => exact ⟨_, congrArg Prod.snd hspectre, fun _ => ⟨fun hc _ => hc, fun hc => hc rfl⟩⟩
    | spice =>
      refine ⟨_, congrArg Prod.snd hspice, fun hne => ?_⟩
      exact iff_of_true (h.findCycle_cycle hne) fun hL => by cases hL
  obtain ⟨c, herrors, hnamed⟩ := hreport
  have hmem : ∀ c', .cycle c' ∈ (L.sort U decls).2 ↔ left ≠ [] ∧ c' = c := by
    intro c'
    rw [herrors]
    cases left with
    | nil => simp
    | cons p left => simp
  have htable := h.table_iff (M := M) hlast (L.sort U decls).2
  rw [← hsort L, ← L.pass_eq] at htable
  rw [Settled, ← h.left_eq]
  constructor
  · rintro ⟨hexact, -⟩
    refine ⟨fun hL => ?_, htable.mp hexact.table⟩
    by_cases hne : left = []
    · exact .inl hne
    · exact .inr ((hnamed hne).mp (hexact.named c ((hmem c).mpr ⟨hne, rfl⟩)) hL)
  · rintro ⟨hcycle, halone⟩
    refine ⟨?_, fun L' => (hsort L').trans (hsort L).symm⟩
    constructor
    · rw [hsort]
      exact h.nodup
    · intro p
      rw [hsort, h.lastDef, List.mem_append]
    · rw [← h.exists_cycle]
      constructor
      · rintro ⟨c', hc'⟩
        exact ((hmem c').mp hc').1
      · exact fun hne => ⟨c, (hmem c).mpr ⟨hne, rfl⟩⟩
    · intro c' hc'
      obtain ⟨hne, rfl⟩ := (hmem c').mp hc'
      exact (hnamed hne).mpr fun hL => (hcycle hL).resolve_left hne
    · intro hacyclic l₁ p l₂ hsplit
      have hnil : left = [] := by
        by_contra hne
        exact hacyclic (h.exists_cycle.mp hne)
      rw [hsort, hnil, List.append_nil] at hsplit
      refine ⟨fun q hq hname => h.before l₁ p l₂ hsplit q (mem_keepLast.mpr hq) hname, ?_⟩
      intro q hbefore hout havailable
      obtain ⟨k₁, k₂, k₃, hkeep⟩ := keepLast_before hbefore
      have hq : q ∈ keepLast decls := by rw [hkeep]; simp
      exact h.least l₁ p l₂ hsplit q hq hout (fun q' hq' => havailable q' (mem_keepLast.mp hq')) k₁ k₂ k₃ hkeep
    · exact htable.mpr halone

/-- A cycle with a parameter that reads it. -/
def cycleAndReader : List Param :=
  [⟨str "a", .name (str "b")⟩, ⟨str "b", .name (str "a")⟩, ⟨str "c", .name (str "a")⟩]

theorem sorted_and_evaluated_cycle :
    (Exact .small .small .spectre cycleAndReader ∧
      ∀ L' : Language, (L'.sort .small cycleAndReader).1 = (Language.spectre.sort .small cycleAndReader).1) ↔
      Settled .small .small .spectre cycleAndReader := by
  refine sorted_and_evaluated_iff .small .small .spectre cycleAndReader fun p hp => ?_
  simp only [cycleAndReader, List.mem_cons, List.not_mem_nil, or_false] at hp
  rcases hp with rfl | rfl | rfl
  · exact ⟨trivial, fun _ => by decide⟩
  · exact ⟨trivial, fun _ => by decide⟩
  · exact ⟨trivial, fun _ => by decide⟩

/-- Spectre's report lists the reader of a cycle as part of it. -/
theorem reader_listed : ¬ Exact .small .small .spectre cycleAndReader := by
  intro h
  have hcycle := h.named [str "a", str "b", str "c"] (by
    have hreport : (sortParams .small cycleAndReader).2 = [.cycle [str "a", str "b", str "c"]] := rfl
    show _ ∈ (sortParams .small cycleAndReader).2
    rw [hreport]
    exact List.mem_singleton_self _)
  have hread : Reads .small cycleAndReader (str "b") (str "c") :=
    (List.isChain_cons_cons.mp (List.isChain_cons_cons.mp hcycle.chain).2).1
  obtain ⟨p, q, hp, -, hb, -, hc⟩ := hread
  have hp := mem_keepLast.mpr hp
  have hkeep : keepLast cycleAndReader = cycleAndReader := rfl
  rw [hkeep] at hp
  simp only [cycleAndReader, List.mem_cons, List.not_mem_nil, or_false] at hp
  rcases hp with rfl | rfl | rfl
  · exact absurd hb (by decide)
  · exact absurd hc (by decide)
  · exact absurd hb (by decide)

end Vamos.Netlist.Expression
