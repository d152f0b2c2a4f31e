import Sv2ghdl.Graph.Equations
import Sv2ghdl.Graph.Kahn
import Sv2ghdl.Vamos.Netlist.Fold

/-!
# Top-level parameter values

The top-level parameters of a Spectre netlist: `sort_params` and `parameters_pass` of
`vamos/netlist/spectre.py`, and the values of a run's state, `_dependents`, `_top_values` and
`run_values` of `vamos/netlist/plan.py`.
-/

open Python Equations

namespace Vamos.Netlist.Expression

variable (U : UnicodeData) (M : Libm)

/-! ## Names -/

mutual

/-- The names of the `Name` nodes of `walk`. -/
def nameNodes : Expr → List Str
  | .num _ => []
  | .name name => [name]
  | .str _ => []
  -- the raw names of a node access are not visited
  | .call func args => if isNodeFunc U func then [] else nameNodesArgs args
  | .unary _ arg => nameNodes arg
  | .binary _ left right => nameNodes left ++ nameNodes right
  | .ternary cond a b => nameNodes cond ++ nameNodes a ++ nameNodes b

def nameNodesArgs : List Expr → List Str
  | [] => []
  | arg :: args => nameNodes arg ++ nameNodesArgs args

end

def names (e : Expr) : List Str := (nameNodes U e).filter (· ∉ reserved)

def isStr : Expr → Bool
  | .str _ => true
  | _ => false

/-! ## Evaluation reads the names -/

mutual

theorem raw_congr {spectre : Bool} {env env' : Str → Option Float} (e : Expr)
    (h : ∀ n ∈ nameNodes U e, n ∉ reserved → env n = env' n) :
    raw U M spectre env e = raw U M spectre env' e := by
  cases e with
  | num x => rfl
  | name n =>
    rw [raw, raw]
    split
    · rfl
    · next hn => rw [h n (by simp [nameNodes]) hn]
  | str s => rfl
  | call func args =>
    rw [raw, raw]
    split
    · rfl
    · next hf =>
      rw [evArgs_congr args]
      intro n hn
      apply h n
      rw [nameNodes, if_neg hf]
      exact hn
  | unary op arg =>
    rw [raw, raw, raw_congr arg]
    exact h
  | binary op left right =>
    rw [raw, raw, raw_congr left, raw_congr right]
    · intro n hn
      apply h n
      rw [nameNodes]
      exact List.mem_append_right _ hn
    · intro n hn
      apply h n
      rw [nameNodes]
      exact List.mem_append_left _ hn
  | ternary cond a b =>
    have hsub : ∀ n, n ∈ nameNodes U cond ∨ n ∈ nameNodes U a ∨ n ∈ nameNodes U b →
        n ∉ reserved → env n = env' n := by
      intro n hn
      apply h n
      rw [nameNodes, List.mem_append, List.mem_append]
      tauto
    rw [raw, raw, raw_congr cond fun n hn => hsub n (.inl hn),
      raw_congr a fun n hn => hsub n (.inr (.inl hn)),
      raw_congr b fun n hn => hsub n (.inr (.inr hn))]

theorem evArgs_congr {spectre : Bool} {env env' : Str → Option Float} (args : List Expr)
    (h : ∀ n ∈ nameNodesArgs U args, n ∉ reserved → env n = env' n) :
    evArgs U M spectre env args = evArgs U M spectre env' args := by
  cases args with
  | nil => rfl
  | cons arg args =>
    rw [evArgs, evArgs, raw_congr arg, evArgs_congr args]
    · intro n hn
      apply h n
      rw [nameNodesArgs]
      exact List.mem_append_right _ hn
    · intro n hn
      apply h n
      rw [nameNodesArgs]
      exact List.mem_append_left _ hn

end

theorem evaluate_congr {env env' : Str → Option Float} {e : Expr} (d : Dialect)
    (h : ∀ n ∈ names U e, env n = env' n) : evaluate U M e env d = evaluate U M e env' d := by
  unfold evaluate ev
  rw [raw_congr U M e]
  intro n hn hres
  apply h n
  simp [names, hn, hres]

/-! ## Temperatures -/

def temper : Str := str "temper"

def tnomName : Str := str "$tnom"

/-- `_reads_temp` -/
def readsTemp (e : Expr) : Bool := (nameNodes U e).any fun n => n = temper ∨ n = tnomName

/-- `_tmap` -/
def tmap (temp tnom : Float) (name : Str) : Option Expr :=
  if name = temper then some (.num temp) else if name = tnomName then some (.num tnom) else none

/-- `_ev` -/
def evIn (e : Expr) (env : Str → Option Float) (temp tnom : Float) : Result :=
  evaluate U M (if readsTemp U e then substitute U (tmap temp tnom) e else e) env .spectre

/-- The replacement of a node has no names but those of the node. -/
theorem replaceNum_names {temp tnom : Float} {e e' : Expr}
    (h : replaceNum (tmap temp tnom) e = .ok e') : nameNodes U e' ⊆ nameNodes U e := by
  cases e with
  | name n =>
    rw [replaceNum] at h
    obtain rfl := Except.ok.inj h
    unfold tmap
    split_ifs <;> simp [nameNodes]
  | _ =>
    rw [replaceNum] at h
    · obtain rfl := Except.ok.inj h
      exact fun _ h => h
    · simp

theorem append_subset {a a' b b' : List Str} (h : a ⊆ a') (h' : b ⊆ b') : a ++ b ⊆ a' ++ b' := by
  intro n hn
  rw [List.mem_append] at hn ⊢
  exact hn.imp (@h n) (@h' n)

mutual

theorem transform_names {temp tnom : Float} (e e' : Expr)
    (h : transform U (replaceNum (tmap temp tnom)) e = .ok e') :
    nameNodes U e' ⊆ nameNodes U e := by
  cases e with
  | num x => exact replaceNum_names U h
  | name n => exact replaceNum_names U h
  | str s => exact replaceNum_names U h
  | call func args =>
    rw [transform] at h
    split at h
    · exact replaceNum_names U h
    · next hf =>
      obtain ⟨args', hargs, h⟩ := bind_eq_ok_iff.mp h
      apply List.Subset.trans (replaceNum_names U h)
      rw [nameNodes, nameNodes, if_neg hf, if_neg hf]
      exact transformArgs_names args args' hargs
  | unary op arg =>
    rw [transform] at h
    obtain ⟨arg', harg, h⟩ := bind_eq_ok_iff.mp h
    apply List.Subset.trans (replaceNum_names U h)
    exact transform_names arg arg' harg
  | binary op left right =>
    rw [transform] at h
    obtain ⟨left', hleft, h⟩ := bind_eq_ok_iff.mp h
    obtain ⟨right', hright, h⟩ := bind_eq_ok_iff.mp h
    apply List.Subset.trans (replaceNum_names U h)
    exact append_subset (transform_names left left' hleft)
      (transform_names right right' hright)
  | ternary cond a b =>
    rw [transform] at h
    obtain ⟨cond', hcond, h⟩ := bind_eq_ok_iff.mp h
    obtain ⟨a', ha, h⟩ := bind_eq_ok_iff.mp h
    obtain ⟨b', hb, h⟩ := bind_eq_ok_iff.mp h
    apply List.Subset.trans (replaceNum_names U h)
    exact append_subset
      (append_subset (transform_names cond cond' hcond) (transform_names a a' ha))
      (transform_names b b' hb)

theorem transformArgs_names {temp tnom : Float} (args args' : List Expr)
    (h : transformArgs U (replaceNum (tmap temp tnom)) args = .ok args') :
    nameNodesArgs U args' ⊆ nameNodesArgs U args := by
  cases args with
  | nil =>
    obtain rfl := Except.ok.inj h
    exact fun _ h => h
  | cons arg args =>
    rw [transformArgs] at h
    obtain ⟨arg', harg, h⟩ := bind_eq_ok_iff.mp h
    obtain ⟨args', hargs, h⟩ := bind_eq_ok_iff.mp h
    obtain rfl := Except.ok.inj h
    exact append_subset (transform_names arg arg' harg)
      (transformArgs_names args args' hargs)

end

theorem substitute_names (temp tnom : Float) (e : Expr) :
    nameNodes U (substitute U (tmap temp tnom) e) ⊆ nameNodes U e :=
  transform_names U e _ (substitute_ok U (tmap temp tnom) e)

/-- The value on a path depends on the parameters that the expression names. -/
theorem evIn_congr {e : Expr} {env env' : Str → Option Float} (temp tnom : Float)
    (h : ∀ n ∈ names U e, env n = env' n) :
    evIn U M e env temp tnom = evIn U M e env' temp tnom := by
  unfold evIn
  split
  · apply evaluate_congr
    intro n hn
    apply h n
    rw [names, List.mem_filter] at hn ⊢
    exact ⟨substitute_names U temp tnom e hn.1, hn.2⟩
  · exact evaluate_congr U M .spectre h

/-! ## Parameters in order -/

structure Param where
  name : Str
  expr : Expr

/-- The equation of a parameter at given temperatures. -/
def Param.equation (temp tnom : Float) (p : Param) : Equation Str Float Raised where
  name := p.name
  reads := names U p.expr
  value := fun env => evIn U M p.expr env temp tnom
  congr := fun _ _ h => evIn_congr U M temp tnom h

/-- The definitions that count: the last one of each name. -/
def keepLast : List Param → List Param
  | [] => []
  | p :: ps => if ps.any (·.name = p.name) then keepLast ps else p :: keepLast ps

/-- The definitions that the `i`-th one reads. -/
def dependencies (keep : List Param) (i : Nat) : List Nat :=
  match keep[i]? with
  | none => []
  | some p =>
    (List.range keep.length).filter fun j =>
      match keep[j]? with
      | none => false
      | some q => q.name ∈ names U p.expr

/-- What the parser reports of the top-level parameters. -/
inductive ParamError where
  | cycle (stuck : List Str)
  | undefined (name : Str) (unknown : List Str)
  | noValue (name : Str) (exc : EvalError)

/-- `sort_params`: the definitions after those they read, and the cycle, if there is one. -/
def sortParams (params : List Param) : List Param × List ParamError :=
  let keep := keepLast params
  let order := Kahn.sort keep.length (dependencies U keep)
  let stuck := (List.range keep.length).filter (· ∉ order)
  ((order ++ stuck).filterMap (keep[·]?),
    if order.length < keep.length then
      [.cycle (stuck.filterMap fun i => (keep[i]?).map Param.name)] else [])

/-- The variables of `parameters_pass`. -/
structure ParamPass where
  values : Env Str Float
  symbolic : List Str
  errors : List ParamError

/-- One parameter of `parameters_pass`; `top` are the names of all. -/
def parameterStep (top : List Str) (s : ParamPass) (p : Param) : Except Raised ParamPass :=
  let used := names U p.expr
  if used.any (· ∉ top) then
    .ok { s with
      errors := s.errors ++ [.undefined p.name (used.filter (· ∉ top))]
      symbolic := p.name :: s.symbolic }
  -- what reads a temperature, directly or not, has no value yet
  else if used.any (· ∈ s.symbolic) || isStr p.expr || (nameNodes U p.expr).any (· ∈ reserved) then
    .ok { s with symbolic := p.name :: s.symbolic }
  else
    match evaluate U M p.expr s.values .spectre with
    | .ok x => .ok { s with values := Function.update s.values p.name (some x) }
    | .error (.evalError exc) =>
      .ok { s with
        errors := s.errors ++ [.noValue p.name exc]
        symbolic := p.name :: s.symbolic }
    | .error .keyError => .error .keyError

/-- `parameters_pass`, over the sorted parameters -/
def parametersPass (sorted : List Param) (errors : List ParamError) : Except Raised ParamPass :=
  sorted.foldlM (parameterStep U M (sorted.map Param.name)) ⟨fun _ => none, [], errors⟩

/-- The top-level parameters of a netlist, in the order of its body, and their nominal values. -/
structure TopLevel where
  params : List Param
  values : Env Str Float

/-- The top-level parameters of these definitions, and what is reported of them. -/
def topLevel (decls : List Param) : Except Raised (TopLevel × List ParamError) :=
  let sorted := sortParams U decls
  (parametersPass U M sorted.1 sorted.2).map fun s => (⟨sorted.1, s.values⟩, s.errors)

/-- The parser accepts the definitions: it reports no error. -/
def Accepts (decls : List Param) (nl : TopLevel) : Prop := topLevel U M decls = .ok (nl, [])

/-! ## The values of a state -/

namespace TopLevel

/-- A step of `_dependents`: what reads a dependent becomes one. -/
def dependentsStep (deps : List Str) (p : Param) : List Str :=
  if p.name ∉ deps ∧ (names U p.expr).any (· ∈ deps) then p.name :: deps else deps

def dependentsPass (nl : TopLevel) (deps : List Str) : List Str :=
  nl.params.foldl (dependentsStep U) deps

/-- The loop of `_dependents`, for at most `fuel` passes. -/
def dependentsLoop (nl : TopLevel) : Nat → List Str → List Str
  | 0, deps => deps
  | fuel + 1, deps =>
    let deps' := dependentsPass U nl deps
    if deps'.length = deps.length then deps else dependentsLoop nl fuel deps'

/-- `_dependents`: the variables, and every parameter that reads one of them, directly or not. -/
def dependents (nl : TopLevel) (vars : List Str) : List Str :=
  dependentsLoop U nl (nl.params.length + 1) vars

/-- `vals.update(variables)` -/
def updated (vals vars : Env Str Float) : Env Str Float :=
  fun n => (vars n).or (vals n)

/-- The parameters to evaluate again. -/
def todo (nl : TopLevel) (vals vars : Env Str Float) (dependents : List Str) : List Param :=
  nl.params.filter fun p =>
    (vars p.name).isNone &&
      (p.name ∈ dependents || readsTemp U p.expr || (vals p.name).isNone)

/-- `except X.EvalError` -/
def isEvalError : Raised → Bool
  | .evalError _ => true
  | .keyError => false

def solveTodo (nl : TopLevel) (vars : Env Str Float) (temp tnom : Float)
    (dependents : List Str) :
    Except Raised (Env Str Float × List (Equation Str Float Raised × Raised)) :=
  let vals := updated nl.values vars
  solve isEvalError ((nl.todo U vals vars dependents).map (Param.equation U M temp tnom)) vals

/-- `_top_values`: the values, and the parameters reported as not evaluating.  A quiet call reports
    none and leaves them out. -/
def topValues (nl : TopLevel) (vars : Env Str Float) (temp tnom : Float)
    (dependents : List Str) (quiet : Bool) : Except Raised (Env Str Float × List (Str × Raised)) :=
  (solveTodo U M nl vars temp tnom dependents).map fun r =>
    if quiet then (fun n => if n ∈ r.2.map (·.1.name) then none else r.1 n, [])
    else (r.1, r.2.map fun q => (q.1.name, q.2))

inductive RunError where
  | raised (exc : Raised)
  | doesNotEvaluate (name : Str) (exc : Raised)

def runValues (nl : TopLevel) (vars : Env Str Float) (temp tnom : Float)
    (dependents : List Str) : Except RunError (Env Str Float) :=
  match solveTodo U M nl vars temp tnom dependents with
  | .error exc => .error (.raised exc)
  | .ok (vals, []) => .ok vals
  | .ok (_, (q, exc) :: _) => .error (.doesNotEvaluate q.name exc)

/-- The values of a render copy: the variables and their dependents are left out. -/
def reduced (nl : TopLevel) (dependents : List Str) : TopLevel where
  params := nl.params
  values := fun n => if n ∈ dependents then none else nl.values n

/-- Every variable has its value, and every other parameter that of its expression. -/
structure Solution (nl : TopLevel) (vars : Env Str Float) (temp tnom : Float)
    (env : Env Str Float) : Prop where
  variable_eq : ∀ n x, vars n = some x → env n = some x
  param_eq : ∀ p ∈ nl.params, vars p.name = none →
    ∃ x, evIn U M p.expr env temp tnom = .ok x ∧ env p.name = some x

end TopLevel

/-! ## The order of the parameters -/

variable {U} {M}

theorem keepLast_subset (ps : List Param) : ∀ p ∈ keepLast ps, p ∈ ps := by
  fun_induction keepLast ps with
  | case1 => simp
  | case2 p ps _ ih => exact fun q hq => List.mem_cons_of_mem _ (ih q hq)
  | case3 p ps _ ih =>
    intro q hq
    rcases List.mem_cons.mp hq with rfl | hq
    · exact List.mem_cons_self
    · exact List.mem_cons_of_mem _ (ih q hq)

theorem keepLast_nodup (ps : List Param) : ((keepLast ps).map Param.name).Nodup := by
  fun_induction keepLast ps with
  | case1 => simp
  | case2 p ps _ ih => exact ih
  | case3 p ps hlater ih =>
    rw [List.map_cons, List.nodup_cons]
    refine ⟨?_, ih⟩
    intro hmem
    obtain ⟨q, hq, hname⟩ := List.mem_map.mp hmem
    apply hlater
    rw [List.any_eq_true]
    exact ⟨q, keepLast_subset ps q hq, by simpa using hname⟩

theorem dependencies_nodup (keep : List Param) (i : Nat) : (dependencies U keep i).Nodup := by
  unfold dependencies
  split
  · exact List.nodup_nil
  · exact List.nodup_range.filter _

theorem mem_dependencies {keep : List Param} {i j : Nat} {p q : Param} (hp : keep[i]? = some p)
    (hq : keep[j]? = some q) (hname : q.name ∈ names U p.expr) : j ∈ dependencies U keep i := by
  unfold dependencies
  rw [hp]
  simp only [List.mem_filter, List.mem_range, hq, decide_eq_true_eq]
  exact ⟨(List.getElem?_eq_some_iff.mp hq).1, hname⟩

/-- Without a cycle the sorted definitions are those that count, each after the ones it reads. -/
theorem sortParams_spec {decls : List Param} (h : (sortParams U decls).2 = []) :
    ((sortParams U decls).1.map Param.name).Nodup ∧
      ∀ l₁ p l₂, (sortParams U decls).1 = l₁ ++ p :: l₂ → ∀ q ∈ (sortParams U decls).1,
        q.name ∈ names U p.expr → q ∈ l₁ := by
  have hnames := keepLast_nodup decls
  unfold sortParams at h ⊢
  dsimp only at h ⊢
  generalize keepLast decls = keep at *
  obtain ⟨horder, hbound, hsorted⟩ := Kahn.sort_spec (n := keep.length) (dependencies_nodup keep)
  have hlen : (Kahn.sort keep.length (dependencies U keep)).length = keep.length := by
    have hle : (Kahn.sort keep.length (dependencies U keep)).length ≤
        (List.range keep.length).length := by
      apply (List.Nodup.subperm horder ?_).length_le
      intro i hi
      exact List.mem_range.mpr (hbound i hi)
    rw [List.length_range] at hle
    split at h
    · cases h
    · omega
  have hperm := Kahn.sort_perm (dependencies_nodup keep) hlen
  generalize Kahn.sort keep.length (dependencies U keep) = order at *
  have hstuck : (List.range keep.length).filter (· ∉ order) = [] := by
    rw [List.filter_eq_nil_iff]
    intro i hi
    simpa using hperm.mem_iff.mpr hi
  rw [hstuck, List.append_nil]
  constructor
  · -- the names are those of distinct definitions
    rw [List.map_filterMap]
    apply horder.filterMap
    intro i j n hi hj
    rw [Option.mem_def, ← List.getElem?_map] at hi hj
    exact (List.getElem?_inj (List.getElem?_eq_some_iff.mp hi).1 hnames).mp (hi.trans hj.symm)
  · intro l₁ p l₂ hsplit q hq hname
    obtain ⟨o₁, o₂, rfl, hl₁, ho₂⟩ := List.filterMap_eq_append_iff.mp hsplit
    obtain ⟨m₁, i, m₂, rfl, hm₁, hi, -⟩ := List.filterMap_eq_cons_iff.mp ho₂
    obtain ⟨j, -, hj⟩ := List.mem_filterMap.mp hq
    have hdep := mem_dependencies hi hj hname
    have hmem := hsorted (o₁ ++ m₁) i m₂ (by simp) j hdep
    rw [← hl₁]
    rcases List.mem_append.mp hmem with hmem | hmem
    · exact List.mem_filterMap.mpr ⟨j, hmem, hj⟩
    · exact absurd hj (by simp [hm₁ j hmem])

/-- What a step of `parameters_pass` without an error has checked and done. -/
theorem parameterStep_spec {top : List Str} {s s' : ParamPass} {p : Param}
    (h : parameterStep U M top s p = .ok s') (herr : s'.errors = []) :
    s.errors = [] ∧ (∀ n ∈ names U p.expr, n ∈ top) ∧
      (s'.values = s.values ∧ s'.symbolic = p.name :: s.symbolic ∨
        ∃ x, evaluate U M p.expr s.values .spectre = .ok x ∧
          (∀ n ∈ names U p.expr, n ∉ s.symbolic) ∧ (∀ n ∈ nameNodes U p.expr, n ∉ reserved) ∧
          s'.values = Function.update s.values p.name (some x) ∧ s'.symbolic = s.symbolic) := by
  unfold parameterStep at h
  dsimp only at h
  split at h
  · cases h
    simp at herr
  · next htop =>
    have htop' : ∀ n ∈ names U p.expr, n ∈ top := by simpa using htop
    split at h
    · cases h
      exact ⟨herr, htop', .inl ⟨rfl, rfl⟩⟩
    · next hsym =>
      simp only [Bool.or_eq_true, not_or, List.any_eq_true, decide_eq_true_eq, not_exists,
        not_and] at hsym
      split at h
      · next x hx =>
        cases h
        exact ⟨herr, htop', .inr ⟨x, hx, hsym.1.1, hsym.2, rfl, rfl⟩⟩
      · cases h
        simp at herr
      · cases h

/-- What `parameters_pass` has computed after the parameters of a list. -/
structure ParamPass.Holds (s : ParamPass) (temp tnom : Float) (ps : List Param) : Prop where
  outside : ∀ n, n ∉ ps.map Param.name → s.values n = none
  decided : ∀ p ∈ ps, p.name ∈ s.symbolic ∨ s.values p.name ≠ none
  solved : ∀ p ∈ ps, s.values p.name ≠ none → readsTemp U p.expr = false ∧
    (p.equation U M temp tnom).Solved s.values ∧ ∀ n ∈ names U p.expr, s.values n ≠ none

theorem readsTemp_eq_false {e : Expr} (h : ∀ n ∈ nameNodes U e, n ∉ reserved) :
    readsTemp U e = false := by
  unfold readsTemp
  rw [List.any_eq_false]
  intro n hn
  have hres := h n hn
  simp only [reserved, List.mem_cons, List.not_mem_nil, or_false, not_or] at hres
  intro htemp
  rcases of_decide_eq_true htemp with h | h
  · exact hres.2.1 h
  · exact hres.2.2.2 h

/-- The parameters before `p` are as they were, and `p` is decided. -/
theorem ParamPass.Holds.step {s s' : ParamPass} {temp tnom : Float} {ps : List Param} {p : Param}
    {top : List Str} (h : s.Holds (U := U) (M := M) temp tnom ps)
    (hnew : p.name ∉ ps.map Param.name) (hreads : ∀ n ∈ names U p.expr, n ∈ ps.map Param.name)
    (hstep : parameterStep U M top s p = .ok s') (herr : s'.errors = []) :
    s'.Holds (U := U) (M := M) temp tnom (ps ++ [p]) := by
  obtain ⟨-, -, hcase⟩ := parameterStep_spec hstep herr
  rcases hcase with ⟨hvalues, hsym⟩ | ⟨x, hx, hread, hres, hvalues, hsym⟩
  · constructor
    · intro n hn
      rw [hvalues]
      apply h.outside
      intro hmem
      exact hn (by simp_all)
    · intro q hq
      rw [hvalues, hsym]
      rcases List.mem_append.mp hq with hq | hq
      · exact (h.decided q hq).imp_left (List.mem_cons_of_mem _)
      · rw [List.mem_singleton.mp hq]
        exact .inl List.mem_cons_self
    · intro q hq hval
      rw [hvalues] at hval ⊢
      rcases List.mem_append.mp hq with hq | hq
      · exact h.solved q hq hval
      · -- `p` has no value
        rw [List.mem_singleton.mp hq] at hval
        exact absurd (h.outside p.name hnew) hval
  · -- what was known stays
    have hkeep : ∀ n, n ∈ ps.map Param.name → s'.values n = s.values n := by
      intro n hn
      rw [hvalues, Function.update_of_ne]
      rintro rfl
      exact hnew hn
    have hknown : ∀ n ∈ names U p.expr, s.values n ≠ none := by
      intro n hn
      obtain ⟨q, hq, hname⟩ := List.mem_map.mp (hreads n hn)
      rw [← hname]
      apply (h.decided q hq).resolve_left
      rw [hname]
      exact hread n hn
    constructor
    · intro n hn
      rw [List.map_append, List.mem_append, not_or] at hn
      rw [hvalues, Function.update_of_ne (by simpa using hn.2)]
      exact h.outside n hn.1
    · intro q hq
      rw [hsym]
      rcases List.mem_append.mp hq with hq | hq
      · rw [hkeep q.name (List.mem_map_of_mem hq)]
        exact h.decided q hq
      · rw [List.mem_singleton.mp hq, hvalues, Function.update_self]
        exact .inr (by simp)
    · intro q hq hval
      rcases List.mem_append.mp hq with hq | hq
      · have hqname := List.mem_map_of_mem (f := Param.name) hq
        rw [hkeep _ hqname] at hval
        obtain ⟨htemp, hsolved, hread⟩ := h.solved q hq hval
        -- a name with a value is one of those before `p`
        have hbefore : ∀ n ∈ names U q.expr, n ∈ ps.map Param.name := by
          intro n hn
          by_contra hout
          exact hread n hn (h.outside n hout)
        refine ⟨htemp, ?_, ?_⟩
        · exact hsolved.congr (fun n hn => hkeep n (hbefore n hn)) (hkeep _ hqname)
        · intro n hn
          rw [hkeep n (hbefore n hn)]
          exact hread n hn
      · rw [List.mem_singleton.mp hq]
        have htemp := readsTemp_eq_false hres
        refine ⟨htemp, ⟨x, ?_, ?_⟩, ?_⟩
        · show evIn U M p.expr s'.values temp tnom = .ok x
          unfold evIn
          rw [if_neg (by simp [htemp]), evaluate_congr U M .spectre fun n hn => hkeep n (hreads n hn)]
          exact hx
        · show s'.values p.name = some x
          rw [hvalues, Function.update_self]
        · intro n hn
          rw [hkeep n (hreads n hn)]
          exact hknown n hn

theorem parametersPass_holds {top : List Str} {s : ParamPass} {ps : List Param}
    (temp tnom : Float) (hnodup : (ps.map Param.name).Nodup)
    (hreads : ∀ l₁ p l₂, ps = l₁ ++ p :: l₂ → ∀ n ∈ names U p.expr, n ∈ top →
      n ∈ l₁.map Param.name)
    (h : ps.foldlM (parameterStep U M top) ⟨fun _ => none, [], []⟩ = .ok s)
    (herr : s.errors = []) : s.Holds (U := U) (M := M) temp tnom ps := by
  induction ps using List.reverseRecOn generalizing s with
  | nil =>
    cases h
    constructor <;> simp
  | append_singleton ps p ih =>
    rw [List.foldlM_append] at h
    obtain ⟨t, ht, h⟩ := bind_eq_ok.mp h
    have hstep : parameterStep U M top t p = .ok s := by
      rw [List.foldlM_cons, bind_eq_ok] at h
      obtain ⟨s', hs', h⟩ := h
      rw [hs', ← Except.ok.inj h]
    obtain ⟨herr', htop, -⟩ := parameterStep_spec hstep herr
    rw [List.map_append, List.nodup_append] at hnodup
    have hbefore := ih hnodup.1
      (fun l₁ q l₂ hl => hreads l₁ q (l₂ ++ [p]) (by rw [hl, List.append_assoc]; rfl)) ht herr'
    apply hbefore.step _ _ hstep herr
    · intro hmem
      exact hnodup.2.2 _ hmem _ (by simp) rfl
    · intro n hn
      exact hreads ps p [] rfl n hn (htop n hn)

/-- Equations in order, from the order of the list. -/
theorem inOrder_of_split {known : Str → Prop} {qs : List (Equation Str Float Raised)}
    (h : ∀ l₁ q l₂, qs = l₁ ++ q :: l₂ → ∀ n ∈ q.reads, known n ∨ n ∈ l₁.map Equation.name) :
    InOrder known qs := by
  induction qs generalizing known with
  | nil => trivial
  | cons q qs ih =>
    constructor
    · intro n hn
      simpa using h [] q qs rfl n hn
    · apply ih
      rintro l₁ p l₂ rfl n hn
      have := h (q :: l₁) p l₂ rfl n hn
      rw [List.map_cons, List.mem_cons] at this
      tauto

theorem map_equation_name (temp tnom : Float) (ps : List Param) :
    (ps.map (Param.equation U M temp tnom)).map Equation.name = ps.map Param.name := by
  rw [List.map_map]
  rfl

/-- What the parser promises of the parameters it accepts. -/
structure TopLevel.WellFormed (U : UnicodeData) (M : Libm) (nl : TopLevel) (temp tnom : Float) :
    Prop where
  nodup : (nl.params.map Param.name).Nodup
  reads : ∀ l₁ p l₂, nl.params = l₁ ++ p :: l₂ → ∀ n ∈ names U p.expr, n ∈ l₁.map Param.name
  outside : ∀ n, n ∉ nl.params.map Param.name → nl.values n = none
  solved : ∀ p ∈ nl.params, nl.values p.name ≠ none → readsTemp U p.expr = false ∧
    (p.equation U M temp tnom).Solved nl.values ∧ ∀ n ∈ names U p.expr, nl.values n ≠ none

theorem Accepts.pass {decls : List Param} {nl : TopLevel} (h : Accepts U M decls nl) :
    ∃ s, parametersPass U M (sortParams U decls).1 (sortParams U decls).2 = .ok s ∧
      (sortParams U decls).1 = nl.params ∧ s.values = nl.values ∧ s.errors = [] := by
  unfold Accepts topLevel at h
  dsimp only at h
  cases hpass : parametersPass U M (sortParams U decls).1 (sortParams U decls).2 with
  | error exc =>
    rw [hpass] at h
    cases h
  | ok s =>
    rw [hpass] at h
    obtain ⟨rfl, herr⟩ := Prod.mk.inj (Except.ok.inj h)
    exact ⟨s, rfl, rfl, rfl, herr⟩

theorem Accepts.wellFormed {decls : List Param} {nl : TopLevel} (h : Accepts U M decls nl)
    (temp tnom : Float) : nl.WellFormed U M temp tnom := by
  obtain ⟨s, hpass, hparams, hvalues, herr⟩ := h.pass
  -- no step reports an error, so there was none before either
  have herrors : ∀ (ps : List Param) (top : List Str) (s s' : ParamPass),
      ps.foldlM (parameterStep U M top) s = .ok s' → s'.errors = [] →
      s.errors = [] ∧ ∀ p ∈ ps, ∀ n ∈ names U p.expr, n ∈ top := by
    intro ps top
    induction ps with
    | nil =>
      intro s s' h herr
      cases h
      exact ⟨herr, by simp⟩
    | cons p ps ih =>
      intro s s' h herr
      rw [List.foldlM_cons, bind_eq_ok] at h
      obtain ⟨t, ht, h⟩ := h
      obtain ⟨herr', hrest⟩ := ih t s' h herr
      obtain ⟨herr'', htop, -⟩ := parameterStep_spec ht herr'
      refine ⟨herr'', ?_⟩
      intro q hq
      rcases List.mem_cons.mp hq with rfl | hq
      · exact htop
      · exact hrest q hq
  unfold parametersPass at hpass
  obtain ⟨hcycle, htop⟩ := herrors _ _ _ _ hpass herr
  obtain ⟨hnodup, hsorted⟩ := sortParams_spec hcycle
  replace hcycle : (sortParams U decls).2 = [] := hcycle
  rw [hcycle] at hpass
  rw [hparams] at hpass htop hnodup hsorted
  have hreads : ∀ l₁ p l₂, nl.params = l₁ ++ p :: l₂ → ∀ n ∈ names U p.expr,
      n ∈ l₁.map Param.name := by
    intro l₁ p l₂ hsplit n hn
    have hp : p ∈ nl.params := by
      rw [hsplit]
      simp
    obtain ⟨q, hq, rfl⟩ := List.mem_map.mp (htop p hp n hn)
    exact List.mem_map_of_mem (hsorted l₁ p l₂ hsplit q hq hn)
  have hholds := parametersPass_holds temp tnom hnodup
    (fun l₁ p l₂ hsplit n hn _ => hreads l₁ p l₂ hsplit n hn) hpass herr
  constructor
  · exact hnodup
  · exact hreads
  · rw [← hvalues]
    exact hholds.outside
  · rw [← hvalues]
    exact hholds.solved

/-! ## Dependents -/

namespace TopLevel

variable {nl : TopLevel}

theorem foldl_dependents_suffix (ps : List Param) (deps : List Str) :
    deps <:+ ps.foldl (dependentsStep U) deps := by
  induction ps generalizing deps with
  | nil => exact List.suffix_refl _
  | cons p ps ih =>
    rw [List.foldl_cons]
    apply List.IsSuffix.trans _ (ih _)
    unfold dependentsStep
    split
    · exact List.suffix_cons _ _
    · exact List.suffix_refl _

/-- A pass that adds nothing has nothing to add. -/
theorem foldl_dependents_closed {ps : List Param} {deps : List Str}
    (h : (ps.foldl (dependentsStep U) deps).length = deps.length) :
    ∀ p ∈ ps, (∃ n ∈ names U p.expr, n ∈ deps) → p.name ∈ deps := by
  induction ps generalizing deps with
  | nil => simp
  | cons p ps ih =>
    rw [List.foldl_cons] at h
    have hlen := (foldl_dependents_suffix (U := U) ps (dependentsStep U deps p)).length_le
    unfold dependentsStep at h hlen
    split at h
    · next hadd =>
      rw [if_pos hadd, List.length_cons] at hlen
      omega
    · next hadd =>
      intro q hq
      rcases List.mem_cons.mp hq with rfl | hq
      · rintro ⟨n, hn, hmem⟩
        by_contra hout
        apply hadd
        refine ⟨hout, ?_⟩
        rw [List.any_eq_true]
        exact ⟨n, hn, by simpa using hmem⟩
      · exact ih h q hq

theorem foldl_dependents_new {ps : List Param} {deps : List Str}
    (h : (ps.foldl (dependentsStep U) deps).length ≠ deps.length) :
    ∃ p ∈ ps, p.name ∉ deps ∧ p.name ∈ ps.foldl (dependentsStep U) deps := by
  induction ps generalizing deps with
  | nil => exact absurd rfl h
  | cons p ps ih =>
    rw [List.foldl_cons] at h ⊢
    by_cases hadd : p.name ∉ deps ∧ (names U p.expr).any (· ∈ deps)
    · refine ⟨p, List.mem_cons_self, hadd.1, ?_⟩
      apply (foldl_dependents_suffix ps _).subset
      rw [dependentsStep, if_pos hadd]
      exact List.mem_cons_self
    · have hsame : dependentsStep U deps p = deps := by rw [dependentsStep, if_neg hadd]
      rw [hsame] at h ⊢
      obtain ⟨q, hq, hnew⟩ := ih h
      exact ⟨q, List.mem_cons_of_mem _ hq, hnew⟩

/-- The loop has a pass for each parameter that may still be added, and ends closed. -/
theorem dependentsLoop_closed {fuel : Nat} {deps : List Str}
    (hfuel : (nl.params.filter (·.name ∉ deps)).length < fuel) :
    deps ⊆ dependentsLoop U nl fuel deps ∧
      ∀ p ∈ nl.params, (∃ n ∈ names U p.expr, n ∈ dependentsLoop U nl fuel deps) →
        p.name ∈ dependentsLoop U nl fuel deps := by
  induction fuel generalizing deps with
  | zero => omega
  | succ fuel ih =>
    rw [dependentsLoop]
    split
    · next hlen => exact ⟨fun _ h => h, foldl_dependents_closed hlen⟩
    · next hlen =>
      obtain ⟨p, hp, hout, hin⟩ := foldl_dependents_new hlen
      have hsub := (foldl_dependents_suffix (U := U) nl.params deps).subset
      have hless : (nl.params.filter (·.name ∉ dependentsPass U nl deps)).length <
          (nl.params.filter (·.name ∉ deps)).length := by
        have hfilter : nl.params.filter (·.name ∉ dependentsPass U nl deps) =
            (nl.params.filter (·.name ∉ deps)).filter (·.name ∉ dependentsPass U nl deps) := by
          rw [List.filter_filter]
          apply List.filter_congr
          intro q _
          have := @hsub q.name
          by_cases h : q.name ∈ deps <;> simp_all [dependentsPass]
        rw [hfilter]
        apply List.length_filter_lt_length_iff_exists.mpr
        refine ⟨p, by simp [hp, hout], ?_⟩
        show ¬ decide (p.name ∉ dependentsPass U nl deps) = true
        rw [decide_eq_true_eq, not_not]
        exact hin
      have hrest := @ih (dependentsPass U nl deps) (by omega)
      exact ⟨fun n hn => hrest.1 (hsub hn), hrest.2⟩

theorem dependents_closed (nl : TopLevel) (vars : List Str) :
    vars ⊆ nl.dependents U vars ∧ ∀ p ∈ nl.params,
      (∃ n ∈ names U p.expr, n ∈ nl.dependents U vars) → p.name ∈ nl.dependents U vars := by
  apply dependentsLoop_closed
  exact Nat.lt_succ_of_le (List.length_filter_le _ _)

/-! ## The values solve the equations -/

/-- The mapping on the names of the parameters. -/
def restrict (nl : TopLevel) (sol : Env Str Float) : Env Str Float :=
  fun n => if n ∈ nl.params.map Param.name then sol n else none

variable {temp tnom : Float} {vars : Env Str Float} {V : List Str} {sol : Env Str Float}

/-- The nominal value of what is no dependent is its value in the state. -/
theorem nominal_eq (hwf : nl.WellFormed U M temp tnom)
    (hvars : ∀ n, (vars n).isSome ↔ n ∈ V) (hsol : nl.Solution U M vars temp tnom sol) :
    ∀ n, n ∈ nl.params.map Param.name → n ∉ nl.dependents U V ∧ nl.values n ≠ none →
      nl.values n = sol n := by
  obtain ⟨hsub, hclosed⟩ := dependents_closed (U := U) nl V
  have horder : InOrder (fun _ => False) (nl.params.map (Param.equation U M temp tnom)) := by
    apply inOrder_of_split
    intro l₁ q l₂ hsplit n hn
    obtain ⟨m₁, m₂, hm, rfl, hm₂⟩ := List.map_eq_append_iff.mp hsplit
    obtain ⟨p, m₃, rfl, rfl, -⟩ := List.map_eq_cons_iff.mp hm₂
    rw [map_equation_name]
    exact .inr (hwf.reads m₁ p m₃ hm n hn)
  intro n hn
  apply horder.agree (P := fun n => n ∉ nl.dependents U V ∧ nl.values n ≠ none)
  · exact fun _ h => h.elim
  · intro q hq hP
    obtain ⟨p, hp, rfl⟩ := List.mem_map.mp hq
    obtain ⟨-, hsolved, hread⟩ := hwf.solved p hp hP.2
    refine ⟨hsolved, ?_, ?_⟩
    · have hnone : vars p.name = none := by
        by_contra h
        exact hP.1 (hsub ((hvars p.name).mp (Option.isSome_iff_ne_none.mpr h)))
      exact hsol.param_eq p hp hnone
    · -- what reads a dependent is one
      intro n hn
      exact ⟨fun hdep => hP.1 (hclosed p hp ⟨n, hn, hdep⟩), hread n hn⟩
  · rw [map_equation_name]
    exact .inr hn

/-- The loop of `_top_values` and `run_values`, from the nominal values with or without those of the
    dependents. -/
theorem solveTodo_eq (hwf : nl.WellFormed U M temp tnom) (hV : ∀ v ∈ V, v ∈ nl.params.map Param.name)
    (hvars : ∀ n, (vars n).isSome ↔ n ∈ V) (hsol : nl.Solution U M vars temp tnom sol)
    {base : Env Str Float} (hbase : ∀ n, n ∉ nl.dependents U V → base n = nl.values n)
    (hout : ∀ n, n ∉ nl.params.map Param.name → base n = none) :
    solveTodo U M ⟨nl.params, base⟩ vars temp tnom (nl.dependents U V) =
      .ok (nl.restrict sol, []) := by
  obtain ⟨hsub, -⟩ := dependents_closed (U := U) nl V
  have hnone : ∀ n, n ∉ V → vars n = none := by
    intro n hn
    by_contra h
    exact hn ((hvars n).mp (Option.isSome_iff_ne_none.mpr h))
  -- what is known before the loop: the variables, and what no change reaches
  let known : Str → Prop := fun n => n ∈ V ∨
    n ∈ nl.params.map Param.name ∧ n ∉ nl.dependents U V ∧ nl.values n ≠ none
  have hknown : ∀ n, known n → updated base vars n = sol n := by
    rintro n (hn | ⟨hn, hP⟩)
    · obtain ⟨x, hx⟩ := Option.isSome_iff_exists.mp ((hvars n).mpr hn)
      rw [updated, hx, hsol.variable_eq n x hx]
      rfl
    · rw [updated, hnone n fun h => hP.1 (hsub h), Option.none_or, hbase n hP.1]
      exact nominal_eq hwf hvars hsol n hn hP
  generalize htodo : todo U ⟨nl.params, base⟩ (updated base vars) vars (nl.dependents U V) = ps
  have hps : ∀ p, p ∈ nl.params → p ∈ ps ∨ known p.name := by
    intro p hp
    by_cases hmem : p ∈ ps
    · exact .inl hmem
    · right
      rw [← htodo, todo, List.mem_filter] at hmem
      by_cases hv : p.name ∈ V
      · exact .inl hv
      · rw [hnone p.name hv] at hmem
        simp only [hp, true_and, Option.isNone_none, Bool.true_and, Bool.or_eq_true,
          decide_eq_true_eq, not_or, updated, hnone p.name hv, Option.none_or] at hmem
        refine .inr ⟨List.mem_map_of_mem hp, hmem.1.1, ?_⟩
        rw [← hbase _ hmem.1.1]
        simpa using hmem.2
  have horder : InOrder known (ps.map (Param.equation U M temp tnom)) := by
    apply inOrder_of_split
    intro l₁ q l₂ hsplit n hn
    obtain ⟨m₁, m₂, hm, rfl, hm₂⟩ := List.map_eq_append_iff.mp hsplit
    obtain ⟨p, m₃, rfl, rfl, -⟩ := List.map_eq_cons_iff.mp hm₂
    rw [hm, todo] at htodo
    obtain ⟨a₁, a₂, ha, rfl, ha₂⟩ := List.filter_eq_append_iff.mp htodo
    obtain ⟨b₁, b₂, rfl, hb₁, -, -⟩ := List.filter_eq_cons_iff.mp ha₂
    -- a parameter that `p` reads stands before it, and is evaluated again or known
    obtain ⟨r, hr, rfl⟩ := List.mem_map.mp
      (hwf.reads (a₁ ++ b₁) p b₂ (by rw [ha, List.append_assoc]) n hn)
    have hparam : r ∈ nl.params := by
      rw [ha, ← List.append_assoc]
      exact List.mem_append_left _ hr
    rcases hps r hparam with hmem | hknow
    · right
      rw [hm] at hmem
      have hpred := List.of_mem_filter (htodo ▸ hmem)
      rcases List.mem_append.mp hr with hr | hr
      · rw [map_equation_name]
        exact List.mem_map_of_mem (List.mem_filter.mpr ⟨hr, hpred⟩)
      · exact absurd hpred (hb₁ r hr)
    · exact .inl hknow
  have hsolved : ∀ q ∈ ps.map (Param.equation U M temp tnom), q.Solved sol := by
    intro q hq
    obtain ⟨p, hp, rfl⟩ := List.mem_map.mp hq
    rw [← htodo, todo, List.mem_filter] at hp
    exact hsol.param_eq p hp.1 (by simpa using (Bool.and_eq_true_iff.mp hp.2).1)
  obtain ⟨env, hsolve, hright, hframe⟩ := solve_inOrder isEvalError horder hknown hsolved
  rw [map_equation_name] at hright hframe
  have henv : env = nl.restrict sol := by
    funext n
    unfold restrict
    split
    · next hn =>
      obtain ⟨p, hp, rfl⟩ := List.mem_map.mp hn
      apply hright
      exact (hps p hp).symm.imp_right List.mem_map_of_mem
    · next hn =>
      have htodo' : n ∉ ps.map Param.name := by
        rintro hmem
        obtain ⟨p, hp, rfl⟩ := List.mem_map.mp hmem
        rw [← htodo, todo, List.mem_filter] at hp
        exact hn (List.mem_map_of_mem hp.1)
      rw [hframe n htodo', updated, hnone n fun h => hn (hV n h), hout n hn]
      rfl
  unfold solveTodo
  dsimp only
  rw [htodo, hsolve, henv]

theorem solution_restrict (hwf : nl.WellFormed U M temp tnom)
    (hV : ∀ v ∈ V, v ∈ nl.params.map Param.name) (hvars : ∀ n, (vars n).isSome ↔ n ∈ V)
    (hsol : nl.Solution U M vars temp tnom sol) :
    nl.Solution U M vars temp tnom (nl.restrict sol) := by
  have hname : ∀ n ∈ nl.params.map Param.name, nl.restrict sol n = sol n := by
    intro n hn
    rw [restrict, if_pos hn]
  constructor
  · intro n x hx
    rw [hname n (hV n ((hvars n).mp (by simp [hx])))]
    exact hsol.variable_eq n x hx
  · intro p hp hnone
    obtain ⟨x, hx, hval⟩ := hsol.param_eq p hp hnone
    refine ⟨x, ?_, (hname _ (List.mem_map_of_mem hp)).trans hval⟩
    rw [evIn_congr U M temp tnom fun n hn => hname n ?_]
    · exact hx
    · obtain ⟨l₁, l₂, hsplit⟩ := List.append_of_mem hp
      rw [hsplit, List.map_append]
      exact List.mem_append_left _ (hwf.reads l₁ p l₂ hsplit n hn)

/-- `parameters b=a+1`, `parameters a=2` and `parameters t=temp`. -/
def sharedDecls : List Param :=
  [⟨str "b", .binary .add (.name (str "a")) (.num 1)⟩, ⟨str "a", .num 2⟩,
    ⟨str "t", .name temper⟩]

def sharedValues (n : Str) : Option Float :=
  if n = str "a" then some 3 else if n = str "b" then some 4 else if n = str "t" then some 27
  else none

end TopLevel

end Vamos.Netlist.Expression
