import Sv2ghdl.Lists.Lookup
import Sv2ghdl.Vamos.Netlist.Fold

/-!
# Inlining user functions

`inline` of `vamos/netlist/expr.py`, and what an expression with calls of user functions means.
-/

open Python

namespace Vamos.Netlist.Expression

/-- A user function: the names of its parameters and its body. -/
structure UserFunc where
  params : List Str
  body : Expr

/-- The functions by name. -/
abbrev Funcs := List (Str × UserFunc)

/-- The `ExprError`s of `inline`. -/
inductive InlineError where
  | recursive (func : Str)
  | arguments (func : Str) (want got : Nat)
  deriving DecidableEq, Repr

variable (U : UnicodeData) (M : Libm)

/-- The function that a call is expanded to; a node access is never one. -/
def userFunc (funcs : Funcs) (func : Str) : Option UserFunc :=
  if isNodeFunc U func then none else funcs.lookup func

/-- `dict(zip(params, args))`: of two values of one key the last counts. -/
def bound {α : Type} (params : List Str) (args : List α) (name : Str) : Option α :=
  (params.zip args).reverse.lookup name

/-- `f` in `expand`, on a node whose operands are expanded; `inner` expands the body. -/
def expandNode (funcs : Funcs) (inner : List Str → Expr → Except InlineError Expr) (active : List Str) :
    Expr → Except InlineError Expr
  | .call func args =>
    match userFunc U funcs func with
    | none => .ok (.call func args)
    | some fn =>
      if func ∈ active then .error (.recursive func)
      else if fn.params.length ≠ args.length then .error (.arguments func fn.params.length args.length)
      else do
        let body ← inner (active ++ [func]) fn.body
        .ok (substitute U (bound fn.params args) body)
  | e => .ok e

/-- `expand`.  No function is active twice, so that as many levels as there are functions are enough. -/
def expand (funcs : Funcs) : Nat → List Str → Expr → Except InlineError Expr
  | 0, active => transform U (expandNode U funcs (fun _ _ => .error (.recursive [])) active)
  | fuel + 1, active => transform U (expandNode U funcs (expand funcs fuel) active)

/-- `inline` -/
def inline (e : Expr) (funcs : Funcs) : Except InlineError Expr := expand U funcs funcs.length [] e

/-! ## Meaning -/

/-- The names of a scope. -/
def scopeEnv (scope : Str → Option Float) (name : Str) : Result :=
  if name ∈ reserved then .error (.evalError (.notAConstant name))
  else match scope name with
    | none => .error (.evalError (.unknownParameter name))
    | some x => .ok x

/-- What a user function returns for its arguments, called where names mean what they mean; none is no user function. -/
abbrev Calls := (Str → Result) → Str → List Result → Option Result

/-- No call is one of a user function. -/
def noCalls : Calls := fun _ _ _ => none

/-- The value of a node from what its operands evaluate to, as `_Eval.raw` has it. -/
def nodeValue (spectre : Bool) (calls : Calls) (env : Str → Result) (e : Expr) (rs : List Result) : Result :=
  match e, rs with
  | .num value, _ => .ok value
  | .name name, _ => env name
  | .str s, _ => .error (quote (.str s) .notANumber)
  | .unary op _, [x] => do
    let x ← x
    quoted e (unaryValue op x)
  | .ternary _ _ _, [c, a, b] => do
    let c ← c
    if c != 0 then a else b
  | .binary op _ _, [x, y] => evBinary M spectre op e x y
  | .call func _, rs =>
    if isNodeFunc U func then .error (quote e .needsSolution)
    else match calls env func rs with
      | some r => r
      | none => evCall M spectre func e rs
  | _, _ => .error .keyError -- there are as many results as operands

/-- Evaluation with user functions. -/
def evUser (spectre : Bool) (calls : Calls) (env : Str → Result) (e : Expr) : Result :=
  finite e (nodeValue U M spectre calls env e ((operands U e).attach.map fun c => evUser spectre calls env c.1))
termination_by sizeOf e
decreasing_by exact sizeOf_operand U c.2

/-- A call of a user function is its body, where each parameter is what its argument evaluates to and every other name
is what it is where the call stands. -/
def userCalls (funcs : Funcs) (spectre : Bool) : Nat → Calls
  | 0 => fun _ func _ => (userFunc U funcs func).map fun _ => .error (.evalError (.unknownFunction func))
  | fuel + 1 => fun env func rs => (userFunc U funcs func).map fun fn =>
    evUser U M spectre (userCalls funcs spectre fuel) (fun name => (bound fn.params rs name).getD (env name)) fn.body

/-! ## Which calls are expanded -/

/-- A call of `func` that expanding `e` comes to, in the bodies of the functions of `chain`. -/
inductive ToExpand (funcs : Funcs) : List Str → Expr → List Str → Str → List Expr → Prop
  | here {active : List Str} {e : Expr} {func : Str} {args : List Expr} (hcall : .call func args ∈ walk U e)
      (hfunc : (userFunc U funcs func).isSome) : ToExpand funcs active e active func args
  | inside {active chain : List Str} {e : Expr} {outer func : Str} {outerArgs args : List Expr} {fn : UserFunc}
      (hcall : .call outer outerArgs ∈ walk U e) (hfunc : userFunc U funcs outer = some fn)
      (hbody : ToExpand funcs (active ++ [outer]) fn.body chain func args) :
      ToExpand funcs active e chain func args

/-- What `f` in `expand` asks of a call of a user function. -/
def Expandable (funcs : Funcs) (inner : List Str → Expr → Except InlineError Expr) (active : List Str) :
    Expr → Prop
  | .call func args => ∀ fn, userFunc U funcs func = some fn → func ∉ active ∧
    fn.params.length = args.length ∧ ∃ body, inner (active ++ [func]) fn.body = .ok body
  | _ => True

theorem expandNode_call (funcs : Funcs) (inner : List Str → Expr → Except InlineError Expr) (active : List Str)
    {func : Str} {args : List Expr} :
    (∃ r, expandNode U funcs inner active (.call func args) = .ok r) ↔
      Expandable U funcs inner active (.call func args) := by
  rw [expandNode, Expandable]
  cases userFunc U funcs func with
  | none => simp
  | some fn =>
    simp only [Option.some.injEq, forall_eq']
    by_cases hactive : func ∈ active
    · simp [hactive]
    by_cases hlength : fn.params.length = args.length
    · simp [hactive, hlength, bind_eq_ok_iff]
    · simp [hactive, hlength]

theorem expandNode_ok_iff (funcs : Funcs) (inner : List Str → Expr → Except InlineError Expr) (active : List Str)
    (e : Expr) (cs : List Expr) (h : (operands U e).length = cs.length) :
    (∃ r, expandNode U funcs inner active (rebuild U e cs) = .ok r) ↔ Expandable U funcs inner active e := by
  cases e with
  | num | name | str => simp [rebuild, expandNode, Expandable]
  | unary op arg =>
    obtain ⟨c, rfl⟩ := List.length_eq_one_iff.mp h.symm
    simp [rebuild, expandNode, Expandable]
  | binary op left right =>
    obtain ⟨c, d, rfl⟩ := List.length_eq_two.mp h.symm
    simp [rebuild, expandNode, Expandable]
  | ternary cond a b =>
    obtain ⟨c, d, f, rfl⟩ := List.length_eq_three.mp h.symm
    simp [rebuild, expandNode, Expandable]
  | call func args =>
    rw [operands] at h
    rw [rebuild]
    split_ifs at h ⊢ with hnode
    · exact expandNode_call U funcs inner active
    · rw [expandNode_call, Expandable, Expandable, h]

theorem expand_succ_ok_iff (funcs : Funcs) (fuel : Nat) (active : List Str) (e : Expr) :
    (∃ r, expand U funcs (fuel + 1) active e = .ok r) ↔
      ∀ s ∈ walk U e, Expandable U funcs (expand U funcs fuel) active s :=
  transform_succeeds U (expandNode_ok_iff U funcs (expand U funcs fuel) active)

theorem expand_zero_ok_iff (funcs : Funcs) (active : List Str) (e : Expr) :
    (∃ r, expand U funcs 0 active e = .ok r) ↔
      ∀ s ∈ walk U e, Expandable U funcs (fun _ _ => .error (.recursive [])) active s :=
  transform_succeeds U (expandNode_ok_iff U funcs _ active)

/-- `func` is expanded already, or gets a number of arguments that it does not take. -/
def Refused (funcs : Funcs) (chain : List Str) (func : Str) (args : List Expr) : Prop :=
  func ∈ chain ∨ ∃ fn, userFunc U funcs func = some fn ∧ fn.params.length ≠ args.length

theorem not_expandable_of_refused {funcs : Funcs} {inner : List Str → Expr → Except InlineError Expr}
    {active : List Str} {func : Str} {args : List Expr} (hfunc : (userFunc U funcs func).isSome)
    (h : Refused U funcs active func args) : ¬ Expandable U funcs inner active (.call func args) := by
  intro hexpandable
  obtain ⟨fn, hfn⟩ := Option.isSome_iff_exists.mp hfunc
  obtain ⟨hactive, hlength, -⟩ := hexpandable fn hfn
  rcases h with hmem | ⟨fn', hfn', hne⟩
  · exact hactive hmem
  · rw [hfn] at hfn'
    exact hne (Option.some.inj hfn' ▸ hlength)

/-- A refused call is an error, with any fuel. -/
theorem expand_error_of_toExpand {funcs : Funcs} {active chain : List Str} {e : Expr} {func : Str}
    {args : List Expr} (h : ToExpand U funcs active e chain func args) (hrefused : Refused U funcs chain func args)
    (fuel : Nat) : ¬ ∃ r, expand U funcs fuel active e = .ok r := by
  induction h generalizing fuel with
  | here hcall hfunc =>
    intro hok
    cases fuel with
    | zero => exact not_expandable_of_refused U hfunc hrefused ((expand_zero_ok_iff U _ _ _).mp hok _ hcall)
    | succ fuel => exact not_expandable_of_refused U hfunc hrefused ((expand_succ_ok_iff U _ _ _ _).mp hok _ hcall)
  | inside hcall hfunc _ ih =>
    intro hok
    cases fuel with
    | zero =>
      obtain ⟨-, -, body, hbody⟩ := (expand_zero_ok_iff U _ _ _).mp hok _ hcall _ hfunc
      cases hbody
    | succ fuel =>
      obtain ⟨-, -, hbody⟩ := (expand_succ_ok_iff U _ _ _ _).mp hok _ hcall _ hfunc
      exact ih hrefused fuel hbody

theorem call_of_not_expandable {funcs : Funcs} {inner : List Str → Expr → Except InlineError Expr}
    {active : List Str} {e : Expr} (h : ¬ Expandable U funcs inner active e) :
    ∃ func args, e = .call func args ∧ ∃ fn, userFunc U funcs func = some fn ∧
      ¬ (func ∉ active ∧ fn.params.length = args.length ∧ ∃ body, inner (active ++ [func]) fn.body = .ok body) := by
  cases e with
  | call func args =>
    rw [Expandable] at h
    push Not at h
    obtain ⟨fn, hfn, hnot⟩ := h
    exact ⟨func, args, rfl, fn, hfn, fun ⟨hactive, hlength, body, hbody⟩ => hnot hactive hlength body hbody⟩
  | _ => exact absurd trivial h

/-! ## Enough fuel -/

/-- The functions that are active, and at least as many levels as there are other functions. -/
structure Enough (funcs : Funcs) (active : List Str) (fuel : Nat) : Prop where
  nodup : active.Nodup
  isFunc : active ⊆ funcs.map Prod.fst
  levels : funcs.length ≤ fuel + active.length

theorem Enough.nil (funcs : Funcs) {fuel : Nat} (h : funcs.length ≤ fuel) : Enough funcs [] fuel :=
  ⟨List.nodup_nil, List.nil_subset _, by simpa using h⟩

theorem userFunc_mem {funcs : Funcs} {func : Str} {fn : UserFunc} (h : userFunc U funcs func = some fn) :
    func ∈ funcs.map Prod.fst := by
  unfold userFunc at h
  split_ifs at h
  exact List.mem_map.mpr ⟨(func, fn), Lookup.mem_of_lookup h, rfl⟩

theorem Enough.push {funcs : Funcs} {active : List Str} {fuel : Nat} {func : Str} {fn : UserFunc}
    (h : Enough funcs active (fuel + 1)) (hfunc : userFunc U funcs func = some fn) (hactive : func ∉ active) :
    Enough funcs (active ++ [func]) fuel where
  nodup := by
    rw [List.nodup_append_comm]
    exact List.nodup_cons.mpr ⟨hactive, h.nodup⟩
  isFunc := by
    rintro name hname
    rcases List.mem_append.mp hname with hname | hname
    · exact h.isFunc hname
    · exact List.mem_singleton.mp hname ▸ userFunc_mem U hfunc
  levels := by
    have := h.levels
    rw [List.length_append, List.length_singleton]
    omega

/-- With no level left every function is active. -/
theorem Enough.mem_active {funcs : Funcs} {active : List Str} {func : Str} {fn : UserFunc}
    (h : Enough funcs active 0) (hfunc : userFunc U funcs func = some fn) : func ∈ active := by
  have hperm : active.Perm (funcs.map Prod.fst) := by
    apply (List.subperm_of_subset h.nodup h.isFunc).perm_of_length_le
    have := h.levels
    rw [List.length_map]
    omega
  exact hperm.mem_iff.mpr (userFunc_mem U hfunc)

theorem expandNode_congr {funcs : Funcs} {inner inner' : List Str → Expr → Except InlineError Expr}
    {active : List Str} (h : ∀ func fn, userFunc U funcs func = some fn → func ∉ active →
      inner (active ++ [func]) fn.body = inner' (active ++ [func]) fn.body) :
    expandNode U funcs inner active = expandNode U funcs inner' active := by
  funext e
  cases e with
  | call func args =>
    rw [expandNode, expandNode]
    cases hfunc : userFunc U funcs func with
    | none => rfl
    | some fn =>
      by_cases hactive : func ∈ active
      · simp only [if_pos hactive]
      · simp only [if_neg hactive, h func fn hfunc hactive]
  | _ => rfl

/-- The expansion is the same with every fuel that is enough. -/
theorem expand_enough {funcs : Funcs} {active : List Str} {e : Expr} {fuel fuel' : Nat}
    (h : Enough funcs active fuel) (h' : Enough funcs active fuel') :
    expand U funcs fuel active e = expand U funcs fuel' active e := by
  induction fuel generalizing active e fuel' with
  | zero =>
    -- no call is expanded any more
    cases fuel' with
    | zero => rfl
    | succ fuel' =>
      rw [expand, expand, expandNode_congr U fun func fn hfunc hactive => absurd (h.mem_active U hfunc) hactive]
  | succ fuel ih =>
    cases fuel' with
    | zero =>
      rw [expand, expand, expandNode_congr U fun func fn hfunc hactive => absurd (h'.mem_active U hfunc) hactive]
    | succ fuel' =>
      rw [expand, expand, expandNode_congr U fun func fn hfunc hactive =>
        ih (h.push U hfunc hactive) (h'.push U hfunc hactive)]

/-- With enough fuel only a refused call is an error. -/
theorem toExpand_of_expand_error {funcs : Funcs} {active : List Str} {e : Expr} {fuel : Nat}
    (henough : Enough funcs active fuel) (h : ¬ ∃ r, expand U funcs fuel active e = .ok r) :
    ∃ chain func args, ToExpand U funcs active e chain func args ∧ Refused U funcs chain func args := by
  induction fuel generalizing active e with
  | zero =>
    rw [expand_zero_ok_iff] at h
    push Not at h
    obtain ⟨s, hs, hnot⟩ := h
    obtain ⟨func, args, rfl, fn, hfn, -⟩ := call_of_not_expandable U hnot
    exact ⟨active, func, args, .here hs (by simp [hfn]), .inl (henough.mem_active U hfn)⟩
  | succ fuel ih =>
    rw [expand_succ_ok_iff] at h
    push Not at h
    obtain ⟨s, hs, hnot⟩ := h
    obtain ⟨func, args, rfl, fn, hfn, hrefused⟩ := call_of_not_expandable U hnot
    by_cases hactive : func ∈ active
    · exact ⟨active, func, args, .here hs (by simp [hfn]), .inl hactive⟩
    by_cases hlength : fn.params.length = args.length
    · -- the error is one of the body
      obtain ⟨chain, inner, innerArgs, hinner, hinnerRefused⟩ :=
        ih (henough.push U hfn hactive) fun hbody => hrefused ⟨hactive, hlength, hbody⟩
      exact ⟨chain, inner, innerArgs, .inside hs hfn hinner, hinnerRefused⟩
    · exact ⟨active, func, args, .here hs (by simp [hfn]), .inr ⟨fn, hfn, hlength⟩⟩

/-! ## No call is left -/

/-- No visited call is one of a user function. -/
def NoUserCalls (funcs : Funcs) (e : Expr) : Prop :=
  ∀ func args, .call func args ∈ walk U e → userFunc U funcs func = none

theorem noUserCalls_iff {funcs : Funcs} {e : Expr} :
    NoUserCalls U funcs e ↔ (∀ func args, e = .call func args → userFunc U funcs func = none) ∧
      ∀ c ∈ operands U e, NoUserCalls U funcs c := by
  constructor
  · intro h
    refine ⟨?_, fun c hc func args hs => h func args (mem_walk_operand U hc hs)⟩
    rintro func args rfl
    exact h func args (mem_walk_self U _)
  · rintro ⟨hnode, hoperands⟩ func args hs
    rcases (mem_walk U).mp hs with heq | ⟨c, hc, hs⟩
    · exact hnode func args heq.symm
    · exact hoperands c hc func args hs

/-- A node is a call of the same function with other operands. -/
theorem rebuild_eq_call {e : Expr} {cs : List Expr} (h : (operands U e).length = cs.length) {func : Str}
    {args : List Expr} (hcall : rebuild U e cs = .call func args) : ∃ args', e = .call func args' := by
  cases e with
  | call func' args' =>
    rw [rebuild] at hcall
    split_ifs at hcall
    · exact ⟨args', congrArg (Expr.call · args') (Expr.call.inj hcall).1⟩
    · exact ⟨args', congrArg (Expr.call · args') (Expr.call.inj hcall).1⟩
  | unary op arg =>
    obtain ⟨c, rfl⟩ := List.length_eq_one_iff.mp h.symm
    cases hcall
  | binary op left right =>
    obtain ⟨c, d, rfl⟩ := List.length_eq_two.mp h.symm
    cases hcall
  | ternary cond a b =>
    obtain ⟨c, d, f, rfl⟩ := List.length_eq_three.mp h.symm
    cases hcall
  | _ => cases hcall

theorem noUserCalls_rebuild {funcs : Funcs} {e : Expr} {cs : List Expr}
    (hlength : (operands U e).length = cs.length)
    (hnode : ∀ func args, e = .call func args → userFunc U funcs func = none)
    (hcs : ∀ c ∈ cs, NoUserCalls U funcs c) : NoUserCalls U funcs (rebuild U e cs) := by
  rw [noUserCalls_iff, operands_rebuild U hlength]
  refine ⟨?_, hcs⟩
  intro func args hcall
  obtain ⟨args', he⟩ := rebuild_eq_call U hlength hcall
  exact hnode func args' he

theorem substitute_name (mapping : Str → Option Expr) (name : Str) :
    substitute U mapping (.name name) = (mapping name).getD (.name name) := rfl

/-- A node that is no name is rebuilt from its substituted operands. -/
theorem substitute_eq_rebuild {mapping : Str → Option Expr} {e : Expr} (hname : ∀ name, e ≠ .name name) :
    substitute U mapping e = rebuild U e ((operands U e).map (substitute U mapping)) := by
  obtain ⟨cs, hcs, hnode⟩ := (transform_ok_iff U).mp (substitute_ok U mapping e)
  have hcs' : cs = (operands U e).map (substitute U mapping) := by
    rw [← List.forall₂_eq_eq_eq, List.forall₂_map_right_iff]
    apply hcs.flip.imp
    intro c' c hc
    exact Except.ok.inj (hc.symm.trans (substitute_ok U mapping c))
  subst hcs'
  have hkept : ∀ e' : Expr, (∀ name, e' ≠ .name name) → replaceNum mapping e' = .ok e' := by
    intro e' he'
    cases e' with
    | name name => exact absurd rfl (he' name)
    | _ => rfl
  rw [hkept _ (rebuild_ne_name U hcs.length_eq hname)] at hnode
  exact (Except.ok.inj hnode).symm

theorem substitute_noUserCalls {funcs : Funcs} {mapping : Str → Option Expr}
    (hmapping : ∀ name e, mapping name = some e → NoUserCalls U funcs e) {e : Expr} (he : NoUserCalls U funcs e) :
    NoUserCalls U funcs (substitute U mapping e) := by
  induction e using operands_induction U with
  | h e ih =>
    by_cases hname : ∃ name, e = .name name
    · obtain ⟨name, rfl⟩ := hname
      rw [substitute_name]
      cases hvalue : mapping name with
      | none => exact he
      | some value => exact hmapping name value hvalue
    · push Not at hname
      rw [substitute_eq_rebuild U hname]
      obtain ⟨hnode, hoperands⟩ := (noUserCalls_iff U).mp he
      refine noUserCalls_rebuild U (List.length_map _).symm hnode ?_
      intro c hc
      obtain ⟨c', hc', rfl⟩ := List.mem_map.mp hc
      exact ih c' hc' (hoperands c' hc')

theorem bound_mem {α : Type} {params : List Str} {args : List α} {name : Str} {a : α}
    (h : bound params args name = some a) : a ∈ args :=
  (List.of_mem_zip (List.mem_reverse.mp (Lookup.mem_of_lookup h))).2

theorem not_isNodeFunc {funcs : Funcs} {func : Str} {fn : UserFunc}
    (h : userFunc U funcs func = some fn) : ¬ isNodeFunc U func = true := by
  intro hnode
  rw [userFunc, if_pos hnode] at h
  cases h

theorem expandNode_cases {funcs : Funcs} {inner : List Str → Expr → Except InlineError Expr} {active : List Str}
    {e r : Expr} (h : expandNode U funcs inner active e = .ok r) :
    (∃ func args fn body, e = .call func args ∧ userFunc U funcs func = some fn ∧
      inner (active ++ [func]) fn.body = .ok body ∧ r = substitute U (bound fn.params args) body) ∨
    (r = e ∧ ∀ func args, e = .call func args → userFunc U funcs func = none) := by
  cases e with
  | call func args =>
    rw [expandNode] at h
    cases hfunc : userFunc U funcs func with
    | none =>
      simp only [hfunc, Except.ok.injEq] at h
      refine .inr ⟨h.symm, ?_⟩
      rintro _ _ ⟨⟩
      exact hfunc
    | some fn =>
      simp only [hfunc] at h
      split_ifs at h
      obtain ⟨body, hbody, hr⟩ := bind_eq_ok_iff.mp h
      exact .inl ⟨func, args, fn, body, rfl, hfunc, hbody, (Except.ok.inj hr).symm⟩
  | _ => exact .inr ⟨(Except.ok.inj h).symm, nofun⟩

/-- What `expand` makes of a node: a call of a user function becomes its body, and any other node is rebuilt. -/
theorem expand_cases {funcs : Funcs} {fuel : Nat} {active : List Str} {e r : Expr}
    (h : expand U funcs fuel active e = .ok r) :
    ∃ cs, List.Forall₂ (fun c c' => expand U funcs fuel active c = .ok c') (operands U e) cs ∧
      ((∃ func args fn body n, fuel = n + 1 ∧ e = .call func args ∧ userFunc U funcs func = some fn ∧
          expand U funcs n (active ++ [func]) fn.body = .ok body ∧ r = substitute U (bound fn.params cs) body) ∨
        (r = rebuild U e cs ∧ ∀ func args, e = .call func args → userFunc U funcs func = none)) := by
  obtain ⟨inner, hexpand, hinner⟩ : ∃ inner,
      expand U funcs fuel active = transform U (expandNode U funcs inner active) ∧
      ∀ active' e body, inner active' e = .ok body → ∃ n, fuel = n + 1 ∧ expand U funcs n active' e = .ok body := by
    cases fuel with
    | zero => exact ⟨_, rfl, fun _ _ _ hbody => nomatch hbody⟩
    | succ fuel => exact ⟨_, rfl, fun _ _ _ hbody => ⟨fuel, rfl, hbody⟩⟩
  rw [hexpand] at h ⊢
  obtain ⟨cs, hcs, hr⟩ := (transform_ok_iff U).mp h
  refine ⟨cs, hcs, ?_⟩
  rcases expandNode_cases U hr with ⟨func, args, fn, body, hcall, hfunc, hbody, hr⟩ | ⟨hr, hnone⟩
  · obtain ⟨args', rfl⟩ := rebuild_eq_call U hcs.length_eq hcall
    rw [rebuild, if_neg (not_isNodeFunc U hfunc)] at hcall
    obtain ⟨-, rfl⟩ := Expr.call.inj hcall
    obtain ⟨n, hn, hbody⟩ := hinner _ _ _ hbody
    exact .inl ⟨func, args', fn, body, n, hn, rfl, hfunc, hbody, hr⟩
  · refine .inr ⟨hr, ?_⟩
    rintro func args rfl
    by_cases hn : isNodeFunc U func = true
    · rw [userFunc, if_pos hn]
    · exact hnone func cs (by rw [rebuild, if_neg hn])

theorem expand_noUserCalls {funcs : Funcs} {fuel : Nat} {active : List Str} {e r : Expr}
    (h : expand U funcs fuel active e = .ok r) : NoUserCalls U funcs r := by
  induction fuel using Nat.strong_induction_on generalizing active e r with
  | _ fuel ih =>
    induction e using operands_induction U generalizing r with
    | h e ihe =>
      obtain ⟨cs, hcs, hr⟩ := expand_cases U h
      have hoperands : ∀ c ∈ cs, NoUserCalls U funcs c := by
        intro c hc
        obtain ⟨c', hc', hexpand⟩ := Traverse.forall₂_mem_right hcs hc
        exact ihe c' hc' hexpand
      rcases hr with ⟨func, args, fn, body, n, rfl, -, -, hbody, rfl⟩ | ⟨rfl, hnone⟩
      · apply substitute_noUserCalls U ?_ (ih n n.lt_succ_self hbody)
        exact fun name value hvalue => hoperands value (bound_mem hvalue)
      · exact noUserCalls_rebuild U hcs.length_eq hnone hoperands

/-! ## The value is kept -/

/-- One returns what the other returns, and raises where it raises. -/
def Agree (r r' : Result) : Prop := Refines r r' ∧ Refines r' r

theorem Agree.refl (r : Result) : Agree r r := ⟨Refines.refl r, Refines.refl r⟩

theorem Agree.symm {r r' : Result} (h : Agree r r') : Agree r' r := ⟨h.2, h.1⟩

theorem Agree.trans {r r' r'' : Result} (h : Agree r r') (h' : Agree r' r'') : Agree r r'' :=
  ⟨h.1.trans h'.1, h'.2.trans h.2⟩

theorem Agree.ok_iff {r r' : Result} (h : Agree r r') {v : Float} : r = .ok v ↔ r' = .ok v := ⟨h.1 v, h.2 v⟩

theorem finite_agree {e e' : Expr} {r r' : Result} (h : Agree r r') : Agree (finite e r) (finite e' r') :=
  ⟨finite_refines h.1, finite_refines h.2⟩

/-- What is finite already stays as it is. -/
theorem finite_finite {e e' : Expr} {r r' : Result} (h : Agree r r') :
    Agree (finite e (finite e' r)) (finite e' r') := by
  constructor
  · exact fun v hv => finite_refines h.1 v (finite_eq_ok.mp hv).1
  · intro v hv
    exact finite_eq_ok.mpr ⟨finite_refines h.2 v hv, (finite_eq_ok.mp hv).2⟩

/-- Calls of `func` agree when their arguments do. -/
def CallsAgree (calls calls' : Calls) (env env' : Str → Result) (func : Str) : Prop :=
  ∀ rs rs', List.Forall₂ Agree rs rs' → Option.Rel Agree (calls env func rs) (calls' env' func rs')

theorem nodeValue_refines {spectre : Bool} {calls calls' : Calls} {env env' : Str → Result} {e : Expr}
    (henv : ∀ name, e = .name name → Refines (env name) (env' name))
    (hcalls : ∀ func args, e = .call func args → CallsAgree calls calls' env env' func) {cs cs' : List Expr}
    (hcs : (operands U e).length = cs.length)
    (hcs' : (operands U e).length = cs'.length) {rs rs' : List Result}
    (hrs : List.Forall₂ Agree rs rs') :
    Refines (nodeValue U M spectre calls env (rebuild U e cs) rs)
      (nodeValue U M spectre calls' env' (rebuild U e cs') rs') := by
  intro v hv
  cases e with
  | num x => exact hv
  | str t => exact hv
  | name name => exact henv name rfl v hv
  | unary op arg =>
    obtain ⟨c, rfl⟩ := List.length_eq_one_iff.mp hcs.symm
    obtain ⟨c', rfl⟩ := List.length_eq_one_iff.mp hcs'.symm
    obtain _ | ⟨hx, _ | _⟩ := hrs
    · cases hv
    · simp only [rebuild, nodeValue] at hv ⊢
      rw [bind_eq_ok] at hv ⊢
      obtain ⟨x, hx', hv⟩ := hv
      exact ⟨x, hx.1 x hx', quoted_eq_ok.mpr (quoted_eq_ok.mp hv)⟩
    · cases hv
  | binary op left right =>
    obtain ⟨c, d, rfl⟩ := List.length_eq_two.mp hcs.symm
    obtain ⟨c', d', rfl⟩ := List.length_eq_two.mp hcs'.symm
    obtain _ | ⟨hx, _ | ⟨hy, _ | _⟩⟩ := hrs
    · cases hv
    · cases hv
    · exact evBinary_refines M id _ _ hx.1 hy.1 v hv
    · cases hv
  | ternary cond a b =>
    obtain ⟨c, d, f, rfl⟩ := List.length_eq_three.mp hcs.symm
    obtain ⟨c', d', f', rfl⟩ := List.length_eq_three.mp hcs'.symm
    obtain _ | ⟨hx, _ | ⟨hy, _ | ⟨hz, _ | _⟩⟩⟩ := hrs
    · cases hv
    · cases hv
    · cases hv
    · simp only [rebuild, nodeValue] at hv ⊢
      rw [bind_eq_ok] at hv ⊢
      obtain ⟨x, hx', hv⟩ := hv
      refine ⟨x, hx.1 x hx', ?_⟩
      split_ifs at hv ⊢
      · exact hy.1 v hv
      · exact hz.1 v hv
    · cases hv
  | call func args =>
    rw [rebuild] at hv ⊢
    split_ifs at hv ⊢ with hfunc
    · simp [nodeValue, hfunc] at hv
    · simp only [nodeValue, if_neg hfunc] at hv ⊢
      have hcall := hcalls func args rfl rs rs' hrs
      revert hv hcall
      cases calls env func rs <;> cases calls' env' func rs' <;> rintro hv ⟨⟩
      · exact evCall_refines M id (hrs.imp fun _ _ h => h.1) v hv
      · rename_i hr
        exact hr.1 v hv

theorem CallsAgree.symm {calls calls' : Calls} {env env' : Str → Result} {func : Str}
    (h : CallsAgree calls calls' env env' func) : CallsAgree calls' calls env' env func := by
  intro rs rs' hrs
  have hcall := h rs' rs (hrs.flip.imp fun _ _ h => h.symm)
  revert hcall
  cases calls env func rs' <;> cases calls' env' func rs <;> rintro ⟨⟩
  · exact .none
  · rename_i hr
    exact .some hr.symm

theorem nodeValue_agree {spectre : Bool} {calls calls' : Calls} {env env' : Str → Result} {e : Expr}
    (henv : ∀ name, e = .name name → Agree (env name) (env' name))
    (hcalls : ∀ func args, e = .call func args → CallsAgree calls calls' env env' func) {cs cs' : List Expr}
    (hcs : (operands U e).length = cs.length)
    (hcs' : (operands U e).length = cs'.length) {rs rs' : List Result} (hrs : List.Forall₂ Agree rs rs') :
    Agree (nodeValue U M spectre calls env (rebuild U e cs) rs)
      (nodeValue U M spectre calls' env' (rebuild U e cs') rs') :=
  ⟨nodeValue_refines U M (fun name he => (henv name he).1) hcalls hcs hcs' hrs,
    nodeValue_refines U M (fun name he => (henv name he).2) (fun func args he => (hcalls func args he).symm)
      hcs' hcs (hrs.flip.imp fun _ _ h => h.symm)⟩

theorem evUser_eq (spectre : Bool) (calls : Calls) (env : Str → Result) (e : Expr) :
    evUser U M spectre calls env e =
      finite e (nodeValue U M spectre calls env e ((operands U e).map (evUser U M spectre calls env))) := by
  rw [evUser, List.attach_map_val (f := evUser U M spectre calls env)]

/-- A node rebuilt from operands that evaluate alike evaluates alike. -/
theorem evUser_rebuild {spectre : Bool} {calls calls' : Calls} {env env' : Str → Result} {e : Expr} {cs : List Expr}
    (henv : ∀ name, e = .name name → Agree (env name) (env' name))
    (hcalls : ∀ func args, e = .call func args → CallsAgree calls calls' env env' func)
    (hcs : List.Forall₂ (fun c c' => Agree (evUser U M spectre calls env c) (evUser U M spectre calls' env' c'))
      (operands U e) cs) :
    Agree (evUser U M spectre calls env e) (evUser U M spectre calls' env' (rebuild U e cs)) := by
  rw [evUser_eq, evUser_eq, operands_rebuild U hcs.length_eq]
  apply finite_agree
  have hnode := @nodeValue_agree U M spectre calls calls' env env' e henv hcalls (operands U e) cs rfl hcs.length_eq
    _ _ (List.forall₂_map_left_iff.mpr (List.forall₂_map_right_iff.mpr hcs))
  rwa [rebuild_operands] at hnode

/-- The value depends on what the names and the calls are only. -/
theorem evUser_congr {spectre : Bool} {calls calls' : Calls} {env env' : Str → Result}
    (henv : ∀ name, Agree (env name) (env' name)) (hcalls : ∀ func, CallsAgree calls calls' env env' func) (e : Expr) :
    Agree (evUser U M spectre calls env e) (evUser U M spectre calls' env' e) := by
  induction e using operands_induction U with
  | h e ih =>
    have hself := evUser_rebuild U M (fun name _ => henv name) (fun func _ _ => hcalls func)
      (List.forall₂_same.mpr ih)
    rwa [rebuild_operands] at hself

/-- The same names with values that agree. -/
abbrev SameNames : List (Str × Result) → List (Str × Result) → Prop :=
  List.Forall₂ fun p p' => p.1 = p'.1 ∧ Agree p.2 p'.2

theorem sameNames_zip {rs rs' : List Result} (h : List.Forall₂ Agree rs rs') (params : List Str) :
    SameNames (params.zip rs) (params.zip rs') := by
  induction h generalizing params with
  | nil =>
    rw [List.zip_nil_right]
    exact .nil
  | cons hr _ ih =>
    cases params with
    | nil => exact .nil
    | cons param params => exact .cons ⟨rfl, hr⟩ (ih params)

theorem lookup_agree {l l' : List (Str × Result)} (h : SameNames l l') {r r' : Result} (hr : Agree r r') (name : Str) :
    Agree ((l.lookup name).getD r) ((l'.lookup name).getD r') := by
  induction h with
  | nil => exact hr
  | @cons p p' _ _ hp _ ih =>
    rw [List.lookup_cons, List.lookup_cons, ← hp.1]
    split
    · exact hp.2
    · exact ih

theorem bound_agree {params : List Str} {rs rs' : List Result} (h : List.Forall₂ Agree rs rs') {env env' : Str → Result}
    (henv : ∀ name, Agree (env name) (env' name)) (name : Str) :
    Agree ((bound params rs name).getD (env name)) ((bound params rs' name).getD (env' name)) :=
  lookup_agree (List.rel_reverse (sameNames_zip h params)) (henv name) name

theorem userCalls_agree (funcs : Funcs) {spectre : Bool} (fuel : Nat) {env env' : Str → Result}
    (henv : ∀ name, Agree (env name) (env' name)) (func : Str) :
    CallsAgree (userCalls U M funcs spectre fuel) (userCalls U M funcs spectre fuel) env env' func := by
  induction fuel generalizing env env' func with
  | zero =>
    intro rs rs' _
    simp only [userCalls]
    cases userFunc U funcs func with
    | none => exact .none
    | some fn => exact .some (Agree.refl _)
  | succ fuel ih =>
    intro rs rs' hrs
    simp only [userCalls]
    cases userFunc U funcs func with
    | none => exact .none
    | some fn =>
      have hnames := @bound_agree fn.params _ _ hrs _ _ henv
      exact .some (evUser_congr U M hnames (ih hnames) fn.body)

/-- A substituted name means what its expression evaluates to. -/
theorem evUser_substitute {spectre : Bool} {env : Str → Result} {mapping : Str → Option Expr} (e : Expr) :
    Agree (evUser U M spectre noCalls
        (fun name => ((mapping name).map (evUser U M spectre noCalls env)).getD (env name)) e)
      (evUser U M spectre noCalls env (substitute U mapping e)) := by
  induction e using operands_induction U with
  | h e ih =>
    by_cases hname : ∃ name, e = .name name
    · obtain ⟨name, rfl⟩ := hname
      rw [substitute_name, evUser_eq]
      cases hvalue : mapping name with
      | none =>
        rw [Option.getD_none, evUser_eq]
        simp only [nodeValue, hvalue, Option.map_none, Option.getD_none]
        exact Agree.refl _
      | some value =>
        simp only [nodeValue, hvalue, Option.map_some, Option.getD_some]
        rw [evUser_eq]
        exact finite_finite (Agree.refl _)
    · push Not at hname
      rw [substitute_eq_rebuild U hname]
      apply evUser_rebuild U M (fun name he => absurd he (hname name)) fun _ _ _ _ _ _ => .none
      exact List.forall₂_map_right_iff.mpr (List.forall₂_same.mpr ih)

theorem bound_map {α β : Type} (f : α → β) (params : List Str) (args : List α) (name : Str) :
    bound params (args.map f) name = (bound params args name).map f := by
  have hzip : params.zip (args.map f) = (params.zip args).map fun p => (p.1, f p.2) := by
    rw [List.zip_map_right]
    rfl
  rw [bound, hzip, ← List.map_reverse, Lookup.lookup_map_snd]
  rfl

theorem finite_evUser {spectre : Bool} {calls : Calls} {env : Str → Result} {e e' : Expr} :
    Agree (finite e (evUser U M spectre calls env e')) (evUser U M spectre calls env e') := by
  rw [evUser_eq]
  exact finite_finite (Agree.refl _)

theorem userCalls_eq_none {funcs : Funcs} {spectre : Bool} {fuel : Nat} {env : Str → Result} {func : Str}
    {rs : List Result} (h : userFunc U funcs func = none) : userCalls U M funcs spectre fuel env func rs = none := by
  cases fuel <;> simp only [userCalls, h, Option.map_none]

theorem evUser_userCall {funcs : Funcs} {spectre : Bool} {fuel : Nat} {env : Str → Result} {func : Str}
    {args : List Expr} {fn : UserFunc} (h : userFunc U funcs func = some fn) :
    evUser U M spectre (userCalls U M funcs spectre (fuel + 1)) env (.call func args) =
      finite (.call func args) (evUser U M spectre (userCalls U M funcs spectre fuel) (fun name =>
        (bound fn.params (args.map (evUser U M spectre (userCalls U M funcs spectre (fuel + 1)) env)) name).getD
          (env name)) fn.body) := by
  have hcall : ∀ rs, userCalls U M funcs spectre (fuel + 1) env func rs =
      some (evUser U M spectre (userCalls U M funcs spectre fuel)
        (fun name => (bound fn.params rs name).getD (env name)) fn.body) := by
    intro rs
    simp only [userCalls, h, Option.map_some]
  have hnode := not_isNodeFunc U h
  rw [evUser_eq, operands, if_neg hnode]
  simp only [nodeValue, if_neg hnode, hcall]

/-- The expression with the bodies in it evaluates to what the calls evaluate to. -/
theorem evUser_expand {funcs : Funcs} {spectre : Bool} {fuel : Nat} {active : List Str} {e r : Expr}
    (h : expand U funcs fuel active e = .ok r) (env : Str → Result) :
    Agree (evUser U M spectre (userCalls U M funcs spectre fuel) env e) (evUser U M spectre noCalls env r) := by
  induction fuel using Nat.strong_induction_on generalizing active e r env with
  | _ fuel ih =>
    induction e using operands_induction U generalizing r with
    | h e ihe =>
      obtain ⟨cs, hcs, hr⟩ := expand_cases U h
      have hoperands : List.Forall₂ (fun c c' =>
          Agree (evUser U M spectre (userCalls U M funcs spectre fuel) env c) (evUser U M spectre noCalls env c'))
          (operands U e) cs :=
        ((List.forall₂_and_left _ _).mpr ⟨ihe, hcs⟩).imp fun c c' hc => hc.1 hc.2
      rcases hr with ⟨func, args, fn, body, n, rfl, rfl, hfunc, hbody, rfl⟩ | ⟨rfl, hnone⟩
      · -- the call is its body, where a parameter is what its argument evaluates to
        have hnode := not_isNodeFunc U hfunc
        rw [operands, if_neg hnode] at hoperands
        have hnames : ∀ name, Agree
            ((bound fn.params (args.map (evUser U M spectre (userCalls U M funcs spectre (n + 1)) env)) name).getD
              (env name))
            (((bound fn.params cs name).map (evUser U M spectre noCalls env)).getD (env name)) := by
          intro name
          rw [← bound_map]
          exact bound_agree (List.forall₂_map_left_iff.mpr (List.forall₂_map_right_iff.mpr hoperands))
            (fun name => Agree.refl _) name
        rw [evUser_userCall U M hfunc]
        have hbody := ih n n.lt_succ_self hbody fun name =>
          ((bound fn.params cs name).map (evUser U M spectre noCalls env)).getD (env name)
        exact (finite_evUser U M).trans ((evUser_congr U M hnames (userCalls_agree U M funcs n hnames) fn.body).trans
          (hbody.trans (evUser_substitute U M body)))
      · apply evUser_rebuild U M (fun name _ => Agree.refl _) ?_ hoperands
        intro func args he rs rs' _
        rw [userCalls_eq_none U M (hnone func args he)]
        exact .none

theorem evUser_noCalls (spectre : Bool) (scope : Str → Option Float) (e : Expr) :
    evUser U M spectre noCalls (scopeEnv scope) e = ev U M spectre scope e := by
  induction e using operands_induction U with
  | h e ih =>
    rw [evUser_eq, ev]
    congr 1
    cases e with
    | num | name | str => rfl
    | unary op arg =>
      show nodeValue U M spectre noCalls (scopeEnv scope) (.unary op arg) [_] = _
      rw [ih arg (by simp [operands])]
      rfl
    | binary op left right =>
      show nodeValue U M spectre noCalls (scopeEnv scope) (.binary op left right) [_, _] = _
      rw [ih left (by simp [operands]), ih right (by simp [operands])]
      rfl
    | ternary cond a b =>
      show nodeValue U M spectre noCalls (scopeEnv scope) (.ternary cond a b) [_, _, _] = _
      rw [ih cond (by simp [operands]), ih a (by simp [operands]), ih b (by simp [operands])]
      rfl
    | call func args =>
      rw [nodeValue, raw]
      by_cases hfunc : isNodeFunc U func = true
      · rw [if_pos hfunc, if_pos hfunc]
      · rw [operands, if_neg hfunc] at ih ⊢
        rw [if_neg hfunc, if_neg hfunc, evArgs_eq_map, List.map_congr_left ih]
        rfl

/-- `inline` returns unless it comes to a call that is recursive or has the wrong number of arguments.  What it returns
holds no call that it expands, and evaluates in every scope to what the expression evaluates to when each call of a
user function is its body, the parameters bound to the arguments and every other name read where the call stands. -/
theorem inline_correct (funcs : Funcs) (e : Expr) :
    ((∃ err, inline U e funcs = .error err) ↔
      ∃ chain func args, ToExpand U funcs [] e chain func args ∧
        (func ∈ chain ∨ ∃ fn, userFunc U funcs func = some fn ∧ fn.params.length ≠ args.length)) ∧
    (∀ fuel, funcs.length ≤ fuel → expand U funcs fuel [] e = inline U e funcs) ∧
    ∀ r, inline U e funcs = .ok r →
      (∀ func args, .call func args ∈ walk U r → userFunc U funcs func = none) ∧
      ∀ fuel, funcs.length ≤ fuel → ∀ (dialect : Dialect) (scope : Str → Option Float) (v : Float),
        evaluate U M r scope dialect = .ok v ↔
          evUser U M dialect.isSpectre (userCalls U M funcs dialect.isSpectre fuel) (scopeEnv scope) e = .ok v := by
  have hfuel : ∀ fuel, funcs.length ≤ fuel → expand U funcs fuel [] e = inline U e funcs := fun fuel h =>
    expand_enough U (.nil funcs h) (.nil funcs le_rfl)
  refine ⟨⟨?_, ?_⟩, hfuel, ?_⟩
  · rintro ⟨err, herr⟩
    apply toExpand_of_expand_error U (.nil funcs le_rfl)
    rintro ⟨r, hr⟩
    rw [inline, hr] at herr
    cases herr
  · rintro ⟨chain, func, args, hcall, hrefused⟩
    have hnot := expand_error_of_toExpand U hcall hrefused funcs.length
    cases h : inline U e funcs with
    | ok r => exact absurd ⟨r, h⟩ hnot
    | error err => exact ⟨err, rfl⟩
  · intro r hr
    refine ⟨expand_noUserCalls U hr, ?_⟩
    intro fuel hle dialect scope v
    rw [← hfuel fuel hle] at hr
    rw [evaluate, ← evUser_noCalls]
    exact (evUser_expand U M hr (scopeEnv scope)).ok_iff.symm

/-- Calls whose bodies read every name that is no parameter from one scope, wherever the call stands. -/
def scopeCalls (funcs : Funcs) (spectre : Bool) (scope : Str → Result) : Nat → Calls
  | 0 => fun _ func _ => (userFunc U funcs func).map fun _ => .error (.evalError (.unknownFunction func))
  | fuel + 1 => fun _ func rs => (userFunc U funcs func).map fun fn =>
    evUser U M spectre (scopeCalls funcs spectre scope fuel) (fun name => (bound fn.params rs name).getD (scope name))
      fn.body

/-- `f(x) = g(1) + x` and `g(y) = y + x`: the `x` of `g` is what it is in `f`. -/
def nested : Funcs :=
  [(str "f", ⟨[str "x"], .binary .add (.call (str "g") [.num 1]) (.name (str "x"))⟩),
    (str "g", ⟨[str "y"], .binary .add (.name (str "y")) (.name (str "x"))⟩)]

def nestedScope (name : Str) : Option Float := if name = str "x" then some 5 else none

theorem inline_nested :
    (∃ r, inline .small (.call (str "f") [.num 10]) nested = .ok r ∧
      evaluate .small .small r nestedScope .hspice = .ok 21 ∧
      evUser .small .small false (scopeCalls .small .small nested false (scopeEnv nestedScope) nested.length)
        (scopeEnv nestedScope) (.call (str "f") [.num 10]) = .ok 16) ∧
    inline .small (.call (str "v") [.name (str "a")]) [(str "v", ⟨[str "a"], .name (str "a")⟩)] =
      .ok (.call (str "v") [.name (str "a")]) := by
  refine ⟨⟨.binary .add (.binary .add (.num 1) (.num 10)) (.num 10), ?_, ?_, ?_⟩, ?_⟩
  · rfl
  · decide +kernel
  · have hf : isNodeFunc .small (str "f") = false := by decide +kernel
    have hg : isNodeFunc .small (str "g") = false := by decide +kernel
    have hfn : userFunc .small nested (str "f") =
        some ⟨[str "x"], .binary .add (.call (str "g") [.num 1]) (.name (str "x"))⟩ := rfl
    have hgn : userFunc .small nested (str "g") =
        some ⟨[str "y"], .binary .add (.name (str "y")) (.name (str "x"))⟩ := rfl
    rw [show nested.length = 2 from rfl]
    simp only [evUser_eq, operands, nodeValue, scopeCalls, hf, hg, hfn, hgn, List.map_cons, List.map_nil,
      Option.map_some, Bool.false_eq_true, if_false]
    decide +kernel
  · rfl

end Vamos.Netlist.Expression
