import Sv2ghdl.Vamos.Netlist.Evaluate

/-!
# Constant folding

`transform` and `fold` of `vamos/netlist/expr.py`.  Folding evaluates every constant subexpression
with HSPICE's semantics, in every dialect, and keeps one that has no value as it is written.
-/

open Python

namespace Vamos.Netlist.Expression

variable (U : UnicodeData) (M : Libm)

/-- The number an expression is, if it is a `Num`. -/
def number? : Expr → Option Float
  | .num value => some value
  | _ => none

def known (e : Expr) : Bool := (number? e).isSome

/-- `foldable` -/
def foldable : Expr → Bool
  | .call func args => !isNodeFunc U func && args.all known
  | .unary _ arg => known arg
  | .binary _ left right => known left && known right
  | .ternary cond a b => known cond && known a && known b
  | _ => false

/-- The empty scope `{}`. -/
def noScope : Str → Option Float := fun _ => none

/-- The last case of `f`: a constant node becomes its value, unless it has none. -/
def foldConstant (e : Expr) : Except Raised Expr :=
  if foldable U e then
    match evaluate U M e noScope .hspice with
    | .ok value => .ok (.num value)
    | .error .keyError => .error .keyError
    | .error (.evalError _) => .ok e
  else .ok e

/-- `f` of `fold`, on a node whose children are folded. -/
def foldNode (scope : Str → Option Float) (e : Expr) : Except Raised Expr :=
  match e with
  | .num value => .ok (.num value)
  | .name name =>
    match scope name with
    | some value => .ok (if name ∈ reserved then .name name else .num value)
    | none => .ok (.name name)
  | .ternary (.num c) a b => .ok (if c != 0 then a else b)
  | .binary op (.num x) right =>
    if op = .and ∨ op = .or then
      if (x != 0) = decide (op = .or) then .ok (.num (truth (op = .or)))
      else
        match right with
        | .num y => .ok (.num (truth (y != 0)))
        | right => .ok (.binary op (.num x) right)
    else foldConstant U M (.binary op (.num x) right)
  | .call func [.num c, a, b] =>
    if func = str "if" then .ok (if c != 0 then a else b)
    else foldConstant U M (.call func [.num c, a, b])
  | e => foldConstant U M e

section

-- The equations that many lemmas unfold side by side are derived once here.
attribute [local simp] foldable foldConstant foldNode

end

/-- `fold`, without `strict`. -/
def fold (e : Expr) (scope : Str → Option Float) : Except Raised Expr :=
  transform U (foldNode U M scope) e

/-! ## What a node needs of its operands -/

/-- `r'` returns what `r` returns; where `r` raises, `r'` may do anything. -/
def Refines (r r' : Result) : Prop := ∀ v, r = .ok v → r' = .ok v

theorem Refines.refl (r : Result) : Refines r r := fun _ h => h

theorem Refines.trans {r r' r'' : Result} (h : Refines r r') (h' : Refines r' r'') :
    Refines r r'' := fun v hv => h' v (h v hv)

theorem finite_eq_ok {e : Expr} {r : Result} {v : Float} :
    finite e r = .ok v ↔ r = .ok v ∧ v.isFinite = true := by
  cases r with
  | error err => simp [finite]
  | ok x =>
    by_cases hx : x.isFinite = true
    · simp only [finite, if_pos hx, Except.ok.injEq]
      constructor
      · rintro rfl
        exact ⟨rfl, hx⟩
      · exact fun h => h.1
    · simp only [finite, if_neg hx, Except.ok.injEq, reduceCtorEq, false_iff]
      rintro ⟨rfl, h⟩
      exact hx h

theorem finite_refines {e e' : Expr} {r r' : Result} (h : Refines r r') :
    Refines (finite e r) (finite e' r') := by
  intro v hv
  rw [finite_eq_ok] at hv ⊢
  exact ⟨h v hv.1, hv.2⟩

theorem bind_eq_ok {α β : Type} {r : Except Raised α} {f : α → Except Raised β} {v : β} :
    (r >>= f) = .ok v ↔ ∃ x, r = .ok x ∧ f x = .ok v := by
  cases r with
  | error err => simp [bind, Except.bind]
  | ok x => simp [bind, Except.bind]

theorem quoted_eq_ok {e : Expr} {r : Value} {v : Float} : quoted e r = .ok v ↔ r = .ok v := by
  cases r <;> simp [quoted]

/-- A lazy `&&` or `||` returns what the strict one returns. -/
theorem binaryValue_lazy {op : BinaryOp} (hop : op = .and ∨ op = .or) (x y : Float) :
    binaryValue M op x y =
      .ok (if (x != 0) = decide (op = .or) then truth (op = .or) else truth (y != 0)) := by
  rcases hop with rfl | rfl
  · cases hx : x != 0 <;> simp [binaryValue, hx]
  · cases hx : x != 0 <;> simp [binaryValue, hx]

theorem evBinary_refines {spectre spectre' : Bool} (hs : spectre' = true → spectre = true)
    {op : BinaryOp} (e e' : Expr) {x x' y y' : Result} (hx : Refines x x') (hy : Refines y y') :
    Refines (evBinary M spectre op e x y) (evBinary M spectre' op e' x' y') := by
  intro v hv
  unfold evBinary at hv ⊢
  by_cases hlazy : (op = .and ∨ op = .or) ∧ !spectre
  · -- lazy on both sides
    have hlazy' : (op = .and ∨ op = .or) ∧ !spectre' := by
      refine ⟨hlazy.1, ?_⟩
      have := hlazy.2
      cases spectre' <;> simp_all
    rw [if_pos hlazy, bind_eq_ok] at hv
    rw [if_pos hlazy', bind_eq_ok]
    obtain ⟨a, ha, hv⟩ := hv
    refine ⟨a, hx a ha, ?_⟩
    split_ifs at hv ⊢
    · exact hv
    · rw [bind_eq_ok] at hv ⊢
      obtain ⟨b, hb, hv⟩ := hv
      exact ⟨b, hy b hb, hv⟩
  · rw [if_neg hlazy, bind_eq_ok] at hv
    obtain ⟨a, ha, hv⟩ := hv
    rw [bind_eq_ok] at hv
    obtain ⟨b, hb, hv⟩ := hv
    rw [quoted_eq_ok] at hv
    split_ifs with hlazy'
    · -- strict on the left and lazy on the right
      rw [bind_eq_ok]
      refine ⟨a, hx a ha, ?_⟩
      rw [binaryValue_lazy M hlazy'.1] at hv
      have hv := Except.ok.inj hv
      split_ifs at hv ⊢
      · rw [hv]
      · rw [bind_eq_ok]
        exact ⟨b, hy b hb, congrArg _ hv⟩
    · rw [bind_eq_ok]
      refine ⟨a, hx a ha, ?_⟩
      rw [bind_eq_ok]
      exact ⟨b, hy b hb, quoted_eq_ok.mpr hv⟩

theorem collect_refines {rs rs' : List Result} (h : List.Forall₂ Refines rs rs') (xs : List Float)
    (hxs : collect rs = .ok xs) : collect rs' = .ok xs := by
  induction h generalizing xs with
  | nil => exact hxs
  | cons hr _ ih =>
    rw [collect, bind_eq_ok] at hxs ⊢
    obtain ⟨x, hx, hxs⟩ := hxs
    refine ⟨x, hr x hx, ?_⟩
    rw [bind_eq_ok] at hxs ⊢
    obtain ⟨ys, hys, hxs⟩ := hxs
    exact ⟨ys, ih ys hys, hxs⟩

theorem evIf_refines {rs rs' : List Result} (h : List.Forall₂ Refines rs rs') :
    Refines (evIf rs) (evIf rs') := by
  intro v hv
  obtain _ | ⟨hc, _ | ⟨ha, _ | ⟨hb, _ | ⟨_, _⟩⟩⟩⟩ := h
  · simp [evIf] at hv
  · simp [evIf] at hv
  · simp [evIf] at hv
  · rw [evIf, bind_eq_ok] at hv ⊢
    obtain ⟨c, hc', hv⟩ := hv
    refine ⟨c, hc c hc', ?_⟩
    split_ifs at hv ⊢
    · exact ha v hv
    · exact hb v hv
  · simp [evIf] at hv

theorem evCall_refines {spectre spectre' : Bool} (hs : spectre' = true → spectre = true)
    {func : Str} {e e' : Expr} {rs rs' : List Result} (h : List.Forall₂ Refines rs rs') :
    Refines (evCall M spectre func e rs) (evCall M spectre' func e' rs') := by
  intro v hv
  unfold evCall at hv ⊢
  rw [← h.length_eq]
  cases hf : Builtin.ofName func with
  | none => simp [hf] at hv
  | some f =>
    simp only [hf] at hv ⊢
    by_cases harity : (!f.takes rs.length) = true
    · rw [if_pos harity] at hv
      simp at hv
    rw [if_neg harity] at hv ⊢
    by_cases hif : f = .cond
    · rw [if_pos hif] at hv ⊢
      exact evIf_refines h v hv
    rw [if_neg hif, bind_eq_ok] at hv ⊢
    obtain ⟨xs, hxs, hv⟩ := hv
    refine ⟨xs, collect_refines h xs hxs, ?_⟩
    by_cases hextra : f.isExtra = true
    · rw [if_pos hextra, quoted_eq_ok] at hv ⊢
      exact hv
    rw [if_neg hextra] at hv ⊢
    by_cases hdomain : (spectre && outsideDomain f (xs.headD 0)) = true
    · rw [if_pos hdomain] at hv
      simp at hv
    · rw [if_neg hdomain, quoted_eq_ok] at hv
      have hdomain' : ¬ (spectre' && outsideDomain f (xs.headD 0)) = true := by
        cases spectre' <;> simp_all
      rw [if_neg hdomain', quoted_eq_ok]
      exact hv

/-! ## Folding preserves the value -/

theorem raw_num (spectre : Bool) (scope : Str → Option Float) (x : Float) :
    raw U M spectre scope (.num x) = .ok x := rfl

theorem evArgs_eq_map (spectre : Bool) (scope : Str → Option Float) (args : List Expr) :
    evArgs U M spectre scope args = args.map (ev U M spectre scope) := by
  induction args with
  | nil => rfl
  | cons arg args ih => rw [evArgs, ih, List.map_cons, ev]

/-- A node evaluates alike wherever its operands do, and in HSPICE whenever in Spectre. -/
theorem raw_refines_unary {spectre spectre' : Bool} {scope scope' : Str → Option Float}
    {op : UnaryOp} {arg arg' : Expr}
    (h : Refines (ev U M spectre scope arg) (ev U M spectre' scope' arg')) :
    Refines (raw U M spectre scope (.unary op arg)) (raw U M spectre' scope' (.unary op arg')) := by
  intro v hv
  rw [raw, bind_eq_ok] at hv ⊢
  obtain ⟨x, hx, hv⟩ := hv
  exact ⟨x, h x hx, quoted_eq_ok.mpr (quoted_eq_ok.mp hv)⟩

theorem raw_refines_binary {spectre spectre' : Bool} (hs : spectre' = true → spectre = true)
    {scope scope' : Str → Option Float} {op : BinaryOp} {left left' right right' : Expr}
    (hl : Refines (ev U M spectre scope left) (ev U M spectre' scope' left'))
    (hr : Refines (ev U M spectre scope right) (ev U M spectre' scope' right')) :
    Refines (raw U M spectre scope (.binary op left right))
      (raw U M spectre' scope' (.binary op left' right')) :=
  evBinary_refines M hs _ _ hl hr

theorem raw_refines_ternary {spectre spectre' : Bool} {scope scope' : Str → Option Float}
    {cond cond' a a' b b' : Expr}
    (hc : Refines (ev U M spectre scope cond) (ev U M spectre' scope' cond'))
    (ha : Refines (ev U M spectre scope a) (ev U M spectre' scope' a'))
    (hb : Refines (ev U M spectre scope b) (ev U M spectre' scope' b')) :
    Refines (raw U M spectre scope (.ternary cond a b))
      (raw U M spectre' scope' (.ternary cond' a' b')) := by
  intro v hv
  rw [raw, bind_eq_ok] at hv ⊢
  obtain ⟨c, hc', hv⟩ := hv
  refine ⟨c, hc c hc', ?_⟩
  split_ifs at hv ⊢
  · exact ha v hv
  · exact hb v hv

theorem raw_refines_call {spectre spectre' : Bool} (hs : spectre' = true → spectre = true)
    {scope scope' : Str → Option Float} {func : Str} {args args' : List Expr}
    (h : List.Forall₂ (fun e e' => Refines (ev U M spectre scope e) (ev U M spectre' scope' e'))
      args args') :
    Refines (raw U M spectre scope (.call func args)) (raw U M spectre' scope' (.call func args')) := by
  intro v hv
  rw [raw] at hv ⊢
  split_ifs at hv ⊢
  rw [evArgs_eq_map] at hv ⊢
  refine evCall_refines M hs ?_ v hv
  rwa [List.forall₂_map_left_iff, List.forall₂_map_right_iff]

theorem known_eq {e : Expr} (h : known e = true) : ∃ x, e = .num x := by
  cases e with
  | num x => exact ⟨x, rfl⟩
  | _ => simp [known, number?] at h

/-- A number evaluates alike in every scope and dialect. -/
theorem ev_refines_of_known {e : Expr} (h : known e = true) (spectre spectre' : Bool)
    (scope scope' : Str → Option Float) :
    Refines (ev U M spectre scope e) (ev U M spectre' scope' e) := by
  obtain ⟨x, rfl⟩ := known_eq h
  exact Refines.refl _

/-- A constant node evaluates in HSPICE's dialect and the empty scope to what it evaluates to. -/
theorem evaluate_of_foldable {e : Expr} (h : foldable U e = true) (spectre : Bool)
    (scope : Str → Option Float) :
    Refines (ev U M spectre scope e) (evaluate U M e noScope .hspice) := by
  have hs : (Dialect.hspice.isSpectre = true → spectre = true) := by simp [Dialect.isSpectre]
  have hknown : ∀ c, known c = true →
      Refines (ev U M spectre scope c) (ev U M Dialect.hspice.isSpectre noScope c) :=
    fun c hc => ev_refines_of_known U M hc _ _ _ _
  refine finite_refines ?_
  cases e with
  | unary op arg => exact raw_refines_unary U M (hknown _ h)
  | binary op left right =>
    simp only [foldable, Bool.and_eq_true] at h
    exact raw_refines_binary U M hs (hknown _ h.1) (hknown _ h.2)
  | ternary cond a b =>
    simp only [foldable, Bool.and_eq_true] at h
    exact raw_refines_ternary U M (hknown _ h.1.1) (hknown _ h.1.2) (hknown _ h.2)
  | call func args =>
    simp only [foldable, Bool.and_eq_true, List.all_eq_true] at h
    refine raw_refines_call U M hs ?_
    rw [List.forall₂_same]
    exact fun arg harg => hknown arg (h.2 arg harg)
  | num => simp [foldable] at h
  | name => simp [foldable] at h
  | str => simp [foldable] at h

theorem foldConstant_refines {spectre : Bool} {scope : Str → Option Float} {e e' : Expr}
    (h : foldConstant U M e = .ok e') :
    Refines (ev U M spectre scope e) (ev U M spectre scope e') := by
  unfold foldConstant at h
  split_ifs at h with hfold
  · intro v hv
    have hconst := evaluate_of_foldable U M hfold spectre scope v hv
    rw [hconst] at h
    obtain rfl : Expr.num v = e' := by simpa using h
    exact finite_eq_ok.mpr ⟨rfl, (finite_eq_ok.mp hv).2⟩
  · obtain rfl : e = e' := by simpa using h
    exact Refines.refl _

theorem ev_num_eq_ok {spectre : Bool} {scope : Str → Option Float} {x v : Float} :
    ev U M spectre scope (.num x) = .ok v ↔ x = v ∧ v.isFinite = true := by
  rw [ev, finite_eq_ok, raw_num, Except.ok.injEq]

/-- A decided branch is all that is evaluated. -/
theorem branch_refines {spectre : Bool} {scope : Str → Option Float} {e a b : Expr} {c : Float}
    (h : Refines (raw U M spectre scope e) (do
      let c ← ev U M spectre scope (.num c)
      if c != 0 then ev U M spectre scope a else ev U M spectre scope b)) :
    Refines (ev U M spectre scope e) (ev U M spectre scope (if c != 0 then a else b)) := by
  intro v hv
  have hraw := h v (finite_eq_ok.mp hv).1
  rw [bind_eq_ok] at hraw
  obtain ⟨c', hc, hraw⟩ := hraw
  obtain ⟨rfl, -⟩ := (ev_num_eq_ok U M).mp hc
  split_ifs at hraw ⊢
  · exact hraw
  · exact hraw

/-- What `&&` or `||` gives when its left operand is a number. -/
theorem ev_lazy_num {spectre : Bool} {scope : Str → Option Float} {op : BinaryOp}
    (hop : op = .and ∨ op = .or) {x v : Float} {right : Expr}
    (h : ev U M spectre scope (.binary op (.num x) right) = .ok v) :
    if (x != 0) = decide (op = .or) then v = truth (op = .or)
    else ∃ y, ev U M spectre scope right = .ok y ∧ v = truth (y != 0) := by
  have hlazy : false = true → spectre = true := fun h => absurd h Bool.false_ne_true
  have hraw := evBinary_refines M hlazy _ (.binary op (.num x) right) (Refines.refl _) (Refines.refl _) v
    (finite_eq_ok.mp h).1
  rw [evBinary, if_pos ⟨hop, rfl⟩, bind_eq_ok] at hraw
  obtain ⟨x', hx, hraw⟩ := hraw
  obtain ⟨rfl, -⟩ := (ev_num_eq_ok U M).mp hx
  split_ifs at hraw ⊢
  · exact (Except.ok.inj hraw).symm
  · rw [bind_eq_ok] at hraw
    obtain ⟨y, hy, hraw⟩ := hraw
    exact ⟨y, hy, (Except.ok.inj hraw).symm⟩

theorem truth_isFinite (b : Bool) : (truth b).isFinite = true := by
  cases b <;> rfl

theorem isNodeFunc_if : isNodeFunc U (str "if") = false := rfl

theorem raw_if_refines {spectre : Bool} {scope : Str → Option Float} {c a b : Expr} :
    Refines (raw U M spectre scope (.call (str "if") [c, a, b])) (do
      let c ← ev U M spectre scope c
      if c != 0 then ev U M spectre scope a else ev U M spectre scope b) := by
  intro v hv
  have hname : Builtin.ofName (str "if") = some .cond := by decide
  rw [raw, if_neg (by simp [isNodeFunc_if])] at hv
  simp only [evCall, hname] at hv
  exact hv

/-- Folding one node preserves its value, in the scopes that extend the one it folds with. -/
theorem foldNode_refines {spectre : Bool} {scope₀ scope : Str → Option Float}
    (hscope : ∀ n x, scope₀ n = some x → scope n = some x) {e e' : Expr}
    (h : foldNode U M scope₀ e = .ok e') :
    Refines (ev U M spectre scope e) (ev U M spectre scope e') := by
  unfold foldNode at h
  split at h
  · -- a number
    obtain rfl := Except.ok.inj h
    exact Refines.refl _
  · -- a name
    rename_i name
    split at h
    · rename_i value hvalue
      obtain rfl := Except.ok.inj h
      split_ifs with hres
      · exact Refines.refl _
      · intro v hv
        obtain ⟨hraw, hfin⟩ := finite_eq_ok.mp hv
        rw [raw, if_neg hres, hscope name value hvalue] at hraw
        exact (ev_num_eq_ok U M).mpr ⟨Except.ok.inj hraw, hfin⟩
    · obtain rfl := Except.ok.inj h
      exact Refines.refl _
  · -- `?:` with a constant condition
    obtain rfl := Except.ok.inj h
    exact branch_refines U M (Refines.refl _)
  · -- `&&` or `||` with a constant left operand
    rename_i op x right
    split_ifs at h with hop hdecides
    · obtain rfl := Except.ok.inj h
      intro v hv
      have hvalue := ev_lazy_num U M hop hv
      rw [if_pos hdecides] at hvalue
      rw [hvalue]
      exact (ev_num_eq_ok U M).mpr ⟨rfl, truth_isFinite _⟩
    · split at h
      · rename_i y
        obtain rfl := Except.ok.inj h
        intro v hv
        have hvalue := ev_lazy_num U M hop hv
        rw [if_neg hdecides] at hvalue
        obtain ⟨y', hy, rfl⟩ := hvalue
        obtain ⟨rfl, -⟩ := (ev_num_eq_ok U M).mp hy
        exact (ev_num_eq_ok U M).mpr ⟨rfl, truth_isFinite _⟩
      · obtain rfl := Except.ok.inj h
        exact Refines.refl _
    · exact foldConstant_refines U M h
  · -- `if()` with a constant condition
    rename_i func c a b
    by_cases hif : func = str "if"
    · rw [if_pos hif] at h
      subst hif
      obtain rfl := Except.ok.inj h
      exact branch_refines U M (raw_if_refines U M)
    · rw [if_neg hif] at h
      exact foldConstant_refines U M h
  · exact foldConstant_refines U M h

mutual

/-- Folding preserves the value, in the scopes that extend the one it folds with. -/
theorem fold_refines {spectre : Bool} {scope₀ scope : Str → Option Float}
    (hscope : ∀ n x, scope₀ n = some x → scope n = some x) (e e' : Expr)
    (h : transform U (foldNode U M scope₀) e = .ok e') :
    Refines (ev U M spectre scope e) (ev U M spectre scope e') := by
  cases e with
  | num x => exact foldNode_refines U M hscope h
  | name n => exact foldNode_refines U M hscope h
  | str t => exact foldNode_refines U M hscope h
  | call func args =>
    rw [transform] at h
    split_ifs at h with hnode
    · exact foldNode_refines U M hscope h
    · rw [bind_eq_ok] at h
      obtain ⟨args', hargs, h⟩ := h
      refine Refines.trans (finite_refines ?_) (foldNode_refines U M hscope h)
      exact raw_refines_call U M id (foldArgs_refines hscope args args' hargs)
  | unary op arg =>
    rw [transform, bind_eq_ok] at h
    obtain ⟨arg', harg, h⟩ := h
    refine Refines.trans (finite_refines ?_) (foldNode_refines U M hscope h)
    exact raw_refines_unary U M (fold_refines hscope arg arg' harg)
  | binary op left right =>
    rw [transform, bind_eq_ok] at h
    obtain ⟨left', hleft, h⟩ := h
    rw [bind_eq_ok] at h
    obtain ⟨right', hright, h⟩ := h
    refine Refines.trans (finite_refines ?_) (foldNode_refines U M hscope h)
    exact raw_refines_binary U M id (fold_refines hscope left left' hleft)
      (fold_refines hscope right right' hright)
  | ternary cond a b =>
    rw [transform, bind_eq_ok] at h
    obtain ⟨cond', hcond, h⟩ := h
    rw [bind_eq_ok] at h
    obtain ⟨a', ha, h⟩ := h
    rw [bind_eq_ok] at h
    obtain ⟨b', hb, h⟩ := h
    refine Refines.trans (finite_refines ?_) (foldNode_refines U M hscope h)
    exact raw_refines_ternary U M (fold_refines hscope cond cond' hcond)
      (fold_refines hscope a a' ha) (fold_refines hscope b b' hb)

theorem foldArgs_refines {spectre : Bool} {scope₀ scope : Str → Option Float}
    (hscope : ∀ n x, scope₀ n = some x → scope n = some x) (args args' : List Expr)
    (h : transformArgs U (foldNode U M scope₀) args = .ok args') :
    List.Forall₂ (fun e e' => Refines (ev U M spectre scope e) (ev U M spectre scope e'))
      args args' := by
  cases args with
  | nil =>
    obtain rfl := Except.ok.inj h
    exact .nil
  | cons arg args =>
    rw [transformArgs, bind_eq_ok] at h
    obtain ⟨arg', harg, h⟩ := h
    rw [bind_eq_ok] at h
    obtain ⟨args', hargs, h⟩ := h
    obtain rfl := Except.ok.inj h
    exact .cons (fold_refines hscope arg arg' harg) (foldArgs_refines hscope args args' hargs)

end

end Vamos.Netlist.Expression
