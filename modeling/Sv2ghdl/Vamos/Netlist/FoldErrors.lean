import Sv2ghdl.Vamos.Netlist.Fold

/-!
# When folding returns

`fold` keeps a constant that fails to evaluate, so the only exception it lets through is the
`KeyError` of a message: `_TPREC` has no level for `^`, which the evaluator accepts.
-/

open Python

namespace Vamos.Netlist.Expression

variable (U : UnicodeData) (M : Libm)

/-! ## What folding knows -/

mutual

/-- The number an expression is known to be from the scope alone, its unevaluated branches aside. -/
def settled (scope : Str → Option Float) : Expr → Option Float
  | .num value => some value
  | .name name => if name ∈ reserved then none else scope name
  | .str _ => none
  | .unary op arg => do
    let x ← settled scope arg
    (evaluate U M (.unary op (.num x)) noScope .hspice).toOption
  | .binary op left right => do
    let x ← settled scope left
    if op = .and ∨ op = .or then
      if (x != 0) = decide (op = .or) then some (truth (op = .or))
      else
        let y ← settled scope right
        some (truth (y != 0))
    else
      let y ← settled scope right
      (evaluate U M (.binary op (.num x) (.num y)) noScope .hspice).toOption
  | .ternary cond a b => do
    let c ← settled scope cond
    if c != 0 then settled scope a else settled scope b
  | .call func args =>
    if isNodeFunc U func then none
    else if func = str "if" then
      match args with
      | [cond, a, b] => do
        let c ← settled scope cond
        if c != 0 then settled scope a else settled scope b
      | args => do
        let xs ← settledArgs scope args
        (evaluate U M (.call func (xs.map .num)) noScope .hspice).toOption
    else do
      let xs ← settledArgs scope args
      (evaluate U M (.call func (xs.map .num)) noScope .hspice).toOption

def settledArgs (scope : Str → Option Float) : List Expr → Option (List Float)
  | [] => some []
  | arg :: args => do
    let x ← settled scope arg
    let xs ← settledArgs scope args
    some (x :: xs)

end

/-- Whether HSPICE's power has a finite value. -/
def PowerReturns (x y : Float) : Prop := ∃ z, hspicePower M x y = .ok z ∧ z.isFinite = true

mutual

/-- No `^` of two finite constants fails or overflows, in a branch that is evaluated or not. -/
def PowersReturn (scope : Str → Option Float) : Expr → Prop
  | .num _ => True
  | .name _ => True
  | .str _ => True
  | .unary _ arg => PowersReturn scope arg
  | .binary op left right =>
    PowersReturn scope left ∧ PowersReturn scope right ∧
      (op = .caret → ∀ x y, settled U M scope left = some x → settled U M scope right = some y →
        x.isFinite = true → y.isFinite = true → PowerReturns M x y)
  | .ternary cond a b =>
    PowersReturn scope cond ∧ PowersReturn scope a ∧ PowersReturn scope b
  | .call func args => isNodeFunc U func = true ∨ PowersReturnArgs scope args

def PowersReturnArgs (scope : Str → Option Float) : List Expr → Prop
  | [] => True
  | arg :: args => PowersReturn scope arg ∧ PowersReturnArgs scope args

end

/-! ## Messages that can be built -/

theorem text_of_known {e : Expr} (h : known e = true) (L : Levels) (need : Nat) :
    ∃ s, text L e need = some s := by
  obtain ⟨x, rfl⟩ := known_eq h
  exact ⟨_, rfl⟩

theorem texts_of_known {args : List Expr} (h : ∀ arg ∈ args, known arg = true) (L : Levels) :
    ∃ ss, texts L args = some ss := by
  induction args with
  | nil => exact ⟨[], rfl⟩
  | cons arg args ih =>
    obtain ⟨s, hs⟩ := text_of_known (h arg (by simp)) L 0
    obtain ⟨ss, hss⟩ := ih fun a ha => h a (by simp [ha])
    exact ⟨s :: ss, by rw [texts, hs, hss]; rfl⟩

theorem hspiceLevels_binary {op : BinaryOp} (h : op ≠ .caret) :
    ∃ p, hspiceLevels.binary op = some p := by
  cases op with
  | caret => exact absurd rfl h
  | _ => exact ⟨_, rfl⟩

/-- A constant node has a text, unless its operator is `^`. -/
theorem toText_of_foldable {e : Expr} (h : foldable U e = true)
    (hcaret : ∀ left right, e ≠ .binary .caret left right) : ∃ s, toText e .hspice = some s := by
  cases e with
  | unary op arg =>
    obtain ⟨s, hs⟩ := text_of_known h hspiceLevels (hspiceLevels.unary + 1)
    exact ⟨_, by rw [toText, Dialect.levels, text, hs]; rfl⟩
  | binary op left right =>
    simp only [foldable, Bool.and_eq_true] at h
    have hop : op ≠ .caret := by
      rintro rfl
      exact hcaret left right rfl
    obtain ⟨p, hp⟩ := hspiceLevels_binary hop
    obtain ⟨x, rfl⟩ := known_eq h.1
    obtain ⟨y, rfl⟩ := known_eq h.2
    by_cases hpow : op = .power
    · exact ⟨_, by rw [toText, Dialect.levels, text, hp]; simp only [if_pos hpow]; rfl⟩
    · exact ⟨_, by rw [toText, Dialect.levels, text, hp]; simp only [if_neg hpow]; rfl⟩
  | ternary cond a b =>
    simp only [foldable, Bool.and_eq_true] at h
    obtain ⟨x, rfl⟩ := known_eq h.1.1
    obtain ⟨y, rfl⟩ := known_eq h.1.2
    obtain ⟨z, rfl⟩ := known_eq h.2
    exact ⟨_, rfl⟩
  | call func args =>
    simp only [foldable, Bool.and_eq_true, List.all_eq_true] at h
    obtain ⟨ss, hss⟩ := texts_of_known h.2 hspiceLevels
    have hspectre : ¬ (hspiceLevels.spectre = true ∧ func = str "cpow") := by simp [hspiceLevels]
    refine ⟨func ++ ('(' : CodePoint) :: commaJoin ss ++ [(')' : CodePoint)], ?_⟩
    rw [toText, Dialect.levels, text.eq_def]
    simp only [if_neg hspectre, hss]
    rfl
  | num => simp [foldable] at h
  | name => simp [foldable] at h
  | str => simp [foldable] at h

/-- A result that is not the `KeyError` of a message. -/
def NoKeyError {α : Type} (r : Except Raised α) : Prop := r ≠ .error .keyError

theorem quote_noKeyError {e : Expr} {s : Str} (h : toText e .hspice = some s)
    (message : Str → EvalError) : quote e message ≠ .keyError := by
  simp [quote, h]

theorem NoKeyError.bind {α β : Type} {r : Except Raised α} {f : α → Except Raised β}
    (hr : NoKeyError r) (hf : ∀ x, NoKeyError (f x)) : NoKeyError (r >>= f) := by
  cases r with
  | error err =>
    intro h
    have herr : err = .keyError := Except.error.inj h
    exact hr (congrArg _ herr)
  | ok x => exact hf x

theorem NoKeyError.ok {α : Type} (x : α) : NoKeyError (.ok x) := by simp [NoKeyError]

theorem NoKeyError.quoted {e : Expr} {s : Str} (h : toText e .hspice = some s) (r : Value) :
    NoKeyError (quoted e r) := by
  cases r with
  | ok x => exact .ok x
  | error message =>
    intro hr
    exact quote_noKeyError h message (by simpa [Expression.quoted] using hr)

theorem NoKeyError.finite {e : Expr} {s : Str} (h : toText e .hspice = some s) {r : Result}
    (hr : NoKeyError r) : NoKeyError (finite e r) := by
  cases r with
  | error err => exact hr
  | ok x =>
    rw [Expression.finite]
    split_ifs
    · exact .ok x
    · intro hx
      exact quote_noKeyError h .notFinite (by simpa using hx)

theorem NoKeyError.known {e : Expr} (h : known e = true) (spectre : Bool)
    (scope : Str → Option Float) : NoKeyError (ev U M spectre scope e) := by
  obtain ⟨x, rfl⟩ := known_eq h
  exact NoKeyError.finite (s := numText x 0) rfl (.ok x)

theorem NoKeyError.collect {rs : List Result} (h : ∀ r ∈ rs, NoKeyError r) :
    NoKeyError (collect rs) := by
  induction rs with
  | nil => exact .ok []
  | cons r rs ih =>
    refine NoKeyError.bind (h r (by simp)) fun x => ?_
    exact NoKeyError.bind (ih fun r' hr' => h r' (by simp [hr'])) fun xs => .ok _

theorem NoKeyError.evIf {rs : List Result} (h : ∀ r ∈ rs, NoKeyError r) : NoKeyError (evIf rs) := by
  unfold Expression.evIf
  split
  · rename_i c a b
    refine NoKeyError.bind (h c (by simp)) fun x => ?_
    split_ifs
    · exact h a (by simp)
    · exact h b (by simp)
  · simp [NoKeyError]

theorem NoKeyError.evCall {e : Expr} {s : Str} (h : toText e .hspice = some s) {spectre : Bool}
    {func : Str} {rs : List Result} (hrs : ∀ r ∈ rs, NoKeyError r) :
    NoKeyError (evCall M spectre func e rs) := by
  have hquote : ∀ message, NoKeyError (.error (quote e message) : Result) := by
    intro message hm
    exact quote_noKeyError h message (by simpa using hm)
  unfold Expression.evCall
  split
  · simp [NoKeyError]
  · split
    · exact hquote _
    split
    · exact NoKeyError.evIf hrs
    refine NoKeyError.bind (NoKeyError.collect hrs) fun xs => ?_
    split
    · exact NoKeyError.quoted h _
    split
    · exact hquote _
    · exact NoKeyError.quoted h _

theorem NoKeyError.evBinary {e : Expr} {s : Str} (h : toText e .hspice = some s) {spectre : Bool}
    {op : BinaryOp} {x y : Result} (hx : NoKeyError x) (hy : NoKeyError y) :
    NoKeyError (evBinary M spectre op e x y) := by
  unfold Expression.evBinary
  split_ifs
  · refine NoKeyError.bind hx fun a => ?_
    split_ifs
    · exact .ok _
    · exact NoKeyError.bind hy fun b => .ok _
  · exact NoKeyError.bind hx fun a => NoKeyError.bind hy fun b => NoKeyError.quoted h _

/-- The evaluation of a constant node raises no `KeyError`, unless its operator is `^`. -/
theorem NoKeyError.evaluate {e : Expr} (h : foldable U e = true)
    (hcaret : ∀ left right, e ≠ .binary .caret left right) :
    NoKeyError (evaluate U M e noScope .hspice) := by
  obtain ⟨s, hs⟩ := toText_of_foldable U h hcaret
  refine NoKeyError.finite hs ?_
  cases e with
  | unary op arg =>
    exact NoKeyError.bind (NoKeyError.known U M h _ _) fun x => NoKeyError.quoted hs _
  | binary op left right =>
    simp only [foldable, Bool.and_eq_true] at h
    exact NoKeyError.evBinary M hs (NoKeyError.known U M h.1 _ _) (NoKeyError.known U M h.2 _ _)
  | ternary cond a b =>
    simp only [foldable, Bool.and_eq_true] at h
    refine NoKeyError.bind (NoKeyError.known U M h.1.1 _ _) fun x => ?_
    split_ifs
    · exact NoKeyError.known U M h.1.2 _ _
    · exact NoKeyError.known U M h.2 _ _
  | call func args =>
    simp only [foldable, Bool.and_eq_true, List.all_eq_true, Bool.not_eq_true'] at h
    rw [raw, if_neg (by simp [h.1]), evArgs_eq_map]
    refine NoKeyError.evCall M hs fun r hr => ?_
    obtain ⟨arg, harg, rfl⟩ := List.mem_map.mp hr
    exact NoKeyError.known U M (h.2 arg harg) _ _
  | num => simp [foldable] at h
  | name => simp [foldable] at h
  | str => simp [foldable] at h

/-! ## The node that fails -/

/-- Whether a node with folded operands is not a `^` whose power fails. -/
def PowerNode (e : Expr) : Prop :=
  ∀ x y, e = .binary .caret (.num x) (.num y) → x.isFinite = true → y.isFinite = true →
    PowerReturns M x y

theorem evaluate_caret {x y : Float} (hx : x.isFinite = true) (hy : y.isFinite = true) :
    evaluate U M (.binary .caret (.num x) (.num y)) noScope .hspice =
      finite (.binary .caret (.num x) (.num y))
        (quoted (.binary .caret (.num x) (.num y)) (guarded (hspicePower M x y))) := by
  have hfx : finite (.num x) (.ok x) = .ok x := finite_eq_ok.mpr ⟨rfl, hx⟩
  have hfy : finite (.num y) (.ok y) = .ok y := finite_eq_ok.mpr ⟨rfl, hy⟩
  rw [evaluate, ev, raw, raw_num, raw_num, hfx, hfy]
  rfl

theorem evaluate_caret_noKeyError (x y : Float) :
    NoKeyError (evaluate U M (.binary .caret (.num x) (.num y)) noScope .hspice) ↔
      (x.isFinite = true → y.isFinite = true → PowerReturns M x y) := by
  have hkey : ∀ message, quote (.binary .caret (.num x) (.num y)) message = .keyError :=
    fun _ => rfl
  by_cases hx : x.isFinite = true
  · by_cases hy : y.isFinite = true
    · rw [evaluate_caret U M hx hy]
      cases hp : hspicePower M x y with
      | error exc => simp [guarded, quoted, finite, hkey, NoKeyError, hx, hy, PowerReturns, hp]
      | ok z =>
        by_cases hz : z.isFinite = true
        · simp [guarded, quoted, finite, NoKeyError, PowerReturns, hp, hz]
        · simp [guarded, quoted, finite, hkey, NoKeyError, hx, hy, PowerReturns, hp, hz]
    · have hfx : finite (.num x) (.ok x) = .ok x := finite_eq_ok.mpr ⟨rfl, hx⟩
      have hfy : finite (.num y) (.ok y) = .error (quote (.num y) .notFinite) := if_neg hy
      rw [evaluate, ev, raw, raw_num, raw_num, hfx, hfy]
      simp [hy, NoKeyError, evBinary, finite, quote, toText, text, bind, Except.bind]
  · have hfx : finite (.num x) (.ok x) = .error (quote (.num x) .notFinite) := if_neg hx
    rw [evaluate, ev, raw, raw_num, raw_num, hfx]
    simp [hx, NoKeyError, evBinary, finite, quote, toText, text, bind, Except.bind]

theorem foldConstant_ok_iff (e : Expr) :
    (∃ e', foldConstant U M e = .ok e') ↔ PowerNode M e := by
  by_cases hfold : foldable U e = true
  · have hok : (∃ e', foldConstant U M e = .ok e') ↔
        NoKeyError (evaluate U M e noScope .hspice) := by
      unfold foldConstant
      rw [if_pos hfold]
      rcases evaluate U M e noScope .hspice with (_ | _) | v <;> simp [NoKeyError]
    rw [hok]
    by_cases hcaret : ∃ left right, e = .binary .caret left right
    · obtain ⟨left, right, rfl⟩ := hcaret
      simp only [foldable, Bool.and_eq_true] at hfold
      obtain ⟨x, rfl⟩ := known_eq hfold.1
      obtain ⟨y, rfl⟩ := known_eq hfold.2
      rw [evaluate_caret_noKeyError]
      constructor
      · intro h x' y' he
        cases he
        exact h
      · exact fun h => h x y rfl
    · have hne : ∀ left right, e ≠ .binary .caret left right :=
        fun left right he => hcaret ⟨left, right, he⟩
      exact iff_of_true (NoKeyError.evaluate U M hfold hne) fun x y he => absurd he (hne _ _)
  · refine iff_of_true ⟨e, if_neg hfold⟩ fun x y he => ?_
    subst he
    exact absurd rfl hfold

theorem foldNode_ok_iff (scope : Str → Option Float) (e : Expr) :
    (∃ e', foldNode U M scope e = .ok e') ↔ PowerNode M e := by
  unfold foldNode
  split
  · exact iff_of_true ⟨_, rfl⟩ fun x y he => by cases he
  · refine iff_of_true ?_ fun x y he => by cases he
    split
    · exact ⟨_, rfl⟩
    · exact ⟨_, rfl⟩
  · exact iff_of_true ⟨_, rfl⟩ fun x y he => by cases he
  · rename_i op x right
    by_cases hop : op = .and ∨ op = .or
    · rw [if_pos hop]
      refine iff_of_true ?_ fun x' y' he => by cases he; simp at hop
      split
      · exact ⟨_, rfl⟩
      · split
        · exact ⟨_, rfl⟩
        · exact ⟨_, rfl⟩
    · rw [if_neg hop]
      exact foldConstant_ok_iff U M _
  · rename_i func c a b
    by_cases hif : func = str "if"
    · rw [if_pos hif]
      exact iff_of_true ⟨_, rfl⟩ fun x y he => by cases he
    · rw [if_neg hif]
      exact foldConstant_ok_iff U M _
  · exact foldConstant_ok_iff U M _

/-! ## The number a folded expression is -/

theorem number_foldConstant {e e' : Expr} (h : foldConstant U M e = .ok e')
    (hnum : number? e = none) :
    number? e' = if foldable U e then (evaluate U M e noScope .hspice).toOption else none := by
  unfold foldConstant at h
  split_ifs at h ⊢ with hfold
  · cases hev : evaluate U M e noScope .hspice with
    | ok v =>
      rw [hev] at h
      obtain rfl := Except.ok.inj h
      rfl
    | error err =>
      rw [hev] at h
      cases err with
      | keyError => simp at h
      | evalError _ =>
        obtain rfl := Except.ok.inj h
        exact hnum
  · obtain rfl := Except.ok.inj h
    exact hnum

theorem known_eq_false {e : Expr} (h : number? e = none) : known e = false := by
  simp [known, h]

theorem eq_num_of_number {e : Expr} {x : Float} (h : number? e = some x) : e = .num x := by
  cases e with
  | num y => exact congrArg _ (Option.some.inj h)
  | _ => simp [number?] at h

theorem number_foldNode_unary {scope : Str → Option Float} {op : UnaryOp} {arg arg' e' : Expr}
    (h : foldNode U M scope (.unary op arg') = .ok e')
    (harg : number? arg' = settled U M scope arg) :
    number? e' = settled U M scope (.unary op arg) := by
  rw [number_foldConstant U M h rfl, settled, ← harg]
  cases hn : number? arg' with
  | none => simp [foldable, known_eq_false hn]
  | some x =>
    obtain rfl := eq_num_of_number hn
    rfl

theorem number_foldNode_binary {scope : Str → Option Float} {op : BinaryOp}
    {left left' right right' e' : Expr}
    (h : foldNode U M scope (.binary op left' right') = .ok e')
    (hleft : number? left' = settled U M scope left)
    (hright : number? right' = settled U M scope right) :
    number? e' = settled U M scope (.binary op left right) := by
  rw [settled, ← hleft, ← hright]
  cases hl : number? left' with
  | none =>
    have hnode : foldNode U M scope (.binary op left' right') =
        foldConstant U M (.binary op left' right') := by
      cases left' with
      | num => simp [number?] at hl
      | _ => rfl
    rw [hnode] at h
    rw [number_foldConstant U M h rfl]
    simp [foldable, known_eq_false hl]
  | some x =>
    obtain rfl := eq_num_of_number hl
    simp only [foldNode] at h
    by_cases hop : op = .and ∨ op = .or
    · rw [if_pos hop] at h
      simp only [Option.bind_eq_bind, Option.bind_some, if_pos hop]
      split_ifs at h ⊢ with hdecides
      · obtain rfl := Except.ok.inj h
        rfl
      · cases hr : number? right' with
        | none =>
          cases right' with
          | num => simp [number?] at hr
          | _ =>
            obtain rfl := Except.ok.inj h
            rfl
        | some y =>
          obtain rfl := eq_num_of_number hr
          obtain rfl := Except.ok.inj h
          rfl
    · rw [if_neg hop] at h
      simp only [Option.bind_eq_bind, Option.bind_some, if_neg hop]
      rw [number_foldConstant U M h rfl]
      cases hr : number? right' with
      | none => simp [foldable, known_eq_false hr]
      | some y =>
        obtain rfl := eq_num_of_number hr
        rfl

theorem number_foldNode_ternary {scope : Str → Option Float} {cond cond' a a' b b' e' : Expr}
    (h : foldNode U M scope (.ternary cond' a' b') = .ok e')
    (hcond : number? cond' = settled U M scope cond) (ha : number? a' = settled U M scope a)
    (hb : number? b' = settled U M scope b) :
    number? e' = settled U M scope (.ternary cond a b) := by
  rw [settled, ← hcond, ← ha, ← hb]
  cases hc : number? cond' with
  | none =>
    have hnode : foldNode U M scope (.ternary cond' a' b') =
        foldConstant U M (.ternary cond' a' b') := by
      cases cond' with
      | num => simp [number?] at hc
      | _ => rfl
    rw [hnode] at h
    rw [number_foldConstant U M h rfl]
    simp [foldable, known_eq_false hc]
  | some c =>
    obtain rfl := eq_num_of_number hc
    obtain rfl := Except.ok.inj h
    simp only [Option.bind_eq_bind, Option.bind_some]
    split <;> rfl

def numbers? : List Expr → Option (List Float)
  | [] => some []
  | e :: es => do
    let x ← number? e
    let xs ← numbers? es
    some (x :: xs)

theorem eq_map_num_of_numbers {es : List Expr} {xs : List Float} (h : numbers? es = some xs) :
    es = xs.map .num := by
  induction es generalizing xs with
  | nil =>
    obtain rfl := Option.some.inj h
    rfl
  | cons e es ih =>
    rw [numbers?] at h
    simp only [Option.bind_eq_bind, Option.bind_eq_some_iff] at h
    obtain ⟨x, hx, ys, hys, h⟩ := h
    obtain rfl := Option.some.inj h
    rw [eq_num_of_number hx, ih hys, List.map_cons]

theorem all_known_of_numbers_none {es : List Expr} (h : numbers? es = none) :
    es.all known = false := by
  induction es with
  | nil => simp [numbers?] at h
  | cons e es ih =>
    rw [List.all_cons]
    cases he : number? e with
    | none => rw [known_eq_false he, Bool.false_and]
    | some x =>
      cases hes : numbers? es with
      | none => rw [ih hes, Bool.and_false]
      | some xs => simp [numbers?, he, hes] at h

theorem settledArgs_eq {scope : Str → Option Float} {args args' : List Expr}
    (h : List.Forall₂ (fun arg arg' => number? arg' = settled U M scope arg) args args') :
    settledArgs U M scope args = numbers? args' := by
  induction h with
  | nil => rfl
  | cons hx _ ih => rw [settledArgs, numbers?, ih, hx]

theorem all_known_map_num (xs : List Float) : (xs.map Expr.num).all known = true := by
  simp [known, number?]

theorem number_foldConstant_call {scope : Str → Option Float} {func : Str}
    {args args' : List Expr} {e' : Expr} (hfunc : isNodeFunc U func = false)
    (h : foldConstant U M (.call func args') = .ok e')
    (hargs : List.Forall₂ (fun arg arg' => number? arg' = settled U M scope arg) args args') :
    number? e' = (do
      let xs ← settledArgs U M scope args
      (evaluate U M (.call func (xs.map .num)) noScope .hspice).toOption) := by
  rw [number_foldConstant U M h rfl, settledArgs_eq U M hargs]
  cases hn : numbers? args' with
  | none => simp [foldable, hfunc, all_known_of_numbers_none hn]
  | some xs =>
    obtain rfl := eq_map_num_of_numbers hn
    rw [if_pos (by rw [foldable, hfunc, all_known_map_num]; rfl)]
    rfl

/-- Only an `if()` whose condition is a number is not folded as any other call. -/
theorem foldNode_call {scope : Str → Option Float} {func : Str} {args : List Expr}
    (h : func = str "if" → ∀ c a b, args ≠ [.num c, a, b]) :
    foldNode U M scope (.call func args) = foldConstant U M (.call func args) := by
  unfold foldNode
  split
  · rename_i heq; cases heq
  · rename_i heq; cases heq
  · rename_i heq; cases heq
  · rename_i heq; cases heq
  · rename_i func' c a b heq
    cases heq
    rw [if_neg fun hif => h hif c a b rfl]
  · rfl

theorem settled_call {scope : Str → Option Float} {func : Str} {args : List Expr}
    (hfunc : isNodeFunc U func = false) (h : func = str "if" → args.length ≠ 3) :
    settled U M scope (.call func args) = (do
      let xs ← settledArgs U M scope args
      (evaluate U M (.call func (xs.map .num)) noScope .hspice).toOption) := by
  rw [settled.eq_def]
  simp only [hfunc, Bool.false_eq_true, if_false]
  split_ifs with hif
  · split
    · exact absurd rfl (h hif)
    · rfl
  · rfl

theorem settled_if {scope : Str → Option Float} (cond a b : Expr) :
    settled U M scope (.call (str "if") [cond, a, b]) = settled U M scope (.ternary cond a b) := by
  rw [settled.eq_def]
  simp only [isNodeFunc_if, Bool.false_eq_true, if_false, if_true, settled]

theorem number_foldNode_call {scope : Str → Option Float} {func : Str} {args args' : List Expr}
    {e' : Expr} (hfunc : isNodeFunc U func = false)
    (h : foldNode U M scope (.call func args') = .ok e')
    (hargs : List.Forall₂ (fun arg arg' => number? arg' = settled U M scope arg) args args') :
    number? e' = settled U M scope (.call func args) := by
  by_cases hif : func = str "if" ∧ args'.length = 3
  · obtain ⟨rfl, hlen⟩ := hif
    obtain ⟨cond', a', b', rfl⟩ := List.length_eq_three.mp hlen
    obtain _ | ⟨hc, _ | ⟨ha, _ | ⟨hb, _ | _⟩⟩⟩ := hargs
    rename_i cond a b
    rw [settled_if]
    cases hcn : number? cond' with
    | some c =>
      obtain rfl := eq_num_of_number hcn
      have hbranch : foldNode U M scope (.ternary (.num c) a' b') = .ok e' := by
        simpa only [foldNode, if_true] using h
      exact number_foldNode_ternary U M hbranch hc ha hb
    | none =>
      have hne : ∀ c a b, [cond', a', b'] ≠ [.num c, a, b] := by
        intro c a b heq
        have hcond : cond' = .num c := (List.cons.inj heq).1
        simp [hcond, number?] at hcn
      rw [foldNode_call U M fun _ => hne] at h
      rw [number_foldConstant U M h rfl, settled, ← hc, hcn]
      simp [foldable, known_eq_false hcn]
  · have hlen := hargs.length_eq
    rw [foldNode_call U M fun hfunc' c a b heq => hif ⟨hfunc', by rw [heq]; rfl⟩] at h
    rw [settled_call U M hfunc fun hfunc' h3 => hif ⟨hfunc', by omega⟩]
    exact number_foldConstant_call U M hfunc h hargs

mutual

/-- The result of folding is a number exactly where the expression is known to be one. -/
theorem number_fold {scope : Str → Option Float} (e e' : Expr)
    (h : transform U (foldNode U M scope) e = .ok e') : number? e' = settled U M scope e := by
  cases e with
  | num x =>
    obtain rfl := Except.ok.inj h
    rfl
  | name n =>
    rw [transform, foldNode.eq_def] at h
    rw [settled]
    cases hn : scope n with
    | none =>
      simp only [hn] at h
      obtain rfl := Except.ok.inj h
      split <;> rfl
    | some x =>
      simp only [hn] at h
      obtain rfl := Except.ok.inj h
      split <;> rfl
  | str t =>
    obtain rfl := Except.ok.inj h
    rfl
  | call func args =>
    rw [transform] at h
    cases hfunc : isNodeFunc U func with
    | true =>
      have hne : func = str "if" → ∀ c a b, args ≠ [.num c, a, b] := by
        rintro rfl
        rw [isNodeFunc_if] at hfunc
        simp at hfunc
      rw [if_pos hfunc, foldNode_call U M hne] at h
      rw [number_foldConstant U M h rfl, settled.eq_def]
      simp [foldable, hfunc]
    | false =>
      rw [if_neg (by simp [hfunc]), bind_eq_ok] at h
      obtain ⟨args', hargs, h⟩ := h
      exact number_foldNode_call U M hfunc h (numbers_fold args args' hargs)
  | unary op arg =>
    rw [transform, bind_eq_ok] at h
    obtain ⟨arg', harg, h⟩ := h
    exact number_foldNode_unary U M h (number_fold arg arg' harg)
  | binary op left right =>
    rw [transform, bind_eq_ok] at h
    obtain ⟨left', hleft, h⟩ := h
    rw [bind_eq_ok] at h
    obtain ⟨right', hright, h⟩ := h
    exact number_foldNode_binary U M h (number_fold left left' hleft)
      (number_fold right right' hright)
  | ternary cond a b =>
    rw [transform, bind_eq_ok] at h
    obtain ⟨cond', hcond, h⟩ := h
    rw [bind_eq_ok] at h
    obtain ⟨a', ha, h⟩ := h
    rw [bind_eq_ok] at h
    obtain ⟨b', hb, h⟩ := h
    exact number_foldNode_ternary U M h (number_fold cond cond' hcond) (number_fold a a' ha)
      (number_fold b b' hb)

theorem numbers_fold {scope : Str → Option Float} (args args' : List Expr)
    (h : transformArgs U (foldNode U M scope) args = .ok args') :
    List.Forall₂ (fun arg arg' => number? arg' = settled U M scope arg) args args' := by
  cases args with
  | nil =>
    obtain rfl := Except.ok.inj h
    exact .nil
  | cons arg args =>
    rw [transformArgs, bind_eq_ok] at h
    obtain ⟨arg', harg, h⟩ := h
    rw [bind_eq_ok] at h
    obtain ⟨args', hargs, h⟩ := h
    obtain rfl := Except.ok.inj h
    exact .cons (number_fold arg arg' harg) (numbers_fold args args' hargs)

end

mutual

/-- Folding returns exactly when no `^` of constants fails. -/
theorem fold_ok_iff (scope : Str → Option Float) (e : Expr) :
    (∃ e', transform U (foldNode U M scope) e = .ok e') ↔ PowersReturn U M scope e := by
  cases e with
  | num x => exact iff_of_true ⟨_, rfl⟩ trivial
  | name n =>
    rw [transform, foldNode_ok_iff, PowersReturn]
    exact iff_of_true (fun x y he => by cases he) trivial
  | str t => exact iff_of_true ⟨_, rfl⟩ trivial
  | unary op arg =>
    rw [PowersReturn, ← fold_ok_iff scope arg]
    constructor
    · rintro ⟨e', h⟩
      rw [transform, bind_eq_ok] at h
      obtain ⟨arg', harg, _⟩ := h
      exact ⟨arg', harg⟩
    · rintro ⟨arg', harg⟩
      obtain ⟨e', h⟩ := (foldNode_ok_iff U M scope (.unary op arg')).mpr fun x y he => by cases he
      exact ⟨e', by rw [transform, bind_eq_ok]; exact ⟨arg', harg, h⟩⟩
  | binary op left right =>
    rw [PowersReturn, ← fold_ok_iff scope left, ← fold_ok_iff scope right]
    constructor
    · rintro ⟨e', h⟩
      rw [transform, bind_eq_ok] at h
      obtain ⟨left', hleft, h⟩ := h
      rw [bind_eq_ok] at h
      obtain ⟨right', hright, h⟩ := h
      refine ⟨⟨left', hleft⟩, ⟨right', hright⟩, ?_⟩
      rintro rfl x y hx hy
      rw [← number_fold U M left left' hleft] at hx
      rw [← number_fold U M right right' hright] at hy
      refine (foldNode_ok_iff U M scope _).mp ⟨e', h⟩ x y ?_
      rw [eq_num_of_number hx, eq_num_of_number hy]
    · rintro ⟨⟨left', hleft⟩, ⟨right', hright⟩, hpower⟩
      obtain ⟨e', h⟩ := (foldNode_ok_iff U M scope (.binary op left' right')).mpr fun x y he => by
        cases he
        exact hpower rfl x y (number_fold U M left _ hleft).symm
          (number_fold U M right _ hright).symm
      refine ⟨e', ?_⟩
      rw [transform, bind_eq_ok]
      refine ⟨left', hleft, ?_⟩
      rw [bind_eq_ok]
      exact ⟨right', hright, h⟩
  | ternary cond a b =>
    rw [PowersReturn, ← fold_ok_iff scope cond, ← fold_ok_iff scope a, ← fold_ok_iff scope b]
    constructor
    · rintro ⟨e', h⟩
      rw [transform, bind_eq_ok] at h
      obtain ⟨cond', hcond, h⟩ := h
      rw [bind_eq_ok] at h
      obtain ⟨a', ha, h⟩ := h
      rw [bind_eq_ok] at h
      obtain ⟨b', hb, h⟩ := h
      exact ⟨⟨cond', hcond⟩, ⟨a', ha⟩, ⟨b', hb⟩⟩
    · rintro ⟨⟨cond', hcond⟩, ⟨a', ha⟩, ⟨b', hb⟩⟩
      obtain ⟨e', h⟩ := (foldNode_ok_iff U M scope (.ternary cond' a' b')).mpr
        fun x y he => by cases he
      refine ⟨e', ?_⟩
      rw [transform, bind_eq_ok]
      refine ⟨cond', hcond, ?_⟩
      rw [bind_eq_ok]
      refine ⟨a', ha, ?_⟩
      rw [bind_eq_ok]
      exact ⟨b', hb, h⟩
  | call func args =>
    rw [PowersReturn, ← foldArgs_ok_iff scope args, transform]
    cases hfunc : isNodeFunc U func with
    | true =>
      rw [if_pos rfl, foldNode_ok_iff]
      exact iff_of_true (fun x y he => by cases he) (.inl rfl)
    | false =>
      rw [if_neg (by simp)]
      constructor
      · rintro ⟨e', h⟩
        rw [bind_eq_ok] at h
        obtain ⟨args', hargs, _⟩ := h
        exact .inr ⟨args', hargs⟩
      · rintro (h | ⟨args', hargs⟩)
        · simp at h
        · obtain ⟨e', h⟩ := (foldNode_ok_iff U M scope (.call func args')).mpr
            fun x y he => by cases he
          exact ⟨e', by rw [bind_eq_ok]; exact ⟨args', hargs, h⟩⟩

theorem foldArgs_ok_iff (scope : Str → Option Float) (args : List Expr) :
    (∃ args', transformArgs U (foldNode U M scope) args = .ok args') ↔
      PowersReturnArgs U M scope args := by
  cases args with
  | nil => exact iff_of_true ⟨[], rfl⟩ trivial
  | cons arg args =>
    rw [PowersReturnArgs, ← fold_ok_iff scope arg, ← foldArgs_ok_iff scope args]
    constructor
    · rintro ⟨es, h⟩
      rw [transformArgs, bind_eq_ok] at h
      obtain ⟨arg', harg, h⟩ := h
      rw [bind_eq_ok] at h
      obtain ⟨args', hargs, _⟩ := h
      exact ⟨⟨arg', harg⟩, ⟨args', hargs⟩⟩
    · rintro ⟨⟨arg', harg⟩, ⟨args', hargs⟩⟩
      refine ⟨arg' :: args', ?_⟩
      rw [transformArgs, bind_eq_ok]
      refine ⟨arg', harg, ?_⟩
      rw [bind_eq_ok]
      exact ⟨args', hargs, rfl⟩

end

/-! ## Folding and evaluation -/

/-- Where an expression has a value, folding it first gives that value exactly when no `^` of
    constants fails on the way. -/
theorem evaluate_fold_iff (dialect : Dialect) (e : Expr) (scope₀ scope : Str → Option Float)
    (v : Float) (hscope : ∀ n x, scope₀ n = some x → scope n = some x)
    (hv : evaluate U M e scope dialect = .ok v) :
    (fold U M e scope₀ >>= fun e' => evaluate U M e' scope dialect) = .ok v ↔
      PowersReturn U M scope₀ e := by
  rw [bind_eq_ok, ← fold_ok_iff]
  constructor
  · rintro ⟨e', h, _⟩
    exact ⟨e', h⟩
  · rintro ⟨e', h⟩
    exact ⟨e', h, fold_refines U M hscope e e' h v hv⟩

/-- `a + 2^3` with `a = 1`. -/
theorem evaluate_fold_iff_power :
    (fold .small .small (.binary .add (.name (str "a")) (.binary .caret (.num 2) (.num 3)))
        (fun n => if n = str "a" then some 1 else none) >>= fun e' =>
      evaluate .small .small e' (fun n => if n = str "a" then some 1 else none) .hspice) = .ok 9 ↔
      PowersReturn .small .small (fun n => if n = str "a" then some 1 else none)
        (.binary .add (.name (str "a")) (.binary .caret (.num 2) (.num 3))) :=
  evaluate_fold_iff .small .small .hspice _ _ _ 9 (fun _ _ h => h) (by decide +kernel)

/-- A `^` that overflows in a branch that is never evaluated: `x ? 1 : 1e200^2` is `1` at `x = 1`,
    and folding it raises the `KeyError` of the message about the power. -/
theorem not_fold_evaluate_caret :
    evaluate .small .small
        (.ternary (.name (str "x")) (.num 1) (.binary .caret (.num 1e200) (.num 2)))
        (fun n => if n = str "x" then some 1 else none) .hspice = .ok 1 ∧
      fold .small .small
        (.ternary (.name (str "x")) (.num 1) (.binary .caret (.num 1e200) (.num 2))) noScope
        = .error .keyError := by
  refine ⟨by decide +kernel, ?_⟩
  have hraise : ∀ x y, evaluate .small .small (.binary .caret (.num x) (.num y)) noScope .hspice =
      .error .keyError → fold .small .small
        (.ternary (.name (str "x")) (.num 1) (.binary .caret (.num x) (.num y))) noScope =
        .error .keyError := by
    intro x y h
    have hlazy : ¬ (BinaryOp.caret = .and ∨ BinaryOp.caret = .or) := by decide
    have hnode : foldNode .small .small noScope (.binary .caret (.num x) (.num y)) =
        .error .keyError := by
      have hfoldable : foldable .small (.binary .caret (.num x) (.num y)) = true := rfl
      rw [foldNode, if_neg hlazy, foldConstant, if_pos hfoldable, h]
    have hright : transform .small (foldNode .small .small noScope)
        (.binary .caret (.num x) (.num y)) = .error .keyError := hnode
    rw [fold, transform, hright]
    rfl
  exact hraise _ _ (by decide +kernel)

end Vamos.Netlist.Expression
