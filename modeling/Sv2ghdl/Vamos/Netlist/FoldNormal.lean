import Sv2ghdl.Lists.Traverse
import Sv2ghdl.Vamos.Netlist.FoldErrors

/-!
# What folding leaves

`walk` and the strict `fold` of `vamos/netlist/expr.py`.  A folded expression is one that folding leaves alone, and a
strict fold returns when no constant is left in it.
-/

open Python

namespace Vamos.Netlist.Expression

variable (U : UnicodeData) (M : Libm)

/-- `is_constant`: only numbers, operators and calls that are no node accesses. -/
def isConstant (e : Expr) : Bool :=
  (walk U e).all fun s => match s with
    | .name _ => false
    | .str _ => false
    | s => !isNodeCall U s

/-- What the check of a strict fold does with one node. -/
def checkNode (e : Expr) : Except Raised Unit :=
  if foldable U e then (evaluate U M e noScope .hspice).map fun _ => () else .ok ()

/-- `fold` with `strict`: a constant that is still in the result raises its error. -/
def foldStrict (e : Expr) (scope : Str → Option Float) : Except Raised Expr := do
  let out ← fold U M e scope
  (walk U out).forM (checkNode U M)
  .ok out

/-! ## Folded expressions -/

/-- Every node is one that folding leaves alone. -/
def Folded (scope : Str → Option Float) (e : Expr) : Prop := ∀ s ∈ walk U e, foldNode U M scope s = .ok s

variable {U M} {scope : Str → Option Float}

theorem foldConstant_cases {e e' : Expr} (h : foldConstant U M e = .ok e') : (∃ v, e' = .num v) ∨ e' = e := by
  unfold foldConstant at h
  split_ifs at h
  · split at h
    · exact .inl ⟨_, (Except.ok.inj h).symm⟩
    · cases h
    · exact .inr (Except.ok.inj h).symm
  · exact .inr (Except.ok.inj h).symm

/-- Folding gives a number, the node itself or one of its operands. -/
theorem foldNode_cases {e e' : Expr} (h : foldNode U M scope e = .ok e') :
    (∃ v, e' = .num v) ∨ e' = e ∨ e' ∈ operands U e := by
  have hconstant : ∀ {e}, foldConstant U M e = .ok e' → (∃ v, e' = .num v) ∨ e' = e ∨ e' ∈ operands U e :=
    fun h => (foldConstant_cases h).imp id .inl
  unfold foldNode at h
  split at h
  · exact .inr (.inl (Except.ok.inj h).symm)
  · split at h
    · obtain rfl := Except.ok.inj h
      split_ifs
      · exact .inr (.inl rfl)
      · exact .inl ⟨_, rfl⟩
    · exact .inr (.inl (Except.ok.inj h).symm)
  · obtain rfl := Except.ok.inj h
    refine .inr (.inr ?_)
    split_ifs <;> simp [operands]
  · split_ifs at h
    · exact .inl ⟨_, (Except.ok.inj h).symm⟩
    · split at h
      · exact .inl ⟨_, (Except.ok.inj h).symm⟩
      · exact .inr (.inl (Except.ok.inj h).symm)
    · exact hconstant h
  · rename_i func c a b
    by_cases hif : func = str "if"
    · rw [if_pos hif] at h
      obtain rfl := Except.ok.inj h
      subst hif
      refine .inr (.inr ?_)
      rw [operands, if_neg (by simp [isNodeFunc_if])]
      split_ifs <;> simp
    · rw [if_neg hif] at h
      exact hconstant h
  · exact hconstant h

theorem folded_num (v : Float) : Folded U M scope (.num v) := by
  intro s hs
  rw [walk, List.mem_singleton] at hs
  rw [hs]
  rfl

theorem Folded.operand {e c : Expr} (h : Folded U M scope e) (hc : c ∈ operands U e) : Folded U M scope c :=
  fun s hs => h s (mem_walk_operand U hc hs)

theorem Folded.self {e : Expr} (h : Folded U M scope e) : foldNode U M scope e = .ok e := h e (mem_walk_self U e)

/-- A node with folded operands is folded to a folded expression. -/
theorem folded_foldNode {e e' : Expr} (hoperands : ∀ c ∈ operands U e, Folded U M scope c)
    (h : foldNode U M scope e = .ok e') : Folded U M scope e' := by
  rcases foldNode_cases h with ⟨v, rfl⟩ | rfl | hmem
  · exact folded_num v
  · intro s hs
    rcases (mem_walk U).mp hs with rfl | ⟨c, hc, hs⟩
    · exact h
    · exact hoperands c hc s hs
  · exact hoperands e' hmem

/-- What folding returns is folded. -/
theorem folded_fold (e e' : Expr) (h : transform U (foldNode U M scope) e = .ok e') : Folded U M scope e' := by
  induction e using operands_induction U generalizing e' with
  | h e ih =>
    obtain ⟨cs, hcs, h⟩ := (transform_ok_iff U).mp h
    refine folded_foldNode (fun c hc => ?_) h
    rw [operands_rebuild U hcs.length_eq] at hc
    obtain ⟨k, hk⟩ := List.mem_iff_getElem?.mp hc
    obtain ⟨c₀, hc₀, hfold⟩ := Traverse.forall₂_right hcs hk
    exact ih c₀ (List.mem_of_getElem? hc₀) c hfold

/-- Folding leaves a folded expression alone. -/
theorem fold_of_folded {e : Expr} (h : Folded U M scope e) : fold U M e scope = .ok e := by
  show transform U (foldNode U M scope) e = .ok e
  induction e using operands_induction U with
  | h e ih =>
    refine (transform_ok_iff U).mpr ⟨operands U e, List.forall₂_same.mpr fun c hc => ih c hc (h.operand hc), ?_⟩
    rw [rebuild_operands]
    exact h.self

/-! ## What is left -/

theorem evaluate_of_foldConstant {e : Expr} (hfoldable : foldable U e = true) (h : foldConstant U M e = .ok e) :
    ∃ err, evaluate U M e noScope .hspice = .error (.evalError err) := by
  rw [foldConstant, if_pos hfoldable] at h
  split at h
  · rw [← Except.ok.inj h] at hfoldable
    cases hfoldable
  · cases h
  · rename_i err herr
    exact ⟨err, herr⟩

/-- A constant node that folding has left alone has no value. -/
theorem evaluate_left {e : Expr} (hfoldable : foldable U e = true) (h : foldNode U M scope e = .ok e) :
    ∃ err, evaluate U M e noScope .hspice = .error (.evalError err) := by
  have hcopy := h
  unfold foldNode at h
  split at h
  · cases hfoldable
  · cases hfoldable
  · -- a decided `?:` would be its branch, which is a number
    rename_i c a b
    simp only [foldable, Bool.and_eq_true] at hfoldable
    obtain ⟨x, rfl⟩ := known_eq hfoldable.1.2
    obtain ⟨y, rfl⟩ := known_eq hfoldable.2
    split_ifs at h <;> cases h
  · rename_i op x right
    simp only [foldable, Bool.and_eq_true] at hfoldable
    obtain ⟨y, rfl⟩ := known_eq hfoldable.2
    split_ifs at h with hop hdecides
    · cases h
    · cases h
    · exact evaluate_of_foldConstant (by rfl) h
  · rename_i func c a b
    by_cases hif : func = str "if"
    · rw [if_pos hif] at h
      simp only [foldable, Bool.and_eq_true, List.all_eq_true] at hfoldable
      obtain ⟨x, rfl⟩ := known_eq (hfoldable.2 a (by simp))
      obtain ⟨y, rfl⟩ := known_eq (hfoldable.2 b (by simp))
      split_ifs at h <;> cases h
    · rw [if_neg hif] at h
      exact evaluate_of_foldConstant hfoldable h
  · exact evaluate_of_foldConstant hfoldable h

theorem forM_error_iff {ε α : Type} {f : α → Except ε Unit} {l : List α} :
    (∃ err, l.forM f = .error err) ↔ ∃ a ∈ l, ∃ err, f a = .error err := by
  induction l with
  | nil => simp [pure, Except.pure]
  | cons a l ih =>
    rw [show (a :: l).forM f = (f a >>= fun _ => l.forM f) from rfl]
    cases ha : f a with
    | error err => simp [bind, Except.bind, ha]
    | ok u => simpa [bind, Except.bind, ha] using ih

theorem checkNode_error_iff {out e : Expr} (hout : Folded U M scope out) (he : e ∈ walk U out) :
    (∃ err, checkNode U M e = .error err) ↔ foldable U e = true := by
  rw [checkNode]
  by_cases hfoldable : foldable U e = true
  · obtain ⟨err, herr⟩ := evaluate_left hfoldable (hout e he)
    rw [if_pos hfoldable, herr]
    exact iff_of_true ⟨_, rfl⟩ hfoldable
  · rw [if_neg hfoldable]
    exact iff_of_false (fun ⟨_, h⟩ => nomatch h) hfoldable

/-- A strict fold raises exactly when a node is left whose operands are all numbers. -/
theorem foldStrict_error_iff {e out : Expr} (h : fold U M e scope = .ok out) :
    (∃ err, foldStrict U M e scope = .error err) ↔ ∃ s ∈ walk U out, foldable U s = true := by
  have hout : Folded U M scope out := folded_fold e out h
  have hcheck : (∃ err, foldStrict U M e scope = .error err) ↔
      ∃ err, (walk U out).forM (checkNode U M) = .error err := by
    rw [foldStrict, h]
    cases hforM : (walk U out).forM (checkNode U M) with
    | error err => simp [bind, Except.bind, hforM]
    | ok u => simp [bind, Except.bind, hforM]
  rw [hcheck, forM_error_iff]
  exact exists_congr fun s => and_congr_right fun hs => checkNode_error_iff hout hs

/-- Where no node has numbers only for its operands, a constant is a number. -/
theorem known_of_isConstant {e : Expr} (h : ∀ s ∈ walk U e, foldable U s = false) (hconst : isConstant U e = true) :
    known e = true := by
  induction e using operands_induction U with
  | h e ih =>
    have hknown : ∀ c ∈ operands U e, known c = true := by
      intro c hc
      refine ih c hc (fun s hs => h s (mem_walk_operand U hc hs)) ?_
      exact List.all_eq_true.mpr fun s hs => List.all_eq_true.mp hconst s (mem_walk_operand U hc hs)
    have hself := List.all_eq_true.mp hconst e (mem_walk_self U e)
    have hnot := h e (mem_walk_self U e)
    cases e with
    | num => rfl
    | name | str => cases hself
    | unary op arg =>
      rw [foldable, hknown arg (by simp [operands])] at hnot
      cases hnot
    | binary op left right =>
      rw [foldable, hknown left (by simp [operands]), hknown right (by simp [operands])] at hnot
      cases hnot
    | ternary cond a b =>
      rw [foldable, hknown cond (by simp [operands]), hknown a (by simp [operands]),
        hknown b (by simp [operands])] at hnot
      cases hnot
    | call func args =>
      rw [Bool.not_eq_true', isNodeCall] at hself
      rw [operands, if_neg (by simp [hself])] at hknown
      rw [foldable, hself, List.all_eq_true.mpr hknown] at hnot
      cases hnot

variable (U M)

/-- What folding an expression comes to: a result that folding leaves alone, that holds no constant but numbers when the
strict fold returns it, and that the strict fold refuses exactly when a node of it has numbers only for its operands. -/
def FoldsToNormal (e : Expr) (scope : Str → Option Float) : Prop :=
  ∃ out, fold U M e scope = .ok out ∧ fold U M out scope = .ok out ∧
    (∀ r, foldStrict U M e scope = .ok r → r = out ∧ ∀ s ∈ walk U r, isConstant U s = true → known s = true) ∧
    ((∃ err, foldStrict U M e scope = .error err) ↔ ∃ s ∈ walk U out, foldable U s = true)

/-- Folding comes to a normal form exactly when no `^` of constants fails. -/
theorem foldsToNormal_iff (e : Expr) (scope : Str → Option Float) :
    FoldsToNormal U M e scope ↔ PowersReturn U M scope e := by
  rw [← fold_ok_iff]
  constructor
  · rintro ⟨out, h, _⟩
    exact ⟨out, h⟩
  · rintro ⟨out, h⟩
    have hraise := foldStrict_error_iff h
    refine ⟨out, h, fold_of_folded (folded_fold e out h), fun r hr => ?_, hraise⟩
    have hfold : fold U M e scope = .ok out := h
    have hsame : r = out := by
      rw [foldStrict, hfold, bind_eq_ok] at hr
      obtain ⟨_, hout, hr⟩ := hr
      cases hout
      obtain ⟨_, _, hr⟩ := bind_eq_ok.mp hr
      exact (Except.ok.inj hr).symm
    subst hsame
    refine ⟨rfl, fun s hs hconst => known_of_isConstant (fun t ht => ?_) hconst⟩
    by_contra hfoldable
    obtain ⟨err, herr⟩ := hraise.mpr ⟨t, walk_subset U hs ht, Bool.not_eq_false _ ▸ hfoldable⟩
    rw [herr] at hr
    cases hr

/-- `1e200^2` has no normal form: folding it raises the `KeyError` of the message about the power. -/
theorem not_foldsToNormal_caret :
    ¬FoldsToNormal .small .small (.binary .caret (.num 1e200) (.num 2)) noScope := by
  rintro ⟨out, h, _⟩
  have hraise : evaluate .small .small (.binary .caret (.num 1e200) (.num 2)) noScope .hspice = .error .keyError := by
    decide +kernel
  have hfold : ∀ x y, evaluate .small .small (.binary .caret (.num x) (.num y)) noScope .hspice = .error .keyError →
      fold .small .small (.binary .caret (.num x) (.num y)) noScope = .error .keyError := by
    intro x y hkey
    have hlazy : ¬(BinaryOp.caret = .and ∨ BinaryOp.caret = .or) := by decide
    have hfoldable : foldable .small (.binary .caret (.num x) (.num y)) = true := rfl
    show foldNode .small .small noScope (.binary .caret (.num x) (.num y)) = _
    rw [foldNode, if_neg hlazy, foldConstant, if_pos hfoldable, hkey]
  rw [hfold _ _ hraise] at h
  cases h

end Vamos.Netlist.Expression
