import Sv2ghdl.Lists.Traverse
import Sv2ghdl.Python.Unicode
import Sv2ghdl.Vamos.Netlist.ExprAst

/-!
# Rebuilding expressions

The reserved names, the node-access calls and `transform` of `vamos/netlist/expr.py`.
-/

open Python

namespace Vamos.Netlist.Expression

/-- `RESERVED` -/
def reserved : List Str := [str "time", str "temper", str "hertz", str "$tnom"]

variable (U : UnicodeData)

/-- `_NODE_FUNC` up to its `$`. -/
def matchesNodeFunc (func : Str) : Bool :=
  [str "v", str "vr", str "vi", str "vm", str "vp", str "vdb", str "vt", str "i", str "ir",
    str "ii", str "im", str "ip", str "idb", str "it"].contains func ||
  match func with
  | [c, d] => c = 'i' && (49 ≤ d.val && d.val ≤ 57)
  | c :: d :: digits =>
    c = 'l' && (d = 'v' || d = 'x') && !digits.isEmpty && digits.all fun c => (U.decimal c).isSome
  | _ => false

/-- `_NODE_FUNC.match`; a `$` also matches in front of a final newline. -/
def isNodeFunc (func : Str) : Bool :=
  matchesNodeFunc U func ||
    (func.getLast? = some ('\n' : CodePoint) && matchesNodeFunc U func.dropLast)

/-- `is_node_call` -/
def isNodeCall : Expr → Bool
  | .call func _ => isNodeFunc U func
  | _ => false

mutual

/-- `transform`: rebuild bottom-up; a node-access call reaches `fn` whole. -/
def transform {ε : Type} (fn : Expr → Except ε Expr) : Expr → Except ε Expr
  | .num value => fn (.num value)
  | .name name => fn (.name name)
  | .str s => fn (.str s)
  | .call func args =>
    if isNodeFunc U func then fn (.call func args)
    else do
      let args ← transformArgs fn args
      fn (.call func args)
  | .unary op arg => do
    let arg ← transform fn arg
    fn (.unary op arg)
  | .binary op left right => do
    let left ← transform fn left
    let right ← transform fn right
    fn (.binary op left right)
  | .ternary cond a b => do
    let cond ← transform fn cond
    let a ← transform fn a
    let b ← transform fn b
    fn (.ternary cond a b)

def transformArgs {ε : Type} (fn : Expr → Except ε Expr) : List Expr → Except ε (List Expr)
  | [] => .ok []
  | arg :: args => do
    let arg ← transform fn arg
    let args ← transformArgs fn args
    pure (arg :: args)

end

/-- `substitute`: parameter names replaced by expressions. -/
def substitute (mapping : Str → Option Expr) (e : Expr) : Expr :=
  let replace : Expr → Except Empty Expr
    | .name name => .ok ((mapping name).getD (.name name))
    | e => .ok e
  match transform U replace e with
  | .ok e => e
  | .error err => nomatch err

/-- What `substitute` does to a node. -/
def replaceNum (mapping : Str → Option Expr) : Expr → Except Empty Expr
  | .name name => .ok ((mapping name).getD (.name name))
  | e => .ok e

theorem substitute_ok (mapping : Str → Option Expr) (e : Expr) :
    transform U (replaceNum mapping) e = .ok (substitute U mapping e) := by
  unfold substitute
  show transform U (replaceNum mapping) e = .ok (match transform U (replaceNum mapping) e with
    | .ok e => e
    | .error err => nomatch err)
  cases transform U (replaceNum mapping) e with
  | ok e => rfl
  | error err => exact nomatch err

/-! ## The nodes of an expression -/

mutual

/-- `walk`: every node, a node before its operands; the raw names of a node access are not visited. -/
def walk : Expr → List Expr
  | .num value => [.num value]
  | .name name => [.name name]
  | .str s => [.str s]
  | .call func args => .call func args :: if isNodeFunc U func then [] else walkArgs args
  | .unary op arg => .unary op arg :: walk arg
  | .binary op left right => .binary op left right :: (walk left ++ walk right)
  | .ternary cond a b => .ternary cond a b :: (walk cond ++ walk a ++ walk b)

def walkArgs : List Expr → List Expr
  | [] => []
  | arg :: args => walk arg ++ walkArgs args

end

/-- The operands that are visited. -/
def operands : Expr → List Expr
  | .call func args => if isNodeFunc U func then [] else args
  | .unary _ arg => [arg]
  | .binary _ left right => [left, right]
  | .ternary cond a b => [cond, a, b]
  | _ => []

theorem walkArgs_eq (args : List Expr) : walkArgs U args = args.flatMap (walk U) := by
  induction args with
  | nil => rfl
  | cons arg args ih => rw [walkArgs, List.flatMap_cons, ih]

theorem walk_eq (e : Expr) : walk U e = e :: (operands U e).flatMap (walk U) := by
  cases e with
  | num | name | str => rfl
  | unary op arg => rw [walk, operands, List.flatMap_singleton]
  | binary op left right => simp [walk, operands]
  | ternary cond a b => simp [walk, operands]
  | call func args =>
    rw [walk, operands, walkArgs_eq]
    split <;> rfl

theorem mem_walk_self (e : Expr) : e ∈ walk U e := by
  rw [walk_eq]
  exact List.mem_cons_self

theorem mem_walk_operand {e c s : Expr} (hc : c ∈ operands U e) (hs : s ∈ walk U c) : s ∈ walk U e := by
  rw [walk_eq]
  exact List.mem_cons_of_mem e (List.mem_flatMap.mpr ⟨c, hc, hs⟩)

theorem mem_walk {e s : Expr} : s ∈ walk U e ↔ s = e ∨ ∃ c ∈ operands U e, s ∈ walk U c := by
  rw [walk_eq, List.mem_cons, List.mem_flatMap]

theorem sizeOf_operand {e c : Expr} (hc : c ∈ operands U e) : sizeOf c < sizeOf e := by
  cases e with
  | num | name | str => cases hc
  | unary op arg =>
    rw [List.mem_singleton.mp hc]
    simp
  | binary op left right =>
    rcases List.mem_pair.mp hc with rfl | rfl
    · simp
      omega
    · simp
  | ternary cond a b =>
    simp only [operands, List.mem_cons, List.not_mem_nil, or_false] at hc
    rcases hc with rfl | rfl | rfl
    · simp
      omega
    · simp
      omega
    · simp
  | call func args =>
    rw [operands] at hc
    split at hc
    · cases hc
    · have := List.sizeOf_lt_of_mem hc
      simp
      omega

/-- What holds of an expression when it holds of its operands holds of every expression. -/
theorem operands_induction {P : Expr → Prop} (h : ∀ e, (∀ c ∈ operands U e, P c) → P e) (e : Expr) : P e := by
  induction hn : sizeOf e using Nat.strong_induction_on generalizing e with
  | _ n ih =>
    subst hn
    exact h e fun c hc => ih (sizeOf c) (sizeOf_operand U hc) c rfl

theorem walk_subset {e s : Expr} (hs : s ∈ walk U e) : walk U s ⊆ walk U e := by
  induction e using operands_induction U with
  | h e ih =>
    rcases (mem_walk U).mp hs with rfl | ⟨c, hc, hs⟩
    · exact List.Subset.refl _
    · exact fun t ht => mem_walk_operand U hc (ih c hc hs ht)

/-- A node with other operands. -/
def rebuild : Expr → List Expr → Expr
  | .call func args, cs => if isNodeFunc U func then .call func args else .call func cs
  | .unary op _, [arg] => .unary op arg
  | .binary op _ _, [left, right] => .binary op left right
  | .ternary _ _ _, [cond, a, b] => .ternary cond a b
  | e, _ => e

theorem operands_rebuild {e : Expr} {cs : List Expr} (h : (operands U e).length = cs.length) :
    operands U (rebuild U e cs) = cs := by
  cases e with
  | num | name | str => exact (List.length_eq_zero_iff.mp h.symm).symm
  | unary op arg =>
    obtain ⟨c, rfl⟩ := List.length_eq_one_iff.mp h.symm
    rfl
  | binary op left right =>
    obtain ⟨c, d, rfl⟩ := List.length_eq_two.mp h.symm
    rfl
  | ternary cond a b =>
    obtain ⟨c, d, f, rfl⟩ := List.length_eq_three.mp h.symm
    rfl
  | call func args =>
    rw [operands] at h
    rw [rebuild]
    split_ifs at h ⊢ with hfunc
    · rw [operands, if_pos hfunc]
      exact (List.length_eq_zero_iff.mp h.symm).symm
    · rw [operands, if_neg hfunc]

theorem rebuild_operands (e : Expr) : rebuild U e (operands U e) = e := by
  cases e with
  | call func args =>
    rw [rebuild, operands]
    split_ifs <;> rfl
  | _ => rfl

theorem rebuild_ne_name {e : Expr} {cs : List Expr} (h : (operands U e).length = cs.length)
    (hname : ∀ name, e ≠ .name name) (name : Str) : rebuild U e cs ≠ .name name := by
  cases e with
  | name name => exact absurd rfl (hname name)
  | num | str => exact nofun
  | unary op arg =>
    obtain ⟨c, rfl⟩ := List.length_eq_one_iff.mp h.symm
    exact nofun
  | binary op left right =>
    obtain ⟨c, d, rfl⟩ := List.length_eq_two.mp h.symm
    exact nofun
  | ternary cond a b =>
    obtain ⟨c, d, f, rfl⟩ := List.length_eq_three.mp h.symm
    exact nofun
  | call func args =>
    rw [rebuild]
    split_ifs
    · exact nofun
    · exact nofun

theorem bind_eq_ok_iff {ε α β : Type} {r : Except ε α} {f : α → Except ε β} {v : β} :
    (r >>= f) = .ok v ↔ ∃ x, r = .ok x ∧ f x = .ok v := by
  cases r with
  | error err => simp [bind, Except.bind]
  | ok x => simp [bind, Except.bind]

theorem transformArgs_ok_iff {ε : Type} {fn : Expr → Except ε Expr} {args args' : List Expr} :
    transformArgs U fn args = .ok args' ↔ List.Forall₂ (fun c c' => transform U fn c = .ok c') args args' := by
  induction args generalizing args' with
  | nil =>
    rw [transformArgs, List.forall₂_nil_left_iff, Except.ok.injEq]
    exact eq_comm
  | cons arg args ih =>
    rw [transformArgs, List.forall₂_cons_left_iff, bind_eq_ok_iff]
    apply exists_congr
    intro arg'
    rw [bind_eq_ok_iff]
    constructor
    · rintro ⟨harg, rest, hrest, h⟩
      exact ⟨rest, harg, ih.mp hrest, (Except.ok.inj h).symm⟩
    · rintro ⟨rest, harg, hrest, rfl⟩
      exact ⟨harg, rest, ih.mpr hrest, rfl⟩

/-- `transform` rebuilds each node from its rebuilt operands. -/
theorem transform_ok_iff {ε : Type} {fn : Expr → Except ε Expr} {e r : Expr} :
    transform U fn e = .ok r ↔
      ∃ cs, List.Forall₂ (fun c c' => transform U fn c = .ok c') (operands U e) cs ∧ fn (rebuild U e cs) = .ok r := by
  cases e with
  | num | name | str => simp [transform, operands, rebuild]
  | unary op arg =>
    simp only [transform, operands, bind_eq_ok_iff, List.forall₂_cons_left_iff, List.forall₂_nil_left_iff]
    constructor
    · rintro ⟨c, hc, h⟩
      exact ⟨[c], ⟨c, [], hc, rfl, rfl⟩, h⟩
    · rintro ⟨_, ⟨c, _, hc, rfl, rfl⟩, h⟩
      exact ⟨c, hc, h⟩
  | binary op left right =>
    simp only [transform, operands, bind_eq_ok_iff, List.forall₂_cons_left_iff, List.forall₂_nil_left_iff]
    constructor
    · rintro ⟨c, hc, d, hd, h⟩
      exact ⟨[c, d], ⟨c, [d], hc, ⟨d, [], hd, rfl, rfl⟩, rfl⟩, h⟩
    · rintro ⟨_, ⟨c, _, hc, ⟨d, _, hd, rfl, rfl⟩, rfl⟩, h⟩
      exact ⟨c, hc, d, hd, h⟩
  | ternary cond a b =>
    simp only [transform, operands, bind_eq_ok_iff, List.forall₂_cons_left_iff, List.forall₂_nil_left_iff]
    constructor
    · rintro ⟨c, hc, d, hd, f, hf, h⟩
      exact ⟨[c, d, f], ⟨c, [d, f], hc, ⟨d, [f], hd, ⟨f, [], hf, rfl, rfl⟩, rfl⟩, rfl⟩, h⟩
    · rintro ⟨_, ⟨c, _, hc, ⟨d, _, hd, ⟨f, _, hf, rfl, rfl⟩, rfl⟩, rfl⟩, h⟩
      exact ⟨c, hc, d, hd, f, hf, h⟩
  | call func args =>
    rw [transform, operands]
    split_ifs with hfunc
    · simp [rebuild, hfunc]
    · rw [bind_eq_ok_iff]
      apply exists_congr
      intro cs
      rw [transformArgs_ok_iff, rebuild, if_neg hfunc]

/-- `transform` succeeds when `fn` accepts every node, if what `fn` accepts does not depend on the operands. -/
theorem transform_succeeds {ε : Type} {fn : Expr → Except ε Expr} {Accepts : Expr → Prop}
    (h : ∀ e cs, (operands U e).length = cs.length → ((∃ r, fn (rebuild U e cs) = .ok r) ↔ Accepts e)) {e : Expr} :
    (∃ r, transform U fn e = .ok r) ↔ ∀ s ∈ walk U e, Accepts s := by
  induction e using operands_induction U with
  | h e ih =>
    constructor
    · rintro ⟨r, hr⟩ s hs
      obtain ⟨cs, hcs, hfn⟩ := (transform_ok_iff U).mp hr
      rcases (mem_walk U).mp hs with rfl | ⟨c, hc, hs⟩
      · exact (h s cs hcs.length_eq).mp ⟨r, hfn⟩
      · obtain ⟨c', -, hc'⟩ := Traverse.forall₂_mem_left hcs hc
        exact (ih c hc).mp ⟨c', hc'⟩ s hs
    · intro hall
      -- every operand is rebuilt, and then the node itself
      have hoperands : ∀ c ∈ operands U e, ∃ c', transform U fn c = .ok c' := fun c hc =>
        (ih c hc).mpr fun s hs => hall s (mem_walk_operand U hc hs)
      obtain ⟨cs, hcs⟩ := Traverse.exists_forall₂ hoperands
      obtain ⟨r, hr⟩ := (h e cs hcs.length_eq).mpr (hall e (mem_walk_self U e))
      exact ⟨r, (transform_ok_iff U).mpr ⟨cs, hcs, hr⟩⟩

end Vamos.Netlist.Expression
