import Mathlib.Data.Fintype.Basic
import Mathlib.Data.List.Basic
import Mathlib.Logic.Function.Basic
import Mathlib.Tactic

/-!
# Building queries for a bit-vector solver

Terms over bit vectors as the C++ interface of a solver makes them, the queries that a program asserts,
and a rule for each step of a program that builds them.  An operand of the wrong size is an exception,
after which the variables that were made and the assertions stay.
-/

namespace Smt

/-! ## Terms -/

inductive BinOp where
  | add | sub | mul | and | or | xor | shl | lshr
  deriving DecidableEq, Repr

inductive Rel where
  | eq | ne | ult | slt
  deriving DecidableEq, Repr

inductive Term (V : Type) where
  | val (v w : Nat)
  | var (x : V) (w : Nat)
  | extract (hi lo : Nat) (t : Term V)
  /-- The first operand above the second. -/
  | concat (a b : Term V)
  | zext (n : Nat) (t : Term V)
  | not (t : Term V)
  | bin (op : BinOp) (a b : Term V)
  /-- `a` when `x` and `y` are related, and else `b`. -/
  | ite (r : Rel) (x y a b : Term V)

def BinOp.eval {w : Nat} (a b : BitVec w) : BinOp → BitVec w
  | .add => a + b
  | .sub => a - b
  | .mul => a * b
  | .and => a &&& b
  | .or => a ||| b
  | .xor => a ^^^ b
  | .shl => a <<< b
  | .lshr => a >>> b

def Rel.eval {w : Nat} (a b : BitVec w) : Rel → Bool
  | .eq => a == b
  | .ne => a != b
  | .ult => a.ult b
  | .slt => a.slt b

namespace Term

variable {V : Type}

def width : Term V → Nat
  | val _ w => w
  | var _ w => w
  | extract hi lo _ => hi - lo + 1
  | concat a b => a.width + b.width
  | zext n t => t.width + n
  | not t => t.width
  | bin _ a _ => a.width
  | ite _ _ _ a _ => a.width

/-- The number that a term spells under values of the variables. -/
def eval (ρ : V → Nat) : Term V → Nat
  | val v w => v % 2 ^ w
  | var x w => ρ x % 2 ^ w
  | extract hi lo t => t.eval ρ / 2 ^ lo % 2 ^ (hi - lo + 1)
  | concat a b => b.eval ρ + 2 ^ b.width * a.eval ρ
  | zext _ t => t.eval ρ
  | not t => 2 ^ t.width - 1 - t.eval ρ
  | bin op a b => (op.eval (BitVec.ofNat a.width (a.eval ρ)) (BitVec.ofNat a.width (b.eval ρ))).toNat
  | ite r x y a b =>
    if r.eval (BitVec.ofNat x.width (x.eval ρ)) (BitVec.ofNat x.width (y.eval ρ)) then a.eval ρ
    else b.eval ρ

/-! ## The constructors, with the sizes that they check -/

def mkExtract (hi lo : Nat) (t : Term V) : Option (Term V) :=
  if lo ≤ hi ∧ hi < t.width then some (.extract hi lo t) else none

def mkBin (op : BinOp) (a b : Term V) : Option (Term V) :=
  if a.width = b.width then some (.bin op a b) else none

def mkIte (r : Rel) (x y a b : Term V) : Option (Term V) :=
  if x.width = y.width ∧ a.width = b.width then some (.ite r x y a b) else none

end Term

/-! ## Queries -/

/-- The size of each variable that was made, and the equations that are asserted. -/
structure Solver (V : Type) where
  vars : V → Option Nat
  asserts : List (Term V × Term V)

def Solver.empty (V : Type) : Solver V := ⟨fun _ => none, []⟩

/-- The values of the variables satisfy the assertions. -/
def Solver.Holds {V : Type} (s : Solver V) (ρ : V → Nat) : Prop :=
  ∀ p ∈ s.asserts, p.1.eval ρ = p.2.eval ρ

/-- A model of the assertions and of one equation of the goal.  It may leave variables open: then the
    assertions hold with whatever values they take. -/
structure IsModel {V : Type} (s : Solver V) (goal : List (Term V × Term V)) (m : V → Option Nat) :
    Prop where
  bounded : ∀ x w v, s.vars x = some w → m x = some v → v < 2 ^ w
  holds : ∀ ρ : V → Nat, (∀ x v, m x = some v → ρ x = v) →
    s.Holds ρ ∧ ∃ p ∈ goal, p.1.eval ρ = p.2.eval ρ

/-- A step of a program that builds a query; `none` when it throws. -/
def Build (V α : Type) : Type := Solver V → Option α × Solver V

namespace Build

variable {V α β : Type}

instance : Monad (Build V) where
  pure a s := (some a, s)
  bind m f s :=
    match m s with
    | (some a, s') => f a s'
    | (none, s') => (none, s')

def lift (o : Option α) : Build V α := fun s => (o, s)

/-- `try { .. } catch { }` -/
def attempt (m : Build V Unit) : Build V Unit := fun s => (some (), (m s).2)

/-- A constant.  Whether a sort without bits is an exception is up to the solver. -/
def bvVal (zeroSort : Bool) (v w : Nat) : Build V (Term V) :=
  lift (if w = 0 ∧ !zeroSort then none else some (.val v w))

/-- The variable `x` as it was made, or one of `w` bits. -/
def getVar [DecidableEq V] (zeroSort : Bool) (x : V) (w : Nat) : Build V (Term V) := fun s =>
  match s.vars x with
  | some w' => (some (.var x w'), s)
  | none =>
    if w = 0 ∧ !zeroSort then (none, s)
    else (some (.var x w), { s with vars := Function.update s.vars x (some w) })

/-- `solver.add(l == r)` -/
def assertEq (l r : Term V) : Build V Unit := fun s =>
  if l.width = r.width then (some (), { s with asserts := s.asserts ++ [(l, r)] }) else (none, s)

/-! ## What a step does -/

/-- From variables with the invariant the step succeeds and keeps it.  It returns something with `Q`,
    keeps the assertions, and leaves assertions that imply `A`. -/
def Does (inv : (V → Option Nat) → Prop) (m : Build V α) (Q : α → Prop) (A : (V → Nat) → Prop) : Prop :=
  ∀ s, inv s.vars → ∃ a s', m s = (some a, s') ∧ Q a ∧ inv s'.vars ∧ s.asserts ⊆ s'.asserts ∧
    ∀ ρ, s'.Holds ρ → A ρ

variable {inv : (V → Option Nat) → Prop} {Q : α → Prop} {A B : (V → Nat) → Prop}

theorem holds_of_subset {s s' : Solver V} (h : s.asserts ⊆ s'.asserts) {ρ : V → Nat}
    (hs : s'.Holds ρ) : s.Holds ρ := fun p hp => hs p (h hp)

theorem bind_some {m : Build V α} {f : α → Build V β} {s s' : Solver V} {a : α}
    (h : m s = (some a, s')) : (m >>= f) s = f a s' := by
  show (match m s with
    | (some a, s') => f a s'
    | (none, s') => (none, s')) = _
  rw [h]

/-- A step of which it is known exactly what it asserts. -/
def Adds (inv : (V → Option Nat) → Prop) (m : Build V α) (Q : α → Prop) (A : (V → Nat) → Prop) : Prop :=
  ∀ s, inv s.vars → ∃ a s', m s = (some a, s') ∧ Q a ∧ inv s'.vars ∧ s.asserts ⊆ s'.asserts ∧
    ∀ ρ, s'.Holds ρ ↔ s.Holds ρ ∧ A ρ

theorem Adds.does {m : Build V α} (h : Adds inv m Q A) : Does inv m Q A := by
  intro s hs
  obtain ⟨a, s', hstep, hq, hinv, hsub, hholds⟩ := h s hs
  exact ⟨a, s', hstep, hq, hinv, hsub, fun ρ hρ => ((hholds ρ).mp hρ).2⟩

/-- What a step asserts does not depend on how it is proved. -/
theorem Adds.unique {m : Build V α} {R : α → Prop} (h : Adds inv m Q A) (h' : Adds inv m R B)
    (hinv : inv (Solver.empty V).vars) (ρ : V → Nat) : A ρ ↔ B ρ := by
  obtain ⟨a, s, hstep, -, -, -, hholds⟩ := h _ hinv
  obtain ⟨a', s', hstep', -, -, -, hholds'⟩ := h' _ hinv
  have hsame : s = s' := congrArg Prod.snd (hstep.symm.trans hstep')
  have hempty : (Solver.empty V).Holds ρ := fun p hp => absurd hp List.not_mem_nil
  rw [← and_iff_right (b := A ρ) hempty, ← hholds, hsame, hholds', and_iff_right hempty]

theorem Adds.pure {a : α} (h : Q a) : Adds inv (Pure.pure a) Q fun _ => True :=
  fun s hs => ⟨a, s, rfl, h, hs, fun _ hp => hp, fun _ => (and_iff_left trivial).symm⟩

theorem Adds.lift {o : Option α} {a : α} (ho : o = some a) (h : Q a) :
    Adds inv (lift o) Q fun _ => True :=
  fun s hs => ⟨a, s, by rw [ho]; rfl, h, hs, fun _ hp => hp, fun _ => (and_iff_left trivial).symm⟩

theorem Adds.mono {m : Build V α} {R : α → Prop} (h : Adds inv m Q A) (hQ : ∀ a, Q a → R a)
    (hA : ∀ ρ, A ρ ↔ B ρ) : Adds inv m R B := by
  intro s hs
  obtain ⟨a, s', hstep, hq, hinv, hsub, hholds⟩ := h s hs
  exact ⟨a, s', hstep, hQ a hq, hinv, hsub, fun ρ => by rw [hholds, hA]⟩

theorem Adds.bind {m : Build V α} {f : α → Build V β} {R : β → Prop} (hm : Adds inv m Q A)
    (hf : ∀ a, Q a → Adds inv (f a) R B) : Adds inv (m >>= f) R fun ρ => A ρ ∧ B ρ := by
  intro s hs
  obtain ⟨a, s₁, hstep, hq, hinv, hsub, hA⟩ := hm s hs
  obtain ⟨b, s₂, hstep', hr, hinv', hsub', hB⟩ := hf a hq s₁ hinv
  refine ⟨b, s₂, (bind_some hstep).trans hstep', hr, hinv', fun _ hp => hsub' (hsub hp), ?_⟩
  intro ρ
  rw [hB, hA, and_assoc]

theorem Adds.then {m : Build V α} {f : α → Build V β} {R : β → Prop}
    (hm : Adds inv m Q fun _ => True) (hf : ∀ a, Q a → Adds inv (f a) R B) :
    Adds inv (m >>= f) R B := (hm.bind hf).mono (fun _ h => h) fun _ => and_iff_right trivial

theorem Adds.bvVal {zeroSort : Bool} (v : Nat) {w : Nat} (hw : zeroSort = true ∨ 0 < w) :
    Adds inv (bvVal (V := V) zeroSort v w) (· = .val v w) fun _ => True := by
  refine Adds.lift (a := .val v w) (if_neg ?_) rfl
  intro h
  rcases hw with rfl | hw
  · exact absurd h.2 (by decide)
  · omega

theorem Adds.assertEq {l r : Term V} (hw : l.width = r.width) :
    Adds inv (assertEq l r) (fun _ => True) fun ρ => l.eval ρ = r.eval ρ := by
  intro s hs
  refine ⟨(), _, if_pos hw, trivial, hs, List.subset_append_left _ _, fun ρ => ?_⟩
  simp only [Solver.Holds, List.mem_append, List.mem_singleton, or_imp, forall_and, forall_eq]

/-- Nothing is caught. -/
theorem Adds.attempt {m : Build V Unit} {Q : Unit → Prop} (h : Adds inv m Q A) :
    Adds inv (attempt m) (fun _ => True) A := by
  intro s hs
  obtain ⟨a, s', hstep, -, hinv, hsub, hholds⟩ := h s hs
  refine ⟨(), s', ?_, trivial, hinv, hsub, hholds⟩
  unfold Build.attempt
  rw [hstep]

theorem Does.pure {a : α} (h : Q a) : Does inv (Pure.pure a) Q fun _ => True := (Adds.pure h).does

theorem Does.lift {o : Option α} {a : α} (ho : o = some a) (h : Q a) :
    Does inv (lift o) Q fun _ => True := (Adds.lift ho h).does

theorem Does.mono {m : Build V α} {R : α → Prop} (h : Does inv m Q A) (hQ : ∀ a, Q a → R a)
    (hA : ∀ ρ, A ρ → B ρ) : Does inv m R B := by
  intro s hs
  obtain ⟨a, s', hstep, hq, hinv, hsub, hholds⟩ := h s hs
  exact ⟨a, s', hstep, hQ a hq, hinv, hsub, fun ρ hρ => hA ρ (hholds ρ hρ)⟩

/-- The second step may use what the first returns, and both assert. -/
theorem Does.bind {m : Build V α} {f : α → Build V β} {R : β → Prop} (hm : Does inv m Q A)
    (hf : ∀ a, Q a → Does inv (f a) R B) : Does inv (m >>= f) R fun ρ => A ρ ∧ B ρ := by
  intro s hs
  obtain ⟨a, s₁, hstep, hq, hinv, hsub, hA⟩ := hm s hs
  obtain ⟨b, s₂, hstep', hr, hinv', hsub', hB⟩ := hf a hq s₁ hinv
  refine ⟨b, s₂, (bind_some hstep).trans hstep', hr, hinv', fun _ hp => hsub' (hsub hp), ?_⟩
  exact fun ρ hρ => ⟨hA ρ (holds_of_subset hsub' hρ), hB ρ hρ⟩

/-- A first step that asserts nothing. -/
theorem Does.then {m : Build V α} {f : α → Build V β} {R : β → Prop}
    (hm : Does inv m Q fun _ => True) (hf : ∀ a, Q a → Does inv (f a) R B) :
    Does inv (m >>= f) R B := (hm.bind hf).mono (fun _ h => h) fun _ h => h.2

theorem Does.bvVal {zeroSort : Bool} (v : Nat) {w : Nat} (hw : zeroSort = true ∨ 0 < w) :
    Does inv (bvVal (V := V) zeroSort v w) (· = .val v w) fun _ => True := (Adds.bvVal v hw).does

theorem Does.assertEq {l r : Term V} (hw : l.width = r.width) :
    Does inv (assertEq l r) (fun _ => True) fun ρ => l.eval ρ = r.eval ρ := (Adds.assertEq hw).does

/-- Nothing is caught. -/
theorem Does.attempt {m : Build V Unit} {Q : Unit → Prop} (h : Does inv m Q A) :
    Does inv (attempt m) (fun _ => True) A := by
  intro s hs
  obtain ⟨a, s', hstep, -, hinv, hsub, hholds⟩ := h s hs
  refine ⟨(), s', ?_, trivial, hinv, hsub, hholds⟩
  unfold Build.attempt
  rw [hstep]

/-- A loop. -/
theorem Does.forM {ι : Type} {l : List ι} {body : ι → Build V PUnit} {A : ι → (V → Nat) → Prop}
    (h : ∀ i ∈ l, Does inv (body i) (fun _ => True) (A i)) :
    Does inv (l.forM body) (fun _ => True) fun ρ => ∀ i ∈ l, A i ρ := by
  induction l with
  | nil =>
    apply (Does.pure trivial).mono fun _ h => h
    exact fun _ _ i hi => absurd hi List.not_mem_nil
  | cons i l ih =>
    have hrest := ih fun j hj => h j (List.mem_cons_of_mem i hj)
    have hloop := (h i List.mem_cons_self).bind fun _ _ => hrest
    apply hloop.mono fun _ h => h
    intro ρ hρ j hj
    rcases List.mem_cons.mp hj with rfl | hj
    · exact hρ.1
    · exact hρ.2 j hj

end Build

end Smt
