import Mathlib.Logic.Function.Basic
import Mathlib.Tactic

/-!
# Equations between named values

Values given by equations that read each other, computed by rounds over the equations that are left:
an equation whose value is not there yet is tried again in the next round.  Equations that come in an
order in which each reads only what is known by then are all solved in the first round.
-/

namespace Equations

variable {ν β ε : Type}

abbrev Env (ν β : Type) := ν → Option β

/-- An equation for a name; its right-hand side depends on the names it reads only. -/
structure Equation (ν β ε : Type) where
  name : ν
  reads : List ν
  value : Env ν β → Except ε β
  congr : ∀ env env' : Env ν β, (∀ n ∈ reads, env n = env' n) → value env = value env'

/-- An environment solves an equation. -/
def Equation.Solved (q : Equation ν β ε) (env : Env ν β) : Prop :=
  ∃ x, q.value env = .ok x ∧ env q.name = some x

/-- An environment of which more is right solves the same equations. -/
theorem Equation.Solved.congr {q : Equation ν β ε} {env env' : Env ν β} (h : q.Solved env)
    (hreads : ∀ n ∈ q.reads, env' n = env n) (hname : env' q.name = env q.name) :
    q.Solved env' := by
  obtain ⟨x, hx, hn⟩ := h
  refine ⟨x, ?_, hname.trans hn⟩
  rw [q.congr env' env hreads]
  exact hx

/-! ## Rounds -/

/-- One round: the equations that are left over with their errors, and whether one was solved.  An
    error that is not caught ends it. -/
def round [DecidableEq ν] (caught : ε → Bool) :
    List (Equation ν β ε) → Env ν β → Except ε (Env ν β × List (Equation ν β ε × ε) × Bool)
  | [], env => .ok (env, [], false)
  | q :: todo, env =>
    match q.value env with
    | .ok x =>
      (round caught todo (Function.update env q.name (some x))).map fun r => (r.1, r.2.1, true)
    | .error e =>
      if caught e then (round caught todo env).map fun r => (r.1, (q, e) :: r.2.1, r.2.2)
      else .error e

/-- At most `fuel` rounds, until no equation is left or none was solved. -/
def rounds [DecidableEq ν] (caught : ε → Bool) :
    Nat → List (Equation ν β ε) → Env ν β → List (Equation ν β ε × ε) →
      Except ε (Env ν β × List (Equation ν β ε × ε))
  | 0, _, env, remaining => .ok (env, remaining)
  | fuel + 1, todo, env, _ =>
    match round caught todo env with
    | .error e => .error e
    | .ok (env, remaining, progress) =>
      if remaining.isEmpty || !progress then .ok (env, remaining)
      else rounds caught fuel (remaining.map Prod.fst) env remaining

def solve [DecidableEq ν] (caught : ε → Bool) (todo : List (Equation ν β ε)) (env : Env ν β) :
    Except ε (Env ν β × List (Equation ν β ε × ε)) :=
  rounds caught (todo.length + 1) todo env []

/-! ## Equations in order -/

/-- Each equation reads what is known, the names of the equations before it included. -/
def InOrder (known : ν → Prop) : List (Equation ν β ε) → Prop
  | [] => True
  | q :: todo => (∀ n ∈ q.reads, known n) ∧ InOrder (fun n => known n ∨ n = q.name) todo

/-- On names of which the equations read no others, two solutions agree. -/
theorem InOrder.agree {known P : ν → Prop} {todo : List (Equation ν β ε)} {env sol : Env ν β}
    (horder : InOrder known todo) (hknown : ∀ n, known n → P n → env n = sol n)
    (hP : ∀ q ∈ todo, P q.name → q.Solved env ∧ q.Solved sol ∧ ∀ n ∈ q.reads, P n) :
    ∀ n, known n ∨ n ∈ todo.map Equation.name → P n → env n = sol n := by
  induction todo generalizing known with
  | nil => simpa using hknown
  | cons q todo ih =>
    have hhead : P q.name → env q.name = sol q.name := by
      intro hq
      obtain ⟨⟨x, hx, hn⟩, ⟨y, hy, hm⟩, hreads⟩ := hP q List.mem_cons_self hq
      -- both right-hand sides read the same values
      rw [q.congr env sol fun n hn => hknown n (horder.1 n hn) (hreads n hn), hy] at hx
      rw [hn, hm, Except.ok.inj hx]
    have htail := ih horder.2
      (by
        rintro n (hn | rfl) hPn
        · exact hknown n hn hPn
        · exact hhead hPn)
      fun q hq => hP q (List.mem_cons_of_mem _ hq)
    intro n hn hPn
    apply htail n _ hPn
    rw [List.map_cons, List.mem_cons] at hn
    tauto

/-- A round over equations in order gives them the values of a solution. -/
theorem round_inOrder [DecidableEq ν] (caught : ε → Bool) {known : ν → Prop} {todo : List (Equation ν β ε)}
    {env sol : Env ν β} (horder : InOrder known todo) (hknown : ∀ n, known n → env n = sol n)
    (hsol : ∀ q ∈ todo, q.Solved sol) :
    ∃ env', round caught todo env = .ok (env', [], !todo.isEmpty) ∧
      (∀ n, known n ∨ n ∈ todo.map Equation.name → env' n = sol n) ∧
      ∀ n, n ∉ todo.map Equation.name → env' n = env n := by
  induction todo generalizing known env with
  | nil => exact ⟨env, rfl, by simpa using hknown, fun _ _ => rfl⟩
  | cons q todo ih =>
    obtain ⟨x, hx, hn⟩ := hsol q List.mem_cons_self
    have hvalue : q.value env = .ok x := by
      rw [q.congr env sol fun n hn => hknown n (horder.1 n hn)]
      exact hx
    have hknown' : ∀ n, known n ∨ n = q.name →
        Function.update env q.name (some x) n = sol n := by
      intro n h
      by_cases hname : n = q.name
      · rw [hname, Function.update_self, hn]
      · rw [Function.update_of_ne hname]
        exact hknown n (h.resolve_right hname)
    obtain ⟨env', hround, hright, hframe⟩ := ih horder.2 hknown'
      fun q hq => hsol q (List.mem_cons_of_mem _ hq)
    refine ⟨env', ?_, ?_, ?_⟩
    · rw [round, hvalue]
      dsimp only
      rw [hround]
      rfl
    · intro n h
      apply hright
      rw [List.map_cons, List.mem_cons] at h
      tauto
    · intro n h
      rw [List.map_cons, List.mem_cons, not_or] at h
      rw [hframe n h.2, Function.update_of_ne h.1]

/-- Equations in order are all solved, and nothing else changes. -/
theorem solve_inOrder [DecidableEq ν] (caught : ε → Bool) {known : ν → Prop} {todo : List (Equation ν β ε)}
    {env sol : Env ν β} (horder : InOrder known todo) (hknown : ∀ n, known n → env n = sol n)
    (hsol : ∀ q ∈ todo, q.Solved sol) :
    ∃ env', solve caught todo env = .ok (env', []) ∧
      (∀ n, known n ∨ n ∈ todo.map Equation.name → env' n = sol n) ∧
      ∀ n, n ∉ todo.map Equation.name → env' n = env n := by
  obtain ⟨env', hround, hright, hframe⟩ := round_inOrder caught horder hknown hsol
  refine ⟨env', ?_, hright, hframe⟩
  unfold solve rounds
  rw [hround]
  simp

end Equations
