import Mathlib.Tactic

/-!
# Operator precedence parsing

A Pratt parser over any tokens, trees and errors.  A grammar says what a token does at the start of
an operand and after one; the parser is the loop over binding powers.  The fuel of the recursion is
never the reason for a failure once it is three times the number of tokens.
-/

namespace Pratt

/-- Why a parse fails: an error of the grammar, tokens that run out, or fuel that does. -/
inductive Failure (ε : Type) where
  | error (e : ε)
  | exhausted
  | fuel

abbrev Result (ε β : Type) := Except (Failure ε) β

/-- What a token at the start of an operand does. -/
inductive Nud (τ α ε : Type) where
  | leaf (a : α)
  | fail (e : ε)
  | unary (rbp : Nat) (build : α → α)
  /-- An opening parenthesis; `empty` is the error of closing it at once. -/
  | group (empty : τ → ε)
  /-- A name in front of an opening parenthesis; `empty` is the call without arguments. -/
  | call (empty : τ → Except ε α) (build : List α → Except ε α)

/-- What an operator after an operand does. -/
inductive Led (α : Type) where
  | binary (rbp : Nat) (build : α → α → α)
  | ternary (rbp : Nat) (build : α → α → α → α)

structure Grammar (τ α ε : Type) where
  /-- A token at the start of an operand, given the token after it. -/
  nud : τ → Option τ → Nud τ α ε
  /-- The left binding power of an operator and what it does. -/
  led : τ → Option (Nat × Led α)
  isClose : τ → Bool
  isComma : τ → Bool
  isColon : τ → Bool
  notClose : τ → ε
  notColon : τ → ε

variable {τ α ε β γ : Type}

def lift : Except ε β → Result ε β
  | .ok b => .ok b
  | .error e => .error (.error e)

/-- The tokens after the one that has to come next. -/
def expect (wanted : τ → Bool) (other : τ → ε) : List τ → Result ε (List τ)
  | [] => .error .exhausted
  | t :: ts => if wanted t then .ok ts else .error (.error (other t))

namespace Grammar

variable (G : Grammar τ α ε)

mutual

def expr : Nat → Nat → List τ → Result ε (α × List τ)
  | 0, _, _ => .error .fuel
  | n + 1, rbp, ts => do
    let (left, ts) ← operand n ts
    loop n rbp left ts

/-- The operand at the front of the tokens. -/
def operand : Nat → List τ → Result ε (α × List τ)
  | 0, _ => .error .fuel
  | _ + 1, [] => .error .exhausted
  | n + 1, t :: ts =>
    match G.nud t ts.head? with
    | .leaf a => .ok (a, ts)
    | .fail e => .error (.error e)
    | .unary rbp build => do
      let (arg, ts) ← expr n rbp ts
      pure (build arg, ts)
    | .group empty =>
      match ts with
      | [] => .error .exhausted
      | c :: ts =>
        if G.isClose c then .error (.error (empty c))
        else do
          let (a, ts) ← expr n 0 (c :: ts)
          let ts ← expect G.isClose G.notClose ts
          pure (a, ts)
    | .call empty build =>
      match ts with
      | _ :: c :: ts =>
        if G.isClose c then do
          let a ← lift (empty c)
          pure (a, ts)
        else do
          let (as, ts) ← args n (c :: ts)
          let ts ← expect G.isClose G.notClose ts
          let a ← lift (build as)
          pure (a, ts)
      | _ => .error .exhausted

/-- Expressions separated by commas. -/
def args : Nat → List τ → Result ε (List α × List τ)
  | 0, _ => .error .fuel
  | n + 1, ts => do
    let (a, ts) ← expr n 0 ts
    match ts with
    | [] => .error .exhausted
    | c :: ts =>
      if G.isComma c then do
        let (as, ts) ← args n ts
        pure (a :: as, ts)
      else pure ([a], c :: ts)

/-- The operators after an operand, as long as they bind tighter than `rbp`. -/
def loop : Nat → Nat → α → List τ → Result ε (α × List τ)
  | 0, _, _, _ => .error .fuel
  | _ + 1, _, _, [] => .error .exhausted
  | n + 1, rbp, left, t :: ts =>
    match G.led t with
    | none => .ok (left, t :: ts)
    | some (lbp, led) =>
      if lbp ≤ rbp then .ok (left, t :: ts)
      else
        match led with
        | .binary right build => do
          let (b, ts) ← expr n right ts
          loop n rbp (build left b) ts
        | .ternary right build => do
          let (a, ts) ← expr n 0 ts
          let ts ← expect G.isColon G.notColon ts
          let (b, ts) ← expr n right ts
          loop n rbp (build left a b) ts

end

/-! ## Enough fuel -/

/-- A result that did not run out of fuel and left at most `bound` tokens. -/
def Ends (bound : Nat) : Result ε (β × List τ) → Prop
  | .ok (_, rest) => rest.length ≤ bound
  | .error .fuel => False
  | .error _ => True

theorem Ends.bind {bound bound' : Nat} {r : Result ε (β × List τ)}
    {f : β × List τ → Result ε (γ × List τ)} (h : Ends bound r)
    (hf : ∀ b rest, rest.length ≤ bound → Ends bound' (f (b, rest))) : Ends bound' (r >>= f) := by
  match r with
  | .ok (b, rest) => exact hf b rest h
  | .error (.error e) => trivial
  | .error .exhausted => trivial

theorem Ends.expect_bind {bound bound' : Nat} {wanted : τ → Bool} {other : τ → ε} {ts : List τ}
    {f : List τ → Result ε (γ × List τ)} (h : ts.length ≤ bound + 1)
    (hf : ∀ rest, rest.length ≤ bound → Ends bound' (f rest)) :
    Ends bound' (expect wanted other ts >>= f) := by
  cases ts with
  | nil => trivial
  | cons t ts =>
    by_cases ht : wanted t = true
    · simp only [expect, if_pos ht]
      exact hf ts (by simpa using h)
    · simp only [expect, if_neg ht]
      trivial

theorem Ends.lift_bind {bound : Nat} {r : Except ε β} {f : β → Result ε (γ × List τ)}
    (hf : ∀ b, Ends bound (f b)) : Ends bound (lift r >>= f) := by
  cases r with
  | ok b => exact hf b
  | error e => trivial

theorem Ends.mono {bound bound' : Nat} {r : Result ε (β × List τ)} (h : Ends bound r)
    (hb : bound ≤ bound') : Ends bound' r := by
  match r with
  | .ok (b, rest) => exact Nat.le_trans h hb
  | .error (.error e) => trivial
  | .error .exhausted => trivial

theorem ends (n : Nat) :
    (∀ rbp ts, 3 * ts.length + 2 ≤ n → Ends (ts.length - 1) (G.expr n rbp ts)) ∧
      (∀ ts, 3 * ts.length + 1 ≤ n → Ends (ts.length - 1) (G.operand n ts)) ∧
      (∀ ts, 3 * ts.length + 3 ≤ n → Ends (ts.length - 1) (G.args n ts)) ∧
      (∀ rbp left ts, 3 * ts.length + 1 ≤ n → Ends ts.length (G.loop n rbp left ts)) := by
  induction n with
  | zero => exact ⟨fun _ _ h => by omega, fun _ h => by omega, fun _ h => by omega,
      fun _ _ _ h => by omega⟩
  | succ n ih =>
    obtain ⟨hexpr, hoperand, hargs, hloop⟩ := ih
    refine ⟨fun rbp ts h => ?_, fun ts h => ?_, fun ts h => ?_, fun rbp left ts h => ?_⟩
    · rw [expr]
      exact (hoperand ts (by omega)).bind fun left rest hrest =>
        (hloop rbp left rest (by omega)).mono hrest
    · cases ts with
      | nil => rw [operand]; trivial
      | cons t ts =>
        rw [List.length_cons] at h
        rw [operand]
        cases G.nud t ts.head? with
        | leaf a => exact Nat.le_refl _
        | fail e => trivial
        | unary rbp build =>
          exact (hexpr rbp ts (by omega)).bind fun a rest hrest =>
            show rest.length ≤ ts.length by omega
        | group empty =>
          cases ts with
          | nil => trivial
          | cons c ts =>
            dsimp only
            split_ifs
            · trivial
            · exact (hexpr 0 (c :: ts) (by omega)).bind fun a rest hrest =>
                Ends.expect_bind (Nat.le_succ_of_le hrest) fun _ hrest => Nat.le_succ_of_le hrest
        | call empty build =>
          match ts with
          | [] => trivial
          | [_] => trivial
          | o :: c :: ts =>
            simp only [List.length_cons] at h
            have hlen : (t :: o :: c :: ts).length - 1 = ts.length + 2 := rfl
            rw [hlen]
            dsimp only
            split_ifs
            · exact Ends.lift_bind fun _ => show ts.length ≤ ts.length + 2 by omega
            · exact (hargs (c :: ts) (by simp only [List.length_cons]; omega)).bind
                fun as rest hrest => Ends.expect_bind (Nat.le_succ_of_le hrest) fun rest hrest =>
                  Ends.lift_bind fun _ => show rest.length ≤ ts.length + 2 by
                    simp only [List.length_cons] at hrest
                    omega
    · rw [args]
      refine (hexpr 0 ts (by omega)).bind fun a rest hrest => ?_
      cases rest with
      | nil => trivial
      | cons c rest =>
        rw [List.length_cons] at hrest
        dsimp only
        split_ifs
        · exact (hargs rest (by omega)).bind fun as rest' hrest' =>
            show rest'.length ≤ ts.length - 1 by omega
        · exact hrest
    · cases ts with
      | nil => rw [loop]; trivial
      | cons t ts =>
        rw [List.length_cons] at h
        rw [loop]
        match G.led t with
        | none => exact Nat.le_refl _
        | some (lbp, .binary right build) =>
          dsimp only
          split_ifs
          · exact Nat.le_refl _
          · exact (hexpr right ts (by omega)).bind fun b rest hrest =>
              (hloop rbp _ rest (by omega)).mono (by rw [List.length_cons]; omega)
        | some (lbp, .ternary right build) =>
          dsimp only
          split_ifs
          · exact Nat.le_refl _
          · exact (hexpr 0 ts (by omega)).bind fun a rest hrest =>
              Ends.expect_bind (Nat.le_succ_of_le hrest) fun rest hrest =>
                (hexpr right rest (by omega)).bind fun b rest' hrest' =>
                  (hloop rbp _ rest' (by omega)).mono (by rw [List.length_cons]; omega)

/-- Fuel that is enough for every expression of these tokens. -/
def fuelFor (ts : List τ) : Nat := 3 * ts.length + 2

theorem expr_ne_fuel (rbp : Nat) (ts : List τ) : G.expr (fuelFor ts) rbp ts ≠ .error .fuel := by
  intro h
  have hends := (G.ends (fuelFor ts)).1 rbp ts (Nat.le_refl _)
  rw [h] at hends
  exact hends

/-! ## Tokens with an end mark -/

/-- A token that ends the tokens: no operand starts with it, and nothing goes on or closes with it. -/
structure EndMark (last : τ) (P : ε → Prop) : Prop where
  nud : ∃ e, G.nud last none = .fail e ∧ P e
  notCall : ∀ t empty build, G.nud t (some last) ≠ .call empty build
  led : G.led last = none
  isClose : G.isClose last = false
  isComma : G.isComma last = false
  isColon : G.isColon last = false

/-- Every error that the grammar makes has the property. -/
structure Errors (P : ε → Prop) : Prop where
  nud : ∀ t next e, G.nud t (some next) = .fail e → P e
  group : ∀ t next c empty, G.nud t next = .group empty → P (empty c)
  empty : ∀ t next c e empty build, G.nud t next = .call empty build → empty c = .error e → P e
  build : ∀ t next as e empty build, G.nud t next = .call empty build → build as = .error e → P e
  notClose : ∀ c, P (G.notClose c)
  notColon : ∀ c, P (G.notColon c)

/-- A result that leaves the end mark, or whose error has the property, unless it ran out of fuel. -/
def Marked (last : τ) (P : ε → Prop) : Result ε (β × List τ) → Prop
  | .ok (_, rest) => rest.getLast? = some last
  | .error (.error e) => P e
  | .error .exhausted => False
  | .error .fuel => True

section Marked

variable {last : τ} {P : ε → Prop}

theorem getLast?_tail {t : τ} {ts : List τ} (h : (t :: ts).getLast? = some last) :
    ts = [] ∧ t = last ∨ ts.getLast? = some last := by
  cases ts with
  | nil => exact .inl ⟨rfl, Option.some.inj h⟩
  | cons t' ts => exact .inr (List.getLast?_cons_cons ▸ h)

theorem Marked.bind {r : Result ε (β × List τ)} {f : β × List τ → Result ε (γ × List τ)} (h : Marked last P r)
    (hf : ∀ b rest, rest.getLast? = some last → Marked last P (f (b, rest))) : Marked last P (r >>= f) := by
  match r with
  | .ok (b, rest) => exact hf b rest h
  | .error (.error e) => exact h
  | .error .fuel => trivial

theorem Marked.expect_bind {wanted : τ → Bool} {other : τ → ε} {ts : List τ} {f : List τ → Result ε (γ × List τ)}
    (h : ts.getLast? = some last) (hwanted : wanted last = false) (hother : ∀ c, P (other c))
    (hf : ∀ rest, rest.getLast? = some last → Marked last P (f rest)) :
    Marked last P (expect wanted other ts >>= f) := by
  cases ts with
  | nil => cases h
  | cons t ts =>
    by_cases ht : wanted t = true
    · simp only [expect, if_pos ht]
      rcases getLast?_tail h with ⟨rfl, rfl⟩ | h
      · rw [hwanted] at ht
        cases ht
      · exact hf ts h
    · simp only [expect, if_neg ht]
      exact hother t

theorem Marked.lift_bind {r : Except ε β} {f : β → Result ε (γ × List τ)} (hr : ∀ e, r = .error e → P e)
    (hf : ∀ b, Marked last P (f b)) : Marked last P (lift r >>= f) := by
  cases r with
  | ok b => exact hf b
  | error e => exact hr e rfl

/-- On tokens with an end mark the parser never asks for a token behind it. -/
theorem marked (hend : G.EndMark last P) (herrors : G.Errors P) (n : Nat) :
    (∀ rbp ts, ts.getLast? = some last → Marked last P (G.expr n rbp ts)) ∧
      (∀ ts, ts.getLast? = some last → Marked last P (G.operand n ts)) ∧
      (∀ ts, ts.getLast? = some last → Marked last P (G.args n ts)) ∧
      (∀ rbp left ts, ts.getLast? = some last → Marked last P (G.loop n rbp left ts)) := by
  induction n with
  | zero =>
    refine ⟨fun _ _ _ => ?_, fun _ _ => ?_, fun _ _ => ?_, fun _ _ _ _ => ?_⟩
    · rw [expr]
      trivial
    · rw [operand]
      trivial
    · rw [args]
      trivial
    · rw [loop]
      trivial
  | succ n ih =>
    obtain ⟨hexpr, hoperand, hargs, hloop⟩ := ih
    refine ⟨fun rbp ts h => ?_, fun ts h => ?_, fun ts h => ?_, fun rbp left ts h => ?_⟩
    · rw [expr]
      exact (hoperand ts h).bind fun left rest hrest => hloop rbp left rest hrest
    · cases ts with
      | nil => cases h
      | cons t ts =>
        rw [operand]
        rcases getLast?_tail h with ⟨rfl, rfl⟩ | hts
        · -- the end mark itself
          obtain ⟨e, he, hP⟩ := hend.nud
          rw [List.head?_nil, he]
          exact hP
        obtain ⟨next, ts', rfl⟩ := List.exists_cons_of_ne_nil fun hnil : ts = [] => by
          rw [hnil] at hts
          cases hts
        rw [List.head?_cons]
        cases hnud : G.nud t (some next) with
        | leaf a => exact hts
        | fail e => exact herrors.nud t next e hnud
        | unary rbp build => exact (hexpr rbp _ hts).bind fun a rest hrest => hrest
        | group empty =>
          dsimp only
          split_ifs
          · exact herrors.group t _ next empty hnud
          · exact (hexpr 0 _ hts).bind fun a rest hrest =>
              Marked.expect_bind hrest hend.isClose herrors.notClose fun rest hrest => hrest
        | call empty build =>
          rcases getLast?_tail hts with ⟨rfl, rfl⟩ | hts'
          · exact absurd hnud (hend.notCall t empty build)
          obtain ⟨c, ts, rfl⟩ := List.exists_cons_of_ne_nil fun hnil : ts' = [] => by
            rw [hnil] at hts'
            cases hts'
          dsimp only
          split_ifs with hc
          · refine Marked.lift_bind (fun e he => herrors.empty t _ c e empty build hnud he) fun a => ?_
            rcases getLast?_tail hts' with ⟨rfl, rfl⟩ | hrest
            · rw [hend.isClose] at hc
              cases hc
            · exact hrest
          · exact (hargs _ hts').bind fun as rest hrest =>
              Marked.expect_bind hrest hend.isClose herrors.notClose fun rest hrest =>
                Marked.lift_bind (fun e he => herrors.build t _ as e empty build hnud he) fun a => hrest
    · rw [args]
      refine (hexpr 0 ts h).bind fun a rest hrest => ?_
      cases rest with
      | nil => cases hrest
      | cons c rest =>
        dsimp only
        split_ifs with hc
        · rcases getLast?_tail hrest with ⟨rfl, rfl⟩ | hrest
          · rw [hend.isComma] at hc
            cases hc
          · exact (hargs rest hrest).bind fun as rest hrest => hrest
        · exact hrest
    · cases ts with
      | nil => cases h
      | cons t ts =>
        rw [loop]
        match hled : G.led t with
        | none => exact h
        | some (lbp, led) =>
          have hts : ts.getLast? = some last := by
            rcases getLast?_tail h with ⟨rfl, rfl⟩ | hts
            · rw [hend.led] at hled
              cases hled
            · exact hts
          dsimp only
          split_ifs
          · exact h
          cases led with
          | binary right build =>
            exact (hexpr right ts hts).bind fun b rest hrest => hloop rbp _ rest hrest
          | ternary right build =>
            exact (hexpr 0 ts hts).bind fun a rest hrest =>
              Marked.expect_bind hrest hend.isColon herrors.notColon fun rest hrest =>
                (hexpr right rest hrest).bind fun b rest hrest => hloop rbp _ rest hrest

end Marked

end Grammar

end Pratt
