import Mathlib.Tactic

/-!
# Scanning

A scanner looks at the next character and what follows it, and says which tokens they make and how
many more characters these take.  The tokens of a text that was printed in pieces are the tokens of
its pieces, as long as each piece is followed by what ends it.
-/

/-- A scanner of characters `κ` with a state `σ`, tokens `τ` and errors `ε`. -/
structure Scanner (κ σ τ ε : Type) where
  /-- The next state, the tokens and how many characters to skip after the first one. -/
  step : σ → κ → List κ → Except ε (σ × List τ × Nat)

namespace Scanner

variable {κ σ τ ε : Type} (S : Scanner κ σ τ ε)

/-- Scan a text of which the first `skip` characters are already taken. -/
def run : Nat → σ → List κ → Except ε (List τ × σ)
  | _, s, [] => .ok ([], s)
  | skip + 1, s, _ :: text => run skip s text
  | 0, s, c :: text =>
    match S.step s c text with
    | .error e => .error e
    | .ok (s', toks, skip) => (run skip s' text).map fun r => (toks ++ r.1, r.2)

theorem run_drop (skip : Nat) (s : σ) (text : List κ) :
    S.run skip s text = S.run 0 s (text.drop skip) := by
  induction text generalizing skip with
  | nil => cases skip <;> simp [run]
  | cons c text ih =>
    cases skip with
    | zero => rfl
    | succ skip => rw [run, ih, List.drop_succ_cons]

theorem run_cons {s s' : σ} {c : κ} {text : List κ} {toks : List τ} {skip : Nat}
    (h : S.step s c text = .ok (s', toks, skip)) :
    S.run 0 s (c :: text) = (S.run 0 s' (text.drop skip)).map fun r => (toks ++ r.1, r.2) := by
  rw [run, h]
  dsimp only
  rw [run_drop]

theorem run_error {s : σ} {c : κ} {text : List κ} {e : ε} (h : S.step s c text = .error e) :
    S.run 0 s (c :: text) = .error e := by
  rw [run, h]

/-! ## How far a scan comes -/

/-- The scan comes from one state and text to another. -/
inductive Reaches : σ → List κ → σ → List κ → Prop
  | refl (s : σ) (text : List κ) : Reaches s text s text
  | step {s s' s'' : σ} {c : κ} {text rest : List κ} {toks : List τ} {skip : Nat}
    (h : S.step s c text = .ok (s', toks, skip)) (hrest : Reaches s' (text.drop skip) s'' rest) :
    Reaches s (c :: text) s'' rest

/-- A scan fails with the error of the first step that fails. -/
theorem run_error_iff {s : σ} {text : List κ} {e : ε} : S.run 0 s text = .error e ↔
    ∃ s' c rest, S.Reaches s text s' (c :: rest) ∧ S.step s' c rest = .error e := by
  constructor
  · intro h
    induction hn : text.length using Nat.strong_induction_on generalizing s text with
    | _ n ih =>
      cases text with
      | nil =>
        rw [run] at h
        cases h
      | cons c text =>
        cases hstep : S.step s c text with
        | error e' =>
          rw [S.run_error hstep] at h
          cases h
          exact ⟨s, c, text, .refl _ _, hstep⟩
        | ok r =>
          obtain ⟨s₁, toks, skip⟩ := r
          rw [S.run_cons hstep] at h
          have hlt : (text.drop skip).length < n := by
            rw [← hn, List.length_drop, List.length_cons]
            omega
          have hrest : S.run 0 s₁ (text.drop skip) = .error e := by
            cases hr : S.run 0 s₁ (text.drop skip) with
            | error e' =>
              rw [hr] at h
              cases h
              rfl
            | ok r =>
              rw [hr] at h
              cases h
          obtain ⟨s', c', rest, hreach, herror⟩ := ih _ hlt hrest rfl
          exact ⟨s', c', rest, .step hstep hreach, herror⟩
  · rintro ⟨s', c, rest, hreach, herror⟩
    generalize hstop : c :: rest = stop at hreach
    induction hreach with
    | refl s text =>
      subst hstop
      exact S.run_error herror
    | step h _ ih =>
      rw [S.run_cons h, ih herror hstop]
      rfl

end Scanner
