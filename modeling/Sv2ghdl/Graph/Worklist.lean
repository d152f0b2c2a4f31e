import Mathlib.Data.List.Basic
import Mathlib.Tactic

/-!
# Worklists

The walk of a graph with a stack of nodes to look at and a set of nodes that were seen.  A visit may
change marks, which are kept beside, and it says which nodes are to be looked at next: the marks may
cut a visit short, so the nodes that are seen need not be all that are reachable.
-/

namespace Worklist

variable {α τ : Type} [DecidableEq α]

/-- The marks when the stack is empty; `none` when the fuel runs out. -/
def walk (visit : α → τ → τ × List α) : Nat → List α → List α → τ → Option τ
  | _, _, [], t => some t
  | 0, _, _ :: _, _ => none
  | fuel + 1, seen, a :: stack, t =>
    if a ∈ seen then walk visit fuel seen stack t
    else walk visit fuel (a :: seen) ((visit a t).2 ++ stack) (visit a t).1

section Walk

variable {visit : α → τ → τ × List α}

/-- The invariant rule. -/
theorem walk_rule (inv : List α → List α → τ → Prop) {fuel : Nat} {seen stack : List α} {t t' : τ}
    (h : inv seen stack t)
    (hskip : ∀ seen a stack t, a ∈ seen → inv seen (a :: stack) t → inv seen stack t)
    (hvisit : ∀ seen a stack t, a ∉ seen → inv seen (a :: stack) t →
      inv (a :: seen) ((visit a t).2 ++ stack) (visit a t).1)
    (hwalk : walk visit fuel seen stack t = some t') : ∃ seen', inv seen' [] t' := by
  induction fuel generalizing seen stack t with
  | zero =>
    cases stack with
    | nil =>
      cases hwalk
      exact ⟨seen, h⟩
    | cons a stack => cases hwalk
  | succ fuel ih =>
    cases stack with
    | nil =>
      cases hwalk
      exact ⟨seen, h⟩
    | cons a stack =>
      rw [walk] at hwalk
      split_ifs at hwalk with ha
      · exact ih (hskip seen a stack t ha h) hwalk
      · exact ih (hvisit seen a stack t ha h) hwalk

variable (weight : α → Nat) (keys : List α)

/-- The pushes that are still to come, at most. -/
def pending (seen : List α) : Nat := ((keys.filter (· ∉ seen)).map weight).sum

variable {keys}

theorem pending_cons (hkeys : keys.Nodup) {seen : List α} {a : α} (ha : a ∈ keys) (hnew : a ∉ seen) :
    pending weight keys seen = weight a + pending weight keys (a :: seen) := by
  have hmem : a ∈ keys.filter (· ∉ seen) := List.mem_filter.mpr ⟨ha, decide_eq_true hnew⟩
  have herase : (keys.filter (· ∉ seen)).erase a = keys.filter (· ∉ a :: seen) := by
    rw [(hkeys.filter _).erase_eq_filter, List.filter_filter]
    apply List.filter_congr
    intro b _
    by_cases hb : b = a
    · simp [hb]
    · simp [hb, bne_iff_ne.mpr hb]
  unfold pending
  rw [((List.perm_cons_erase hmem).map weight).sum_eq, List.map_cons, List.sum_cons, herase]

theorem pending_other (seen : List α) {a : α} (ha : a ∉ keys) :
    pending weight keys (a :: seen) = pending weight keys seen := by
  unfold pending
  congr 2
  apply List.filter_congr
  intro b hb
  have hne : b ≠ a := fun h => ha (h ▸ hb)
  simp [hne]

/-- The walk ends when the fuel covers the stack and all pushes that the nodes of `keys` can make. -/
theorem walk_total {weight : α → Nat} (hkeys : keys.Nodup) (hpush : ∀ a t, (visit a t).2.length ≤ weight a)
    (hrest : ∀ a, a ∉ keys → weight a = 0) {fuel : Nat} {seen stack : List α} {t : τ}
    (hfuel : stack.length + pending weight keys seen ≤ fuel) :
    ∃ t', walk visit fuel seen stack t = some t' := by
  induction fuel generalizing seen stack t with
  | zero =>
    have hnil : stack = [] := List.length_eq_zero_iff.mp (by omega)
    subst hnil
    exact ⟨t, rfl⟩
  | succ fuel ih =>
    cases stack with
    | nil => exact ⟨t, rfl⟩
    | cons a stack =>
      rw [walk]
      rw [List.length_cons] at hfuel
      have hlength := hpush a t
      split_ifs with ha
      · apply ih
        omega
      · apply ih
        rw [List.length_append]
        by_cases hkey : a ∈ keys
        · have hsplit := pending_cons weight hkeys hkey ha
          omega
        · have hsame := pending_other weight seen hkey
          have hzero := hrest a hkey
          omega

end Walk

/-- Two walks that push the same nodes. -/
theorem walk_simulation {τ' : Type} {visit : α → τ → τ × List α} {visit' : α → τ' → τ' × List α}
    (R : τ → τ' → Prop) (hvisit : ∀ a t t', R t t' → R (visit a t).1 (visit' a t').1 ∧
      (visit a t).2 = (visit' a t').2) {fuel : Nat} {seen stack : List α} {t t₁ : τ} {t' : τ'}
    (h : R t t') (hwalk : walk visit fuel seen stack t = some t₁) :
    ∃ t₁', walk visit' fuel seen stack t' = some t₁' ∧ R t₁ t₁' := by
  induction fuel generalizing seen stack t t' with
  | zero =>
    cases stack with
    | nil =>
      cases hwalk
      exact ⟨t', rfl, h⟩
    | cons a stack => cases hwalk
  | succ fuel ih =>
    cases stack with
    | nil =>
      cases hwalk
      exact ⟨t', rfl, h⟩
    | cons a stack =>
      rw [walk] at hwalk ⊢
      split_ifs at hwalk ⊢ with ha
      · exact ih h hwalk
      · have hstep := hvisit a t t' h
        rw [← hstep.2]
        exact ih hstep.1 hwalk

end Worklist
