import Mathlib.Tactic

/-!
# Lists that come apart

Two lists come apart when they differ at some place after a common start.  Whatever is added at their ends, they stay
different.
-/

variable {α β : Type}

/-- The lists differ at some place after a common start. -/
def List.Apart (l l' : List α) : Prop := ∃ u a b s t, a ≠ b ∧ l = u ++ a :: s ∧ l' = u ++ b :: t

namespace List.Apart

variable {l l' : List α}

theorem heads {a b : α} (h : a ≠ b) (s t : List α) : (a :: s).Apart (b :: t) := ⟨[], a, b, s, t, h, rfl, rfl⟩

theorem ne (h : l.Apart l') : l ≠ l' := by
  obtain ⟨u, a, b, s, t, hab, rfl, rfl⟩ := h
  intro heq
  exact hab (List.cons.inj (List.append_cancel_left heq)).1

theorem append (h : l.Apart l') (v w : List α) : (l ++ v).Apart (l' ++ w) := by
  obtain ⟨u, a, b, s, t, hab, rfl, rfl⟩ := h
  exact ⟨u, a, b, s ++ v, t ++ w, hab, by simp, by simp⟩

theorem append_left (h : l.Apart l') (v : List α) : (v ++ l).Apart (v ++ l') := by
  obtain ⟨u, a, b, s, t, hab, rfl, rfl⟩ := h
  exact ⟨v ++ u, a, b, s, t, hab, by simp, by simp⟩

theorem of_grown (h : l.Apart l') {m m' : List α} (hm : l <+: m) (hm' : l' <+: m') : m.Apart m' := by
  obtain ⟨v, rfl⟩ := hm
  obtain ⟨w, rfl⟩ := hm'
  exact h.append v w

/-- Pieces that are the same or come apart, one after the other, come apart unless all are the same. -/
theorem flatMap {γ : Type} {f g : γ → List α} {l : List γ} (h : ∀ c ∈ l, f c = g c ∨ (f c).Apart (g c))
    {c : γ} (hc : c ∈ l) (hne : f c ≠ g c) : (l.flatMap f).Apart (l.flatMap g) := by
  induction l with
  | nil => cases hc
  | cons d l ih =>
    rw [List.flatMap_cons, List.flatMap_cons]
    rcases h d List.mem_cons_self with hd | hd
    · rw [hd]
      have hcl : c ∈ l := (List.mem_cons.mp hc).resolve_left fun heq => hne (heq ▸ hd)
      exact (ih (fun e he => h e (List.mem_cons_of_mem _ he)) hcl).append_left _
    · exact hd.append _ _

end List.Apart
