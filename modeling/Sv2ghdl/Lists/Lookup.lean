import Mathlib.Data.List.Basic
import Mathlib.Tactic

/-!
# Association lists

A list of pairs as a table: the first pair of a key is the one that counts.
-/

namespace Lookup

theorem lookup_filter {α β : Type} [BEq α] [LawfulBEq α] {l : List (α × β)} (hl : (l.map Prod.fst).Nodup)
    (f : β → Bool) (k : α) : (l.filter fun p => f p.2).lookup k = (l.lookup k).filter f := by
  induction l with
  | nil => rfl
  | cons p l ih =>
    obtain ⟨hfirst, hl⟩ := List.nodup_cons.mp hl
    rw [List.filter_cons, List.lookup_cons]
    by_cases hk : k = p.1
    · subst hk
      rw [beq_self_eq_true]
      by_cases hf : f p.2
      · rw [if_pos hf, List.lookup_cons, beq_self_eq_true]
        exact (Option.filter_some_pos hf).symm
      · have hnone : l.lookup p.1 = none := by
          rw [List.lookup_eq_none_iff]
          intro q hq
          rw [bne_iff_ne]
          intro heq
          exact hfirst (heq ▸ List.mem_map_of_mem hq)
        rw [if_neg hf, ih hl, hnone]
        exact (Option.filter_some_neg (Bool.eq_false_of_not_eq_true hf)).symm
    · rw [beq_false_of_ne hk]
      by_cases hf : f p.2
      · rw [if_pos hf, List.lookup_cons, beq_false_of_ne hk]
        exact ih hl
      · rw [if_neg hf]
        exact ih hl

theorem lookup_of_mem {α β : Type} [BEq α] [LawfulBEq α] {l : List (α × β)} (hl : (l.map Prod.fst).Nodup)
    {p : α × β} (hp : p ∈ l) : l.lookup p.1 = some p.2 := by
  induction l with
  | nil => cases hp
  | cons q l ih =>
    obtain ⟨hfirst, hl⟩ := List.nodup_cons.mp hl
    rw [List.lookup_cons]
    rcases List.mem_cons.mp hp with rfl | hp
    · rw [beq_self_eq_true]
    · have hne : p.1 ≠ q.1 := fun heq => hfirst (heq ▸ List.mem_map_of_mem hp)
      rw [beq_false_of_ne hne]
      exact ih hl hp

theorem mem_of_lookup {α β : Type} [BEq α] [LawfulBEq α] {l : List (α × β)} {a : α} {b : β}
    (h : l.lookup a = some b) :
    (a, b) ∈ l := by
  induction l with
  | nil => cases h
  | cons q l ih =>
    rw [List.lookup_cons] at h
    by_cases hq : a = q.1
    · rw [hq, beq_self_eq_true] at h
      rw [hq, ← Option.some.inj h]
      exact List.mem_cons_self
    · rw [beq_false_of_ne hq] at h
      exact List.mem_cons_of_mem q (ih h)

theorem lookup_map_snd {α β γ : Type} [BEq α] (f : β → γ) (l : List (α × β)) (k : α) :
    (l.map fun p => (p.1, f p.2)).lookup k = (l.lookup k).map f := by
  induction l with
  | nil => rfl
  | cons p l ih =>
    rw [List.map_cons, List.lookup_cons, List.lookup_cons, ih]
    cases k == p.1 <;> rfl

theorem lookup_isSome_of_mem {α β : Type} [BEq α] [LawfulBEq α] {l : List (α × β)} {p : α × β} (hp : p ∈ l) :
    ∃ b, l.lookup p.1 = some b := by
  induction l with
  | nil => cases hp
  | cons q l ih =>
    rw [List.lookup_cons]
    by_cases hq : p.1 = q.1
    · rw [hq, beq_self_eq_true]
      exact ⟨q.2, rfl⟩
    · rw [beq_false_of_ne hq]
      rcases List.mem_cons.mp hp with rfl | hp
      · exact absurd rfl hq
      · exact ih hp

theorem bind_eq_ok {ε α β : Type} {x : Except ε α} {f : α → Except ε β} {b : β} :
    x >>= f = .ok b ↔ ∃ a, x = .ok a ∧ f a = .ok b := by
  cases x with
  | error e =>
    constructor
    · intro h
      cases h
    · rintro ⟨_, h, _⟩
      cases h
  | ok a =>
    constructor
    · exact fun h => ⟨a, rfl, h⟩
    · rintro ⟨_, heq, h⟩
      cases heq
      exact h

/-- The values of a list's pairs mapped one by one. -/
theorem mapM_pairs {α β γ ε : Type} [BEq α] {f : β → Except ε γ} {l : List (α × β)} {l' : List (α × γ)}
    (h : (l.mapM fun p => do return (p.1, ← f p.2)) = .ok l') :
    l'.map Prod.fst = l.map Prod.fst ∧ ∀ a b, l.lookup a = some b → ∃ c, f b = .ok c ∧ l'.lookup a = some c := by
  induction l generalizing l' with
  | nil =>
    cases h
    exact ⟨rfl, fun a b hb => nomatch hb⟩
  | cons p l ih =>
    rw [List.mapM_cons] at h
    obtain ⟨_, hp, h⟩ := bind_eq_ok.mp h
    obtain ⟨c, hc, hp⟩ := bind_eq_ok.mp hp
    obtain ⟨rest, hrest, h⟩ := bind_eq_ok.mp h
    cases hp
    cases h
    obtain ⟨hkeys, hlookup⟩ := ih hrest
    refine ⟨by rw [List.map_cons, List.map_cons, hkeys], fun a b hb => ?_⟩
    rw [List.lookup_cons] at hb ⊢
    cases ha : a == p.1 with
    | true =>
      rw [ha] at hb
      exact ⟨c, Option.some.inj hb ▸ hc, rfl⟩
    | false =>
      rw [ha] at hb
      exact hlookup a b hb

end Lookup
