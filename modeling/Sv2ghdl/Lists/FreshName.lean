import Mathlib.Tactic

/-!
# Numbered names

The search for the first number whose name is free, by counting up. It ends because no more names are taken than the
list of taken names is long.
-/

namespace FreshName

variable {α : Type} [DecidableEq α]

/-- Counting up from `k` for at most so many steps, while the name is taken. -/
def search (name : Nat → α) (taken : List α) : Nat → Nat → Nat
  | 0, k => k
  | steps + 1, k => if name k ∈ taken then search name taken steps (k + 1) else k

/-- The first number from `k` on whose name is free. -/
def first (name : Nat → α) (taken : List α) (k : Nat) : Nat := search name taken taken.length k

variable {name : Nat → α} {taken : List α}

/-- The search stops at a free name, or when its steps are used up. -/
theorem search_spec (steps k : Nat) :
    k ≤ search name taken steps k ∧
      (∀ j, k ≤ j → j < search name taken steps k → name j ∈ taken) ∧
      (name (search name taken steps k) ∉ taken ∨ search name taken steps k = k + steps) := by
  induction steps generalizing k with
  | zero => exact ⟨Nat.le_refl k, fun j hle hlt => absurd hlt (Nat.not_lt.mpr hle), .inr rfl⟩
  | succ steps ih =>
    rw [search]
    split_ifs with htaken
    · obtain ⟨hle, hbelow, hend⟩ := ih (k + 1)
      refine ⟨by omega, ?_, ?_⟩
      · intro j hkj hj
        rcases Nat.eq_or_lt_of_le hkj with rfl | hlt
        · exact htaken
        · exact hbelow j hlt hj
      · rcases hend with hfree | hused
        · exact .inl hfree
        · exact .inr (by omega)
    · exact ⟨Nat.le_refl k, fun j hle hlt => absurd hlt (Nat.not_lt.mpr hle), .inl htaken⟩

/-- Among one name more than are taken, one is free. -/
theorem first_free (hname : Function.Injective name) (k : Nat) : name (first name taken k) ∉ taken := by
  obtain ⟨-, hbelow, hend⟩ := @search_spec α _ name taken taken.length k
  rcases hend with hfree | hused
  · exact hfree
  · intro htaken
    -- all the names that were tried are taken, and so is the last one
    have hsub : ((List.range' k (taken.length + 1)).map name) ⊆ taken := by
      intro a ha
      obtain ⟨j, hj, rfl⟩ := List.mem_map.mp ha
      rw [List.mem_range'_1] at hj
      rcases Nat.lt_or_ge j (k + taken.length) with hlt | hge
      · exact hbelow j hj.1 (by rw [hused]; exact hlt)
      · have hlast : j = first name taken k := by
          rw [first, hused]
          omega
        rw [hlast]
        exact htaken
    have hnodup : ((List.range' k (taken.length + 1)).map name).Nodup :=
      List.Nodup.map hname List.nodup_range'
    have hle := (hnodup.subperm hsub).length_le
    rw [List.length_map, List.length_range'] at hle
    omega

end FreshName
