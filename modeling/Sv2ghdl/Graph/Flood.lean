import Mathlib.Logic.Relation
import Mathlib.Tactic

/-!
# Marking what can be reached

A stack of nodes to look at; a node is marked when it is put on the stack.
-/

open Relation

namespace Flood

variable {α : Type} [DecidableEq α] (succ : α → List α)

/-- The marks and the stack after one more node. -/
def enter (s : List α × List α) (b : α) : List α × List α := if b ∈ s.1 then s else (b :: s.1, b :: s.2)

/-- The marks when the stack is empty; `none` when the fuel runs out. -/
def run : Nat → List α × List α → Option (List α)
  | _, (marks, []) => some marks
  | 0, (_, _ :: _) => none
  | fuel + 1, (marks, a :: stack) => run fuel ((succ a).foldl enter (marks, stack))

def reached (fuel : Nat) (root : α) : Option (List α) := run succ fuel ([root], [root])

variable {succ}

theorem foldl_enter (bs marks stack : List α) :
    ∃ new, bs.foldl enter (marks, stack) = (new ++ marks, new ++ stack) ∧ (marks.Nodup → (new ++ marks).Nodup) ∧
      (∀ b ∈ new, b ∈ bs) ∧ ∀ b ∈ bs, b ∈ new ++ marks := by
  induction bs generalizing marks stack with
  | nil => exact ⟨[], rfl, id, fun b hb => absurd hb List.not_mem_nil, fun b hb => absurd hb List.not_mem_nil⟩
  | cons b bs ih =>
    rw [List.foldl_cons]
    by_cases hb : b ∈ marks
    · obtain ⟨new, hrun, hnodup, hnew, hall⟩ := ih marks stack
      rw [enter, if_pos hb]
      refine ⟨new, hrun, hnodup, fun c hc => List.mem_cons_of_mem b (hnew c hc), fun c hc => ?_⟩
      rcases List.mem_cons.mp hc with rfl | hc
      · exact List.mem_append_right _ hb
      · exact hall c hc
    · obtain ⟨new, hrun, hnodup, hnew, hall⟩ := ih (b :: marks) (b :: stack)
      rw [enter, if_neg hb]
      refine ⟨new ++ [b], by simpa using hrun, fun hm => by simpa using hnodup (List.nodup_cons.mpr ⟨hb, hm⟩),
        fun c hc => ?_, fun c hc => ?_⟩
      · rcases List.mem_append.mp hc with hc | hc
        · exact List.mem_cons_of_mem b (hnew c hc)
        · exact List.mem_cons.mpr (.inl (List.mem_singleton.mp hc))
      · rw [List.append_assoc]
        rcases List.mem_cons.mp hc with rfl | hc
        · simp
        · exact hall c hc

/-- Between two steps: what is not on the stack has been looked at. -/
structure Inv (succ : α → List α) (root : α) (nodes marks stack : List α) : Prop where
  nodup : marks.Nodup
  within : ∀ a ∈ marks, a ∈ nodes
  start : root ∈ marks
  marked : ∀ a ∈ stack, a ∈ marks
  reach : ∀ a ∈ marks, ReflTransGen (fun a b => b ∈ succ a) root a
  closed : ∀ a ∈ marks, a ∉ stack → ∀ b ∈ succ a, b ∈ marks

/-- A step leaves as many nodes to mark and to look at, but for the one that it takes. -/
theorem Inv.step {root a : α} {nodes marks stack : List α} (hclosed : ∀ a ∈ nodes, ∀ b ∈ succ a, b ∈ nodes)
    (h : Inv succ root nodes marks (a :: stack)) : ∃ marks' stack',
      (succ a).foldl enter (marks, stack) = (marks', stack') ∧ Inv succ root nodes marks' stack' ∧
      marks'.length + (a :: stack).length = marks.length + stack'.length + 1 := by
  obtain ⟨new, hrun, hnodup, hnew, hall⟩ := foldl_enter (succ a) marks stack
  have ha := h.marked a List.mem_cons_self
  refine ⟨new ++ marks, new ++ stack, hrun, ⟨hnodup h.nodup, fun b hb => ?_, List.mem_append_right _ h.start,
    fun b hb => ?_, fun b hb => ?_, fun b hb hnot c hc => ?_⟩, ?_⟩
  · rcases List.mem_append.mp hb with hb | hb
    · exact hclosed a (h.within a ha) b (hnew b hb)
    · exact h.within b hb
  · rcases List.mem_append.mp hb with hb | hb
    · exact List.mem_append_left _ hb
    · exact List.mem_append_right _ (h.marked b (List.mem_cons_of_mem a hb))
  · rcases List.mem_append.mp hb with hb | hb
    · exact (h.reach a ha).tail (hnew b hb)
    · exact h.reach b hb
  · rw [List.mem_append, not_or] at hnot
    by_cases heq : b = a
    · exact hall c (heq ▸ hc)
    · refine List.mem_append_right _ (h.closed b ((List.mem_append.mp hb).resolve_left hnot.1) ?_ c hc)
      simp [heq, hnot.2]
  · simp only [List.length_append, List.length_cons]
    omega

theorem run_spec {root : α} {nodes : List α} (hclosed : ∀ a ∈ nodes, ∀ b ∈ succ a, b ∈ nodes) {fuel : Nat}
    {marks stack : List α} (h : Inv succ root nodes marks stack)
    (hfuel : nodes.length + stack.length ≤ marks.length + fuel) :
    ∃ marks', run succ fuel (marks, stack) = some marks' ∧ Inv succ root nodes marks' [] := by
  induction fuel generalizing marks stack with
  | zero =>
    have hle := (List.subperm_of_subset h.nodup h.within).length_le
    obtain rfl : stack = [] := List.length_eq_zero_iff.mp (by omega)
    exact ⟨marks, rfl, h⟩
  | succ fuel ih =>
    cases stack with
    | nil => exact ⟨marks, rfl, h⟩
    | cons a stack =>
      obtain ⟨marks', stack', hrun, hinv, hlength⟩ := h.step hclosed
      rw [run, hrun]
      rw [List.length_cons] at hfuel hlength
      exact ih hinv (by omega)

/-- The marks are what can be reached from the root, each once. -/
theorem reached_spec {root : α} {nodes : List α} (hclosed : ∀ a ∈ nodes, ∀ b ∈ succ a, b ∈ nodes)
    (hroot : root ∈ nodes) : ∃ marks, reached succ nodes.length root = some marks ∧ marks.Nodup ∧
      (∀ a ∈ marks, a ∈ nodes) ∧ ∀ a, a ∈ marks ↔ ReflTransGen (fun a b => b ∈ succ a) root a := by
  have hstart : Inv succ root nodes [root] [root] := by
    refine ⟨List.nodup_singleton root, fun a ha => ?_, List.mem_singleton_self root, fun _ ha => ha, fun a ha => ?_,
      fun a ha hnot => absurd ha hnot⟩
    · rw [List.mem_singleton.mp ha]
      exact hroot
    · rw [List.mem_singleton.mp ha]
  have hfuel : nodes.length + [root].length ≤ [root].length + nodes.length := Nat.le_of_eq (Nat.add_comm _ _)
  obtain ⟨marks, hrun, hinv⟩ := run_spec hclosed hstart hfuel
  refine ⟨marks, hrun, hinv.nodup, hinv.within, fun a => ⟨hinv.reach a, fun ha => ?_⟩⟩
  induction ha with
  | refl => exact hinv.start
  | tail _ hedge ih => exact hinv.closed _ ih List.not_mem_nil _ hedge

end Flood
