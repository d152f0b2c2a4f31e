import Mathlib.Data.List.Nodup
import Mathlib.Logic.Relation
import Mathlib.Tactic

/-!
# Loops

A loop of a relation, found by going on from a node to the next one until a node comes again.
-/

namespace Loops

open Relation

variable {α : Type}

/-- Different nodes, each related to the next and the last to the first. -/
structure Loop (r : α → α → Prop) (c : List α) : Prop where
  ne_nil : c ≠ []
  nodup : c.Nodup
  chain : c.IsChain r
  closed : ∀ a ∈ c.getLast?, ∀ b ∈ c.head?, r a b

variable {r : α → α → Prop}

/-- A node of a loop is related to a node of the loop. -/
theorem Loop.next {c : List α} (h : Loop r c) {a : α} (ha : a ∈ c) : ∃ b ∈ c, r a b := by
  obtain ⟨l₁, l₂, rfl⟩ := List.append_of_mem ha
  cases l₂ with
  | nil =>
    -- the last node
    obtain ⟨b, rest, hcons⟩ := List.exists_cons_of_ne_nil h.ne_nil
    refine ⟨b, by rw [hcons]; exact List.mem_cons_self, h.closed a (by simp) b ?_⟩
    rw [hcons]
    rfl
  | cons b l₂ =>
    refine ⟨b, by simp, ?_⟩
    have hsuffix : (a :: b :: l₂).IsChain r := h.chain.suffix ⟨l₁, rfl⟩
    exact (List.isChain_cons_cons.mp hsuffix).1

theorem Loop.imp {s : α → α → Prop} {c : List α} (h : Loop r c) (hrs : ∀ a b, r a b → s a b) : Loop s c :=
  ⟨h.ne_nil, h.nodup, h.chain.imp fun {a b} => hrs a b, fun a ha b hb => hrs a b (h.closed a ha b hb)⟩

variable [DecidableEq α]

/-- From node to node until one comes again: the nodes from there on. -/
def walk (next : α → Option α) : Nat → List α → α → List α
  | 0, path, _ => path
  | fuel + 1, path, a =>
    if a ∈ path then path.drop (path.idxOf a)
    else
      match next a with
      | none => path ++ [a]
      | some b => walk next fuel (path ++ [a]) b

/-- Where every node goes on to one of finitely many, the walk ends with a loop. -/
theorem walk_loop {next : α → Option α} {nodes : List α} (hnext : ∀ a ∈ nodes, ∃ b ∈ nodes, next a = some b)
    {fuel : Nat} {path : List α} {a : α} (ha : a ∈ nodes) (hpath : path ⊆ nodes) (hnodup : path.Nodup)
    (hchain : (path ++ [a]).IsChain fun x y => next x = some y) (hfuel : nodes.length < fuel + path.length) :
    Loop (fun x y => next x = some y) (walk next fuel path a) ∧
      ∀ b ∈ walk next fuel path a, b ∈ nodes ∧ (b ∈ path ∨ ReflTransGen (fun x y => next x = some y) a b) := by
  induction fuel generalizing path a with
  | zero => exact absurd (hnodup.subperm hpath).length_le (by omega)
  | succ fuel ih =>
    rw [walk]
    by_cases hmem : a ∈ path
    · rw [if_pos hmem]
      obtain ⟨l₁, l₂, rfl, hfirst⟩ := List.eq_append_cons_of_mem hmem
      have hdrop : (l₁ ++ a :: l₂).drop ((l₁ ++ a :: l₂).idxOf a) = a :: l₂ := by
        rw [List.idxOf_append_of_notMem hfirst, List.idxOf_cons_self, Nat.add_zero, List.drop_left]
      rw [hdrop]
      have hsuffix : (a :: l₂ ++ [a]).IsChain fun x y => next x = some y := by
        refine hchain.suffix ⟨l₁, ?_⟩
        rw [List.append_assoc]
      refine ⟨⟨List.cons_ne_nil a l₂, hnodup.of_append_right, (List.isChain_append.mp hsuffix).1, ?_⟩, ?_⟩
      · intro x hx y hy
        rw [Option.mem_def, List.head?_cons, Option.some.injEq] at hy
        subst hy
        exact (List.isChain_append.mp hsuffix).2.2 x hx _ rfl
      · intro b hb
        have hb' : b ∈ l₁ ++ a :: l₂ := List.mem_append_right l₁ hb
        exact ⟨hpath hb', .inl hb'⟩
    · rw [if_neg hmem]
      obtain ⟨b, hb, hab⟩ := hnext a ha
      rw [hab]
      have hchain' : (path ++ [a] ++ [b]).IsChain fun x y => next x = some y := by
        refine List.isChain_append.mpr ⟨hchain, List.isChain_singleton b, ?_⟩
        intro x hx y hy
        rw [List.getLast?_append, Option.mem_def] at hx
        cases hx
        cases hy
        exact hab
      obtain ⟨hloop, hin⟩ := ih hb (List.append_subset.mpr ⟨hpath, by simpa using ha⟩)
        (hnodup.append (List.nodup_singleton a) (by simpa using hmem)) hchain'
        (by rw [List.length_append, List.length_singleton]; omega)
      refine ⟨hloop, fun c hc => ?_⟩
      obtain ⟨hnodes, hwhere⟩ := hin c hc
      refine ⟨hnodes, ?_⟩
      rcases hwhere with hp | hreach
      · rcases List.mem_append.mp hp with hp | hp
        · exact .inl hp
        · rw [List.mem_singleton.mp hp]
          exact .inr .refl
      · exact .inr (.head hab hreach)

end Loops
