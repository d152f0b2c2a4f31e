import Mathlib.Data.List.Chain
import Mathlib.Logic.Relation
import Mathlib.Tactic

/-!
# Cycles by depth-first search

A depth-first search over labelled edges that keeps the path to the node it visits.  An edge back into the path
closes a cycle, and the search finds one if there is one.
-/

open Relation

namespace BackEdges

variable {α ε : Type}

section Search

variable [DecidableEq α] (succ : α → List (ε × α))

/-- The nodes left so far, and the cycles found so far, each with the edge that closes it. -/
structure State (α ε : Type) where
  done : List α
  found : List (ε × List α)

/-- The path from where it passes the node on, and back to the node. -/
def cycleAt (path : List α) (a : α) : List α := path.dropWhile (· ≠ a) ++ [a]

/-- An edge out of the last node of the path. -/
def follow (path : List α) (visit : State α ε → α → Option (State α ε)) (s : State α ε) (e : ε × α) :
    Option (State α ε) :=
  if e.2 ∈ path then some { s with found := s.found ++ [(e.1, cycleAt path e.2)] }
  else if e.2 ∈ s.done then some s
  else visit s e.2

/-- Visit a node at the end of a path; `none` when the fuel runs out. -/
def visit : Nat → List α → State α ε → α → Option (State α ε)
  | 0, _, _, _ => none
  | fuel + 1, stack, s, a =>
    ((succ a).foldlM (follow (stack ++ [a]) (visit fuel (stack ++ [a]))) s).map fun s =>
      { s with done := s.done ++ [a] }

/-- Visit the roots that have not been visited. -/
def search (fuel : Nat) (roots : List α) : Option (State α ε) :=
  roots.foldlM (fun s a => if a ∈ s.done then some s else visit succ fuel [] s a) ⟨[], []⟩

end Search

section Spec

variable (succ : α → List (ε × α))

def Edge (a b : α) : Prop := ∃ e, (e, b) ∈ succ a

/-- A path of different nodes, with an edge from its last node to its first one. -/
structure Closes (e : ε) (path : List α) (a : α) : Prop where
  chain : path.IsChain (Edge succ)
  nodup : path.Nodup
  head : path.head? = some a
  last : ∃ b, path.getLast? = some b ∧ (e, a) ∈ succ b

variable {succ}

theorem transGen_of_chain {a b : α} {path : List α} (h : path.IsChain (Edge succ)) (hhead : path.head? = some a)
    (hlast : path.getLast? = some b) : ReflTransGen (Edge succ) a b := by
  induction path generalizing a with
  | nil => cases hhead
  | cons c path ih =>
    rw [List.head?_cons, Option.some.injEq] at hhead
    subst hhead
    cases path with
    | nil =>
      rw [List.getLast?_singleton, Option.some.injEq] at hlast
      rw [hlast]
    | cons d path =>
      rw [List.isChain_cons_cons] at h
      rw [List.getLast?_cons_cons] at hlast
      exact .head h.1 (ih h.2 rfl hlast)

/-- A closed path leads from its first node back to it. -/
theorem Closes.transGen {e : ε} {path : List α} {a : α} (h : Closes succ e path a) : TransGen (Edge succ) a a := by
  obtain ⟨b, hlast, hedge⟩ := h.last
  exact .tail' (transGen_of_chain h.chain h.head hlast) ⟨e, hedge⟩

end Spec

/-! ## What is found is a cycle -/

variable [DecidableEq α] {succ : α → List (ε × α)}

/-- The path that a visit stands at. -/
structure OnPath (succ : α → List (ε × α)) (nodes path : List α) : Prop where
  chain : path.IsChain (Edge succ)
  nodup : path.Nodup
  mem : ∀ a ∈ path, a ∈ nodes

/-- Each cycle found is a closed path among the nodes, with its first node again at its end. -/
def Sound (succ : α → List (ε × α)) (nodes : List α) (s : State α ε) : Prop :=
  ∀ r ∈ s.found, ∃ path a, r.2 = path ++ [a] ∧ Closes succ r.1 path a ∧ ∀ b ∈ path, b ∈ nodes

omit [DecidableEq α] in
theorem OnPath.push {nodes path : List α} {a b : α} (h : OnPath succ nodes (path ++ [a])) (hb : b ∉ path ++ [a])
    (hnode : b ∈ nodes) (hedge : Edge succ a b) : OnPath succ nodes (path ++ [a] ++ [b]) where
  chain := by
    rw [List.isChain_append]
    refine ⟨h.chain, List.isChain_singleton b, ?_⟩
    intro x hx y hy
    rw [List.getLast?_concat, Option.mem_some_iff] at hx
    rw [List.head?_cons, Option.mem_some_iff] at hy
    exact hx ▸ hy ▸ hedge
  nodup := List.nodup_append'.mpr ⟨h.nodup, List.nodup_singleton b, List.disjoint_singleton.mpr hb⟩
  mem x hx := by
    rcases List.mem_append.mp hx with hx | hx
    · exact h.mem x hx
    · rw [List.mem_singleton.mp hx]
      exact hnode

theorem dropWhile_of_mem {b : α} {path : List α} (h : b ∈ path) :
    ∃ front rest, path = front ++ b :: rest ∧ path.dropWhile (· ≠ b) = b :: rest := by
  obtain ⟨front, rest, hpath, hfront⟩ := List.eq_append_cons_of_mem h
  refine ⟨front, rest, hpath, ?_⟩
  rw [hpath, List.dropWhile_append_of_pos, List.dropWhile_cons_of_neg (by simp)]
  intro x hx
  exact decide_eq_true fun heq => hfront (heq ▸ hx)

/-- An edge back into the path closes the part of the path from there on. -/
theorem OnPath.closes {nodes path : List α} {a b : α} {e : ε} (h : OnPath succ nodes (path ++ [a]))
    (hb : b ∈ path ++ [a]) (hedge : (e, b) ∈ succ a) :
    ∃ part, cycleAt (path ++ [a]) b = part ++ [b] ∧ Closes succ e part b ∧ ∀ c ∈ part, c ∈ nodes := by
  obtain ⟨front, rest, hpath, hdrop⟩ := dropWhile_of_mem hb
  have hsuffix : b :: rest <:+ path ++ [a] := ⟨front, hpath.symm⟩
  have hlast : (b :: rest).getLast? = some a := by
    have hall : (path ++ [a]).getLast? = some a := List.getLast?_concat
    rw [hpath, List.getLast?_append_of_ne_nil _ (List.cons_ne_nil b rest)] at hall
    exact hall
  refine ⟨b :: rest, by rw [cycleAt, hdrop], ⟨?_, ?_, rfl, a, hlast, hedge⟩, fun c hc => h.mem c (hsuffix.mem hc)⟩
  · exact h.chain.suffix hsuffix
  · exact h.nodup.sublist hsuffix.sublist

theorem visit_sound {nodes : List α} (hclosed : ∀ a ∈ nodes, ∀ e ∈ succ a, e.2 ∈ nodes) {fuel : Nat}
    {stack : List α} {s s' : State α ε} {a : α} (hpath : OnPath succ nodes (stack ++ [a])) (hs : Sound succ nodes s)
    (h : visit succ fuel stack s a = some s') : Sound succ nodes s' := by
  induction fuel generalizing stack s s' a with
  | zero => cases h
  | succ fuel ih =>
    rw [visit, Option.map_eq_some_iff] at h
    obtain ⟨t, hfold, rfl⟩ := h
    have hnode : a ∈ nodes := hpath.mem a (by simp)
    -- one edge out of `a` after the other
    have hedges : ∀ (es : List (ε × α)) (s t : State α ε), (∀ e ∈ es, e ∈ succ a) → Sound succ nodes s →
        es.foldlM (follow (stack ++ [a]) (visit succ fuel (stack ++ [a]))) s = some t → Sound succ nodes t := by
      intro es
      induction es with
      | nil =>
        intro s t _ hs ht
        cases ht
        exact hs
      | cons e es ihes =>
        intro s t hmem hs ht
        rw [List.foldlM_cons, Option.bind_eq_bind, Option.bind_eq_some_iff] at ht
        obtain ⟨u, hu, ht⟩ := ht
        have hedge : e ∈ succ a := hmem e List.mem_cons_self
        refine ihes u t (fun e he => hmem e (List.mem_cons_of_mem _ he)) ?_ ht
        unfold follow at hu
        split_ifs at hu with hback hdone
        · cases hu
          intro r hr
          rcases List.mem_append.mp hr with hr | hr
          · exact hs r hr
          · rw [List.mem_singleton.mp hr]
            obtain ⟨part, hpart, hcloses, hin⟩ := hpath.closes hback hedge
            exact ⟨part, e.2, hpart, hcloses, hin⟩
        · cases hu
          exact hs
        · exact ih (hpath.push hback (hclosed a hnode e hedge) ⟨e.1, hedge⟩) hs hu
    exact hedges (succ a) s t (fun e he => he) hs hfold

/-! ## A cycle is found -/

/-- All nodes that a node left leads to were left before it. -/
def Ordered (succ : α → List (ε × α)) (done : List α) : Prop :=
  ∀ l₁ a l₂, done = l₁ ++ a :: l₂ → ∀ e ∈ succ a, e.2 ∈ l₁

omit [DecidableEq α] in
theorem Ordered.push {done : List α} (h : Ordered succ done) {a : α} (ha : ∀ e ∈ succ a, e.2 ∈ done) :
    Ordered succ (done ++ [a]) := by
  intro l₁ b l₂ hsplit e he
  rcases List.eq_nil_or_concat l₂ with rfl | ⟨l, x, rfl⟩
  · obtain ⟨hdone, hlast⟩ := List.append_inj' hsplit rfl
    rw [List.singleton_inj] at hlast
    exact hdone ▸ ha e (hlast ▸ he)
  · have hsplit' : done ++ [a] = (l₁ ++ b :: l) ++ [x] := by
      rw [hsplit, List.concat_eq_append, List.append_assoc, List.cons_append]
    exact h l₁ b l (List.append_inj' hsplit' rfl).1 e he

/-- Nodes that were left in this order do not lead back to themselves. -/
theorem Ordered.acyclic {done : List α} (h : Ordered succ done) {a : α} (ha : a ∈ done) :
    ¬ TransGen (Edge succ) a a := by
  have hedge : ∀ {b c : α}, b ∈ done → Edge succ b c → c ∈ done ∧ done.idxOf c < done.idxOf b := by
    intro b c hb hbc
    obtain ⟨e, he⟩ := hbc
    obtain ⟨l₁, l₂, hsplit, hfirst⟩ := List.eq_append_cons_of_mem hb
    have hc := h l₁ b l₂ hsplit (e, c) he
    rw [hsplit]
    refine ⟨List.mem_append_left _ hc, ?_⟩
    rw [List.idxOf_append_of_mem hc, List.idxOf_append_of_notMem hfirst, List.idxOf_cons_self]
    exact Nat.lt_add_right 0 (List.idxOf_lt_length_iff.mpr hc)
  have hpath : ∀ {c : α}, TransGen (Edge succ) a c → c ∈ done ∧ done.idxOf c < done.idxOf a := by
    intro c hc
    induction hc with
    | single hac => exact hedge ha hac
    | tail _ hbc ih =>
      obtain ⟨hc, hlt⟩ := hedge ih.1 hbc
      exact ⟨hc, hlt.trans ih.2⟩
  intro hcycle
  exact absurd (hpath hcycle).2 (Nat.lt_irrefl _)

/-- What a visit does: it only adds, and unless it has found a cycle it leaves the nodes in order. -/
structure Visited (succ : α → List (ε × α)) (s s' : State α ε) : Prop where
  done : ∀ a ∈ s.done, a ∈ s'.done
  found : s'.found = [] → s.found = []
  ordered : s'.found = [] → Ordered succ s.done → Ordered succ s'.done

omit [DecidableEq α] in
theorem Visited.refl (s : State α ε) : Visited succ s s := ⟨fun _ h => h, id, fun _ h => h⟩

omit [DecidableEq α] in
theorem Visited.trans {s t u : State α ε} (h : Visited succ s t) (h' : Visited succ t u) : Visited succ s u where
  done a ha := h'.done a (h.done a ha)
  found hu := h.found (h'.found hu)
  ordered hu hs := h'.ordered hu (h.ordered (h'.found hu) hs)

theorem visit_visited {fuel : Nat} {stack : List α} {s s' : State α ε} {a : α}
    (h : visit succ fuel stack s a = some s') : Visited succ s s' ∧ a ∈ s'.done := by
  induction fuel generalizing stack s s' a with
  | zero => cases h
  | succ fuel ih =>
    rw [visit, Option.map_eq_some_iff] at h
    obtain ⟨t, hfold, rfl⟩ := h
    have hedges : ∀ (es : List (ε × α)) (s t : State α ε),
        es.foldlM (follow (stack ++ [a]) (visit succ fuel (stack ++ [a]))) s = some t →
        Visited succ s t ∧ (t.found = [] → ∀ e ∈ es, e.2 ∈ t.done) := by
      intro es
      induction es with
      | nil =>
        intro s t ht
        cases ht
        exact ⟨.refl s, fun _ e he => by cases he⟩
      | cons e es ihes =>
        intro s t ht
        rw [List.foldlM_cons, Option.bind_eq_bind, Option.bind_eq_some_iff] at ht
        obtain ⟨u, hu, ht⟩ := ht
        obtain ⟨hrest, hdone⟩ := ihes u t ht
        have hfirst : Visited succ s u ∧ (u.found = [] → e.2 ∈ u.done) := by
          unfold follow at hu
          split_ifs at hu with hback hleft
          · cases hu
            have hne : s.found ++ [(e.1, cycleAt (stack ++ [a]) e.2)] ≠ [] := by simp
            exact ⟨⟨fun _ h => h, fun h => absurd h hne, fun h => absurd h hne⟩, fun h => absurd h hne⟩
          · cases hu
            exact ⟨.refl s, fun _ => hleft⟩
          · obtain ⟨hvisited, hmem⟩ := ih hu
            exact ⟨hvisited, fun _ => hmem⟩
        refine ⟨hfirst.1.trans hrest, fun hnone => List.forall_mem_cons.mpr ⟨?_, hdone hnone⟩⟩
        exact hrest.done _ (hfirst.2 (hrest.found hnone))
    obtain ⟨hvisited, hdone⟩ := hedges (succ a) s t hfold
    refine ⟨hvisited.trans ⟨?_, id, ?_⟩, ?_⟩
    · exact fun b hb => List.mem_append_left _ hb
    · exact fun hnone hordered => hordered.push (hdone hnone)
    · exact List.mem_append_right _ (List.mem_singleton_self a)

/-! ## The fuel is enough -/

theorem visit_total {nodes : List α} (hclosed : ∀ a ∈ nodes, ∀ e ∈ succ a, e.2 ∈ nodes) {fuel : Nat}
    {stack : List α} {s : State α ε} {a : α} (hpath : OnPath succ nodes (stack ++ [a]))
    (hfuel : nodes.length ≤ fuel + stack.length) : ∃ s', visit succ fuel stack s a = some s' := by
  induction fuel generalizing stack s a with
  | zero =>
    have hlen := (hpath.nodup.subperm hpath.mem).length_le
    rw [List.length_append, List.length_singleton] at hlen
    omega
  | succ fuel ih =>
    have hnode : a ∈ nodes := hpath.mem a (by simp)
    have hedges : ∀ (es : List (ε × α)) (s : State α ε), (∀ e ∈ es, e ∈ succ a) → ∃ t,
        es.foldlM (follow (stack ++ [a]) (visit succ fuel (stack ++ [a]))) s = some t := by
      intro es
      induction es with
      | nil => exact fun s _ => ⟨s, rfl⟩
      | cons e es ihes =>
        intro s hmem
        have hedge : e ∈ succ a := hmem e List.mem_cons_self
        have hfirst : ∃ u, follow (stack ++ [a]) (visit succ fuel (stack ++ [a])) s e = some u := by
          unfold follow
          split_ifs with hback hleft
          · exact ⟨_, rfl⟩
          · exact ⟨_, rfl⟩
          · refine ih (hpath.push hback (hclosed a hnode e hedge) ⟨e.1, hedge⟩) ?_
            rw [List.length_append, List.length_singleton]
            omega
        obtain ⟨u, hu⟩ := hfirst
        obtain ⟨t, ht⟩ := ihes u fun e he => hmem e (List.mem_cons_of_mem _ he)
        exact ⟨t, by rw [List.foldlM_cons, hu]; exact ht⟩
    obtain ⟨t, ht⟩ := hedges (succ a) s fun e he => he
    exact ⟨_, by rw [visit, ht]; rfl⟩

/-! ## The search -/

omit [DecidableEq α] in
theorem onPath_root {nodes : List α} {a : α} (ha : a ∈ nodes) : OnPath succ nodes ([] ++ [a]) where
  chain := List.isChain_singleton a
  nodup := List.nodup_singleton a
  mem b hb := by
    rw [List.nil_append, List.mem_singleton] at hb
    exact hb ▸ ha

/-- The search ends, each cycle it has found is one, and it has found one if there is one. -/
theorem search_spec {nodes : List α} (hclosed : ∀ a ∈ nodes, ∀ e ∈ succ a, e.2 ∈ nodes) :
    ∃ s, search succ nodes.length nodes = some s ∧ Sound succ nodes s ∧
      (s.found ≠ [] ↔ ∃ a ∈ nodes, TransGen (Edge succ) a a) := by
  have hroots : ∀ (roots : List α) (s : State α ε), (∀ a ∈ roots, a ∈ nodes) → Sound succ nodes s → ∃ t,
      roots.foldlM (fun s a => if a ∈ s.done then some s else visit succ nodes.length [] s a) s = some t ∧
        Sound succ nodes t ∧ Visited succ s t ∧ ∀ a ∈ roots, a ∈ t.done := by
    intro roots
    induction roots with
    | nil => exact fun s _ hs => ⟨s, rfl, hs, .refl s, fun a ha => by cases ha⟩
    | cons a roots ih =>
      intro s hmem hs
      have ha : a ∈ nodes := hmem a List.mem_cons_self
      have hfirst : ∃ u, (if a ∈ s.done then some s else visit succ nodes.length [] s a) = some u ∧
          Sound succ nodes u ∧ Visited succ s u ∧ a ∈ u.done := by
        split_ifs with hdone
        · exact ⟨s, rfl, hs, .refl s, hdone⟩
        · obtain ⟨u, hu⟩ := visit_total (s := s) hclosed (onPath_root ha) (Nat.le_refl _)
          obtain ⟨hvisited, hleft⟩ := visit_visited hu
          exact ⟨u, hu, visit_sound hclosed (onPath_root ha) hs hu, hvisited, hleft⟩
      obtain ⟨u, hu, hsound, hvisited, hleft⟩ := hfirst
      obtain ⟨t, ht, hsound', hvisited', hleft'⟩ := ih u (fun b hb => hmem b (List.mem_cons_of_mem a hb)) hsound
      refine ⟨t, by rw [List.foldlM_cons, hu]; exact ht, hsound', hvisited.trans hvisited', ?_⟩
      exact List.forall_mem_cons.mpr ⟨hvisited'.done a hleft, hleft'⟩
  obtain ⟨s, hs, hsound, hvisited, hdone⟩ := hroots nodes ⟨[], []⟩ (fun a ha => ha) fun r hr => by cases hr
  refine ⟨s, hs, hsound, ?_, ?_⟩
  · intro hfound
    obtain ⟨r, hr⟩ := List.exists_mem_of_ne_nil _ hfound
    obtain ⟨path, a, _, hcloses, hin⟩ := hsound r hr
    exact ⟨a, hin a (List.mem_of_mem_head? hcloses.head), hcloses.transGen⟩
  · rintro ⟨a, ha, hcycle⟩ hnone
    -- without a cycle found, all nodes have been left in order
    have hordered := hvisited.ordered hnone fun l₁ b l₂ hnil => absurd hnil (by simp)
    exact hordered.acyclic (hdone a ha) hcycle

end BackEdges
