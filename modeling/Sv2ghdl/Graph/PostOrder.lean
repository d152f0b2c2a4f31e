import Mathlib.Logic.Relation
import Mathlib.Data.List.Basic
import Mathlib.Tactic

/-!
# Depth-first post-order

The depth-first walk that marks a node when it enters it, visits the successors, and lists the node
when it leaves it.  On a graph with cycles the list is no topological order, but a node still comes
after every node that it leads to by a path from which nothing leads back.
-/

open Relation

namespace PostOrder

variable {α : Type}

/-! ## Positions in a list -/

/-- `d` comes before `c`. -/
def Before (d c : α) (l : List α) : Prop := ∃ l₁ l₂, l = l₁ ++ c :: l₂ ∧ d ∈ l₁

theorem Before.append {d c : α} {l : List α} (h : Before d c l) (more : List α) :
    Before d c (l ++ more) := by
  obtain ⟨l₁, l₂, rfl, hd⟩ := h
  exact ⟨l₁, l₂ ++ more, by simp, hd⟩

theorem Before.push {d : α} {l : List α} (h : d ∈ l) (c : α) : Before d c (l ++ [c]) :=
  ⟨l, [], rfl, h⟩

/-- In a list without repetitions only what stands before `c` comes before it. -/
theorem Before.mem {d c : α} {l₁ l₂ : List α} (hnodup : (l₁ ++ c :: l₂).Nodup)
    (h : Before d c (l₁ ++ c :: l₂)) : d ∈ l₁ := by
  obtain ⟨k₁, k₂, heq, hd⟩ := h
  rcases List.append_eq_append_iff.mp heq with ⟨m, hk, hm⟩ | ⟨m, hl, hm⟩
  · -- the split is not after `c`, which would then stand in `k₁` as well
    cases m with
    | nil =>
      rw [List.append_nil] at hk
      rwa [← hk]
    | cons x m =>
      have hx : x = c := by
        rw [List.cons_append] at hm
        exact (List.cons.inj hm).1.symm
      rw [heq, hk, hx] at hnodup
      have hne := (List.nodup_append.mp hnodup).2.2 c (by simp) c (by simp)
      exact absurd rfl hne
  · rw [hl]
    exact List.mem_append_left _ hd

/-- What comes after `d` does not stand before it. -/
theorem Before.not_mem {d c : α} {l₁ l₂ : List α} (hnodup : (l₁ ++ d :: l₂).Nodup)
    (h : Before d c (l₁ ++ d :: l₂)) : c ∉ l₁ := by
  intro hc
  obtain ⟨k₁, k₂, rfl⟩ := List.append_of_mem hc
  rw [List.append_assoc, List.cons_append] at hnodup h
  have hd := h.mem hnodup
  exact (List.nodup_append.mp hnodup).2.2 d hd d (by simp) rfl

/-! ## Paths -/

section Paths

variable (succ : α → List α)

def Edge (a b : α) : Prop := b ∈ succ a

/-- A path, of any length. -/
abbrev Reach (a b : α) : Prop := ReflTransGen (Edge succ) a b

/-- A path from `c` to `d` on which no node after `c` leads back to `c`. -/
def Clear (c d : α) : Prop := TransGen (fun a b => Edge succ a b ∧ ¬ Reach succ b c) c d

variable {succ} {c d : α}

/-- An edge is a clear path when nothing leads back over it. -/
theorem Clear.of_edge (h : Edge succ c d) (hback : ¬ Reach succ d c) : Clear succ c d :=
  TransGen.single ⟨h, hback⟩

/-- Where a rank goes down along the edges, nothing leads back. -/
theorem not_reach_of_rank {P : α → Prop} (rank : α → Nat)
    (hdown : ∀ a b, P a → b ∈ succ a → P b ∧ rank b < rank a) (hc : P c) (hd : d ∈ succ c) : ¬ Reach succ d c := by
  intro hback
  have hreach : ∀ a, Reach succ d a → P a ∧ rank a ≤ rank d := by
    intro a ha
    induction ha with
    | refl => exact ⟨(hdown c d hc hd).1, le_rfl⟩
    | tail _ hedge ih =>
      obtain ⟨hP, hlt⟩ := hdown _ _ ih.1 hedge
      exact ⟨hP, hlt.le.trans ih.2⟩
  have hlt := (hdown c d hc hd).2
  have hle := (hreach c hback).2
  omega

/-- Clear paths depend on which edges there are only. -/
theorem Clear.congr {succ' : α → List α} (hclear : Clear succ c d)
    (h : Edge succ = Edge succ') : Clear succ' c d := by
  unfold Clear Reach at hclear ⊢
  rwa [← h]

end Paths

/-! ## The walk -/

section Walk

variable (succ : α → List α)

/-- The nodes entered so far, and the nodes left so far in the order of leaving. -/
structure State (α : Type) where
  visited : List α
  sorted : List α

/-- Visit a node, unless it was entered before; `none` when the fuel runs out. -/
def visit [DecidableEq α] : Nat → State α → α → Option (State α)
  | 0, s, a => if a ∈ s.visited then some s else none
  | fuel + 1, s, a =>
    if a ∈ s.visited then some s
    else
      ((succ a).foldlM (visit fuel) ⟨a :: s.visited, s.sorted⟩).map fun s =>
        ⟨s.visited, s.sorted ++ [a]⟩

/-- Visit the roots one after the other. -/
def sort [DecidableEq α] (roots : List α) : Option (List α) :=
  (roots.foldlM (visit succ roots.length) ⟨[], []⟩).map State.sorted

/-- Entered and not yet left. -/
def State.Open (s : State α) (a : α) : Prop := a ∈ s.visited ∧ a ∉ s.sorted

/-- What holds between two visits. -/
structure Inv (s : State α) : Prop where
  nodup : s.sorted.Nodup
  entered : ∀ a ∈ s.sorted, a ∈ s.visited
  closed : ∀ a ∈ s.sorted, ∀ b ∈ succ a, b ∈ s.visited
  order : ∀ c ∈ s.sorted, ∀ d, Clear succ c d → Before d c s.sorted

/-- What visiting the nodes of `bs` does to the state. -/
structure Visits (bs : List α) (s s' : State α) : Prop where
  entered : ∀ b ∈ bs, b ∈ s'.visited
  grows : ∀ a ∈ s.visited, a ∈ s'.visited
  sorted : ∃ more, s'.sorted = s.sorted ++ more
  opens : ∀ a, s'.Open a ↔ s.Open a
  reached : ∀ a ∈ s'.visited, a ∈ s.visited ∨ ∃ b ∈ bs, Reach succ b a

variable {succ}

theorem Visits.none (s : State α) : Visits succ [] s s where
  entered := by simp
  grows _ h := h
  sorted := ⟨[], by simp⟩
  opens _ := Iff.rfl
  reached _ h := .inl h

theorem Visits.cons {b : α} {bs : List α} {s s' s'' : State α} (h : Visits succ [b] s s')
    (h' : Visits succ bs s' s'') : Visits succ (b :: bs) s s'' where
  entered x hx := by
    rcases List.mem_cons.mp hx with rfl | hx
    · apply h'.grows
      exact h.entered x (by simp)
    · exact h'.entered x hx
  grows x hx := h'.grows x (h.grows x hx)
  sorted := by
    obtain ⟨more, hs⟩ := h.sorted
    obtain ⟨more', hs'⟩ := h'.sorted
    exact ⟨more ++ more', by rw [hs', hs, List.append_assoc]⟩
  opens x := (h'.opens x).trans (h.opens x)
  reached x hx := by
    rcases h'.reached x hx with hx | ⟨y, hy, hreach⟩
    · rcases h.reached x hx with hx | ⟨y, hy, hreach⟩
      · exact .inl hx
      · exact .inr ⟨y, by simp_all, hreach⟩
    · exact .inr ⟨y, by simp [hy], hreach⟩

/-- Visiting one node after the other, if each visit is as it should be. -/
theorem foldlM_visits {f : State α → α → Option (State α)} {bs : List α} {s s' : State α}
    (hs : Inv succ s) (hopen : ∀ o, s.Open o → ∀ b ∈ bs, Reach succ o b)
    (hf : ∀ (s : State α) b s', b ∈ bs → Inv succ s → (∀ o, s.Open o → Reach succ o b) →
      f s b = some s' → Inv succ s' ∧ Visits succ [b] s s')
    (h : bs.foldlM f s = some s') : Inv succ s' ∧ Visits succ bs s s' := by
  induction bs generalizing s with
  | nil =>
    cases h
    exact ⟨hs, Visits.none _⟩
  | cons b bs ih =>
    rw [List.foldlM_cons, Option.bind_eq_bind, Option.bind_eq_some_iff] at h
    obtain ⟨t, ht, h⟩ := h
    have hfirst := hf s b t List.mem_cons_self hs (fun o ho => hopen o ho b List.mem_cons_self) ht
    have hrest := ih hfirst.1
      (fun o ho x hx => hopen o ((hfirst.2.opens o).mp ho) x (List.mem_cons_of_mem b hx))
      (fun s x s' hx => hf s x s' (List.mem_cons_of_mem b hx)) h
    exact ⟨hrest.1, hfirst.2.cons hrest.2⟩

/-- When the successors of `a` are visited, all that `a` leads to by a clear path has been left. -/
theorem clear_sorted {s : State α} {a d : α} (hs : Inv succ s)
    (hsucc : ∀ b ∈ succ a, b ∈ s.visited) (hopen : ∀ o, s.Open o → Reach succ o a)
    (h : Clear succ a d) : d ∈ s.sorted := by
  -- what does not lead back to `a` is not open
  have hleft : ∀ b ∈ s.visited, ¬ Reach succ b a → b ∈ s.sorted := by
    intro b hb hback
    by_contra hsorted
    exact hback (hopen b ⟨hb, hsorted⟩)
  induction h with
  | single h =>
    apply hleft _ _ h.2
    exact hsucc _ h.1
  | tail _ h ih =>
    apply hleft _ _ h.2
    exact hs.closed _ ih _ h.1

/-- Leaving a node whose successors have been visited. -/
theorem leave {s t : State α} {a : α} (hs : Inv succ s) (ha : a ∉ s.visited)
    (hopen : ∀ o, s.Open o → Reach succ o a) (ht : Inv succ t)
    (hvisits : Visits succ (succ a) ⟨a :: s.visited, s.sorted⟩ t) :
    Inv succ ⟨t.visited, t.sorted ++ [a]⟩ ∧
      Visits succ [a] s ⟨t.visited, t.sorted ++ [a]⟩ := by
  have hsorted : a ∉ s.sorted := fun h => ha (hs.entered a h)
  have haopen : t.Open a := (hvisits.opens a).mpr ⟨List.mem_cons_self, hsorted⟩
  have htopen : ∀ o, t.Open o → Reach succ o a := by
    intro o ho
    have ho' := (hvisits.opens o).mp ho
    rcases List.mem_cons.mp ho'.1 with rfl | h
    · exact .refl
    · exact hopen o ⟨h, ho'.2⟩
  constructor
  · constructor
    · show (t.sorted ++ [a]).Nodup
      rw [List.nodup_append]
      refine ⟨ht.nodup, by simp, ?_⟩
      intro x hx y hy hxy
      rw [List.mem_singleton] at hy
      exact haopen.2 (hy ▸ hxy ▸ hx)
    · intro x hx
      rcases List.mem_append.mp hx with hx | hx
      · exact ht.entered x hx
      · rw [List.mem_singleton.mp hx]
        exact haopen.1
    · intro x hx
      rcases List.mem_append.mp hx with hx | hx
      · exact ht.closed x hx
      · rw [List.mem_singleton.mp hx]
        exact hvisits.entered
    · intro c hc d hclear
      rcases List.mem_append.mp hc with hc | hc
      · exact (ht.order c hc d hclear).append [a]
      · rw [List.mem_singleton.mp hc] at hclear ⊢
        apply Before.push
        exact clear_sorted ht hvisits.entered htopen hclear
  · constructor
    · intro x hx
      rw [List.mem_singleton.mp hx]
      exact haopen.1
    · intro x hx
      exact hvisits.grows x (List.mem_cons_of_mem a hx)
    · obtain ⟨more, h⟩ := hvisits.sorted
      exact ⟨more ++ [a], by simp [h]⟩
    · intro x
      -- all that was open is still open, apart from `a`, which was not entered
      have h := hvisits.opens x
      unfold State.Open at h ⊢
      simp only [List.mem_append, List.mem_cons] at h ⊢
      by_cases hxa : x = a
      · subst hxa
        tauto
      · tauto
    · intro x hx
      rcases hvisits.reached x hx with h | ⟨b, hb, hreach⟩
      · rcases List.mem_cons.mp h with rfl | h
        · exact .inr ⟨x, by simp, .refl⟩
        · exact .inl h
      · exact .inr ⟨a, by simp, .head hb hreach⟩

/-- A node that was entered before is not visited again. -/
theorem again {s : State α} {a : α} (ha : a ∈ s.visited) : Visits succ [a] s s where
  entered x hx := by rwa [List.mem_singleton.mp hx]
  grows _ h := h
  sorted := ⟨[], by simp⟩
  opens _ := Iff.rfl
  reached _ h := .inl h

/-- A visit keeps the invariant when every open node leads to the node that is visited. -/
theorem visit_visits [DecidableEq α] {fuel : Nat} {s s' : State α} {a : α} (hs : Inv succ s)
    (hopen : ∀ o, s.Open o → Reach succ o a) (h : visit succ fuel s a = some s') :
    Inv succ s' ∧ Visits succ [a] s s' := by
  induction fuel generalizing s s' a with
  | zero =>
    unfold visit at h
    split at h
    · next ha =>
      cases h
      exact ⟨hs, again ha⟩
    · cases h
  | succ fuel ih =>
    unfold visit at h
    split at h
    · next ha =>
      cases h
      exact ⟨hs, again ha⟩
    · next ha =>
      rw [Option.map_eq_some_iff] at h
      obtain ⟨t, ht, rfl⟩ := h
      have hsorted : a ∉ s.sorted := fun h => ha (hs.entered a h)
      have hentry : Inv succ ⟨a :: s.visited, s.sorted⟩ :=
        ⟨hs.nodup, fun x hx => List.mem_cons_of_mem a (hs.entered x hx),
          fun x hx b hb => List.mem_cons_of_mem a (hs.closed x hx b hb), hs.order⟩
      have hentryOpen : ∀ o, State.Open ⟨a :: s.visited, s.sorted⟩ o → ∀ b ∈ succ a,
          Reach succ o b := by
        intro o ho b hb
        rcases List.mem_cons.mp ho.1 with rfl | hmem
        · exact .single hb
        · exact (hopen o ⟨hmem, ho.2⟩).tail hb
      have hfold := foldlM_visits hentry hentryOpen (fun _ _ _ _ hs ho h => ih hs ho h) ht
      exact leave hs ha hopen hfold.1 hfold.2

theorem inv_init : Inv succ (⟨[], []⟩ : State α) := by
  constructor <;> simp

theorem not_open_init (a : α) : ¬ State.Open (⟨[], []⟩ : State α) a := by
  simp [State.Open]

/-! ## The list of the nodes -/

/-- Visiting roots leaves no node open. -/
theorem roots_spec [DecidableEq α] {fuel : Nat} {s s' : State α} {roots : List α}
    (hs : Inv succ s) (hopen : ∀ a, ¬ s.Open a)
    (h : roots.foldlM (visit succ fuel) s = some s') :
    Inv succ s' ∧ Visits succ roots s s' ∧ ∀ a, a ∈ s'.visited ↔ a ∈ s'.sorted := by
  have hspec := foldlM_visits hs (fun o ho => absurd ho (hopen o))
    (fun _ _ _ _ hs ho h => visit_visits hs ho h) h
  refine ⟨hspec.1, hspec.2, fun a => ⟨fun ha => ?_, hspec.1.entered a⟩⟩
  by_contra hsorted
  exact hopen a ((hspec.2.opens a).mp ⟨ha, hsorted⟩)

/-- The walk from one node: all that the node leads to, every node after the successors that do not lead back. -/
theorem visit_root [DecidableEq α] {fuel : Nat} {a : α} {s : State α}
    (h : visit succ fuel ⟨[], []⟩ a = some s) :
    (∀ b, b ∈ s.visited ↔ b ∈ s.sorted) ∧ a ∈ s.sorted ∧
      (∀ b ∈ s.sorted, Reach succ a b ∧ ∀ c ∈ succ b, c ∈ s.sorted) ∧
      ∀ l₁ c l₂, s.sorted = l₁ ++ c :: l₂ → ∀ d ∈ succ c, ¬ Reach succ d c → d ∈ l₁ := by
  have hone : [a].foldlM (visit succ fuel) ⟨[], []⟩ = some s := by simpa using h
  obtain ⟨hinv, hvisits, hall⟩ := roots_spec inv_init not_open_init hone
  refine ⟨hall, (hall a).mp (hvisits.entered a (by simp)), fun b hb => ⟨?_, fun c hc => ?_⟩, ?_⟩
  · rcases hvisits.reached b (hinv.entered b hb) with hnil | ⟨x, hx, hreach⟩
    · simp at hnil
    · rwa [List.mem_singleton.mp hx] at hreach
  · exact (hall c).mp (hinv.closed b hb c hc)
  · intro l₁ c l₂ hsplit d hd hback
    have hbefore := hinv.order c (by rw [hsplit]; simp) d (Clear.of_edge hd hback)
    rw [hsplit] at hbefore
    exact hbefore.mem (hsplit ▸ hinv.nodup)

/-- Every node once, and after all that it leads to by a clear path. -/
theorem sort_spec [DecidableEq α] {roots l : List α} (h : sort succ roots = some l) :
    l.Nodup ∧ (∀ a ∈ roots, a ∈ l) ∧ (∀ a ∈ l, ∃ b ∈ roots, Reach succ b a) ∧
      ∀ c ∈ l, ∀ d, Clear succ c d → Before d c l := by
  unfold sort at h
  rw [Option.map_eq_some_iff] at h
  obtain ⟨s, hs, rfl⟩ := h
  obtain ⟨hinv, hvisits, hall⟩ := roots_spec inv_init not_open_init hs
  refine ⟨hinv.nodup, fun a ha => (hall a).mp (hvisits.entered a ha), ?_, hinv.order⟩
  intro a ha
  rcases hvisits.reached a (hinv.entered a ha) with h | h
  · simp at h
  · exact h

/-- The nodes that stand before the first root are those it leads to. -/
theorem sort_first [DecidableEq α] {c : α} {rest l : List α} (h : sort succ (c :: rest) = some l) :
    ∃ l₁ l₂, l = l₁ ++ c :: l₂ ∧ ∀ d, d ∈ l₁ ↔ d ≠ c ∧ Reach succ c d := by
  unfold sort at h
  rw [Option.map_eq_some_iff] at h
  obtain ⟨s, hs, rfl⟩ := h
  rw [List.foldlM_cons, Option.bind_eq_bind, Option.bind_eq_some_iff] at hs
  obtain ⟨t, ht, hs⟩ := hs
  have hone : [c].foldlM (visit succ (c :: rest).length) ⟨[], []⟩ = some t := by
    simpa using ht
  obtain ⟨hinv, hvisits, hall⟩ := roots_spec inv_init not_open_init hone
  -- the first visit leaves `c` last
  have hlast : ∃ l₁, t.sorted = l₁ ++ [c] := by
    rw [List.length_cons, visit] at ht
    simp only [List.not_mem_nil, if_false, Option.map_eq_some_iff] at ht
    obtain ⟨u, -, rfl⟩ := ht
    exact ⟨u.sorted, rfl⟩
  obtain ⟨l₁, hl₁⟩ := hlast
  have hopen : ∀ a, ¬ t.Open a := fun a ha => not_open_init a ((hvisits.opens a).mp ha)
  obtain ⟨-, hmore, -⟩ := roots_spec hinv hopen hs
  obtain ⟨l₂, hl₂⟩ := hmore.sorted
  -- and all that `c` leads to has been left by then
  have hreach : ∀ a, Reach succ c a → a ∈ t.sorted := by
    intro a ha
    induction ha with
    | refl => exact (hall c).mp (hvisits.entered c (by simp))
    | tail _ hedge ih => exact (hall _).mp (hinv.closed _ ih _ hedge)
  have hnodup := hinv.nodup
  rw [hl₁] at hnodup hreach
  refine ⟨l₁, l₂, by rw [hl₂, hl₁, List.append_assoc]; rfl, fun d => ⟨fun hd => ⟨?_, ?_⟩, ?_⟩⟩
  · intro hdc
    exact (List.nodup_append.mp hnodup).2.2 d hd c (by simp) hdc
  · have hd' : d ∈ t.visited := hinv.entered d (by rw [hl₁]; exact List.mem_append_left _ hd)
    rcases hvisits.reached d hd' with h | ⟨b, hb, h⟩
    · simp at h
    · rwa [List.mem_singleton.mp hb] at h
  · rintro ⟨hne, hd⟩
    rcases List.mem_append.mp (hreach d hd) with h | h
    · exact h
    · exact absurd (List.mem_singleton.mp h) hne

/-! ## Enough fuel -/

/-- The nodes of `nodes` that have not been entered. -/
def State.left [DecidableEq α] (nodes : List α) (s : State α) : Nat :=
  (nodes.filter (· ∉ s.visited)).length

theorem left_le [DecidableEq α] (nodes : List α) {s s' : State α}
    (h : ∀ a ∈ s.visited, a ∈ s'.visited) : s'.left nodes ≤ s.left nodes := by
  unfold State.left
  apply List.Sublist.length_le
  apply List.monotone_filter_right
  intro a ha
  simp only [decide_eq_true_eq] at ha ⊢
  exact fun hmem => ha (h a hmem)

theorem left_enter [DecidableEq α] {nodes : List α} {s : State α} {a : α} (ha : a ∈ nodes)
    (hnew : a ∉ s.visited) :
    State.left nodes ⟨a :: s.visited, s.sorted⟩ < s.left nodes := by
  unfold State.left
  have hfilter : nodes.filter (· ∉ a :: s.visited) =
      (nodes.filter (· ∉ s.visited)).filter (· ≠ a) := by
    rw [List.filter_filter]
    apply List.filter_congr
    intro x _
    simp
  rw [hfilter]
  apply List.length_filter_lt_length_iff_exists.mpr
  exact ⟨a, by simp [ha, hnew], by simp⟩

variable {nodes : List α}

theorem foldlM_total [DecidableEq α] {f : State α → α → Option (State α)} {bs : List α}
    {s : State α}
    (hf : ∀ t : State α, (∀ a ∈ s.visited, a ∈ t.visited) → ∀ b ∈ bs,
      ∃ t', f t b = some t' ∧ ∀ a ∈ t.visited, a ∈ t'.visited) :
    ∃ s', bs.foldlM f s = some s' ∧ ∀ a ∈ s.visited, a ∈ s'.visited := by
  suffices ∀ t : State α, (∀ a ∈ s.visited, a ∈ t.visited) →
      ∃ s', bs.foldlM f t = some s' ∧ ∀ a ∈ s.visited, a ∈ s'.visited from this s fun _ h => h
  induction bs with
  | nil => exact fun t ht => ⟨t, rfl, ht⟩
  | cons b bs ih =>
    intro t ht
    obtain ⟨t', hb, ht'⟩ := hf t ht b List.mem_cons_self
    have hrest := ih (fun t ht x hx => hf t ht x (List.mem_cons_of_mem b hx)) t'
      fun a ha => ht' a (ht a ha)
    rw [List.foldlM_cons, hb]
    exact hrest

/-- A walk within finitely many nodes ends when there is fuel for each of them. -/
theorem visit_total [DecidableEq α] (hclosed : ∀ a ∈ nodes, ∀ b ∈ succ a, b ∈ nodes) {fuel : Nat}
    {s : State α} {a : α} (ha : a ∈ nodes) (hfuel : s.left nodes ≤ fuel) :
    ∃ s', visit succ fuel s a = some s' ∧ ∀ b ∈ s.visited, b ∈ s'.visited := by
  induction fuel generalizing s a with
  | zero =>
    -- nothing is left to enter
    have hentered : a ∈ s.visited := by
      by_contra hnew
      have := left_enter ha hnew
      omega
    exact ⟨s, by rw [visit, if_pos hentered], fun _ h => h⟩
  | succ fuel ih =>
    by_cases hentered : a ∈ s.visited
    · exact ⟨s, by rw [visit, if_pos hentered], fun _ h => h⟩
    · have hless := left_enter ha hentered
      have hfold : ∃ t, (succ a).foldlM (visit succ fuel) ⟨a :: s.visited, s.sorted⟩ = some t ∧
          ∀ b ∈ a :: s.visited, b ∈ t.visited := by
        apply foldlM_total
        intro t ht b hb
        have := left_le nodes ht
        exact ih (hclosed a ha b hb) (by omega)
      obtain ⟨t, ht, hgrows⟩ := hfold
      refine ⟨⟨t.visited, t.sorted ++ [a]⟩, ?_, fun b hb => hgrows b (List.mem_cons_of_mem a hb)⟩
      rw [visit, if_neg hentered, ht]
      rfl

/-- The walk over a closed list of nodes ends, and lists these nodes. -/
theorem sort_perm [DecidableEq α] {roots : List α} (hnodup : roots.Nodup)
    (hclosed : ∀ a ∈ roots, ∀ b ∈ succ a, b ∈ roots) :
    ∃ l, sort succ roots = some l ∧ l.Perm roots := by
  have htotal : ∃ s', roots.foldlM (visit succ roots.length) ⟨[], []⟩ = some s' ∧
      ∀ a ∈ ([] : List α), a ∈ s'.visited := by
    apply foldlM_total
    intro t _ b hb
    apply visit_total hclosed hb
    exact List.length_filter_le _ _
  obtain ⟨s, hs, -⟩ := htotal
  have hsort : sort succ roots = some s.sorted := by
    unfold sort
    rw [hs]
    rfl
  obtain ⟨hl, hroots, hreach, -⟩ := sort_spec hsort
  refine ⟨s.sorted, hsort, (List.perm_ext_iff_of_nodup hl hnodup).mpr fun a => ⟨?_, hroots a⟩⟩
  intro ha
  obtain ⟨b, hb, hpath⟩ := hreach a ha
  -- the roots are closed under edges
  clear ha
  induction hpath with
  | refl => exact hb
  | tail _ hedge ih => exact hclosed _ ih _ hedge

end Walk

end PostOrder
