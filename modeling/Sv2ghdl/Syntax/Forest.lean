import Mathlib.Data.List.Infix
import Mathlib.Data.List.Pairwise
import Mathlib.Tactic

/-!
# Forests

Trees of nodes and leaves, listed in the order in which their nodes begin and in the order in which they end.  A place
is the list of the indices that lead to it.
-/

namespace Forest

inductive Tree (α β : Type) where
  | node (a : α) (kids : List (Tree α β))
  | leaf (b : β)

abbrev Path := List Nat

variable {α β : Type}

/-! ## The orders of a text -/

/-- The first place, with all in it, ends before the second one begins. -/
def Before : Path → Path → Prop
  | i :: p, j :: q => i < j ∨ i = j ∧ Before p q
  | _, _ => False

/-- The second place is in the first one. -/
def Encloses (p q : Path) : Prop := p <+: q ∧ p ≠ q

def BeginsFirst (p q : Path) : Prop := Before p q ∨ Encloses p q

def EndsFirst (p q : Path) : Prop := Before p q ∨ Encloses q p

theorem before_append (r : Path) {p q : Path} : Before (r ++ p) (r ++ q) ↔ Before p q := by
  induction r with
  | nil => exact Iff.rfl
  | cons i r ih => simp [Before, ih]

theorem Before.asymm {p q : Path} (h : Before p q) : ¬ Before q p := by
  induction p generalizing q with
  | nil => cases q <;> exact absurd h id
  | cons i p ih =>
    cases q with
    | nil => exact absurd h id
    | cons j q =>
      rintro (hji | ⟨rfl, hqp⟩)
      · rcases h with hij | ⟨rfl, -⟩
        · exact absurd hij (by omega)
        · exact absurd hji (by omega)
      · rcases h with hij | ⟨-, hpq⟩
        · exact absurd hij (by omega)
        · exact ih hpq hqp

theorem Before.not_prefix {p q : Path} (h : Before p q) : ¬ p <+: q ∧ ¬ q <+: p := by
  induction p generalizing q with
  | nil => cases q <;> exact absurd h id
  | cons i p ih =>
    cases q with
    | nil => exact absurd h id
    | cons j q =>
      rw [List.cons_prefix_cons, List.cons_prefix_cons]
      rcases h with hij | ⟨rfl, hpq⟩
      · exact ⟨fun hp => by omega, fun hp => by omega⟩
      · exact ⟨fun hp => (ih hpq).1 hp.2, fun hp => (ih hpq).2 hp.2⟩

theorem Encloses.asymm {p q : Path} (h : Encloses p q) : ¬ Encloses q p := fun h' =>
  h.2 (h.1.eq_of_length_le h'.1.length_le)

theorem BeginsFirst.asymm {p q : Path} (h : BeginsFirst p q) : ¬ BeginsFirst q p := by
  rcases h with h | h
  · rintro (h' | h')
    · exact h.asymm h'
    · exact h.not_prefix.2 h'.1
  · rintro (h' | h')
    · exact h'.not_prefix.2 h.1
    · exact h.asymm h'

theorem EndsFirst.asymm {p q : Path} (h : EndsFirst p q) : ¬ EndsFirst q p := by
  rcases h with h | h
  · rintro (h' | h')
    · exact h.asymm h'
    · exact h.not_prefix.1 h'.1
  · rintro (h' | h')
    · exact h'.not_prefix.1 h.1
    · exact h.asymm h'

/-! ## Listings -/

mutual

/-- The nodes in the order in which they begin, each with its place. -/
def preorder (p : Path) : Tree α β → List (Path × α)
  | .leaf _ => []
  | .node a kids => (p, a) :: preorders p 0 kids

def preorders (p : Path) (i : Nat) : List (Tree α β) → List (Path × α)
  | [] => []
  | t :: ts => preorder (p ++ [i]) t ++ preorders p (i + 1) ts

end

variable (keep : α → Bool)

mutual

/-- The nodes in the order in which they end, without those that are not kept and what is in them. -/
def postorder (p : Path) : Tree α β → List (Path × α)
  | .leaf _ => []
  | .node a kids => if keep a then postorders p 0 kids ++ [(p, a)] else []

def postorders (p : Path) (i : Nat) : List (Tree α β) → List (Path × α)
  | [] => []
  | t :: ts => postorder (p ++ [i]) t ++ postorders p (i + 1) ts

end

mutual

/-- The leaves that are in no node that is not kept. -/
def leaf (p : Path) : Tree α β → List (Path × β)
  | .leaf b => [(p, b)]
  | .node a kids => if keep a then leaves p 0 kids else []

def leaves (p : Path) (i : Nat) : List (Tree α β) → List (Path × β)
  | [] => []
  | t :: ts => leaf (p ++ [i]) t ++ leaves p (i + 1) ts

end

/-! ## Where the listed nodes are -/

mutual

theorem prefix_of_mem_preorder {p : Path} {t : Tree α β} {x : Path × α} (hx : x ∈ preorder p t) : p <+: x.1 := by
  cases t with
  | leaf b => cases hx
  | node a kids =>
    rw [preorder, List.mem_cons] at hx
    rcases hx with rfl | hx
    · exact List.prefix_rfl
    · obtain ⟨k, _, r, hr⟩ := place_of_mem_preorders hx
      exact ⟨k :: r, hr.symm⟩

theorem place_of_mem_preorders {p : Path} {i : Nat} {ts : List (Tree α β)} {x : Path × α}
    (hx : x ∈ preorders p i ts) : ∃ k, i ≤ k ∧ ∃ r, x.1 = p ++ k :: r := by
  cases ts with
  | nil => cases hx
  | cons t ts =>
    rw [preorders, List.mem_append] at hx
    rcases hx with hx | hx
    · obtain ⟨r, hr⟩ := prefix_of_mem_preorder hx
      exact ⟨i, le_refl i, r, by rw [← hr, List.append_assoc]; rfl⟩
    · obtain ⟨k, hk, r, hr⟩ := place_of_mem_preorders hx
      exact ⟨k, by omega, r, hr⟩

end

/-- What is in one tree ends before what is in a later one begins. -/
theorem before_of_places {p q : Path} {i k : Nat} {r : Path} (hik : i < k) (hp : p ++ [i] <+: q) :
    Before q (p ++ k :: r) := by
  obtain ⟨s, rfl⟩ := hp
  rw [List.append_assoc]
  exact (before_append p).mpr (.inl hik)

theorem encloses_of_place (p : Path) (k : Nat) (r : Path) : Encloses p (p ++ k :: r) := by
  refine ⟨List.prefix_append p _, fun h => ?_⟩
  have hlen := congrArg List.length h
  rw [List.length_append, List.length_cons] at hlen
  omega

mutual

theorem preorder_pairwise (p : Path) (t : Tree α β) : (preorder p t).Pairwise fun x y => BeginsFirst x.1 y.1 := by
  cases t with
  | leaf b => exact List.Pairwise.nil
  | node a kids =>
    rw [preorder, List.pairwise_cons]
    refine ⟨fun x hx => ?_, preorders_pairwise p 0 kids⟩
    obtain ⟨k, -, r, hr⟩ := place_of_mem_preorders hx
    rw [hr]
    exact .inr (encloses_of_place p k r)

theorem preorders_pairwise (p : Path) (i : Nat) (ts : List (Tree α β)) :
    (preorders p i ts).Pairwise fun x y => BeginsFirst x.1 y.1 := by
  cases ts with
  | nil => exact List.Pairwise.nil
  | cons t ts =>
    rw [preorders, List.pairwise_append]
    refine ⟨preorder_pairwise (p ++ [i]) t, preorders_pairwise p (i + 1) ts, fun x hx y hy => ?_⟩
    obtain ⟨k, hk, r, hr⟩ := place_of_mem_preorders hy
    rw [hr]
    exact .inl (before_of_places (by omega) (prefix_of_mem_preorder hx))

end

mutual

/-- What is kept is listed. -/
theorem mem_preorder_of_postorder {p : Path} {t : Tree α β} {x : Path × α} (hx : x ∈ postorder keep p t) :
    x ∈ preorder p t := by
  cases t with
  | leaf b => cases hx
  | node a kids =>
    rw [postorder] at hx
    split_ifs at hx
    · rw [preorder, List.mem_cons]
      rcases List.mem_append.mp hx with hx | hx
      · exact .inr (mem_preorders_of_postorders hx)
      · exact .inl (List.mem_singleton.mp hx)
    · cases hx

theorem mem_preorders_of_postorders {p : Path} {i : Nat} {ts : List (Tree α β)} {x : Path × α}
    (hx : x ∈ postorders keep p i ts) : x ∈ preorders p i ts := by
  cases ts with
  | nil => cases hx
  | cons t ts =>
    rw [postorders, List.mem_append] at hx
    rw [preorders, List.mem_append]
    exact hx.imp mem_preorder_of_postorder mem_preorders_of_postorders

end

mutual

theorem postorder_pairwise (p : Path) (t : Tree α β) :
    (postorder keep p t).Pairwise fun x y => EndsFirst x.1 y.1 := by
  cases t with
  | leaf b => exact List.Pairwise.nil
  | node a kids =>
    rw [postorder]
    split_ifs
    · rw [List.pairwise_append]
      refine ⟨postorders_pairwise p 0 kids, List.pairwise_singleton _ _, fun x hx y hy => ?_⟩
      rw [List.mem_singleton.mp hy]
      obtain ⟨k, -, r, hr⟩ := place_of_mem_preorders (mem_preorders_of_postorders keep hx)
      rw [hr]
      exact .inr (encloses_of_place p k r)
    · exact List.Pairwise.nil

theorem postorders_pairwise (p : Path) (i : Nat) (ts : List (Tree α β)) :
    (postorders keep p i ts).Pairwise fun x y => EndsFirst x.1 y.1 := by
  cases ts with
  | nil => exact List.Pairwise.nil
  | cons t ts =>
    rw [postorders, List.pairwise_append]
    refine ⟨postorder_pairwise (p ++ [i]) t, postorders_pairwise p (i + 1) ts, fun x hx y hy => ?_⟩
    obtain ⟨k, hk, r, hr⟩ := place_of_mem_preorders (mem_preorders_of_postorders keep hy)
    rw [hr]
    exact .inl (before_of_places (by omega) (prefix_of_mem_preorder (mem_preorder_of_postorder keep hx)))

end

/-! ## The first of a listing -/

/-- The first one that is looked for, in a list that is in order. -/
theorem find?_iff {l : List α} {r : α → α → Prop} (hl : l.Pairwise r) (hr : ∀ a b, r a b → ¬ r b a) {f : α → Bool}
    {a : α} : l.find? f = some a ↔ a ∈ l ∧ f a = true ∧ ∀ b ∈ l, f b = true → b = a ∨ r a b := by
  induction l with
  | nil => simp
  | cons c l ih =>
    obtain ⟨hc, hl⟩ := List.pairwise_cons.mp hl
    by_cases hf : f c = true
    · rw [List.find?_cons_of_pos hf, Option.some.injEq]
      constructor
      · rintro rfl
        refine ⟨List.mem_cons_self, hf, fun b hb _ => ?_⟩
        exact (List.mem_cons.mp hb).imp_right (hc b)
      · rintro ⟨ha, -, hfirst⟩
        rcases List.mem_cons.mp ha with rfl | ha
        · rfl
        · exact (hfirst c List.mem_cons_self hf).resolve_right fun hac => hr a c hac (hc a ha)
    · rw [List.find?_cons_of_neg hf, ih hl]
      constructor
      · rintro ⟨ha, hfa, hfirst⟩
        refine ⟨List.mem_cons_of_mem c ha, hfa, fun b hb hfb => ?_⟩
        rcases List.mem_cons.mp hb with rfl | hb
        · exact absurd hfb hf
        · exact hfirst b hb hfb
      · rintro ⟨ha, hfa, hfirst⟩
        refine ⟨(List.mem_cons.mp ha).resolve_left fun h => hf (h ▸ hfa), hfa, fun b hb hfb => ?_⟩
        exact hfirst b (List.mem_cons_of_mem c hb) hfb

end Forest
