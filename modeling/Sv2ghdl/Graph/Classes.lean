import Mathlib.Logic.Relation
import Sv2ghdl.Lists.Lookup

/-!
# Classes of a relation

The classes of the relation that joined pairs generate, kept as a table of the elements with the roots of their
classes.  An element that is not in the table is a class of its own.
-/

open Relation

namespace Classes

section Generated

variable {α : Type} {R R' : α → α → Prop} {x y : α}

theorem eqvGen_le (h : ∀ x y, R x y → EqvGen R' x y) (hxy : EqvGen R x y) : EqvGen R' x y := by
  induction hxy with
  | rel x y hxy => exact h x y hxy
  | refl x => exact .refl x
  | symm x y _ ih => exact .symm x y ih
  | trans x y z _ _ ih ih' => exact .trans x y z ih ih'

/-- A set that no pair of the relation leaves or enters is a union of classes. -/
theorem eqvGen_closed {S : α → Prop} (h : ∀ x y, R x y → (S x ↔ S y)) (hxy : EqvGen R x y) : S x ↔ S y := by
  induction hxy with
  | rel x y hxy => exact h x y hxy
  | refl x => exact Iff.rfl
  | symm x y _ ih => exact ih.symm
  | trans x y z _ _ ih ih' => exact ih.trans ih'

end Generated

variable {α : Type} [DecidableEq α]

/-- Each element with the root of its class. -/
abbrev Table (α : Type) := List (α × α)

def find (t : Table α) (a : α) : α := (t.lookup a).getD a

def Known (t : Table α) (a : α) : Prop := a ∈ t.map Prod.fst

instance (t : Table α) (a : α) : Decidable (Known t a) := inferInstanceAs (Decidable (a ∈ t.map Prod.fst))

/-- A class of its own for a new element. -/
def add (t : Table α) (a : α) : Table α := if Known t a then t else t ++ [(a, a)]

/-- The root of the first element is the root of both classes. -/
def union (t : Table α) (a b : α) : Table α :=
  let ra := find t a
  let rb := find t b
  if ra = rb then t else t.map fun p => (p.1, if p.2 = rb then ra else p.2)

/-- The roots are in the table. -/
def Rooted (t : Table α) : Prop := ∀ p ∈ t, Known t p.2

def Same (t : Table α) (a b : α) : Prop := find t a = find t b

section Table

variable {t : Table α} {a b x y : α}

theorem find_of_not_known (h : ¬ Known t a) : find t a = a := by
  have hnone : t.lookup a = none := by
    rw [List.lookup_eq_none_iff]
    intro p hp
    rw [bne_iff_ne]
    rintro rfl
    exact h (List.mem_map_of_mem hp)
  rw [find, hnone]
  rfl

theorem known_find (ht : Rooted t) (h : Known t a) : Known t (find t a) := by
  obtain ⟨p, hp, rfl⟩ := List.mem_map.mp h
  obtain ⟨r, hr⟩ := Lookup.lookup_isSome_of_mem hp
  rw [find, hr]
  exact ht _ (Lookup.mem_of_lookup hr)

theorem known_add : Known (add t a) x ↔ Known t x ∨ x = a := by
  unfold add
  split
  · rename_i h
    constructor
    · exact .inl
    · rintro (hx | rfl)
      · exact hx
      · exact h
  · rw [Known, List.map_append, List.mem_append, List.map_singleton, List.mem_singleton]
    exact Iff.rfl

@[simp] theorem find_add : find (add t a) x = find t x := by
  unfold add
  split
  · rfl
  · rename_i h
    rw [find, find, List.lookup_append]
    cases hx : t.lookup x with
    | some r => rfl
    | none =>
      rw [Option.none_or, List.lookup_cons]
      by_cases hxa : x = a
      · rw [hxa, beq_self_eq_true]
        rfl
      · rw [beq_false_of_ne hxa]
        rfl

theorem rooted_add (ht : Rooted t) : Rooted (add t a) := by
  intro p hp
  unfold add at hp
  split at hp
  · rename_i h
    rw [add, if_pos h]
    exact ht p hp
  · rw [known_add]
    rcases List.mem_append.mp hp with hp | hp
    · exact .inl (ht p hp)
    · rw [List.mem_singleton.mp hp]
      exact .inr rfl

theorem map_fst_union : (union t a b).map Prod.fst = t.map Prod.fst := by
  unfold union
  dsimp only
  split
  · rfl
  · rw [List.map_map]
    rfl

theorem known_union : Known (union t a b) x ↔ Known t x := by rw [Known, map_fst_union, Known]

/-- A union moves the class of the second element. -/
theorem find_union (ht : Rooted t) (hb : Known t b) :
    find (union t a b) x = if find t x = find t b then find t a else find t x := by
  unfold union
  dsimp only
  split
  · rename_i h
    split
    · rename_i hx
      rw [hx, h]
    · rfl
  · by_cases hx : Known t x
    · obtain ⟨p, hp, rfl⟩ := List.mem_map.mp hx
      obtain ⟨r, hr⟩ := Lookup.lookup_isSome_of_mem hp
      have hfind : find t p.1 = r := by
        rw [find, hr]
        rfl
      rw [hfind, find, Lookup.lookup_map_snd fun r => if r = find t b then find t a else r, hr]
      rfl
    · have hne : x ≠ find t b := fun h => hx (h ▸ known_find ht hb)
      rw [find_of_not_known fun h => hx ((by
        rw [Known, List.map_map] at h
        exact h)), find_of_not_known hx, if_neg hne]

theorem rooted_union (ht : Rooted t) (ha : Known t a) : Rooted (union t a b) := by
  intro p hp
  rw [known_union]
  unfold union at hp
  dsimp only at hp
  split at hp
  · exact ht p hp
  · obtain ⟨q, hq, rfl⟩ := List.mem_map.mp hp
    dsimp only
    split
    · exact known_find ht ha
    · exact ht q hq

theorem same_of_eqvGen {R : α → α → Prop} (h : ∀ x y, R x y → Same t x y) (hxy : EqvGen R x y) : Same t x y := by
  induction hxy with
  | rel x y hxy => exact h x y hxy
  | refl x => exact rfl
  | symm x y _ ih => exact Eq.symm ih
  | trans x y z _ _ ih ih' => exact Eq.trans ih ih'

/-- A union adds its pair to the relation. -/
theorem same_union (ht : Rooted t) (hb : Known t b) :
    Same (union t a b) x y ↔ EqvGen (fun x y => Same t x y ∨ x = a ∧ y = b) x y := by
  have hsame : ∀ {x y}, Same t x y → EqvGen (fun x y => Same t x y ∨ x = a ∧ y = b) x y :=
    fun hxy => .rel _ _ (.inl hxy)
  have hpair : EqvGen (fun x y => Same t x y ∨ x = a ∧ y = b) a b := .rel _ _ (.inr ⟨rfl, rfl⟩)
  constructor
  · intro hxy
    rw [Same, find_union ht hb, find_union ht hb] at hxy
    split at hxy
    · rename_i hx
      split at hxy
      · rename_i hy
        exact hsame (hx.trans hy.symm)
      · exact ((hsame hx).trans _ _ _ (.symm _ _ hpair)).trans _ _ _ (hsame hxy)
    · split at hxy
      · rename_i hy
        exact ((hsame hxy).trans _ _ _ hpair).trans _ _ _ (hsame hy.symm)
      · exact hsame hxy
  · refine same_of_eqvGen fun x y hxy => ?_
    rw [Same, find_union ht hb, find_union ht hb]
    rcases hxy with hxy | ⟨rfl, rfl⟩
    · rw [show find t x = find t y from hxy]
    · rw [if_pos rfl]
      split <;> rfl

theorem same_union_mono (ht : Rooted t) (hb : Known t b) (h : Same t x y) : Same (union t a b) x y := by
  rw [Same, find_union ht hb, find_union ht hb, show find t x = find t y from h]

theorem same_union_self (ht : Rooted t) (hb : Known t b) : Same (union t a b) a b := by
  rw [Same, find_union ht hb, find_union ht hb, if_pos rfl]
  split <;> rfl

theorem nodup_add (h : (t.map Prod.fst).Nodup) : ((add t a).map Prod.fst).Nodup := by
  unfold add
  split
  · exact h
  · rename_i ha
    rw [List.map_append, List.map_singleton, List.nodup_append]
    refine ⟨h, List.nodup_singleton a, ?_⟩
    rintro x hx _ hy rfl
    have hxa : x = a := List.mem_singleton.mp hy
    exact ha (hxa ▸ hx)

/-- Unions of known elements keep what is known. -/
theorem foldl_union_spec {ι : Type} {f g : ι → α} {l : List ι} (ht : Rooted t)
    (hl : ∀ i ∈ l, Known t (f i) ∧ Known t (g i)) :
    Rooted (l.foldl (fun t i => union t (f i) (g i)) t) ∧
      (l.foldl (fun t i => union t (f i) (g i)) t).map Prod.fst = t.map Prod.fst ∧
      ∀ x y, Same (l.foldl (fun t i => union t (f i) (g i)) t) x y ↔
        EqvGen (fun x y => Same t x y ∨ ∃ i ∈ l, x = f i ∧ y = g i) x y := by
  induction l generalizing t with
  | nil =>
    exact ⟨ht, rfl, fun x y => ⟨fun h => .rel x y (.inl h), same_of_eqvGen fun _ _ h => h.resolve_right nofun⟩⟩
  | cons i l ih =>
    obtain ⟨hf, hg⟩ := hl i List.mem_cons_self
    obtain ⟨hrooted, hkeys, hsame⟩ := ih (t := union t (f i) (g i)) (rooted_union ht hf) fun j hj =>
      (hl j (List.mem_cons_of_mem i hj)).imp known_union.mpr known_union.mpr
    refine ⟨hrooted, hkeys.trans map_fst_union, fun x y => (hsame x y).trans ⟨eqvGen_le ?_, eqvGen_le ?_⟩⟩
    · rintro x y (hxy | ⟨j, hj, hx, hy⟩)
      · refine eqvGen_le (fun x y hxy => .rel x y ?_) ((same_union ht hg).mp hxy)
        rcases hxy with hxy | ⟨hx, hy⟩
        · exact .inl hxy
        · exact .inr ⟨i, List.mem_cons_self, hx, hy⟩
      · exact .rel x y (.inr ⟨j, List.mem_cons_of_mem i hj, hx, hy⟩)
    · rintro x y (hxy | ⟨j, hj, hx, hy⟩)
      · exact .rel x y (.inl (same_union_mono ht hg hxy))
      · rcases List.mem_cons.mp hj with rfl | hj
        · rw [hx, hy]
          exact .rel _ _ (.inl (same_union_self ht hg))
        · exact .rel x y (.inr ⟨j, hj, hx, hy⟩)

theorem same_add : Same (add t a) x y ↔ Same t x y := by rw [Same, find_add, find_add, Same]

end Table

end Classes
