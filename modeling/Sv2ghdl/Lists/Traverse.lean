import Mathlib.Data.List.Forall2
import Mathlib.Tactic

/-!
# Traversals that may fail

`mapM` position by position, and a traversal that hands a state on from element to element.
-/

namespace Traverse

/-- A traversal that succeeds has a value at each position. -/
theorem mapM_forall₂ {α β : Type} {f : α → Option β} {as : List α} {bs : List β} (h : as.mapM f = some bs) :
    List.Forall₂ (fun a b => f a = some b) as bs := by
  induction as generalizing bs with
  | nil =>
    cases h
    exact .nil
  | cons a as ih =>
    rw [List.mapM_cons] at h
    obtain ⟨b, hb, h⟩ := Option.bind_eq_some_iff.mp h
    obtain ⟨rest, hrest, h⟩ := Option.bind_eq_some_iff.mp h
    cases h
    exact .cons hb (ih hrest)

/-- Two lists that match a third one match each other. -/
theorem forall₂_of_common {α β γ : Type} {R : α → β → Prop} {S : α → γ → Prop} {T : β → γ → Prop} {as : List α}
    {bs : List β} {cs : List γ} (hR : List.Forall₂ R as bs) (hS : List.Forall₂ S as cs)
    (h : ∀ a b c, R a b → S a c → T b c) : List.Forall₂ T bs cs := by
  induction hR generalizing cs with
  | nil =>
    cases hS
    exact .nil
  | cons hab _ ih =>
    cases hS with
    | cons hac hS => exact .cons (h _ _ _ hab hac) (ih hS)

/-- A traversal with errors succeeds when every position does. -/
theorem mapM_eq_ok {α β ε : Type} {f : α → Except ε β} {as : List α} {bs : List β} :
    as.mapM f = .ok bs ↔ List.Forall₂ (fun a b => f a = .ok b) as bs := by
  induction as generalizing bs with
  | nil =>
    rw [List.mapM_nil, List.forall₂_nil_left_iff]
    constructor
    · intro h
      cases h
      rfl
    · rintro rfl
      rfl
  | cons a as ih =>
    rw [List.mapM_cons, List.forall₂_cons_left_iff]
    cases ha : f a with
    | error e =>
      refine ⟨nofun, ?_⟩
      rintro ⟨b, bs', hb, -⟩
      cases hb
    | ok b =>
      cases has : as.mapM f with
      | error e =>
        refine ⟨nofun, ?_⟩
        rintro ⟨-, bs', -, hbs, -⟩
        rw [← ih, has] at hbs
        cases hbs
      | ok rest =>
        constructor
        · intro h
          cases h
          exact ⟨b, rest, rfl, ih.mp has, rfl⟩
        · rintro ⟨b', bs', hb, hbs, rfl⟩
          cases hb
          rw [← ih, has] at hbs
          cases hbs
          rfl

/-- The error of a traversal is the error of an element. -/
theorem mapM_eq_error {α β ε : Type} {f : α → Except ε β} {as : List α} {e : ε} (h : as.mapM f = .error e) :
    ∃ a ∈ as, f a = .error e := by
  induction as with
  | nil => cases h
  | cons a as ih =>
    rw [List.mapM_cons] at h
    cases ha : f a with
    | error e' =>
      rw [ha] at h
      cases h
      exact ⟨a, List.mem_cons_self, ha⟩
    | ok b =>
      cases has : as.mapM f with
      | error e' =>
        rw [ha, has] at h
        cases h
        obtain ⟨a', ha', he⟩ := ih has
        exact ⟨a', List.mem_cons_of_mem _ ha', he⟩
      | ok rest =>
        rw [ha, has] at h
        cases h

section Positions

variable {α β : Type} {r : α → β → Prop} {as : List α} {bs : List β}

theorem forall₂_left (h : List.Forall₂ r as bs) {k : Nat} {a : α} (ha : as[k]? = some a) :
    ∃ b, bs[k]? = some b ∧ r a b := by
  induction h generalizing k with
  | nil => cases ha
  | cons hr _ ih =>
    cases k with
    | zero => exact ⟨_, rfl, Option.some.inj ha ▸ hr⟩
    | succ k => exact ih ha

theorem forall₂_right (h : List.Forall₂ r as bs) {k : Nat} {b : β} (hb : bs[k]? = some b) :
    ∃ a, as[k]? = some a ∧ r a b :=
  forall₂_left h.flip hb

theorem forall₂_mem_left (h : List.Forall₂ r as bs) {a : α} (ha : a ∈ as) : ∃ b ∈ bs, r a b := by
  obtain ⟨k, hk⟩ := List.getElem?_of_mem ha
  obtain ⟨b, hb, hr⟩ := forall₂_left h hk
  exact ⟨b, List.mem_of_getElem? hb, hr⟩

theorem forall₂_mem_right (h : List.Forall₂ r as bs) {b : β} (hb : b ∈ bs) : ∃ a ∈ as, r a b :=
  forall₂_mem_left h.flip hb

theorem exists_forall₂ (h : ∀ a ∈ as, ∃ b, r a b) : ∃ bs, List.Forall₂ r as bs := by
  induction as with
  | nil => exact ⟨[], .nil⟩
  | cons a as ih =>
    obtain ⟨b, hb⟩ := h a List.mem_cons_self
    obtain ⟨bs, hbs⟩ := ih fun a ha => h a (List.mem_cons_of_mem _ ha)
    exact ⟨b :: bs, .cons hb hbs⟩

theorem forall₂_imp {s : α → β → Prop} (hrs : ∀ a ∈ as, ∀ b, r a b → s a b) (h : List.Forall₂ r as bs) :
    List.Forall₂ s as bs := by
  induction h with
  | nil => exact .nil
  | cons hr _ ih => exact .cons (hrs _ List.mem_cons_self _ hr) (ih fun a ha => hrs a (List.mem_cons_of_mem _ ha))

theorem forall₂_congr {s : α → β → Prop} (h : ∀ a ∈ as, ∀ b, r a b ↔ s a b) :
    List.Forall₂ r as bs ↔ List.Forall₂ s as bs :=
  ⟨forall₂_imp fun a ha b => (h a ha b).mp, forall₂_imp fun a ha b => (h a ha b).mpr⟩

end Positions

/-! ## Two lists position by position -/

/-- Two lists of one length, related at each position as the position has it. -/
structure Pointwise {α β : Type} (r : Nat → α → β → Prop) (as : List α) (bs : List β) : Prop where
  length : as.length = bs.length
  get : ∀ {i a b}, as[i]? = some a → bs[i]? = some b → r i a b

namespace Pointwise

variable {α β : Type} {r s : Nat → α → β → Prop} {as : List α} {bs : List β}

theorem nil : Pointwise r ([] : List α) ([] : List β) := ⟨rfl, fun h => by simp at h⟩

theorem imp (h : Pointwise r as bs) (hrs : ∀ i a b, r i a b → s i a b) : Pointwise s as bs :=
  ⟨h.length, fun ha hb => hrs _ _ _ (h.get ha hb)⟩

theorem snoc (h : Pointwise r as bs) {a : α} {b : β} (hab : r as.length a b) : Pointwise r (as ++ [a]) (bs ++ [b]) := by
  refine ⟨by simp [h.length], ?_⟩
  intro i a' b' ha hb
  rw [List.getElem?_append] at ha hb
  rw [← h.length] at hb
  split_ifs at ha hb with hlt
  · exact h.get ha hb
  · have hi : i = as.length := by
      have := (List.getElem?_eq_some_iff.mp ha).1
      simp at this
      omega
    subst hi
    simp at ha hb
    exact ha ▸ hb ▸ hab

/-- A change at one position, with the relation of the others kept. -/
theorem modify (h : Pointwise r as bs) {k : Nat} {f : α → α} {g : β → β}
    (hk : ∀ a b, as[k]? = some a → bs[k]? = some b → r k a b → s k (f a) (g b))
    (hne : ∀ i a b, i ≠ k → r i a b → s i a b) : Pointwise s (as.modify k f) (bs.modify k g) := by
  refine ⟨by simp [h.length], ?_⟩
  intro i a b ha hb
  rw [List.getElem?_modify] at ha hb
  obtain ⟨a', ha', rfl⟩ := Option.map_eq_some_iff.mp ha
  obtain ⟨b', hb', rfl⟩ := Option.map_eq_some_iff.mp hb
  have hr := h.get ha' hb'
  split_ifs with hik
  · subst hik
    exact hk _ _ ha' hb' hr
  · exact hne i _ _ (Ne.symm hik) hr

theorem forall₂ {r : α → β → Prop} (h : Pointwise (fun _ => r) as bs) : List.Forall₂ r as bs := by
  rw [List.forall₂_iff_get]
  refine ⟨h.length, ?_⟩
  intro i ha hb
  exact h.get (List.getElem?_eq_getElem ha) (List.getElem?_eq_getElem hb)

end Pointwise

/-- Two lists of parts are joined to the same list only part by part, where the parts of one are the longer ones. -/
theorem flatMap_eq_iff {α β : Type} {f g : α → List β} {as : List α} (h : ∀ a ∈ as, (f a).length ≤ (g a).length) :
    as.flatMap f = as.flatMap g ↔ ∀ a ∈ as, f a = g a := by
  have hle : ∀ {as : List α}, (∀ a ∈ as, (f a).length ≤ (g a).length) →
      (as.flatMap f).length ≤ (as.flatMap g).length := by
    intro as h
    induction as with
    | nil => exact Nat.le_refl 0
    | cons a as ih =>
      rw [List.flatMap_cons, List.flatMap_cons, List.length_append, List.length_append]
      exact Nat.add_le_add (h a List.mem_cons_self) (ih fun b hb => h b (List.mem_cons_of_mem a hb))
  induction as with
  | nil => simp
  | cons a as ih =>
    have hfirst := h a List.mem_cons_self
    have hrest : ∀ b ∈ as, (f b).length ≤ (g b).length := fun b hb => h b (List.mem_cons_of_mem a hb)
    rw [List.flatMap_cons, List.flatMap_cons, List.forall_mem_cons]
    constructor
    · intro heq
      have hlen := congrArg List.length heq
      rw [List.length_append, List.length_append] at hlen
      have := hle hrest
      have hparts := List.append_inj heq (by omega)
      exact ⟨hparts.1, (ih hrest).mp hparts.2⟩
    · intro heq
      rw [heq.1, (ih hrest).mpr heq.2]

/-- The state of a list is handed on from element to element. -/
def mapAccum {σ α β : Type} (f : σ → α → Option (σ × β)) : σ → List α → Option (σ × List β)
  | s, [] => some (s, [])
  | s, a :: as => do
    let (s, b) ← f s a
    let (s, bs) ← mapAccum f s as
    return (s, b :: bs)

/-- What a step establishes and later steps keep holds in the state at the end. -/
theorem mapAccum_forall₂ {σ α β : Type} {f : σ → α → Option (σ × β)} {r : σ → σ → Prop} {P : σ → α → β → Prop}
    (hrefl : ∀ s, r s s) (htrans : ∀ {s₁ s₂ s₃}, r s₁ s₂ → r s₂ s₃ → r s₁ s₃)
    (hkeep : ∀ {s s' a b}, r s s' → P s a b → P s' a b)
    (hstep : ∀ {s a s' b}, f s a = some (s', b) → r s s' ∧ P s' a b)
    {as : List α} {s s' : σ} {bs : List β} (h : mapAccum f s as = some (s', bs)) :
    r s s' ∧ List.Forall₂ (P s') as bs := by
  induction as generalizing s bs with
  | nil =>
    cases h
    exact ⟨hrefl _, .nil⟩
  | cons a as ih =>
    rw [mapAccum] at h
    obtain ⟨⟨s₁, b⟩, hb, h⟩ := Option.bind_eq_some_iff.mp h
    obtain ⟨⟨s₂, rest⟩, hrest, h⟩ := Option.bind_eq_some_iff.mp h
    cases h
    obtain ⟨hle, hP⟩ := hstep hb
    obtain ⟨hle', hall⟩ := ih hrest
    exact ⟨htrans hle hle', .cons (hkeep hle' hP) hall⟩

end Traverse
