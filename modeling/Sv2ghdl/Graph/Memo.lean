import Sv2ghdl.Lists.Lookup
import Mathlib.Data.Set.Card
import Mathlib.Logic.Relation
import Mathlib.Tactic

/-!
# Evaluation on demand with a memo

A node is evaluated when it is asked for, from the values of the nodes that it reads, and its value is kept under its
key.  Some nodes are known without an evaluation and are not kept.
-/

open Relation

namespace Memo

variable {α β κ : Type}

/-- A list of nodes, one after the other. -/
def evalAll (f : List (κ × β) → α → Option (β × List (κ × β))) :
    List (κ × β) → List α → Option (List β × List (κ × β))
  | m, [] => some ([], m)
  | m, a :: as => do
    let (b, m) ← f m a
    let (bs, m) ← evalAll f m as
    return (b :: bs, m)

section Eval

variable (known : α → Option β) (succ : α → List α) (combine : α → List β → β) (key : α → κ)

/-- The value of a node and the memo afterwards; `none` when the fuel runs out. -/
def eval [DecidableEq κ] : Nat → List (κ × β) → α → Option (β × List (κ × β))
  | 0, _, _ => none
  | fuel + 1, m, a =>
    match known a with
    | some b => some (b, m)
    | none =>
      match m.lookup (key a) with
      | some b => some (b, m)
      | none => do
        let (bs, m) ← evalAll (eval fuel) m (succ a)
        return (combine a bs, (key a, combine a bs) :: m)

/-- The roots one after the other, with what they give. -/
def evalRoots [DecidableEq κ] (fuel : Nat) (roots : List α) : Option (List β × List (κ × β)) :=
  evalAll (eval known succ combine key fuel) [] roots

/-- The nodes that have to be evaluated for one of the roots. -/
def Demanded (roots : List α) (a : α) : Prop :=
  known a = none ∧ ∃ r ∈ roots, ReflTransGen (fun a b => known a = none ∧ b ∈ succ a) r a

end Eval

variable {known : α → Option β} {succ : α → List α} {combine : α → List β → β} {key : α → κ}

/-- Values that agree with the evaluation, on nodes that are closed under reading and have keys of their own. -/
structure Solution (known : α → Option β) (succ : α → List α) (combine : α → List β → β) (key : α → κ)
    (nodes : α → Prop) (rank : α → Nat) (value : α → β) : Prop where
  leaf : ∀ a b, known a = some b → value a = b
  step : ∀ a, nodes a → known a = none → value a = combine a ((succ a).map value)
  closed : ∀ a, nodes a → known a = none → ∀ b ∈ succ a, nodes b ∧ rank b < rank a
  inj : ∀ a b, nodes a → nodes b → known a = none → known b = none → key a = key b → a = b

/-- The memo has the values of nodes, each once, that are demanded for the roots, with all that they read. -/
structure Sound (known : α → Option β) (succ : α → List α) (key : α → κ) (nodes : α → Prop) (value : α → β)
    (roots : List α) (m : List (κ × β)) : Prop where
  nodup : (m.map Prod.fst).Nodup
  entry : ∀ e ∈ m, ∃ a, nodes a ∧ Demanded known succ roots a ∧ e = (key a, value a)
  closed : ∀ a, nodes a → known a = none → key a ∈ m.map Prod.fst →
    ∀ b ∈ succ a, known b = none → key b ∈ m.map Prod.fst

/-- The nodes `as` have been evaluated, and nothing that is not below one of them. -/
structure Grows (known : α → Option β) (key : α → κ) (nodes : α → Prop) (rank : α → Nat) (as : List α)
    (m m' : List (κ × β)) : Prop where
  keep : ∀ k ∈ m.map Prod.fst, k ∈ m'.map Prod.fst
  all : ∀ a ∈ as, known a = none → key a ∈ m'.map Prod.fst
  below : ∀ c, nodes c → known c = none → key c ∈ m'.map Prod.fst →
    key c ∈ m.map Prod.fst ∨ ∃ a ∈ as, rank c ≤ rank a

section Spec

variable {nodes : α → Prop} {rank : α → Nat} {value : α → β} {roots : List α} {m m' m'' : List (κ × β)}

theorem Grows.nothing (m : List (κ × β)) : Grows known key nodes rank [] m m :=
  ⟨fun _ hk => hk, fun _ ha => absurd ha List.not_mem_nil, fun _ _ _ hc => .inl hc⟩

theorem Grows.cons {a : α} {as : List α} (h : Grows known key nodes rank [a] m m')
    (h' : Grows known key nodes rank as m' m'') : Grows known key nodes rank (a :: as) m m'' where
  keep k hk := h'.keep k (h.keep k hk)
  all b hb hnone := by
    rcases List.mem_cons.mp hb with rfl | hb
    · exact h'.keep _ (h.all b (List.mem_singleton_self b) hnone)
    · exact h'.all b hb hnone
  below c hc hnone hkey := by
    rcases h'.below c hc hnone hkey with hkey | ⟨b, hb, hle⟩
    · rcases h.below c hc hnone hkey with hkey | ⟨b, hb, hle⟩
      · exact .inl hkey
      · exact .inr ⟨b, by simp [List.mem_singleton.mp hb], hle⟩
    · exact .inr ⟨b, List.mem_cons_of_mem a hb, hle⟩

theorem Sound.lookup [DecidableEq κ] (hs : Solution known succ combine key nodes rank value)
    (h : Sound known succ key nodes value roots m) {a : α} (ha : nodes a) (hnone : known a = none) {b : β}
    (hb : m.lookup (key a) = some b) : b = value a := by
  obtain ⟨c, hc, hdemand, heq⟩ := h.entry _ (Lookup.mem_of_lookup hb)
  obtain ⟨hkey, hvalue⟩ := Prod.mk.inj heq
  rw [hvalue, hs.inj a c ha hc hnone hdemand.1 hkey]

/-- The nodes of a list are evaluated when each of them is. -/
theorem evalAll_spec {f : List (κ × β) → α → Option (β × List (κ × β))} {as : List α}
    (hf : ∀ a ∈ as, ∀ m, Sound known succ key nodes value roots m → ∃ m', f m a = some (value a, m') ∧
      Sound known succ key nodes value roots m' ∧ Grows known key nodes rank [a] m m')
    (h : Sound known succ key nodes value roots m) :
    ∃ m', evalAll f m as = some (as.map value, m') ∧ Sound known succ key nodes value roots m' ∧
      Grows known key nodes rank as m m' := by
  induction as generalizing m with
  | nil => exact ⟨m, rfl, h, .nothing m⟩
  | cons a as ih =>
    obtain ⟨m₁, hrun, hsound, hgrows⟩ := hf a List.mem_cons_self m h
    obtain ⟨m₂, hrest, hsound', hgrows'⟩ := ih (fun b hb => hf b (List.mem_cons_of_mem a hb)) hsound
    refine ⟨m₂, ?_, hsound', hgrows.cons hgrows'⟩
    rw [evalAll, hrun]
    simp [hrest]

/-- A node is stored, after the nodes that it reads. -/
theorem Sound.store (hs : Solution known succ combine key nodes rank value) {a : α} (ha : nodes a)
    (hdemand : Demanded known succ roots a) (hnew : key a ∉ m.map Prod.fst)
    (h : Sound known succ key nodes value roots m') (hgrows : Grows known key nodes rank (succ a) m m') :
    Sound known succ key nodes value roots ((key a, value a) :: m') where
  nodup := by
    refine List.nodup_cons.mpr ⟨fun hmem => ?_, h.nodup⟩
    rcases hgrows.below a ha hdemand.1 hmem with hmem | ⟨b, hb, hle⟩
    · exact hnew hmem
    · exact absurd (hs.closed a ha hdemand.1 b hb).2 (by omega)
  entry e he := by
    rcases List.mem_cons.mp he with rfl | he
    · exact ⟨a, ha, hdemand, rfl⟩
    · exact h.entry e he
  closed c hc hnone hkey b hb hb' := by
    rcases List.mem_cons.mp hkey with hkey | hkey
    · obtain rfl := hs.inj c a hc ha hnone hdemand.1 hkey
      exact List.mem_cons_of_mem _ (hgrows.all b hb hb')
    · exact List.mem_cons_of_mem _ (h.closed c hc hnone hkey b hb hb')

/-- A demanded node gets its value, and the memo stays sound. -/
theorem eval_spec [DecidableEq κ] (hs : Solution known succ combine key nodes rank value) {fuel : Nat} {a : α}
    (ha : nodes a) (hreach : ∃ r ∈ roots, ReflTransGen (fun a b => known a = none ∧ b ∈ succ a) r a)
    (hfuel : rank a < fuel) (h : Sound known succ key nodes value roots m) :
    ∃ m', eval known succ combine key fuel m a = some (value a, m') ∧ Sound known succ key nodes value roots m' ∧
      Grows known key nodes rank [a] m m' := by
  induction fuel generalizing a m with
  | zero => omega
  | succ fuel ih =>
    rw [eval]
    cases hknown : known a with
    | some b =>
      refine ⟨m, by rw [hs.leaf a b hknown], h, fun _ hk => hk, fun c hc hnone => ?_, fun _ _ _ hc => .inl hc⟩
      rw [List.mem_singleton.mp hc, hknown] at hnone
      cases hnone
    | none =>
      cases hlookup : m.lookup (key a) with
      | some b =>
        refine ⟨m, by rw [h.lookup hs ha hknown hlookup], h, fun _ hk => hk, fun c hc _ => ?_,
          fun _ _ _ hc => .inl hc⟩
        rw [List.mem_singleton.mp hc]
        exact List.mem_map_of_mem (Lookup.mem_of_lookup hlookup)
      | none =>
        obtain ⟨r, hr, hpath⟩ := hreach
        have hread : ∀ b ∈ succ a, ∀ m, Sound known succ key nodes value roots m →
            ∃ m', eval known succ combine key fuel m b = some (value b, m') ∧
              Sound known succ key nodes value roots m' ∧ Grows known key nodes rank [b] m m' := by
          intro b hb m hm
          obtain ⟨hb', hlt⟩ := hs.closed a ha hknown b hb
          exact ih hb' ⟨r, hr, hpath.tail ⟨hknown, hb⟩⟩ (by omega) hm
        obtain ⟨m', hrun, hsound, hgrows⟩ := evalAll_spec hread h
        have hnew : key a ∉ m.map Prod.fst := fun hmem => by
          obtain ⟨e, he, heq⟩ := List.mem_map.mp hmem
          obtain ⟨b, hb⟩ := Lookup.lookup_isSome_of_mem he
          rw [heq, hlookup] at hb
          cases hb
        have hvalue := hs.step a ha hknown
        refine ⟨(key a, value a) :: m', by simp [hrun, ← hvalue],
          hsound.store hs ha ⟨hknown, r, hr, hpath⟩ hnew hgrows,
          fun k hk => List.mem_cons_of_mem _ (hgrows.keep k hk), fun c hc _ => ?_, fun c hc hnone hkey => ?_⟩
        · rw [List.mem_singleton.mp hc]
          exact List.mem_cons_self
        · rcases List.mem_cons.mp hkey with hkey | hkey
          · obtain rfl := hs.inj c a hc ha hnone hknown hkey
            exact .inr ⟨c, List.mem_singleton_self c, Nat.le_refl _⟩
          · rcases hgrows.below c hc hnone hkey with hkey | ⟨b, hb, hle⟩
            · exact .inl hkey
            · have := (hs.closed a ha hknown b hb).2
              exact .inr ⟨a, List.mem_singleton_self a, by omega⟩

theorem Solution.nodes_of_path (hs : Solution known succ combine key nodes rank value) {r a : α} (hr : nodes r)
    (hpath : ReflTransGen (fun a b => known a = none ∧ b ∈ succ a) r a) : nodes a := by
  induction hpath with
  | refl => exact hr
  | tail _ hedge ih => exact (hs.closed _ ih hedge.1 _ hedge.2).1

/-- The roots get their values, and each node that is demanded for them is evaluated once, and no other. -/
theorem evalRoots_spec [DecidableEq κ] (hs : Solution known succ combine key nodes rank value) {fuel : Nat}
    (hroots : ∀ r ∈ roots, nodes r ∧ rank r < fuel) :
    ∃ m, evalRoots known succ combine key fuel roots = some (roots.map value, m) ∧
      m.length = {a | Demanded known succ roots a}.ncard := by
  have hempty : Sound known succ key nodes value roots [] :=
    ⟨List.nodup_nil, fun e he => absurd he List.not_mem_nil, fun _ _ _ hk => absurd hk List.not_mem_nil⟩
  obtain ⟨m, hrun, hsound, hgrows⟩ := evalAll_spec (fun r hr m hm =>
    eval_spec hs (hroots r hr).1 ⟨r, hr, .refl⟩ (hroots r hr).2 hm) hempty
  have hnodes : ∀ a, Demanded known succ roots a → nodes a := fun a ⟨_, r, hr, hpath⟩ =>
    hs.nodes_of_path (hroots r hr).1 hpath
  -- along the path every node that is read has been evaluated
  have hall : ∀ a, Demanded known succ roots a → key a ∈ m.map Prod.fst := by
    intro a ⟨hnone, r, hr, hpath⟩
    induction hpath with
    | refl => exact hgrows.all r hr hnone
    | tail hpath hedge ih =>
      exact hsound.closed _ (hs.nodes_of_path (hroots r hr).1 hpath) hedge.1 (ih hedge.1) _ hedge.2 hnone
  have hkeys : ((m.map Prod.fst).toFinset : Set κ) = key '' {a | Demanded known succ roots a} := by
    ext k
    rw [List.coe_toFinset, Set.mem_ofPred_eq, Set.mem_image]
    constructor
    · intro hk
      obtain ⟨e, he, rfl⟩ := List.mem_map.mp hk
      obtain ⟨a, -, hdemand, rfl⟩ := hsound.entry e he
      exact ⟨a, hdemand, rfl⟩
    · rintro ⟨a, hdemand, rfl⟩
      exact hall a hdemand
  refine ⟨m, hrun, ?_⟩
  calc m.length = (m.map Prod.fst).toFinset.card := by
        rw [List.toFinset_card_of_nodup hsound.nodup, List.length_map]
    _ = (key '' {a | Demanded known succ roots a}).ncard := by rw [← Set.ncard_coe_finset, hkeys]
    _ = {a | Demanded known succ roots a}.ncard :=
        Set.InjOn.ncard_image fun a ha b hb => hs.inj a b (hnodes a ha) (hnodes b hb) ha.1 hb.1

end Spec

end Memo
