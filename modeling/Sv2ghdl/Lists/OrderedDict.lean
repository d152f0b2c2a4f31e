import Sv2ghdl.Lists.Lookup

/-!
# Ordered dictionaries

A dictionary that keeps its keys in the order in which they were first set.
-/

/-- A dictionary; `items` has each key once, in the order of insertion. -/
structure OrderedDict (α β : Type) where
  items : List (α × β)
  nodup : (items.map Prod.fst).Nodup

namespace OrderedDict

variable {α β : Type}

def empty : OrderedDict α β := ⟨[], List.nodup_nil⟩

def keys (d : OrderedDict α β) : List α := d.items.map Prod.fst

variable [DecidableEq α]

def lookup (d : OrderedDict α β) (k : α) : Option β := d.items.lookup k

def setItems (l : List (α × β)) (k : α) (v : β) : List (α × β) :=
  if k ∈ l.map Prod.fst then l.map fun e => if e.1 = k then (k, v) else e else l ++ [(k, v)]

theorem map_fst_setItems (l : List (α × β)) (k : α) (v : β) :
    (setItems l k v).map Prod.fst = if k ∈ l.map Prod.fst then l.map Prod.fst else l.map Prod.fst ++ [k] := by
  rw [setItems]
  split_ifs with h
  · rw [List.map_map]
    refine List.map_congr_left fun e _ => ?_
    show (if e.1 = k then (k, v) else e).1 = e.1
    split_ifs with he
    · exact he.symm
    · rfl
  · rw [List.map_append]
    rfl

/-- `d[k] = v` -/
def set (d : OrderedDict α β) (k : α) (v : β) : OrderedDict α β where
  items := setItems d.items k v
  nodup := by
    rw [map_fst_setItems]
    split_ifs with h
    · exact d.nodup
    · exact List.nodup_append'.mpr ⟨d.nodup, List.nodup_singleton _, fun a ha ha' => h (List.mem_singleton.mp ha' ▸ ha)⟩

@[simp] theorem keys_set (d : OrderedDict α β) (k : α) (v : β) :
    (d.set k v).keys = if k ∈ d.keys then d.keys else d.keys ++ [k] := map_fst_setItems _ _ _

/-- A new key goes to the end. -/
theorem items_set_of_notMem {d : OrderedDict α β} {k : α} {v : β} (h : k ∉ d.keys) :
    (d.set k v).items = d.items ++ [(k, v)] := if_neg h

theorem length_items_set (d : OrderedDict α β) (k : α) (v : β) :
    (d.set k v).items.length = if k ∈ d.keys then d.items.length else d.items.length + 1 := by
  show (setItems d.items k v).length = _
  unfold setItems keys
  split_ifs <;> simp

/-- Keys that are all new are set one after the other. -/
theorem items_foldl_set {l : List (α × β)} {d : OrderedDict α β} (h : ((d.items ++ l).map Prod.fst).Nodup) :
    (l.foldl (fun d e => d.set e.1 e.2) d).items = d.items ++ l := by
  induction l generalizing d with
  | nil => rw [List.append_nil]; rfl
  | cons e l ih =>
    have hnew : e.1 ∉ d.keys := by
      rw [List.map_append, List.map_cons] at h
      exact fun he => (List.nodup_append.mp h).2.2 _ he _ List.mem_cons_self rfl
    have hitems : (d.set e.1 e.2).items = d.items ++ [e] := items_set_of_notMem hnew
    rw [List.foldl_cons, ih (by rwa [hitems, List.append_assoc]), hitems, List.append_assoc]
    rfl

/-- A key that is set twice leaves one item fewer. -/
theorem length_foldl_set_le (l : List (α × β)) (d : OrderedDict α β) :
    (l.foldl (fun d e => d.set e.1 e.2) d).items.length ≤ d.items.length + l.length := by
  induction l generalizing d with
  | nil => exact le_rfl
  | cons e l ih =>
    rw [List.foldl_cons, List.length_cons]
    refine (ih _).trans ?_
    rw [length_items_set]
    split_ifs <;> omega

theorem nodup_of_length_foldl_set {l : List (α × β)} {d : OrderedDict α β}
    (h : (l.foldl (fun d e => d.set e.1 e.2) d).items.length = d.items.length + l.length) :
    ((d.items ++ l).map Prod.fst).Nodup := by
  induction l generalizing d with
  | nil =>
    rw [List.append_nil]
    exact d.nodup
  | cons e l ih =>
    rw [List.foldl_cons, List.length_cons] at h
    have hle := length_foldl_set_le l (d.set e.1 e.2)
    rw [length_items_set] at hle
    have hnew : e.1 ∉ d.keys := fun hmem => by
      rw [if_pos hmem] at hle
      omega
    rw [if_neg hnew] at hle
    have hitems : (d.set e.1 e.2).items = d.items ++ [e] := items_set_of_notMem hnew
    have hnodup := ih (d := d.set e.1 e.2) (by rw [h, length_items_set, if_neg hnew]; omega)
    rwa [hitems, List.append_assoc] at hnodup

theorem mem_keys_set {d : OrderedDict α β} {k k' : α} {v : β} : k' ∈ (d.set k v).keys ↔ k' = k ∨ k' ∈ d.keys := by
  rw [keys_set]
  split_ifs with h
  · exact ⟨.inr, fun h' => h'.elim (fun heq => heq ▸ h) id⟩
  · rw [List.mem_append, List.mem_singleton]
    exact or_comm

theorem mem_keys_iff {d : OrderedDict α β} {k : α} : k ∈ d.keys ↔ ∃ v, d.lookup k = some v := by
  constructor
  · intro h
    obtain ⟨⟨k', v⟩, hmem, rfl⟩ := List.mem_map.mp h
    exact ⟨v, Lookup.lookup_of_mem d.nodup hmem⟩
  · rintro ⟨v, hv⟩
    exact List.mem_map.mpr ⟨_, Lookup.mem_of_lookup hv, rfl⟩

theorem lookup_eq_some {d : OrderedDict α β} {k : α} {v : β} : d.lookup k = some v ↔ (k, v) ∈ d.items :=
  ⟨Lookup.mem_of_lookup, fun h => Lookup.lookup_of_mem d.nodup h⟩

theorem mem_items_set {d : OrderedDict α β} {k : α} {v : β} {e : α × β} :
    e ∈ (d.set k v).items ↔ e = (k, v) ∨ e.1 ≠ k ∧ e ∈ d.items := by
  show e ∈ setItems d.items k v ↔ _
  rw [setItems]
  split_ifs with h
  · constructor
    · intro he
      obtain ⟨e', he', rfl⟩ := List.mem_map.mp he
      by_cases heq : e'.1 = k
      · rw [if_pos heq]
        exact .inl rfl
      · rw [if_neg heq]
        exact .inr ⟨heq, he'⟩
    · rintro (rfl | ⟨hne, he⟩)
      · obtain ⟨e', he', hk⟩ := List.mem_map.mp h
        exact List.mem_map.mpr ⟨e', he', if_pos hk⟩
      · exact List.mem_map.mpr ⟨e, he, if_neg hne⟩
  · rw [List.mem_append, List.mem_singleton]
    constructor
    · rintro (he | he)
      · exact .inr ⟨fun heq => h (List.mem_map.mpr ⟨e, he, heq⟩), he⟩
      · exact .inl he
    · exact fun he => he.symm.imp And.right id

theorem lookup_set (d : OrderedDict α β) (k : α) (v : β) (k' : α) :
    (d.set k v).lookup k' = if k' = k then some v else d.lookup k' := by
  apply Option.ext
  intro w
  rw [lookup_eq_some, mem_items_set]
  split_ifs with h
  · subst h
    simp [eq_comm]
  · rw [lookup_eq_some]
    constructor
    · rintro (heq | ⟨-, hmem⟩)
      · exact absurd (congrArg Prod.fst heq) h
      · exact hmem
    · exact fun hmem => .inr ⟨h, hmem⟩

/-- The items of one key. -/
theorem filter_items (d : OrderedDict α β) (k : α) :
    d.items.filter (fun e => e.1 = k) = ((d.lookup k).map (Prod.mk k)).toList := by
  have hcount : ∀ l : List (α × β), (l.map Prod.fst).Nodup →
      l.filter (fun e => e.1 = k) = ((l.lookup k).map (Prod.mk k)).toList := by
    intro l hl
    induction l with
    | nil => rfl
    | cons e l ih =>
      obtain ⟨hfirst, hl⟩ := List.nodup_cons.mp hl
      rw [List.lookup_cons]
      by_cases he : e.1 = k
      · have hrest : l.filter (fun e => e.1 = k) = [] := by
          refine List.filter_eq_nil_iff.mpr fun e' he' hk => hfirst ?_
          rw [he, ← of_decide_eq_true hk]
          exact List.mem_map_of_mem he'
        rw [List.filter_cons_of_pos (by simp [he]), hrest, he, beq_self_eq_true]
        simp [← he]
      · rw [List.filter_cons_of_neg (by simp [he]), ih hl, beq_false_of_ne fun h => he h.symm]
  exact hcount d.items d.nodup

/-- What is made of one item, where the others are left out. -/
theorem filter_filterMap_items {γ : Type} {f : α × β → Option γ} {c : γ → Bool} {k : α}
    (h : ∀ e z, f e = some z → c z = true → e.1 = k) (d : OrderedDict α β) :
    (d.items.filterMap f).filter c = ((d.lookup k).bind fun v => (f (k, v)).filter c).toList := by
  have hother : ∀ e, e.1 ≠ k → (f e).filter c = none := by
    intro e he
    cases hf : f e with
    | none => rfl
    | some z => exact Option.filter_some_neg (Bool.eq_false_of_not_eq_true fun hc => he (h e z hf hc))
  have hkey : d.items.filterMap (fun e => (f e).filter c) =
      (d.items.filter fun e => e.1 = k).filterMap fun e => (f e).filter c := by
    rw [List.filterMap_filter]
    refine List.filterMap_congr fun e _ => ?_
    by_cases he : e.1 = k
    · rw [if_pos (decide_eq_true he)]
    · rw [if_neg (by simp [he]), hother e he]
  rw [List.filter_filterMap, hkey, filter_items]
  cases d.lookup k with
  | none => rfl
  | some v => cases hv : (f (k, v)).filter c <;> simp [hv]

end OrderedDict
