import Mathlib.Data.List.Sort
import Mathlib.Tactic

/-!
# Stable sorting and first occurrences

A stable sort keeps the order of the elements with one key, so a sorted list is told by its classes.  The first
occurrences of a list are what a loop acts on that skips the names it has seen.
-/

namespace StableSort

/-! ## Sorting -/

section Sorting

variable {α κ : Type} [LinearOrder κ] (key : α → κ)

/-- `sorted(l, key=key)` -/
def sortBy (l : List α) : List α := l.mergeSort fun a b => decide (key a ≤ key b)

theorem sortBy_perm (l : List α) : (sortBy key l).Perm l := List.mergeSort_perm _ _

theorem mem_sortBy {l : List α} {a : α} : a ∈ sortBy key l ↔ a ∈ l := (sortBy_perm key l).mem_iff

private theorem key_trans (a b c : α) (hab : decide (key a ≤ key b) = true) (hbc : decide (key b ≤ key c) = true) :
    decide (key a ≤ key c) = true :=
  decide_eq_true ((of_decide_eq_true hab).trans (of_decide_eq_true hbc))

private theorem key_total (a b : α) : (decide (key a ≤ key b) || decide (key b ≤ key a)) = true := by
  rw [Bool.or_eq_true]
  exact (le_total (key a) (key b)).imp decide_eq_true decide_eq_true

theorem sortBy_sorted (l : List α) : (sortBy key l).Pairwise fun a b => key a ≤ key b :=
  (List.pairwise_mergeSort (key_trans key) (key_total key) l).imp of_decide_eq_true

/-- The elements with one key keep their order. -/
theorem filter_sortBy (l : List α) (k : κ) :
    (sortBy key l).filter (fun a => key a = k) = l.filter fun a => key a = k := by
  have hclass : (l.filter fun a => key a = k).Pairwise fun a b => decide (key a ≤ key b) = true := by
    refine List.pairwise_of_forall_mem_list fun a ha b hb => decide_eq_true ?_
    have ha := of_decide_eq_true (List.mem_filter.mp ha).2
    have hb := of_decide_eq_true (List.mem_filter.mp hb).2
    rw [ha, hb]
  have hsub : (l.filter fun a => key a = k).Sublist (sortBy key l) :=
    List.sublist_mergeSort (key_trans key) (key_total key) hclass List.filter_sublist
  have hsub := hsub.filter fun a => decide (key a = k)
  rw [List.filter_filter] at hsub
  simp only [Bool.and_self] at hsub
  exact (hsub.eq_of_length ((sortBy_perm key l).filter _).length_eq.symm).symm

/-- Two sorted lists with the same classes are equal. -/
theorem eq_of_classes {l l' : List α} (h : l.Pairwise fun a b => key a ≤ key b)
    (h' : l'.Pairwise fun a b => key a ≤ key b)
    (hclass : ∀ k, l.filter (fun a => key a = k) = l'.filter fun a => key a = k) : l = l' := by
  induction l generalizing l' with
  | nil =>
    cases l' with
    | nil => rfl
    | cons b l' => simpa using hclass (key b)
  | cons a l ih =>
    cases l' with
    | nil => simpa using hclass (key a)
    | cons b l' =>
      have hmem : ∀ {x : α}, x ∈ a :: l ↔ x ∈ b :: l' := fun {x} => by
        have := congrArg (x ∈ ·) (hclass (key x))
        simpa using this
      obtain ⟨ha, ht⟩ := List.pairwise_cons.mp h
      obtain ⟨hb, ht'⟩ := List.pairwise_cons.mp h'
      -- Each head is a least element of the same elements.
      have hab : key a ≤ key b := by
        rcases List.mem_cons.mp (hmem.mpr List.mem_cons_self) with heq | hin
        · rw [heq]
        · exact ha b hin
      have hba : key b ≤ key a := by
        rcases List.mem_cons.mp (hmem.mp List.mem_cons_self) with heq | hin
        · rw [heq]
        · exact hb a hin
      have hkey : key b = key a := le_antisymm hba hab
      have hhead := hclass (key a)
      rw [List.filter_cons_of_pos (by simp), List.filter_cons_of_pos (by simp [hkey])] at hhead
      obtain ⟨rfl, -⟩ := List.cons.inj hhead
      have htail : ∀ k, l.filter (fun x => key x = k) = l'.filter fun x => key x = k := by
        intro k
        have := hclass k
        by_cases hk : key a = k
        · rw [List.filter_cons_of_pos (by simp [hk]), List.filter_cons_of_pos (by simp [hk])] at this
          exact (List.cons.inj this).2
        · rwa [List.filter_cons_of_neg (by simp [hk]), List.filter_cons_of_neg (by simp [hk])] at this
      rw [ih ht ht' htail]

end Sorting

/-! ## First occurrences -/

section Occurrences

variable {α ν : Type} [DecidableEq ν] (name : α → ν)

/-- The elements whose name no earlier element has and that is not among the `seen` ones. -/
def firstsFrom : List ν → List α → List α
  | _, [] => []
  | seen, a :: l => if name a ∈ seen then firstsFrom seen l else a :: firstsFrom (name a :: seen) l

/-- The first element of each name. -/
def firsts (l : List α) : List α := firstsFrom name [] l

theorem firstsFrom_sublist (seen : List ν) (l : List α) : (firstsFrom name seen l).Sublist l := by
  induction l generalizing seen with
  | nil => exact .slnil
  | cons a l ih =>
    rw [firstsFrom]
    split_ifs
    · exact (ih seen).cons a
    · exact (ih _).cons_cons a

theorem firsts_sublist (l : List α) : (firsts name l).Sublist l := firstsFrom_sublist name [] l

theorem firstsFrom_append_singleton (seen : List ν) (l : List α) (a : α) :
    firstsFrom name seen (l ++ [a]) =
      firstsFrom name seen l ++ if name a ∈ seen ∨ name a ∈ l.map name then [] else [a] := by
  induction l generalizing seen with
  | nil =>
    by_cases h : name a ∈ seen <;> simp [firstsFrom, h]
  | cons b l ih =>
    rw [List.cons_append, firstsFrom, firstsFrom]
    by_cases hb : name b ∈ seen
    · have hmem : (name a ∈ seen ∨ name a ∈ (b :: l).map name) ↔ (name a ∈ seen ∨ name a ∈ l.map name) := by
        rw [List.map_cons, List.mem_cons]
        constructor
        · rintro (h | h | h)
          · exact .inl h
          · exact .inl (h ▸ hb)
          · exact .inr h
        · exact fun h => h.imp_right .inr
      rw [if_pos hb, if_pos hb, ih, if_congr hmem rfl rfl]
    · have hmem : (name a ∈ seen ∨ name a ∈ (b :: l).map name) ↔
          (name a ∈ name b :: seen ∨ name a ∈ l.map name) := by
        rw [List.map_cons, List.mem_cons, List.mem_cons]
        tauto
      rw [if_neg hb, if_neg hb, ih, if_congr hmem rfl rfl]
      rfl

theorem firsts_append_singleton (l : List α) (a : α) :
    firsts name (l ++ [a]) = firsts name l ++ if name a ∈ l.map name then [] else [a] := by
  rw [firsts, firstsFrom_append_singleton]
  simp [firsts]

theorem mem_map_firsts {l : List α} {n : ν} : n ∈ (firsts name l).map name ↔ n ∈ l.map name := by
  induction l using List.reverseRecOn with
  | nil => rfl
  | append_singleton l a ih =>
    rw [firsts_append_singleton, List.map_append, List.mem_append, ih, List.map_append, List.mem_append]
    split_ifs with h
    · constructor
      · rintro (h | h)
        · exact .inl h
        · cases h
      · rintro (hl | ha)
        · exact .inl hl
        · rw [List.map_singleton, List.mem_singleton] at ha
          exact .inl (ha ▸ h)
    · rfl

theorem nodup_map_firsts (l : List α) : ((firsts name l).map name).Nodup := by
  induction l using List.reverseRecOn with
  | nil => exact List.nodup_nil
  | append_singleton l a ih =>
    rw [firsts_append_singleton]
    split_ifs with h
    · rwa [List.append_nil]
    · rw [List.map_append, List.map_singleton]
      refine List.nodup_append'.mpr ⟨ih, List.nodup_singleton _, fun n hn hn' => ?_⟩
      rw [List.mem_singleton] at hn'
      exact h ((mem_map_firsts name).mp (hn' ▸ hn))

/-- Elements with an earlier one of the same name may be left out. -/
theorem firstsFrom_filter {c : α → Bool} {seen : List ν} {l : List α}
    (h : ∀ l₁ a l₂, l = l₁ ++ a :: l₂ → c a = false → name a ∈ seen ∨ name a ∈ l₁.map name) :
    firstsFrom name seen (l.filter c) = firstsFrom name seen l := by
  induction l generalizing seen with
  | nil => rfl
  | cons x l ih =>
    have hseen : ∀ seen', (∀ n, n ∈ seen ∨ n = name x → n ∈ seen') →
        firstsFrom name seen' (l.filter c) = firstsFrom name seen' l := by
      intro seen' hsub
      refine ih fun l₁ a l₂ hl ha => ?_
      rcases h (x :: l₁) a l₂ (by rw [hl, List.cons_append]) ha with hs | hs
      · exact .inl (hsub _ (.inl hs))
      · rcases List.mem_cons.mp hs with heq | hin
        · exact .inl (hsub _ (.inr heq))
        · exact .inr hin
    cases hc : c x with
    | false =>
      have hx : name x ∈ seen := (h [] x l rfl hc).resolve_right List.not_mem_nil
      rw [List.filter_cons_of_neg (by simp [hc]), firstsFrom, if_pos hx]
      exact hseen seen fun n hn => hn.elim id fun heq => heq ▸ hx
    | true =>
      rw [List.filter_cons_of_pos hc, firstsFrom, firstsFrom]
      by_cases hx : name x ∈ seen
      · rw [if_pos hx, if_pos hx]
        exact hseen seen fun n hn => hn.elim id fun heq => heq ▸ hx
      · rw [if_neg hx, if_neg hx, hseen (name x :: seen) fun n hn =>
          hn.elim (List.mem_cons_of_mem _) fun heq => heq ▸ List.mem_cons_self]

theorem firsts_filter {c : α → Bool} {l : List α}
    (h : ∀ l₁ a l₂, l = l₁ ++ a :: l₂ → c a = false → name a ∈ l₁.map name) :
    firsts name (l.filter c) = firsts name l :=
  firstsFrom_filter name fun l₁ a l₂ hl ha => .inr (h l₁ a l₂ hl ha)

/-- A loop that skips the names it has seen acts on the first occurrences. -/
theorem foldl_firsts {σ : Type} {step : σ → α → σ} {seen : σ → ν → Prop}
    (hskip : ∀ s a, seen s (name a) → step s a = s) (hadd : ∀ s a, seen (step s a) (name a))
    (hkeep : ∀ s a n, seen s n → seen (step s a) n) (s : σ) (l : List α) :
    l.foldl step s = (firsts name l).foldl step s := by
  have hseen : ∀ l : List α, ∀ n ∈ l.map name, seen (l.foldl step s) n := by
    intro l
    induction l using List.reverseRecOn with
    | nil => exact fun n hn => absurd hn List.not_mem_nil
    | append_singleton l a ih =>
      intro n hn
      rw [List.foldl_append, List.foldl_cons, List.foldl_nil]
      rw [List.map_append, List.mem_append] at hn
      rcases hn with hn | hn
      · exact hkeep _ a n (ih n hn)
      · rw [List.map_singleton, List.mem_singleton] at hn
        exact hn ▸ hadd _ a
  induction l using List.reverseRecOn with
  | nil => rfl
  | append_singleton l a ih =>
    rw [firsts_append_singleton, List.foldl_append, List.foldl_append, ← ih, List.foldl_cons, List.foldl_nil]
    split_ifs with h
    · exact hskip _ a (hseen l _ h)
    · rfl

/-- Where the keys of a name ascend, the first occurrences of a class are those of its elements that no smaller key
    has. -/
theorem filter_firsts {κ : Type} [LinearOrder κ] (key : α → κ) {l : List α}
    (hl : l.Pairwise fun a b => name a = name b → key a ≤ key b) (k : κ) :
    (firsts name l).filter (fun a => key a = k) =
      firsts name (l.filter fun a => decide (key a = k) && decide (∀ b ∈ l, name b = name a → k ≤ key b)) := by
  induction l using List.reverseRecOn with
  | nil => rfl
  | append_singleton l a ih =>
    obtain ⟨hl, -, hlast⟩ := List.pairwise_append.mp hl
    have hlast : ∀ b ∈ l, name b = name a → key b ≤ key a := fun b hb => hlast b hb a List.mem_cons_self
    -- The last element changes nothing for the others of its name.
    have hbefore : ∀ c ∈ l, (decide (key c = k) && decide (∀ b ∈ l ++ [a], name b = name c → k ≤ key b)) =
        (decide (key c = k) && decide (∀ b ∈ l, name b = name c → k ≤ key b)) := by
      intro c hc
      rw [Bool.eq_iff_iff, Bool.and_eq_true, Bool.and_eq_true, decide_eq_true_iff, decide_eq_true_iff,
        decide_eq_true_iff]
      refine and_congr_right fun hk => ⟨fun h b hb => h b (List.mem_append_left _ hb), fun h b hb hname => ?_⟩
      rcases List.mem_append.mp hb with hb | hb
      · exact h b hb hname
      · obtain rfl := List.mem_singleton.mp hb
        exact hk ▸ hlast c hc hname.symm
    rw [firsts_append_singleton, List.filter_append, ih hl, List.filter_append, List.filter_congr hbefore]
    by_cases hmem : name a ∈ l.map name
    · rw [if_pos hmem, List.filter_nil, List.append_nil]
      by_cases ha : (decide (key a = k) && decide (∀ b ∈ l ++ [a], name b = name a → k ≤ key b)) = true
      · rw [List.filter_cons, if_pos ha, List.filter_nil, firsts_append_singleton, if_pos, List.append_nil]
        -- The earlier element of the name has the same key and stays.
        rw [Bool.and_eq_true, decide_eq_true_iff, decide_eq_true_iff] at ha
        obtain ⟨hk, hleast⟩ := ha
        obtain ⟨b, hb, hname⟩ := List.mem_map.mp hmem
        have hkb : key b = k := le_antisymm (hk ▸ hlast b hb hname) (hleast b (List.mem_append_left _ hb) hname)
        refine List.mem_map.mpr ⟨b, List.mem_filter.mpr ⟨hb, ?_⟩, hname⟩
        rw [Bool.and_eq_true, decide_eq_true_iff, decide_eq_true_iff]
        exact ⟨hkb, fun c hc hcb => hleast c (List.mem_append_left _ hc) (hcb.trans hname)⟩
      · rw [List.filter_cons, if_neg ha, List.filter_nil, List.append_nil]
    · rw [if_neg hmem]
      have hnone : ∀ b ∈ l, name b ≠ name a := fun b hb hname => hmem (List.mem_map.mpr ⟨b, hb, hname⟩)
      by_cases hk : key a = k
      · rw [List.filter_cons_of_pos (by simp [hk]), List.filter_cons_of_pos, List.filter_nil, List.filter_nil,
          firsts_append_singleton, if_neg]
        · intro hin
          obtain ⟨b, hb, hname⟩ := List.mem_map.mp hin
          exact hnone b (List.mem_filter.mp hb).1 hname
        · rw [Bool.and_eq_true, decide_eq_true_iff, decide_eq_true_iff]
          refine ⟨hk, fun b hb hname => ?_⟩
          rcases List.mem_append.mp hb with hb | hb
          · exact absurd hname (hnone b hb)
          · obtain rfl := List.mem_singleton.mp hb
            exact hk.ge
      · rw [List.filter_cons_of_neg (by simp [hk]), List.filter_cons_of_neg (by simp [hk]), List.filter_nil,
          List.filter_nil, List.append_nil, List.append_nil]

/-- Two lists with the same classes, ascending in each name, have the same first occurrences in the order of their
    keys. -/
theorem firsts_eq_sortBy {κ : Type} [LinearOrder κ] (key : α → κ) {l l' : List α}
    (hl : l.Pairwise fun a b => key a ≤ key b)
    (hl' : l'.Pairwise fun a b => name a = name b → key a ≤ key b)
    (hclass : ∀ k, l.filter (fun a => key a = k) = l'.filter fun a => key a = k) :
    firsts name l = sortBy key (firsts name l') := by
  have hmem : ∀ {x : α}, x ∈ l ↔ x ∈ l' := fun {x} => by
    have := congrArg (x ∈ ·) (hclass (key x))
    simpa using this
  refine eq_of_classes key (hl.sublist (firsts_sublist name l)) (sortBy_sorted key _) fun k => ?_
  have hnames : l.Pairwise fun a b => name a = name b → key a ≤ key b := by
    refine hl.imp ?_
    intro a b h _
    exact h
  rw [filter_sortBy, filter_firsts name key hnames, filter_firsts name key hl']
  have hpred : ∀ a, decide (∀ b ∈ l, name b = name a → k ≤ key b) = decide (∀ b ∈ l', name b = name a → k ≤ key b) :=
    fun a => by simp only [hmem]
  simp only [hpred]
  have hsplit : ∀ X : List α, X.filter (fun a => decide (key a = k) &&
      decide (∀ b ∈ l', name b = name a → k ≤ key b)) =
        (X.filter fun a => key a = k).filter fun a => decide (∀ b ∈ l', name b = name a → k ≤ key b) := by
    intro X
    rw [List.filter_filter]
    exact List.filter_congr fun a _ => Bool.and_comm _ _
  rw [hsplit l, hsplit l', hclass k]

end Occurrences

end StableSort
