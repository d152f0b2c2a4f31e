import Sv2ghdl.Vamos.Netlist.ZeroCheck

/-!
# The levels that set a resistance

The errors that `_check_r_levels` reports are those of a visit to every point of the levels, in their order.
-/

open Python StableSort

namespace Vamos.Netlist.Zero

/-! ## 1. Products -/

section Product

variable {α β : Type}

theorem mem_product {x : List α} {ls : List (List α)} : x ∈ product ls ↔ List.Forall₂ (· ∈ ·) x ls := by
  induction ls generalizing x with
  | nil => simp [product]
  | cons l ls ih =>
    rw [product, List.mem_flatMap]
    constructor
    · rintro ⟨a, ha, hx⟩
      obtain ⟨y, hy, rfl⟩ := List.mem_map.mp hx
      exact .cons ha (ih.mp hy)
    · intro h
      cases h with
      | cons ha hy => exact ⟨_, ha, List.mem_map.mpr ⟨_, ih.mpr hy, rfl⟩⟩

/-- A product of ascending lists ascends. -/
theorem product_sorted {ls : List (List Nat)} (h : ∀ l ∈ ls, l.Pairwise (· < ·)) : (product ls).Pairwise (· < ·) := by
  induction ls with
  | nil => exact List.pairwise_singleton _ _
  | cons l ls ih =>
    have ih := ih fun l hl => h l (List.mem_cons_of_mem _ hl)
    rw [product, List.pairwise_flatMap]
    refine ⟨fun a _ => List.pairwise_map.mpr (ih.imp fun hlt => List.cons_lt_cons_iff.mpr (.inr ⟨rfl, hlt⟩)), ?_⟩
    refine (h l List.mem_cons_self).imp fun hlt x hx y hy => ?_
    obtain ⟨x, -, rfl⟩ := List.mem_map.mp hx
    obtain ⟨y, -, rfl⟩ := List.mem_map.mp hy
    exact List.cons_lt_cons_iff.mpr (.inl hlt)

/-- A list that is nowhere above another is not above it. -/
theorem le_of_forall₂ {a b : List Nat} (h : List.Forall₂ (· ≤ ·) a b) : a ≤ b := by
  induction h with
  | nil => exact le_rfl
  | cons hab _ ih =>
    rcases hab.lt_or_eq with hlt | rfl
    · exact (List.cons_lt_cons_iff.mpr (.inl hlt)).le
    · exact List.cons_le_cons _ ih

/-- Setting one place to one value keeps the order of two points that agree there. -/
theorem set_lt_set {a b : List Nat} (h : a < b) (hlen : a.length = b.length) {i : Nat} (hi : a[i]? = b[i]?) (j : Nat) :
    a.set i j < b.set i j := by
  induction a generalizing b i with
  | nil =>
    cases b with
    | nil => exact absurd h (lt_irrefl _)
    | cons => cases hlen
  | cons x a ih =>
    cases b with
    | nil => cases hlen
    | cons y b =>
      have hlen : a.length = b.length := Nat.succ.inj hlen
      have h := List.cons_lt_cons_iff.mp h
      cases i with
      | zero =>
        obtain rfl : x = y := by simpa using hi
        exact List.cons_lt_cons_iff.mpr (.inr ⟨rfl, h.elim (fun hlt => absurd hlt (lt_irrefl _)) And.right⟩)
      | succ i =>
        refine List.cons_lt_cons_iff.mpr (h.imp_right fun hrest => ⟨hrest.1, ?_⟩)
        exact ih hrest.2 hlen (by simpa using hi)

end Product

variable {V : Type}

section Points

/-- The points of the levels, by the positions of their values. -/
def indices (axes : List (Axis V)) : List (List Nat) := product (axes.map fun ax => List.range ax.values.length)

/-- The point with the levels that set a resistance at their first values. -/
def lead (axes : List (Axis V)) (p : List Nat) : List Nat := List.zipWith (fun ax j => if ax.walked then j else 0) axes p

theorem items_eq (ax : Axis V) : ax.items = (List.range ax.values.length).map ax.item := by
  apply List.ext_getElem
  · simp [Axis.items]
  · intro j hj _
    rw [Axis.items, List.length_map] at hj
    simp [Axis.items, Axis.item, hj]

theorem product_items (axes : List (Axis V)) :
    product (axes.map Axis.items) = (indices axes).map (pick axes) := by
  induction axes with
  | nil => rfl
  | cons ax axes ih =>
    rw [indices, List.map_cons, List.map_cons, product, product, ← indices, ih, items_eq, List.flatMap_map,
      List.map_flatMap]
    refine List.flatMap_congr fun j _ => ?_
    rw [List.map_map, List.map_map]
    rfl

theorem indices_sorted (axes : List (Axis V)) : (indices axes).Pairwise (· < ·) := by
  refine product_sorted fun l hl => ?_
  obtain ⟨ax, -, rfl⟩ := List.mem_map.mp hl
  exact List.pairwise_lt_range

/-- A point has a place in the range of every level. -/
def Fits (axes : List (Axis V)) (p : List Nat) : Prop := List.Forall₂ (fun ax j => j < ax.values.length) axes p

theorem mem_indices {axes : List (Axis V)} {p : List Nat} : p ∈ indices axes ↔ Fits axes p := by
  rw [indices, mem_product, List.forall₂_map_right_iff, Fits]
  simp only [List.mem_range]
  exact ⟨List.Forall₂.flip, List.Forall₂.flip⟩

theorem Fits.length_eq {axes : List (Axis V)} {p : List Nat} (h : Fits axes p) : p.length = axes.length :=
  (List.Forall₂.length_eq h).symm

theorem Fits.lead {axes : List (Axis V)} {p : List Nat} (h : Fits axes p) : Fits axes (lead axes p) := by
  induction h with
  | nil => exact .nil
  | @cons ax j _ _ hj _ ih =>
    refine .cons ?_ ih
    show (if ax.walked then j else 0) < _
    split_ifs
    · exact hj
    · exact List.length_pos_iff.mpr ax.nonempty

theorem lead_forall₂ {axes : List (Axis V)} {p : List Nat} (h : Fits axes p) :
    List.Forall₂ (· ≤ ·) (lead axes p) p := by
  induction h with
  | nil => exact .nil
  | @cons ax j _ _ _ _ ih =>
    refine .cons ?_ ih
    show (if ax.walked then j else 0) ≤ j
    split_ifs
    · exact le_rfl
    · exact Nat.zero_le _

theorem lead_le {axes : List (Axis V)} {p : List Nat} (h : Fits axes p) : lead axes p ≤ p :=
  le_of_forall₂ (lead_forall₂ h)

@[simp] theorem length_lead {axes : List (Axis V)} {p : List Nat} (h : p.length = axes.length) :
    (lead axes p).length = axes.length := by
  rw [lead, List.length_zipWith, h, min_self]

theorem lead_lead {axes : List (Axis V)} {p : List Nat} (h : p.length = axes.length) :
    lead axes (lead axes p) = lead axes p := by
  induction axes generalizing p with
  | nil => rfl
  | cons ax axes ih =>
    cases p with
    | nil => cases h
    | cons j p =>
      show (if ax.walked then (if ax.walked then j else 0) else 0) :: lead axes (lead axes p) =
        (if ax.walked then j else 0) :: lead axes p
      rw [ih (Nat.succ.inj h)]
      split_ifs <;> rfl

/-- The combinations of the walked levels are the points that lead. -/
theorem spread_eq (axes : List (Axis V)) :
    (product ((axes.filter Axis.walked).map fun ax => List.range ax.values.length)).map (spread axes) =
      (indices axes).filter fun p => lead axes p = p := by
  induction axes with
  | nil => rfl
  | cons ax axes ih =>
    have hcons : indices (ax :: axes) = (List.range ax.values.length).flatMap fun j => (indices axes).map (j :: ·) := rfl
    rw [hcons, List.filter_flatMap]
    cases hw : ax.walked with
    | true =>
      rw [List.filter_cons_of_pos hw, List.map_cons, product, List.map_flatMap]
      refine List.flatMap_congr fun j _ => ?_
      rw [List.map_map, List.filter_map]
      have hspread : (spread (ax :: axes)) ∘ (j :: ·) = (j :: ·) ∘ spread axes := by
        funext js
        simp [spread, hw]
      have hlead : (fun p => decide (lead (ax :: axes) p = p)) ∘ (j :: ·) = fun p => decide (lead axes p = p) := by
        funext p
        exact decide_eq_decide.mpr (by simp [lead, hw])
      rw [hspread, hlead, ← List.map_map, ih]
    | false =>
      have hspread : spread (ax :: axes) = (0 :: ·) ∘ spread axes := by
        funext js
        simp [spread, hw]
      rw [List.filter_cons_of_neg (by simp [hw]), hspread, ← List.map_map, ih]
      obtain ⟨n, hn⟩ := Nat.exists_eq_succ_of_ne_zero (List.length_pos_iff.mpr ax.nonempty).ne'
      have hlead : ∀ j, ((indices axes).map (j :: ·)).filter (fun p => decide (lead (ax :: axes) p = p)) =
          if j = 0 then ((indices axes).filter fun p => decide (lead axes p = p)).map (j :: ·) else [] := by
        intro j
        rw [List.filter_map]
        split_ifs with hj
        · refine congrArg _ (List.filter_congr fun p _ => decide_eq_decide.mpr ?_)
          simp [lead, hw, hj]
        · rw [List.map_eq_nil_iff, List.filter_eq_nil_iff]
          intro p _
          simp [lead, hw, Ne.symm hj]
      rw [hn, List.range_succ_eq_map, List.flatMap_cons, hlead, if_pos rfl]
      have hrest : ((List.range n).map Nat.succ).flatMap (fun j => ((indices axes).map (j :: ·)).filter
          fun p => decide (lead (ax :: axes) p = p)) = [] := by
        rw [List.flatMap_eq_nil_iff]
        intro j hj
        obtain ⟨i, -, rfl⟩ := List.mem_map.mp hj
        rw [hlead, if_neg (Nat.succ_ne_zero i)]
      rw [hrest, List.append_nil]

end Points

/-! ## 2. The state of a point -/

section States

theorem apply_of_sets {st : State V} {r : Resolved} {param : Str} {it : Inst} (h : setsR r param = some it) (v : V) :
    apply st r param v = { st with rset := st.rset.set it.path v } := by
  rw [apply, h]

theorem apply_of_walked {st : State V} {r : Resolved} {param : Str} (h : setsR r param = none) (v : V) :
    apply st r param v = { st with walked := st.walked.apply r param v } := by
  rw [apply, h]

theorem applyAll_append (st : State V) (items items' : List (Item V)) :
    applyAll st (items ++ items') = applyAll (applyAll st items) items' := List.foldl_append ..

/-- The items that a walk sees. -/
def walkedItems (items : List (Item V)) : List (Item V) := items.filter fun it => (setsR it.r it.param).isNone

/-- A walk sees what the items other than resistances set. -/
theorem applyAll_walked (st : State V) (items : List (Item V)) :
    (applyAll st items).walked =
      (walkedItems items).foldl (fun w it => w.apply it.r it.param it.value) st.walked := by
  induction items generalizing st with
  | nil => rfl
  | cons it items ih =>
    have hcons : walkedItems (it :: items) =
        if (setsR it.r it.param).isNone then it :: walkedItems items else walkedItems items := List.filter_cons
    rw [applyAll, List.foldl_cons, ← applyAll, ih, hcons]
    cases h : setsR it.r it.param with
    | none =>
      rw [apply_of_walked h]
      rfl
    | some r =>
      rw [apply_of_sets h]
      rfl

theorem applyAll_rset_of_walked {items : List (Item V)} (h : ∀ it ∈ items, setsR it.r it.param = none)
    (st : State V) : (applyAll st items).rset = st.rset := by
  induction items generalizing st with
  | nil => rfl
  | cons it items ih =>
    rw [applyAll, List.foldl_cons, ← applyAll, ih fun it' h' => h it' (List.mem_cons_of_mem _ h'),
      apply_of_walked (h it List.mem_cons_self)]

theorem walked_eq_true {ax : Axis V} : ax.walked = true ↔ setsR ax.r ax.param = none := Option.isNone_iff_eq_none

theorem walkedItems_pick (axes : List (Axis V)) (p : List Nat) : walkedItems (pick axes p) = pickWalked axes p := by
  induction axes generalizing p with
  | nil => rfl
  | cons ax axes ih =>
    cases p with
    | nil => rfl
    | cons j p =>
      have ih := ih p
      rw [pick, walkedItems] at ih
      rw [pick, walkedItems, pickWalked, List.zipWith_cons_cons, List.zip_cons_cons, List.filterMap_cons,
        ← pickWalked, ← ih, List.filter_cons]
      cases hw : ax.walked with
      | true =>
        have : (setsR (ax.item j).r (ax.item j).param).isNone = true := hw
        rw [this]
        rfl
      | false =>
        have : (setsR (ax.item j).r (ax.item j).param).isNone = false := hw
        rw [this]
        rfl

theorem walked_of_mem_pickWalked {axes : List (Axis V)} {p : List Nat} {it : Item V} (h : it ∈ pickWalked axes p) :
    setsR it.r it.param = none := by
  obtain ⟨⟨ax, j⟩, -, heq⟩ := List.mem_filterMap.mp h
  dsimp only at heq
  split_ifs at heq with hw
  cases heq
  exact walked_eq_true.mp hw

theorem pickWalked_lead {axes : List (Axis V)} {p : List Nat} (h : p.length = axes.length) :
    pickWalked axes (lead axes p) = pickWalked axes p := by
  induction axes generalizing p with
  | nil => rfl
  | cons ax axes ih =>
    cases p with
    | nil => cases h
    | cons j p =>
      have ih := ih (Nat.succ.inj h)
      show ((ax :: axes).zip ((if ax.walked then j else 0) :: lead axes p)).filterMap _ = _
      rw [pickWalked] at ih
      rw [pickWalked, List.zip_cons_cons, List.zip_cons_cons, List.filterMap_cons, List.filterMap_cons, ih]
      cases hw : ax.walked <;> rfl

/-- What a walk sees at a point. -/
def keyAt (base : State V) (axes : List (Axis V)) (p : List Nat) : Walked V :=
  (applyAll base (pickWalked axes p)).walked

theorem walked_pick (base : State V) (axes : List (Axis V)) (p : List Nat) :
    (applyAll base (pick axes p)).walked = keyAt base axes p := by
  have hself : walkedItems (pickWalked axes p) = pickWalked axes p :=
    List.filter_eq_self.mpr fun it h => Option.isNone_iff_eq_none.mpr (walked_of_mem_pickWalked h)
  rw [keyAt, applyAll_walked, applyAll_walked, walkedItems_pick, hself]

theorem keyAt_lead (base : State V) {axes : List (Axis V)} {p : List Nat} (h : p.length = axes.length) :
    keyAt base axes (lead axes p) = keyAt base axes p := by
  rw [keyAt, pickWalked_lead h, keyAt]

/-! ### The level that sets a resistance -/

theorem lastLevels_concat (axes : List (Axis V)) (ax : Axis V) :
    lastLevels (axes ++ [ax]) =
      (ax.sets.map fun it => (lastLevels axes).set it.path axes.length).getD (lastLevels axes) := by
  rw [lastLevels, List.zipIdx_append, List.foldl_append, ← lastLevels, Nat.zero_add]
  rfl

theorem last_spec {axes : List (Axis V)} {path : Str} {i : Nat} (h : (lastLevels axes).lookup path = some i) :
    ∃ ax it, axes[i]? = some ax ∧ ax.sets = some it ∧ it.path = path := by
  induction axes using List.reverseRecOn with
  | nil => cases h
  | append_singleton axes ax ih =>
    have hold : (lastLevels axes).lookup path = some i →
        ∃ ax' it, (axes ++ [ax])[i]? = some ax' ∧ ax'.sets = some it ∧ it.path = path := by
      intro h
      obtain ⟨ax', it, hax, hit⟩ := ih h
      refine ⟨ax', it, ?_, hit⟩
      rw [List.getElem?_append_left (List.getElem?_eq_some_iff.mp hax).1]
      exact hax
    rw [lastLevels_concat] at h
    cases hsets : ax.sets with
    | none =>
      rw [hsets] at h
      exact hold h
    | some it =>
      rw [hsets, Option.map_some, Option.getD_some, OrderedDict.lookup_set] at h
      split_ifs at h with heq
      · cases h
        exact ⟨ax, it, List.getElem?_concat_length, hsets, heq.symm⟩
      · exact hold h

/-- The value of a level at a point. -/
def valueAt (axes : List (Axis V)) (p : List Nat) (i : Nat) : Option V :=
  axes[i]?.bind fun ax => p[i]?.map fun j => (ax.item j).value

theorem valueAt_concat {axes : List (Axis V)} {ax : Axis V} {p : List Nat} {j i : Nat}
    (h : p.length = axes.length) (hi : i < axes.length) :
    valueAt (axes ++ [ax]) (p ++ [j]) i = valueAt axes p i := by
  rw [valueAt, valueAt, List.getElem?_append_left hi, List.getElem?_append_left (h ▸ hi)]

/-- A point sets a resistance to the value of the last level that sets it. -/
theorem rset_pick (base : State V) {axes : List (Axis V)} {p : List Nat} (h : p.length = axes.length) (path : Str) :
    (applyAll base (pick axes p)).rset.lookup path =
      ((lastLevels axes).lookup path).elim (base.rset.lookup path) (valueAt axes p) := by
  induction axes using List.reverseRecOn generalizing p with
  | nil => rfl
  | append_singleton axes ax ih =>
    obtain ⟨p, j, rfl⟩ : ∃ p' j, p = p' ++ [j] := by
      rcases List.eq_nil_or_concat p with rfl | ⟨p', j, hp⟩
      · simp at h
      · exact ⟨p', j, by rw [hp, List.concat_eq_append]⟩
    have hlen : p.length = axes.length := by simpa using h
    have ih := ih hlen
    have hpick : pick (axes ++ [ax]) (p ++ [j]) = pick axes p ++ [ax.item j] := by
      rw [pick, List.zipWith_append hlen.symm]
      rfl
    -- The value of an earlier level is where it was.
    have hold : ((lastLevels axes).lookup path).elim (base.rset.lookup path) (valueAt (axes ++ [ax]) (p ++ [j])) =
        ((lastLevels axes).lookup path).elim (base.rset.lookup path) (valueAt axes p) := by
      cases hl : (lastLevels axes).lookup path with
      | none => rfl
      | some i =>
        obtain ⟨ax', -, hax, -⟩ := last_spec hl
        exact valueAt_concat hlen (List.getElem?_eq_some_iff.mp hax).1
    rw [hpick, applyAll_append, lastLevels_concat]
    cases hsets : ax.sets with
    | none =>
      have happly : applyAll (applyAll base (pick axes p)) [ax.item j] =
          { applyAll base (pick axes p) with
            walked := (applyAll base (pick axes p)).walked.apply ax.r ax.param (ax.item j).value } :=
        apply_of_walked hsets _
      rw [happly, Option.map_none, Option.getD_none, hold]
      exact ih
    | some it =>
      have happly : applyAll (applyAll base (pick axes p)) [ax.item j] =
          { applyAll base (pick axes p) with
            rset := (applyAll base (pick axes p)).rset.set it.path (ax.item j).value } :=
        apply_of_sets hsets _
      rw [happly, Option.map_some, Option.getD_some, OrderedDict.lookup_set, OrderedDict.lookup_set]
      split_ifs with heq
      · rw [Option.elim_some, valueAt, List.getElem?_concat_length, ← hlen, List.getElem?_concat_length]
        rfl
      · rw [hold]
        exact ih

/-- A resistance is set at a point when a level sets it or it was set before. -/
theorem mem_rset_keys (base : State V) {axes : List (Axis V)} {p : List Nat} (h : Fits axes p) (path : Str) :
    path ∈ (applyAll base (pick axes p)).rset.keys ↔ path ∈ base.rset.keys ∨ path ∈ (lastLevels axes).keys := by
  rw [OrderedDict.mem_keys_iff, OrderedDict.mem_keys_iff, OrderedDict.mem_keys_iff, rset_pick base h.length_eq]
  cases hl : (lastLevels axes).lookup path with
  | none => simp
  | some i =>
    obtain ⟨ax, -, hax, -⟩ := last_spec hl
    have hi := (List.getElem?_eq_some_iff.mp hax).1
    have hp : i < p.length := h.length_eq ▸ hi
    simp [valueAt, hax, hp]

end States

/-! ## 3. What is found at a point -/

section Findings

variable (N : Deck V)

theorem zeroSet_path {path : Str} {z : Finding} (h : N.zeroSet path = some z) :
    z.path = path ∧ path ∈ N.insts.keys := by
  rw [Deck.zeroSet] at h
  cases hl : N.insts.lookup path with
  | none =>
    rw [hl] at h
    cases h
  | some it =>
    rw [hl] at h
    dsimp only at h
    by_cases hbad : it.kind ≠ str "r" ∨ it.short ∨ it.infinite
    · rw [if_pos hbad] at h
      cases h
    · rw [if_neg hbad] at h
      obtain rfl := Option.some.inj h
      exact ⟨rfl, OrderedDict.mem_keys_iff.mpr ⟨it, hl⟩⟩

/-- The place in a walk tells an instance of the netlist from every other path. -/
theorem order_inj {path path' : Str} (h : path ∈ N.insts.keys) (heq : N.order path' = N.order path) : path' = path := by
  have hlt : N.order path < N.insts.keys.length := List.idxOf_lt_length_of_mem h
  rw [← heq] at hlt
  exact (List.idxOf_inj (List.idxOf_lt_length_iff.mp hlt)).mp heq

variable [DecidableEq V] [Zero V]

/-- The resistances that a state sets to 0. -/
def rsetZeros (st : State V) : List Finding :=
  st.rset.items.filterMap fun e => if e.2 = 0 then N.zeroSet e.1 else none

/-- What is 0 in a state, in no order. -/
def unsorted (st : State V) : List Finding :=
  (N.walk st.walkKey).filter (fun z => z.path ∉ st.rset.keys) ++ rsetZeros N st

/-- What `_zeros_of` returns of a state that was walked. -/
def found (st : State V) : List Finding :=
  if st.rset.items = [] then N.walk st.walkKey else sortBy (fun z => N.order z.path) (unsorted N st)

theorem zerosOf_walked {ctx : Ctx V} {st : State V} (h : st.walkKey ∈ ctx.checked.map Prod.fst) :
    ctx.zerosOf N st = found N st := by
  rw [Ctx.zerosOf, Ctx.zeros, if_pos h, found, unsorted, rsetZeros]

theorem unsorted_of_empty {st : State V} (h : st.rset.items = []) : unsorted N st = N.walk st.walkKey := by
  rw [unsorted, rsetZeros, OrderedDict.keys, h]
  simp

/-- Sorting changes nothing within one place of a walk. -/
theorem found_filter (st : State V) (o : Nat) :
    (found N st).filter (fun z => N.order z.path = o) = (unsorted N st).filter fun z => N.order z.path = o := by
  rw [found]
  split_ifs with h
  · rw [unsorted_of_empty N h]
  · exact filter_sortBy (fun z : Finding => N.order z.path) _ o

theorem mem_found {st : State V} {z : Finding} : z ∈ found N st ↔ z ∈ unsorted N st := by
  rw [found]
  split_ifs with h
  · rw [unsorted_of_empty N h]
  · exact mem_sortBy _

theorem mem_rsetZeros {st : State V} {z : Finding} :
    z ∈ rsetZeros N st ↔ st.rset.lookup z.path = some 0 ∧ N.zeroSet z.path = some z := by
  rw [rsetZeros, List.mem_filterMap]
  constructor
  · rintro ⟨⟨path, v⟩, hmem, h⟩
    dsimp only at h
    split_ifs at h with hv
    obtain ⟨hpath, -⟩ := zeroSet_path N h
    subst hpath hv
    exact ⟨OrderedDict.lookup_eq_some.mpr hmem, h⟩
  · rintro ⟨hl, hz⟩
    exact ⟨(z.path, 0), OrderedDict.lookup_eq_some.mp hl, by simpa using hz⟩

/-- One resistance that a state sets. -/
theorem rsetZeros_filter (st : State V) {path : Str} (h : path ∈ N.insts.keys) :
    (rsetZeros N st).filter (fun z => N.order z.path = N.order path) =
      (if st.rset.lookup path = some 0 then N.zeroSet path else none).toList := by
  rw [rsetZeros, OrderedDict.filter_filterMap_items (k := path)]
  · cases hl : st.rset.lookup path with
    | none => rfl
    | some v =>
      by_cases hv : v = 0
      · subst hv
        cases hz : N.zeroSet path with
        | none => simp [hz]
        | some z => simp [hz, (zeroSet_path N hz).1, Option.filter]
      · simp [hv]
  · intro e z hz hc
    split_ifs at hz
    have horder := of_decide_eq_true hc
    rw [(zeroSet_path N hz).1] at horder
    exact order_inj N h horder

end Findings

/-! ## 4. Candidates -/

section Candidates

variable [DecidableEq V] [Zero V] (N : Deck V) (base : State V) (axes : List (Axis V))

/-- The state at a point. -/
def stateAt (p : List Nat) : State V := applyAll base (pick axes p)

/-- The state of the walked levels at a point. -/
def stateLead (p : List Nat) : State V := applyAll base (pickWalked axes p)

/-- The first point with the same walked levels where a resistance may be 0. -/
def firstPoint (p : List Nat) (path : Str) : List Nat :=
  match (lastLevels axes).lookup path with
  | none => lead axes p
  | some i =>
    match axes[i]?.bind Axis.firstZero with
    | some j => (lead axes p).set i j
    | none => lead axes p

def candOf (p : List Nat) (z : Finding) : Cand := ⟨p, N.order z.path, z⟩

/-- What is kept at a leading point of what a walk finds. -/
def walkCands (p : List Nat) : List Cand :=
  ((found N (stateLead base axes p)).filter fun z => z.path ∉ (lastLevels axes).keys).map (candOf N p)

/-- What is kept at a leading point of what the levels set. -/
def setCands (p : List Nat) : List Cand :=
  (lastLevels axes).items.filterMap fun e =>
    match axes[e.2]?.bind Axis.firstZero, N.zeroSet e.1 with
    | some j, some z => some (candOf N (p.set e.2 j) z)
    | _, _ => none

/-- What is found at a point that is the first for it. -/
def pointCands (p : List Nat) : List Cand :=
  ((found N (stateAt base axes p)).filter fun z => firstPoint axes p z.path = p).map (candOf N p)

theorem key_eq_iff {c : Cand} {p : List Nat} {o : Nat} : c.key = toLex (p, o) ↔ c.idx = p ∧ c.order = o := by
  rw [Cand.key, toLex_inj, Prod.mk.injEq]

variable {axes} {p : List Nat}

omit [DecidableEq V] [Zero V] in
theorem rset_stateLead : (stateLead base axes p).rset = base.rset :=
  applyAll_rset_of_walked (fun _ h => walked_of_mem_pickWalked h) base

theorem firstPoint_of_notMem {path : Str} (h : path ∉ (lastLevels axes).keys) : firstPoint axes p path = lead axes p := by
  have hnone : (lastLevels axes).lookup path = none := by
    cases hl : (lastLevels axes).lookup path with
    | none => rfl
    | some i => exact absurd (OrderedDict.mem_keys_iff.mpr ⟨i, hl⟩) h
  rw [firstPoint, hnone]

/-- What a walk finds is first found at a leading point. -/
theorem walk_class (hp : Fits axes p) (o : Nat) :
    (((N.walk (keyAt base axes p)).filter (fun z => z.path ∉ (stateAt base axes p).rset.keys)).filter
      (fun z => N.order z.path = o)).filter (fun z => firstPoint axes p z.path = p) =
        if lead axes p = p then
          (((N.walk (keyAt base axes p)).filter (fun z => z.path ∉ base.rset.keys)).filter
            (fun z => N.order z.path = o)).filter fun z => z.path ∉ (lastLevels axes).keys
        else [] := by
  simp only [List.filter_filter]
  split_ifs with hlead
  · refine List.filter_congr fun z _ => ?_
    rw [stateAt, Bool.eq_iff_iff]
    simp only [Bool.and_eq_true, decide_eq_true_iff, mem_rset_keys base hp, not_or]
    constructor
    · rintro ⟨-, ho, hb, hl⟩
      exact ⟨hl, ho, hb⟩
    · rintro ⟨hl, ho, hb⟩
      exact ⟨(firstPoint_of_notMem hl).trans hlead, ho, hb, hl⟩
  · refine List.filter_eq_nil_iff.mpr fun z _ h => ?_
    rw [stateAt] at h
    simp only [Bool.and_eq_true, decide_eq_true_iff, mem_rset_keys base hp, not_or] at h
    obtain ⟨hfirst, -, -, hl⟩ := h
    exact hlead ((firstPoint_of_notMem hl).symm.trans hfirst)

/-- One resistance that the levels set. -/
theorem setCands_filter {path : Str} (h : path ∈ N.insts.keys) (q : List Nat) :
    (setCands N axes p).filter (fun c => c.key = toLex (q, N.order path)) =
      (((lastLevels axes).lookup path).bind fun i => (axes[i]?.bind Axis.firstZero).bind fun j =>
        (N.zeroSet path).bind fun z => if p.set i j = q then some (candOf N q z) else none).toList := by
  rw [setCands, OrderedDict.filter_filterMap_items (k := path)]
  · congr 1
    refine Option.bind_congr fun i _ => ?_
    cases hj : axes[i]?.bind Axis.firstZero with
    | none => simp
    | some j =>
      cases hz : N.zeroSet path with
      | none => simp
      | some z =>
        have hpath := (zeroSet_path N hz).1
        by_cases hq : p.set i j = q <;>
          simp [hq, Option.filter, key_eq_iff, candOf, hpath]
  · intro e c hc hkey
    obtain ⟨-, horder⟩ := key_eq_iff.mp (of_decide_eq_true hkey)
    split at hc
    · next j z hj hz =>
      cases hc
      have hpath := (zeroSet_path N hz).1
      dsimp only [candOf] at horder
      rw [hpath] at horder
      exact order_inj N h horder
    · cases hc

omit [DecidableEq V] [Zero V] in
theorem value_item {ax : Axis V} {j : Nat} (h : j < ax.values.length) : (ax.item j).value = ax.values[j] := by
  simp [Axis.item, h]

theorem firstZero_spec {ax : Axis V} {j : Nat} (h : ax.firstZero = some j) :
    j < ax.values.length ∧ (ax.item j).value = 0 ∧
      ∀ j' < ax.values.length, (ax.item j').value = 0 → j ≤ j' := by
  rw [Axis.firstZero] at h
  split_ifs at h with hmem
  cases h
  have hlt := List.idxOf_lt_length_of_mem hmem
  refine ⟨hlt, by rw [value_item hlt, List.getElem_idxOf hlt], fun j' hj' h0 => ?_⟩
  by_contra hlow
  have hfalse := List.not_of_lt_findIdx (not_le.mp hlow)
  rw [value_item hj'] at h0
  simp [h0] at hfalse

theorem value_ne_zero {ax : Axis V} (h : ax.firstZero = none) {j : Nat} (hj : j < ax.values.length) :
    (ax.item j).value ≠ 0 := by
  rw [Axis.firstZero] at h
  split_ifs at h with hmem
  rw [value_item hj]
  exact fun h0 => hmem (h0 ▸ List.getElem_mem hj)

omit [DecidableEq V] [Zero V] in
theorem Fits.value {i : Nat} {ax : Axis V} (hp : Fits axes p) (hax : axes[i]? = some ax) :
    ∃ j, p[i]? = some j ∧ j < ax.values.length ∧ valueAt axes p i = some (ax.item j).value := by
  obtain ⟨hi, rfl⟩ := List.getElem?_eq_some_iff.mp hax
  have hpi : i < p.length := hp.length_eq ▸ hi
  refine ⟨p[i], List.getElem?_eq_getElem hpi, List.Forall₂.get hp hi hpi, ?_⟩
  rw [valueAt, hax, List.getElem?_eq_getElem hpi]
  rfl

/-- What the levels set is first found at one point for each combination of the walked levels. -/
theorem set_class (hp : Fits axes p) (o : Nat) :
    (((rsetZeros N (stateAt base axes p)).filter (fun z => N.order z.path = o)).filter
      (fun z => firstPoint axes p z.path = p)).map (candOf N p) =
        (if lead axes p = p then ((rsetZeros N (stateLead base axes p)).filter (fun z => N.order z.path = o)).filter
          fun z => z.path ∉ (lastLevels axes).keys else []).map (candOf N p) ++
            (setCands N axes (lead axes p)).filter fun c => c.key = toLex (p, o) := by
  by_cases hex : ∃ path ∈ N.insts.keys, N.order path = o
  · obtain ⟨path, hpath, rfl⟩ := hex
    rw [rsetZeros_filter N _ hpath, rsetZeros_filter N _ hpath, setCands_filter N hpath, rset_stateLead,
      stateAt, rset_pick base hp.length_eq]
    cases hz : N.zeroSet path with
    | none => simp
    | some z =>
      have hzpath := (zeroSet_path N hz).1
      cases hl : (lastLevels axes).lookup path with
      | none =>
        have hnot : path ∉ (lastLevels axes).keys := fun h => by
          obtain ⟨i, hi⟩ := OrderedDict.mem_keys_iff.mp h
          rw [hl] at hi
          cases hi
        have hfirst : firstPoint axes p path = lead axes p := firstPoint_of_notMem hnot
        by_cases h0 : base.rset.lookup path = some 0 <;> by_cases hlead : lead axes p = p <;>
          simp [h0, hlead, hzpath, hfirst, hnot]
      | some i =>
        obtain ⟨ax, -, hax, -⟩ := last_spec hl
        have hin : path ∈ (lastLevels axes).keys := OrderedDict.mem_keys_iff.mpr ⟨i, hl⟩
        obtain ⟨j', hj', hlt, hvalue⟩ := hp.value hax
        have hnone : (if base.rset.lookup path = some 0 then some z else none).toList.filter
            (fun z => z.path ∉ (lastLevels axes).keys) = [] := by
          split_ifs <;> simp [hzpath, hin]
        rw [hnone, ite_self, List.map_nil, List.nil_append, Option.elim_some, hvalue, Option.bind_some, hax,
          Option.bind_some]
        cases hj : ax.firstZero with
        | none =>
          have hne := value_ne_zero hj hlt
          simp [hne]
        | some j =>
          have hfirst : firstPoint axes p path = (lead axes p).set i j := by
            simp [firstPoint, hl, hax, hj]
          by_cases hq : (lead axes p).set i j = p
          · -- The point has the level at its first zero.
            have hi : i < (lead axes p).length := by
              rw [length_lead hp.length_eq]
              exact (List.getElem?_eq_some_iff.mp hax).1
            have hjj : j' = j := by
              have hget : p[i]? = some j := by
                rw [← hq]
                exact List.getElem?_set_self hi
              exact Option.some.inj (hj'.symm.trans hget)
            have h0 : (ax.item j').value = 0 := hjj ▸ (firstZero_spec hj).2.1
            simp [h0, hq, hzpath, hfirst]
          · by_cases h0 : (ax.item j').value = 0 <;> simp [h0, hq, hzpath, hfirst]
  · -- No instance has this place.
    have hzeros : ∀ st : State V, (rsetZeros N st).filter (fun z => N.order z.path = o) = [] := by
      intro st
      refine List.filter_eq_nil_iff.mpr fun z hz horder => hex ⟨z.path, ?_, of_decide_eq_true horder⟩
      exact (zeroSet_path N ((mem_rsetZeros N).mp hz).2).2
    have hset : (setCands N axes (lead axes p)).filter (fun c => c.key = toLex (p, o)) = [] := by
      refine List.filter_eq_nil_iff.mpr fun c hc hkey => ?_
      obtain ⟨e, -, he⟩ := List.mem_filterMap.mp hc
      split at he
      · next j z hj hz =>
        cases he
        have horder := (key_eq_iff.mp (of_decide_eq_true hkey)).2
        obtain ⟨hpath, hin⟩ := zeroSet_path N hz
        exact hex ⟨z.path, hpath ▸ hin, horder⟩
      · cases he
    rw [hzeros, hzeros, hset]
    simp

/-- At every point and place in a walk, what is first found is what is kept. -/
theorem point_class (hp : Fits axes p) (o : Nat) :
    (pointCands N base axes p).filter (fun c => c.key = toLex (p, o)) =
      (walkCands N base axes (lead axes p) ++ setCands N axes (lead axes p)).filter
        fun c => c.key = toLex (p, o) := by
  have hmap : ∀ (q : List Nat) (zs : List Finding), (zs.map (candOf N q)).filter (fun c => c.key = toLex (p, o)) =
      if q = p then (zs.filter fun z => N.order z.path = o).map (candOf N q) else [] := by
    intro q zs
    rw [List.filter_map]
    split_ifs with hq
    · refine congrArg _ (List.filter_congr fun z _ => decide_eq_decide.mpr ?_)
      show (candOf N q z).key = toLex (p, o) ↔ _
      rw [key_eq_iff]
      exact and_iff_right hq
    · rw [List.map_eq_nil_iff, List.filter_eq_nil_iff]
      intro z _ h
      exact hq (key_eq_iff.mp (of_decide_eq_true h)).1
  have hkey : keyAt base axes (lead axes p) = keyAt base axes p := keyAt_lead base hp.length_eq
  have hlead : stateLead base axes (lead axes p) = stateLead base axes p := by
    rw [stateLead, stateLead, pickWalked_lead hp.length_eq]
  have hcomm : ∀ {zs : List Finding} {c d : Finding → Bool}, (zs.filter c).filter d = (zs.filter d).filter c := by
    intro zs c d
    rw [List.filter_filter, List.filter_filter]
    exact List.filter_congr fun z _ => Bool.and_comm _ _
  have hwalkKey : (stateAt base axes p).walkKey = keyAt base axes p := walked_pick base axes p
  rw [pointCands, hmap, if_pos rfl, hcomm, found_filter, unsorted, hwalkKey, List.filter_append, List.filter_append,
    List.map_append, walk_class N base hp, set_class N base hp, List.filter_append, walkCands, hmap, ← List.append_assoc]
  congr 1
  rw [hlead]
  split_ifs with hl
  · have hrset : (stateLead base axes p).rset = base.rset := rset_stateLead base
    conv_rhs => rw [hcomm, found_filter, unsorted, hrset]
    rw [hl, ← List.map_append, ← List.filter_append, ← List.filter_append]
    rfl
  · rfl

/-! ### First points -/

omit [DecidableEq V] [Zero V] in
theorem Fits.set {i j : Nat} {ax : Axis V} (hp : Fits axes p) (hax : axes[i]? = some ax) (hj : j < ax.values.length) :
    Fits axes (p.set i j) := by
  induction hp generalizing i with
  | nil => cases hax
  | cons hj' hrest ih =>
    cases i with
    | zero =>
      cases hax
      exact .cons hj hrest
    | succ i => exact .cons hj' (ih hax)

omit [DecidableEq V] [Zero V] in
theorem getElem?_lead (p : List Nat) {i : Nat} {ax : Axis V} (hax : axes[i]? = some ax) :
    (lead axes p)[i]? = p[i]?.map fun j => if ax.walked then j else 0 := by
  rw [lead, List.getElem?_zipWith, hax]
  cases p[i]? <;> rfl

omit [DecidableEq V] [Zero V] in
/-- A level that is not walked does not change the leading point. -/
theorem lead_set {i : Nat} {ax : Axis V} (hax : axes[i]? = some ax) (hw : ax.walked = false) (p : List Nat) (j : Nat) :
    lead axes (p.set i j) = lead axes p := by
  induction axes generalizing p i with
  | nil => rfl
  | cons ax' axes ih =>
    cases p with
    | nil => rfl
    | cons j' p =>
      cases i with
      | zero =>
        cases hax
        show (if ax.walked then j else 0) :: lead axes p = (if ax.walked then j' else 0) :: lead axes p
        rw [hw]
        rfl
      | succ i =>
        show (if ax'.walked then j' else 0) :: lead axes (p.set i j) = (if ax'.walked then j' else 0) :: lead axes p
        rw [ih hax]

omit [DecidableEq V] [Zero V] in
theorem walked_of_last {path : Str} {i : Nat} (h : (lastLevels axes).lookup path = some i) :
    ∃ ax, axes[i]? = some ax ∧ ax.walked = false := by
  obtain ⟨ax, it, hax, hsets, -⟩ := last_spec h
  exact ⟨ax, hax, by rw [Axis.walked, hsets]; rfl⟩

omit [DecidableEq V] [Zero V] in
theorem set_lead_le {i j j' : Nat} (hp : Fits axes p) (hj' : p[i]? = some j') (hle : j ≤ j') :
    (lead axes p).set i j ≤ p := by
  have hlead := lead_forall₂ hp
  refine le_of_forall₂ ?_
  refine List.forall₂_iff_get.mpr ⟨by rw [List.length_set]; exact hlead.length_eq, fun k hk hk' => ?_⟩
  rw [List.get_eq_getElem, List.get_eq_getElem, List.getElem_set]
  split_ifs with hik
  · subst hik
    obtain ⟨_, heq⟩ := List.getElem?_eq_some_iff.mp hj'
    exact heq ▸ hle
  · rw [List.length_set] at hk
    exact (List.forall₂_iff_get.mp hlead).2 k hk hk'

/-- What is found at a point is found at its first point. -/
theorem found_firstPoint (hp : Fits axes p) {z : Finding} (hz : z ∈ found N (stateAt base axes p)) :
    Fits axes (firstPoint axes p z.path) ∧ firstPoint axes p z.path ≤ p ∧
      z ∈ found N (stateAt base axes (firstPoint axes p z.path)) := by
  have hlead := hp.lead
  rw [mem_found, unsorted, List.mem_append] at hz
  cases hl : (lastLevels axes).lookup z.path with
  | none =>
    have hnot : z.path ∉ (lastLevels axes).keys := fun h => by
      obtain ⟨i, hi⟩ := OrderedDict.mem_keys_iff.mp h
      rw [hl] at hi
      cases hi
    rw [firstPoint_of_notMem hnot]
    refine ⟨hlead, lead_le hp, (mem_found N).mpr (List.mem_append.mpr (hz.imp (fun hwalk => ?_) fun hset => ?_))⟩
    · obtain ⟨hwalk, hkeys⟩ := List.mem_filter.mp hwalk
      have hkey : (stateAt base axes (lead axes p)).walkKey = (stateAt base axes p).walkKey :=
        (walked_pick base axes _).trans ((keyAt_lead base hp.length_eq).trans (walked_pick base axes p).symm)
      have hkeys := of_decide_eq_true hkeys
      refine List.mem_filter.mpr ⟨hkey ▸ hwalk, decide_eq_true ?_⟩
      rw [stateAt, mem_rset_keys base hlead]
      rwa [stateAt, mem_rset_keys base hp] at hkeys
    · obtain ⟨h0, hz⟩ := (mem_rsetZeros N).mp hset
      refine (mem_rsetZeros N).mpr ⟨?_, hz⟩
      rw [stateAt, rset_pick base hp.length_eq, hl] at h0
      rw [stateAt, rset_pick base hlead.length_eq, hl]
      exact h0
  | some i =>
    obtain ⟨ax, -, hax, -⟩ := last_spec hl
    obtain ⟨j', hj', hlt, hvalue⟩ := hp.value hax
    have hset : z ∈ rsetZeros N (stateAt base axes p) := by
      refine hz.resolve_left fun hwalk => ?_
      have hkeys := of_decide_eq_true (List.mem_filter.mp hwalk).2
      rw [stateAt, mem_rset_keys base hp] at hkeys
      exact hkeys (.inr (OrderedDict.mem_keys_iff.mpr ⟨i, hl⟩))
    obtain ⟨h0, hz⟩ := (mem_rsetZeros N).mp hset
    rw [stateAt, rset_pick base hp.length_eq, hl, Option.elim_some, hvalue, Option.some.injEq] at h0
    cases hj : ax.firstZero with
    | none => exact absurd h0 (value_ne_zero hj hlt)
    | some j =>
      obtain ⟨hjlt, hj0, hleast⟩ := firstZero_spec hj
      have hfirst : firstPoint axes p z.path = (lead axes p).set i j := by
        simp [firstPoint, hl, hax, hj]
      have hfits := hlead.set hax hjlt
      rw [hfirst]
      refine ⟨hfits, set_lead_le hp hj' (hleast j' hlt h0), (mem_found N).mpr ?_⟩
      refine List.mem_append_right _ ((mem_rsetZeros N).mpr ⟨?_, hz⟩)
      have hi : i < (lead axes p).length := by
        rw [length_lead hp.length_eq]
        exact (List.getElem?_eq_some_iff.mp hax).1
      rw [stateAt, rset_pick base hfits.length_eq, hl, Option.elim_some, valueAt, hax, Option.bind_some,
        List.getElem?_set_self hi, Option.map_some, hj0]

end Candidates

end Vamos.Netlist.Zero
