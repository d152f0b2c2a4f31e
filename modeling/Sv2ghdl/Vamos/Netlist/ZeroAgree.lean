import Sv2ghdl.Vamos.Netlist.ZeroLevels

/-!
# The same errors

A visit to every point of the levels reports what it finds point by point.  `_check_r_levels` keeps, for each
resistor, the first point where it is zero, and reports these in order.
-/

open Python StableSort

namespace Vamos.Netlist.Zero

variable {V : Type} [DecidableEq V] [Zero V] (N : Deck V) (base : State V) (axes : List (Axis V))

/-! ## 1. The candidates of all points -/

/-- What a visit to every point finds. -/
def allCands : List Cand := (indices axes).flatMap fun p => (found N (stateAt base axes p)).map (candOf N p)

/-- The points with the levels that set a resistance at their first values. -/
def leads : List (List Nat) := (indices axes).filter fun p => lead axes p = p

/-- What `_check_r_levels` keeps, turn by turn. -/
def keptCands : List Cand := (leads axes).flatMap fun p => walkCands N base axes p ++ setCands N axes p

variable {N base axes}

theorem mem_allCands {c : Cand} :
    c ∈ allCands N base axes ↔ ∃ p z, Fits axes p ∧ z ∈ found N (stateAt base axes p) ∧ c = candOf N p z := by
  rw [allCands, List.mem_flatMap]
  constructor
  · rintro ⟨p, hp, hc⟩
    obtain ⟨z, hz, rfl⟩ := List.mem_map.mp hc
    exact ⟨p, z, mem_indices.mp hp, hz, rfl⟩
  · rintro ⟨p, z, hp, hz, rfl⟩
    exact ⟨p, mem_indices.mpr hp, List.mem_map.mpr ⟨z, hz, rfl⟩⟩

omit [DecidableEq V] [Zero V] in
theorem mem_leads {p : List Nat} : p ∈ leads axes ↔ Fits axes p ∧ lead axes p = p := by
  rw [leads, List.mem_filter, mem_indices, decide_eq_true_iff]

theorem key_le_iff {c c' : Cand} : c.key ≤ c'.key ↔ c.idx < c'.idx ∨ c.idx = c'.idx ∧ c.order ≤ c'.order :=
  Prod.Lex.toLex_le_toLex

omit [DecidableEq V] [Zero V] in
/-- Every point sets a resistance where a level does. -/
theorem rset_ne_nil (hset : ∃ ax ∈ axes, ax.walked = false) {p : List Nat} (hp : Fits axes p) :
    (stateAt base axes p).rset.items ≠ [] := by
  obtain ⟨path, hpath⟩ : ∃ path, path ∈ (lastLevels axes).keys := by
    obtain ⟨ax, hax, hw⟩ := hset
    clear hp
    induction axes using List.reverseRecOn with
    | nil => exact absurd hax List.not_mem_nil
    | append_singleton axes ax' ih =>
      rw [lastLevels_concat]
      cases hsets : ax'.sets with
      | some it => exact ⟨it.path, OrderedDict.mem_keys_set.mpr (.inl rfl)⟩
      | none =>
        rcases List.mem_append.mp hax with hax | hax
        · exact ih hax
        · obtain rfl := List.mem_singleton.mp hax
          rw [Axis.walked, hsets] at hw
          cases hw
  intro hempty
  have hin := (mem_rset_keys base hp path).mpr (.inr hpath)
  rw [stateAt] at hempty
  rw [OrderedDict.keys, hempty] at hin
  cases hin

/-- A visit to every point finds the candidates in order. -/
theorem allCands_sorted (hset : ∃ ax ∈ axes, ax.walked = false) :
    (allCands N base axes).Pairwise fun c c' => c.key ≤ c'.key := by
  rw [allCands, List.pairwise_flatMap]
  constructor
  · intro p hp
    rw [List.pairwise_map, found, if_neg (rset_ne_nil hset (mem_indices.mp hp))]
    refine (sortBy_sorted (fun z : Finding => N.order z.path) _).imp ?_
    intro z z' h
    exact key_le_iff.mpr (.inr ⟨rfl, h⟩)
  · refine (indices_sorted axes).imp fun hlt c hc c' hc' => ?_
    obtain ⟨z, -, rfl⟩ := List.mem_map.mp hc
    obtain ⟨z', -, rfl⟩ := List.mem_map.mp hc'
    exact key_le_iff.mpr (.inl hlt)

/-- The candidates at the first points for them. -/
theorem allCands_filter : (allCands N base axes).filter (fun c => firstPoint axes c.idx c.path = c.idx) =
    (indices axes).flatMap (pointCands N base axes) := by
  rw [allCands, List.filter_flatMap]
  refine List.flatMap_congr fun p _ => ?_
  rw [List.filter_map]
  rfl

/-- The other candidates come after one of the same resistor. -/
theorem firsts_allCands (hset : ∃ ax ∈ axes, ax.walked = false) :
    firsts Cand.path ((indices axes).flatMap (pointCands N base axes)) = firsts Cand.path (allCands N base axes) := by
  rw [← allCands_filter]
  refine firsts_filter Cand.path fun l₁ c l₂ hl hc => ?_
  have hc := of_decide_eq_false hc
  have hmem : c ∈ allCands N base axes := hl ▸ List.mem_append_right _ List.mem_cons_self
  obtain ⟨p, z, hp, hz, rfl⟩ := mem_allCands.mp hmem
  obtain ⟨hfits, hle, hfound⟩ := found_firstPoint N base hp hz
  have hlt : firstPoint axes p z.path < p := lt_of_le_of_ne hle hc
  have hfirst : candOf N (firstPoint axes p z.path) z ∈ allCands N base axes :=
    mem_allCands.mpr ⟨_, z, hfits, hfound, rfl⟩
  rw [hl] at hfirst
  refine List.mem_map.mpr ⟨_, (List.mem_append.mp hfirst).resolve_right fun hin => ?_, rfl⟩
  -- Nothing at an earlier point comes later.
  have hsorted : (allCands N base axes).Pairwise _ := allCands_sorted hset
  rw [hl] at hsorted
  rcases List.mem_cons.mp hin with heq | hin
  · exact hlt.ne (congrArg Cand.idx heq)
  · have hkey := List.rel_of_pairwise_cons (List.pairwise_append.mp hsorted).2.1 hin
    rcases key_le_iff.mp hkey with h | ⟨h, -⟩
    · exact absurd h (not_lt_of_ge hle)
    · exact hlt.ne h.symm

/-! ## 2. The candidates kept -/

theorem mem_walkCands {p : List Nat} {c : Cand} (h : c ∈ walkCands N base axes p) :
    c.idx = p ∧ c.path ∉ (lastLevels axes).keys ∧ c.order = N.order c.path := by
  obtain ⟨z, hz, rfl⟩ := List.mem_map.mp h
  exact ⟨rfl, of_decide_eq_true (List.mem_filter.mp hz).2, rfl⟩

theorem mem_setCands {p : List Nat} {c : Cand} (h : c ∈ setCands N axes p) :
    ∃ i j ax, (lastLevels axes).lookup c.path = some i ∧ axes[i]? = some ax ∧ ax.firstZero = some j ∧
      c.idx = p.set i j ∧ c.order = N.order c.path := by
  obtain ⟨⟨path, i⟩, hitem, he⟩ := List.mem_filterMap.mp h
  split at he
  · next j z hj hz =>
    cases he
    obtain ⟨ax, hax, hj⟩ := Option.bind_eq_some_iff.mp hj
    have hpath := (zeroSet_path N hz).1
    refine ⟨i, j, ax, ?_, hax, hj, rfl, rfl⟩
    show (lastLevels axes).lookup z.path = some i
    rw [hpath]
    exact OrderedDict.lookup_eq_some.mpr hitem
  · cases he

/-- A kept candidate stands at a point with the same leading point. -/
theorem kept_idx {p : List Nat} (hp : p ∈ leads axes) {c : Cand}
    (h : c ∈ walkCands N base axes p ++ setCands N axes p) : Fits axes c.idx ∧ lead axes c.idx = p := by
  obtain ⟨hfits, hlead⟩ := mem_leads.mp hp
  rcases List.mem_append.mp h with h | h
  · obtain ⟨hidx, -⟩ := mem_walkCands h
    rw [hidx]
    exact ⟨hfits, hlead⟩
  · obtain ⟨i, j, ax, hl, hax, hj, hidx, -⟩ := mem_setCands h
    obtain ⟨ax', hax', hw⟩ := walked_of_last hl
    obtain rfl := Option.some.inj (hax.symm.trans hax')
    rw [hidx]
    exact ⟨hfits.set hax (firstZero_spec hj).1, (lead_set hax hw p j).trans hlead⟩

theorem filter_flatMap_of_unique {α β : Type} [DecidableEq α] {l : List α} (hl : l.Nodup) {f : α → List β} {c : β → Bool}
    {a : α} (h : ∀ b ∈ l, b ≠ a → (f b).filter c = []) :
    (l.flatMap f).filter c = if a ∈ l then (f a).filter c else [] := by
  induction l with
  | nil => rfl
  | cons b l ih =>
    obtain ⟨hb, hl⟩ := List.nodup_cons.mp hl
    have ih := ih hl fun b' hb' => h b' (List.mem_cons_of_mem _ hb')
    rw [List.flatMap_cons, List.filter_append, ih]
    by_cases hba : b = a
    · subst hba
      rw [if_neg hb, List.append_nil, if_pos List.mem_cons_self]
    · rw [h b List.mem_cons_self hba, List.nil_append]
      simp [Ne.symm hba]

/-- Each class of the candidates at their first points is the class of those kept. -/
theorem cands_class (k : List Nat ×ₗ Nat) :
    ((indices axes).flatMap (pointCands N base axes)).filter (fun c => c.key = k) =
      (keptCands N base axes).filter fun c => c.key = k := by
  obtain ⟨q, o⟩ := k
  have hnodup : (indices axes).Nodup := (indices_sorted axes).imp fun h => ne_of_lt h
  have hpoints := filter_flatMap_of_unique (a := q) hnodup (f := pointCands N base axes)
    (c := fun c => c.key = toLex (q, o)) fun p _ hne => List.filter_eq_nil_iff.mpr fun c hc hkey => by
      obtain ⟨z, -, rfl⟩ := List.mem_map.mp hc
      exact hne (key_eq_iff.mp (of_decide_eq_true hkey)).1
  have hkept := filter_flatMap_of_unique (a := lead axes q) (hnodup.filter fun p => lead axes p = p)
    (f := fun p => walkCands N base axes p ++ setCands N axes p) (c := fun c => c.key = toLex (q, o))
    fun p hp hne => List.filter_eq_nil_iff.mpr fun c hc hkey => by
      have hidx := (key_eq_iff.mp (of_decide_eq_true hkey)).1
      exact hne ((kept_idx hp hc).2.symm.trans (by rw [hidx]))
  refine hpoints.trans (Eq.trans ?_ hkept.symm)
  by_cases hq : q ∈ indices axes
  · have hfits := mem_indices.mp hq
    have hlead : lead axes q ∈ (indices axes).filter fun p => lead axes p = p :=
      mem_leads.mpr ⟨hfits.lead, lead_lead hfits.length_eq⟩
    rw [if_pos hq, if_pos hlead]
    exact point_class N base hfits o
  · rw [if_neg hq]
    split_ifs with hlead
    · refine (List.filter_eq_nil_iff.mpr fun c hc hkey => hq ?_).symm
      have hidx := (key_eq_iff.mp (of_decide_eq_true hkey)).1
      exact mem_indices.mpr (hidx ▸ (kept_idx hlead hc).1)
    · rfl

omit [DecidableEq V] [Zero V] in
/-- A level that sets a resistance is at its first value at a leading point. -/
theorem getElem?_of_lead {p : List Nat} (hp : p ∈ leads axes) {i : Nat} {ax : Axis V} (hax : axes[i]? = some ax)
    (hw : ax.walked = false) : p[i]? = some 0 := by
  obtain ⟨hfits, hlead⟩ := mem_leads.mp hp
  have hi : i < p.length := hfits.length_eq ▸ (List.getElem?_eq_some_iff.mp hax).1
  have hget := getElem?_lead p hax
  rw [hlead, List.getElem?_eq_getElem hi, hw] at hget
  rw [List.getElem?_eq_getElem hi, hget]
  rfl

/-- The candidates of one resistor are kept in the order of their points. -/
theorem keptCands_ascending :
    (keptCands N base axes).Pairwise fun c c' => c.path = c'.path → c.key ≤ c'.key := by
  rw [keptCands, List.pairwise_flatMap]
  constructor
  · intro p _
    rw [List.pairwise_append]
    refine ⟨List.pairwise_of_forall_mem_list fun c hc c' hc' hpath => ?_, ?_, fun c hc c' hc' hpath => ?_⟩
    · obtain ⟨hidx, -, horder⟩ := mem_walkCands hc
      obtain ⟨hidx', -, horder'⟩ := mem_walkCands hc'
      exact key_le_iff.mpr (.inr ⟨hidx.trans hidx'.symm, by rw [horder, horder', hpath]⟩)
    · refine List.pairwise_of_forall_mem_list fun c hc c' hc' hpath => ?_
      obtain ⟨i, j, ax, hl, hax, hj, hidx, horder⟩ := mem_setCands hc
      obtain ⟨i', j', ax', hl', hax', hj', hidx', horder'⟩ := mem_setCands hc'
      rw [hpath] at hl
      obtain rfl := Option.some.inj (hl.symm.trans hl')
      obtain rfl := Option.some.inj (hax.symm.trans hax')
      obtain rfl := Option.some.inj (hj.symm.trans hj')
      exact key_le_iff.mpr (.inr ⟨hidx.trans hidx'.symm, by rw [horder, horder', hpath]⟩)
    · obtain ⟨-, hnot, -⟩ := mem_walkCands hc
      obtain ⟨i, -, -, hl, -⟩ := mem_setCands hc'
      exact absurd (OrderedDict.mem_keys_iff.mpr ⟨i, hpath ▸ hl⟩) hnot
  · have hsorted : (leads axes).Pairwise (· < ·) := (indices_sorted axes).filter _
    refine (List.Pairwise.and_mem.mp hsorted).imp ?_
    rintro p p' ⟨hp, hp', hlt⟩ c hc c' hc' hpath
    have hlen : p.length = p'.length :=
      (mem_leads.mp hp).1.length_eq.trans (mem_leads.mp hp').1.length_eq.symm
    refine key_le_iff.mpr (.inl ?_)
    rcases List.mem_append.mp hc with hc | hc <;> rcases List.mem_append.mp hc' with hc' | hc'
    · rw [(mem_walkCands hc).1, (mem_walkCands hc').1]
      exact hlt
    · obtain ⟨-, hnot, -⟩ := mem_walkCands hc
      obtain ⟨i, -, -, hl, -⟩ := mem_setCands hc'
      exact absurd (OrderedDict.mem_keys_iff.mpr ⟨i, hpath ▸ hl⟩) hnot
    · obtain ⟨-, hnot, -⟩ := mem_walkCands hc'
      obtain ⟨i, -, -, hl, -⟩ := mem_setCands hc
      exact absurd (OrderedDict.mem_keys_iff.mpr ⟨i, hpath ▸ hl⟩) hnot
    · obtain ⟨i, j, ax, hl, hax, hj, hidx, -⟩ := mem_setCands hc
      obtain ⟨i', j', ax', hl', hax', hj', hidx', -⟩ := mem_setCands hc'
      rw [hpath] at hl
      obtain rfl := Option.some.inj (hl.symm.trans hl')
      obtain rfl := Option.some.inj (hax.symm.trans hax')
      obtain rfl := Option.some.inj (hj.symm.trans hj')
      obtain ⟨ax', hax', hw⟩ := walked_of_last hl'
      obtain rfl := Option.some.inj (hax.symm.trans hax')
      rw [hidx, hidx']
      exact set_lt_set hlt hlen ((getElem?_of_lead hp hax hw).trans (getElem?_of_lead hp' hax hw).symm) j

/-! ## 3. `keep` -/

/-- `keep` of a candidate. -/
def keepCand (first : OrderedDict Str Cand) (c : Cand) : OrderedDict Str Cand :=
  match first.lookup c.path with
  | none => first.set c.path c
  | some old => if c.key < old.key then first.set c.path c else first

/-- Candidates that come in the order of their points are kept once each. -/
theorem foldl_keepCand {l : List Cand} (h : l.Pairwise fun c c' => c.path = c'.path → c.key ≤ c'.key) :
    (l.foldl keepCand .empty).items = (firsts Cand.path l).map fun c => (c.path, c) := by
  induction l using List.reverseRecOn with
  | nil => rfl
  | append_singleton l c ih =>
    obtain ⟨h, -, hlast⟩ := List.pairwise_append.mp h
    have ih := ih h
    rw [List.foldl_append, List.foldl_cons, List.foldl_nil, firsts_append_singleton]
    by_cases hmem : c.path ∈ l.map Cand.path
    · rw [if_pos hmem, List.append_nil, ← ih]
      -- The one that is kept has no later point.
      obtain ⟨old, hold, hpath⟩ := List.mem_map.mp ((mem_map_firsts Cand.path).mpr hmem)
      have hlookup : (l.foldl keepCand .empty).lookup c.path = some old := by
        rw [OrderedDict.lookup_eq_some, ih]
        exact List.mem_map.mpr ⟨old, hold, by rw [hpath]⟩
      have hle : old.key ≤ c.key :=
        hlast old ((firsts_sublist Cand.path l).subset hold) c List.mem_cons_self hpath
      rw [keepCand, hlookup]
      dsimp only
      rw [if_neg hle.not_gt]
    · have hkeys : c.path ∉ (l.foldl keepCand .empty).keys := by
        rw [OrderedDict.keys, ih, List.map_map]
        exact fun hin => hmem ((mem_map_firsts Cand.path).mp hin)
      have hlookup : (l.foldl keepCand .empty).lookup c.path = none := by
        cases hl : (l.foldl keepCand .empty).lookup c.path with
        | none => rfl
        | some old => exact absurd (OrderedDict.mem_keys_iff.mpr ⟨old, hl⟩) hkeys
      rw [if_neg hmem, List.map_append, List.map_singleton, ← ih, keepCand, hlookup]
      exact if_neg hkeys

/-! ## 4. Walks and reports -/

variable (fmt : V → Str) (what sweeps : Str) (N base axes)

/-- The walk of the state at a point. -/
def walkAt (ctx : Ctx V) (p : List Nat) : Ctx V := ctx.walkState (stateAt base axes p) (place fmt what (pick axes p))

/-- The report of a candidate. -/
def reportCand (ctx : Ctx V) (c : Cand) : Ctx V :=
  ctx.reportZero N (place fmt what (pick axes c.idx)) sweeps c.finding

/-- What the report of a candidate says, given what made the resistance zero. -/
def message (cause : Str) (c : Cand) : Str :=
  let parts := (if sweeps = [] then [] else [sweeps]) ++ if cause = [] then [] else [str "after " ++ cause]
  let told := if parts = [] then [] else str " (" ++ (str "; ").intercalate parts ++ str ")"
  place fmt what (pick axes c.idx) ++ told ++ str ": " ++ c.finding.text

variable {N base axes fmt what sweeps}

theorem reportCand_of_mem {ctx : Ctx V} {c : Cand} (h : c.path ∈ ctx.reported) :
    reportCand N axes fmt what sweeps ctx c = ctx := if_pos h

theorem reportCand_of_notMem {ctx : Ctx V} {c : Cand} (h : c.path ∉ ctx.reported) :
    reportCand N axes fmt what sweeps ctx c =
      Ctx.err { ctx with reported := c.path :: ctx.reported } c.finding.origin
        (message axes fmt what sweeps (ctx.zeroCause N c.path) c) := if_neg h

omit [Zero V] in
theorem walkAt_eq (ctx : Ctx V) (p : List Nat) : walkAt base axes fmt what ctx p =
    if keyAt base axes p ∈ ctx.checked.map Prod.fst then ctx
    else { ctx with checked := ctx.checked ++ [(keyAt base axes p, place fmt what (pick axes p))] } := by
  have hkey : (stateAt base axes p).walkKey = keyAt base axes p := walked_pick base axes p
  rw [walkAt, Ctx.walkState, hkey]

omit [Zero V] in
@[simp] theorem history_walkAt (ctx : Ctx V) (p : List Nat) :
    (walkAt base axes fmt what ctx p).history = ctx.history := by
  rw [walkAt_eq]
  split_ifs <;> rfl

omit [Zero V] in
@[simp] theorem reported_walkAt (ctx : Ctx V) (p : List Nat) :
    (walkAt base axes fmt what ctx p).reported = ctx.reported := by
  rw [walkAt_eq]
  split_ifs <;> rfl

omit [Zero V] in
theorem history_walks (ctx : Ctx V) (ps : List (List Nat)) :
    (ps.foldl (walkAt base axes fmt what) ctx).history = ctx.history := by
  induction ps generalizing ctx with
  | nil => rfl
  | cons p ps ih => rw [List.foldl_cons, ih, history_walkAt]

omit [Zero V] in
theorem reported_walks (ctx : Ctx V) (ps : List (List Nat)) :
    (ps.foldl (walkAt base axes fmt what) ctx).reported = ctx.reported := by
  induction ps generalizing ctx with
  | nil => rfl
  | cons p ps ih => rw [List.foldl_cons, ih, reported_walkAt]

omit [Zero V] in
theorem mem_checked_walkAt (ctx : Ctx V) (p : List Nat) (key : Walked V) :
    key ∈ (walkAt base axes fmt what ctx p).checked.map Prod.fst ↔
      key = keyAt base axes p ∨ key ∈ ctx.checked.map Prod.fst := by
  rw [walkAt_eq]
  split_ifs with h
  · exact ⟨.inr, fun hk => hk.elim (fun heq => heq ▸ h) id⟩
  · rw [List.map_append, List.mem_append, List.map_singleton, List.mem_singleton]
    exact or_comm

omit [Zero V] in
theorem mem_checked_walks (ctx : Ctx V) (ps : List (List Nat)) (key : Walked V) :
    key ∈ (ps.foldl (walkAt base axes fmt what) ctx).checked.map Prod.fst ↔
      (∃ p ∈ ps, keyAt base axes p = key) ∨ key ∈ ctx.checked.map Prod.fst := by
  induction ps generalizing ctx with
  | nil => simp
  | cons p ps ih =>
    rw [List.foldl_cons, ih, mem_checked_walkAt, List.exists_mem_cons_iff, eq_comm (a := key), or_left_comm, or_assoc]

omit [Zero V] in
/-- The walks of all points are those of the leading ones. -/
theorem foldl_walkAt (ctx : Ctx V) :
    (indices axes).foldl (walkAt base axes fmt what) ctx = (leads axes).foldl (walkAt base axes fmt what) ctx := by
  have hfirsts : ∀ l : List (List Nat), l.foldl (walkAt base axes fmt what) ctx =
      (firsts (keyAt base axes) l).foldl (walkAt base axes fmt what) ctx := fun l =>
    @foldl_firsts _ _ _ (keyAt base axes) _ _ (fun ctx key => key ∈ ctx.checked.map Prod.fst)
      (fun ctx p h => by rw [walkAt_eq, if_pos h])
      (fun ctx p => (mem_checked_walkAt ctx p _).mpr (.inl rfl))
      (fun ctx p key h => (mem_checked_walkAt ctx p key).mpr (.inr h)) ctx l
  rw [hfirsts (indices axes), hfirsts (leads axes), leads, firsts_filter]
  intro l₁ p l₂ hl hp
  have hne := of_decide_eq_false hp
  have hfits : Fits axes p := mem_indices.mp (hl ▸ List.mem_append_right _ List.mem_cons_self)
  have hlt : lead axes p < p := lt_of_le_of_ne (lead_le hfits) hne
  have hin : lead axes p ∈ indices axes := mem_indices.mpr hfits.lead
  have hsorted := indices_sorted axes
  rw [hl] at hin hsorted
  refine List.mem_map.mpr ⟨lead axes p, (List.mem_append.mp hin).resolve_right fun h => ?_,
    keyAt_lead base hfits.length_eq⟩
  rcases List.mem_cons.mp h with heq | h
  · exact hne heq
  · exact absurd (List.rel_of_pairwise_cons (List.pairwise_append.mp hsorted).2.1 h) (not_lt_of_gt hlt)

/-! ## 5. Reports whose text is known beforehand -/

variable (base axes fmt what)

/-- A report with a text that does not depend on the walks. -/
def say (text : Cand → Str) (ctx : Ctx V) (c : Cand) : Ctx V :=
  if c.path ∈ ctx.reported then ctx
  else Ctx.err { ctx with reported := c.path :: ctx.reported } c.finding.origin (text c)

/-- The walks of all points. -/
def walks (ctx : Ctx V) : Ctx V := (indices axes).foldl (walkAt base axes fmt what) ctx

/-- The walks of the points up to one. -/
def walksTo (ctx : Ctx V) (p : List Nat) : Ctx V :=
  ((indices axes).filter fun q => q ≤ p).foldl (walkAt base axes fmt what) ctx

variable {base axes fmt what}

theorem causeFrom_congr {ctx ctx' : Ctx V} {path : Str} {l : List (State V × Str)}
    (h : ∀ e ∈ l, ctx.zerosOf N e.1 = ctx'.zerosOf N e.1) (cause : Str) :
    ctx.causeFrom N path l cause = ctx'.causeFrom N path l cause := by
  induction l generalizing cause with
  | nil => rfl
  | cons e l ih =>
    obtain ⟨st, made⟩ := e
    rw [Ctx.causeFrom, Ctx.causeFrom, h _ List.mem_cons_self]
    split_ifs
    · exact ih (fun e he => h e (List.mem_cons_of_mem _ he)) made
    · rfl

/-- The cause is read from the history and the walks alone. -/
theorem zeroCause_congr {ctx ctx' : Ctx V} (hhistory : ctx.history = ctx'.history)
    (hchecked : ctx.checked = ctx'.checked) (path : Str) : ctx.zeroCause N path = ctx'.zeroCause N path := by
  rw [Ctx.zeroCause, Ctx.zeroCause, hhistory]
  refine causeFrom_congr (fun e _ => ?_) []
  rw [Ctx.zerosOf, Ctx.zerosOf, Ctx.zeros, Ctx.zeros, hchecked]

section Say

variable {text : Cand → Str}

omit [DecidableEq V] [Zero V] in
theorem say_of_mem {ctx : Ctx V} {c : Cand} (h : c.path ∈ ctx.reported) : say text ctx c = ctx := if_pos h

omit [DecidableEq V] [Zero V] in
theorem say_of_notMem {ctx : Ctx V} {c : Cand} (h : c.path ∉ ctx.reported) :
    say text ctx c = Ctx.err { ctx with reported := c.path :: ctx.reported } c.finding.origin (text c) := if_neg h

omit [DecidableEq V] [Zero V] in
@[simp] theorem history_say (ctx : Ctx V) (c : Cand) : (say text ctx c).history = ctx.history := by
  rw [say]
  split_ifs <;> rfl

omit [DecidableEq V] [Zero V] in
@[simp] theorem checked_say (ctx : Ctx V) (c : Cand) : (say text ctx c).checked = ctx.checked := by
  rw [say]
  split_ifs <;> rfl

omit [DecidableEq V] [Zero V] in
theorem mem_reported_say (ctx : Ctx V) (c : Cand) (path : Str) :
    path ∈ (say text ctx c).reported ↔ path = c.path ∨ path ∈ ctx.reported := by
  by_cases h : c.path ∈ ctx.reported
  · rw [say_of_mem h]
    exact ⟨.inr, fun hp => hp.elim (fun heq => heq ▸ h) id⟩
  · rw [say_of_notMem h]
    exact List.mem_cons

omit [DecidableEq V] [Zero V] in
/-- Reports act on the first candidate of each resistor. -/
theorem foldl_say (ctx : Ctx V) (l : List Cand) :
    l.foldl (say text) ctx = (firsts Cand.path l).foldl (say text) ctx :=
  foldl_firsts Cand.path (fun _ _ h => if_pos h)
    (fun ctx c => (mem_reported_say ctx c c.path).mpr (.inl rfl))
    (fun ctx c path h => (mem_reported_say ctx c path).mpr (.inr h)) ctx l

omit [DecidableEq V] [Zero V] in
@[simp] theorem history_sayAll (ctx : Ctx V) (l : List Cand) : (l.foldl (say text) ctx).history = ctx.history := by
  induction l generalizing ctx with
  | nil => rfl
  | cons c l ih => rw [List.foldl_cons, ih, history_say]

omit [DecidableEq V] [Zero V] in
@[simp] theorem checked_sayAll (ctx : Ctx V) (l : List Cand) : (l.foldl (say text) ctx).checked = ctx.checked := by
  induction l generalizing ctx with
  | nil => rfl
  | cons c l ih => rw [List.foldl_cons, ih, checked_say]

/-- Reports change no cause, so their texts are known before the first of them. -/
theorem reports_eq_sayAll {ctx : Ctx V} {l : List Cand}
    (h : ∀ c ∈ l, message axes fmt what sweeps (ctx.zeroCause N c.path) c = text c) :
    l.foldl (reportCand N axes fmt what sweeps) ctx = l.foldl (say text) ctx := by
  induction l generalizing ctx with
  | nil => rfl
  | cons c l ih =>
    have hfirst : reportCand N axes fmt what sweeps ctx c = say text ctx c := by
      by_cases hmem : c.path ∈ ctx.reported
      · rw [reportCand_of_mem hmem, say_of_mem hmem]
      · rw [reportCand_of_notMem hmem, say_of_notMem hmem, h c List.mem_cons_self]
    rw [List.foldl_cons, List.foldl_cons, hfirst]
    refine ih fun c' hc' => ?_
    rw [zeroCause_congr (history_say ctx c) (checked_say ctx c)]
    exact h c' (List.mem_cons_of_mem _ hc')

omit [Zero V] in
/-- A walk and a report may change places. -/
theorem walkAt_say (ctx : Ctx V) (c : Cand) (p : List Nat) :
    walkAt base axes fmt what (say text ctx c) p = say text (walkAt base axes fmt what ctx p) c := by
  by_cases hmem : c.path ∈ ctx.reported
  · rw [say_of_mem hmem, say_of_mem (by rwa [reported_walkAt])]
  · rw [say_of_notMem hmem, say_of_notMem (by rwa [reported_walkAt]), walkAt_eq, walkAt_eq]
    by_cases hkey : keyAt base axes p ∈ ctx.checked.map Prod.fst
    · rw [if_pos hkey]
      exact if_pos hkey
    · rw [if_neg hkey]
      exact if_neg hkey

omit [Zero V] in
theorem walks_sayAll (ctx : Ctx V) (l : List Cand) (ps : List (List Nat)) :
    ps.foldl (walkAt base axes fmt what) (l.foldl (say text) ctx) =
      l.foldl (say text) (ps.foldl (walkAt base axes fmt what) ctx) := by
  have hwalk : ∀ (ctx : Ctx V) (p : List Nat), walkAt base axes fmt what (l.foldl (say text) ctx) p =
      l.foldl (say text) (walkAt base axes fmt what ctx p) := by
    intro ctx p
    induction l generalizing ctx with
    | nil => rfl
    | cons c l ih => rw [List.foldl_cons, ih, walkAt_say, List.foldl_cons]
  induction ps generalizing ctx with
  | nil => rfl
  | cons p ps ih => rw [List.foldl_cons, hwalk, ih, List.foldl_cons]

omit [DecidableEq V] [Zero V] in
theorem calls_sayAll {l : List Cand} (h : (l.map Cand.path).Nodup) (ctx : Ctx V) :
    (l.foldl (say text) ctx).calls =
      ctx.calls ++ (l.filter fun c => c.path ∉ ctx.reported).map fun c => (c.finding.origin, text c) := by
  induction l generalizing ctx with
  | nil => exact (List.append_nil _).symm
  | cons c l ih =>
    obtain ⟨hnot, hnodup⟩ := List.nodup_cons.mp h
    -- The later candidates are of other resistors, so this report silences none of them.
    have hrest : (l.filter fun d => d.path ∉ (say text ctx c).reported) = l.filter fun d => d.path ∉ ctx.reported :=
      List.filter_congr fun d hd => by
        have hne : d.path ≠ c.path := fun heq => hnot (heq ▸ List.mem_map_of_mem hd)
        simp only [mem_reported_say, hne, false_or]
    rw [List.foldl_cons, ih hnodup, hrest]
    by_cases hmem : c.path ∈ ctx.reported
    · rw [say_of_mem hmem, List.filter_cons_of_neg (by simpa using hmem)]
    · rw [say_of_notMem hmem, List.filter_cons_of_pos (by simpa using hmem), List.map_cons, Ctx.err,
        List.append_assoc, List.singleton_append]

omit [DecidableEq V] [Zero V] in
/-- Two texts make the same reports if they agree on the candidates that are reported. -/
theorem sayAll_eq_iff {text' : Cand → Str} {l : List Cand} (h : (l.map Cand.path).Nodup) (ctx : Ctx V) :
    l.foldl (say text) ctx = l.foldl (say text') ctx ↔ ∀ c ∈ l, c.path ∉ ctx.reported → text c = text' c := by
  refine ⟨fun heq c hc hnew => ?_, fun htext => ?_⟩
  · have hcalls := congrArg Ctx.calls heq
    rw [calls_sayAll h, calls_sayAll h, List.append_cancel_left_eq, List.map_inj_left] at hcalls
    exact (Prod.mk.inj (hcalls c (List.mem_filter.mpr ⟨hc, by simpa using hnew⟩))).2
  · clear h
    induction l generalizing ctx with
    | nil => rfl
    | cons c l ih =>
      have hfirst : say text ctx c = say text' ctx c := by
        by_cases hmem : c.path ∈ ctx.reported
        · rw [say_of_mem hmem, say_of_mem hmem]
        · rw [say_of_notMem hmem, say_of_notMem hmem, htext c List.mem_cons_self hmem]
      rw [List.foldl_cons, List.foldl_cons, ← hfirst]
      refine ih _ fun d hd hnew => htext d (List.mem_cons_of_mem _ hd) fun hmem => ?_
      exact hnew ((mem_reported_say ctx c _).mpr (.inr hmem))

end Say

omit [DecidableEq V] [Zero V] in
/-- The text of a report tells its cause. -/
theorem message_inj {cause cause' : Str} {c : Cand} :
    message axes fmt what sweeps cause c = message axes fmt what sweeps cause' c ↔ cause = cause' := by
  refine ⟨fun h => ?_, fun h => by rw [h]⟩
  have htold := List.append_cancel_left (List.append_cancel_right (List.append_cancel_right h))
  by_cases hsweeps : sweeps = [] <;> by_cases hcause : cause = [] <;> by_cases hcause' : cause' = [] <;>
    simp_all [List.intercalate, str]

/-! ## 6. The two checks -/

theorem checkState_eq (ctx : Ctx V) (p : List Nat) :
    ctx.checkState N (stateAt base axes p) (place fmt what (pick axes p)) sweeps =
      ((found N (stateAt base axes p)).map (candOf N p)).foldl (reportCand N axes fmt what sweeps)
        (walkAt base axes fmt what ctx p) := by
  have hmem : (stateAt base axes p).walkKey ∈ (walkAt base axes fmt what ctx p).checked.map Prod.fst :=
    (mem_checked_walkAt ctx p _).mpr (.inl (walked_pick base axes p))
  have hzeros := zerosOf_walked N hmem
  rw [List.foldl_map, ← hzeros]
  rfl

omit [DecidableEq V] [Zero V] in
/-- The points up to one of them. -/
theorem filter_indices {l₁ l₂ : List (List Nat)} {p : List Nat} (h : indices axes = l₁ ++ p :: l₂) :
    ((indices axes).filter fun q => q ≤ p) = l₁ ++ [p] := by
  have hsorted := indices_sorted axes
  rw [h, List.pairwise_append] at hsorted
  have hbefore : (l₁.filter fun q => q ≤ p) = l₁ :=
    List.filter_eq_self.mpr fun q hq => decide_eq_true (hsorted.2.2 q hq p List.mem_cons_self).le
  have hafter : (l₂.filter fun q => q ≤ p) = [] := List.filter_eq_nil_iff.mpr fun q hq => by
    rw [decide_eq_true_iff, not_le]
    exact List.rel_of_pairwise_cons hsorted.2.1 hq
  have hhere : ((p :: l₂).filter fun q => q ≤ p) = p :: l₂.filter fun q => q ≤ p :=
    List.filter_cons_of_pos (decide_eq_true (le_refl p))
  rw [h, List.filter_append, hbefore, hhere, hafter]

omit [Zero V] in
theorem checked_walkAt_congr {ctx ctx' : Ctx V} (h : ctx.checked = ctx'.checked) (p : List Nat) :
    (walkAt base axes fmt what ctx p).checked = (walkAt base axes fmt what ctx' p).checked := by
  rw [walkAt_eq, walkAt_eq, h]
  split_ifs
  · exact h
  · rfl

/-- Point by point, or all walks and then all reports. -/
theorem foldl_points {ctx : Ctx V} (s : Ctx V) {l₁ l₂ : List (List Nat)} (h : indices axes = l₁ ++ l₂)
    (hhistory : s.history = ctx.history)
    (hchecked : s.checked = (l₁.foldl (walkAt base axes fmt what) ctx).checked) :
    l₂.foldl (fun s p => ((found N (stateAt base axes p)).map (candOf N p)).foldl (reportCand N axes fmt what sweeps)
      (walkAt base axes fmt what s p)) s =
        (l₂.flatMap fun p => (found N (stateAt base axes p)).map (candOf N p)).foldl
          (say fun c => message axes fmt what sweeps ((walksTo base axes fmt what ctx c.idx).zeroCause N c.path) c)
          (l₂.foldl (walkAt base axes fmt what) s) := by
  induction l₂ generalizing l₁ s with
  | nil => rfl
  | cons p l₂ ih =>
    have hchecked' : (walkAt base axes fmt what s p).checked =
        ((l₁ ++ [p]).foldl (walkAt base axes fmt what) ctx).checked := by
      rw [List.foldl_append]
      exact checked_walkAt_congr hchecked p
    have hhistory' : (walkAt base axes fmt what s p).history = ctx.history := (history_walkAt s p).trans hhistory
    have htext : ∀ c ∈ (found N (stateAt base axes p)).map (candOf N p),
        message axes fmt what sweeps ((walkAt base axes fmt what s p).zeroCause N c.path) c =
          message axes fmt what sweeps ((walksTo base axes fmt what ctx c.idx).zeroCause N c.path) c := by
      intro c hc
      obtain ⟨z, -, rfl⟩ := List.mem_map.mp hc
      have hto : walksTo base axes fmt what ctx (candOf N p z).idx = (l₁ ++ [p]).foldl (walkAt base axes fmt what) ctx :=
        congrArg (List.foldl _ ctx) (filter_indices h)
      rw [hto, zeroCause_congr (hhistory'.trans (history_walks ctx _).symm) hchecked']
    rw [List.foldl_cons, reports_eq_sayAll htext, ih _ (h.trans (List.append_cons _ _ _)) ((history_sayAll _ _).trans hhistory')
      ((checked_sayAll _ _).trans hchecked'), List.flatMap_cons, List.foldl_append, List.foldl_cons, walks_sayAll]

/-- A visit to every point. -/
theorem checkProduct_eq (ctx : Ctx V) : checkProduct N fmt ctx axes what sweeps =
    (firsts Cand.path (allCands N ctx.base axes)).foldl (say fun c =>
      message axes fmt what sweeps ((walksTo ctx.base axes fmt what ctx c.idx).zeroCause N c.path) c)
      (walks ctx.base axes fmt what ctx) := by
  rw [← foldl_say, checkProduct, product_items, List.foldl_map, allCands, walks]
  refine Eq.trans ?_ (foldl_points ctx (List.nil_append _).symm rfl rfl)
  refine List.foldl_ext _ _ _ fun c p _ => ?_
  exact checkState_eq c p

omit [DecidableEq V] [Zero V] in
theorem foldl_keep_walk (zs : List Finding) (idx : List Nat) (first : OrderedDict Str Cand) :
    zs.foldl (fun first z => if z.path ∈ (lastLevels axes).keys then first else keep N first idx z) first =
      ((zs.filter fun z => z.path ∉ (lastLevels axes).keys).map (candOf N idx)).foldl keepCand first := by
  induction zs generalizing first with
  | nil => rfl
  | cons z zs ih =>
    rw [List.foldl_cons, ih]
    by_cases hz : z.path ∈ (lastLevels axes).keys
    · rw [if_pos hz, List.filter_cons_of_neg (by simp [hz])]
    · rw [if_neg hz, List.filter_cons_of_pos (by simp [hz])]
      rfl

theorem foldl_keep_set (l : List (Str × Nat)) (idx : List Nat) (first : OrderedDict Str Cand) :
    l.foldl (fun first e =>
      match axes[e.2]?.bind Axis.firstZero, N.zeroSet e.1 with
      | some j, some z => keep N first (idx.set e.2 j) z
      | _, _ => first) first =
        (l.filterMap fun e =>
          match axes[e.2]?.bind Axis.firstZero, N.zeroSet e.1 with
          | some j, some z => some (candOf N (idx.set e.2 j) z)
          | _, _ => none).foldl keepCand first := by
  induction l generalizing first with
  | nil => rfl
  | cons e l ih =>
    rw [List.foldl_cons, ih, List.filterMap_cons]
    cases axes[e.2]?.bind Axis.firstZero with
    | none => rfl
    | some j => cases N.zeroSet e.1 <;> rfl

/-- A turn walks the state of a leading point and keeps the candidates there. -/
theorem levelTurn_eq (s : Ctx V × OrderedDict Str Cand) (widx : List Nat) :
    levelTurn N fmt base axes what s widx =
      (walkAt base axes fmt what s.1 (spread axes widx),
        (walkCands N base axes (spread axes widx) ++ setCands N axes (spread axes widx)).foldl keepCand s.2) := by
  have hlead : ∀ it ∈ walkedItems (leadItems axes), False := by
    intro it hit
    obtain ⟨hit, hnone⟩ := List.mem_filter.mp hit
    obtain ⟨e, he, heq⟩ := List.mem_filterMap.mp hit
    obtain ⟨ax, hax, rfl⟩ := Option.map_eq_some_iff.mp heq
    obtain ⟨ax', hax', hw⟩ := walked_of_last (OrderedDict.lookup_eq_some.mpr he)
    obtain rfl := Option.some.inj (hax.symm.trans hax')
    have hw' : ax.walked = true := hnone
    rw [hw] at hw'
    cases hw'
  have hkey : (applyAll (applyAll base (pickWalked axes (spread axes widx))) (leadItems axes)).walkKey =
      keyAt base axes (spread axes widx) := by
    show (applyAll _ _).walked = _
    rw [applyAll_walked, List.eq_nil_iff_forall_not_mem.mpr fun it hit => hlead it hit]
    rfl
  have hwalk : s.1.walkState (applyAll (applyAll base (pickWalked axes (spread axes widx))) (leadItems axes))
      (place fmt what (pick axes (spread axes widx))) = walkAt base axes fmt what s.1 (spread axes widx) := by
    rw [Ctx.walkState, hkey, walkAt_eq]
  have hmem : (stateLead base axes (spread axes widx)).walkKey ∈
      (walkAt base axes fmt what s.1 (spread axes widx)).checked.map Prod.fst :=
    (mem_checked_walkAt _ _ _).mpr (.inl rfl)
  have hzeros := zerosOf_walked N hmem
  unfold levelTurn
  simp only [hwalk]
  refine Prod.ext rfl ?_
  rw [List.foldl_append, walkCands, ← foldl_keep_walk, ← hzeros]
  exact foldl_keep_set _ _ _

/-- `_check_r_levels`: all walks, and then the report of what was kept. -/
theorem checkRLevels_eq (ctx : Ctx V) : checkRLevels N fmt ctx axes what sweeps =
    (sortBy Cand.key (firsts Cand.path (keptCands N ctx.base axes))).foldl (say fun c =>
      message axes fmt what sweeps ((walks ctx.base axes fmt what ctx).zeroCause N c.path) c)
      (walks ctx.base axes fmt what ctx) := by
  have hturns : ∀ (l : List (List Nat)) (s : Ctx V × OrderedDict Str Cand),
      l.foldl (fun s p => (walkAt ctx.base axes fmt what s.1 p,
        (walkCands N ctx.base axes p ++ setCands N axes p).foldl keepCand s.2)) s =
          (l.foldl (walkAt ctx.base axes fmt what) s.1,
            (l.flatMap fun p => walkCands N ctx.base axes p ++ setCands N axes p).foldl keepCand s.2) := by
    intro l
    induction l with
    | nil => exact fun s => rfl
    | cons p l ih =>
      intro s
      rw [List.foldl_cons, ih, List.foldl_cons, List.flatMap_cons, List.foldl_append (l := walkCands _ _ _ _ ++ _)]
  have hloop : (product ((axes.filter Axis.walked).map fun ax => List.range ax.values.length)).foldl
      (levelTurn N fmt ctx.base axes what) (ctx, .empty) =
        (walks ctx.base axes fmt what ctx, (keptCands N ctx.base axes).foldl keepCand .empty) := by
    rw [walks, foldl_walkAt, keptCands, leads, ← spread_eq]
    refine Eq.trans ?_ (hturns _ (ctx, .empty))
    rw [List.foldl_map]
    exact List.foldl_ext _ _ _ fun s widx _ => levelTurn_eq s widx
  have hvalues : ((firsts Cand.path (keptCands N ctx.base axes)).map fun c => (c.path, c)).map Prod.snd =
      firsts Cand.path (keptCands N ctx.base axes) := by
    rw [List.map_map]
    exact List.map_id _
  unfold checkRLevels
  dsimp only
  rw [hloop]
  dsimp only
  rw [foldl_keepCand keptCands_ascending, hvalues, ← reports_eq_sayAll fun c _ => rfl]
  rfl

/-- The first candidates of the resistors are those of the whole product, in its order. -/
theorem sortBy_keptCands (hset : ∃ ax ∈ axes, ax.walked = false) :
    sortBy Cand.key (firsts Cand.path (keptCands N base axes)) = firsts Cand.path (allCands N base axes) := by
  rw [← firsts_allCands hset]
  refine (firsts_eq_sortBy Cand.path Cand.key ?_ keptCands_ascending fun k => ?_).symm
  · rw [← allCands_filter]
    exact (allCands_sorted hset).filter _
  · convert cands_class k

/-! ## 7. The condition -/

variable (N fmt axes what)

/-- What made a resistance zero, as `_zero_cause` tells it once the points up to its first one are walked, is what
    `_zero_cause` tells once all points are; for each resistor that the step reports. -/
def SameCauses (ctx : Ctx V) : Prop :=
  ∀ c ∈ firsts Cand.path (allCands N ctx.base axes), c.path ∉ ctx.reported →
    (walksTo ctx.base axes fmt what ctx c.idx).zeroCause N c.path =
      (walks ctx.base axes fmt what ctx).zeroCause N c.path

/-- No state of the history that was not walked is walked at one of the points. -/
def Steady (ctx : Ctx V) : Prop :=
  ∀ e ∈ ctx.history, ∀ p ∈ indices axes, keyAt ctx.base axes p = e.1.walkKey →
    e.1.walkKey ∈ ctx.checked.map Prod.fst

variable {N fmt axes what}

/-- Walks that no state of the history waits for change no cause. -/
theorem zeroCause_walks {ctx : Ctx V} (h : Steady axes ctx) {ps : List (List Nat)} (hps : ∀ p ∈ ps, p ∈ indices axes)
    (path : Str) : (ps.foldl (walkAt ctx.base axes fmt what) ctx).zeroCause N path = ctx.zeroCause N path := by
  rw [Ctx.zeroCause, Ctx.zeroCause, history_walks]
  refine causeFrom_congr (fun e he => ?_) []
  have hmem : e.1.walkKey ∈ (ps.foldl (walkAt ctx.base axes fmt what) ctx).checked.map Prod.fst ↔
      e.1.walkKey ∈ ctx.checked.map Prod.fst := by
    rw [mem_checked_walks]
    refine ⟨fun hk => hk.elim (fun hp => ?_) id, .inr⟩
    obtain ⟨p, hp, heq⟩ := hp
    exact h e (List.mem_reverse.mp he) p (hps p hp) heq
  rw [Ctx.zerosOf, Ctx.zerosOf, Ctx.zeros, Ctx.zeros, if_congr hmem rfl rfl]

theorem Steady.sameCauses {ctx : Ctx V} (h : Steady axes ctx) : SameCauses N axes fmt what ctx := fun c _ _ =>
  (zeroCause_walks h (fun _ hp => (List.mem_filter.mp hp).1) c.path).trans
    (zeroCause_walks h (fun _ hp => hp) c.path).symm

/-- A resistor at the top level. -/
def topResistor (name : String) (id : Nat) : Inst := ⟨str name, id, str name, str "r", str "deck:3", [], false, false⟩

/-- `R1` has an `r` that evaluates to zero in every state. -/
def deck : Deck Nat where
  insts := (OrderedDict.empty.set (str "R1") (topResistor "R1" 1)).set (str "R2") (topResistor "R2" 2)
  walk := fun _ => [⟨str "R1", str "deck:3", zeroText (str "R1") (str "top level") (str "r=a evaluates to 0")⟩]

/-- The base state at a temperature. -/
def atTemp (temp : Nat) : State Nat := ⟨⟨∅, temp, 27, ∅, ∅⟩, .empty⟩

def tempAndR2 : List (Axis Nat) :=
  [⟨⟨.option, str "temp", none, [], false, false⟩, str "temp", str "temp", [50, 27], List.cons_ne_nil _ _⟩,
    ⟨⟨.device, str "R2", some (topResistor "R2" 2), [], false, false⟩, str "r", str "R2 r", [1, 2],
      List.cons_ne_nil _ _⟩]

def decimal (v : Nat) : Str := str (Nat.repr v)

/-- The netlist's own state was checked before anything else. -/
def walkedFirst : Ctx Nat :=
  ⟨atTemp 50, [(atTemp 27, []), (atTemp 50, str "alter alter1")],
    [((atTemp 27).walkKey, str "dc dc1"), ((atTemp 50).walkKey, str "dc dc2")], [], []⟩

/-- An alter stands before the first analysis, so the netlist's own state was not checked. -/
def alteredFirst : Ctx Nat :=
  ⟨atTemp 50, [(atTemp 27, []), (atTemp 50, str "alter alter1")], [((atTemp 50).walkKey, str "dc dc1")], [], []⟩

end Vamos.Netlist.Zero
