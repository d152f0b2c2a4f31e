import Sv2ghdl.Lists.RowMajor
import Sv2ghdl.Vamos.Spectre.Results

/-!
# The order of the results

The analyses of a netlist stand in nested sweeps.  The plan is the flat list of the analyses, each with the
sweeps around it; the collector finds the sweeps again by their names and goes through their points.
-/

namespace Vamos.Spectre

/-! ## Nested sweeps -/

/-- The statements of a netlist in their order: analyses, and sweeps around further statements. -/
inductive Deck (K : Type) where
  | done
  | analysis (s : AnalysisStep K) (rest : Deck K)
  | sweep (level : SweepLevel K) (body rest : Deck K)

/-- The result of an analysis at the indices of the sweeps around it. -/
def Entry.single {K : Type} (idx : List Nat) (s : AnalysisStep K) : Entry K :=
  if s.context = [] then .unswept s else .leaf s idx

namespace Deck

variable {K : Type}

/-- The plan: the analyses, each with the sweeps around it. -/
def steps (ctx : List (SweepLevel K)) : Deck K → List (AnalysisStep K)
  | done => []
  | analysis s rest => { s with context := ctx } :: rest.steps ctx
  | sweep level body rest => body.steps (ctx ++ [level]) ++ rest.steps ctx

def sweepNames : Deck K → List Python.Str
  | done => []
  | analysis _ rest => rest.sweepNames
  | sweep level body rest => level.name :: (body.sweepNames ++ rest.sweepNames)

/-- The results in the order of nested loops: a sweep's parents, then its body for each point. -/
def results (legacy : Bool) (ctx : List (SweepLevel K)) (idx : List Nat) : Deck K → List (Entry K)
  | done => []
  | analysis s rest =>
    .single idx { s with context := ctx } :: rest.results legacy ctx idx
  | sweep level body rest =>
    (if legacy then [] else (body.steps (ctx ++ [level])).map fun t => .parent t ctx.length idx) ++
      (List.range level.values.length).flatMap
        (fun i => body.results legacy (ctx ++ [level]) (idx ++ [i])) ++
      rest.results legacy ctx idx

end Deck

/-! ## Blocks -/

section Blocks

variable {K : Type} {D : Nat}

/-- The name of the sweep at a depth. -/
def AnalysisStep.nameAt (s : AnalysisStep K) (D : Nat) : Option Python.Str :=
  s.context[D]?.map SweepLevel.name

theorem blocks_cons_none {s : AnalysisStep K} (h : s.context[D]? = none) (rest : List (AnalysisStep K)) :
    blocks D (s :: rest) = .inl s :: blocks D rest := by
  rw [blocks, h]

/-- A block starts with the step that comes first. -/
theorem blocks_head {l : List (AnalysisStep K)} {t : AnalysisStep K} {ts : List (AnalysisStep K)}
    {more : List (AnalysisStep K ⊕ List (AnalysisStep K))} (h : blocks D l = .inr (t :: ts) :: more) :
    l.head? = some t := by
  cases l with
  | nil => cases h
  | cons s rest =>
    unfold blocks at h
    split at h
    · cases h
    · split at h
      · split at h
        · cases h
          rfl
        · cases h
          rfl
      · cases h
        rfl

/-- A step before steps that do not stand under its sweep. -/
theorem blocks_cons_apart {s : AnalysisStep K} {n : Python.Str} (hs : s.nameAt D = some n)
    {rest : List (AnalysisStep K)} (h : ∀ t, rest.head? = some t → t.nameAt D ≠ some n) :
    blocks D (s :: rest) = .inr [s] :: blocks D rest := by
  obtain ⟨level, hlevel, hname⟩ := Option.map_eq_some_iff.mp hs
  rw [blocks, hlevel]
  dsimp only
  split
  · rename_i t ts more heq
    rw [if_neg (fun hsame => h t (blocks_head heq) (hsame.trans (congrArg some hname))), heq]
  · rfl

theorem blocks_cons_same {s t : AnalysisStep K} {n : Python.Str} (hs : s.nameAt D = some n)
    (ht : t.nameAt D = some n) {rest ts : List (AnalysisStep K)}
    {more : List (AnalysisStep K ⊕ List (AnalysisStep K))} (h : blocks D rest = .inr (t :: ts) :: more) :
    blocks D (s :: rest) = .inr (s :: t :: ts) :: more := by
  obtain ⟨level, hlevel, hname⟩ := Option.map_eq_some_iff.mp hs
  rw [blocks, hlevel]
  dsimp only
  rw [h]
  exact if_pos (ht.trans (congrArg some hname.symm))

theorem mem_of_blocks {l : List (AnalysisStep K)} {s : AnalysisStep K} (h : .inl s ∈ blocks D l) :
    s ∈ l ∧ s.context[D]? = none := by
  induction l with
  | nil => cases h
  | cons t rest ih =>
    have hrest (h : .inl s ∈ blocks D rest) : s ∈ t :: rest ∧ s.context[D]? = none :=
      ⟨List.mem_cons_of_mem t (ih h).1, (ih h).2⟩
    unfold blocks at h
    split at h
    · rename_i hnone
      rcases List.mem_cons.mp h with heq | h
      · cases heq
        exact ⟨List.mem_cons_self, hnone⟩
      · exact hrest h
    · split at h
      · rename_i heq
        apply hrest
        rw [heq]
        split at h <;> simp_all
      · apply hrest
        simpa using h

/-- The steps under one sweep are one block, when the step that follows is not under it. -/
theorem blocks_append {l rest : List (AnalysisStep K)} {n : Python.Str} (hl : l ≠ [])
    (hname : ∀ s ∈ l, s.nameAt D = some n) (hrest : ∀ t, rest.head? = some t → t.nameAt D ≠ some n) :
    blocks D (l ++ rest) = .inr l :: blocks D rest := by
  induction l with
  | nil => exact absurd rfl hl
  | cons s l ih =>
    have hs := hname s List.mem_cons_self
    cases l with
    | nil => exact blocks_cons_apart hs hrest
    | cons t l =>
      have htail := ih (List.cons_ne_nil t l) fun u hu => hname u (List.mem_cons_of_mem s hu)
      have ht := hname t (List.mem_cons_of_mem s List.mem_cons_self)
      exact blocks_cons_same hs ht htail

end Blocks

/-! ## The sweeps are found again -/

section Order

variable {K : Type} {p : Deck K} {ctx : List (SweepLevel K)}

theorem Deck.context_of_mem {s : AnalysisStep K} (h : s ∈ p.steps ctx) : ctx <+: s.context := by
  induction p generalizing ctx with
  | done => cases h
  | analysis t rest ih =>
    rcases List.mem_cons.mp h with rfl | h
    · exact List.prefix_rfl
    · exact ih h
  | sweep level body rest ihbody ih =>
    rcases List.mem_append.mp h with h | h
    · exact (List.prefix_append ctx [level]).trans (ihbody h)
    · exact ih h

theorem getElem?_of_starts {ctx context : List (SweepLevel K)} {level : SweepLevel K}
    (h : ctx ++ [level] <+: context) : context[ctx.length]? = some level := by
  obtain ⟨more, rfl⟩ := h
  rw [List.append_assoc, List.getElem?_append_right (Nat.le_refl _), Nat.sub_self]
  rfl

/-- A step stands directly there, or under one of the sweeps there. -/
theorem Deck.nameAt_of_mem {s : AnalysisStep K} (h : s ∈ p.steps ctx) :
    s.nameAt ctx.length = none ∨ ∃ n ∈ p.sweepNames, s.nameAt ctx.length = some n := by
  induction p generalizing ctx with
  | done => cases h
  | analysis t rest ih =>
    rcases List.mem_cons.mp h with rfl | h
    · left
      show Option.map _ ctx[ctx.length]? = none
      rw [List.getElem?_eq_none (Nat.le_refl _)]
      rfl
    · exact ih h
  | sweep level body rest _ ih =>
    rcases List.mem_append.mp h with h | h
    · right
      refine ⟨level.name, List.mem_cons_self, ?_⟩
      unfold AnalysisStep.nameAt
      rw [getElem?_of_starts (context_of_mem h)]
      rfl
    · rcases ih h with hnone | ⟨n, hn, hsome⟩
      · exact .inl hnone
      · exact .inr ⟨n, List.mem_cons_of_mem _ (List.mem_append_right _ hn), hsome⟩

/-- What the collector yields for a step without a further sweep, and for a block. -/
def place (legacy : Bool) (fuel D : Nat) (idx : List Nat) :
    AnalysisStep K ⊕ List (AnalysisStep K) → List (Entry K)
  | .inl s => [.single idx s]
  | .inr block =>
    (if legacy then [] else block.map fun t => .parent t D idx) ++ points legacy fuel block D idx

/-- A block below the top holds only steps that stand under a sweep. -/
theorem points_succ (legacy : Bool) (fuel : Nat) {block : List (AnalysisStep K)}
    (h : ∀ s ∈ block, s.context ≠ []) (D : Nat) (idx : List Nat) :
    points legacy (fuel + 1) block D idx = (List.range (pointCount block D)).flatMap fun i =>
      (blocks (D + 1) block).flatMap (place legacy fuel (D + 1) (idx ++ [i])) := by
  rw [points]
  apply List.flatMap_congr
  intro i _
  apply List.flatMap_congr
  intro b hb
  cases b with
  | inl s =>
    show [Entry.leaf s (idx ++ [i])] = [Entry.single (idx ++ [i]) s]
    rw [Entry.single, if_neg (h s (mem_of_blocks hb).1)]
  | inr sub => rfl

theorem run_eq (legacy : Bool) (steps : List (AnalysisStep K)) : run legacy steps =
    (blocks 0 steps).flatMap
      (place legacy ((steps.map fun s => s.context.length).foldl max 0) 0 []) := by
  apply List.flatMap_congr
  intro b hb
  cases b with
  | inl s =>
    have hnone : s.context = [] := by
      have h := (mem_of_blocks hb).2
      cases hctx : s.context with
      | nil => rfl
      | cons level context =>
        rw [hctx] at h
        cases h
    show [Entry.unswept s] = [Entry.single [] s]
    rw [Entry.single, if_pos hnone]
  | inr sub => rfl

theorem pointCount_eq {block : List (AnalysisStep K)} {level : SweepLevel K} (hblock : block ≠ [])
    (h : ∀ s ∈ block, ctx ++ [level] <+: s.context) :
    pointCount block ctx.length = level.values.length := by
  cases block with
  | nil => exact absurd rfl hblock
  | cons s block =>
    have hlevel := getElem?_of_starts (h s List.mem_cons_self)
    show ((s.context.map fun l => l.values.length)[ctx.length]?).getD 0 = _
    rw [List.getElem?_map, hlevel]
    rfl

theorem Deck.results_of_steps_nil {legacy : Bool} (h : p.steps ctx = []) (idx : List Nat) :
    p.results legacy ctx idx = [] := by
  induction p generalizing ctx idx with
  | done => rfl
  | analysis s rest => cases h
  | sweep level body rest ihbody ih =>
    obtain ⟨hbody, hrest⟩ := List.append_eq_nil_iff.mp h
    unfold results
    rw [hbody, ih hrest, List.flatMap_eq_nil_iff.mpr fun i _ => ihbody hbody _]
    split <;> rfl

/-- The blocks of the steps are the statements of the deck, without the sweeps that hold no analysis. -/
theorem Deck.blocks_steps (legacy : Bool) {fuel : Nat} (hnames : p.sweepNames.Nodup)
    (hfuel : ∀ s ∈ p.steps ctx, s.context.length ≤ ctx.length + fuel) (idx : List Nat) :
    (blocks ctx.length (p.steps ctx)).flatMap (place legacy fuel ctx.length idx) =
      p.results legacy ctx idx := by
  induction p generalizing ctx fuel idx with
  | done => rfl
  | analysis s rest ih =>
    have hrest := ih hnames (fun t ht => hfuel t (List.mem_cons_of_mem _ ht)) idx
    have hnone : ({ s with context := ctx } : AnalysisStep K).context[ctx.length]? = none :=
      List.getElem?_eq_none (Nat.le_refl _)
    unfold steps results
    rw [blocks_cons_none hnone, List.flatMap_cons, hrest]
    rfl
  | sweep level body rest ihbody ih =>
    have hnames' := List.nodup_cons.mp hnames
    have happ := List.nodup_append.mp hnames'.2
    have hrest := ih happ.2.1 (fun t ht => hfuel t (List.mem_append_right _ ht)) idx
    unfold steps results
    by_cases hbody : body.steps (ctx ++ [level]) = []
    · -- a sweep around nothing
      rw [hbody, List.nil_append, hrest,
        List.flatMap_eq_nil_iff.mpr fun i _ => results_of_steps_nil hbody _]
      split <;> rfl
    have hstart : ∀ s ∈ body.steps (ctx ++ [level]), ctx ++ [level] <+: s.context :=
      fun s hs => context_of_mem hs
    have hlt : ∀ s ∈ body.steps (ctx ++ [level]), ctx.length + 1 ≤ s.context.length := by
      intro s hs
      have hle := (hstart s hs).length_le
      rwa [List.length_append] at hle
    have hname : ∀ s ∈ body.steps (ctx ++ [level]), s.nameAt ctx.length = some level.name := by
      intro s hs
      unfold AnalysisStep.nameAt
      rw [getElem?_of_starts (hstart s hs)]
      rfl
    have happart : ∀ t, (rest.steps ctx).head? = some t → t.nameAt ctx.length ≠ some level.name := by
      intro t ht hsame
      rcases nameAt_of_mem (List.mem_of_mem_head? ht) with hnone | ⟨n, hn, hsome⟩
      · cases hnone.symm.trans hsame
      · cases hsome.symm.trans hsame
        exact hnames'.1 (List.mem_append_right _ hn)
    rw [blocks_append hbody hname happart, List.flatMap_cons, hrest]
    congr 1
    -- the block has a step, so that there is fuel for the points of the sweep
    obtain ⟨s, hs⟩ := List.exists_mem_of_ne_nil _ hbody
    have hpos := hfuel s (List.mem_append_left _ hs)
    obtain ⟨fuel, rfl⟩ : ∃ n, fuel = n + 1 := ⟨fuel - 1, by have := hlt s hs; omega⟩
    have hswept : ∀ s ∈ body.steps (ctx ++ [level]), s.context ≠ [] := by
      intro s hs hnil
      have hlen := hlt s hs
      rw [hnil] at hlen
      exact absurd hlen (Nat.not_succ_le_zero _)
    show _ ++ points legacy (fuel + 1) _ _ _ = _
    congr 1
    rw [points_succ legacy fuel hswept, pointCount_eq hbody hstart]
    apply List.flatMap_congr
    intro i _
    have hdepth : (ctx ++ [level]).length = ctx.length + 1 := List.length_append
    have hinner := @ihbody (ctx ++ [level]) fuel happ.1 (fun t ht => by
      have := hfuel t (List.mem_append_left _ ht)
      omega) (idx ++ [i])
    rwa [hdepth] at hinner

/-- The results of a run come in the order of the nested sweeps, point by point. -/
theorem Deck.run_steps (legacy : Bool) (hnames : p.sweepNames.Nodup) :
    run legacy (p.steps []) = p.results legacy [] [] := by
  rw [run_eq]
  apply @blocks_steps K p [] legacy _ hnames
  intro s hs
  have hmem : s.context.length ∈ (p.steps []).map fun s => s.context.length := List.mem_map_of_mem hs
  rw [List.foldl_max_eq_max (List.ne_nil_of_mem hmem)]
  have hle := List.le_max_of_mem hmem
  show s.context.length ≤ 0 + max 0 _
  omega

end Order

/-! ## The points of a step -/

theorem AnalysisStep.counts_drop {K : Type} {s : AnalysisStep K} {ctx : List (SweepLevel K)}
    {level : SweepLevel K} (h : ctx ++ [level] <+: s.context) :
    s.counts.drop ctx.length = level.values.length :: s.counts.drop (ctx ++ [level]).length := by
  obtain ⟨more, hmore⟩ := h
  unfold counts
  rw [← hmore, ← List.map_drop, ← List.map_drop, List.drop_left, List.append_assoc, List.drop_left]
  rfl

section Points

variable {K : Type} [DecidableEq K] {p : Deck K} {ctx : List (SweepLevel K)} {s : AnalysisStep K}

/-- The point of `s` that an entry holds the data of. -/
def Entry.point? (s : AnalysisStep K) : Entry K → Option (List Nat)
  | unswept t => if t = s then some [] else none
  | leaf t idx => if t = s then some idx else none
  | parent .. => none

theorem Entry.point?_single (t : AnalysisStep K) {idx : List Nat} (h : idx.length = t.context.length) :
    Entry.point? s (.single idx t) = if t = s then some idx else none := by
  unfold single
  by_cases hnil : t.context = []
  · rw [if_pos hnil, List.length_eq_zero_iff.mp (h.trans (congrArg List.length hnil))]
    rfl
  · rw [if_neg hnil]
    rfl

theorem Entry.filterMap_parents (legacy : Bool) (block : List (AnalysisStep K)) (D : Nat) (idx : List Nat) :
    (if legacy then [] else block.map fun t => Entry.parent t D idx).filterMap (Entry.point? s) = [] := by
  split
  · rfl
  · rw [List.filterMap_map, List.filterMap_eq_nil_iff]
    exact fun _ _ => rfl

theorem Deck.points_of_not_mem (legacy : Bool) (hs : s ∉ p.steps ctx) {idx : List Nat}
    (hidx : idx.length = ctx.length) : (p.results legacy ctx idx).filterMap (Entry.point? s) = [] := by
  induction p generalizing ctx idx with
  | done => rfl
  | analysis t rest ih =>
    have hs' := not_or.mp (mt List.mem_cons.mpr hs)
    show List.filterMap _ (.single idx _ :: rest.results legacy ctx idx) = []
    rw [List.filterMap_cons_none, ih hs'.2 hidx]
    rw [Entry.point?_single _ (by exact hidx), if_neg (Ne.symm hs'.1)]
  | sweep level body rest ihbody ih =>
    have hs' := not_or.mp (mt List.mem_append.mpr hs)
    unfold results
    rw [List.filterMap_append, List.filterMap_append, Entry.filterMap_parents, ih hs'.2 hidx,
      List.filterMap_flatMap, List.flatMap_eq_nil_iff.mpr fun i _ => ihbody hs'.1 (by simp [hidx])]
    rfl

/-- The leaves of a step are its points, each once and in row-major order. -/
theorem Deck.points_of_mem (legacy : Bool) (hnodup : (p.steps ctx).Nodup) (hs : s ∈ p.steps ctx)
    {idx : List Nat} (hidx : idx.length = ctx.length) :
    (p.results legacy ctx idx).filterMap (Entry.point? s) =
      (RowMajor.indices (s.counts.drop ctx.length)).map (idx ++ ·) := by
  induction p generalizing ctx idx with
  | done => cases hs
  | analysis t rest ih =>
    obtain ⟨hfirst, hnodup⟩ := List.nodup_cons.mp hnodup
    show List.filterMap _ (.single idx _ :: rest.results legacy ctx idx) = _
    rcases List.mem_cons.mp hs with rfl | hs
    · rw [List.filterMap_cons_some (Entry.point?_single _ (by exact hidx) |>.trans (if_pos rfl)),
        points_of_not_mem legacy hfirst hidx]
      unfold AnalysisStep.counts
      rw [List.drop_eq_nil_of_le (by simp)]
      simp [RowMajor.indices]
    · rw [List.filterMap_cons_none, ih hnodup hs hidx]
      rw [Entry.point?_single _ (by exact hidx), if_neg]
      rintro rfl
      exact hfirst hs
  | sweep level body rest ihbody ih =>
    obtain ⟨hbody, hrest, hdisj⟩ := List.nodup_append.mp hnodup
    have hidx' (i : Nat) : (idx ++ [i]).length = (ctx ++ [level]).length := by simp [hidx]
    unfold results
    rw [List.filterMap_append, List.filterMap_append, Entry.filterMap_parents, List.filterMap_flatMap,
      List.nil_append]
    rcases List.mem_append.mp hs with hs | hs
    · have hnot : s ∉ rest.steps ctx := fun h => hdisj s hs s h rfl
      rw [points_of_not_mem legacy hnot hidx, List.append_nil, AnalysisStep.counts_drop (context_of_mem hs)]
      unfold RowMajor.indices
      rw [List.map_flatMap]
      apply List.flatMap_congr
      intro i _
      rw [ihbody hbody hs (hidx' i), List.map_map]
      apply List.map_congr_left
      intro jdx _
      show idx ++ [i] ++ jdx = idx ++ i :: jdx
      rw [List.append_assoc, List.singleton_append]
    · have hnot : s ∉ body.steps (ctx ++ [level]) := fun h => hdisj s h s hs rfl
      rw [List.flatMap_eq_nil_iff.mpr fun i _ => points_of_not_mem legacy hnot (hidx' i), List.nil_append,
        ih hrest hs hidx]

end Points

/-! ## Parents and leaves -/

section Parents

variable {K : Type} {p : Deck K} {ctx : List (SweepLevel K)} {s : AnalysisStep K}

theorem Deck.parent_mem_results_iff {idx jdx : List Nat} {d : Nat} :
    .parent s d jdx ∈ p.results false ctx idx ↔ s ∈ p.steps ctx ∧ ctx.length ≤ d ∧ d < s.context.length ∧
      ∃ kdx ∈ RowMajor.indices ((s.counts.take d).drop ctx.length), jdx = idx ++ kdx := by
  induction p generalizing ctx idx with
  | done =>
    constructor
    · exact fun h => nomatch h
    · exact fun h => nomatch h.1
  | analysis t rest ih =>
    constructor
    · intro h
      rcases List.mem_cons.mp h with heq | h
      · unfold Entry.single at heq
        split at heq <;> cases heq
      · obtain ⟨hs, hrest⟩ := ih.mp h
        exact ⟨List.mem_cons_of_mem _ hs, hrest⟩
    · intro ⟨hs, hle, hlt, hrest⟩
      rcases List.mem_cons.mp hs with rfl | hs
      · exact absurd hlt (not_lt.mpr hle)
      · exact List.mem_cons_of_mem _ (ih.mpr ⟨hs, hle, hlt, hrest⟩)
  | sweep level body rest ihbody ih =>
    have hdrop (hs : s ∈ body.steps (ctx ++ [level])) (hd : ctx.length < d) :
        (s.counts.take d).drop ctx.length =
          level.values.length :: (s.counts.take d).drop (ctx ++ [level]).length := by
      rw [List.drop_take, AnalysisStep.counts_drop (context_of_mem hs), List.drop_take, List.length_append,
        List.length_singleton, ← Nat.succ_sub_succ, Nat.succ_sub hd, List.take_succ_cons]
    constructor
    · intro h
      rcases List.mem_append.mp h with h | h
      · rcases List.mem_append.mp h with h | h
        · obtain ⟨t, ht, heq⟩ := List.mem_map.mp h
          cases heq
          have hlt : ctx.length < s.context.length := by
            have := (context_of_mem ht).length_le
            rwa [List.length_append] at this
          refine ⟨List.mem_append_left _ ht, Nat.le_refl _, hlt, [], ?_, (List.append_nil _).symm⟩
          rw [List.drop_eq_nil_of_le (by simp)]
          exact List.mem_singleton_self _
        · obtain ⟨i, hi, h⟩ := List.mem_flatMap.mp h
          obtain ⟨hs, hle, hlt, kdx, hk, rfl⟩ := ihbody.mp h
          have hd : ctx.length < d := by rwa [List.length_append] at hle
          refine ⟨List.mem_append_left _ hs, hd.le, hlt, i :: kdx, ?_, by simp⟩
          rw [hdrop hs hd]
          exact List.mem_flatMap.mpr ⟨i, hi, List.mem_map_of_mem hk⟩
      · obtain ⟨hs, hrest⟩ := ih.mp h
        exact ⟨List.mem_append_right _ hs, hrest⟩
    · intro ⟨hs, hle, hlt, kdx, hk, hj⟩
      rcases List.mem_append.mp hs with hs | hs
      · apply List.mem_append_left
        rcases Nat.eq_or_lt_of_le hle with rfl | hd
        · apply List.mem_append_left
          rw [List.drop_eq_nil_of_le (by simp)] at hk
          cases List.mem_singleton.mp hk
          rw [List.append_nil] at hj
          rw [hj]
          exact List.mem_map_of_mem (f := fun t => Entry.parent t ctx.length idx) hs
        · apply List.mem_append_right
          rw [hdrop hs hd] at hk
          obtain ⟨i, hi, hk⟩ := List.mem_flatMap.mp hk
          obtain ⟨ldx, hl, rfl⟩ := List.mem_map.mp hk
          refine List.mem_flatMap.mpr ⟨i, hi, ihbody.mpr ⟨hs, ?_, hlt, ldx, hl, by simp [hj]⟩⟩
          rwa [List.length_append]
      · exact List.mem_append_right _ (ih.mpr ⟨hs, hle, hlt, kdx, hk, hj⟩)

/-- The legacy names have no parents. -/
theorem Deck.parent_not_mem_results {idx jdx : List Nat} {d : Nat} :
    .parent s d jdx ∉ p.results true ctx idx := by
  induction p generalizing ctx idx with
  | done => exact List.not_mem_nil
  | analysis t rest ih =>
    intro h
    rcases List.mem_cons.mp h with heq | h
    · unfold Entry.single at heq
      split at heq <;> cases heq
    · exact ih h
  | sweep level body rest ihbody ih =>
    intro h
    rcases List.mem_append.mp h with h | h
    · obtain ⟨i, _, h⟩ := List.mem_flatMap.mp h
      exact ihbody h
    · exact ih h

/-- An entry of one of the steps: a leaf when the step stands under a sweep. -/
def Entry.Fits (steps : List (AnalysisStep K)) : Entry K → Prop
  | unswept s => s ∈ steps ∧ s.context = []
  | leaf s _ => s ∈ steps ∧ s.context ≠ []
  | parent s .. => s ∈ steps

theorem Entry.Fits.mono {steps steps' : List (AnalysisStep K)} {e : Entry K} (h : e.Fits steps)
    (hle : steps ⊆ steps') : e.Fits steps' := by
  cases e with
  | unswept s => exact ⟨hle h.1, h.2⟩
  | leaf s idx => exact ⟨hle h.1, h.2⟩
  | parent s d idx => exact hle h

theorem Deck.fits (legacy : Bool) {idx : List Nat} {e : Entry K} (h : e ∈ p.results legacy ctx idx) :
    e.Fits (p.steps ctx) := by
  induction p generalizing ctx idx with
  | done => cases h
  | analysis t rest ih =>
    rcases List.mem_cons.mp h with rfl | h
    · unfold Entry.single
      split
      · rename_i hnil
        exact ⟨List.mem_cons_self, hnil⟩
      · rename_i hne
        exact ⟨List.mem_cons_self, hne⟩
    · exact (ih h).mono (List.subset_cons_self _ _)
  | sweep level body rest ihbody ih =>
    rcases List.mem_append.mp h with h | h
    · apply Entry.Fits.mono _ (List.subset_append_left _ _)
      rcases List.mem_append.mp h with h | h
      · split at h
        · cases h
        · obtain ⟨t, ht, rfl⟩ := List.mem_map.mp h
          exact ht
      · obtain ⟨i, _, h⟩ := List.mem_flatMap.mp h
        exact ihbody h
    · exact (ih h).mono (List.subset_append_right _ _)

/-! ### Each result comes once -/

def Entry.step : Entry K → AnalysisStep K
  | unswept s => s
  | parent s .. => s
  | leaf s _ => s

def Entry.index : Entry K → List Nat
  | unswept _ => []
  | parent _ _ idx => idx
  | leaf _ idx => idx

theorem Entry.Fits.step_mem {steps : List (AnalysisStep K)} {e : Entry K} (h : e.Fits steps) :
    e.step ∈ steps := by
  cases e with
  | unswept s => exact h.1
  | parent s d idx => exact h
  | leaf s idx => exact h.1

/-- Below a point the results have its indices. -/
theorem Deck.index_of_mem {legacy : Bool} (hctx : ctx ≠ []) {idx : List Nat} {e : Entry K}
    (h : e ∈ p.results legacy ctx idx) : idx <+: e.index := by
  induction p generalizing ctx idx with
  | done => cases h
  | analysis t rest ih =>
    rcases List.mem_cons.mp h with rfl | h
    · unfold Entry.single
      rw [if_neg hctx]
      exact List.prefix_rfl
    · exact ih hctx h
  | sweep level body rest ihbody ih =>
    rcases List.mem_append.mp h with h | h
    · rcases List.mem_append.mp h with h | h
      · split at h
        · cases h
        · obtain ⟨t, _, rfl⟩ := List.mem_map.mp h
          exact List.prefix_rfl
      · obtain ⟨i, _, h⟩ := List.mem_flatMap.mp h
        exact (List.prefix_append idx [i]).trans (ihbody (by simp) h)
    · exact ih hctx h

theorem Deck.nodup_results (legacy : Bool) (hnodup : (p.steps ctx).Nodup) (idx : List Nat) :
    (p.results legacy ctx idx).Nodup := by
  induction p generalizing ctx idx with
  | done => exact List.nodup_nil
  | analysis t rest ih =>
    obtain ⟨hfirst, hrest⟩ := List.nodup_cons.mp hnodup
    apply List.nodup_cons.mpr ⟨_, ih hrest idx⟩
    intro h
    have hmem := (fits legacy h).step_mem
    unfold Entry.single at hmem
    split at hmem
    · exact hfirst hmem
    · exact hfirst hmem
  | sweep level body rest ihbody ih =>
    obtain ⟨hbody, hrest, hdisj⟩ := List.nodup_append.mp hnodup
    have hpoints : ((List.range level.values.length).flatMap fun i =>
        body.results legacy (ctx ++ [level]) (idx ++ [i])).Nodup := by
      rw [List.nodup_flatMap]
      constructor
      · exact fun i _ => ihbody hbody _
      · apply List.Nodup.pairwise_of_forall_ne List.nodup_range
        intro i _ j _ hij e hi hj
        obtain ⟨x, hx⟩ := index_of_mem (by simp) hi
        obtain ⟨y, hy⟩ := index_of_mem (by simp) hj
        have heq := hx.trans hy.symm
        rw [List.append_assoc, List.append_assoc, List.append_cancel_left_eq] at heq
        exact hij (List.cons.inj heq).1
    have hbelow (e : Entry K) (h : e ∈ (List.range level.values.length).flatMap fun i =>
        body.results legacy (ctx ++ [level]) (idx ++ [i])) :
        e.step ∈ body.steps (ctx ++ [level]) ∧ ∀ t, legacy = false → e ≠ .parent t ctx.length idx := by
      obtain ⟨i, _, h⟩ := List.mem_flatMap.mp h
      refine ⟨(fits legacy h).step_mem, ?_⟩
      rintro t rfl rfl
      have hdepth := (parent_mem_results_iff.mp h).2.1
      rw [List.length_append] at hdepth
      exact absurd hdepth (Nat.not_succ_le_self _)
    have hparents : ∀ e ∈ (if legacy then [] else (body.steps (ctx ++ [level])).map fun t =>
        Entry.parent t ctx.length idx), legacy = false ∧
          ∃ t ∈ body.steps (ctx ++ [level]), e = .parent t ctx.length idx := by
      intro e he
      cases legacy with
      | true => cases he
      | false =>
        obtain ⟨t, ht, rfl⟩ := List.mem_map.mp he
        exact ⟨rfl, t, ht, rfl⟩
    refine List.nodup_append.mpr ⟨List.nodup_append.mpr ⟨?_, hpoints, ?_⟩, ih hrest idx, ?_⟩
    · split
      · exact List.nodup_nil
      · exact hbody.map fun _ _ h => (Entry.parent.inj h).1
    · intro a ha b hb hab
      obtain ⟨hlegacy, t, _, rfl⟩ := hparents a ha
      exact (hbelow b hb).2 t hlegacy hab.symm
    · intro a ha b hb hab
      have hstep : a.step ∈ body.steps (ctx ++ [level]) := by
        rcases List.mem_append.mp ha with ha | ha
        · obtain ⟨_, t, ht, rfl⟩ := hparents a ha
          exact ht
        · exact (hbelow a ha).1
      exact hdisj a.step hstep b.step (fits legacy hb).step_mem (congrArg Entry.step hab)

end Parents

/-! ### The data results -/

section Members

variable {K : Type} [DecidableEq K] {p : Deck K} {s : AnalysisStep K}

theorem Entry.point?_eq_some {e : Entry K} {idx : List Nat} (h : e.point? s = some idx) :
    e = .unswept s ∧ idx = [] ∨ e = .leaf s idx := by
  cases e with
  | unswept t =>
    rcases ite_eq_iff.mp h with ⟨rfl, hidx⟩ | ⟨_, hnone⟩
    · exact .inl ⟨rfl, (Option.some.inj hidx).symm⟩
    · cases hnone
  | parent t d jdx => cases h
  | leaf t jdx =>
    rcases ite_eq_iff.mp h with ⟨rfl, hidx⟩ | ⟨_, hnone⟩
    · exact .inr (congrArg _ (Option.some.inj hidx))
    · cases hnone

theorem Deck.point_mem_results (legacy : Bool) (hnodup : (p.steps []).Nodup) (hs : s ∈ p.steps [])
    {idx : List Nat} (hidx : idx ∈ RowMajor.indices s.counts) :
    ∃ e ∈ p.results legacy [] [], e.point? s = some idx := by
  have hpoints := @points_of_mem K _ p [] s legacy hnodup hs [] rfl
  rw [← List.mem_filterMap, hpoints]
  simpa using hidx

theorem Deck.leaf_mem_results_iff {legacy : Bool} (hnodup : (p.steps []).Nodup) {idx : List Nat} :
    .leaf s idx ∈ p.results legacy [] [] ↔
      s ∈ p.steps [] ∧ s.context ≠ [] ∧ idx ∈ RowMajor.indices s.counts := by
  constructor
  · intro h
    obtain ⟨hs, hne⟩ := fits legacy h
    have hmem : idx ∈ (p.results legacy [] []).filterMap (Entry.point? s) :=
      List.mem_filterMap.mpr ⟨_, h, if_pos rfl⟩
    rw [@points_of_mem K _ p [] s legacy hnodup hs [] rfl] at hmem
    exact ⟨hs, hne, by simpa using hmem⟩
  · intro ⟨hs, hne, hidx⟩
    obtain ⟨e, he, hpoint⟩ := point_mem_results legacy hnodup hs hidx
    rcases Entry.point?_eq_some hpoint with ⟨rfl, _⟩ | rfl
    · exact absurd (fits legacy he).2 hne
    · exact he

theorem Deck.unswept_mem_results_iff {legacy : Bool} (hnodup : (p.steps []).Nodup) :
    .unswept s ∈ p.results legacy [] [] ↔ s ∈ p.steps [] ∧ s.context = [] := by
  constructor
  · exact fun h => fits legacy h
  · intro ⟨hs, hnil⟩
    have hidx : [] ∈ RowMajor.indices s.counts := by
      unfold AnalysisStep.counts
      rw [hnil]
      exact List.mem_singleton_self _
    obtain ⟨e, he, hpoint⟩ := point_mem_results legacy hnodup hs hidx
    rcases Entry.point?_eq_some hpoint with ⟨rfl, _⟩ | rfl
    · exact he
    · exact absurd hnil (fits legacy he).2

end Members

end Vamos.Spectre
