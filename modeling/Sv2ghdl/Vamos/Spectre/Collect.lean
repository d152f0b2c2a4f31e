import Sv2ghdl.Vamos.Spectre.Rows

/-!
# The results of the points

Every point of every step has one result, which holds the rows of that point, also of an output that is cut
short.
-/

namespace Vamos.Spectre

open RowMajor (Cut)

section Statuses

variable {K R V : Type} {l : Loaded K R V}

/-- No data: the step failed, or the point is not before the first one that failed. -/
def Output.Fails (o : Output K R V) (g : Nat) : Prop :=
  (∃ k ∈ o.failedPoint, k ≤ g + 1) ∨ (o.status = .failed ∧ o.failedPoint = none)

theorem groupStatus_fails {g : Nat} (hstatus : l.status = l.out.status) (h : l.out.Fails g) :
    l.groupStatus g = .failed := by
  unfold Loaded.groupStatus
  rw [hstatus]
  rcases h with ⟨k, hk, hle⟩ | ⟨hfailed, hnone⟩
  · rw [if_pos (by simp [Option.mem_def.mp hk, hle])]
  · rw [hfailed, hnone]
    simp

/-- The status of a group that does not fail. -/
theorem groupStatus_eq {g : Nat} (hstatus : l.status = l.out.status) (h : ¬l.out.Fails g) :
    l.groupStatus g =
      if l.groups.length ≤ g then .failed
      else if l.out.status = .interrupted ∧ g + 1 = l.groups.length then .interrupted else .ok := by
  obtain ⟨hpoint, hstep⟩ := not_or.mp h
  have hany : ¬(l.out.failedPoint.any fun k => k ≤ g + 1) = true := by
    intro hany
    obtain ⟨k, hk, hle⟩ := (Option.any_eq_true _ _).mp hany
    exact hpoint ⟨k, hk, of_decide_eq_true hle⟩
  unfold Loaded.groupStatus
  rw [hstatus, if_neg hany]
  split_ifs with hlen hlast hfailed hnone
  · rfl
  · rfl
  · exact absurd ⟨hfailed, hnone⟩ hstep
  · rfl
  · rfl

end Statuses

section Leaves

variable {K R V : Type} [LinearOrder K] [Zero K] [Sub K] [Neg K] [Mul K] (endRel : K)

/-- The data of a point that has the rows `rows`. -/
def Loaded.pointData (l : Loaded K R V) (rows : List R) : Data K V :=
  if l.step.axis = none then
    match rows.head? with
    | some row => .values (l.out.make row)
    | none => .none
  else .rows (l.written endRel rows)

/-- What the collector yields for an entry. -/
def Entry.data (loaded : AnalysisStep K → Loaded K R V) : Entry K → Status × Data K V
  | unswept s => Vamos.Spectre.unswept endRel (loaded s)
  | leaf s idx => Vamos.Spectre.leaf endRel (loaded s) idx
  | parent .. => (.ok, .none)

variable {endRel} {l : Loaded K R V} {runs parts : List (List R)} {held : Nat → Prop}

theorem fill_eq (g : Nat) (status : Status) : fill endRel l g status =
    if status = .failed ∨ (l.step.axis = none ∧ l.rowSource g = []) then (.failed, .none)
    else (status, l.pointData endRel (l.rowSource g)) := by
  unfold fill Loaded.pointData
  by_cases hstatus : status = .failed
  · rw [if_pos hstatus, if_pos (.inl hstatus)]
  · rw [if_neg hstatus]
    by_cases haxis : l.step.axis = none
    · rw [if_pos haxis]
      cases hrows : l.rowSource g with
      | nil => rw [if_pos (.inr ⟨haxis, rfl⟩)]
      | cons row rows =>
        rw [if_neg (by simp [hstatus])]
        simp [haxis]
    · rw [if_neg haxis, if_neg (by simp [hstatus, haxis])]
      simp [haxis, Loaded.xyRows]

/-- An analysis without a sweep has the one point without indices. -/
theorem unswept_eq_leaf : unswept endRel l = leaf endRel l [] := by
  unfold unswept leaf
  have hindex : l.groupIndex [] = 0 := rfl
  rw [hindex]
  split
  · rename_i hnil
    have hfailed : l.groupStatus 0 = .failed := by
      unfold Loaded.groupStatus
      rw [hnil]
      simp
    rw [hfailed]
  · rfl

theorem Entry.data_of_point {s : AnalysisStep K} {e : Entry K} {idx : List Nat}
    (loaded : AnalysisStep K → Loaded K R V) (h : e.point? s = some idx) :
    e.data endRel loaded = Vamos.Spectre.leaf endRel (loaded s) idx := by
  cases e with
  | unswept t =>
    obtain ⟨rfl, hidx⟩ := Option.ite_none_right_eq_some.mp h
    cases hidx
    exact unswept_eq_leaf
  | leaf t jdx =>
    obtain ⟨rfl, hidx⟩ := Option.ite_none_right_eq_some.mp h
    cases hidx
    rfl
  | parent => cases h

variable (endRel l) in
/-- The result of point `g`, which has the rows `run` in a complete output. -/
structure PointResult (held : Nat → Prop) (g : Nat) (run : List R) (result : Status × Data K V) :
    Prop where
  failed : l.out.Fails g → result = (.failed, .none)
  whole : ¬l.out.Fails g → held g → result = (.ok, l.pointData endRel run) ∨
    (l.out.status = .interrupted ∧ ¬held (g + 1) ∧ result = (.interrupted, l.pointData endRel run))
  cut : ¬l.out.Fails g → ¬held g → result = (.failed, .none) ∨
    ((∀ h < g, held h) ∧ ∃ part, part <+: run ∧
      result = (if l.out.status = .interrupted then .interrupted else .ok, l.pointData endRel part))

theorem leaf_failed {idx : List Nat} (h : l.groupStatus (l.groupIndex idx) = .failed) :
    leaf endRel l idx = (.failed, .none) := by
  unfold leaf
  rw [fill_eq, if_pos (.inl h)]

/-- The last group that is there is the one that an interrupt cut. -/
theorem leaf_result (hparts : Parts l runs parts held) (hstatus : l.status = l.out.status)
    (hheld : ∀ g, held g → g < runs.length) (hop : l.step.axis = none → ∀ run ∈ runs, run ≠ [])
    {idx : List Nat} {run : List R} (hrun : runs[l.groupIndex idx]? = some run) :
    PointResult endRel l held (l.groupIndex idx) run (leaf endRel l idx) where
  failed h := leaf_failed (groupStatus_fails hstatus h)
  whole hfails h := by
    have hpart := (hparts.part_of_held _ h).trans hrun
    have hlt : l.groupIndex idx < parts.length := (List.getElem?_eq_some_iff.mp hpart).1
    have hrows := hparts.rows _ _ hpart
    have hgroup := groupStatus_eq hstatus hfails
    rw [hparts.groups, if_neg (not_le.mpr hlt)] at hgroup
    have hleaf : leaf endRel l idx = (l.groupStatus (l.groupIndex idx), l.pointData endRel run) := by
      unfold leaf
      rw [fill_eq, if_neg, hrows]
      rw [hrows, hgroup]
      rintro (h | ⟨haxis, hnil⟩)
      · split at h <;> cases h
      · exact hop haxis run (List.mem_of_getElem? hrun) hnil
    rw [hleaf, hgroup]
    by_cases hlast : l.out.status = .interrupted ∧ l.groupIndex idx + 1 = parts.length
    · right
      refine ⟨hlast.1, fun hnext => ?_, by rw [if_pos hlast]⟩
      have hget := hparts.part_of_held _ hnext
      rw [List.getElem?_eq_none hlast.2.ge, List.getElem?_eq_getElem (hheld _ hnext)] at hget
      cases hget
    · left
      rw [if_neg hlast]
  cut hfails h := by
    by_cases hlt : l.groupIndex idx < parts.length
    · -- the last of the pieces that are there
      have hlast : l.groupIndex idx + 1 = parts.length := by
        by_contra hne
        exact h (hparts.held_of_lt _ (by omega))
      obtain ⟨part, hpart⟩ : ∃ part, parts[l.groupIndex idx]? = some part :=
        ⟨_, List.getElem?_eq_getElem hlt⟩
      obtain ⟨whole, hwhole, hstart⟩ := hparts.cut.piece hpart
      cases hrun.symm.trans hwhole
      have hgroup := groupStatus_eq hstatus hfails
      rw [hparts.groups, if_neg (not_le.mpr hlt)] at hgroup
      have hrows := hparts.rows _ _ hpart
      unfold leaf
      rw [fill_eq, hrows]
      by_cases hnil : l.step.axis = none ∧ part = []
      · left
        rw [if_pos (.inr hnil)]
      · right
        refine ⟨fun k hk => hparts.held_of_lt k (by omega), part, hstart, ?_⟩
        rw [if_neg, hgroup]
        · simp only [hlast, and_true]
        · rintro (h | h)
          · rw [hgroup] at h
            split at h <;> cases h
          · exact hnil h
    · left
      apply leaf_failed
      rw [groupStatus_eq hstatus hfails, hparts.groups, if_pos (not_lt.mp hlt)]

end Leaves

/-! ## The results of a plan -/

section Held

variable {K R : Type} {engine : Engine} {s : AnalysisStep K} {runs : List (List R)}

/-- A complete output holds every point. -/
theorem held_of_complete {g : Nat} (hg : g < runs.length) :
    Held engine s runs (enginePlots engine s runs) g := by
  refine ⟨hg, ?_⟩
  have hstart : runs.take (g + 1) <+: runs := List.take_prefix _ _
  have hflat : (runs.take (g + 1)).flatten <+: runs.flatten := by
    obtain ⟨more, hmore⟩ := hstart
    exact ⟨more.flatten, by rw [← List.flatten_append, hmore]⟩
  cases engine with
  | vacask => exact hflat
  | xyce =>
    show enginePlots .xyce s (runs.take (g + 1)) <+: enginePlots .xyce s runs
    unfold enginePlots
    dsimp only
    split
    · exact hflat.map _
    · exact hstart

end Held

section Plan

variable {K R V : Type} [LinearOrder K] {engine : Engine} {s : AnalysisStep K} {o : Output K R V}
  {runs plots : List (List R)}

theorem exists_parts (hcomplete : Complete engine s o.x runs) (hcut : Cut (enginePlots engine s runs) plots)
    (hne : plots ≠ []) (hx : o.hasX = true) {l : Loaded K R V}
    (hl : l = ⟨engine, s, o, o.status, plots, groups engine s o o.status plots⟩) :
    ∃ parts, Parts l runs parts (Held engine s runs plots) := by
  cases engine with
  | vacask =>
    obtain ⟨rows, rfl, hrows⟩ := cut_singleton hcut hne
    exact parts_vacask hcomplete hrows hx hl
  | xyce =>
    cases hstepped : s.ownStepped .xyce with
    | true => exact parts_stepped hcomplete hstepped hcut hl
    | false =>
      have hplots : enginePlots .xyce s runs = runs := if_neg (by simp [hstepped])
      rw [hplots] at hcut
      exact ⟨plots, parts_xyce hcut hstepped hl⟩

theorem Complete.ne_nil (hcomplete : Complete engine s o.x runs)
    (h : engine = .vacask ∨ s.ownStepped engine ∨ s.axis = none) : ∀ run ∈ runs, run ≠ [] := by
  intro run hrun hnil
  by_cases htime : engine = .vacask ∧ s.kind = .tran
  · exact ((hcomplete.timed htime.1 htime.2).1 run hrun).1 hnil
  · have hcase : (engine = .vacask ∧ s.kind ≠ .tran) ∨ s.ownStepped engine ∨ s.axis = none := by
      rcases h with h | h
      · exact .inl ⟨h, fun hkind => htime ⟨h, hkind⟩⟩
      · exact .inr h
    obtain ⟨hpos, hcount⟩ := hcomplete.counted hcase
    have hlen := hcount run hrun
    rw [hnil] at hlen
    exact hpos.ne hlen

/-- Nothing is held of an output without a plot. -/
theorem not_held_nil (hcomplete : Complete engine s o.x runs) (g : Nat) : ¬Held engine s runs [] g := by
  intro ⟨hg, hwithin⟩
  obtain ⟨run, rest, rfl⟩ := List.exists_cons_of_length_pos (Nat.zero_lt_of_lt hg)
  have hfirst (hflat : ((run :: rest).take (g + 1)).flatten = []) : run = [] := by
    rw [List.take_succ_cons, List.flatten_cons, List.append_eq_nil_iff] at hflat
    exact hflat.1
  cases engine with
  | vacask => exact hcomplete.ne_nil (.inl rfl) run List.mem_cons_self (hfirst (List.prefix_nil.mp hwithin))
  | xyce =>
    have hnil : enginePlots .xyce s ((run :: rest).take (g + 1)) = [] := List.prefix_nil.mp hwithin
    unfold enginePlots at hnil
    dsimp only at hnil
    split at hnil
    · rename_i hstepped
      exact hcomplete.ne_nil (.inr (.inl hstepped)) run List.mem_cons_self
        (hfirst (List.map_eq_nil_iff.mp hnil))
    · cases hnil

theorem load_step : (load engine s o).step = s := by
  unfold load
  dsimp only
  split
  · rfl
  · split <;> rfl

theorem load_out : (load engine s o).out = o := by
  unfold load
  dsimp only
  split
  · rfl
  · split <;> rfl

theorem groupIndex_eq (idx : List Nat) :
    (load engine s o).groupIndex idx = RowMajor.rankFrom 0 s.counts idx := by
  unfold Loaded.groupIndex
  rw [load_step]
  rfl

variable [Zero K] [Sub K] [Neg K] [Mul K] (endRel : K)

theorem leaf_of_no_groups {l : Loaded K R V} (h : l.groups = []) (idx : List Nat) :
    leaf endRel l idx = (.failed, .none) := by
  apply leaf_failed
  unfold Loaded.groupStatus
  rw [h]
  simp

theorem load_result (hcomplete : Complete engine s o.x runs) (hplots : o.plots = some plots)
    (hcut : Cut (enginePlots engine s runs) plots) (hx : o.hasX = true) {idx : List Nat} {run : List R}
    (hrun : runs[(load engine s o).groupIndex idx]? = some run) :
    PointResult endRel (load engine s o) (Held engine s runs plots) ((load engine s o).groupIndex idx) run
      (leaf endRel (load engine s o) idx) := by
  by_cases hstatus : o.status = .failed ∧ o.failedPoint = none
  · have hl : load engine s o = ⟨engine, s, o, .failed, [], []⟩ := if_pos hstatus
    rw [hl]
    have hfails (g : Nat) : o.Fails g := .inr hstatus
    exact ⟨fun _ => leaf_of_no_groups endRel rfl idx, fun h => absurd (hfails _) h,
      fun h => absurd (hfails _) h⟩
  by_cases hne : plots = []
  · subst hne
    have hl : load engine s o = ⟨engine, s, o, .failed, [], []⟩ := by
      unfold load
      rw [hplots]
      exact if_neg hstatus
    rw [hl]
    exact ⟨fun _ => leaf_of_no_groups endRel rfl idx, fun _ h => absurd h (not_held_nil hcomplete _),
      fun _ _ => .inl (leaf_of_no_groups endRel rfl idx)⟩
  · have hl := @load_eq _ _ _ _ s _ _ engine hstatus hplots hne hx
    obtain ⟨parts, hparts⟩ := exists_parts hcomplete hcut hne hx hl
    apply leaf_result hparts (by rw [hl]) (fun g hg => hg.1) ?_ hrun
    intro haxis
    rw [hl] at haxis
    exact hcomplete.ne_nil (.inr (.inr haxis))

/-- Every point of every step has one result, point by point within its sweeps, with the rows of that point;
    of an output that is cut short, the points that it holds have theirs. -/
theorem collect_points {p : Deck K} (hsweeps : p.sweepNames.Nodup)
    (hnames : ((p.steps []).map AnalysisStep.name).Nodup) (legacy : Bool) (engine : Engine)
    (outputs : AnalysisStep K → Output K R V) :
    run legacy (p.steps []) = p.results legacy [] [] ∧
      ∀ s ∈ p.steps [], (run legacy (p.steps [])).filterMap (Entry.point? s) = RowMajor.indices s.counts ∧
        ∀ runs plots, Complete engine s (outputs s).x runs → (outputs s).plots = some plots →
          (outputs s).hasX → Cut (enginePlots engine s runs) plots →
          ∀ e ∈ run legacy (p.steps []), ∀ g idx rows, e.point? s = some idx →
            (RowMajor.indices s.counts)[g]? = some idx → runs[g]? = some rows →
            let l := load engine s (outputs s)
            let result := e.data endRel fun s => load engine s (outputs s)
            PointResult endRel l (Held engine s runs plots) g rows result ∧
              (plots = enginePlots engine s runs → (outputs s).status = .ok →
                (outputs s).failedPoint = none → result = (.ok, l.pointData endRel rows)) := by
  refine ⟨Deck.run_steps legacy hsweeps, ?_⟩
  intro s hs
  constructor
  · rw [Deck.run_steps legacy hsweeps, Deck.points_of_mem legacy hnames.of_map hs rfl]
    exact List.map_id _
  · intro runs plots hcomplete hplots hx hcut e _ g idx rows hpoint hidx hrows l result
    have hindex : l.groupIndex idx = g := by
      have hrank := RowMajor.getElem?_indices (List.mem_of_getElem? hidx)
      rw [groupIndex_eq]
      exact (List.getElem?_inj (List.getElem?_eq_some_iff.mp hrank).1 (RowMajor.nodup_indices _)).mp
        (hrank.trans hidx.symm)
    have hresult : result = leaf endRel l idx := Entry.data_of_point _ hpoint
    have hpr := load_result endRel hcomplete hplots hcut hx (by rwa [hindex])
    rw [hindex, ← hresult] at hpr
    refine ⟨hpr, ?_⟩
    intro hwhole hok hnone
    have hfails : ¬l.out.Fails g := by
      rw [load_out]
      rintro (⟨k, hk, _⟩ | ⟨hfailed, _⟩)
      · rw [hnone] at hk
        cases hk
      · rw [hok] at hfailed
        cases hfailed
    have hheld : Held engine s runs plots g := by
      rw [hwhole]
      exact held_of_complete (List.getElem?_eq_some_iff.mp hrows).1
    apply (hpr.whole hfails hheld).resolve_right
    intro ⟨hinterrupted, _⟩
    rw [load_out, hok] at hinterrupted
    cases hinterrupted

end Plan

/-! ## A sweep of two points -/

section Examples

def noArgs : Args Int := ⟨none, none, none, none, none, none, []⟩

def twoPoints : SweepLevel Int := ⟨Python.str "s", [10, 20]⟩

def opStep : AnalysisStep Int := ⟨"vamos_a1", Python.str "op1", .op, [twoPoints], none, noArgs⟩

def opDeck : Deck Int := .sweep twoPoints (.analysis opStep .done) .done

/-- Rows that hold one number, which is x and the value of the one trace. -/
def opOutput (status : Status) (rows : List Int) : Output Int Int Int := ⟨status, none, some [rows], true, id, id⟩

theorem opStep_complete : Complete .vacask opStep id [[7], [8]] where
  planned := rfl
  counted _ := ⟨by decide, by decide⟩
  timed _ h := nomatch h

theorem collect_points_op :
    (Entry.leaf opStep [1]).data 0 (fun s => load .vacask s (opOutput .ok [7, 8])) = (.ok, .values 8) := by
  have hall := @collect_points Int Int Int _ _ _ _ _ 0 opDeck (by decide) (by decide) false .vacask
    fun _ => opOutput .ok [7, 8]
  have hop := (hall.2 opStep (by decide)).2 [[7], [8]] [[7, 8]] opStep_complete rfl rfl
    (.last List.prefix_rfl [])
  exact (hop (.leaf opStep [1]) (by decide) 1 [1] [8] (by decide) (by decide) rfl).2 rfl rfl rfl

def tranStep (outputstart : Option Int) : AnalysisStep Int :=
  ⟨"vamos_a1", Python.str "tr1", .tran, [twoPoints], none, { noArgs with stop := some 2, outputstart := outputstart }⟩

/-- The results leave out the rows before `outputstart`; a point is interrupted when the run is interrupted
    right after it; and a point of a tran that the runner passed is ok without having all its rows. -/
theorem not_own_rows :
    (Complete .vacask (tranStep (some 1)) id [[0, 1, 2], [0, 1, 2]] ∧
        (leaf (0 : Int) (load .vacask (tranStep (some 1)) (opOutput .ok [0, 1, 2, 0, 1, 2])) [0]).2 ≠
          .rows ([0, 1, 2].map fun t => (t, t))) ∧
      (Held .vacask opStep [[7], [8]] [[7]] 0 ∧
        leaf (0 : Int) (load .vacask opStep (opOutput .interrupted [7])) [0] ≠
          leaf (0 : Int) (load .vacask opStep (opOutput .ok [7, 8])) [0]) ∧
      (¬Held .vacask (tranStep none) [[0, 1, 2], [0, 1, 2]] [[0, 1]] 0 ∧
        (leaf (0 : Int) (load .vacask (tranStep none) (opOutput .ok [0, 1])) [0]).1 = .ok) := by
  have hcomplete : Complete .vacask (tranStep (some 1)) id [[0, 1, 2], [0, 1, 2]] := by
    refine ⟨rfl, ?_, fun _ _ => ⟨by decide, by decide⟩⟩
    rintro (⟨_, h⟩ | h | h)
    · exact absurd rfl h
    · cases h
    · cases h
  refine ⟨⟨hcomplete, by decide⟩, ⟨⟨by decide, by decide⟩, by decide⟩, ?_, by decide⟩
  intro ⟨_, hwithin⟩
  exact absurd hwithin.length_le (by decide)

end Examples

end Vamos.Spectre
