import Sv2ghdl.Vamos.Spectre.Points

/-!
# The rows of the points

A complete output has the rows of the points of a step one after the other, in row-major order of the sweeps
around it.  The collector cuts them apart again.
-/

namespace Vamos.Spectre

open RowMajor (Cut)

/-! ## Outputs -/

section Outputs

variable {K R : Type} [LinearOrder K]

/-- The number of rows of a point, other than in a tran. -/
def AnalysisStep.pointRows (s : AnalysisStep K) : Nat :=
  if s.axis = some .param ∨ s.axis = some .freq then s.ownValues.length else 1

/-- The times of each point increase, and those of the next point start again. -/
def Restarts (x : R → K) (runs : List (List R)) : Prop :=
  (∀ r ∈ runs, r ≠ [] ∧ r.Pairwise (x · < x ·)) ∧
    runs.IsChain fun r r' => ∀ a ∈ r.getLast?, ∀ b ∈ r'.head?, x b ≤ x a

/-- The rows of the points of a step when the engine ran all of them. -/
structure Complete (engine : Engine) (s : AnalysisStep K) (x : R → K) (runs : List (List R)) : Prop where
  planned : runs.length = s.planned
  counted : (engine = .vacask ∧ s.kind ≠ .tran) ∨ s.ownStepped engine ∨ s.axis = none →
    0 < s.pointRows ∧ ∀ r ∈ runs, r.length = s.pointRows
  timed : engine = .vacask → s.kind = .tran → Restarts x runs

/-- The plots that an engine writes: VACASK one, Xyce one for each .STEP point. -/
def enginePlots (engine : Engine) (s : AnalysisStep K) (runs : List (List R)) : List (List R) :=
  match engine with
  | .vacask => [runs.flatten]
  | .xyce => if s.ownStepped .xyce then runs.flatten.map fun row => [row] else runs

/-- Point `g` lies within the plots as a whole. -/
def Held (engine : Engine) (s : AnalysisStep K) (runs plots : List (List R)) (g : Nat) : Prop :=
  g < runs.length ∧
    match engine with
    | .vacask => (runs.take (g + 1)).flatten <+: plots.headD []
    | .xyce => enginePlots .xyce s (runs.take (g + 1)) <+: plots

end Outputs

/-! ## Times -/

section Times

variable {K R : Type} [LinearOrder K] {x : R → K}

theorem bounds_increasing {a : R} {as : List R} (h : (a :: as).Pairwise (x · < x ·)) (i : Nat)
    (rest : List R) : bounds x (some (x a)) i (as ++ rest) =
      bounds x (((a :: as).getLast?).map x) (i + as.length) rest := by
  induction as generalizing a i with
  | nil => rfl
  | cons b as ih =>
    obtain ⟨hfirst, htail⟩ := List.pairwise_cons.mp h
    have hlt : ¬x b ≤ x a := not_le.mpr (hfirst b List.mem_cons_self)
    rw [List.cons_append, bounds]
    rw [if_neg (by simpa using hlt), ih htail, List.getLast?_cons_cons, List.length_cons, Nat.add_comm as.length,
      Nat.add_assoc]

/-- The time axis restarts where a piece starts. -/
theorem bounds_flatten {pieces : List (List R)} (h : Restarts x pieces) {prev : Option K} (i : Nat)
    (hprev : ∀ piece ∈ pieces.head?, ∀ b ∈ piece.head?, ∀ p ∈ prev, x b ≤ p) :
    bounds x prev i pieces.flatten ++ [i + pieces.flatten.length] = RowMajor.starts i pieces := by
  induction pieces generalizing prev i with
  | nil => rfl
  | cons piece pieces ih =>
    obtain ⟨hhead, hchain⟩ := List.isChain_cons.mp h.2
    obtain ⟨hne, hincreasing⟩ := h.1 piece List.mem_cons_self
    obtain ⟨a, as, rfl⟩ := List.exists_cons_of_ne_nil hne
    have hnext : ∀ next ∈ pieces.head?, ∀ b ∈ next.head?, ∀ p ∈ ((a :: as).getLast?).map x, x b ≤ p := by
      intro next hnext b hb p hp
      obtain ⟨last, hlast, rfl⟩ := Option.map_eq_some_iff.mp hp
      exact hhead next hnext last hlast b hb
    have hrest := ih ⟨fun r hr => h.1 r (List.mem_cons_of_mem _ hr), hchain⟩ (i + (a :: as).length) hnext
    have hstart : prev.all (fun p => x a ≤ p) = true := by
      cases prev with
      | none => rfl
      | some p => exact decide_eq_true (hprev _ rfl a rfl p rfl)
    rw [List.flatten_cons, List.cons_append, bounds, if_pos hstart, bounds_increasing hincreasing]
    unfold RowMajor.starts
    rw [← hrest, List.length_cons, List.length_append, List.length_cons, List.cons_append]
    congr 3 <;> omega

/-- The times of pieces that are cut short restart where those of the whole pieces do. -/
theorem Restarts.cut {full pieces : List (List R)} (h : Restarts x full) (hcut : Cut full pieces)
    (hne : ∀ piece ∈ pieces, piece ≠ []) : Restarts x pieces := by
  constructor
  · intro piece hpiece
    obtain ⟨g, hg⟩ := List.mem_iff_getElem?.mp hpiece
    obtain ⟨whole, hwhole, hstart⟩ := hcut.piece hg
    exact ⟨hne piece hpiece, (h.1 whole (List.mem_of_getElem? hwhole)).2.sublist hstart.sublist⟩
  · have hchain := h.2
    clear h
    induction hcut with
    | nil full => exact List.isChain_nil
    | last _ _ => exact List.isChain_singleton _
    | @cons whole rest pieces hrest ih =>
      obtain ⟨hhead, hchain⟩ := List.isChain_cons.mp hchain
      refine List.isChain_cons.mpr ⟨?_, ih (fun p hp => hne p (List.mem_cons_of_mem _ hp)) hchain⟩
      intro piece hpiece a ha b hb
      have hget : pieces[0]? = some piece := by rwa [← List.head?_eq_getElem?]
      obtain ⟨next, hnext, more, rfl⟩ := hrest.piece hget
      rw [← List.head?_eq_getElem?] at hnext
      exact hhead _ hnext a ha b (List.mem_head?_append_of_mem_head? hb)

end Times

/-! ## The groups are the points -/

theorem axis_time {K : Type} {s : AnalysisStep K} (h : s.kind = .tran) : s.axis = some .time := if_pos h

theorem axis_of_not_tran {K : Type} {s : AnalysisStep K} (h : s.kind ≠ .tran) : s.axis ≠ some .time := by
  unfold AnalysisStep.axis
  rw [if_neg h]
  split
  · split <;> exact fun h => nomatch h
  · exact fun h => nomatch h

section Parts

variable {K R V : Type} {runs : List (List R)}

/-- What a step has of the rows of its points: whole pieces, of which the last may be cut. -/
structure Parts (l : Loaded K R V) (runs parts : List (List R)) (held : Nat → Prop) : Prop where
  cut : Cut runs parts
  groups : l.groups.length = parts.length
  rows : ∀ g part, parts[g]? = some part → l.rowSource g = part
  held_of_lt : ∀ g, g + 1 < parts.length → held g
  part_of_held : ∀ g, held g → parts[g]? = runs[g]?

/-- The rows between two places of the one plot. -/
theorem rowSource_span {l : Loaded K R V} {rows : List R} {g a b : Nat} (hplots : l.plots.getD 0 [] = rows)
    (hstepped : l.step.ownStepped l.engine = false) (hg : l.groups[g]? = some ⟨0, a, some b⟩) :
    l.rowSource g = (rows.drop a).take (b - a) := by
  unfold Loaded.rowSource
  rw [hg]
  dsimp only
  rw [hstepped, hplots]
  rfl

/-- A whole run that lies within the rows, when the rows are cut out of the runs. -/
theorem flatten_take_prefix {rows : List R} (hrows : rows <+: runs.flatten) {n : Nat}
    (h : (runs.take n).flatten.length ≤ rows.length) : (runs.take n).flatten <+: rows := by
  apply List.prefix_of_prefix_length_le _ hrows h
  conv_rhs => rw [← List.take_append_drop n runs, List.flatten_append]
  exact List.prefix_append _ _

/-- A tran on VACASK: the groups start where the time does. -/
theorem parts_time [LinearOrder K] {l : Loaded K R V} {rows : List R} {x : R → K} (htimed : Restarts x runs)
    (hrows : rows <+: runs.flatten) (hplots : l.plots.getD 0 [] = rows)
    (hstepped : l.step.ownStepped l.engine = false)
    (hgroups : ∀ pieces, Restarts x pieces → pieces.flatten = rows → pieces.length ≤ runs.length →
      l.groups = (RowMajor.spans 0 pieces).map fun p => ⟨0, p.1, some p.2⟩) :
    ∃ parts, Parts l runs parts fun g =>
      g < runs.length ∧ (runs.take (g + 1)).flatten <+: rows := by
  have hne (r) (hr : r ∈ runs) : r ≠ [] := (htimed.1 r hr).1
  obtain ⟨parts, hcut, hflat, hparts⟩ := RowMajor.exists_cut hrows hne
  have hspans := hgroups parts (htimed.cut hcut hparts) hflat hcut.length_le
  refine ⟨parts, hcut, ?_, ?_, ?_, ?_⟩
  · rw [hspans, List.length_map, RowMajor.length_spans]
  · intro g part hpart
    have hslice := @RowMajor.slice_spans R parts rows 0 hflat.symm
    have hget := congrArg (·[g]?) hslice
    rw [List.getElem?_map, hpart] at hget
    obtain ⟨span, hspan, hspan'⟩ := Option.map_eq_some_iff.mp hget
    rw [rowSource_span hplots hstepped (by rw [hspans, List.getElem?_map, hspan]; rfl), hspan']
  · intro g hg
    refine ⟨hg.le.trans hcut.length_le, ?_⟩
    rw [← hcut.take_eq hg, ← hflat]
    conv_rhs => rw [← List.take_append_drop (g + 1) parts, List.flatten_append]
    exact List.prefix_append _ _
  · intro g ⟨hg, hwithin⟩
    rw [← hflat] at hwithin
    exact hcut.piece_of_prefix hne hg hwithin

/-- Pieces of one length: the groups are those that the rows fill, and maybe one that they do not. -/
theorem parts_window {l : Loaded K R V} {m n : Nat} {rows : List R} (hm : 0 < m)
    (hruns : ∀ r ∈ runs, r.length = m) (hrows : rows <+: runs.flatten) (hgroups : l.groups.length = n)
    (hn : n ≤ runs.length) (hlast : ∀ g, g + 1 < n → (g + 1) * m ≤ rows.length)
    (hfull : ∀ g, (g + 1) * m ≤ rows.length → g < n)
    (hsource : ∀ g, g < n → l.rowSource g = (rows.drop (g * m)).take m) :
    ∃ parts, Parts l runs parts fun g =>
      g < runs.length ∧ (runs.take (g + 1)).flatten <+: rows := by
  have htake (g : Nat) (hg : g < runs.length) : (runs.take (g + 1)).flatten.length = (g + 1) * m := by
    rw [RowMajor.length_flatten fun r hr => hruns r (List.mem_of_mem_take hr), List.length_take,
      Nat.min_eq_left hg]
  refine ⟨_, RowMajor.cut_window hruns hn hlast, ?_, ?_, ?_, ?_⟩
  · rw [hgroups, List.length_map, List.length_range]
  · intro g part hpart
    have hg : g < n := by
      have := (List.getElem?_eq_some_iff.mp hpart).1
      rwa [List.length_map, List.length_range] at this
    have hrun : runs[g]? = some (runs.getD g []) := by
      rw [List.getD_eq_getElem?_getD, List.getElem?_eq_getElem (hg.trans_le hn)]
      rfl
    rw [List.getElem?_map, List.getElem?_range hg] at hpart
    rw [hsource g hg, RowMajor.slice_take hruns hrows hrun]
    exact Option.some.inj hpart
  · intro g hg
    rw [List.length_map, List.length_range] at hg
    have hlt : g < runs.length := (Nat.lt_of_succ_lt hg).trans_le hn
    exact ⟨hlt, flatten_take_prefix hrows ((htake g hlt).trans_le (hlast g hg))⟩
  · intro g ⟨hg, hwithin⟩
    have hle : (g + 1) * m ≤ rows.length := (htake g hg).symm.trans_le hwithin.length_le
    rw [List.getElem?_map, List.getElem?_range (hfull g hle), List.getElem?_eq_getElem hg]
    show some (List.take _ (runs.getD g [])) = _
    rw [List.getD_eq_getElem?_getD, List.getElem?_eq_getElem hg, Option.getD_some, List.take_of_length_le]
    rw [hruns _ (List.getElem_mem hg)]
    rw [Nat.succ_mul] at hle
    omega

/-- An analysis without a sweep around it has the one plot as its rows. -/
theorem parts_unswept {l : Loaded K R V} {rows run : List R} (hrows : rows <+: run)
    (hplots : l.plots.getD 0 [] = rows) (hstepped : l.step.ownStepped l.engine = false)
    (hgroups : l.groups = [⟨0, 0, none⟩]) :
    Parts l [run] [rows] fun g => g < 1 ∧ ([run].take (g + 1)).flatten <+: rows where
  cut := .last hrows []
  groups := congrArg List.length hgroups
  rows g part hpart := by
    cases g with
    | zero =>
      unfold Loaded.rowSource
      rw [hgroups, ← Option.some.inj hpart]
      dsimp only [List.getElem?_cons_zero]
      rw [hstepped, hplots]
      rfl
    | succ g => cases hpart
  held_of_lt g hg := absurd hg (by simp)
  part_of_held g hg := by
    obtain rfl : g = 0 := by omega
    have hrun : run <+: rows := by simpa using hg.2
    rw [hrows.eq_of_length_le hrun.length_le]

end Parts

section Engines

variable {K R V : Type} [LinearOrder K] {s : AnalysisStep K} {o : Output K R V}
  {runs plots : List (List R)}

theorem load_eq {engine : Engine} (hstatus : ¬(o.status = .failed ∧ o.failedPoint = none))
    (hplots : o.plots = some plots) (hne : plots ≠ []) (hx : o.hasX = true) :
    load engine s o = ⟨engine, s, o, o.status, plots, groups engine s o o.status plots⟩ := by
  unfold load
  dsimp only
  rw [if_neg hstatus, hplots]
  cases plots with
  | nil => exact absurd rfl hne
  | cons plot plots =>
    dsimp only
    rw [if_neg (by simp [hx])]

theorem plotGroups_time (hkind : s.kind = .tran) (hx : o.hasX = true) (status : Status)
    {pieces : List (List R)} (h : Restarts o.x pieces) : plotGroups s o status pieces.flatten =
      (RowMajor.spans 0 pieces).map fun p => ⟨0, p.1, some p.2⟩ := by
  unfold plotGroups
  dsimp only
  have hbounds := @bounds_flatten _ _ _ _ _ h none 0 fun _ _ _ _ _ hp => nomatch hp
  rw [if_pos ⟨axis_time hkind, hx⟩, ← RowMajor.zip_starts, ← hbounds, Nat.zero_add]

/-- The groups of one length, and the rest of the rows of an interrupted run. -/
theorem plotGroups_count (hkind : s.kind ≠ .tran) (hpos : 0 < s.pointRows) (status : Status)
    (rows : List R) : plotGroups s o status rows =
      (List.range (rows.length / s.pointRows)).map
          (fun g => ⟨0, g * s.pointRows, some ((g + 1) * s.pointRows)⟩) ++
        if rows.length % s.pointRows ≠ 0 ∧ status = .interrupted then
          [⟨0, rows.length / s.pointRows * s.pointRows, some rows.length⟩]
        else [] := by
  unfold plotGroups
  dsimp only
  rw [if_neg fun h => axis_of_not_tran hkind h.1]
  have hsize : max (if s.axis = some .param ∨ s.axis = some .freq then s.ownValues.length else 1) 1 =
      s.pointRows := Nat.max_eq_left hpos
  rw [hsize]

theorem cut_singleton {α : Type} {whole : List α} {pieces : List (List α)} (h : Cut [whole] pieces)
    (hne : pieces ≠ []) : ∃ piece, pieces = [piece] ∧ piece <+: whole := by
  cases h with
  | nil => exact absurd rfl hne
  | last h => exact ⟨_, rfl, h⟩
  | cons _ h =>
    cases h
    exact ⟨whole, rfl, List.prefix_rfl⟩

/-- The groups of one length, those that were not planned left out. -/
theorem parts_count {l : Loaded K R V} {rows : List R} (hkind : s.kind ≠ .tran) (hpos : 0 < s.pointRows)
    (hruns : ∀ r ∈ runs, r.length = s.pointRows) (hplanned : runs.length = s.planned)
    (hrows : rows <+: runs.flatten) (hplots : l.plots.getD 0 [] = rows)
    (hstepped : l.step.ownStepped l.engine = false) {status : Status}
    (hgroups : l.groups = (plotGroups s o status rows).take s.planned) :
    ∃ parts, Parts l runs parts fun g => g < runs.length ∧ (runs.take (g + 1)).flatten <+: rows := by
  have hle (g : Nat) : g + 1 ≤ rows.length / s.pointRows ↔ (g + 1) * s.pointRows ≤ rows.length :=
    Nat.le_div_iff_mul_le hpos
  have hlen : rows.length ≤ runs.length * s.pointRows := by
    rw [← RowMajor.length_flatten hruns]
    exact hrows.length_le
  have hfull : rows.length / s.pointRows ≤ runs.length := Nat.div_le_of_le_mul (by rwa [Nat.mul_comm])
  have hspan {g : Nat} (hg : g < rows.length / s.pointRows) (rest : List Group)
      (hgroups : l.groups = (List.range (rows.length / s.pointRows)).map
        (fun g => ⟨0, g * s.pointRows, some ((g + 1) * s.pointRows)⟩) ++ rest) :
      l.rowSource g = (rows.drop (g * s.pointRows)).take s.pointRows := by
    have hget : l.groups[g]? = some ⟨0, g * s.pointRows, some ((g + 1) * s.pointRows)⟩ := by
      rw [hgroups, List.getElem?_append_left (by simpa using hg), List.getElem?_map, List.getElem?_range hg]
      rfl
    rw [rowSource_span hplots hstepped hget, Nat.succ_mul, Nat.add_sub_cancel_left]
  rw [plotGroups_count hkind hpos] at hgroups
  by_cases hrest : rows.length % s.pointRows ≠ 0 ∧ status = .interrupted
  · -- the rest of the rows is a group too
    have hlt : rows.length / s.pointRows < runs.length := by
      apply Nat.div_lt_of_lt_mul
      apply lt_of_le_of_ne (by rwa [Nat.mul_comm])
      intro heq
      exact hrest.1 (by rw [heq, Nat.mul_mod_right])
    rw [if_pos hrest, List.take_of_length_le (by simpa [← hplanned] using hlt)] at hgroups
    apply parts_window hpos hruns hrows (n := rows.length / s.pointRows + 1)
    · rw [hgroups]
      simp
    · exact hlt
    · exact fun g hg => (hle g).mp (Nat.le_of_lt_succ hg)
    · exact fun g hg => ((hle g).mpr hg).trans (Nat.le_succ _)
    · intro g hg
      rcases Nat.lt_succ_iff_lt_or_eq.mp hg with hg | rfl
      · exact hspan hg _ hgroups
      · have hget : l.groups[rows.length / s.pointRows]? =
            some ⟨0, rows.length / s.pointRows * s.pointRows, some rows.length⟩ := by
          rw [hgroups, List.getElem?_append_right (by simp)]
          simp
        have hmod := Nat.div_add_mod' rows.length s.pointRows
        have hmod' := Nat.mod_lt rows.length hpos
        rw [rowSource_span hplots hstepped hget, List.take_of_length_le (by rw [List.length_drop]),
          List.take_of_length_le]
        rw [List.length_drop]
        omega
  · rw [if_neg hrest, List.append_nil, List.take_of_length_le (by simpa [← hplanned] using hfull)] at hgroups
    apply parts_window hpos hruns hrows (n := rows.length / s.pointRows)
    · rw [hgroups]
      simp
    · exact hfull
    · exact fun g hg => (hle g).mp hg.le
    · exact fun g hg => (hle g).mpr hg
    · exact fun g hg => hspan hg [] (by rw [hgroups, List.append_nil])

theorem parts_vacask (hcomplete : Complete .vacask s o.x runs) {rows : List R}
    (hrows : rows <+: runs.flatten) (hx : o.hasX = true) {l : Loaded K R V}
    (hl : l = ⟨.vacask, s, o, o.status, [rows], groups .vacask s o o.status [rows]⟩) :
    ∃ parts, Parts l runs parts (Held .vacask s runs [rows]) := by
  have hplots : l.plots.getD 0 [] = rows := by rw [hl]; rfl
  have hstepped : l.step.ownStepped l.engine = false := by rw [hl]; rfl
  by_cases hcontext : s.context = []
  · have hlen : runs.length = 1 := by
      rw [hcomplete.planned]
      unfold AnalysisStep.planned AnalysisStep.counts
      rw [hcontext]
      rfl
    obtain ⟨run, rfl⟩ := List.length_eq_one_iff.mp hlen
    refine ⟨[rows], parts_unswept (by simpa using hrows) hplots hstepped ?_⟩
    rw [hl]
    exact if_pos hcontext
  have hgroups : l.groups = (plotGroups s o o.status rows).take s.planned := by
    rw [hl]
    exact if_neg hcontext
  by_cases hkind : s.kind = .tran
  · apply parts_time (hcomplete.timed rfl hkind) hrows hplots hstepped
    intro pieces hpieces hflat hlen
    rw [hgroups, ← hflat, plotGroups_time hkind hx o.status hpieces, List.take_of_length_le]
    rw [List.length_map, RowMajor.length_spans, ← hcomplete.planned]
    exact hlen
  · obtain ⟨hpos, hruns⟩ := hcomplete.counted (.inl ⟨rfl, hkind⟩)
    exact parts_count hkind hpos hruns hcomplete.planned hrows hplots hstepped hgroups

/-- The plots of Xyce are the points. -/
theorem parts_xyce (hplots : Cut runs plots) {l : Loaded K R V}
    (hstepped : s.ownStepped .xyce = false)
    (hl : l = ⟨.xyce, s, o, o.status, plots, groups .xyce s o o.status plots⟩) :
    Parts l runs plots (Held .xyce s runs plots) := by
  have hgroups : l.groups = (List.range plots.length).map fun g => ⟨g, 0, none⟩ := by
    rw [hl]
    show groups .xyce s o o.status plots = _
    unfold groups
    simp [hstepped]
  have hwhole (g : Nat) : Held .xyce s runs plots g ↔ g < runs.length ∧ runs.take (g + 1) <+: plots := by
    unfold Held enginePlots
    simp [hstepped]
  refine ⟨hplots, ?_, ?_, ?_, ?_⟩
  · rw [hgroups, List.length_map, List.length_range]
  · intro g part hpart
    have hg := (List.getElem?_eq_some_iff.mp hpart).1
    unfold Loaded.rowSource
    rw [hgroups, List.getElem?_map, List.getElem?_range hg, hl]
    simp [hstepped, hpart]
  · intro g hg
    rw [hwhole, ← hplots.take_eq hg]
    exact ⟨hg.le.trans hplots.length_le, List.take_prefix _ _⟩
  · intro g hheld
    obtain ⟨hg, more, hmore⟩ := (hwhole g).mp hheld
    rw [← hmore, List.getElem?_append_left (by rw [List.length_take]; omega), List.getElem?_take_of_lt]
    exact Nat.lt_succ_self g

/-- Plots of one row each, of which the last may be empty. -/
theorem exists_singles {rows : List R} (h : Cut (rows.map fun row => [row]) plots) :
    ∃ first rest, plots = first.map (fun row => [row]) ++ rest ∧ first <+: rows ∧
      (rest = [] ∨ rest = [[]]) := by
  induction rows generalizing plots with
  | nil =>
    cases h
    exact ⟨[], [], rfl, List.prefix_rfl, .inl rfl⟩
  | cons row rows ih =>
    cases h with
    | nil => exact ⟨[], [], rfl, List.nil_prefix, .inl rfl⟩
    | @last piece _ hpiece _ =>
      cases piece with
      | nil => exact ⟨[], [[]], rfl, List.nil_prefix, .inr rfl⟩
      | cons a piece =>
        obtain ⟨rfl, hnil⟩ := List.cons_prefix_cons.mp hpiece
        obtain rfl := List.prefix_nil.mp hnil
        exact ⟨[a], [], rfl, List.cons_prefix_cons.mpr ⟨rfl, List.nil_prefix⟩, .inl rfl⟩
    | cons _ h =>
      obtain ⟨first, rest, rfl, hfirst, hrest⟩ := ih h
      exact ⟨row :: first, rest, rfl, List.cons_prefix_cons.mpr ⟨rfl, hfirst⟩, hrest⟩

theorem flatten_singles (rows : List R) : (rows.map fun row => [row]).flatten = rows := by
  induction rows with
  | nil => rfl
  | cons row rows ih => exact congrArg (row :: ·) ih

theorem firstRow_eq (first : List R) {rest : List (List R)} (hrest : rest = [] ∨ rest = [[]]) (k : Nat) :
    ((first.map (fun row => [row]) ++ rest).getD k []).take 1 = first[k]?.toList := by
  rw [List.getD_eq_getElem?_getD]
  by_cases hk : k < first.length
  · rw [List.getElem?_append_left (by simpa using hk), List.getElem?_map, List.getElem?_eq_getElem hk]
    rfl
  · rw [List.getElem?_append_right (by simpa using hk), List.getElem?_eq_none (not_lt.mp hk)]
    rcases hrest with rfl | rfl
    · rfl
    · cases k - (first.map fun row => [row]).length <;> rfl

theorem firstRows_eq (first : List R) {rest : List (List R)} (hrest : rest = [] ∨ rest = [[]]) (a m : Nat) :
    ((List.range m).flatMap fun j =>
      ((first.map (fun row => [row]) ++ rest).getD (a + j) []).take 1) = (first.drop a).take m := by
  induction m with
  | zero => rfl
  | succ m ih =>
    rw [List.range_succ, List.flatMap_append, ih, List.flatMap_singleton, firstRow_eq first hrest,
      List.take_add_one, List.getElem?_drop]

/-- A .STEP over the own parameter too: the first rows of the plots, cut into points. -/
theorem parts_stepped (hcomplete : Complete .xyce s o.x runs) (hstepped : s.ownStepped .xyce = true)
    (hplots : Cut (enginePlots .xyce s runs) plots) {l : Loaded K R V}
    (hl : l = ⟨.xyce, s, o, o.status, plots, groups .xyce s o o.status plots⟩) :
    ∃ parts, Parts l runs parts (Held .xyce s runs plots) := by
  obtain ⟨hpos, hruns⟩ := hcomplete.counted (.inr (.inl hstepped))
  have hown : s.pointRows = s.ownValues.length := by
    unfold AnalysisStep.ownStepped at hstepped
    unfold AnalysisStep.pointRows
    rw [if_pos (.inl (by simp at hstepped; exact hstepped.1))]
  rw [hown] at hpos hruns
  have hengine (rs : List (List R)) : enginePlots .xyce s rs = rs.flatten.map fun row => [row] := if_pos hstepped
  obtain ⟨first, rest, hfirst, hstart, hrest⟩ := exists_singles (hengine runs ▸ hplots)
  have hlen : plots.length = first.length + rest.length := by rw [hfirst]; simp
  have hrest' : rest.length ≤ 1 := by rcases hrest with rfl | rfl <;> simp
  have hheld : Held .xyce s runs plots = fun g => g < runs.length ∧ (runs.take (g + 1)).flatten <+: first := by
    funext g
    unfold Held
    dsimp only
    rw [hengine]
    congr 1
    apply propext
    constructor
    · intro h
      obtain ⟨more, hmore⟩ := h
      have hflat := congrArg List.flatten hmore
      rw [hfirst, List.flatten_append, List.flatten_append, flatten_singles, flatten_singles,
        show rest.flatten = [] by rcases hrest with rfl | rfl <;> rfl, List.append_nil] at hflat
      exact ⟨_, hflat⟩
    · intro h
      rw [hfirst]
      exact (h.map fun row => [row]).trans (List.prefix_append _ _)
  have hgroups : l.groups = (List.range (plots.length / s.ownValues.length)).map fun g => ⟨g, 0, none⟩ := by
    rw [hl]
    show groups .xyce s o o.status plots = _
    unfold groups
    simp [hstepped, hpos.ne']
  rw [hheld]
  have hle (g : Nat) : g + 1 ≤ plots.length / s.ownValues.length ↔
      (g + 1) * s.ownValues.length ≤ plots.length := Nat.le_div_iff_mul_le hpos
  apply parts_window hpos hruns hstart (n := plots.length / s.ownValues.length)
  · rw [hgroups, List.length_map, List.length_range]
  · apply Nat.div_le_of_le_mul
    rw [Nat.mul_comm, ← RowMajor.length_flatten hruns]
    have := hplots.length_le
    rwa [hengine, List.length_map] at this
  · intro g hg
    have := (hle (g + 1)).mp hg
    rw [Nat.succ_mul] at this
    omega
  · intro g hg
    exact (hle g).mpr (by omega)
  · intro g hg
    unfold Loaded.rowSource
    rw [hgroups, List.getElem?_map, List.getElem?_range hg, hl]
    dsimp only [Option.map_some]
    rw [if_pos hstepped, hfirst]
    exact firstRows_eq first hrest _ _

end Engines

end Vamos.Spectre
