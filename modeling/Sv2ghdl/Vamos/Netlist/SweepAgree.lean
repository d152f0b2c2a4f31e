import Sv2ghdl.Vamos.Netlist.SweepGrid
import Mathlib.Tactic

/-!
# One grid

The lists of points that the plan, the results and VACASK's writer compute from a sweep are the same, and VACASK
runs as many points as the list has wherever the writer leaves the grid to it.
-/

open Python

namespace Vamos.Netlist.Sweep

variable {K : Type}

/-! ## 1. What `grid` returns -/

theorem positiveCount_eq_some {count : Option Int} {n : Int} (h : positiveCount count = some n) : 1 ≤ n := by
  have := (Option.filter_eq_some_iff.mp h).2
  simpa using this

theorem countOr_of_pos {n m : Int} (h : 1 ≤ n) : countOr (some n) m = n := by
  have hn : n ≠ 0 := by omega
  simp [countOr, Option.filter, hn]

section Returned

variable [Field K] [LinearOrder K] [FloorRing K]

/-- A grid that `grid` may return, by its mode. -/
inductive Ready {K : Type} [Field K] [LinearOrder K] (g : Grid K) : Prop where
  | values (hmode : g.mode = .values ∨ g.mode = .log) (hvalues : g.values ≠ [])
  | lin {start stop : K} {n : Int} (hmode : g.mode = .lin) (hvalues : g.values = [])
      (hstart : g.start = some start) (hstop : g.stop = some stop) (hcount : g.count = some n) (hn : 1 ≤ n)
  | step {start stop step : K} (hmode : g.mode = .step) (hvalues : g.values = [])
      (hstart : g.start = some start) (hstop : g.stop = some stop) (hstep : g.step = some step) (h0 : step ≠ 0)
      (hdir : 0 ≤ (stop - start) * step)
  | dec {start stop : K} {n : Int} (hmode : g.mode = .dec) (hvalues : g.values = [])
      (hstart : g.start = some start) (hstop : g.stop = some stop) (hcount : g.count = some n) (hn : 1 ≤ n)
      (hpos : 0 < start) (hpos' : 0 < stop)

theorem ready_of_rangeGrid {A : Arith K} {spec : SweepSpec} {start stop : K} {step : Option K} {g : Grid K}
    (h : rangeGrid A spec start stop step = .ok g) : Ready g := by
  unfold rangeGrid at h
  cases hmode : spec.mode with
  | step =>
    rw [hmode] at h
    cases step with
    | none => cases h
    | some step =>
      dsimp only at h
      split_ifs at h with hdir
      cases h
      rw [not_or, not_lt] at hdir
      exact .step rfl rfl rfl rfl rfl hdir.1 hdir.2
  | lin =>
    rw [hmode] at h
    cases hcount : positiveCount spec.count with
    | none =>
      rw [hcount] at h
      cases h
    | some n =>
      rw [hcount] at h
      cases h
      exact .lin rfl rfl rfl rfl rfl (positiveCount_eq_some hcount)
  | dec | log =>
    rw [hmode] at h
    dsimp only at h
    by_cases hpos : start ≤ 0 ∨ stop ≤ 0
    · rw [if_pos hpos] at h
      cases h
    rw [if_neg hpos] at h
    rw [not_or, not_le, not_le] at hpos
    cases hcount : positiveCount spec.count with
    | none =>
      rw [hcount] at h
      cases h
    | some n =>
      rw [hcount] at h
      dsimp only at h
      split_ifs at h <;> cases h <;>
        first
        | exact .values (.inr rfl) (List.append_ne_nil_of_right_ne_nil _ (List.cons_ne_nil _ _))
        | exact .dec rfl rfl rfl rfl rfl (positiveCount_eq_some hcount) hpos.1 hpos.2
  | unset =>
    rw [hmode] at h
    dsimp only at h
    split_ifs at h
    · cases h
      exact .lin rfl rfl rfl rfl rfl (by decide)
    · cases h
      exact .values (.inr rfl) (List.append_ne_nil_of_right_ne_nil _ (List.cons_ne_nil _ _))
  | values | other =>
    rw [hmode] at h
    cases h

/-- A grid is returned for what its expressions evaluate to. -/
theorem grid_eq_some {A : Arith K} {num : Expr → Str → Except Str K} {spec : SweepSpec} {what : Str} {g : Grid K}
    (h : (grid A num spec what).2 = some g) : ∃ values,
      readValues num (what ++ str " values") spec.values = .ok values ∧
        evaluatedGrid A spec (readBound num spec.start (what ++ str " start")).2
          (readBound num spec.stop (what ++ str " stop")).2 (readBound num spec.step (what ++ str " step")).2 values =
            .ok g := by
  rw [grid] at h
  cases hvalues : readValues num (what ++ str " values") spec.values with
  | error fault =>
    rw [hvalues] at h
    cases h
  | ok values =>
    rw [hvalues] at h
    dsimp only at h
    refine ⟨values, rfl, ?_⟩
    split at h
    · cases h
    · next g' heq => exact heq.trans (congrArg Except.ok (Option.some.inj h))

/-- The values are kept, or the bounds are there and the mode makes the grid. -/
theorem evaluatedGrid_eq_ok {A : Arith K} {spec : SweepSpec} {start stop step : Option K} {values : List K}
    {g : Grid K} (h : evaluatedGrid A spec start stop step values = .ok g) :
    (values ≠ [] ∧ (spec.mode = .values ∨ spec.mode = .unset) ∧ g = spec.out start stop step .values values none) ∨
      ∃ a b, (if spec.start.isNone then some 0 else start) = some a ∧ stop = some b ∧
        (spec.mode = .unset → values = []) ∧ rangeGrid A spec a b step = .ok g := by
  unfold evaluatedGrid at h
  by_cases hmode : spec.mode = .values ∨ spec.mode = .unset ∧ values ≠ []
  · rw [if_pos hmode] at h
    split_ifs at h with hempty
    exact .inl ⟨hempty, hmode.imp_right And.left, (Except.ok.inj h).symm⟩
  · rw [if_neg hmode] at h
    refine .inr ?_
    cases hstart : (if spec.start.isNone then some 0 else start) with
    | none =>
      rw [hstart] at h
      cases h
    | some a =>
      cases stop with
      | none =>
        rw [hstart] at h
        cases h
      | some b =>
        rw [hstart] at h
        refine ⟨a, b, rfl, rfl, fun hunset => ?_, h⟩
        by_contra hvalues
        exact hmode (.inr ⟨hunset, hvalues⟩)

theorem ready_of_grid {A : Arith K} {num : Expr → Str → Except Str K} {spec : SweepSpec} {what : Str} {g : Grid K}
    (h : (grid A num spec what).2 = some g) : Ready g := by
  obtain ⟨values, -, h⟩ := grid_eq_some h
  rcases evaluatedGrid_eq_ok h with ⟨hvalues, -, rfl⟩ | ⟨a, b, -, -, -, h⟩
  · exact .values (.inl rfl) hvalues
  · exact ready_of_rangeGrid h

end Returned

/-! ## 2. Steps towards the end -/

section Steps

variable [Field K] [LinearOrder K] [IsStrictOrderedRing K]

theorem tolerance_pos : (0 : K) < tolerance := by
  unfold tolerance
  positivity

/-- A point is past the end when more steps than fit were taken. -/
theorem passes_iff {start stop step : K} (hstep : step ≠ 0) (k : Nat) :
    passes stop step (start + k * step) = true ↔ (stop - start) / step + tolerance < k := by
  rw [passes, Bool.or_eq_true, decide_eq_true_iff, decide_eq_true_iff]
  rcases hstep.lt_or_gt with hneg | hpos
  · have hsplit : (stop - start) / step + tolerance < k ↔ k * step < stop - start + tolerance * step := by
      rw [← mul_lt_mul_right_of_neg hneg, add_mul, div_mul_cancel₀ _ hstep]
    rw [hsplit, abs_of_neg hneg]
    constructor
    · rintro (⟨h, -⟩ | ⟨-, h⟩)
      · exact absurd h hneg.le.not_gt
      · linarith
    · intro h
      exact .inr ⟨hneg, by linarith⟩
  · have hsplit : (stop - start) / step + tolerance < k ↔ stop - start + tolerance * step < k * step := by
      rw [← mul_lt_mul_iff_left₀ hpos, add_mul, div_mul_cancel₀ _ hstep]
    rw [hsplit, abs_of_pos hpos]
    constructor
    · rintro (⟨-, h⟩ | ⟨h, -⟩)
      · linarith
      · exact absurd h hpos.le.not_gt
    · intro h
      exact .inl ⟨hpos, by linarith⟩

theorem steps_nonneg {start stop step : K} (hdir : 0 ≤ (stop - start) * step) : 0 ≤ (stop - start) / step := by
  rw [div_eq_mul_inv]
  rcases le_total 0 step with h | h
  · rcases h.eq_or_lt with rfl | h
    · simp
    · exact mul_nonneg (nonneg_of_mul_nonneg_left hdir h) (inv_nonneg.mpr h.le)
  · rcases h.eq_or_lt with rfl | h
    · simp
    · exact mul_nonneg_of_nonpos_of_nonpos (nonpos_of_mul_nonneg_left hdir h) (inv_nonpos.mpr h.le)

/-- A step number of intervals does not pass the end when as many fit. -/
theorem reaches_iff {start stop step : K} (hstep : step ≠ 0) (n : Int) :
    (if 0 < step then start + n * step ≤ stop else stop ≤ start + n * step) ↔ (n : K) ≤ (stop - start) / step := by
  rcases hstep.lt_or_gt with hneg | hpos
  · rw [if_neg hneg.le.not_gt, le_div_iff_of_neg hneg]
    constructor <;> intro h <;> linarith
  · rw [if_pos hpos, le_div_iff₀ hpos]
    constructor <;> intro h <;> linarith

end Steps

/-! ## 3. The loop over a step grid -/

section Loop

variable [Field K] [LinearOrder K] [FloorRing K]

/-- The number of steps up to the last point. -/
def lastStep (start stop step : K) : Int := ⌊(stop - start) / step + tolerance⌋

theorem planStepPoints_eq {start stop step : K} (hstep : step ≠ 0) (hdir : 0 ≤ (stop - start) * step) :
    planStepPoints start stop step = stepList start stop step :=
  if_neg (not_or.mpr ⟨hstep, hdir.not_gt⟩)

variable [IsStrictOrderedRing K]

theorem lastStep_nonneg {start stop step : K} (hdir : 0 ≤ (stop - start) * step) : 0 ≤ lastStep start stop step :=
  Int.floor_nonneg.mpr (add_nonneg (steps_nonneg hdir) tolerance_pos.le)

/-- From the point `k` on, the loop has the points up to the last. -/
theorem stepLoop_eq {start stop step : K} (hstep : step ≠ 0) {n fuel k : Nat}
    (hn : (n : Int) = lastStep start stop step + 1) (hk : k ≤ n) (hfuel : n < fuel + k) :
    stepLoop start stop step fuel k = some ((List.range' k (n - k)).map fun i : Nat => start + i * step) := by
  induction fuel generalizing k with
  | zero => omega
  | succ fuel ih =>
    have hlast : passes stop step (start + k * step) = true ↔ n ≤ k := by
      rw [passes_iff hstep, ← Int.cast_natCast, ← Int.floor_lt, ← lastStep]
      omega
    rw [stepLoop]
    by_cases hpast : n ≤ k
    · rw [if_pos (hlast.mpr hpast), Nat.sub_eq_zero_of_le hpast]
      rfl
    · rw [if_neg fun h => hpast (hlast.mp h), ih (by omega) (by omega), show n - k = n - (k + 1) + 1 by omega,
        List.range'_succ]
      rfl

/-- The loop ends with the points the other two copies compute. -/
theorem stepLoop_start {start stop step : K} (hstep : step ≠ 0) (hdir : 0 ≤ (stop - start) * step) {fuel : Nat}
    (hfuel : (lastStep start stop step + 1).toNat < fuel) :
    stepLoop start stop step fuel 0 = some (stepList start stop step) := by
  have hlast := lastStep_nonneg hdir
  rw [stepLoop_eq hstep (Int.toNat_of_nonneg (by omega)) (Nat.zero_le _) (by omega), Nat.sub_zero,
    ← List.range_eq_range', stepList, lastStep]

/-! ## 4. What VACASK runs -/

theorem vacaskStepCount_eq {start stop step : K} (hstep : step ≠ 0) (hdir : 0 ≤ (stop - start) * step) :
    vacaskStepCount start stop step = some (vacaskRuns start stop step) := by
  rw [vacaskStepCount, if_neg (not_or.mpr ⟨hstep, hdir.not_gt⟩), vacaskRuns]
  simp only [reaches_iff hstep]
  rcases (steps_nonneg hdir).eq_or_lt with h0 | hpos
  · -- At `start = stop` no interval is needed and the code counts one that passes the end.
    rw [← h0]
    norm_num
  · have hceil : 1 ≤ ⌈(stop - start) / step⌉ := Int.one_le_ceil_iff.mpr hpos
    rw [max_eq_left hceil]

/-! ## 5. The copies agree -/

/-- The points of a grid: what `grid_points` returns however long it may run. -/
def PointsOf (A : Arith K) (g : Grid K) (pts : List K) : Prop :=
  ∃ N, ∀ fuel, N ≤ fuel → gridPoints A fuel g = some (.ok pts)

omit [IsStrictOrderedRing K] in
theorem pointsOf_of_eq {A : Arith K} {g : Grid K} {pts : List K}
    (h : ∀ fuel, gridPoints A fuel g = some (.ok pts)) : PointsOf A g pts := ⟨0, fun fuel _ => h fuel⟩

theorem pointsOf_step {A : Arith K} {g : Grid K} {start stop step : K} (hmode : g.mode = .step)
    (hstart : g.start = some start) (hstop : g.stop = some stop) (hstep : g.step = some step) (h0 : step ≠ 0)
    (hdir : 0 ≤ (stop - start) * step) : PointsOf A g (stepList start stop step) := by
  refine ⟨(lastStep start stop step + 1).toNat + 1, fun fuel hfuel => ?_⟩
  simp [gridPoints, hmode, hstart, hstop, hstep, stepLoop_start h0 hdir (show _ < fuel by omega)]

omit [LinearOrder K] [FloorRing K] [IsStrictOrderedRing K] in
theorem lineValues_eq (start stop : K) (n : Int) : lineValues start stop n = linPoints start stop n := by
  rw [lineValues, linPoints]
  refine congrArg (· ++ [stop]) (List.map_congr_left fun k _ => ?_)
  rw [mul_comm (k : K)]

/-- The points of every returned sweep are those of the results and of VACASK's writer, and VACASK runs as many. -/
theorem grids_agree {A : Arith K} {num : Expr → Str → Except Str K} {spec : SweepSpec} {what : Str} {g : Grid K}
    (h : (grid A num spec what).2 = some g) :
    ∃ pts, PointsOf A g pts ∧ gridValues A g = .ok pts ∧
      (g.mode = .step → ∃ start stop step, g.start = some start ∧ g.stop = some stop ∧ g.step = some step ∧
        planStepPoints start stop step = pts ∧
          (stepValues g = .ok none → vacaskRuns start stop step = pts.length)) := by
  cases ready_of_grid h with
  | values hmode hvalues =>
    refine ⟨g.values, pointsOf_of_eq fun fuel => if_pos hmode, if_pos (.inr hvalues), fun hstep => ?_⟩
    rw [hstep] at hmode
    rcases hmode with hmode | hmode <;> cases hmode
  | @lin start stop n hmode hvalues hstart hstop hcount hn =>
    refine ⟨linPoints start stop n, pointsOf_of_eq fun fuel => ?_, ?_, fun hstep => ?_⟩
    · simp [gridPoints, hmode, hstart, hstop, hcount, countOr_of_pos hn]
    · have hlow : ¬ n < 1 := by omega
      simp [gridValues, hmode, hvalues, hstart, hstop, hcount, countOr_of_pos hn, hlow, lineValues_eq]
    · rw [hmode] at hstep
      cases hstep
  | @step start stop step hmode hvalues hstart hstop hstep h0 hdir =>
    refine ⟨stepList start stop step, pointsOf_step hmode hstart hstop hstep h0 hdir, ?_, fun _ => ?_⟩
    · simp [gridValues, hmode, hvalues, hstart, hstop, hstep, h0, hdir.not_gt]
    · refine ⟨start, stop, step, hstart, hstop, hstep, planStepPoints_eq h0 hdir, fun hnone => ?_⟩
      -- The writer leaves the grid to VACASK only when the counts are the same.
      rw [stepValues, if_neg (not_not.mpr hmode), hstart, hstop, hstep] at hnone
      dsimp only at hnone
      rw [vacaskStepCount_eq h0 hdir, planStepPoints_eq h0 hdir] at hnone
      dsimp only at hnone
      by_contra hne
      rw [if_neg hne] at hnone
      cases hnone
  | @dec start stop n hmode hvalues hstart hstop hcount hn hpos hpos' =>
    refine ⟨decPoints A start stop (decSpan A start stop n) n (roundHalfEven |decSpan A start stop n|),
      pointsOf_of_eq fun fuel => ?_, ?_, fun hstep => ?_⟩
    · simp [gridPoints, hmode, hstart, hstop, hcount, countOr_of_pos hn]
    · have hlow : ¬ n < 1 := by omega
      simp [gridValues, hmode, hvalues, hstart, hstop, hcount, countOr_of_pos hn, hlow, hpos.not_ge, hpos'.not_ge]
    · rw [hmode] at hstep
      cases hstep

end Loop

/-! ## 6. Tenths -/

/-- Rational arithmetic, exact at integer exponents and at powers of ten. -/
def rational : Arith ℚ where
  pow x y := x ^ ⌊y⌋
  log10 x := Nat.log 10 ⌊x⌋.toNat

/-- The parameters `first`, `last` and `delta`. -/
def tenthsNum (e : Expr) (what : Str) : Except Str ℚ :=
  match e with
  | .name n =>
    if n = str "first" then .ok 0 else if n = str "last" then .ok (3 / 10)
    else if n = str "delta" then .ok (1 / 10) else .error (what ++ str " does not evaluate")
  | _ => .error what

def tenthsSpec : SweepSpec :=
  ⟨str "dev", str "V1", str "dc", .step, some (.name (str "first")), some (.name (str "last")),
    some (.name (str "delta")), none, [], []⟩

def tenths : Grid ℚ := ⟨str "dev", str "V1", str "dc", .step, some 0, some (3 / 10), some (1 / 10), none, [], []⟩

theorem tenths_agree :
    ∃ pts, PointsOf rational tenths pts ∧ gridValues rational tenths = .ok pts ∧
      (tenths.mode = .step → ∃ start stop step, tenths.start = some start ∧ tenths.stop = some stop ∧
        tenths.step = some step ∧ planStepPoints start stop step = pts ∧
          (stepValues tenths = .ok none → vacaskRuns start stop step = pts.length)) := by
  have hgrid : (grid rational tenthsNum tenthsSpec (str "dc1")).2 = some tenths := by decide +kernel
  exact grids_agree hgrid

/-- VACASK runs all four points in exact arithmetic. -/
example : stepValues tenths = .ok none ∧ gridPoints rational 9 tenths = some (.ok [0, 1 / 10, 2 / 10, 3 / 10]) := by
  decide +kernel

end Vamos.Netlist.Sweep
