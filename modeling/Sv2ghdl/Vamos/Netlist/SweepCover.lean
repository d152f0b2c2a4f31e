import Sv2ghdl.Vamos.Netlist.SweepAgree
import Mathlib.Analysis.SpecialFunctions.Log.Base

/-!
# The range of a grid

Over the reals the points of a sweep go from its start to its stop in steps of one direction, except that a `dec`
sweep over less than one interval has its stop only.
-/

open Python

namespace Vamos.Netlist.Sweep

/-! ## 1. Coverage -/

/-- The real functions. -/
noncomputable def exact : Arith ℝ where
  pow x y := x ^ y
  log10 x := Real.logb 10 x

/-- The points go strictly from `start` towards `stop`. -/
def Towards (start stop : ℝ) (pts : List ℝ) : Prop :=
  (start < stop → pts.Pairwise (· < ·)) ∧ (stop < start → pts.Pairwise (· > ·))

/-- No point lies before `start` or more than `slack` after `stop`. -/
def Within (start stop slack : ℝ) (pts : List ℝ) : Prop :=
  ∀ p ∈ pts, (start ≤ stop → start ≤ p ∧ p ≤ stop + slack) ∧ (stop ≤ start → stop - slack ≤ p ∧ p ≤ start)

/-- The points of a decade that begins at `x`. -/
noncomputable def decade (pts : List ℝ) (x : ℝ) : List ℝ := pts.filter fun p => decide (x ≤ p ∧ p < 10 * x)

/-- The number of points, by the mode that the sweep is written with. -/
def Counted (spec : SweepSpec) (start stop : ℝ) (pts : List ℝ) : Prop :=
  match spec.mode with
  | .lin | .log => ∃ n, spec.count = some n ∧ (pts.length : Int) = n + 1
  | .unset => (pts.length : Int) = defaultGridCount + 1
  | .dec => ∃ n, spec.count = some n ∧ (pts.length : Int) ≤ ⌈|decSpan exact start stop n|⌉ + 1 ∧
      ∀ x, ((decade pts.dropLast x).length : Int) ≤ n
  | _ => True

/-- The points cover the range of the sweep. -/
structure Covers (spec : SweepSpec) (start stop : ℝ) (step : Option ℝ) (pts : List ℝ) : Prop where
  first : pts.head? = some start
  towards : Towards start stop pts
  within : if spec.mode = .step then ∃ h, step = some h ∧ Within start stop (tolerance * |h|) pts
    else Within start stop 0 pts
  last : if spec.mode = .step then ∃ h p, step = some h ∧ pts.getLast? = some p ∧ |stop - p| < |h|
    else pts.getLast? = some stop
  counted : Counted spec start stop pts

/-! ## 2. Points of one direction -/

/-- The values of `f` before `n` go from `start` strictly towards `stop`. -/
structure Climbs (f : ℕ → ℝ) (n : ℕ) (start stop : ℝ) : Prop where
  zero : f 0 = start
  rises : start < stop → StrictMono f ∧ ∀ k < n, f k < stop
  falls : stop < start → StrictAnti f ∧ ∀ k < n, stop < f k
  still : start = stop → ∀ k < n, f k = start

/-- The values of `f` and then the end. -/
abbrev listed (f : ℕ → ℝ) (n : ℕ) (stop : ℝ) : List ℝ := (List.range n).map f ++ [stop]

theorem listed_pairwise {R : ℝ → ℝ → Prop} {f : ℕ → ℝ} {n : ℕ} {stop : ℝ} (hstep : ∀ i j, i < j → R (f i) (f j))
    (hstop : ∀ k < n, R (f k) stop) : (listed f n stop).Pairwise R := by
  rw [List.pairwise_append]
  refine ⟨List.pairwise_map.mpr (List.pairwise_lt_range.imp fun h => hstep _ _ h), List.pairwise_singleton _ _, ?_⟩
  intro a ha b hb
  obtain ⟨k, hk, rfl⟩ := List.mem_map.mp ha
  exact List.mem_singleton.mp hb ▸ hstop k (List.mem_range.mp hk)

variable {f : ℕ → ℝ} {n : ℕ} {start stop : ℝ}

theorem Climbs.towards (h : Climbs f n start stop) : Towards start stop (listed f n stop) :=
  ⟨fun hlt => listed_pairwise (fun _ _ hij => (h.rises hlt).1 hij) (h.rises hlt).2,
    fun hlt => listed_pairwise (fun _ _ hij => (h.falls hlt).1 hij) (h.falls hlt).2⟩

theorem Climbs.within (h : Climbs f n start stop) : Within start stop 0 (listed f n stop) := by
  intro p hp
  rw [add_zero, sub_zero]
  rcases List.mem_append.mp hp with hp | hp
  · obtain ⟨k, hk, rfl⟩ := List.mem_map.mp hp
    have hk := List.mem_range.mp hk
    have hzero := h.zero
    rcases lt_trichotomy start stop with hlt | heq | hgt
    · obtain ⟨hmono, hstop⟩ := h.rises hlt
      exact ⟨fun _ => ⟨hzero ▸ hmono.monotone (Nat.zero_le k), (hstop k hk).le⟩, fun hle => absurd hlt hle.not_gt⟩
    · rw [h.still heq k hk]
      exact ⟨fun hle => ⟨le_rfl, hle⟩, fun hle => ⟨hle, le_rfl⟩⟩
    · obtain ⟨hanti, hstop⟩ := h.falls hgt
      exact ⟨fun hle => absurd hgt hle.not_gt, fun _ => ⟨(hstop k hk).le, hzero ▸ hanti.antitone (Nat.zero_le k)⟩⟩
  · rw [List.mem_singleton.mp hp]
    exact ⟨fun hle => ⟨hle, le_rfl⟩, fun hle => ⟨le_rfl, hle⟩⟩

theorem listed_head (h : f 0 = start) (hn : 0 < n) : (listed f n stop).head? = some start := by
  obtain ⟨n, rfl⟩ := Nat.exists_eq_succ_of_ne_zero hn.ne'
  simp [listed, List.range_succ_eq_map, h]

theorem listed_getLast : (listed f n stop).getLast? = some stop := by simp

theorem listed_length : (listed f n stop).length = n + 1 := by simp

/-! ## 3. The modes -/

theorem lin_climbs (start stop : ℝ) (hn : 0 < n) :
    Climbs (fun k => start + k * (stop - start) / n) n start stop := by
  have hn' : (0 : ℝ) < n := Nat.cast_pos.mpr hn
  have hpart : ∀ k < n, (k : ℝ) / n < 1 := fun k hk => (div_lt_one hn').mpr (Nat.cast_lt.mpr hk)
  refine ⟨by simp, fun hlt => ⟨fun i j hij => ?_, fun k hk => ?_⟩, fun hlt => ⟨fun i j hij => ?_, fun k hk => ?_⟩,
    fun heq k _ => by simp [heq]⟩
  · have hij : (i : ℝ) < j := Nat.cast_lt.mpr hij
    have := div_lt_div_of_pos_right (mul_lt_mul_of_pos_right hij (sub_pos.mpr hlt)) hn'
    linarith
  · rw [mul_div_right_comm]
    have := mul_lt_mul_of_pos_right (hpart k hk) (sub_pos.mpr hlt)
    linarith
  · have hij : (i : ℝ) < j := Nat.cast_lt.mpr hij
    have := div_lt_div_of_pos_right (mul_lt_mul_of_neg_right hij (sub_neg.mpr hlt)) hn'
    linarith
  · rw [mul_div_right_comm]
    have := mul_lt_mul_of_neg_right (hpart k hk) (sub_neg.mpr hlt)
    linarith

theorem log_climbs (hstart : 0 < start) (hstop : 0 < stop) (hn : 0 < n) :
    Climbs (fun k => start * (stop / start) ^ ((k : ℝ) / n)) n start stop := by
  have hn' : (0 : ℝ) < n := Nat.cast_pos.mpr hn
  have hpart : ∀ k < n, (k : ℝ) / n < 1 := fun k hk => (div_lt_one hn').mpr (Nat.cast_lt.mpr hk)
  have hcast : ∀ {i j : ℕ}, i < j → (i : ℝ) / n < j / n := fun hij =>
    div_lt_div_of_pos_right (Nat.cast_lt.mpr hij) hn'
  have hend : start * (stop / start) ^ (1 : ℝ) = stop := by
    rw [Real.rpow_one, mul_div_cancel₀ _ hstart.ne']
  have hratio : 0 < stop / start := div_pos hstop hstart
  refine ⟨by simp, fun hlt => ?_, fun hlt => ?_, fun heq k _ => by simp [heq, div_self hstop.ne']⟩
  · have hone : 1 < stop / start := (one_lt_div hstart).mpr hlt
    have hmono := fun {x y : ℝ} (h : x < y) =>
      mul_lt_mul_of_pos_left (Real.rpow_lt_rpow_of_exponent_lt hone h) hstart
    exact ⟨fun i j hij => hmono (hcast hij), fun k hk => (hmono (hpart k hk)).trans_eq hend⟩
  · have hone : stop / start < 1 := (div_lt_one hstart).mpr hlt
    have hanti := fun {x y : ℝ} (h : x < y) =>
      mul_lt_mul_of_pos_left (Real.rpow_lt_rpow_of_exponent_gt hratio hone h) hstart
    exact ⟨fun i j hij => hanti (hcast hij), fun k hk => hend.symm.trans_lt (hanti (hpart k hk))⟩

/-- The points of a `dec` grid before the end. -/
def decAt {K : Type} [Field K] [LinearOrder K] (A : Arith K) (start span : K) (count : Int) (k : ℕ) : K :=
  start * A.pow 10 ((if 0 ≤ span then 1 else -1) * k / count)

theorem decPoints_eq (start stop span : ℝ) (count m : Int) :
    decPoints exact start stop span count m = listed (decAt exact start span count) m.toNat stop := rfl

theorem decAt_rising {start span : ℝ} {count : Int} (h : 0 ≤ span) (k : ℕ) :
    decAt exact start span count k = start * (10 : ℝ) ^ ((k : ℝ) / count) := by
  rw [decAt, if_pos h, one_mul]
  rfl

theorem decAt_falling {start span : ℝ} {count : Int} (h : span < 0) (k : ℕ) :
    decAt exact start span count k = start * (10 : ℝ) ^ (-(k : ℝ) / count) := by
  rw [decAt, if_neg h.not_ge, neg_one_mul]
  rfl

/-- Points that are fewer than the intervals lie before the end. -/
theorem dec_climbs (hstart : 0 < start) (hstop : 0 < stop) {count : Int} (hcount : 1 ≤ count)
    (hn : ∀ k < n, (k : ℝ) < |decSpan exact start stop count|) :
    Climbs (decAt exact start (decSpan exact start stop count) count) n start stop := by
  have hcount' : (0 : ℝ) < count := Int.cast_pos.mpr (by omega)
  have hspan : decSpan exact start stop count = count * Real.logb 10 (stop / start) := rfl
  have hratio : 0 < stop / start := div_pos hstop hstart
  have hend : start * (10 : ℝ) ^ (decSpan exact start stop count / count) = stop := by
    rw [hspan, mul_div_cancel_left₀ _ hcount'.ne', Real.rpow_logb (by norm_num) (by norm_num) hratio,
      mul_div_cancel₀ _ hstart.ne']
  have hmono := fun {x y : ℝ} (h : x < y) =>
    mul_lt_mul_of_pos_left (Real.rpow_lt_rpow_of_exponent_lt (by norm_num : (1 : ℝ) < 10)
      (div_lt_div_of_pos_right h hcount')) hstart
  refine ⟨by simp [decAt, exact], fun hlt => ?_, fun hlt => ?_, fun heq k hk => ?_⟩
  · have hpos : 0 < decSpan exact start stop count :=
      mul_pos hcount' (Real.logb_pos (by norm_num) ((one_lt_div hstart).mpr hlt))
    rw [abs_of_pos hpos] at hn
    refine ⟨fun i j hij => ?_, fun k hk => ?_⟩ <;> rw [decAt_rising hpos.le]
    · rw [decAt_rising hpos.le]
      exact hmono (Nat.cast_lt.mpr hij)
    · exact (hmono (hn k hk)).trans_eq hend
  · have hneg : decSpan exact start stop count < 0 :=
      mul_neg_of_pos_of_neg hcount' (Real.logb_neg (by norm_num) hratio ((div_lt_one hstart).mpr hlt))
    rw [abs_of_neg hneg] at hn
    refine ⟨fun i j hij => ?_, fun k hk => ?_⟩ <;> rw [decAt_falling hneg]
    · rw [decAt_falling hneg]
      exact hmono (neg_lt_neg (Nat.cast_lt.mpr hij))
    · exact hend.symm.trans_lt (hmono (lt_neg.mp (hn k hk)))
  · have hzero : decSpan exact start stop count = 0 := by rw [hspan, heq, div_self hstop.ne', Real.logb_one, mul_zero]
    have := hn k hk
    rw [hzero, abs_zero] at this
    exact absurd this (Nat.cast_nonneg k).not_gt

/-! ## 4. A step grid -/

theorem stepList_head {step : ℝ} (hdir : 0 ≤ (stop - start) * step) :
    (stepList start stop step).head? = some start := by
  have hlast := lastStep_nonneg hdir
  obtain ⟨n, hn⟩ := Nat.exists_eq_succ_of_ne_zero (show (lastStep start stop step + 1).toNat ≠ 0 by omega)
  rw [lastStep] at hn
  simp [stepList, hn, List.range_succ_eq_map]

theorem stepList_towards {step : ℝ} (h0 : step ≠ 0) (hdir : 0 ≤ (stop - start) * step) :
    Towards start stop (stepList start stop step) := by
  have hcast : ∀ {i j : ℕ}, i < j → (i : ℝ) < j := fun h => Nat.cast_lt.mpr h
  refine ⟨fun hlt => ?_, fun hlt => ?_⟩ <;> refine List.pairwise_map.mpr (List.pairwise_lt_range.imp fun h => ?_)
  · have hstep : 0 < step := lt_of_le_of_ne (nonneg_of_mul_nonneg_right hdir (sub_pos.mpr hlt)) h0.symm
    exact add_lt_add_right (mul_lt_mul_of_pos_right (hcast h) hstep) start
  · have hstep : step < 0 := lt_of_le_of_ne (nonpos_of_mul_nonneg_right hdir (sub_neg.mpr hlt)) h0
    exact add_lt_add_right (mul_lt_mul_of_neg_right (hcast h) hstep) start

theorem stepList_within {step : ℝ} (h0 : step ≠ 0) (hdir : 0 ≤ (stop - start) * step) :
    Within start stop (tolerance * |step|) (stepList start stop step) := by
  intro p hp
  obtain ⟨k, hk, rfl⟩ := List.mem_map.mp hp
  have hlast := lastStep_nonneg hdir
  have hk : (k : Int) ≤ lastStep start stop step := by
    have := List.mem_range.mp hk
    rw [← lastStep] at this
    omega
  have hsteps : (k : ℝ) ≤ (stop - start) / step + tolerance := by
    rw [lastStep, Int.le_floor] at hk
    exact_mod_cast hk
  have htol : (0 : ℝ) < tolerance := tolerance_pos
  have hk0 : (0 : ℝ) ≤ k := Nat.cast_nonneg k
  have hslack : 0 ≤ tolerance * |step| := mul_nonneg htol.le (abs_nonneg step)
  rcases eq_or_ne start stop with heq | hne
  · -- No step fits between equal bounds.
    have hlt : (k : ℝ) < 1 := by
      rw [heq, sub_self, zero_div, zero_add, tolerance] at hsteps
      linarith
    have hzero : k = 0 := Nat.cast_lt_one.mp hlt
    subst hzero
    constructor <;> intro _ <;> constructor <;> push_cast <;> linarith
  · rcases h0.lt_or_gt with hneg | hpos
    · have hlt : stop < start := lt_of_le_of_ne (by
        have := nonpos_of_mul_nonneg_left hdir hneg
        linarith) hne.symm
      have hmul := mul_le_mul_of_nonpos_right hsteps hneg.le
      rw [add_mul, div_mul_cancel₀ _ h0] at hmul
      have hback := mul_nonpos_of_nonneg_of_nonpos hk0 hneg.le
      rw [abs_of_neg hneg]
      exact ⟨fun hle => absurd hlt hle.not_gt, fun _ => ⟨by linarith, by linarith⟩⟩
    · have hlt : start < stop := lt_of_le_of_ne (by
        have := nonneg_of_mul_nonneg_left hdir hpos
        linarith) hne
      have hmul := mul_le_mul_of_nonneg_right hsteps hpos.le
      rw [add_mul, div_mul_cancel₀ _ h0] at hmul
      have hon := mul_nonneg hk0 hpos.le
      rw [abs_of_pos hpos]
      exact ⟨fun _ => ⟨by linarith, by linarith⟩, fun hle => absurd hlt hle.not_gt⟩

theorem stepList_last {step : ℝ} (h0 : step ≠ 0) (hdir : 0 ≤ (stop - start) * step) :
    ∃ p, (stepList start stop step).getLast? = some p ∧ |stop - p| < |step| := by
  have hlast := lastStep_nonneg hdir
  obtain ⟨n, hn⟩ := Nat.exists_eq_succ_of_ne_zero (show (lastStep start stop step + 1).toNat ≠ 0 by omega)
  have hn' : (n : Int) = lastStep start stop step := by omega
  refine ⟨start + n * step, ?_, ?_⟩
  · rw [lastStep] at hn
    simp [stepList, hn, List.range_succ]
  · have hlow : (n : ℝ) ≤ (stop - start) / step + tolerance := by
      have := Int.floor_le ((stop - start) / step + tolerance)
      rwa [← lastStep, ← hn', Int.cast_natCast] at this
    have hhigh : (stop - start) / step + tolerance < n + 1 := by
      have := Int.lt_floor_add_one ((stop - start) / step + tolerance)
      rwa [← lastStep, ← hn', Int.cast_natCast] at this
    have htol : (0 : ℝ) < tolerance ∧ (tolerance : ℝ) < 1 := ⟨tolerance_pos, by norm_num [tolerance]⟩
    have hsplit : stop - (start + n * step) = ((stop - start) / step - n) * step := by
      rw [sub_mul, div_mul_cancel₀ _ h0]
      ring
    rw [hsplit, abs_mul]
    exact mul_lt_of_lt_one_left (abs_pos.mpr h0) (abs_lt.mpr ⟨by linarith, by linarith⟩)

/-! ## 5. The intervals of a `dec` sweep -/

theorem abs_sub_roundHalfEven (x : ℝ) : |x - roundHalfEven x| ≤ 1 / 2 := by
  have hlow := Int.floor_le x
  have hhigh := Int.lt_floor_add_one x
  rw [abs_le, roundHalfEven]
  split_ifs <;> push_cast <;> constructor <;> linarith

/-- What `m` intervals of a `dec` sweep with this span have in common. -/
structure Intervals (span : ℝ) (m : Int) : Prop where
  before : ∀ k < m.toNat, (k : ℝ) < |span|
  le_ceil : m ≤ ⌈|span|⌉
  pos_iff : 1 ≤ m ↔ 1 - tolerance ≤ |span|

theorem intervals_round {span : ℝ} (hround : |span - roundHalfEven span| ≤ tolerance * max 1 |span|) :
    Intervals span (roundHalfEven |span|) := by
  have hhalf := abs_le.mp (abs_sub_roundHalfEven |span|)
  have htol : (tolerance : ℝ) < 1 / 4 := by norm_num [tolerance]
  refine ⟨fun k hk => ?_, ?_, fun hone => ?_, fun hspan => ?_⟩
  · have hk : ((k + 1 : ℤ) : ℝ) ≤ roundHalfEven |span| := Int.cast_le.mpr (by omega)
    push_cast at hk
    linarith
  · have hlt : (roundHalfEven |span| : ℝ) < (⌈|span|⌉ + 1 : ℤ) := by
      have := Int.le_ceil |span|
      push_cast
      linarith
    have := Int.cast_lt.mp hlt
    omega
  · by_contra hspan
    rw [not_le] at hspan
    have hpos : (0 : ℝ) < tolerance := tolerance_pos
    rw [max_eq_left (by linarith), mul_one] at hround
    -- The nearest integer is zero, and so is that of the absolute value.
    have habs : |(roundHalfEven span : ℝ)| < 1 := by
      have := abs_sub_abs_le_abs_sub (roundHalfEven span : ℝ) span
      rw [abs_sub_comm] at this
      linarith
    have hzero : roundHalfEven span = 0 := Int.abs_lt_one_iff.mp (by exact_mod_cast habs)
    rw [hzero, Int.cast_zero, sub_zero] at hround
    have hone : (1 : ℝ) ≤ roundHalfEven |span| := by exact_mod_cast hone
    linarith
  · have : (0 : ℝ) < roundHalfEven |span| := by linarith
    exact Int.cast_pos.mp this

theorem intervals_floor (span : ℝ) : Intervals span ⌊|span| + tolerance⌋ := by
  have hle := Int.floor_le (|span| + tolerance)
  have htol : (tolerance : ℝ) < 1 := by norm_num [tolerance]
  refine ⟨fun k hk => ?_, ?_, ?_⟩
  · have hk : ((k + 1 : ℤ) : ℝ) ≤ ⌊|span| + tolerance⌋ := Int.cast_le.mpr (by omega)
    push_cast at hk
    linarith
  · have hlt : (⌊|span| + tolerance⌋ : ℝ) < (⌈|span|⌉ + 1 : ℤ) := by
      have := Int.le_ceil |span|
      push_cast
      linarith
    have := Int.cast_lt.mp hlt
    omega
  · rw [Int.le_floor, Int.cast_one, sub_le_iff_le_add]

/-- Numbers that lie less than `n` apart are at most `n`. -/
theorem filter_range_length_le {P : ℕ → Bool} {m n : ℕ}
    (h : ∀ i j, P i = true → P j = true → i ≤ j → j < i + n) : ((List.range m).filter P).length ≤ n := by
  have hsorted := List.pairwise_lt_range.filter (l := List.range m) P
  cases hl : (List.range m).filter P with
  | nil => exact Nat.zero_le n
  | cons i is =>
    have hP : ∀ j ∈ i :: is, P j = true := fun j hj => (List.mem_filter.mp (hl ▸ hj)).2
    have hi := hP i List.mem_cons_self
    rw [hl] at hsorted
    have hsubset : i :: is ⊆ List.range' i n := by
      intro j hj
      have hij : i ≤ j := by
        rcases List.mem_cons.mp hj with rfl | hmem
        · exact le_rfl
        · exact (List.rel_of_pairwise_cons hsorted hmem).le
      have hlt := h i j hi (hP j hj) hij
      exact List.mem_range'_1.mpr ⟨hij, hlt⟩
    have hnodup : (i :: is).Nodup := hsorted.imp fun h => Nat.ne_of_lt h
    have hle := (hnodup.subperm hsubset).length_le
    rwa [List.length_range'] at hle

/-- A decade has at most `count` of the points before the end. -/
theorem decade_length_le (hstart : 0 < start) {span : ℝ} {count : Int} (hcount : 1 ≤ count) (m : ℕ) (x : ℝ) :
    ((decade ((List.range m).map (decAt exact start span count)) x).length : Int) ≤ count := by
  have hcount' : (0 : ℝ) < count := Int.cast_pos.mpr (by omega)
  -- `count` steps are a factor of ten.
  have hten : ∀ {a b : ℝ}, a + count ≤ b → 10 * (start * (10 : ℝ) ^ (a / count)) ≤ start * (10 : ℝ) ^ (b / count) := by
    intro a b hab
    have hexp : a / count + 1 ≤ b / count := by
      rw [← div_self hcount'.ne', ← add_div]
      exact div_le_div_of_nonneg_right hab hcount'.le
    have := Real.rpow_le_rpow_of_exponent_le (by norm_num : (1 : ℝ) ≤ 10) hexp
    rw [Real.rpow_add (by norm_num), Real.rpow_one] at this
    nlinarith
  rw [decade, List.filter_map, List.length_map]
  have hle : ((List.range m).filter ((fun p => decide (x ≤ p ∧ p < 10 * x)) ∘ decAt exact start span count)).length ≤
      count.toNat := by
    refine filter_range_length_le fun i j hi hj _ => ?_
    have hi := of_decide_eq_true hi
    have hj := of_decide_eq_true hj
    by_contra hfar
    have hfar : (i : ℝ) + count ≤ j := by
      have : (i : ℤ) + count ≤ j := by omega
      exact_mod_cast this
    rcases le_or_gt 0 span with hpos | hneg
    · rw [decAt_rising hpos] at hi hj
      linarith [hten hfar]
    · rw [decAt_falling hneg] at hi hj
      linarith [hten (show -(j : ℝ) + count ≤ -i by linarith)]
  omega

/-! ## 6. The whole grid -/

/-- Where a sweep starts: its default is 0. -/
noncomputable def startOf (num : Expr → Str → Except Str ℝ) (spec : SweepSpec) (what : Str) : Option ℝ :=
  if spec.start.isNone then some 0 else (readBound num spec.start (what ++ str " start")).2

def stopOf (num : Expr → Str → Except Str ℝ) (spec : SweepSpec) (what : Str) : Option ℝ :=
  (readBound num spec.stop (what ++ str " stop")).2

def stepOf (num : Expr → Str → Except Str ℝ) (spec : SweepSpec) (what : Str) : Option ℝ :=
  (readBound num spec.step (what ++ str " step")).2

theorem pointsOf_unique {K : Type} [Field K] [LinearOrder K] [FloorRing K] {A : Arith K} {g : Grid K}
    {pts pts' : List K} (h : PointsOf A g pts) (h' : PointsOf A g pts') : pts = pts' := by
  obtain ⟨n, h⟩ := h
  obtain ⟨n', h'⟩ := h'
  exact Except.ok.inj (Option.some.inj ((h _ (le_max_left n n')).symm.trans (h' _ (le_max_right n n'))))

/-- Points of one direction cover the range of a sweep that is not a step grid. -/
theorem Climbs.covers {spec : SweepSpec} {step : Option ℝ} (h : Climbs f n start stop) (hmode : spec.mode ≠ .step)
    (hfirst : (listed f n stop).head? = some start) (hcounted : Counted spec start stop (listed f n stop)) :
    Covers spec start stop step (listed f n stop) where
  first := hfirst
  towards := h.towards
  within := by
    rw [if_neg hmode]
    exact h.within
  last := by
    rw [if_neg hmode]
    exact listed_getLast
  counted := hcounted

/-- A `dec` sweep covers its range exactly when an interval fits, or none is needed. -/
theorem dec_covers_iff {spec : SweepSpec} {step : Option ℝ} {count m : Int} (hmode : spec.mode = .dec)
    (hcount : spec.count = some count) (hpos : 1 ≤ count) (hstart : 0 < start) (hstop : 0 < stop)
    (hm : Intervals (decSpan exact start stop count) m) :
    Covers spec start stop step (decPoints exact start stop (decSpan exact start stop count) count m) ↔
      start = stop ∨ 1 - tolerance ≤ |decSpan exact start stop count| := by
  have hclimbs := dec_climbs hstart hstop hpos hm.before
  rw [decPoints_eq, ← hm.pos_iff]
  constructor
  · intro h
    by_contra hnone
    obtain ⟨hne, hm0⟩ := not_or.mp hnone
    have hfirst := h.first
    rw [show m.toNat = 0 by omega] at hfirst
    exact hne (Option.some.inj hfirst).symm
  · intro h
    have hnotStep : spec.mode ≠ .step := by simp [hmode]
    refine hclimbs.covers hnotStep ?_ ?_
    · rcases h with heq | hone
      · have hzero : m.toNat = 0 := by
          by_contra hne
          have := hm.before 0 (Nat.pos_of_ne_zero hne)
          simp [decSpan, exact, heq, div_self hstop.ne'] at this
        rw [hzero, heq]
        rfl
      · exact listed_head hclimbs.zero (by omega)
    · rw [Counted, hmode]
      refine ⟨count, hcount, ?_, fun x => ?_⟩
      · have := hm.le_ceil
        have hceil : 0 ≤ ⌈|decSpan exact start stop count|⌉ := Int.ceil_nonneg (abs_nonneg _)
        rw [listed_length]
        push_cast
        omega
      · rw [listed, List.dropLast_concat]
        exact decade_length_le hstart hpos _ x

theorem positiveCount_mem {count : Option Int} {n : Int} (h : positiveCount count = some n) : count = some n :=
  (Option.filter_eq_some_iff.mp h).1

theorem cast_toNat {n : Int} (h : 1 ≤ n) : ((n.toNat : ℕ) : ℝ) = n := by
  rw [← Int.cast_natCast, Int.toNat_of_nonneg (by omega)]

/-- A linear grid covers its range. -/
theorem lin_covers {spec : SweepSpec} {step : Option ℝ} {n : Int} (hn : 1 ≤ n) (hmode : spec.mode ≠ .step)
    (hcounted : Counted spec start stop (linPoints start stop n)) :
    Covers spec start stop step (linPoints start stop n) := by
  have hclimbs := lin_climbs start stop (show 0 < n.toNat by omega)
  rw [cast_toNat hn] at hclimbs
  exact hclimbs.covers hmode (listed_head hclimbs.zero (by omega)) hcounted

theorem log_covers {spec : SweepSpec} {step : Option ℝ} {n : Int} (hn : 1 ≤ n) (hstart : 0 < start)
    (hstop : 0 < stop) (hmode : spec.mode ≠ .step) (hcounted : Counted spec start stop (logPoints exact start stop n)) :
    Covers spec start stop step (logPoints exact start stop n) := by
  have hclimbs := log_climbs hstart hstop (show 0 < n.toNat by omega)
  rw [cast_toNat hn] at hclimbs
  exact hclimbs.covers hmode (listed_head hclimbs.zero (by omega)) hcounted

theorem linPoints_length {n : Int} (hn : 1 ≤ n) : ((linPoints start stop n).length : Int) = n + 1 := by
  simp [linPoints]
  omega

theorem logPoints_length {n : Int} (hn : 1 ≤ n) : ((logPoints exact start stop n).length : Int) = n + 1 := by
  simp [logPoints]
  omega

/-- The points of the sweep that a mode makes, and when they cover its range. -/
theorem range_covers_iff {spec : SweepSpec} {step : Option ℝ} {g : Grid ℝ}
    (h : rangeGrid exact spec start stop step = .ok g) :
    ∃ pts, PointsOf exact g pts ∧ (Covers spec start stop step pts ↔
      (spec.mode = .dec → ∀ count, spec.count = some count →
        start = stop ∨ 1 - tolerance ≤ |decSpan exact start stop count|)) := by
  unfold rangeGrid at h
  cases hmode : spec.mode with
  | step =>
    rw [hmode] at h
    cases step with
    | none => cases h
    | some step =>
      dsimp only at h
      split_ifs at h with hdir
      cases h
      rw [not_or, not_lt] at hdir
      obtain ⟨h0, hdir⟩ := hdir
      refine ⟨_, pointsOf_step rfl rfl rfl rfl h0 hdir, iff_of_true ?_ (fun hdec => by cases hdec)⟩
      obtain ⟨p, hlast, hnear⟩ := stepList_last h0 hdir
      refine ⟨stepList_head hdir, stepList_towards h0 hdir, ?_, ?_, ?_⟩
      · rw [if_pos hmode]
        exact ⟨step, rfl, stepList_within h0 hdir⟩
      · rw [if_pos hmode]
        exact ⟨step, p, rfl, hlast, hnear⟩
      · rw [Counted, hmode]
        trivial
  | lin =>
    rw [hmode] at h
    cases hcount : positiveCount spec.count with
    | none =>
      rw [hcount] at h
      cases h
    | some n =>
      rw [hcount] at h
      cases h
      have hn := positiveCount_eq_some hcount
      refine ⟨linPoints start stop n, pointsOf_of_eq fun fuel => by simp [gridPoints, SweepSpec.out, countOr_of_pos hn],
        iff_of_true (lin_covers hn (by simp [hmode]) ?_) (fun hdec => by cases hdec)⟩
      rw [Counted, hmode]
      exact ⟨n, positiveCount_mem hcount, linPoints_length hn⟩
  | dec =>
    rw [hmode] at h
    dsimp only at h
    by_cases hpos : start ≤ 0 ∨ stop ≤ 0
    · rw [if_pos hpos] at h
      cases h
    rw [if_neg hpos] at h
    rw [not_or, not_le, not_le] at hpos
    cases hcount : positiveCount spec.count with
    | none =>
      rw [hcount] at h
      cases h
    | some n =>
      rw [hcount] at h
      dsimp only at h
      have hn := positiveCount_eq_some hcount
      have hmem := positiveCount_mem hcount
      have hcond : (Mode.dec = .dec → ∀ count, spec.count = some count →
          start = stop ∨ 1 - tolerance ≤ |decSpan exact start stop count|) ↔
            (start = stop ∨ 1 - tolerance ≤ |decSpan exact start stop n|) :=
        ⟨fun h => h rfl n hmem, fun h _ count hcount' => Option.some.inj (hmem.symm.trans hcount') ▸ h⟩
      rw [if_neg (by decide)] at h
      split_ifs at h with hround <;> cases h
      · refine ⟨_, pointsOf_of_eq fun fuel => ?_,
          (dec_covers_iff hmode hmem hn hpos.1 hpos.2 (intervals_round hround)).trans hcond.symm⟩
        simp [gridPoints, SweepSpec.out, countOr_of_pos hn]
      · exact ⟨_, pointsOf_of_eq fun fuel => by simp [gridPoints, SweepSpec.out],
          (dec_covers_iff hmode hmem hn hpos.1 hpos.2 (intervals_floor _)).trans hcond.symm⟩
  | log =>
    rw [hmode] at h
    dsimp only at h
    by_cases hpos : start ≤ 0 ∨ stop ≤ 0
    · rw [if_pos hpos] at h
      cases h
    rw [if_neg hpos] at h
    rw [not_or, not_le, not_le] at hpos
    cases hcount : positiveCount spec.count with
    | none =>
      rw [hcount] at h
      cases h
    | some n =>
      rw [hcount] at h
      dsimp only at h
      rw [if_pos rfl] at h
      cases h
      have hn := positiveCount_eq_some hcount
      refine ⟨logPoints exact start stop n, pointsOf_of_eq fun fuel => by simp [gridPoints, SweepSpec.out],
        iff_of_true (log_covers hn hpos.1 hpos.2 (by simp [hmode]) ?_) (fun hdec => by cases hdec)⟩
      rw [Counted, hmode]
      exact ⟨n, positiveCount_mem hcount, logPoints_length hn⟩
  | unset =>
    have hcount : 1 ≤ defaultGridCount := by decide
    rw [hmode] at h
    dsimp only at h
    split_ifs at h with hlinear
    · cases h
      refine ⟨linPoints start stop defaultGridCount,
        pointsOf_of_eq fun fuel => by simp [gridPoints, SweepSpec.out, countOr_of_pos hcount],
        iff_of_true (lin_covers hcount (by simp [hmode]) ?_) (fun hdec => by cases hdec)⟩
      rw [Counted, hmode]
      exact linPoints_length hcount
    · cases h
      obtain ⟨hstart, hrest⟩ := not_or.mp hlinear
      have hstop := (not_or.mp hrest).1
      refine ⟨logPoints exact start stop defaultGridCount, pointsOf_of_eq fun fuel => by simp [gridPoints, SweepSpec.out],
        iff_of_true (log_covers hcount (not_le.mp hstart) (not_le.mp hstop) (by simp [hmode]) ?_)
          (fun hdec => by cases hdec)⟩
      rw [Counted, hmode]
      exact logPoints_length hcount
  | values | other =>
    rw [hmode] at h
    cases h

/-- The points of a sweep that is written without values cover its range, unless it is a `dec` sweep over less than
    an interval. -/
theorem grid_covers_iff {num : Expr → Str → Except Str ℝ} {spec : SweepSpec} {what : Str} {g : Grid ℝ}
    (h : (grid exact num spec what).2 = some g) (hmode : spec.mode ≠ .values)
    (hvalues : spec.mode = .unset → spec.values = []) :
    (∃ start stop pts, startOf num spec what = some start ∧ stopOf num spec what = some stop ∧ PointsOf exact g pts ∧
        Covers spec start stop (stepOf num spec what) pts) ↔
      (spec.mode = .dec → ∀ start stop count, startOf num spec what = some start → stopOf num spec what = some stop →
        spec.count = some count → start = stop ∨ 1 - tolerance ≤ |decSpan exact start stop count|) := by
  obtain ⟨values, hread, h⟩ := grid_eq_some h
  rcases evaluatedGrid_eq_ok h with ⟨hne, hmode', -⟩ | ⟨a, b, hstart, hstop, -, h⟩
  · have hunset := hmode'.resolve_left hmode
    rw [hvalues hunset] at hread
    cases hread
    exact absurd rfl hne
  · have hstart : startOf num spec what = some a := hstart
    have hstop : stopOf num spec what = some b := hstop
    obtain ⟨pts, hpts, hiff⟩ := range_covers_iff h
    constructor
    · rintro ⟨start, stop, pts', hs, ht, hpts', hcovers⟩ hdec start' stop' count hs' ht' hcount
      rw [pointsOf_unique hpts' hpts] at hcovers
      obtain rfl := Option.some.inj (hs.symm.trans hstart)
      obtain rfl := Option.some.inj (ht.symm.trans hstop)
      obtain rfl := Option.some.inj (hs.symm.trans hs')
      obtain rfl := Option.some.inj (ht.symm.trans ht')
      exact hiff.mp hcovers hdec count hcount
    · intro hcond
      exact ⟨a, b, pts, hstart, hstop, hpts,
        hiff.mpr fun hdec count hcount => hcond hdec a b count hstart hstop hcount⟩

/-! ## 7. An octave -/

/-- The parameters `low` and `high`. -/
noncomputable def octaveNum (e : Expr) (what : Str) : Except Str ℝ :=
  match e with
  | .name n =>
    if n = str "low" then .ok 1 else if n = str "high" then .ok 2 else .error (what ++ str " does not evaluate")
  | _ => .error what

/-- `dec=count` from `low` to `high`. -/
def octave (count : Int) : SweepSpec :=
  ⟨str "freq", [], [], .dec, some (.name (str "low")), some (.name (str "high")), none, some count, [], []⟩

theorem octave_start (count : Int) : startOf octaveNum (octave count) (str "ac") = some 1 := by
  simp [startOf, octave, readBound, octaveNum]

theorem octave_stop (count : Int) : stopOf octaveNum (octave count) (str "ac") = some 2 := by
  have hne : str "high" ≠ str "low" := by decide
  simp [stopOf, octave, readBound, octaveNum, hne]

theorem octave_grid {count : Int} (h : 1 ≤ count) :
    ∃ g, (grid exact octaveNum (octave count) (str "ac")).2 = some g := by
  have hne : str "high" ≠ str "low" := by decide
  have hrange : ∃ g, rangeGrid exact (octave count) 1 2 none = .ok g := by
    simp only [rangeGrid, octave, positiveCount, Option.filter, h, decide_true, if_true]
    rw [if_neg (by norm_num)]
    split_ifs <;> exact ⟨_, rfl⟩
  obtain ⟨g, hg⟩ := hrange
  have hmode : ¬ ((octave count).mode = .values ∨ (octave count).mode = .unset ∧ ([] : List ℝ) ≠ []) := by
    simp [octave]
  refine ⟨g, ?_⟩
  have heval : evaluatedGrid exact (octave count) (some 1) (some 2) none [] = .ok g := by
    unfold evaluatedGrid
    rw [if_neg hmode]
    exact hg
  simp only [octave] at heval
  simp [grid, octave, readBound, octaveNum, readValues, hne, heval]

/-- Four points a decade reach past the first interval of an octave. -/
theorem octave_covered : ∃ g, (grid exact octaveNum (octave 4) (str "ac")).2 = some g ∧
    ∃ start stop pts, startOf octaveNum (octave 4) (str "ac") = some start ∧
      stopOf octaveNum (octave 4) (str "ac") = some stop ∧ PointsOf exact g pts ∧
        Covers (octave 4) start stop (stepOf octaveNum (octave 4) (str "ac")) pts := by
  obtain ⟨g, hg⟩ := octave_grid (show (1 : Int) ≤ 4 by decide)
  refine ⟨g, hg, (grid_covers_iff hg (by simp [octave]) (by simp [octave])).mpr ?_⟩
  intro _ start stop count hstart hstop hcount
  obtain rfl := Option.some.inj ((octave_start 4).symm.trans hstart)
  obtain rfl := Option.some.inj ((octave_stop 4).symm.trans hstop)
  obtain rfl := Option.some.inj hcount
  -- Ten is less than the fourth power of two.
  have hspan : 1 ≤ decSpan exact (1 : ℝ) 2 4 := by
    have hlog : Real.logb 10 ((2 : ℝ) ^ (4 : ℕ)) = 4 * Real.logb 10 2 := by
      rw [Real.logb_pow]
      norm_num
    have hten : Real.logb 10 10 ≤ Real.logb 10 ((2 : ℝ) ^ (4 : ℕ)) :=
      Real.logb_le_logb_of_le (by norm_num) (by norm_num) (by norm_num)
    rw [Real.logb_self_eq_one (by norm_num), hlog] at hten
    simpa [decSpan, exact] using hten
  have htol : (0 : ℝ) < tolerance := tolerance_pos
  right
  rw [abs_of_nonneg (by linarith)]
  linarith

/-- One point a decade leaves an octave without its start. -/
theorem octave_not_covered : ∃ g, (grid exact octaveNum (octave 1) (str "ac")).2 = some g ∧
    ¬ ∃ start stop pts, startOf octaveNum (octave 1) (str "ac") = some start ∧
      stopOf octaveNum (octave 1) (str "ac") = some stop ∧ PointsOf exact g pts ∧
        Covers (octave 1) start stop (stepOf octaveNum (octave 1) (str "ac")) pts := by
  obtain ⟨g, hg⟩ := octave_grid (le_refl (1 : Int))
  refine ⟨g, hg, ?_⟩
  rintro ⟨start, stop, pts, hstart, hstop, hpts, hcovers⟩
  obtain ⟨values, -, h⟩ := grid_eq_some hg
  rcases evaluatedGrid_eq_ok h with ⟨-, hmode, -⟩ | ⟨a, b, ha, hb, -, h⟩
  · rcases hmode with hmode | hmode <;> cases hmode
  obtain rfl := Option.some.inj (hstart.symm.trans ha)
  obtain rfl := Option.some.inj (hstop.symm.trans hb)
  obtain rfl := Option.some.inj ((octave_start 1).symm.trans hstart)
  obtain rfl := Option.some.inj ((octave_stop 1).symm.trans hstop)
  obtain ⟨pts', hpts', hiff⟩ := range_covers_iff h
  rw [pointsOf_unique hpts hpts'] at hcovers
  -- The third power of two is less than ten.
  have hspan : 3 * decSpan exact (1 : ℝ) 2 1 ≤ 1 := by
    have hlog : Real.logb 10 ((2 : ℝ) ^ (3 : ℕ)) = 3 * Real.logb 10 2 := by
      rw [Real.logb_pow]
      norm_num
    have hten : Real.logb 10 ((2 : ℝ) ^ (3 : ℕ)) ≤ Real.logb 10 10 :=
      Real.logb_le_logb_of_le (by norm_num) (by norm_num) (by norm_num)
    rw [Real.logb_self_eq_one (by norm_num), hlog] at hten
    simpa [decSpan, exact] using hten
  have hpos : 0 ≤ decSpan exact (1 : ℝ) 2 1 := by
    have := Real.logb_nonneg (by norm_num : (1 : ℝ) < 10) (by norm_num : (1 : ℝ) ≤ 2)
    simpa [decSpan, exact] using this
  have htol : (tolerance : ℝ) < 1 / 2 := by norm_num [tolerance]
  rcases hiff.mp hcovers rfl 1 rfl with heq | hlong
  · norm_num at heq
  · rw [abs_of_nonneg hpos] at hlong
    linarith

end Vamos.Netlist.Sweep
