import Sv2ghdl.Lists.Lookup
import Sv2ghdl.Lists.Traverse
import Sv2ghdl.Vamos.Netlist.Waves
import Mathlib.Analysis.SpecialFunctions.Exp

/-!
# The value of a waveform at time 0

The waveforms as functions of time, and when the expression of `wave_t0` has their value at time 0.
-/

open Python Vamos.Netlist.Expression
open Vamos.Netlist (BinaryOp)

namespace Vamos.Waves

variable {K : Type} [Field K] [LinearOrder K] [FloorRing K]

/-! ## Waveforms -/

/-- A pulse `x` after the start of a period. -/
def pulseShape (v1 v2 tr tf pw x : K) : K :=
  if x < tr then v1 + (v2 - v1) * (x / tr)
  else if x < tr + pw then v2
  else if x < tr + pw + tf then v2 + (v1 - v2) * ((x - (tr + pw)) / tf)
  else v1

/-- A pulse that starts at `td`; a period of 0 or less is none. -/
def pulseAt (v1 v2 td tr tf pw : K) (per : Option K) (t : K) : Option K :=
  if t ≤ td then some v1
  else
    match per with
    | none => some (pulseShape v1 v2 tr tf pw (t - td))
    | some per => if 0 < per then some (pulseShape v1 v2 tr tf pw (per * Int.fract ((t - td) / per))) else none

/-- A damped sine that starts at `td`. -/
def sinAt (A : Arith K) (vo va freq td theta phase t : K) : K :=
  if t ≤ td then vo + va * A.sin (phase * (A.pi / 180))
  else vo + va * A.exp (-(theta * (t - td))) * A.sin (2 * A.pi * freq * (t - td) + phase * (A.pi / 180))

/-- How far an exponential has come `x` after its start; without a time constant it is there at once. -/
def charge (A : Arith K) (x tau : K) : K := if tau = 0 then 1 else 1 - A.exp (-(x / tau))

/-- A rise from `td1` and a fall from `td2`. -/
def expAt (A : Arith K) (v1 v2 td1 tau1 td2 tau2 t : K) : K :=
  if t ≤ td1 then v1
  else
    v1 + (v2 - v1) * charge A (t - td1) tau1 + if td2 < t then (v1 - v2) * charge A (t - td2) tau2 else 0

/-- Linear between points, after the point `p`. -/
def interpolate : K × K → List (K × K) → K → K
  | p, [], _ => p.2
  | p, q :: points, x =>
    if x ≤ q.1 then p.2 + (q.2 - p.2) * ((x - p.1) / (q.1 - p.1)) else interpolate q points x

/-- A piecewise linear waveform. -/
def pwlAt : List (K × K) → K → Option K
  | [], _ => none
  | p :: points, x => some (if x ≤ p.1 then p.2 else interpolate p points x)

variable (U : UnicodeData) (A : Arith K) (scope : Str → Option K)

namespace Source

variable (src : Source K)

/-- The value of a field. -/
def value (k : Str) : Option K := (src.args k).bind (eval U A scope)

/-- The value of an optional field; `none` if it is there and has none. -/
def optionalValue (k : Str) : Option (Option K) :=
  match src.args k with
  | none => some none
  | some e => (eval U A scope e).map some

/-- The values of the points. -/
def pointValues : Option (List (K × K)) :=
  src.points.mapM fun p => (eval U A scope p.1).bind fun t => (eval U A scope p.2).map (t, ·)

/-- The waveform at a time, where its fields have values. -/
def valueAt (t : K) : Option K :=
  match src.wave with
  | some .pulse => do
    let v1 ← src.value U A scope (str "v1")
    let v2 ← src.value U A scope (str "v2")
    let td ← src.value U A scope (str "td")
    let tr ← src.value U A scope (str "tr")
    let tf ← src.value U A scope (str "tf")
    let pw ← src.value U A scope (str "pw")
    let per ← src.optionalValue U A scope (str "per")
    pulseAt v1 v2 td tr tf pw per t
  | some .sin => do
    let vo ← src.value U A scope (str "vo")
    let va ← src.value U A scope (str "va")
    let freq ← src.value U A scope (str "freq")
    let td ← src.value U A scope (str "td")
    let theta ← src.value U A scope (str "theta")
    let phase ← src.value U A scope (str "phase")
    some (sinAt A vo va freq td theta phase t)
  | some .exp => do
    let v1 ← src.value U A scope (str "v1")
    let v2 ← src.value U A scope (str "v2")
    let td1 ← src.value U A scope (str "td1")
    let tau1 ← src.value U A scope (str "tau1")
    let td2 ← src.value U A scope (str "td2")
    let tau2 ← src.value U A scope (str "tau2")
    some (expAt A v1 v2 td1 tau1 td2 tau2 t)
  | some .pwl => do
    let td ← src.optionalValue U A scope (str "td")
    let points ← src.pointValues U A scope
    pwlAt points (t - td.getD 0)
  | none => none

/-- A field that is not the number 0 has the value 0. -/
def HiddenZero (k : Str) : Prop := src.value U A scope k = some 0 ∧ src.numv k ≠ some 0

/-- An exp has started at time 0, and a time constant that it needs then is a hidden zero. -/
def DividesByZero : Prop :=
  src.wave = some .exp ∧ (∃ d, src.value U A scope (str "td1") = some d ∧ d < 0) ∧
    (src.HiddenZero U A scope (str "tau1") ∨
      (∃ d, src.value U A scope (str "td2") = some d ∧ d < 0) ∧ src.HiddenZero U A scope (str "tau2"))

end Source

/-! ## Values of expressions -/

variable {U A scope}

section Values

variable {a b c : Expr K} {x y z : K}

theorem eval_num (x : K) : eval U A scope (.num x) = some x := by rw [eval]

theorem eval_add (ha : eval U A scope a = some x) (hb : eval U A scope b = some y) :
    eval U A scope (.add a b) = some (x + y) := by
  simp [Expr.add, eval, evBinary, binaryValue, ha, hb]

theorem eval_sub (ha : eval U A scope a = some x) (hb : eval U A scope b = some y) :
    eval U A scope (.sub a b) = some (x - y) := by
  simp [Expr.sub, eval, evBinary, binaryValue, ha, hb]

theorem eval_mul (ha : eval U A scope a = some x) (hb : eval U A scope b = some y) :
    eval U A scope (.mul a b) = some (x * y) := by
  simp [Expr.mul, eval, evBinary, binaryValue, ha, hb]

theorem eval_div (ha : eval U A scope a = some x) (hb : eval U A scope b = some y) :
    eval U A scope (.div a b) = if y = 0 then none else some (x / y) := by
  simp [Expr.div, eval, evBinary, binaryValue, ha, hb]

/-- An arithmetic operator without its right operand. -/
theorem eval_right_none {op : BinaryOp} (hop : ¬(op = .and ∨ op = .or)) (hb : eval U A scope b = none) :
    eval U A scope (.binary op a b) = none := by
  rw [eval, evBinary, if_neg hop, hb]
  cases eval U A scope a <;> rfl

theorem eval_neg (ha : eval U A scope a = some x) : eval U A scope (.neg a) = some (-x) := by
  simp [Expr.neg, eval, unaryValue, ha]

/-- A conditional on a comparison. -/
theorem eval_lt (ha : eval U A scope a = some x) (hb : eval U A scope b = some y) (e₁ e₂ : Expr K) :
    eval U A scope (.ternary (.lt a b) e₁ e₂) = if x < y then eval U A scope e₁ else eval U A scope e₂ := by
  by_cases h : x < y <;> simp [Expr.lt, eval, evBinary, binaryValue, ha, hb, truth, h]

theorem eval_le (ha : eval U A scope a = some x) (hb : eval U A scope b = some y) (e₁ e₂ : Expr K) :
    eval U A scope (.ternary (.le a b) e₁ e₂) = if x ≤ y then eval U A scope e₁ else eval U A scope e₂ := by
  by_cases h : x ≤ y <;> simp [Expr.le, eval, evBinary, binaryValue, ha, hb, truth, h]

theorem eval_ge (ha : eval U A scope a = some x) (hb : eval U A scope b = some y) (e₁ e₂ : Expr K) :
    eval U A scope (.ternary (.ge a b) e₁ e₂) = if y ≤ x then eval U A scope e₁ else eval U A scope e₂ := by
  by_cases h : y ≤ x <;> simp [Expr.ge, eval, evBinary, binaryValue, ha, hb, truth, h]

theorem eval_floor : eval U A scope (.call (str "floor") [a]) = (eval U A scope a).map fun x => (⌊x⌋ : K) := by
  have hnode : isNodeFunc U (str "floor") = false := by simp [isNodeFunc, matchesNodeFunc, str]
  have hif : str "floor" ≠ str "if" := by decide
  rw [eval, hnode, if_neg Bool.false_ne_true]
  unfold evCall
  rw [if_neg hif]
  cases h : eval U A scope a <;> simp [evalArgs, collect, callValue, h]

theorem eval_sin : eval U A scope (.call (str "sin") [a]) = (eval U A scope a).map A.sin := by
  have hnode : isNodeFunc U (str "sin") = false := by simp [isNodeFunc, matchesNodeFunc, str]
  have hif : str "sin" ≠ str "if" := by decide
  have hfloor : str "sin" ≠ str "floor" := by decide
  rw [eval, hnode, if_neg Bool.false_ne_true]
  unfold evCall
  rw [if_neg hif]
  cases h : eval U A scope a <;> simp [evalArgs, collect, callValue, h, hfloor]

theorem eval_exp : eval U A scope (.call (str "exp") [a]) = (eval U A scope a).map A.exp := by
  have hnode : isNodeFunc U (str "exp") = false := by simp [isNodeFunc, matchesNodeFunc, str]
  have hif : str "exp" ≠ str "if" := by decide
  have hfloor : str "exp" ≠ str "floor" := by decide
  have hsin : str "exp" ≠ str "sin" := by decide
  rw [eval, hnode, if_neg Bool.false_ne_true]
  unfold evCall
  rw [if_neg hif]
  cases h : eval U A scope a <;> simp [evalArgs, collect, callValue, h, hfloor, hsin]

end Values

/-! ## The choice on the delay -/

omit [Field K] [LinearOrder K] [FloorRing K] in
theorem eq_num_of_number {e : Expr K} {v : K} (h : e.number = some v) : e = .num v := by
  cases e with
  | num value =>
    obtain rfl := Option.some.inj h
    rfl
  | _ => cases h

/-- The first value up to the start, and then the waveform. -/
theorem eval_before {td first got : Expr K} {d : K} {inside : Expr K → Option (Expr K)}
    (htd : eval U A scope td = some d) (hgot : inside (fold U A (.neg td)) = some got) :
    (before U A (some td) (some first) inside).bind (eval U A scope) =
      if 0 ≤ d then eval U A scope first else eval U A scope got := by
  rw [before]
  cases hnum : td.number with
  | some v =>
    obtain rfl := eq_num_of_number hnum
    obtain rfl : v = d := Option.some.inj (by rwa [eval] at htd)
    dsimp only
    by_cases hv : 0 ≤ v
    · rw [if_pos hv, if_pos hv, Option.bind_some]
    · rw [if_neg hv, if_neg hv, hgot]
      exact eval_fold got
  | none =>
    dsimp only
    rw [hgot]
    exact (eval_fold _).trans (eval_ge htd (by rw [eval]) first got)

theorem eval_before_some {td first : Expr K} {d : K} (inside : Expr K → Expr K) (htd : eval U A scope td = some d) :
    (before U A (some td) (some first) fun x => some (inside x)).bind (eval U A scope) =
      if 0 ≤ d then eval U A scope first else eval U A scope (inside (fold U A (.neg td))) := eval_before htd rfl

/-- The time since the start. -/
theorem eval_since {td : Expr K} {d : K} (htd : eval U A scope td = some d) :
    eval U A scope (fold U A (.neg td)) = some (0 - d) := by
  rw [eval_fold, eval_neg htd, zero_sub]

/-! ## Pulses -/

section Pulse

variable {v1 v2 tr tf pw x : Expr K} {a b r f w t : K}

theorem eval_pulseShape (hv1 : eval U A scope v1 = some a) (hv2 : eval U A scope v2 = some b)
    (htr : eval U A scope tr = some r) (htf : eval U A scope tf = some f) (hpw : eval U A scope pw = some w)
    (hx : eval U A scope x = some t) (ht : 0 ≤ t) :
    eval U A scope (pulseInside v1 v2 tr tf pw none x) = some (pulseShape a b r f w t) := by
  have htop := eval_add htr hpw
  have hlast := eval_add htop htf
  rw [pulseInside, pulseShape, eval_lt hx htr, eval_lt hx htop, eval_lt hx hlast]
  split_ifs with hrise htopTime hfall
  · have hr : r ≠ 0 := fun h0 => absurd (h0 ▸ hrise) (not_lt.mpr ht)
    have hquotient := eval_div hx htr
    rw [if_neg hr] at hquotient
    exact eval_add hv1 (eval_mul (eval_sub hv2 hv1) hquotient)
  · exact hv2
  · have hf : f ≠ 0 := fun h0 => absurd hfall (by rwa [h0, add_zero])
    have hquotient := eval_div (eval_sub hx htop) htf
    rw [if_neg hf] at hquotient
    exact eval_add hv2 (eval_mul (eval_sub hv1 hv2) hquotient)
  · exact hv1

/-- The time within the period. -/
theorem eval_period {per : Expr K} {p : K} (hx : eval U A scope x = some t) (hper : eval U A scope per = some p)
    (hp : 0 < p) : eval U A scope (.sub x (.mul per (.call (str "floor") [.div x per]))) =
      some (p * Int.fract (t / p)) := by
  have hquotient := eval_div hx hper
  rw [if_neg hp.ne'] at hquotient
  have hfloor : eval U A scope (.call (str "floor") [.div x per]) = some (⌊t / p⌋ : K) := by
    rw [eval_floor, hquotient, Option.map_some]
  rw [eval_sub hx (eval_mul hper hfloor), Int.fract, mul_sub, mul_div_cancel₀ t hp.ne']

theorem eval_pulseInside [IsStrictOrderedRing K] {src : Source K} {per : Option K}
    (hv1 : eval U A scope v1 = some a) (hv2 : eval U A scope v2 = some b)
    (htr : eval U A scope tr = some r) (htf : eval U A scope tf = some f) (hpw : eval U A scope pw = some w)
    (hper : src.optionalValue U A scope (str "per") = some per) {d : K} (hd : d < 0)
    (hx : eval U A scope x = some (0 - d)) {v : K} (hv : pulseAt a b d r f w per 0 = some v) :
    eval U A scope (pulseInside v1 v2 tr tf pw (src.args (str "per")) x) = some v := by
  have ht : 0 ≤ 0 - d := by linarith
  unfold pulseAt at hv
  rw [if_neg (not_le.mpr hd)] at hv
  rw [Source.optionalValue] at hper
  cases harg : src.args (str "per") with
  | none =>
    rw [harg] at hper
    obtain rfl := Option.some.inj hper
    rw [← hv]
    exact eval_pulseShape hv1 hv2 htr htf hpw hx ht
  | some e =>
    rw [harg] at hper
    obtain ⟨p, hp, rfl⟩ := Option.map_eq_some_iff.mp hper
    dsimp only at hv
    split_ifs at hv with hpos
    rw [← hv]
    exact eval_pulseShape hv1 hv2 htr htf hpw (eval_period hx hp hpos) (mul_nonneg hpos.le (Int.fract_nonneg _))

end Pulse

/-! ## Sines -/

section Sine

variable {vo va phase : Expr K} {o a h : K}

theorem eval_sineFirst (hvo : eval U A scope vo = some o) (hva : eval U A scope va = some a)
    (hphase : eval U A scope phase = some h) :
    eval U A scope (sineFirst U A vo (some va) (some phase)) = some (o + a * A.sin (h * (A.pi / 180))) := by
  rw [sineFirst]
  split_ifs with hzero
  · obtain rfl := eq_num_of_number (of_decide_eq_true hzero)
    obtain rfl : (0 : K) = h := Option.some.inj (by rwa [eval] at hphase)
    rw [hvo, zero_mul, A.sin_zero, mul_zero, add_zero]
  · have harg := eval_mul (A := A) hphase (eval_num (A.pi / 180))
    have hcall : eval U A scope (.call (str "sin") [.mul phase (.num (A.pi / 180))]) =
        some (A.sin (h * (A.pi / 180))) := by rw [eval_sin, harg, Option.map_some]
    rw [eval_fold]
    exact eval_add hvo (eval_mul hva hcall)

theorem eval_sineAt {src : Source K} {freq theta x : Expr K} {f th t : K}
    (evo : src.args (str "vo") = some vo) (eva : src.args (str "va") = some va)
    (efreq : src.args (str "freq") = some freq) (etheta : src.args (str "theta") = some theta)
    (ephase : src.args (str "phase") = some phase) (hvo : eval U A scope vo = some o)
    (hva : eval U A scope va = some a) (hfreq : eval U A scope freq = some f)
    (htheta : eval U A scope theta = some th) (hphase : eval U A scope phase = some h)
    (hx : eval U A scope x = some t) : ∃ got, sineAt A src.args x = some got ∧ eval U A scope got =
      some (o + a * A.exp (-(th * t)) * A.sin (2 * A.pi * f * t + h * (A.pi / 180))) := by
  refine ⟨_, by rw [sineAt, evo, eva, efreq, etheta, ephase], ?_⟩
  have harg := eval_add (eval_mul (eval_mul (@eval_num _ _ _ _ U A scope (2 * A.pi)) hfreq) hx)
    (eval_mul hphase (eval_num (A.pi / 180)))
  have hsin := (eval_sin (A := A)).trans (congrArg (Option.map A.sin) harg)
  have hexp := (eval_exp (A := A)).trans (congrArg (Option.map A.exp) (eval_neg (eval_mul htheta hx)))
  exact eval_add hvo (eval_mul (eval_mul hva hexp) hsin)

end Sine

/-! ## Exponentials -/

section Exponential

variable {v1 v2 tau td2 tau1 tau2 x : Expr K} {a b c t : K}

/-- `up` and `down` of `_exp_t0`, with the argument of the exponential. -/
theorem eval_charge {arg : Expr K} (htau : eval U A scope tau = some c)
    (harg : eval U A scope arg = if c = 0 then none else some (-(t / c))) :
    eval U A scope (if isZero tau then .num 1 else .sub (.num 1) (.call (str "exp") [arg])) =
      if c = 0 ∧ tau.number ≠ some 0 then none else some (charge A t c) := by
  by_cases hzero : tau.number = some 0
  · obtain rfl := eq_num_of_number hzero
    obtain rfl : (0 : K) = c := Option.some.inj (by rwa [eval] at htau)
    have hliteral : isZero (.num (0 : K)) = true := decide_eq_true rfl
    rw [if_pos hliteral, if_neg fun h => h.2 rfl, charge, if_pos rfl, eval]
  · have hnot : isZero tau ≠ true := fun h => hzero (of_decide_eq_true h)
    rw [if_neg hnot]
    have hcall := @eval_exp _ _ _ _ U A scope arg
    by_cases hc : c = 0
    · rw [harg, if_pos hc] at hcall
      rw [if_pos ⟨hc, hzero⟩]
      exact eval_right_none (by decide) hcall
    · rw [harg, if_neg hc] at hcall
      rw [if_neg fun h => hc h.1, charge, if_neg hc]
      exact eval_sub (eval_num 1) hcall

theorem eval_expInside {d c1 c2 : K} (hv1 : eval U A scope v1 = some a) (hv2 : eval U A scope v2 = some b)
    (htau1 : eval U A scope tau1 = some c1) (htd2 : eval U A scope td2 = some d)
    (htau2 : eval U A scope tau2 = some c2) (hx : eval U A scope x = some t) :
    eval U A scope (expInside v1 v2 tau1 td2 tau2 x) =
      if c1 = 0 ∧ tau1.number ≠ some 0 ∨ d < 0 ∧ c2 = 0 ∧ tau2.number ≠ some 0 then none
      else some (a + (b - a) * charge A t c1 + if d < 0 then (a - b) * charge A (0 - d) c2 else 0) := by
  have hup := @eval_charge _ _ _ _ U A scope tau1 c1 t (.neg (.div x tau1)) htau1 (by
    by_cases hc : c1 = 0
    · have hdiv := eval_div (A := A) hx htau1
      rw [if_pos hc] at hdiv ⊢
      simp [Expr.neg, eval, hdiv]
    · have hdiv := eval_div (A := A) hx htau1
      rw [if_neg hc] at hdiv ⊢
      exact eval_neg hdiv)
  have hdown := @eval_charge _ _ _ _ U A scope tau2 c2 (0 - d) (.div td2 tau2) htau2 (by
    rw [eval_div htd2 htau2, zero_sub, neg_div, neg_neg])
  rw [expInside]
  generalize (if isZero tau1 then (.num 1 : Expr K) else _) = up at hup ⊢
  generalize (if isZero tau2 then (.num 1 : Expr K) else _) = down at hdown ⊢
  rw [eval_lt htd2 (eval_num 0)]
  by_cases hhidden : c1 = 0 ∧ tau1.number ≠ some 0
  · rw [if_pos hhidden] at hup
    rw [if_pos (Or.inl hhidden)]
    have hrise : eval U A scope (.add v1 (.mul (.sub v2 v1) up)) = none :=
      eval_right_none (by decide) (eval_right_none (by decide) hup)
    split_ifs
    · rw [Expr.add, eval, hrise]
      rfl
    · exact hrise
  · rw [if_neg hhidden] at hup
    have hrise := eval_add hv1 (eval_mul (eval_sub hv2 hv1) hup)
    by_cases hd : d < 0
    · by_cases hhidden2 : c2 = 0 ∧ tau2.number ≠ some 0
      · rw [if_pos hhidden2] at hdown
        rw [if_pos hd, if_pos (Or.inr ⟨hd, hhidden2⟩)]
        exact eval_right_none (by decide) (eval_right_none (by decide) hdown)
      · rw [if_neg hhidden2] at hdown
        rw [if_pos hd, if_neg (fun h => h.elim hhidden fun h => hhidden2 h.2), if_pos hd]
        exact eval_add hrise (eval_mul (eval_sub hv1 hv2) hdown)
    · rw [if_neg hd, if_neg (fun h => h.elim hhidden fun h => hd h.1), if_neg hd, add_zero]
      exact hrise

end Exponential

/-! ## Piecewise linear waveforms -/

section Pwl

variable [IsStrictOrderedRing K]

/-- A point and its values, with the delay `d`. -/
def Point (U : UnicodeData) (A : Arith K) (scope : Str → Option K) (d : K) (e : Expr K × Expr K) (q : K × K) : Prop :=
  eval U A scope e.1 = some (q.1 + d) ∧ eval U A scope e.2 = some q.2

variable {d : K} {p q : K × K} {e e' : Expr K × Expr K} {points : List (Expr K × Expr K)} {values : List (K × K)}

omit [FloorRing K] in
/-- A segment that begins before 0 and does not end before it. -/
theorem segment_eq (h0 : p.1 + d < 0) (h1 : 0 ≤ q.1 + d) : q.1 + d - (p.1 + d) ≠ 0 ∧
    -(p.1 + d) / (q.1 + d - (p.1 + d)) = (0 - d - p.1) / (q.1 - p.1) := by
  refine ⟨(sub_pos.mpr (h0.trans_le h1)).ne', ?_⟩
  congr 1 <;> ring

theorem eval_nestedFrom (hp : Point U A scope d e p) (hpoints : List.Forall₂ (Point U A scope d) points values)
    (h0 : p.1 + d < 0) : eval U A scope (nestedFrom e points) = some (interpolate p values (0 - d)) := by
  induction hpoints generalizing e p with
  | nil => exact hp.2
  | @cons e' q points values hq _ ih =>
    rw [nestedFrom, interpolate, eval_le (eval_num 0) hq.1]
    by_cases h1 : 0 ≤ q.1 + d
    · obtain ⟨hne, hquotient⟩ := segment_eq h0 h1
      have hdiv := eval_div (eval_neg hp.1) (eval_sub hq.1 hp.1)
      rw [if_neg hne, hquotient] at hdiv
      rw [if_pos h1, if_pos (by linarith)]
      exact eval_add hp.2 (eval_mul (eval_sub hq.2 hp.2) hdiv)
    · rw [if_neg h1, if_neg (by linarith)]
      exact ih hq (not_le.mp h1)

/-- The same for times that are numbers. -/
theorem eval_constantFrom {c : K × Expr K} {cs : List (K × Expr K)}
    (hp : c.1 = p.1 + d ∧ eval U A scope c.2 = some p.2)
    (hpoints : List.Forall₂ (fun c q => c.1 = q.1 + d ∧ eval U A scope c.2 = some q.2) cs values) (h0 : p.1 + d < 0) :
    eval U A scope (constantFrom U A c cs) = some (interpolate p values (0 - d)) := by
  induction hpoints generalizing c p with
  | nil => exact hp.2
  | @cons c' q cs values hq _ ih =>
    obtain ⟨t0, y0⟩ := c
    obtain ⟨t1, y1⟩ := c'
    obtain ⟨rfl, hy0⟩ := hp
    obtain ⟨rfl, hy1⟩ := hq
    rw [constantFrom, interpolate]
    by_cases h1 : 0 ≤ q.1 + d
    · obtain ⟨hne, hquotient⟩ := segment_eq h0 h1
      rw [if_pos h1, if_pos (by linarith : 0 - d ≤ q.1), if_pos (sub_ne_zero.mp hne), eval_fold, zero_sub (p.1 + d),
        hquotient]
      exact eval_add hy0 (eval_mul (eval_sub hy1 hy0) (eval_num _))
    · rw [if_neg h1, if_neg (by linarith)]
      exact ih ⟨rfl, hy1⟩ (not_le.mp h1)

omit [IsStrictOrderedRing K] in
theorem eval_delayed {td : Option (Expr K)} {o : Option K}
    (htd : (match td with | none => some none | some e => (eval U A scope e).map some) = some o) {t : Expr K} {x : K}
    (ht : eval U A scope t = some x) : eval U A scope (delayed U A td t) = some (x + o.getD 0) := by
  cases td with
  | none =>
    obtain rfl := Option.some.inj htd
    rw [delayed, ht, Option.getD_none, add_zero]
  | some td =>
    obtain ⟨d, hd, rfl⟩ := Option.map_eq_some_iff.mp htd
    rw [delayed, Option.getD_some]
    split_ifs with hzero
    · obtain rfl := eq_num_of_number (of_decide_eq_true hzero)
      obtain rfl : (0 : K) = d := Option.some.inj (by rwa [eval] at hd)
      rw [ht, add_zero]
    · rw [eval_fold, eval_add ht hd]

theorem eval_pwlT0 {src : Source K} {o : Option K} {v : K} (htd : src.optionalValue U A scope (str "td") = some o)
    (hpoints : src.pointValues U A scope = some values) (hv : pwlAt values (0 - o.getD 0) = some v) :
    (pwlT0 U A src.points (src.args (str "td"))).bind (eval U A scope) = some v := by
  have hall : List.Forall₂ (Point U A scope (o.getD 0))
      (src.points.map fun p => (delayed U A (src.args (str "td")) p.1, p.2)) values := by
    rw [List.forall₂_map_left_iff]
    refine (Traverse.mapM_forall₂ hpoints).imp fun e q h => ?_
    obtain ⟨t, ht, h⟩ := Option.bind_eq_some_iff.mp h
    obtain ⟨y, hy, rfl⟩ := Option.map_eq_some_iff.mp h
    exact ⟨eval_delayed htd ht, hy⟩
  rw [pwlT0]
  generalize (src.points.map fun p => (delayed U A (src.args (str "td")) p.1, p.2)) = points at hall
  cases hall with
  | nil => cases hv
  | @cons e p points values hp hrest =>
    obtain rfl := Option.some.inj hv
    dsimp only
    have hsign : 0 - o.getD 0 ≤ p.1 ↔ 0 ≤ p.1 + o.getD 0 := by
      constructor <;> intro h <;> linarith
    by_cases hfirst : ∃ x, e.1.number = some x ∧ 0 ≤ x
    · obtain ⟨x, hx, h0⟩ := id hfirst
      have heval := hp.1
      rw [eq_num_of_number hx, eval] at heval
      rw [if_pos hfirst, if_pos (hsign.mpr (Option.some.inj heval ▸ h0))]
      exact hp.2
    · rw [if_neg hfirst]
      cases hm : (e :: points).mapM fun p => p.1.number.map (·, p.2) with
      | none =>
        dsimp only
        rw [Option.bind_some, eval_fold, eval_ge hp.1 (eval_num 0)]
        by_cases h0 : 0 ≤ p.1 + o.getD 0
        · rw [if_pos h0, if_pos (hsign.mpr h0)]
          exact hp.2
        · rw [if_neg h0, if_neg fun h => h0 (hsign.mp h)]
          exact eval_nestedFrom hp hrest (not_le.mp h0)
      | some cs =>
        have hcs : List.Forall₂ (fun e c => e.1.number = some c.1 ∧ e.2 = c.2) (e :: points) cs :=
          (Traverse.mapM_forall₂ hm).imp fun e c h => by
            obtain ⟨x, hx, rfl⟩ := Option.map_eq_some_iff.mp h
            exact ⟨hx, rfl⟩
        have hpoint : ∀ {e : Expr K × Expr K} {c : K × Expr K} {q : K × K}, (e.1.number = some c.1 ∧ e.2 = c.2) →
            Point U A scope (o.getD 0) e q → c.1 = q.1 + o.getD 0 ∧ eval U A scope c.2 = some q.2 := by
          intro e c q hc hq
          have heval := hq.1
          rw [eq_num_of_number hc.1, eval] at heval
          exact ⟨Option.some.inj heval, hc.2 ▸ hq.2⟩
        cases hcs with
        | @cons _ c _ cs hc hcs =>
          have hneg : p.1 + o.getD 0 < 0 := not_le.mp fun h0 => hfirst ⟨c.1, hc.1, (hpoint hc hp).1 ▸ h0⟩
          rw [if_neg fun h => absurd (hsign.mp h) (not_le.mpr hneg)]
          refine eval_constantFrom (hpoint hc hp) ?_ hneg
          exact Traverse.forall₂_of_common hcs hrest fun _ _ _ => hpoint

end Pwl

/-! ## The value at time 0 -/

namespace Source

variable {src : Source K}

theorem exists_of_value {k : Str} {x : K} (h : src.value U A scope k = some x) :
    ∃ e, src.args k = some e ∧ eval U A scope e = some x := Option.bind_eq_some_iff.mp h

/-- A hidden zero, for a field with an expression and a value. -/
theorem hiddenZero_iff {k : Str} {e : Expr K} {x : K} (harg : src.args k = some e) (hx : eval U A scope e = some x) :
    src.HiddenZero U A scope k ↔ x = 0 ∧ e.number ≠ some 0 := by
  rw [HiddenZero, value, numv, harg, Option.bind_some, Option.bind_some, hx, Option.some.injEq]

end Source

variable [IsStrictOrderedRing K] {src : Source K}

omit [IsStrictOrderedRing K] in
theorem not_dividesByZero {w : Wave} (hwave : src.wave = some w) (hw : w ≠ .exp) : ¬src.DividesByZero U A scope :=
  fun h => hw (Option.some.inj (hwave.symm.trans h.1))

/-- The expression of `wave_t0` has the waveform's value at time 0, unless a time constant that it divides by is a hidden
    zero. -/
theorem waveT0_iff {v : K} (hv : src.valueAt U A scope 0 = some v) :
    (waveT0 U A src).bind (eval U A scope) = some v ↔ ¬src.DividesByZero U A scope := by
  rw [Source.valueAt] at hv
  rw [waveT0]
  split at hv
  · rename_i hwave
    refine iff_of_true ?_ (not_dividesByZero hwave nofun)
    simp only [Option.bind_eq_bind, Option.bind_eq_some_iff] at hv
    obtain ⟨a, hv1, b, hv2, d, htd, r, htr, f, htf, w, hpw, per, hper, hv⟩ := hv
    obtain ⟨v1, ev1, hv1⟩ := Source.exists_of_value hv1
    obtain ⟨v2, ev2, hv2⟩ := Source.exists_of_value hv2
    obtain ⟨td, etd, htd⟩ := Source.exists_of_value htd
    obtain ⟨tr, etr, htr⟩ := Source.exists_of_value htr
    obtain ⟨tf, etf, htf⟩ := Source.exists_of_value htf
    obtain ⟨pw, epw, hpw⟩ := Source.exists_of_value hpw
    simp only [hwave, pulseT0, ev1, ev2, etd, etr, etf, epw]
    rw [eval_before_some _ htd]
    by_cases hd : 0 ≤ d
    · unfold pulseAt at hv
      rw [if_pos hd] at hv ⊢
      exact hv1.trans hv
    · rw [if_neg hd]
      exact eval_pulseInside hv1 hv2 htr htf hpw hper (not_le.mp hd) (eval_since htd) hv
  · rename_i hwave
    refine iff_of_true ?_ (not_dividesByZero hwave nofun)
    simp only [Option.bind_eq_bind, Option.bind_eq_some_iff] at hv
    obtain ⟨o, hvo, a, hva, f, hfreq, d, htd, th, htheta, h, hphase, hv⟩ := hv
    obtain ⟨vo, evo, hvo⟩ := Source.exists_of_value hvo
    obtain ⟨va, eva, hva⟩ := Source.exists_of_value hva
    obtain ⟨freq, efreq, hfreq⟩ := Source.exists_of_value hfreq
    obtain ⟨td, etd, htd⟩ := Source.exists_of_value htd
    obtain ⟨theta, etheta, htheta⟩ := Source.exists_of_value htheta
    obtain ⟨phase, ephase, hphase⟩ := Source.exists_of_value hphase
    obtain ⟨got, hgot, heval⟩ := eval_sineAt evo eva efreq etheta ephase hvo hva hfreq htheta hphase (eval_since htd)
    simp only [hwave, evo, eva, etd, ephase]
    rw [eval_before htd hgot, ← hv, sinAt]
    by_cases hd : 0 ≤ d
    · rw [if_pos hd, if_pos hd]
      exact eval_sineFirst hvo hva hphase
    · rw [if_neg hd, if_neg hd]
      exact heval
  · rename_i hwave
    simp only [Option.bind_eq_bind, Option.bind_eq_some_iff] at hv
    obtain ⟨a, hv1, b, hv2, d1, htd1, c1, htau1, d2, htd2, c2, htau2, hv⟩ := hv
    obtain ⟨v1, ev1, hv1⟩ := Source.exists_of_value hv1
    obtain ⟨v2, ev2, hv2⟩ := Source.exists_of_value hv2
    have hdelay1 := htd1
    obtain ⟨td1, etd1, htd1⟩ := Source.exists_of_value htd1
    obtain ⟨tau1, etau1, htau1⟩ := Source.exists_of_value htau1
    have hdelay2 := htd2
    obtain ⟨td2, etd2, htd2⟩ := Source.exists_of_value htd2
    obtain ⟨tau2, etau2, htau2⟩ := Source.exists_of_value htau2
    have hdivides : src.DividesByZero U A scope ↔
        d1 < 0 ∧ (c1 = 0 ∧ tau1.number ≠ some 0 ∨ d2 < 0 ∧ c2 = 0 ∧ tau2.number ≠ some 0) := by
      rw [Source.DividesByZero, Source.hiddenZero_iff etau1 htau1, Source.hiddenZero_iff etau2 htau2, hdelay1, hdelay2]
      simp [hwave]
    simp only [hwave, expT0, ev1, ev2, etd1, etau1, etd2, etau2]
    rw [eval_before_some _ htd1, hdivides, ← hv, expAt]
    by_cases hd : 0 ≤ d1
    · rw [if_pos hd, if_pos hd]
      exact iff_of_true hv1 fun h => absurd h.1 (not_lt.mpr hd)
    · rw [if_neg hd, if_neg hd, eval_expInside hv1 hv2 htau1 htd2 htau2 (eval_since htd1)]
      by_cases hhidden : c1 = 0 ∧ tau1.number ≠ some 0 ∨ d2 < 0 ∧ c2 = 0 ∧ tau2.number ≠ some 0
      · rw [if_pos hhidden]
        exact iff_of_false nofun fun h => h ⟨not_le.mp hd, hhidden⟩
      · rw [if_neg hhidden]
        exact iff_of_true rfl fun h => hhidden h.2
  · rename_i hwave
    refine iff_of_true ?_ (not_dividesByZero hwave nofun)
    simp only [Option.bind_eq_bind, Option.bind_eq_some_iff] at hv
    obtain ⟨o, htd, values, hpoints, hv⟩ := hv
    simp only [hwave]
    exact eval_pwlT0 htd hpoints hv
  · cases hv

/-! ## Sources that have a value -/

omit [Field K] [LinearOrder K] [FloorRing K] [IsStrictOrderedRing K] in
omit [FloorRing K] [IsStrictOrderedRing K] in
omit [IsStrictOrderedRing K] in
/-! ## Two sources -/

/-- The reals, with no powers and no functions but these. -/
noncomputable def reals : Arith ℝ where
  pi := Real.pi
  sin := Real.sin
  sin_zero := Real.sin_zero
  exp := Real.exp
  binary := fun _ _ _ => none
  call := fun _ _ => none
  repr := fun _ => []

/-- A rise from 0 to 1 that started before time 0. -/
def risen (tau1 : Expr ℝ) : Source ℝ where
  wave := some .exp
  args := fun k => List.lookup k [(str "v1", .num 0), (str "v2", .num 1), (str "td1", .num (-1)), (str "tau1", tau1),
    (str "td2", .num 1), (str "tau2", .num 1)]
  points := []

/-- The parameter `p` is 0. -/
def pZero : Str → Option ℝ := fun name => if name = str "p" then some 0 else none

theorem risen_field {tau1 e : Expr ℝ} {k : Str} {x : ℝ} (he : (risen tau1).args k = some e)
    (hx : eval .small reals pZero e = some x) : (risen tau1).value .small reals pZero k = some x := by
  rw [Source.value, he, Option.bind_some, hx]

theorem risen_value {tau1 : Expr ℝ} (h : eval .small reals pZero tau1 = some 0) :
    (risen tau1).valueAt .small reals pZero 0 = some 1 := by
  have hv1 : (risen tau1).value .small reals pZero (str "v1") = some 0 := risen_field rfl (eval_num 0)
  have hv2 : (risen tau1).value .small reals pZero (str "v2") = some 1 := risen_field rfl (eval_num 1)
  have htd1 : (risen tau1).value .small reals pZero (str "td1") = some (-1) := risen_field rfl (eval_num (-1))
  have htau1 : (risen tau1).value .small reals pZero (str "tau1") = some 0 := risen_field rfl h
  have htd2 : (risen tau1).value .small reals pZero (str "td2") = some 1 := risen_field rfl (eval_num 1)
  have htau2 : (risen tau1).value .small reals pZero (str "tau2") = some 1 := risen_field rfl (eval_num 1)
  have hwave : (risen tau1).wave = some .exp := rfl
  rw [Source.valueAt]
  simp only [hwave, hv1, hv2, htd1, htau1, htd2, htau2, Option.bind_eq_bind, Option.bind_some]
  norm_num [expAt, charge]

/-- The number 0 is seen to be 0. -/
theorem risen_zero : (waveT0 .small reals (risen (.num 0))).bind (eval .small reals pZero) = some 1 := by
  refine (waveT0_iff (risen_value (eval_num 0))).mpr fun h => ?_
  rcases h.2.2 with hhidden | ⟨⟨d, hd, hneg⟩, -⟩
  · exact hhidden.2 rfl
  · have htd2 : (risen (.num 0)).value .small reals pZero (str "td2") = some 1 := risen_field rfl (eval_num 1)
    obtain rfl := Option.some.inj (htd2.symm.trans hd)
    exact absurd hneg (by norm_num)

/-- The parameter `p` is not. -/
theorem risen_parameter : (∃ fields, wave reals (risen (.name (str "p"))) (str "V1") = .ok fields) ∧
    (risen (.name (str "p"))).valueAt .small reals pZero 0 = some 1 ∧
    (waveT0 .small reals (risen (.name (str "p")))).bind (eval .small reals pZero) ≠ some 1 := by
  have hp : eval .small reals pZero (.name (str "p")) = some 0 := by
    have hreserved : str "p" ∉ reserved := by decide
    rw [eval, if_neg hreserved, pZero, if_pos rfl]
  have hvalue := risen_value hp
  refine ⟨?_, hvalue, fun h => ?_⟩
  · have hnumbers : ¬(1 : ℝ) ≤ -1 := by norm_num
    have hcheck : (risen (.name (str "p"))).check reals (str "V1") .exp = .ok () := if_neg hnumbers
    have hwave : (risen (.name (str "p"))).wave = some .exp := rfl
    refine ⟨[(str "v1", .num 0), (str "v2", .num 1), (str "td1", .num (-1)), (str "tau1", .name (str "p")),
      (str "td2", .num 1), (str "tau2", .num 1)], ?_⟩
    rw [wave, hwave]
    dsimp only
    rw [hcheck]
    rfl
  · have htd1 : (risen (.name (str "p"))).value .small reals pZero (str "td1") = some (-1) :=
      risen_field rfl (eval_num (-1))
    exact (waveT0_iff hvalue).mp h ⟨rfl, ⟨-1, htd1, by norm_num⟩, .inl ⟨hp, nofun⟩⟩

end Vamos.Waves
