import Mathlib.Data.List.Perm.Basic
import Mathlib.Tactic

/-!
# Resolution of `logic_3d`

The resolution function of `packages/sv_primitives/logic_3d.vhd`, and what it makes of the drivers of
a net when they are resolved at once, in another order, or in stages.
-/

namespace Packages

/-! ## The type -/

/-- `logic_3d_t` -/
structure Logic3d where
  value : Bool
  strength : Bool
  uncertain : Bool
  deriving DecidableEq, Repr

def l3d0 : Logic3d := ⟨false, true, false⟩
def l3d1 : Logic3d := ⟨true, true, false⟩
def l3dX : Logic3d := ⟨false, true, true⟩
def l3dZ : Logic3d := ⟨false, false, true⟩
def l3dL : Logic3d := ⟨false, false, false⟩
def l3dH : Logic3d := ⟨true, false, false⟩
def l3dW : Logic3d := ⟨true, false, true⟩

/-! ## The resolution function -/

/-- The variables of the scan. -/
structure Scan where
  hasStrong : Bool
  strongVal : Bool
  hasWeak : Bool
  weakVal : Bool
  strongConflict : Bool
  weakConflict : Bool

def Scan.init : Scan := ⟨false, false, false, false, false, false⟩

/-- One driver of the loop. -/
def Scan.step (f : Scan) (d : Logic3d) : Scan :=
  if !d.uncertain then
    if d.strength then
      if f.hasStrong then
        if f.strongVal ≠ d.value then { f with strongConflict := true } else f
      else { f with hasStrong := true, strongVal := d.value }
    else
      if f.hasWeak then
        if f.weakVal ≠ d.value then { f with weakConflict := true } else f
      else { f with hasWeak := true, weakVal := d.value }
  else if d.strength then { f with strongConflict := true, hasStrong := true }
  -- a weak unknown leaves the variables as they are
  else f

def Scan.result (f : Scan) : Logic3d :=
  if f.strongConflict then l3dX
  else if f.hasStrong then ⟨f.strongVal, true, false⟩
  else if f.weakConflict then l3dW
  else if f.hasWeak then ⟨f.weakVal, false, false⟩
  else l3dZ

def resolved (s : List Logic3d) : Logic3d :=
  if s.length = 0 then l3dZ else (s.foldl Scan.step Scan.init).result

/-! ## What the drivers pull to -/

/-- A known driver pulls to its value; a strong unknown pulls to both. -/
def Logic3d.pulls (d : Logic3d) (strong v : Bool) : Bool :=
  if d.uncertain then d.strength && strong else d.strength == strong && d.value == v

def pulled (s : List Logic3d) (strong v : Bool) : Bool := s.any (·.pulls strong v)

/-- The value of a net from what is pulled: the strong drivers decide, if there are any. -/
def verdict (p : Bool → Bool → Bool) : Logic3d :=
  if p true false && p true true then l3dX
  else if p true false || p true true then ⟨p true true, true, false⟩
  else if p false false && p false true then l3dW
  else if p false false || p false true then ⟨p false true, false, false⟩
  else l3dZ

/-- What the three variables for one strength say of the values pulled to so far. -/
def Tracks (has val conflict low high : Bool) : Prop :=
  has = (low || high) ∧ conflict = (low && high) ∧ (has = true → conflict = false → val = high)

instance (has val conflict low high : Bool) : Decidable (Tracks has val conflict low high) :=
  inferInstanceAs (Decidable (_ ∧ _ ∧ _))

theorem Tracks.first {val conflict low high : Bool} (v : Bool)
    (h : Tracks false val conflict low high) : Tracks true v conflict (low || !v) (high || v) := by
  revert val conflict low high v
  decide

-- with a conflict both values are pulled to already, else `val` is the only one
theorem Tracks.same {val conflict low high : Bool} (h : Tracks true val conflict low high) :
    Tracks true val conflict (low || !val) (high || val) := by
  revert val conflict low high
  decide

theorem Tracks.differ {val conflict low high v : Bool} (h : Tracks true val conflict low high)
    (hv : val ≠ v) : Tracks true val true (low || !v) (high || v) := by
  revert val conflict low high v
  decide

/-- The variables of the scan against what is pulled. -/
structure Scan.Holds (f : Scan) (p : Bool → Bool → Bool) : Prop where
  strong : Tracks f.hasStrong f.strongVal f.strongConflict (p true false) (p true true)
  weak : Tracks f.hasWeak f.weakVal f.weakConflict (p false false) (p false true)

theorem Scan.Holds.init : Scan.init.Holds (pulled []) := by
  constructor <;> decide

theorem pulled_append (s t : List Logic3d) (strong v : Bool) :
    pulled (s ++ t) strong v = (pulled s strong v || pulled t strong v) := by
  unfold pulled
  rw [List.any_append]

theorem pulled_known (value strength strong v : Bool) :
    pulled [⟨value, strength, false⟩] strong v = (strength == strong && value == v) := by
  simp [pulled, Logic3d.pulls]

theorem pulled_unknown (value strength strong v : Bool) :
    pulled [⟨value, strength, true⟩] strong v = (strength && strong) := by
  simp [pulled, Logic3d.pulls]

/-- A driver is seen by the variables of its own strength, and by no others. -/
theorem Scan.Holds.step {f : Scan} {s : List Logic3d} (h : f.Holds (pulled s)) (d : Logic3d) :
    (f.step d).Holds (pulled (s ++ [d])) := by
  obtain ⟨value, strength, uncertain⟩ := d
  have hs := h.strong
  have hw := h.weak
  cases uncertain <;> cases strength
  · -- a known weak driver
    constructor
    · rw [pulled_append, pulled_append, pulled_known, pulled_known]
      unfold Scan.step
      by_cases hhas : f.hasWeak = true <;> by_cases hval : f.weakVal = value <;>
        simpa [hhas, hval] using hs
    · rw [pulled_append, pulled_append, pulled_known, pulled_known]
      unfold Scan.step
      by_cases hhas : f.hasWeak = true
      · rw [hhas] at hw
        by_cases hval : f.weakVal = value
        · simpa [hhas, hval] using hval ▸ hw.same
        · simpa [hhas, hval] using hw.differ hval
      · simp only [Bool.not_eq_true] at hhas
        rw [hhas] at hw
        simpa [hhas] using hw.first value
  · -- a known strong driver
    constructor
    · rw [pulled_append, pulled_append, pulled_known, pulled_known]
      unfold Scan.step
      by_cases hhas : f.hasStrong = true
      · rw [hhas] at hs
        by_cases hval : f.strongVal = value
        · simpa [hhas, hval] using hval ▸ hs.same
        · simpa [hhas, hval] using hs.differ hval
      · simp only [Bool.not_eq_true] at hhas
        rw [hhas] at hs
        simpa [hhas] using hs.first value
    · rw [pulled_append, pulled_append, pulled_known, pulled_known]
      unfold Scan.step
      by_cases hhas : f.hasStrong = true <;> by_cases hval : f.strongVal = value <;>
        simpa [hhas, hval] using hw
  · -- a weak unknown
    constructor <;> rw [pulled_append, pulled_append, pulled_unknown, pulled_unknown]
    · simpa [Scan.step] using hs
    · simpa [Scan.step] using hw
  · -- a strong unknown pulls to both values
    constructor <;> rw [pulled_append, pulled_append, pulled_unknown, pulled_unknown]
    · simp [Scan.step, Tracks]
    · simpa [Scan.step] using hw

theorem scan_holds (s : List Logic3d) : (s.foldl Scan.step Scan.init).Holds (pulled s) := by
  induction s using List.reverseRecOn with
  | nil => exact Scan.Holds.init
  | append_singleton s d ih =>
    rw [List.foldl_append]
    exact ih.step d

theorem Scan.Holds.result {f : Scan} {p : Bool → Bool → Bool} (h : f.Holds p) :
    f.result = verdict p := by
  obtain ⟨⟨hhas, hconflict, hval⟩, ⟨hhas', hconflict', hval'⟩⟩ := h
  unfold Scan.result verdict
  rw [← hhas, ← hconflict, ← hhas', ← hconflict']
  by_cases hc : f.strongConflict = true
  · simp [hc]
  · by_cases hh : f.hasStrong = true
    · simp [hc, hh, hval hh (by simpa using hc)]
    · by_cases hc' : f.weakConflict = true
      · simp [hc, hh, hc']
      · by_cases hh' : f.hasWeak = true
        · simp [hc, hh, hc', hh', hval' hh' (by simpa using hc')]
        · simp [hc, hh, hc', hh']

/-- The resolution function depends on what is pulled only. -/
theorem resolved_eq (s : List Logic3d) : resolved s = verdict (pulled s) := by
  unfold resolved
  split
  · next h =>
    rw [List.length_eq_zero_iff.mp h]
    rfl
  · exact (scan_holds s).result

/-! ## The laws of a resolution function -/

theorem pulled_perm {s t : List Logic3d} (h : s.Perm t) : pulled s = pulled t := by
  funext strong v
  rw [pulled, pulled, Bool.eq_iff_iff, List.any_eq_true, List.any_eq_true]
  simp only [h.mem_iff]

theorem resolved_perm {s t : List Logic3d} (h : s.Perm t) : resolved s = resolved t := by
  rw [resolved_eq, resolved_eq, pulled_perm h]

/-- The value bit of a driver that is known, or unknown with the bit clear. -/
def Logic3d.Normal (d : Logic3d) : Prop := d.uncertain = true → d.value = false

theorem resolved_single (d : Logic3d) : resolved [d] = d ↔ d.Normal := by
  obtain ⟨value, strength, uncertain⟩ := d
  unfold Logic3d.Normal
  revert value strength uncertain
  decide

/-- Some driver is strong. -/
def Strong (s : List Logic3d) : Prop := ∃ d ∈ s, d.strength = true

/-- Known weak drivers disagree. -/
def Clash (s : List Logic3d) : Prop := ∀ v, ⟨v, false, false⟩ ∈ s

theorem strong_iff (s : List Logic3d) :
    Strong s ↔ (pulled s true false || pulled s true true) = true := by
  simp only [Strong, pulled, Bool.or_eq_true, List.any_eq_true]
  constructor
  · rintro ⟨⟨value, strength, uncertain⟩, hd, rfl⟩
    cases uncertain <;> cases value
    · exact .inl ⟨_, hd, rfl⟩
    · exact .inr ⟨_, hd, rfl⟩
    · exact .inl ⟨_, hd, rfl⟩
    · exact .inl ⟨_, hd, rfl⟩
  · have hstrong : ∀ (d : Logic3d) v, d.pulls true v = true → d.strength = true := by
      intro d v
      unfold Logic3d.pulls
      cases d.uncertain <;> cases d.strength <;> simp
    rintro (⟨d, hd, h⟩ | ⟨d, hd, h⟩)
    · exact ⟨d, hd, hstrong d false h⟩
    · exact ⟨d, hd, hstrong d true h⟩

theorem clash_iff (s : List Logic3d) :
    Clash s ↔ (pulled s false false && pulled s false true) = true := by
  -- only a known weak driver pulls weakly
  have hweak : ∀ v, pulled s false v = true ↔ ⟨v, false, false⟩ ∈ s := by
    intro v
    rw [pulled, List.any_eq_true]
    constructor
    · rintro ⟨⟨value, strength, uncertain⟩, hd, h⟩
      cases uncertain <;> cases strength <;> simp_all [Logic3d.pulls]
    · intro h
      exact ⟨_, h, by simp [Logic3d.pulls]⟩
  rw [Bool.and_eq_true, hweak, hweak]
  exact ⟨fun h => ⟨h false, h true⟩, fun h v => by cases v <;> simp [h]⟩

/-- What a resolved value pulls to: the weak values are lost when they disagree, or when there is a
    strong one. -/
theorem pulled_verdict (p : Bool → Bool → Bool) (strong v : Bool) :
    pulled [verdict p] strong v =
      if strong then p true v
      else !(p true false || p true true) && !(p false false && p false true) && p false v := by
  unfold verdict
  cases strong <;> cases v <;> generalize p true false = a <;> generalize p true true = b <;>
    generalize p false false = c <;> generalize p false true = d <;> revert a b c d <;> decide

theorem resolved_append (a b : List Logic3d) :
    resolved (a ++ b) = resolved [resolved a, resolved b] ↔
      Strong (a ++ b) ∨ ¬ Clash a ∧ ¬ Clash b := by
  have hstage : ∀ strong v, pulled [resolved a, resolved b] strong v =
      (pulled [verdict (pulled a)] strong v || pulled [verdict (pulled b)] strong v) := by
    intro strong v
    rw [resolved_eq a, resolved_eq b]
    exact pulled_append [_] [_] strong v
  rw [strong_iff, clash_iff, clash_iff, resolved_eq (a ++ b), resolved_eq [_, _]]
  unfold verdict
  simp only [hstage, pulled_verdict, pulled_append]
  -- four values each that the stages pull to
  generalize pulled a true false = a₀
  generalize pulled a true true = a₁
  generalize pulled a false false = a₂
  generalize pulled a false true = a₃
  generalize pulled b true false = b₀
  generalize pulled b true true = b₁
  generalize pulled b false false = b₂
  generalize pulled b false true = b₃
  revert a₀ a₁ a₂ a₃ b₀ b₁ b₂ b₃
  decide

/-- The order never matters.  A driver resolves to itself unless it is unknown with the value bit
    set, and stages do not matter unless a clash of weak drivers is left to be resolved again. -/
theorem resolved_proper_iff (a b : List Logic3d) (d : Logic3d) :
    ((∀ s, s.Perm a → resolved s = resolved a) ∧ resolved [d] = d ∧
      resolved (a ++ b) = resolved [resolved a, resolved b]) ↔
    d.Normal ∧ (Strong (a ++ b) ∨ ¬ Clash a ∧ ¬ Clash b) := by
  rw [resolved_single, resolved_append]
  exact and_iff_right fun s hs => resolved_perm hs

/-- A weak unknown alone is lost, and so is a weak conflict that meets one more weak driver. -/
theorem not_resolved_proper :
    resolved [l3dW] = l3dZ ∧ l3dZ ≠ l3dW ∧
      resolved ([l3dL, l3dH] ++ [l3dL]) = l3dW ∧
      resolved [resolved [l3dL, l3dH], resolved [l3dL]] = l3dL ∧ l3dL ≠ l3dW := by
  decide

end Packages
