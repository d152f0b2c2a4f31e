import Sv2ghdl.Vamos.Ams.Rules

/-!
# The last rule that gives a key

What the loop of `resolve_detail` merges is, key by key, what the last applicable rule gives, and the supplies are those
of the last applicable rules that name them.
-/

open Python

namespace Vamos.Ams.Rules

/-! ## One rule's parameters -/

/-- Two keys set alike. -/
theorem update_two (m : Merged) (a b : Str) (v : Option (Str × Nat)) (key : Str) :
    Function.update (Function.update m a v) b v key = if key ∈ [a, b] then v else m key := by
  by_cases ha : key = a <;> by_cases hb : key = b <;> simp [Function.update_apply, ha, hb]

theorem mergeParam_apply (i : Nat) (m : Merged) (param : Str × Str) (key : Str) :
    mergeParam i m param key = if key ∈ targets param.1 then some (param.2, i) else m key := by
  obtain ⟨k, v⟩ := param
  unfold mergeParam targets
  dsimp only
  by_cases hnot : k ∈ notLevels
  · simp [hnot]
  · rw [if_neg hnot, if_neg hnot]
    by_cases hrf : k = str "rf_time"
    · rw [if_pos hrf, if_pos hrf, update_two]
    · rw [if_neg hrf, if_neg hrf]
      by_cases hdelay : k = str "delay"
      · rw [if_pos hdelay, if_pos hdelay, update_two]
      · rw [if_neg hdelay, if_neg hdelay]
        simp [Function.update_apply]

/-- A rule's parameters override what they set, the last one that sets a key prevailing. -/
theorem foldl_mergeParam (i : Nat) (m : Merged) (params : List (Str × Str)) (key : Str) :
    params.foldl (mergeParam i) m key =
      ((params.reverse.find? fun param => key ∈ targets param.1).map fun param => (param.2, i)).or (m key) := by
  induction params using List.reverseRecOn with
  | nil => simp
  | append_singleton params param ih =>
    rw [List.foldl_append, List.foldl_cons, List.foldl_nil, mergeParam_apply, ih]
    by_cases h : key ∈ targets param.1 <;> simp [h]

theorem foldl_params (rule : IeRule) (i : Nat) (m : Merged) (key : Str) :
    rule.params.foldl (mergeParam i) m key = ((givenBy key rule).map (·, i)).or (m key) := by
  rw [foldl_mergeParam, givenBy, Option.map_map]
  rfl

section Detail

variable (U : UnicodeData) (sameLetter : CodePoint → CodePoint → Bool)
variable (cfg : AmsConfig) (names : List Str) (ports : List Port5) (dcOf : Str → Supply) (role : Option Role)
  (subcktPorts : Option (Str → List Str))

/-! ## One rule's supplies -/

theorem supplyStep_ok (rule : IeRule) (i : Nat) (sel : List Port5) (cs : Bool) (s : SupplyState) (which : Which) :
    (supplyStep U sameLetter subcktPorts dcOf rule i sel cs true s which).ok =
      (s.ok && !(supplyOutcome dcOf (supplyName U sameLetter subcktPorts rule which sel cs)).isRefused) := by
  unfold supplyStep
  cases supplyName U sameLetter subcktPorts rule which sel cs with
  | absent => simp [supplyOutcome, Outcome.isRefused]
  | ambiguous port inst hits => simp [supplyOutcome, Outcome.isRefused]
  | named name =>
    cases name with
    | nil => simp [supplyOutcome, Outcome.isRefused]
    | cons c name => cases h : dcOf (c :: name) <;> simp [supplyOutcome, Outcome.isRefused, h]

theorem supplyStep_sup (rule : IeRule) (i : Nat) (sel : List Port5) (cs : Bool) (s : SupplyState)
    (which which' : Which) :
    (supplyStep U sameLetter subcktPorts dcOf rule i sel cs true s which).sup which' =
      if which' = which then
        (supplyOutcome dcOf (supplyName U sameLetter subcktPorts rule which sel cs)).volts?.or (s.sup which')
      else s.sup which' := by
  unfold supplyStep
  cases supplyName U sameLetter subcktPorts rule which sel cs with
  | absent => simp [supplyOutcome, Outcome.volts?]
  | ambiguous port inst hits => simp [supplyOutcome, Outcome.volts?]
  | named name =>
    cases name with
    | nil => simp [supplyOutcome, Outcome.volts?]
    | cons c name =>
      cases h : dcOf (c :: name) <;> simp [supplyOutcome, Outcome.volts?, h, Function.update_apply]

theorem supplies_ok (rule : IeRule) (i : Nat) (sel : List Port5) (cs : Bool) (s : SupplyState) :
    ([Which.vdd, Which.vss].foldl (supplyStep U sameLetter subcktPorts dcOf rule i sel cs true) s).ok =
      (s.ok && [Which.vdd, Which.vss].all fun which =>
        !(supplyOutcome dcOf (supplyName U sameLetter subcktPorts rule which sel cs)).isRefused) := by
  simp only [List.foldl_cons, List.foldl_nil, supplyStep_ok, List.all_cons, List.all_nil, Bool.and_true,
    Bool.and_assoc]

theorem supplies_sup (rule : IeRule) (i : Nat) (sel : List Port5) (cs : Bool) (s : SupplyState) (which : Which) :
    ([Which.vdd, Which.vss].foldl (supplyStep U sameLetter subcktPorts dcOf rule i sel cs true) s).sup which =
      (supplyOutcome dcOf (supplyName U sameLetter subcktPorts rule which sel cs)).volts?.or (s.sup which) := by
  simp only [List.foldl_cons, List.foldl_nil, supplyStep_sup]
  cases which <;> simp

/-! ## One rule -/

/-- A role marks the rules that it applies. -/
theorem roleKinds_subset_marks {kind : IeKind} (h : kind ∈ roleKinds role) : kind ∈ roleMarks role := by
  cases role with
  | none => exact h
  | some role => cases role <;> first | exact h | simp [roleKinds] at h

theorem applies_direction {kind : IeKind} {rule : IeRule}
    (h : applies U sameLetter cfg names ports dcOf role subcktPorts kind rule = true) : direction rule = kind := by
  simp only [applies, Bool.and_eq_true, decide_eq_true_eq] at h
  exact h.1.1.1

/-- A rule of a kind that the role does not have is marked at most. -/
theorem matchedRule_skipped (rule : IeRule) (i : Nat) (sel : List Port5) (canonical : Str) (cs : Bool) (s : Merge) :
    (matchedRule U sameLetter subcktPorts dcOf rule i sel canonical cs false s).merged = s.merged ∧
      (matchedRule U sameLetter subcktPorts dcOf rule i sel canonical cs false s).supply = s.supply := by
  simp [matchedRule]

theorem matchedRule_cases (rule : IeRule) (i : Nat) (sel : List Port5) (canonical : Str) (cs : Bool) (s : Merge) :
    let t := matchedRule U sameLetter subcktPorts dcOf rule i sel canonical cs true s
    let outcome := fun which => supplyOutcome dcOf (supplyName U sameLetter subcktPorts rule which sel cs)
    let ok := [Which.vdd, Which.vss].all fun which => !(outcome which).isRefused
    (ok = true ∧
      t.merged = Function.update s.merged (direction rule)
        (rule.params.foldl (mergeParam i) (s.merged (direction rule))) ∧
      t.supply = Function.update s.supply (direction rule) fun which =>
        ((outcome which).volts?.map (·, i)).or (s.supply (direction rule) which)) ∨
    (ok = false ∧ t.merged = s.merged ∧ t.supply = s.supply) := by
  intro t outcome ok
  have hok := supplies_ok U sameLetter dcOf subcktPorts rule i sel cs
    { hits := s.hits ++ [.rule i], notes := s.notes }
  have hsup := supplies_sup U sameLetter dcOf subcktPorts rule i sel cs
    { hits := s.hits ++ [.rule i], notes := s.notes }
  rw [Bool.true_and] at hok
  change _ = ok at hok
  have ht : t = matchedRule U sameLetter subcktPorts dcOf rule i sel canonical cs true s := rfl
  unfold matchedRule at ht
  dsimp only at ht
  rw [hok] at ht
  cases h : ok with
  | false =>
    right
    simp only [h, Bool.not_false, Bool.true_or, if_true] at ht
    rw [ht]
    exact ⟨rfl, rfl, rfl⟩
  | true =>
    left
    simp only [h, Bool.not_true, Bool.or_self, Bool.false_eq_true, if_false] at ht
    rw [ht]
    refine ⟨rfl, rfl, ?_⟩
    dsimp only
    congr 1
    funext which
    rw [hsup which, Option.or_none]

/-- What a rule does: it applies to the node and overrides what is merged for its kind, or it changes nothing. -/
theorem ruleStep_cases (s : Merge) (rule : IeRule) (i : Nat) :
    let t := ruleStep U sameLetter subcktPorts dcOf names ports (caseSensitive U cfg) role s (rule, i)
    let rk := direction rule
    (applies U sameLetter cfg names ports dcOf role subcktPorts rk rule = true ∧
      t.merged = Function.update s.merged rk (rule.params.foldl (mergeParam i) (s.merged rk)) ∧
      t.supply = Function.update s.supply rk fun which =>
        ((ruleSupply U sameLetter cfg names ports dcOf subcktPorts rule which).volts?.map (·, i)).or
          (s.supply rk which)) ∨
    (applies U sameLetter cfg names ports dcOf role subcktPorts rk rule = false ∧ t.merged = s.merged ∧
      t.supply = s.supply) := by
  intro t rk
  have ht : t = ruleStep U sameLetter subcktPorts dcOf names ports (caseSensitive U cfg) role s (rule, i) := rfl
  unfold ruleStep at ht
  dsimp only at ht
  by_cases hmark : direction rule ∈ roleMarks role
  · rw [if_neg (not_not.mpr hmark)] at ht
    cases hsel : select U sameLetter rule names ports (caseSensitive U cfg) with
    | none =>
      rw [hsel] at ht
      right
      rw [ht]
      exact ⟨by simp [applies, hsel], rfl, rfl⟩
    | some sel =>
      rw [hsel] at ht
      by_cases hkind : direction rule ∈ roleKinds role
      · have happlies : applies U sameLetter cfg names ports dcOf role subcktPorts rk rule =
            [Which.vdd, Which.vss].all fun which => !(supplyOutcome dcOf
              (supplyName U sameLetter subcktPorts rule which sel (caseSensitive U cfg))).isRefused := by
          simp [applies, ruleSupply, hsel, rk, hkind]
        simp only [hkind, decide_true] at ht
        rw [happlies, ht]
        have hsupply : ∀ which, ruleSupply U sameLetter cfg names ports dcOf subcktPorts rule which =
            supplyOutcome dcOf (supplyName U sameLetter subcktPorts rule which sel (caseSensitive U cfg)) := by
          intro which
          simp [ruleSupply, hsel]
        simp only [hsupply]
        exact matchedRule_cases U sameLetter dcOf subcktPorts rule i sel (names.headD []) (caseSensitive U cfg) s
      · right
        have hfalse : applies U sameLetter cfg names ports dcOf role subcktPorts rk rule = false := by
          simp [applies, hkind, rk]
        simp only [hkind, decide_false] at ht
        rw [ht]
        exact ⟨hfalse, matchedRule_skipped U sameLetter dcOf subcktPorts rule i sel _ _ s⟩
  · right
    rw [if_pos hmark] at ht
    have hkind : direction rule ∉ roleKinds role := fun h => hmark (roleKinds_subset_marks role h)
    rw [ht]
    exact ⟨by simp [applies, hkind, rk], rfl, rfl⟩

/-! ## All rules -/

theorem ruleStep_merged (s : Merge) (rule : IeRule) (i : Nat) (kind : IeKind) (key : Str) :
    (ruleStep U sameLetter subcktPorts dcOf names ports (caseSensitive U cfg) role s (rule, i)).merged kind key =
      if applies U sameLetter cfg names ports dcOf role subcktPorts kind rule then
        ((givenBy key rule).map (·, i)).or (s.merged kind key)
      else s.merged kind key := by
  have hcases := ruleStep_cases U sameLetter cfg names ports dcOf role subcktPorts s rule i
  by_cases hkind : direction rule = kind
  · subst hkind
    rcases hcases with ⟨happly, hmerged, -⟩ | ⟨hskip, hmerged, -⟩
    · rw [hmerged, if_pos happly, Function.update_self, foldl_params]
    · rw [hmerged, if_neg (by simp [hskip])]
  · have hother : ¬ applies U sameLetter cfg names ports dcOf role subcktPorts kind rule = true :=
      fun h => hkind (applies_direction U sameLetter cfg names ports dcOf role subcktPorts h)
    rw [if_neg hother]
    rcases hcases with ⟨-, hmerged, -⟩ | ⟨-, hmerged, -⟩
    · rw [hmerged, Function.update_of_ne (Ne.symm hkind)]
    · rw [hmerged]

theorem ruleStep_supply (s : Merge) (rule : IeRule) (i : Nat) (kind : IeKind) (which : Which) :
    (ruleStep U sameLetter subcktPorts dcOf names ports (caseSensitive U cfg) role s (rule, i)).supply kind which =
      if applies U sameLetter cfg names ports dcOf role subcktPorts kind rule then
        ((ruleSupply U sameLetter cfg names ports dcOf subcktPorts rule which).volts?.map (·, i)).or
          (s.supply kind which)
      else s.supply kind which := by
  have hcases := ruleStep_cases U sameLetter cfg names ports dcOf role subcktPorts s rule i
  by_cases hkind : direction rule = kind
  · subst hkind
    rcases hcases with ⟨happly, -, hsupply⟩ | ⟨hskip, -, hsupply⟩
    · rw [hsupply, if_pos happly, Function.update_self]
    · rw [hsupply, if_neg (by simp [hskip])]
  · have hother : ¬ applies U sameLetter cfg names ports dcOf role subcktPorts kind rule = true :=
      fun h => hkind (applies_direction U sameLetter cfg names ports dcOf role subcktPorts h)
    rw [if_neg hother]
    rcases hcases with ⟨-, -, hsupply⟩ | ⟨-, -, hsupply⟩
    · rw [hsupply, Function.update_of_ne (Ne.symm hkind)]
    · rw [hsupply]

/-- A search from the end of a list that one more element is put to. -/
theorem findSome?_reverse_filter_append {α β : Type} (p : α → Bool) (f : α → Option β) (xs : List α) (x : α) :
    ((xs ++ [x]).filter p).reverse.findSome? f =
      if p x then (f x).or ((xs.filter p).reverse.findSome? f) else (xs.filter p).reverse.findSome? f := by
  cases h : p x with
  | false => simp [h]
  | true => cases hf : f x <;> simp [h, hf]

/-- After all rules a key has the value that the last applicable rule which gives it gives it. -/
theorem foldl_merged (rules : List (IeRule × Nat)) (s : Merge) (hs : s.merged = fun _ _ => none) (kind : IeKind)
    (key : Str) :
    ((rules.foldl (ruleStep U sameLetter subcktPorts dcOf names ports (caseSensitive U cfg) role) s).merged
        kind key).map Prod.fst =
      lastGiven ((rules.map Prod.fst).filter (applies U sameLetter cfg names ports dcOf role subcktPorts kind)) key := by
  induction rules using List.reverseRecOn with
  | nil => simp [hs, lastGiven]
  | append_singleton rules rule ih =>
    obtain ⟨rule, i⟩ := rule
    rw [List.foldl_append, List.foldl_cons, List.foldl_nil, ruleStep_merged, lastGiven, List.map_append,
      List.map_singleton, findSome?_reverse_filter_append, ← lastGiven, ← ih]
    split_ifs
    · cases givenBy key rule <;> rfl
    · rfl

/-- After all rules a supply has the voltage that the last applicable rule which names it found. -/
theorem foldl_supply (rules : List (IeRule × Nat)) (s : Merge) (hs : s.supply = fun _ _ => none) (kind : IeKind)
    (which : Which) :
    ((rules.foldl (ruleStep U sameLetter subcktPorts dcOf names ports (caseSensitive U cfg) role) s).supply
        kind which).map Prod.fst =
      lastVolts U sameLetter cfg names ports dcOf subcktPorts
        ((rules.map Prod.fst).filter (applies U sameLetter cfg names ports dcOf role subcktPorts kind)) which := by
  induction rules using List.reverseRecOn with
  | nil => simp [hs, lastVolts]
  | append_singleton rules rule ih =>
    obtain ⟨rule, i⟩ := rule
    rw [List.foldl_append, List.foldl_cons, List.foldl_nil, ruleStep_supply, lastVolts, List.map_append,
      List.map_singleton, findSome?_reverse_filter_append, ← lastVolts, ← ih]
    split_ifs
    · cases (ruleSupply U sameLetter cfg names ports dcOf subcktPorts rule which).volts? <;> rfl
    · rfl

end Detail

/-! ## The levels that rules give -/

/-- The reference span of a kind: the voltages of its rules' supplies, else the caller's. -/
def span (volts : Which → Option Float) (vref : VRef) : Reference where
  vss := (volts .vss).getD vref.vss
  vdd := (volts .vdd).getD vref.vdd
  fromVref := (volts .vdd).isNone

section Levels

variable (U : UnicodeData)

/-- What a key is given, read by `read`, else a default. -/
def valueOr {α : Type} (default : α) (read : Str → Option α) (raw : Option Str) : Option α :=
  raw.elim (some default) read

/-- The `d2a` element where `raw` says what each key is given and `volts` what the supplies are. -/
def d2aOf (raw : Str → Option Str) (volts : Which → Option Float) (vref : VRef) : Option D2A_IE := do
  let ref := span volts vref
  let hiv ← valueOr ref.vdd (levelValue U ref) (raw (str "hiv"))
  let lov ← valueOr ref.vss (levelValue U ref) (raw (str "lov"))
  let rise ← valueOr 1e-11 (fun s => (parseTime U s).map clampRamp) (raw (str "rise_time"))
  let fall ← valueOr 1e-11 (fun s => (parseTime U s).map clampRamp) (raw (str "fall_time"))
  let delayRise ← valueOr 0.0 (parseTime U) (raw (str "rise_delay"))
  let delayFall ← valueOr 0.0 (parseTime U) (raw (str "fall_delay"))
  let x2v ← valueOr 0 (fun s => U.int (Str.strip s)) (raw (str "x2v"))
  let rSeries ← valueOr 500.7 (parseNumber U) (raw (str "r"))
  return { hiv, lov, rise, fall, delayRise, delayFall, x2v, rSeries
           powernet := (raw (str "powernet")).isSome
           weakFrac := if (raw (str "r")).isSome then 1.0 else 500.7 / 3500.2 }

/-- The `a2d` element; both thresholds are half the span by default. -/
def a2dOf (raw : Str → Option Str) (volts : Which → Option Float) (vref : VRef) : Option A2D_IE := do
  let ref := span volts vref
  let mid := ref.vss + 0.5 * (ref.vdd - ref.vss)
  let loth ← valueOr mid (levelValue U ref) (raw (str "loth"))
  let hith ← valueOr mid (levelValue U ref) (raw (str "hith"))
  let xband ← valueOr none (fun s => (parseNumber U s).map some) (raw (str "xband"))
  let midvTime ← valueOr none (fun s => (parseTime U s).map some) (raw (str "midv_time"))
  let midvLogic ← valueOr (str "X") (fun s => some (U.upper (Str.strip s))) (raw (str "midv_logic"))
  return { loth, hith, xband, midvTime, midvLogic }

theorem reference_eq (sup : Supplies) (vref : VRef) :
    reference sup vref = span (fun w => (sup w).map Prod.fst) vref := by
  simp [reference, span]

theorem level_eq (ref : Reference) (default : Float) (m : Merged) (key : Str) :
    level U ref default m key = valueOr default (levelValue U ref) ((m key).map Prod.fst) := by
  unfold level
  cases m key <;> rfl

theorem ramp_eq (default : Float) (m : Merged) (key : Str) :
    time U default true m key = valueOr default (fun s => (parseTime U s).map clampRamp) ((m key).map Prod.fst) := by
  unfold time
  cases m key <;> rfl

theorem delay_eq (default : Float) (m : Merged) (key : Str) :
    time U default false m key = valueOr default (parseTime U) ((m key).map Prod.fst) := by
  unfold time
  cases m key with
  | none => rfl
  | some given =>
    show (parseTime U given.1).map (fun t => t) = parseTime U given.1
    exact Option.map_id'

theorem given_eq {α : Type} (default : α) (read : Str → Option α) (m : Merged) (key : Str) :
    given default read m key = valueOr default read ((m key).map Prod.fst) := by
  unfold given
  cases m key <;> rfl

theorem d2aLevels_eq (m : Merged) (sup : Supplies) (vref : VRef) :
    d2aLevels U m sup vref = d2aOf U (fun key => (m key).map Prod.fst) (fun w => (sup w).map Prod.fst) vref := by
  unfold d2aLevels d2aOf
  simp only [reference_eq, level_eq, ramp_eq, delay_eq, given_eq, Option.isSome_map]

theorem a2dLevels_eq (m : Merged) (sup : Supplies) (vref : VRef) :
    a2dLevels U m sup vref = a2dOf U (fun key => (m key).map Prod.fst) (fun w => (sup w).map Prod.fst) vref := by
  unfold a2dLevels a2dOf
  simp only [reference_eq, level_eq, given_eq]

end Levels

/-- The levels that `resolve_detail` returns are those that the last applicable rules give, key by key: the rules of
    the other kind and the rules that do not apply to the node have no part in them. -/
theorem resolve_last_rule (U : UnicodeData) (sameLetter : CodePoint → CodePoint → Bool) (cfg : AmsConfig)
    (names : List Str) (ports : List Port5) (vref : VRef) (dcOf : Str → Supply) (hits : RuleHits) (role : Option Role)
    (subcktPorts : Option (Str → List Str)) :
    let applicable := fun kind => cfg.rules.filter (applies U sameLetter cfg names ports dcOf role subcktPorts kind)
    let volts := fun kind => lastVolts U sameLetter cfg names ports dcOf subcktPorts (applicable kind)
    (resolveDetail U sameLetter cfg names ports vref dcOf hits role subcktPorts).map (fun r => (r.1.d2a, r.1.a2d)) =
      (d2aOf U (lastGiven (applicable .d2a)) (volts .d2a) vref).bind fun d2a =>
        (a2dOf U (lastGiven (applicable .a2d)) (volts .a2d) vref).map fun a2d => (d2a, a2d) := by
  intro applicable volts
  have hrules : cfg.rules.zipIdx.map Prod.fst = cfg.rules := List.zipIdx_map_fst 0 cfg.rules
  have hmerged : ∀ kind, (fun key => ((mergeRules U sameLetter subcktPorts dcOf cfg names ports hits role).merged
      kind key).map Prod.fst) = lastGiven (applicable kind) := by
    intro kind
    funext key
    rw [mergeRules, foldl_merged, hrules]
    rfl
  have hsupply : ∀ kind, (fun which => ((mergeRules U sameLetter subcktPorts dcOf cfg names ports hits role).supply
      kind which).map Prod.fst) = volts kind := by
    intro kind
    funext which
    rw [mergeRules, foldl_supply, hrules]
    rfl
  unfold resolveDetail
  dsimp only
  rw [d2aLevels_eq, a2dLevels_eq, hmerged, hmerged, hsupply, hsupply]
  cases d2aOf U (lastGiven (applicable .d2a)) (volts .d2a) vref with
  | none => rfl
  | some d2a =>
    cases a2dOf U (lastGiven (applicable .a2d)) (volts .a2d) vref with
    | none => rfl
    | some a2d => rfl

end Vamos.Ams.Rules
