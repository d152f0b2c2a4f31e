import Sv2ghdl.Vamos.Spectre.Conversion
import Sv2ghdl.Vamos.Spectre.FileNames

/-!
# The step of a result

`_StepIndex` of `vamos/spectre/flow.py` finds the step of a result again by its name.  The results of a plan
have different files and find their steps unless the name of an analysis ends in `_` and the name of another
one, and what stands before that spells sweeps.
-/

open Python

namespace Vamos.Spectre

/-! ## The index -/

section Index

variable {K : Type} (legacy : Bool)

/-- The names of the unswept steps; the first step of a key stays. -/
def unsweptStep (steps : List (AnalysisStep K)) (key : Str) : Option (AnalysisStep K) :=
  steps.find? fun s => s.context.isEmpty && (Entry.unswept s).key legacy == key

/-- Whether a swept step may have a result of the name and type. -/
def matchesName (name atype : Str) (s : AnalysisStep K) : Bool :=
  match s.context with
  | [] => false
  | level :: _ =>
    s.kind.atype == atype && (written level.name ++ [separator legacy]).isPrefixOf name &&
      (CodePoint.ofChar '_' :: written s.name).isSuffixOf name

def longest (name atype : Str) (best : Option (AnalysisStep K)) (s : AnalysisStep K) :
    Option (AnalysisStep K) :=
  if matchesName legacy name atype s then
    match best with
    | none => some s
    | some b => if (written b.name).length < (written s.name).length then some s else best
  else best

def stepOf (steps : List (AnalysisStep K)) (e : Entry K) : Option (AnalysisStep K) :=
  if e.isParent then none
  else
    let key := if (e.parent? legacy).isNone then unsweptStep legacy steps (e.key legacy) else none
    match key with
    | some s => some s
    | none => steps.foldl (longest legacy (e.analysisName legacy) e.atype) none

end Index

/-! ## The longest name -/

section Longest

variable {K : Type} {legacy : Bool}

/-- The search keeps a candidate, and none is longer. -/
theorem foldl_longest (name atype : Str) (steps : List (AnalysisStep K)) (best : Option (AnalysisStep K)) :
    (∀ b ∈ steps.foldl (longest legacy name atype) best,
      b ∈ best ∨ b ∈ steps ∧ matchesName legacy name atype b) ∧
    ∀ t, (t ∈ best ∨ t ∈ steps ∧ matchesName legacy name atype t) →
      ∃ b ∈ steps.foldl (longest legacy name atype) best, (written t.name).length ≤ (written b.name).length := by
  induction steps generalizing best with
  | nil =>
    constructor
    · exact fun b hb => .inl hb
    · rintro t (ht | ht)
      · exact ⟨t, ht, Nat.le_refl _⟩
      · exact absurd ht.1 List.not_mem_nil
  | cons s steps ih =>
    obtain ⟨hfrom, hmax⟩ := ih (longest legacy name atype best s)
    -- the candidate after `s` is `s` or the old one, and none of them is longer
    have hstep : (∀ b ∈ longest legacy name atype best s, b ∈ best ∨ b = s ∧ matchesName legacy name atype s) ∧
        ∀ t, (t ∈ best ∨ t = s ∧ matchesName legacy name atype s) →
          ∃ b ∈ longest legacy name atype best s, (written t.name).length ≤ (written b.name).length := by
      unfold longest
      by_cases hmatch : matchesName legacy name atype s
      · rw [if_pos hmatch]
        cases best with
        | none => simp [hmatch]
        | some b =>
          dsimp only
          split
          · rename_i hlt
            constructor
            · exact fun b' hb' => .inr ⟨(Option.some.inj hb').symm, hmatch⟩
            · rintro t (ht | ⟨rfl, _⟩)
              · cases ht
                exact ⟨s, rfl, hlt.le⟩
              · exact ⟨t, rfl, Nat.le_refl _⟩
          · rename_i hle
            constructor
            · exact fun b' hb' => .inl hb'
            · rintro t (ht | ⟨rfl, _⟩)
              · exact ⟨t, ht, Nat.le_refl _⟩
              · exact ⟨b, rfl, not_lt.mp hle⟩
      · rw [if_neg hmatch]
        constructor
        · exact fun b hb => .inl hb
        · rintro t (ht | ht)
          · exact ⟨t, ht, Nat.le_refl _⟩
          · exact absurd ht.2 hmatch
    constructor
    · intro b hb
      rcases hfrom b hb with hb | ⟨hb, hmatch⟩
      · rcases hstep.1 b hb with hb | ⟨rfl, hmatch⟩
        · exact .inl hb
        · exact .inr ⟨List.mem_cons_self, hmatch⟩
      · exact .inr ⟨List.mem_cons_of_mem s hb, hmatch⟩
    · intro t ht
      have hcase : (t ∈ best ∨ t = s ∧ matchesName legacy name atype s) ∨
          t ∈ steps ∧ matchesName legacy name atype t := by
        rcases ht with ht | ⟨ht, hmatch⟩
        · exact .inl (.inl ht)
        · rcases List.mem_cons.mp ht with rfl | ht
          · exact .inl (.inr ⟨rfl, hmatch⟩)
          · exact .inr ⟨ht, hmatch⟩
      rcases hcase with ht | ht
      · obtain ⟨b, hb, hle⟩ := hstep.2 t ht
        obtain ⟨b', hb', hle'⟩ := hmax b (.inl hb)
        exact ⟨b', hb', hle.trans hle'⟩
      · exact hmax t (.inr ht)

end Longest

/-! ## The step of a result -/

section StepOf

variable {K : Type} {legacy : Bool} {steps : List (AnalysisStep K)}

theorem step_eq_of_written (hnames : (steps.map AnalysisStep.name).Nodup) {s t : AnalysisStep K}
    (hs : s ∈ steps) (ht : t ∈ steps) (h : written s.name = written t.name) : s = t :=
  List.inj_on_of_nodup_map hnames hs ht (Vamos.Names.writtenName_injective .file h)

theorem matchesName_iff {name atype : Str} {t : AnalysisStep K} : matchesName legacy name atype t ↔
    t.kind.atype = atype ∧ CodePoint.ofChar '_' :: written t.name <:+ name ∧
      ∃ level ∈ t.context.head?, written level.name ++ [separator legacy] <+: name := by
  unfold matchesName
  cases t.context with
  | nil => simp
  | cons level context => simp [and_comm, and_assoc, and_left_comm]

theorem unsweptStep_self (hnames : (steps.map AnalysisStep.name).Nodup) {s : AnalysisStep K} (hs : s ∈ steps)
    (hnil : s.context = []) : unsweptStep legacy steps ((Entry.unswept s).key legacy) = some s := by
  have hsome : (unsweptStep legacy steps ((Entry.unswept s).key legacy)).isSome := by
    unfold unsweptStep
    rw [List.find?_isSome]
    exact ⟨s, hs, by simp [hnil]⟩
  obtain ⟨t, ht⟩ := Option.isSome_iff_exists.mp hsome
  have hkey := List.find?_some ht
  rw [Bool.and_eq_true, beq_iff_eq] at hkey
  rw [ht, step_eq_of_written hnames (List.mem_of_find?_eq_some ht) hs (Entry.key_inj.mp hkey.2).1]

variable {s : AnalysisStep K} {idx : List Nat}

/-- A leaf has the name that its own step is looked for by. -/
theorem matchesName_self (hne : s.context ≠ []) (hidx : idx ∈ RowMajor.indices s.counts) :
    matchesName legacy (s.leafName legacy idx) s.kind.atype s := by
  rw [matchesName_iff, s.leafName_eq]
  have hlt := RowMajor.mem_indices.mp hidx
  unfold AnalysisStep.counts at hlt
  cases hcontext : s.context with
  | nil => exact absurd hcontext hne
  | cons level context =>
    rw [hcontext] at hlt
    cases hlt with
    | @cons i _ rest _ _ _ =>
      have hclosed := closed_pointsText legacy (level :: context) (i :: rest)
      have htext := pointsText_cons legacy level context i rest
      obtain ⟨x, hx⟩ := hclosed.exists_concat (by rw [htext]; simp)
      refine ⟨rfl, ⟨x, ?_⟩, level, rfl, ?_⟩
      · rw [hx, List.append_assoc, List.singleton_append]
      · rw [htext, List.append_assoc]
        exact (List.prefix_append_right_inj _).mpr ⟨_, rfl⟩

/-- The search finds the step of a leaf when no longer name matches. -/
theorem longest_leaf_iff (hnames : (steps.map AnalysisStep.name).Nodup) (hs : s ∈ steps)
    (hne : s.context ≠ []) (hidx : idx ∈ RowMajor.indices s.counts) :
    steps.foldl (longest legacy (s.leafName legacy idx) s.kind.atype) none = some s ↔
      ∀ t ∈ steps, matchesName legacy (s.leafName legacy idx) s.kind.atype t →
        (written t.name).length ≤ (written s.name).length := by
  obtain ⟨hfrom, hmax⟩ := @foldl_longest K legacy (s.leafName legacy idx) s.kind.atype steps none
  constructor
  · intro h t ht hmatch
    obtain ⟨b, hb, hle⟩ := hmax t (.inr ⟨ht, hmatch⟩)
    rw [h] at hb
    cases hb
    exact hle
  · intro h
    obtain ⟨b, hb, hle⟩ := hmax s (.inr ⟨hs, matchesName_self hne hidx⟩)
    rcases hfrom b hb with hnone | ⟨hmem, hmatch⟩
    · cases hnone
    have hlen := Nat.le_antisymm hle (h b hmem hmatch)
    -- both names end the name of the leaf
    have hself := (matchesName_iff.mp (@matchesName_self K legacy s idx hne hidx)).2.1
    have hother := (matchesName_iff.mp hmatch).2.1
    have hsuffix := List.suffix_of_suffix_length_le hself hother (by simp [hlen])
    have heq := hsuffix.eq_of_length (by simp [hlen])
    rw [Option.mem_def.mp hb, step_eq_of_written hnames hs hmem (List.cons.inj heq).2]

end StepOf

/-! ## Results stay apart -/

section Apart

variable {K : Type}

/-- What an analysis `s` may not have around it when the name of `t` is its name behind `c` and a `_`. -/
structure Apart (legacy : Bool) (s t : AnalysisStep K) (c : Str) : Prop where
  /-- No point of `s` spells `c`, when `t` is not swept. -/
  unswept : s.kind.atype = t.kind.atype → t.context = [] → s.context ≠ [] →
    ∀ idx ∈ RowMajor.indices s.counts, pointsText legacy s.context idx ≠ c ++ [CodePoint.ofChar '_']
  /-- No point of `s` ends in `c`, when its name starts with the top sweep of `t`. -/
  swept : s.kind.atype = t.kind.atype → s.context ≠ [] → ∀ level ∈ t.context.head?,
    ∀ idx ∈ RowMajor.indices s.counts,
      CodePoint.ofChar '_' :: (c ++ [CodePoint.ofChar '_']) <:+ pointsText legacy s.context idx →
        ¬ written level.name ++ [separator legacy] <+: s.leafName legacy idx
  /-- No sweep around `s` spells a sweep around `t` and `c`. -/
  parents : legacy = false → ∀ d < s.context.length, ∀ d' < t.context.length,
    ∀ idx ∈ RowMajor.indices (s.counts.take d), ∀ jdx ∈ RowMajor.indices (t.counts.take d'),
      s.parentText d idx ≠ t.parentText d' jdx ++ (c ++ [CodePoint.ofChar '_'])

def NamesApart (legacy : Bool) (steps : List (AnalysisStep K)) : Prop :=
  ∀ s ∈ steps, ∀ t ∈ steps, ∀ c, written t.name = c ++ CodePoint.ofChar '_' :: written s.name → Apart legacy s t c

variable {legacy : Bool} {p : Deck K}

theorem nodup_steps (hnames : ((p.steps []).map AnalysisStep.name).Nodup) : (p.steps []).Nodup :=
  .of_map _ hnames

theorem pointsText_ne_nil {s : AnalysisStep K} {idx : List Nat} (hne : s.context ≠ [])
    (hidx : idx ∈ RowMajor.indices s.counts) : pointsText legacy s.context idx ≠ [] := by
  have hlt := RowMajor.mem_indices.mp hidx
  unfold AnalysisStep.counts at hlt
  cases hcontext : s.context with
  | nil => exact absurd hcontext hne
  | cons level context =>
    rw [hcontext] at hlt
    cases hlt
    rw [pointsText_cons]
    simp

/-! ### Different files -/

section Different

variable (hnames : ((p.steps []).map AnalysisStep.name).Nodup) (h : NamesApart legacy (p.steps []))
  {s t : AnalysisStep K} (hs : s ∈ p.steps []) (ht : t ∈ p.steps [])

include hnames h hs ht

theorem unswept_ne_leaf (hnil : t.context = []) (hne : s.context ≠ []) {idx : List Nat}
    (hidx : idx ∈ RowMajor.indices s.counts) (htype : s.kind.atype = t.kind.atype) :
    s.leafName legacy idx ≠ written t.name := by
  intro heq
  rw [s.leafName_eq] at heq
  have hname : written s.name ≠ written t.name := by
    intro hname
    rw [step_eq_of_written hnames hs ht hname] at hne
    exact hne hnil
  rcases (closed_pointsText legacy s.context idx).append_eq closed_nil hname heq with
    ⟨c, ht', htext⟩ | ⟨c, _, htext⟩
  · exact (h s hs t ht c ht').unswept htype hnil hne idx hidx htext
  · exact pointsText_ne_nil hne hidx (List.append_eq_nil_iff.mp htext.symm).1

theorem leaf_ne_leaf (hst : s ≠ t) (hne : s.context ≠ []) (hne' : t.context ≠ []) {idx jdx : List Nat}
    (hidx : idx ∈ RowMajor.indices s.counts) (hjdx : jdx ∈ RowMajor.indices t.counts)
    (htype : s.kind.atype = t.kind.atype) : s.leafName legacy idx ≠ t.leafName legacy jdx := by
  -- the leaf of the shorter name is also a leaf of the longer one
  have hclash {s t : AnalysisStep K} (hs : s ∈ p.steps []) (ht : t ∈ p.steps []) (hne : s.context ≠ [])
      (hne' : t.context ≠ []) {idx jdx : List Nat} (hidx : idx ∈ RowMajor.indices s.counts)
      (hjdx : jdx ∈ RowMajor.indices t.counts) (htype : s.kind.atype = t.kind.atype) {c : Str}
      (hname : written t.name = c ++ CodePoint.ofChar '_' :: written s.name)
      (htext : pointsText legacy s.context idx =
        pointsText legacy t.context jdx ++ (c ++ [CodePoint.ofChar '_']))
      (heq : s.leafName legacy idx = t.leafName legacy jdx) : False := by
    have hself := matchesName_iff.mp (@matchesName_self K legacy t jdx hne' hjdx)
    obtain ⟨level, hlevel, hstart⟩ := hself.2.2
    rw [← heq] at hstart
    obtain ⟨x, hx⟩ := (closed_pointsText legacy t.context jdx).exists_concat (pointsText_ne_nil hne' hjdx)
    exact (h s hs t ht c hname).swept htype hne level hlevel idx hidx
      ⟨x, by rw [htext, hx]; simp⟩ hstart
  intro heq
  have heq' := heq
  rw [s.leafName_eq, t.leafName_eq] at heq'
  rcases (closed_pointsText legacy s.context idx).append_eq (closed_pointsText legacy t.context jdx)
    (fun hname => hst (step_eq_of_written hnames hs ht hname)) heq' with ⟨c, hname, htext⟩ | ⟨c, hname, htext⟩
  · exact hclash hs ht hne hne' hidx hjdx htype hname htext heq
  · exact hclash ht hs hne' hne hjdx hidx htype.symm hname htext heq.symm

theorem parent_ne_parent (hst : s ≠ t) (hmodern : legacy = false) {d d' : Nat} (hd : d < s.context.length)
    (hd' : d' < t.context.length) {idx jdx : List Nat} (hidx : idx ∈ RowMajor.indices (s.counts.take d))
    (hjdx : jdx ∈ RowMajor.indices (t.counts.take d')) : s.parentName d idx ≠ t.parentName d' jdx := by
  intro heq
  rw [s.parentName_eq, t.parentName_eq] at heq
  rcases (s.closed_parentText d idx).append_eq (t.closed_parentText d' jdx)
    (fun hname => hst (step_eq_of_written hnames hs ht hname)) heq with ⟨c, hname, htext⟩ | ⟨c, hname, htext⟩
  · exact (h s hs t ht c hname).parents hmodern d hd d' hd' idx hidx jdx hjdx htext
  · exact (h t ht s hs c hname).parents hmodern d' hd' d hd jdx hjdx idx hidx htext

end Different

theorem stepOf_leaf_iff {steps : List (AnalysisStep K)} {s : AnalysisStep K} {idx : List Nat}
    (hne : s.context ≠ []) : stepOf legacy steps (.leaf s idx) = some s ↔
      (legacy = true → unsweptStep legacy steps ((Entry.leaf s idx).key legacy) = none) ∧
        steps.foldl (longest legacy (s.leafName legacy idx) s.kind.atype) none = some s := by
  cases legacy with
  | false =>
    show _ ↔ (false = true → _) ∧ _
    simp only [Bool.false_eq_true, false_implies, true_and]
    rfl
  | true =>
    show (match unsweptStep true steps _ with | some s => some s | none => _) = some s ↔ _
    cases hkey : unsweptStep true steps ((Entry.leaf s idx).key true) with
    | none => simp only [implies_true, true_and]; rfl
    | some t =>
      constructor
      · intro h
        cases h
        have hfound := List.find?_some hkey
        rw [Bool.and_eq_true, List.isEmpty_iff] at hfound
        exact absurd hfound.1 hne
      · exact fun h => nomatch h.1 rfl

/-! ### The results of a plan whose names are apart -/

variable [DecidableEq K]

section Plan

variable (hnames : ((p.steps []).map AnalysisStep.name).Nodup) (h : NamesApart legacy (p.steps []))

include hnames h

theorem entry_eq {e e' : Entry K} (he : e ∈ p.results legacy [] []) (he' : e' ∈ p.results legacy [] [])
    (hname : e.analysisName legacy = e'.analysisName legacy) (htype : e.atype = e'.atype) : e = e' := by
  have hnodup := nodup_steps hnames
  have hsweep (kind : Kind) : kind.atype ≠ str "sweep" := by cases kind <;> decide
  have hparent {s : AnalysisStep K} {d : Nat} {idx : List Nat} (hmem : .parent s d idx ∈ p.results legacy [] []) :
      legacy = false ∧ s ∈ p.steps [] ∧ d < s.context.length ∧ idx ∈ RowMajor.indices (s.counts.take d) := by
    cases hlegacy : legacy with
    | true => exact absurd (hlegacy ▸ hmem) Deck.parent_not_mem_results
    | false =>
      rw [hlegacy] at hmem
      obtain ⟨hs, _, hd, jdx, hjdx, rfl⟩ := Deck.parent_mem_results_iff.mp hmem
      exact ⟨rfl, hs, hd, hjdx⟩
  cases e with
  | unswept s =>
    obtain ⟨hs, hnil⟩ := (Deck.unswept_mem_results_iff hnodup).mp he
    cases e' with
    | unswept t =>
      obtain ⟨ht, _⟩ := (Deck.unswept_mem_results_iff hnodup).mp he'
      rw [step_eq_of_written hnames hs ht hname]
    | parent t d idx => exact absurd htype (hsweep s.kind)
    | leaf t idx =>
      obtain ⟨ht, hne, hidx⟩ := (Deck.leaf_mem_results_iff hnodup).mp he'
      exact absurd hname.symm (unswept_ne_leaf hnames h ht hs hnil hne hidx htype.symm)
  | parent s d idx =>
    cases e' with
    | unswept t => exact absurd htype.symm (hsweep t.kind)
    | parent t d' jdx =>
      obtain ⟨hmodern, hs, hd, hidx⟩ := hparent he
      obtain ⟨_, ht, hd', hjdx⟩ := hparent he'
      by_cases hst : s = t
      · subst hst
        have htext : s.parentName d idx = s.parentName d' jdx := hname
        rw [s.parentName_eq, s.parentName_eq, List.append_cancel_right_eq] at htext
        obtain ⟨rfl, rfl⟩ := AnalysisStep.parentText_inj hd hd' hidx hjdx htext
        rfl
      · exact absurd hname (parent_ne_parent hnames h hs ht hst hmodern hd hd' hidx hjdx)
    | leaf t jdx => exact absurd htype.symm (hsweep t.kind)
  | leaf s idx =>
    obtain ⟨hs, hne, hidx⟩ := (Deck.leaf_mem_results_iff hnodup).mp he
    cases e' with
    | unswept t =>
      obtain ⟨ht, hnil⟩ := (Deck.unswept_mem_results_iff hnodup).mp he'
      exact absurd hname (unswept_ne_leaf hnames h hs ht hnil hne hidx htype)
    | parent t d jdx => exact absurd htype (hsweep s.kind)
    | leaf t jdx =>
      obtain ⟨ht, hne', hjdx⟩ := (Deck.leaf_mem_results_iff hnodup).mp he'
      by_cases hst : s = t
      · subst hst
        rw [AnalysisStep.leafName_inj hidx hjdx hname]
      · exact absurd hname (leaf_ne_leaf hnames h hs ht hst hne hne' hidx hjdx htype)

theorem stepOf_eq {e : Entry K} (he : e ∈ p.results legacy [] []) (hdata : e.isParent = false) :
    stepOf legacy (p.steps []) e = some e.step := by
  have hnodup := nodup_steps hnames
  cases e with
  | unswept s =>
    obtain ⟨hs, hnil⟩ := (Deck.unswept_mem_results_iff hnodup).mp he
    show (match unsweptStep legacy (p.steps []) _ with | some s => some s | none => _) = some s
    rw [unsweptStep_self hnames hs hnil]
  | parent s d idx => cases hdata
  | leaf s idx =>
    obtain ⟨hs, hne, hidx⟩ := (Deck.leaf_mem_results_iff hnodup).mp he
    refine (stepOf_leaf_iff hne).mpr ⟨fun _ => ?_, (longest_leaf_iff hnames hs hne hidx).mpr ?_⟩
    · refine List.find?_eq_none.mpr fun t ht hfound => ?_
      rw [Bool.and_eq_true, List.isEmpty_iff, beq_iff_eq] at hfound
      obtain ⟨hname, htype⟩ := Entry.key_inj.mp hfound.2
      exact unswept_ne_leaf hnames h hs ht hfound.1 hne hidx htype.symm hname.symm
    · intro t ht hmatch
      obtain ⟨htype, hsuffix, level, hlevel, hstart⟩ := matchesName_iff.mp hmatch
      by_contra hlt
      rw [s.leafName_eq] at hsuffix
      obtain ⟨c, hname, htext⟩ :=
        ((closed_pointsText legacy s.context idx).suffix_iff (not_le.mp hlt)).mp hsuffix
      exact (h s hs t ht c hname).swept htype.symm hne level hlevel idx hidx htext hstart

end Plan

/-- The results have different files and find their steps exactly when the names are apart. -/
theorem results_distinct_iff (hsweeps : p.sweepNames.Nodup)
    (hnames : ((p.steps []).map AnalysisStep.name).Nodup) :
    (((run legacy (p.steps [])).map (Entry.file legacy)).Nodup ∧
      ((run legacy (p.steps [])).map (Entry.key legacy)).Nodup ∧
      ∀ e ∈ run legacy (p.steps []), e.isParent = false → stepOf legacy (p.steps []) e = some e.step) ↔
    NamesApart legacy (p.steps []) := by
  have hnodup := nodup_steps hnames
  rw [p.run_steps legacy hsweeps]
  constructor
  · intro ⟨hfiles, _, hstepOf⟩ s hs t ht c hname
    refine ⟨?_, ?_, ?_⟩
    · intro htype hnil hne idx hidx htext
      have hleaf := (@Deck.leaf_mem_results_iff K _ p s legacy hnodup idx).mpr ⟨hs, hne, hidx⟩
      have hunswept := (@Deck.unswept_mem_results_iff K _ p t legacy hnodup).mpr ⟨ht, hnil⟩
      have hfile : (Entry.leaf s idx).file legacy = (Entry.unswept t).file legacy := by
        refine Entry.file_inj.mpr ⟨?_, htype⟩
        show s.leafName legacy idx = written t.name
        rw [s.leafName_eq, htext, hname, List.append_assoc, List.singleton_append]
      cases List.inj_on_of_nodup_map hfiles hleaf hunswept hfile
    · intro htype hne level hlevel idx hidx htext hstart
      have hleaf := (@Deck.leaf_mem_results_iff K _ p s legacy hnodup idx).mpr ⟨hs, hne, hidx⟩
      have hfound := ((stepOf_leaf_iff hne).mp (hstepOf _ hleaf rfl)).2
      have hlt : (written s.name).length < (written t.name).length := by
        rw [hname, List.length_append, List.length_cons]
        omega
      -- `t` is a candidate for the leaf of `s`
      have hsuffix := ((closed_pointsText legacy s.context idx).suffix_iff hlt).mpr ⟨c, hname, htext⟩
      rw [← s.leafName_eq] at hsuffix
      have hle := (longest_leaf_iff hnames hs hne hidx).mp hfound t ht
        (matchesName_iff.mpr ⟨htype.symm, hsuffix, level, hlevel, hstart⟩)
      exact absurd hle (not_le.mpr hlt)
    · rintro rfl d hd d' hd' idx hidx jdx hjdx htext
      have hparent {s : AnalysisStep K} (hs : s ∈ p.steps []) {d : Nat} (hd : d < s.context.length)
          {idx : List Nat} (hidx : idx ∈ RowMajor.indices (s.counts.take d)) :
          .parent s d idx ∈ p.results false [] [] :=
        Deck.parent_mem_results_iff.mpr ⟨hs, Nat.zero_le d, hd, idx, hidx, rfl⟩
      have hfile : (Entry.parent s d idx).file false = (Entry.parent t d' jdx).file false := by
        refine Entry.file_inj.mpr ⟨?_, rfl⟩
        show s.parentName d idx = t.parentName d' jdx
        rw [s.parentName_eq, t.parentName_eq, htext, hname]
        simp
      have hsame := List.inj_on_of_nodup_map hfiles (hparent hs hd hidx) (hparent ht hd' hjdx) hfile
      have hlen := congrArg List.length hname
      rw [(Entry.parent.inj hsame).1, List.length_append, List.length_cons] at hlen
      omega
  · intro h
    have hapart : ∀ e ∈ p.results legacy [] [], ∀ e' ∈ p.results legacy [] [],
        e.analysisName legacy = e'.analysisName legacy → e.atype = e'.atype → e = e' :=
      fun e he e' he' => entry_eq hnames h he he'
    refine ⟨?_, ?_, ?_⟩
    · refine (Deck.nodup_results legacy hnodup []).map_on fun e he e' he' hfile => ?_
      exact hapart e he e' he' (Entry.file_inj.mp hfile).1 (Entry.file_inj.mp hfile).2
    · refine (Deck.nodup_results legacy hnodup []).map_on fun e he e' he' hkey => ?_
      exact hapart e he e' he' (Entry.key_inj.mp hkey).1 (Entry.key_inj.mp hkey).2
    · intro e he hdata
      exact stepOf_eq hnames h he hdata

end Apart

section Examples

theorem results_distinct_op :
    (((run false (opDeck.steps [])).map (Entry.file false)).Nodup ∧
      ((run false (opDeck.steps [])).map (Entry.key false)).Nodup ∧
      ∀ e ∈ run false (opDeck.steps []), e.isParent = false → stepOf false (opDeck.steps []) e = some e.step) := by
  apply (@results_distinct_iff Int false opDeck _ (by decide) (by decide)).mpr
  intro s hs t ht c hname
  -- the plan has one step, and no name ends in itself behind a `_`
  rw [List.mem_singleton.mp hs, List.mem_singleton.mp ht] at hname
  have hlen := congrArg List.length hname
  rw [List.length_append, List.length_cons] at hlen
  omega

def namedOp (name : String) : AnalysisStep Int := ⟨name, str name, .op, [], none, noArgs⟩

/-- `s sweep … { x_a dc }` and `s_x sweep … { a dc }`. -/
def clashDeck : Deck Int :=
  .sweep ⟨str "s", [0, 1]⟩ (.analysis (namedOp "x_a") .done)
    (.sweep ⟨str "s_x", [0, 1]⟩ (.analysis (namedOp "a") .done) .done)

/-- Both sweeps write their parent to `s_x_a.sweep`. -/
theorem not_distinct_parents :
    clashDeck.sweepNames.Nodup ∧ ((clashDeck.steps []).map AnalysisStep.name).Nodup ∧
      ¬((run false (clashDeck.steps [])).map (Entry.file false)).Nodup := by
  decide

/-- `s_000_a dc` and `s sweep … { a dc }`. -/
def legacyClashDeck : Deck Int :=
  .analysis (namedOp "s_000_a") (.sweep ⟨str "s", [0, 1]⟩ (.analysis (namedOp "a") .done) .done)

example : stepOf true (legacyClashDeck.steps []) (.leaf { namedOp "a" with context := [⟨str "s", [0, 1]⟩] } [0]) =
    some (namedOp "s_000_a") := by
  decide

end Examples

end Vamos.Spectre
