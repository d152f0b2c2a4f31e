import Sv2ghdl.Vamos.Spectre.Conversion

/-!
# The parents of the leaves

A parent that the logFile lists has as many values as leaves that are listed, wherever the conversion is
stopped, when no leaf that it counts is left out.
-/

namespace Vamos.Spectre

/-! ## Blocks of the stream -/

namespace Conversion

variable {K : Type} {legacy : Bool} {failed : Entry K → Bool}

/-- No result starts a block. -/
def Quiet (legacy : Bool) : Bool → List (Entry K) → Prop
  | _, [] => True
  | prevTop, e :: rest =>
    (startsBlock legacy e prevTop).1 = false ∧ Quiet legacy (startsBlock legacy e prevTop).2 rest

theorem start_of_quiet {c : Conversion K} {e : Entry K} (h : (startsBlock legacy e c.prevTop).1 = false) :
    c.start legacy e = { c with prevTop := (startsBlock legacy e c.prevTop).2 } := by
  unfold start
  dsimp only
  rw [h]
  rfl

theorem start_listed (c : Conversion K) (e : Entry K) :
    ((c.start legacy e).listed = c.listed ∨ (c.start legacy e).listed = c.listed ++ c.done) ∧
      (c.start legacy e).listed ++ (c.start legacy e).done = c.listed ++ c.done := by
  unfold start
  dsimp only
  split
  · exact ⟨.inr rfl, List.append_nil _⟩
  · exact ⟨.inl rfl, rfl⟩

theorem stops_quiet {xs : List (Entry K)} (rest : List (Entry K)) {c : Conversion K}
    (h : Quiet legacy c.prevTop xs) : ∃ c' : Conversion K, c'.listed = c.listed ∧ c'.done = c.done ++ xs ∧
      ∀ d ∈ stops legacy failed (xs ++ rest) c, d.listed = c.listed ∨ d ∈ stops legacy failed rest c' := by
  induction xs generalizing c with
  | nil => exact ⟨c, rfl, (List.append_nil _).symm, fun d hd => .inr hd⟩
  | cons e xs ih =>
    have hstart := start_of_quiet h.1
    obtain ⟨c', hlisted, hdone, hstops⟩ := @ih ((c.start legacy e).write failed e) (by rw [hstart]; exact h.2)
    have hkeep : ((c.start legacy e).write failed e).listed = c.listed := by
      rw [hstart]
      rfl
    refine ⟨c', hlisted.trans hkeep, ?_, ?_⟩
    · rw [hdone, hstart]
      show c.done ++ [e] ++ xs = _
      rw [List.append_assoc, List.singleton_append]
    · intro d hd
      rcases List.mem_cons.mp hd with rfl | hd
      · left
        rw [hstart]
      · rcases List.mem_cons.mp hd with rfl | hd
        · exact .inl hkeep
        · exact (hstops d hd).imp_left (·.trans hkeep)

/-- A block of which only the first result may start one. -/
theorem stops_block {e : Entry K} {xs : List (Entry K)} (rest : List (Entry K)) (c : Conversion K)
    (h : ∀ prevTop, Quiet legacy (startsBlock legacy e prevTop).2 xs) : ∃ c' : Conversion K,
      (c'.listed = c.listed ∨ c'.listed = c.listed ++ c.done) ∧
      c'.listed ++ c'.done = c.listed ++ c.done ++ e :: xs ∧
      ∀ d ∈ stops legacy failed (e :: xs ++ rest) c, d.listed = c.listed ∨ d.listed = c.listed ++ c.done ∨
        d ∈ stops legacy failed rest c' := by
  obtain ⟨hlisted, hall⟩ := @start_listed K legacy c e
  have hprev : ((c.start legacy e).write failed e).prevTop = (startsBlock legacy e c.prevTop).2 := by
    unfold write start
    dsimp only
    split <;> rfl
  obtain ⟨c', hlisted', hdone', hstops⟩ :=
    @stops_quiet K legacy failed xs rest ((c.start legacy e).write failed e) (by rw [hprev]; exact h c.prevTop)
  have hkeep : c'.listed = (c.start legacy e).listed := hlisted'
  refine ⟨c', by rwa [hkeep], ?_, ?_⟩
  · rw [hkeep, hdone']
    show (c.start legacy e).listed ++ ((c.start legacy e).done ++ [e] ++ xs) = _
    rw [← hall]
    simp
  · intro d hd
    rcases List.mem_cons.mp hd with rfl | hd
    · exact hlisted.imp_right .inl
    · rcases List.mem_cons.mp hd with rfl | hd
      · exact hlisted.imp_right .inl
      · rcases hstops d hd with hd | hd
        · rw [hd]
          exact hlisted.imp_right .inl
        · exact .inr (.inr hd)

/-- The last stop is the one at which everything is listed. -/
theorem exists_stop (xs : List (Entry K)) (c : Conversion K) :
    ∃ d ∈ stops legacy failed xs c, d.listed = c.listed ++ c.done ++ xs := by
  induction xs generalizing c with
  | nil => exact ⟨c.finish, List.mem_singleton_self _, (List.append_nil _).symm⟩
  | cons e xs ih =>
    obtain ⟨d, hd, hlisted⟩ := ih ((c.start legacy e).write failed e)
    refine ⟨d, List.mem_cons_of_mem _ (List.mem_cons_of_mem _ hd), ?_⟩
    rw [hlisted, ← (@start_listed K legacy c e).2]
    simp [write]

/-- Nothing else is listed, and what is listed is written. -/
theorem mem_of_stops {xs : List (Entry K)} {c : Conversion K}
    (hwritten : ∀ e ∈ c.listed ++ c.done, failed e = false → e ∈ c.written) :
    ∀ d ∈ stops legacy failed xs c, ∀ e ∈ d.listed,
      e ∈ c.listed ++ c.done ++ xs ∧ (failed e = false → e ∈ d.written) := by
  induction xs generalizing c with
  | nil =>
    intro d hd e he
    cases List.mem_singleton.mp hd
    rw [List.append_nil]
    exact ⟨he, hwritten e he⟩
  | cons x xs ih =>
    obtain ⟨hlisted, hall⟩ := @start_listed K legacy c x
    have hsame : (c.start legacy x).written = c.written := by
      unfold start
      dsimp only
      split <;> rfl
    have hsub : ∀ e ∈ (c.start legacy x).listed, e ∈ c.listed ++ c.done := by
      intro e he
      rw [← hall]
      exact List.mem_append_left _ he
    have hgrow : ∀ e ∈ c.written, e ∈ ((c.start legacy x).write failed x).written := by
      intro e he
      unfold write
      dsimp only
      split
      · rwa [hsame]
      · rw [hsame]
        exact List.mem_append_left _ he
    intro d hd e he
    rcases List.mem_cons.mp hd with rfl | hd
    · rw [hsame]
      exact ⟨List.mem_append_left _ (hsub e he), hwritten e (hsub e he)⟩
    · rcases List.mem_cons.mp hd with rfl | hd
      · exact ⟨List.mem_append_left _ (hsub e he), fun h => hgrow e (hwritten e (hsub e he) h)⟩
      · have hmem (y : Entry K) : y ∈ ((c.start legacy x).write failed x).listed ++
            ((c.start legacy x).write failed x).done ↔ y ∈ c.listed ++ c.done ∨ y = x := by
          rw [← hall]
          simp [write, or_assoc]
        have hrest := @ih ((c.start legacy x).write failed x) (by
          intro y hy hok
          rcases (hmem y).mp hy with hy | rfl
          · exact hgrow y (hwritten y hy hok)
          · unfold write
            simp [hok]) d hd e he
        refine ⟨?_, hrest.2⟩
        rcases List.mem_append.mp hrest.1 with h | h
        · rcases (hmem e).mp h with h | rfl
          · exact List.mem_append_left _ h
          · exact List.mem_append_right _ List.mem_cons_self
        · exact List.mem_append_right _ (List.mem_cons_of_mem _ h)

end Conversion

/-! ## What is listed -/

section Listed

variable {K : Type} {failed : Entry K → Bool}

/-- The first statements of a deck. -/
def Deck.takeTop : Nat → Deck K → Deck K
  | 0, _ => done
  | _ + 1, done => done
  | n + 1, analysis s rest => analysis s (rest.takeTop n)
  | n + 1, sweep level body rest => sweep level body (rest.takeTop n)

theorem Deck.steps_takeTop (n : Nat) (p : Deck K) (ctx : List (SweepLevel K)) :
    (p.takeTop n).steps ctx <+: p.steps ctx := by
  induction p generalizing n with
  | done => cases n <;> exact List.prefix_rfl
  | analysis s rest ih =>
    cases n with
    | zero => exact List.nil_prefix
    | succ n => exact List.cons_prefix_cons.mpr ⟨rfl, ih n⟩
  | sweep level body rest _ ih =>
    cases n with
    | zero => exact List.nil_prefix
    | succ n => exact (List.prefix_append_right_inj _).mpr (ih n)

/-- What is not a top-level parent and stands under a sweep does not start a block. -/
def Inner (e : Entry K) : Prop := (∀ s idx, e ≠ .parent s 0 idx) ∧ ∀ s, e ≠ .unswept s

theorem startsBlock_inner {e : Entry K} (h : Inner e) (prevTop : Bool) :
    startsBlock false e prevTop = (false, false) := by
  cases e with
  | unswept s => exact absurd rfl (h.2 s)
  | leaf s idx => rfl
  | parent s d idx =>
    cases d with
    | zero => exact absurd rfl (h.1 s idx)
    | succ d => rfl

theorem quiet_inner {xs : List (Entry K)} (h : ∀ e ∈ xs, Inner e) (prevTop : Bool) :
    Conversion.Quiet false prevTop xs := by
  induction xs generalizing prevTop with
  | nil => trivial
  | cons e xs ih =>
    have hinner := startsBlock_inner (h e List.mem_cons_self) prevTop
    refine ⟨by rw [hinner], ih (fun x hx => h x (List.mem_cons_of_mem _ hx)) _⟩

/-- After a top-level parent the other ones of its block do not start one. -/
theorem quiet_parents {block : List (AnalysisStep K)} {idx : List Nat} {xs : List (Entry K)}
    (h : ∀ e ∈ xs, Inner e) :
    Conversion.Quiet false true ((block.map fun t => Entry.parent t 0 idx) ++ xs) := by
  induction block with
  | nil => exact quiet_inner h true
  | cons t block ih => exact ⟨rfl, ih⟩

/-- Below the top level there are only inner results. -/
theorem Deck.results_inner {p : Deck K} {ctx : List (SweepLevel K)} (hctx : ctx ≠ []) {idx : List Nat}
    {e : Entry K} (h : e ∈ p.results false ctx idx) : Inner e := by
  have hpos : 0 < ctx.length := List.length_pos_of_ne_nil hctx
  constructor
  · rintro s jdx rfl
    exact absurd (parent_mem_results_iff.mp h).2.1 (not_le.mpr hpos)
  · rintro s rfl
    have hfit := fits false h
    have hle := (context_of_mem hfit.1).length_le
    rw [hfit.2] at hle
    exact absurd hle (not_le.mpr hpos)

/-- The results of a sweep at the top level. -/
def sweepBlock (level : SweepLevel K) (body : Deck K) : List (Entry K) :=
  ((body.steps [level]).map fun t => .parent t 0 []) ++
    (List.range level.values.length).flatMap fun i => body.results false [level] [i]

/-- Results of which at most the first starts a block. -/
def IsBlock (block : List (Entry K)) : Prop :=
  block = [] ∨ ∃ e xs, block = e :: xs ∧
    ∀ prevTop, Conversion.Quiet false (startsBlock false e prevTop).2 xs

theorem isBlock_sweep {keep : Entry K → Bool} (hkeep : ∀ s d idx, keep (.parent s d idx) = true)
    (level : SweepLevel K) (body : Deck K) : IsBlock ((sweepBlock level body).filter keep) := by
  have hinner : ∀ e ∈ ((List.range level.values.length).flatMap fun i =>
      body.results false [level] [i]).filter keep, Inner e := by
    intro e he
    obtain ⟨i, _, he⟩ := List.mem_flatMap.mp (List.mem_of_mem_filter he)
    exact Deck.results_inner (List.cons_ne_nil level []) he
  have hparents : ((body.steps [level]).map fun t => Entry.parent t 0 []).filter keep =
      (body.steps [level]).map fun t => Entry.parent t 0 [] := by
    rw [List.filter_eq_self]
    intro e he
    obtain ⟨t, _, rfl⟩ := List.mem_map.mp he
    exact hkeep t 0 []
  unfold sweepBlock
  rw [List.filter_append, hparents]
  cases hsteps : body.steps [level] with
  | nil =>
    left
    rw [List.flatMap_eq_nil_iff.mpr fun i _ => Deck.results_of_steps_nil hsteps _]
    rfl
  | cons t block => exact .inr ⟨_, _, rfl, fun _ => quiet_parents hinner⟩

/-- A block before blocks of which some are listed. -/
theorem stops_append {block rest : List (Entry K)} {tops : Nat → List (Entry K)}
    (hblock : IsBlock block)
    (hrest : ∀ c : Conversion K, ∀ d ∈ Conversion.stops false failed rest c,
      d.listed = c.listed ∨ ∃ n, d.listed = c.listed ++ c.done ++ tops n) (c : Conversion K) :
    ∀ d ∈ Conversion.stops false failed (block ++ rest) c, d.listed = c.listed ∨
      d.listed = c.listed ++ c.done ∨ ∃ n, d.listed = c.listed ++ c.done ++ (block ++ tops n) := by
  intro d hd
  rcases hblock with rfl | ⟨e, xs, rfl, hquiet⟩
  · exact (hrest c d hd).imp_right .inr
  · obtain ⟨c', hlisted, hall, hstops⟩ := @Conversion.stops_block K false failed e xs rest c hquiet
    rcases hstops d hd with hd | hd | hd
    · exact .inl hd
    · exact .inr (.inl hd)
    · rcases hrest c' d hd with hd | ⟨n, hd⟩
      · rw [hd]
        exact hlisted.imp_right .inl
      · refine .inr (.inr ⟨n, ?_⟩)
        rw [hd, hall, List.append_assoc]

/-- Wherever the conversion ends, whole statements of the deck are listed. -/
theorem stops_listed {keep : Entry K → Bool} (hkeep : ∀ s d idx, keep (.parent s d idx) = true) (p : Deck K)
    (c : Conversion K) : ∀ d ∈ Conversion.stops false failed ((p.results false [] []).filter keep) c,
      d.listed = c.listed ∨
        ∃ n, d.listed = c.listed ++ c.done ++ ((p.takeTop n).results false [] []).filter keep := by
  induction p generalizing c with
  | done =>
    intro d hd
    cases List.mem_singleton.mp hd
    exact .inr ⟨0, (List.append_nil _).symm⟩
  | analysis s rest ih =>
    have hresults (q : Deck K) : ((Deck.analysis s q).results false [] []).filter keep =
        [Entry.unswept { s with context := [] }].filter keep ++ (q.results false [] []).filter keep :=
      List.filter_append [_] _
    have hblock : IsBlock ([Entry.unswept { s with context := [] }].filter keep) := by
      cases hk : keep (.unswept { s with context := [] }) with
      | false => exact .inl (List.filter_cons_of_neg (by simp [hk]))
      | true => exact .inr ⟨_, [], List.filter_cons_of_pos hk, fun _ => trivial⟩
    rw [hresults]
    intro d hd
    rcases stops_append hblock ih c d hd with hd | hd | ⟨n, hd⟩
    · exact .inl hd
    · exact .inr ⟨0, hd.trans (List.append_nil _).symm⟩
    · refine .inr ⟨n + 1, ?_⟩
      rw [hd, ← hresults]
      rfl
  | sweep level body rest _ ih =>
    have hresults (q : Deck K) : ((Deck.sweep level body q).results false [] []).filter keep =
        (sweepBlock level body).filter keep ++ (q.results false [] []).filter keep :=
      List.filter_append _ _
    rw [hresults]
    intro d hd
    rcases stops_append (isBlock_sweep hkeep level body) ih c d hd with hd | hd | ⟨n, hd⟩
    · exact .inl hd
    · exact .inr ⟨0, hd.trans (List.append_nil _).symm⟩
    · refine .inr ⟨n + 1, ?_⟩
      rw [hd, ← hresults]
      rfl

end Listed

/-! ## Parents and leaves -/

section Status

variable {K R V : Type} {l : Loaded K R V}

theorem groupStatus_failed_iff (g : Nat) : l.groupStatus g = .failed ↔
    (∃ k ∈ l.out.failedPoint, k ≤ g + 1) ∨ l.groups.length ≤ g ∨
      (l.status = .failed ∧ l.out.failedPoint = none) := by
  have hany : (l.out.failedPoint.any fun k => k ≤ g + 1) = true ↔ ∃ k ∈ l.out.failedPoint, k ≤ g + 1 := by
    rw [Option.any_eq_true]
    simp
  unfold Loaded.groupStatus
  by_cases hpoint : ∃ k ∈ l.out.failedPoint, k ≤ g + 1
  · rw [if_pos (hany.mpr hpoint)]
    exact iff_of_true rfl (.inl hpoint)
  · rw [if_neg (mt hany.mp hpoint), or_iff_right hpoint]
    split_ifs with hlen hlast hfailed hnone
    · simp [hlen]
    · simp [hlen, hlast.1]
    · simp [hfailed, hnone]
    · simp [hlen, hnone]
    · simp [hlen, hfailed]

/-- The points after a failed one have failed. -/
theorem groupStatus_failed_of_le {g h : Nat} (hfailed : l.groupStatus g = .failed) (hle : g ≤ h) :
    l.groupStatus h = .failed := by
  rw [groupStatus_failed_iff] at *
  rcases hfailed with ⟨k, hk, hkg⟩ | hlen | hstatus
  · exact .inl ⟨k, hk, by omega⟩
  · exact .inr (.inl (by omega))
  · exact .inr (.inr hstatus)

theorem groupIndex_concat {idx : List Nat} {cs : List Nat} {n : Nat} (hcounts : l.step.counts = cs ++ [n])
    (hidx : idx.length = cs.length) (i : Nat) :
    l.groupIndex (idx ++ [i]) = RowMajor.rankFrom 0 cs idx * n + i := by
  show RowMajor.rankFrom 0 l.step.counts (idx ++ [i]) = _
  rw [hcounts, RowMajor.rankFrom_append 0 hidx]
  rfl

/-- The counted leaves of an innermost parent. -/
theorem length_parentValues {loaded : AnalysisStep K → Loaded K R V} (hstep : ∀ s, (loaded s).step = s)
    {s : AnalysisStep K} {d : Nat} {idx : List Nat}
    (hd : d + 1 = s.context.length) {n : Nat} (hn : s.counts[d]? = some n) :
    (parentValues (loaded s) d idx).length =
      ((List.range n).takeWhile fun i =>
        (loaded s).groupStatus ((loaded s).groupIndex (idx ++ [i])) ≠ .failed).length := by
  have hvalues : ((s.context[d]?.map SweepLevel.values).getD []).length = n := by
    unfold AnalysisStep.counts at hn
    rw [List.getElem?_map] at hn
    obtain ⟨level, hlevel, rfl⟩ := Option.map_eq_some_iff.mp hn
    rw [hlevel]
    rfl
  unfold parentValues
  dsimp only
  rw [hstep, if_pos hd, List.length_take, hvalues, Nat.min_eq_left]
  have hstart := List.takeWhile_prefix (fun i =>
    decide ((loaded s).groupStatus ((loaded s).groupIndex (idx ++ [i])) ≠ .failed)) (l := List.range n)
  have hle := hstart.length_le
  rwa [List.length_range] at hle

end Status

section Leaves

variable {K : Type} [DecidableEq K]

/-- The index of a leaf of `s` in the innermost sweep at the indices `idx` of the outer ones. -/
def Entry.leafIndex? (s : AnalysisStep K) (idx : List Nat) : Entry K → Option Nat
  | leaf t jdx => if t = s ∧ jdx.dropLast = idx then jdx.getLast? else none
  | _ => none

theorem leafIndex_kept {p : Deck K} {s : AnalysisStep K} (hs : s.context ≠ []) (idx : List Nat)
    (keep : Entry K → Bool) :
    ((p.results false [] []).filter keep).filterMap (Entry.leafIndex? s idx) =
      ((p.results false [] []).filterMap (Entry.point? s)).filterMap fun jdx =>
        if keep (.leaf s jdx) = true ∧ jdx.dropLast = idx then jdx.getLast? else none := by
  rw [List.filterMap_filter, List.filterMap_filterMap]
  apply List.filterMap_congr
  intro e he
  cases e with
  | unswept t =>
    have hne : t ≠ s := by
      rintro rfl
      exact hs (Deck.fits false he).2
    simp [Entry.leafIndex?, Entry.point?, hne]
  | parent t d jdx => simp [Entry.leafIndex?, Entry.point?]
  | leaf t jdx =>
    by_cases hts : t = s
    · subst hts
      by_cases hk : keep (.leaf t jdx) = true <;> simp [Entry.leafIndex?, Entry.point?, hk]
    · simp [Entry.leafIndex?, Entry.point?, hts]

theorem Deck.index_of_leaf {p : Deck K} {s : AnalysisStep K} {idx : List Nat}
    (hnodup : (p.steps []).Nodup)
    (h : .leaf s idx ∈ p.results false [] []) :
    s ∈ p.steps [] ∧ s.context ≠ [] ∧ idx ∈ RowMajor.indices s.counts := by
  obtain ⟨hs, hswept⟩ := Deck.fits false h
  have hpoints : (p.results false [] []).filterMap (Entry.point? s) = RowMajor.indices s.counts :=
    (Deck.points_of_mem false hnodup hs rfl).trans (List.map_id _)
  refine ⟨hs, hswept, ?_⟩
  rw [← hpoints]
  exact List.mem_filterMap.mpr ⟨_, h, if_pos rfl⟩

end Leaves

section Lists

variable {K R V : Type} [DecidableEq K] {loaded : AnalysisStep K → Loaded K R V}

/-- A list of results in which an innermost parent has the leaves that it counts, and each nested parent and
    each leaf its parent. -/
structure ParentsList (legacy : Bool) (loaded : AnalysisStep K → Loaded K R V) (listed : List (Entry K)) :
    Prop where
  leaves : ∀ s d idx, .parent s d idx ∈ listed → d + 1 = s.context.length →
    listed.filterMap (Entry.leafIndex? s idx) = List.range (parentValues (loaded s) d idx).length
  parents : ∀ e ∈ listed, ∀ parent, e.parent? legacy = some parent → parent ∈ listed

/-- Without parents there is nothing that could be missing. -/
theorem parentsList_legacy {p : Deck K} {listed : List (Entry K)} (h : ∀ e ∈ listed, e ∈ p.results true [] []) :
    ParentsList true loaded listed where
  leaves s d idx hparent := absurd (h _ hparent) Deck.parent_not_mem_results
  parents e he parent hparent := by
    cases e with
    | unswept s => cases hparent
    | parent s d idx => exact absurd (h _ he) Deck.parent_not_mem_results
    | leaf s idx => cases hparent

end Lists

section Consistent

variable {K R V : Type} [LinearOrder K] [Zero K] [Sub K] [Neg K] [Mul K] (endRel : K)

/-- No leaf that a parent counts is left out: it is not dropped, and an operating point has a row. -/
def KeepsLeaves (loaded : AnalysisStep K → Loaded K R V) (stepOf : Entry K → Option (AnalysisStep K))
    (noOutput : AnalysisStep K → Bool) (s : AnalysisStep K) : Prop :=
  ∀ idx ∈ RowMajor.indices s.counts,
    (loaded s).groupStatus ((loaded s).groupIndex idx) ≠ .failed →
      dropped stepOf noOutput (.leaf s idx) = false ∧
        (s.axis = none → (loaded s).rowSource ((loaded s).groupIndex idx) ≠ [])

variable {endRel} {loaded : AnalysisStep K → Loaded K R V} {stepOf : Entry K → Option (AnalysisStep K)}
  {noOutput : AnalysisStep K → Bool}

theorem failed_leaf_iff (hstep : ∀ s, (loaded s).step = s) (s : AnalysisStep K) (idx : List Nat) :
    Entry.failed endRel loaded (.leaf s idx) = true ↔
      (loaded s).groupStatus ((loaded s).groupIndex idx) = .failed ∨
        (s.axis = none ∧ (loaded s).rowSource ((loaded s).groupIndex idx) = []) := by
  unfold Entry.failed
  rw [decide_eq_true_iff]
  show (leaf endRel (loaded s) idx).1 = .failed ↔ _
  unfold leaf
  rw [fill_eq, hstep]
  split_ifs with h
  · simp [h]
  · simp only [h, iff_false]
    exact fun hstatus => h (.inl hstatus)

/-- The results of the deck that are neither dropped nor failed. -/
def kept (endRel : K) (loaded : AnalysisStep K → Loaded K R V) (stepOf : Entry K → Option (AnalysisStep K))
    (noOutput : AnalysisStep K → Bool) (e : Entry K) : Bool :=
  !Entry.failed endRel loaded e && !dropped stepOf noOutput e

variable {s : AnalysisStep K} {idx : List Nat}

theorem kept_parent (d : Nat) : kept endRel loaded stepOf noOutput (.parent s d idx) = true := rfl

/-- The leaves of an innermost sweep that are kept are the points before the first failed one. -/
theorem filterMap_leafIndex {p : Deck K} (hnodup : (p.steps []).Nodup) (hstep : ∀ s, (loaded s).step = s)
    (hs : s ∈ p.steps []) {d : Nat} (hd : d + 1 = s.context.length)
    (hidx : idx ∈ RowMajor.indices (s.counts.take d))
    (hkeeps : ∀ i, idx ++ [i] ∈ RowMajor.indices s.counts →
      kept endRel loaded stepOf noOutput (.leaf s (idx ++ [i])) =
        decide ((loaded s).groupStatus ((loaded s).groupIndex (idx ++ [i])) ≠ .failed)) :
    ((p.results false [] []).filter (kept endRel loaded stepOf noOutput)).filterMap
        (Entry.leafIndex? s idx) = List.range (parentValues (loaded s) d idx).length := by
  have hswept : s.context ≠ [] := List.ne_nil_of_length_pos (by omega)
  have hlen : s.counts.length = d + 1 := (List.length_map _).trans hd.symm
  obtain ⟨n, hn⟩ : ∃ n, s.counts[d]? = some n := ⟨_, List.getElem?_eq_getElem (by omega)⟩
  have hcounts : s.counts = s.counts.take d ++ [n] := by
    conv_lhs => rw [← List.take_of_length_le hlen.le, List.take_add_one, hn]
    rfl
  have hpoints : (p.results false [] []).filterMap (Entry.point? s) = RowMajor.indices s.counts :=
    (Deck.points_of_mem false hnodup hs rfl).trans (List.map_id _)
  have hmem (i : Nat) (hi : i ∈ List.range n) : idx ++ [i] ∈ RowMajor.indices s.counts := by
    rw [hcounts, RowMajor.indices_concat]
    exact List.mem_flatMap.mpr ⟨idx, hidx, List.mem_map_of_mem hi⟩
  rw [leafIndex_kept hswept, hpoints, hcounts, RowMajor.indices_concat, List.filterMap_flatMap,
    RowMajor.flatMap_eq_of_nodup (RowMajor.nodup_indices _) hidx, List.filterMap_map]
  · -- the points of the innermost sweep
    rw [length_parentValues hstep hd hn, ← RowMajor.filter_range, ← List.filterMap_eq_filter]
    · apply List.filterMap_congr
      intro i hi
      simp [hkeeps i (hmem i hi), Option.guard]
    · intro i j hij hj
      rw [decide_eq_true_iff] at *
      refine fun hfailed => hj (groupStatus_failed_of_le hfailed ?_)
      have hlen' : idx.length = (s.counts.take d).length :=
        (RowMajor.mem_indices.mp hidx).length_eq
      rw [groupIndex_concat (by rw [hstep]; exact hcounts) hlen',
        groupIndex_concat (by rw [hstep]; exact hcounts) hlen']
      omega
  · -- the points at other indices of the outer sweeps
    intro jdx _ hne
    rw [List.filterMap_map, List.filterMap_eq_nil_iff]
    intro i _
    simp [hne]

theorem kept_leaf (hstep : ∀ s, (loaded s).step = s) (hkeeps : KeepsLeaves loaded stepOf noOutput s)
    (hidx : idx ∈ RowMajor.indices s.counts) : kept endRel loaded stepOf noOutput (.leaf s idx) =
      decide ((loaded s).groupStatus ((loaded s).groupIndex idx) ≠ .failed) := by
  have hfailed := @failed_leaf_iff _ _ _ _ _ _ _ _ endRel loaded hstep s idx
  unfold kept
  by_cases hstatus : (loaded s).groupStatus ((loaded s).groupIndex idx) = .failed
  · rw [hfailed.mpr (.inl hstatus)]
    simp [hstatus]
  · obtain ⟨hdropped, hrow⟩ := hkeeps idx hidx hstatus
    have hok : Entry.failed endRel loaded (.leaf s idx) = false := by
      rw [← Bool.not_eq_true, hfailed]
      rintro (h | ⟨haxis, hnil⟩)
      · exact hstatus h
      · exact hrow haxis hnil
    simp [hok, hdropped, hstatus]

/-- The whole results of statements: nothing that a parent counts is missing. -/
theorem parentsList_of_deck {p : Deck K} (hnodup : (p.steps []).Nodup) (hstep : ∀ s, (loaded s).step = s)
    (hkeeps : ∀ s ∈ p.steps [], s.context ≠ [] → KeepsLeaves loaded stepOf noOutput s) :
    ParentsList false loaded ((p.results false [] []).filter (kept endRel loaded stepOf noOutput)) where
  leaves s d idx hparent hd := by
    obtain ⟨hs, _, _, kdx, hk, rfl⟩ := Deck.parent_mem_results_iff.mp (List.mem_of_mem_filter hparent)
    have hswept : s.context ≠ [] := List.ne_nil_of_length_pos (by omega)
    exact filterMap_leafIndex hnodup hstep hs hd hk fun i hi => kept_leaf hstep (hkeeps s hs hswept) hi
  parents e he parent hparent := by
    have hmem := List.mem_of_mem_filter he
    cases e with
    | unswept s => cases hparent
    | parent s d idx =>
      obtain ⟨hne, heq⟩ := Option.ite_none_left_eq_some.mp hparent
      cases heq
      obtain ⟨hs, _, hlt, kdx, hk, rfl⟩ := Deck.parent_mem_results_iff.mp hmem
      refine List.mem_filter.mpr ⟨Deck.parent_mem_results_iff.mpr ⟨hs, Nat.zero_le _, by omega, _, ?_, rfl⟩,
        kept_parent _⟩
      have hdrop := RowMajor.dropLast_mem_indices hk
      rw [List.length_nil, List.drop_zero, List.dropLast_take] at hdrop
      · exact hdrop
      · exact hlt.trans_eq (List.length_map _).symm
    | leaf s idx =>
      cases hparent
      obtain ⟨hs, hswept, hidx⟩ := Deck.index_of_leaf hnodup hmem
      have hpos := List.length_pos_of_ne_nil hswept
      refine List.mem_filter.mpr ⟨Deck.parent_mem_results_iff.mpr ⟨hs, Nat.zero_le _, by omega, _, ?_, rfl⟩,
        kept_parent _⟩
      have hdrop := RowMajor.dropLast_mem_indices hidx
      rwa [List.dropLast_eq_take, show s.counts.length = s.context.length from List.length_map _] at hdrop

/-- A leaf that a parent counts is listed, so that it is not left out. -/
theorem keepsLeaves_of_parentsList {p : Deck K} (hstep : ∀ s, (loaded s).step = s)
    (h : ParentsList false loaded ((p.results false [] []).filter (kept endRel loaded stepOf noOutput)))
    (hs : s ∈ p.steps []) (hswept : s.context ≠ []) : KeepsLeaves loaded stepOf noOutput s := by
  intro idx hidx hstatus
  have hpos := List.length_pos_of_ne_nil hswept
  have hlen : s.counts.length = s.context.length := List.length_map _
  obtain ⟨d, hd⟩ : ∃ d, d + 1 = s.context.length := ⟨s.context.length - 1, by omega⟩
  obtain ⟨n, hn⟩ : ∃ n, s.counts[d]? = some n := ⟨_, List.getElem?_eq_getElem (by omega)⟩
  have hcounts : s.counts = s.counts.take d ++ [n] := by
    conv_lhs => rw [← List.take_of_length_le (hlen.trans hd.symm).le, List.take_add_one, hn]
    rfl
  -- the parent of the leaf, and the leaf among those that it counts
  have hconcat := hidx
  rw [hcounts, RowMajor.indices_concat] at hconcat
  obtain ⟨kdx, hk, hconcat⟩ := List.mem_flatMap.mp hconcat
  obtain ⟨i, hi, rfl⟩ := List.mem_map.mp hconcat
  have hparent : .parent s d kdx ∈ (p.results false [] []).filter (kept endRel loaded stepOf noOutput) :=
    List.mem_filter.mpr
      ⟨Deck.parent_mem_results_iff.mpr ⟨hs, Nat.zero_le _, by omega, kdx, hk, rfl⟩, kept_parent _⟩
  have hlength := @length_parentValues _ _ _ loaded hstep s d kdx hd n hn
  have hcounted : i ∈ List.range (parentValues (loaded s) d kdx).length := by
    rw [hlength, ← RowMajor.filter_range]
    · exact List.mem_filter.mpr ⟨hi, decide_eq_true hstatus⟩
    · intro a b hab hb
      rw [decide_eq_true_iff] at *
      refine fun hfailed => hb (groupStatus_failed_of_le hfailed ?_)
      have hlen' : kdx.length = (s.counts.take d).length := (RowMajor.mem_indices.mp hk).length_eq
      rw [groupIndex_concat (by rw [hstep]; exact hcounts) hlen',
        groupIndex_concat (by rw [hstep]; exact hcounts) hlen']
      omega
  rw [← h.leaves s d kdx hparent hd] at hcounted
  obtain ⟨e, he, hindex⟩ := List.mem_filterMap.mp hcounted
  have heq : e = .leaf s (kdx ++ [i]) := by
    cases e with
    | unswept t => cases hindex
    | parent t d jdx => cases hindex
    | leaf t jdx =>
      obtain ⟨⟨rfl, rfl⟩, hlast⟩ := Option.ite_none_right_eq_some.mp hindex
      rw [List.dropLast_append_getLast? i hlast]
  obtain ⟨hok, hdropped⟩ := Bool.and_eq_true_iff.mp (heq ▸ List.mem_filter.mp he).2
  refine ⟨by simpa using hdropped, ?_⟩
  intro haxis hnil
  have hfailed : Entry.failed endRel loaded (.leaf s (kdx ++ [i])) = true :=
    (failed_leaf_iff hstep s (kdx ++ [i])).mpr (.inr ⟨haxis, hnil⟩)
  rw [hfailed] at hok
  cases hok

end Consistent

/-- Every state in which the conversion may end lists parents with the leaves that they count if and only if
    no counted leaf is left out. -/
theorem psf_parents_iff {K R V : Type} [LinearOrder K] [Zero K] [Sub K] [Neg K] [Mul K] (endRel : K)
    {p : Deck K} (hsweeps : p.sweepNames.Nodup) (hnames : ((p.steps []).map AnalysisStep.name).Nodup)
    (legacy : Bool) (engine : Engine) (outputs : AnalysisStep K → Output K R V)
    (stepOf : Entry K → Option (AnalysisStep K)) (noOutput : AnalysisStep K → Bool) :
    let loaded := fun s => load engine s (outputs s)
    let failed := Entry.failed endRel loaded
    (∀ c ∈ psf endRel legacy loaded stepOf noOutput (p.steps []),
        ParentsList legacy loaded (logFile failed c) ∧ ∀ e ∈ logFile failed c, e ∈ c.written) ↔
      legacy = true ∨ ∀ s ∈ p.steps [], s.context ≠ [] → KeepsLeaves loaded stepOf noOutput s := by
  intro loaded failed
  have hstep (s : AnalysisStep K) : (loaded s).step = s := load_step
  have hnodup : (p.steps []).Nodup := hnames.of_map
  have hrun : run legacy (p.steps []) = p.results legacy [] [] := Deck.run_steps legacy hsweeps
  have hempty : ∀ e ∈ ([] : List (Entry K)) ++ [], failed e = false → e ∈ ([] : List (Entry K)) :=
    fun e he => absurd he List.not_mem_nil
  constructor
  · intro h
    cases hlegacy : legacy with
    | true => exact .inl rfl
    | false =>
      right
      rw [hlegacy] at h hrun
      intro s hs hswept
      -- the end of the stream
      obtain ⟨c, hc, hlisted⟩ := @Conversion.exists_stop K false failed
        ((run false (p.steps [])).filter fun e => !dropped stepOf noOutput e) ⟨[], [], [], false⟩
      have hlog : logFile failed c =
          (p.results false [] []).filter (kept endRel loaded stepOf noOutput) := by
        unfold logFile
        rw [hlisted, List.nil_append, List.nil_append, hrun, List.filter_filter]
        rfl
      exact keepsLeaves_of_parentsList hstep (hlog ▸ (h c hc).1) hs hswept
  · intro h c hc
    have hmem := Conversion.mem_of_stops hempty c hc
    constructor
    · cases hlegacy : legacy with
      | true =>
        rw [hlegacy] at hmem hrun
        apply parentsList_legacy
        intro e he
        have he' := (hmem e (List.mem_of_mem_filter he)).1
        rw [hrun] at he'
        exact List.mem_of_mem_filter he'
      | false =>
        have hkeeps := h.resolve_left (by simp [hlegacy])
        rw [hlegacy] at hc hrun
        unfold psf at hc
        rw [hrun] at hc
        -- the statements of the deck that are listed
        obtain ⟨n, hlog⟩ : ∃ n, logFile failed c =
            ((p.takeTop n).results false [] []).filter (kept endRel loaded stepOf noOutput) := by
          rcases stops_listed (fun _ _ _ => rfl) p _ c hc with hlisted | ⟨n, hlisted⟩
          · refine ⟨0, ?_⟩
            unfold logFile
            rw [hlisted]
            cases p <;> rfl
          · refine ⟨n, ?_⟩
            unfold logFile
            rw [hlisted, List.nil_append, List.nil_append, List.filter_filter]
            rfl
        rw [hlog]
        have htop := Deck.steps_takeTop n p []
        exact parentsList_of_deck (hnodup.sublist htop.sublist) hstep
          fun s hs => hkeeps s (htop.subset hs)
    · intro e he
      obtain ⟨he, hok⟩ := List.mem_filter.mp he
      exact (hmem e he).2 (by simpa using hok)

/-! ## A sweep without output -/

section Examples

/-- An operating point in a sweep of two points, which ran. -/
def sweptOp : AnalysisStep Int → Output Int Int Int := fun _ => opOutput .ok [7, 8]

/-- `step_of`, of a plan with the one step. -/
def stepOfOp (_ : Entry Int) : Option (AnalysisStep Int) := some opStep

theorem psf_parents_op : (opDeck.steps []).Nodup ∧
    ∀ c ∈ psf 0 false (fun s => load .vacask s (sweptOp s)) stepOfOp (fun _ => false) (opDeck.steps []),
      ParentsList false (fun s => load .vacask s (sweptOp s))
        (logFile (Entry.failed 0 fun s => load .vacask s (sweptOp s)) c) ∧
          ∀ e ∈ logFile (Entry.failed 0 fun s => load .vacask s (sweptOp s)) c, e ∈ c.written := by
  refine ⟨by decide, ?_⟩
  apply (@psf_parents_iff Int Int Int _ _ _ _ _ 0 opDeck (by decide) (by decide) false .vacask sweptOp stepOfOp
    fun _ => false).mpr
  right
  intro s hs _
  cases List.mem_singleton.mp hs
  intro idx hidx _
  have hall : ∀ idx ∈ RowMajor.indices opStep.counts,
      (load .vacask opStep (sweptOp opStep)).rowSource
        ((load .vacask opStep (sweptOp opStep)).groupIndex idx) ≠ [] := by decide
  exact ⟨rfl, fun _ => hall idx hidx⟩

/-- With save=nooutput the parent is listed with two values and without a leaf. -/
theorem not_parents_nooutput : ¬∀ c ∈ psf 0 false (fun s => load .vacask s (sweptOp s)) stepOfOp
    (fun _ => true) (opDeck.steps []), ParentsList false (fun s => load .vacask s (sweptOp s))
      (logFile (Entry.failed 0 fun s => load .vacask s (sweptOp s)) c) := by
  intro h
  have hend : (⟨[.parent opStep 0 []], [], [.parent opStep 0 []], true⟩ : Conversion Int) ∈
      psf 0 false (fun s => load .vacask s (sweptOp s)) stepOfOp (fun _ => true) (opDeck.steps []) :=
    List.mem_cons_of_mem _ (List.mem_cons_of_mem _ List.mem_cons_self)
  have hleaves := (h _ hend).leaves opStep 0 [] (by decide) rfl
  exact absurd hleaves (by decide)

end Examples

end Vamos.Spectre
