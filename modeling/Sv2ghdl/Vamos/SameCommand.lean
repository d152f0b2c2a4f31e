import Sv2ghdl.Vamos.OptionPaths

/-!
# The same command

The expansion of option files takes the tokens of a `-F` file against its directory before the option table says what
they are.  The job that the table builds of the expanded command line is the job of the tokens in place exactly when
the two agree on what is a path.
-/

open Python PosixPath Vamos.OptionTable Vamos.OptionFiles

namespace Vamos.Vcs

/-! ## Tokens that fit -/

section Fits

variable (cwd : Str)

/-- A part of `+incdir+` that is not absolute: when it is not taken against the base, the base is as good as the
    current directory; otherwise its path has no `+`. -/
def PartFits (t : Token) (p : Str) : Prop :=
  isAbs p = false →
    if t.value = true ∨ hasOptionChar p = true then abs cwd p = abs t.base p else plus ∉ abs t.base p

/-- A role for which the expansion and the option table agree on what is a path.  `-o` and `-l` are left out, since
    a later one replaces them. -/
def Fits : Role → Prop
  | .positional t => t.Relative → hasOptionChar t.text = true → abs cwd t.text = abs t.base t.text
  | .unknown _ => True
  | .option o t => o = incdir → t.base ≠ [] → ∀ p ∈ (valueOf incdir t.text).toList, PartFits cwd t p
  | .value o _ v =>
    v.Relative →
      match o.act with
      | .exe | .log => True
      | .libfile => hasOptionChar v.text = true → abs cwd v.marked = abs v.base v.text
      | .libdir => hasOptionChar v.text = false
      | .top => hasOptionChar v.text = true ∧ plusParts v.marked = plusParts v.text
      | _ => hasOptionChar v.text = true ∧ v.marked = v.text

end Fits

section Step

variable {U : UnicodeData} {cwd : Str}

theorem abs_of_isAbs {p : Str} (h : isAbs p = true) (dir : Str) : abs dir p = p := if_pos h

theorem isAbs_abs {dir : Str} (h : isAbs dir = true) (p : Str) : isAbs (abs dir p) = true := by
  unfold abs
  split_ifs with hp
  · exact hp
  · exact isAbs_normpath (isAbs_join h p)

theorem against_of_relative {t : Token} (h : t.Relative) : against t.base t.text = abs t.base t.text :=
  if_neg (by simp [h.1, h.2.1])

theorem against_of_not_relative {t : Token} (h : ¬t.Relative) : against t.base t.text = t.text := by
  unfold against
  split_ifs with hnil
  · rfl
  · rw [not_or] at hnil
    have habs : isAbs t.text = true := by
      by_contra hcon
      exact h ⟨hnil.1, hnil.2, by simpa using hcon⟩
    exact abs_of_isAbs habs _

theorem written_of_not_relative {t : Token} (h : ¬t.Relative) : t.written = t.text := by
  cases hopt : hasOptionChar t.text with
  | false => rw [written_of_not_option hopt, if_neg h]
  | true =>
    rw [written_of_option hopt, Token.marked, if_neg]
    rintro ⟨hbase, -, -⟩
    have hne : t.text ≠ [] := fun hnil => by rw [hnil] at hopt; cases hopt
    have habs : ¬isAbs t.text = true := fun habs => by rw [hasOptionChar_of_isAbs habs] at hopt; cases hopt
    exact h ⟨hbase, hne, by simpa using habs⟩

theorem written_of_relative {t : Token} (h : t.Relative) (hopt : hasOptionChar t.text = false) :
    t.written = abs t.base t.text := by
  rw [written_of_not_option hopt, if_pos h, abs, if_neg (by simp [h.2.2])]

theorem abs_ne_text {t : Token} (h : t.Relative) (hbase : BaseOk t.base) : abs t.base t.text ≠ t.text := fun heq => by
  have habs := isAbs_abs (hbase.resolve_left h.1) t.text
  rw [heq, h.2.2] at habs
  cases habs

theorem written_eq_text_iff {t : Token} (h : t.Relative) (hbase : BaseOk t.base) :
    t.written = t.text ↔ hasOptionChar t.text = true ∧ t.marked = t.text := by
  cases hopt : hasOptionChar t.text with
  | false =>
    rw [written_of_relative h hopt]
    exact iff_of_false (abs_ne_text h hbase) (by simp)
  | true =>
    rw [written_of_option hopt]
    simp

/-- Two jobs agree under a condition and come apart without it. -/
def Job.AgreeIf (P : Prop) (j k : Job) : Prop := (P → j.rest = k.rest) ∧ (¬P → j.Apart k)

theorem Job.AgreeIf.of_eq {P : Prop} (hP : P) {j k : Job} (h : j.rest = k.rest) : Job.AgreeIf P j k :=
  ⟨fun _ => h, fun hn => absurd hP hn⟩

/-! ### Source files -/

theorem positional_of_ext {tok : Str} (h : ext tok = []) (job : Job) :
    positional U cwd job tok = { job with sources := job.sources ++ [⟨abs cwd tok, job.std⟩] } := by
  have hlower : U.lower (ext tok) = [] := by
    rw [h]
    rfl
  rw [positional]
  simp only [hlower]
  rw [if_neg (by decide), if_neg (by decide), if_neg (by decide)]
  cases hstd : job.std <;> rfl

theorem bare_of_kind {T : Table Act} {tok : Str} (h : T.kind tok = .positional) (hopt : hasOptionChar tok = true) :
    tok = [dash] ∨ tok = [plus] := by
  rw [Table.kind, if_pos hopt] at h
  cases hfind : T.find tok with
  | none =>
    rw [hfind] at h
    by_contra hcon
    simp only [hcon, if_false] at h
    cases h
  | some o =>
    rw [hfind] at h
    cases h

theorem positional_agree {t : Token} (hbase : BaseOk t.base) (hkind : table.kind t.text = .positional) (job : Job) :
    Job.AgreeIf (Fits cwd (.positional t)) (job.apply U cwd (Role.written (.positional t)))
      (job.apply U cwd (Role.inPlace (.positional t))) := by
  rw [Role.written, Role.inPlace]
  by_cases hrel : t.Relative
  · rw [against_of_relative hrel]
    have habs := hbase.resolve_left hrel.1
    cases hopt : hasOptionChar t.text with
    | false =>
      rw [written_of_relative hrel hopt]
      refine .of_eq (fun _ h => ?_) rfl
      rw [hopt] at h
      cases h
    | true =>
      have hbare := bare_of_kind hkind hopt
      have hmark : t.marked = t.text := marked_of_kind (by simp [hkind])
      have hexts : ext t.text = [] ∧ ext (abs t.base t.text) = [] := by
        rw [abs, if_neg (by simp [hrel.2.2])]
        rcases hbare with h | h
        all_goals
          rw [h]
          exact ⟨by decide, ext_normpath_join habs (by decide) (by decide)⟩
      rw [written_of_option hopt, hmark, Job.apply, Job.apply, positional_of_ext hexts.1, positional_of_ext hexts.2,
        abs_of_isAbs (isAbs_abs habs _)]
      constructor
      · intro h
        rw [h hrel hopt]
      · intro h
        refine .inl (List.Apart.append_left (.heads (fun heq => h fun _ _ => ?_) [] []) _)
        exact congrArg Source.path heq
  · rw [written_of_not_relative hrel, against_of_not_relative hrel]
    exact .of_eq (fun h => absurd h hrel) rfl

/-! ### Parts of `+incdir+` -/

/-- What the scan finds where the part stood. -/
def partWritten (t : Token) (p : Str) : List Str := if t.value then [p] else plusParts (rebase p t.base)

theorem plusParts_of_isAbs {q : Str} (h : isAbs q = true) :
    ∃ x xs, plusParts q = x :: xs ∧ isAbs x = true ∧ plus ∉ x := by
  obtain ⟨w, rfl⟩ : ∃ w, q = slash :: w := by
    cases q with
    | nil => cases h
    | cons c w =>
      have hc : c = slash := by simpa [isAbs] using h
      exact ⟨w, by rw [hc]⟩
  obtain ⟨x, xs, hparts, hx⟩ := plusParts_cons (show slash ≠ plus by decide) w
  exact ⟨slash :: x, xs, hparts, rfl, hx⟩

theorem rebase_of_not_isAbs {p : Str} (hne : p ≠ []) (habs : isAbs p = false) (base : Str) :
    rebase p base = if hasOptionChar p then p else abs base p := by
  cases hopt : hasOptionChar p with
  | true => exact if_pos (.inr (.inr hopt))
  | false =>
    have hpath : ¬isAbs p = true := by simp [habs]
    rw [rebase, if_neg (by simp [hne, habs, hopt]), if_neg Bool.false_ne_true, abs, if_neg hpath]

/-- A part's directories are those in place under its condition, and come apart without it. -/
theorem part_agree {t : Token} (hbase : isAbs t.base = true) {p : Str} (hne : p ≠ []) (hplus : plus ∉ p) :
    (PartFits cwd t p → (partWritten t p).map (abs cwd) = [abs cwd (against t.base p)]) ∧
      (¬PartFits cwd t p → ((partWritten t p).map (abs cwd)).Apart [abs cwd (against t.base p)]) := by
  have hbne : t.base ≠ [] := fun hnil => by rw [hnil] at hbase; cases hbase
  have hagainst : against t.base p = abs t.base p := if_neg (by simp [hbne, hne])
  cases habs : isAbs p with
  | true =>
    have hwritten : partWritten t p = [p] := by
      have hrebase : rebase p t.base = p := if_pos (.inr (.inl habs))
      rw [partWritten, hrebase, plusParts_singleton hne hplus, ite_self]
    rw [hwritten, hagainst, abs_of_isAbs habs]
    refine ⟨fun _ => rfl, fun h => absurd (fun hcon => ?_) h⟩
    rw [habs] at hcon
    cases hcon
  | false =>
    rw [hagainst, abs_of_isAbs (isAbs_abs hbase p)]
    by_cases hkeep : t.value = true ∨ hasOptionChar p = true
    · have hwritten : partWritten t p = [p] := by
        rw [partWritten, rebase_of_not_isAbs hne habs]
        rcases hkeep with hvalue | hopt
        · rw [if_pos hvalue]
        · rw [if_pos hopt, plusParts_singleton hne hplus, ite_self]
      rw [hwritten]
      simp only [PartFits, habs, forall_const, if_pos hkeep]
      exact ⟨fun h => congrArg (fun q => [q]) h, fun h => .heads h [] []⟩
    · have hwritten : partWritten t p = plusParts (abs t.base p) := by
        rw [not_or] at hkeep
        rw [partWritten, rebase_of_not_isAbs hne habs, if_neg hkeep.1, if_neg hkeep.2]
      obtain ⟨x, xs, hparts, hx, hxplus⟩ := plusParts_of_isAbs (isAbs_abs hbase p)
      rw [hwritten]
      simp only [PartFits, habs, forall_const, if_neg hkeep]
      constructor
      · intro h
        have hpne : abs t.base p ≠ [] := fun hnil => by
          have hcon := isAbs_abs hbase p
          rw [hnil] at hcon
          cases hcon
        rw [plusParts_singleton hpne h, List.map_singleton, abs_of_isAbs (isAbs_abs hbase p)]
      · intro h
        rw [hparts, List.map_cons, abs_of_isAbs hx]
        refine .heads (fun heq => h fun hmem => ?_) _ _
        exact hxplus (heq ▸ hmem)

theorem incdirs_written {t : Token} (hne : t.base ≠ []) (hinc : incdirPrefix.isPrefixOf t.text = true) :
    (valueOf incdir t.written).toList = (valueOf incdir t.text).toList.flatMap (partWritten t) := by
  have hvalue : ∀ tok, (valueOf incdir tok).toList = plusParts (tok.drop incdirPrefix.length) := fun _ => rfl
  rw [hvalue, hvalue, written_of_option (hasOptionChar_of_incdir hinc), Token.marked]
  cases hv : t.value with
  | true =>
    have hsingle : partWritten t = fun p => [p] := funext fun p => if_pos hv
    rw [if_neg (by simp), hsingle, List.flatMap_singleton']
  | false =>
    have hparts : partWritten t = fun p => plusParts (rebase p t.base) := funext fun p => if_neg (by simp [hv])
    rw [if_pos ⟨hne, rfl, hinc⟩, rebaseToken, if_pos hinc, List.drop_left, plusParts_intercalate, List.flatMap_map,
      hparts]

theorem option_agree {o : Opt Act} {t : Token} (hbase : BaseOk t.base) (hkind : table.kind t.text = .option o)
    (job : Job) :
    Job.AgreeIf (Fits cwd (.option o t)) (job.apply U cwd (Role.written (.option o t)))
      (job.apply U cwd (Role.inPlace (.option o t))) := by
  rw [Role.written, Role.inPlace]
  by_cases ho : o = incdir
  · subst ho
    have hinc := (incdir_of_find (Table.kind_option hkind) rfl).2
    by_cases hnil : t.base = []
    · have hsame : t.written = t.text := written_of_not_relative fun hrel => hrel.1 hnil
      have hagainst : against t.base = id := funext fun p => if_pos (.inl hnil)
      refine .of_eq (fun _ h => absurd hnil h) ?_
      simp only [hsame, hagainst, List.map_id, Job.apply, Act.apply]
      rfl
    · have habs := hbase.resolve_left hnil
      have hagree := fun p (hp : p ∈ (valueOf incdir t.text).toList) =>
        @part_agree cwd t habs p (mem_plusParts hp).1 (mem_plusParts hp).2
      have hcode : ((valueOf incdir t.written).toList).map (abs cwd) =
          (valueOf incdir t.text).toList.flatMap fun p => (partWritten t p).map (abs cwd) := by
        rw [incdirs_written hnil hinc, List.map_flatMap]
      have hplace : ((valueOf incdir t.text).toList.map (against t.base)).map (abs cwd) =
          (valueOf incdir t.text).toList.flatMap fun p => [abs cwd (against t.base p)] := by
        rw [List.map_map, ← List.map_eq_flatMap]
        rfl
      have hrun : ∀ shown v, job.apply U cwd (.option incdir shown v) =
        { job with incdirs := job.incdirs ++ v.toList.map (abs cwd) } := fun _ _ => rfl
      have hact : incdir.act = .incdir := rfl
      rw [if_pos hact, hrun, hrun, hcode, Value.toList, hplace]
      constructor
      · intro h
        rw [List.flatMap_congr fun p hp => (hagree p hp).1 (h rfl hnil p hp)]
      · intro h
        simp only [Fits, forall_const, not_forall] at h
        obtain ⟨-, p, hp, hpart⟩ := h
        refine .inr (.inr (.inl ?_))
        refine .append_left (.flatMap (fun q hq => ?_) hp ((hagree p hp).2 hpart).ne) _
        by_cases hq' : PartFits cwd t q
        · exact .inl ((hagree q hq).1 hq')
        · exact .inr ((hagree q hq).2 hq')
  · have hsame : t.written = t.text := written_of_kind (by simp [hkind]) (by simpa [hkind] using ho)
    have hmem := (Table.find_of (Table.kind_option hkind)).1
    rw [if_neg fun hact => ho (eq_incdir_of_act o hmem hact), hsame]
    exact .of_eq (fun h => absurd h ho) rfl

/-! ### Values -/

theorem top_apart {v : Token} (hrel : v.Relative) (hbase : BaseOk v.base) (hopt : hasOptionChar v.text = false) :
    (plusParts v.written).Apart (plusParts v.text) := by
  obtain ⟨x, xs, hparts, hx, -⟩ := plusParts_of_isAbs (isAbs_abs (hbase.resolve_left hrel.1) v.text)
  obtain ⟨c, w, hcw⟩ := List.exists_cons_of_ne_nil hrel.2.1
  have hc : c ≠ plus := fun hc => by
    rw [hcw, hc] at hopt
    cases hopt
  obtain ⟨y, ys, hparts', -⟩ := plusParts_cons hc w
  rw [written_of_relative hrel hopt, hparts, hcw, hparts']
  refine .heads (fun heq => ?_) _ _
  have hslash : isAbs v.text = true := by
    rw [hcw]
    rw [heq] at hx
    exact hx
  rw [hrel.2.2] at hslash
  cases hslash

/-- The parts that are written for a value are the parts of the value, or the tops come apart. -/
theorem top_agree {v : Token} (hrel : v.Relative) (hbase : BaseOk v.base) :
    plusParts v.written = plusParts v.text ∨ (plusParts v.written).Apart (plusParts v.text) := by
  have habs := hbase.resolve_left hrel.1
  cases hopt : hasOptionChar v.text with
  | false => exact .inr (top_apart hrel hbase hopt)
  | true =>
    rw [written_of_option hopt, Token.marked]
    split_ifs with hm
    · obtain ⟨w, hw⟩ := List.isPrefixOf_iff_prefix.mp hm.2.2
      have hcut : ∀ u, plusParts (incdirPrefix ++ u) = plusParts (str "+incdir") ++ plusParts u := fun u =>
        plusParts_append_plus (str "+incdir") u
      rw [rebaseToken, if_pos hm.2.2, ← hw, List.drop_left, hcut, hcut, plusParts_intercalate, List.flatMap_map]
      have hpart : ∀ p ∈ plusParts w,
          plusParts (rebase p v.base) = [p] ∨ (plusParts (rebase p v.base)).Apart [p] := by
        intro p hp
        obtain ⟨hne, hplus⟩ := mem_plusParts hp
        cases hpabs : isAbs p with
        | true =>
          have hkeep : rebase p v.base = p := if_pos (.inr (.inl hpabs))
          exact .inl (by rw [hkeep, plusParts_singleton hne hplus])
        | false =>
          rw [rebase_of_not_isAbs hne hpabs]
          split_ifs
          · exact .inl (plusParts_singleton hne hplus)
          · obtain ⟨x, xs, hparts, hx, -⟩ := plusParts_of_isAbs (isAbs_abs habs p)
            rw [hparts]
            refine .inr (.heads (fun heq => ?_) _ _)
            rw [heq, hpabs] at hx
            cases hx
      by_cases hall : ∀ p ∈ plusParts w, plusParts (rebase p v.base) = [p]
      · exact .inl (by rw [List.flatMap_congr hall, List.flatMap_singleton'])
      · push Not at hall
        obtain ⟨p, hp, hne⟩ := hall
        have hapart := List.Apart.flatMap hpart hp hne
        rw [List.flatMap_singleton'] at hapart
        exact .inr (hapart.append_left _)
    · exact .inl rfl

theorem note_apart {option option' : Str} (h : option ≠ option') {j k : Job} (hjk : j.unmapped = k.unmapped)
    (d d' : Disposition) (n n' : Str) : (j.note option d n).Apart (k.note option' d' n') := by
  refine .inr (.inr (.inr (.inr ?_)))
  rw [Job.note, Job.note, hjk]
  exact .append_left (.heads (fun heq => h (congrArg Unmapped.option heq)) [] []) _

theorem hasOptionChar_marked {v : Token} (h : hasOptionChar v.text = true) : hasOptionChar v.marked = true := by
  rw [Token.marked]
  split_ifs with hm
  · exact hasOptionChar_of_incdir (incdirPrefix_rebaseToken hm.2.2)
  · exact h

/-- The options whose value is noted as it is. -/
theorem noted_agree {v : Token} (hrel : v.Relative) (hbase : BaseOk v.base) (f : Str → Job)
    (hf : ∀ w w', w ≠ w' → (f w).Apart (f w')) :
    Job.AgreeIf (hasOptionChar v.text = true ∧ v.marked = v.text) (f v.written) (f v.text) := by
  rw [← written_eq_text_iff hrel hbase]
  exact ⟨fun h => by rw [h], hf _ _⟩

theorem Job.AgreeIf.congr {P Q : Prop} {j k : Job} (h : Job.AgreeIf P j k) (hPQ : Q ↔ P) : Job.AgreeIf Q j k :=
  ⟨fun hq => h.1 (hPQ.mp hq), fun hq => h.2 fun hp => hq (hPQ.mpr hp)⟩

theorem value_agree {o : Opt Act} {t v : Token} (hbase : BaseOk v.base) (hkind : table.kind t.text = .option o)
    (hnext : o.arity = .next) (job : Job) :
    Job.AgreeIf (Fits cwd (.value o t v)) (job.apply U cwd (Role.written (.value o t v)))
      (job.apply U cwd (Role.inPlace (.value o t v))) := by
  have htakes := takesNext_of_next o (Table.find_of (Table.kind_option hkind)).1 hnext
  let call := fun (a : Act) (w : Str) => a.apply cwd job (nextShown t.text w) (.text w)
  rw [Role.written, Role.inPlace, Job.apply, Job.apply]
  by_cases hrel : v.Relative
  · have habs := hbase.resolve_left hrel.1
    refine Job.AgreeIf.congr ?_ (forall_prop_of_true hrel)
    cases hact : o.act with
    | exe => exact .of_eq trivial rfl
    | log => exact .of_eq trivial rfl
    | libfile =>
      simp only [Act.takesPath, decide_true, Bool.true_or, if_true, against_of_relative hrel, Act.apply, Value.toStr,
        abs_of_isAbs (isAbs_abs habs _)]
      cases hopt : hasOptionChar v.text with
      | false =>
        rw [written_of_relative hrel hopt, abs_of_isAbs (isAbs_abs habs _)]
        exact .of_eq (by simp) rfl
      | true =>
        rw [written_of_option hopt]
        constructor
        · intro h
          rw [h rfl]
        · intro h
          refine .inr (.inl (.append_left (.heads (fun heq => h fun _ => heq) [] []) _))
    | libdir =>
      simp only [Act.takesPath, decide_true, Bool.or_true, if_true, against_of_relative hrel, Act.apply, Value.toStr]
      cases hopt : hasOptionChar v.text with
      | false => exact .of_eq rfl (by rw [written_of_relative hrel hopt])
      | true =>
        rw [written_of_option hopt]
        refine ⟨fun h => (by cases h), fun _ => note_apart (fun heq => ?_) rfl _ _ _ _⟩
        have hcon := hasOptionChar_marked hopt
        rw [List.append_cancel_left heq, hasOptionChar_of_isAbs (isAbs_abs habs _)] at hcon
        cases hcon
    | top =>
      simp only [Act.takesPath, Act.apply, Value.toStr]
      have hfits : hasOptionChar v.text = true ∧ plusParts v.marked = plusParts v.text ↔
          plusParts v.written = plusParts v.text := by
        cases hopt : hasOptionChar v.text with
        | true => rw [written_of_option hopt, eq_self_iff_true, true_and]
        | false => exact iff_of_false (by simp) (top_apart hrel hbase hopt).ne
      refine Job.AgreeIf.congr ⟨fun h => ?_, fun h => ?_⟩ hfits
      · rw [h]
        rfl
      · exact .inr (.inr (.inr (.inl (.append_left ((top_agree hrel hbase).resolve_left h) _))))
    | cm =>
      exact noted_agree hrel hbase (call .cm) fun w w' h =>
        note_apart (fun heq => h (List.append_cancel_left heq)) rfl _ _ _ _
    | ntbOpts =>
      refine noted_agree hrel hbase (call .ntbOpts) fun w w' h => ?_
      have hnote : ∀ w, ∃ d n, call .ntbOpts w = job.note (str "-ntb_opts " ++ w) d n := by
        intro w
        simp only [call, Act.apply]
        split_ifs
        · exact ⟨_, _, rfl⟩
        · exact ⟨_, _, rfl⟩
      obtain ⟨d, n, hw⟩ := hnote w
      obtain ⟨d', n', hw'⟩ := hnote w'
      rw [hw, hw']
      exact note_apart (fun heq => h (List.append_cancel_left heq)) rfl _ _ _ _
    | note d n =>
      exact noted_agree hrel hbase (call (.note d n)) fun w w' h =>
        note_apart (fun heq => h (List.append_cancel_left heq)) rfl _ _ _ _
    | _ =>
      rw [hact] at htakes
      cases htakes
  · have hsame := written_of_not_relative hrel
    refine .of_eq (fun h => absurd h hrel) ?_
    rw [hsame, against_of_not_relative hrel, ite_self]

/-! ### Runs -/

/-- One call for a role: the lists agree when the role fits, and come apart when it does not. -/
theorem apply_agree {r : Role} (hr : r.Ok) (job : Job) :
    Job.AgreeIf (Fits cwd r) (job.apply U cwd r.written) (job.apply U cwd r.inPlace) := by
  cases r with
  | positional t => exact positional_agree hr.1 hr.2 job
  | unknown t => exact .of_eq trivial rfl
  | option o t => exact option_agree hr.1 hr.2.1 job
  | value o t v => exact value_agree hr.1 hr.2.1 hr.2.2 job

theorem runRoles_rest {rs : List Role} (hok : ∀ r ∈ rs, r.Ok) {j k : Job} (h : j.rest = k.rest) :
    (runRoles U cwd Role.written j rs).rest = (runRoles U cwd Role.inPlace k rs).rest ↔ ∀ r ∈ rs, Fits cwd r := by
  induction rs generalizing j k with
  | nil => exact iff_of_true h nofun
  | cons r rs ih =>
    obtain ⟨hr, hrest⟩ := List.forall_mem_cons.mp hok
    have hagree := @apply_agree U cwd r hr k
    have hcongr := @rest_apply_congr U cwd _ _ h r.written
    rw [runRoles_cons, runRoles_cons, List.forall_mem_cons]
    by_cases hfits : Fits cwd r
    · rw [ih hrest (hcongr.trans (hagree.1 hfits))]
      simp [hfits]
    · have hapart := (hagree.2 hfits).congr_left hcongr
      refine iff_of_false (Job.Apart.rest_ne ?_) fun hall => hfits hall.1
      exact hapart.grows (runRoles_grows Role.written rs _) (runRoles_grows Role.inPlace rs _)

end Step

/-! ## What a later option replaces -/

def Role.valueFor (a : Act) : Role → Option Token
  | .value o _ v => if o.act = a then some v else none
  | _ => none

/-- The value of the last option that calls `a`. -/
def lastValue (a : Act) (rs : List Role) : Option Token := (rs.filterMap (Role.valueFor a)).getLast?

section Last

variable {U : UnicodeData} {cwd : Str}

theorem runRoles_last {β : Type} (field : Job → β) (f : Token → β) {a : Act} {call : Role → Call Act} {rs : List Role}
    (h : ∀ r ∈ rs, ∀ j : Job, field (j.apply U cwd (call r)) = ((r.valueFor a).map f).getD (field j)) (j : Job) :
    field (runRoles U cwd call j rs) = ((lastValue a rs).map f).getD (field j) := by
  induction rs generalizing j with
  | nil => rfl
  | cons r rs ih =>
    obtain ⟨hr, hrest⟩ := List.forall_mem_cons.mp h
    rw [runRoles_cons, ih hrest, hr, lastValue, lastValue]
    cases hv : r.valueFor a with
    | none =>
      rw [List.filterMap_cons_none hv]
      rfl
    | some v =>
      rw [List.filterMap_cons_some hv, List.getLast?_cons]
      cases (rs.filterMap (Role.valueFor a)).getLast? <;> rfl

theorem exe_apply (j : Job) (o : Opt Act) (shown : Str) (v : Value) :
    (j.apply U cwd (.option o shown v)).exe = if o.act = .exe then v.toStr else j.exe := by
  rw [Job.apply]
  cases o.act with
  | ntbOpts =>
    rw [Act.apply]
    by_cases huvm : str "uvm" <:+: v.toStr
    · rw [if_pos huvm]
      rfl
    · rw [if_neg huvm]
      rfl
  | _ => rfl

theorem log_apply (j : Job) (o : Opt Act) (shown : Str) (v : Value) :
    (j.apply U cwd (.option o shown v)).log = if o.act = .log then some (abs cwd v.toStr) else j.log := by
  rw [Job.apply]
  cases o.act with
  | ntbOpts =>
    rw [Act.apply]
    by_cases huvm : str "uvm" <:+: v.toStr
    · rw [if_pos huvm]
      rfl
    · rw [if_neg huvm]
      rfl
  | _ => rfl

theorem positional_exe_log (j : Job) (tok : Str) :
    (positional U cwd j tok).exe = j.exe ∧ (positional U cwd j tok).log = j.log := by
  rw [positional]
  dsimp only
  split_ifs <;> exact ⟨rfl, rfl⟩

theorem unknown_exe_log (j : Job) (tok : Str) : (unknown j tok).exe = j.exe ∧ (unknown j tok).log = j.log := by
  rw [unknown]
  split_ifs <;> exact ⟨rfl, rfl⟩

theorem act_ne_of_arity {o : Opt Act} {t : Token} (hkind : table.kind t.text = .option o) (h : o.arity ≠ .next) :
    o.act ≠ .exe ∧ o.act ≠ .log := by
  have hnext := next_of_exe_log o (Table.find_of (Table.kind_option hkind)).1
  exact ⟨fun hact => h (hnext (.inl hact)), fun hact => h (hnext (.inr hact))⟩

theorem exe_written {r : Role} (hr : r.Ok) (j : Job) :
    (j.apply U cwd r.written).exe = ((r.valueFor .exe).map Token.written).getD j.exe := by
  cases r with
  | positional t => exact (positional_exe_log j _).1
  | unknown t => exact (unknown_exe_log j _).1
  | option o t =>
    rw [Role.written, exe_apply, if_neg (act_ne_of_arity hr.2.1 hr.2.2).1]
    rfl
  | value o t v =>
    rw [Role.written, exe_apply, Role.valueFor]
    split_ifs <;> rfl

theorem exe_inPlace {r : Role} (hr : r.Ok) (j : Job) :
    (j.apply U cwd r.inPlace).exe = ((r.valueFor .exe).map Token.text).getD j.exe := by
  cases r with
  | positional t => exact (positional_exe_log j _).1
  | unknown t => exact (unknown_exe_log j _).1
  | option o t =>
    rw [Role.inPlace, exe_apply, if_neg (act_ne_of_arity hr.2.1 hr.2.2).1]
    rfl
  | value o t v =>
    rw [Role.inPlace, exe_apply, Role.valueFor]
    split_ifs with hact hpath
    · rw [hact] at hpath
      cases hpath
    all_goals rfl

theorem log_written {r : Role} (hr : r.Ok) (j : Job) :
    (j.apply U cwd r.written).log = ((r.valueFor .log).map fun v => some (abs cwd v.written)).getD j.log := by
  cases r with
  | positional t => exact (positional_exe_log j _).2
  | unknown t => exact (unknown_exe_log j _).2
  | option o t =>
    rw [Role.written, log_apply, if_neg (act_ne_of_arity hr.2.1 hr.2.2).2]
    rfl
  | value o t v =>
    rw [Role.written, log_apply, Role.valueFor]
    split_ifs <;> rfl

theorem log_inPlace {r : Role} (hr : r.Ok) (j : Job) :
    (j.apply U cwd r.inPlace).log = ((r.valueFor .log).map fun v => some (abs cwd v.text)).getD j.log := by
  cases r with
  | positional t => exact (positional_exe_log j _).2
  | unknown t => exact (unknown_exe_log j _).2
  | option o t =>
    rw [Role.inPlace, log_apply, if_neg (act_ne_of_arity hr.2.1 hr.2.2).2]
    rfl
  | value o t v =>
    rw [Role.inPlace, log_apply, Role.valueFor]
    split_ifs with hact hpath
    · rw [hact] at hpath
      cases hpath
    all_goals rfl

theorem lastValue_base {rs : List Role} (hok : ∀ r ∈ rs, r.Ok) {a : Act} {v : Token} (h : lastValue a rs = some v) :
    BaseOk v.base := by
  obtain ⟨r, hr, hv⟩ := List.mem_filterMap.mp (List.mem_of_getLast? h)
  cases r with
  | value o t v' =>
    rw [Role.valueFor] at hv
    split_ifs at hv
    cases hv
    exact (hok _ hr).1
  | _ => cases hv

end Last

/-! ## The same command -/

/-- The expansion and the option table agree on the paths among the tokens. -/
structure Settled (cwd : Str) (rs : List Role) : Prop where
  fits : ∀ r ∈ rs, Fits cwd r
  exe : ∀ v, lastValue .exe rs = some v → v.Relative → hasOptionChar v.text = true ∧ v.marked = v.text
  log : ∀ v, lastValue .log rs = some v → v.Relative →
    abs cwd v.text = if hasOptionChar v.text then abs cwd v.marked else abs v.base v.text

theorem Job.eq_iff_rest {j k : Job} : j = k ↔ j.rest = k.rest ∧ j.exe = k.exe ∧ j.log = k.log := by
  constructor
  · rintro rfl
    exact ⟨rfl, rfl, rfl⟩
  · rintro ⟨hrest, hexe, hlog⟩
    have h : { j.rest with exe := j.exe, log := j.log } = { k.rest with exe := k.exe, log := k.log } := by
      rw [hrest, hexe, hlog]
    exact h

/-- The job is the same exactly when the paths are agreed on. -/
theorem runRoles_eq_iff {U : UnicodeData} {cwd : Str} {rs : List Role} (hok : ∀ r ∈ rs, r.Ok) :
    runRoles U cwd Role.written .initial rs = runRoles U cwd Role.inPlace .initial rs ↔ Settled cwd rs := by
  have hexe : (runRoles U cwd Role.written .initial rs).exe = (runRoles U cwd Role.inPlace .initial rs).exe ↔
      ∀ v, lastValue .exe rs = some v → v.Relative → hasOptionChar v.text = true ∧ v.marked = v.text := by
    rw [runRoles_last Job.exe _ fun r hr => exe_written (hok r hr),
      runRoles_last Job.exe _ fun r hr => exe_inPlace (hok r hr)]
    cases h : lastValue .exe rs with
    | none => simp
    | some v =>
      simp only [Option.map_some, Option.getD_some, Option.some.injEq, forall_eq']
      by_cases hrel : v.Relative
      · rw [written_eq_text_iff hrel (lastValue_base hok h), forall_prop_of_true hrel]
      · exact iff_of_true (written_of_not_relative hrel) fun hcon => absurd hcon hrel
  have hlog : (runRoles U cwd Role.written .initial rs).log = (runRoles U cwd Role.inPlace .initial rs).log ↔
      ∀ v, lastValue .log rs = some v → v.Relative →
        abs cwd v.text = if hasOptionChar v.text then abs cwd v.marked else abs v.base v.text := by
    rw [runRoles_last Job.log _ fun r hr => log_written (hok r hr),
      runRoles_last Job.log _ fun r hr => log_inPlace (hok r hr)]
    cases h : lastValue .log rs with
    | none => simp
    | some v =>
      simp only [Option.map_some, Option.getD_some, Option.some.injEq, forall_eq']
      by_cases hrel : v.Relative
      · rw [forall_prop_of_true hrel, eq_comm]
        cases hopt : hasOptionChar v.text with
        | true => rw [written_of_option hopt, if_pos rfl]
        | false =>
          rw [written_of_relative hrel hopt, if_neg Bool.false_ne_true,
            abs_of_isAbs (isAbs_abs ((lastValue_base hok h).resolve_left hrel.1) _)]
      · rw [written_of_not_relative hrel]
        exact iff_of_true rfl fun hcon => absurd hcon hrel
  rw [Job.eq_iff_rest, runRoles_rest hok rfl, hexe, hlog]
  exact ⟨fun ⟨h, h', h''⟩ => ⟨h, h', h''⟩, fun h => ⟨h.fits, h.exe, h.log⟩⟩

section Command

variable (U : UnicodeData) (files : Str → Except Str (List Str)) (cwd : Str) (args : List Str)

/-- The expansion ends with an error exactly when a file includes itself or the files nest too deep, and the job that
    is built of its result is the job of the tokens in place. -/
structure SameCommand : Prop where
  errors : (∃ e, expandOptionFiles files cwd args = .error e) ↔ Misnested files cwd (maxNesting + 1) [] [] args
  job : ∀ toks l, expandOptionFiles files cwd args = .ok toks → inPlace files cwd args = .ok l →
    scan (Job.apply U cwd) table .initial toks = scanInPlace U cwd .initial l

variable {U files cwd args}

/-- The command is the same exactly when the files are misnested, or none is lacking and the expansion and the option
    table agree on the paths. -/
theorem sameCommand_iff (hcwd : isAbs cwd = true) :
    SameCommand U files cwd args ↔
      Misnested files cwd (maxNesting + 1) [] [] args ∨
        ¬Broken files cwd (maxNesting + 1) [] [] args ∧
          ∀ l rs, inPlace files cwd args = .ok l → roles table l = .ok rs → Settled cwd rs := by
  have herror : (∃ e, inPlace files cwd args = .error e) ↔
      Misnested files cwd (maxNesting + 1) [] [] args ∨ Broken files cwd (maxNesting + 1) [] [] args :=
    expandFiles_error_iff _ _ _ _
  have hexpand := expandOptionFiles_eq files cwd args
  cases hplace : inPlace files cwd args with
  | error e =>
    rw [hplace] at hexpand herror
    have hbad := herror.mp ⟨e, rfl⟩
    constructor
    · exact fun h => .inl (h.errors.mp ⟨e, hexpand⟩)
    · intro h
      have hmis : Misnested files cwd (maxNesting + 1) [] [] args := by
        rcases h with h | h
        · exact h
        · exact hbad.resolve_right h.1
      exact ⟨iff_of_true ⟨e, hexpand⟩ hmis, fun _ _ _ h' => nomatch hplace.symm.trans h'⟩
  | ok l =>
    rw [hplace] at hexpand herror
    have hgood : ¬(Misnested files cwd (maxNesting + 1) [] [] args ∨ Broken files cwd (maxNesting + 1) [] [] args) :=
      fun h => nomatch herror.mpr h
    rw [not_or] at hgood
    have hbases := inPlace_bases hcwd hplace
    have hscan : scan (Job.apply U cwd) table .initial (l.map Token.written) = scanInPlace U cwd .initial l ↔
        ∀ rs, roles table l = .ok rs → Settled cwd rs := by
      rw [scan_written hbases, scanInPlace]
      cases hroles : roles table l with
      | error t => simp
      | ok rs =>
        simp only [Except.ok.injEq, forall_eq']
        exact runRoles_eq_iff (roles_ok hbases hroles)
    constructor
    · intro h
      refine .inr ⟨hgood.2, fun l' rs hl' => ?_⟩
      cases hl'
      exact hscan.mp (h.job _ _ hexpand hplace) rs
    · intro h
      obtain ⟨-, h⟩ := h.resolve_left hgood.1
      refine ⟨iff_of_false (fun ⟨e, he⟩ => nomatch hexpand.symm.trans he) hgood.1, fun toks l' htoks hl' => ?_⟩
      cases hexpand.symm.trans htoks
      cases hplace.symm.trans hl'
      exact hscan.mpr fun rs => h l rs rfl

end Command

/-! ## Two option files -/

/-- A `-F` file with a source file and a library. -/
def sourceFiles (file : Str) : Except Str (List Str) :=
  if file = str "/w/sub/a.f" then .ok [str "top.v", str "-v", str "lib.v"] else .error (str "cannot open option file")

def sourceTokens : List Token :=
  [⟨str "top.v", str "/w/sub", false⟩, ⟨str "-v", str "/w/sub", false⟩, ⟨str "lib.v", str "/w/sub", true⟩,
    ⟨str "-o", [], false⟩, ⟨str "simv", [], false⟩]

theorem sourceFiles_sameCommand :
    SameCommand .small sourceFiles (str "/w") [str "-F", str "sub/a.f", str "-o", str "simv"] := by
  have hplace : inPlace sourceFiles (str "/w") [str "-F", str "sub/a.f", str "-o", str "simv"] =
      .ok sourceTokens := rfl
  have hbroken : ¬Broken sourceFiles (str "/w") (maxNesting + 1) [] []
      [str "-F", str "sub/a.f", str "-o", str "simv"] := fun h => by
    obtain ⟨e, he⟩ := (@expandFiles_error_iff _ _ _ Token.at _ _ _ _).mpr (.inr h)
    cases hplace.symm.trans he
  refine (sameCommand_iff (by decide)).mpr (.inr ⟨hbroken, fun l rs hl hrs => ?_⟩)
  cases hplace.symm.trans hl
  have hroles : roles table sourceTokens = .ok [.positional ⟨str "top.v", str "/w/sub", false⟩,
      .value (calls "-v" .next .libfile) ⟨str "-v", str "/w/sub", false⟩ ⟨str "lib.v", str "/w/sub", true⟩,
      .value (calls "-o" .next .exe) ⟨str "-o", [], false⟩ ⟨str "simv", [], false⟩] := rfl
  cases hroles.symm.trans hrs
  refine ⟨?_, ?_, ?_⟩
  · simp only [List.forall_mem_cons, List.not_mem_nil, false_imp_iff, implies_true, and_true]
    refine ⟨fun _ h => ?_, fun _ h => ?_, fun _ => trivial⟩
    · cases h
    · cases h
  · intro v hv hrel
    cases hv
    exact absurd rfl hrel.1
  · intro v hv
    cases hv

/-- A `-F` file with the name of the executable. -/
def exeFile (file : Str) : Except Str (List Str) :=
  if file = str "/w/sub/b.f" then .ok [str "-o", str "simv"] else .error (str "cannot open option file")

/-- The executable is taken against the directory of the `-F` file. -/
theorem exeFile_not_sameCommand : ¬SameCommand .small exeFile (str "/w") [str "-F", str "sub/b.f"] := by
  intro h
  have hexpand : expandOptionFiles exeFile (str "/w") [str "-F", str "sub/b.f"] =
      .ok [str "-o", str "/w/sub/simv"] := rfl
  have hplace : inPlace exeFile (str "/w") [str "-F", str "sub/b.f"] =
      .ok [⟨str "-o", str "/w/sub", false⟩, ⟨str "simv", str "/w/sub", false⟩] := rfl
  have hexe := congrArg (fun r => r.toOption.map Job.exe) (h.job _ _ hexpand hplace)
  have hne : str "/w/sub/simv" ≠ str "simv" := by decide
  exact hne (Option.some.inj hexe)

end Vamos.Vcs
