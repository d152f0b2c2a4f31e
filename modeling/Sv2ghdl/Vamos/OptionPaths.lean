import Sv2ghdl.Lists.Apart
import Sv2ghdl.Vamos.OptionFiles
import Sv2ghdl.Vamos.VcsJob

/-!
# Paths in option files

The roles that the option table gives the tokens of the option files in place, where only source files and the values
of `-v`, `-y` and `+incdir+` are paths, and the calls that the scan of the expanded command line makes for these roles.
-/

open Python PosixPath Vamos.OptionTable Vamos.OptionFiles

namespace Vamos.Vcs

/-! ## The scan of the tokens in place -/

/-- What a token is to the scan. -/
inductive Role where
  | positional (t : Token)
  | unknown (t : Token)
  | option (o : Opt Act) (t : Token)
  | value (o : Opt Act) (t v : Token)

/-- The roles of the tokens, or the option that lacks its value. -/
def roles (T : Table Act) : List Token → Except Token (List Role)
  | [] => .ok []
  | t :: rest =>
    match T.kind t.text with
    | .positional => (roles T rest).map (.positional t :: ·)
    | .unknown => (roles T rest).map (.unknown t :: ·)
    | .option o =>
      if o.arity = .next then
        match rest with
        | [] => .error t
        | v :: rest => (roles T rest).map (.value o t v :: ·)
      else (roles T rest).map (.option o t :: ·)

/-- A path against the directory of the `-F` file that it stands in. -/
def against (base path : Str) : Str := if base = [] ∨ path = [] then path else abs base path

/-- `-v` and `-y` -/
def Act.takesPath (a : Act) : Bool := a = .libfile || a = .libdir

/-- The call for the tokens in place: source files and the values of `-v`, `-y` and `+incdir+` are against the
    directory of the `-F` file, everything else is as it stands. -/
def Role.inPlace : Role → Call Act
  | .positional t => .positional (against t.base t.text)
  | .unknown t => .unknown t.text
  | .option o t =>
    let v := valueOf o t.text
    .option o t.text (if o.act = .incdir then .list (v.toList.map (against t.base)) else v)
  | .value o t v =>
    .option o (nextShown t.text v.text) (.text (if o.act.takesPath then against v.base v.text else v.text))

/-- The call for the tokens that the expansion writes. -/
def Role.written : Role → Call Act
  | .positional t => .positional t.written
  | .unknown t => .unknown t.text
  | .option o t => .option o t.written (valueOf o t.written)
  | .value o t v => .option o (nextShown t.text v.written) (.text v.written)

section Scan

variable (U : UnicodeData) (cwd : Str)

/-- The job that the calls for the roles leave. -/
def runRoles (call : Role → Call Act) (job : Job) (rs : List Role) : Job :=
  rs.foldl (fun job r => job.apply U cwd (call r)) job

/-- The scan of the tokens in place. -/
def scanInPlace (job : Job) (l : List Token) : Except Str Job :=
  match roles table l with
  | .error t => .error (needsValue t.text)
  | .ok rs => .ok (runRoles U cwd Role.inPlace job rs)

end Scan

/-! ## The table -/

def incdir : Opt Act := calls "+incdir+" .plus .incdir

theorem incdir_mem : incdir ∈ options := by decide

/-- An option whose value is the next token. -/
def Act.takesNext : Act → Bool
  | .exe | .log | .top | .libfile | .libdir | .cm | .ntbOpts | .note _ _ => true
  | _ => false

-- The table is evaluated once for all that the scan needs of it.
theorem options_checked : ∀ o ∈ options,
    (o.isExact = true → incdirPrefix.isPrefixOf o.name = false) ∧
    (o.isExact = false → (o.start.isPrefixOf incdirPrefix || incdirPrefix.isPrefixOf o.start) = true → o = incdir) ∧
    (o.act = .incdir → o = incdir) ∧
    (o.arity = .next → o.act.takesNext = true) ∧
    (o.act = .exe ∨ o.act = .log → o.arity = .next) := by
  decide +kernel

theorem exact_not_incdir : ∀ o ∈ options, o.isExact = true → incdirPrefix.isPrefixOf o.name = false :=
  fun o ho => (options_checked o ho).1

/-- No other option is found for a token that starts with `+incdir+`. -/
theorem eq_incdir : ∀ o ∈ options, o.isExact = false →
    (o.start.isPrefixOf incdirPrefix || incdirPrefix.isPrefixOf o.start) = true → o = incdir :=
  fun o ho => (options_checked o ho).2.1

theorem eq_incdir_of_act : ∀ o ∈ options, o.act = .incdir → o = incdir :=
  fun o ho => (options_checked o ho).2.2.1

theorem takesNext_of_next : ∀ o ∈ options, o.arity = .next → o.act.takesNext = true :=
  fun o ho => (options_checked o ho).2.2.2.1

theorem next_of_exe_log : ∀ o ∈ options, o.act = .exe ∨ o.act = .log → o.arity = .next :=
  fun o ho => (options_checked o ho).2.2.2.2

theorem find_incdir {tok : Str} (h : incdirPrefix.isPrefixOf tok = true) : table.find tok = some incdir := by
  have htok := List.isPrefixOf_iff_prefix.mp h
  obtain ⟨o, ho⟩ := Table.exists_find incdir_mem rfl (show incdir.start <+: tok from htok)
  obtain ⟨hmem, hname⟩ := Table.find_of ho
  rw [table, ho]
  cases hexact : o.isExact with
  | true =>
    rw [if_pos hexact] at hname
    have hnot := exact_not_incdir o hmem hexact
    rw [hname, h] at hnot
    cases hnot
  | false =>
    rw [if_neg (by simp [hexact])] at hname
    refine congrArg some (eq_incdir o hmem hexact ?_)
    rw [Bool.or_eq_true, List.isPrefixOf_iff_prefix, List.isPrefixOf_iff_prefix]
    exact List.prefix_or_prefix_of_prefix hname htok

/-- The tokens of `+incdir+` start with it. -/
theorem incdir_of_find {tok : Str} {o : Opt Act} (h : table.find tok = some o) (hact : o.act = .incdir) :
    o = incdir ∧ incdirPrefix.isPrefixOf tok = true := by
  obtain ⟨hmem, hname⟩ := Table.find_of h
  have ho := eq_incdir_of_act o hmem hact
  subst ho
  exact ⟨rfl, List.isPrefixOf_iff_prefix.mpr hname⟩

theorem kind_incdir {tok : Str} (h : incdirPrefix.isPrefixOf tok = true) : table.kind tok = .option incdir := by
  rw [Table.kind, if_pos (hasOptionChar_of_incdir h), find_incdir h]

theorem kind_of_not_option {T : Table Act} {tok : Str} (h : hasOptionChar tok = false) : T.kind tok = .positional :=
  if_neg (by simp [h])

theorem incdirPrefix_rebaseToken {tok base : Str} (h : incdirPrefix.isPrefixOf tok = true) :
    incdirPrefix.isPrefixOf (rebaseToken tok base) = true := by
  rw [rebaseToken, if_pos h, List.isPrefixOf_iff_prefix]
  exact List.prefix_append _ _

/-- A token has the same kind before and after the expansion. -/
theorem kind_written {t : Token} (hbase : BaseOk t.base) : table.kind t.written = table.kind t.text := by
  cases h : hasOptionChar t.text with
  | false =>
    rw [written_of_not_option h, kind_of_not_option h]
    split_ifs with hrel
    · have habs := isAbs_normpath (isAbs_join (hbase.resolve_left hrel.1) t.text)
      exact kind_of_not_option (hasOptionChar_of_isAbs habs)
    · exact kind_of_not_option h
  | true =>
    rw [written_of_option h, Token.marked]
    split_ifs with hm
    · rw [kind_incdir (incdirPrefix_rebaseToken hm.2.2), kind_incdir hm.2.2]
    · rfl

/-- The other options, and the tokens that no option matches, are not changed. -/
theorem marked_of_kind {t : Token} (h : table.kind t.text ≠ .option incdir) : t.marked = t.text :=
  if_neg fun hm => h (kind_incdir hm.2.2)

/-! ## The scan of the expanded command line -/

/-- The facts that the scan has about the tokens of a role. -/
def Role.Ok : Role → Prop
  | .positional t => BaseOk t.base ∧ table.kind t.text = .positional
  | .unknown t => table.kind t.text = .unknown
  | .option o t => BaseOk t.base ∧ table.kind t.text = .option o ∧ o.arity ≠ .next
  | .value o t v => BaseOk v.base ∧ table.kind t.text = .option o ∧ o.arity = .next

theorem map_eq_ok {ε α β : Type} {x : Except ε α} {f : α → β} {b : β} (h : x.map f = .ok b) :
    ∃ a, x = .ok a ∧ f a = b := by
  cases x with
  | error e => cases h
  | ok a => exact ⟨a, rfl, Except.ok.inj h⟩

theorem roles_ok {l : List Token} (hbase : ∀ t ∈ l, BaseOk t.base) {rs : List Role} (h : roles table l = .ok rs) :
    ∀ r ∈ rs, r.Ok := by
  induction l using roles.induct table generalizing rs with
  | case1 =>
    cases h
    exact nofun
  | case2 t rest hkind ih =>
    have hrest := List.forall_mem_cons.mp hbase
    simp only [roles, hkind] at h
    obtain ⟨rs', hrs', rfl⟩ := map_eq_ok h
    exact List.forall_mem_cons.mpr ⟨⟨hrest.1, hkind⟩, ih hrest.2 hrs'⟩
  | case3 t rest hkind ih =>
    have hrest := List.forall_mem_cons.mp hbase
    simp only [roles, hkind] at h
    obtain ⟨rs', hrs', rfl⟩ := map_eq_ok h
    exact List.forall_mem_cons.mpr ⟨hkind, ih hrest.2 hrs'⟩
  | case4 t o hkind hnext =>
    simp only [roles, hkind, hnext, if_true] at h
    cases h
  | case5 t o hkind hnext v rest ih =>
    have hrest := List.forall_mem_cons.mp (List.forall_mem_cons.mp hbase).2
    simp only [roles, hkind, hnext, if_true] at h
    obtain ⟨rs', hrs', rfl⟩ := map_eq_ok h
    exact List.forall_mem_cons.mpr ⟨⟨hrest.1, hkind, hnext⟩, ih hrest.2 hrs'⟩
  | case6 t rest o hkind hnext ih =>
    have hrest := List.forall_mem_cons.mp hbase
    simp only [roles, hkind, hnext, if_false] at h
    obtain ⟨rs', hrs', rfl⟩ := map_eq_ok h
    exact List.forall_mem_cons.mpr ⟨⟨hrest.1, hkind, hnext⟩, ih hrest.2 hrs'⟩

theorem hasOptionChar_of_kind {T : Table Act} {tok : Str} (h : T.kind tok ≠ .positional) :
    hasOptionChar tok = true := by
  cases hopt : hasOptionChar tok with
  | false => exact absurd (kind_of_not_option hopt) h
  | true => rfl

/-- Only `+incdir+` and tokens that no option matches differ from what is written for them. -/
theorem written_of_kind {t : Token} (hpos : table.kind t.text ≠ .positional)
    (hinc : table.kind t.text ≠ .option incdir) :
    t.written = t.text := by
  rw [written_of_option (hasOptionChar_of_kind hpos), marked_of_kind hinc]

theorem next_ne_incdir {o : Opt Act} (h : o.arity = .next) : o ≠ incdir := fun ho => by
  rw [ho] at h
  cases h

section Scan

variable {U : UnicodeData} {cwd : Str}

theorem runRoles_cons (call : Role → Call Act) (job : Job) (r : Role) (rs : List Role) :
    runRoles U cwd call job (r :: rs) = runRoles U cwd call (job.apply U cwd (call r)) rs := rfl

/-- The scan of what the expansion writes makes one call for each role. -/
theorem scan_written {l : List Token} (hbase : ∀ t ∈ l, BaseOk t.base) (job : Job) :
    scan (Job.apply U cwd) table job (l.map Token.written) =
      match roles table l with
      | .error t => .error (needsValue t.text)
      | .ok rs => .ok (runRoles U cwd Role.written job rs) := by
  induction l using roles.induct table generalizing job with
  | case1 => rfl
  | case2 t rest hkind ih =>
    have hrest := List.forall_mem_cons.mp hbase
    rw [List.map_cons, scan, kind_written hrest.1]
    simp only [hkind, roles, ih hrest.2]
    cases roles table rest <;> rfl
  | case3 t rest hkind ih =>
    have hrest := List.forall_mem_cons.mp hbase
    have hsame : t.written = t.text := written_of_kind (by simp [hkind]) (by simp [hkind])
    rw [List.map_cons, hsame, scan]
    simp only [hkind, roles, ih hrest.2]
    cases roles table rest <;> rfl
  | case4 t o hkind hnext =>
    have hsame : t.written = t.text := written_of_kind (by simp [hkind]) (by simpa [hkind] using next_ne_incdir hnext)
    rw [List.map_cons, hsame, List.map_nil, scan]
    simp only [hkind, roles, hnext, if_true]
  | case5 t o hkind hnext v rest ih =>
    have hrest := List.forall_mem_cons.mp (List.forall_mem_cons.mp hbase).2
    have hsame : t.written = t.text := written_of_kind (by simp [hkind]) (by simpa [hkind] using next_ne_incdir hnext)
    rw [List.map_cons, hsame, List.map_cons, scan]
    simp only [hkind, roles, hnext, if_true, ih hrest.2]
    cases roles table rest <;> rfl
  | case6 t rest o hkind hnext ih =>
    have hrest := List.forall_mem_cons.mp hbase
    rw [List.map_cons, scan, kind_written hrest.1]
    simp only [hkind, roles, hnext, if_false, ih hrest.2]
    cases roles table rest <;> rfl

end Scan

/-! ## Jobs that come apart -/

/-- A job without what a later option replaces. -/
def Job.rest (job : Job) : Job := { job with exe := [], log := none }

/-- The lists of a job at an earlier and a later time of the scan. -/
structure Job.Grows (j k : Job) : Prop where
  sources : j.sources <+: k.sources
  libFiles : j.libFiles <+: k.libFiles
  incdirs : j.incdirs <+: k.incdirs
  tops : j.tops <+: k.tops
  unmapped : j.unmapped <+: k.unmapped

def Job.Apart (j k : Job) : Prop :=
  j.sources.Apart k.sources ∨ j.libFiles.Apart k.libFiles ∨ j.incdirs.Apart k.incdirs ∨ j.tops.Apart k.tops ∨
    j.unmapped.Apart k.unmapped

theorem Job.Grows.refl (j : Job) : j.Grows j := by
  constructor <;> exact List.prefix_rfl

theorem Job.Grows.trans {i j k : Job} (h : i.Grows j) (h' : j.Grows k) : i.Grows k where
  sources := h.sources.trans h'.sources
  libFiles := h.libFiles.trans h'.libFiles
  incdirs := h.incdirs.trans h'.incdirs
  tops := h.tops.trans h'.tops
  unmapped := h.unmapped.trans h'.unmapped

theorem Job.Apart.grows {j k j' k' : Job} (h : j.Apart k) (hj : j.Grows j') (hk : k.Grows k') : j'.Apart k' :=
  h.imp (·.of_grown hj.sources hk.sources) <| .imp (·.of_grown hj.libFiles hk.libFiles) <|
    .imp (·.of_grown hj.incdirs hk.incdirs) <| .imp (·.of_grown hj.tops hk.tops)
      (·.of_grown hj.unmapped hk.unmapped)

theorem Job.Apart.rest_ne {j k : Job} (h : j.Apart k) : j.rest ≠ k.rest := by
  intro heq
  rcases h with h | h | h | h | h
  · exact h.ne (congrArg Job.sources heq :)
  · exact h.ne (congrArg Job.libFiles heq :)
  · exact h.ne (congrArg Job.incdirs heq :)
  · exact h.ne (congrArg Job.tops heq :)
  · exact h.ne (congrArg Job.unmapped heq :)

theorem Job.Apart.congr_left {i j k : Job} (h : j.Apart k) (heq : i.rest = j.rest) : i.Apart k := by
  have hsources : i.sources = j.sources := (congrArg Job.sources heq :)
  have hlibFiles : i.libFiles = j.libFiles := (congrArg Job.libFiles heq :)
  have hincdirs : i.incdirs = j.incdirs := (congrArg Job.incdirs heq :)
  have htops : i.tops = j.tops := (congrArg Job.tops heq :)
  have hunmapped : i.unmapped = j.unmapped := (congrArg Job.unmapped heq :)
  rwa [Job.Apart, hsources, hlibFiles, hincdirs, htops, hunmapped]

section Calls

variable {U : UnicodeData} {cwd : Str}

theorem note_grows (j : Job) (option : Str) (d : Disposition) (text : Str) : j.Grows (j.note option d text) := by
  constructor <;> simp [Job.note]

/-- A call only adds to the lists. -/
theorem apply_grows (j : Job) (c : Call Act) : j.Grows (j.apply U cwd c) := by
  cases c with
  | positional tok =>
    rw [Job.apply, positional]
    dsimp only
    split_ifs
    · exact note_grows _ _ _ _
    · exact note_grows _ _ _ _
    · exact note_grows _ _ _ _
    all_goals constructor <;> simp
  | unknown tok =>
    rw [Job.apply, unknown]
    split_ifs
    · exact note_grows _ _ _ _
    · constructor <;> simp
    · exact note_grows _ _ _ _
  | option o shown v =>
    rw [Job.apply]
    cases o.act with
    | ntbOpts =>
      rw [Act.apply]
      split_ifs <;> exact note_grows _ _ _ _
    | _ => constructor <;> simp [Act.apply, Job.note]

theorem runRoles_grows (call : Role → Call Act) (rs : List Role) (j : Job) : j.Grows (runRoles U cwd call j rs) := by
  induction rs generalizing j with
  | nil => exact .refl j
  | cons r rs ih => exact (apply_grows j _).trans (ih _)

/-- No call reads what a later option replaces. -/
theorem rest_apply (j : Job) (c : Call Act) : (j.apply U cwd c).rest = (j.rest.apply U cwd c).rest := by
  cases c with
  | positional tok =>
    simp only [Job.apply, positional, show j.rest.std = j.std from rfl]
    split_ifs <;> rfl
  | unknown tok =>
    simp only [Job.apply, unknown]
    split_ifs <;> rfl
  | option o shown v =>
    simp only [Job.apply]
    cases o.act with
    | ntbOpts =>
      simp only [Act.apply]
      split_ifs <;> rfl
    | _ => rfl

theorem rest_apply_congr {j k : Job} (h : j.rest = k.rest) (c : Call Act) :
    (j.apply U cwd c).rest = (k.apply U cwd c).rest := by
  rw [rest_apply, h, ← rest_apply]

end Calls

end Vamos.Vcs
