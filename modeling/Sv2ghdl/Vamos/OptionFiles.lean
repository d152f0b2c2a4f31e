import Sv2ghdl.Lists.Lookup
import Sv2ghdl.Python.PosixPath
import Sv2ghdl.Vamos.OptionTable

/-!
# Option files

`vamos/argscan.py` replaces `-f`, `-F` and `-file` by the tokens of the files they name.  The paths in a `-F` file are
taken against its directory, which happens before the options are known.
-/

open Python PosixPath Vamos.OptionTable

namespace Vamos.OptionFiles

/-! ## Expansion -/

inductive ArgError where
  | needsFile (option : Str)
  | includesItself (file : Str)
  | tooDeep
  /-- `tokenize_file` cannot open or parse the file. -/
  | unreadable (message : Str)
  deriving DecidableEq

def maxNesting : Nat := 32

def isFileOption (a : Str) : Bool := a = str "-f" || a = str "-F" || a = str "-file"

/-- The options of `_PATH_OPTS` whose value is the next token. -/
def isPathOption (a : Str) : Bool := a = str "-v" || a = str "-y"

def incdirPrefix : Str := str "+incdir+"

/-- `_rebase` -/
def rebase (tok base : Str) : Str :=
  if tok = [] ∨ isAbs tok = true ∨ hasOptionChar tok = true then tok else normpath (join base tok)

/-- A token of a `-F` file that is not the value of `-v` or `-y`. -/
def rebaseToken (tok base : Str) : Str :=
  if incdirPrefix.isPrefixOf tok then
    incdirPrefix ++ [plus].intercalate ((plusParts (tok.drop incdirPrefix.length)).map (rebase · base))
  else rebase tok base

/-- The path of an option file; `base` is empty outside `-F` files. -/
def filePath (cwd base name : Str) : Str :=
  normpath (if isAbs name then name else if base ≠ [] then join base name else join cwd name)

section Expand

variable {α : Type} (place : Str → Bool → Str → α) (files : Str → Except Str (List Str)) (cwd : Str)

/-- The base of the tokens of an option file. -/
def nestedBase (option base file : Str) : Str := if option = str "-F" then dirname file else base

/-- The loop of `expand_option_files` over the tokens of one file, with what it does to a file that they name.  A
    token is handed on with the base, and whether it is the value of `-v` or `-y`. -/
def expandTokens (nested : Str → List Str → List Str → Except ArgError (List α)) (base : Str) (seen : List Str) :
    List Str → Except ArgError (List α)
  | [] => .ok []
  | [a] => if isFileOption a then .error (.needsFile a) else .ok [place base false a]
  | a :: v :: rest =>
    if isFileOption a then
      let file := filePath cwd base v
      if file ∈ seen then .error (.includesItself file)
      else
        match files file with
        | .error message => .error (.unreadable message)
        | .ok toks => do
          let inner ← nested (nestedBase a base file) (seen ++ [file]) toks
          let rest ← expandTokens nested base seen rest
          return inner ++ rest
    else if base ≠ [] ∧ isPathOption a = true then do
      let rest ← expandTokens nested base seen rest
      return place base false a :: place base true v :: rest
    else do
      let rest ← expandTokens nested base seen (v :: rest)
      return place base false a :: rest

/-- The recursion into nested files, with the number of levels that are left. -/
def expandFiles : Nat → Str → List Str → List Str → Except ArgError (List α)
  | 0, _, _, _ => .error .tooDeep
  | levels + 1, base, seen, args => expandTokens place files cwd (expandFiles levels) base seen args

end Expand

/-- What `expand_option_files` writes for a token. -/
def written (base : Str) (value : Bool) (tok : Str) : Str :=
  if base = [] then tok else if value then rebase tok base else rebaseToken tok base

/-- `expand_option_files` -/
def expandOptionFiles (files : Str → Except Str (List Str)) (cwd : Str) (args : List Str) :
    Except ArgError (List Str) := expandFiles written files cwd (maxNesting + 1) [] [] args

/-! ## The tokens in place -/

/-- A token with the directory of the `-F` file that it stands in, and whether it stands there as the value of `-v`
    or `-y`. -/
structure Token where
  text : Str
  base : Str
  value : Bool

def Token.at (base : Str) (value : Bool) (text : Str) : Token := ⟨text, base, value⟩

/-- The tokens of the option files in the places of the options that name them. -/
def inPlace (files : Str → Except Str (List Str)) (cwd : Str) (args : List Str) : Except ArgError (List Token) :=
  expandFiles Token.at files cwd (maxNesting + 1) [] [] args

/-- What a token of the files becomes. -/
def Token.written (t : Token) : Str := OptionFiles.written t.base t.value t.text

/-- The token stands in a `-F` file, or in one that it includes, and is not absolute. -/
def Token.Relative (t : Token) : Prop := t.base ≠ [] ∧ t.text ≠ [] ∧ isAbs t.text = false

instance (t : Token) : Decidable t.Relative := inferInstanceAs (Decidable (_ ∧ _ ∧ _))

/-- What stands for a token that starts with an option character: the parts of `+incdir+` are taken against the base
    whatever the token is to the scan. -/
def Token.marked (t : Token) : Str :=
  if t.base ≠ [] ∧ t.value = false ∧ incdirPrefix.isPrefixOf t.text = true then rebaseToken t.text t.base else t.text

theorem hasOptionChar_of_isAbs {p : Str} (h : isAbs p = true) : hasOptionChar p = false := by
  have hhead : p.head? = some slash := of_decide_eq_true h
  rw [hasOptionChar, hhead]
  decide

theorem hasOptionChar_of_incdir {tok : Str} (h : incdirPrefix.isPrefixOf tok = true) : hasOptionChar tok = true := by
  obtain ⟨t, rfl⟩ := List.isPrefixOf_iff_prefix.mp h
  rfl

/-- A token that starts with an option character is changed only when it starts with `+incdir+`. -/
theorem written_of_option {t : Token} (h : hasOptionChar t.text = true) : t.written = t.marked := by
  have hkeep : rebase t.text t.base = t.text := if_pos (.inr (.inr h))
  rw [Token.written, written, Token.marked]
  by_cases hbase : t.base = []
  · rw [if_pos hbase, if_neg fun hm => hm.1 hbase]
  · rw [if_neg hbase]
    cases hvalue : t.value with
    | true => rw [if_pos rfl, if_neg (by simp), hkeep]
    | false =>
      rw [if_neg Bool.false_ne_true]
      by_cases hinc : incdirPrefix.isPrefixOf t.text = true
      · rw [if_pos ⟨hbase, rfl, hinc⟩]
      · rw [if_neg fun hm => hinc hm.2.2, rebaseToken, if_neg hinc, hkeep]

/-- Any other token is a path to the expansion. -/
theorem written_of_not_option {t : Token} (h : hasOptionChar t.text = false) :
    t.written = if t.Relative then normpath (join t.base t.text) else t.text := by
  have hinc : ¬incdirPrefix.isPrefixOf t.text = true := fun hinc => by
    rw [hasOptionChar_of_incdir hinc] at h
    cases h
  rw [Token.written, written, rebaseToken, if_neg hinc, ite_self, rebase]
  by_cases hbase : t.base = []
  · rw [if_pos hbase, if_neg fun hrel => hrel.1 hbase]
  · rw [if_neg hbase]
    by_cases hrel : t.Relative
    · rw [if_pos hrel, if_neg]
      rintro (hnil | habs | hopt)
      · exact hrel.2.1 hnil
      · rw [hrel.2.2] at habs
        cases habs
      · rw [h] at hopt
        cases hopt
    · rw [if_neg hrel, if_pos]
      by_contra hcon
      push Not at hcon
      exact hrel ⟨hbase, hcon.1, by simpa using hcon.2.1⟩

/-! ## Errors of the expansion -/

section Errors

variable (files : Str → Except Str (List Str)) (cwd : Str)

/-- The options that name a file among the tokens of one file, with the names. -/
def namedFiles (base : Str) : List Str → List (Str × Str)
  | [] => []
  | [_] => []
  | a :: v :: rest =>
    if isFileOption a then (a, v) :: namedFiles base rest
    else if base ≠ [] ∧ isPathOption a = true then namedFiles base rest
    else namedFiles base (v :: rest)

/-- The last token is an option that lacks its file. -/
def lacksFile (base : Str) : List Str → Bool
  | [] => false
  | [a] => isFileOption a
  | a :: v :: rest =>
    if isFileOption a then lacksFile base rest
    else if base ≠ [] ∧ isPathOption a = true then lacksFile base rest
    else lacksFile base (v :: rest)

/-- A file includes itself, directly or through others, or the files nest deeper than the levels that are left. -/
inductive Misnested : Nat → Str → List Str → List Str → Prop where
  | deep {base : Str} {seen args : List Str} : Misnested 0 base seen args
  | itself {levels : Nat} {base : Str} {seen args : List Str} {a v : Str} (h : (a, v) ∈ namedFiles base args)
      (hseen : filePath cwd base v ∈ seen) : Misnested (levels + 1) base seen args
  | nested {levels : Nat} {base : Str} {seen args toks : List Str} {a v : Str} (h : (a, v) ∈ namedFiles base args)
      (hfile : files (filePath cwd base v) = .ok toks)
      (hnested : Misnested levels (nestedBase a base (filePath cwd base v)) (seen ++ [filePath cwd base v]) toks) :
      Misnested (levels + 1) base seen args

/-- An option lacks its file, or the file cannot be read. -/
inductive Broken : Nat → Str → List Str → List Str → Prop where
  | lacks {levels : Nat} {base : Str} {seen args : List Str} (h : lacksFile base args = true) :
      Broken (levels + 1) base seen args
  | unreadable {levels : Nat} {base : Str} {seen args : List Str} {a v message : Str}
      (h : (a, v) ∈ namedFiles base args) (hfile : files (filePath cwd base v) = .error message) :
      Broken (levels + 1) base seen args
  | nested {levels : Nat} {base : Str} {seen args toks : List Str} {a v : Str} (h : (a, v) ∈ namedFiles base args)
      (hfile : files (filePath cwd base v) = .ok toks)
      (hnested : Broken levels (nestedBase a base (filePath cwd base v)) (seen ++ [filePath cwd base v]) toks) :
      Broken (levels + 1) base seen args

variable {files cwd} {α : Type} {place : Str → Bool → Str → α}

/-- What is wrong with an option that names a file. -/
def NamedError (nested : Str → List Str → List Str → Except ArgError (List α)) (base : Str) (seen : List Str)
    (a v : Str) : Prop :=
  filePath cwd base v ∈ seen ∨ (∃ message, files (filePath cwd base v) = .error message) ∨
    ∃ toks, files (filePath cwd base v) = .ok toks ∧
      ∃ e, nested (nestedBase a base (filePath cwd base v)) (seen ++ [filePath cwd base v]) toks = .error e

theorem expandTokens_error_iff {nested : Str → List Str → List Str → Except ArgError (List α)} {base : Str}
    {seen : List Str} (args : List Str) :
    (∃ e, expandTokens place files cwd nested base seen args = .error e) ↔
      lacksFile base args = true ∨
        ∃ p ∈ namedFiles base args, @NamedError files cwd α nested base seen p.1 p.2 := by
  induction args using namedFiles.induct base with
  | case1 => simp [expandTokens, lacksFile, namedFiles]
  | case2 a => by_cases h : isFileOption a = true <;> simp [expandTokens, lacksFile, namedFiles, h]
  | case3 a v rest h ih =>
    simp only [expandTokens, lacksFile, namedFiles, h, if_true, List.exists_mem_cons_iff]
    rw [← or_assoc, @or_comm (lacksFile base rest = true), or_assoc, ← ih]
    by_cases hseen : filePath cwd base v ∈ seen
    · simp [hseen, NamedError]
    · rw [if_neg hseen]
      cases hfile : files (filePath cwd base v) with
      | error message => simp [NamedError, hfile]
      | ok toks =>
        cases hnested : nested (nestedBase a base (filePath cwd base v)) (seen ++ [filePath cwd base v]) toks with
        | error e => simp [NamedError, hfile, hnested, bind, Except.bind]
        | ok inner =>
          cases hrest : expandTokens place files cwd nested base seen rest <;>
            simp [NamedError, hfile, hnested, hseen, bind, Except.bind, pure, Except.pure]
  | case4 a v rest h hpath ih =>
    rw [expandTokens, lacksFile, namedFiles, if_neg h, if_neg h, if_neg h, if_pos hpath, if_pos hpath, if_pos hpath, ← ih]
    cases hrest : expandTokens place files cwd nested base seen rest <;>
      simp [bind, Except.bind, pure, Except.pure]
  | case5 a v rest h hpath ih =>
    simp only [expandTokens, lacksFile, namedFiles, h, if_false, hpath, Bool.false_eq_true]
    rw [← ih]
    cases hrest : expandTokens place files cwd nested base seen (v :: rest) <;>
      simp [bind, Except.bind, pure, Except.pure]

/-- The expansion ends with an error exactly when the files are nested wrongly or one is lacking. -/
theorem expandFiles_error_iff (levels : Nat) (base : Str) (seen args : List Str) :
    (∃ e, expandFiles place files cwd levels base seen args = .error e) ↔
      Misnested files cwd levels base seen args ∨ Broken files cwd levels base seen args := by
  induction levels generalizing base seen args with
  | zero => exact iff_of_true ⟨_, rfl⟩ (.inl .deep)
  | succ levels ih =>
    rw [expandFiles, expandTokens_error_iff]
    constructor
    · rintro (h | ⟨⟨a, v⟩, h, hseen | ⟨message, hfile⟩ | ⟨toks, hfile, e, he⟩⟩)
      · exact .inr (.lacks h)
      · exact .inl (.itself h hseen)
      · exact .inr (.unreadable h hfile)
      · exact ((ih _ _ _).mp ⟨e, he⟩).imp (.nested h hfile) (.nested h hfile)
    · rintro (h | h)
      · cases h with
        | itself h hseen => exact .inr ⟨_, h, .inl hseen⟩
        | nested h hfile hnested => exact .inr ⟨_, h, .inr (.inr ⟨_, hfile, (ih _ _ _).mpr (.inl hnested)⟩)⟩
      · cases h with
        | lacks h => exact .inl h
        | unreadable h hfile => exact .inr ⟨_, h, .inr (.inl ⟨_, hfile⟩)⟩
        | nested h hfile hnested => exact .inr ⟨_, h, .inr (.inr ⟨_, hfile, (ih _ _ _).mpr (.inr hnested)⟩)⟩

/-- What is written for the tokens is a function of the tokens in place. -/
theorem expandTokens_map {β : Type} (g : α → β) {nested : Str → List Str → List Str → Except ArgError (List α)}
    {nested' : Str → List Str → List Str → Except ArgError (List β)}
    (hnested : ∀ base seen args, nested' base seen args = (nested base seen args).map (List.map g)) {base : Str}
    {seen : List Str} (args : List Str) :
    expandTokens (fun base value text => g (place base value text)) files cwd nested' base seen args =
      (expandTokens place files cwd nested base seen args).map (List.map g) := by
  induction args using namedFiles.induct base with
  | case1 => rfl
  | case2 a =>
    rw [expandTokens, expandTokens]
    split_ifs <;> rfl
  | case3 a v rest h ih =>
    rw [expandTokens, expandTokens, if_pos h, if_pos h, ih]
    simp only
    split_ifs with hseen
    · rfl
    · cases hfile : files (filePath cwd base v) with
      | error message => rfl
      | ok toks =>
        simp only [hnested]
        cases nested (nestedBase a base (filePath cwd base v)) (seen ++ [filePath cwd base v]) toks with
        | error e => rfl
        | ok inner =>
          cases expandTokens place files cwd nested base seen rest <;>
            simp [Except.map, bind, Except.bind, pure, Except.pure]
  | case4 a v rest h hpath ih =>
    rw [expandTokens, expandTokens, if_neg h, if_neg h, if_pos hpath, if_pos hpath, ih]
    cases expandTokens place files cwd nested base seen rest <;> rfl
  | case5 a v rest h hpath ih =>
    rw [expandTokens, expandTokens, if_neg h, if_neg h, if_neg hpath, if_neg hpath, ih]
    cases expandTokens place files cwd nested base seen (v :: rest) <;> rfl

theorem expandFiles_map {β : Type} (g : α → β) (levels : Nat) (base : Str) (seen args : List Str) :
    expandFiles (fun base value text => g (place base value text)) files cwd levels base seen args =
      (expandFiles place files cwd levels base seen args).map (List.map g) := by
  induction levels generalizing base seen args with
  | zero => rfl
  | succ levels ih => exact expandTokens_map g ih args

end Errors

/-- The command line that is scanned is the tokens in place, each written by the rules of the expansion. -/
theorem expandOptionFiles_eq (files : Str → Except Str (List Str)) (cwd : Str) (args : List Str) :
    expandOptionFiles files cwd args = (inPlace files cwd args).map (List.map Token.written) :=
  @expandFiles_map files cwd _ Token.at _ Token.written _ _ _ _

/-! ## Absolute directories -/

section Bases

variable {files : Str → Except Str (List Str)} {cwd : Str} (hcwd : isAbs cwd = true)

/-- A base is empty or an absolute directory. -/
def BaseOk (base : Str) : Prop := base = [] ∨ isAbs base = true

include hcwd

theorem isAbs_filePath {base : Str} (hbase : BaseOk base) (name : Str) : isAbs (filePath cwd base name) = true := by
  refine isAbs_normpath ?_
  split_ifs with hname hne
  · exact hname
  · exact isAbs_join (hbase.resolve_left hne) name
  · exact isAbs_join hcwd name

theorem nestedBase_ok {base : Str} (hbase : BaseOk base) (a name : Str) :
    BaseOk (nestedBase a base (filePath cwd base name)) := by
  unfold nestedBase
  split_ifs
  · exact .inr (isAbs_dirname (isAbs_filePath hcwd hbase name))
  · exact hbase

theorem expandTokens_bases {nested : Str → List Str → List Str → Except ArgError (List Token)}
    (hnested : ∀ base seen args l, BaseOk base → nested base seen args = .ok l → ∀ t ∈ l, BaseOk t.base) {base : Str}
    (hbase : BaseOk base) {seen : List Str} (args : List Str) {l : List Token}
    (h : expandTokens Token.at files cwd nested base seen args = .ok l) :
    ∀ t ∈ l, BaseOk t.base := by
  induction args using namedFiles.induct base generalizing l with
  | case1 =>
    cases h
    exact nofun
  | case2 a =>
    rw [expandTokens] at h
    split_ifs at h
    cases h
    exact List.forall_mem_singleton.mpr hbase
  | case3 a v rest ha ih =>
    rw [expandTokens, if_pos ha] at h
    simp only at h
    split_ifs at h
    cases hfile : files (filePath cwd base v) with
    | error message => rw [hfile] at h; cases h
    | ok toks =>
      simp only [hfile] at h
      obtain ⟨inner, hinner, h⟩ := Lookup.bind_eq_ok.mp h
      obtain ⟨l', hl', h⟩ := Lookup.bind_eq_ok.mp h
      cases h
      intro t ht
      rcases List.mem_append.mp ht with ht | ht
      · exact hnested _ _ _ _ (nestedBase_ok hcwd hbase a v) hinner t ht
      · exact ih hl' t ht
  | case4 a v rest ha hpath ih =>
    rw [expandTokens, if_neg ha, if_pos hpath] at h
    obtain ⟨l', hl', h⟩ := Lookup.bind_eq_ok.mp h
    cases h
    exact List.forall_mem_cons.mpr ⟨hbase, List.forall_mem_cons.mpr ⟨hbase, ih hl'⟩⟩
  | case5 a v rest ha hpath ih =>
    rw [expandTokens, if_neg ha, if_neg hpath] at h
    obtain ⟨l', hl', h⟩ := Lookup.bind_eq_ok.mp h
    cases h
    exact List.forall_mem_cons.mpr ⟨hbase, ih hl'⟩

/-- Every token stands outside of `-F` files or has an absolute directory. -/
theorem inPlace_bases {args : List Str} {l : List Token} (h : inPlace files cwd args = .ok l) :
    ∀ t ∈ l, BaseOk t.base := by
  have hfiles : ∀ levels base seen args l, BaseOk base →
      expandFiles Token.at files cwd levels base seen args = .ok l →
        ∀ t ∈ l, BaseOk t.base := by
    intro levels
    induction levels with
    | zero => exact fun _ _ _ _ _ h => nomatch h
    | succ levels ih => exact fun base seen args l hbase h => expandTokens_bases hcwd ih hbase args h
  exact hfiles _ _ _ _ _ (.inl rfl) h

end Bases

end Vamos.OptionFiles
