import Sv2ghdl.Lists.StableSort
import Sv2ghdl.Python.Str
import Sv2ghdl.Syntax.Pieces

/-!
# Option tables

`vamos/optable.py`: a table matches each token of a command line, and `scan` applies what the token calls for.
-/

open Python

namespace Vamos.OptionTable

def dash : CodePoint := '-'
def plus : CodePoint := '+'

/-- The token starts with one of `option_chars`. -/
def hasOptionChar (tok : Str) : Bool := tok.head? = some dash || tok.head? = some plus

/-- `[p for p in text.split("+") if p]` -/
def plusParts (text : Str) : List Str := (text.splitOn plus).filter (· ≠ [])

inductive Arity where
  | flag | next | eq | plus | prefixed
  deriving DecidableEq

/-- `Opt`; `Act` is what a table's options call. -/
structure Opt (Act : Type) where
  name : Str
  arity : Arity
  act : Act
  deriving DecidableEq

structure Table (Act : Type) where
  exact : List (Opt Act)
  fuzzy : List (Opt Act)

section Tables

variable {Act : Type}

def Opt.isExact (o : Opt Act) : Bool := o.arity = .flag || o.arity = .next

/-- `Table(opts)`: the longest name first. -/
def Table.of (opts : List (Opt Act)) : Table Act where
  exact := opts.filter Opt.isExact
  fuzzy := StableSort.sortBy (fun o => -(o.name.length : Int)) (opts.filter fun o => !o.isExact)

/-- What a token that the option matches starts with. -/
def Opt.start (o : Opt Act) : Str := if o.arity = .eq then o.name ++ str "=" else o.name

/-- `Table.match`; of exact options with one name the last one counts. -/
def Table.find (T : Table Act) (tok : Str) : Option (Opt Act) :=
  (T.exact.reverse.find? fun o => o.name = tok).or (T.fuzzy.find? fun o => o.start.isPrefixOf tok)

inductive Value where
  | none
  | text (s : Str)
  | list (l : List Str)

/-- The text, which is empty for a flag. -/
def Value.toStr : Value → Str
  | .text s => s
  | _ => []

def Value.toList : Value → List Str
  | .list l => l
  | _ => []

/-- `value_of` -/
def valueOf (o : Opt Act) (tok : Str) : Value :=
  match o.arity with
  | .eq => .text (tok.drop (o.name.length + 1))
  | .plus => .list (plusParts (tok.drop o.name.length))
  | .prefixed => .text (tok.drop o.name.length)
  | .flag | .next => .none

/-- What a token is without the tokens before it. -/
inductive TokenKind (Act : Type) where
  | positional
  | unknown
  | option (o : Opt Act)

/-- A bare option character is positional. -/
def Table.kind (T : Table Act) (tok : Str) : TokenKind Act :=
  if hasOptionChar tok then
    match T.find tok with
    | some o => .option o
    | none => if tok = [dash] ∨ tok = [plus] then .positional else .unknown
  else .positional

/-- What `scan` calls; `shown` is the option as a note shows it. -/
inductive Call (Act : Type) where
  | positional (tok : Str)
  | unknown (tok : Str)
  | option (o : Opt Act) (shown : Str) (v : Value)

/-- `"%s %s" % (tok, val)` -/
def nextShown (tok v : Str) : Str := tok ++ str " " ++ v

/-- The text of `ScanError`. -/
def needsValue (tok : Str) : Str := str "option " ++ tok ++ str " needs a value"

variable {σ : Type} (run : σ → Call Act → σ)

/-- `scan`, where `unknown` takes one token. -/
def scan (T : Table Act) : σ → List Str → Except Str σ
  | job, [] => .ok job
  | job, tok :: rest =>
    match T.kind tok with
    | .positional => scan T (run job (.positional tok)) rest
    | .unknown => scan T (run job (.unknown tok)) rest
    | .option o =>
      if o.arity = .next then
        match rest with
        | [] => .error (needsValue tok)
        | v :: rest => scan T (run job (.option o (nextShown tok v) (.text v))) rest
      else scan T (run job (.option o tok (valueOf o tok))) rest

end Tables

/-! ## Options that are found -/

section Found

variable {Act : Type} {opts : List (Opt Act)} {tok : Str} {o : Opt Act}

/-- The option that a token matches is one of the table's, and is named by the token or starts it. -/
theorem Table.find_of (h : (Table.of opts).find tok = some o) :
    o ∈ opts ∧ if o.isExact then o.name = tok else o.start <+: tok := by
  rw [find, Option.or_eq_some_iff] at h
  rcases h with h | ⟨-, h⟩
  · have hmem := List.mem_filter.mp (List.mem_reverse.mp (List.mem_of_find?_eq_some h))
    rw [if_pos hmem.2]
    have hname := List.find?_some h
    exact ⟨hmem.1, of_decide_eq_true hname⟩
  · have hmem := List.mem_filter.mp ((StableSort.mem_sortBy _).mp (List.mem_of_find?_eq_some h))
    rw [if_neg (by simpa using hmem.2)]
    have hstart := List.find?_some h
    exact ⟨hmem.1, List.isPrefixOf_iff_prefix.mp hstart⟩

/-- A token is matched when an option of the table starts it. -/
theorem Table.exists_find (ho : o ∈ opts) (hexact : o.isExact = false) (hstart : o.start <+: tok) :
    ∃ o', (Table.of opts).find tok = some o' := by
  rw [← Option.isSome_iff_exists, find, Option.isSome_or, Bool.or_eq_true]
  refine .inr (List.find?_isSome.mpr ⟨o, ?_, List.isPrefixOf_iff_prefix.mpr hstart⟩)
  exact (StableSort.mem_sortBy _).mpr (List.mem_filter.mpr ⟨ho, by simp [hexact]⟩)

theorem Table.kind_option {T : Table Act} (h : T.kind tok = .option o) : T.find tok = some o := by
  unfold kind at h
  cases hfind : T.find tok with
  | none =>
    simp only [hfind] at h
    split_ifs at h
  | some o' =>
    simp only [hfind] at h
    split_ifs at h
    cases h
    rfl

end Found

/-! ## Lists of parts -/

theorem plusParts_append_plus (s t : Str) : plusParts (s ++ plus :: t) = plusParts s ++ plusParts t := by
  rw [plusParts, List.splitOn_append_cons_self, List.filter_append]
  rfl

/-- A text without `+` is its only part. -/
theorem plusParts_singleton {s : Str} (hne : s ≠ []) (h : plus ∉ s) : plusParts s = [s] := by
  rw [plusParts, List.splitOn_eq_singleton h]
  simp [hne]

/-- The parts of the parts joined with `+`. -/
theorem plusParts_intercalate (ps : List Str) : plusParts ([plus].intercalate ps) = ps.flatMap plusParts := by
  induction ps with
  | nil => rfl
  | cons p ps ih =>
    cases ps with
    | nil => simp
    | cons q qs =>
      rw [List.intercalate_cons_cons, List.append_assoc, List.singleton_append, plusParts_append_plus, ih]
      rfl

theorem mem_plusParts {s p : Str} (h : p ∈ plusParts s) : p ≠ [] ∧ plus ∉ p := by
  have hp := List.mem_filter.mp h
  exact ⟨of_decide_eq_true hp.2, Pieces.not_mem_of_mem_splitOn hp.1⟩

/-- The first part has the first character of the text. -/
theorem plusParts_cons {c : CodePoint} (hc : c ≠ plus) (s : Str) :
    ∃ p ps, plusParts (c :: s) = (c :: p) :: ps ∧ plus ∉ c :: p := by
  have hsplit := List.splitOn_cons_eq_if_modifyHead (a := plus) c s
  rw [if_neg (by simpa using hc)] at hsplit
  obtain ⟨u, us, hu⟩ := List.exists_cons_of_ne_nil (List.splitOn_ne_nil plus s)
  rw [hu] at hsplit
  have hparts : plusParts (c :: s) = (c :: u) :: us.filter (· ≠ []) := by
    rw [plusParts, hsplit]
    rfl
  exact ⟨u, _, hparts, (mem_plusParts (hparts ▸ List.mem_cons_self)).2⟩

end Vamos.OptionTable
