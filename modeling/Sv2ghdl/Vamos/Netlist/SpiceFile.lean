import Sv2ghdl.Python.Unicode

/-!
# SPICE files

A SPICE file is read into its logical statements and an index of its `.lib` sections: `_Stmt`, `_keyword`,
`_path_args` and `_File` of `vamos/netlist/spice.py`.
-/

open Python

namespace Vamos.Netlist.Spice

/-! ## Notes -/

inductive Severity where
  | note | error
  deriving DecidableEq, Repr

structure Note where
  severity : Severity
  origin : Str
  message : Str
  deriving DecidableEq, Repr

/-! ## Statements -/

/-- A logical line: comments removed, continuations joined. -/
structure Stmt where
  text : Str
  origin : Str
  deriving DecidableEq, Repr

def isWordStart (c : CodePoint) : Bool := c.isAsciiLetter || c == ('_' : CodePoint)

def isWordChar (c : CodePoint) : Bool := c.isAsciiAlnum || c == ('_' : CodePoint)

/-- `_keyword`: a dot-command in lower case, else the element letter. -/
def keyword (U : UnicodeData) : Str → Str
  | [] => []
  | c :: rest =>
    if c = '.' then
      if (rest.head?.map isWordStart).getD false then c :: (rest.takeWhile isWordChar).map asciiLower else [c]
    else U.lower [c]

def Stmt.kw (U : UnicodeData) (st : Stmt) : Str := keyword U st.text

/-- The commands that touch files, scopes and the place in a file. -/
inductive Command where
  | inc | lib | endl | subckt | ends | param | model | stop | alter | data | enddata | cond
  deriving DecidableEq, Repr

/-- The rows of `_DOT` for these commands. -/
def dotTable : List (String × Command) :=
  [(".include", .inc), (".inc", .inc), (".incl", .inc), (".lib", .lib), (".endl", .endl),
    (".subckt", .subckt), (".macro", .subckt), (".ends", .ends), (".eom", .ends),
    (".param", .param), (".parameter", .param), (".parameters", .param), (".model", .model),
    (".end", .stop), (".alter", .alter), (".data", .data), (".enddata", .enddata),
    (".if", .cond), (".elseif", .cond), (".else", .cond), (".endif", .cond)]

/-- `_DOT.get(kw)`; none for the commands that leave files and scopes alone, too. -/
def dot (kw : Str) : Option Command := (dotTable.find? fun row => str row.1 = kw).map Prod.snd

/-! ## Arguments -/

def isArgBlank (c : CodePoint) : Bool := c == (' ' : CodePoint) || c == ('\t' : CodePoint) || c == (',' : CodePoint)

def isQuote (c : CodePoint) : Bool := c == ('\'' : CodePoint) || c == ('"' : CodePoint)

/-- Where `_path_args` stands: between arguments, in a word or in quotes. -/
inductive ArgState where
  | blank
  | word (read : Str)
  | quoted (quote : CodePoint) (read : Str)

/-- The loop of `_path_args`. -/
def argsFrom : ArgState → Str → Except Str (List Str)
  | .blank, [] => .ok []
  | .blank, c :: rest =>
    if isArgBlank c then argsFrom .blank rest
    else if isQuote c then argsFrom (.quoted c []) rest
    else argsFrom (.word [c]) rest
  | .word read, [] => .ok [read]
  | .word read, c :: rest =>
    if isArgBlank c then (argsFrom .blank rest).map (read :: ·) else argsFrom (.word (read ++ [c])) rest
  | .quoted quote _, [] => .error (str "unterminated " ++ [quote] ++ str " quote")
  | .quoted quote read, c :: rest =>
    if c = quote then (argsFrom .blank rest).map (read :: ·) else argsFrom (.quoted quote (read ++ [c])) rest

/-- `_path_args`: quoted or blank-separated words. -/
def pathArgs (text : Str) : Except Str (List Str) := argsFrom .blank text

/-! ## Sections -/

/-- A file read into statements; the sections of `.lib`, and the lines that a whole-file read jumps over. -/
structure File where
  path : Str
  stmts : List Stmt
  sections : List (Str × (Nat × Nat × Str))
  skip : List (Nat × Nat)
  notes : List Note
  deriving DecidableEq, Repr

/-- A file before its sections are found. -/
def File.empty (path : Str) (stmts : List Stmt) : File := ⟨path, stmts, [], [], []⟩

def File.note (f : File) (severity : Severity) (origin message : Str) : File :=
  { f with notes := f.notes ++ [⟨severity, origin, message⟩] }

/-- `_close` -/
def File.close (f : File) (opened : Str × Nat × Str) (stop : Nat) : File :=
  let (name, start, origin) := opened
  let f := { f with skip := f.skip ++ [(start, stop)] }
  match f.sections.lookup name with
  | some first =>
    f.note .note origin (str "section " ++ name ++ str " is defined again (first at " ++ first.2.2 ++
      str "); the first definition is used")
  | none => { f with sections := f.sections ++ [(name, start + 1, stop, origin)] }

/-- One statement of the loop of `_File`, with the definition that is open. -/
def File.index (U : UnicodeData) (fo : File × Option (Str × Nat × Str)) (entry : Stmt × Nat) :
    File × Option (Str × Nat × Str) :=
  let (f, opened) := fo
  let (st, idx) := entry
  if st.kw U = str ".lib" then
    match pathArgs (st.text.drop 4), opened with
    | .ok [name], none => (f, some (U.lower name, idx, st.origin))
    | _, _ => (f, opened)
  else if st.kw U = str ".endl" then
    match opened with
    | some section_ => (f.close section_ idx, none)
    | none => (f, none)
  else (f, opened)

/-- `_File.__init__` -/
def File.ofStmts (U : UnicodeData) (path : Str) (stmts : List Stmt) : File :=
  let (f, opened) := stmts.zipIdx.foldl (File.index U) (File.empty path stmts, none)
  match opened with
  | some section_ =>
    (f.note .error section_.2.2 (str ".lib " ++ section_.1 ++ str " has no .endl")).close section_ stmts.length
  | none => f

section Index

variable (U : UnicodeData)

theorem close_stmts (f : File) (opened : Str × Nat × Str) (stop : Nat) :
    (f.close opened stop).path = f.path ∧ (f.close opened stop).stmts = f.stmts := by
  unfold File.close
  dsimp only
  split <;> exact ⟨rfl, rfl⟩

theorem index_stmts (fo : File × Option (Str × Nat × Str)) (entry : Stmt × Nat) :
    (File.index U fo entry).1.path = fo.1.path ∧ (File.index U fo entry).1.stmts = fo.1.stmts := by
  unfold File.index
  dsimp only
  split
  · split <;> exact ⟨rfl, rfl⟩
  · split
    · split
      · exact close_stmts _ _ _
      · exact ⟨rfl, rfl⟩
    · exact ⟨rfl, rfl⟩

theorem foldl_index_stmts (entries : List (Stmt × Nat)) (fo : File × Option (Str × Nat × Str)) :
    (entries.foldl (File.index U) fo).1.path = fo.1.path ∧
      (entries.foldl (File.index U) fo).1.stmts = fo.1.stmts := by
  induction entries generalizing fo with
  | nil => exact ⟨rfl, rfl⟩
  | cons entry entries ih =>
    obtain ⟨hpath, hstmts⟩ := ih (File.index U fo entry)
    exact ⟨hpath.trans (index_stmts U fo entry).1, hstmts.trans (index_stmts U fo entry).2⟩

/-- The index is over the statements of the file. -/
theorem ofStmts_stmts (path : Str) (stmts : List Stmt) :
    (File.ofStmts U path stmts).path = path ∧ (File.ofStmts U path stmts).stmts = stmts := by
  have hfold := foldl_index_stmts U stmts.zipIdx (File.empty path stmts, none)
  unfold File.ofStmts
  revert hfold
  generalize stmts.zipIdx.foldl (File.index U) (File.empty path stmts, none) = fo
  obtain ⟨f, opened⟩ := fo
  intro hfold
  cases opened with
  | none => exact hfold
  | some section_ =>
    obtain ⟨hpath, hstmts⟩ := close_stmts
      (f.note .error section_.2.2 (str ".lib " ++ section_.1 ++ str " has no .endl")) section_ stmts.length
    exact ⟨hpath.trans hfold.1, hstmts.trans hfold.2⟩

/-- The name of a `.lib` statement with one argument. -/
def sectionName (text : Str) : Option Str :=
  match pathArgs (text.drop 4) with
  | .ok [name] => some (U.lower name)
  | _ => none

/-- After the statements before `k`: each section is named by a statement, and no jump goes back. -/
structure Indexed (names : List Str) (k : Nat) (fo : File × Option (Str × Nat × Str)) : Prop where
  skip : ∀ entry ∈ fo.1.skip, entry.1 ≤ entry.2
  sections : ∀ entry ∈ fo.1.sections, entry.1 ∈ names
  opened : ∀ section_ ∈ fo.2, section_.1 ∈ names ∧ section_.2.1 ≤ k

variable {U}

theorem Indexed.close {names : List Str} {k : Nat} {f : File} {section_ : Str × Nat × Str}
    (h : Indexed names k (f, some section_)) {stop : Nat} (hle : k ≤ stop) :
    Indexed names stop (f.close section_ stop, none) := by
  obtain ⟨hname, hstart⟩ := h.opened section_ rfl
  have hskip : ∀ entry ∈ f.skip ++ [(section_.2.1, stop)], entry.1 ≤ entry.2 := by
    intro entry hentry
    rcases List.mem_append.mp hentry with hentry | hentry
    · exact h.skip entry hentry
    · rw [List.mem_singleton.mp hentry]
      exact hstart.trans hle
  unfold File.close
  dsimp only
  split
  · exact ⟨hskip, h.sections, nofun⟩
  · refine ⟨hskip, fun entry hentry => ?_, nofun⟩
    rcases List.mem_append.mp hentry with hentry | hentry
    · exact h.sections entry hentry
    · rw [List.mem_singleton.mp hentry]
      exact hname

theorem Indexed.later {names : List Str} {k : Nat} {fo : File × Option (Str × Nat × Str)} (h : Indexed names k fo) :
    Indexed names (k + 1) fo :=
  ⟨h.skip, h.sections, fun section_ hopen => ⟨(h.opened section_ hopen).1, Nat.le_succ_of_le (h.opened section_ hopen).2⟩⟩

theorem Indexed.index {names : List Str} {k : Nat} {fo : File × Option (Str × Nat × Str)} (h : Indexed names k fo)
    (st : Stmt) (hst : ∀ name ∈ sectionName U st.text, name ∈ names) :
    Indexed names (k + 1) (File.index U fo (st, k)) := by
  obtain ⟨f, opened⟩ := fo
  unfold File.index
  dsimp only
  split
  · split
    · rename_i name hargs
      have hname : U.lower name ∈ sectionName U st.text := by
        unfold sectionName
        rw [hargs]
        rfl
      refine ⟨h.skip, h.sections, fun section_ hopen => ?_⟩
      rw [← Option.mem_some.mp hopen]
      exact ⟨hst _ hname, Nat.le_succ k⟩
    · exact h.later
  · split
    · cases opened with
      | none => exact h.later
      | some section_ => exact (h.close (Nat.le_refl k)).later
    · exact h.later

theorem Indexed.foldl {names : List Str} {stmts : List Stmt} {k : Nat} {fo : File × Option (Str × Nat × Str)}
    (h : Indexed names k fo) (hstmts : ∀ st ∈ stmts, ∀ name ∈ sectionName U st.text, name ∈ names) :
    Indexed names (k + stmts.length) ((stmts.zipIdx k).foldl (File.index U) fo) := by
  induction stmts generalizing k fo with
  | nil => exact h
  | cons st stmts ih =>
    rw [List.zipIdx_cons, List.foldl_cons, List.length_cons, Nat.add_comm stmts.length 1, ← Nat.add_assoc]
    exact ih (h.index st (hstmts st List.mem_cons_self)) fun st' hst' => hstmts st' (List.mem_cons_of_mem st hst')

theorem ofStmts_indexed (path : Str) (stmts : List Stmt) :
    Indexed (stmts.filterMap fun st => sectionName U st.text) stmts.length (File.ofStmts U path stmts, none) := by
  have hempty : Indexed (stmts.filterMap fun st => sectionName U st.text) 0 (File.empty path stmts, none) :=
    ⟨nofun, nofun, nofun⟩
  have hnames : ∀ st ∈ stmts, ∀ name ∈ sectionName U st.text,
      name ∈ stmts.filterMap fun st => sectionName U st.text :=
    fun st hst name hname => List.mem_filterMap.mpr ⟨st, hst, hname⟩
  have hfold := hempty.foldl hnames
  rw [Nat.zero_add] at hfold
  unfold File.ofStmts
  revert hfold
  generalize (stmts.zipIdx 0).foldl (File.index U) (File.empty path stmts, none) = fo
  obtain ⟨f, opened⟩ := fo
  intro hfold
  cases opened with
  | none => exact hfold
  | some section_ =>
    have hnoted : Indexed (stmts.filterMap fun st => sectionName U st.text) stmts.length
        (f.note .error section_.2.2 (str ".lib " ++ section_.1 ++ str " has no .endl"), some section_) :=
      ⟨hfold.skip, hfold.sections, hfold.opened⟩
    exact hnoted.close (Nat.le_refl _)

end Index

end Vamos.Netlist.Spice
