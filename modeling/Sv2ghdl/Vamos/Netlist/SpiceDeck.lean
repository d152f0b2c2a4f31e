import Sv2ghdl.Vamos.Netlist.SpiceFile

/-!
# Reading an HSPICE deck

The first pass of `_Parser` of `vamos/netlist/spice.py`: files, sections and scopes.  The calls of `run` that are
open are a stack of frames, and one step is one turn of the loop of the innermost call.
-/

open Python

namespace Vamos.Netlist.Spice

/-! ## Files -/

/-- What the interpreter and the file system say; `lines` are the logical statements of a file with the number
of their first line, read with or without its title line, and `reals` are the files that there are. -/
structure Os where
  U : UnicodeData
  /-- `ParseOpts.case` -/
  fold : Str → Str
  cwd : Str
  search : List Str
  /-- `os.path.expanduser(os.path.expandvars(text))` -/
  expand : Str → Str
  isabs : Str → Bool
  normpath : Str → Str
  join : Str → Str → Str
  dirname : Str → Str
  abspath : Str → Str
  isfile : Str → Bool
  realpath : Str → Str
  lines : Str → Bool → List (Str × Nat)
  reals : List Str
  realpath_mem : ∀ c, isfile c = true → realpath (abspath c) ∈ reals
  abspath_ne_nil : ∀ c, abspath c ≠ []

namespace Os

variable (os : Os)

/-- `", ".join(parts)` -/
def commas : List Str → Str
  | [] => []
  | [part] => part
  | part :: parts => part ++ str ", " ++ commas parts

/-- `origin_dir`: the directory of the file of an origin `file:line`. -/
def originDir (origin : Str) : Option Str :=
  let line := (origin.reverse.takeWhile (· ≠ (':' : CodePoint))).reverse
  let name := origin.take (origin.length - line.length - 1)
  let digits := Str.strip line
  if origin.contains (':' : CodePoint) && !name.isEmpty && !digits.isEmpty && digits.all os.U.isDigit then
    some (os.dirname (os.normpath (os.join os.cwd name)))
  else none

/-- The places where `resolve` looks. -/
def candidates (text : Str) (base : Option Str) : List Str :=
  let p := os.expand text
  if os.isabs p then [os.normpath p]
  else (os.cwd :: (base.filter (!·.isEmpty)).toList ++ os.search).map fun d => os.normpath (os.join d p)

/-- `resolve`: the path that a reference names, and the note or the error of the search. -/
def resolve (text : Str) (base : Option Str) (origin what : Str) : Option Str × List Note :=
  let seen := (os.candidates text base).eraseDups
  match seen.filter os.isfile with
  | [] => (none, [⟨.error, if origin.isEmpty then text else origin,
      what ++ str " " ++ text ++ str " not found; tried " ++ commas seen⟩])
  | use :: found =>
    let others := found.filter fun c => os.realpath c ≠ os.realpath use
    (some (os.abspath use), if others.isEmpty then [] else
      [⟨.note, if origin.isEmpty then text else origin, what ++ str " " ++ text ++ str ": using " ++ use ++
        str " (also found: " ++ commas others ++ str ")"⟩])

/-- `load` -/
def load (path : Str) (title : Bool) : File :=
  File.ofStmts os.U path ((os.lines (os.realpath path) title).map fun line =>
    ⟨Str.strip line.1, path ++ str ":" ++ digitText (digitsOf line.2)⟩)

end Os

/-! ## States -/

/-- An open `.subckt`; the top level is scope 0. -/
structure Scope where
  id : Nat
  name : Str
  stmt : Stmt
  deriving DecidableEq, Repr

inductive Item where
  | stmt (st : Stmt)
  | scope (id : Nat)
  deriving DecidableEq, Repr

/-- `(realpath, section, id(scope))` -/
structure Key where
  real : Str
  sec : Option Str
  scope : Nat
  deriving DecidableEq, Repr

/-- An open call of `run`. -/
structure Frame where
  file : File
  sec : Option Str
  i : Nat
  stop : Nat
  skip : List (Nat × Nat)
  deriving DecidableEq, Repr

/-- A netlist of `paths`, the first one with a title line, or the lines of `extra`. -/
inductive Job where
  | netlist (first : Bool) (ref origin : Str)
  | extra (stmts : List Stmt) (origin : Str)
  deriving DecidableEq, Repr

structure State where
  jobs : List Job
  /-- What the open scopes are closed at the end of. -/
  reading : Str
  /-- The open calls and the open scopes, the innermost first. -/
  frames : List Frame
  opened : List Scope
  /-- The id of the next scope. -/
  next : Nat
  expanded : List (Key × Str)
  /-- The files that are in `files`. -/
  loaded : List (Str × Bool)
  /-- The items of the scopes, in the order of their appends. -/
  items : List (Nat × Item)
  notes : List Note
  deriving DecidableEq, Repr

namespace State

/-- `id(self.scope)` -/
def scope (σ : State) : Nat := (σ.opened.head?.map Scope.id).getD 0

def add (σ : State) (notes : List Note) : State := { σ with notes := σ.notes ++ notes }

def err (σ : State) (origin message : Str) : State := σ.add [⟨.error, origin, message⟩]

def note (σ : State) (origin message : Str) : State := σ.add [⟨.note, origin, message⟩]

/-- `self.scope.items.append` -/
def put (σ : State) (item : Item) : State := { σ with items := σ.items ++ [(σ.scope, item)] }

/-- The notes of a file come with its first `load`. -/
def loading (σ : State) (f : File) (title : Bool) : State :=
  if (f.path, title) ∈ σ.loaded then σ
  else { σ with loaded := (f.path, title) :: σ.loaded, notes := σ.notes ++ f.notes }

def expand (σ : State) (key : Key) (origin : Str) : State := { σ with expanded := (key, origin) :: σ.expanded }

end State

/-- The frame of `run(f, sec)`; none when there is no such section. -/
def frameOf (f : File) : Option Str → Option Frame
  | none => some ⟨f, none, 0, f.stmts.length, f.skip⟩
  | some name => (f.sections.lookup name).map fun entry => ⟨f, some name, entry.1, entry.2.1, []⟩

/-- `run(f, sec)` begins. -/
def State.enter (σ : State) (f : File) (sec : Option Str) : State :=
  { σ with frames := (frameOf f sec).toList ++ σ.frames }

/-! ## Statements -/

/-- What a file statement asks for: a file or one of its sections, or another section of the same file. -/
inductive Request where
  | file (name : Str) (sec : Option Str)
  | own (name sec : Str)

section Statements

variable (os : Os)

/-- `d_include` -/
def dInclude (st : Stmt) : Except Str Request :=
  let kw := st.kw os.U
  match pathArgs (st.text.drop kw.length) with
  | .error exc => .error (kw ++ str ": " ++ exc)
  | .ok [name] => .ok (.file name none)
  | .ok _ => .error (kw ++ str " takes one file name")

/-- `d_lib`, in a section or not -/
def dLib (st : Stmt) (sec : Option Str) : Except Str Request :=
  match pathArgs (st.text.drop 4), sec with
  | .error exc, _ => .error (str ".lib: " ++ exc)
  | .ok [name, sec], _ => .ok (.file name (some (os.U.lower sec)))
  | .ok [name], some _ => .ok (.own name (os.U.lower name))
  | _, _ => .error (str ".lib needs a file name and a section name ('.lib \"file\" sec')")

/-- `base if f.path else self.origin_dir(st.origin)` -/
def baseOf (f : File) (st : Stmt) : Option Str :=
  if f.path.isEmpty then os.originDir st.origin else some (os.dirname f.path)

/-- `section %s of %s`, or the path alone -/
def describe (path : Str) (sec : Option Str) : Str :=
  match sec with
  | none | some [] => path
  | some name => str "section " ++ name ++ str " of " ++ path

/-- `" (sections: %s)"`, when there are any -/
def sectionsText (f : File) : Str :=
  let names := (f.sections.map Prod.fst).mergeSort fun a b => decide (a ≤ b)
  match names with
  | [] => []
  | name :: names => str " (sections: " ++ name ++ names.flatMap (str " " ++ ·) ++ str ")"

/-- `expand`, and the rest of `d_lib` -/
def request (σ : State) (f : File) (st : Stmt) : Request → State
  | .file name sec =>
    let what := if sec.getD [] = [] then str "include file" else str ".lib file"
    let (path, notes) := os.resolve name (baseOf os f st) st.origin what
    let σ := σ.add notes
    match path with
    | none => σ
    | some path =>
      let key : Key := ⟨os.realpath path, sec, σ.scope⟩
      match σ.expanded.lookup key with
      | some first =>
        σ.note st.origin (describe path sec ++ str " already read at " ++ first ++ str "; not read again")
      | none =>
        let file := os.load path false
        let σ := (σ.expand key st.origin).loading file false
        match sec with
        | none => σ.enter file none
        | some wanted =>
          if (file.sections.lookup wanted).isSome then σ.enter file (some wanted)
          else σ.err st.origin (str ".lib " ++ name ++ str " " ++ wanted ++ str ": the file has no section " ++
            wanted ++ sectionsText file)
  | .own name sec =>
    let key : Key := ⟨os.realpath f.path, some sec, σ.scope⟩
    if (f.sections.lookup sec).isNone then
      σ.err st.origin (str ".lib " ++ name ++ str ": no section " ++ name ++ str " in " ++ f.path)
    else
      match σ.expanded.lookup key with
      | some first =>
        σ.note st.origin (str "section " ++ sec ++ str " of " ++ f.path ++ str " already read at " ++ first ++
          str "; not read again")
      | none => (σ.expand key st.origin).enter f (some sec)

/-- `d_subckt` -/
def dSubckt (σ : State) (st : Stmt) : State :=
  let words := Str.splitWords st.text
  let (σ, name) := match words with
    | _ :: name :: _ => (σ, os.fold name)
    | _ => (σ.err st.origin (st.kw os.U ++ str " needs a name"), str "?")
  { σ.put (.scope σ.next) with opened := ⟨σ.next, name, st⟩ :: σ.opened, next := σ.next + 1 }

/-- `d_ends` -/
def dEnds (σ : State) (st : Stmt) : State :=
  let kw := st.kw os.U
  match σ.opened with
  | [] => σ.err st.origin (kw ++ str " without .subckt")
  | s :: opened =>
    let σ := match Str.splitWords st.text with
      | _ :: name :: _ =>
        if os.fold name = s.name then σ
        else σ.err st.origin (kw ++ str " " ++ name ++ str " closes .subckt " ++ s.name ++ str " (" ++
          s.stmt.origin ++ str ")")
      | _ => σ
    { σ with opened := opened }

/-- The file statement that a statement is, in a section or not. -/
def asked (st : Stmt) (sec : Option Str) : Option (Except Str Request) :=
  match dot (st.kw os.U) with
  | some .inc => some (dInclude os st)
  | some .lib => some (dLib os st sec)
  | _ => none

/-- `statement`; a command that is not in `dotTable` leaves files and scopes alone. -/
def statement (σ : State) (f : File) (st : Stmt) (sec : Option Str) : State :=
  match asked os st sec with
  | some (.error message) => σ.err st.origin message
  | some (.ok r) => request os σ f st r
  | none =>
    if (st.kw os.U).head? = some ('.' : CodePoint) then
      match dot (st.kw os.U) with
      | some .subckt => dSubckt os σ st
      | some .ends => dEnds os σ st
      | some .param | some .model => σ.put (.stmt st)
      | _ => σ
    else σ.put (.stmt st)

/-- `t = f.stmts[j].text.split()[0].lower()` -/
def firstWord (st : Stmt) : Str := os.U.lower ((Str.splitWords st.text).headD [])

/-- The loop of `skip_to` over the statements from `j` on. -/
def skipFrom (closer : Str) (opener : Option Str) : List Stmt → Nat → Nat → Option Nat
  | [], _, _ => none
  | st :: rest, j, depth =>
    let t := firstWord os st
    if t = closer then
      if depth = 0 then some (j + 1) else skipFrom closer opener rest (j + 1) (depth - 1)
    else skipFrom closer opener rest (j + 1) (if some t = opener then depth + 1 else depth)

/-- `skip_to`: where to go on, and the error when there is no closer. -/
def skipTo (fr : Frame) (st : Stmt) (closer : Str) (opener : Option Str) : Nat × List Note :=
  match skipFrom os closer opener ((fr.file.stmts.take fr.stop).drop (fr.i + 1)) (fr.i + 1) 0 with
  | some j => (j, [])
  | none => (fr.stop, [⟨.error, st.origin, (Str.splitWords st.text).headD [] ++ str " has no " ++ closer⟩])

/-- The notes of an `.end` or `.alter`, which ends the call. -/
def endNotes (fr : Frame) (st : Stmt) : List Note :=
  let kw := st.kw os.U
  let rest := (fr.file.stmts.take fr.stop).drop (fr.i + 1)
  (if kw = str ".alter" then
      [⟨.error, st.origin, str ".alter is not supported (one simulation per run)"⟩]
    else if fr.sec.isSome then [⟨.error, st.origin, str "a .lib section cannot contain .end"⟩]
    else []) ++
  match rest with
  | first :: _ =>
    if kw = str ".end" then
      [⟨.note, first.origin, str "ignored after .end (" ++ digitText (digitsOf rest.length) ++ str " statement" ++
        (if rest.length = 1 then [] else str "s") ++ str ")"⟩]
    else []
  | [] => []

/-- One turn of the loop of `run` at a statement; the frame is the innermost of `σ`, above `frames`. -/
def turn (σ : State) (fr : Frame) (frames : List Frame) (st : Stmt) : State :=
  let kw := st.kw os.U
  let go (i : Nat) : State := { σ with frames := { fr with i := i } :: frames }
  match dot kw with
  | some .stop | some .alter => { σ with frames := frames, notes := σ.notes ++ endNotes os fr st }
  | some .data =>
    let (j, notes) := skipTo os fr st (str ".enddata") none
    ((go j).err st.origin (str ".data is not supported")).add notes
  | some .enddata => (go (fr.i + 1)).err st.origin (kw ++ str " without .data")
  | some .cond =>
    if kw = str ".if" then
      let (j, notes) := skipTo os fr st (str ".endif") (some (str ".if"))
      ((go j).err st.origin ((Str.splitWords st.text).headD [] ++
        str " is not supported (conditional netlists, .if binning)")).add notes
    else (go (fr.i + 1)).err st.origin (kw ++ str " without .if")
  | some .endl => (go (fr.i + 1)).err st.origin (str ".endl without a .lib section")
  | _ => statement os (go (fr.i + 1)) fr.file st fr.sec

/-- A job of `read` begins. -/
def startJob (σ : State) : Job → State
  | .netlist first ref origin =>
    let (path, notes) := os.resolve ref (os.originDir origin) origin (str "netlist")
    let σ := σ.add notes
    match path with
    | none => σ
    | some path =>
      let key : Key := ⟨os.realpath path, none, σ.scope⟩
      match σ.expanded.lookup key with
      | some before =>
        σ.note (if origin.isEmpty then path else origin)
          (str "netlist " ++ ref ++ str " already read (" ++ before ++ str "); not read again")
      | none =>
        let file := os.load path first
        { ((σ.expand key path).loading file first).enter file none with reading := path }
  | .extra stmts origin =>
    let file := File.ofStmts os.U [] stmts
    { (σ.add file.notes).enter file none with reading := origin }

/-- One turn of the innermost loop: of `run`, of `close_scopes` or of `read`; none when `read` returns. -/
def step (σ : State) : Option State :=
  match σ.frames with
  | fr :: frames =>
    if fr.i < fr.stop then
      match fr.skip.lookup fr.i with
      | some stop => some { σ with frames := { fr with i := stop + 1 } :: frames }
      | none =>
        match fr.file.stmts[fr.i]? with
        | some st => some (turn os σ fr frames st)
        | none => some { σ with frames := frames }
    else some { σ with frames := frames }
  | [] =>
    match σ.opened, σ.jobs with
    | s :: opened, _ =>
      some { σ.err s.stmt.origin (str ".subckt " ++ s.name ++ str " has no .ends (end of " ++ σ.reading ++ str ")") with
        opened := opened }
    | [], job :: jobs => some (startJob os { σ with jobs := jobs } job)
    | [], [] => none

/-- `_Parser.__init__` and the jobs of `read`. -/
def State.start (jobs : List Job) : State :=
  { jobs := jobs, reading := [], frames := [], opened := [], next := 1, expanded := [], loaded := [], items := [],
    notes := [] }

/-- The state after `n` steps, as long as `read` has not returned. -/
def after (jobs : List Job) : Nat → Option State
  | 0 => some (State.start jobs)
  | n + 1 => (after jobs n).bind (step os)

/-! ## Calls -/

/-- The reading that a request asks for; none when there is no such file, or no such section of the same file. -/
def requested (σ : State) (f : File) (st : Stmt) : Request → Option (Key × File)
  | .file name sec =>
    let what := if sec.getD [] = [] then str "include file" else str ".lib file"
    (os.resolve name (baseOf os f st) st.origin what).1.map fun path =>
      (⟨os.realpath path, sec, σ.scope⟩, os.load path false)
  | .own _ sec =>
    if (f.sections.lookup sec).isSome then some (⟨os.realpath f.path, some sec, σ.scope⟩, f) else none

/-- The call of a file that the next step makes: by a file statement, or for a netlist of `read`. -/
def call (σ : State) : Option (Key × File) :=
  match σ.frames with
  | fr :: _ =>
    if fr.i < fr.stop ∧ fr.skip.lookup fr.i = none then
      match fr.file.stmts[fr.i]? with
      | some st =>
        match asked os st fr.sec with
        | some (.ok r) => requested os σ fr.file st r
        | _ => none
      | none => none
    else none
  | [] =>
    match σ.opened, σ.jobs with
    | [], .netlist first ref origin :: _ =>
      (os.resolve ref (os.originDir origin) origin (str "netlist")).1.map fun path =>
        (⟨os.realpath path, none, σ.scope⟩, os.load path first)
    | _, _ => none

/-- The frames when the innermost call goes on with its next statement. -/
def State.past (σ : State) : List Frame :=
  match σ.frames with
  | fr :: frames => { fr with i := fr.i + 1 } :: frames
  | [] => []

/-- What a frame reads; the lines of `extra` are no file. -/
def Frame.reading (fr : Frame) : Option (Str × Option Str) :=
  if fr.file.path.isEmpty then none else some (os.realpath fr.file.path, fr.sec)

def State.openReadings (σ : State) : List (Str × Option Str) := σ.frames.filterMap (Frame.reading os)

/-- The next step does not begin to read a file or section that is being read. -/
def NotOpen (σ : State) : Prop :=
  ∀ key file, call os σ = some (key, file) → σ.expanded.lookup key = none → (frameOf file key.sec).isSome = true →
    (key.real, key.sec) ∉ σ.openReadings os

end Statements

end Vamos.Netlist.Spice
