import Sv2ghdl.Python.Unicode
import Sv2ghdl.Python.Utf8
import Sv2ghdl.Vamos.Names

/-!
# Rawfiles

`vamos/netlist/rawfile.py`: one or more plots, each a text header and a binary or ASCII data section.  `read_all`
parses them into memory; `scan` goes through the same bytes keeping only counts and times.

Positions are byte offsets into the whole file, as in the source.  An error keeps what its message shows of the file;
the path in front of every message is left out.
-/

open Python

namespace Vamos.Rawfile

/-! ## Errors -/

/-- What a `RawError` says. -/
inductive Reason where
  | empty
  | notHeaderLine (line : Str)
  | longLine (pos : Nat)
  | unsupportedFlags (odd : List Str)
  | badCount (value : Str)
  | variablesBeforeCount
  | variablesEndEarly
  | badVariable (line : Str)
  | noSection
  | countMismatch
  | expectedIndex (pos : Nat) (token : Bytes)
  | badValue (text : Str) (point : Nat)
  deriving DecidableEq, Repr

/-- `RawError`, and the plain `ValueError` of an `int()` that no `try` surrounds. -/
inductive Error where
  | rawError (reason : Reason)
  | valueError
  deriving DecidableEq, Repr

/-- Whether a call raised `RawError`. -/
def raisesRawError {α : Type} : Except Error α → Bool
  | .error (.rawError _) => true
  | _ => false

/-! ## Bytes -/

def lineFeed : Byte := 10
def carriageReturn : Byte := 13

/-- What `bytes.strip` removes and `\s` matches in a bytes pattern. -/
def isBlank (b : Byte) : Bool := (9 ≤ b.val && b.val ≤ 13) || b.val == 32

/-- `data[a:b]` -/
def slice (data : Bytes) (a b : Nat) : Bytes := (data.drop a).take (b - a)

/-- `data.find(b"\n", pos)` -/
def findLineFeed (data : Bytes) (pos : Nat) : Option Nat :=
  ((data.drop pos).findIdx? (· = lineFeed)).map (pos + ·)

/-- Where the line at `pos` ends: its line feed, else the end of the file. -/
def lineEnd (data : Bytes) (pos : Nat) : Nat := (findLineFeed data pos).getD data.length

/-- `_text`: UTF-8, else Latin-1. -/
def text (data : Bytes) : Str :=
  match Utf8.decode .strict data with
  | some s => s
  | none => data.map Names.chr

/-- `_text(data[pos:eol]).rstrip("\r")` -/
def lineText (data : Bytes) (pos eol : Nat) : Str :=
  (text (slice data pos eol)).rdropWhile (· = CodePoint.ofChar '\r')

def asciiLowerByte (b : Byte) : Byte := if 65 ≤ b.val && b.val ≤ 90 then Fin.ofNat 256 (b.val + 32) else b

/-- `_PLOT_START.match(data, pos)`: line ends, then a keyword in any case and its colon. -/
def plotStart (data : Bytes) (pos : Nat) : Bool :=
  let rest := ((data.drop pos).dropWhile fun b => b = carriageReturn || b = lineFeed).map asciiLowerByte
  ["title:", "plotname:", "date:"].any fun keyword =>
    (keyword.toList.map fun c => Fin.ofNat 256 c.toNat).isPrefixOf rest

/-- `_TOKEN.finditer(data, pos)`: the runs of bytes that are not blank, with their offsets. -/
def tokensFrom : Nat → Bytes → List (Nat × Bytes)
  | _, [] => []
  | pos, b :: rest =>
    if isBlank b then tokensFrom (pos + 1) rest
    else
      match rest, tokensFrom (pos + 1) rest with
      | [], _ => [(pos, [b])]
      | c :: _, toks =>
        if isBlank c then (pos, [b]) :: toks
        else
          match toks with
          | [] => [(pos, [b])]
          | (_, tok) :: toks => (pos, b :: tok) :: toks

def tokens (data : Bytes) (pos : Nat) : List (Nat × Bytes) := tokensFrom pos (data.drop pos)

/-! ## Header lines -/

/-- The characters of `[A-Za-z. ]`. -/
def isKeyChar (c : CodePoint) : Bool := c.isAsciiLetter || c = '.' || c = ' '

/-- The two groups of `_HEADER_LINE`; the line holds no line feed, so `.*` matches all that follows the colon. -/
def matchHeaderLine (line : Str) : Option (Str × Str) :=
  let rest := Str.lstrip line
  match rest.takeWhile isKeyChar, rest.dropWhile isKeyChar with
  | k :: ks, c :: value => if k.isAsciiLetter ∧ c = ':' then some (k :: ks, value) else none
  | _, _ => none

variable (U : UnicodeData)

/-- A header line's key and value. -/
def headerLine (line : Str) : Option (Str × Str) :=
  (matchHeaderLine line).map fun (key, value) => (U.lower (Str.strip key), Str.strip value)

/-- `_LAYOUT_FLAGS` -/
def layoutFlags : List Str := [str "real", str "complex", str "padded", str "unpadded", str "double"]

/-- The words of a `Flags:` line, all of them flags of a layout that is read. -/
def flagWords (value : Str) : Except Error (List Str) :=
  let flags := Str.splitWords (U.lower value)
  let odd := flags.filter (· ∉ layoutFlags)
  if odd = [] then .ok flags else .error (.rawError (.unsupportedFlags odd))

/-- The value of a `No. Variables:` line. -/
def variableCount (value : Str) : Except Error Int :=
  match U.int value with
  | some n => .ok n
  | none => .error (.rawError (.badCount value))

/-- The value of a `No. Points:` line, `none` when it is blank or no number. -/
def declaredPoints (value : Str) : Option Int := if value = [] then none else U.int value

/-- The place of a `No. Points:` value in the file: its span, and whether a space stands before it. -/
def pointsField (data : Bytes) (start eol : Nat) (line : Str) : Nat × Nat × Bool :=
  let a := start + line.idxOf (CodePoint.ofChar ':') + 1
  let spaced := slice data a (a + 1) = [32]
  let a := if spaced then a + 1 else a
  let b := if slice data (eol - 1) eol = [carriageReturn] then eol - 1 else eol
  (a, max a b, spaced)

/-- The fields of a variable line, between tabs if it has any. -/
def variableFields (line : Str) : List Str :=
  if CodePoint.ofChar '\t' ∈ Str.strip line then
    ((line.splitOn (CodePoint.ofChar '\t')).map Str.strip).filter (· ≠ [])
  else Str.splitWords line

/-- The name and the type on line `k` of a variable list.  `isdigit` admits digits such as `²`, which `int()` then
    refuses outside any `try`. -/
def variableAt (k : Nat) (line : Str) : Except Error (Str × Str) :=
  match variableFields line with
  | index :: name :: more =>
    if index.all U.isDigit then
      match U.int index with
      | none => .error .valueError
      | some i => if i = k then .ok (name, more.headD []) else .error (.rawError (.badVariable line))
    else .error (.rawError (.badVariable line))
  | _ => .error (.rawError (.badVariable line))

/-- The lines of a variable list from number `k` on. -/
def variablesAt : Nat → List Str → Except Error (List (Str × Str))
  | _, [] => .ok []
  | k, line :: lines =>
    match variableAt U k line with
    | .error e => .error e
    | .ok v =>
      match variablesAt (k + 1) lines with
      | .error e => .error e
      | .ok vs => .ok (v :: vs)

/-- What is left to list after `lines`. -/
def missing (nvars : Int) (lines : List Str) : Nat := (nvars - lines.length).toNat

/-- The line at `pos` and where it ends; `scan` refuses one longer than its limit, `read` has none. -/
def lineAt (limit : Option Nat) (data : Bytes) (pos : Nat) : Except Error (Str × Nat) :=
  let eol := lineEnd data pos
  if ∃ m ∈ limit, m < eol - pos then .error (.rawError (.longLine pos)) else .ok (lineText data pos eol, eol)

/-- `_MAX_HEADER_LINE` -/
def maxHeaderLine : Nat := 65536

/-- The lines of a variable list that are read from the file, blank ones skipped, until `need` of them are there, and
    where the next line starts.  Each of the `fuel` rounds goes one line on. -/
def listLines (limit : Option Nat) (data : Bytes) : Nat → Nat → Nat → Except Error (List Str × Nat)
  | _, 0, pos => .ok ([], pos)
  | 0, _ + 1, _ => .error (.rawError .variablesEndEarly)
  | fuel + 1, need + 1, pos =>
    if findLineFeed data pos = none then .error (.rawError .variablesEndEarly)
    else
      match lineAt limit data pos with
      | .error e => .error e
      | .ok (line, eol) =>
        if Str.strip line = [] then listLines limit data fuel (need + 1) (eol + 1)
        else
          match listLines limit data fuel need (eol + 1) with
          | .error e => .error e
          | .ok (lines, next) => .ok (line :: lines, next)

/-- The variables of the list whose `Variables:` line has the value `first`, and where the list ends: `_variables`,
    and `_scan_variables` under its limit. -/
def variableList (limit : Option Nat) (data : Bytes) (pos : Nat) (nvars : Int) (first : Str) :
    Except Error (List (Str × Str) × Nat) :=
  let lines := if first = [] then [] else [first]
  match listLines limit data (data.length + 1 - pos) (missing nvars lines) pos with
  | .error e => .error e
  | .ok (more, pos) =>
    match variablesAt U 0 (lines ++ more) with
    | .error e => .error e
    | .ok vs => .ok (vs, pos)

/-- The keys that a header line is told apart by. -/
inductive Key where
  | title
  | date
  | plotname
  | flags
  | variableCount
  | pointCount
  | variableList
  | data (binary : Bool)
  | other (key : Str)

def Key.of (key : Str) : Key :=
  if key = str "title" then .title
  else if key = str "date" then .date
  else if key = str "plotname" then .plotname
  else if key = str "flags" then .flags
  else if key = str "no. variables" then .variableCount
  else if key = str "no. points" then .pointCount
  else if key = str "variables" then .variableList
  else if key = str "binary" then .data true
  else if key = str "values" then .data false
  else .other key

/-- What one turn of a header's loop does: go on, or leave it at `Binary:` or `Values:`. -/
inductive Turn (σ : Type) where
  | next (pos : Nat) (state : σ)
  | marker (binary : Bool) (pos : Nat)

/-- A header line that is taken apart: where it starts and ends in the file, its key and its value. -/
structure HeaderLine where
  start : Nat
  eol : Nat
  line : Str
  key : Key
  value : Str

/-- One turn of a header's loop at `pos`: a blank line is skipped, any other is a header line, which `act` sees. -/
def onHeaderLine {σ : Type} (limit : Option Nat) (data : Bytes) (act : σ → HeaderLine → Except Error (Turn σ))
    (pos : Nat) (s : σ) : Except Error (Turn σ) :=
  match lineAt limit data pos with
  | .error e => .error e
  | .ok (line, eol) =>
    if Str.strip line = [] then .ok (.next (eol + 1) s)
    else
      match headerLine U line with
      | none => .error (.rawError (.notHeaderLine (line.take 80)))
      | some (key, value) => act s ⟨pos, eol, line, Key.of key, value⟩

/-- `while pos < len(data)` of a header, whose turns are `turn`: the state at its end, the marker that ended it if one
    did, and the position.  Each of the `fuel` rounds goes one line on. -/
def headerLoop {σ : Type} (data : Bytes) (turn : Nat → σ → Except Error (Turn σ)) :
    Nat → Nat → σ → Except Error (σ × Option Bool × Nat)
  | 0, pos, s => .ok (s, none, pos)
  | fuel + 1, pos, s =>
    if pos < data.length then
      match turn pos s with
      | .error e => .error e
      | .ok (.marker binary pos) => .ok (s, some binary, pos)
      | .ok (.next pos s) => headerLoop data turn fuel pos s
    else .ok (s, none, pos)

/-! ## Values -/

inductive Value where
  | real (x : Float)
  | complex (re im : Float)

/-- `v.real if cplx else v` -/
def Value.realPart : Value → Float
  | .real x => x
  | .complex re _ => re

/-- `_value`: `re,im` in a complex plot; `none` for a `ValueError`. -/
def value (cplx : Bool) (s : Str) : Option Value :=
  if cplx then
    let re := s.takeWhile (· ≠ CodePoint.ofChar ',')
    let im := (s.dropWhile (· ≠ CodePoint.ofChar ',')).tail
    match U.float re, if im = [] then some 0 else U.float im with
    | some x, some y => some (.complex x y)
    | _, _ => none
  else (U.float s).map .real

/-- A little-endian double. -/
def double (bs : Bytes) : Float := .ofBits (UInt64.ofNat (bs.foldr (fun b n => b.val + 256 * n) 0))

/-- The values of one row: pairs of doubles in a complex plot. -/
def rowValues (cplx : Bool) (row : Bytes) : List Value :=
  if cplx then (row.toChunks 16).map fun v => .complex (double (v.take 8)) (double (v.drop 8))
  else (row.toChunks 8).map fun v => .real (double v)

/-! ## Data sections -/

/-- The bytes of one point of a binary plot. -/
def rowBytes (nvars : Nat) (cplx : Bool) : Nat := nvars * (if cplx then 2 else 1) * 8

/-- How many points a binary section holds and where the next plot starts, with `avail` bytes behind its header: the
    declared count where those bytes suffice and blanks or a plot follow them, else all that is there. -/
def binaryCount (data : Bytes) (dataStart row : Nat) (avail : Int) (declared : Option Int) : Int × Option Nat :=
  match declared with
  | some n =>
    if 0 ≤ n ∧ n * row ≤ avail then
      let stop := dataStart + n.toNat * row
      if (data.drop stop).all isBlank then (n, none)
      else if plotStart data stop then (n, some stop)
      else (avail / row, none)
    else (avail / row, none)
  | none => (avail / row, none)

/-- The text of one ASCII value: tokens are joined while the text ends in a comma. -/
def joinedValue (s : Str) : List (Nat × Bytes) → Str × List (Nat × Bytes)
  | [] => (s, [])
  | (pos, tok) :: toks =>
    if s.getLast? = some (CodePoint.ofChar ',') then joinedValue (s ++ tok.map Names.chr) toks
    else (s, (pos, tok) :: toks)

/-- The values of point number `point`, `need` of them unless the tokens end before. -/
def pointValues (cplx : Bool) (point : Nat) :
    Nat → Nat → List (Nat × Bytes) → Except Error (List Value × List (Nat × Bytes))
  | 0, _, toks => .ok ([], toks)
  | _, _, [] => .ok ([], [])
  | _, 0, toks => .ok ([], toks)
  | fuel + 1, need + 1, (_, tok) :: toks =>
    let (s, toks) := joinedValue (tok.map Names.chr) toks
    match value U cplx s with
    | none => .error (.rawError (.badValue s point))
    | some v =>
      match pointValues cplx point fuel need toks with
      | .error e => .error e
      | .ok (vs, toks) => .ok (v :: vs, toks)

/-- `tok.group(0).isdigit()` -/
def isIndex (tok : Bytes) : Bool := tok.all fun b => 48 ≤ b.val && b.val ≤ 57

/-- The points of an ASCII section, and where the next plot starts.  A last point that is cut short is dropped. -/
def asciiPoints (data : Bytes) (cplx : Bool) (nvars : Nat) :
    Nat → List (List Value) → List (Nat × Bytes) → Except Error (List (List Value) × Option Nat)
  | _, points, [] => .ok (points, none)
  | 0, points, _ => .ok (points, none)
  | fuel + 1, points, (pos, tok) :: toks =>
    if isIndex tok then
      match pointValues U cplx points.length toks.length nvars toks with
      | .error e => .error e
      | .ok (vals, toks) =>
        if vals.length < nvars then .ok (points, none)
        else asciiPoints data cplx nvars fuel (points ++ [vals]) toks
    else if plotStart data pos then .ok (points, some pos)
    else .error (.rawError (.expectedIndex pos (tok.take 40)))

/-! ## Reading -/

/-- One plot as `read_all` returns it; `vars` are its `variables`. -/
structure Raw where
  title : Str := []
  date : Str := []
  plotname : Str := []
  flags : List Str := []
  vars : List (Str × Str) := []
  points : List (List Value) := []
  declaredPoints : Option Int := none
  binary : Bool := true
  header : List (Str × Str) := []

def Raw.complex (raw : Raw) : Bool := str "complex" ∈ raw.flags

/-- A parsed plot and where its parts are in the file. -/
structure Plot where
  raw : Raw := {}
  pointsField : Option (Nat × Nat × Bool) := none
  nvarsLineEnd : Option Nat := none
  dataStart : Nat := 0
  nextStart : Option Nat := none

/-- `header[key] = value` on an ordered `dict`. -/
def setHeader (header : List (Str × Str)) (key value : Str) : List (Str × Str) :=
  if key ∈ header.map Prod.fst then header.map fun e => if e.1 = key then (key, value) else e
  else header ++ [(key, value)]

/-- What the loop of `_parse_plot` does at a header line; the state is the plot so far and the last
    `No. Variables:`. -/
def parseLine (data : Bytes) (s : Plot × Option Int) (h : HeaderLine) : Except Error (Turn (Plot × Option Int)) := do
  let (plot, nvars) := s
  match h.key with
  | .title => return .next (h.eol + 1) ({ plot with raw.title := h.value }, nvars)
  | .date => return .next (h.eol + 1) ({ plot with raw.date := h.value }, nvars)
  | .plotname => return .next (h.eol + 1) ({ plot with raw.plotname := h.value }, nvars)
  | .flags =>
    let flags ← flagWords U h.value
    return .next (h.eol + 1) ({ plot with raw.flags := flags }, nvars)
  | .variableCount =>
    let n ← variableCount U h.value
    return .next (h.eol + 1) ({ plot with nvarsLineEnd := some (h.eol + 1) }, some n)
  | .pointCount =>
    return .next (h.eol + 1) ({ plot with pointsField := some (pointsField data h.start h.eol h.line),
                                          raw.declaredPoints := declaredPoints U h.value }, nvars)
  | .variableList =>
    match nvars with
    | none => .error (.rawError .variablesBeforeCount)
    | some n =>
      let (vs, pos) ← variableList U none data (h.eol + 1) n h.value
      return .next pos ({ plot with raw.vars := plot.raw.vars ++ vs }, nvars)
  | .data binary => return .marker binary (h.eol + 1)
  | .other key => return .next (h.eol + 1) ({ plot with raw.header := setHeader plot.raw.header key h.value }, nvars)

/-- `_binary` -/
def readBinary (data : Bytes) (plot : Plot) (nvars : Nat) : Plot :=
  let row := rowBytes nvars plot.raw.complex
  let (n, next) := binaryCount data plot.dataStart row (data.length - plot.dataStart) plot.raw.declaredPoints
  let rows := ((data.drop plot.dataStart).take (n.toNat * row)).toChunks row
  { plot with raw.points := rows.map (rowValues plot.raw.complex), nextStart := next }

/-- `_ascii` -/
def readAscii (data : Bytes) (plot : Plot) (nvars : Nat) : Except Error Plot := do
  let toks := tokens data plot.dataStart
  let (points, next) ← asciiPoints U data plot.raw.complex nvars toks.length [] toks
  return { plot with raw.points := points, nextStart := next }

/-- `_parse_plot` -/
def parsePlot (data : Bytes) (pos : Nat) : Except Error Plot := do
  let ((plot, nvars), marker, pos) ← headerLoop data (onHeaderLine U none data (parseLine U data))
    (data.length - pos) pos ({}, none)
  match marker with
  | none => .error (.rawError .noSection)
  | some binary =>
    match nvars with
    | none => .error (.rawError .countMismatch)
    | some n =>
      if n < 1 ∨ (plot.raw.vars.length : Int) ≠ n then .error (.rawError .countMismatch)
      else
        let plot := { plot with raw.binary := binary, dataStart := pos }
        if binary then return readBinary data plot n.toNat else readAscii U data plot n.toNat

/-- `_parse`: the plots from `pos` on.  Each of the `fuel` rounds goes on to a later plot. -/
def parsePlots (data : Bytes) : Nat → Nat → Except Error (List Plot)
  | 0, _ => .ok []
  | fuel + 1, pos => do
    let plot ← parsePlot U data pos
    match plot.nextStart with
    | none => return [plot]
    | some next => return plot :: (← parsePlots data fuel next)

/-- `read_all` of a file with these bytes. -/
def readAll (data : Bytes) : Except Error (List Raw) :=
  if data.all isBlank then .error (.rawError .empty)
  else (parsePlots U data (data.length + 1) 0).map (·.map Plot.raw)

/-! ## Scanning -/

/-- One plot as `scan` reads it. -/
structure RawPlot where
  declared : Option Int := none
  n : Int := 0
  first : Option Float := none
  last : Option Float := none
  timeScale : Bool := false
  pointsField : Option (Nat × Nat × Bool) := none
  nvarsLineEnd : Option Nat := none
  nextStart : Option Nat := none

/-- `_Layout` -/
structure Layout where
  dataStart : Nat
  nvars : Nat
  cplx : Bool
  binary : Bool

/-- What the loop of `_scan_header` keeps. -/
structure ScanState where
  plot : RawPlot := {}
  nvars : Option Int := none
  cplx : Bool := false
  listed : Bool := false

/-- Whether a list's first variable is the time. -/
def isTimeScale : List (Str × Str) → Bool
  | [] => false
  | (name, type) :: _ => U.lower name = str "time" || U.lower type = str "time"

/-- What the loop of `_scan_header` does at a header line. -/
def scanLine (data : Bytes) (s : ScanState) (h : HeaderLine) : Except Error (Turn ScanState) := do
  match h.key with
  | .flags =>
    let flags ← flagWords U h.value
    return .next (h.eol + 1) { s with cplx := str "complex" ∈ flags }
  | .variableCount =>
    let n ← variableCount U h.value
    return .next (h.eol + 1) { s with nvars := some n, plot.nvarsLineEnd := some (h.eol + 1) }
  | .pointCount =>
    return .next (h.eol + 1) { s with plot.pointsField := some (pointsField data h.start h.eol h.line),
                                      plot.declared := declaredPoints U h.value }
  | .variableList =>
    match s.nvars with
    | none => .error (.rawError .variablesBeforeCount)
    | some n =>
      let (vs, pos) ← variableList U (some maxHeaderLine) data (h.eol + 1) n h.value
      return .next pos { s with plot.timeScale := isTimeScale U vs, listed := true }
  | .data binary => return .marker binary (h.eol + 1)
  | .title | .date | .plotname | .other _ => return .next (h.eol + 1) s

/-- `_scan_header` -/
def scanHeader (data : Bytes) (pos : Nat) : Except Error (RawPlot × Layout) := do
  let (s, marker, pos) ← headerLoop data (onHeaderLine U (some maxHeaderLine) data (scanLine U data))
    (data.length - pos) pos {}
  match marker with
  | none => .error (.rawError .noSection)
  | some binary =>
    match s.nvars with
    | none => .error (.rawError .countMismatch)
    | some n =>
      if n < 1 ∨ s.listed = false then .error (.rawError .countMismatch)
      else return (s.plot, ⟨pos, n.toNat, s.cplx, binary⟩)

/-- `_scan_binary`: the times are the first double of the first and of the last row. -/
def scanBinary (data : Bytes) (lay : Layout) (plot : RawPlot) : RawPlot :=
  let row := rowBytes lay.nvars lay.cplx
  let (n, next) := binaryCount data lay.dataStart row ((data.length - lay.dataStart : Nat) : Int) plot.declared
  if n = 0 then { plot with nextStart := next, n := n }
  else
    let time (k : Nat) := some (double (slice data (lay.dataStart + k * row) (lay.dataStart + k * row + 8)))
    { plot with nextStart := next, n := n, first := time 0, last := time (n.toNat - 1) }

/-- `_count_points` -/
def countPoints (data : Bytes) (cplx : Bool) (nvars : Nat) :
    Nat → RawPlot → List (Nat × Bytes) → Except Error RawPlot
  | _, plot, [] => .ok plot
  | 0, plot, _ => .ok plot
  | fuel + 1, plot, (pos, tok) :: toks =>
    if isIndex tok then
      match pointValues U cplx plot.n.toNat toks.length nvars toks with
      | .error e => .error e
      | .ok (vals, toks) =>
        if vals.length < nvars then .ok plot
        else
          let t0 := vals.head?.map Value.realPart
          countPoints data cplx nvars fuel
            { plot with n := plot.n + 1, first := plot.first <|> t0, last := t0 } toks
    else if plotStart data pos then .ok { plot with nextStart := some pos }
    else .error (.rawError (.expectedIndex pos (tok.take 40)))

/-- `_scan_plot` -/
def scanPlot (data : Bytes) (pos : Nat) : Except Error RawPlot := do
  let (plot, lay) ← scanHeader U data pos
  if lay.binary then return scanBinary data lay plot
  else
    let toks := tokens data lay.dataStart
    countPoints U data lay.cplx lay.nvars toks.length plot toks

/-- The loop of `scan`.  Each of the `fuel` rounds goes on to a later plot. -/
def scanPlots (data : Bytes) : Nat → Nat → Except Error (List RawPlot)
  | 0, _ => .ok []
  | fuel + 1, pos => do
    let plot ← scanPlot U data pos
    match plot.nextStart with
    | none => return [plot]
    | some next => return plot :: (← scanPlots data fuel next)

/-- `scan` of a file with these bytes. -/
def scan (data : Bytes) : Except Error (List RawPlot) :=
  if data.all isBlank then .error (.rawError .empty) else scanPlots U data (data.length + 1) 0

end Vamos.Rawfile
