import Sv2ghdl.Lists.Lookup
import Sv2ghdl.Vamos.Netlist.Rawfile

/-!
# What a rawfile's bytes say

The layout of a rawfile apart from what a reader keeps of it: a plot's header is a list of entries, and `read_all` and
`scan` are two ways to go through that list.  Where they part is the number of variables: `read_all` compares what the
`Variables:` lists hold with the last `No. Variables:`, `scan` only asks for a list.
-/

open Python

namespace Vamos.Rawfile

variable (U : UnicodeData)

/-! ## The entries of a header -/

/-- What one line of a header says, a variable list with its lines taken as one. -/
inductive Entry where
  | title (value : Str)
  | date (value : Str)
  | plotname (value : Str)
  | flags (words : List Str)
  | count (n : Int) (lineEnd : Nat)
  | points (declared : Option Int) (field : Nat × Nat × Bool)
  | list (vars : List (Str × Str))
  | other (key value : Str)

/-- The number a `No. Variables:` line declares. -/
def Entry.count? : Entry → Option Int
  | .count n _ => some n
  | _ => none

/-- The variables a `Variables:` line lists. -/
def Entry.vars : Entry → List (Str × Str)
  | .list vars => vars
  | _ => []

def Entry.isList : Entry → Bool
  | .list _ => true
  | _ => false

/-- The number of variables the header declares last. -/
def lastCount (es : List Entry) : Option Int := (es.filterMap Entry.count?).getLast?

/-- The variables of all the header's lists. -/
def listedVars (es : List Entry) : List (Str × Str) := es.flatMap Entry.vars

/-- The header lists as many variables as it declares. -/
def CountsMatch (es : List Entry) : Prop := lastCount es = some ((listedVars es).length : Int)

instance : DecidablePred CountsMatch := fun _ => inferInstanceAs (Decidable (_ = _))

/-- The entry that a header line makes after the entries `es`. -/
def entryLine (limit : Option Nat) (data : Bytes) (es : List Entry) (h : HeaderLine) :
    Except Error (Turn (List Entry)) := do
  match h.key with
  | .title => return .next (h.eol + 1) (es ++ [.title h.value])
  | .date => return .next (h.eol + 1) (es ++ [.date h.value])
  | .plotname => return .next (h.eol + 1) (es ++ [.plotname h.value])
  | .flags =>
    let words ← flagWords U h.value
    return .next (h.eol + 1) (es ++ [.flags words])
  | .variableCount =>
    let n ← variableCount U h.value
    return .next (h.eol + 1) (es ++ [.count n (h.eol + 1)])
  | .pointCount =>
    return .next (h.eol + 1) (es ++ [.points (declaredPoints U h.value) (pointsField data h.start h.eol h.line)])
  | .variableList =>
    match lastCount es with
    | none => .error (.rawError .variablesBeforeCount)
    | some n =>
      let (vars, pos) ← variableList U limit data (h.eol + 1) n h.value
      return .next pos (es ++ [.list vars])
  | .data binary => return .marker binary (h.eol + 1)
  | .other key => return .next (h.eol + 1) (es ++ [.other key h.value])

/-- The entries of the header at `pos`, the marker that ends it and where its data starts. -/
def entries (limit : Option Nat) (data : Bytes) (pos : Nat) : Except Error (List Entry × Option Bool × Nat) :=
  headerLoop data (onHeaderLine U limit data (entryLine U limit data)) (data.length - pos) pos []

/-! ## The readers go through the entries -/

namespace Plot

/-- What `_parse_plot` makes of an entry. -/
def add (plot : Plot) : Entry → Plot
  | .title value => { plot with raw.title := value }
  | .date value => { plot with raw.date := value }
  | .plotname value => { plot with raw.plotname := value }
  | .flags words => { plot with raw.flags := words }
  | .count _ lineEnd => { plot with nvarsLineEnd := some lineEnd }
  | .points declared field => { plot with pointsField := some field, raw.declaredPoints := declared }
  | .list vars => { plot with raw.vars := plot.raw.vars ++ vars }
  | .other key value => { plot with raw.header := setHeader plot.raw.header key value }

/-- The plot of a header with these entries. -/
def ofEntries (es : List Entry) : Plot := es.foldl add {}

@[simp] theorem ofEntries_append (es : List Entry) (e : Entry) : ofEntries (es ++ [e]) = (ofEntries es).add e := by
  simp [ofEntries]

end Plot

namespace ScanState

/-- What `_scan_header` makes of an entry. -/
def add (s : ScanState) : Entry → ScanState
  | .flags words => { s with cplx := str "complex" ∈ words }
  | .count n lineEnd => { s with nvars := some n, plot.nvarsLineEnd := some lineEnd }
  | .points declared field => { s with plot.pointsField := some field, plot.declared := declared }
  | .list vars => { s with plot.timeScale := isTimeScale U vars, listed := true }
  | _ => s

def ofEntries (es : List Entry) : ScanState := es.foldl (add U) {}

@[simp] theorem ofEntries_append (es : List Entry) (e : Entry) :
    ofEntries U (es ++ [e]) = (ofEntries U es).add U e := by
  simp [ofEntries]

end ScanState

@[simp] theorem raw_vars_ofEntries (es : List Entry) : (Plot.ofEntries es).raw.vars = listedVars es := by
  induction es using List.reverseRecOn with
  | nil => rfl
  | append_singleton es e ih =>
    rw [Plot.ofEntries_append, listedVars, List.flatMap_append, ← listedVars, ← ih]
    cases e <;> simp [Plot.add, Entry.vars]

@[simp] theorem nvars_ofEntries (es : List Entry) : (ScanState.ofEntries U es).nvars = lastCount es := by
  induction es using List.reverseRecOn with
  | nil => rfl
  | append_singleton es e ih =>
    rw [ScanState.ofEntries_append, lastCount, List.filterMap_append, List.getLast?_append]
    cases e <;> simp [ScanState.add, Entry.count?, lastCount, ih]

@[simp] theorem listed_ofEntries (es : List Entry) : (ScanState.ofEntries U es).listed = es.any Entry.isList := by
  induction es using List.reverseRecOn with
  | nil => rfl
  | append_singleton es e ih =>
    rw [ScanState.ofEntries_append, List.any_append, ← ih]
    cases e <;> simp [ScanState.add, Entry.isList]

/-- The flags that count last are the same for both. -/
theorem cplx_ofEntries (es : List Entry) :
    (ScanState.ofEntries U es).cplx = (Plot.ofEntries es).raw.complex := by
  induction es using List.reverseRecOn with
  | nil => rfl
  | append_singleton es e ih =>
    rw [ScanState.ofEntries_append, Plot.ofEntries_append]
    cases e <;> first | exact ih | rfl

theorem declared_ofEntries (es : List Entry) :
    (ScanState.ofEntries U es).plot.declared = (Plot.ofEntries es).raw.declaredPoints := by
  induction es using List.reverseRecOn with
  | nil => rfl
  | append_singleton es e ih =>
    rw [ScanState.ofEntries_append, Plot.ofEntries_append]
    cases e <;> first | exact ih | rfl

/-! ## One loop seen through another -/

/-- A turn seen through `f`. -/
def Turn.map {σ τ : Type} (f : σ → τ) : Turn σ → Turn τ
  | .next pos s => .next pos (f s)
  | .marker binary pos => .marker binary pos

/-- When each turn commutes with `f`, so does the loop. -/
theorem headerLoop_map {σ τ : Type} (f : σ → τ) {data : Bytes} {turn : Nat → σ → Except Error (Turn σ)}
    {turn' : Nat → τ → Except Error (Turn τ)} (h : ∀ pos s, turn' pos (f s) = (turn pos s).map (Turn.map f))
    (fuel pos : Nat) (s : σ) :
    headerLoop data turn' fuel pos (f s) =
      (headerLoop data turn fuel pos s).map fun (s, marker, pos) => (f s, marker, pos) := by
  induction fuel generalizing pos s with
  | zero => rfl
  | succ fuel ih =>
    rw [headerLoop, headerLoop, h]
    split
    · cases turn pos s with
      | error e => rfl
      | ok t =>
        cases t with
        | next pos s => exact ih pos s
        | marker binary pos => rfl
    · rfl

/-- Two loops whose actions commute with `f` on every header line. -/
theorem onHeaderLine_map {σ τ : Type} (f : σ → τ) {limit : Option Nat} {data : Bytes}
    {act : σ → HeaderLine → Except Error (Turn σ)} {act' : τ → HeaderLine → Except Error (Turn τ)}
    (h : ∀ s l, act' (f s) l = (act s l).map (Turn.map f)) (pos : Nat) (s : σ) :
    onHeaderLine U limit data act' pos (f s) = (onHeaderLine U limit data act pos s).map (Turn.map f) := by
  unfold onHeaderLine
  cases lineAt limit data pos with
  | error e => rfl
  | ok line =>
    show (if Str.strip line.1 = [] then _ else _) = Except.map _ (if Str.strip line.1 = [] then _ else _)
    split
    · rfl
    · cases headerLine U line.1 with
      | none => rfl
      | some entry => exact h s _

/-- The state of `_parse_plot`'s loop after these entries. -/
def parseState (es : List Entry) : Plot × Option Int := (Plot.ofEntries es, lastCount es)

@[simp] theorem lastCount_append_singleton (es : List Entry) (e : Entry) :
    lastCount (es ++ [e]) = e.count?.or (lastCount es) := by
  cases h : e.count? <;> simp [lastCount, h]

/-- `_parse_plot` does with a header line what the line's entry says. -/
theorem parseLine_entries (data : Bytes) (es : List Entry) (h : HeaderLine) :
    parseLine U data (parseState es) h = (entryLine U none data es h).map (Turn.map parseState) := by
  obtain ⟨start, eol, line, key, value⟩ := h
  unfold parseLine entryLine
  cases key with
  | flags =>
    show (flagWords U value).bind _ = Except.map _ ((flagWords U value).bind _)
    cases flagWords U value with
    | error e => rfl
    | ok words => simp [parseState, Except.map, Except.bind, pure, Except.pure, Turn.map, Plot.add, Entry.count?]
  | variableCount =>
    show (variableCount U value).bind _ = Except.map _ ((variableCount U value).bind _)
    cases variableCount U value with
    | error e => rfl
    | ok n => simp [parseState, Except.map, Except.bind, pure, Except.pure, Turn.map, Plot.add, Entry.count?]
  | variableList =>
    show (match lastCount es with | none => _ | some n => _) =
      Except.map _ (match lastCount es with | none => _ | some n => _)
    cases hlast : lastCount es with
    | none => rfl
    | some n =>
      show (variableList U none data (eol + 1) n value).bind _ =
        Except.map _ ((variableList U none data (eol + 1) n value).bind _)
      cases variableList U none data (eol + 1) n value with
      | error e => rfl
      | ok r =>
        simp [parseState, Except.map, Except.bind, pure, Except.pure, Turn.map, Plot.add, Entry.count?, hlast]
  | _ => simp [parseState, Turn.map, Except.map, pure, Except.pure, Plot.add, Entry.count?]

/-- `_scan_header` does with a header line what the line's entry says. -/
theorem scanLine_entries (data : Bytes) (es : List Entry) (h : HeaderLine) :
    scanLine U data (ScanState.ofEntries U es) h =
      (entryLine U (some maxHeaderLine) data es h).map (Turn.map (ScanState.ofEntries U)) := by
  obtain ⟨start, eol, line, key, value⟩ := h
  unfold scanLine entryLine
  cases key with
  | flags =>
    show (flagWords U value).bind _ = Except.map _ ((flagWords U value).bind _)
    cases flagWords U value with
    | error e => rfl
    | ok words => simp [Except.map, Except.bind, pure, Except.pure, Turn.map, ScanState.add]
  | variableCount =>
    show (variableCount U value).bind _ = Except.map _ ((variableCount U value).bind _)
    cases variableCount U value with
    | error e => rfl
    | ok n => simp [Except.map, Except.bind, pure, Except.pure, Turn.map, ScanState.add]
  | variableList =>
    rw [nvars_ofEntries]
    show (match lastCount es with | none => _ | some n => _) =
      Except.map _ (match lastCount es with | none => _ | some n => _)
    cases hlast : lastCount es with
    | none => rfl
    | some n =>
      show (variableList U (some maxHeaderLine) data (eol + 1) n value).bind _ =
        Except.map _ ((variableList U (some maxHeaderLine) data (eol + 1) n value).bind _)
      cases variableList U (some maxHeaderLine) data (eol + 1) n value with
      | error e => rfl
      | ok r => simp [Except.map, Except.bind, pure, Except.pure, Turn.map, ScanState.add, hlast]
  | _ => simp [Turn.map, Except.map, pure, Except.pure, ScanState.add]

/-! ## The line limit -/

/-- The result is not the refusal of a long line. -/
def NotLong {α : Type} (r : Except Error α) : Prop := ∀ pos, r ≠ .error (.rawError (.longLine pos))

theorem lineAt_none {limit : Option Nat} {data : Bytes} {pos : Nat} (h : NotLong (lineAt limit data pos)) :
    lineAt limit data pos = lineAt none data pos := by
  by_cases hlong : ∃ m ∈ limit, m < lineEnd data pos - pos
  · exact absurd (if_pos hlong) (h pos)
  · have hnone : ¬ ∃ m ∈ (none : Option Nat), m < lineEnd data pos - pos := by simp
    simp only [lineAt, if_neg hlong, if_neg hnone]

theorem listLines_none {limit : Option Nat} {data : Bytes} (fuel need pos : Nat)
    (h : NotLong (listLines limit data fuel need pos)) :
    listLines limit data fuel need pos = listLines none data fuel need pos := by
  induction fuel generalizing need pos with
  | zero => cases need <;> rfl
  | succ fuel ih =>
    cases need with
    | zero => rfl
    | succ need =>
      rw [listLines] at h ⊢
      rw [listLines]
      split_ifs at h ⊢ with hfind
      · rfl
      · have hline : lineAt limit data pos = lineAt none data pos := by
          apply lineAt_none
          intro p hp
          rw [hp] at h
          exact h p rfl
        rw [hline] at h ⊢
        cases hl : lineAt none data pos with
        | error e => rfl
        | ok line =>
          rw [hl] at h
          simp only at h ⊢
          split_ifs at h ⊢ with hblank
          · exact ih _ _ h
          · have hrest := ih need (line.2 + 1) (by
              intro p hp
              rw [hp] at h
              exact h p rfl)
            rw [hrest]

theorem variableList_none {limit : Option Nat} {data : Bytes} {pos : Nat} {nvars : Int} {first : Str}
    (h : NotLong (variableList U limit data pos nvars first)) :
    variableList U limit data pos nvars first = variableList U none data pos nvars first := by
  unfold variableList at h ⊢
  dsimp only at h ⊢
  rw [listLines_none]
  intro p hp
  rw [hp] at h
  exact h p rfl

theorem entryLine_none {limit : Option Nat} {data : Bytes} {es : List Entry} {l : HeaderLine}
    (h : NotLong (entryLine U limit data es l)) : entryLine U limit data es l = entryLine U none data es l := by
  obtain ⟨start, eol, line, key, value⟩ := l
  unfold entryLine at h ⊢
  cases key with
  | variableList =>
    cases hlast : lastCount es with
    | none => rfl
    | some n =>
      simp only [hlast] at h ⊢
      rw [variableList_none]
      intro p hp
      rw [hp] at h
      exact h p rfl
  | _ => rfl

theorem onHeaderLine_none {limit : Option Nat} {data : Bytes} {pos : Nat} {es : List Entry}
    (h : NotLong (onHeaderLine U limit data (entryLine U limit data) pos es)) :
    onHeaderLine U limit data (entryLine U limit data) pos es =
      onHeaderLine U none data (entryLine U none data) pos es := by
  unfold onHeaderLine at h ⊢
  have hline : lineAt limit data pos = lineAt none data pos := by
    apply lineAt_none
    intro p hp
    rw [hp] at h
    exact h p rfl
  rw [hline] at h ⊢
  cases hl : lineAt none data pos with
  | error e => rfl
  | ok line =>
    rw [hl] at h
    simp only at h ⊢
    split_ifs at h ⊢ with hblank
    · rfl
    · cases hh : headerLine U line.1 with
      | none => rfl
      | some entry =>
        rw [hh] at h
        exact entryLine_none U h

/-- Where no line is too long, the limit makes no difference. -/
theorem entries_none {limit : Option Nat} {data : Bytes} {pos : Nat} (h : NotLong (entries U limit data pos)) :
    entries U limit data pos = entries U none data pos := by
  unfold entries at h ⊢
  generalize data.length - pos = fuel at h ⊢
  generalize ([] : List Entry) = es at h ⊢
  induction fuel generalizing pos es with
  | zero => rfl
  | succ fuel ih =>
    rw [headerLoop] at h ⊢
    rw [headerLoop]
    split_ifs at h ⊢ with hpos
    · have hturn : onHeaderLine U limit data (entryLine U limit data) pos es =
          onHeaderLine U none data (entryLine U none data) pos es := by
        apply onHeaderLine_none
        intro p hp
        rw [hp] at h
        exact h p rfl
      rw [hturn] at h ⊢
      cases ht : onHeaderLine U none data (entryLine U none data) pos es with
      | error e => rfl
      | ok t =>
        rw [ht] at h
        cases t with
        | next pos es => exact ih es h
        | marker binary pos => rfl
    · rfl

/-! ## Plots -/

/-- The header at `pos` as `scan` admits it: its entries and the layout of its data. -/
def header (data : Bytes) (pos : Nat) : Except Error (List Entry × Layout) :=
  match entries U (some maxHeaderLine) data pos with
  | .error e => .error e
  | .ok (_, none, _) => .error (.rawError .noSection)
  | .ok (es, some binary, dataStart) =>
    match lastCount es with
    | none => .error (.rawError .countMismatch)
    | some n =>
      if n < 1 ∨ es.any Entry.isList = false then .error (.rawError .countMismatch)
      else .ok (es, ⟨dataStart, n.toNat, (Plot.ofEntries es).raw.complex, binary⟩)

/-- Where the plot behind a data section starts, if there is one. -/
def sectionNext (data : Bytes) (lay : Layout) (declared : Option Int) : Except Error (Option Nat) :=
  if lay.binary then
    .ok (binaryCount data lay.dataStart (rowBytes lay.nvars lay.cplx)
      ((data.length - lay.dataStart : Nat) : Int) declared).2
  else
    let toks := tokens data lay.dataStart
    (asciiPoints U data lay.cplx lay.nvars toks.length [] toks).map Prod.snd

/-- The plot behind the header with these entries and this layout. -/
def nextPlot (data : Bytes) (h : List Entry × Layout) : Except Error (Option Nat) :=
  sectionNext U data h.2 (Plot.ofEntries h.1).raw.declaredPoints

/-- `Plots data pos ess`: from `pos` on the file is plots whose headers have the entries `ess`, with no fault in their
    layout, up to its end or to a variable's index that `int()` does not take. -/
inductive Plots (data : Bytes) : Nat → List (List Entry) → Prop
  | stuck {pos : Nat} : header U data pos = .error .valueError → Plots data pos []
  | last {pos : Nat} {h : List Entry × Layout} :
      header U data pos = .ok h → nextPlot U data h = .ok none → Plots data pos [h.1]
  | next {pos next : Nat} {h : List Entry × Layout} {ess : List (List Entry)} :
      header U data pos = .ok h → nextPlot U data h = .ok (some next) → Plots data next ess →
      Plots data pos (h.1 :: ess)

theorem parseLoop_entries (data : Bytes) (pos : Nat) :
    headerLoop data (onHeaderLine U none data (parseLine U data)) (data.length - pos) pos ({}, none) =
      (entries U none data pos).map fun (es, marker, pos) => (parseState es, marker, pos) :=
  headerLoop_map parseState (onHeaderLine_map U parseState (parseLine_entries U data)) _ pos []

theorem scanLoop_entries (data : Bytes) (pos : Nat) :
    headerLoop data (onHeaderLine U (some maxHeaderLine) data (scanLine U data)) (data.length - pos) pos {} =
      (entries U (some maxHeaderLine) data pos).map fun (es, marker, pos) =>
        (ScanState.ofEntries U es, marker, pos) :=
  headerLoop_map (ScanState.ofEntries U) (onHeaderLine_map U (ScanState.ofEntries U) (scanLine_entries U data)) _ pos []

/-- `_scan_header` finds the layout and what the entries say. -/
theorem scanHeader_eq (data : Bytes) (pos : Nat) :
    scanHeader U data pos = (header U data pos).map fun h => ((ScanState.ofEntries U h.1).plot, h.2) := by
  unfold scanHeader header
  rw [scanLoop_entries]
  cases entries U (some maxHeaderLine) data pos with
  | error e => rfl
  | ok r =>
    obtain ⟨es, marker, dataStart⟩ := r
    cases marker with
    | none => rfl
    | some binary =>
      show (match (ScanState.ofEntries U es).nvars with | none => _ | some n => _) = _
      rw [nvars_ofEntries]
      cases hlast : lastCount es with
      | none => simp [hlast, Except.map]
      | some n =>
        simp only [hlast, listed_ofEntries, cplx_ofEntries]
        split_ifs <;> rfl

/-- `scan` counts an ASCII section's points as `read_all` collects them. -/
theorem countPoints_nextStart (data : Bytes) (cplx : Bool) (nvars fuel : Nat) (plot : RawPlot)
    (points : List (List Value)) (toks : List (Nat × Bytes)) (hn : plot.n = points.length)
    (hnext : plot.nextStart = none) :
    (countPoints U data cplx nvars fuel plot toks).map RawPlot.nextStart =
      (asciiPoints U data cplx nvars fuel points toks).map Prod.snd := by
  induction fuel generalizing plot points toks with
  | zero => cases toks <;> simp [countPoints, asciiPoints, Except.map, hnext]
  | succ fuel ih =>
    cases toks with
    | nil => simp [countPoints, asciiPoints, Except.map, hnext]
    | cons t toks =>
      obtain ⟨pos, tok⟩ := t
      have hpoint : plot.n.toNat = points.length := by omega
      rw [countPoints, asciiPoints, hpoint]
      split_ifs with hindex hstart
      · cases pointValues U cplx points.length toks.length nvars toks with
        | error e => rfl
        | ok r =>
          obtain ⟨vals, rest⟩ := r
          simp only
          split_ifs
          · simp [Except.map, hnext]
          · apply ih
            · simp [hn]
            · exact hnext
      · rfl
      · rfl

/-- A header at the very end of the file leaves no byte to either reader. -/
theorem binaryCount_next (data : Bytes) (dataStart row : Nat) (declared : Option Int) :
    (binaryCount data dataStart row ((data.length : Int) - dataStart) declared).2 =
      (binaryCount data dataStart row ((data.length - dataStart : Nat) : Int) declared).2 := by
  by_cases hstart : dataStart ≤ data.length
  · rw [Nat.cast_sub hstart]
  · have hshort : data.length - dataStart = 0 := by omega
    rw [hshort]
    cases declared with
    | none => rfl
    | some n =>
      have hnone (hn : 0 ≤ n) : ¬ n * row ≤ (data.length : Int) - dataStart := by
        have : 0 ≤ n * row := Int.mul_nonneg hn (Int.natCast_nonneg row)
        omega
      have hend : data.drop (dataStart + n.toNat * row) = [] := List.drop_eq_nil_of_le (by omega)
      simp only [binaryCount, hend, List.all_nil, if_true]
      split_ifs with h h'
      · exact absurd h.2 (hnone h.1)
      · exact absurd h.2 (hnone h.1)
      · rfl
      · rfl

theorem nextStart_ofEntries (es : List Entry) : (ScanState.ofEntries U es).plot.nextStart = none := by
  induction es using List.reverseRecOn with
  | nil => rfl
  | append_singleton es e ih =>
    rw [ScanState.ofEntries_append]
    cases e <;> exact ih

theorem n_ofEntries (es : List Entry) : (ScanState.ofEntries U es).plot.n = 0 := by
  induction es using List.reverseRecOn with
  | nil => rfl
  | append_singleton es e ih =>
    rw [ScanState.ofEntries_append]
    cases e <;> exact ih

/-- Where `scan` goes on after the plot at `pos`. -/
theorem scanPlot_nextStart (data : Bytes) (pos : Nat) :
    (scanPlot U data pos).map RawPlot.nextStart = (header U data pos).bind (nextPlot U data) := by
  unfold scanPlot
  show Except.map _ ((scanHeader U data pos).bind _) = _
  rw [scanHeader_eq]
  cases header U data pos with
  | error e => rfl
  | ok h =>
    obtain ⟨es, lay⟩ := h
    show Except.map _ (if lay.binary then _ else _) = nextPlot U data (es, lay)
    unfold nextPlot sectionNext
    split_ifs with hb
    · show Except.map RawPlot.nextStart (.ok (scanBinary data lay (ScanState.ofEntries U es).plot)) = _
      unfold scanBinary
      dsimp only
      rw [declared_ofEntries]
      split_ifs <;> rfl
    · exact countPoints_nextStart U data lay.cplx lay.nvars _ _ [] _ (n_ofEntries U es) (nextStart_ofEntries U es)

/-- What a header that `scan` admits consists of. -/
theorem header_ok {data : Bytes} {pos : Nat} {h : List Entry × Layout} (hh : header U data pos = .ok h) :
    ∃ n : Int, entries U (some maxHeaderLine) data pos = .ok (h.1, some h.2.binary, h.2.dataStart) ∧
      lastCount h.1 = some n ∧ 1 ≤ n ∧ h.2.nvars = n.toNat ∧ h.2.cplx = (Plot.ofEntries h.1).raw.complex := by
  unfold header at hh
  split at hh
  · cases hh
  · cases hh
  · next es binary dataStart hes =>
    split at hh
    · cases hh
    · next n hlast =>
      split_ifs at hh with hn
      obtain rfl := Except.ok.inj hh
      exact ⟨n, hes, hlast, by omega, rfl, rfl⟩

/-- The same lines without the limit. -/
theorem entries_none_of_header {data : Bytes} {pos : Nat} {h : List Entry × Layout} (hh : header U data pos = .ok h) :
    entries U none data pos = .ok (h.1, some h.2.binary, h.2.dataStart) := by
  obtain ⟨n, hes, -⟩ := header_ok U hh
  rw [← @entries_none U (some maxHeaderLine)]
  · exact hes
  · rw [hes]
    intro p hp
    cases hp

theorem readAscii_nextStart (data : Bytes) (plot : Plot) (nvars : Nat) :
    (readAscii U data plot nvars).map Plot.nextStart =
      (asciiPoints U data plot.raw.complex nvars (tokens data plot.dataStart).length []
        (tokens data plot.dataStart)).map Prod.snd := by
  unfold readAscii
  dsimp only
  cases asciiPoints U data plot.raw.complex nvars (tokens data plot.dataStart).length [] (tokens data plot.dataStart)
  <;> rfl

/-- `_parse_plot` refuses a count that does not match, else it goes on where `scan` does. -/
theorem parsePlot_nextStart {data : Bytes} {pos : Nat} {h : List Entry × Layout} (hh : header U data pos = .ok h) :
    (parsePlot U data pos).map Plot.nextStart =
      if CountsMatch h.1 then nextPlot U data h else .error (.rawError .countMismatch) := by
  obtain ⟨n, -, hlast, hn, hnvars, hcplx⟩ := header_ok U hh
  unfold parsePlot
  rw [parseLoop_entries, entries_none_of_header U hh]
  show Except.map _ (match lastCount h.1 with | none => _ | some n => _) = _
  rw [hlast]
  dsimp only [parseState]
  rw [raw_vars_ofEntries]
  have hmatch : CountsMatch h.1 ↔ ((listedVars h.1).length : Int) = n := by
    rw [CountsMatch, hlast, Option.some.injEq, eq_comm]
  by_cases hcount : ((listedVars h.1).length : Int) = n
  · rw [if_neg (by omega), if_pos (hmatch.mpr hcount)]
    unfold nextPlot sectionNext
    rw [hnvars, hcplx]
    by_cases hb : h.2.binary = true
    · rw [if_pos hb, if_pos hb]
      show Except.ok _ = _
      rw [← binaryCount_next]
      rfl
    · rw [if_neg hb, if_neg hb]
      show Except.map _ (readAscii U data _ _) = _
      exact readAscii_nextStart U data _ _
  · rw [if_pos (by omega), if_neg (hcount ∘ hmatch.mp)]
    rfl

/-- Both stop at a variable's index that `int()` does not take. -/
theorem parsePlot_stuck {data : Bytes} {pos : Nat} (hh : header U data pos = .error .valueError) :
    parsePlot U data pos = .error .valueError := by
  have hes : entries U (some maxHeaderLine) data pos = .error .valueError := by
    unfold header at hh
    split at hh
    · next e he => rw [he, Except.error.inj hh]
    · cases hh
    · split at hh
      · cases hh
      · split_ifs at hh
        cases hh
  have hnone : entries U none data pos = .error .valueError := by
    rw [← @entries_none U (some maxHeaderLine), hes]
    rw [hes]
    intro p hp
    cases hp
  unfold parsePlot
  rw [parseLoop_entries, hnone]
  rfl

/-! ## Each plot starts behind the one before it -/

theorem le_of_findLineFeed {data : Bytes} {pos i : Nat} (h : findLineFeed data pos = some i) : pos ≤ i := by
  obtain ⟨k, -, rfl⟩ := Option.map_eq_some_iff.mp h
  exact Nat.le_add_right pos k

theorem le_lineEnd {data : Bytes} {pos : Nat} (h : pos ≤ data.length) : pos ≤ lineEnd data pos := by
  unfold lineEnd
  cases hf : findLineFeed data pos with
  | none => exact h
  | some i => exact le_of_findLineFeed hf

theorem lineAt_ok {limit : Option Nat} {data : Bytes} {pos : Nat} {line : Str × Nat}
    (h : lineAt limit data pos = .ok line) : line.2 = lineEnd data pos := by
  unfold lineAt at h
  dsimp only at h
  split_ifs at h
  rw [← Except.ok.inj h]

theorem le_of_listLines {limit : Option Nat} {data : Bytes} {fuel need pos : Nat} {r : List Str × Nat}
    (h : listLines limit data fuel need pos = .ok r) : pos ≤ r.2 := by
  induction fuel generalizing need pos r with
  | zero =>
    cases need with
    | zero => rw [← Except.ok.inj h]
    | succ need => cases h
  | succ fuel ih =>
    cases need with
    | zero => rw [← Except.ok.inj h]
    | succ need =>
      rw [listLines] at h
      split_ifs at h with hfind
      obtain ⟨i, hi⟩ := Option.ne_none_iff_exists'.mp hfind
      cases hl : lineAt limit data pos with
      | error e =>
        rw [hl] at h
        cases h
      | ok line =>
        have heol : pos ≤ line.2 := by
          rw [lineAt_ok hl, lineEnd, hi]
          exact le_of_findLineFeed hi
        rw [hl] at h
        dsimp only at h
        split_ifs at h
        · have := ih h
          omega
        · cases hrest : listLines limit data fuel need (line.2 + 1) with
          | error e =>
            rw [hrest] at h
            cases h
          | ok rest =>
            rw [hrest] at h
            rw [← Except.ok.inj h]
            have := ih hrest
            show pos ≤ rest.2
            omega

theorem le_of_variableList {limit : Option Nat} {data : Bytes} {pos : Nat} {nvars : Int} {first : Str}
    {r : List (Str × Str) × Nat} (h : variableList U limit data pos nvars first = .ok r) : pos ≤ r.2 := by
  unfold variableList at h
  dsimp only at h
  split at h
  · cases h
  · next hl =>
    have := le_of_listLines hl
    split at h
    · cases h
    · rw [← Except.ok.inj h]
      exact this

/-- Where a turn leaves the loop or goes on. -/
def Turn.pos {σ : Type} : Turn σ → Nat
  | .next pos _ => pos
  | .marker _ pos => pos

theorem entryLine_pos {limit : Option Nat} {data : Bytes} {es : List Entry} {l : HeaderLine} {t : Turn (List Entry)}
    (h : entryLine U limit data es l = .ok t) : l.eol < t.pos := by
  obtain ⟨start, eol, line, key, value⟩ := l
  unfold entryLine at h
  cases key with
  | flags =>
    obtain ⟨words, -, ht⟩ := Lookup.bind_eq_ok.mp h
    rw [← Except.ok.inj ht]
    exact Nat.lt_succ_self eol
  | variableCount =>
    obtain ⟨n, -, ht⟩ := Lookup.bind_eq_ok.mp h
    rw [← Except.ok.inj ht]
    exact Nat.lt_succ_self eol
  | variableList =>
    dsimp only at h
    split at h
    · cases h
    · obtain ⟨r, hr, ht⟩ := Lookup.bind_eq_ok.mp h
      rw [← Except.ok.inj ht]
      exact le_of_variableList U hr
  | _ =>
    rw [← Except.ok.inj h]
    exact Nat.lt_succ_self eol

theorem onHeaderLine_pos {limit : Option Nat} {data : Bytes} {pos : Nat} {es : List Entry} {t : Turn (List Entry)}
    (hpos : pos ≤ data.length) (h : onHeaderLine U limit data (entryLine U limit data) pos es = .ok t) :
    pos < t.pos := by
  unfold onHeaderLine at h
  cases hl : lineAt limit data pos with
  | error e =>
    rw [hl] at h
    cases h
  | ok line =>
    have heol : pos ≤ line.2 := by
      rw [lineAt_ok hl]
      exact le_lineEnd hpos
    rw [hl] at h
    dsimp only at h
    split_ifs at h
    · rw [← Except.ok.inj h]
      exact Nat.lt_succ_of_le heol
    · split at h
      · cases h
      · exact Nat.lt_of_le_of_lt heol (entryLine_pos U h)

/-- The data of a plot starts behind its header. -/
theorem lt_of_entries {limit : Option Nat} {data : Bytes} {pos dataStart : Nat} {binary : Bool} {es : List Entry}
    (h : entries U limit data pos = .ok (es, some binary, dataStart)) : pos < dataStart := by
  unfold entries at h
  generalize data.length - pos = fuel at h
  generalize ([] : List Entry) = start at h
  induction fuel generalizing pos start with
  | zero => cases h
  | succ fuel ih =>
    rw [headerLoop] at h
    by_cases hpos : pos < data.length
    · rw [if_pos hpos] at h
      split at h
      · cases h
      · next ht =>
        cases h
        exact onHeaderLine_pos U (Nat.le_of_lt hpos) ht
      · next ht => exact Nat.lt_trans (onHeaderLine_pos U (Nat.le_of_lt hpos) ht) (ih _ h)
    · rw [if_neg hpos] at h
      cases h

/-- A token lies where it was looked for. -/
theorem tokensFrom_pos {pos : Nat} {bs : Bytes} : ∀ t ∈ tokensFrom pos bs, pos ≤ t.1 ∧ t.1 < pos + bs.length := by
  induction bs generalizing pos with
  | nil => simp [tokensFrom]
  | cons b rest ih =>
    have hlater : ∀ t ∈ tokensFrom (pos + 1) rest, pos ≤ t.1 ∧ t.1 < pos + (b :: rest).length := by
      intro t ht
      have := ih t ht
      rw [List.length_cons]
      omega
    have hhere : pos ≤ pos ∧ pos < pos + (b :: rest).length := by
      rw [List.length_cons]
      omega
    intro t ht
    rw [tokensFrom.eq_def] at ht
    dsimp only at ht
    split_ifs at ht with hb
    · exact hlater t ht
    · cases rest with
      | nil =>
        rw [List.mem_singleton.mp ht]
        exact hhere
      | cons c rest =>
        dsimp only at ht
        split_ifs at ht with hc
        · rcases List.mem_cons.mp ht with rfl | ht
          · exact hhere
          · exact hlater t ht
        · cases htoks : tokensFrom (pos + 1) (c :: rest) with
          | nil =>
            rw [htoks] at ht
            rw [List.mem_singleton.mp ht]
            exact hhere
          | cons first toks =>
            rw [htoks] at ht
            rcases List.mem_cons.mp ht with rfl | ht
            · exact hhere
            · exact hlater t (by rw [htoks]; exact List.mem_cons_of_mem _ ht)

theorem joinedValue_suffix (s : Str) (toks : List (Nat × Bytes)) : (joinedValue s toks).2 <:+ toks := by
  induction toks generalizing s with
  | nil => exact List.suffix_rfl
  | cons t toks ih =>
    obtain ⟨pos, tok⟩ := t
    rw [joinedValue]
    split_ifs
    · exact (ih _).trans (List.suffix_cons _ _)
    · exact List.suffix_rfl

theorem pointValues_suffix {cplx : Bool} {point need fuel : Nat} {toks : List (Nat × Bytes)}
    {r : List Value × List (Nat × Bytes)} (h : pointValues U cplx point fuel need toks = .ok r) : r.2 <:+ toks := by
  induction fuel generalizing need toks r with
  | zero =>
    rw [pointValues] at h
    rw [← Except.ok.inj h]
  | succ fuel ih =>
    cases toks with
    | nil =>
      rw [pointValues] at h
      · rw [← Except.ok.inj h]
      · simp
    | cons t toks =>
      cases need with
      | zero =>
        rw [pointValues] at h
        · rw [← Except.ok.inj h]
        · simp
        · simp
      | succ need =>
        obtain ⟨pos, tok⟩ := t
        rw [pointValues] at h
        have hjoined := joinedValue_suffix (tok.map Names.chr) toks
        dsimp only at h
        split at h
        · cases h
        · split at h
          · cases h
          · next hrest =>
            rw [← Except.ok.inj h]
            exact (ih hrest).trans (hjoined.trans (List.suffix_cons _ _))

theorem mem_of_asciiPoints {data : Bytes} {cplx : Bool} {nvars fuel next : Nat} {points points' : List (List Value)}
    {toks : List (Nat × Bytes)} (h : asciiPoints U data cplx nvars fuel points toks = .ok (points', some next)) :
    ∃ t ∈ toks, t.1 = next := by
  induction fuel generalizing points toks with
  | zero => cases toks <;> cases h
  | succ fuel ih =>
    cases toks with
    | nil => cases h
    | cons t toks =>
      obtain ⟨pos, tok⟩ := t
      rw [asciiPoints] at h
      split_ifs at h with hindex hstart
      · split at h
        · cases h
        · next vals rest hvals =>
          split_ifs at h
          · cases h
          obtain ⟨t, ht, hpos⟩ := ih h
          exact ⟨t, List.mem_cons_of_mem _ ((pointValues_suffix U hvals).subset ht), hpos⟩
      · cases h
        exact ⟨_, List.mem_cons_self, rfl⟩

/-- The next plot starts inside the file, behind the header of this one. -/
theorem nextPlot_pos {data : Bytes} {pos next : Nat} {h : List Entry × Layout} (hh : header U data pos = .ok h)
    (hnext : nextPlot U data h = .ok (some next)) : pos < next ∧ next < data.length := by
  obtain ⟨n, hes, -⟩ := header_ok U hh
  have hstart : pos < h.2.dataStart := lt_of_entries U hes
  suffices h.2.dataStart ≤ next ∧ next < data.length by omega
  unfold nextPlot sectionNext at hnext
  split_ifs at hnext with hb
  · have hcount := Except.ok.inj hnext
    unfold binaryCount at hcount
    cases hdecl : (Plot.ofEntries h.1).raw.declaredPoints with
    | none =>
      rw [hdecl] at hcount
      cases hcount
    | some n =>
      rw [hdecl] at hcount
      dsimp only at hcount
      split_ifs at hcount with hn hblank hplot
      obtain rfl := Option.some.inj hcount
      refine ⟨Nat.le_add_right _ _, Nat.lt_of_not_le fun hle => hblank ?_⟩
      rw [List.drop_eq_nil_of_le hle]
      rfl
  · dsimp only at hnext
    cases hpts : asciiPoints U data h.2.cplx h.2.nvars (tokens data h.2.dataStart).length []
        (tokens data h.2.dataStart) with
    | error e =>
      rw [hpts] at hnext
      cases hnext
    | ok r =>
      rw [hpts] at hnext
      obtain ⟨points, r⟩ := r
      obtain rfl := Except.ok.inj hnext
      obtain ⟨t, ht, rfl⟩ := mem_of_asciiPoints U hpts
      have := tokensFrom_pos t ht
      rw [List.length_drop] at this
      omega

/-! ## What `scan` refuses -/

/-- A data section is refused with a `RawError` only. -/
theorem pointValues_error {cplx : Bool} {point need fuel : Nat} {toks : List (Nat × Bytes)} {e : Error}
    (h : pointValues U cplx point fuel need toks = .error e) : ∃ reason, e = .rawError reason := by
  induction fuel generalizing need toks with
  | zero => cases h
  | succ fuel ih =>
    cases toks with
    | nil => cases h
    | cons t toks =>
      cases need with
      | zero => cases h
      | succ need =>
        rw [pointValues] at h
        dsimp only at h
        split at h
        · exact ⟨_, (Except.error.inj h).symm⟩
        · split at h
          · next hrest => exact ih (hrest.trans h)
          · cases h

theorem asciiPoints_error {data : Bytes} {cplx : Bool} {nvars fuel : Nat} {points : List (List Value)}
    {toks : List (Nat × Bytes)} {e : Error} (h : asciiPoints U data cplx nvars fuel points toks = .error e) :
    ∃ reason, e = .rawError reason := by
  induction fuel generalizing points toks with
  | zero => cases toks <;> cases h
  | succ fuel ih =>
    cases toks with
    | nil => cases h
    | cons t toks =>
      obtain ⟨pos, tok⟩ := t
      rw [asciiPoints] at h
      split_ifs at h with hindex hstart
      · split at h
        · next hvals =>
          obtain rfl := Except.error.inj h
          exact pointValues_error U hvals
        · split_ifs at h
          exact ih h
      · exact ⟨_, (Except.error.inj h).symm⟩

theorem nextPlot_error {data : Bytes} {h : List Entry × Layout} {e : Error} (hnext : nextPlot U data h = .error e) :
    ∃ reason, e = .rawError reason := by
  unfold nextPlot sectionNext at hnext
  split_ifs at hnext with hb
  dsimp only at hnext
  cases hpts : asciiPoints U data h.2.cplx h.2.nvars (tokens data h.2.dataStart).length []
      (tokens data h.2.dataStart) with
  | error e' =>
    rw [hpts] at hnext
    rw [← Except.error.inj hnext]
    exact asciiPoints_error U hpts
  | ok r =>
    rw [hpts] at hnext
    cases hnext

/-- Whether a reader that goes on at `next` raises a `RawError`, given whether it does from each position on. -/
def refusedFrom (rest : Nat → Bool) (next : Except Error (Option Nat)) : Bool :=
  match next with
  | .ok (some next) => rest next
  | .ok none => false
  | .error e => raisesRawError (.error e : Except Error Unit)

/-- One round of `scan`. -/
theorem scanPlots_succ (data : Bytes) (fuel pos : Nat) :
    raisesRawError (scanPlots U data (fuel + 1) pos) =
      refusedFrom (fun next => raisesRawError (scanPlots U data fuel next))
        ((header U data pos).bind (nextPlot U data)) := by
  rw [← scanPlot_nextStart, scanPlots]
  cases scanPlot U data pos with
  | error e => cases e <;> rfl
  | ok plot =>
    cases hnext : plot.nextStart with
    | none =>
      dsimp only [Except.bind, bind, Except.map]
      rw [hnext]
      rfl
    | some next =>
      dsimp only [Except.bind, bind, Except.map]
      rw [hnext]
      show raisesRawError ((scanPlots U data fuel next).bind _) = raisesRawError (scanPlots U data fuel next)
      cases scanPlots U data fuel next with
      | error e => cases e <;> rfl
      | ok plots => rfl

/-- One round of `read_all` at a header that `scan` admits. -/
theorem parsePlots_succ {data : Bytes} {pos : Nat} {h : List Entry × Layout} (hh : header U data pos = .ok h)
    (fuel : Nat) : raisesRawError (parsePlots U data (fuel + 1) pos) =
      refusedFrom (fun next => raisesRawError (parsePlots U data fuel next))
        (if CountsMatch h.1 then nextPlot U data h else .error (.rawError .countMismatch)) := by
  rw [← parsePlot_nextStart U hh, parsePlots]
  cases parsePlot U data pos with
  | error e => cases e <;> rfl
  | ok plot =>
    cases hnext : plot.nextStart with
    | none =>
      dsimp only [Except.bind, bind, Except.map]
      rw [hnext]
      rfl
    | some next =>
      dsimp only [Except.bind, bind, Except.map]
      rw [hnext]
      show raisesRawError ((parsePlots U data fuel next).bind _) = raisesRawError (parsePlots U data fuel next)
      cases parsePlots U data fuel next with
      | error e => cases e <;> rfl
      | ok plots => rfl

/-- `scan` goes through what is laid out as plots, and through nothing else. -/
theorem scanPlots_iff {data : Bytes} {fuel pos : Nat} (hpos : pos ≤ data.length) (hfuel : data.length < pos + fuel) :
    raisesRawError (scanPlots U data fuel pos) = false ↔ ∃ ess, Plots U data pos ess := by
  induction fuel generalizing pos with
  | zero => omega
  | succ fuel ih =>
    rw [scanPlots_succ]
    cases hh : header U data pos with
    | error e =>
      show raisesRawError (.error e : Except Error Unit) = false ↔ _
      constructor
      · intro he
        cases e with
        | rawError reason => cases he
        | valueError => exact ⟨[], .stuck hh⟩
      · rintro ⟨ess, hess⟩
        cases hess with
        | stuck h =>
          rw [Except.error.inj (hh.symm.trans h)]
          rfl
        | last h => cases hh.symm.trans h
        | next h => cases hh.symm.trans h
    | ok h =>
      show refusedFrom _ (nextPlot U data h) = false ↔ _
      cases hnext : nextPlot U data h with
      | error e =>
        obtain ⟨reason, rfl⟩ := nextPlot_error U hnext
        constructor
        · intro he
          cases he
        · rintro ⟨ess, hess⟩
          cases hess with
          | stuck h => cases hh.symm.trans h
          | last h' hn =>
            obtain rfl := Except.ok.inj (hh.symm.trans h')
            cases hnext.symm.trans hn
          | next h' hn =>
            obtain rfl := Except.ok.inj (hh.symm.trans h')
            cases hnext.symm.trans hn
      | ok next =>
        cases next with
        | none => exact ⟨fun _ => ⟨_, .last hh hnext⟩, fun _ => rfl⟩
        | some next =>
          obtain ⟨hlt, hlen⟩ := nextPlot_pos U hh hnext
          show raisesRawError (scanPlots U data fuel next) = false ↔ _
          rw [ih (Nat.le_of_lt hlen) (by omega)]
          constructor
          · rintro ⟨ess, hess⟩
            exact ⟨_, .next hh hnext hess⟩
          · rintro ⟨ess, hess⟩
            cases hess with
            | stuck h => cases hh.symm.trans h
            | last h' hn =>
              obtain rfl := Except.ok.inj (hh.symm.trans h')
              cases hnext.symm.trans hn
            | next h' hn hess =>
              obtain rfl := Except.ok.inj (hh.symm.trans h')
              obtain rfl := Option.some.inj (Except.ok.inj (hnext.symm.trans hn))
              exact ⟨_, hess⟩

/-- Of a file that `scan` goes through, `read_all` refuses a plot whose count does not match. -/
theorem parsePlots_iff {data : Bytes} {pos : Nat} {ess : List (List Entry)} (hess : Plots U data pos ess)
    {fuel : Nat} (hpos : pos ≤ data.length) (hfuel : data.length < pos + fuel) :
    raisesRawError (parsePlots U data fuel pos) = true ↔ ∃ es ∈ ess, ¬ CountsMatch es := by
  induction hess generalizing fuel with
  | stuck hh =>
    obtain ⟨fuel, rfl⟩ := Nat.exists_eq_succ_of_ne_zero (n := fuel) (by omega)
    rw [parsePlots, parsePlot_stuck U hh]
    simp [raisesRawError, bind, Except.bind]
  | @last pos h hh hnext =>
    obtain ⟨fuel, rfl⟩ := Nat.exists_eq_succ_of_ne_zero (n := fuel) (by omega)
    rw [parsePlots_succ U hh, hnext]
    by_cases hmatch : CountsMatch h.1 <;> simp [hmatch, refusedFrom, raisesRawError]
  | @next pos next h ess hh hnext hess ih =>
    obtain ⟨fuel, rfl⟩ := Nat.exists_eq_succ_of_ne_zero (n := fuel) (by omega)
    obtain ⟨hlt, hlen⟩ := nextPlot_pos U hh hnext
    rw [parsePlots_succ U hh, hnext]
    by_cases hmatch : CountsMatch h.1
    · rw [if_pos hmatch]
      show raisesRawError (parsePlots U data fuel next) = true ↔ _
      rw [ih (Nat.le_of_lt hlen) (by omega)]
      simp [hmatch]
    · simp [hmatch, refusedFrom, raisesRawError]

/-- The plots of a file that is not blank, as `Plots` goes through them. -/
def Laid (data : Bytes) (ess : List (List Entry)) : Prop := data.all isBlank = false ∧ Plots U data 0 ess

/-- `scan` refuses what `read_all` refuses exactly where no fault but a wrong number of listed variables is what
    `read_all` refuses: every plot of a file without another fault lists as many variables as its last
    `No. Variables:` says. -/
theorem scan_refuses_iff (data : Bytes) :
    (raisesRawError (readAll U data) = true → raisesRawError (scan U data) = true) ↔
      ∀ ess, Laid U data ess → ∀ es ∈ ess, CountsMatch es := by
  unfold readAll scan
  cases hblank : data.all isBlank with
  | true =>
    refine ⟨fun _ ess hess => ?_, fun _ _ => rfl⟩
    exact absurd hess.1 (by simp [hblank])
  | false =>
    have hread : raisesRawError ((parsePlots U data (data.length + 1) 0).map (·.map Plot.raw)) =
        raisesRawError (parsePlots U data (data.length + 1) 0) := by
      cases parsePlots U data (data.length + 1) 0 with
      | error e => cases e <;> rfl
      | ok plots => rfl
    have hscan := @scanPlots_iff U data (data.length + 1) 0 (Nat.zero_le _) (by omega)
    simp only [Bool.false_eq_true, if_false, hread]
    constructor
    · intro h ess hess
      have hparse := @parsePlots_iff U _ _ _ hess.2 (data.length + 1) (Nat.zero_le _) (by omega)
      by_contra hno
      have hraise : raisesRawError (parsePlots U data (data.length + 1) 0) = true := hparse.mpr (by simpa using hno)
      rw [hscan.mpr ⟨ess, hess.2⟩] at h
      exact absurd (h hraise) (by decide)
    · intro h hraise
      by_contra hno
      obtain ⟨ess, hess⟩ := hscan.mp (by simpa using hno)
      have hparse := @parsePlots_iff U _ _ _ hess (data.length + 1) (Nat.zero_le _) (by omega)
      obtain ⟨es, hmem, hes⟩ := hparse.mp hraise
      exact hes (h ess ⟨hblank, hess⟩ es hmem)

/-- `No. Variables:1`, `Variables:0 a`, `No. Variables:2`, `Binary:` -/
def twoCounts : Bytes :=
  [78, 111, 46, 32, 86, 97, 114, 105, 97, 98, 108, 101, 115, 58, 49, 10,
    86, 97, 114, 105, 97, 98, 108, 101, 115, 58, 48, 32, 97, 10,
    78, 111, 46, 32, 86, 97, 114, 105, 97, 98, 108, 101, 115, 58, 50, 10,
    66, 105, 110, 97, 114, 121, 58, 10]

theorem scan_admits_twoCounts :
    raisesRawError (readAll .small twoCounts) = true ∧ raisesRawError (scan .small twoCounts) = false := by
  decide +kernel

end Vamos.Rawfile
