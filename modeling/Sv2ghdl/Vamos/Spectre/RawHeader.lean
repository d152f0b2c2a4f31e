import Sv2ghdl.Vamos.Netlist.RawLayout

/-!
# The headers of the results

`vamos/spectre/results.py` reads the header of a plot once more, at the offsets that `scan` gives, to name the
columns of the rows.  Its lines are read as Latin-1, and what the readers of `rawfile.py` refuse is not checked.
-/

open Python

namespace Vamos.Rawfile

variable (U : UnicodeData)

/-! ## The reader -/

/-- What ends the reader early. -/
inductive HeaderFault where
  | rawError (reason : Reason)
  | valueError
  | indexError
  deriving DecidableEq, Repr

/-- `fh.readline()` at `pos`: the line as Latin-1 without its line ends, and where the next one starts. -/
def rawLine (data : Bytes) (pos : Nat) : Str × Nat :=
  let next := (findLineFeed data pos).elim data.length (· + 1)
  (((slice data pos next).map Names.chr).rdropWhile fun c => c = CodePoint.ofChar '\r' || c = CodePoint.ofChar '\n',
    next)

/-- `text.partition(":")`, each part stripped and the key in lower case. -/
def rawKey (line : Str) : Str × Str :=
  (U.lower (Str.strip (line.takeWhile (· ≠ CodePoint.ofChar ':'))),
    Str.strip ((line.dropWhile (· ≠ CodePoint.ofChar ':')).drop 1))

/-- The lines of a variable list until `need` of them are there, and where the next line starts; `none` where the
    file ends before, as the loop then does not end. -/
def rawListLines (data : Bytes) : Nat → Nat → Nat → Option (List Str × Nat)
  | _, 0, pos => some ([], pos)
  | 0, _ + 1, _ => none
  | fuel + 1, need + 1, pos =>
    let (line, next) := rawLine data pos
    if Str.strip line = [] then rawListLines data fuel (need + 1) next
    else (rawListLines data fuel need next).map fun r => (line :: r.1, r.2)

/-- The names and types on the lines of a variable list. -/
def rawVariables : List Str → Except HeaderFault (List (Str × Str))
  | [] => .ok []
  | line :: lines =>
    match variableFields line with
    | _ :: name :: more => (rawVariables lines).map ((name, more.headD []) :: ·)
    | _ => .error .indexError

/-- What the loop does at a line with this key and value, after which the file goes on at `next`. -/
def rawTurn (data : Bytes) (fuel : Nat) (s : Raw × Option Int) (next : Nat) (key : Key) (value : Str) :
    Option (Except HeaderFault (Turn (Raw × Option Int))) :=
  let (raw, nvars) := s
  match key with
  | .title => some (.ok (.next next ({ raw with title := value }, nvars)))
  | .date => some (.ok (.next next ({ raw with date := value }, nvars)))
  | .plotname => some (.ok (.next next ({ raw with plotname := value }, nvars)))
  | .flags => some (.ok (.next next ({ raw with flags := Str.splitWords (U.lower value) }, nvars)))
  | .variableCount =>
    match U.int value with
    | none => some (.error .valueError)
    | some n => some (.ok (.next next (raw, some n)))
  | .pointCount =>
    if value = [] then some (.ok (.next next ({ raw with declaredPoints := none }, nvars)))
    else
      match U.int value with
      | none => some (.error .valueError)
      | some n => some (.ok (.next next ({ raw with declaredPoints := some n }, nvars)))
  | .variableList =>
    match nvars with
    | none => some (.error (.rawError .variablesBeforeCount))
    | some n =>
      let lines := if value = [] then [] else [value]
      (rawListLines data fuel (missing n lines) next).map fun (more, pos) =>
        (rawVariables (lines ++ more)).map fun vars => .next pos ({ raw with vars := raw.vars ++ vars }, nvars)
  | .data binary => some (.ok (.marker binary next))
  | .other key => some (.ok (.next next ({ raw with header := setHeader raw.header key value }, nvars)))

/-- `_raw_header` from a state on; `none` where it does not end within `fuel` lines. -/
def rawHeaderFrom (data : Bytes) : Nat → Nat → Raw × Option Int → Option (Except HeaderFault Raw)
  | 0, _, _ => none
  | fuel + 1, pos, s =>
    if data.length ≤ pos then some (.error (.rawError .noSection))
    else
      let (line, next) := rawLine data pos
      if Str.strip line = [] then rawHeaderFrom data fuel next s
      else
        match rawTurn U data fuel s next (Key.of (rawKey U line).1) (rawKey U line).2 with
        | none => none
        | some (.error e) => some (.error e)
        | some (.ok (.marker binary _)) => some (.ok { s.1 with binary := binary })
        | some (.ok (.next pos s)) => rawHeaderFrom data fuel pos s

/-- `_raw_header` -/
def rawHeader (data : Bytes) (fuel start : Nat) : Option (Except HeaderFault Raw) :=
  rawHeaderFrom U data fuel start ({}, none)

/-- Where `_raw_plots` takes the plots to start. -/
def starts (scanned : List RawPlot) : List Nat := 0 :: scanned.dropLast.filterMap RawPlot.nextStart

/-! ## Where it reads what the others read -/

/-- A line that starts at `p` in the header at `start`. -/
def LineStart (data : Bytes) (start p : Nat) : Prop := p = start ∨ 0 < p ∧ data[p - 1]? = some lineFeed

/-- The line at `p` is the same in Latin-1 and as `_text` decodes it. -/
def SameText (data : Bytes) (p : Nat) : Prop :=
  ((slice data p (lineEnd data p)).map Names.chr).rdropWhile (· = CodePoint.ofChar '\r') =
    lineText data p (lineEnd data p)

/-- The lines of the header at `start` are the same in Latin-1. -/
def LatinHeader (data : Bytes) (start : Nat) : Prop :=
  ∀ plot lay, scanHeader U data start = .ok (plot, lay) →
    ∀ p, start ≤ p → p < lay.dataStart → LineStart data start p → SameText data p

/-- The header lines of the header at `start`, those of variable lists left out. -/
def headerLines (data : Bytes) (start : Nat) : Except Error (List HeaderLine) :=
  (headerLoop data (onHeaderLine U none data fun s h =>
    (entryLine U none data s.1 h).map (Turn.map fun es => (es, s.2 ++ [h]))) (data.length - start) start
      ([], ([] : List HeaderLine))).map fun r => r.1.2

/-- A `No. Points:` line has no value or an integer. -/
def PointsOk (h : HeaderLine) : Prop :=
  match h.key with
  | .pointCount => h.value = [] ∨ (U.int h.value).isSome
  | _ => True

/-- What the header reader shares with the plot that is read. -/
structure SameHeader (r raw : Raw) : Prop where
  title : r.title = raw.title
  plotname : r.plotname = raw.plotname
  flags : r.flags = raw.flags
  vars : r.vars = raw.vars
  declaredPoints : r.declaredPoints = raw.declaredPoints

/-! ## Lines -/

theorem rdropWhile_congr {α : Type} {p q : α → Bool} {l : List α} (h : ∀ c ∈ l, p c = q c) :
    l.rdropWhile p = l.rdropWhile q := by
  induction l using List.reverseRecOn with
  | nil => rfl
  | append_singleton l c ih =>
    have hc := h c (List.mem_append_right l List.mem_cons_self)
    by_cases hp : p c = true
    · rw [List.rdropWhile_concat_pos _ _ _ hp, List.rdropWhile_concat_pos _ _ _ (hc ▸ hp)]
      exact ih fun d hd => h d (List.mem_append_left _ hd)
    · rw [List.rdropWhile_concat_neg _ _ _ hp, List.rdropWhile_concat_neg _ _ _ (hc ▸ hp)]

theorem chr_eq_lineFeed {b : Byte} : Names.chr b = CodePoint.ofChar '\n' ↔ b = lineFeed := by
  rw [CodePoint.eq_ofChar_iff, Names.chr, CodePoint.val_ofNat (b.isLt.trans (by decide)), Fin.ext_iff]
  rfl

/-- The bytes before a line feed, and the line feed. -/
theorem slice_lineFeed {data : Bytes} {pos i : Nat} (h : findLineFeed data pos = some i) :
    slice data pos (i + 1) = slice data pos i ++ [lineFeed] ∧ (∀ b ∈ slice data pos i, b ≠ lineFeed) ∧
      data[i]? = some lineFeed := by
  obtain ⟨k, hk, rfl⟩ := Option.map_eq_some_iff.mp h
  obtain ⟨hlt, hfeed, hbefore⟩ := List.findIdx?_eq_some_iff_getElem.mp hk
  have hget : (data.drop pos)[k]? = some lineFeed := by
    rw [List.getElem?_eq_getElem hlt, of_decide_eq_true hfeed]
  refine ⟨?_, fun b hb => ?_, by rwa [List.getElem?_drop] at hget⟩
  · rw [slice, slice, Nat.add_assoc, Nat.add_sub_cancel_left, Nat.add_sub_cancel_left, List.take_add_one, hget]
    rfl
  · rw [slice, Nat.add_sub_cancel_left] at hb
    obtain ⟨j, hj, rfl⟩ := List.mem_iff_getElem.mp hb
    rw [List.getElem_take]
    exact of_decide_eq_false (Bool.not_eq_true _ ▸ hbefore j (by rw [List.length_take] at hj; omega))

theorem slice_lastLine {data : Bytes} {pos : Nat} (h : findLineFeed data pos = none) :
    ∀ b ∈ slice data pos data.length, b ≠ lineFeed := by
  intro b hb
  have hnone := List.findIdx?_eq_none_iff.mp (Option.map_eq_none_iff.mp h) b (List.mem_of_mem_take hb)
  exact of_decide_eq_false hnone

/-- The line of the header reader is the line in Latin-1. -/
theorem rawLine_fst (data : Bytes) (pos : Nat) : (rawLine data pos).1 =
    ((slice data pos (lineEnd data pos)).map Names.chr).rdropWhile (· = CodePoint.ofChar '\r') := by
  have hcongr : ∀ l : Bytes, (∀ b ∈ l, b ≠ lineFeed) →
      (l.map Names.chr).rdropWhile (fun c => c = CodePoint.ofChar '\r' || c = CodePoint.ofChar '\n') =
        (l.map Names.chr).rdropWhile (· = CodePoint.ofChar '\r') := by
    intro l hl
    refine rdropWhile_congr fun c hc => ?_
    obtain ⟨b, hb, rfl⟩ := List.mem_map.mp hc
    have hne : Names.chr b ≠ CodePoint.ofChar '\n' := fun heq => hl b hb (chr_eq_lineFeed.mp heq)
    rw [decide_eq_false hne, Bool.or_false]
  rw [rawLine, lineEnd]
  cases hfind : findLineFeed data pos with
  | none => exact hcongr _ (slice_lastLine hfind)
  | some i =>
    obtain ⟨hslice, hne, -⟩ := slice_lineFeed hfind
    show ((slice data pos (i + 1)).map Names.chr).rdropWhile _ = _
    rw [hslice, List.map_append]
    refine (List.rdropWhile_concat_pos _ _ _ ?_).trans (hcongr _ hne)
    decide

theorem rawLine_of_sameText {data : Bytes} {pos : Nat} (h : SameText data pos) :
    (rawLine data pos).1 = lineText data pos (lineEnd data pos) := (rawLine_fst data pos).trans h

theorem lineStart_next {data : Bytes} {start pos i : Nat} (h : findLineFeed data pos = some i) :
    LineStart data start (i + 1) := .inr ⟨Nat.succ_pos i, (slice_lineFeed h).2.2⟩

theorem strip_append_left {s t : Str} (hs : ∀ c ∈ s, c.isSpace = true) : Str.strip (s ++ t) = Str.strip t := by
  rw [Str.strip, Str.strip, Str.lstrip, Str.lstrip, List.dropWhile_append_of_pos hs]

/-- A header line has its key before the first colon. -/
theorem rawKey_of_headerLine {line key value : Str} (h : headerLine U line = some (key, value)) :
    rawKey U line = (key, value) := by
  obtain ⟨⟨k, v⟩, hmatch, heq⟩ := Option.map_eq_some_iff.mp h
  rw [matchHeaderLine] at hmatch
  split at hmatch
  · next k' ks c v' hkeys hrest =>
    split_ifs at hmatch with hcond
    cases hmatch
    cases heq
    have hsplit : line = line.takeWhile CodePoint.isSpace ++ (k' :: ks) ++ CodePoint.ofChar ':' :: v := by
      conv_lhs => rw [← List.takeWhile_append_dropWhile (p := CodePoint.isSpace) (l := line)]
      rw [List.append_assoc, ← hcond.2, ← hrest, ← hkeys]
      congr 1
      exact (List.takeWhile_append_dropWhile (p := isKeyChar)).symm
    have hbefore : ∀ c ∈ line.takeWhile CodePoint.isSpace ++ (k' :: ks),
        decide (c ≠ CodePoint.ofChar ':') = true := by
      intro c hc
      refine decide_eq_true fun hcolon => ?_
      subst hcolon
      rcases List.mem_append.mp hc with hc | hc
      · exact absurd (List.mem_takeWhile_imp hc) (by decide)
      · rw [← hkeys] at hc
        exact absurd (List.mem_takeWhile_imp hc) (by decide)
    have htake : line.takeWhile (· ≠ CodePoint.ofChar ':') = line.takeWhile CodePoint.isSpace ++ (k' :: ks) := by
      rw [hsplit, List.takeWhile_append_of_pos hbefore, List.takeWhile_cons_of_neg (by simp), List.append_nil,
        ← hsplit]
    have hdrop : line.dropWhile (· ≠ CodePoint.ofChar ':') = CodePoint.ofChar ':' :: v := by
      rw [hsplit, List.dropWhile_append_of_pos hbefore, List.dropWhile_cons_of_neg (by simp)]
    rw [rawKey, htake, hdrop, strip_append_left fun c hc => List.mem_takeWhile_imp hc]
    rfl
  · cases hmatch

/-! ## Variable lists -/

/-- The lines of a list are the same in Latin-1. -/
theorem rawListLines_eq {data : Bytes} {start fuel need pos : Nat} {r : List Str × Nat}
    (h : listLines none data fuel need pos = .ok r) (hstart : LineStart data start pos)
    (hlatin : ∀ p, pos ≤ p → p < r.2 → LineStart data start p → SameText data p)
    {fuel' : Nat} (hfuel : data.length ≤ pos + fuel') :
    rawListLines data fuel' need pos = some r := by
  induction fuel generalizing need pos r fuel' with
  | zero =>
    cases need with
    | zero =>
      cases h
      cases fuel' <;> rfl
    | succ need => cases h
  | succ fuel ih =>
    cases need with
    | zero =>
      cases h
      cases fuel' <;> rfl
    | succ need =>
      rw [listLines] at h
      split_ifs at h with hfind
      obtain ⟨i, hi⟩ := Option.ne_none_iff_exists'.mp hfind
      have hend : lineEnd data pos = i := by rw [lineEnd, hi]; rfl
      have hlt : i < data.length := (List.getElem?_eq_some_iff.mp (slice_lineFeed hi).2.2).1
      have hle := le_of_findLineFeed hi
      obtain ⟨fuel', rfl⟩ := Nat.exists_eq_succ_of_ne_zero (n := fuel') (by omega)
      rw [lineAt] at h
      simp only [Option.not_mem_none, false_and, exists_false, if_false, hend] at h
      have hnext : (rawLine data pos).2 = i + 1 := by rw [rawLine, hi]; rfl
      have hline : pos < r.2 → (rawLine data pos).1 = lineText data pos i := fun hlt =>
        (rawLine_of_sameText (hlatin pos le_rfl hlt hstart)).trans (by rw [hend])
      rw [rawListLines]
      dsimp only
      split_ifs at h with hblank
      · have hpos := le_of_listLines h
        rw [hline (by omega), if_pos hblank, hnext]
        exact ih h (lineStart_next hi) (fun p hp => hlatin p (by omega)) (by omega)
      · split at h
        · cases h
        · next lines next hrest =>
          have hpos := le_of_listLines hrest
          cases h
          rw [hline (by dsimp only at hpos ⊢; omega), if_neg hblank, hnext,
            ih hrest (lineStart_next hi) (fun p hp => hlatin p (by omega)) (by omega)]
          rfl

theorem lineStart_of_listLines {data : Bytes} {start fuel need pos : Nat} {r : List Str × Nat}
    (h : listLines none data fuel need pos = .ok r) (hstart : LineStart data start pos) :
    LineStart data start r.2 := by
  induction fuel generalizing need pos r with
  | zero =>
    cases need with
    | zero =>
      cases h
      exact hstart
    | succ need => cases h
  | succ fuel ih =>
    cases need with
    | zero =>
      cases h
      exact hstart
    | succ need =>
      rw [listLines] at h
      split_ifs at h with hfind
      obtain ⟨i, hi⟩ := Option.ne_none_iff_exists'.mp hfind
      have hend : lineEnd data pos = i := by rw [lineEnd, hi]; rfl
      rw [lineAt] at h
      simp only [Option.not_mem_none, false_and, exists_false, if_false, hend] at h
      split_ifs at h with hblank
      · exact ih h (lineStart_next hi)
      · split at h
        · cases h
        · next lines next hrest =>
          cases h
          have hlast := ih hrest (lineStart_next hi)
          exact hlast

theorem rawVariables_eq {k : Nat} {lines : List Str} {vs : List (Str × Str)}
    (h : variablesAt U k lines = .ok vs) : rawVariables lines = .ok vs := by
  induction lines generalizing k vs with
  | nil =>
    cases h
    rfl
  | cons line lines ih =>
    rw [variablesAt] at h
    split at h
    · cases h
    · next v hv =>
      split at h
      · cases h
      · next vs' hvs =>
        cases h
        rw [variableAt] at hv
        split at hv
        · next index name more hfields =>
          rw [rawVariables, hfields, ih hvs]
          split_ifs at hv
          split at hv
          · cases hv
          · split_ifs at hv
            cases hv
            rfl
        · cases hv

/-! ## The loop -/

/-- What the reader has of these entries. -/
def rawState (es : List Entry) : Raw × Option Int := ((Plot.ofEntries es).raw, lastCount es)

theorem rawTurn_marker {data : Bytes} {es : List Entry} {h : HeaderLine} {binary : Bool} {pos : Nat}
    (ht : entryLine U none data es h = .ok (.marker binary pos)) (fuel next : Nat) (s : Raw × Option Int) :
    rawTurn U data fuel s next h.key h.value = some (.ok (.marker binary next)) := by
  obtain ⟨first, eol, line, key, value⟩ := h
  unfold entryLine at ht
  cases key with
  | data binary =>
    cases ht
    rfl
  | flags | variableCount =>
    obtain ⟨_, -, ht⟩ := Lookup.bind_eq_ok.mp ht
    cases ht
  | variableList =>
    dsimp only at ht
    split at ht
    · cases ht
    · obtain ⟨_, -, ht⟩ := Lookup.bind_eq_ok.mp ht
      cases ht
  | title | date | plotname | pointCount | other => cases ht

/-- A header line does to the reader what its entry says. -/
theorem rawTurn_next {data : Bytes} {start fuel : Nat} {es es' : List Entry} {h : HeaderLine} {pos : Nat}
    (ht : entryLine U none data es h = .ok (.next pos es')) (hpoints : PointsOk U h)
    (hstart : LineStart data start (h.eol + 1))
    (hlatin : ∀ p, h.eol < p → p < pos → LineStart data start p → SameText data p)
    (hfuel : data.length ≤ h.eol + 1 + fuel) :
    rawTurn U data fuel (rawState es) (h.eol + 1) h.key h.value = some (.ok (.next pos (rawState es'))) := by
  obtain ⟨first, eol, line, key, value⟩ := h
  unfold entryLine at ht
  cases key with
  | data binary => cases ht
  | flags =>
    obtain ⟨words, hwords, ht⟩ := Lookup.bind_eq_ok.mp ht
    cases ht
    have hsame : words = Str.splitWords (U.lower value) := by
      simp only [flagWords] at hwords
      split_ifs at hwords
      exact (Except.ok.inj hwords).symm
    simp [rawTurn, rawState, Plot.add, Entry.count?, hsame]
  | variableCount =>
    obtain ⟨n, hn, ht⟩ := Lookup.bind_eq_ok.mp ht
    cases ht
    have hint : U.int value = some n := by
      rw [variableCount] at hn
      split at hn
      · next m hm => exact hm.trans (congrArg some (Except.ok.inj hn))
      · cases hn
    simp [rawTurn, rawState, Plot.add, Entry.count?, hint]
  | pointCount =>
    cases ht
    by_cases hempty : value = []
    · simp [rawTurn, rawState, Plot.add, Entry.count?, declaredPoints, hempty]
    · obtain ⟨n, hn⟩ := Option.isSome_iff_exists.mp (Or.resolve_left hpoints hempty)
      have hint : U.int value = some n := hn
      simp [rawTurn, rawState, Plot.add, Entry.count?, declaredPoints, hempty, hint]
  | variableList =>
    dsimp only at ht
    split at ht
    · cases ht
    · next n hlast =>
      obtain ⟨⟨vars, pos'⟩, hlist, ht⟩ := Lookup.bind_eq_ok.mp ht
      cases ht
      rw [variableList] at hlist
      split at hlist
      · cases hlist
      · next more pos' hmore =>
        split at hlist
        · cases hlist
        · next vs hvs =>
          cases hlist
          have hraw := rawListLines_eq hmore hstart (fun p hp hlt => hlatin p hp hlt) hfuel
          simp [rawTurn, rawState, Plot.add, Entry.count?, hlast, hraw, rawVariables_eq U hvs, Except.map]
  | title | date | plotname | other =>
    cases ht
    simp [rawTurn, rawState, Plot.add, Entry.count?]

/-- The loop goes on at the start of a line. -/
theorem lineStart_of_entryLine {data : Bytes} {start : Nat} {es es' : List Entry} {h : HeaderLine} {pos : Nat}
    (ht : entryLine U none data es h = .ok (.next pos es')) (hstart : LineStart data start (h.eol + 1)) :
    LineStart data start pos := by
  obtain ⟨first, eol, line, key, value⟩ := h
  unfold entryLine at ht
  cases key with
  | data binary => cases ht
  | flags | variableCount =>
    obtain ⟨_, -, ht⟩ := Lookup.bind_eq_ok.mp ht
    cases ht
    exact hstart
  | variableList =>
    dsimp only at ht
    split at ht
    · cases ht
    · obtain ⟨⟨vars, pos'⟩, hlist, ht⟩ := Lookup.bind_eq_ok.mp ht
      cases ht
      rw [variableList] at hlist
      split at hlist
      · cases hlist
      · next more pos' hmore =>
        split at hlist
        · cases hlist
        · cases hlist
          exact lineStart_of_listLines hmore hstart
  | title | date | plotname | pointCount | other =>
    cases ht
    exact hstart

/-- A `No. Points:` value that is no integer ends the reader. -/
theorem rawTurn_of_not_pointsOk {data : Bytes} {fuel next : Nat} {s : Raw × Option Int} {h : HeaderLine}
    (hpoints : ¬ PointsOk U h) : rawTurn U data fuel s next h.key h.value = some (.error .valueError) := by
  obtain ⟨first, eol, line, key, value⟩ := h
  cases key with
  | pointCount =>
    obtain ⟨hempty, hint⟩ := not_or.mp hpoints
    have hempty : value ≠ [] := hempty
    have hint : U.int value = none := by simpa using hint
    simp [rawTurn, hempty, hint]
  | _ => exact absurd trivial hpoints

/-- The turn of the reader's loop that keeps the header lines too. -/
abbrev lineTurn (data : Bytes) (s : List Entry × List HeaderLine) (h : HeaderLine) :
    Except Error (Turn (List Entry × List HeaderLine)) :=
  (entryLine U none data s.1 h).map (Turn.map fun es => (es, s.2 ++ [h]))

theorem rawLine_snd {data : Bytes} {pos : Nat} (h : lineEnd data pos < data.length) :
    (rawLine data pos).2 = lineEnd data pos + 1 ∧ findLineFeed data pos = some (lineEnd data pos) := by
  cases hfind : findLineFeed data pos with
  | none =>
    rw [lineEnd, hfind] at h
    exact absurd h (lt_irrefl _)
  | some i => simp [rawLine, lineEnd, hfind]

theorem rawHeaderFrom_blank {data : Bytes} {fuel pos : Nat} {s : Raw × Option Int} (hpos : pos < data.length)
    (hblank : Str.strip (rawLine data pos).1 = []) :
    rawHeaderFrom U data (fuel + 1) pos s = rawHeaderFrom U data fuel (rawLine data pos).2 s := by
  rw [rawHeaderFrom, if_neg (not_le.mpr hpos)]
  exact if_pos hblank

theorem rawHeaderFrom_line {data : Bytes} {fuel pos : Nat} {s : Raw × Option Int} (hpos : pos < data.length)
    (hblank : Str.strip (rawLine data pos).1 ≠ []) {key value : Str}
    (hkey : headerLine U (rawLine data pos).1 = some (key, value)) :
    rawHeaderFrom U data (fuel + 1) pos s =
      match rawTurn U data fuel s (rawLine data pos).2 (Key.of key) value with
      | none => none
      | some (.error e) => some (.error e)
      | some (.ok (.marker binary _)) => some (.ok { s.1 with binary := binary })
      | some (.ok (.next pos s)) => rawHeaderFrom U data fuel pos s := by
  rcases hline : rawLine data pos with ⟨line, next⟩
  rw [hline] at hblank hkey
  rw [rawHeaderFrom, if_neg (not_le.mpr hpos), hline]
  refine (if_neg hblank).trans ?_
  rw [rawKey_of_headerLine U hkey]

/-- Where every line is the same in Latin-1, the reader has what the entries say, unless a `No. Points:` ends it. -/
theorem rawHeaderFrom_eq {data : Bytes} {start fuel pos dataStart : Nat} {es es' : List Entry}
    {hs hs' : List HeaderLine} {binary : Bool}
    (hloop : headerLoop data (onHeaderLine U none data (lineTurn U data)) fuel pos (es, hs) =
      .ok ((es', hs'), some binary, dataStart))
    (hlatin : ∀ p, pos ≤ p → p < dataStart → LineStart data start p → SameText data p)
    (hstart : LineStart data start pos) {fuel' : Nat} (hfuel : data.length < pos + fuel') :
    pos < dataStart ∧ ∃ new, hs' = hs ++ new ∧
      ((∀ h ∈ new, PointsOk U h) →
        rawHeaderFrom U data fuel' pos (rawState es) = some (.ok { (Plot.ofEntries es').raw with binary := binary })) ∧
      ((∃ h ∈ new, ¬ PointsOk U h) → rawHeaderFrom U data fuel' pos (rawState es) = some (.error .valueError)) := by
  induction fuel generalizing pos es hs fuel' with
  | zero => cases hloop
  | succ fuel ih =>
    rw [headerLoop] at hloop
    split_ifs at hloop with hpos
    swap
    · cases hloop
    -- The loop goes on only where a line follows.
    have hcont : ∀ {p : Nat} {s : List Entry × List HeaderLine},
        headerLoop data (onHeaderLine U none data (lineTurn U data)) fuel p s = .ok ((es', hs'), some binary, dataStart) →
          p < data.length := by
      intro p s h
      cases fuel with
      | zero => cases h
      | succ fuel =>
        rw [headerLoop] at h
        split_ifs at h with hp
        · exact hp
        · cases h
    have hend : pos ≤ lineEnd data pos := le_lineEnd hpos.le
    obtain ⟨fuel', rfl⟩ := Nat.exists_eq_succ_of_ne_zero (n := fuel') (by omega)
    rw [onHeaderLine, lineAt] at hloop
    simp only [Option.not_mem_none, false_and, exists_false, if_false] at hloop
    by_cases hblank : Str.strip (lineText data pos (lineEnd data pos)) = []
    · rw [if_pos hblank] at hloop
      have hlt := hcont hloop
      obtain ⟨hnext, hfind⟩ := rawLine_snd (show lineEnd data pos < data.length by omega)
      have hfuel' : data.length < lineEnd data pos + 1 + fuel' := by omega
      obtain ⟨hdata, new, hnew, hok, hbad⟩ := ih hloop (fun p hp => hlatin p (by omega)) (lineStart_next hfind) hfuel'
      have hline := rawLine_of_sameText (hlatin pos le_rfl (by omega) hstart)
      rw [rawHeaderFrom_blank U hpos (hline ▸ hblank), hnext]
      exact ⟨by omega, new, hnew, hok, hbad⟩
    · rw [if_neg hblank] at hloop
      cases hkey : headerLine U (lineText data pos (lineEnd data pos)) with
      | none =>
        rw [hkey] at hloop
        cases hloop
      | some kv =>
        obtain ⟨key, value⟩ := kv
        rw [hkey] at hloop
        dsimp only [lineTurn] at hloop
        cases ht : entryLine U none data es ⟨pos, lineEnd data pos, lineText data pos (lineEnd data pos), Key.of key,
            value⟩ with
        | error e =>
          rw [ht] at hloop
          cases hloop
        | ok t =>
          rw [ht] at hloop
          have htpos : lineEnd data pos < t.pos := entryLine_pos U ht
          cases t with
          | marker binary' p =>
            cases hloop
            have hdata : pos < dataStart := hend.trans_lt htpos
            have hline := rawLine_of_sameText (hlatin pos le_rfl hdata hstart)
            refine ⟨hdata, [], (List.append_nil hs').symm, fun _ => ?_, fun hbad => ?_⟩
            · rw [rawHeaderFrom_line U hpos (hline ▸ hblank) (hline ▸ hkey)]
              rw [rawTurn_marker U ht fuel' (rawLine data pos).2 (rawState es')]
              rfl
            · obtain ⟨h, hh, -⟩ := hbad
              cases hh
          | next p es₁ =>
            have hlt := hcont hloop
            have hp : lineEnd data pos < p := htpos
            obtain ⟨hnext, hfind⟩ := rawLine_snd (show lineEnd data pos < data.length by omega)
            have hafter : LineStart data start (lineEnd data pos + 1) := lineStart_next hfind
            have hfuel' : data.length < p + fuel' := by omega
            obtain ⟨hdata, new, hnew, hok, hbad⟩ := ih hloop (fun q hq => hlatin q (by omega))
              (lineStart_of_entryLine U ht hafter) hfuel'
            have hline := rawLine_of_sameText (hlatin pos le_rfl (by omega) hstart)
            have hstep := @rawHeaderFrom_line U data fuel' pos (rawState es) hpos (hline ▸ hblank) key value
              (hline ▸ hkey)
            rw [hnext] at hstep
            have hturn := fun hpoints => @rawTurn_next U data start fuel' _ _ _ _ ht hpoints hafter
              (fun q hq hlt => hlatin q (by dsimp only at hq; omega) (by omega)) (by dsimp only; omega)
            refine ⟨by omega, _ :: new, by rw [hnew, List.append_assoc, List.singleton_append], fun hall => ?_, ?_⟩
            · rw [hstep, hturn (hall _ List.mem_cons_self)]
              exact hok fun h hh => hall h (List.mem_cons_of_mem _ hh)
            · rintro ⟨h, hh, hpoints⟩
              rcases List.mem_cons.mp hh with rfl | hh
              · rw [hstep, rawTurn_of_not_pointsOk U hpoints]
              · by_cases hfirst : PointsOk U ⟨pos, lineEnd data pos, lineText data pos (lineEnd data pos), Key.of key,
                    value⟩
                · rw [hstep, hturn hfirst]
                  exact hbad ⟨h, hh, hpoints⟩
                · rw [hstep, rawTurn_of_not_pointsOk U hfirst]

/-! ## The plots -/

/-- The plots of `read_all` that start where those of `scan` do, with the entries of their headers. -/
inductive Starts (data : Bytes) : Nat → List Raw → List Nat → Prop
  | last {pos : Nat} {h : List Entry × Layout} {raw : Raw} : header U data pos = .ok h →
      SameHeader { (Plot.ofEntries h.1).raw with binary := h.2.binary } raw → Starts data pos [raw] [pos]
  | next {pos next : Nat} {h : List Entry × Layout} {raw : Raw} {raws : List Raw} {rest : List Nat} :
      header U data pos = .ok h →
      SameHeader { (Plot.ofEntries h.1).raw with binary := h.2.binary } raw → Starts data next raws rest →
      Starts data pos (raw :: raws) (pos :: rest)

/-- A plot that is read has what the entries of its header say. -/
theorem parsePlot_header {data : Bytes} {pos : Nat} {h : List Entry × Layout} (hh : header U data pos = .ok h)
    {plot : Plot} (hplot : parsePlot U data pos = .ok plot) :
    SameHeader { (Plot.ofEntries h.1).raw with binary := h.2.binary } plot.raw := by
  unfold parsePlot at hplot
  rw [parseLoop_entries, entries_none_of_header U hh] at hplot
  obtain ⟨n, -, hlast, -⟩ := header_ok U hh
  change (match lastCount h.1 with | none => _ | some n => _) = _ at hplot
  rw [hlast] at hplot
  dsimp only [parseState] at hplot
  split_ifs at hplot with hcount hb
  · cases hplot
    exact ⟨rfl, rfl, rfl, rfl, rfl⟩
  · rw [readAscii] at hplot
    obtain ⟨r, -, hplot⟩ := Lookup.bind_eq_ok.mp hplot
    cases hplot
    exact ⟨rfl, rfl, rfl, rfl, rfl⟩

theorem scanPlots_ne_nil {data : Bytes} {fuel pos : Nat} {scanned : List RawPlot} (hfuel : 0 < fuel)
    (hscan : scanPlots U data fuel pos = .ok scanned) : scanned ≠ [] := by
  obtain ⟨fuel, rfl⟩ := Nat.exists_eq_succ_of_ne_zero hfuel.ne'
  rw [scanPlots] at hscan
  obtain ⟨raw, -, hscan⟩ := Lookup.bind_eq_ok.mp hscan
  split at hscan
  · cases hscan
    exact List.cons_ne_nil _ _
  · obtain ⟨rest, -, hscan⟩ := Lookup.bind_eq_ok.mp hscan
    cases hscan
    exact List.cons_ne_nil _ _

theorem starts_of_parsed {data : Bytes} {fuel pos : Nat} {plots : List Plot} {scanned : List RawPlot}
    (hread : parsePlots U data fuel pos = .ok plots) (hscan : scanPlots U data fuel pos = .ok scanned)
    (hpos : pos ≤ data.length) (hfuel : data.length < pos + fuel) :
    Starts U data pos (plots.map Plot.raw) (pos :: scanned.dropLast.filterMap RawPlot.nextStart) := by
  induction fuel generalizing pos plots scanned with
  | zero => omega
  | succ fuel ih =>
    rw [parsePlots] at hread
    rw [scanPlots] at hscan
    obtain ⟨plot, hplot, hread⟩ := Lookup.bind_eq_ok.mp hread
    obtain ⟨raw, hraw, hscan⟩ := Lookup.bind_eq_ok.mp hscan
    have hscanNext := scanPlot_nextStart U data pos
    rw [hraw] at hscanNext
    obtain ⟨h, hh, hnext⟩ : ∃ h, header U data pos = .ok h ∧ nextPlot U data h = .ok raw.nextStart :=
      Lookup.bind_eq_ok.mp hscanNext.symm
    have hparseNext := parsePlot_nextStart U hh
    rw [hplot] at hparseNext
    have hsame : plot.nextStart = raw.nextStart := by
      split_ifs at hparseNext
      · exact Except.ok.inj (hparseNext.trans hnext)
      · cases hparseNext
    have hheader := parsePlot_header U hh hplot
    rw [hsame] at hread
    cases hstart : raw.nextStart with
    | none =>
      rw [hstart] at hread hscan
      cases hread
      cases hscan
      exact .last hh hheader
    | some next =>
      rw [hstart] at hread hscan hnext
      obtain ⟨rest, hrest, hread⟩ := Lookup.bind_eq_ok.mp hread
      obtain ⟨scannedRest, hscanRest, hscan⟩ := Lookup.bind_eq_ok.mp hscan
      cases hread
      cases hscan
      obtain ⟨hlt, hle⟩ := nextPlot_pos U hh hnext
      have hne := scanPlots_ne_nil U (by omega) hscanRest
      rw [List.dropLast_cons_of_ne_nil hne, List.filterMap_cons_some hstart]
      exact .next hh hheader (ih hrest hscanRest (Nat.le_of_lt hle) (by omega))

theorem Starts.length {data : Bytes} {pos : Nat} {raws : List Raw} {ps : List Nat}
    (h : Starts U data pos raws ps) : ps.length = raws.length := by
  induction h with
  | last => rfl
  | next _ _ _ ih => exact congrArg (· + 1) ih

theorem Starts.header {data : Bytes} {pos : Nat} {raws : List Raw} {ps : List Nat}
    (h : Starts U data pos raws ps) {k : Nat} {raw : Raw} {start : Nat} (hraw : raws[k]? = some raw)
    (hstart : ps[k]? = some start) : ∃ hd, header U data start = .ok hd ∧
      SameHeader { (Plot.ofEntries hd.1).raw with binary := hd.2.binary } raw := by
  induction h generalizing k with
  | last hh hsame =>
    cases k with
    | zero =>
      cases hraw
      cases hstart
      exact ⟨_, hh, hsame⟩
    | succ k => cases hraw
  | next hh hsame _ ih =>
    cases k with
    | zero =>
      cases hraw
      cases hstart
      exact ⟨_, hh, hsame⟩
    | succ k => exact ih hraw hstart

theorem lineTurn_fst (data : Bytes) (s : List Entry × List HeaderLine) (h : HeaderLine) :
    entryLine U none data s.1 h = (lineTurn U data s h).map (Turn.map Prod.fst) := by
  rw [lineTurn]
  cases entryLine U none data s.1 h with
  | error e => rfl
  | ok t => cases t <;> rfl

theorem entries_of_lineLoop (data : Bytes) (start : Nat) : entries U none data start =
    (headerLoop data (onHeaderLine U none data (lineTurn U data)) (data.length - start) start ([], [])).map
      fun (s, marker, pos) => (s.1, marker, pos) :=
  headerLoop_map Prod.fst (onHeaderLine_map U Prod.fst (lineTurn_fst U data)) _ start ([], [])

/-- Where the lines of a plot's header are the same in Latin-1, the header reader ends with what `read_all` has,
    exactly when every `No. Points:` is blank or an integer. -/
theorem rawHeader_agrees_iff {data : Bytes} {raws : List Raw} {scanned : List RawPlot}
    (hread : readAll U data = .ok raws) (hscan : scan U data = .ok scanned) :
    (starts scanned).length = raws.length ∧
    ∀ (k : Nat) raw start, raws[k]? = some raw → (starts scanned)[k]? = some start → LatinHeader U data start →
      ((∃ r, (∀ fuel, data.length < fuel → rawHeader U data fuel start = some (.ok r)) ∧ SameHeader r raw) ↔
        ∀ hs, headerLines U data start = .ok hs → ∀ h ∈ hs, PointsOk U h) := by
  rw [readAll] at hread
  rw [scan] at hscan
  split_ifs at hread hscan
  obtain ⟨plots, hplots, rfl⟩ : ∃ plots, parsePlots U data (data.length + 1) 0 = .ok plots ∧
      plots.map Plot.raw = raws := by
    cases hparse : parsePlots U data (data.length + 1) 0 with
    | error e =>
      rw [hparse] at hread
      cases hread
    | ok plots =>
      rw [hparse] at hread
      exact ⟨plots, rfl, Except.ok.inj hread⟩
  have hstarts := starts_of_parsed U hplots hscan (Nat.zero_le _) (by omega)
  refine ⟨hstarts.length, fun k raw start hraw hstart hlatin => ?_⟩
  obtain ⟨hd, hh, hsame⟩ := hstarts.header U hraw hstart
  -- The loop that keeps the header lines finds the same entries.
  have hentries := entries_none_of_header U hh
  rw [entries_of_lineLoop] at hentries
  cases hlines : headerLoop data (onHeaderLine U none data (lineTurn U data)) (data.length - start) start ([], []) with
  | error e =>
    rw [hlines] at hentries
    cases hentries
  | ok r =>
    obtain ⟨⟨es, hs⟩, marker, dataStart⟩ := r
    rw [hlines] at hentries
    cases hentries
    have hheader : headerLines U data start = .ok hs := by
      rw [headerLines]
      exact congrArg (Except.map _) hlines
    have hscanHeader := scanHeader_eq U data start
    rw [hh] at hscanHeader
    have hrun := fun fuel (hfuel : data.length < start + fuel) =>
      (rawHeaderFrom_eq U hlines (hlatin _ _ hscanHeader) (.inl rfl) hfuel).2
    constructor
    · rintro ⟨r, hr, -⟩ hs' hhs' h hmem
      by_contra hbad
      obtain rfl := Except.ok.inj (hheader.symm.trans hhs')
      obtain ⟨new, hnew, -, herror⟩ := hrun (data.length + 1) (by omega)
      rw [List.nil_append] at hnew
      have hvalue := herror ⟨h, hnew ▸ hmem, hbad⟩
      have hok := hr (data.length + 1) (by omega)
      cases hok.symm.trans hvalue
    · intro hall
      refine ⟨_, fun fuel hfuel => ?_, hsame⟩
      obtain ⟨new, hnew, hok, -⟩ := hrun fuel (by omega)
      rw [List.nil_append] at hnew
      exact hok fun h hh => hall hs hheader h (hnew ▸ hh)

/-! ## Two files -/

/-- One variable `a` and no points. -/
def plain : Bytes := Utf8.encode (str "Title:t\nNo. Variables:1\nNo. Points:0\nVariables:\n 0 a V\nBinary:\n")

theorem plain_agrees : ∃ raws scanned, readAll .small plain = .ok raws ∧ scan .small plain = .ok scanned ∧
    (starts scanned).length = raws.length ∧
    ∀ (k : Nat) raw start, raws[k]? = some raw → (starts scanned)[k]? = some start →
      LatinHeader .small plain start →
        ((∃ r, (∀ fuel, plain.length < fuel → rawHeader .small plain fuel start = some (.ok r)) ∧ SameHeader r raw) ↔
          ∀ hs, headerLines .small plain start = .ok hs → ∀ h ∈ hs, PointsOk .small h) := by
  have hread : (readAll .small plain).toOption.isSome = true := by decide +kernel
  have hscan : (scan .small plain).toOption.isSome = true := by decide +kernel
  cases hraws : readAll .small plain with
  | error e =>
    rw [hraws] at hread
    cases hread
  | ok raws =>
    cases hscanned : scan .small plain with
    | error e =>
      rw [hscanned] at hscan
      cases hscan
    | ok scanned => exact ⟨raws, scanned, rfl, rfl, rawHeader_agrees_iff .small hraws hscanned⟩

/-- One variable `µ` and no points. -/
def micro : Bytes := Utf8.encode (str "Title:t\nNo. Variables:1\nNo. Points:0\nVariables:\n 0 µ V\nBinary:\n")

/-- The header reader names the variable otherwise. -/
theorem micro_differs : ∃ raw r, (∃ raws, readAll .small micro = .ok raws ∧ raws[0]? = some raw) ∧
    (∃ scanned, scan .small micro = .ok scanned ∧ (starts scanned)[0]? = some 0) ∧
    rawHeader .small micro (micro.length + 1) 0 = some (.ok r) ∧ ¬ SameHeader r raw := by
  have hread : (readAll .small micro).toOption.map (·.map Raw.vars) = some [[(str "µ", str "V")]] := by
    decide +kernel
  have hscan : (scan .small micro).toOption.isSome = true := by decide +kernel
  have hraw : (rawHeader .small micro (micro.length + 1) 0).map (·.toOption.map Raw.vars) =
      some (some [(str "Âµ", str "V")]) := by
    decide +kernel
  cases hraws : readAll .small micro with
  | error e =>
    rw [hraws] at hread
    cases hread
  | ok raws =>
    cases hscanned : scan .small micro with
    | error e =>
      rw [hscanned] at hscan
      cases hscan
    | ok scanned =>
      rw [hraws] at hread
      obtain ⟨raw, rest, rfl, hvars, -⟩ := List.map_eq_cons_iff.mp (Option.some.inj hread)
      obtain ⟨result, hresult, heq⟩ := Option.map_eq_some_iff.mp hraw
      cases result with
      | error e => cases heq
      | ok r =>
        refine ⟨raw, r, ⟨_, rfl, rfl⟩, ⟨scanned, rfl, rfl⟩, hresult, fun hsame => ?_⟩
        have hr : r.vars = [(str "Âµ", str "V")] := Option.some.inj heq
        have hvarsEq := hsame.vars
        rw [hr, hvars] at hvarsEq
        exact absurd hvarsEq (by decide)

end Vamos.Rawfile
