import Sv2ghdl.Lists.Traverse
import Sv2ghdl.Python.Unicode
import Sv2ghdl.Vamos.Netlist.SweepGrid
import Sv2ghdl.Vamos.Spectre.Results

/-!
# Print files of Xyce

`vamos/spectre/run_xyce.py` compares the print file that a deck left with the plan: one plot for each .STEP point,
with the planned rows.  The first plot that is bad decides which sweep points of the analysis are converted.
-/

open Python

namespace Vamos.Spectre.Xyce

open Vamos.Netlist.Sweep (Arith Grid gridValues)

/-! ## The plan -/

/-- The plots or tables that the deck writes, those for one point of the sweeps around the analysis, and the rows of
    each; no number of rows is planned for a tran. -/
structure Plan where
  want : Nat
  per : Nat
  rows : Option Nat
  deriving DecidableEq, Repr

section Planned

variable {K : Type} [Field K] [LinearOrder K] [FloorRing K] (A : Arith K)

/-- The loop of `_freq_count`: the frequencies up to `stop`, and a little above. -/
def freqSteps (start stop step : K) : Nat :=
  if 0 < step then (⌊(stop * (1 + 1 / 10 ^ 12) - start) / step⌋ + 1).toNat else 0

/-- `_freq_count`; `none` when it raises. -/
def freqCount (spec : Grid K) : Option Nat :=
  match spec.mode with
  | .step =>
    match spec.start, spec.stop, spec.step with
    | some start, some stop, some step =>
      if step < 0 then (gridValues A spec).toOption.map List.length else some (freqSteps start stop step)
    | _, _, _ => none
  | _ => (gridValues A spec).toOption.map List.length

/-- `planned` of a step whose own sweep has the grid `spec`; `none` when it raises. -/
def planned (s : AnalysisStep K) (spec : Grid K) : Option Plan :=
  match s.kind with
  | .op | .dc =>
    some ⟨s.planned, 1, some (match s.own with
      | some own => if own.freq then 1 else own.values.length
      | none => 1)⟩
  | .ac | .noise | .xf =>
    match s.own with
    | none => some ⟨s.planned, 1, some 1⟩
    | some own =>
      if own.freq then (freqCount A spec).map fun n => ⟨s.planned, 1, some n⟩
      -- a parameter sweep at one frequency is a .STEP
      else some ⟨s.planned * own.values.length, own.values.length, some 1⟩
  | .tran => some ⟨s.planned, 1, none⟩

/-- The collector takes as many plots for a point. -/
theorem planned_per {s : AnalysisStep K} {spec : Grid K} {p : Plan} (h : planned A s spec = some p) :
    p.per = if s.ownStepped .xyce then s.ownValues.length else 1 := by
  unfold planned at h
  cases hown : s.own with
  | none => cases hkind : s.kind <;>
      simp [hkind, hown, AnalysisStep.ownStepped, AnalysisStep.axis] at h ⊢ <;> simp [← h]
  | some own =>
    cases hkind : s.kind <;> cases hfreq : own.freq <;>
      simp [hkind, hown, hfreq, AnalysisStep.ownStepped, AnalysisStep.axis, AnalysisStep.ownValues] at h ⊢
    all_goals first
      | simp [← h]
      | obtain ⟨n, -, rfl⟩ := h
        rfl

end Planned

/-! ## Print files -/

/-- A plot: the name and the count in its header, and its rows. -/
structure PrintPlot (R : Type) where
  plotname : Str
  declared : Option Int
  rows : List R

/-- What `rawfile.read_prn` and `rawfile.scan` make of a file, or why they cannot read it. -/
structure PrintFile (R : Type) where
  readPrn : Except Str (List (List R))
  scan : Except Str (List (PrintPlot R))

/-- The plots of a file that ends in `.prn` or not.  A .PRINT table names no .STEP point. -/
def PrintFile.plots {R : Type} (prn : Bool) (file : PrintFile R) : Except Str (List (PrintPlot R)) :=
  if prn then file.readPrn.map fun ts => ts.map fun t => ⟨[], some t.length, t⟩ else file.scan

/-- The print file of noise ends in `.prn`: `Deck.output`. -/
def prn {K : Type} (s : AnalysisStep K) : Bool := s.kind = .noise

section Titles

variable (U : UnicodeData)

/-- `\w`, of a header that is read as Latin-1: `¼`, `½` and `¾` are numeric. -/
def isWord (c : CodePoint) : Bool :=
  U.isAlpha c || U.isDigit c || c = '_' || (0xBC ≤ c.val && c.val ≤ 0xBE)

def number (s : Str) : Nat := s.foldl (fun n c => 10 * n + digitValue c) 0

/-- `Step (\d+) of (\d+)\b` at the start of a text. -/
def stepHere (s : Str) : Option (Nat × Nat) := do
  let s ← s.dropPrefix? (str "Step ")
  let k := s.takeWhile CodePoint.isAsciiDigit
  let t ← (s.dropWhile CodePoint.isAsciiDigit).dropPrefix? (str " of ")
  let n := t.takeWhile CodePoint.isAsciiDigit
  let rest := t.dropWhile CodePoint.isAsciiDigit
  if k = [] ∨ n = [] ∨ rest.head?.any (isWord U) then none else some (number k, number n)

/-- `_STEP_PLOT.search`, after a character that is part of a word or not. -/
def stepSearch : Bool → Str → Option (Nat × Nat)
  | _, [] => none
  | inWord, c :: s =>
    let here := if inWord then none else stepHere U (c :: s)
    here.or (stepSearch (isWord U c) s)

/-- The .STEP number in a plot's name, when the plots count `want` steps. -/
def stepNumber (want : Nat) (plotname : Str) : Option Nat :=
  (stepSearch U false plotname).bind fun m => if m.2 = want then some m.1 else none

/-- `_step_numbers`: empty when a plot names none. -/
def stepNumbers {R : Type} (want : Nat) (plots : List (PrintPlot R)) : List Nat :=
  (plots.mapM fun plot => stepNumber U want plot.plotname).getD []

end Titles

/-! ## The check -/

/-- What is wrong with one plot. -/
inductive Defect (K : Type) where
  | blank (n : Nat)
  | declares (declared : Int) (n : Nat)
  | rows (n rows : Nat)
  | noTimePoint
  | endsAt (last stop : K)

/-- Why a print file is not complete. -/
inductive Why (K : Type) where
  | missing
  | unreadable (reason : Str)
  | noPlot (step want : Nat)
  | plot (j want : Nat) (defect : Defect K)
  | restarts (j : Nat)
  | few (n want : Nat)
  | many (n want : Nat)

section Texts

variable {K : Type} (fmt : K → Str) (base : Str)

def decimal (n : Int) : Str := str (toString n)

/-- The message about a plot; `fmt` is `%g`. -/
def Defect.text (what : Str) : Defect K → Str
  | blank n => what ++ str " has a blank No. Points (" ++ decimal n ++ str " rows)"
  | declares declared n => what ++ str " declares " ++ decimal declared ++ str " points and holds " ++ decimal n
  | rows n planned => what ++ str " holds " ++ decimal n ++ str " rows where " ++ decimal planned ++
      str " were planned"
  | noTimePoint => what ++ str " holds no time point"
  | endsAt last stop => what ++ str " ends at t = " ++ fmt last ++ str ", not at stop = " ++ fmt stop

/-- The message about the file named `base`. -/
def Why.text : Why K → Str
  | missing => str "Xyce wrote no " ++ base
  | unreadable reason => base ++ str " is unreadable: " ++ reason
  | noPlot step want => base ++ str " has no plot for .STEP point " ++ decimal step ++ str " of " ++ decimal want ++
      str " (Xyce went on past it)"
  | plot j want defect =>
    defect.text fmt (if 1 < want then str "plot " ++ decimal (j + 1) ++ str " of " ++ base else base)
  | restarts j => str "plot " ++ decimal (j + 1) ++ str " of " ++ base ++
      str " restarts its time axis: a failed .STEP point, which Xyce continued past"
  | few n want => base ++ str " holds " ++ decimal n ++ str " of the " ++ decimal want ++ str " .STEP points planned"
  | many n want => base ++ str " holds " ++ decimal n ++ str " plots where " ++ decimal want ++ str " were planned"

end Texts

/-- What a print file holds against the plan: complete, or the first bad plot and why; `none` when no plot can be
    named. -/
structure Check (K : Type) where
  complete : Bool
  firstBad : Option Nat
  why : Option (Why K)

section Checks

variable {K R : Type} [Field K] [LinearOrder K] (U : UnicodeData) (p : Plan) (stop : Option K) (x : R → K)
  (prn : Bool)

/-- `_tran_stop` -/
def tranStop (s : AnalysisStep K) : Option K := if s.kind = .tran then s.args.stop else none

/-- A last time this near to `stop` is at `stop`: `STOP_REL`. -/
def stopTolerance (stop : K) : K := 1 / 10 ^ 9 * max |stop| (1 / 10 ^ 30)

/-- The checks of one plot by its counts.  The last time of a .PRINT table is not looked at. -/
def defect (plot : PrintPlot R) : Option (Defect K) :=
  let n := plot.rows.length
  match plot.declared with
  | none => some (.blank n)
  | some declared =>
    if declared ≠ n then some (.declares declared n)
    else match p.rows with
      | some rows => if n ≠ rows then some (.rows n rows) else none
      | none =>
        if n = 0 then some .noTimePoint
        else match stop, if prn then none else plot.rows.getLast?.map x with
          | some stop, some last =>
            if stopTolerance stop < |last - stop| then some (.endsAt last stop) else none
          | _, _ => none

/-- The first plot with a defect. -/
def firstDefect : Nat → List (PrintPlot R) → Option (Nat × Defect K)
  | _, [] => none
  | j, plot :: plots =>
    match defect p stop x prn plot with
    | some d => some (j, d)
    | none => firstDefect (j + 1) plots

/-- `_restarts`, after the time `prev`. -/
def restarts : Option K → List R → Bool
  | _, [] => false
  | prev, r :: rows => prev.any (x r < ·) || restarts (some (x r)) rows

/-- The first plot whose time restarts, when the times are in the file. -/
def firstRestart (plots : List (PrintPlot R)) : Option Nat :=
  if p.rows = none ∧ prn = false then plots.findIdx? fun plot => restarts x none plot.rows else none

/-- The part of `check_output` after the names of the plots. -/
def checkPlots (plots : List (PrintPlot R)) : Check K :=
  match firstDefect p stop x prn 0 (plots.take p.want) with
  | some (j, d) => ⟨false, some j, some (.plot j p.want d)⟩
  | none =>
    if plots.length < p.want then
      match firstRestart p x prn plots with
      | some j => ⟨false, some j, some (.restarts j)⟩
      | none => ⟨false, some plots.length, some (.few plots.length p.want)⟩
    else if p.want < plots.length then ⟨false, none, some (.many plots.length p.want)⟩
    else ⟨true, none, none⟩

/-- The numbers in the names, which only several plots of a rawfile have. -/
def namedSteps (plots : List (PrintPlot R)) : List Nat :=
  if prn = false ∧ 1 < p.want then stepNumbers U p.want plots else []

/-- The plots that are read from a file, when one is there that can be read. -/
def readPlots (file : Option (PrintFile R)) : Option (List (PrintPlot R)) :=
  file.bind fun file => (file.plots prn).toOption

/-- `check_output`; `none` when `next` finds no step that is missing. -/
def checkOutput (file : Option (PrintFile R)) : Option (Check K) :=
  match file with
  | none => some ⟨false, some 0, some .missing⟩
  | some file =>
    match file.plots prn with
    | .error reason => some ⟨false, some 0, some (.unreadable reason)⟩
    | .ok plots =>
      let steps := namedSteps U p prn plots
      if steps ≠ List.range' 1 steps.length then
        ((List.range' 1 p.want).find? fun k => k ∉ steps).map fun missing =>
          ⟨false, some (missing - 1), some (.noPlot missing p.want)⟩
      else some (checkPlots p stop x prn plots)

/-- The point that `classify` puts into `failed_points`, counted from 1. -/
def failedPoint (s : AnalysisStep K) (c : Check K) : Option Nat :=
  match c.firstBad with
  | some j => if s.context ≠ [] ∧ 1 ≤ j / p.per then some (j / p.per + 1) else none
  | none => none

/-- What `classify` leaves of a run that was not stopped, with the exit status `rc`. -/
def classify {V : Type} (s : AnalysisStep K) (c : Check K) (rc : Int) (file : Option (PrintFile R)) (hasX : Bool)
    (make : R → V) : Output K R V where
  status := if rc = 0 ∧ c.complete then .ok else .failed
  failedPoint := if rc = 0 ∧ c.complete then none else failedPoint p s c
  plots := (readPlots prn file).map fun plots => plots.map PrintPlot.rows
  hasX := hasX
  x := x
  make := make

end Checks

/-! ## Complete plots -/

section Complete

variable {K R : Type} [Field K] [LinearOrder K] (U : UnicodeData) (p : Plan) (stop : Option K) (x : R → K)
  (prn : Bool)

/-- The counts of a plot are those planned, and a tran ends at `stop`. -/
structure Sound (plot : PrintPlot R) : Prop where
  declared : plot.declared = some (plot.rows.length : Int)
  planned : ∀ rows, p.rows = some rows → plot.rows.length = rows
  nonempty : p.rows = none → plot.rows ≠ []
  ends : p.rows = none → ∀ t ∈ stop, ∀ r ∈ plot.rows.getLast?, |x r - t| ≤ stopTolerance t

/-- The times of a tran never decrease. -/
def Ascends (plot : PrintPlot R) : Prop := p.rows = none → (plot.rows.map x).IsChain (· ≤ ·)

/-- The name of plot `i` does not give another .STEP point. -/
def InPlace (i : Nat) (plot : PrintPlot R) : Prop :=
  prn = false → 1 < p.want → ∀ k ∈ stepNumber U p.want plot.plotname, k = i + 1

/-- Plot `i` is the complete plot of its .STEP point. -/
structure CompleteAt (i : Nat) (plot : PrintPlot R) : Prop where
  sound : Sound p stop x plot
  ascends : Ascends p x plot
  inPlace : InPlace U p prn i plot

/-- The file holds the planned plots, in order and complete. -/
def Holds (plots : List (PrintPlot R)) : Prop :=
  plots.length = p.want ∧ ∀ i plot, plots[i]? = some plot → CompleteAt U p stop x prn i plot

section Counts

variable (hprn : p.rows = none → prn = false)
include hprn

theorem defect_eq_none_iff (plot : PrintPlot R) :
    defect p stop x prn plot = none ↔ Sound p stop x plot := by
  unfold defect
  constructor
  · intro h
    cases hdecl : plot.declared with
    | none => simp [hdecl] at h
    | some declared =>
      simp only [hdecl] at h
      split at h
      · exact absurd h (by simp)
      · rename_i hcount
        have hd : plot.declared = some (plot.rows.length : Int) := by rw [hdecl, not_not.mp hcount]
        cases hrows : p.rows with
        | some rows =>
          simp only [hrows] at h
          refine ⟨hd, fun r hr => ?_, fun h0 => ?_, fun h0 => ?_⟩
          · rw [hrows, Option.some.injEq] at hr
            by_contra hne
            simp [hr ▸ hne] at h
          · rw [hrows] at h0; cases h0
          · rw [hrows] at h0; cases h0
        | none =>
          simp only [hrows] at h
          split at h
          · exact absurd h (by simp)
          · rename_i hzero
            refine ⟨hd, fun r hr => ?_, fun _ hnil => hzero (by simp [hnil]), fun _ t ht r hr => ?_⟩
            · rw [hrows] at hr; cases hr
            · rw [Option.mem_def] at ht hr
              subst ht
              simp only [hprn hrows, Bool.false_eq_true, if_false, hr, Option.map_some] at h
              by_contra hfar
              simp [not_le.mp hfar] at h
  · intro h
    simp only [h.declared, ne_eq, not_true, if_false]
    cases hrows : p.rows with
    | some rows => simp [h.planned rows hrows]
    | none =>
      have hlen : plot.rows.length ≠ 0 := fun h0 => h.nonempty hrows (List.length_eq_zero_iff.mp h0)
      simp only [hlen, if_false]
      cases stop with
      | none => rfl
      | some t =>
        cases hlast : plot.rows.getLast? with
        | none => simp
        | some r => simp [hprn hrows, h.ends hrows t rfl r hlast]

theorem firstDefect_eq_none_iff (j : Nat) (plots : List (PrintPlot R)) :
    firstDefect p stop x prn j plots = none ↔ ∀ plot ∈ plots, Sound p stop x plot := by
  induction plots generalizing j with
  | nil => simp [firstDefect]
  | cons plot plots ih =>
    unfold firstDefect
    rw [List.forall_mem_cons, ← defect_eq_none_iff p stop x prn hprn]
    cases defect p stop x prn plot with
    | none => simp [ih]
    | some d => simp

/-- The plots before the first one with a defect have none. -/
theorem firstDefect_spec {j k : Nat} {d : Defect K} {plots : List (PrintPlot R)}
    (h : firstDefect p stop x prn j plots = some (k, d)) :
    ∃ i, k = j + i ∧ (∃ plot, plots[i]? = some plot ∧ ¬ Sound p stop x plot) ∧
      ∀ i' < i, ∃ plot, plots[i']? = some plot ∧ Sound p stop x plot := by
  induction plots generalizing j with
  | nil => simp [firstDefect] at h
  | cons plot plots ih =>
    unfold firstDefect at h
    cases hd : defect p stop x prn plot with
    | some d' =>
      simp only [hd, Option.some.injEq, Prod.mk.injEq] at h
      refine ⟨0, by omega, ⟨plot, rfl, fun hs => ?_⟩, fun i' hi' => by omega⟩
      rw [(defect_eq_none_iff p stop x prn hprn plot).mpr hs] at hd
      cases hd
    | none =>
      simp only [hd] at h
      obtain ⟨i, hk, hbad, hgood⟩ := ih h
      refine ⟨i + 1, by omega, by simpa using hbad, fun i' hi' => ?_⟩
      cases i' with
      | zero => exact ⟨plot, rfl, (defect_eq_none_iff p stop x prn hprn plot).mp hd⟩
      | succ i' => simpa using hgood i' (by omega)

end Counts

omit [Field K] in
theorem restarts_eq_false_iff (prev : Option K) (rows : List R) :
    restarts x prev rows = false ↔ (prev.toList ++ rows.map x).IsChain (· ≤ ·) := by
  induction rows generalizing prev with
  | nil => cases prev <;> simp [restarts]
  | cons r rows ih =>
    cases prev with
    | none => simpa [restarts] using ih (some (x r))
    | some t => simpa [restarts, List.isChain_cons_cons] using fun _ => ih (some (x r))

omit [Field K] in
theorem ascends_iff (plot : PrintPlot R) (hrows : p.rows = none) :
    Ascends p x plot ↔ restarts x none plot.rows = false := by
  rw [restarts_eq_false_iff]
  exact ⟨fun h => h hrows, fun h _ => h⟩

end Complete

/-! ## What the check tells -/

section Tells

variable {K R : Type} [Field K] [LinearOrder K] (U : UnicodeData) (p : Plan) (stop : Option K) (x : R → K)
  (prn : Bool) (plots : List (PrintPlot R))

/-- A check that is right about the plots: complete if they are, and the plots before the first bad one are those of
    their points. -/
structure Tells (c : Check K) : Prop where
  complete : c.complete = true ↔ Holds U p stop x prn plots
  before : ∀ j, c.firstBad = some j → ∀ i < j, ∃ plot, plots[i]? = some plot ∧ CompleteAt U p stop x prn i plot

def SoundTo (i : Nat) : Prop := ∀ i' ≤ i, ∀ plot, plots[i']? = some plot → Sound p stop x plot

def AscendTo (i : Nat) : Prop := ∀ i' ≤ i, ∀ plot, plots[i']? = some plot → Ascends p x plot

/-- A time that decreases, or a name that gives another .STEP point, stands after a plot with a defect, or in a file
    with too many plots.  In a file with too few plots a time may decrease. -/
structure NothingMissed : Prop where
  whole : (∃ plot ∈ plots.take p.want, ¬ Sound p stop x plot) ∨ plots.length = p.want →
    ∀ i < p.want, ∀ plot, plots[i]? = some plot → SoundTo p stop x plots i →
      Ascends p x plot ∧ InPlace U p prn i plot
  few : (∀ plot ∈ plots, Sound p stop x plot) → plots.length < p.want →
    ∀ i plot, plots[i]? = some plot → AscendTo p x plots i → InPlace U p prn i plot

/-- A .STEP point has no plot, and the plots of all points before it are complete and come first. -/
def FirstSkipped : Prop :=
  ∃ m, 1 ≤ m ∧ m ≤ p.want ∧ m ∉ namedSteps U p prn plots ∧
    ∀ i, i + 1 < m → ∃ plot, plots[i]? = some plot ∧ CompleteAt U p stop x prn i plot

/-- The defects of the plots are those that the check looks for. -/
def Recognised : Prop :=
  if namedSteps U p prn plots = List.range' 1 (namedSteps U p prn plots).length then
    NothingMissed U p stop x prn plots
  else FirstSkipped U p stop x prn plots

variable {U p stop x prn plots}

omit [Field K] in
theorem firstRestart_eq_none (hprn : p.rows = none → prn = false) (h : firstRestart p x prn plots = none) :
    ∀ plot ∈ plots, Ascends p x plot := by
  intro plot hmem hrows
  rw [firstRestart, if_pos ⟨hrows, hprn hrows⟩, List.findIdx?_eq_none_iff] at h
  exact (ascends_iff p x plot hrows).mpr (h plot hmem) hrows

omit [Field K] in
theorem firstRestart_eq_some {j : Nat} (h : firstRestart p x prn plots = some j) :
    j < plots.length ∧ ¬ AscendTo p x plots j ∧
      ∀ i < j, ∀ plot, plots[i]? = some plot → Ascends p x plot := by
  unfold firstRestart at h
  split at h
  · rename_i hc
    obtain ⟨hj, hbad, hgood⟩ := List.findIdx?_eq_some_iff_getElem.mp h
    refine ⟨hj, fun hall => ?_, fun i hi plot hplot => ?_⟩
    · have hasc := hall j le_rfl plots[j] (List.getElem?_eq_getElem hj)
      rw [ascends_iff p x _ hc.1, hbad] at hasc
      cases hasc
    · obtain ⟨hlen, rfl⟩ := List.getElem?_eq_some_iff.mp hplot
      rw [ascends_iff p x _ hc.1]
      simpa using hgood i hi
  · cases h

theorem not_holds_of_length (h : plots.length ≠ p.want) : ¬ Holds U p stop x prn plots := fun hh => h hh.1

theorem eq_of_getElem? {i : Nat} {plot plot' : PrintPlot R} (h : plots[i]? = some plot)
    (h' : plots[i]? = some plot') : plot = plot' := Option.some.inj (h.symm.trans h')

/-- The check that ends at a plot with a defect. -/
theorem defect_tells_iff (hprn : p.rows = none → prn = false) {k : Nat} {d : Defect K} {why : Option (Why K)}
    (hfd : firstDefect p stop x prn 0 (plots.take p.want) = some (k, d)) :
    Tells U p stop x prn plots ⟨false, some k, why⟩ ↔ NothingMissed U p stop x prn plots := by
  obtain ⟨i, hk, ⟨bad, hbad, hunsound⟩, hgood⟩ := firstDefect_spec p stop x prn hprn hfd
  obtain rfl : k = i := by omega
  have hkw : k < p.want := by
    have hlen := (List.getElem?_eq_some_iff.mp hbad).1
    rw [List.length_take] at hlen
    omega
  have hbad' : plots[k]? = some bad := by rwa [List.getElem?_take_of_lt hkw] at hbad
  have hsound : ∀ i < k, ∃ plot, plots[i]? = some plot ∧ Sound p stop x plot := fun i hi => by
    have h := hgood i hi
    rwa [List.getElem?_take_of_lt (by omega)] at h
  constructor
  · intro h
    refine ⟨fun _ i hi plot hplot hto => ?_, fun hall _ => ?_⟩
    · have hik : i < k := by
        by_contra hge
        exact hunsound (hto k (by omega) bad hbad')
      obtain ⟨plot', hplot', hc⟩ := h.before k rfl i hik
      obtain rfl := eq_of_getElem? hplot hplot'
      exact ⟨hc.ascends, hc.inPlace⟩
    · exact absurd (hall bad (List.mem_of_getElem? hbad')) hunsound
  · intro h
    refine ⟨⟨fun hc => (Bool.false_ne_true hc).elim, fun hh => (hunsound (hh.2 k bad hbad').sound).elim⟩, ?_⟩
    intro j hj i hi
    obtain rfl : k = j := by simpa using hj
    obtain ⟨plot, hplot, hs⟩ := hsound i hi
    have hto : SoundTo p stop x plots i := fun i' hi' plot' hplot' => by
      obtain ⟨plot'', hplot'', hs'⟩ := hsound i' (by omega)
      obtain rfl := eq_of_getElem? hplot' hplot''
      exact hs'
    have hrest := h.whole (Or.inl ⟨bad, List.mem_of_getElem? hbad, hunsound⟩) i (by omega) plot hplot hto
    exact ⟨plot, hplot, hs, hrest.1, hrest.2⟩

/-- The check of a file with too few plots, all of them sound, that names plot `j`: a restart or the end. -/
theorem few_tells_iff (hsound : ∀ plot ∈ plots, Sound p stop x plot) (hfew : plots.length < p.want) {j : Nat}
    {why : Option (Why K)} (hj : j ≤ plots.length) (hrestart : j < plots.length → ¬ AscendTo p x plots j)
    (hasc : ∀ i < j, ∀ plot, plots[i]? = some plot → Ascends p x plot) :
    Tells U p stop x prn plots ⟨false, some j, why⟩ ↔ NothingMissed U p stop x prn plots := by
  constructor
  · intro h
    refine ⟨fun hc => ?_, fun _ _ i plot hplot hto => ?_⟩
    · rcases hc with ⟨plot, hmem, hn⟩ | heq
      · exact absurd (hsound plot (List.mem_of_mem_take hmem)) hn
      · exact absurd heq hfew.ne
    · have hi := (List.getElem?_eq_some_iff.mp hplot).1
      have hij : i < j := by
        by_contra hge
        exact hrestart (by omega) fun i' hi' => hto i' (by omega)
      obtain ⟨plot', hplot', hc⟩ := h.before j rfl i hij
      obtain rfl := eq_of_getElem? hplot hplot'
      exact hc.inPlace
  · intro h
    refine ⟨by simp [not_holds_of_length hfew.ne], fun j' hj' i hi => ?_⟩
    obtain rfl : j = j' := by simpa using hj'
    have hplot : plots[i]? = some plots[i] := List.getElem?_eq_getElem (by omega)
    refine ⟨plots[i], hplot, hsound _ (List.getElem_mem _), hasc i hi _ hplot, ?_⟩
    exact h.few hsound hfew i _ hplot fun i' hi' => hasc i' (by omega)

/-- The check of as many sound plots as planned. -/
theorem whole_tells_iff (hsound : ∀ plot ∈ plots, Sound p stop x plot) (heq : plots.length = p.want) :
    Tells U p stop x prn plots ⟨true, none, none⟩ ↔ NothingMissed U p stop x prn plots := by
  constructor
  · intro h
    have hh := h.complete.mp rfl
    exact ⟨fun _ i _ plot hplot _ => ⟨(hh.2 i plot hplot).ascends, (hh.2 i plot hplot).inPlace⟩,
      fun _ hlt => absurd heq hlt.ne⟩
  · intro h
    refine ⟨⟨fun _ => ⟨heq, fun i plot hplot => ?_⟩, fun _ => rfl⟩, fun j hj => by cases hj⟩
    have hi := (List.getElem?_eq_some_iff.mp hplot).1
    have hrest := h.whole (Or.inr heq) i (by omega) plot hplot fun i' _ plot' hplot' =>
      hsound plot' (List.mem_of_getElem? hplot')
    exact ⟨hsound plot (List.mem_of_getElem? hplot), hrest.1, hrest.2⟩

theorem checkPlots_tells_iff (hprn : p.rows = none → prn = false) :
    Tells U p stop x prn plots (checkPlots p stop x prn plots) ↔ NothingMissed U p stop x prn plots := by
  unfold checkPlots
  cases hfd : firstDefect p stop x prn 0 (plots.take p.want) with
  | some kd => exact defect_tells_iff hprn hfd
  | none =>
    rw [firstDefect_eq_none_iff p stop x prn hprn] at hfd
    rcases lt_trichotomy plots.length p.want with hlt | heq | hgt
    · simp only [hlt, if_true]
      rw [List.take_of_length_le hlt.le] at hfd
      cases hr : firstRestart p x prn plots with
      | some j =>
        obtain ⟨hj, hrestart, hasc⟩ := firstRestart_eq_some hr
        exact few_tells_iff hfd hlt hj.le (fun _ => hrestart) hasc
      | none =>
        have hasc := firstRestart_eq_none hprn hr
        exact few_tells_iff hfd hlt le_rfl (fun h => absurd h (lt_irrefl _)) fun i _ plot hplot =>
          hasc plot (List.mem_of_getElem? hplot)
    · simp only [heq, lt_irrefl, if_false]
      rw [List.take_of_length_le heq.le] at hfd
      exact whole_tells_iff hfd heq
    · simp only [hgt.not_gt, if_false, hgt, if_true]
      refine iff_of_true ⟨by simp [not_holds_of_length hgt.ne'], fun j hj => by cases hj⟩
        ⟨fun hc => ?_, fun _ hlt => ?_⟩
      · rcases hc with ⟨plot, hmem, hn⟩ | heq
        · exact absurd (hfd plot hmem) hn
        · exact absurd heq hgt.ne'
      · exact absurd hlt hgt.not_gt

/-- Where the names count the steps, each gives the number at its place. -/
theorem namedSteps_getElem? (hne : namedSteps U p prn plots ≠ []) {i : Nat} {plot : PrintPlot R}
    (hplot : plots[i]? = some plot) :
    prn = false ∧ 1 < p.want ∧ (namedSteps U p prn plots)[i]? = stepNumber U p.want plot.plotname := by
  unfold namedSteps at hne ⊢
  split at hne
  · rename_i hc
    rw [if_pos hc]
    unfold stepNumbers at hne ⊢
    cases hm : plots.mapM fun plot => stepNumber U p.want plot.plotname with
    | none => simp [hm] at hne
    | some ks =>
      have hall := Traverse.mapM_forall₂ hm
      obtain ⟨hi, rfl⟩ := List.getElem?_eq_some_iff.mp hplot
      have hik : i < ks.length := by rw [← hall.length_eq]; exact hi
      refine ⟨hc.1, hc.2, ?_⟩
      rw [Option.getD_some, List.getElem?_eq_getElem hik]
      exact (hall.get hi hik).symm
  · exact absurd rfl hne

theorem length_namedSteps (hne : namedSteps U p prn plots ≠ []) :
    (namedSteps U p prn plots).length = plots.length := by
  unfold namedSteps stepNumbers at hne ⊢
  split at hne
  · rename_i hc
    rw [if_pos hc]
    cases hm : plots.mapM fun plot => stepNumber U p.want plot.plotname with
    | none => simp [hm] at hne
    | some ks => exact (Traverse.mapM_forall₂ hm).length_eq.symm
  · exact absurd rfl hne

/-- The names are in order where every plot is in place. -/
theorem namedSteps_eq_range' (hall : ∀ i plot, plots[i]? = some plot → InPlace U p prn i plot) :
    namedSteps U p prn plots = List.range' 1 (namedSteps U p prn plots).length := by
  by_cases hne : namedSteps U p prn plots = []
  · simp [hne]
  refine List.ext_getElem (by simp) fun i hi _ => ?_
  rw [length_namedSteps hne] at hi
  have hplot : plots[i]? = some plots[i] := List.getElem?_eq_getElem hi
  obtain ⟨hprn, hwant, hname⟩ := namedSteps_getElem? hne hplot
  rw [List.getElem?_eq_getElem (by rw [length_namedSteps hne]; exact hi)] at hname
  rw [List.getElem_range', hall i _ hplot hprn hwant _ hname.symm]
  omega

/-- The check that names a skipped .STEP point. -/
theorem skipped_tells_iff (horder : namedSteps U p prn plots ≠ List.range' 1 (namedSteps U p prn plots).length)
    {why : Nat → Option (Why K)} :
    (∃ c, (((List.range' 1 p.want).find? fun k => k ∉ namedSteps U p prn plots).map fun missing =>
        (⟨false, some (missing - 1), why missing⟩ : Check K)) = some c ∧ Tells U p stop x prn plots c) ↔
      FirstSkipped U p stop x prn plots := by
  have hne : namedSteps U p prn plots ≠ [] := fun h => horder (by simp [h])
  have hnot : ¬ Holds U p stop x prn plots := fun h =>
    horder (namedSteps_eq_range' fun i plot hplot => (h.2 i plot hplot).inPlace)
  constructor
  · rintro ⟨c, hc, htells⟩
    obtain ⟨m, hm, rfl⟩ := Option.map_eq_some_iff.mp hc
    have hmem := List.mem_range'_1.mp (List.mem_of_find?_eq_some hm)
    have hnm := List.find?_some hm
    refine ⟨m, hmem.1, by omega, by simpa using hnm, fun i hi => htells.before (m - 1) rfl i (by omega)⟩
  · rintro ⟨m, hm1, hmw, hnm, hbefore⟩
    -- every step before `m` is the name of its plot
    have hnamed : ∀ k, 1 ≤ k → k < m → k ∈ namedSteps U p prn plots := fun k hk1 hkm => by
      obtain ⟨plot, hplot, hcomplete⟩ := hbefore (k - 1) (by omega)
      obtain ⟨hprn, hwant, hname⟩ := namedSteps_getElem? hne hplot
      have hlen := (List.getElem?_eq_some_iff.mp hplot).1
      rw [← length_namedSteps hne] at hlen
      rw [List.getElem?_eq_getElem hlen] at hname
      have hk := hcomplete.inPlace hprn hwant _ hname.symm
      rw [show k = (namedSteps U p prn plots)[k - 1] by omega]
      exact List.getElem_mem _
    have hfind : (List.range' 1 p.want).find? (fun k => k ∉ namedSteps U p prn plots) = some m := by
      rw [List.find?_eq_some_iff_getElem]
      refine ⟨by simpa using hnm, m - 1, by rw [List.length_range']; omega, ?_, fun j hj => ?_⟩
      · rw [List.getElem_range']
        omega
      · rw [List.getElem_range']
        simpa using hnamed (1 + 1 * j) (by omega) (by omega)
    refine ⟨_, by rw [hfind]; rfl, by simp [hnot], fun j hj i hi => ?_⟩
    obtain rfl : m - 1 = j := by simpa using hj
    exact hbefore i (by omega)

theorem checkOutput_tells_iff (hprn : p.rows = none → prn = false) {file : Option (PrintFile R)}
    (hread : readPlots prn file = some plots) :
    (∃ c, checkOutput U p stop x prn file = some c ∧ Tells U p stop x prn plots c) ↔
      Recognised U p stop x prn plots := by
  unfold readPlots at hread
  cases file with
  | none => cases hread
  | some file =>
    have hplots : file.plots prn = .ok plots := by
      cases hf : file.plots prn with
      | error reason => simp [hf, Except.toOption] at hread
      | ok ps => simpa [hf, Except.toOption] using hread
    simp only [checkOutput, hplots, Recognised]
    by_cases horder : namedSteps U p prn plots = List.range' 1 (namedSteps U p prn plots).length
    · rw [if_pos horder, if_neg (not_not.mpr horder)]
      simpa using checkPlots_tells_iff hprn
    · rw [if_neg horder, if_pos horder]
      exact skipped_tells_iff horder

end Tells

/-! ## Sweep points -/

section Points

variable {K R V : Type} [Field K] [LinearOrder K] [FloorRing K] (U : UnicodeData) (A : Arith K) (p : Plan) (x : R → K)

/-- The plots of sweep point `g`. -/
def pointPlots (plots : List (PrintPlot R)) (g : Nat) : List (PrintPlot R) := (plots.drop (g * p.per)).take p.per

/-- The points before the one in `failed_points` are converted from the rows of their own complete plots, and the
    others are not converted. -/
structure Converts (s : AnalysisStep K) (plots : List (PrintPlot R)) (l : Loaded K R V) (k : Nat) : Prop where
  before : ∀ g, g + 1 < k → l.groupStatus g = .ok ∧ l.rowSource g = (pointPlots p plots g).flatMap PrintPlot.rows ∧
    (pointPlots p plots g).length = p.per ∧
    ∀ i plot, (pointPlots p plots g)[i]? = some plot → CompleteAt U p (tranStop s) x (prn s) (g * p.per + i) plot
  after : ∀ g, k ≤ g + 1 → l.groupStatus g = .failed

/-- What the claim of a check comes to: it says whether the file is complete, the plots before the bad one that it
    names are, and so are the points that are converted. -/
structure Accounted (s : AnalysisStep K) (file : Option (PrintFile R)) (c : Check K) : Prop where
  complete : c.complete = true ↔
    ∃ plots, readPlots (prn s) file = some plots ∧ Holds U p (tranStop s) x (prn s) plots
  before : ∀ j, c.firstBad = some j → ∀ i < j, ∃ plots plot, readPlots (prn s) file = some plots ∧
    plots[i]? = some plot ∧ CompleteAt U p (tranStop s) x (prn s) i plot
  converts : ∀ (V : Type) (rc : Int) (hasX : Bool) (make : R → V) (k : Nat) (plots : List (PrintPlot R)),
    (classify p x (prn s) s c rc file hasX make).failedPoint = some k → readPlots (prn s) file = some plots →
      Converts U p x s plots (load .xyce s (classify p x (prn s) s c rc file hasX make)) k

variable {A p}

omit [FloorRing K] in
/-- The plots taken one by one from position `a` on. -/
theorem flatMap_getD_take {α : Type} (l : List (List α)) (a n : Nat) (h : a + n ≤ l.length) :
    (List.range n).flatMap (fun j => l.getD (a + j) []) = ((l.drop a).take n).flatten := by
  rw [List.flatMap_def]
  congr 1
  refine List.ext_getElem (by simp; omega) fun j hj _ => ?_
  rw [List.length_map, List.length_range] at hj
  simp only [List.getElem_map, List.getElem_range, List.getElem_take, List.getElem_drop]
  rw [List.getD_eq_getElem?_getD, List.getElem?_eq_getElem (by omega), Option.getD_some]

theorem planned_rows_none {s : AnalysisStep K} {spec : Grid K} (h : planned A s spec = some p)
    (hrows : p.rows = none) : prn s = false := by
  unfold planned at h
  unfold prn
  cases hkind : s.kind <;> simp [hkind] at h ⊢
  cases hown : s.own with
  | none =>
    simp only [hown, Option.some.injEq] at h
    rw [← h] at hrows
    cases hrows
  | some own =>
    cases hfreq : own.freq <;> simp [hown, hfreq] at h
    · rw [← h] at hrows
      cases hrows
    · obtain ⟨n, -, rfl⟩ := h
      cases hrows

theorem planned_stepped {s : AnalysisStep K} {spec : Grid K} (h : planned A s spec = some p)
    (hs : s.ownStepped .xyce = true) : p.rows = some 1 := by
  unfold planned at h
  unfold AnalysisStep.ownStepped AnalysisStep.axis at hs
  cases hown : s.own with
  | none => simp [hown] at hs
  | some own =>
    cases hkind : s.kind <;> cases hfreq : own.freq <;> simp [hkind, hown, hfreq] at h hs <;> simp [← h]

omit [FloorRing K] [Field K] [LinearOrder K] in
theorem classify_failedPoint {s : AnalysisStep K} {c : Check K} {rc : Int} {file : Option (PrintFile R)} {hasX : Bool}
    {make : R → V} {k : Nat} (h : (classify p x (prn s) s c rc file hasX make).failedPoint = some k) :
    (classify p x (prn s) s c rc file hasX make).status = .failed ∧
      ∃ j, c.firstBad = some j ∧ 1 ≤ j / p.per ∧ k = j / p.per + 1 := by
  unfold classify at h ⊢
  by_cases hc : rc = 0 ∧ c.complete = true
  · simp [hc] at h
  · simp only [hc, if_false] at h ⊢
    refine ⟨trivial, ?_⟩
    unfold failedPoint at h
    cases hbad : c.firstBad with
    | none => simp [hbad] at h
    | some j =>
      simp only [hbad, Option.ite_none_right_eq_some, Option.some.injEq] at h
      exact ⟨j, rfl, h.1.2, h.2.symm⟩

/-- What the collector loads of a run that failed at a sweep point. -/
theorem load_failed {s : AnalysisStep K} {spec : Grid K} (hp : planned A s spec = some p) {o : Output K R V}
    {plots : List (PrintPlot R)} (hstatus : o.status = .failed) (hk : o.failedPoint ≠ none)
    (hplots : o.plots = some (plots.map PrintPlot.rows)) (hne : plots ≠ []) (hper : p.per ≠ 0) :
    load .xyce s o = ⟨.xyce, s, o, .failed, plots.map PrintPlot.rows,
      (List.range (plots.length / p.per)).map fun g => ⟨g, 0, none⟩⟩ := by
  cases plots with
  | nil => exact absurd rfl hne
  | cons plot plots =>
    simp only [load, hstatus, hk, hplots, List.map_cons, and_false, if_false, groups, ← planned_per A hp, hper, ne_eq,
      not_false_iff, if_true, List.length_cons, List.length_map]
    simp

theorem converts_of_before {s : AnalysisStep K} {spec : Grid K} (hp : planned A s spec = some p)
    {file : Option (PrintFile R)} {plots : List (PrintPlot R)} (hread : readPlots (prn s) file = some plots)
    {c : Check K} (hbefore : ∀ j, c.firstBad = some j → ∀ i < j, ∃ plot, plots[i]? = some plot ∧
      CompleteAt U p (tranStop s) x (prn s) i plot)
    (rc : Int) (hasX : Bool) (make : R → V) {k : Nat}
    (hk : (classify p x (prn s) s c rc file hasX make).failedPoint = some k) :
    Converts U p x s plots (load .xyce s (classify p x (prn s) s c rc file hasX make)) k := by
  obtain ⟨hstatus, j, hj, hone, rfl⟩ := classify_failedPoint x hk
  have hper : p.per ≠ 0 := fun h0 => by simp [h0] at hone
  have hlen : j ≤ plots.length := by
    cases j with
    | zero => exact Nat.zero_le _
    | succ j =>
      obtain ⟨plot, hplot, -⟩ := hbefore (j + 1) hj j (by omega)
      exact (List.getElem?_eq_some_iff.mp hplot).1
  have hperj : p.per ≤ j := Nat.div_pos_iff.mp hone |>.2
  have hne : plots ≠ [] := List.ne_nil_of_length_pos (by omega)
  have hplots : (classify p x (prn s) s c rc file hasX make).plots = some (plots.map PrintPlot.rows) := by
    simp [classify, hread]
  have hload := load_failed hp hstatus (by rw [hk]; simp) hplots hne hper
  rw [hload]
  refine ⟨fun g hg => ?_, fun g hg => ?_⟩
  · -- all plots of the point stand before the bad one
    have hgj : (g + 1) * p.per ≤ j := (Nat.le_div_iff_mul_le (by omega)).mp (by omega)
    have hend : g * p.per + p.per ≤ plots.length := by rw [← Nat.succ_mul]; exact hgj.trans hlen
    have hgroup : g < plots.length / p.per := (Nat.le_div_iff_mul_le (by omega)).mpr (hgj.trans hlen)
    have hcomplete : ∀ i plot, (pointPlots p plots g)[i]? = some plot →
        CompleteAt U p (tranStop s) x (prn s) (g * p.per + i) plot := fun i plot hplot => by
      rw [pointPlots, List.getElem?_take] at hplot
      split at hplot
      · rename_i hi
        rw [List.getElem?_drop] at hplot
        obtain ⟨plot', hplot', hc⟩ := hbefore j hj (g * p.per + i) (by rw [Nat.succ_mul] at hgj; omega)
        rw [hplot, Option.some.injEq] at hplot'
        exact hplot' ▸ hc
      · cases hplot
    have hlength : (pointPlots p plots g).length = p.per := by
      rw [pointPlots, List.length_take, List.length_drop]
      omega
    refine ⟨?_, ?_, hlength, hcomplete⟩
    · simp [Loaded.groupStatus, hk, hgroup.not_ge, show ¬ j / p.per + 1 ≤ g + 1 by omega]
    · have hgrp : ((List.range (plots.length / p.per)).map fun g => (⟨g, 0, none⟩ : Group))[g]? =
          some ⟨g, 0, none⟩ := by simp [hgroup]
      simp only [Loaded.rowSource, hgrp]
      have hpereq := planned_per A hp
      by_cases hs : s.ownStepped .xyce = true
      · -- each plot holds the one row of its .STEP point
        rw [if_pos hs, ← (by rw [hpereq, if_pos hs] : p.per = s.ownValues.length)]
        have hrow : ∀ plot ∈ pointPlots p plots g, plot.rows.take 1 = plot.rows := fun plot hmem => by
          obtain ⟨i, hi⟩ := List.mem_iff_getElem?.mp hmem
          have hone := (hcomplete i plot hi).sound.planned 1 (planned_stepped hp hs)
          exact List.take_of_length_le hone.le
        have hmap : ∀ n, ((plots.map PrintPlot.rows).getD n []).take 1 =
            (plots.map fun plot => plot.rows.take 1).getD n [] := fun n => by
          simp only [List.getD_eq_getElem?_getD, List.getElem?_map]
          cases plots[n]? <;> simp
        simp only [hmap]
        rw [flatMap_getD_take _ _ _ (by rwa [List.length_map]), ← List.map_drop, ← List.map_take, List.flatMap_def]
        congr 1
        exact List.map_congr_left hrow
      · rw [if_neg hs]
        have hone : p.per = 1 := by rw [hpereq, if_neg hs]
        have hgl : g < plots.length := by rw [hone] at hend; omega
        rw [pointPlots, hone, Nat.mul_one, List.take_one_drop_eq_of_lt_length hgl]
        simp [List.getElem?_eq_getElem hgl]
  · simp [Loaded.groupStatus, hk, hg]

/-- The check accounts for the plots exactly when every defect is one it looks for: a time that decreases, or a plot
    out of place, stands where it is not looked at, and of a skipped point all points before it are complete. -/
theorem accounted_iff {s : AnalysisStep K} {spec : Grid K} (hp : planned A s spec = some p)
    (file : Option (PrintFile R)) :
    (∃ c, checkOutput U p (tranStop s) x (prn s) file = some c ∧ Accounted U p x s file c) ↔
      ∀ plots, readPlots (prn s) file = some plots → Recognised U p (tranStop s) x (prn s) plots := by
  cases hread : readPlots (prn s) file with
  | some plots =>
    simp only [Option.some.injEq, forall_eq']
    rw [← checkOutput_tells_iff (planned_rows_none hp) hread]
    refine exists_congr fun c => and_congr_right fun _ => ⟨fun h => ⟨?_, ?_⟩, fun h => ⟨?_, ?_, ?_⟩⟩
    · simpa [hread] using h.complete
    · simpa [hread] using h.before
    · simpa [hread] using h.complete
    · simpa [hread] using h.before
    · intro V rc hasX make k plots' hk hplots
      rw [hread, Option.some.injEq] at hplots
      subst hplots
      exact converts_of_before U x hp hread h.before rc hasX make hk
  | none =>
    have hcheck : ∃ why, checkOutput U p (tranStop s) x (prn s) file = some ⟨false, some 0, some why⟩ := by
      unfold readPlots at hread
      cases file with
      | none => exact ⟨.missing, rfl⟩
      | some file =>
        cases hf : file.plots (prn s) with
        | error reason => exact ⟨.unreadable reason, by simp [checkOutput, hf]⟩
        | ok plots => simp [hf, Except.toOption] at hread
    obtain ⟨why, hcheck⟩ := hcheck
    refine iff_of_true ⟨_, hcheck, by simp [hread], ?_, ?_⟩ (by simp)
    · intro j hj i hi
      obtain rfl : 0 = j := by simpa using hj
      omega
    · intro V rc hasX make k plots _ hplots
      rw [hread] at hplots
      cases hplots

end Points

/-! ## A skipped point -/

/-- A dc of two points in a sweep of three. -/
def sweptDc : AnalysisStep ℚ where
  id := "vamos_a1"
  name := str "d"
  kind := .dc
  context := [⟨str "swp", [1, 2, 3]⟩]
  own := some ⟨false, [0, 1]⟩
  args := ⟨none, none, none, none, none, none, []⟩

def sweptDcGrid : Grid ℚ :=
  ⟨str "param", [], str "r", .values, none, none, none, none, [0, 1], []⟩

def noPowers : Arith ℚ := ⟨fun x _ => x, id⟩

/-- The plots of the first and of the last point; the first one is short. -/
def shortAndSkipped : PrintFile ℚ where
  readPrn := .ok []
  scan := .ok [⟨str "DC: Step 1 of 3 params: R=1", some 2, [0]⟩, ⟨str "DC: Step 3 of 3 params: R=3", some 2, [0, 1]⟩]

theorem sweptDc_accounted_iff :
    (∃ c, checkOutput .small ⟨3, 1, some 2⟩ (tranStop sweptDc) id (prn sweptDc) (some shortAndSkipped) = some c ∧
      Accounted .small ⟨3, 1, some 2⟩ id sweptDc (some shortAndSkipped) c) ↔
    ∀ plots, readPlots (prn sweptDc) (some shortAndSkipped) = some plots →
      Recognised .small ⟨3, 1, some 2⟩ (tranStop sweptDc) id (prn sweptDc) plots :=
  @accounted_iff _ _ _ _ _ .small noPowers _ id sweptDc sweptDcGrid rfl _

/-- The skipped point is seen first, and the short plot before it counts as good. -/
theorem skipped_after_short :
    planned noPowers sweptDc sweptDcGrid = some ⟨3, 1, some 2⟩ ∧
    ¬ ∃ c, checkOutput .small ⟨3, 1, some 2⟩ (tranStop sweptDc) id (prn sweptDc) (some shortAndSkipped) = some c ∧
      Accounted .small ⟨3, 1, some 2⟩ id sweptDc (some shortAndSkipped) c := by
  refine ⟨rfl, ?_⟩
  rintro ⟨c, hc, h⟩
  have hbad : (checkOutput .small ⟨3, 1, some 2⟩ (tranStop sweptDc) id (prn sweptDc)
      (some shortAndSkipped)).bind Check.firstBad = some 1 := by decide +kernel
  rw [hc] at hbad
  obtain ⟨plots, plot, hread, hplot, hcomplete⟩ := h.before 1 hbad 0 (by decide)
  cases hread
  cases hplot
  exact absurd hcomplete.sound.declared (by decide)

end Vamos.Spectre.Xyce
