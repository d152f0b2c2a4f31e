import Sv2ghdl.Vamos.Spectre.Collect

/-!
# The conversion

`vamos/spectre/flow.py`: the results that are collected are written one file each, and the logFile lists those
of the blocks that are complete when a signal stops the conversion.
-/

namespace Vamos.Spectre

/-! ## The results that are written -/

section Stream

variable {K : Type}

/-- `res.parent`.  The legacy names have no parents. -/
def Entry.parent? (legacy : Bool) : Entry K → Option (Entry K)
  | unswept _ => none
  | parent s depth idx => if depth = 0 then none else some (parent s (depth - 1) idx.dropLast)
  | leaf s idx => if legacy then none else some (parent s (s.context.length - 1) idx.dropLast)

def Entry.isParent : Entry K → Bool
  | parent .. => true
  | _ => false

/-- `_no_output(index.step_of(r))`: no step is looked up for a parent. -/
def dropped (stepOf : Entry K → Option (AnalysisStep K)) (noOutput : AnalysisStep K → Bool) (e : Entry K) :
    Bool :=
  !e.isParent && (stepOf e).any noOutput

/-- `_starts_block`, with whether `e` is a top-level parent. -/
def startsBlock (legacy : Bool) (e : Entry K) (prevTop : Bool) : Bool × Bool :=
  let topParent := e.isParent && (e.parent? legacy).isNone
  let unswept := !e.isParent && (e.parent? legacy).isNone
  (legacy || unswept || (topParent && !prevTop), topParent)

/-! ## The conversion to PSF -/

structure Conversion (K : Type) where
  listed : List (Entry K)
  done : List (Entry K)
  written : List (Entry K)
  prevTop : Bool

namespace Conversion

variable (legacy : Bool) (failed : Entry K → Bool) (c : Conversion K)

def start (e : Entry K) : Conversion K :=
  let starts := startsBlock legacy e c.prevTop
  if starts.1 then { c with listed := c.listed ++ c.done, done := [], prevTop := starts.2 }
  else { c with prevTop := starts.2 }

/-- `write_analysis` writes no file of a failed result. -/
def write (e : Entry K) : Conversion K :=
  { c with done := c.done ++ [e], written := if failed e then c.written else c.written ++ [e] }

def finish : Conversion K := { c with listed := c.listed ++ c.done, done := [] }

/-- Where the conversion may end: before the file of a result is written or while it is, after it, and
    at the end of the stream. -/
def stops : List (Entry K) → Conversion K → List (Conversion K)
  | [], c => [c.finish]
  | e :: rest, c =>
    c.start legacy e :: ((c.start legacy e).write failed e) :: stops rest ((c.start legacy e).write failed e)

end Conversion

/-- `write_logfile` leaves the failed results out. -/
def logFile (failed : Entry K → Bool) (c : Conversion K) : List (Entry K) :=
  c.listed.filter fun e => !failed e

end Stream

section Psf

variable {K R V : Type} [LinearOrder K] [Zero K] [Sub K] [Neg K] [Mul K] (endRel : K)

def Entry.failed (loaded : AnalysisStep K → Loaded K R V) (e : Entry K) : Bool :=
  (e.data endRel loaded).1 = .failed

/-- The states in which the conversion of a plan may end. -/
def psf (legacy : Bool) (loaded : AnalysisStep K → Loaded K R V)
    (stepOf : Entry K → Option (AnalysisStep K)) (noOutput : AnalysisStep K → Bool)
    (steps : List (AnalysisStep K)) : List (Conversion K) :=
  Conversion.stops legacy (Entry.failed endRel loaded)
    ((run legacy steps).filter fun e => !dropped stepOf noOutput e) ⟨[], [], [], false⟩

end Psf

end Vamos.Spectre
