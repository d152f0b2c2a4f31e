import Mathlib.Data.List.DropRight
import Mathlib.Tactic

/-!
# The rows of a tran

`vamos/spectre/results.py` filters the rows of a tran while its consumers read them: points before
`outputstart` and outside the windows are left out, and between `skipstart` and `skipstop` all but one of
every `skipcount`.
-/

namespace Vamos.Spectre.Tran

/-! ## The reader -/

section Reader

variable {K R V : Type} [LinearOrder K] [Zero K] [Neg K] [Sub K] [Mul K]

/-- The arguments of a tran step that its rows depend on, those that are given. -/
structure Args (K : Type) where
  start : Option K
  stop : Option K
  outputstart : Option K
  skipcount : Option Int
  skipstart : Option K
  skipstop : Option K
  timeWindows : List (List K)

/-- `tran_filter`'s settings; no `skipstop` is infinity. -/
structure Filter (K : Type) where
  outputstart : K
  skipcount : Int
  skipstart : K
  skipstop : Option K
  windows : List (K × K)

/-- `zip(tw[0::2], tw[1::2])` -/
def pairs : List K → List (K × K)
  | a :: b :: rest => (a, b) :: pairs rest
  | _ => []

namespace Args

def first (a : Args K) : K := a.start.getD 0

def filter (a : Args K) : Filter K where
  outputstart := a.outputstart.getD a.first
  skipcount := a.skipcount.getD 1
  skipstart := a.skipstart.getD a.first
  skipstop := a.skipstop.or a.stop
  windows := a.timeWindows.flatMap pairs

/-- Whether `tran_filter` returns a filter. -/
def filters (a : Args K) : Bool :=
  !(a.filter.outputstart ≤ a.first && a.filter.skipcount ≤ 1 && a.filter.windows.isEmpty)

def abs (v : K) : K := if v ≤ 0 then -v else v

/-- `end_point`; `endRel` is `END_REL`. -/
def endPoint (endRel : K) (a : Args K) : Option (K × K) :=
  a.stop.map fun stop => (stop, endRel * max (abs stop) (abs (stop - a.first)))

/-- The last x: the planned one, when it is near. -/
def pin (endRel : K) (a : Args K) (x : K) : K :=
  match a.endPoint endRel with
  | some (stop, tolerance) => if abs (x - stop) ≤ tolerance then stop else x
  | none => x

end Args

namespace Filter

def inWindow (f : Filter K) (t : K) : Bool := f.windows.isEmpty || f.windows.any fun w => w.1 ≤ t && t ≤ w.2

/-- Whether `skipcount` counts the point. -/
def counted (f : Filter K) (t : K) : Bool :=
  1 < f.skipcount && f.skipstart ≤ t && f.skipstop.all (t ≤ ·)

/-- `keep`, with the counter `state["k"]` before and after it. -/
def keep (f : Filter K) (k : Nat) (t : K) : Bool × Nat :=
  if t < f.outputstart then (false, k)
  else if !f.inWindow t then (false, k)
  else if f.counted t then (k % f.skipcount = 0, k + 1)
  else (true, k)

end Filter

/-- `keep(xv)`, where there is a filter. -/
def Args.keep (a : Args K) (k : Nat) (t : K) : Bool × Nat := if a.filters then a.filter.keep k t else (true, k)

/-- The generator of `xy_rows`, one row behind: what a consumer takes that stops after `demand` points (`none`
    takes all), and the counter that it leaves. -/
def read (endRel : K) (a : Args K) (x : R → K) (make : R → V) :
    Option Nat → Option (K × V) → Nat → List R → List (K × V) × Nat
  | _, none, k, [] => ([], k)
  | _, some last, k, [] => ([(a.pin endRel last.1, last.2)], k)
  | demand, last, k, row :: rows =>
    let (kept, k) := a.keep k (x row)
    if !kept then read endRel a x make demand last k rows
    else
      match last with
      | none => read endRel a x make demand (some (x row, make row)) k rows
      | some l =>
        if demand = some 1 then ([l], k)
        else
          let (points, k) := read endRel a x make (demand.map (· - 1)) (some (x row, make row)) k rows
          (l :: points, k)

/-- A call of `rows()` with the counter at `k`; nothing is read for no point. -/
def call (endRel : K) (a : Args K) (x : R → K) (make : R → V) (rows : List R) (k : Nat) (demand : Option Nat) :
    List (K × V) × Nat :=
  if demand = some 0 then ([], k) else read endRel a x make demand none k rows

/-- The calls of `rows()` one after the other: what each finds in the counter and takes. -/
def calls (endRel : K) (a : Args K) (x : R → K) (make : R → V) (rows : List R) :
    Nat → List (Option Nat) → List (Nat × Option Nat × List (K × V))
  | _, [] => []
  | k, demand :: demands =>
    let (points, k') := call endRel a x make rows k demand
    (k, demand, points) :: calls endRel a x make rows k' demands

end Reader

/-! ## What is documented -/

section Documented

variable {K R V : Type} [LinearOrder K] [Zero K] [Neg K] [Sub K] [Mul K]

/-- The rows from `outputstart` on, in a window when there are windows. -/
def eligible (a : Args K) (x : R → K) (rows : List R) : List R :=
  rows.filter fun r => a.filter.outputstart ≤ x r && a.filter.inWindow (x r)

/-- Those of them that stay: of the counted ones the first and every `skipcount`-th after it. -/
def documentedRows (a : Args K) (x : R → K) (rows : List R) : List R :=
  ((eligible a x rows).zipIdx.filter fun p => !a.filter.counted (x p.1) ||
    (((eligible a x rows).take p.2).countP fun r => a.filter.counted (x r)) % a.filter.skipcount = 0).map Prod.fst

/-- The last x is replaced. -/
def pinLast (endRel : K) (a : Args K) : List (K × V) → List (K × V)
  | [] => []
  | [p] => [(a.pin endRel p.1, p.2)]
  | p :: q :: l => p :: pinLast endRel a (q :: l)

def documented (endRel : K) (a : Args K) (x : R → K) (make : R → V) (rows : List R) : List (K × V) :=
  pinLast endRel a ((documentedRows a x rows).map fun r => (x r, make r))

/-- The part of a sequence that a consumer takes. -/
def taken {α : Type} (demand : Option Nat) (l : List α) : List α := demand.elim l l.take

/-- No row comes before `outputstart`, or there is a filter. -/
def Started (a : Args K) (x : R → K) (rows : List R) : Prop :=
  a.filters = true ∨ ∀ r ∈ rows, a.filter.outputstart ≤ x r

/-- The counter is at a multiple of `skipcount`, or nothing is counted. -/
def Aligned (a : Args K) (x : R → K) (rows : List R) (k : Nat) : Prop :=
  (k : Int) % a.filter.skipcount = 0 ∨ ∀ r ∈ eligible a x rows, a.filter.counted (x r) = false

end Documented

/-! ## The rows of a call -/

section Kept

variable {K R : Type} [LinearOrder K] [Zero K] {a : Args K} {x : R → K}

variable (a x) in
/-- The rows that a call keeps with the counter at `k`. -/
def kept : Nat → List R → List R
  | _, [] => []
  | k, r :: rows => (if (a.keep k (x r)).1 then [r] else []) ++ kept (a.keep k (x r)).2 rows

/-! ## Thinning -/

variable (a x) in
/-- One of every `skipcount` counted rows, from the counter `k` on. -/
def thin : Nat → List R → List R
  | _, [] => []
  | k, r :: rows =>
    if a.filter.counted (x r) then
      (if (k : Int) % a.filter.skipcount = 0 then [r] else []) ++ thin (k + 1) rows
    else r :: thin k rows

theorem kept_of_filters (h : a.filters = true) (k : Nat) (rows : List R) :
    kept a x k rows = thin a x k (eligible a x rows) := by
  induction rows generalizing k with
  | nil => rfl
  | cons r rows ih =>
    have hstep : a.keep k (x r) = a.filter.keep k (x r) := if_pos h
    rw [kept, hstep, eligible, List.filter_cons, Filter.keep]
    by_cases hearly : x r < a.filter.outputstart
    · simp only [if_pos hearly, decide_eq_false (not_le.mpr hearly), Bool.false_and]
      exact ih k
    · simp only [if_neg hearly, decide_eq_true (not_lt.mp hearly), Bool.true_and]
      cases a.filter.inWindow (x r) with
      | false => exact ih k
      | true =>
        show (if (if a.filter.counted (x r) then _ else _ : Bool × Nat).1 then [r] else []) ++ _ =
          thin a x k (r :: eligible a x rows)
        rw [thin]
        cases a.filter.counted (x r) with
        | true =>
          show (if decide _ then [r] else []) ++ kept a x (k + 1) rows = _
          simp only [ih, decide_eq_true_eq, if_true]
        | false =>
          show [r] ++ kept a x k rows = _
          rw [ih]
          rfl

theorem kept_of_not_filters (h : a.filters = false) (k : Nat) (rows : List R) : kept a x k rows = rows := by
  induction rows generalizing k with
  | nil => rfl
  | cons r rows ih =>
    have hstep : a.keep k (x r) = (true, k) := if_neg (by simp [h])
    rw [kept, hstep, ih]
    rfl

theorem not_counted (h : a.filters = false) (t : K) : a.filter.counted t = false := by
  have hcount : a.filter.skipcount ≤ 1 := by
    simp only [Args.filters, Bool.not_eq_false', Bool.and_eq_true, decide_eq_true_eq] at h
    exact h.1.2
  rw [Filter.counted, decide_eq_false (not_lt.mpr hcount)]
  rfl

theorem thin_uncounted {rows : List R} (h : ∀ r ∈ rows, a.filter.counted (x r) = false) (k : Nat) :
    thin a x k rows = rows := by
  induction rows with
  | nil => rfl
  | cons r rows ih =>
    rw [thin, if_neg (by simp [h r List.mem_cons_self]), ih fun r' hr' => h r' (List.mem_cons_of_mem r hr')]

theorem thin_congr {k k' : Nat} (h : (k : Int) % a.filter.skipcount = k' % a.filter.skipcount) (rows : List R) :
    thin a x k rows = thin a x k' rows := by
  induction rows generalizing k k' with
  | nil => rfl
  | cons r rows ih =>
    have hnext : ((k + 1 : Nat) : Int) % a.filter.skipcount = (k' + 1 : Nat) % a.filter.skipcount := by
      push_cast
      exact Int.ModEq.add_right 1 h
    rw [thin, thin, h, ih h, ih hnext]

/-- What stays of the eligible rows, by the number of counted ones before each. -/
theorem documentedRows_eq (rows : List R) : documentedRows a x rows = thin a x 0 (eligible a x rows) := by
  have hgen : ∀ before l : List R, ((l.zipIdx before.length).filter fun p => !a.filter.counted (x p.1) ||
      (((before ++ l).take p.2).countP fun r => a.filter.counted (x r)) % a.filter.skipcount = 0).map Prod.fst =
        thin a x (before.countP fun r => a.filter.counted (x r)) l := by
    intro before l
    induction l generalizing before with
    | nil => rfl
    | cons r l ih =>
      have hrest := ih (before ++ [r])
      rw [List.length_append, List.length_singleton, List.append_assoc, List.singleton_append] at hrest
      rw [List.zipIdx_cons, List.filter_cons, thin, List.take_left]
      cases hcounted : a.filter.counted (x r) with
      | false =>
        rw [if_pos (by simp), if_neg (by simp), List.map_cons, hrest, List.countP_append,
          List.countP_singleton, hcounted]
        rfl
      | true =>
        rw [List.countP_append, List.countP_singleton, hcounted, if_pos rfl] at hrest
        simp only [Bool.not_true, Bool.false_or, decide_eq_true_eq, if_true]
        split_ifs with hzero
        · rw [List.map_cons, hrest]
          rfl
        · rw [hrest]
          rfl
  exact hgen [] (eligible a x rows)

theorem thin_sublist (k : Nat) (rows : List R) : (thin a x k rows).Sublist rows := by
  induction rows generalizing k with
  | nil => exact List.Sublist.refl []
  | cons r rows ih =>
    rw [thin]
    split_ifs
    · exact (ih (k + 1)).cons_cons r
    · exact (ih (k + 1)).cons r
    · exact (ih k).cons_cons r

/-- A counter that is not at a multiple loses the first counted row. -/
theorem thin_ne {rows : List R} (hnodup : rows.Nodup) {k : Nat} (hk : (k : Int) % a.filter.skipcount ≠ 0)
    (hcounted : ∃ r ∈ rows, a.filter.counted (x r) = true) : thin a x k rows ≠ thin a x 0 rows := by
  induction rows with
  | nil =>
    obtain ⟨r, hr, -⟩ := hcounted
    cases hr
  | cons r rows ih =>
    obtain ⟨hnew, hnodup⟩ := List.nodup_cons.mp hnodup
    rw [thin, thin]
    split_ifs with hr hzero
    · intro heq
      have hmem : r ∈ thin a x (k + 1) rows := by
        have hhead : r ∈ [r] ++ thin a x (0 + 1) rows := List.mem_cons_self
        rwa [← heq] at hhead
      exact hnew ((thin_sublist (k + 1) rows).subset hmem)
    · exact absurd (by simp) hzero
    · intro heq
      obtain ⟨r', hr', hcounted'⟩ := hcounted
      rcases List.mem_cons.mp hr' with rfl | hr'
      · exact hr hcounted'
      · exact ih hnodup ⟨r', hr', hcounted'⟩ (List.cons.inj heq).2

end Kept

/-! ## What a consumer takes -/

section Calls

variable {K R V : Type} [LinearOrder K] [Zero K] [Neg K] [Sub K] [Mul K] {a : Args K} {x : R → K}

/-- A call takes the rows that it keeps. -/
theorem read_fst {endRel : K} {make : R → V} {demand : Option Nat} (hdemand : demand ≠ some 0)
    (last : Option (K × V)) (k : Nat) (rows : List R) : (read endRel a x make demand last k rows).1 =
      taken demand (pinLast endRel a (last.toList ++ (kept a x k rows).map fun r => (x r, make r))) := by
  -- A demand is for all points or for at least one.
  have hpos : ∀ n, demand = some n → ∃ m, n = m + 1 := fun n hn =>
    Nat.exists_eq_succ_of_ne_zero fun hzero => hdemand (hn.trans (congrArg some hzero))
  induction rows generalizing demand last k with
  | nil =>
    cases last with
    | none => cases demand <;> simp [read, kept, pinLast, taken]
    | some l =>
      cases demand with
      | none => simp [read, kept, pinLast, taken]
      | some n =>
        obtain ⟨m, rfl⟩ := hpos n rfl
        simp [read, kept, pinLast, taken]
  | cons r rows ih =>
    rcases hkeep : a.keep k (x r) with ⟨b, k'⟩
    have hkept : kept a x k (r :: rows) = (if b then [r] else []) ++ kept a x k' rows := by
      simp only [kept, hkeep]
    rw [hkept, read, hkeep]
    cases b with
    | false => exact ih hdemand last k' hpos
    | true =>
      cases last with
      | none => exact ih hdemand (some (x r, make r)) k' hpos
      | some l =>
        by_cases hone : demand = some 1
        · subst hone
          rfl
        · have hless : ∀ n, demand.map (· - 1) = some n → ∃ m, n = m + 1 := by
            intro n hn
            obtain ⟨m, hm, rfl⟩ := Option.map_eq_some_iff.mp hn
            obtain ⟨m, rfl⟩ := hpos m hm
            refine Nat.exists_eq_succ_of_ne_zero fun hzero => hone (hm.trans (congrArg some ?_))
            omega
          have hnext : demand.map (· - 1) ≠ some 0 := fun h => by
            obtain ⟨m, hm⟩ := hless 0 h
            cases hm
          have hrest := ih hnext (some (x r, make r)) k' hless
          show (if demand = some 1 then ([l], k') else _).1 = _
          rw [if_neg hone]
          show l :: (read endRel a x make (demand.map (· - 1)) (some (x r, make r)) k' rows).1 = _
          rw [hrest]
          cases demand with
          | none => rfl
          | some n =>
            obtain ⟨m, rfl⟩ := hpos n rfl
            rfl

theorem call_fst (endRel : K) (make : R → V) (rows : List R) (k : Nat) (demand : Option Nat) :
    (call endRel a x make rows k demand).1 =
      taken demand (pinLast endRel a ((kept a x k rows).map fun r => (x r, make r))) := by
  rw [call]
  split_ifs with h
  · rw [h]
    rfl
  · exact read_fst h none k rows

/-- From a multiple of `skipcount` on, a call takes what is documented. -/
theorem call_documented (endRel : K) (make : R → V) {rows : List R} (hstart : Started a x rows) {k : Nat}
    (hk : Aligned a x rows k) (demand : Option Nat) :
    (call endRel a x make rows k demand).1 = taken demand (documented endRel a x make rows) := by
  have hthin : thin a x k (eligible a x rows) = documentedRows a x rows := by
    rw [documentedRows_eq]
    rcases hk with hk | hk
    · exact thin_congr (hk.trans (by simp)) _
    · rw [thin_uncounted hk, thin_uncounted hk]
  have hkept : kept a x k rows = documentedRows a x rows := by
    cases hfilters : a.filters with
    | true => rw [kept_of_filters hfilters, hthin]
    | false =>
      rw [kept_of_not_filters hfilters, ← hthin, thin_uncounted fun r _ => not_counted hfilters (x r), eligible]
      have hearly := hstart.resolve_left (by simp [hfilters])
      have hwindows : a.filter.windows.isEmpty = true := by
        simp only [Args.filters, Bool.not_eq_false', Bool.and_eq_true] at hfilters
        exact hfilters.2
      refine (List.filter_eq_self.mpr fun r hr => ?_).symm
      rw [decide_eq_true (hearly r hr), Filter.inWindow, hwindows]
      rfl
  rw [call_fst, hkept, documented]

theorem length_pinLast (endRel : K) (l : List (K × V)) : (pinLast endRel a l).length = l.length := by
  induction l with
  | nil => rfl
  | cons p l ih =>
    cases l with
    | nil => rfl
    | cons q l => exact congrArg (· + 1) ih

/-- Sequences with one pinned last x agree up to pinning. -/
theorem pinLast_inj {endRel : K} {l l' : List (K × V)} (h : pinLast endRel a l = pinLast endRel a l') :
    l.map (fun p => a.pin endRel p.1) = l'.map fun p => a.pin endRel p.1 := by
  induction l generalizing l' with
  | nil =>
    have hlen := congrArg List.length h
    rw [length_pinLast, length_pinLast] at hlen
    rw [List.length_eq_zero_iff.mp hlen.symm]
  | cons p l ih =>
    have hlen := congrArg List.length h
    rw [length_pinLast, length_pinLast] at hlen
    cases l' with
    | nil => cases hlen
    | cons p' l' =>
      cases l with
      | nil =>
        obtain rfl : l' = [] := List.length_eq_zero_iff.mp (by simpa using hlen.symm)
        have hx : a.pin endRel p.1 = a.pin endRel p'.1 := congrArg Prod.fst (List.cons.inj h).1
        rw [List.map_singleton, List.map_singleton, hx]
      | cons q l =>
        cases l' with
        | nil => simp at hlen
        | cons q' l' =>
          obtain ⟨hhead, htail⟩ := List.cons.inj h
          show _ :: (q :: l).map _ = _ :: (q' :: l').map _
          rw [ih htail, hhead]

/-- Parts of a list on which a function is injective are told apart by it. -/
theorem eq_of_map_eq {α β : Type} {f : α → β} {whole l l' : List α} (hf : (whole.map f).Nodup)
    (hl : ∀ r ∈ l, r ∈ whole) (hl' : ∀ r ∈ l', r ∈ whole) (h : l.map f = l'.map f) : l = l' := by
  induction l generalizing l' with
  | nil => exact (List.map_eq_nil_iff.mp h.symm).symm
  | cons r l ih =>
    cases l' with
    | nil => cases h
    | cons r' l' =>
      obtain ⟨hhead, htail⟩ := List.cons.inj h
      have heq := List.inj_on_of_nodup_map hf (hl r List.mem_cons_self) (hl' r' List.mem_cons_self) hhead
      rw [heq, ih (fun s hs => hl s (List.mem_cons_of_mem r hs)) (fun s hs => hl' s (List.mem_cons_of_mem r' hs))
        htail]

/-- Where the x values differ, a call for all points takes what is documented only from a multiple of
    `skipcount` on. -/
theorem aligned_of_documented {endRel : K} {make : R → V} {rows : List R}
    (hnodup : (rows.map fun r => a.pin endRel (x r)).Nodup) {k : Nat}
    (h : (call endRel a x make rows k none).1 = documented endRel a x make rows) :
    Started a x rows ∧ Aligned a x rows k := by
  rw [call_fst, documented] at h
  have hmap := pinLast_inj h
  rw [List.map_map, List.map_map] at hmap
  have heligible : ∀ r ∈ eligible a x rows, r ∈ rows := fun r hr => (List.mem_filter.mp hr).1
  have hthin : ∀ k, ∀ r ∈ thin a x k (eligible a x rows), r ∈ rows := fun k r hr =>
    heligible r ((thin_sublist k _).subset hr)
  rw [documentedRows_eq] at hmap
  cases hfilters : a.filters with
  | true =>
    rw [kept_of_filters hfilters] at hmap
    have hsame := eq_of_map_eq hnodup (hthin k) (hthin 0) hmap
    refine ⟨.inl hfilters, ?_⟩
    by_contra hnot
    obtain ⟨hk, hcounted⟩ := not_or.mp hnot
    have hrows : (eligible a x rows).Nodup := (List.Nodup.of_map _ hnodup).filter _
    refine thin_ne hrows hk ?_ hsame
    by_contra hnone
    refine hcounted fun r hr => ?_
    rw [← Bool.not_eq_true]
    exact fun htrue => hnone ⟨r, hr, htrue⟩
  | false =>
    have hnone : ∀ r ∈ eligible a x rows, a.filter.counted (x r) = false := fun r _ => not_counted hfilters (x r)
    rw [kept_of_not_filters hfilters, thin_uncounted hnone] at hmap
    have hsame := eq_of_map_eq hnodup (fun r hr => hr) heligible hmap
    refine ⟨.inr fun r hr => ?_, .inr hnone⟩
    rw [hsame] at hr
    have hcond := (List.mem_filter.mp hr).2
    rw [Bool.and_eq_true, decide_eq_true_eq] at hcond
    exact hcond.1

theorem mem_calls {endRel : K} {make : R → V} {rows : List R} {k : Nat} {demands : List (Option Nat)}
    {c : Nat × Option Nat × List (K × V)} (h : c ∈ calls endRel a x make rows k demands) :
    c.2.2 = (call endRel a x make rows c.1 c.2.1).1 := by
  induction demands generalizing k with
  | nil => cases h
  | cons demand demands ih =>
    rcases List.mem_cons.mp h with rfl | h
    · rfl
    · exact ih h

/-- In a run of calls every call that finds the counter at a multiple of `skipcount`, or has nothing to count,
    takes the documented points; where the x values differ, the other calls for all points do not. -/
theorem calls_documented (endRel : K) (a : Args K) (x : R → K) (make : R → V) (rows : List R)
    (demands : List (Option Nat)) :
    (∀ c ∈ calls endRel a x make rows 0 demands, Started a x rows ∧ Aligned a x rows c.1 →
      c.2.2 = taken c.2.1 (documented endRel a x make rows)) ∧
    ((rows.map fun r => a.pin endRel (x r)).Nodup →
      ∀ c ∈ calls endRel a x make rows 0 demands, c.2.1 = none →
        (c.2.2 = documented endRel a x make rows ↔ Started a x rows ∧ Aligned a x rows c.1)) := by
  constructor
  · intro c hc ⟨hstart, hk⟩
    rw [mem_calls hc]
    exact call_documented endRel make hstart hk c.2.1
  · intro hnodup c hc hall
    rw [mem_calls hc, hall]
    exact ⟨aligned_of_documented hnodup, fun ⟨hstart, hk⟩ => call_documented endRel make hstart hk none⟩

end Calls

/-! ## Three points -/

/-- `stop=2 skipcount=2` -/
def everySecond : Args Rat := ⟨none, some 2, none, some 2, none, none, []⟩

/-- The second of two calls takes another point than the first. -/
theorem everySecond_differs : ¬∀ c ∈ calls (1 / 10 ^ 9) everySecond id id [0, 1, 2] 0 [none, none],
    c.2.2 = taken c.2.1 (documented (1 / 10 ^ 9) everySecond id id [0, 1, 2]) := by
  decide +kernel

end Vamos.Spectre.Tran
