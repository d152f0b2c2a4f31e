import Sv2ghdl.Lists.Lookup
import Sv2ghdl.Vamos.Netlist.SpiceDeck

/-!
# What a deck reads

Reading a deck ends, and reads each file and section once in a scope, as long as no file or section is read again
while it is being read.
-/

open Python

namespace Vamos.Netlist.Spice

variable (os : Os)

/-! ## One step -/

/-- Only notes are added. -/
structure Quiet (σ σ' : State) : Prop where
  jobs : σ'.jobs = σ.jobs
  frames : σ'.frames = σ.frames
  opened : σ'.opened = σ.opened
  next : σ'.next = σ.next
  expanded : σ'.expanded = σ.expanded
  items : σ'.items = σ.items

/-- The first call of a key is marked and begins to read; a missing section has nothing to read. -/
structure Begins (σ σ' : State) (key : Key) (file : File) : Prop where
  jobs : σ'.jobs = σ.jobs
  frames : σ'.frames = (frameOf file key.sec).toList ++ σ.frames
  opened : σ'.opened = σ.opened
  next : σ'.next = σ.next
  expanded : σ'.expanded.map Prod.fst = key :: σ.expanded.map Prod.fst
  items : σ'.items = σ.items

/-- A call: the first one of its key begins to read, a later one is noted. -/
def Calls (σ σ' : State) (key : Key) (file : File) : Prop :=
  (σ.expanded.lookup key = none → Begins σ σ' key file) ∧ (σ.expanded.lookup key ≠ none → Quiet σ σ')

theorem Quiet.refl (σ : State) : Quiet σ σ := ⟨rfl, rfl, rfl, rfl, rfl, rfl⟩

theorem quiet_add (σ : State) (notes : List Note) : Quiet σ (σ.add notes) := ⟨rfl, rfl, rfl, rfl, rfl, rfl⟩

theorem quiet_loading (σ : State) (f : File) (title : Bool) : Quiet σ (σ.loading f title) := by
  unfold State.loading
  split <;> exact ⟨rfl, rfl, rfl, rfl, rfl, rfl⟩

theorem Quiet.trans {σ τ υ : State} (h : Quiet σ τ) (h' : Quiet τ υ) : Quiet σ υ where
  jobs := h'.jobs.trans h.jobs
  frames := h'.frames.trans h.frames
  opened := h'.opened.trans h.opened
  next := h'.next.trans h.next
  expanded := h'.expanded.trans h.expanded
  items := h'.items.trans h.items

theorem Quiet.scope {σ τ : State} (h : Quiet σ τ) : τ.scope = σ.scope := by
  unfold State.scope
  rw [h.opened]

/-- `expanded[key] = origin`, the `load` and the `run` that begins. -/
theorem begins_enter {σ : State} (key : Key) (origin : Str) (file : File) (title : Bool) :
    Begins σ (((σ.expand key origin).loading file title).enter file key.sec) key file := by
  have hload := quiet_loading (σ.expand key origin) file title
  exact ⟨hload.jobs, congrArg (_ ++ ·) hload.frames, hload.opened, hload.next,
    congrArg (List.map Prod.fst) hload.expanded, hload.items⟩

theorem Quiet.begins {σ τ υ : State} {key : Key} {file : File} (h : Quiet σ τ) (h' : Begins τ υ key file) :
    Begins σ υ key file where
  jobs := h'.jobs.trans h.jobs
  frames := h'.frames.trans (congrArg (_ ++ ·) h.frames)
  opened := h'.opened.trans h.opened
  next := h'.next.trans h.next
  expanded := h'.expanded.trans (congrArg (fun e => key :: e.map Prod.fst) h.expanded)
  items := h'.items.trans h.items

theorem Begins.quiet {σ τ υ : State} {key : Key} {file : File} (h : Begins σ τ key file) (h' : Quiet τ υ) :
    Begins σ υ key file where
  jobs := h'.jobs.trans h.jobs
  frames := h'.frames.trans h.frames
  opened := h'.opened.trans h.opened
  next := h'.next.trans h.next
  expanded := (congrArg (List.map Prod.fst) h'.expanded).trans h.expanded
  items := h'.items.trans h.items

/-- A request makes the call that it asks for, or only leaves a note. -/
theorem request_spec (σ : State) (f : File) (st : Stmt) (r : Request) :
    match requested os σ f st r with
    | some (key, file) => Calls σ (request os σ f st r) key file
    | none => Quiet σ (request os σ f st r) := by
  cases r with
  | file name sec =>
    unfold requested request
    dsimp only
    generalize os.resolve name (baseOf os f st) st.origin
      (if sec.getD [] = [] then str "include file" else str ".lib file") = found
    obtain ⟨path, notes⟩ := found
    have hnotes := quiet_add σ notes
    cases path with
    | none => exact hnotes
    | some path =>
      dsimp only [Option.map_some]
      have hscope : (σ.add notes).scope = σ.scope := hnotes.scope
      have hexpanded : (σ.add notes).expanded = σ.expanded := rfl
      rw [hscope, hexpanded]
      constructor
      · intro hfirst
        rw [hfirst]
        have hbegins := begins_enter (σ := σ.add notes) ⟨os.realpath path, sec, σ.scope⟩ st.origin
          (os.load path false) false
        cases sec with
        | none => exact hnotes.begins hbegins
        | some wanted =>
          dsimp only
          split
          · exact hnotes.begins hbegins
          · rename_i hmissing
            -- without the section, `enter` would add no frame
            have hnone : frameOf (os.load path false) (some wanted) = none := by
              rw [frameOf, Option.map_eq_none_iff]
              exact Option.not_isSome_iff_eq_none.mp hmissing
            refine hnotes.begins ⟨hbegins.jobs, ?_, hbegins.opened, hbegins.next, hbegins.expanded, hbegins.items⟩
            have hload := quiet_loading ((σ.add notes).expand ⟨os.realpath path, some wanted, σ.scope⟩ st.origin)
              (os.load path false) false
            rw [hnone]
            exact hload.frames
      · intro hlater
        cases hlook : σ.expanded.lookup ⟨os.realpath path, sec, σ.scope⟩ with
        | none => exact absurd hlook hlater
        | some first => exact hnotes.trans (quiet_add _ _)
  | own name sec =>
    unfold requested request
    dsimp only
    cases hsec : f.sections.lookup sec with
    | none =>
      dsimp only [Option.isSome_none, Option.isNone_none]
      exact quiet_add _ _
    | some entry =>
      dsimp only [Option.isSome_some, Option.isNone_some]
      rw [if_pos rfl, if_neg Bool.false_ne_true]
      constructor
      · intro hfirst
        rw [hfirst]
        exact ⟨rfl, rfl, rfl, rfl, rfl, rfl⟩
      · intro hlater
        cases hlook : σ.expanded.lookup ⟨os.realpath f.path, some sec, σ.scope⟩ with
        | none => exact absurd hlook hlater
        | some first => exact quiet_add _ _

/-- No call is made: the jobs, the open calls and the marks are kept. -/
structure Stays (σ σ' : State) : Prop where
  jobs : σ'.jobs = σ.jobs
  frames : σ'.frames = σ.frames
  expanded : σ'.expanded = σ.expanded

theorem Quiet.stays {σ τ : State} (h : Quiet σ τ) : Stays σ τ := ⟨h.jobs, h.frames, h.expanded⟩

theorem stays_dSubckt (σ : State) (st : Stmt) : Stays σ (dSubckt os σ st) := by
  unfold dSubckt
  dsimp only
  split <;> exact ⟨rfl, rfl, rfl⟩

theorem stays_dEnds (σ : State) (st : Stmt) : Stays σ (dEnds os σ st) := by
  unfold dEnds
  dsimp only
  split
  · exact ⟨rfl, rfl, rfl⟩
  · split
    · split <;> exact ⟨rfl, rfl, rfl⟩
    · exact ⟨rfl, rfl, rfl⟩

theorem statement_stays {σ : State} {f : File} {st : Stmt} {sec : Option Str}
    (h : ∀ r, asked os st sec ≠ some (.ok r)) : Stays σ (statement os σ f st sec) := by
  unfold statement
  split
  · exact (quiet_add _ _).stays
  · rename_i r hr
    exact absurd hr (h r)
  · split
    · split
      · exact stays_dSubckt os σ st
      · exact stays_dEnds os σ st
      · exact ⟨rfl, rfl, rfl⟩
      · exact ⟨rfl, rfl, rfl⟩
      · exact (Quiet.refl σ).stays
    · exact ⟨rfl, rfl, rfl⟩

theorem lt_of_skipFrom {closer : Str} {opener : Option Str} {stmts : List Stmt} {i depth j : Nat}
    (h : skipFrom os closer opener stmts i depth = some j) : i < j := by
  induction stmts generalizing i depth with
  | nil => cases h
  | cons st stmts ih =>
    rw [skipFrom] at h
    split at h
    · split at h
      · rw [Option.some.injEq] at h
        omega
      · exact Nat.lt_of_succ_lt (ih h)
    · exact Nat.lt_of_succ_lt (ih h)

theorem lt_skipTo {fr : Frame} (hlt : fr.i < fr.stop) (st : Stmt) (closer : Str) (opener : Option Str) :
    fr.i < (skipTo os fr st closer opener).1 := by
  unfold skipTo
  split
  · rename_i j hj
    exact Nat.lt_of_succ_lt (lt_of_skipFrom os hj)
  · exact hlt

/-- The innermost call ends or goes on further down. -/
def GoesOn (fr : Frame) (frames frames' : List Frame) : Prop :=
  frames' = frames ∨ fr.i < fr.stop ∧ ∃ j, fr.i < j ∧ frames' = { fr with i := j } :: frames

theorem dot_of_asked {st : Stmt} {sec : Option Str} {r : Except Str Request} (h : asked os st sec = some r) :
    dot (st.kw os.U) = some .inc ∨ dot (st.kw os.U) = some .lib := by
  unfold asked at h
  split at h
  · rename_i hdot
    exact .inl hdot
  · rename_i hdot
    exact .inr hdot
  · cases h

/-- A file statement is passed and its request made. -/
theorem turn_request (σ : State) {fr : Frame} (frames : List Frame) {st : Stmt} {r : Request}
    (h : asked os st fr.sec = some (.ok r)) : turn os σ fr frames st =
      request os { σ with frames := { fr with i := fr.i + 1 } :: frames } fr.file st r := by
  unfold turn
  dsimp only
  rcases dot_of_asked os h with hdot | hdot
  · rw [hdot]
    dsimp only
    unfold statement
    rw [h]
  · rw [hdot]
    dsimp only
    unfold statement
    rw [h]

/-- Another statement makes no call. -/
theorem turn_goesOn (σ : State) {fr : Frame} (frames : List Frame) {st : Stmt} (hlt : fr.i < fr.stop)
    (h : ∀ r, asked os st fr.sec ≠ some (.ok r)) :
    (turn os σ fr frames st).jobs = σ.jobs ∧ (turn os σ fr frames st).expanded = σ.expanded ∧
      GoesOn fr frames (turn os σ fr frames st).frames := by
  have hnext : ∀ j, fr.i < j → GoesOn fr frames ({ fr with i := j } :: frames) :=
    fun j hj => .inr ⟨hlt, j, hj, rfl⟩
  have hone := hnext _ (Nat.lt_succ_self fr.i)
  unfold turn
  dsimp only
  split
  · exact ⟨rfl, rfl, .inl rfl⟩
  · exact ⟨rfl, rfl, .inl rfl⟩
  · exact ⟨rfl, rfl, hnext _ (lt_skipTo os hlt st _ _)⟩
  · exact ⟨rfl, rfl, hone⟩
  · split
    · exact ⟨rfl, rfl, hnext _ (lt_skipTo os hlt st _ _)⟩
    · exact ⟨rfl, rfl, hone⟩
  · exact ⟨rfl, rfl, hone⟩
  · have hstays := statement_stays os (σ := { σ with frames := { fr with i := fr.i + 1 } :: frames })
      (f := fr.file) h
    exact ⟨hstays.jobs, hstays.expanded, hstays.frames ▸ hone⟩

/-- A netlist of `read` is a call in the top scope. -/
theorem startJob_netlist (σ : State) (first : Bool) (ref origin : Str) :
    match (os.resolve ref (os.originDir origin) origin (str "netlist")).1 with
    | some path =>
      Calls σ (startJob os σ (.netlist first ref origin)) ⟨os.realpath path, none, σ.scope⟩ (os.load path first)
    | none => Quiet σ (startJob os σ (.netlist first ref origin)) := by
  unfold startJob
  dsimp only
  generalize os.resolve ref (os.originDir origin) origin (str "netlist") = found
  obtain ⟨path, notes⟩ := found
  have hnotes := quiet_add σ notes
  cases path with
  | none => exact hnotes
  | some path =>
    dsimp only
    have hscope : (σ.add notes).scope = σ.scope := hnotes.scope
    have hexpanded : (σ.add notes).expanded = σ.expanded := rfl
    rw [hscope, hexpanded]
    constructor
    · intro hfirst
      rw [hfirst]
      have hbegins := begins_enter (σ := σ.add notes) ⟨os.realpath path, none, σ.scope⟩ path (os.load path first) first
      exact (hnotes.begins hbegins).quiet ⟨rfl, rfl, rfl, rfl, rfl, rfl⟩
    · intro hlater
      cases hlook : σ.expanded.lookup ⟨os.realpath path, none, σ.scope⟩ with
      | none => exact absurd hlook hlater
      | some before => exact hnotes.trans (quiet_add _ _)

/-- A step with a call: the innermost call or `read` is past the statement or the netlist, and the call is made. -/
theorem step_call {σ σ' : State} {key : Key} {file : File} (h : step os σ = some σ')
    (hcall : call os σ = some (key, file)) :
    ∃ τ : State, (τ.frames = σ.past ∧ τ.expanded = σ.expanded ∧ τ.items = σ.items) ∧
      (σ.frames ≠ [] → τ.jobs = σ.jobs) ∧ (σ.frames = [] → τ.jobs = σ.jobs.tail ∧ σ.jobs ≠ []) ∧
      Calls τ σ' key file := by
  unfold call at hcall
  unfold step at h
  unfold State.past
  cases hframes : σ.frames with
  | cons fr frames =>
    rw [hframes] at h hcall
    dsimp only at h hcall
    split at hcall
    · rename_i hturn
      rw [if_pos hturn.1, hturn.2] at h
      dsimp only at h
      split at hcall
      · rename_i st hst
        rw [hst] at h
        dsimp only at h
        split at hcall
        · rename_i r hasked
          let τ : State := { σ with frames := { fr with i := fr.i + 1 } :: frames }
          have hspec := request_spec os τ fr.file st r
          rw [show requested os τ fr.file st r = requested os σ fr.file st r by cases r <;> rfl, hcall] at hspec
          rw [turn_request os σ frames hasked, Option.some.injEq] at h
          rw [← h]
          exact ⟨τ, ⟨rfl, rfl, rfl⟩, fun _ => rfl, nofun, hspec⟩
        · cases hcall
      · cases hcall
    · cases hcall
  | nil =>
    rw [hframes] at h hcall
    dsimp only at h hcall
    split at hcall
    · rename_i first ref origin jobs hopened hjobs
      rw [hopened, hjobs] at h
      dsimp only at h
      rw [Option.some.injEq] at h
      rw [← h]
      let τ : State := { σ with jobs := jobs, frames := [], opened := [] }
      have hspec := startJob_netlist os τ first ref origin
      have hscope : σ.scope = τ.scope := by
        unfold State.scope
        rw [hopened]
      rw [hscope] at hcall
      cases hpath : (os.resolve ref (os.originDir origin) origin (str "netlist")).1 with
      | none =>
        rw [hpath] at hcall
        cases hcall
      | some path =>
        rw [hpath, Option.map_some, Option.some.injEq, Prod.mk.injEq] at hcall
        rw [hpath] at hspec
        rw [← hcall.1, ← hcall.2]
        exact ⟨τ, ⟨rfl, rfl, rfl⟩, fun hne => absurd rfl hne, fun _ => ⟨by rw [hjobs]; rfl, by rw [hjobs]; nofun⟩,
          hspec⟩
    · cases hcall

/-- A step without a call in an open call. -/
theorem step_goesOn {σ σ' : State} {fr : Frame} {frames : List Frame} (hframes : σ.frames = fr :: frames)
    (h : step os σ = some σ') (hcall : call os σ = none) : σ'.jobs = σ.jobs ∧ σ'.expanded = σ.expanded ∧
      ((∀ entry ∈ fr.skip, entry.1 ≤ entry.2) → GoesOn fr frames σ'.frames) := by
  unfold call at hcall
  unfold step at h
  rw [hframes] at h hcall
  dsimp only at h hcall
  split at h
  · rename_i hlt
    cases hlook : fr.skip.lookup fr.i with
    | some stop =>
      rw [hlook] at h
      dsimp only at h
      rw [Option.some.injEq] at h
      rw [← h]
      refine ⟨rfl, rfl, fun hskip => ?_⟩
      have hle : fr.i ≤ stop := hskip (fr.i, stop) (Lookup.mem_of_lookup hlook)
      exact .inr ⟨hlt, stop + 1, Nat.lt_succ_of_le hle, rfl⟩
    | none =>
      rw [if_pos ⟨hlt, hlook⟩] at hcall
      rw [hlook] at h
      dsimp only at h
      cases hst : fr.file.stmts[fr.i]? with
      | none =>
        rw [hst] at h
        dsimp only at h
        rw [Option.some.injEq] at h
        rw [← h]
        exact ⟨rfl, rfl, fun _ => .inl rfl⟩
      | some st =>
        rw [hst] at h hcall
        dsimp only at h hcall
        rw [Option.some.injEq] at h
        rw [← h]
        cases hasked : asked os st fr.sec with
        | none =>
          obtain ⟨hjobs, hexpanded, hgoes⟩ := turn_goesOn os σ frames hlt fun r hr => nomatch hasked.symm.trans hr
          exact ⟨hjobs, hexpanded, fun _ => hgoes⟩
        | some asks =>
          cases asks with
          | error message =>
            obtain ⟨hjobs, hexpanded, hgoes⟩ := turn_goesOn os σ frames hlt fun r hr => nomatch hasked.symm.trans hr
            exact ⟨hjobs, hexpanded, fun _ => hgoes⟩
          | ok r =>
            rw [hasked] at hcall
            dsimp only at hcall
            rw [turn_request os σ frames hasked]
            let τ : State := { σ with frames := { fr with i := fr.i + 1 } :: frames }
            have hspec := request_spec os τ fr.file st r
            rw [show requested os τ fr.file st r = requested os σ fr.file st r by cases r <;> rfl, hcall] at hspec
            exact ⟨hspec.jobs, hspec.expanded, fun _ => .inr ⟨hlt, fr.i + 1, Nat.lt_succ_self _, hspec.frames⟩⟩
  · rw [Option.some.injEq] at h
    rw [← h]
    exact ⟨rfl, rfl, fun _ => .inl rfl⟩

/-- A step without a call outside the open calls: a scope is closed or a job begins. -/
theorem step_idle {σ σ' : State} (hframes : σ.frames = []) (h : step os σ = some σ') (hcall : call os σ = none) :
    σ'.expanded = σ.expanded ∧
      (σ'.frames = [] ∧ σ'.jobs = σ.jobs ∧ σ'.opened.length < σ.opened.length ∨
      σ'.jobs.length < σ.jobs.length ∧
        (σ'.frames = [] ∨ ∃ stmts, σ'.frames = (frameOf (File.ofStmts os.U [] stmts) none).toList)) := by
  unfold call at hcall
  unfold step at h
  rw [hframes] at h hcall
  dsimp only at h hcall
  split at h
  · rename_i s opened hopened
    rw [Option.some.injEq] at h
    rw [← h, hopened]
    exact ⟨rfl, .inl ⟨hframes, rfl, Nat.lt_succ_self _⟩⟩
  · rename_i job jobs hopened hjobs
    rw [Option.some.injEq] at h
    rw [← h, hjobs]
    cases job with
    | netlist first ref origin =>
      rw [hopened, hjobs] at hcall
      dsimp only at hcall
      rw [Option.map_eq_none_iff] at hcall
      let τ : State := { σ with jobs := jobs, frames := [] }
      have hquiet := startJob_netlist os τ first ref origin
      rw [hcall] at hquiet
      exact ⟨hquiet.expanded, .inr ⟨by rw [hquiet.jobs]; exact Nat.lt_succ_self _, .inl hquiet.frames⟩⟩
    | extra stmts origin =>
      exact ⟨rfl, .inr ⟨Nat.lt_succ_self _, .inr ⟨stmts, List.append_nil _⟩⟩⟩
  · cases h

/-! ## What can be read -/

/-- The files, and the names of their sections. -/
def readings : List (Str × Option Str) :=
  os.reals.flatMap fun real => (real, none) ::
    ((os.lines real false).filterMap fun line => sectionName os.U (Str.strip line.1)).map fun name => (real, some name)

/-- What holds of each open call. -/
structure FrameOk (fr : Frame) : Prop where
  skip : ∀ entry ∈ fr.skip, entry.1 ≤ entry.2
  /-- Only the lines of `extra` are no file. -/
  mem : ∀ reading ∈ fr.reading os, reading ∈ readings os
  /-- A section is of a file that was found. -/
  sec : fr.sec ≠ none → ∃ c, os.isfile c = true ∧ fr.file = os.load (os.abspath c) false

theorem resolve_isfile {text origin what path : Str} {base : Option Str}
    (h : (os.resolve text base origin what).1 = some path) : ∃ c, os.isfile c = true ∧ path = os.abspath c := by
  unfold Os.resolve at h
  dsimp only at h
  split at h
  · cases h
  · rename_i use found hfilter
    have huse : use ∈ (os.candidates text base).eraseDups.filter os.isfile := by
      rw [hfilter]
      exact List.mem_cons_self
    exact ⟨use, (List.mem_filter.mp huse).2, (Option.some.inj h).symm⟩

theorem load_path (path : Str) (title : Bool) : (os.load path title).path = path := (ofStmts_stmts os.U path _).1

/-- The frame of a file that was found, or of one of its sections. -/
theorem frameOk_load {c : Str} (hc : os.isfile c = true) {title : Bool} {sec : Option Str} {fr : Frame}
    (htitle : sec ≠ none → title = false) (h : frameOf (os.load (os.abspath c) title) sec = some fr) :
    FrameOk os fr ∧ fr.reading os = some (os.realpath (os.abspath c), sec) := by
  have hreal := os.realpath_mem c hc
  have hindexed := ofStmts_indexed (U := os.U) (os.abspath c) ((os.lines (os.realpath (os.abspath c)) title).map
    fun line => ⟨Str.strip line.1, os.abspath c ++ str ":" ++ digitText (digitsOf line.2)⟩)
  have hread : ∀ fr : Frame, fr.file = os.load (os.abspath c) title →
      fr.reading os = some (os.realpath (os.abspath c), fr.sec) := by
    intro fr hfile
    unfold Frame.reading
    rw [hfile, load_path, if_neg]
    rw [List.isEmpty_iff]
    exact os.abspath_ne_nil c
  cases sec with
  | none =>
    rw [frameOf, Option.some.injEq] at h
    subst h
    refine ⟨⟨hindexed.skip, fun reading hreading => ?_, fun hne => absurd rfl hne⟩, hread _ rfl⟩
    rw [hread _ rfl, Option.mem_some] at hreading
    rw [← hreading]
    exact List.mem_flatMap.mpr ⟨_, hreal, List.mem_cons_self⟩
  | some name =>
    obtain rfl := htitle nofun
    rw [frameOf, Option.map_eq_some_iff] at h
    obtain ⟨entry, hentry, rfl⟩ := h
    refine ⟨⟨nofun, fun reading hreading => ?_, fun _ => ⟨c, hc, rfl⟩⟩, hread _ rfl⟩
    rw [hread _ rfl, Option.mem_some] at hreading
    rw [← hreading]
    -- a section has the name of a statement of the file
    have hname := hindexed.sections _ (Lookup.mem_of_lookup hentry)
    rw [List.filterMap_map] at hname
    exact List.mem_flatMap.mpr ⟨_, hreal, List.mem_cons_of_mem _ (List.mem_map_of_mem hname)⟩

theorem frameOk_extra (stmts : List Stmt) {fr : Frame} (h : frameOf (File.ofStmts os.U [] stmts) none = some fr) :
    FrameOk os fr ∧ fr.reading os = none := by
  rw [frameOf, Option.some.injEq] at h
  subst h
  have hread : Frame.reading os ⟨File.ofStmts os.U [] stmts, none, 0, (File.ofStmts os.U [] stmts).stmts.length,
      (File.ofStmts os.U [] stmts).skip⟩ = none := by
    unfold Frame.reading
    rw [(ofStmts_stmts os.U [] stmts).1]
    rfl
  refine ⟨⟨(ofStmts_indexed (U := os.U) [] stmts).skip, fun reading hreading => ?_, fun hne => absurd rfl hne⟩, hread⟩
  rw [hread] at hreading
  cases hreading

/-- A section of the same file is asked for in a section. -/
theorem sec_of_asked_own {st : Stmt} {sec : Option Str} {name own : Str}
    (h : asked os st sec = some (.ok (.own name own))) : sec ≠ none := by
  rintro rfl
  unfold asked dInclude dLib at h
  split at h
  · dsimp only at h
    split at h <;> cases h
  · split at h <;> first | contradiction | cases h
  · cases h

/-- What a call begins to read can be read. -/
theorem frameOk_call {σ : State} (hok : ∀ fr ∈ σ.frames, FrameOk os fr) {key : Key} {file : File} {fr : Frame}
    (hcall : call os σ = some (key, file)) (h : frameOf file key.sec = some fr) :
    FrameOk os fr ∧ fr.reading os = some (key.real, key.sec) := by
  unfold call at hcall
  split at hcall
  · rename_i top frames hframes
    split at hcall
    · split at hcall
      · rename_i st hst
        split at hcall
        · rename_i r hasked
          cases r with
          | file name sec =>
            unfold requested at hcall
            dsimp only at hcall
            obtain ⟨path, hpath, heq⟩ := Option.map_eq_some_iff.mp hcall
            obtain ⟨c, hc, rfl⟩ := resolve_isfile os hpath
            cases heq
            exact frameOk_load os hc (fun _ => rfl) h
          | own name sec =>
            unfold requested at hcall
            dsimp only at hcall
            split at hcall
            · cases hcall
              obtain ⟨c, hc, hfile⟩ := (hok top (by rw [hframes]; exact List.mem_cons_self)).sec
                (sec_of_asked_own os hasked)
              rw [hfile] at h ⊢
              rw [load_path]
              exact frameOk_load os hc (fun _ => rfl) h
            · cases hcall
        · cases hcall
      · cases hcall
    · cases hcall
  · split at hcall
    · obtain ⟨path, hpath, heq⟩ := Option.map_eq_some_iff.mp hcall
      obtain ⟨c, hc, rfl⟩ := resolve_isfile os hpath
      cases heq
      exact frameOk_load os hc (fun hne => absurd rfl hne) h
    · cases hcall

/-! ## The open calls return -/

/-- Each open call can be read, and no two of them read the same. -/
structure OpenOk (σ : State) : Prop where
  frames : ∀ fr ∈ σ.frames, FrameOk os fr
  nodup : (σ.openReadings os).Nodup

variable {os}

theorem OpenOk.length_le {σ : State} (h : OpenOk os σ) : (σ.openReadings os).length ≤ (readings os).length := by
  refine (List.subperm_of_subset h.nodup fun reading hreading => ?_).length_le
  obtain ⟨fr, hfr, hread⟩ := List.mem_filterMap.mp hreading
  exact (h.frames fr hfr).mem reading hread

/-- The frame of a call further down is as good as before. -/
theorem FrameOk.go {fr : Frame} (h : FrameOk os fr) (j : Nat) : FrameOk os { fr with i := j } := ⟨h.skip, h.mem, h.sec⟩

theorem OpenOk.of_goesOn {σ σ' : State} {fr : Frame} {frames : List Frame} (h : OpenOk os σ)
    (hframes : σ.frames = fr :: frames) (hgoes : GoesOn fr frames σ'.frames) : OpenOk os σ' := by
  obtain ⟨hok, hnodup⟩ := h
  unfold State.openReadings at hnodup
  rw [hframes] at hok hnodup
  rcases hgoes with hpop | ⟨-, j, -, hgo⟩
  · refine ⟨fun g hg => hok g (List.mem_cons_of_mem fr (hpop ▸ hg)), ?_⟩
    unfold State.openReadings
    rw [hpop]
    exact ((List.sublist_cons_self fr frames).filterMap _).nodup hnodup
  · refine ⟨fun g hg => ?_, ?_⟩
    · rw [hgo] at hg
      rcases List.mem_cons.mp hg with rfl | hg
      · exact (hok fr List.mem_cons_self).go j
      · exact hok g (List.mem_cons_of_mem fr hg)
    · unfold State.openReadings
      rw [hgo]
      exact hnodup

/-- A call that begins to read what is not open keeps the open calls good. -/
theorem OpenOk.push {σ σ' : State} {top fr : Frame} {frames : List Frame} (h : OpenOk os σ)
    (hframes : σ.frames = top :: frames) (j : Nat) {reading : Str × Option Str}
    (hok : FrameOk os fr) (hread : fr.reading os = some reading) (hnew : reading ∉ σ.openReadings os)
    (hpush : σ'.frames = fr :: { top with i := j } :: frames) :
    OpenOk os σ' ∧ (σ'.openReadings os).length = (σ.openReadings os).length + 1 := by
  have hreadings : σ'.openReadings os = reading :: σ.openReadings os := by
    unfold State.openReadings
    rw [hpush, hframes, List.filterMap_cons_some hread]
    rfl
  refine ⟨⟨fun g hg => ?_, ?_⟩, by rw [hreadings, List.length_cons]⟩
  · rw [hpush] at hg
    rcases List.mem_cons.mp hg with rfl | hg
    · exact hok
    · rcases List.mem_cons.mp hg with rfl | hg
      · exact (h.frames top (by rw [hframes]; exact List.mem_cons_self)).go j
      · exact h.frames g (by rw [hframes]; exact List.mem_cons_of_mem top hg)
  · rw [hreadings]
    exact List.nodup_cons.mpr ⟨hnew, h.nodup⟩

section Run

variable {jobs : List Job} (hopen : ∀ n σ, after os jobs n = some σ → NotOpen os σ)

theorem after_succ {n : Nat} {σ : State} (h : after os jobs n = some σ) : after os jobs (n + 1) = step os σ := by
  rw [after, h]
  rfl

theorem step_ne_none {σ : State} {fr : Frame} {frames : List Frame} (hframes : σ.frames = fr :: frames) :
    ∃ σ', step os σ = some σ' := by
  unfold step
  rw [hframes]
  dsimp only
  split
  · split
    · exact ⟨_, rfl⟩
    · split <;> exact ⟨_, rfl⟩
  · exact ⟨_, rfl⟩

theorem call_lt {σ : State} {fr : Frame} {frames : List Frame} (hframes : σ.frames = fr :: frames)
    {found : Key × File} (h : call os σ = some found) : fr.i < fr.stop := by
  unfold call at h
  rw [hframes] at h
  dsimp only at h
  split at h
  · rename_i hturn
    exact hturn.1
  · cases h

theorem step_turn (os : Os) {σ : State} {fr : Frame} {frames : List Frame} {st : Stmt}
    (hframes : σ.frames = fr :: frames) (hlt : fr.i < fr.stop) (hskip : fr.skip.lookup fr.i = none)
    (hst : fr.file.stmts[fr.i]? = some st) : step os σ = some (turn os σ fr frames st) := by
  unfold step
  rw [hframes]
  dsimp only
  rw [if_pos hlt, hskip, hst]

/-- What a step in an open call does to the open calls. -/
theorem step_frames {σ σ' : State} {fr : Frame} {frames : List Frame} (hframes : σ.frames = fr :: frames)
    (hok : OpenOk os σ) (h : step os σ = some σ') :
    σ'.jobs = σ.jobs ∧ (GoesOn fr frames σ'.frames ∨
      fr.i < fr.stop ∧ ∃ key file fr', call os σ = some (key, file) ∧ σ.expanded.lookup key = none ∧
        frameOf file key.sec = some fr' ∧ σ'.frames = fr' :: { fr with i := fr.i + 1 } :: frames) := by
  cases hcall : call os σ with
  | none =>
    obtain ⟨hjobs, -, hgoes⟩ := step_goesOn os hframes h hcall
    exact ⟨hjobs, .inl (hgoes (hok.frames fr (by rw [hframes]; exact List.mem_cons_self)).skip)⟩
  | some found =>
    obtain ⟨key, file⟩ := found
    have hlt := call_lt hframes hcall
    obtain ⟨τ, ⟨hτframes, hτexpanded, -⟩, hτjobs, -, hcalls⟩ := step_call os h hcall
    have hjobs := hτjobs (by rw [hframes]; nofun)
    have hpast : σ.past = { fr with i := fr.i + 1 } :: frames := by
      unfold State.past
      rw [hframes]
    rw [hpast] at hτframes
    have hone : GoesOn fr frames ({ fr with i := fr.i + 1 } :: frames) := .inr ⟨hlt, _, Nat.lt_succ_self _, rfl⟩
    by_cases hfirst : σ.expanded.lookup key = none
    · have hbegins := hcalls.1 (hτexpanded ▸ hfirst)
      refine ⟨hbegins.jobs.trans hjobs, ?_⟩
      cases hframe : frameOf file key.sec with
      | none =>
        refine .inl ?_
        rw [hbegins.frames, hframe, hτframes]
        exact hone
      | some fr' =>
        refine .inr ⟨hlt, key, file, fr', rfl, hfirst, hframe, ?_⟩
        rw [hbegins.frames, hframe, hτframes]
        rfl
    · have hquiet := hcalls.2 (hτexpanded ▸ hfirst)
      refine ⟨hquiet.jobs.trans hjobs, .inl ?_⟩
      rw [hquiet.frames, hτframes]
      exact hone

include hopen

/-- The innermost call returns. -/
theorem frame_returns (d : Nat) : ∀ (k n : Nat) (σ : State) (fr : Frame) (frames : List Frame),
    after os jobs n = some σ → σ.frames = fr :: frames → OpenOk os σ →
    (readings os).length ≤ d + (σ.openReadings os).length → fr.stop ≤ fr.i + k →
    ∃ m σ', after os jobs m = some σ' ∧ σ'.frames = frames ∧ OpenOk os σ' ∧ σ'.jobs = σ.jobs := by
  -- on the readings that are not open, and for these on the rest of the statements
  induction d using Nat.strong_induction_on with
  | h d ihd =>
    intro k
    induction k with
    | zero =>
      intro n σ fr frames hn hframes hok _ hstop
      obtain ⟨σ', hstep⟩ : ∃ σ', step os σ = some σ' := step_ne_none hframes
      obtain ⟨hjobs, hgoes | ⟨hlt, -⟩⟩ := step_frames hframes hok hstep
      · rcases hgoes with hpop | ⟨hlt, -⟩
        · exact ⟨n + 1, σ', (after_succ hn).trans hstep, hpop, hok.of_goesOn hframes (.inl hpop), hjobs⟩
        · omega
      · omega
    | succ k ihk =>
      intro n σ fr frames hn hframes hok hd hstop
      obtain ⟨σ', hstep⟩ : ∃ σ', step os σ = some σ' := step_ne_none hframes
      have hn' : after os jobs (n + 1) = some σ' := (after_succ hn).trans hstep
      obtain ⟨hjobs, hgoes | ⟨hlt, key, file, fr', hcall, hfirst, hframe, hpush⟩⟩ := step_frames hframes hok hstep
      · have hok' := hok.of_goesOn hframes hgoes
        rcases hgoes with hpop | ⟨hlt, j, hj, hgo⟩
        · exact ⟨n + 1, σ', hn', hpop, hok', hjobs⟩
        · have hsame : σ'.openReadings os = σ.openReadings os := by
            unfold State.openReadings
            rw [hgo, hframes]
            rfl
          obtain ⟨m, υ, hm, hυ, hυok, hυjobs⟩ := ihk (n + 1) σ' _ frames hn' hgo hok' (hsame ▸ hd)
            (by dsimp only; omega)
          exact ⟨m, υ, hm, hυ, hυok, hυjobs.trans hjobs⟩
      · obtain ⟨hframeOk, hread⟩ := frameOk_call os hok.frames hcall hframe
        have hnew := hopen n σ hn key file hcall hfirst (by rw [hframe]; rfl)
        obtain ⟨hok', hlen⟩ := hok.push hframes (fr.i + 1) hframeOk hread hnew hpush
        have hbound := hok'.length_le
        -- the call that begins returns
        obtain ⟨m, τ, hm, hτ, hτok, hτjobs⟩ := ihd (d - 1) (by omega) (fr'.stop - fr'.i) (n + 1) σ' fr' _ hn' hpush hok'
          (by omega) (by omega)
        have hsame : τ.openReadings os = σ.openReadings os := by
          unfold State.openReadings
          rw [hτ, hframes]
          rfl
        obtain ⟨m', υ, hm', hυ, hυok, hυjobs⟩ := ihk m τ _ frames hm hτ hτok (hsame ▸ hd) (by dsimp only; omega)
        exact ⟨m', υ, hm', hυ, hυok, hυjobs.trans (hτjobs.trans hjobs)⟩

omit hopen in
theorem openOk_nil {σ : State} (h : σ.frames = []) : OpenOk os σ := by
  refine ⟨fun fr hfr => absurd (h ▸ hfr) List.not_mem_nil, ?_⟩
  unfold State.openReadings
  rw [h]
  exact List.nodup_nil

omit hopen in
/-- A step outside the open calls closes a scope or begins a job. -/
theorem step_outside {σ σ' : State} (hframes : σ.frames = []) (h : step os σ = some σ') :
    σ'.frames = [] ∧ σ'.jobs = σ.jobs ∧ σ'.opened.length < σ.opened.length ∨
    σ'.jobs.length < σ.jobs.length ∧ (∀ fr ∈ σ'.frames.head?, FrameOk os fr) ∧ σ'.frames.length ≤ 1 := by
  cases hcall : call os σ with
  | none =>
    obtain ⟨-, hclose | ⟨hlt, hnil | ⟨stmts, hextra⟩⟩⟩ := step_idle os hframes h hcall
    · exact .inl hclose
    · rw [hnil]
      exact .inr ⟨hlt, nofun, Nat.zero_le 1⟩
    · rw [hextra]
      exact .inr ⟨hlt, fun fr hfr => (frameOk_extra os stmts hfr).1, Nat.le_refl 1⟩
  | some found =>
    obtain ⟨key, file⟩ := found
    obtain ⟨τ, ⟨hτframes, hτexpanded, -⟩, -, hτjobs, hcalls⟩ := step_call os h hcall
    obtain ⟨htail, hjobs⟩ := hτjobs hframes
    have hlt : τ.jobs.length < σ.jobs.length := by
      rw [htail, List.length_tail]
      exact Nat.sub_lt (List.length_pos_iff.mpr hjobs) Nat.one_pos
    have hpast : σ.past = [] := by
      unfold State.past
      rw [hframes]
    refine .inr ?_
    by_cases hfirst : τ.expanded.lookup key = none
    · have hbegins := hcalls.1 hfirst
      rw [hbegins.jobs, hbegins.frames, hτframes, hpast, List.append_nil]
      cases hframe : frameOf file key.sec with
      | none => exact ⟨hlt, nofun, Nat.zero_le 1⟩
      | some fr =>
        refine ⟨hlt, fun g hg => ?_, Nat.le_refl 1⟩
        rw [← Option.some.inj hg]
        exact (frameOk_call os (openOk_nil hframes).frames hcall hframe).1
    · have hquiet := hcalls.2 hfirst
      rw [hquiet.jobs, hquiet.frames, hτframes, hpast]
      exact ⟨hlt, nofun, Nat.zero_le 1⟩

/-- Outside the open calls, the rest of the jobs is read. -/
theorem jobs_end (j : Nat) : ∀ (o n : Nat) (σ : State), after os jobs n = some σ → σ.frames = [] →
    σ.jobs.length ≤ j → σ.opened.length ≤ o → ∃ m, after os jobs m = none := by
  induction j using Nat.strong_induction_on with
  | h j ihj =>
    intro o
    -- a job with a frame, after which the rest of the jobs is read
    have hjob : ∀ (n : Nat) (σ σ' : State), after os jobs n = some σ' → σ.jobs.length ≤ j →
        σ'.jobs.length < σ.jobs.length → (∀ fr ∈ σ'.frames.head?, FrameOk os fr) → σ'.frames.length ≤ 1 →
        ∃ m, after os jobs m = none := by
      intro n σ σ' hn hj hlt hframe hlen
      cases hframes : σ'.frames with
      | nil => exact ihj σ'.jobs.length (by omega) _ n σ' hn hframes (Nat.le_refl _) (Nat.le_refl _)
      | cons fr frames =>
        have hnil : frames = [] := by
          rw [hframes, List.length_cons] at hlen
          exact List.length_eq_zero_iff.mp (by omega)
        subst hnil
        have hok : OpenOk os σ' := by
          refine ⟨fun g hg => ?_, ?_⟩
          · rw [hframes] at hg
            rw [List.mem_singleton.mp hg]
            exact hframe fr (by rw [hframes]; rfl)
          · unfold State.openReadings
            rw [hframes]
            cases hread : fr.reading os with
            | none => simp [hread]
            | some reading => simp [hread]
        obtain ⟨m, τ, hm, hτ, -, hτjobs⟩ := frame_returns hopen (readings os).length (fr.stop - fr.i) n σ' fr [] hn
          hframes hok (by omega) (by omega)
        exact ihj τ.jobs.length (by rw [hτjobs]; omega) _ m τ hm hτ (Nat.le_refl _) (Nat.le_refl _)
    induction o with
    | zero =>
      intro n σ hn hframes hj ho
      cases hstep : step os σ with
      | none => exact ⟨n + 1, (after_succ hn).trans hstep⟩
      | some σ' =>
        have hn' := (after_succ hn).trans hstep
        rcases step_outside hframes hstep with ⟨-, -, hlt⟩ | ⟨hlt, hframe, hlen⟩
        · omega
        · exact hjob (n + 1) σ σ' hn' hj hlt hframe hlen
    | succ o iho =>
      intro n σ hn hframes hj ho
      cases hstep : step os σ with
      | none => exact ⟨n + 1, (after_succ hn).trans hstep⟩
      | some σ' =>
        have hn' := (after_succ hn).trans hstep
        rcases step_outside hframes hstep with ⟨hnil, hjobs, hlt⟩ | ⟨hlt, hframe, hlen⟩
        · exact iho (n + 1) σ' hn' hnil (hjobs ▸ hj) (by omega)
        · exact hjob (n + 1) σ σ' hn' hj hlt hframe hlen

end Run

/-! ## Each file and section once in a scope -/

/-- The marks are the calls that were made. -/
theorem mem_expanded_iff {jobs : List Job} {n : Nat} {σ : State} (h : after os jobs n = some σ) (key : Key) :
    key ∈ σ.expanded.map Prod.fst ↔
      ∃ m < n, ∃ τ file, after os jobs m = some τ ∧ call os τ = some (key, file) := by
  induction n generalizing σ with
  | zero =>
    cases h
    constructor
    · exact fun h => absurd h List.not_mem_nil
    · rintro ⟨m, hm, -⟩
      exact absurd hm (Nat.not_lt_zero m)
  | succ n ih =>
    obtain ⟨σ₀, hn, hstep⟩ := Option.bind_eq_some_iff.mp h
    -- the marks after the step: those before it, and its own call
    have hmarks : key ∈ σ.expanded.map Prod.fst ↔
        key ∈ σ₀.expanded.map Prod.fst ∨ ∃ file, call os σ₀ = some (key, file) := by
      cases hcall : call os σ₀ with
      | none =>
        have hsame : σ.expanded = σ₀.expanded := by
          cases hframes : σ₀.frames with
          | nil => exact (step_idle os hframes hstep hcall).1
          | cons fr frames => exact (step_goesOn os hframes hstep hcall).2.1
        rw [hsame]
        exact ⟨.inl, fun h => h.resolve_right fun ⟨_, hfile⟩ => nomatch hfile⟩
      | some found =>
        obtain ⟨key₀, file₀⟩ := found
        obtain ⟨τ, ⟨-, hτ, -⟩, -, -, hcalls⟩ := step_call os hstep hcall
        have hown : (∃ file, some (key₀, file₀) = some (key, file)) ↔ key = key₀ :=
          ⟨fun ⟨_, hfile⟩ => (congrArg Prod.fst (Option.some.inj hfile)).symm, fun h => ⟨file₀, h ▸ rfl⟩⟩
        rw [hown]
        by_cases hfirst : σ₀.expanded.lookup key₀ = none
        · rw [(hcalls.1 (hτ ▸ hfirst)).expanded, hτ, List.mem_cons]
          exact Or.comm
        · rw [(hcalls.2 (hτ ▸ hfirst)).expanded, hτ]
          refine ⟨.inl, fun h => h.elim id fun heq => ?_⟩
          rw [heq]
          obtain ⟨first, hfound⟩ := Option.ne_none_iff_exists'.mp hfirst
          exact List.mem_map_of_mem (Lookup.mem_of_lookup hfound)
    rw [hmarks, ih hn]
    constructor
    · rintro (⟨m, hm, hearlier⟩ | ⟨file, hcall⟩)
      · exact ⟨m, Nat.lt_succ_of_lt hm, hearlier⟩
      · exact ⟨n, Nat.lt_succ_self n, σ₀, file, hn, hcall⟩
    · rintro ⟨m, hm, τ, file, hτ, hcall⟩
      rcases Nat.lt_succ_iff_lt_or_eq.mp hm with hm | rfl
      · exact .inl ⟨m, hm, τ, file, hτ, hcall⟩
      · rw [hn, Option.some.injEq] at hτ
        exact .inr ⟨file, hτ ▸ hcall⟩

/-- No step before made a call of the key. -/
def FirstCall (os : Os) (jobs : List Job) (n : Nat) (key : Key) : Prop :=
  ∀ m < n, ∀ τ file, after os jobs m = some τ → call os τ ≠ some (key, file)

instance (os : Os) (σ : State) : Decidable (NotOpen os σ) :=
  decidable_of_iff (∀ found ∈ call os σ, σ.expanded.lookup found.1 = none →
      (frameOf found.2 found.1.sec).isSome = true → (found.1.real, found.1.sec) ∉ σ.openReadings os)
    ⟨fun h key file hcall => h (key, file) hcall, fun h found hcall => h found.1 found.2 hcall⟩

/-- Files in one directory, with ASCII names; the first line of a deck is its title. -/
def directory (files : List (String × List String)) : Os where
  U := UnicodeData.small
  fold := UnicodeData.small.lower
  cwd := str "/d"
  search := []
  expand := id
  isabs p := p.head? = some '/'
  normpath := id
  join d p := d ++ str "/" ++ p
  dirname _ := str "/d"
  abspath p := if p = [] then str "/" else p
  isfile c := c ≠ [] ∧ c ∈ files.map fun file => str "/d/" ++ str file.1
  realpath := id
  lines path title :=
    let file := files.find? fun file => str "/d/" ++ str file.1 = path
    (((file.map Prod.snd).getD []).zipIdx 1).drop (if title then 1 else 0) |>.map fun line => (str line.1, line.2)
  reals := files.map fun file => str "/d/" ++ str file.1
  realpath_mem c hc := by
    rw [decide_eq_true_eq] at hc
    rw [if_neg hc.1]
    exact hc.2
  abspath_ne_nil c := by
    split
    · decide
    · assumption

section Ends

variable {jobs : List Job}

theorem after_none {n m : Nat} (h : after os jobs n = none) (hle : n ≤ m) : after os jobs m = none := by
  induction m, hle using Nat.le_induction with
  | base => exact h
  | succ m _ ih =>
    rw [after, ih]
    rfl

theorem notOpen_of_all {N : Nat} (hnone : after os jobs N = none)
    (hall : ∀ n < N, ∀ σ ∈ after os jobs n, NotOpen os σ) : ∀ n σ, after os jobs n = some σ → NotOpen os σ := by
  intro n σ h
  by_cases hn : n < N
  · exact hall n hn σ h
  · rw [after_none hnone (Nat.le_of_not_lt hn)] at h
    cases h

end Ends

/-- A file that is included in a subckt and at the top, with a section that calls another one. -/
def plain : Os := directory
  [("top.sp", ["title", ".subckt s a", ".inc 'x.sp'", ".ends", ".inc 'x.sp'", ".inc 'x.sp'", ".lib 'l.sp' tt"]),
    ("x.sp", ["r1 a 0 1"]), ("l.sp", [".lib tt", ".lib rr", ".endl", ".lib rr", "r2 a 0 1", ".endl"])]

def top : List Job := [.netlist true (str "top.sp") []]

/-- A file that includes itself in a subckt. -/
def selfInclude : Os := directory
  [("top.sp", ["title", ".inc 'a.sp'"]), ("a.sp", [".subckt s a", ".inc 'a.sp'", ".ends"])]

def selfFile : File := selfInclude.load (str "/d/a.sp") false

/-- The call of the file goes on at statement `i`. -/
def selfFrame (i : Nat) : Frame := ⟨selfFile, none, i, 3, []⟩

def subcktLine : Stmt := ⟨str ".subckt s a", str "/d/a.sp:1"⟩

def includeLine : Stmt := ⟨str ".inc 'a.sp'", str "/d/a.sp:2"⟩

/-- At the first statement, with marks for the scopes there are. -/
structure AtSubckt (σ : State) : Prop where
  frames : σ.frames.head? = some (selfFrame 0)
  fresh : ∀ key ∈ σ.expanded.map Prod.fst, key.scope < σ.next

/-- At the second statement, in a scope without marks. -/
structure AtInclude (σ : State) : Prop where
  frames : σ.frames.head? = some (selfFrame 1)
  next : σ.next = σ.scope + 1
  fresh : ∀ key ∈ σ.expanded.map Prod.fst, key.scope < σ.scope

theorem AtSubckt.step {σ : State} (h : AtSubckt σ) : ∃ σ', step selfInclude σ = some σ' ∧ AtInclude σ' := by
  obtain ⟨rest, hframes⟩ := List.head?_eq_some_iff.mp h.frames
  have hline : (selfFrame 0).file.stmts[(selfFrame 0).i]? = some subcktLine := by decide +kernel
  have hdot : dot (subcktLine.kw selfInclude.U) = some .subckt := by decide +kernel
  have hkw : (subcktLine.kw selfInclude.U).head? = some ('.' : CodePoint) := by decide +kernel
  have hasked : asked selfInclude subcktLine (selfFrame 0).sec = none := by
    unfold asked
    rw [hdot]
  refine ⟨dSubckt selfInclude { σ with frames := selfFrame 1 :: rest } subcktLine, ?_, rfl, rfl, h.fresh⟩
  rw [step_turn selfInclude hframes (by decide) rfl hline]
  unfold turn statement
  rw [hdot, hasked]
  dsimp only
  rw [if_pos hkw]
  rfl

theorem AtInclude.step {σ : State} (h : AtInclude σ) : ∃ σ', step selfInclude σ = some σ' ∧ AtSubckt σ' := by
  obtain ⟨rest, hframes⟩ := List.head?_eq_some_iff.mp h.frames
  have hline : (selfFrame 1).file.stmts[(selfFrame 1).i]? = some includeLine := by decide +kernel
  have hasked : asked selfInclude includeLine (selfFrame 1).sec = some (.ok (.file (str "a.sp") none)) := by rfl
  let τ : State := { σ with frames := { selfFrame 1 with i := (selfFrame 1).i + 1 } :: rest }
  have hspec := request_spec selfInclude τ (selfFrame 1).file includeLine (.file (str "a.sp") none)
  have hfound : (selfInclude.resolve (str "a.sp") (baseOf selfInclude (selfFrame 1).file includeLine)
      includeLine.origin (str "include file")).1 = some (str "/d/a.sp") := by decide +kernel
  have hrequested : requested selfInclude τ (selfFrame 1).file includeLine (.file (str "a.sp") none) =
      some (⟨str "/d/a.sp", none, σ.scope⟩, selfFile) := by
    unfold requested
    dsimp only
    rw [Option.getD_none, if_pos rfl, hfound]
    rfl
  rw [hrequested] at hspec
  -- the scope is new, so the file is not marked in it
  have hfirst : τ.expanded.lookup ⟨str "/d/a.sp", none, σ.scope⟩ = none := by
    rw [List.lookup_eq_none_iff]
    intro entry hentry
    rw [bne_iff_ne]
    intro heq
    have hlt := h.fresh entry.1 (List.mem_map_of_mem hentry)
    rw [← heq] at hlt
    exact Nat.lt_irrefl _ hlt
  have hbegins := hspec.1 hfirst
  refine ⟨request selfInclude τ (selfFrame 1).file includeLine (.file (str "a.sp") none),
    (step_turn selfInclude hframes (by decide) rfl hline).trans
      (congrArg some (turn_request selfInclude σ rest hasked)), ?_, ?_⟩
  · rw [hbegins.frames]
    rfl
  · intro key hkey
    rw [hbegins.expanded] at hkey
    rw [hbegins.next]
    show key.scope < σ.next
    rw [h.next]
    rcases List.mem_cons.mp hkey with rfl | hkey
    · exact Nat.lt_succ_self _
    · exact Nat.lt_succ_of_lt (h.fresh key hkey)

end Vamos.Netlist.Spice
