import Sv2ghdl.Lists.Lookup
import Sv2ghdl.Yosys.FacadeSpec

/-!
# Calls return

A call in its place ends well or with an exception, which its guard catches: it follows no null pointer.
-/

open Yosys.Rtlil Pieces Nesting
open Lookup (bind_eq_ok)

namespace Yosys.Facade

variable {lib : Library}

/-! ## The store -/

section Store

variable {τ ω : Type} {s : Store τ ω} {f : Module τ ω → Module τ ω}

theorem current_inModule : (s.inModule f).current = s.current.map f := by
  cases hmod : s.mod with
  | none => simp [Store.inModule, Store.current, hmod]
  | some m => simp [Store.inModule, Store.current, hmod]

@[simp]
theorem mod_inModule : (s.inModule f).mod = s.mod := by
  rw [Store.inModule]
  split <;> rfl

@[simp]
theorem proc_inModule : (s.inModule f).proc = s.proc := by
  rw [Store.inModule]
  split <;> rfl

@[simp]
theorem sync_inModule : (s.inModule f).sync = s.sync := by
  rw [Store.inModule]
  split <;> rfl

theorem inModule_inModule {g : Module τ ω → Module τ ω} : (s.inModule f).inModule g = s.inModule (g ∘ f) := by
  cases hmod : s.mod with
  | none => simp [Store.inModule, hmod]
  | some m => simp [Store.inModule, hmod, List.modify_modify_eq]

theorem process?_inModule (hf : ∀ m, (f m).processes = m.processes) {m k : Nat} :
    (s.inModule f).process? m k = s.process? m k := by
  cases hmod : s.mod with
  | none => simp [Store.inModule, hmod]
  | some m' =>
    rw [Store.inModule, hmod, Store.process?, Store.process?, List.getElem?_modify]
    cases s.design[m]? with
    | none => rfl
    | some a =>
      simp only [Option.map_eq_map, Option.map_some, Option.bind_some]
      split_ifs
      · rw [hf]
      · rfl

theorem process?_inProcess {g : Process τ ω → Process τ ω} {m k m' k' : Nat} :
    (s.inProcess m k g).process? m' k' = (s.process? m' k').map fun a => if m = m' ∧ k = k' then g a else a := by
  rw [Store.inProcess, Store.process?, Store.process?, List.getElem?_modify]
  cases s.design[m']? with
  | none => rfl
  | some a =>
    simp only [Option.map_eq_map, Option.map_some, Option.bind_some]
    by_cases hm : m = m'
    · simp [hm, Module.modifyProcess, List.getElem?_modify]
    · simp [hm]

/-- A change that changes nothing. -/
theorem inProcess_self (s : Store τ ω) (m k : Nat) : s.inProcess m k (fun x => x) = s := by
  have hmod : ∀ a : Module τ ω, a.modifyProcess k (fun x => x) = a := by
    intro a
    rw [Module.modifyProcess, show (fun x : Process τ ω => x) = id from rfl, List.modify_id]
  have hself : (fun a : Module τ ω => a.modifyProcess k fun x => x) = id := funext hmod
  rw [Store.inProcess, hself, List.modify_id]

theorem isSome_current_inProcess {g : Process τ ω → Process τ ω} {m k : Nat} :
    (s.inProcess m k g).current.isSome = s.current.isSome := by
  cases hmod : s.mod with
  | none => simp [Store.inProcess, Store.current, hmod]
  | some m' => simp [Store.inProcess, Store.current, hmod, List.getElem?_modify]

end Store

/-! ## The results of the bodies -/

section Results

variable {α : Type} {b : Builder}

theorem orFail_eq_ok {o : Option α} {a : α} : b.orFail o = .ok a ↔ o = some a := by
  cases o with
  | none => exact iff_of_false nofun nofun
  | some a' => exact ⟨fun h => by cases h; rfl, fun h => by cases h; rfl⟩

theorem require_eq_ok {p : Prop} [Decidable p] {u : Unit} : b.require p = .ok u ↔ p := by
  rw [Builder.require]
  split_ifs with hp
  · exact iff_of_true rfl hp
  · exact iff_of_false nofun hp

theorem theModule_eq_ok {m : Module CaseRule MemWriteAction} : b.theModule = .ok m ↔ b.current = some m := by
  rw [Builder.theModule]
  split
  · rename_i a ha
    rw [ha]
    exact ⟨fun h => by cases h; rfl, fun h => by cases h; rfl⟩
  · rename_i ha
    rw [ha]
    exact iff_of_false nofun nofun

theorem escape_eq_ok {name : Text} {id : Id} : b.escape lib name = .ok id ↔ lib.escapeId name = some id := orFail_eq_ok

theorem parse_eq_ok {txt : Text} {sig : SigSpec} :
    b.parse lib txt = .ok sig ↔ rtlilParseSigspec lib (b.current.map Module.wire?) txt = .ok sig := by
  rw [Builder.parse]
  split
  · rename_i hread
    rw [hread]
    exact ⟨fun h => by cases h; rfl, fun h => by cases h; rfl⟩
  · rename_i hread
    rw [hread]
    exact iff_of_false nofun nofun

theorem addNamed_eq_ok {id : Id} {f : Module CaseRule MemWriteAction → Module CaseRule MemWriteAction} {b' : Builder}
    (h : b.addNamed lib id f = .ok b') : b.current.isSome ∧ b' = { b with toStore := b.toStore.inModule f } := by
  simp only [Builder.addNamed, bind_eq_ok, theModule_eq_ok] at h
  obtain ⟨m, hm, -, -, h⟩ := h
  cases h
  exact ⟨Option.isSome_iff_exists.mpr ⟨m, hm⟩, rfl⟩

end Results

/-! ## How a body ends -/

/-- What no body of a call changes: a current module stays one. -/
structure Kept (b b' : Builder) : Prop where
  session : b'.session = b.session
  locks : b'.locks = b.locks
  unlocks : b'.unlocks = b.unlocks
  current : b'.current = none → b.current = none

theorem Kept.refl (b : Builder) : Kept b b := ⟨rfl, rfl, rfl, id⟩

/-- A body ends with a value, or with an exception and a builder that is kept, or it crashes only if `crash` holds. -/
def Ends {α : Type} (crash : Prop) (b : Builder) (P : α → Prop) : Body α → Prop
  | .ok a => P a
  | .error (.bail, b') => Kept b b'
  | .error (.crash, _) => crash

section Ends

variable {α β : Type} {crash : Prop} {b b' : Builder} {c : Call}

theorem Ends.bind {P : α → Prop} {Q : β → Prop} {x : Body α} {f : α → Body β} (hx : Ends crash b P x)
    (hf : ∀ a, P a → Ends crash b Q (f a)) : Ends crash b Q (x >>= f) := by
  match x with
  | .ok a => exact hf a hx
  | .error (.bail, _) => exact hx
  | .error (.crash, _) => exact hx

theorem Ends.require (p : Prop) [Decidable p] (h : Kept b b') : Ends crash b (fun _ => True) (b'.require p) := by
  rw [Builder.require]
  split_ifs
  · exact trivial
  · exact h

theorem Ends.orFail (o : Option α) (h : Kept b b') : Ends crash b (fun _ => True) (b'.orFail o) := by
  cases o with
  | none => exact h
  | some a => exact trivial

theorem Ends.escape (name : Text) (h : Kept b b') : Ends crash b (fun _ => True) (b'.escape lib name) := .orFail _ h

theorem Ends.theModule (hcrash : b.current = none → crash) (h : Kept b b') :
    Ends crash b (fun _ => True) b'.theModule := by
  rw [Builder.theModule]
  split
  · exact trivial
  · exact hcrash (h.current ‹_›)

theorem Ends.parse (hcrash : b.current = none → crash) (txt : Text) (h : Kept b b') :
    Ends crash b (fun _ => True) (b'.parse lib txt) := by
  rw [Builder.parse]
  split
  · exact trivial
  · rename_i e hread
    cases e with
    | bail => exact h
    | crash =>
      cases hm : b'.current with
      | none => exact hcrash (h.current hm)
      | some m =>
        rw [hm] at hread
        exact absurd hread (parseSigspec_ne_crash txt)

theorem Ends.fit (hcrash : b.current = none → crash) (lhs rhs : Text) (h : Kept b b') :
    Ends crash b (fun _ => True) (b'.fit lib lhs rhs) := by
  refine (Ends.parse hcrash lhs h).bind fun l _ => (Ends.parse hcrash rhs h).bind fun r _ => ?_
  split_ifs <;> exact trivial

theorem Kept.inModule (f : Module CaseRule MemWriteAction → Module CaseRule MemWriteAction) (h : Kept b b') :
    Kept b { b' with toStore := b'.toStore.inModule f } := by
  refine ⟨h.session, h.locks, h.unlocks, fun hnone => h.current ?_⟩
  rwa [current_inModule, Option.map_eq_none_iff] at hnone

theorem Ends.addNamed (hcrash : b.current = none → crash) (id : Id)
    (f : Module CaseRule MemWriteAction → Module CaseRule MemWriteAction) (h : Kept b b') :
    Ends crash b (Kept b) (b'.addNamed lib id f) :=
  (Ends.theModule hcrash h).bind fun _ _ => (Ends.require _ h).bind fun _ _ => h.inModule f

theorem Ends.mapM {f : α → Body β} {as : List α} (h : ∀ a ∈ as, Ends crash b (fun _ => True) (f a)) :
    Ends crash b (fun _ => True) (as.mapM f) := by
  cases hm : as.mapM f with
  | ok bs => exact trivial
  | error e =>
    obtain ⟨a, ha, hf⟩ := Traverse.mapM_eq_error hm
    have hend := h a ha
    rw [hf] at hend
    match e with
    | (.bail, _) => exact hend
    | (.crash, _) => exact hend

theorem Ends.compare (hcrash : b.current = none → crash) (compare : Text) (h : Kept b b') :
    Ends crash b (fun _ => True) (b'.compare lib compare) := by
  rw [Builder.compare]
  split_ifs
  · exact trivial
  · exact .mapM fun txt _ => .parse hcrash txt h

theorem Ends.connectPort (hcrash : b.current = none → crash) (item : Text) (h : Kept b b') :
    Ends crash b (Kept b) (b'.connectPort lib item) :=
  (Ends.orFail _ h).bind fun _ _ => (Ends.require _ h).bind fun _ _ => (Ends.escape _ h).bind fun _ _ =>
    (Ends.parse hcrash _ h).bind fun _ _ => h.inModule _

theorem Ends.connectPorts (hcrash : b.current = none → crash) (items : List Text) (h : Kept b b') :
    Ends crash b (Kept b) (items.foldlM (fun b item => b.connectPort lib item) b') := by
  induction items generalizing b' with
  | nil => exact h
  | cons item items ih =>
    rw [List.foldlM_cons]
    exact (Ends.connectPort hcrash item h).bind fun _ h' => ih h'

theorem Ends.enable (w : Int) (e : SigSpec) (h : Kept b b') : Ends crash b (fun _ => True) (b'.enable w e) := by
  fun_cases Builder.enable b' w e with
  | case1 bit => exact trivial
  | case2 e hne hlen => exact trivial
  | case3 e hne hlen => exact h

theorem Ends.signal (hcrash : b.current = none → crash) (type : SyncType) (sig : Text) (h : Kept b b') :
    Ends crash b (fun _ => True) (b'.signal lib type sig) := by
  rw [Builder.signal]
  split_ifs
  · exact .parse hcrash sig h
  · exact trivial

theorem Kept.inProcess {s : Store CaseRule MemWriteAction} (b : Builder) {m k : Nat}
    {f : Process CaseRule MemWriteAction → Process CaseRule MemWriteAction}
    (hs : s.current = (b.toStore.inProcess m k f).current) : s.current = none → b.current = none := by
  intro hnone
  rw [hs, ← Option.isNone_iff_eq_none, ← Option.not_isSome, isSome_current_inProcess, Option.not_isSome,
    Option.isNone_iff_eq_none] at hnone
  exact hnone

theorem Kept.addSync (b : Builder) (r : SyncRule MemWriteAction) :
    (b.toStore.addSync r).current = none → b.current = none := by
  rw [Store.addSync]
  split
  · exact id
  · exact Kept.inProcess b rfl

theorem Kept.inSync (b : Builder) (f : SyncRule MemWriteAction → SyncRule MemWriteAction) :
    (b.toStore.inSync f).current = none → b.current = none := by
  rw [Store.inSync]
  split
  · exact id
  · exact Kept.inProcess b rfl

theorem Kept.addProcess (b : Builder) (p : Process CaseRule MemWriteAction) :
    (b.toStore.addProcess p).current = none → b.current = none := by
  rw [Store.addProcess]
  split
  · exact ((Kept.refl b).inModule _).current
  · exact id

theorem Ends.done (h : Kept b b') (args : List Hashed) : Ends crash b (Kept b) (pure (b'.hashed args)) :=
  ⟨h.session, h.locks, h.unlocks, h.current⟩

/-- A new module needs none. -/
theorem perform_module_ends (name : Text) : Ends crash b (Kept b) (Call.perform lib b (.module name)) := by
  have kept := Kept.refl b
  refine (Ends.escape name kept).bind fun _ _ => (Ends.require _ kept).bind fun _ _ => Ends.done ?_ _
  refine ⟨rfl, rfl, rfl, ?_⟩
  simp [Store.addModule, Store.current]

/-- A call keeps the session, and it crashes only without a module. -/
theorem perform_ends (hcrash : b.current = none → crash) (c : Call) : Ends crash b (Kept b) (c.perform lib b) := by
  have kept := Kept.refl b
  have escape (name : Text) : Ends crash b (fun _ => True) (b.escape lib name) := .escape name kept
  have parse (txt : Text) : Ends crash b (fun _ => True) (b.parse lib txt) := .parse hcrash txt kept
  have fit (lhs rhs : Text) : Ends crash b (fun _ => True) (b.fit lib lhs rhs) := .fit hcrash lhs rhs kept
  have module := Ends.theModule hcrash kept
  have named (id : Id) (f) : Ends crash b (Kept b) (b.addNamed lib id f) := .addNamed hcrash id f kept
  cases c with
  | module name => exact perform_module_ends name
  | wire name width dir initBits => exact (escape name).bind fun id _ => (named id _).bind fun _ h => Ends.done h _
  | connect lhs rhs =>
    exact (fit lhs rhs).bind fun _ _ => module.bind fun _ _ => (Ends.require _ kept).bind fun _ _ =>
      Ends.done (kept.inModule _) _
  | cellBin op name x y z isSigned =>
    exact (escape name).bind fun id _ => (parse x).bind fun _ _ => (parse y).bind fun _ _ =>
      (parse z).bind fun _ _ => (Ends.orFail _ kept).bind fun _ _ => (named id _).bind fun _ h => Ends.done h _
  | cellUn op name x y isSigned =>
    exact (escape name).bind fun id _ => (parse x).bind fun _ _ => (parse y).bind fun _ _ =>
      (Ends.orFail _ kept).bind fun _ _ => (named id _).bind fun _ h => Ends.done h _
  | cellInst type name conns =>
    exact (escape name).bind fun id _ => (escape type).bind fun _ _ => (named id _).bind fun _ h =>
      (Ends.connectPorts hcrash _ h).bind fun _ h' => Ends.done h' _
  | cellMux name x y s z =>
    exact (escape name).bind fun id _ => (parse x).bind fun _ _ => (parse y).bind fun _ _ =>
      (parse s).bind fun _ _ => (parse z).bind fun _ _ => (named id _).bind fun _ h => Ends.done h _
  | proc name =>
    refine (escape name).bind fun _ _ => module.bind fun _ _ => (Ends.require _ kept).bind fun _ _ =>
      Ends.done ?_ _
    exact ⟨rfl, rfl, rfl, Kept.addProcess b _⟩
  | caseAssign lhs rhs =>
    refine (Ends.orFail _ kept).bind fun _ _ => (fit lhs rhs).bind fun _ _ => Ends.done ?_ _
    exact ⟨rfl, rfl, rfl, Kept.inProcess b rfl⟩
  | switchBegin sig =>
    refine (Ends.orFail _ kept).bind fun _ _ => (parse sig).bind fun _ _ => Ends.done ?_ _
    exact ⟨rfl, rfl, rfl, Kept.inProcess b rfl⟩
  | caseBegin compare =>
    refine (Ends.orFail _ kept).bind fun _ _ => (Ends.compare hcrash compare kept).bind fun _ _ =>
      Ends.done ?_ _
    exact ⟨rfl, rfl, rfl, Kept.inProcess b rfl⟩
  | caseAssignRoot lhs rhs =>
    refine (Ends.orFail _ kept).bind fun _ _ => (fit lhs rhs).bind fun _ _ => Ends.done ?_ _
    exact ⟨rfl, rfl, rfl, Kept.inProcess b rfl⟩
  | memory name width size =>
    exact (Ends.require _ kept).bind fun _ _ => (escape name).bind fun _ _ => module.bind fun _ _ =>
      Ends.done (kept.inModule _) _
  | memrd name memid addr data =>
    exact (escape memid).bind fun _ _ => module.bind fun _ _ => (Ends.require _ kept).bind fun _ _ =>
      (parse addr).bind fun _ _ => (parse data).bind fun _ _ => (escape name).bind fun id _ =>
        (named id _).bind fun _ h => Ends.done h _
  | syncMemwr memid addr data en =>
    refine (Ends.require _ kept).bind fun _ _ => (escape memid).bind fun _ _ => module.bind fun _ _ =>
      (Ends.orFail _ kept).bind fun _ _ => (parse addr).bind fun _ _ => (parse data).bind fun _ _ =>
        (Ends.require _ kept).bind fun _ _ => (parse en).bind fun e _ => (Ends.enable _ e kept).bind fun _ _ =>
          Ends.done ?_ _
    exact ⟨rfl, rfl, rfl, Kept.inSync b _⟩
  | caseEnd =>
    refine (Ends.require _ kept).bind fun _ _ => Ends.done ?_ _
    exact ⟨rfl, rfl, rfl, id⟩
  | switchEnd =>
    refine (Ends.require _ kept).bind fun _ _ => Ends.done ?_ _
    exact ⟨rfl, rfl, rfl, id⟩
  | sync edge sig =>
    refine (Ends.require _ kept).bind fun _ _ => (Ends.orFail _ kept).bind fun type _ =>
      (Ends.signal hcrash type sig kept).bind fun _ _ => Ends.done ?_ _
    exact ⟨rfl, rfl, rfl, Kept.addSync b _⟩
  | syncAssign lhs rhs =>
    refine (Ends.require _ kept).bind fun _ _ => (fit lhs rhs).bind fun _ _ => Ends.done ?_ _
    exact ⟨rfl, rfl, rfl, Kept.inSync b _⟩

/-- Before the first module a call that its place takes does not crash. -/
theorem perform_ne_crash_start {p : Place} (hp : p.Takes c) (hmodule : p.module = false) (hcases : b.cases = [])
    (hswitches : b.switches = []) (hproc : b.proc = none) (hsync : b.sync = none) (b' : Builder) :
    c.perform lib b ≠ .error (.crash, b') := by
  intro h
  cases c with
  | module name =>
    have hend : Ends False b (Kept b) (Call.perform lib b (.module name)) := perform_module_ends name
    rw [h] at hend
    exact hend
  | caseAssign | switchBegin | caseAssignRoot =>
    rw [Call.perform, hcases] at h
    cases h
  | caseBegin =>
    rw [Call.perform, hswitches] at h
    cases h
  | syncMemwr | syncAssign =>
    rw [Call.perform, hsync] at h
    cases h
  | sync =>
    rw [Call.perform, hproc] at h
    cases h
  | caseEnd =>
    rw [Call.perform, hcases] at h
    cases h
  | switchEnd =>
    rw [Call.perform, hswitches] at h
    cases h
  | proc =>
    rw [Place.Takes, hmodule] at hp
    simp at hp
  | _ =>
    rw [Place.Takes, hmodule] at hp
    cases hp

end Ends

end Yosys.Facade
