import Sv2ghdl.Yosys.FacadeReturns

/-!
# The builder builds what was called

The builder beside the plan of its calls: its two stacks lead to the parts that the words of the plan leave open.
-/

open Yosys.Rtlil Pieces Nesting
open Lookup (bind_eq_ok)
open Traverse (Pointwise)

namespace Yosys.Facade

variable {lib : Library}

/-! ## The builder beside the plan -/

/-- The open cases of a process, the innermost first, and the switches that they lie in. -/
inductive Stacks : Path → List Path → List (Path × Nat) → Prop
  | root : Stacks [] [[]] []
  | inside {p cs ss} (x : Nat × Nat) (h : Stacks p cs ss) : Stacks (p ++ [x]) ((p ++ [x]) :: cs) ((p, x.1) :: ss)

/-- What is open in a process: everything is closed in those that are not the current one. -/
def openAt (σ : Plan) (p : Path) (w : Option Nat) (m k : Nat) : Path × Option Nat :=
  if σ.proc = some (m, k) then (p, w) else ([], none)

structure ProcessGrows (pw : Path × Option Nat) (a : Process CaseRule MemWriteAction)
    (e : Process (List TreeCall) MemWrite) : Prop where
  name : a.name = e.name
  tree : Rooted [] e.tree a.tree pw.1 pw.2
  syncs : Pointwise (fun _ => RealizesSync) a.syncs e.syncs

structure ModuleGrows (o : Nat → Path × Option Nat) (a : Module CaseRule MemWriteAction)
    (e : Module (List TreeCall) MemWrite) : Prop where
  name : a.name = e.name
  wires : a.wires = e.wires
  memories : a.memories = e.memories
  connections : a.connections = e.connections
  cells : a.cells = e.cells
  processes : Pointwise (fun k => ProcessGrows (o k)) a.processes e.processes

/-- A session without a failed call: `p` leads to the innermost open case of the current process, and `w` is the place
of the switch that is open in it. -/
structure Grows (place : Place) (b : Builder) (σ : Plan) (p : Path) (w : Option Nat) : Prop where
  session : b.session = true
  poisoned : b.poisoned = false
  mod : b.mod = σ.mod
  proc : b.proc = σ.proc
  sync : b.sync = σ.sync
  modValid : σ.current.isSome = σ.mod.isSome
  procValid : ∀ {m k}, σ.proc = some (m, k) → σ.mod = some m ∧ (σ.process? m k).isSome
  syncValid : ∀ {m k i}, σ.sync = some (m, k, i) → σ.proc = some (m, k)
  design : Pointwise (fun m => ModuleGrows (openAt σ p w m)) b.design σ.design
  /-- Without a current process at most the root of an earlier one is on the stacks. -/
  idle : σ.proc = none → p = [] ∧ w = none ∧ b.switches = [] ∧ b.cases.length ≤ 1
  tops : ∀ {m k}, σ.proc = some (m, k) → ∃ cs ss, Stacks p cs ss ∧ b.cases = cs.map (CaseRef.mk m k) ∧
    b.switches = (w.toList.map (p, ·) ++ ss).map fun s => ⟨⟨m, k, s.1⟩, s.2⟩
  unbegun : σ.mod = none → b.cases = []
  placeModule : place.module = σ.mod.isSome
  placeBegan : place.began = false → b.cases = []
  placeProcess : place.process = σ.proc.map fun _ => (p.length, w.isSome)

section Grows

variable {place : Place} {b : Builder} {σ : Plan} {p : Path} {w : Option Nat}

theorem Grows.hashed (h : Grows place b σ p w) (args : List Hashed) : Grows place (b.hashed args) σ p w :=
  { h with }

theorem Grows.start (b : Builder) : Grows .start b.opened .empty [] none where
  session := rfl
  poisoned := rfl
  mod := rfl
  proc := rfl
  sync := rfl
  modValid := rfl
  procValid := nofun
  syncValid := nofun
  design := .nil
  idle _ := ⟨rfl, rfl, rfl, Nat.zero_le _⟩
  tops := nofun
  unbegun _ := rfl
  placeModule := rfl
  placeBegan _ := rfl
  placeProcess := rfl

/-- The current modules of the two sides. -/
theorem Grows.current (h : Grows place b σ p w) {e : Module (List TreeCall) MemWrite} (he : σ.current = some e) :
    ∃ a m, σ.mod = some m ∧ b.current = some a ∧ ModuleGrows (openAt σ p w m) a e := by
  obtain ⟨m, hm, hget⟩ := Option.bind_eq_some_iff.mp he
  have hlt := (List.getElem?_eq_some_iff.mp hget).1
  rw [← h.design.length] at hlt
  have ha : b.design[m]? = some b.design[m] := List.getElem?_eq_getElem hlt
  refine ⟨_, m, hm, ?_, h.design.get ha hget⟩
  rw [Store.current, h.mod, hm]
  exact ha

theorem Grows.exists_current (h : Grows place b σ p w) (hmod : σ.mod.isSome) :
    ∃ a e m, σ.mod = some m ∧ b.current = some a ∧ σ.current = some e ∧ ModuleGrows (openAt σ p w m) a e := by
  obtain ⟨e, he⟩ := Option.isSome_iff_exists.mp (h.modValid.trans hmod)
  obtain ⟨a, m, hm, ha, hae⟩ := h.current he
  exact ⟨a, e, m, hm, ha, he, hae⟩

theorem ModuleGrows.wire? {o : Nat → Path × Option Nat} {a : Module CaseRule MemWriteAction}
    {e : Module (List TreeCall) MemWrite} (h : ModuleGrows o a e) : a.wire? = e.wire? := by
  funext id
  rw [Module.wire?, Module.wire?, h.wires]

/-! ## What the strings mean -/

theorem Grows.means (hlib : lib.Documented) (h : Grows place b σ p w) (hmod : σ.mod.isSome) {txt : Text} {sig : SigSpec}
    (hplain : Plain txt) (hparse : b.parse lib txt = .ok sig) : Means lib σ txt sig := by
  obtain ⟨a, e, m, -, ha, he, hae⟩ := h.exists_current hmod
  refine ⟨e, he, ?_⟩
  rw [Builder.parse, ha, Option.map_some, hae.wire?] at hparse
  split at hparse
  · rename_i hread
    cases hparse
    exact (parseSigspec_iff hlib hplain).mp hread
  · cases hparse

theorem Grows.assigns (hlib : lib.Documented) (h : Grows place b σ p w) (hmod : σ.mod.isSome) {lhs rhs : Text}
    {a : SigSig} (hlhs : Plain lhs) (hrhs : Plain rhs) (hfit : b.fit lib lhs rhs = .ok a) :
    Assigns lib σ lhs rhs a := by
  obtain ⟨l, hl, hfit⟩ := bind_eq_ok.mp hfit
  obtain ⟨r, hr, hfit⟩ := bind_eq_ok.mp hfit
  refine ⟨r, ?_, h.means hlib hmod hrhs hr, ?_⟩
  · have hleft : a.1 = l := by
      split_ifs at hfit <;> cases hfit <;> rfl
    rw [hleft]
    exact h.means hlib hmod hlhs hl
  · split_ifs at hfit with hne hlt
    · -- zeros above a narrower side
      cases hfit
      rw [List.take_append, List.take_of_length_le hlt.le, List.take_replicate, min_eq_left (Nat.sub_le _ _)]
    · -- the lowest bits of a wider side
      cases hfit
      rw [List.take_append_of_le_length (not_lt.mp hlt)]
    · cases hfit
      rw [← not_not.mp hne, List.take_left']
      rfl

/-! ## Changes of a module -/

theorem openAt_congr {σ' : Plan} (h : σ'.proc = σ.proc) : openAt σ' p w = openAt σ p w := by
  funext m k
  rw [openAt, openAt, h]

theorem Grows.inModule {f : Module CaseRule MemWriteAction → Module CaseRule MemWriteAction}
    {g : Module (List TreeCall) MemWrite → Module (List TreeCall) MemWrite}
    (hfg : ∀ {o a e}, ModuleGrows o a e → ModuleGrows o (f a) (g e)) (hg : ∀ e, (g e).processes = e.processes)
    (h : Grows place b σ p w) : Grows place { b with toStore := b.toStore.inModule f } (σ.inModule g) p w where
  session := h.session
  poisoned := h.poisoned
  mod := by simp [h.mod]
  proc := by simp [h.proc]
  sync := by simp [h.sync]
  modValid := by rw [current_inModule, Option.isSome_map, mod_inModule, h.modValid]
  procValid hproc := by
    rw [proc_inModule] at hproc
    rw [mod_inModule, process?_inModule hg]
    exact h.procValid hproc
  syncValid hsync := by
    rw [sync_inModule] at hsync
    rw [proc_inModule]
    exact h.syncValid hsync
  design := by
    have hopen : openAt (σ.inModule g) p w = openAt σ p w := openAt_congr proc_inModule
    rw [hopen]
    cases hmod : σ.mod with
    | none =>
      have hb := h.mod.trans hmod
      simp only [Store.inModule, hmod, hb]
      exact h.design
    | some m =>
      have hb := h.mod.trans hmod
      simp only [Store.inModule, hmod, hb]
      exact h.design.modify (fun _ _ _ _ => hfg) fun _ _ _ _ => id
  idle hproc := h.idle (proc_inModule ▸ hproc)
  tops hproc := h.tops (proc_inModule ▸ hproc)
  unbegun hmod := h.unbegun (mod_inModule ▸ hmod)
  placeModule := by rw [mod_inModule, h.placeModule]
  placeBegan := h.placeBegan
  placeProcess := by rw [proc_inModule, h.placeProcess]

theorem ModuleGrows.addWire {o : Nat → Path × Option Nat} {a : Module CaseRule MemWriteAction}
    {e : Module (List TreeCall) MemWrite} (x : WireDecl) (h : ModuleGrows o a e) :
    ModuleGrows o (a.addWire x) (e.addWire x) :=
  { h with wires := by rw [Module.addWire, Module.addWire, h.wires] }

theorem ModuleGrows.setMemory {o : Nat → Path × Option Nat} {a : Module CaseRule MemWriteAction}
    {e : Module (List TreeCall) MemWrite} (x : Memory) (h : ModuleGrows o a e) :
    ModuleGrows o (a.setMemory x) (e.setMemory x) :=
  { h with memories := by rw [Module.setMemory, Module.setMemory, h.memories] }

theorem ModuleGrows.addConnection {o : Nat → Path × Option Nat} {a : Module CaseRule MemWriteAction}
    {e : Module (List TreeCall) MemWrite} (x : SigSig) (h : ModuleGrows o a e) :
    ModuleGrows o (a.addConnection x) (e.addConnection x) :=
  { h with connections := by rw [Module.addConnection, Module.addConnection, h.connections] }

theorem ModuleGrows.addCell {o : Nat → Path × Option Nat} {a : Module CaseRule MemWriteAction}
    {e : Module (List TreeCall) MemWrite} (x : Cell) (h : ModuleGrows o a e) :
    ModuleGrows o (a.addCell x) (e.addCell x) :=
  { h with cells := by rw [Module.addCell, Module.addCell, h.cells] }

theorem Grows.addWire (x : WireDecl) (h : Grows place b σ p w) :
    Grows place { b with toStore := b.toStore.inModule (·.addWire x) } (σ.inModule (·.addWire x)) p w :=
  h.inModule (fun ha => ha.addWire x) fun _ => rfl

theorem Grows.setMemory (x : Memory) (h : Grows place b σ p w) :
    Grows place { b with toStore := b.toStore.inModule (·.setMemory x) } (σ.inModule (·.setMemory x)) p w :=
  h.inModule (fun ha => ha.setMemory x) fun _ => rfl

theorem Grows.addConnection (x : SigSig) (h : Grows place b σ p w) :
    Grows place { b with toStore := b.toStore.inModule (·.addConnection x) } (σ.inModule (·.addConnection x)) p w :=
  h.inModule (fun ha => ha.addConnection x) fun _ => rfl

theorem Grows.addCell (x : Cell) (h : Grows place b σ p w) :
    Grows place { b with toStore := b.toStore.inModule (·.addCell x) } (σ.inModule (·.addCell x)) p w :=
  h.inModule (fun ha => ha.addCell x) fun _ => rfl

/-! ## Changes of the current process -/

/-- A change of the current process, by which what is open in it may change. -/
theorem Grows.inProcess {σ' : Plan} {m k : Nat} {p' : Path} {w' : Option Nat}
    {f : Process CaseRule MemWriteAction → Process CaseRule MemWriteAction}
    {g : Process (List TreeCall) MemWrite → Process (List TreeCall) MemWrite} (hproc : σ.proc = some (m, k))
    (hσ' : σ'.proc = σ.proc)
    (hfg : ∀ {a e}, b.process? m k = some a → ProcessGrows (p, w) a e → ProcessGrows (p', w') (f a) (g e))
    (h : Grows place b σ p w) :
    Pointwise (fun m => ModuleGrows (openAt σ' p' w' m)) (b.toStore.inProcess m k f).design
      (σ.inProcess m k g).design := by
  have hother : ∀ {m' k'}, (m', k') ≠ (m, k) → openAt σ' p' w' m' k' = openAt σ p w m' k' := by
    intro m' k' hne
    rw [openAt, openAt, hσ', hproc, if_neg, if_neg]
    · rintro heq
      exact hne (Option.some.inj heq).symm
    · rintro heq
      exact hne (Option.some.inj heq).symm
  have hhere : openAt σ' p' w' m k = (p', w') := by rw [openAt, hσ', if_pos hproc]
  have hhere' : openAt σ p w m k = (p, w) := by rw [openAt, if_pos hproc]
  refine h.design.modify ?_ ?_
  · intro a e ha _ hae
    refine { hae with processes := hae.processes.modify ?_ ?_ }
    · intro x y hx _ hxy
      rw [hhere'] at hxy
      rw [hhere]
      refine hfg ?_ hxy
      rw [Store.process?, ha]
      exact hx
    · intro i x y hi hxy
      rw [hother fun heq => hi (Prod.mk.inj heq).2]
      exact hxy
  · intro i a e hi hae
    refine { hae with processes := hae.processes.imp ?_ }
    intro k' x y hxy
    rw [hother fun heq => hi (Prod.mk.inj heq).1]
    exact hxy

/-- The processes of the two sides behind a pointer. -/
theorem Grows.exists_process (h : Grows place b σ p w) {m k : Nat} (hproc : σ.proc = some (m, k)) :
    ∃ x y, b.process? m k = some x ∧ σ.process? m k = some y ∧ ProcessGrows (p, w) x y := by
  obtain ⟨y, hy⟩ := Option.isSome_iff_exists.mp (h.procValid hproc).2
  obtain ⟨e, he, hy'⟩ := Option.bind_eq_some_iff.mp hy
  have hlt := (List.getElem?_eq_some_iff.mp he).1
  rw [← h.design.length] at hlt
  have ha : b.design[m]? = some b.design[m] := List.getElem?_eq_getElem hlt
  have hae := h.design.get ha he
  have hlt' := (List.getElem?_eq_some_iff.mp hy').1
  rw [← hae.processes.length] at hlt'
  have hx : b.design[m].processes[k]? = some b.design[m].processes[k] := List.getElem?_eq_getElem hlt'
  have hxy := hae.processes.get hx hy'
  rw [openAt, if_pos hproc] at hxy
  refine ⟨_, y, ?_, hy, hxy⟩
  rw [Store.process?, ha]
  exact hx

/-! ## Stacks -/

theorem Stacks.of_nil {cs : List Path} {ss : List (Path × Nat)} (h : Stacks [] cs ss) : cs = [[]] ∧ ss = [] := by
  generalize hp : ([] : Path) = p at h
  cases h with
  | root => exact ⟨rfl, rfl⟩
  | inside x h => simp at hp

theorem Stacks.of_snoc {x : Nat × Nat} {cs : List Path} {ss : List (Path × Nat)} (h : Stacks (p ++ [x]) cs ss) :
    ∃ cs' ss', cs = (p ++ [x]) :: cs' ∧ ss = (p, x.1) :: ss' ∧ Stacks p cs' ss' := by
  generalize hq : p ++ [x] = q at h
  cases h with
  | root => simp at hq
  | inside y h =>
    obtain ⟨rfl, hxy⟩ := List.append_inj' hq rfl
    cases hxy
    exact ⟨_, _, rfl, rfl, h⟩

theorem Stacks.head {cs : List Path} {ss : List (Path × Nat)} (h : Stacks p cs ss) : cs.head? = some p := by
  cases h <;> rfl

theorem Stacks.getLast {cs : List Path} {ss : List (Path × Nat)} (h : Stacks p cs ss) : cs.getLast? = some [] := by
  induction h with
  | root => rfl
  | inside x h ih => rw [List.getLast?_cons, ih]; rfl

theorem Stacks.length {cs : List Path} {ss : List (Path × Nat)} (h : Stacks p cs ss) : cs.length = p.length + 1 := by
  induction h with
  | root => rfl
  | inside x h ih => simp [ih]

/-- A case on the stack of a fresh place is a case of the current process. -/
theorem Grows.exists_proc (h : Grows place b σ p w) (hfresh : place.Fresh) (hcases : b.cases ≠ []) :
    ∃ m k, σ.proc = some (m, k) := by
  cases hproc : σ.proc with
  | some x => exact ⟨x.1, x.2, rfl⟩
  | none =>
    refine absurd (h.placeBegan (hfresh ?_)) hcases
    rw [h.placeProcess, hproc]
    rfl

theorem Grows.exists_proc_of_switch (h : Grows place b σ p w) (hswitches : b.switches ≠ []) :
    ∃ m k, σ.proc = some (m, k) := by
  cases hproc : σ.proc with
  | some x => exact ⟨x.1, x.2, rfl⟩
  | none => exact absurd (h.idle hproc).2.2.1 hswitches

theorem Grows.place_of_proc (h : Grows place b σ p w) {m k : Nat} (hproc : σ.proc = some (m, k)) :
    place.process = some (p.length, w.isSome) := by
  rw [h.placeProcess, hproc]
  rfl

theorem Grows.cases_ne_nil (h : Grows place b σ p w) {m k : Nat} (hproc : σ.proc = some (m, k)) : b.cases ≠ [] := by
  obtain ⟨cs, ss, hstacks, hcases, -⟩ := h.tops hproc
  rw [hcases]
  intro hnil
  have := hstacks.length
  rw [List.map_eq_nil_iff.mp hnil] at this
  simp at this

/-- With a closed process or with none the stacks hold no more than a root. -/
theorem Grows.closed (h : Grows place b σ p w) (hclosed : place.Closed) :
    p = [] ∧ w = none ∧ b.switches = [] ∧ b.cases.length ≤ 1 := by
  cases hproc : σ.proc with
  | none => exact h.idle hproc
  | some x =>
    obtain ⟨hp, hw⟩ := hclosed _ _ (h.place_of_proc hproc)
    have hp' := List.length_eq_zero_iff.mp hp
    have hw' : w = none := by simpa using hw
    subst hp' hw'
    obtain ⟨cs, ss, hstacks, hcases, hswitches⟩ := h.tops hproc
    obtain ⟨rfl, rfl⟩ := hstacks.of_nil
    exact ⟨rfl, rfl, hswitches, by rw [hcases]; exact le_refl _⟩

/-! ## Tree calls -/

theorem log_eq {m k : Nat} (hproc : σ.proc = some (m, k)) (ev : TreeCall) :
    σ.log ev = σ.inProcess m k fun p => { p with tree := p.tree ++ [ev] } := by
  rw [Store.log, hproc]

/-- A call changes the tree of the current process, and with it what is open. -/
theorem Grows.tree {m k : Nat} {place' : Place} {ev : TreeCall} {f : CaseRule → CaseRule} {p' : Path} {w' : Option Nat}
    {cases' : List CaseRef} {switches' : List SwitchRef} (h : Grows place b σ p w) (hproc : σ.proc = some (m, k))
    (htree : ∀ {x es}, b.process? m k = some x → Rooted [] es x.tree p w → Rooted [] (es ++ [ev]) (f x.tree) p' w')
    (htops : ∃ cs ss, Stacks p' cs ss ∧ cases' = cs.map (CaseRef.mk m k) ∧
      switches' = (w'.toList.map (p', ·) ++ ss).map fun s => ⟨⟨m, k, s.1⟩, s.2⟩)
    (hmodule : place'.module = place.module) (hbegan : place'.began = place.began)
    (hplace : place'.process = some (p'.length, w'.isSome)) :
    Grows place' { b with
      toStore := b.toStore.inProcess m k fun x => { x with tree := f x.tree }
      cases := cases'
      switches := switches' } (σ.log ev) p' w' := by
  rw [log_eq hproc]
  exact {
    session := h.session
    poisoned := h.poisoned
    mod := h.mod
    proc := h.proc
    sync := h.sync
    modValid := isSome_current_inProcess.trans h.modValid
    procValid := by
      intro m' k' hproc'
      rw [process?_inProcess, Option.isSome_map]
      exact h.procValid hproc'
    syncValid := h.syncValid
    design := h.inProcess hproc rfl fun hx hxy => { hxy with tree := htree hx hxy.tree }
    idle := fun hnone => by
      have hnone' : σ.proc = none := hnone
      rw [hproc] at hnone'
      cases hnone'
    tops := by
      intro m' k' hproc'
      have hproc'' : σ.proc = some (m', k') := hproc'
      rw [hproc] at hproc''
      cases hproc''
      exact htops
    unbegun := fun hmod => by
      have hmod' : σ.mod = none := hmod
      rw [(h.procValid hproc).1] at hmod'
      cases hmod'
    placeModule := hmodule.trans h.placeModule
    placeBegan := fun hfalse => absurd (h.placeBegan (hbegan ▸ hfalse)) (h.cases_ne_nil hproc)
    placeProcess := by
      have hproc' : (σ.inProcess m k fun p => { p with tree := p.tree ++ [ev] }).proc = some (m, k) := hproc
      rw [hproc', hplace]
      rfl }

/-- A call closes the innermost part and leaves the tree as it is. -/
theorem Grows.close {m k : Nat} {place' : Place} {ev : TreeCall} {p' : Path} {w' : Option Nat}
    {cases' : List CaseRef} {switches' : List SwitchRef} (h : Grows place b σ p w) (hproc : σ.proc = some (m, k))
    (htree : ∀ {c es}, Rooted [] es c p w → Rooted [] (es ++ [ev]) c p' w')
    (htops : ∃ cs ss, Stacks p' cs ss ∧ cases' = cs.map (CaseRef.mk m k) ∧
      switches' = (w'.toList.map (p', ·) ++ ss).map fun s => ⟨⟨m, k, s.1⟩, s.2⟩)
    (hmodule : place'.module = place.module) (hbegan : place'.began = place.began)
    (hplace : place'.process = some (p'.length, w'.isSome)) :
    Grows place' { b with cases := cases', switches := switches' } (σ.log ev) p' w' := by
  have hstep := h.tree (f := id) hproc (fun _ htree' => htree htree') htops hmodule hbegan hplace
  have hself : (b.toStore.inProcess m k fun x => { x with tree := id x.tree }) = b.toStore := inProcess_self _ _ _
  rwa [hself] at hstep

/-! ## New modules, processes and sync rules -/

theorem openAt_closed (σ : Plan) (m k : Nat) : openAt σ [] none m k = ([], none) := by
  rw [openAt, ite_self]

/-- When everything is closed the current process is like the others. -/
theorem Grows.design_closed (h : Grows place b σ [] none) (σ' : Plan) :
    Pointwise (fun m => ModuleGrows (openAt σ' [] none m)) b.design σ.design := by
  refine h.design.imp fun m a e hae => { hae with processes := hae.processes.imp fun k x y hxy => ?_ }
  rw [openAt_closed] at hxy ⊢
  exact hxy

theorem Grows.addModule (id : Id) (hclosed : place.Closed) (h : Grows place b σ p w) :
    Grows { place with module := true, process := none } { b with toStore := b.toStore.addModule id }
      (σ.addModule id) [] none := by
  obtain ⟨rfl, rfl, hswitches, hcases⟩ := h.closed hclosed
  exact {
    session := h.session
    poisoned := h.poisoned
    mod := by
      show some b.design.length = some σ.design.length
      rw [h.design.length]
    proc := rfl
    sync := rfl
    modValid := by simp [Store.addModule, Store.current]
    procValid := nofun
    syncValid := nofun
    design := by
      refine Pointwise.snoc (h.design_closed _) ?_
      exact ⟨rfl, rfl, rfl, rfl, rfl, .nil⟩
    idle := fun _ => ⟨rfl, rfl, hswitches, hcases⟩
    tops := nofun
    unbegun := nofun
    placeModule := rfl
    placeBegan := h.placeBegan
    placeProcess := rfl }

theorem Grows.addProcess {m : Nat} {a : Module CaseRule MemWriteAction} (name : Id) (hclosed : place.Closed)
    (h : Grows place b σ p w) (hm : σ.mod = some m) (ha : b.current = some a) :
    Grows { place with began := true, process := some (0, false) }
      { b with
        toStore := b.toStore.addProcess ⟨name, .mk [] [] [], []⟩
        cases := [⟨m, a.processes.length, []⟩]
        switches := [] } (σ.addProcess ⟨name, [], []⟩) [] none := by
  obtain ⟨rfl, rfl, -, -⟩ := h.closed hclosed
  obtain ⟨a', e, m', hm', ha', he, hae⟩ := h.exists_current (by rw [hm]; rfl)
  rw [hm] at hm'
  cases hm'
  rw [ha] at ha'
  cases ha'
  have hb : b.mod = some m := h.mod.trans hm
  have hget : σ.design[m]? = some e := by
    rw [Store.current, hm] at he
    exact he
  have hstore : b.toStore.addProcess ⟨name, .mk [] [] [], []⟩ =
      { b.toStore with
        design := b.design.modify m (·.addProcess ⟨name, .mk [] [] [], []⟩)
        proc := some (m, e.processes.length)
        sync := none } := by
    rw [Store.addProcess, hb, ha]
    simp only [Store.inModule, hb, hae.processes.length]
  have hplan : σ.addProcess ⟨name, [], []⟩ =
      { σ with
        design := σ.design.modify m (·.addProcess ⟨name, [], []⟩)
        proc := some (m, e.processes.length)
        sync := none } := by
    rw [Store.addProcess, hm, he]
    simp only [Store.inModule, hm]
  rw [hstore, hplan, hae.processes.length]
  exact {
    session := h.session
    poisoned := h.poisoned
    mod := h.mod
    proc := rfl
    sync := rfl
    modValid := by simp [Store.current, hm, hget]
    procValid := by
      rintro m' k ⟨⟩
      refine ⟨hm, ?_⟩
      simp [Store.process?, hget, Module.addProcess]
    syncValid := by simp
    design := by
      refine (h.design_closed _).modify ?_ fun _ _ _ _ => id
      intro x y _ hy hxy
      rw [hget] at hy
      cases hy
      refine { hxy with processes := hxy.processes.snoc ?_ }
      rw [openAt_closed]
      exact ⟨rfl, .nil _, .nil⟩
    idle := by simp
    tops := by
      rintro m' k ⟨⟩
      exact ⟨_, _, .root, rfl, rfl⟩
    unbegun := fun hmod => by
      have hmod' : σ.mod = none := hmod
      rw [hm] at hmod'
      cases hmod'
    placeModule := h.placeModule
    placeBegan := by simp
    placeProcess := rfl }

/-- A change of the sync rules of the current process. -/
theorem Grows.syncs {m k : Nat} {x : Option (Nat × Nat × Nat)} (h : Grows place b σ p w) (hproc : σ.proc = some (m, k))
    (hx : ∀ {m' k' i}, x = some (m', k', i) → (m', k') = (m, k))
    {f : Process CaseRule MemWriteAction → Process CaseRule MemWriteAction}
    {g : Process (List TreeCall) MemWrite → Process (List TreeCall) MemWrite}
    (hfg : ∀ {a e}, b.process? m k = some a → ProcessGrows (p, w) a e → ProcessGrows (p, w) (f a) (g e)) :
    Grows place { b with toStore := { b.toStore.inProcess m k f with sync := x } }
      { σ.inProcess m k g with sync := x } p w where
  session := h.session
  poisoned := h.poisoned
  mod := h.mod
  proc := h.proc
  sync := rfl
  modValid := (isSome_current_inProcess (s := σ)).trans h.modValid
  procValid := by
    intro m' k' hproc'
    have hsome : ((σ.inProcess m k g).process? m' k').isSome := by
      rw [process?_inProcess, Option.isSome_map]
      exact (h.procValid hproc').2
    exact ⟨(h.procValid hproc').1, hsome⟩
  syncValid hsync := by
    rw [hx hsync]
    exact hproc
  design := h.inProcess hproc rfl hfg
  idle := h.idle
  tops := h.tops
  unbegun := h.unbegun
  placeModule := h.placeModule
  placeBegan := h.placeBegan
  placeProcess := h.placeProcess

/-! ## Sync rules -/

theorem Grows.addSync (type : SyncType) (signal : SigSpec) (h : Grows place b σ p w) (hproc : σ.proc.isSome) :
    Grows place { b with toStore := b.toStore.addSync ⟨type, signal, [], []⟩ } (σ.addSync ⟨type, signal, [], []⟩) p w := by
  obtain ⟨⟨m, k⟩, hproc⟩ := Option.isSome_iff_exists.mp hproc
  obtain ⟨x, y, hx, hy, hxy⟩ := h.exists_process hproc
  rw [Store.addSync, Store.addSync, h.proc, hproc]
  dsimp only
  rw [hx, hy, Option.elim_some, Option.elim_some, hxy.syncs.length]
  refine h.syncs hproc (by rintro m' k' i ⟨⟩; rfl) ?_
  intro x' y' hx' hxy'
  refine { hxy' with syncs := hxy'.syncs.snoc ⟨rfl, rfl, rfl, rfl, ?_⟩ }
  intro i w hw
  simp at hw

/-- A change of the current sync rule. -/
theorem Grows.inSync {f : SyncRule MemWriteAction → SyncRule MemWriteAction} {g : SyncRule MemWrite → SyncRule MemWrite}
    (h : Grows place b σ p w)
    (hfg : ∀ {a e}, b.currentSync = some a → RealizesSync a e → RealizesSync (f a) (g e)) :
    Grows place { b with toStore := b.toStore.inSync f } (σ.inSync g) p w := by
  cases hsync : σ.sync with
  | none =>
    have hb : b.sync = none := h.sync.trans hsync
    simpa only [Store.inSync, hsync, hb] using h
  | some s =>
    obtain ⟨m, k, i⟩ := s
    have hproc := h.syncValid hsync
    have hb : b.sync = some (m, k, i) := h.sync.trans hsync
    have hstep := h.syncs hproc (x := some (m, k, i)) (by rintro m' k' i' ⟨⟩; rfl)
      (f := fun p => p.modifySync i f) (g := fun p => p.modifySync i g) (by
        intro x y hx hxy
        refine { hxy with syncs := hxy.syncs.modify ?_ fun _ _ _ _ => id }
        intro a e ha _ hae
        refine hfg ?_ hae
        rw [Store.currentSync, hb, Option.bind_some]
        dsimp only
        rw [hx]
        exact ha)
    rw [Store.inSync, Store.inSync, hsync, hb]
    dsimp only
    have hstore : { b.toStore.inProcess m k (·.modifySync i f) with sync := some (m, k, i) } =
        b.toStore.inProcess m k (·.modifySync i f) := by
      rw [← hb]
      rfl
    have hplan : { σ.inProcess m k (·.modifySync i g) with sync := some (m, k, i) } =
        σ.inProcess m k (·.modifySync i g) := by
      rw [← hsync]
      rfl
    rwa [hstore, hplan] at hstep

theorem RealizesSync.addAction {a : SyncRule MemWriteAction} {e : SyncRule MemWrite} (x : SigSig)
    (h : RealizesSync a e) : RealizesSync (a.addAction x) (e.addAction x) :=
  { h with actions := by rw [SyncRule.addAction, SyncRule.addAction, h.actions] }

theorem priorityMask_eq (hlib : lib.Documented) (mid : Id) (earlier : List MemWriteAction) :
    priorityMask lib mid earlier = earlier.map fun e => if e.memid = mid then .s1 else .s0 := by
  have hzero : lib.constInt 0 earlier.length = List.replicate earlier.length .s0 := by
    rw [hlib.int, List.eq_replicate_iff]
    refine ⟨by simp, ?_⟩
    intro s hs
    obtain ⟨i, -, rfl⟩ := List.mem_map.mp hs
    simp
  rw [priorityMask, hzero]
  clear hzero
  induction earlier with
  | nil => rfl
  | cons e earlier ih => rw [List.length_cons, List.replicate_succ, List.zipWith_cons_cons, List.map_cons, ih]

theorem Prioritized.snoc {writes : List MemWriteAction} {x : MemWriteAction} (h : Prioritized writes)
    (hx : x.priorityMask = writes.map fun e => if e.memid = x.memid then State.s1 else .s0) :
    Prioritized (writes ++ [x]) := by
  intro i y hy
  rw [List.getElem?_append] at hy
  split_ifs at hy with hlt
  · rw [h hy, List.take_append_of_le_length hlt.le]
  · have hi : i = writes.length := by
      have := (List.getElem?_eq_some_iff.mp hy).1
      simp at this
      omega
    subst hi
    simp at hy
    subst hy
    rw [hx, List.take_left']
    rfl

theorem RealizesSync.addWrite {a : SyncRule MemWriteAction} {e : SyncRule MemWrite} {x : MemWriteAction}
    (h : RealizesSync a e)
    (hx : x.priorityMask = a.memWriteActions.map fun e => if e.memid = x.memid then State.s1 else .s0) :
    RealizesSync (a.addWrite x) (e.addWrite x.toMemWrite) :=
  { h with
    writes := by rw [SyncRule.addWrite, SyncRule.addWrite, List.map_append, h.writes]; rfl
    prioritized := Prioritized.snoc h.prioritized hx }

end Grows

end Yosys.Facade
