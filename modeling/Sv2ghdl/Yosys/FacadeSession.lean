import Sv2ghdl.Yosys.FacadeFaithful

/-!
# Sessions of the builder

What one call keeps, what the calls of a session build, and how often the mutex is released.
-/

open Yosys.Rtlil Pieces Nesting
open Lookup (bind_eq_ok)

namespace Yosys.Facade

variable {lib : Library} {place : Place} {b : Builder} {σ : Plan} {p : Path} {w : Option Nat}

/-! ## Lists of strings -/

theorem Grows.compares (hlib : lib.Documented) (h : Grows place b σ p w) (hmod : σ.mod.isSome) {compare : Text}
    {sigs : List SigSpec} (hplain : ∀ txt ∈ compare.splitOn ';', Plain txt)
    (hok : b.compare lib compare = .ok sigs) : Compares lib σ compare sigs := by
  rw [Builder.compare] at hok
  rw [Compares]
  split_ifs at hok ⊢
  · cases hok
    rfl
  · refine ⟨compare.splitOn ';', (List.intercalate_splitOn ';').symm, fun t ht => not_mem_of_mem_splitOn ht, ?_⟩
    exact Traverse.forall₂_imp (fun t ht sig hsig => h.means hlib hmod (hplain t ht) hsig)
      (Traverse.mapM_eq_ok.mp hok)

/-- A new cell changes the meaning of no string. -/
theorem parse_addCell (b : Builder) (c : Cell) {txt : Text} {sig : SigSpec}
    (h : ({ b with toStore := b.toStore.inModule (·.addCell c) } : Builder).parse lib txt = .ok sig) :
    b.parse lib txt = .ok sig := by
  have hwires : (b.toStore.inModule (·.addCell c)).current.map Module.wire? = b.current.map Module.wire? := by
    rw [current_inModule, Option.map_map]
    rfl
  rw [parse_eq_ok, ← hwires]
  exact parse_eq_ok.mp h

/-- The ports of an instance are connected one after the other. -/
theorem Grows.connects (hlib : lib.Documented) (h : Grows place b σ p w) (hmod : σ.mod.isSome) {type id : Id}
    {items : List Text} (hplain : ∀ txt ∈ items.filterMap fun item => (cut '=' item).map (·.2), Plain txt)
    {ports : List (Id × SigSpec)} {b' : Builder}
    (hok : items.foldlM (fun b item => b.connectPort lib item)
      { b with toStore := b.toStore.inModule (·.addCell (.inst type id ports)) } = .ok b') :
    ∃ more, List.Forall₂ (Connects lib σ) items more ∧
      b' = { b with toStore := b.toStore.inModule (·.addCell (.inst type id (more.foldl setPort ports))) } := by
  induction items generalizing ports with
  | nil =>
    cases hok
    exact ⟨[], .nil, rfl⟩
  | cons item items ih =>
    rw [List.foldlM_cons] at hok
    obtain ⟨b₁, hone, hok⟩ := bind_eq_ok.mp hok
    simp only [Builder.connectPort, bind_eq_ok, orFail_eq_ok, require_eq_ok, escape_eq_ok] at hone
    obtain ⟨⟨name, spec⟩, hcut, -, hname, portId, hid, sig, hsig, hone⟩ := hone
    have hsig := parse_addCell b _ hsig
    have hitem : Connects lib σ item (portId, sig) := by
      obtain ⟨heq, hnot⟩ := cut_eq_some.mp hcut
      refine ⟨name, spec, heq, hname, hnot, hid, h.means hlib hmod (hplain spec ?_) hsig⟩
      exact List.mem_filterMap.mpr ⟨item, List.mem_cons_self, by rw [hcut]; rfl⟩
    have hstore : b₁ =
        { b with toStore := b.toStore.inModule (·.addCell (.inst type id (setPort ports (portId, sig)))) } := by
      cases hone
      rw [inModule_inModule]
      congr 2
      funext m
      have hlast : (m.cells ++ [Cell.inst type id ports]).modify m.cells.length (·.setPort (portId, sig)) =
          m.cells ++ [Cell.inst type id (setPort ports (portId, sig))] := modify_last _ _ _
      simp only [Function.comp_apply, Module.modifyCell, Module.addCell, List.length_append, List.length_singleton,
        Nat.add_sub_cancel, hlast]
    rw [hstore] at hok
    have hrest : ∀ txt ∈ items.filterMap fun item => (cut '=' item).map (·.2), Plain txt := by
      intro txt htxt
      obtain ⟨item', hitem', heq⟩ := List.mem_filterMap.mp htxt
      exact hplain txt (List.mem_filterMap.mpr ⟨item', List.mem_cons_of_mem _ hitem', heq⟩)
    obtain ⟨more, hmore, rfl⟩ := ih hrest hok
    exact ⟨_ :: more, .cons hitem hmore, rfl⟩

/-! ## One call -/

theorem Builder.enables {m : Int} {e enable : SigSpec} (h : b.enable m e = .ok enable) : Enables m e enable := by
  fun_cases Builder.enable b m e with
  | case1 bit =>
    cases h
    exact .inl ⟨bit, rfl, rfl⟩
  | case2 e hne hlen =>
    rw [Builder.enable.eq_2 _ _ _ hne, if_pos hlen] at h
    cases h
    exact .inr ⟨hlen, rfl⟩
  | case3 e hne hlen =>
    rw [Builder.enable.eq_2 _ _ _ hne, if_neg hlen] at h
    cases h

/-- A call that returns well adds what it means, and the builder stays beside the plan. -/
theorem Grows.step (hlib : lib.Documented) {c : Call} {b' : Builder} (h : Grows place b σ p w)
    (htakes : place.Takes c) (hplain : ∀ txt ∈ c.sigspecs, Plain txt) (hok : c.perform lib b = .ok b') :
    ∃ σ' p' w', Adds lib σ c σ' ∧ Grows (place.after c) b' σ' p' w' := by
  have hsome : place.module → σ.mod.isSome := fun hm => h.placeModule ▸ hm
  have hsomeProc : ∀ {m k}, σ.proc = some (m, k) → σ.mod.isSome := fun hproc => by rw [(h.procValid hproc).1]; rfl
  cases c with
  | module name =>
    simp only [Call.perform, bind_eq_ok, escape_eq_ok, require_eq_ok] at hok
    obtain ⟨id, hid, -, -, hok⟩ := hok
    cases hok
    exact ⟨_, _, _, .module hid, (h.addModule id htakes).hashed _⟩
  | wire name width dir initBits =>
    simp only [Call.perform, bind_eq_ok, escape_eq_ok] at hok
    obtain ⟨id, hid, b₁, hb₁, hok⟩ := hok
    obtain ⟨-, rfl⟩ := addNamed_eq_ok hb₁
    cases hok
    exact ⟨_, _, _, .wire (h.modValid.trans (hsome htakes)) hid, (h.addWire _).hashed _⟩
  | connect lhs rhs =>
    simp only [Call.perform, bind_eq_ok, require_eq_ok] at hok
    obtain ⟨a, ha, -, -, -, -, hok⟩ := hok
    cases hok
    have hmeans := h.assigns hlib (hsome htakes) (hplain lhs (by simp [Call.sigspecs]))
      (hplain rhs (by simp [Call.sigspecs])) ha
    exact ⟨_, _, _, .connect hmeans, (h.addConnection a).hashed _⟩
  | cellBin op name x y z isSigned =>
    simp only [Call.perform, bind_eq_ok, escape_eq_ok, orFail_eq_ok] at hok
    obtain ⟨id, hid, A, hA, B, hB, Y, hY, type, htype, b₁, hb₁, hok⟩ := hok
    obtain ⟨-, rfl⟩ := addNamed_eq_ok hb₁
    cases hok
    have hmeans := fun txt sig (htxt : txt ∈ [x, y, z]) (hsig : b.parse lib txt = .ok sig) =>
      h.means hlib (hsome htakes) (hplain txt htxt) hsig
    exact ⟨_, _, _, .cellBin hid htype (hmeans x A (by simp) hA) (hmeans y B (by simp) hB) (hmeans z Y (by simp) hY),
      (h.addCell _).hashed _⟩
  | cellUn op name x z isSigned =>
    simp only [Call.perform, bind_eq_ok, escape_eq_ok, orFail_eq_ok] at hok
    obtain ⟨id, hid, A, hA, Y, hY, type, htype, b₁, hb₁, hok⟩ := hok
    obtain ⟨-, rfl⟩ := addNamed_eq_ok hb₁
    cases hok
    have hmeans := fun txt sig (htxt : txt ∈ [x, z]) (hsig : b.parse lib txt = .ok sig) =>
      h.means hlib (hsome htakes) (hplain txt htxt) hsig
    exact ⟨_, _, _, .cellUn hid htype (hmeans x A (by simp) hA) (hmeans z Y (by simp) hY), (h.addCell _).hashed _⟩
  | cellInst type name conns =>
    simp only [Call.perform, bind_eq_ok, escape_eq_ok] at hok
    obtain ⟨id, hid, typeId, htype, b₁, hb₁, b₂, hb₂, hok⟩ := hok
    obtain ⟨-, rfl⟩ := addNamed_eq_ok hb₁
    obtain ⟨ports, hports, rfl⟩ := h.connects hlib (hsome htakes) hplain hb₂
    cases hok
    exact ⟨_, _, _, .cellInst hid htype (h.modValid.trans (hsome htakes)) hports, (h.addCell _).hashed _⟩
  | cellMux name x y s z =>
    simp only [Call.perform, bind_eq_ok, escape_eq_ok] at hok
    obtain ⟨id, hid, A, hA, B, hB, S, hS, Y, hY, b₁, hb₁, hok⟩ := hok
    obtain ⟨-, rfl⟩ := addNamed_eq_ok hb₁
    cases hok
    have hmeans := fun txt sig (htxt : txt ∈ [x, y, s, z]) (hsig : b.parse lib txt = .ok sig) =>
      h.means hlib (hsome htakes) (hplain txt htxt) hsig
    exact ⟨_, _, _, .cellMux hid (hmeans x A (by simp) hA) (hmeans y B (by simp) hB) (hmeans s S (by simp) hS)
      (hmeans z Y (by simp) hY), (h.addCell _).hashed _⟩
  | proc name =>
    simp only [Call.perform, bind_eq_ok, escape_eq_ok, theModule_eq_ok, require_eq_ok] at hok
    obtain ⟨id, hid, a, ha, -, -, hok⟩ := hok
    cases hok
    obtain ⟨m, hm⟩ := Option.isSome_iff_exists.mp (hsome htakes.1)
    have hgrows := h.addProcess id htakes.2 hm ha
    rw [h.mod, hm]
    exact ⟨_, _, _, .proc (h.modValid.trans (hsome htakes.1)) hid, hgrows.hashed _⟩
  | memory name width size =>
    simp only [Call.perform, bind_eq_ok, escape_eq_ok, require_eq_ok] at hok
    obtain ⟨-, ⟨hwidth, hsize⟩, id, hid, -, -, hok⟩ := hok
    cases hok
    exact ⟨_, _, _, .memory (h.modValid.trans (hsome htakes)) hid hwidth hsize, (h.setMemory _).hashed _⟩
  | memrd name memid addr data =>
    simp only [Call.perform, bind_eq_ok, escape_eq_ok, theModule_eq_ok, require_eq_ok] at hok
    obtain ⟨mid, hmid, a, ha, -, hmem, A, hA, D, hD, id, hid, b₁, hb₁, hok⟩ := hok
    obtain ⟨-, rfl⟩ := addNamed_eq_ok hb₁
    cases hok
    obtain ⟨a', e, m, -, ha', he, hae⟩ := h.exists_current (hsome htakes)
    rw [ha] at ha'
    cases ha'
    rw [Module.memory?, hae.memories, ← Module.memory?] at hmem
    have hmeans := fun txt sig (htxt : txt ∈ [addr, data]) (hsig : b.parse lib txt = .ok sig) =>
      h.means hlib (hsome htakes) (hplain txt htxt) hsig
    exact ⟨_, _, _, .memrd hid hmid he hmem (hmeans addr A (by simp) hA) (hmeans data D (by simp) hD),
      (h.addCell _).hashed _⟩
  | syncMemwr memid addr data en =>
    simp only [Call.perform, bind_eq_ok, escape_eq_ok, theModule_eq_ok, require_eq_ok, orFail_eq_ok] at hok
    obtain ⟨-, hsync, mid, hmid, a, ha, memory, hmem, A, hA, D, hD, -, hwidth, E, hE, enable, henable, hok⟩ := hok
    cases hok
    rw [h.sync] at hsync
    obtain ⟨⟨m, k, i⟩, hs⟩ := Option.isSome_iff_exists.mp hsync
    have hmod := hsomeProc (h.syncValid hs)
    obtain ⟨a', e, m', -, ha', he, hae⟩ := h.exists_current hmod
    rw [ha] at ha'
    cases ha'
    rw [Module.memory?, hae.memories, ← Module.memory?] at hmem
    have hmeans := fun txt sig (htxt : txt ∈ [addr, data, en]) (hsig : b.parse lib txt = .ok sig) =>
      h.means hlib hmod (hplain txt htxt) hsig
    refine ⟨_, _, _, .syncMemwr hsync hmid he hmem (hmeans addr A (by simp) hA) (hmeans data D (by simp) hD) hwidth
      (hmeans en E (by simp) hE) (Builder.enables henable), (h.inSync ?_).hashed _⟩
    intro x y hx hxy
    apply hxy.addWrite
    rw [hx]
    exact priorityMask_eq hlib mid _
  | sync edge sig =>
    simp only [Call.perform, bind_eq_ok, require_eq_ok, orFail_eq_ok] at hok
    obtain ⟨-, hproc, type, htype, signal, hsignal, hok⟩ := hok
    cases hok
    rw [h.proc] at hproc
    obtain ⟨⟨m, k⟩, hmk⟩ := Option.isSome_iff_exists.mp hproc
    refine ⟨_, _, _, .sync hproc htype ?_, (h.addSync type signal hproc).hashed _⟩
    rw [Builder.signal] at hsignal
    split_ifs at hsignal ⊢ with hhas
    · refine h.means hlib (hsomeProc hmk) (hplain sig ?_) hsignal
      rw [Call.sigspecs, htype, Option.any_some, if_pos hhas]
      exact List.mem_cons_self
    · cases hsignal
      rfl
  | syncAssign lhs rhs =>
    simp only [Call.perform, bind_eq_ok, require_eq_ok] at hok
    obtain ⟨-, hsync, a, ha, hok⟩ := hok
    cases hok
    rw [h.sync] at hsync
    obtain ⟨⟨m, k, i⟩, hs⟩ := Option.isSome_iff_exists.mp hsync
    have hmeans := h.assigns hlib (hsomeProc (h.syncValid hs)) (hplain lhs (by simp [Call.sigspecs]))
      (hplain rhs (by simp [Call.sigspecs])) ha
    exact ⟨_, _, _, .syncAssign hsync hmeans, (h.inSync fun _ hxy => hxy.addAction a).hashed _⟩
  | caseAssign lhs rhs =>
    simp only [Call.perform, bind_eq_ok, orFail_eq_ok] at hok
    obtain ⟨r, hr, a, ha, hok⟩ := hok
    cases hok
    obtain ⟨m, k, hproc⟩ := h.exists_proc htakes.1 (by rintro hnil; rw [hnil] at hr; cases hr)
    have hplace := h.place_of_proc hproc
    have hw : w = none := by simpa using htakes.2 _ _ hplace
    subst hw
    obtain ⟨cs, ss, hstacks, hcases, hswitches⟩ := h.tops hproc
    rw [hcases, List.head?_map, hstacks.head] at hr
    cases hr
    have hmeans := h.assigns hlib (hsomeProc hproc) (hplain lhs (by simp [Call.sigspecs]))
      (hplain rhs (by simp [Call.sigspecs])) ha
    refine ⟨_, p, none, .caseAssign (by rw [hproc]; rfl) hmeans, Grows.hashed ?_ _⟩
    exact h.tree hproc (fun _ htree => htree.assign a) ⟨cs, ss, hstacks, hcases, hswitches⟩ rfl rfl hplace
  | switchBegin sig =>
    simp only [Call.perform, bind_eq_ok, orFail_eq_ok] at hok
    obtain ⟨r, hr, signal, hsignal, hok⟩ := hok
    cases hok
    obtain ⟨m, k, hproc⟩ := h.exists_proc htakes.1 (by rintro hnil; rw [hnil] at hr; cases hr)
    have hplace := h.place_of_proc hproc
    have hw : w = none := by simpa using htakes.2 _ _ hplace
    subst hw
    obtain ⟨cs, ss, hstacks, hcases, hswitches⟩ := h.tops hproc
    rw [hcases, List.head?_map, hstacks.head] at hr
    cases hr
    have hmeans := h.means hlib (hsomeProc hproc) (hplain sig (by simp [Call.sigspecs])) hsignal
    obtain ⟨x, y, hx, -, -⟩ := h.exists_process hproc
    refine ⟨_, p, some (x.tree.switchCount p), .switchBegin (by rw [hproc]; rfl) hmeans, Grows.hashed ?_ _⟩
    refine h.tree hproc ?_ ⟨cs, ss, hstacks, hcases, ?_⟩ rfl rfl ?_
    · intro x' es hx' htree
      rw [hx] at hx'
      cases hx'
      exact htree.switchBegin signal
    · rw [hswitches]
      simp only [Builder.tree?, hx, Option.map_some, Option.elim_some]
      rfl
    · rw [Place.after, hplace]
      rfl
  | caseBegin compare =>
    simp only [Call.perform, bind_eq_ok, orFail_eq_ok] at hok
    obtain ⟨r, hr, sigs, hsigs, hok⟩ := hok
    cases hok
    obtain ⟨m, k, hproc⟩ := h.exists_proc_of_switch (by rintro hnil; rw [hnil] at hr; cases hr)
    have hplace := h.place_of_proc hproc
    obtain ⟨cs, ss, hstacks, hcases, hswitches⟩ := h.tops hproc
    obtain ⟨i, rfl⟩ : ∃ i, w = some i := by
      rcases w with _ | i
      · have hp := List.length_eq_zero_iff.mp (htakes p.length hplace)
        subst hp
        obtain ⟨-, rfl⟩ := hstacks.of_nil
        rw [hswitches] at hr
        cases hr
      · exact ⟨i, rfl⟩
    rw [hswitches] at hr
    cases hr
    have hmeans := h.compares hlib (hsomeProc hproc) hplain hsigs
    obtain ⟨x, y, hx, -, -⟩ := h.exists_process hproc
    refine ⟨_, p ++ [(i, x.tree.caseCount p i)], none, .caseBegin (by rw [hproc]; rfl) hmeans, Grows.hashed ?_ _⟩
    refine h.tree hproc ?_ ⟨_, _, hstacks.inside _, ?_, ?_⟩ rfl rfl ?_
    · intro x' es hx' htree
      rw [hx] at hx'
      cases hx'
      exact htree.caseBegin sigs
    · rw [hcases]
      simp only [Builder.tree?, hx, Option.map_some, Option.elim_some]
      rfl
    · show b.switches = _
      rw [hswitches]
      rfl
    · rw [Place.after, hplace]
      simp
  | caseAssignRoot lhs rhs =>
    simp only [Call.perform, bind_eq_ok, orFail_eq_ok] at hok
    obtain ⟨r, hr, a, ha, hok⟩ := hok
    cases hok
    obtain ⟨m, k, hproc⟩ := h.exists_proc htakes (by rintro hnil; rw [hnil] at hr; cases hr)
    have hplace := h.place_of_proc hproc
    obtain ⟨cs, ss, hstacks, hcases, hswitches⟩ := h.tops hproc
    rw [hcases, List.getLast?_map, hstacks.getLast] at hr
    cases hr
    have hmeans := h.assigns hlib (hsomeProc hproc) (hplain lhs (by simp [Call.sigspecs]))
      (hplain rhs (by simp [Call.sigspecs])) ha
    refine ⟨_, p, w, .caseAssignRoot (by rw [hproc]; rfl) hmeans, Grows.hashed ?_ _⟩
    exact h.tree hproc (fun _ htree => htree.assignRoot a) ⟨cs, ss, hstacks, hcases, hswitches⟩ rfl rfl hplace
  | caseEnd =>
    simp only [Call.perform, bind_eq_ok, require_eq_ok] at hok
    obtain ⟨-, hlt, hok⟩ := hok
    cases hok
    obtain ⟨m, k, hproc⟩ : ∃ m k, σ.proc = some (m, k) := by
      cases hproc : σ.proc with
      | some x => exact ⟨x.1, x.2, rfl⟩
      | none =>
        have := (h.idle hproc).2.2.2
        omega
    have hplace := h.place_of_proc hproc
    obtain ⟨cs, ss, hstacks, hcases, hswitches⟩ := h.tops hproc
    rw [hcases, List.length_map, hstacks.length] at hlt
    have hw : w = none := by
      rcases w with _ | i
      · rfl
      · have := htakes p.length hplace
        omega
    subst hw
    obtain ⟨p, x, rfl⟩ := List.eq_nil_or_concat' p |>.resolve_left (by rintro rfl; simp at hlt)
    obtain ⟨cs, ss, rfl, rfl, hstacks'⟩ := hstacks.of_snoc
    refine ⟨_, p, some x.1, .caseEnd (by rw [hproc]; rfl), Grows.hashed ?_ _⟩
    refine h.close hproc (fun htree => htree.caseEnd) ⟨cs, ss, hstacks', ?_, hswitches⟩ rfl rfl ?_
    · rw [hcases]
      rfl
    · rw [Place.after, hplace]
      simp
  | switchEnd =>
    simp only [Call.perform, bind_eq_ok, require_eq_ok] at hok
    obtain ⟨-, hne, hok⟩ := hok
    cases hok
    obtain ⟨m, k, hproc⟩ := h.exists_proc_of_switch hne
    have hplace := h.place_of_proc hproc
    obtain ⟨cs, ss, hstacks, hcases, hswitches⟩ := h.tops hproc
    obtain ⟨i, rfl⟩ : ∃ i, w = some i := by
      rcases w with _ | i
      · have hp := List.length_eq_zero_iff.mp (htakes p.length hplace)
        subst hp
        obtain ⟨-, rfl⟩ := hstacks.of_nil
        exact absurd hswitches hne
      · exact ⟨i, rfl⟩
    refine ⟨_, p, none, .switchEnd (by rw [hproc]; rfl), Grows.hashed ?_ _⟩
    refine h.close hproc (fun htree => htree.switchEnd) ⟨cs, ss, hstacks, hcases, ?_⟩ rfl rfl ?_
    · rw [hswitches]
      rfl
    · rw [Place.after, hplace]
      rfl

/-! ## Runs -/

/-- Outside a session, and after a failed call, nothing happens. -/
def Dead (b : Builder) : Prop := b.session = false ∨ b.poisoned = true

theorem rtlilCall_dead (c : Call) (h : Dead b) : rtlilCall lib c b = some (b, 2) := by
  rw [rtlilCall, if_pos]
  rcases h with h | h <;> simp [h]

theorem runCalls_dead (cs : List Call) (h : Dead b) : runCalls lib cs b = some (b, cs.map fun _ => 2) := by
  induction cs with
  | nil => rfl
  | cons c cs ih =>
    rw [runCalls, rtlilCall_dead c h, Option.bind_eq_bind, Option.bind_some]
    dsimp only
    rw [ih]
    rfl

theorem rtlilCall_alive {c : Call} {b' : Builder} {r : Int} (h : ¬ Dead b) (hc : rtlilCall lib c b = some (b', r)) :
    (r = 0 ∧ c.perform lib b = .ok b') ∨ (r = 2 ∧ Dead b' ∧ ∃ b₁, c.perform lib b = .error (.bail, b₁)) := by
  have hguard : ¬ (!b.session || b.poisoned) := by
    simpa [Dead] using h
  rw [rtlilCall, if_neg hguard] at hc
  split at hc
  · rename_i hok
    cases hc
    exact .inl ⟨rfl, hok⟩
  · rename_i hbail
    cases hc
    exact .inr ⟨rfl, .inr rfl, _, hbail⟩
  · cases hc

theorem runCalls_append (cs cs' : List Call) (b : Builder) :
    runCalls lib (cs ++ cs') b =
      (runCalls lib cs b).bind fun r => (runCalls lib cs' r.1).map fun r' => (r'.1, r.2 ++ r'.2) := by
  induction cs generalizing b with
  | nil => simp [runCalls]
  | cons c cs ih =>
    rw [List.cons_append, runCalls, runCalls]
    cases hc : rtlilCall lib c b with
    | none => rfl
    | some r =>
      simp only [Option.bind_eq_bind, Option.bind_some, ih]
      cases runCalls lib cs r.1 with
      | none => rfl
      | some r' =>
        simp only [Option.bind_some, Option.pure_def]
        cases runCalls lib cs' r'.1 <;> rfl

theorem length_runCalls {cs : List Call} {b' : Builder} {rs : List Int} (h : runCalls lib cs b = some (b', rs)) :
    rs.length = cs.length := by
  induction cs generalizing b rs with
  | nil =>
    cases h
    rfl
  | cons c cs ih =>
    rw [runCalls] at h
    obtain ⟨r, -, h⟩ := Option.bind_eq_some_iff.mp h
    obtain ⟨r', hr', h⟩ := Option.bind_eq_some_iff.mp h
    cases h
    rw [List.length_cons, List.length_cons, ih hr']

/-- Calls that neither cross nor are loosely written, whatever the builder does with them. -/
theorem orderly_cons {place : Place} {c : Call} {cs : List Call} (htakes : place.Takes c)
    (hplain : ∀ txt ∈ c.sigspecs, Plain txt) (h : ∀ b, Orderly lib (place.after c) b cs) (b : Builder) :
    Orderly lib place b (c :: cs) :=
  ⟨fun _ => ⟨htakes, hplain⟩, fun r _ => h r.1⟩

theorem Orderly.left {cs cs' : List Call} (h : Orderly lib place b (cs ++ cs')) : Orderly lib place b cs := by
  induction cs generalizing place b with
  | nil => trivial
  | cons c cs ih => exact ⟨h.1, fun r hr => ih (h.2 r hr)⟩

/-- The rest of an orderly run is orderly. -/
theorem Orderly.right {cs cs' : List Call} {b₁ : Builder} {rs : List Int} (h : Orderly lib place b (cs ++ cs'))
    (hrun : runCalls lib cs b = some (b₁, rs)) : ∃ place', Orderly lib place' b₁ cs' := by
  induction cs generalizing place b rs with
  | nil =>
    cases hrun
    exact ⟨place, h⟩
  | cons c cs ih =>
    rw [runCalls] at hrun
    obtain ⟨r, hr, hrun⟩ := Option.bind_eq_some_iff.mp hrun
    obtain ⟨r', hr', hrun⟩ := Option.bind_eq_some_iff.mp hrun
    cases hrun
    exact ih (h.2 r hr) hr'

/-- A failed call leaves the session dead. -/
theorem runCalls_failed {cs : List Call} {b' : Builder} {rs : List Int} (h : runCalls lib cs b = some (b', rs))
    (hfailed : ∃ r ∈ rs, r ≠ 0) : Dead b' := by
  induction cs generalizing b rs with
  | nil =>
    cases h
    obtain ⟨r, hr, -⟩ := hfailed
    cases hr
  | cons c cs ih =>
    by_cases hdead : Dead b
    · rw [runCalls_dead _ hdead] at h
      cases h
      exact hdead
    rw [runCalls] at h
    obtain ⟨⟨b₁, r⟩, hc, h⟩ := Option.bind_eq_some_iff.mp h
    obtain ⟨⟨b₂, rest⟩, hrest, h⟩ := Option.bind_eq_some_iff.mp h
    cases h
    rcases rtlilCall_alive hdead hc with ⟨rfl, -⟩ | ⟨-, hdead', -⟩
    · obtain ⟨r, hr, hne⟩ := hfailed
      rcases List.mem_cons.mp hr with rfl | hr
      · exact absurd rfl hne
      · exact ih hrest ⟨r, hr, hne⟩
    · rw [runCalls_dead _ hdead'] at hrest
      cases hrest
      exact hdead'

theorem Grows.not_crash {c : Call} (h : Grows place b σ p w) (htakes : place.Takes c) (b' : Builder) :
    c.perform lib b ≠ .error (.crash, b') := by
  cases hmod : σ.mod with
  | some m =>
    intro hcrash
    obtain ⟨a, -, -, -, ha, -⟩ := h.exists_current (by rw [hmod]; rfl)
    have hend : Ends False b (Kept b) (c.perform lib b) := perform_ends (by rw [ha]; nofun) c
    rw [hcrash] at hend
    exact hend
  | none =>
    have hproc : σ.proc = none := by
      cases hproc : σ.proc with
      | none => rfl
      | some x =>
        rw [(h.procValid hproc).1] at hmod
        cases hmod
    have hsync : σ.sync = none := by
      cases hsync : σ.sync with
      | none => rfl
      | some s =>
        rw [h.syncValid hsync] at hproc
        cases hproc
    have hmodule : place.module = false := by rw [h.placeModule, hmod]; rfl
    exact perform_ne_crash_start htakes hmodule (h.unbegun hmod) (h.idle hproc).2.2.1 (h.proc.trans hproc)
      (h.sync.trans hsync) b'

/-- The calls of a session return, and while none fails the builder stays beside the plan. -/
theorem Grows.run (hlib : lib.Documented) {cs₀ cs : List Call} (hplans : Plans lib cs₀ σ) (h : Grows place b σ p w)
    (horderly : Orderly lib place b cs) :
    ∃ b' rs, runCalls lib cs b = some (b', rs) ∧
      ((∀ r ∈ rs, r = 0) → ∃ place' σ' p' w', Plans lib (cs₀ ++ cs) σ' ∧ Grows place' b' σ' p' w') := by
  induction cs generalizing cs₀ place b σ p w with
  | nil => exact ⟨b, [], rfl, fun _ => ⟨place, σ, p, w, by rwa [List.append_nil], h⟩⟩
  | cons c cs ih =>
    have halive : ¬ Dead b := by simp [Dead, h.session, h.poisoned]
    obtain ⟨htakes, hplain⟩ := horderly.1 h.poisoned
    cases hc : rtlilCall lib c b with
    | none =>
      have hguard : ¬ (!b.session || b.poisoned) := by simp [h.session, h.poisoned]
      rw [rtlilCall, if_neg hguard] at hc
      split at hc
      · cases hc
      · cases hc
      · exact absurd ‹_› (h.not_crash htakes _)
    | some r =>
      obtain ⟨b₁, r⟩ := r
      have hnext := horderly.2 _ hc
      rcases rtlilCall_alive halive hc with ⟨rfl, hok⟩ | ⟨rfl, hdead, -⟩
      · obtain ⟨σ₁, p₁, w₁, hadds, hgrows⟩ := h.step hlib htakes hplain hok
        obtain ⟨b', rs, hrun, hall⟩ := ih (hplans.snoc hadds) hgrows hnext
        refine ⟨b', 0 :: rs, by simp [runCalls, hc, hrun], ?_⟩
        intro hzero
        rw [← List.append_cons] at hall
        exact hall fun r hr => hzero r (List.mem_cons_of_mem _ hr)
      · refine ⟨b₁, 2 :: cs.map fun _ => 2, by simp [runCalls, hc, runCalls_dead cs hdead], ?_⟩
        intro hzero
        cases hzero 2 List.mem_cons_self

/-! ## What a session builds -/

theorem Grows.realizes (h : Grows place b σ [] none) : Realizes b.design σ := by
  refine (h.design.imp (s := fun _ => RealizesModule) fun m a e hae => ?_).forall₂
  refine { hae with processes := (hae.processes.imp (s := fun _ => RealizesProcess) fun k x y hxy => ?_).forall₂ }
  rw [openAt_closed] at hxy
  exact ⟨hxy.name, hxy.tree.reads, hxy.syncs.forall₂⟩

/-- The stacks are closed when they hold at most a root. -/
theorem Grows.closed_of_stacks (h : Grows place b σ p w) (hswitches : b.switches = []) (hcases : b.cases.length ≤ 1) :
    p = [] ∧ w = none := by
  cases hproc : σ.proc with
  | none => exact ⟨(h.idle hproc).1, (h.idle hproc).2.1⟩
  | some x =>
    obtain ⟨cs, ss, hstacks, hcs, hss⟩ := h.tops hproc
    rw [hcs, List.length_map, hstacks.length] at hcases
    rw [hswitches] at hss
    have hw : w.toList.map (p, ·) ++ ss = [] := List.map_eq_nil_iff.mp hss.symm
    refine ⟨List.length_eq_zero_iff.mp (by omega), ?_⟩
    cases w with
    | none => rfl
    | some i => cases hw

theorem Plans.of_nil {σ : Plan} (h : Plans lib [] σ) : σ = .empty := by
  generalize hcs : ([] : List Call) = cs at h
  cases h with
  | nil => rfl
  | snoc => simp at hcs

theorem Plans.of_snoc {cs : List Call} {c : Call} {σ' : Plan} (h : Plans lib (cs ++ [c]) σ') :
    ∃ σ, Plans lib cs σ ∧ Adds lib σ c σ' := by
  generalize hcs : cs ++ [c] = cs' at h
  cases h with
  | nil => simp at hcs
  | snoc h hc =>
    obtain ⟨rfl, heq⟩ := List.append_inj' hcs rfl
    cases heq
    exact ⟨_, h, hc⟩

/-- The prefix of a run. -/
theorem runCalls_take {cs cs' : List Call} {b' : Builder} {rs : List Int}
    (h : runCalls lib (cs ++ cs') b = some (b', rs)) : ∃ b₁, runCalls lib cs b = some (b₁, rs.take cs.length) := by
  rw [runCalls_append] at h
  obtain ⟨⟨b₁, rs₁⟩, h₁, h⟩ := Option.bind_eq_some_iff.mp h
  obtain ⟨⟨b₂, rs₂⟩, -, h⟩ := Option.map_eq_some_iff.mp h
  cases h
  refine ⟨b₁, ?_⟩
  rw [h₁, ← length_runCalls h₁, List.take_left']
  rfl

theorem buildsOrDeclines (hlib : lib.Documented) {cs : List Call} {b : Builder}
    (h : Orderly lib .start b.opened cs) : BuildsOrDeclines lib cs b where
  returns := by
    obtain ⟨b', rs, hrun, -⟩ := (Grows.start b).run hlib .nil h
    exact ⟨_, hrun⟩
  builds := by
    intro b' rs fixes design hrun hdesign
    obtain ⟨b'', rs', hrun', hall⟩ := (Grows.start b).run hlib .nil h
    rw [hrun] at hrun'
    cases hrun'
    rw [Builder.synthesized] at hdesign
    split_ifs at hdesign with hgo
    cases hdesign
    simp only [Bool.and_eq_true, Bool.not_eq_true', decide_eq_true_eq, List.isEmpty_iff] at hgo
    obtain ⟨⟨⟨⟨hsession, hpoisoned⟩, hswitches⟩, hcases⟩, -⟩ := hgo
    have hzero : ∀ r ∈ rs, r = 0 := by
      by_contra hne
      push Not at hne
      rcases runCalls_failed hrun hne with hdead | hdead
      · rw [hsession] at hdead
        cases hdead
      · rw [hpoisoned] at hdead
        cases hdead
    obtain ⟨place', σ', p', w', hplans, hgrows⟩ := hall hzero
    obtain ⟨rfl, rfl⟩ := hgrows.closed_of_stacks hswitches hcases
    exact ⟨hzero, σ', hplans, hgrows.realizes⟩
  reads := by
    rintro c cs₁ cs₂ b₁ rs₁ m rfl hrun hzero hm txt htxt sig
    obtain ⟨b', rs', hrun', hall⟩ := (Grows.start b).run hlib .nil h.left
    rw [hrun] at hrun'
    cases hrun'
    obtain ⟨_, _, _, _, _, hgrows⟩ := hall hzero
    obtain ⟨place', hrest⟩ := h.right hrun
    rw [parse_eq_ok, hm]
    exact parseSigspec_iff hlib ((hrest.1 hgrows.poisoned).2 txt htxt)
  fails := by
    rintro c cs₁ cs₂ b' rs rfl hrun hmeans
    by_contra hzero
    push Not at hzero
    rw [List.append_cons] at hrun h
    obtain ⟨b₁, hrun₁⟩ := runCalls_take hrun
    obtain ⟨b'', rs', hrun', hall⟩ := (Grows.start b).run hlib .nil h.left
    rw [hrun₁, List.length_append, List.length_singleton] at hrun'
    cases hrun'
    obtain ⟨-, σ', -, -, hplans, -⟩ := hall hzero
    obtain ⟨σ, hσ, hadds⟩ := Plans.of_snoc hplans
    exact hmeans σ σ' hσ hadds
  frozen := by
    intro cs₁ cs₂ b₁ rs₁ b₂ rs₂ _ hrun₁ hfailed hrun₂
    rw [runCalls_dead cs₂ (runCalls_failed hrun₁ hfailed)] at hrun₂
    cases hrun₂
    refine ⟨rfl, ?_⟩
    intro r hr
    obtain ⟨-, -, rfl⟩ := List.mem_map.mp hr
    decide

/-! ## The mutex -/

theorem rtlilCall_kept {c : Call} {b' : Builder} {r : Int} (h : rtlilCall lib c b = some (b', r)) :
    b'.session = b.session ∧ b'.locks = b.locks ∧ b'.unlocks = b.unlocks := by
  have hend : Ends True b (Kept b) (c.perform lib b) := perform_ends (fun _ => trivial) c
  rw [rtlilCall] at h
  split_ifs at h
  · cases h
    exact ⟨rfl, rfl, rfl⟩
  · split at h
    · rename_i hok
      cases h
      rw [hok] at hend
      exact ⟨hend.session, hend.locks, hend.unlocks⟩
    · rename_i hbail
      cases h
      rw [hbail] at hend
      exact ⟨hend.session, hend.locks, hend.unlocks⟩
    · cases h

/-- The mutex has been taken `n` times and is held by an open session. -/
def Holds (n : Nat) (b : Builder) : Prop := b.locks = n ∧ b.unlocks + b.session.toNat = b.locks

theorem Holds.close {n : Nat} (h : Holds n b) (hsession : b.session = true) : Holds n b.close := by
  obtain ⟨hlocks, hunlocks⟩ := h
  rw [hsession] at hunlocks
  exact ⟨hlocks, hunlocks⟩

/-- One entry keeps the count of the mutex. -/
theorem Holds.step {n : Nat} (h : Holds n b) {e : Entry} {b' : Builder} (he : e.step lib b = some b') :
    Holds (n + if e.isBegin then 1 else 0) b' := by
  cases e with
  | begin resets =>
    rw [Entry.step] at he
    split_ifs at he with hfree
    cases he
    obtain ⟨hlocks, hunlocks⟩ := h
    cases resets <;> refine ⟨?_, ?_⟩ <;> simp [gsmRtlilBegin, Entry.isBegin] <;> omega
  | call c =>
    obtain ⟨⟨b₁, r⟩, hc, rfl⟩ := Option.map_eq_some_iff.mp he
    obtain ⟨hsession, hlocks, hunlocks⟩ := rtlilCall_kept hc
    obtain ⟨hn, hcount⟩ := h
    exact ⟨hlocks.trans hn, by rw [hunlocks, hsession, hlocks, hcount]⟩
  | synth fixes ran =>
    cases he
    show Holds (n + 0) _
    rw [gsmRtlilSynth]
    cases hsession : b.session with
    | false => simpa using h
    | true => simpa using h.close hsession
  | abort resets =>
    cases he
    show Holds (n + 0) _
    rw [gsmRtlilAbort]
    cases hsession : b.session with
    | false => simpa using h
    | true => simpa [Holds] using h.close hsession

theorem Holds.run {n : Nat} (h : Holds n b) {es : List Entry} {b' : Builder}
    (hrun : es.foldlM (Entry.step lib) b = some b') : Holds (n + es.countP Entry.isBegin) b' := by
  induction es generalizing n b with
  | nil =>
    cases hrun
    exact h
  | cons e es ih =>
    rw [List.foldlM_cons] at hrun
    obtain ⟨b₁, he, hrun⟩ := Option.bind_eq_some_iff.mp hrun
    have hall := ih (h.step he) hrun
    rw [List.countP_cons]
    rwa [Nat.add_assoc, Nat.add_comm (if e.isBegin then 1 else 0)] at hall

theorem releasesOnce (es : List Entry) : ReleasesOnce lib es := by
  intro b hrun
  have hstart : Holds 0 Builder.initial := ⟨rfl, rfl⟩
  have hall := hstart.run hrun
  rwa [Nat.zero_add] at hall

/-! ## Sessions -/

/-- While the calls do not cross and their strings are plainly written, the builder builds what is called or declines,
and the mutex is released for each begin. -/
theorem session_builds_or_declines (hlib : lib.Documented) {cs : List Call} {b : Builder}
    (h : Orderly lib .start b.opened cs) (es : List Entry) : BuildsOrDeclines lib cs b ∧ ReleasesOnce lib es :=
  ⟨buildsOrDeclines hlib h, releasesOnce es⟩

/-- A library that behaves as documented. -/
def plainLibrary : Library where
  escapeId
    | [] => none
    | '\\' :: t => some (String.ofList ('\\' :: t))
    | '$' :: t => some (String.ofList ('$' :: t))
    | t => some (String.ofList ('\\' :: t))
  constFromString ds := ds.reverse.map stateOf
  constInt v n := (List.range n).map fun i => if v / 2 ^ i % 2 = 1 then .s1 else .s0
  slice w lo n := (List.range' lo.toNat n).map (.wire w)
  addsModule ids id := id ∉ ids
  adds ids id := id ∉ ids
  connects l r := l.length = r.length

theorem plainLibrary_documented : plainLibrary.Documented where
  fromString _ _ := rfl
  int _ _ := rfl
  wire _ _ _ := rfl

/-- A process with a switch, and a case with an assignment in it. -/
def orderlyCalls : List Call :=
  [.module ['m'], .wire ['a'] 1 0 none, .wire ['r'] 1 0 none, .proc ['p'], .switchBegin ['a'],
    .caseBegin ['1', '\'', 'b', '1'], .caseAssign ['r'] ['a'], .caseEnd, .switchEnd]

theorem orderlyCalls_orderly (b : Builder) : Orderly plainLibrary .start b orderlyCalls := by
  have hname : ∀ txt ∈ [['a'], ['r']], Plain txt := by
    intro txt htxt
    apply plain_of_one
    · revert txt
      decide
    · fin_cases htxt <;> trivial
  have hone : Plain ['1', '\'', 'b', '1'] := by
    have hstrip : strip ['1', '\'', 'b', '1'] = ['1', '\'', 'b', '1'] := by decide
    have hsize : PlainSize ['1'] := by
      rw [PlainSize, if_pos (by decide)]
      decide
    have hdigits : PlainDigits ['1'] ['b', '1'] := ⟨by simp, by simp [bitChars]⟩
    apply plain_of_one
    · rw [hstrip]
      decide
    · rw [hstrip]
      exact ⟨hsize, fun _ => hdigits⟩
  have hcompare : ∀ txt ∈ (Call.caseBegin ['1', '\'', 'b', '1']).sigspecs, Plain txt := by
    have hsplit : (Call.caseBegin ['1', '\'', 'b', '1']).sigspecs = [['1', '\'', 'b', '1']] := by decide
    rw [hsplit]
    exact List.forall_mem_singleton.mpr hone
  have hidle : ∀ {p : Place}, p.process = none → p.Closed := by
    intro p hp k w hk
    rw [hp] at hk
    cases hk
  have hopen : ∀ {p : Place}, p.process ≠ none → p.Fresh := fun hp h => absurd h hp
  revert b
  refine orderly_cons (hidle rfl) (by simp [Call.sigspecs]) ?_
  refine orderly_cons rfl (by simp [Call.sigspecs]) ?_
  refine orderly_cons rfl (by simp [Call.sigspecs]) ?_
  refine orderly_cons ⟨rfl, hidle rfl⟩ (by simp [Call.sigspecs]) ?_
  refine orderly_cons ⟨hopen (by decide), fun _ _ h => ?_⟩ (List.forall_mem_singleton.mpr (hname _ (by decide))) ?_
  · cases h
    rfl
  refine orderly_cons (fun _ h => ?_) hcompare ?_
  · cases h
  refine orderly_cons ⟨hopen (by decide), fun _ _ h => ?_⟩
    (List.forall_mem_cons.mpr ⟨hname _ (by decide), List.forall_mem_singleton.mpr (hname _ (by decide))⟩) ?_
  · cases h
    rfl
  refine orderly_cons (fun _ h => ?_) (by simp [Call.sigspecs]) ?_
  · cases h
  refine orderly_cons (fun _ h => ?_) (by simp [Call.sigspecs]) fun _ => trivial
  cases h

theorem session_builds_or_declines_orderly :
    BuildsOrDeclines plainLibrary orderlyCalls .initial ∧
      ReleasesOnce plainLibrary (.begin true :: orderlyCalls.map .call ++ [.synth true 0]) ∧
      ∃ b rs, runCalls plainLibrary orderlyCalls Builder.initial.opened = some (b, rs) ∧
        (b.synthesized true).isSome := by
  obtain ⟨hbuilds, hmutex⟩ := session_builds_or_declines plainLibrary_documented (orderlyCalls_orderly _)
    (.begin true :: orderlyCalls.map .call ++ [.synth true 0])
  obtain ⟨⟨b, rs⟩, hrun⟩ := hbuilds.returns
  refine ⟨hbuilds, hmutex, b, rs, hrun, ?_⟩
  have hgo : ((runCalls plainLibrary orderlyCalls Builder.initial.opened).bind (·.1.synthesized true)).isSome := by
    decide +kernel
  rwa [hrun] at hgo

/-! ## Calls that cross, and loose strings -/

/-- The switch ends before the case in it. -/
def crossedCalls : List Call :=
  [.module ['m'], .wire ['a'] 1 0 none, .proc ['p'], .switchBegin ['a'], .caseBegin [], .switchEnd, .caseEnd]

/-- The plan of crossed calls has a process whose word no tree is read from. -/
theorem crossed_unread {σ : Plan} (h : Plans lib crossedCalls σ) (design : List (Module CaseRule MemWriteAction)) :
    ¬ Realizes design σ := by
  obtain ⟨_, h₆, ⟨_⟩⟩ := @Plans.of_snoc lib (crossedCalls.take 6) _ _ h
  obtain ⟨_, h₅, ⟨_⟩⟩ := @Plans.of_snoc lib (crossedCalls.take 5) _ _ h₆
  obtain ⟨_, h₄, ⟨_⟩⟩ := @Plans.of_snoc lib (crossedCalls.take 4) _ _ h₅
  obtain ⟨_, h₃, ⟨_⟩⟩ := @Plans.of_snoc lib (crossedCalls.take 3) _ _ h₄
  obtain ⟨_, h₂, ⟨_⟩⟩ := @Plans.of_snoc lib (crossedCalls.take 2) _ _ h₃
  obtain ⟨_, h₁, ⟨_⟩⟩ := @Plans.of_snoc lib (crossedCalls.take 1) _ _ h₂
  obtain ⟨_, h₀, ⟨_⟩⟩ := @Plans.of_snoc lib (crossedCalls.take 0) _ _ h₁
  cases h₀.of_nil
  intro hdesign
  obtain ⟨m, ms, hm, -, rfl⟩ := List.forall₂_cons_right_iff.mp hdesign
  obtain ⟨p, ps, hp, -, -⟩ := List.forall₂_cons_right_iff.mp hm.processes
  obtain ⟨as, hbody⟩ := hp.tree.body
  exact getLast?_body_ne hbody rfl

theorem crossed_built : ¬ BuildsOrDeclines plainLibrary crossedCalls .initial := by
  intro h
  obtain ⟨⟨b', rs⟩, hrun⟩ := h.returns
  have hgo : ((runCalls plainLibrary crossedCalls Builder.initial.opened).bind (·.1.synthesized true)).isSome := by
    decide +kernel
  rw [hrun] at hgo
  obtain ⟨design, hdesign⟩ := Option.isSome_iff_exists.mp hgo
  obtain ⟨-, σ, hplans, hrealizes⟩ := h.builds hrun hdesign
  exact crossed_unread hplans design hrealizes

/-- An index that is no number. -/
def looseCalls : List Call := [.module ['m'], .wire ['a'] 1 0 none, .connect ['a'] "a[x]".toList]

theorem loose_meaningless {wires : Wires} {sig : SigSpec} : ¬ Denotes lib wires "a[x]".toList sig := by
  intro h
  have hcut : cut '[' "a[x]".toList = some (['a'], "x]".toList) := by decide
  obtain ⟨w, -, ⟨i, hi, hdigits, -⟩ | ⟨hi, lo, hrest, -⟩⟩ :=
    denotes_bracket (by decide) (by decide) hcut h
  · obtain ⟨rfl, -⟩ := List.append_inj' (show ['x'] ++ [']'] = i ++ [']'] from hi) rfl
    exact absurd (hdigits.2 'x' List.mem_cons_self) (by decide)
  · have hcolon : ':' ∈ "x]".toList := by
      rw [hrest]
      simp
    exact absurd hcolon (by decide)

theorem loose_taken : ¬ BuildsOrDeclines plainLibrary looseCalls .initial := by
  intro h
  obtain ⟨⟨b', rs⟩, hrun⟩ := h.returns
  have hzero : ((runCalls plainLibrary looseCalls Builder.initial.opened).map (·.2)) = some [0, 0, 0] := by
    decide +kernel
  rw [hrun] at hzero
  cases hzero
  obtain ⟨r, hr, hne⟩ := h.fails (show looseCalls = looseCalls.take 2 ++ .connect ['a'] "a[x]".toList :: [] from rfl) hrun fun σ σ' _ hadds => by
    cases hadds with
    | connect ha =>
      obtain ⟨r, -, ⟨m, -, hdenotes⟩, -⟩ := ha
      exact loose_meaningless hdenotes
  revert hne
  revert r
  decide

theorem session_not_built :
    plainLibrary.Documented ∧ ¬ BuildsOrDeclines plainLibrary crossedCalls .initial ∧
      ¬ BuildsOrDeclines plainLibrary looseCalls .initial :=
  ⟨plainLibrary_documented, crossed_built, loose_taken⟩

end Yosys.Facade
