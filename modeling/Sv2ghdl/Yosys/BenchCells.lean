import Sv2ghdl.Yosys.BenchNames

/-!
# Cells of a bench netlist

What the ports and the cells of the module add to the invariant of the names.
-/

open Python Vamos.Netlist.Expression

namespace Yosys.Bench

/-! ## Traces -/

/-- A state `s` on the way from `s₀`: the names `seen` are known, `made` are nets of no bit, `pend` wait for
    their lines, and `out` have got lines. -/
structure Trace (P : Interpreter) (M : Module) (s₀ s : State) (seen made out pend : List Str) : Prop where
  good : Good P M s
  seen : ∀ n ∈ seen, s.Known P M n
  made : ∀ n ∈ made, n ∈ s.synth
  nodup : pend.Nodup
  pend : ∀ n ∈ pend, s.Known P M n ∧ ((M.given P).Nodup → n ∉ s.driven)
  lookup : ∀ b n, s₀.names.lookup b = some n → s.names.lookup b = some n
  synth : ∀ n ∈ s₀.synth, n ∈ s.synth
  owned : ∀ n ∈ s.driven, n ∈ s₀.driven ∨ n ∈ out ∨ n ∈ s.synth
  dffs : s.dffs = s₀.dffs
  ppiNames : s.ppiNames = s₀.ppiNames

namespace Trace

variable {P : Interpreter} {M : Module} {s₀ s s' : State} {n y : Str} {seen made out pend : List Str}

theorem start (h : Good P M s) (hseen : ∀ n ∈ seen, s.Known P M n) : Trace P M s s seen [] [] [] where
  good := h
  seen := hseen
  made := fun _ hn => absurd hn List.not_mem_nil
  nodup := List.nodup_nil
  pend := fun _ hn => absurd hn List.not_mem_nil
  lookup := fun _ _ hn => hn
  synth := fun _ hn => hn
  owned := fun _ hn => .inl hn
  dffs := rfl
  ppiNames := rfl

theorem step (h : Trace P M s₀ s seen made out pend) {ys pend' : List Str} (hg : Good P M s')
    (he : Extends P M s s' ys) (hsub : pend'.Sublist pend) (hys : ∀ n ∈ pend', n ∉ ys) :
    Trace P M s₀ s' seen made (ys ++ out) pend' where
  good := hg
  seen := fun n hn => he.known n (h.seen n hn)
  made := fun n hn => he.synth n (h.made n hn)
  nodup := h.nodup.sublist hsub
  pend := by
    intro n hn
    obtain ⟨hknown, hnot⟩ := h.pend n (hsub.subset hn)
    exact ⟨he.known n hknown, fun hgiven hmem =>
      (he.driven n hknown hmem).elim (hnot hgiven) (hys n hn)⟩
  lookup := fun b n hb => he.lookup b n (h.lookup b n hb)
  synth := fun n hn => he.synth n (h.synth n hn)
  owned := by
    intro n hn
    rcases he.owned n hn with hn | hn | hn
    · rcases h.owned n hn with hn | hn | hn
      · exact .inl hn
      · exact .inr (.inl (List.mem_append_right _ hn))
      · exact .inr (.inr (he.synth n hn))
    · exact .inr (.inl (List.mem_append_left _ hn))
    · exact .inr (.inr hn)
  dffs := he.dffs.trans h.dffs
  ppiNames := he.ppiNames.trans h.ppiNames

/-- Fewer names may be kept in view. -/
theorem forget (h : Trace P M s₀ s seen made out pend) {seen' made' : List Str}
    (hseen : ∀ n ∈ seen', n ∈ seen) (hmade : ∀ n ∈ made', n ∈ made) :
    Trace P M s₀ s seen' made' out pend :=
  { h with
    seen := fun n hn => h.seen n (hseen n hn)
    made := fun n hn => h.made n (hmade n hn) }

theorem bitName (hM : M.Apart P) (h : Trace P M s₀ s seen made out pend) {b : Bit}
    (hrun : s.bitName b = (n, s')) : Trace P M s₀ s' (n :: seen) made out pend ∧
      ∀ id, b = .net id → s'.names.lookup id = some n := by
  obtain ⟨hg, he, hknown, hlookup⟩ := bitName_spec hM h.good hrun
  have hstep := h.step hg he (List.Sublist.refl pend) fun _ _ => List.not_mem_nil
  refine ⟨{ hstep with seen := fun m hm => ?_ }, hlookup⟩
  rcases List.mem_cons.mp hm with rfl | hm
  · exact hknown
  · exact hstep.seen m hm

theorem bitNames (hM : M.Apart P) (h : Trace P M s₀ s seen made out pend) {bs : List Bit}
    {ns : List Str} (hrun : s.bitNames bs = (ns, s')) : Trace P M s₀ s' (ns ++ seen) made out pend := by
  induction bs generalizing s seen ns with
  | nil =>
    cases hrun
    exact h
  | cons b bs ih =>
    rw [State.bitNames] at hrun
    rcases hb : s.bitName b with ⟨n, s₁⟩
    rcases hbs : s₁.bitNames bs with ⟨ns', s₂⟩
    rw [hb] at hrun
    simp only [hbs] at hrun
    cases hrun
    refine (ih (h.bitName hM hb).1 hbs).forget (fun m hm => ?_) fun _ hm => hm
    simp only [List.cons_append, List.mem_cons, List.mem_append] at hm ⊢
    tauto

theorem newNet (hM : M.Apart P) (h : Trace P M s₀ s seen made out pend) {stem : Stem}
    (hrun : s.newNet stem = (n, s')) : Trace P M s₀ s' (n :: seen) (n :: made) out (n :: pend) := by
  obtain ⟨hg, he, hknown, hsynth, hnot, hfresh⟩ := newNet_spec hM h.good hrun
  have hstep := h.step hg he (List.Sublist.refl pend) fun _ _ => List.not_mem_nil
  refine { hstep with seen := fun m hm => ?_, made := fun m hm => ?_, nodup := ?_, pend := fun m hm => ?_ }
  · rcases List.mem_cons.mp hm with rfl | hm
    · exact hknown
    · exact hstep.seen m hm
  · rcases List.mem_cons.mp hm with rfl | hm
    · exact hsynth
    · exact hstep.made m hm
  · exact List.nodup_cons.mpr ⟨fun hm => hfresh (h.pend n hm).1, h.nodup⟩
  · rcases List.mem_cons.mp hm with rfl | hm
    · exact ⟨hknown, fun _ => hnot⟩
    · exact hstep.pend m hm

/-- A known name that no line drives may wait for its line. -/
theorem await (h : Trace P M s₀ s seen made out []) (hy : s.Known P M y)
    (hnot : (M.given P).Nodup → y ∉ s.driven) : Trace P M s₀ s seen made out [y] :=
  { h with
    nodup := List.nodup_singleton y
    pend := by
      intro m hm
      obtain rfl := List.mem_singleton.mp hm
      exact ⟨hy, hnot⟩ }

/-- The line of a name that waits for it. -/
theorem gate (hM : M.Apart P) (before after : List Str)
    (h : Trace P M s₀ s seen made out (before ++ y :: after)) {op : String} {ins : List Str}
    (hop : (str op).all plainChar = true) (hins : ∀ i ∈ ins, i ∈ seen) (hrun : s.gate op y ins = some s') :
    Trace P M s₀ s' seen made (y :: out) (before ++ after) := by
  obtain ⟨hknown, hnot⟩ := h.pend y (List.mem_append_right _ List.mem_cons_self)
  obtain ⟨hg, he⟩ := gate_spec hM h.good hknown hnot (plain_str hop) (fun i hi => h.seen i (hins i hi)) hrun
  refine h.step hg he ((List.Sublist.refl before).append (List.sublist_cons_self y after)) ?_
  intro m hm hmy
  obtain rfl := List.mem_singleton.mp hmy
  have hnodup := h.nodup
  rw [List.nodup_middle] at hnodup
  exact (List.nodup_cons.mp hnodup).1 hm

/-- The line of a net of no bit. -/
theorem gateMade (hM : M.Apart P) (before after : List Str)
    (h : Trace P M s₀ s seen made out (before ++ y :: after)) {op : String} {ins : List Str}
    (hop : (str op).all plainChar = true) (hmade : y ∈ made) (hins : ∀ i ∈ ins, i ∈ seen)
    (hrun : s.gate op y ins = some s') : Trace P M s₀ s' seen made out (before ++ after) := by
  have hstep := h.gate hM before after hop hins hrun
  refine { hstep with owned := fun n hn => ?_ }
  rcases hstep.owned n hn with hn | hn | hn
  · exact .inl hn
  · rcases List.mem_cons.mp hn with rfl | hn
    · exact .inr (.inr (hstep.made _ hmade))
    · exact .inr (.inl hn)
  · exact .inr (.inr hn)

/-! ## Folding into the data of a register -/

theorem foldReset (hM : M.Apart P) (h : Trace P M s₀ s seen [] out []) {c : Cell} {dcone : Str}
    (hd : dcone ∈ seen) (hrun : s.foldReset c dcone = some (n, s')) :
    Trace P M s₀ s' (n :: seen) [] out [] := by
  rw [State.foldReset] at hrun
  obtain ⟨b, -, hrun⟩ := Option.bind_eq_some_iff.mp hrun
  rcases hr : s.bitName b with ⟨r, s₁⟩
  rw [hr] at hrun
  obtain ⟨pol, -, hrun⟩ := Option.bind_eq_some_iff.mp hrun
  obtain ⟨rpol, -, hrun⟩ := Option.bind_eq_some_iff.mp hrun
  obtain ⟨rval, -, hrun⟩ := Option.bind_eq_some_iff.mp hrun
  obtain ⟨⟨ract, s₂⟩, hract, hrun⟩ := Option.bind_eq_some_iff.mp hrun
  have h₁ := (h.bitName hM hr).1
  have h₂ : Trace P M s₀ s₂ (ract :: seen) [] out [] := by
    split_ifs at hract with hpol
    · cases hract
      exact h₁
    · rcases hnr : s₁.newNet .n with ⟨nr, s₁'⟩
      rw [hnr] at hract
      obtain ⟨s₁'', hgate, hract⟩ := Option.map_eq_some_iff.mp hract
      cases hract
      refine ((h₁.newNet hM hnr).gateMade hM [] [] (by decide) List.mem_cons_self (by simp) hgate).forget ?_ ?_
      · simp only [List.mem_cons]
        tauto
      · simp
  rcases hnd : s₂.newNet .n with ⟨nd, s₃⟩
  simp only [hnd] at hrun
  have h₃ := h₂.newNet hM hnd
  split_ifs at hrun with hval
  · rcases hna : s₃.newNet .n with ⟨na, s₄⟩
    rw [hna] at hrun
    obtain ⟨s₅, hnot, hrun⟩ := Option.bind_eq_some_iff.mp hrun
    obtain ⟨s₆, hand, hrun⟩ := Option.bind_eq_some_iff.mp hrun
    cases hrun
    have h₅ := (h₃.newNet hM hna).gateMade hM [] [n] (by decide) List.mem_cons_self (by simp) hnot
    refine (h₅.gateMade hM [] [] (by decide) (by simp) (by simp [hd]) hand).forget ?_ ?_
    · simp only [List.mem_cons]
      tauto
    · simp
  · obtain ⟨s₄, hor, hrun⟩ := Option.bind_eq_some_iff.mp hrun
    cases hrun
    refine (h₃.gateMade hM [] [] (by decide) List.mem_cons_self (by simp [hd]) hor).forget ?_ ?_
    · simp only [List.mem_cons]
      tauto
    · simp

theorem foldEnable (hM : M.Apart P) (h : Trace P M s₀ s seen [] out []) {c : Cell} {q dcone : Str}
    (hq : q ∈ seen) (hd : dcone ∈ seen) (hrun : s.foldEnable c q dcone = some (n, s')) :
    Trace P M s₀ s' (n :: seen) [] out [] := by
  rw [State.foldEnable] at hrun
  obtain ⟨b, -, hrun⟩ := Option.bind_eq_some_iff.mp hrun
  rcases he : s.bitName b with ⟨e, s₁⟩
  rcases hne : s₁.newNet .n with ⟨ne, s₂⟩
  rcases ht1 : s₂.newNet .n with ⟨t1, s₃⟩
  rcases ht2 : s₃.newNet .n with ⟨t2, s₄⟩
  rcases hnd : s₄.newNet .n with ⟨nd, s₅⟩
  simp only [he, hne, ht1, ht2, hnd] at hrun
  obtain ⟨s₆, hnot, hrun⟩ := Option.bind_eq_some_iff.mp hrun
  obtain ⟨s₇, hand1, hrun⟩ := Option.bind_eq_some_iff.mp hrun
  obtain ⟨s₈, hand2, hrun⟩ := Option.bind_eq_some_iff.mp hrun
  obtain ⟨s₉, hor, hrun⟩ := Option.bind_eq_some_iff.mp hrun
  cases hrun
  have h₅ := ((((h.bitName hM he).1.newNet hM hne).newNet hM ht1).newNet hM ht2).newNet hM hnd
  have h₆ := h₅.gateMade hM [n, t2, t1] [] (by decide) (by simp) (by simp) hnot
  have h₇ := h₆.gateMade hM [n, t2] [] (by decide) (by simp) (by simp [hd]) hand1
  have h₈ := h₇.gateMade hM [n] [] (by decide) (by simp) (by simp [hq]) hand2
  refine (h₈.gateMade hM [] [] (by decide) (by simp) (by simp) hor).forget ?_ ?_
  · simp only [List.mem_cons]
    tauto
  · simp

end Trace

/-! ## Who owns a line -/

/-- Every name on the left of a line is one of `ports`, a net of no bit, or the name of a bit in `done`; the
    registers have the names of their bits. -/
structure Owner (P : Interpreter) (M : Module) (ports : List Str) (done : List Bit) (s : State) : Prop where
  driven : ∀ n ∈ s.driven,
    n ∈ ports ∨ n ∈ s.synth ∨ ∃ b, Bit.net b ∈ done ∧ s.names.lookup b = some n
  registers : ∀ d ∈ s.dffs, ∃ c ∈ M.cells, ∃ b, c.register = some (.net b) ∧ s.names.lookup b = some d.1
  ppi : s.ppiNames = s.dffs.map Prod.fst

section Owner

variable {P : Interpreter} {M : Module} {s₀ s s' : State} {n y : Str} {seen made out pend ports : List Str}
  {done : List Bit}

/-- Two bits with one name are one bit. -/
theorem Good.lookup_inj (h : Good P M s) (hgiven : (M.given P).Nodup) {b b' : Nat}
    (hb : s.names.lookup b = some n) (hb' : s.names.lookup b' = some n) : b = b' := by
  have hnames : (s.names.map Prod.snd).Nodup :=
    ((h.nodup hgiven).sublist (List.sublist_append_left _ _)).sublist (List.sublist_append_left _ _)
  have heq := List.inj_on_of_nodup_map hnames (Lookup.mem_of_lookup hb) (Lookup.mem_of_lookup hb') rfl
  exact congrArg Prod.fst heq

/-- The bits, the ports that are nets of their own and the other nets have different names. -/
theorem Good.apart (h : Good P M s) (hgiven : (M.given P).Nodup) :
    (∀ n ∈ s.names.map Prod.snd, n ∉ M.portNets P ∧ n ∉ s.synth) ∧ ∀ n ∈ M.portNets P, n ∉ s.synth := by
  have hnodup := h.nodup hgiven
  rw [State.nets, List.append_assoc] at hnodup
  obtain ⟨-, hrest, hdisj⟩ := List.nodup_append'.mp hnodup
  refine ⟨fun n hn => ⟨fun hport => ?_, fun hsynth => ?_⟩, fun n hn hsynth => ?_⟩
  · exact hdisj hn (List.mem_append_left _ hport)
  · exact hdisj hn (List.mem_append_right _ hsynth)
  · exact (List.nodup_append'.mp hrest).2.2 hn hsynth

theorem mem_names_of_lookup {b : Nat} (hb : s.names.lookup b = some n) : n ∈ s.names.map Prod.snd :=
  List.mem_map_of_mem (Lookup.mem_of_lookup hb)

/-- The name of a bit that is not done is on the left of no line. -/
theorem Owner.not_driven (h : Owner P M ports done s) (hg : Good P M s) (hports : ∀ p ∈ ports, p ∈ M.portNets P)
    {b : Nat} (hb : s.names.lookup b = some n) (hdone : Bit.net b ∉ done) (hgiven : (M.given P).Nodup) :
    n ∉ s.driven := by
  intro hn
  have hname := (hg.apart hgiven).1 n (mem_names_of_lookup hb)
  rcases h.driven n hn with hport | hsynth | ⟨b', hmem, hb'⟩
  · exact hname.1 (hports n hport)
  · exact hname.2 hsynth
  · rw [hg.lookup_inj hgiven hb hb'] at hdone
    exact hdone hmem

/-- The names that have got lines on the way go to `done`. -/
theorem Owner.trace (h : Owner P M ports done s₀) (ht : Trace P M s₀ s seen made out pend) {ports' : List Str}
    {done' : List Bit} (hports : ∀ p ∈ ports, p ∈ ports') (hdone : ∀ b ∈ done, b ∈ done')
    (hout : ∀ n ∈ out, n ∈ ports' ∨ ∃ b, Bit.net b ∈ done' ∧ s.names.lookup b = some n) :
    Owner P M ports' done' s where
  driven := by
    intro n hn
    rcases ht.owned n hn with hn | hn | hn
    · rcases h.driven n hn with hn | hn | ⟨b, hmem, hb⟩
      · exact .inl (hports n hn)
      · exact .inr (.inl (ht.synth n hn))
      · exact .inr (.inr ⟨b, hdone _ hmem, ht.lookup b n hb⟩)
    · exact (hout n hn).imp_right .inr
    · exact .inr (.inl hn)
  registers := by
    rw [ht.dffs]
    intro d hd
    obtain ⟨c, hc, b, hregister, hb⟩ := h.registers d hd
    exact ⟨c, hc, b, hregister, ht.lookup b _ hb⟩
  ppi := by rw [ht.ppiNames, ht.dffs, h.ppi]

theorem Owner.same (h : Owner P M ports done s₀) (ht : Trace P M s₀ s seen made [] pend) :
    Owner P M ports done s :=
  h.trace ht (fun _ hp => hp) (fun _ hb => hb) fun _ hn => absurd hn List.not_mem_nil

/-! ## Cells -/

/-- A cell that drives a bit adds its line. -/
theorem Owner.drive (h : Owner P M ports done s₀) (ht : Trace P M s₀ s seen made [y] pend) {b : Nat}
    (hb : s₀.names.lookup b = some y) : Owner P M ports (.net b :: done) s := by
  refine h.trace ht (fun _ hp => hp) (fun _ hmem => List.mem_cons_of_mem _ hmem) fun n hn => ?_
  obtain rfl := List.mem_singleton.mp hn
  exact .inr ⟨b, List.mem_cons_self, ht.lookup b _ hb⟩

theorem simpleOp_plain {t : Str} {op : String} (h : simpleOp t = some op) :
    (str op).all plainChar = true := by
  rw [simpleOp] at h
  obtain ⟨e, he, heq⟩ := List.exists_of_findSome?_eq_some h
  split_ifs at heq
  cases heq
  exact List.forall_iff_forall_mem.mp (by decide : List.Forall (fun e : String × String =>
    (str e.2).all plainChar = true) [("$_AND_", "AND"), ("$_OR_", "OR"), ("$_NAND_", "NAND"), ("$_NOR_", "NOR"),
      ("$_XOR_", "XOR"), ("$_XNOR_", "XNOR"), ("$_NOT_", "NOT"), ("$_BUF_", "BUFF")]) e he

variable (hM : M.Apart P) (hports : ∀ p ∈ ports, p ∈ M.portNets P)
include hM hports

theorem simple_spec (hg : Good P M s) (ho : Owner P M ports done s) {c : Cell} {op : String} {b : Nat}
    (hop : (str op).all plainChar = true) (hy : c.bit "Y" = some (.net b)) (hdone : Bit.net b ∉ done)
    (hrun : s.simple c op = some s') : Good P M s' ∧ Owner P M ports (.net b :: done) s' := by
  rw [State.simple, hy] at hrun
  rcases hname : s.bitName (.net b) with ⟨y, s₁⟩
  simp only [Option.bind_eq_bind, Option.bind_some, hname] at hrun
  obtain ⟨ins, -, hrun⟩ := Option.bind_eq_some_iff.mp hrun
  rcases hins : s₁.bitNames ins with ⟨as, s₂⟩
  rw [hins] at hrun
  obtain ⟨h₁, hlookup⟩ := (Trace.start hg (List.forall_mem_nil _)).bitName hM hname
  have ho₁ := ho.same h₁
  have h₂ := (Trace.start h₁.good (List.forall_mem_nil _)).bitNames hM hins
  have ho₂ := ho₁.same h₂
  have hb := h₂.lookup b y (hlookup b rfl)
  have hwait := (Trace.start h₂.good h₂.seen).await (.inl (by
    exact List.mem_append_left _ (List.mem_append_left _ (mem_names_of_lookup hb))))
    (ho₂.not_driven h₂.good hports hb hdone)
  have h₃ := hwait.gate hM [] [] hop (by simp) hrun
  exact ⟨h₃.good, ho₂.drive h₃ hb⟩

theorem mux_spec (hg : Good P M s) (ho : Owner P M ports done s) {c : Cell} {b : Nat}
    (hy : c.bit "Y" = some (.net b)) (hdone : Bit.net b ∉ done) (hrun : s.mux c = some s') :
    Good P M s' ∧ Owner P M ports (.net b :: done) s' := by
  rw [State.mux] at hrun
  obtain ⟨ba, -, hrun⟩ := Option.bind_eq_some_iff.mp hrun
  rcases ha : s.bitName ba with ⟨a, s₁⟩
  rw [ha] at hrun
  obtain ⟨bb, -, hrun⟩ := Option.bind_eq_some_iff.mp hrun
  rcases hb : s₁.bitName bb with ⟨b', s₂⟩
  rw [hb] at hrun
  obtain ⟨bs, -, hrun⟩ := Option.bind_eq_some_iff.mp hrun
  rcases hs : s₂.bitName bs with ⟨sel, s₃⟩
  rw [hs, hy] at hrun
  rcases hname : s₃.bitName (.net b) with ⟨y, s₄⟩
  rcases hns : s₄.newNet .n with ⟨ns, s₅⟩
  rcases ht1 : s₅.newNet .n with ⟨t1, s₆⟩
  rcases ht2 : s₆.newNet .n with ⟨t2, s₇⟩
  simp only [Option.bind_eq_bind, Option.bind_some, hname, hns, ht1, ht2] at hrun
  obtain ⟨s₈, hnot, hrun⟩ := Option.bind_eq_some_iff.mp hrun
  obtain ⟨s₉, hand1, hrun⟩ := Option.bind_eq_some_iff.mp hrun
  obtain ⟨s₁₀, hand2, hor⟩ := Option.bind_eq_some_iff.mp hrun
  have h₃ := (((Trace.start hg (List.forall_mem_nil _)).bitName hM ha).1.bitName hM hb).1.bitName hM hs
  obtain ⟨h₄, hlookup⟩ := h₃.1.bitName hM hname
  have ho₄ := ho.same h₄
  have hwait := (Trace.start h₄.good h₄.seen).await (h₄.seen y List.mem_cons_self)
    (ho₄.not_driven h₄.good hports (hlookup b rfl) hdone)
  have h₇ := ((hwait.newNet hM hns).newNet hM ht1).newNet hM ht2
  have h₈ := h₇.gateMade hM [t2, t1] [y] (by decide) (by simp) (by simp) hnot
  have h₉ := h₈.gateMade hM [t2] [y] (by decide) (by simp) (by simp) hand1
  have h₁₀ := h₉.gateMade hM [] [y] (by decide) (by simp) (by simp) hand2
  have h₁₁ := h₁₀.gate hM [] [] (by decide) (by simp) hor
  exact ⟨h₁₁.good, ho₄.drive h₁₁ (hlookup b rfl)⟩

theorem dff_spec (hg : Good P M s) (ho : Owner P M ports done s) {c : Cell} (hc : c ∈ M.cells) {b : Nat}
    (hregister : c.register = some (.net b)) (hq : c.bit "Q" = some (.net b)) (hdone : Bit.net b ∉ done)
    (hrun : s.dff c = some s') : Good P M s' ∧ Owner P M ports (.net b :: done) s' := by
  rw [State.dff, hq] at hrun
  rcases hname : s.bitName (.net b) with ⟨q, s₁⟩
  simp only [Option.bind_eq_bind, Option.bind_some, hname] at hrun
  obtain ⟨bd, -, hrun⟩ := Option.bind_eq_some_iff.mp hrun
  rcases hd : s₁.bitName bd with ⟨d, s₂⟩
  rw [hd] at hrun
  obtain ⟨⟨d₁, s₃⟩, hreset, hrun⟩ := Option.bind_eq_some_iff.mp hrun
  obtain ⟨part, -, hrun⟩ := Option.bind_eq_some_iff.mp hrun
  obtain ⟨⟨d₂, s₄⟩, henable, hrun⟩ := Option.bind_eq_some_iff.mp hrun
  cases hrun
  obtain ⟨h₁, hlookup⟩ := (Trace.start hg (List.forall_mem_nil _)).bitName hM hname
  have ho₁ := ho.same h₁
  have h₂ := ((Trace.start h₁.good h₁.seen).bitName hM hd).1
  have h₃ : Trace P M s₁ s₃ (d₁ :: [d, q]) [] [] [] := by
    split_ifs at hreset with hfold
    · exact h₂.foldReset hM List.mem_cons_self hreset
    · cases hreset
      exact h₂.forget (by simp) fun _ hm => hm
  have h₄ : Trace P M s₁ s₄ (d₂ :: [d₁, d, q]) [] [] [] := by
    split_ifs at henable with hfold
    · exact h₃.foldEnable hM (by simp) List.mem_cons_self henable
    · cases henable
      exact h₃.forget (by simp) fun _ hm => hm
  have ho₄ := ho₁.same h₄
  have hb := h₄.lookup b q (hlookup b rfl)
  have hknown : s₄.Known P M q := h₄.seen q (by simp)
  have hnot := ho₄.not_driven h₄.good hports hb hdone
  have hdriven : ∀ n, n ∈ (s₄.addDff q d₂).driven ↔ n ∈ s₄.driven ∨ n = q := by
    intro n
    simp only [State.driven, State.addDff, List.mem_append, List.mem_singleton]
    tauto
  constructor
  · have hgood := h₄.good
    refine ⟨hgood.claimed, hgood.keys, hgood.named, hgood.made, hgood.nodup, fun hgiven => ?_, ?_, hgood.lines,
      hgood.outputs, ?_, hgood.root, hgood.pool⟩
    · have hperm : (s₄.addDff q d₂).driven.Perm (q :: s₄.driven) := by
        rw [State.driven, State.driven, State.addDff, List.append_assoc, List.append_assoc, List.append_assoc,
          ← List.append_assoc s₄.inputs, ← List.append_assoc s₄.inputs]
        exact List.perm_middle
      exact hperm.nodup_iff.mpr (List.nodup_cons.mpr ⟨hnot hgiven, hgood.driven hgiven⟩)
    · intro n hn
      rcases (hdriven n).mp hn with hn | rfl
      · exact hgood.known n hn
      · exact hknown
    · intro e he
      rcases List.mem_append.mp he with he | he
      · exact hgood.dffs e he
      · obtain rfl := List.mem_singleton.mp he
        exact h₄.seen d₂ List.mem_cons_self
  · refine ⟨fun n hn => ?_, fun e he => ?_, ?_⟩
    · rcases (hdriven n).mp hn with hn | rfl
      · rcases ho₄.driven n hn with hn | hn | ⟨b', hmem, hb'⟩
        · exact .inl hn
        · exact .inr (.inl hn)
        · exact .inr (.inr ⟨b', List.mem_cons_of_mem _ hmem, hb'⟩)
      · exact .inr (.inr ⟨b, List.mem_cons_self, hb⟩)
    · rcases List.mem_append.mp he with he | he
      · exact ho₄.registers e he
      · obtain rfl := List.mem_singleton.mp he
        exact ⟨c, hc, b, hregister, hb⟩
    · show s₄.ppiNames ++ [q] = (s₄.dffs ++ [(q, d₂)]).map Prod.fst
      rw [ho₄.ppi, List.map_append]
      rfl

/-- A cell adds the line of the bit that it drives. -/
theorem cell_spec (hg : Good P M s) (ho : Owner P M ports done s) {c : Cell} (hc : c ∈ M.cells)
    (hnet : ∀ d ∈ c.output, ∃ b, d = .net b) (hdone : ∀ d ∈ c.output, d ∉ done)
    (hrun : s.cell c = some s') : Good P M s' ∧ Owner P M ports (c.output.toList ++ done) s' := by
  rw [State.cell] at hrun
  cases hsimple : simpleOp c.type with
  | some op =>
    rw [hsimple] at hrun
    have hout : c.output = c.bit "Y" := by rw [Cell.output, hsimple, if_pos (.inl rfl)]
    rw [hout] at hnet hdone ⊢
    cases hy : c.bit "Y" with
    | none => simp [State.simple, hy] at hrun
    | some d =>
      obtain ⟨b, rfl⟩ := hnet d hy
      exact simple_spec hM hports hg ho (simpleOp_plain hsimple) hy (hdone _ hy) hrun
  | none =>
    simp only [hsimple] at hrun
    split_ifs at hrun with hmux hdff hscope
    · have hout : c.output = c.bit "Y" := by rw [Cell.output, if_pos (.inr hmux)]
      rw [hout] at hnet hdone ⊢
      cases hy : c.bit "Y" with
      | none => simp [State.mux, hy] at hrun
      | some d =>
        obtain ⟨b, rfl⟩ := hnet d hy
        exact mux_spec hM hports hg ho hy (hdone _ hy) hrun
    · have hout : c.output = c.bit "Q" := by
        rw [Cell.output, hsimple, if_neg (by simpa using hmux), Cell.register, if_pos hdff]
      rw [hout] at hnet hdone ⊢
      cases hq : c.bit "Q" with
      | none => simp [State.dff, hq] at hrun
      | some d =>
        obtain ⟨b, rfl⟩ := hnet d hq
        refine dff_spec hM hports hg ho hc ?_ hq (hdone _ hq) hrun
        rw [Cell.register, if_pos hdff, hq]
    · have hout : c.output = none := by
        rw [Cell.output, hsimple, if_neg (by simpa using hmux), Cell.register, if_neg hdff]
      cases hrun
      rw [hout]
      exact ⟨hg, ho⟩

/-- The cells, one after the other. -/
theorem cells_spec {cells : List Cell} (hg : Good P M s) (ho : Owner P M ports done s)
    (hcells : ∀ c ∈ cells, c ∈ M.cells) (hnet : ∀ d ∈ cells.filterMap Cell.output, ∃ b, d = .net b)
    (hnodup : (cells.filterMap Cell.output).Nodup) (hdone : ∀ d ∈ cells.filterMap Cell.output, d ∉ done)
    (hrun : cells.foldlM State.cell s = some s') : Good P M s' ∧ ∃ done', Owner P M ports done' s' := by
  induction cells generalizing s done with
  | nil =>
    cases hrun
    exact ⟨hg, done, ho⟩
  | cons c cells ih =>
    obtain ⟨s₁, hcell, hrun⟩ := Option.bind_eq_some_iff.mp hrun
    have hfilter : (c :: cells).filterMap Cell.output = c.output.toList ++ cells.filterMap Cell.output := by
      cases hout : c.output <;> simp [hout]
    rw [hfilter] at hnet hnodup hdone
    obtain ⟨-, hrest, hdisj⟩ := List.nodup_append'.mp hnodup
    have hself : ∀ d ∈ c.output, d ∈ c.output.toList ++ cells.filterMap Cell.output := fun d hd =>
      List.mem_append_left _ (Option.mem_toList.mpr hd)
    obtain ⟨hg₁, ho₁⟩ := cell_spec hM hports hg ho (hcells c List.mem_cons_self)
      (fun d hd => hnet d (hself d hd)) (fun d hd => hdone d (hself d hd)) hcell
    refine ih hg₁ ho₁ (fun c' hc' => hcells c' (List.mem_cons_of_mem c hc'))
      (fun d hd => hnet d (List.mem_append_right _ hd)) hrest (fun d hd hmem => ?_) hrun
    rcases List.mem_append.mp hmem with hmem | hmem
    · exact hdisj hmem hd
    · exact hdone d (List.mem_append_right _ hd) hmem

end Owner

end Yosys.Bench
