import Sv2ghdl.Yosys.BenchCells

/-!
# Runs of the bench writer

The invariant of the names from the claimed names to the lines of the next values.
-/

open Python Vamos.Netlist.Expression

namespace Yosys.Bench

variable {P : Interpreter} {M : Module} {s s' : State} {n : Str} {ports : List Str} {done : List Bit}

/-! ## Claimed names -/

/-- What holds of the names while they are claimed. -/
def Claims (names : Names) : Prop := (names.map Prod.fst).Nodup ∧ ∀ e ∈ names, Plain e.2

theorem claimBits_spec {nm : Str} (hnm : Plain nm) (bits : List Bit) {names : Names} (h : Claims names) :
    Claims (claimBits nm bits names) := by
  rw [claimBits]
  generalize bits.zipIdx = l
  induction l generalizing names with
  | nil => exact h
  | cons p l ih =>
    obtain ⟨bit, i⟩ := p
    apply ih
    cases bit with
    | const c => exact h
    | net b =>
      show Claims (if (names.lookup b).isNone then (b, suffixed nm bits.length i) :: names else names)
      split_ifs with hnone
      · refine ⟨List.nodup_cons.mpr ⟨fun hmem => ?_, h.1⟩, fun e he => ?_⟩
        · obtain ⟨e, he, heq⟩ := List.mem_map.mp hmem
          obtain ⟨m, hm⟩ := Lookup.lookup_isSome_of_mem he
          rw [heq] at hm
          simp [hm] at hnone
        · rcases List.mem_cons.mp he with rfl | he
          · exact plain_suffixed hnm _ _
          · exact h.2 e he
      · exact h

theorem claim_spec {names : Names} (h : Claims names) (wname : Str) : Claims (M.claim P names wname) := by
  rw [Module.claim]
  cases M.netnames.lookup wname with
  | none => exact h
  | some bits => exact claimBits_spec (plain_sanitize P wname) bits h

theorem foldl_claims {α : Type} {f : Names → α → Names} {l : List α}
    (hf : ∀ names, ∀ a ∈ l, Claims names → Claims (f names a)) {names : Names} (h : Claims names) :
    Claims (l.foldl f names) := by
  induction l generalizing names with
  | nil => exact h
  | cons a l ih =>
    exact ih (fun names b hb => hf names b (List.mem_cons_of_mem a hb)) (hf names a List.mem_cons_self h)

theorem claimed_spec (hM : M.Apart P) : Claims (M.claimed P) := by
  have hempty : Claims [] := ⟨List.nodup_nil, fun e he => absurd he List.not_mem_nil⟩
  have hpriority := foldl_claims (l := M.priority) (fun names w _ h => claim_spec (P := P) (M := M) h w) hempty
  have hports := foldl_claims (l := M.ports)
    (fun names p hp h => claimBits_spec (hM.plain p hp) p.bits h) hpriority
  exact foldl_claims (fun names w _ h => claim_spec h w) hports

theorem mem_portBits {l : List Port} {p : Str × Bit} (h : p ∈ Module.portBits l) :
    ∃ port ∈ l, ∃ len i, p.1 = suffixed port.name len i := by
  obtain ⟨port, hport, hp⟩ := List.mem_flatMap.mp h
  obtain ⟨b, -, rfl⟩ := List.mem_map.mp hp
  exact ⟨port, hport, _, _, rfl⟩

theorem plain_portBits (hM : M.Apart P) {p : Str × Bit} (h : p ∈ M.inPorts ++ M.outPorts) : Plain p.1 := by
  rcases List.mem_append.mp h with h | h
  · obtain ⟨port, hport, len, i, heq⟩ := mem_portBits h
    rw [heq]
    exact plain_suffixed (hM.plain port (List.mem_filter.mp hport).1) len i
  · obtain ⟨port, hport, len, i, heq⟩ := mem_portBits h
    rw [heq]
    exact plain_suffixed (hM.plain port (List.mem_filter.mp hport).1) len i

theorem mem_portNets {p : Str × Bit} (h : p ∈ M.inPorts ++ M.outPorts) (hname : M.isNamed P p = false) :
    p.1 ∈ M.portNets P :=
  List.mem_map_of_mem (List.mem_filter.mpr ⟨h, by rw [hname]; rfl⟩)

theorem lookup_of_isNamed {p : Str × Bit} (h : M.isNamed P p = true) :
    ∃ b, p.2 = .net b ∧ (M.claimed P).lookup b = some p.1 := by
  rw [Module.isNamed] at h
  cases hbit : p.2 with
  | net b =>
    rw [hbit] at h
    exact ⟨b, rfl, of_decide_eq_true h⟩
  | const c =>
    rw [hbit] at h
    cases h

/-- What is written is plain. -/
theorem Good.plain (hM : M.Apart P) (h : Good P M s) (hn : s.Known P M n) : Plain n := by
  rcases hn with hn | hn
  · rcases h.given_or_made hn with hgiven | ⟨stem, k, -, rfl⟩
    · rcases List.mem_append.mp hgiven with hgiven | hgiven
      · obtain ⟨e, he, rfl⟩ := List.mem_map.mp hgiven
        exact (claimed_spec hM).2 e he
      · obtain ⟨p, hp, rfl⟩ := List.mem_map.mp hgiven
        exact plain_portBits hM (List.mem_filter.mp hp).1
    · exact plain_named stem k
  · exact plain_special hn

theorem Good.lookup_claimed (h : Good P M s) {b : Nat} (hb : (M.claimed P).lookup b = some n) :
    s.names.lookup b = some n :=
  Lookup.lookup_of_mem h.keys (h.claimed.subset (Lookup.mem_of_lookup hb))

/-! ## Ports -/

/-- At the start only the inputs drive, each under the name of its bit or as a net of its own. -/
theorem start_spec (hM : M.Apart P) : Good P M (M.start P) ∧
    Owner P M ((M.inPorts.filter fun p => !M.isNamed P p).map Prod.fst)
      ((M.inPorts.filter (M.isNamed P)).map Prod.snd) (M.start P) := by
  have hdriven : (M.start P).driven = M.inPorts.map Prod.fst := by simp [State.driven, Module.start]
  have hnets : (M.start P).nets P M = M.given P := by simp [State.nets, Module.start, Module.given]
  have hmem : ∀ n ∈ (M.start P).driven, n ∈ (M.inPorts.filter fun p => !M.isNamed P p).map Prod.fst ∨
      ∃ b, Bit.net b ∈ (M.inPorts.filter (M.isNamed P)).map Prod.snd ∧ (M.claimed P).lookup b = some n := by
    intro n hn
    rw [hdriven] at hn
    obtain ⟨p, hp, rfl⟩ := List.mem_map.mp hn
    cases hname : M.isNamed P p with
    | true =>
      obtain ⟨b, hb, hlookup⟩ := lookup_of_isNamed hname
      exact .inr ⟨b, hb ▸ List.mem_map_of_mem (List.mem_filter.mpr ⟨hp, hname⟩), hlookup⟩
    | false => exact .inl (List.mem_map_of_mem (List.mem_filter.mpr ⟨hp, by rw [hname]; rfl⟩))
  have hports : ((M.inPorts.filter fun p => !M.isNamed P p).map Prod.fst).Sublist (M.portNets P) := by
    rw [Module.portNets, List.filter_append, List.map_append]
    exact List.sublist_append_left _ _
  constructor
  · constructor
    · exact List.suffix_refl _
    · exact (claimed_spec hM).1
    · exact fun e he => .inl he
    · exact fun n hn => absurd hn List.not_mem_nil
    · rw [hnets]
      exact id
    · intro hgiven
      rw [hdriven]
      obtain ⟨hclaimed, hnodup, hdisj⟩ := List.nodup_append'.mp hgiven
      have hperm := (List.filter_append_perm (fun p => M.isNamed P p) M.inPorts).map Prod.fst
      rw [List.map_append] at hperm
      refine hperm.nodup_iff.mp (List.nodup_append'.mpr ⟨?_, hnodup.sublist hports, fun n hn hn' => ?_⟩)
      · -- Two inputs with the name of their bits have different bits.
        have hbits : ((M.inPorts.filter (M.isNamed P)).map Prod.snd).Nodup :=
          hM.drivers.sublist (List.sublist_append_left _ _)
        refine List.pairwise_map.mpr ((List.pairwise_map.mp hbits).imp_of_mem fun {p p'} hp hp' hne heq => ?_)
        obtain ⟨b, hb, hlookup⟩ := lookup_of_isNamed (List.mem_filter.mp hp).2
        obtain ⟨b', hb', hlookup'⟩ := lookup_of_isNamed (List.mem_filter.mp hp').2
        rw [← heq] at hlookup'
        have hsame := List.inj_on_of_nodup_map hclaimed (Lookup.mem_of_lookup hlookup)
          (Lookup.mem_of_lookup hlookup') rfl
        have hbit : b = b' := congrArg Prod.fst hsame
        rw [hb, hb', hbit] at hne
        exact hne rfl
      · obtain ⟨p, hp, rfl⟩ := List.mem_map.mp hn
        obtain ⟨b, -, hlookup⟩ := lookup_of_isNamed (List.mem_filter.mp hp).2
        exact hdisj (List.mem_map_of_mem (Lookup.mem_of_lookup hlookup)) (hports.subset hn')
    · intro n hn
      left
      rw [hnets]
      rcases hmem n hn with hport | ⟨b, -, hlookup⟩
      · exact List.mem_append_right _ (hports.subset hport)
      · exact List.mem_append_left _ (List.mem_map_of_mem (Lookup.mem_of_lookup hlookup))
    · exact fun l hl => absurd hl List.not_mem_nil
    · exact fun o ho => absurd ho List.not_mem_nil
    · exact fun d hd => absurd hd List.not_mem_nil
    · exact fun r hr => absurd hr (by simp [Module.start])
    · exact fun b hb => absurd hb List.not_mem_nil
  · exact ⟨fun n hn => (hmem n hn).imp_right .inr, fun d hd => absurd hd List.not_mem_nil, rfl⟩

theorem Good.addOutput (h : Good P M s) (hn : s.Known P M n) : Good P M (s.addOutput n) := by
  refine ⟨h.claimed, h.keys, h.named, h.made, h.nodup, h.driven, h.known, h.lines, fun o ho => ?_, h.dffs,
    h.root, h.pool⟩
  rcases List.mem_append.mp ho with ho | ho
  · exact h.outputs o ho
  · exact List.mem_singleton.mp ho ▸ hn

/-- An output that is a net of its own is driven by a buffer. -/
theorem outPort_spec (hM : M.Apart P) (hg : Good P M s)
    (ho : Owner P M ports done s) {p : Str × Bit} (hp : p ∈ M.inPorts ++ M.outPorts)
    (hnew : M.isNamed P p = false → (M.given P).Nodup → p.1 ∉ ports) (hrun : s.outPort p = some s') :
    Good P M s' ∧ Owner P M (ports ++ if M.isNamed P p then [] else [p.1]) done s' := by
  rw [State.outPort] at hrun
  rcases hname : s.bitName p.2 with ⟨drv, s₁⟩
  simp only [hname] at hrun
  obtain ⟨h₁, hlookup⟩ := (Trace.start hg (List.forall_mem_nil _)).bitName hM hname
  have ho₁ := ho.same h₁
  split_ifs at hrun with hdrv
  · cases hrun
    have hwide : Owner P M (ports ++ if M.isNamed P p then [] else [p.1]) done s₁ :=
      ⟨fun n hn => (ho₁.driven n hn).imp_left (List.mem_append_left _), ho₁.registers, ho₁.ppi⟩
    exact ⟨h₁.good.addOutput (hdrv ▸ h₁.seen drv List.mem_cons_self), hwide.driven, hwide.registers, hwide.ppi⟩
  · obtain ⟨s₂, hgate, hrun⟩ := Option.bind_eq_some_iff.mp hrun
    cases hrun
    have hnot : M.isNamed P p = false := by
      rw [← Bool.not_eq_true]
      intro htrue
      obtain ⟨b, hb, hclaimed⟩ := lookup_of_isNamed htrue
      have heq := hlookup b hb
      rw [h₁.good.lookup_claimed hclaimed] at heq
      exact hdrv (Option.some.inj heq).symm
    have hport := mem_portNets hp hnot
    have hwait := (Trace.start h₁.good h₁.seen).await (y := p.1)
      (.inl (List.mem_append_left _ (List.mem_append_right _ hport))) fun hgiven hmem => by
        have hapart := h₁.good.apart hgiven
        rcases ho₁.driven p.1 hmem with hmem | hmem | ⟨b, -, hb⟩
        · exact hnew hnot hgiven hmem
        · exact hapart.2 p.1 hport hmem
        · exact (hapart.1 p.1 (mem_names_of_lookup hb)).1 hport
    have h₂ := hwait.gate hM [] [] (by decide) (by simp) hgate
    have ho₂ : Owner P M (ports ++ [p.1]) done s₂ := by
      refine ho₁.trace h₂ (fun _ hq => List.mem_append_left _ hq) (fun _ hb => hb) fun n hn => ?_
      exact .inl (List.mem_append_right _ hn)
    rw [hnot]
    exact ⟨h₂.good.addOutput (.inl (List.mem_append_left _ (List.mem_append_right _ hport))),
      ho₂.driven, ho₂.registers, ho₂.ppi⟩

theorem outPorts_spec (hM : M.Apart P) {ps : List (Str × Bit)} (hps : ∀ p ∈ ps, p ∈ M.inPorts ++ M.outPorts)
    (hports : ∀ p ∈ ports, p ∈ M.portNets P) (hg : Good P M s) (ho : Owner P M ports done s)
    (hnodup : (M.given P).Nodup → (ports ++ (ps.filter fun p => !M.isNamed P p).map Prod.fst).Nodup)
    (hrun : ps.foldlM State.outPort s = some s') :
    Good P M s' ∧ ∃ ports', (∀ p ∈ ports', p ∈ M.portNets P) ∧ Owner P M ports' done s' := by
  induction ps generalizing s ports with
  | nil =>
    cases hrun
    exact ⟨hg, ports, hports, ho⟩
  | cons p ps ih =>
    obtain ⟨s₁, hport, hrun⟩ := Option.bind_eq_some_iff.mp hrun
    have hp := hps p List.mem_cons_self
    have hsplit : ((p :: ps).filter fun p => !M.isNamed P p).map Prod.fst =
        (if M.isNamed P p then [] else [p.1]) ++ (ps.filter fun p => !M.isNamed P p).map Prod.fst := by
      cases hname : M.isNamed P p <;> simp [hname]
    rw [hsplit, ← List.append_assoc] at hnodup
    obtain ⟨hg₁, ho₁⟩ := outPort_spec hM hg ho hp (fun hname hgiven hmem => by
      have hleft := (hnodup hgiven).sublist (List.sublist_append_left _ _)
      rw [hname] at hleft
      exact (List.nodup_append'.mp hleft).2.2 hmem (List.mem_singleton_self _)) hport
    refine ih (fun q hq => hps q (List.mem_cons_of_mem p hq)) (fun q hq => ?_) hg₁ ho₁ hnodup hrun
    rcases List.mem_append.mp hq with hq | hq
    · exact hports q hq
    · cases hname : M.isNamed P p with
      | true =>
        rw [hname] at hq
        cases hq
      | false =>
        rw [hname] at hq
        exact List.mem_singleton.mp hq ▸ mem_portNets hp hname

/-! ## Ties -/

theorem tie_spec (hM : M.Apart P) (hg : Good P M s) (hn : s.Known P M n)
    (hnot : (M.given P).Nodup → n ∉ s.driven) (hrun : s.tie n = some s') :
    Good P M s' ∧ Extends P M s s' [n] := by
  rw [State.tie] at hrun
  obtain ⟨⟨c0, s₁⟩, hconst, hrun⟩ := Option.bind_eq_some_iff.mp hrun
  cases hrun
  obtain ⟨hg₁, he₁, hknown⟩ := const0_spec hM hg hconst
  have hnot₁ : (M.given P).Nodup → n ∉ s₁.driven := fun hgiven hmem => by
    simpa [hnot hgiven] using he₁.driven n hn hmem
  obtain ⟨hg₂, he₂⟩ := addLine_spec hg₁ (he₁.known n hn) hnot₁ (@plain_str "BUFF" (by decide))
    (by simpa using hknown : ∀ a ∈ [c0], s₁.Known P M a)
  exact ⟨hg₂, he₁.trans he₂⟩

theorem ties_spec (hM : M.Apart P) {ns : List Str} (hg : Good P M s) (hnodup : ns.Nodup)
    (hns : ∀ n ∈ ns, s.Known P M n ∧ n ∉ s.driven) (hrun : ns.foldlM State.tie s = some s') :
    Good P M s' ∧ Extends P M s s' ns := by
  induction ns generalizing s with
  | nil =>
    cases hrun
    exact ⟨hg, .of_eq rfl rfl rfl rfl rfl rfl⟩
  | cons n ns ih =>
    obtain ⟨s₁, htie, hrun⟩ := Option.bind_eq_some_iff.mp hrun
    obtain ⟨hknown, hnot⟩ := hns n List.mem_cons_self
    obtain ⟨hg₁, he₁⟩ := tie_spec hM hg hknown (fun _ => hnot) htie
    obtain ⟨hnew, hrest⟩ := List.nodup_cons.mp hnodup
    obtain ⟨hg₂, he₂⟩ := ih hg₁ hrest (fun m hm => by
      obtain ⟨hknown, hnot⟩ := hns m (List.mem_cons_of_mem n hm)
      refine ⟨he₁.known m hknown, fun hmem => ?_⟩
      rcases he₁.driven m hknown hmem with hmem | hmem
      · exact hnot hmem
      · exact hnew (List.mem_singleton.mp hmem ▸ hm)) hrun
    exact ⟨hg₂, he₁.trans he₂⟩

/-- The lines are read back as they were written. -/
theorem Good.parseLine (hM : M.Apart P) (h : Good P M s) {l : Line} (hl : l ∈ s.lines) :
    parseLine l.text = (l.target, if l.args = [] then [str ""] else l.args) := by
  have htarget : l.target ∈ s.driven := List.mem_append_right _ (List.mem_map_of_mem hl)
  exact parseLine_text (h.plain hM (h.known _ htarget)) (h.lines l hl).1
    fun a ha => h.plain hM ((h.lines l hl).2 a ha)

theorem Good.drivenNames (hM : M.Apart P) (h : Good P M s) : s.drivenNames = s.driven := by
  rw [State.drivenNames, State.driven]
  congr 1
  exact List.map_congr_left fun l hl => congrArg Prod.fst (h.parseLine hM hl)

theorem Good.referenced (hM : M.Apart P) (h : Good P M s) (hn : n ∈ s.referenced) : s.Known P M n := by
  rcases List.mem_append.mp hn with hn | hn
  · rcases List.mem_append.mp hn with hn | hn
    · exact h.outputs n hn
    · obtain ⟨d, hd, rfl⟩ := List.mem_map.mp hn
      exact h.dffs d hd
  · obtain ⟨l, hl, hn⟩ := List.mem_flatMap.mp hn
    rw [h.parseLine hM hl] at hn
    dsimp only at hn
    split_ifs at hn
    · exact .inr (by simp [specials, List.mem_singleton.mp hn])
    · exact (h.lines l hl).2 n hn

theorem Good.floating (hM : M.Apart P) (h : Good P M s) :
    (s.floating P).Nodup ∧ ∀ n ∈ s.floating P, s.Known P M n ∧ n ∉ s.driven := by
  have hperm := P.setOrder_perm s.referenced
  refine ⟨(hperm.nodup_iff.mpr (List.nodup_dedup _)).filter _, fun n hn => ?_⟩
  obtain ⟨hmem, hcond⟩ := List.mem_filter.mp hn
  rw [Bool.and_eq_true, decide_eq_true_eq, h.drivenNames hM] at hcond
  exact ⟨h.referenced hM (List.mem_dedup.mp (hperm.subset hmem)), hcond.1⟩

/-- The loop keeps the names of the bits and the registers. -/
theorem sweep_spec (hM : M.Apart P) {fuel : Nat} (hg : Good P M s) (hrun : s.sweep P fuel = some s') :
    Good P M s' ∧ (∀ b n, s.names.lookup b = some n → s'.names.lookup b = some n) ∧ s'.dffs = s.dffs := by
  induction fuel generalizing s with
  | zero => cases hrun
  | succ fuel ih =>
    rw [State.sweep] at hrun
    by_cases hfloat : s.floating P ≠ []
    · rw [if_pos hfloat] at hrun
      obtain ⟨s₁, hties, hrun⟩ := Option.bind_eq_some_iff.mp hrun
      obtain ⟨hnodup, hns⟩ := hg.floating hM
      obtain ⟨hg₁, he₁⟩ := ties_spec hM hg hnodup hns hties
      obtain ⟨hg', hlookup, hdffs⟩ := ih hg₁ hrun
      exact ⟨hg', fun b n hb => hlookup b n (he₁.lookup b n hb), hdffs.trans he₁.dffs⟩
    · rw [if_neg hfloat] at hrun
      dsimp only at hrun
      split at hrun
      · cases hrun
        exact ⟨hg, fun _ _ hb => hb, rfl⟩
      · refine ih (s := { s with
          inputs := s.inputs.filter (· ∈ s.referenced), ppiNames := s.ppiNames.filter (· ∈ s.referenced) })
          ?_ hrun
        have hsub : (State.driven { s with
            inputs := s.inputs.filter (· ∈ s.referenced),
            ppiNames := s.ppiNames.filter (· ∈ s.referenced) }).Sublist s.driven :=
          (List.filter_sublist.append List.filter_sublist).append (List.Sublist.refl _)
        exact ⟨hg.claimed, hg.keys, hg.named, hg.made, hg.nodup,
          fun hgiven => (hg.driven hgiven).sublist hsub, fun n hn => hg.known n (hsub.subset hn), hg.lines,
          hg.outputs, hg.dffs, hg.root, hg.pool⟩

theorem nextData_spec (hM : M.Apart P) {ds : List (Str × Str)} (hg : Good P M s)
    (hds : ∀ d ∈ ds, s.Known P M d.2) (hrun : s.nextData ds = some s') :
    Good P M s' ∧ Extends P M s s' [] := by
  induction ds generalizing s with
  | nil =>
    cases hrun
    exact ⟨hg, .of_eq rfl rfl rfl rfl rfl rfl⟩
  | cons d ds ih =>
    rw [State.nextData] at hrun
    obtain ⟨⟨as, s₁⟩, hsubst, hrun⟩ := Option.bind_eq_some_iff.mp hrun
    obtain ⟨hg₁, he₁, -⟩ := subst_spec hM hg
      (by simpa using hds d List.mem_cons_self : ∀ a ∈ [d.2], s.Known P M a) hsubst
    obtain ⟨hg₂, he₂⟩ := ih hg₁ (fun e he => he₁.known _ (hds e (List.mem_cons_of_mem d he))) hrun
    exact ⟨hg₂, he₁.trans he₂⟩

/-! ## The file -/

/-- What is written, and the state that it is written from. -/
theorem bench_spec (hM : M.Apart P) {fuel : Nat} {out : Output} (hrun : M.bench P fuel = some out) :
    ∃ s : State, Good P M s ∧
      (∀ d ∈ s.dffs, ∃ c ∈ M.cells, ∃ b, c.register = some (.net b) ∧ s.names.lookup b = some d.1) ∧
      ((M.given P).Nodup → (s.dffs.map Prod.fst).Nodup) ∧
      out = ⟨s.names, s.synth, s.inputs, (s.dffs.filter fun d => d.1 ∈ s.ppiNames).map Prod.fst, s.outputs,
        s.lines⟩ := by
  rw [Module.bench] at hrun
  obtain ⟨s₁, hports, hrun⟩ := Option.bind_eq_some_iff.mp hrun
  obtain ⟨s₂, hcells, hrun⟩ := Option.bind_eq_some_iff.mp hrun
  obtain ⟨s₃, hsweep, hrun⟩ := Option.bind_eq_some_iff.mp hrun
  obtain ⟨s₄, hnext, hrun⟩ := Option.bind_eq_some_iff.mp hrun
  cases hrun
  obtain ⟨hg₀, ho₀⟩ := start_spec hM
  have hnets : (M.inPorts.filter fun p => !M.isNamed P p).map Prod.fst ++
      (M.outPorts.filter fun p => !M.isNamed P p).map Prod.fst = M.portNets P := by
    rw [Module.portNets, List.filter_append, List.map_append]
  obtain ⟨hg₁, ports, hsub, ho₁⟩ := outPorts_spec hM (fun p hp => List.mem_append_right _ hp)
    (fun p hp => hnets ▸ List.mem_append_left _ hp) hg₀ ho₀
    (fun hgiven => by
      rw [hnets]
      exact (List.nodup_append'.mp hgiven).2.1) hports
  obtain ⟨-, hnodup, hdisj⟩ := List.nodup_append'.mp hM.drivers
  obtain ⟨hg₂, done, ho₂⟩ := cells_spec hM hsub hg₁ ho₁ (fun _ hc => hc)
    (fun d hd => hM.nets d (List.mem_append_right _ hd)) hnodup (fun d hd hmem => hdisj hmem hd) hcells
  obtain ⟨hg₃, hlookup, hdffs⟩ := sweep_spec hM hg₂ hsweep
  obtain ⟨hg₄, he₄⟩ := nextData_spec hM hg₃
    (fun d hd => hg₃.dffs d (List.mem_filter.mp hd).1) hnext
  refine ⟨s₄, hg₄, fun d hd => ?_, fun hgiven => ?_, by rw [he₄.dffs, he₄.ppiNames]⟩
  · rw [he₄.dffs, hdffs] at hd
    obtain ⟨c, hc, b, hregister, hb⟩ := ho₂.registers d hd
    exact ⟨c, hc, b, hregister, he₄.lookup b _ (hlookup b _ hb)⟩
  · rw [he₄.dffs, hdffs, ← ho₂.ppi]
    have hdriven := hg₂.driven hgiven
    rw [State.driven] at hdriven
    exact (hdriven.sublist (List.sublist_append_left _ _)).sublist (List.sublist_append_right _ _)

/-- The next value of a register has a name that nothing else has. -/
theorem Good.next_new (hM : M.Apart P) (h : Good P M s)
    (hregisters : ∀ d ∈ s.dffs, ∃ c ∈ M.cells, ∃ b, c.register = some (.net b) ∧ s.names.lookup b = some d.1)
    {d : Str × Str} (hd : d ∈ s.dffs) : ¬ s.Known P M (next d.1) := by
  rintro (hn | hn)
  · rcases h.given_or_made hn with hgiven | ⟨stem, k, -, heq⟩
    · obtain ⟨c, hc, b, hregister, hb⟩ := hregisters d hd
      refine hM.next c hc b hregister d.1 ?_ hgiven
      cases hclaimed : (M.claimed P).lookup b with
      | some q =>
        have hq := h.lookup_claimed hclaimed
        rw [hb] at hq
        exact .inl hq.symm
      | none =>
        rcases h.named _ (Lookup.mem_of_lookup hb) with hmem | ⟨k, -, heq⟩
        · obtain ⟨q, hq⟩ := Lookup.lookup_isSome_of_mem hmem
          rw [hclaimed] at hq
          cases hq
        · exact .inr ⟨rfl, k, heq⟩
    · exact next_ne_named d.1 stem k heq
  · exact next_not_special d.1 hn

theorem isSpace_of_isAsciiAlnum (c : CodePoint) (hc : c.isAsciiAlnum = true) : c.isSpace = false := by
  rw [← Bool.not_eq_true]
  simp only [CodePoint.isAsciiAlnum, CodePoint.isAsciiLetter, CodePoint.isUpperAscii,
    CodePoint.isLowerAscii, CodePoint.isAsciiDigit, CodePoint.isSpace, Bool.or_eq_true, Bool.and_eq_true,
    decide_eq_true_eq, beq_iff_eq] at hc ⊢
  omega

/-- An interpreter for names in ASCII. -/
def ascii : Interpreter where
  isAlnum := CodePoint.isAsciiAlnum
  isDigit := CodePoint.isAsciiDigit
  setOrder := List.dedup
  isAlnum_ascii := fun _ _ => rfl
  isAlnum_space := isSpace_of_isAsciiAlnum
  setOrder_perm := fun _ => List.Perm.refl _

/-- A register whose data is an inverted input. -/
def inverted : Module where
  ports := [⟨str "a", str "input", [.net 2]⟩, ⟨str "y", str "output", [.net 5]⟩]
  netnames := [(str "q", [.net 5])]
  cells := [⟨str "g", str "$_NOT_", [(str "A", [.net 2]), (str "Y", [.net 4])]⟩,
    ⟨str "r", str "$_DFF_P_", [(str "D", [.net 4]), (str "Q", [.net 5])]⟩]
  regnames := [str "q"]

/-- The wires `a.b` and `a_b` of one module. -/
def merged : Module where
  ports := [⟨str "a", str "input", [.net 2]⟩, ⟨str "y", str "output", [.net 7]⟩]
  netnames := [(str "a.b", [.net 3]), (str "a_b", [.net 6])]
  cells := [⟨str "g1", str "$_NOT_", [(str "A", [.net 2]), (str "Y", [.net 3])]⟩,
    ⟨str "g2", str "$_NOT_", [(str "A", [.net 3]), (str "Y", [.net 6])]⟩,
    ⟨str "g3", str "$_AND_", [(str "A", [.net 3]), (str "B", [.net 6]), (str "Y", [.net 7])]⟩]
  regnames := []

theorem inverted_apart : inverted.Apart ascii := by
  have hgiven : inverted.given ascii = [str "a", str "q", str "y"] := by decide +kernel
  constructor
  · intro p hp
    rcases (by simpa [inverted] using hp : _ ∨ _) with rfl | rfl <;> exact plain_str (by decide)
  · intro n hn stem k
    rw [hgiven] at hn
    rcases (by simpa using hn : _ ∨ _ ∨ _) with rfl | rfl | rfl <;> cases stem <;>
      simp [Stem.named, Stem.text, str]
  · intro c _ b _ q _ hn
    rw [hgiven] at hn
    simp [next, str] at hn
  · have hdrivers : inverted.drivers ascii = [.net 2, .net 4, .net 5] := by decide +kernel
    rw [hdrivers]
    simp
  · decide +kernel

end Yosys.Bench
