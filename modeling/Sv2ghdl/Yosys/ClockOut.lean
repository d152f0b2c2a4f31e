import Sv2ghdl.Yosys.Clocks
import Sv2ghdl.Yosys.CombSplit

/-!
# The fused clock entries

`sm_clock_out` and `sm_clock_late_out` of `yosys/gen_statemachine.cpp`: a clock entry and `sm_comb`
in one function, which evaluates the output cones again with the registers that they read refreshed.
-/

namespace Yosys.Rtlil

namespace Combinational

variable (M : Combinational)

/-! ## The cone of the late registers -/

/-- A bit of the walk for the late groups: the cells of the cone, and the bits that are pushed. -/
def visitLate (b : SigBit) (latecone : List Instance) : List Instance × List SigBit :=
  if (M.regbit b).isSome then (latecone, [])
  else if M.isInput b then (latecone, [])
  else
    let conn := (M.connmap b).toList
    match M.driver b with
    | none => (latecone, conn)
    | some c =>
      if c ∈ latecone then (latecone, conn)
      else (latecone.insert c, (M.wireBits c.read).reverse ++ conn)

/-- The cells that the signals in `wl` need. -/
def coneOf (wl : SigSpec) : Option (List Instance) :=
  Worklist.walk M.visitLate ((M.wireBits wl).length + Worklist.pending M.weight M.keys []) []
    (M.wireBits wl).reverse []

end Combinational

/-! ## The code -/

/-- The code of a module with late clock groups.  What is committed are register bits. -/
structure LateCode (M : Combinational) (μ : Type) extends Code M μ where
  /-- `clk_group > 0` -/
  late : Instance → Bool
  /-- `emit_seq` with a mask that does not hold the main group -/
  lateCommit : List (List Bool) → List Bool → SmState μ → SmState μ
  regbit_const : ∀ b, M.regbit (.const b) = none
  held : ∀ v ∈ regs, ∀ k, M.regbit (M.sigmap (.wire v k)) = some (cname v.name) ∨
    ∀ vs cs s, (commit vs cs s).reg v k = s.reg v k ∧ (lateCommit vs cs s).reg v k = s.reg v k

namespace LateCode

variable {M : Combinational} {μ : Type} (C : LateCode M μ)

/-- `D`, `EN` and `ARST` of the late registers -/
def lateReads : List (Instance × PortId × SigSpec) := M.seqReads.filter fun r =>
  C.late r.1 && r.1.kind = .register &&
    (r.2.1 = .other "D" || r.2.1 = .other "EN" || r.2.1 = .other "ARST")

def lateSigs : SigSpec := C.lateReads.flatMap fun r => r.2.2

def lateSeq (σ : Valuation) (s : SmState μ) : SmState μ :=
  C.lateCommit (C.lateReads.map fun r =>
    (M.sources (C.direct r.1 r.2.1) r.2.2).map (SigBit.value σ)) (C.seqConds σ) s

/-- "refresh committed registers read by the output cones" -/
def refresh (t : Combinational.Marks) (σ : Valuation) (s : SmState μ) : Valuation := fun w =>
  if w ∈ C.regs ∧ cname w.name ∈ t.outconeRegs then s.reg w else σ w

/-- "output-cone recompute" -/
def recompute (t : Combinational.Marks) (σ : Valuation) (s : SmState μ) : Wire → Nat :=
  M.output (M.run (C.cells s.mem) (M.evaluated t (BitVec.allOnes 256)) (C.refresh t σ s))

/-- `sm_clock_out` -/
def clockOut (t : Combinational.Marks) (s : SmState μ) (inp : Valuation) :
    SmState μ × (Wire → Nat) :=
  let p := C.comb s inp
  let s' := C.seq p.1 p.2
  (s', C.recompute t p.1 s')

/-- `sm_clock_late`: the aliases are those of the snapshot, the memories those of the state. -/
def clockLate (s k : SmState μ) (inp : Valuation) : SmState μ :=
  C.lateSeq (M.run (C.cells s.mem) M.sorted (C.aliases k inp).1) s

/-- `sm_clock_late_out` -/
def clockLateOut (t : Combinational.Marks) (latecone : List Instance) (s k : SmState μ)
    (inp : Valuation) : SmState μ × (Wire → Nat) :=
  let σ := M.run (C.cells s.mem) (M.sorted.filter (· ∈ latecone)) (C.aliases k inp).1
  let s' := C.lateSeq σ s
  (s', C.recompute t σ s')

/-- Two results with the same state and the same outputs. -/
def Same (M : Combinational) (r r' : SmState μ × (Wire → Nat)) : Prop :=
  r.1 = r'.1 ∧ ∀ w ∈ M.outputs, r.2 w = r'.2 w

/-- `sm_clock_out` does what `sm_clock` and `sm_comb` do. -/
def OutAgrees (s : SmState μ) (inp : Valuation) : Prop := ∀ t, M.cones = some t →
  Same M (C.clockOut t s inp) (C.smComb t (C.smClock s inp) inp)

/-- `sm_clock_late_out` does what `sm_clock_late` and `sm_comb` do.  The snapshot is left the same by
    both, with the resets done. -/
def LateAgrees (s k : SmState μ) (inp : Valuation) : Prop := ∀ t, M.cones = some t →
  ∀ latecone, M.coneOf C.lateSigs = some latecone →
    Same M (C.clockLateOut t latecone s k inp) (C.smComb t (C.clockLate s k inp) inp)

/-- The bits that no register holds are in the snapshot as in the state. -/
def Snapshot (s k : SmState μ) (inp : Valuation) : Prop := ∀ v ∈ C.regs, ∀ n,
  M.regbit (M.sigmap (.wire v n)) ≠ some (cname v.name) → (C.settle k inp).reg v n = s.reg v n

end LateCode

/-! ## What the late registers need -/

namespace Combinational

variable {M : Combinational}

/-- The marks of the cells are those of a walk from one output. -/
theorem visitLate_visit (b : SigBit) {t : Marks} {latecone : List Instance}
    (h : t.outcone = latecone ∧ ∀ c ∈ latecone, ((t.feeds c).getD .zero).has 0 = true) :
    ((M.visit 0 b t).1.outcone = (M.visitLate b latecone).1 ∧ ∀ c ∈ (M.visitLate b latecone).1,
      (((M.visit 0 b t).1.feeds c).getD .zero).has 0 = true) ∧
      (M.visit 0 b t).2 = (M.visitLate b latecone).2 := by
  obtain ⟨rfl, hbits⟩ := h
  unfold visit visitLate
  cases M.regbit b with
  | some name => exact ⟨⟨rfl, hbits⟩, rfl⟩
  | none =>
    by_cases hin : M.isInput b = true
    · simp only [hin, if_true]
      exact ⟨⟨rfl, hbits⟩, rfl⟩
    · simp only [hin, Bool.false_eq_true, if_false]
      cases M.driver b with
      | none => exact ⟨⟨rfl, hbits⟩, rfl⟩
      | some c =>
        by_cases hc : c ∈ t.outcone
        · -- the cell is there, with its bit
          simp only [hc, hbits c hc, and_self, if_true]
          refine ⟨⟨rfl, fun d hd => ?_⟩, rfl⟩
          by_cases hdc : d = c
          · subst hdc
            rw [Function.update_self]
            exact hbits d hc
          · rw [Function.update_of_ne hdc]
            exact hbits d hd
        · simp only [hc, and_false, if_false]
          refine ⟨⟨rfl, fun d hd => ?_⟩, rfl⟩
          by_cases hdc : d = c
          · subst hdc
            rw [Function.update_self, Option.getD_some, FeedMask.has_set _ _ (by decide)]
            simp
          · rw [Function.update_of_ne hdc]
            exact hbits d ((List.mem_insert_iff.mp hd).resolve_left hdc)

/-- The cone is what the signals need. -/
theorem coneOf_spec (M : Combinational) (wl : SigSpec) :
    ∃ latecone, M.coneOf wl = some latecone ∧ ∀ c, c ∈ latecone ↔ M.Feeds wl c := by
  have hfuel : (M.wireBits wl).reverse.length + Worklist.pending M.weight M.keys [] ≤
      (M.wireBits wl).length + Worklist.pending M.weight M.keys [] := by
    rw [List.length_reverse]
  have hwalk := Worklist.walk_total (t := (⟨[], [], fun _ => none⟩ : Marks)) (List.nodup_dedup _)
    (visit_length 0) (fun b hb => weight_eq_zero hb) hfuel
  obtain ⟨t, ht⟩ := hwalk
  have hlate := Worklist.walk_simulation
    (fun t latecone => t.outcone = latecone ∧
      ∀ c ∈ latecone, ((t.feeds c).getD .zero).has 0 = true)
    (fun b _ _ h => visitLate_visit b h) ⟨rfl, fun c hc => absurd hc List.not_mem_nil⟩ ht
  obtain ⟨latecone, hcone, rfl, hbits⟩ := hlate
  refine ⟨t.outcone, hcone, fun c => ?_⟩
  -- a walk that starts without marks
  obtain ⟨seen, hinv⟩ := Worklist.walk_rule (Inv M 0 wl _) (Inv.start fun c hc => absurd hc List.not_mem_nil)
    (fun _ _ _ _ hb h => h.skip hb) (fun _ _ _ _ _ h => h.visit) ht
  have hmarked := hinv.marked_iff (fun c d hc => absurd hc.1 List.not_mem_nil) c
  rw [or_iff_right fun hc => absurd hc.1 List.not_mem_nil] at hmarked
  rw [← hmarked]
  constructor
  · exact fun hc => ⟨hc, hbits c hc⟩
  · exact fun hc => hc.1

/-- The cells that a signal does not need can be left out. -/
theorem Agree.filter {root : SigSpec} {F : Cells} {p : Instance → Bool}
    (hp : ∀ c, M.Feeds root c → p c = true) {cells : List Instance}
    (hcells : ∀ c ∈ cells, c ∈ M.combCells) {σ σ' : Valuation} (h : M.Agree root σ σ') :
    M.Agree root (M.run F (cells.filter p) σ) (M.run F cells σ') := by
  induction cells generalizing σ σ' with
  | nil => exact h
  | cons c cells ih =>
    have hc := hcells c List.mem_cons_self
    have hrest : ∀ d ∈ cells, d ∈ M.combCells := fun d hd => hcells d (List.mem_cons_of_mem c hd)
    by_cases hpc : p c = true
    · rw [List.filter_cons_of_pos hpc]
      apply ih hrest
      exact h.exec F hc
    · rw [List.filter_cons_of_neg hpc]
      apply ih hrest
      intro v k hneeds
      rw [exec_other fun hdriven => hpc (hp c ⟨hc, _, hdriven, hneeds⟩)]
      exact h v k hneeds

end Combinational

/-! ## The outputs -/

namespace LateCode

open Combinational

variable {M : Combinational} {μ : Type} {C : LateCode M μ}

/-- The registers that the output cones read are refreshed, and the bits of the others that the outputs
    need are as before. -/
theorem recompute_eq {t : Marks} (h : Global (M := M) M.outputs.length t) (horder : M.Ordered)
    (hsplit : M.Unsplit) {σ inp : Valuation} {s' : SmState μ}
    (hσ : ∀ v k, (∀ c ∈ M.combCells, .wire v k ∉ c.driven) → v ∉ C.regs →
      σ v k = C.initial s' inp v k)
    (hheld : ∀ v ∈ C.regs, ∀ k, (∀ c ∈ M.combCells, .wire v k ∉ c.driven) →
      M.regbit (M.sigmap (.wire v k)) ≠ some (cname v.name) → σ v k = s'.reg v k)
    {w : Wire} (hw : w ∈ M.outputs) : C.recompute t σ s' w =
      M.output (M.run (C.cells s'.mem) (M.evaluated t (BitVec.allOnes 256)) (C.initial s' inp)) w := by
  obtain ⟨i, hi, hget⟩ := List.getElem_of_mem hw
  have hw' : M.outputs[i]? = some w := List.getElem?_eq_some_iff.mpr ⟨hi, hget⟩
  have hreg : ∀ v ∈ C.regs, C.initial s' inp v = s'.reg v := by
    intro v hv
    rw [Code.initial, if_neg (C.regs_inputs v hv), if_pos hv]
  unfold recompute
  rw [output_evaluated h hsplit horder hw' (σ := C.initial s' inp),
    output_evaluated h hsplit horder hw' (σ := C.initial s' inp)]
  · exact fun _ _ _ _ => rfl
  · intro v k hundriven hneeds
    unfold refresh
    by_cases hv : v ∈ C.regs
    · rw [hreg v hv]
      by_cases hmem : cname v.name ∈ t.outconeRegs
      · rw [if_pos ⟨hv, hmem⟩]
      · rw [if_neg fun hboth => hmem hboth.2]
        symm
        apply hheld v hv k hundriven
        intro hname
        -- the walk has met the register
        cases hnet : M.sigmap (.wire v k) with
        | const b =>
          rw [hnet, C.regbit_const] at hname
          cases hname
        | wire u j =>
          apply hmem
          rw [hnet] at hneeds hname
          exact h.regs i hi w hw' _ hneeds rfl _ hname
    · rw [if_neg fun hboth => hv hboth.1]
      exact (hσ v k hundriven hv).symm

/-- `sm_comb` in a settled state. -/
theorem smComb_settled {t : Marks} {s : SmState μ} {inp : Valuation} (hs : C.Settled s inp) :
    C.smComb t s inp = (s, M.output
      (M.run (C.cells s.mem) (M.evaluated t (BitVec.allOnes 256)) (C.initial s inp))) := by
  unfold Code.smComb
  rw [hs.aliases]

/-- What the cells do not drive is as in the aliases. -/
theorem run_undriven {F : Cells} {cells : List Instance} (hcells : ∀ c ∈ cells, c ∈ M.combCells)
    (s : SmState μ) (inp : Valuation) {v : Wire} {k : Nat}
    (hundriven : ∀ c ∈ M.combCells, .wire v k ∉ c.driven) :
    M.run F cells (C.aliases s inp).1 v k = C.initial (C.settle s inp) inp v k := by
  rw [run_other fun c hc => hundriven c (hcells c hc), Code.aliases_eq]

theorem initial_other {s s' : SmState μ} {inp : Valuation} {v : Wire} (hv : v ∉ C.regs) :
    C.initial s inp v = C.initial s' inp v := by
  unfold Code.initial
  split_ifs
  · rfl
  · rfl

theorem initial_reg {s : SmState μ} {inp : Valuation} {v : Wire} (hv : v ∈ C.regs) :
    C.initial s inp v = s.reg v := by
  rw [Code.initial, if_neg (C.regs_inputs v hv), if_pos hv]

/-! ## The main entry -/

theorem settled_of_outAgrees {s : SmState μ} {inp : Valuation} (h : C.OutAgrees s inp) :
    C.Settled (C.smClock s inp) inp := by
  obtain ⟨t, ht, -⟩ := cones_spec M
  exact (h t ht).1.symm

theorem outAgrees_of_settled (horder : M.Ordered) (hsplit : M.Unsplit) {s : SmState μ}
    {inp : Valuation} (hs : C.Settled (C.smClock s inp) inp) : C.OutAgrees s inp := by
  intro t ht
  obtain ⟨t', ht', hglobal⟩ := cones_spec M
  cases ht.symm.trans ht'
  rw [smComb_settled hs]
  refine ⟨rfl, fun w hw => ?_⟩
  apply recompute_eq hglobal horder hsplit _ _ hw
  · intro v k hundriven hv
    show M.run _ M.sorted (C.aliases s inp).1 v k = _
    rw [run_undriven (fun c hc => mem_sorted.mp hc) s inp hundriven]
    exact congrFun (initial_other hv) k
  · intro v hv k hundriven hname
    show M.run _ M.sorted (C.aliases s inp).1 v k = _
    rw [run_undriven (fun c hc => mem_sorted.mp hc) s inp hundriven, initial_reg hv]
    -- the commit keeps the bit
    have hheld := (C.held v hv k).resolve_left hname
    exact (hheld _ _ (C.settle s inp)).1.symm

/-! ## The late entry -/

/-- The cone gives the late registers what all cells give them. -/
theorem lateSeq_cone {latecone : List Instance} (hcone : ∀ c, c ∈ latecone ↔ M.Feeds C.lateSigs c)
    (s k : SmState μ) (inp : Valuation) :
    C.lateSeq (M.run (C.cells s.mem) (M.sorted.filter (· ∈ latecone)) (C.aliases k inp).1) s =
      C.clockLate s k inp := by
  have hcells : ∀ c ∈ M.sorted, c ∈ M.combCells := fun c hc => mem_sorted.mp hc
  have hagree := Agree.filter (F := C.cells s.mem) (p := fun c => c ∈ latecone)
    (fun c hc => decide_eq_true ((hcone c).mpr hc)) hcells
    (fun _ _ _ => rfl : M.Agree C.lateSigs (C.aliases k inp).1 (C.aliases k inp).1)
  unfold clockLate lateSeq
  congr 1
  · apply List.map_congr_left
    intro r hr
    apply hagree.sources
    intro b hb
    exact .port (List.mem_flatMap.mpr ⟨r, hr, hb⟩)
  · apply List.map_congr_left
    intro r _
    apply r.aliased
    intro v j hundriven
    rw [run_other fun c hc => hundriven c (hcells c (List.mem_filter.mp hc).1),
      run_other fun c hc => hundriven c (hcells c hc)]

theorem settled_of_lateAgrees {s k : SmState μ} {inp : Valuation} (h : C.LateAgrees s k inp) :
    C.Settled (C.clockLate s k inp) inp := by
  obtain ⟨t, ht, -⟩ := cones_spec M
  obtain ⟨latecone, hcone, hmem⟩ := coneOf_spec M C.lateSigs
  have hstate := (h t ht latecone hcone).1
  rw [clockLateOut, lateSeq_cone hmem] at hstate
  exact hstate.symm

theorem lateAgrees_of_settled (horder : M.Ordered) (hsplit : M.Unsplit) {s k : SmState μ}
    {inp : Valuation} (hk : C.Snapshot s k inp) (hs : C.Settled (C.clockLate s k inp) inp) :
    C.LateAgrees s k inp := by
  intro t ht latecone hcone
  obtain ⟨t', ht', hglobal⟩ := cones_spec M
  cases ht.symm.trans ht'
  obtain ⟨latecone', hcone', hmem⟩ := coneOf_spec M C.lateSigs
  cases hcone.symm.trans hcone'
  have hcells : ∀ c ∈ M.sorted.filter (· ∈ latecone), c ∈ M.combCells := fun c hc =>
    mem_sorted.mp (List.mem_filter.mp hc).1
  rw [smComb_settled hs, clockLateOut, lateSeq_cone hmem]
  refine ⟨rfl, fun w hw => ?_⟩
  apply recompute_eq hglobal horder hsplit _ _ hw
  · intro v j hundriven hv
    rw [run_undriven hcells k inp hundriven]
    exact congrFun (initial_other hv) j
  · intro v hv j hundriven hname
    rw [run_undriven hcells k inp hundriven, initial_reg hv, hk v hv j hname]
    -- the commit keeps the bit
    have hheld := (C.held v hv j).resolve_left hname
    exact (hheld _ _ s).2.symm

section Examples

/-- `if (load) reg = d;` -/
def loadBit (reg : String) (load d : Bool) (s : SmState Unit) : SmState Unit where
  reg := fun w k => if w = ⟨reg, 1⟩ ∧ k = 0 ∧ load then d else s.reg w k
  mem := s.mem

theorem loadBit_other {reg : String} {load d : Bool} {s : SmState Unit} {w : Wire} {k : Nat}
    (hk : k ≠ 0) : (loadBit reg load d s).reg w k = s.reg w k := if_neg fun h => hk h.2.1

/-- The registers of `chainedResets`, of which `q` has a clock of its own. -/
def chainedLate : LateCode chainedResets Unit where
  regs := [⟨"p", 1⟩, ⟨"q", 1⟩]
  fn _ _ _ _ := false
  direct _ _ := false
  resets := [bitReset "p" "q" false, bitReset "q" "rst" true]
  commit vs conds s := loadBit "q" (!conds.getD 1 false) ((vs.getD 3 []).getD 0 false)
    (loadBit "p" (!conds.getD 0 false) ((vs.getD 1 []).getD 0 false) s)
  resets_regs := chainedCode.resets_regs
  regs_inputs := chainedCode.regs_inputs
  late c := c.name = "Q"
  lateCommit vs conds s := loadBit "q" (!conds.getD 1 false) ((vs.getD 1 []).getD 0 false) s
  regbit_const _ := rfl
  held v hv k := by
    by_cases hk : k = 0
    · left
      subst hk
      simp only [List.mem_cons, List.not_mem_nil, or_false] at hv
      rcases hv with rfl | rfl
      · rfl
      · rfl
    · right
      intro vs cs s
      exact ⟨(loadBit_other hk).trans (loadBit_other hk), loadBit_other hk⟩

/-- `d` is 1 and `rst` is as given. -/
def resetInput (rst : Bool) : Valuation := fun w _ => if w = ⟨"rst", 1⟩ then rst else true

end Examples

end LateCode

end Yosys.Rtlil
