import Sv2ghdl.Yosys.CoverSolve

/-!
# Reachable answers

The values of the variables that satisfy the query are those of a simulation, so that what the solver
reaches is reached with the inputs that are printed.
-/

open Smt

namespace Yosys.Cover

open Rtlil

variable (zeroSort : Bool) (D : Design)

/-! ## Modules that are encoded -/

/-- A wire that a register, a cell, the reset or a printed input drives. -/
def Design.Driven (w : Wire) : Prop :=
  (∃ f ∈ D.flops, f.q = w.all) ∨ (∃ c ∈ D.cells, c.Y = w.all) ∨ D.printed w = true ∨
    D.resetWire = some w

def Design.Source : SigBit → Prop
  | .wire w i => w ∈ D.wires ∧ i < w.width ∧ D.Driven w
  | .const _ => True

/-- A signal that `sig_to_z3` renders. -/
structure Rendered (sig : SigSpec) : Prop where
  nonempty : sig ≠ []
  bits : ∀ b ∈ sig, D.Source (D.sigmap b)
  short : ∀ data, .const data ∈ chunks (sig.map D.sigmap) → data.length ≤ 64
  single : zeroSort = true ∨ (chunks (sig.map D.sigmap)).length ≤ 1

/-- The encoding of a cell is the output that its library defines. -/
def Exact (c : Cell) : Prop := ∀ ts : List (Term Var),
  ts.map Term.width = (operands c).map List.length → ∃ t, combine c ts = some t ∧
    t.width = c.Y.length ∧ ∀ ρ σ, ts.map (Term.eval ρ) = (operands c).map (value σ) → t.eval ρ = out σ c

/-- Wires have names of their own. -/
def Design.Named : Prop :=
  ∀ v ∈ D.wires, ∀ w ∈ D.wires, zname v.name = zname w.name → v = w

/-- A module whose cells are encoded exactly: each drives one whole wire, wires have names of their
    own, no cell depends on its output, and the reset state is what the query starts from. -/
structure Plain : Prop where
  names : D.Named
  sigmap_const : ∀ s, D.sigmap (.const s) = .const s
  inputs : ∀ w, D.resetWire = some w → 0 < w.width
  flops : ∀ f ∈ D.flops, ∃ w ∈ D.wires, f.q = w.all ∧ 0 < w.width ∧ D.input w = false
  distinct : (D.flops.map Flop.q).Nodup
  start : ∀ f ∈ D.flops, f.resetState = (f.arst.map fun r => bits64 r.2).getD 0
  reads : ∀ f ∈ D.flops, Rendered zeroSort D f.d ∧ ∀ en ∈ f.en, Rendered zeroSort D [en.bit]
  cells : ∀ c ∈ D.cells, ∃ w ∈ D.wires, c.Y = w.all ∧ 0 < w.width ∧ D.input w = false
  operands : ∀ c ∈ D.cells, ∀ sig ∈ operands c, Rendered zeroSort D sig
  exact : ∀ c ∈ D.cells, Exact c
  acyclic : ∃ rank : Wire → Nat, ∀ c ∈ D.cells, ∀ w, c.Y = w.all → ∀ sig ∈ Cover.operands c,
    ∀ b ∈ sig, ∀ v i, D.sigmap b = .wire v i → (∃ c ∈ D.cells, c.Y = v.all) → rank v < rank w

/-! ## The values of the variables -/

/-- The bits of the wires in a cycle. -/
def nets (ρ : Var → Nat) (cycle : Nat) : Valuation := fun w i => (ρ (cycle, zname w.name)).testBit i

/-- The same, with each bit taken from its net. -/
def view (ρ : Var → Nat) (cycle : Nat) : Valuation := fun w i =>
  (D.sigmap (.wire w i)).value (nets ρ cycle)

/-- A variable of a wire has the width of the wire. -/
def Sized (vars : Var → Option Nat) : Prop :=
  ∀ w ∈ D.wires, ∀ cycle n, vars (cycle, zname w.name) = some n → n = w.width

variable {zeroSort D}

theorem view_value (h : ∀ s, D.sigmap (.const s) = .const s) (ρ : Var → Nat) (cycle : Nat)
    (sig : SigSpec) : value (view D ρ cycle) sig = value (nets ρ cycle) (sig.map D.sigmap) := by
  unfold value
  congr 1
  rw [List.map_map]
  apply List.map_congr_left
  intro b _
  cases b with
  | wire w i => rfl
  | const s =>
    show _ = (D.sigmap (.const s)).value _
    rw [h]
    rfl

/-- The value of a slice of a wire whose bits are those of a number. -/
theorem value_slice {σ : Valuation} {w : Wire} {offset width x : Nat}
    (h : ∀ i < width, σ w (offset + i) = x.testBit (offset + i)) :
    value σ (Chunk.wire w offset width).bits = x / 2 ^ offset % 2 ^ width := by
  symm
  apply eq_value
  · rw [length_bits]
    exact Nat.mod_lt _ (Nat.two_pow_pos width)
  · intro i b hb
    obtain ⟨hi, rfl⟩ := getElem?_bits hb
    rw [Nat.testBit_mod_two_pow, decide_eq_true hi, Bool.true_and, Nat.testBit_div_two_pow]
    show x.testBit (i + offset) = σ w (offset + i)
    rw [h i hi, Nat.add_comm]

theorem value_all {σ : Valuation} {w : Wire} {x : Nat} (h : ∀ i < w.width, σ w i = x.testBit i) :
    value σ w.all = x % 2 ^ w.width := by
  unfold Wire.all
  rw [value_slice (x := x), pow_zero, Nat.div_one]
  intro i hi
  rw [Nat.zero_add]
  exact h i hi

theorem testBit_value_all {σ : Valuation} {w : Wire} {i : Nat} (hi : i < w.width) :
    (value σ w.all).testBit i = σ w i := by
  rw [testBit_value]
  unfold Wire.all Chunk.bits
  rw [List.getElem?_map, List.getElem?_range' hi]
  simp [SigBit.value]

/-! ## The variables -/

theorem Sized.set (hnames : D.Named)
    {vars : Var → Option Nat} (h : Sized D vars) {w : Wire} (hw : w ∈ D.wires) (cycle : Nat) :
    Sized D (Function.update vars (cycle, zname w.name) (some w.width)) := by
  intro v hv cycle' n hn
  by_cases hx : (cycle', zname v.name) = (cycle, zname w.name)
  · rw [hx, Function.update_self] at hn
    rw [hnames v hv w hw (congrArg Prod.snd hx)]
    exact (Option.some.inj hn).symm
  · rw [Function.update_of_ne hx] at hn
    exact h v hv cycle' n hn

/-- The variable of a wire. -/
theorem getVar_adds (hnames : D.Named)
    {w : Wire} (hw : w ∈ D.wires) (hpos : 0 < w.width) (cycle : Nat) :
    Build.Adds (Sized D) (Build.getVar zeroSort (cycle, zname w.name) w.width)
      (· = .var (cycle, zname w.name) w.width) fun _ => True := by
  intro s hs
  unfold Build.getVar
  cases hvar : s.vars (cycle, zname w.name) with
  | some n =>
    rw [← hs w hw cycle n hvar]
    exact ⟨_, s, rfl, rfl, hs, fun _ hp => hp, fun _ => (and_iff_left trivial).symm⟩
  | none =>
    dsimp only
    rw [if_neg fun h => by omega]
    exact ⟨_, _, rfl, rfl, hs.set hnames hw cycle, fun _ hp => hp, fun _ => (and_iff_left trivial).symm⟩

theorem getVar_does (hnames : D.Named)
    {w : Wire} (hw : w ∈ D.wires) (hpos : 0 < w.width) (cycle : Nat) :
    Build.Does (Sized D) (Build.getVar zeroSort (cycle, zname w.name) w.width)
      (· = .var (cycle, zname w.name) w.width) fun _ => True := (getVar_adds hnames hw hpos cycle).does

/-! ## Signals -/

/-- A term that is the value of a signal in a cycle. -/
structure Stands (cycle : Nat) (sig : SigSpec) (t : Term Var) : Prop where
  width : t.width = sig.length
  eval : ∀ ρ, t.eval ρ = value (nets ρ cycle) sig

/-- A chunk of a signal that is rendered. -/
structure ChunkOk (D : Design) (c : Chunk) : Prop where
  valid : c.Valid
  wire : ∀ w offset width, c = .wire w offset width → w ∈ D.wires
  short : ∀ data, c = .const data → data.length ≤ 64

theorem chunkTerm_adds (hnames : D.Named) {c : Chunk} (hc : ChunkOk D c) (cycle : Nat) :
    Build.Adds (Sized D) (chunkTerm zeroSort cycle c) (Stands cycle c.bits) fun _ => True := by
  cases c with
  | wire w offset width =>
    have hle := hc.valid.le
    have hw := hc.wire w offset width rfl
    have hbits : ∀ ρ, value (nets ρ cycle) (Chunk.wire w offset width).bits =
        ρ (cycle, zname w.name) / 2 ^ offset % 2 ^ width := fun ρ => value_slice fun _ _ => rfl
    apply (getVar_adds hnames hw (by omega) cycle).then
    intro base hbase
    subst hbase
    split_ifs with hwhole
    · apply Build.Adds.pure
      constructor
      · rw [length_bits]
        exact hwhole.2.symm
      · intro ρ
        rw [hbits, hwhole.1, hwhole.2, pow_zero, Nat.div_one]
        rfl
    · have hrange : offset ≤ offset + width - 1 ∧ offset + width - 1 < w.width := by omega
      have hsize : offset + width - 1 - offset + 1 = width := by omega
      apply Build.Adds.lift (if_pos hrange)
      constructor
      · rw [length_bits]
        exact hsize
      · intro ρ
        rw [hbits, Term.eval, Term.eval, hsize]
        -- the bits above the wire are not in the slice
        apply Nat.eq_of_testBit_eq
        intro i
        rw [Nat.testBit_mod_two_pow, Nat.testBit_mod_two_pow, Nat.testBit_div_two_pow,
          Nat.testBit_div_two_pow, Nat.testBit_mod_two_pow]
        by_cases hi : i < width
        · have hin : i + offset < w.width := by omega
          simp [hi, hin]
        · simp [hi]
  | const data =>
    have hpos : 0 < data.length := hc.valid.1
    have hshort := hc.short data rfl
    apply (Build.Adds.bvVal _ (.inr hpos)).mono
    · intro t ht
      subst ht
      constructor
      · rw [length_bits]
        rfl
      · intro ρ
        have hval : resetValue data = value (nets ρ cycle) (Chunk.const data).bits := by
          rw [value, Chunk.bits, List.map_map]
          rfl
        have hlt := value_lt (nets ρ cycle) (Chunk.const data).bits
        rw [length_bits] at hlt
        have hlt64 : resetValue data < 2 ^ 64 := by
          rw [hval]
          exact hlt.trans_le (Nat.pow_le_pow_right (by decide) hshort)
        rw [Term.eval, bits64, Nat.mod_eq_of_lt hlt64, hval]
        exact Nat.mod_eq_of_lt hlt
    · exact fun _ => Iff.rfl

theorem Stands.concat {cycle : Nat} {lo hi : SigSpec} {a b : Term Var} (ha : Stands cycle hi a)
    (hb : Stands cycle lo b) : Stands cycle (lo ++ hi) (.concat a b) where
  width := by
    rw [Term.width, ha.width, hb.width, List.length_append, Nat.add_comm]
  eval ρ := by
    rw [Term.eval, ha.eval, hb.eval, hb.width, value_append]

theorem concatTerm_adds (hnames : D.Named) (cycle : Nat) {cs : List Chunk}
    (hcs : ∀ c ∈ cs, ChunkOk D c) {sig : SigSpec} {t : Term Var} (ht : Stands cycle sig t) :
    Build.Adds (Sized D) (concatTerm zeroSort cycle t cs)
      (Stands cycle (sig ++ cs.flatMap Chunk.bits)) fun _ => True := by
  induction cs generalizing sig t with
  | nil =>
    apply Build.Adds.pure
    rw [List.flatMap_nil, List.append_nil]
    exact ht
  | cons c cs ih =>
    apply (chunkTerm_adds hnames (hcs c List.mem_cons_self) cycle).then
    intro part hpart
    rw [List.flatMap_cons, ← List.append_assoc]
    exact ih (fun d hd => hcs d (List.mem_cons_of_mem c hd)) (hpart.concat ht)

/-- A signal whose bits are constants and bits of the wires of the module. -/
structure Spelled (zeroSort : Bool) (D : Design) (sig : SigSpec) : Prop where
  bits : ∀ b ∈ sig, ∀ w i, D.sigmap b = .wire w i → w ∈ D.wires ∧ i < w.width
  short : ∀ data, .const data ∈ chunks (sig.map D.sigmap) → data.length ≤ 64
  single : zeroSort = true ∨ (chunks (sig.map D.sigmap)).length ≤ 1

theorem Rendered.spelled {sig : SigSpec} (h : Rendered zeroSort D sig) : Spelled zeroSort D sig where
  bits b hb w i hnet := by
    have hsource := h.bits b hb
    rw [hnet] at hsource
    exact ⟨hsource.1, hsource.2.1⟩
  short := h.short
  single := h.single

theorem Spelled.chunkOk {sig : SigSpec} (h : Spelled zeroSort D sig) :
    ∀ c ∈ chunks (sig.map D.sigmap), ChunkOk D c := by
  have hsource : ∀ w i, .wire w i ∈ sig.map D.sigmap → w ∈ D.wires ∧ i < w.width := by
    intro w i hmem
    obtain ⟨b, hb, hnet⟩ := List.mem_map.mp hmem
    exact h.bits b hb w i hnet
  have hvalid : ∀ b ∈ sig.map D.sigmap, b.Valid := by
    intro b hb
    cases b with
    | wire w i => exact (hsource w i hb).2
    | const s => trivial
  intro c hc
  constructor
  · exact chunks_valid hvalid c hc
  · intro w offset width hwire
    subst hwire
    have hpos := (chunks_valid hvalid _ hc).le.1
    have hbit : .wire w offset ∈ (Chunk.wire w offset width).bits :=
      List.mem_map_of_mem (List.mem_range'_1.mpr ⟨le_rfl, by omega⟩)
    have hmem : .wire w offset ∈ sig.map D.sigmap := by
      rw [← bits_chunks (sig.map D.sigmap)]
      exact List.mem_flatMap.mpr ⟨_, hc, hbit⟩
    exact (hsource _ _ hmem).1
  · intro data hdata
    subst hdata
    exact h.short data hc

/-- `sig_to_z3` is the value of the signal on its nets. -/
theorem sigToZ3_adds (hnames : D.Named) {sig : SigSpec} (h : Spelled zeroSort D sig) (hne : sig ≠ [])
    (cycle : Nat) : Build.Adds (Sized D) (sigToZ3 zeroSort D sig cycle) (Stands cycle (sig.map D.sigmap))
      fun _ => True := by
  have hok := h.chunkOk
  have hbits := bits_chunks (sig.map D.sigmap)
  have hsingle := h.single
  unfold sigToZ3
  dsimp only
  cases hchunks : chunks (sig.map D.sigmap) with
  | nil =>
    rw [hchunks] at hbits
    exact absurd (List.map_eq_nil_iff.mp hbits.symm) hne
  | cons c cs =>
    rw [hchunks] at hok hbits hsingle
    cases cs with
    | nil =>
      have hone : c.bits = sig.map D.sigmap := by
        rw [← hbits, List.flatMap_cons, List.flatMap_nil, List.append_nil]
      rw [← hone]
      show Build.Adds _ (chunkTerm zeroSort cycle c) _ _
      exact chunkTerm_adds hnames (hok c List.mem_cons_self) cycle
    | cons c' cs =>
      have hzero : zeroSort = true := by
        apply hsingle.resolve_right
        simp
      apply (Build.Adds.bvVal 0 (.inl hzero)).then
      intro _ _
      apply (chunkTerm_adds hnames (hok c List.mem_cons_self) cycle).then
      intro part hpart
      rw [← hbits, List.flatMap_cons]
      exact concatTerm_adds hnames cycle (fun d hd => hok d (List.mem_cons_of_mem c hd)) hpart

theorem sigToZ3_does (hnames : D.Named) {sig : SigSpec} (h : Rendered zeroSort D sig) (cycle : Nat) :
    Build.Does (Sized D) (sigToZ3 zeroSort D sig cycle) (Stands cycle (sig.map D.sigmap))
      fun _ => True := (sigToZ3_adds hnames h.spelled h.nonempty cycle).does

/-! ## Cells -/

theorem operandTerms_does (hnames : D.Named) (cycle : Nat) {sigs : List SigSpec}
    (h : ∀ sig ∈ sigs, Rendered zeroSort D sig) :
    Build.Does (Sized D) (operandTerms zeroSort D cycle sigs)
      (List.Forall₂ (fun sig t => Stands cycle (sig.map D.sigmap) t) sigs) fun _ => True := by
  induction sigs with
  | nil => exact Build.Does.pure .nil
  | cons sig sigs ih =>
    apply (sigToZ3_does hnames (h sig List.mem_cons_self) cycle).then
    intro t ht
    apply (ih fun sig' hsig' => h sig' (List.mem_cons_of_mem sig hsig')).then
    intro ts hts
    exact Build.Does.pure (.cons ht hts)

/-- The output of a cell is what the cell computes from operands with the values of the view. -/
def CellHolds (D : Design) (ρ : Var → Nat) (cycle : Nat) (c : Cell) : Prop :=
  ∀ σ, (∀ sig ∈ operands c, value (view D ρ cycle) sig = value σ sig) →
    value (nets ρ cycle) c.Y = out σ c

theorem var_eval (ρ : Var → Nat) (cycle : Nat) (w : Wire) :
    (Term.var (cycle, zname w.name) w.width).eval ρ = value (nets ρ cycle) w.all :=
  (value_all fun _ _ => rfl).symm

/-- Each operand has the size of its signal, and the value that the signal has in the view. -/
theorem operands_stand (h : ∀ s, D.sigmap (.const s) = .const s) {cycle : Nat} {sigs : List SigSpec}
    {ts : List (Term Var)} (hts : List.Forall₂ (fun sig t => Stands cycle (sig.map D.sigmap) t) sigs ts) :
    ts.map Term.width = sigs.map List.length ∧
      ∀ ρ, ts.map (Term.eval ρ) = sigs.map (value (view D ρ cycle)) := by
  induction hts with
  | nil => exact ⟨rfl, fun _ => rfl⟩
  | cons hstands _ ih =>
    constructor
    · rw [List.map_cons, List.map_cons, hstands.width, List.length_map, ih.1]
    · intro ρ
      rw [List.map_cons, List.map_cons, hstands.eval, view_value h, ih.2]

theorem constrain_does (h : Plain zeroSort D) {c : Cell} (hc : c ∈ D.cells) {w : Wire}
    (hY : c.Y = w.all) (cycle : Nat) :
    Build.Does (Sized D) (constrain zeroSort D (.var (cycle, zname w.name) w.width) c cycle)
      (fun _ => True) fun ρ => CellHolds D ρ cycle c := by
  apply (operandTerms_does h.names cycle (h.operands c hc)).then
  intro ts hts
  obtain ⟨hwidths, hview⟩ := operands_stand h.sigmap_const hts
  obtain ⟨t, hcombine, hwidth, heval⟩ := h.exact c hc ts hwidths
  apply (Build.Does.lift (Q := (· = t)) hcombine rfl).then
  intro t' ht'
  subst ht'
  have hsize : (Term.var (cycle, zname w.name) w.width).width = t'.width := by
    rw [hwidth, hY, length_all]
    rfl
  apply (Build.Does.assertEq hsize).mono fun _ h => h
  intro ρ hρ σ hσ
  rw [hY, ← var_eval, hρ]
  apply heval
  rw [hview]
  exact List.map_congr_left hσ

theorem buildCell_does (h : Plain zeroSort D) {c : Cell} (hc : c ∈ D.cells) (cycle : Nat) :
    Build.Does (Sized D) (buildCell zeroSort D cycle c) (fun _ => True)
      fun ρ => CellHolds D ρ cycle c := by
  obtain ⟨w, hw, hY, hpos, -⟩ := h.cells c hc
  unfold buildCell
  rw [hY, chunks_all hpos]
  dsimp only
  rw [length_all]
  apply (getVar_does h.names hw hpos cycle).then
  intro y hy
  subst hy
  exact (constrain_does h hc hY cycle).attempt

/-! ## Registers -/

/-- What is kept of a register whose output is a wire. -/
def regOf (w : Wire) (f : Flop) : RegInfo where
  name := zname w.name
  width := w.width
  arstVal := (f.arst.map fun r => bits64 r.2).getD 0
  d := f.d
  en := f.en

/-- A register that loads, with the values of the view. -/
def RegHolds (D : Design) (ρ : Var → Nat) (cycle : Nat) (f : Flop) : Prop :=
  ∀ σ, value (view D ρ cycle) f.d = value σ f.d →
    (∀ en ∈ f.en, en.bit.value (view D ρ cycle) = en.bit.value σ) →
    value (nets ρ cycle) f.q = value σ f.q → value (nets ρ (cycle + 1)) f.q = f.load σ

theorem all_injective {v w : Wire} (hv : 0 < v.width) (h : v.all = w.all) : v = w := by
  have hmem : .wire v 0 ∈ v.all := List.mem_map_of_mem (List.mem_range'_1.mpr ⟨le_rfl, by omega⟩)
  rw [h] at hmem
  obtain ⟨_, _, heq⟩ := List.mem_map.mp hmem
  exact (SigBit.wire.inj heq).1.symm

/-- No register is renamed, since no two have one output. -/
theorem mem_regInfos (hnames : D.Named) {fs : List Flop}
    (hq : ∀ f ∈ fs, ∃ w ∈ D.wires, f.q = w.all ∧ 0 < w.width ∧ D.input w = false)
    (hnodup : (fs.map Flop.q).Nodup) {used : List String}
    (hused : ∀ f ∈ fs, ∀ w ∈ D.wires, f.q = w.all → zname w.name ∉ used) (r : RegInfo) :
    r ∈ regInfos used fs ↔ ∃ f ∈ fs, ∃ w ∈ D.wires, f.q = w.all ∧ r = regOf w f := by
  induction fs generalizing used with
  | nil => simp [regInfos]
  | cons f fs ih =>
    obtain ⟨w, hw, hfq, hpos, -⟩ := hq f List.mem_cons_self
    have hfree := hused f List.mem_cons_self w hw hfq
    rw [List.map_cons, List.nodup_cons] at hnodup
    have hused' : ∀ g ∈ fs, ∀ v ∈ D.wires, g.q = v.all → zname v.name ∉ zname w.name :: used := by
      intro g hg v hv hgq hmem
      rcases List.mem_cons.mp hmem with hname | hmem
      · -- two registers with one output
        have hvw := hnames v hv w hw hname
        apply hnodup.1
        rw [hfq, ← hvw, ← hgq]
        exact List.mem_map_of_mem hg
      · exact hused g (List.mem_cons_of_mem f hg) v hv hgq hmem
    have hrest := ih (fun g hg => hq g (List.mem_cons_of_mem f hg)) hnodup.2 hused'
    have hfirst : (⟨zname w.name, f.q.length, (f.arst.map fun r => bits64 r.2).getD 0, f.d, f.en⟩ :
        RegInfo) = regOf w f := by
      rw [hfq, length_all]
      rfl
    unfold regInfos
    rw [show chunks f.q = [.wire w 0 w.width] by rw [hfq, chunks_all hpos]]
    dsimp only
    rw [if_neg hfree, List.mem_cons, hrest, hfirst]
    constructor
    · intro hr
      rcases hr with hr | ⟨g, hg, v, hv, hgq, hr⟩
      · exact ⟨f, List.mem_cons_self, w, hw, hfq, hr⟩
      · exact ⟨g, List.mem_cons_of_mem f hg, v, hv, hgq, hr⟩
    · intro ⟨g, hg, v, hv, hgq, hr⟩
      rcases List.mem_cons.mp hg with rfl | hg
      · left
        rw [hr, all_injective hpos (hfq.symm.trans hgq)]
      · exact .inr ⟨g, hg, v, hv, hgq, hr⟩

theorem mem_regs (h : Plain zeroSort D) (r : RegInfo) :
    r ∈ D.regs ↔ ∃ f ∈ D.flops, ∃ w ∈ D.wires, f.q = w.all ∧ r = regOf w f :=
  mem_regInfos h.names h.flops h.distinct (fun _ _ _ _ _ => List.not_mem_nil) r

/-- The wire of a register. -/
theorem reg_pos (h : Plain zeroSort D) {f : Flop} (hf : f ∈ D.flops) {w : Wire} (hq : f.q = w.all) :
    0 < w.width := by
  obtain ⟨v, _, hv, hpos, -⟩ := h.flops f hf
  rw [← all_injective hpos (hv.symm.trans hq)]
  exact hpos

theorem initReg_does (h : Plain zeroSort D) {f : Flop} (hf : f ∈ D.flops) {w : Wire}
    (hw : w ∈ D.wires) (hq : f.q = w.all) :
    Build.Does (Sized D) (initReg zeroSort (regOf w f)) (fun _ => True)
      fun ρ => value (nets ρ 0) w.all = f.resetState % 2 ^ w.width := by
  have hpos := reg_pos h hf hq
  apply (getVar_does h.names hw hpos 0).then
  intro r0 hr0
  subst hr0
  apply (Build.Does.bvVal _ (.inr hpos)).then
  intro v hv
  subst hv
  apply (Build.Does.assertEq (l := .var (0, zname w.name) w.width) (r := .val _ w.width) rfl).mono
    fun _ h => h
  intro ρ hρ
  rw [← var_eval, hρ, h.start f hf]
  rfl

theorem norm_self (t : Term Var) : norm t t.width = some t := by
  unfold norm
  rw [if_neg (lt_irrefl _), if_neg (lt_irrefl _)]

/-- A bit that is compared with one. -/
theorem eval_bit {cycle : Nat} {b : SigBit} {e : Term Var} (he : Stands cycle [b] e) (ρ : Var → Nat)
    (x y : Term Var) : (Term.ite .eq e (.val 1 e.width) x y).eval ρ =
      if b.value (nets ρ cycle) then x.eval ρ else y.eval ρ := by
  have hwidth : e.width = 1 := he.width
  have hval : e.eval ρ = (b.value (nets ρ cycle)).toNat := by
    rw [he.eval]
    simp [value, ofBits]
  rw [Term.eval, Term.eval, hwidth, hval]
  cases b.value (nets ρ cycle) with
  | true => rfl
  | false => rfl

theorem view_bit (h : ∀ s, D.sigmap (.const s) = .const s) (ρ : Var → Nat) (cycle : Nat) (b : SigBit) :
    b.value (view D ρ cycle) = (D.sigmap b).value (nets ρ cycle) := by
  cases b with
  | wire w i => rfl
  | const s =>
    rw [h]
    rfl

theorem updateReg_does (h : Plain zeroSort D) {f : Flop} (hf : f ∈ D.flops) {w : Wire}
    (hw : w ∈ D.wires) (hq : f.q = w.all) (cycle : Nat) :
    Build.Does (Sized D) (updateReg zeroSort D cycle (regOf w f)) (fun _ => True)
      fun ρ => RegHolds D ρ cycle f := by
  have hpos := reg_pos h hf hq
  obtain ⟨hd, hen⟩ := h.reads f hf
  apply (getVar_does h.names hw hpos (cycle + 1)).then
  intro next hnext
  subst hnext
  apply (sigToZ3_does h.names hd cycle).then
  intro d hstands
  apply (getVar_does h.names hw hpos cycle).then
  intro curr hcurr
  subst hcurr
  have hwidth : d.width = w.width := by
    rw [hstands.width, List.length_map, f.d_size, hq, length_all]
  have hload : ∀ ρ, d.eval ρ = value (view D ρ cycle) f.d := by
    intro ρ
    rw [hstands.eval, view_value h.sigmap_const]
  have hnorm : norm d w.width = some d := by
    rw [← hwidth]
    exact norm_self d
  apply (Build.Does.lift (a := d) (Q := (· = d)) hnorm rfl).then
  intro d' hd'
  subst hd'
  have hreg : (regOf w f).en = f.en := rfl
  rw [hreg]
  cases hfen : f.en with
  | none =>
    dsimp only
    apply (Build.Does.assertEq (l := .var (cycle + 1, zname w.name) w.width) hwidth.symm).mono
      fun _ h => h
    intro ρ hρ σ hσ _ _
    rw [hq, ← var_eval, hρ, hload, hσ, Flop.load, hfen]
    rfl
  | some en =>
    dsimp only
    apply (sigToZ3_does h.names (hen en hfen) cycle).then
    intro e he
    have he' : Stands cycle [D.sigmap en.bit] e := he
    have hone : e.width = (Term.val 1 e.width : Term Var).width := rfl
    -- the two forms of the update
    have hcase : ∃ t, (if en.polarity = true
        then Term.mkIte .eq e (.val 1 e.width) d' (.var (cycle, zname w.name) w.width)
        else Term.mkIte .eq e (.val 1 e.width) (.var (cycle, zname w.name) w.width) d') = some t ∧
        t.width = w.width ∧ ∀ ρ, t.eval ρ =
          if en.active (view D ρ cycle) then value (view D ρ cycle) f.d
          else value (nets ρ cycle) w.all := by
      cases hpol : en.polarity with
      | true =>
        refine ⟨_, (if_pos rfl).trans (if_pos ⟨hone, hwidth⟩), hwidth, fun ρ => ?_⟩
        rw [eval_bit he', hload, var_eval, Control.active, view_bit h.sigmap_const, hpol]
        cases (D.sigmap en.bit).value (nets ρ cycle) with
        | true => rfl
        | false => rfl
      | false =>
        refine ⟨_, (if_neg Bool.false_ne_true).trans (if_pos ⟨hone, hwidth.symm⟩), rfl, fun ρ => ?_⟩
        rw [eval_bit he', hload, var_eval, Control.active, view_bit h.sigmap_const, hpol]
        cases (D.sigmap en.bit).value (nets ρ cycle) with
        | true => rfl
        | false => rfl
    obtain ⟨t, hsome, htwidth, heval⟩ := hcase
    apply (Build.Does.lift (Q := (· = t)) hsome rfl).then
    intro t' ht'
    subst ht'
    apply (Build.Does.assertEq (l := .var (cycle + 1, zname w.name) w.width) htwidth.symm).mono
      fun _ h => h
    intro ρ hρ σ hσ hbit hcurr
    have hactive : en.active (view D ρ cycle) = en.active σ := by
      unfold Control.active
      rw [hbit en hfen]
    rw [hq] at hcurr ⊢
    rw [← var_eval, hρ, heval, hactive, hσ, hcurr, Flop.load, hfen, Option.all_some, hq]

/-! ## The query -/

/-- What the assertions say. -/
structure Unrolled (D : Design) (depth : Nat) (ρ : Var → Nat) : Prop where
  start : ∀ f ∈ D.flops, value (nets ρ 0) f.q = f.resetState % 2 ^ f.q.length
  reset : ∀ w, D.resetWire = some w → value (nets ρ 0) w.all = 0 ∧
    ∀ n ∈ List.range' 1 depth, value (nets ρ n) w.all = 1
  cycles : ∀ n ∈ List.range depth, (∀ c ∈ D.cells, CellHolds D ρ n c) ∧
    ∀ f ∈ D.flops, RegHolds D ρ n f

theorem resetWire_mem {w : Wire} (h : D.resetWire = some w) : w ∈ D.wires :=
  List.mem_of_find?_eq_some h

theorem assertInput_does (hnames : D.Named) {w : Wire} (hw : w ∈ D.wires) (hpos : 0 < w.width)
    (v cycle : Nat) (hv : v ≤ 1) :
    Build.Does (Sized D) (assertInput zeroSort w v cycle) (fun _ => True)
      fun ρ => value (nets ρ cycle) w.all = v := by
  apply (getVar_does hnames hw hpos cycle).then
  intro x hx
  subst hx
  apply (Build.Does.bvVal _ (.inr hpos)).then
  intro t ht
  subst ht
  apply (Build.Does.assertEq (l := .var (cycle, zname w.name) w.width) (r := .val v w.width) rfl).mono
    fun _ h => h
  intro ρ hρ
  have hlt : v < 2 ^ w.width := by
    have htwo := Nat.pow_le_pow_right (show 0 < 2 by decide) (show 1 ≤ w.width from hpos)
    omega
  rw [← var_eval, hρ]
  exact Nat.mod_eq_of_lt hlt

theorem assertReset_does (h : Plain zeroSort D) (depth : Nat) :
    Build.Does (Sized D) (assertReset zeroSort D depth) (fun _ => True)
      fun ρ => ∀ w, D.resetWire = some w → value (nets ρ 0) w.all = 0 ∧
        ∀ n ∈ List.range' 1 depth, value (nets ρ n) w.all = 1 := by
  unfold assertReset
  cases hreset : D.resetWire with
  | none =>
    apply (Build.Does.pure trivial).mono fun _ h => h
    exact fun _ _ w hw => nomatch hw
  | some w =>
    have hw := resetWire_mem hreset
    have hpos := h.inputs w hreset
    have hlow := @assertInput_does zeroSort D h.names w hw hpos 0 0 (by decide)
    have hhigh := Build.Does.forM (l := List.range' 1 depth) fun n _ =>
      @assertInput_does zeroSort D h.names w hw hpos 1 n le_rfl
    apply (hlow.bind fun _ _ => hhigh).mono fun _ h => h
    intro ρ hρ v hv
    cases hv
    exact hρ

theorem regOf_unique (h : Plain zeroSort D) {f f' : Flop} (hf : f ∈ D.flops) (hf' : f' ∈ D.flops)
    {w w' : Wire} (hw : w ∈ D.wires) (hw' : w' ∈ D.wires) (hq : f.q = w.all) (hq' : f'.q = w'.all)
    (heq : regOf w f = regOf w' f') : f = f' ∧ w = w' := by
  have hww := h.names w hw w' hw' (congrArg RegInfo.name heq)
  subst hww
  exact ⟨List.inj_on_of_nodup_map h.distinct hf hf' (hq.trans hq'.symm), rfl⟩

/-- A loop over the registers, with what it asserts of each. -/
theorem regs_does (h : Plain zeroSort D) {body : RegInfo → Build Var PUnit}
    {A : Flop → Wire → (Var → Nat) → Prop} (hbody : ∀ f ∈ D.flops, ∀ w ∈ D.wires, f.q = w.all →
      Build.Does (Sized D) (body (regOf w f)) (fun _ => True) (A f w)) :
    Build.Does (Sized D) (D.regs.forM body) (fun _ => True)
      fun ρ => ∀ f ∈ D.flops, ∀ w ∈ D.wires, f.q = w.all → A f w ρ := by
  have hstep : ∀ r ∈ D.regs, Build.Does (Sized D) (body r) (fun _ => True)
      fun ρ => ∀ f ∈ D.flops, ∀ w ∈ D.wires, f.q = w.all → r = regOf w f → A f w ρ := by
    intro r hr
    obtain ⟨f, hf, w, hw, hq, rfl⟩ := (mem_regs h r).mp hr
    apply (hbody f hf w hw hq).mono fun _ h => h
    intro ρ hρ f' hf' w' hw' hq' heq
    obtain ⟨rfl, rfl⟩ := regOf_unique h hf hf' hw hw' hq hq' heq
    exact hρ
  apply (Build.Does.forM hstep).mono fun _ h => h
  intro ρ hρ f hf w hw hq
  exact hρ (regOf w f) ((mem_regs h _).mpr ⟨f, hf, w, hw, hq, rfl⟩) f hf w hw hq rfl

theorem unroll_does (h : Plain zeroSort D) (depth : Nat) :
    Build.Does (Sized D) (unroll zeroSort D depth) (fun _ => True) (Unrolled D depth) := by
  have hinit := regs_does h fun f hf w hw hq => initReg_does h hf hw hq
  have hcycle (n : Nat) (_ : n ∈ List.range depth) := by
    have hcells := Build.Does.forM (l := D.cells) fun c hc => buildCell_does h hc n
    have hregs := regs_does h fun f hf w hw hq => updateReg_does h hf hw hq n
    exact hcells.bind fun _ _ => hregs
  have hcycles := Build.Does.forM hcycle
  have hall := hinit.bind fun _ _ => (assertReset_does h depth).bind fun _ _ => hcycles
  apply hall.mono fun _ h => h
  intro ρ hρ
  obtain ⟨hstart, hreset, hrest⟩ := hρ
  constructor
  · intro f hf
    obtain ⟨w, hw, hq, _⟩ := h.flops f hf
    rw [hq, length_all]
    exact hstart f hf w hw hq
  · exact hreset
  · intro n hn
    obtain ⟨hcells, hregs⟩ := hrest n hn
    refine ⟨hcells, fun f hf => ?_⟩
    obtain ⟨w, hw, hq, _⟩ := h.flops f hf
    exact hregs f hf w hw hq

/-! ## A simulation -/

/-- The variables of a wire are its bits in a cycle of a run. -/
def Agrees (ρ : Var → Nat) (run : Nat → Valuation) (n : Nat) (w : Wire) : Prop :=
  ∀ i < w.width, nets ρ n w i = run n w i

theorem agrees_of_value {ρ : Var → Nat} {run : Nat → Valuation} {n : Nat} {w : Wire}
    (h : value (nets ρ n) w.all = value (run n) w.all) : Agrees ρ run n w := by
  intro i hi
  rw [← testBit_value_all (σ := nets ρ n) hi, h, testBit_value_all hi]

theorem Agrees.value {ρ : Var → Nat} {run : Nat → Valuation} {n : Nat} {w : Wire}
    (h : Agrees ρ run n w) : value (nets ρ n) w.all = value (run n) w.all := by
  unfold Rtlil.value
  congr 1
  apply List.map_congr_left
  intro b hb
  obtain ⟨i, hi, rfl⟩ := List.mem_map.mp hb
  have hlt := (List.mem_range'_1.mp hi).2
  exact h i (by omega)

variable {ρ : Var → Nat} {run : Nat → Valuation}

/-- Signals have their values when the wires that they are taken from have theirs. -/
theorem view_agrees (h : Plain zeroSort D) (hrun : Simulates D run) {n : Nat} {sig : SigSpec}
    (hsig : ∀ b ∈ sig, ∀ w i, D.sigmap b = .wire w i → i < w.width ∧ Agrees ρ run n w) :
    value (view D ρ n) sig = value (run n) sig := by
  unfold value
  congr 1
  apply List.map_congr_left
  intro b hb
  rw [view_bit h.sigmap_const, ← hrun.joined]
  cases hnet : D.sigmap b with
  | wire w i =>
    obtain ⟨hi, hagree⟩ := hsig b hb w i hnet
    exact hagree i hi
  | const s => rfl

/-- The reset is low in cycle 0 and high afterwards. -/
def ResetRun (D : Design) (run : Nat → Valuation) : Prop := ∀ w, D.resetWire = some w →
  value (run 0) w.all = 0 ∧ ∀ n > 0, value (run n) w.all = 1

/-- What agrees in a cycle before the cells are evaluated. -/
structure Sources (D : Design) (ρ : Var → Nat) (run : Nat → Valuation) (n : Nat) : Prop where
  flops : ∀ f ∈ D.flops, ∀ w, f.q = w.all → Agrees ρ run n w
  inputs : ∀ w ∈ D.wires, D.printed w = true → Agrees ρ run n w
  reset : ∀ w, D.resetWire = some w → Agrees ρ run n w

theorem cells_agree (h : Plain zeroSort D) (hrun : Simulates D run) {n : Nat}
    (hcells : ∀ c ∈ D.cells, CellHolds D ρ n c) (hsources : Sources D ρ run n) :
    ∀ w ∈ D.wires, D.Driven w → Agrees ρ run n w := by
  obtain ⟨rank, hrank⟩ := h.acyclic
  intro w
  induction hk : rank w using Nat.strong_induction_on generalizing w with
  | h k ih =>
    intro hw hdriven
    rcases hdriven with ⟨f, hf, hq⟩ | ⟨c, hc, hY⟩ | hprinted | hreset
    · exact hsources.flops f hf w hq
    · apply agrees_of_value
      rw [← hY, hrun.cells n c hc]
      apply hcells c hc
      intro sig hsig
      apply view_agrees h hrun
      intro b hb v i hnet
      have hbit := (h.operands c hc sig hsig).bits b hb
      rw [hnet] at hbit
      obtain ⟨hv, hi, hdriven⟩ := hbit
      refine ⟨hi, ?_⟩
      -- the wires that a cell drives stand below
      by_cases hcell : ∃ c ∈ D.cells, c.Y = v.all
      · have hlt := hrank c hc w hY sig hsig b hb v i hnet hcell
        exact ih (rank v) (hk ▸ hlt) v rfl hv hdriven
      · rcases hdriven with ⟨f, hf, hq⟩ | hany | hprinted | hreset
        · exact hsources.flops f hf v hq
        · exact absurd hany hcell
        · exact hsources.inputs v hv hprinted
        · exact hsources.reset v hreset
    · exact hsources.inputs w hw hprinted
    · exact hsources.reset w hreset

/-- Before cycle `n` the resets change nothing: a register whose reset is asserted would take the reset
    value anyway. -/
def Idle (D : Design) (run : Nat → Valuation) (n : Nat) : Prop :=
  ∀ k < n, ∀ f ∈ D.flops, f.next (run k) (run (k + 1)) = f.load (run k)

theorem sources_agree (h : Plain zeroSort D) (hrun : Simulates D run) (hreset : ResetRun D run)
    {depth : Nat} (hunrolled : Unrolled D depth ρ) {c : Nat} (hc : c ≤ depth) (hidle : Idle D run c)
    (hinputs : ∀ n ≤ c, ∀ w ∈ D.wires, D.printed w = true → Agrees ρ run n w) {n : Nat} (hn : n ≤ c) :
    Sources D ρ run n := by
  have hlevel : ∀ n ≤ c, ∀ w, D.resetWire = some w → Agrees ρ run n w := by
    intro n hn w hw
    apply agrees_of_value
    obtain ⟨hlow, hhigh⟩ := hunrolled.reset w hw
    obtain ⟨hlow', hhigh'⟩ := hreset w hw
    by_cases hzero : n = 0
    · rw [hzero, hlow, hlow']
    · rw [hhigh n (List.mem_range'_1.mpr (by omega)), hhigh' n (Nat.pos_of_ne_zero hzero)]
  refine ⟨?_, hinputs n hn, hlevel n hn⟩
  induction n with
  | zero =>
    intro f hf w hq
    apply agrees_of_value
    rw [← hq, hunrolled.start f hf, hrun.start f hf]
    apply Nat.mod_eq_of_lt
    rw [← hrun.start f hf]
    exact value_lt (run 0) f.q
  | succ n ih =>
    intro f hf w hq
    obtain ⟨hcells, hregs⟩ := hunrolled.cycles n (List.mem_range.mpr (by omega))
    have hsources : Sources D ρ run n := ⟨ih (by omega), hinputs n (by omega), hlevel n (by omega)⟩
    have hdriven := cells_agree h hrun hcells hsources
    obtain ⟨hd, hen⟩ := h.reads f hf
    -- the nets that are read
    have hread : ∀ sig, Rendered zeroSort D sig → value (view D ρ n) sig = value (run n) sig := by
      intro sig hsig
      apply view_agrees h hrun
      intro b hb v i hnet
      have hbit := hsig.bits b hb
      rw [hnet] at hbit
      exact ⟨hbit.2.1, hdriven v hbit.1 hbit.2.2⟩
    apply agrees_of_value
    rw [← hq, hrun.step n f hf, hidle n (by omega) f hf]
    apply hregs f hf
    · exact hread f.d hd
    · intro en hmem
      have hbit : (value (view D ρ n) [en.bit]).testBit 0 = (value (run n) [en.bit]).testBit 0 := by
        rw [hread [en.bit] (hen en hmem)]
      rw [testBit_value, testBit_value] at hbit
      exact hbit
    · rw [hq]
      exact (ih (by omega) f hf w hq).value

/-! ## The answer -/

/-- The variables of a target are made, and nothing is asserted. -/
theorem reachAny_does (hnames : D.Named) {w : Wire} (hw : w ∈ D.wires) (hpos : 0 < w.width) (val : Nat)
    (cycles : List Nat) (s : Solver Var) (hs : Sized D s.vars) :
    ∃ goal s', reachAny zeroSort (zname w.name) w.width val cycles s = (some goal, s') ∧
      Sized D s'.vars ∧ s'.asserts = s.asserts ∧ (∀ x, (s.vars x).isSome → (s'.vars x).isSome) ∧
      ∀ c ∈ cycles, (s'.vars (c, zname w.name)).isSome := by
  induction cycles generalizing s with
  | nil => exact ⟨[], s, rfl, hs, rfl, fun _ h => h, fun c hc => absurd hc List.not_mem_nil⟩
  | cons c cycles ih =>
    -- the variable of the cycle
    have hvar : ∃ s₁, Build.getVar zeroSort (c, zname w.name) w.width s =
        (some (.var (c, zname w.name) w.width), s₁) ∧ Sized D s₁.vars ∧ s₁.asserts = s.asserts ∧
        (∀ x, (s.vars x).isSome → (s₁.vars x).isSome) ∧ (s₁.vars (c, zname w.name)).isSome := by
      unfold Build.getVar
      cases hmade : s.vars (c, zname w.name) with
      | some n =>
        refine ⟨s, ?_, hs, rfl, fun _ h => h, by rw [hmade]; rfl⟩
        rw [← hs w hw c n hmade]
      | none =>
        dsimp only
        rw [if_neg fun h => by omega]
        refine ⟨_, rfl, hs.set hnames hw c, rfl, fun x hx => ?_, ?_⟩
        · show (Function.update s.vars _ _ x).isSome
          by_cases heq : x = (c, zname w.name)
          · rw [heq, Function.update_self]
            rfl
          · rwa [Function.update_of_ne heq]
        · show (Function.update s.vars _ _ _).isSome
          rw [Function.update_self]
          rfl
    obtain ⟨s₁, hstep, hsized, hasserts, hkept, hmade⟩ := hvar
    obtain ⟨goal, s₂, hrest, hsized', hasserts', hkept', hmade'⟩ := ih s₁ hsized
    have hval : Build.bvVal zeroSort val w.width s₁ = (some (.val val w.width), s₁) := by
      unfold Build.bvVal Build.lift
      rw [if_neg fun h => by omega]
    refine ⟨(.var (c, zname w.name) w.width, .val val w.width) :: goal, s₂, ?_, hsized',
      hasserts'.trans hasserts, fun x hx => hkept' x (hkept x hx), ?_⟩
    · unfold reachAny
      rw [Build.bind_some hstep, Build.bind_some hval, Build.bind_some hrest]
      rfl
    · intro c' hc'
      rcases List.mem_cons.mp hc' with rfl | hc'
      · exact hkept' _ hmade
      · exact hmade' c' hc'

theorem targetWidth_eq (h : Plain zeroSort D) {w : Wire} (hw : w ∈ D.wires) :
    D.targetWidth (zname w.name) = w.width := by
  unfold Design.targetWidth
  cases hreg : D.regs.find? (·.name = zname w.name) with
  | some r =>
    have hfound := List.find?_some hreg
    have hname := of_decide_eq_true hfound
    obtain ⟨f, _, v, hv, _, rfl⟩ := (mem_regs h r).mp (List.mem_of_find?_eq_some hreg)
    rw [← h.names v hv w hw hname]
    rfl
  | none =>
    dsimp only
    cases hwire : D.wires.reverse.find? fun v => zname v.name = zname w.name with
    | some v =>
      have hfound := List.find?_some hwire
      have hname := of_decide_eq_true hfound
      have hv := List.mem_reverse.mp (List.mem_of_find?_eq_some hwire)
      rw [← h.names v hv w hw hname]
      rfl
    | none =>
      have hnone := List.find?_eq_none.mp hwire w (List.mem_reverse.mpr hw)
      exact absurd (decide_eq_true rfl) hnone

theorem hit_spec {m : Var → Option Nat} {sig : String} {val c : Nat} {cycles : List Nat}
    (h : hit m sig val cycles = some c) : c ∈ cycles ∧ (m (c, sig)).getD 0 = val := by
  induction cycles with
  | nil => cases h
  | cons c' cycles ih =>
    unfold hit at h
    cases hgot : got m (c', sig) with
    | none =>
      rw [hgot] at h
      cases h
    | some v =>
      rw [hgot] at h
      simp only [Option.bind_eq_bind, Option.bind_some] at h
      split_ifs at h with hv
      · cases h
        subst hv
        refine ⟨List.mem_cons_self, ?_⟩
        unfold got at hgot
        cases hm : m (c, sig) with
        | none =>
          rw [hm] at hgot
          exact Option.some.inj hgot
        | some u =>
          rw [hm] at hgot
          dsimp only at hgot
          split_ifs at hgot
          exact Option.some.inj hgot
      · obtain ⟨hmem, hval⟩ := ih h
        exact ⟨List.mem_cons_of_mem c' hmem, hval⟩

/-- A register, or a wire that a cell drives, in a cycle for which cells are built. -/
def Target (D : Design) (depth : Nat) (w : Wire) (cycle : Nat) : Prop :=
  (∃ f ∈ D.flops, f.q = w.all) ∨ (∃ c ∈ D.cells, c.Y = w.all) ∧ cycle < depth

/-- A simulation with the inputs that are printed. -/
structure Follows (D : Design) (r : Reachable) (run : Nat → Valuation) : Prop where
  simulates : Simulates D run
  reset : ResetRun D run
  inputs : ∀ p ∈ r.inputs, ∀ w ∈ D.wires, D.printed w = true → zname w.name = p.2.1 →
    value (run p.1) w.all = p.2.2

/-- The model, with what it leaves open taken from a run, and 0 for the target. -/
def complete (D : Design) (m : Var → Option Nat) (run : Nat → Valuation) (sig : String) (x : Var) : Nat :=
  (m x).getD <| if x.2 = sig then 0
    else ((D.wires.find? fun w => zname w.name = x.2).map fun w => value (run x.1) w.all).getD 0

theorem exact_not {c : Cell} (htype : c.type = .not) (hsigned : c.aSigned = false)
    (hlength : c.A.length = c.Y.length) : Exact c := by
  intro ts hts
  have hops : operands c = [c.A] := by
    unfold operands
    rw [htype]
  rw [hops] at hts ⊢
  obtain ⟨a, rfl⟩ : ∃ a, ts = [a] := by
    apply List.length_eq_one_iff.mp
    have hlen := congrArg List.length hts
    rwa [List.length_map] at hlen
  have hwidth : a.width = c.Y.length := by
    rw [← hlength]
    exact (List.cons.inj hts).1
  refine ⟨.not a, ?_, hwidth, ?_⟩
  · unfold combine
    rw [htype]
    dsimp only
    rw [← hwidth, norm_self]
    rfl
  · intro ρ σ h
    have heval : a.eval ρ = value σ c.A := (List.cons.inj h).1
    have hlt := value_lt σ c.A
    rw [hlength] at hlt
    rw [Term.eval, heval, hwidth, out, htype, CellType.value, extend, hsigned, if_neg Bool.false_ne_true,
      Nat.mod_eq_of_lt hlt]

section Toggle

def wireR : Wire := ⟨"r", 1⟩

def wireN : Wire := ⟨"n", 1⟩

/-- `n = ~r`, and `r` loads `n` at each edge. -/
def toggle : Design where
  wires := [wireR, wireN]
  input _ := false
  sigmap := id
  cells := [⟨.not, wireR.all, [], [], wireN.all, false, false, false⟩]
  flops := [⟨"ff", wireR.all, wireN.all, none, none, none, 0, rfl⟩]

/-- The values in each cycle. -/
def toggleRun (n : Nat) : Valuation := fun w _ => if w = wireR then n % 2 = 1 else n % 2 = 0

theorem simulates_toggle : Simulates toggle toggleRun where
  joined _ _ := rfl
  cells n c hc := by
    obtain rfl := List.mem_singleton.mp hc
    by_cases hn : n % 2 = 1
    · simp [out, CellType.value, extend, value, Wire.all, Chunk.bits, SigBit.value, toggleRun, wireR, wireN,
        ofBits, hn]
    · have hzero : n % 2 = 0 := by omega
      simp [out, CellType.value, extend, value, Wire.all, Chunk.bits, SigBit.value, toggleRun, wireR, wireN,
        ofBits, hzero]
  start f hf := by
    obtain rfl := List.mem_singleton.mp hf
    rfl
  step n f hf := by
    obtain rfl := List.mem_singleton.mp hf
    by_cases hn : n % 2 = 1
    · have hsucc : (n + 1) % 2 = 0 := by omega
      simp [Flop.next, Flop.load, value, Wire.all, Chunk.bits, SigBit.value, toggleRun, wireR, wireN,
        ofBits, hn, hsucc]
    · have hsucc : (n + 1) % 2 = 1 := by omega
      have hzero : n % 2 = 0 := by omega
      simp [Flop.next, Flop.load, value, Wire.all, Chunk.bits, SigBit.value, toggleRun, wireR, wireN,
        ofBits, hzero, hsucc]

theorem follows_toggle (r : Reachable) (hr : r.inputs = []) : Follows toggle r toggleRun where
  simulates := simulates_toggle
  reset w hw := by
    have hnone : toggle.resetWire = none := by decide
    rw [hnone] at hw
    cases hw
  inputs p hp := by
    rw [hr] at hp
    cases hp

theorem rendered_toggle {zeroSort : Bool} {w : Wire} (hw : w ∈ toggle.wires) (hpos : 0 < w.width)
    (hdriven : toggle.Driven w) : Rendered zeroSort toggle w.all := by
  have hmap : w.all.map toggle.sigmap = w.all := List.map_id _
  constructor
  · intro hnil
    have hlen := length_all w
    rw [hnil] at hlen
    exact absurd hlen.symm (by rw [List.length_nil]; omega)
  · intro b hb
    obtain ⟨i, hi, rfl⟩ := List.mem_map.mp hb
    have hlt := (List.mem_range'_1.mp hi).2
    exact ⟨hw, by omega, hdriven⟩
  · intro data hdata
    rw [hmap, chunks_all hpos] at hdata
    cases List.mem_singleton.mp hdata
  · rw [hmap, chunks_all hpos]
    exact .inr le_rfl

theorem plain_toggle (zeroSort : Bool) : Plain zeroSort toggle where
  names := by
    show ∀ v ∈ [wireR, wireN], ∀ w ∈ [wireR, wireN], zname v.name = zname w.name → v = w
    decide
  sigmap_const _ := rfl
  inputs w hw := by
    have hnone : toggle.resetWire = none := by decide
    rw [hnone] at hw
    cases hw
  flops f hf := by
    obtain rfl := List.mem_singleton.mp hf
    exact ⟨wireR, by decide, rfl, by decide, rfl⟩
  distinct := List.nodup_singleton _
  start f hf := by
    obtain rfl := List.mem_singleton.mp hf
    rfl
  reads f hf := by
    obtain rfl := List.mem_singleton.mp hf
    refine ⟨?_, fun en hen => nomatch hen⟩
    apply rendered_toggle (w := wireN) (by decide) (by decide)
    exact .inr (.inl ⟨_, List.mem_singleton_self _, rfl⟩)
  cells c hc := by
    obtain rfl := List.mem_singleton.mp hc
    exact ⟨wireN, by decide, rfl, by decide, rfl⟩
  operands c hc sig hsig := by
    obtain rfl := List.mem_singleton.mp hc
    obtain rfl := List.mem_singleton.mp (show sig ∈ [wireR.all] from hsig)
    apply rendered_toggle (w := wireR) (by decide) (by decide)
    exact .inl ⟨_, List.mem_singleton_self _, rfl⟩
  exact c hc := by
    obtain rfl := List.mem_singleton.mp hc
    exact exact_not rfl rfl rfl
  acyclic := by
    refine ⟨fun w => if w = wireN then 1 else 0, fun c hc w hY sig hsig b hb v i hnet hcell => ?_⟩
    obtain rfl := List.mem_singleton.mp hc
    obtain rfl := List.mem_singleton.mp (show sig ∈ [wireR.all] from hsig)
    obtain rfl := List.mem_singleton.mp (show b ∈ [.wire wireR 0] from hb)
    obtain rfl : wireN = w := all_injective (by decide) hY
    cases hnet
    exact by decide

/-- The variable of `r` or `n` in a cycle. -/
def bitVar (cycle : Nat) (name : String) : Term Var := .var (cycle, name) 1

theorem width_update {vars : Var → Option Nat} (h : ∀ x w, vars x = some w → w = 1) (y : Var) :
    ∀ x w, Function.update vars y (some 1) x = some w → w = 1 := by
  intro x w hx
  by_cases heq : x = y
  · rw [heq, Function.update_self] at hx
    exact (Option.some.inj hx).symm
  · rw [Function.update_of_ne heq] at hx
    exact h x w hx

theorem query_toggle : ∃ vars, query false toggle 2 "r" 1 = some (⟨vars,
    [(bitVar 0 "r", .val 0 1), (bitVar 0 "n", .not (bitVar 0 "r")), (bitVar 1 "r", bitVar 0 "n"),
      (bitVar 1 "n", .not (bitVar 1 "r")), (bitVar 2 "r", bitVar 1 "n")]⟩,
    [(bitVar 1 "r", .val 1 1), (bitVar 2 "r", .val 1 1)]) ∧ ∀ x w, vars x = some w → w = 1 := by
  refine ⟨_, rfl, ?_⟩
  iterate 5 refine width_update ?_ _
  exact fun _ _ h => nomatch h

/-- A model of the query for `r` in two cycles. -/
def toggleModel (x : Var) : Option Nat :=
  if x = (0, "r") ∨ x = (1, "n") ∨ x = (2, "r") then some 0
  else if x = (0, "n") ∨ x = (1, "r") then some 1
  else none

theorem toggleModel_lt {x : Var} {v : Nat} (h : toggleModel x = some v) : v < 2 ^ 1 := by
  unfold toggleModel at h
  split_ifs at h
  · cases h
    decide
  · cases h
    decide

theorem query_last : ∃ vars, query false toggle 1 "n" 1 = some (⟨vars,
    [(bitVar 0 "r", .val 0 1), (bitVar 0 "n", .not (bitVar 0 "r")), (bitVar 1 "r", bitVar 0 "n")]⟩,
    [(bitVar 1 "n", .val 1 1)]) ∧ ∀ x w, vars x = some w → w = 1 := by
  refine ⟨_, rfl, ?_⟩
  iterate 4 refine width_update ?_ _
  exact fun _ _ h => nomatch h

/-- A model of the query for `n` in one cycle. -/
def lastModel (x : Var) : Option Nat :=
  if x = (0, "r") then some 0
  else if x = (0, "n") ∨ x = (1, "r") ∨ x = (1, "n") then some 1
  else none

theorem lastModel_lt {x : Var} {v : Nat} (h : lastModel x = some v) : v < 2 ^ 1 := by
  unfold lastModel at h
  split_ifs at h
  · cases h
    decide
  · cases h
    decide

end Toggle

end Yosys.Cover
