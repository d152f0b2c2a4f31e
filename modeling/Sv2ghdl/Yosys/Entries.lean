import Sv2ghdl.Yosys.OutCones

/-!
# The entries of the generated code

`sm_comb` and `sm_clock` as `yosys/gen_statemachine.cpp` emits them: the aliases of the inputs and of
the registers, the async resets, the cells in their order, and the commit or the outputs.  A wire is
one variable of the generated code.
-/

open PostOrder

namespace Yosys.Rtlil

/-! ## The state -/

/-- `state_t`: the registers, of which each is a wire, and the memories. -/
structure SmState (μ : Type) where
  reg : Valuation
  mem : μ

/-- `if (arst) reg = (reg & ~mask) | value`.  The condition is rendered over the aliases, so that what
    the cells drive does not change it. -/
structure Reset (M : Combinational) where
  reg : Wire
  mask : Nat → Bool
  value : Nat → Bool
  cond : Valuation → Bool
  aliased : ∀ σ σ' : Valuation, (∀ v k, (∀ c ∈ M.combCells, .wire v k ∉ c.driven) → σ v k = σ' v k) →
    cond σ = cond σ'

def Reset.force {M : Combinational} (r : Reset M) (σ : Valuation) : Valuation :=
  Function.update σ r.reg fun k => if r.mask k then r.value k else σ r.reg k

/-- What the generated code does beside the wiring: the functions of the cells, the resets in their
    order, and the commit of the registers and memories.  The commit takes the values of the signals
    at the sequential cells, and whether the resets are asserted. -/
structure Code (M : Combinational) (μ : Type) where
  regs : List Wire
  fn : μ → Instance → List (List Bool) → Nat → Bool
  direct : Instance → PortId → Bool
  resets : List (Reset M)
  commit : List (List Bool) → List Bool → SmState μ → SmState μ
  resets_regs : ∀ r ∈ resets, r.reg ∈ regs
  regs_inputs : ∀ w ∈ regs, w ∉ M.inputs

/-- The signals at the sequential cells. -/
def Combinational.seqReads (M : Combinational) : List (Instance × PortId × SigSpec) :=
  (M.cells.filter fun c => c.kind = .register ∨ c.kind = .memwr).flatMap fun c =>
    (c.connections.filter (·.1 ≠ .Q)).map fun conn => (c, conn)

namespace Code

variable {M : Combinational} {μ : Type} (C : Code M μ)

def cells (m : μ) : Combinational.Cells := ⟨C.fn m, C.direct⟩

/-- "Input aliases", "Register aliases (current state)", and the other wires, which are zero -/
def initial (s : SmState μ) (inp : Valuation) : Valuation := fun w =>
  if w ∈ M.inputs then inp w else if w ∈ C.regs then s.reg w else fun _ => false

/-- "Async reset overrides": the alias and the register are forced together. -/
def override (p : Valuation × SmState μ) (r : Reset M) : Valuation × SmState μ :=
  if r.cond p.1 then (r.force p.1, { p.2 with reg := r.force p.2.reg }) else p

/-- `emit_comb_prefix` -/
def aliases (s : SmState μ) (inp : Valuation) : Valuation × SmState μ :=
  C.resets.foldl override (C.initial s inp, s)

def seqValues (σ : Valuation) : List (List Bool) := M.seqReads.map fun r =>
  (M.sources (C.direct r.1 r.2.1) r.2.2).map (SigBit.value σ)

def seqConds (σ : Valuation) : List Bool := C.resets.map fun r => r.cond σ

/-- `emit_seq` -/
def seq (σ : Valuation) (s : SmState μ) : SmState μ := C.commit (C.seqValues σ) (C.seqConds σ) s

/-- `emit_comb` -/
def comb (s : SmState μ) (inp : Valuation) : Valuation × SmState μ :=
  let p := C.aliases s inp
  (M.run (C.cells p.2.mem) M.sorted p.1, p.2)

/-- `sm_clock` -/
def smClock (s : SmState μ) (inp : Valuation) : SmState μ :=
  let p := C.comb s inp
  C.seq p.1 p.2

/-- `sm_comb`, with all outputs live -/
def smComb (t : Combinational.Marks) (s : SmState μ) (inp : Valuation) :
    SmState μ × (Wire → Nat) :=
  let p := C.aliases s inp
  (p.2, M.output (M.run (C.cells p.2.mem) (M.evaluated t (BitVec.allOnes 256)) p.1))

/-! ## The resets -/

/-- The state after the resets. -/
def settle (s : SmState μ) (inp : Valuation) : SmState μ := (C.aliases s inp).2

/-- The resets do nothing when they are done once more. -/
def Settled (s : SmState μ) (inp : Valuation) : Prop := C.settle s inp = s

variable {C}

theorem force_other {r : Reset M} {σ : Valuation} {w : Wire} (h : w ≠ r.reg) : r.force σ w = σ w :=
  Function.update_of_ne h _ _

/-- The aliases of the registers are what the state holds. -/
theorem aliases_eq (s : SmState μ) (inp : Valuation) :
    (C.aliases s inp).1 = C.initial (C.settle s inp) inp := by
  suffices hfold : ∀ rs : List (Reset M), (∀ r ∈ rs, r.reg ∈ C.regs) → ∀ p : Valuation × SmState μ,
      p.1 = C.initial p.2 inp → (rs.foldl override p).1 = C.initial (rs.foldl override p).2 inp from
    hfold C.resets C.resets_regs (C.initial s inp, s) rfl
  intro rs
  induction rs with
  | nil => exact fun _ p hp => hp
  | cons r rs ih =>
    intro hregs p hp
    apply ih (fun r' hr' => hregs r' (List.mem_cons_of_mem r hr'))
    unfold override
    split_ifs with hcond
    · -- both are forced
      have hreg := hregs r List.mem_cons_self
      funext w
      by_cases hw : w = r.reg
      · subst hw
        have hval : p.1 r.reg = p.2.reg r.reg := by
          rw [hp, initial, if_neg (C.regs_inputs _ hreg), if_pos hreg]
        simp only [initial, if_neg (C.regs_inputs _ hreg), if_pos hreg, Reset.force,
          Function.update_self, hval]
      · simp only [initial, force_other hw, hp]
    · exact hp

/-- In a settled state the aliases are as they were declared. -/
theorem Settled.aliases {s : SmState μ} {inp : Valuation} (h : C.Settled s inp) :
    C.aliases s inp = (C.initial s inp, s) := by
  apply Prod.ext
  · rw [aliases_eq, h]
  · exact h

end Code

/-! ## Cells that are evaluated in order -/

namespace Combinational

variable {M : Combinational}

/-- Every driven bit is what its cell computes. -/
def Solved (M : Combinational) (F : Cells) (cells : List Instance) (σ : Valuation) : Prop :=
  ∀ c ∈ cells, ∀ v k, .wire v k ∈ c.driven → M.exec F σ c v k = σ v k

/-- What a cell computes depends on the bits that it takes. -/
theorem exec_congr {F : Cells} {σ σ' : Valuation} {c : Instance} {v : Wire} {k : Nat}
    (hdriven : .wire v k ∈ c.driven) (h : ∀ conn ∈ c.reads,
      ∀ b ∈ M.sources (F.direct c conn.1) conn.2, b.value σ = b.value σ') :
    M.exec F σ c v k = M.exec F σ' c v k := by
  have hreads : c.reads.map (fun conn =>
      (M.sources (F.direct c conn.1) conn.2).map (SigBit.value σ)) =
      c.reads.map fun conn => (M.sources (F.direct c conn.1) conn.2).map (SigBit.value σ') :=
    List.map_congr_left fun conn hconn => List.map_congr_left (h conn hconn)
  unfold exec
  rw [hreads]
  cases hlookup : c.driven.zipIdx.reverse.lookup (.wire v k) with
  | some j => rfl
  | none =>
    obtain ⟨i, hi, hget⟩ := List.getElem_of_mem hdriven
    have hpair : (SigBit.wire v k, i) ∈ c.driven.zipIdx.reverse := by
      rw [List.mem_reverse, List.mem_zipIdx_iff_getElem?]
      simp [hget, hi]
    have hne := List.lookup_eq_none_iff.mp hlookup _ hpair
    simp at hne

theorem run_other {F : Cells} {cells : List Instance} {σ : Valuation} {v : Wire} {k : Nat}
    (h : ∀ c ∈ cells, .wire v k ∉ c.driven) : M.run F cells σ v k = σ v k := by
  induction cells generalizing σ with
  | nil => rfl
  | cons c cells ih =>
    show M.run F cells (M.exec F σ c) v k = _
    rw [ih fun d hd => h d (List.mem_cons_of_mem c hd), exec_other (h c List.mem_cons_self)]

variable (M) in
/-- In the list of the emission every cell stands behind the cells that it reads. -/
def Ordered : Prop := ∀ c d, M.Reads c d → Before d c M.sorted

theorem nodup_sorted (M : Combinational) : M.sorted.Nodup := by
  obtain ⟨l, hl, hperm⟩ := Netlist.sorted_perm M.comb_perm
  rw [M.sorted_eq] at hl
  cases hl
  exact (hperm.trans M.comb_perm).nodup_iff.mpr Netlist.nodup_combCells

/-- A cell that takes a bit that another drives reads from it. -/
theorem reads_of_source {F : Cells} {c d : Instance} (hc : c ∈ M.combCells) (hout : c.driven ≠ [])
    (hd : d ∈ M.combCells) {conn : PortId × SigSpec} (hconn : conn ∈ c.reads) {v : Wire} {k : Nat}
    (hb : .wire v k ∈ M.sources (F.direct c conn.1) conn.2) (hdriven : .wire v k ∈ d.driven) :
    M.Reads c d := by
  obtain ⟨b, hb, hnet⟩ := sigmap_source hb
  constructor
  · exact hc
  · exact hd
  · intro hkind
    apply hout
    unfold Instance.driven Instance.output
    rw [hkind]
    simp
  · refine ⟨b, List.mem_flatMap.mpr ⟨conn, hconn, hb⟩, _, hdriven, ?_, rfl, hnet.symm⟩
    cases b with
    | wire _ _ => rfl
    | const s =>
      obtain ⟨w, i, hwire, -⟩ := M.source d hd _ hdriven
      rw [hnet, M.sigmap_const] at hwire
      cases hwire

/-- When the cells of a list are evaluated in order, each driven bit is in the end what its cell
    computes. -/
theorem run_solved {F : Cells} {l : List Instance} (hnodup : l.Nodup)
    (hcomb : ∀ c ∈ l, c ∈ M.combCells) (horder : ∀ c ∈ l, ∀ d ∈ l, M.Reads c d → Before d c l)
    (σ : Valuation) : Solved M F l (M.run F l σ) := by
  intro c hc v k hdriven
  obtain ⟨l₁, l₂, rfl⟩ := List.append_of_mem hc
  have hrun : M.run F (l₁ ++ c :: l₂) σ = M.run F l₂ (M.exec F (M.run F l₁ σ) c) := by
    rw [run_append]
    rfl
  -- later cells do not drive what `c` drives
  have hlater : ∀ d ∈ l₂, .wire v k ∉ d.driven := by
    intro d hd hdriven'
    have hmem : d ∈ l₁ ++ c :: l₂ := List.mem_append_right _ (List.mem_cons_of_mem c hd)
    have heq := M.single c (hcomb c hc) d (hcomb d hmem) _ hdriven _ hdriven' rfl
    have hrest := (List.nodup_append.mp hnodup).2.1
    exact (List.nodup_cons.mp hrest).1 (heq ▸ hd)
  rw [hrun, run_other hlater]
  apply exec_congr hdriven
  intro conn hconn b hb
  cases b with
  | const s => rfl
  | wire v' k' =>
    -- nor do they, or `c`, drive what `c` takes
    have hfree : ∀ d ∈ c :: l₂, .wire v' k' ∉ d.driven := by
      intro d hd hdriven'
      have hmem : d ∈ l₁ ++ c :: l₂ := List.mem_append_right _ hd
      have hreads := reads_of_source (hcomb c hc) (List.ne_nil_of_mem hdriven) (hcomb d hmem) hconn hb
        hdriven'
      have hbefore := (horder c hc d hmem hreads).mem hnodup
      exact (List.nodup_append.mp hnodup).2.2 d hbefore d hd rfl
    show M.run F (c :: l₂) (M.run F l₁ σ) v' k' = M.run F l₁ σ v' k'
    exact run_other hfree

theorem idxOf_lt_of_before {l : List Instance} {c d : Instance} (hnodup : l.Nodup)
    (h : Before d c l) : l.idxOf d < l.idxOf c := by
  obtain ⟨l₁, l₂, rfl, hd⟩ := h
  have hc : c ∉ l₁ := fun hc => (List.nodup_append.mp hnodup).2.2 c hc c List.mem_cons_self rfl
  rw [List.idxOf_append_of_mem hd, List.idxOf_append_of_notMem hc, List.idxOf_cons_self, Nat.add_zero]
  exact List.idxOf_lt_length_of_mem hd

/-- Two solutions that agree on what no cell drives give a signal the same value. -/
theorem agree_of_solved (horder : M.Ordered) {F : Cells} {root : SigSpec} {σ σ' : Valuation}
    (hσ : ∀ c, M.Feeds root c → Solved M F [c] σ) (hσ' : ∀ c, M.Feeds root c → Solved M F [c] σ')
    (hfree : ∀ v k, (∀ c ∈ M.combCells, .wire v k ∉ c.driven) → M.Needs root (M.sigmap (.wire v k)) →
      σ v k = σ' v k) : M.Agree root σ σ' := by
  -- the place of the driver decreases along the reads
  have hcell : ∀ n, ∀ c ∈ M.combCells, M.sorted.idxOf c = n → ∀ v k, .wire v k ∈ c.driven →
      M.Needs root (M.sigmap (.wire v k)) → σ v k = σ' v k := by
    intro n
    induction n using Nat.strong_induction_on with
    | h n ih =>
      intro c hc hn v k hdriven hneeds
      have hfeeds : M.Feeds root c := ⟨hc, _, hdriven, hneeds⟩
      rw [← hσ c hfeeds c (List.mem_singleton_self c) v k hdriven,
        ← hσ' c hfeeds c (List.mem_singleton_self c) v k hdriven]
      apply exec_congr hdriven
      intro conn hconn b hb
      cases b with
      | const s => rfl
      | wire v' k' =>
        obtain ⟨b, hread, hnet⟩ := sigmap_source hb
        have hneeds' : M.Needs root (M.sigmap (.wire v' k')) := by
          rw [hnet]
          exact .read hc hdriven hneeds (List.mem_flatMap.mpr ⟨conn, hconn, hread⟩)
        by_cases hany : ∃ d ∈ M.combCells, .wire v' k' ∈ d.driven
        · obtain ⟨d, hd, hdriven'⟩ := hany
          have hreads := reads_of_source hc (List.ne_nil_of_mem hdriven) hd hconn hb hdriven'
          have hlt := idxOf_lt_of_before M.nodup_sorted (horder c d hreads)
          exact ih _ (hn ▸ hlt) d hd rfl v' k' hdriven' hneeds'
        · apply hfree v' k' _ hneeds'
          intro d hd hdriven'
          exact hany ⟨d, hd, hdriven'⟩
  intro v k hneeds
  by_cases hany : ∃ d ∈ M.combCells, .wire v k ∈ d.driven
  · obtain ⟨d, hd, hdriven⟩ := hany
    exact hcell _ d hd rfl v k hdriven hneeds
  · apply hfree v k _ hneeds
    intro d hd hdriven
    exact hany ⟨d, hd, hdriven⟩

/-! ## The output cones -/

theorem nodup_evaluated {t : Marks} (h : Global (M := M) M.outputs.length t) (mask : BitVec 256) :
    (M.evaluated t mask).Nodup := by
  unfold evaluated
  have hbucket : ∀ {i c}, i ∈ List.range (min M.outputs.length 256) →
      c ∈ (if mask.getLsbD i then M.bucket t i else []) → M.Alone i c := by
    intro i c hi hc
    split_ifs at hc
    · exact (mem_bucket h (lt_min_iff.mp (List.mem_range.mp hi)).2).mp hc
    · cases hc
  rw [List.nodup_append]
  refine ⟨M.nodup_sorted.filter _, ?_, ?_⟩
  · rw [List.nodup_flatMap]
    constructor
    · intro i _
      split_ifs
      · exact M.nodup_sorted.filter _
      · exact List.nodup_nil
    · apply List.Nodup.pairwise_of_forall_ne List.nodup_range
      intro i hi j hj hij c hci hcj
      have hi' := hbucket hi hci
      have hj' := hbucket hj hcj
      exact hij (hj'.2.2 i hi'.1 hi'.2.1)
  · intro c hc d hd hcd
    obtain ⟨i, hi, hd⟩ := List.mem_flatMap.mp hd
    exact ((mem_shared h).mp hc).2 i (hcd ▸ hbucket hi hd)

/-- The cones of the live outputs are evaluated as they are when all cells are. -/
theorem output_evaluated {t : Marks} (h : Global (M := M) M.outputs.length t) (hsplit : M.Unsplit)
    (horder : M.Ordered) {F : Cells} {σ σ' : Valuation} {i : Nat} {w : Wire}
    (hw : M.outputs[i]? = some w)
    (hfree : ∀ v k, (∀ c ∈ M.combCells, .wire v k ∉ c.driven) → M.Needs w.all (M.sigmap (.wire v k)) →
      σ v k = σ' v k) : M.output (M.run F (M.evaluated t (BitVec.allOnes 256)) σ') w =
        M.output (M.run F M.sorted σ) w := by
  apply Agree.output
  have hcomb : ∀ c ∈ M.evaluated t (BitVec.allOnes 256), c ∈ M.combCells := by
    intro c hc
    obtain ⟨⟨i, w, _, hfeeds⟩, _⟩ := (mem_evaluated h).mp hc
    exact hfeeds.1
  apply agree_of_solved horder
  · intro c hfeeds d hd
    obtain rfl := List.mem_singleton.mp hd
    apply run_solved (nodup_evaluated h _) hcomb
      (fun c hc d _ hreads => evaluated_order h hsplit hc hreads (horder c d hreads)) σ'
    apply (mem_evaluated h).mpr
    refine ⟨⟨i, w, hw, hfeeds⟩, fun j halone => ?_⟩
    rw [BitVec.getLsbD_allOnes]
    exact decide_eq_true halone.1
  · intro c hfeeds d hd
    obtain rfl := List.mem_singleton.mp hd
    apply run_solved M.nodup_sorted (fun c hc => mem_sorted.mp hc)
      (fun c _ d _ hreads => horder c d hreads) σ
    exact mem_sorted.mpr hfeeds.1
  · intro v k hundriven hneeds
    rw [run_other fun c hc => hundriven c (hcomb c hc),
      run_other fun c hc => hundriven c (mem_sorted.mp hc)]
    exact (hfree v k hundriven hneeds).symm

end Combinational

end Yosys.Rtlil
