import Sv2ghdl.Yosys.Entries

/-!
# The clock entry in parts

`GSM_COMB_SPLIT` of `yosys/gen_statemachine.cpp`: `sm_clock` as functions that evaluate a slice of the
cells each and a last one that commits.  Wires that one part writes and a later one takes travel in
`sm_xw`.
-/

namespace Yosys.Rtlil

/-- The wire of a bit. -/
def SigBit.wire? : SigBit → Option Wire
  | .wire w _ => some w
  | .const _ => none

/-- A cell that assigns a variable. -/
def Instance.assigns (c : Instance) (w : Wire) : Bool := c.driven.any fun b => b.wire? = some w

namespace Combinational

variable (M : Combinational)

/-! ## The analysis -/

/-- Where part `p` starts. -/
def partStart (K p : Nat) : Nat := M.sorted.length * p / K

def part (K p : Nat) : List Instance :=
  (M.sorted.drop (M.partStart K p)).take (M.partStart K (p + 1) - M.partStart K p)

/-- `res_wire` -/
def resWire (b : SigBit) : Option Wire := (M.redirect (M.sigmap b)).wire?

/-- `wparts`: the parts that write a wire -/
def wparts (K : Nat) (w : Wire) : List Nat :=
  (List.range K).filter fun p => (M.part K p).any (·.assigns w)

/-- `outpart`: the part that copies an output -/
def outpart (K : Nat) (o : Wire) : Nat :=
  ((o.all.filterMap M.resWire).flatMap (M.wparts K)).foldl max 0

/-- `touch`: whether part `p` reads or writes a wire -/
def touch (K p : Nat) (w : Wire) : Bool :=
  (M.part K p).any (fun c => c.assigns w || c.read.any fun b => M.resWire b = some w) ||
    M.outputs.any fun o => M.outpart K o = p && o.all.any fun b => M.resWire b = some w

/-- `seq`: whether the commit reads a wire -/
def seqTouch (w : Wire) : Bool := M.seqReads.any fun r => r.2.2.any fun b => M.resWire b = some w

/-- A part before `p` writes the wire: `p > minw`. -/
def writtenBefore (K p : Nat) (w : Wire) : Bool := (M.wparts K w).head?.any (· < p)

/-- `xwires` -/
def xwire (K : Nat) (w : Wire) : Bool :=
  !(M.wparts K w).isEmpty &&
    (M.seqTouch w || (List.range K).any fun p => M.touch K p w && M.writtenBefore K p w)

def loads (K p : Nat) (w : Wire) : Bool :=
  M.xwire K w && M.writtenBefore K p w && M.touch K p w

def stores (K p : Nat) (w : Wire) : Bool := M.xwire K w && p ∈ M.wparts K w

end Combinational

/-! ## The code -/

/-- What the parts work on: the state, the outputs and `sm_xw`. -/
structure SplitState (μ : Type) where
  s : SmState μ
  o : Wire → Nat
  xw : Valuation

namespace Code

variable {M : Combinational} {μ : Type} (C : Code M μ)

/-- `sm_clock_p<p>`, with all outputs live -/
def clockPart (K : Nat) (inp : Valuation) (S : SplitState μ) (p : Nat) : SplitState μ :=
  let q := C.aliases S.s inp
  let σ := M.run (C.cells q.2.mem) (M.part K p) fun w => if M.loads K p w then S.xw w else q.1 w
  { s := q.2
    o := fun w => if w ∈ M.outputs ∧ M.outpart K w = p then M.output σ w else S.o w
    xw := fun w => if M.stores K p w then σ w else S.xw w }

/-- `sm_clock_pc` -/
def clockCommit (K : Nat) (inp : Valuation) (S : SplitState μ) : SmState μ :=
  let q := C.aliases S.s inp
  C.seq (fun w => if M.xwire K w && M.seqTouch w then S.xw w else q.1 w) q.2

/-- `sm_clock_o`, and `sm_clock` when the outputs are a scratch variable -/
def clockSplit (K : Nat) (inp : Valuation) (S : SplitState μ) : SplitState μ :=
  let S := (List.range K).foldl (C.clockPart K inp) S
  { S with s := C.clockCommit K inp S }

/-- The split changes nothing at a state and inputs, whatever the outputs and `sm_xw` held before. -/
def SplitAgrees (K : Nat) (s : SmState μ) (inp : Valuation) : Prop :=
  ∀ t, M.cones = some t → ∀ o xw, (C.clockSplit K inp ⟨s, o, xw⟩).s = C.smClock s inp ∧
    ∀ w ∈ M.outputs, (C.clockSplit K inp ⟨s, o, xw⟩).o w = (C.smComb t s inp).2 w

/-- The analysis sees all that the code takes, though it follows the redirection everywhere, and the
    output cones are evaluated in order. -/
structure Separable (K : Nat) : Prop where
  cells : ∀ p < K, ∀ c ∈ M.part K p, ∀ conn ∈ c.reads, C.direct c conn.1 = true → ∀ b ∈ conn.2,
    ∀ v k, M.sigmap b = .wire v k → (∃ q < p, q ∈ M.wparts K v) → M.touch K p v = true
  commit : ∀ r ∈ M.seqReads, C.direct r.1 r.2.1 = true → ∀ b ∈ r.2.2,
    ∀ v k, M.sigmap b = .wire v k → M.wparts K v ≠ [] → M.seqTouch v = true
  outputs : ∀ w ∈ M.outputs, isWide w.width = true → ∀ b ∈ w.all, ∀ v k, M.sigmap b = .wire v k →
    ∀ q ∈ M.wparts K v, q ≤ M.outpart K w ∧ M.touch K (M.outpart K w) v = true
  ordered : M.Ordered
  unsplit : M.Unsplit

end Code

/-! ## The parts -/

namespace Combinational

variable {M : Combinational} {K : Nat}

theorem partStart_le (K p : Nat) : M.partStart K p ≤ M.partStart K (p + 1) :=
  Nat.div_le_div_right (Nat.mul_le_mul_left _ (Nat.le_succ p))

/-- The parts before `p` are the cells before its start. -/
theorem flatMap_part (p : Nat) :
    (List.range p).flatMap (M.part K) = M.sorted.take (M.partStart K p) := by
  induction p with
  | zero => simp [partStart]
  | succ p ih =>
    rw [List.range_succ, List.flatMap_append, ih, List.flatMap_cons, List.flatMap_nil, List.append_nil,
      part]
    have hsplit : M.partStart K (p + 1) =
        M.partStart K p + (M.partStart K (p + 1) - M.partStart K p) := by
      have hle := partStart_le (M := M) K p
      omega
    conv_rhs => rw [hsplit, List.take_add]

theorem flatMap_parts (hK : 0 < K) : (List.range K).flatMap (M.part K) = M.sorted := by
  rw [flatMap_part, partStart, Nat.mul_div_cancel _ hK, List.take_length]

theorem mem_wparts {p : Nat} {w : Wire} :
    p ∈ M.wparts K w ↔ p < K ∧ ∃ c ∈ M.part K p, c.assigns w = true := by
  simp [wparts]

theorem assigns_of_driven {c : Instance} {w : Wire} {k : Nat} (h : .wire w k ∈ c.driven) :
    c.assigns w = true := List.any_eq_true.mpr ⟨_, h, decide_eq_true rfl⟩

/-- The parts that write a wire are listed in order, the first one first. -/
theorem writtenBefore_iff {p : Nat} {w : Wire} :
    M.writtenBefore K p w = true ↔ ∃ q < p, q ∈ M.wparts K w := by
  have hsorted : (M.wparts K w).Pairwise (· < ·) := List.pairwise_lt_range.filter _
  unfold writtenBefore
  cases hparts : M.wparts K w with
  | nil => simp
  | cons m rest =>
    rw [hparts] at hsorted
    simp only [List.head?_cons, Option.any_some, decide_eq_true_eq, List.mem_cons]
    constructor
    · exact fun hm => ⟨m, hm, .inl rfl⟩
    · intro ⟨q, hq, hmem⟩
      rcases hmem with rfl | hmem
      · exact hq
      · exact ((List.pairwise_cons.mp hsorted).1 q hmem).trans hq

theorem xwire_of_touch {p : Nat} {w : Wire} (hp : p < K) (hwritten : M.writtenBefore K p w = true)
    (htouch : M.touch K p w = true) : M.xwire K w = true := by
  obtain ⟨q, _, hq⟩ := writtenBefore_iff.mp hwritten
  unfold xwire
  rw [Bool.and_eq_true, Bool.or_eq_true]
  constructor
  · cases hparts : M.wparts K w with
    | nil => rw [hparts] at hq; cases hq
    | cons => rfl
  · exact .inr (List.any_eq_true.mpr ⟨p, List.mem_range.mpr hp, by rw [htouch, hwritten]; rfl⟩)

end Combinational

/-! ## A run of the parts -/

namespace Code

open Combinational

variable {M : Combinational} {μ : Type} {C : Code M μ} {K : Nat}

/-- The variables when the cells before part `p` have been evaluated in one function. -/
def upTo (C : Code M μ) (K : Nat) (s : SmState μ) (inp : Valuation) (p : Nat) : Valuation :=
  M.run (C.cells s.mem) ((List.range p).flatMap (M.part K)) (C.initial s inp)

theorem upTo_succ (s : SmState μ) (inp : Valuation) (p : Nat) :
    C.upTo K s inp (p + 1) = M.run (C.cells s.mem) (M.part K p) (C.upTo K s inp p) := by
  unfold upTo
  rw [List.range_succ, List.flatMap_append, run_append, List.flatMap_cons, List.flatMap_nil,
    List.append_nil]

/-- A variable that a part does not assign. -/
theorem upTo_kept {s : SmState μ} {inp : Valuation} {p : Nat} {w : Wire} (hp : p < K)
    (h : p ∉ M.wparts K w) : C.upTo K s inp (p + 1) w = C.upTo K s inp p w := by
  funext k
  rw [upTo_succ]
  apply run_other
  intro c hc hdriven
  exact h (mem_wparts.mpr ⟨hp, c, hc, assigns_of_driven hdriven⟩)

theorem upTo_unwritten {s : SmState μ} {inp : Valuation} {w : Wire} {p q : Nat} (hpq : p ≤ q)
    (hq : q ≤ K) (h : ∀ r, p ≤ r → r < q → r ∉ M.wparts K w) :
    C.upTo K s inp q w = C.upTo K s inp p w := by
  induction q, hpq using Nat.le_induction with
  | base => rfl
  | succ q hpq ih =>
    rw [upTo_kept (by omega) (h q hpq (Nat.lt_succ_self q))]
    exact ih (by omega) fun r hr hrq => h r hr (by omega)

/-- What holds before part `p`: the parts before it are done, the state `s` is settled. -/
structure PartInv (C : Code M μ) (K : Nat) (s : SmState μ) (inp : Valuation) (p : Nat)
    (S : SplitState μ) : Prop where
  state : C.aliases S.s inp = (C.initial s inp, s)
  xw : ∀ w, M.xwire K w = true → M.writtenBefore K p w = true → S.xw w = C.upTo K s inp p w
  o : ∀ w ∈ M.outputs, M.outpart K w < p → S.o w = M.output (C.upTo K s inp K) w

/-- The variables whose values part `p` may rely on. -/
def Held (M : Combinational) (K p : Nat) (w : Wire) : Prop :=
  M.writtenBefore K p w = true → M.touch K p w = true

theorem held_of_read {p : Nat} {c : Instance} (hsep : C.Separable K) (hp : p < K)
    (hc : c ∈ M.part K p) {conn : PortId × SigSpec} (hconn : conn ∈ c.reads) {v : Wire} {k : Nat}
    (hb : .wire v k ∈ M.sources (C.direct c conn.1) conn.2) : Held M K p v := by
  intro hwritten
  unfold sources at hb
  split_ifs at hb with hdirect
  · obtain ⟨b, hb, hnet⟩ := List.mem_map.mp hb
    exact hsep.cells p hp c hc conn hconn hdirect b hb v k hnet (writtenBefore_iff.mp hwritten)
  · obtain ⟨b, hb, hnet⟩ := List.mem_map.mp hb
    have hres : M.resWire b = some v := by
      rw [resWire, show M.redirect (M.sigmap b) = .wire v k from hnet]
      rfl
    have hread : c.read.any (fun b => M.resWire b = some v) = true :=
      List.any_eq_true.mpr ⟨b, List.mem_flatMap.mpr ⟨conn, hconn, hb⟩, decide_eq_true hres⟩
    unfold touch
    rw [Bool.or_eq_true]
    exact .inl (List.any_eq_true.mpr ⟨c, hc, by rw [hread, Bool.or_true]⟩)

/-- The cells of a part keep two valuations in agreement on what the part may rely on. -/
theorem run_held {p : Nat} (hsep : C.Separable K) (hp : p < K) {m : μ} {cells : List Instance}
    (hcells : ∀ c ∈ cells, c ∈ M.part K p) {σ σ' : Valuation} (h : ∀ w, Held M K p w → σ w = σ' w) :
    ∀ w, Held M K p w → M.run (C.cells m) cells σ w = M.run (C.cells m) cells σ' w := by
  induction cells generalizing σ σ' with
  | nil => exact h
  | cons c cells ih =>
    apply ih fun d hd => hcells d (List.mem_cons_of_mem c hd)
    intro w hw
    funext k
    by_cases hdriven : .wire w k ∈ c.driven
    · apply exec_congr hdriven
      intro conn hconn b hb
      cases b with
      | const s => rfl
      | wire v k' =>
        have hv := held_of_read hsep hp (hcells c List.mem_cons_self) hconn hb
        exact congrFun (h v hv) k'
    · rw [exec_other hdriven, exec_other hdriven, h w hw]

theorem le_foldl_max {l : List Nat} {a q : Nat} (h : q ≤ a ∨ q ∈ l) : q ≤ l.foldl max a := by
  induction l generalizing a with
  | nil => exact h.resolve_right List.not_mem_nil
  | cons x l ih =>
    apply ih
    rcases h with h | h
    · exact .inl (h.trans (le_max_left a x))
    · rcases List.mem_cons.mp h with rfl | h
      · exact .inl (le_max_right a q)
      · exact .inr h

/-- The bits that an output takes are final in the part that copies it. -/
theorem output_final (hsep : C.Separable K) {w : Wire} (hw : w ∈ M.outputs) {v : Wire} {k : Nat}
    (hb : .wire v k ∈ M.sources (isWide w.width) w.all) :
    Held M K (M.outpart K w) v ∧ ∀ q ∈ M.wparts K v, q ≤ M.outpart K w := by
  unfold sources at hb
  split_ifs at hb with hwide
  · obtain ⟨b, hb, hnet⟩ := List.mem_map.mp hb
    have hfinal := hsep.outputs w hw hwide b hb v k hnet
    constructor
    · intro hwritten
      obtain ⟨q, _, hq⟩ := writtenBefore_iff.mp hwritten
      exact (hfinal q hq).2
    · exact fun q hq => (hfinal q hq).1
  · obtain ⟨b, hb, hnet⟩ := List.mem_map.mp hb
    have hres : M.resWire b = some v := by
      rw [resWire, show M.redirect (M.sigmap b) = .wire v k from hnet]
      rfl
    constructor
    · intro _
      unfold touch
      rw [Bool.or_eq_true]
      refine .inr (List.any_eq_true.mpr ⟨w, hw, ?_⟩)
      rw [Bool.and_eq_true]
      exact ⟨decide_eq_true rfl, List.any_eq_true.mpr ⟨b, hb, decide_eq_true hres⟩⟩
    · intro q hq
      apply le_foldl_max
      exact .inr (List.mem_flatMap.mpr ⟨v, List.mem_filterMap.mpr ⟨b, hb, hres⟩, hq⟩)

theorem PartInv.step {s : SmState μ} {inp : Valuation} {p : Nat} {S : SplitState μ}
    (h : PartInv C K s inp p S) (hsep : C.Separable K) (hs : C.Settled s inp) (hp : p < K) :
    PartInv C K s inp (p + 1) (C.clockPart K inp S p) := by
  -- what the part starts with
  have hstart : ∀ w, Held M K p w →
      (fun w => if M.loads K p w then S.xw w else C.initial s inp w) w = C.upTo K s inp p w := by
    intro w hw
    show (if M.loads K p w = true then S.xw w else C.initial s inp w) = _
    cases hwritten : M.writtenBefore K p w with
    | true =>
      have htouch := hw hwritten
      have hx := xwire_of_touch hp hwritten htouch
      rw [if_pos (by rw [loads, hx, hwritten, htouch]; rfl)]
      exact h.xw w hx hwritten
    | false =>
      rw [if_neg (by rw [loads, hwritten, Bool.and_false]; exact Bool.false_ne_true)]
      rw [upTo_unwritten (Nat.zero_le p) (by omega) (fun r _ hr hmem => by
        have htrue := writtenBefore_iff.mpr ⟨r, hr, hmem⟩
        rw [hwritten] at htrue
        cases htrue)]
      rfl
  have hend := run_held (m := s.mem) hsep hp (fun c hc => hc) hstart
  rw [← upTo_succ] at hend
  unfold clockPart
  rw [h.state]
  constructor
  · exact hs.aliases
  · intro w hx hwritten
    simp only
    by_cases hmem : p ∈ M.wparts K w
    · rw [if_pos (by rw [stores, hx, decide_eq_true hmem]; rfl)]
      apply hend
      intro _
      obtain ⟨_, c, hc, hassigns⟩ := mem_wparts.mp hmem
      rw [touch, Bool.or_eq_true]
      exact .inl (List.any_eq_true.mpr ⟨c, hc, by rw [hassigns]; rfl⟩)
    · rw [if_neg (by rw [stores, decide_eq_false hmem, Bool.and_false]; exact Bool.false_ne_true),
        upTo_kept hp hmem]
      apply h.xw w hx
      obtain ⟨q, hq, hqmem⟩ := writtenBefore_iff.mp hwritten
      apply writtenBefore_iff.mpr
      refine ⟨q, ?_, hqmem⟩
      have hne : q ≠ p := fun heq => hmem (heq ▸ hqmem)
      omega
  · intro w hw hlt
    simp only
    by_cases hpart : M.outpart K w = p
    · rw [if_pos ⟨hw, hpart⟩]
      unfold output value
      congr 1
      apply List.map_congr_left
      intro b hb
      cases b with
      | const s => rfl
      | wire v k =>
        obtain ⟨hheld, hlast⟩ := output_final hsep hw hb
        rw [hpart] at hheld hlast
        have hv := hend v hheld
        have hfinal : C.upTo K s inp K v = C.upTo K s inp (p + 1) v := by
          apply upTo_unwritten hp (Nat.le_refl K)
          intro r hr _ hmem
          have hle := hlast r hmem
          omega
        show _ = C.upTo K s inp K v k
        rw [hfinal, ← hv]
        rfl
    · rw [if_neg fun hboth => hpart hboth.2]
      exact h.o w hw (by omega)

theorem partInv_parts (hsep : C.Separable K) {s : SmState μ} {inp : Valuation} {S : SplitState μ}
    (hS : C.aliases S.s inp = (C.initial s inp, s)) (hs : C.Settled s inp) {p : Nat} (hp : p ≤ K) :
    PartInv C K s inp p ((List.range p).foldl (C.clockPart K inp) S) := by
  induction p with
  | zero =>
    constructor
    · exact hS
    · intro w _ hwritten
      obtain ⟨q, hq, _⟩ := writtenBefore_iff.mp hwritten
      omega
    · intro w _ hlt
      omega
  | succ p ih =>
    rw [List.range_succ, List.foldl_append]
    exact (ih (by omega)).step hsep hs (by omega)

/-- The commit takes what the parts have left. -/
theorem clockCommit_eq (hsep : C.Separable K) {s : SmState μ} {inp : Valuation} {S : SplitState μ}
    (h : PartInv C K s inp K S) : C.clockCommit K inp S = C.seq (C.upTo K s inp K) s := by
  have hheld : ∀ w, (M.wparts K w ≠ [] → M.seqTouch w = true) →
      (if M.xwire K w && M.seqTouch w then S.xw w else C.initial s inp w) = C.upTo K s inp K w := by
    intro w hw
    by_cases hparts : M.wparts K w = []
    · rw [if_neg (by rw [xwire, hparts]; exact Bool.false_ne_true),
        upTo_unwritten (Nat.zero_le K) (Nat.le_refl K) (by rw [hparts]; exact fun r _ _ => List.not_mem_nil)]
      rfl
    · obtain ⟨q, hq⟩ := List.exists_mem_of_ne_nil _ hparts
      have hx : M.xwire K w = true := by
        rw [xwire, hw hparts, Bool.true_or, Bool.and_true]
        cases hcases : M.wparts K w with
        | nil => exact absurd hcases hparts
        | cons => rfl
      rw [if_pos (by rw [hx, hw hparts]; rfl)]
      exact h.xw w hx (writtenBefore_iff.mpr ⟨q, (mem_wparts.mp hq).1, hq⟩)
  have hvalues : C.seqValues (fun w => if M.xwire K w && M.seqTouch w then S.xw w
      else C.initial s inp w) = C.seqValues (C.upTo K s inp K) := by
    apply List.map_congr_left
    intro r hr
    apply List.map_congr_left
    intro b hb
    cases b with
    | const s => rfl
    | wire v k =>
      apply congrFun (hheld v _) k
      intro hparts
      unfold sources at hb
      split_ifs at hb with hdirect
      · obtain ⟨b, hb, hnet⟩ := List.mem_map.mp hb
        exact hsep.commit r hr hdirect b hb v k hnet hparts
      · obtain ⟨b, hb, hnet⟩ := List.mem_map.mp hb
        have hres : M.resWire b = some v := by
          rw [resWire, show M.redirect (M.sigmap b) = .wire v k from hnet]
          rfl
        exact List.any_eq_true.mpr ⟨r, hr, List.any_eq_true.mpr ⟨b, hb, decide_eq_true hres⟩⟩
  have hconds : C.seqConds (fun w => if M.xwire K w && M.seqTouch w then S.xw w
      else C.initial s inp w) = C.seqConds (C.upTo K s inp K) := by
    apply List.map_congr_left
    intro r _
    apply r.aliased
    intro v k hundriven
    -- no part changes the bit
    have hkept : C.upTo K s inp K v k = C.initial s inp v k := by
      apply run_other
      intro c hc hdriven
      obtain ⟨p, _, hc⟩ := List.mem_flatMap.mp hc
      exact hundriven c (mem_sorted.mp (List.mem_of_mem_drop (List.mem_of_mem_take hc))) hdriven
    rw [hkept]
    split_ifs with hx
    · rw [Bool.and_eq_true] at hx
      have hparts : M.wparts K v ≠ [] := by
        intro hnil
        rw [xwire, hnil] at hx
        exact Bool.false_ne_true hx.1
      obtain ⟨q, hq⟩ := List.exists_mem_of_ne_nil _ hparts
      rw [h.xw v hx.1 (writtenBefore_iff.mpr ⟨q, (mem_wparts.mp hq).1, hq⟩), hkept]
    · rfl
  unfold clockCommit
  rw [h.state]
  unfold seq
  show C.commit (C.seqValues _) (C.seqConds _) s = _
  rw [hvalues, hconds]

/-- The split changes nothing when the analysis sees what the code takes and the resets, done once,
    do nothing more. -/
theorem splitAgrees (hsep : C.Separable K) (hK : 2 ≤ K) {s : SmState μ} {inp : Valuation}
    (hs : C.Settled (C.settle s inp) inp) : C.SplitAgrees K s inp := by
  intro t ht o xw
  have hS : C.aliases s inp = (C.initial (C.settle s inp) inp, C.settle s inp) :=
    Prod.ext (aliases_eq s inp) rfl
  have hinv := partInv_parts (S := ⟨s, o, xw⟩) hsep hS hs (Nat.le_refl K)
  have hall : C.upTo K (C.settle s inp) inp K =
      M.run (C.cells (C.settle s inp).mem) M.sorted (C.initial (C.settle s inp) inp) := by
    rw [upTo, flatMap_parts (by omega)]
  constructor
  · show C.clockCommit K inp _ = _
    rw [clockCommit_eq hsep hinv, hall]
    unfold smClock comb
    rw [hS]
  · intro w hw
    obtain ⟨i, hi, hget⟩ := List.getElem_of_mem hw
    obtain ⟨t', ht', hglobal⟩ := cones_spec M
    cases ht.symm.trans ht'
    have hlt : M.outpart K w < K := by
      unfold outpart
      apply List.foldlRecOn (motive := fun q => q < K) _ max (by omega : 0 < K)
      intro q hq r hr
      obtain ⟨v, _, hr⟩ := List.mem_flatMap.mp hr
      exact max_lt hq (mem_wparts.mp hr).1
    show SplitState.o ((List.range K).foldl (C.clockPart K inp) ⟨s, o, xw⟩) w = _
    rw [hinv.o w hw hlt, hall]
    unfold smComb
    rw [hS]
    exact (output_evaluated hglobal hsep.unsplit hsep.ordered
      (List.getElem?_eq_some_iff.mpr ⟨hi, hget⟩) fun _ _ _ _ => rfl).symm

end Code

/-! ## Two cells in two parts -/

section Examples

open Combinational

/-- `y = ~a; z = ~y` -/
def twoCells : Combinational where
  cells := [inverter "A" "a" "y", inverter "B" "y" "z"]
  inputs := [⟨"a", 1⟩]
  sigmap := id
  nodup := by decide
  comb := [inverter "A" "a" "y", inverter "B" "y" "z"]
  sorted := [inverter "A" "a" "y", inverter "B" "y" "z"]
  outputs := [⟨"z", 1⟩]
  connections := []
  regbit _ := none
  comb_perm := by decide
  sorted_eq := by decide
  idem _ := rfl
  sigmap_const _ := rfl
  joined := by decide
  single := by
    have h : ∀ c ∈ [inverter "A" "a" "y", inverter "B" "y" "z"],
        ∀ d ∈ [inverter "A" "a" "y", inverter "B" "y" "z"],
        ∀ b ∈ c.driven, ∀ b' ∈ d.driven, b = b' → c = d := by decide
    exact h
  source c hc b hb := by
    have hc : c ∈ [inverter "A" "a" "y", inverter "B" "y" "z"] := hc
    simp only [List.mem_cons, List.not_mem_nil, or_false] at hc
    rcases hc with rfl | rfl
    · obtain rfl := List.mem_singleton.mp (show b ∈ oneBit "y" from hb)
      exact ⟨_, _, rfl, by decide, rfl⟩
    · obtain rfl := List.mem_singleton.mp (show b ∈ oneBit "z" from hb)
      exact ⟨_, _, rfl, by decide, rfl⟩

def twoCellsCode : Code twoCells Unit where
  regs := []
  fn _ _ ins _ := !(ins.flatten.headD false)
  direct _ _ := false
  resets := []
  commit _ _ s := s
  resets_regs := by decide
  regs_inputs := by decide

theorem separable_twoCells : twoCellsCode.Separable 2 where
  cells _ _ _ _ _ _ h := absurd h Bool.false_ne_true
  commit _ _ h := absurd h Bool.false_ne_true
  outputs w hw h := by
    obtain rfl := List.mem_singleton.mp hw
    exact absurd h (by decide)
  ordered c d h := by
    have hall : ∀ c ∈ twoCells.combCells, ∀ d ∈ twoCells.combCells, twoCells.Reads c d →
        d = inverter "A" "a" "y" ∧ c = inverter "B" "y" "z" := by decide
    obtain ⟨rfl, rfl⟩ := hall c h.reader d h.driver h
    exact ⟨[_], [], rfl, List.mem_singleton_self _⟩
  unsplit c i j _ hj := by
    intro ⟨w, hw, _⟩
    have hlt : j < 1 := (List.getElem?_eq_some_iff.mp hw).1
    omega

/-- All registers and inputs are 1. -/
def allSet : SmState Unit := ⟨fun _ _ => true, ()⟩

theorem splitAgrees_twoCells : twoCellsCode.SplitAgrees 2 allSet fun _ _ => true :=
  Code.splitAgrees separable_twoCells (Nat.le_refl 2) rfl

/-! ## A reset that another reset asserts -/

/-- An `$adff` that loads `d`. -/
def resetFlop (name q arst : String) : Instance :=
  ⟨name, .register, [(.other "ARST", oneBit arst), (.other "D", oneBit "d"), (.Q, oneBit q)]⟩

/-- `p` is reset while `q` is 0, and `q` while the input `rst` is 1. -/
def chainedResets : Combinational where
  cells := [resetFlop "P" "p" "q", resetFlop "Q" "q" "rst"]
  inputs := [⟨"rst", 1⟩, ⟨"d", 1⟩]
  sigmap := id
  nodup := by decide
  comb := []
  sorted := []
  outputs := []
  connections := []
  regbit b := if b = .wire ⟨"p", 1⟩ 0 then some "p" else if b = .wire ⟨"q", 1⟩ 0 then some "q" else none
  comb_perm := by decide
  sorted_eq := by decide
  idem _ := rfl
  sigmap_const _ := rfl
  joined := by decide
  single c hc := absurd (show c ∈ [] from hc) List.not_mem_nil
  source c hc := absurd (show c ∈ [] from hc) List.not_mem_nil

def bitReset (reg : String) (net : String) (polarity : Bool) : Reset chainedResets where
  reg := ⟨reg, 1⟩
  mask k := k = 0
  value _ := false
  cond σ := σ ⟨net, 1⟩ 0 == polarity
  aliased σ σ' h := by
    rw [h ⟨net, 1⟩ 0 fun c hc => absurd (show c ∈ [] from hc) List.not_mem_nil]

/-- `if (!(arst)) q = d;`, for both registers -/
def chainedCommit (values : List (List Bool)) (conds : List Bool) (s : SmState Unit) :
    SmState Unit where
  reg := fun w k =>
    if w = ⟨"p", 1⟩ ∧ !conds.getD 0 false then (values.getD 1 []).getD k false
    else if w = ⟨"q", 1⟩ ∧ !conds.getD 1 false then (values.getD 3 []).getD k false
    else s.reg w k
  mem := s.mem

def chainedCode : Code chainedResets Unit where
  regs := [⟨"p", 1⟩, ⟨"q", 1⟩]
  fn _ _ _ _ := false
  direct _ _ := false
  resets := [bitReset "p" "q" false, bitReset "q" "rst" true]
  commit := chainedCommit
  resets_regs := by decide
  regs_inputs := by decide

/-- The second part sees `q` reset and resets `p`, which one function leaves as it is. -/
theorem not_splitAgrees_chained : ¬ chainedCode.SplitAgrees 2 allSet fun _ _ => true := by
  intro h
  obtain ⟨hstate, -⟩ := h ⟨[], [], fun _ => none⟩ rfl (fun _ => 0) fun _ _ => false
  have hp := congrFun (congrFun (congrArg SmState.reg hstate) ⟨"p", 1⟩) 0
  exact Bool.noConfusion (show false = true from hp)

end Examples

end Yosys.Rtlil
