import Sv2ghdl.Graph.Memo
import Sv2ghdl.Graph.Flood

/-!
# Evaluation of a netlist forward and backward

`bfit/prototypes/demand_eval.c`: a netlist with registers is evaluated for a number of cycles, all nodes in every
cycle, or only what the output needs, from the output backward with a memo, or only the nodes of its cone.
-/

open Relation

namespace Bfit.Demand

inductive Kind where
  | input | reg | gate
  deriving DecidableEq, Repr

inductive Op where
  | xor2 | sumn | inc
  deriving DecidableEq, Repr

structure Node where
  kind : Kind
  op : Op
  a0 : Nat
  a1 : Nat
  npred : Nat
  poff : Nat
  deriving DecidableEq, Repr

namespace Node

variable (nd : Node) (preds : List Nat)

/-- The nodes whose values a gate gets, in order. -/
def args : List Nat :=
  match nd.op with
  | .sumn => (List.range nd.npred).map fun k => preds.getD (nd.poff + k) 0
  | _ => [nd.a0, nd.a1]

def gateEval (p0 p1 : UInt8) (pv : List UInt8) : UInt8 :=
  match nd.op with
  | .xor2 => p0 ^^^ p1
  | .inc => p0 + 1
  | .sumn => (pv.foldl (fun s v => s + v.toUInt32) (0 : UInt32)).toUInt8

/-- `gate_eval` at the values of the arguments. -/
def apply (vs : List UInt8) : UInt8 :=
  match nd.op with
  | .sumn => nd.gateEval 0 0 vs
  | _ => nd.gateEval (vs.getD 0 0) (vs.getD 1 0) []

end Node

/-- A netlist, every gate after the nodes that it reads; `tmp` has room for the arguments of a sum. -/
structure Net where
  node : List Node
  preds : List Nat
  gates : ∀ (n : Nat) (nd : Node), node[n]? = some nd → nd.kind = .gate → ∀ a ∈ nd.args preds, a < n
  regs : ∀ (n : Nat) (nd : Node), node[n]? = some nd → nd.kind = .reg → nd.a0 < node.length
  xors : ∀ nd ∈ node, nd.kind = .gate → nd.op = .xor2 → 1 < nd.npred
  sums : ∀ nd ∈ node, nd.kind = .gate → nd.op = .sumn → nd.npred ≤ 64

def stim (t i : Nat) : UInt8 := ((UInt32.ofNat t * 2654435761 + UInt32.ofNat i * 40503) >>> 3).toUInt8

/-! ## Forward -/

namespace Net

variable (net : Net)

/-- The value of the node `n` in the cycle `t`, with the values of the nodes before it. -/
def update (t : Nat) (cur : Nat → UInt8) (n : Nat) : Nat → UInt8 :=
  match net.node[n]? with
  | none => cur
  | some nd =>
    match nd.kind with
    | .input => Function.update cur n (stim t nd.a0)
    | .reg => cur
    | .gate => Function.update cur n (nd.apply ((nd.args net.preds).map cur))

def sweep (ns : List Nat) (t : Nat) (cur : Nat → UInt8) : Nat → UInt8 := ns.foldl (net.update t) cur

def isKind (k : Kind) (n : Nat) : Bool := (net.node[n]?).any fun nd => nd.kind = k

/-- The registers take the values of the cycle. -/
def latch (ns : List Nat) (cur : Nat → UInt8) (n : Nat) : UInt8 :=
  match net.node[n]? with
  | none => cur n
  | some nd => if n ∈ ns ∧ nd.kind = .reg then cur nd.a0 else cur n

/-- The cycles from `t` on over the nodes `ns`: what `out` is in each, and how many gates are evaluated. -/
def run (ns : List Nat) (out : Nat) : Nat → Nat → (Nat → UInt8) → List UInt8 × Nat
  | 0, _, _ => ([], 0)
  | cycles + 1, t, cur =>
    let cur := net.sweep ns t cur
    let (outs, evals) := run ns out cycles (t + 1) (net.latch ns cur)
    (cur out :: outs, (ns.filter (net.isKind .gate)).length + evals)

def runPush (out cycles : Nat) : List UInt8 × Nat := net.run (List.range net.node.length) out cycles 0 fun _ => 0

/-! ## Backward -/

/-- Before the first cycle all is 0. -/
def before (p : Nat × Int) : Option UInt8 := if p.2 < 0 then some 0 else none

/-- What `value` calls itself for. -/
def reads (p : Nat × Int) : List (Nat × Int) :=
  match net.node[p.1]? with
  | none => []
  | some nd =>
    match nd.kind with
    | .input => []
    | .reg => [(nd.a0, p.2 - 1)]
    | .gate => (nd.args net.preds).map fun a => (a, p.2)

def combine (p : Nat × Int) (vs : List UInt8) : UInt8 :=
  match net.node[p.1]? with
  | none => 0
  | some nd =>
    match nd.kind with
    | .input => stim p.2.toNat nd.a0
    | .reg => vs.getD 0 0
    | .gate => nd.apply vs

/-- The place of a node and a cycle in `M` and `done`. -/
def place (cycles : Nat) (p : Nat × Int) : Nat := p.1 * cycles + p.2.toNat

/-- The cycles in which the output is observed: the last one, or every `stride`-th. -/
def observed (cycles : Nat) (stride : Int) : List Int :=
  if stride < 0 then [cycles - 1]
  else (List.range' 0 ((cycles + stride.toNat - 1) / stride.toNat) stride.toNat).map Int.ofNat

/-- What is observed, and `pull_evals`. -/
def runPull (out cycles : Nat) (stride : Int) (fuel : Nat) : Option (List UInt8 × Nat) :=
  (Memo.evalRoots before net.reads net.combine (place cycles) fuel
    ((observed cycles stride).map fun t => (out, t))).map fun r => (r.1, r.2.length)

/-! ## The cone -/

/-- The nodes that a node puts on the stack. -/
def coneReads (n : Nat) : List Nat :=
  match net.node[n]? with
  | none => []
  | some nd =>
    match nd.kind with
    | .input => []
    | .reg => [nd.a0]
    | .gate =>
      match nd.op with
      | .sumn => nd.args net.preds
      | _ => if 1 < nd.npred then [nd.a0, nd.a1] else [nd.a0]

def buildCone (out : Nat) : Option (List Nat) :=
  (Flood.reached net.coneReads net.node.length out).map fun marks =>
    (List.range net.node.length).filter (· ∈ marks)

def runCone (out cycles : Nat) : Option (List UInt8 × Nat) :=
  (net.buildCone out).map fun cone => net.run cone out cycles 0 fun _ => 0

/-! ## One cycle -/

section Sweep

variable {net} {ns : List Nat} {t n a : Nat} {nd : Node} {cur : Nat → UInt8}

theorem update_of_ne (h : a ≠ n) : net.update t cur n a = cur a := by
  unfold update
  cases net.node[n]? with
  | none => rfl
  | some nd =>
    cases hkind : nd.kind with
    | reg => simp only [hkind]
    | input | gate => simp only [hkind, Function.update_of_ne h]

theorem sweep_of_not_mem (h : a ∉ ns) : net.sweep ns t cur a = cur a := by
  induction ns generalizing cur with
  | nil => rfl
  | cons n ns ih =>
    rw [List.mem_cons, not_or] at h
    show net.sweep ns t (net.update t cur n) a = cur a
    rw [ih h.2, update_of_ne h.1]

/-- When its turn comes, a node finds the values of the nodes before it as they stay. -/
theorem sweep_split (hns : ns.Pairwise (· < ·)) (hn : n ∈ ns) (t : Nat) (cur : Nat → UInt8) :
    ∃ c, net.sweep ns t cur n = net.update t c n n ∧ (∀ a < n, net.sweep ns t cur a = c a) ∧ c n = cur n := by
  obtain ⟨l₁, l₂, rfl⟩ := List.append_of_mem hn
  obtain ⟨-, hright, hcross⟩ := List.pairwise_append.mp hns
  have hafter := (List.pairwise_cons.mp hright).1
  have hrun : net.sweep (l₁ ++ n :: l₂) t cur = net.sweep l₂ t (net.update t (net.sweep l₁ t cur) n) := by
    simp [sweep]
  have hbefore : n ∉ l₁ := fun h => (hcross n h n List.mem_cons_self).false
  refine ⟨net.sweep l₁ t cur, ?_, fun a ha => ?_, sweep_of_not_mem hbefore⟩
  · rw [hrun, sweep_of_not_mem fun h => (hafter n h).false]
  · rw [hrun, sweep_of_not_mem fun h => (hafter a h).not_gt ha, update_of_ne ha.ne]

theorem sweep_input (hns : ns.Pairwise (· < ·)) (hn : n ∈ ns) (hnd : net.node[n]? = some nd)
    (hkind : nd.kind = .input) : net.sweep ns t cur n = stim t nd.a0 := by
  obtain ⟨c, hself, -, -⟩ := sweep_split hns hn t cur
  rw [hself, update, hnd]
  simp only [hkind, Function.update_self]

theorem sweep_gate (hns : ns.Pairwise (· < ·)) (hn : n ∈ ns) (hnd : net.node[n]? = some nd)
    (hkind : nd.kind = .gate) :
    net.sweep ns t cur n = nd.apply ((nd.args net.preds).map (net.sweep ns t cur)) := by
  obtain ⟨c, hself, hbelow, -⟩ := sweep_split hns hn t cur
  rw [hself, update, hnd]
  simp only [hkind, Function.update_self]
  congr 1
  exact List.map_congr_left fun a ha => (hbelow a (net.gates n nd hnd hkind a ha)).symm

theorem sweep_reg (hns : ns.Pairwise (· < ·)) (hn : n ∈ ns) (hnd : net.node[n]? = some nd)
    (hkind : nd.kind = .reg) : net.sweep ns t cur n = cur n := by
  obtain ⟨c, hself, -, hkeep⟩ := sweep_split hns hn t cur
  rw [hself, update, hnd]
  simp only [hkind, hkeep]

end Sweep

/-! ## All cycles -/

/-- The values before the cycle `t`. -/
def start (ns : List Nat) : Nat → Nat → UInt8
  | 0 => fun _ => 0
  | t + 1 => net.latch ns (net.sweep ns t (start ns t))

/-- The values in the cycle `t`. -/
def after (ns : List Nat) (t : Nat) : Nat → UInt8 := net.sweep ns t (net.start ns t)

theorem run_eq (ns : List Nat) (out cycles t : Nat) :
    net.run ns out cycles t (net.start ns t) =
      ((List.range cycles).map fun i => net.after ns (t + i) out,
        cycles * (ns.filter (net.isKind .gate)).length) := by
  induction cycles generalizing t with
  | zero => simp [run]
  | succ cycles ih =>
    have hrest : net.run ns out cycles (t + 1) (net.latch ns (net.sweep ns t (net.start ns t))) = _ := ih (t + 1)
    rw [run]
    dsimp only
    rw [hrest, List.range_succ_eq_map, List.map_cons, List.map_map, Nat.succ_mul,
      Nat.add_comm (cycles * _)]
    refine Prod.ext (congrArg (_ :: ·) (List.map_congr_left fun i _ => ?_)) rfl
    rw [Nat.add_right_comm]
    rfl

section After

variable {net} {ns : List Nat} {t n : Nat} {nd : Node}

theorem after_reg_zero (hns : ns.Pairwise (· < ·)) (hn : n ∈ ns) (hnd : net.node[n]? = some nd)
    (hkind : nd.kind = .reg) : net.after ns 0 n = 0 := sweep_reg hns hn hnd hkind

theorem after_reg_succ (hns : ns.Pairwise (· < ·)) (hn : n ∈ ns) (hnd : net.node[n]? = some nd)
    (hkind : nd.kind = .reg) : net.after ns (t + 1) n = net.after ns t nd.a0 := by
  rw [after, sweep_reg hns hn hnd hkind, start, latch, hnd]
  exact if_pos ⟨hn, hkind⟩

/-- A gate does not look at the arguments that its cone leaves out. -/
theorem apply_congr {f g : Nat → UInt8} (hnd : net.node[n]? = some nd) (hkind : nd.kind = .gate)
    (h : ∀ a ∈ net.coneReads n, f a = g a) :
    nd.apply ((nd.args net.preds).map f) = nd.apply ((nd.args net.preds).map g) := by
  rw [coneReads, hnd] at h
  simp only [hkind] at h
  cases hop : nd.op with
  | sumn =>
    simp only [hop] at h
    rw [List.map_congr_left h]
  | xor2 =>
    simp only [hop, if_pos (net.xors nd (List.mem_of_getElem? hnd) hkind hop)] at h
    have hargs : nd.args net.preds = [nd.a0, nd.a1] := by rw [Node.args, hop]
    rw [hargs, List.map_congr_left h]
  | inc =>
    simp only [hop] at h
    have ha : f nd.a0 = g nd.a0 := h nd.a0 (by split_ifs <;> simp)
    simp [Node.apply, Node.args, Node.gateEval, hop, ha]

theorem mem_args_of_coneReads {a : Nat} (hnd : net.node[n]? = some nd) (hkind : nd.kind = .gate)
    (h : a ∈ net.coneReads n) : a ∈ nd.args net.preds := by
  rw [coneReads, hnd] at h
  simp only [hkind] at h
  cases hop : nd.op with
  | sumn =>
    simp only [hop] at h
    exact h
  | xor2 | inc =>
    simp only [hop] at h
    have hargs : nd.args net.preds = [nd.a0, nd.a1] := by rw [Node.args, hop]
    rw [hargs]
    split_ifs at h
    · exact h
    · exact List.mem_cons.mpr (.inl (List.mem_singleton.mp h))

section Closed

variable (hns : ns.Pairwise (· < ·)) (hlt : ∀ n ∈ ns, n < net.node.length)
  (hclosed : ∀ n ∈ ns, ∀ a ∈ net.coneReads n, a ∈ ns)
include hns hlt hclosed

theorem after_eq_of_regs (hregs : ∀ n ∈ ns, ∀ nd, net.node[n]? = some nd → nd.kind = .reg →
    net.after ns t n = net.after (List.range net.node.length) t n) (hn : n ∈ ns) :
    net.after ns t n = net.after (List.range net.node.length) t n := by
  have hall : (List.range net.node.length).Pairwise (· < ·) := List.pairwise_lt_range
  induction n using Nat.strong_induction_on with
  | _ n ih =>
    have hmem : n ∈ List.range net.node.length := List.mem_range.mpr (hlt n hn)
    obtain ⟨nd, hnd⟩ : ∃ nd, net.node[n]? = some nd := ⟨_, List.getElem?_eq_getElem (hlt n hn)⟩
    cases hkind : nd.kind with
    | input => exact (sweep_input hns hn hnd hkind).trans (sweep_input hall hmem hnd hkind).symm
    | reg => exact hregs n hn _ hnd hkind
    | gate =>
      rw [after, after, sweep_gate hns hn hnd hkind, sweep_gate hall hmem hnd hkind]
      refine apply_congr hnd hkind fun a ha => ih a ?_ (hclosed n hn a ha)
      exact net.gates n _ hnd hkind a (mem_args_of_coneReads hnd hkind ha)

/-- Nodes that are closed under what they read have the values that they have among all nodes. -/
theorem after_eq (hn : n ∈ ns) : net.after ns t n = net.after (List.range net.node.length) t n := by
  have hall : (List.range net.node.length).Pairwise (· < ·) := List.pairwise_lt_range
  induction t generalizing n with
  | zero =>
    refine after_eq_of_regs hns hlt hclosed (fun n hn nd hnd hkind => ?_) hn
    rw [after_reg_zero hns hn hnd hkind, after_reg_zero hall (List.mem_range.mpr (hlt n hn)) hnd hkind]
  | succ t ih =>
    refine after_eq_of_regs hns hlt hclosed (fun n hn nd hnd hkind => ?_) hn
    have hread : nd.a0 ∈ net.coneReads n := by simp [coneReads, hnd, hkind]
    rw [after_reg_succ hns hn hnd hkind, after_reg_succ hall (List.mem_range.mpr (hlt n hn)) hnd hkind,
      ih (hclosed n hn nd.a0 hread)]

end Closed

end After

theorem runPush_eq (out cycles : Nat) :
    net.runPush out cycles = ((List.range cycles).map fun t => net.after (List.range net.node.length) t out,
      cycles * ((List.range net.node.length).filter (net.isKind .gate)).length) := by
  have hrun := net.run_eq (List.range net.node.length) out cycles 0
  simp only [Nat.zero_add] at hrun
  exact hrun

/-! ## The values on demand -/

/-- What `value` gives for a node and a cycle. -/
def value (p : Nat × Int) : UInt8 :=
  if p.2 < 0 then 0 else net.after (List.range net.node.length) p.2.toNat p.1

/-- Every call is for an earlier cycle or, in the same cycle, for an earlier node. -/
def rank (p : Nat × Int) : Nat := if p.2 < 0 then 0 else p.2.toNat * net.node.length + p.1 + 1

variable {net} {out cycles : Nat}

theorem value_of_nat (n t : Nat) : net.value (n, t) = net.after (List.range net.node.length) t n := by
  rw [value, if_neg (by simp)]
  rfl

theorem nat_of_before {p : Nat × Int} (h : before p = none) : ∃ t : Nat, p.2 = t := by
  unfold before at h
  split_ifs at h with hneg
  exact Int.eq_ofNat_of_zero_le (not_lt.mp hneg)

/-- A node has the value that its reads give. -/
theorem value_step {n t : Nat} (hn : n < net.node.length) :
    net.value (n, t) = net.combine (n, t) ((net.reads (n, t)).map net.value) := by
  have hall : (List.range net.node.length).Pairwise (· < ·) := List.pairwise_lt_range
  have hmem : n ∈ List.range net.node.length := List.mem_range.mpr hn
  obtain ⟨nd, hnd⟩ : ∃ nd, net.node[n]? = some nd := ⟨_, List.getElem?_eq_getElem hn⟩
  rw [value_of_nat, combine, reads, hnd]
  cases hkind : nd.kind with
  | input =>
    simp only [hkind]
    exact sweep_input hall hmem hnd hkind
  | reg =>
    simp only [hkind]
    cases t with
    | zero =>
      rw [after_reg_zero hall hmem hnd hkind]
      rfl
    | succ t =>
      have hprev : ((t + 1 : Nat) : Int) - 1 = t := by omega
      rw [after_reg_succ hall hmem hnd hkind, hprev, List.map_singleton, value_of_nat]
      rfl
  | gate =>
    simp only [hkind, List.map_map]
    have hargs : (nd.args net.preds).map (net.value ∘ fun a => (a, (t : Int))) =
        (nd.args net.preds).map (net.after (List.range net.node.length) t) :=
      List.map_congr_left fun a _ => value_of_nat a t
    rw [hargs]
    exact sweep_gate hall hmem hnd hkind

theorem reads_lt {n t m : Nat} {u : Int} (hn : n < net.node.length) (h : (m, u) ∈ net.reads (n, t)) :
    m < net.node.length ∧ u ≤ t ∧ net.rank (m, u) < net.rank (n, t) := by
  obtain ⟨nd, hnd⟩ : ∃ nd, net.node[n]? = some nd := ⟨_, List.getElem?_eq_getElem hn⟩
  have hrank : net.rank (n, t) = t * net.node.length + n + 1 := by
    rw [rank, if_neg (by simp)]
    rfl
  rw [reads, hnd] at h
  cases hkind : nd.kind with
  | input =>
    simp only [hkind] at h
    cases h
  | reg =>
    simp only [hkind] at h
    obtain ⟨rfl, rfl⟩ := Prod.mk.inj (List.mem_singleton.mp h)
    have ha := net.regs n nd hnd hkind
    refine ⟨ha, by omega, ?_⟩
    rw [hrank, rank]
    split_ifs with hneg
    · omega
    · obtain ⟨k, rfl⟩ : ∃ k, t = k + 1 := ⟨t - 1, by omega⟩
      have hprev : (((k + 1 : Nat) : Int) - 1).toNat = k := by omega
      rw [hprev, Nat.succ_mul]
      omega
  | gate =>
    simp only [hkind] at h
    obtain ⟨a, ha, heq⟩ := List.mem_map.mp h
    obtain ⟨rfl, rfl⟩ := Prod.mk.inj heq
    have hlt := net.gates n nd hnd hkind a ha
    refine ⟨hlt.trans hn, le_refl _, ?_⟩
    rw [hrank, rank, if_neg (by simp)]
    simp only [Int.toNat_natCast]
    omega

theorem solution (net : Net) (cycles : Nat) : Memo.Solution before net.reads net.combine (place cycles)
    (fun p => p.1 < net.node.length ∧ p.2 < cycles) net.rank net.value where
  leaf p v h := by
    unfold before at h
    unfold value
    split_ifs at h ⊢
    exact Option.some.inj h
  step p hp h := by
    obtain ⟨n, t⟩ := p
    obtain ⟨t, rfl⟩ := nat_of_before h
    exact value_step hp.1
  closed p hp h q hq := by
    obtain ⟨n, t⟩ := p
    obtain ⟨t, rfl⟩ := nat_of_before h
    obtain ⟨hm, hle, hlt⟩ := reads_lt hp.1 hq
    exact ⟨⟨hm, hle.trans_lt hp.2⟩, hlt⟩
  inj p q hp hq hp' hq' heq := by
    obtain ⟨n, t⟩ := p
    obtain ⟨m, u⟩ := q
    obtain ⟨t, rfl⟩ := nat_of_before hp'
    obtain ⟨u, rfl⟩ := nat_of_before hq'
    have ht : t < cycles := Int.ofNat_lt.mp hp.2
    have hu : u < cycles := Int.ofNat_lt.mp hq.2
    have hplace : n * cycles + t = m * cycles + u := heq
    have hn : n = m := by
      have hdiv := congrArg (· / cycles) hplace
      simpa only [Nat.add_comm (_ * cycles), Nat.add_mul_div_right _ _ (Nat.zero_lt_of_lt ht), Nat.div_eq_of_lt ht,
        Nat.div_eq_of_lt hu, Nat.zero_add] using hdiv
    subst hn
    have : t = u := by omega
    rw [this]

theorem observed_range {stride : Int} (hcycles : 0 < cycles) (hstride : stride ≠ 0) {t : Int}
    (ht : t ∈ observed cycles stride) : ∃ k : Nat, t = k ∧ k < cycles := by
  unfold observed at ht
  split_ifs at ht with hneg
  · exact ⟨cycles - 1, by rw [List.mem_singleton.mp ht]; omega, by omega⟩
  · obtain ⟨k, hk, rfl⟩ := List.mem_map.mp ht
    obtain ⟨i, hi, rfl⟩ := List.mem_range'.mp hk
    have hpos : 0 < stride.toNat := by omega
    have hle : (i + 1) * stride.toNat ≤ cycles + stride.toNat - 1 := (Nat.le_div_iff_mul_le hpos).mp hi
    refine ⟨0 + stride.toNat * i, rfl, ?_⟩
    rw [Nat.succ_mul, Nat.mul_comm i] at hle
    omega

theorem coneReads_lt {n a : Nat} (hn : n < net.node.length) (h : a ∈ net.coneReads n) : a < net.node.length := by
  obtain ⟨nd, hnd⟩ : ∃ nd, net.node[n]? = some nd := ⟨_, List.getElem?_eq_getElem hn⟩
  cases hkind : nd.kind with
  | input =>
    rw [coneReads, hnd] at h
    simp only [hkind] at h
    cases h
  | reg =>
    rw [coneReads, hnd] at h
    simp only [hkind] at h
    rw [List.mem_singleton.mp h]
    exact net.regs n nd hnd hkind
  | gate => exact (net.gates n nd hnd hkind a (mem_args_of_coneReads hnd hkind h)).trans hn

/-- The cone is what the output reads, now or through registers, and the run over it gives the output of all nodes. -/
theorem cone_eq_push (net : Net) {out : Nat} (hout : out < net.node.length) (cycles : Nat) :
    ∃ cone, net.buildCone out = some cone ∧
      (∀ n, n ∈ cone ↔ ReflTransGen (fun a b => b ∈ net.coneReads a) out n) ∧
      net.runCone out cycles =
        some ((net.runPush out cycles).1, cycles * (cone.filter (net.isKind .gate)).length) := by
  have hclosed : ∀ a ∈ List.range net.node.length, ∀ b ∈ net.coneReads a, b ∈ List.range net.node.length :=
    fun a ha b hb => List.mem_range.mpr (coneReads_lt (List.mem_range.mp ha) hb)
  obtain ⟨marks, hmarks, -, hlt, hreach⟩ := Flood.reached_spec hclosed (List.mem_range.mpr hout)
  rw [List.length_range] at hmarks
  have hmem : ∀ n, n ∈ (List.range net.node.length).filter (· ∈ marks) ↔
      ReflTransGen (fun a b => b ∈ net.coneReads a) out n := by
    intro n
    rw [List.mem_filter, decide_eq_true_eq, ← hreach]
    exact ⟨fun h => h.2, fun h => ⟨hlt n h, h⟩⟩
  have hcone : net.buildCone out = some ((List.range net.node.length).filter (· ∈ marks)) := by
    rw [buildCone, hmarks]
    rfl
  refine ⟨_, hcone, hmem, ?_⟩
  have hsorted : ((List.range net.node.length).filter (· ∈ marks)).Pairwise (· < ·) :=
    List.pairwise_lt_range.filter _
  have hrun := net.run_eq ((List.range net.node.length).filter (· ∈ marks)) out cycles 0
  simp only [Nat.zero_add] at hrun
  have hvalues : ∀ t, net.after ((List.range net.node.length).filter (· ∈ marks)) t out =
      net.after (List.range net.node.length) t out := fun t =>
    after_eq hsorted (fun n hn => List.mem_range.mp (List.mem_filter.mp hn).1)
      (fun n hn a ha => (hmem a).mpr (((hmem n).mp hn).tail ha)) ((hmem out).mpr .refl)
  rw [runCone, hcone, runPush_eq]
  refine congrArg some (hrun.trans ?_)
  rw [List.map_congr_left fun t _ => hvalues t]

end Net

/-! ## The netlist of the benchmark -/

/-- A node may stand at the place `n`. -/
structure Node.Placed (nd : Node) (preds : List Nat) (n : Nat) : Prop where
  args : nd.kind = .gate → ∀ a ∈ nd.args preds, a < n
  reg : nd.kind = .reg → nd.a0 < n
  xor2 : nd.kind = .gate → nd.op = .xor2 → 1 < nd.npred
  sumn : nd.kind = .gate → nd.op = .sumn → nd.npred ≤ 64

theorem Node.placed_input {nd : Node} {preds : List Nat} {n : Nat} (h : nd.kind = .input) : nd.Placed preds n := by
  constructor <;> intro hkind <;> rw [h] at hkind <;> cases hkind

theorem Node.placed_reg {nd : Node} {preds : List Nat} {n : Nat} (h : nd.kind = .reg) (ha : nd.a0 < n) :
    nd.Placed preds n := by
  refine ⟨fun hkind => ?_, fun _ => ha, fun hkind => ?_, fun hkind => ?_⟩ <;> rw [h] at hkind <;> cases hkind

theorem Node.placed_gate {nd : Node} {preds : List Nat} {n : Nat} (h : nd.kind = .gate)
    (hargs : ∀ a ∈ nd.args preds, a < n) (hxor2 : nd.op = .xor2 → 1 < nd.npred)
    (hsumn : nd.op = .sumn → nd.npred ≤ 64) : nd.Placed preds n := by
  refine ⟨fun _ => hargs, fun hkind => ?_, fun _ => hxor2, fun _ => hsumn⟩
  rw [h] at hkind
  cases hkind

def Ordered (preds : List Nat) (node : List Node) : Prop :=
  ∀ (n : Nat) (nd : Node), node[n]? = some nd → nd.Placed preds n

/-- Every stage of the pipeline is a layer of gates and a layer of registers; the result has the new registers. -/
def layer (width : Nat) (s : List Node × List Nat) : List Node × List Nat :=
  let gates := (List.range width).map fun i =>
    ⟨.gate, .xor2, s.2.getD i 0, s.2.getD ((i + 1) % width) 0, 2, 0⟩
  let regs := (List.range width).map fun i => ⟨.reg, .xor2, s.1.length + i, 0, 0, 0⟩
  (s.1 ++ gates ++ regs, (List.range width).map fun i => s.1.length + width + i)

def inputs (width : Nat) : List Node := (List.range width).map fun i => ⟨.input, .xor2, i, 0, 0, 0⟩

def pipeline (width depth : Nat) : List Node × List Nat :=
  (layer width)^[depth] (inputs width, List.range width)

/-- A counter that nothing observed reads. -/
def counter (width : Nat) (node : List Node) (d : Nat) : List Node :=
  node ++ [⟨.gate, .inc, d % width, 0, 1, 0⟩, ⟨.reg, .xor2, node.length, 0, 0, 0⟩]

def buildNodes (depth dead width : Nat) : List Node :=
  (List.range dead).foldl (counter width) ((pipeline width depth).1 ++ [⟨.gate, .sumn, 0, 0, width, 0⟩])

section Build

variable {preds : List Nat} {node : List Node} {width : Nat}

theorem Ordered.append {more : List Node} (h : Ordered preds node)
    (hmore : ∀ (i : Nat) (nd : Node), more[i]? = some nd → nd.Placed preds (node.length + i)) :
    Ordered preds (node ++ more) := by
  intro n nd hnd
  rcases lt_or_ge n node.length with hlt | hge
  · exact h n nd (by rwa [List.getElem?_append_left hlt] at hnd)
  · rw [List.getElem?_append_right hge] at hnd
    have hplaced := hmore _ nd hnd
    rwa [Nat.add_sub_cancel' hge] at hplaced

theorem getElem?_range_map {f : Nat → Node} {i : Nat} {nd : Node} (h : ((List.range width).map f)[i]? = some nd) :
    i < width ∧ f i = nd := by
  obtain ⟨hlt, hget⟩ := List.getElem?_eq_some_iff.mp h
  rw [List.length_map, List.length_range] at hlt
  rw [List.getElem_map, List.getElem_range] at hget
  exact ⟨hlt, hget⟩

/-- A pipeline in order, its last registers at hand. -/
structure Piped (preds : List Nat) (width : Nat) (s : List Node × List Nat) : Prop where
  ordered : Ordered preds s.1
  length : s.2.length = width
  lt : ∀ a ∈ s.2, a < s.1.length
  room : width ≤ s.1.length

theorem Piped.getD_lt {s : List Node × List Nat} (h : Piped preds width s) {i : Nat} (hi : i < width) :
    s.2.getD i 0 < s.1.length := by
  have hlt : i < s.2.length := by rw [h.length]; exact hi
  rw [List.getD_eq_getElem?_getD, List.getElem?_eq_getElem hlt]
  exact h.lt _ (List.getElem_mem hlt)

theorem piped_inputs (preds : List Nat) (width : Nat) : Piped preds width (inputs width, List.range width) where
  ordered n nd h := by
    obtain ⟨-, rfl⟩ := getElem?_range_map h
    exact Node.placed_input rfl
  length := List.length_range
  lt a ha := by simpa [inputs] using ha
  room := by simp [inputs]

theorem Piped.layer {s : List Node × List Nat} (h : Piped preds width s) : Piped preds width (layer width s) where
  ordered := by
    refine (h.ordered.append fun i nd hnd => ?_).append fun i nd hnd => ?_
    · obtain ⟨hi, rfl⟩ := getElem?_range_map hnd
      refine Node.placed_gate rfl (fun a ha => ?_) (fun _ => Nat.one_lt_two) fun hop => (by cases hop)
      have hnext : (i + 1) % width < width := Nat.mod_lt _ (by omega)
      rcases List.mem_pair.mp ha with rfl | rfl
      · exact (h.getD_lt hi).trans_le (Nat.le_add_right _ _)
      · exact (h.getD_lt hnext).trans_le (Nat.le_add_right _ _)
    · obtain ⟨hi, rfl⟩ := getElem?_range_map hnd
      refine Node.placed_reg rfl ?_
      simp only [List.length_append, List.length_map, List.length_range]
      omega
  length := by simp [Demand.layer]
  lt a ha := by
    obtain ⟨i, hi, rfl⟩ := List.mem_map.mp ha
    have := List.mem_range.mp hi
    simp only [Demand.layer, List.length_append, List.length_map, List.length_range]
    omega
  room := by
    simp only [Demand.layer, List.length_append, List.length_map, List.length_range]
    omega

theorem piped_pipeline (preds : List Nat) (width depth : Nat) : Piped preds width (pipeline width depth) := by
  unfold pipeline
  induction depth with
  | zero => exact piped_inputs preds width
  | succ depth ih =>
    rw [Function.iterate_succ_apply']
    exact ih.layer

theorem Ordered.counters {n : Nat} (h : Ordered preds node) (hpos : 0 < width) (hroom : width ≤ node.length) :
    Ordered preds ((List.range n).foldl (counter width) node) ∧
      node.length ≤ ((List.range n).foldl (counter width) node).length := by
  induction n with
  | zero => exact ⟨h, Nat.le_refl _⟩
  | succ n ih =>
    obtain ⟨hordered, hle⟩ := ih
    rw [List.range_succ, List.foldl_append]
    generalize (List.range n).foldl (counter width) node = node' at hordered hle
    have hmod := Nat.mod_lt n hpos
    refine ⟨hordered.append fun i nd hnd => ?_, ?_⟩
    · match i with
      | 0 =>
        cases hnd
        refine Node.placed_gate rfl (fun a ha => ?_) (fun hop => (by cases hop)) fun hop => (by cases hop)
        rcases List.mem_pair.mp ha with rfl | rfl <;> dsimp only <;> omega
      | 1 =>
        cases hnd
        exact Node.placed_reg rfl (Nat.lt_succ_self _)
      | i + 2 => simp at hnd
    · simp only [List.foldl_cons, List.foldl_nil, counter, List.length_append]
      omega

theorem Piped.withSum {s : List Node × List Nat} (h : Piped s.2 width s) (hwidth : width ≤ 64) :
    Ordered s.2 (s.1 ++ [⟨.gate, .sumn, 0, 0, width, 0⟩]) := by
  refine h.ordered.append fun i nd hnd => ?_
  obtain ⟨hi, hget⟩ := List.getElem?_eq_some_iff.mp hnd
  obtain rfl : i = 0 := by simpa using hi
  obtain rfl := hget
  refine Node.placed_gate rfl (fun a ha => ?_) (fun hop => (by cases hop)) fun _ => hwidth
  obtain ⟨k, hk, rfl⟩ := List.mem_map.mp ha
  have hstage := h.getD_lt (List.mem_range.mp hk)
  rwa [← Nat.zero_add k] at hstage

/-- What `build` makes is in order, when there are inputs and `tmp` has room for them. -/
theorem ordered_build (depth dead : Nat) (hpos : 0 < width) (hwidth : width ≤ 64) :
    Ordered (pipeline width depth).2 (buildNodes depth dead width) := by
  have hpiped := piped_pipeline (pipeline width depth).2 width depth
  refine ((hpiped.withSum hwidth).counters hpos ?_).1
  rw [List.length_append]
  exact hpiped.room.trans (Nat.le_add_right _ _)

end Build

/-- `build`; the output is the sum of the last stage. -/
def Net.build (depth dead width : Nat) (hpos : 0 < width) (hwidth : width ≤ 64) : Net where
  node := buildNodes depth dead width
  preds := (pipeline width depth).2
  gates n nd hnd := (ordered_build depth dead hpos hwidth n nd hnd).args
  regs n nd hnd hkind := ((ordered_build depth dead hpos hwidth n nd hnd).reg hkind).trans
    (List.getElem?_eq_some_iff.mp hnd).1
  xors nd hnd := by
    obtain ⟨n, hn⟩ := List.mem_iff_getElem?.mp hnd
    exact (ordered_build depth dead hpos hwidth n nd hn).xor2
  sums nd hnd := by
    obtain ⟨n, hn⟩ := List.mem_iff_getElem?.mp hnd
    exact (ordered_build depth dead hpos hwidth n nd hn).sumn

def Net.outOf (depth width : Nat) : Nat := (pipeline width depth).1.length

namespace Net

theorem outOf_lt (depth dead : Nat) {width : Nat} (hpos : 0 < width) (hwidth : width ≤ 64) :
    outOf depth width < (build depth dead width hpos hwidth).node.length := by
  have hpiped := piped_pipeline (pipeline width depth).2 width depth
  have hordered : Ordered (pipeline width depth).2
      ((pipeline width depth).1 ++ [⟨.gate, .sumn, 0, 0, width, 0⟩]) := hpiped.withSum hwidth
  have hroom : width ≤ ((pipeline width depth).1 ++ [(⟨.gate, .sumn, 0, 0, width, 0⟩ : Node)]).length := by
    rw [List.length_append]
    exact hpiped.room.trans (Nat.le_add_right _ _)
  refine lt_of_lt_of_le ?_ (hordered.counters hpos hroom).2
  rw [outOf, List.length_append]
  exact Nat.lt_succ_self _

/-- Two inputs, one stage and one counter. -/
def tiny : Net := build 1 1 2 Nat.two_pos (Nat.le_of_ble_eq_true rfl)

theorem cone_eq_push_tiny : ∃ cone, tiny.buildCone (outOf 1 2) = some cone ∧
    (∀ n, n ∈ cone ↔ ReflTransGen (fun a b => b ∈ tiny.coneReads a) (outOf 1 2) n) ∧
    tiny.runCone (outOf 1 2) 6 =
      some ((tiny.runPush (outOf 1 2) 6).1, 6 * (cone.filter (tiny.isKind .gate)).length) :=
  cone_eq_push tiny (outOf_lt 1 1 Nat.two_pos (Nat.le_of_ble_eq_true rfl)) 6

end Net

end Bfit.Demand
