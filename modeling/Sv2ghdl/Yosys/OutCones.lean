import Sv2ghdl.Graph.Worklist
import Sv2ghdl.Yosys.Program
import Sv2ghdl.Yosys.Shape
import Sv2ghdl.Yosys.Topo

/-!
# The cones of the outputs

The walk of `yosys/gen_statemachine.cpp` that finds for each cell which outputs it feeds, and the
code that evaluates the cells of the outputs that are live: the shared cells first, then a bucket of
cells for each output.
-/

open PostOrder

namespace Yosys.Rtlil

/-! ## The marks of a cell -/

/-- A bit for each of the first 256 outputs; any other output saturates the mask. -/
structure FeedMask where
  w : BitVec 256
  deriving DecidableEq

namespace FeedMask

def zero : FeedMask := ⟨0⟩

def sat : FeedMask := ⟨BitVec.allOnes 256⟩

def set (m : FeedMask) (i : Nat) : FeedMask := if i < 256 then ⟨m.w ||| BitVec.twoPow 256 i⟩ else sat

def has (m : FeedMask) (i : Nat) : Bool := if i < 256 then m.w.getLsbD i else true

def pop (m : FeedMask) : Nat := (List.range 256).countP m.w.getLsbD

theorem has_set (m : FeedMask) (i : Nat) {j : Nat} (hj : j < 256) :
    (m.set i).has j = (m.has j || j = i || 256 ≤ i) := by
  unfold set has
  rw [if_pos hj, if_pos hj]
  by_cases hi : i < 256
  · have hle : ¬ 256 ≤ i := by omega
    rw [if_pos hi, BitVec.getLsbD_or, BitVec.getLsbD_twoPow]
    simp [hle, hj, hi, eq_comm]
  · have hle : 256 ≤ i := by omega
    rw [if_neg hi, sat, BitVec.getLsbD_allOnes]
    simp [hle, hj]

theorem has_zero {j : Nat} (hj : j < 256) : zero.has j = false := by
  simp [has, hj, zero]

theorem has_of_le (m : FeedMask) {i : Nat} (hi : 256 ≤ i) : m.has i = true := if_neg (by omega)

theorem pop_eq_one {m : FeedMask} :
    m.pop = 1 ↔ ∃ i < 256, m.has i = true ∧ ∀ j < 256, m.has j = true → j = i := by
  have hhas : ∀ j < 256, m.has j = m.w.getLsbD j := fun j hj => if_pos hj
  unfold pop
  rw [List.countP_eq_length_filter, List.length_eq_one_iff]
  constructor
  · intro ⟨i, h⟩
    have hmem : ∀ j, j ∈ [i] ↔ j < 256 ∧ m.w.getLsbD j = true := by
      intro j
      rw [← h, List.mem_filter, List.mem_range]
    obtain ⟨hi, hbit⟩ := (hmem i).mp (List.mem_singleton_self i)
    refine ⟨i, hi, (hhas i hi).trans hbit, ?_⟩
    intro j hj hjbit
    exact List.mem_singleton.mp ((hmem j).mpr ⟨hj, (hhas j hj).symm.trans hjbit⟩)
  · intro ⟨i, hi, hbit, hone⟩
    refine ⟨i, ?_⟩
    have hperm : (List.range 256).filter m.w.getLsbD = [i] := by
      apply List.perm_singleton.mp
      apply (List.perm_ext_iff_of_nodup (List.nodup_range.filter _) (List.nodup_singleton i)).mpr
      intro j
      rw [List.mem_filter, List.mem_range, List.mem_singleton]
      constructor
      · intro ⟨hj, hjbit⟩
        exact hone j hj ((hhas j hj).trans hjbit)
      · intro hj
        rw [hj]
        exact ⟨hi, (hhas i hi).symm.trans hbit⟩
    exact hperm

end FeedMask

/-! ## The netlist -/

/-- The input ports of a cell, each with its bits. -/
def Instance.reads (c : Instance) : List (PortId × SigSpec) :=
  c.connections.filter fun conn => conn.1 ≠ .Y ∧ c.output ≠ some conn.1

/-- The combinational part of a module, with the list in which its cells are emitted.  No net has two
    drivers. -/
structure Combinational extends Netlist where
  comb : List Instance
  sorted : List Instance
  outputs : List Wire
  connections : List (SigSpec × SigSpec)
  /-- `g_regbit`: the register that holds a net -/
  regbit : SigBit → Option String
  comb_perm : comb.Perm toNetlist.combCells
  sorted_eq : toNetlist.sorted comb = some sorted
  idem : ∀ b, sigmap (sigmap b) = sigmap b
  sigmap_const : ∀ s, sigmap (.const s) = .const s
  joined : ∀ cn ∈ connections, ∀ p ∈ cn.1.zip cn.2, sigmap p.1 = sigmap p.2
  single : ∀ c ∈ toNetlist.combCells, ∀ d ∈ toNetlist.combCells, ∀ b ∈ c.driven, ∀ b' ∈ d.driven,
    sigmap b = sigmap b' → c = d
  source : ∀ c ∈ toNetlist.combCells, ∀ b ∈ c.driven, ∃ w i, sigmap b = .wire w i ∧ w ∉ inputs ∧
    regbit (.wire w i) = none

namespace Combinational

variable (M : Combinational)

/-- The wire bits of a signal, as they are pushed. -/
def wireBits (sig : SigSpec) : SigSpec := (sig.map M.sigmap).filter fun b => !isConst b

/-- `bdrv`: the last cell of the list with an output on the net -/
def driver (b : SigBit) : Option Instance :=
  M.sorted.reverse.find? fun c => b ∈ c.driven.map M.sigmap

/-- `b.wire->port_input` -/
def isInput : SigBit → Bool
  | .wire w _ => w ∈ M.inputs
  | .const _ => false

def connmap (b : SigBit) : Option SigBit :=
  ((M.connections.flatMap fun cn => (cn.1.map M.sigmap).zip (cn.2.map M.sigmap)).filter fun p =>
    !isConst p.1 && !isConst p.2).reverse.lookup b

/-! ## The walk -/

structure Marks where
  outcone : List Instance
  outconeRegs : List String
  feeds : Instance → Option FeedMask

/-- A bit that is looked at for output `i`: the marks, and the bits that are pushed, the last first. -/
def visit (i : Nat) (b : SigBit) (t : Marks) : Marks × List SigBit :=
  match M.regbit b with
  | some name => ({ t with outconeRegs := t.outconeRegs.insert name }, [])
  | none =>
    if M.isInput b then (t, [])
    else
      let conn := (M.connmap b).toList
      match M.driver b with
      | none => (t, conn)
      | some c =>
        let fm := (t.feeds c).getD .zero
        if fm.has i ∧ c ∈ t.outcone then
          ({ t with feeds := Function.update t.feeds c (some fm) }, conn)
        else
          ({ t with
              outcone := t.outcone.insert c
              feeds := Function.update t.feeds c (some (fm.set i)) },
            (M.wireBits c.read).reverse ++ conn)

/-- The bits from which anything is pushed. -/
def keys : List SigBit :=
  (M.sorted.flatMap (fun c => c.driven.map M.sigmap) ++
    M.connections.flatMap fun cn => cn.1.map M.sigmap).dedup

def weight (b : SigBit) : Nat :=
  (M.connmap b).toList.length + ((M.driver b).map fun c => c.read.length).getD 0

def walkOutput (i : Nat) (w : Wire) (t : Marks) : Option Marks :=
  Worklist.walk (M.visit i) ((M.wireBits w.all).length + Worklist.pending M.weight M.keys []) []
    (M.wireBits w.all).reverse t

/-- The marks after the walks from all outputs. -/
def cones : Option Marks :=
  M.outputs.zipIdx.foldlM (fun t p => M.walkOutput p.2 p.1 t) ⟨[], [], fun _ => none⟩

/-! ## The code -/

/-- `sm_live_outputs` -/
def live (mask : BitVec 256) (i : Nat) : Bool := if i < 256 then mask.getLsbD i else true

namespace Marks

def fm (t : Marks) (c : Instance) : FeedMask := (t.feeds c).getD .sat

end Marks

def shared (t : Marks) : List Instance :=
  M.sorted.filter fun c => c ∈ t.outcone ∧ (t.fm c).pop ≠ 1

/-- The cells that feed output `i` only. -/
def bucket (t : Marks) (i : Nat) : List Instance :=
  M.sorted.filter fun c => c ∈ t.outcone ∧ (t.fm c).pop = 1 ∧ (t.fm c).has i

/-- `emit_outcone_cells`: the cells that are evaluated, in order -/
def evaluated (t : Marks) (mask : BitVec 256) : List Instance :=
  M.shared t ++ (List.range (min M.outputs.length 256)).flatMap fun i =>
    if mask.getLsbD i then M.bucket t i else []

/-- The bits that the cells compute, and at which ports they take the bits of a net without the
    redirection (the operands that are materialized). -/
structure Cells where
  fn : Instance → List (List Bool) → Nat → Bool
  direct : Instance → PortId → Bool

def sources (direct : Bool) (sig : SigSpec) : SigSpec :=
  if direct then sig.map M.sigmap else M.nets.resolve sig

/-- The code of a cell, on the wires. -/
def exec (F : Cells) (σ : Valuation) (c : Instance) : Valuation :=
  let out := F.fn c (c.reads.map fun conn =>
    (M.sources (F.direct c conn.1) conn.2).map (SigBit.value σ))
  fun w i => ((c.driven.zipIdx.reverse.lookup (.wire w i)).map out).getD (σ w i)

def run (F : Cells) (cells : List Instance) (σ : Valuation) : Valuation := cells.foldl (M.exec F) σ

/-- What `emit_output_one` copies to an output. -/
def output (σ : Valuation) (w : Wire) : Nat := value σ (M.sources (isWide w.width) w.all)

/-! ## What the outputs need -/

/-- The nets that a signal depends on. -/
inductive Needs (root : SigSpec) : SigBit → Prop
  | port {b : SigBit} (h : b ∈ root) : Needs root (M.sigmap b)
  | read {c : Instance} {b b' : SigBit} (hc : c ∈ M.combCells) (hb : b ∈ c.driven)
      (h : Needs root (M.sigmap b)) (hb' : b' ∈ c.read) : Needs root (M.sigmap b')

def Feeds (root : SigSpec) (c : Instance) : Prop :=
  c ∈ M.combCells ∧ ∃ b ∈ c.driven, M.Needs root (M.sigmap b)

/-- A cell feeds output `i`. -/
def FeedsAt (i : Nat) (c : Instance) : Prop := ∃ w, M.outputs[i]? = some w ∧ M.Feeds w.all c

/-- Of the first 256 outputs a cell feeds one. -/
def Alone (i : Nat) (c : Instance) : Prop :=
  i < 256 ∧ M.FeedsAt i c ∧ ∀ j < 256, M.FeedsAt j c → j = i

/-- What is evaluated under a mask is all that the live outputs need, in an order that is as good as
    that of `sorted`, and they get what they get when all are live. -/
structure PrunedFor (t : Marks) : Prop where
  value : ∀ F σ mask i w, M.outputs[i]? = some w → live mask i = true →
    M.output (M.run F (M.evaluated t mask) σ) w =
      M.output (M.run F (M.evaluated t (BitVec.allOnes 256)) σ) w
  evaluated : ∀ mask i c, live mask i = true → M.FeedsAt i c → c ∈ M.evaluated t mask
  order : ∀ mask c d, c ∈ M.evaluated t mask → M.Reads c d → Before d c M.sorted →
    Before d c (M.evaluated t mask)

/-- No cell feeds exactly one of the first 256 outputs and another output too. -/
def Unsplit : Prop := ∀ c i j, M.Alone i c → 256 ≤ j → ¬ M.FeedsAt j c

/-- Dead outputs are pruned, and nothing else. -/
def Pruned : Prop := ∃ t, M.cones = some t ∧ M.PrunedFor t

/-! ## One walk -/

/-- The test at which a visit turns back. -/
def Marked (i : Nat) (t : Marks) (c : Instance) : Prop :=
  c ∈ t.outcone ∧ ((t.feeds c).getD .zero).has i = true

/-- The walk from output `i` along what the signal `root` needs, when the marks were `t₀` at its
    start. -/
structure Inv (i : Nat) (root : SigSpec) (t₀ : Marks) (seen stack : List SigBit) (t : Marks) :
    Prop where
  needs : ∀ b, b ∈ seen ∨ b ∈ stack → M.Needs root b
  roots : ∀ b ∈ M.wireBits root, b ∈ seen ∨ b ∈ stack
  driver : ∀ b ∈ seen, ∀ c, M.driver b = some c → Marked i t c
  reads : ∀ c, Marked i t c → Marked i t₀ c ∨
    M.Feeds root c ∧ ∀ b ∈ M.wireBits c.read, b ∈ seen ∨ b ∈ stack
  kept : ∀ c, Marked i t₀ c → Marked i t c
  fresh : ∀ c, Marked i t c → ¬ Marked i t₀ c → t.feeds c = some (((t₀.feeds c).getD .zero).set i)
  same : ∀ c, Marked i t₀ c ∨ ¬ Marked i t c → t.feeds c = t₀.feeds c ∧
    (c ∈ t.outcone ↔ c ∈ t₀.outcone)
  entry : ∀ c ∈ t.outcone, (t.feeds c).isSome
  regs : ∀ b ∈ seen, ∀ name, M.regbit b = some name → name ∈ t.outconeRegs
  regs_kept : ∀ name ∈ t₀.outconeRegs, name ∈ t.outconeRegs

variable {M}

theorem mem_sorted {c : Instance} : c ∈ M.sorted ↔ c ∈ M.combCells := by
  obtain ⟨l, hl, hperm⟩ := Netlist.sorted_perm M.comb_perm
  rw [M.sorted_eq] at hl
  cases hl
  exact (hperm.trans M.comb_perm).mem_iff

theorem driver_eq_some {b : SigBit} {c : Instance} :
    M.driver b = some c ↔ c ∈ M.combCells ∧ ∃ b' ∈ c.driven, M.sigmap b' = b := by
  unfold driver
  constructor
  · intro h
    have hmem := List.mem_of_find?_eq_some h
    have hb := List.find?_some h
    rw [decide_eq_true_eq, List.mem_map] at hb
    exact ⟨mem_sorted.mp (List.mem_reverse.mp hmem), hb⟩
  · intro ⟨hc, b', hb', hnet⟩
    have hmem : c ∈ M.sorted.reverse := List.mem_reverse.mpr (mem_sorted.mpr hc)
    cases hfind : M.sorted.reverse.find? fun c => b ∈ c.driven.map M.sigmap with
    | none =>
      have hnone := List.find?_eq_none.mp hfind c hmem
      exact absurd (decide_eq_true (List.mem_map.mpr ⟨b', hb', hnet⟩)) hnone
    | some d =>
      have hd := List.find?_some hfind
      rw [decide_eq_true_eq, List.mem_map] at hd
      obtain ⟨b'', hb'', hnet'⟩ := hd
      have hdc := mem_sorted.mp (List.mem_reverse.mp (List.mem_of_find?_eq_some hfind))
      rw [M.single d hdc c hc b'' hb'' b' hb' (hnet'.trans hnet.symm)]

theorem connmap_eq {b b' : SigBit} (h : M.connmap b = some b') : b' = b := by
  have hlookup := List.lookup_eq_some_iff.mp h
  obtain ⟨l₁, l₂, heq, -⟩ := hlookup
  have hpair : (b, b') ∈ M.connections.flatMap fun cn =>
      (cn.1.map M.sigmap).zip (cn.2.map M.sigmap) := by
    apply List.mem_of_mem_filter (p := fun p => !isConst p.1 && !isConst p.2)
    rw [← List.mem_reverse, heq]
    exact List.mem_append_right _ List.mem_cons_self
  obtain ⟨cn, hcn, hpair⟩ := List.mem_flatMap.mp hpair
  rw [List.zip_map, List.mem_map] at hpair
  obtain ⟨p, hp, heq⟩ := hpair
  cases heq
  exact (M.joined cn hcn p hp).symm

/-- A net that a cell drives is not a place where the walk stops. -/
theorem driven_open {b : SigBit} {c : Instance} (h : M.driver b = some c) :
    isConst b = false ∧ M.regbit b = none ∧ M.isInput b = false := by
  obtain ⟨hc, b', hb', rfl⟩ := driver_eq_some.mp h
  obtain ⟨w, i, hnet, hw, hreg⟩ := M.source c hc b' hb'
  rw [hnet]
  exact ⟨rfl, hreg, decide_eq_false hw⟩

theorem mem_wireBits {sig : SigSpec} {b : SigBit} :
    b ∈ M.wireBits sig ↔ (∃ b' ∈ sig, M.sigmap b' = b) ∧ isConst b = false := by
  simp [wireBits]

/-- A visit that only pushes what is needed and marks nothing. -/
theorem Inv.leave {i : Nat} {root : SigSpec} {t₀ t : Marks} {seen stack push : List SigBit} {b : SigBit}
    {regs : List String} (h : Inv M i root t₀ seen (b :: stack) t)
    (hdriver : ∀ c, M.driver b = some c → Marked i t c) (hpush : ∀ b' ∈ push, b' = b)
    (hregs : ∀ name ∈ t.outconeRegs, name ∈ regs)
    (hreg : ∀ name, M.regbit b = some name → name ∈ regs) :
    Inv M i root t₀ (b :: seen) (push ++ stack) { t with outconeRegs := regs } where
  needs b' hb' := by
    apply h.needs
    simp only [List.mem_cons, List.mem_append] at hb' ⊢
    rcases hb' with (rfl | hb') | hb' | hb'
    · exact .inr (.inl rfl)
    · exact .inl hb'
    · exact .inr (.inl (hpush b' hb'))
    · exact .inr (.inr hb')
  roots b' hb' := by
    have hroot := h.roots b' hb'
    simp only [List.mem_cons, List.mem_append] at hroot ⊢
    tauto
  driver b' hb' c hc := by
    rcases List.mem_cons.mp hb' with rfl | hb'
    · exact hdriver c hc
    · exact h.driver b' hb' c hc
  reads c hc := by
    rcases h.reads c hc with hold | ⟨hfeeds, hreads⟩
    · exact .inl hold
    · refine .inr ⟨hfeeds, fun b' hb' => ?_⟩
      have hread := hreads b' hb'
      simp only [List.mem_cons, List.mem_append] at hread ⊢
      tauto
  kept := h.kept
  fresh := h.fresh
  same := h.same
  entry := h.entry
  regs b' hb' name hname := by
    rcases List.mem_cons.mp hb' with rfl | hb'
    · exact hreg name hname
    · exact hregs name (h.regs b' hb' name hname)
  regs_kept name hname := hregs name (h.regs_kept name hname)

/-- The visit that marks the driver of a bit. -/
theorem Inv.mark {i : Nat} {root : SigSpec} {t₀ t : Marks} {seen stack push : List SigBit} {b : SigBit}
    {c : Instance} (h : Inv M i root t₀ seen (b :: stack) t) (hc : M.driver b = some c)
    (hnew : ¬ Marked i t c) (hpush : ∀ b' ∈ push, b' = b) :
    Inv M i root t₀ (b :: seen) ((M.wireBits c.read).reverse ++ push ++ stack) { t with
      outcone := t.outcone.insert c
      feeds := Function.update t.feeds c (some (((t.feeds c).getD .zero).set i)) } := by
  obtain ⟨hcomb, b₀, hb₀, hnet⟩ := driver_eq_some.mp hc
  have hneeds : M.Needs root b := h.needs b (.inr List.mem_cons_self)
  have hold : ¬ Marked i t₀ c := fun hmarked => hnew (h.kept c hmarked)
  have hset : (((t.feeds c).getD .zero).set i).has i = true := by
    by_cases hi : i < 256
    · rw [FeedMask.has_set _ _ hi]
      simp
    · exact FeedMask.has_of_le _ (by omega)
  -- the marks of the other cells stay
  have hmarked : ∀ d, Marked i { t with
      outcone := t.outcone.insert c
      feeds := Function.update t.feeds c (some (((t.feeds c).getD .zero).set i)) } d ↔
      d = c ∨ Marked i t d := by
    intro d
    unfold Marked
    by_cases hdc : d = c
    · subst hdc
      simp [hset]
    · simp [hdc]
  constructor
  · intro b' hb'
    simp only [List.mem_cons, List.mem_append, List.mem_reverse] at hb'
    rcases hb' with (rfl | hb') | (hb' | hb') | hb'
    · exact hneeds
    · exact h.needs b' (.inl hb')
    · obtain ⟨⟨b₁, hb₁, rfl⟩, -⟩ := mem_wireBits.mp hb'
      rw [← hnet] at hneeds
      exact .read hcomb hb₀ hneeds hb₁
    · rw [hpush b' hb']
      exact hneeds
    · exact h.needs b' (.inr (List.mem_cons_of_mem b hb'))
  · intro b' hb'
    have hroot := h.roots b' hb'
    simp only [List.mem_cons, List.mem_append] at hroot ⊢
    tauto
  · intro b' hb' d hd
    rw [hmarked]
    rcases List.mem_cons.mp hb' with rfl | hb'
    · exact .inl (Option.some.inj (hd.symm.trans hc))
    · exact .inr (h.driver b' hb' d hd)
  · intro d hd
    rw [hmarked] at hd
    by_cases hdc : d = c
    · subst hdc
      refine .inr ⟨⟨hcomb, b₀, hb₀, hnet ▸ hneeds⟩, fun b' hb' => .inr ?_⟩
      simp [hb']
    · rcases h.reads d (hd.resolve_left hdc) with hold | ⟨hfeeds, hreads⟩
      · exact .inl hold
      · refine .inr ⟨hfeeds, fun b' hb' => ?_⟩
        have hread := hreads b' hb'
        simp only [List.mem_cons, List.mem_append] at hread ⊢
        tauto
  · intro d hd
    exact (hmarked d).mpr (.inr (h.kept d hd))
  · intro d hd hd₀
    by_cases hdc : d = c
    · subst hdc
      show Function.update t.feeds d _ d = _
      rw [Function.update_self, (h.same d (.inr hnew)).1]
    · show Function.update t.feeds c _ d = _
      rw [Function.update_of_ne hdc]
      exact h.fresh d (((hmarked d).mp hd).resolve_left hdc) hd₀
  · intro d hd
    have hdc : d ≠ c := by
      intro hdc
      subst hdc
      rcases hd with hd | hd
      · exact hold hd
      · exact hd ((hmarked d).mpr (.inl rfl))
    have hd' : Marked i t₀ d ∨ ¬ Marked i t d := by
      rcases hd with hd | hd
      · exact .inl hd
      · exact .inr fun hmark => hd ((hmarked d).mpr (.inr hmark))
    refine ⟨?_, ?_⟩
    · show Function.update t.feeds c _ d = _
      rw [Function.update_of_ne hdc]
      exact (h.same d hd').1
    · show d ∈ t.outcone.insert c ↔ _
      rw [List.mem_insert_iff, or_iff_right hdc]
      exact (h.same d hd').2
  · intro d hd
    by_cases hdc : d = c
    · subst hdc
      show (Function.update t.feeds d _ d).isSome
      rw [Function.update_self]
      rfl
    · show (Function.update t.feeds c _ d).isSome
      rw [Function.update_of_ne hdc]
      exact h.entry d ((List.mem_insert_iff.mp hd).resolve_left hdc)
  · intro b' hb' name hname
    rcases List.mem_cons.mp hb' with rfl | hb'
    · rw [(driven_open hc).2.1] at hname
      cases hname
    · exact h.regs b' hb' name hname
  · exact h.regs_kept

theorem Inv.visit {i : Nat} {root : SigSpec} {t₀ t : Marks} {seen stack : List SigBit} {b : SigBit}
    (h : Inv M i root t₀ seen (b :: stack) t) :
    Inv M i root t₀ (b :: seen) ((M.visit i b t).2 ++ stack) (M.visit i b t).1 := by
  have hconn : ∀ b' ∈ (M.connmap b).toList, b' = b := fun b' hb' =>
    connmap_eq (Option.mem_toList.mp hb')
  unfold Combinational.visit
  cases hreg : M.regbit b with
  | some name =>
    apply h.leave
    · intro c hc
      rw [(driven_open hc).2.1] at hreg
      cases hreg
    · intro b' hb'
      cases hb'
    · exact fun n hn => List.mem_insert_of_mem hn
    · intro n hn
      cases hreg.symm.trans hn
      exact List.mem_insert_self
  | none =>
    have hnone : ∀ name, M.regbit b = some name → name ∈ t.outconeRegs := by
      intro name hname
      cases hreg.symm.trans hname
    by_cases hin : M.isInput b = true
    · simp only [hin, if_true]
      apply h.leave
      · intro c hc
        rw [(driven_open hc).2.2] at hin
        cases hin
      · intro b' hb'
        cases hb'
      · exact fun _ hn => hn
      · exact hnone
    · simp only [hin, Bool.false_eq_true, if_false]
      cases hdriver : M.driver b with
      | none =>
        apply h.leave _ hconn (fun _ hn => hn) hnone
        intro c hc
        cases hdriver.symm.trans hc
      | some c =>
        simp only
        split_ifs with hmarked
        · -- the entry is there already
          have hentry := h.entry c hmarked.2
          obtain ⟨fm, hfm⟩ := Option.isSome_iff_exists.mp hentry
          have hsame : Function.update t.feeds c (some ((t.feeds c).getD .zero)) = t.feeds := by
            rw [hfm, Option.getD_some, ← hfm, Function.update_eq_self]
          rw [hsame]
          apply h.leave _ hconn (fun _ hn => hn) hnone
          intro d hd
          cases hdriver.symm.trans hd
          exact ⟨hmarked.2, hmarked.1⟩
        · exact h.mark hdriver (fun hm => hmarked ⟨hm.2, hm.1⟩) hconn

/-- A bit that was seen is dropped. -/
theorem Inv.skip {i : Nat} {root : SigSpec} {t₀ t : Marks} {seen stack : List SigBit} {b : SigBit}
    (h : Inv M i root t₀ seen (b :: stack) t) (hb : b ∈ seen) : Inv M i root t₀ seen stack t := by
  have hdrop : ∀ b', b' ∈ seen ∨ b' ∈ b :: stack → b' ∈ seen ∨ b' ∈ stack := by
    intro b' hb'
    rcases hb' with hb' | hb'
    · exact .inl hb'
    · rcases List.mem_cons.mp hb' with rfl | hb'
      · exact .inl hb
      · exact .inr hb'
  constructor
  · exact fun b' hb' => h.needs b' (hb'.imp_right (List.mem_cons_of_mem b))
  · exact fun b' hb' => hdrop b' (h.roots b' hb')
  · exact h.driver
  · intro c hc
    exact (h.reads c hc).imp_right fun hreads => ⟨hreads.1, fun b' hb' => hdrop b' (hreads.2 b' hb')⟩
  · exact h.kept
  · exact h.fresh
  · exact h.same
  · exact h.entry
  · exact h.regs
  · exact h.regs_kept

theorem Inv.start {i : Nat} {root : SigSpec} {t : Marks}
    (hentry : ∀ c ∈ t.outcone, (t.feeds c).isSome) :
    Inv M i root t [] (M.wireBits root).reverse t := by
  constructor
  · intro b hb
    have hroot := List.mem_reverse.mp (hb.resolve_left List.not_mem_nil)
    obtain ⟨⟨b', hb', rfl⟩, -⟩ := mem_wireBits.mp hroot
    exact .port hb'
  · exact fun b hb => .inr (List.mem_reverse.mpr hb)
  · exact fun b hb => absurd hb List.not_mem_nil
  · exact fun c hc => .inl hc
  · exact fun c hc => hc
  · exact fun c hc hc' => absurd hc hc'
  · exact fun c _ => ⟨rfl, Iff.rfl⟩
  · exact hentry
  · exact fun b hb => absurd hb List.not_mem_nil
  · exact fun name hname => hname

theorem walkOutput_inv {i : Nat} {w : Wire} {t t' : Marks}
    (hentry : ∀ c ∈ t.outcone, (t.feeds c).isSome) (hrun : M.walkOutput i w t = some t') :
    ∃ seen, Inv M i w.all t seen [] t' := by
  exact Worklist.walk_rule (Inv M i w.all t) (Inv.start hentry) (fun _ _ _ _ hb h => h.skip hb)
    (fun _ _ _ _ _ h => h.visit) hrun

/-- A cell that drives a net that another reads. -/
def Drives (d c : Instance) : Prop :=
  d ∈ M.combCells ∧ ∃ b ∈ d.driven, ∃ b' ∈ c.read, M.sigmap b = M.sigmap b'

theorem Feeds.drives {root : SigSpec} {c d : Instance} (h : M.Feeds root c) (hd : Drives (M := M) d c) :
    M.Feeds root d := by
  obtain ⟨hc, b, hb, hneeds⟩ := h
  obtain ⟨hdc, b₁, hb₁, b', hb', hnet⟩ := hd
  refine ⟨hdc, b₁, hb₁, ?_⟩
  rw [hnet]
  exact .read hc hb hneeds hb'

/-- At the end a net that was not seen is read by a cell that was marked before, when these marks were
    closed under what their cells read. -/
theorem Inv.seen {i : Nat} {root : SigSpec} {t₀ t : Marks} {seen : List SigBit}
    (h : Inv M i root t₀ seen [] t)
    (hclosed : ∀ c d, Marked i t₀ c → Drives (M := M) d c → Marked i t₀ d) {n : SigBit}
    (hn : M.Needs root n) (hwire : isConst n = false) :
    n ∈ seen ∨ ∃ c, Marked i t₀ c ∧ ∃ b ∈ c.read, M.sigmap b = n := by
  induction hn with
  | @port b hb =>
    have hroot := h.roots _ (mem_wireBits.mpr ⟨⟨b, hb, rfl⟩, hwire⟩)
    exact .inl (hroot.resolve_right List.not_mem_nil)
  | @read d b b' hd hb _ hb' ih =>
    have hdriver : M.driver (M.sigmap b) = some d := driver_eq_some.mpr ⟨hd, b, hb, rfl⟩
    rcases ih (driven_open hdriver).1 with hmem | ⟨c, hc, b₀, hb₀, hnet⟩
    · rcases h.reads d (h.driver _ hmem d hdriver) with hold | ⟨-, hreads⟩
      · exact .inr ⟨d, hold, b', hb', rfl⟩
      · have hread := hreads _ (mem_wireBits.mpr ⟨⟨b', hb', rfl⟩, hwire⟩)
        exact .inl (hread.resolve_right List.not_mem_nil)
    · exact .inr ⟨d, hclosed c d hc ⟨hd, b, hb, b₀, hb₀, hnet.symm⟩, b', hb', rfl⟩

/-- What a walk marks. -/
theorem Inv.marked_iff {i : Nat} {root : SigSpec} {t₀ t : Marks} {seen : List SigBit}
    (h : Inv M i root t₀ seen [] t)
    (hclosed : ∀ c d, Marked i t₀ c → Drives (M := M) d c → Marked i t₀ d) (c : Instance) :
    Marked i t c ↔ Marked i t₀ c ∨ M.Feeds root c := by
  constructor
  · intro hc
    exact (h.reads c hc).imp_right And.left
  · intro hc
    rcases hc with hc | ⟨hcomb, b, hb, hneeds⟩
    · exact h.kept c hc
    · have hdriver : M.driver (M.sigmap b) = some c := driver_eq_some.mpr ⟨hcomb, b, hb, rfl⟩
      rcases h.seen hclosed hneeds (driven_open hdriver).1 with hmem | ⟨c₀, hc₀, b₀, hb₀, hnet⟩
      · exact h.driver _ hmem c hdriver
      · exact h.kept c (hclosed c₀ c hc₀ ⟨hcomb, b, hb, b₀, hb₀, hnet.symm⟩)

/-! ## The walk ends -/

theorem visit_length (i : Nat) (b : SigBit) (t : Marks) : (M.visit i b t).2.length ≤ M.weight b := by
  unfold visit weight
  cases M.regbit b with
  | some name => exact Nat.zero_le _
  | none =>
    by_cases hin : M.isInput b = true
    · simp [hin]
    · simp only [hin, Bool.false_eq_true, if_false]
      cases M.driver b with
      | none => exact Nat.le_add_right _ _
      | some c =>
        have hreads : (M.wireBits c.read).length ≤ c.read.length := by
          unfold wireBits
          exact (List.length_filter_le _ _).trans (List.length_map _).le
        simp only [Option.map_some, Option.getD_some]
        split_ifs
        · exact Nat.le_add_right _ _
        · rw [List.length_append, List.length_reverse]
          omega

theorem weight_eq_zero {b : SigBit} (h : b ∉ M.keys) : M.weight b = 0 := by
  unfold keys at h
  rw [List.mem_dedup, List.mem_append, not_or] at h
  unfold weight
  cases hconn : M.connmap b with
  | some b' =>
    obtain ⟨l₁, l₂, heq, -⟩ := List.lookup_eq_some_iff.mp hconn
    have hpair : (b, b') ∈ M.connections.flatMap fun cn =>
        (cn.1.map M.sigmap).zip (cn.2.map M.sigmap) := by
      apply List.mem_of_mem_filter (p := fun p => !isConst p.1 && !isConst p.2)
      rw [← List.mem_reverse, heq]
      exact List.mem_append_right _ List.mem_cons_self
    obtain ⟨cn, hcn, hpair⟩ := List.mem_flatMap.mp hpair
    exact absurd (List.mem_flatMap.mpr ⟨cn, hcn, (List.of_mem_zip hpair).1⟩) h.2
  | none =>
    cases hdriver : M.driver b with
    | none => rfl
    | some c =>
      obtain ⟨hc, b', hb', hnet⟩ := driver_eq_some.mp hdriver
      exact absurd (List.mem_flatMap.mpr ⟨c, mem_sorted.mpr hc, List.mem_map.mpr ⟨b', hb', hnet⟩⟩) h.1

theorem walkOutput_total (i : Nat) (w : Wire) (t : Marks) : ∃ t', M.walkOutput i w t = some t' := by
  unfold walkOutput
  apply Worklist.walk_total (List.nodup_dedup _) (visit_length i) (fun b hb => weight_eq_zero hb)
  rw [List.length_reverse]
  exact le_rfl

/-! ## All walks -/

/-- The marks when the walks from the first `k` outputs are done. -/
structure Global (k : Nat) (t : Marks) : Prop where
  outcone : ∀ c, c ∈ t.outcone ↔ ∃ i < k, M.FeedsAt i c
  absent : ∀ c, c ∉ t.outcone → t.feeds c = none
  present : ∀ c ∈ t.outcone, ∃ m, t.feeds c = some m ∧ ∀ j < 256, m.has j = true ↔
    j < k ∧ M.FeedsAt j c ∨ ∀ i < 256, i < k → ¬ M.FeedsAt i c
  regs : ∀ i < k, ∀ w, M.outputs[i]? = some w → ∀ n, M.Needs w.all n → isConst n = false →
    ∀ name, M.regbit n = some name → name ∈ t.outconeRegs

theorem Global.marked {k : Nat} {t : Marks} (h : Global (M := M) k t) (c : Instance) :
    Marked k t c ↔ 256 ≤ k ∧ c ∈ t.outcone := by
  unfold Marked
  by_cases hk : 256 ≤ k
  · simp [hk, FeedMask.has_of_le]
  · simp only [hk, false_and, iff_false]
    intro ⟨hc, hhas⟩
    obtain ⟨m, hm, hbits⟩ := h.present c hc
    rw [hm, Option.getD_some, hbits k (by omega)] at hhas
    obtain ⟨i, hi, hfeeds⟩ := (h.outcone c).mp hc
    rcases hhas with ⟨hlt, -⟩ | hnone
    · omega
    · exact hnone i (by omega) hi hfeeds

theorem Global.closed {k : Nat} {t : Marks} (h : Global (M := M) k t) (c d : Instance)
    (hc : Marked k t c) (hd : Drives (M := M) d c) : Marked k t d := by
  rw [h.marked] at hc ⊢
  refine ⟨hc.1, ?_⟩
  obtain ⟨i, hi, w, hw, hfeeds⟩ := (h.outcone c).mp hc.2
  exact (h.outcone d).mpr ⟨i, hi, w, hw, hfeeds.drives hd⟩

theorem Global.entry {k : Nat} {t : Marks} (h : Global (M := M) k t) :
    ∀ c ∈ t.outcone, (t.feeds c).isSome := by
  intro c hc
  obtain ⟨m, hm, -⟩ := h.present c hc
  rw [hm]
  rfl

/-- The walk from the next output. -/
theorem Global.step {k : Nat} {w : Wire} {t t' : Marks} (h : Global (M := M) k t)
    (hw : M.outputs[k]? = some w) (hrun : M.walkOutput k w t = some t') :
    Global (M := M) (k + 1) t' := by
  obtain ⟨seen, hend⟩ := walkOutput_inv h.entry hrun
  have hmarked := hend.marked_iff h.closed
  have hat : ∀ c, M.FeedsAt k c ↔ M.Feeds w.all c := by
    intro c
    unfold FeedsAt
    rw [hw]
    simp
  have hsucc : ∀ c, (∃ i < k + 1, M.FeedsAt i c) ↔ (∃ i < k, M.FeedsAt i c) ∨ M.Feeds w.all c := by
    intro c
    rw [← hat]
    constructor
    · intro ⟨i, hi, hfeeds⟩
      rcases Nat.lt_succ_iff_lt_or_eq.mp hi with hi | rfl
      · exact .inl ⟨i, hi, hfeeds⟩
      · exact .inr hfeeds
    · intro hc
      rcases hc with ⟨i, hi, hfeeds⟩ | hfeeds
      · exact ⟨i, by omega, hfeeds⟩
      · exact ⟨k, by omega, hfeeds⟩
  have houtcone : ∀ c, c ∈ t'.outcone ↔ c ∈ t.outcone ∨ M.Feeds w.all c := by
    intro c
    by_cases hc : Marked k t' c
    · have hin := (hmarked c).mp hc
      rw [h.marked] at hin
      exact iff_of_true hc.1 (hin.imp_left And.right)
    · rw [(hend.same c (.inr hc)).2, or_iff_left]
      intro hfeeds
      exact hc ((hmarked c).mpr (.inr hfeeds))
  constructor
  · intro c
    rw [houtcone, hsucc, h.outcone]
  · intro c hc
    have hunmarked : ¬ Marked k t' c := fun hmark => hc hmark.1
    rw [(hend.same c (.inr hunmarked)).1]
    apply h.absent
    intro hc'
    exact hc ((houtcone c).mpr (.inl hc'))
  · intro c hc
    by_cases hkept : Marked k t c ∨ ¬ Marked k t' c
    · -- the entry is as it was
      obtain ⟨hfeeds, hin⟩ := hend.same c hkept
      have hc₀ := hin.mp hc
      obtain ⟨m, hm, hbits⟩ := h.present c hc₀
      refine ⟨m, hfeeds.trans hm, ?_⟩
      intro j hj
      rw [hbits j hj]
      have hnot : k < 256 → ¬ M.FeedsAt k c := by
        intro hk hfeedsk
        rcases hkept with hkept | hkept
        · have hle := ((h.marked c).mp hkept).1
          omega
        · exact hkept ((hmarked c).mpr (.inr ((hat c).mp hfeedsk)))
      constructor
      · intro hbit
        rcases hbit with ⟨hjk, hfeedsj⟩ | hnone
        · exact .inl ⟨by omega, hfeedsj⟩
        · refine .inr fun i hi hik => ?_
          rcases Nat.lt_succ_iff_lt_or_eq.mp hik with hik | rfl
          · exact hnone i hi hik
          · exact hnot hi
      · intro hbit
        rcases hbit with ⟨hjk, hfeedsj⟩ | hnone
        · rcases Nat.lt_succ_iff_lt_or_eq.mp hjk with hjk | rfl
          · exact .inl ⟨hjk, hfeedsj⟩
          · exact absurd hfeedsj (hnot hj)
        · exact .inr fun i hi hik => hnone i hi (by omega)
    · obtain ⟨hold, hnew⟩ := not_or.mp hkept
      have hmark := not_not.mp hnew
      have hfeedsk : M.FeedsAt k c := (hat c).mpr (((hmarked c).mp hmark).resolve_left hold)
      refine ⟨_, hend.fresh c hmark hold, ?_⟩
      intro j hj
      rw [FeedMask.has_set _ _ hj]
      -- the bits that the entry had
      have hbits : ((t.feeds c).getD .zero).has j = true ↔ k < 256 ∧ j < k ∧ M.FeedsAt j c := by
        by_cases hc₀ : c ∈ t.outcone
        · have hk : k < 256 := by
            by_contra hk
            exact hold ((h.marked c).mpr ⟨by omega, hc₀⟩)
          obtain ⟨m, hm, hbits⟩ := h.present c hc₀
          rw [hm, Option.getD_some, hbits j hj]
          obtain ⟨i, hi, hfeedsi⟩ := (h.outcone c).mp hc₀
          constructor
          · intro hbit
            rcases hbit with hbit | hnone
            · exact ⟨hk, hbit⟩
            · exact absurd hfeedsi (hnone i (by omega) hi)
          · exact fun hbit => .inl hbit.2
        · rw [h.absent c hc₀, Option.getD_none, FeedMask.has_zero hj]
          refine iff_of_false Bool.false_ne_true fun hbit => ?_
          exact hc₀ ((h.outcone c).mpr ⟨j, hbit.2.1, hbit.2.2⟩)
      rw [Bool.or_eq_true, Bool.or_eq_true, decide_eq_true_eq, decide_eq_true_eq, hbits]
      constructor
      · intro hbit
        rcases hbit with (⟨-, hjk, hfeedsj⟩ | rfl) | hk
        · exact .inl ⟨by omega, hfeedsj⟩
        · exact .inl ⟨by omega, hfeedsk⟩
        · refine .inr fun i hi hik hfeedsi => ?_
          have hc₀ := (h.outcone c).mpr ⟨i, by omega, hfeedsi⟩
          exact hold ((h.marked c).mpr ⟨hk, hc₀⟩)
      · intro hbit
        rcases hbit with ⟨hjk, hfeedsj⟩ | hnone
        · by_cases hk : 256 ≤ k
          · exact .inr hk
          · rcases Nat.lt_succ_iff_lt_or_eq.mp hjk with hjk | rfl
            · exact .inl (.inl ⟨by omega, hjk, hfeedsj⟩)
            · exact .inl (.inr rfl)
        · refine .inr ?_
          by_contra hk
          exact hnone k (by omega) (by omega) hfeedsk
  · intro i hi w' hw' n hn hwire name hname
    rcases Nat.lt_succ_iff_lt_or_eq.mp hi with hi | rfl
    · exact hend.regs_kept name (h.regs i hi w' hw' n hn hwire name hname)
    · cases hw.symm.trans hw'
      rcases hend.seen h.closed hn hwire with hmem | ⟨c, hc, b, hb, rfl⟩
      · exact hend.regs n hmem name hname
      · -- an earlier walk has seen the net
        obtain ⟨j, hj, v, hv, hcomb, b₀, hb₀, hneeds⟩ := (h.outcone c).mp ((h.marked c).mp hc).2
        exact hend.regs_kept name (h.regs j hj v hv _ (.read hcomb hb₀ hneeds hb) hwire name hname)

/-- The walks end, and each cell has the marks of the outputs it feeds. -/
theorem cones_spec (M : Combinational) : ∃ t, M.cones = some t ∧ Global (M := M) M.outputs.length t := by
  suffices hgen : ∀ rest k t, M.outputs.drop k = rest → Global (M := M) k t → ∃ t',
      (rest.zipIdx k).foldlM (fun t p => M.walkOutput p.2 p.1 t) t = some t' ∧
        Global (M := M) M.outputs.length t' by
    apply hgen M.outputs 0 _ rfl
    constructor
    · intro c
      simp
    · intro c _
      rfl
    · intro c hc
      cases hc
    · intro i hi
      omega
  intro rest
  induction rest with
  | nil =>
    intro k t hrest h
    refine ⟨t, rfl, ?_⟩
    have hle := List.drop_eq_nil_iff.mp hrest
    -- there are no outputs from the length on
    have hnone : ∀ i c, M.FeedsAt i c → i < M.outputs.length := by
      intro i c ⟨w, hw, _⟩
      exact (List.getElem?_eq_some_iff.mp hw).1
    constructor
    · intro c
      rw [h.outcone]
      constructor
      · intro ⟨i, _, hfeeds⟩
        exact ⟨i, hnone i c hfeeds, hfeeds⟩
      · intro ⟨i, hi, hfeeds⟩
        exact ⟨i, by omega, hfeeds⟩
    · exact h.absent
    · intro c hc
      obtain ⟨m, hm, hbits⟩ := h.present c hc
      refine ⟨m, hm, fun j hj => (hbits j hj).trans ?_⟩
      have hone : ∀ i, i < k ∧ M.FeedsAt i c ↔ i < M.outputs.length ∧ M.FeedsAt i c := by
        intro i
        constructor
        · exact fun hi => ⟨hnone i c hi.2, hi.2⟩
        · exact fun hi => ⟨by omega, hi.2⟩
      apply or_congr (hone j)
      constructor
      · intro hall i hi hik hfeeds
        exact hall i hi (by omega) hfeeds
      · intro hall i hi hik hfeeds
        exact hall i hi (hnone i c hfeeds) hfeeds
    · exact fun i hi => h.regs i (by omega)
  | cons w rest ih =>
    intro k t hrest h
    have hw : M.outputs[k]? = some w := by
      rw [← List.head?_drop, hrest]
      rfl
    have htail : M.outputs.drop (k + 1) = rest := by
      rw [← List.tail_drop, hrest]
      rfl
    obtain ⟨t₁, ht₁⟩ := walkOutput_total (M := M) k w t
    obtain ⟨t', ht', hglobal⟩ := ih (k + 1) t₁ htail (h.step hw ht₁)
    refine ⟨t', ?_, hglobal⟩
    rw [List.zipIdx_cons, List.foldlM_cons, ht₁]
    exact ht'

/-! ## Shared cells and buckets -/

section Emission

variable {t : Marks} (h : Global (M := M) M.outputs.length t)

include h

theorem mem_outcone {c : Instance} : c ∈ t.outcone ↔ ∃ i, M.FeedsAt i c := by
  rw [h.outcone]
  constructor
  · exact fun ⟨i, _, hfeeds⟩ => ⟨i, hfeeds⟩
  · intro ⟨i, w, hw, hfeeds⟩
    exact ⟨i, (List.getElem?_eq_some_iff.mp hw).1, w, hw, hfeeds⟩

theorem has_fm {c : Instance} (hc : c ∈ t.outcone) {j : Nat} (hj : j < 256) :
    (t.fm c).has j = true ↔ M.FeedsAt j c ∨ ∀ i < 256, ¬ M.FeedsAt i c := by
  obtain ⟨m, hm, hbits⟩ := h.present c hc
  have hlt : ∀ i, M.FeedsAt i c → i < M.outputs.length := by
    intro i ⟨w, hw, _⟩
    exact (List.getElem?_eq_some_iff.mp hw).1
  rw [Marks.fm, hm, Option.getD_some, hbits j hj]
  constructor
  · intro hbit
    rcases hbit with hbit | hnone
    · exact .inl hbit.2
    · exact .inr fun i hi hfeeds => hnone i hi (hlt i hfeeds) hfeeds
  · intro hbit
    rcases hbit with hbit | hnone
    · exact .inl ⟨hlt j hbit, hbit⟩
    · exact .inr fun i hi _ => hnone i hi

theorem pop_fm {c : Instance} (hc : c ∈ t.outcone) : (t.fm c).pop = 1 ↔ ∃ i, M.Alone i c := by
  rw [FeedMask.pop_eq_one]
  by_cases hany : ∃ i < 256, M.FeedsAt i c
  · have hhas : ∀ j < 256, (t.fm c).has j = true ↔ M.FeedsAt j c := by
      intro j hj
      rw [has_fm h hc hj, or_iff_left]
      obtain ⟨i, hi, hfeeds⟩ := hany
      exact fun hnone => hnone i hi hfeeds
    constructor
    · intro ⟨i, hi, hbit, hone⟩
      exact ⟨i, hi, (hhas i hi).mp hbit, fun j hj hfeeds => hone j hj ((hhas j hj).mpr hfeeds)⟩
    · intro ⟨i, hi, hfeeds, hone⟩
      exact ⟨i, hi, (hhas i hi).mpr hfeeds, fun j hj hbit => hone j hj ((hhas j hj).mp hbit)⟩
  · -- the mask is saturated
    have hhas : ∀ j < 256, (t.fm c).has j = true := fun j hj =>
      (has_fm h hc hj).mpr (.inr fun i hi hfeeds => hany ⟨i, hi, hfeeds⟩)
    constructor
    · intro ⟨i, _, _, hone⟩
      have hzero := hone 0 (by decide) (hhas 0 (by decide))
      have hfirst := hone 1 (by decide) (hhas 1 (by decide))
      omega
    · intro ⟨i, hi, hfeeds, _⟩
      exact absurd ⟨i, hi, hfeeds⟩ hany

theorem mem_shared {c : Instance} :
    c ∈ M.shared t ↔ (∃ i, M.FeedsAt i c) ∧ ∀ i, ¬ M.Alone i c := by
  unfold shared
  rw [List.mem_filter, decide_eq_true_eq]
  constructor
  · intro ⟨_, hc, hpop⟩
    rw [ne_eq, pop_fm h hc, not_exists] at hpop
    exact ⟨(mem_outcone h).mp hc, hpop⟩
  · intro ⟨hfeeds, hnone⟩
    have hc := (mem_outcone h).mpr hfeeds
    obtain ⟨i, w, _, hcomb, _⟩ := hfeeds
    exact ⟨mem_sorted.mpr hcomb, hc, fun hpop => (not_exists.mpr hnone) ((pop_fm h hc).mp hpop)⟩

theorem mem_bucket {c : Instance} {i : Nat} (hi : i < 256) : c ∈ M.bucket t i ↔ M.Alone i c := by
  unfold bucket
  rw [List.mem_filter, decide_eq_true_eq]
  constructor
  · intro ⟨_, hc, hpop, hbit⟩
    obtain ⟨j, hj, hfeeds, hone⟩ := (pop_fm h hc).mp hpop
    have hfeedsi : M.FeedsAt i c := by
      apply ((has_fm h hc hi).mp hbit).resolve_right
      exact fun hnone => hnone j hj hfeeds
    obtain rfl := hone i hi hfeedsi
    exact ⟨hi, hfeedsi, hone⟩
  · intro halone
    have hc := (mem_outcone h).mpr ⟨i, halone.2.1⟩
    obtain ⟨w, _, hcomb, _⟩ := halone.2.1
    exact ⟨mem_sorted.mpr hcomb, hc, (pop_fm h hc).mpr ⟨i, halone⟩,
      (has_fm h hc hi).mpr (.inl halone.2.1)⟩

theorem mem_evaluated {c : Instance} {mask : BitVec 256} : c ∈ M.evaluated t mask ↔
    (∃ i, M.FeedsAt i c) ∧ ∀ i, M.Alone i c → mask.getLsbD i = true := by
  unfold evaluated
  rw [List.mem_append, mem_shared h, List.mem_flatMap]
  constructor
  · intro hc
    rcases hc with ⟨hfeeds, hnone⟩ | ⟨i, hi, hc⟩
    · exact ⟨hfeeds, fun i halone => absurd halone (hnone i)⟩
    · have hi' : i < 256 := (lt_min_iff.mp (List.mem_range.mp hi)).2
      split_ifs at hc with hmask
      · have halone := (mem_bucket h hi').mp hc
        refine ⟨⟨i, halone.2.1⟩, fun j hj => ?_⟩
        rw [halone.2.2 j hj.1 hj.2.1]
        exact hmask
      · cases hc
  · intro ⟨hfeeds, hmask⟩
    by_cases hany : ∃ i, M.Alone i c
    · obtain ⟨i, halone⟩ := hany
      obtain ⟨w, hw, _⟩ := halone.2.1
      refine .inr ⟨i, List.mem_range.mpr (lt_min_iff.mpr
        ⟨(List.getElem?_eq_some_iff.mp hw).1, halone.1⟩), ?_⟩
      rw [if_pos (hmask i halone)]
      exact (mem_bucket h halone.1).mpr halone
    · exact .inl ⟨hfeeds, not_exists.mp hany⟩

end Emission

/-! ## The order of the code -/

theorem before_filter {α : Type} {c d : α} {l : List α} {p : α → Bool} (h : Before d c l)
    (hd : p d = true) (hc : p c = true) : Before d c (l.filter p) := by
  obtain ⟨l₁, l₂, rfl, hmem⟩ := h
  refine ⟨l₁.filter p, l₂.filter p, ?_, List.mem_filter.mpr ⟨hmem, hd⟩⟩
  rw [List.filter_append, List.filter_cons_of_pos hc]

theorem before_append {α : Type} {c d : α} {l : List α} (h : Before d c l) (front : List α) :
    Before d c (front ++ l) := by
  obtain ⟨l₁, l₂, rfl, hmem⟩ := h
  exact ⟨front ++ l₁, l₂, (List.append_assoc _ _ _).symm, List.mem_append_right _ hmem⟩

theorem before_of_mem {α : Type} {c d : α} {l₁ l₂ : List α} (hd : d ∈ l₁) (hc : c ∈ l₂) :
    Before d c (l₁ ++ l₂) := by
  obtain ⟨k₁, k₂, rfl⟩ := List.append_of_mem hc
  exact ⟨l₁ ++ k₁, k₂, (List.append_assoc _ _ _).symm, List.mem_append_left _ hd⟩

theorem before_flatMap {α β : Type} {c d : α} {l : List β} {f : β → List α} {i : β} (hi : i ∈ l)
    (h : Before d c (f i)) : Before d c (l.flatMap f) := by
  obtain ⟨l₁, l₂, rfl⟩ := List.append_of_mem hi
  rw [List.flatMap_append, List.flatMap_cons]
  exact before_append (h.append _) _

theorem FeedsAt.drives {i : Nat} {c d : Instance} (h : M.FeedsAt i c) (hd : Drives (M := M) d c) :
    M.FeedsAt i d := by
  obtain ⟨w, hw, hfeeds⟩ := h
  exact ⟨w, hw, hfeeds.drives hd⟩

theorem drives_of_reads {c d : Instance} (h : M.Reads c d) : Drives (M := M) d c := by
  obtain ⟨b, hb, b', hb', _, _, hnet⟩ := h.meets
  exact ⟨h.driver, b', hb', b, hb, hnet.symm⟩

/-- What feeds a shared cell is shared. -/
theorem shared_of_drives (hsplit : M.Unsplit) {c d : Instance} (hfeeds : ∃ i, M.FeedsAt i c)
    (hshared : ∀ i, ¬ M.Alone i c) (hd : Drives (M := M) d c) : ∀ i, ¬ M.Alone i d := by
  intro i halone
  obtain ⟨j, hj⟩ := hfeeds
  by_cases hlt : j < 256
  · -- `c` would feed output `i` only, as `d` does
    obtain rfl := halone.2.2 j hlt (hj.drives hd)
    exact hshared j ⟨hlt, hj, fun k hk hck => halone.2.2 k hk (hck.drives hd)⟩
  · exact hsplit d i j halone (Nat.le_of_not_lt hlt) (hj.drives hd)

theorem evaluated_order {t : Marks} (h : Global (M := M) M.outputs.length t) (hsplit : M.Unsplit)
    {mask : BitVec 256} {c d : Instance} (hc : c ∈ M.evaluated t mask) (hreads : M.Reads c d)
    (hbefore : Before d c M.sorted) : Before d c (M.evaluated t mask) := by
  obtain ⟨hfeeds, hmask⟩ := (mem_evaluated h).mp hc
  have hd := drives_of_reads hreads
  have hfeedsd : ∃ i, M.FeedsAt i d := hfeeds.imp fun i hi => hi.drives hd
  by_cases hany : ∃ i, M.Alone i c
  · obtain ⟨i, halone⟩ := hany
    have hi : i ∈ List.range (min M.outputs.length 256) := by
      obtain ⟨w, hw, _⟩ := halone.2.1
      exact List.mem_range.mpr (lt_min_iff.mpr ⟨(List.getElem?_eq_some_iff.mp hw).1, halone.1⟩)
    have hbucket : c ∈ M.bucket t i := (mem_bucket h halone.1).mpr halone
    by_cases hboth : M.Alone i d
    · -- both are in the bucket
      apply before_append
      apply before_flatMap hi
      rw [if_pos (hmask i halone)]
      have hbucketd : d ∈ M.bucket t i := (mem_bucket h halone.1).mpr hboth
      unfold bucket at hbucket hbucketd ⊢
      exact before_filter hbefore (List.mem_filter.mp hbucketd).2 (List.mem_filter.mp hbucket).2
    · -- the cell that is read is shared
      apply before_of_mem
      · apply (mem_shared h).mpr
        refine ⟨hfeedsd, fun k hk => ?_⟩
        obtain rfl := hk.2.2 i halone.1 (halone.2.1.drives hd)
        exact hboth hk
      · refine List.mem_flatMap.mpr ⟨i, hi, ?_⟩
        rw [if_pos (hmask i halone)]
        exact hbucket
  · have hshared : c ∈ M.shared t := (mem_shared h).mpr ⟨hfeeds, not_exists.mp hany⟩
    have hsharedd : d ∈ M.shared t := (mem_shared h).mpr
      ⟨hfeedsd, shared_of_drives hsplit hfeeds (not_exists.mp hany) hd⟩
    apply Before.append
    unfold shared at hshared hsharedd ⊢
    exact before_filter hbefore (List.mem_filter.mp hsharedd).2 (List.mem_filter.mp hshared).2

/-! ## What the outputs get -/

variable (M) in
/-- Two valuations give the nets that a signal needs the same values. -/
def Agree (root : SigSpec) (σ σ' : Valuation) : Prop :=
  ∀ v k, M.Needs root (M.sigmap (.wire v k)) → σ v k = σ' v k

theorem sigmap_redirect (b : SigBit) : M.sigmap (M.redirect (M.sigmap b)) = M.sigmap b := by
  unfold Netlist.redirect
  cases hfind : M.marks.reverse.find? fun raw => M.sigmap raw = M.sigmap b with
  | none => exact M.idem b
  | some raw =>
    have hraw := List.find?_some hfind
    exact of_decide_eq_true hraw

theorem sigmap_source {direct : Bool} {sig : SigSpec} {b : SigBit} (hb : b ∈ M.sources direct sig) :
    ∃ b' ∈ sig, M.sigmap b = M.sigmap b' := by
  unfold sources at hb
  split_ifs at hb
  · obtain ⟨b', hb', rfl⟩ := List.mem_map.mp hb
    exact ⟨b', hb', M.idem b'⟩
  · obtain ⟨b', hb', rfl⟩ := List.mem_map.mp hb
    exact ⟨b', hb', sigmap_redirect b'⟩

theorem Agree.bit {root : SigSpec} {σ σ' : Valuation} (h : M.Agree root σ σ') {b : SigBit}
    (hb : M.Needs root (M.sigmap b)) : b.value σ = b.value σ' := by
  cases b with
  | wire v k => exact h v k hb
  | const s => rfl

theorem Agree.sources {root : SigSpec} {σ σ' : Valuation} (h : M.Agree root σ σ') {direct : Bool}
    {sig : SigSpec} (hsig : ∀ b ∈ sig, M.Needs root (M.sigmap b)) :
    (M.sources direct sig).map (SigBit.value σ) = (M.sources direct sig).map (SigBit.value σ') := by
  apply List.map_congr_left
  intro b hb
  obtain ⟨b', hb', hnet⟩ := sigmap_source hb
  apply h.bit
  rw [hnet]
  exact hsig b' hb'

/-- A bit that a cell does not drive. -/
theorem exec_other {F : Cells} {σ : Valuation} {c : Instance} {v : Wire} {k : Nat}
    (h : .wire v k ∉ c.driven) : M.exec F σ c v k = σ v k := by
  unfold exec
  rw [List.lookup_eq_none_iff.mpr]
  · rfl
  · intro p hp
    apply bne_iff_ne.mpr
    intro heq
    exact h (heq ▸ List.fst_mem_of_mem_zipIdx (List.mem_reverse.mp hp))

theorem Agree.exec {root : SigSpec} {σ σ' : Valuation} (h : M.Agree root σ σ') (F : Cells) {c : Instance}
    (hc : c ∈ M.combCells) : M.Agree root (M.exec F σ c) (M.exec F σ' c) := by
  intro v k hneeds
  by_cases hdriven : .wire v k ∈ c.driven
  · -- what the cell reads is needed as well
    have hreads : c.reads.map (fun conn =>
        (M.sources (F.direct c conn.1) conn.2).map (SigBit.value σ)) =
        c.reads.map fun conn => (M.sources (F.direct c conn.1) conn.2).map (SigBit.value σ') := by
      apply List.map_congr_left
      intro conn hconn
      apply h.sources
      intro b hb
      exact .read hc hdriven hneeds (List.mem_flatMap.mpr ⟨conn, hconn, hb⟩)
    unfold Combinational.exec
    rw [hreads, h v k hneeds]
  · rw [exec_other hdriven, exec_other hdriven, h v k hneeds]

theorem run_append (F : Cells) (l l' : List Instance) (σ : Valuation) :
    M.run F (l ++ l') σ = M.run F l' (M.run F l σ) := List.foldl_append

theorem Agree.run {root : SigSpec} {F : Cells} {cells : List Instance} (hcells : ∀ c ∈ cells, c ∈ M.combCells)
    {σ σ' : Valuation} (h : M.Agree root σ σ') : M.Agree root (M.run F cells σ) (M.run F cells σ') := by
  induction cells generalizing σ σ' with
  | nil => exact h
  | cons c cells ih =>
    apply ih (fun d hd => hcells d (List.mem_cons_of_mem c hd))
    exact h.exec F (hcells c List.mem_cons_self)

/-- Cells that do not feed the output. -/
theorem Agree.run_other {root : SigSpec} {F : Cells} {cells : List Instance}
    (hcells : ∀ c ∈ cells, c ∈ M.combCells ∧ ¬ M.Feeds root c) {σ σ' : Valuation} (h : M.Agree root σ σ') :
    M.Agree root σ (M.run F cells σ') := by
  induction cells generalizing σ' with
  | nil => exact h
  | cons c cells ih =>
    apply ih (fun d hd => hcells d (List.mem_cons_of_mem c hd))
    intro v k hneeds
    obtain ⟨hcomb, hfeeds⟩ := hcells c List.mem_cons_self
    rw [exec_other fun hdriven => hfeeds ⟨hcomb, _, hdriven, hneeds⟩]
    exact h v k hneeds

theorem Agree.output {w : Wire} {σ σ' : Valuation} (h : M.Agree w.all σ σ') :
    M.output σ w = M.output σ' w := by
  unfold Combinational.output value
  rw [h.sources fun b hb => .port hb]

/-- The buckets that a mask leaves out do not feed the signal. -/
theorem agree_buckets {t : Marks} {root : SigSpec} {F : Cells} {mask : BitVec 256} {is : List Nat}
    (hout : ∀ i ∈ is, i < 256 ∧ (mask.getLsbD i = false → ∀ c ∈ M.bucket t i, ¬ M.Feeds root c))
    {σ σ' : Valuation} (h : M.Agree root σ σ') :
    M.Agree root (M.run F (is.flatMap fun i => if mask.getLsbD i then M.bucket t i else []) σ)
      (M.run F (is.flatMap fun i =>
        if (BitVec.allOnes 256).getLsbD i then M.bucket t i else []) σ') := by
  induction is generalizing σ σ' with
  | nil => exact h
  | cons i is ih =>
    obtain ⟨hi, hdead⟩ := hout i List.mem_cons_self
    have hcomb : ∀ c ∈ M.bucket t i, c ∈ M.combCells := fun c hc =>
      mem_sorted.mp (List.mem_filter.mp hc).1
    have hall : (BitVec.allOnes 256).getLsbD i = true := by
      rw [BitVec.getLsbD_allOnes]
      exact decide_eq_true hi
    rw [List.flatMap_cons, List.flatMap_cons, run_append, run_append, if_pos hall]
    apply ih fun j hj => hout j (List.mem_cons_of_mem i hj)
    cases hmask : mask.getLsbD i with
    | true => exact h.run hcomb
    | false => exact h.run_other fun c hc => ⟨hcomb c hc, hdead hmask c hc⟩

theorem evaluated_value {t : Marks} (h : Global (M := M) M.outputs.length t) (hsplit : M.Unsplit)
    {F : Cells} {σ : Valuation} {mask : BitVec 256} {i : Nat} {w : Wire} (hw : M.outputs[i]? = some w)
    (hlive : live mask i = true) : M.output (M.run F (M.evaluated t mask) σ) w =
      M.output (M.run F (M.evaluated t (BitVec.allOnes 256)) σ) w := by
  apply Agree.output
  unfold evaluated
  rw [run_append, run_append]
  refine agree_buckets (fun k hk => ?_) fun _ _ _ => rfl
  have hk' : k < 256 := (lt_min_iff.mp (List.mem_range.mp hk)).2
  refine ⟨hk', fun hdead c hc hfeeds => ?_⟩
  have halone := (mem_bucket h hk').mp hc
  by_cases hi : i < 256
  · obtain rfl := halone.2.2 i hi ⟨w, hw, hfeeds⟩
    rw [live, if_pos hi, hdead] at hlive
    cases hlive
  · exact hsplit c k i halone (Nat.le_of_not_lt hi) ⟨w, hw, hfeeds⟩

theorem unsplit_of_pruned (hpruned : M.Pruned) : M.Unsplit := by
  obtain ⟨t, ht, hglobal⟩ := cones_spec M
  obtain ⟨t', ht', hpruned⟩ := hpruned
  cases ht.symm.trans ht'
  intro c i j halone hj hfeeds
  -- all outputs are live but the one that the cell feeds alone
  have hlive : live (~~~ BitVec.twoPow 256 i) j = true := if_neg (by omega)
  have hmem := hpruned.evaluated (~~~ BitVec.twoPow 256 i) j c hlive hfeeds
  have hbit := ((mem_evaluated hglobal).mp hmem).2 i halone
  rw [BitVec.getLsbD_not, BitVec.getLsbD_twoPow, decide_eq_true halone.1] at hbit
  simp at hbit

theorem pruned_of_unsplit (hsplit : M.Unsplit) : M.Pruned := by
  obtain ⟨t, ht, hglobal⟩ := cones_spec M
  refine ⟨t, ht, ?_⟩
  constructor
  · intro F σ mask i w hw hlive
    exact evaluated_value hglobal hsplit hw hlive
  · intro mask i c hlive hfeeds
    apply (mem_evaluated hglobal).mpr
    refine ⟨⟨i, hfeeds⟩, fun k halone => ?_⟩
    by_cases hi : i < 256
    · rw [← halone.2.2 i hi hfeeds]
      rwa [live, if_pos hi] at hlive
    · exact absurd hfeeds (hsplit c k i halone (Nat.le_of_not_lt hi))
  · intro mask c d hc hreads hbefore
    exact evaluated_order hglobal hsplit hc hreads hbefore

/-- Dead outputs are pruned and nothing else exactly when no cell feeds one of the first 256 outputs
    alone and an output behind them too. -/
theorem pruned_iff (M : Combinational) : M.Pruned ↔ M.Unsplit :=
  ⟨unsplit_of_pruned, pruned_of_unsplit⟩

/-! ## A cell behind the mask -/

/-- The outputs between the first and the last. -/
def spare (k : Nat) : Wire := ⟨"u" ++ toString k, 1⟩

/-- `y = ~a; z = y`, with `y` the first and `z` the last of 257 outputs. -/
def splitOutputs : Combinational where
  cells := [inverter "A" "a" "y"]
  inputs := [⟨"a", 1⟩]
  sigmap b := if b = .wire ⟨"z", 1⟩ 0 then .wire ⟨"y", 1⟩ 0 else b
  nodup := by decide
  comb := [inverter "A" "a" "y"]
  sorted := [inverter "A" "a" "y"]
  outputs := ⟨"y", 1⟩ :: (List.range 255).map spare ++ [⟨"z", 1⟩]
  connections := [(oneBit "z", oneBit "y")]
  regbit _ := none
  comb_perm := by decide
  sorted_eq := by decide
  idem b := by
    by_cases h : b = .wire ⟨"z", 1⟩ 0
    · simp [h]
    · simp [h]
  sigmap_const _ := rfl
  joined := by decide
  single := by decide
  source c hc b hb := by
    obtain rfl := List.mem_singleton.mp (show c ∈ [inverter "A" "a" "y"] from hc)
    obtain rfl := List.mem_singleton.mp (show b ∈ oneBit "y" from hb)
    exact ⟨⟨"y", 1⟩, 0, by decide, by decide, rfl⟩

theorem spare_ne (k : Nat) {name : String} (h : name.toList.head? ≠ some 'u') :
    spare k ≠ ⟨name, 1⟩ := by
  intro heq
  have hname : "u" ++ toString k = name := congrArg Wire.name heq
  apply h
  rw [← hname, String.toList_append]
  rfl

/-- Nothing drives an output between the first and the last. -/
theorem needs_spare {k : Nat} {n : SigBit} (h : splitOutputs.Needs (spare k).all n) :
    n = .wire (spare k) 0 := by
  induction h with
  | @port b hb =>
    obtain rfl := List.mem_singleton.mp (show b ∈ [.wire (spare k) 0] from hb)
    have hne : SigBit.wire (spare k) 0 ≠ .wire ⟨"z", 1⟩ 0 := fun heq =>
      spare_ne k (by decide) (SigBit.wire.inj heq).1
    simp only [splitOutputs, hne, if_false]
  | @read c b b' hc hb _ hb' ih =>
    obtain rfl := List.mem_singleton.mp (show c ∈ [inverter "A" "a" "y"] from hc)
    obtain rfl := List.mem_singleton.mp (show b ∈ oneBit "y" from hb)
    have hy : SigBit.wire ⟨"y", 1⟩ 0 = .wire (spare k) 0 := ih
    exact absurd (SigBit.wire.inj hy).1.symm (spare_ne k (by decide))

/-- The inverter is in the bucket of `y`: when only `z` is live it is not evaluated. -/
theorem not_pruned_splitOutputs : ¬ splitOutputs.Pruned := by
  intro h
  have hcomb : inverter "A" "a" "y" ∈ splitOutputs.combCells := by decide
  have hdriven : .wire ⟨"y", 1⟩ 0 ∈ (inverter "A" "a" "y").driven := by decide
  have hfirst : splitOutputs.FeedsAt 0 (inverter "A" "a" "y") :=
    ⟨⟨"y", 1⟩, rfl, hcomb, _, hdriven, .port (by decide)⟩
  have hlast : splitOutputs.FeedsAt 256 (inverter "A" "a" "y") :=
    ⟨⟨"z", 1⟩, by simp [splitOutputs], hcomb, _, hdriven,
      Needs.port (M := splitOutputs) (b := .wire ⟨"z", 1⟩ 0) (by decide)⟩
  apply unsplit_of_pruned h _ 0 256 ⟨by decide, hfirst, ?_⟩ (Nat.le_refl _) hlast
  intro j hj ⟨w, hw, _, b, hb, hneeds⟩
  obtain rfl := List.mem_singleton.mp (show b ∈ oneBit "y" from hb)
  cases j with
  | zero => rfl
  | succ j =>
    have hspare : splitOutputs.outputs[j + 1]? = some (spare j) := by
      have hj' : j < 255 := by omega
      simp [splitOutputs, List.getElem?_append, hj']
    rw [hspare] at hw
    cases hw
    have hy := needs_spare hneeds
    exact absurd (SigBit.wire.inj hy).1.symm (spare_ne j (by decide))

end Combinational

end Yosys.Rtlil
