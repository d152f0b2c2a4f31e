import Sv2ghdl.Graph.PostOrder
import Sv2ghdl.Yosys.SigExpr

/-!
# The order of emission

`wire_driver` and `topo_visit` of `yosys/gen_statemachine.cpp`: the combinational cells in the order
in which they are emitted, found by a depth-first walk along the bits that a cell reads and the cells
recorded as drivers of these bits.
-/

open PostOrder

namespace Yosys.Rtlil

/-! ## The netlist -/

/-- The kinds that the passes over `mod->cells_` tell apart. -/
inductive Kind where
  /-- `$dff`, `$adff`, `$sdff` and those with an enable -/
  | register
  | meminit
  | scopeinfo
  | memrd
  | memwr
  /-- every other cell -/
  | comb
  deriving DecidableEq, Repr

inductive PortId where
  | Y
  | DATA
  | Q
  | other (name : String)
  deriving DecidableEq, Repr

/-- A cell with its `connections()`. -/
structure Instance where
  name : String
  kind : Kind
  connections : List (PortId × SigSpec)
  deriving DecidableEq

namespace Instance

/-- The signals at a port: one, or none when the cell does not have the port. -/
def port (c : Instance) (id : PortId) : List SigSpec :=
  (c.connections.filter (·.1 = id)).map Prod.snd

/-- The port that a cell drives. -/
def output (c : Instance) : Option PortId :=
  match c.kind with
  | .comb => some .Y
  | .memrd => some .DATA
  | .register => some .Q
  -- a write port reads its data
  | .memwr | .meminit | .scopeinfo => none

def driven (c : Instance) : SigSpec :=
  (c.connections.filter fun conn => c.output = some conn.1).flatMap Prod.snd

/-- The bits at the input ports; no cell has an input `Y`. -/
def read (c : Instance) : SigSpec :=
  (c.connections.filter fun conn => conn.1 ≠ .Y ∧ c.output ≠ some conn.1).flatMap Prod.snd

end Instance

/-- `mod`, with the representatives of its nets. -/
structure Netlist where
  cells : List Instance
  inputs : List Wire
  sigmap : SigBit → SigBit
  nodup : cells.Nodup

namespace Netlist

variable (N : Netlist)

/-! ## The pass over the netlist -/

/-- The signals that `markspec` is called with, in order. -/
def marked : List SigSpec :=
  (N.cells.flatMap fun c => c.port .Y ++ c.port .DATA ++ c.port .Q) ++
    N.inputs.map fun w => (Chunk.wire w 0 w.width).bits

/-- The marks of the bits on wires. -/
def marks : SigSpec := N.marked.flatten.filter fun b => !isConst b

/-- `redirect`: the last mark of a representative wins. -/
def redirect (b : SigBit) : SigBit :=
  (N.marks.reverse.find? fun raw => N.sigmap raw = b).getD b

def nets : Nets := ⟨N.sigmap, N.redirect⟩

def combCells : List Instance :=
  N.cells.filter fun c => c.kind = .comb ∨ c.kind = .memrd ∨ c.kind = .memwr

/-- Whether a chunk covers a bit. -/
def covers (b : SigBit) : Chunk → Bool
  | .wire w offset width =>
    match b with
    | .wire v i => v = w && offset ≤ i && i < offset + width
    | .const _ => false
  | .const _ => false

/-- The cells that `wire_driver` holds for a bit: one entry for each chunk that covers it. -/
def drivers (comb : List Instance) (b : SigBit) : List Instance :=
  comb.flatMap fun c =>
    ((c.port .Y ++ c.port .DATA).flatMap chunks).filterMap fun chunk =>
      if covers b chunk then some c else none

/-- The cells that `topo_visit` visits from a cell. -/
def dependencies (comb : List Instance) (c : Instance) : List Instance :=
  (c.connections.filter (·.1 ≠ .Y)).flatMap fun conn =>
    (N.nets.resolve conn.2).flatMap (drivers comb)

/-- `sorted`, for an order of `comb_cells` -/
def sorted (comb : List Instance) : Option (List Instance) := sort (N.dependencies comb) comb

/-! ## What the order is for -/

/-- A combinational cell reads a bit that another drives.  Write ports are sequential: they drive
    nothing, and are not ordered. -/
structure Reads (c d : Instance) : Prop where
  reader : c ∈ N.combCells
  driver : d ∈ N.combCells
  ordered : c.kind ≠ .memwr
  meets : ∃ b ∈ c.read, ∃ b' ∈ d.driven,
    isConst b = false ∧ isConst b' = false ∧ N.sigmap b = N.sigmap b'

instance (c d : Instance) : Decidable (N.Reads c d) :=
  decidable_of_iff (c ∈ N.combCells ∧ d ∈ N.combCells ∧ c.kind ≠ .memwr ∧ ∃ b ∈ c.read,
      ∃ b' ∈ d.driven, isConst b = false ∧ isConst b' = false ∧ N.sigmap b = N.sigmap b')
    ⟨fun ⟨hc, hd, hk, h⟩ => ⟨hc, hd, hk, h⟩, fun ⟨hc, hd, hk, h⟩ => ⟨hc, hd, hk, h⟩⟩

/-- No cell reads, directly or through others, what it drives. -/
def Acyclic : Prop := ∀ c, ¬ Relation.TransGen N.Reads c c

/-- Whatever the order of `comb_cells`, every cell is listed once, and after those it reads from. -/
def Topological : Prop :=
  ∀ comb : List Instance, comb.Perm N.combCells →
    ∃ l, N.sorted comb = some l ∧ l.Perm N.combCells ∧ ∀ c d, N.Reads c d → Before d c l

/-! ## The graph that is walked -/

/-- `topo_visit` goes from `c` to `d`: a bit at a port other than `Y` resolves to a bit that `d` has
    at `Y` or `DATA`. -/
def Visits (c d : Instance) : Prop :=
  ∃ conn ∈ c.connections, conn.1 ≠ .Y ∧
    ∃ b ∈ N.nets.resolve conn.2, ∃ sig ∈ d.port .Y ++ d.port .DATA, ∃ chunk ∈ chunks sig,
      covers b chunk = true

variable {N}

theorem mem_drivers {comb : List Instance} {b : SigBit} {d : Instance} :
    d ∈ drivers comb b ↔ d ∈ comb ∧
      ∃ sig ∈ d.port .Y ++ d.port .DATA, ∃ chunk ∈ chunks sig, covers b chunk = true := by
  unfold drivers
  simp only [List.mem_flatMap, List.mem_filterMap]
  constructor
  · rintro ⟨c, hc, chunk, ⟨sig, hsig, hchunk⟩, h⟩
    split at h
    · next hcovers =>
      cases h
      exact ⟨hc, sig, hsig, chunk, hchunk, hcovers⟩
    · cases h
  · rintro ⟨hd, sig, hsig, chunk, hchunk, hcovers⟩
    exact ⟨d, hd, chunk, ⟨sig, hsig, hchunk⟩, by rw [if_pos hcovers]⟩

/-- The cells that are visited do not depend on the order of `comb_cells`. -/
theorem edge_iff {comb : List Instance} {c d : Instance} :
    Edge (N.dependencies comb) c d ↔ d ∈ comb ∧ N.Visits c d := by
  unfold Edge dependencies Visits
  simp only [List.mem_flatMap, List.mem_filter, decide_eq_true_eq, mem_drivers]
  constructor
  · rintro ⟨conn, ⟨hconn, hY⟩, b, hb, hd, h⟩
    exact ⟨hd, conn, hconn, hY, b, hb, h⟩
  · rintro ⟨hd, conn, hconn, hY, b, hb, h⟩
    exact ⟨conn, ⟨hconn, hY⟩, b, hb, hd, h⟩

theorem edge_perm {comb : List Instance} (h : comb.Perm N.combCells) :
    Edge (N.dependencies comb) = Edge (N.dependencies N.combCells) := by
  funext c d
  apply propext
  rw [edge_iff, edge_iff, h.mem_iff]

theorem nodup_combCells : N.combCells.Nodup := N.nodup.filter _

/-- The walk lists the cells of `comb_cells`, each once. -/
theorem sorted_perm {comb : List Instance} (h : comb.Perm N.combCells) :
    ∃ l, N.sorted comb = some l ∧ l.Perm comb := by
  apply sort_perm (h.nodup_iff.mpr nodup_combCells)
  intro c _ d hd
  exact (edge_iff.mp hd).1

/-! ## When the order is right -/

/-- A path from `c` to `d`, for the walk. -/
def Leads (N : Netlist) : Instance → Instance → Prop := Reach (N.dependencies N.combCells)

/-- A path from `c` to `d` on which no cell after `c` leads back to it. -/
def LeadsClear (N : Netlist) : Instance → Instance → Prop := Clear (N.dependencies N.combCells)

/-- A cell that is visited from a reader is on a clear path unless it leads back to it. -/
theorem leadsClear_of_visits {c d : Instance} (hd : d ∈ N.combCells) (h : N.Visits c d)
    (hback : ¬ N.Leads d c) : N.LeadsClear c d :=
  Clear.of_edge (edge_iff.mpr ⟨hd, h⟩) hback

theorem topological_of_clear (h : ∀ c d, N.Reads c d → N.LeadsClear c d) : N.Topological := by
  intro comb hcomb
  obtain ⟨l, hl, hperm⟩ := sorted_perm hcomb
  refine ⟨l, hl, hperm.trans hcomb, ?_⟩
  intro c d hreads
  have hc : c ∈ l := by
    rw [hperm.mem_iff, hcomb.mem_iff]
    exact hreads.reader
  apply (sort_spec hl).2.2.2 c hc d
  exact (h c d hreads).congr (edge_perm hcomb).symm

/-- Exactly the cells that the first cell leads to stand before it. -/
theorem sorted_first {a : Instance} (ha : a ∈ N.combCells) :
    ∃ comb, comb.Perm N.combCells ∧ ∃ l₁ l₂, N.sorted comb = some (l₁ ++ a :: l₂) ∧
      (l₁ ++ a :: l₂).Nodup ∧ ∀ x, x ∈ l₁ ↔ x ≠ a ∧ N.Leads a x := by
  have hcomb : (a :: N.combCells.erase a).Perm N.combCells := (List.perm_cons_erase ha).symm
  refine ⟨_, hcomb, ?_⟩
  obtain ⟨l, hl, hperm⟩ := sorted_perm hcomb
  obtain ⟨l₁, l₂, rfl, hbefore⟩ := sort_first hl
  refine ⟨l₁, l₂, hl, (sort_spec hl).1, ?_⟩
  intro x
  rw [hbefore x, Leads, Reach, Reach, edge_perm hcomb]

theorem leads_of_topological (htopo : N.Topological) {c d : Instance} (h : N.Reads c d) :
    N.Leads c d := by
  -- with the reader first, only what it leads to can stand before it
  obtain ⟨comb, hcomb, l₁, l₂, hl, hnodup, hfirst⟩ := sorted_first h.reader
  obtain ⟨l, hl', -, hbefore⟩ := htopo comb hcomb
  rw [hl] at hl'
  cases hl'
  have hd := (hbefore c d h).mem hnodup
  exact ((hfirst d).mp hd).2

theorem not_leads_of_topological (htopo : N.Topological) {c d : Instance} (h : N.Reads c d) :
    ¬ N.Leads d c := by
  intro hback
  -- with the driver first, the reader would be left before it
  obtain ⟨comb, hcomb, l₁, l₂, hl, hnodup, hfirst⟩ := sorted_first h.driver
  obtain ⟨l, hl', -, hbefore⟩ := htopo comb hcomb
  rw [hl] at hl'
  cases hl'
  have hbefore := hbefore c d h
  by_cases hcd : c = d
  · subst hcd
    exact ((hfirst c).mp (hbefore.mem hnodup)).1 rfl
  · apply hbefore.not_mem hnodup
    exact (hfirst c).mpr ⟨hcd, hback⟩

/-! ## One mark for each net -/

/-- No two marks of `redirect` are for one net. -/
def OneMark (N : Netlist) : Prop :=
  ∀ b ∈ N.marks, ∀ b' ∈ N.marks, N.sigmap b = N.sigmap b' → b = b'

theorem covers_of_mem {b : SigBit} {sig : SigSpec} (hb : b ∈ sig) (hwire : isConst b = false) :
    ∃ chunk ∈ chunks sig, covers b chunk = true := by
  rw [← bits_chunks sig, List.mem_flatMap] at hb
  obtain ⟨chunk, hchunk, hb⟩ := hb
  refine ⟨chunk, hchunk, ?_⟩
  cases chunk with
  | wire w offset width =>
    simp only [Chunk.bits, List.mem_map, List.mem_range'_1] at hb
    obtain ⟨i, hi, rfl⟩ := hb
    simp only [covers, Bool.and_eq_true, decide_eq_true_eq]
    exact ⟨⟨trivial, hi.1⟩, hi.2⟩
  | const data =>
    simp only [Chunk.bits, List.mem_map] at hb
    obtain ⟨s, -, rfl⟩ := hb
    cases hwire

/-- What a cell drives stands at `Y` or `DATA`, unless it is a register. -/
theorem driven_port {d : Instance} (hd : d ∈ N.combCells) {b : SigBit} (hb : b ∈ d.driven) :
    ∃ sig ∈ d.port .Y ++ d.port .DATA, b ∈ sig := by
  unfold Instance.driven at hb
  simp only [List.mem_flatMap, List.mem_filter, decide_eq_true_eq] at hb
  obtain ⟨conn, ⟨hconn, hout⟩, hb⟩ := hb
  refine ⟨conn.2, ?_, hb⟩
  have hport : conn.1 = .Y ∨ conn.1 = .DATA := by
    unfold combCells at hd
    unfold Instance.output at hout
    cases hk : d.kind <;> simp_all
  simp only [Instance.port, List.mem_append, List.mem_map, List.mem_filter, decide_eq_true_eq]
  rcases hport with h | h
  · exact .inl ⟨conn, ⟨hconn, h⟩, rfl⟩
  · exact .inr ⟨conn, ⟨hconn, h⟩, rfl⟩

/-- With one mark for each net a read resolves to the bit that is driven. -/
theorem redirect_driven (hmark : N.OneMark) {d : Instance} (hd : d ∈ N.combCells) {b b' : SigBit}
    (hb' : b' ∈ d.driven) (hwire : isConst b' = false) (hnet : N.sigmap b = N.sigmap b') :
    N.redirect (N.sigmap b) = b' := by
  have hmem : b' ∈ N.marks := by
    obtain ⟨sig, hsig, hb'⟩ := driven_port hd hb'
    unfold marks marked
    simp only [List.mem_filter, List.mem_flatten, List.mem_append, List.mem_flatMap, hwire,
      Bool.not_false, and_true]
    refine ⟨sig, .inl ⟨d, (List.mem_filter.mp hd).1, ?_⟩, hb'⟩
    rcases List.mem_append.mp hsig with h | h
    · exact .inl (.inl h)
    · exact .inl (.inr h)
  unfold redirect
  cases hfind : N.marks.reverse.find? fun raw => N.sigmap raw = N.sigmap b with
  | none =>
    have hnone := List.find?_eq_none.mp hfind b' (List.mem_reverse.mpr hmem)
    exact absurd hnet.symm (by simpa using hnone)
  | some raw =>
    have hraw := List.mem_reverse.mp (List.mem_of_find?_eq_some hfind)
    have hsame := List.find?_some hfind
    rw [decide_eq_true_eq] at hsame
    exact hmark raw hraw b' hmem (hsame.trans hnet)

theorem visits_of_reads (hmark : N.OneMark) {c d : Instance} (h : N.Reads c d) : N.Visits c d := by
  obtain ⟨b, hb, b', hb', -, hwire, hnet⟩ := h.meets
  unfold Instance.read at hb
  simp only [List.mem_flatMap, List.mem_filter, decide_eq_true_eq] at hb
  obtain ⟨conn, ⟨hconn, hY, -⟩, hb⟩ := hb
  obtain ⟨sig, hsig, hmem⟩ := driven_port h.driver hb'
  refine ⟨conn, hconn, hY, b', ?_, sig, hsig, covers_of_mem hmem hwire⟩
  rw [← redirect_driven hmark h.driver hb' hwire hnet]
  exact List.mem_map.mpr ⟨b, hb, rfl⟩

/-- The order is right for every order of `comb_cells` when each reader leads to its driver by a path
    from which nothing leads back, and only when it leads to it and the driver does not lead back.
    With one mark for each net that the driver does not lead back is all it takes. -/
theorem sorted_topological (N : Netlist) :
    ((∀ c d, N.Reads c d → N.LeadsClear c d) → N.Topological) ∧
      (N.Topological → ∀ c d, N.Reads c d → N.Leads c d ∧ ¬ N.Leads d c) ∧
      (N.OneMark → (N.Topological ↔ ∀ c d, N.Reads c d → ¬ N.Leads d c)) := by
  refine ⟨topological_of_clear, ?_, ?_⟩
  · intro htopo c d h
    exact ⟨leads_of_topological htopo h, not_leads_of_topological htopo h⟩
  · intro hmark
    constructor
    · intro htopo c d h
      exact not_leads_of_topological htopo h
    · intro hback
      apply topological_of_clear
      intro c d h
      exact leadsClear_of_visits h.driver (visits_of_reads hmark h) (hback c d h)

end Netlist

/-! ## A write port that closes a cycle -/

section WriteCycle

/-- The bit of a net of one bit. -/
def oneBit (name : String) : SigSpec := [.wire ⟨name, 1⟩ 0]

def inverter (name a y : String) : Instance :=
  ⟨name, .comb, [(.other "A", oneBit a), (.Y, oneBit y)]⟩

/-- `a = ~x; x = ~in; z = ~a; mem[z] <= x`: no cycle, as the write port drives nothing. -/
def writeCycle : Netlist where
  cells := [inverter "A" "x" "a", inverter "B" "in" "x", inverter "C" "a" "z",
    ⟨"W", .memwr, [(.other "ADDR", oneBit "z"), (.DATA, oneBit "x")]⟩]
  inputs := [⟨"in", 1⟩]
  sigmap := id
  nodup := by decide

/-- The place of the cells in the right order. -/
def writeCycleRank (c : Instance) : Nat :=
  if c.name = "B" then 0 else if c.name = "A" then 1 else 2

theorem writeCycle_acyclic : writeCycle.Acyclic := by
  have hstep : ∀ c d, writeCycle.Reads c d → writeCycleRank d < writeCycleRank c := by
    have hall : ∀ c ∈ writeCycle.combCells, ∀ d ∈ writeCycle.combCells, writeCycle.Reads c d →
        writeCycleRank d < writeCycleRank c := by decide
    exact fun c d h => hall c h.reader d h.driver h
  have hpath : ∀ c d, Relation.TransGen writeCycle.Reads c d →
      writeCycleRank d < writeCycleRank c := by
    intro c d h
    induction h with
    | single h => exact hstep _ _ h
    | tail _ h ih => exact (hstep _ _ h).trans ih
  exact fun c h => Nat.lt_irrefl _ (hpath c c h)

/-- The walk goes from `A` to `B` and to the write port, which has `x` at `DATA`, from there to `C`,
    and leaves `C` before `A`, whose bit `C` reads. -/
theorem not_topological_writeCycle : writeCycle.Acyclic ∧ ¬ writeCycle.Topological := by
  refine ⟨writeCycle_acyclic, ?_⟩
  intro htopo
  obtain ⟨l, hl, -, hbefore⟩ := htopo writeCycle.combCells (List.Perm.refl _)
  have hsorted : writeCycle.sorted writeCycle.combCells = some ([inverter "B" "in" "x"] ++
      inverter "C" "a" "z" ::
        [⟨"W", .memwr, [(.other "ADDR", oneBit "z"), (.DATA, oneBit "x")]⟩,
          inverter "A" "x" "a"]) := by
    decide
  rw [hsorted] at hl
  cases hl
  have hmem := (hbefore (inverter "C" "a" "z") (inverter "A" "x" "a") (by decide)).mem (by decide)
  revert hmem
  decide

end WriteCycle

end Yosys.Rtlil
