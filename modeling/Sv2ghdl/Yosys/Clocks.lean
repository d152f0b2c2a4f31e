import Sv2ghdl.Yosys.Memories

/-!
# Clock groups

The registers that `yosys/gen_statemachine.cpp` makes of the `$dff` cells, the group of their clock,
and `sm_clock_masked`, which commits the groups that its mask holds.
-/

open Clang

namespace Yosys.Rtlil

/-! ## Names -/

def cnameChar (c : Char) : List Char :=
  if c = ']' then [] else if c.isAlphanum ∨ c = '_' then [c] else List.replicate c.utf8Size '_'

def cname (s : String) : String :=
  let r := s.toList.flatMap cnameChar
  if r.head?.any Char.isDigit then "w_" ++ String.ofList r else String.ofList r

/-- The name of a net bit: the bit of a vector is told by a suffix. -/
def bitName (w : Wire) (i : Nat) : String :=
  if w.width > 1 then cname w.name ++ "__b" ++ toString i else cname w.name

/-- `port_name`: the name without a suffix `__b<digits>`. -/
def portName (name : String) : String :=
  let s := name.toList
  match (List.range (s.length + 1)).reverse.find? fun p => ['_', '_', 'b'].isPrefixOf (s.drop p) with
  | some p => if (s.drop (p + 3)).all Char.isDigit then String.ofList (s.take p) else name
  | none => name

/-! ## The netlist -/

inductive FlopType where
  | dff | adff | dffe | adffe | sdff | sdffe
  deriving DecidableEq, Repr

structure Flop where
  name : String
  type : FlopType
  D : SigSpec
  Q : SigSpec
  CLK : Option SigBit
  clkPolarity : Bool
  EN : Option SigSpec
  enPolarity : Option Bool
  ARST : Option SigSpec
  arstPolarity : Option Bool
  arstValue : List State
  deriving DecidableEq, Repr

/-- The port `EN` with its polarity, for the types whose enable is read. -/
def Flop.enable (c : Flop) : Option (SigSpec × Bool) :=
  if c.type = .dffe ∨ c.type = .adffe ∨ c.type = .sdffe then
    c.EN.map fun sig => (sig, c.enPolarity.getD true)
  else none

/-- The port `ARST` with its polarity. -/
def Flop.arst (c : Flop) : Option (SigSpec × Bool) :=
  if c.type = .adff ∨ c.type = .adffe then
    c.ARST.map fun sig => (sig, c.arstPolarity.getD true)
  else none

/-- The sequential part of a module, the cells in the order of `mod->cells_`. -/
structure Sequential where
  memories : Memories
  flops : List Flop
  inputs : List Wire

/-- A part of a merged register: the bits from `pos` on of a cell. -/
structure Slice where
  cell : Flop
  pos : Nat
  offset : Nat
  width : Nat
  deriving DecidableEq, Repr

inductive RegBody where
  | whole (c : Flop)
  | merged (w : Wire) (slices : List Slice)
  deriving DecidableEq, Repr

/-- `RegInfo` -/
structure Reg where
  name : String
  width : Nat
  clkName : String
  body : RegBody
  deriving DecidableEq, Repr

namespace Reg

/-- The cells whose bits a register holds. -/
def cells (r : Reg) : List Flop :=
  match r.body with
  | .whole c => [c]
  | .merged _ slices => slices.map Slice.cell

/-- The merged register of a wire, in `sliced_reg_idx`. -/
def merges (r : Reg) (w : Wire) : Bool :=
  match r.body with
  | .whole _ => false
  | .merged v _ => v = w

def slices (r : Reg) : List Slice :=
  match r.body with
  | .whole _ => []
  | .merged _ slices => slices

def addSlice (r : Reg) (sl : Slice) : Reg :=
  match r.body with
  | .whole _ => r
  | .merged w slices => { r with body := .merged w (slices ++ [sl]) }

end Reg

namespace Sequential

variable (N : Sequential)

def nets : Nets := N.memories.nets

/-! ## The pass over the registers -/

def qwireNcells (w : Wire) : Nat :=
  (N.flops.filter fun c => (chunks c.Q).any fun
    | .wire v _ _ => v = w
    | .const _ => false).length

/-- The wire that `Q` is, when no other cell shares it. -/
def wholeWire (c : Flop) : Option Wire :=
  match chunks c.Q with
  | [.wire w offset width] =>
    if offset = 0 ∧ width = w.width ∧ N.qwireNcells w = 1 then some w else none
  | _ => none

/-- A bit after `sigmap` and the redirection. -/
def net (b : SigBit) : SigBit := N.nets.redirect (N.nets.sigmap b)

/-- `clk_name`: for a whole-wire register the name of the bit, for a sliced one that of its wire. -/
def clkName (c : Flop) : String :=
  match c.CLK.map N.net with
  | some (.wire w i) => if (N.wholeWire c).isSome then bitName w i else cname w.name
  | _ => "_clk"

def addWhole (c : Flop) (w : Wire) (regs : List Reg) : List Reg :=
  let wname := if cname w.name ∈ regs.map Reg.name then cname c.name else cname w.name
  regs ++ [⟨wname, c.Q.length, N.clkName c, .whole c⟩]

/-- A chunk of a sliced `Q`; `pos` bits of it are done.  A register that is new has the clock of the
    cell and no other slice. -/
def addChunk (c : Flop) (acc : List Reg × Nat) : Chunk → Option (List Reg × Nat)
  | .const _ => none
  | .wire w offset width =>
    let sl : Slice := ⟨c, acc.2, offset, width⟩
    match acc.1.findIdx? (·.merges w) with
    | none =>
      if cname w.name ∈ acc.1.map Reg.name then none
      else some (acc.1 ++ [⟨cname w.name, w.width, N.clkName c, .merged w [sl]⟩], acc.2 + width)
    | some ri => do
      let mreg ← acc.1[ri]?
      if mreg.clkName ≠ N.clkName c then none
      else if mreg.slices.any fun osl => offset < osl.offset + osl.width ∧ osl.offset < offset + width
      then none
      else some (acc.1.set ri (mreg.addSlice sl), acc.2 + width)

def addFlop (regs : List Reg) (c : Flop) : Option (List Reg) :=
  match N.wholeWire c with
  | some w => some (N.addWhole c w regs)
  | none => ((chunks c.Q).foldlM (N.addChunk c) (regs, 0)).map Prod.fst

def registers : Option (List Reg) := N.flops.foldlM N.addFlop []

/-! ## The groups -/

def addClock (extra : List String) (r : Reg) : Option (List String) :=
  if r.clkName = "_clk" ∨ r.clkName ∈ extra then some extra
  else if portName r.clkName ∈ N.inputs.map (cname ·.name) then some (extra ++ [r.clkName])
  else none

def extraClocks (regs : List Reg) : Option (List String) := regs.foldlM N.addClock []

/-- `clk_group` -/
def groupOf (extra : List String) (clkName : String) : Nat :=
  if clkName = "_clk" then 0 else 1 + extra.idxOf clkName

/-- What the generator finds in a netlist that it does not decline; the members of `state_t` have
    different names, or it would not compile. -/
structure Accepted where
  regs : List Reg
  extra : List String
  registers_eq : N.registers = some regs
  extraClocks_eq : N.extraClocks regs = some extra
  names_nodup : (regs.map Reg.name).Nodup

/-! ## The generated program -/

/-- `state_t` -/
structure StateT where
  reg : String → Nat
  mem : Memories.Arrays

/-- A condition in C: `sig` or `!(sig)`. -/
def holds (σ : Valuation) (cond : SigSpec × Bool) : Bool :=
  (value σ (N.nets.resolve cond.1) != 0) == cond.2

/-- `posedge_mask & (1u<<group)` -/
def maskBit (mask : BitVec 32) (group : Nat) : CExpr :=
  .bin .and (.lit ⟨unsigned 32, mask.toNat⟩)
    (.bin .shl (.lit ⟨unsigned 32, 1⟩) (intLit group))

/-- `!(arst) && (posedge_mask & (1u<<group)) && (en)` -/
def commitCond (mask : BitVec 32) (group : Nat) (l : Locals N.memories.size) (c : Flop) :
    Option Bool :=
  if c.arst.any (N.holds l.nets) then some false
  else ((maskBit mask group).eval (Func.eval N.memories.size) l.env).map fun v =>
    v.pattern ≠ 0 && c.enable.all (N.holds l.nets)

/-- The bits of `D` that a register takes: a wide signal is materialized, without the redirection. -/
def data (σ : Valuation) (sig : SigSpec) : Nat :=
  if isWide sig.length then value σ (sig.map N.nets.sigmap) else value σ (N.nets.resolve sig)

/-- The bits of a slice in its register. -/
def Slice.mask (sl : Slice) : Nat := (2 ^ sl.width - 1) <<< sl.offset

/-- The commit of a register, slice by slice when it is merged. -/
def commit (mask : BitVec 32) (group : Nat) (l : Locals N.memories.size) (r : Reg) (old : Nat) :
    Option Nat :=
  match r.body with
  | .whole c =>
    (N.commitCond mask group l c).map fun on => if on then N.data l.nets c.D else old
  | .merged _ slices =>
    slices.foldlM (fun v sl => (N.commitCond mask group l sl.cell).map fun on =>
      if on then
        merge v (N.data l.nets (extract sl.cell.D sl.pos sl.width) <<< sl.offset) (Slice.mask sl)
      else v) old

/-- The level-sensitive reset of a register, as it stands before the combinational part. -/
def asyncReset (l : Locals N.memories.size) (r : Reg) (old : Nat) : Nat :=
  match r.body with
  | .whole c => if c.arst.any (N.holds l.nets) then constValue c.arstValue else old
  | .merged _ slices =>
    slices.foldl (fun v sl =>
      if sl.cell.arst.any (N.holds l.nets) then
        merge v (constValue ((sl.cell.arstValue.drop sl.pos).take sl.width) <<< sl.offset)
          (Slice.mask sl)
      else v) old

variable {N} (A : N.Accepted)

namespace Accepted

def group (r : Reg) : Nat := groupOf A.extra r.clkName

/-- "Async reset overrides" -/
def asyncResets (l : Locals N.memories.size) (s : StateT) : StateT :=
  { s with reg := A.regs.foldl (fun f r =>
      Function.update f r.name (N.asyncReset l r (f r.name))) s.reg }

/-- `emit_seq`, masked -/
def seq (mask : BitVec 32) (l : Locals N.memories.size) (s : StateT) : Option StateT := do
  let reg ← A.regs.foldlM (fun f r =>
    (N.commit mask (A.group r) l r (f r.name)).map (Function.update f r.name)) s.reg
  let mem ← N.memories.writePorts (some mask.toNat) l.env s.mem
  pure ⟨reg, mem⟩

/-- `sm_clock_masked`: the combinational part takes the locals from `l₀`, which the resets read, to
    `l`, and writes nothing else. -/
def clockMasked (l₀ l : Locals N.memories.size) (mask : BitVec 32) (s : StateT) : Option StateT :=
  A.seq mask l (A.asyncResets l₀ s)

end Accepted

/-! ## Every element on its own clock -/

/-- The cells that hold state. -/
inductive Storage where
  | flop (c : Flop)
  | port (p : WritePort)

variable (N) in
def storage : List Storage :=
  (N.flops.filter fun c => c.Q ≠ []).map .flop ++ N.memories.writes.map .port

variable (N) in
/-- The net bit that drives the port `CLK`. -/
def clkBit : Storage → Option SigBit
  | .flop c => c.CLK.map N.net
  | .port p => some (N.net p.CLK)

def Storage.polarity : Storage → Bool
  | .flop c => c.clkPolarity
  | .port p => p.clkPolarity

namespace Accepted

/-- The group that commits a cell: that of its register, and the main one for a write port. -/
def storageGroup : Storage → Nat
  | .flop c => ((A.regs.find? fun r => c ∈ r.cells).map A.group).getD 0
  | .port _ => 0

/-- The group of a net bit: the main clock has group 0, and the others are listed by their names. -/
def netGroup : SigBit → Option Nat
  | .const _ => none
  | .wire w i =>
    if bitName w i = "_clk" then some 0
    else if bitName w i ∈ A.extra then some (1 + A.extra.idxOf (bitName w i))
    else none

structure OwnClock : Prop where
  net : ∀ e ∈ N.storage, A.storageGroup e < 32 ∧
    ∃ b, N.clkBit e = some b ∧ A.netGroup b = some (A.storageGroup e)
  reset : ∀ l₀ s, ∀ r ∈ A.regs, (∀ c ∈ r.cells, c.arst.any (N.holds l₀.nets) = false) →
    (A.asyncResets l₀ s).reg r.name = s.reg r.name
  register : ∀ l₀ l mask s s', A.clockMasked l₀ l mask s = some s' → ∀ r ∈ A.regs, ∀ c ∈ r.cells,
    mask.getLsbD (A.storageGroup (.flop c)) = false →
    s'.reg r.name = (A.asyncResets l₀ s).reg r.name
  port : ∀ l₀ l mask s s', A.clockMasked l₀ l mask s = some s' → ∀ p ∈ N.memories.writes,
    mask.getLsbD (A.storageGroup (.port p)) = false → s'.mem p.memid = s.mem p.memid
  shared : ∀ e ∈ N.storage, ∀ e' ∈ N.storage, A.storageGroup e = A.storageGroup e' ↔
    N.clkBit e = N.clkBit e' ∧ e.polarity = e'.polarity

end Accepted

variable (N) in
/-- The nets that clock the cells are told apart by their names. -/
structure ClocksApart : Prop where
  flop : ∀ c ∈ N.flops, c.Q ≠ [] →
    ∃ w i, N.clkBit (.flop c) = some (.wire w i) ∧ (N.wholeWire c = none → w.width ≤ 1)
  port : ∀ p ∈ N.memories.writes, ∃ w i, N.clkBit (.port p) = some (.wire w i) ∧ bitName w i = "_clk"
  apart : ∀ e ∈ N.storage, ∀ e' ∈ N.storage, ∀ w i v j, N.clkBit e = some (.wire w i) →
    N.clkBit e' = some (.wire v j) → bitName w i = bitName v j →
    w = v ∧ i = j ∧ e.polarity = e'.polarity
  few : ∀ names : List String, names.Nodup → (∀ n ∈ names, n ≠ "_clk" ∧
    ∃ c ∈ N.flops, c.Q ≠ [] ∧ ∃ w i, N.clkBit (.flop c) = some (.wire w i) ∧ bitName w i = n) →
    names.length ≤ 31

/-! ## What the pass finds -/

/-- Registers of cells of `done`, each with the clock of its cells; those of `kept` have one. -/
structure Holding (N : Sequential) (done kept : List Flop) (regs : List Reg) : Prop where
  sound : ∀ r ∈ regs, ∀ c ∈ r.cells, c ∈ done ∧ c.Q ≠ [] ∧ r.clkName = N.clkName c
  cells : ∀ r ∈ regs, r.cells ≠ []
  stored : ∀ c ∈ kept, ∃ r ∈ regs, c ∈ r.cells

/-- An invariant of a fold that may fail. -/
theorem foldlM_rule {σ α : Type} (inv : List α → σ → Prop) {f : σ → α → Option σ} {l : List α}
    {s s' : σ} (h : inv [] s)
    (hstep : ∀ done a s s', a ∈ l → inv done s → f s a = some s' → inv (done ++ [a]) s')
    (hrun : l.foldlM f s = some s') : inv l s' := by
  suffices hgen : ∀ rest done s, (∀ a ∈ rest, a ∈ l) → inv done s → rest.foldlM f s = some s' →
      inv (done ++ rest) s' from hgen l [] s (fun _ ha => ha) h hrun
  intro rest
  induction rest with
  | nil =>
    intro done s _ h hrun
    cases hrun
    rwa [List.append_nil]
  | cons a rest ih =>
    intro done s hsub h hrun
    rw [List.foldlM_cons, Option.bind_eq_bind, Option.bind_eq_some_iff] at hrun
    obtain ⟨s₁, hs₁, hrun⟩ := hrun
    have hrest := ih (done ++ [a]) s₁ (fun b hb => hsub b (List.mem_cons_of_mem a hb))
      (hstep done a s s₁ (hsub a List.mem_cons_self) h hs₁) hrun
    rwa [List.append_assoc, List.singleton_append] at hrest

theorem cells_addSlice {r : Reg} {w : Wire} (h : r.merges w = true) (sl : Slice) :
    (r.addSlice sl).cells = r.cells ++ [sl.cell] ∧ (r.addSlice sl).clkName = r.clkName := by
  obtain ⟨name, width, clkName, body⟩ := r
  cases body with
  | whole c => cases h
  | merged v slices => exact ⟨List.map_append, rfl⟩

theorem Holding.addChunk {done kept : List Flop} {c : Flop} {regs regs' : List Reg}
    {pos pos' : Nat} {chunk : Chunk} (h : Holding N done kept regs) (hc : c ∈ done) (hQ : c.Q ≠ [])
    (hrun : N.addChunk c (regs, pos) chunk = some (regs', pos')) :
    Holding N done (c :: kept) regs' := by
  cases chunk with
  | const data => cases hrun
  | wire w offset width =>
    simp only [Sequential.addChunk] at hrun
    cases hfind : regs.findIdx? (·.merges w) with
    | none =>
      rw [hfind] at hrun
      simp only at hrun
      split_ifs at hrun with hused
      cases hrun
      constructor
      · intro r hr c' hc'
        rcases List.mem_append.mp hr with hr | hr
        · exact h.sound r hr c' hc'
        · obtain rfl := List.mem_singleton.mp hr
          obtain rfl := List.mem_singleton.mp hc'
          exact ⟨hc, hQ, rfl⟩
      · intro r hr
        rcases List.mem_append.mp hr with hr | hr
        · exact h.cells r hr
        · obtain rfl := List.mem_singleton.mp hr
          exact List.cons_ne_nil _ _
      · intro c' hc'
        rcases List.mem_cons.mp hc' with rfl | hc'
        · exact ⟨_, List.mem_append_right _ (List.mem_singleton_self _), List.mem_singleton_self _⟩
        · obtain ⟨r, hr, hmem⟩ := h.stored c' hc'
          exact ⟨r, List.mem_append_left _ hr, hmem⟩
    | some ri =>
      rw [hfind] at hrun
      simp only [Option.bind_eq_bind, Option.bind_eq_some_iff] at hrun
      obtain ⟨mreg, hmreg, hrun⟩ := hrun
      split_ifs at hrun with hclk hoverlap
      cases hrun
      obtain ⟨hlt, rfl⟩ := List.getElem?_eq_some_iff.mp hmreg
      have hmerges := (List.findIdx?_eq_some_iff_getElem.mp hfind).2.1
      obtain ⟨hcells, hname⟩ := cells_addSlice hmerges ⟨c, pos, offset, width⟩
      have hold := List.getElem_mem hlt
      constructor
      · intro r hr c' hc'
        rcases List.mem_or_eq_of_mem_set hr with hr | rfl
        · exact h.sound r hr c' hc'
        · rw [hcells] at hc'
          rw [hname]
          rcases List.mem_append.mp hc' with hc' | hc'
          · exact h.sound _ hold c' hc'
          · obtain rfl := List.mem_singleton.mp hc'
            exact ⟨hc, hQ, not_not.mp hclk⟩
      · intro r hr
        rcases List.mem_or_eq_of_mem_set hr with hr | rfl
        · exact h.cells r hr
        · rw [hcells]
          exact List.append_ne_nil_of_right_ne_nil _ (List.cons_ne_nil _ _)
      · intro c' hc'
        have hnew := List.mem_set hlt (regs[ri].addSlice ⟨c, pos, offset, width⟩)
        rcases List.mem_cons.mp hc' with rfl | hc'
        · refine ⟨_, hnew, ?_⟩
          rw [hcells]
          exact List.mem_append_right _ (List.mem_singleton_self _)
        · obtain ⟨r, hr, hmem⟩ := h.stored c' hc'
          obtain ⟨k, hk, rfl⟩ := List.getElem_of_mem hr
          by_cases hkri : ri = k
          · subst hkri
            refine ⟨_, hnew, ?_⟩
            rw [hcells]
            exact List.mem_append_left _ hmem
          · refine ⟨regs[k], List.mem_of_getElem? (i := k) ?_, hmem⟩
            rw [List.getElem?_set_ne hkri, List.getElem?_eq_getElem hk]

theorem Holding.mono {done done' kept : List Flop} {regs : List Reg} (h : Holding N done kept regs)
    (hsub : ∀ c ∈ done, c ∈ done') : Holding N done' kept regs :=
  ⟨fun r hr c hc => ⟨hsub c (h.sound r hr c hc).1, (h.sound r hr c hc).2⟩, h.cells, h.stored⟩

/-- The cells with a `Q`. -/
def stateful (cells : List Flop) : List Flop := cells.filter fun c => c.Q ≠ []

theorem chunks_nil {sig : SigSpec} (h : chunks sig = []) : sig = [] := by
  rw [← bits_chunks sig, h]
  rfl

theorem Holding.addFlop {done : List Flop} {c : Flop} {regs regs' : List Reg}
    (h : Holding N done (stateful done) regs) (hrun : N.addFlop regs c = some regs') :
    Holding N (done ++ [c]) (stateful (done ++ [c])) regs' := by
  have hmono : Holding N (done ++ [c]) (stateful done) regs :=
    h.mono fun c' hc' => List.mem_append_left _ hc'
  have hc : c ∈ done ++ [c] := List.mem_append_right _ (List.mem_singleton_self c)
  have hsplit : ∀ c', c' ∈ stateful (done ++ [c]) → c' ∈ stateful done ∨ c' = c ∧ c.Q ≠ [] := by
    intro c' hc'
    rw [stateful, List.mem_filter, List.mem_append, List.mem_singleton] at hc'
    obtain ⟨hmem | rfl, hQ⟩ := hc'
    · exact .inl (List.mem_filter.mpr ⟨hmem, hQ⟩)
    · exact .inr ⟨rfl, of_decide_eq_true hQ⟩
  unfold Sequential.addFlop at hrun
  split at hrun
  · next w hwhole =>
    cases hrun
    have hQ : c.Q ≠ [] := by
      intro hnil
      rw [wholeWire, hnil] at hwhole
      cases hwhole
    constructor
    · intro r hr c' hc'
      rcases List.mem_append.mp hr with hr | hr
      · exact hmono.sound r hr c' hc'
      · obtain rfl := List.mem_singleton.mp hr
        obtain rfl := List.mem_singleton.mp hc'
        exact ⟨hc, hQ, rfl⟩
    · intro r hr
      rcases List.mem_append.mp hr with hr | hr
      · exact hmono.cells r hr
      · obtain rfl := List.mem_singleton.mp hr
        exact List.cons_ne_nil _ _
    · intro c' hc'
      rcases hsplit c' hc' with hc' | ⟨rfl, -⟩
      · obtain ⟨r, hr, hmem⟩ := hmono.stored c' hc'
        exact ⟨r, List.mem_append_left _ hr, hmem⟩
      · exact ⟨_, List.mem_append_right _ (List.mem_singleton_self _), List.mem_singleton_self _⟩
  · next hwhole =>
    rw [Option.map_eq_some_iff] at hrun
    obtain ⟨acc, hrun, rfl⟩ := hrun
    by_cases hQ : c.Q = []
    · -- a cell of no bits leaves the registers as they are
      rw [hQ] at hrun
      cases hrun
      refine ⟨hmono.sound, hmono.cells, fun c' hc' => ?_⟩
      rcases hsplit c' hc' with hc' | ⟨-, hne⟩
      · exact hmono.stored c' hc'
      · exact absurd hQ hne
    · have hinv := foldlM_rule (fun seen acc =>
        Holding N (done ++ [c]) (if seen = [] then stateful done else c :: stateful done) acc.1)
        (by rw [if_pos rfl]; exact hmono) (by
          intro seen chunk acc acc' _ hacc hstep
          have hnext := hacc.addChunk hc hQ hstep
          rw [if_neg (List.append_ne_nil_of_right_ne_nil _ (List.cons_ne_nil _ _))]
          refine ⟨hnext.sound, hnext.cells, fun c' hc' => hnext.stored c' ?_⟩
          rcases List.mem_cons.mp hc' with rfl | hc'
          · exact List.mem_cons_self
          · split_ifs
            · exact List.mem_cons_of_mem _ hc'
            · exact List.mem_cons_of_mem _ (List.mem_cons_of_mem _ hc')) hrun
      rw [if_neg fun hnil => hQ (chunks_nil hnil)] at hinv
      refine ⟨hinv.sound, hinv.cells, fun c' hc' => hinv.stored c' ?_⟩
      rcases hsplit c' hc' with hc' | ⟨rfl, -⟩
      · exact List.mem_cons_of_mem _ hc'
      · exact List.mem_cons_self

theorem holding_registers {regs : List Reg} (hrun : N.registers = some regs) :
    Holding N N.flops (stateful N.flops) regs :=
  foldlM_rule (fun done regs => Holding N done (stateful done) regs)
    ⟨fun _ h => absurd h List.not_mem_nil, fun _ h => absurd h List.not_mem_nil,
      fun _ h => absurd h List.not_mem_nil⟩
    (fun _ _ _ _ _ h hstep => h.addFlop hstep) hrun

/-- The extra clocks are the names of the registers' clocks but the main one, each once. -/
theorem extraClocks_spec {regs : List Reg} {extra : List String}
    (hrun : N.extraClocks regs = some extra) :
    extra.Nodup ∧ ∀ n, n ∈ extra ↔ n ≠ "_clk" ∧ ∃ r ∈ regs, r.clkName = n := by
  apply foldlM_rule (fun done extra => extra.Nodup ∧
    ∀ n, n ∈ extra ↔ n ≠ "_clk" ∧ ∃ r ∈ done, r.clkName = n) ?_ ?_ hrun
  · simp
  · intro done r extra extra' _ h hstep
    obtain ⟨hnodup, hmem⟩ := h
    unfold addClock at hstep
    split_ifs at hstep with hknown hinput
    · cases hstep
      refine ⟨hnodup, fun n => ?_⟩
      rw [hmem]
      constructor
      · rintro ⟨hne, r', hr', hname⟩
        exact ⟨hne, r', List.mem_append_left _ hr', hname⟩
      · rintro ⟨hne, r', hr', rfl⟩
        rcases List.mem_append.mp hr' with hr' | hr'
        · exact ⟨hne, r', hr', rfl⟩
        · obtain rfl := List.mem_singleton.mp hr'
          exact (hmem _).mp (hknown.resolve_left hne)
    · cases hstep
      have hnew := not_or.mp hknown
      constructor
      · rw [List.nodup_append]
        refine ⟨hnodup, List.nodup_singleton _, fun a ha b hb heq => ?_⟩
        rw [List.mem_singleton.mp hb] at heq
        exact hnew.2 (heq ▸ ha)
      · intro n
        rw [List.mem_append, List.mem_singleton, hmem]
        constructor
        · rintro (⟨hne, r', hr', hname⟩ | rfl)
          · exact ⟨hne, r', List.mem_append_left _ hr', hname⟩
          · exact ⟨hnew.1, r, List.mem_append_right _ (List.mem_singleton_self r), rfl⟩
        · rintro ⟨hne, r', hr', rfl⟩
          rcases List.mem_append.mp hr' with hr' | hr'
          · exact .inl ⟨hne, r', hr', rfl⟩
          · rw [List.mem_singleton.mp hr']
            exact .inr rfl

namespace Accepted

variable {A}

theorem holding (A : N.Accepted) : Holding N N.flops (stateful N.flops) A.regs :=
  holding_registers A.registers_eq

theorem mem_extra (A : N.Accepted) (n : String) :
    n ∈ A.extra ↔ n ≠ "_clk" ∧ ∃ r ∈ A.regs, r.clkName = n :=
  (extraClocks_spec A.extraClocks_eq).2 n

/-- Names of clocks, and the groups they have. -/
theorem groupOf_inj {m n : String} (hm : m = "_clk" ∨ m ∈ A.extra)
    (h : groupOf A.extra m = groupOf A.extra n) : m = n := by
  unfold groupOf at h
  split_ifs at h with hmain hmain'
  · rw [hmain, hmain']
  · omega
  · omega
  · have hidx : A.extra.idxOf m = A.extra.idxOf n := by omega
    exact (List.idxOf_inj (hm.resolve_left hmain)).mp hidx

theorem clkName_mem (A : N.Accepted) {r : Reg} (hr : r ∈ A.regs) :
    r.clkName = "_clk" ∨ r.clkName ∈ A.extra := by
  by_cases h : r.clkName = "_clk"
  · exact .inl h
  · exact .inr ((A.mem_extra _).mpr ⟨h, r, hr, rfl⟩)

theorem group_eq (A : N.Accepted) {r : Reg} {c : Flop} (hr : r ∈ A.regs) (hc : c ∈ r.cells) :
    A.group r = groupOf A.extra (N.clkName c) := by
  rw [group, (A.holding.sound r hr c hc).2.2]

/-- A cell has the group of each register that holds bits of it. -/
theorem storageGroup_flop (A : N.Accepted) {r : Reg} {c : Flop} (hr : r ∈ A.regs) (hc : c ∈ r.cells) :
    A.storageGroup (.flop c) = groupOf A.extra (N.clkName c) := by
  show ((A.regs.find? fun r => c ∈ r.cells).map A.group).getD 0 = _
  cases hfind : A.regs.find? fun r => c ∈ r.cells with
  | none =>
    have hnone := List.find?_eq_none.mp hfind r hr
    exact absurd (decide_eq_true hc) hnone
  | some r' =>
    have hr' := List.mem_of_find?_eq_some hfind
    have hc' := (by simpa using List.find?_some hfind : c ∈ r'.cells)
    rw [Option.map_some, Option.getD_some, A.group_eq hr' hc']

/-! ## A group that the mask does not hold -/

theorem maskBit_eval {fn : Func → CEnv → Option Value} {env : CEnv} (mask : BitVec 32) {g : Nat}
    (hg : g < 32) : (maskBit mask g).eval fn env = some ⟨unsigned 32, mask.toNat &&& 2 ^ g⟩ := by
  have hone : (Expr.lit ⟨unsigned 32, 1⟩ : CExpr).Has fn env (unsigned 32) 1 := rfl
  have hmask : (Expr.lit ⟨unsigned 32, mask.toNat⟩ : CExpr).Has fn env (unsigned 32) mask.toNat := rfl
  have hshift := hone.shl hg (Nat.lt_of_lt_of_le hg (by decide))
  have hlt : 1 <<< g < 2 ^ 32 := by
    rw [Nat.one_shiftLeft]
    exact Nat.pow_lt_pow_right (by decide) hg
  have hand := hmask.and hshift mask.isLt (Nat.mod_lt _ (by decide))
  rwa [Nat.mod_eq_of_lt hlt, Nat.one_shiftLeft] at hand

theorem commitCond_off {mask : BitVec 32} {g : Nat} {l : Locals N.memories.size} {c : Flop} {on : Bool}
    (hrun : N.commitCond mask g l c = some on) (hg : g < 32) (hoff : mask.getLsbD g = false) :
    on = false := by
  unfold commitCond at hrun
  split_ifs at hrun with harst
  · cases hrun
    rfl
  · have hzero : mask.toNat &&& 2 ^ g = 0 := by
      rw [Nat.and_two_pow, ← BitVec.getLsbD, hoff]
      exact Nat.zero_mul _
    rw [maskBit_eval mask hg, Option.map_some, Value.pattern, hzero, Option.some.injEq] at hrun
    exact hrun.symm

theorem commit_off {mask : BitVec 32} {g : Nat} {l : Locals N.memories.size} {r : Reg} {old new : Nat}
    (hrun : N.commit mask g l r old = some new) (hg : g < 32) (hoff : mask.getLsbD g = false) :
    new = old := by
  unfold commit at hrun
  split at hrun
  · rw [Option.map_eq_some_iff] at hrun
    obtain ⟨on, hon, rfl⟩ := hrun
    rw [commitCond_off hon hg hoff]
    rfl
  · apply foldlM_rule (fun _ v => v = old) rfl ?_ hrun
    intro done sl v v' _ hv hstep
    rw [Option.map_eq_some_iff] at hstep
    obtain ⟨on, hon, rfl⟩ := hstep
    rw [commitCond_off hon hg hoff]
    exact hv

theorem name_inj (A : N.Accepted) {r r' : Reg} (hr : r ∈ A.regs) (hr' : r' ∈ A.regs)
    (h : r.name = r'.name) : r = r' := List.inj_on_of_nodup_map A.names_nodup hr hr' h

/-- The commits leave a register whose group the mask does not hold. -/
theorem seq_reg {l : Locals N.memories.size} {mask : BitVec 32} {s s' : StateT}
    (hrun : A.seq mask l s = some s') {r : Reg} (hr : r ∈ A.regs) (hg : A.group r < 32)
    (hoff : mask.getLsbD (A.group r) = false) : s'.reg r.name = s.reg r.name := by
  simp only [seq, Option.bind_eq_bind, Option.bind_eq_some_iff, Option.pure_def] at hrun
  obtain ⟨reg, hreg, mem, -, hs'⟩ := hrun
  cases hs'
  apply foldlM_rule (fun _ f => f r.name = s.reg r.name) rfl ?_ hreg
  intro done r' f f' hr' hf hstep
  rw [Option.map_eq_some_iff] at hstep
  obtain ⟨new, hnew, rfl⟩ := hstep
  by_cases hname : r.name = r'.name
  · obtain rfl := A.name_inj hr hr' hname
    rw [Function.update_self, commit_off hnew hg hoff, hf]
  · rw [Function.update_of_ne hname, hf]

theorem seq_mem {l : Locals N.memories.size} {mask : BitVec 32} {s s' : StateT}
    (hrun : A.seq mask l s = some s') (hoff : mask.getLsbD 0 = false) : s'.mem = s.mem := by
  simp only [seq, Option.bind_eq_bind, Option.bind_eq_some_iff, Option.pure_def] at hrun
  obtain ⟨reg, -, mem, hmem, hs'⟩ := hrun
  cases hs'
  apply foldlM_rule (fun _ f => f = s.mem) rfl ?_ hmem
  intro done p f f' _ hf hstep
  rw [Memories.writePort, Option.all_some, ← BitVec.getLsbD, hoff, if_neg Bool.false_ne_true] at hstep
  cases hstep
  exact hf

/-- A register none of whose cells asserts its reset keeps its value in the resets. -/
theorem asyncReset_off {l : Locals N.memories.size} {r : Reg} (old : Nat)
    (h : ∀ c ∈ r.cells, c.arst.any (N.holds l.nets) = false) : N.asyncReset l r old = old := by
  obtain ⟨name, width, clkName, body⟩ := r
  cases body with
  | whole c =>
    have hc := h c (List.mem_singleton_self c)
    simp only [asyncReset, hc, Bool.false_eq_true, if_false]
  | merged w slices =>
    simp only [asyncReset]
    apply List.foldlRecOn slices _ (motive := fun v => v = old) rfl
    intro v hv sl hsl
    rw [h sl.cell (List.mem_map_of_mem hsl)]
    exact hv

theorem asyncResets_off {l : Locals N.memories.size} {s : StateT} {r : Reg} (hr : r ∈ A.regs)
    (h : ∀ c ∈ r.cells, c.arst.any (N.holds l.nets) = false) :
    (A.asyncResets l s).reg r.name = s.reg r.name := by
  refine List.foldlRecOn (motive := fun f : String → Nat => f r.name = s.reg r.name) A.regs
    (fun f r => Function.update f r.name (N.asyncReset l r (f r.name))) rfl ?_
  intro f hf r' hr'
  by_cases hname : r.name = r'.name
  · obtain rfl := A.name_inj hr hr' hname
    rw [Function.update_self, asyncReset_off _ h, hf]
  · rw [Function.update_of_ne hname, hf]

/-! ## Own clocks, and names that tell them apart -/

theorem bitName_narrow {w : Wire} {i : Nat} (h : w.width ≤ 1) : bitName w i = cname w.name :=
  if_neg (Nat.not_lt.mpr h)

theorem bitName_wide {w : Wire} {i : Nat} (h : ¬ w.width ≤ 1) : bitName w i ≠ cname w.name := by
  intro heq
  rw [bitName, if_pos (Nat.lt_of_not_le h)] at heq
  have hlength := congrArg String.length heq
  have hsuffix : "__b".length = 3 := by decide
  rw [String.length_append, String.length_append, hsuffix] at hlength
  omega

/-- The name of a cell's clock is that of the net bit, but for a sliced register on a vector. -/
theorem clkName_eq_bitName {c : Flop} {w : Wire} {i : Nat}
    (hclk : N.clkBit (.flop c) = some (.wire w i)) :
    N.clkName c = bitName w i ↔ (N.wholeWire c = none → w.width ≤ 1) := by
  have hbit : c.CLK.map N.net = some (.wire w i) := hclk
  unfold clkName
  rw [hbit]
  cases N.wholeWire c with
  | some v => simp
  | none =>
    show cname w.name = bitName w i ↔ _
    by_cases h : w.width ≤ 1
    · simp [bitName_narrow h, h]
    · simp [(bitName_wide h).symm, h]

theorem mem_storage_flop {c : Flop} : Storage.flop c ∈ N.storage ↔ c ∈ stateful N.flops := by
  simp [storage, stateful]

theorem mem_storage_port {p : WritePort} : Storage.port p ∈ N.storage ↔ p ∈ N.memories.writes := by
  simp [storage]

/-- A cell with a `Q` is in a register whose clock is listed. -/
theorem storageGroup_clkName (A : N.Accepted) {c : Flop} (hc : c ∈ stateful N.flops) :
    A.storageGroup (.flop c) = groupOf A.extra (N.clkName c) ∧
      (N.clkName c = "_clk" ∨ N.clkName c ∈ A.extra) := by
  obtain ⟨r, hr, hmem⟩ := A.holding.stored c hc
  have hname := (A.holding.sound r hr c hmem).2.2
  exact ⟨A.storageGroup_flop hr hmem, hname ▸ A.clkName_mem hr⟩

theorem netGroup_eq_some {w : Wire} {i g : Nat} : A.netGroup (.wire w i) = some g ↔
    (bitName w i = "_clk" ∨ bitName w i ∈ A.extra) ∧ g = groupOf A.extra (bitName w i) := by
  unfold netGroup groupOf
  by_cases hmain : bitName w i = "_clk"
  · simp [hmain, eq_comm]
  · by_cases hmem : bitName w i ∈ A.extra
    · simp [hmain, hmem, eq_comm]
    · simp [hmain, hmem]

section Apart

variable (P : N.ClocksApart)

include P

/-- Each cell is on a net bit, in the group of its name. -/
theorem storageGroup_net (A : N.Accepted) {e : Storage} (he : e ∈ N.storage) :
    ∃ w i, N.clkBit e = some (.wire w i) ∧ (bitName w i = "_clk" ∨ bitName w i ∈ A.extra) ∧
      A.storageGroup e = groupOf A.extra (bitName w i) := by
  cases e with
  | flop c =>
    have hc := mem_storage_flop.mp he
    obtain ⟨hflop, hQ⟩ := List.mem_filter.mp hc
    obtain ⟨w, i, hclk, hwidth⟩ := P.flop c hflop (of_decide_eq_true hQ)
    obtain ⟨hgroup, hmem⟩ := A.storageGroup_clkName hc
    rw [(clkName_eq_bitName hclk).mpr hwidth] at hgroup hmem
    exact ⟨w, i, hclk, hmem, hgroup⟩
  | port p =>
    obtain ⟨w, i, hclk, hmain⟩ := P.port p (mem_storage_port.mp he)
    exact ⟨w, i, hclk, .inl hmain, by rw [groupOf, if_pos hmain]; rfl⟩

theorem extra_length (A : N.Accepted) : A.extra.length ≤ 31 := by
  apply P.few A.extra (extraClocks_spec A.extraClocks_eq).1
  intro n hn
  obtain ⟨hne, r, hr, rfl⟩ := (A.mem_extra n).mp hn
  obtain ⟨c, hc⟩ := List.exists_mem_of_ne_nil _ (A.holding.cells r hr)
  obtain ⟨hflop, hQ, hname⟩ := A.holding.sound r hr c hc
  obtain ⟨w, i, hclk, hwidth⟩ := P.flop c hflop hQ
  exact ⟨hne, c, hflop, hQ, w, i, hclk, by rw [hname, (clkName_eq_bitName hclk).mpr hwidth]⟩

theorem groupOf_lt (A : N.Accepted) {n : String} (hn : n = "_clk" ∨ n ∈ A.extra) :
    groupOf A.extra n < 32 := by
  unfold groupOf
  split_ifs with hmain
  · decide
  · have hlt := List.idxOf_lt_length_of_mem (hn.resolve_left hmain)
    have hfew := extra_length P A
    omega

theorem ownClock_of_apart (A : N.Accepted) : A.OwnClock := by
  constructor
  · intro e he
    obtain ⟨w, i, hclk, hmem, hgroup⟩ := storageGroup_net P A he
    refine ⟨hgroup ▸ groupOf_lt P A hmem, _, hclk, ?_⟩
    exact netGroup_eq_some.mpr ⟨hmem, hgroup⟩
  · intro l₀ s r hr hoff
    exact asyncResets_off hr hoff
  · intro l₀ l mask s s' hrun r hr c hc hoff
    rw [A.storageGroup_flop hr hc, ← A.group_eq hr hc] at hoff
    exact seq_reg hrun hr (groupOf_lt P A (A.clkName_mem hr)) hoff
  · intro l₀ l mask s s' hrun p hp hoff
    rw [seq_mem hrun hoff]
    rfl
  · intro e he e' he'
    obtain ⟨w, i, hclk, hmem, hgroup⟩ := storageGroup_net P A he
    obtain ⟨v, j, hclk', -, hgroup'⟩ := storageGroup_net P A he'
    constructor
    · intro heq
      rw [hgroup, hgroup'] at heq
      obtain ⟨rfl, rfl, hpol⟩ := P.apart e he e' he' w i v j hclk hclk' (groupOf_inj hmem heq)
      exact ⟨hclk.trans hclk'.symm, hpol⟩
    · intro heq
      rw [hclk, hclk', Option.some.injEq, SigBit.wire.injEq] at heq
      obtain ⟨⟨rfl, rfl⟩, -⟩ := heq
      rw [hgroup, hgroup']

end Apart

section Own

variable (O : A.OwnClock)

include O

/-- The net bit of a cell is a wire's, and its name has the group of the cell. -/
theorem storageGroup_bitName {e : Storage} (he : e ∈ N.storage) :
    ∃ w i, N.clkBit e = some (.wire w i) ∧ (bitName w i = "_clk" ∨ bitName w i ∈ A.extra) ∧
      A.storageGroup e = groupOf A.extra (bitName w i) := by
  obtain ⟨-, b, hclk, hgroup⟩ := O.net e he
  cases b with
  | const _ => cases hgroup
  | wire w i => exact ⟨w, i, hclk, netGroup_eq_some.mp hgroup⟩

theorem extra_length_of_own : A.extra.length ≤ 31 := by
  by_contra hmany
  -- the register of the clock listed in place 31 has group 32
  have hlt : 31 < A.extra.length := by omega
  obtain ⟨hne, r, hr, hname⟩ := (A.mem_extra _).mp (List.getElem_mem hlt)
  obtain ⟨c, hc⟩ := List.exists_mem_of_ne_nil _ (A.holding.cells r hr)
  obtain ⟨hflop, hQ, hclk⟩ := A.holding.sound r hr c hc
  have hc' : c ∈ stateful N.flops := List.mem_filter.mpr ⟨hflop, decide_eq_true hQ⟩
  have hgroup := (O.net _ (mem_storage_flop.mpr hc')).1
  rw [(A.storageGroup_clkName hc').1, ← hclk, hname, groupOf, if_neg hne,
    (extraClocks_spec A.extraClocks_eq).1.idxOf_getElem 31 hlt] at hgroup
  omega

theorem apart_of_ownClock : N.ClocksApart := by
  constructor
  · intro c hflop hQ
    have hc : c ∈ stateful N.flops := List.mem_filter.mpr ⟨hflop, decide_eq_true hQ⟩
    obtain ⟨w, i, hclk, hmem, hgroup⟩ := storageGroup_bitName O (mem_storage_flop.mpr hc)
    rw [(A.storageGroup_clkName hc).1] at hgroup
    exact ⟨w, i, hclk, (clkName_eq_bitName hclk).mp (groupOf_inj hmem hgroup.symm).symm⟩
  · intro p hp
    obtain ⟨w, i, hclk, hmem, hgroup⟩ := storageGroup_bitName O (mem_storage_port.mpr hp)
    refine ⟨w, i, hclk, ?_⟩
    by_contra hne
    have hzero : 0 = groupOf A.extra (bitName w i) := hgroup
    rw [groupOf, if_neg hne] at hzero
    omega
  · intro e he e' he' w i v j hclk hclk' hname
    obtain ⟨w', i', hclkw, -, hgroup⟩ := storageGroup_bitName O he
    obtain ⟨v', j', hclkv, -, hgroup'⟩ := storageGroup_bitName O he'
    cases hclk.symm.trans hclkw
    cases hclk'.symm.trans hclkv
    have hshared := (O.shared e he e' he').mp (by rw [hgroup, hgroup', hname])
    rw [hclk, hclk', Option.some.injEq, SigBit.wire.injEq] at hshared
    exact ⟨hshared.1.1, hshared.1.2, hshared.2⟩
  · intro names hnodup hnames
    have hsub : names ⊆ A.extra := by
      intro n hn
      obtain ⟨hne, c, hflop, hQ, w, i, hclk, rfl⟩ := hnames n hn
      have hc : c ∈ stateful N.flops := List.mem_filter.mpr ⟨hflop, decide_eq_true hQ⟩
      obtain ⟨w', i', hclk', hmem, -⟩ := storageGroup_bitName O (mem_storage_flop.mpr hc)
      cases hclk.symm.trans hclk'
      exact hmem.resolve_left hne
    exact (List.subperm_of_subset hnodup hsub).length_le.trans (extra_length_of_own O)

end Own

/-- Every cell commits on its own clock exactly when the nets that clock the cells are told apart by
    their names: no vector's bit clocks a sliced register, the memories are on the main clock, no
    net clocks on both edges, and there are at most 31 clocks but the main one. -/
theorem ownClock_iff (A : N.Accepted) : A.OwnClock ↔ N.ClocksApart :=
  ⟨apart_of_ownClock, fun P => ownClock_of_apart P A⟩

end Accepted

/-! ## Two edges of one clock -/

/-- A `$dff` of one bit on `\\clk`. -/
def bitFlop (name q : String) (clkPolarity : Bool) : Flop where
  name := name
  type := .dff
  D := [.wire ⟨"\\d", 1⟩ 0]
  Q := [.wire ⟨q, 1⟩ 0]
  CLK := some (.wire ⟨"\\clk", 1⟩ 0)
  clkPolarity := clkPolarity
  EN := none
  enPolarity := none
  ARST := none
  arstPolarity := none
  arstValue := []

def twoEdges : Sequential where
  memories := {
    size := .w32
    nets := ⟨id, id⟩
    realSize := fun _ => none
    width := fun _ => 1
    inits := []
    reads := []
    writes := []
    read_ports := Memories.threeWords.read_ports
    write_ports := fun _ h => absurd h List.not_mem_nil
    int_limbs := fun _ => by decide
    int_length := fun _ => by simp [memDepth, initDepth, wordLimbs, isWide] }
  flops := [bitFlop "$1" "\\p" true, bitFlop "$2" "\\n" false]
  inputs := [⟨"\\clk", 1⟩, ⟨"\\d", 1⟩]

def twoEdgesAccepted : twoEdges.Accepted where
  regs := [⟨"_p", 1, "_clk", .whole (bitFlop "$1" "\\p" true)⟩,
    ⟨"_n", 1, "_clk", .whole (bitFlop "$2" "\\n" false)⟩]
  extra := []
  registers_eq := by decide
  extraClocks_eq := by decide
  names_nodup := by decide

/-- The cells of both edges are in the group of `\\clk`, and one bit of the mask commits both. -/
theorem not_ownClock_twoEdges : ¬ twoEdgesAccepted.OwnClock := by
  intro h
  have hp : Storage.flop (bitFlop "$1" "\\p" true) ∈ twoEdges.storage :=
    Accepted.mem_storage_flop.mpr (by decide)
  have hn : Storage.flop (bitFlop "$2" "\\n" false) ∈ twoEdges.storage :=
    Accepted.mem_storage_flop.mpr (by decide)
  have hshared := (h.shared _ hp _ hn).mp (by decide)
  exact Bool.noConfusion hshared.2

end Sequential

end Yosys.Rtlil
