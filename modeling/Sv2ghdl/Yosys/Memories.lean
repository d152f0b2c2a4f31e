import Mathlib.Data.String.Basic
import Sv2ghdl.Clang.WordArray
import Sv2ghdl.Yosys.Materialize

/-!
# Memories

The memories that `yosys/gen_statemachine.cpp` keeps in `state_t`: the length of their arrays, the
words that `$memrd` reads, and the write ports, which `emit_seq` runs after every read.
-/

open Clang Yosys.WideRt

namespace Yosys.Rtlil

/-! ## The memories of a netlist -/

/-- A `$meminit` or `$meminit_v2` cell. -/
structure MemInit where
  memid : String
  addr : Nat
  words : Nat
  deriving DecidableEq, Repr

/-- A `$memrd` or `$memrd_v2` cell. -/
structure ReadPort where
  memid : String
  abits : Nat
  ADDR : SigSpec
  deriving DecidableEq, Repr

/-- A `$memwr` or `$memwr_v2` cell. -/
structure WritePort where
  memid : String
  abits : Nat
  portId : Option Int
  priority : Option Int
  ADDR : SigSpec
  DATA : SigSpec
  EN : SigSpec
  CLK : SigBit
  clkPolarity : Bool
  deriving DecidableEq, Repr

/-- `wprio` -/
def WritePort.wprio (p : WritePort) : Int := p.portId.getD (p.priority.getD 0)

/-- The order of `std::stable_sort` over the write ports. -/
def WritePort.le (p q : WritePort) : Bool :=
  if p.memid ≠ q.memid then p.memid < q.memid else p.wprio ≤ q.wprio

/-- The pass over the `$meminit` cells. -/
def initDepth (inits : List MemInit) (m : String) : Nat :=
  inits.foldl (fun depth i =>
    if i.memid = m ∧ depth < i.addr + max i.words 1 then i.addr + max i.words 1 else depth) 0

/-- `port_depth`: the size of the RTLIL memory, or what the address bits reach. -/
def portDepth (realSize : Option Nat) (abits depth : Nat) : Nat :=
  match realSize with
  | some (n + 1) => n + 1
  | _ => if 0 < abits ∧ abits < 31 then 2 ^ abits else depth

/-- The pass over the ports, given by their `MEMID` and `ABITS`. -/
def memDepth (realSize : String → Option Nat) (inits : List MemInit) (ports : List (String × Nat))
    (m : String) : Nat :=
  ports.foldl (fun depth p =>
    if p.1 = m ∧ depth < portDepth (realSize m) p.2 depth then portDepth (realSize m) p.2 depth
    else depth) (initDepth inits m)

/-- Every bit of a signal goes to a bit that a wire has. -/
def Nets.Valid (nets : Nets) (sig : SigSpec) : Prop :=
  (∀ b ∈ sig, (nets.sigmap b).Valid) ∧ ∀ b ∈ nets.resolve sig, b.Valid

/-- The element type of the array of a memory. -/
def limbBits (size : LimbSize) (width : Nat) : Nat := if isWide width then size.bits else 64

/-- The elements for one word. -/
def wordLimbs (size : LimbSize) (width : Nat) : Nat := if isWide width then nlimbs size width else 1

/-- The memories of a module and their ports, in the order of `mod->cells_`.  The ports have the
    widths that their parameters give, and an `int` holds the number of limbs of a word and the
    length of an array. -/
structure Memories where
  size : LimbSize
  nets : Nets
  realSize : String → Option Nat
  width : String → Nat
  inits : List MemInit
  reads : List ReadPort
  writes : List WritePort
  read_ports : ∀ p ∈ reads, p.ADDR.length = p.abits ∧ nets.Valid p.ADDR
  write_ports : ∀ p ∈ writes, p.ADDR.length = p.abits ∧ p.DATA.length = width p.memid ∧
    p.EN.length = width p.memid ∧ nets.Valid p.ADDR ∧ nets.Valid p.DATA ∧ nets.Valid p.EN
  int_limbs : ∀ m, wordLimbs size (width m) < 2 ^ 31
  int_length : ∀ m, wordLimbs size (width m) * memDepth realSize inits
    (reads.map (fun p => (p.memid, p.abits)) ++ writes.map fun p => (p.memid, p.abits)) m < 2 ^ 31

namespace Memories

variable (N : Memories)

def depth (m : String) : Nat :=
  memDepth N.realSize N.inits
    (N.reads.map (fun p => (p.memid, p.abits)) ++ N.writes.map fun p => (p.memid, p.abits)) m

def bits (m : String) : Nat := limbBits N.size (N.width m)

def limbs (m : String) : Nat := wordLimbs N.size (N.width m)

/-! ## The generated program -/

/-- The arrays of the memories in `state_t`. -/
abbrev Arrays := String → List Nat

/-- The value of `sig_expr` in a place of type `uint64_t`. -/
def scalar (env : CEnv) (sig : SigSpec) : Option Nat :=
  ((sigExpr N.size N.nets sig).eval (Func.eval N.size) env).map fun v => (v.convert uint64).pattern

/-- `amask` -/
def amask (abits : Nat) : Nat := if abits ≥ 64 then 2 ^ 64 - 1 else 2 ^ abits - 1

/-- `wcopy(data, &s->m[(addr & mask) * wnl], wnl)`, or `data = s->m[addr & mask]`: the word that goes
    to the nets of `DATA`. -/
def readWord (env : CEnv) (p : ReadPort) (s : Arrays) : Option Nat := do
  let addr ← N.scalar env p.ADDR
  let index := addr &&& (2 ^ p.abits - 1)
  if isWide (N.width p.memid) then
    let n := nlimbs N.size (N.width p.memid)
    let word ← WideRt.wcopy (List.replicate n 0) (((s p.memid).drop (index * n % 2 ^ 64)).take n) n
    pure (prefixValue N.size.bits word n)
  else (s p.memid)[index]?

/-- `if (en) { _wa = addr & amask; s->m[_wa] = (s->m[_wa] & ~en) | (data & en); }` -/
def writeWord (env : CEnv) (p : WritePort) (d : List Nat) : Option (List Nat) := do
  let en ← N.scalar env p.EN
  if en = 0 then pure d
  else
    let addr ← N.scalar env p.ADDR
    let data ← N.scalar env p.DATA
    let wa := addr &&& amask p.abits
    let old ← d[wa]?
    store d wa ((old &&& (2 ^ 64 - 1 - en)) ||| (data &&& en))

/-- The locals `_md` and `_me` with the limbs of data and enable. -/
def materializePort (p : WritePort) (n : Nat) : CStmt :=
  .block [.declare (wordType N.size) (.loc "_md") n, .declare (wordType N.size) (.loc "_me") n,
    materialize N.size N.nets (.loc "_md") n p.DATA false,
    materialize N.size N.nets (.loc "_me") n p.EN false]

/-- The write of a word of more than 64 bits, limb by limb. -/
def writeLimbs (env : CEnv) (p : WritePort) (d : List Nat) : Option (List Nat) := do
  let n := nlimbs N.size (N.width p.memid)
  let env ← run N.size (N.materializePort p n) env
  let on ← WideRt.wredOr (env.array (.loc "_me")) n
  if on then
    let addr ← N.scalar env p.ADDR
    let wa := (addr &&& amask p.abits) * n % 2 ^ 64
    forUp (mergeLimb N.size.bits (fun l => (wa + l) % 2 ^ 64) (env.array (.loc "_md"))
      (env.array (.loc "_me"))) n d
  else pure d

def writeArray (env : CEnv) (p : WritePort) (d : List Nat) : Option (List Nat) :=
  if isWide (N.width p.memid) then N.writeLimbs env p d else N.writeWord env p d

/-- The statement of a write port: with a mask it is guarded by `posedge_mask & 1u`. -/
def writePort (mask : Option Nat) (env : CEnv) (p : WritePort) (s : Arrays) : Option Arrays :=
  if mask.all (·.testBit 0) then
    (N.writeArray env p (s p.memid)).map (Function.update s p.memid)
  else some s

/-- `wcells` -/
def wcells : List WritePort := N.writes.mergeSort WritePort.le

def writePorts (mask : Option Nat) (env : CEnv) (s : Arrays) : Option Arrays :=
  N.wcells.foldlM (fun s p => N.writePort mask env p s) s

/-- `sm_clock`, as far as memories go: the reads of the combinational part, then the write ports.
    The locals hold the values from before the edge. -/
def clock (env : CEnv) (s : Arrays) : Option (List Nat × Arrays) := do
  let seen ← N.reads.mapM fun p => N.readWord env p s
  let s ← N.writePorts none env s
  pure (seen, s)

/-! ## Yosys's memories -/

/-- Contents of the arrays. -/
abbrev Contents := ∀ m, Limbs (N.bits m) (N.limbs m * N.depth m)

variable {N}

def Contents.arrays (c : N.Contents) : Arrays := fun m => (c m).limbs

/-- The words of each memory. -/
def Contents.words (c : N.Contents) (m : String) : List Nat :=
  Clang.words (N.bits m) (N.limbs m) (N.depth m) (c m).limbs

/-- A write to one address, with an enable for each bit. -/
structure Write where
  memid : String
  addr : Nat
  data : Nat
  en : Nat

/-- An address at or above the depth has no word. -/
def Write.apply (w : Write) (words : String → List Nat) : String → List Nat :=
  Function.update words w.memid ((words w.memid).modify w.addr (merge · w.data w.en))

end Memories

/-- The write that a port stands for. -/
def WritePort.write (nets : Nets) (σ : Valuation) (p : WritePort) : Memories.Write where
  memid := p.memid
  addr := value σ (nets.resolve p.ADDR)
  data := value σ (nets.resolve p.DATA)
  en := value σ (nets.resolve p.EN)

/-- The locals when the ports are evaluated. -/
structure Locals (size : LimbSize) where
  env : CEnv
  wellFormed : WellFormed size env

def Locals.nets {size : LimbSize} (l : Locals size) : Valuation := wireBits size l.env

namespace Memories

variable (N : Memories) (l : Locals N.size)

/-- The memories are Yosys's, for what the nets hold before the edge: a read gives the word of its
    address, each write port changes the words as its cell does, and an edge is the reads, of the
    words before it, and the writes in ascending order. -/
structure Behave : Prop where
  read : ∀ p ∈ N.reads, ∀ c : N.Contents, ∃ v, N.readWord l.env p c.arrays = some v ∧
    ∀ w, (c.words p.memid)[value l.nets (N.nets.resolve p.ADDR)]? = some w → v = w
  write : ∀ p ∈ N.writes, ∀ c : N.Contents, ∃ c' : N.Contents,
    N.writePort none l.env p c.arrays = some c'.arrays ∧
    c'.words = (p.write N.nets l.nets).apply c.words
  edge : ∃ ports : List WritePort, ports.Perm N.writes ∧
    ports.Pairwise (fun p q => p.memid = q.memid → p.wprio ≤ q.wprio) ∧
    ∀ c : N.Contents, ∃ (seen : List Nat) (c' : N.Contents),
      N.clock l.env c.arrays = some (seen, c'.arrays) ∧
      List.Forall₂ (fun p v => N.readWord l.env p c.arrays = some v) N.reads seen ∧
      c'.words = ports.foldl (fun words p => (p.write N.nets l.nets).apply words) c.words

/-! ## What the statements read -/

variable {N l}

theorem scalar_eq {env : CEnv} (henv : WellFormed N.size env) {sig : SigSpec}
    (hsig : N.nets.Valid sig) (hlen : sig.length ≤ 64) :
    N.scalar env sig = some (value (wireBits N.size env) (N.nets.resolve sig)) := by
  have hlt : value (wireBits N.size env) (N.nets.resolve sig) < 2 ^ 64 := by
    apply Nat.lt_of_lt_of_le (value_lt _ _)
    rw [length_resolve]
    exact Nat.pow_le_pow_right (by decide) hlen
  unfold scalar
  rw [sigExpr_has henv N.nets hsig.2 hlen, Option.map_some, convert_self hlt]

theorem and_amask {abits v : Nat} (h64 : abits ≤ 64) (hv : v < 2 ^ abits) :
    v &&& amask abits = v := by
  unfold amask
  split_ifs with h
  · have h' : abits = 64 := by omega
    rw [Nat.and_two_pow_sub_one_eq_mod, Nat.mod_eq_of_lt (by rwa [h'] at hv)]
  · rw [Nat.and_two_pow_sub_one_eq_mod, Nat.mod_eq_of_lt hv]

/-- The number that an array with the bits of `x` spells. -/
theorem limbs_of_bits {W n x : Nat} {d : List Nat} (hW : 0 < W) (hd : Holds W n d)
    (hx : x < 2 ^ (W * n)) (hbits : ∀ k, k < W * n → bitAt W d k = x.testBit k) :
    ∃ r : Limbs W n, d = r.limbs ∧ r.value = x := by
  obtain ⟨r, rfl, hvalue⟩ := hd.limbs
  refine ⟨r, rfl, ?_⟩
  rw [hvalue, prefixValue_of_limbs hW r.lt (x := x), Nat.mod_eq_of_lt hx]
  intro i hi k hk
  rw [← hbits, bitAt_mul_add _ _ hk]
  calc W * i + k < W * i + W := by omega
    _ = W * (i + 1) := by rw [Nat.mul_succ]
    _ ≤ W * n := Nat.mul_le_mul_left W hi

/-- A materialized operand, as a number. -/
theorem materialize_value {env : CEnv} {x : String} {n : Nat} {sig : SigSpec}
    (henv : WellFormed N.size env) (hsig : N.nets.Valid sig) (hlen : sig.length ≤ N.size.bits * n)
    (hx : Holds N.size.bits n (env.array (.loc x))) :
    ∃ r : Limbs N.size.bits n, run N.size (materialize N.size N.nets (.loc x) n sig false) env =
        some (env.setArray (.loc x) r.limbs) ∧ r.value = rawOperand N.size N.nets env sig := by
  obtain ⟨ys, hrun, hys, hbits⟩ := materialize_run henv hsig.1 hlen hx
  have hlt : rawOperand N.size N.nets env sig < 2 ^ (N.size.bits * n) :=
    Nat.lt_of_lt_of_le (rawOperand_lt _ _ _ _) (Nat.pow_le_pow_right (by decide) hlen)
  obtain ⟨r, rfl, hr⟩ := limbs_of_bits (size_pos N.size) hys hlt hbits
  exact ⟨r, hrun, hr⟩

/-- The locals of a wide port hold the bits of data and enable, without the redirection. -/
theorem materializePort_run {p : WritePort} {n : Nat} (hdata : N.nets.Valid p.DATA)
    (hen : N.nets.Valid p.EN) (hdlen : p.DATA.length ≤ N.size.bits * n)
    (helen : p.EN.length ≤ N.size.bits * n) :
    ∃ (env : CEnv) (md me : Limbs N.size.bits n),
      run N.size (N.materializePort p n) l.env = some env ∧ WellFormed N.size env ∧
      wireBits N.size env = l.nets ∧ env.array (.loc "_md") = md.limbs ∧
      env.array (.loc "_me") = me.limbs ∧ md.value = rawOperand N.size N.nets l.env p.DATA ∧
      me.value = rawOperand N.size N.nets l.env p.EN := by
  have hne : Var.loc "_md" ≠ .loc "_me" := by decide
  have hgarbage : ∀ env : CEnv, Holds N.size.bits n
      ((List.range n).map fun i => env.garbage i % 2 ^ N.size.bits) := by
    intro env
    refine ⟨by rw [List.length_map, List.length_range], fun x hx => ?_⟩
    obtain ⟨i, -, rfl⟩ := List.mem_map.mp hx
    exact Nat.mod_lt _ (Nat.two_pow_pos _)
  have hdeclare : ∀ (x : String) (env : CEnv),
      run N.size (.declare (wordType N.size) (.loc x) n) env = some (env.setArray (.loc x)
        ((List.range n).map fun i => env.garbage i % 2 ^ N.size.bits)) := fun _ _ => rfl
  -- the environments after each of the four statements
  generalize henv₁ : l.env.setArray (.loc "_md")
    ((List.range n).map fun i => l.env.garbage i % 2 ^ N.size.bits) = env₁
  generalize henv₂ : env₁.setArray (.loc "_me")
    ((List.range n).map fun i => env₁.garbage i % 2 ^ N.size.bits) = env₂
  have hwell₂ : WellFormed N.size env₂ := by
    rw [← henv₂, ← henv₁]
    exact (l.wellFormed.setArray_loc _ _).setArray_loc _ _
  have hbits₂ : wireBits N.size env₂ = l.nets := by
    rw [← henv₂, ← henv₁, wireBits_setArray_loc, wireBits_setArray_loc]
    rfl
  obtain ⟨md, hmd, hmdvalue⟩ := materialize_value (x := "_md") (n := n) hwell₂ hdata hdlen (by
    rw [← henv₂, env₁.array_setArray_ne hne, ← henv₁, l.env.array_setArray_self]
    exact hgarbage _)
  obtain ⟨me, hme, hmevalue⟩ := materialize_value (x := "_me") (n := n)
    (hwell₂.setArray_loc "_md" md.limbs) hen helen (by
      rw [env₂.array_setArray_ne hne.symm, ← henv₂, env₁.array_setArray_self]
      exact hgarbage _)
  refine ⟨(env₂.setArray (.loc "_md") md.limbs).setArray (.loc "_me") me.limbs, md, me, ?_,
    (hwell₂.setArray_loc _ _).setArray_loc _ _, ?_, ?_, Env.array_setArray_self _ _ _, ?_, ?_⟩
  · simp only [materializePort, Stmt.block, run_seq, hdeclare, Option.bind_some, henv₁, henv₂, hmd,
      hme, run_skip]
  · rw [wireBits_setArray_loc, wireBits_setArray_loc, hbits₂]
  · rw [Env.array_setArray_ne _ hne, Env.array_setArray_self]
  · rw [hmdvalue, rawOperand, hbits₂]
    rfl
  · rw [hmevalue, rawOperand, wireBits_setArray_loc, hbits₂]
    rfl

/-! ## A write port -/

/-- The number that the statement of a port takes for a signal. -/
def taken (N : Memories) (l : Locals N.size) (m : String) (sig : SigSpec) : Nat :=
  if isWide (N.width m) then rawOperand N.size N.nets l.env sig else value l.nets (N.nets.resolve sig)

/-- One word of a narrow memory. -/
def oneLimb {x : Nat} (hx : x < 2 ^ 64) : Limbs 64 1 := ⟨[x], rfl, fun y hy => by
  rw [List.mem_singleton.mp hy]
  exact hx⟩

theorem value_oneLimb {x : Nat} (hx : x < 2 ^ 64) : (oneLimb hx).value = x :=
  Nat.ofDigits_singleton

theorem value_lt_word {sig : SigSpec} (hlen : sig.length ≤ 64) :
    value l.nets (N.nets.resolve sig) < 2 ^ 64 := by
  apply Nat.lt_of_lt_of_le (value_lt _ _)
  rw [length_resolve]
  exact Nat.pow_le_pow_right (by decide) hlen

theorem writeWord_merges {p : WritePort} (haddr : N.nets.Valid p.ADDR) (hdata : N.nets.Valid p.DATA)
    (hen : N.nets.Valid p.EN) (halen : p.ADDR.length = p.abits) (h64 : p.abits ≤ 64)
    (hdlen : p.DATA.length ≤ 64) (helen : p.EN.length ≤ 64) :
    ∃ md me : Limbs 64 1, md.value = value l.nets (N.nets.resolve p.DATA) ∧
      me.value = value l.nets (N.nets.resolve p.EN) ∧
      MergesAt (2 ^ 64) (value l.nets (N.nets.resolve p.ADDR)) md me (N.writeWord l.env p) := by
  have ha : value l.nets (N.nets.resolve p.ADDR) < 2 ^ p.abits := by
    have hlt := value_lt l.nets (N.nets.resolve p.ADDR)
    rwa [length_resolve, halen] at hlt
  have ha64 := Nat.lt_of_lt_of_le ha (Nat.pow_le_pow_right (by decide) h64)
  refine ⟨oneLimb (value_lt_word hdlen), oneLimb (value_lt_word helen), value_oneLimb _,
    value_oneLimb _, fun d => ?_⟩
  have hplace : (1 * value l.nets (N.nets.resolve p.ADDR) + 0) % 2 ^ 64 =
      value l.nets (N.nets.resolve p.ADDR) := by
    rw [Nat.one_mul, Nat.add_zero, Nat.mod_eq_of_lt ha64]
  rw [value_oneLimb, writeWord, scalar_eq l.wellFormed hen helen,
    scalar_eq l.wellFormed haddr (by omega), scalar_eq l.wellFormed hdata hdlen]
  simp only [Option.bind_eq_bind, Option.bind_some, Option.pure_def, forUp, mergeLimb, oneLimb,
    List.getElem?_cons_zero]
  rw [hplace, show wireBits N.size l.env = l.nets from rfl, and_amask h64 ha]

theorem bitAt_value {W n : Nat} (hW : 0 < W) (r : Limbs W n) {k : Nat} (hk : k < W * n) :
    bitAt W r.limbs k = r.value.testBit k := by
  rw [r.value_eq, testBit_prefixValue hW r.lt, decide_eq_true (div_lt_of_lt hk), Bool.true_and, bitAt]

theorem writeLimbs_merges {p : WritePort} (haddr : N.nets.Valid p.ADDR) (hdata : N.nets.Valid p.DATA)
    (hen : N.nets.Valid p.EN) (halen : p.ADDR.length = p.abits) (h64 : p.abits ≤ 64)
    (hdlen : p.DATA.length = N.width p.memid) (helen : p.EN.length = N.width p.memid) :
    ∃ md me : Limbs N.size.bits (nlimbs N.size (N.width p.memid)),
      md.value = rawOperand N.size N.nets l.env p.DATA ∧
      me.value = rawOperand N.size N.nets l.env p.EN ∧
      MergesAt (2 ^ 64) (value l.nets (N.nets.resolve p.ADDR)) md me (N.writeLimbs l.env p) := by
  have ha : value l.nets (N.nets.resolve p.ADDR) < 2 ^ p.abits := by
    have hlt := value_lt l.nets (N.nets.resolve p.ADDR)
    rwa [length_resolve, halen] at hlt
  have hlimbs := le_nlimbs N.size (N.width p.memid)
  obtain ⟨env, md, me, hrun, hwell, hbits, hmd, hme, hmdvalue, hmevalue⟩ :=
    materializePort_run (l := l) (n := nlimbs N.size (N.width p.memid)) hdata hen (by omega)
      (by omega)
  obtain ⟨on, hon, hiff⟩ := wredOr_spec (WideRt.Limbs.holds me)
  refine ⟨md, me, hmdvalue, hmevalue, fun d => ?_⟩
  have hzero : on = true ↔ me.value ≠ 0 := by
    rw [hiff, ne_eq, ← not_iff_not, not_not]
    simp only [not_exists, not_and, Bool.not_eq_true]
    constructor
    · intro hfalse
      apply Nat.eq_of_testBit_eq
      intro k
      rw [Nat.zero_testBit]
      by_cases hk : k < N.size.bits * nlimbs N.size (N.width p.memid)
      · rw [← bitAt_value (size_pos N.size) me hk, hfalse k hk]
      · exact Nat.testBit_lt_two_pow (Nat.lt_of_lt_of_le me.value_lt
          (Nat.pow_le_pow_right (by decide) (by omega)))
    · intro hvalue k hk
      rw [bitAt_value (size_pos N.size) me hk, hvalue, Nat.zero_testBit]
  have hplace : ∀ i, (value l.nets (N.nets.resolve p.ADDR) * nlimbs N.size (N.width p.memid) %
      2 ^ 64 + i) % 2 ^ 64 = (nlimbs N.size (N.width p.memid) *
        value l.nets (N.nets.resolve p.ADDR) + i) % 2 ^ 64 := fun i => by
    rw [Nat.mod_add_mod, Nat.mul_comm]
  rw [writeLimbs, hrun]
  simp only [Option.bind_eq_bind, Option.bind_some, Option.pure_def, hme, hmd, hon]
  rw [scalar_eq hwell haddr (by omega), hbits]
  simp only [Option.bind_some, and_amask h64 ha, hplace]
  by_cases hvalue : me.value = 0
  · rw [if_pos hvalue, if_neg fun h => hzero.mp h hvalue]
  · rw [if_neg hvalue, if_pos (hzero.mpr hvalue)]

theorem bits_pos (N : Memories) (m : String) : 0 < N.bits m := by
  unfold bits limbBits
  split_ifs
  · exact size_pos N.size
  · decide

theorem limbs_pos (N : Memories) (m : String) : 0 < N.limbs m := by
  unfold limbs wordLimbs
  split_ifs with h
  · have hle := le_nlimbs N.size (N.width m)
    have hwide : 64 < N.width m := by simpa [isWide] using h
    by_contra hzero
    obtain hzero' : nlimbs N.size (N.width m) = 0 := by omega
    rw [hzero'] at hle
    omega
  · decide

theorem width_le (N : Memories) (m : String) : N.width m ≤ N.bits m * N.limbs m := by
  unfold bits limbs limbBits wordLimbs
  split_ifs with h
  · exact le_nlimbs N.size (N.width m)
  · simpa [isWide] using h

theorem writeArray_merges {p : WritePort} (hp : p ∈ N.writes) (h64 : p.abits ≤ 64) :
    ∃ md me : Limbs (N.bits p.memid) (N.limbs p.memid), md.value = N.taken l p.memid p.DATA ∧
      me.value = N.taken l p.memid p.EN ∧
      MergesAt (2 ^ 64) (value l.nets (N.nets.resolve p.ADDR)) md me (N.writeArray l.env p) := by
  obtain ⟨halen, hdlen, helen, haddr, hdata, hen⟩ := N.write_ports p hp
  by_cases hw : isWide (N.width p.memid) = true
  · have hwrite : N.writeArray l.env p = N.writeLimbs l.env p := by
      funext d
      rw [writeArray, if_pos hw]
    have hbits : N.bits p.memid = N.size.bits := if_pos hw
    have hlimbs : N.limbs p.memid = nlimbs N.size (N.width p.memid) := if_pos hw
    rw [hwrite, hbits, hlimbs, taken, taken, if_pos hw, if_pos hw]
    exact writeLimbs_merges haddr hdata hen halen h64 hdlen helen
  · have hwrite : N.writeArray l.env p = N.writeWord l.env p := by
      funext d
      rw [writeArray, if_neg hw]
    have h64' : N.width p.memid ≤ 64 := by simpa [isWide] using hw
    have hbits : N.bits p.memid = 64 := if_neg hw
    have hlimbs : N.limbs p.memid = 1 := if_neg hw
    rw [hwrite, hbits, hlimbs, taken, taken, if_neg hw, if_neg hw]
    exact writeWord_merges haddr hdata hen halen h64 (by omega) (by omega)

/-- The signals of a write port are taken as its nets have them, or else nothing is enabled. -/
def WritesWithin (N : Memories) (l : Locals N.size) (p : WritePort) : Prop :=
  if value l.nets (N.nets.resolve p.ADDR) < N.depth p.memid then
    N.taken l p.memid p.EN = value l.nets (N.nets.resolve p.EN) ∧
    N.taken l p.memid p.DATA &&& value l.nets (N.nets.resolve p.EN) =
      value l.nets (N.nets.resolve p.DATA) &&& value l.nets (N.nets.resolve p.EN)
  else N.taken l p.memid p.EN = 0

theorem limbs_le (N : Memories) (m : String) : N.limbs m ≤ 2 ^ 64 := by
  apply Nat.le_of_lt
  exact Nat.lt_trans (N.int_limbs m) (by decide)

theorem array_le (N : Memories) (m : String) : N.limbs m * N.depth m ≤ 2 ^ 64 := by
  apply Nat.le_of_lt
  exact Nat.lt_trans (N.int_length m) (by decide)

theorem writeArray_iff {p : WritePort} (hp : p ∈ N.writes) (h64 : p.abits ≤ 64) :
    (∀ d : Limbs (N.bits p.memid) (N.limbs p.memid * N.depth p.memid),
      ∃ r : Limbs (N.bits p.memid) (N.limbs p.memid * N.depth p.memid),
        N.writeArray l.env p d.limbs = some r.limbs ∧
        Clang.words (N.bits p.memid) (N.limbs p.memid) (N.depth p.memid) r.limbs =
          (Clang.words (N.bits p.memid) (N.limbs p.memid) (N.depth p.memid) d.limbs).modify
            (value l.nets (N.nets.resolve p.ADDR)) (merge · (value l.nets (N.nets.resolve p.DATA))
              (value l.nets (N.nets.resolve p.EN)))) ↔ N.WritesWithin l p := by
  obtain ⟨md, me, hmd, hme, hmerges⟩ := writeArray_merges (l := l) hp h64
  have hen : value l.nets (N.nets.resolve p.EN) < 2 ^ (N.bits p.memid * N.limbs p.memid) := by
    apply Nat.lt_of_lt_of_le (value_lt _ _)
    rw [length_resolve, (N.write_ports p hp).2.2.1]
    exact Nat.pow_le_pow_right (by decide) (N.width_le p.memid)
  rw [hmerges.write_iff (N.bits_pos p.memid) (N.limbs_pos p.memid) (N.array_le p.memid) (N.limbs_le p.memid) hen, hmd,
    hme]
  rfl

/-! ### In `state_t` -/

def Contents.set (c : N.Contents) (m : String)
    (d : Limbs (N.bits m) (N.limbs m * N.depth m)) : N.Contents := Function.update c m d

theorem arrays_set (c : N.Contents) (m : String) (d : Limbs (N.bits m) (N.limbs m * N.depth m)) :
    (c.set m d).arrays = Function.update c.arrays m d.limbs := by
  funext m'
  by_cases h : m' = m
  · subst h
    simp [Contents.arrays, Contents.set]
  · simp [Contents.arrays, Contents.set, h]

theorem words_set (c : N.Contents) (m : String) (d : Limbs (N.bits m) (N.limbs m * N.depth m)) :
    (c.set m d).words =
      Function.update c.words m (Clang.words (N.bits m) (N.limbs m) (N.depth m) d.limbs) := by
  funext m'
  by_cases h : m' = m
  · subst h
    simp [Contents.words, Contents.set]
  · simp [Contents.words, Contents.set, h]

/-- The statement of a port does to `state_t` what it does to the array of its memory. -/
theorem writePort_iff {p : WritePort} (hp : p ∈ N.writes) (h64 : p.abits ≤ 64) :
    (∀ c : N.Contents, ∃ c' : N.Contents, N.writePort none l.env p c.arrays = some c'.arrays ∧
      c'.words = (p.write N.nets l.nets).apply c.words) ↔ N.WritesWithin l p := by
  rw [← writeArray_iff hp h64]
  constructor
  · intro h d
    -- any contents of the other memories will do
    obtain ⟨c', hrun, hwords⟩ := h (Contents.set
      (fun m => Limbs.replicate _ (Nat.two_pow_pos (N.bits m))) p.memid d)
    refine ⟨c' p.memid, ?_, ?_⟩
    · rw [arrays_set] at hrun
      simp only [writePort, Option.all_none, if_true, Function.update_self,
        Option.map_eq_some_iff] at hrun
      obtain ⟨d', hd', heq⟩ := hrun
      have hget := congrFun heq p.memid
      rw [Function.update_self] at hget
      rw [hd', hget]
      rfl
    · have hword := congrFun hwords p.memid
      rw [words_set, Write.apply, WritePort.write, Function.update_self, Function.update_self] at hword
      exact hword
  · intro h c
    obtain ⟨r, hrun, hwords⟩ := h (c p.memid)
    refine ⟨c.set p.memid r, ?_, ?_⟩
    · rw [arrays_set]
      simp only [writePort, Option.all_none, if_true]
      rw [show c.arrays p.memid = (c p.memid).limbs from rfl, hrun, Option.map_some]
    · rw [words_set, hwords]
      rfl

/-! ## A read port -/

/-- The place of a word is in its array: for an address below the depth, or one whose place wraps
    around in the type of the index. -/
def Inside (N : Memories) (m : String) (addr : Nat) : Prop :=
  N.limbs m * addr % 2 ^ 64 + N.limbs m ≤ N.limbs m * N.depth m

instance (m : String) (addr : Nat) : Decidable (N.Inside m addr) :=
  inferInstanceAs (Decidable (_ ≤ _))

theorem place_of_lt {m : String} {addr : Nat} (h : addr < N.depth m) :
    N.limbs m * addr % 2 ^ 64 = N.limbs m * addr := by
  apply Nat.mod_eq_of_lt
  have hlt : N.limbs m * addr < N.limbs m * N.depth m := Nat.mul_lt_mul_of_pos_left h (N.limbs_pos m)
  exact Nat.lt_of_lt_of_le hlt (N.array_le m)

/-- `wcopy` of the limbs from a place on. -/
theorem wcopy_place {W L i n : Nat} (hn : 0 < n) (d : Limbs W L) :
    WideRt.wcopy (List.replicate n 0) ((d.limbs.drop i).take n) n =
      if i + n ≤ L then some ((d.limbs.drop i).take n) else none := by
  have hlen : ((d.limbs.drop i).take n).length = min n (L - i) := by
    rw [List.length_take, List.length_drop, d.length_eq]
  by_cases h : i + n ≤ L
  · rw [if_pos h]
    have hholds : Holds W n ((d.limbs.drop i).take n) :=
      ⟨by omega, fun x hx => d.lt x (List.mem_of_mem_drop (List.mem_of_mem_take hx))⟩
    have hzeros : Holds W n (List.replicate n 0) := ⟨List.length_replicate, fun x hx => by
      rw [List.eq_of_mem_replicate hx]
      exact Nat.two_pow_pos W⟩
    obtain ⟨r, hrun, hr, hwords⟩ := mapWords_spec (f := id) (fun _ hx => hx) hzeros hholds
    rw [show WideRt.wcopy = mapWords id from rfl, hrun]
    congr 1
    apply List.ext_getElem?
    intro j
    by_cases hj : j < n
    · rw [load_of_lt (by rw [hr.1]; exact hj), load_of_lt (by rw [hholds.1]; exact hj), hwords j hj, id]
    · rw [List.getElem?_eq_none (by rw [hr.1]; omega), List.getElem?_eq_none (by omega)]
  · rw [if_neg h]
    apply forUp_none (i := n - 1) (by omega)
    intro s
    rw [List.getElem?_eq_none (by omega)]
    rfl

/-- A read gives the limbs at the place of its address. -/
theorem readWord_eq {p : ReadPort} (hp : p ∈ N.reads) (h64 : p.abits ≤ 64) (c : N.Contents) :
    N.readWord l.env p c.arrays =
      if N.Inside p.memid (value l.nets (N.nets.resolve p.ADDR)) then
        some (prefixValue (N.bits p.memid) ((c p.memid).limbs.drop
          (N.limbs p.memid * value l.nets (N.nets.resolve p.ADDR) % 2 ^ 64)) (N.limbs p.memid))
      else none := by
  obtain ⟨halen, haddr⟩ := N.read_ports p hp
  have hlt := value_lt l.nets (N.nets.resolve p.ADDR)
  rw [length_resolve, halen] at hlt
  have hlt64 := Nat.lt_of_lt_of_le hlt (Nat.pow_le_pow_right (by decide) h64)
  unfold readWord
  rw [scalar_eq l.wellFormed haddr (by omega), show wireBits N.size l.env = l.nets from rfl]
  simp only [Option.bind_eq_bind, Option.bind_some, Option.pure_def,
    Nat.and_two_pow_sub_one_eq_mod, Nat.mod_eq_of_lt hlt]
  generalize value l.nets (N.nets.resolve p.ADDR) = addr at hlt64
  by_cases hw : isWide (N.width p.memid) = true
  · have hbits : N.bits p.memid = N.size.bits := if_pos hw
    have hlimbs : N.limbs p.memid = nlimbs N.size (N.width p.memid) := if_pos hw
    rw [if_pos hw, ← hlimbs, ← hbits, Contents.arrays, wcopy_place (N.limbs_pos p.memid),
      Nat.mul_comm addr]
    by_cases hin : N.Inside p.memid addr
    · have hle : N.limbs p.memid * addr % 2 ^ 64 + N.limbs p.memid ≤
          N.limbs p.memid * N.depth p.memid := hin
      rw [if_pos hin, if_pos hle, Option.bind_some]
      congr 1
      apply prefixValue_congr
      intro i hi
      rw [List.getD_eq_getElem?_getD, List.getElem?_take, if_pos hi, ← List.getD_eq_getElem?_getD]
    · have hnot : ¬ N.limbs p.memid * addr % 2 ^ 64 + N.limbs p.memid ≤
          N.limbs p.memid * N.depth p.memid := hin
      rw [if_neg hin, if_neg hnot]
      rfl
  · have hlimbs : N.limbs p.memid = 1 := if_neg hw
    have hlen : (c p.memid).limbs.length = N.depth p.memid := by
      rw [(c p.memid).length_eq, hlimbs, Nat.one_mul]
    have hiff : N.Inside p.memid addr ↔ addr < N.depth p.memid := by
      unfold Inside
      rw [hlimbs, Nat.one_mul, Nat.one_mul, Nat.mod_eq_of_lt hlt64]
      exact Iff.rfl
    rw [if_neg hw, Contents.arrays]
    generalize (c p.memid).limbs = arr at hlen
    rw [hlimbs, Nat.one_mul, Nat.mod_eq_of_lt hlt64]
    by_cases hin : N.Inside p.memid addr
    · have hlt' := hiff.mp hin
      rw [if_pos hin, load_of_lt (by omega), prefixValue, prefixValue, getD_drop, Nat.mul_zero,
        Nat.pow_zero, Nat.mul_one, Nat.zero_add, Nat.add_zero]
    · have hge := hiff.not.mp hin
      rw [if_neg hin, List.getElem?_eq_none (by omega)]

theorem readWord_iff {p : ReadPort} (hp : p ∈ N.reads) (h64 : p.abits ≤ 64) :
    (∀ c : N.Contents, ∃ v, N.readWord l.env p c.arrays = some v ∧
      ∀ w, (c.words p.memid)[value l.nets (N.nets.resolve p.ADDR)]? = some w → v = w) ↔
      N.Inside p.memid (value l.nets (N.nets.resolve p.ADDR)) := by
  constructor
  · intro h
    obtain ⟨v, hv, -⟩ := h fun m => Limbs.replicate _ (Nat.two_pow_pos (N.bits m))
    rw [readWord_eq hp h64] at hv
    by_contra hout
    rw [if_neg hout] at hv
    cases hv
  · intro hin c
    refine ⟨_, by rw [readWord_eq hp h64, if_pos hin], fun w hw => ?_⟩
    have ha : value l.nets (N.nets.resolve p.ADDR) < N.depth p.memid := by
      by_contra hge
      rw [Contents.words, List.getElem?_eq_none (by rw [length_words]; omega)] at hw
      cases hw
    rw [Contents.words, getElem?_words ha] at hw
    rw [place_of_lt ha, ← Option.some.inj hw]
    rfl

/-! ## An edge -/

theorem le_total (p q : WritePort) : (p.le q || q.le p) = true := by
  unfold WritePort.le
  by_cases h : p.memid = q.memid
  · rw [if_neg (not_not.mpr h), if_neg (not_not.mpr h.symm)]
    simp only [Bool.or_eq_true, decide_eq_true_eq]
    exact Int.le_total p.wprio q.wprio
  · rw [if_pos h, if_pos (Ne.symm h)]
    simp only [Bool.or_eq_true, decide_eq_true_eq]
    exact lt_or_gt_of_ne h

theorem le_trans' (p q r : WritePort) (h : p.le q = true) (h' : q.le r = true) : p.le r = true := by
  unfold WritePort.le at *
  by_cases hpq : p.memid = q.memid
  · by_cases hqr : q.memid = r.memid
    · rw [if_neg (not_not.mpr hpq)] at h
      rw [if_neg (not_not.mpr hqr)] at h'
      rw [if_neg (not_not.mpr (hpq.trans hqr))]
      simp only [decide_eq_true_eq] at *
      omega
    · rw [if_pos hqr] at h'
      rwa [hpq, if_pos hqr]
  · rw [if_pos hpq] at h
    simp only [decide_eq_true_eq] at h
    by_cases hqr : q.memid = r.memid
    · rw [← hqr, if_pos hpq]
      exact decide_eq_true h
    · rw [if_pos hqr] at h'
      simp only [decide_eq_true_eq] at h'
      have hlt := lt_trans h h'
      rw [if_pos hlt.ne]
      exact decide_eq_true hlt

/-- The ports of a memory run in ascending order. -/
theorem wcells_ascending (N : Memories) :
    N.wcells.Pairwise fun p q => p.memid = q.memid → p.wprio ≤ q.wprio := by
  apply (List.pairwise_mergeSort le_trans' le_total N.writes).imp
  intro p q h hmem
  rw [WritePort.le, if_neg (not_not.mpr hmem)] at h
  simpa using h

theorem wcells_perm (N : Memories) : N.wcells.Perm N.writes := List.mergeSort_perm _ _

/-- The statements of ports that each write what their cell does. -/
theorem writePorts_run (ports : List WritePort) (c : N.Contents)
    (h : ∀ p ∈ ports, ∀ c : N.Contents, ∃ c' : N.Contents,
      N.writePort none l.env p c.arrays = some c'.arrays ∧
        c'.words = (p.write N.nets l.nets).apply c.words) :
    ∃ c' : N.Contents,
      ports.foldlM (fun s p => N.writePort none l.env p s) c.arrays = some c'.arrays ∧
      c'.words = ports.foldl (fun words p => (p.write N.nets l.nets).apply words) c.words := by
  induction ports generalizing c with
  | nil => exact ⟨c, rfl, rfl⟩
  | cons p ports ih =>
    obtain ⟨c₁, hrun₁, hwords₁⟩ := h p List.mem_cons_self c
    obtain ⟨c₂, hrun₂, hwords₂⟩ := ih c₁ fun q hq => h q (List.mem_cons_of_mem p hq)
    refine ⟨c₂, ?_, ?_⟩
    · rw [List.foldlM_cons, hrun₁]
      exact hrun₂
    · rw [hwords₂, hwords₁, List.foldl_cons]

theorem mapM_some {α β : Type} {f : α → Option β} (as : List α) (h : ∀ a ∈ as, ∃ b, f a = some b) :
    ∃ bs, as.mapM f = some bs ∧ List.Forall₂ (fun a b => f a = some b) as bs := by
  induction as with
  | nil => exact ⟨[], rfl, .nil⟩
  | cons a as ih =>
    obtain ⟨b, hb⟩ := h a List.mem_cons_self
    obtain ⟨bs, hbs, hall⟩ := ih fun a' ha' => h a' (List.mem_cons_of_mem a ha')
    refine ⟨b :: bs, ?_, .cons hb hall⟩
    rw [List.mapM_cons, hb, hbs]
    rfl

/-- No address has more than 64 bits. -/
def Short (N : Memories) : Prop :=
  (∀ p ∈ N.reads, p.abits ≤ 64) ∧ ∀ p ∈ N.writes, p.abits ≤ 64

/-- The memories behave as Yosys's just when each read stays in its array, and each write port has an
    address below the depth and takes its data and enable from their nets, or enables nothing. -/
theorem behave_iff (h : N.Short) : N.Behave l ↔
    (∀ p ∈ N.reads, N.Inside p.memid (value l.nets (N.nets.resolve p.ADDR))) ∧
      ∀ p ∈ N.writes, N.WritesWithin l p := by
  constructor
  · intro hb
    refine ⟨fun p hp => ?_, fun p hp => ?_⟩
    · exact (readWord_iff hp (h.1 p hp)).mp (hb.read p hp)
    · exact (writePort_iff hp (h.2 p hp)).mp (hb.write p hp)
  · rintro ⟨hreads, hwrites⟩
    have hread := fun p hp => (readWord_iff hp (h.1 p hp)).mpr (hreads p hp)
    have hwrite := fun p hp => (writePort_iff hp (h.2 p hp)).mpr (hwrites p hp)
    refine ⟨hread, hwrite, N.wcells, N.wcells_perm, N.wcells_ascending, fun c => ?_⟩
    obtain ⟨seen, hseen, hall⟩ := mapM_some (f := fun p => N.readWord l.env p c.arrays)
      N.reads fun p hp => (hread p hp c).imp fun v hv => hv.1
    obtain ⟨c', hrun, hwords⟩ := writePorts_run N.wcells c fun p hp =>
      hwrite p (N.wcells_perm.mem_iff.mp hp)
    refine ⟨seen, c', ?_, hall, hwords⟩
    rw [clock, hseen, writePorts, hrun]
    rfl

/-! ### A memory of three words -/

theorem valid_all (w : Wire) : Nets.Valid ⟨id, id⟩ w.all := by
  refine ⟨fun b hb => all_valid w b hb, fun b hb => ?_⟩
  obtain ⟨b', hb', rfl⟩ := List.mem_map.mp hb
  exact all_valid w b' hb'

/-- The write port of `reg [7:0] m [0:2]`. -/
def threePort : WritePort where
  memid := "\\m"
  abits := 2
  portId := some 0
  priority := none
  ADDR := Wire.all ⟨"\\a", 2⟩
  DATA := Wire.all ⟨"\\d", 8⟩
  EN := Wire.all ⟨"\\e", 8⟩
  CLK := .wire ⟨"\\clk", 1⟩ 0
  clkPolarity := true

def threeWords : Memories where
  size := .w32
  nets := ⟨id, id⟩
  realSize m := if m = "\\m" then some 3 else none
  width _ := 8
  inits := []
  reads := []
  writes := [threePort]
  read_ports := fun _ h => absurd h List.not_mem_nil
  write_ports := fun p h => by
    obtain rfl := List.mem_singleton.mp h
    exact ⟨rfl, rfl, rfl, valid_all _, valid_all _, valid_all _⟩
  int_limbs := fun _ => by decide
  int_length := fun m => by
    by_cases h : m = "\\m"
    · subst h
      decide
    · have hne : "\\m" ≠ m := Ne.symm h
      simp [memDepth, initDepth, threePort, hne, wordLimbs, isWide]

/-- A write of all bits to an address. -/
def writeAt (addr : Nat) (w : Wire) : Nat :=
  if w = ⟨"\\a", 2⟩ then addr % 4 else if w = ⟨"\\e", 8⟩ then 255 else 0

theorem writeAt_lt (addr : Nat) (w : Wire) : writeAt addr w < 2 ^ w.width := by
  unfold writeAt
  split_ifs with ha he
  · rw [ha]
    exact Nat.mod_lt _ (by decide)
  · rw [he]
    decide
  · exact Nat.two_pow_pos _

def writing (addr : Nat) : Locals threeWords.size :=
  ⟨envOf .w32 (writeAt addr), wellFormed_envOf _ (writeAt_lt addr)⟩

theorem value_writing (addr : Nat) (w : Wire) :
    value (writing addr).nets (threeWords.nets.resolve w.all) = writeAt addr w := by
  rw [Nets.resolve, show (fun b => threeWords.nets.redirect (threeWords.nets.sigmap b)) = id from rfl,
    List.map_id]
  exact value_all (writeAt_lt addr w)

theorem depth_three : threeWords.depth "\\m" = 3 := by decide

theorem within_three (addr : Nat) :
    threeWords.WritesWithin (writing addr) threePort ↔ addr % 4 < 3 := by
  have haddr : value (writing addr).nets (threeWords.nets.resolve threePort.ADDR) = addr % 4 :=
    (value_writing addr _).trans (if_pos rfl)
  have hen : threeWords.taken (writing addr) threePort.memid threePort.EN = 255 :=
    (value_writing addr _).trans ((if_neg (by decide)).trans (if_pos rfl))
  unfold WritesWithin
  rw [haddr, show threePort.memid = "\\m" from rfl, depth_three]
  by_cases h : addr % 4 < 3
  · rw [if_pos h]
    exact iff_of_true ⟨rfl, rfl⟩ h
  · rw [if_neg h]
    refine iff_of_false (fun hzero => ?_) h
    rw [show threePort.memid = "\\m" from rfl, hzero] at hen
    cases hen

/-- Address 3 lies outside the array of three words. -/
theorem not_behave_three : ¬ threeWords.Behave (writing 3) := by
  intro h
  have hwithin := (writePort_iff List.mem_cons_self (by decide)).mp (h.write threePort
    List.mem_cons_self)
  exact absurd ((within_three 3).mp hwithin) (by decide)

theorem behave_two : threeWords.Behave (writing 2) :=
  (behave_iff ⟨fun _ h => absurd h List.not_mem_nil, fun p h => by
    obtain rfl := List.mem_singleton.mp h
    decide⟩).mpr ⟨fun _ h => absurd h List.not_mem_nil, fun p h => by
    obtain rfl := List.mem_singleton.mp h
    exact (within_three 2).mpr (by decide)⟩

end Memories

end Yosys.Rtlil
