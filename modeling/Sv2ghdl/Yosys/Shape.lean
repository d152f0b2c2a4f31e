import Sv2ghdl.Yosys.EmitWide

/-!
# Shapes of cells

What a generator may depend on in a cell: its type, the widths and signs of its operands, and how
its output lies in the wires.  An emitter is faithful for a shape when it is for each cell of the
shape, on all values of the wires.
-/

open Clang Yosys.WideRt

namespace Yosys.Rtlil

structure Shape where
  type : CellType
  aw : Nat
  bw : Nat
  sw : Nat
  yw : Nat
  aSigned : Bool
  bSigned : Bool
  /-- The wire of the first bits of the output has more than 64 bits. -/
  wideTarget : Bool
  /-- The output is not one whole wire. -/
  scattered : Bool
  /-- An operand that is read word by word has a representative that is redirected. -/
  aliased : Bool
  deriving DecidableEq

/-- `emit_cell` hands the cell to `emit_wide_cell`. -/
def Shape.wide (p : Shape) : Bool :=
  p.wideTarget || isWide p.yw || isWide p.aw || isWide p.bw

def wideTarget (Y : SigSpec) : Bool :=
  match chunks Y with
  | .wire w _ _ :: _ => isWide w.width
  | _ => false

/-- The operands that a wide cell reads word by word. -/
def Cell.materialized (c : Cell) : SigSpec :=
  match c.type with
  | .shl | .shr | .shift | .shiftx => c.A
  | _ => c.A ++ c.B

/-- The cells of a shape. -/
structure Cell.Has (nets : Nets) (c : Cell) (p : Shape) : Prop where
  type : c.type = p.type
  aw : c.A.length = p.aw
  bw : c.B.length = p.bw
  sw : c.S.length = p.sw
  yw : c.Y.length = p.yw
  aSigned : c.aSigned = p.aSigned
  bSigned : c.bSigned = p.bSigned
  icgClk : c.icgClk = false
  wideTarget : Rtlil.wideTarget c.Y = p.wideTarget
  scattered : yMulti c.Y = p.scattered
  A : ∀ b ∈ nets.resolve c.A, b.Valid
  B : ∀ b ∈ nets.resolve c.B, b.Valid
  S : ∀ b ∈ nets.resolve c.S, b.Valid
  mapped : ∀ b ∈ c.materialized, (nets.sigmap b).Valid
  direct : p.aliased = false →
    ∀ b ∈ c.materialized, nets.redirect (nets.sigmap b) = nets.sigmap b
  drives : ∀ b ∈ c.Y, ∃ w i, b = .wire w i ∧ i < w.width
  nodup : c.Y.Nodup

/-- What the library lets a cell have: an output, signs that match or, for a shift, an unsigned
    count, and the widths of `$mux` and `$pmux`. -/
def Shape.Legal (p : Shape) : Prop :=
  0 < p.yw ∧ (p.scattered = false → p.wideTarget = isWide p.yw) ∧
    match p.type with
    | .shl | .shr | .sshl | .sshr => p.bSigned = false
    | .shiftx => p.aSigned = false
    | .mux => p.aw = p.yw ∧ p.bw = p.yw ∧ p.sw = 1
    | .pmux => p.aw = p.yw ∧ p.bw = p.sw * p.yw
    | .shift | .not | .neg | .reduceAnd | .reduceOr | .reduceXor | .reduceBool | .logicNot
    | .logicAnd | .logicOr => True
    | _ => p.aSigned = p.bSigned

def Shape.value (p : Shape) (a b s : Nat) : Nat :=
  p.type.value p.aSigned p.bSigned p.aw p.bw p.yw a b s

/-- The values of a cell's operands are those of the nets they belong to. -/
def Cell.value (c : Cell) (size : LimbSize) (nets : Nets) (env : CEnv) : Nat :=
  c.type.value c.aSigned c.bSigned c.A.length c.B.length c.Y.length (operand size nets env c.A)
    (operand size nets env c.B) (operand size nets env c.S)

/-- What is emitted for a cell of the shape sets the bits of `Y`, and no others, to the value of the
    cell, and leaves no bit above the width of a wire. -/
def Faithful (size : LimbSize) (p : Shape) : Prop :=
  ∀ nets c, c.Has nets p → ∀ s, emitCell size nets c = some s → ∀ env, WellFormed size env →
    ∃ env', run size s env = some env' ∧
      Stored size env env' c.Y (c.value size nets env).testBit

/-! ## Cells of distinct wires -/

/-- All bits of a wire. -/
def Wire.all (w : Wire) : SigSpec := (Chunk.wire w 0 w.width).bits

theorem length_all (w : Wire) : w.all.length = w.width := length_bits _

/-- A valuation that gives each wire a number. -/
def envOf (size : LimbSize) (f : Wire → Nat) : CEnv where
  scalar
    | .wire w => ⟨uint64, f w⟩
    | .loc _ => ⟨uint64, 0⟩
  array
    | .wire w => (List.range (nlimbs size w.width)).map fun i => f w / 2 ^ (size.bits * i) % 2 ^ size.bits
    | .loc _ => []
  garbage := fun _ => 0

variable {size : LimbSize} {f : Wire → Nat}

theorem bitAt_words {n x k : Nat} (hk : k < size.bits * n) :
    bitAt size.bits ((List.range n).map fun i => x / 2 ^ (size.bits * i) % 2 ^ size.bits) k =
      x.testBit k := by
  have hword : k / size.bits < n := Nat.div_lt_of_lt_mul hk
  rw [bitAt, List.getD_eq_getElem?_getD, List.getElem?_map, List.getElem?_range hword,
    Option.map_some, Option.getD_some, Nat.testBit_mod_two_pow,
    decide_eq_true (Nat.mod_lt k (size_pos size)), Bool.true_and, ← Nat.shiftRight_eq_div_pow,
    Nat.testBit_shiftRight, Nat.div_add_mod]

theorem wellFormed_envOf (size : LimbSize) (hf : ∀ w, f w < 2 ^ w.width) : WellFormed size (envOf size f) := by
  refine ⟨fun w => rfl, fun w _ => hf w, fun w _ => ⟨by simp [envOf], fun x hx => ?_⟩⟩
  obtain ⟨i, -, rfl⟩ := List.mem_map.mp hx
  exact Nat.mod_lt _ (Nat.two_pow_pos _)

theorem wireBits_envOf (f : Wire → Nat) {w : Wire} {i : Nat} (hi : i < w.width) :
    wireBits size (envOf size f) w i = (f w).testBit i := by
  rw [wireBits]
  by_cases hw : isWide w.width = true
  · have hlimbs := le_nlimbs size w.width
    rw [if_pos hw]
    exact bitAt_words (by omega)
  · rw [if_neg hw]
    rfl

theorem value_all {w : Wire} (hf : f w < 2 ^ w.width) :
    Rtlil.value (wireBits size (envOf size f)) w.all = f w := by
  refine (eq_value (by rwa [length_all]) fun i b hb => ?_).symm
  obtain ⟨hi, rfl⟩ := getElem?_bits hb
  rw [Nat.zero_add, SigBit.value, wireBits_envOf f hi]

theorem all_valid (w : Wire) : ∀ b ∈ w.all, b.Valid := by
  intro b hb
  obtain ⟨i, hi, rfl⟩ := List.mem_map.mp hb
  have hlt := (List.mem_range'_1.mp hi).2
  rw [SigBit.Valid]
  omega

theorem all_nodup (w : Wire) : w.all.Nodup :=
  List.Nodup.map (fun _ _ h => (SigBit.wire.inj h).2) List.nodup_range'

/-- The output of a cell of the shape: the low bits of a wide wire, the top bit of a wire and
    another whole wire, or one whole wire. -/
def Shape.output (p : Shape) : SigSpec :=
  if p.scattered then
    if p.wideTarget then (Chunk.wire ⟨"y", p.yw + 64⟩ 0 p.yw).bits
    else .wire ⟨"y", 2⟩ 1 :: Wire.all ⟨"z", p.yw - 1⟩
  else Wire.all ⟨"y", p.yw⟩

/-- A cell of the shape whose operands are whole wires. -/
def Shape.cell (p : Shape) : Cell where
  type := p.type
  A := Wire.all ⟨"a", p.aw⟩
  B := Wire.all ⟨"b", p.bw⟩
  S := Wire.all ⟨"s", p.sw⟩
  Y := p.output
  aSigned := p.aSigned
  bSigned := p.bSigned
  icgClk := false

theorem wire_ne {m n : String} (h : m ≠ n) (v w : Nat) : (⟨m, v⟩ : Wire) ≠ ⟨n, w⟩ :=
  fun heq => h (congrArg Wire.name heq)

/-- The bits of a chunk are one chunk. -/
theorem chunks_bits (w : Wire) (offset : Nat) {width : Nat} (hwidth : 0 < width) :
    chunks (Chunk.wire w offset width).bits = [.wire w offset width] := by
  obtain ⟨n, rfl⟩ : ∃ n, width = n + 1 := ⟨width - 1, by omega⟩
  induction n generalizing offset with
  | zero => rfl
  | succ n ih =>
    have hrest := ih (offset + 1) (Nat.succ_pos n)
    rw [chunks, Chunk.bits, List.range'_succ, List.map_cons, List.foldr_cons]
    rw [chunks, Chunk.bits] at hrest
    rw [hrest, pushBit, if_pos ⟨rfl, rfl⟩]

theorem chunks_all {w : Wire} (hw : 0 < w.width) : chunks w.all = [.wire w 0 w.width] :=
  chunks_bits w 0 hw

theorem chunks_pair {v w : Wire} (hne : v ≠ w) (i : Nat) :
    chunks (.wire v i :: w.all) = .wire v i 1 :: chunks w.all := by
  rw [chunks, List.foldr_cons, ← chunks]
  by_cases hw : 0 < w.width
  · rw [chunks_all hw, pushBit, if_neg fun h => hne h.1]
  · obtain ⟨name, width⟩ := w
    obtain rfl : width = 0 := by simpa using hw
    rfl

section Output

variable {p : Shape} (hp : p.Legal)
include hp

theorem output_length : p.output.length = p.yw := by
  have hpos := hp.1
  rw [Shape.output]
  split_ifs
  · exact length_bits _
  · rw [List.length_cons, length_all]
    simp only
    omega
  · exact length_all _

omit hp in
theorem output_drives : ∀ b ∈ p.output, ∃ w i, b = .wire w i ∧ i < w.width := by
  have hvalid : ∀ w : Wire, ∀ b ∈ w.all, ∃ w i, b = .wire w i ∧ i < w.width := by
    intro w b hb
    have hlt := all_valid w b hb
    obtain ⟨i, -, rfl⟩ := List.mem_map.mp hb
    exact ⟨w, i, rfl, hlt⟩
  intro b hb
  rw [Shape.output] at hb
  split_ifs at hb
  · obtain ⟨i, hi, rfl⟩ := List.mem_map.mp hb
    have hlt := (List.mem_range'_1.mp hi).2
    exact ⟨_, i, rfl, by simp only; omega⟩
  · rcases List.mem_cons.mp hb with rfl | hb
    · exact ⟨_, 1, rfl, Nat.one_lt_two⟩
    · exact hvalid _ b hb
  · exact hvalid _ b hb

omit hp in
theorem output_nodup : p.output.Nodup := by
  rw [Shape.output]
  split_ifs
  · exact List.Nodup.map (fun _ _ h => (SigBit.wire.inj h).2) List.nodup_range'
  · refine List.nodup_cons.mpr ⟨fun hmem => ?_, all_nodup _⟩
    obtain ⟨i, -, heq⟩ := List.mem_map.mp hmem
    exact wire_ne (by decide) _ _ (SigBit.wire.inj heq).1
  · exact all_nodup _

theorem output_chunks : chunks p.output =
    if p.scattered then
      if p.wideTarget then [.wire ⟨"y", p.yw + 64⟩ 0 p.yw]
      else .wire ⟨"y", 2⟩ 1 1 :: chunks (Wire.all ⟨"z", p.yw - 1⟩)
    else [.wire ⟨"y", p.yw⟩ 0 p.yw] := by
  rw [Shape.output]
  split_ifs
  · exact chunks_bits _ _ hp.1
  · exact chunks_pair (wire_ne (by decide) _ _) 1
  · exact chunks_bits _ _ hp.1

theorem output_scattered : yMulti p.output = p.scattered := by
  have hpos := hp.1
  rw [yMulti, output_chunks hp]
  split_ifs with hs hw
  · simp [hs, isPartial]
  · simp [hs, isPartial]
  · simp [wireCount, isPartial, hs]

theorem output_wideTarget : wideTarget p.output = p.wideTarget := by
  have hpos := hp.1
  rw [wideTarget, output_chunks hp]
  split_ifs with hs hw
  · simp only [hw, isWide, decide_eq_true_eq]
    omega
  · simpa [isWide] using hw
  · exact (hp.2.1 (by simpa using hs)).symm

end Output

/-- The nets in which each bit is its own representative. -/
def plainNets : Nets := ⟨id, id⟩

theorem resolve_plain (sig : SigSpec) : plainNets.resolve sig = sig := List.map_id sig

theorem cell_has {p : Shape} (hp : p.Legal) : p.cell.Has plainNets p where
  type := rfl
  aw := length_all _
  bw := length_all _
  sw := length_all _
  yw := output_length hp
  aSigned := rfl
  bSigned := rfl
  icgClk := rfl
  wideTarget := output_wideTarget hp
  scattered := output_scattered hp
  A := by rw [resolve_plain]; exact all_valid _
  B := by rw [resolve_plain]; exact all_valid _
  S := by rw [resolve_plain]; exact all_valid _
  mapped := by
    intro b hb
    rw [Cell.materialized] at hb
    split at hb
    all_goals first
      | exact all_valid _ b hb
      | rcases List.mem_append.mp hb with hb | hb <;> exact all_valid _ b hb
  direct := fun _ _ _ => rfl
  drives := output_drives
  nodup := output_nodup

/-- The values of the operands in the wires of the cell. -/
def Shape.values (p : Shape) (a b s : Nat) : Wire → Nat := fun w =>
  if w = ⟨"a", p.aw⟩ then a else if w = ⟨"b", p.bw⟩ then b else if w = ⟨"s", p.sw⟩ then s else 0

section Values

variable {p : Shape} {a b s : Nat}

theorem values_lt (ha : a < 2 ^ p.aw) (hb : b < 2 ^ p.bw) (hs : s < 2 ^ p.sw) (w : Wire) :
    p.values a b s w < 2 ^ w.width := by
  rw [Shape.values]
  split_ifs with h h h
  · rwa [h]
  · rwa [h]
  · rwa [h]
  · exact Nat.two_pow_pos _

theorem values_a : p.values a b s ⟨"a", p.aw⟩ = a := if_pos rfl

theorem values_b : p.values a b s ⟨"b", p.bw⟩ = b := by
  rw [Shape.values, if_neg (wire_ne (by decide) _ _), if_pos rfl]

theorem values_s : p.values a b s ⟨"s", p.sw⟩ = s := by
  rw [Shape.values, if_neg (wire_ne (by decide) _ _),
    if_neg (wire_ne (by decide) _ _), if_pos rfl]

/-- The operands of the cell have the values they are given. -/
theorem cell_operands (ha : a < 2 ^ p.aw) (hb : b < 2 ^ p.bw) (hs : s < 2 ^ p.sw) :
    operand size plainNets (envOf size (p.values a b s)) p.cell.A = a ∧
    operand size plainNets (envOf size (p.values a b s)) p.cell.B = b ∧
    operand size plainNets (envOf size (p.values a b s)) p.cell.S = s := by
  have hlt := values_lt ha hb hs
  have hall : ∀ w : Wire, operand size plainNets (envOf size (p.values a b s)) w.all =
      p.values a b s w := by
    intro w
    rw [operand, resolve_plain, value_all (hlt w)]
  refine ⟨?_, ?_, ?_⟩
  · exact (hall ⟨"a", p.aw⟩).trans values_a
  · exact (hall ⟨"b", p.bw⟩).trans values_b
  · exact (hall ⟨"s", p.sw⟩).trans values_s

theorem cell_value (hp : p.Legal) (ha : a < 2 ^ p.aw) (hb : b < 2 ^ p.bw) (hs : s < 2 ^ p.sw) :
    p.cell.value size plainNets (envOf size (p.values a b s)) = p.value a b s := by
  obtain ⟨hA, hB, hS⟩ := cell_operands ha hb hs
  have hcell := cell_has hp
  rw [Cell.value, hA, hB, hS, hcell.aw, hcell.bw, hcell.yw]
  rfl

end Values

end Yosys.Rtlil
