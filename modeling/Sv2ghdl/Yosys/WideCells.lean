import Sv2ghdl.Yosys.Materialize
import Sv2ghdl.Yosys.ScalarCells

/-!
# Runs of wide cells

What the wide cells share: an operand goes into a local array of words, a call of the runtime leaves
its result in `_wy`, and the bits of `_wy` go to the chunks of the output.
-/

open Clang Yosys.WideRt

namespace Yosys.Rtlil

variable {size : LimbSize} {env env' env'' : CEnv} {nets : Nets} {n : Nat} {x : String}

/-! ## Local arrays -/

theorem bitAt_limbs (a : Limbs size.bits n) (k : Nat) :
    bitAt size.bits a.limbs k = a.value.testBit k := by
  have hdiv := Nat.div_add_mod k size.bits
  have hbit := WideRt.testBit_value (size_pos size) a (j := k / size.bits) (Nat.mod_lt k (size_pos size))
  rw [bitAt, ← hbit, hdiv]

/-- No scalar and no array but the local `x` is changed. -/
structure Changes (x : String) (env env' : CEnv) : Prop where
  scalar : env'.scalar = env.scalar
  array : ∀ y, y ≠ Var.loc x → env'.array y = env.array y

theorem changes_setArray (env : CEnv) (x : String) (xs : List Nat) :
    Changes x env (env.setArray (.loc x) xs) :=
  ⟨rfl, fun _ hy => env.array_setArray_ne hy xs⟩

/-- The wires hold the same bits in both. -/
structure SameWires (size : LimbSize) (env env' : CEnv) : Prop where
  wellFormed : WellFormed size env'
  bits : wireBits size env' = wireBits size env

theorem SameWires.refl (henv : WellFormed size env) : SameWires size env env := ⟨henv, rfl⟩

theorem SameWires.trans (h : SameWires size env env') (h' : SameWires size env' env'') :
    SameWires size env env'' :=
  ⟨h'.wellFormed, h'.bits.trans h.bits⟩

theorem Changes.sameWires (h : Changes x env env') (henv : WellFormed size env) :
    SameWires size env env' := by
  have harray : ∀ w : Wire, env'.array (.wire w) = env.array (.wire w) :=
    fun w => h.array _ (wire_ne_loc w x)
  constructor
  · constructor
    · intro w
      rw [h.scalar]
      exact henv.type w
    · intro w
      rw [h.scalar]
      exact henv.lt w
    · intro w
      rw [harray]
      exact henv.limbs w
  · funext w i
    rw [wireBits, wireBits, h.scalar, harray]

theorem sameWires_set (henv : WellFormed size env) (x : String) (v : Value) :
    SameWires size env (env.set (.loc x) v) :=
  ⟨henv.set_loc x v, wireBits_set_loc size env x v⟩

theorem SameWires.operand (h : SameWires size env env') (nets : Nets) (sig : SigSpec) :
    operand size nets env' sig = operand size nets env sig := by
  rw [Rtlil.operand, Rtlil.operand, h.bits]

theorem SameWires.rawOperand (h : SameWires size env env') (nets : Nets) (sig : SigSpec) :
    rawOperand size nets env' sig = rawOperand size nets env sig := by
  rw [Rtlil.rawOperand, Rtlil.rawOperand, h.bits]

theorem Stored.after (h : SameWires size env env') {s : SigSpec} {f : Nat → Bool}
    (hs : Stored size env' env'' s f) : Stored size env env'' s f := by
  refine ⟨hs.wellFormed, hs.bit, fun w i hnot => ?_⟩
  rw [hs.frame w i hnot, h.bits]

/-- The array `x` holds the words of `v`. -/
def HasWords (size : LimbSize) (n : Nat) (env : CEnv) (x : Var) (v : Nat) : Prop :=
  ∃ l : Limbs size.bits n, env.array x = l.limbs ∧ l.value = v

theorem HasWords.holds {y : Var} {v : Nat} (h : HasWords size n env y v) :
    Holds size.bits n (env.array y) := by
  obtain ⟨l, hl, -⟩ := h
  rw [hl]
  exact Limbs.holds l

theorem HasWords.bit {y : Var} {v : Nat} (h : HasWords size n env y v) (k : Nat) :
    bitAt size.bits (env.array y) k = v.testBit k := by
  obtain ⟨l, hl, rfl⟩ := h
  rw [hl, bitAt_limbs]

theorem HasWords.lt {y : Var} {v : Nat} (h : HasWords size n env y v) : v < 2 ^ (size.bits * n) := by
  obtain ⟨l, -, rfl⟩ := h
  exact l.value_lt

theorem HasWords.frame {y : Var} {v : Nat} (h : HasWords size n env y v) (hc : Changes x env env')
    (hy : y ≠ .loc x) : HasWords size n env' y v := by
  rw [HasWords, hc.array y hy]
  exact h

/-- The words of an array whose bits are those of `v`. -/
theorem hasWords_setArray {ys : List Nat} {v : Nat} (hys : Holds size.bits n ys)
    (hv : v < 2 ^ (size.bits * n))
    (hbits : ∀ k, k < size.bits * n → bitAt size.bits ys k = v.testBit k) (y : Var) :
    HasWords size n (env.setArray y ys) y v := by
  obtain ⟨l, rfl, -⟩ := hys.limbs
  refine ⟨l, env.array_setArray_self y _, ?_⟩
  apply testBit_ext l.value_lt hv
  intro k hk
  rw [← bitAt_limbs, hbits k hk]

theorem declare_words (size : LimbSize) (env : CEnv) (x : String) (n : Nat) :
    ∃ env' v, run size (declareWords size (.loc x) n) env = some env' ∧ Changes x env env' ∧
      HasWords size n env' (.loc x) v := by
  obtain ⟨ys, hys⟩ : ∃ ys, ys = (List.range n).map fun i => env.garbage i % 2 ^ size.bits :=
    ⟨_, rfl⟩
  have hholds : Holds size.bits n ys := by
    constructor
    · rw [hys, List.length_map, List.length_range]
    · intro y hy
      rw [hys] at hy
      obtain ⟨i, -, rfl⟩ := List.mem_map.mp hy
      exact Nat.mod_lt _ (Nat.two_pow_pos _)
  obtain ⟨l, hl, -⟩ := hholds.limbs
  refine ⟨env.setArray (.loc x) ys, l.value, ?_, changes_setArray env x ys, l, ?_, rfl⟩
  · rw [hys]
    rfl
  · rw [env.array_setArray_self, hl]

theorem materialize_words (henv : WellFormed size env) {sig : SigSpec}
    (hvalid : ∀ b ∈ sig, (nets.sigmap b).Valid) (hlen : sig.length ≤ size.bits * n) {v : Nat}
    (hx : HasWords size n env (.loc x) v) :
    ∃ env', run size (materialize size nets (.loc x) n sig false) env = some env' ∧
      Changes x env env' ∧ HasWords size n env' (.loc x) (rawOperand size nets env sig) := by
  obtain ⟨ys, hrun, hys, hbits⟩ := materialize_run henv hvalid hlen hx.holds
  refine ⟨_, hrun, changes_setArray env x ys, ?_⟩
  apply hasWords_setArray hys _ hbits
  exact Nat.lt_of_lt_of_le (rawOperand_lt size nets env sig)
    (Nat.pow_le_pow_right (by decide) hlen)

/-! ## Operands -/

theorem run_cons (size : LimbSize) (s : CStmt) (ss : List CStmt) (env : CEnv) :
    run size (.block (s :: ss)) env = (run size s env).bind (run size (.block ss)) := rfl

theorem run_append (size : LimbSize) (ss ts : List CStmt) (env : CEnv) :
    run size (.block (ss ++ ts)) env = (run size (.block ss) env).bind (run size (.block ts)) := by
  induction ss generalizing env with
  | nil => rfl
  | cons s ss ih =>
    rw [List.cons_append, run_cons, run_cons]
    cases run size s env with
    | none => rfl
    | some env₁ => exact ih env₁

theorem run_single (size : LimbSize) (s : CStmt) (env : CEnv) :
    run size (.block [s]) env = run size s env := by
  rw [run_cons]
  cases run size s env with
  | none => rfl
  | some env₁ => rfl

/-- One operand in `_wa`, and a `_wy` for the result. -/
theorem operand_run (henv : WellFormed size env) {A : SigSpec}
    (hA : ∀ b ∈ A, (nets.sigmap b).Valid) (hlen : A.length ≤ size.bits * n) :
    ∃ env' v, run size (.block [declareWords size wa n, declareWords size wy n,
        materialize size nets wa n A false]) env = some env' ∧
      SameWires size env env' ∧ HasWords size n env' wa (rawOperand size nets env A) ∧
      HasWords size n env' wy v := by
  obtain ⟨env₁, va, hrun₁, hchange₁, ha₁⟩ := declare_words size env "_wa" n
  have hwires₁ := hchange₁.sameWires henv
  obtain ⟨env₂, vy, hrun₂, hchange₂, hy₂⟩ := declare_words size env₁ "_wy" n
  have hwires₂ := hwires₁.trans (hchange₂.sameWires hwires₁.wellFormed)
  obtain ⟨env₃, hrun₃, hchange₃, ha₃⟩ :=
    materialize_words hwires₂.wellFormed hA hlen (ha₁.frame hchange₂ (by decide))
  rw [hwires₂.rawOperand] at ha₃
  have hwires₃ := hwires₂.trans (hchange₃.sameWires hwires₂.wellFormed)
  refine ⟨env₃, vy, ?_, hwires₃, ha₃, hy₂.frame hchange₃ (by decide)⟩
  rw [run_cons, wa, hrun₁, Option.bind_some, run_cons, wy, hrun₂, Option.bind_some, run_single,
    hrun₃]

/-- Both operands in `_wa` and `_wb`, and a `_wy` for the result. -/
theorem operands_run (henv : WellFormed size env) {A B : SigSpec}
    (hA : ∀ b ∈ A, (nets.sigmap b).Valid) (hB : ∀ b ∈ B, (nets.sigmap b).Valid)
    (hlenA : A.length ≤ size.bits * n) (hlenB : B.length ≤ size.bits * n) :
    ∃ env' v, run size (.block [declareWords size wa n, declareWords size wb n,
        declareWords size wy n, materialize size nets wa n A false,
        materialize size nets wb n B false]) env = some env' ∧
      SameWires size env env' ∧ HasWords size n env' wa (rawOperand size nets env A) ∧
      HasWords size n env' wb (rawOperand size nets env B) ∧ HasWords size n env' wy v := by
  obtain ⟨env₁, va, hrun₁, hchange₁, ha₁⟩ := declare_words size env "_wa" n
  have hwires₁ := hchange₁.sameWires henv
  obtain ⟨env₂, vb, hrun₂, hchange₂, hb₂⟩ := declare_words size env₁ "_wb" n
  have hwires₂ := hwires₁.trans (hchange₂.sameWires hwires₁.wellFormed)
  obtain ⟨env₃, vy, hrun₃, hchange₃, hy₃⟩ := declare_words size env₂ "_wy" n
  have hwires₃ := hwires₂.trans (hchange₃.sameWires hwires₂.wellFormed)
  obtain ⟨env₄, hrun₄, hchange₄, ha₄⟩ := materialize_words hwires₃.wellFormed hA hlenA
    ((ha₁.frame hchange₂ (by decide)).frame hchange₃ (by decide))
  rw [hwires₃.rawOperand] at ha₄
  have hwires₄ := hwires₃.trans (hchange₄.sameWires hwires₃.wellFormed)
  obtain ⟨env₅, hrun₅, hchange₅, hb₅⟩ := materialize_words hwires₄.wellFormed hB hlenB
    ((hb₂.frame hchange₃ (by decide)).frame hchange₄ (by decide))
  rw [hwires₄.rawOperand] at hb₅
  have hwires₅ := hwires₄.trans (hchange₅.sameWires hwires₄.wellFormed)
  refine ⟨env₅, vy, ?_, hwires₅, ha₄.frame hchange₅ (by decide), hb₅,
    (hy₃.frame hchange₄ (by decide)).frame hchange₅ (by decide)⟩
  rw [run_cons, wa, hrun₁, Option.bind_some, run_cons, wb, hrun₂, Option.bind_some, run_cons, wy,
    hrun₃, Option.bind_some, run_cons, hrun₄, Option.bind_some, run_single, hrun₅]

/-! ## Scalar operands -/

theorem value_extract (σ : Valuation) (sig : SigSpec) (i n : Nat) :
    Rtlil.value σ (extract sig i n) = (Rtlil.value σ sig >>> i) % 2 ^ n := by
  apply Nat.eq_of_testBit_eq
  intro k
  rw [Rtlil.testBit_value, extract, Nat.testBit_mod_two_pow, Nat.testBit_shiftRight,
    Rtlil.testBit_value, List.getElem?_take, List.getElem?_drop]
  by_cases hk : k < n
  · rw [if_pos hk, decide_eq_true hk, Bool.true_and]
  · rw [if_neg hk, decide_eq_false hk, Bool.false_and]
    rfl

theorem resolve_extract (nets : Nets) (sig : SigSpec) (i n : Nat) :
    nets.resolve (extract sig i n) = extract (nets.resolve sig) i n := by
  rw [Nets.resolve, Nets.resolve, extract, extract, List.map_take, List.map_drop]

/-- `scalar_of` has the low 64 bits of the operand. -/
theorem scalarOf_has (henv : WellFormed size env) {sig : SigSpec}
    (hsig : ∀ b ∈ nets.resolve sig, b.Valid) :
    (scalarOf size nets sig).Has (Func.eval size) env uint64
      (operand size nets env sig % 2 ^ 64) := by
  rw [scalarOf]
  by_cases hlen : sig.length ≤ 64
  · have hlt := operand_lt size nets env sig
    have hle : 2 ^ sig.length ≤ 2 ^ 64 := Nat.pow_le_pow_right (by decide) hlen
    rw [if_pos hlen, Nat.mod_eq_of_lt (by omega)]
    exact sigExpr_has henv nets hsig hlen
  · have hvalid : ∀ b ∈ nets.resolve (extract sig 0 64), b.Valid := by
      intro b hb
      rw [resolve_extract] at hb
      exact hsig b (List.mem_of_mem_drop (List.mem_of_mem_take hb))
    have hhas := sigExpr_has henv nets hvalid (List.length_take_le 64 _)
    rw [resolve_extract, value_extract, Nat.shiftRight_zero] at hhas
    rwa [if_neg hlen]

/-! ## The result -/

/-- What is run stores the bits of a value in `Y`, or is undefined. -/
def Delivers (size : LimbSize) (env : CEnv) (s : CStmt) (Y : SigSpec) : Option Nat → Prop
  | some v => ∃ env', run size s env = some env' ∧ Stored size env env' Y v.testBit
  | none => run size s env = none

theorem Delivers.congr {s : CStmt} {Y : SigSpec} {v v' : Nat} (h : Delivers size env s Y (some v))
    (hbits : ∀ k < Y.length, v.testBit k = v'.testBit k) : Delivers size env s Y (some v') := by
  obtain ⟨env', hrun, hstored⟩ := h
  exact ⟨env', hrun, hstored.congr hbits⟩

/-- A store after statements that change no wire. -/
theorem Delivers.after (ss : List CStmt) {ts : List CStmt} {Y : SigSpec} {r : Option Nat}
    (hrun : run size (.block ss) env = some env') (hwires : SameWires size env env')
    (h : Delivers size env' (.block ts) Y r) : Delivers size env (.block (ss ++ ts)) Y r := by
  have hblock : run size (.block (ss ++ ts)) env = run size (.block ts) env' := by
    rw [run_append, hrun, Option.bind_some]
  cases r with
  | none => exact hblock.trans h
  | some v =>
    obtain ⟨env'', hrun', hstored⟩ := h
    exact ⟨env'', hblock.trans hrun', hstored.after hwires⟩

theorem Delivers.single {s : CStmt} {Y : SigSpec} {r : Option Nat} (h : Delivers size env s Y r) :
    Delivers size env (.block [s]) Y r := by
  cases r with
  | none => exact (run_single size s env).trans h
  | some v =>
    obtain ⟨env', hrun, hstored⟩ := h
    exact ⟨env', (run_single size s env).trans hrun, hstored⟩

theorem Delivers.of_none (ss ts : List CStmt) {Y : SigSpec}
    (hrun : run size (.block ss) env = none) : Delivers size env (.block (ss ++ ts)) Y none := by
  rw [Delivers, run_append, hrun, Option.bind_none]

section Put

variable {Y : SigSpec} {w : Wire} {offset width : Nat} {rest : List Chunk}
  (hdrives : ∀ b ∈ Y, ∃ w i, b = .wire w i ∧ i < w.width)
include hdrives

/-- An output that the wide cells do not scatter is one whole wire. -/
theorem whole_target (hchunks : chunks Y = .wire w offset width :: rest)
    (hscatter : yScatter Y = false) : Y = w.all ∧ offset = 0 := by
  have hmulti : yMulti Y = false := by
    rw [yScatter, Bool.or_eq_false_iff] at hscatter
    rw [yMulti, hscatter.2, Bool.or_false]
    have hcount : wireCount (chunks Y) ≤ (chunks Y).length := List.length_filter_le _ _
    have hlength := hscatter.1
    simp only [gt_iff_lt, decide_eq_false_iff_not, not_lt] at hlength ⊢
    omega
  have hpos : 0 < Y.length := by
    apply Nat.pos_of_ne_zero
    intro hzero
    rw [List.length_eq_zero_iff] at hzero
    rw [hzero] at hchunks
    cases hchunks
  obtain ⟨v, hwhole, hY⟩ := whole_wire hdrives hpos hmulti
  rw [hchunks] at hwhole
  obtain ⟨⟨hw, hoffset, -⟩, -⟩ : (w = v ∧ offset = 0 ∧ width = v.width) ∧ rest = [] := by
    simpa using hwhole
  rw [hw]
  exact ⟨hY, hoffset⟩

/-- The words of `_wy` go to the bits of the output. -/
theorem putVal_run (henv : WellFormed size env) (hnodup : Y.Nodup)
    (hchunks : chunks Y = .wire w offset width :: rest) (hlen : Y.length ≤ size.bits * n) {v : Nat}
    (hy : HasWords size n env wy v) : Delivers size env (putVal n Y w offset) Y (some v) := by
  have hvalid : ∀ b ∈ Y, b.Valid := by
    intro b hb
    obtain ⟨u, i, rfl, hi⟩ := hdrives b hb
    exact hi
  have hflat := bits_chunks Y
  rw [putVal]
  by_cases hscatter : yScatter Y = true
  · obtain ⟨env', hrun, hstored⟩ := putChunks_run henv rfl hy.holds (chunks_valid hvalid)
      (by rwa [hflat]) 0 (by rwa [hflat, Nat.zero_add])
    rw [hflat] at hstored
    rw [if_pos hscatter]
    refine ⟨env', hrun, hstored.congr fun k _ => ?_⟩
    rw [Nat.zero_add, hy.bit]
  · obtain ⟨hY, rfl⟩ := whole_target hdrives hchunks (by simpa using hscatter)
    have hlength : Y.length = w.width := by rw [hY, length_all]
    have hwidth : 0 < w.width := by
      rw [hY, chunks] at hchunks
      apply Nat.pos_of_ne_zero
      intro hzero
      rw [Wire.all, hzero] at hchunks
      cases hchunks
    obtain ⟨env', hrun, hstored, -⟩ := putChunk_run henv rfl hy.holds
      (c := .wire w 0 w.width) ⟨hwidth, all_valid w⟩ 0
      (by rw [Nat.zero_add, Chunk.width, ← hlength]; exact hlen)
    rw [if_neg hscatter, hlength]
    refine ⟨env', ?_, ?_⟩
    · rw [← hrun, putChunk]
      by_cases hw : isWide w.width = true
      · rw [if_pos hw, if_pos hw]
        rfl
      · rw [if_neg hw, if_neg hw, if_pos ⟨rfl, rfl⟩]
    · rw [hY]
      refine hstored.congr fun k _ => ?_
      rw [Nat.zero_add, hy.bit]

end Put

/-! ## Cells that read through a redirection -/

/-- The cells that read `B` word by word. -/
def CellType.wordsOfB : CellType → Bool
  | .shl | .shr | .shift | .shiftx => false
  | _ => true

/-- The wires `a` and `b` stand for others. -/
def redirectBit (ofA ofB : Bool) : SigBit → SigBit
  | .wire w i =>
    if ofA ∧ w.name = "a" then .wire ⟨"ra", w.width⟩ i
    else if ofB ∧ w.name = "b" then .wire ⟨"rb", w.width⟩ i
    else .wire w i
  | .const s => .const s

/-- Nets for the cell of a shape, which redirect what the shape lets them. -/
def Shape.cellNets (p : Shape) : Nets :=
  ⟨id, redirectBit p.aliased (p.aliased || !p.type.wordsOfB)⟩

/-- The wire that `A` of the cell stands for. -/
def Shape.wireA (p : Shape) : Wire := ⟨if p.aliased then "ra" else "a", p.aw⟩

/-- The wire that `B` of the cell stands for. -/
def Shape.wireB (p : Shape) : Wire :=
  ⟨if p.aliased || !p.type.wordsOfB then "rb" else "b", p.bw⟩

/-- A cell reads word by word `A` and, if it does so at all, `B`. -/
theorem mem_materialized {c : Cell} {b : SigBit} (hb : b ∈ c.materialized) :
    b ∈ c.A ∨ c.type.wordsOfB = true ∧ b ∈ c.B := by
  unfold Cell.materialized at hb
  unfold CellType.wordsOfB
  cases hc : c.type <;> simp only [hc, List.mem_append, Bool.false_eq_true, true_and, false_and,
    or_false] at hb ⊢ <;> assumption

section Redirected

variable {p : Shape}

theorem resolve_all {w v : Wire} (hv : v.width = w.width)
    (h : ∀ i, p.cellNets.redirect (.wire w i) = .wire v i) : p.cellNets.resolve w.all = v.all := by
  rw [Nets.resolve, Wire.all, Wire.all, Chunk.bits, Chunk.bits, List.map_map, hv]
  apply List.map_congr_left
  intro i _
  exact h i

theorem resolve_A : p.cellNets.resolve p.cell.A = p.wireA.all := by
  apply resolve_all (w := ⟨"a", p.aw⟩) (v := p.wireA) rfl
  intro i
  cases h : p.aliased <;> simp [Shape.cellNets, redirectBit, Shape.wireA, h]

theorem resolve_B : p.cellNets.resolve p.cell.B = p.wireB.all := by
  apply resolve_all (w := ⟨"b", p.bw⟩) (v := p.wireB) rfl
  intro i
  cases h : p.aliased <;> cases h' : p.type.wordsOfB <;>
    simp [Shape.cellNets, redirectBit, Shape.wireB, h, h']

theorem resolve_S : p.cellNets.resolve p.cell.S = p.cell.S := by
  apply resolve_all rfl
  intro i
  simp [Shape.cellNets, redirectBit]

theorem cell_has_nets (hp : p.Legal) : p.cell.Has p.cellNets p := by
  have hplain := cell_has hp
  refine { hplain with A := ?_, B := ?_, S := ?_, direct := ?_ }
  · rw [resolve_A]
    exact all_valid _
  · rw [resolve_B]
    exact all_valid _
  · rw [resolve_S]
    exact all_valid _
  · intro haliased b hb
    have hA : ∀ b ∈ p.cell.A, p.cellNets.redirect (p.cellNets.sigmap b) = p.cellNets.sigmap b := by
      intro b hb
      obtain ⟨i, -, rfl⟩ := List.mem_map.mp hb
      simp [Shape.cellNets, redirectBit, haliased]
    have hB : p.type.wordsOfB = true →
        ∀ b ∈ p.cell.B, p.cellNets.redirect (p.cellNets.sigmap b) = p.cellNets.sigmap b := by
      intro hwords b hb
      obtain ⟨i, -, rfl⟩ := List.mem_map.mp hb
      simp [Shape.cellNets, redirectBit, haliased, hwords]
    rcases mem_materialized hb with hb | ⟨hwords, hb⟩
    · exact hA b hb
    · exact hB hwords b hb

/-- What is read word by word is what the operand stands for, unless the shape is aliased. -/
def Shape.Reads (p : Shape) (a b a' b' : Nat) : Prop :=
  p.aliased = false → a = a' ∧ (p.type.wordsOfB = true → b = b')

/-- The raw values `a` and `b` and the values `a'`, `b'` and `s` of the operands; all other wires
    have all bits set. -/
def Shape.readValues (p : Shape) (a b a' b' s : Nat) : Wire → Nat := fun w =>
  if w = ⟨"a", p.aw⟩ then a
  else if w = ⟨"b", p.bw⟩ then b
  else if w = ⟨"ra", p.aw⟩ then a'
  else if w = ⟨"rb", p.bw⟩ then b'
  else if w = ⟨"s", p.sw⟩ then s
  else 2 ^ w.width - 1

variable {a b a' b' s : Nat}

theorem readValues_lt (ha : a < 2 ^ p.aw) (hb : b < 2 ^ p.bw) (ha' : a' < 2 ^ p.aw)
    (hb' : b' < 2 ^ p.bw) (hs : s < 2 ^ p.sw) (w : Wire) :
    p.readValues a b a' b' s w < 2 ^ w.width := by
  have hpos := Nat.two_pow_pos w.width
  unfold Shape.readValues
  split_ifs with h h h h h
  · rwa [h]
  · rwa [h]
  · rwa [h]
  · rwa [h]
  · rwa [h]
  · omega

variable (size) in
/-- The operands of the cell have the values they are given. -/
theorem cell_reads (ha : a < 2 ^ p.aw) (hb : b < 2 ^ p.bw) (ha' : a' < 2 ^ p.aw)
    (hb' : b' < 2 ^ p.bw) (hs : s < 2 ^ p.sw) (hreads : p.Reads a b a' b') :
    let env := envOf size (p.readValues a b a' b' s)
    rawOperand size p.cellNets env p.cell.A = a ∧ rawOperand size p.cellNets env p.cell.B = b ∧
      operand size p.cellNets env p.cell.A = a' ∧ operand size p.cellNets env p.cell.B = b' ∧
      operand size p.cellNets env p.cell.S = s := by
  intro env
  have hlt := readValues_lt ha hb ha' hb' hs
  have hall : ∀ w : Wire, Rtlil.value (wireBits size env) w.all = p.readValues a b a' b' s w :=
    fun w => value_all (hlt w)
  have hne : ∀ {m n : String}, m ≠ n → ∀ v w, ¬ (⟨m, v⟩ : Wire) = ⟨n, w⟩ :=
    fun h v w => wire_ne h v w
  have hvalue : p.readValues a b a' b' s ⟨"a", p.aw⟩ = a ∧
      p.readValues a b a' b' s ⟨"b", p.bw⟩ = b ∧ p.readValues a b a' b' s ⟨"ra", p.aw⟩ = a' ∧
      p.readValues a b a' b' s ⟨"rb", p.bw⟩ = b' ∧ p.readValues a b a' b' s ⟨"s", p.sw⟩ = s := by
    simp [Shape.readValues]
  refine ⟨?_, ?_, ?_, ?_, ?_⟩
  · rw [rawOperand, Shape.cellNets, List.map_id]
    exact (hall _).trans hvalue.1
  · rw [rawOperand, Shape.cellNets, List.map_id]
    exact (hall _).trans hvalue.2.1
  · rw [operand, resolve_A, hall, Shape.wireA]
    cases h : p.aliased
    · exact hvalue.1.trans (hreads h).1
    · exact hvalue.2.2.1
  · rw [operand, resolve_B, hall, Shape.wireB]
    cases h : p.aliased <;> cases h' : p.type.wordsOfB
    · exact hvalue.2.2.2.1
    · exact hvalue.2.1.trans ((hreads h).2 h')
    · exact hvalue.2.2.2.1
    · exact hvalue.2.2.2.1
  · rw [operand, resolve_S]
    exact (hall _).trans hvalue.2.2.2.2

theorem cell_value_nets (hp : p.Legal) (ha : a < 2 ^ p.aw) (hb : b < 2 ^ p.bw) (ha' : a' < 2 ^ p.aw)
    (hb' : b' < 2 ^ p.bw) (hs : s < 2 ^ p.sw) (hreads : p.Reads a b a' b') :
    p.cell.value size p.cellNets (envOf size (p.readValues a b a' b' s)) = p.value a' b' s := by
  obtain ⟨-, -, hA, hB, hS⟩ := cell_reads size ha hb ha' hb' hs hreads
  have hcell := cell_has_nets hp
  rw [Cell.value, hA, hB, hS, hcell.aw, hcell.bw, hcell.yw]
  rfl

end Redirected

/-! ## Faithful wide cells -/

section Wide

variable {p : Shape} {c : Cell}

theorem emitCell_wide (hc : c.Has nets p) (hwide : p.wide = true) {w : Wire} {offset width : Nat}
    {rest : List Chunk} (hchunks : chunks c.Y = .wire w offset width :: rest)
    (hw : isWide w.width = p.wideTarget) :
    emitCell size nets c = emitWide size nets c w offset := by
  rw [emitCell, hchunks]
  simp only [Shape.wide, Bool.or_eq_true] at hwide
  simp only [hw, hc.yw, hc.aw, hc.bw]
  rw [if_pos (by tauto)]

/-- The operands of a cell of the shape. -/
theorem cell_in_range (hc : c.Has nets p) (size : LimbSize) (env : CEnv) :
    rawOperand size nets env c.A < 2 ^ p.aw ∧ rawOperand size nets env c.B < 2 ^ p.bw ∧
      operand size nets env c.A < 2 ^ p.aw ∧ operand size nets env c.B < 2 ^ p.bw ∧
      operand size nets env c.S < 2 ^ p.sw := by
  have hA := rawOperand_lt size nets env c.A
  have hB := rawOperand_lt size nets env c.B
  have hA' := operand_lt size nets env c.A
  have hB' := operand_lt size nets env c.B
  have hS := operand_lt size nets env c.S
  rw [hc.aw] at hA hA'
  rw [hc.bw] at hB hB'
  rw [hc.sw] at hS
  exact ⟨hA, hB, hA', hB', hS⟩

theorem cell_reads_direct (hc : c.Has nets p) (size : LimbSize) (env : CEnv) :
    p.Reads (rawOperand size nets env c.A) (rawOperand size nets env c.B)
      (operand size nets env c.A) (operand size nets env c.B) := by
  intro haliased
  have hdirect : ∀ sig : SigSpec, (∀ b ∈ sig, b ∈ c.materialized) →
      rawOperand size nets env sig = operand size nets env sig := by
    intro sig hsig
    rw [rawOperand, operand, Nets.resolve]
    congr 1
    apply List.map_congr_left
    intro b hb
    exact (hc.direct haliased b (hsig b hb)).symm
  constructor
  · apply hdirect
    intro b hb
    unfold Cell.materialized
    split <;> simp [hb]
  · intro hwords
    apply hdirect
    intro b hb
    rw [← hc.type] at hwords
    unfold Cell.materialized
    unfold CellType.wordsOfB at hwords
    split <;> simp_all

variable (size) in
/-- A cell whose statement delivers `g` of what it reads is faithful when `g` is what the library
    says, on all that can be read. -/
theorem faithful_wide (hp : p.Legal) (hwide : p.wide = true)
    (g : Nat → Nat → Nat → Nat → Nat → Option Nat)
    (hg : ∀ nets c env, c.Has nets p → WellFormed size env → ∀ w offset width rest,
      chunks c.Y = .wire w offset width :: rest → isWide w.width = p.wideTarget →
      ∃ s, emitWide size nets c w offset = some s ∧
        Delivers size env s c.Y (g (rawOperand size nets env c.A) (rawOperand size nets env c.B)
          (operand size nets env c.A) (operand size nets env c.B) (operand size nets env c.S))) :
    Faithful size p ↔ ∀ a b a' b' s, a < 2 ^ p.aw → b < 2 ^ p.bw → a' < 2 ^ p.aw →
      b' < 2 ^ p.bw → s < 2 ^ p.sw → p.Reads a b a' b' →
      ∃ v, g a b a' b' s = some v ∧ v % 2 ^ p.yw = p.value a' b' s := by
  constructor
  · intro hfaithful a b a' b' s ha hb ha' hb' hs hreads
    have hc := cell_has_nets hp
    have henv := wellFormed_envOf size (readValues_lt ha hb ha' hb' hs)
    obtain ⟨w, offset, width, rest, hchunks, hw⟩ := first_chunk hc hp
    obtain ⟨s', hemit, hdelivers⟩ := hg _ _ _ hc henv _ _ _ _ hchunks hw
    obtain ⟨env', hrun, hstored⟩ := hfaithful _ _ hc s'
      ((emitCell_wide hc hwide hchunks hw).trans hemit) _ henv
    obtain ⟨hrawA, hrawB, hA, hB, hS⟩ := cell_reads size ha hb ha' hb' hs hreads
    rw [cell_value_nets hp ha hb ha' hb' hs hreads] at hstored
    rw [hrawA, hrawB, hA, hB, hS] at hdelivers
    cases hvalue : g a b a' b' s with
    | none =>
      rw [hvalue, Delivers, hrun] at hdelivers
      cases hdelivers
    | some v =>
      rw [hvalue] at hdelivers
      obtain ⟨env'', hrun', hstored'⟩ := hdelivers
      rw [hrun] at hrun'
      cases hrun'
      refine ⟨v, rfl, ?_⟩
      apply testBit_ext (Nat.mod_lt _ (Nat.two_pow_pos _)) (value_lt_two_pow hp ha' hb')
      intro k hk
      -- a bit of the output that both stores set
      have hlength := hc.yw
      obtain ⟨u, i, hui, -⟩ := hc.drives p.cell.Y[k] (List.getElem_mem _)
      have hget : p.cell.Y[k]? = some (.wire u i) := by
        rw [List.getElem?_eq_getElem (by omega), hui]
      rw [Nat.testBit_mod_two_pow, decide_eq_true hk, Bool.true_and, ← hstored'.bit k u i hget,
        hstored.bit k u i hget]
  · intro hvalues nets c hc s hemit env henv
    obtain ⟨w, offset, width, rest, hchunks, hw⟩ := first_chunk hc hp
    obtain ⟨s', hemit', hdelivers⟩ := hg _ _ _ hc henv _ _ _ _ hchunks hw
    rw [emitCell_wide hc hwide hchunks hw, hemit'] at hemit
    cases hemit
    obtain ⟨ha, hb, ha', hb', hs⟩ := cell_in_range hc size env
    obtain ⟨v, hv, hvalue⟩ := hvalues _ _ _ _ _ ha hb ha' hb' hs (cell_reads_direct hc size env)
    rw [hv] at hdelivers
    obtain ⟨env', hrun, hstored⟩ := hdelivers
    have hcell : c.value size nets env = p.value (operand size nets env c.A)
        (operand size nets env c.B) (operand size nets env c.S) := by
      rw [Cell.value, hc.type, hc.aSigned, hc.bSigned, hc.aw, hc.bw, hc.yw]
      rfl
    refine ⟨env', hrun, ?_⟩
    rw [hcell, ← hvalue]
    apply hstored.congr
    intro k hk
    rw [hc.yw] at hk
    rw [Nat.testBit_mod_two_pow, decide_eq_true hk, Bool.true_and]

end Wide

end Yosys.Rtlil
