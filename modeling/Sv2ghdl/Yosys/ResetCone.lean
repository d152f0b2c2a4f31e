import Sv2ghdl.Lists.Lookup
import Sv2ghdl.Yosys.Clocks
import Sv2ghdl.Yosys.ScalarFaithful

/-!
# Inlined reset conditions

`bit_expr` and `inline_arst` of `yosys/gen_statemachine.cpp`: the condition of an asynchronous reset
that cells compute, written out over the aliases of the registers and the inputs.
-/

open Clang Yosys.WideRt

namespace Yosys.Rtlil

/-! ## Texts -/

/-- What is printed for a bit: nothing, an expression, or a text that is none because an alias in it
    is cut or an operand of it is empty. -/
inductive Text where
  | empty
  | broken
  | expr (t : IntType) (e : CExpr)

/-- The operators `&`, `|` and `^`. -/
inductive BitOp where
  | and | or | xor
  deriving DecidableEq, Repr

def BitOp.binOp : BitOp → BinOp
  | .and => .and
  | .or => .or
  | .xor => .xor

def BitOp.apply : BitOp → Bool → Bool → Bool
  | .and, a, b => a && b
  | .or, a, b => a || b
  | .xor, a, b => a ^^ b

namespace Text

/-- `(!s)` -/
def not : Text → Text
  | .expr _ e => .expr int (.bin .eq e (intLit 0))
  | _ => .broken

/-- `(s op t)` -/
def bin (op : BitOp) : Text → Text → Text
  | .expr s e, .expr t f => .expr (common s t) (.bin op.binOp e f)
  | _, _ => .broken

/-- `(s && t)` -/
def land : Text → Text → Text
  | .expr _ e, .expr _ f => .expr int (.land e f)
  | _, _ => .broken

/-- `(s || t)` -/
def lor : Text → Text → Text
  | .expr _ e, .expr _ f => .expr int (.lor e f)
  | _, _ => .broken

/-- `(c ? t : s)` -/
def mux : Text → Text → Text → Text
  | .expr _ c, .expr s e, .expr t f => .expr (common t s) (.cond (common t s) c f e)
  | _, _, _ => .broken

/-- `acc.empty() ? sa : "(" + acc + op + sa + ")"` -/
def gather (op : BitOp) (acc s : Text) : Text :=
  match acc with
  | .empty => s
  | _ => bin op acc s

/-- A condition in C. -/
def truth (size : LimbSize) (env : CEnv) : Text → Option Bool
  | .expr _ e => (e.eval (Func.eval size) env).map fun v => v.pattern ≠ 0
  | _ => none

end Text

def aliasText (wide : Bool) (name : String) (off : Nat) : String :=
  if wide then
    "((" ++ name ++ "[" ++ toString (off / 32) ++ "] >> " ++ toString (off % 32) ++ ") & 1)"
  else "((" ++ name ++ " >> " ++ toString off ++ ") & 1)"

/-- A bit of an alias, as `snprintf` leaves it in a buffer of 160 characters. -/
def aliasExpr (size : LimbSize) (wide : Bool) (name : String) (off : Nat) : Text :=
  if (aliasText wide name off).length < 160 then
    if wide then
      .expr (wordType size) (.bin .and
        (.bin .shr (.item (wordType size) (.loc name) (off / 32)) (intLit ↑(off % 32))) (intLit 1))
    else .expr uint64 (.bin .and (.bin .shr (.var (.loc name)) (intLit off)) (intLit 1))
  else .broken

/-! ## Gates -/

/-- A cell of `sorted`: one of the library, a `$pos` or `$buf`, or any other with its outputs. -/
inductive Gate where
  | cell (c : Cell)
  | copy (A Y : SigSpec) (aSigned : Bool)
  | other (outputs : SigSpec)

/-- The operands that a bit is expanded to. -/
inductive Form where
  | copy (x : SigBit)
  | not (x : SigBit)
  | bin (op : BitOp) (x y : SigBit)
  | land (x y : SigBit)
  | lor (x y : SigBit)
  | mux (s x y : SigBit)
  | reduce (op : BitOp) (xs : SigSpec)
  deriving DecidableEq, Repr

namespace Form

/-- The operands in the order in which they are rendered. -/
def operands : Form → SigSpec
  | .copy x | .not x => [x]
  | .bin _ x y | .land x y | .lor x y => [x, y]
  | .mux s x y => [s, x, y]
  | .reduce _ xs => xs

/-- The value that the text has for those of its operands. -/
def value (σ : Valuation) : Form → Bool
  | .copy x => x.value σ
  | .not x => !x.value σ
  | .bin op x y => op.apply (x.value σ) (y.value σ)
  | .land x y => x.value σ && y.value σ
  | .lor x y => x.value σ || y.value σ
  | .mux s x y => if s.value σ then y.value σ else x.value σ
  | .reduce _ [] => false
  | .reduce op (x :: xs) => (xs.map (SigBit.value σ)).foldl op.apply (x.value σ)

def text : Form → List Text → Text
  | .copy _, [s] => s
  | .not _, [s] => s.not
  | .bin op _ _, [s, t] => s.bin op t
  | .land _ _, [s, t] => s.land t
  | .lor _ _, [s, t] => s.lor t
  | .mux _ _ _, [c, s, t] => c.mux s t
  | .reduce op _, ts => ts.foldl (Text.gather op) .empty
  | _, _ => .broken

end Form

namespace Gate

def inputs : Gate → SigSpec
  | .cell c => c.A ++ c.B ++ c.S
  | .copy A _ _ => A
  | .other _ => []

def outputs : Gate → SigSpec
  | .cell c => c.Y
  | .copy _ Y _ => Y
  | .other outputs => outputs

/-- The value of the outputs, for a cell that the expansion knows. -/
def value (σ : Valuation) : Gate → Option Nat
  | .cell c => some (c.type.value c.aSigned c.bSigned c.A.length c.B.length c.Y.length
      (Rtlil.value σ c.A) (Rtlil.value σ c.B) (Rtlil.value σ c.S))
  | .copy A Y aSigned => some (extend aSigned A.length Y.length (Rtlil.value σ A))
  | .other _ => none

variable (sigmap : SigBit → SigBit)

/-- The first place of the outputs on the net. -/
def lane (g : Gate) (b : SigBit) : Option Nat := (g.outputs.map sigmap).idxOf? b

/-- The bit is that of the lowest place. -/
def IsLow (g : Gate) (b : SigBit) : Prop := (g.outputs.map sigmap)[0]? = some b

/-- The bit of an operand at that place. -/
def operand (g : Gate) (b : SigBit) (sig : SigSpec) : Option SigBit :=
  (g.lane sigmap b).bind fun lane => (sig.map sigmap)[lane]?

def operands (g : Gate) (b : SigBit) (build : SigBit → SigBit → Form) (A B : SigSpec) : Option Form :=
  (g.operand sigmap b A).bind fun x => (g.operand sigmap b B).map (build x)

def reduce (op : BitOp) (A : SigSpec) : Option Form :=
  if A.length > 8 then none else some (.reduce op (A.map sigmap))

def form (g : Gate) (b : SigBit) : Option Form :=
  match g with
  | .cell c =>
    match c.type with
    | .and => g.operands sigmap b (.bin .and) c.A c.B
    | .or => g.operands sigmap b (.bin .or) c.A c.B
    | .xor => g.operands sigmap b (.bin .xor) c.A c.B
    | .not => (g.operand sigmap b c.A).map .not
    | .logicNot => if c.A.length ≠ 1 then none else (g.operand sigmap b c.A).map .not
    | .reduceOr | .reduceBool => reduce sigmap .or c.A
    | .reduceAnd => reduce sigmap .and c.A
    | .logicAnd =>
      match c.A, c.B with
      | [x], [y] => some (.land (sigmap x) (sigmap y))
      | _, _ => none
    | .logicOr =>
      match c.A, c.B with
      | [x], [y] => some (.lor (sigmap x) (sigmap y))
      | _, _ => none
    | .mux =>
      match c.S with
      | [s] => g.operands sigmap b (.mux (sigmap s)) c.A c.B
      | _ => none
    | _ => none
  | .copy A _ _ => (g.operand sigmap b A).map .copy
  | .other _ => none

/-- A reduction has an operand, and it and the logical operators are read at the lowest place of the
    outputs. -/
def Proper (g : Gate) (b : SigBit) : Form → Prop
  | .reduce _ xs => xs ≠ [] ∧ g.IsLow sigmap b
  | .land _ _ | .lor _ _ => g.IsLow sigmap b
  | _ => True

end Gate

/-! ## Expansion -/

/-- The combinational cells of a module, in the order of emission. -/
structure CombLogic (N : Sequential) where
  sorted : List Gate
  sigmap_valid : ∀ b, b.Valid → (N.nets.sigmap b).Valid
  inputs_valid : ∀ g ∈ sorted, ∀ b ∈ g.inputs, b.Valid
  arst_valid : ∀ c ∈ N.flops, ∀ cond ∈ c.arst, ∀ b ∈ cond.1, b.Valid

/-- What a bit is expanded to. -/
inductive Node where
  | const (v : Bool)
  | held (wide : Bool) (name : String) (off : Nat)
  | gate (g : Gate) (f : Form)

namespace Sequential.Accepted

variable {N : Sequential} (A : N.Accepted)

/-- The entries that a register cell makes in `g_regbit`. -/
def regbits (c : Flop) : List (SigBit × String × Nat) :=
  match N.wholeWire c with
  | some _ =>
    match A.regs.find? fun r => r.body = .whole c with
    | some r => c.Q.zipIdx.map fun p => (N.nets.sigmap p.1, r.name, p.2)
    | none => []
  | none => c.Q.filterMap fun
    | .wire w i => some (N.nets.sigmap (.wire w i), cname w.name, i)
    | .const _ => none

def entries : List (SigBit × String × Nat) :=
  (N.flops.flatMap A.regbits).filter fun e => !isConst e.1

/-- `g_regbit` -/
def regbit (b : SigBit) : Option (String × Nat) := A.entries.reverse.lookup b

/-- The register of the name is an array of limbs. -/
def wideReg (name : String) : Bool :=
  (A.regs.find? fun r => r.name = name).any fun r => isWide r.width

variable (L : CombLogic N)

/-- `g_bitdrv` -/
def bitdrv (L : CombLogic N) (b : SigBit) : Option Gate :=
  L.sorted.reverse.find? fun g => b ∈ g.outputs.map N.nets.sigmap

def node (b : SigBit) : Option Node :=
  match b with
  | .const s => some (.const (s = .s1))
  | .wire w i =>
    match A.regbit b with
    | some (name, off) => some (.held (A.wideReg name) name off)
    | none =>
      if w ∈ N.inputs then
        if cname w.name = "_clk" ∨ cname w.name = "_rst" then none
        else some (.held (isWide w.width) (cname w.name) i)
      else do
        let g ← bitdrv L b
        let f ← g.form N.nets.sigmap b
        return .gate g f

/-- The texts of the operands, with what is left of the budget. -/
def texts (render : SigBit → Nat → Option (Text × Nat)) : SigSpec → Nat → Option (List Text × Nat)
  | [], budget => some ([], budget)
  | x :: xs, budget => do
    let (t, budget) ← render x budget
    let (ts, budget) ← texts render xs budget
    return (t :: ts, budget)

/-- `bit_expr`.  Each call takes one from the budget, so the fuel does not end before it when it is
    the larger. -/
def bitExpr : Nat → SigBit → Nat → Option (Text × Nat)
  | 0, _, _ => none
  | fuel + 1, b, budget =>
    if budget = 0 then none
    else
      match A.node L (N.nets.sigmap b) with
      | none => none
      | some (.const v) => some (.expr int (intLit v.toNat), budget - 1)
      | some (.held wide name off) => some (aliasExpr N.memories.size wide name off, budget - 1)
      | some (.gate _ f) => (texts (bitExpr fuel) f.operands (budget - 1)).map fun p => (f.text p.1, p.2)

/-- `inline_arst`, when it replaces the condition. -/
def inlineArst (c : Flop) : Option Text := do
  let (sig, pol) ← c.arst
  match sig with
  | [b] =>
    match N.nets.sigmap b with
    | .const _ => none
    | .wire w i =>
      if w ∈ N.inputs ∨ (A.regbit (.wire w i)).isSome then none
      else do
        let (t, _) ← A.bitExpr L 97 (.wire w i) 96
        return if pol then t else t.not
  | _ => none

/-! ## What an inlined condition reads -/

/-- The declared alias `name` holds the bit. -/
def HoldsBit (size : LimbSize) (env : CEnv) (wide : Bool) (name : String) (off : Nat) (v : Bool) : Prop :=
  if wide then
    off / size.bits < (env.array (.loc name)).length ∧ (∀ x ∈ env.array (.loc name), x < 2 ^ size.bits) ∧
      bitAt size.bits (env.array (.loc name)) off = v
  else
    off < 64 ∧ (env.scalar (.loc name)).type = uint64 ∧ (env.scalar (.loc name)).pattern < 2 ^ 64 ∧
      (env.scalar (.loc name)).pattern.testBit off = v

/-- The aliases hold the state and the inputs that the nets have. -/
structure Aliased (env : CEnv) (σ : Valuation) : Prop where
  register : ∀ e ∈ A.entries, HoldsBit N.memories.size env (A.wideReg e.2.1) e.2.1 e.2.2 (e.1.value σ)
  input : ∀ w ∈ N.inputs, cname w.name ≠ "_clk" → cname w.name ≠ "_rst" → ∀ i < w.width,
    HoldsBit N.memories.size env (isWide w.width) (cname w.name) i (σ w i)

/-- The nets have the values that their cells give them. -/
structure Settled (L : CombLogic N) (σ : Valuation) : Prop where
  joined : ∀ b, (N.nets.sigmap b).value σ = b.value σ
  gate : ∀ g ∈ L.sorted, ∀ v, g.value σ = some v → value σ g.outputs = v

/-- The inlined condition of a cell is its reset net, inverted for a low-active one, whatever the
    state and the inputs are. -/
def ResetInlined (c : Flop) : Prop :=
  ∀ sig pol t, c.arst = some (sig, pol) → A.inlineArst L c = some t → ∀ env σ, A.Aliased env σ →
    Settled L σ → t.truth N.memories.size env = some ((value σ sig != 0) == pol)

/-- The bits that the expansion of a bit comes to. -/
inductive Reaches : SigBit → SigBit → Prop
  | here (b : SigBit) : Reaches b (N.nets.sigmap b)
  | operand {b x b' : SigBit} {g : Gate} {f : Form}
      (hnode : A.node L (N.nets.sigmap b) = some (.gate g f)) (hx : x ∈ f.operands)
      (h : Reaches x b') : Reaches b b'

/-- A bit beyond the first 32 of an array of 64-bit limbs is not read, no alias is cut, and the cell is
    read where its text is meant. -/
def Proper (b : SigBit) : Prop :=
  match A.node L b with
  | none | some (.const _) => True
  | some (.held wide name off) =>
    (wide = true → N.memories.size = .w64 → off < 32) ∧ (aliasText wide name off).length < 160
  | some (.gate g f) => g.Proper N.nets.sigmap b f

/-- The reset net of a cell, expanded, meets no exception. -/
def ResetProper (c : Flop) : Prop :=
  ∀ b pol, c.arst = some ([b], pol) → ∀ b', A.Reaches L (N.nets.sigmap b) b' → A.Proper L b'

end Sequential.Accepted

/-! ## The value of a text -/

namespace Text

variable {size : LimbSize} {env : CEnv} {s t c : Text} {v w : Bool}

/-- An expression whose value is the bit. -/
def Has (size : LimbSize) (env : CEnv) (s : Text) (v : Bool) : Prop :=
  ∃ ty e, s = .expr ty e ∧ 2 ≤ ty.bits ∧ e.Has (Func.eval size) env ty v.toNat

theorem toNat_lt {n : Nat} (hn : 1 ≤ n) (v : Bool) : v.toNat < 2 ^ n :=
  (Bool.toNat_lt v).trans_le (Nat.pow_le_pow_right Nat.two_pos hn)

theorem convert_bit {ty ty' : IntType} (h : 2 ≤ ty.bits) (h' : 2 ≤ ty'.bits) (v : Bool) :
    (⟨ty, v.toNat⟩ : Value).convert ty' = ⟨ty', v.toNat⟩ := by
  rw [convert_small (toNat_lt (by omega) v), Nat.mod_eq_of_lt (toNat_lt (by omega) v)]

theorem common_bits {ty ty' : IntType} (h : 2 ≤ ty.bits) (h' : 2 ≤ ty'.bits) :
    2 ≤ (common ty ty').bits := by
  unfold common
  split_ifs
  · exact h
  · exact h'
  · exact h

theorem Has.bin (op : BitOp) (hs : s.Has size env v) (ht : t.Has size env w) :
    (s.bin op t).Has size env (op.apply v w) := by
  obtain ⟨ty, e, rfl, hty, he⟩ := hs
  obtain ⟨ty', f, rfl, hty', hf⟩ := ht
  have hcommon := common_bits hty hty'
  refine ⟨_, _, rfl, hcommon, ?_⟩
  rw [Expr.Has, Expr.eval, he, hf, Option.bind_some, Option.bind_some]
  cases op <;> simp only [BitOp.binOp, BinOp.eval, convert_bit hty hcommon, convert_bit hty' hcommon]
  all_goals cases v <;> cases w <;> rfl

theorem Has.not (hs : s.Has size env v) : s.not.Has size env (!v) := by
  obtain ⟨ty, e, rfl, hty, he⟩ := hs
  have hcommon : 2 ≤ (common ty int).bits := common_bits hty (by decide)
  refine ⟨_, _, rfl, by decide, ?_⟩
  have hint : ∀ u : Bool, (⟨common ty int, u.toNat⟩ : Value).toInt = u.toNat := fun u =>
    toInt_signed (toNat_lt (Nat.le_sub_one_of_lt hcommon) u)
  have hzero : ((⟨int, 0⟩ : Value).convert (common ty int)).toInt = 0 := by
    rw [show (0 : Nat) = false.toNat from rfl, convert_bit (by decide) hcommon, hint]
    rfl
  rw [Expr.Has, Expr.eval, he, intLit, Expr.eval, Option.bind_some, Option.bind_some]
  simp only [BinOp.eval, convert_bit hty hcommon, hzero, hint]
  cases v <;> rfl

theorem Has.land (hs : s.Has size env v) (ht : t.Has size env w) :
    (s.land t).Has size env (v && w) := by
  obtain ⟨ty, e, rfl, -, he⟩ := hs
  obtain ⟨ty', f, rfl, -, hf⟩ := ht
  refine ⟨_, _, rfl, by decide, ?_⟩
  rw [Expr.Has, Expr.eval, he, hf, Option.bind_some, Option.map_some]
  cases v <;> cases w <;> rfl

theorem Has.lor (hs : s.Has size env v) (ht : t.Has size env w) :
    (s.lor t).Has size env (v || w) := by
  obtain ⟨ty, e, rfl, -, he⟩ := hs
  obtain ⟨ty', f, rfl, -, hf⟩ := ht
  refine ⟨_, _, rfl, by decide, ?_⟩
  rw [Expr.Has, Expr.eval, he, hf, Option.bind_some, Option.map_some]
  cases v <;> cases w <;> rfl

theorem Has.mux {u : Bool} (hc : c.Has size env u) (hs : s.Has size env v) (ht : t.Has size env w) :
    (c.mux s t).Has size env (if u then w else v) := by
  obtain ⟨_, d, rfl, -, hd⟩ := hc
  obtain ⟨ty, e, rfl, hty, he⟩ := hs
  obtain ⟨ty', f, rfl, hty', hf⟩ := ht
  have hcommon := common_bits hty' hty
  refine ⟨_, _, rfl, hcommon, ?_⟩
  rw [Expr.Has, Expr.eval, hd, he, hf, Option.bind_some]
  cases u with
  | true =>
    show ((some ⟨ty', w.toNat⟩ : Option Value).map fun v => v.convert (common ty' ty)) = _
    rw [Option.map_some, convert_bit hty' hcommon, if_pos rfl]
  | false =>
    show ((some ⟨ty, v.toNat⟩ : Option Value).map fun v => v.convert (common ty' ty)) = _
    rw [Option.map_some, convert_bit hty hcommon, if_neg Bool.false_ne_true]

theorem Has.truth (hs : s.Has size env v) : s.truth size env = some v := by
  obtain ⟨ty, e, rfl, -, he⟩ := hs
  rw [Text.truth, he, Option.map_some]
  cases v <;> rfl

/-- `((e >> k) & 1)` -/
theorem has_shifted {bits m k : Nat} {e : CExpr} (hbits : 32 ≤ bits) (hk31 : k < 2 ^ 31) (hk : k < bits)
    (he : e.Has (Func.eval size) env (unsigned bits) m) (hm : m < 2 ^ bits) :
    (Text.expr (unsigned bits) (.bin .and (.bin .shr e (intLit k)) (intLit 1))).Has size env (m.testBit k) := by
  have hshift := he.shr hm hk hk31
  have hlt : m >>> k < 2 ^ bits := (Nat.shiftRight_le m k).trans_lt hm
  have hcommon : common (unsigned bits) int = unsigned bits := by
    unfold common
    split_ifs with heq hlt'
    · rfl
    · exact absurd hlt' (Nat.not_lt.mpr hbits)
    · rfl
  have hone : (⟨int, 1⟩ : Value).convert (unsigned bits) = ⟨unsigned bits, 1⟩ :=
    @convert_bit int (unsigned bits) (by decide) (show 2 ≤ bits by omega) true
  refine ⟨_, _, rfl, show 2 ≤ bits by omega, ?_⟩
  rw [Expr.Has, Expr.eval, intLit, hshift, intLit, Expr.eval, Option.bind_some, Option.bind_some]
  simp only [BinOp.eval, hcommon, convert_self hlt, hone]
  rw [Nat.and_one_is_mod, Nat.testBit_eq_decide_div_mod_eq, Nat.shiftRight_eq_div_pow]
  rcases Nat.mod_two_eq_zero_or_one (m / 2 ^ k) with h | h <;> rw [h] <;> rfl

/-- A reduction of bits, at least one. -/
theorem Has.reduce (op : BitOp) {ss : List Text} {vs : List Bool} (hs : s.Has size env v)
    (h : List.Forall₂ (Has size env) ss vs) :
    (ss.foldl (gather op) s).Has size env (vs.foldl op.apply v) := by
  induction h generalizing s v with
  | nil => exact hs
  | cons ht _ ih =>
    apply ih
    obtain ⟨ty, e, rfl, hty, he⟩ := hs
    exact Has.bin op ⟨ty, e, rfl, hty, he⟩ ht

end Text

/-- The text of a form, from the texts of its operands. -/
theorem Form.text_has {size : LimbSize} {env : CEnv} {σ : Valuation} (f : Form) {ts : List Text}
    (hne : f.operands ≠ []) (h : List.Forall₂ (Text.Has size env) ts (f.operands.map (SigBit.value σ))) :
    (f.text ts).Has size env (f.value σ) := by
  cases f with
  | copy x =>
    obtain _ | ⟨hx, ⟨⟩⟩ := h
    exact hx
  | not x =>
    obtain _ | ⟨hx, ⟨⟩⟩ := h
    exact hx.not
  | bin op x y =>
    obtain _ | ⟨hx, _ | ⟨hy, ⟨⟩⟩⟩ := h
    exact hx.bin op hy
  | land x y =>
    obtain _ | ⟨hx, _ | ⟨hy, ⟨⟩⟩⟩ := h
    exact hx.land hy
  | lor x y =>
    obtain _ | ⟨hx, _ | ⟨hy, ⟨⟩⟩⟩ := h
    exact hx.lor hy
  | mux s x y =>
    obtain _ | ⟨hs, _ | ⟨hx, _ | ⟨hy, ⟨⟩⟩⟩⟩ := h
    exact hs.mux hx hy
  | reduce op xs =>
    cases xs with
    | nil => exact absurd rfl hne
    | cons x xs =>
      obtain _ | ⟨hx, hrest⟩ := h
      exact hx.reduce op hrest

/-! ## The bits of a cell -/

section Bits

variable {σ : Valuation} {sig : SigSpec} {v w n i : Nat}

theorem testBit_extend (isSigned : Bool) (hv : v < 2 ^ w) (hw : i < w) (hn : i < n) :
    (extend isSigned w n v).testBit i = v.testBit i := by
  by_cases h : Unextended isSigned w n
  · rw [extend_of_unextended h hv, Nat.testBit_mod_two_pow, decide_eq_true hn, Bool.true_and]
  · simp only [Unextended, not_or, Bool.not_eq_false, not_le] at h
    have hdvd : (2 ^ w : Int) ∣ 2 ^ n := pow_dvd_pow 2 h.2.2.le
    have hlow : extend isSigned w n v % 2 ^ w = v := by
      have hnonneg := Int.emod_nonneg (signedOf w v) (show (2 ^ n : Int) ≠ 0 by positivity)
      rw [extend, if_pos h.1]
      apply Int.ofNat_inj.mp
      rw [Int.natCast_emod, Int.toNat_of_nonneg hnonneg, natCast_two_pow, Int.emod_emod_of_dvd _ hdvd,
        signedOf_emod hv]
    calc (extend isSigned w n v).testBit i
        = (extend isSigned w n v % 2 ^ w).testBit i := by
          rw [Nat.testBit_mod_two_pow, decide_eq_true hw, Bool.true_and]
      _ = v.testBit i := by rw [hlow]

theorem testBit_of_getElem? {x : SigBit} (h : sig[i]? = some x) :
    (value σ sig).testBit i = x.value σ := by
  rw [testBit_value, h, Option.map_some, Option.getD_some]

/-- The output of a test, at its lowest place. -/
theorem testBit_test (p : Bool) (hn : 0 < n) : (p.toNat % 2 ^ n).testBit 0 = p := by
  rw [Nat.mod_eq_of_lt ((Bool.toNat_lt p).trans_le (Nat.pow_le_pow_right Nat.two_pos hn))]
  cases p <;> rfl

theorem value_cons (σ : Valuation) (x : SigBit) (sig : SigSpec) :
    value σ (x :: sig) = (x.value σ).toNat + 2 * value σ sig := rfl

theorem value_ne_zero (σ : Valuation) (sig : SigSpec) :
    (value σ sig != 0) = (sig.map (SigBit.value σ)).any id := by
  induction sig with
  | nil => rfl
  | cons x sig ih =>
    rw [value_cons, List.map_cons, List.any_cons, ← ih]
    cases x.value σ with
    | false =>
      apply Bool.eq_iff_iff.mpr
      rw [id, Bool.false_or, bne_iff_ne, bne_iff_ne]
      show 0 + 2 * value σ sig ≠ 0 ↔ _
      omega
    | true =>
      apply bne_iff_ne.mpr
      show 1 + 2 * value σ sig ≠ 0
      omega

theorem value_all_ones (σ : Valuation) (sig : SigSpec) :
    (value σ sig == 2 ^ sig.length - 1) = (sig.map (SigBit.value σ)).all id := by
  induction sig with
  | nil => rfl
  | cons x sig ih =>
    have hpos := Nat.two_pow_pos sig.length
    rw [value_cons, List.map_cons, List.all_cons, ← ih, List.length_cons, pow_succ]
    cases x.value σ with
    | false =>
      rw [id, Bool.false_and]
      apply beq_eq_false_iff_ne.mpr
      show 0 + 2 * value σ sig ≠ _
      omega
    | true =>
      rw [id, Bool.true_and]
      apply Bool.eq_iff_iff.mpr
      rw [beq_iff_eq, beq_iff_eq]
      show 1 + 2 * value σ sig = _ ↔ _
      omega

theorem foldl_or (v : Bool) (vs : List Bool) : vs.foldl BitOp.or.apply v = (v :: vs).any id := by
  induction vs generalizing v with
  | nil => exact (Bool.or_false v).symm
  | cons w vs ih =>
    rw [List.foldl_cons, ih, List.any_cons, List.any_cons, List.any_cons]
    exact Bool.or_assoc v w _

theorem foldl_and (v : Bool) (vs : List Bool) : vs.foldl BitOp.and.apply v = (v :: vs).all id := by
  induction vs generalizing v with
  | nil => exact (Bool.and_true v).symm
  | cons w vs ih =>
    rw [List.foldl_cons, ih, List.all_cons, List.all_cons, List.all_cons]
    exact Bool.and_assoc v w _

end Bits

/-! ## Expanded cells -/

namespace Sequential.Accepted

variable {N : Sequential} {A : N.Accepted} {L : CombLogic N} {σ : Valuation} {g : Gate} {b : SigBit}

/-- A net at a place of the outputs has that bit of the value. -/
theorem Settled.output (hσ : Settled L σ) (hg : g ∈ L.sorted) {v i : Nat} (hv : g.value σ = some v)
    (hi : (g.outputs.map N.nets.sigmap)[i]? = some b) :
    i < g.outputs.length ∧ b.value σ = v.testBit i := by
  rw [List.getElem?_map, Option.map_eq_some_iff] at hi
  obtain ⟨y, hy, rfl⟩ := hi
  refine ⟨(List.getElem?_eq_some_iff.mp hy).1, ?_⟩
  rw [hσ.joined, ← hσ.gate g hg v hv, testBit_of_getElem? hy]

theorem Settled.input (hσ : Settled L σ) {sig : SigSpec} {x : SigBit} {i : Nat}
    (hi : (sig.map N.nets.sigmap)[i]? = some x) :
    i < sig.length ∧ x.value σ = (value σ sig).testBit i := by
  rw [List.getElem?_map, Option.map_eq_some_iff] at hi
  obtain ⟨a, ha, rfl⟩ := hi
  exact ⟨(List.getElem?_eq_some_iff.mp ha).1, by rw [hσ.joined, testBit_of_getElem? ha]⟩

theorem lane_spec {i : Nat} (h : g.lane N.nets.sigmap b = some i) :
    (g.outputs.map N.nets.sigmap)[i]? = some b := by
  obtain ⟨hi, hb, -⟩ := List.idxOf?_eq_some_iff.mp h
  rw [List.getElem?_eq_getElem hi, hb]

theorem operand_spec {sig : SigSpec} {x : SigBit} (h : g.operand N.nets.sigmap b sig = some x) :
    ∃ i, g.lane N.nets.sigmap b = some i ∧ (sig.map N.nets.sigmap)[i]? = some x :=
  Option.bind_eq_some_iff.mp h

theorem operands_spec {build : SigBit → SigBit → Form} {sig sig' : SigSpec} {f : Form}
    (h : g.operands N.nets.sigmap b build sig sig' = some f) :
    ∃ i x y, g.lane N.nets.sigmap b = some i ∧ (sig.map N.nets.sigmap)[i]? = some x ∧
      (sig'.map N.nets.sigmap)[i]? = some y ∧ f = build x y := by
  obtain ⟨x, hx, h⟩ := Option.bind_eq_some_iff.mp h
  obtain ⟨y, hy, rfl⟩ := Option.map_eq_some_iff.mp h
  obtain ⟨i, hi, hx⟩ := operand_spec hx
  obtain ⟨j, hj, hy⟩ := operand_spec hy
  rw [hi, Option.some_inj] at hj
  subst hj
  exact ⟨i, x, y, hi, hx, hy, rfl⟩

/-- A reduction of at least one bit. -/
theorem Settled.reduce (hσ : Settled L σ) (op : BitOp) {sig : SigSpec} (hne : sig.map N.nets.sigmap ≠ []) :
    ∃ v vs, sig.map (SigBit.value σ) = v :: vs ∧
      (Form.reduce op (sig.map N.nets.sigmap)).value σ = vs.foldl op.apply v := by
  cases sig with
  | nil => exact absurd rfl hne
  | cons x sig =>
    refine ⟨_, _, List.map_cons, ?_⟩
    rw [List.map_cons, Form.value, hσ.joined, List.map_map]
    congr 1
    exact List.map_congr_left fun a _ => hσ.joined a

/-- A bitwise operator, at a place that both operands have. -/
theorem Settled.bitwise (hσ : Settled L σ) (hg : g ∈ L.sorted) (op : BitOp) {sig sig' : SigSpec} {f : Form}
    (s : Bool) {v : Nat} (hv : g.value σ = some v)
    (hop : ∀ i, v.testBit i = op.apply ((extend s sig.length g.outputs.length (value σ sig)).testBit i)
      ((extend s sig'.length g.outputs.length (value σ sig')).testBit i))
    (h : g.operands N.nets.sigmap b (.bin op) sig sig' = some f) : f.value σ = b.value σ := by
  obtain ⟨i, x, y, hi, hx, hy, rfl⟩ := operands_spec h
  obtain ⟨hlt, hb⟩ := hσ.output hg hv (lane_spec hi)
  obtain ⟨hltx, hx⟩ := hσ.input hx
  obtain ⟨hlty, hy⟩ := hσ.input hy
  rw [hb, hop, testBit_extend s (value_lt σ sig) hltx hlt, testBit_extend s (value_lt σ sig') hlty hlt, ← hx,
    ← hy]
  rfl

theorem Settled.form (hσ : Settled L σ) (hg : g ∈ L.sorted) {f : Form}
    (hform : g.form N.nets.sigmap b = some f) (hproper : g.Proper N.nets.sigmap b f) :
    f.value σ = b.value σ := by
  cases g with
  | other outputs => cases hform
  | copy sig Y aSigned =>
    obtain ⟨x, hx, rfl⟩ := Option.map_eq_some_iff.mp hform
    obtain ⟨i, hi, hx⟩ := operand_spec hx
    obtain ⟨hlt, hb⟩ := hσ.output hg rfl (lane_spec hi)
    obtain ⟨hltx, hx⟩ := hσ.input hx
    rw [Gate.outputs] at hlt
    rw [hb, testBit_extend aSigned (value_lt σ sig) hltx hlt, ← hx]
    rfl
  | cell c =>
    have hv : (Gate.cell c).value σ = some _ := rfl
    have hlow : ∀ {p : Bool}, c.type.value c.aSigned c.bSigned c.A.length c.B.length c.Y.length (value σ c.A)
        (value σ c.B) (value σ c.S) = p.toNat % 2 ^ c.Y.length →
        (Gate.cell c).IsLow N.nets.sigmap b → b.value σ = p := by
      intro p hp hlow
      obtain ⟨hlt, hb⟩ := hσ.output hg hv hlow
      rw [Gate.outputs] at hlt
      rw [hb, hp, testBit_test p hlt]
    rw [Gate.form] at hform
    cases htype : c.type <;> rw [htype] at hform hlow <;> simp only at hform
    case and =>
      refine hσ.bitwise hg .and (c.aSigned && c.bSigned) hv (fun i => ?_) hform
      rw [htype]
      exact Nat.testBit_and _ _ i
    case or =>
      refine hσ.bitwise hg .or (c.aSigned && c.bSigned) hv (fun i => ?_) hform
      rw [htype]
      exact Nat.testBit_or _ _ i
    case xor =>
      refine hσ.bitwise hg .xor (c.aSigned && c.bSigned) hv (fun i => ?_) hform
      rw [htype]
      exact Nat.testBit_xor _ _ i
    case not =>
      obtain ⟨x, hx, rfl⟩ := Option.map_eq_some_iff.mp hform
      obtain ⟨i, hi, hx⟩ := operand_spec hx
      obtain ⟨hlt, hb⟩ := hσ.output hg hv (lane_spec hi)
      obtain ⟨hltx, hx⟩ := hσ.input hx
      rw [Gate.outputs] at hlt
      rw [htype] at hb
      have hbits : b.value σ =
          (2 ^ c.Y.length - (extend c.aSigned c.A.length c.Y.length (value σ c.A) + 1)).testBit i := by
        rw [hb, Nat.add_comm, ← Nat.sub_sub]
        rfl
      rw [hbits, Nat.testBit_two_pow_sub_succ (extend_lt _ _ _ _), decide_eq_true hlt, Bool.true_and,
        testBit_extend c.aSigned (value_lt σ c.A) hltx hlt, ← hx]
      rfl
    case logicNot =>
      split_ifs at hform with hlen
      obtain ⟨x, hx, rfl⟩ := Option.map_eq_some_iff.mp hform
      obtain ⟨i, hi, hx⟩ := operand_spec hx
      obtain ⟨a, ha⟩ := List.length_eq_one_iff.mp (not_not.mp hlen)
      rw [ha] at hx
      obtain ⟨hlti, hx⟩ := hσ.input hx
      obtain rfl : i = 0 := by simpa using hlti
      have hp : (value σ c.A == 0) = !x.value σ := by
        rw [hx, ha, testBit_of_getElem? rfl, ← Bool.not_not (value σ [a] == 0)]
        congr 1
        rw [← bne, value_ne_zero]
        exact Bool.or_false _
      rw [Form.value, ← hp]
      exact (hlow rfl (lane_spec hi)).symm
    case reduceOr | reduceBool =>
      unfold Gate.reduce at hform
      split_ifs at hform
      cases hform
      obtain ⟨v, vs, hvs, hval⟩ := hσ.reduce .or hproper.1
      rw [hval, foldl_or, ← hvs, ← value_ne_zero]
      exact (hlow rfl hproper.2).symm
    case reduceAnd =>
      unfold Gate.reduce at hform
      split_ifs at hform
      cases hform
      obtain ⟨v, vs, hvs, hval⟩ := hσ.reduce .and hproper.1
      rw [hval, foldl_and, ← hvs, ← value_all_ones]
      exact (hlow rfl hproper.2).symm
    case logicAnd =>
      split at hform
      · next x y hx hy =>
        cases hform
        have hb : b.value σ = (value σ c.A != 0 && value σ c.B != 0) := hlow rfl hproper
        rw [hb, Form.value, hσ.joined, hσ.joined, hx, hy, value_ne_zero, value_ne_zero]
        exact congrArg₂ and (Bool.or_false _).symm (Bool.or_false _).symm
      · cases hform
    case logicOr =>
      split at hform
      · next x y hx hy =>
        cases hform
        have hb : b.value σ = (value σ c.A != 0 || value σ c.B != 0) := hlow rfl hproper
        rw [hb, Form.value, hσ.joined, hσ.joined, hx, hy, value_ne_zero, value_ne_zero]
        exact congrArg₂ or (Bool.or_false _).symm (Bool.or_false _).symm
      · cases hform
    case mux =>
      split at hform
      · next sel hsel =>
        obtain ⟨i, x, y, hi, hx, hy, rfl⟩ := operands_spec hform
        obtain ⟨-, hb⟩ := hσ.output hg hv (lane_spec hi)
        obtain ⟨-, hx⟩ := hσ.input hx
        obtain ⟨-, hy⟩ := hσ.input hy
        rw [htype, hsel] at hb
        have hmux : b.value σ =
            (if (value σ [sel]).testBit 0 then value σ c.B else value σ c.A).testBit i := hb
        have hbit : (value σ [sel]).testBit 0 = sel.value σ := testBit_of_getElem? rfl
        rw [hmux, Form.value, hσ.joined, hx, hy, hbit]
        split_ifs <;> rfl
      · cases hform
    all_goals cases hform

/-! ## The expansion -/

variable {env : CEnv}

theorem aliasExpr_has {size : LimbSize} {wide : Bool} {name : String} {off : Nat} {v : Bool}
    (h : HoldsBit size env wide name off v) (hlow : wide = true → size = .w64 → off < 32)
    (hlen : (aliasText wide name off).length < 160) : (aliasExpr size wide name off).Has size env v := by
  rw [aliasExpr, if_pos hlen]
  cases wide with
  | true =>
    obtain ⟨hlt, hsmall, hbit⟩ : off / size.bits < (env.array (.loc name)).length ∧ _ ∧ _ := h
    -- the word and the place in it are those of the limbs, of either size
    have hplace : off / 32 = off / size.bits ∧ off % 32 = off % size.bits := by
      cases size with
      | w32 => exact ⟨rfl, rfl⟩
      | w64 =>
        have := hlow rfl rfl
        simp only [LimbSize.bits]
        omega
    have hmod := Nat.mod_lt off (size_pos size)
    have hsize : 32 ≤ size.bits ∧ size.bits < 2 ^ 31 := by cases size <;> decide
    rw [if_pos rfl, hplace.1, hplace.2, ← hbit, bitAt]
    exact Text.has_shifted hsize.1 (by omega) hmod (item_eval env (wordType size) _ hlt)
      (getD_lt hsmall _)
  | false =>
    obtain ⟨hlt, htype, hsmall, hbit⟩ : off < 64 ∧ _ ∧ _ ∧ _ := h
    have hvar : (Expr.var (.loc name) : CExpr).Has (Func.eval size) env uint64
        (env.scalar (.loc name)).pattern := by
      rw [Expr.Has, Expr.eval, ← htype]
    rw [if_neg Bool.false_ne_true, ← hbit]
    exact Text.has_shifted (by decide) (by omega) hlt hvar hsmall

/-- The texts of operands that are rendered one by one. -/
theorem texts_has {render : SigBit → Nat → Option (Text × Nat)} {size : LimbSize} {xs : SigSpec}
    (hrender : ∀ x ∈ xs, ∀ budget t rest, render x budget = some (t, rest) → t.Has size env (x.value σ))
    {budget rest : Nat} {ts : List Text} (h : texts render xs budget = some (ts, rest)) :
    List.Forall₂ (Text.Has size env) ts (xs.map (SigBit.value σ)) := by
  induction xs generalizing budget ts with
  | nil =>
    cases h
    exact .nil
  | cons x xs ih =>
    simp only [texts, Option.bind_eq_bind, Option.bind_eq_some_iff, Prod.exists] at h
    obtain ⟨t, left, ht, ts', rest', hts, heq⟩ := h
    cases heq
    exact .cons (hrender x List.mem_cons_self _ _ _ ht)
      (ih (fun y hy => hrender y (List.mem_cons_of_mem x hy)) hts)

theorem bitdrv_mem (h : bitdrv L b = some g) : g ∈ L.sorted :=
  List.mem_reverse.mp (List.mem_of_find?_eq_some h)

/-- A bit of a wire is an alias of a register or of an input, or is expanded. -/
theorem node_wire {w : Wire} {i : Nat} {n : Node} (h : A.node L (.wire w i) = some n) :
    (∃ name off, A.regbit (.wire w i) = some (name, off) ∧ n = .held (A.wideReg name) name off) ∨
    (w ∈ N.inputs ∧ cname w.name ≠ "_clk" ∧ cname w.name ≠ "_rst" ∧
      n = .held (isWide w.width) (cname w.name) i) ∨
    ∃ g f, g ∈ L.sorted ∧ g.form N.nets.sigmap (.wire w i) = some f ∧ n = .gate g f := by
  simp only [node] at h
  split at h
  · next name off hreg =>
    cases h
    exact .inl ⟨name, off, hreg, rfl⟩
  · split_ifs at h with hin hclk
    · cases h
      exact .inr (.inl ⟨hin, (not_or.mp hclk).1, (not_or.mp hclk).2, rfl⟩)
    · simp only [Option.bind_eq_bind, Option.bind_eq_some_iff] at h
      obtain ⟨g, hg, f, hf, heq⟩ := h
      cases heq
      exact .inr (.inr ⟨g, f, bitdrv_mem hg, hf, rfl⟩)

theorem node_gate {f : Form} (h : A.node L b = some (.gate g f)) :
    g ∈ L.sorted ∧ g.form N.nets.sigmap b = some f := by
  cases b with
  | const s => cases h
  | wire w i =>
    obtain ⟨name, off, -, heq⟩ | ⟨-, -, -, heq⟩ | ⟨g', f', hg, hf, heq⟩ := node_wire h
    · cases heq
    · cases heq
    · cases heq
      exact ⟨hg, hf⟩

theorem node_held {wide : Bool} {name : String} {off : Nat} (hb : b.Valid) (hal : A.Aliased env σ)
    (h : A.node L b = some (.held wide name off)) :
    HoldsBit N.memories.size env wide name off (b.value σ) := by
  cases b with
  | const s => cases h
  | wire w i =>
    obtain ⟨name', off', hreg, heq⟩ | ⟨hin, hclk, hrst, heq⟩ | ⟨_, _, _, _, heq⟩ := node_wire h
    · cases heq
      exact hal.register (.wire w i, name, off) (List.mem_reverse.mp (Lookup.mem_of_lookup hreg))
    · cases heq
      exact hal.input w hin hclk hrst off hb
    · cases heq

theorem node_const {v : Bool} (h : A.node L b = some (.const v)) : b.value σ = v := by
  cases b with
  | const s =>
    cases h
    rfl
  | wire w i =>
    obtain ⟨_, _, -, heq⟩ | ⟨-, -, -, heq⟩ | ⟨_, _, _, _, heq⟩ := node_wire h <;> cases heq

/-- The operands of a form are nets of the inputs of its gate. -/
theorem mem_operands {f : Form} (hform : g.form N.nets.sigmap b = some f) {x : SigBit}
    (hx : x ∈ f.operands) : ∃ a ∈ g.inputs, x = N.nets.sigmap a := by
  have hget : ∀ {sig : SigSpec} {i : Nat} {y : SigBit}, (sig.map N.nets.sigmap)[i]? = some y →
      (∀ a ∈ sig, a ∈ g.inputs) → ∃ a ∈ g.inputs, y = N.nets.sigmap a := by
    intro sig i y hy hsub
    obtain ⟨a, ha, rfl⟩ := List.mem_map.mp (List.mem_of_getElem? hy)
    exact ⟨a, hsub a ha, rfl⟩
  cases g with
  | other outputs => cases hform
  | copy sig Y aSigned =>
    obtain ⟨y, hy, rfl⟩ := Option.map_eq_some_iff.mp hform
    obtain ⟨i, -, hy⟩ := operand_spec hy
    obtain rfl := List.mem_singleton.mp hx
    exact hget hy fun a ha => ha
  | cell c =>
    have hA : ∀ a ∈ c.A, a ∈ (Gate.cell c).inputs := fun a ha =>
      List.mem_append_left _ (List.mem_append_left _ ha)
    have hB : ∀ a ∈ c.B, a ∈ (Gate.cell c).inputs := fun a ha =>
      List.mem_append_left _ (List.mem_append_right _ ha)
    have hS : ∀ a ∈ c.S, a ∈ (Gate.cell c).inputs := fun a ha => List.mem_append_right _ ha
    have hpair : ∀ {build : SigBit → SigBit → Form},
        (Gate.cell c).operands N.nets.sigmap b build c.A c.B = some f →
        (∀ y z, f = build y z → x ∈ [y, z] ∨ ∃ a ∈ (Gate.cell c).inputs, x = N.nets.sigmap a) →
        ∃ a ∈ (Gate.cell c).inputs, x = N.nets.sigmap a := by
      intro build h hmem
      obtain ⟨i, y, z, -, hy, hz, heq⟩ := operands_spec h
      rcases hmem y z heq with hmem | hmem
      · rcases List.mem_pair.mp hmem with rfl | rfl
        · exact hget hy hA
        · exact hget hz hB
      · exact hmem
    rw [Gate.form] at hform
    cases htype : c.type <;> rw [htype] at hform <;> simp only at hform
    case and | or | xor =>
      refine hpair hform ?_
      rintro y z rfl
      exact .inl hx
    case not =>
      obtain ⟨y, hy, rfl⟩ := Option.map_eq_some_iff.mp hform
      obtain ⟨i, -, hy⟩ := operand_spec hy
      obtain rfl := List.mem_singleton.mp hx
      exact hget hy hA
    case logicNot =>
      split_ifs at hform
      obtain ⟨y, hy, rfl⟩ := Option.map_eq_some_iff.mp hform
      obtain ⟨i, -, hy⟩ := operand_spec hy
      obtain rfl := List.mem_singleton.mp hx
      exact hget hy hA
    case reduceOr | reduceBool | reduceAnd =>
      unfold Gate.reduce at hform
      split_ifs at hform
      cases hform
      obtain ⟨a, ha, rfl⟩ := List.mem_map.mp hx
      exact ⟨a, hA a ha, rfl⟩
    case logicAnd | logicOr =>
      split at hform
      · next y z hy hz =>
        cases hform
        rcases List.mem_pair.mp hx with rfl | rfl
        · exact ⟨y, hA y (by rw [hy]; exact List.mem_singleton_self y), rfl⟩
        · exact ⟨z, hB z (by rw [hz]; exact List.mem_singleton_self z), rfl⟩
      · cases hform
    case mux =>
      split at hform
      · next s hs =>
        refine hpair hform ?_
        rintro y z rfl
        rcases List.mem_cons.mp hx with rfl | hx
        · exact .inr ⟨s, hS s (by rw [hs]; exact List.mem_singleton_self s), rfl⟩
        · exact .inl hx
      · cases hform
    all_goals cases hform

/-- A rendered bit whose expansion meets no exception is an expression for its net. -/
theorem bitExpr_has (hal : A.Aliased env σ) (hσ : Settled L σ) {fuel budget rest : Nat} {t : Text}
    (hb : (N.nets.sigmap b).Valid) (hproper : ∀ b', A.Reaches L b b' → A.Proper L b')
    (h : A.bitExpr L fuel b budget = some (t, rest)) : t.Has N.memories.size env (b.value σ) := by
  induction fuel generalizing b budget rest t with
  | zero => cases h
  | succ fuel ih =>
    rw [bitExpr] at h
    split_ifs at h
    have hhere := hproper _ (.here b)
    rw [← hσ.joined b]
    rw [Proper] at hhere
    cases hnode : A.node L (N.nets.sigmap b) with
    | none =>
      rw [hnode] at h
      cases h
    | some n =>
      rw [hnode] at h hhere
      cases n with
      | const v =>
        cases h
        rw [node_const hnode]
        exact ⟨int, _, rfl, by decide, by cases v <;> rfl⟩
      | held wide name off =>
        cases h
        exact aliasExpr_has (node_held hb hal hnode) hhere.1 hhere.2
      | gate g f =>
        obtain ⟨⟨ts, left⟩, hts, heq⟩ := Option.map_eq_some_iff.mp h
        cases heq
        obtain ⟨hg, hform⟩ := node_gate hnode
        rw [← hσ.form hg hform hhere]
        refine f.text_has ?_ (texts_has ?_ hts)
        · cases f with
          | reduce op xs => exact hhere.1
          | _ => exact List.cons_ne_nil _ _
        · intro x hx budget t rest hrender
          obtain ⟨a, ha, hxa⟩ := mem_operands hform hx
          refine ih ?_ (fun b' hb' => hproper b' (.operand hnode hx hb')) hrender
          rw [hxa]
          exact L.sigmap_valid _ (L.sigmap_valid a (L.inputs_valid g hg a ha))

/-- An inlined condition whose expansion meets no exception is its reset net. -/
theorem resetInlined (A : N.Accepted) (L : CombLogic N) {c : Flop} (hc : c ∈ N.flops)
    (hproper : A.ResetProper L c) : A.ResetInlined L c := by
  intro sig pol t harst h env σ hal hσ
  rw [inlineArst, harst] at h
  simp only [Option.bind_eq_bind, Option.bind_some] at h
  split at h
  · next b =>
    have hvalid : (N.nets.sigmap b).Valid :=
      L.sigmap_valid b (L.arst_valid c hc _ harst b (List.mem_singleton_self b))
    have hreach := hproper b pol harst
    have hval : (value σ [b] != 0) = (N.nets.sigmap b).value σ := by
      rw [value_ne_zero, hσ.joined]
      exact Bool.or_false _
    rw [hval]
    cases hnet : N.nets.sigmap b with
    | const s =>
      rw [hnet] at h
      cases h
    | wire w i =>
      rw [hnet] at h hvalid hreach
      simp only at h
      by_cases hin : w ∈ N.inputs ∨ (A.regbit (.wire w i)).isSome = true
      · rw [if_pos hin] at h
        cases h
      · rw [if_neg hin] at h
        obtain ⟨⟨t', rest⟩, ht', heq⟩ := Option.bind_eq_some_iff.mp h
        have htext := bitExpr_has hal hσ (L.sigmap_valid _ hvalid) hreach ht'
        obtain rfl : (if pol = true then t' else t'.not) = t := Option.some.inj heq
        cases pol with
        | true =>
          rw [if_pos rfl, htext.truth]
          cases SigBit.value σ (.wire w i) <;> rfl
        | false =>
          rw [if_neg Bool.false_ne_true, htext.not.truth]
          cases SigBit.value σ (.wire w i) <;> rfl
  · cases h

end Sequential.Accepted

/-! ## A reduction of one bit -/

/-- A register that a bit of the two-bit wire `y` resets. -/
def derivedFlop (i : Nat) : Flop where
  name := "$3"
  type := .adff
  D := [.wire ⟨"\\d", 1⟩ 0]
  Q := [.wire ⟨"\\q", 1⟩ 0]
  CLK := some (.wire ⟨"\\clk", 1⟩ 0)
  clkPolarity := true
  EN := none
  enPolarity := none
  ARST := some [.wire ⟨"\\y", 2⟩ i]
  arstPolarity := none
  arstValue := [.s0]

def orReset (i : Nat) : Sequential where
  memories := Sequential.twoEdges.memories
  flops := [derivedFlop i]
  inputs := [⟨"\\clk", 1⟩, ⟨"\\d", 1⟩, ⟨"\\a", 1⟩]

def orResetAccepted (i : Nat) : (orReset i).Accepted where
  regs := [⟨"_q", 1, "_clk", .whole (derivedFlop i)⟩]
  extra := []
  registers_eq := rfl
  extraClocks_eq := rfl
  names_nodup := List.nodup_singleton _

/-- `y = |a`, in two bits -/
def orGate : Gate := .cell ⟨.reduceOr, [.wire ⟨"\\a", 1⟩ 0], [], [],
  [.wire ⟨"\\y", 2⟩ 0, .wire ⟨"\\y", 2⟩ 1], false, false, false⟩

def orLogic (i : Fin 2) : CombLogic (orReset i) where
  sorted := [orGate]
  sigmap_valid := fun _ h => h
  inputs_valid := by simp [orGate, Gate.inputs, SigBit.Valid]
  arst_valid := by simp [orReset, derivedFlop, Flop.arst, SigBit.Valid, i.isLt]

/-- Every alias is 1. -/
def onesEnv : CEnv := ⟨fun _ => ⟨uint64, 1⟩, fun _ => [], fun _ => 0⟩

theorem onesEnv_holds (name : String) : Sequential.Accepted.HoldsBit .w32 onesEnv false name 0 true :=
  ⟨by decide, rfl, Nat.one_lt_two_pow (by decide), Nat.testBit_one_zero⟩

/-- The upper bit of `y` is 0, as it is in every state, and the text printed for it is that of `a`. -/
theorem orReset_upper : ¬ (orResetAccepted 1).ResetInlined (orLogic 1) (derivedFlop 1) := by
  intro h
  have hrun := h _ true _ rfl rfl onesEnv (fun w i => w.name ≠ "\\y" || i = 0) ?_ ?_
  · exact absurd hrun (by decide)
  · constructor
    · have hentries : (orResetAccepted 1).entries = [(.wire ⟨"\\q", 1⟩ 0, "_q", 0)] := by decide
      intro e he
      rw [hentries] at he
      obtain rfl := List.mem_singleton.mp he
      exact onesEnv_holds _
    · intro w hw hc hr i hi
      have hwidth : w.width = 1 ∧ w.name ≠ "\\y" := by
        simp only [orReset, List.mem_cons, List.not_mem_nil, or_false] at hw
        rcases hw with rfl | rfl | rfl <;> decide
      obtain rfl : i = 0 := by omega
      rw [hwidth.1, decide_eq_true hwidth.2]
      exact onesEnv_holds _
  · constructor
    · exact fun _ => rfl
    · decide

theorem orReset_lower : derivedFlop 0 ∈ (orReset 0).flops ∧
    (orResetAccepted 0).ResetInlined (orLogic 0) (derivedFlop 0) := by
  refine ⟨by decide, Sequential.Accepted.resetInlined _ _ (by decide) ?_⟩
  intro b pol harst b' hreach
  cases harst
  cases hreach with
  | here => exact ⟨List.cons_ne_nil _ _, rfl⟩
  | operand hnode hx h =>
    cases hnode
    obtain rfl := List.mem_singleton.mp hx
    cases h with
    | here => exact ⟨nofun, by decide⟩
    | operand hnode hx h => cases hnode

end Yosys.Rtlil
