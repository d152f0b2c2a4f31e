import Sv2ghdl.Clang.Expr

/-!
# RTLIL

The netlists that `yosys/gen_statemachine.cpp` reads: wires, signals as lists of bits, cells, and
the two-state meaning of a cell as its library documents it.
-/

open Clang

namespace Yosys.Rtlil

/-! ## Signals -/

structure Wire where
  name : String
  width : Nat
  deriving DecidableEq, Repr

inductive State where
  | s0 | s1 | sx | sz
  deriving DecidableEq, Repr

inductive SigBit where
  | wire (w : Wire) (offset : Nat)
  | const (s : State)
  deriving DecidableEq, Repr

/-- The bits of a signal, the least significant first. -/
abbrev SigSpec := List SigBit

inductive Chunk where
  | wire (w : Wire) (offset width : Nat)
  | const (data : List State)
  deriving DecidableEq, Repr

def Chunk.width : Chunk → Nat
  | .wire _ _ width => width
  | .const data => data.length

def Chunk.bits : Chunk → SigSpec
  | .wire w offset width => (List.range' offset width).map (.wire w)
  | .const data => data.map .const

/-- One more bit below the chunks of a signal. -/
def pushBit : SigBit → List Chunk → List Chunk
  | .wire w i, .wire v offset width :: cs =>
    if w = v ∧ offset = i + 1 then .wire v i (width + 1) :: cs
    else .wire w i 1 :: .wire v offset width :: cs
  | .wire w i, cs => .wire w i 1 :: cs
  | .const s, .const data :: cs => .const (s :: data) :: cs
  | .const s, cs => .const [s] :: cs

/-- `sig.chunks()`: maximal runs of constants and of consecutive bits of one wire. -/
def chunks (sig : SigSpec) : List Chunk := sig.foldr pushBit []

theorem bits_pushBit (b : SigBit) (cs : List Chunk) :
    (pushBit b cs).flatMap Chunk.bits = b :: cs.flatMap Chunk.bits := by
  fun_cases pushBit b cs with
  | case1 w i v offset width cs h =>
    obtain ⟨rfl, rfl⟩ := h
    simp [Chunk.bits, List.range'_succ]
  | case2 w i v offset width cs h => simp [Chunk.bits]
  | case3 w i cs h => simp [Chunk.bits]
  | case4 s data cs => simp [Chunk.bits]
  | case5 s cs h => simp [Chunk.bits]

theorem bits_chunks (sig : SigSpec) : (chunks sig).flatMap Chunk.bits = sig := by
  induction sig with
  | nil => rfl
  | cons b sig ih => rw [chunks, List.foldr_cons, ← chunks, bits_pushBit, ih]

theorem length_bits (c : Chunk) : c.bits.length = c.width := by
  cases c <;> simp [Chunk.bits, Chunk.width]

/-! ## Values -/

/-- The bits of the wires. -/
abbrev Valuation := Wire → Nat → Bool

def SigBit.value (σ : Valuation) : SigBit → Bool
  | .wire w i => σ w i
  | .const s => s = .s1

/-- The number that bits spell, the first the least significant. -/
def ofBits : List Bool → Nat
  | [] => 0
  | b :: bs => b.toNat + 2 * ofBits bs

def value (σ : Valuation) (sig : SigSpec) : Nat := ofBits (sig.map (SigBit.value σ))

theorem ofBits_lt (bs : List Bool) : ofBits bs < 2 ^ bs.length := by
  induction bs with
  | nil => simp [ofBits]
  | cons b bs ih =>
    have := Bool.toNat_le b
    rw [ofBits, List.length_cons, pow_succ]
    omega

theorem testBit_ofBits (bs : List Bool) (i : Nat) : (ofBits bs).testBit i = bs.getD i false := by
  induction bs generalizing i with
  | nil => simp [ofBits]
  | cons b bs ih =>
    cases i with
    | zero =>
      rw [ofBits, Nat.testBit_zero, List.getD_cons_zero]
      cases b <;> simp [Nat.add_mod]
    | succ i =>
      have hdiv : (b.toNat + 2 * ofBits bs) / 2 = ofBits bs := by
        have := Bool.toNat_le b
        omega
      rw [ofBits, Nat.testBit_succ, hdiv, ih, List.getD_cons_succ]

theorem ofBits_append (bs cs : List Bool) :
    ofBits (bs ++ cs) = ofBits bs + 2 ^ bs.length * ofBits cs := by
  induction bs with
  | nil => simp [ofBits]
  | cons b bs ih =>
    rw [List.cons_append, ofBits, ofBits, ih, List.length_cons, pow_succ]
    ring

theorem value_lt (σ : Valuation) (sig : SigSpec) : value σ sig < 2 ^ sig.length := by
  simpa [value] using ofBits_lt (sig.map (SigBit.value σ))

theorem value_append (σ : Valuation) (s t : SigSpec) :
    value σ (s ++ t) = value σ s + 2 ^ s.length * value σ t := by
  rw [value, List.map_append, ofBits_append, List.length_map, ← value, ← value]

theorem testBit_value (σ : Valuation) (sig : SigSpec) (i : Nat) :
    (value σ sig).testBit i = (sig[i]?.map (SigBit.value σ)).getD false := by
  rw [value, testBit_ofBits, List.getD_eq_getElem?_getD, List.getElem?_map]

/-! ## Cells -/

/-- The combinational cells. -/
inductive CellType where
  | add | sub | mul | div | mod | neg | and | or | xor | xnor | not
  | shl | shr | sshl | sshr | shift | shiftx
  | eq | ne | eqx | nex | lt | le | gt | ge
  | reduceAnd | reduceOr | reduceXor | reduceBool | logicNot | logicAnd | logicOr
  | mux | pmux
  deriving DecidableEq, Repr

structure Cell where
  type : CellType
  A : SigSpec
  B : SigSpec
  S : SigSpec
  Y : SigSpec
  aSigned : Bool
  bSigned : Bool
  /-- The attribute `gsm_icg_clk` of an exported gated clock. -/
  icgClk : Bool
  deriving DecidableEq

/-- An operand of `w` bits, extended or cut to `n` bits. -/
def extend (isSigned : Bool) (w n v : Nat) : Nat :=
  if isSigned then (signedOf w v % 2 ^ n).toNat else v % 2 ^ n

/-- `x` in `n` bits of two's complement. -/
def wrap (n : Nat) (x : Int) : Nat := (x % 2 ^ n).toNat

/-- A shift to the right by `b`, or to the left by `-b`. -/
def shiftBy (x : Nat) (b : Int) : Nat :=
  if 0 ≤ b then x >>> b.toNat else x <<< (-b).toNat

/-- The value of the output of `yw` bits from the widths and the values of the operands. -/
def CellType.value (type : CellType) (aSigned bSigned : Bool) (aw bw yw a b s : Nat) : Nat :=
  let isSigned := aSigned && bSigned
  let ax := extend isSigned aw yw a
  let bx := extend isSigned bw yw b
  let both := max aw bw
  let less (strict : Bool) (w a w' b : Nat) : Bool :=
    if isSigned then
      if strict then signedOf w a < signedOf w' b else signedOf w a ≤ signedOf w' b
    else if strict then a < b else a ≤ b
  let equal := extend isSigned aw both a == extend isSigned bw both b
  let bit (p : Bool) : Nat := p.toNat % 2 ^ yw
  match type with
  | .add => (ax + bx) % 2 ^ yw
  | .sub => wrap yw (ax - bx)
  | .mul => ax * bx % 2 ^ yw
  -- division by zero is undefined in the library; the generated code gives 0
  | .div =>
    if b = 0 then 0
    else if isSigned then wrap yw ((signedOf aw a).tdiv (signedOf bw b)) else a / b % 2 ^ yw
  | .mod =>
    if b = 0 then 0
    else if isSigned then wrap yw ((signedOf aw a).tmod (signedOf bw b)) else a % b % 2 ^ yw
  | .neg => wrap yw (-(extend aSigned aw yw a : Int))
  | .and => ax &&& bx
  | .or => ax ||| bx
  | .xor => ax ^^^ bx
  | .xnor => 2 ^ yw - 1 - (ax ^^^ bx)
  | .not => 2 ^ yw - 1 - extend aSigned aw yw a
  | .shl | .sshl => (extend aSigned aw yw a <<< b) % 2 ^ yw
  | .shr => (extend aSigned aw (max aw yw) a >>> b) % 2 ^ yw
  | .sshr =>
    if aSigned then wrap yw (signedOf aw a / 2 ^ b)
    else (extend aSigned aw (max aw yw) a >>> b) % 2 ^ yw
  | .shift =>
    shiftBy (extend aSigned aw (max aw yw) a) (if bSigned then signedOf bw b else b) % 2 ^ yw
  | .shiftx => shiftBy a (if bSigned then signedOf bw b else b) % 2 ^ yw
  | .eq | .eqx => bit equal
  | .ne | .nex => bit !equal
  | .lt => bit (less true aw a bw b)
  | .le => bit (less false aw a bw b)
  | .gt => bit (less true bw b aw a)
  | .ge => bit (less false bw b aw a)
  | .reduceAnd => bit (a == 2 ^ aw - 1)
  | .reduceOr | .reduceBool => bit (a != 0)
  | .reduceXor => bit (((List.range aw).map a.testBit).foldl Bool.xor false)
  | .logicNot => bit (a == 0)
  | .logicAnd => bit (a != 0 && b != 0)
  | .logicOr => bit (a != 0 || b != 0)
  | .mux => if s.testBit 0 then b else a
  -- the last select bit that is set; the library leaves more than one undefined
  | .pmux =>
    match ((List.range (bw / yw)).filter s.testBit).getLast? with
    | some i => (b >>> (i * yw)) % 2 ^ yw
    | none => a

end Yosys.Rtlil
