import Sv2ghdl.Yosys.Store

/-!
# Wide cells

`emit_materialize`, `emit_wide_cell` and the choice between the two emitters in `emit_cell` of
`yosys/gen_statemachine.cpp`.
-/

open Clang Yosys.WideRt

namespace Yosys.Rtlil

def wa : Var := .loc "_wa"
def wb : Var := .loc "_wb"
def wy : Var := .loc "_wy"

section Materialize

variable (size : LimbSize) (nets : Nets) (d : Var) (n : Nat)

/-- `lt()`: the type of a word -/
def wordType : IntType := unsigned size.bits

def wordLit (x : Nat) : CExpr := .lit ⟨wordType size, x⟩

/-- `d[i] |= e;` -/
def orItem (i : Nat) (e : CExpr) : CStmt :=
  .setItem (wordType size) d i (.bin .or (.item (wordType size) d i) e)

/-- The bits of a chunk, or'ed into `d` from the bit `pos` on: a single statement where both sides
    lie within one word of 32 bits. -/
def materializeChunk (pos : Nat) : Chunk → CStmt
  | .const _ => .skip
  | .wire w offset width =>
    let oneWord : Bool := size = .w32 ∧ pos % 32 + width ≤ 32
    let place (e : CExpr) : CStmt :=
      orItem size d (pos / 32)
        (.bin .shl (.bin .and e (.lit ⟨unsigned 32, 2 ^ width - 1⟩)) (intLit (pos % 32)))
    if isWide w.width then
      if oneWord ∧ offset % 32 + width ≤ 32 then
        place (.bin .shr (.item (unsigned 32) (.wire w) (offset / 32)) (intLit (offset % 32)))
      else .call (.worbits d pos (.wire w) offset width)
    else if oneWord ∧ offset + width ≤ 64 then
      place (.cast (unsigned 32) (.bin .shr (.var (.wire w)) (intLit offset)))
    else .call (.worbitsS d pos (.wire w) offset width)

def materializeChunks (pos : Nat) : List Chunk → CStmt
  | [] => .skip
  | c :: cs => .seq (materializeChunk size d pos c) (materializeChunks (pos + c.width) cs)

/-- `cacc[i]`: the constant bits of the word `i`. -/
def constWord (bits : SigSpec) (i : Nat) : Nat :=
  ofBits (((bits.drop (size.bits * i)).take size.bits).map fun b => decide (b = .const .s1))

def materializeConst (bits : SigSpec) : CStmt :=
  .block ((List.range n).map fun i =>
    if constWord size bits i ≠ 0 then orItem size d i (wordLit size (constWord size bits i))
    else .skip)

/-- Fill `d` above the bit `width - 1` with this bit. -/
def extendSign (width : Nat) : CStmt :=
  let W := size.bits
  let top := (width - 1) / W
  let bit := (width - 1) % W
  let above := ((2 ^ W - 1) <<< (bit + 1)) % 2 ^ W
  .ite (.bin .and (.item (wordType size) d top) (.bin .shl (wordLit size 1) (intLit bit)))
    (.seq (if bit = W - 1 then .skip else orItem size d top (wordLit size above))
      (.block ((List.range' (top + 1) (n - (top + 1))).map fun i =>
        .setItem (wordType size) d i (wordLit size (2 ^ W - 1)))))
    .skip

/-- `emit_materialize`; unlike `sig_expr` it does not redirect what it reads. -/
def materialize (sig : SigSpec) (signext : Bool) : CStmt :=
  let mapped := sig.map nets.sigmap
  .block [
    .call (.clear d n),
    materializeChunks size d 0 (chunks mapped),
    materializeConst size d n mapped,
    if signext ∧ 1 ≤ sig.length then extendSign size d n sig.length else .skip]

end Materialize

/-- `scalar_of` -/
def scalarOf (size : LimbSize) (nets : Nets) (sig : SigSpec) : CExpr :=
  if sig.length ≤ 64 then sigExpr size nets sig else sigExpr size nets (extract sig 0 64)

section Put

variable (n : Nat)

/-- The store of the bits from `pos` on of `_wy` into a chunk. -/
def putChunk (pos : Nat) : Chunk → CStmt
  | .const _ => .skip
  | .wire w offset width =>
    let part := Expr.call (.wslice64 wy pos width n)
    if isWide w.width then .call (.wplacew (.wire w) offset wy pos width)
    else if offset = 0 ∧ width = w.width then .set (.wire w) uint64 part
    else
      .set (.wire w) uint64 (.bin .or
        (.bin .and (.var (.wire w)) (.not (.bin .shl (maskLit width) (intLit offset))))
        (.bin .shl (.bin .and part (maskLit width)) (intLit offset)))

def putChunks (pos : Nat) : List Chunk → CStmt
  | [] => .skip
  | c :: cs => .seq (putChunk n pos c) (putChunks (pos + c.width) cs)

/-- `y_scatter` -/
def yScatter (Y : SigSpec) : Bool := (chunks Y).length > 1 || (chunks Y).any isPartial

/-- `put_val`; `w` and `offset` are those of the first chunk of `Y`. -/
def putVal (Y : SigSpec) (w : Wire) (offset : Nat) : CStmt :=
  if yScatter Y then putChunks n 0 (chunks Y)
  else if isWide w.width then .call (.wplace (.wire w) offset wy Y.length)
  else .set (.wire w) uint64 (.call (.wslice64 wy 0 Y.length n))

/-- `put_bit` -/
def putBit_ (w : Wire) (offset : Nat) (e : CExpr) : CStmt :=
  if isWide w.width then .call (.wplaceb (.wire w) offset e) else .set (.wire w) uint64 e

end Put

section Emit

variable (size : LimbSize) (nets : Nets) (c : Cell) (w : Wire) (offset : Nat)

def declareWords (x : Var) (n : Nat) : CStmt := .declare (wordType size) x n

/-- `if(_x&(1<<(width-1))) _x-=(1<<width);` -/
def signCount (x : String) (width : Nat) : CStmt :=
  .ite (.bin .and (local_ x) (.bin .shl (.lit ⟨int64, 1⟩) (intLitOf ((width : Int) - 1))))
    (.set (.loc x) int64 (.bin .sub (local_ x) (.bin .shl (.lit ⟨int64, 1⟩) (intLitOf width)))) .skip

/-- A call of the runtime on both operands, zero-extended. -/
def emitWords (calls : Nat → List CStmt) : CStmt :=
  let n := nlimbs size (max c.Y.length (max c.A.length c.B.length))
  .block ([declareWords size wa n, declareWords size wb n, declareWords size wy n,
    materialize size nets wa n c.A false, materialize size nets wb n c.B false] ++ calls n ++
    [putVal n c.Y w offset])

/-- A call of the runtime on the operand `A`, zero-extended. -/
def emitWord (calls : Nat → List CStmt) : CStmt :=
  let n := nlimbs size (max c.Y.length c.A.length)
  .block ([declareWords size wa n, declareWords size wy n, materialize size nets wa n c.A false] ++
    calls n ++ [putVal n c.Y w offset])

/-- `$shl` and `$shr` -/
def emitWideShift (call : CExpr → Nat → Proc) : CStmt :=
  let n := nlimbs size (max c.Y.length c.A.length)
  .block [declareWords size wa n, declareWords size wy n,
    .set (.loc "_sh") int (.cast int (scalarOf size nets c.B)),
    materialize size nets wa n c.A false, .call (call (local_ "_sh") n), putVal n c.Y w offset]

/-- `$shift` and `$shiftx` -/
def emitWidePartSelect : CStmt :=
  let n := nlimbs size (max c.Y.length c.A.length)
  let count := local_ "_sh"
  .block [declareWords size wa n, declareWords size wy n,
    .set (.loc "_sh") int64 (.cast int64 (.cast uint64 (scalarOf size nets c.B))),
    if c.bSigned ∧ c.B.length < 64 then signCount "_sh" c.B.length else .skip,
    materialize size nets wa n c.A false,
    .ite (.bin .ge count (intLit 0)) (.call (.wshr wy wa (.cast int count) n))
      (.call (.wshl wy wa (.cast int (.neg count)) n)),
    putVal n c.Y w offset]

/-- A comparison, whose operands have a sign only in an order. -/
def emitWideTest (signext : Bool) (call : Nat → Func) (yes no : Nat) : CStmt :=
  let n := nlimbs size (max c.A.length c.B.length)
  .block [declareWords size wa n, declareWords size wb n, materialize size nets wa n c.A signext,
    materialize size nets wb n c.B signext,
    putBit_ w offset (.cond int (.call (call n)) (intLit yes) (intLit no))]

/-- A reduction. -/
def emitWideReduce (call : Nat → Func) (yes no : Nat) : CStmt :=
  let n := nlimbs size c.A.length
  .block [declareWords size wa n, materialize size nets wa n c.A false,
    putBit_ w offset (.cond int (.call (call n)) (intLit yes) (intLit no))]

/-- `emit_wide_cell`; `none` where it declines. -/
def emitWide : Option CStmt :=
  let ny := nlimbs size (max c.Y.length 1)
  let isZero (e : CExpr) : CExpr := .bin .ne e (intLit 0)
  let a := scalarOf size nets c.A
  let b := scalarOf size nets c.B
  let order (x y : Var) (n : Nat) : Func := if c.aSigned then .wslt x y n else .wult x y n
  match c.type with
  | .add => some (emitWords size nets c w offset fun n => [.call (.wadd wy wa wb n)])
  | .sub => some (emitWords size nets c w offset fun n => [.call (.wsub wy wa wb n)])
  | .mul => some (emitWords size nets c w offset fun n => [.call (.wmul wy wa wb n)])
  | .and => some (emitWords size nets c w offset fun n => [.call (.wand wy wa wb n)])
  | .or => some (emitWords size nets c w offset fun n => [.call (.wor wy wa wb n)])
  | .xor => some (emitWords size nets c w offset fun n => [.call (.wxor wy wa wb n)])
  | .xnor =>
    some (emitWords size nets c w offset fun n => [.call (.wxor wy wa wb n), .call (.wnot wy wy n)])
  | .not => some (emitWord size nets c w offset fun n => [.call (.wnot wy wa n)])
  | .neg => some (emitWord size nets c w offset fun n => [.call (.wneg wy wa n)])
  | .shl => some (emitWideShift size nets c w offset fun s n => .wshl wy wa s n)
  | .shr => some (emitWideShift size nets c w offset fun s n => .wshr wy wa s n)
  | .shift | .shiftx => some (emitWidePartSelect size nets c w offset)
  | .mux =>
    some (.block [declareWords size wa ny, declareWords size wb ny, declareWords size wy ny,
      materialize size nets wa ny c.A false, materialize size nets wb ny c.B false,
      .ite (scalarOf size nets c.S) (.call (.wcopy wy wb ny)) (.call (.wcopy wy wa ny)),
      putVal ny c.Y w offset])
  | .pmux =>
    some (.block ([declareWords size wy ny, materialize size nets wy ny c.A false] ++
      (List.range c.S.length).map (fun i =>
        .ite (scalarOf size nets (extract c.S i 1))
          (materialize size nets wy ny (extract c.B (i * c.Y.length) c.Y.length) false) .skip) ++
      [putVal ny c.Y w offset]))
  | .eq | .eqx => some (emitWideTest size nets c w offset false (fun n => .weq wa wb n) 1 0)
  | .ne | .nex => some (emitWideTest size nets c w offset false (fun n => .weq wa wb n) 0 1)
  | .lt => some (emitWideTest size nets c w offset c.aSigned (order wa wb) 1 0)
  | .gt => some (emitWideTest size nets c w offset c.aSigned (order wb wa) 1 0)
  | .le => some (emitWideTest size nets c w offset c.aSigned (order wb wa) 0 1)
  | .ge => some (emitWideTest size nets c w offset c.aSigned (order wa wb) 0 1)
  | .logicAnd =>
    if c.A.length ≤ 64 ∧ c.B.length ≤ 64 then
      some (putBit_ w offset (asBit (.land (isZero a) (isZero b))))
    else none
  | .logicOr =>
    if c.A.length ≤ 64 ∧ c.B.length ≤ 64 then
      some (putBit_ w offset (asBit (.lor (isZero a) (isZero b))))
    else none
  | .reduceOr | .reduceBool =>
    some (emitWideReduce size nets c w offset (fun n => .wredOr wa n) 1 0)
  | .logicNot => some (emitWideReduce size nets c w offset (fun n => .wredOr wa n) 0 1)
  | .reduceAnd =>
    some (emitWideReduce size nets c w offset (fun n => .wredAnd wa c.A.length n) 1 0)
  | .reduceXor => some (emitWideReduce size nets c w offset (fun n => .wredXor wa n) 1 0)
  | .div | .mod | .sshl | .sshr => none

/-- `emit_cell` for a combinational cell: nothing where `Y` starts with a constant. -/
def emitCell : Option CStmt :=
  match chunks c.Y with
  | .wire w offset _ :: _ =>
    if isWide w.width ∨ isWide c.Y.length ∨ isWide c.A.length ∨ isWide c.B.length then
      emitWide size nets c w offset
    else some (emitScalar size nets c w)
  | _ => some .skip

end Emit

end Yosys.Rtlil
