import Sv2ghdl.Yosys.Shape

/-!
# Narrow cells, shape by shape

The value that the statement of a narrow cell computes, as a function of the values of the operands,
and from it when the statement is faithful.
-/

open Clang Yosys.WideRt

namespace Yosys.Rtlil

variable {size : LimbSize} {nets : Nets} {env : CEnv} {p : Shape} {c : Cell}

/-! ## Values of the emitted expressions -/

/-- The value that the statements of a narrow cell compute: `none` where they are undefined. -/
def Shape.emitted (p : Shape) (a b s : Nat) : Option Nat :=
  let signed := signedOf p.aw a
  let shifted (x : Nat) : Nat := if 64 ≤ b then 0 else x
  let order (test : Int → Int → Bool) : Option Nat :=
    if p.aSigned then
      if p.aw = 0 ∨ p.bw = 0 then none else some (test signed (signedOf p.bw b)).toNat
    else some (test a b).toNat
  match p.type with
  | .add => some ((a + b) % 2 ^ p.yw)
  | .sub => some (wrap p.yw (a - b))
  | .mul => some (a * b % 2 ^ p.yw)
  | .and => some (a &&& b)
  | .or => some (a ||| b)
  | .xor => some (a ^^^ b)
  | .not => some ((2 ^ 64 - 1 - a) % 2 ^ p.yw)
  | .shl | .sshl => some (shifted ((a <<< b) % 2 ^ p.yw))
  | .shr => some (shifted (a >>> b))
  | .sshr => if p.aw = 0 then none else some (wrap p.yw (signed / 2 ^ min b 63))
  | .shift | .shiftx =>
    if p.bSigned ∧ p.bw < 64 then
      if p.bw = 0 ∨ p.bw = 63 ∧ 2 ^ 62 ≤ b then none
      else
        let o := signedOf p.bw b
        some (if o ≤ -64 ∨ 64 ≤ o then 0 else shiftBy a o % 2 ^ p.yw)
    else some (shifted ((a >>> b) % 2 ^ p.yw))
  | .eq => some (decide (a = b)).toNat
  | .ne => some (decide (a ≠ b)).toNat
  | .lt => order fun x y => x < y
  | .le => order fun x y => x ≤ y
  | .gt => order fun x y => y < x
  | .ge => order fun x y => y ≤ x
  | .mux => some (if s ≠ 0 then b else a)
  | .reduceOr => some (decide (a ≠ 0)).toNat
  | .logicNot => some (decide (a = 0)).toNat
  | _ => none

/-- The cells whose statements `Shape.emitted` describes. -/
def CellType.Described : CellType → Prop
  | .add | .sub | .mul | .and | .or | .xor | .not | .shl | .shr | .sshl | .sshr | .shift | .shiftx
  | .eq | .ne | .lt | .le | .gt | .ge | .reduceOr | .logicNot | .mux => True
  | _ => False

/-- A statement sets a scalar to a value, or is undefined. -/
def Outcome (size : LimbSize) (env : CEnv) (s : CStmt) (y : Var) : Option Nat → Prop
  | some v => Computes size env s y v
  | none => run size s env = none

theorem emitOrder_outcome (hA : Readable nets c.A) (hB : Readable nets c.B)
    (henv : WellFormed size env) (y : Var) {op : BinOp} (test : Int → Int → Bool)
    (hop : ∀ x y, op.test x y = some (test x y)) :
    Outcome size env (emitOrder size nets c y op) y
      (if c.aSigned then
        if c.A.length = 0 ∨ c.B.length = 0 then none
        else some (test (signedOf c.A.length (operand size nets env c.A))
          (signedOf c.B.length (operand size nets env c.B))).toNat
      else some (test (operand size nets env c.A) (operand size nets env c.B)).toNat) := by
  by_cases hsigned : c.aSigned = true
  · rw [if_pos hsigned]
    by_cases hzero : c.A.length = 0 ∨ c.B.length = 0
    · rw [if_pos hzero]
      exact emitOrder_none hA hB henv y hsigned hzero
    · rw [if_neg hzero]
      exact emitOrder_signed hA hB henv y hsigned (by omega) (by omega) (hop _ _)
  · rw [if_neg hsigned, emitOrder, if_neg hsigned]
    exact emitTest_operands hA hB henv y (hop _ _)

theorem emitPartSelect_outcome (hA : Readable nets c.A) (hB : Readable nets c.B)
    (henv : WellFormed size env) (y : Var) (hY : c.Y.length ≤ 64) :
    Outcome size env
      (if c.bSigned ∧ c.B.length < 64 then emitSignedShift size nets c y
        else emitUnsignedShift size nets c y) y
      (if c.bSigned ∧ c.B.length < 64 then
        if c.B.length = 0 ∨ c.B.length = 63 ∧ 2 ^ 62 ≤ operand size nets env c.B then none
        else
          some (if signedOf c.B.length (operand size nets env c.B) ≤ -64 ∨
              64 ≤ signedOf c.B.length (operand size nets env c.B) then 0
            else shiftBy (operand size nets env c.A)
              (signedOf c.B.length (operand size nets env c.B)) % 2 ^ c.Y.length)
      else some (if 64 ≤ operand size nets env c.B then 0
        else (operand size nets env c.A >>> operand size nets env c.B) % 2 ^ c.Y.length)) := by
  by_cases hsigned : c.bSigned = true ∧ c.B.length < 64
  · rw [if_pos hsigned, if_pos hsigned]
    by_cases hzero : c.B.length = 0
    · rw [if_pos (.inl hzero)]
      exact emitSignedShift_none hB henv y hzero
    · have hrun := emitSignedShift_run hA hB henv y hY (by omega) hsigned.2
      by_cases hover : c.B.length = 63 ∧ 2 ^ 62 ≤ operand size nets env c.B
      · rw [if_pos (.inr hover)]
        rwa [if_pos hover] at hrun
      · rw [if_neg (by rintro (h | h); exacts [hzero h, hover h])]
        rwa [if_neg hover] at hrun
  · rw [if_neg hsigned, if_neg hsigned]
    exact emitUnsignedShift_computes hA hB henv y hY

theorem emitOp_outcome (hc : c.Has nets p) (htype : p.type.Described) (henv : WellFormed size env)
    (hA : Readable nets c.A) (hB : Readable nets c.B) (hS : p.type = .mux → Readable nets c.S)
    (hY : c.Y.length ≤ 64) (y : Var) :
    Outcome size env (emitOp size nets c y) y (p.emitted (operand size nets env c.A)
      (operand size nets env c.B) (operand size nets env c.S)) := by
  have hpt := hc.type
  rw [Shape.emitted, ← hc.aw, ← hc.bw, ← hc.yw, ← hc.aSigned, ← hc.bSigned]
  rw [← hpt] at htype hS ⊢
  rw [emitOp]
  cases htypeEq : c.type <;> rw [htypeEq] at htype hS <;>
    simp only [CellType.Described] at htype ⊢
  case add => exact emitMasked_add hA hB henv y hY
  case sub => exact emitMasked_sub hA hB henv y hY
  case mul => exact emitMasked_mul hA hB henv y hY
  case and =>
    rw [if_neg (by rw [hc.icgClk]; exact Bool.false_ne_true)]
    exact emitUnmasked_and hA hB henv y
  case or => exact emitUnmasked_or hA hB henv y
  case xor => exact emitUnmasked_xor hA hB henv y
  case not => exact emitNot hA henv y hY
  case shl => exact emitShl hA hB henv y hY
  case shr => exact emitShr hA hB henv y
  case sshl => exact emitSshl hA hB henv y hY
  case sshr =>
    by_cases hzero : c.A.length = 0
    · rw [if_pos hzero]
      exact emitSshr_none hA hB henv y hzero
    · rw [if_neg hzero]
      exact emitSshr hA hB henv y hY (by omega)
  case shift => exact emitPartSelect_outcome hA hB henv y hY
  case shiftx => exact emitPartSelect_outcome hA hB henv y hY
  case eq => exact emitTest_operands hA hB henv y (by simp [BinOp.test])
  case ne => exact emitTest_operands hA hB henv y (by simp [BinOp.test])
  case lt => exact emitOrder_outcome hA hB henv y (fun x y => x < y) fun _ _ => rfl
  case le => exact emitOrder_outcome hA hB henv y (fun x y => x ≤ y) fun _ _ => rfl
  case gt => exact emitOrder_outcome hA hB henv y (fun x y => y < x) fun _ _ => rfl
  case ge => exact emitOrder_outcome hA hB henv y (fun x y => y ≤ x) fun _ _ => rfl
  case reduceOr => exact emitTest_zero hA henv y (by simp [BinOp.test])
  case logicNot => exact emitTest_zero hA henv y (by simp [BinOp.test])
  case mux => exact emitMux hA hB henv y (hS rfl)

/-! ## The store -/

/-- An output that is not scattered is one whole wire. -/
theorem whole_wire {Y : SigSpec} (hdrives : ∀ b ∈ Y, ∃ w i, b = .wire w i ∧ i < w.width)
    (hpos : 0 < Y.length) (hmulti : yMulti Y = false) :
    ∃ w : Wire, chunks Y = [.wire w 0 w.width] ∧ Y = w.all := by
  have hflat := bits_chunks Y
  have hwires : ∀ ch ∈ chunks Y, ∃ w offset width, ch = .wire w offset width := by
    intro ch hch
    cases ch with
    | wire w offset width => exact ⟨w, offset, width, rfl⟩
    | const data =>
      have hdata := width_pos _ hch
      obtain ⟨s, rest, rfl⟩ := List.exists_cons_of_length_pos hdata
      obtain ⟨w, i, heq, -⟩ := hdrives (.const s) (by
        rw [← hflat]
        exact List.mem_flatMap.mpr ⟨_, hch, by simp [Chunk.bits]⟩)
      cases heq
  rw [yMulti, Bool.or_eq_false_iff] at hmulti
  obtain ⟨hcount, hpartial⟩ := hmulti
  have hlength : wireCount (chunks Y) = (chunks Y).length := by
    rw [wireCount, List.filter_eq_self.mpr]
    intro ch hch
    obtain ⟨w, offset, width, rfl⟩ := hwires ch hch
    rfl
  rw [hlength] at hcount
  cases hchunks : chunks Y with
  | nil =>
    rw [hchunks] at hflat
    rw [← hflat] at hpos
    exact absurd hpos (by simp)
  | cons ch rest =>
    rw [hchunks] at hcount hpartial hwires hflat
    have hrest : rest = [] := by
      rw [List.length_cons] at hcount
      exact List.length_eq_zero_iff.mp (by simpa using hcount)
    obtain ⟨w, offset, width, rfl⟩ := hwires ch (by simp)
    subst hrest
    simp only [List.any_cons, List.any_nil, Bool.or_false, isPartial, decide_eq_false_iff_not,
      not_or, not_not] at hpartial
    obtain ⟨rfl, rfl⟩ := hpartial
    refine ⟨w, rfl, ?_⟩
    rw [← hflat]
    simp [Wire.all]

/-- A scalar other than those of the wires. -/
theorem Computes.of_loc {s : CStmt} {x : String} {v : Nat}
    (h : Computes size env s (.loc x) v) (henv : WellFormed size env) :
    ∃ env', run size s env = some env' ∧ env'.scalar (.loc x) = ⟨uint64, v⟩ ∧
      WellFormed size env' ∧ wireBits size env' = wireBits size env := by
  obtain ⟨-, env', hrun, hy, harray, hwires⟩ := h
  have hscalar : ∀ w : Wire, env'.scalar (.wire w) = env.scalar (.wire w) :=
    fun w => hwires w (wire_ne_loc w x)
  refine ⟨env', hrun, hy, ⟨?_, ?_, ?_⟩, ?_⟩
  · intro w
    rw [hscalar]
    exact henv.type w
  · intro w
    rw [hscalar]
    exact henv.lt w
  · intro w
    rw [harray]
    exact henv.limbs w
  · funext w i
    rw [wireBits, wireBits, hscalar, harray]

/-- A scalar of a wire: stored right if it has no bit above the width. -/
theorem Computes.of_wire {s : CStmt} {w : Wire} {v : Nat} (h : Computes size env s (.wire w) v)
    (henv : WellFormed size env) (hw : isWide w.width = false) (hv : v < 2 ^ w.width) :
    ∃ env', run size s env = some env' ∧ Stored size env env' w.all v.testBit := by
  obtain ⟨-, env', hrun, hy, harray, hwires⟩ := h
  have hset := (stored_set henv hw 0 w.width (x := v) (f := v.testBit) hv
    (fun k _ => by rw [Nat.zero_add]) fun i hi => by
      rw [testBit_of_le hv (by omega), testBit_of_le (henv.lt w hw) (by omega)]).1
  have hscalar : ∀ u : Wire, env'.scalar (.wire u) =
      (env.set (.wire w) ⟨uint64, v⟩).scalar (.wire u) := by
    intro u
    by_cases hu : Var.wire u = .wire w
    · rw [hu, hy, env.scalar_set_self]
    · rw [hwires u hu, env.scalar_set_ne hu]
  have hbits : wireBits size env' = wireBits size (env.set (.wire w) ⟨uint64, v⟩) := by
    funext u i
    rw [wireBits, wireBits, hscalar, harray]
    rfl
  refine ⟨env', hrun, ⟨fun u => ?_, fun u => ?_, fun u => ?_⟩, ?_, ?_⟩
  · rw [hscalar]
    exact hset.wellFormed.type u
  · rw [hscalar]
    exact hset.wellFormed.lt u
  · rw [harray]
    exact henv.limbs u
  · rw [hbits]
    exact hset.bit
  · rw [hbits]
    exact hset.frame

/-! ## Faithful shapes -/

theorem wrap_lt (n : Nat) (x : Int) : wrap n x < 2 ^ n := by
  have hpos : (0 : Int) < 2 ^ n := by positivity
  have hlt := Int.emod_lt_of_pos x hpos
  have hcast : ((2 ^ n : Nat) : Int) = 2 ^ n := by push_cast; rfl
  rw [wrap]
  omega

theorem extend_lt (isSigned : Bool) (w n v : Nat) : extend isSigned w n v < 2 ^ n := by
  rw [extend]
  split_ifs
  · exact wrap_lt n _
  · exact Nat.mod_lt _ (Nat.two_pow_pos n)

/-- The value of a cell has no bit above the width of its output. -/
theorem value_lt_two_pow (hp : p.Legal) {a b s : Nat} (ha : a < 2 ^ p.aw) (hb : b < 2 ^ p.bw) :
    p.value a b s < 2 ^ p.yw := by
  have hmod : ∀ x, x % 2 ^ p.yw < 2 ^ p.yw := fun x => Nat.mod_lt x (Nat.two_pow_pos p.yw)
  have hcompl : ∀ x, 2 ^ p.yw - 1 - x < 2 ^ p.yw := by
    intro x
    have := Nat.two_pow_pos p.yw
    omega
  have hlegal := hp.2.2
  rw [Shape.value, CellType.value.eq_def]
  cases htype : p.type <;> rw [htype] at hlegal <;> simp only at hlegal ⊢
  case add | mul | shl | sshl | shr | shift | shiftx => exact hmod _
  case eq | eqx | ne | nex | lt | le | gt | ge => exact hmod _
  case reduceAnd | reduceOr | reduceBool | reduceXor | logicNot | logicAnd | logicOr => exact hmod _
  case sub | neg => exact wrap_lt _ _
  case not | xnor => exact hcompl _
  case div | mod =>
    split_ifs
    · exact Nat.two_pow_pos _
    · exact wrap_lt _ _
    · exact hmod _
  case and => exact Nat.and_lt_two_pow _ (extend_lt _ _ _ _)
  case or => exact Nat.or_lt_two_pow (extend_lt _ _ _ _) (extend_lt _ _ _ _)
  case xor => exact Nat.xor_lt_two_pow (extend_lt _ _ _ _) (extend_lt _ _ _ _)
  case sshr =>
    split_ifs
    · exact wrap_lt _ _
    · exact hmod _
  case mux =>
    split_ifs
    · rwa [← hlegal.2.1]
    · rwa [← hlegal.1]
  case pmux =>
    split
    · exact hmod _
    · rwa [← hlegal.1]

/-- The bits of a value that reach the wires. -/
def Shape.kept (p : Shape) (v : Nat) : Nat := if p.scattered then v % 2 ^ p.yw else v

/-- The first chunk of an output is a slice of a wire. -/
theorem first_chunk (hc : c.Has nets p) (hp : p.Legal) :
    ∃ w offset width rest, chunks c.Y = .wire w offset width :: rest ∧
      isWide w.width = p.wideTarget := by
  have hflat := bits_chunks c.Y
  have hpos : 0 < c.Y.length := by
    rw [hc.yw]
    exact hp.1
  have htarget := hc.wideTarget
  rw [wideTarget] at htarget
  cases hchunks : chunks c.Y with
  | nil =>
    rw [hchunks] at hflat
    rw [← hflat] at hpos
    exact absurd hpos (by simp)
  | cons ch rest =>
    cases ch with
    | const data =>
      have hdata := width_pos (.const data) (by rw [hchunks]; simp)
      obtain ⟨s, tail, rfl⟩ := List.exists_cons_of_length_pos hdata
      obtain ⟨w, i, heq, -⟩ := hc.drives (.const s) (by rw [← hflat, hchunks]; simp [Chunk.bits])
      cases heq
    | wire w offset width =>
      rw [hchunks] at htarget
      exact ⟨w, offset, width, rest, rfl, htarget⟩

theorem emitCell_narrow (hc : c.Has nets p) (hp : p.Legal) (hwide : p.wide = false) :
    ∃ w offset width rest, chunks c.Y = .wire w offset width :: rest ∧ isWide w.width = false ∧
      emitCell size nets c = some (emitScalar size nets c w) := by
  obtain ⟨w, offset, width, rest, hchunks, hw⟩ := first_chunk hc hp
  rw [Shape.wide, Bool.or_eq_false_iff, Bool.or_eq_false_iff, Bool.or_eq_false_iff] at hwide
  obtain ⟨⟨⟨htarget, hyw⟩, haw⟩, hbw⟩ := hwide
  rw [htarget] at hw
  refine ⟨w, offset, width, rest, hchunks, hw, ?_⟩
  rw [emitCell, hchunks]
  simp only [hw, hc.yw, hyw, hc.aw, haw, hc.bw, hbw, Bool.false_eq_true, or_self, if_false]

/-- A run of the statements of a narrow cell. -/
theorem emitScalar_run (hc : c.Has nets p) (hp : p.Legal) (hwide : p.wide = false)
    (htype : p.type.Described) (henv : WellFormed size env) {w : Wire} {offset width : Nat}
    {rest : List Chunk} (hchunks : chunks c.Y = .wire w offset width :: rest)
    (hw : isWide w.width = false) :
    match p.emitted (operand size nets env c.A) (operand size nets env c.B)
      (operand size nets env c.S) with
    | none => run size (emitScalar size nets c w) env = none
    | some v =>
      ∃ env', run size (emitScalar size nets c w) env = some env' ∧
        (p.scattered = true → Stored size env env' c.Y v.testBit) ∧
        (p.scattered = false → (v < 2 ^ p.yw → Stored size env env' c.Y v.testBit) ∧
          (WellFormed size env' → v < 2 ^ p.yw)) := by
  have hpos : 0 < c.Y.length := by
    rw [hc.yw]
    exact hp.1
  have hnarrow : c.A.length ≤ 64 ∧ c.B.length ≤ 64 ∧ c.Y.length ≤ 64 := by
    rw [hc.aw, hc.bw, hc.yw]
    simp only [Shape.wide, isWide, Bool.or_eq_false_iff, decide_eq_false_iff_not] at hwide
    omega
  have hA : Readable nets c.A := ⟨hc.A, hnarrow.1⟩
  have hB : Readable nets c.B := ⟨hc.B, hnarrow.2.1⟩
  have hS : p.type = .mux → Readable nets c.S := by
    intro hmux
    have hlegal := hp.2.2
    rw [hmux] at hlegal
    refine ⟨hc.S, ?_⟩
    rw [hc.sw, hlegal.2.2]
    decide
  by_cases hmulti : p.scattered = true
  · -- the value goes to `_yspl` first
    have hset : run size (.set (.loc "_yspl") uint64 (intLit 0)) env =
        some (env.set (.loc "_yspl") ⟨uint64, 0⟩) := rfl
    have henv₁ := henv.set_loc "_yspl" ⟨uint64, 0⟩
    have hout := emitOp_outcome hc htype henv₁ hA hB hS hnarrow.2.2 (.loc "_yspl")
    simp only [operand_set_loc] at hout
    have hrun : ∀ env', run size (emitOp size nets c (.loc "_yspl"))
        (env.set (.loc "_yspl") ⟨uint64, 0⟩) = env' →
        run size (emitScalar size nets c w) env =
          env'.bind fun env' => run size (.block [scatter 0 (chunks c.Y)]) env' := by
      intro env' henv'
      rw [emitScalar, if_pos (by rw [hc.scattered, hmulti]), Stmt.block, run_seq, hset,
        Option.bind_some, Stmt.block, run_seq, henv']
    cases hvalue : p.emitted (operand size nets env c.A) (operand size nets env c.B)
      (operand size nets env c.S) with
    | none =>
      rw [hvalue] at hout
      simp only
      rw [hrun none hout, Option.bind_none]
    | some v =>
      rw [hvalue] at hout
      obtain ⟨env₂, hrun₂, hspl, henv₂, hbits₂⟩ := hout.of_loc henv₁
      have hflat := bits_chunks c.Y
      have hvalid : ∀ b ∈ c.Y, b.Valid := by
        intro b hb
        obtain ⟨u, i, rfl, hi⟩ := hc.drives b hb
        exact hi
      obtain ⟨env₃, hrun₃, hstored⟩ := scatter_run henv₂ hout.1 hspl (chunks_valid hvalid)
        (by rw [hflat]; exact hc.nodup) 0 (by rw [hflat]; omega)
      rw [hflat] at hstored
      refine ⟨env₃, ?_, fun _ => ⟨hstored.wellFormed, fun k u i hk => ?_, fun u i hnot => ?_⟩,
        fun h => absurd hmulti (by rw [h]; exact Bool.false_ne_true)⟩
      · rw [hrun _ hrun₂, Option.bind_some, Stmt.block, run_seq, hrun₃]
        rfl
      · rw [hstored.bit k u i hk, Nat.zero_add]
      · rw [hstored.frame u i hnot, hbits₂, wireBits_set_loc]
  · have hscattered : p.scattered = false := by simpa using hmulti
    obtain ⟨u, hwhole, hY⟩ := whole_wire hc.drives hpos (by rw [hc.scattered, hscattered])
    rw [hwhole] at hchunks
    obtain ⟨⟨rfl, -, -⟩, -⟩ : (u = w ∧ 0 = offset ∧ u.width = width) ∧ [] = rest := by
      simpa using hchunks
    have hwidth : u.width = p.yw := by rw [← hc.yw, hY, length_all]
    have hout := emitOp_outcome hc htype henv hA hB hS hnarrow.2.2 (.wire u)
    have hrun : emitScalar size nets c u = emitOp size nets c (.wire u) := by
      rw [emitScalar, if_neg (by rw [hc.scattered, hscattered]; exact Bool.false_ne_true)]
    rw [hrun]
    cases hvalue : p.emitted (operand size nets env c.A) (operand size nets env c.B)
      (operand size nets env c.S) with
    | none =>
      rw [hvalue] at hout
      exact hout
    | some v =>
      rw [hvalue] at hout
      obtain ⟨-, env', hrun', hy, -⟩ := id hout
      refine ⟨env', hrun', fun h => absurd h hmulti, fun _ => ⟨fun hlt => ?_, fun hwf => ?_⟩⟩
      · obtain ⟨env'', hrun'', hstored⟩ := Computes.of_wire hout henv hw (by rwa [hwidth])
        rw [hrun'] at hrun''
        cases hrun''
        rwa [hY]
      · have hlt := hwf.lt u hw
        rwa [hy, hwidth] at hlt

theorem faithful_narrow (hp : p.Legal) (hwide : p.wide = false) (htype : p.type.Described) :
    Faithful size p ↔ ∀ a b s, a < 2 ^ p.aw → b < 2 ^ p.bw → s < 2 ^ p.sw →
      ∃ v, p.emitted a b s = some v ∧ p.kept v = p.value a b s := by
  constructor
  · intro hfaithful a b s ha hb hs
    have hc := cell_has hp
    obtain ⟨w, offset, width, rest, hchunks, hw, hemit⟩ := emitCell_narrow hc hp hwide
    have henv := wellFormed_envOf size (values_lt ha hb hs)
    obtain ⟨env', hrun, hstored⟩ := hfaithful plainNets p.cell hc _ hemit _ henv
    have hspec := emitScalar_run hc hp hwide htype henv hchunks hw
    obtain ⟨hA, hB, hS⟩ := cell_operands ha hb hs
    have hlt := value_lt_two_pow (s := s) hp ha hb
    rw [cell_value hp ha hb hs] at hstored
    rw [hA, hB, hS] at hspec
    -- the bits of the output are those of both values
    have hbits : ∀ v : Nat, Stored size (envOf size (p.values a b s)) env' p.cell.Y v.testBit →
        ∀ k < p.yw, v.testBit k = (p.value a b s).testBit k := by
      intro v hv k hk
      have hlength := hc.yw
      obtain ⟨u, i, hui, -⟩ := hc.drives p.cell.Y[k] (List.getElem_mem _)
      have hget : p.cell.Y[k]? = some (.wire u i) := by
        rw [List.getElem?_eq_getElem (by omega), hui]
      rw [← hv.bit k u i hget, hstored.bit k u i hget]
    cases hvalue : p.emitted a b s with
    | none =>
      rw [hvalue] at hspec
      rw [hrun] at hspec
      cases hspec
    | some v =>
      rw [hvalue] at hspec
      obtain ⟨env'', hrun', hscatter, hwhole⟩ := hspec
      rw [hrun] at hrun'
      cases hrun'
      refine ⟨v, rfl, ?_⟩
      rw [Shape.kept]
      by_cases hmulti : p.scattered = true
      · rw [if_pos hmulti]
        refine testBit_ext (Nat.mod_lt _ (Nat.two_pow_pos _)) hlt fun k hk => ?_
        rw [Nat.testBit_mod_two_pow, decide_eq_true hk, Bool.true_and]
        exact hbits v (hscatter hmulti) k hk
      · have hscattered : p.scattered = false := by simpa using hmulti
        have hv := (hwhole hscattered).2 hstored.wellFormed
        rw [if_neg hmulti]
        exact testBit_ext hv hlt (hbits v ((hwhole hscattered).1 hv))
  · intro hvalues nets c hc s hemit env henv
    obtain ⟨w, offset, width, rest, hchunks, hw, hemit'⟩ := emitCell_narrow hc hp hwide
    rw [hemit'] at hemit
    cases hemit
    have hspec := emitScalar_run hc hp hwide htype henv hchunks hw
    have ha := operand_lt size nets env c.A
    have hb := operand_lt size nets env c.B
    have hs := operand_lt size nets env c.S
    rw [hc.aw] at ha
    rw [hc.bw] at hb
    rw [hc.sw] at hs
    obtain ⟨v, hv, hkept⟩ := hvalues _ _ _ ha hb hs
    have hlt := value_lt_two_pow (s := operand size nets env c.S) hp ha hb
    have hcell : c.value size nets env = p.value (operand size nets env c.A)
        (operand size nets env c.B) (operand size nets env c.S) := by
      rw [Cell.value, hc.type, hc.aSigned, hc.bSigned, hc.aw, hc.bw, hc.yw]
      rfl
    rw [hv] at hspec
    obtain ⟨env', hrun, hscatter, hwhole⟩ := hspec
    refine ⟨env', hrun, ?_⟩
    rw [hcell]
    rw [Shape.kept] at hkept
    by_cases hmulti : p.scattered = true
    · rw [if_pos hmulti] at hkept
      refine (hscatter hmulti).congr fun k hk => ?_
      rw [hc.yw] at hk
      rw [← hkept, Nat.testBit_mod_two_pow, decide_eq_true hk, Bool.true_and]
    · rw [if_neg hmulti] at hkept
      subst hkept
      exact (hwhole (by simpa using hmulti)).1 hlt

end Yosys.Rtlil
