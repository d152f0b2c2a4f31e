import Sv2ghdl.Yosys.Shape

/-!
# Operands as arrays of words

What `emit_materialize` leaves in its array, and how `put_val` brings a result from an array to the
wires.
-/

open Clang Yosys.WideRt

namespace Yosys.Rtlil

variable {size : LimbSize} {env : CEnv} {n : Nat} {x : String}

theorem setArray_setArray (env : CEnv) (d : Var) (xs ys : List Nat) :
    (env.setArray d xs).setArray d ys = env.setArray d ys := by
  rw [Env.setArray, Env.setArray, Env.setArray]
  congr 1
  funext y
  by_cases hy : y = d
  · simp only [if_pos hy]
  · simp only [if_neg hy]

theorem setArray_self (env : CEnv) (d : Var) : env.setArray d (env.array d) = env := by
  rw [Env.setArray]
  congr 1
  funext y
  by_cases hy : y = d
  · rw [if_pos hy, hy]
  · rw [if_neg hy]

/-- An array of a statement is not one of a wire. -/
theorem WellFormed.setArray_loc (h : WellFormed size env) (x : String) (xs : List Nat) :
    WellFormed size (env.setArray (.loc x) xs) := by
  refine ⟨h.type, h.lt, fun w hw => ?_⟩
  rw [env.array_setArray_ne (wire_ne_loc w x)]
  exact h.limbs w hw

theorem wireBits_setArray_loc (size : LimbSize) (env : CEnv) (x : String) (xs : List Nat) :
    wireBits size (env.setArray (.loc x) xs) = wireBits size env := by
  funext w i
  rw [wireBits, wireBits, env.array_setArray_ne (wire_ne_loc w x)]
  rfl

/-! ## One word -/

theorem item_eval (env : CEnv) (t : IntType) (d : Var) {i : Nat} (hi : i < (env.array d).length) :
    (Expr.item t d i : CExpr).eval (Func.eval size) env = some ⟨t, (env.array d).getD i 0⟩ := by
  rw [Expr.eval, load_of_lt hi, Option.map_some]

theorem orItem_run {d : Var} {e : CExpr} {v i : Nat} (hd : Holds size.bits n (env.array d))
    (hi : i < n) (he : e.Has (Func.eval size) env (wordType size) v) (hv : v < 2 ^ size.bits) :
    run size (orItem size d i e) env =
      some (env.setArray d ((env.array d).set i ((env.array d).getD i 0 ||| v))) := by
  have hlen : i < (env.array d).length := by rw [hd.1]; exact hi
  have hold := getD_lt hd.2 i
  have hor : (Expr.bin .or (.item (wordType size) d i) e : CExpr).Has (Func.eval size) env
      (wordType size) ((env.array d).getD i 0 ||| v) :=
    Expr.Has.or (item_eval env _ d hlen) he hold hv
  rw [orItem, run, Stmt.run, hor, Option.bind_some, if_pos hlen, wordType,
    convert_self (Nat.or_lt_two_pow hold hv)]

/-- Bits or'ed into one word of an array. -/
theorem orItem_bits {xs : List Nat} {pos width part : Nat} (hxs : Holds size.bits n xs)
    (hpos : pos / size.bits < n) (hword : pos % size.bits + width ≤ size.bits) (k : Nat) :
    bitAt size.bits (xs.set (pos / size.bits) (xs.getD (pos / size.bits) 0 |||
        ((part &&& (2 ^ width - 1)) <<< (pos % size.bits)) % 2 ^ size.bits)) k =
      if pos ≤ k ∧ k < pos + width then bitAt size.bits xs k || part.testBit (k - pos)
      else bitAt size.bits xs k :=
  bitAt_putWord .or (size_pos size) (by rw [hxs.1]; exact hpos) hword part k

/-! ## One chunk -/

/-- The bits of a signal that are bits of wires. -/
def wireBit (σ : Valuation) : SigBit → Bool
  | .wire w i => σ w i
  | .const _ => false

theorem getD_map_bits (σ : Valuation) {w : Wire} {offset width k : Nat} :
    (((Chunk.wire w offset width).bits.map (wireBit σ)).getD k false) =
      (decide (k < width) && σ w (offset + k)) := by
  rw [List.getD_eq_getElem?_getD, List.getElem?_map, Chunk.bits, List.getElem?_map]
  by_cases hk : k < width
  · rw [List.getElem?_range' hk, decide_eq_true hk, Bool.true_and]
    simp [wireBit]
  · rw [List.getElem?_eq_none (by simpa using hk), decide_eq_false hk, Bool.false_and]
    rfl

section Chunk

variable {xs : List Nat} {pos : Nat}

/-- The peephole of a word of 32 bits. -/
theorem placeWord_run (hsize : size = .w32) {d : Var} {e : CExpr} {part width : Nat}
    (hd : Holds size.bits n (env.array d)) (hpos : pos / 32 < n) (hword : pos % 32 + width ≤ 32)
    (he : e.Has (Func.eval size) env (unsigned 32) part) (hpart : part < 2 ^ 32) :
    ∃ ys, run size (orItem size d (pos / 32)
        (.bin .shl (.bin .and e (.lit ⟨unsigned 32, 2 ^ width - 1⟩)) (intLit (pos % 32)))) env =
        some (env.setArray d ys) ∧ Holds size.bits n ys ∧
      ∀ k, bitAt size.bits ys k =
        if pos ≤ k ∧ k < pos + width then bitAt size.bits (env.array d) k || part.testBit (k - pos)
        else bitAt size.bits (env.array d) k := by
  subst hsize
  have hmask : 2 ^ width - 1 < 2 ^ 32 := by
    have hle : 2 ^ width ≤ 2 ^ 32 := Nat.pow_le_pow_right (by decide) (by omega)
    have hone := Nat.two_pow_pos width
    omega
  have hmod := Nat.mod_lt pos (show 0 < 32 by decide)
  have hvalue : (Expr.bin .shl (.bin .and e (.lit ⟨unsigned 32, 2 ^ width - 1⟩))
      (intLit (pos % 32)) : CExpr).Has (Func.eval .w32) env (wordType .w32)
      (((part &&& (2 ^ width - 1)) <<< (pos % 32)) % 2 ^ 32) :=
    (he.and (lit_has ⟨unsigned 32, 2 ^ width - 1⟩) hpart hmask).shl hmod (by omega)
  have hlt : ((part &&& (2 ^ width - 1)) <<< (pos % 32)) % 2 ^ 32 < 2 ^ 32 :=
    Nat.mod_lt _ (Nat.two_pow_pos 32)
  have hrun := orItem_run hd hpos hvalue hlt
  refine ⟨_, hrun, hd.set (Nat.or_lt_two_pow (getD_lt hd.2 _) hlt), fun k => ?_⟩
  exact orItem_bits hd hpos hword k

theorem materializeChunk_run (henv : WellFormed size env) (hxs : Holds size.bits n (env.array (.loc x)))
    {c : Chunk} (hc : c.Valid) (hpos : pos + c.width ≤ size.bits * n) :
    ∃ ys, run size (materializeChunk size (.loc x) pos c) env = some (env.setArray (.loc x) ys) ∧
      Holds size.bits n ys ∧ ∀ k, bitAt size.bits ys k =
        if pos ≤ k ∧ k < pos + c.width then
          bitAt size.bits (env.array (.loc x)) k ||
            (c.bits.map (wireBit (wireBits size env))).getD (k - pos) false
        else bitAt size.bits (env.array (.loc x)) k := by
  have hW := size_pos size
  cases c with
  | const data =>
    refine ⟨env.array (.loc x), ?_, hxs, fun k => ?_⟩
    · rw [materializeChunk, run_skip, setArray_self]
    · have hfalse : ((Chunk.const data).bits.map (wireBit (wireBits size env))).getD (k - pos) false =
          false := by
        rw [List.getD_eq_getElem?_getD, Chunk.bits, List.map_map, List.getElem?_map]
        cases data[k - pos]? <;> rfl
      rw [hfalse, Bool.or_false, ite_self]
  | wire w offset width =>
    obtain ⟨hwidth, hle⟩ := hc.le
    rw [Chunk.width] at hpos ⊢
    simp only [getD_map_bits]
    -- each way gives or'ed bits `f`, which are those of the wire
    have hfinish : ∀ (ys : List Nat) (f : Nat → Bool),
        run size (materializeChunk size (.loc x) pos (.wire w offset width)) env =
        some (env.setArray (.loc x) ys) → Holds size.bits n ys →
        (∀ k, bitAt size.bits ys k = if pos ≤ k ∧ k < pos + width then
          bitAt size.bits (env.array (.loc x)) k || f (k - pos)
          else bitAt size.bits (env.array (.loc x)) k) →
        (∀ j < width, f j = wireBits size env w (offset + j)) →
        ∃ ys, run size (materializeChunk size (.loc x) pos (.wire w offset width)) env =
          some (env.setArray (.loc x) ys) ∧ Holds size.bits n ys ∧ ∀ k, bitAt size.bits ys k =
          if pos ≤ k ∧ k < pos + width then bitAt size.bits (env.array (.loc x)) k ||
            (decide (k - pos < width) && wireBits size env w (offset + (k - pos)))
          else bitAt size.bits (env.array (.loc x)) k := by
      intro ys f hrun hys hbits hf
      refine ⟨ys, hrun, hys, fun k => ?_⟩
      rw [hbits]
      split_ifs with hk
      · rw [hf _ (by omega), decide_eq_true (by omega), Bool.true_and]
      · rfl
    have hword : pos / size.bits < n := Nat.div_lt_of_lt_mul (by omega)
    by_cases hw : isWide w.width = true
    · have hlimbs := henv.limbs w hw
      have hbound := le_nlimbs size w.width
      by_cases hone : (size = .w32 ∧ pos % 32 + width ≤ 32) ∧ offset % 32 + width ≤ 32
      · obtain ⟨⟨hsize, hdst⟩, hsrc⟩ := hone
        subst hsize
        have hindex : offset / 32 < (env.array (.wire w)).length := by
          rw [hlimbs.1]
          have hbound32 : w.width ≤ 32 * nlimbs .w32 w.width := hbound
          exact Nat.div_lt_of_lt_mul (by omega)
        have hlt := getD_lt hlimbs.2 (offset / 32)
        have hmod := Nat.mod_lt offset (show 0 < 32 by decide)
        have hitem : (Expr.item (unsigned 32) (.wire w) (offset / 32) : CExpr).Has (Func.eval .w32) env
            (unsigned 32) ((env.array (.wire w)).getD (offset / 32) 0) := item_eval env _ _ hindex
        have hshift := hitem.shr hlt hmod (by omega)
        obtain ⟨ys, hrun, hys, hbits⟩ := placeWord_run rfl hxs hword hdst hshift
          (Nat.lt_of_le_of_lt (Nat.shiftRight_le _ _) hlt)
        refine hfinish ys _ ?_ hys hbits fun j hj => ?_
        · rw [materializeChunk]
          simp only [hw, hdst, hsrc, decide_true, if_true, and_self]
          exact hrun
        · have hoffset := Nat.div_add_mod offset 32
          rw [Nat.testBit_shiftRight, wireBits, if_pos hw,
            ← bitAt_mul_add _ _ (show offset % 32 + j < 32 by omega)]
          congr 1
          omega
      · obtain ⟨ys, hrun, hys, hbits⟩ := placeLoop_spec .or hW (env.array (.wire w)) width
          pos offset hxs (le_refl width) hpos (by rw [hlimbs.1]; omega)
        refine hfinish ys (fun j => bitAt size.bits (env.array (.wire w)) (offset + j)) ?_ hys
          hbits fun j hj => by rw [wireBits, if_pos hw]
        rw [materializeChunk]
        simp only [hw, if_true]
        rw [if_neg (by simpa using hone), run, Stmt.run, Proc.run]
        simp only [worbits]
        rw [hrun, Option.map_some]
    · have hnarrow : isWide w.width = false := by simpa using hw
      have hw64 : w.width ≤ 64 := by simpa [isWide] using hnarrow
      have hlt : (env.scalar (.wire w)).pattern < 2 ^ 64 :=
        Nat.lt_of_lt_of_le (henv.lt w hnarrow) (Nat.pow_le_pow_right (by decide) hw64)
      by_cases hone : size = .w32 ∧ pos % 32 + width ≤ 32
      · obtain ⟨hsize, hdst⟩ := hone
        subst hsize
        have hshift := (var_has henv w).shr hlt (k := offset) (by omega) (by omega)
        have hcast : (Expr.cast (unsigned 32) (.bin .shr (.var (.wire w)) (intLit offset)) : CExpr).Has
            (Func.eval .w32) env (unsigned 32)
            ((env.scalar (.wire w)).pattern >>> offset % 2 ^ 32) := by
          rw [Expr.Has, Expr.eval, intLit, hshift, Option.map_some, convert_unsigned]
        obtain ⟨ys, hrun, hys, hbits⟩ := placeWord_run rfl hxs hword hdst hcast
          (Nat.mod_lt _ (Nat.two_pow_pos 32))
        refine hfinish ys _ ?_ hys hbits fun j hj => ?_
        · rw [materializeChunk]
          simp only [hnarrow, hdst, Bool.false_eq_true, if_false, decide_true, true_and]
          rw [if_pos (by omega)]
          exact hrun
        · rw [Nat.testBit_mod_two_pow, decide_eq_true (show j < 32 by omega), Bool.true_and,
            Nat.testBit_shiftRight, wireBits, if_neg hw]
      · obtain ⟨ys, hrun, hys, hbits⟩ := placeScalar_spec .or hW (env.scalar (.wire w)).pattern
          pos offset hxs (by omega) hpos
        refine hfinish ys (fun j => (env.scalar (.wire w)).pattern.testBit (offset + j)) ?_ hys
          hbits fun j hj => by rw [wireBits, if_neg hw]
        rw [materializeChunk]
        simp only [hnarrow, Bool.false_eq_true, if_false]
        rw [if_neg (by simp only [decide_eq_true_eq]; tauto), run, Stmt.run, Proc.run]
        simp only [worbitsS]
        rw [hrun, Option.map_some]

end Chunk

/-! ## All chunks -/

theorem getD_append {α : Type} (as bs : List α) (k : Nat) (d : α) :
    (as ++ bs).getD k d = if k < as.length then as.getD k d else bs.getD (k - as.length) d := by
  rw [List.getD_eq_getElem?_getD, List.getD_eq_getElem?_getD, List.getD_eq_getElem?_getD]
  split_ifs with h
  · rw [List.getElem?_append_left h]
  · rw [List.getElem?_append_right (by omega)]

theorem getD_of_le {α : Type} {as : List α} {k : Nat} (h : as.length ≤ k) (d : α) :
    as.getD k d = d := by
  rw [List.getD_eq_getElem?_getD, List.getElem?_eq_none h]
  rfl

/-- After the chunks `done`, the array holds their bits; each chunk adds its own above them. -/
theorem materializeChunks_run (henv : WellFormed size env) {cs : List Chunk}
    (hcs : ∀ c ∈ cs, c.Valid) (done : SigSpec) (hxs : Holds size.bits n (env.array (.loc x)))
    (hbits : ∀ k, bitAt size.bits (env.array (.loc x)) k =
      (done.map (wireBit (wireBits size env))).getD k false)
    (hlen : (done ++ cs.flatMap Chunk.bits).length ≤ size.bits * n) :
    ∃ ys, run size (materializeChunks size (.loc x) done.length cs) env =
        some (env.setArray (.loc x) ys) ∧ Holds size.bits n ys ∧
      ∀ k, bitAt size.bits ys k =
        ((done ++ cs.flatMap Chunk.bits).map (wireBit (wireBits size env))).getD k false := by
  induction cs generalizing env done with
  | nil =>
    refine ⟨env.array (.loc x), ?_, hxs, fun k => ?_⟩
    · rw [materializeChunks, run_skip, setArray_self]
    · rw [List.flatMap_nil, List.append_nil, hbits]
  | cons c cs ih =>
    rw [List.flatMap_cons, ← List.append_assoc] at hlen ⊢
    have hbound : done.length + c.width ≤ size.bits * n := by
      rw [List.length_append, List.length_append, length_bits] at hlen
      omega
    obtain ⟨ys, hrun, hys, hstep⟩ := materializeChunk_run henv hxs (hcs c (by simp)) hbound
    have hwires := wireBits_setArray_loc size env x ys
    have hself : (env.setArray (.loc x) ys).array (.loc x) = ys := env.array_setArray_self _ _
    have hys' : ∀ k, bitAt size.bits ys k =
        ((done ++ c.bits).map (wireBit (wireBits size env))).getD k false := by
      intro k
      rw [hstep, hbits, List.map_append, getD_append, List.length_map]
      by_cases hlow : k < done.length
      · rw [if_neg (by omega), if_pos hlow]
      · have hzero : (done.map (wireBit (wireBits size env))).getD k false = false :=
          getD_of_le (by rw [List.length_map]; omega) false
        rw [if_neg hlow, hzero]
        split_ifs with hhigh
        · rw [Bool.false_or]
        · refine (getD_of_le ?_ false).symm
          rw [List.length_map, length_bits]
          omega
    obtain ⟨zs, hrun', hzs, hrest⟩ := ih (henv.setArray_loc x ys)
      (fun d hd => hcs d (by simp [hd])) (done ++ c.bits) (by rwa [hself])
      (by rwa [hself, hwires]) hlen
    refine ⟨zs, ?_, hzs, fun k => ?_⟩
    · rw [List.length_append, length_bits] at hrun'
      rw [materializeChunks, run_seq, hrun, Option.bind_some, hrun', setArray_setArray]
    · rw [hrest, hwires]

/-- `for(int _wi=0;_wi<n;_wi++) d[_wi]=0;` -/
theorem clear_run (hxs : Holds size.bits n (env.array (.loc x))) :
    ∃ ys, run size (.call (.clear (.loc x) n)) env = some (env.setArray (.loc x) ys) ∧
      Holds size.bits n ys ∧ ∀ k, bitAt size.bits ys k = false := by
  obtain ⟨ys, hrun, hys, hzero⟩ := forUp_rule
    (fun i a => Holds size.bits n a ∧ ∀ k, k < i → a.getD k 0 = 0)
    (fun i a => store a i 0) (n := n) (s := env.array (.loc x))
    ⟨hxs, fun k hk => absurd hk (Nat.not_lt_zero k)⟩ (by
      rintro i a hi ⟨ha, hbelow⟩
      have hlen : i < a.length := by rw [ha.1]; exact hi
      refine ⟨a.set i 0, store_of_lt hlen 0, ha.set (Nat.two_pow_pos _), fun k hk => ?_⟩
      rw [getD_set hlen]
      split_ifs with hki
      · rfl
      · exact hbelow k (by omega))
  refine ⟨ys, ?_, hys, fun k => ?_⟩
  · rw [run, Stmt.run, Proc.run, hrun, Option.map_some]
  · rw [bitAt]
    by_cases hk : k / size.bits < n
    · rw [hzero _ hk, Nat.zero_testBit]
    · rw [getD_of_holds hys (by omega), Nat.zero_testBit]

/-! ## Constants -/

theorem constWord_lt (size : LimbSize) (bits : SigSpec) (i : Nat) : constWord size bits i < 2 ^ size.bits := by
  rw [constWord]
  refine Nat.lt_of_lt_of_le (ofBits_lt _) (Nat.pow_le_pow_right (by decide) ?_)
  rw [List.length_map]
  exact List.length_take_le _ _

theorem testBit_constWord (bits : SigSpec) (i : Nat) {k : Nat} (hk : k < size.bits) :
    (constWord size bits i).testBit k =
      (bits.map fun b => decide (b = .const .s1)).getD (size.bits * i + k) false := by
  rw [constWord, testBit_ofBits, List.getD_eq_getElem?_getD, List.getD_eq_getElem?_getD,
    List.getElem?_map, List.getElem?_map, List.getElem?_take, if_pos hk, List.getElem?_drop]

/-- The words with constant bits, or'ed one after another. -/
theorem materializeConst_run (bits : SigSpec) (hxs : Holds size.bits n (env.array (.loc x))) :
    ∃ ys, run size (materializeConst size (.loc x) n bits) env = some (env.setArray (.loc x) ys) ∧
      Holds size.bits n ys ∧ ∀ k, k < size.bits * n → bitAt size.bits ys k =
        (bitAt size.bits (env.array (.loc x)) k ||
          (bits.map fun b => decide (b = .const .s1)).getD k false) := by
  obtain ⟨env', hrun, ys, rfl, hys, hwords⟩ := run_block_range size
    (fun i env' => ∃ ys, env' = env.setArray (.loc x) ys ∧ Holds size.bits n ys ∧
      ∀ j, ys.getD j 0 = if j < i then (env.array (.loc x)).getD j 0 ||| constWord size bits j
        else (env.array (.loc x)).getD j 0)
    (fun i => if constWord size bits i ≠ 0 then
      orItem size (.loc x) i (wordLit size (constWord size bits i)) else .skip) (m := n)
    ⟨env.array (.loc x), (setArray_self env _).symm, hxs, fun j => (if_neg (Nat.not_lt_zero j)).symm⟩
    (by
      rintro i env' hi ⟨ys, rfl, hys, hwords⟩
      have hself : (env.setArray (.loc x) ys).array (.loc x) = ys := env.array_setArray_self _ _
      have hold : ys.getD i 0 = (env.array (.loc x)).getD i 0 := by
        rw [hwords, if_neg (Nat.lt_irrefl i)]
      by_cases hzero : constWord size bits i = 0
      · refine ⟨_, by rw [if_neg (not_not.mpr hzero), run_skip], ys, rfl, hys, fun j => ?_⟩
        rw [hwords]
        by_cases hj : j = i
        · rw [hj, if_neg (Nat.lt_irrefl i), if_pos (Nat.lt_succ_self i), hzero, Nat.or_zero]
        · have hiff : j < i ↔ j < i + 1 := by omega
          simp only [hiff]
      · have hlt := constWord_lt size bits i
        have hor := orItem_run (d := .loc x)
          (by rwa [hself]) hi (lit_has (⟨wordType size, constWord size bits i⟩ : Value)) hlt
        rw [hself, setArray_setArray] at hor
        refine ⟨_, by rw [if_pos hzero]; exact hor, _, rfl,
          hys.set (Nat.or_lt_two_pow (getD_lt hys.2 i) hlt), fun j => ?_⟩
        rw [getD_set (by rw [hys.1]; exact hi)]
        by_cases hj : j = i
        · rw [hj, if_pos rfl, if_pos (Nat.lt_succ_self i), hold]
        · have hiff : j < i ↔ j < i + 1 := by omega
          rw [if_neg hj, hwords j]
          simp only [hiff])
  refine ⟨ys, hrun, hys, fun k hk => ?_⟩
  have hW := size_pos size
  rw [bitAt, hwords, if_pos (Nat.div_lt_of_lt_mul hk), Nat.testBit_or,
    testBit_constWord bits _ (Nat.mod_lt k hW), Nat.div_add_mod, ← bitAt]

/-- A bit of a signal is a bit of a wire or a constant one. -/
theorem bit_split (σ : Valuation) (bits : SigSpec) (k : Nat) :
    (Rtlil.value σ bits).testBit k = ((bits.map (wireBit σ)).getD k false ||
      (bits.map fun b => decide (b = .const .s1)).getD k false) := by
  rw [Rtlil.value, testBit_ofBits, List.getD_eq_getElem?_getD, List.getD_eq_getElem?_getD,
    List.getD_eq_getElem?_getD, List.getElem?_map, List.getElem?_map, List.getElem?_map]
  cases bits[k]? with
  | none => rfl
  | some b => cases b <;> simp [SigBit.value, wireBit]

variable {nets : Nets} {sig : SigSpec}

/-- The value of an operand as a wide cell reads it. -/
def rawOperand (size : LimbSize) (nets : Nets) (env : CEnv) (sig : SigSpec) : Nat :=
  Rtlil.value (wireBits size env) (sig.map nets.sigmap)

theorem rawOperand_lt (size : LimbSize) (nets : Nets) (env : CEnv) (sig : SigSpec) :
    rawOperand size nets env sig < 2 ^ sig.length := by
  have hlt := value_lt (wireBits size env) (sig.map nets.sigmap)
  rwa [List.length_map] at hlt

/-- An operand in an array of words, zero-extended. -/
theorem materialize_run (henv : WellFormed size env) (hvalid : ∀ b ∈ sig, (nets.sigmap b).Valid)
    (hlen : sig.length ≤ size.bits * n) (hxs : Holds size.bits n (env.array (.loc x))) :
    ∃ ys, run size (materialize size nets (.loc x) n sig false) env =
        some (env.setArray (.loc x) ys) ∧ Holds size.bits n ys ∧
      ∀ k, k < size.bits * n → bitAt size.bits ys k = (rawOperand size nets env sig).testBit k := by
  have hflat := bits_chunks (sig.map nets.sigmap)
  have hmapped : ∀ b ∈ sig.map nets.sigmap, b.Valid := by
    intro b hb
    obtain ⟨b', hb', rfl⟩ := List.mem_map.mp hb
    exact hvalid b' hb'
  obtain ⟨as, hclear, has, hzero⟩ := clear_run hxs
  have hself : ∀ zs, (env.setArray (.loc x) zs).array (.loc x) = zs :=
    fun zs => env.array_setArray_self _ _
  obtain ⟨bs, hchunks, hbs, hbits⟩ := materializeChunks_run
    (henv.setArray_loc x as) (chunks_valid hmapped) [] (x := x) (by rwa [hself])
    (fun k => by rw [hself, hzero]; rfl)
    (by rw [List.nil_append, hflat, List.length_map]; exact hlen)
  obtain ⟨cs, hconst, hcs, hall⟩ := materializeConst_run
    (sig.map nets.sigmap) (x := x) (n := n) (by rwa [hself])
  refine ⟨cs, ?_, hcs, fun k hk => ?_⟩
  · rw [List.length_nil, setArray_setArray] at hchunks
    rw [setArray_setArray] at hconst
    rw [materialize, Stmt.block, run_seq, hclear, Option.bind_some, Stmt.block, run_seq, hchunks,
      Option.bind_some, Stmt.block, run_seq, hconst, Option.bind_some, Stmt.block, run_seq,
      if_neg (by simp), run_skip]
    rfl
  · rw [hall k hk, hself, hbits, List.nil_append, hflat, wireBits_setArray_loc, rawOperand, bit_split]

/-! ## The store of a result -/

/-- The chunk of a result, as `wslice64` reads it from the array. -/
theorem slice_eval {xs : List Nat} {pos width : Nat} (hxs : env.array wy = xs)
    (hholds : Holds size.bits n xs) (hwidth : 0 < width) (hle : width ≤ 64)
    (hpos : pos + width ≤ size.bits * n) :
    ∃ v, (Expr.call (.wslice64 wy pos width n) : CExpr).Has (Func.eval size) env uint64 v ∧
      v < 2 ^ width ∧ ∀ k < width, v.testBit k = bitAt size.bits xs (pos + k) := by
  obtain ⟨v, hv, hlt, hbits⟩ := wslice64_spec size hholds hwidth hle pos hpos
  refine ⟨v, ?_, hlt, fun k hk => ?_⟩
  · rw [Expr.Has, Expr.eval, Func.eval, hxs, hv, Option.map_some]
  · rw [hbits, decide_eq_true hk, Bool.true_and]

theorem putChunk_run (henv : WellFormed size env) {xs : List Nat} (hxs : env.array wy = xs)
    (hholds : Holds size.bits n xs) {c : Chunk} (hc : c.Valid) (pos : Nat)
    (hpos : pos + c.width ≤ size.bits * n) :
    ∃ env', run size (putChunk n pos c) env = some env' ∧
      Stored size env env' c.bits (fun k => bitAt size.bits xs (pos + k)) ∧ SameLocals env env' := by
  cases c with
  | const data =>
    refine ⟨env, rfl, ⟨henv, fun k w i hk => ?_, fun _ _ _ => rfl⟩, SameLocals.refl env⟩
    simp [Chunk.bits] at hk
  | wire w offset width =>
    obtain ⟨hwidth, hle⟩ := hc.le
    rw [Chunk.width] at hpos
    rw [putChunk]
    by_cases hw : isWide w.width = true
    · have hlimbs := le_nlimbs size w.width
      obtain ⟨r, hrun, hr, hbits⟩ := placeLoop_spec .place (size_pos size) xs width offset pos
        (henv.limbs w hw) (le_refl width) (by omega) (by rw [hholds.1]; omega)
      have hstored := stored_setArray henv hw offset width hr
        (f := fun k => bitAt size.bits xs (pos + k)) (fun k hk => by
          rw [hbits, if_pos (by omega), show offset + k - offset = k by omega]
          rfl) fun i hi => by rw [hbits, if_neg hi]
      refine ⟨_, ?_, hstored⟩
      rw [if_pos hw, run, Stmt.run, Proc.run]
      simp only [hxs, wplacew]
      rw [hrun, Option.map_some]
    · have hnarrow : isWide w.width = false := by simpa using hw
      have hw64 : w.width ≤ 64 := by simpa [isWide] using hnarrow
      obtain ⟨v, hv, hlt, hbits⟩ := slice_eval hxs hholds hwidth (by omega) hpos
      have hlt64 : v < 2 ^ 64 := Nat.lt_of_lt_of_le hlt (Nat.pow_le_pow_right (by decide) (by omega))
      rw [if_neg hw]
      by_cases hwhole : offset = 0 ∧ width = w.width
      · obtain ⟨rfl, rfl⟩ := hwhole
        have hstored := stored_set henv hnarrow 0 w.width hlt
          (f := fun k => bitAt size.bits xs (pos + k)) (fun k hk => by rw [Nat.zero_add, hbits k hk])
          fun i hi => by
            rw [testBit_of_le hlt (by omega), testBit_of_le (henv.lt w hnarrow) (by omega)]
        refine ⟨_, ?_, hstored⟩
        rw [if_pos ⟨rfl, rfl⟩, run_set hv, convert_u64 hlt64]
      · have hpart : (Expr.bin .and (.call (.wslice64 wy pos width n)) (maskLit width) : CExpr).Has
            (Func.eval size) env uint64 (v % 2 ^ width) := has_mask hv hlt64 (by omega)
        rw [Nat.mod_eq_of_lt hlt] at hpart
        obtain ⟨hstored, hlocals⟩ := stored_mergeSlice henv hnarrow hlt hle
        refine ⟨_, ?_, hstored.congr fun k hk => hbits k ?_, hlocals⟩
        · have hmerge := mergeSlice_lt (henv.lt w hnarrow) hlt hle hw64
          have hmerge64 := Nat.lt_of_lt_of_le hmerge (Nat.pow_le_pow_right (by decide) hw64)
          rw [if_neg hwhole, run_set (mergeSlice_has henv hnarrow hpart hwidth hle),
            convert_u64 hmerge64]
        · rwa [length_bits] at hk

theorem putChunks_run (henv : WellFormed size env) {xs : List Nat} (hxs : env.array wy = xs)
    (hholds : Holds size.bits n xs) {cs : List Chunk} (hcs : ∀ c ∈ cs, c.Valid)
    (hnodup : (cs.flatMap Chunk.bits).Nodup) (pos : Nat)
    (hpos : pos + (cs.flatMap Chunk.bits).length ≤ size.bits * n) :
    ∃ env', run size (putChunks n pos cs) env = some env' ∧
      Stored size env env' (cs.flatMap Chunk.bits) fun k => bitAt size.bits xs (pos + k) := by
  induction cs generalizing env pos with
  | nil => exact ⟨env, rfl, Stored.nil henv⟩
  | cons c cs ih =>
    rw [List.flatMap_cons] at hnodup hpos ⊢
    rw [List.length_append, length_bits] at hpos
    obtain ⟨env₁, hrun₁, hstored₁, hlocals⟩ :=
      putChunk_run henv hxs hholds (hcs c (by simp)) pos (by omega)
    obtain ⟨env₂, hrun₂, hstored₂⟩ := ih hstored₁.wellFormed ((hlocals.array "_wy").trans hxs)
      (fun d hd => hcs d (by simp [hd])) (List.nodup_append'.mp hnodup).2.1 (pos + c.width)
      (by omega)
    refine ⟨env₂, ?_, hstored₁.append (hstored₂.congr fun k _ => ?_) hnodup⟩
    · rw [putChunks, run_seq, hrun₁, Option.bind_some, hrun₂]
    · rw [length_bits, Nat.add_assoc]

end Yosys.Rtlil
