import Sv2ghdl.Yosys.EmitScalar

/-!
# Where a result is stored

The bits that a store sets and the frame around them, for one wire and for the chunks of an output
one after another.
-/

open Clang Yosys.WideRt

namespace Yosys.Rtlil

variable {size : LimbSize} {env env' env'' : CEnv} {f g : Nat → Bool} {s t : SigSpec}

/-- The wire bits of `bits` have been set to `f`, and no others. -/
structure Stored (size : LimbSize) (env env' : CEnv) (bits : SigSpec) (f : Nat → Bool) : Prop where
  wellFormed : WellFormed size env'
  bit : ∀ k w i, bits[k]? = some (.wire w i) → wireBits size env' w i = f k
  frame : ∀ w i, SigBit.wire w i ∉ bits → wireBits size env' w i = wireBits size env w i

/-- The locals of a statement are as they were. -/
structure SameLocals (env env' : CEnv) : Prop where
  scalar : ∀ x, env'.scalar (.loc x) = env.scalar (.loc x)
  array : ∀ x, env'.array (.loc x) = env.array (.loc x)

theorem SameLocals.refl (env : CEnv) : SameLocals env env := ⟨fun _ => rfl, fun _ => rfl⟩

theorem Stored.nil (henv : WellFormed size env) : Stored size env env [] f :=
  ⟨henv, fun k w i h => by simp at h, fun _ _ _ => rfl⟩

/-- A store after a store elsewhere. -/
theorem Stored.append (h : Stored size env env' s f)
    (h' : Stored size env' env'' t fun k => f (s.length + k)) (hnodup : (s ++ t).Nodup) :
    Stored size env env'' (s ++ t) f := by
  refine ⟨h'.wellFormed, fun k w i hk => ?_, fun w i hnot => ?_⟩
  · by_cases hlt : k < s.length
    · rw [List.getElem?_append_left hlt] at hk
      have hmem := List.mem_of_getElem? hk
      have hnot : SigBit.wire w i ∉ t := (List.nodup_append'.mp hnodup).2.2 hmem
      rw [h'.frame w i hnot, h.bit k w i hk]
    · rw [List.getElem?_append_right (by omega)] at hk
      rw [h'.bit _ w i hk, show s.length + (k - s.length) = k by omega]
  · rw [List.mem_append, not_or] at hnot
    rw [h'.frame w i hnot.2, h.frame w i hnot.1]

theorem Stored.congr (h : Stored size env env' s f) (hfg : ∀ k < s.length, f k = g k) :
    Stored size env env' s g := by
  refine ⟨h.wellFormed, fun k w i hk => ?_, h.frame⟩
  rw [h.bit k w i hk, hfg k (List.getElem?_eq_some_iff.mp hk).1]

/-! ## One wire -/

theorem mem_bits {w v : Wire} {offset width i : Nat} :
    SigBit.wire v i ∈ (Chunk.wire w offset width).bits ↔
      v = w ∧ offset ≤ i ∧ i < offset + width := by
  rw [Chunk.bits, List.mem_map]
  constructor
  · rintro ⟨j, hj, heq⟩
    injection heq with hw hi
    subst hw hi
    exact ⟨rfl, List.mem_range'_1.mp hj⟩
  · rintro ⟨rfl, hi⟩
    exact ⟨i, List.mem_range'_1.mpr hi, rfl⟩

/-- A new value for a wire of at most 64 bits. -/
theorem stored_set (henv : WellFormed size env) {w : Wire} (hw : isWide w.width = false)
    (offset width : Nat) {x : Nat} (hx : x < 2 ^ w.width)
    (hin : ∀ k < width, x.testBit (offset + k) = f k)
    (hout : ∀ i, ¬ (offset ≤ i ∧ i < offset + width) →
      x.testBit i = (env.scalar (.wire w)).pattern.testBit i) :
    Stored size env (env.set (.wire w) ⟨uint64, x⟩) (Chunk.wire w offset width).bits f ∧
      SameLocals env (env.set (.wire w) ⟨uint64, x⟩) := by
  have hne : ∀ v : Wire, v ≠ w → Var.wire v ≠ .wire w := fun v hv h => hv (Var.wire.inj h)
  have hself : ∀ i, wireBits size (env.set (.wire w) ⟨uint64, x⟩) w i = x.testBit i := by
    intro i
    rw [wireBits, if_neg (by simp [hw]), env.scalar_set_self]
  have hother : ∀ v : Wire, v ≠ w → ∀ i,
      wireBits size (env.set (.wire w) ⟨uint64, x⟩) v i = wireBits size env v i := by
    intro v hv i
    rw [wireBits, wireBits, env.scalar_set_ne (hne v hv)]
    rfl
  refine ⟨⟨⟨fun v => ?_, fun v => ?_, henv.limbs⟩, fun k v i hk => ?_, fun v i hnot => ?_⟩,
    fun y => env.scalar_set_ne (wire_ne_loc w y).symm _, fun _ => rfl⟩
  · by_cases hv : v = w
    · rw [hv, env.scalar_set_self]
    · rw [env.scalar_set_ne (hne v hv)]
      exact henv.type v
  · by_cases hv : v = w
    · rw [hv, env.scalar_set_self]
      exact fun _ => hx
    · rw [env.scalar_set_ne (hne v hv)]
      exact henv.lt v
  · obtain ⟨hk, heq⟩ := getElem?_bits hk
    injection heq with hv hi
    rw [hv, hi, hself, hin k hk]
  · by_cases hv : v = w
    · subst hv
      rw [hself, hout i fun hi => hnot (mem_bits.mpr ⟨rfl, hi⟩), wireBits, if_neg (by simp [hw])]
    · exact hother v hv i

/-- New words for a wider wire. -/
theorem stored_setArray (henv : WellFormed size env) {w : Wire} (hw : isWide w.width = true)
    (offset width : Nat) {xs : List Nat} (hxs : Holds size.bits (nlimbs size w.width) xs)
    (hin : ∀ k < width, bitAt size.bits xs (offset + k) = f k)
    (hout : ∀ i, ¬ (offset ≤ i ∧ i < offset + width) →
      bitAt size.bits xs i = bitAt size.bits (env.array (.wire w)) i) :
    Stored size env (env.setArray (.wire w) xs) (Chunk.wire w offset width).bits f ∧
      SameLocals env (env.setArray (.wire w) xs) := by
  have hne : ∀ v : Wire, v ≠ w → Var.wire v ≠ .wire w := fun v hv h => hv (Var.wire.inj h)
  have hself : ∀ i, wireBits size (env.setArray (.wire w) xs) w i = bitAt size.bits xs i := by
    intro i
    rw [wireBits, if_pos hw, env.array_setArray_self]
  have hother : ∀ v : Wire, v ≠ w → ∀ i,
      wireBits size (env.setArray (.wire w) xs) v i = wireBits size env v i := by
    intro v hv i
    rw [wireBits, wireBits, env.array_setArray_ne (hne v hv)]
    rfl
  refine ⟨⟨⟨henv.type, henv.lt, fun v hv => ?_⟩, fun k v i hk => ?_, fun v i hnot => ?_⟩,
    fun _ => rfl, fun y => env.array_setArray_ne (wire_ne_loc w y).symm _⟩
  · by_cases hvw : v = w
    · rw [hvw, env.array_setArray_self]
      exact hxs
    · rw [env.array_setArray_ne (hne v hvw)]
      exact henv.limbs v hv
  · obtain ⟨hk, heq⟩ := getElem?_bits hk
    injection heq with hv hi
    rw [hv, hi, hself, hin k hk]
  · by_cases hv : v = w
    · subst hv
      rw [hself, hout i fun hi => hnot (mem_bits.mpr ⟨rfl, hi⟩), wireBits, if_pos hw]
    · exact hother v hv i

/-! ## Scattering a scalar -/

/-- The word that the read-modify-write of a slice stores. -/
def mergeSlice (old part offset width : Nat) : Nat :=
  (old &&& (2 ^ 64 - 1 - ((2 ^ width - 1) <<< offset) % 2 ^ 64)) ||| (part <<< offset) % 2 ^ 64

theorem testBit_mergeSlice {old part offset width i : Nat} (hpart : part < 2 ^ width)
    (hi : i < 64) :
    (mergeSlice old part offset width).testBit i =
      if offset ≤ i ∧ i < offset + width then part.testBit (i - offset) else old.testBit i := by
  have hmask : ((2 ^ width - 1) <<< offset) % 2 ^ 64 < 2 ^ 64 := Nat.mod_lt _ (Nat.two_pow_pos 64)
  have hcompl : 2 ^ 64 - 1 - ((2 ^ width - 1) <<< offset) % 2 ^ 64 =
      2 ^ 64 - (((2 ^ width - 1) <<< offset) % 2 ^ 64 + 1) := by omega
  rw [mergeSlice, hcompl, Nat.testBit_or, Nat.testBit_and, Nat.testBit_two_pow_sub_succ hmask,
    Nat.testBit_mod_two_pow, Nat.testBit_mod_two_pow, Nat.testBit_shiftLeft, Nat.testBit_shiftLeft,
    Nat.testBit_two_pow_sub_one, decide_eq_true hi]
  by_cases hlow : offset ≤ i
  · by_cases hhigh : i - offset < width
    · rw [if_pos (by omega)]
      simp [hlow, hhigh]
    · have htop : part.testBit (i - offset) = false := testBit_of_le hpart (by omega)
      rw [if_neg (by omega)]
      simp [hhigh, htop]
  · rw [if_neg (by omega)]
    simp [hlow]

theorem mergeSlice_lt {old part offset width w : Nat} (hold : old < 2 ^ w) (hpart : part < 2 ^ width)
    (hle : offset + width ≤ w) (hw : w ≤ 64) : mergeSlice old part offset width < 2 ^ w := by
  have hold64 : old < 2 ^ 64 := Nat.lt_of_lt_of_le hold (Nat.pow_le_pow_right (by decide) hw)
  have hlt : mergeSlice old part offset width < 2 ^ 64 :=
    Nat.or_lt_two_pow (Nat.lt_of_le_of_lt Nat.and_le_left hold64) (Nat.mod_lt _ (Nat.two_pow_pos 64))
  refine Nat.lt_pow_two_of_testBit _ fun i hi => ?_
  by_cases hi64 : i < 64
  · rw [testBit_mergeSlice hpart hi64, if_neg (by omega), testBit_of_le hold hi]
  · exact testBit_of_le hlt (by omega)

/-- A slice of a wire of at most 64 bits is replaced. -/
theorem stored_mergeSlice (henv : WellFormed size env) {w : Wire} (hw : isWide w.width = false)
    {part offset width : Nat} (hpart : part < 2 ^ width) (hle : offset + width ≤ w.width) :
    Stored size env (env.set (.wire w)
        ⟨uint64, mergeSlice (env.scalar (.wire w)).pattern part offset width⟩)
      (Chunk.wire w offset width).bits part.testBit ∧
    SameLocals env (env.set (.wire w)
        ⟨uint64, mergeSlice (env.scalar (.wire w)).pattern part offset width⟩) := by
  have hw64 : w.width ≤ 64 := by simpa [isWide] using hw
  have hold := henv.lt w hw
  have hlt := mergeSlice_lt hold hpart hle hw64
  refine stored_set henv hw _ _ hlt (fun k hk => ?_) fun i hi => ?_
  · rw [testBit_mergeSlice hpart (by omega), if_pos (by omega),
      show offset + k - offset = k by omega]
  · by_cases hi64 : i < 64
    · rw [testBit_mergeSlice hpart hi64, if_neg hi]
    · rw [testBit_of_le hlt (by omega), testBit_of_le hold (by omega)]

/-- The expression of the read-modify-write. -/
theorem mergeSlice_has (henv : WellFormed size env) {w : Wire} (hw : isWide w.width = false)
    {part offset width : Nat} {e : CExpr} (he : e.Has (Func.eval size) env uint64 part)
    (hpos : 0 < width) (hle : offset + width ≤ w.width) :
    (Expr.bin .or
      (.bin .and (.var (.wire w)) (.not (.bin .shl (maskLit width) (intLit offset))))
      (.bin .shl e (intLit offset))).Has (Func.eval size) env uint64
      (mergeSlice (env.scalar (.wire w)).pattern part offset width) := by
  have hw64 : w.width ≤ 64 := by simpa [isWide] using hw
  have hold : (env.scalar (.wire w)).pattern < 2 ^ 64 :=
    Nat.lt_of_lt_of_le (henv.lt w hw) (Nat.pow_le_pow_right (by decide) hw64)
  have hmask : (Expr.bin .shl (maskLit width) (intLit offset) : CExpr).Has (Func.eval size) env uint64
      (((2 ^ width - 1) <<< offset) % 2 ^ 64) :=
    Expr.Has.shl (lit_has _) (by omega) (by omega)
  have hpart' : (Expr.bin .shl e (intLit offset)).Has (Func.eval size) env uint64
      ((part <<< offset) % 2 ^ 64) := he.shl (by omega) (by omega)
  exact ((var_has henv w).and hmask.not hold (by omega)).or hpart'
    (Nat.lt_of_le_of_lt Nat.and_le_left hold) (Nat.mod_lt _ (Nat.two_pow_pos 64))

theorem scatterChunk_run (henv : WellFormed size env) {v : Nat} (hv : v < 2 ^ 64)
    (hspl : env.scalar (.loc "_yspl") = ⟨uint64, v⟩) {c : Chunk} (hc : c.Valid) (pos : Nat)
    (hpos : pos + c.width ≤ 64) :
    ∃ env', run size (scatterChunk pos c) env = some env' ∧
      Stored size env env' c.bits (fun k => v.testBit (pos + k)) ∧ SameLocals env env' := by
  cases c with
  | const data =>
    refine ⟨env, rfl, ⟨henv, fun k w i hk => ?_, fun _ _ _ => rfl⟩, SameLocals.refl env⟩
    simp [Chunk.bits] at hk
  | wire w offset width =>
    obtain ⟨hwidth, hle⟩ := hc.le
    rw [Chunk.width] at hpos
    rw [scatterChunk]
    by_cases hw : isWide w.width = true
    · have hlimbs := le_nlimbs size w.width
      obtain ⟨r, hrun, hr, hbits⟩ := placeScalar_spec .place (size_pos size) v offset pos
        (henv.limbs w hw) (w := width) (by omega) (by omega)
      have hstored := stored_setArray henv hw offset width hr
        (f := fun k => v.testBit (pos + k)) (fun k hk => by
          rw [hbits, if_pos (by omega), show offset + k - offset = k by omega]
          rfl) fun i hi => by rw [hbits, if_neg hi]
      refine ⟨_, ?_, hstored⟩
      rw [if_pos hw, run, Stmt.run, Proc.run]
      simp only [hspl]
      rw [wplacewS, hrun, Option.map_some]
    · have hnarrow : isWide w.width = false := by simpa using hw
      have hw64 : w.width ≤ 64 := by simpa [isWide] using hnarrow
      have hspl' : (local_ "_yspl").Has (Func.eval size) env uint64 v := by
        rw [local_, Expr.Has, Expr.eval, hspl]
      have hshift : v >>> pos < 2 ^ 64 := Nat.lt_of_le_of_lt (Nat.shiftRight_le _ _) hv
      have hpart : (Expr.bin .and (.bin .shr (local_ "_yspl") (intLit pos)) (maskLit width)).Has
          (Func.eval size) env uint64 (v >>> pos % 2 ^ width) :=
        has_mask (hspl'.shr hv (by omega) (by omega)) hshift (by omega)
      have hlt : v >>> pos % 2 ^ width < 2 ^ width := Nat.mod_lt _ (Nat.two_pow_pos width)
      have hlt64 : v >>> pos % 2 ^ width < 2 ^ 64 := Nat.lt_of_le_of_lt (Nat.mod_le _ _) hshift
      have hbit : ∀ k < width, (v >>> pos % 2 ^ width).testBit k = v.testBit (pos + k) := by
        intro k hk
        rw [Nat.testBit_mod_two_pow, decide_eq_true hk, Bool.true_and, Nat.testBit_shiftRight]
      rw [if_neg hw]
      by_cases hwhole : offset = 0 ∧ width = w.width
      · obtain ⟨rfl, rfl⟩ := hwhole
        have hstored := stored_set henv hnarrow 0 w.width hlt
          (f := fun k => v.testBit (pos + k)) (fun k hk => by rw [Nat.zero_add, hbit k hk])
          fun i hi => by
            rw [testBit_of_le hlt (by omega), testBit_of_le (henv.lt w hnarrow) (by omega)]
        refine ⟨_, ?_, hstored⟩
        rw [if_pos ⟨rfl, rfl⟩, run_set hpart, convert_u64 hlt64]
      · obtain ⟨hstored, hlocals⟩ := stored_mergeSlice henv hnarrow hlt hle
        refine ⟨_, ?_, hstored.congr fun k hk => hbit k ?_, hlocals⟩
        · have hmerge := mergeSlice_lt (henv.lt w hnarrow) hlt hle hw64
          have hmerge64 := Nat.lt_of_lt_of_le hmerge (Nat.pow_le_pow_right (by decide) hw64)
          rw [if_neg hwhole, run_set (mergeSlice_has henv hnarrow hpart hwidth hle),
            convert_u64 hmerge64]
        · rwa [length_bits] at hk

theorem scatter_run (henv : WellFormed size env) {v : Nat} (hv : v < 2 ^ 64)
    (hspl : env.scalar (.loc "_yspl") = ⟨uint64, v⟩) {cs : List Chunk} (hcs : ∀ c ∈ cs, c.Valid)
    (hnodup : (cs.flatMap Chunk.bits).Nodup) (pos : Nat)
    (hpos : pos + (cs.flatMap Chunk.bits).length ≤ 64) :
    ∃ env', run size (scatter pos cs) env = some env' ∧
      Stored size env env' (cs.flatMap Chunk.bits) fun k => v.testBit (pos + k) := by
  induction cs generalizing env pos with
  | nil => exact ⟨env, rfl, Stored.nil henv⟩
  | cons c cs ih =>
    rw [List.flatMap_cons] at hnodup hpos ⊢
    rw [List.length_append, length_bits] at hpos
    obtain ⟨env₁, hrun₁, hstored₁, hlocals⟩ :=
      scatterChunk_run henv hv hspl (hcs c (by simp)) pos (by omega)
    have hspl₁ : env₁.scalar (.loc "_yspl") = ⟨uint64, v⟩ := by rw [hlocals.scalar, hspl]
    obtain ⟨env₂, hrun₂, hstored₂⟩ := ih hstored₁.wellFormed hspl₁
      (fun d hd => hcs d (by simp [hd])) (List.nodup_append'.mp hnodup).2.1 (pos + c.width)
      (by omega)
    refine ⟨env₂, ?_, hstored₁.append (hstored₂.congr fun k _ => ?_) hnodup⟩
    · rw [scatter, run_seq, hrun₁, Option.bind_some, hrun₂]
    · rw [length_bits, Nat.add_assoc]

end Yosys.Rtlil
