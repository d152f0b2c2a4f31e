import Sv2ghdl.Yosys.Materialize

/-!
# Copies of bit ranges

What the range functions of the wide-int runtime denote, on bits: the same for limbs of 32 and of 64 bits.  And the
single statement that `emit_materialize` prints for a range within one word does what the call does that it replaces.
-/

open Clang

namespace Yosys.WideRt

/-! ## Arrays as their bits -/

/-- A run that ends, in an array of `n` limbs whose bits are `f`. -/
def Denotes (W n : Nat) (r : Option (List Nat)) (f : Nat → Bool) : Prop :=
  ∃ ys, r = some ys ∧ Holds W n ys ∧ ∀ k, bitAt W ys k = f k

/-- The bits `old`, where `[doff, doff + w)` is written over with the bits of `new` from `soff` on. -/
def placedBits (old new : Nat → Bool) (doff soff w k : Nat) : Bool :=
  if doff ≤ k ∧ k < doff + w then new (soff + (k - doff)) else old k

/-- The bits `old`, where the bits of `new` from `soff` on are or'ed into `[doff, doff + w)`. -/
def oredBits (old new : Nat → Bool) (doff soff w k : Nat) : Bool :=
  if doff ≤ k ∧ k < doff + w then old k || new (soff + (k - doff)) else old k

variable {W n m : Nat}

/-- An array is told by its bits. -/
theorem Holds.ext {xs ys : List Nat} (hxs : Holds W n xs) (hys : Holds W n ys)
    (h : ∀ k, bitAt W xs k = bitAt W ys k) : xs = ys := by
  apply List.ext_getElem (hxs.1.trans hys.1.symm)
  intro i hi hi'
  apply Nat.eq_of_testBit_eq
  intro j
  by_cases hj : j < W
  · have hbit := h (W * i + j)
    rw [bitAt_mul_add xs i hj, bitAt_mul_add ys i hj] at hbit
    rw [← List.getD_eq_getElem xs 0 hi, ← List.getD_eq_getElem ys 0 hi', hbit]
  · rw [testBit_of_le (hxs.2 _ (List.getElem_mem hi)) (by omega),
      testBit_of_le (hys.2 _ (List.getElem_mem hi')) (by omega)]

theorem wplacew_denotes (hW : 0 < W) (d : Limbs W n) (s : Limbs W m) {doff soff w : Nat} (hd : doff + w ≤ W * n)
    (hs : soff + w ≤ W * m) : Denotes W n (wplacew W d.limbs doff s.limbs soff w)
      (placedBits (bitAt W d.limbs) (bitAt W s.limbs) doff soff w) :=
  placeLoop_spec .place hW s.limbs w doff soff (Limbs.holds d) (le_refl w) hd (by rw [s.length_eq]; exact hs)

theorem wplace_denotes (hW : 0 < W) (d : Limbs W n) (s : Limbs W m) {doff w : Nat} (hd : doff + w ≤ W * n)
    (hs : w ≤ W * m) : Denotes W n (wplace W d.limbs doff s.limbs w)
      (placedBits (bitAt W d.limbs) (bitAt W s.limbs) doff 0 w) :=
  placeLoop_spec .place hW s.limbs w doff 0 (Limbs.holds d) (le_refl w) hd (by rw [s.length_eq]; omega)

theorem worbits_denotes (hW : 0 < W) (d : Limbs W n) (s : Limbs W m) {doff soff w : Nat} (hd : doff + w ≤ W * n)
    (hs : soff + w ≤ W * m) : Denotes W n (worbits W d.limbs doff s.limbs soff w)
      (oredBits (bitAt W d.limbs) (bitAt W s.limbs) doff soff w) :=
  placeLoop_spec .or hW s.limbs w doff soff (Limbs.holds d) (le_refl w) hd (by rw [s.length_eq]; exact hs)

theorem wplacewS_denotes (hW : 0 < W) (d : Limbs W n) (s : Nat) {doff soff w : Nat} (hd : doff + w ≤ W * n)
    (hs : soff < 64) : Denotes W n (wplacewS W d.limbs doff s soff w)
      (placedBits (bitAt W d.limbs) s.testBit doff soff w) :=
  placeScalar_spec .place hW s doff soff (Limbs.holds d) hs hd

theorem worbitsS_denotes (hW : 0 < W) (d : Limbs W n) (s : Nat) {doff soff w : Nat} (hd : doff + w ≤ W * n)
    (hs : soff < 64) : Denotes W n (worbitsS W d.limbs doff s soff w)
      (oredBits (bitAt W d.limbs) s.testBit doff soff w) :=
  placeScalar_spec .or hW s doff soff (Limbs.holds d) hs hd

theorem wplaceb_denotes (hW : 0 < W) (d : Limbs W n) (b : Nat) {off : Nat} (hd : off < W * n) :
    Denotes W n (wplaceb W d.limbs off b) (placedBits (bitAt W d.limbs) b.testBit off 0 1) := by
  obtain ⟨r, hrun, hr, hbits⟩ := wplaceb_spec hW b (Limbs.holds d) hd
  refine ⟨r, hrun, hr, fun k => ?_⟩
  rw [hbits, placedBits]
  by_cases hk : k = off
  · subst hk
    rw [if_pos rfl, if_pos (by omega), Nat.sub_self]
  · rw [if_neg hk, if_neg (by omega)]

/-- The slice of no bits is 0; its first word is read all the same. -/
theorem wslice64_zero (size : LimbSize) (s : Limbs size.bits n) {off : Nat} (hoff : off < size.bits * n) :
    wslice64 size s.limbs off 0 n = some 0 := by
  have hlen := s.length_eq
  cases size with
  | w32 =>
    have hl : off / 32 < s.limbs.length := by
      rw [hlen]
      exact Nat.div_lt_of_lt_mul hoff
    rw [wslice64, load_of_lt hl]
    dsimp only [Option.bind_eq_bind, Option.bind_some]
    rw [orWord_eq (by intro h; rw [decide_eq_true_eq] at h; omega)]
    dsimp only [Option.bind_some]
    rw [orWord_eq (by intro h; rw [decide_eq_true_eq] at h; omega)]
    simp [sliceMask]
  | w64 =>
    have hl : off / 64 < s.limbs.length := by
      rw [hlen]
      exact Nat.div_lt_of_lt_mul hoff
    rw [wslice64, load_of_lt hl]
    dsimp only [Option.bind_eq_bind, Option.bind_some]
    rw [orWord_eq (by intro h; rw [decide_eq_true_eq] at h; omega)]
    simp [sliceMask]

/-- `wslice64` returns the bits `[off, off + w)`. -/
theorem wslice64_returns (size : LimbSize) (s : Limbs size.bits n) {off w : Nat} (hw : w ≤ 64)
    (hoff : off < size.bits * n) (hend : off + w ≤ size.bits * n) :
    ∃ v, wslice64 size s.limbs off w n = some v ∧
      ∀ i, v.testBit i = (decide (i < w) && bitAt size.bits s.limbs (off + i)) := by
  by_cases hzero : w = 0
  · subst hzero
    exact ⟨0, wslice64_zero size s hoff, by simp⟩
  · obtain ⟨v, hrun, -, hbits⟩ := wslice64_spec size (Limbs.holds s) (by omega) hw off hend
    exact ⟨v, hrun, hbits⟩

/-! ## One word -/

/-- `d[doff>>5] |= ((s[soff>>5] >> (soff&31)) & mask) << (doff&31);` -/
def foldedWord (d : List Nat) (doff : Nat) (s : List Nat) (soff w : Nat) : Option (List Nat) := do
  let old ← d[doff / 32]?
  let x ← s[soff / 32]?
  store d (doff / 32) (putWord 32 .or old (wordMask 32 w) (x >>> (soff % 32) &&& wordMask 32 w) (doff % 32))

/-- `d[doff>>5] |= ((uint32_t)(s >> soff) & mask) << (doff&31);` -/
def foldedScalar (d : List Nat) (doff s soff w : Nat) : Option (List Nat) := do
  let old ← d[doff / 32]?
  store d (doff / 32) (putWord 32 .or old (wordMask 32 w) ((s >>> soff) % 2 ^ 32 &&& wordMask 32 w) (doff % 32))

theorem placeLoop_done (W : Nat) (p : Placing) (s : List Nat) (fuel : Nat) (d : List Nat) (doff soff : Nat) :
    placeLoop W p s fuel d doff soff 0 = some d := by
  cases fuel <;> rfl

theorem placeScalarLoop_done (W : Nat) (p : Placing) (fuel : Nat) (d : List Nat) (doff s : Nat) :
    placeScalarLoop W p fuel d doff s 0 = some d := by
  cases fuel <;> rfl

/-- Within one word on both sides the loop of `worbits` goes round once. -/
theorem foldedWord_eq (d s : List Nat) {doff soff w : Nat} (hw : 0 < w) (hd : doff % 32 + w ≤ 32)
    (hs : soff % 32 + w ≤ 32) : foldedWord d doff s soff w = worbits 32 d doff s soff w := by
  obtain ⟨w, rfl⟩ := Nat.exists_eq_succ_of_ne_zero (Nat.ne_of_gt hw)
  have hround : min (32 - max (doff % 32) (soff % 32)) (w + 1) = w + 1 := by omega
  rw [worbits, placeLoop, if_neg (by omega)]
  dsimp only
  rw [hround, Nat.sub_self]
  simp only [placeLoop_done]
  unfold foldedWord
  cases d[doff / 32]? with
  | none => rfl
  | some old =>
    cases s[soff / 32]? with
    | none => rfl
    | some x => exact (bind_pure _).symm

/-- A scalar is shifted into place at once. -/
theorem foldedScalar_eq (d : List Nat) (s : Nat) {doff soff w : Nat} (hw : 0 < w) (hd : doff % 32 + w ≤ 32)
    (hs : soff + w ≤ 64) : foldedScalar d doff s soff w = worbitsS 32 d doff s soff w := by
  obtain ⟨w, rfl⟩ := Nat.exists_eq_succ_of_ne_zero (Nat.ne_of_gt hw)
  have hround : min (32 - doff % 32) (w + 1) = w + 1 := by omega
  have hshift : soff < 64 := by omega
  rw [worbitsS, placeScalar, if_pos hshift, placeScalarLoop, if_neg (by omega)]
  dsimp only
  rw [hround, Nat.sub_self]
  simp only [placeScalarLoop_done]
  unfold foldedScalar
  cases d[doff / 32]? with
  | none => rfl
  | some old => exact (bind_pure _).symm

end Yosys.WideRt

namespace Yosys.Rtlil

open Yosys.WideRt

/-- The call that `emit_materialize` prints for a chunk of a wire that it does not fold. -/
def chunkCall (d : Var) (pos : Nat) (w : Wire) (offset width : Nat) : CStmt :=
  if isWide w.width then .call (.worbits d pos (.wire w) offset width)
  else .call (.worbitsS d pos (.wire w) offset width)

/-- The statement for a chunk stores what the call stores. -/
theorem materializeChunk_eq_call {size : LimbSize} {env : CEnv} {n pos offset width : Nat} {x : String} {w : Wire}
    (henv : WellFormed size env) (hxs : Holds size.bits n (env.array (.loc x)))
    (hc : (Chunk.wire w offset width).Valid) (hpos : pos + width ≤ size.bits * n) :
    run size (materializeChunk size (.loc x) pos (.wire w offset width)) env =
      run size (chunkCall (.loc x) pos w offset width) env := by
  have hW := size_pos size
  obtain ⟨hwidth, hle⟩ := hc.le
  obtain ⟨ys, hrun, hys, hbits⟩ := materializeChunk_run henv hxs hc hpos
  simp only [getD_map_bits, Chunk.width] at hbits
  -- the call leaves the same bits
  have hcall : ∀ r, Denotes size.bits n r (oredBits (bitAt size.bits (env.array (.loc x)))
      (wireBits size env w) pos offset width) → r = some ys := by
    rintro r ⟨zs, rfl, hzs, hzbits⟩
    rw [Holds.ext hzs hys]
    intro k
    rw [hzbits, hbits, oredBits]
    split_ifs with hk
    · rw [decide_eq_true (by omega), Bool.true_and]
    · rfl
  rw [hrun, chunkCall]
  split_ifs with hw
  · have hlimbs := henv.limbs w hw
    have hbound := le_nlimbs size w.width
    have hword : offset + width ≤ size.bits * nlimbs size w.width := by omega
    have hden := worbits_denotes hW (Limbs.mk (env.array (.loc x)) hxs.1 hxs.2)
      (Limbs.mk (env.array (.wire w)) hlimbs.1 hlimbs.2) hpos hword
    have hbit : bitAt size.bits (env.array (.wire w)) = wireBits size env w := by
      funext k
      rw [wireBits, if_pos hw]
    rw [hbit] at hden
    rw [run, Stmt.run, Proc.run, hcall _ hden, Option.map_some]
  · have hw64 : w.width ≤ 64 := by simpa [isWide] using hw
    have hden := worbitsS_denotes hW (Limbs.mk (env.array (.loc x)) hxs.1 hxs.2)
      (env.scalar (.wire w)).pattern hpos (show offset < 64 by omega)
    have hbit : (env.scalar (.wire w)).pattern.testBit = wireBits size env w := by
      funext k
      rw [wireBits, if_neg hw]
    rw [hbit] at hden
    rw [run, Stmt.run, Proc.run, hcall _ hden, Option.map_some]

/-! ## The ranges -/

/-- With limbs of one size, a copy puts the source's bits into the destination's range and changes no other bit, and a
    slice is the bits of its range. -/
structure RangesExact (size : LimbSize) : Prop where
  wplacew {n m : Nat} (d : Limbs size.bits n) (s : Limbs size.bits m) (doff soff w : Nat) :
    doff + w ≤ size.bits * n → soff + w ≤ size.bits * m →
    Denotes size.bits n (WideRt.wplacew size.bits d.limbs doff s.limbs soff w)
      (placedBits (bitAt size.bits d.limbs) (bitAt size.bits s.limbs) doff soff w)
  wplace {n m : Nat} (d : Limbs size.bits n) (s : Limbs size.bits m) (doff w : Nat) :
    doff + w ≤ size.bits * n → w ≤ size.bits * m →
    Denotes size.bits n (WideRt.wplace size.bits d.limbs doff s.limbs w)
      (placedBits (bitAt size.bits d.limbs) (bitAt size.bits s.limbs) doff 0 w)
  worbits {n m : Nat} (d : Limbs size.bits n) (s : Limbs size.bits m) (doff soff w : Nat) :
    doff + w ≤ size.bits * n → soff + w ≤ size.bits * m →
    Denotes size.bits n (WideRt.worbits size.bits d.limbs doff s.limbs soff w)
      (oredBits (bitAt size.bits d.limbs) (bitAt size.bits s.limbs) doff soff w)
  wplacewS {n : Nat} (d : Limbs size.bits n) (s doff soff w : Nat) :
    s < 2 ^ 64 → doff + w ≤ size.bits * n → soff < 64 → soff + w ≤ 64 →
    Denotes size.bits n (WideRt.wplacewS size.bits d.limbs doff s soff w)
      (placedBits (bitAt size.bits d.limbs) s.testBit doff soff w)
  worbitsS {n : Nat} (d : Limbs size.bits n) (s doff soff w : Nat) :
    s < 2 ^ 64 → doff + w ≤ size.bits * n → soff < 64 → soff + w ≤ 64 →
    Denotes size.bits n (WideRt.worbitsS size.bits d.limbs doff s soff w)
      (oredBits (bitAt size.bits d.limbs) s.testBit doff soff w)
  wplaceb {n : Nat} (d : Limbs size.bits n) (b off : Nat) : off < size.bits * n →
    Denotes size.bits n (WideRt.wplaceb size.bits d.limbs off b)
      (placedBits (bitAt size.bits d.limbs) b.testBit off 0 1)
  wslice64 {n : Nat} (s : Limbs size.bits n) (off w : Nat) :
    w ≤ 64 → off < size.bits * n → off + w ≤ size.bits * n →
    ∃ v, WideRt.wslice64 size s.limbs off w n = some v ∧
      ∀ i, v.testBit i = (decide (i < w) && bitAt size.bits s.limbs (off + i))

theorem rangesExact (size : LimbSize) : RangesExact size where
  wplacew d s _ _ _ hd hs := wplacew_denotes (size_pos size) d s hd hs
  wplace d s _ _ hd hs := wplace_denotes (size_pos size) d s hd hs
  worbits d s _ _ _ hd hs := worbits_denotes (size_pos size) d s hd hs
  wplacewS d s _ _ _ _ hd hs _ := wplacewS_denotes (size_pos size) d s hd hs
  worbitsS d s _ _ _ _ hd hs _ := worbitsS_denotes (size_pos size) d s hd hs
  wplaceb d b _ hd := wplaceb_denotes (size_pos size) d b hd
  wslice64 s _ _ hw hoff hend := wslice64_returns size s hw hoff hend

/-- Arrays of limbs of 32 and of 64 bits that hold the same bits. -/
abbrev SameBits (a b : List Nat) : Prop := bitAt 32 a = bitAt 64 b

/-- Two runs, with limbs of 32 and of 64 bits, that end in the same bits. -/
def Agree (r r' : Option (List Nat)) : Prop := ∃ a b, r = some a ∧ r' = some b ∧ SameBits a b

theorem agree_of_denotes {n n' : Nat} {r r' : Option (List Nat)} {f f' : Nat → Bool} (h : Denotes 32 n r f)
    (h' : Denotes 64 n' r' f') (hf : f = f') : Agree r r' := by
  obtain ⟨a, ha, -, hbits⟩ := h
  obtain ⟨b, hb, -, hbits'⟩ := h'
  exact ⟨a, b, ha, hb, funext fun k => by rw [hbits, hbits', hf]⟩

/-- Both limb sizes denote the same functions: from the same bits come the same bits. -/
structure SizesAgree : Prop where
  wplacew {n n' m m' : Nat} (d : Limbs 32 n) (d' : Limbs 64 n') (s : Limbs 32 m) (s' : Limbs 64 m')
    (doff soff w : Nat) : SameBits d.limbs d'.limbs → SameBits s.limbs s'.limbs →
    doff + w ≤ min (32 * n) (64 * n') → soff + w ≤ min (32 * m) (64 * m') →
    Agree (WideRt.wplacew 32 d.limbs doff s.limbs soff w) (WideRt.wplacew 64 d'.limbs doff s'.limbs soff w)
  wplace {n n' m m' : Nat} (d : Limbs 32 n) (d' : Limbs 64 n') (s : Limbs 32 m) (s' : Limbs 64 m') (doff w : Nat) :
    SameBits d.limbs d'.limbs → SameBits s.limbs s'.limbs →
    doff + w ≤ min (32 * n) (64 * n') → w ≤ min (32 * m) (64 * m') →
    Agree (WideRt.wplace 32 d.limbs doff s.limbs w) (WideRt.wplace 64 d'.limbs doff s'.limbs w)
  worbits {n n' m m' : Nat} (d : Limbs 32 n) (d' : Limbs 64 n') (s : Limbs 32 m) (s' : Limbs 64 m')
    (doff soff w : Nat) : SameBits d.limbs d'.limbs → SameBits s.limbs s'.limbs →
    doff + w ≤ min (32 * n) (64 * n') → soff + w ≤ min (32 * m) (64 * m') →
    Agree (WideRt.worbits 32 d.limbs doff s.limbs soff w) (WideRt.worbits 64 d'.limbs doff s'.limbs soff w)
  wplacewS {n n' : Nat} (d : Limbs 32 n) (d' : Limbs 64 n') (s doff soff w : Nat) : SameBits d.limbs d'.limbs →
    s < 2 ^ 64 → doff + w ≤ min (32 * n) (64 * n') → soff < 64 → soff + w ≤ 64 →
    Agree (WideRt.wplacewS 32 d.limbs doff s soff w) (WideRt.wplacewS 64 d'.limbs doff s soff w)
  worbitsS {n n' : Nat} (d : Limbs 32 n) (d' : Limbs 64 n') (s doff soff w : Nat) : SameBits d.limbs d'.limbs →
    s < 2 ^ 64 → doff + w ≤ min (32 * n) (64 * n') → soff < 64 → soff + w ≤ 64 →
    Agree (WideRt.worbitsS 32 d.limbs doff s soff w) (WideRt.worbitsS 64 d'.limbs doff s soff w)
  wplaceb {n n' : Nat} (d : Limbs 32 n) (d' : Limbs 64 n') (b off : Nat) : SameBits d.limbs d'.limbs →
    off < min (32 * n) (64 * n') → Agree (WideRt.wplaceb 32 d.limbs off b) (WideRt.wplaceb 64 d'.limbs off b)
  wslice64 {n n' : Nat} (s : Limbs 32 n) (s' : Limbs 64 n') (off w : Nat) : SameBits s.limbs s'.limbs →
    w ≤ 64 → off < min (32 * n) (64 * n') → off + w ≤ min (32 * n) (64 * n') →
    WideRt.wslice64 .w32 s.limbs off w n = WideRt.wslice64 .w64 s'.limbs off w n'

theorem sizesAgree : SizesAgree where
  wplacew d d' s s' doff soff w hd hs hdoff hsoff :=
    agree_of_denotes (wplacew_denotes (by decide) d s (hdoff.trans (min_le_left _ _)) (hsoff.trans (min_le_left _ _)))
      (wplacew_denotes (by decide) d' s' (hdoff.trans (min_le_right _ _)) (hsoff.trans (min_le_right _ _)))
      (by rw [hd, hs])
  wplace d d' s s' doff w hd hs hdoff hw :=
    agree_of_denotes (wplace_denotes (by decide) d s (hdoff.trans (min_le_left _ _)) (hw.trans (min_le_left _ _)))
      (wplace_denotes (by decide) d' s' (hdoff.trans (min_le_right _ _)) (hw.trans (min_le_right _ _)))
      (by rw [hd, hs])
  worbits d d' s s' doff soff w hd hs hdoff hsoff :=
    agree_of_denotes (worbits_denotes (by decide) d s (hdoff.trans (min_le_left _ _)) (hsoff.trans (min_le_left _ _)))
      (worbits_denotes (by decide) d' s' (hdoff.trans (min_le_right _ _)) (hsoff.trans (min_le_right _ _)))
      (by rw [hd, hs])
  wplacewS d d' s doff soff w hd _ hdoff hsoff _ :=
    agree_of_denotes (wplacewS_denotes (by decide) d s (hdoff.trans (min_le_left _ _)) hsoff)
      (wplacewS_denotes (by decide) d' s (hdoff.trans (min_le_right _ _)) hsoff) (by rw [hd])
  worbitsS d d' s doff soff w hd _ hdoff hsoff _ :=
    agree_of_denotes (worbitsS_denotes (by decide) d s (hdoff.trans (min_le_left _ _)) hsoff)
      (worbitsS_denotes (by decide) d' s (hdoff.trans (min_le_right _ _)) hsoff) (by rw [hd])
  wplaceb d d' b off hd hoff :=
    agree_of_denotes (wplaceb_denotes (by decide) d b (hoff.trans_le (min_le_left _ _)))
      (wplaceb_denotes (by decide) d' b (hoff.trans_le (min_le_right _ _))) (by rw [hd])
  wslice64 s s' off w hs hw hoff hend := by
    obtain ⟨v, hv, hbits⟩ := wslice64_returns .w32 s hw (hoff.trans_le (min_le_left _ _)) (hend.trans (min_le_left _ _))
    obtain ⟨v', hv', hbits'⟩ :=
      wslice64_returns .w64 s' hw (hoff.trans_le (min_le_right _ _)) (hend.trans (min_le_right _ _))
    rw [hv, hv']
    congr 1
    apply Nat.eq_of_testBit_eq
    intro i
    rw [hbits, hbits']
    exact congrArg (decide (i < w) && ·) (congrFun hs (off + i))

/-- A range within one word is copied by one statement: as `prove_worbits_peephole.c` has it, and as the statements
    that `emit_materialize` prints. -/
structure FoldsExact : Prop where
  word (d s : List Nat) (doff soff w : Nat) : 0 < w → doff % 32 + w ≤ 32 → soff % 32 + w ≤ 32 →
    foldedWord d doff s soff w = WideRt.worbits 32 d doff s soff w
  scalar (d : List Nat) (s doff soff w : Nat) : 0 < w → doff % 32 + w ≤ 32 → soff + w ≤ 64 →
    foldedScalar d doff s soff w = WideRt.worbitsS 32 d doff s soff w
  statement (size : LimbSize) (env : CEnv) (n pos offset width : Nat) (x : String) (w : Wire) :
    WellFormed size env → Holds size.bits n (env.array (.loc x)) → (Chunk.wire w offset width).Valid →
    pos + width ≤ size.bits * n →
    run size (materializeChunk size (.loc x) pos (.wire w offset width)) env =
      run size (chunkCall (.loc x) pos w offset width) env

/-- Bit-range placement is exact and local with limbs of either size, both sizes denote the same functions, and the
    single statement for a range within one word stores what the call it replaces stores. -/
theorem ranges_exact : (∀ size, RangesExact size) ∧ SizesAgree ∧ FoldsExact :=
  ⟨rangesExact, sizesAgree,
    { word := fun d s _ _ _ hw hd hs => foldedWord_eq d s hw hd hs
      scalar := fun d s _ _ _ hw hd hs => foldedScalar_eq d s hw hd hs
      statement := fun _ _ _ _ _ _ _ _ henv hxs hc hpos => materializeChunk_eq_call henv hxs hc hpos }⟩

end Yosys.Rtlil
