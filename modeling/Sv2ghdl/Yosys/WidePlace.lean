import Sv2ghdl.Yosys.WideRt

/-!
# Bit ranges of limb arrays

The part of `WIDE_RT` and `WIDE_RT64` that copies ranges of bits: `wplace` and its relatives write a
range over the old bits, `worbits` and `worbits_s` into zeros, `wslice64` reads one.
-/

open Clang

namespace Yosys.WideRt

/-- A word takes new bits in the place of the old ones, or besides them. -/
inductive Placing where
  | place
  | or
  deriving DecidableEq, Repr

/-- `(d & ~(m << db)) | (x << db)` or `d | (x << db)` -/
def putWord (W : Nat) (p : Placing) (d m x db : Nat) : Nat :=
  match p with
  | .place => (d &&& complement W ((m <<< db) % 2 ^ W)) ||| (x <<< db) % 2 ^ W
  | .or => d ||| (x <<< db) % 2 ^ W

/-- `(n >= 32) ? 0xffffffffu : ((1u << n) - 1u)` -/
def wordMask (W n : Nat) : Nat := if W ≤ n then 2 ^ W - 1 else 2 ^ n - 1

/-- The loop that copies `w` bits, each round within one word of either array. -/
def placeLoop (W : Nat) (p : Placing) (s : List Nat) :
    (fuel : Nat) → (d : List Nat) → (doff soff w : Nat) → Option (List Nat)
  | 0, d, _, _, w => if w = 0 then some d else none
  | fuel + 1, d, doff, soff, w =>
    if w = 0 then some d
    else do
      let db := doff % W
      let sb := soff % W
      let n := min (W - max db sb) w
      let old ← d[doff / W]?
      let x ← s[soff / W]?
      let d ← store d (doff / W) (putWord W p old (wordMask W n) (x >>> sb &&& wordMask W n) db)
      placeLoop W p s fuel d (doff + n) (soff + n) (w - n)

def wplacew (W : Nat) (d : List Nat) (doff : Nat) (s : List Nat) (soff w : Nat) :
    Option (List Nat) := placeLoop W .place s w d doff soff w

def wplace (W : Nat) (d : List Nat) (doff : Nat) (s : List Nat) (w : Nat) : Option (List Nat) :=
  placeLoop W .place s w d doff 0 w

def worbits (W : Nat) (d : List Nat) (doff : Nat) (s : List Nat) (soff w : Nat) :
    Option (List Nat) := placeLoop W .or s w d doff soff w

/-- The loop that copies the `w` low bits of a scalar. -/
def placeScalarLoop (W : Nat) (p : Placing) :
    (fuel : Nat) → (d : List Nat) → (doff s w : Nat) → Option (List Nat)
  | 0, d, _, _, w => if w = 0 then some d else none
  | fuel + 1, d, doff, s, w =>
    if w = 0 then some d
    else do
      let db := doff % W
      let n := min (W - db) w
      let old ← d[doff / W]?
      let d ← store d (doff / W) (putWord W p old (wordMask W n) (s % 2 ^ W &&& wordMask W n) db)
      placeScalarLoop W p fuel d (doff + n) (s >>> n) (w - n)

/-- A shift of a 64-bit scalar by `soff` comes first. -/
def placeScalar (W : Nat) (p : Placing) (d : List Nat) (doff s soff w : Nat) :
    Option (List Nat) :=
  if soff < 64 then placeScalarLoop W p w d doff (s >>> soff) w else none

/-- `wplacew_s` -/
def wplacewS (W : Nat) := placeScalar W .place

/-- `worbits_s` -/
def worbitsS (W : Nat) := placeScalar W .or

def wplaceb (W : Nat) (d : List Nat) (off b : Nat) : Option (List Nat) := do
  let old ← d[off / W]?
  store d (off / W) (putWord W .place old 1 (b &&& 1) (off % W))

/-- The cut of `v` to `w` bits that ends `wslice64`. -/
def sliceMask (v w : Nat) : Nat := if 64 ≤ w then v else v &&& (2 ^ w - 1)

/-- `if (c) v |= f(s[i]);` -/
def orWord (c : Bool) (v : Nat) (s : List Nat) (i : Nat) (f : Nat → Nat) : Option Nat :=
  if c then s[i]?.map fun x => v ||| f x else some v

/-- The bits of the word `x` above the `64 - b` that are there already. -/
def topBits (b x : Nat) : Nat := (x <<< (64 - b)) % 2 ^ 64

def wslice64 (size : LimbSize) (s : List Nat) (off w n : Nat) : Option Nat :=
  match size with
  | .w32 => do
    let l := off / 32
    let b := off % 32
    let lo ← s[l]?
    let lo ← orWord (l + 1 < n) lo s (l + 1) (· <<< 32)
    let v ← orWord (b ≠ 0 ∧ w + b > 64 ∧ l + 2 < n) (lo >>> b) s (l + 2) (topBits b)
    pure (sliceMask v w)
  | .w64 => do
    let l := off / 64
    let b := off % 64
    let x ← s[l]?
    let v ← orWord (b ≠ 0 ∧ l + 1 < n) (x >>> b) s (l + 1) (topBits b)
    pure (sliceMask v w)

/-! ## Words -/

variable {W n : Nat}

/-- The bit `k` of an array. -/
def bitAt (W : Nat) (a : List Nat) (k : Nat) : Bool := (a.getD (k / W) 0).testBit (k % W)

theorem wordMask_of_le (h : n ≤ W) : wordMask W n = 2 ^ n - 1 := by
  unfold wordMask
  split_ifs with hn
  · rw [Nat.le_antisymm h hn]
  · rfl

theorem testBit_complement {x : Nat} (hx : x < 2 ^ W) (k : Nat) :
    (complement W x).testBit k = (decide (k < W) && !x.testBit k) := by
  rw [complement, Nat.sub_sub, Nat.add_comm 1 x]
  exact Nat.testBit_two_pow_sub_succ hx k

theorem complement_lt (x : Nat) : complement W x < 2 ^ W := by
  have := Nat.two_pow_pos W
  rw [complement]
  omega

theorem putWord_lt (p : Placing) {d : Nat} (hd : d < 2 ^ W) (m x db : Nat) :
    putWord W p d m x db < 2 ^ W := by
  have hmod : (x <<< db) % 2 ^ W < 2 ^ W := Nat.mod_lt _ (Nat.two_pow_pos W)
  cases p with
  | place => exact Nat.or_lt_two_pow (Nat.and_lt_two_pow _ (complement_lt _)) hmod
  | or => exact Nat.or_lt_two_pow hd hmod

/-- What a bit of a word is after new bits `x` were put at `[db, db + n)`. -/
def putBit (p : Placing) (old new : Bool) : Bool :=
  match p with
  | .place => new
  | .or => old || new

theorem testBit_putWord (p : Placing) (d db x : Nat) {k : Nat} (hk : k < W) :
    (putWord W p d (2 ^ n - 1) (x &&& (2 ^ n - 1)) db).testBit k =
      if db ≤ k ∧ k < db + n then putBit p (d.testBit k) (x.testBit (k - db)) else d.testBit k := by
  have hnew : (((x &&& (2 ^ n - 1)) <<< db) % 2 ^ W).testBit k =
      (decide (db ≤ k ∧ k < db + n) && x.testBit (k - db)) := by
    rw [Nat.testBit_mod_two_pow, Nat.testBit_shiftLeft, Nat.testBit_and,
      Nat.testBit_two_pow_sub_one]
    by_cases hdb : db ≤ k
    · by_cases hkn : k < db + n
      · have : k - db < n := by omega
        simp [hk, hdb, hkn, this]
      · have : ¬ k - db < n := by omega
        simp [hkn, this]
    · simp [hdb]
  cases p with
  | or =>
    rw [putWord, Nat.testBit_or, hnew, putBit]
    by_cases h : db ≤ k ∧ k < db + n
    · simp [h]
    · simp [h]
  | place =>
    have hmask : (((2 ^ n - 1) <<< db) % 2 ^ W).testBit k = decide (db ≤ k ∧ k < db + n) := by
      rw [Nat.testBit_mod_two_pow, Nat.testBit_shiftLeft, Nat.testBit_two_pow_sub_one]
      by_cases hdb : db ≤ k
      · simp only [hk, hdb, decide_true, Bool.true_and, true_and, decide_eq_decide]
        omega
      · simp [hdb]
    rw [putWord, Nat.testBit_or, Nat.testBit_and, hnew,
      testBit_complement (Nat.mod_lt _ (Nat.two_pow_pos W)), hmask, putBit]
    by_cases h : db ≤ k ∧ k < db + n
    · simp [h]
    · simp [h, hk]

/-! ## Ranges -/

theorem bitAt_mul_add (a : List Nat) (q : Nat) {r : Nat} (hr : r < W) :
    bitAt W a (W * q + r) = (a.getD q 0).testBit r := by
  have hW : 0 < W := by omega
  rw [bitAt, Nat.mul_add_div hW, Nat.mul_add_mod, Nat.div_eq_of_lt hr, Nat.mod_eq_of_lt hr,
    Nat.add_zero]

theorem bitAt_set {d : List Nat} {i : Nat} (hi : i < d.length) (x k : Nat) :
    bitAt W (d.set i x) k = if k / W = i then x.testBit (k % W) else bitAt W d k := by
  rw [bitAt, getD_set hi]
  split_ifs <;> rfl

/-- The bits of one word, counted in the array. -/
theorem in_word_iff {q r db k : Nat} (hn : db + n ≤ W) (hr : r < W) :
    (k = q ∧ db ≤ r ∧ r < db + n) ↔ (W * q + db ≤ W * k + r ∧ W * k + r < W * q + db + n) := by
  rcases Nat.lt_trichotomy k q with h | h | h
  · have hmul : W * (k + 1) ≤ W * q := Nat.mul_le_mul_left W h
    rw [Nat.mul_succ] at hmul
    omega
  · subst h
    omega
  · have hmul : W * (q + 1) ≤ W * k := Nat.mul_le_mul_left W h
    rw [Nat.mul_succ] at hmul
    omega

/-- One round: the bits `[doff, doff + n)`, within one word, take those of `x`. -/
theorem bitAt_putWord (p : Placing) {d : List Nat} {doff : Nat} (hW : 0 < W)
    (hi : doff / W < d.length) (hn : doff % W + n ≤ W) (x k : Nat) :
    bitAt W (d.set (doff / W)
        (putWord W p (d.getD (doff / W) 0) (2 ^ n - 1) (x &&& (2 ^ n - 1)) (doff % W))) k =
      if doff ≤ k ∧ k < doff + n then putBit p (bitAt W d k) (x.testBit (k - doff))
      else bitAt W d k := by
  have hr := Nat.mod_lt k hW
  have hk := Nat.div_add_mod k W
  have hdoff := Nat.div_add_mod doff W
  have hiff := in_word_iff (q := doff / W) (k := k / W) hn hr
  rw [hk, hdoff] at hiff
  rw [bitAt_set hi]
  by_cases hword : k / W = doff / W
  · rw [if_pos hword, testBit_putWord p _ _ _ hr]
    have hsame : k - doff = k % W - doff % W := by
      rw [hword] at hk
      omega
    by_cases hrange : doff % W ≤ k % W ∧ k % W < doff % W + n
    · rw [if_pos hrange, if_pos (hiff.mp ⟨hword, hrange⟩), hsame, bitAt, hword]
    · rw [if_neg hrange, if_neg fun h => hrange (hiff.mpr h).2, bitAt, hword]
  · rw [if_neg hword, if_neg fun h => hword (hiff.mpr h).1]

/-- A range that is copied in two parts. -/
theorem putBit_split (p : Placing) {doff n w : Nat} (hn : n ≤ w) (new : Nat → Bool) {old : Nat → Bool} {k : Nat} :
    (if doff + n ≤ k ∧ k < doff + n + (w - n) then
        putBit p (if doff ≤ k ∧ k < doff + n then putBit p (old k) (new k) else old k) (new k)
      else if doff ≤ k ∧ k < doff + n then putBit p (old k) (new k) else old k) =
      if doff ≤ k ∧ k < doff + w then putBit p (old k) (new k) else old k := by
  by_cases hlow : doff ≤ k ∧ k < doff + n
  · have hhigh : ¬ (doff + n ≤ k ∧ k < doff + n + (w - n)) := by omega
    have hall : doff ≤ k ∧ k < doff + w := by omega
    rw [if_neg hhigh, if_pos hlow, if_pos hall]
  · rw [if_neg hlow]
    by_cases hhigh : doff + n ≤ k ∧ k < doff + n + (w - n)
    · have hall : doff ≤ k ∧ k < doff + w := by omega
      rw [if_pos hhigh, if_pos hall]
    · have hall : ¬ (doff ≤ k ∧ k < doff + w) := by omega
      rw [if_neg hhigh, if_neg hall]

theorem placeLoop_spec (p : Placing) (hW : 0 < W) (s : List Nat) (fuel doff soff : Nat)
    {d : List Nat} {w : Nat} (hd : Holds W n d) (hfuel : w ≤ fuel) (hdoff : doff + w ≤ W * n)
    (hsoff : soff + w ≤ W * s.length) :
    ∃ r, placeLoop W p s fuel d doff soff w = some r ∧ Holds W n r ∧
      ∀ k, bitAt W r k =
        if doff ≤ k ∧ k < doff + w then putBit p (bitAt W d k) (bitAt W s (soff + (k - doff)))
        else bitAt W d k := by
  induction fuel generalizing d doff soff w with
  | zero =>
    obtain rfl : w = 0 := by omega
    refine ⟨d, by rw [placeLoop, if_pos rfl], hd, fun k => ?_⟩
    rw [if_neg (by omega)]
  | succ fuel ih =>
    by_cases hw : w = 0
    · subst hw
      refine ⟨d, by rw [placeLoop, if_pos rfl], hd, fun k => ?_⟩
      rw [if_neg (by omega)]
    · have hdb := Nat.mod_lt doff hW
      have hsb := Nat.mod_lt soff hW
      have hi : doff / W < d.length := by
        rw [hd.1]
        exact Nat.div_lt_of_lt_mul (by omega)
      have hj : soff / W < s.length := Nat.div_lt_of_lt_mul (by omega)
      -- the round copies `m` bits
      obtain ⟨m, hm⟩ : ∃ m, m = min (W - max (doff % W) (soff % W)) w := ⟨_, rfl⟩
      have hput := putWord_lt p (getD_lt hd.2 (doff / W)) (2 ^ m - 1)
        (s.getD (soff / W) 0 >>> (soff % W) &&& (2 ^ m - 1)) (doff % W)
      obtain ⟨r, hrun, hr, hbits⟩ := ih (doff + m) (soff + m)
        (hd.set (i := doff / W) hput) (w := w - m) (by omega) (by omega) (by omega)
      refine ⟨r, ?_, hr, fun k => ?_⟩
      · rw [placeLoop, if_neg hw, load_of_lt hi, load_of_lt hj]
        dsimp only [Option.bind_eq_bind, Option.bind_some]
        rw [← hm, wordMask_of_le (by omega : m ≤ W), store_of_lt hi]
        exact hrun
      · have hnew : ∀ k, doff ≤ k → k < doff + m →
            (s.getD (soff / W) 0 >>> (soff % W)).testBit (k - doff) =
              bitAt W s (soff + (k - doff)) := by
          intro k hle hlt
          have hlt' : soff % W + (k - doff) < W := by omega
          rw [Nat.testBit_shiftRight, ← bitAt_mul_add s (soff / W) hlt']
          congr 1
          have := Nat.div_add_mod soff W
          omega
        have hbase : ∀ k, bitAt W (d.set (doff / W) (putWord W p (d.getD (doff / W) 0) (2 ^ m - 1)
            (s.getD (soff / W) 0 >>> (soff % W) &&& (2 ^ m - 1)) (doff % W))) k =
            if doff ≤ k ∧ k < doff + m then
              putBit p (bitAt W d k) (bitAt W s (soff + (k - doff)))
            else bitAt W d k := by
          intro k
          rw [bitAt_putWord p hW hi (by omega)]
          by_cases h : doff ≤ k ∧ k < doff + m
          · rw [if_pos h, if_pos h, hnew k h.1 h.2]
          · rw [if_neg h, if_neg h]
        have hshift : ∀ k, doff + m ≤ k → soff + m + (k - (doff + m)) = soff + (k - doff) := by
          intro k hk
          omega
        rw [hbits, hbase, ← putBit_split p (show m ≤ w by omega)
          (fun k => bitAt W s (soff + (k - doff)))]
        by_cases hhigh : doff + m ≤ k ∧ k < doff + m + (w - m)
        · rw [if_pos hhigh, if_pos hhigh, hshift k hhigh.1]
        · rw [if_neg hhigh, if_neg hhigh]

theorem placeScalarLoop_spec (p : Placing) (hW : 0 < W) (fuel doff : Nat) {d : List Nat}
    {s w : Nat} (hd : Holds W n d) (hfuel : w ≤ fuel) (hdoff : doff + w ≤ W * n) :
    ∃ r, placeScalarLoop W p fuel d doff s w = some r ∧ Holds W n r ∧
      ∀ k, bitAt W r k =
        if doff ≤ k ∧ k < doff + w then putBit p (bitAt W d k) (s.testBit (k - doff))
        else bitAt W d k := by
  induction fuel generalizing d doff s w with
  | zero =>
    obtain rfl : w = 0 := by omega
    refine ⟨d, by rw [placeScalarLoop, if_pos rfl], hd, fun k => ?_⟩
    rw [if_neg (by omega)]
  | succ fuel ih =>
    by_cases hw : w = 0
    · subst hw
      refine ⟨d, by rw [placeScalarLoop, if_pos rfl], hd, fun k => ?_⟩
      rw [if_neg (by omega)]
    · have hdb := Nat.mod_lt doff hW
      have hi : doff / W < d.length := by
        rw [hd.1]
        exact Nat.div_lt_of_lt_mul (by omega)
      obtain ⟨m, hm⟩ : ∃ m, m = min (W - doff % W) w := ⟨_, rfl⟩
      have hput := putWord_lt p (getD_lt hd.2 (doff / W)) (2 ^ m - 1)
        (s % 2 ^ W &&& (2 ^ m - 1)) (doff % W)
      obtain ⟨r, hrun, hr, hbits⟩ := ih (doff + m)
        (hd.set (i := doff / W) hput) (s := s >>> m) (w := w - m) (by omega) (by omega)
      refine ⟨r, ?_, hr, fun k => ?_⟩
      · rw [placeScalarLoop, if_neg hw, load_of_lt hi]
        dsimp only [Option.bind_eq_bind, Option.bind_some]
        rw [← hm, wordMask_of_le (by omega : m ≤ W), store_of_lt hi]
        exact hrun
      · have hbase : ∀ k, bitAt W (d.set (doff / W) (putWord W p (d.getD (doff / W) 0) (2 ^ m - 1)
            (s % 2 ^ W &&& (2 ^ m - 1)) (doff % W))) k =
            if doff ≤ k ∧ k < doff + m then putBit p (bitAt W d k) (s.testBit (k - doff))
            else bitAt W d k := by
          intro k
          rw [bitAt_putWord p hW hi (by omega)]
          by_cases h : doff ≤ k ∧ k < doff + m
          · have hlt : k - doff < W := by omega
            rw [if_pos h, if_pos h, Nat.testBit_mod_two_pow, decide_eq_true hlt, Bool.true_and]
          · rw [if_neg h, if_neg h]
        rw [hbits, hbase, ← putBit_split p (show m ≤ w by omega)
          (fun k => s.testBit (k - doff))]
        by_cases hhigh : doff + m ≤ k ∧ k < doff + m + (w - m)
        · have hshift : m + (k - (doff + m)) = k - doff := by omega
          rw [if_pos hhigh, if_pos hhigh, Nat.testBit_shiftRight, hshift]
        · rw [if_neg hhigh, if_neg hhigh]

theorem placeScalar_spec (p : Placing) (hW : 0 < W) (s doff soff : Nat) {d : List Nat} {w : Nat}
    (hd : Holds W n d) (hsoff : soff < 64) (hdoff : doff + w ≤ W * n) :
    ∃ r, placeScalar W p d doff s soff w = some r ∧ Holds W n r ∧
      ∀ k, bitAt W r k =
        if doff ≤ k ∧ k < doff + w then putBit p (bitAt W d k) (s.testBit (soff + (k - doff)))
        else bitAt W d k := by
  obtain ⟨r, hrun, hr, hbits⟩ := placeScalarLoop_spec p hW w doff (s := s >>> soff) hd (le_refl w) hdoff
  refine ⟨r, by rw [placeScalar, if_pos hsoff, hrun], hr, fun k => ?_⟩
  rw [hbits, Nat.testBit_shiftRight]

theorem wplaceb_spec (hW : 0 < W) {d : List Nat} {off : Nat} (b : Nat) (hd : Holds W n d)
    (hoff : off < W * n) :
    ∃ r, wplaceb W d off b = some r ∧ Holds W n r ∧
      ∀ k, bitAt W r k = if k = off then b.testBit 0 else bitAt W d k := by
  have hi : off / W < d.length := by
    rw [hd.1]
    exact Nat.div_lt_of_lt_mul hoff
  have hput := putWord_lt .place (getD_lt hd.2 (off / W)) 1 (b &&& 1) (off % W)
  refine ⟨_, ?_, hd.set (i := off / W) hput, fun k => ?_⟩
  · rw [wplaceb, load_of_lt hi, Option.bind_eq_bind, Option.bind_some, store_of_lt hi]
  · have hbit := bitAt_putWord .place (n := 1) hW hi (Nat.mod_lt off hW) b k
    rw [pow_one] at hbit
    rw [hbit]
    by_cases hk : k = off
    · subst hk
      simp [putBit]
    · have hrange : ¬ (off ≤ k ∧ k < off + 1) := by omega
      rw [if_neg hrange, if_neg hk]

theorem sliceMask_spec {v w : Nat} (hw : w ≤ 64) (hv : v < 2 ^ 64) :
    sliceMask v w < 2 ^ w ∧ ∀ i, (sliceMask v w).testBit i = (decide (i < w) && v.testBit i) := by
  unfold sliceMask
  by_cases h : 64 ≤ w
  · obtain rfl : w = 64 := by omega
    rw [if_pos h]
    refine ⟨hv, fun i => ?_⟩
    by_cases hi : i < 64
    · simp [hi]
    · have hpow : v < 2 ^ i := Nat.lt_of_lt_of_le hv (Nat.pow_le_pow_right (by decide) (by omega))
      simp [hi, Nat.testBit_lt_two_pow hpow]
  · rw [if_neg h, Nat.and_two_pow_sub_one_eq_mod]
    exact ⟨Nat.mod_lt _ (Nat.two_pow_pos w), fun i => Nat.testBit_mod_two_pow _ _ _⟩

theorem getD_of_holds {s : List Nat} (hs : Holds W n s) {i : Nat} (hi : n ≤ i) :
    s.getD i 0 = 0 := by
  rw [List.getD_eq_getElem?_getD, List.getElem?_eq_none (by rw [hs.1]; exact hi)]
  rfl

theorem orWord_eq {c : Bool} {s : List Nat} {i : Nat} (h : c = true → i < s.length) (v : Nat)
    (f : Nat → Nat) :
    orWord c v s i f = some (if c then v ||| f (s.getD i 0) else v) := by
  unfold orWord
  by_cases hc : c = true
  · rw [if_pos hc, if_pos hc, load_of_lt (h hc), Option.map_some]
  · rw [if_neg hc, if_neg hc]

theorem testBit_topBits {x b i : Nat} (hb : b ≤ 64) (hi : i < 64) :
    (topBits b x).testBit i = (decide (64 ≤ b + i) && x.testBit (b + i - 64)) := by
  rw [topBits, Nat.testBit_mod_two_pow, Nat.testBit_shiftLeft, decide_eq_true hi, Bool.true_and]
  by_cases h : 64 ≤ b + i
  · have hindex : i - (64 - b) = b + i - 64 := by omega
    have hle : 64 - b ≤ i := by omega
    rw [decide_eq_true hle, decide_eq_true h, hindex]
  · have hle : ¬ 64 - b ≤ i := by omega
    rw [decide_eq_false hle, decide_eq_false h, Bool.false_and, Bool.false_and]

theorem testBit_of_le {x k i : Nat} (hx : x < 2 ^ k) (hi : k ≤ i) : x.testBit i = false :=
  Nat.testBit_lt_two_pow (Nat.lt_of_lt_of_le hx (Nat.pow_le_pow_right (by decide) hi))

/-- `(v >> b) | (x << (64 - b))`: the 64 bits from `b` on of `v` with `x` above it. -/
theorem orWord_topBits {c : Bool} {v x b w : Nat} {bit : Nat → Bool} (hb : b ≤ 64) (hw : w ≤ 64)
    (hv : v < 2 ^ 64) (hlow : ∀ j, j < 64 → v.testBit j = bit j)
    (hhigh : ∀ j, 64 ≤ j → j < b + w → x.testBit (j - 64) = bit j)
    (hc : ∀ j, c = false → 64 ≤ j → j < b + w → bit j = false) :
    (if c then v >>> b ||| topBits b x else v >>> b) < 2 ^ 64 ∧
      ∀ i, i < w → (if c then v >>> b ||| topBits b x else v >>> b).testBit i = bit (b + i) := by
  have hshift : v >>> b < 2 ^ 64 := Nat.lt_of_le_of_lt (Nat.shiftRight_le _ _) hv
  cases c with
  | true =>
    refine ⟨Nat.or_lt_two_pow hshift (Nat.mod_lt _ (Nat.two_pow_pos 64)), fun i hi => ?_⟩
    rw [if_pos rfl, Nat.testBit_or, Nat.testBit_shiftRight, testBit_topBits hb (by omega)]
    by_cases hbi : 64 ≤ b + i
    · rw [testBit_of_le hv hbi, decide_eq_true hbi, hhigh _ hbi (by omega), Bool.false_or,
        Bool.true_and]
    · rw [hlow _ (by omega), decide_eq_false hbi, Bool.false_and, Bool.or_false]
  | false =>
    refine ⟨hshift, fun i hi => ?_⟩
    rw [if_neg Bool.false_ne_true, Nat.testBit_shiftRight]
    by_cases hbi : 64 ≤ b + i
    · rw [testBit_of_le hv hbi, hc _ rfl hbi (by omega)]
    · exact hlow _ (by omega)

/-- The two words that the 32-bit form always reads. -/
theorem low_words {s : List Nat} (hs : Holds 32 n s) (l : Nat) :
    (if decide (l + 1 < n) then s.getD l 0 ||| s.getD (l + 1) 0 <<< 32 else s.getD l 0) < 2 ^ 64 ∧
      ∀ j, j < 64 →
        (if decide (l + 1 < n) then s.getD l 0 ||| s.getD (l + 1) 0 <<< 32
          else s.getD l 0).testBit j = bitAt 32 s (32 * l + j) := by
  have hx := getD_lt hs.2 l
  have hy := getD_lt hs.2 (l + 1)
  have hhigh : ∀ j, 32 ≤ j → j < 64 →
      bitAt 32 s (32 * l + j) = (s.getD (l + 1) 0).testBit (j - 32) := by
    intro j hj hj64
    rw [← bitAt_mul_add s (l + 1) (by omega : j - 32 < 32)]
    congr 1
    omega
  by_cases hl1 : l + 1 < n
  · rw [if_pos (decide_eq_true hl1)]
    refine ⟨Nat.or_lt_two_pow (by omega) ?_, fun j hj => ?_⟩
    · rw [Nat.shiftLeft_eq]
      omega
    · rw [Nat.testBit_or, Nat.testBit_shiftLeft]
      by_cases hj32 : j < 32
      · rw [bitAt_mul_add s l hj32, decide_eq_false (by omega), Bool.false_and, Bool.or_false]
      · rw [testBit_of_le hx (by omega), decide_eq_true (by omega), Bool.false_or, Bool.true_and,
          hhigh j (by omega) hj]
  · rw [if_neg (by simpa using hl1)]
    refine ⟨by omega, fun j hj => ?_⟩
    by_cases hj32 : j < 32
    · rw [bitAt_mul_add s l hj32]
    · rw [testBit_of_le hx (by omega : 32 ≤ j), hhigh j (by omega) hj,
        getD_of_holds hs (by omega : n ≤ l + 1), Nat.zero_testBit]

theorem wslice64_w32 {s : List Nat} {off w : Nat} (hs : Holds 32 n s) (hw : 0 < w) (hw64 : w ≤ 64)
    (hoff : off + w ≤ 32 * n) :
    ∃ v, wslice64 .w32 s off w n = some v ∧ v < 2 ^ w ∧
      ∀ i, v.testBit i = (decide (i < w) && bitAt 32 s (off + i)) := by
  have hlen := hs.1
  obtain ⟨l, hl⟩ : ∃ l, off / 32 = l := ⟨_, rfl⟩
  obtain ⟨b, hb⟩ : ∃ b, off % 32 = b := ⟨_, rfl⟩
  have hthird : ∀ j, 64 ≤ j → j < b + w →
      (s.getD (l + 2) 0).testBit (j - 64) = bitAt 32 s (32 * l + j) := by
    intro j hj hjw
    rw [← bitAt_mul_add s (l + 2) (by omega : j - 64 < 32)]
    congr 1
    omega
  obtain ⟨hlo, hlobit⟩ := low_words hs l
  obtain ⟨hvlt, hvbit⟩ := orWord_topBits (c := decide (b ≠ 0 ∧ w + b > 64 ∧ l + 2 < n)) (w := w)
    (by omega : b ≤ 64) hw64 hlo hlobit hthird (by
      intro j hc hj hjw
      rw [decide_eq_false_iff_not] at hc
      rw [← hthird j hj hjw, getD_of_holds hs (by omega), Nat.zero_testBit])
  obtain ⟨hlt, hbits⟩ := sliceMask_spec hw64 hvlt
  refine ⟨_, ?_, hlt, fun i => ?_⟩
  · rw [wslice64, hl, hb, load_of_lt (by omega)]
    dsimp only [Option.bind_eq_bind, Option.bind_some]
    rw [orWord_eq (by intro h; rw [decide_eq_true_eq] at h; omega), Option.bind_some,
      orWord_eq (by intro h; rw [decide_eq_true_eq] at h; omega)]
    rfl
  · rw [hbits]
    by_cases hi : i < w
    · have hindex : off + i = 32 * l + (b + i) := by omega
      rw [hvbit i hi, hindex]
    · simp [hi]

theorem wslice64_w64 {s : List Nat} {off w : Nat} (hs : Holds 64 n s) (hw : 0 < w) (hw64 : w ≤ 64)
    (hoff : off + w ≤ 64 * n) :
    ∃ v, wslice64 .w64 s off w n = some v ∧ v < 2 ^ w ∧
      ∀ i, v.testBit i = (decide (i < w) && bitAt 64 s (off + i)) := by
  have hlen := hs.1
  obtain ⟨l, hl⟩ : ∃ l, off / 64 = l := ⟨_, rfl⟩
  obtain ⟨b, hb⟩ : ∃ b, off % 64 = b := ⟨_, rfl⟩
  have hsecond : ∀ j, 64 ≤ j → j < b + w →
      (s.getD (l + 1) 0).testBit (j - 64) = bitAt 64 s (64 * l + j) := by
    intro j hj hjw
    rw [← bitAt_mul_add s (l + 1) (by omega : j - 64 < 64)]
    congr 1
    omega
  have hfirst : ∀ j, j < 64 → (s.getD l 0).testBit j = bitAt 64 s (64 * l + j) := fun j hj =>
    (bitAt_mul_add s l hj).symm
  obtain ⟨hvlt, hvbit⟩ := orWord_topBits (c := decide (b ≠ 0 ∧ l + 1 < n)) (w := w)
    (by omega : b ≤ 64) hw64 (getD_lt hs.2 l) hfirst hsecond (by
      intro j hc hj hjw
      rw [decide_eq_false_iff_not] at hc
      rw [← hsecond j hj hjw, getD_of_holds hs (by omega), Nat.zero_testBit])
  obtain ⟨hlt, hbits⟩ := sliceMask_spec hw64 hvlt
  refine ⟨_, ?_, hlt, fun i => ?_⟩
  · rw [wslice64, hl, hb, load_of_lt (by omega)]
    dsimp only [Option.bind_eq_bind, Option.bind_some]
    rw [orWord_eq (by intro h; rw [decide_eq_true_eq] at h; omega)]
    rfl
  · rw [hbits]
    by_cases hi : i < w
    · have hindex : off + i = 64 * l + (b + i) := by omega
      rw [hvbit i hi, hindex]
    · simp [hi]

/-- `wslice64` reads the bits `[off, off + w)`, with either size of limbs. -/
theorem wslice64_spec (size : LimbSize) {s : List Nat} {w : Nat} (hs : Holds size.bits n s)
    (hw : 0 < w) (hw64 : w ≤ 64) (off : Nat) (hoff : off + w ≤ size.bits * n) :
    ∃ v, wslice64 size s off w n = some v ∧ v < 2 ^ w ∧
      ∀ i, v.testBit i = (decide (i < w) && bitAt size.bits s (off + i)) := by
  cases size with
  | w32 => exact wslice64_w32 hs hw hw64 hoff
  | w64 => exact wslice64_w64 hs hw hw64 hoff

end Yosys.WideRt
