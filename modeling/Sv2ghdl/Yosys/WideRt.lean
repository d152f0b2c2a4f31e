import Sv2ghdl.Clang.Limbs

/-!
# The wide-integer runtime

`WIDE_RT` and `WIDE_RT64` of `yosys/gen_statemachine.cpp`: the arithmetic the generated C calls for
signals wider than 64 bits.  The two differ in the limb size `W`, 32 or 64, and the carry type has
twice as many bits.
-/

open Clang

namespace Yosys.WideRt

/-- `g_w64` -/
inductive LimbSize where
  | w32
  | w64
  deriving DecidableEq, Repr

def LimbSize.bits : LimbSize → Nat
  | .w32 => 32
  | .w64 => 64

/-- The words of the scratch array `t` of `wmul`. -/
def LimbSize.scratch : LimbSize → Nat
  | .w32 => 128
  | .w64 => 64

variable (W : Nat)

/-- A round of `c += term(i); d[i] = (uint32_t)c; c >>= 32;` -/
def carryStep (term : Nat → Option Nat) (i : Nat) (s : Nat × List Nat) :
    Option (Nat × List Nat) := do
  let v ← term i
  let c ← fits (2 * W) (s.1 + v)
  let d ← store s.2 i (c % 2 ^ W)
  pure (c / 2 ^ W, d)

/-- The loop that `wadd`, `wsub` and `wneg` are, from the carry `c`. -/
def carryLoop (term : Nat → Option Nat) (c : Nat) (d : List Nat) (n : Nat) : Option (List Nat) :=
  (forUp (carryStep W term) n (c, d)).map Prod.snd

/-- `(uint32_t)~x` -/
def complement (x : Nat) : Nat := 2 ^ W - 1 - x

def sumTerm (a b : List Nat) (i : Nat) : Option Nat := do
  let x ← a[i]?
  let y ← b[i]?
  pure (x + y)

def differenceTerm (a b : List Nat) (i : Nat) : Option Nat := do
  let x ← a[i]?
  let y ← b[i]?
  pure (x + complement W y)

def complementTerm (a : List Nat) (i : Nat) : Option Nat := do
  let x ← a[i]?
  pure (complement W x)

def wadd (d a b : List Nat) (n : Nat) : Option (List Nat) := carryLoop W (sumTerm a b) 0 d n

def wsub (d a b : List Nat) (n : Nat) : Option (List Nat) :=
  carryLoop W (differenceTerm W a b) 1 d n

def wneg (d a : List Nat) (n : Nat) : Option (List Nat) := carryLoop W (complementTerm W a) 1 d n

/-- A round of the inner loop of `wmul`. -/
def wmulStep (b : List Nat) (x i j : Nat) (s : Nat × List Nat) : Option (Nat × List Nat) := do
  let y ← b[j]?
  let z ← s.2[i + j]?
  let p ← fits (2 * W) (x * y + z + s.1)
  let t ← store s.2 (i + j) (p % 2 ^ W)
  pure (p / 2 ^ W, t)

/-- The inner loop of `wmul`: `t += x * b`, shifted by `i` words. -/
def wmulRow (t b : List Nat) (x i n : Nat) : Option (List Nat) :=
  (forUp (wmulStep W b x i) (n - i) (0, t)).map Prod.snd

/-- `t` is the scratch array as it is found on the stack. -/
def wmul (t d a b : List Nat) (n : Nat) : Option (List Nat) := do
  let t ← forUp (fun i t => store t i 0) n t
  let t ← forUp (fun i t => do
    let x ← a[i]?
    wmulRow W t b x i n) n t
  forUp (fun i d => do
    let x ← t[i]?
    store d i x) n d

/-- The word `i` of `a << (w * W + b)`. -/
def shlWord (a : List Nat) (w b i : Nat) : Option Nat :=
  if w ≤ i then do
    let x ← a[i - w]?
    if b ≠ 0 ∧ 1 ≤ i - w then do
      let y ← a[i - w - 1]?
      pure ((x <<< b) % 2 ^ W ||| y >>> (W - b))
    else pure ((x <<< b) % 2 ^ W)
  else pure 0

def wshl (d a : List Nat) (s n : Nat) : Option (List Nat) :=
  forDown (fun i d => do
    let v ← shlWord W a (s / W) (s % W) i
    store d i v) n d

/-- The word `i` of `a >> (w * W + b)`. -/
def shrWord (a : List Nat) (w b n i : Nat) : Option Nat :=
  if i + w < n then do
    let x ← a[i + w]?
    if b ≠ 0 ∧ i + w + 1 < n then do
      let y ← a[i + w + 1]?
      pure (x >>> b ||| (y <<< (W - b)) % 2 ^ W)
    else pure (x >>> b)
  else pure 0

def wshr (d a : List Nat) (s n : Nat) : Option (List Nat) :=
  forUp (fun i d => do
    let v ← shrWord W a (s / W) (s % W) n i
    store d i v) n d

/-- Compare from the top word down, up to the first difference. -/
def wult (a b : List Nat) : Nat → Option Bool
  | 0 => some false
  | i + 1 => do
    let x ← a[i]?
    let y ← b[i]?
    if x ≠ y then pure (x < y) else wult a b i

def wslt (a b : List Nat) : Nat → Option Bool
  | 0 => none
  | i + 1 => do
    let x ← a[i]?
    let y ← b[i]?
    if x >>> (W - 1) ≠ y >>> (W - 1) then pure (x >>> (W - 1) ≠ 0) else wult a b (i + 1)

/-! ## Sums -/

variable {W} {n : Nat}

/-- A destination array, of which some words are written. -/
def Holds (W n : Nat) (d : List Nat) : Prop := d.length = n ∧ ∀ x ∈ d, x < 2 ^ W

theorem Limbs.holds (a : Limbs W n) : Holds W n a.limbs := ⟨a.length_eq, a.lt⟩

theorem Holds.set {d : List Nat} (h : Holds W n d) {i x : Nat} (hx : x < 2 ^ W) :
    Holds W n (d.set i x) :=
  ⟨by rw [List.length_set, h.1], mem_set_lt h.2 hx⟩

/-- An array that holds `n` words, with the number they spell. -/
theorem Holds.limbs {d : List Nat} (h : Holds W n d) :
    ∃ r : Limbs W n, d = r.limbs ∧ r.value = prefixValue W d n :=
  ⟨⟨d, h.1, h.2⟩, rfl, Limbs.value_eq _⟩

theorem Limbs.load (a : Limbs W n) {i : Nat} (hi : i < n) :
    a.limbs[i]? = some (a.limbs.getD i 0) := load_of_lt (by rw [a.length_eq]; exact hi)

theorem two_le_base (hW : 0 < W) : 2 ≤ 2 ^ W :=
  calc 2 = 2 ^ 1 := rfl
    _ ≤ 2 ^ W := Nat.pow_le_pow_right (by decide) hW

theorem two_pow_carry (W : Nat) : 2 ^ (2 * W) = 2 ^ W * 2 ^ W := by
  rw [Nat.two_mul, Nat.pow_add]

/-- A sum of two words and a carry of one fits, and its carry is at most one. -/
theorem carry_sum (hW : 0 < W) {c v : Nat} (hc : c ≤ 1) (hv : v ≤ 2 * (2 ^ W - 1)) :
    c + v < 2 ^ (2 * W) ∧ (c + v) / 2 ^ W ≤ 1 := by
  have hB := two_le_base hW
  constructor
  · have := Nat.mul_le_mul_right (2 ^ W) hB
    rw [two_pow_carry]
    omega
  · rw [← Nat.lt_succ_iff, Nat.div_lt_iff_lt_mul (by omega)]
    omega

/-- Writing the low word of `v` and carrying the rest. -/
theorem prefixValue_carry {d : List Nat} {i : Nat} (hi : i < d.length) (v : Nat) :
    prefixValue W (d.set i (v % 2 ^ W)) (i + 1) + v / 2 ^ W * 2 ^ (W * (i + 1)) =
      prefixValue W d i + v * 2 ^ (W * i) := by
  have hv := Nat.mod_add_div v (2 ^ W)
  calc prefixValue W (d.set i (v % 2 ^ W)) (i + 1) + v / 2 ^ W * 2 ^ (W * (i + 1))
      = prefixValue W d i + (v % 2 ^ W + 2 ^ W * (v / 2 ^ W)) * 2 ^ (W * i) := by
        rw [prefixValue_set_succ hi, two_pow_limb_succ]
        ring
    _ = prefixValue W d i + v * 2 ^ (W * i) := by rw [hv]

/-- The loop adds up its terms, each at its own word. -/
theorem carryLoop_spec (hW : 0 < W) {term : Nat → Option Nat} {v : Nat → Nat}
    (hterm : ∀ i, i < n → term i = some (v i)) (hv : ∀ i, i < n → v i ≤ 2 * (2 ^ W - 1)) {c : Nat}
    (hc : c ≤ 1) (d : Limbs W n) :
    ∃ r : Limbs W n, ∃ c', carryLoop W term c d.limbs n = some r.limbs ∧
      r.value + c' * 2 ^ (W * n) = c + ∑ i ∈ Finset.range n, v i * 2 ^ (W * i) := by
  let inv : Nat → Nat × List Nat → Prop := fun i s => Holds W n s.2 ∧ s.1 ≤ 1 ∧
    prefixValue W s.2 i + s.1 * 2 ^ (W * i) = c + ∑ j ∈ Finset.range i, v j * 2 ^ (W * j)
  have hstep : ∀ i s, i < n → inv i s → ∃ s', carryStep W term i s = some s' ∧ inv (i + 1) s' := by
    rintro i ⟨c, s⟩ hi ⟨hs, hc, hvalue⟩
    have hlen : i < s.length := by rw [hs.1]; exact hi
    obtain ⟨hfits, hcarry⟩ := carry_sum hW hc (hv i hi)
    refine ⟨((c + v i) / 2 ^ W, s.set i ((c + v i) % 2 ^ W)), ?_, ?_, hcarry, ?_⟩
    · simp only [carryStep, hterm i hi, Option.bind_eq_bind, Option.bind_some, fits_of_lt hfits,
        store_of_lt hlen, Option.pure_def]
    · exact hs.set (Nat.mod_lt _ (Nat.two_pow_pos W))
    · rw [prefixValue_carry hlen, Finset.sum_range_succ, ← Nat.add_assoc, ← hvalue]
      ring
  have hinit : inv 0 (c, d.limbs) := ⟨Limbs.holds d, hc, by simp [prefixValue]⟩
  obtain ⟨⟨c', r⟩, hrun, hr, -, hvalue⟩ := forUp_rule _ _ hinit hstep
  obtain ⟨r, rfl, hrvalue⟩ := hr.limbs
  exact ⟨r, c', by rw [carryLoop, hrun]; rfl, by rw [hrvalue]; exact hvalue⟩

theorem prefixValue_eq_sum (a : List Nat) (n : Nat) :
    prefixValue W a n = ∑ i ∈ Finset.range n, a.getD i 0 * 2 ^ (W * i) := by
  induction n with
  | zero => rfl
  | succ n ih => rw [prefixValue, Finset.sum_range_succ, ih]

/-- The complements of the words spell the complement of the number. -/
theorem sum_complement (a : Limbs W n) :
    ∑ i ∈ Finset.range n, complement W (a.limbs.getD i 0) * 2 ^ (W * i) + a.value + 1 =
      2 ^ (W * n) := by
  rw [a.value_eq]
  have hprefix : ∀ m, ∑ i ∈ Finset.range m, complement W (a.limbs.getD i 0) * 2 ^ (W * i) +
      prefixValue W a.limbs m + 1 = 2 ^ (W * m) := by
    intro m
    induction m with
    | zero => simp [prefixValue]
    | succ m ih =>
      have hlimb : complement W (a.limbs.getD m 0) + a.limbs.getD m 0 + 1 = 2 ^ W := by
        have := getD_lt a.lt m
        rw [complement]
        omega
      rw [Finset.sum_range_succ, prefixValue, two_pow_limb_succ, ← hlimb]
      calc _ = (∑ i ∈ Finset.range m, complement W (a.limbs.getD i 0) * 2 ^ (W * i) +
              prefixValue W a.limbs m + 1) +
              (complement W (a.limbs.getD m 0) + a.limbs.getD m 0) * 2 ^ (W * m) := by ring
        _ = _ := by rw [ih]; ring
  exact hprefix n

theorem wadd_spec (hW : 0 < W) (d a b : Limbs W n) :
    ∃ r : Limbs W n, wadd W d.limbs a.limbs b.limbs n = some r.limbs ∧
      r.value = (a.value + b.value) % 2 ^ (W * n) := by
  have hterm : ∀ i, i < n → sumTerm a.limbs b.limbs i =
      some (a.limbs.getD i 0 + b.limbs.getD i 0) := fun i hi => by
    rw [sumTerm, Limbs.load a hi, Limbs.load b hi]
    rfl
  obtain ⟨r, c, hrun, hvalue⟩ := carryLoop_spec hW hterm
    (fun i _ => by have := getD_lt a.lt i; have := getD_lt b.lt i; omega) (Nat.zero_le 1) d
  have hsum : 0 + ∑ i ∈ Finset.range n, (a.limbs.getD i 0 + b.limbs.getD i 0) * 2 ^ (W * i) =
      a.value + b.value := by
    simp only [Nat.add_mul, Finset.sum_add_distrib, ← prefixValue_eq_sum, ← Limbs.value_eq]
    omega
  refine ⟨r, hrun, ?_⟩
  rw [← hsum, ← hvalue, Nat.add_mul_mod_self_right, Nat.mod_eq_of_lt r.value_lt]

theorem wsub_spec (hW : 0 < W) (d a b : Limbs W n) :
    ∃ r : Limbs W n, wsub W d.limbs a.limbs b.limbs n = some r.limbs ∧
      (r.value : Int) = (a.value - b.value) % 2 ^ (W * n) := by
  have hterm : ∀ i, i < n → differenceTerm W a.limbs b.limbs i =
      some (a.limbs.getD i 0 + complement W (b.limbs.getD i 0)) := fun i hi => by
    rw [differenceTerm, Limbs.load a hi, Limbs.load b hi]
    rfl
  obtain ⟨r, c, hrun, hvalue⟩ := carryLoop_spec hW hterm
    (fun i _ => by have := getD_lt a.lt i; rw [complement]; omega) (Nat.le_refl 1) d
  have hcompl := sum_complement b
  simp only [Nat.add_mul, Finset.sum_add_distrib, ← prefixValue_eq_sum, ← Limbs.value_eq] at hvalue
  refine ⟨r, hrun, ?_⟩
  have hdiff : (a.value : Int) - b.value = r.value + 2 ^ (W * n) * ((c : Int) - 1) := by
    zify at hvalue hcompl
    linear_combination -hvalue - hcompl
  have hlt : (r.value : Int) < 2 ^ (W * n) := by exact_mod_cast r.value_lt
  rw [hdiff, Int.add_mul_emod_self_left, Int.emod_eq_of_lt (by omega) hlt]

theorem wneg_spec (hW : 0 < W) (d a : Limbs W n) :
    ∃ r : Limbs W n, wneg W d.limbs a.limbs n = some r.limbs ∧
      (r.value : Int) = (-a.value) % 2 ^ (W * n) := by
  have hterm : ∀ i, i < n → complementTerm W a.limbs i =
      some (complement W (a.limbs.getD i 0)) := fun i hi => by
    rw [complementTerm, Limbs.load a hi]
    rfl
  obtain ⟨r, c, hrun, hvalue⟩ := carryLoop_spec hW hterm
    (fun i _ => by rw [complement]; omega) (Nat.le_refl 1) d
  have hcompl := sum_complement a
  refine ⟨r, hrun, ?_⟩
  have hdiff : -(a.value : Int) = r.value + 2 ^ (W * n) * ((c : Int) - 1) := by
    zify at hvalue hcompl
    linear_combination -hvalue - hcompl
  have hlt : (r.value : Int) < 2 ^ (W * n) := by exact_mod_cast r.value_lt
  rw [hdiff, Int.add_mul_emod_self_left, Int.emod_eq_of_lt (by omega) hlt]

/-! ## Products -/

theorem product_lt {x y z c : Nat} (hx : x < 2 ^ W) (hy : y < 2 ^ W) (hz : z < 2 ^ W)
    (hc : c < 2 ^ W) : x * y + z + c < 2 ^ (2 * W) := by
  obtain ⟨m, hm⟩ : ∃ m, 2 ^ W = m + 1 := ⟨2 ^ W - 1, by omega⟩
  rw [two_pow_carry]
  rw [hm] at hx hy hz hc ⊢
  have hxy := Nat.mul_le_mul (Nat.le_of_lt_succ hx) (Nat.le_of_lt_succ hy)
  calc x * y + z + c ≤ m * m + m + m := by omega
    _ < (m + 1) * (m + 1) := by ring_nf; omega

theorem div_lt_base {p : Nat} (hp : p < 2 ^ (2 * W)) : p / 2 ^ W < 2 ^ W := by
  rw [Nat.div_lt_iff_lt_mul (Nat.two_pow_pos W), ← two_pow_carry]
  exact hp

theorem wmulRow_spec {m : Nat} {t : List Nat} (ht : Holds W m t) (hnm : n ≤ m) (b : Limbs W n)
    {x i : Nat} (hx : x < 2 ^ W) (hi : i < n) :
    ∃ t', wmulRow W t b.limbs x i n = some t' ∧ Holds W m t' ∧
      prefixValue W t' n ≡ prefixValue W t n + x * b.value * 2 ^ (W * i) [MOD 2 ^ (W * n)] := by
  let inv : Nat → Nat × List Nat → Prop := fun j s => Holds W m s.2 ∧ s.1 < 2 ^ W ∧
    prefixValue W s.2 (i + j) + s.1 * 2 ^ (W * (i + j)) =
      prefixValue W t (i + j) + x * prefixValue W b.limbs j * 2 ^ (W * i) ∧
    ∀ k, i + j ≤ k → s.2.getD k 0 = t.getD k 0
  have hstep : ∀ j s, j < n - i → inv j s →
      ∃ s', wmulStep W b.limbs x i j s = some s' ∧ inv (j + 1) s' := by
    rintro j ⟨c, s⟩ hj ⟨hs, hc, hvalue, hrest⟩
    have hlen : i + j < s.length := by rw [hs.1]; omega
    have hfits := product_lt hx (getD_lt b.lt j) (getD_lt hs.2 (i + j)) hc
    let p := x * b.limbs.getD j 0 + s.getD (i + j) 0 + c
    refine ⟨(p / 2 ^ W, s.set (i + j) (p % 2 ^ W)), ?_, hs.set (Nat.mod_lt _ (Nat.two_pow_pos W)),
      div_lt_base hfits, ?_, ?_⟩
    · simp only [wmulStep, Limbs.load b (show j < n by omega), load_of_lt hlen,
        Option.bind_eq_bind, Option.bind_some, fits_of_lt hfits, store_of_lt hlen,
        Option.pure_def]
      rfl
    · show prefixValue W (s.set (i + j) _) (i + j + 1) + _ * 2 ^ (W * (i + j + 1)) =
        prefixValue W t (i + j + 1) + x * prefixValue W b.limbs (j + 1) * 2 ^ (W * i)
      have hpow : 2 ^ (W * (i + j)) = 2 ^ (W * i) * 2 ^ (W * j) := by
        rw [← Nat.pow_add, Nat.mul_add]
      rw [prefixValue_carry hlen, prefixValue, prefixValue, ← hrest (i + j) (Nat.le_refl _)]
      calc _ = (prefixValue W s (i + j) + c * 2 ^ (W * (i + j))) +
              (x * b.limbs.getD j 0 + s.getD (i + j) 0) * 2 ^ (W * (i + j)) := by ring
        _ = _ := by rw [hvalue, hpow]; ring
    · intro k hk
      rw [getD_set hlen, if_neg (by omega), hrest k (by omega)]
  have hinit : inv 0 (0, t) := ⟨ht, Nat.two_pow_pos W, by simp [prefixValue], fun _ _ => rfl⟩
  obtain ⟨⟨c, t'⟩, hrun, ht', -, hvalue, -⟩ := forUp_rule _ _ (n := n - i) hinit hstep
  refine ⟨t', by rw [wmulRow, hrun]; rfl, ht', ?_⟩
  have hin : i + (n - i) = n := by omega
  dsimp only at hvalue
  rw [hin] at hvalue
  -- the words of `b` that the row leaves out carry out of the array
  have hcut : prefixValue W b.limbs (n - i) * 2 ^ (W * i) ≡ b.value * 2 ^ (W * i)
      [MOD 2 ^ (W * n)] := by
    have hmod : prefixValue W b.limbs (n - i) ≡ b.value [MOD 2 ^ (W * (n - i))] := by
      rw [b.value_eq, ← prefixValue_mod b.lt (Nat.sub_le n i)]
      exact Nat.mod_modEq _ _
    have hpow : 2 ^ (W * n) = 2 ^ (W * (n - i)) * 2 ^ (W * i) := by
      rw [← Nat.pow_add, ← Nat.mul_add, Nat.sub_add_cancel (Nat.le_of_lt hi)]
    rw [hpow]
    exact hmod.mul_right' _
  calc prefixValue W t' n ≡ prefixValue W t' n + c * 2 ^ (W * n) [MOD 2 ^ (W * n)] :=
        (Nat.add_mul_mod_self_right _ _ _).symm
    _ = prefixValue W t n + x * (prefixValue W b.limbs (n - i) * 2 ^ (W * i)) := by
        rw [hvalue, Nat.mul_assoc]
    _ ≡ prefixValue W t n + x * (b.value * 2 ^ (W * i)) [MOD 2 ^ (W * n)] :=
        (hcut.mul_left x).add_left _
    _ = prefixValue W t n + x * b.value * 2 ^ (W * i) := by rw [Nat.mul_assoc]

theorem prefixValue_zero {t : List Nat} (h : ∀ k, k < n → t.getD k 0 = 0) :
    prefixValue W t n = 0 := by
  rw [prefixValue_eq_sum]
  exact Finset.sum_eq_zero fun k hk => by rw [h k (Finset.mem_range.mp hk), Nat.zero_mul]

theorem wmul_spec {m : Nat} (hnm : n ≤ m) (t : Limbs W m) (d a b : Limbs W n) :
    ∃ r : Limbs W n, wmul W t.limbs d.limbs a.limbs b.limbs n = some r.limbs ∧
      r.value = a.value * b.value % 2 ^ (W * n) := by
  -- clearing the scratch array
  let cleared : Nat → List Nat → Prop := fun i t => Holds W m t ∧ ∀ k, k < i → t.getD k 0 = 0
  obtain ⟨t₁, hrun₁, ht₁, hzero⟩ := forUp_rule cleared (fun i t => store t i 0) (n := n)
    (s := t.limbs) ⟨Limbs.holds t, fun k hk => by omega⟩ (by
      rintro i s hi ⟨hs, hzero⟩
      have hlen : i < s.length := by rw [hs.1]; omega
      refine ⟨_, store_of_lt hlen 0, hs.set (Nat.two_pow_pos W), fun k hk => ?_⟩
      rw [getD_set hlen]
      split_ifs with hki
      · rfl
      · exact hzero k (by omega))
  -- one row for each word of `a`
  let summed : Nat → List Nat → Prop := fun i t => Holds W m t ∧
    prefixValue W t n ≡ prefixValue W a.limbs i * b.value [MOD 2 ^ (W * n)]
  obtain ⟨t₂, hrun₂, ht₂, hsum⟩ := forUp_rule summed (fun i t => do
      let x ← a.limbs[i]?
      wmulRow W t b.limbs x i n) (n := n) (s := t₁)
    ⟨ht₁, by rw [prefixValue_zero hzero, prefixValue, Nat.zero_mul]⟩ (by
      rintro i s hi ⟨hs, hsum⟩
      obtain ⟨s', hrow, hs', hvalue⟩ := wmulRow_spec hs hnm b (getD_lt a.lt i) hi
      refine ⟨s', by rw [Limbs.load a hi]; exact hrow, hs', hvalue.trans ?_⟩
      have := hsum.add_right (a.limbs.getD i 0 * b.value * 2 ^ (W * i))
      rw [prefixValue]
      rwa [Nat.add_mul, Nat.mul_right_comm _ (2 ^ (W * i))])
  -- copying the words out
  let copied : Nat → List Nat → Prop := fun i d => Holds W n d ∧
    ∀ k, k < i → d.getD k 0 = t₂.getD k 0
  obtain ⟨r, hrun₃, hr, hcopy⟩ := forUp_rule copied (fun i d => do
      let x ← t₂[i]?
      store d i x) (n := n) (s := d.limbs) ⟨Limbs.holds d, fun k hk => by omega⟩ (by
      rintro i s hi ⟨hs, hcopy⟩
      have hlen : i < s.length := by rw [hs.1]; exact hi
      have hlen₂ : i < t₂.length := by rw [ht₂.1]; omega
      refine ⟨_, by rw [load_of_lt hlen₂]; exact store_of_lt hlen _, hs.set (getD_lt ht₂.2 i),
        fun k hk => ?_⟩
      rw [getD_set hlen]
      split_ifs with hki
      · rw [hki]
      · exact hcopy k (by omega))
  obtain ⟨r, rfl, hrvalue⟩ := hr.limbs
  refine ⟨r, ?_, ?_⟩
  · simp only [wmul, hrun₁, Option.bind_eq_bind, Option.bind_some] at hrun₂ ⊢
    rw [hrun₂, Option.bind_some]
    exact hrun₃
  · rw [hrvalue, prefixValue_congr hcopy, a.value_eq]
    have hlt := prefixValue_lt ht₂.2 n
    have hmod : prefixValue W t₂ n % 2 ^ (W * n) = _ % 2 ^ (W * n) := hsum
    rwa [Nat.mod_eq_of_lt hlt] at hmod

/-- With more words than the scratch array has, `wmul` writes behind its end. -/
theorem wmul_none {m : Nat} (hnm : m < n) (t : Limbs W m) (d a b : Limbs W n) :
    wmul W t.limbs d.limbs a.limbs b.limbs n = none := by
  have hclear : ∀ k s, Holds W m s → m < k → forUp (fun i t => store t i 0) k s = none := by
    intro k s hs hk
    induction k with
    | zero => omega
    | succ k ih =>
      rw [forUp]
      by_cases hkm : m < k
      · rw [ih hkm]
        rfl
      · have hk' : k = m := by omega
        subst hk'
        obtain ⟨s', hrun, hs'⟩ := forUp_rule (fun _ t => Holds W k t)
          (fun i t => store t i 0) (n := k) (s := s) hs fun i s hi hs =>
            ⟨_, store_of_lt (by rw [hs.1]; exact hi) 0, hs.set (Nat.two_pow_pos W)⟩
        rw [hrun, Option.bind_some, store, if_neg (by rw [hs'.1]; omega)]
  rw [wmul, hclear n t.limbs (Limbs.holds t) hnm]
  rfl

/-! ## Order -/

/-- The number an array spells in two's complement. -/
def toInt (a : Limbs W n) : Int :=
  if a.value < 2 ^ (W * n - 1) then a.value else a.value - 2 ^ (W * n)

theorem wult_below (a b : Limbs W n) {i : Nat} (hi : i ≤ n) :
    wult a.limbs b.limbs i = some (decide (prefixValue W a.limbs i < prefixValue W b.limbs i)) := by
  induction i with
  | zero => rfl
  | succ i ih =>
    have ha := prefixValue_lt a.lt i
    have hb := prefixValue_lt b.lt i
    rw [wult, Limbs.load a hi, Limbs.load b hi, Option.bind_eq_bind, Option.bind_some,
      Option.bind_some, prefixValue, prefixValue]
    -- the first difference decides: the words below are less than one unit of it
    rcases Nat.lt_trichotomy (a.limbs.getD i 0) (b.limbs.getD i 0) with h | h | h
    · have hle := Nat.mul_le_mul_right (2 ^ (W * i)) (Nat.succ_le_of_lt h)
      rw [Nat.succ_mul] at hle
      rw [if_pos (Nat.ne_of_lt h), Option.pure_def, decide_eq_true h, decide_eq_true (by omega)]
    · rw [if_neg (by rw [h]; simp), ih (by omega), h]
      simp
    · have hle := Nat.mul_le_mul_right (2 ^ (W * i)) (Nat.succ_le_of_lt h)
      rw [Nat.succ_mul] at hle
      rw [if_pos (Nat.ne_of_gt h), Option.pure_def, decide_eq_false (Nat.lt_asymm h),
        decide_eq_false (by omega)]

theorem wult_spec (a b : Limbs W n) : wult a.limbs b.limbs n = some (decide (a.value < b.value)) := by
  rw [wult_below a b (Nat.le_refl n), a.value_eq, b.value_eq]

/-- The top bit of the top word is the sign. -/
theorem sign_word (hW : 0 < W) (a : Limbs W (n + 1)) :
    a.limbs.getD n 0 >>> (W - 1) = if a.value < 2 ^ (W * (n + 1) - 1) then 0 else 1 := by
  have hlimb := getD_lt a.lt n
  have hlow := prefixValue_lt a.lt n
  have htop : 2 ^ W = 2 ^ (W - 1) * 2 := by
    rw [← Nat.pow_succ, Nat.succ_eq_add_one, Nat.sub_add_cancel hW]
  have hpow : 2 ^ (W * (n + 1) - 1) = 2 ^ (W - 1) * 2 ^ (W * n) := by
    rw [← Nat.pow_add]
    congr 1
    rw [Nat.mul_succ]
    omega
  rw [a.value_eq, prefixValue, hpow, Nat.shiftRight_eq_div_pow]
  split_ifs with h
  · refine Nat.div_eq_of_lt ?_
    by_contra hge
    have := Nat.mul_le_mul_right (2 ^ (W * n)) (Nat.not_lt.mp hge)
    omega
  · refine Nat.div_eq_of_lt_le ?_ (by omega)
    rw [Nat.one_mul]
    by_contra hlt
    have hle := Nat.mul_le_mul_right (2 ^ (W * n)) (Nat.succ_le_of_lt (Nat.not_le.mp hlt))
    rw [Nat.succ_mul] at hle
    omega

theorem wslt_spec (hW : 0 < W) (hn : 0 < n) (a b : Limbs W n) :
    wslt W a.limbs b.limbs n = some (decide (toInt a < toInt b)) := by
  obtain ⟨n, rfl⟩ : ∃ k, n = k + 1 := ⟨n - 1, by omega⟩
  have ha : (a.value : Int) < 2 ^ (W * (n + 1)) := by exact_mod_cast a.value_lt
  have hb : (b.value : Int) < 2 ^ (W * (n + 1)) := by exact_mod_cast b.value_lt
  rw [wslt, Limbs.load a (Nat.lt_succ_self n), Limbs.load b (Nat.lt_succ_self n),
    Option.bind_eq_bind, Option.bind_some, Option.bind_some, sign_word hW, sign_word hW, wult_spec, toInt, toInt]
  by_cases hsa : a.value < 2 ^ (W * (n + 1) - 1)
  · by_cases hsb : b.value < 2 ^ (W * (n + 1) - 1)
    · simp [hsa, hsb]
    · simp only [hsa, hsb, if_true, if_false]
      simp
      omega
  · by_cases hsb : b.value < 2 ^ (W * (n + 1) - 1)
    · simp only [hsa, hsb, if_true, if_false]
      simp
      omega
    · simp [hsa, hsb]

/-! ## Shifts -/

/-- An array written word by word, each the word of `x` at its place. -/
theorem value_of_words (hW : 0 < W) (r : Limbs W n) {x : Nat}
    (h : ∀ i, i < n → ∀ k, k < W → (r.limbs.getD i 0).testBit k = x.testBit (W * i + k)) :
    r.value = x % 2 ^ (W * n) := by
  rw [r.value_eq]
  exact prefixValue_of_limbs hW r.lt h

theorem testBit_value (hW : 0 < W) (a : Limbs W n) {j k : Nat} (hk : k < W) :
    a.value.testBit (W * j + k) = (a.limbs.getD j 0).testBit k := by
  rw [a.value_eq, testBit_prefixValue hW a.lt, Nat.mul_add_div hW, Nat.div_eq_of_lt hk,
    Nat.mul_add_mod, Nat.mod_eq_of_lt hk, Nat.add_zero]
  by_cases hj : j < n
  · simp [hj]
  · have hnone : a.limbs.getD j 0 = 0 := by
      rw [List.getD_eq_getElem?_getD, List.getElem?_eq_none (by rw [a.length_eq]; omega)]
      rfl
    rw [hnone]
    simp

theorem shlWord_spec (hW : 0 < W) (a : Limbs W n) (s : Nat) {i : Nat} (hi : i < n) :
    ∃ v, shlWord W a.limbs (s / W) (s % W) i = some v ∧ v < 2 ^ W ∧
      ∀ k, k < W → v.testBit k = (a.value <<< s).testBit (W * i + k) := by
  have hb : s % W < W := Nat.mod_lt s hW
  have hs : W * (s / W) + s % W = s := Nat.div_add_mod s W
  have hlow : ∀ x, (x <<< (s % W)) % 2 ^ W < 2 ^ W := fun x => Nat.mod_lt _ (Nat.two_pow_pos W)
  rw [shlWord]
  by_cases hwi : s / W ≤ i
  · obtain ⟨j, rfl⟩ : ∃ j, i = s / W + j := ⟨i - s / W, by omega⟩
    have hj : s / W + j - s / W = j := by omega
    have hindex : W * (s / W + j) = W * (s / W) + W * j := Nat.mul_add _ _ _
    have hjn : j < n := Nat.lt_of_le_of_lt (Nat.le_add_left _ _) hi
    rw [if_pos hwi, hj, Limbs.load a hjn, Option.bind_eq_bind, Option.bind_some]
    by_cases htwo : s % W ≠ 0 ∧ 1 ≤ j
    · obtain ⟨j, rfl⟩ : ∃ m, j = m + 1 := ⟨j - 1, by omega⟩
      rw [if_pos htwo, Nat.add_sub_cancel, Limbs.load a (Nat.lt_of_succ_lt hjn),
        Option.bind_some, Option.pure_def]
      refine ⟨_, rfl, Nat.or_lt_two_pow (hlow _) ?_, fun k hk => ?_⟩
      · exact Nat.lt_of_le_of_lt (Nat.shiftRight_le _ _) (getD_lt a.lt j)
      · have hword : W * (j + 1) = W * j + W := Nat.mul_succ W j
        rw [Nat.testBit_or, Nat.testBit_mod_two_pow, Nat.testBit_shiftLeft, Nat.testBit_shiftLeft,
          Nat.testBit_shiftRight]
        by_cases hkb : s % W ≤ k
        · have hbit : W * (s / W + (j + 1)) + k - s = W * (j + 1) + (k - s % W) := by omega
          have hhigh : (a.limbs.getD j 0).testBit (W - s % W + k) = false :=
            Nat.testBit_lt_two_pow (Nat.lt_of_lt_of_le (getD_lt a.lt j)
              (Nat.pow_le_pow_right (by decide) (by omega)))
          rw [hbit, testBit_value hW a (by omega), hhigh]
          have : s ≤ W * (s / W + (j + 1)) + k := by omega
          simp [hk, hkb, this]
        · have hbit : W * (s / W + (j + 1)) + k - s = W * j + (W - s % W + k) := by omega
          rw [hbit, testBit_value hW a (by omega)]
          have : s ≤ W * (s / W + (j + 1)) + k := by omega
          simp [hkb, this]
    · rw [if_neg htwo, Option.pure_def]
      refine ⟨_, rfl, hlow _, fun k hk => ?_⟩
      rw [Nat.testBit_mod_two_pow, Nat.testBit_shiftLeft, Nat.testBit_shiftLeft]
      by_cases hkb : s % W ≤ k
      · have hbit : W * (s / W + j) + k - s = W * j + (k - s % W) := by omega
        have : s ≤ W * (s / W + j) + k := by omega
        rw [hbit, testBit_value hW a (by omega)]
        simp [hk, hkb, this]
      · -- the lowest word of `a`: the bits below it are zero
        have hj0 : j = 0 := by omega
        subst hj0
        have hlow : ¬ s ≤ W * (s / W + 0) + k := by omega
        rw [decide_eq_false hkb, decide_eq_false hlow, Bool.false_and, Bool.false_and,
          Bool.and_false]
  · rw [if_neg hwi, Option.pure_def]
    refine ⟨0, rfl, Nat.two_pow_pos W, fun k hk => ?_⟩
    have hle : W * (i + 1) ≤ W * (s / W) := Nat.mul_le_mul_left W (by omega)
    rw [Nat.mul_succ] at hle
    have : ¬ s ≤ W * i + k := by omega
    rw [Nat.testBit_shiftLeft, decide_eq_false this, Bool.false_and, Nat.zero_testBit]

theorem wshl_spec (hW : 0 < W) (d a : Limbs W n) (s : Nat) :
    ∃ r : Limbs W n, wshl W d.limbs a.limbs s n = some r.limbs ∧
      r.value = (a.value <<< s) % 2 ^ (W * n) := by
  let inv : Nat → List Nat → Prop := fun i d => Holds W n d ∧
    ∀ j, i ≤ j → j < n → ∀ k, k < W → (d.getD j 0).testBit k = (a.value <<< s).testBit (W * j + k)
  have hinit : inv n d.limbs := ⟨Limbs.holds d, fun j hj hjn => by omega⟩
  obtain ⟨r, hrun, hr, hwords⟩ := forDown_rule _ (fun i d => do
    let v ← shlWord W a.limbs (s / W) (s % W) i
    store d i v) hinit (by
      rintro i e hi ⟨he, hwords⟩
      have hlen : i < e.length := by rw [he.1]; exact hi
      obtain ⟨v, hv, hlt, hbits⟩ := shlWord_spec hW a s hi
      refine ⟨_, by rw [hv]; exact store_of_lt hlen v, he.set hlt, fun j hij hjn k hk => ?_⟩
      rw [getD_set hlen]
      split_ifs with hji
      · rw [hji]
        exact hbits k hk
      · exact hwords j (by omega) hjn k hk)
  obtain ⟨r, rfl, -⟩ := hr.limbs
  exact ⟨r, hrun, value_of_words hW r fun i hi => hwords i (Nat.zero_le i) hi⟩

theorem shrWord_spec (hW : 0 < W) (a : Limbs W n) (s i : Nat) :
    ∃ v, shrWord W a.limbs (s / W) (s % W) n i = some v ∧ v < 2 ^ W ∧
      ∀ k, k < W → v.testBit k = (a.value >>> s).testBit (W * i + k) := by
  have hb : s % W < W := Nat.mod_lt s hW
  have hs : W * (s / W) + s % W = s := Nat.div_add_mod s W
  have hindex : W * (i + s / W) = W * i + W * (s / W) := Nat.mul_add _ _ _
  have hshift : ∀ x, x < 2 ^ W → x >>> (s % W) < 2 ^ W := fun x hx =>
    Nat.lt_of_le_of_lt (Nat.shiftRight_le _ _) hx
  -- a bit from word `i + s / W` on
  have hbit : ∀ k, k + s % W < W → (a.value >>> s).testBit (W * i + k) =
      (a.limbs.getD (i + s / W) 0).testBit (s % W + k) := by
    intro k hk
    have : s + (W * i + k) = W * (i + s / W) + (s % W + k) := by omega
    rw [Nat.testBit_shiftRight, this, testBit_value hW a (by omega)]
  have hbit' : ∀ k, k < W → ¬ k + s % W < W → (a.value >>> s).testBit (W * i + k) =
      (a.limbs.getD (i + s / W + 1) 0).testBit (k - (W - s % W)) := by
    intro k hk hge
    have hword : W * (i + s / W + 1) = W * (i + s / W) + W := Nat.mul_succ _ _
    have : s + (W * i + k) = W * (i + s / W + 1) + (k - (W - s % W)) := by omega
    rw [Nat.testBit_shiftRight, this, testBit_value hW a (by omega)]
  have hout : ∀ j, n ≤ j → a.limbs.getD j 0 = 0 := fun j hj => by
    rw [List.getD_eq_getElem?_getD, List.getElem?_eq_none (by rw [a.length_eq]; exact hj)]
    rfl
  rw [shrWord]
  by_cases hwi : i + s / W < n
  · rw [if_pos hwi, Limbs.load a hwi, Option.bind_eq_bind, Option.bind_some]
    by_cases htwo : s % W ≠ 0 ∧ i + s / W + 1 < n
    · rw [if_pos htwo, Limbs.load a htwo.2, Option.bind_some, Option.pure_def]
      refine ⟨_, rfl, Nat.or_lt_two_pow (hshift _ (getD_lt a.lt _))
        (Nat.mod_lt _ (Nat.two_pow_pos W)), fun k hk => ?_⟩
      rw [Nat.testBit_or, Nat.testBit_shiftRight, Nat.testBit_mod_two_pow, Nat.testBit_shiftLeft]
      by_cases hkb : k + s % W < W
      · have : ¬ W - s % W ≤ k := by omega
        rw [hbit k hkb]
        simp [this]
      · have hhigh : (a.limbs.getD (i + s / W) 0).testBit (s % W + k) = false :=
          Nat.testBit_lt_two_pow (Nat.lt_of_lt_of_le (getD_lt a.lt _)
            (Nat.pow_le_pow_right (by decide) (by omega)))
        have : W - s % W ≤ k := by omega
        rw [hbit' k hk hkb, hhigh]
        simp [hk, this]
    · rw [if_neg htwo, Option.pure_def]
      refine ⟨_, rfl, hshift _ (getD_lt a.lt _), fun k hk => ?_⟩
      rw [Nat.testBit_shiftRight]
      by_cases hkb : k + s % W < W
      · rw [hbit k hkb]
      · have hhigh : (a.limbs.getD (i + s / W) 0).testBit (s % W + k) = false :=
          Nat.testBit_lt_two_pow (Nat.lt_of_lt_of_le (getD_lt a.lt _)
            (Nat.pow_le_pow_right (by decide) (by omega)))
        rw [hbit' k hk hkb, hhigh, hout _ (by omega)]
        simp
  · rw [if_neg hwi, Option.pure_def]
    refine ⟨0, rfl, Nat.two_pow_pos W, fun k hk => ?_⟩
    by_cases hkb : k + s % W < W
    · rw [hbit k hkb, hout _ (by omega)]
      simp
    · rw [hbit' k hk hkb, hout _ (by omega)]
      simp

theorem wshr_spec (hW : 0 < W) (d a : Limbs W n) (s : Nat) :
    ∃ r : Limbs W n, wshr W d.limbs a.limbs s n = some r.limbs ∧ r.value = a.value >>> s := by
  let inv : Nat → List Nat → Prop := fun i d => Holds W n d ∧
    ∀ j, j < i → ∀ k, k < W → (d.getD j 0).testBit k = (a.value >>> s).testBit (W * j + k)
  have hinit : inv 0 d.limbs := ⟨Limbs.holds d, fun j hj => by omega⟩
  obtain ⟨r, hrun, hr, hwords⟩ := forUp_rule _ (n := n) (fun i d => do
    let v ← shrWord W a.limbs (s / W) (s % W) n i
    store d i v) hinit (by
      rintro i e hi ⟨he, hwords⟩
      have hlen : i < e.length := by rw [he.1]; exact hi
      obtain ⟨v, hv, hlt, hbits⟩ := shrWord_spec hW a s i
      refine ⟨_, by rw [hv]; exact store_of_lt hlen v, he.set hlt, fun j hij k hk => ?_⟩
      rw [getD_set hlen]
      split_ifs with hji
      · rw [hji]
        exact hbits k hk
      · exact hwords j (by omega) k hk)
  obtain ⟨r, rfl, -⟩ := hr.limbs
  refine ⟨r, hrun, ?_⟩
  rw [value_of_words hW r hwords, Nat.mod_eq_of_lt]
  exact Nat.lt_of_le_of_lt (Nat.shiftRight_le _ _) a.value_lt

/-! ## The whole runtime -/

/-- Every function of the runtime is exact on arrays of `n` words: none of its accesses leaves its
    array, no sum or product outgrows the carry type, and the result is the number it should be. -/
structure Exact (size : LimbSize) (n : Nat) : Prop where
  add : ∀ d a b : Limbs size.bits n, ∃ r : Limbs size.bits n,
    wadd size.bits d.limbs a.limbs b.limbs n = some r.limbs ∧
      r.value = (a.value + b.value) % 2 ^ (size.bits * n)
  sub : ∀ d a b : Limbs size.bits n, ∃ r : Limbs size.bits n,
    wsub size.bits d.limbs a.limbs b.limbs n = some r.limbs ∧
      (r.value : Int) = (a.value - b.value) % 2 ^ (size.bits * n)
  neg : ∀ d a : Limbs size.bits n, ∃ r : Limbs size.bits n,
    wneg size.bits d.limbs a.limbs n = some r.limbs ∧
      (r.value : Int) = (-a.value) % 2 ^ (size.bits * n)
  mul : ∀ (t : Limbs size.bits size.scratch) (d a b : Limbs size.bits n),
    ∃ r : Limbs size.bits n, wmul size.bits t.limbs d.limbs a.limbs b.limbs n = some r.limbs ∧
      r.value = a.value * b.value % 2 ^ (size.bits * n)
  ult : ∀ a b : Limbs size.bits n, wult a.limbs b.limbs n = some (decide (a.value < b.value))
  slt : ∀ a b : Limbs size.bits n, wslt size.bits a.limbs b.limbs n = some (decide (toInt a < toInt b))
  shl : ∀ (d a : Limbs size.bits n) (s : Nat), ∃ r : Limbs size.bits n,
    wshl size.bits d.limbs a.limbs s n = some r.limbs ∧
      r.value = (a.value <<< s) % 2 ^ (size.bits * n)
  shr : ∀ (d a : Limbs size.bits n) (s : Nat), ∃ r : Limbs size.bits n,
    wshr size.bits d.limbs a.limbs s n = some r.limbs ∧ r.value = a.value >>> s

/-- The array of zeros. -/
def zeros (W n : Nat) : Limbs W n where
  limbs := List.replicate n 0
  length_eq := List.length_replicate
  lt x hx := by
    rw [List.eq_of_mem_replicate hx]
    exact Nat.two_pow_pos W

/-- The runtime is exact up to the size of the scratch array of `wmul`, and no further. -/
theorem exact_iff (size : LimbSize) (n : Nat) (hn : 1 ≤ n) :
    Exact size n ↔ n ≤ size.scratch := by
  have hW : 0 < size.bits := by cases size <;> decide
  constructor
  · intro h
    by_contra hgt
    obtain ⟨r, hr, _⟩ := h.mul (zeros _ _) (zeros _ _) (zeros _ _) (zeros _ _)
    rw [wmul_none (Nat.not_le.mp hgt)] at hr
    cases hr
  · intro h
    exact ⟨wadd_spec hW, wsub_spec hW, wneg_spec hW, wmul_spec h, wult_spec, wslt_spec hW hn,
      wshl_spec hW, wshr_spec hW⟩

theorem exact_iff_three : Exact .w32 3 ↔ 3 ≤ LimbSize.scratch .w32 := exact_iff .w32 3 (by decide)

/-- A product of 4128 bits is not computed: `wmul` writes `t[128]`. -/
theorem not_exact_129 : ¬ ∀ n, 1 ≤ n → Exact .w32 n := by
  intro h
  obtain ⟨r, hr, _⟩ := (h 129 (by decide)).mul (zeros _ _) (zeros _ _) (zeros _ _) (zeros _ _)
  rw [wmul_none (by decide)] at hr
  cases hr

end Yosys.WideRt
