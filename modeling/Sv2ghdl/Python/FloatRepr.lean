import Sv2ghdl.Python.Binary64
import Sv2ghdl.Python.FloatText

/-!
# The shortest text of a float

`repr(x)` prints the shortest decimal that reads as `x`, and of those the nearest to it.  What it
prints reads back for every finite float.
-/

open Float.Model Float.Model.UnpackedFloat

namespace Python

/-- The decimal of `n` digits next to `a / b` that reads as `target`, by its digits: the nearer one
    where both neighbours do. -/
def shortestDigits (target : Float) (a b : Nat) (k : Int) (n : Nat) : Option Nat :=
  let s := scaled a b (n - 1 - k)
  let low := s.1 / s.2
  let reads (v : Nat) : Bool := decimalFloat (digitsOf v) (k + 1 - n) = target
  if reads low then some (if reads (low + 1) then roundHalfEven s.1 s.2 else low)
  else if reads (low + 1) then some (low + 1)
  else none

/-- The significant digits `v` at the scale `10 ^ e`. -/
def Decimal.ofDigitsAt (v : Nat) (e : Int) : Decimal :=
  .ofSignificand v ((digitsOf v).length + e)

/-- The shortest decimal that reads as `target`, whose value is `a / b`. -/
def shortest (target : Float) (a b : Nat) : Decimal :=
  let k := decimalExponent a b
  let found := (List.range' 1 17).findSome? fun n =>
    (shortestDigits target a b k n).map fun v => Decimal.ofDigitsAt v (k + 1 - n)
  -- seventeen digits are always enough, so the exact decimal is never needed
  found.getD (.ofDigitsAt (a * 5 ^ b.log2) (-b.log2))

/-- `repr(x)` -/
def reprFloat (x : Float) : Str := floatText 16 true (shortest x.abs) x


-- a tie between two decimals of seventeen digits goes to the even one
example : reprFloat 1125899906842624.25 = str "1125899906842624.2" := by decide +kernel

/-! ## What `repr` prints reads back -/

theorem rdropWhile_append_replicate (ds : List Nat) :
    ds = ds.rdropWhile isZero ++ List.replicate (ds.length - (ds.rdropWhile isZero).length) 0 := by
  have hsplit : ds.rdropWhile isZero ++ ds.rtakeWhile isZero = ds :=
    List.rdropWhile_append_rtakeWhile
  have hzeros : ds.rtakeWhile isZero = List.replicate (ds.rtakeWhile isZero).length 0 :=
    List.eq_replicate_iff.mpr ⟨rfl, fun d hd => by simpa [isZero] using List.mem_rtakeWhile_imp hd⟩
  have hlen := congrArg List.length hsplit
  rw [List.length_append] at hlen
  conv_lhs => rw [← hsplit, hzeros]
  congr 2
  omega

/-- Digits at a scale keep their value when the trailing zeros are dropped. -/
theorem decimalFloat_ofDigitsAt (v : Nat) (e : Int) :
    decimalFloat (Decimal.ofDigitsAt v e).digits
      ((Decimal.ofDigitsAt v e).point - (Decimal.ofDigitsAt v e).digits.length) =
      decimalFloat (digitsOf v) e := by
  by_cases hv : v = 0
  · subst hv
    rfl
  · have hdigits : (Decimal.ofDigitsAt v e).digits = (digitsOf v).rdropWhile isZero := if_neg hv
    have hlen : ((digitsOf v).rdropWhile isZero).length ≤ (digitsOf v).length :=
      (List.rdropWhile_prefix _ _).length_le
    have hback := decimalFloat_trailingZeros ((digitsOf v).rdropWhile isZero)
      ((digitsOf v).length - ((digitsOf v).rdropWhile isZero).length)
      ((digitsOf v).length + e - ((digitsOf v).rdropWhile isZero).length)
    rw [← rdropWhile_append_replicate] at hback
    rw [hdigits]
    show decimalFloat _ ((digitsOf v).length + e - _) = _
    rw [← hback]
    congr 1
    omega

theorem roundHalfEven_cases (a b : Nat) :
    roundHalfEven a b = a / b ∨ roundHalfEven a b = a / b + 1 := by
  unfold roundHalfEven
  dsimp only
  split_ifs
  · exact .inl rfl
  · exact .inr rfl
  · omega

theorem shortestDigits_reads {target : Float} {a b : Nat} {k : Int} {n v : Nat}
    (h : shortestDigits target a b k n = some v) :
    decimalFloat (digitsOf v) (k + 1 - n) = target := by
  unfold shortestDigits at h
  dsimp only at h
  split_ifs at h with hlow hhigh hhigh
  · have hv := Option.some.inj h
    rcases roundHalfEven_cases (scaled a b (n - 1 - k)).1 (scaled a b (n - 1 - k)).2 with hr | hr
    · rw [← hv, hr]
      simpa using hlow
    · rw [← hv, hr]
      simpa using hhigh
  · rw [← Option.some.inj h]
    simpa using hlow
  · rw [← Option.some.inj h]
    simpa using hhigh

theorem dropWhile_digitsOf (n : Nat) : (digitsOf n).dropWhile isZero = digitsOf n := by
  by_cases hn : n = 0
  · subst hn
    rfl
  · have hlast := Nat.getLast_digit_ne_zero 10 hn
    have hne : Nat.digits 10 n ≠ [] := Nat.digits_ne_nil_iff_ne_zero.mpr hn
    rw [digitsOf, ← List.dropLast_append_getLast hne, List.reverse_append, List.reverse_singleton,
      List.singleton_append, List.dropWhile_cons_of_neg]
    simpa [isZero] using hlast

theorem ofDigits_trailingZeros (ds : List Nat) (k : Nat) :
    ofDigits (ds ++ List.replicate k 0) = ofDigits ds * 10 ^ k := by
  rw [ofDigits, List.reverse_append, List.reverse_replicate, Nat.ofDigits_append,
    Nat.ofDigits_replicate_zero, List.length_replicate, ofDigits, Nat.zero_add, Nat.mul_comm]

/-- The exact decimal of a canonical number reads as that number. -/
theorem decimalFloat_exact {m : Nat} {e : Int} (h : Binary64.Canonical m e) :
    decimalFloat (digitsOf (m * 2 ^ e.toNat * 5 ^ (-e).toNat)) (-(-e).toNat) =
      .ofModel (Float.Model.pack (.finite .positive m e h.pos)) := by
  let v := m * 2 ^ e.toNat * 5 ^ (-e).toNat
  let sig := (digitsOf v).rdropWhile isZero
  let t := (digitsOf v).length - sig.length
  have hlen : sig.length ≤ (digitsOf v).length := (List.rdropWhile_prefix _ _).length_le
  have hv : ofDigits sig * 10 ^ t = v := by
    rw [← ofDigits_trailingZeros, ← rdropWhile_append_replicate, ofDigits_digitsOf]
  have hexp : -((-e).toNat : Int) + (((digitsOf v).length : Int) - sig.length) = t - (-e).toNat := by
    omega
  have hfive : (10 : Nat) ^ (-e).toNat = 5 ^ (-e).toNat * 2 ^ (-e).toNat := by
    rw [← Nat.mul_pow]
  show Float.ofModel (.ofScientific (ofDigits (((digitsOf v).dropWhile isZero).rdropWhile isZero))
    (-((-e).toNat : Int) + ((((digitsOf v).dropWhile isZero).length : Int) -
      (((digitsOf v).dropWhile isZero).rdropWhile isZero).length))) = _
  rw [dropWhile_digitsOf, hexp]
  show Float.ofModel (Float.Model.pack (UnpackedFloat.ofScientific Format.binary64 (ofDigits sig)
    (t - (-e).toNat))) = _
  congr 2
  by_cases ht : (-e).toNat ≤ t
  · -- an integer
    obtain ⟨k, hk⟩ : ∃ k, t = (-e).toNat + k := ⟨t - (-e).toNat, by omega⟩
    rw [show (t : Int) - (-e).toNat = k by omega]
    refine Binary64.ofScientific_exact_nonneg h ?_
    have hcancel : 5 ^ (-e).toNat * (ofDigits sig * 10 ^ k * 2 ^ (-e).toNat) =
        5 ^ (-e).toNat * (m * 2 ^ e.toNat) := by
      calc 5 ^ (-e).toNat * (ofDigits sig * 10 ^ k * 2 ^ (-e).toNat)
          = ofDigits sig * (5 ^ (-e).toNat * 2 ^ (-e).toNat * 10 ^ k) := by ring
        _ = ofDigits sig * 10 ^ t := by rw [← hfive, ← Nat.pow_add, hk]
        _ = 5 ^ (-e).toNat * (m * 2 ^ e.toNat) := by rw [hv]; ring
    exact Nat.eq_of_mul_eq_mul_left (by positivity) hcancel
  · -- a fraction, so `e` is negative
    obtain ⟨k, hk⟩ : ∃ k, (-e).toNat = t + k := ⟨(-e).toNat - t, by omega⟩
    have he : e.toNat = 0 := by omega
    rw [show (t : Int) - (-e).toNat = -k by omega]
    have := h.low
    refine Binary64.ofScientific_exact_neg h (by omega) (by omega) (by omega) ?_
    have hcancel : 10 ^ t * (ofDigits sig * 2 ^ (-e).toNat) = 10 ^ t * (m * 10 ^ k) := by
      calc 10 ^ t * (ofDigits sig * 2 ^ (-e).toNat)
          = ofDigits sig * 10 ^ t * 2 ^ (-e).toNat := by ring
        _ = m * (5 ^ (-e).toNat * 2 ^ (-e).toNat) := by rw [hv]; simp only [v, he]; ring
        _ = 10 ^ t * (m * 10 ^ k) := by rw [← hfive, hk, Nat.pow_add]; ring
    exact Nat.eq_of_mul_eq_mul_left (by positivity) hcancel

/-- Whichever decimal is found, it reads as the number it was found for. -/
theorem decimalFloat_shortest {m : Nat} {e : Int} (h : Binary64.Canonical m e) :
    let target := Float.ofModel (Float.Model.pack (.finite .positive m e h.pos))
    let d := shortest target (m * 2 ^ e.toNat) (2 ^ (-e).toNat)
    decimalFloat d.digits (d.point - d.digits.length) = target := by
  intro target d
  simp only [d, shortest]
  cases hfound : (List.range' 1 17).findSome? fun n =>
      (shortestDigits target (m * 2 ^ e.toNat) (2 ^ (-e).toNat)
        (decimalExponent (m * 2 ^ e.toNat) (2 ^ (-e).toNat)) n).map fun v =>
          Decimal.ofDigitsAt v (decimalExponent (m * 2 ^ e.toNat) (2 ^ (-e).toNat) + 1 - n) with
  | some d' =>
    obtain ⟨n, _, hn⟩ := List.exists_of_findSome?_eq_some hfound
    obtain ⟨v, hv, rfl⟩ := Option.map_eq_some_iff.mp hn
    rw [Option.getD_some, decimalFloat_ofDigitsAt]
    exact shortestDigits_reads hv
  | none =>
    rw [Option.getD_none, decimalFloat_ofDigitsAt, Nat.log2_two_pow]
    exact decimalFloat_exact h

theorem abs_of_unpack {x : Float} {s : Sign} {m : Nat} {e : Int} {hm : 0 < m}
    (hx : x.toModel.unpack = .finite s m e hm) :
    x.abs = .ofModel (Float.Model.pack (.finite .positive m e hm)) := by
  show Float.ofModel (Float.Model.pack x.toModel.unpack.abs) = _
  rw [hx]
  rfl

/-- `float(repr(x)) == x` for every finite float, the signed zeros included. -/
theorem asciiFloat_reprFloat {x : Float} (hx : x.isFinite = true) : asciiFloat (reprFloat x) = some x := by
  have hback := Binary64.ofModel_pack_unpack x
  have hfinite : x.toModel.unpack.isFinite = true := hx
  unfold reprFloat floatText
  cases hu : x.toModel.unpack with
  | notANumber => rw [hu] at hfinite; exact absurd hfinite (by decide)
  | infinity s => rw [hu] at hfinite; exact absurd hfinite (by simp [UnpackedFloat.isFinite])
  | zero s =>
    rw [hu] at hback
    dsimp only
    rw [asciiFloat_layout, ← hback]
    cases s <;> rfl
  | finite s m e hm =>
    have hcanon := Binary64.canonical_of_unpack hu
    rw [hu] at hback
    dsimp only
    rw [abs_of_unpack hu, asciiFloat_layout]
    have := decimalFloat_shortest hcanon
    dsimp only at this
    rw [this, ← hback]
    cases s with
    | positive => rfl
    | negative =>
      show some (Float.ofModel (Float.Model.pack (UnpackedFloat.neg
        (Float.Model.pack (.finite .positive m e hm)).unpack))) = _
      rw [Binary64.unpack_pack hcanon]
      rfl

/-- `repr(x)` is a literal, with a minus sign in front where `x` has one. -/
theorem reprFloat_cases {x : Float} (hx : x.isFinite = true) :
    ∃ l : Literal, reprFloat x = l.text ∧ l.value = x ∨
      reprFloat x = ('-' : CodePoint) :: l.text ∧ l.value.neg = x := by
  have hread := asciiFloat_reprFloat hx
  have hsigned : ∃ s d, reprFloat x = signText s ++ layout true 16 d := by
    have hfinite : x.toModel.unpack.isFinite = true := hx
    unfold reprFloat floatText
    cases hu : x.toModel.unpack with
    | notANumber => rw [hu] at hfinite; exact absurd hfinite (by decide)
    | infinity s => rw [hu] at hfinite; exact absurd hfinite (by simp [UnpackedFloat.isFinite])
    | zero s => exact ⟨s, _, rfl⟩
    | finite s m e hm => exact ⟨s, _, rfl⟩
  obtain ⟨s, d, hs⟩ := hsigned
  obtain ⟨l, hl⟩ := layout_literal true 16 d
  rw [hs, hl] at hread ⊢
  refine ⟨l, ?_⟩
  cases s with
  | positive =>
    left
    rw [signText, List.nil_append] at hread ⊢
    rw [l.asciiFloat_text] at hread
    exact ⟨rfl, Option.some.inj hread⟩
  | negative =>
    right
    obtain ⟨c, rest, htext, hc⟩ := l.text_head
    have hvalue := l.unsignedFloat_text
    rw [signText, List.singleton_append, asciiFloat, if_pos rfl, htext,
      magnitudeFloat_of_digit hc, ← htext, hvalue] at hread
    exact ⟨rfl, Option.some.inj hread⟩

end Python
