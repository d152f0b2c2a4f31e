import Mathlib.Data.List.DropRight
import Mathlib.Data.Nat.Log
import Sv2ghdl.Python.Str

/-!
# The text of a float

Python's `float` is a binary64 number, that is Lean's `Float`.  This file has its text forms:
`"%.15g"`, `repr()` and the `float()` constructor.  A decimal is read through its significant
digits only, so two spellings of one number give the same float by definition.
-/

namespace Python

/-! ## Digits -/

def digitChar (d : Nat) : CodePoint := Fin.ofNat 0x110000 (48 + d)

def digitText (ds : List Nat) : Str := ds.map digitChar

def digitValue (c : CodePoint) : Nat := c.val - 48

/-- The decimal digits of a positive number, the most significant first. -/
def digitsOf (n : Nat) : List Nat := (Nat.digits 10 n).reverse

/-- The number some digits spell, the most significant first. -/
def ofDigits (ds : List Nat) : Nat := Nat.ofDigits 10 ds.reverse

def isZero (d : Nat) : Bool := d == 0

/-- The float nearest to the number whose digits are `ds`, times `10 ^ e`. -/
def decimalFloat (ds : List Nat) (e : Int) : Float :=
  let lead := ds.dropWhile isZero
  let sig := lead.rdropWhile isZero
  .ofModel (.ofScientific (ofDigits sig) (e + (lead.length - sig.length)))

theorem val_digitChar {d : Nat} (hd : d < 10) : (digitChar d).val = 48 + d :=
  CodePoint.val_ofNat (by omega)

theorem isAsciiDigit_digitChar {d : Nat} (hd : d < 10) : (digitChar d).isAsciiDigit = true := by
  simp only [CodePoint.isAsciiDigit, val_digitChar hd, Bool.and_eq_true, decide_eq_true_eq]
  omega

theorem digitValue_digitText {ds : List Nat} (h : ∀ d ∈ ds, d < 10) :
    (digitText ds).map digitValue = ds := by
  rw [digitText, List.map_map]
  conv_rhs => rw [← List.map_id ds]
  refine List.map_congr_left fun d hd => ?_
  rw [Function.comp_apply, digitValue, val_digitChar (h d hd), id_eq]
  omega

theorem isAsciiDigit_digitText {ds : List Nat} (h : ∀ d ∈ ds, d < 10) :
    ∀ c ∈ digitText ds, c.isAsciiDigit = true := by
  intro c hc
  obtain ⟨d, hd, rfl⟩ := List.mem_map.mp hc
  exact isAsciiDigit_digitChar (h d hd)

theorem digitsOf_lt (n : Nat) : ∀ d ∈ digitsOf n, d < 10 := fun _ hd =>
  Nat.digits_lt_base (by decide) (List.mem_reverse.mp hd)

theorem digitsOf_ne_nil {n : Nat} (h : n ≠ 0) : digitsOf n ≠ [] := by
  simpa [digitsOf, List.reverse_eq_nil_iff] using Nat.digits_ne_nil_iff_ne_zero.mpr h

theorem ofDigits_digitsOf (n : Nat) : ofDigits (digitsOf n) = n := by
  rw [ofDigits, digitsOf, List.reverse_reverse, Nat.ofDigits_digits]

theorem ofDigits_leadingZeros (k : Nat) (ds : List Nat) :
    ofDigits (List.replicate k 0 ++ ds) = ofDigits ds := by
  rw [ofDigits, List.reverse_append, List.reverse_replicate, Nat.ofDigits_append_replicate_zero,
    ofDigits]

theorem decimalFloat_leadingZeros (k : Nat) (ds : List Nat) (e : Int) :
    decimalFloat (List.replicate k 0 ++ ds) e = decimalFloat ds e := by
  have h : (List.replicate k 0 ++ ds).dropWhile isZero = ds.dropWhile isZero :=
    List.dropWhile_append_of_pos fun d hd => by simp [isZero, List.eq_of_mem_replicate hd]
  simp only [decimalFloat, h]

theorem rdropWhile_append_zeros (ds : List Nat) (k : Nat) :
    (ds ++ List.replicate k 0).rdropWhile isZero = ds.rdropWhile isZero := by
  induction k with
  | zero => simp
  | succ k ih =>
    rw [List.replicate_succ', ← List.append_assoc, List.rdropWhile_concat_pos _ _ _ (by rfl), ih]

theorem decimalFloat_trailingZeros (ds : List Nat) (k : Nat) (e : Int) :
    decimalFloat (ds ++ List.replicate k 0) (e - k) = decimalFloat ds e := by
  have hzeros : (List.replicate k 0).dropWhile isZero = [] :=
    List.dropWhile_eq_nil_iff.mpr fun d hd => by simp [isZero, List.eq_of_mem_replicate hd]
  unfold decimalFloat
  rw [List.dropWhile_append, hzeros]
  cases hl : (ds.dropWhile isZero).isEmpty with
  | true =>
    have hnil : ds.dropWhile isZero = [] := List.isEmpty_iff.mp hl
    simp [hnil, ofDigits, Float.Model.ofScientific, Float.Model.UnpackedFloat.ofScientific]
  | false =>
    simp only [Bool.false_eq_true, if_false, rdropWhile_append_zeros, List.length_append,
      List.length_replicate]
    congr 2
    push_cast
    omega

/-! ## Reading: `float()` -/

/-- The mantissa `digits[.digits]` at the front of `s`: its digits, how many of them stand after
    the point, and what follows. -/
def mantissa (s : Str) : Str × Nat × Str :=
  let whole := s.takeWhile CodePoint.isAsciiDigit
  match s.dropWhile CodePoint.isAsciiDigit with
  | [] => (whole, 0, [])
  | c :: rest =>
    if c = '.' then
      let part := rest.takeWhile CodePoint.isAsciiDigit
      (whole ++ part, part.length, rest.dropWhile CodePoint.isAsciiDigit)
    else (whole, 0, c :: rest)

/-- A nonempty run of digits and nothing else. -/
def allDigits (s : Str) : Option Nat :=
  if s ≠ [] ∧ s.all CodePoint.isAsciiDigit then some (ofDigits (s.map digitValue)) else none

/-- `[+-]?\d+` and nothing else. -/
def signedDigits : Str → Option Int
  | [] => none
  | c :: rest =>
    if c = '+' then (allDigits rest).map Int.ofNat
    else if c = '-' then (allDigits rest).map fun n => -(n : Int)
    else (allDigits (c :: rest)).map Int.ofNat

/-- The exponent after a mantissa, `0` when there is none. -/
def exponent : Str → Option Int
  | [] => some 0
  | c :: rest => if c = 'e' ∨ c = 'E' then signedDigits rest else none

/-- An unsigned decimal literal. -/
def unsignedFloat (s : Str) : Option Float :=
  match mantissa s with
  | (digits, after, rest) =>
    if digits = [] then none
    else (exponent rest).map fun e => decimalFloat (digits.map digitValue) (e - after)

def asciiLower (c : CodePoint) : CodePoint :=
  if c.isUpperAscii then Fin.ofNat 0x110000 (c.val + 32) else c

/-- `inf`, `infinity` and `nan` in any case, else a decimal literal. -/
def magnitudeFloat (s : Str) : Option Float :=
  let low := s.map asciiLower
  if low = str "inf" ∨ low = str "infinity" then some (.ofBits 0x7FF0000000000000)
  else if low = str "nan" then some (.ofBits 0x7FF8000000000000)
  else unsignedFloat s

/-- `float()` of ASCII text without blanks and underscores. -/
def asciiFloat : Str → Option Float
  | [] => none
  | c :: rest =>
    if c = '-' then (magnitudeFloat rest).map Float.neg
    else if c = '+' then magnitudeFloat rest
    else magnitudeFloat (c :: rest)

/-! ## Writing -/

/-- The number `0.d₁d₂… × 10 ^ point`, as a correctly rounded conversion returns it. -/
structure Decimal where
  digits : List Nat
  point : Int
  ne_nil : digits ≠ []
  lt_ten : ∀ d ∈ digits, d < 10

/-- The exponent as `%e` prints it: a sign and at least two digits. -/
def exponentText (e : Int) : Str :=
  let ds := digitsOf e.natAbs
  (if e < 0 then ('-' : CodePoint) else '+') :: digitText (List.replicate (2 - ds.length) 0 ++ ds)

/-- A positive decimal in `%g` form: positional while `-4 < point ≤ places`, else with an
    exponent; `dot` is `repr`'s, which never prints an integer without its `.0`. -/
def layout (dot : Bool) (places : Int) (d : Decimal) : Str :=
  if d.point ≤ -4 ∨ places < d.point then
    digitText (d.digits.take 1) ++
      (if d.digits.length = 1 then [] else ('.' : CodePoint) :: digitText (d.digits.drop 1)) ++
      ('e' : CodePoint) :: exponentText (d.point - 1)
  else if d.point ≤ 0 then
    digitText [0] ++ ('.' : CodePoint) ::
      digitText (List.replicate (-d.point).toNat 0 ++ d.digits)
  else if d.digits.length ≤ d.point then
    digitText (d.digits ++ List.replicate (d.point - d.digits.length).toNat 0) ++
      (if dot then ('.' : CodePoint) :: digitText [0] else [])
  else
    digitText (d.digits.take d.point.toNat) ++ ('.' : CodePoint) ::
      digitText (d.digits.drop d.point.toNat)

/-- The exponent `k` with `10 ^ k ≤ a / b < 10 ^ (k + 1)`. -/
def decimalExponent (a b : Nat) : Int :=
  if b ≤ a then Nat.log 10 (a / b) else -Nat.clog 10 ((b + a - 1) / a)

/-- `a / b * 10 ^ s` as a ratio. -/
def scaled (a b : Nat) (s : Int) : Nat × Nat := (a * 10 ^ s.toNat, b * 10 ^ (-s).toNat)

def roundHalfEven (a b : Nat) : Nat :=
  let q := a / b
  let r := a % b
  if 2 * r < b then q else if b < 2 * r then q + 1 else q + q % 2

theorem all_isZero_ofDigits {ds : List Nat} (h : ∀ d ∈ ds, isZero d = true) : ofDigits ds = 0 := by
  have hds : ds = List.replicate ds.length 0 :=
    List.eq_replicate_iff.mpr ⟨rfl, fun d hd => by simpa [isZero] using h d hd⟩
  rw [hds, ← List.append_nil (List.replicate _ _), ofDigits_leadingZeros]
  rfl

/-- The decimal whose significant digits are those of `n`, its trailing zeros dropped. -/
def Decimal.ofSignificand (n : Nat) (point : Int) : Decimal where
  digits := if n = 0 then [0] else (digitsOf n).rdropWhile isZero
  point := point
  ne_nil := by
    split_ifs with hn
    · simp
    · intro h
      exact hn (by rw [← ofDigits_digitsOf n, all_isZero_ofDigits (List.rdropWhile_eq_nil_iff.mp h)])
  lt_ten := by
    split_ifs with hn
    · simp
    · exact fun d hd => digitsOf_lt n d (List.IsPrefix.mem hd (List.rdropWhile_prefix _ _))

/-- `a / b` to 15 significant digits. -/
def fifteenDigits (a b : Nat) : Decimal :=
  let k := decimalExponent a b
  let n := roundHalfEven (scaled a b (14 - k)).1 (scaled a b (14 - k)).2
  .ofSignificand n (if n = 10 ^ 15 then k + 2 else k + 1)

/-- The sign of a printed float. -/
def signText : Float.Model.UnpackedFloat.Sign → Str
  | .negative => ['-']
  | .positive => []

/-- A float's text, given how its magnitude `a / b` is rounded to a decimal and laid out. -/
def floatText (places : Int) (dot : Bool) (round : Nat → Nat → Decimal) (x : Float) : Str :=
  match x.toModel.unpack with
  | .notANumber => str "nan"
  | .infinity s => signText s ++ str "inf"
  | .zero s => signText s ++ layout dot places ⟨[0], 1, by simp, by simp⟩
  | .finite s m e _ =>
    signText s ++ layout dot places (round (m * 2 ^ e.toNat) (2 ^ (-e).toNat))

/-- `"%.15g" % x` -/
def formatG15 (x : Float) : Str := floatText 15 false fifteenDigits x

/-! ## What is written reads back -/

/-- Whether a text can follow a run of digits without being taken for more of it. -/
def StopsDigits (rest : Str) : Prop := ∀ c ∈ rest.head?, c.isAsciiDigit = false

theorem takeWhile_digitText {ds : List Nat} (h : ∀ d ∈ ds, d < 10) {rest : Str}
    (hr : StopsDigits rest) :
    (digitText ds ++ rest).takeWhile CodePoint.isAsciiDigit = digitText ds ∧
      (digitText ds ++ rest).dropWhile CodePoint.isAsciiDigit = rest := by
  have hd := isAsciiDigit_digitText h
  rw [List.takeWhile_append_of_pos hd, List.dropWhile_append_of_pos hd]
  cases rest with
  | nil => simp
  | cons c rest =>
    have hc : c.isAsciiDigit = false := hr c (by simp)
    simp [hc]

theorem mantissa_whole (ds : List Nat) (rest : Str) (h : ∀ d ∈ ds, d < 10)
    (hr : StopsDigits rest) (hdot : ∀ c ∈ rest.head?, c ≠ CodePoint.ofChar '.') :
    mantissa (digitText ds ++ rest) = (digitText ds, 0, rest) := by
  obtain ⟨htake, hdrop⟩ := takeWhile_digitText h hr
  unfold mantissa
  rw [htake, hdrop]
  cases rest with
  | nil => rfl
  | cons c rest => simp [hdot c (by simp)]

theorem mantissa_point (ds fs : List Nat) (rest : Str) (hd : ∀ d ∈ ds, d < 10)
    (hf : ∀ d ∈ fs, d < 10) (hr : StopsDigits rest) :
    mantissa (digitText ds ++ ('.' : CodePoint) :: (digitText fs ++ rest)) =
      (digitText (ds ++ fs), fs.length, rest) := by
  have hdot : StopsDigits (('.' : CodePoint) :: (digitText fs ++ rest)) := by
    intro c hc
    obtain rfl : CodePoint.ofChar '.' = c := by simpa using hc
    rfl
  obtain ⟨htake, hdrop⟩ := takeWhile_digitText hd hdot
  obtain ⟨htake', hdrop'⟩ := takeWhile_digitText hf hr
  unfold mantissa
  rw [htake, hdrop]
  simp only [if_true, htake', hdrop']
  simp [digitText]

theorem unsignedFloat_of_mantissa {s rest : Str} {ds : List Nat} {k : Nat} {e : Int}
    (hm : mantissa s = (digitText ds, k, rest)) (hds : ∀ d ∈ ds, d < 10) (hne : ds ≠ [])
    (he : exponent rest = some e) :
    unsignedFloat s = some (decimalFloat ds (e - k)) := by
  have hne' : digitText ds ≠ [] := by simpa [digitText] using hne
  simp only [unsignedFloat, hm, if_neg hne', he, Option.map_some, digitValue_digitText hds]

theorem allDigits_digitText {ds : List Nat} (h : ∀ d ∈ ds, d < 10) (hne : ds ≠ []) :
    allDigits (digitText ds) = some (ofDigits ds) := by
  have hne' : digitText ds ≠ [] := by simpa [digitText] using hne
  have hall : (digitText ds).all CodePoint.isAsciiDigit = true :=
    List.all_eq_true.mpr (isAsciiDigit_digitText h)
  rw [allDigits, if_pos ⟨hne', hall⟩, digitValue_digitText h]

theorem signedDigits_exponentText (e : Int) : signedDigits (exponentText e) = some e := by
  have hlt : ∀ d ∈ List.replicate (2 - (digitsOf e.natAbs).length) 0 ++ digitsOf e.natAbs,
      d < 10 := by
    intro d hd
    rcases List.mem_append.mp hd with hd | hd
    · rw [List.eq_of_mem_replicate hd]
      decide
    · exact digitsOf_lt _ d hd
  have hne : List.replicate (2 - (digitsOf e.natAbs).length) 0 ++ digitsOf e.natAbs ≠ [] := by
    intro h
    have hlen := congrArg List.length h
    simp only [List.length_append, List.length_replicate, List.length_nil] at hlen
    omega
  have hval := allDigits_digitText hlt hne
  rw [ofDigits_leadingZeros, ofDigits_digitsOf] at hval
  have hsign : ¬ CodePoint.ofChar '-' = CodePoint.ofChar '+' := by decide
  unfold exponentText signedDigits
  split_ifs with he
  · simp only [hsign, if_false, if_true, hval, Option.map_some]
    exact congrArg some (show -(e.natAbs : Int) = e by omega)
  · simp only [if_true, hval, Option.map_some, Int.ofNat_eq_natCast]
    exact congrArg some (by omega)

/-- The laid out text of a decimal is the float nearest to it, whatever the layout. -/
theorem unsignedFloat_layout (dot : Bool) (places : Int) (d : Decimal) :
    unsignedFloat (layout dot places d) =
      some (decimalFloat d.digits (d.point - d.digits.length)) := by
  have hpos : 0 < d.digits.length := List.length_pos_of_ne_nil d.ne_nil
  have hlt := d.lt_ten
  have hnil : StopsDigits [] := by simp [StopsDigits]
  have hzeros : ∀ k, ∀ x ∈ List.replicate k 0, x < 10 := fun k x hx => by
    rw [List.eq_of_mem_replicate hx]
    decide
  unfold layout
  split_ifs with hexp hone hsmall hwide hdot
  · -- one digit and an exponent
    have hsplit : d.digits.take 1 = d.digits := List.take_of_length_le (by omega)
    have hm := mantissa_whole d.digits (('e' : CodePoint) :: exponentText (d.point - 1)) hlt
      (by simp [StopsDigits]; decide) (by simp)
    rw [hsplit, List.append_nil, unsignedFloat_of_mantissa hm hlt d.ne_nil
      (signedDigits_exponentText _)]
    congr 2
    omega
  · -- several digits and an exponent
    have hsplit : d.digits.take 1 ++ d.digits.drop 1 = d.digits := List.take_append_drop 1 _
    have hm := mantissa_point (d.digits.take 1) (d.digits.drop 1)
      (('e' : CodePoint) :: exponentText (d.point - 1))
      (fun x hx => hlt x (List.mem_of_mem_take hx)) (fun x hx => hlt x (List.mem_of_mem_drop hx))
      (by simp [StopsDigits]; decide)
    rw [hsplit] at hm
    rw [List.append_assoc, List.cons_append, unsignedFloat_of_mantissa hm hlt d.ne_nil
      (signedDigits_exponentText _), List.length_drop]
    congr 2
    omega
  · -- `0.000ddd`
    have hfs : ∀ x ∈ List.replicate (-d.point).toNat 0 ++ d.digits, x < 10 := fun x hx =>
      (List.mem_append.mp hx).elim (hzeros _ x) (hlt x)
    have hm := mantissa_point [0] _ [] (by simp) hfs hnil
    rw [List.append_nil] at hm
    have hlead : [0] ++ (List.replicate (-d.point).toNat 0 ++ d.digits) =
        List.replicate ((-d.point).toNat + 1) 0 ++ d.digits := by
      rw [List.replicate_succ]
      rfl
    rw [hlead] at hm
    rw [unsignedFloat_of_mantissa hm (fun x hx => (List.mem_append.mp hx).elim (hzeros _ x) (hlt x))
      (by simp) rfl, decimalFloat_leadingZeros, List.length_append, List.length_replicate]
    congr 2
    push_cast
    omega
  · -- `ddd000.0`
    have hds : ∀ x ∈ d.digits ++ List.replicate (d.point - d.digits.length).toNat 0, x < 10 :=
      fun x hx => (List.mem_append.mp hx).elim (hlt x) (hzeros _ x)
    have hm := mantissa_point _ [0] [] hds (by simp) hnil
    rw [List.append_nil, List.append_assoc, ← List.replicate_succ'] at hm
    rw [unsignedFloat_of_mantissa hm (fun x hx => (List.mem_append.mp hx).elim (hlt x) (hzeros _ x))
      (by simp) rfl, ← decimalFloat_trailingZeros d.digits ((d.point - d.digits.length).toNat + 1)]
    congr 2
    push_cast
    simp only [List.length_singleton]
    omega
  · -- `ddd000`
    have hds : ∀ x ∈ d.digits ++ List.replicate (d.point - d.digits.length).toNat 0, x < 10 :=
      fun x hx => (List.mem_append.mp hx).elim (hlt x) (hzeros _ x)
    have hm := mantissa_whole _ [] hds hnil (by simp)
    rw [unsignedFloat_of_mantissa hm hds (by simp [d.ne_nil]) rfl,
      ← decimalFloat_trailingZeros d.digits (d.point - d.digits.length).toNat]
    congr 2
    push_cast
    omega
  · -- `ddd.ddd`
    have hsplit : d.digits.take d.point.toNat ++ d.digits.drop d.point.toNat = d.digits :=
      List.take_append_drop _ _
    have hm := mantissa_point (d.digits.take d.point.toNat) (d.digits.drop d.point.toNat) []
      (fun x hx => hlt x (List.mem_of_mem_take hx)) (fun x hx => hlt x (List.mem_of_mem_drop hx))
      hnil
    rw [hsplit, List.append_nil] at hm
    rw [unsignedFloat_of_mantissa hm hlt d.ne_nil rfl, List.length_drop]
    congr 2
    omega

/-! ## A printed float parses -/

theorem layout_head (dot : Bool) (places : Int) (d : Decimal) :
    ∃ c rest, layout dot places d = c :: rest ∧ c.isAsciiDigit = true := by
  obtain ⟨first, others, hd⟩ := List.exists_cons_of_ne_nil d.ne_nil
  have hfirst : (digitChar first).isAsciiDigit = true :=
    isAsciiDigit_digitChar (d.lt_ten first (by rw [hd]; simp))
  have hzero : (digitChar 0).isAsciiDigit = true := rfl
  unfold layout
  split_ifs with hexp hone hsmall hwide hdot
  · exact ⟨_, _, by rw [hd]; rfl, hfirst⟩
  · exact ⟨_, _, by rw [hd]; rfl, hfirst⟩
  · exact ⟨_, _, rfl, hzero⟩
  · exact ⟨_, _, by rw [hd]; rfl, hfirst⟩
  · exact ⟨_, _, by rw [hd]; rfl, hfirst⟩
  · obtain ⟨k, hk⟩ : ∃ k, d.point.toNat = k + 1 := ⟨d.point.toNat - 1, by omega⟩
    exact ⟨_, _, by rw [hd, hk]; rfl, hfirst⟩

theorem magnitudeFloat_of_digit {c : CodePoint} {rest : Str} (h : c.isAsciiDigit = true) :
    magnitudeFloat (c :: rest) = unsignedFloat (c :: rest) := by
  have hc := h
  simp only [CodePoint.isAsciiDigit, Bool.and_eq_true, decide_eq_true_eq] at hc
  have hlow : (asciiLower c).val = c.val := by
    rw [asciiLower, if_neg (by simp [CodePoint.isUpperAscii]; omega)]
  have hword : ∀ (first : Char) (s : Str), first.toNat ≥ 97 →
      asciiLower c :: rest.map asciiLower ≠ CodePoint.ofChar first :: s := by
    intro first s hf heq
    have := congrArg Fin.val (List.cons.inj heq).1
    rw [hlow, CodePoint.val_ofChar] at this
    omega
  unfold magnitudeFloat
  rw [if_neg, if_neg]
  · exact hword 'n' _ (by decide)
  · exact not_or.mpr ⟨hword 'i' _ (by decide), hword 'i' _ (by decide)⟩

theorem asciiFloat_of_digit {c : CodePoint} {rest : Str} (h : c.isAsciiDigit = true) :
    asciiFloat (c :: rest) = unsignedFloat (c :: rest) := by
  have hsign : c ≠ CodePoint.ofChar '-' ∧ c ≠ CodePoint.ofChar '+' := by
    constructor <;> rintro rfl <;> exact absurd h (by decide)
  rw [asciiFloat, if_neg hsign.1, if_neg hsign.2, magnitudeFloat_of_digit h]

def withSign : Float.Model.UnpackedFloat.Sign → Float → Float
  | .negative, x => x.neg
  | .positive, x => x

/-- A laid out decimal with its sign in front is the signed float nearest to it. -/
theorem asciiFloat_layout (s : Float.Model.UnpackedFloat.Sign) (dot : Bool) (places : Int)
    (d : Decimal) :
    asciiFloat (signText s ++ layout dot places d) =
      some (withSign s (decimalFloat d.digits (d.point - d.digits.length))) := by
  obtain ⟨c, rest, hl, hc⟩ := layout_head dot places d
  have hread := unsignedFloat_layout dot places d
  cases s with
  | negative =>
    rw [hl] at hread
    rw [signText, hl, List.singleton_append, asciiFloat, if_pos rfl, magnitudeFloat_of_digit hc,
      hread]
    rfl
  | positive =>
    rw [hl] at hread
    rw [signText, hl, List.nil_append, asciiFloat_of_digit hc, hread]
    rfl

theorem asciiFloat_floatText (places : Int) (dot : Bool) (round : Nat → Nat → Decimal)
    (x : Float) : (asciiFloat (floatText places dot round x)).isSome = true := by
  unfold floatText
  split
  · rfl
  · rename_i s _
    cases s <;> rfl
  · rw [asciiFloat_layout]
    rfl
  · rw [asciiFloat_layout]
    rfl

/-! ## The parts of a printed float -/

/-- An unsigned literal `digits[.digits][e±digits]`. -/
structure Literal where
  whole : List Nat
  frac : Option (List Nat)
  exp : Option Int
  ne_nil : whole ≠ []
  whole_lt : ∀ d ∈ whole, d < 10
  frac_lt : ∀ fs ∈ frac, ∀ d ∈ fs, d < 10

namespace Literal

variable (l : Literal)

def fracText : Str :=
  match l.frac with
  | none => []
  | some fs => ('.' : CodePoint) :: digitText fs

def expText : Str :=
  match l.exp with
  | none => []
  | some e => ('e' : CodePoint) :: exponentText e

def text : Str := digitText l.whole ++ (l.fracText ++ l.expText)

/-- All the digits of the mantissa. -/
def digits : List Nat := l.whole ++ l.frac.getD []

def value : Float := decimalFloat l.digits (l.exp.getD 0 - (l.frac.getD []).length)

theorem digits_lt : ∀ d ∈ l.digits, d < 10 := by
  intro d hd
  rcases List.mem_append.mp hd with hd | hd
  · exact l.whole_lt d hd
  · cases hf : l.frac with
    | none => simp [hf] at hd
    | some fs => exact l.frac_lt fs hf d (by simpa [hf] using hd)

theorem digits_ne_nil : l.digits ≠ [] := by simp [digits, l.ne_nil]

/-- The mantissa of a literal, read in front of anything that does not go on with it. -/
theorem mantissa_text {rest : Str} (hr : StopsDigits rest)
    (hdot : ∀ c ∈ rest.head?, c ≠ CodePoint.ofChar '.') :
    mantissa (digitText l.whole ++ (l.fracText ++ rest)) =
      (digitText l.digits, (l.frac.getD []).length, rest) := by
  rw [fracText, digits]
  cases hf : l.frac with
  | none =>
    have := mantissa_whole l.whole rest l.whole_lt hr hdot
    simpa using this
  | some fs => exact mantissa_point l.whole fs rest l.whole_lt (l.frac_lt fs hf) hr

theorem stops_expText : StopsDigits l.expText ∧ ∀ c ∈ l.expText.head?, c ≠ CodePoint.ofChar '.' := by
  rw [expText]
  cases l.exp with
  | none => simp [StopsDigits]
  | some e =>
    have he : CodePoint.isAsciiDigit ('e' : CodePoint) = false := rfl
    simp [StopsDigits, he]

theorem exponent_expText : exponent l.expText = some (l.exp.getD 0) := by
  rw [expText]
  cases l.exp with
  | none => rfl
  | some e => exact signedDigits_exponentText e

theorem unsignedFloat_text : unsignedFloat l.text = some l.value :=
  unsignedFloat_of_mantissa (l.mantissa_text l.stops_expText.1 l.stops_expText.2) l.digits_lt
    l.digits_ne_nil l.exponent_expText

theorem text_head : ∃ c rest, l.text = c :: rest ∧ c.isAsciiDigit = true := by
  obtain ⟨d, ds, hd⟩ := List.exists_cons_of_ne_nil l.ne_nil
  refine ⟨digitChar d, digitText ds ++ (l.fracText ++ l.expText), ?_,
    isAsciiDigit_digitChar (l.whole_lt d (by simp [hd]))⟩
  rw [text, hd]
  rfl

theorem asciiFloat_text : asciiFloat l.text = some l.value := by
  obtain ⟨c, rest, htext, hc⟩ := l.text_head
  rw [← l.unsignedFloat_text, htext, asciiFloat_of_digit hc]

end Literal

theorem layout_literal (dot : Bool) (places : Int) (d : Decimal) :
    ∃ l : Literal, layout dot places d = l.text := by
  have hlt := d.lt_ten
  have hpos : 0 < d.digits.length := List.length_pos_of_ne_nil d.ne_nil
  have hzeros : ∀ k, ∀ x ∈ List.replicate k 0, x < 10 := fun k x hx => by
    rw [List.eq_of_mem_replicate hx]
    decide
  have htake : ∀ n, ∀ x ∈ d.digits.take n, x < 10 := fun n x hx => hlt x (List.mem_of_mem_take hx)
  have hdrop : ∀ n, ∀ x ∈ d.digits.drop n, x < 10 := fun n x hx => hlt x (List.mem_of_mem_drop hx)
  have hfront : ∀ n, 0 < n → d.digits.take n ≠ [] := fun n hn h => by
    rcases List.take_eq_nil_iff.mp h with h | h
    · omega
    · exact d.ne_nil h
  have happend : ∀ k, ∀ x ∈ d.digits ++ List.replicate k 0, x < 10 := fun k x hx =>
    (List.mem_append.mp hx).elim (hlt x) (hzeros k x)
  unfold layout
  split_ifs with hexp hone hsmall hwide hdot
  · exact ⟨⟨d.digits.take 1, none, some (d.point - 1), hfront 1 (by decide), htake 1, by simp⟩,
      by simp [Literal.text, Literal.fracText, Literal.expText]⟩
  · exact ⟨⟨d.digits.take 1, some (d.digits.drop 1), some (d.point - 1), hfront 1 (by decide),
      htake 1, by simpa using hdrop 1⟩, by simp [Literal.text, Literal.fracText, Literal.expText]⟩
  · refine ⟨⟨[0], some (List.replicate (-d.point).toNat 0 ++ d.digits), none, by simp, by simp,
      ?_⟩, by simp [Literal.text, Literal.fracText, Literal.expText]⟩
    rintro fs hfs x hx
    obtain rfl := Option.mem_some_iff.mp hfs
    exact (List.mem_append.mp hx).elim (hzeros _ x) (hlt x)
  · exact ⟨⟨d.digits ++ List.replicate (d.point - d.digits.length).toNat 0, some [0], none,
      by simp [d.ne_nil], happend _, by simp⟩,
      by simp [Literal.text, Literal.fracText, Literal.expText]⟩
  · exact ⟨⟨d.digits ++ List.replicate (d.point - d.digits.length).toNat 0, none, none,
      by simp [d.ne_nil], happend _, by simp⟩,
      by simp [Literal.text, Literal.fracText, Literal.expText]⟩
  · exact ⟨⟨d.digits.take d.point.toNat, some (d.digits.drop d.point.toNat), none,
      hfront _ (by omega), htake _, by simpa using hdrop _⟩,
      by simp [Literal.text, Literal.fracText, Literal.expText]⟩

/-! ## The characters of a printed float -/

/-- `[A-Za-z0-9+.-]` -/
def isFloatChar (c : CodePoint) : Bool := c.isAsciiAlnum || c = '+' || c = '.' || c = '-'

theorem isFloatChar_digitText {ds : List Nat} (h : ∀ d ∈ ds, d < 10) :
    ∀ c ∈ digitText ds, isFloatChar c = true := fun c hc => by
  simp [isFloatChar, CodePoint.isAsciiAlnum, isAsciiDigit_digitText h c hc]

theorem isFloatChar_exponentText (e : Int) : ∀ c ∈ exponentText e, isFloatChar c = true := by
  intro c hc
  unfold exponentText at hc
  rcases List.mem_cons.mp hc with rfl | hc
  · split_ifs <;> rfl
  · refine isFloatChar_digitText (fun d hd => ?_) c hc
    rcases List.mem_append.mp hd with hd | hd
    · rw [List.eq_of_mem_replicate hd]
      decide
    · exact digitsOf_lt _ d hd

theorem isFloatChar_layout (dot : Bool) (places : Int) (d : Decimal) :
    ∀ c ∈ layout dot places d, isFloatChar c = true := by
  have hlt := d.lt_ten
  have hzeros : ∀ k, ∀ x ∈ List.replicate k 0, x < 10 := fun k x hx => by
    rw [List.eq_of_mem_replicate hx]
    decide
  have hdigits : ∀ ds : List Nat, (∀ x ∈ ds, x < 10) → ∀ c ∈ digitText ds, isFloatChar c = true :=
    fun ds h => isFloatChar_digitText h
  have hpoint : isFloatChar ('.' : CodePoint) = true := rfl
  have he : isFloatChar ('e' : CodePoint) = true := rfl
  have htake : ∀ n, ∀ x ∈ d.digits.take n, x < 10 := fun n x hx => hlt x (List.mem_of_mem_take hx)
  have hdrop : ∀ n, ∀ x ∈ d.digits.drop n, x < 10 := fun n x hx => hlt x (List.mem_of_mem_drop hx)
  have hfront : ∀ k, ∀ x ∈ List.replicate k 0 ++ d.digits, x < 10 := fun k x hx =>
    (List.mem_append.mp hx).elim (hzeros k x) (hlt x)
  have hback : ∀ k, ∀ x ∈ d.digits ++ List.replicate k 0, x < 10 := fun k x hx =>
    (List.mem_append.mp hx).elim (hlt x) (hzeros k x)
  have hzero : ∀ x ∈ [0], x < 10 := by simp
  intro c hc
  unfold layout at hc
  split_ifs at hc <;>
    simp only [List.mem_append, List.mem_cons, List.not_mem_nil, or_false] at hc
  · rcases hc with hc | rfl | hc
    · exact hdigits _ (htake _) c hc
    · exact he
    · exact isFloatChar_exponentText _ c hc
  · rcases hc with (hc | rfl | hc) | rfl | hc
    · exact hdigits _ (htake _) c hc
    · exact hpoint
    · exact hdigits _ (hdrop _) c hc
    · exact he
    · exact isFloatChar_exponentText _ c hc
  · rcases hc with hc | rfl | hc
    · exact hdigits _ hzero c hc
    · exact hpoint
    · exact hdigits _ (hfront _) c hc
  · rcases hc with hc | rfl | hc
    · exact hdigits _ (hback _) c hc
    · exact hpoint
    · exact hdigits _ hzero c hc
  · exact hdigits _ (hback _) c hc
  · rcases hc with hc | rfl | hc
    · exact hdigits _ (htake _) c hc
    · exact hpoint
    · exact hdigits _ (hdrop _) c hc

theorem isFloatChar_floatText (places : Int) (dot : Bool) (round : Nat → Nat → Decimal)
    (x : Float) : ∀ c ∈ floatText places dot round x, isFloatChar c = true := by
  have hsign : ∀ s, ∀ c ∈ signText s, isFloatChar c = true := by
    rintro (_ | _) c hc
    · obtain rfl : c = CodePoint.ofChar '-' := by simpa [signText] using hc
      rfl
    · simp [signText] at hc
  have hword : ∀ c ∈ str "nan" ++ str "inf", isFloatChar c = true :=
    List.all_eq_true.mp (by decide)
  intro c hc
  unfold floatText at hc
  split at hc
  · exact hword c (List.mem_append_left _ hc)
  · exact (List.mem_append.mp hc).elim (hsign _ c)
      fun h => hword c (List.mem_append_right _ h)
  · exact (List.mem_append.mp hc).elim (hsign _ c) (isFloatChar_layout _ _ _ c)
  · exact (List.mem_append.mp hc).elim (hsign _ c) (isFloatChar_layout _ _ _ c)

end Python
