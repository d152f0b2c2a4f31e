import Sv2ghdl.Python.FloatRepr
import Sv2ghdl.Vamos.Netlist.ExprText
import Sv2ghdl.Vamos.Netlist.ExprTree

/-!
# Number literals

`number` of `vamos/netlist/expr.py` in its three dialects, and the patterns it and the lexers match.
The notes and warnings it reports are not modelled.
-/

open Python

namespace Vamos.Netlist.Expression

variable (U : UnicodeData)

/-! ## The patterns -/

/-- `\d` -/
def isDecimal (c : CodePoint) : Bool := (U.decimal c).isSome

/-- `(?:\d+\.?\d*|\.\d+)` at the front of a text, and what follows it. -/
def matchMantissa (s : Str) : Option (Str × Str) :=
  let whole := s.takeWhile (isDecimal U)
  match s.dropWhile (isDecimal U) with
  | [] => if whole = [] then none else some (whole, [])
  | c :: rest =>
    if c = '.' then
      let part := rest.takeWhile (isDecimal U)
      if whole = [] ∧ part = [] then none
      else some (whole ++ c :: part, rest.dropWhile (isDecimal U))
    else if whole = [] then none
    else some (whole, c :: rest)

/-- `[+-]?` -/
def matchSign : Str → Str × Str
  | [] => ([], [])
  | c :: rest => if c = '+' ∨ c = '-' then ([c], rest) else ([], c :: rest)

/-- `[marks]([+-]?\d+)`: the mark, the group and what follows. -/
def matchExponent (marks : Str) : Str → Option (CodePoint × Str × Str)
  | [] => none
  | c :: rest =>
    let (sign, digits) := matchSign rest
    let exp := digits.takeWhile (isDecimal U)
    if c ∈ marks ∧ exp ≠ [] then some (c, sign ++ exp, digits.dropWhile (isDecimal U)) else none

/-- `[A-Za-z_]` -/
def isUnitChar (c : CodePoint) : Bool := c.isAsciiLetter || c = '_'

/-- `[A-Za-z_]*`, or `%[A-Za-z_]*` where `percent` allows it. -/
def matchUnits (percent : Bool) : Str → Str × Str
  | [] => ([], [])
  | c :: rest =>
    if percent ∧ c = '%' then (c :: rest.takeWhile isUnitChar, rest.dropWhile isUnitChar)
    else ((c :: rest).takeWhile isUnitChar, (c :: rest).dropWhile isUnitChar)

/-- `_NUM_RE` or `_NUM_RE_SP`: the number at the front of a text. -/
def numberToken (dialect : Dialect) (s : Str) : Option Str :=
  (matchMantissa U s).map fun (mant, rest) =>
    match matchExponent U (str "eEdD") rest with
    | some (mark, exp, rest) => mant ++ mark :: exp ++ (matchUnits dialect.isSpectre rest).1
    | none => mant ++ (matchUnits dialect.isSpectre rest).1

/-- The groups of `_NUMBER`, `_NUMBER_SPECTRE` and `_NUMBER_SPICE`. -/
structure NumberParts where
  mant : Str
  exp : Option Str
  tail : Str

/-- The letters that mark an exponent. -/
def Dialect.exponentMarks : Dialect → Str
  | .hspice => str "eEdD"
  | .spectre => str "eE"
  | .spectreSpice => str "eE"

/-- `_NUMBER`, `_NUMBER_SPECTRE` or `_NUMBER_SPICE` on a whole text. -/
def matchNumber (dialect : Dialect) (s : Str) : Option NumberParts :=
  let (sign, s) := matchSign (Str.lstrip s)
  (matchMantissa U s).bind fun (mant, rest) =>
    let (exp, rest) :=
      match matchExponent U dialect.exponentMarks rest with
      | some (_, exp, rest) => (some exp, rest)
      | none => (none, rest)
    let (tail, rest) := matchUnits (dialect = .spectre) rest
    if rest.all CodePoint.isSpace then some ⟨sign ++ mant, exp, tail⟩ else none

/-! ## The scale factors -/

/-- A power of ten, or `mil`, which is none. -/
inductive Scale where
  | power (k : Int)
  | mil

/-- `_SCALE_EXP` -/
def hspiceScales : List (Str × Scale) :=
  [(str "meg", .power 6), (str "mil", .mil), (str "t", .power 12), (str "g", .power 9),
    (str "x", .power 6), (str "k", .power 3), (str "m", .power (-3)), (str "u", .power (-6)),
    (str "n", .power (-9)), (str "p", .power (-12)), (str "f", .power (-15)),
    (str "a", .power (-18))]

/-- `_SPICE_SCALE` -/
def spiceScales : List (Str × Scale) :=
  [(str "meg", .power 6), (str "mil", .mil), (str "t", .power 12), (str "g", .power 9),
    (str "k", .power 3), (str "m", .power (-3)), (str "u", .power (-6)), (str "n", .power (-9)),
    (str "p", .power (-12)), (str "f", .power (-15))]

/-- `_SPECTRE_SCALE` -/
def spectreScales : List (CodePoint × Int) :=
  [('T', 12), ('G', 9), ('M', 6), ('K', 3), ('k', 3), ('_', 0), ('%', -2), ('c', -2), ('m', -3),
    ('u', -6), ('n', -9), ('p', -12), ('f', -15), ('a', -18)]

/-- The first entry whose name the units start with. -/
def findScale (scales : List (Str × Scale)) (units : Str) : Option Scale :=
  (scales.find? fun e => e.1.isPrefixOf units).map Prod.snd

/-! ## The value -/

/-- The `ValueError`s of `number`, with the text they name. -/
inductive NumberError where
  | notANumber (s : Str)
  | notASpectreNumber (s : Str)
  | unitsWithoutScale (s mant tail : Str)
  | notASpiceNumber (s : Str)
  | couldNotConvert (s : Str)
  deriving DecidableEq, Repr

/-- `int(s)` of `[+-]?\d+` -/
def intOf (s : Str) : Int :=
  let (sign, digits) := matchSign s
  let n := ofDigits (digits.map fun c => (U.decimal c).getD 0)
  if sign = [CodePoint.ofChar '-'] then -(n : Int) else n

def natText (n : Nat) : Str := if n = 0 then digitText [0] else digitText (digitsOf n)

/-- `"%d" % n` -/
def intText (n : Int) : Str :=
  if n < 0 then ('-' : CodePoint) :: natText n.natAbs else natText n.natAbs

/-- `float("%se%d" % (mant, exp))` -/
def scaledFloat (mant : Str) (exp : Int) : Except NumberError Float :=
  let s := mant ++ ('e' : CodePoint) :: intText exp
  match U.float s with
  | some v => .ok v
  | none => .error (.couldNotConvert s)

/-- The factor of `mil`. -/
def milFactor : Float := 25.4e-6

def numberHspice (s : Str) : Except NumberError Float :=
  match matchNumber U .hspice s with
  | none => .error (.notANumber s)
  | some p =>
    let exp := (p.exp.map (intOf U)).getD 0
    match findScale hspiceScales (U.lower p.tail) with
    | none => scaledFloat U p.mant exp
    | some .mil => (scaledFloat U p.mant exp).map (· * milFactor)
    | some (.power k) => scaledFloat U p.mant (exp + k)

/-- `_number_spectre` -/
def numberSpectre (s : Str) : Except NumberError Float :=
  match matchNumber U .spectre s with
  | none => .error (.notASpectreNumber s)
  | some p =>
    match p.tail with
    | [] => scaledFloat U p.mant ((p.exp.map (intOf U)).getD 0)
    | c :: units =>
      match spectreScales.lookup c, p.exp with
      | none, _ => .error (.unitsWithoutScale s p.mant (c :: units))
      | some _, some exp => scaledFloat U p.mant (intOf U exp)
      | some k, none => scaledFloat U p.mant k

/-- `_number_spice` -/
def numberSpice (s : Str) : Except NumberError Float :=
  match matchNumber U .spectreSpice s with
  | none => .error (.notASpiceNumber s)
  | some p =>
    let exp := p.exp.map (intOf U)
    match findScale spiceScales (U.lower p.tail), exp with
    | none, _ => scaledFloat U p.mant (exp.getD 0)
    | some _, some exp => scaledFloat U p.mant exp
    | some .mil, none => (scaledFloat U p.mant 0).map (· * milFactor)
    | some (.power k), none => scaledFloat U p.mant k

def number (s : Str) : Dialect → Except NumberError Float
  | .hspice => numberHspice U s
  | .spectre => numberSpectre U s
  | .spectreSpice => numberSpice U s

/-! ## A printed float reads back -/

theorem isDecimal_ascii {c : CodePoint} (hc : c.val < 128) : isDecimal U c = c.isAsciiDigit := by
  rw [isDecimal, U.decimal_ascii c hc]
  split_ifs with h <;> simp [h]

theorem natText_digits (n : Nat) : ∃ ds : List Nat, (∀ d ∈ ds, d < 10) ∧ ds ≠ [] ∧
    ofDigits ds = n ∧ natText n = digitText ds := by
  by_cases hn : n = 0
  · subst hn
    exact ⟨[0], by simp, by simp, rfl, rfl⟩
  · exact ⟨digitsOf n, digitsOf_lt n, digitsOf_ne_nil hn, ofDigits_digitsOf n, if_neg hn⟩

theorem natText_injective : Function.Injective natText := by
  intro m n h
  obtain ⟨ds, hlt, hne, hval, htext⟩ := natText_digits m
  obtain ⟨es, hlt', hne', hval', htext'⟩ := natText_digits n
  have hm := allDigits_digitText hlt hne
  have hn := allDigits_digitText hlt' hne'
  rw [← htext, h, htext', hn, hval, hval'] at hm
  exact (Option.some.inj hm).symm

theorem signedDigits_intText (n : Int) : signedDigits (intText n) = some n := by
  obtain ⟨ds, hlt, hne, hval, htext⟩ := natText_digits n.natAbs
  have hall := allDigits_digitText hlt hne
  rw [hval] at hall
  have hminus : ¬ CodePoint.ofChar '-' = CodePoint.ofChar '+' := by decide
  rw [intText, htext]
  by_cases hn : n < 0
  · rw [if_pos hn, signedDigits, if_neg hminus, if_pos rfl, hall]
    exact congrArg some (show -(n.natAbs : Int) = n by omega)
  · rw [if_neg hn]
    obtain ⟨d, ds, rfl⟩ := List.exists_cons_of_ne_nil hne
    have hdigit := isAsciiDigit_digitChar (hlt d (by simp))
    have hsign : digitChar d ≠ CodePoint.ofChar '+' ∧ digitChar d ≠ CodePoint.ofChar '-' := by
      constructor <;> intro hd <;> rw [hd] at hdigit <;> exact absurd hdigit (by decide)
    rw [digitText, List.map_cons, ← digitText] at hall ⊢
    rw [signedDigits, if_neg hsign.1, if_neg hsign.2, hall]
    exact congrArg some (show (n.natAbs : Int) = n by omega)

theorem isFloatChar_intText (n : Int) : ∀ c ∈ intText n, isFloatChar c = true := by
  obtain ⟨ds, hlt, _, _, htext⟩ := natText_digits n.natAbs
  rw [intText, htext]
  split_ifs
  · intro c hc
    rcases List.mem_cons.mp hc with rfl | hc
    · rfl
    · exact isFloatChar_digitText hlt c hc
  · exact isFloatChar_digitText hlt

end Vamos.Netlist.Expression
