import Sv2ghdl.Python.FloatText

/-!
# The Unicode tables of the interpreter

Letter case, digits and letters are looked up in the character database the interpreter was built
with, which grows with every Unicode version.  A development is over any tables that keep what
all versions keep: the ASCII rows, and that a case mapping is one-to-one with its own image.
-/

namespace Python

/-- `Σ`, and its two small forms inside and at the end of a word. -/
def capitalSigma : CodePoint := 0x3A3
def smallSigma : CodePoint := 0x3C3
def finalSigma : CodePoint := 0x3C2

def asciiUpper (c : CodePoint) : CodePoint :=
  if c.isLowerAscii then Fin.ofNat 0x110000 (c.val - 32) else c

/-- A character database: full case mappings, digits and letters. -/
structure UnicodeData where
  lowerChar : CodePoint → Str
  upperChar : CodePoint → Str
  cased : CodePoint → Bool
  caseIgnorable : CodePoint → Bool
  /-- The value of a decimal digit (category Nd). -/
  decimal : CodePoint → Option Nat
  /-- `str.isdigit` of one character: the decimal digits and some others, such as `²`. -/
  isDigit : CodePoint → Bool
  /-- `str.isalpha` of one character. -/
  isAlpha : CodePoint → Bool
  lowerChar_ascii : ∀ c, c.val < 128 → lowerChar c = [asciiLower c]
  upperChar_ascii : ∀ c, c.val < 128 → upperChar c = [asciiUpper c]
  lowerChar_fixed : ∀ c, ∀ d ∈ lowerChar c, lowerChar d = [d] ∧ d ≠ capitalSigma
  upperChar_fixed : ∀ c, ∀ d ∈ upperChar c, upperChar d = [d]
  lowerChar_sigma : lowerChar smallSigma = [smallSigma] ∧ lowerChar finalSigma = [finalSigma]
  lowerChar_ne_nil : ∀ c, lowerChar c ≠ []
  upperChar_ne_nil : ∀ c, upperChar c ≠ []
  /-- A character above ASCII goes to itself or to characters that are neither white space nor
      ASCII punctuation. -/
  lowerChar_letters : ∀ c, 128 ≤ c.val → ∀ d ∈ lowerChar c,
    d = c ∨ d.isSpace = false ∧ (d.val < 128 → d.isAsciiLetter = true)
  upperChar_letters : ∀ c, 128 ≤ c.val → ∀ d ∈ upperChar c,
    d = c ∨ d.isSpace = false ∧ (d.val < 128 → d.isAsciiLetter = true)
  decimal_ascii : ∀ c, c.val < 128 →
    decimal c = if c.isAsciiDigit then some (digitValue c) else none
  decimal_lt : ∀ c d, decimal c = some d → d < 10
  isDigit_ascii : ∀ c, c.val < 128 → isDigit c = c.isAsciiDigit
  isAlpha_ascii : ∀ c, c.val < 128 → isAlpha c = c.isAsciiLetter

namespace UnicodeData

variable (U : UnicodeData)

/-! ## `float()` -/

/-- `_PyUnicode_TransformDecimalAndSpaceToASCII` on one character. -/
def transformChar (c : CodePoint) : CodePoint :=
  if c.val < 128 then c
  else if c.isSpace then ' '
  else
    match U.decimal c with
    | some d => digitChar d
    | none => '?'

/-- The blanks `float()` and `int()` skip at both ends. -/
def isAsciiBlank (c : CodePoint) : Bool := (9 ≤ c.val && c.val ≤ 13) || c.val == 32

/-- The text without its underscores, each of which must stand between two digits. -/
def dropUnderscores : Bool → Str → Option Str
  | _, [] => some []
  | afterDigit, c :: rest =>
    if c = '_' then
      if afterDigit ∧ (rest.head?.map CodePoint.isAsciiDigit).getD false then
        dropUnderscores false rest
      else none
    else (dropUnderscores c.isAsciiDigit rest).map (c :: ·)

/-- The text `float()` and `int()` parse: blanks stripped, digits in ASCII, underscores dropped. -/
def numericText (s : Str) : Option Str :=
  dropUnderscores false
    (((s.map U.transformChar).dropWhile isAsciiBlank).rdropWhile isAsciiBlank)

/-- `float(s)`, `none` for a `ValueError`. -/
def float (s : Str) : Option Float := (U.numericText s).bind asciiFloat

/-- `int(s)`, `none` for a `ValueError`; the limit on the number of digits is not modelled. -/
def int (s : Str) : Option Int := (U.numericText s).bind signedDigits

theorem dropUnderscores_eq_some (s : Str) (h : ∀ c ∈ s, c ≠ CodePoint.ofChar '_') (b : Bool) :
    dropUnderscores b s = some s := by
  induction s generalizing b with
  | nil => rfl
  | cons c s ih =>
    rw [dropUnderscores, if_neg (h c (by simp)), ih fun d hd => h d (by simp [hd])]
    rfl

theorem rdropWhile_eq_self {p : CodePoint → Bool} {s : Str} (h : ∀ c ∈ s, p c = false) :
    s.rdropWhile p = s := by
  rw [List.rdropWhile_eq_self_iff]
  intro hl
  simp [h _ (List.getLast_mem hl)]

theorem dropWhile_eq_self {p : CodePoint → Bool} {s : Str} (h : ∀ c ∈ s, p c = false) :
    s.dropWhile p = s := by
  cases s with
  | nil => rfl
  | cons c s => simp [h c (by simp)]

theorem isFloatChar_facts {c : CodePoint} (h : isFloatChar c = true) :
    c.val < 128 ∧ isAsciiBlank c = false ∧ c.isSpace = false ∧ c ≠ CodePoint.ofChar '_' := by
  simp only [isFloatChar, CodePoint.isAsciiAlnum, CodePoint.isAsciiLetter, CodePoint.isUpperAscii,
    CodePoint.isLowerAscii, CodePoint.isAsciiDigit, Bool.or_eq_true, Bool.and_eq_true,
    decide_eq_true_eq, CodePoint.eq_ofChar_iff, Char.reduceToNat] at h
  simp only [isAsciiBlank, CodePoint.isSpace, ne_eq, CodePoint.eq_ofChar_iff, Char.reduceToNat]
  refine ⟨by omega, ?_, ?_, by omega⟩
  · simp only [Bool.or_eq_false_iff, Bool.and_eq_false_iff, decide_eq_false_iff_not, beq_eq_false_iff_ne]
    omega
  · simp only [Bool.or_eq_false_iff, Bool.and_eq_false_iff, decide_eq_false_iff_not, beq_eq_false_iff_ne]
    omega

/-- Text of the characters a float prints is parsed as it is. -/
theorem float_of_floatChars {s : Str} (h : ∀ c ∈ s, isFloatChar c = true) :
    U.float s = asciiFloat s := by
  have hmap : s.map U.transformChar = s := by
    conv_rhs => rw [← List.map_id s]
    refine List.map_congr_left fun c hc => ?_
    rw [transformChar, if_pos (isFloatChar_facts (h c hc)).1, id_eq]
  have hblank : ∀ c ∈ s, isAsciiBlank c = false := fun c hc => (isFloatChar_facts (h c hc)).2.1
  rw [float, numericText, hmap, dropWhile_eq_self hblank, rdropWhile_eq_self hblank,
    dropUnderscores_eq_some _ fun c hc => (isFloatChar_facts (h c hc)).2.2.2]
  rfl

/-! ## Letter case -/

/-- Whether the first character that is not case-ignorable is a cased one. -/
def casedFirst (s : Str) : Bool := ((s.dropWhile U.caseIgnorable).head?.map U.cased).getD false

/-- `str.lower` of a text, `before` being what precedes it, the nearest character first. -/
def lowerAfter (before : Str) : Str → Str
  | [] => []
  | c :: rest =>
    (if c = capitalSigma then
      [if U.casedFirst before && !U.casedFirst rest then finalSigma else smallSigma]
    else U.lowerChar c) ++ lowerAfter (c :: before) rest

/-- `s.lower()` -/
def lower (s : Str) : Str := U.lowerAfter [] s

/-- `s.upper()` -/
def upper (s : Str) : Str := s.flatMap U.upperChar

/-- What a case mapping may make of the character `c`. -/
def Mapped (c d : CodePoint) : Prop :=
  d = c ∨ d.isSpace = false ∧ (d.val < 128 → d.isAsciiLetter = true)

/-- A text mapped character by character, each to at least one character. -/
inductive MappedText : Str → Str → Prop
  | nil : MappedText [] []
  | cons {c : CodePoint} {block s t : Str} (hne : block ≠ []) (h : ∀ d ∈ block, Mapped c d)
    (hs : MappedText s t) : MappedText (c :: s) (block ++ t)

theorem asciiLower_mapped (c : CodePoint) : Mapped c (asciiLower c) := by
  unfold asciiLower
  split_ifs with h
  · simp only [CodePoint.isUpperAscii, Bool.and_eq_true, decide_eq_true_eq] at h
    have hval : (Fin.ofNat 0x110000 (c.val + 32)).val = c.val + 32 := CodePoint.val_ofNat (by omega)
    right
    simp only [CodePoint.isSpace, CodePoint.isAsciiLetter, CodePoint.isUpperAscii,
      CodePoint.isLowerAscii, hval, Bool.or_eq_false_iff, Bool.and_eq_false_iff, Bool.or_eq_true,
      Bool.and_eq_true, decide_eq_false_iff_not, decide_eq_true_eq, beq_eq_false_iff_ne]
    omega
  · exact .inl rfl

theorem lowerChar_mapped (c : CodePoint) : ∀ d ∈ U.lowerChar c, Mapped c d := by
  intro d hd
  by_cases hc : c.val < 128
  · rw [U.lowerChar_ascii c hc, List.mem_singleton] at hd
    rw [hd]
    exact asciiLower_mapped c
  · exact U.lowerChar_letters c (by omega) d hd

theorem sigma_mapped (b : Bool) : Mapped capitalSigma (if b then finalSigma else smallSigma) := by
  right
  cases b <;> decide

theorem lowerAfter_mapped (before s : Str) : MappedText s (U.lowerAfter before s) := by
  induction s generalizing before with
  | nil => exact .nil
  | cons c s ih =>
    rw [lowerAfter]
    by_cases hc : c = capitalSigma
    · rw [if_pos hc]
      refine .cons (by simp) (fun d hd => ?_) (ih _)
      rw [List.mem_singleton.mp hd, hc]
      exact sigma_mapped _
    · rw [if_neg hc]
      exact .cons (U.lowerChar_ne_nil c) (U.lowerChar_mapped c) (ih _)

theorem lower_mapped (s : Str) : MappedText s (U.lower s) := U.lowerAfter_mapped [] s

theorem MappedText.length_le {s t : Str} (h : MappedText s t) : s.length ≤ t.length := by
  induction h with
  | nil => exact le_refl 0
  | cons hne _ _ ih =>
    have hpos := List.length_pos_iff.mpr hne
    rw [List.length_cons, List.length_append]
    omega

/-- A case mapping of one text has one length, wherever the text stands. -/
theorem length_lowerAfter (before s : Str) : (U.lowerAfter before s).length =
    (s.map fun c => if c = capitalSigma then 1 else (U.lowerChar c).length).sum := by
  induction s generalizing before with
  | nil => rfl
  | cons c s ih =>
    rw [lowerAfter, List.length_append, ih, List.map_cons, List.sum_cons]
    congr 1
    split_ifs <;> rfl

theorem length_lower_append (s t : Str) :
    (U.lower (s ++ t)).length = (U.lower s).length + (U.lower t).length := by
  simp only [lower, length_lowerAfter, List.map_append, List.sum_append]

theorem getLast?_lowerAfter (before s : Str) {c : CodePoint} (hc : c.val < 128) :
    (U.lowerAfter before (s ++ [c])).getLast? = some (asciiLower c) := by
  have hsigma : c ≠ capitalSigma := by
    rintro rfl
    exact absurd hc (by decide)
  induction s generalizing before with
  | nil =>
    rw [List.nil_append, lowerAfter, if_neg hsigma, U.lowerChar_ascii c hc]
    rfl
  | cons d s ih =>
    have hne : U.lowerAfter (d :: before) (s ++ [c]) ≠ [] := by
      intro hnil
      simpa [hnil] using ih (d :: before)
    rw [List.cons_append, lowerAfter, List.getLast?_append_of_ne_nil _ hne, ih]

/-- Texts whose last letters differ, ignoring case, differ ignoring case. -/
theorem lower_append_ne (s : Str) {c d : CodePoint} (hc : c.val < 128) (hd : d.val < 128)
    (hne : asciiLower c ≠ asciiLower d) : U.lower (s ++ [c]) ≠ U.lower (s ++ [d]) := by
  intro heq
  have hlast := congrArg List.getLast? heq
  rw [lower, lower, U.getLast?_lowerAfter [] s hc, U.getLast?_lowerAfter [] s hd] at hlast
  exact hne (Option.some.inj hlast)

/-! ## A small database -/

def dotlessI : CodePoint := 0x131

theorem asciiLower_val (c : CodePoint) :
    (asciiLower c).val = if c.isUpperAscii then c.val + 32 else c.val := by
  unfold asciiLower
  split_ifs with h
  · simp only [CodePoint.isUpperAscii, Bool.and_eq_true, decide_eq_true_eq] at h
    exact CodePoint.val_ofNat (by omega)
  · rfl

theorem asciiUpper_val (c : CodePoint) :
    (asciiUpper c).val = if c.isLowerAscii then c.val - 32 else c.val := by
  unfold asciiUpper
  split_ifs with h
  · simp only [CodePoint.isLowerAscii, Bool.and_eq_true, decide_eq_true_eq] at h
    exact CodePoint.val_ofNat (by omega)
  · rfl

def smallLower (c : CodePoint) : CodePoint := if c = capitalSigma then smallSigma else asciiLower c

def smallUpper (c : CodePoint) : CodePoint :=
  if c = smallSigma ∨ c = finalSigma then capitalSigma
  else if c = dotlessI then 'I'
  else asciiUpper c

theorem smallLower_val (c : CodePoint) : (smallLower c).val =
    if c.val = 0x3A3 then 0x3C3 else if 65 ≤ c.val ∧ c.val ≤ 90 then c.val + 32 else c.val := by
  have hsigma : c = capitalSigma ↔ c.val = 0x3A3 := Fin.ext_iff
  simp only [smallLower, hsigma, apply_ite Fin.val, asciiLower_val, CodePoint.isUpperAscii,
    Bool.and_eq_true, decide_eq_true_eq]
  rfl

theorem smallUpper_val (c : CodePoint) : (smallUpper c).val =
    if c.val = 0x3C3 ∨ c.val = 0x3C2 then 0x3A3 else if c.val = 0x131 then 73
    else if 97 ≤ c.val ∧ c.val ≤ 122 then c.val - 32 else c.val := by
  have hsmall : c = smallSigma ↔ c.val = 0x3C3 := Fin.ext_iff
  have hfinal : c = finalSigma ↔ c.val = 0x3C2 := Fin.ext_iff
  have hdotless : c = dotlessI ↔ c.val = 0x131 := Fin.ext_iff
  simp only [smallUpper, hsmall, hfinal, hdotless, apply_ite Fin.val, asciiUpper_val,
    CodePoint.isLowerAscii, Bool.and_eq_true, decide_eq_true_eq]
  rfl

theorem digitValue_lt {c : CodePoint} (h : c.isAsciiDigit = true) : digitValue c < 10 := by
  simp only [CodePoint.isAsciiDigit, Bool.and_eq_true, decide_eq_true_eq] at h
  rw [digitValue]
  omega

theorem smallAlpha_ascii {c : CodePoint} (hc : c.val < 128) :
    (c.isAsciiLetter || c.val == 0x3A3 || c.val == 0x3C3 || c.val == 0x3C2 || c.val == 0x131) = c.isAsciiLetter := by
  simp only [Bool.or_assoc, Bool.or_eq_left_iff_imp, Bool.or_eq_true, beq_iff_eq]
  omega

/-- The database of the ASCII letters, the sigmas and `ı`, whose capital is the ASCII `I`. -/
def small : UnicodeData where
  lowerChar c := [smallLower c]
  upperChar c := [smallUpper c]
  cased c := c.isAsciiLetter || c = capitalSigma || c = smallSigma || c = finalSigma || c = dotlessI
  caseIgnorable c := c = '\'' || c = '.' || c = ':' || c = '^' || c = '`'
  decimal c := if c.isAsciiDigit then some (digitValue c) else none
  isDigit c := c.isAsciiDigit
  isAlpha c := c.isAsciiLetter || c.val == 0x3A3 || c.val == 0x3C3 || c.val == 0x3C2 || c.val == 0x131
  lowerChar_ascii c hc := by
    rw [smallLower, if_neg]
    rintro rfl
    exact absurd hc (by decide)
  upperChar_ascii c hc := by
    rw [smallUpper, if_neg, if_neg]
    · rintro rfl
      exact absurd hc (by decide)
    · rintro (rfl | rfl) <;> exact absurd hc (by decide)
  lowerChar_fixed c d hd := by
    obtain rfl := List.mem_singleton.mp hd
    have hsigma : smallLower c = capitalSigma ↔ (smallLower c).val = 0x3A3 := Fin.ext_iff
    rw [List.singleton_inj, Fin.ext_iff, smallLower_val, ne_eq, hsigma, smallLower_val]
    split_ifs <;> omega
  upperChar_fixed c d hd := by
    obtain rfl := List.mem_singleton.mp hd
    rw [List.singleton_inj, Fin.ext_iff, smallUpper_val, smallUpper_val]
    split_ifs <;> omega
  lowerChar_sigma := by decide
  lowerChar_ne_nil c := by simp
  upperChar_ne_nil c := by simp
  lowerChar_letters c hc d hd := by
    obtain rfl := List.mem_singleton.mp hd
    by_cases hsigma : c = capitalSigma
    · subst hsigma
      exact .inr (by decide)
    · left
      have hval : c.val ≠ 0x3A3 := fun h => hsigma (Fin.ext h)
      rw [Fin.ext_iff, smallLower_val, if_neg hval, if_neg (by omega)]
  upperChar_letters c hc d hd := by
    obtain rfl := List.mem_singleton.mp hd
    by_cases hsmall : c = smallSigma ∨ c = finalSigma
    · rw [smallUpper, if_pos hsmall]
      exact .inr (by decide)
    · by_cases hdotless : c = dotlessI
      · subst hdotless
        exact .inr (by decide)
      · left
        rw [smallUpper, if_neg hsmall, if_neg hdotless, Fin.ext_iff, asciiUpper_val,
          if_neg (by simp [CodePoint.isLowerAscii]; omega)]
  decimal_ascii c hc := rfl
  decimal_lt c d hd := by
    split_ifs at hd with h
    cases hd
    exact digitValue_lt h
  isDigit_ascii c hc := rfl
  isAlpha_ascii _ hc := smallAlpha_ascii hc

end UnicodeData

end Python
