import Sv2ghdl.Vamos.Netlist.Number

/-!
# Number tokens are numbers

What `_NUM_RE` takes from the front of a text is what `number` reads whole, so that it raises nothing
in HSPICE's dialect.
-/

open Python

namespace Vamos.Netlist.Expression

variable (U : UnicodeData)

/-- A mantissa: digits, or a point with digits on one side of it at least. -/
inductive IsMantissa : Str → Prop
  | whole {ds : Str} (hne : ds ≠ []) (hds : ∀ c ∈ ds, isDecimal U c = true) : IsMantissa ds
  | point {ds fs : Str} (hne : ds ++ fs ≠ []) (hds : ∀ c ∈ ds, isDecimal U c = true)
    (hfs : ∀ c ∈ fs, isDecimal U c = true) : IsMantissa (ds ++ ('.' : CodePoint) :: fs)

theorem isDecimal_takeWhile (s : Str) : ∀ c ∈ s.takeWhile (isDecimal U), isDecimal U c = true :=
  fun _ hc => List.mem_takeWhile_imp hc

theorem head_dropWhile (s : Str) : ∀ c ∈ (s.dropWhile (isDecimal U)).head?, isDecimal U c = false := by
  intro c hc
  have hhead := List.head?_dropWhile_not (isDecimal U) s
  rw [Option.mem_def.mp hc] at hhead
  simpa using hhead

theorem not_isDecimal_point : isDecimal U ('.' : CodePoint) = false := isDecimal_ascii U (by decide)

/-- Digits in front of what is no digit. -/
theorem split_decimals {ds rest : Str} (hds : ∀ c ∈ ds, isDecimal U c = true)
    (hrest : ∀ c ∈ rest.head?, isDecimal U c = false) :
    (ds ++ rest).takeWhile (isDecimal U) = ds ∧ (ds ++ rest).dropWhile (isDecimal U) = rest := by
  rw [List.takeWhile_append_of_pos hds, List.dropWhile_append_of_pos hds]
  cases rest with
  | nil => simp
  | cons c rest => simp [hrest c rfl]

/-- The mantissa at the front of a text is the mantissa of every text that stops it where this one does. -/
theorem matchMantissa_cases {s mant rest : Str} (h : matchMantissa U s = some (mant, rest)) :
    s = mant ++ rest ∧ IsMantissa U mant ∧ ∀ tail : Str, (∀ c ∈ tail.head?, c ∈ rest.head?) →
      matchMantissa U (mant ++ tail) = some (mant, tail) := by
  have hsplit := List.takeWhile_append_dropWhile (p := isDecimal U) (l := s)
  have hwhole := isDecimal_takeWhile U s
  have hstop := head_dropWhile U s
  rw [matchMantissa] at h
  generalize hds : s.takeWhile (isDecimal U) = ds at h hsplit hwhole
  generalize hafter : s.dropWhile (isDecimal U) = after at h hsplit hstop
  dsimp only at h
  cases after with
  | nil =>
    simp only [] at h
    split_ifs at h with hne
    cases h
    refine ⟨by simpa using hsplit.symm, .whole hne hwhole, ?_⟩
    intro tail htail
    cases tail with
    | nil =>
      obtain ⟨htake, hdrop⟩ := @split_decimals U _ [] hwhole (by simp)
      rw [matchMantissa, htake, hdrop]
      simp [hne]
    | cons c tail => exact absurd (htail c rfl) (by simp)
  | cons c after =>
    simp only [] at h
    split_ifs at h with hpoint hnone hne
    · -- a point, with the digits behind it
      cases h
      subst hpoint
      have hfs := isDecimal_takeWhile U after
      have hrest := head_dropWhile U after
      refine ⟨?_, .point (by simpa [not_and_or] using hnone) hwhole hfs, ?_⟩
      · rw [← hsplit, List.append_assoc, List.cons_append, List.takeWhile_append_dropWhile]
      · intro tail htail
        have htail' : ∀ c ∈ tail.head?, isDecimal U c = false := fun c hc => hrest c (htail c hc)
        obtain ⟨htake, hdrop⟩ := @split_decimals U ds
          (('.' : CodePoint) :: (after.takeWhile (isDecimal U) ++ tail)) hwhole (by
            intro c hc
            obtain rfl := Option.mem_some_iff.mp hc
            exact not_isDecimal_point U)
        obtain ⟨htake', hdrop'⟩ := split_decimals U hfs htail'
        rw [matchMantissa, List.append_assoc, List.cons_append, htake, hdrop]
        simp only [if_true, htake', hdrop', if_neg hnone]
    · cases h
      refine ⟨hsplit.symm, .whole hne hwhole, ?_⟩
      intro tail htail
      cases tail with
      | nil =>
        obtain ⟨htake, hdrop⟩ := @split_decimals U _ [] hwhole (by simp)
        rw [matchMantissa, htake, hdrop]
        simp [hne]
      | cons d tail =>
        obtain rfl := Option.mem_some_iff.mp (htail d rfl)
        obtain ⟨htake, hdrop⟩ := @split_decimals U _ (c :: tail) hwhole (by
          intro d hd
          exact hstop d hd)
        rw [matchMantissa, htake, hdrop]
        simp only [if_neg hpoint, if_neg hne]

theorem not_isDecimal_unit {c : CodePoint} (hc : isUnitChar c = true) : isDecimal U c = false := by
  simp only [isUnitChar, CodePoint.isAsciiLetter, CodePoint.isUpperAscii, CodePoint.isLowerAscii, Bool.or_eq_true,
    Bool.and_eq_true, decide_eq_true_eq, CodePoint.eq_ofChar_iff, Char.reduceToNat] at hc
  rw [isDecimal_ascii U (by omega)]
  simp only [CodePoint.isAsciiDigit, Bool.and_eq_false_iff, decide_eq_false_iff_not]
  omega

/-- Letters alone are no exponent. -/
theorem matchExponent_units (marks : Str) {units : Str} (h : ∀ c ∈ units, isUnitChar c = true) :
    matchExponent U marks units = none := by
  cases units with
  | nil => rfl
  | cons c units =>
    have hunits : ∀ d ∈ units, isUnitChar d = true := fun d hd => h d (List.mem_cons_of_mem c hd)
    have hsign : matchSign units = ([], units) := by
      cases units with
      | nil => rfl
      | cons d units =>
        rw [matchSign, if_neg]
        rintro (rfl | rfl)
        · exact absurd (hunits _ List.mem_cons_self) (by decide)
        · exact absurd (hunits _ List.mem_cons_self) (by decide)
    have hdigits : units.takeWhile (isDecimal U) = [] := by
      cases units with
      | nil => rfl
      | cons d units => simp [not_isDecimal_unit U (hunits d List.mem_cons_self)]
    rw [matchExponent, hsign]
    simp only [hdigits]
    exact if_neg fun hand => hand.2 rfl

/-- An exponent is read in front of what is no digit as it was read. -/
theorem matchExponent_again {marks s exp rest tail : Str} {mark : CodePoint}
    (h : matchExponent U marks s = some (mark, exp, rest)) (htail : ∀ c ∈ tail.head?, isDecimal U c = false) :
    matchExponent U marks (mark :: exp ++ tail) = some (mark, exp, tail) := by
  cases s with
  | nil => cases h
  | cons c s =>
    rw [matchExponent] at h
    generalize hsign : matchSign s = split at h
    obtain ⟨sign, digits⟩ := split
    dsimp only at h
    split_ifs at h with hmark
    obtain ⟨hmem, hne⟩ := hmark
    cases h
    have hexp := isDecimal_takeWhile U digits
    obtain ⟨htake, hdrop⟩ := split_decimals U hexp htail
    -- the sign is split off again
    have hagain : matchSign (sign ++ (digits.takeWhile (isDecimal U) ++ tail)) =
        (sign, digits.takeWhile (isDecimal U) ++ tail) := by
      cases s with
      | nil =>
        cases hsign
        exact absurd rfl hne
      | cons d s =>
        rw [matchSign] at hsign
        split_ifs at hsign with hd
        · cases hsign
          rw [List.singleton_append, matchSign, if_pos hd]
        · cases hsign
          obtain ⟨e, es, he⟩ := List.exists_cons_of_ne_nil hne
          have hed : e = d := by
            rw [List.takeWhile_cons] at he
            split_ifs at he
            exact (List.cons.inj he).1.symm
          subst hed
          rw [List.nil_append, he, List.cons_append, matchSign, if_neg hd]
    rw [List.cons_append, matchExponent, List.append_assoc, hagain]
    simp only [htake, hdrop]
    rw [if_pos ⟨hmem, hne⟩]

theorem matchUnits_all {units : Str} (h : ∀ c ∈ units, isUnitChar c = true) :
    matchUnits false units = (units, []) := by
  cases units with
  | nil => rfl
  | cons c units =>
    rw [matchUnits, if_neg (by simp), List.takeWhile_eq_self_iff.mpr h, List.dropWhile_eq_nil_iff.mpr h]

theorem isUnitChar_matchUnits (s : Str) : ∀ c ∈ (matchUnits false s).1, isUnitChar c = true := by
  cases s with
  | nil => simp [matchUnits]
  | cons c s =>
    rw [matchUnits, if_neg (by simp)]
    exact fun d hd => List.mem_takeWhile_imp hd

theorem head_matchUnits (s : Str) : ∀ c ∈ (matchUnits false s).1.head?, c ∈ s.head? := by
  cases s with
  | nil => simp [matchUnits]
  | cons c s =>
    rw [matchUnits, if_neg (by simp), List.takeWhile_cons]
    split_ifs <;> simp

/-- The parts of a token: a mantissa, an exponent and units, of which the last two may be missing. -/
theorem matchNumber_parts {mant : Str} (hspace : ∀ c, isDecimal U c = true → c.isSpace = false)
    (hmant : IsMantissa U mant) {tail : Str} (hagain : matchMantissa U (mant ++ tail) = some (mant, tail)) :
    matchNumber U .hspice (mant ++ tail) =
      let (exp, rest) :=
        match matchExponent U (str "eEdD") tail with
        | some (_, exp, rest) => (some exp, rest)
        | none => (none, tail)
      let (units, rest) := matchUnits false rest
      if rest.all CodePoint.isSpace then some ⟨mant, exp, units⟩ else none := by
  obtain ⟨c, rest, hhead, hc⟩ : ∃ c rest, mant = c :: rest ∧ (isDecimal U c = true ∨ c = '.') := by
    cases hmant with
    | whole hne hds =>
      obtain ⟨c, rest, rfl⟩ := List.exists_cons_of_ne_nil hne
      exact ⟨c, rest, rfl, .inl (hds c List.mem_cons_self)⟩
    | @point ds fs _ hds _ =>
      cases ds with
      | nil => exact ⟨_, _, rfl, .inr rfl⟩
      | cons c ds => exact ⟨c, _, rfl, .inl (hds c List.mem_cons_self)⟩
  have hstrip : Str.lstrip (mant ++ tail) = mant ++ tail := by
    have hblank : c.isSpace = false := by
      rcases hc with hc | rfl
      · exact hspace c hc
      · decide
    rw [hhead, Str.lstrip, List.cons_append, List.dropWhile_cons_of_neg (by simp [hblank])]
  have hsign : matchSign (mant ++ tail) = ([], mant ++ tail) := by
    rw [hhead, List.cons_append, matchSign, if_neg]
    rintro (rfl | rfl)
    · rcases hc with hc | hc
      · rw [isDecimal_ascii U (by decide)] at hc
        exact absurd hc (by decide)
      · exact absurd hc (by decide)
    · rcases hc with hc | hc
      · rw [isDecimal_ascii U (by decide)] at hc
        exact absurd hc (by decide)
      · exact absurd hc (by decide)
  rw [matchNumber, hstrip, hsign]
  simp only [hagain, Option.bind_some, List.nil_append, Dialect.exponentMarks]
  rfl

/-! ## The value of a token -/

theorem transformChar_decimal (hspace : ∀ c, isDecimal U c = true → c.isSpace = false) {c : CodePoint}
    (hc : isDecimal U c = true) : ∃ d, d < 10 ∧ U.transformChar c = digitChar d := by
  obtain ⟨d, hd⟩ := Option.isSome_iff_exists.mp hc
  refine ⟨d, U.decimal_lt c d hd, ?_⟩
  by_cases hascii : c.val < 128
  · rw [U.decimal_ascii c hascii] at hd
    split_ifs at hd with hdigit
    obtain rfl := Option.some.inj hd
    rw [UnicodeData.transformChar, if_pos hascii]
    -- an ASCII digit is the character of its value
    simp only [CodePoint.isAsciiDigit, Bool.and_eq_true, decide_eq_true_eq] at hdigit
    apply Fin.ext
    rw [val_digitChar (by unfold digitValue; omega), digitValue]
    omega
  · rw [UnicodeData.transformChar, if_neg hascii, hspace c hc, if_neg Bool.false_ne_true, hd]

theorem transformChar_decimals (hspace : ∀ c, isDecimal U c = true → c.isSpace = false) {s : Str}
    (hs : ∀ c ∈ s, isDecimal U c = true) :
    ∃ ds : List Nat, (∀ d ∈ ds, d < 10) ∧ s.map U.transformChar = digitText ds := by
  induction s with
  | nil => exact ⟨[], by simp, rfl⟩
  | cons c s ih =>
    obtain ⟨d, hd, hc⟩ := transformChar_decimal U hspace (hs c List.mem_cons_self)
    obtain ⟨ds, hds, htext⟩ := ih fun c hc => hs c (List.mem_cons_of_mem _ hc)
    refine ⟨d :: ds, ?_, ?_⟩
    · intro e he
      rcases List.mem_cons.mp he with rfl | he
      · exact hd
      · exact hds e he
    · rw [List.map_cons, hc, htext]
      rfl

theorem transformChar_floatChars {s : Str} (hs : ∀ c ∈ s, isFloatChar c = true) : s.map U.transformChar = s := by
  conv_rhs => rw [← List.map_id s]
  apply List.map_congr_left
  intro c hc
  rw [UnicodeData.transformChar, if_pos (UnicodeData.isFloatChar_facts (hs c hc)).1, id_eq]

/-- Only the digits in ASCII count. -/
theorem float_transform {s : Str} (hs : ∀ c ∈ s.map U.transformChar, isFloatChar c = true) :
    U.float s = asciiFloat (s.map U.transformChar) := by
  rw [← U.float_of_floatChars hs, UnicodeData.float, UnicodeData.float, UnicodeData.numericText,
    UnicodeData.numericText, transformChar_floatChars U hs]

theorem asciiFloat_of_point (rest : Str) :
    asciiFloat (('.' : CodePoint) :: rest) = unsignedFloat (('.' : CodePoint) :: rest) := by
  have hsign : ¬ ('.' : CodePoint) = '-' ∧ ¬ ('.' : CodePoint) = '+' := by decide
  have hlow : asciiLower ('.' : CodePoint) = '.' := by decide
  have hword : ∀ (first : CodePoint) (s : Str), first ≠ ('.' : CodePoint) →
      asciiLower ('.' : CodePoint) :: rest.map asciiLower ≠ first :: s := by
    intro first s hf heq
    rw [hlow] at heq
    exact hf (List.cons.inj heq).1.symm
  rw [asciiFloat, if_neg hsign.1, if_neg hsign.2]
  unfold magnitudeFloat
  rw [if_neg, if_neg]
  · exact hword 'n' _ (by decide)
  · exact not_or.mpr ⟨hword 'i' _ (by decide), hword 'i' _ (by decide)⟩

/-- A mantissa with any exponent is a float. -/
theorem scaledFloat_mantissa (hspace : ∀ c, isDecimal U c = true → c.isSpace = false) {mant : Str}
    (hmant : IsMantissa U mant) (k : Int) : ∃ v, scaledFloat U mant k = .ok v := by
  let exp : Str := ('e' : CodePoint) :: intText k
  have hexp : ∀ c ∈ exp, isFloatChar c = true := by
    intro c hc
    rcases List.mem_cons.mp hc with rfl | hc
    · decide
    · exact isFloatChar_intText k c hc
  have hstops : StopsDigits exp := by
    intro c hc
    obtain rfl := Option.mem_some_iff.mp hc
    rfl
  have hexponent : exponent exp = some k := by
    rw [exponent, if_pos (.inl rfl)]
    exact signedDigits_intText k
  -- the text in ASCII, and the mantissa of it
  obtain ⟨text, ds, n, hne, hds, htext, hchars, hmantissa, hhead⟩ : ∃ (text : Str) (ds : List Nat) (n : Nat), ds ≠ [] ∧
      (∀ d ∈ ds, d < 10) ∧ (mant ++ exp).map U.transformChar = text ∧ (∀ c ∈ text, isFloatChar c = true) ∧
      mantissa text = (digitText ds, n, exp) ∧ asciiFloat text = unsignedFloat text := by
    cases hmant with
    | whole hne hds =>
      obtain ⟨ds, hlt, htext⟩ := transformChar_decimals U hspace hds
      have hne' : ds ≠ [] := by
        rintro rfl
        exact hne (List.map_eq_nil_iff.mp htext)
      refine ⟨digitText ds ++ exp, ds, 0, hne', hlt, ?_, ?_, mantissa_whole ds exp hlt hstops ?_, ?_⟩
      · rw [List.map_append, htext, transformChar_floatChars U hexp]
      · intro c hc
        rcases List.mem_append.mp hc with hc | hc
        · exact isFloatChar_digitText hlt c hc
        · exact hexp c hc
      · intro c hc
        obtain rfl := Option.mem_some_iff.mp hc
        decide
      · obtain ⟨d, ds', rfl⟩ := List.exists_cons_of_ne_nil hne'
        exact asciiFloat_of_digit (isAsciiDigit_digitChar (hlt d List.mem_cons_self))
    | @point ds fs hne hds hfs =>
      obtain ⟨ds', hlt, htext⟩ := transformChar_decimals U hspace hds
      obtain ⟨fs', hlt', htext'⟩ := transformChar_decimals U hspace hfs
      have hpoint : U.transformChar ('.' : CodePoint) = '.' := by
        rw [UnicodeData.transformChar, if_pos (by decide)]
      refine ⟨digitText ds' ++ ('.' : CodePoint) :: (digitText fs' ++ exp), ds' ++ fs', fs'.length, ?_, ?_, ?_, ?_,
        mantissa_point ds' fs' exp hlt hlt' hstops, ?_⟩
      · intro hnil
        obtain ⟨rfl, rfl⟩ := List.append_eq_nil_iff.mp hnil
        exact hne (List.append_eq_nil_iff.mpr ⟨List.map_eq_nil_iff.mp htext, List.map_eq_nil_iff.mp htext'⟩)
      · intro d hd
        rcases List.mem_append.mp hd with hd | hd
        · exact hlt d hd
        · exact hlt' d hd
      · rw [List.append_assoc, List.cons_append, List.map_append, List.map_cons, List.map_append, htext, htext', hpoint,
          transformChar_floatChars U hexp]
      · intro c hc
        rcases List.mem_append.mp hc with hc | hc
        · exact isFloatChar_digitText hlt c hc
        · rcases List.mem_cons.mp hc with rfl | hc
          · decide
          · rcases List.mem_append.mp hc with hc | hc
            · exact isFloatChar_digitText hlt' c hc
            · exact hexp c hc
      · cases ds' with
        | nil => exact asciiFloat_of_point _
        | cons d ds' => exact asciiFloat_of_digit (isAsciiDigit_digitChar (hlt d List.mem_cons_self))
  have hfloat : U.float (mant ++ exp) = some (decimalFloat ds (k - n)) := by
    rw [float_transform U (by rw [htext]; exact hchars), htext, hhead]
    exact unsignedFloat_of_mantissa hmantissa hds hne hexponent
  refine ⟨decimalFloat ds (k - n), ?_⟩
  rw [scaledFloat]
  simp only [exp] at hfloat
  rw [hfloat]

/-- `number` reads every number token of HSPICE's dialect. -/
theorem number_of_token (hspace : ∀ c, isDecimal U c = true → c.isSpace = false) {text lexeme : Str}
    (h : numberToken U .hspice text = some lexeme) : ∃ v, number U lexeme .hspice = .ok v := by
  obtain ⟨⟨mant, rest⟩, hmatch, hlexeme⟩ := Option.map_eq_some_iff.mp h
  obtain ⟨-, hmant, hagain⟩ := matchMantissa_cases U hmatch
  obtain ⟨exp, units, hnumber⟩ : ∃ exp units, matchNumber U .hspice lexeme = some ⟨mant, exp, units⟩ := by
    simp only [Dialect.isSpectre] at hlexeme
    cases hexp : matchExponent U (str "eEdD") rest with
    | none =>
      simp only [hexp] at hlexeme
      have hunits := isUnitChar_matchUnits rest
      refine ⟨none, (matchUnits false rest).1, ?_⟩
      rw [← hlexeme, matchNumber_parts U hspace hmant (hagain _ (head_matchUnits rest)),
        matchExponent_units U _ hunits]
      simp only [matchUnits_all hunits]
      rfl
    | some parts =>
      obtain ⟨mark, exp, after⟩ := parts
      simp only [hexp] at hlexeme
      have hunits := isUnitChar_matchUnits after
      have hmark : ∀ c ∈ (mark :: exp ++ (matchUnits false after).1).head?, c ∈ rest.head? := by
        intro c hc
        obtain rfl := Option.mem_some_iff.mp hc
        cases rest with
        | nil => cases hexp
        | cons d rest =>
          rw [matchExponent] at hexp
          dsimp only at hexp
          split_ifs at hexp
          cases hexp
          rfl
      have hstop : ∀ c ∈ (matchUnits false after).1.head?, isDecimal U c = false := fun c hc =>
        not_isDecimal_unit U (hunits c (List.mem_of_mem_head? hc))
      have hexp' := matchExponent_again U hexp hstop
      refine ⟨some exp, (matchUnits false after).1, ?_⟩
      rw [← hlexeme, List.append_assoc, matchNumber_parts U hspace hmant (hagain _ hmark), hexp']
      simp only [matchUnits_all hunits]
      rfl
  rw [number, numberHspice, hnumber]
  dsimp only
  split
  · exact scaledFloat_mantissa U hspace hmant _
  · obtain ⟨v, hv⟩ := scaledFloat_mantissa U hspace hmant ((exp.map (intOf U)).getD 0)
    exact ⟨v * milFactor, by rw [hv]; rfl⟩
  · exact scaledFloat_mantissa U hspace hmant _

end Vamos.Netlist.Expression
