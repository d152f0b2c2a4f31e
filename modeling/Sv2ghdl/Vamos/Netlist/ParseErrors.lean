import Sv2ghdl.Vamos.Netlist.ExprParser
import Sv2ghdl.Vamos.Netlist.NumberTokens

/-!
# What parsing raises

The lexers choose a pattern by `isdigit` and `isalpha`, which hold of more characters than the patterns match.
-/

open Python

namespace Vamos.Netlist.Expression

variable (U : UnicodeData) (M : Libm)

/-- A digit that is no `\d`, also behind a point, or a letter that is not one of `[A-Za-z]`. -/
def Unmatched (c : CodePoint) (rest : Str) : Prop :=
  (U.isDigit c = true ∧ isDecimal U c = false) ∨
    (c = '.' ∧ ∃ d ∈ rest.head?, U.isDigit d = true ∧ isDecimal U d = false) ∨
    (U.isDigit c = false ∧ U.isAlpha c = true ∧ c.isAsciiLetter = false)

/-! ## The patterns -/

theorem numberToken_eq_none (dialect : Dialect) {c : CodePoint} {rest : Str} :
    numberToken U dialect (c :: rest) = none ↔
      isDecimal U c = false ∧ (c = '.' → ∀ d ∈ rest.head?, isDecimal U d = false) := by
  rw [numberToken, Option.map_eq_none_iff, matchMantissa]
  cases hc : isDecimal U c with
  | true =>
    have hwhole : (c :: rest).takeWhile (isDecimal U) ≠ [] := by simp [hc]
    simp only [Bool.true_eq_false, false_and, iff_false]
    split
    · simp [hwhole]
    · split_ifs with hpoint hboth
      · exact absurd hboth.1 hwhole
      · simp
      · simp
  | false =>
    rw [List.takeWhile_cons_of_neg (by simp [hc]), List.dropWhile_cons_of_neg (by simp [hc])]
    by_cases hpoint : c = '.'
    · simp only [hpoint, if_true, true_and, forall_const]
      cases rest with
      | nil => simp
      | cons d rest =>
        cases hd : isDecimal U d <;> simp [hd]
    · simp [hpoint]

theorem nameToken_eq_none {c : CodePoint} {rest : Str} :
    nameToken (c :: rest) = none ↔ isUnitChar c = false := by
  rw [nameToken]
  cases isUnitChar c <;> simp

/-! ## The steps of the lexers -/

/-- A step whose errors are `ExprError`s. -/
def Fails {α : Type} (r : Except ParseError α) : Prop := ∀ err, r = .error err → err.isExprError = true

theorem Fails.ok {α : Type} (a : α) : Fails (.ok a) := fun _ h => nomatch h

theorem Fails.bind {α β : Type} {r : Except ParseError α} {f : α → Except ParseError β} (hr : Fails r)
    (hf : ∀ a, Fails (f a)) : Fails (r >>= f) := by
  cases r with
  | error err =>
    intro _ h
    cases h
    exact hr err rfl
  | ok a => exact hf a

theorem LexState.fails (s : LexState) (message : Message) : Fails (s.fail message) := by
  intro err h
  cases h
  rfl

theorem lexString_fails (s : LexState) (rest : Str) : Fails (lexString s rest) := by
  rw [lexString]
  split
  · exact Fails.ok _
  · exact s.fails _

theorem lexClose_fails (s : LexState) (c : CodePoint) : Fails (lexClose s c) := by
  rw [lexClose]
  split
  · exact s.fails _
  · split_ifs
    · exact Fails.ok _
    · exact s.fails _

theorem lexOperator_fails (ops : List (Str × Op)) (unknown : CodePoint → Message) (s : LexState) (c : CodePoint)
    (rest : Str) : Fails (lexOperator ops unknown s c rest) := by
  rw [lexOperator]
  split_ifs
  · exact s.fails _
  · split
    · exact Fails.ok _
    · exact s.fails _

theorem rawParts_fails (func : Str) (pos : Nat) (parts : List Str) : Fails (rawParts func pos parts) := by
  induction parts generalizing pos with
  | nil => exact Fails.ok _
  | cons part parts ih =>
    rw [rawParts]
    split
    · intro err h
      cases h
      rfl
    · intro err h
      cases h
      rfl
    · exact (ih _).bind fun _ => Fails.ok _

theorem rawNames_fails (func : Str) (lparen : Nat) (rest : Str) : Fails (rawNames func lparen rest) := by
  rw [rawNames]
  split
  · intro err h
    cases h
    rfl
  · exact (rawParts_fails _ _ _).bind fun _ => Fails.ok _

/-- The error of a step is an `ExprError`, or the one of a pattern that does not match. -/
def FailsUnless (U : UnicodeData) (c : CodePoint) (rest : Str) (r : LexStep) : Prop :=
  ∀ err, r = .error err → err.isExprError = true ∨ Unmatched U c rest

theorem Fails.unless {c : CodePoint} {rest : Str} {r : LexStep} (h : Fails r) : FailsUnless U c rest r :=
  fun err herr => .inl (h err herr)

theorem lexNumber_fails {dialect : Dialect} {raised : NumberError → ParseError} {s : LexState} {c : CodePoint}
    {rest : Str} (hstart : startsNumber U c rest = true)
    (hraised : ∀ lexeme e, numberToken U dialect (c :: rest) = some lexeme → number U lexeme dialect = .error e →
      (raised e).isExprError = true) : FailsUnless U c rest (lexNumber U dialect raised s (c :: rest)) := by
  intro err herr
  rw [lexNumber] at herr
  cases htoken : numberToken U dialect (c :: rest) with
  | none =>
    obtain ⟨hc, hpoint⟩ := (numberToken_eq_none U dialect).mp htoken
    right
    rw [startsNumber, Bool.or_eq_true, Bool.and_eq_true, decide_eq_true_eq] at hstart
    rcases hstart with hdigit | ⟨rfl, hnext⟩
    · exact .inl ⟨hdigit, hc⟩
    · cases rest with
      | nil => cases hnext
      | cons d rest => exact .inr (.inl ⟨rfl, d, rfl, hnext, hpoint rfl d rfl⟩)
  | some lexeme =>
    rw [htoken] at herr
    cases hnumber : number U lexeme dialect with
    | ok value =>
      simp only [hnumber] at herr
      cases herr
    | error e =>
      simp only [hnumber, Except.error.injEq] at herr
      exact .inl (herr ▸ hraised lexeme e htoken hnumber)

theorem unmatched_of_nameToken {c : CodePoint} {rest : Str} (hstart : ¬ startsNumber U c rest = true)
    (halpha : (U.isAlpha c || c = '_') = true) (h : nameToken (c :: rest) = none) : Unmatched U c rest := by
  have hunit := nameToken_eq_none.mp h
  rw [isUnitChar, Bool.or_eq_false_iff, decide_eq_false_iff_not] at hunit
  rw [startsNumber, Bool.or_eq_true, not_or, Bool.not_eq_true] at hstart
  rw [Bool.or_eq_true, decide_eq_true_eq] at halpha
  exact .inr (.inr ⟨hstart.1, halpha.resolve_right hunit.2, hunit.1⟩)

theorem lexName_fails {s : LexState} {c : CodePoint} {rest : Str} (hstart : ¬ startsNumber U c rest = true)
    (halpha : (U.isAlpha c || c = '_') = true) : FailsUnless U c rest (lexName U s (c :: rest)) := by
  intro err herr
  rw [lexName] at herr
  cases htoken : nameToken (c :: rest) with
  | none => exact .inr (unmatched_of_nameToken U hstart halpha htoken)
  | some word =>
    simp only [htoken] at herr
    split_ifs at herr
    · exact .inl ((rawNames_fails _ _ _).bind (fun _ => Fails.ok _) err herr)
    · cases herr

theorem lexNameSpectre_fails {spice : Bool} {s : LexState} {c : CodePoint} {rest : Str}
    (hstart : ¬ startsNumber U c rest = true) (halpha : (U.isAlpha c || c = '_') = true) :
    FailsUnless U c rest (lexNameSpectre U spice s (c :: rest)) := by
  intro err herr
  rw [lexNameSpectre] at herr
  cases htoken : nameToken (c :: rest) with
  | none => exact .inr (unmatched_of_nameToken U hstart halpha htoken)
  | some word =>
    simp only [htoken] at herr
    split_ifs at herr
    · cases herr
    · cases herr

theorem lexStep_fails (hspace : ∀ c, isDecimal U c = true → c.isSpace = false) (s : LexState) (c : CodePoint)
    (rest : Str) : FailsUnless U c rest (lexStep U s c rest) := by
  rw [lexStep]
  split_ifs with _ hstart halpha
  · exact (Fails.ok _).unless U
  · apply lexNumber_fails U hstart
    intro lexeme e htoken hnumber
    obtain ⟨v, hv⟩ := number_of_token U hspace htoken
    rw [hv] at hnumber
    cases hnumber
  · exact lexName_fails U hstart halpha
  · exact (lexString_fails s rest).unless U
  · exact (Fails.ok _).unless U
  · exact (lexClose_fails s c).unless U
  · exact (lexOperator_fails _ _ s c rest).unless U

theorem lexSpectreStep_fails (dialect : Dialect) (s : LexState) (c : CodePoint) (rest : Str) :
    FailsUnless U c rest (lexSpectreStep U dialect s c rest) := by
  rw [lexSpectreStep]
  split_ifs with _ hstart halpha
  · exact (Fails.ok _).unless U
  · exact lexNumber_fails U hstart fun _ _ _ _ => rfl
  · exact lexNameSpectre_fails U hstart halpha
  · exact (lexString_fails s rest).unless U
  · exact (Fails.ok _).unless U
  · exact (lexClose_fails s c).unless U
  · exact (lexOperator_fails _ _ s c rest).unless U

theorem step_fails (hspace : ∀ c, isDecimal U c = true → c.isSpace = false) (dialect : Dialect) (s : LexState)
    (c : CodePoint) (rest : Str) : FailsUnless U c rest ((lexer U dialect).step s c rest) := by
  cases dialect with
  | hspice => exact lexStep_fails U hspace s c rest
  | spectre => exact lexSpectreStep_fails U _ s c rest
  | spectreSpice => exact lexSpectreStep_fails U _ s c rest

theorem isBlank_ascii {c : CodePoint} (h : isBlank c = true) :
    c.val < 128 ∧ c.isAsciiDigit = false ∧ c.isAsciiLetter = false ∧ c ≠ CodePoint.ofChar '.' := by
  simp only [isBlank, Bool.or_eq_true, decide_eq_true_eq] at h
  rcases h with ((rfl | rfl) | rfl) | rfl <;> decide

theorem isBlank_unmatched {c : CodePoint} {rest : Str} (h : Unmatched U c rest) : isBlank c = false := by
  rw [← Bool.not_eq_true]
  intro hblank
  obtain ⟨hascii, hdigit, hletter, hpoint⟩ := isBlank_ascii hblank
  rcases h with ⟨hc, -⟩ | ⟨hc, -⟩ | ⟨-, hc, -⟩
  · rw [U.isDigit_ascii c hascii, hdigit] at hc
    cases hc
  · exact hpoint hc
  · rw [U.isAlpha_ascii c hascii, hletter] at hc
    cases hc

/-- An unmatched character starts a number whose pattern does not match, or a name whose pattern does not. -/
theorem unmatched_cases {dialect : Dialect} {c : CodePoint} {rest : Str} (h : Unmatched U c rest) :
    startsNumber U c rest = true ∧ numberToken U dialect (c :: rest) = none ∨
      startsNumber U c rest = false ∧ U.isAlpha c = true ∧ nameToken (c :: rest) = none := by
  have hascii : U.isDigit ('.' : CodePoint) = false := U.isDigit_ascii _ (by decide)
  rcases h with ⟨hdigit, hc⟩ | ⟨rfl, d, hd, hdigit, hc⟩ | ⟨hdigit, halpha, hletter⟩
  · refine .inl ⟨by rw [startsNumber, hdigit, Bool.true_or], (numberToken_eq_none U dialect).mpr ⟨hc, ?_⟩⟩
    rintro rfl
    rw [hascii] at hdigit
    cases hdigit
  · refine .inl ⟨?_, (numberToken_eq_none U dialect).mpr ⟨not_isDecimal_point U, ?_⟩⟩
    · rw [startsNumber, Option.mem_def.mp hd, Option.map_some, Option.getD_some, hdigit]
      simp
    · intro _ d' hd'
      rw [Option.mem_def.mp hd, Option.mem_some_iff] at hd'
      exact hd' ▸ hc
  · have hlarge : ¬ c.val < 128 := by
      intro hlt
      rw [U.isAlpha_ascii c hlt, hletter] at halpha
      cases halpha
    have hne : ∀ d : Char, d.toNat < 128 → c ≠ CodePoint.ofChar d := by
      rintro d hd rfl
      exact hlarge (by rwa [CodePoint.val_ofChar])
    refine .inr ⟨?_, halpha, nameToken_eq_none.mpr ?_⟩
    · simp [startsNumber, hdigit, hne '.' (by decide)]
    · simp [isUnitChar, hletter, hne '_' (by decide)]

/-- Where no pattern matches, the step raises `AttributeError`. -/
theorem step_unmatched {dialect : Dialect} {s : LexState} {c : CodePoint} {rest : Str} (h : Unmatched U c rest) :
    (lexer U dialect).step s c rest = .error (.attributeError s.pos) := by
  have hblank := isBlank_unmatched U h
  have hcases : ∀ d, startsNumber U c rest = true ∧ numberToken U d (c :: rest) = none ∨ _ := fun d =>
    unmatched_cases U h
  cases dialect with
  | hspice =>
    show lexStep U s c rest = _
    rw [lexStep, if_neg (by simp [hblank])]
    rcases hcases .hspice with ⟨hstart, htoken⟩ | ⟨hstart, halpha, htoken⟩
    · rw [if_pos hstart, lexNumber, htoken]
    · rw [if_neg (by simp [hstart]), if_pos (by simp [halpha]), lexName, htoken]
  | spectre =>
    show lexSpectreStep U .spectre s c rest = _
    rw [lexSpectreStep, if_neg (by simp [hblank])]
    rcases hcases .spectre with ⟨hstart, htoken⟩ | ⟨hstart, halpha, htoken⟩
    · rw [if_pos hstart, lexNumber, htoken]
    · rw [if_neg (by simp [hstart]), if_pos (by simp [halpha]), lexNameSpectre, htoken]
  | spectreSpice =>
    show lexSpectreStep U .spectreSpice s c rest = _
    rw [lexSpectreStep, if_neg (by simp [hblank])]
    rcases hcases .spectreSpice with ⟨hstart, htoken⟩ | ⟨hstart, halpha, htoken⟩
    · rw [if_pos hstart, lexNumber, htoken]
    · rw [if_neg (by simp [hstart]), if_pos (by simp [halpha]), lexNameSpectre, htoken]

/-- The tokens end with the mark of the end, and an error is one of a step or of a group that stays open. -/
theorem lex_cases (dialect : Dialect) (text : Str) :
    (∃ err, (lexer U dialect).run 0 ⟨0, []⟩ text = .error err ∧ lex U dialect text = .error err) ∨
      Fails (lex U dialect text) ∧
        ∀ toks, lex U dialect text = .ok toks → toks.getLast? = some ⟨.eof, text.length⟩ := by
  rw [lex]
  cases (lexer U dialect).run 0 ⟨0, []⟩ text with
  | error err => exact .inl ⟨err, rfl, rfl⟩
  | ok r =>
    obtain ⟨toks, s⟩ := r
    right
    dsimp only
    split
    · refine ⟨?_, nofun⟩
      intro err h
      cases h
      rfl
    · refine ⟨Fails.ok _, ?_⟩
      rintro _ ⟨⟩
      simp

/-! ## The parser -/

theorem callSpectre_fails (funcs : Funcs) (func : Str) (t : Token) (args : List Expr) :
    Fails (callSpectre U funcs func t args) := by
  have hfail : ∀ message, Fails (.error (t.fail message) : Except ParseError Expr) := by
    intro message err h
    cases h
    rfl
  rw [callSpectre]
  split
  · split_ifs
    · exact hfail _
    · exact Fails.ok _
  · split
    · exact hfail _
    · split
      · exact hfail _
      · split
        · exact hfail _
        · exact Fails.ok _

variable (case : Case) (dialect : Dialect) (funcs : Funcs)

/-- What a token may do at the start of an operand: its errors are `ExprError`s, and a call is in front of `(`. -/
def NudFails (next : Option Token) : Pratt.Nud Token Expr ParseError → Prop
  | .leaf _ => True
  | .unary _ _ => True
  | .fail err => next.isSome → err.isExprError = true
  | .group empty => ∀ c, (empty c).isExprError = true
  | .call empty build =>
    (∃ n ∈ next, n.value = .opening '(') ∧ (∀ c, Fails (empty c)) ∧ ∀ as, Fails (build as)

theorem callNud_fails (t : Token) (word : Str) {n : Token} (hn : n.value = .opening '(') :
    NudFails (some n) (callNud U case dialect funcs t word) := by
  have hfail : ∀ (t : Token) message, Fails (.error (t.fail message) : Except ParseError Expr) := by
    intro t message err h
    cases h
    rfl
  rw [callNud]
  split_ifs with hspectre
  · refine ⟨⟨n, rfl, hn⟩, ?_, callSpectre_fails U funcs _ t⟩
    intro c
    dsimp only
    split
    · split_ifs
      · exact callSpectre_fails U funcs _ t []
      · exact hfail c _
    · exact hfail c _
  · dsimp only
    split
    · exact fun _ => rfl
    · exact ⟨⟨n, rfl, hn⟩, fun c => hfail c _, fun as => Fails.ok _⟩

theorem nameNud_fails (t : Token) (word : Str) (next : Option Token) :
    NudFails next (nameNud U M case dialect t word) := by
  rw [nameNud]
  split
  · trivial
  · split
    · trivial
    · exact fun _ => rfl

theorem nud_fails (t : Token) (next : Option Token) :
    NudFails next ((grammar U M case dialect funcs).nud t next) := by
  show NudFails next (nud U M case dialect funcs t next)
  obtain ⟨value, pos⟩ := t
  cases value with
  | num | str => trivial
  | node func args =>
    rw [nud]
    dsimp only
    split
    · trivial
    · exact fun _ => rfl
  | name word =>
    cases next with
    | none => exact nofun
    | some n =>
      rw [nud]
      dsimp only
      split_ifs with hn
      · exact callNud_fails U case dialect funcs _ word hn
      · exact nameNud_fails U M case dialect _ word _
  | op op =>
    cases op with
    | binary op => cases op <;> first | trivial | exact fun _ => rfl
    | bang => trivial
    | question | colon | comma => exact fun _ => rfl
  | opening c => exact fun _ => rfl
  | closing c => exact fun _ => rfl
  | eof => exact fun _ => rfl

theorem endMark (n : Nat) : (grammar U M case dialect funcs).EndMark ⟨.eof, n⟩ (·.isExprError = true) where
  nud := ⟨_, rfl, rfl⟩
  notCall t empty build h := by
    have hnud := nud_fails U M case dialect funcs t (some ⟨.eof, n⟩)
    rw [h] at hnud
    obtain ⟨⟨m, hm, hvalue⟩, -⟩ := hnud
    obtain rfl := Option.mem_some_iff.mp hm
    cases hvalue
  led := rfl
  isClose := rfl
  isComma := rfl
  isColon := rfl

theorem grammarErrors : (grammar U M case dialect funcs).Errors (·.isExprError = true) where
  nud t next e h := by
    have hnud := nud_fails U M case dialect funcs t (some next)
    rw [h] at hnud
    exact hnud rfl
  group t next c empty h := by
    have hnud := nud_fails U M case dialect funcs t next
    rw [h] at hnud
    exact hnud c
  empty t next c e empty build h he := by
    have hnud := nud_fails U M case dialect funcs t next
    rw [h] at hnud
    exact hnud.2.1 c e he
  build t next as e empty build h he := by
    have hnud := nud_fails U M case dialect funcs t next
    rw [h] at hnud
    exact hnud.2.2 as e he
  notClose _ := rfl
  notColon _ := rfl

variable {case dialect funcs}

/-- On the tokens of a text, the parser raises `ExprError`s only. -/
theorem parse_fails_of_lex {text : Str} (h : Fails (lex U dialect text))
    (hend : ∀ toks, lex U dialect text = .ok toks → toks.getLast? = some ⟨.eof, text.length⟩) :
    Fails (parse U M text case dialect funcs) := by
  rw [parse]
  cases hlex : lex U dialect text with
  | error err =>
    rw [hlex] at h
    intro _ herr
    cases herr
    exact h err rfl
  | ok toks =>
    have hlast := hend toks hlex
    cases toks with
    | nil => cases hlast
    | cons t toks =>
      dsimp only [Except.bind, bind, List.head?_cons]
      split_ifs with heof
      · intro err herr
        cases herr
        rfl
      have hmarked := ((grammar U M case dialect funcs).marked (endMark U M case dialect funcs text.length)
        (grammarErrors U M case dialect funcs) (Pratt.Grammar.fuelFor (t :: toks))).1 0 _ hlast
      have hfuel := (grammar U M case dialect funcs).expr_ne_fuel 0 (t :: toks)
      split
      · rename_i failure hexpr
        rw [hexpr] at hmarked hfuel
        intro err herr
        cases herr
        cases failure with
        | error e => exact hmarked
        | exhausted => exact hmarked.elim
        | fuel => exact absurd rfl hfuel
      · rename_i hexpr
        rw [hexpr] at hmarked
        cases hmarked
      · split_ifs
        · exact Fails.ok _
        · intro err herr
          cases herr
          rfl

/-- Parsing raises nothing but `ExprError`s, unless the lexer comes to a character that it takes for the start of a
number or of a name and that the pattern does not match: then it raises `AttributeError`.  The index of the next token
never passes the end. -/
theorem parse_fails_iff (hspace : ∀ c, isDecimal U c = true → c.isSpace = false) (text : Str) (case : Case)
    (dialect : Dialect) (funcs : Funcs) :
    (Fails (parse U M text case dialect funcs) ↔
      ∀ s c rest, (lexer U dialect).Reaches ⟨0, []⟩ text s (c :: rest) → ¬ Unmatched U c rest) ∧
    ∀ err, parse U M text case dialect funcs = .error err →
      err.isExprError = true ∨ ∃ pos, err = .attributeError pos := by
  have hraise : ∀ err, lex U dialect text = .error err → parse U M text case dialect funcs = .error err := by
    intro err h
    rw [parse, h]
    rfl
  rcases lex_cases U dialect text with ⟨err, hrun, hlex⟩ | ⟨hlex, hend⟩
  · -- a step fails
    obtain ⟨s, c, rest, hreach, hstep⟩ := (Scanner.run_error_iff _).mp hrun
    have hparse := hraise err hlex
    have hkind := step_fails U hspace dialect s c rest err hstep
    refine ⟨⟨?_, ?_⟩, ?_⟩
    · intro hfails s' c' rest' hreach' hunmatched
      have hrun' := (Scanner.run_error_iff _).mpr ⟨s', c', rest', hreach', step_unmatched U hunmatched⟩
      rw [hrun] at hrun'
      have herr := hfails err hparse
      rw [Except.error.inj hrun'] at herr
      cases herr
    · intro hall err' herr'
      rw [hparse] at herr'
      cases herr'
      exact hkind.resolve_right (hall s c rest hreach)
    · intro err' herr'
      rw [hparse] at herr'
      cases herr'
      rcases hkind with hkind | hunmatched
      · exact .inl hkind
      · rw [step_unmatched U hunmatched] at hstep
        exact .inr ⟨s.pos, (Except.error.inj hstep).symm⟩
  · have hparse := @parse_fails_of_lex U M case dialect funcs text hlex hend
    refine ⟨⟨?_, fun _ => hparse⟩, fun err herr => .inl (hparse err herr)⟩
    intro _ s c rest hreach hunmatched
    -- the lexer does not fail, so that it comes to no such character
    have hrun := (Scanner.run_error_iff _).mpr ⟨s, c, rest, hreach, step_unmatched U hunmatched⟩
    have herr : lex U dialect text = .error (.attributeError s.pos) := by rw [lex, hrun]
    exact Bool.false_ne_true (hlex _ herr)

/-- A letter that is not one of `[A-Za-z]` is an `AttributeError`. -/
theorem not_parse_fails_sigma : ¬ Fails (parse .small .small [smallSigma] .lower .hspice []) := by
  intro h
  exact Bool.false_ne_true (h (.attributeError 0) rfl)

theorem isSpace_decimal_small (c : CodePoint) (hc : isDecimal .small c = true) : c.isSpace = false := by
  have hdigit : c.isAsciiDigit = true := by
    by_contra hnot
    simp [isDecimal, UnicodeData.small, hnot] at hc
  simp only [CodePoint.isAsciiDigit, Bool.and_eq_true, decide_eq_true_eq] at hdigit
  simp only [CodePoint.isSpace, Bool.or_eq_false_iff, Bool.and_eq_false_iff, decide_eq_false_iff_not,
    beq_eq_false_iff_ne]
  omega

theorem parse_fails_small : Fails (parse .small .small (str "1.5k + a") .lower .spectre []) ↔
    ∀ s c rest, (lexer .small .spectre).Reaches ⟨0, []⟩ (str "1.5k + a") s (c :: rest) → ¬ Unmatched .small c rest :=
  (parse_fails_iff .small .small isSpace_decimal_small (str "1.5k + a") .lower .spectre []).1

end Vamos.Netlist.Expression
