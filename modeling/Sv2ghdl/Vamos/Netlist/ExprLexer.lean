import Sv2ghdl.Syntax.Scan
import Sv2ghdl.Vamos.Netlist.Number

/-!
# Tokens of expressions

`_lex` and `_lex_spectre` of `vamos/netlist/expr.py`: the body of the loop is the step of a scanner.
The notes and warnings about numbers are not modelled.
-/

open Python

namespace Vamos.Netlist.Expression

/-! ## Tokens -/

/-- The value of an `OP` token; `^` reads as `**` and `^~` as `~^`. -/
inductive Op where
  | binary (op : BinaryOp)
  | bang
  | question
  | colon
  | comma
  deriving DecidableEq, Repr

/-- The kind of a token with its value. -/
inductive TokenValue where
  | num (value : Float)
  | name (word : Str)
  | str (text : Str)
  | node (func : Str) (args : List Str)
  | op (op : Op)
  | opening (c : CodePoint)
  | closing (c : CodePoint)
  | eof
  deriving DecidableEq

/-- `_Tok` -/
structure Token where
  value : TokenValue
  pos : Nat
  deriving DecidableEq

/-! ## Errors -/

/-- The messages of `ExprError`, with what they quote. -/
inductive Message where
  | unterminatedString
  | unbalanced (c : CodePoint)
  | unclosed (c : CodePoint)
  | notAnOperator (op : Str)
  | vector
  | unexpectedCharacter (c : CodePoint)
  | unterminatedCall (func : Str)
  | emptyName (func : Str)
  | badCharacter (c : CodePoint) (func : Str)
  | badNumber (e : NumberError)
  | emptyExpression
  | unexpected (t : TokenValue)
  | emptyParentheses
  | expectedOperand (t : TokenValue)
  | expectedClose (t : TokenValue)
  | expectedColon (t : TokenValue)
  | needsArguments (func : Str)
  | arguments (func : Str) (want : Nat) (got : Nat)
  | unknownFunction (func : Str)
  | behavioral (name : Str)
  | temperature
  deriving DecidableEq

/-- What lexing and parsing raise. -/
inductive ParseError where
  /-- `ExprError` -/
  | exprError (message : Message) (pos : Int)
  /-- `HspiceExtraFunction`, which is an `ExprError` too -/
  | hspiceExtraFunction (func : Str) (pos : Int)
  /-- a `ValueError` of `number` that nothing catches -/
  | valueError (e : NumberError)
  /-- `group` or `end` of a pattern that does not match -/
  | attributeError (pos : Nat)
  /-- `toks[k]` behind the last token -/
  | indexError
  /-- the fuel of the model, which is always enough -/
  | outOfFuel
  deriving DecidableEq

def ParseError.isExprError : ParseError → Bool
  | .exprError _ _ => true
  | .hspiceExtraFunction _ _ => true
  | _ => false

/-! ## The parts both lexers have -/

variable (U : UnicodeData)

/-- Where the lexer stands, and the groups that are open there, the innermost first. -/
structure LexState where
  pos : Nat
  groups : List (CodePoint × Nat)

abbrev LexStep := Except ParseError (LexState × List Token × Nat)

/-- Skip `len` characters. -/
def LexState.skip (s : LexState) (len : Nat) : LexStep := .ok (⟨s.pos + len, s.groups⟩, [], len - 1)

/-- A token of `len` characters. -/
def LexState.token (s : LexState) (value : TokenValue) (len : Nat) : LexStep :=
  .ok (⟨s.pos + len, s.groups⟩, [⟨value, s.pos⟩], len - 1)

def LexState.fail (s : LexState) (message : Message) : LexStep := .error (.exprError message s.pos)

/-- `" \t\r\n"` -/
def isBlank (c : CodePoint) : Bool := c = ' ' || c = '\t' || c = '\r' || c = '\n'

/-- `" \t"` -/
def isGap (c : CodePoint) : Bool := c = ' ' || c = '\t'

/-- A digit, or a point in front of one. -/
def startsNumber (c : CodePoint) (rest : Str) : Bool :=
  U.isDigit c || (c = '.' && (rest.head?.map U.isDigit).getD false)

/-- `[A-Za-z0-9_]` -/
def isNameChar (c : CodePoint) : Bool := isUnitChar c || c.isAsciiDigit

/-- `_NAME_RE` -/
def nameToken : Str → Option Str
  | [] => none
  | c :: rest => if isUnitChar c then some (c :: rest.takeWhile isNameChar) else none

/-- A `NUM` token; `raised` is what becomes of a `ValueError`. -/
def lexNumber (dialect : Dialect) (raised : NumberError → ParseError) (s : LexState) (text : Str) : LexStep :=
  match numberToken U dialect text with
  | none => .error (.attributeError s.pos)
  | some lexeme =>
    match number U lexeme dialect with
    | .ok value => s.token (.num value) lexeme.length
    | .error e => .error (raised e)

/-- A `STR` token, behind its opening `"`. -/
def lexString (s : LexState) (rest : Str) : LexStep :=
  match rest.findIdx? (· = ('"' : CodePoint)) with
  | some k => s.token (.str (rest.take k)) (k + 2)
  | none => s.fail .unterminatedString

/-- An opening `(`, or `{` or `'` where these group too. -/
def opens (quotes : Bool) (s : LexState) (c : CodePoint) : Bool :=
  c = '(' || quotes && (c = '{' || c = '\'' && s.groups.head?.map Prod.fst ≠ some ('\'' : CodePoint))

def closes (quotes : Bool) (c : CodePoint) : Bool := c = ')' || quotes && (c = '}' || c = '\'')

def lexOpen (s : LexState) (c : CodePoint) : LexStep :=
  .ok (⟨s.pos + 1, (c, s.pos) :: s.groups⟩, [⟨.opening c, s.pos⟩], 0)

/-- What a closing character has to close. -/
def want (c : CodePoint) : CodePoint := if c = ')' then '(' else if c = '}' then '{' else '\''

def lexClose (s : LexState) (c : CodePoint) : LexStep :=
  match s.groups with
  | [] => s.fail (.unbalanced c)
  | (opened, _) :: groups =>
    if opened = want c then .ok (⟨s.pos + 1, groups⟩, [⟨.closing c, s.pos⟩], 0)
    else s.fail (.unbalanced c)

/-- The first operator of the list that the text starts with, or the error of its first character. -/
def lexOperator (ops : List (Str × Op)) (unknown : CodePoint → Message) (s : LexState) (c : CodePoint)
    (rest : Str) : LexStep :=
  if (str "<>").isPrefixOf (c :: rest) then s.fail (.notAnOperator (str "<>"))
  else
    match ops.find? fun op => op.1.isPrefixOf (c :: rest) with
    | some (text, op) => s.token (.op op) text.length
    | none => s.fail (unknown c)

/-! ## HSPICE -/

/-- `_RAW_BAD` -/
def rawBad : Str := str " \t\r\n,()'\"{}="

/-- The names of the parts between the commas; `pos` is where the first part starts. -/
def rawParts (func : Str) : Nat → List Str → Except ParseError (List Str)
  | _, [] => .ok []
  | pos, part :: parts =>
    let name := Str.strip part
    match name, name.findIdx? (· ∈ rawBad) with
    | [], _ => .error (.exprError (.emptyName func) pos)
    | name, some k => .error (.exprError (.badCharacter (name.getD k 0) func)
        ((pos + (part.takeWhile CodePoint.isSpace).length + k : Nat) : Int))
    | name, none => do
      let names ← rawParts func (pos + part.length + 1) parts
      .ok (name :: names)

/-- `_raw_names` on the text behind the parenthesis at `lparen`: the names, and how many characters they take with the
parenthesis that closes them. -/
def rawNames (func : Str) (lparen : Nat) (rest : Str) : Except ParseError (List Str × Nat) :=
  match rest.findIdx? (· = (')' : CodePoint)) with
  | none => .error (.exprError (.unterminatedCall func) lparen)
  | some k => do
    let names ← rawParts func (lparen + 1) ((rest.take k).splitOn (',' : CodePoint))
    .ok (names, k + 1)

/-- A `NAME` token, or the `NODE` token of a node access with its names. -/
def lexName (s : LexState) (text : Str) : LexStep :=
  match nameToken text with
  | none => .error (.attributeError s.pos)
  | some word =>
    let after := text.drop word.length
    let gap := (after.takeWhile isGap).length
    let func := U.lower word
    if (after.drop gap).head? = some ('(' : CodePoint) ∧ isNodeFunc U func then do
      let lparen := word.length + gap
      let (args, len) ← rawNames func (s.pos + lparen) (text.drop (lparen + 1))
      s.token (.node func args) (lparen + 1 + len)
    else s.token (.name word) word.length

/-- `_OPS`, with what each reads as. -/
def hspiceOps : List (Str × Op) :=
  [(str "**", .binary .power), (str "==", .binary .eq), (str "!=", .binary .ne), (str "<=", .binary .le),
    (str ">=", .binary .ge), (str "&&", .binary .and), (str "||", .binary .or), (str "+", .binary .add),
    (str "-", .binary .sub), (str "*", .binary .mul), (str "/", .binary .div), (str "^", .binary .power),
    (str "<", .binary .lt), (str ">", .binary .gt), (str "!", .bang), (str "?", .question), (str ":", .colon),
    (str ",", .comma)]

def unknownHspice (c : CodePoint) : Message :=
  if c ∈ str "&|~%=" then .notAnOperator [c] else .unexpectedCharacter c

/-- The body of the loop of `_lex`. -/
def lexStep (s : LexState) (c : CodePoint) (rest : Str) : LexStep :=
  if isBlank c then s.skip 1
  else if startsNumber U c rest then lexNumber U .hspice .valueError s (c :: rest)
  else if U.isAlpha c || c = '_' then lexName U s (c :: rest)
  else if c = '"' then lexString s rest
  else if opens true s c then lexOpen s c
  else if closes true c then lexClose s c
  else lexOperator hspiceOps unknownHspice s c rest

/-! ## Spectre -/

/-- A `NAME` token; SPICE mode passes over the `par` of `par'...'`. -/
def lexNameSpectre (spice : Bool) (s : LexState) (text : Str) : LexStep :=
  match nameToken text with
  | none => .error (.attributeError s.pos)
  | some word =>
    let after := text.drop word.length
    let gap := (after.takeWhile isGap).length
    if spice ∧ U.lower word = str "par" ∧ (after.drop gap).head? = some ('\'' : CodePoint) then
      s.skip (word.length + gap)
    else s.token (.name word) word.length

/-- `_OPS_SPECTRE` -/
def spectreOps : List (Str × Op) :=
  [(str "**", .binary .power), (str "==", .binary .eq), (str "!=", .binary .ne), (str "<=", .binary .le),
    (str ">=", .binary .ge), (str "&&", .binary .and), (str "||", .binary .or), (str "<<", .binary .shiftLeft),
    (str ">>", .binary .shiftRight), (str "~^", .binary .xnor), (str "^~", .binary .xnor),
    (str "+", .binary .add), (str "-", .binary .sub), (str "*", .binary .mul), (str "/", .binary .div),
    (str "<", .binary .lt), (str ">", .binary .gt), (str "!", .bang), (str "?", .question), (str ":", .colon),
    (str ",", .comma), (str "&", .binary .bitAnd), (str "|", .binary .bitOr)]

def unknownSpectre (c : CodePoint) : Message :=
  if c ∈ str "^~%" then .notAnOperator [c] else if c ∈ str "[]" then .vector else .unexpectedCharacter c

/-- The body of the loop of `_lex_spectre`. -/
def lexSpectreStep (dialect : Dialect) (s : LexState) (c : CodePoint) (rest : Str) : LexStep :=
  let spice := dialect = .spectreSpice
  if isBlank c then s.skip 1
  else if startsNumber U c rest then
    lexNumber U dialect (fun e => .exprError (.badNumber e) s.pos) s (c :: rest)
  else if U.isAlpha c || c = '_' then lexNameSpectre U spice s (c :: rest)
  else if c = '"' then lexString s rest
  else if opens spice s c then lexOpen s c
  else if closes spice c then lexClose s c
  else lexOperator spectreOps unknownSpectre s c rest

/-! ## All the tokens -/

def lexer (dialect : Dialect) : Scanner CodePoint LexState Token ParseError where
  step := match dialect with
    | .hspice => lexStep U
    | dialect => lexSpectreStep U dialect

/-- `_lex` or `_lex_spectre`: the tokens, with the one at the end of the text. -/
def lex (dialect : Dialect) (text : Str) : Except ParseError (List Token) :=
  match (lexer U dialect).run 0 ⟨0, []⟩ text with
  | .error e => .error e
  | .ok (toks, s) =>
    match s.groups with
    | (c, pos) :: _ => .error (.exprError (.unclosed c) pos)
    | [] => .ok (toks ++ [⟨.eof, text.length⟩])

end Vamos.Netlist.Expression
