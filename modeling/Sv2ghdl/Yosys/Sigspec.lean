import Mathlib.Data.List.TakeWhile
import Sv2ghdl.Lists.Traverse
import Sv2ghdl.Syntax.Pieces
import Sv2ghdl.Yosys.Rtlil

/-!
# Sigspec strings

The signals in the calls of the `gsm_rtlil_*` facade of `yosys/gen_statemachine.cpp`: `rtlil_parse_one` and
`rtlil_parse_sigspec`, and the grammar of the facade's header.
-/

open Yosys.Rtlil Pieces

namespace Yosys.Facade

/-! ## The C library -/

/-- A C string, a character for each byte. -/
abbrev Text := List Char

/-- `isspace` in the C locale -/
def isSpace (c : Char) : Bool := c = ' ' || (9 ≤ c.toNat && c.toNat ≤ 13)

def numeral (ds : Text) : Nat := ds.foldl (fun n d => 10 * n + (d.toNat - 48)) 0

/-- `strtoll(s, NULL, 10)`: the longest prefix that is a number, saturated. -/
def strtoll (s : Text) : Int :=
  let digits (t : Text) : Int := numeral (t.takeWhile Char.isDigit)
  match s.dropWhile isSpace with
  | '-' :: t => max (-2 ^ 63) (-digits t)
  | '+' :: t => min (2 ^ 63 - 1) (digits t)
  | t => min (2 ^ 63 - 1) (digits t)

/-- The conversion of a `long` to an `int`. -/
def toInt (n : Int) : Int := n.bmod (2 ^ 32)

/-- `atoi`, as glibc has it. -/
def atoi (s : Text) : Int := toInt (strtoll s)

/-! ## The library -/

abbrev Id := String

/-- The wires of a module. -/
abbrev Wires := Id → Option Wire

/-- What the facade calls in yosys. -/
structure Library where
  /-- The identifier of an escaped name, if the name may be one. -/
  escapeId : Text → Option Id
  constFromString : Text → List State
  /-- `Const(int val, int width)` -/
  constInt : Int → Nat → List State
  /-- `SigSpec(Wire *wire, int offset, int width)` -/
  slice : Wire → Int → Nat → SigSpec
  /-- Whether a design with modules of these names takes one more. -/
  addsModule : List Id → Id → Bool
  /-- Whether a module with objects of these names takes one more. -/
  adds : List Id → Id → Bool
  /-- Whether `Module::connect` takes the two sides. -/
  connects : SigSpec → SigSpec → Bool

def stateOf : Char → State
  | '0' => .s0
  | '1' => .s1
  | 'x' => .sx
  | _ => .sz

def bitChars : Text := ['0', '1', 'x', 'z']

/-- Yosys as it is documented. -/
structure Library.Documented (lib : Library) : Prop where
  /-- The first character is the most significant bit. -/
  fromString : ∀ ds, (∀ d ∈ ds, d ∈ bitChars) → lib.constFromString ds = ds.reverse.map stateOf
  /-- Two's complement, the sign repeated. -/
  int : ∀ (v : Int) n, lib.constInt v n = (List.range n).map fun i => if v / 2 ^ i % 2 = 1 then .s1 else .s0
  wire : ∀ w (lo n : Nat), lib.slice w lo n = (List.range' lo n).map (.wire w)

/-! ## Reading -/

/-- What ends a call early. -/
inductive Fault where
  /-- An exception. -/
  | bail
  /-- A null pointer is followed. -/
  | crash
  deriving DecidableEq

/-- The name of a wire, and the indices of its highest and lowest bit; negative ones stand for all bits. -/
def rtlilRange (tok : Text) : Option (Text × Int × Int) :=
  match cut '[' tok with
  | none => some (tok, -1, -1)
  | some (name, rest) =>
    match cut ']' rest with
    | none => none
    | some (inside, _) =>
      match cut ':' rest with
      | none => some (name, atoi inside, atoi inside)
      | some (hi, after) =>
        -- behind a bracket that closes before the colon the count wraps, and the token is read to its end
        some (name, atoi hi, atoi (if ']' ∈ hi then after else after.takeWhile (· ≠ ']')))

/-- `rtlil_parse_one`, without wires where `g_rtlil_mod` is null. -/
def rtlilParseOne (lib : Library) (wires : Option Wires) (tok : Text) : Except Fault SigSpec :=
  match cut '\'' tok with
  | some (size, spec) =>
    let width := atoi size
    match spec with
    | [] => .error .bail
    | base :: digits =>
      if width ≤ 0 then .error .bail
      else if base = 'b' then
        if width < digits.length then .error .bail
        else
          .ok ((lib.constFromString (List.replicate (width.toNat - digits.length) '0' ++ digits)).map .const)
      else if base = 'd' then .ok ((lib.constInt (toInt (strtoll digits)) width.toNat).map .const)
      else .error .bail
  | none =>
    match rtlilRange tok with
    | none => .error .bail
    | some (name, hi, lo) =>
      match wires with
      | none => .error .crash
      | some wires =>
        match (lib.escapeId name).bind wires with
        | none => .error .bail
        | some w =>
          if hi < 0 then .ok (lib.slice w 0 w.width)
          else if hi < lo ∨ w.width ≤ hi then .error .bail
          else .ok (lib.slice w lo (hi - lo + 1).toNat)

/-- The items of a concatenation, and how many of its braces are left open. -/
def rtlilItems (s : Text) : List Text × Int := pieces '{' '}' ',' s [] 0

def strip (txt : Text) : Text := txt.filter (!isSpace ·)

/-- `rtlil_parse_sigspec` to a depth of concatenations. -/
def rtlilParseTo (lib : Library) (wires : Option Wires) : Nat → Text → Except Fault SigSpec
  | 0, _ => .error .bail
  | n + 1, txt =>
    let s := strip txt
    if s = [] then .error .bail
    else if s.head? ≠ some '{' then rtlilParseOne lib wires s
    else if s.getLast? ≠ some '}' then .error .bail
    else
      let items := rtlilItems s.tail.dropLast
      if items.2 ≠ 0 then .error .bail
      else (items.1.reverse.mapM (rtlilParseTo lib wires n)).map List.flatten

/-- `rtlil_parse_sigspec`; each concatenation is longer than its items. -/
def rtlilParseSigspec (lib : Library) (wires : Option Wires) (txt : Text) : Except Fault SigSpec :=
  rtlilParseTo lib wires (txt.length + 1) txt

/-! ## The grammar -/

def Numeral (t : Text) : Prop := t ≠ [] ∧ ∀ c ∈ t, c.isDigit

/-- A text in which a wire can be named. -/
def Named (t : Text) : Prop := '\'' ∉ t ∧ '[' ∉ t ∧ t.head? ≠ some '{'

/-- The signal of a text without white space. -/
inductive Denotes (lib : Library) (wires : Wires) : Text → SigSpec → Prop
  | name {t w} (hne : t ≠ []) (ht : Named t) (hw : (lib.escapeId t).bind wires = some w) :
    Denotes lib wires t ((List.range w.width).map (.wire w))
  | bit {t i w} (ht : Named t) (hi : Numeral i) (hw : (lib.escapeId t).bind wires = some w)
    (hlt : numeral i < w.width) : Denotes lib wires (t ++ '[' :: i ++ [']']) [.wire w (numeral i)]
  | range {t hi lo w} (ht : Named t) (hhi : Numeral hi) (hlo : Numeral lo)
    (hw : (lib.escapeId t).bind wires = some w) (hle : numeral lo ≤ numeral hi) (hlt : numeral hi < w.width) :
    Denotes lib wires (t ++ '[' :: hi ++ ':' :: lo ++ [']'])
      ((List.range' (numeral lo) (numeral hi - numeral lo + 1)).map (.wire w))
  | binary {n ds} (hn : Numeral n) (hpos : 0 < numeral n) (hds : ds ≠ []) (hbits : ∀ d ∈ ds, d ∈ bitChars)
    (hle : ds.length ≤ numeral n) :
    Denotes lib wires (n ++ '\'' :: 'b' :: ds)
      ((ds.reverse.map stateOf ++ List.replicate (numeral n - ds.length) State.s0).map .const)
  | decimal {n ds} (hn : Numeral n) (hpos : 0 < numeral n) (hds : Numeral ds) :
    Denotes lib wires (n ++ '\'' :: 'd' :: ds)
      ((List.range (numeral n)).map fun i => .const (if (numeral ds).testBit i then .s1 else .s0))
  | concat {ts sigs} (hts : ts ≠ []) (hpieces : ∀ t ∈ ts, Piece '{' '}' ',' t)
    (h : List.Forall₂ (Denotes lib wires) ts sigs) :
    Denotes lib wires ('{' :: [','].intercalate ts ++ ['}']) sigs.reverse.flatten

/-! ## Plainly written texts -/

/-- A width whose reading as an `int` says what it is. -/
def PlainSize (n : Text) : Prop := if n.all Char.isDigit then numeral n < 2 ^ 31 else atoi n ≤ 0

def PlainIndex (i : Text) : Prop := Numeral i ∧ numeral i < 2 ^ 31

/-- The digits of a constant of a width are digits of its base, and a decimal value survives its way through a
`long long` and an `int`. -/
def PlainDigits (n : Text) : Text → Prop
  | 'b' :: ds => ds ≠ [] ∧ ∀ d ∈ ds, d ∈ bitChars
  | 'd' :: ds => Numeral ds ∧ (numeral ds < 2 ^ 31 ∨ numeral n ≤ 32 ∧ numeral ds < 2 ^ 63)
  | _ => True

/-- Numbers are written with digits only and nothing follows the bracket. -/
def PlainOne (t : Text) : Prop :=
  match cut '\'' t with
  | some (n, spec) => PlainSize n ∧ (0 < atoi n → PlainDigits n spec)
  | none =>
    match cut '[' t with
    | none => True
    | some (_, rest) =>
      match cut ']' rest with
      | none => True
      | some (inside, after) =>
        after = [] ∧
          match cut ':' inside with
          | none => PlainIndex inside
          | some (hi, lo) => PlainIndex hi ∧ PlainIndex lo

/-- The texts inside the concatenations of a text. -/
inductive Leaf : Text → Text → Prop
  | self {s} (h : s.head? ≠ some '{') : Leaf s s
  | item {s t u} (hopen : s.head? = some '{') (hclose : s.getLast? = some '}')
    (hbraces : (rtlilItems s.tail.dropLast).2 = 0) (ht : t ∈ (rtlilItems s.tail.dropLast).1) (h : Leaf t u) : Leaf s u

def Plain (txt : Text) : Prop := ∀ t, Leaf (strip txt) t → PlainOne t

theorem plain_of_one {txt : Text} (hopen : (strip txt).head? ≠ some '{') (h : PlainOne (strip txt)) : Plain txt := by
  intro t ht
  cases ht with
  | self => exact h
  | item hopen' => exact absurd hopen' hopen

/-! ## Numbers -/

theorem isDigit_not_space {c : Char} (h : c.isDigit) : isSpace c = false := by
  have hle : 48 ≤ c.toNat := by
    simp only [Char.isDigit, Bool.and_eq_true, decide_eq_true_eq] at h
    exact h.1
  have hne : c ≠ ' ' := by
    rintro rfl
    revert hle
    decide
  simp only [isSpace, hne, decide_false, Bool.false_or, Bool.and_eq_false_iff, decide_eq_false_iff_not]
  omega

theorem Numeral.not_mem {t : Text} (h : Numeral t) {c : Char} (hc : c.isDigit = false) : c ∉ t := by
  intro hmem
  rw [h.2 c hmem] at hc
  cases hc

theorem strtoll_numeral {t : Text} (h : Numeral t) : strtoll t = min (2 ^ 63 - 1) (numeral t : Int) := by
  obtain ⟨hne, hdigits⟩ := h
  have hread : t.takeWhile Char.isDigit = t := List.takeWhile_eq_self_iff.mpr hdigits
  cases t with
  | nil => exact absurd rfl hne
  | cons c t =>
    have hc := hdigits c List.mem_cons_self
    have hspace : (c :: t).dropWhile isSpace = c :: t := by
      rw [List.dropWhile_cons_of_neg]
      rw [isDigit_not_space hc]
      simp
    rw [strtoll, hspace]
    dsimp only
    split
    · rename_i heq
      cases heq
      exact absurd hc (by decide)
    · rename_i heq
      cases heq
      exact absurd hc (by decide)
    · rw [hread]

theorem toInt_of_lt {n : Nat} (h : n < 2 ^ 31) : toInt n = n := by
  apply Int.bmod_eq_of_le
  · norm_num
  · norm_num
    omega

theorem atoi_numeral {t : Text} (h : Numeral t) (hlt : numeral t < 2 ^ 31) : atoi t = numeral t := by
  have hmin : min (2 ^ 63 - 1) (numeral t : Int) = numeral t := by
    apply min_eq_right
    norm_num
    omega
  rw [atoi, strtoll_numeral h, hmin, toInt_of_lt hlt]

/-- A positive width is a number. -/
theorem PlainSize.isNumeral {n : Text} (h : PlainSize n) (hpos : 0 < atoi n) : Numeral n ∧ atoi n = numeral n := by
  rw [PlainSize] at h
  split_ifs at h with hall
  · have hn : Numeral n := by
      refine ⟨?_, fun c hc => List.all_eq_true.mp hall c hc⟩
      rintro rfl
      revert hpos
      decide
    exact ⟨hn, atoi_numeral hn h⟩
  · omega

theorem PlainSize.lt {n : Text} (h : PlainSize n) (hn : Numeral n) : numeral n < 2 ^ 31 := by
  rwa [PlainSize, if_pos (List.all_eq_true.mpr fun c hc => hn.2 c hc)] at h

/-- The bits of a number below the width of its carrier. -/
theorem bit_toInt {v i : Nat} (h : v < 2 ^ 31 ∨ i < 32 ∧ v < 2 ^ 63) :
    (toInt (min (2 ^ 63 - 1) (v : Int)) / 2 ^ i % 2 = 1) ↔ v.testBit i := by
  have hmin : min (2 ^ 63 - 1) (v : Int) = v := by
    apply min_eq_right
    norm_num
    omega
  have hbit : (v : Int) / 2 ^ i % 2 = 1 ↔ v.testBit i := by
    rw [Nat.testBit_eq_decide_div_mod_eq, decide_eq_true_eq]
    exact_mod_cast Iff.rfl
  rw [hmin, ← hbit]
  rcases h with h | ⟨hi, -⟩
  · rw [toInt_of_lt h]
  · -- what the carrier drops is a multiple of a higher power
    obtain ⟨k, hk⟩ : ∃ k, toInt v = v + 2 ^ i * (2 * k) := by
      refine ⟨-(Int.bdiv v (2 ^ 32)) * 2 ^ (31 - i), ?_⟩
      have hpow : (2 : Int) ^ 32 = 2 ^ i * 2 * 2 ^ (31 - i) := by
        rw [← pow_succ, ← pow_add]
        congr 1
        omega
      have hcarrier : ((2 ^ 32 : Nat) : Int) = 2 ^ i * 2 * 2 ^ (31 - i) := by
        rw [← hpow]
        norm_num
      rw [toInt, Int.bmod_eq_self_sub_mul_bdiv, hcarrier]
      ring
    rw [hk, Int.add_mul_ediv_left _ _ (by positivity)]
    omega

/-! ## A single token -/

section One

variable {lib : Library} {wires : Wires} {t n spec rest : Text} {bits : SigSpec}

/-- What denotes with a quote is a constant. -/
theorem denotes_quote (hopen : t.head? ≠ some '{') (hcut : cut '\'' t = some (n, spec))
    (h : Denotes lib wires t bits) :
    Numeral n ∧ 0 < numeral n ∧
      ((∃ ds, spec = 'b' :: ds ∧ ds ≠ [] ∧ (∀ d ∈ ds, d ∈ bitChars) ∧ ds.length ≤ numeral n ∧
        bits = (ds.reverse.map stateOf ++ List.replicate (numeral n - ds.length) State.s0).map .const) ∨
      ∃ ds, spec = 'd' :: ds ∧ Numeral ds ∧
        bits = (List.range (numeral n)).map fun i => .const (if (numeral ds).testBit i then .s1 else .s0)) := by
  have hmem : '\'' ∈ t := by
    rw [(cut_eq_some.mp hcut).1]
    simp
  have hquote : ∀ {i : Text}, Numeral i → '\'' ∉ i := fun hi => hi.not_mem (by decide)
  cases h with
  | name _ ht _ => exact absurd hmem ht.1
  | bit ht hi _ _ =>
    have := ht.1
    have := hquote hi
    simp_all
  | range ht hhi hlo _ _ _ =>
    have := ht.1
    have := hquote hhi
    have := hquote hlo
    simp_all
  | @binary n' ds hn hpos hds hbits hle =>
    rw [cut_eq_some.mpr ⟨rfl, hquote hn⟩] at hcut
    cases hcut
    exact ⟨hn, hpos, .inl ⟨ds, rfl, hds, hbits, hle, rfl⟩⟩
  | @decimal n' ds hn hpos hds =>
    rw [cut_eq_some.mpr ⟨rfl, hquote hn⟩] at hcut
    cases hcut
    exact ⟨hn, hpos, .inr ⟨ds, rfl, hds, rfl⟩⟩
  | concat => exact absurd rfl hopen

/-- What denotes without a quote and without a bracket is a wire. -/
theorem denotes_name (hopen : t.head? ≠ some '{') (hquote : '\'' ∉ t) (hbracket : '[' ∉ t)
    (h : Denotes lib wires t bits) :
    ∃ w, (lib.escapeId t).bind wires = some w ∧ bits = (List.range w.width).map (.wire w) := by
  cases h with
  | name _ _ hw => exact ⟨_, hw, rfl⟩
  | bit => simp at hbracket
  | range => simp at hbracket
  | binary => simp at hquote
  | decimal => simp at hquote
  | concat => exact absurd rfl hopen

/-- What denotes with a bracket is a bit or a range of a wire. -/
theorem denotes_bracket (hopen : t.head? ≠ some '{') (hquote : '\'' ∉ t) (hcut : cut '[' t = some (n, rest))
    (h : Denotes lib wires t bits) :
    ∃ w, (lib.escapeId n).bind wires = some w ∧
      ((∃ i, rest = i ++ [']'] ∧ Numeral i ∧ numeral i < w.width ∧ bits = [.wire w (numeral i)]) ∨
      ∃ hi lo, rest = hi ++ ':' :: lo ++ [']'] ∧ Numeral hi ∧ Numeral lo ∧ numeral lo ≤ numeral hi ∧
        numeral hi < w.width ∧
        bits = (List.range' (numeral lo) (numeral hi - numeral lo + 1)).map (.wire w)) := by
  have hmem : '[' ∈ t := by
    rw [(cut_eq_some.mp hcut).1]
    simp
  cases h with
  | name _ ht _ => exact absurd hmem ht.2.1
  | @bit t i w ht hi hw hlt =>
    have hcut' : cut '[' (t ++ '[' :: i ++ [']']) = some (t, i ++ [']']) := cut_eq_some.mpr ⟨by simp, ht.2.1⟩
    rw [hcut'] at hcut
    cases hcut
    exact ⟨w, hw, .inl ⟨i, rfl, hi, hlt, rfl⟩⟩
  | @range t hi lo w ht hhi hlo hw hle hlt =>
    have hcut' : cut '[' (t ++ '[' :: hi ++ ':' :: lo ++ [']']) = some (t, hi ++ ':' :: lo ++ [']']) :=
      cut_eq_some.mpr ⟨by simp, ht.2.1⟩
    rw [hcut'] at hcut
    cases hcut
    exact ⟨w, hw, .inr ⟨hi, lo, rfl, hhi, hlo, hle, hlt, rfl⟩⟩
  | binary => simp at hquote
  | decimal => simp at hquote
  | concat => exact absurd rfl hopen

theorem binary_bits (hlib : lib.Documented) {ds : Text} (hbits : ∀ d ∈ ds, d ∈ bitChars) (k : Nat) :
    lib.constFromString (List.replicate k '0' ++ ds) = ds.reverse.map stateOf ++ List.replicate k State.s0 := by
  have hall : ∀ d ∈ List.replicate k '0' ++ ds, d ∈ bitChars := by
    intro d hd
    rcases List.mem_append.mp hd with hd | hd
    · rw [List.eq_of_mem_replicate hd]
      decide
    · exact hbits d hd
  rw [hlib.fromString _ hall, List.reverse_append, List.map_append, List.reverse_replicate, List.map_replicate]
  rfl

theorem decimal_bits (hlib : lib.Documented) {ds : Text} {k : Nat} (hds : Numeral ds)
    (hcarrier : numeral ds < 2 ^ 31 ∨ k ≤ 32 ∧ numeral ds < 2 ^ 63) :
    (lib.constInt (toInt (strtoll ds)) k).map SigBit.const =
      (List.range k).map fun i => .const (if (numeral ds).testBit i then State.s1 else .s0) := by
  rw [hlib.int, List.map_map]
  apply List.map_congr_left
  intro i hi
  have hlt := List.mem_range.mp hi
  rw [Function.comp_apply, strtoll_numeral hds]
  congr 1
  exact if_congr (bit_toInt (hcarrier.imp id fun hc => ⟨by omega, hc.2⟩)) rfl rfl

/-- A constant is read as the grammar says. -/
theorem parseOne_quote (hlib : lib.Documented) (hopen : t.head? ≠ some '{') (hcut : cut '\'' t = some (n, spec))
    (hplain : PlainOne t) (mod : Option Wires) :
    rtlilParseOne lib mod t = .ok bits ↔ Denotes lib wires t bits := by
  have ht := (cut_eq_some.mp hcut).1
  rw [PlainOne, hcut] at hplain
  obtain ⟨hsize, hdigits⟩ := hplain
  rw [rtlilParseOne, hcut]
  dsimp only
  constructor
  · intro h
    cases spec with
    | nil => cases h
    | cons base ds =>
      dsimp only at h
      split_ifs at h with hwidth hb hlong hd
      · -- binary digits
        subst hb
        obtain ⟨hn, hn'⟩ := hsize.isNumeral (by omega)
        obtain ⟨hne, hbits⟩ := hdigits (by omega)
        rw [hn'] at hwidth hlong h
        rw [Int.toNat_natCast, binary_bits hlib hbits] at h
        cases h
        rw [ht]
        exact .binary hn (by omega) hne hbits (by omega)
      · -- decimal digits
        subst hd
        obtain ⟨hn, hn'⟩ := hsize.isNumeral (by omega)
        obtain ⟨hds, hcarrier⟩ := hdigits (by omega)
        rw [hn'] at hwidth h
        rw [Int.toNat_natCast, decimal_bits hlib hds hcarrier] at h
        cases h
        rw [ht]
        exact .decimal hn (by omega) hds
  · intro h
    obtain ⟨hn, hpos, hbody⟩ := denotes_quote hopen hcut h
    rw [atoi_numeral hn (hsize.lt hn)] at hdigits ⊢
    rcases hbody with ⟨ds, rfl, hne, hbits, hle, rfl⟩ | ⟨ds, rfl, hds, rfl⟩
    · dsimp only
      rw [if_neg (by omega), if_pos rfl, if_neg (by omega), Int.toNat_natCast, binary_bits hlib hbits]
    · obtain ⟨-, hcarrier⟩ := hdigits (by omega)
      dsimp only
      rw [if_neg (by omega), if_neg (by decide), if_pos rfl, Int.toNat_natCast, decimal_bits hlib hds hcarrier]

/-- A name is read as the grammar says. -/
theorem parseOne_name (hlib : lib.Documented) (hne : t ≠ []) (hopen : t.head? ≠ some '{') (hquote : '\'' ∉ t)
    (hbracket : '[' ∉ t) : rtlilParseOne lib (some wires) t = .ok bits ↔ Denotes lib wires t bits := by
  have hread : rtlilParseOne lib (some wires) t =
      match (lib.escapeId t).bind wires with
      | none => .error .bail
      | some w => .ok ((List.range w.width).map (.wire w)) := by
    rw [rtlilParseOne, cut_eq_none.mpr hquote, rtlilRange, cut_eq_none.mpr hbracket]
    dsimp only
    split
    · rfl
    · rw [if_pos (by decide), ← Nat.cast_zero, hlib.wire, List.range_eq_range']
  rw [hread]
  constructor
  · intro h
    split at h
    · cases h
    · rename_i w hw
      cases h
      exact .name hne ⟨hquote, hbracket, hopen⟩ hw
  · intro h
    obtain ⟨w, hw, rfl⟩ := denotes_name hopen hquote hbracket h
    rw [hw]

/-- What is read for a range of bits. -/
theorem parseOne_range (hlib : lib.Documented) {hi lo : Nat} (hquote : '\'' ∉ t)
    (hrange : rtlilRange t = some (n, (hi : Int), (lo : Int))) :
    rtlilParseOne lib (some wires) t = .ok bits ↔
      ∃ w, (lib.escapeId n).bind wires = some w ∧ lo ≤ hi ∧ hi < w.width ∧
        bits = (List.range' lo (hi - lo + 1)).map (.wire w) := by
  rw [rtlilParseOne, cut_eq_none.mpr hquote, hrange]
  dsimp only
  cases hw : (lib.escapeId n).bind wires with
  | none => exact iff_of_false nofun (by rintro ⟨w, hw, -⟩; cases hw)
  | some w =>
    dsimp only
    rw [if_neg (by omega)]
    split_ifs with hout
    · refine iff_of_false nofun ?_
      rintro ⟨w', hw', hle, hlt, -⟩
      cases hw'
      omega
    · have hcount : ((hi : Int) - lo + 1).toNat = hi - lo + 1 := by omega
      rw [hlib.wire, hcount]
      constructor
      · intro h
        cases h
        exact ⟨w, rfl, by omega, by omega, rfl⟩
      · rintro ⟨w', hw', -, -, rfl⟩
        cases hw'
        rfl

theorem PlainIndex.atoi {i : Text} (h : PlainIndex i) : atoi i = numeral i := atoi_numeral h.1 h.2

/-- A name with an index or a range is read as the grammar says. -/
theorem parseOne_bracket (hlib : lib.Documented) (hopen : t.head? ≠ some '{') (hquote : '\'' ∉ t)
    (hcut : cut '[' t = some (n, rest)) (hplain : PlainOne t) :
    rtlilParseOne lib (some wires) t = .ok bits ↔ Denotes lib wires t bits := by
  obtain ⟨ht, hbracket⟩ := cut_eq_some.mp hcut
  have hnamed : Named n := by
    refine ⟨fun h => hquote (by rw [ht]; exact List.mem_append_left _ h), hbracket, ?_⟩
    intro h
    rw [ht] at hopen
    cases n with
    | nil => cases h
    | cons c n => exact hopen h
  rw [PlainOne, cut_eq_none.mpr hquote] at hplain
  dsimp only at hplain
  rw [hcut] at hplain
  dsimp only at hplain
  cases hclose : cut ']' rest with
  | none =>
    refine iff_of_false ?_ ?_
    · rw [rtlilParseOne, cut_eq_none.mpr hquote, rtlilRange, hcut]
      dsimp only
      rw [hclose]
      nofun
    intro h
    have hnot := cut_eq_none.mp hclose
    obtain ⟨w, -, ⟨i, rfl, -⟩ | ⟨hi, lo, rfl, -⟩⟩ := denotes_bracket hopen hquote hcut h <;> simp at hnot
  | some r =>
    obtain ⟨inside, after⟩ := r
    obtain ⟨hrest, hinside⟩ := cut_eq_some.mp hclose
    rw [hclose] at hplain
    obtain ⟨rfl, hindex⟩ := hplain
    have hdigit : ∀ {i : Text} {c : Char}, PlainIndex i → c.isDigit = false → c ∉ i := fun h => h.1.not_mem
    cases hcolon : cut ':' inside with
    | none =>
      rw [hcolon] at hindex
      have hnot := cut_eq_none.mp hcolon
      have hread : rtlilRange t = some (n, ((numeral inside : Nat) : Int), ((numeral inside : Nat) : Int)) := by
        rw [rtlilRange, hcut]
        dsimp only
        rw [hclose]
        dsimp only
        rw [cut_eq_none.mpr (by rw [hrest]; simpa using hnot), hindex.atoi]
      rw [parseOne_range hlib hquote hread]
      constructor
      · rintro ⟨w, hw, -, hlt, rfl⟩
        rw [ht, hrest, ← List.cons_append, ← List.append_assoc]
        simpa using Denotes.bit hnamed hindex.1 hw hlt
      · intro h
        obtain ⟨w, hw, ⟨i, hi, -, hlt, rfl⟩ | ⟨hi, lo, hrest', -⟩⟩ := denotes_bracket hopen hquote hcut h
        · rw [hrest] at hi
          cases List.append_cancel_right hi
          exact ⟨w, hw, le_refl _, hlt, by simp⟩
        · rw [hrest] at hrest'
          rw [List.append_cancel_right hrest'] at hnot
          simp at hnot
    | some r =>
      obtain ⟨hi, lo⟩ := r
      rw [hcolon] at hindex
      obtain ⟨hhi, hlo⟩ := hindex
      obtain ⟨rfl, hcolon'⟩ := cut_eq_some.mp hcolon
      have hread : rtlilRange t = some (n, ((numeral hi : Nat) : Int), ((numeral lo : Nat) : Int)) := by
        have hcut' : cut ':' rest = some (hi, lo ++ [']']) := cut_eq_some.mpr ⟨by rw [hrest]; simp, hcolon'⟩
        have hread : (lo ++ [']']).takeWhile (· ≠ ']') = lo := by
          rw [List.takeWhile_append_of_pos]
          · simp
          · intro c hc
            have hne : c ≠ ']' := by
              rintro rfl
              exact hdigit hlo (by decide) hc
            simpa using hne
        rw [rtlilRange, hcut]
        dsimp only
        rw [hclose]
        dsimp only
        rw [hcut']
        dsimp only
        rw [if_neg (hdigit hhi (by decide)), hread, hhi.atoi, hlo.atoi]
      rw [parseOne_range hlib hquote hread]
      constructor
      · rintro ⟨w, hw, hle, hlt, rfl⟩
        have hrange := Denotes.range hnamed hhi.1 hlo.1 hw hle hlt
        rw [ht, hrest]
        simpa using hrange
      · intro h
        obtain ⟨w, hw, ⟨i, hi', hnum, -⟩ | ⟨hi', lo', hrest', hhi', hlo', hle, hlt, rfl⟩⟩ :=
          denotes_bracket hopen hquote hcut h
        · rw [hrest] at hi'
          rw [← List.append_cancel_right hi'] at hnum
          exact absurd (List.mem_append_right hi List.mem_cons_self) (hnum.not_mem (c := ':') (by decide))
        · rw [hrest] at hrest'
          have hcut' : cut ':' (hi' ++ ':' :: lo') = some (hi', lo') :=
            cut_eq_some.mpr ⟨rfl, hhi'.not_mem (by decide)⟩
          rw [List.append_cancel_right hrest', hcut'] at hcolon
          cases hcolon
          exact ⟨w, hw, hle, hlt, rfl⟩

/-- A plainly written text without braces is read as the grammar says. -/
theorem parseOne_iff (hlib : lib.Documented) (hne : t ≠ []) (hopen : t.head? ≠ some '{') (hplain : PlainOne t) :
    rtlilParseOne lib (some wires) t = .ok bits ↔ Denotes lib wires t bits := by
  cases hquote : cut '\'' t with
  | some r => exact parseOne_quote hlib hopen hquote hplain _
  | none =>
    cases hbracket : cut '[' t with
    | some r => exact parseOne_bracket hlib hopen (cut_eq_none.mp hquote) hbracket hplain
    | none => exact parseOne_name hlib hne hopen (cut_eq_none.mp hquote) (cut_eq_none.mp hbracket)

end One

/-! ## Concatenations -/

section Concatenations

variable {lib : Library} {wires : Wires}

theorem strip_eq_self {t s : Text} (h : ∀ c ∈ t, c ∈ strip s) : strip t = t := by
  apply List.filter_eq_self.mpr
  intro c hc
  exact (List.mem_filter.mp (h c hc)).2

theorem Denotes.ne_nil {s : Text} {bits : SigSpec} (h : Denotes lib wires s bits) : s ≠ [] := by
  cases h with
  | name hne _ _ => exact hne
  | _ => simp

/-- What denotes and opens with a brace is a concatenation. -/
theorem denotes_concat {s : Text} {bits : SigSpec} (hopen : s.head? = some '{') (h : Denotes lib wires s bits) :
    ∃ ts sigs, s = '{' :: [','].intercalate ts ++ ['}'] ∧ ts ≠ [] ∧ (∀ t ∈ ts, Piece '{' '}' ',' t) ∧
      List.Forall₂ (Denotes lib wires) ts sigs ∧ bits = sigs.reverse.flatten := by
  have hnamed : ∀ {t u : Text}, Named t → s = t ++ '[' :: u → False := by
    rintro t u ht rfl
    have h := hopen
    cases t with
    | nil => cases h
    | cons c t => exact ht.2.2 h
  have hnumeral : ∀ {n u : Text}, Numeral n → s = n ++ u → False := by
    rintro n u hn rfl
    have h := hopen
    cases n with
    | nil => exact hn.1 rfl
    | cons c n =>
      cases h
      exact absurd (hn.2 '{' List.mem_cons_self) (by decide)
  cases h with
  | name _ ht _ => exact absurd hopen ht.2.2
  | bit ht _ _ _ => exact (hnamed ht (by simp; rfl)).elim
  | range ht _ _ _ _ _ => exact (hnamed ht (by simp; rfl)).elim
  | binary hn _ _ _ _ => exact (hnumeral hn rfl).elim
  | decimal hn _ _ => exact (hnumeral hn rfl).elim
  | concat hts hpieces h => exact ⟨_, _, rfl, hts, hpieces, h, rfl⟩

theorem items_eq_iff {s : Text} {ts : List Text} :
    rtlilItems s = (ts, 0) ↔ ts ≠ [] ∧ s = [','].intercalate ts ∧ ∀ t ∈ ts, Piece '{' '}' ',' t :=
  pieces_eq_iff (by decide) (by decide) (by decide)

theorem length_items_le {s t : Text} (h : t ∈ (rtlilItems s).1) : t.length ≤ s.length :=
  length_pieces_le (by decide) (by decide) (by decide) h

theorem mem_of_mem_items {s t : Text} (h : t ∈ (rtlilItems s).1) {c : Char} (hc : c ∈ t) : c ∈ s :=
  mem_of_mem_pieces (by decide) (by decide) (by decide) h hc

/-- A text between two braces. -/
theorem eq_braces {s : Text} (hopen : s.head? = some '{') (hclose : s.getLast? = some '}') :
    s = '{' :: s.tail.dropLast ++ ['}'] := by
  cases s with
  | nil => cases hopen
  | cons c s =>
    cases hopen
    have hne : s ≠ [] := by
      rintro rfl
      cases hclose
    rw [List.getLast?_cons, List.getLast?_eq_some_getLast hne, Option.getD_some] at hclose
    rw [List.tail_cons, List.cons_append]
    congr 1
    conv_lhs => rw [← List.dropLast_append_getLast hne]
    rw [Option.some.inj hclose]

/-- The first item is the most significant. -/
theorem items_read {f : Text → Except Fault SigSpec} {r : Text → SigSpec → Prop} {ts : List Text} {bits : SigSpec}
    (h : ∀ t ∈ ts, ∀ b, f t = .ok b ↔ r t b) :
    (ts.reverse.mapM f).map List.flatten = .ok bits ↔ ∃ sigs, List.Forall₂ r ts sigs ∧ bits = sigs.reverse.flatten := by
  have hread : ∀ sigs, ts.reverse.mapM f = .ok sigs ↔ List.Forall₂ r ts sigs.reverse := by
    intro sigs
    rw [Traverse.mapM_eq_ok, ← List.forall₂_reverse_iff, List.reverse_reverse, Traverse.forall₂_congr h]
  cases hm : ts.reverse.mapM f with
  | error e =>
    refine iff_of_false nofun ?_
    rintro ⟨sigs, hsigs, -⟩
    have hok := (hread sigs.reverse).mpr (by rwa [List.reverse_reverse])
    rw [hm] at hok
    cases hok
  | ok sigs =>
    constructor
    · intro hbits
      cases hbits
      exact ⟨sigs.reverse, (hread sigs).mp hm, by rw [List.reverse_reverse]⟩
    · rintro ⟨sigs', hsigs, rfl⟩
      have hok := (hread sigs'.reverse).mpr (by rwa [List.reverse_reverse])
      rw [hm] at hok
      cases hok
      rfl

/-- A plainly written text is read as the grammar says. -/
theorem parseTo_iff (hlib : lib.Documented) {n : Nat} {txt : Text} {bits : SigSpec} (hn : txt.length < n)
    (hplain : Plain txt) :
    rtlilParseTo lib (some wires) n txt = .ok bits ↔ Denotes lib wires (strip txt) bits := by
  induction n generalizing txt bits with
  | zero => omega
  | succ n ih =>
    rw [rtlilParseTo]
    dsimp only
    by_cases hnil : strip txt = []
    · rw [if_pos hnil, hnil]
      exact iff_of_false nofun fun h => h.ne_nil rfl
    rw [if_neg hnil]
    by_cases hopen : (strip txt).head? = some '{'
    · rw [if_neg (not_not.mpr hopen)]
      by_cases hclose : (strip txt).getLast? = some '}'
      · rw [if_neg (not_not.mpr hclose)]
        have hs := eq_braces hopen hclose
        generalize hinner : (strip txt).tail.dropLast = inner at hs
        have hlength : (strip txt).length ≤ txt.length := List.length_filter_le _ _
        have hlen : inner.length + 2 ≤ txt.length := by
          rw [hs, List.length_append, List.length_cons, List.length_singleton] at hlength
          omega
        by_cases hbraces : (rtlilItems inner).2 = 0
        · rw [if_neg (not_not.mpr hbraces)]
          have hitem : ∀ t ∈ (rtlilItems inner).1, ∀ b,
              rtlilParseTo lib (some wires) n t = .ok b ↔ Denotes lib wires t b := by
            intro t ht b
            have hstrip : strip t = t := by
              apply strip_eq_self (s := txt)
              intro c hc
              rw [hs]
              simp [mem_of_mem_items ht hc]
            have := length_items_le ht
            rw [← hstrip]
            conv_lhs => rw [hstrip]
            apply ih (by omega)
            intro u hu
            rw [hstrip] at hu
            exact hplain u (.item hopen hclose (by rw [hinner]; exact hbraces) (by rw [hinner]; exact ht) hu)
          have hitems : rtlilItems inner = ((rtlilItems inner).1, 0) := by rw [← hbraces]
          obtain ⟨hts, hjoin, hpieces⟩ := items_eq_iff.mp hitems
          rw [items_read hitem]
          constructor
          · rintro ⟨sigs, hsigs, rfl⟩
            rw [hs, hjoin]
            exact .concat hts hpieces hsigs
          · intro h
            obtain ⟨ts, sigs, hjoin', hts', hpieces', hsigs, rfl⟩ := denotes_concat hopen h
            rw [hs] at hjoin'
            have hitems' := items_eq_iff.mpr ⟨hts', (List.cons.inj (List.append_cancel_right hjoin')).2, hpieces'⟩
            rw [hitems']
            exact ⟨sigs, hsigs, rfl⟩
        · rw [if_pos hbraces]
          refine iff_of_false nofun ?_
          intro h
          obtain ⟨ts, sigs, hjoin, hts, hpieces, -, -⟩ := denotes_concat hopen h
          rw [hs] at hjoin
          have hitems := items_eq_iff.mpr ⟨hts, (List.cons.inj (List.append_cancel_right hjoin)).2, hpieces⟩
          rw [hitems] at hbraces
          exact hbraces rfl
      · rw [if_pos hclose]
        refine iff_of_false nofun ?_
        intro h
        obtain ⟨ts, sigs, hjoin, -⟩ := denotes_concat hopen h
        rw [hjoin, List.getLast?_concat] at hclose
        exact hclose rfl
    · rw [if_pos hopen]
      exact parseOne_iff hlib hnil hopen (hplain _ (.self hopen))

theorem parseSigspec_iff (hlib : lib.Documented) {txt : Text} {bits : SigSpec} (hplain : Plain txt) :
    rtlilParseSigspec lib (some wires) txt = .ok bits ↔ Denotes lib wires (strip txt) bits :=
  parseTo_iff hlib (Nat.lt_succ_self _) hplain

/-- With a module nothing is read through a null pointer. -/
theorem parseOne_ne_crash (tok : Text) : rtlilParseOne lib (some wires) tok ≠ .error .crash := by
  rw [rtlilParseOne]
  split
  · dsimp only
    split
    · nofun
    · split_ifs <;> nofun
  · split
    · nofun
    · dsimp only
      split
      · nofun
      · split_ifs <;> nofun

theorem parseTo_ne_crash (n : Nat) (txt : Text) : rtlilParseTo lib (some wires) n txt ≠ .error .crash := by
  induction n generalizing txt with
  | zero => nofun
  | succ n ih =>
    rw [rtlilParseTo]
    dsimp only
    split_ifs
    · nofun
    · exact parseOne_ne_crash _
    · nofun
    · nofun
    · intro h
      cases hm : (rtlilItems (strip txt).tail.dropLast).1.reverse.mapM (rtlilParseTo lib (some wires) n) with
      | ok sigs =>
        rw [hm] at h
        cases h
      | error e =>
        rw [hm] at h
        cases h
        obtain ⟨t, -, ht⟩ := Traverse.mapM_eq_error hm
        exact ih t ht

theorem parseSigspec_ne_crash (txt : Text) : rtlilParseSigspec lib (some wires) txt ≠ .error .crash :=
  parseTo_ne_crash _ _

end Concatenations

end Yosys.Facade
