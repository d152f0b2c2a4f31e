import Mathlib.Data.List.DropRight
import Mathlib.Tactic

/-!
# Python strings

A Python `str` is a sequence of code points, lone surrogates included, so it is a list of numbers
below `0x110000` here and not a Lean `String`.  Only the string operations whose result does not
depend on the interpreter's Unicode tables are defined in this file.
-/

namespace Python

/-- One element of a Python `str`; surrogates are code points like any other. -/
abbrev CodePoint := Fin 0x110000

/-- A Python `str`. -/
abbrev Str := List CodePoint

/-- One element of a Python `bytes`. -/
abbrev Byte := Fin 256

/-- A Python `bytes`. -/
abbrev Bytes := List Byte

/-! The instances that literals and membership tests on code points look for, each under a name. -/

instance CodePoint.neZero : NeZero (0x110000 : Nat) := ⟨by decide⟩

instance Byte.neZero : NeZero (256 : Nat) := ⟨by decide⟩

instance CodePoint.lawfulBEq : LawfulBEq CodePoint := inferInstance

instance Str.lawfulBEq : LawfulBEq Str := inferInstance

def CodePoint.ofChar (c : Char) : CodePoint :=
  ⟨c.toNat, by
    have h := c.valid
    simp only [UInt32.isValidChar, Nat.isValidChar] at h
    simp only [Char.toNat]
    omega⟩

instance : Coe Char CodePoint := ⟨CodePoint.ofChar⟩

/-- The `str` a Lean string literal spells. -/
def str (s : String) : Str := s.toList.map CodePoint.ofChar

@[simp] theorem CodePoint.val_ofChar (c : Char) : (CodePoint.ofChar c).val = c.toNat := rfl

@[simp] theorem CodePoint.ofChar_inj (a b : Char) :
    CodePoint.ofChar a = CodePoint.ofChar b ↔ a = b := by
  rw [Fin.ext_iff, CodePoint.val_ofChar, CodePoint.val_ofChar]
  exact ⟨fun h => Char.ext (UInt32.toNat_inj.mp h), congrArg Char.toNat⟩

theorem CodePoint.eq_ofChar_iff (c : CodePoint) (d : Char) :
    c = CodePoint.ofChar d ↔ c.val = d.toNat := by
  rw [Fin.ext_iff, CodePoint.val_ofChar]

theorem CodePoint.val_ofNat {n : Nat} (h : n < 0x110000) : (Fin.ofNat 0x110000 n).val = n :=
  Nat.mod_eq_of_lt h

theorem Byte.val_ofNat {n : Nat} (h : n < 256) : (Fin.ofNat 256 n).val = n :=
  Nat.mod_eq_of_lt h

theorem CodePoint.ofNat_val (c : CodePoint) : Fin.ofNat 0x110000 c.val = c :=
  Fin.ext (CodePoint.val_ofNat c.isLt)

theorem Byte.ofNat_val (b : Byte) : Fin.ofNat 256 b.val = b :=
  Fin.ext (Byte.val_ofNat b.isLt)

theorem Byte.ofNat_eq {n : Nat} (b : Byte) (h : n = b.val) : Fin.ofNat 256 n = b := by
  rw [h, Byte.ofNat_val]

/-! ## Character classes -/

namespace CodePoint

def isUpperAscii (c : CodePoint) : Bool := 65 ≤ c.val && c.val ≤ 90

def isLowerAscii (c : CodePoint) : Bool := 97 ≤ c.val && c.val ≤ 122

/-- `[A-Za-z]` -/
def isAsciiLetter (c : CodePoint) : Bool := c.isUpperAscii || c.isLowerAscii

/-- `[0-9]` -/
def isAsciiDigit (c : CodePoint) : Bool := 48 ≤ c.val && c.val ≤ 57

/-- `[A-Za-z0-9]` -/
def isAsciiAlnum (c : CodePoint) : Bool := c.isAsciiLetter || c.isAsciiDigit

/-- `[0-7]` -/
def isOctal (c : CodePoint) : Bool := 48 ≤ c.val && c.val ≤ 55

def isSurrogate (c : CodePoint) : Bool := 0xD800 ≤ c.val && c.val ≤ 0xDFFF

/-- `str.isspace` of one character. -/
def isSpace (c : CodePoint) : Bool :=
  (9 ≤ c.val && c.val ≤ 13) || (28 ≤ c.val && c.val ≤ 32) || c.val == 0x85 || c.val == 0xA0 ||
    c.val == 0x1680 || (0x2000 ≤ c.val && c.val ≤ 0x200A) || c.val == 0x2028 || c.val == 0x2029 ||
    c.val == 0x202F || c.val == 0x205F || c.val == 0x3000

/-- The line boundaries of `str.splitlines`; all of them are white space. -/
def isLineBreak (c : CodePoint) : Bool :=
  (10 ≤ c.val && c.val ≤ 13) || (28 ≤ c.val && c.val ≤ 30) || c.val == 0x85 || c.val == 0x2028 ||
    c.val == 0x2029

end CodePoint

/-! ## String methods -/

namespace Str

def lstrip (s : Str) : Str := s.dropWhile CodePoint.isSpace

/-- `s.strip()` -/
def strip (s : Str) : Str := (lstrip s).rdropWhile CodePoint.isSpace

/-- `s.splitlines()`; `\r\n` is one boundary, and none is needed at the end. -/
def splitlines : Str → List Str
  | [] => []
  | c :: rest =>
    if c.isLineBreak then
      match rest with
      | d :: rest' =>
        if c = '\r' ∧ d = '\n' then [] :: splitlines rest' else [] :: splitlines (d :: rest')
      | [] => [[]]
    else
      match splitlines rest with
      | [] => [[c]]
      | line :: lines => (c :: line) :: lines

/-- `s.split()` -/
def splitWords : Str → List Str
  | [] => []
  | c :: rest =>
    if c.isSpace then splitWords rest
    else
      match rest with
      | [] => [[c]]
      | d :: _ =>
        if d.isSpace then [c] :: splitWords rest
        else
          match splitWords rest with
          | [] => [[c]]
          | word :: words => (c :: word) :: words

theorem splitlines_cons_line {line : Str} (h : ∀ c ∈ line, c.isLineBreak = false) (rest : Str) :
    splitlines (line ++ ('\n' : CodePoint) :: rest) = line :: splitlines rest := by
  induction line with
  | nil =>
    have hn : CodePoint.isLineBreak ('\n' : CodePoint) = true := rfl
    have hcr : ¬ CodePoint.ofChar '\n' = CodePoint.ofChar '\r' := by decide
    cases rest <;> simp [splitlines, hn, hcr]
  | cons c line ih =>
    rw [List.cons_append, splitlines.eq_def]
    simp only [h c (by simp), Bool.false_eq_true, if_false, ih fun d hd => h d (by simp [hd])]

/-- A text written line by line, each with its `\n`, splits into those lines. -/
theorem splitlines_flatMap {lines : List Str} (h : ∀ l ∈ lines, ∀ c ∈ l, c.isLineBreak = false) :
    splitlines (lines.flatMap (· ++ [('\n' : CodePoint)])) = lines := by
  induction lines with
  | nil => rfl
  | cons l lines ih =>
    rw [List.flatMap_cons, List.append_assoc, List.singleton_append,
      splitlines_cons_line (h l (by simp)), ih fun l' hl' => h l' (by simp [hl'])]

theorem splitlines_ne_nil {s : Str} (h : s ≠ []) : splitlines s ≠ [] := by
  fun_cases splitlines s with
  | case1 => exact absurd rfl h
  | case2 => simp
  | case3 => simp
  | case4 => simp
  | case5 => simp
  | case6 => simp

theorem splitlines_newline (rest : Str) :
    splitlines (('\n' : CodePoint) :: rest) = [] :: splitlines rest := by
  have hempty : ∀ c ∈ ([] : Str), c.isLineBreak = false := by simp
  exact splitlines_cons_line hempty rest

/-- A `\n` ends its line, whatever precedes it. -/
theorem splitlines_append_newline (s rest : Str) :
    splitlines (s ++ ('\n' : CodePoint) :: rest) =
      splitlines (s ++ [('\n' : CodePoint)]) ++ splitlines rest := by
  have hline : ∀ (c : CodePoint) (s : Str), ¬ c.isLineBreak = true →
      splitlines (s ++ ('\n' : CodePoint) :: rest) =
        splitlines (s ++ [('\n' : CodePoint)]) ++ splitlines rest →
      splitlines (c :: s ++ ('\n' : CodePoint) :: rest) =
        splitlines (c :: s ++ [('\n' : CodePoint)]) ++ splitlines rest := by
    intro c s hc ih
    rw [List.cons_append, List.cons_append, splitlines.eq_def, splitlines.eq_def (c :: _)]
    simp only [hc, ih]
    cases h : splitlines (s ++ [('\n' : CodePoint)]) with
    | nil => exact absurd h (splitlines_ne_nil (by simp))
    | cons line lines => rfl
  induction s using splitlines.induct with
  | case1 => rw [List.nil_append, List.nil_append, splitlines_newline, splitlines_newline]; rfl
  | case2 c hc d rest' hcd ih =>
    rw [List.cons_append, List.cons_append, splitlines.eq_def]
    simp only [hc, if_true, if_pos hcd, ih]
    conv_rhs => rw [List.cons_append, List.cons_append, splitlines.eq_def]
    simp only [hc, if_true, if_pos hcd]
    rfl
  | case3 c hc d rest' hcd ih =>
    rw [List.cons_append, List.cons_append, splitlines.eq_def]
    rw [List.cons_append] at ih
    simp only [hc, if_true, if_neg hcd, ih]
    conv_rhs => rw [List.cons_append, List.cons_append, splitlines.eq_def]
    simp only [hc, if_true, if_neg hcd]
    rfl
  | case4 c hc =>
    simp only [List.cons_append, List.nil_append]
    rw [splitlines.eq_def, splitlines.eq_def (c :: _)]
    simp only [hc, if_true, and_true, splitlines_newline]
    split_ifs <;> rfl
  | case5 c rest hc _ ih => exact hline c rest hc ih
  | case6 c rest hc _ _ _ ih => exact hline c rest hc ih

theorem mem_splitlines (s : Str) :
    ∀ line ∈ splitlines s, ∀ c ∈ line, c ∈ s ∧ c.isLineBreak = false := by
  fun_induction splitlines s with
  | case1 => simp
  | case2 c hc d rest' _ ih =>
    intro line hline e he
    rcases List.mem_cons.mp hline with rfl | hline
    · simp at he
    · have := ih line hline e he
      simp [this]
  | case3 c hc d rest' _ ih =>
    intro line hline e he
    rcases List.mem_cons.mp hline with rfl | hline
    · simp at he
    · exact ⟨List.mem_cons_of_mem _ (ih line hline e he).1, (ih line hline e he).2⟩
  | case4 => simp
  | case5 c rest hc _ _ =>
    intro line hline e he
    obtain rfl : line = [c] := by simpa using hline
    obtain rfl : e = c := by simpa using he
    exact ⟨by simp, by simpa using hc⟩
  | case6 c rest hc first lines heq ih =>
    rw [heq] at ih
    intro line hline e he
    rcases List.mem_cons.mp hline with rfl | hline
    · rcases List.mem_cons.mp he with rfl | he
      · exact ⟨by simp, by simpa using hc⟩
      · have := ih first (by simp) e he
        exact ⟨List.mem_cons_of_mem _ this.1, this.2⟩
    · have := ih line (by simp [hline]) e he
      exact ⟨List.mem_cons_of_mem _ this.1, this.2⟩

theorem splitWords_of_no_space {s : Str} (hne : s ≠ []) (h : ∀ c ∈ s, c.isSpace = false) :
    splitWords s = [s] := by
  induction s with
  | nil => exact absurd rfl hne
  | cons c s ih =>
    rw [splitWords.eq_def]
    simp only [h c (by simp), Bool.false_eq_true, if_false]
    cases s with
    | nil => rfl
    | cons d s =>
      simp only [h d (by simp), Bool.false_eq_true, if_false,
        ih (by simp) fun e he => h e (by simp [he])]

/-- `strip` keeps a text that neither starts nor ends with white space. -/
theorem strip_eq_self {s : Str} (hhead : ∀ c ∈ s.head?, c.isSpace = false)
    (hlast : ∀ c ∈ s.getLast?, c.isSpace = false) : strip s = s := by
  have hl : lstrip s = s := by
    cases s with
    | nil => rfl
    | cons c s => simp [lstrip, hhead c (by simp)]
  rw [strip, hl, List.rdropWhile_eq_self_iff]
  intro hne
  simp [hlast _ (List.getLast?_eq_some_getLast hne)]

theorem mem_strip {s : Str} {c : CodePoint} (h : c ∈ strip s) : c ∈ s :=
  List.IsSuffix.mem (List.IsPrefix.mem h (List.rdropWhile_prefix _ _)) (List.dropWhile_suffix _)

end Str

end Python
