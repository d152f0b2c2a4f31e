import Sv2ghdl.Python.Fnmatch

/-!
# Save tokens

`vamos/netlist/signals.py`: a name to save as the statement spells it, where `\`, `*`, `?` and `:` stand for
themselves only after a backslash.
-/

open Python Python.Fnmatch

namespace Vamos.Netlist.Save

/-- `"[%s]" % c` -/
def bracket (c : CodePoint) : Str := ('[' : CodePoint) :: c :: [(']' : CodePoint)]

/-- The pattern that `_glob` hands to `fnmatch`. -/
def globPattern : Str → Str
  | [] => []
  | ch :: rest =>
    if ch = '\\' then
      match rest with
      | c :: rest =>
        (if c ∈ str "[]*?" then bracket c else [c]) ++ globPattern rest
      | [] => [ch]
    else (if ch ∈ str "[]" then bracket ch else [ch]) ++ globPattern rest

/-- `_glob` -/
def glob (pattern text : Str) : Bool := fnmatchcase text (globPattern pattern)

/-- The loop of `_unesc`. -/
def unescLoop : Str → Str
  | [] => []
  | ch :: rest =>
    if ch = '\\' then
      match rest with
      | c :: rest => c :: unescLoop rest
      | [] => [ch]
    else ch :: unescLoop rest

/-- `_unesc` -/
def unesc (text : Str) : Str := if ('\\' : CodePoint) ∉ text then text else unescLoop text

/-- The text before the first `:` that is not escaped, and the text after it. -/
def findColon : Str → Option (Str × Str)
  | [] => none
  | ch :: rest =>
    if ch = '\\' then
      match rest with
      | c :: rest => (findColon rest).map fun p => (ch :: c :: p.1, p.2)
      | [] => none
    else if ch = ':' then some ([], rest)
    else (findColon rest).map fun p => (ch :: p.1, p.2)

/-- `_split_save` -/
def splitSave (token : Str) : Str × Str × Str :=
  match findColon token with
  | some (left, right) => (left, str ":", right)
  | none => (token, [], [])

/-- `_wild` -/
def wild : Str → Bool
  | [] => false
  | ch :: rest =>
    if ch = '\\' then
      match rest with
      | _ :: rest => wild rest
      | [] => false
    else if ch ∈ str "*?" then true
    else wild rest

/-! ## What a token spells -/

/-- A part of a token: any text, any character, or a character. -/
inductive Piece where
  | text
  | one
  | char (c : CodePoint)
  deriving DecidableEq, Repr

def pieces : Str → List Piece
  | [] => []
  | ch :: rest =>
    if ch = '\\' then
      match rest with
      | c :: rest => .char c :: pieces rest
      | [] => [.char ch]
    else if ch = '*' then .text :: pieces rest
    else if ch = '?' then .one :: pieces rest
    else .char ch :: pieces rest

def Piece.Accepts : Piece → Str → Prop
  | .text, _ => True
  | .one, s => ∃ c, s = [c]
  | .char c, s => s = [c]

/-- The texts that a token stands for: its parts one after the other. -/
def Reads (token text : Str) : Prop :=
  ∃ parts, List.Forall₂ Piece.Accepts (pieces token) parts ∧ parts.flatten = text

/-- Whether a name needs a backslash before the character. -/
def special (c : CodePoint) : Bool := c ∈ str "\\*?:"

def escape (name : Str) : Str := name.flatMap fun c => if special c then ('\\' : CodePoint) :: [c] else [c]

/-! ## Characters that are not escaped -/

section Plain

variable {ch : CodePoint} (h : ch ≠ '\\') (rest : Str)
include h

theorem globPattern_plain :
    globPattern (ch :: rest) = (if ch ∈ str "[]" then bracket ch else [ch]) ++ globPattern rest := by
  rw [globPattern.eq_def]
  exact if_neg h

theorem unescLoop_plain : unescLoop (ch :: rest) = ch :: unescLoop rest := by
  rw [unescLoop.eq_def]
  exact if_neg h

theorem findColon_plain (hcolon : ch ≠ ':') :
    findColon (ch :: rest) = (findColon rest).map fun p => (ch :: p.1, p.2) := by
  rw [findColon.eq_def]
  exact (if_neg h).trans (if_neg hcolon)

theorem wild_plain (hwild : ch ∉ str "*?") : wild (ch :: rest) = wild rest := by
  rw [wild.eq_def]
  exact (if_neg h).trans (if_neg hwild)

theorem pieces_plain : pieces (ch :: rest) =
    (if ch = '*' then .text else if ch = '?' then .one else .char ch) :: pieces rest := by
  rw [pieces.eq_def]
  refine (if_neg h).trans ?_
  split_ifs <;> rfl

end Plain

/-! ## Patterns -/

/-- A part of a token and a part of a pattern that stand for the same texts. -/
def Same (piece : Piece) (item : Item) : Prop := ∀ s, piece.Accepts s ↔ item.Accepts s

theorem same_bracket (c : CodePoint) : Same (.char c) (.cls false [c]) := fun s => (accepts_bracket c s).symm

theorem same_pieces (p : Str) : List.Forall₂ Same (pieces p) (translate (globPattern p)) := by
  have hlit : ∀ {c : CodePoint} {ps : List Piece} {r : Str}, c ∉ str "[*?" →
      List.Forall₂ Same ps (translate r) → List.Forall₂ Same (.char c :: ps) (translate (c :: r)) := by
    intro c ps r hc ih
    obtain ⟨hopen, hstar, hany⟩ : c ≠ '[' ∧ c ≠ '*' ∧ c ≠ '?' := by simpa [str] using hc
    rw [translate_lit hstar hany hopen]
    exact .cons (fun _ => Iff.rfl) ih
  have hbracket : ∀ {c : CodePoint} {ps : List Piece} {r : Str}, c ≠ '!' →
      List.Forall₂ Same ps (translate r) → List.Forall₂ Same (.char c :: ps) (translate (bracket c ++ r)) := by
    intro c ps r hc ih
    rw [bracket, List.cons_append, List.cons_append, List.cons_append, List.nil_append,
      translate_bracket hc]
    exact .cons (same_bracket c) ih
  induction p using pieces.induct with
  | case1 =>
    rw [pieces, globPattern, Fnmatch.translate]
    exact .nil
  | case2 c rest ih =>
    show List.Forall₂ Same (.char c :: pieces rest)
      (translate ((if c ∈ str "[]*?" then bracket c else [c]) ++ globPattern rest))
    split_ifs with hmem
    · refine hbracket ?_ ih
      rintro rfl
      exact absurd hmem (by decide)
    · refine hlit (fun h => ?_) ih
      rcases (by simpa [str] using h : c = '[' ∨ c = '*' ∨ c = '?') with rfl | rfl | rfl <;>
        exact hmem (by decide)
  | case3 =>
    show List.Forall₂ Same [.char '\\'] (translate ['\\'])
    refine hlit (by decide) ?_
    rw [Fnmatch.translate]
    exact .nil
  | case4 rest hback ih =>
    rw [pieces_plain hback, globPattern_plain hback, if_pos rfl, if_neg (by decide), List.singleton_append,
      translate_star]
    exact .cons (fun _ => Iff.rfl) ih
  | case5 rest hback hstar ih =>
    rw [pieces_plain hback, globPattern_plain hback, if_neg hstar, if_pos rfl, if_neg (by decide),
      List.singleton_append, translate_any]
    exact .cons (fun _ => Iff.rfl) ih
  | case6 ch rest hback hstar hany ih =>
    rw [pieces_plain hback, globPattern_plain hback, if_neg hstar, if_neg hany]
    split_ifs with hmem
    · refine hbracket ?_ ih
      rintro rfl
      exact absurd hmem (by decide)
    · refine hlit (fun h => ?_) ih
      rcases (by simpa [str] using h : ch = '[' ∨ ch = '*' ∨ ch = '?') with rfl | rfl | rfl
      · exact hmem (by decide)
      · exact hstar rfl
      · exact hany rfl

theorem accepts_same {ps : List Piece} {items : List Item} (h : List.Forall₂ Same ps items) (parts : List Str) :
    List.Forall₂ Piece.Accepts ps parts ↔ List.Forall₂ Item.Accepts items parts := by
  induction h generalizing parts with
  | nil => simp only [List.forall₂_nil_left_iff]
  | cons hsame _ ih => simp only [List.forall₂_cons_left_iff, hsame _, ih]

/-- A pattern accepts exactly the texts that the token stands for. -/
theorem glob_iff (p x : Str) : glob p x = true ↔ Reads p x := by
  rw [glob, fnmatchcase_iff, Reads]
  exact exists_congr fun parts => and_congr_left fun _ => (accepts_same (same_pieces p) parts).symm

/-! ## Escaped names -/

theorem escape_cons (c : CodePoint) (n : Str) :
    escape (c :: n) = (if special c then ('\\' : CodePoint) :: [c] else [c]) ++ escape n := rfl

theorem ne_of_not_special {c : CodePoint} (h : ¬ special c = true) :
    c ≠ '\\' ∧ c ≠ '*' ∧ c ≠ '?' ∧ c ≠ ':' := by
  simpa [special, str] using h

theorem wild_escape (n : Str) : wild (escape n) = false := by
  induction n with
  | nil => rfl
  | cons c n ih =>
    rw [escape_cons]
    split_ifs with h
    · exact ih
    · obtain ⟨hback, hstar, hany, -⟩ := ne_of_not_special h
      rw [List.singleton_append, wild_plain hback _ (by simp [str, hstar, hany]), ih]

theorem findColon_escape (n : Str) : findColon (escape n) = none := by
  induction n with
  | nil => rfl
  | cons c n ih =>
    rw [escape_cons]
    split_ifs with h
    · show (findColon (escape n)).map _ = none
      rw [ih]
      rfl
    · obtain ⟨hback, -, -, hcolon⟩ := ne_of_not_special h
      rw [List.singleton_append, findColon_plain hback _ hcolon, ih]
      rfl

theorem unescLoop_escape (n : Str) : unescLoop (escape n) = n := by
  induction n with
  | nil => rfl
  | cons c n ih =>
    rw [escape_cons]
    split_ifs with h
    · exact congrArg (c :: ·) ih
    · rw [List.singleton_append, unescLoop_plain (ne_of_not_special h).1, ih]

theorem unescLoop_of_not_mem {t : Str} (h : ('\\' : CodePoint) ∉ t) : unescLoop t = t := by
  induction t with
  | nil => rfl
  | cons c t ih =>
    have hc : c ≠ '\\' := fun heq => h (heq ▸ List.mem_cons_self)
    rw [unescLoop_plain hc, ih fun hmem => h (List.mem_cons_of_mem c hmem)]

theorem unesc_escape (n : Str) : unesc (escape n) = n := by
  rw [unesc]
  split_ifs with h
  · exact unescLoop_escape n
  · rw [← unescLoop_of_not_mem h, unescLoop_escape]

theorem pieces_escape (n : Str) : pieces (escape n) = n.map Piece.char := by
  induction n with
  | nil => rfl
  | cons c n ih =>
    rw [escape_cons, List.map_cons]
    split_ifs with h
    · exact congrArg (.char c :: ·) ih
    · obtain ⟨hback, hstar, hany, -⟩ := ne_of_not_special h
      rw [List.singleton_append, pieces_plain hback, if_neg hstar, if_neg hany, ih]

theorem reads_escape (n x : Str) : Reads (escape n) x ↔ x = n := by
  rw [Reads, pieces_escape]
  induction n generalizing x with
  | nil =>
    constructor
    · rintro ⟨parts, hparts, rfl⟩
      cases hparts
      rfl
    · rintro rfl
      exact ⟨[], .nil, rfl⟩
  | cons c n ih =>
    constructor
    · rintro ⟨parts, hparts, rfl⟩
      cases hparts with
      | cons hc hrest =>
        rw [List.flatten_cons, (ih _).mp ⟨_, hrest, rfl⟩, show _ = [c] from hc]
        rfl
    · rintro rfl
      obtain ⟨parts, hparts, hflat⟩ := (ih n).mpr rfl
      exact ⟨[c] :: parts, .cons rfl hparts, by rw [List.flatten_cons, hflat]; rfl⟩

/-- An escaped name is no wildcard and holds no separator, it spells the name, and it matches that name only;
    every token matches what it reads as. -/
theorem token_spells (n p x : Str) :
    wild (escape n) = false ∧ splitSave (escape n) = (escape n, [], []) ∧ unesc (escape n) = n ∧
      (glob p x = true ↔ Reads p x) ∧ (glob (escape n) x = true ↔ x = n) := by
  refine ⟨wild_escape n, ?_, unesc_escape n, glob_iff p x, (glob_iff _ x).trans (reads_escape n x)⟩
  rw [splitSave, findColon_escape]

end Vamos.Netlist.Save
