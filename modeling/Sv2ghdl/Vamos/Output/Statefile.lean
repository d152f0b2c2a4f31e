import Sv2ghdl.Python.Unicode
import Sv2ghdl.Vamos.Names

/-!
# State files

`vamos/output/statefile.py`: a `#` header, then one `<name> <value>` line per node and per current
entry.  A backslash protects what the line format would read otherwise; the `:` left bare in a
current entry is what tells it from a node.
-/

open Python

namespace Vamos.Statefile

/-- An ordered mapping of names to values. -/
abbrev Table := List (Str × Float)

/-! ## Writing -/

/-- The characters a backslash is written before. -/
def escaped (c : CodePoint) : Bool := c.isSpace || c = '#' || c = '\\' || c = ':'

def escapeText (name : Str) : Str :=
  name.flatMap fun c => if escaped c then ['\\', c] else [c]

/-- `s.rpartition(":")` without its separator, for an `s` that holds one. -/
def rpartition (s : Str) : Str × Str :=
  let term := s.rtakeWhile fun c : CodePoint => c ≠ ':'
  ((s.take (s.length - term.length)).dropLast, term)

/-- `name_text`: the last `:` of a current entry stays the terminal separator. -/
def nameText (name : Str) (current : Bool) : Str :=
  if current ∧ CodePoint.ofChar ':' ∈ name then
    escapeText (rpartition name).1 ++ (':' : CodePoint) :: escapeText (rpartition name).2
  else escapeText name

def entryLine (current : Bool) (entry : Str × Float) : Str :=
  nameText entry.1 current ++ (' ' : CodePoint) :: formatG15 entry.2

def headerLines (circuit analysis date : Str) : List Str :=
  [str "# State file generated by Spectre from circuit file '" ++ circuit ++ str "'",
    str "# during '" ++ analysis ++ str "' at " ++ date ++ str "."]

/-- The lines `write` prints, each of which ends in a newline. -/
def fileLines (nodes currents : Table) (circuit analysis date : Str) : List Str :=
  headerLines circuit analysis date ++ nodes.map (entryLine false) ++ currents.map (entryLine true)

/-- `write`: the bytes of the file. -/
def write (nodes currents : Table) (circuit analysis date : Str) : Bytes :=
  Names.fileBytes ((fileLines nodes currents circuit analysis date).flatMap
    (· ++ [('\n' : CodePoint)]))

/-! ## Reading -/

/-- `_comment_free`: the line before its first unescaped `#`. -/
def commentFree : Str → Str
  | [] => []
  | c :: rest =>
    if c = '\\' then
      match rest with
      | d :: rest => c :: d :: commentFree rest
      | [] => [c]
    else if c = '#' then []
    else c :: commentFree rest

/-- `_split_name`: the name, the rest of the line and whether the name holds an unescaped `:`. -/
def splitName : Str → Str × Str × Bool
  | [] => ([], [], false)
  | c :: rest =>
    if c = '\\' then
      match rest with
      | d :: rest =>
        let (name, value, colon) := splitName rest
        (d :: name, value, colon)
      | [] => ([c], [], false)
    else if c.isSpace then ([], Str.strip (c :: rest), false)
    else
      let (name, value, colon) := splitName rest
      (c :: name, value, colon || c = ':')

/-- `read_text`: UTF-8, or Latin-1 for a file whose bytes are not UTF-8. -/
def readText (data : Bytes) : Str :=
  match Utf8.decode .strict data with
  | some text => text
  | none => data.map Names.chr

/-- The `ValueError`s of `read`, with the line they name. -/
inductive ReadError where
  | expectedEntry (line : Nat)
  | notANumber (line : Nat) (value : Str)
  deriving DecidableEq, Repr

/-- `d[name] = v` on an ordered `dict`. -/
def assign (t : Table) (name : Str) (v : Float) : Table :=
  if name ∈ t.map Prod.fst then t.map fun e => if e.1 = name then (name, v) else e
  else t ++ [(name, v)]

variable (U : UnicodeData)

/-- One line of `read`. -/
def readLine (lineno : Nat) (raw : Str) (acc : Table × Table) :
    Except ReadError (Table × Table) :=
  let text := (commentFree raw).strip
  if text = [] then .ok acc
  else
    let (name, value, current) := splitName text
    if name = [] ∨ value = [] ∨ (Str.splitWords value).length ≠ 1 then
      .error (.expectedEntry lineno)
    else
      match U.float value with
      | none => .error (.notANumber lineno value)
      | some v => .ok (if current then (acc.1, assign acc.2 name v)
          else (assign acc.1 name v, acc.2))

def readLines (lineno : Nat) (acc : Table × Table) : List Str → Except ReadError (Table × Table)
  | [] => .ok acc
  | raw :: rest =>
    match readLine U lineno raw acc with
    | .error e => .error e
    | .ok acc => readLines (lineno + 1) acc rest

def read (data : Bytes) : Except ReadError (Table × Table) :=
  readLines U 1 ([], []) (Str.splitlines (readText data))

/-- `float("%.15g" % v)` -/
def printedValue (v : Float) : Float := (U.float (formatG15 v)).getD 0

def printed (t : Table) : Table := t.map fun e => (e.1, printedValue U e.2)

/-! ## The four scanners on a spelled name -/

/-- `Spells t name colon`: `t` spells `name`, each character bare or after a backslash; `colon` is
    whether one of the bare ones is a `:`. -/
inductive Spells : Str → Str → Bool → Prop
  | nil : Spells [] [] false
  | escape (c : CodePoint) {t name : Str} {colon : Bool} (h : Spells t name colon) :
    Spells ('\\' :: c :: t) (c :: name) colon
  | bare (c : CodePoint) {t name : Str} {colon : Bool} (hspace : c.isSpace = false)
    (hslash : c ≠ '\\') (hhash : c ≠ '#') (h : Spells t name colon) :
    Spells (c :: t) (c :: name) (colon || c = ':')

theorem Spells.append {t t' name name' : Str} {colon colon' : Bool} (h : Spells t name colon)
    (h' : Spells t' name' colon') : Spells (t ++ t') (name ++ name') (colon' || colon) := by
  induction h with
  | nil => simpa using h'
  | escape c _ ih => exact .escape c ih
  | bare c hspace hslash hhash _ ih =>
    rw [← Bool.or_assoc]
    exact .bare c hspace hslash hhash ih

theorem spells_escapeText (name : Str) : Spells (escapeText name) name false := by
  induction name with
  | nil => exact .nil
  | cons c name ih =>
    rw [escapeText, List.flatMap_cons, ← escapeText]
    cases hc : escaped c with
    | true => exact .escape c ih
    | false =>
      simp only [escaped, Bool.or_eq_false_iff, decide_eq_false_iff_not] at hc
      have hbare := Spells.bare c hc.1.1.1 hc.1.2 hc.1.1.2 ih
      rwa [decide_eq_false hc.2, Bool.or_false] at hbare

theorem rpartition_eq {name : Str} (h : CodePoint.ofChar ':' ∈ name) :
    name = (rpartition name).1 ++ (':' : CodePoint) :: (rpartition name).2 := by
  let notColon : CodePoint → Bool := fun c => c ≠ CodePoint.ofChar ':'
  have hsplit : name.rdropWhile notColon ++ name.rtakeWhile notColon = name :=
    List.rdropWhile_append_rtakeWhile
  have hne : name.rdropWhile notColon ≠ [] := fun hnil => by
    simpa [notColon] using List.rdropWhile_eq_nil_iff.mp hnil _ h
  have hlast : (name.rdropWhile notColon).getLast hne = CodePoint.ofChar ':' := by
    simpa [notColon] using List.rdropWhile_last_not notColon name hne
  have hfront : name.take (name.length - (name.rtakeWhile notColon).length) =
      name.rdropWhile notColon := by
    have htake : ∀ a b : Str, a ++ b = name → name.take (name.length - b.length) = a := by
      rintro a b rfl
      simp
    exact htake _ _ hsplit
  have hpath := List.dropLast_append_getLast hne
  rw [hlast] at hpath
  calc name = name.rdropWhile notColon ++ name.rtakeWhile notColon := hsplit.symm
    _ = (name.rdropWhile notColon).dropLast ++ (':' : CodePoint) :: name.rtakeWhile notColon := by
      conv_lhs => rw [← hpath]
      rw [List.append_assoc, List.singleton_append]
    _ = (rpartition name).1 ++ (':' : CodePoint) :: (rpartition name).2 := by
      rw [← hfront]
      rfl

theorem spells_nameText {name : Str} (current : Bool)
    (h : current = true → CodePoint.ofChar ':' ∈ name) :
    Spells (nameText name current) name current := by
  cases current with
  | false => exact spells_escapeText name
  | true =>
    have hcolon := h rfl
    rw [nameText, if_pos ⟨rfl, hcolon⟩]
    have hsep : Spells [(':' : CodePoint)] [(':' : CodePoint)] true :=
      .bare _ rfl (by decide) (by decide) .nil
    have := (spells_escapeText (rpartition name).1).append
      (hsep.append (spells_escapeText (rpartition name).2))
    rw [List.singleton_append, List.singleton_append, ← rpartition_eq hcolon] at this
    exact this

theorem commentFree_spelled {t name : Str} {colon : Bool} (h : Spells t name colon) (rest : Str) :
    commentFree (t ++ rest) = t ++ commentFree rest := by
  induction h with
  | nil => rfl
  | escape c _ ih =>
    rw [List.cons_append, List.cons_append, commentFree.eq_def]
    simp only [if_true, ih, List.cons_append]
  | bare c _ hslash hhash _ ih =>
    rw [List.cons_append, commentFree.eq_def]
    simp only [if_neg hslash, if_neg hhash, ih, List.cons_append]

theorem splitName_spelled {t name : Str} {colon : Bool} (h : Spells t name colon) (rest : Str) :
    splitName (t ++ rest) = (name ++ (splitName rest).1, (splitName rest).2.1,
      (splitName rest).2.2 || colon) := by
  induction h with
  | nil => simp
  | escape c _ ih =>
    rw [List.cons_append, List.cons_append, splitName.eq_def]
    simp only [if_true, ih, List.cons_append]
  | bare c hspace hslash _ _ ih =>
    rw [List.cons_append, splitName.eq_def]
    simp only [if_neg hslash, hspace, ih, List.cons_append, Bool.or_assoc]
    simp

theorem Spells.head_isSpace {t name : Str} {colon : Bool} (h : Spells t name colon) :
    ∀ c ∈ t.head?, c.isSpace = false := by
  cases h with
  | nil => simp
  | escape c h =>
    intro d hd
    obtain rfl : CodePoint.ofChar '\\' = d := by simpa using hd
    rfl
  | bare c hspace _ _ _ =>
    intro d hd
    obtain rfl : c = d := by simpa using hd
    exact hspace

theorem Spells.ne_nil {t name : Str} {colon : Bool} (h : Spells t name colon) (hn : name ≠ []) :
    t ≠ [] := by
  cases h with
  | nil => exact absurd rfl hn
  | escape => simp
  | bare => simp

theorem commentFree_eq_self {s : Str} (h : ∀ c ∈ s, c ≠ CodePoint.ofChar '\\' ∧ c ≠ CodePoint.ofChar '#') :
    commentFree s = s := by
  induction s with
  | nil => rfl
  | cons c s ih =>
    rw [commentFree.eq_def]
    simp only [if_neg (h c (by simp)).1, if_neg (h c (by simp)).2, ih fun d hd => h d (by simp [hd])]

theorem ne_of_isFloatChar {c : CodePoint} (h : isFloatChar c = true) :
    c ≠ CodePoint.ofChar '\\' ∧ c ≠ CodePoint.ofChar '#' := by
  constructor <;> rintro rfl <;> exact absurd h (by decide)

/-- What the reader makes of an entry line: its name and value, in the table `colon` tells. -/
theorem readLine_spelled {t name value : Str} {colon : Bool} (h : Spells t name colon)
    (hname : name ≠ []) (hvalue : value ≠ []) (hchars : ∀ c ∈ value, isFloatChar c = true)
    {v : Float} (hv : U.float value = some v) (lineno : Nat) (acc : Table × Table) :
    readLine U lineno (t ++ (' ' : CodePoint) :: value) acc =
      .ok (if colon then (acc.1, assign acc.2 name v) else (assign acc.1 name v, acc.2)) := by
  have hspace : ∀ c ∈ value, c.isSpace = false := fun c hc =>
    (UnicodeData.isFloatChar_facts (hchars c hc)).2.2.1
  have hstrip : Str.strip (t ++ (' ' : CodePoint) :: value) = t ++ (' ' : CodePoint) :: value := by
    refine Str.strip_eq_self ?_ ?_
    · rw [List.head?_append_of_ne_nil _ (h.ne_nil hname)]
      exact h.head_isSpace
    · intro c hc
      have hlast : (t ++ (' ' : CodePoint) :: value).getLast? = value.getLast? := by
        rw [List.append_cons, List.getLast?_append_of_ne_nil _ hvalue]
      rw [hlast] at hc
      exact hspace c (List.mem_of_mem_getLast? hc)
  have hcomment : commentFree ((' ' : CodePoint) :: value) = (' ' : CodePoint) :: value :=
    commentFree_eq_self (by
      intro c hc
      rcases List.mem_cons.mp hc with rfl | hc
      · decide
      · exact ne_of_isFloatChar (hchars c hc))
  have hvalueStrip : Str.strip ((' ' : CodePoint) :: value) = value := by
    have hl : Str.lstrip ((' ' : CodePoint) :: value) = value := by
      rw [Str.lstrip, List.dropWhile_cons_of_pos rfl]
      exact UnicodeData.dropWhile_eq_self hspace
    rw [Str.strip, hl, UnicodeData.rdropWhile_eq_self hspace]
  have hblank : (CodePoint.ofChar ' ').isSpace = true := rfl
  have hsplit : splitName ((' ' : CodePoint) :: value) = ([], value, false) := by
    rw [splitName.eq_def]
    simp only [hblank, hvalueStrip, if_true]
    rfl
  have hline : t ++ (' ' : CodePoint) :: value ≠ [] := by simp
  have hwords : Str.splitWords value = [value] := Str.splitWords_of_no_space hvalue hspace
  unfold readLine
  simp only [commentFree_spelled h, hcomment, hstrip, if_neg hline, splitName_spelled h, hsplit,
    List.append_nil, Bool.false_or, hwords, hv]
  rw [if_neg (by simp [hname, hvalue])]

/-! ## The lines of the entries -/

def names (t : Table) : List Str := t.map Prod.fst

theorem formatG15_isFloatChar (v : Float) : ∀ c ∈ formatG15 v, isFloatChar c = true :=
  isFloatChar_floatText _ _ _ v

theorem float_formatG15 (v : Float) : U.float (formatG15 v) = some (printedValue U v) := by
  have h : (U.float (formatG15 v)).isSome = true := by
    rw [U.float_of_floatChars (formatG15_isFloatChar v)]
    exact asciiFloat_floatText _ _ _ v
  obtain ⟨x, hx⟩ := Option.isSome_iff_exists.mp h
  rw [printedValue, hx, Option.getD_some]

theorem formatG15_ne_nil (v : Float) : formatG15 v ≠ [] := by
  intro h
  have := asciiFloat_floatText 15 false fifteenDigits v
  rw [← formatG15, h] at this
  exact absurd this (by decide)

theorem assign_new {t : Table} {name : Str} (h : name ∉ names t) (v : Float) :
    assign t name v = t ++ [(name, v)] := if_neg h

/-- Reading the lines of a table appends its entries to the table they belong to. -/
theorem readLines_entries (current : Bool) (t : Table) (lineno : Nat) (acc : Table × Table)
    (hname : ∀ n ∈ names t, n ≠ []) (hcolon : current = true → ∀ n ∈ names t, CodePoint.ofChar ':' ∈ n)
    (hdistinct : (names ((if current then acc.2 else acc.1) ++ t)).Nodup) :
    readLines U lineno acc (t.map (entryLine current)) =
      .ok (if current then (acc.1, acc.2 ++ printed U t) else (acc.1 ++ printed U t, acc.2)) := by
  induction t generalizing lineno acc with
  | nil => cases current <;> simp [readLines, printed]
  | cons e t ih =>
    have hnew : e.1 ∉ names (if current then acc.2 else acc.1) := by
      intro hmem
      rw [names, List.map_append, List.nodup_append] at hdistinct
      exact hdistinct.2.2 e.1 hmem e.1 (by simp) rfl
    have hline := readLine_spelled U
      (spells_nameText current fun hc => hcolon hc e.1 (by simp [names])) (hname e.1 (by simp [names]))
      (formatG15_ne_nil e.2) (formatG15_isFloatChar e.2) (float_formatG15 U e.2) lineno acc
    rw [List.map_cons, readLines, entryLine, hline]
    dsimp only
    rw [ih]
    · cases current with
      | true =>
        simp only [if_true] at hnew ⊢
        rw [assign_new hnew]
        simp [printed]
      | false =>
        simp only [Bool.false_eq_true, if_false] at hnew ⊢
        rw [assign_new hnew]
        simp [printed]
    · exact fun n hn => hname n (by simp [names] at hn ⊢; exact .inr hn)
    · exact fun hc n hn => hcolon hc n (by simp [names] at hn ⊢; exact .inr hn)
    · cases current with
      | true =>
        simp only [if_true] at hnew hdistinct ⊢
        rw [assign_new hnew]
        simpa [names] using hdistinct
      | false =>
        simp only [Bool.false_eq_true, if_false] at hnew hdistinct ⊢
        rw [assign_new hnew]
        simpa [names] using hdistinct

theorem readLines_append (l₁ l₂ : List Str) (lineno : Nat) (acc : Table × Table) :
    readLines U lineno acc (l₁ ++ l₂) =
      match readLines U lineno acc l₁ with
      | .error e => .error e
      | .ok acc => readLines U (lineno + l₁.length) acc l₂ := by
  induction l₁ generalizing lineno acc with
  | nil => rfl
  | cons l l₁ ih =>
    rw [List.cons_append, readLines, readLines]
    cases readLine U lineno l acc with
    | error e => rfl
    | ok acc =>
      dsimp only
      rw [ih, List.length_cons, Nat.add_assoc, Nat.add_comm 1]

theorem readLines_silent {lines : List Str} (h : ∀ l ∈ lines, (commentFree l).strip = [])
    (lineno : Nat) (acc : Table × Table) : readLines U lineno acc lines = .ok acc := by
  induction lines generalizing lineno with
  | nil => rfl
  | cons l lines ih =>
    have hl : readLine U lineno l acc = .ok acc := by
      unfold readLine
      exact if_pos (h l (by simp))
    rw [readLines, hl]
    exact ih (fun l' hl' => h l' (by simp [hl'])) (lineno + 1)

/-! ## The file's bytes -/

def headerBytes (circuit analysis date : Str) : Bytes :=
  Names.fileBytes ((headerLines circuit analysis date).flatMap (· ++ [('\n' : CodePoint)]))

/-- Whether the header, as the file's bytes read back, holds no entry: its lines are comments, and
    where its bytes are not UTF-8 the names are the same in Latin-1. -/
structure HeaderKept (entries : List Str) (header : Bytes) : Prop where
  silent : ∀ line ∈ Str.splitlines (readText header), (commentFree line).strip = []
  ascii : Utf8.decode .strict header = none → ∀ n ∈ entries, ∀ c ∈ n, c.val < 128

theorem Spells.mem {t name : Str} {colon : Bool} (h : Spells t name colon) :
    ∀ c ∈ t, c ∈ name ∨ c = CodePoint.ofChar '\\' := by
  induction h with
  | nil => simp
  | escape c _ ih =>
    intro d hd
    simp only [List.mem_cons] at hd ⊢
    rcases hd with hd | hd | hd
    · exact .inr hd
    · exact .inl (.inl hd)
    · exact (ih d hd).imp .inr id
  | bare c _ _ _ _ ih =>
    intro d hd
    simp only [List.mem_cons] at hd ⊢
    rcases hd with hd | hd
    · exact .inl (.inl hd)
    · exact (ih d hd).imp .inr id

/-- What holds of the name and of all ASCII characters but control characters holds of the line. -/
theorem entryLine_all {p : CodePoint → Prop} {current : Bool} {e : Str × Float}
    (hcolon : current = true → CodePoint.ofChar ':' ∈ e.1) (hname : ∀ c ∈ e.1, p c)
    (hascii : ∀ c, 32 ≤ c.val → c.val < 128 → p c) : ∀ c ∈ entryLine current e, p c := by
  intro c hc
  rcases List.mem_append.mp hc with hc | hc
  · rcases (spells_nameText current hcolon).mem c hc with hc | rfl
    · exact hname c hc
    · exact hascii _ (by decide) (by decide)
  · rcases List.mem_cons.mp hc with rfl | hc
    · exact hascii _ (by decide) (by decide)
    · have hfloat := formatG15_isFloatChar e.2 c hc
      have hval : 32 ≤ c.val := by
        simp only [isFloatChar, CodePoint.isAsciiAlnum, CodePoint.isAsciiLetter,
          CodePoint.isUpperAscii, CodePoint.isLowerAscii, CodePoint.isAsciiDigit, Bool.or_eq_true,
          Bool.and_eq_true, decide_eq_true_eq, CodePoint.eq_ofChar_iff, Char.reduceToNat] at hfloat
        omega
      exact hascii c hval (UnicodeData.isFloatChar_facts hfloat).1

/-- ASCII text reads the same from its bytes in Latin-1. -/
theorem latin1_encode {text : Str} (h : ∀ c ∈ text, c.val < 128) :
    (Utf8.encode text).map Names.chr = text := by
  induction text with
  | nil => rfl
  | cons c text ih =>
    have hc := h c (by simp)
    have hback : Names.chr (Fin.ofNat 256 c.val) = c := by
      rw [Names.chr, Byte.val_ofNat (by omega), CodePoint.ofNat_val]
    rw [Utf8.encode, List.flatMap_cons, ← Utf8.encode, List.map_append,
      ih fun d hd => h d (by simp [hd]), Utf8.encodeChar, if_pos (by omega), List.map_singleton,
      hback, List.singleton_append]

/-- After a header that ends its last line, the entries read as they were written. -/
theorem readText_append (header : Bytes) {text : Str} (htext : ∀ c ∈ text, c.isSurrogate = false)
    (hascii : Utf8.decode .strict (header ++ [10]) = none → ∀ c ∈ text, c.val < 128) :
    ∃ front, readText (header ++ [10]) = front ++ [('\n' : CodePoint)] ∧
      readText (header ++ 10 :: Names.fileBytes text) = front ++ ('\n' : CodePoint) :: text := by
  have hbytes : Names.fileBytes text = Utf8.encode text := by
    rw [Names.fileBytes_eq_encode fun c hc => Names.isRawByte_of_not_surrogate (htext c hc),
      Names.map_shown htext]
  have hdecode : Utf8.decode .strict (Names.fileBytes text) = some text := by
    rw [hbytes]
    exact Utf8.decode_encode _ _ fun c hc => by simp [Utf8.Policy.admits, htext c hc]
  have hnl : (10 : Byte).val < 0x80 := by decide
  have hone := Utf8.decode_append_ascii .strict header [] hnl
  have hall := Utf8.decode_append_ascii .strict header (Names.fileBytes text) hnl
  rw [hdecode] at hall
  cases hheader : Utf8.decode .strict header with
  | some front =>
    rw [hheader] at hone hall
    refine ⟨front, ?_, ?_⟩
    · rw [readText, hone]
      rfl
    · rw [readText, hall]
      rfl
  | none =>
    rw [hheader] at hone hall
    have hlatin : (Names.fileBytes text).map Names.chr = text :=
      (congrArg _ hbytes).trans (latin1_encode (hascii hone))
    refine ⟨header.map Names.chr, ?_, ?_⟩
    · rw [readText, hone, List.map_append]
      rfl
    · rw [readText, hall]
      simp only [Option.bind_none, List.map_append, List.map_cons, hlatin]
      rfl

/-! ## A file reads back -/

/-- Whether the file written for some tables reads as those tables, the values as printed. -/
def ReadsBack (nodes currents : Table) (circuit analysis date : Str) : Prop :=
  read U (write nodes currents circuit analysis date) =
    .ok (printed U nodes, printed U currents)

/-- The names a line of a UTF-8 file can hold. -/
def NameFits (name : Str) : Prop := ∀ c ∈ name, c.isLineBreak = false ∧ c.isSurrogate = false

theorem fits_ascii (c : CodePoint) (hlow : 32 ≤ c.val) (hhigh : c.val < 128) :
    c.isLineBreak = false ∧ c.isSurrogate = false := by
  simp only [CodePoint.isLineBreak, CodePoint.isSurrogate, Bool.or_eq_false_iff,
    Bool.and_eq_false_iff, decide_eq_false_iff_not, beq_eq_false_iff_ne]
  omega

/-- The entries' part of the file. -/
def entriesText (nodes currents : Table) : Str :=
  (nodes.map (entryLine false) ++ currents.map (entryLine true)).flatMap (· ++ [('\n' : CodePoint)])

theorem entriesText_all {p : CodePoint → Prop} {nodes currents : Table}
    (hcolon : ∀ n ∈ names currents, CodePoint.ofChar ':' ∈ n)
    (hname : ∀ n ∈ names nodes ++ names currents, ∀ c ∈ n, p c)
    (hascii : ∀ c, 32 ≤ c.val → c.val < 128 → p c) :
    ∀ line ∈ nodes.map (entryLine false) ++ currents.map (entryLine true), ∀ c ∈ line, p c := by
  intro line hline
  rcases List.mem_append.mp hline with hline | hline
  · obtain ⟨e, he, rfl⟩ := List.mem_map.mp hline
    refine entryLine_all (by simp) (hname e.1 ?_) hascii
    exact List.mem_append_left _ (List.mem_map_of_mem he)
  · obtain ⟨e, he, rfl⟩ := List.mem_map.mp hline
    refine entryLine_all (fun _ => hcolon e.1 (List.mem_map_of_mem he)) (hname e.1 ?_) hascii
    exact List.mem_append_right _ (List.mem_map_of_mem he)

theorem write_eq (nodes currents : Table) (circuit analysis date : Str) :
    ∃ header, headerBytes circuit analysis date = header ++ [10] ∧
      write nodes currents circuit analysis date =
        header ++ 10 :: Names.fileBytes (entriesText nodes currents) := by
  obtain ⟨first, second, hlines⟩ : ∃ first second,
      headerLines circuit analysis date = [first, second] := ⟨_, _, rfl⟩
  have hnl : Names.fileBytes [('\n' : CodePoint)] = [10] := rfl
  refine ⟨Names.fileBytes (first ++ [('\n' : CodePoint)] ++ second), ?_, ?_⟩
  · rw [headerBytes, hlines, ← hnl, ← Names.fileBytes_append]
    simp
  · have hsplit : (fileLines nodes currents circuit analysis date).flatMap
        (· ++ [('\n' : CodePoint)]) = first ++ [('\n' : CodePoint)] ++ second ++
          ([('\n' : CodePoint)] ++ entriesText nodes currents) := by
      simp [fileLines, hlines, entriesText]
    rw [write, hsplit, Names.fileBytes_append, Names.fileBytes_append _ (entriesText _ _), hnl]
    rfl

/-- Names that fit in a line read back after a header that holds no entry. -/
theorem readsBack_of_fits {nodes currents : Table} {circuit analysis date : Str}
    (hnodes : (names nodes).Nodup) (hempty : ∀ n ∈ names nodes, n ≠ [])
    (hcurrents : (names currents).Nodup)
    (hcolon : ∀ n ∈ names currents, CodePoint.ofChar ':' ∈ n)
    (hfits : ∀ n ∈ names nodes ++ names currents, NameFits n)
    (hheader : HeaderKept (names nodes ++ names currents) (headerBytes circuit analysis date)) :
    ReadsBack U nodes currents circuit analysis date := by
  obtain ⟨header, hhb, hwrite⟩ := write_eq nodes currents circuit analysis date
  rw [hhb] at hheader
  have hlines := entriesText_all (p := fun c => c.isLineBreak = false ∧ c.isSurrogate = false)
    hcolon hfits fits_ascii
  have htext : ∀ c ∈ entriesText nodes currents, c.isSurrogate = false := by
    intro c hc
    obtain ⟨line, hline, hc⟩ := List.mem_flatMap.mp hc
    rcases List.mem_append.mp hc with hc | hc
    · exact (hlines line hline c hc).2
    · obtain rfl : c = CodePoint.ofChar '\n' := by simpa using hc
      rfl
  have hascii : Utf8.decode .strict (header ++ [10]) = none →
      ∀ c ∈ entriesText nodes currents, c.val < 128 := by
    intro hnone c hc
    obtain ⟨line, hline, hc⟩ := List.mem_flatMap.mp hc
    rcases List.mem_append.mp hc with hc | hc
    · exact entriesText_all (p := fun c => c.val < 128) hcolon (hheader.ascii hnone)
        (fun _ _ h => h) line hline c hc
    · obtain rfl : c = CodePoint.ofChar '\n' := by simpa using hc
      decide
  obtain ⟨front, hfront, hwhole⟩ := readText_append header htext hascii
  have hsilent := hheader.silent
  rw [hfront] at hsilent
  have hcolonNe : ∀ n ∈ names currents, n ≠ [] := by
    rintro n hn rfl
    exact absurd (hcolon _ hn) (by simp)
  rw [ReadsBack, hwrite, read, hwhole, Str.splitlines_append_newline, readLines_append,
    readLines_silent U hsilent, entriesText,
    Str.splitlines_flatMap fun l hl c hc => (hlines l hl c hc).1]
  dsimp only
  rw [readLines_append, readLines_entries U false nodes _ ([], []) hempty (by simp) (by simpa)]
  simp only [Bool.false_eq_true, if_false, List.nil_append]
  rw [readLines_entries U true currents _ (_, []) hcolonNe (fun _ => hcolon) (by simpa)]
  rfl

/-! ## What a file cannot hold -/

theorem mem_commentFree (s : Str) : ∀ c ∈ commentFree s, c ∈ s := by
  fun_induction commentFree s with
  | case1 => simp
  | case2 d rest ih =>
    intro c hc
    simp only [List.mem_cons] at hc ⊢
    exact hc.imp id (Or.imp id (ih c))
  | case3 => simp
  | case4 => simp
  | case5 c rest _ _ ih =>
    intro d hd
    simp only [List.mem_cons] at hd ⊢
    exact hd.imp id (ih d)

theorem mem_splitName (s : Str) : ∀ c ∈ (splitName s).1, c ∈ s := by
  fun_induction splitName s with
  | case1 => simp
  | case2 d rest _ _ _ heq ih =>
    rw [heq] at ih
    intro c hc
    simp only [List.mem_cons] at hc ⊢
    exact .inr (hc.imp id (ih c))
  | case3 => simp
  | case4 => simp
  | case5 c rest _ _ _ _ _ heq ih =>
    rw [heq] at ih
    intro d hd
    simp only [List.mem_cons] at hd ⊢
    exact hd.imp id (ih d)

theorem mem_names_assign {t : Table} {name n : Str} {v : Float} (h : n ∈ names (assign t name v)) :
    n ∈ names t ∨ n = name := by
  unfold assign at h
  split_ifs at h with hmem
  · obtain ⟨e', he', rfl⟩ := List.mem_map.mp h
    obtain ⟨e, he, rfl⟩ := List.mem_map.mp he'
    split_ifs
    · exact .inr rfl
    · exact .inl (List.mem_map_of_mem he)
  · simpa [names] using h

/-- The characters of the names one line adds are characters of the line. -/
theorem readLine_names {p : CodePoint → Prop} {lineno : Nat} {raw : Str} {acc acc' : Table × Table}
    (h : readLine U lineno raw acc = .ok acc') (hraw : ∀ c ∈ raw, p c)
    (hacc : ∀ n ∈ names acc.1 ++ names acc.2, ∀ c ∈ n, p c) :
    ∀ n ∈ names acc'.1 ++ names acc'.2, ∀ c ∈ n, p c := by
  have hname : ∀ c ∈ (splitName (commentFree raw).strip).1, p c := fun c hc =>
    hraw c (mem_commentFree _ c (Str.mem_strip (mem_splitName _ c hc)))
  unfold readLine at h
  dsimp only at h
  by_cases hblank : (commentFree raw).strip = []
  · rw [if_pos hblank] at h
    obtain rfl := Except.ok.inj h
    exact hacc
  rw [if_neg hblank] at h
  split at h
  · simp at h
  split at h
  · simp at h
  · obtain rfl := Except.ok.inj h
    intro n hn
    have hcases : n ∈ names acc.1 ++ names acc.2 ∨
        n = (splitName (commentFree raw).strip).1 := by
      split at hn
      · rcases List.mem_append.mp hn with hn | hn
        · exact .inl (List.mem_append_left _ hn)
        · exact (mem_names_assign hn).imp (List.mem_append_right _) id
      · rcases List.mem_append.mp hn with hn | hn
        · exact (mem_names_assign hn).imp (List.mem_append_left _) id
        · exact .inl (List.mem_append_right _ hn)
    rcases hcases with hn | rfl
    · exact hacc n hn
    · exact hname

theorem readLines_names {p : CodePoint → Prop} {lines : List Str} {lineno : Nat}
    {acc acc' : Table × Table} (h : readLines U lineno acc lines = .ok acc')
    (hlines : ∀ line ∈ lines, ∀ c ∈ line, p c)
    (hacc : ∀ n ∈ names acc.1 ++ names acc.2, ∀ c ∈ n, p c) :
    ∀ n ∈ names acc'.1 ++ names acc'.2, ∀ c ∈ n, p c := by
  induction lines generalizing lineno acc with
  | nil =>
    obtain rfl := Except.ok.inj h
    exact hacc
  | cons raw lines ih =>
    rw [readLines] at h
    cases hline : readLine U lineno raw acc with
    | error e => simp [hline] at h
    | ok mid =>
      rw [hline] at h
      exact ih h (fun line hl => hlines line (by simp [hl]))
        (readLine_names U hline (hlines raw (by simp)) hacc)

theorem readText_not_surrogate (data : Bytes) : ∀ c ∈ readText data, c.isSurrogate = false := by
  intro c hc
  unfold readText at hc
  split at hc
  · rename_i text hdecode
    simpa [Utf8.Policy.admits] using Utf8.admits_of_decode _ _ _ hdecode c hc
  · obtain ⟨b, _, rfl⟩ := List.mem_map.mp hc
    have hb := b.isLt
    have hv : (Names.chr b).val = b.val := CodePoint.val_ofNat (by omega)
    simp only [CodePoint.isSurrogate, hv, Bool.and_eq_false_iff, decide_eq_false_iff_not]
    omega

/-- Whatever the file, a name read from it fits in a line of it. -/
theorem fits_of_read {data : Bytes} {nodes currents : Table}
    (h : read U data = .ok (nodes, currents)) :
    ∀ n ∈ names nodes ++ names currents, NameFits n := by
  refine readLines_names U h (fun line hline c hc => ?_) (by simp [names])
  obtain ⟨hmem, hbreak⟩ := Str.mem_splitlines _ line hline c hc
  exact ⟨hbreak, readText_not_surrogate data c hmem⟩

theorem headerLines_all {p : CodePoint → Prop} {circuit analysis date : Str}
    (h : ∀ c ∈ circuit ++ analysis ++ date, p c) (hascii : ∀ c, 32 ≤ c.val → c.val < 128 → p c) :
    ∀ line ∈ headerLines circuit analysis date, ∀ c ∈ line, p c := by
  have hword : ∀ s : Str, s.all (fun c => 32 ≤ c.val && c.val < 128) = true → ∀ c ∈ s, p c := by
    intro s hs c hc
    have hc := List.all_eq_true.mp hs c hc
    simp only [Bool.and_eq_true, decide_eq_true_eq] at hc
    exact hascii c hc.1 hc.2
  simp only [List.mem_append] at h
  intro line hline c hc
  simp only [headerLines, List.mem_cons, List.not_mem_nil, or_false] at hline
  rcases hline with rfl | rfl
  · simp only [List.mem_append] at hc
    rcases hc with (hc | hc) | hc
    · exact hword _ (by decide) c hc
    · exact h c (.inl (.inl hc))
    · exact hword _ (by decide) c hc
  · simp only [List.mem_append] at hc
    rcases hc with (((hc | hc) | hc) | hc) | hc
    · exact hword _ (by decide) c hc
    · exact h c (.inl (.inr hc))
    · exact hword _ (by decide) c hc
    · exact h c (.inr hc)
    · exact hword _ (by decide) c hc

theorem commentFree_comment (rest : Str) : commentFree (('#' : CodePoint) :: rest) = [] := by
  have hslash : ¬ CodePoint.ofChar '#' = CodePoint.ofChar '\\' := by decide
  rw [commentFree.eq_def]
  simp only [if_neg hslash, if_true]

theorem headerLines_comment {circuit analysis date : Str} :
    ∀ line ∈ headerLines circuit analysis date, ∃ rest, line = CodePoint.ofChar '#' :: rest := by
  intro line hline
  simp only [headerLines, List.mem_cons, List.not_mem_nil, or_false] at hline
  rcases hline with rfl | rfl <;> exact ⟨_, rfl⟩

/-- A header whose parts hold neither a line boundary nor a raw byte holds no entry. -/
theorem headerKept_of_plain {circuit analysis date : Str}
    (hbreak : ∀ c ∈ circuit ++ analysis ++ date, c.isLineBreak = false)
    (hraw : ∀ c ∈ circuit ++ analysis ++ date, Names.isRawByte c = false) (entries : List Str) :
    HeaderKept entries (headerBytes circuit analysis date) := by
  let lines := (headerLines circuit analysis date).map (·.map Names.shown)
  have hlines := headerLines_all hbreak fun c hlow hhigh => (fits_ascii c hlow hhigh).1
  have hrawLines := headerLines_all hraw fun c hlow hhigh =>
    Names.isRawByte_of_not_surrogate (fits_ascii c hlow hhigh).2
  have hrawText : ∀ c ∈ (headerLines circuit analysis date).flatMap (· ++ [('\n' : CodePoint)]),
      Names.isRawByte c = false := by
    intro c hc
    obtain ⟨line, hline, hc⟩ := List.mem_flatMap.mp hc
    rcases List.mem_append.mp hc with hc | hc
    · exact hrawLines line hline c hc
    · obtain rfl : c = CodePoint.ofChar '\n' := by simpa using hc
      rfl
  have htext : ((headerLines circuit analysis date).flatMap
      (· ++ [('\n' : CodePoint)])).map Names.shown = lines.flatMap (· ++ [('\n' : CodePoint)]) := by
    have hnl : Names.shown (CodePoint.ofChar '\n') = CodePoint.ofChar '\n' := rfl
    simp only [lines, List.map_flatMap, List.flatMap_map, List.map_append, List.map_singleton, hnl]
  have hdecode : Utf8.decode .strict (headerBytes circuit analysis date) =
      some (lines.flatMap (· ++ [('\n' : CodePoint)])) := by
    rw [headerBytes, Names.fileBytes_eq_encode hrawText, htext]
    refine Utf8.decode_encode _ _ fun c hc => ?_
    rw [← htext] at hc
    obtain ⟨d, _, rfl⟩ := List.mem_map.mp hc
    simp [Utf8.Policy.admits, Names.not_isSurrogate_shown]
  have hshown : ∀ line ∈ lines, ∀ c ∈ line, c.isLineBreak = false := by
    intro line hline c hc
    obtain ⟨source, hsource, rfl⟩ := List.mem_map.mp hline
    obtain ⟨d, hd, rfl⟩ := List.mem_map.mp hc
    unfold Names.shown
    split_ifs
    · rfl
    · exact hlines source hsource d hd
  refine ⟨fun line hline => ?_, fun hnone => by simp [hdecode] at hnone⟩
  rw [readText, hdecode, Str.splitlines_flatMap hshown] at hline
  obtain ⟨source, hsource, rfl⟩ := List.mem_map.mp hline
  obtain ⟨rest, rfl⟩ := headerLines_comment source hsource
  have hhash : Names.shown (CodePoint.ofChar '#') = CodePoint.ofChar '#' := rfl
  rw [List.map_cons, hhash, commentFree_comment]
  rfl

theorem names_printed (t : Table) : names (printed U t) = names t := by
  simp [names, printed]

/-- A state file reads back just when its names fit in its lines, provided that its header holds no
    entry; a header without raw bytes never does. -/
theorem readsBack_iff (nodes currents : Table) (circuit analysis date : Str)
    (hnodes : (names nodes).Nodup) (hempty : ∀ n ∈ names nodes, n ≠ [])
    (hcurrents : (names currents).Nodup)
    (hcolon : ∀ n ∈ names currents, CodePoint.ofChar ':' ∈ n)
    (hbreak : ∀ c ∈ circuit ++ analysis ++ date, c.isLineBreak = false) :
    (ReadsBack U nodes currents circuit analysis date →
      ∀ n ∈ names nodes ++ names currents, NameFits n) ∧
    ((∀ n ∈ names nodes ++ names currents, NameFits n) →
      HeaderKept (names nodes ++ names currents) (headerBytes circuit analysis date) →
      ReadsBack U nodes currents circuit analysis date) ∧
    ((∀ c ∈ circuit ++ analysis ++ date, Names.isRawByte c = false) →
      HeaderKept (names nodes ++ names currents) (headerBytes circuit analysis date)) := by
  refine ⟨fun h => ?_, readsBack_of_fits U hnodes hempty hcurrents hcolon, fun hraw =>
    headerKept_of_plain hbreak hraw _⟩
  have hfits := fits_of_read U h
  rwa [names_printed, names_printed] at hfits

/-- Two nodes, one of them named with every character the writer escapes, and a current. -/
theorem readsBack_iff_escapes :
    ReadsBack .small [(str "a b#\\:", 1), (str "out", 2)] [(str "V1:p", 3)] (str "opamp.scs")
      (str "step") (str "5:39:38 PM, jan 21, 1992") := by
  have hheader : ∀ c ∈ str "opamp.scs" ++ str "step" ++ str "5:39:38 PM, jan 21, 1992",
      (!c.isLineBreak && !Names.isRawByte c) = true := List.all_eq_true.mp (by decide)
  have hnames : ∀ n ∈ [str "a b#\\:", str "out", str "V1:p"],
      (n.all fun c => !c.isLineBreak && !c.isSurrogate) = true := List.all_eq_true.mp (by decide)
  simp only [Bool.and_eq_true, Bool.not_eq_true'] at hheader
  have h := readsBack_iff .small [(str "a b#\\:", 1), (str "out", 2)] [(str "V1:p", 3)]
    (str "opamp.scs") (str "step") (str "5:39:38 PM, jan 21, 1992") (by decide) (by decide)
    (by decide) (by decide) fun c hc => (hheader c hc).1
  refine h.2.1 (fun n hn c hc => ?_) (h.2.2 fun c hc => (hheader c hc).2)
  simpa using List.all_eq_true.mp (hnames n hn) c hc

/-- No escape reaches `splitlines`: a node `a<U+2028>b` is written on two lines of the reader. -/
theorem not_readsBack_lineSeparator :
    (names [([('a' : CodePoint), 0x2028, ('b' : CodePoint)], (1 : Float))]).Nodup ∧
      ¬ ReadsBack .small [([('a' : CodePoint), 0x2028, ('b' : CodePoint)], 1)] []
        (str "opamp.scs") (str "step") (str "5:39:38 PM, jan 21, 1992") := by
  refine ⟨by simp [names], fun h => ?_⟩
  have hfits := fits_of_read .small h [('a' : CodePoint), 0x2028, ('b' : CodePoint)]
    (by simp [names, printed]) 0x2028 (by simp)
  exact absurd hfits.1 (by decide)

end Vamos.Statefile
