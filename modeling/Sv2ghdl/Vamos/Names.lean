import Sv2ghdl.Python.Utf8

/-!
# Escaped names

`vamos/names.py`: the reversible mapping of a name that a consumer cannot take literally to one
made of ASCII letters, digits and `_` only.
-/

open Python

namespace Vamos.Names

/-- The `ValueError`s of this module, by the check that fails. -/
inductive NameError where
  | neitherPlainNorEscaped
  | notAForm
  | notAByte (code : Nat)
  | notUtf8
  | notCanonical
  deriving DecidableEq, Repr

/-- `[A-Za-z0-9_]` -/
def isNameChar (c : CodePoint) : Bool := c.isAsciiAlnum || c = '_'

/-- `_PLAIN`, that is `[A-Za-z0-9][A-Za-z0-9_]*\Z`. -/
def isPlain : Str → Bool
  | [] => false
  | c :: rest => c.isAsciiAlnum && rest.all isNameChar

/-- `_KEPT`: the bytes that stand for themselves. -/
def kept (b : Byte) : Bool :=
  (65 ≤ b.val && b.val ≤ 90) || (97 ≤ b.val && b.val ≤ 122) || (48 ≤ b.val && b.val ≤ 57)

/-- `chr(b)` -/
def chr (b : Byte) : CodePoint := Fin.ofNat 0x110000 b.val

/-- `"_%03o" % b` -/
def octalGroup (b : Byte) : Str :=
  ['_', Fin.ofNat 0x110000 (48 + b.val / 64), Fin.ofNat 0x110000 (48 + b.val / 8 % 8),
    Fin.ofNat 0x110000 (48 + b.val % 8)]

def escapeByte (b : Byte) : Str := if kept b then [chr b] else octalGroup b

def escapeName (name : Str) : Str :=
  if isPlain name then name else '_' :: (Utf8.encode name).flatMap escapeByte

/-- `_FORM` after its leading `_`, that is `(?:[A-Za-z0-9]|_[0-7]{3})*\Z`. -/
def isFormBody : Str → Bool
  | [] => true
  | c :: rest =>
    if c.isAsciiAlnum then isFormBody rest
    else if c = '_' then
      match rest with
      | d1 :: d2 :: d3 :: rest => d1.isOctal && d2.isOctal && d3.isOctal && isFormBody rest
      | _ => false
    else false

/-- `_FORM`. -/
def isForm : Str → Bool
  | [] => false
  | c :: body => c = '_' && isFormBody body

/-- `int(ddd, 8)` of three octal digits. -/
def octalValue (d1 d2 d3 : CodePoint) : Nat :=
  (d1.val - 48) * 64 + (d2.val - 48) * 8 + (d3.val - 48)

/-- The loop of `_decode` over the text after the leading `_`. -/
def formBytes : Str → Except NameError Bytes
  | [] => .ok []
  | c :: rest =>
    if c = '_' then
      match rest with
      | d1 :: d2 :: d3 :: rest =>
        let code := octalValue d1 d2 d3
        if code > 0o377 then .error (.notAByte code)
        else (formBytes rest).map (Fin.ofNat 256 code :: ·)
      | _ => .error .notAForm -- `_FORM` has refused this text already
    else (formBytes rest).map (Fin.ofNat 256 c.val :: ·)

/-- `_decode`: the name an escaped form's bytes spell, without the canonical check. -/
def decodeForm (form : Str) : Except NameError Str :=
  if isForm form then
    match formBytes form.tail with
    | .error e => .error e
    | .ok data =>
      match Utf8.decode .surrogatepass data with
      | some name => .ok name
      | none => .error .notUtf8
  else .error .notAForm

def isEscaped (name : Str) : Bool :=
  match name with
  | [] => false
  | c :: _ =>
    if c = '_' then
      match decodeForm name with
      | .ok decoded => escapeName decoded == name
      | .error _ => false
    else false

def unescapeName (name : Str) : Except NameError Str :=
  if isPlain name then .ok name
  else if name.head? ≠ some ('_' : CodePoint) then .error .neitherPlainNorEscaped
  else
    match decodeForm name with
    | .error e => .error e
    | .ok decoded => if escapeName decoded ≠ name then .error .notCanonical else .ok decoded

/-! ## The octal groups delimit themselves -/

theorem kept_chr (b : Byte) : (chr b).isAsciiAlnum = kept b := by
  have hv : (chr b).val = b.val := CodePoint.val_ofNat (by omega)
  simp only [CodePoint.isAsciiAlnum, CodePoint.isAsciiLetter, CodePoint.isUpperAscii,
    CodePoint.isLowerAscii, CodePoint.isAsciiDigit, kept, hv]

theorem alnum_ne_underscore {c : CodePoint} (h : c.isAsciiAlnum = true) :
    c ≠ CodePoint.ofChar '_' := by
  rintro rfl
  exact absurd h (by decide)

theorem octal_digit (d : Nat) (hd : d < 8) :
    (Fin.ofNat 0x110000 (48 + d)).val = 48 + d ∧
      CodePoint.isOctal (Fin.ofNat 0x110000 (48 + d)) = true := by
  have hv : (Fin.ofNat 0x110000 (48 + d)).val = 48 + d := CodePoint.val_ofNat (by omega)
  refine ⟨hv, ?_⟩
  simp only [CodePoint.isOctal, hv, Bool.and_eq_true, decide_eq_true_eq]
  omega

theorem octalValue_octalGroup (b : Byte) :
    octalValue (Fin.ofNat 0x110000 (48 + b.val / 64)) (Fin.ofNat 0x110000 (48 + b.val / 8 % 8))
      (Fin.ofNat 0x110000 (48 + b.val % 8)) = b.val := by
  have hb := b.isLt
  rw [octalValue, (octal_digit (b.val / 64) (by omega)).1,
    (octal_digit (b.val / 8 % 8) (by omega)).1, (octal_digit (b.val % 8) (by omega)).1]
  omega

/-- One escaped byte is read back whatever follows it. -/
theorem formBytes_escapeByte (b : Byte) (rest : Str) :
    formBytes (escapeByte b ++ rest) = (formBytes rest).map (b :: ·) := by
  have hb := b.isLt
  unfold escapeByte
  split_ifs with hk
  · have hv : (chr b).val = b.val := CodePoint.val_ofNat (by omega)
    rw [List.singleton_append, formBytes.eq_def]
    simp only [if_neg (alnum_ne_underscore ((kept_chr b).trans hk)), hv, Byte.ofNat_val]
  · rw [octalGroup, formBytes.eq_def]
    simp only [List.cons_append, List.nil_append, if_true, octalValue_octalGroup,
      if_neg (show ¬ b.val > 0o377 by omega), Byte.ofNat_val]

theorem isFormBody_escapeByte (b : Byte) (rest : Str) :
    isFormBody (escapeByte b ++ rest) = isFormBody rest := by
  have hb := b.isLt
  unfold escapeByte
  split_ifs with hk
  · rw [List.singleton_append, isFormBody.eq_def]
    simp only [(kept_chr b).trans hk, if_true]
  · have hu : (CodePoint.ofChar '_').isAsciiAlnum = false := by decide
    rw [octalGroup, isFormBody.eq_def]
    simp only [List.cons_append, List.nil_append, hu, Bool.false_eq_true, if_false, if_true,
      (octal_digit (b.val / 64) (by omega)).2, (octal_digit (b.val / 8 % 8) (by omega)).2,
      (octal_digit (b.val % 8) (by omega)).2, Bool.true_and]

theorem formBytes_escape (bs : Bytes) : formBytes (bs.flatMap escapeByte) = .ok bs := by
  induction bs with
  | nil => rfl
  | cons b bs ih =>
    rw [List.flatMap_cons, formBytes_escapeByte, ih]
    rfl

theorem isFormBody_escape (bs : Bytes) : isFormBody (bs.flatMap escapeByte) = true := by
  induction bs with
  | nil => rfl
  | cons b bs ih => rw [List.flatMap_cons, isFormBody_escapeByte, ih]

/-! ## Reading an escaped form -/

theorem decodeForm_escape (name : Str) :
    decodeForm ('_' :: (Utf8.encode name).flatMap escapeByte) = .ok name := by
  have hform : isForm ('_' :: (Utf8.encode name).flatMap escapeByte) = true := by
    simp [isForm, isFormBody_escape]
  have hdec : Utf8.decode .surrogatepass (Utf8.encode name) = some name :=
    Utf8.decode_encode _ _ fun _ _ => rfl
  simp only [decodeForm, hform, List.tail_cons, formBytes_escape, hdec, if_true]

theorem escapeName_of_not_plain {name : Str} (h : isPlain name = false) :
    escapeName name = ('_' : CodePoint) :: (Utf8.encode name).flatMap escapeByte := by
  simp [escapeName, h]

theorem not_isPlain_underscore (rest : Str) : isPlain ('_' :: rest) = false := by
  have hu : (CodePoint.ofChar '_').isAsciiAlnum = false := by decide
  simp [isPlain, hu]

theorem isPlain_escapeName (name : Str) : isPlain (escapeName name) = isPlain name := by
  cases h : isPlain name with
  | true => simp [escapeName, h]
  | false => rw [escapeName_of_not_plain h, not_isPlain_underscore]

theorem unescapeName_escapeName (name : Str) : unescapeName (escapeName name) = .ok name := by
  cases h : isPlain name with
  | true => simp [unescapeName, escapeName, h]
  | false =>
    have he := escapeName_of_not_plain h
    rw [he]
    simp [unescapeName, not_isPlain_underscore, decodeForm_escape, he]

/-- What reads back is an escape of the name read: the canonical check refuses the rest. -/
theorem escapeName_of_unescapeName {t name : Str} (h : unescapeName t = .ok name) :
    escapeName name = t := by
  unfold unescapeName at h
  split_ifs at h with hp hu
  · obtain rfl : t = name := by simpa using h
    simp [escapeName, hp]
  · cases hd : decodeForm t with
    | error e => simp [hd] at h
    | ok decoded =>
      simp only [hd] at h
      split_ifs at h with hc
      obtain rfl : decoded = name := by simpa using h
      simpa using hc

theorem isEscaped_iff (t : Str) :
    isEscaped t = true ↔ ∃ name, isPlain name = false ∧ t = escapeName name := by
  constructor
  · intro h
    unfold isEscaped at h
    split at h
    · simp at h
    · rename_i c rest
      split_ifs at h with hc
      subst hc
      cases hd : decodeForm (('_' : CodePoint) :: rest) with
      | error e => simp [hd] at h
      | ok decoded =>
        simp only [hd, beq_iff_eq] at h
        refine ⟨decoded, ?_, h.symm⟩
        rw [← isPlain_escapeName, h, not_isPlain_underscore]
  · rintro ⟨name, hp, rfl⟩
    rw [escapeName_of_not_plain hp]
    simp [isEscaped, decodeForm_escape, escapeName_of_not_plain hp]

/-! ## The image -/

theorem isNameChar_escapeByte (b : Byte) : ∀ c ∈ escapeByte b, isNameChar c = true := by
  have hb := b.isLt
  have hdigit : ∀ d < 8, isNameChar (Fin.ofNat 0x110000 (48 + d)) = true := by decide
  intro c hc
  unfold escapeByte at hc
  split_ifs at hc with hk
  · obtain rfl : c = chr b := by simpa using hc
    simp [isNameChar, (kept_chr b).trans hk]
  · simp only [octalGroup, List.mem_cons, List.not_mem_nil, or_false] at hc
    rcases hc with rfl | rfl | rfl | rfl
    · rfl
    · exact hdigit _ (by omega)
    · exact hdigit _ (by omega)
    · exact hdigit _ (by omega)

theorem isNameChar_escapeName (name : Str) : ∀ c ∈ escapeName name, isNameChar c = true := by
  intro c hc
  cases h : isPlain name with
  | true =>
    simp only [escapeName, h, if_true] at hc
    cases name with
    | nil => simp at hc
    | cons d rest =>
      simp only [isPlain, Bool.and_eq_true, List.all_eq_true] at h
      rcases List.mem_cons.mp hc with rfl | hc
      · simp [isNameChar, h.1]
      · exact h.2 c hc
  | false =>
    rw [escapeName_of_not_plain h] at hc
    rcases List.mem_cons.mp hc with rfl | hc
    · rfl
    · obtain ⟨b, _, hb⟩ := List.mem_flatMap.mp hc
      exact isNameChar_escapeByte b c hb

/-- Escaping is a bijection onto the texts `unescapeName` accepts: it reads back, its image is made
    of ASCII letters, digits and `_`, the escaped forms are the images of the names that are not
    plain, and every text outside the image is a `ValueError`. -/
theorem escapeName_bijective :
    (∀ name, unescapeName (escapeName name) = .ok name) ∧
    (∀ name, ∀ c ∈ escapeName name, isNameChar c = true) ∧
    (∀ t name, unescapeName t = .ok name ↔ escapeName name = t) ∧
    (∀ t, isEscaped t = true ↔ ∃ name, isPlain name = false ∧ t = escapeName name) ∧
    (∀ t, (∀ name, escapeName name ≠ t) → ∃ e, unescapeName t = .error e) := by
  have hread : ∀ t name, unescapeName t = .ok name ↔ escapeName name = t := by
    intro t name
    constructor
    · exact escapeName_of_unescapeName
    · rintro rfl
      exact unescapeName_escapeName name
  refine ⟨unescapeName_escapeName, isNameChar_escapeName, hread, isEscaped_iff, ?_⟩
  intro t ht
  cases h : unescapeName t with
  | error e => exact ⟨e, rfl⟩
  | ok name => exact absurd ((hread t name).mp h) (ht name)

/-! ## The results files' text -/

/-- The bytes a results file holds for one character: UTF-8, except that a lone surrogate
    `os.fsdecode` made of a byte goes back to that byte and any other one is written as `?`. -/
def fileChar (c : CodePoint) : Bytes :=
  if c.isSurrogate then
    if 0xDC80 ≤ c.val ∧ c.val ≤ 0xDCFF then [Fin.ofNat 256 (c.val - 0xDC00)] else [0x3F]
  else Utf8.encodeChar c

/-- `text.encode(FILE_ENCODING, FILE_ERRORS)` -/
def fileBytes (text : Str) : Bytes := text.flatMap fileChar

/-- A surrogate `os.fsdecode` made of a byte, which `fileBytes` writes as that byte. -/
def isRawByte (c : CodePoint) : Bool := 0xDC80 ≤ c.val && c.val ≤ 0xDCFF

/-- A character as a results file shows it. -/
def shown (c : CodePoint) : CodePoint := if c.isSurrogate then '?' else c

theorem not_isSurrogate_shown (c : CodePoint) : (shown c).isSurrogate = false := by
  unfold shown
  split_ifs with h
  · rfl
  · simpa using h

theorem fileBytes_append (s t : Str) : fileBytes (s ++ t) = fileBytes s ++ fileBytes t :=
  List.flatMap_append

/-- A text without raw bytes is written in UTF-8, its surrogates as `?`. -/
theorem fileBytes_eq_encode {text : Str} (h : ∀ c ∈ text, isRawByte c = false) :
    fileBytes text = Utf8.encode (text.map shown) := by
  induction text with
  | nil => rfl
  | cons c text ih =>
    have hraw : ¬ (0xDC80 ≤ c.val ∧ c.val ≤ 0xDCFF) := by
      simpa [isRawByte] using h c (by simp)
    rw [fileBytes, List.flatMap_cons, ← fileBytes, ih fun d hd => h d (by simp [hd]),
      List.map_cons, Utf8.encode, Utf8.encode, List.flatMap_cons]
    congr 1
    unfold fileChar shown
    split_ifs
    · rfl
    · rfl

theorem isRawByte_of_not_surrogate {c : CodePoint} (h : c.isSurrogate = false) :
    isRawByte c = false := by
  simp only [CodePoint.isSurrogate, isRawByte, Bool.and_eq_false_iff, decide_eq_false_iff_not] at h ⊢
  omega

theorem map_shown {text : Str} (h : ∀ c ∈ text, c.isSurrogate = false) : text.map shown = text := by
  conv_rhs => rw [← List.map_id text]
  refine List.map_congr_left fun c hc => ?_
  rw [shown, if_neg (by simp [h c hc]), id_eq]

end Vamos.Names
